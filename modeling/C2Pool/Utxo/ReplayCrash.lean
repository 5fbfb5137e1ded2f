import C2Pool.Utxo.ReplayUndo

/-! # Restarts of the replay fold

Against a reference that folds the accepted blocks into a plain map: whatever is
delivered, and wherever memory is lost, the fold holds the coins of the blocks that it
accepted and did not lose.
-/

namespace C2Pool.Utxo.ReplayUtxoFold

open List SortedMap Function

/-- The set of the reference. -/
abbrev CoinMap := SortedMap Outpoint Coin

/-- A transaction: the inputs go, the spendable outputs come. -/
def referenceTx (height : U32) (isCoinbase : Bool) (set : CoinMap) (tx : Tx) : CoinMap :=
  let left := if isCoinbase then set else tx.vin.foldl SortedMap.erase set
  (addedCoins true height isCoinbase false tx).foldl (fun set e => set.insert e.1 e.2) left

def referenceBlock (set : CoinMap) (d : Delivery) : CoinMap :=
  if d.height = 0 then set
  else
    match d.block.txs with
    | [] => set
    | coinbase :: txs =>
      txs.foldl (referenceTx d.height false) (referenceTx d.height true set coinbase)

def referenceSet (chain : List Delivery) : CoinMap := chain.foldl referenceBlock ∅

def referenceBest (chain : List Delivery) : Uint256 × U32 :=
  match chain.getLast? with
  | none => (0, 0)
  | some d => (d.hash, d.height)

def referenceHash (hasher : List Byte → Uint256) (chain : List Delivery) : ReplayUtxoSetHash :=
  let best := referenceBest chain
  ((scanRows (referenceSet chain)).foldl (fun a e => a.coin e.1 e.2)
    ({ stream := leBytes 32 best.1.val } : HashScan)).finish hasher best.1 best.2

theorem lookup_referenceTx (height : U32) (isCoinbase : Bool) (set : CoinMap) (tx : Tx) :
    (referenceTx height isCoinbase set tx).lookup =
      CoinSet.after set.lookup (spending true height isCoinbase false tx) := by
  have hcreate : ∀ (coins : List (Outpoint × Coin)) (set : CoinMap),
      (coins.foldl (fun set e => set.insert e.1 e.2) set).lookup =
        CoinSet.createAll set.lookup coins := by
    unfold CoinSet.createAll
    intro coins
    induction coins with
    | nil => exact fun set => rfl
    | cons e coins ih =>
      intro set
      rw [foldl_cons, foldl_cons, ih]
      congr 1
      funext x
      rw [lookup_insert, update_apply]
  have hspend : ∀ (vin : List Outpoint) (set : CoinMap),
      (vin.foldl erase set).lookup = CoinSet.spendAll set.lookup vin := by
    unfold CoinSet.spendAll
    intro vin
    induction vin with
    | nil => exact fun set => rfl
    | cons op vin ih =>
      intro set
      rw [foldl_cons, foldl_cons, ih]
      congr 1
      funext x
      rw [lookup_erase, update_apply]
  unfold referenceTx CoinSet.after spending
  rw [hcreate]
  cases isCoinbase with
  | true => rfl
  | false => rw [if_neg (by decide), if_neg (by decide), hspend]

variable {d : Delivery} {s : ReplayUtxoFold} {n : Nat}

theorem lookup_referenceBlock (hd : d.height ≠ 0) (set : CoinMap) :
    (referenceBlock set d).lookup =
      CoinSet.afterAll set.lookup (foldSpendings d.height true d.block.txs) := by
  have htxs : ∀ (txs : List Tx) (set : CoinMap),
      (txs.foldl (referenceTx d.height false) set).lookup =
        CoinSet.afterAll set.lookup (foldSpendings d.height false txs) := by
    intro txs
    induction txs with
    | nil => exact fun set => rfl
    | cons tx txs ih =>
      intro set
      rw [foldl_cons, ih, lookup_referenceTx]
      rfl
  unfold referenceBlock
  rw [if_neg hd]
  cases d.block.txs with
  | nil => rfl
  | cons coinbase txs =>
    rw [htxs, lookup_referenceTx]
    rfl

/-! ## Runs with restarts -/

/-- A delivery, a flush, or a loss of memory. -/
inductive CrashOp where
  | deliver (d : Delivery)
  | flush
  | crash

/-- The fold with the list of the blocks that it accepted and did not lose. -/
structure Traced where
  fold : ReplayUtxoFold
  chain : List Delivery

def storedChain (store : FoldStore) (chain : List Delivery) : List Delivery :=
  match store.cursor with
  | none => []
  | some cur => chain.filter fun d => d.height ≤ cur.bestHeight

/-- A step of the run: a new block that is accepted is put on the list, and a loss of memory cuts
the list back to the stored cursor, where the delivery resumes. -/
def Traced.step (t : Traced) : CrashOp → Traced
  | .deliver d =>
    let r := t.fold.onReplayBlock d.height d.hash d.block
    if r.2 = true ∧ ¬ (t.fold.haveCursor ∧ d.height ≤ t.fold.bestHeight) then
      ⟨r.1, t.chain ++ [d]⟩
    else ⟨r.1, t.chain⟩
  | .flush => ⟨t.fold.flush, t.chain⟩
  | .crash => ⟨t.fold.crash, storedChain t.fold.store t.chain⟩

def crashRun (opts : ReplayUtxoFoldOptions) (ops : List CrashOp) : Traced :=
  ops.foldl Traced.step ⟨openStore opts {}, []⟩

theorem referenceSet_height {chain : List Delivery} {op : Outpoint} {c : Coin}
    (h : (referenceSet chain).lookup op = some c) : ∃ d ∈ chain, c.height = d.height := by
  induction chain using reverseRecOn with
  | nil => cases h
  | append_singleton chain d ih =>
    unfold referenceSet at h ih
    rw [foldl_append, foldl_cons, foldl_nil] at h
    have hlater : ∀ d' ∈ chain, c.height = d'.height →
        ∃ d' ∈ chain ++ [d], c.height = d'.height := fun d' hd' heq =>
      ⟨d', mem_append_left _ hd', heq⟩
    by_cases hd : d.height = 0
    · unfold referenceBlock at h
      rw [if_pos hd] at h
      obtain ⟨d', hd', heq⟩ := ih h
      exact hlater d' hd' heq
    rw [lookup_referenceBlock hd] at h
    obtain hold | ⟨t, ht, hnew⟩ := CoinSet.afterAll_eq_some h
    · obtain ⟨d', hd', heq⟩ := ih hold
      exact hlater d' hd' heq
    · obtain ⟨tx, first, rfl⟩ := mem_spendings ht
      exact ⟨d, by simp, height_of_mem_addedCoins hnew⟩

/-- What holds along a run whose heights the store can keep. -/
structure Mirrors (t : Traced) : Prop where
  inv : FoldInv t.fold
  heights : ∀ d ∈ t.chain, d.height.val.testBit 30 = false
  view : ∀ op, t.fold.getCoin op = (referenceSet t.chain).lookup op
  disk : ∀ op, (t.fold.store.coins.lookup op).bind deserializeCoin =
    (referenceSet (storedChain t.fold.store t.chain)).lookup op
  below : ∀ d ∈ t.chain, t.fold.haveCursor = true ∧ d.height ≤ t.fold.bestHeight
  cursor : ∀ cur, t.fold.store.cursor = some cur →
    t.fold.haveCursor = true ∧ cur.bestHeight ≤ t.fold.bestHeight
  best : referenceBest t.chain = (t.fold.bestHash, t.fold.bestHeight)
  diskBest : ∀ cur, t.fold.store.cursor = some cur →
    referenceBest (storedChain t.fold.store t.chain) = (cur.bestHash, cur.bestHeight)

variable {t : Traced}

theorem Mirrors.low (h : Mirrors t) : LowOverlay t.fold.overlay := by
  intro op c hop
  have hview : t.fold.getCoin op = some c := by
    unfold getCoin coinIn WriteBack.view
    rw [hop]
  rw [h.view] at hview
  obtain ⟨d, hd, heq⟩ := referenceSet_height hview
  rw [heq]
  exact h.heights d hd

theorem Mirrors.getCoin_flush (h : Mirrors t) (op : Outpoint) :
    t.fold.flush.getCoin op = t.fold.getCoin op :=
  h.low.eq_of_aged (ReplayUtxoFold.getCoin_flush t.fold op)

theorem Mirrors.flush (h : Mirrors t) : Mirrors ⟨t.fold.flush, t.chain⟩ := by
  have hview := h.getCoin_flush
  obtain hsame | ⟨hcursor, hflush⟩ := flush_cases t.fold
  · rw [hsame]
    exact h
  have hstored : storedChain t.fold.flush.store t.chain = t.chain := by
    rw [hflush]
    unfold storedChain emptied flushed
    rw [filter_eq_self]
    intro d hd
    simpa using (h.below d hd).2
  have hbest : referenceBest t.chain = (t.fold.flush.bestHash, t.fold.flush.bestHeight) := by
    rw [flush_bestHash, flush_bestHeight]
    exact h.best
  refine ⟨h.inv.flush, h.heights, fun op => (hview op).trans (h.view op), ?_, ?_, ?_, hbest, ?_⟩
  · intro op
    rw [hstored, ← getCoin_of_flush hcursor, hview, h.view]
  · intro d hd
    rw [flush_haveCursor, flush_bestHeight]
    exact h.below d hd
  · intro cur hcur
    rw [hflush] at hcur
    rw [← Option.some.inj hcur]
    rw [flush_haveCursor, flush_bestHeight]
    exact ⟨hcursor, le_rfl⟩
  · intro cur hcur
    rw [hstored, h.best]
    rw [hflush] at hcur
    rw [← Option.some.inj hcur]

theorem storedChain_storedChain (store : FoldStore) (chain : List Delivery) :
    storedChain store (storedChain store chain) = storedChain store chain := by
  unfold storedChain
  cases store.cursor with
  | none => rfl
  | some cur => simp [filter_filter]

theorem Mirrors.crash (h : Mirrors t) :
    Mirrors ⟨t.fold.crash, storedChain t.fold.store t.chain⟩ := by
  have hstore : t.fold.crash.store = t.fold.store := by
    unfold ReplayUtxoFold.crash openStore
    cases t.fold.store.cursor <;> rfl
  have hoverlay : t.fold.crash.overlay = ∅ := by
    unfold ReplayUtxoFold.crash openStore
    cases t.fold.store.cursor <;> rfl
  have hmem : ∀ d ∈ storedChain t.fold.store t.chain, d ∈ t.chain := by
    intro d hd
    unfold storedChain at hd
    cases hcursor : t.fold.store.cursor with
    | none => simp [hcursor] at hd
    | some cur =>
      rw [hcursor] at hd
      exact mem_of_mem_filter hd
  refine ⟨h.inv.crash, fun d hd => h.heights d (hmem d hd), ?_, ?_, ?_, ?_, ?_, ?_⟩
  · intro op
    unfold getCoin coinIn WriteBack.view
    rw [hoverlay, hstore]
    exact h.disk op
  · intro op
    rw [hstore, storedChain_storedChain]
    exact h.disk op
  · intro d hd
    unfold ReplayUtxoFold.crash openStore
    unfold storedChain at hd
    cases hcursor : t.fold.store.cursor with
    | none => simp [hcursor] at hd
    | some cur =>
      rw [hcursor] at hd
      exact ⟨rfl, by simpa using (mem_filter.mp hd).2⟩
  · intro cur hcur
    rw [hstore] at hcur
    unfold ReplayUtxoFold.crash openStore
    rw [hcur]
    exact ⟨rfl, le_rfl⟩
  · unfold ReplayUtxoFold.crash openStore
    cases hcursor : t.fold.store.cursor with
    | none =>
      unfold storedChain
      rw [hcursor]
      rfl
    | some cur => exact h.diskBest cur hcursor
  · intro cur hcur
    rw [hstore] at hcur ⊢
    rw [storedChain_storedChain]
    exact h.diskBest cur hcur

section

variable (h : Mirrors t) {overlay : Overlay} (undo : BlockUndo)
  (hlow : d.height.val.testBit 30 = false)
  (hnew : t.fold.haveCursor = true → t.fold.bestHeight < d.height)
  (hview : ∀ op, coinIn t.fold.store overlay op =
    (referenceBlock (referenceSet t.chain) d).lookup op)
include h undo hlow hnew hview

theorem Mirrors.moveTo : Mirrors ⟨t.fold.moveTo d.height d.hash overlay undo, t.chain ++ [d]⟩ := by
  have hset : referenceSet (t.chain ++ [d]) = referenceBlock (referenceSet t.chain) d := by
    unfold referenceSet
    rw [foldl_append]
    rfl
  have hstored : storedChain t.fold.store (t.chain ++ [d]) = storedChain t.fold.store t.chain := by
    unfold storedChain
    cases hcursor : t.fold.store.cursor with
    | none => rfl
    | some cur =>
      obtain ⟨hhave, hle⟩ := h.cursor cur hcursor
      have hlt := lt_of_le_of_lt hle (hnew hhave)
      simp [filter_append, not_le.mpr hlt]
  refine ⟨h.inv.moveTo _ _ _ _, ?_, ?_, ?_, ?_, ?_, ?_, ?_⟩
  · intro x hx
    obtain hx | hx := mem_append.mp hx
    · exact h.heights x hx
    · rw [mem_singleton.mp hx]
      exact hlow
  · intro op
    rw [hset]
    exact hview op
  · intro op
    have hdisk := h.disk op
    rw [← hstored] at hdisk
    exact hdisk
  · intro x hx
    refine ⟨rfl, ?_⟩
    obtain hx | hx := mem_append.mp hx
    · obtain ⟨hhave, hle⟩ := h.below x hx
      exact le_trans hle (hnew hhave).le
    · rw [mem_singleton.mp hx]
      exact le_rfl
  · intro cur hcur
    obtain ⟨hhave, hle⟩ := h.cursor cur hcur
    exact ⟨rfl, le_trans hle (hnew hhave).le⟩
  · unfold referenceBest
    rw [getLast?_concat]
    rfl
  · intro cur hcur
    have hdisk := h.diskBest cur hcur
    rw [← hstored] at hdisk
    exact hdisk

theorem Mirrors.advance :
    Mirrors ⟨t.fold.advance d.height d.hash overlay undo, t.chain ++ [d]⟩ := by
  have hmoved := h.moveTo undo hlow hnew hview
  obtain heq | heq := advance_cases t.fold d.height d.hash overlay undo
  · rw [heq]
    exact hmoved
  · rw [heq]
    exact hmoved.flush

end

theorem Mirrors.refuse (h : Mirrors t) (why : FoldRefusal) :
    Mirrors ⟨(t.fold.refuse why).1, t.chain⟩ := { h with inv := h.inv.refuse why }

theorem Mirrors.deliver (h : Mirrors t)
    (hlow : d.height.val.testBit 30 = false) : Mirrors (t.step (.deliver d)) := by
  unfold Traced.step
  dsimp only
  obtain ⟨why, heq⟩ | ⟨heq, hrepeat⟩ | ⟨heq, hzero, hno⟩ | ⟨overlay, undo, heq, happly, hnext,
      hfirst⟩ :=
    onReplayBlock_cases t.fold d.height d.hash d.block
  · rw [heq, if_neg (fun hboth => by cases hboth.1)]
    exact h.refuse why
  · rw [heq, if_neg (fun hboth => hboth.2 hrepeat)]
    exact h
  · rw [heq, if_pos ⟨rfl, fun hboth => by rw [hno] at hboth; cases hboth.1⟩, ← hzero]
    apply h.advance _ hlow
    · intro hyes
      rw [hno] at hyes
      cases hyes
    intro op
    unfold referenceBlock
    rw [if_pos hzero]
    exact h.view op
  · have hnew : ¬ (t.fold.haveCursor = true ∧ d.height ≤ t.fold.bestHeight) := fun hboth =>
      absurd hboth.2 (not_le.mpr (hnext hboth.1).2)
    rw [heq, if_pos ⟨rfl, hnew⟩]
    apply h.advance _ hlow fun hcursor => (hnext hcursor).2
    intro op
    have hpos : d.height ≠ 0 := by
      cases hcursor : t.fold.haveCursor with
      | false =>
        rw [hfirst hcursor]
        decide
      | true =>
        intro hzero
        have hlt := (hnext hcursor).2
        rw [hzero] at hlt
        exact absurd hlt (not_lt.mpr (Fin.zero_le _))
    rw [lookup_referenceBlock hpos, (applyTxs_ok happly).1]
    exact congrFun (congrArg (fun v => CoinSet.afterAll v _) (funext h.view)) op

theorem mirrors_run (opts : ReplayUtxoFoldOptions) {ops : List CrashOp}
    (hops : ∀ d, CrashOp.deliver d ∈ ops → d.height.val.testBit 30 = false) :
    Mirrors (crashRun opts ops) := by
  have hstart : Mirrors ⟨openStore opts {}, []⟩ := by
    refine ⟨foldInv_run opts [], ?_, fun op => rfl, fun op => rfl, ?_, ?_, rfl, ?_⟩
    · intro d hd
      cases hd
    · intro d hd
      cases hd
    · intro cur hcur
      cases hcur
    · intro cur hcur
      cases hcur
  unfold crashRun
  generalize (⟨openStore opts {}, []⟩ : Traced) = t at hstart
  induction ops generalizing t with
  | nil => exact hstart
  | cons op ops ih =>
    apply ih (fun d hd => hops d (mem_cons_of_mem _ hd))
    cases op with
    | deliver d => exact hstart.deliver (hops d mem_cons_self)
    | flush => exact hstart.flush
    | crash => exact hstart.crash

theorem foldlM_row {rows : List (Outpoint × List Byte)} {read : List Byte → Coin}
    (h : ∀ e ∈ rows, deserializeCoin e.2 = some (read e.2)) (a : HashScan) :
    rows.foldlM HashScan.row a =
      some ((rows.map fun e => (e.1, read e.2)).foldl (fun a e => a.coin e.1 e.2) a) := by
  induction rows generalizing a with
  | nil => rfl
  | cons e rows ih =>
    have hrow : a.row e = some (a.coin e.1 (read e.2)) := by
      unfold HashScan.row
      rw [h e mem_cons_self, Option.map_some]
    rw [foldlM_cons, hrow, map_cons, foldl_cons]
    exact ih (fun e' he' => h e' (mem_cons_of_mem _ he')) _

theorem foldlM_scanRows {m : SortedMap Outpoint (List Byte)} {set : CoinMap}
    (hm : ∀ op data, m.lookup op = some data → ∃ c, data = serializeCoin c)
    (hset : ∀ op, (m.lookup op).bind deserializeCoin = set.lookup op) (a : HashScan) :
    (scanRows m).foldlM HashScan.row a =
      some ((scanRows set).foldl (fun a e => a.coin e.1 e.2) a) := by
  let read : List Byte → Coin := fun data =>
    (deserializeCoin data).getD ⟨0, ⟨[], by decide⟩, 0, false, false⟩
  have hread : ∀ e ∈ m.entries, deserializeCoin e.2 = some (read e.2) := by
    intro e he
    obtain ⟨c, hc⟩ := hm e.1 e.2 (mem_entries_iff.mp he)
    rw [hc]
    change _ = some ((deserializeCoin (serializeCoin c)).getD _)
    rw [deserializeCoin_serializeCoin, Option.getD_some]
  have hmap : set = m.mapValues fun _ data => read data := by
    ext1 op
    rw [lookup_mapValues, ← hset]
    cases hop : m.lookup op with
    | none => rfl
    | some data => exact hread (op, data) (mem_entries_iff.mpr hop)
  have hrows : scanRows set = (scanRows m).map fun e => (e.1, read e.2) := by
    unfold scanRows
    rw [hmap, entries_mapValues]
    symm
    apply map_mergeSort
    intro a _ b _
    rfl
  rw [hrows]
  apply foldlM_row
  intro e he
  exact hread e (mem_mergeSort.mp he)

theorem Mirrors.hashSerialized2 (h : Mirrors t) (hasher : List Byte → Uint256) :
    (t.fold.hashSerialized2 hasher).2 = some (referenceHash hasher t.chain) := by
  have hcoins : ∀ op, (t.fold.flush.store.coins.lookup op).bind deserializeCoin =
      (referenceSet t.chain).lookup op := by
    intro op
    rw [← h.view op, ← h.getCoin_flush op]
    cases hcursor : t.fold.haveCursor with
    | true => exact (getCoin_of_flush hcursor op).symm
    | false =>
      have hsame : t.fold.flush = t.fold := by
        unfold ReplayUtxoFold.flush
        rw [if_pos hcursor]
      rw [hsame]
      unfold getCoin coinIn WriteBack.view
      rw [(h.inv.idle hcursor).1]
      rfl
  unfold ReplayUtxoFold.hashSerialized2 referenceHash
  dsimp only
  rw [foldlM_scanRows h.inv.flush.readable hcoins, flush_bestHash, flush_bestHeight, h.best]

theorem getCoin_of_refused
    (h : (s.onReplayBlock d.height d.hash d.block).2 = false) (op : Outpoint) :
    (s.onReplayBlock d.height d.hash d.block).1.getCoin op = s.getCoin op := by
  obtain ⟨why, heq⟩ | ⟨heq, -⟩ | ⟨heq, -⟩ | ⟨overlay, undo, heq, -⟩ :=
    onReplayBlock_cases s d.height d.hash d.block
  · rw [heq]
    rfl
  · rw [heq]
  · rw [heq] at h
    cases h
  · rw [heq] at h
    cases h

/-- Whatever is delivered below the height `2 ^ 30`, and wherever memory is lost, the fold holds
the coins of the reference over the accepted blocks, and its set hash is that of the reference; a
refused block contributes nothing. -/
theorem crash_transparent (hasher : List Byte → Uint256) (opts : ReplayUtxoFoldOptions)
    (ops : List CrashOp) (hops : ∀ d, CrashOp.deliver d ∈ ops → d.height.val < 2 ^ 30) :
    (∀ op, (crashRun opts ops).fold.getCoin op =
        (referenceSet (crashRun opts ops).chain).lookup op) ∧
      ((crashRun opts ops).fold.hashSerialized2 hasher).2 =
        some (referenceHash hasher (crashRun opts ops).chain) ∧
      ∀ d, ((crashRun opts ops).fold.onReplayBlock d.height d.hash d.block).2 = false →
        ((crashRun opts ops).step (.deliver d)).chain = (crashRun opts ops).chain ∧
          ∀ op, ((crashRun opts ops).step (.deliver d)).fold.getCoin op =
            (crashRun opts ops).fold.getCoin op := by
  have h := mirrors_run opts fun d hd => Nat.testBit_lt_two_pow (hops d hd)
  refine ⟨h.view, h.hashSerialized2 hasher, ?_⟩
  intro d hrefused
  unfold Traced.step
  dsimp only
  rw [if_neg (fun hboth => by rw [hrefused] at hboth; cases hboth.1)]
  exact ⟨rfl, getCoin_of_refused hrefused⟩

def restartOps : List CrashOp :=
  [.deliver ⟨0, 100, { txs := [{ txid := 1 }] }⟩, .flush,
    .deliver ⟨1, 101, { txs := [openTx] }⟩, .crash,
    .deliver ⟨1, 101, { txs := [openTx] }⟩,
    .deliver ⟨0, 100, { txs := [{ txid := 1 }] }⟩]

theorem crash_transparent_restart :
    (∀ d, CrashOp.deliver d ∈ restartOps → d.height.val < 2 ^ 30) ∧
      ∀ op, (crashRun {} restartOps).fold.getCoin op =
        (referenceSet (crashRun {} restartOps).chain).lookup op := by
  have hops : ∀ d, CrashOp.deliver d ∈ restartOps → d.height.val < 2 ^ 30 := by
    intro d hd
    simp only [restartOps, mem_cons, CrashOp.deliver.injEq, reduceCtorEq, not_mem_nil,
      or_false, false_or] at hd
    obtain rfl | rfl | rfl | rfl := hd <;> decide
  exact ⟨hops, (crash_transparent (fun _ => 0) {} restartOps hops).1⟩

/-! ## Above the heights that the store can keep -/

def bareDelivery (h : Nat) : Delivery := ⟨Fin.ofNat _ h, 0, { txs := [{ txid := 0 }] }⟩

def bareOps (n : Nat) : List CrashOp := (List.range n).map fun h => .deliver (bareDelivery h)

/-- The fold after `n` blocks without outputs. -/
structure Bare (n : Nat) (s : ReplayUtxoFold) : Prop where
  opts : s.opts = { flushInterval := 1 }
  overlay : s.overlay = ∅
  coins : s.store.coins = ∅
  poisoned : s.poisoned = none
  fresh : n = 0 → s.haveCursor = false
  cursor : 0 < n → s.haveCursor = true ∧ s.bestHeight.val + 1 = n

theorem Bare.onReplayBlock (h : Bare n s) (hn : n < 2 ^ 32)
    (hash : Uint256) (block : FoldBlock) (overlay : Overlay) (undo : BlockUndo)
    (happly : n ≠ 0 → s.applyBlockTxs (Fin.ofNat _ n) block = .ok (overlay, undo))
    (hzero : n = 0 → overlay = s.overlay ∧ undo = {}) :
    s.onReplayBlock (Fin.ofNat _ n) hash block =
      (s.advance (Fin.ofNat _ n) hash overlay undo, true) := by
  have hval : (Fin.ofNat (2 ^ 32) n).val = n := Nat.mod_eq_of_lt hn
  have hlink : ¬ (s.opts.checkPrevLinkage = true ∧ s.haveCursor = true ∧ 1 ≤ s.bestHeight ∧
      block.previousBlock ≠ s.bestHash) := by
    rw [h.opts]
    simp
  unfold ReplayUtxoFold.onReplayBlock
  rw [h.poisoned]
  dsimp only
  by_cases hn0 : n = 0
  · have hno := h.fresh hn0
    obtain ⟨rfl, rfl⟩ := hzero hn0
    subst hn0
    rw [if_neg (by simp [hno]), if_neg (by simp [hno]), if_neg hlink, if_neg (by simp),
      if_pos (show Fin.ofNat (2 ^ 32) 0 = 0 from rfl)]
  obtain ⟨hcursor, hbest⟩ := h.cursor (Nat.pos_of_ne_zero hn0)
  have hnew : ¬ (s.haveCursor = true ∧ Fin.ofNat (2 ^ 32) n ≤ s.bestHeight) := by
    rintro ⟨-, hle⟩
    omega
  have hnext : ¬ (s.haveCursor = true ∧ Fin.ofNat (2 ^ 32) n ≠ s.bestHeight + 1) := by
    rintro ⟨-, hne⟩
    apply hne
    apply Fin.ext
    rw [hval, Fin.val_add, ← hbest]
    exact (Nat.mod_eq_of_lt (by rw [hbest]; exact hn)).symm
  have hpos : Fin.ofNat (2 ^ 32) n ≠ 0 := by
    intro heq
    have := congrArg Fin.val heq
    rw [hval] at this
    exact hn0 this
  rw [if_neg hnew, if_neg hnext, if_neg hlink, if_neg (by simp [hcursor]), if_neg hpos, happly hn0]

theorem Bare.advance (h : Bare n s) (hn : n < 2 ^ 32) (hash : Uint256) (undo : BlockUndo) :
    Bare (n + 1) (s.advance (Fin.ofNat _ n) hash s.overlay undo) := by
  have hval : (Fin.ofNat (2 ^ 32) n).val = n := Nat.mod_eq_of_lt hn
  have hmoved : Bare (n + 1) (s.moveTo (Fin.ofNat _ n) hash s.overlay undo) := by
    refine { h with fresh := ?_, cursor := ?_ }
    · intro hzero
      cases hzero
    · intro _
      exact ⟨rfl, congrArg (· + 1) hval⟩
  obtain heq | heq := advance_cases s (Fin.ofNat _ n) hash s.overlay undo
  · rw [heq]
    exact hmoved
  rw [heq]
  obtain hsame | ⟨-, hflush⟩ := flush_cases (s.moveTo (Fin.ofNat _ n) hash s.overlay undo)
  · rw [hsame]
    exact hmoved
  rw [hflush]
  refine { hmoved with overlay := rfl, coins := ?_ }
  unfold emptied flushed
  rw [hmoved.overlay, hmoved.coins]
  rfl

theorem fold_deliver (t : Traced) (d : Delivery) :
    (t.step (.deliver d)).fold = (t.fold.onReplayBlock d.height d.hash d.block).1 := by
  unfold Traced.step
  dsimp only
  split <;> rfl

theorem bare_run (hn : n < 2 ^ 32) : Bare n (crashRun { flushInterval := 1 } (bareOps n)).fold := by
  induction n with
  | zero =>
    refine ⟨rfl, rfl, rfl, rfl, fun _ => rfl, ?_⟩
    intro hpos
    exact absurd hpos (lt_irrefl 0)
  | succ n ih =>
    have h := ih (by omega)
    have hsplit : crashRun { flushInterval := 1 } (bareOps (n + 1)) =
        (crashRun { flushInterval := 1 } (bareOps n)).step (.deliver (bareDelivery n)) := by
      unfold crashRun bareOps
      rw [range_succ, map_append, foldl_append]
      rfl
    rw [hsplit, fold_deliver]
    have hdeliver := h.onReplayBlock (by omega) (bareDelivery n).hash (bareDelivery n).block
      (crashRun { flushInterval := 1 } (bareOps n)).fold.overlay {} (fun _ => rfl)
      fun _ => ⟨rfl, rfl⟩
    have hheight : (bareDelivery n).height = Fin.ofNat _ n := rfl
    rw [hheight, hdeliver]
    exact h.advance (by omega) _ _

/-- The block of the height `2 ^ 30`, whose coinbase pays one output. -/
def highDelivery : Delivery :=
  ⟨Fin.ofNat _ (2 ^ 30), 1, { txs := [openTx] }⟩

def highCoin : Coin := ⟨50, opTrue, Fin.ofNat _ (2 ^ 30), true, false⟩

def highOps : List CrashOp := bareOps (2 ^ 30) ++ [.deliver highDelivery]

/-- What the fold holds after the block of the height `2 ^ 30` is flushed. -/
theorem Bare.high (h : Bare (2 ^ 30) s) :
    (s.onReplayBlock highDelivery.height highDelivery.hash highDelivery.block).2 = true ∧
      (s.onReplayBlock highDelivery.height highDelivery.hash highDelivery.block).1.getCoin
        (toLex (10, 0)) = some (storedCoin highCoin) := by
  have hfree : coinIn s.store ∅ (toLex (10, 0)) = none := by
    unfold coinIn WriteBack.view
    rw [h.coins]
    rfl
  have hadded : addedCoins true (Fin.ofNat _ (2 ^ 30)) true false
      openTx = [(toLex (10, 0), highCoin)] := by decide +kernel
  obtain ⟨undo, happly⟩ : ∃ undo, s.applyBlockTxs (Fin.ofNat _ (2 ^ 30)) highDelivery.block =
      .ok ((∅ : Overlay).insert (toLex (10, 0)) (some highCoin), undo) := by
    unfold applyBlockTxs highDelivery
    rw [if_neg (by simp), h.overlay]
    simp only [applyTxs, spendTx, if_true, PartialRun.ok_bind, hadded, addVout, hfree,
      Option.isSome_none, Bool.false_eq_true, if_false, touch]
    exact ⟨_, rfl⟩
  have hheight : highDelivery.height = Fin.ofNat _ (2 ^ 30) := rfl
  have hdeliver := h.onReplayBlock (by decide) highDelivery.hash highDelivery.block _ undo
    (fun _ => happly) fun hzero => absurd hzero (by decide)
  have hflush : s.advance (Fin.ofNat _ (2 ^ 30)) highDelivery.hash
      ((∅ : Overlay).insert (toLex (10, 0)) (some highCoin)) undo =
      (s.moveTo (Fin.ofNat _ (2 ^ 30)) highDelivery.hash
        ((∅ : Overlay).insert (toLex (10, 0)) (some highCoin)) undo).flush := by
    unfold ReplayUtxoFold.advance
    dsimp only
    rw [if_pos]
    unfold moveTo
    dsimp only
    rw [h.opts]
    exact Nat.le_add_left 1 _
  rw [hheight, hdeliver]
  refine ⟨rfl, ?_⟩
  dsimp only
  rw [hflush, getCoin_of_flush rfl, flush_of_pending rfl (Or.inl (by unfold moveTo; simp))]
  unfold emptied flushed moveTo
  dsimp only
  rw [WriteBack.lookup_commit, lookup_insert, if_pos rfl]
  exact deserializeCoin_serializeCoin highCoin

/-- After `2 ^ 30` blocks, the coin of the next block is stored as one of another height. -/
theorem high_coin_altered :
    (crashRun { flushInterval := 1 } highOps).fold.getCoin (toLex (10, 0)) ≠
      (referenceSet (crashRun { flushInterval := 1 } highOps).chain).lookup (toLex (10, 0)) := by
  have hbare := bare_run (n := 2 ^ 30) (by decide)
  have hsplit : crashRun { flushInterval := 1 } highOps =
      (crashRun { flushInterval := 1 } (bareOps (2 ^ 30))).step (.deliver highDelivery) := by
    unfold crashRun highOps
    rw [foldl_append, foldl_cons, foldl_nil]
  rw [hsplit, fold_deliver]
  generalize crashRun { flushInterval := 1 } (bareOps (2 ^ 30)) = t at hbare ⊢
  obtain ⟨htrue, hcoin⟩ := hbare.high
  have hnew : ¬ (t.fold.haveCursor = true ∧ highDelivery.height ≤ t.fold.bestHeight) := by
    rintro ⟨-, hle⟩
    have hbest := (hbare.cursor (by decide)).2
    have hval : highDelivery.height.val = 2 ^ 30 := by decide
    have := Fin.le_def.mp hle
    omega
  have hchain : (t.step (.deliver highDelivery)).chain = t.chain ++ [highDelivery] := by
    unfold Traced.step
    dsimp only
    rw [if_pos ⟨htrue, hnew⟩]
  have hreference : (referenceSet (t.chain ++ [highDelivery])).lookup (toLex (10, 0)) =
      some highCoin := by
    unfold referenceSet
    rw [foldl_append, foldl_cons, foldl_nil, lookup_referenceBlock (by decide)]
    have hadded : addedCoins true highDelivery.height true false
        openTx = [(toLex (10, 0), highCoin)] := by decide +kernel
    unfold foldSpendings highDelivery at *
    simp only [spendings, spending, CoinSet.afterAll, foldl_cons, foldl_nil,
      CoinSet.after, CoinSet.createAll, hadded]
    exact update_self _ _ _
  rw [hcoin, hchain, hreference]
  decide +kernel

end C2Pool.Utxo.ReplayUtxoFold
