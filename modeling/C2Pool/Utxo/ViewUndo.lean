import C2Pool.Utxo.ViewCache

/-! # Connecting and undoing blocks

The undo records of a run of connects, disconnected newest first, give the view of
before, with flushes at any points.  A flush can change a coin: the store has no room
for a height from `2 ^ 30` on, so a pending coin of such a height comes back as another.
-/

namespace C2Pool.Utxo.UTXOViewCache

open CoinSet (held)
open List Option

/-! ## One block -/

def blockSpendings (strict : Bool) (block : Block) : List (CoinSet.Spending Outpoint Coin) :=
  spendings strict block.height Tx.hogEx true block.txs

/-- No output of the block goes to an outpoint that is unspent before the block or when the output
is added. -/
def RecreatesNone (s : UTXOViewCache) (strict : Bool) (block : Block) : Prop :=
  (∀ op ∈ CoinSet.createdKeys (blockSpendings strict block), s.getCoin op = none) ∧
    CoinSet.FreshAll s.getCoin (blockSpendings strict block)

theorem restoreCoins_spec (known : Bool) (s : UTXOViewCache) (l : List (Outpoint × Coin)) :
    (l.foldl (restoreCoin known) s).getCoin =
      CoinSet.putBack s.getCoin
        (l.map fun e => (e.1, if !known && e.2.isSpent then none else some e.2)) := by
  induction l generalizing s with
  | nil => rfl
  | cons e l ih =>
    rw [foldl_cons, ih, map_cons, CoinSet.putBack_cons]
    congr 1
    unfold restoreCoin
    cases hskip : !known && e.2.isSpent with
    | true => rfl
    | false => exact getCoin_addCoin s e.1 e.2

theorem removeCoins_spec (s : UTXOViewCache) (ops : List Outpoint) :
    (ops.foldl removeCoin s).getCoin = CoinSet.spendAll s.getCoin ops := by
  unfold CoinSet.spendAll
  induction ops generalizing s with
  | nil => rfl
  | cons op ops ih =>
    rw [foldl_cons, foldl_cons, ih]
    congr 1
    exact getCoin_spend s op

theorem disconnectLocked_spec (s : UTXOViewCache) (undo : BlockUndo) (known : Bool) :
    (s.disconnectLocked undo known).getCoin =
      CoinSet.spendAll (CoinSet.restoreAll s.getCoin
        ((undo.txUndos.map (entries known)).map List.reverse)) undo.addedOutpoints := by
  unfold disconnectLocked
  rw [removeCoins_spec, restoreCoins_spec]
  congr 1
  unfold CoinSet.restoreAll CoinSet.putBack
  rw [map_flatMap, foldl_flatMap, ← map_reverse, ← map_reverse]
  rw [foldl_map (f := reverse), foldl_map (f := entries known)]
  congr 1
  funext v tu
  unfold entries
  rw [map_reverse]

theorem restoreAll_drop (x v : Outpoint → Option Coin) (keepZero : Bool) (height : U32)
    (txs : List Tx) :
    CoinSet.restoreAll x
        (((CoinSet.records v (spendings keepZero height Tx.hogEx true txs)).drop 1).map
          List.reverse) =
      CoinSet.restoreAll x (CoinSet.records v (spendings keepZero height Tx.hogEx true txs)) := by
  rw [← CoinSet.restoreAll_reverse]
  cases txs with
  | nil => rfl
  | cons tx txs =>
    rw [spendings, CoinSet.records, drop_one, tail_cons, map_cons, CoinSet.restoreAll_cons]
    rfl

/-- What a connect leaves: the view of the spendings, and a record that undoes them. -/
structure Connected (s s' : UTXOViewCache) (strict : Bool) (block : Block) (undo : BlockUndo) :
    Prop where
  view : s'.getCoin = CoinSet.afterAll s.getCoin (blockSpendings strict block)
  restorable : undo.restorable = true
  added : undo.addedOutpoints = CoinSet.createdKeys (blockSpendings strict block)
  restores : ∀ x, CoinSet.restoreAll x ((undo.txUndos.map (entries strict)).map List.reverse) =
    CoinSet.restoreAll x (CoinSet.records s.getCoin (blockSpendings strict block))

variable {undo : BlockUndo} {s s' t : UTXOViewCache} {block : Block} {strict : Bool}
  {undos : List BlockUndo} {ops : Finset Outpoint} {c : Option Int}

theorem restorable_of_hasOutpoints
    (h : undo.txUndos.all TxUndo.hasOutpoints = true) : undo.restorable = true := by
  unfold BlockUndo.restorable BlockUndo.unrestorableCoins
  rw [decide_eq_true_eq]
  apply sum_eq_zero
  intro n hn
  obtain ⟨tu, htu, rfl⟩ := mem_map.mp hn
  rw [if_pos (all_eq_true.mp h tu htu)]

theorem connectPartial_spec
    (hsolid : Solid (CoinSet.spentKeys (blockSpendings false block)) s.getCoin) :
    Connected s (s.connectPartial block).1 false block (s.connectPartial block).2 := by
  obtain ⟨hview, hadded, hall, hrecords⟩ := connectTxs_spec block.height true s block.txs
  refine ⟨hview, restorable_of_hasOutpoints hall, hadded, ?_⟩
  intro x
  have hrecorded := hrecords hsolid
  unfold connectPartial
  rw [hrecorded]
  exact restoreAll_drop x s.getCoin false block.height block.txs

theorem getCoin_merge (s : UTXOViewCache) (overlay : SortedMap Outpoint (Option Coin))
    (delta : Int) (blocks : U32) :
    ({ s with
        cache := overlay.entries.foldl (fun cache e => cache.insert e.1 e.2) s.cache
        coinDelta := delta
        blocksConnected := blocks } : UTXOViewCache).getCoin = s.lookupIn overlay := by
  funext op
  have hmerge := @WriteBack.view_merge _ _ _ _ deserializeCoin overlay s.cache s.baseCoins op
  unfold lookupIn
  cases hop : overlay.lookup op with
  | none =>
    rw [hop] at hmerge
    exact hmerge
  | some change =>
    rw [hop] at hmerge
    exact hmerge

theorem connectStrict_spec (h : s.connectStrict block = (s', .ok undo)) :
    Connected s s' true block undo ∧
      s'.base = s.base ∧
      s'.coinDelta = s.coinDelta + CoinSet.net (blockSpendings true block) ∧
      CoinSet.SpendableAll s.getCoin (blockSpendings true block) ∧
      undo.txUndos.flatMap TxUndo.spentOutpoints =
        CoinSet.spentKeys (blockSpendings true block) := by
  unfold connectStrict at h
  cases hloop : s.connectTxsStrict block.height 0 ∅ block.txs with
  | error why => simp [hloop] at h
  | ok g =>
    rw [hloop] at h
    obtain ⟨hview, hadded, ⟨hall, hspent⟩, hrecords, hdelta, hspendable⟩ :=
      connectTxsStrict_ok hloop
    obtain ⟨rfl, hundo⟩ := Prod.mk.inj h
    rw [← Except.ok.inj hundo]
    refine ⟨⟨?_, restorable_of_hasOutpoints hall, hadded, ?_⟩, rfl, ?_, hspendable, hspent⟩
    · rw [getCoin_merge, hview]
      rfl
    · intro x
      rw [hrecords]
      exact restoreAll_drop x s.getCoin true block.height block.txs
    · dsimp only
      rw [hdelta]
      rfl

theorem flush_of_commits {db : UTXOViewDB} {f : Flush} (hbase : s.base = some db)
    (hcommits : f.commits = true) :
    (s.flush f).1 =
      { s with
        cache := ∅, base := some (writeBatch db s.cache f s.coinDelta), coinDelta := 0 } := by
  unfold flush
  rw [hbase]
  simp [hcommits]

theorem flush_cases (s : UTXOViewCache) (f : Flush) :
    (s.flush f).1 = s ∨ ∃ db, s.base = some db ∧ f.commits = true := by
  unfold flush
  cases hbase : s.base with
  | none => exact Or.inl rfl
  | some db =>
    cases hcommits : f.commits with
    | false => exact Or.inl rfl
    | true => exact Or.inr ⟨db, rfl, rfl⟩

theorem getCoin_flush (s : UTXOViewCache) (f : Flush) (op : Outpoint) :
    Aged ((s.flush f).1.getCoin op) (s.getCoin op) := by
  obtain hsame | ⟨db, hbase, hcommits⟩ := flush_cases s f
  · rw [hsame]
    exact Aged.refl _
  rw [flush_of_commits hbase hcommits]
  have haged := aged_commit s.cache db.coins op
  unfold getCoin baseCoins writeBatch
  rw [hbase]
  exact haged

/-! ## Runs -/

/-- What happens between the first connect and the first disconnect. -/
inductive Event where
  | connect (block : Block)
  | flush (f : Flush)

def connectRun (strict : Bool) :
    UTXOViewCache → List Event → Option (UTXOViewCache × List BlockUndo)
  | s, [] => some (s, [])
  | s, .flush f :: events => connectRun strict (s.flush f).1 events
  | s, .connect block :: events =>
    match s.connectBlock block strict with
    | (_, .error _) => none
    | (s', .ok undo) => (connectRun strict s' events).map fun r => (r.1, r.2 ++ [undo])

def RunRecreatesNone (strict : Bool) : UTXOViewCache → List Event → Prop
  | _, [] => True
  | s, .flush f :: events => RunRecreatesNone strict (s.flush f).1 events
  | s, .connect block :: events =>
    s.RecreatesNone strict block ∧ RunRecreatesNone strict (s.connectBlock block strict).1 events

def runInputs (strict : Bool) : List Event → List Outpoint
  | [] => []
  | .flush _ :: events => runInputs strict events
  | .connect block :: events =>
    CoinSet.spentKeys (blockSpendings strict block) ++ runInputs strict events

/-- Disconnects the records of a stack, newest first, with flushes after each; and whether every
disconnect answered true. -/
def undoRun (strict : Bool) (flushes : Nat → List Flush) :
    UTXOViewCache → List BlockUndo → UTXOViewCache × Bool
  | s, [] => (s, true)
  | s, undo :: undos =>
    let r := s.disconnectFromUndo undo strict
    let rest := undoRun strict flushes
      ((flushes undos.length).foldl (fun s f => (s.flush f).1) r.1) undos
    (rest.1, r.2 && rest.2)

theorem Solid.aged {ops : List Outpoint} {new old : Outpoint → Option Coin} (h : Solid ops old)
    (haged : ∀ op, Aged (new op) (old op)) : Solid ops new := by
  intro op hop c hc
  obtain hsame | hstored := haged op
  · exact h op hop c (hsame.symm.trans hc)
  rw [hstored] at hc
  obtain ⟨c₀, hc₀, rfl⟩ := map_eq_some_iff.mp hc
  have hspent := h op hop c₀ hc₀
  unfold Coin.isSpent at hspent ⊢
  rwa [storedCoin_value, storedCoin_scriptPubKey]

theorem Connected.disconnect (h : Connected s s' strict block undo)
    (hnone : s.RecreatesNone strict block) (haged : ∀ op, Aged (t.getCoin op) (s'.getCoin op)) :
    (∀ op, Aged ((t.disconnectFromUndo undo strict).1.getCoin op) (s.getCoin op)) ∧
      (t.disconnectFromUndo undo strict).2 = true := by
  unfold disconnectFromUndo
  rw [if_pos h.restorable]
  refine ⟨?_, rfl⟩
  intro op
  rw [disconnectLocked_spec, h.restores, h.added]
  rw [h.view] at haged
  exact CoinSet.removeAll_restoreAll Aged.refl haged hnone.1 op

theorem getCoin_flushes (s : UTXOViewCache) (fs : List Flush) (op : Outpoint) :
    Aged ((fs.foldl (fun s f => (s.flush f).1) s).getCoin op) (s.getCoin op) := by
  induction fs generalizing s with
  | nil => exact Aged.refl _
  | cons f fs ih => exact (ih (s.flush f).1).trans (getCoin_flush s f op)

theorem undoRun_concat (strict : Bool) (flushes : Nat → List Flush) (s : UTXOViewCache)
    (undos : List BlockUndo) (undo : BlockUndo) :
    undoRun strict flushes s (undos ++ [undo]) =
      let r := undoRun strict (fun n => flushes (n + 1)) s undos
      let d := r.1.disconnectFromUndo undo strict
      ((flushes 0).foldl (fun s f => (s.flush f).1) d.1, r.2 && d.2) := by
  induction undos generalizing s with
  | nil => simp [undoRun]
  | cons u undos ih =>
    rw [cons_append, undoRun, ih, undoRun, length_append, length_singleton]
    dsimp only
    rw [Bool.and_assoc]

theorem connectBlock_spec (h : s.connectBlock block strict = (s', .ok undo))
    (hsolid : strict = false → Solid (CoinSet.spentKeys (blockSpendings false block)) s.getCoin) :
    Connected s s' strict block undo := by
  cases strict with
  | true => exact (connectStrict_spec h).1
  | false =>
    obtain ⟨hs', hundo⟩ := Prod.mk.inj h
    rw [← hs', ← Except.ok.inj hundo]
    exact connectPartial_spec (hsolid rfl)

variable {events : List Event}

theorem connectRun_undoRun (hrun : connectRun strict s events = some (s', undos))
    (hnone : RunRecreatesNone strict s events)
    (hsolid : strict = false → Solid (runInputs false events) s.getCoin)
    (flushes : Nat → List Flush) (haged : ∀ op, Aged (t.getCoin op) (s'.getCoin op)) :
    (∀ op, Aged ((undoRun strict flushes t undos).1.getCoin op) (s.getCoin op)) ∧
      (undoRun strict flushes t undos).2 = true := by
  induction events generalizing s undos flushes with
  | nil =>
    obtain ⟨rfl, rfl⟩ := Prod.mk.inj (Option.some.inj hrun)
    exact ⟨haged, rfl⟩
  | cons e events ih =>
    cases e with
    | flush f =>
      have hflushed := ih hrun hnone
        (fun hpartial => (hsolid hpartial).aged (getCoin_flush s f)) flushes
      exact ⟨fun op => (hflushed.1 op).trans (getCoin_flush s f op), hflushed.2⟩
    | connect block =>
      unfold connectRun at hrun
      obtain ⟨hblock, hlater⟩ := hnone
      cases hconnect : s.connectBlock block strict with
      | mk s₁ result =>
        cases result with
        | error why => simp [hconnect] at hrun
        | ok undo =>
          rw [hconnect] at hrun hlater
          obtain ⟨r, hr, hmap⟩ := Option.map_eq_some_iff.mp hrun
          obtain ⟨hs', hundos⟩ := Prod.mk.inj hmap
          have hconnected : Connected s s₁ strict block undo := by
            apply connectBlock_spec hconnect
            intro hpartial
            exact (hsolid hpartial).mono (subset_append_left _ _)
          have hrest : strict = false → Solid (runInputs false events) s₁.getCoin := by
            intro hpartial
            subst hpartial
            rw [hconnected.view]
            intro op hop c hc
            obtain hold | ⟨u, hu, hnew⟩ := CoinSet.afterAll_eq_some hc
            · exact hsolid rfl op (mem_append_right _ hop) c hold
            · obtain ⟨tx, first, rfl⟩ := mem_spendings hu
              exact addedCoins_solid hnew
          have hr' : connectRun strict s₁ events = some (s', r.2) := by rw [hr, ← hs']
          obtain ⟨hundone, htrue⟩ := ih hr' hlater hrest fun n => flushes (n + 1)
          obtain ⟨hback, htrue'⟩ := hconnected.disconnect hblock hundone
          rw [← hundos, undoRun_concat]
          dsimp only
          refine ⟨?_, by rw [htrue, htrue', Bool.and_true]⟩
          intro op
          exact (getCoin_flushes _ _ op).trans (hback op)

/-! ## The count -/

def trackedCoins (s : UTXOViewCache) : Option Int :=
  s.base.bind fun db =>
    if db.sync.tracked then some (toInt64 db.sync.coins + s.coinDelta) else none

def heldCoins (s : UTXOViewCache) : Int :=
  held (s.cache.keys ++ s.baseCoins.keys).toFinset s.getCoin

/-- The count of a tracked set differs from the number of coins at the given outpoints by a
constant. -/
def Counted (ops : Finset Outpoint) (c : Option Int) (s : UTXOViewCache) : Prop :=
  s.trackedCoins = c.map (· + held ops s.getCoin)

/-- With any of the coins at the given outpoints, the count is an `int64_t`. -/
def Roomy (ops : Finset Outpoint) (c : Option Int) : Prop :=
  ∀ n ∈ c, 0 ≤ n ∧ n + ops.card < 2 ^ 63

theorem trackedCoins_of_base (hbase : s'.base = s.base) (d : Int)
    (hdelta : s'.coinDelta = s.coinDelta + d) : s'.trackedCoins = s.trackedCoins.map (· + d) := by
  unfold trackedCoins
  rw [hbase, hdelta]
  cases s.base with
  | none => rfl
  | some db =>
    simp only [bind_some]
    split
    · simp [add_assoc]
    · rfl

theorem Counted.of_base {ops : Finset Outpoint} {c : Option Int} {d : Int} (h : Counted ops c s)
    (hbase : s'.base = s.base) (hdelta : s'.coinDelta = s.coinDelta + d)
    (hheld : held ops s'.getCoin = held ops s.getCoin + d) : Counted ops c s' := by
  unfold Counted at h ⊢
  rw [trackedCoins_of_base hbase d hdelta, h, hheld, Option.map_map]
  congr 1
  exact add_assoc _ _ _

variable {s : UTXOViewCache}

theorem Counted.restoreCoin (h : Counted ops c s) {e : Outpoint × Coin} (he : e.1 ∈ ops)
    (known : Bool) : Counted ops c (restoreCoin known s e) := by
  unfold UTXOViewCache.restoreCoin
  split
  · exact h
  refine h.of_base rfl rfl ?_
  change held ops (s.addCoin e.1 e.2).getCoin = _
  rw [getCoin_addCoin, CoinSet.held_update he]
  unfold CoinSet.weight
  cases s.getCoin e.1 with
  | none => simp
  | some c => simp

theorem Counted.removeCoin
    (h : Counted ops c s) {op : Outpoint} (hop : op ∈ ops) : Counted ops c (removeCoin s op) := by
  refine h.of_base (d := -if (s.getCoin op).isSome then 1 else 0) rfl ?_ ?_
  · exact sub_eq_add_neg _ _
  change held ops (s.spend op).getCoin = _
  rw [getCoin_spend, CoinSet.held_update hop]
  unfold CoinSet.weight
  cases s.getCoin op with
  | none => simp
  | some c => simp [sub_eq_add_neg]

theorem Counted.disconnect (h : Counted ops c s) (known : Bool)
    (hspent : ∀ op ∈ undo.txUndos.flatMap TxUndo.spentOutpoints, op ∈ ops)
    (hadded : ∀ op ∈ undo.addedOutpoints, op ∈ ops) :
    Counted ops c (s.disconnectLocked undo known) := by
  have hrestore : ∀ (l : List (Outpoint × Coin)) (s : UTXOViewCache), (∀ e ∈ l, e.1 ∈ ops) →
      Counted ops c s → Counted ops c (l.foldl (UTXOViewCache.restoreCoin known) s) := by
    intro l
    induction l with
    | nil => exact fun s _ hs => hs
    | cons e l ih =>
      intro s hl hs
      exact ih _ (fun e' he' => hl e' (mem_cons_of_mem _ he'))
        (hs.restoreCoin (hl e mem_cons_self) known)
  have hremove : ∀ (l : List Outpoint) (s : UTXOViewCache), (∀ op ∈ l, op ∈ ops) →
      Counted ops c s → Counted ops c (l.foldl UTXOViewCache.removeCoin s) := by
    intro l
    induction l with
    | nil => exact fun s _ hs => hs
    | cons op l ih =>
      intro s hl hs
      exact ih _ (fun op' hop' => hl op' (mem_cons_of_mem _ hop'))
        (hs.removeCoin (hl op mem_cons_self))
  apply hremove _ _ hadded
  apply hrestore _ _ _ h
  intro e he
  obtain ⟨tu, htu, he⟩ := mem_flatMap.mp he
  apply hspent
  apply mem_flatMap.mpr
  exact ⟨tu, mem_reverse.mp htu, (of_mem_zip (mem_reverse.mp he)).1⟩

/-- A count below `2 ^ 63` survives the cast to `uint64_t` and back. -/
theorem toInt64_stored {x : Int} (hpos : 0 ≤ x) (hlt : x < 2 ^ 63) :
    toInt64 (if 0 < x then Fin.ofNat (2 ^ 64) x.toNat else 0) = x := by
  unfold toInt64
  by_cases hzero : 0 < x
  · rw [if_pos hzero, Fin.val_ofNat, Nat.mod_eq_of_lt (by omega), if_pos (by omega),
      Int.toNat_of_nonneg hpos]
  · rw [if_neg hzero]
    have hx : x = 0 := by omega
    rw [hx]
    rfl

theorem Counted.flush (hc : Roomy ops c) (h : Counted ops c s) (f : Flush) :
    Counted ops c (s.flush f).1 := by
  have hheld : held ops (s.flush f).1.getCoin = held ops s.getCoin :=
    CoinSet.held_congr fun op => (getCoin_flush s f op).isSome
  unfold Counted at h ⊢
  rw [hheld]
  obtain hsame | ⟨db, hbase, hcommits⟩ := flush_cases s f
  · rw [hsame, h]
  have hnonneg : 0 ≤ held ops s.getCoin := Int.natCast_nonneg _
  rw [← h, flush_of_commits hbase hcommits]
  unfold trackedCoins at h ⊢
  rw [hbase, bind_some] at h
  rw [hbase, bind_some, bind_some]
  unfold writeBatch
  by_cases htracked : db.sync.tracked
  · rw [if_pos htracked] at h
    obtain ⟨n, hn, hsum⟩ := map_eq_some_iff.mp h.symm
    have hle : held ops s.getCoin ≤ ops.card := Int.ofNat_le.mpr (Finset.card_filter_le ops _)
    obtain ⟨hlow, hhigh⟩ := hc n hn
    have hstored := @toInt64_stored (toInt64 db.sync.coins + s.coinDelta) (by omega) (by omega)
    have hstill : ∀ coins : U64, ({ db.sync with
        bestHeight := f.bestHeight
        coins := coins } : SyncState).tracked = true := fun _ => htracked
    simp only [htracked, if_true, hstill, hstored, add_zero]
  · simp [htracked]

theorem Counted.flushes (hc : Roomy ops c) (h : Counted ops c s) (fs : List Flush) :
    Counted ops c (fs.foldl (fun s f => (s.flush f).1) s) := by
  induction fs generalizing s with
  | nil => exact h
  | cons f fs ih => exact ih (h.flush hc f)

def undoOutpoints (undo : BlockUndo) : List Outpoint :=
  undo.txUndos.flatMap TxUndo.spentOutpoints ++ undo.addedOutpoints

theorem Counted.connectStrict (h : Counted ops c s)
    (hconnect : s.connectStrict block = (s', .ok undo)) (hnone : s.RecreatesNone true block)
    (hops : ∀ op ∈ undoOutpoints undo, op ∈ ops) : Counted ops c s' := by
  obtain ⟨hconnected, hbase, hdelta, hspendable, hspent⟩ := connectStrict_spec hconnect
  unfold undoOutpoints at hops
  rw [hspent, hconnected.added] at hops
  refine h.of_base hbase hdelta ?_
  rw [hconnected.view]
  apply CoinSet.held_afterAll hspendable hnone.2
  · exact fun op hop => hops op (mem_append_left _ hop)
  · exact fun op hop => hops op (mem_append_right _ hop)

theorem Counted.undoRun (hc : Roomy ops c) (h : Counted ops c s) {undos : List BlockUndo}
    (hrestorable : ∀ undo ∈ undos, undo.restorable = true)
    (hops : ∀ op ∈ undos.flatMap undoOutpoints, op ∈ ops) (strict : Bool)
    (flushes : Nat → List Flush) : Counted ops c (undoRun strict flushes s undos).1 := by
  induction undos generalizing s with
  | nil => exact h
  | cons undo undos ih =>
    simp only [flatMap_cons, mem_append] at hops
    unfold UTXOViewCache.undoRun UTXOViewCache.disconnectFromUndo
    rw [if_pos (hrestorable undo mem_cons_self)]
    apply ih
    · apply Counted.flushes hc
      apply h.disconnect
      · exact fun op hop => hops op (Or.inl (mem_append_left _ hop))
      · exact fun op hop => hops op (Or.inl (mem_append_right _ hop))
    · exact fun u hu => hrestorable u (mem_cons_of_mem _ hu)
    · exact fun op hop => hops op (Or.inr hop)

theorem Counted.connectRun (hc : Roomy ops c) (h : Counted ops c s)
    (hrun : connectRun true s events = some (s', undos)) (hnone : RunRecreatesNone true s events)
    (hops : ∀ op ∈ undos.flatMap undoOutpoints, op ∈ ops) :
    Counted ops c s' ∧ ∀ undo ∈ undos, undo.restorable = true := by
  induction events generalizing s undos with
  | nil =>
    obtain ⟨rfl, rfl⟩ := Prod.mk.inj (some.inj hrun)
    exact ⟨h, fun undo hundo => absurd hundo (not_mem_nil)⟩
  | cons e events ih =>
    cases e with
    | flush f => exact ih (h.flush hc f) hrun hnone hops
    | connect block =>
      unfold UTXOViewCache.connectRun at hrun
      obtain ⟨hblock, hlater⟩ := hnone
      cases hconnect : s.connectBlock block true with
      | mk s₁ result =>
        cases result with
        | error why => simp [hconnect] at hrun
        | ok undo =>
          rw [hconnect] at hrun hlater
          obtain ⟨r, hr, hmap⟩ := map_eq_some_iff.mp hrun
          obtain ⟨hs', hundos⟩ := Prod.mk.inj hmap
          have hr' : UTXOViewCache.connectRun true s₁ events = some (s', r.2) := by
            rw [hr, ← hs']
          rw [← hundos, flatMap_append] at hops
          simp only [mem_append, flatMap_singleton] at hops
          have hstep : Counted ops c s₁ :=
            h.connectStrict hconnect hblock fun op hop => hops op (Or.inr hop)
          obtain ⟨hcounted, hrest⟩ := ih hstep hr' hlater fun op hop => hops op (Or.inl hop)
          refine ⟨hcounted, ?_⟩
          intro u hu
          rw [← hundos, mem_append, mem_singleton] at hu
          obtain hu | rfl := hu
          · exact hrest u hu
          · exact (connectStrict_spec hconnect).1.restorable

theorem held_le_heldCoins (s : UTXOViewCache) (ops : Finset Outpoint) :
    held ops s.getCoin ≤ s.heldCoins := by
  apply Int.ofNat_le.mpr
  apply Finset.card_le_card
  intro op hop
  rw [Finset.mem_filter] at hop ⊢
  refine ⟨?_, hop.2⟩
  rw [List.mem_toFinset, mem_append]
  by_contra hout
  rw [not_or] at hout
  apply hop.2
  unfold getCoin WriteBack.view
  rw [SortedMap.lookup_of_notMem_keys hout.1, SortedMap.lookup_of_notMem_keys hout.2]
  rfl

theorem trackedCoins_undoRun (hrun : connectRun true s events = some (s', undos))
    (hnone : RunRecreatesNone true s events) (hcount : ∀ n ∈ s.trackedCoins,
      s.heldCoins ≤ n ∧ n + (undos.flatMap undoOutpoints).length < 2 ^ 63)
    {flushes : Nat → List Flush} (ht : (undoRun true flushes s' undos).1 = t)
    (hview : ∀ op, Aged (t.getCoin op) (s.getCoin op)) : t.trackedCoins = s.trackedCoins := by
  let ops := (undos.flatMap undoOutpoints).toFinset
  have hops : ∀ op ∈ undos.flatMap undoOutpoints, op ∈ ops := fun op hop => mem_toFinset.mpr hop
  have hle := held_le_heldCoins s ops
  let c := s.trackedCoins.map (· - held ops s.getCoin)
  have hfew : ops.card ≤ (undos.flatMap undoOutpoints).length := toFinset_card_le _
  have hnonneg : 0 ≤ held ops s.getCoin := Int.natCast_nonneg _
  have hc : Roomy ops c := by
    intro n hn
    obtain ⟨m, hm, rfl⟩ := Option.map_eq_some_iff.mp hn
    obtain ⟨hlow, hhigh⟩ := hcount m hm
    omega
  have hstart : Counted ops c s := by
    unfold Counted
    rw [Option.map_map]
    cases s.trackedCoins with
    | none => rfl
    | some n => simp
  obtain ⟨hcounted, hrestorable⟩ := hstart.connectRun hc hrun hnone hops
  have hend := hcounted.undoRun hc hrestorable hops true flushes
  rw [ht] at hend
  rw [hend, hstart, CoinSet.held_congr fun op => (hview op).isSome]

/-- A run of connects, with flushes between, is undone by its records newest first, with flushes
between: every disconnect answers true, every outpoint holds what it held where the store gives the
pending coins back, and, in strict mode, the count is as it was where it is not below the number of
coins and stays an `int64_t`.  A refused strict connect leaves the cache as it is.  An input of a
partial connect must not be an empty coin, which reads as unknown. -/
theorem connect_undo_cancel (strict : Bool) (s : UTXOViewCache) :
    (∀ events s' undos, connectRun strict s events = some (s', undos) →
      RunRecreatesNone strict s events →
      (strict = false → Solid (runInputs false events) s.getCoin) →
      ∀ flushes : Nat → List Flush,
        (LowOverlay s.cache →
          ∀ op, (undoRun strict flushes s' undos).1.getCoin op = s.getCoin op) ∧
          (undoRun strict flushes s' undos).2 = true ∧
          (strict = true → (∀ n ∈ s.trackedCoins,
              s.heldCoins ≤ n ∧ n + (undos.flatMap undoOutpoints).length < 2 ^ 63) →
            (undoRun strict flushes s' undos).1.trackedCoins = s.trackedCoins)) ∧
      ∀ block why, (s.connectBlock block true).2 = .error why →
        (s.connectBlock block true).1 = s := by
  refine ⟨?_, ?_⟩
  · intro events s' undos hrun hnone hsolid flushes
    obtain ⟨haged, htrue⟩ := connectRun_undoRun hrun hnone hsolid flushes fun op =>
      Aged.refl (s'.getCoin op)
    refine ⟨fun hpending op => hpending.eq_of_aged (haged op), htrue, ?_⟩
    rintro rfl hcount
    exact trackedCoins_undoRun hrun hnone hcount rfl haged
  intro block why hrefused
  unfold connectBlock connectStrict at hrefused ⊢
  cases hloop : s.connectTxsStrict block.height 0 ∅ block.txs with
  | error why => rfl
  | ok g => simp [hloop] at hrefused

theorem forall_mem_of_all {l : List Outpoint} {p : Outpoint → Prop} [DecidablePred p]
    (h : l.all (fun op => p op) = true) : ∀ op ∈ l, p op :=
  fun op hop => of_decide_eq_true (all_eq_true.mp h op hop)

def plainOut (value : U64) : TxOut := ⟨value, opTrue⟩

def oneCoinView : UTXOViewCache where
  base := some
    { coins := (∅ : SortedMap Outpoint (List Byte)).insert (toLex (7, 0))
        (serializeCoin
          { value := 50, scriptPubKey := opTrue, height := 1, coinbase := true })
      sync := { anchorHeight := some 0, strict := true, coins := 1 } }

def chainedBlock : Block where
  txs :=
    [{ txid := 10, vout := [plainOut 25] },
      { txid := 11, vin := [toLex (7, 0)], vout := [plainOut 50] },
      { txid := 12, vin := [toLex (11, 0)], vout := [plainOut 49] }]
  height := 2

/-- A block that spends an output of its own, and a flush after it, are undone. -/
theorem connect_undo_cancel_chained :
    ∃ s' undos,
      connectRun true oneCoinView [.connect chainedBlock, .flush ⟨2, 2, true⟩] = some (s', undos) ∧
      (∀ op, (undoRun true (fun _ => []) s' undos).1.getCoin op = oneCoinView.getCoin op) ∧
      (undoRun true (fun _ => []) s' undos).1.trackedCoins = oneCoinView.trackedCoins := by
  have hrun : (connectRun true oneCoinView
      [.connect chainedBlock, .flush ⟨2, 2, true⟩]).isSome := by decide +kernel
  obtain ⟨⟨s', undos⟩, hrun⟩ := Option.isSome_iff_exists.mp hrun
  have hnone : RunRecreatesNone true oneCoinView [.connect chainedBlock, .flush ⟨2, 2, true⟩] := by
    refine ⟨⟨?_, ?_⟩, trivial⟩
    · exact forall_mem_of_all (by decide +kernel)
    · refine ⟨⟨?_, trivial⟩, ⟨?_, trivial⟩, ⟨?_, trivial⟩, trivial⟩ <;> decide +kernel
  obtain ⟨hcoins, -, hcount⟩ := (connect_undo_cancel true oneCoinView).1 _ s' undos hrun hnone
    (fun h => by cases h) fun _ => []
  have hpending : LowOverlay oneCoinView.cache := fun op c h => by cases h
  have hfew : (undos.flatMap undoOutpoints).length = 5 := by
    have hlength : (connectRun true oneCoinView [.connect chainedBlock, .flush ⟨2, 2, true⟩]).map
        (fun r => (r.2.flatMap undoOutpoints).length) = some 5 := by decide +kernel
    rw [hrun] at hlength
    exact some.inj hlength
  refine ⟨s', undos, hrun, hcoins hpending, hcount rfl ?_⟩
  rw [hfew]
  decide +kernel

def emptyCoinView : UTXOViewCache where
  base := some
    { coins := (∅ : SortedMap Outpoint (List Byte)).insert (toLex (7, 0))
        (serializeCoin { unknownCoin with height := 1, coinbase := true }) }

def emptySpend : Block where
  txs := [{ txid := 10 }, { txid := 11, vin := [toLex (7, 0)], vout := [plainOut 1] }]
  height := 2

/-- A partial connect records an empty coin as unknown, so that it does not come back. -/
theorem emptyCoin_lost :
    RunRecreatesNone false emptyCoinView [.connect emptySpend] ∧
      (emptyCoinView.getCoin (toLex (7, 0))).isSome = true ∧
      (connectRun false emptyCoinView [.connect emptySpend]).map (fun r =>
        (undoRun false (fun _ => []) r.1 r.2).1.getCoin (toLex (7, 0))) = some none := by
  refine ⟨⟨⟨?_, ?_⟩, trivial⟩, ?_, ?_⟩
  · exact forall_mem_of_all (by decide +kernel)
  · refine ⟨trivial, ⟨?_, trivial⟩, trivial⟩
    decide +kernel
  · decide +kernel
  · decide +kernel

end C2Pool.Utxo.UTXOViewCache
