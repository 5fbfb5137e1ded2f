import C2Pool.Utxo.ReplayRun

/-! # Disconnecting the tip of the replay fold

Blocks that were folded are disconnected in reverse order.  A disconnect takes the
added outputs out first and then puts the spent ones back, so it undoes a block exactly
when each input of the block was unspent before the block.
-/

namespace C2Pool.Utxo.ReplayUtxoFold

open List SortedMap

theorem coinIn_remove (store : FoldStore) (overlay : Overlay) (ops : List Outpoint) :
    coinIn store (ops.foldl (fun o op => o.insert op none) overlay) =
      CoinSet.spendAll (coinIn store overlay) ops := by
  unfold CoinSet.spendAll
  induction ops generalizing overlay with
  | nil => rfl
  | cons op ops ih =>
    rw [foldl_cons, foldl_cons, ih]
    congr 1
    exact WriteBack.view_insert overlay store.coins op none

theorem coinIn_putBack (store : FoldStore) (overlay : Overlay) (vin : List Outpoint)
    (coins : List Coin) :
    coinIn store ((vin.zip coins).foldl (fun o e => o.insert e.1 (some e.2)) overlay) =
      CoinSet.putBack (coinIn store overlay) (vin.zip (coins.map some)) := by
  rw [zip_map_right]
  unfold CoinSet.putBack
  rw [foldl_map]
  induction vin.zip coins generalizing overlay with
  | nil => rfl
  | cons e l ih =>
    rw [foldl_cons, foldl_cons, ih]
    congr 1
    exact WriteBack.view_insert overlay store.coins e.1 (some e.2)

variable {txs : List Tx} {txUndos : List TxUndo} {s s' t : ReplayUtxoFold} {height : U32}
  {block : FoldBlock} {overlay : Overlay} {undo : BlockUndo} {hash : Uint256} {b : Nat}

theorem restoreTxs_fits (h : Fits txs txUndos) (store : FoldStore) (overlay : Overlay) :
    (restoreTxs overlay txs txUndos).2 = none ∧
      coinIn store (restoreTxs overlay txs txUndos).1 =
        (undoEntries txs txUndos).foldl CoinSet.putBack (coinIn store overlay) := by
  induction h generalizing overlay with
  | nil => exact ⟨rfl, rfl⟩
  | cons hlength hrest ih =>
    unfold restoreTxs
    rw [if_neg (not_not.mpr hlength)]
    obtain ⟨hnone, hview⟩ := ih
      (List.foldl (fun o e => o.insert e.1 (some e.2)) overlay (List.zip _ _))
    refine ⟨hnone, ?_⟩
    rw [hview, coinIn_putBack]
    rfl

/-- The same, last first, as the disconnect runs it. -/
theorem restoreTxs_reverse (h : Fits txs txUndos) (store : FoldStore) (overlay : Overlay) :
    (restoreTxs overlay txs.reverse txUndos.reverse).2 = none ∧
      coinIn store (restoreTxs overlay txs.reverse txUndos.reverse).1 =
        CoinSet.restoreAll (coinIn store overlay) (undoEntries txs txUndos) := by
  have hreverse : Fits txs.reverse txUndos.reverse := List.forall₂_reverse_iff.mpr h
  obtain ⟨hnone, hview⟩ := restoreTxs_fits hreverse store overlay
  refine ⟨hnone, ?_⟩
  rw [hview]
  unfold undoEntries CoinSet.restoreAll
  rw [reverse_zipWith (List.Forall₂.length_eq h)]

def storedUndo (u : BlockUndo) : BlockUndo where
  txUndos := u.txUndos.map fun tu => { spentCoins := tu.spentCoins.map storedCoin }
  addedOutpoints := u.addedOutpoints

theorem mapM_of_some {α β γ : Type} {f : α → β} {g : β → Option γ} {k : α → γ}
    (h : ∀ a, g (f a) = some (k a)) (l : List α) : (l.map f).mapM g = some (l.map k) := by
  induction l with
  | nil => rfl
  | cons a l ih => simp [h, ih]

theorem deserializeBlockUndo_serializeBlockUndo (u : BlockUndo) :
    deserializeBlockUndo (serializeBlockUndo u) = some (storedUndo u) := by
  have hcoins : ∀ tu : TxUndo, readTxUndo (tu.spentCoins.map serializeCoin) =
      some { spentCoins := tu.spentCoins.map storedCoin } := by
    intro tu
    unfold readTxUndo
    rw [mapM_of_some deserializeCoin_serializeCoin]
    rfl
  unfold deserializeBlockUndo serializeBlockUndo
  rw [mapM_of_some hcoins]
  rfl

theorem undoEntries_storedUndo (txs : List Tx) (u : BlockUndo) :
    undoEntries txs (storedUndo u).txUndos =
      CoinSet.through storedCoin (undoEntries txs u.txUndos) := by
  unfold undoEntries storedUndo CoinSet.through
  rw [zipWith_map_right, map_zipWith]
  congr 1
  funext tx tu
  rw [map_map, zip_map_right, zip_map_right, map_map]
  rfl

theorem fits_storedUndo {u : BlockUndo} (h : Fits txs u.txUndos) :
    Fits txs (storedUndo u).txUndos := by
  unfold Fits storedUndo
  rw [List.forall₂_map_right_iff]
  apply List.Forall₂.imp _ h
  simp

theorem restoreAll_body (x v : Outpoint → Option Coin) (height : U32) (txs : List Tx) :
    CoinSet.restoreAll x
        (CoinSet.through storedCoin ((CoinSet.records v (foldSpendings height true txs)).drop 1)) =
      CoinSet.restoreAll x
        (CoinSet.through storedCoin (CoinSet.records v (foldSpendings height true txs))) := by
  unfold foldSpendings
  cases txs with
  | nil => rfl
  | cons tx txs =>
    rw [spendings, CoinSet.records, drop_one, tail_cons]
    unfold CoinSet.through
    rw [map_cons, CoinSet.restoreAll_cons]
    rfl

/-! ## One block -/

structure Folded (s : ReplayUtxoFold) (height : U32) (block : FoldBlock) (overlay : Overlay)
    (undo : BlockUndo) : Prop where
  applied : applyTxs s.store height true (s.overlay, []) block.txs = .ok (overlay, undo)
  next : height.val = s.bestHeight.val + 1

structure Advanced (s s' : ReplayUtxoFold) (height : U32) (hash : Uint256) (block : FoldBlock)
    (undo : BlockUndo) : Prop where
  opts : s'.opts = s.opts
  cursor : s'.haveCursor = true
  bestHeight : s'.bestHeight = height
  bestHash : s'.bestHash = hash
  aged : ∀ op, Aged (s'.getCoin op)
    (CoinSet.afterAll s.getCoin (foldSpendings height true block.txs) op)
  undoRow : ∀ h : U32, height.val + 1 - s.opts.undoWindow.val ≤ h.val →
    s'.undoRows.lookup h =
      if h = height then some (serializeBlockUndo undo) else s.undoRows.lookup h
  hashRow : ∀ h : U32, height.val + 1 - s.opts.undoWindow.val ≤ h.val →
    s'.hashRows.lookup h = if h = height then some hash else s.hashRows.lookup h

theorem Folded.advance (hs : FoldInv s) (h : Folded s height block overlay undo) (hash : Uint256) :
    Advanced s (s.advance height hash overlay undo) height hash block undo := by
  obtain ⟨hview, -⟩ := applyTxs_ok h.applied
  have hundo : (s.moveTo height hash overlay undo).undoRows =
      s.undoRows.insert height (serializeBlockUndo undo) := by
    unfold undoRows moveTo
    rw [map_append, map_singleton, putRows_concat]
  have hhash : (s.moveTo height hash overlay undo).hashRows = s.hashRows.insert height hash := by
    unfold hashRows moveTo
    rw [putRows_concat]
  have hcoin : (s.moveTo height hash overlay undo).getCoin =
      CoinSet.afterAll s.getCoin (foldSpendings height true block.txs) := hview
  obtain hplain | hflush := advance_cases s height hash overlay undo
  · rw [hplain]
    refine ⟨rfl, rfl, rfl, rfl, ?_, ?_, ?_⟩
    · intro op
      rw [hcoin]
      exact Aged.refl _
    · intro x _
      rw [hundo, lookup_insert]
    · intro x _
      rw [hhash, lookup_insert]
  rw [hflush]
  have hmoved := hs.moveTo height hash overlay undo
  have hkeep : ∀ x : U32, height.val + 1 - s.opts.undoWindow.val ≤ x.val →
      (s.moveTo height hash overlay undo).keepFrom ≤ x.val := fun x hx =>
    le_trans (keepFrom_le _) hx
  refine ⟨flush_opts _, flush_haveCursor _, flush_bestHeight _, flush_bestHash _, ?_, ?_, ?_⟩
  · intro op
    rw [← hcoin]
    exact getCoin_flush _ op
  · intro x hx
    rw [undoRows_flush hmoved.noRemovals (hkeep x hx), hundo, lookup_insert]
  · intro x hx
    rw [hashRows_flush hmoved.noRemovals (hkeep x hx), hhash, lookup_insert]

/-- A state that stands where another stood: the same cursor, and the same rows from a height
on. -/
structure StandsAt (b : Nat) (t s : ReplayUtxoFold) : Prop where
  inv : FoldInv t
  opts : t.opts = s.opts
  cursor : t.haveCursor = true
  bestHeight : t.bestHeight = s.bestHeight
  bestHash : t.bestHash = s.bestHash
  undoRow : ∀ h : U32, b ≤ h.val → h.val ≤ s.bestHeight.val →
    t.undoRows.lookup h = s.undoRows.lookup h
  hashRow : ∀ h : U32, b ≤ h.val → h.val ≤ s.bestHeight.val →
    t.hashRows.lookup h = s.hashRows.lookup h

theorem rows_of_flush (hcursor : s.haveCursor = true) :
    s.flush.undoRows = s.flush.store.undo ∧ s.flush.hashRows = s.flush.store.hashes := by
  obtain ⟨-, hundo, hhashes⟩ := pending_of_flush hcursor
  unfold undoRows hashRows
  rw [hundo, hhashes]
  exact ⟨rfl, rfl⟩

theorem prevHash_of_hasHash {store : FoldStore} {h : U32} (hh : h ≠ 0)
    (hrow : HasHash store.hashes (h - 1) hash) : prevHash store h = some hash := by
  unfold prevHash
  obtain hsome | ⟨hzero, hnull, hnone⟩ := hrow
  · rw [hsome]
  have hone : h = 1 := by
    apply Fin.ext
    have hval := congrArg Fin.val hzero
    rw [val_sub_one hh] at hval
    have hpos : h.val ≠ 0 := fun h0 => hh (Fin.ext h0)
    change h.val = 1
    change h.val - 1 = 0 at hval
    omega
  rw [hnone, hnull, if_pos hone]

theorem disconnectTip_of {prev : Uint256} (hcursor : s.haveCursor = true) (htip : s.bestHeight ≠ 0)
    (hundo : (s.flush.store.undo.lookup s.bestHeight).bind deserializeBlockUndo = some undo)
    (hprev : prevHash s.flush.store s.bestHeight = some prev)
    (hrestored : (restored s.flush block undo).2 = none) :
    s.disconnectTip block =
      ((rewound s.flush (restored s.flush block undo).1 prev).flush, true) := by
  obtain ⟨-, hno | hzero⟩ | ⟨-, -, ⟨why, hrefused⟩ | ⟨undo', prev', hundo', hprev', hcase⟩⟩ :=
    disconnectTip_cases s block
  · rw [hcursor] at hno
    cases hno
  · exact absurd hzero htip
  · exfalso
    unfold restored at hrestored
    unfold disconnectTip at hrefused
    rw [if_neg (by simp [hcursor, htip])] at hrefused
    dsimp only at hrefused
    rw [flush_bestHeight, hundo] at hrefused
    rw [hprev] at hrefused
    dsimp only at hrefused
    split at hrefused
    · rename_i hsome
      rw [hsome] at hrestored
      cases hrestored
    · cases congrArg Prod.snd hrefused
  · rw [hundo] at hundo'
    rw [hprev] at hprev'
    obtain rfl := Option.some.inj hundo'
    obtain rfl := Option.some.inj hprev'
    obtain ⟨why, hsome, -⟩ | ⟨-, heq⟩ := hcase
    · rw [hrestored] at hsome
      cases hsome
    · exact heq

theorem StandsAt.tip (hs : FoldInv s) (hcursor : s.haveCursor = true)
    (hnext : height.val = s.bestHeight.val + 1) (hadv : Advanced s s' height hash block undo)
    (ht : StandsAt b t s') (hb : b ≤ s.bestHeight.val)
    (hwindow : height.val + 1 - s.opts.undoWindow.val ≤ b) :
    (t.flush.store.undo.lookup height).bind deserializeBlockUndo = some (storedUndo undo) ∧
      prevHash t.flush.store height = some s.bestHash ∧
      ∀ x : U32, b ≤ x.val → x.val < height.val →
        t.flush.store.undo.lookup x = s.undoRows.lookup x ∧
          t.flush.store.hashes.lookup x = s.hashRows.lookup x := by
  obtain ⟨hundoRows, hhashRows⟩ := rows_of_flush ht.cursor
  have hkeep : ∀ x : U32, b ≤ x.val → t.keepFrom ≤ x.val := by
    intro x hx
    refine le_trans (keepFrom_le t) ?_
    rw [ht.bestHeight, ht.opts, hadv.bestHeight, hadv.opts]
    omega
  have hbest : s'.bestHeight.val = height.val := congrArg Fin.val hadv.bestHeight
  have hne : height ≠ 0 := by
    intro hzero
    have hval := congrArg Fin.val hzero
    change height.val = 0 at hval
    omega
  have hbelow : ∀ x : U32, b ≤ x.val → x.val < height.val →
      t.flush.store.undo.lookup x = s.undoRows.lookup x ∧
        t.flush.store.hashes.lookup x = s.hashRows.lookup x := by
    intro x hx hlt
    have hother : x ≠ height := fun heq => by simp [heq] at hlt
    rw [← hundoRows, ← hhashRows, undoRows_flush ht.inv.noRemovals (hkeep x hx),
      hashRows_flush ht.inv.noRemovals (hkeep x hx), ht.undoRow x hx (by omega),
      ht.hashRow x hx (by omega), hadv.undoRow x (by omega), hadv.hashRow x (by omega),
      if_neg hother, if_neg hother]
    exact ⟨rfl, rfl⟩
  refine ⟨?_, ?_, hbelow⟩
  · rw [← hundoRows, undoRows_flush ht.inv.noRemovals (hkeep height (by omega)),
      ht.undoRow height (by omega) (by omega), hadv.undoRow height (by omega), if_pos rfl]
    exact deserializeBlockUndo_serializeBlockUndo undo
  have hprev : height - 1 = s.bestHeight := by
    apply Fin.ext
    rw [val_sub_one hne]
    omega
  apply prevHash_of_hasHash hne
  rw [hprev]
  apply (hs.tip (by omega) hcursor).congr
  exact (hbelow s.bestHeight hb (by omega)).2

theorem getCoin_restored {f : ReplayUtxoFold} (h : Folded s height block overlay undo) :
    (restored f block (storedUndo undo)).2 = none ∧
      coinIn f.store (restored f block (storedUndo undo)).1 =
        CoinSet.restoreAll
          (CoinSet.spendAll f.getCoin
            (CoinSet.createdKeys (foldSpendings height true block.txs)))
          (CoinSet.through storedCoin
            (CoinSet.records s.getCoin (foldSpendings height true block.txs))) := by
  obtain ⟨-, -, hadded, hfits, hentries⟩ := applyTxs_ok h.applied
  obtain ⟨hnone, hview⟩ := restoreTxs_reverse (fits_storedUndo hfits) f.store
    ((storedUndo undo).addedOutpoints.foldl (fun o op => o.insert op none) f.overlay)
  refine ⟨hnone, ?_⟩
  refine hview.trans ?_
  have hops : (storedUndo undo).addedOutpoints =
      CoinSet.createdKeys (foldSpendings height true block.txs) := hadded
  rw [coinIn_remove, hops, undoEntries_storedUndo, hentries]
  exact restoreAll_body _ _ _ _

theorem aged_none (v : Option Coin) : Aged v none ↔ v = none := by
  constructor
  · intro h
    obtain h | h := h
    · exact h
    · exact h
  · rintro rfl
    exact Aged.refl none

theorem StandsAt.disconnect (hs : FoldInv s) (hcursor : s.haveCursor = true)
    (hfold : Folded s height block overlay undo) (hadv : Advanced s s' height hash block undo)
    (ht : StandsAt b t s') (haged : ∀ op, Aged (t.getCoin op) (s'.getCoin op))
    (hb : b ≤ s.bestHeight.val) (hwindow : height.val + 1 - s.opts.undoWindow.val ≤ b) :
    ∃ t', t.disconnectTip block = (t', true) ∧ StandsAt b t' s ∧
      ((∀ op, Aged (t'.getCoin op) (s.getCoin op)) ↔
        ∀ op ∈ CoinSet.spentKeys (foldSpendings height true block.txs), s.getCoin op ≠ none) := by
  have hnext := hfold.next
  obtain ⟨hundo, hprev, hbelow⟩ := StandsAt.tip hs hcursor hnext hadv ht hb hwindow
  have hheight : t.bestHeight = height := ht.bestHeight.trans hadv.bestHeight
  have htip : t.bestHeight ≠ 0 := by
    rw [hheight]
    intro hzero
    have hval := congrArg Fin.val hzero
    change height.val = 0 at hval
    omega
  rw [← hheight] at hundo hprev
  obtain ⟨hrestored, hview⟩ := getCoin_restored (f := t.flush) hfold
  have hcursor' : (rewound t.flush (restored t.flush block (storedUndo undo)).1
      s.bestHash).haveCursor = true := (flush_haveCursor t).trans ht.cursor
  refine ⟨_, disconnectTip_of ht.cursor htip hundo hprev hrestored, ?_, ?_⟩
  · have hrows : ∀ x : U32, b ≤ x.val → x.val ≤ s.bestHeight.val →
        (rewound t.flush (restored t.flush block (storedUndo undo)).1
            s.bestHash).flush.undoRows.lookup x = s.undoRows.lookup x ∧
          (rewound t.flush (restored t.flush block (storedUndo undo)).1
            s.bestHash).flush.hashRows.lookup x = s.hashRows.lookup x := by
      intro x hx hle
      have hrewound := rewound_rows ht.inv ht.cursor htip
        (restored t.flush block (storedUndo undo)).1 s.bestHash (x := x)
        (by rw [hheight]; omega) (by rw [hheight, ht.opts, hadv.opts]; omega)
      rw [(rows_of_flush hcursor').1, (rows_of_flush hcursor').2, hrewound.1, hrewound.2]
      exact hbelow x hx (by omega)
    refine ⟨ht.inv.rewound ht.cursor htip _ hprev, ?_, ?_, ?_, ?_, ?_, ?_⟩
    · rw [flush_opts]
      exact (flush_opts t).trans (ht.opts.trans hadv.opts)
    · rw [flush_haveCursor]
      exact hcursor'
    · rw [flush_bestHeight]
      change t.flush.bestHeight - 1 = s.bestHeight
      rw [flush_bestHeight]
      apply Fin.ext
      rw [val_sub_one htip, hheight]
      omega
    · rw [flush_bestHash]
      rfl
    · exact fun x hx hle => (hrows x hx hle).1
    · exact fun x hx hle => (hrows x hx hle).2
  obtain ⟨-, haccepts, -⟩ := applyTxs_ok hfold.applied
  have hx : ∀ op, Aged (t.flush.getCoin op)
      (CoinSet.afterAll s.getCoin (foldSpendings height true block.txs) op) := fun op =>
    ((getCoin_flush t op).trans (haged op)).trans (hadv.aged op)
  have hlast := getCoin_flush (rewound t.flush (restored t.flush block (storedUndo undo)).1
    s.bestHash)
  have hmid : (rewound t.flush (restored t.flush block (storedUndo undo)).1
      s.bestHash).getCoin = coinIn t.flush.store (restored t.flush block (storedUndo undo)).1 :=
    rfl
  rw [hmid, hview] at hlast
  constructor
  · intro hback
    apply (haccepts.restoreAll_removeAll_iff (R := fun a c => a.isSome = c.isSome) storedCoin
      (fun v => Option.isSome_map) (fun v => by simp) (fun op => (hx op).isSome)).mp
    exact fun op => (hlast op).isSome.symm.trans (hback op).isSome
  intro hheld op
  exact (hlast op).trans ((haccepts.restoreAll_removeAll_iff storedCoin
    (fun v => Or.inr rfl) aged_none hx).mpr hheld op)

structure Delivery where
  height : U32
  hash : Uint256
  block : FoldBlock

def acceptAll : ReplayUtxoFold → List Delivery → Option ReplayUtxoFold
  | s, [] => some s
  | s, d :: ds =>
    if s.haveCursor ∧ d.height ≤ s.bestHeight then none
    else
      match s.onReplayBlock d.height d.hash d.block with
      | (s', true) => acceptAll s' ds
      | (_, false) => none

def disconnectAll : ReplayUtxoFold → List FoldBlock → Option ReplayUtxoFold
  | s, [] => some s
  | s, block :: blocks =>
    match s.disconnectTip block with
    | (s', true) => disconnectAll s' blocks
    | (_, false) => none

def InputsHeld : ReplayUtxoFold → List Delivery → Prop
  | _, [] => True
  | s, d :: ds =>
    (∀ op ∈ CoinSet.spentKeys (foldSpendings d.height true d.block.txs), s.getCoin op ≠ none) ∧
      InputsHeld (s.onReplayBlock d.height d.hash d.block).1 ds

variable {ds : List Delivery}

theorem acceptAll_cons {d : Delivery}
    (hs : s.haveCursor = true) (h : acceptAll s (d :: ds) = some s') :
    ∃ overlay undo, Folded s d.height d.block overlay undo ∧
      s.onReplayBlock d.height d.hash d.block = (s.advance d.height d.hash overlay undo, true) ∧
      acceptAll (s.advance d.height d.hash overlay undo) ds = some s' := by
  unfold acceptAll at h
  split at h
  · cases h
  rename_i hnew
  obtain ⟨why, heq⟩ | ⟨-, hrepeat⟩ | ⟨-, -, hno⟩ | ⟨overlay, undo, heq, happly, hnext, -⟩ :=
    onReplayBlock_cases s d.height d.hash d.block
  · rw [heq] at h
    cases h
  · exact absurd hrepeat hnew
  · rw [hs] at hno
    cases hno
  · rw [heq] at h
    refine ⟨overlay, undo, ⟨happly, ?_⟩, heq, h⟩
    obtain ⟨hval, hlt⟩ := hnext hs
    have hlast : s.bestHeight.val + 1 < 2 ^ 32 := by
      by_contra hwrap
      have hmax : d.height.val ≤ s.bestHeight.val := by omega
      exact absurd hlt (not_lt.mpr (Fin.le_def.mpr hmax))
    rw [hval, Fin.val_add]
    exact Nat.mod_eq_of_lt hlast

theorem disconnectAll_concat (s : ReplayUtxoFold) (blocks : List FoldBlock) (block : FoldBlock) :
    disconnectAll s (blocks ++ [block]) =
      (disconnectAll s blocks).bind fun t => disconnectAll t [block] := by
  induction blocks generalizing s with
  | nil => rfl
  | cons b blocks ih =>
    rw [cons_append, disconnectAll, disconnectAll]
    cases s.disconnectTip b with
    | mk t ok =>
      cases ok with
      | false => rfl
      | true => exact ih t

theorem disconnectAll_acceptAll (hs : FoldInv s) (hcursor : s.haveCursor = true)
    (haccept : acceptAll s ds = some s') (hb : b ≤ s.bestHeight.val)
    (hwindow : s.bestHeight.val + ds.length + 1 - s.opts.undoWindow.val ≤ b)
    (hheld : InputsHeld s ds) (ht : StandsAt b t s')
    (haged : ∀ op, Aged (t.getCoin op) (s'.getCoin op)) :
    ∃ t', disconnectAll t (ds.map Delivery.block).reverse = some t' ∧ StandsAt b t' s ∧
      ∀ op, Aged (t'.getCoin op) (s.getCoin op) := by
  induction ds generalizing s with
  | nil =>
    obtain rfl := Option.some.inj haccept
    exact ⟨t, rfl, ht, haged⟩
  | cons d ds ih =>
    obtain ⟨overlay, undo, hfold, hdeliver, hrest⟩ := acceptAll_cons hcursor haccept
    have hadv := hfold.advance hs d.hash
    have hnext := hfold.next
    have hbest : (s.advance d.height d.hash overlay undo).bestHeight.val = d.height.val :=
      congrArg Fin.val hadv.bestHeight
    rw [length_cons] at hwindow
    obtain ⟨hnow, hlater⟩ := hheld
    rw [hdeliver] at hlater
    obtain ⟨t₁, hdone, hstands, hback⟩ := ih (hs.advance _ _ _ _) hadv.cursor hrest (by omega)
      (by rw [hadv.opts]; omega) hlater
    obtain ⟨t', htip, hstands', hiff⟩ := StandsAt.disconnect hs hcursor hfold hadv hstands hback
      hb (by omega)
    refine ⟨t', ?_, hstands', hiff.mpr hnow⟩
    rw [map_cons, reverse_cons, disconnectAll_concat, hdone, Option.bind_some, disconnectAll, htip]
    rfl

theorem StandsAt.refl (hs : FoldInv s) (hcursor : s.haveCursor = true) : StandsAt b s s :=
  ⟨hs, rfl, hcursor, rfl, rfl, fun _ _ _ => rfl, fun _ _ _ => rfl⟩

theorem FoldInv.acceptAll (hs : FoldInv s) (hcursor : s.haveCursor = true)
    (h : acceptAll s ds = some s') : FoldInv s' ∧ s'.haveCursor = true := by
  induction ds generalizing s with
  | nil =>
    obtain rfl := Option.some.inj h
    exact ⟨hs, hcursor⟩
  | cons d ds ih =>
    obtain ⟨overlay, undo, hfold, -, hrest⟩ := acceptAll_cons hcursor h
    exact ih (hs.advance _ _ _ _) (hfold.advance hs d.hash).cursor hrest

/-! ## The set as a whole -/

theorem coins_eq_of_read {m m' : SortedMap Outpoint (List Byte)}
    (hm : ∀ op data, m.lookup op = some data → ∃ c, data = serializeCoin c)
    (hm' : ∀ op data, m'.lookup op = some data → ∃ c, data = serializeCoin c)
    (h : ∀ op, (m.lookup op).bind deserializeCoin = (m'.lookup op).bind deserializeCoin) :
    m = m' := by
  ext1 op
  have hop := h op
  cases hleft : m.lookup op with
  | none =>
    cases hright : m'.lookup op with
    | none => rfl
    | some data =>
      obtain ⟨c, rfl⟩ := hm' op data hright
      rw [hleft, hright, Option.bind_some, deserializeCoin_serializeCoin] at hop
      cases hop
  | some data =>
    obtain ⟨c, rfl⟩ := hm op data hleft
    cases hright : m'.lookup op with
    | none =>
      rw [hleft, hright, Option.bind_some, deserializeCoin_serializeCoin] at hop
      cases hop
    | some data' =>
      obtain ⟨c', rfl⟩ := hm' op data' hright
      rw [hleft, hright, Option.bind_some, Option.bind_some, deserializeCoin_serializeCoin,
        deserializeCoin_serializeCoin, Option.some.injEq] at hop
      rw [← serializeCoin_storedCoin c, hop, serializeCoin_storedCoin]

theorem getCoin_of_flush (hcursor : s.haveCursor = true) (op : Outpoint) :
    s.flush.getCoin op = (s.flush.store.coins.lookup op).bind deserializeCoin := by
  unfold getCoin coinIn WriteBack.view
  rw [(pending_of_flush hcursor).1]
  rfl

theorem hashSerialized2_congr (hasher : List Byte → Uint256)
    (hcoins : t.flush.store.coins = s.flush.store.coins) (hhash : t.bestHash = s.bestHash)
    (hheight : t.bestHeight = s.bestHeight) :
    (t.hashSerialized2 hasher).2 = (s.hashSerialized2 hasher).2 := by
  unfold hashSerialized2
  dsimp only
  rw [hcoins, flush_bestHash, flush_bestHash, flush_bestHeight, flush_bestHeight, hhash, hheight]
  cases (scanRows s.flush.store.coins).foldlM HashScan.row
    ({ stream := leBytes 32 s.bestHash.val } : HashScan) with
  | none => rfl
  | some scan => rfl

/-- The tip's record has an entry for each transaction of the body, with as many coins as the
transaction has inputs. -/
def BodyFits (s : ReplayUtxoFold) (block : FoldBlock) : Prop :=
  ∀ undo, (s.flush.store.undo.lookup s.bestHeight).bind deserializeBlockUndo = some undo →
    (block.txs.drop 1).length ≤ undo.txUndos.length ∧
      ∀ p ∈ (block.txs.drop 1).reverse.zip undo.txUndos.reverse,
        p.2.spentCoins.length = p.1.vin.length

theorem restoreTxs_none (hle : txs.length ≤ txUndos.length)
    (h : ∀ p ∈ txs.zip txUndos, p.2.spentCoins.length = p.1.vin.length) (overlay : Overlay) :
    (restoreTxs overlay txs txUndos).2 = none := by
  induction txs generalizing txUndos overlay with
  | nil => rfl
  | cons tx txs ih =>
    cases txUndos with
    | nil => simp at hle
    | cons tu tus =>
      have hlength := h (tx, tu) (by simp)
      unfold restoreTxs
      rw [if_neg (not_not.mpr hlength)]
      apply ih (by simpa using hle)
      intro p hp
      exact h p (mem_cons_of_mem _ hp)

theorem getCoin_refused (hfits : BodyFits s block) (hrefused : (s.disconnectTip block).2 = false)
    (op : Outpoint) : Aged ((s.disconnectTip block).1.getCoin op) (s.getCoin op) := by
  obtain ⟨heq, -⟩ | ⟨-, -, ⟨why, heq⟩ | ⟨undo, prev, hundo, -, ⟨why, hwhy, -⟩ | ⟨-, heq⟩⟩⟩ :=
    disconnectTip_cases s block
  · rw [heq]
    exact Aged.refl _
  · rw [heq]
    exact getCoin_flush s op
  · obtain ⟨hle, hcounts⟩ := hfits undo hundo
    unfold restored at hwhy
    rw [restoreTxs_none (by simpa using hle) hcounts] at hwhy
    cases hwhy
  · rw [heq] at hrefused
    cases hrefused

/-- In every reachable state with a cursor and every pending coin at a height that the store can
keep: fewer than `undo_window` accepted blocks, each of whose inputs was unspent before its block,
are disconnected in reverse order, and the cursor, the coins and the hash of the set are those of
before; a block is undone exactly when its inputs were unspent before it; and a refused disconnect
whose body fits the tip's record leaves the coins. -/
theorem disconnectTip_inverts (hasher : List Byte → Uint256) (opts : ReplayUtxoFoldOptions)
    (ops : List FoldOp) (hlow : LowOverlay (foldRun opts ops).overlay) :
    ((foldRun opts ops).haveCursor = true → ∀ ds s', acceptAll (foldRun opts ops) ds = some s' →
      ds.length < opts.undoWindow.val → InputsHeld (foldRun opts ops) ds →
      ∃ t, disconnectAll s' (ds.map Delivery.block).reverse = some t ∧ t.haveCursor = true ∧
        t.bestHeight = (foldRun opts ops).bestHeight ∧ t.bestHash = (foldRun opts ops).bestHash ∧
        (∀ op, t.getCoin op = (foldRun opts ops).getCoin op) ∧
        (t.hashSerialized2 hasher).2 = ((foldRun opts ops).hashSerialized2 hasher).2) ∧
      ((foldRun opts ops).haveCursor = true → ∀ d s', acceptAll (foldRun opts ops) [d] = some s' →
        1 < opts.undoWindow.val →
        ((∃ t, disconnectAll s' [d.block] = some t ∧
            ∀ op, t.getCoin op = (foldRun opts ops).getCoin op) ↔
          InputsHeld (foldRun opts ops) [d])) ∧
      ∀ block, BodyFits (foldRun opts ops) block →
        ((foldRun opts ops).disconnectTip block).2 = false →
        ∀ op, ((foldRun opts ops).disconnectTip block).1.getCoin op =
          (foldRun opts ops).getCoin op := by
  have hs := foldInv_run opts ops
  have hopts := foldRun_opts opts ops
  generalize foldRun opts ops = s at hs hopts hlow ⊢
  have hsame : ∀ {op : Outpoint} {c : Option Coin}, Aged c (s.getCoin op) → c = s.getCoin op :=
    fun haged => hlow.eq_of_aged haged
  subst hopts
  refine ⟨?_, ?_, ?_⟩
  · intro hcursor ds s' haccept hlength hheld
    obtain ⟨hs', hcursor'⟩ := hs.acceptAll hcursor haccept
    obtain ⟨t, hdone, hstands, haged⟩ := disconnectAll_acceptAll hs hcursor haccept le_rfl
      (by omega) hheld (StandsAt.refl hs' hcursor') fun op => Aged.refl _
    refine ⟨t, hdone, hstands.cursor, hstands.bestHeight, hstands.bestHash,
      fun op => hsame (haged op), ?_⟩
    apply hashSerialized2_congr hasher _ hstands.bestHash hstands.bestHeight
    apply coins_eq_of_read hstands.inv.flush.readable hs.flush.readable
    intro op
    rw [← getCoin_of_flush hstands.cursor, ← getCoin_of_flush hcursor,
      hsame (getCoin_flush s op), hsame ((getCoin_flush t op).trans (haged op))]
  · intro hcursor d s' haccept hwindow
    obtain ⟨overlay, undo, hfold, hdeliver, hrest⟩ := acceptAll_cons hcursor haccept
    obtain rfl := Option.some.inj hrest
    have hadv := hfold.advance hs d.hash
    have hnext := hfold.next
    obtain ⟨t, htip, -, hiff⟩ := StandsAt.disconnect hs hcursor hfold hadv
      (StandsAt.refl (hs.advance _ _ _ _) hadv.cursor) (fun op => Aged.refl _) le_rfl (by omega)
    have hall : disconnectAll (s.advance d.height d.hash overlay undo) [d.block] = some t := by
      rw [disconnectAll, htip]
      rfl
    constructor
    · rintro ⟨t', ht', hback⟩
      rw [hall] at ht'
      obtain rfl := Option.some.inj ht'
      refine ⟨hiff.mp fun op => ?_, trivial⟩
      rw [hback op]
      exact Aged.refl _
    · intro hheld
      exact ⟨t, hall, fun op => hsame (hiff.mpr hheld.1 op)⟩
  · intro block hfits hrefused op
    exact hsame (getCoin_refused hfits hrefused op)

def openOut (value : U64) : TxOut := ⟨value, opTrue⟩

def openTx : Tx := { txid := 10, vout := [openOut 50] }

def firstBlocks : List FoldOp :=
  [.deliver 0 100 { txs := [{ txid := 1 }] },
    .deliver 1 101 { txs := [openTx] },
    .flush]

def plainDelivery : Delivery where
  height := 2
  hash := 102
  block := { txs := [{ txid := 20 }, { txid := 21, vin := [toLex (10, 0)], vout := [openOut 50] }] }

theorem disconnectTip_inverts_plain :
    ∃ s' t, acceptAll (foldRun {} firstBlocks) [plainDelivery] = some s' ∧
      disconnectAll s' [plainDelivery.block] = some t ∧
      ∀ op, t.getCoin op = (foldRun {} firstBlocks).getCoin op := by
  have hlow : LowOverlay (foldRun {} firstBlocks).overlay := by
    intro op c h
    cases h
  have hkeys : CoinSet.spentKeys (foldSpendings 2 true plainDelivery.block.txs) =
      [toLex (10, 0)] := by decide +kernel
  have hheld : InputsHeld (foldRun {} firstBlocks) [plainDelivery] := by
    refine ⟨fun op hop => ?_, trivial⟩
    change op ∈ CoinSet.spentKeys (foldSpendings 2 true plainDelivery.block.txs) at hop
    rw [hkeys, List.mem_singleton] at hop
    rw [hop]
    decide +kernel
  have hcursor : (foldRun {} firstBlocks).haveCursor = true := by decide +kernel
  have haccept : (acceptAll (foldRun {} firstBlocks) [plainDelivery]).isSome = true := by
    decide +kernel
  obtain ⟨s', hs'⟩ := Option.isSome_iff_exists.mp haccept
  obtain ⟨t, hdone, -, -, -, hback, -⟩ := (disconnectTip_inverts (fun _ => 0) {} firstBlocks
    hlow).1 hcursor [plainDelivery] s' hs' (by decide) hheld
  exact ⟨s', t, hs', hdone, hback⟩

/-- A block that spends the output, and the output of that spend. -/
def chainedDelivery : Delivery where
  height := 2
  hash := 102
  block :=
    { txs :=
        [{ txid := 20 }, { txid := 21, vin := [toLex (10, 0)], vout := [openOut 50] },
          { txid := 22, vin := [toLex (21, 0)], vout := [openOut 49] }] }

/-- The output that was created and spent in the block is unspent after the disconnect. -/
theorem disconnectTip_resurrects :
    (foldRun {} firstBlocks).getCoin (toLex (21, 0)) = none ∧
      (((acceptAll (foldRun {} firstBlocks) [chainedDelivery]).bind fun s' =>
        disconnectAll s' [chainedDelivery.block]).map fun t =>
          (t.getCoin (toLex (21, 0))).isSome) = some true := by
  decide +kernel

end C2Pool.Utxo.ReplayUtxoFold
