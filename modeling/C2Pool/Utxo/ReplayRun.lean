import C2Pool.Utxo.ReplayFold

/-! # Runs of the replay fold

What holds in every state that deliveries, disconnects, flushes and restarts lead to:
the tip's hash is on record, pending or stored, and every stored coin can be read.
-/

namespace C2Pool.Utxo.ReplayUtxoFold

open SortedMap

def undoRows (s : ReplayUtxoFold) : SortedMap U32 UndoRecord :=
  putRows s.store.undo (s.pendingUndo.map fun e => (e.1, serializeBlockUndo e.2))

def hashRows (s : ReplayUtxoFold) : SortedMap U32 Uint256 := putRows s.store.hashes s.pendingHashes

variable {h : U32} {s : ReplayUtxoFold} {V : Type} {lo hi : Nat} {m : SortedMap U32 V}
  {store : FoldStore} {prev : Uint256}

theorem lookup_pruneRows (hkeep : hi ≤ h.val) : (pruneRows m lo hi).lookup h = m.lookup h := by
  unfold pruneRows
  rw [lookup_filterMap]
  have hcut : ¬ (lo ≤ h.val ∧ h.val < hi) := by omega
  cases m.lookup h with
  | none => rfl
  | some v => simp [hcut]

theorem putRows_concat (m : SortedMap U32 V) (rows : List (U32 × V)) (e : U32 × V) :
    putRows m (rows ++ [e]) = (putRows m rows).insert e.1 e.2 := by
  unfold putRows
  rw [List.foldl_append]
  rfl

/-- The state after a flush that writes. -/
abbrev emptied (s : ReplayUtxoFold) : ReplayUtxoFold :=
  { s with
    store := s.flushed
    overlay := ∅
    pendingUndo := []
    pendingHashes := []
    pendingUndoRemovals := []
    undoFloor := s.newFloor
    sinceFlush := 0 }

theorem flush_cases (s : ReplayUtxoFold) :
    s.flush = s ∨ s.haveCursor = true ∧ s.flush = s.emptied := by
  unfold flush
  split
  · exact Or.inl rfl
  rename_i hcursor
  split
  · exact Or.inl rfl
  · exact Or.inr ⟨by simpa using hcursor, rfl⟩

theorem flush_bestHash (s : ReplayUtxoFold) : s.flush.bestHash = s.bestHash := by
  obtain h | ⟨-, h⟩ := flush_cases s <;> rw [h]

theorem flush_bestHeight (s : ReplayUtxoFold) : s.flush.bestHeight = s.bestHeight := by
  obtain h | ⟨-, h⟩ := flush_cases s <;> rw [h]

theorem flush_haveCursor (s : ReplayUtxoFold) : s.flush.haveCursor = s.haveCursor := by
  obtain h | ⟨-, h⟩ := flush_cases s <;> rw [h]

theorem flush_opts (s : ReplayUtxoFold) : s.flush.opts = s.opts := by
  obtain h | ⟨-, h⟩ := flush_cases s <;> rw [h]

theorem getCoin_flush (s : ReplayUtxoFold) (op : Outpoint) :
    Aged (s.flush.getCoin op) (s.getCoin op) := by
  obtain h | ⟨-, h⟩ := flush_cases s
  · rw [h]
    exact Aged.refl _
  · rw [h]
    exact aged_commit s.overlay s.store.coins op

theorem undoRows_flush (hremovals : s.pendingUndoRemovals = [])
    (hkeep : s.keepFrom ≤ h.val) : s.flush.undoRows.lookup h = s.undoRows.lookup h := by
  obtain hsame | ⟨-, hflush⟩ := flush_cases s
  · rw [hsame]
  rw [hflush]
  unfold undoRows emptied flushed
  rw [hremovals]
  exact lookup_pruneRows hkeep

theorem hashRows_flush (hremovals : s.pendingUndoRemovals = [])
    (hkeep : s.keepFrom ≤ h.val) : s.flush.hashRows.lookup h = s.hashRows.lookup h := by
  obtain hsame | ⟨-, hflush⟩ := flush_cases s
  · rw [hsame]
  rw [hflush]
  unfold hashRows emptied flushed
  rw [hremovals]
  exact lookup_pruneRows hkeep

theorem keepFrom_le (s : ReplayUtxoFold) :
    s.keepFrom ≤ s.bestHeight.val + 1 - s.opts.undoWindow.val := by
  unfold keepFrom
  omega

/-! ## The invariant -/

def HasHash (rows : SortedMap U32 Uint256) (height : U32) (hash : Uint256) : Prop :=
  rows.lookup height = some hash ∨ height = 0 ∧ hash = 0 ∧ rows.lookup height = none

/-- What every reachable state keeps. -/
structure FoldInv (s : ReplayUtxoFold) : Prop where
  noRemovals : s.pendingUndoRemovals = []
  readable : ∀ op data, s.store.coins.lookup op = some data → ∃ c, data = serializeCoin c
  tip : 0 < s.opts.undoWindow.val → s.haveCursor = true →
    HasHash s.hashRows s.bestHeight s.bestHash
  stored : 0 < s.opts.undoWindow.val → ∀ cur, s.store.cursor = some cur →
    HasHash s.store.hashes cur.bestHeight cur.bestHash
  idle : s.haveCursor = false →
    s.overlay = ∅ ∧ s.pendingUndo = [] ∧ s.pendingHashes = [] ∧ s.store.cursor = none

theorem HasHash.congr {rows rows' : SortedMap U32 Uint256} {height : U32} {hash : Uint256}
    (h : HasHash rows height hash) (heq : rows'.lookup height = rows.lookup height) :
    HasHash rows' height hash := by
  unfold HasHash at h ⊢
  rwa [heq]

theorem lookup_commit_readable {overlay : Overlay} {base : SortedMap Outpoint (List Byte)}
    (h : ∀ op data, base.lookup op = some data → ∃ c, data = serializeCoin c) (op : Outpoint)
    (data : List Byte)
    (hdata : (WriteBack.commit serializeCoin overlay base).lookup op = some data) :
    ∃ c, data = serializeCoin c := by
  rw [WriteBack.lookup_commit] at hdata
  cases hop : overlay.lookup op with
  | none =>
    rw [hop] at hdata
    exact h op data hdata
  | some change =>
    rw [hop] at hdata
    obtain ⟨c, -, rfl⟩ := Option.map_eq_some_iff.mp hdata
    exact ⟨c, rfl⟩

theorem FoldInv.flush (h : FoldInv s) : FoldInv s.flush := by
  obtain hsame | ⟨hcursor, hflush⟩ := flush_cases s
  · rwa [hsame]
  have hkeep : 0 < s.opts.undoWindow.val → s.keepFrom ≤ s.bestHeight.val := by
    have := keepFrom_le s
    omega
  have htip : 0 < s.opts.undoWindow.val →
      HasHash s.flush.hashRows s.bestHeight s.bestHash := fun hwindow =>
    (h.tip hwindow hcursor).congr (hashRows_flush h.noRemovals (hkeep hwindow))
  rw [hflush] at htip ⊢
  refine ⟨rfl, ?_, fun hwindow _ => htip hwindow, ?_, ?_⟩
  · exact fun op data hdata => lookup_commit_readable h.readable op data hdata
  · intro hwindow cur hcur
    rw [← Option.some.inj hcur]
    exact htip hwindow
  · intro hno
    rw [hcursor] at hno
    cases hno

theorem FoldInv.openStore {opts : ReplayUtxoFoldOptions}
    (hreadable : ∀ op data, store.coins.lookup op = some data → ∃ c, data = serializeCoin c)
    (hstored : 0 < opts.undoWindow.val → ∀ cur, store.cursor = some cur →
      HasHash store.hashes cur.bestHeight cur.bestHash) :
    FoldInv (openStore opts store) := by
  unfold ReplayUtxoFold.openStore
  cases hcursor : store.cursor with
  | none =>
    refine ⟨rfl, hreadable, ?_, ?_, fun _ => ⟨rfl, rfl, rfl, hcursor⟩⟩
    · intro _ hno
      cases hno
    intro _ cur hcur
    rw [hcursor] at hcur
    cases hcur
  | some cur =>
    refine ⟨rfl, hreadable, fun hwindow _ => hstored hwindow cur hcursor, hstored, ?_⟩
    intro hno
    cases hno

theorem FoldInv.crash (h : FoldInv s) : FoldInv s.crash := by
  apply FoldInv.openStore h.readable
  exact h.stored

theorem FoldInv.refuse (h : FoldInv s) (why : FoldRefusal) : FoldInv (s.refuse why).1 := { h with }

theorem advance_cases (s : ReplayUtxoFold) (height : U32) (hash : Uint256) (overlay : Overlay)
    (undo : BlockUndo) :
    s.advance height hash overlay undo = s.moveTo height hash overlay undo ∨
      s.advance height hash overlay undo = (s.moveTo height hash overlay undo).flush := by
  unfold advance
  dsimp only
  split
  · exact Or.inr rfl
  · exact Or.inl rfl

theorem FoldInv.moveTo (h : FoldInv s) (height : U32) (hash : Uint256)
    (overlay : Overlay) (undo : BlockUndo) : FoldInv (s.moveTo height hash overlay undo) := by
  refine { h with tip := fun _ _ => Or.inl ?_, idle := ?_ }
  · unfold hashRows ReplayUtxoFold.moveTo
    rw [putRows_concat, lookup_insert, if_pos rfl]
  · intro hno
    cases hno

theorem FoldInv.advance (h : FoldInv s) (height : U32) (hash : Uint256)
    (overlay : Overlay) (undo : BlockUndo) : FoldInv (s.advance height hash overlay undo) := by
  obtain heq | heq := advance_cases s height hash overlay undo
  · rw [heq]
    exact h.moveTo height hash overlay undo
  · rw [heq]
    exact (h.moveTo height hash overlay undo).flush

theorem onReplayBlock_cases (s : ReplayUtxoFold) (height : U32) (hash : Uint256)
    (block : FoldBlock) :
    (∃ why, s.onReplayBlock height hash block = s.refuse why) ∨
      (s.onReplayBlock height hash block = (s, true) ∧ s.haveCursor = true ∧
        height ≤ s.bestHeight) ∨
      (s.onReplayBlock height hash block = (s.advance 0 hash s.overlay {}, true) ∧ height = 0 ∧
        s.haveCursor = false) ∨
      ∃ overlay undo, s.onReplayBlock height hash block =
          (s.advance height hash overlay undo, true) ∧
        applyTxs s.store height true (s.overlay, []) block.txs = .ok (overlay, undo) ∧
        (s.haveCursor = true → height = s.bestHeight + 1 ∧ s.bestHeight < height) ∧
        (s.haveCursor = false → height = 1) := by
  unfold onReplayBlock
  cases hpoison : s.poisoned with
  | some cause => exact Or.inl ⟨_, rfl⟩
  | none =>
    have hself : ({ s with poisoned := none } : ReplayUtxoFold) = s := by rw [← hpoison]
    dsimp only
    split
    · rename_i hrepeat
      exact Or.inr (Or.inl ⟨rfl, hrepeat⟩)
    rename_i hnew
    split
    · exact Or.inl ⟨_, rfl⟩
    rename_i hnext
    split
    · exact Or.inl ⟨_, rfl⟩
    split
    · exact Or.inl ⟨_, rfl⟩
    rename_i hcold
    split
    · rename_i hzero
      subst hzero
      refine Or.inr (Or.inr (Or.inl ⟨rfl, rfl, ?_⟩))
      by_contra hcursor
      exact hnew ⟨by simpa using hcursor, Fin.zero_le _⟩
    rename_i hpos
    cases happly : s.applyBlockTxs height block with
    | error e =>
      left
      refine ⟨e.1, ?_⟩
      dsimp only
      rw [applyBlockTxs_error happly, hself]
    | ok r =>
      right
      right
      right
      refine ⟨r.1, r.2, rfl, ?_, ?_, ?_⟩
      · unfold applyBlockTxs at happly
        split at happly
        · cases happly
        · exact happly
      · intro hcursor
        refine ⟨?_, ?_⟩
        · by_contra hne
          exact hnext ⟨hcursor, hne⟩
        · exact lt_of_not_ge fun hle => hnew ⟨hcursor, hle⟩
      · intro hcursor
        have hle : height.val ≤ 1 := by
          by_contra hgt
          exact hcold ⟨hcursor, Fin.lt_def.mpr (by simpa using hgt)⟩
        have hne : height.val ≠ 0 := fun hzero => hpos (Fin.ext hzero)
        exact Fin.ext (by simp; omega)

theorem FoldInv.onReplayBlock (h : FoldInv s) (height : U32) (hash : Uint256)
    (block : FoldBlock) : FoldInv (s.onReplayBlock height hash block).1 := by
  obtain ⟨why, heq⟩ | ⟨heq, -⟩ | ⟨heq, -⟩ | ⟨overlay, undo, heq, -⟩ :=
    onReplayBlock_cases s height hash block
  · rw [heq]
    exact h.refuse why
  · rw [heq]
    exact h
  · rw [heq]
    exact h.advance _ _ _ _
  · rw [heq]
    exact h.advance _ _ _ _

theorem FoldInv.setOverlay (h : FoldInv s) (hcursor : s.haveCursor = true)
    (overlay : Overlay) : FoldInv { s with overlay := overlay } := by
  refine { h with idle := ?_ }
  intro hno
  rw [hcursor] at hno
  cases hno

theorem flush_of_pending (hcursor : s.haveCursor = true)
    (hpending : s.pendingUndo ≠ [] ∨ s.pendingUndoRemovals ≠ []) :
    s.flush = s.emptied := by
  unfold ReplayUtxoFold.flush
  rw [if_neg (by simp [hcursor]), if_neg]
  rintro ⟨-, hundo, -, hremovals, -⟩
  obtain hne | hne := hpending
  · exact hne hundo
  · exact hne hremovals

theorem pending_of_flush (hcursor : s.haveCursor = true) :
    s.flush.overlay = ∅ ∧ s.flush.pendingUndo = [] ∧ s.flush.pendingHashes = [] := by
  unfold ReplayUtxoFold.flush
  rw [if_neg (by simp [hcursor])]
  split
  · rename_i hempty
    exact ⟨entries_eq_nil.mp hempty.1, hempty.2.1, hempty.2.2.1⟩
  · exact ⟨rfl, rfl, rfl⟩

/-- The state of a disconnect before its last flush. -/
def rewound (s : ReplayUtxoFold) (overlay : Overlay) (prev : Uint256) : ReplayUtxoFold :=
  { s with
    overlay := overlay
    bestHeight := s.bestHeight - 1
    bestHash := prev
    pendingUndoRemovals := s.pendingUndoRemovals ++ [s.bestHeight] }

def restored (s : ReplayUtxoFold) (block : FoldBlock) (undo : BlockUndo) :
    Overlay × Option FoldRefusal :=
  restoreTxs (undo.addedOutpoints.foldl (fun o op => o.insert op none) s.overlay)
    (block.txs.drop 1).reverse undo.txUndos.reverse

theorem disconnectTip_cases (s : ReplayUtxoFold) (block : FoldBlock) :
    s.disconnectTip block = s.refuse .disconnectNoTip ∧ (s.haveCursor = false ∨ s.bestHeight = 0) ∨
      s.haveCursor = true ∧ s.bestHeight ≠ 0 ∧
        ((∃ why, s.disconnectTip block = s.flush.refuse why) ∨
          ∃ undo prev, (s.flush.store.undo.lookup s.bestHeight).bind deserializeBlockUndo =
              some undo ∧
            prevHash s.flush.store s.bestHeight = some prev ∧
            ((∃ why, (restored s.flush block undo).2 = some why ∧ s.disconnectTip block =
                { s.flush with overlay := (restored s.flush block undo).1 }.refuse why) ∨
              (restored s.flush block undo).2 = none ∧ s.disconnectTip block =
                ((rewound s.flush (restored s.flush block undo).1 prev).flush, true))) := by
  unfold disconnectTip
  split
  · rename_i hno
    exact Or.inl ⟨rfl, hno⟩
  rename_i htip
  rw [not_or, Bool.not_eq_false] at htip
  refine Or.inr ⟨htip.1, htip.2, ?_⟩
  dsimp only
  rw [flush_bestHeight]
  cases hundo : (s.flush.store.undo.lookup s.bestHeight).bind deserializeBlockUndo with
  | none => exact Or.inl ⟨_, rfl⟩
  | some undo =>
    dsimp only
    cases hprev : prevHash s.flush.store s.bestHeight with
    | none => exact Or.inl ⟨_, rfl⟩
    | some prev =>
      refine Or.inr ⟨undo, prev, rfl, rfl, ?_⟩
      unfold restored rewound
      rw [flush_bestHeight]
      cases hrestore : restoreTxs
          (undo.addedOutpoints.foldl (fun o op => o.insert op none) s.flush.overlay)
          (block.txs.drop 1).reverse undo.txUndos.reverse with
      | mk overlay refusal =>
        cases refusal with
        | some why => exact Or.inl ⟨why, rfl, rfl⟩
        | none => exact Or.inr ⟨rfl, rfl⟩

theorem val_sub_one {h : U32} (hne : h ≠ 0) : (h - 1).val = h.val - 1 :=
  Fin.val_sub_one_of_ne_zero hne

theorem lookup_removed {x : U32} (hne : x ≠ h)
    (hkeep : hi ≤ x.val) : (pruneRows (removeRows m [h]) lo hi).lookup x = m.lookup x := by
  rw [lookup_pruneRows hkeep]
  unfold removeRows
  rw [List.foldl_cons, List.foldl_nil, lookup_erase, if_neg hne]

theorem rewound_rows (h : FoldInv s) (hcursor : s.haveCursor = true)
    (htip : s.bestHeight ≠ 0) (overlay : Overlay) (prev : Uint256) {x : U32}
    (hx : x.val < s.bestHeight.val) (hkeep : s.bestHeight.val - s.opts.undoWindow.val ≤ x.val) :
    (rewound s.flush overlay prev).flush.store.undo.lookup x = s.flush.store.undo.lookup x ∧
      (rewound s.flush overlay prev).flush.store.hashes.lookup x =
        s.flush.store.hashes.lookup x := by
  obtain ⟨-, hundo, hhashes⟩ := pending_of_flush hcursor
  have hremovals := h.flush.noRemovals
  have hne : x ≠ s.flush.bestHeight := by
    intro heq
    rw [flush_bestHeight] at heq
    rw [heq] at hx
    exact lt_irrefl _ hx
  have hcut : (rewound s.flush overlay prev).keepFrom ≤ x.val := by
    refine le_trans (keepFrom_le _) ?_
    unfold rewound
    rw [flush_bestHeight, flush_opts, val_sub_one htip]
    omega
  rw [flush_of_pending (by exact (flush_haveCursor s).trans hcursor)
    (Or.inr (by unfold rewound; simp))]
  unfold emptied flushed
  have hrows : (rewound s.flush overlay prev).pendingUndoRemovals = [s.flush.bestHeight] := by
    unfold rewound
    rw [hremovals]
    rfl
  have hnoUndo : (rewound s.flush overlay prev).pendingUndo = [] := hundo
  have hnoHashes : (rewound s.flush overlay prev).pendingHashes = [] := hhashes
  rw [hrows, hnoUndo, hnoHashes]
  exact ⟨lookup_removed hne hcut, lookup_removed hne hcut⟩

theorem prevHash_hasHash (hprev : prevHash store h = some prev) :
    HasHash store.hashes (h - 1) prev := by
  unfold prevHash at hprev
  cases hrow : store.hashes.lookup (h - 1) with
  | some hash =>
    rw [hrow] at hprev
    exact Or.inl (hrow.trans hprev)
  | none =>
    rw [hrow] at hprev
    dsimp only at hprev
    split at hprev
    · rename_i hone
      right
      refine ⟨?_, (Option.some.inj hprev).symm, hrow⟩
      rw [hone]
      rfl
    · cases hprev

theorem FoldInv.rewound (h : FoldInv s) (hcursor : s.haveCursor = true) (htip : s.bestHeight ≠ 0)
    (overlay : Overlay) (hprev : prevHash s.flush.store s.bestHeight = some prev) :
    FoldInv (ReplayUtxoFold.rewound s.flush overlay prev).flush := by
  have hcursor' : (ReplayUtxoFold.rewound s.flush overlay prev).haveCursor = true :=
    (flush_haveCursor s).trans hcursor
  have hflush := flush_of_pending hcursor' (Or.inr (by unfold ReplayUtxoFold.rewound; simp))
  have hbest : (s.bestHeight - 1).val = s.bestHeight.val - 1 := val_sub_one htip
  have hpos : 0 < s.bestHeight.val := Nat.pos_of_ne_zero fun hzero => htip (Fin.ext hzero)
  have htipHash : 0 < s.flush.opts.undoWindow.val →
      HasHash (ReplayUtxoFold.rewound s.flush overlay prev).flush.store.hashes
        (s.flush.bestHeight - 1) prev := by
    intro hwindow
    rw [flush_opts] at hwindow
    rw [flush_bestHeight]
    have hrows := rewound_rows h hcursor htip overlay prev (by omega) (x := s.bestHeight - 1)
      (by omega)
    exact (prevHash_hasHash hprev).congr hrows.2
  rw [hflush] at htipHash ⊢
  refine ⟨rfl, ?_, fun hwindow _ => htipHash hwindow, ?_, ?_⟩
  · exact fun op data hdata => lookup_commit_readable h.flush.readable op data hdata
  · intro hwindow cur hcur
    rw [← Option.some.inj hcur]
    exact htipHash hwindow
  · intro hno
    rw [hcursor'] at hno
    cases hno

theorem FoldInv.disconnectTip (h : FoldInv s) (block : FoldBlock) :
    FoldInv (s.disconnectTip block).1 := by
  obtain ⟨heq, -⟩ | ⟨hcursor, htip, ⟨why, heq⟩ | ⟨undo, prev, -, hprev, hcase⟩⟩ :=
    disconnectTip_cases s block
  · rw [heq]
    exact h.refuse _
  · rw [heq]
    exact h.flush.refuse _
  · have hcursor' : s.flush.haveCursor = true := (flush_haveCursor s).trans hcursor
    obtain ⟨why, -, heq⟩ | ⟨-, heq⟩ := hcase
    · rw [heq]
      exact (h.flush.setOverlay hcursor' _).refuse _
    · rw [heq]
      exact h.rewound hcursor htip _ hprev

/-- A call on the fold, or a restart; a failed gate may poison the fold at any time. -/
inductive FoldOp where
  | deliver (height : U32) (hash : Uint256) (block : FoldBlock)
  | disconnect (block : FoldBlock)
  | flush
  | crash
  | poison (cause : String)

def step (s : ReplayUtxoFold) : FoldOp → ReplayUtxoFold
  | .deliver height hash block => (s.onReplayBlock height hash block).1
  | .disconnect block => (s.disconnectTip block).1
  | .flush => s.flush
  | .crash => s.crash
  | .poison cause => { s with poisoned := some cause }

def foldRun (opts : ReplayUtxoFoldOptions) (ops : List FoldOp) : ReplayUtxoFold :=
  ops.foldl step (openStore opts {})

theorem FoldInv.step (h : FoldInv s) (op : FoldOp) : FoldInv (s.step op) := by
  cases op with
  | deliver height hash block => exact h.onReplayBlock height hash block
  | disconnect block => exact h.disconnectTip block
  | flush => exact h.flush
  | crash => exact h.crash
  | poison cause => exact { h with }

theorem advance_opts (s : ReplayUtxoFold) (height : U32) (hash : Uint256) (overlay : Overlay)
    (undo : BlockUndo) : (s.advance height hash overlay undo).opts = s.opts := by
  obtain heq | heq := advance_cases s height hash overlay undo
  · rw [heq]
    rfl
  · rw [heq]
    exact flush_opts _

theorem step_opts (s : ReplayUtxoFold) (op : FoldOp) : (s.step op).opts = s.opts := by
  cases op with
  | deliver height hash block =>
    change (s.onReplayBlock height hash block).1.opts = s.opts
    obtain ⟨why, heq⟩ | ⟨heq, -⟩ | ⟨heq, -⟩ | ⟨overlay, undo, heq, -⟩ :=
      onReplayBlock_cases s height hash block
    · rw [heq]
      rfl
    · rw [heq]
    · rw [heq]
      exact advance_opts _ _ _ _ _
    · rw [heq]
      exact advance_opts _ _ _ _ _
  | disconnect block =>
    change (s.disconnectTip block).1.opts = s.opts
    obtain ⟨heq, -⟩ | ⟨-, -, ⟨why, heq⟩ | ⟨undo, prev, -, -, ⟨why, -, heq⟩ | ⟨-, heq⟩⟩⟩ :=
      disconnectTip_cases s block
    · rw [heq]
      rfl
    · rw [heq]
      exact flush_opts s
    · rw [heq]
      exact flush_opts s
    · rw [heq]
      exact (flush_opts _).trans (flush_opts s)
  | flush => exact flush_opts s
  | crash =>
    change (openStore s.opts s.store).opts = s.opts
    unfold openStore
    cases s.store.cursor <;> rfl
  | poison cause => rfl

theorem foldRun_opts (opts : ReplayUtxoFoldOptions) (ops : List FoldOp) :
    (foldRun opts ops).opts = opts := by
  have hfold : ∀ (ops : List FoldOp) (s : ReplayUtxoFold), (ops.foldl step s).opts = s.opts := by
    intro ops
    induction ops with
    | nil => exact fun s => rfl
    | cons op ops ih => exact fun s => (ih (s.step op)).trans (step_opts s op)
  exact hfold ops (openStore opts {})

theorem foldInv_run (opts : ReplayUtxoFoldOptions) (ops : List FoldOp) :
    FoldInv (foldRun opts ops) := by
  have hstart : FoldInv (ReplayUtxoFold.openStore opts {}) := by
    apply FoldInv.openStore
    · intro op data hdata
      cases hdata
    · intro _ cur hcur
      cases hcur
  unfold foldRun
  generalize ReplayUtxoFold.openStore opts {} = s at hstart
  induction ops generalizing s with
  | nil => exact hstart
  | cons op ops ih => exact ih _ (hstart.step op)

end C2Pool.Utxo.ReplayUtxoFold
