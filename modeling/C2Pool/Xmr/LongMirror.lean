import C2Pool.Xmr.Frontier

/-! # The long-term weight mirror

The index keeps the long-term window a second time, with the last evictions beside it: the newest of
the view's own undo records, `snapshot_depth + 8` of them at most. A pop past them is not made, and
the mirror is one value ahead from then on.
-/

namespace C2Pool.Xmr.ChainIndex

open List Run SlidingWindow ConsensusState

variable {retarget : Retarget} {w : List U64} {view : ChainStateView} {x : ChainIndex}
  {us : List (Option U64)} {out : List U64} {block : BlockConnectInput} {row : ChainRow} {now : U64}

def longWindow (x : ChainIndex) : List U64 := x.view.state.weights.long.values

/-- An index together with the long-term windows its state had below the current tip, the newest
first. -/
structure Traced where
  index : ChainIndex
  below : List (List U64) := []

namespace Traced

def call (retarget : Retarget) (t : Traced) (c : Call) : Traced :=
  { index := t.index.call retarget c
    below := match c with
      | .push block powOk _ _ now =>
        if (t.index.view.connect retarget block powOk now).isSome then
          t.index.longWindow :: t.below
        else t.below
      | .probe block powOk now =>
        match t.index.view.connect retarget block powOk now with
        | none => t.below
        | some (_, view) =>
          if view.disconnectTip.isSome then t.below else t.index.longWindow :: t.below
      | .pop => if t.index.view.disconnectTip.isSome then t.below.tail else t.below
      | .unpush => if t.index.view.disconnectTip.isSome then t.below.tail else t.below }

theorem run_call_index (t : Traced) (calls : List Call) :
    (run (call retarget) t calls).index = run (ChainIndex.call retarget) t.index calls := by
  induction calls generalizing t with
  | nil => rfl
  | cons c calls ih =>
    rw [run_cons, ih]
    rfl

end Traced

def LeadsBack : List U64 → List (Option U64) → List (List U64) → Prop
  | _, [], [] => True
  | w, u :: us, b :: bs => w ≠ [] ∧ SlidingWindow.unslide w u = b ∧ LeadsBack b us bs
  | _, _, _ => False

variable {t : Traced}

theorem rollWindow_of_leadsBack {bs : List (List U64)} (h : LeadsBack w us bs) {d : Nat}
    (hroll : rollWindow (us.take d) w = some out) (hd : d ≤ us.length) :
    (w :: bs)[d]? = some out := by
  induction d generalizing w us bs with
  | zero => simpa [rollWindow] using hroll
  | succ d ih =>
    cases us with
    | nil => simp at hd
    | cons u us =>
      cases bs with
      | nil => exact absurd h (by simp [LeadsBack])
      | cons b bs =>
        obtain ⟨hne, rfl, hrest⟩ := h
        rw [take_succ_cons, rollWindow, if_neg hne] at hroll
        exact ih hrest hroll (by simpa using hd)

def evictions (x : ChainIndex) : List (Option U64) := x.view.undos.map (·.weight.long)

/-- The mirror is the window, its undo list is the newest end of the view's, and the state retains
a row for each entry of it and one more. -/
structure InStep (t : Traced) : Prop where
  mirror : t.index.ltMirror = t.index.longWindow
  capacity : t.index.view.state.weights.long.cap = 100000
  newestEvictions : t.index.ltUndo <:+ t.index.evictions
  bounded : t.index.ltUndo.length ≤ t.index.opts.snapshotDepth + 8
  leadsBack : LeadsBack t.index.longWindow t.index.evictions.reverse t.below
  retained : t.index.ltUndo.length + 1 ≤ t.index.view.state.rows.length
  retention : t.index.opts.snapshotDepth + 10 ≤ t.index.view.state.rowRetention
  ascending : t.index.view.state.Ascending
  aboveAnchor : ∀ r ∈ t.index.view.state.rows, t.index.view.state.anchorHeight ≤ r.height

def Poppable (x : ChainIndex) : Call → Prop
  | .pop => x.ltUndo ≠ []
  | .unpush => x.ltUndo ≠ []
  | _ => True

theorem InStep.longWindowAtDepth {t : Traced} (h : InStep t) {d : Nat}
    (hout : t.index.longWindowAtDepth d = some out) :
    (t.index.longWindow :: t.below)[d]? = some out := by
  unfold ChainIndex.longWindowAtDepth at hout
  split at hout
  · cases hout
  next hd =>
  obtain ⟨older, holder⟩ := h.newestEvictions
  have htake : t.index.ltUndo.reverse.take d = t.index.evictions.reverse.take d := by
    rw [← holder, reverse_append, take_append_of_le_length (by simpa using hd)]
  rw [htake, h.mirror] at hout
  refine rollWindow_of_leadsBack h.leadsBack hout ?_
  rw [length_reverse, ← holder, length_append]
  omega

/-! ## One call -/

theorem length_accept_rows (s : ConsensusState) (fuse : HfFuse) (row : ChainRow) :
    (s.accept fuse row).rows.length = min s.rowRetention (s.rows.length + 1) := by
  rw [accept_rows, SlidingWindow.newest, length_drop, length_append, length_singleton]
  omega

/-- What `disconnect` leaves of the weights and the retention. -/
theorem disconnect_weights {s t : ConsensusState} {undo : ConnectUndo}
    (h : s.disconnect undo = some t) :
    t.weights = s.weights.pop undo.weight ∧ t.rowRetention = s.rowRetention := by
  unfold ConsensusState.disconnect at h
  split at h
  · cases h
  split at h
  · cases h
  cases h
  exact ⟨rfl, rfl⟩

theorem disconnect_isSome {s : ConsensusState} {tip : ChainRow} (htip : s.tip = some tip)
    (habove : s.anchorHeight < tip.height) (undo : ConnectUndo) :
    ∃ t, s.disconnect undo = some t := by
  unfold ConsensusState.disconnect
  rw [htip]
  dsimp only
  rw [if_neg (not_le.mpr habove)]
  exact ⟨_, rfl⟩

theorem InStep.rows_ne_nil (h : InStep t) : t.index.view.state.rows ≠ [] := by
  have hretained := h.retained
  intro hnil
  rw [hnil] at hretained
  simp at hretained

theorem InStep.follow (h : InStep t) {powOk ownMined : Bool} {powHash : Hash}
    (hview : t.index.view.connect retarget block powOk now = some (row, view)) :
    InStep ⟨t.index.follow row view ownMined powHash, t.index.longWindow :: t.below⟩ := by
  obtain ⟨j, hj, hrow, hstate, hundos⟩ := viewConnect_eq_some hview
  have hheight : row.height = t.index.view.state.height + 1 := by rw [hrow]; rfl
  have hanchor : t.index.view.state.anchorHeight < row.height := by
    rw [hheight]
    exact judge_height hj h.rows_ne_nil
  have hwindow : view.state.weights.long.values =
      (SlidingWindow.slide 100000 t.index.longWindow row.longTermWeight).1 := by
    rw [hstate, ← h.capacity]
    rfl
  have hevicted : view.undos.map (·.weight.long) =
      t.index.evictions ++ [(SlidingWindow.slide 100000 t.index.longWindow
        row.longTermWeight).2] := by
    rw [hundos, map_append, ← h.capacity]
    rfl
  have hlength : (t.index.follow row view ownMined powHash).ltUndo.length =
      min (t.index.opts.snapshotDepth + 8) (t.index.ltUndo.length + 1) := by
    show (SlidingWindow.newest (t.index.opts.snapshotDepth + 8) (t.index.ltUndo ++ [_])).length = _
    rw [SlidingWindow.newest, length_drop, length_append, length_singleton]
    omega
  have hretention := h.retention
  refine ⟨?_, ?_, ?_, ?_, ?_, ?_, ?_, ?_, ?_⟩
  · show (SlidingWindow.slide 100000 t.index.ltMirror row.longTermWeight).1 =
      view.state.weights.long.values
    rw [h.mirror, hwindow]
  · show view.state.weights.long.cap = 100000
    rw [hstate]
    exact h.capacity
  · show SlidingWindow.newest _ (t.index.ltUndo ++ [_]) <:+ view.undos.map (·.weight.long)
    rw [hevicted, h.mirror]
    obtain ⟨older, holder⟩ := h.newestEvictions
    refine (drop_suffix _ _).trans ⟨older, ?_⟩
    rw [← holder, append_assoc]
  · rw [hlength]
    exact min_le_left _ _
  · show LeadsBack view.state.weights.long.values (view.undos.map (·.weight.long)).reverse _
    rw [hwindow, hevicted, reverse_append]
    exact ⟨slide_ne_nil _ _ _, unslide_slide _ _ _, h.leadsBack⟩
  · rw [hlength]
    show _ ≤ view.state.rows.length
    rw [hstate, length_accept_rows]
    have hretained := h.retained
    omega
  · show _ ≤ view.state.rowRetention
    rw [hstate]
    exact hretention
  · show view.state.Ascending
    rw [hstate]
    refine h.ascending.accept fun r hr => ?_
    rw [hheight]
    exact h.ascending.lt_next hj hr
  · show ∀ r ∈ view.state.rows, view.state.anchorHeight ≤ r.height
    rw [hstate]
    intro r hr
    rcases mem_append.mp (mem_of_mem_newest hr) with hold | hnew
    · exact h.aboveAnchor r hold
    · rw [mem_singleton.mp hnew]
      exact hanchor.le

theorem InStep.disconnectTip (h : InStep t) (hundo : t.index.ltUndo ≠ []) :
    ∃ view undo, t.index.view.disconnectTip = some view ∧
      t.index.view.undos.getLast? = some undo ∧
      t.index.view.state.disconnect undo = some view.state ∧
      view.undos = t.index.view.undos.dropLast := by
  have hundos : t.index.view.undos ≠ [] := by
    intro hnil
    have hsuffix := h.newestEvictions
    rw [evictions, hnil, map_nil, suffix_nil] at hsuffix
    exact hundo hsuffix
  obtain ⟨init, last, hrows⟩ := (eq_nil_or_concat _).resolve_left h.rows_ne_nil
  rw [concat_eq_append] at hrows
  have htip : t.index.view.state.tip = some last := by
    unfold ConsensusState.tip
    rw [hrows]
    simp
  have habove : t.index.view.state.anchorHeight < last.height := by
    have hpositive : 0 < t.index.ltUndo.length := length_pos_iff.mpr hundo
    have hretained := h.retained
    rw [hrows, length_append, length_singleton] at hretained
    obtain ⟨first, hfirst⟩ := exists_mem_of_length_pos (by omega : 0 < init.length)
    have hascending := h.ascending
    unfold ConsensusState.Ascending at hascending
    rw [hrows] at hascending
    have hlt := (pairwise_append.mp hascending).2.2 first hfirst last (by simp)
    have hle := h.aboveAnchor first (by rw [hrows]; exact mem_append_left _ hfirst)
    exact hle.trans_lt hlt
  have hlast : t.index.view.undos.getLast? = some (t.index.view.undos.getLast hundos) :=
    getLast?_eq_some_getLast hundos
  obtain ⟨s, hs⟩ := disconnect_isSome htip habove (t.index.view.undos.getLast hundos)
  refine ⟨{ state := s, undos := t.index.view.undos.dropLast }, _, ?_, hlast, hs, rfl⟩
  unfold ChainStateView.disconnectTip
  rw [hlast]
  dsimp only
  rw [hs]
  rfl

theorem LeadsBack.cons_inv {u : Option U64}
    {below : List (List U64)} (h : LeadsBack w (u :: us) below) :
    w ≠ [] ∧ LeadsBack (SlidingWindow.unslide w u) us below.tail := by
  cases below with
  | nil => exact absurd h (by simp [LeadsBack])
  | cons b bs =>
    obtain ⟨hne, rfl, hrest⟩ := h
    exact ⟨hne, hrest⟩

theorem InStep.unfollow (h : InStep t) (hundo : t.index.ltUndo ≠ [])
    (hview : t.index.view.disconnectTip = some view) :
    InStep ⟨t.index.unfollow view, t.below.tail⟩ := by
  obtain ⟨view', undo, hview', hlast, hdisconnect, hundos⟩ := h.disconnectTip hundo
  rw [hview] at hview'
  cases hview'
  obtain ⟨hrows, hanchorHeight, -⟩ := disconnect_frontier hdisconnect
  obtain ⟨hweights, hretention⟩ := disconnect_weights hdisconnect
  -- The newest entry of the mirror's list is the view's own.
  have hevictions : t.index.evictions = view.undos.map (·.weight.long) ++ [undo.weight.long] := by
    rw [hundos, evictions]
    conv_lhs => rw [← dropLast_append_getLast? undo hlast]
    rw [map_append]
    rfl
  obtain ⟨older, holder⟩ := h.newestEvictions
  have hlastUndo : t.index.ltUndo.getLast? = some undo.weight.long := by
    have hboth := congrArg List.getLast? (holder.trans hevictions)
    rw [getLast?_append_of_ne_nil _ hundo] at hboth
    simpa using hboth
  have hleads := h.leadsBack
  rw [hevictions, reverse_append] at hleads
  obtain ⟨hne, hleads⟩ := hleads.cons_inv
  have hwindow : view.state.weights.long.values =
      SlidingWindow.unslide t.index.longWindow undo.weight.long := by
    rw [hweights]
    exact MedianWindow.popBack_values hne undo.weight.long
  have hmirrorNe : t.index.ltMirror ≠ [] := by rw [h.mirror]; exact hne
  have hmirror : (t.index.unfollow view).ltMirror =
      SlidingWindow.unslide t.index.ltMirror undo.weight.long := by
    simp [ChainIndex.unfollow, popLongMirror, hlastUndo, hmirrorNe]
  have hltUndo : (t.index.unfollow view).ltUndo = t.index.ltUndo.dropLast := by
    simp [ChainIndex.unfollow, popLongMirror, hlastUndo, hmirrorNe]
  have hopts : (t.index.unfollow view).opts = t.index.opts := by
    simp [ChainIndex.unfollow, popLongMirror, hlastUndo, hmirrorNe]
  have hlength : (t.index.unfollow view).ltUndo.length + 1 = t.index.ltUndo.length := by
    have hpositive : 0 < t.index.ltUndo.length := length_pos_iff.mpr hundo
    rw [hltUndo, length_dropLast]
    omega
  refine ⟨?_, ?_, ?_, ?_, ?_, ?_, ?_, ?_, ?_⟩
  · show (t.index.unfollow view).ltMirror = (t.index.unfollow view).view.state.weights.long.values
    rw [unfollow_view, hmirror, hwindow, h.mirror]
  · show (t.index.unfollow view).view.state.weights.long.cap = 100000
    rw [unfollow_view, hweights]
    show (t.index.view.state.weights.long.popBack _).cap = 100000
    rw [MedianWindow.popBack_cap, h.capacity]
  · show (t.index.unfollow view).ltUndo <:+
      (t.index.unfollow view).view.undos.map (·.weight.long)
    rw [unfollow_view, hltUndo]
    refine ⟨older, ?_⟩
    have hboth := congrArg List.dropLast (holder.trans hevictions)
    rw [dropLast_append_of_ne_nil hundo, dropLast_concat] at hboth
    exact hboth
  · have hbounded := h.bounded
    show (t.index.unfollow view).ltUndo.length ≤ (t.index.unfollow view).opts.snapshotDepth + 8
    rw [hopts]
    omega
  · show LeadsBack (t.index.unfollow view).view.state.weights.long.values
      ((t.index.unfollow view).view.undos.map (·.weight.long)).reverse t.below.tail
    rw [unfollow_view, hwindow]
    exact hleads
  · have hretained := h.retained
    show (t.index.unfollow view).ltUndo.length + 1 ≤ (t.index.unfollow view).view.state.rows.length
    rw [unfollow_view, hrows, length_dropLast]
    omega
  · show (t.index.unfollow view).opts.snapshotDepth + 10 ≤
      (t.index.unfollow view).view.state.rowRetention
    rw [unfollow_view, hopts, hretention]
    exact h.retention
  · show (t.index.unfollow view).view.state.Ascending
    rw [unfollow_view]
    unfold ConsensusState.Ascending
    rw [hrows]
    exact h.ascending.sublist (dropLast_sublist _)
  · show ∀ r ∈ (t.index.unfollow view).view.state.rows,
      (t.index.unfollow view).view.state.anchorHeight ≤ r.height
    rw [unfollow_view, hrows, hanchorHeight]
    intro r hr
    exact h.aboveAnchor r (dropLast_subset _ hr)

theorem InStep.probe (h : InStep t) {powOk : Bool}
    (hview : t.index.view.connect retarget block powOk now = some (row, view)) :
    ∃ view', view.disconnectTip = some view' ∧
      InStep ⟨{ t.index with view := view' }, t.below⟩ := by
  obtain ⟨j, hj, hrow, hstate, hundos⟩ := viewConnect_eq_some hview
  have hretention := h.retention
  have hanchor : t.index.view.state.anchorHeight < row.height := by
    rw [hrow]
    exact judge_height hj h.rows_ne_nil
  have htip : view.state.tip = some row := by
    rw [hstate]
    exact accept_tip (by omega) _ _
  have habove : view.state.anchorHeight < row.height := by
    rw [hstate]
    exact hanchor
  obtain ⟨s, hs⟩ := disconnect_isSome htip habove (t.index.view.state.undoOf row)
  have hdisconnect : view.disconnectTip = some { state := s, undos := t.index.view.undos } := by
    unfold ChainStateView.disconnectTip
    rw [hundos, getLast?_append, getLast?_singleton]
    dsimp only [Option.or]
    rw [hs, dropLast_concat]
    rfl
  refine ⟨_, hdisconnect, ?_⟩
  obtain ⟨hrows, hanchorHeight, -⟩ := disconnect_frontier hs
  obtain ⟨hweights, hkeeps⟩ := disconnect_weights hs
  have hsame : s.weights = t.index.view.state.weights := by
    rw [hweights, hstate]
    exact WeightState.pop_push _ _ _
  have hsub : ∀ r ∈ s.rows, r ∈ t.index.view.state.rows := by
    intro r hr
    rw [hrows, hstate, accept_rows] at hr
    have hsucc : t.index.view.state.rowRetention = t.index.view.state.rowRetention - 1 + 1 := by
      omega
    rw [hsucc, newest_concat, dropLast_concat] at hr
    exact mem_of_mem_newest hr
  refine ⟨?_, ?_, h.newestEvictions, h.bounded, ?_, ?_, ?_, ?_, ?_⟩
  · show t.index.ltMirror = s.weights.long.values
    rw [hsame, h.mirror]
    rfl
  · show s.weights.long.cap = 100000
    rw [hsame, h.capacity]
  · show LeadsBack s.weights.long.values t.index.evictions.reverse t.below
    rw [hsame]
    exact h.leadsBack
  · show t.index.ltUndo.length + 1 ≤ s.rows.length
    rw [hrows, hstate, length_dropLast, length_accept_rows]
    have hretained := h.retained
    have hbounded := h.bounded
    omega
  · show _ ≤ s.rowRetention
    rw [hkeeps, hstate]
    exact hretention
  · show s.Ascending
    unfold ConsensusState.Ascending
    rw [hrows]
    refine List.Pairwise.sublist (dropLast_sublist _) ?_
    rw [hstate]
    refine h.ascending.accept fun r hr => ?_
    rw [hrow]
    exact h.ascending.lt_next hj hr
  · show ∀ r ∈ s.rows, s.anchorHeight ≤ r.height
    rw [hanchorHeight, hstate]
    intro r hr
    exact h.aboveAnchor r (hsub r hr)

theorem InStep.call (h : InStep t) {c : Call} (hpoppable : Poppable t.index c) :
    InStep (t.call retarget c) := by
  cases c with
  | push block powOk powHash ownMined now =>
    cases hview : t.index.view.connect retarget block powOk now with
    | none => simpa [Traced.call, ChainIndex.call, connectToTip, hview] using h
    | some connected =>
      simpa [Traced.call, ChainIndex.call, connectToTip, hview] using h.follow hview
  | probe block powOk now =>
    cases hview : t.index.view.connect retarget block powOk now with
    | none => simpa [Traced.call, ChainIndex.call, hview] using h
    | some connected =>
      obtain ⟨view', hview', hin⟩ := h.probe hview
      simpa [Traced.call, ChainIndex.call, hview, hview'] using hin
  | pop =>
    obtain ⟨view, -, hview, -⟩ := h.disconnectTip hpoppable
    simpa [Traced.call, ChainIndex.call, hview] using h.unfollow hpoppable hview
  | unpush =>
    obtain ⟨view, -, hview, -⟩ := h.disconnectTip hpoppable
    simpa [Traced.call, ChainIndex.call, hview] using h.unfollow hpoppable hview

/-! ## One operation -/

def branchFits (retarget : Retarget) (x : ChainIndex) (w : Switch) (forkHeight : U64) :
    Nat × Bool :=
  (applyBranch retarget w.applyClock w.branch
    (unwind w.bodies forkHeight (x.depthAbove forkHeight) x []).1 0).2

/-- The mirror's undo list reaches far enough for the operation: it covers the blocks that are
disconnected and, where a branch breaks off, the blocks of it that went in before. -/
def Reaches (retarget : Retarget) (x : ChainIndex) : Op → Prop
  | .connect _ _ _ _ _ => True
  | .switch w => ∀ forkHeight, x.judgeSwitch w = some forkHeight →
      x.depthAbove forkHeight ≤ x.ltUndo.length ∧
        ((branchFits retarget x w forkHeight).2 = true ∨
          (branchFits retarget x w forkHeight).1 ≤ x.opts.snapshotDepth + 8)
  | .abandon baseHeight => ∀ forkHeight, x.judgeAbandon baseHeight = some forkHeight →
      x.depthAbove forkHeight ≤ x.ltUndo.length

theorem length_popLongMirror (x : ChainIndex) :
    x.ltUndo.length - 1 ≤ x.popLongMirror.ltUndo.length := by
  unfold popLongMirror
  split
  · exact Nat.sub_le _ _
  split
  · exact Nat.sub_le _ _
  · rw [length_dropLast]

theorem length_unfollow (x : ChainIndex) (view : ChainStateView) :
    x.ltUndo.length - 1 ≤ (x.unfollow view).ltUndo.length :=
  length_popLongMirror { x with view := view, rows := x.rows.pop }

@[simp] theorem popLongMirror_opts (x : ChainIndex) : x.popLongMirror.opts = x.opts := by
  unfold popLongMirror
  split
  · rfl
  · split <;> rfl

theorem unwindCalls_poppable (forkHeight : U64) (n : Nat) (hn : n ≤ x.ltUndo.length) :
    Admissible (ChainIndex.call retarget) Poppable x (unwindCalls forkHeight n x) := by
  induction n generalizing x with
  | zero => trivial
  | succ n ih =>
    unfold unwindCalls
    split
    · trivial
    split
    · trivial
    next view hview =>
    have hcall : ChainIndex.call retarget x .pop = x.unfollow view := by
      simp [ChainIndex.call, hview]
    refine ⟨length_pos_iff.mp (by omega), ?_⟩
    rw [hcall]
    apply ih
    exact (by omega : n ≤ x.ltUndo.length - 1).trans (length_unfollow x _)

theorem applyCalls_poppable (clock : Nat → U64) (branch : List AltBlock) (x : ChainIndex)
    (applied : Nat) :
    Admissible (ChainIndex.call retarget) Poppable x
      (applyCalls retarget clock branch x applied) := by
  induction branch generalizing x applied with
  | nil => trivial
  | cons b branch ih =>
    cases hblock : b.block with
    | none => simp only [applyCalls, hblock, Admissible]
    | some block =>
      cases hview : x.view.connect retarget block b.powVerified (clock applied) with
      | none => simp only [applyCalls, hblock, hview, Admissible]
      | some connected =>
        obtain ⟨row, view⟩ := connected
        simp only [applyCalls, hblock, hview]
        split
        · exact ⟨trivial, trivial⟩
        refine ⟨trivial, ?_⟩
        rw [call_push hview]
        exact ih _ _

theorem applyBranch_length (clock : Nat → U64) (branch : List AltBlock) {applied bound : Nat}
    (hbound : x.opts.snapshotDepth + 8 = bound) (h : min bound applied ≤ x.ltUndo.length) :
    min bound (applyBranch retarget clock branch x applied).2.1 ≤
      (applyBranch retarget clock branch x applied).1.ltUndo.length := by
  induction branch generalizing x applied with
  | nil => exact h
  | cons b branch ih =>
    cases hblock : b.block with
    | none => simpa only [applyBranch, hblock] using h
    | some block =>
      cases hview : x.view.connect retarget block b.powVerified (clock applied) with
      | none => simpa only [applyBranch, hblock, hview] using h
      | some connected =>
        simp only [applyBranch, hblock, hview]
        split
        · exact h
        refine ih hbound ?_
        show min bound (applied + 1) ≤
          (SlidingWindow.newest (x.opts.snapshotDepth + 8) (x.ltUndo ++ [_])).length
        rw [SlidingWindow.newest, length_drop, length_append, length_singleton]
        omega

theorem unpush_poppable (n : Nat) (hn : n ≤ x.ltUndo.length) :
    Admissible (ChainIndex.call retarget) Poppable x (List.replicate n .unpush) := by
  induction n generalizing x with
  | zero => trivial
  | succ n ih =>
    refine ⟨length_pos_iff.mp (by omega), ih ?_⟩
    exact (by omega : n ≤ x.ltUndo.length - 1).trans (length_unfollow x _)

theorem reapplyCalls_poppable (clock : Nat → U64)
    (unwound : List (RowRecord × Option BlockConnectInput)) (x : ChainIndex) (n : Nat) :
    Admissible (ChainIndex.call retarget) Poppable x
      (reapplyCalls retarget clock unwound x n) := by
  induction unwound generalizing x n with
  | nil => trivial
  | cons head rest ih =>
    obtain ⟨rr, body⟩ := head
    cases body with
    | none => trivial
    | some block =>
      cases hview : x.view.connect retarget block rr.row.powVerified (clock n) with
      | none => simp only [reapplyCalls, hview, Admissible]
      | some connected =>
        obtain ⟨row, view⟩ := connected
        simp only [reapplyCalls, hview]
        refine ⟨trivial, ?_⟩
        rw [call_push hview]
        exact ih _ _

theorem unwind_opts (bodies : Hash → Option BlockConnectInput) (forkHeight : U64) (n : Nat)
    (x : ChainIndex) (unwound : List (RowRecord × Option BlockConnectInput)) :
    (unwind bodies forkHeight n x unwound).1.opts = x.opts := by
  induction n generalizing x unwound with
  | zero => rfl
  | succ n ih =>
    unfold unwind
    split
    · rfl
    split
    · rfl
    · rw [ih]
      exact popLongMirror_opts _

theorem opCalls_poppable {op : Op} (h : Reaches retarget x op) :
    Admissible (ChainIndex.call retarget) Poppable x (opCalls retarget x op) := by
  cases op with
  | connect block powOk powHash ownMined now => exact ⟨trivial, trivial⟩
  | abandon baseHeight =>
    simp only [opCalls]
    split
    · trivial
    next forkHeight hjudged => exact unwindCalls_poppable _ _ (h forkHeight hjudged)
  | switch w =>
    simp only [opCalls]
    split
    · trivial
    next forkHeight hjudged =>
    obtain ⟨hdepth, hbranch⟩ := h forkHeight hjudged
    refine admissible_append.mpr ⟨unwindCalls_poppable _ _ hdepth, ?_⟩
    rw [run_unwindCalls w.bodies _ _ _ []]
    refine admissible_append.mpr ⟨applyCalls_poppable _ _ _ _, ?_⟩
    rw [run_applyCalls]
    split
    · trivial
    next hfails =>
    have hcount : (branchFits retarget x w forkHeight).1 ≤ x.opts.snapshotDepth + 8 :=
      hbranch.resolve_left hfails
    have hlength : (branchFits retarget x w forkHeight).1 ≤ _ :=
      (le_min hcount le_rfl).trans (applyBranch_length w.applyClock w.branch
        (by rw [unwind_opts]) (by simp))
    refine admissible_append.mpr ⟨unpush_poppable _ hlength, ?_⟩
    rw [run_unpush]
    exact reapplyCalls_poppable _ _ _ _

theorem runCalls_poppable {ops : List Op}
    (h : Admissible (step retarget) (Reaches retarget) x ops) :
    Admissible (ChainIndex.call retarget) Poppable x (runCalls retarget x ops) := by
  induction ops generalizing x with
  | nil => trivial
  | cons op ops ih =>
    refine admissible_append.mpr ⟨opCalls_poppable h.1, ?_⟩
    rw [run_opCalls]
    exact ih h.2

theorem InStep.run (h : InStep t) {calls : List Call}
    (hcalls : Admissible (ChainIndex.call retarget) Poppable t.index calls) :
    InStep (run (Traced.call retarget) t calls) := by
  induction calls generalizing t with
  | nil => exact h
  | cons c calls ih => exact ih (h.call hcalls.1) hcalls.2

theorem slide_of_room {cap : Nat} (h : w.length < cap) (v : U64) :
    (SlidingWindow.slide cap w v).1 = w ++ [v] := by
  unfold SlidingWindow.slide
  cases w with
  | nil => rfl
  | cons oldest rest =>
    dsimp only
    rw [if_neg (fun hover => absurd hover.2 (by omega))]

theorem seed_values (w : MedianWindow) {vs : List U64} (h : vs.length ≤ w.cap) :
    (w.seed vs).values = vs ∧ (w.seed vs).cap = w.cap := by
  induction vs using List.reverseRecOn with
  | nil => exact ⟨rfl, rfl⟩
  | append_singleton vs v ih =>
    rw [length_append, length_singleton] at h
    obtain ⟨hvalues, hcap⟩ := ih (by omega)
    have hseed : w.seed (vs ++ [v]) = ((w.seed vs).push v).1 := by
      simp [MedianWindow.seed]
    rw [hseed, MedianWindow.push_values, MedianWindow.push_cap, hvalues, hcap]
    exact ⟨slide_of_room (by omega) v, rfl⟩

inductive Booted (opts : ChainIndexOptions) (longTermWeights : List U64) : ChainIndex → Prop where
  | fromAnchor (b : AnchorBundle) (checkpoints timestamps60 : List U64) :
      Booted opts longTermWeights
        (bootFromAnchor opts { b with longTermWeights := longTermWeights } checkpoints timestamps60)
  | direct (tip : ChainRow) (difficultyWindow : List DifficultyRow)
      (shortTermWeights timestamps60 : List U64) :
      Booted opts longTermWeights
        (seedDirect opts tip difficultyWindow shortTermWeights longTermWeights timestamps60)

theorem InStep.of_booted {opts : ChainIndexOptions} {longTermWeights : List U64}
    (h : Booted opts longTermWeights x) (hseed : longTermWeights.length ≤ 100000)
    (hopts : opts.snapshotDepth + 10 ≤ opts.rowRetention) : InStep ⟨x, []⟩ := by
  obtain ⟨hvalues, hcap⟩ := seed_values (MedianWindow.ofCapacity 100000) hseed
  cases h with
  | fromAnchor | direct =>
    refine ⟨hvalues.symm, hcap, suffix_rfl, Nat.zero_le _, trivial, le_rfl, hopts, ?_, ?_⟩
    · exact pairwise_singleton _ _
    intro r hr
    rw [mem_singleton.mp hr]
    exact le_rfl

def traced (retarget : Retarget) (x : ChainIndex) (ops : List Op) : Traced :=
  run (Traced.call retarget) ⟨x, []⟩ (runCalls retarget x ops)

/-- The mirror stays in lock-step: in every run of connects, switches and abandonments that the
undo list reaches far enough for, after every operation it is the state's own long-term window, and
every window it tells is the one the state had that many blocks below the tip. -/
theorem run_mirror_inStep (net : XmrNet) (tie : TieBreak) (requirePow : Bool)
    {longTermWeights : List U64} (hseed : longTermWeights.length ≤ 100000) {x : ChainIndex}
    (hbooted : Booted { net, tie, requirePow } longTermWeights x) {ops : List Op}
    (hops : Admissible (step retarget) (Reaches retarget) x ops) :
    ∀ pre, pre <+: ops →
      (traced retarget x pre).index = run (step retarget) x pre ∧
      (run (step retarget) x pre).ltMirror = (run (step retarget) x pre).longWindow ∧
      ∀ d out, (run (step retarget) x pre).longWindowAtDepth d = some out →
        ((run (step retarget) x pre).longWindow :: (traced retarget x pre).below)[d]? =
          some out := by
  rintro pre ⟨rest, rfl⟩
  have hindex : (traced retarget x pre).index = run (step retarget) x pre := by
    rw [traced, Traced.run_call_index, run_runCalls]
  have hin : InStep (traced retarget x pre) :=
    (InStep.of_booted hbooted hseed (by show 74 ≤ 2048; decide)).run
      (runCalls_poppable (admissible_append.mp hops).1)
  refine ⟨hindex, ?_, ?_⟩
  · rw [← hindex]
    exact hin.mirror
  rw [← hindex]
  intro d out hout
  exact hin.longWindowAtDepth hout

def mining : Nat → ChainIndex → List Op
  | 0, _ => []
  | n + 1, x =>
    .connect x.view.state.ownBlock true 0 true 0 ::
      mining n (x.step ConsensusState.flatRetarget
        (.connect x.view.state.ownBlock true 0 true 0))

def bootedAtHundred : ChainIndex := bootFromAnchor { net := .regtest } hundredAnchor [] []

/-- Two own blocks, of which the second is abandoned. -/
def minedTwice : List Op := mining 2 bootedAtHundred ++ [.abandon 102]

theorem run_mirror_minedTwice :
    Booted { net := .regtest } [] bootedAtHundred ∧
      (run (step ConsensusState.flatRetarget) bootedAtHundred minedTwice).view.state.height = 101 ∧
      ∀ pre, pre <+: minedTwice →
        (run (step ConsensusState.flatRetarget) bootedAtHundred pre).ltMirror =
          (run (step ConsensusState.flatRetarget) bootedAtHundred pre).longWindow := by
  have hbooted : Booted { net := .regtest } [] bootedAtHundred :=
    Booted.fromAnchor hundredAnchor [] []
  have hfork : (run (step ConsensusState.flatRetarget) bootedAtHundred
      (mining 2 bootedAtHundred)).judgeAbandon 102 = some 101 := by decide +kernel
  have hreach : Reaches ConsensusState.flatRetarget
      (run (step ConsensusState.flatRetarget) bootedAtHundred (mining 2 bootedAtHundred))
      (.abandon 102) := by
    intro h hh
    rw [hfork] at hh
    cases hh
    decide +kernel
  have hops : Admissible (step ConsensusState.flatRetarget) (Reaches ConsensusState.flatRetarget)
      bootedAtHundred minedTwice :=
    admissible_append.mpr ⟨⟨trivial, trivial, trivial⟩, hreach, trivial⟩
  refine ⟨hbooted, by decide +kernel, fun pre hpre => ?_⟩
  exact (run_mirror_inStep .regtest .preferOwn true (by decide) hbooted hops pre hpre).2.1

/-- 73 own blocks, abandoned in one operation: the undo list runs out after 72 of them. -/
theorem mirror_ahead_after_deep_abandonment :
    let x := run (step ConsensusState.flatRetarget) bootedAtHundred (mining 73 bootedAtHundred)
    x.view.state.height = 173 ∧ (x.judgeAbandon 101).isSome ∧
      (x.step ConsensusState.flatRetarget (.abandon 101)).ltMirror ≠
        (x.step ConsensusState.flatRetarget (.abandon 101)).longWindow := by
  decide +kernel

end C2Pool.Xmr.ChainIndex
