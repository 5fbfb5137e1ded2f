import C2Pool.Xmr.ChainCalls
import C2Pool.Xmr.Rollback

/-! # The verified frontier

The frontier is the number a settlement driver refuses to finalize past. `connect` raises it to a
block whose proof of work was checked, whatever lies below; `disconnect` takes it back to the
highest checked row that is retained. Both are sound as long as a checked block finds only checked
rows below it.
-/

namespace C2Pool.Xmr

open List Run SortedMap SlidingWindow ConsensusState

variable {block : BlockConnectInput} {undo : ConnectUndo} {now : U64} {c : Call} {id : Hash}

namespace ConsensusState

variable (retarget : Retarget) {s : ConsensusState} {fuse : HfFuse} {row : ChainRow}
  {t : ConsensusState}

inductive Call where
  | connect (block : BlockConnectInput) (now : U64)
  | disconnect (undo : ConnectUndo)

def call (s : ConsensusState) : Call → ConsensusState
  | .connect block now => (s.connect retarget block now).state
  | .disconnect undo => (s.disconnect undo).getD s

def FrontierSound (s : ConsensusState) : Prop :=
  ∀ r ∈ s.rows, s.anchorHeight < r.height → r.height ≤ s.verifiedFrontier → r.powVerified

/-- What a call has to meet.  An accepted block with a checked proof of work finds the rows that
stay with it checked; an accepted block without one is not connected under the frontier. -/
def Covered (s : ConsensusState) : Call → Prop
  | .connect block now =>
    (s.connect retarget block now).status = .ok → s.rowRetention ≠ 0 →
      if block.powVerified then
        ∀ r ∈ SlidingWindow.newest (s.rowRetention - 1) s.rows, s.anchorHeight < r.height →
          r.powVerified
      else s.height + 1 ≤ s.anchorHeight ∨ s.verifiedFrontier < s.height + 1
  | .disconnect _ => True

/-- The rows stand in the order of their heights. -/
def Ascending (s : ConsensusState) : Prop :=
  s.rows.Pairwise fun a b => a.height < b.height

/-- The rows below a checked row are checked. -/
def PrefixVerified (s : ConsensusState) : Prop :=
  ∀ r ∈ s.rows, r.powVerified → ∀ q ∈ s.rows, s.anchorHeight < q.height → q.height ≤ r.height →
    q.powVerified

/-- What a sound run keeps. -/
structure FrontierInv (s : ConsensusState) : Prop where
  ascending : Ascending s
  prefixVerified : PrefixVerified s
  sound : FrontierSound s

variable {retarget}

theorem height_lt_succ {a h : U64} (hlt : a < h + 1) : h < h + 1 := by
  have hne : h + 1 ≠ 0 := (Fin.pos_iff_ne_zero.mp ((Fin.zero_le a).trans_lt hlt))
  have hlast : h ≠ Fin.last (2 ^ 64 - 1) := by
    intro heq
    exact hne (by rw [heq]; rfl)
  exact Fin.lt_add_one_iff.mpr (Fin.lt_last_iff_ne_last.mpr hlast)

theorem Ascending.lt_next (h : Ascending s) {j : Judged}
    (hj : s.judge block now = .ok j) {r : ChainRow} (hr : r ∈ s.rows) :
    r.height < s.height + 1 := by
  have hne : s.rows ≠ [] := ne_nil_of_mem hr
  have hnext := height_lt_succ (judge_height hj hne)
  obtain ⟨init, last, hrows⟩ := (eq_nil_or_concat s.rows).resolve_left hne
  rw [concat_eq_append] at hrows
  have hheight : s.height = last.height := by simp [height, tip, hrows]
  unfold Ascending at h
  rw [hrows] at h hr
  rcases mem_append.mp hr with hinit | hlast
  · have hbelow : r.height < last.height :=
      (pairwise_append.mp h).2.2 r hinit last (by simp)
    exact lt_trans (hheight ▸ hbelow) hnext
  · rw [mem_singleton.mp hlast, ← hheight]
    exact hnext

theorem mem_accept_rows {q : ChainRow} (hretention : s.rowRetention ≠ 0) :
    q ∈ (s.accept fuse row).rows ↔
      q ∈ SlidingWindow.newest (s.rowRetention - 1) s.rows ∨ q = row := by
  have hsucc : s.rowRetention = s.rowRetention - 1 + 1 := by omega
  show q ∈ SlidingWindow.newest s.rowRetention (s.rows ++ [row]) ↔ _
  rw [hsucc, newest_concat]
  simp

theorem accept_rows_of_zero (hretention : s.rowRetention = 0) : (s.accept fuse row).rows = [] := by
  show SlidingWindow.newest s.rowRetention (s.rows ++ [row]) = []
  rw [hretention]
  simp [SlidingWindow.newest]

theorem accept_frontier (s : ConsensusState) (fuse : HfFuse) (row : ChainRow) :
    (s.accept fuse row).verifiedFrontier =
      if row.powVerified ∧ s.verifiedFrontier < row.height then row.height
      else s.verifiedFrontier := rfl

theorem Ascending.accept (h : Ascending s)
    (hnext : ∀ r ∈ s.rows, r.height < row.height) : Ascending (s.accept fuse row) := by
  have happend : (s.rows ++ [row]).Pairwise fun a b => a.height < b.height := by
    refine pairwise_append.mpr ⟨h, by simp, ?_⟩
    intro a ha b hb
    rw [mem_singleton.mp hb]
    exact hnext a ha
  exact happend.sublist (drop_sublist _ _)

theorem FrontierInv.accept (h : FrontierInv s) (hnext : ∀ r ∈ s.rows, r.height < row.height)
    (hcovered : s.rowRetention ≠ 0 →
      if row.powVerified then
        ∀ r ∈ SlidingWindow.newest (s.rowRetention - 1) s.rows, s.anchorHeight < r.height →
          r.powVerified
      else row.height ≤ s.anchorHeight ∨ s.verifiedFrontier < row.height) :
    FrontierInv (s.accept fuse row) := by
  refine ⟨h.ascending.accept hnext, ?_, ?_⟩
  · intro r hr hverified q hq hanchor hle
    by_cases hretention : s.rowRetention = 0
    · rw [accept_rows_of_zero hretention] at hr
      cases hr
    have hcovered := hcovered hretention
    rw [mem_accept_rows hretention] at hr hq
    rcases hr with hr | rfl
    · rcases hq with hq | rfl
      · exact h.prefixVerified r (mem_of_mem_newest hr) hverified q
          (mem_of_mem_newest hq) hanchor hle
      · exact absurd (hnext r (mem_of_mem_newest hr)) (not_lt.mpr hle)
    rw [if_pos hverified] at hcovered
    rcases hq with hq | rfl
    · exact hcovered q hq hanchor
    · exact hverified
  intro q hq hanchor hle
  by_cases hretention : s.rowRetention = 0
  · rw [accept_rows_of_zero hretention] at hq
    cases hq
  have hcovered := hcovered hretention
  rw [mem_accept_rows hretention] at hq
  rw [accept_frontier] at hle
  by_cases hverified : row.powVerified
  · rw [if_pos hverified] at hcovered
    rcases hq with hq | rfl
    · exact hcovered q hq hanchor
    · exact hverified
  rw [if_neg hverified] at hcovered
  rw [if_neg (fun hraised => hverified hraised.1)] at hle
  rcases hq with hq | rfl
  · exact h.sound q (mem_of_mem_newest hq) hanchor hle
  rcases hcovered with hbelow | habove
  · exact absurd hanchor (not_lt.mpr hbelow)
  · exact absurd habove (not_lt.mpr hle)

theorem highestVerified_cases (anchorHeight : U64) (rows : List ChainRow) :
    highestVerified anchorHeight rows = anchorHeight ∨
      ∃ r ∈ rows, r.powVerified ∧ highestVerified anchorHeight rows = r.height := by
  unfold highestVerified
  cases hfound : rows.reverse.find? (·.powVerified) with
  | none => exact Or.inl rfl
  | some r =>
    refine Or.inr ⟨r, ?_, ?_, rfl⟩
    · exact mem_reverse.mp (mem_of_find?_eq_some hfound)
    · simpa using find?_some hfound

/-- What `disconnect` leaves of the rows and the frontier. -/
theorem disconnect_frontier (h : s.disconnect undo = some t) :
    t.rows = s.rows.dropLast ∧ t.anchorHeight = s.anchorHeight ∧
      (t.verifiedFrontier = s.verifiedFrontier ∨
        t.verifiedFrontier = highestVerified s.anchorHeight s.rows.dropLast) := by
  unfold disconnect at h
  split at h
  · cases h
  split at h
  · cases h
  cases h
  refine ⟨rfl, rfl, ?_⟩
  split
  · exact Or.inl rfl
  split
  · exact Or.inr rfl
  · exact Or.inl rfl

/-- What a disconnect leaves below the frontier was below it, or below a row that is verified. -/
theorem le_frontier_of_disconnect (ht : s.disconnect undo = some t) {height : U64}
    (hanchor : s.anchorHeight < height) (hle : height ≤ t.verifiedFrontier) :
    height ≤ s.verifiedFrontier ∨ ∃ r ∈ s.rows, r.powVerified ∧ height ≤ r.height := by
  obtain ⟨-, -, hsame | hback⟩ := disconnect_frontier ht
  · rw [hsame] at hle
    exact Or.inl hle
  rw [hback] at hle
  rcases highestVerified_cases s.anchorHeight s.rows.dropLast with hnone | ⟨r, hr, hverified, heq⟩
  · rw [hnone] at hle
    exact absurd hanchor (not_lt.mpr hle)
  · rw [heq] at hle
    exact Or.inr ⟨r, dropLast_subset _ hr, hverified, hle⟩

theorem FrontierInv.disconnect (h : FrontierInv s) (ht : s.disconnect undo = some t) :
    FrontierInv t := by
  obtain ⟨hrows, hanchorHeight, -⟩ := disconnect_frontier ht
  have hmem : ∀ q ∈ t.rows, q ∈ s.rows := by
    intro q hq
    rw [hrows] at hq
    exact dropLast_subset _ hq
  refine ⟨?_, ?_, ?_⟩
  · unfold Ascending
    rw [hrows]
    exact h.ascending.sublist (dropLast_sublist _)
  · intro r hr hverified q hq hanchor hle
    rw [hanchorHeight] at hanchor
    exact h.prefixVerified r (hmem r hr) hverified q (hmem q hq) hanchor hle
  · intro q hq hanchor hle
    rw [hanchorHeight] at hanchor
    rcases le_frontier_of_disconnect ht hanchor hle with hsame | ⟨r, hr, hverified, hbelow⟩
    · exact h.sound q (hmem q hq) hanchor hsame
    · exact h.prefixVerified r hr hverified q (hmem q hq) hanchor hbelow

theorem FrontierInv.call (h : FrontierInv s) (hcovered : Covered retarget s c) :
    FrontierInv (s.call retarget c) := by
  cases c with
  | connect block now =>
    unfold ConsensusState.call
    dsimp only
    rcases connect_cases retarget s block now with ⟨-, hsame, -⟩ | ⟨hok, j, hj, hstate, -⟩
    · rw [hsame]
      exact h
    · rw [hstate]
      exact h.accept (fun r hr => h.ascending.lt_next hj hr) (hcovered hok)
  | disconnect undo =>
    unfold ConsensusState.call
    dsimp only
    cases ht : s.disconnect undo with
    | none => exact h
    | some t => exact h.disconnect ht

theorem FrontierInv.covered (h : FrontierInv s)
    (hsound : FrontierSound (s.call retarget c)) : Covered retarget s c := by
  cases c with
  | disconnect undo => trivial
  | connect block now =>
    intro hok hretention
    unfold ConsensusState.call at hsound
    dsimp only at hsound
    rcases connect_cases retarget s block now with ⟨hrefused, -⟩ | ⟨-, j, hj, hstate, -⟩
    · exact absurd hok hrefused
    rw [hstate] at hsound
    have hrow : ∀ q, q ∈ (s.accept j.fuse (s.rowOf retarget block j)).rows ↔ _ :=
      fun q => mem_accept_rows hretention
    by_cases hverified : block.powVerified
    · rw [if_pos hverified]
      intro r hr hanchor
      refine hsound r ((hrow r).mpr (Or.inl hr)) hanchor ?_
      have hbelow : r.height < (s.rowOf retarget block j).height :=
        h.ascending.lt_next hj (mem_of_mem_newest hr)
      rw [accept_frontier]
      split
      · exact hbelow.le
      next hkept =>
        have hraised : ¬ s.verifiedFrontier < (s.rowOf retarget block j).height := by
          intro hlt
          exact hkept ⟨hverified, hlt⟩
        exact hbelow.le.trans (not_lt.mp hraised)
    rw [if_neg hverified]
    by_contra hnot
    push Not at hnot
    apply hverified
    refine hsound _ ((hrow _).mpr (Or.inr rfl)) hnot.1 ?_
    rw [accept_frontier, if_neg (fun hraised => hverified hraised.1)]
    exact hnot.2

theorem FrontierInv.seedFromAnchor (s : ConsensusState) (b : AnchorBundle)
    (timestamps60 : List U64) : FrontierInv (s.seedFromAnchor b timestamps60) := by
  refine ⟨?_, ?_, ?_⟩
  · simp [Ascending, ConsensusState.seedFromAnchor]
  · simp [PrefixVerified, ConsensusState.seedFromAnchor]
  · simp [FrontierSound, ConsensusState.seedFromAnchor]

end ConsensusState

/-! ## Burial -/

namespace RowStore

def Indexed (r : RowStore) : Prop :=
  ∀ id h, r.byId.lookup id = some h → ∃ rec ∈ r.rows, rec.row.id = id ∧ rec.row.height = h

theorem lookup_foldl_erase {dropped : List RowRecord} {m : SortedMap Hash U64} {h : U64}
    (hfound : (dropped.foldl (fun m rec => m.erase rec.row.id) m).lookup id = some h) :
    m.lookup id = some h ∧ ∀ rec ∈ dropped, rec.row.id ≠ id := by
  induction dropped generalizing m with
  | nil => exact ⟨hfound, by simp⟩
  | cons rec dropped ih =>
    obtain ⟨herased, hrest⟩ := ih hfound
    rw [lookup_erase] at herased
    split at herased
    · cases herased
    next hne =>
    refine ⟨herased, ?_⟩
    intro q hq
    rcases mem_cons.mp hq with rfl | hq
    · exact Ne.symm hne
    · exact hrest q hq

variable {r : RowStore} {rec : RowRecord}

theorem Indexed.trim (h : Indexed r) : Indexed r.trim := by
  intro id height hfound
  obtain ⟨hheld, hkept⟩ := lookup_foldl_erase hfound
  obtain ⟨rec, hrec, hid, hheight⟩ := h id height hheld
  refine ⟨rec, ?_, hid, hheight⟩
  rw [← take_append_drop (r.rows.length - r.retention) r.rows] at hrec
  rcases mem_append.mp hrec with hdropped | hstays
  · exact absurd hid (hkept rec hdropped)
  · exact hstays

theorem Indexed.push (h : Indexed r) (row : ChainRow) (ownMined : Bool)
    (powHash : Hash) : Indexed (r.push row ownMined powHash) := by
  unfold RowStore.push
  split
  · exact h
  apply Indexed.trim
  intro id height hfound
  rw [lookup_insert] at hfound
  split at hfound
  next hid =>
    cases hfound
    exact ⟨{ row, ownMined, powHash }, by simp, hid.symm, rfl⟩
  next hid =>
    obtain ⟨rec, hrec, hrest⟩ := h id height hfound
    exact ⟨rec, mem_append_left _ hrec, hrest⟩

theorem Indexed.pop (h : Indexed r) : Indexed r.pop := by
  unfold RowStore.pop
  split
  · exact h
  next out hout =>
  intro id height hfound
  rw [lookup_erase] at hfound
  split at hfound
  · cases hfound
  next hne =>
  obtain ⟨rec, hrec, hid, hheight⟩ := h id height hfound
  refine ⟨rec, ?_, hid, hheight⟩
  rw [← dropLast_append_getLast? out hout] at hrec
  rcases mem_append.mp hrec with hstays | hlast
  · exact hstays
  · rw [mem_singleton.mp hlast] at hid
    exact absurd hid.symm hne

theorem mem_of_mem_push {row : ChainRow} {ownMined : Bool} {powHash : Hash}
    (h : rec ∈ (r.push row ownMined powHash).rows) : rec ∈ r.rows ∨ rec.row = row := by
  unfold RowStore.push at h
  split at h
  · exact Or.inl h
  have happend := mem_of_mem_newest h
  rcases mem_append.mp happend with hold | hnew
  · exact Or.inl hold
  · rw [mem_singleton.mp hnew]
    exact Or.inr rfl

theorem mem_of_mem_pop {r : RowStore} (h : rec ∈ r.pop.rows) : rec ∈ r.rows := by
  unfold RowStore.pop at h
  split at h
  · exact h
  · exact dropLast_subset _ h

end RowStore

namespace ChainIndex

variable {retarget : Retarget} {held held' : List RowRecord} {row : ChainRow}
  {v view : ChainStateView} {x : ChainIndex} {s : ConsensusState} {powOk : Bool}

/-- What a connect of the index has to meet: the condition on the state, over the rows of the
store. -/
def Covers (retarget : Retarget) (x : ChainIndex) (block : BlockConnectInput) (powOk : Bool)
    (now : U64) : Prop :=
  (x.view.connect retarget block powOk now).isSome →
    if powOk then
      ∀ rec ∈ x.rows.rows, x.view.state.anchorHeight < rec.row.height → rec.row.powVerified
    else x.view.state.height + 1 ≤ x.view.state.anchorHeight ∨
      x.view.state.verifiedFrontier < x.view.state.height + 1

def Covered (retarget : Retarget) (x : ChainIndex) : Call → Prop
  | .push block powOk _ _ now => x.Covers retarget block powOk now
  | .probe block powOk now => x.Covers retarget block powOk now
  | .pop => True
  | .unpush => True

/-- The store reads soundly against the state: neither the frontier nor a checked row of the state
stands above an unchecked row of the store. -/
structure Sound (s : ConsensusState) (held : List RowRecord) : Prop where
  ascending : s.Ascending
  prefixVerified : ∀ r ∈ s.rows, r.powVerified → ∀ rec ∈ held, s.anchorHeight < rec.row.height →
    rec.row.height ≤ r.height → rec.row.powVerified
  frontier : ∀ rec ∈ held, s.anchorHeight < rec.row.height →
    rec.row.height ≤ s.verifiedFrontier → rec.row.powVerified

theorem Sound.mono (h : Sound s held) (hsub : ∀ rec ∈ held', rec ∈ held) : Sound s held' :=
  ⟨h.ascending, fun r hr hv rec hrec => h.prefixVerified r hr hv rec (hsub rec hrec),
    fun rec hrec => h.frontier rec (hsub rec hrec)⟩

theorem Sound.accept (h : Sound s held) {fuse : HfFuse}
    (hnext : ∀ r ∈ s.rows, r.height < row.height) (hcovered : if row.powVerified then
        ∀ rec ∈ held, s.anchorHeight < rec.row.height → rec.row.powVerified
      else row.height ≤ s.anchorHeight ∨ s.verifiedFrontier < row.height)
    (hheld : ∀ rec ∈ held', rec ∈ held ∨ rec.row = row) : Sound (s.accept fuse row) held' := by
  have hmem : ∀ r ∈ (s.accept fuse row).rows, r ∈ s.rows ∨ r = row := by
    intro r hr
    simpa using mem_of_mem_newest hr
  by_cases hverified : row.powVerified
  · -- Every row of the store is checked.
    rw [if_pos hverified] at hcovered
    have hall : ∀ rec ∈ held', s.anchorHeight < rec.row.height → rec.row.powVerified := by
      intro rec hrec hanchor
      rcases hheld rec hrec with hold | hnew
      · exact hcovered rec hold hanchor
      · rw [hnew]
        exact hverified
    exact ⟨h.ascending.accept hnext, fun _ _ _ rec hrec hanchor _ => hall rec hrec hanchor,
      fun rec hrec hanchor _ => hall rec hrec hanchor⟩
  rw [if_neg hverified] at hcovered
  refine ⟨h.ascending.accept hnext, ?_, ?_⟩
  · intro r hr hrv rec hrec hanchor hle
    rcases hmem r hr with hr | rfl
    · rcases hheld rec hrec with hold | hnew
      · exact h.prefixVerified r hr hrv rec hold hanchor hle
      · rw [hnew] at hle
        exact absurd (hnext r hr) (not_lt.mpr hle)
    · exact absurd hrv hverified
  intro rec hrec hanchor hle
  rw [accept_frontier, if_neg (fun hraised => hverified hraised.1)] at hle
  rcases hheld rec hrec with hold | hnew
  · exact h.frontier rec hold hanchor hle
  rw [hnew] at hanchor hle
  rcases hcovered with hbelow | habove
  · exact absurd hanchor (not_lt.mpr hbelow)
  · exact absurd habove (not_lt.mpr hle)

theorem Sound.disconnect {s t : ConsensusState} (h : Sound s held)
    (ht : s.disconnect undo = some t) : Sound t held := by
  obtain ⟨hrows, hanchorHeight, -⟩ := disconnect_frontier ht
  refine ⟨?_, ?_, ?_⟩
  · unfold ConsensusState.Ascending
    rw [hrows]
    exact h.ascending.sublist (dropLast_sublist _)
  · intro r hr
    rw [hrows] at hr
    rw [hanchorHeight]
    exact h.prefixVerified r (dropLast_subset _ hr)
  · intro rec hrec hanchor hle
    rw [hanchorHeight] at hanchor
    rcases le_frontier_of_disconnect ht hanchor hle with hsame | ⟨r, hr, hverified, hbelow⟩
    · exact h.frontier rec hrec hanchor hsame
    · exact h.prefixVerified r hr hverified rec hrec hanchor hbelow

theorem viewConnect_eq_some (h : v.connect retarget block powOk now = some (row, view)) :
    ∃ j, v.state.judge { block with powVerified := powOk } now = .ok j ∧
      row = v.state.rowOf retarget { block with powVerified := powOk } j ∧
      view.state = v.state.accept j.fuse row ∧ view.undos = v.undos ++ [v.state.undoOf row] := by
  unfold ChainStateView.connect at h
  dsimp only at h
  rcases connect_cases retarget v.state { block with powVerified := powOk } now with
    ⟨-, -, hnone⟩ | ⟨-, j, hj, hstate, hout⟩
  · rw [hnone] at h
    cases h
  rw [hout] at h
  cases h
  exact ⟨j, hj, rfl, hstate, rfl⟩

theorem disconnectTip_eq_some (h : v.disconnectTip = some view) :
    ∃ undo, v.undos.getLast? = some undo ∧ v.state.disconnect undo = some view.state ∧
      view.undos = v.undos.dropLast := by
  unfold ChainStateView.disconnectTip at h
  split at h
  · cases h
  next undo hundo =>
  obtain ⟨s, hs, rfl⟩ := Option.map_eq_some_iff.mp h
  exact ⟨undo, hundo, hs, rfl⟩

theorem Sound.disconnectTip (h : Sound v.state held) :
    Sound (v.disconnectTip.getD v).state held := by
  cases hview : v.disconnectTip with
  | none => exact h
  | some view =>
    obtain ⟨undo, -, hs, -⟩ := disconnectTip_eq_some hview
    exact h.disconnect hs

theorem Sound.viewConnect (h : Sound v.state held)
    (hview : v.connect retarget block powOk now = some (row, view)) (hcovered : if powOk then
        ∀ rec ∈ held, v.state.anchorHeight < rec.row.height → rec.row.powVerified
      else v.state.height + 1 ≤ v.state.anchorHeight ∨
        v.state.verifiedFrontier < v.state.height + 1)
    (hheld : ∀ rec ∈ held', rec ∈ held ∨ rec.row = row) : Sound view.state held' := by
  obtain ⟨j, hj, rfl, hstate, -⟩ := viewConnect_eq_some hview
  rw [hstate]
  exact h.accept (fun r hr => h.ascending.lt_next hj hr) hcovered hheld

@[simp] theorem popLongMirror_view (x : ChainIndex) : x.popLongMirror.view = x.view := by
  unfold popLongMirror
  split
  · rfl
  · split <;> rfl

@[simp] theorem popLongMirror_rows (x : ChainIndex) : x.popLongMirror.rows = x.rows := by
  unfold popLongMirror
  split
  · rfl
  · split <;> rfl

@[simp] theorem unfollow_view (x : ChainIndex) (view : ChainStateView) :
    (x.unfollow view).view = view := by
  simp [unfollow]

@[simp] theorem unfollow_rows (x : ChainIndex) (view : ChainStateView) :
    (x.unfollow view).rows = x.rows.pop := by
  simp [unfollow]

structure BurialInv (x : ChainIndex) : Prop where
  sound : Sound x.view.state x.rows.rows
  indexed : x.rows.Indexed

theorem BurialInv.call (h : BurialInv x)
    (hcovered : Covered retarget x c) : BurialInv (x.call retarget c) := by
  cases c with
  | push block powOk powHash ownMined now =>
    unfold ChainIndex.call connectToTip
    dsimp only
    split
    · exact h
    next row view hview =>
    refine ⟨?_, ?_⟩
    · exact h.sound.viewConnect hview (hcovered (by simp [hview]))
        (fun rec hrec => RowStore.mem_of_mem_push hrec)
    · exact h.indexed.push row ownMined powHash
  | probe block powOk now =>
    unfold ChainIndex.call
    dsimp only
    split
    · exact h
    next row view hview =>
    refine ⟨?_, h.indexed⟩
    have hconnected : Sound view.state x.rows.rows :=
      h.sound.viewConnect hview (hcovered (by simp [hview])) (fun rec hrec => Or.inl hrec)
    exact hconnected.disconnectTip
  | pop =>
    unfold ChainIndex.call
    dsimp only
    split
    · exact h
    next view hview =>
    have hpopped := h.sound.disconnectTip
    rw [hview] at hpopped
    refine ⟨?_, ?_⟩
    · rw [unfollow_view, unfollow_rows]
      exact hpopped.mono fun rec hrec => RowStore.mem_of_mem_pop hrec
    · rw [unfollow_rows]
      exact h.indexed.pop
  | unpush =>
    unfold ChainIndex.call
    refine ⟨?_, ?_⟩
    · rw [unfollow_view, unfollow_rows]
      exact h.sound.disconnectTip.mono fun rec hrec => RowStore.mem_of_mem_pop hrec
    · rw [unfollow_rows]
      exact h.indexed.pop

theorem BurialInv.buried (h : BurialInv x) {held : Hash → Bool}
    {n : U64} (hburied : (x.burial held id n).status = .buried) :
    ∃ rec ∈ x.rows.rows, rec.row.id = id ∧ rec.row.powVerified := by
  unfold burial at hburied
  split at hburied
  · split at hburied <;> cases hburied
  next height hheight =>
  obtain ⟨rec, hrec, hid, rfl⟩ := h.indexed id height hheight
  refine ⟨rec, hrec, hid, ?_⟩
  by_cases hbelow : rec.row.height ≤ x.view.state.anchorHeight
  · simp [hbelow] at hburied
  by_cases hfrontier : x.view.state.verifiedFrontier < rec.row.height
  · simp [hbelow, hfrontier] at hburied
  exact h.sound.frontier rec hrec (not_le.mp hbelow) (not_lt.mp hfrontier)

theorem RowStore.Indexed.ofRetention (n : Nat) : (RowStore.ofRetention n).Indexed := by
  intro id h hfound
  cases hfound

theorem BurialInv.of_tip {tip : ChainRow} {n : Nat}
    (hstate : x.view.state.rows = [tip]) (hanchor : x.view.state.anchorHeight = tip.height)
    (hrows : x.rows = (RowStore.ofRetention n).push tip false 0) : BurialInv x := by
  have hheld : ∀ rec ∈ x.rows.rows, rec.row = tip := by
    intro rec hrec
    rw [hrows] at hrec
    rcases RowStore.mem_of_mem_push hrec with hold | hnew
    · cases hold
    · exact hnew
  have hnone : ∀ rec ∈ x.rows.rows, ¬ x.view.state.anchorHeight < rec.row.height := by
    intro rec hrec
    rw [hheld rec hrec, hanchor]
    exact lt_irrefl _
  refine ⟨⟨?_, ?_, ?_⟩, ?_⟩
  · simp [ConsensusState.Ascending, hstate]
  · intro r _ _ rec hrec habove
    exact absurd habove (hnone rec hrec)
  · intro rec hrec habove
    exact absurd habove (hnone rec hrec)
  · rw [hrows]
    exact (RowStore.Indexed.ofRetention n).push tip false 0

end ChainIndex

/-- The verified frontier never overstates, just as long as every accepted block with a checked
proof of work finds the rows that stay with it checked, and no accepted block without one is
connected under the frontier.  On an index, under the same condition over its row store, a block
is reported buried only when its row is checked. -/
theorem frontierSound_iff_covered (retarget : Retarget) (s : ConsensusState) (b : AnchorBundle)
    (timestamps60 : List U64) :
    (∀ calls : List ConsensusState.Call,
      (∀ pre, pre <+: calls →
        (run (ConsensusState.call retarget) (s.seedFromAnchor b timestamps60) pre).FrontierSound) ↔
      Admissible (ConsensusState.call retarget) (ConsensusState.Covered retarget)
        (s.seedFromAnchor b timestamps60) calls) ∧
    ∀ (opts : ChainIndexOptions) (checkpoints : List U64) (calls : List ChainIndex.Call),
      Admissible (ChainIndex.call retarget) (ChainIndex.Covered retarget)
        (ChainIndex.bootFromAnchor opts b checkpoints timestamps60) calls →
      ∀ pre, pre <+: calls → ∀ (held : Hash → Bool) (id : Hash) (n : U64),
        ((run (ChainIndex.call retarget)
          (ChainIndex.bootFromAnchor opts b checkpoints timestamps60) pre).burial held id
            n).status =
            .buried →
        ∃ rec ∈ (run (ChainIndex.call retarget)
            (ChainIndex.bootFromAnchor opts b checkpoints timestamps60) pre).rows.rows,
          rec.row.id = id ∧ rec.row.powVerified := by
  constructor
  · intro calls
    exact always_iff_admissible (fun _ h => h.sound) (fun _ _ h hc => h.call hc)
      (fun _ _ h hs => h.covered hs) (ConsensusState.FrontierInv.seedFromAnchor s b timestamps60)
  intro opts checkpoints calls hcalls pre hpre held id n hburied
  obtain ⟨rest, rfl⟩ := hpre
  have hboot : ChainIndex.BurialInv
      (ChainIndex.bootFromAnchor opts b checkpoints timestamps60) :=
    ChainIndex.BurialInv.of_tip rfl rfl rfl
  have hrun : ChainIndex.BurialInv (run (ChainIndex.call retarget)
      (ChainIndex.bootFromAnchor opts b checkpoints timestamps60) pre) :=
    run_invariant (fun _ _ h hc => h.call hc) hboot (admissible_append.mp hcalls).1
  exact hrun.buried hburied

instance (s : ConsensusState) : Decidable s.FrontierSound :=
  inferInstanceAs (Decidable (∀ r ∈ s.rows, s.anchorHeight < r.height →
    r.height ≤ s.verifiedFrontier → r.powVerified))

def hundredAnchor : AnchorBundle := { height := 100, id := 100, majorVersion := 16 }

def uncheckedBlock : BlockConnectInput :=
  { majorVersion := 16
    minorVersion := 16
    prevId := 100
    id := 101
    coinbaseHeight := 101
    coinbaseOutputSum := 35184372088831
    bodiesComplete := true }

def checkedBlock : BlockConnectInput :=
  { majorVersion := 16
    minorVersion := 16
    prevId := 101
    id := 102
    coinbaseHeight := 102
    coinbaseOutputSum := 35184304979968
    bodiesComplete := true
    powVerified := true }

/-- The frontier then stands at 102, above the unchecked row at 101. -/
theorem frontier_overstates_unchecked :
    let s := run (ConsensusState.call ConsensusState.flatRetarget)
      (ConsensusState.seedFromAnchor { net := .regtest } hundredAnchor [])
      [.connect uncheckedBlock 0, .connect checkedBlock 0]
    s.verifiedFrontier = 102 ∧ ¬ s.FrontierSound := by
  decide +kernel

instance (retarget : Retarget) (s : ConsensusState) :
    ∀ c, Decidable (ConsensusState.Covered retarget s c)
  | .connect block now => by
      unfold ConsensusState.Covered
      exact inferInstance
  | .disconnect _ => .isTrue trivial

theorem frontierSound_checkedBlock :
    (run (ConsensusState.call ConsensusState.flatRetarget)
        (ConsensusState.seedFromAnchor { net := .regtest } hundredAnchor [])
        [.connect { uncheckedBlock with powVerified := true } 0,
          .connect checkedBlock 0]).FrontierSound ∧
      ∃ rec ∈ (run (ChainIndex.call ConsensusState.flatRetarget)
          (ChainIndex.bootFromAnchor { net := .regtest } hundredAnchor [] [])
          [.push uncheckedBlock true 0 false 0]).rows.rows,
        rec.row.id = 101 ∧ rec.row.powVerified := by
  have hboth := frontierSound_iff_covered ConsensusState.flatRetarget { net := .regtest }
    hundredAnchor []
  constructor
  · refine (hboth.1 [.connect { uncheckedBlock with powVerified := true } 0,
      .connect checkedBlock 0]).mpr ?_ _ (prefix_refl _)
    decide +kernel
  refine hboth.2 { net := .regtest } [] [.push uncheckedBlock true 0 false 0]
    ⟨fun _ => by decide +kernel, trivial⟩ _ (prefix_refl _) (fun _ => false) 101 1 ?_
  decide +kernel

end C2Pool.Xmr
