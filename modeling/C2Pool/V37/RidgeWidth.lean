import C2Pool.V37.RidgeRun

/-! # A change of the width

`nr_set_width` sheds and drops at a clock that stands still.  Its records have no
clock record among them, so that their undo has to keep the scalars by itself.
-/

namespace C2Pool.V37

open List Lane PartialRun UndoLog SortedMap Function

variable {env : Env} {total : Prop} {held : Holding} {l : Nat} {id : Resolver} {e : Nat × Nr.Cell}
  {resolver : Option Resolver} {w : U64} {p : LaneParams} {F : Nat → Prop} {start lane lane' : Lane}

/-! ## Records at a standing clock -/

/-- A record whose undo keeps the scalars at the clock of `start`. -/
def Op.Steady (env : Env) (start : Lane) : Op → Prop
  | .nrShed _ _ _ | .nrShedRecord _ _ | .nrWidth _ _ => True
  | .nrDrop _ _ c | .nrDropRecord _ c => start.scalar env c.binHi = .ok c.G
  | _ => False

/-- A lane with the scalars of the clock of `start`. -/
structure Lane.SteadyAs (env : Env) (lane start : Lane) : Prop where
  scaled : lane.Scaled env
  t : lane.ridge.t = start.ridge.t
  params : lane.params = start.params

/-- Everything recorded since `start` is steady. -/
structure Lane.SteadySince (env : Env) (lane start : Lane) : Prop
    extends lane.SteadyAs env start where
  ops : ∃ ops, lane.journal = ops ++ start.journal ∧ ∀ op ∈ ops, op.Steady env start

theorem Lane.SteadyAs.scalar (h : lane.SteadyAs env start) (hi : Nat) :
    lane.scalar env hi = start.scalar env hi := by
  unfold Lane.scalar
  rw [h.t, h.params]

theorem Lane.SteadySince.step {op : Op} (h : lane.SteadySince env start)
    (hlane' : lane'.SteadyAs env start) (hjournal : lane'.journal = op :: lane.journal)
    (hop : op.Steady env start) : lane'.SteadySince env start := by
  obtain ⟨ops, hops, hall⟩ := h.ops
  refine ⟨hlane', op :: ops, ?_, ?_⟩
  · rw [hjournal, hops]
    rfl
  intro op' hop'
  rcases mem_cons.mp hop' with rfl | hop'
  · exact hop
  · exact hall op' hop'

theorem Lane.SteadyAs.insert (h : lane.SteadyAs env start) (ht : lane'.ridge.t = lane.ridge.t)
    (hparams : lane'.params = lane.params) (hrecord : lane'.ridge.record = lane.ridge.record)
    {i : Nat} {c c₀ : Nr.Cell} (hcells : lane'.ridge.cells =
      Function.update lane.ridge.cells l ((lane.ridge.cells l).insert i c))
    (hc₀ : (lane.ridge.cells l).lookup i = some c₀) (hhi : c.binHi = c₀.binHi) (hg : c.G = c₀.G) :
    lane'.SteadyAs env start := by
  refine ⟨h.scaled.of_cells ht hparams ?_ hrecord, ht.trans h.t, hparams.trans h.params⟩
  intro l' j d hd
  rw [hcells] at hd
  by_cases hl : l' = l
  · subst hl
    rw [update_self, lookup_insert] at hd
    split at hd
    · cases hd
      exact ⟨i, c₀, hc₀, hhi, hg⟩
    · exact ⟨j, d, hd, rfl, rfl⟩
  · rw [update_of_ne hl] at hd
    exact ⟨j, d, hd, rfl, rfl⟩

theorem Lane.SteadySince.nrShedBin {e : Nat × Nr.FineBin} (h : lane.SteadySince env start)
    (hok : lane.nrShedBin env id e = .ok lane') : lane'.SteadySince env start := by
  obtain ⟨l, idx, c₀, -, hc₀, ⟨-, -, rfl⟩ | ⟨-, rfl⟩⟩ := nrShedBin_eq_ok hok
  · exact h.step (h.toSteadyAs.insert rfl rfl rfl rfl hc₀ rfl rfl) rfl trivial
  · exact h.step (h.toSteadyAs.insert rfl rfl rfl rfl hc₀ rfl rfl) rfl trivial

theorem Lane.SteadySince.nrShedRecordCell {floor : Nat} (h : lane.SteadySince env start)
    (he : start.scalar env e.2.binHi = .ok e.2.G)
    (hok : lane.nrShedRecordCell env id floor e = .ok lane') : lane'.SteadySince env start := by
  obtain ⟨-, rfl⟩ | ⟨-, rfl⟩ := nrShedRecordCell_eq_ok hok
  · exact h
  refine h.step ⟨⟨h.scaled.cells, ?_⟩, h.t, h.params⟩ rfl trivial
  intro b c hc
  have hlook : (lane.ridge.record.insert e.1
      { e.2 with carried := e.2.comp, carriedRaw := e.2.rawWork }).lookup b = some c := hc
  rw [lookup_insert] at hlook
  split at hlook
  · cases hlook
    exact (h.toSteadyAs.scalar _).trans he
  · exact h.scaled.record b c hlook

theorem Lane.SteadySince.nrDropCell
    (h : lane.SteadySince env start) (he : start.scalar env e.2.binHi = .ok e.2.G)
    (hok : Lane.nrDropCell l lane e = .ok lane') : lane'.SteadySince env start := by
  obtain ⟨-, rfl⟩ | ⟨-, -, rfl⟩ := nrDropCell_eq_ok hok
  · exact h
  refine h.step ⟨⟨?_, h.scaled.record⟩, h.t, h.params⟩ rfl he
  intro l' i c hc
  have hlook : (Function.update lane.ridge.cells l ((lane.ridge.cells l).erase e.1) l').lookup i =
      some c := hc
  by_cases hl : l' = l
  · subst hl
    rw [update_self, lookup_erase] at hlook
    split at hlook
    · cases hlook
    · exact h.scaled.cells l' i c hlook
  · rw [update_of_ne hl] at hlook
    exact h.scaled.cells l' i c hlook

theorem Lane.SteadySince.nrDropRecordCell
    (h : lane.SteadySince env start) (he : start.scalar env e.2.binHi = .ok e.2.G)
    (hok : Lane.nrDropRecordCell lane e = .ok lane') : lane'.SteadySince env start := by
  obtain ⟨-, rfl⟩ | ⟨-, -, rfl⟩ := nrDropRecordCell_eq_ok hok
  · exact h
  refine h.step ⟨⟨h.scaled.cells, ?_⟩, h.t, h.params⟩ rfl he
  intro b c hc
  have hlook : (lane.ridge.record.erase e.1).lookup b = some c := hc
  rw [lookup_erase] at hlook
  split at hlook
  · cases hlook
  · exact h.scaled.record b c hlook

theorem Lane.SteadyAs.of_mem (h : lane.SteadyAs env start) (he : e ∈ (lane.ridge.cells l).entries) :
    start.scalar env e.2.binHi = .ok e.2.G := by
  rw [← h.scalar]
  exact h.scaled.cells l e.1 e.2 (mem_entries_iff.mp he)

theorem Lane.SteadyAs.of_mem_record (h : lane.SteadyAs env start)
    (he : e ∈ lane.ridge.record.entries) : start.scalar env e.2.binHi = .ok e.2.G := by
  rw [← h.scalar]
  exact h.scaled.record e.1 e.2 (mem_entries_iff.mp he)

theorem Lane.SteadySince.foldlM {ι : Type} {step : Lane → ι → Attempt Lane} {xs : List ι}
    (h : lane.SteadySince env start)
    (hstep : ∀ s x s', x ∈ xs → s.SteadySince env start → step s x = .ok s' →
      s'.SteadySince env start) (hok : xs.foldlM step lane = .ok lane') :
    lane'.SteadySince env start :=
  @foldlM_invariant _ _ _ step (fun s => s.SteadySince env start) xs hstep lane lane' h hok

theorem Lane.SteadySince.nrShedBelowFloor (h : lane.SteadySince env start)
    (hok : lane.nrShedBelowFloor env id = .ok lane') : lane'.SteadySince env start := by
  obtain ⟨shed, hshed, hrecord⟩ := nrShedBelowFloor_eq_ok hok
  have hmid : shed.SteadySince env start :=
    h.foldlM (fun s e s' _ hs hstep => hs.nrShedBin hstep) hshed
  exact hmid.foldlM (fun s e s' he hs hstep =>
    hs.nrShedRecordCell (hmid.toSteadyAs.of_mem_record he) hstep) hrecord

theorem Lane.SteadySince.nrDropBeyondDomain (h : lane.SteadySince env start)
    (hok : lane.nrDropBeyondDomain = .ok lane') : lane'.SteadySince env start := by
  obtain ⟨mid, hcells, hrecord⟩ := nrDropBeyondDomain_eq_ok hok
  have hmid : mid.SteadySince env start := by
    refine h.foldlM (fun s l s' _ hs hstep => ?_) hcells
    exact hs.foldlM (fun u e u' he hu hdrop => hu.nrDropCell (hs.toSteadyAs.of_mem he) hdrop) hstep
  exact hmid.foldlM (fun s e s' he hs hstep =>
    hs.nrDropRecordCell (hmid.toSteadyAs.of_mem_record he) hstep) hrecord

theorem Lane.nrFindOwner_some {b i : Nat} (h : lane.nrFindOwner b = some (l, i)) :
    ∃ c, (lane.ridge.cells l).lookup i = some c := by
  obtain ⟨l', hl', hpair⟩ := Option.map_eq_some_iff.mp h
  cases hpair
  have hsome := find?_some hl'
  exact Option.isSome_iff_exists.mp hsome

theorem Lane.nrUndoShed_eq_ok {s s' : Lane} {b : Nat} {fb : Nr.FineBin} {appended : Option PeakSet}
    (h : s.nrUndoShed b fb appended = .ok s') :
    ∃ l i c carried raw, (s.ridge.cells l).lookup i = some c ∧
      s' = { (s.setLevel l ((s.ridge.cells l).insert i
          { c with carried := carried, carriedRaw := raw })).setFine (s.ridge.fine.insert b fb) with
        mmr := appended.getD s.mmr } := by
  unfold Lane.nrUndoShed at h
  split at h
  · cases h
  rename_i l i howner
  obtain ⟨c, hc⟩ := nrFindOwner_some howner
  rw [hc, Option.getD_some] at h
  obtain ⟨carried, -, h⟩ := bind_eq_ok.mp h
  obtain ⟨raw, -, h⟩ := bind_eq_ok.mp h
  cases h
  exact ⟨l, i, c, carried, raw, hc, rfl⟩

theorem Op.Steady.undo {s s' : Lane} {op : Op} (hop : op.Steady env start)
    (h : s.SteadyAs env start) (hok : undoOp env s op = .ok s') : s'.SteadyAs env start := by
  cases op with
  | nrShed bin fine appended =>
    obtain ⟨l, i, c, carried, raw, hc, rfl⟩ := nrUndoShed_eq_ok hok
    exact h.insert rfl rfl rfl rfl hc rfl rfl
  | nrShedRecord bin appended =>
    have hundo : s.nrUndoShedRecord bin appended = .ok s' := hok
    unfold nrUndoShedRecord at hundo
    split at hundo
    · cases hundo
    rename_i c hc
    cases hundo
    refine ⟨⟨h.scaled.cells, ?_⟩, h.t, h.params⟩
    intro b d hd
    have hlook : (s.ridge.record.insert bin
        { c with carried := ∅, carriedRaw := 0 }).lookup b = some d := hd
    rw [lookup_insert] at hlook
    split at hlook
    · cases hlook
      exact h.scaled.record bin c hc
    · exact h.scaled.record b d hlook
  | nrDrop level idx cell =>
    cases hok
    refine ⟨⟨?_, h.scaled.record⟩, h.t, h.params⟩
    intro l i d hd
    have hlook : (Function.update s.ridge.cells level
        ((s.ridge.cells level).insert idx cell) l).lookup i = some d := hd
    by_cases hl : l = level
    · subst hl
      rw [update_self, lookup_insert] at hlook
      split at hlook
      · cases hlook
        exact (h.scalar _).trans hop
      · exact h.scaled.cells l i d hlook
    · rw [update_of_ne hl] at hlook
      exact h.scaled.cells l i d hlook
  | nrDropRecord bin cell =>
    cases hok
    refine ⟨⟨h.scaled.cells, ?_⟩, h.t, h.params⟩
    intro b d hd
    have hlook : (s.ridge.record.insert bin cell).lookup b = some d := hd
    rw [lookup_insert] at hlook
    split at hlook
    · cases hlook
      exact (h.scalar _).trans hop
    · exact h.scaled.record b d hlook
  | nrWidth before period =>
    cases hok
    cases period with
    | none => exact ⟨⟨h.scaled.cells, h.scaled.record⟩, h.t, h.params⟩
    | some period => exact ⟨⟨h.scaled.cells, h.scaled.record⟩, h.t, h.params⟩
  | push _ => exact hop.elim
  | foldL0 _ _ => exact hop.elim
  | foldLevel _ _ _ => exact hop.elim
  | evict _ _ _ _ => exact hop.elim
  | rebuildBoundary => exact hop.elim
  | nrClock _ _ => exact hop.elim
  | nrFold _ _ => exact hop.elim
  | nrCredit _ _ _ _ _ => exact hop.elim
  | nrCkpt _ _ => exact hop.elim
  | nrMigrate _ _ => exact hop.elim

theorem Lane.Traced.recorded (h : Traced env total lane lane')
    (hsteady : lane'.SteadySince env lane) : Recorded env total Op.isPreOp lane lane' := by
  obtain ⟨ops, hops, hkind, hleads⟩ := h
  obtain ⟨ops', hops', hall⟩ := hsteady.ops
  obtain rfl : ops = ops' := append_cancel_right (hops.symm.trans hops')
  refine ⟨ops, hops, hkind, ?_⟩
  have hkept : ∀ op ∈ ops, ∀ s s' : Lane, s.unlogged.SteadyAs env lane →
      undoOp env s op = .ok s' → s'.unlogged.SteadyAs env lane := by
    intro op hop s s' hs hok
    have hs : s.SteadyAs env lane := ⟨hs.scaled.of_ridge rfl rfl, hs.t, hs.params⟩
    have hback := (hall op hop).undo hs hok
    exact ⟨hback.scaled.of_ridge rfl rfl, hback.t, hback.params⟩
  have hboth : LaneLeads env total ops (fun s => Alike lane' s ∧ s.SteadyAs env lane)
      (fun s => Alike lane s ∧ s.SteadyAs env lane) := hleads.and_kept hkept
  have hin : LaneLeads env total ops (Like env lane')
      (fun s => Alike lane s ∧ s.SteadyAs env lane) := by
    refine hboth.of_imp ?_
    rintro s ⟨hs, hscaled⟩
    exact ⟨hs, hscaled, hs.ridge.t.trans hsteady.t, hs.params.trans hsteady.params⟩
  have hlast : LaneLeads env total [] (fun s => Alike lane s ∧ s.SteadyAs env lane)
      (Like env lane) := fun s hs => ⟨hs.1, hs.2.scaled⟩
  have hwhole := hin.append hlast
  rwa [append_nil] at hwhole

def Lane.widthAt (lane : Lane) (w : Nat) : Lane :=
  { lane.record (.nrWidth lane.ridge.width none) with ridge := { lane.ridge with width := w } }

theorem Lane.rewidened_widthAt (lane : Lane) (w : Nat) : lane.Rewidened (lane.widthAt w) :=
  ⟨w, lane.ridge.lastRetargetBin, lane.ridge.rawCur, lane.ridge.rawPrev, lane.ridge.dnetAtBase, _,
    rfl⟩

theorem Lane.widthAt_traced (lane : Lane) (w : Nat) : Traced env total lane (lane.widthAt w) := by
  refine .of_undo rfl rfl ?_
  intro s hs
  refine .ok { hs with ridge := ?_ }
  exact { hs.ridge with width := rfl }

theorem Lane.nrTrim_eq_ok (h : lane.nrTrim env id = .ok lane') :
    ∃ shed dropped, lane.nrShedBelowFloor env id = .ok shed ∧
      shed.nrDropBeyondDomain = .ok dropped ∧ dropped.nrRefreshScalars env = .ok lane' := by
  obtain ⟨shed, hshed, h⟩ := bind_eq_ok.mp h
  obtain ⟨dropped, hdropped, h⟩ := bind_eq_ok.mp h
  exact ⟨shed, dropped, hshed, hdropped, h⟩

theorem Lane.SteadySince.nrTrim
    (h : lane.SteadySince env start) (hok : lane.nrTrim env id = .ok lane')
    (hscaled : lane'.Scaled env) : lane'.SteadySince env start := by
  obtain ⟨shed, dropped, hshed, hdropped, hrefresh⟩ := nrTrim_eq_ok hok
  have hlast := (h.nrShedBelowFloor hshed).nrDropBeyondDomain hdropped
  obtain ⟨-, rfl⟩ := nrRefreshScalars_eq_ok hrefresh
  exact ⟨⟨hscaled, hlast.t, hlast.params⟩, hlast.ops⟩

theorem Lane.Resting.widthAt (h : lane.Resting env held) {w : Nat}
    (hw : lane.params.nr.wMinBins ≤ w ∧ w ≤ lane.params.nr.wMaxBins) :
    (lane.widthAt w).Ordered env held := h.toOrdered.rewidened (lane.rewidened_widthAt w) hw

theorem Lane.Resting.setWidth (hfalls : Falling env.canon) (h : lane.Resting env held)
    (hok : lane.nrSetWidth env resolver w = .ok lane') :
    lane'.Resting env (held.trimmed (lane.widthAt w.val).nrBBin lane.ridge.t) ∧
      Recorded env total Op.isPreOp lane lane' ∧ lane.Elapsed lane' ∧
      lane'.ridge.width = w.val := by
  obtain ⟨id, shed, dropped, -, -, -, hmin, hmax, hshed, hdropped, hrefresh⟩ := nrSetWidth_eq_ok hok
  have htrim : (lane.widthAt w.val).nrTrim env id = .ok lane' :=
    bind_eq_ok.mpr ⟨shed, hshed, bind_eq_ok.mpr ⟨dropped, hdropped, hrefresh⟩⟩
  have hmeets : Meets False ((lane.widthAt w.val).nrTrim env id) fun lane' =>
      lane'.Resting env (held.trimmed (lane.widthAt w.val).nrBBin (lane.widthAt w.val).ridge.t) ∧
        Traced env total (lane.widthAt w.val) lane' ∧ (lane.widthAt w.val).Ticked lane' ∧ _ :=
    (h.widthAt ⟨hmin, hmax⟩).nrTrim hfalls fun hno => hno.elim
  obtain ⟨hresting, htraced, hticked, -⟩ := hmeets.of_eq_ok htrim
  have hstart : (lane.widthAt w.val).SteadySince env lane :=
    ⟨⟨⟨h.scaled.cells, h.scaled.record⟩, rfl, rfl⟩, [.nrWidth lane.ridge.width none], rfl,
      fun op hop => by rw [mem_singleton.mp hop]; trivial⟩
  have hsteady := hstart.nrTrim htrim hresting.scaled
  exact ⟨hresting, ((lane.widthAt_traced w.val).trans htraced).recorded hsteady,
    (lane.rewidened_widthAt w.val).elapsed.trans hticked.elapsed, hticked.fields.2.2.2.1⟩

theorem Lane.Kept.setWidth (hfalls : Falling env.canon) (h : lane.Kept env p F)
    (hok : lane.nrSetWidth env resolver w = .ok lane') {before : Lane} {earlier : List Lane}
    (htraces : lane.Traces env total before earlier) :
    lane'.Kept env p F ∧ lane'.Traces env total before earlier := by
  obtain ⟨_, _, _, -, hactive, hstarted, -⟩ := nrSetWidth_eq_ok hok
  rcases h.ridge with ⟨hst, -⟩ | ⟨held, hresting, hF⟩
  · rw [hst] at hstarted
    cases hstarted
  have hset : lane'.Resting env (held.trimmed (lane.widthAt w.val).nrBBin lane.ridge.t) ∧
      Recorded env total Op.isPreOp lane lane' ∧ _ := hresting.setWidth hfalls hok
  obtain ⟨hresting', hrecorded, helapsed, -⟩ := hset
  refine ⟨⟨helapsed.params.trans h.params, helapsed.ckpts ▸ h.ring, ?_, .inr ⟨_, hresting', ?_⟩⟩,
    htraces.recorded hrecorded⟩
  · rw [nrActive_congr helapsed.params helapsed.nextPos]
    exact ⟨fun _ => hactive, fun _ => hresting'.started⟩
  intro b x hb
  obtain ⟨x₀, hx₀, -⟩ := Holding.lookup_trimmed_eq_some hb
  exact hF b x₀ hx₀

/-- A lane of a run whose journal leads back to lanes of the run. -/
structure Lane.Tended (env : Env) (p : LaneParams) (F : Nat → Prop) (total : Prop) (lane : Lane) :
    Prop where
  kept : lane.Kept env p F
  traces : ∃ before earlier, lane.Traces env total before earlier ∧ before.Kept env p F ∧
    ∀ s ∈ earlier, s.Kept env p F

theorem Lane.create_tended (h : create env p = .ok lane) : lane.Tended env p F total := by
  obtain ⟨tables, htables, h⟩ := bind_eq_ok.mp h
  cases h
  have hkept : Lane.Kept env p F
      { toPositional := emptyPositional, params := p, tables := tables, nextPos := 0, base := 0,
        mmr := PeakSet.empty, ckpts := [], ridge := emptyRidge, journal := [] } := by
    refine ⟨rfl, Nat.zero_le _, ⟨(fun hno => by cases hno), ?_⟩, .inl ⟨rfl, .refl _⟩⟩
    rintro ⟨-, hpos, -⟩
    split at hpos
    · exact hpos.elim
    · exact absurd hpos (Nat.not_lt_zero _)
  exact ⟨hkept, _, [], .of_history (.fresh _), hkept, (fun _ hno => by cases hno)⟩

theorem Lane.Tended.push {a : WorkAtom} (hfalls : Falling env.canon)
    (hdims : p.nr.version = 1 → p.Dims) (hretain : 0 < p.mrr.ckptRetain)
    (h : lane.Tended env p F total) (hclear : lane.ClearOn env F total resolver a)
    (hok : lane.push env resolver a = .ok lane') : lane'.Tended env p F total := by
  obtain ⟨before, earlier, htraces, hbefore, hall⟩ := h.traces
  obtain ⟨hkept, earlier', htraces', hpre, -⟩ := h.kept.push hfalls hdims hretain hclear hok htraces
  refine ⟨hkept, lane', earlier', htraces', hkept, ?_⟩
  intro s hs
  rcases mem_cons.mp (hpre.subset hs) with rfl | hs
  · exact hbefore
  · exact hall s hs

theorem Lane.Tended.setWidth (hfalls : Falling env.canon) (h : lane.Tended env p F total)
    (hok : lane.nrSetWidth env resolver w = .ok lane') : lane'.Tended env p F total := by
  obtain ⟨before, earlier, htraces, hbefore, hall⟩ := h.traces
  obtain ⟨hkept, htraces'⟩ := h.kept.setWidth hfalls hok htraces
  exact ⟨hkept, before, earlier, htraces', hbefore, hall⟩

theorem Lane.Tended.rewind {d : Nat} {served : Bool} (h : lane.Tended env p F total)
    (hok : lane.rewind env d = .ok (served, lane')) : lane'.Tended env p F total := by
  obtain ⟨before, earlier, ⟨journal, pending, hjournal, hpending, hleads, hhistory⟩, hbefore,
    hall⟩ := h.traces
  have hscaled := h.kept.scaled
  rcases Nat.lt_or_ge earlier.length d with hfar | hnear
  · rw [hhistory.rewind_refused hjournal hpending hfar] at hok
    cases hok
    exact h
  cases d with
  | zero =>
    rcases hhistory.rewind_zero hjournal hpending hscaled hleads with
      ⟨r, hr, hlike, hrest⟩ | ⟨-, e, he⟩
    · rw [hr] at hok
      cases hok
      have hsame : lane' ≈ before := Setoid.trans (Setoid.symm lane'.unlogged_equiv) hlike.1
      have hkept := hbefore.of_equiv hsame (hlike.2.of_ridge rfl rfl)
      refine ⟨hkept, lane', earlier, .of_history ?_, hkept, hall⟩
      rw [hrest]
      exact hhistory.of_equiv hsame
    · rw [he] at hok
      cases hok
  | succ d =>
    rcases hhistory.rewind hjournal hpending hscaled hleads hnear with
      ⟨r, hr, hlike, hrest⟩ | ⟨-, e, he⟩
    · rw [hr] at hok
      cases hok
      have hsame : lane' ≈ earlier[d] := Setoid.trans (Setoid.symm lane'.unlogged_equiv) hlike.1
      have hkept := (hall _ (getElem_mem hnear)).of_equiv hsame (hlike.2.of_ridge rfl rfl)
      refine ⟨hkept, lane', _, .of_history hrest, hkept, ?_⟩
      intro s hs
      exact hall s (mem_of_mem_drop hs)
    · rw [he] at hok
      cases hok

theorem Lane.Tended.call {c : Call} (hfalls : Falling env.canon)
    (hdims : p.nr.version = 1 → p.Dims) (hretain : 0 < p.mrr.ckptRetain)
    (h : lane.Tended env p F total)
    (hclear : ∀ resolver a, c = .push resolver a → lane.ClearOn env F total resolver a)
    (hok : lane.call env c = .ok lane') : lane'.Tended env p F total := by
  cases c with
  | push resolver a => exact h.push hfalls hdims hretain (hclear resolver a rfl) hok
  | setWidth resolver w => exact h.setWidth hfalls hok
  | rewind d =>
    obtain ⟨⟨served, restored⟩, hrewind, rfl⟩ := map_eq_ok.mp hok
    exact h.rewind hrewind

end C2Pool.V37
