import C2Pool.V37.RidgeWidth
import C2Pool.V37.RidgeClock

/-! # The top of the 64-bit range

Close to `2 ^ 64` the end of a group, and the edge of the ladder after it, wrap
around.  A lane with such a bin has no further tick: the drops find a cell beyond
the domain that still has live bins.
-/

namespace C2Pool.V37

open List Lane PartialRun SortedMap Holding Nr Function Option

variable {env : Env} {held : Holding} {a : WorkAtom} {p : LaneParams} {origin carrier : Bin}
  {id : Resolver} {lane lane' : Lane}

namespace Lane

/-- The bin `b` is live in a cell that carries nothing. -/
structure Topped (b : Nat) (lane : Lane) : Prop where
  raw : ∀ b' fb, lane.ridge.fine.lookup b' = some fb → 0 < fb.rawSum
  cell : ∃ l c, l ≤ lane.params.nr.foldCap ∧
    (lane.ridge.cells l).lookup (b / Nr.powR l) = some c ∧
    c.binHi = spanHi l (b / Nr.powR l) ∧ c.carriedRaw < c.rawWork

variable {b : Nat} {lane lane' : Lane} {level pidx : Nat} {e : Nat × Nr.FineBin}

theorem Topped.of_fields (h : lane.Topped b) (hfine : lane'.ridge.fine = lane.ridge.fine)
    (hcells : lane'.ridge.cells = lane.ridge.cells) (hparams : lane'.params = lane.params) :
    lane'.Topped b := by
  refine ⟨?_, ?_⟩
  · rw [hfine]
    exact h.raw
  · rw [hcells, hparams]
    exact h.cell

theorem Topped.nrFoldGroup (hlevel : level ≠ 0)
    (hcap : level ≤ lane.params.nr.foldCap) (hmax : lane.params.nr.foldCap ≤ Nr.maxFoldCap)
    (h : lane.Topped b) (hok : lane.nrFoldGroup env level pidx = .ok lane') : lane'.Topped b := by
  obtain ⟨k, rfl⟩ := Nat.exists_eq_succ_of_ne_zero hlevel
  obtain ⟨-, fine, g, hfine, -, hbins, rfl⟩ := nrFoldGroup_eq_ok hok
  rw [reframe_eq (hcap.trans hmax)] at hfine
  cases hfine
  have hraw : ∀ b' fb, (reframed env.canon (k + 1) pidx lane.ridge.fine).lookup b' = some fb →
      0 < fb.rawSum := by
    intro b' fb hfb
    unfold reframed at hfb
    rw [lookup_mapValues] at hfb
    obtain ⟨fb₀, hfb₀, rfl⟩ := map_eq_some_iff.mp hfb
    have hpos := h.raw b' fb₀ hfb₀
    split
    · exact hpos
    · exact hpos
  have hnew : (cellOf (k + 1) pidx
      (binsOf (reframed env.canon (k + 1) pidx lane.ridge.fine) (k + 1) pidx) g).carriedRaw <
      (cellOf (k + 1) pidx
        (binsOf (reframed env.canon (k + 1) pidx lane.ridge.fine) (k + 1) pidx) g).rawWork := by
    obtain ⟨fb, rest, hlist⟩ := exists_cons_of_ne_nil hbins
    have hmem : fb ∈ binsOf (reframed env.canon (k + 1) pidx lane.ridge.fine) (k + 1) pidx := by
      rw [hlist]
      exact mem_cons_self
    obtain ⟨e, he, rfl⟩ := mem_map.mp hmem
    have hpos := hraw e.1 e.2 (mem_slice.mp he).1
    unfold cellOf
    dsimp only
    rw [hlist, map_cons, sum_cons]
    omega
  have hafter : ∀ l i, ((lane.afterFold (k + 1) pidx
      (reframed env.canon (k + 1) pidx lane.ridge.fine) g).ridge.cells l).lookup i =
      if l = k + 1 ∧ i = pidx then some (cellOf (k + 1) pidx
        (binsOf (reframed env.canon (k + 1) pidx lane.ridge.fine) (k + 1) pidx) g)
      else if l = k ∧ i / Nr.rollup = pidx then none else (lane.ridge.cells l).lookup i := by
    intro l i
    show ((Function.update (Function.update lane.ridge.cells k _) (k + 1) _) l).lookup i = _
    by_cases hl : l = k + 1
    · subst hl
      rw [update_self, lookup_insert]
      by_cases hi : i = pidx
      · simp [hi]
      have hne : k + 1 ≠ k := by omega
      show (if i = pidx then _ else (Function.update lane.ridge.cells k _ (k + 1)).lookup i) = _
      rw [update_of_ne hne, if_neg hi, if_neg fun hboth => hi hboth.2,
        if_neg fun hboth => hne hboth.1]
    rw [update_of_ne hl, if_neg fun hboth => hl hboth.1]
    by_cases hk : l = k
    · subst hk
      rw [update_self]
      show ((lane.ridge.cells l).cutOut _ _).lookup i = _
      rw [lookup_cutOut]
      simp only [child_iff, true_and]
    · rw [update_of_ne hk, if_neg fun hboth => hk hboth.1]
  refine ⟨hraw, ?_⟩
  obtain ⟨l, c, hl, hc, hhi, hlive⟩ := h.cell
  by_cases hpidx : b / Nr.powR (k + 1) = pidx
  · by_cases hlow : l = k + 1 ∨ l = k
    · refine ⟨k + 1, _, hcap, ?_, ?_, hnew⟩
      · rw [hafter, if_pos ⟨rfl, hpidx⟩]
      · rw [hpidx]
        rfl
    rw [not_or] at hlow
    refine ⟨l, c, hl, ?_, hhi, hlive⟩
    rw [hafter, if_neg fun hboth => hlow.1 hboth.1, if_neg fun hboth => hlow.2 hboth.1]
    exact hc
  refine ⟨l, c, hl, ?_, hhi, hlive⟩
  rw [hafter, if_neg, if_neg]
  · exact hc
  · rintro ⟨rfl, hi⟩
    exact hpidx ((div_powR_succ b l).trans hi)
  · rintro ⟨rfl, hi⟩
    exact hpidx hi

theorem nrFoldGroup_reshaped (hok : lane.nrFoldGroup env level pidx = .ok lane') :
    lane.Reshaped lane' := by
  obtain ⟨-, fine, g, -, -, -, rfl⟩ := nrFoldGroup_eq_ok hok
  exact ⟨_, _, _, rfl⟩

theorem Topped.nrRunDueFolds (hmax : lane.params.nr.foldCap ≤ Nr.maxFoldCap) (h : lane.Topped b)
    (hok : lane.nrRunDueFolds env = .ok lane') : lane'.Topped b ∧ lane.Reshaped lane' := by
  have hgroup : ∀ l, l < lane.params.nr.foldCap → ∀ s p s', s.Topped b ∧ lane.Reshaped s →
      s.nrFoldGroup env (l + 1) p = .ok s' → s'.Topped b ∧ lane.Reshaped s' := by
    intro l hl s p s' hs hstep
    have hparams : s.params = lane.params := hs.2.fields.1
    refine ⟨hs.1.nrFoldGroup (Nat.succ_ne_zero l) ?_ ?_ hstep,
      hs.2.trans (nrFoldGroup_reshaped hstep)⟩
    · rw [hparams]
      exact hl
    · rw [hparams]
      exact hmax
  refine @foldlM_invariant _ _ _ _ (fun s => s.Topped b ∧ lane.Reshaped s) _ ?_ _ _
    ⟨h, _, _, _, rfl⟩ hok
  intro s l s' hl hs hlevel
  refine @foldlM_invariant _ _ _ _ (fun s => s.Topped b ∧ lane.Reshaped s) _ ?_ _ _ hs hlevel
  intro u p u' _ hu hstep
  exact hgroup l (mem_range.mp hl) u p u' hu hstep

theorem nrShedBin_ticked {id : Resolver} (hok : lane.nrShedBin env id e = .ok lane') :
    lane.Ticked lane' := by
  obtain ⟨l, i, c₀, -, -, ⟨-, -, rfl⟩ | ⟨-, rfl⟩⟩ := nrShedBin_eq_ok hok
  · exact ⟨_, _, _, _, _, rfl⟩
  · exact ⟨_, _, _, _, _, rfl⟩

theorem Topped.nrShedBin {id : Resolver} (h : lane.Topped b)
    (hfar : e.1 / Nr.powR lane.params.nr.foldCap ≠ b / Nr.powR lane.params.nr.foldCap)
    (hok : lane.nrShedBin env id e = .ok lane') : lane'.Topped b := by
  obtain ⟨l, i, c₀, howner, hc₀, hcase⟩ := nrShedBin_eq_ok hok
  have hidx : i = e.1 / Nr.powR l := by
    obtain ⟨l', -, hpair⟩ := map_eq_some_iff.mp howner
    cases hpair
    rfl
  have hshed : (lane.afterShed e l i (shedInto c₀ e.2)).Topped b := by
    refine ⟨?_, ?_⟩
    · intro b' fb hfb
      have herase : (lane.ridge.fine.erase e.1).lookup b' = some fb := hfb
      rw [lookup_erase] at herase
      split at herase
      · cases herase
      · exact h.raw b' fb herase
    obtain ⟨l', c, hl', hc, hhi, hlive⟩ := h.cell
    refine ⟨l', c, hl', ?_, hhi, hlive⟩
    show ((Function.update lane.ridge.cells l ((lane.ridge.cells l).insert i _)) l').lookup _ = _
    by_cases hl : l' = l
    · subst hl
      have hne : b / Nr.powR l' ≠ i := by
        intro heq
        exact hfar (div_powR_of_le hl' (hidx.symm.trans heq.symm))
      rw [update_self, lookup_insert, if_neg hne]
      exact hc
    · rw [update_of_ne hl]
      exact hc
  obtain ⟨-, -, rfl⟩ | ⟨-, rfl⟩ := hcase
  · exact hshed.of_fields rfl rfl rfl
  · exact hshed.of_fields rfl rfl rfl

theorem Topped.nrShedRecordCell {id : Resolver} {floor : Nat} {e : Nat × Nr.Cell}
    (h : lane.Topped b) (hok : lane.nrShedRecordCell env id floor e = .ok lane') :
    lane'.Topped b ∧ lane.Ticked lane' := by
  obtain ⟨-, rfl⟩ | ⟨-, rfl⟩ := nrShedRecordCell_eq_ok hok
  · exact ⟨h, _, _, _, _, _, rfl⟩
  · exact ⟨h.of_fields rfl rfl rfl, _, _, _, _, _, rfl⟩

theorem Topped.nrShedBelowFloor {id : Resolver} (h : lane.Topped b) (hfar : ∀ b' < lane.nrBBin,
      b' / Nr.powR lane.params.nr.foldCap ≠ b / Nr.powR lane.params.nr.foldCap)
    (hok : lane.nrShedBelowFloor env id = .ok lane') : lane'.Topped b ∧ lane.Ticked lane' := by
  obtain ⟨shed, hshed, hrecord⟩ := nrShedBelowFloor_eq_ok hok
  have hbins : shed.Topped b ∧ lane.Ticked shed := by
    refine @foldlM_invariant _ _ _ _ (fun s => s.Topped b ∧ lane.Ticked s) _ ?_ _ _
      ⟨h, _, _, _, _, _, rfl⟩ hshed
    intro s e s' he hs hstep
    have hbelow : e.1 < lane.nrBBin := ((mem_takeWhile_below _ _).mp he).2
    refine ⟨hs.1.nrShedBin ?_ hstep, hs.2.trans (nrShedBin_ticked hstep)⟩
    rw [hs.2.fields.1]
    exact hfar e.1 hbelow
  refine @foldlM_invariant _ _ _ _ (fun s => s.Topped b ∧ lane.Ticked s) _ ?_ _ _ hbins hrecord
  intro s e s' _ hs hstep
  have hcell := hs.1.nrShedRecordCell hstep
  exact ⟨hcell.1, hs.2.trans hcell.2⟩

/-- Cell `i` of level `l` is `c`, at clock `t`. -/
structure Stands (l i : Nat) (c : Nr.Cell) (t : Nat) (lane : Lane) : Prop where
  cell : (lane.ridge.cells l).lookup i = some c
  clock : lane.ridge.t = t

theorem Stands.nrDropCell {l i t m : Nat} {c : Nr.Cell} {e : Nat × Nr.Cell}
    (h : lane.Stands l i c t) (hlive : ¬ c.fullyCarried) (he : m = l → e.1 = i → e.2 = c)
    (hok : Lane.nrDropCell m lane e = .ok lane') : lane'.Stands l i c t := by
  obtain ⟨-, rfl⟩ | ⟨-, hfull, rfl⟩ := nrDropCell_eq_ok hok
  · exact h
  refine ⟨?_, h.clock⟩
  show ((Function.update lane.ridge.cells m ((lane.ridge.cells m).erase e.1)) l).lookup i = _
  by_cases hm : l = m
  · subst hm
    rw [update_self, lookup_erase, if_neg]
    · exact h.cell
    intro heq
    rw [he rfl heq.symm] at hfull
    exact hlive hfull
  · rw [update_of_ne hm]
    exact h.cell

theorem Topped.not_nrDropBeyondDomain (h : lane.Topped b) (hbeyond : ∀ l ≤ lane.params.nr.foldCap,
      (groupHi l b + Nr.ladderDomainBins) % 2 ^ 64 ≤ lane.ridge.t) :
    lane.nrDropBeyondDomain ≠ .ok lane' := by
  intro hok
  obtain ⟨l, c, hl, hc, hhi, hlive⟩ := h.cell
  obtain ⟨cells, hcells, -⟩ := nrDropBeyondDomain_eq_ok hok
  have hpartly : ¬ c.fullyCarried := by
    intro hfull
    exact hlive.ne hfull.1
  have hlevel : ∀ m (s : Lane), s.Stands l (b / Nr.powR l) c lane.ridge.t →
      ∀ (u : Lane) e u', e ∈ (s.ridge.cells m).entries →
        u.Stands l (b / Nr.powR l) c lane.ridge.t → Lane.nrDropCell m u e = .ok u' →
        u'.Stands l (b / Nr.powR l) c lane.ridge.t := by
    intro m s hs u e u' hmem hu hstep
    refine hu.nrDropCell hpartly ?_ hstep
    rintro rfl hidx
    have hlookup := mem_entries_iff.mp hmem
    rw [hidx, hs.cell] at hlookup
    exact (Option.some.inj hlookup).symm
  obtain ⟨s, s', hs, hdrop⟩ := foldlM_taken (fun s m s' _ hs hstep => foldlM_invariant (hlevel m s
    hs) hs hstep) (⟨hc, rfl⟩ : lane.Stands l (b / Nr.powR l) c lane.ridge.t) hcells (mem_range.mpr
    (Nat.lt_succ_of_le hl))
  have hmem : (b / Nr.powR l, c) ∈ (s.ridge.cells l).entries := mem_entries_iff.mpr hs.cell
  obtain ⟨u, u', hu, hstep⟩ := foldlM_taken (hlevel l s hs) hs hdrop hmem
  obtain ⟨hnear, -⟩ | ⟨-, hfull, -⟩ := nrDropCell_eq_ok hstep
  · apply hnear
    unfold beyondDomain
    rw [hhi, hu.clock]
    exact hbeyond l hl
  · exact hpartly hfull

end Lane

theorem Lane.Resting.fine_pos {lane : Lane} (h : lane.Resting env held) {b : Nat} {fb : Nr.FineBin}
    (hfb : lane.ridge.fine.lookup b = some fb) : 0 < fb.rawSum := by
  rw [h.holds.shows.fine, lookup_fine] at hfb
  obtain ⟨x, hx, hlive⟩ := bind_eq_some_iff.mp hfb
  split at hlive
  · cases hlive
  · cases hlive
    exact (h.holds.sound.ok hx).rawSum_pos

theorem Lane.Resting.topped {lane : Lane} (h : lane.Resting env held) {b : Nat} {x : Held}
    (hb : held.lookup b = some x) (hlow : x.level < lane.params.nr.foldCap) : lane.Topped b := by
  refine ⟨fun b' fb hfb => h.fine_pos hfb, ?_⟩
  have hne : held.members x.level (b / Nr.powR x.level) ≠ ∅ :=
    members_ne_empty.mpr ⟨b, x, hb, rfl, rfl⟩
  have hshown := h.holds.shows.cells x.level (b / Nr.powR x.level)
  unfold Holding.cell at hshown
  rw [if_neg hne] at hshown
  obtain ⟨c, hc, hover⟩ := map_eq_some_iff.mp hshown
  have hlive : ∀ b' x', (held.members x.level (b / Nr.powR x.level)).lookup b' = some x' →
      x'.shed = false := by
    intro b' x' hx'
    obtain ⟨hx', hlevel, -⟩ := lookup_members_eq_some.mp hx'
    by_contra hshed
    have hdeep := h.holds.sound.shed hx' (Bool.eq_true_of_not_eq_false hshed)
    omega
  have hraw : c.carriedRaw = 0 ∧ 0 < c.rawWork := by
    have hcell : c.unscaled = cellOf x.level (b / Nr.powR x.level)
        (held.members x.level (b / Nr.powR x.level)).bins qOne := hover.trans (cellOver_live hlive)
    refine ⟨congrArg Nr.Cell.carriedRaw hcell, ?_⟩
    have hwork : c.rawWork = (((held.members x.level (b / Nr.powR x.level)).bins).map
        fun fb => fb.rawSum).sum := congrArg Nr.Cell.rawWork hcell
    have hmem : x.bin ∈ (held.members x.level (b / Nr.powR x.level)).bins :=
      mem_map.mpr ⟨(b, x), mem_entries_iff.mpr
        (lookup_members_eq_some.mpr ⟨hb, rfl, rfl⟩), rfl⟩
    have hle := le_sum_of_mem (mem_map_of_mem (f := fun fb : Nr.FineBin => fb.rawSum) hmem)
    have hpos := (h.holds.sound.ok hb).rawSum_pos
    omega
  exact ⟨x.level, c, hlow.le, hc, congrArg Nr.Cell.binHi hover, by omega⟩

theorem Lane.Resting.fits_of_tick {t : Nat} (h : lane.Resting env held)
    (hdomain : lane.params.nr.wMaxBins ≤ Nr.ladderDomainBins) (hmoves : lane.ridge.t < t)
    (ht : t < 2 ^ 64) (hok : (lane.clockAt t).nrAfterClockMove env id a = .ok lane') :
    held.Fits lane.params.nr.foldCap lane.params.nr.openHorizonBins := by
  intro b x hb
  by_contra htop
  have hroom := h.room b x hb
  have hahead := h.ahead b x hb
  have hlt := groupHi_lt lane.params.nr.foldCap b
  have hmin := h.dims.min_le
  have hmax := h.dims.le_max
  rw [ladderDomainBins_eq] at hahead hdomain
  have hlow : x.level < lane.params.nr.foldCap := by
    by_contra hdeep
    have hsealed := (h.leveled b x hb lane.params.nr.foldCap h.dims.cap_pos.ne' le_rfl).mp
    unfold Holding.sealedBy at hsealed
    unfold groupHi at htop
    omega
  obtain ⟨folded, shed, dropped, hfolded, hshed, hdropped, -⟩ := nrAfterClockMove_eq_ok hok
  have hstart : (lane.clockAt t).Topped b := (h.topped hb hlow).of_fields rfl rfl rfl
  have hcap : (lane.clockAt t).params.nr.foldCap ≤ Nr.maxFoldCap := h.dims.cap_le
  obtain ⟨hfold, hreshaped⟩ := hstart.nrRunDueFolds hcap hfolded
  obtain ⟨hparams, hclock, hstarted, hwidth, -⟩ := hreshaped.fields
  have hwide : lane.params.nr.wMinBins ≤ (folded.nrMaybeRetarget a).ridge.width := by
    have hdims : folded.params.Dims := by
      rw [hparams]
      exact h.dims
    have hbefore : folded.params.nr.wMinBins ≤ folded.ridge.width ∧
        folded.ridge.width ≤ folded.params.nr.wMaxBins := by
      rw [hwidth, hparams]
      exact h.width
    have hafter := hdims.nrMaybeRetarget hbefore a
    rw [hparams] at hafter
    exact hafter.1
  obtain ⟨width, last, cur, prev, dnet, journal, hretarget⟩ := folded.rewidened_nrMaybeRetarget a
  have hwidened : (folded.nrMaybeRetarget a).Topped b := by
    rw [hretarget]
    exact hfold.of_fields rfl rfl rfl
  have hsame : (folded.nrMaybeRetarget a).params = lane.params ∧
      (folded.nrMaybeRetarget a).ridge.t = t ∧
      (folded.nrMaybeRetarget a).ridge.started = true := by
    rw [hretarget]
    exact ⟨hparams, hclock, hstarted.trans h.started⟩
  obtain ⟨hshed, hticked⟩ := hwidened.nrShedBelowFloor (by
    intro b' hbelow heq
    rw [lt_nrBBin hsame.2.2, hsame.2.1] at hbelow
    rw [hsame.1] at heq
    have hgroup := groupHi_congr heq
    have hlt' := groupHi_lt lane.params.nr.foldCap b'
    omega) hshed
  refine hshed.not_nrDropBeyondDomain ?_ hdropped
  rw [hticked.fields.1, hticked.fields.2.1, hsame.1, hsame.2.1, ladderDomainBins_eq]
  intro l hl
  have hge := le_groupHi l b
  have hle := groupHi_mono hl b
  omega

/-! ## Pushes inside the domain of the ladder -/

theorem LaneParams.Dims.room (h : p.Dims) (hdomain : p.nr.wMaxBins ≤ Nr.ladderDomainBins) :
    p.nr.openHorizonBins + Nr.powR p.nr.foldCap ≤ p.nr.wMinBins := by
  have hpow : Nr.powR p.nr.foldCap ≤ 4096 := powR_le h.cap_le
  rw [ladderDomainBins_eq] at hdomain
  have hhorizon := h.horizon_lt
  have hmin := h.min_le
  have hmax := h.le_max
  have hdeep := h.deep
  omega

theorem Lane.Admits.lt_origin (h : lane.Admits a origin carrier) :
    lane.nrProspective a carrier < origin.val + lane.params.nr.openHorizonBins :=
  lt_of_lt_of_le (not_le.mp h.opened) (Nat.mod_le _ _)

theorem Lane.Resting.maybeCheckpoint (h : lane.Resting env held) (t : Nat) :
    (lane.nrMaybeCheckpoint t).Resting env held ∧
      (lane.nrMaybeCheckpoint t).params = lane.params ∧
      (lane.nrMaybeCheckpoint t).ridge.t = lane.ridge.t := by
  obtain hsame | ⟨due, hsame⟩ := lane.nrMaybeCheckpoint_eq t
  · rw [hsame]
    exact ⟨h, rfl, rfl⟩
  · rw [hsame]
    exact ⟨h.checkpointed due, rfl, rfl⟩

theorem Lane.Resting.fits_of_admitted (h : lane.Resting env held)
    (hdomain : lane.params.nr.wMaxBins ≤ Nr.ladderDomainBins)
    (hmoves : lane.ridge.t < lane.nrProspective a carrier)
    (hok : lane.nrAdmitted env id a origin carrier = .ok lane') :
    held.Fits lane.params.nr.foldCap lane.params.nr.openHorizonBins := by
  obtain ⟨ticked, htick, -⟩ := nrAdmitted_eq_ok hok
  have hcarrier := nrProspective_of_lt hmoves
  obtain ⟨hready, hparams, hclock⟩ := h.maybeCheckpoint (lane.nrProspective a carrier)
  have hmoves' : (lane.nrMaybeCheckpoint (lane.nrProspective a carrier)).ridge.t <
      lane.nrProspective a carrier := by
    rw [hclock]
    exact hmoves
  unfold Lane.nrTick at htick
  rw [if_pos hmoves'] at htick
  rw [← hparams] at hdomain ⊢
  have hrange : lane.nrProspective a carrier < 2 ^ 64 := by
    rw [hcarrier]
    exact lt_of_lt_of_le carrier.isLt (Nat.sub_le _ _)
  exact hready.fits_of_tick hdomain hmoves' hrange htick

theorem Lane.clearOn_of_domain
    (hdomain : lane.params.nr.wMaxBins ≤ Nr.ladderDomainBins) (resolver : Option Resolver)
    (a : WorkAtom) :
    lane.ClearOn env (fun _ => True) False resolver a := by
  intro held id origin carrier lane' hactive hresting _ _ _ _ hadmits hok
  exact ⟨trivial, hadmits.lt_origin, hresting.dims.room hdomain,
    fun hmoves => hresting.fits_of_admitted hdomain hmoves hok, False.elim⟩

theorem Lane.Tended.call_inside {c : Call} (hfalls : Falling env.canon)
    (hdims : p.nr.version = 1 → p.Dims) (hretain : 0 < p.mrr.ckptRetain)
    (hdomain : p.nr.wMaxBins ≤ Nr.ladderDomainBins) (h : lane.Tended env p (fun _ => True) False)
    (hok : lane.call env c = .ok lane') : lane'.Tended env p (fun _ => True) False := by
  refine h.call hfalls hdims hretain ?_ hok
  intro resolver a _
  apply clearOn_of_domain
  rw [h.kept.params]
  exact hdomain

theorem Lane.Resting.fits_of_low (h : lane.Resting env held)
    (hdomain : lane.params.nr.wMaxBins ≤ Nr.ladderDomainBins)
    (hclock : lane.ridge.t + 40960 ≤ 2 ^ 64) :
    held.Fits lane.params.nr.foldCap lane.params.nr.openHorizonBins := by
  intro b x hb
  have hahead := h.ahead b x hb
  have hlt := groupHi_lt lane.params.nr.foldCap b
  have hpow : Nr.powR lane.params.nr.foldCap ≤ 4096 := powR_le h.dims.cap_le
  have hhorizon := h.dims.horizon_lt
  have hmin := h.dims.min_le
  have hmax := h.dims.le_max
  rw [ladderDomainBins_eq] at hdomain hahead
  omega

theorem of_some_guard {P : Prop} [Decidable P] {e e' : Throw} {x : Option Throw}
    (h : (if P then some e' else x) = some e) : P ∧ e = e' ∨ ¬ P ∧ x = some e := by
  split at h
  · rename_i hP
    exact .inl ⟨hP, (Option.some.inj h).symm⟩
  · rename_i hP
    exact .inr ⟨hP, h⟩

theorem Lane.nrRefusal_invalid {e : Throw} (hstarted : lane.ridge.started = true)
    (h : lane.nrRefusal a origin carrier = some e) : ∃ msg, e = .invalidArgument msg := by
  unfold Lane.nrRefusal at h
  obtain ⟨-, rfl⟩ | ⟨-, h⟩ := of_some_guard h
  · exact ⟨_, rfl⟩
  obtain ⟨hstopped, -⟩ | ⟨-, h⟩ := of_some_guard h
  · rw [hstarted] at hstopped
    cases hstopped
  obtain ⟨-, rfl⟩ | ⟨-, h⟩ := of_some_guard h
  · exact ⟨_, rfl⟩
  obtain ⟨-, rfl⟩ | ⟨-, h⟩ := of_some_guard h
  · exact ⟨_, rfl⟩
  obtain ⟨-, rfl⟩ | ⟨-, h⟩ := of_some_guard h
  · exact ⟨_, rfl⟩
  obtain ⟨-, rfl⟩ | ⟨-, h⟩ := of_some_guard h
  · exact ⟨_, rfl⟩
  · cases h

theorem Lane.Kept.push_or_refuses {F : Nat → Prop}
    (hfalls : Falling env.canon) (hretain : 0 < p.mrr.ckptRetain)
    (hdomain : p.nr.wMaxBins ≤ Nr.ladderDomainBins) (h : lane.Kept env p F)
    (hactive : lane.nrActive) (hclock : lane.ridge.t + 40960 ≤ 2 ^ 64) (id : Resolver)
    (a : WorkAtom) :
    (∃ msg, lane.push env (some id) a = .error ⟨.invalidArgument msg, lane⟩) ∨
      ∃ lane', lane.push env (some id) a = .ok lane' := by
  have hstarted : lane.ridge.started = true := h.live.mpr hactive
  unfold Lane.push
  split
  · exact .inl ⟨_, rfl⟩
  split
  · exact .inl ⟨_, rfl⟩
  unfold Lane.nrPush
  dsimp only
  split
  · rename_i origin carrier _ _
    split
    · rename_i e he
      obtain ⟨msg, rfl⟩ := nrRefusal_invalid hstarted he
      exact .inl ⟨msg, rfl⟩
    rename_i hadmitted
    have hadmits := admits_of_nrRefusal hadmitted
    obtain ⟨hstopped, -⟩ | ⟨held, hresting, -⟩ := h.ridge
    · rw [hstarted] at hstopped
      cases hstopped
    rw [← h.params] at hretain hdomain
    have hring : lane.ckpts.length ≤ lane.params.mrr.ckptRetain := by
      rw [h.params]
      exact h.ring
    have hmeets : PartialRun.Meets True (lane.nrAdmitted env id a origin carrier) _ :=
      hresting.nrAdmitted hfalls hretain hring hadmits hadmits.lt_origin
        (fun _ => hresting.fits_of_low hdomain hclock) (fun _ => ⟨hdomain, hclock⟩) False.elim
    exact .inr (hmeets.succeeds trivial)
  · exact .inl ⟨_, rfl⟩

theorem Lane.push_or_refuses_inside {p : LaneParams} (hfalls : Falling env.canon)
    (hversion : p.nr.version = 1) {lane₀ lane : Lane} (hcreate : create env p = .ok lane₀)
    (hinside : p.Dims → p.nr.wMaxBins ≤ Nr.ladderDomainBins) {calls : List Call}
    (hrun : PartialRun.run (Lane.call env) lane₀ calls = .ok lane) (hactive : lane.nrActive)
    (hclock : lane.ridge.t + 40960 ≤ 2 ^ 64) (id : Resolver) (a : WorkAtom) :
    (∃ msg, lane.push env (some id) a = .error ⟨.invalidArgument msg, lane⟩) ∨
      ∃ lane', lane.push env (some id) a = .ok lane' := by
  obtain ⟨tables, hconstruct, -⟩ := bind_eq_ok.mp hcreate
  obtain ⟨-, hnr, -, -, -, hretain⟩ := LaneParams.construct_spec hconstruct
  have hdims : p.nr.version = 1 → p.Dims := LaneParams.checkNr_dims hnr
  have hdomain := hinside (hdims hversion)
  have htended : lane.Tended env p (fun _ => True) False :=
    run_invariant
      (fun _ _ _ h hstep => h.call_inside hfalls hdims (by omega) hdomain hstep)
      (create_tended hcreate) hrun
  exact htended.kept.push_or_refuses hfalls (by omega) hdomain hactive hclock id a

/-- A push on a started ridge below half the range either refuses with an argument
error, the lane as it was, or goes through. -/
theorem Lane.run_push_or_refuses {p : LaneParams} (hfalls : Falling env.canon)
    (_hversion : p.nr.version = 1) (hoff : p.nr.allowDigitRepeat = false) {lane₀ lane : Lane}
    (hcreate : create env p = .ok lane₀) {calls : List Call}
    (hrun : PartialRun.run (Lane.call env) lane₀ calls = .ok lane) (hactive : lane.nrActive)
    (hclock : lane.ridge.t < 2 ^ 63) (id : Resolver) (a : WorkAtom) :
    (∃ msg, lane.push env (some id) a = .error ⟨.invalidArgument msg, lane⟩) ∨
      ∃ lane', lane.push env (some id) a = .ok lane' :=
  push_or_refuses_inside hfalls _hversion hcreate (fun hdims => hdims.domain hoff) hrun hactive
    (by omega) id a

/-- The same on a ladder that repeats its digits, when no width passes the domain of the
ladder and the clock is not in its last 40960 bins. -/
theorem Lane.run_repeat_push_or_refuses {p : LaneParams} (hfalls : Falling env.canon)
    (hversion : p.nr.version = 1) (_hrepeat : p.nr.allowDigitRepeat = true)
    (hdomain : p.nr.wMaxBins ≤ Nr.ladderDomainBins) {lane₀ lane : Lane}
    (hcreate : create env p = .ok lane₀) {calls : List Call}
    (hrun : PartialRun.run (Lane.call env) lane₀ calls = .ok lane) (hactive : lane.nrActive)
    (hclock : lane.ridge.t + 40960 ≤ 2 ^ 64) (id : Resolver) (a : WorkAtom) :
    (∃ msg, lane.push env (some id) a = .error ⟨.invalidArgument msg, lane⟩) ∨
      ∃ lane', lane.push env (some id) a = .ok lane' :=
  push_or_refuses_inside hfalls hversion hcreate (fun _ => hdomain) hrun hactive hclock id a

theorem nearDecay_of_le {d : Nat} (hlow : 25 ≤ d) :
    (nearDecay d).val =
      if d ≤ 2160 then 2 ^ 61 + (2160 - d) * 10 ^ 15 else 2 ^ 61 - (d - 2160) * 10 ^ 14 := by
  unfold nearDecay
  rw [Fin.val_ofNat, if_neg (Nat.not_lt.mpr hlow)]
  split
  · omega
  · omega

theorem falling_nearEnv : Falling nearEnv.canon := by
  refine ⟨by decide, ?_⟩
  intro d hd
  have hhead : ∀ d < 25, nearDecay (d + 1) < nearDecay d := by decide
  by_cases hnear : d < 25
  · exact hhead d hnear
  show nearDecay (d + 1) < nearDecay d
  unfold canonMaxDepth at hd
  rw [Fin.lt_def, nearDecay_of_le (by omega), nearDecay_of_le (by omega)]
  by_cases hpast : d ≤ 2160
  · rw [if_pos hpast]
    split
    · omega
    · omega
  · rw [if_neg hpast, if_neg (by omega)]
    omega

/-- Shares that move the clock, a receipt, a change of the width and a rewind. -/
def ridgeCalls : List Call :=
  (punctualShares.map fun x => .push x.1 x.2) ++
    [.setWidth (some fun m => Fin.ofNat _ m.val) 24, .rewind 1]

theorem Lane.exists_run {p : LaneParams} {calls : List Call} {test : Lane → Bool}
    (h : ((create nearEnv p).toOption.bind fun lane₀ =>
      (PartialRun.run (Lane.call nearEnv) lane₀ calls).toOption).any test = true) :
    ∃ lane₀ lane, create nearEnv p = .ok lane₀ ∧
      PartialRun.run (Lane.call nearEnv) lane₀ calls = .ok lane ∧ test lane = true := by
  obtain ⟨lane, hlane, htest⟩ := (any_eq_true _ _).mp h
  obtain ⟨lane₀, hcreate, hrun⟩ := bind_eq_some_iff.mp hlane
  exact ⟨lane₀, lane, toOption_eq_some.mp hcreate, toOption_eq_some.mp hrun, htest⟩

theorem Lane.run_push_or_refuses_ridgeCalls :
    ∃ lane₀ lane, create nearEnv ridgeParams = .ok lane₀ ∧
      PartialRun.run (Lane.call nearEnv) lane₀ ridgeCalls = .ok lane ∧ lane.nrActive ∧
      lane.ridge.t = 112 ∧ ∀ id a,
        (∃ msg, lane.push nearEnv (some id) a = .error ⟨.invalidArgument msg, lane⟩) ∨
          ∃ lane', lane.push nearEnv (some id) a = .ok lane' := by
  obtain ⟨lane₀, lane, hcreate, hrun, hstate⟩ := @exists_run ridgeParams ridgeCalls
    (fun lane => decide (lane.nrActive ∧ lane.ridge.t = 112)) (by decide +kernel)
  obtain ⟨hactive, hclock⟩ := of_decide_eq_true hstate
  refine ⟨lane₀, lane, hcreate, hrun, hactive, hclock, ?_⟩
  exact run_push_or_refuses falling_nearEnv rfl rfl hcreate hrun hactive (by omega)

def repeatRidge (width : Nat) : LaneParams :=
  { ridgeParams with nr :=
      { ridgeParams.nr with
        allowDigitRepeat := true, wMaxBins := width, wDefaultBins := width } }

theorem Lane.run_repeat_push_or_refuses_ridgeCalls :
    ∃ lane₀ lane, create nearEnv (repeatRidge 32) = .ok lane₀ ∧
      PartialRun.run (Lane.call nearEnv) lane₀ ridgeCalls = .ok lane ∧ lane.nrActive ∧
      lane.ridge.t = 112 ∧ ∀ id a,
        (∃ msg, lane.push nearEnv (some id) a = .error ⟨.invalidArgument msg, lane⟩) ∨
          ∃ lane', lane.push nearEnv (some id) a = .ok lane' := by
  obtain ⟨lane₀, lane, hcreate, hrun, hstate⟩ := @exists_run (repeatRidge 32) ridgeCalls
    (fun lane => decide (lane.nrActive ∧ lane.ridge.t = 112)) (by decide +kernel)
  obtain ⟨hactive, hclock⟩ := of_decide_eq_true hstate
  refine ⟨lane₀, lane, hcreate, hrun, hactive, hclock, ?_⟩
  exact run_repeat_push_or_refuses falling_nearEnv rfl rfl (by decide) hcreate hrun hactive
    (by omega)

def wideCalls : List Call :=
  [ridgeShare 1 100 100 false, ridgeShare 1 6000 6000 false].map fun x => .push x.1 x.2

def farShare : Share := ridgeShare 1 13000 13000 false

/-- In a window of 16384 bins the cell of bin 100 is live when the drop edge reaches it. -/
theorem Lane.repeat_push_throws :
    ∃ lane₀ lane f, create nearEnv (repeatRidge 16384) = .ok lane₀ ∧
      PartialRun.run (Lane.call nearEnv) lane₀ wideCalls = .ok lane ∧ lane.nrActive ∧
      lane.ridge.t = 6000 ∧ lane.push nearEnv farShare.1 farShare.2 = .error f ∧
      f.cause = .logicError "v37: NR domain-edge drop of a live record cell" := by
  obtain ⟨lane₀, lane, hcreate, hrun, hstate⟩ := @exists_run (repeatRidge 16384) wideCalls
    (fun lane => decide (lane.nrActive ∧ lane.ridge.t = 6000) &&
      match lane.push nearEnv farShare.1 farShare.2 with
      | .ok _ => false
      | .error f =>
        decide (f.cause = .logicError "v37: NR domain-edge drop of a live record cell"))
    (by decide +kernel)
  rw [Bool.and_eq_true] at hstate
  obtain ⟨hactive, hclock⟩ := of_decide_eq_true hstate.1
  have hthrow := hstate.2
  split at hthrow
  · cases hthrow
  · rename_i f hpush
    exact ⟨lane₀, lane, f, hcreate, hrun, hactive, hclock, hpush, of_decide_eq_true hthrow⟩

end C2Pool.V37
