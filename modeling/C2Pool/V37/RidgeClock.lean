import C2Pool.V37.RidgeSteps

/-! # Work ahead of the clock

A tick moves bins between cells and drops them, and only a credit adds one.  So
the bins of the ridge stay at or before the clock exactly as long as every
receipt names an origin bin that the clock has reached.
-/

namespace C2Pool.V37

open SortedMap PartialRun Function

/-- The bins of the fine layer and of the level-0 cells are at most `bound`. -/
structure Ridge.Within (bound : Nat) (r : Ridge) : Prop where
  fine : ∀ bin fb, r.fine.lookup bin = some fb → bin ≤ bound
  cells : ∀ idx c, (r.cells 0).lookup idx = some c → idx ≤ bound ∧ c.binHi ≤ bound

namespace Lane

variable {env : Env} {lane' : Lane} {id : Resolver} {a : WorkAtom} {bound t : Nat} {lane : Lane}

/-- The clock stands and no bin lies beyond the bound. -/
structure Bounded (bound t : Nat) (lane : Lane) : Prop where
  within : lane.ridge.Within bound
  clock : lane.ridge.t = t
  started : lane.ridge.started = true

theorem Bounded.nrFoldGroup {level pidx : Nat} (hlevel : level ≠ 0) (h : lane.Bounded bound t)
    (hok : lane.nrFoldGroup env level pidx = .ok lane') : lane'.Bounded bound t := by
  obtain ⟨-, fine, g, hfine, -, -, rfl⟩ := nrFoldGroup_eq_ok hok
  obtain ⟨hwithin, ht, hstarted⟩ := h
  refine ⟨⟨?_, ?_⟩, ht, hstarted⟩
  · intro bin fb hbin
    have hlook := (tryMap_eq_ok hfine).2 bin
    rw [show fine.lookup bin = some fb from hbin] at hlook
    obtain ⟨old, hold, -⟩ := Option.bind_eq_some_iff.mp hlook.symm
    exact hwithin.fine bin old hold
  intro idx c hc
  apply hwithin.cells idx c
  have hzero : (lane.afterFold level pidx fine g).ridge.cells 0 =
      if level = 1 then (lane.ridge.cells 0).cutOut (pidx * Nr.rollup)
        (pidx * Nr.rollup + Nr.rollup - 1)
      else lane.ridge.cells 0 := by
    show Function.update (Function.update lane.ridge.cells (level - 1) _) level _ 0 = _
    rw [update_of_ne (Ne.symm hlevel)]
    split
    · rename_i hone
      subst hone
      rfl
    · rename_i hone
      exact update_of_ne (by omega) _ _
  rw [hzero] at hc
  split at hc
  · rw [lookup_cutOut] at hc
    split at hc
    · cases hc
    · exact hc
  · exact hc

theorem Bounded.nrRunDueFolds (h : lane.Bounded bound t)
    (hok : lane.nrRunDueFolds env = .ok lane') : lane'.Bounded bound t := by
  apply foldlM_invariant _ h hok
  intro s l s' _ hs hlevel
  apply foldlM_invariant _ hs hlevel
  intro u pidx u' _ hu hgroup
  exact hu.nrFoldGroup (Nat.succ_ne_zero l) hgroup

theorem Bounded.nrMaybeRetarget (h : lane.Bounded bound t) (a : WorkAtom) :
    (lane.nrMaybeRetarget a).Bounded bound t := by
  unfold Lane.nrMaybeRetarget
  dsimp only
  split
  · exact h
  · exact ⟨⟨h.within.fine, h.within.cells⟩, h.clock, h.started⟩

theorem Bounded.nrShedBin {e : Nat × Nr.FineBin} (h : lane.Bounded bound t)
    (hok : lane.nrShedBin env id e = .ok lane') : lane'.Bounded bound t := by
  obtain ⟨l, idx, c₀, -, hc₀, hcases⟩ := nrShedBin_eq_ok hok
  have hafter : (lane.afterShed e l idx (shedInto c₀ e.2)).Bounded bound t := by
    refine ⟨⟨?_, ?_⟩, h.clock, h.started⟩
    · intro bin fb hbin
      have hlook : (lane.ridge.fine.erase e.1).lookup bin = some fb := hbin
      rw [lookup_erase] at hlook
      split at hlook
      · cases hlook
      · exact h.within.fine bin fb hlook
    intro i c hc
    have hlook : (Function.update lane.ridge.cells l
        ((lane.ridge.cells l).insert idx (shedInto c₀ e.2)) 0).lookup i = some c := hc
    by_cases hl : 0 = l
    · subst hl
      rw [update_self, lookup_insert] at hlook
      split at hlook
      · rename_i hi
        cases hlook
        rw [hi]
        exact h.within.cells idx c₀ hc₀
      · exact h.within.cells i c hlook
    · rw [update_of_ne hl] at hlook
      exact h.within.cells i c hlook
  obtain ⟨-, -, rfl⟩ | ⟨-, rfl⟩ := hcases
  · exact { hafter with within := ⟨hafter.within.fine, hafter.within.cells⟩ }
  · exact { hafter with within := ⟨hafter.within.fine, hafter.within.cells⟩ }

section

variable (h : lane.Bounded bound t)
include h

theorem Bounded.nrShedBelowFloor
    (hok : lane.nrShedBelowFloor env id = .ok lane') : lane'.Bounded bound t := by
  obtain ⟨shed, hshed, hrecord⟩ := nrShedBelowFloor_eq_ok hok
  have hbins : shed.Bounded bound t :=
    foldlM_invariant (fun _ _ _ _ hs hstep => hs.nrShedBin hstep) h hshed
  apply foldlM_invariant _ hbins hrecord
  intro s e s' _ hs hstep
  obtain ⟨-, rfl⟩ | ⟨-, rfl⟩ := nrShedRecordCell_eq_ok hstep
  · exact hs
  · exact ⟨⟨hs.within.fine, hs.within.cells⟩, hs.clock, hs.started⟩

theorem Bounded.nrDropBeyondDomain
    (hok : lane.nrDropBeyondDomain = .ok lane') : lane'.Bounded bound t := by
  obtain ⟨cells, hcells, hrecord⟩ := nrDropBeyondDomain_eq_ok hok
  have hdropped : cells.Bounded bound t := by
    apply foldlM_invariant _ h hcells
    intro s l s' _ hs hlevel
    apply foldlM_invariant _ hs hlevel
    intro u e u' _ hu hstep
    obtain ⟨-, rfl⟩ | ⟨-, -, rfl⟩ := nrDropCell_eq_ok hstep
    · exact hu
    refine ⟨⟨hu.within.fine, ?_⟩, hu.clock, hu.started⟩
    intro i c hc
    have hlook : (Function.update u.ridge.cells l ((u.ridge.cells l).erase e.1) 0).lookup i =
        some c := hc
    by_cases hl : 0 = l
    · subst hl
      rw [update_self, lookup_erase] at hlook
      split at hlook
      · cases hlook
      · exact hu.within.cells i c hlook
    · rw [update_of_ne hl] at hlook
      exact hu.within.cells i c hlook
  apply foldlM_invariant _ hdropped hrecord
  intro s e s' _ hs hstep
  obtain ⟨-, rfl⟩ | ⟨-, -, rfl⟩ := nrDropRecordCell_eq_ok hstep
  · exact hs
  · exact ⟨⟨hs.within.fine, hs.within.cells⟩, hs.clock, hs.started⟩

theorem Bounded.nrRefreshScalars
    (hok : lane.nrRefreshScalars env = .ok lane') : lane'.Bounded bound t := by
  obtain ⟨-, rfl⟩ := nrRefreshScalars_eq_ok hok
  refine ⟨⟨h.within.fine, ?_⟩, h.clock, h.started⟩
  intro i c hc
  have hlook : ((lane.ridge.cells 0).filterMap fun _ c => lane.rescale env c).lookup i =
      some c := hc
  rw [lookup_filterMap] at hlook
  obtain ⟨old, hold, hnew⟩ := Option.bind_eq_some_iff.mp hlook
  obtain ⟨g, -, rfl⟩ := Option.map_eq_some_iff.mp hnew
  exact h.within.cells i old hold

theorem Bounded.nrAfterClockMove (hok : lane.nrAfterClockMove env id a = .ok lane') :
    lane'.Bounded bound t := by
  obtain ⟨folded, shed, dropped, hfolded, hshed, hdropped, hlast⟩ := nrAfterClockMove_eq_ok hok
  have hwidth := (h.nrRunDueFolds hfolded).nrMaybeRetarget a
  exact ((hwidth.nrShedBelowFloor hshed).nrDropBeyondDomain hdropped).nrRefreshScalars hlast

theorem Bounded.nrMaybeCheckpoint (prospective : Nat) :
    (lane.nrMaybeCheckpoint prospective).Bounded bound t := by
  unfold Lane.nrMaybeCheckpoint nrTakeCheckpoint
  dsimp only
  split
  · exact h
  · exact ⟨⟨h.within.fine, h.within.cells⟩, h.clock, h.started⟩

end

theorem Within.mono {r : Ridge} {bound bound' : Nat} (h : r.Within bound) (hle : bound ≤ bound') :
    r.Within bound' := ⟨fun bin fb hbin => (h.fine bin fb hbin).trans hle,
    fun idx c hc => ⟨(h.cells idx c hc).1.trans hle, (h.cells idx c hc).2.trans hle⟩⟩

theorem Bounded.nrTick {prospective : Nat} (h : lane.Bounded t t) (hforward : t ≤ prospective)
    (hok : lane.nrTick env id a prospective = .ok lane') :
    lane'.Bounded prospective prospective := by
  unfold Lane.nrTick at hok
  have hmoved := Within.mono h.within hforward
  split at hok
  · refine Bounded.nrAfterClockMove ?_ hok
    exact ⟨{ hmoved with }, rfl, h.started⟩
  cases hok
  have hclock := h.clock
  refine ⟨{ hmoved with }, ?_, h.started⟩
  show lane.ridge.t = prospective
  omega

def NoneAhead (lane : Lane) : Prop :=
  (∀ e ∈ lane.ridge.fine.entries, e.1 ≤ lane.ridge.t) ∧
    ∀ e ∈ (lane.ridge.cells 0).entries, e.1 ≤ lane.ridge.t ∧ e.2.binHi ≤ lane.ridge.t

theorem noneAhead_iff {lane : Lane} : lane.NoneAhead ↔ lane.ridge.Within lane.ridge.t := by
  constructor
  · rintro ⟨hfine, hcells⟩
    exact ⟨fun bin fb h => hfine (bin, fb) (mem_entries_iff.mpr h),
      fun idx c h => hcells (idx, c) (mem_entries_iff.mpr h)⟩
  intro h
  exact ⟨fun e he => h.fine e.1 e.2 (mem_entries_iff.mp he),
    fun e he => h.cells e.1 e.2 (mem_entries_iff.mp he)⟩

theorem nrOpenCell_binHi {bin : Nat} {c : Nr.Cell} (h : lane.nrOpenCell env bin = .ok c) :
    c.binHi = bin ∨ (lane.ridge.cells 0).lookup bin = some c := by
  unfold nrOpenCell at h
  dsimp only at h
  split at h
  · obtain ⟨g, -, h⟩ := bind_eq_ok.mp h
    cases h
    exact .inl rfl
  rename_i hused
  cases hlook : (lane.ridge.cells 0).lookup bin with
  | none =>
    rw [hlook] at hused
    exact absurd ⟨rfl, rfl⟩ hused
  | some old =>
    rw [hlook] at h
    cases h
    exact .inr rfl

theorem Bounded.nrCredit {bin : Nat} (h : lane.Bounded t t)
    (hok : lane.nrCredit env a bin = .ok lane') : lane'.NoneAhead ↔ bin ≤ t := by
  obtain ⟨-, c, v, kept, hopen, -, -, rfl⟩ := nrCredit_eq_ok hok
  have hclock : (lane.afterCredit a bin c kept v).ridge.t = t := h.clock
  rw [noneAhead_iff, hclock]
  constructor
  · intro hwithin
    apply hwithin.fine bin (lane.nrCreditBin a bin (lane.fineAt bin) v)
    show (lane.ridge.fine.insert bin _).lookup bin = _
    rw [lookup_insert, if_pos rfl]
  intro hbin
  refine ⟨?_, ?_⟩
  · intro x fb hx
    have hlook : (lane.ridge.fine.insert bin _).lookup x = some fb := hx
    rw [lookup_insert] at hlook
    split at hlook
    · rename_i heq
      exact heq ▸ hbin
    · exact h.within.fine x fb hlook
  intro x cell hx
  have hlook : ((lane.ridge.cells 0).insert bin (creditInto c a _ kept v)).lookup x =
      some cell := hx
  rw [lookup_insert] at hlook
  split at hlook
  · rename_i heq
    cases hlook
    refine ⟨heq ▸ hbin, ?_⟩
    show c.binHi ≤ t
    rcases nrOpenCell_binHi hopen with hhi | hold
    · exact hhi ▸ hbin
    · exact (h.within.cells bin c hold).2
  · exact h.within.cells x cell hlook

theorem nrRefusal_eq_none {origin carrier : Bin} (h : lane.nrRefusal a origin carrier = none) :
    origin ≤ carrier ∧ lane.ridge.started = true := by
  unfold nrRefusal at h
  split at h
  · cases h
  rename_i hle
  split at h
  · cases h
  rename_i hstarted
  exact ⟨not_lt.mp hle, by simpa using hstarted⟩

theorem NoneAhead.nrPush {resolver : Option Resolver}
    (h : lane.NoneAhead) (hok : lane.nrPush env resolver a = .ok lane') :
    lane'.ridge.started = true ∧ (lane'.NoneAhead ↔
      (a.isReceipt = true → ∀ origin ∈ a.originBin, origin.val ≤ lane.ridge.t)) := by
  obtain ⟨id, origin, carrier, -, horigin, -, hadmit, hok⟩ := nrPush_eq_ok hok
  obtain ⟨ticked, htick, hcredit⟩ := nrAdmitted_eq_ok hok
  obtain ⟨hle, hstarted⟩ := nrRefusal_eq_none hadmit
  have hwithin := noneAhead_iff.mp h
  have hforward : lane.ridge.t ≤ lane.nrProspective a carrier := by
    unfold nrProspective
    split
    · exact Nat.le_refl _
    · exact Nat.le_max_left _ _
  have hticked : ticked.Bounded (lane.nrProspective a carrier) (lane.nrProspective a carrier) := by
    generalize lane.nrProspective a carrier = prospective at htick hforward ⊢
    exact Bounded.nrTick (Bounded.nrMaybeCheckpoint ⟨hwithin, rfl, hstarted⟩ prospective)
      hforward htick
  have hlast : lane'.ridge.started = true := by
    obtain ⟨-, c, v, kept, -, -, -, rfl⟩ := nrCredit_eq_ok hcredit
    exact hticked.started
  refine ⟨hlast, (hticked.nrCredit hcredit).trans ?_⟩
  have hle : origin.val ≤ carrier.val := hle
  unfold nrProspective
  rw [horigin]
  constructor
  · rintro hbin hreceipt _ ⟨⟩
    rwa [if_pos hreceipt] at hbin
  intro hbin
  split
  · rename_i hreceipt
    exact hbin hreceipt origin rfl
  · omega

/-! ## Runs -/

/-- A lane of a run: no bin lies ahead of the clock, and before the migration
there is no bin at all. -/
structure Punctual (lane : Lane) : Prop where
  none : lane.NoneAhead
  empty : lane.ridge.started = false → lane.ridge.fine = ∅ ∧ lane.ridge.cells 0 = ∅

/-- A receipt of a ridge push names an origin bin that the clock has reached. -/
def OnTime (lane : Lane) (x : Share) : Prop :=
  lane.nrActive → x.2.isReceipt = true → ∀ origin ∈ x.2.originBin, origin.val ≤ lane.ridge.t

theorem noneAhead_of_empty (hfine : lane.ridge.fine = ∅)
    (hcells : lane.ridge.cells 0 = ∅) : lane.NoneAhead := by
  unfold NoneAhead
  rw [hfine, hcells]
  exact ⟨(fun _ he => nomatch he), (fun _ he => nomatch he)⟩

theorem Punctual.push {x : Share} (h : lane.Punctual) (hok : lane.pushShare env x = .ok lane') :
    (lane'.NoneAhead ↔ lane.OnTime x) ∧ (lane'.NoneAhead → lane'.Punctual) := by
  obtain ⟨-, -, ⟨hactive, hpush⟩ | ⟨hactive, pushed, hpushed, hcases⟩⟩ := push_eq_ok hok
  · obtain ⟨hstarted, hiff⟩ := h.none.nrPush hpush
    refine ⟨hiff.trans ⟨fun hbin _ => hbin, fun hbin => hbin hactive⟩, ?_⟩
    intro hnone
    refine ⟨hnone, fun hoff => ?_⟩
    rw [hstarted] at hoff
    cases hoff
  obtain ⟨hridge, -, -⟩ := pushPositional_ridge hpushed
  have hontime : lane.OnTime x := fun hon => absurd hon hactive
  have hpunctual : pushed.Punctual := by
    refine ⟨?_, ?_⟩
    · unfold NoneAhead
      rw [hridge]
      exact h.none
    · rw [hridge]
      exact h.empty
  have hdone : lane'.Punctual := by
    obtain ⟨-, rfl⟩ | ⟨-, carrier, -, rfl⟩ := hcases
    · exact hpunctual
    split
    · rename_i hmigrate
      obtain ⟨hfine, hcells⟩ := hpunctual.empty hmigrate.2
      exact ⟨noneAhead_of_empty hfine hcells, fun hoff => nomatch hoff⟩
    · exact hpunctual
  exact ⟨⟨fun _ => hontime, fun _ => hdone.none⟩, fun _ => hdone⟩

/-- Along a run of accepted pushes no bin of the fine layer and no level-0 cell
lies ahead of the clock if and only if every receipt is on time. -/
theorem run_noneAhead_iff {env : Env} {p : LaneParams} (_hridge : p.nr.activationPos ≠ none)
    {lane₀ last : Lane} (hcreate : create env p = .ok lane₀) {shares : List Share}
    (hrun : PartialRun.run (pushShare env) lane₀ shares = .ok last) :
    (∀ done rest lane, shares = done ++ rest →
        PartialRun.run (pushShare env) lane₀ done = .ok lane → lane.NoneAhead) ↔
      ∀ done x rest lane, shares = done ++ x :: rest →
        PartialRun.run (pushShare env) lane₀ done = .ok lane → lane.OnTime x := by
  have hstart : lane₀.Punctual := by
    obtain ⟨tables, -, hlane⟩ := bind_eq_ok.mp hcreate
    cases hlane
    exact ⟨noneAhead_of_empty rfl rfl, fun _ => ⟨rfl, rfl⟩⟩
  clear hcreate
  induction shares generalizing lane₀ with
  | nil =>
    constructor
    · intro _ done x rest lane hsplit
      simp at hsplit
    intro _ done rest lane hsplit hdone
    obtain ⟨rfl, -⟩ := List.append_eq_nil_iff.mp hsplit.symm
    cases hdone
    exact hstart.none
  | cons x xs ih =>
    obtain ⟨next, hnext, hrest⟩ := bind_eq_ok.mp hrun
    obtain ⟨hiff, hkeeps⟩ := hstart.push hnext
    have hinit : ∀ done lane, PartialRun.run (pushShare env) next done = .ok lane →
        PartialRun.run (pushShare env) lane₀ (x :: done) = .ok lane := by
      intro done lane hdone
      exact bind_eq_ok.mpr ⟨next, hnext, hdone⟩
    constructor
    · intro hall done y rest lane hsplit hdone
      have hnone : next.NoneAhead := hall [x] xs next rfl (bind_eq_ok.mpr ⟨next, hnext, rfl⟩)
      cases done with
      | nil =>
        cases hsplit
        cases hdone
        exact hiff.mp hnone
      | cons x' done =>
        cases hsplit
        obtain ⟨next', hnext', hdone⟩ := bind_eq_ok.mp hdone
        rw [hnext] at hnext'
        cases hnext'
        refine (ih hrest (hkeeps hnone)).mp ?_ done y rest lane rfl hdone
        intro done' rest' lane' hsplit' hdone'
        exact hall (x :: done') rest' lane' (by rw [hsplit']; rfl) (hinit _ _ hdone')
    intro hall done rest lane hsplit hdone
    have hnone : next.NoneAhead := hiff.mpr (hall [] x xs lane₀ rfl rfl)
    cases done with
    | nil =>
      cases hdone
      exact hstart.none
    | cons x' done =>
      cases hsplit
      obtain ⟨next', hnext', hdone⟩ := bind_eq_ok.mp hdone
      rw [hnext] at hnext'
      cases hnext'
      refine (ih hrest (hkeeps hnone)).mpr ?_ done rest lane rfl hdone
      intro done' y rest' lane' hsplit' hdone'
      exact hall (x :: done') y rest' lane' (by rw [hsplit']; rfl) (hinit _ _ hdone')

/-- The first entries of the compiled-in table, and a falling line through the
half-life behind them. -/
def nearDecay (d : Nat) : U64 :=
  Fin.ofNat _
    (if d < 25 then
      [4611686018427387904, 4610206359018591605, 4608727174358500507, 4607248464294791492,
        4605770228675190317, 4604292467347471594, 4602815180159458779, 4601338366959024152,
        4599862027594088804, 4598386161912622619, 4596910769762644262, 4595435850992221160,
        4593961405449469489, 4592487432982554154, 4591013933439688779, 4589540906669135687,
        4588068352519205888, 4586596270838259060, 4585124661474703533, 4583653524276996280,
        4582182859093642892, 4580712665773197569, 4579242944164263102, 4577773694115490857,
        4576304915475580764].getD d 0
    else if d ≤ 2160 then 2 ^ 61 + (2160 - d) * 10 ^ 15
    else 2 ^ 61 - (d - 2160) * 10 ^ 14)

def nearEnv : Env :=
  ⟨⟨nearDecay, fun j => Fin.ofNat _ (2 ^ 62 + j)⟩, fun bytes => Fin.ofNat _ bytes.length⟩

def ridgeParams : LaneParams :=
  { window := 8, c0 := 8, rollup := 8, journalDepth := 4
    mrr := { activationPos := some 0 }
    nr :=
      { activationPos := some 0, version := 1, foldCap := 1, openHorizonBins := 3
        wMinBins := 16, wMaxBins := 32, wDefaultBins := 16, coverageBlocks := 1
        binSeconds := 600, retargetBins := 8, ckptBins := 8, nCtxBins := 2 } }

def binOf (n : Nat) : Option Bin := if h : n < 2 ^ 64 - 1 then some ⟨n, h⟩ else none

def ridgeShare (m : MinerId) (origin carrier : Nat) (receipt : Bool) : Share :=
  (some fun m => Fin.ofNat _ m.val,
    { miner := m, wRaw := 5, originBin := binOf origin, carrierBin := binOf carrier
      isReceipt := receipt })

/-- A receipt with its origin five bins ahead of the clock is accepted. -/
theorem receipt_ahead_of_clock :
    ∃ lane, afterShares nearEnv ridgeParams
        [ridgeShare 1 100 100 false, ridgeShare 2 105 105 true] = some lane ∧
      lane.ridge.t = 100 ∧ ¬ lane.NoneAhead := by
  have hrun : (afterShares nearEnv ridgeParams
      [ridgeShare 1 100 100 false, ridgeShare 2 105 105 true]).any (fun lane =>
        decide (lane.ridge.t = 100 ∧ ∃ e ∈ lane.ridge.fine.entries, e.1 = 105)) = true := by
    decide +kernel
  obtain ⟨lane, hlane, hahead⟩ := (Option.any_eq_true _ _).mp hrun
  obtain ⟨ht, e, he, hbin⟩ := of_decide_eq_true hahead
  refine ⟨lane, hlane, ht, ?_⟩
  intro hnone
  have hle := hnone.1 e he
  omega

def punctualShares : List Share :=
  [ridgeShare 1 100 100 false, ridgeShare 2 100 101 false, ridgeShare 1 101 101 true,
    ridgeShare 2 110 112 false, ridgeShare 1 110 112 true]

theorem run_noneAhead_iff_punctualShares :
    ∃ lane₀ last, create nearEnv ridgeParams = .ok lane₀ ∧
      PartialRun.run (pushShare nearEnv) lane₀ punctualShares = .ok last ∧
      ((∀ done rest lane, punctualShares = done ++ rest →
          PartialRun.run (pushShare nearEnv) lane₀ done = .ok lane → lane.NoneAhead) ↔
        ∀ done x rest lane, punctualShares = done ++ x :: rest →
          PartialRun.run (pushShare nearEnv) lane₀ done = .ok lane → lane.OnTime x) := by
  have hrun : (afterShares nearEnv ridgeParams punctualShares).isSome = true := by
    decide +kernel
  obtain ⟨last, hlast⟩ := Option.isSome_iff_exists.mp hrun
  obtain ⟨lane₀, hcreate, hrun⟩ := afterShares_eq_some hlast
  exact ⟨lane₀, last, hcreate, hrun, run_noneAhead_iff (by decide) hcreate hrun⟩

end Lane

end C2Pool.V37
