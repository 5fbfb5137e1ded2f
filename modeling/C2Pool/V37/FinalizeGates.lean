import C2Pool.V37.FinalizeDriver
import C2Pool.V37.Sha256

/-! # Blocks left behind by the finalize driver

A gate is erased when its height is driven, whatever became of its blocks.  A
block that was passed over there keeps its pending row, and with it the payout
that it reserves; so does one that is registered at or below the driven height,
until the next one is driven.
-/

namespace C2Pool.V37.FinalizeDriver

variable {sha : List Byte → Bytes32} {rules : OwedLedgerRules} {dConf : U64} {tipOf : U64 → Bytes32}
  {isCanonical : Bid → Bool} {d : FinalizeDriver}
/-- The driver after the heights below `n`. -/
structure Driven (isCanonical : Bid → Bool) (d : FinalizeDriver) (n : Nat) (d' : FinalizeDriver) :
    Prop where
  same : SameBut d d'
  gates : ∀ g, d'.byFinalizeHeight.lookup g =
    if g.val < n then none else d.byFinalizeHeight.lookup g
  pending : ∀ bid, d'.ledger.isPending bid = true ↔
    d.ledger.isPending bid = true ∧
      ¬ ((∃ g : U64, g.val < n ∧ d.Waits g bid) ∧ d.Live isCanonical bid)
  highWater : n ≤ d'.hw.hwHeight.val + 1

theorem le_hwHeight_advance (hw : SettleHW) (h : U64) (tip : Bytes32) :
    h ≤ (hw.advance h tip).hwHeight := by
  unfold SettleHW.advance
  split
  · rename_i hlt
    exact hlt.le
  · exact le_refl h

theorem driven_first (d : FinalizeDriver) (h : U64) :
    Driven isCanonical d (h.val + 1) (d.driveOneHeight sha rules tipOf isCanonical h).1 := by
  obtain ⟨hsame, hhw, hgates, hpend⟩ := @driveOneHeight_spec sha rules tipOf isCanonical d h
  have hle : ∀ g : U64, g.val < h.val + 1 ↔ g ≤ h := fun g => by rw [Nat.lt_succ_iff, Fin.le_def]
  refine ⟨hsame, ?_, ?_, ?_⟩
  · intro g
    rw [hgates]
    simp only [hle]
  · intro bid
    rw [hpend]
    simp only [hle]
  · rw [hhw]
    have := Fin.le_def.mp (le_hwHeight_advance d.hw h (tipOf h))
    omega

theorem Driven.next {d d' : FinalizeDriver} {h : U64} (hd : Driven isCanonical d h.val d') :
    Driven isCanonical d (h.val + 1)
      (d'.driveOneHeight sha rules tipOf isCanonical h).1 := by
  obtain ⟨hsame, hgates, hpend, hhw⟩ := @driven_first sha rules tipOf isCanonical d' h
  refine ⟨hd.same.trans hsame, ?_, ?_, hhw⟩
  · intro g
    rw [hgates, hd.gates]
    by_cases hlt : g.val < h.val
    · rw [if_pos hlt, ite_self, if_pos (by omega)]
    · rw [if_neg hlt]
  intro bid
  have hwaits : ∀ g : U64, d'.Waits g bid ↔ h.val ≤ g.val ∧ d.Waits g bid := by
    intro g
    unfold Waits
    rw [hd.gates]
    by_cases hlt : g.val < h.val
    · rw [if_pos hlt]
      constructor
      · rintro ⟨bids, hno, -⟩
        cases hno
      · rintro ⟨hge, -⟩
        omega
    · rw [if_neg hlt]
      exact ⟨fun hw => ⟨Nat.le_of_not_lt hlt, hw⟩, fun hw => hw.2⟩
  rw [hpend, hd.pending, hd.same.live]
  simp only [hwaits]
  constructor
  · rintro ⟨⟨hp, hno⟩, hno'⟩
    refine ⟨hp, ?_⟩
    rintro ⟨⟨g, hg, hw⟩, hl⟩
    by_cases hlt : g.val < h.val
    · exact hno ⟨⟨g, hlt, hw⟩, hl⟩
    · exact hno' ⟨⟨g, hg, by omega, hw⟩, hl⟩
  rintro ⟨hp, hno⟩
  refine ⟨⟨hp, ?_⟩, ?_⟩
  · rintro ⟨⟨g, hg, hw⟩, hl⟩
    exact hno ⟨⟨g, by omega, hw⟩, hl⟩
  · rintro ⟨⟨g, hg, -, hw⟩, hl⟩
    exact hno ⟨⟨g, hg, hw⟩, hl⟩

/-- What `advance_to` does: it refuses, does not return, has nothing to drive, or drives every
height up to the new one. -/
theorem advanceTo_cases (hle : d.lastDriven ≤ d.hw.hwHeight) (new : U64) :
    (new < d.hw.hwHeight ∧ ∃ hw, hw.hwHeight = d.hw.hwHeight ∧
      d.advanceTo sha rules tipOf isCanonical new = some ({ d with hw := hw }, 0)) ∨
    (d.hw.hwHeight ≤ new ∧ new.val = 2 ^ 64 - 1 ∧
      d.advanceTo sha rules tipOf isCanonical new = none) ∨
    (d.hw.hwHeight ≤ new ∧ new.val < 2 ^ 64 - 1 ∧ d.lastDriven = new ∧
      d.advanceTo sha rules tipOf isCanonical new = some (d, 0)) ∨
    (d.hw.hwHeight ≤ new ∧ new.val < 2 ^ 64 - 1 ∧ d.lastDriven < new ∧
      ∃ d' n, Driven isCanonical d (new.val + 1) d' ∧
        d.advanceTo sha rules tipOf isCanonical new = some ({ d' with lastDriven := new }, n)) := by
  unfold advanceTo SettleHW.admitCandidateHeight
  by_cases hlt : new < d.hw.hwHeight
  · left
    rw [if_pos hlt]
    exact ⟨hlt, { d.hw with refused := d.hw.refused + 1 }, rfl, rfl⟩
  right
  rw [if_neg hlt]
  have hadm : d.hw.hwHeight ≤ new := not_lt.mp hlt
  dsimp only
  by_cases hlast : new.val = 2 ^ 64 - 1
  · left
    refine ⟨hadm, hlast, ?_⟩
    rw [driveHeights_last hlast]
    rfl
  right
  have hnew : new.val < 2 ^ 64 - 1 := by omega
  have hval : d.lastDriven.val ≤ new.val := Fin.le_def.mp (hle.trans hadm)
  have hsucc := @succ_val d.lastDriven (by omega)
  by_cases heq : d.lastDriven = new
  · left
    refine ⟨hadm, hnew, heq, ?_⟩
    have hstop : ¬ d.lastDriven + 1 ≤ new := by
      rw [Fin.le_def, hsucc, heq]
      omega
    unfold driveHeights
    rw [if_neg hstop, ← heq]
    rfl
  right
  have hne : d.lastDriven.val ≠ new.val := fun h => heq (Fin.ext h)
  have hgt : d.lastDriven < new := Fin.lt_def.mpr (by omega)
  have hrule := @driveHeights_rule sha rules tipOf isCanonical
    (fun n d' => (n = d.lastDriven.val + 1 ∧ d' = d) ∨ Driven isCanonical d n d') new hnew
    (by
      rintro h - d' (⟨-, rfl⟩ | hd)
      · exact .inr (driven_first d' h)
      · exact .inr hd.next)
    (2 ^ 64 + 1) (d.lastDriven + 1) (d, 0) (by omega) (by omega) (.inl ⟨hsucc, rfl⟩)
  obtain ⟨s, hs, hinv⟩ := hrule
  refine ⟨hadm, hnew, hgt, s.1, s.2, ?_, ?_⟩
  · rcases hinv with ⟨hn, -⟩ | hd
    · omega
    · exact hd
  · rw [hs]
    rfl

/-! ## Runs -/

def next (sha : List Byte → Bytes32) (rules : OwedLedgerRules) (dConf : U64)
    (tipOf : U64 → Bytes32) (s : Option FinalizeDriver) (op : Op) : Option FinalizeDriver :=
  s.bind fun d => d.step sha rules dConf tipOf op

/-- No registered block whose gate is reached is pending. -/
def NoneStranded (dConf h : U64) (d : FinalizeDriver) : Prop :=
  ∀ bid f, d.foundHeight.lookup bid = some f → f + dConf ≤ h → d.ledger.isPending bid = false

/-- An admitted `advance_to` that returns strands no block. -/
def StrandsNone (sha : List Byte → Bytes32) (rules : OwedLedgerRules) (dConf : U64)
    (tipOf : U64 → Bytes32) : Option FinalizeDriver → Op → Prop
  | some d, .advance isCanonical new =>
    d.hw.hwHeight ≤ new →
      ∀ d', d.step sha rules dConf tipOf (.advance isCanonical new) = some d' →
        NoneStranded dConf new d'
  | _, _ => True

/-- An admitted `advance_to` finds the pending blocks whose gate is reached canonical and never
orphaned, and has a height to drive where there are any. -/
def FindsLive (dConf : U64) : Option FinalizeDriver → Op → Prop
  | some d, .advance isCanonical new =>
    d.hw.hwHeight ≤ new → new.val ≠ 2 ^ 64 - 1 →
      ∀ bid f, d.foundHeight.lookup bid = some f → f + dConf ≤ new →
        d.ledger.isPending bid = true → d.Live isCanonical bid ∧ d.lastDriven < new
  | _, _ => True

/-- A registered block that is pending waits at its gate. -/
structure Gated (dConf : U64) (d : FinalizeDriver) : Prop where
  driven : d.lastDriven ≤ d.hw.hwHeight
  waits : ∀ bid f, d.foundHeight.lookup bid = some f → d.ledger.isPending bid = true →
    d.Waits (f + dConf) bid

theorem isPending_found (l : OwedLedger) (b : Bid) (args : FoundArgs) {bid : Bid} (hne : bid ≠ b) :
    (l.call sha rules (.found b args)).isPending bid = l.isPending bid := by
  simp only [OwedLedger.call, OwedLedger.onBlockFound, OwedLedger.isPending]
  split
  · rfl
  · simp only [OwedLedger.bump]
    rw [SortedMap.lookup_insert, if_neg hne]

theorem isPending_orphaned (l : OwedLedger) (b : Bid) (settledPayout : Amounts) {bid : Bid}
    (h : (l.call sha rules (.orphaned b settledPayout)).isPending bid = true) :
    l.isPending bid = true := by
  simp only [OwedLedger.call, OwedLedger.onBlockOrphaned] at h
  cases hp : l.pending.lookup b with
  | none =>
    rw [hp] at h
    dsimp only at h
    split at h
    · simp only [OwedLedger.bump, OwedLedger.isPending, OwedLedger.pending_noteResidual] at h
      exact h
    · exact h
  | some p =>
    rw [hp] at h
    simp only [OwedLedger.bump, OwedLedger.isPending] at h
    rw [SortedMap.lookup_erase] at h
    split at h
    · cases h
    · exact h

theorem gated_new (ledger : OwedLedger) (hw : SettleHW) :
    Gated dConf { ledger := ledger, hw := hw } := ⟨Fin.zero_le _, fun _ _ hf => by cases hf⟩

theorem Gated.registerFound (h : Gated dConf d) (c : FinalizeCandidate) :
    Gated dConf (d.registerFound sha rules dConf c) := by
  refine ⟨h.driven, ?_⟩
  intro bid f hf hp
  simp only [FinalizeDriver.registerFound, callLedger] at hf hp
  unfold Waits
  simp only [FinalizeDriver.registerFound, callLedger]
  rw [SortedMap.lookup_insert] at hf
  rw [SortedMap.lookup_insert]
  by_cases hb : bid = c.bid
  · rw [if_pos hb] at hf
    cases hf
    rw [if_pos rfl, hb]
    exact ⟨_, rfl, by simp⟩
  rw [if_neg hb] at hf
  rw [isPending_found _ _ _ hb] at hp
  obtain ⟨bids, hbids, hmem⟩ := h.waits bid f hf hp
  by_cases hg : f + dConf = c.foundHeight + dConf
  · rw [if_pos hg, ← hg, hbids]
    exact ⟨_, rfl, List.mem_append_left _ hmem⟩
  · rw [if_neg hg]
    exact ⟨bids, hbids, hmem⟩

theorem Gated.onOrphaned (h : Gated dConf d) (bid : Bid)
    (settledPayout : Amounts) : Gated dConf (d.onOrphaned sha rules bid settledPayout) := by
  refine ⟨h.driven, ?_⟩
  intro b f hf hp
  exact h.waits b f hf (@isPending_orphaned sha rules d.ledger bid settledPayout b hp)

theorem Gated.advance (h : Gated dConf d) (new : U64) :
    (StrandsNone sha rules dConf tipOf (some d) (.advance isCanonical new) ↔
      FindsLive dConf (some d) (.advance isCanonical new)) ∧
    (FindsLive dConf (some d) (.advance isCanonical new) →
      ∀ d', d.step sha rules dConf tipOf (.advance isCanonical new) = some d' →
        Gated dConf d') := by
  simp only [StrandsNone, FindsLive, step]
  obtain ⟨hlt, hw, hhw, heq⟩ | ⟨hle, hmax, heq⟩ | ⟨hle, hmax, hlast, heq⟩ |
      ⟨hle, hmax, hlast, d', n, hd, heq⟩ :=
    @advanceTo_cases sha rules tipOf isCanonical d h.driven new
  · rw [heq]
    refine ⟨⟨fun _ hle => (not_lt.mpr hle hlt).elim, fun _ hle => (not_lt.mpr hle hlt).elim⟩, ?_⟩
    rintro - d' hd'
    cases hd'
    exact ⟨by rw [hhw]; exact h.driven, h.waits⟩
  · rw [heq]
    refine ⟨⟨fun _ _ hno => (hno hmax).elim, fun _ _ d' hd' => by cases hd'⟩, ?_⟩
    rintro - d' hd'
    cases hd'
  · rw [heq]
    refine ⟨⟨?_, ?_⟩, ?_⟩
    · intro hnone _ _ bid f hf hg hp
      rw [hnone hle d rfl bid f hf hg] at hp
      cases hp
    · intro hfinds _ d' hd' bid f hf hg
      cases hd'
      cases hp : d.ledger.isPending bid with
      | false => rfl
      | true =>
        have hlt := (hfinds hle (by omega) bid f hf hg hp).2
        rw [hlast] at hlt
        exact (lt_irrefl new hlt).elim
    · rintro - d' hd'
      cases hd'
      exact h
  · have hfound : d'.foundHeight = d.foundHeight := hd.same.foundHeight
    have hdue : ∀ bid f, d.foundHeight.lookup bid = some f → f + dConf ≤ new →
        d.ledger.isPending bid = true →
        (d'.ledger.isPending bid = false ↔ d.Live isCanonical bid) := by
      intro bid f hf hg hp
      have hwaits := h.waits bid f hf hp
      have hbelow : (f + dConf).val < new.val + 1 := Nat.lt_succ_of_le (Fin.le_def.mp hg)
      rw [← Bool.not_eq_true, hd.pending]
      constructor
      · intro hno
        by_contra hlive
        exact hno ⟨hp, fun hx => hlive hx.2⟩
      · intro hlive hx
        exact hx.2 ⟨⟨_, hbelow, hwaits⟩, hlive⟩
    rw [heq]
    refine ⟨⟨?_, ?_⟩, ?_⟩
    · intro hnone _ _ bid f hf hg hp
      have hgone := hnone hle _ rfl bid f (by rw [← hf, ← hfound]) hg
      exact ⟨(hdue bid f hf hg hp).mp hgone, hlast⟩
    · intro hfinds _ d'' hd'' bid f hf hg
      cases hd''
      rw [hfound] at hf
      cases hp : d.ledger.isPending bid with
      | false =>
        rw [← Bool.not_eq_true, hd.pending, hp]
        simp
      | true =>
        exact (hdue bid f hf hg hp).mpr (hfinds hle (by omega) bid f hf hg hp).1
    · intro hfinds d'' hd''
      cases hd''
      refine ⟨?_, ?_⟩
      · have := hd.highWater
        exact Fin.le_def.mpr (by dsimp only; omega)
      intro bid f hf hp
      rw [hfound] at hf
      have hp0 := ((hd.pending bid).mp hp).1
      obtain ⟨bids, hbids, hmem⟩ := h.waits bid f hf hp0
      refine ⟨bids, ?_, hmem⟩
      rw [hd.gates, if_neg, hbids]
      intro hbelow
      have hg : f + dConf ≤ new := Fin.le_def.mpr (Nat.le_of_lt_succ hbelow)
      have hgone := (hdue bid f hf hg hp0).mpr (hfinds hle (by omega) bid f hf hg hp0).1
      rw [hgone] at hp
      cases hp

theorem strandsNone_iff_of_gated {s : Option FinalizeDriver} (h : ∀ d, s = some d → Gated dConf d)
    (ops : List Op) :
    Run.Admissible (next sha rules dConf tipOf) (StrandsNone sha rules dConf tipOf) s ops ↔
      Run.Admissible (next sha rules dConf tipOf) (FindsLive dConf) s ops := by
  induction ops generalizing s with
  | nil => exact Iff.rfl
  | cons op ops ih =>
    have hop : StrandsNone sha rules dConf tipOf s op ↔ FindsLive dConf s op := by
      cases s with
      | none => exact Iff.rfl
      | some d =>
        cases op with
        | register c => exact Iff.rfl
        | orphan bid settledPayout => exact Iff.rfl
        | advance isCanonical new => exact ((h d rfl).advance new).1
    have hnext : FindsLive dConf s op →
        ∀ d, next sha rules dConf tipOf s op = some d → Gated dConf d := by
      intro hfinds d' hd'
      cases s with
      | none => cases hd'
      | some d =>
        cases op with
        | register c =>
          cases hd'
          exact (h d rfl).registerFound c
        | orphan bid settledPayout =>
          cases hd'
          exact (h d rfl).onOrphaned bid settledPayout
        | advance isCanonical new => exact ((h d rfl).advance new).2 hfinds d' hd'
    simp only [Run.Admissible]
    rw [hop]
    exact ⟨fun hx => ⟨hx.1, (ih (hnext hx.1)).mp hx.2⟩,
      fun hx => ⟨hx.1, (ih (hnext hx.1)).mpr hx.2⟩⟩

/-- In a run of a driver on any ledger and high-water, every admitted `advance_to` leaves no
registered block pending whose gate is reached, exactly when every one finds the pending blocks that
are due canonical and never orphaned, and has a height to drive where there are any. -/
theorem strandsNone_iff (ledger : OwedLedger) (hw : SettleHW) (ops : List Op) :
    Run.Admissible (next sha rules dConf tipOf) (StrandsNone sha rules dConf tipOf)
        (some { ledger := ledger, hw := hw }) ops ↔
      Run.Admissible (next sha rules dConf tipOf) (FindsLive dConf)
        (some { ledger := ledger, hw := hw }) ops := by
  apply strandsNone_iff_of_gated
  intro d hd
  cases hd
  exact gated_new ledger hw

/-- A block that is not canonical when its height is driven keeps its pending row for good. -/
theorem strands_nonCanonical :
    ¬ Run.Admissible (next Sha256.sha256d {} 1 fun _ => 0)
      (StrandsNone Sha256.sha256d {} 1 fun _ => 0) (some {})
      [.register { bid := [1], foundHeight := 5 }, .advance (fun _ => false) 6,
        .advance (fun _ => true) 9] := by
  rw [strandsNone_iff_of_gated (fun d hd => by cases hd; exact gated_new {} {})]
  intro h
  have hlive := h.2.1 (by decide) (by decide) [1] 5 (by decide) (by decide) (by decide +kernel)
  exact absurd hlive.1.2 (by decide)

end C2Pool.V37.FinalizeDriver
