import C2Pool.V37.RidgeDrop

/-! # The tick of the clock

When the clock moves, the due folds, the width law, the sheds, the drops and the
scalars follow each other.  A tick leads from one lane at rest to the next, and
its records lead back.
-/

namespace C2Pool.V37

open Lane PartialRun UndoLog SortedMap Holding Nat

/-- What the constructor has checked of a declared ridge. -/
structure LaneParams.Dims (p : LaneParams) : Prop where
  cap_pos : 0 < p.nr.foldCap
  cap_le : p.nr.foldCap ≤ Nr.maxFoldCap
  horizon_pos : 0 < p.nr.openHorizonBins
  horizon_lt : p.nr.openHorizonBins < p.nr.wMinBins
  deep : (p.nr.openHorizonBins + Nr.powR p.nr.foldCap) % 2 ^ 64 ≤ p.nr.wMinBins
  min_le : p.nr.wMinBins ≤ p.nr.wDefaultBins
  le_max : p.nr.wDefaultBins ≤ p.nr.wMaxBins
  domain : p.nr.allowDigitRepeat = false → p.nr.wMaxBins ≤ Nr.ladderDomainBins
  retarget_pos : 0 < p.nr.retargetBins
  retarget_dvd : p.nr.retargetBins ∣ p.nr.wMinBins
  ckpt_pos : 0 < p.nr.ckptBins
  located : p.nr.activationPos ≠ none → p.nr.activationPos = p.mrr.activationPos

theorem Nr.checkWidth_eq_ok {d : Nr.RidgeDim} {w : Nat} (h : Nr.checkWidth d w = .ok ()) :
    ¬ (d.retargetBins ≠ 0 ∧ w % d.retargetBins ≠ 0) := by
  obtain ⟨-, h⟩ := of_guard h
  exact (of_guard h).1

variable {p : LaneParams} {lane s s' : Lane} {b t l i : Nat} {c : Nr.Cell} {id : Resolver}
  {env : Env} {sure total : Prop} {held : Holding} {x : Held} {t₀ : Nat} {a : WorkAtom}

theorem LaneParams.checkNrPos_eq_ok (h : p.checkNrPos = .ok ())
    (hfinite : p.nr.activationPos ≠ none) : p.nr.activationPos = p.mrr.activationPos := by
  unfold LaneParams.checkNrPos at h
  split at h
  · rename_i hnone
    exact absurd hnone hfinite
  obtain ⟨-, h⟩ := of_guard h
  obtain ⟨-, h⟩ := of_guard h
  exact not_not.mp (of_guard h).1

theorem LaneParams.checkNr_dims (h : p.checkNr = .ok ()) (hversion : p.nr.version = 1) :
    p.Dims := by
  unfold LaneParams.checkNr at h
  rw [if_neg (by omega)] at h
  obtain ⟨-, h⟩ := of_guard h
  obtain ⟨-, h⟩ := of_guard h
  obtain ⟨-, h⟩ := of_guard h
  obtain ⟨_, hdims, h⟩ := bind_eq_ok.mp h
  obtain ⟨-, hpos⟩ := of_guard h
  obtain ⟨-, hdims⟩ := of_guard hdims
  obtain ⟨hcap, hdims⟩ := of_guard hdims
  obtain ⟨-, hdims⟩ := of_guard hdims
  obtain ⟨-, hdims⟩ := of_guard hdims
  obtain ⟨-, hdims⟩ := of_guard hdims
  obtain ⟨-, hdims⟩ := of_guard hdims
  obtain ⟨_, hmin, hdims⟩ := bind_eq_ok.mp hdims
  obtain ⟨_, -, hdims⟩ := bind_eq_ok.mp hdims
  obtain ⟨_, -, hdims⟩ := bind_eq_ok.mp hdims
  obtain ⟨horder, hdims⟩ := of_guard hdims
  obtain ⟨hdomain, hdims⟩ := of_guard hdims
  obtain ⟨hretarget, hdims⟩ := of_guard hdims
  obtain ⟨hckpt, hdims⟩ := of_guard hdims
  obtain ⟨-, hdims⟩ := of_guard hdims
  obtain ⟨hctx, hdims⟩ := of_guard hdims
  obtain ⟨hhorizon, hdims⟩ := of_guard hdims
  obtain ⟨hdeep, -⟩ := of_guard hdims
  rw [not_or] at hcap hretarget hckpt
  have horder := not_not.mp horder
  refine ⟨pos_of_ne_zero hcap.1, not_lt.mp hcap.2, zero_lt_of_lt (not_le.mp hctx),
    not_le.mp hhorizon, not_lt.mp hdeep, horder.1, horder.2,
    fun hoff => not_lt.mp fun hlt => hdomain ⟨hoff, hlt⟩, pos_of_ne_zero hretarget.1, ?_,
    pos_of_ne_zero hckpt.1, fun hfinite => LaneParams.checkNrPos_eq_ok hpos hfinite⟩
  have hmod := Nr.checkWidth_eq_ok hmin
  exact dvd_of_mod_eq_zero (not_not.mp fun hne => hmod ⟨hretarget.1, hne⟩)

theorem Winlaw.clampU64_mem {lo hi : Nat} (h : lo ≤ hi) (x : Nat) :
    lo ≤ clampU64 x lo hi ∧ clampU64 x lo hi ≤ hi := by
  unfold clampU64
  split
  · exact ⟨le_refl lo, h⟩
  split
  · exact ⟨h, le_refl hi⟩
  · omega

theorem Winlaw.floorToR_mem {lo hi r w : Nat} (hr : r ∣ lo) (hlo : lo ≤ w) (hhi : w ≤ hi) :
    lo ≤ floorToR w r ∧ floorToR w r ≤ hi := by
  unfold floorToR
  split
  · exact ⟨hlo, hhi⟩
  rename_i hpos
  refine ⟨?_, (div_mul_le_self w r).trans hhi⟩
  obtain ⟨q, rfl⟩ := hr
  rw [mul_comm]
  exact mul_le_mul_right r ((le_div_iff_mul_le (pos_of_ne_zero hpos)).mpr
    (by rwa [mul_comm]))

theorem LaneParams.Dims.retarget (h : p.Dims) (dNet width raw span : Nat) :
    p.nr.wMinBins ≤ Winlaw.retargetWidthOver dNet width raw span p.nrWidthParams ∧
      Winlaw.retargetWidthOver dNet width raw span p.nrWidthParams ≤ p.nr.wMaxBins := by
  have hclamp := Winlaw.clampU64_mem (h.min_le.trans h.le_max)
  unfold Winlaw.retargetWidthOver
  split
  · exact Winlaw.floorToR_mem h.retarget_dvd (hclamp _).1 (hclamp _).2
  · exact Winlaw.floorToR_mem h.retarget_dvd (hclamp _).1 (hclamp _).2

/-- The bins and the records of a started lane stand where its clock and its widths let them. -/
structure Lane.Fenced (held : Holding) (lane : Lane) : Prop where
  dims : lane.params.Dims
  started : lane.ridge.started = true
  room : ∀ b x, held.lookup b = some x →
    lane.params.nr.openHorizonBins + Nr.powR lane.params.nr.foldCap ≤ lane.params.nr.wMinBins
  ahead : ∀ b x, held.lookup b = some x → b < lane.ridge.t + Nr.ladderDomainBins
  record : RecordOk lane.ridge.record
  recorded : ∀ b c, lane.ridge.record.lookup b = some c → b ≤ lane.ridge.t
  width : lane.params.nr.wMinBins ≤ lane.ridge.width ∧ lane.ridge.width ≤ lane.params.nr.wMaxBins

theorem Lane.Fenced.of_frame {held' : Holding} (h : lane.Fenced held)
    (hparams : s.params = lane.params) (ht : s.ridge.t = lane.ridge.t)
    (hstarted : s.ridge.started = lane.ridge.started) (hwidth : s.ridge.width = lane.ridge.width)
    (hheld : ∀ b x, held'.lookup b = some x → ∃ x₀, held.lookup b = some x₀)
    (hrecord : RecordOk s.ridge.record) (hrecorded : ∀ b c, s.ridge.record.lookup b = some c →
      ∃ c₀, lane.ridge.record.lookup b = some c₀) : s.Fenced held' := by
  refine ⟨hparams ▸ h.dims, hstarted.trans h.started, ?_, ?_, hrecord, ?_, ?_⟩
  · intro b x hb
    obtain ⟨x₀, hx₀⟩ := hheld b x hb
    rw [hparams]
    exact h.room b x₀ hx₀
  · intro b x hb
    obtain ⟨x₀, hx₀⟩ := hheld b x hb
    rw [ht]
    exact h.ahead b x₀ hx₀
  · intro b c hc
    obtain ⟨c₀, hc₀⟩ := hrecorded b c hc
    rw [ht]
    exact h.recorded b c₀ hc₀
  · rw [hparams, hwidth]
    exact h.width

/-- A lane whose ridge is in order at its clock, up to the scalars. -/
structure Lane.Ordered (env : Env) (held : Holding) (lane : Lane) : Prop
    extends lane.Fenced held where
  holds : lane.Holds env held
  leveled : held.Leveled lane.params.nr.foldCap
    (Holding.sealedBy lane.params.nr.openHorizonBins lane.ridge.t)

/-- A lane between two calls, its ridge started. -/
structure Lane.Resting (env : Env) (held : Holding) (lane : Lane) : Prop
    extends lane.Ordered env held where
  scaled : lane.Scaled env

theorem Lane.lt_nrBBin (hstarted : lane.ridge.started = true) :
    b < lane.nrBBin ↔ b + lane.ridge.width ≤ lane.ridge.t := by
  unfold nrBBin
  rw [if_pos hstarted]
  split
  · omega
  · omega

theorem Lane.Ordered.deep (h : lane.Ordered env held) (hb : held.lookup b = some x)
    (hlt : b < lane.nrBBin) : x.level = lane.params.nr.foldCap := by
  have hroom := h.room b x hb
  have hwidth := h.width.1
  have hfar := (lt_nrBBin h.started).mp hlt
  have hhi := groupHi_lt lane.params.nr.foldCap b
  have hsealed : Holding.sealedBy lane.params.nr.openHorizonBins lane.ridge.t
      lane.params.nr.foldCap (b / Nr.powR lane.params.nr.foldCap) := by
    show groupHi lane.params.nr.foldCap b + lane.params.nr.openHorizonBins ≤ lane.ridge.t
    omega
  have hle := (h.leveled b x hb _ h.dims.cap_pos.ne' (le_refl _)).mpr hsealed
  exact le_antisymm (h.holds.sound.level_le hb) hle

/-! ## Sheds, drops and scalars -/

namespace Holding

/-- What is left after the sheds and the drops of a tick. -/
def trimmed (floor t : Nat) (held : Holding) : Holding :=
  (held.shedBelow floor).dropWhere (beyond t)

theorem lookup_shedBelow (floor b : Nat) :
    (held.shedBelow floor).lookup b =
      (held.lookup b).map fun x => if b < floor then { x with shed := true } else x :=
  lookup_mapValues _ _ _

variable {floor : Nat}

theorem lookup_shedBelow_eq_some {b : Nat} (h : (held.shedBelow floor).lookup b = some x) :
    ∃ x₀, held.lookup b = some x₀ ∧ x.bin = x₀.bin ∧ x.level = x₀.level ∧
      (x.shed = true ↔ x₀.shed = true ∨ b < floor) := by
  rw [lookup_shedBelow] at h
  obtain ⟨x₀, hx₀, rfl⟩ := Option.map_eq_some_iff.mp h
  refine ⟨x₀, hx₀, ?_⟩
  split
  · rename_i hlt
    exact ⟨rfl, rfl, by simp [hlt]⟩
  · rename_i hlt
    exact ⟨rfl, rfl, by simp [hlt]⟩

theorem lookup_trimmed_eq_some {t b : Nat} (h : (held.trimmed floor t).lookup b = some x) :
    ∃ x₀, held.lookup b = some x₀ ∧ x.bin = x₀.bin ∧ x.level = x₀.level ∧
      (x.shed = true ↔ x₀.shed = true ∨ b < floor) ∧
      beyond t x.level (b / Nr.powR x.level) = false := by
  obtain ⟨hshed, hnot⟩ := lookup_dropWhere_eq_some.mp h
  obtain ⟨x₀, hx₀, hbin, hlevel, hiff⟩ := lookup_shedBelow_eq_some hshed
  exact ⟨x₀, hx₀, hbin, hlevel, hiff, hnot⟩

theorem Leveled.trimmed {cap t : Nat} {D : Nat → Nat → Prop} (h : held.Leveled cap D) :
    (held.trimmed floor t).Leveled cap D := by
  intro b x hb l hl hcap
  obtain ⟨x₀, hx₀, -, hlevel, -⟩ := lookup_trimmed_eq_some hb
  rw [hlevel]
  exact h b x₀ hx₀ l hl hcap

end Holding

theorem Lane.Traced.of_equiv {before after after' : Lane} (h : Traced env total before after)
    (hsame : after' ≈ after) (hjournal : after'.journal = after.journal) :
    Traced env total before after' := by
  obtain ⟨ops, hops, hkind, hleads⟩ := h
  exact ⟨ops, hjournal.trans hops, hkind, hleads.of_imp fun s hs => Setoid.trans hs hsame⟩

/-- The end of a tick, and of a change of the width. -/
def Lane.nrTrim (env : Env) (id : Resolver) (lane : Lane) : Attempt Lane := do
  let shed ← lane.nrShedBelowFloor env id
  let dropped ← shed.nrDropBeyondDomain
  dropped.nrRefreshScalars env

theorem beyond_iff_le (hlow : spanHi l i + Nr.ladderDomainBins < 2 ^ 64) :
    beyond t l i = true ↔ spanHi l i + Nr.ladderDomainBins ≤ t := by
  unfold beyond
  rw [decide_eq_true_iff, mod_eq_of_lt hlow]

theorem beyondDomain_iff_le (hlow : c.binHi + Nr.ladderDomainBins < 2 ^ 64) :
    lane.beyondDomain c ↔ c.binHi + Nr.ladderDomainBins ≤ lane.ridge.t := by
  unfold beyondDomain
  rw [mod_eq_of_lt hlow]

/-- Below the end of the 64-bit range, with widths inside the domain of the ladder. -/
structure Lane.Low (lane : Lane) : Prop where
  domain : lane.params.nr.wMaxBins ≤ Nr.ladderDomainBins
  clock : lane.ridge.t + 28672 ≤ 2 ^ 64

theorem Lane.Ordered.groupHi_low (h : lane.Ordered env held) (hlow : lane.Low)
    (hb : held.lookup b = some x) (hl : l ≤ lane.params.nr.foldCap) :
    spanHi l (b / Nr.powR l) + Nr.ladderDomainBins < 2 ^ 64 := by
  have hahead := h.ahead b x hb
  have hclock := hlow.clock
  have hhi : spanHi l (b / Nr.powR l) < b + Nr.powR l := groupHi_lt l b
  have hpow : Nr.powR l ≤ 4096 := (Nr.powR_le (hl.trans h.dims.cap_le)).trans (by decide)
  rw [Nr.ladderDomainBins_eq] at *
  omega

theorem Lane.Ordered.record_low (h : lane.Ordered env held) (hlow : lane.Low)
    (hc : lane.ridge.record.lookup b = some c) : c.binHi + Nr.ladderDomainBins < 2 ^ 64 := by
  have hle := h.recorded b c hc
  have hclock := hlow.clock
  rw [(h.record b c hc).1]
  rw [Nr.ladderDomainBins_eq] at *
  omega

theorem Lane.Holds.cell_member (h : lane.Holds env held)
    (hc : (lane.ridge.cells l).lookup i = some c) :
    ∃ b x, held.lookup b = some x ∧ x.level = l ∧ b / Nr.powR l = i ∧ c.binHi = spanHi l i := by
  obtain ⟨b, x, hb, hlevel, hi⟩ := members_ne_empty.mp (h.shows.cell hc).1
  exact ⟨b, x, hb, hlevel, hi, (h.shows.binLo hc).2.2.1⟩

theorem lookup_shedRecords {floor k : Nat} {record : SortedMap Nat Nr.Cell}
    (hk : (shedRecords floor record).lookup k = some c) :
    ∃ c₀, record.lookup k = some c₀ ∧ c = if k < floor then c₀.carriedWhole else c₀ := by
  unfold shedRecords at hk
  rw [lookup_mapValues] at hk
  obtain ⟨c₀, hc₀, heq⟩ := Option.map_eq_some_iff.mp hk
  exact ⟨c₀, hc₀, heq.symm⟩

/-- What has reached the edge is below the floor, and so it has been shed. -/
theorem Lane.Ordered.shed_of_beyond (h : lane.Ordered env held) (hlow : lane.Low)
    (hb : (held.shedBelow lane.nrBBin).lookup b = some x)
    (hreached : beyond lane.ridge.t x.level (b / Nr.powR x.level) = true) : x.shed = true := by
  have hwidth := h.width.2.trans hlow.domain
  obtain ⟨x₀, hx₀, -, hlevel, hiff⟩ := lookup_shedBelow_eq_some hb
  have hcap : x.level ≤ lane.params.nr.foldCap := hlevel ▸ h.holds.sound.level_le hx₀
  rw [beyond_iff_le (h.groupHi_low hlow hx₀ hcap)] at hreached
  have hle : b ≤ spanHi x.level (b / Nr.powR x.level) := le_groupHi x.level b
  refine hiff.mpr (.inr ((lt_nrBBin h.started).mpr ?_))
  omega

theorem Lane.Ordered.carried_of_beyond (h : lane.Ordered env held) (hlow : lane.Low) {k : Nat}
    (hk : (shedRecords lane.nrBBin lane.ridge.record).lookup k = some c)
    (hreached : lane.beyondDomain c) : c.fullyCarried := by
  have hwidth := h.width.2.trans hlow.domain
  obtain ⟨c₀, hc₀, rfl⟩ := lookup_shedRecords hk
  have hreached : lane.beyondDomain c₀ := (beyondDomain_congr rfl (by split <;> rfl)).mp hreached
  rw [beyondDomain_iff_le (h.record_low hlow hc₀), (h.record k c₀ hc₀).1] at hreached
  have hlt : k < lane.nrBBin := by
    rw [lt_nrBBin h.started]
    omega
  rw [if_pos hlt]
  exact ⟨rfl, rfl⟩

/-- What the trim leaves has not reached the edge, and so it has a scalar. -/
theorem Lane.Ordered.scalar_of_trimmed (h : lane.Ordered env held) (hlow : lane.Low)
    (hheld : s.Holds env (held.trimmed lane.nrBBin lane.ridge.t)) (ht : s.ridge.t = lane.ridge.t)
    (hleft : ∀ k d, s.ridge.record.lookup k = some d ↔
      (shedRecords lane.nrBBin lane.ridge.record).lookup k = some d ∧ ¬ lane.beyondDomain d)
    (hc : c ∈ nrAllCells s.ridge) : ∃ g, s.scalar env c.binHi = .ok g := by
  apply Nr.cellScalar_ok
  rw [ht]
  rcases mem_nrAllCells.mp hc with ⟨l, -, i, hc⟩ | ⟨k, hk⟩
  · obtain ⟨b, x, hb, rfl, rfl, hhi⟩ := hheld.cell_member hc
    obtain ⟨x₀, hx₀, -, hlevel, -, hnot⟩ := lookup_trimmed_eq_some hb
    have hcap : x.level ≤ lane.params.nr.foldCap := hlevel ▸ h.holds.sound.level_le hx₀
    have hedge := mt (beyond_iff_le (h.groupHi_low hlow hx₀ hcap)).mpr (by rw [hnot]; decide)
    rw [hhi]
    exact not_le.mp hedge
  obtain ⟨hk, hnot⟩ := (hleft k c).mp hk
  obtain ⟨c₀, hc₀, rfl⟩ := lookup_shedRecords hk
  have hhi : (if k < lane.nrBBin then c₀.carriedWhole else c₀).binHi = c₀.binHi := by
    split <;> rfl
  rw [beyondDomain_congr rfl hhi, beyondDomain_iff_le (h.record_low hlow hc₀)] at hnot
  rw [hhi]
  exact not_le.mp hnot

theorem record_eq_of_left (hleft : ∀ k d, s.ridge.record.lookup k = some d ↔
      (shedRecords lane.nrBBin lane.ridge.record).lookup k = some d ∧ ¬ lane.beyondDomain d) :
    s.ridge.record = (shedRecords lane.nrBBin lane.ridge.record).filterMap
      fun _ c => if lane.beyondDomain c then none else some c := by
  apply ext_lookup
  intro k
  rw [Option.ext_iff]
  intro d
  rw [hleft, lookup_filterMap, Option.bind_eq_some_iff]
  constructor
  · rintro ⟨hk, hnot⟩
    exact ⟨d, hk, if_neg hnot⟩
  rintro ⟨d', hk, hif⟩
  split at hif
  · cases hif
  rename_i hnot
  cases hif
  exact ⟨hk, hnot⟩

theorem Lane.Ordered.nrTrim (hfalls : Falling env.canon)
    (h : lane.Ordered env held) (hsure : sure → lane.Low) :
    Meets sure (lane.nrTrim env id) fun lane' =>
      lane'.Resting env (held.trimmed lane.nrBBin lane.ridge.t) ∧ Traced env total lane lane' ∧
        lane.Ticked lane' ∧ CellsAlike lane'.ridge.record
          ((shedRecords lane.nrBBin lane.ridge.record).filterMap fun _ c =>
            if lane.beyondDomain c then none else some c) := by
  have hshed : Meets sure (lane.nrShedBelowFloor env id) fun shed =>
      shed.Holds env (held.shedBelow lane.nrBBin) ∧ Traced env total lane shed ∧
        lane.Ticked shed ∧ shed.ridge.record = shedRecords lane.nrBBin lane.ridge.record :=
    h.holds.nrShedBelowFloor hfalls h.dims.cap_le h.record fun b x hb hlt => h.deep hb hlt
  refine hshed.bind ?_
  rintro shed ⟨hholds, htraced, hticked, hrecord⟩
  obtain ⟨hparams, ht, hstarted, -⟩ := hticked.fields
  have hedge : ∀ d, shed.beyondDomain d ↔ lane.beyondDomain d := fun d => beyondDomain_congr ht rfl
  have hrecordOk : RecordOk shed.ridge.record := hrecord ▸ h.record.shed _
  have hgone : sure → (∀ b x, (held.shedBelow lane.nrBBin).lookup b = some x →
        beyond shed.ridge.t x.level (b / Nr.powR x.level) = true → x.shed = true) ∧
      ∀ k d, shed.ridge.record.lookup k = some d → shed.beyondDomain d → d.fullyCarried := by
    intro hyes
    rw [ht, hrecord]
    refine ⟨fun b x hb => h.shed_of_beyond (hsure hyes) hb, ?_⟩
    intro k d hk hreached
    exact h.carried_of_beyond (hsure hyes) hk ((hedge d).mp hreached)
  have hdrop : Meets sure shed.nrDropBeyondDomain fun dropped =>
      dropped.Holds env ((held.shedBelow lane.nrBBin).dropWhere (beyond shed.ridge.t)) ∧
        (∀ b x, (held.shedBelow lane.nrBBin).lookup b = some x →
          beyond shed.ridge.t x.level (b / Nr.powR x.level) = true → x.shed = true) ∧
        Traced env total shed dropped ∧ shed.Ticked dropped ∧ dropped.mmr = shed.mmr ∧
        RecordOk dropped.ridge.record ∧
        ∀ k d, dropped.ridge.record.lookup k = some d ↔
          shed.ridge.record.lookup k = some d ∧ ¬ shed.beyondDomain d :=
    hholds.nrDropBeyondDomain hrecordOk hgone
  refine hdrop.bind ?_
  rintro dropped ⟨hheld, -, htraced', hticked', -, hrecordOk', hleft⟩
  rw [ht] at hheld
  simp only [hrecord, hedge] at hleft
  obtain ⟨hparams', ht', hstarted', -⟩ := hticked'.fields
  have hwholeTicked := hticked.trans hticked'
  have hscalars : sure → ∀ c ∈ nrAllCells dropped.ridge,
      ∃ g, dropped.scalar env c.binHi = .ok g :=
    fun hyes c hc => h.scalar_of_trimmed (hsure hyes) hheld hwholeTicked.fields.2.1 hleft hc
  have hrefresh := refresh_meets (fun l hl => hheld.cells_top
    (hparams'.trans hparams ▸ h.dims.cap_le)
    hl) hscalars
  refine hrefresh.mono ?_
  rintro lane' ⟨hsame, hscaled, hjournal, hticked''⟩
  have hall := hwholeTicked.trans hticked''
  obtain ⟨hpar, hclock, hst, hw, -⟩ := hall.fields
  refine ⟨⟨⟨h.toFenced.of_frame hpar hclock hst hw ?_ (hrecordOk'.of_alike hsame.ridge.record) ?_,
    hheld.of_equiv hsame, ?_⟩, hscaled⟩, (htraced.trans htraced').of_equiv hsame hjournal, hall, ?_⟩
  · intro b x hb
    obtain ⟨x₀, hx₀, -⟩ := lookup_trimmed_eq_some hb
    exact ⟨x₀, hx₀⟩
  · intro b c hc
    obtain ⟨c₁, hc₁, -⟩ := hsame.ridge.record.symm.lookup hc
    obtain ⟨c₀, hc₀, -⟩ := lookup_shedRecords ((hleft b c₁).mp hc₁).1
    exact ⟨c₀, hc₀⟩
  · rw [hpar, hclock]
    exact h.leveled.trimmed
  · rw [← record_eq_of_left hleft]
    exact hsame.ridge.record

/-- Only the width, the period of its law and the journal have changed. -/
def Lane.Rewidened (s s' : Lane) : Prop :=
  ∃ width lastRetargetBin rawCur rawPrev dnetAtBase journal,
    s' = { s with
      journal := journal
      ridge :=
        { s.ridge with
          width := width
          lastRetargetBin := lastRetargetBin
          rawCur := rawCur
          rawPrev := rawPrev
          dnetAtBase := dnetAtBase } }

theorem Lane.Ordered.rewidened {lane' : Lane} (h : lane.Ordered env held)
    (hlane' : lane.Rewidened lane') (hwidth : lane.params.nr.wMinBins ≤ lane'.ridge.width ∧
      lane'.ridge.width ≤ lane.params.nr.wMaxBins) : lane'.Ordered env held := by
  obtain ⟨width, lastRetargetBin, rawCur, rawPrev, dnetAtBase, journal, rfl⟩ := hlane'
  exact ⟨{ h with width := hwidth }, ⟨⟨h.holds.shows.fine, h.holds.shows.cells⟩, h.holds.sound⟩,
    h.leveled⟩

theorem Lane.rewidened_nrMaybeRetarget (lane : Lane) (a : WorkAtom) :
    lane.Rewidened (lane.nrMaybeRetarget a) := by
  unfold Lane.nrMaybeRetarget
  dsimp only
  split
  · exact ⟨lane.ridge.width, lane.ridge.lastRetargetBin, lane.ridge.rawCur, lane.ridge.rawPrev,
      lane.ridge.dnetAtBase, lane.journal, rfl⟩
  · exact ⟨_, _, _, _, _, _, rfl⟩

theorem LaneParams.Dims.nrMaybeRetarget (h : lane.params.Dims)
    (hwidth : lane.params.nr.wMinBins ≤ lane.ridge.width ∧
      lane.ridge.width ≤ lane.params.nr.wMaxBins) (a : WorkAtom) :
    lane.params.nr.wMinBins ≤ (lane.nrMaybeRetarget a).ridge.width ∧
      (lane.nrMaybeRetarget a).ridge.width ≤ lane.params.nr.wMaxBins := by
  unfold Lane.nrMaybeRetarget
  dsimp only
  split
  · exact hwidth
  show _ ≤ ite _ _ _ ∧ ite _ _ _ ≤ _
  split
  · exact hwidth
  · exact h.retarget _ _ _ _

theorem Lane.Ordered.nrMaybeRetarget (h : lane.Ordered env held) (a : WorkAtom) :
    (lane.nrMaybeRetarget a).Ordered env held :=
  h.rewidened (lane.rewidened_nrMaybeRetarget a) (h.dims.nrMaybeRetarget h.width a)

theorem Lane.nrMaybeRetarget_traced (lane : Lane) (a : WorkAtom) :
    Traced env total lane (lane.nrMaybeRetarget a) := by
  unfold Lane.nrMaybeRetarget
  dsimp only
  split
  · exact .refl lane
  refine .of_undo rfl rfl ?_
  intro s hs
  refine .ok { hs with ridge := ?_ }
  exact { hs.ridge with
    width := rfl, lastRetargetBin := rfl, rawCur := rfl, rawPrev := rfl, dnetAtBase := rfl }

/-- A push leaves these alone before its credit. -/
structure Lane.Elapsed (s s' : Lane) : Prop where
  params : s'.params = s.params
  nextPos : s'.nextPos = s.nextPos
  ckpts : s'.ckpts = s.ckpts

theorem Lane.Elapsed.trans {s'' : Lane} (h : s.Elapsed s') (h' : s'.Elapsed s'') :
    s.Elapsed s'' := ⟨h'.params.trans h.params, h'.nextPos.trans h.nextPos, h'.ckpts.trans h.ckpts⟩

theorem Lane.Ticked.elapsed (h : s.Ticked s') : s.Elapsed s' := by
  obtain ⟨_, _, _, _, _, rfl⟩ := h
  exact ⟨rfl, rfl, rfl⟩

theorem Lane.Rewidened.elapsed (h : s.Rewidened s') : s.Elapsed s' := by
  obtain ⟨_, _, _, _, _, _, rfl⟩ := h
  exact ⟨rfl, rfl, rfl⟩

/-- A lane whose clock has moved away from a rest at `t₀`. -/
structure Lane.Moved (env : Env) (sure total : Prop) (held : Holding) (t₀ : Nat) (lane : Lane) :
    Prop extends lane.Overdue env sure total held t₀, lane.Fenced held

theorem Lane.Folding.ordered {start : Lane} {held₀ : Holding}
    (hstart : start.Moved env sure total held₀ t₀) (h : Folding env total start held₀
      (Holding.sealedBy start.params.nr.openHorizonBins start.ridge.t) held lane) :
    lane.Ordered env held := by
  obtain ⟨hparams, ht, hstarted, hwidth, hrecord, -⟩ := h.reshaped.fields
  refine ⟨hstart.toFenced.of_frame hparams ht hstarted hwidth ?_ (hrecord ▸ hstart.record) ?_,
    h.holds, ?_⟩
  · intro b x hb
    obtain ⟨x₀, hx₀, -⟩ := lookup_of_work h.work hb
    exact ⟨x₀, hx₀⟩
  · rw [hrecord]
    exact fun b c hc => ⟨c, hc⟩
  · rw [hparams, ht]
    exact h.leveled

def Holding.Passes (canon : CanonicalTables) (floor t : Nat) (held held' : Holding) : Prop :=
  ∃ folded : Holding, folded.work canon = held.work canon ∧ held' = folded.trimmed floor t

theorem Lane.Moved.nrAfterClockMove (hfalls : Falling env.canon)
    (h : lane.Moved env sure total held t₀) (hsure : sure → lane.Low) :
    Meets sure (lane.nrAfterClockMove env id a) fun lane' =>
      (∃ held', lane'.Resting env held' ∧
        held.Passes env.canon lane'.nrBBin lane.ridge.t held') ∧
        Traced env total lane lane' ∧ lane.Elapsed lane' ∧ lane'.ridge.t = lane.ridge.t := by
  have hfolds := h.toOverdue.nrRunDueFolds
  refine hfolds.bind ?_
  rintro folded ⟨held₁, hfolding⟩
  obtain ⟨hparams, ht, -⟩ := hfolding.reshaped.fields
  have hordered := (hfolding.ordered h).nrMaybeRetarget a
  have hrewidened := folded.rewidened_nrMaybeRetarget a
  have ht' : (folded.nrMaybeRetarget a).ridge.t = lane.ridge.t := by
    obtain ⟨_, _, _, _, _, _, heq⟩ := hrewidened
    rw [heq]
    exact ht
  have hlow : sure → (folded.nrMaybeRetarget a).Low := by
    intro hyes
    obtain ⟨hdomain, hclock⟩ := hsure hyes
    refine ⟨?_, ht' ▸ hclock⟩
    rw [hrewidened.elapsed.params, hparams]
    exact hdomain
  have htrim : Meets sure ((folded.nrMaybeRetarget a).nrTrim env id) fun lane' =>
      lane'.Resting env (held₁.trimmed (folded.nrMaybeRetarget a).nrBBin
        (folded.nrMaybeRetarget a).ridge.t) ∧
        Traced env total (folded.nrMaybeRetarget a) lane' ∧
        (folded.nrMaybeRetarget a).Ticked lane' ∧ CellsAlike lane'.ridge.record
          ((shedRecords (folded.nrMaybeRetarget a).nrBBin
            (folded.nrMaybeRetarget a).ridge.record).filterMap fun _ c =>
              if (folded.nrMaybeRetarget a).beyondDomain c then none else some c) :=
    hordered.nrTrim hfalls hlow
  refine htrim.mono ?_
  rintro lane' ⟨hresting, htraced', hticked, -⟩
  have hfloor : lane'.nrBBin = (folded.nrMaybeRetarget a).nrBBin := by
    obtain ⟨-, hclock, hst, hw, -⟩ := hticked.fields
    unfold nrBBin
    rw [hclock, hst, hw]
  rw [ht', ← hfloor] at hresting
  refine ⟨⟨_, hresting, held₁, hfolding.work, rfl⟩,
    (hfolding.traced.trans (folded.nrMaybeRetarget_traced a)).trans htraced',
    (hfolding.reshaped.ticked.elapsed.trans hrewidened.elapsed).trans hticked.elapsed, ?_⟩
  exact hticked.fields.2.1.trans ht'

/-- A lane with its clock at `t` and the record of its old clock. -/
def Lane.clockAt (lane : Lane) (t : Nat) : Lane :=
  { lane.record (.nrClock lane.ridge.t lane.ridge.started) with
    ridge := { lane.ridge with t := t } }

theorem Nr.Cell.binHi_eq {c' : Nr.Cell} (h : c'.unscaled = c.unscaled) : c'.binHi = c.binHi := by
  have hhi : c'.unscaled.binHi = c.unscaled.binHi := congrArg Nr.Cell.binHi h
  exact hhi

theorem Lane.Scaled.of_alike (h : lane.Scaled env) (hsame : s ≈ lane)
    (hc : (s.ridge.cells l).lookup i = some c) : ∃ g, s.scalar env c.binHi = .ok g := by
  obtain ⟨c', hc', heq⟩ := (hsame.ridge.cells l).symm.lookup hc
  refine ⟨c'.G, ?_⟩
  unfold scalar
  rw [hsame.params, hsame.ridge.t, ← Nr.Cell.binHi_eq heq]
  exact h.cells l i c' hc'

theorem Lane.Scaled.of_alike_record (h : lane.Scaled env) (hsame : s ≈ lane)
    (hc : s.ridge.record.lookup b = some c) : ∃ g, s.scalar env c.binHi = .ok g := by
  obtain ⟨c', hc', heq⟩ := hsame.ridge.record.symm.lookup hc
  refine ⟨c'.G, ?_⟩
  unfold scalar
  rw [hsame.params, hsame.ridge.t, ← Nr.Cell.binHi_eq heq]
  exact h.record b c' hc'

theorem Lane.Resting.nrUndoClock (h : lane.Resting env held) (t : Nat) :
    LaneUndoes env total (.nrClock lane.ridge.t lane.ridge.started) (Alike (lane.clockAt t))
      (Like env lane) := by
  apply Undoes.of_ok
  intro s hs
  have hback : { s with ridge :=
      { s.ridge with t := lane.ridge.t, started := lane.ridge.started } } ≈ lane :=
    ⟨hs.params, hs.tables, hs.nextPos, hs.base, hs.mmr, hs.ckpts, hs.pos,
      ⟨rfl, rfl, hs.ridge.t0, hs.ridge.width, hs.ridge.fine, hs.ridge.cells, hs.ridge.record,
        hs.ridge.lastCkptBin, hs.ridge.lastRetargetBin, hs.ridge.rawCur, hs.ridge.rawPrev,
        hs.ridge.dnetAtBase⟩⟩
  have hholds := h.holds.of_equiv hback
  have hscalars : True → ∀ c ∈ nrAllCells s.ridge, ∃ g, Lane.scalar env
      { s with ridge := { s.ridge with t := lane.ridge.t, started := lane.ridge.started } }
      c.binHi = .ok g := by
    intro _ c hc
    rcases mem_nrAllCells.mp hc with ⟨l, -, i, hc⟩ | ⟨b, hb⟩
    · exact h.scaled.of_alike hback hc
    · exact h.scaled.of_alike_record hback hb
  have hrefresh := refresh_meets (fun l hl => hholds.cells_top (hs.params ▸ h.dims.cap_le) hl)
    hscalars
  obtain ⟨s', hs', hsame, hscaled, -, -⟩ := hrefresh.exists_ok trivial
  exact ⟨s', hs', Setoid.trans s'.unlogged_equiv (Setoid.trans hsame hback),
    hscaled.of_ridge rfl rfl⟩

theorem Lane.Resting.moved (h : lane.Resting env held) (hforward : lane.ridge.t ≤ t)
    (hfits : held.Fits lane.params.nr.foldCap lane.params.nr.openHorizonBins)
    (hnear : sure → held.Near lane.params.nr.foldCap t)
    (htotal : total → (lane.clockAt t).Unfoldable env held) :
    (lane.clockAt t).Moved env sure total held lane.ridge.t :=
  { holds := ⟨⟨h.holds.shows.fine, h.holds.shows.cells⟩, h.holds.sound⟩
    leveled := h.leveled
    fits := hfits
    forward := hforward
    cap := h.dims.cap_le
    near := hnear
    unfoldable := htotal
    dims := h.dims
    started := h.started
    room := h.room
    ahead := fun b x hb => lt_of_lt_of_le (h.ahead b x hb) (Nat.add_le_add_right hforward _)
    record := h.record
    recorded := fun b c hc => (h.recorded b c hc).trans hforward
    width := h.width }

/-- What a tick to the clock `t` leaves. -/
structure Lane.TickedTo (env : Env) (total : Prop) (held : Holding) (lane : Lane) (t : Nat)
    (lane' : Lane) : Prop where
  resting : ∃ held', lane'.Resting env held' ∧
    (lane.ridge.t < t ∧ held.Passes env.canon lane'.nrBBin t held' ∨
      lane.ridge.t = t ∧ held' = held)
  recorded : Recorded env total Op.isPreOp lane lane'
  elapsed : lane.Elapsed lane'
  clock : lane'.ridge.t = t

theorem Lane.Resting.nrTick
    (hfalls : Falling env.canon) (h : lane.Resting env held) (hforward : lane.ridge.t ≤ t)
    (hfits : lane.ridge.t < t → held.Fits lane.params.nr.foldCap lane.params.nr.openHorizonBins)
    (hsure : sure → (lane.clockAt t).Low)
    (hnear : sure → lane.ridge.t < t → held.Near lane.params.nr.foldCap t)
    (htotal : total → lane.ridge.t < t → (lane.clockAt t).Unfoldable env held) :
    Meets sure (lane.nrTick env id a t) (lane.TickedTo env total held t) := by
  have hundo : LaneUndoes env total (.nrClock lane.ridge.t lane.ridge.started)
      (Alike (lane.clockAt t)) (Like env lane) := h.nrUndoClock t
  by_cases hmoves : lane.ridge.t < t
  · have htick : lane.nrTick env id a t = (lane.clockAt t).nrAfterClockMove env id a := by
      unfold Lane.nrTick
      rw [if_pos hmoves]
      rfl
    rw [htick]
    have hmoved := h.moved hforward (hfits hmoves) (fun hyes => hnear hyes hmoves)
      (fun hyes => htotal hyes hmoves)
    refine (hmoved.nrAfterClockMove hfalls hsure).mono ?_
    rintro lane' ⟨⟨held', hresting, hpasses⟩, ⟨ops, hops, hkind, hleads⟩, helapsed, hclock⟩
    have hjournal : lane'.journal =
        (ops ++ [.nrClock lane.ridge.t lane.ridge.started]) ++ lane.journal := by
      rw [hops, List.append_assoc]
      rfl
    refine ⟨⟨held', hresting, .inl ⟨hmoves, hpasses⟩⟩,
      ⟨ops ++ [.nrClock lane.ridge.t lane.ridge.started], hjournal, ?_, ?_⟩, ?_, hclock⟩
    · intro op hop
      rcases List.mem_append.mp hop with hop | hop
      · exact hkind op hop
      · rw [List.mem_singleton.mp hop]
        rfl
    · exact (hleads.of_imp fun s hs => hs.1).append hundo.leads
    · exact { helapsed with }
  have hstays : lane.ridge.t = t := le_antisymm hforward (not_lt.mp hmoves)
  have htick : lane.nrTick env id a t =
      .ok (lane.record (.nrClock lane.ridge.t lane.ridge.started)) := by
    unfold Lane.nrTick
    rw [if_neg hmoves]
  rw [htick]
  refine .ok ⟨⟨held, ⟨{ h with holds := ⟨⟨h.holds.shows.fine, h.holds.shows.cells⟩,
    h.holds.sound⟩ }, h.scaled.of_ridge rfl rfl⟩, .inr ⟨hstays, rfl⟩⟩, ?_, ⟨rfl, rfl, rfl⟩, hstays⟩
  refine .of_undoes rfl rfl ?_
  intro s hs
  refine hundo s ?_
  have hclock : lane.record (.nrClock lane.ridge.t lane.ridge.started) ≈ lane.clockAt t := by
    subst hstays
    exact Setoid.refl _
  exact Setoid.trans hs.1 hclock

end C2Pool.V37
