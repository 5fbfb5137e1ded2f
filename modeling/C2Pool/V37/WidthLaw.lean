import C2Pool.Lib.Limbs
import C2Pool.V37.RidgeTick

/-! # The width law

`retarget_width_over` on the words it computes with, its closed form, and what
follows for one retarget and for a run of them under a constant rate: the width
settles on the clamped target.
-/

namespace C2Pool.V37

open Limbs Function Nat

structure WinGate.Accepted (w : WinGate) : Prop where
  damp : w.dampFactor = 4
  step : 0 < w.retargetBins
  min_pos : 0 < w.wMinBins
  min_dvd : w.retargetBins ∣ w.wMinBins
  default_dvd : w.retargetBins ∣ w.wDefaultBins
  max_dvd : w.retargetBins ∣ w.wMaxBins
  min_damp : w.dampFactor ∣ w.wMinBins
  max_damp : w.dampFactor ∣ w.wMaxBins
  min_le : w.wMinBins ≤ w.wDefaultBins
  le_max : w.wDefaultBins ≤ w.wMaxBins
  max_lt : w.wMaxBins < 2 ^ 64
  coverage_lt : w.coverageBlocks < 2 ^ 64

namespace Winlaw

/-- `U256::mul_small` on its four limbs. -/
def mulSmallLimbs (v : List Nat) (m : Nat) : List Nat :=
  let out := Limbs.mulCarry 64 m v 0
  if out.getD 4 0 ≠ 0 then List.replicate 4 (2 ^ 64 - 1) else out.take 4

/-- `U256::div_u128_to_u64` on its four limbs. -/
def divLimbs (v : List Nat) (divisor : Nat) : Nat :=
  if divisor = 0 then 0
  else
    let s := Limbs.divide 64 v (Limbs.ofNat 64 4 divisor)
    if s.high then 2 ^ 64 - 1 else s.quot

/-- `floor_to_R`, the product on 64 bits. -/
def floorWord (w r : Nat) : Nat := if r = 0 then w else w / r * r % 2 ^ 64

/-- `damp_ratio`, the product on 64 bits. -/
def dampWord (old target f : Nat) : Nat :=
  if f ≤ 1 then old
  else
    let hi := if (2 ^ 64 - 1) / f < old then 2 ^ 64 - 1 else old * f % 2 ^ 64
    let lo := old / f
    if target < lo then lo else if hi < target then hi else target

/-- `retarget_width_over` on words. -/
def retargetWords (dNet : List Nat) (width raw span : Nat) (w : WinGate) : Nat :=
  if raw = 0 ∨ width = 0 ∨ span = 0 then
    floorWord (clampU64 w.wDefaultBins w.wMinBins w.wMaxBins) w.retargetBins
  else
    let num := mulSmallLimbs (mulSmallLimbs dNet w.coverageBlocks) span
    floorWord (clampU64 (dampWord width (divLimbs num raw) w.dampFactor) w.wMinBins w.wMaxBins)
      w.retargetBins

variable {v : List Nat} {raw span : Nat} {w : WinGate} {r x y width : Nat}

theorem mulSmallLimbs_spec {m : Nat} (hv : Limbs.Bounded 64 v)
    (hlength : v.length = 4) (hm : m < 2 ^ 64) :
    Limbs.Bounded 64 (mulSmallLimbs v m) ∧ (mulSmallLimbs v m).length = 4 ∧
      Limbs.value 64 (mulSmallLimbs v m) = mulSmall (Limbs.value 64 v) m := by
  have hvalue : Limbs.value 64 (Limbs.mulCarry 64 m v 0) = Limbs.value 64 v * m + 0 :=
    value_mulCarry hm hv (by decide)
  have hbounded := bounded_mulCarry 64 m v 0
  have hout := length_mulCarry 64 m v 0
  unfold mulSmallLimbs mulSmall
  generalize Limbs.mulCarry 64 m v 0 = out at *
  rw [hlength] at hout
  match out, hout with
  | [a, b, c, d, e], _ =>
    simp only [bounded_cons, value_cons, value_nil] at hbounded hvalue
    by_cases hlast : e = 0
    · simp [hlast, bounded_cons]
      omega
    · simp [hlast, bounded_cons, List.replicate]
      omega

theorem divLimbs_eq {d : Nat} (hv : Limbs.Bounded 64 v) (hd : d < 2 ^ 128) :
    divLimbs v d = divU128ToU64 (Limbs.value 64 v) d := by
  unfold divLimbs divU128ToU64
  by_cases hzero : d = 0
  · simp [hzero]
  have hvalue : Limbs.value 64 (Limbs.ofNat 64 4 d) = d := value_ofNat (hd.trans (by decide))
  obtain ⟨-, -, hquot, hhigh⟩ := divide_spec (w := 64) (by decide) hv
    (bounded_ofNat 64 4 d) (by omega) (by rw [hvalue, length_ofNat]; omega)
  rw [hvalue] at hquot hhigh
  simp only [if_neg hzero, hhigh, hquot]
  split
  · exact (min_eq_right (by omega)).symm
  · rw [min_eq_left (by omega), mod_eq_of_lt (by omega)]

theorem floorWord_eq {w : Nat} (hw : w < 2 ^ 64) (r : Nat) : floorWord w r = floorToR w r := by
  unfold floorWord floorToR
  rw [mod_eq_of_lt ((div_mul_le_self w r).trans_lt hw)]

theorem dampWord_eq (old target : Nat) : dampWord old target 4 = dampRatio old target 4 := by
  unfold dampWord dampRatio clampU64
  have hhi : (if (2 ^ 64 - 1) / 4 < old then 2 ^ 64 - 1 else old * 4 % 2 ^ 64) =
      min (old * 4) (2 ^ 64 - 1) := by
    split <;> omega
  simp only [hhi]

theorem retargetWords_eq {w : WinGate} (h : w.Accepted) {dNet raw span : Nat}
    (hnet : dNet < 2 ^ 256) (hraw : raw < 2 ^ 128) (hspan : span < 2 ^ 64) (width : Nat) :
    retargetWords (Limbs.ofNat 64 4 dNet) width raw span w =
      retargetWidthOver dNet width raw span w := by
  have hfloor (x : Nat) : floorWord (clampU64 x w.wMinBins w.wMaxBins) w.retargetBins =
      floorToR (clampU64 x w.wMinBins w.wMaxBins) w.retargetBins :=
    floorWord_eq ((clampU64_mem (h.min_le.trans h.le_max) x).2.trans_lt h.max_lt) _
  obtain ⟨hone, hlength, hfirst⟩ := mulSmallLimbs_spec (bounded_ofNat 64 4 dNet)
    (length_ofNat 64 4 dNet) h.coverage_lt
  obtain ⟨htwo, -, hsecond⟩ := mulSmallLimbs_spec hone hlength hspan
  unfold retargetWords retargetWidthOver
  rw [hfloor, h.damp]
  simp only [hfloor, dampWord_eq, divLimbs_eq htwo hraw, hsecond, hfirst,
    value_ofNat (w := 64) (n := 4) hnet]

/-! ## The closed form -/

/-- Saturation is not seen below the quotient's own saturation: the target is the
exact quotient cut at 64 bits. -/
theorem target_eq (hpos : 0 < raw) (hraw : raw < 2 ^ 128) (hspan : 0 < span)
    (dNet c : Nat) : divU128ToU64 (mulSmall (mulSmall dNet c) span) raw =
      min (c * dNet * span / raw) (2 ^ 64 - 1) := by
  unfold divU128ToU64
  by_cases hfits : c * dNet * span < 2 ^ 256
  · have hfirst : dNet * c ≤ dNet * c * span := Nat.le_mul_of_pos_right _ hspan
    rw [Nat.mul_comm c] at hfits ⊢
    have hnum : mulSmall (mulSmall dNet c) span = dNet * c * span := by
      unfold mulSmall
      rw [min_eq_left (by omega : dNet * c ≤ 2 ^ 256 - 1)]
      omega
    rw [hnum]
  have hnum : mulSmall (mulSmall dNet c) span = 2 ^ 256 - 1 := by
    unfold mulSmall
    apply min_eq_right
    rcases le_total (dNet * c) (2 ^ 256 - 1) with hle | hge
    · rw [min_eq_left hle, Nat.mul_comm dNet]
      omega
    · rw [min_eq_right hge]
      exact Nat.le_mul_of_pos_right _ hspan
  have hbig (x : Nat) (hx : 2 ^ 256 - 1 ≤ x) : 2 ^ 64 - 1 ≤ x / raw := by
    rw [le_div_iff_mul_le hpos]
    calc (2 ^ 64 - 1) * raw ≤ (2 ^ 64 - 1) * 2 ^ 128 := Nat.mul_le_mul_left _ hraw.le
      _ ≤ x := le_trans (by decide) hx
  rw [hnum, min_eq_right (hbig _ (le_refl _)), min_eq_right (hbig _ (by omega))]

theorem clampU64_eq {lo hi : Nat} (h : lo ≤ hi) (x : Nat) :
    clampU64 x lo hi = max lo (min x hi) := by
  unfold clampU64
  split
  · omega
  split
  · omega
  · omega

/-- The width before the floor: the target `q` between a fourth of the width and
four times it, and within the bounds. -/
def damped (w : WinGate) (width q : Nat) : Nat :=
  max (max w.wMinBins (width / 4)) (min q (min w.wMaxBins (4 * width)))

theorem retargetWidthOver_eq {w : WinGate} (h : w.Accepted) {width raw span : Nat}
    (hmin : w.wMinBins ≤ width) (hmax : width ≤ w.wMaxBins) (hpos : 0 < raw) (hraw : raw < 2 ^ 128)
    (hspan : 0 < span) (dNet : Nat) :
    retargetWidthOver dNet width raw span w =
      floorToR (damped w width (w.coverageBlocks * dNet * span / raw)) w.retargetBins := by
  have hlo := h.min_pos
  have hhi := h.max_lt
  unfold retargetWidthOver
  rw [if_neg (by omega), target_eq hpos hraw hspan, h.damp]
  generalize w.coverageBlocks * dNet * span / raw = q
  have hdamp : dampRatio width (min q (2 ^ 64 - 1)) 4 =
      max (width / 4) (min (min q (2 ^ 64 - 1)) (min (width * 4) (2 ^ 64 - 1))) :=
    clampU64_eq (by omega) _
  have hclamp : clampU64 (dampRatio width (min q (2 ^ 64 - 1)) 4) w.wMinBins w.wMaxBins =
      damped w width q := by
    rw [hdamp, clampU64_eq (hmin.trans hmax)]
    unfold damped
    omega
  simp only [hclamp]

theorem floorToR_le (x r : Nat) : floorToR x r ≤ x := by
  unfold floorToR
  split
  · exact le_refl x
  · exact div_mul_le_self x r

theorem floorToR_mono (r : Nat) (h : x ≤ y) : floorToR x r ≤ floorToR y r := by
  unfold floorToR
  split
  · exact h
  · exact Nat.mul_le_mul_right r (Nat.div_le_div_right h)

theorem dvd_floorToR (hr : 0 < r) (x : Nat) : r ∣ floorToR x r := by
  rw [floorToR, if_neg hr.ne']
  exact dvd_mul_left r _

/-- On a multiple the floor is exact, so a multiple below `x` is below its floor. -/
theorem le_floorToR_iff (hy : r ∣ y) : y ≤ floorToR x r ↔ y ≤ x := by
  constructor
  · intro h
    exact h.trans (floorToR_le x r)
  · intro h
    exact (floorToR_mem hy h (le_refl x)).1

theorem retargetWidthOver_mem (h : w.Accepted) (dNet width raw span : Nat) :
    w.retargetBins ∣ retargetWidthOver dNet width raw span w ∧
      w.wMinBins ≤ retargetWidthOver dNet width raw span w ∧
      retargetWidthOver dNet width raw span w ≤ w.wMaxBins := by
  have hmem (x : Nat) : w.retargetBins ∣
        floorToR (clampU64 x w.wMinBins w.wMaxBins) w.retargetBins ∧
      w.wMinBins ≤ floorToR (clampU64 x w.wMinBins w.wMaxBins) w.retargetBins ∧
      floorToR (clampU64 x w.wMinBins w.wMaxBins) w.retargetBins ≤ w.wMaxBins := by
    obtain ⟨hlo, hhi⟩ := clampU64_mem (h.min_le.trans h.le_max) x
    exact ⟨dvd_floorToR h.step _, floorToR_mem h.min_dvd hlo hhi⟩
  unfold retargetWidthOver
  split
  · exact hmem _
  · exact hmem _

theorem damped_mono (w : WinGate) (width : Nat) (h : x ≤ y) :
    damped w width x ≤ damped w width y := by
  unfold damped
  omega

def quarterUp (r width : Nat) : Nat := (width + 4 * r - 1) / (4 * r) * r

theorem le_four_mul_iff (hr : 0 < r) (hx : r ∣ x) : width ≤ 4 * x ↔ quarterUp r width ≤ x := by
  obtain ⟨j, rfl⟩ := hx
  unfold quarterUp
  have hassoc : (j + 1) * (4 * r) = 4 * (j * r) + 4 * r := by ring
  rw [Nat.mul_comm r j, Nat.mul_le_mul_right_iff hr, ← Nat.lt_succ_iff (m := (_ / _)),
    Nat.div_lt_iff_lt_mul (by omega), Nat.succ_eq_add_one, hassoc]
  omega

/-- A retarget raises the width at most by the damping factor.  It lowers it at most by the
factor exactly when the floor has nothing to take from a fourth of the width, or the width is
stopped above it by the lower bound or by the target. -/
theorem retarget_within_damping_iff (h : w.Accepted) {width raw span : Nat}
    (hmin : w.wMinBins ≤ width) (hmax : width ≤ w.wMaxBins) (hdvd : w.retargetBins ∣ width)
    (hpos : 0 < raw) (hraw : raw < 2 ^ 128) (hspan : 0 < span) (dNet : Nat) :
    (retargetWidthOver dNet width raw span w ≤ w.dampFactor * width ∧
        width ≤ w.dampFactor * retargetWidthOver dNet width raw span w) ↔
      4 * w.retargetBins ∣ width ∨ width ≤ 4 * w.wMinBins ∨
        quarterUp w.retargetBins width * raw ≤ w.coverageBlocks * dNet * span := by
  have hr := h.step
  rw [retargetWidthOver_eq h hmin hmax hpos hraw hspan, h.damp, ← le_div_iff_mul_le hpos]
  generalize w.coverageBlocks * dNet * span / raw = q
  have hupper : floorToR (damped w width q) w.retargetBins ≤ 4 * width := by
    refine (floorToR_le _ _).trans ?_
    unfold damped
    omega
  have hwidth := (le_four_mul_iff hr hdvd).mp (by omega : width ≤ 4 * width)
  have hself : width ≤ 4 * quarterUp w.retargetBins width :=
    (le_four_mul_iff hr (dvd_mul_left _ _)).mpr (le_refl _)
  have hexact : 4 * w.retargetBins ∣ width ↔ quarterUp w.retargetBins width ≤ width / 4 := by
    constructor
    · rintro ⟨m, rfl⟩
      rw [Nat.mul_assoc, Nat.mul_div_cancel_left _ (by decide : 0 < 4),
        ← le_four_mul_iff hr (Nat.dvd_mul_right _ m)]
    intro hle
    have heq : width = 4 * quarterUp w.retargetBins width := by omega
    rw [heq]
    exact mul_dvd_mul_left 4 (dvd_mul_left _ _)
  have hquarter : w.retargetBins ∣ quarterUp w.retargetBins width := dvd_mul_left _ _
  rw [and_iff_right hupper, le_four_mul_iff hr (dvd_floorToR hr _), le_floorToR_iff hquarter,
    hexact, le_four_mul_iff hr h.min_dvd]
  unfold damped
  omega

def ltcGate : WinGate where
  coverageBlocks := 576
  binSeconds := 150
  wMinBins := 528
  wDefaultBins := 576
  wMaxBins := 4608
  retargetBins := 8
  dampFactor := 4

theorem ltcGate_accepted : ltcGate.Accepted := by
  constructor <;> decide

theorem retarget_within_damping_iff_ltc :
    retargetWidthOver 1 2112 (2 ^ 64) 8 ltcGate ≤ 4 * 2112 ∧
      2112 ≤ 4 * retargetWidthOver 1 2112 (2 ^ 64) 8 ltcGate :=
  (retarget_within_damping_iff ltcGate_accepted (by decide) (by decide) (by decide) (by decide)
    (by decide) (by decide) 1).mpr (Or.inl (by decide))

/-- From 2120 bins a fourth is 530, and the floor makes it 528. -/
theorem retarget_past_damping :
    ltcGate.Accepted ∧ ltcGate.wMinBins ≤ 2120 ∧ 2120 ≤ ltcGate.wMaxBins ∧
      ltcGate.retargetBins ∣ 2120 ∧ retargetWidthOver 1 2120 (2 ^ 64) 8 ltcGate = 528 ∧
      ¬ 2120 ≤ ltcGate.dampFactor * retargetWidthOver 1 2120 (2 ^ 64) 8 ltcGate :=
  ⟨ltcGate_accepted, by decide⟩

/-! ## A run of retargets -/

def settled (w : WinGate) (q : Nat) : Nat :=
  floorToR (clampU64 q w.wMinBins w.wMaxBins) w.retargetBins

theorem damped_below (h : w.Accepted) {width q : Nat} (hmin : w.wMinBins ≤ width)
    (hdvd : w.retargetBins ∣ width) (hle : width ≤ settled w q) :
    width ≤ floorToR (damped w width q) w.retargetBins ∧
      floorToR (damped w width q) w.retargetBins ≤ settled w q ∧
      (width < settled w q → width < floorToR (damped w width q) w.retargetBins) := by
  have hr := h.step
  have hlo := h.min_pos
  have hstep : w.retargetBins ≤ width := le_of_dvd (by omega) hdvd
  have hclamp := hle.trans (floorToR_le _ _)
  rw [clampU64_eq (h.min_le.trans h.le_max)] at hclamp
  refine ⟨?_, ?_, ?_⟩
  · rw [le_floorToR_iff hdvd]
    unfold damped
    omega
  · unfold settled
    rw [clampU64_eq (h.min_le.trans h.le_max)]
    apply floorToR_mono
    unfold damped
    omega
  · intro hlt
    have hnext : width + w.retargetBins ≤ settled w q := by
      obtain ⟨a, ha⟩ := hdvd
      obtain ⟨b, hb⟩ : w.retargetBins ∣ settled w q := dvd_floorToR hr _
      rw [ha, hb] at hlt ⊢
      exact Nat.mul_le_mul_left _ (Nat.lt_of_mul_lt_mul_left hlt)
    have hroom := hnext.trans (floorToR_le _ _)
    rw [clampU64_eq (h.min_le.trans h.le_max)] at hroom
    have hfloor : width + w.retargetBins ≤ floorToR (damped w width q) w.retargetBins := by
      rw [le_floorToR_iff ((Nat.dvd_add_right hdvd).mpr (dvd_refl _))]
      unfold damped
      omega
    omega

theorem damped_above (h : w.Accepted) {width q : Nat} (hmax : width ≤ w.wMaxBins)
    (hdvd : w.retargetBins ∣ width) (hlt : settled w q < width) :
    settled w q ≤ floorToR (damped w width q) w.retargetBins ∧
      floorToR (damped w width q) w.retargetBins < width := by
  have hclamp : ¬ width ≤ clampU64 q w.wMinBins w.wMaxBins := by
    rw [← le_floorToR_iff hdvd]
    exact Nat.not_le.mpr hlt
  rw [clampU64_eq (h.min_le.trans h.le_max)] at hclamp
  constructor
  · unfold settled
    rw [clampU64_eq (h.min_le.trans h.le_max)]
    apply floorToR_mono
    unfold damped
    omega
  apply Nat.lt_of_not_le
  rw [le_floorToR_iff hdvd]
  unfold damped
  omega

theorem settled_mem (h : w.Accepted) (q : Nat) :
    w.wMinBins ≤ settled w q ∧ settled w q ≤ w.wMaxBins := by
  obtain ⟨hlo, hhi⟩ := clampU64_mem (h.min_le.trans h.le_max) q
  exact floorToR_mem h.min_dvd hlo hhi

theorem iterate_settles (h : w.Accepted) {q : Nat} (n : Nat)
    (hmin : w.wMinBins ≤ width) (hmax : width ≤ w.wMaxBins) (hdvd : w.retargetBins ∣ width)
    (hn : (settled w q - width) + (width - settled w q) ≤ n) :
    (fun x => floorToR (damped w x q) w.retargetBins)^[n] width = settled w q := by
  induction n generalizing width with
  | zero =>
    rw [iterate_zero_apply]
    omega
  | succ n ih =>
    obtain ⟨hlo, hhi⟩ := settled_mem h q
    rw [iterate_succ_apply]
    rcases lt_or_ge (settled w q) width with hlt | hge
    · obtain ⟨hnot, hdown⟩ := damped_above h hmax hdvd hlt
      exact ih (by omega) (by omega) (dvd_floorToR h.step _) (by omega)
    · obtain ⟨hup, hnot, hmove⟩ := damped_below h hmin hdvd hge
      exact ih (by omega) (by omega) (dvd_floorToR h.step _) (by omega)

theorem iterate_eq (h : w.Accepted) (hpos : 0 < raw) (hraw : raw < 2 ^ 128) (hspan : 0 < span)
    (dNet : Nat) (hmin : w.wMinBins ≤ width) (hmax : width ≤ w.wMaxBins) (n : Nat) :
    (fun x => retargetWidthOver dNet x raw span w)^[n] width =
      (fun x => floorToR (damped w x (w.coverageBlocks * dNet * span / raw))
        w.retargetBins)^[n] width := by
  induction n generalizing width with
  | zero => rfl
  | succ n ih =>
    have hnext := retargetWidthOver_eq h hmin hmax hpos hraw hspan dNet
    rw [iterate_succ_apply, iterate_succ_apply, hnext]
    obtain ⟨hlo, hhi⟩ := floorToR_mem h.min_dvd (le_max_of_le_left (le_max_left _ _) :
      w.wMinBins ≤ damped w width (w.coverageBlocks * dNet * span / raw))
      (by unfold damped; have := h.min_le.trans h.le_max; omega :
        damped w width (w.coverageBlocks * dNet * span / raw) ≤ w.wMaxBins)
    exact ih hlo hhi

/-- The width law on the words of the code: nothing wraps around, the new width is on the
lattice and within the bounds, it follows the network work and, where there is some, opposes
the pool's own work; and under a constant rate it settles on the clamped target. -/
theorem retarget_converges_on_lattice (h : w.Accepted) {dNet width raw span : Nat}
    (hnet : dNet < 2 ^ 256) (hraw : raw < 2 ^ 128) (hspan : span < 2 ^ 64)
    (hmin : w.wMinBins ≤ width) (hmax : width ≤ w.wMaxBins) :
    retargetWords (Limbs.ofNat 64 4 dNet) width raw span w =
        retargetWidthOver dNet width raw span w ∧
      w.retargetBins ∣ retargetWidthOver dNet width raw span w ∧
      w.wMinBins ≤ retargetWidthOver dNet width raw span w ∧
      retargetWidthOver dNet width raw span w ≤ w.wMaxBins ∧
      (∀ dNet', dNet ≤ dNet' →
        retargetWidthOver dNet width raw span w ≤ retargetWidthOver dNet' width raw span w) ∧
      (∀ raw', 0 < raw → raw ≤ raw' → raw' < 2 ^ 128 →
        retargetWidthOver dNet width raw' span w ≤ retargetWidthOver dNet width raw span w) ∧
      (0 < raw → 0 < span → w.retargetBins ∣ width → ∃ n, ∀ m ≥ n,
        (fun x => retargetWidthOver dNet x raw span w)^[m] width =
          floorToR (clampU64 (w.coverageBlocks * dNet * span / raw) w.wMinBins w.wMaxBins)
            w.retargetBins) := by
  obtain ⟨hdvd, hge, hle⟩ := retargetWidthOver_mem h dNet width raw span
  refine ⟨retargetWords_eq h hnet hraw hspan width, hdvd, hge, hle, ?_, ?_, ?_⟩
  · intro dNet' hd
    by_cases hnone : raw = 0 ∨ width = 0 ∨ span = 0
    · rw [retargetWidthOver, retargetWidthOver, if_pos hnone, if_pos hnone]
    rw [retargetWidthOver_eq h hmin hmax (by omega) hraw (by omega),
      retargetWidthOver_eq h hmin hmax (by omega) hraw (by omega)]
    exact floorToR_mono _ (damped_mono w width (Nat.div_le_div_right
      (Nat.mul_le_mul_right _ (Nat.mul_le_mul_left _ hd))))
  · intro raw' hpos hle' hraw'
    by_cases hnone : span = 0
    · simp [retargetWidthOver, hnone]
    rw [retargetWidthOver_eq h hmin hmax hpos hraw (by omega),
      retargetWidthOver_eq h hmin hmax (by omega) hraw' (by omega)]
    exact floorToR_mono _ (damped_mono w width (div_le_div_left hle' hpos))
  · intro hpos hspan' hdvd'
    generalize hfar : settled w (w.coverageBlocks * dNet * span / raw) = goal
    refine ⟨(goal - width) + (width - goal), fun m hm => ?_⟩
    rw [iterate_eq h hpos hraw hspan' dNet hmin hmax]
    exact iterate_settles h m hmin hmax hdvd' (by rwa [hfar])

theorem retarget_converges_on_lattice_ltc :
    ∃ n, ∀ m ≥ n, (fun x => retargetWidthOver 1000 x 100 8 ltcGate)^[m] 528 = 4608 :=
  (retarget_converges_on_lattice ltcGate_accepted (by decide) (by decide) (by decide) (by decide)
    (by decide)).2.2.2.2.2.2 (by decide) (by decide) (by decide)

/-- Without any work the width goes to its default, below what little work gives. -/
theorem retarget_idle_below :
    ltcGate.Accepted ∧ retargetWidthOver 1000 4608 0 8 ltcGate = 576 ∧
      ¬ retargetWidthOver 1000 4608 1 8 ltcGate ≤ retargetWidthOver 1000 4608 0 8 ltcGate :=
  ⟨ltcGate_accepted, by decide⟩

end Winlaw

/-- `U256`: four words, lowest first. -/
structure U256 where
  v : List Nat
  size : v.length = 4
  words : Bounded 64 v

namespace U256

def toNat (x : U256) : Nat := value 64 x.v

def addAssign (x y : U256) : U256 where
  v := addCarry 64 x.v y.v 0
  size := by rw [length_addCarry (x.size.trans y.size.symm), x.size]
  words := bounded_addCarry 64 x.v y.v 0

def subAssign (x y : U256) : U256 where
  v := subBorrow 64 x.v y.v 0
  size := by rw [length_subBorrow 64 (x.size.trans y.size.symm), x.size]
  words := bounded_subBorrow 64 x.v y.v 0

/-- `operator<`. -/
def lt (x y : U256) : Bool := less x.v y.v

/-- The product in five words, then the shift by `FRAC_BITS`. -/
def mulQ (x : U256) (m : U64) : U256 where
  v := shiftDown 64 62 (mulCarry 64 m.val x.v 0)
  size := by rw [length_shiftDown, length_mulCarry, x.size]
  words := bounded_shiftDown (by decide) (bounded_mulCarry 64 m.val x.v 0)

def mulSmall (x : U256) (m : U64) : U256 where
  v := Winlaw.mulSmallLimbs x.v m.val
  size := (Winlaw.mulSmallLimbs_spec x.words x.size m.isLt).2.1
  words := (Winlaw.mulSmallLimbs_spec x.words x.size m.isLt).1

def divU128ToU64 (x : U256) (divisor : Fin (2 ^ 128)) : Nat := Winlaw.divLimbs x.v divisor.val

theorem toNat_mulQ (x : U256) (m : U64) :
    (x.mulQ m).toNat = x.toNat * m.val / 2 ^ 62 % 2 ^ 256 := by
  have hlength := length_mulCarry 64 m.val x.v 0
  have hne : mulCarry 64 m.val x.v 0 ≠ [] := by
    rw [← List.length_pos_iff]
    omega
  rw [toNat, mulQ, value_shiftDown (by decide) (bounded_mulCarry 64 m.val x.v 0) hne, hlength,
    x.size, value_mulCarry m.isLt x.words (by decide)]
  rfl

/-- **The wide integers are exact**: no carry is lost at a limb boundary. -/
theorem u256_exact (x y : U256) (m : U64) (d : Fin (2 ^ 128)) :
    (x.toNat * m.val / 2 ^ 62 < 2 ^ 256 → (x.mulQ m).toNat = x.toNat * m.val / 2 ^ 62) ∧
      (x.mulSmall m).toNat = (if x.toNat * m.val < 2 ^ 256 then x.toNat * m.val else 2 ^ 256 - 1) ∧
      x.divU128ToU64 d = min (x.toNat / d.val) (2 ^ 64 - 1) ∧
      (x.addAssign y).subAssign y = x ∧ (x.lt y = true ↔ x.toNat < y.toNat) := by
  refine ⟨fun hfits => ?_, ?_, Winlaw.divLimbs_eq x.words d.isLt, ?_,
    less_iff x.words y.words (x.size.trans y.size.symm)⟩
  · rw [toNat_mulQ, Nat.mod_eq_of_lt hfits]
  · have hsmall := (Winlaw.mulSmallLimbs_spec x.words x.size m.isLt).2.2
    rw [toNat, mulSmall, hsmall, Winlaw.mulSmall]
    show min (x.toNat * m.val) _ = _
    split <;> omega
  · have hv := subBorrow_addCarry (by decide) x.words y.words (x.size.trans y.size.symm)
      (by decide : 0 < 2)
    obtain ⟨v, size, words⟩ := x
    unfold addAssign subAssign
    simp only [hv]

end U256

end C2Pool.V37
