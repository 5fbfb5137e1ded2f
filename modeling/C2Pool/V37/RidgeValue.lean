import C2Pool.V37.RidgeSteps

/-! # Values in the frame of a cell

The value of a bin's work in the frame of a cell of level `l <= 4` is a product
of at most one table entry per digit below `l`, so that it never fails; with the
compiled-in table it is never zero either.
-/

namespace C2Pool.V37

open Nat

/-- What the ridge relies on of the compiled-in table: it falls strictly, and
passes one half at the half-life. -/
structure Falling (canon : CanonicalTables) : Prop where
  half : (canon.decay canonHalfLife).val = 2 ^ 61
  falls : ∀ d, d < canonMaxDepth → canon.decay (d + 1) < canon.decay d

section

variable {canon : CanonicalTables} (h : Falling canon)
include h

theorem Falling.decay_add_le {d e : Nat}
    (he : d + e ≤ canonMaxDepth) : (canon.decay (d + e)).val + e ≤ (canon.decay d).val := by
  induction e with
  | zero => exact Nat.le_refl _
  | succ e ih =>
    have hstep : (canon.decay (d + e + 1)).val < (canon.decay (d + e)).val :=
      h.falls (d + e) (by omega)
    have hassoc : d + (e + 1) = d + e + 1 := rfl
    rw [hassoc]
    omega

theorem Falling.half_le {d : Nat} (hd : d ≤ canonHalfLife) : 2 ^ 61 ≤ (canon.decay d).val := by
  obtain ⟨e, he⟩ := Nat.exists_eq_add_of_le hd
  have hle : canonHalfLife ≤ canonMaxDepth := by decide
  have hfall := h.decay_add_le (he ▸ hle)
  rw [← he, h.half] at hfall
  omega

theorem Falling.depth_le {d : Nat}
    (hd : d ≤ canonMaxDepth) : canonMaxDepth - d ≤ (canon.decay d).val := by
  obtain ⟨e, he⟩ := Nat.exists_eq_add_of_le hd
  have hfall := h.decay_add_le he.ge
  omega

end

namespace Nr

theorem powR_pos (l : Nat) : 0 < powR l := Nat.pow_pos (by decide)

theorem powR_succ (l : Nat) : powR (l + 1) = powR l * rollup := pow_succ _ _

theorem powR_le {l l' : Nat} (h : l ≤ l') : powR l ≤ powR l' :=
  Nat.pow_le_pow_right (by decide) h

theorem rollup_eq : rollup = 8 := rfl

theorem digit_lt (x : Nat) : x % rollup < rollup := mod_lt x (by decide)

theorem lad_eq_ok (canon : CanonicalTables) (rep : Bool) {l k : Nat} (hl : l < 4) (hk : k ≠ 0)
    (hlt : k < rollup) : lad canon rep l k = .ok (canon.decay (k * powR l)) := by
  have hpow : powR l ≤ powR 3 := powR_le (by omega)
  have hthree : powR 3 = 512 := by decide
  have hr := rollup_eq
  have hle : k * powR l ≤ canonMaxDepth :=
    calc k * powR l ≤ 7 * 512 := Nat.mul_le_mul (by omega) (by omega)
      _ ≤ canonMaxDepth := by decide
  unfold lad
  rw [if_neg hk, if_neg (by omega), if_pos hle]

section Frame

variable (canon : CanonicalTables)

/-- `pair_value` below level 4, where it does not fail. -/
def frameLoop (off : Nat) : Nat → Nat → Nat → Nat
  | 0, _, v => v
  | rounds + 1, l, v =>
    frameLoop off rounds (l + 1)
      (if off / powR l % rollup = 0 then v
      else mulQ v (canon.decay (off / powR l % rollup * powR l)))

def frameValue (bin raw level binHi : Nat) : Nat :=
  frameLoop canon (binHi - bin) level 0 (raw * 2 ^ 62)

variable {canon}

theorem pairLoop_eq (rep : Bool) (off : Nat) {rounds l : Nat} (h : l + rounds ≤ 4) (v : Nat) :
    pairLoop canon rep off rounds l v = .ok (frameLoop canon off rounds l v) := by
  induction rounds generalizing l v with
  | zero => rfl
  | succ rounds ih =>
    have hrest := fun v => ih (l := l + 1) (by omega) v
    unfold pairLoop frameLoop
    split
    · exact hrest v
    rename_i hdigit
    rw [lad_eq_ok canon rep (by omega) hdigit (digit_lt _)]
    exact hrest _

theorem pairValue_eq (rep : Bool) {level : Nat} (h : level ≤ maxFoldCap) (bin raw binHi : Nat) :
    pairValue canon rep bin raw level binHi = .ok (frameValue canon bin raw level binHi) :=
  pairLoop_eq rep _ (by rw [zero_add]; exact h) _

/-- What is left of one unit at least when the digits below `l` are done. -/
def leastAt (l : Nat) : Nat := if l ≤ 3 then 2 ^ (62 - l) else 1

theorem leastAt_pos (l : Nat) : 0 < leastAt l := by
  unfold leastAt
  split
  · exact Nat.two_pow_pos _
  · exact Nat.one_pos

theorem half_mulQ {v n : Nat} {f : U64} (hv : 2 ^ (n + 1) ≤ v) (hf : 2 ^ 61 ≤ f.val) :
    2 ^ n ≤ mulQ v f := by
  unfold mulQ
  rw [Nat.le_div_iff_mul_le (Nat.two_pow_pos _)]
  calc 2 ^ n * 2 ^ 62 = 2 ^ (n + 1) * 2 ^ 61 := by
        rw [← Nat.pow_add, ← Nat.pow_add, Nat.add_assoc]
    _ ≤ v * f.val := Nat.mul_le_mul hv hf

theorem leastAt_step (h : Falling canon) {l k v : Nat} (hl : l < 4) (hk : k < rollup)
    (hv : leastAt l ≤ v) :
    leastAt (l + 1) ≤ if k = 0 then v else mulQ v (canon.decay (k * powR l)) := by
  have hr := rollup_eq
  have hdrop : leastAt (l + 1) ≤ leastAt l := by
    unfold leastAt
    split
    · rw [if_pos (by omega)]
      exact Nat.pow_le_pow_right (by decide) (by omega)
    split
    · exact Nat.one_le_two_pow
    · exact Nat.le_refl _
  split
  · exact hdrop.trans hv
  by_cases hthree : l = 3
  · subst hthree
    have hpow : powR 3 = 512 := by decide
    have hdepth : canonMaxDepth = 8192 := rfl
    have hfactor : 2 ^ 12 ≤ (canon.decay (k * powR 3)).val := by
      rw [hpow]
      have := h.depth_le (d := k * 512) (by omega)
      omega
    unfold mulQ
    rw [Nat.le_div_iff_mul_le (Nat.two_pow_pos _)]
    calc 1 * 2 ^ 62 ≤ 2 ^ 59 * 2 ^ 12 := by decide
      _ ≤ v * (canon.decay (k * powR 3)).val := Nat.mul_le_mul hv hfactor
  have hlt : l < 3 := by omega
  have hpow : powR l ≤ powR 2 := powR_le (by omega)
  have htwo : powR 2 = 64 := by decide
  have hle : k * powR l ≤ canonHalfLife :=
    calc k * powR l ≤ 7 * 64 := Nat.mul_le_mul (by omega) (by omega)
      _ ≤ canonHalfLife := by decide
  have hv' : 2 ^ (62 - (l + 1) + 1) ≤ v := by
    unfold leastAt at hv
    rw [if_pos (by omega)] at hv
    rwa [show 62 - (l + 1) + 1 = 62 - l by omega]
  unfold leastAt
  rw [if_pos (by omega)]
  exact half_mulQ hv' (h.half_le hle)

theorem frameLoop_pos (h : Falling canon) (off : Nat) {rounds l v : Nat} (hl : l + rounds ≤ 4)
    (hv : leastAt l ≤ v) : 0 < frameLoop canon off rounds l v := by
  induction rounds generalizing l v with
  | zero => exact (leastAt_pos l).trans_le hv
  | succ rounds ih =>
    exact ih (by omega) (leastAt_step h (by omega) (digit_lt _) hv)

theorem frameValue_pos (h : Falling canon) {level : Nat} (hlevel : level ≤ maxFoldCap)
    {raw : Nat} (hraw : 0 < raw) (bin binHi : Nat) : 0 < frameValue canon bin raw level binHi := by
  apply frameLoop_pos h _ (by rw [zero_add]; exact hlevel)
  show 2 ^ 62 ≤ raw * 2 ^ 62
  exact Nat.le_mul_of_pos_left _ hraw

end Frame

theorem ladderDomainBins_eq : ladderDomainBins = 12288 := by decide

theorem lambdaLoop_ok (canon : CanonicalTables) (rep : Bool) {rounds d level : Nat}
    (h : d * powR level < ladderDomainBins) (g : U64) :
    ∃ g', lambdaLoop canon rep rounds d level g = .ok g' := by
  rw [ladderDomainBins_eq] at h
  induction rounds generalizing d level g with
  | zero => exact ⟨g, rfl⟩
  | succ rounds ih =>
    have hr := rollup_eq
    have hnext : d / rollup * powR (level + 1) < 12288 := by
      have hdigits : d / rollup * rollup ≤ d := div_mul_le_self d rollup
      calc d / rollup * powR (level + 1) = d / rollup * rollup * powR level := by
            rw [powR_succ, mul_assoc, mul_comm rollup]
        _ ≤ d * powR level := mul_le_mul_right _ hdigits
        _ < 12288 := h
    unfold lambdaLoop
    split
    · exact ⟨g, rfl⟩
    split
    · exact ih hnext g
    rename_i hdigit
    have hlt := digit_lt d
    have hin : d % rollup * powR level ≤ canonMaxDepth := by
      have hle : d % rollup * powR level ≤ d * powR level := mul_le_mul_right _ (mod_le d rollup)
      have hdepth : canonMaxDepth = 8192 := rfl
      by_cases hlevel : level ≤ 3
      · have hpow : powR level ≤ powR 3 := powR_le hlevel
        have hthree : powR 3 = 512 := by decide
        calc d % rollup * powR level ≤ 7 * 512 := Nat.mul_le_mul (by omega) (by omega)
          _ ≤ canonMaxDepth := by decide
      obtain ⟨e, he⟩ := Nat.exists_eq_add_of_le (show 4 ≤ level by omega)
      have hpow : powR level = 4096 * powR e := by
        rw [he]
        exact Nat.pow_add 8 4 e
      have hmul : ∀ x, x * (4096 * powR e) = 4096 * (x * powR e) :=
        fun x => mul_left_comm x 4096 (powR e)
      rw [hpow, hmul] at hle ⊢
      rw [hpow, hmul] at h
      rw [hmul] at hle
      omega
    have hlad : lad canon rep level (d % rollup) = .ok (canon.decay (d % rollup * powR level)) := by
      unfold lad
      rw [if_neg hdigit, if_neg (by omega), if_pos hin]
    rw [hlad]
    exact ih hnext _

theorem cellScalar_ok (canon : CanonicalTables) (rep : Bool) {t binHi : Nat}
    (h : t < binHi + ladderDomainBins) : ∃ g, cellScalar canon rep t binHi = .ok g := by
  have hpow : powR 0 = 1 := rfl
  have hdomain := ladderDomainBins_eq
  apply lambdaLoop_ok canon rep
  rw [hpow]
  omega

end Nr

end C2Pool.V37
