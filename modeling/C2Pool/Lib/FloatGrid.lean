import C2Pool.Lib.Words

/-! # Truncation to a floating grid

Numbers written with a mantissa of `p` bits and an exponent that counts digits of `w` bits. A number
is cut down to a multiple of its last representable digit. The exponent grows with the number, and
the cut keeps the order.
-/

namespace C2Pool.FloatGrid

/-- `e` is the exponent of `n`: the least one whose mantissa holds `n`. -/
structure Fits (p w e n : Nat) : Prop where
  below : n < 2 ^ (w * e + p)
  least : e = 0 ∨ 2 ^ (w * (e - 1) + p) ≤ n

/-- The digits of `n` from the exponent on. -/
def roundDown (w e n : Nat) : Nat := n / 2 ^ (w * e) * 2 ^ (w * e)

theorem roundDown_le (w e n : Nat) : roundDown w e n ≤ n := Nat.div_mul_le_self _ _

variable {p w : Nat}

theorem roundDown_pos (hw : w ≤ p) {e n : Nat} (h : Fits p w e n) (hn : 0 < n) :
    0 < roundDown w e n := by
  have hdigit : 2 ^ (w * e) ≤ n := by
    rcases h.least with rfl | hleast
    · rw [Nat.mul_zero, Nat.pow_zero]
      exact hn
    cases e with
    | zero =>
      exact hn
    | succ e =>
      have hexp : w * (e + 1) ≤ w * e + p := by
        rw [Nat.mul_succ]
        omega
      exact (Nat.pow_le_pow_right (by omega) hexp).trans hleast
  exact Nat.mul_pos (Nat.div_pos hdigit (Nat.two_pow_pos _)) (Nat.two_pow_pos _)

theorem roundDown_mono (hw : w ≤ p) {ea eb a b : Nat} (ha : Fits p w ea a) (hb : Fits p w eb b)
    (hab : a ≤ b) : roundDown w ea a ≤ roundDown w eb b := by
  rcases Nat.lt_trichotomy ea eb with hlt | rfl | hgt
  · -- the smallest number of a larger exponent is on its grid and beyond `a`
    have hleast : 2 ^ (w * (eb - 1) + p) ≤ b := hb.least.resolve_left (by omega)
    have hbeyond : a < 2 ^ (w * (eb - 1) + p) := by
      refine ha.below.trans_le (Nat.pow_le_pow_right (by omega) ?_)
      have := Nat.mul_le_mul_left w (show ea ≤ eb - 1 by omega)
      omega
    have hgrid : 2 ^ (w * eb) ∣ 2 ^ (w * (eb - 1) + p) := by
      apply Nat.pow_dvd_pow
      obtain ⟨e, rfl⟩ : ∃ e, eb = e + 1 := ⟨eb - 1, by omega⟩
      rw [Nat.add_sub_cancel, Nat.mul_succ]
      omega
    have hkept : 2 ^ (w * (eb - 1) + p) ≤ roundDown w eb b := by
      calc 2 ^ (w * (eb - 1) + p)
          = 2 ^ (w * (eb - 1) + p) / 2 ^ (w * eb) * 2 ^ (w * eb) := (Nat.div_mul_cancel hgrid).symm
        _ ≤ roundDown w eb b := Nat.mul_le_mul_right _ (Nat.div_le_div_right hleast)
    have hcut := roundDown_le w ea a
    omega
  · exact Nat.mul_le_mul_right _ (Nat.div_le_div_right hab)
  · have hleast : 2 ^ (w * (ea - 1) + p) ≤ a := ha.least.resolve_left (by omega)
    have hexp : 2 ^ (w * eb + p) ≤ 2 ^ (w * (ea - 1) + p) := by
      apply Nat.pow_le_pow_right (by omega)
      have := Nat.mul_le_mul_left w (show eb ≤ ea - 1 by omega)
      omega
    have := hb.below
    omega

end C2Pool.FloatGrid
