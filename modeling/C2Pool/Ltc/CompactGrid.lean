import C2Pool.Ltc.CompactTarget

/-! # The compact encoding and its grid

What is read back from the encoding of a target is the greatest number of the grid
that is not above it, and an encoding that is read and written again is the same.
-/

namespace C2Pool.Ltc

open FloatGrid Nat BitVec

variable {target : BitVec 256} {m e : Nat}

def gridValue (m e : Nat) : Nat := m * 256 ^ e / 256 ^ 3

theorem Sized.unique {n size : Nat} {size' : Nat} (h : Sized n size) (h' : Sized n size') :
    size = size' := by
  have hle : ∀ {a b : Nat}, Sized n a → Sized n b → a ≤ b := by
    intro a b ha hb
    rcases ha.least with rfl | hleast
    · exact Nat.zero_le _
    · have hlt := (Nat.pow_lt_pow_iff_right (by omega)).mp (hleast.trans_lt hb.below)
      omega
  exact le_antisymm (hle h h') (hle h' h)

theorem encodedTarget_of_grid (hm : m < 2 ^ 23) (h : target.toNat = gridValue m e) :
    encodedTarget target = target := by
  obtain ⟨q, k, hq, hv⟩ : ∃ q k, q < 2 ^ 23 ∧ target.toNat = q * 2 ^ (8 * k) := by
    rw [h]
    unfold gridValue
    by_cases hlong : 3 ≤ e
    · refine ⟨m, e - 3, hm, ?_⟩
      rw [← Nat.sub_add_cancel hlong, Nat.pow_add, ← Nat.mul_assoc,
        Nat.mul_div_cancel _ (by decide), Nat.add_sub_cancel, Nat.pow_mul]
    refine ⟨m * 256 ^ e / 256 ^ 3, 0, ?_, by simp⟩
    rw [Nat.div_lt_iff_lt_mul (by decide)]
    have hpow : 256 ^ e ≤ 256 ^ 3 := Nat.pow_le_pow_right (by decide) (by omega)
    calc m * 256 ^ e ≤ m * 256 ^ 3 := Nat.mul_le_mul_left m hpow
      _ < 2 ^ 23 * 256 ^ 3 := Nat.mul_lt_mul_of_pos_right hm (by decide)
  obtain ⟨j, hfits, hcut⟩ := decoded_eq_roundDown target
  have hdvd : 2 ^ (8 * j) ∣ target.toNat := by
    rw [hv]
    refine Dvd.dvd.mul_left (Nat.pow_dvd_pow 2 ?_) q
    rcases hfits.least with rfl | hleast
    · omega
    have hlt : target.toNat < 2 ^ (8 * k + 23) := by
      rw [hv, Nat.pow_add, Nat.mul_comm]
      exact Nat.mul_lt_mul_of_pos_left hq (Nat.two_pow_pos _)
    have := (Nat.pow_lt_pow_iff_right (by omega)).mp (hleast.trans_lt hlt)
    omega
  apply eq_of_toNat_eq
  rw [encodedTarget, hcut, roundDown, Nat.div_mul_cancel hdvd]

theorem encodedTarget_grid (target : BitVec 256) :
    ∃ m e, m ≤ 0x7fffff ∧ e ≤ 33 ∧ (encodedTarget target).toNat = gridValue m e := by
  obtain ⟨j, hfits, hcut⟩ := decoded_eq_roundDown target
  refine ⟨target.toNat / 2 ^ (8 * j), j + 3, ?_, ?_, ?_⟩
  · have hlt : target.toNat / 2 ^ (8 * j) < 2 ^ 23 := by
      rw [Nat.div_lt_iff_lt_mul (Nat.two_pow_pos _), ← Nat.pow_add, Nat.add_comm]
      exact hfits.below
    omega
  · rcases hfits.least with rfl | hleast
    · decide
    · have := (Nat.pow_lt_pow_iff_right (by omega)).mp (hleast.trans_lt target.isLt)
      omega
  · rw [encodedTarget, hcut, roundDown, gridValue, Nat.pow_add, ← Nat.mul_assoc,
      Nat.mul_div_cancel _ (by decide), Nat.pow_mul]

theorem targetToBitsUpperBound_encodedTarget (target : BitVec 256) :
    targetToBitsUpperBound (encodedTarget target) = targetToBitsUpperBound target := by
  obtain ⟨size, word, hsized, hmantissa, henc⟩ := exists_sized target
  obtain ⟨size', word', hsized', hmantissa', henc'⟩ := exists_sized (encodedTarget target)
  have hback : (encodedTarget target).toNat = roundDown 8 (size - 3) target.toNat := by
    rw [encodedTarget, henc]
    exact bitsToTarget_packBits hmantissa target.isLt
  rw [hback] at hsized' hmantissa'
  have hle := roundDown_le 8 (size - 3) target.toNat
  have hsame : roundDown 8 (size - 3) target.toNat * 2 ^ 24 / 2 ^ (8 * size) =
      target.toNat * 2 ^ 24 / 2 ^ (8 * size) := by
    by_cases hlong : 3 ≤ size
    · have hsplit : (2 : Nat) ^ (8 * size) = 2 ^ (8 * (size - 3)) * 2 ^ 24 := by
        rw [← Nat.pow_add]
        congr 1
        omega
      rw [hsplit, Nat.mul_div_mul_right _ _ (by decide), Nat.mul_div_mul_right _ _ (by decide),
        roundDown, Nat.mul_div_cancel _ (Nat.two_pow_pos _)]
    · simp [roundDown, Nat.sub_eq_zero_of_le (not_le.mp hlong).le]
  have hkept : Sized (roundDown 8 (size - 3) target.toNat) size := by
    refine ⟨by have := hsized.below; omega, hsized.least.imp_right fun hleast => ?_⟩
    by_cases hlong : 3 < size
    · have hsplit : (2 : Nat) ^ (8 * (size - 1)) = 2 * 2 ^ 15 * 2 ^ (8 * (size - 3)) := by
        rw [Nat.mul_comm 2, ← Nat.pow_succ, ← Nat.pow_add]
        congr 1
        omega
      rw [hsplit] at hleast ⊢
      have hdigits : 2 ^ 15 ≤ target.toNat / 2 ^ (8 * (size - 3)) := by
        rw [Nat.le_div_iff_mul_le (Nat.two_pow_pos _)]
        omega
      have hgrid := Nat.mul_le_mul_right (2 ^ (8 * (size - 3))) hdigits
      rw [roundDown]
      omega
    · simpa [roundDown, Nat.sub_eq_zero_of_le (not_lt.mp hlong)] using hleast
  obtain rfl := hkept.unique hsized'
  have hword : word' = word := by
    apply eq_of_toNat_eq
    rw [hmantissa'.word_eq, hsame, hmantissa.word_eq]
  rw [henc', henc, hword]

/-- The encoding rounds a target down to the grid. -/
theorem encodedTarget_greatest (target : BitVec 256) :
    (∃ m e, m ≤ 0x7fffff ∧ e ≤ 33 ∧ (encodedTarget target).toNat = gridValue m e) ∧
      encodedTarget target ≤ target ∧
      (∀ m e, m ≤ 0x7fffff → e ≤ 33 → gridValue m e ≤ target.toNat →
        gridValue m e ≤ (encodedTarget target).toNat) ∧
      (∀ other, target ≤ other → encodedTarget target ≤ encodedTarget other) ∧
      encodedTarget (encodedTarget target) = encodedTarget target ∧
      targetToBitsUpperBound (bitsToTarget (targetToBitsUpperBound target)) =
        targetToBitsUpperBound target := by
  obtain ⟨m, e, hm, he, hgrid⟩ := encodedTarget_grid target
  refine ⟨⟨m, e, hm, he, hgrid⟩, encodedTarget_le target, ?_, fun _ h => encodedTarget_mono h,
    encodedTarget_of_grid (by omega) hgrid, targetToBitsUpperBound_encodedTarget target⟩
  intro m e hm he hle
  have hval : (BitVec.ofNat 256 (gridValue m e)).toNat = gridValue m e := by
    rw [BitVec.toNat_ofNat, Nat.mod_eq_of_lt (hle.trans_lt target.isLt)]
  have hmono := encodedTarget_mono (a := BitVec.ofNat 256 (gridValue m e)) (b := target)
    (by rw [le_def, hval]; exact hle)
  rw [encodedTarget_of_grid (by omega) hval, le_def, hval] at hmono
  exact hmono

/-- What the encoding cuts off is less than one part in `2 ^ 15` of any target. -/
theorem encodedTarget_precise (target : BitVec 256) :
    (target.toNat - (encodedTarget target).toNat) * 2 ^ 15 ≤ target.toNat := by
  obtain ⟨e, hfits, heq⟩ := decoded_eq_roundDown target
  have hcut : target.toNat - (encodedTarget target).toNat = target.toNat % 2 ^ (8 * e) := by
    rw [encodedTarget, heq, roundDown]
    have := Nat.div_add_mod' target.toNat (2 ^ (8 * e))
    omega
  rw [hcut]
  rcases hfits.least with rfl | hleast
  · simp [Nat.mod_one]
  · cases e with
    | zero => simp [Nat.mod_one]
    | succ e =>
      have hdigit := Nat.mod_lt target.toNat (Nat.two_pow_pos (8 * (e + 1)))
      have hexp : 8 * (e + 1 - 1) + 23 = 8 * (e + 1) + 15 := by omega
      rw [hexp, Nat.pow_add] at hleast
      exact (Nat.mul_le_mul_right _ hdigit.le).trans hleast

end C2Pool.Ltc
