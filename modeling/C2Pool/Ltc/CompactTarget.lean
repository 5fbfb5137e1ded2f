import C2Pool.Lib.FloatGrid
import C2Pool.Ltc.DecayedWeights

/-! # The compact encoding of a target

`target_to_bits_upper_bound` keeps the three leading bytes of a target, or two when the first has
its top bit set. What `bits_to_target` reads back is the target cut to the grid of its exponent,
never above the target and in the order of the targets.
-/

namespace C2Pool.Ltc

open FloatGrid Nat BitVec

/-- `d[i]`: the bytes of a target, least significant first. -/
def targetByte (target : BitVec 256) (i : Nat) : BitVec 8 :=
  (target >>> (8 * i)).setWidth 8

/-- `nSize`: the scan for the most significant byte that is not zero. -/
def targetSize (target : BitVec 256) : Nat → Nat
  | 0 => 0
  | n + 1 => if targetByte target n = 0 then targetSize target n else n + 1

/-- The loop `nWord = (nWord << 8) | d[i]` down to the first byte. -/
def gatherWord (target : BitVec 256) : Nat → BitVec 32 → BitVec 32
  | 0, word => word
  | i + 1, word => gatherWord target i ((word <<< 8) ||| (targetByte target i).setWidth 32)

/-- `nWord` before the top bit is looked at. -/
def leadingWord (target : BitVec 256) (size : Nat) : BitVec 32 :=
  if size ≤ 3 then gatherWord target size 0 <<< (8 * (3 - size))
  else
    ((targetByte target (size - 1)).setWidth 32 <<< 16) |||
      ((targetByte target (size - 2)).setWidth 32 <<< 8) |||
        (targetByte target (size - 3)).setWidth 32

/-- `if (nWord > 0x7fffff) { nWord >>= 8; ++nSize; }` for a target of more than three bytes. -/
def fitMantissa (size : Nat) (word : BitVec 32) : Nat × BitVec 32 :=
  if 3 < size ∧ 0x7fffff < word then (size + 1, word >>> 8) else (size, word)

/-- `if (nWord & 0x00800000) { nWord >>= 8; ++nSize; }`. -/
def clearSign (out : Nat × BitVec 32) : Nat × BitVec 32 :=
  if out.2 &&& 0x00800000 ≠ 0 then (out.1 + 1, out.2 >>> 8) else out

/-- The last line: `(nSize << 24) | (nWord & 0x00ffffff)`. -/
def packBits (out : Nat × BitVec 32) : BitVec 32 :=
  (BitVec.ofNat 32 out.1 <<< 24) ||| (out.2 &&& 0x00ffffff)

def targetToBitsUpperBound (target : BitVec 256) : BitVec 32 :=
  let size := targetSize target 32
  if size = 0 then 0
  else packBits (clearSign (fitMantissa size (leadingWord target size)))

/-! ## The bytes as digits -/

theorem targetByte_toNat (target : BitVec 256) (i : Nat) :
    (targetByte target i).toNat = target.toNat / 2 ^ (8 * i) % 256 := by
  simp [targetByte, shiftRight_eq_div_pow]

theorem targetSize_le (target : BitVec 256) (n : Nat) : targetSize target n ≤ n := by
  induction n with
  | zero => exact le_refl _
  | succ n ih =>
    unfold targetSize
    split <;> omega

variable {target : BitVec 256} {n size : Nat} {word : BitVec 32}

theorem lt_of_targetByte_eq_zero (hbelow : target.toNat < 2 ^ (8 * (n + 1)))
    (hbyte : targetByte target n = 0) : target.toNat < 2 ^ (8 * n) := by
  have hdigit : target.toNat / 2 ^ (8 * n) < 256 := by
    rw [Nat.div_lt_iff_lt_mul (Nat.two_pow_pos _)]
    calc target.toNat < 2 ^ (8 * (n + 1)) := hbelow
      _ = 256 * 2 ^ (8 * n) := by rw [Nat.mul_succ, Nat.pow_add, Nat.mul_comm]
  have hzero := targetByte_toNat target n
  rw [hbyte, Nat.mod_eq_of_lt hdigit] at hzero
  exact (Nat.div_eq_zero_iff_lt (Nat.two_pow_pos _)).mp hzero.symm

theorem targetSize_spec (target : BitVec 256) (n : Nat) (hbelow : target.toNat < 2 ^ (8 * n)) :
    target.toNat < 2 ^ (8 * targetSize target n) ∧
      (0 < targetSize target n → 2 ^ (8 * (targetSize target n - 1)) ≤ target.toNat) := by
  induction n with
  | zero => exact ⟨hbelow, fun h => absurd h (lt_irrefl 0)⟩
  | succ n ih =>
    unfold targetSize
    split
    case isTrue hbyte => exact ih (lt_of_targetByte_eq_zero hbelow hbyte)
    case isFalse hbyte =>
      rw [Nat.add_sub_cancel]
      by_contra hsmall
      apply hbyte
      apply eq_of_toNat_eq
      rw [targetByte_toNat, div_eq_of_lt (by omega)]
      rfl

theorem appendByte_toNat (hword : word.toNat < 2 ^ 16) (byte : BitVec 8) :
    ((word <<< 8) ||| byte.setWidth 32).toNat = word.toNat * 256 + byte.toNat := by
  have hbyte : byte.toNat < 2 ^ 8 := byte.isLt
  have hshift : (word <<< 8).toNat = word.toNat <<< 8 := by
    rw [BitVec.toNat_shiftLeft, Nat.mod_eq_of_lt]
    omega
  have hwide : (byte.setWidth 32).toNat = byte.toNat := by
    rw [BitVec.toNat_setWidth, Nat.mod_eq_of_lt (by omega)]
  rw [BitVec.toNat_or, hshift, hwide, ← Nat.shiftLeft_add_eq_or_of_lt hbyte, Nat.shiftLeft_eq]

theorem joinDigit (n i : Nat) : n / 2 ^ (8 * (i + 1)) * 256 + n / 2 ^ (8 * i) % 256 =
    n / 2 ^ (8 * i) := by
  have hnext : n / 2 ^ (8 * (i + 1)) = n / 2 ^ (8 * i) / 256 := by
    rw [Nat.div_div_eq_div_mul, Nat.mul_succ, Nat.pow_add]
  omega

theorem gatherWord_toNat (hsmall : target.toNat < 2 ^ 24) (i : Nat)
    (hword : word.toNat = target.toNat / 2 ^ (8 * i)) :
    (gatherWord target i word).toNat = target.toNat := by
  induction i generalizing word with
  | zero => simpa [gatherWord] using hword
  | succ i ih =>
    have hshort : word.toNat < 2 ^ 16 := by
      have hdiv : target.toNat / 2 ^ (8 * (i + 1)) ≤ target.toNat / 2 ^ 8 :=
        Nat.div_le_div_left (Nat.pow_le_pow_right (by omega) (by omega)) (by omega)
      omega
    apply ih
    rw [appendByte_toNat hshort, hword, targetByte_toNat, joinDigit]

theorem threeBytes_toNat {i : Nat} (hbelow : target.toNat < 2 ^ (8 * (i + 3))) :
    (((targetByte target (i + 2)).setWidth 32 <<< 16) |||
      ((targetByte target (i + 1)).setWidth 32 <<< 8) |||
        (targetByte target i).setWidth 32).toNat = target.toNat / 2 ^ (8 * i) := by
  have htop : ((targetByte target (i + 2)).setWidth 32).toNat =
      target.toNat / 2 ^ (8 * (i + 2)) := by
    have hdigit : target.toNat / 2 ^ (8 * (i + 2)) < 256 := by
      rw [Nat.div_lt_iff_lt_mul (Nat.two_pow_pos _)]
      calc target.toNat < 2 ^ (8 * (i + 3)) := hbelow
        _ = 256 * 2 ^ (8 * (i + 2)) := by
          rw [show 8 * (i + 3) = 8 * (i + 2) + 8 by omega, Nat.pow_add, Nat.mul_comm]
    rw [BitVec.toNat_setWidth, targetByte_toNat, Nat.mod_eq_of_lt hdigit,
      Nat.mod_eq_of_lt (by omega)]
  have hshape : ((targetByte target (i + 2)).setWidth 32 <<< 16) |||
      ((targetByte target (i + 1)).setWidth 32 <<< 8) =
        (((targetByte target (i + 2)).setWidth 32 <<< 8) |||
          (targetByte target (i + 1)).setWidth 32) <<< 8 := by
    rw [BitVec.shiftLeft_or_distrib, ← BitVec.shiftLeft_add]
  have hshort : ((targetByte target (i + 2)).setWidth 32).toNat < 2 ^ 16 := by
    rw [BitVec.toNat_setWidth]
    omega
  have hpair := appendByte_toNat hshort (targetByte target (i + 1))
  rw [htop, targetByte_toNat, joinDigit] at hpair
  rw [hshape, appendByte_toNat, hpair, targetByte_toNat, joinDigit]
  rw [hpair, Nat.div_lt_iff_lt_mul (Nat.two_pow_pos _), ← Nat.pow_add]
  exact hbelow.trans_le (Nat.pow_le_pow_right (by omega) (by omega))

theorem leadingWord_toNat (hbelow : target.toNat < 2 ^ (8 * size)) :
    (leadingWord target size).toNat = target.toNat * 2 ^ 24 / 2 ^ (8 * size) := by
  unfold leadingWord
  split
  case isTrue hsize =>
    have hsmall : target.toNat < 2 ^ 24 :=
      hbelow.trans_le (Nat.pow_le_pow_right (by omega) (by omega))
    have hzero : (0 : BitVec 32).toNat = target.toNat / 2 ^ (8 * size) := by
      rw [div_eq_of_lt hbelow]
      rfl
    have hword := gatherWord_toNat hsmall size hzero
    have hsplit : (2 : Nat) ^ 24 = 2 ^ (8 * (3 - size)) * 2 ^ (8 * size) := by
      rw [← Nat.pow_add]
      congr 1
      omega
    have hfits : target.toNat * 2 ^ (8 * (3 - size)) < 2 ^ 24 := by
      rw [hsplit, Nat.mul_comm]
      exact Nat.mul_lt_mul_of_pos_left hbelow (Nat.two_pow_pos _)
    rw [BitVec.toNat_shiftLeft, hword, Nat.shiftLeft_eq, Nat.mod_eq_of_lt (by omega), hsplit,
      ← Nat.mul_assoc, Nat.mul_div_cancel _ (Nat.two_pow_pos _)]
  case isFalse hsize =>
    obtain ⟨i, rfl⟩ : ∃ i, size = i + 3 := ⟨size - 3, by omega⟩
    rw [show i + 3 - 1 = i + 2 by omega, show i + 3 - 2 = i + 1 by omega, Nat.add_sub_cancel,
      threeBytes_toNat hbelow, show 8 * (i + 3) = 8 * i + 24 by omega, Nat.pow_add]
    exact (Nat.mul_div_mul_right _ _ (Nat.two_pow_pos 24)).symm

theorem signBit_iff (hword : word.toNat < 2 ^ 24) :
    word &&& 0x00800000 ≠ 0 ↔ 2 ^ 23 ≤ word.toNat := by
  have hbit : word.getLsbD 23 = decide (word.toNat / 2 ^ 23 % 2 = 1) := by
    rw [← testBit_toNat, testBit_eq_decide_div_mod_eq]
  have hand : word &&& 0x00800000 = if word.getLsbD 23 then twoPow 32 23 else 0 :=
    and_twoPow word 23
  rw [hand, hbit]
  by_cases htop : word.toNat / 2 ^ 23 % 2 = 1
  · simp only [htop, decide_true, if_true]
    refine ⟨fun _ => by omega, fun _ => by decide⟩
  · simp only [htop, decide_false, Bool.false_eq_true, if_false, ne_eq, not_true, false_iff]
    omega

theorem clearSign_fitMantissa (size : Nat) (hword : word.toNat < 2 ^ 24) :
    clearSign (fitMantissa size word) =
      if 2 ^ 23 ≤ word.toNat then (size + 1, word >>> 8) else (size, word) := by
  have hcut : ¬ ((word >>> 8) &&& 0x00800000 ≠ 0) := by
    have hshift : (word >>> 8).toNat < 2 ^ 16 := by
      rw [toNat_ushiftRight, shiftRight_eq_div_pow]
      omega
    rw [signBit_iff (by omega)]
    omega
  have hover : 0x7fffff < word ↔ 2 ^ 23 ≤ word.toNat := by
    exact succ_le_iff.symm
  unfold fitMantissa
  by_cases htop : 2 ^ 23 ≤ word.toNat
  · rw [if_pos htop]
    by_cases hlong : 3 < size
    · rw [if_pos ⟨hlong, hover.mpr htop⟩, clearSign, if_neg hcut]
    · rw [if_neg (fun h => hlong h.1), clearSign, if_pos ((signBit_iff hword).mpr htop)]
  · rw [if_neg htop, if_neg (fun h => htop (hover.mp h.2)), clearSign,
      if_neg (fun h => htop ((signBit_iff hword).mp h))]

/-- What the encoder packs: the leading digits of the target up to its exponent. -/
structure Mantissa (n size word : Nat) : Prop where
  word_eq : word = n * 2 ^ 24 / 2 ^ (8 * size)
  word_lt : word < 2 ^ 23
  size_le : size ≤ 33
  fits : Fits 23 8 (size - 3) n

theorem mantissa_kept (hpos : 0 < size) (hsize : size ≤ 32)
    (hleast : 2 ^ (8 * (size - 1)) ≤ n) (hword : n * 2 ^ 24 / 2 ^ (8 * size) < 2 ^ 23) :
    Mantissa n size (n * 2 ^ 24 / 2 ^ (8 * size)) := by
  refine ⟨rfl, hword, by omega, ?_, ?_⟩
  · rw [Nat.div_lt_iff_lt_mul (Nat.two_pow_pos _), ← Nat.pow_add] at hword
    have hexp : (2 : Nat) ^ (23 + 8 * size) ≤ 2 ^ (8 * (size - 3) + 23 + 24) :=
      Nat.pow_le_pow_right (by omega) (by omega)
    rw [Nat.pow_add 2 _ 24] at hexp
    exact Nat.lt_of_mul_lt_mul_right (hword.trans_le hexp)
  by_cases hshort : size ≤ 3
  · left
    omega
  · right
    exact (Nat.pow_le_pow_right (by omega) (by omega)).trans hleast

theorem mantissa_cut (hpos : 0 < size) (hsize : size ≤ 32)
    (hbelow : n < 2 ^ (8 * size)) (htop : 2 ^ 23 ≤ n * 2 ^ 24 / 2 ^ (8 * size)) :
    Mantissa n (size + 1) (n * 2 ^ 24 / 2 ^ (8 * size) / 2 ^ 8) := by
  have hword : n * 2 ^ 24 / 2 ^ (8 * size) / 2 ^ 8 = n * 2 ^ 24 / 2 ^ (8 * (size + 1)) := by
    rw [Nat.div_div_eq_div_mul, ← Nat.pow_add]
    rfl
  have hsmall : n * 2 ^ 24 / 2 ^ (8 * size) < 2 ^ 24 := by
    rw [Nat.div_lt_iff_lt_mul (Nat.two_pow_pos _), Nat.mul_comm]
    exact Nat.mul_lt_mul_of_pos_left hbelow (Nat.two_pow_pos _)
  refine ⟨hword, by omega, by omega, ?_, ?_⟩
  · exact hbelow.trans_le (Nat.pow_le_pow_right (by omega) (by omega))
  by_cases hshort : size + 1 ≤ 3
  · left
    omega
  right
  rw [Nat.le_div_iff_mul_le (Nat.two_pow_pos _), ← Nat.pow_add] at htop
  have hexp : (2 : Nat) ^ (8 * (size + 1 - 3 - 1) + 23) * 2 ^ 24 = 2 ^ (23 + 8 * size) := by
    rw [← Nat.pow_add]
    congr 1
    omega
  rw [← hexp] at htop
  exact le_of_mul_le_mul_right htop (Nat.two_pow_pos _)

theorem lowWord_toNat (word : BitVec 32) : (word &&& 0x00ffffff).toNat = word.toNat % 2 ^ 24 := by
  exact and_two_pow_sub_one_eq_mod word.toNat 24

theorem packBits_toNat (hsize : size < 256) (hword : word.toNat < 2 ^ 24) :
    (packBits (size, word)).toNat = size * 2 ^ 24 + word.toNat := by
  have hhigh : (BitVec.ofNat 32 size <<< 24).toNat = size <<< 24 := by
    have hwide : size % 2 ^ 32 = size := Nat.mod_eq_of_lt (by omega)
    rw [BitVec.toNat_shiftLeft, BitVec.toNat_ofNat, hwide, Nat.mod_eq_of_lt]
    omega
  unfold packBits
  rw [BitVec.toNat_or, hhigh, lowWord_toNat, Nat.mod_eq_of_lt hword,
    ← Nat.shiftLeft_add_eq_or_of_lt hword, Nat.shiftLeft_eq]

theorem bitsToTarget_toNat (bits : BitVec 32) : (bitsToTarget bits).toNat =
    if bits.toNat / 2 ^ 24 ≤ 3 then bits.toNat % 2 ^ 24 / 2 ^ (8 * (3 - bits.toNat / 2 ^ 24))
    else bits.toNat % 2 ^ 24 * 2 ^ (8 * (bits.toNat / 2 ^ 24 - 3)) % 2 ^ 256 := by
  have hsize : (bits >>> 24).toNat = bits.toNat / 2 ^ 24 := by
    rw [toNat_ushiftRight, shiftRight_eq_div_pow]
  have hword : ((bits &&& 0x00ffffff).setWidth 256).toNat = bits.toNat % 2 ^ 24 := by
    rw [toNat_setWidth, lowWord_toNat]
    omega
  unfold bitsToTarget
  simp only [hsize]
  split
  · rw [toNat_setWidth, toNat_ushiftRight, lowWord_toNat, shiftRight_eq_div_pow]
    apply mod_eq_of_lt
    have := div_le_self (bits.toNat % 2 ^ 24) (2 ^ (8 * (3 - bits.toNat / 2 ^ 24)))
    omega
  · rw [BitVec.toNat_shiftLeft, hword, Nat.shiftLeft_eq]

theorem bitsToTarget_packBits (h : Mantissa n size word.toNat) (hn : n < 2 ^ 256) :
    (bitsToTarget (packBits (size, word))).toNat = roundDown 8 (size - 3) n := by
  have hlt := h.word_lt
  have hsize : (packBits (size, word)).toNat / 2 ^ 24 = size := by
    rw [packBits_toNat (by have := h.size_le; omega) (by omega)]
    omega
  have hword : (packBits (size, word)).toNat % 2 ^ 24 = word.toNat := by
    rw [packBits_toNat (by have := h.size_le; omega) (by omega)]
    omega
  rw [bitsToTarget_toNat, hsize, hword, h.word_eq]
  unfold roundDown
  split
  case isTrue hshort =>
    have hsplit : (2 : Nat) ^ 24 = 2 ^ (8 * (3 - size)) * 2 ^ (8 * size) := by
      rw [← Nat.pow_add]
      congr 1
      omega
    rw [hsplit, ← Nat.mul_assoc, Nat.mul_div_cancel _ (Nat.two_pow_pos _),
      Nat.mul_div_cancel _ (Nat.two_pow_pos _), Nat.sub_eq_zero_of_le hshort]
    simp
  case isFalse hlong =>
    have hsplit : (2 : Nat) ^ (8 * size) = 2 ^ (8 * (size - 3)) * 2 ^ 24 := by
      rw [← Nat.pow_add]
      congr 1
      omega
    rw [hsplit, Nat.mul_div_mul_right _ _ (Nat.two_pow_pos _)]
    exact Nat.mod_eq_of_lt ((Nat.div_mul_le_self _ _).trans_lt hn)

/-- The size that the encoder packs: the least that leaves the top bit clear. -/
structure Sized (n size : Nat) : Prop where
  below : 2 * n < 2 ^ (8 * size)
  least : size = 0 ∨ 2 ^ (8 * (size - 1)) ≤ 2 * n

theorem exists_sized (target : BitVec 256) :
    ∃ size word, Sized target.toNat size ∧ Mantissa target.toNat size word.toNat ∧
      targetToBitsUpperBound target = packBits (size, word) := by
  obtain ⟨hbelow, hleast⟩ := targetSize_spec target 32 target.isLt
  have hsize := targetSize_le target 32
  unfold targetToBitsUpperBound
  generalize targetSize target 32 = size at hbelow hleast hsize
  by_cases hzero : size = 0
  · subst hzero
    have hnull : target.toNat = 0 := by omega
    rw [hnull]
    exact ⟨0, 0, ⟨by decide, Or.inl rfl⟩, ⟨rfl, by decide, by decide, ⟨by decide, Or.inl rfl⟩⟩, rfl⟩
  have hpos : 0 < size := pos_of_ne_zero hzero
  have hleading := leadingWord_toNat hbelow
  have hsmall : (leadingWord target size).toNat < 2 ^ 24 := by
    rw [hleading, Nat.div_lt_iff_lt_mul (Nat.two_pow_pos _), Nat.mul_comm]
    exact Nat.mul_lt_mul_of_pos_left hbelow (Nat.two_pow_pos _)
  simp only [hzero, if_false, clearSign_fitMantissa size hsmall]
  split
  · rename_i htop
    rw [hleading] at htop
    refine ⟨size + 1, leadingWord target size >>> 8, ⟨?_, Or.inr ?_⟩, ?_, rfl⟩
    · rw [Nat.mul_succ, Nat.pow_add]
      omega
    · rw [Nat.le_div_iff_mul_le (Nat.two_pow_pos _)] at htop
      rw [Nat.add_sub_cancel]
      omega
    · rw [toNat_ushiftRight, shiftRight_eq_div_pow, hleading]
      exact mantissa_cut hpos hsize hbelow htop
  rename_i htop
  rw [hleading] at htop
  have hclear := not_le.mp htop
  rw [Nat.div_lt_iff_lt_mul (Nat.two_pow_pos _)] at hclear
  have hfirst := hleast hpos
  refine ⟨size, leadingWord target size, ⟨by omega, Or.inr (by omega)⟩, ?_, rfl⟩
  rw [hleading]
  exact mantissa_kept hpos hsize hfirst (by omega)

theorem decoded_eq_roundDown (target : BitVec 256) :
    ∃ e, Fits 23 8 e target.toNat ∧
      (bitsToTarget (targetToBitsUpperBound target)).toNat = roundDown 8 e target.toNat := by
  obtain ⟨size, word, -, hmantissa, henc⟩ := exists_sized target
  rw [henc]
  exact ⟨_, hmantissa.fits, bitsToTarget_packBits hmantissa target.isLt⟩

def encodedTarget (target : BitVec 256) : BitVec 256 :=
  bitsToTarget (targetToBitsUpperBound target)

theorem encodedTarget_le (target : BitVec 256) : encodedTarget target ≤ target := by
  obtain ⟨e, -, heq⟩ := decoded_eq_roundDown target
  rw [le_def, encodedTarget, heq]
  exact roundDown_le 8 e _

theorem encodedTarget_pos {target : BitVec 256} (h : 0 < target) : 0 < encodedTarget target := by
  obtain ⟨e, hfits, heq⟩ := decoded_eq_roundDown target
  rw [lt_def, encodedTarget, heq]
  exact roundDown_pos (by omega) hfits h

theorem encodedTarget_mono {a b : BitVec 256} (h : a ≤ b) :
    encodedTarget a ≤ encodedTarget b := by
  obtain ⟨ea, hfitsA, heqA⟩ := decoded_eq_roundDown a
  obtain ⟨eb, hfitsB, heqB⟩ := decoded_eq_roundDown b
  rw [le_def, encodedTarget, encodedTarget, heqA, heqB]
  exact roundDown_mono (by omega) hfitsA hfitsB h

end C2Pool.Ltc
