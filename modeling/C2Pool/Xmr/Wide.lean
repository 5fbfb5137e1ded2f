import C2Pool.Lib.Limbs
import C2Pool.Xmr.Rules

/-! # Wide integers of the payout window and of the reward

The exact 320-bit products and the long division of `pathb_wide.hpp`, on limbs of
64 bits, lowest first; and the block reward over the 128-bit helpers of
`xmr_reward.hpp`.
-/

namespace C2Pool.Xmr

open List Limbs Nat Fin

abbrev U16 := Fin (2 ^ 16)

/-- `Work`: the 256-bit weights and sums of the window. -/
abbrev Work := BitVec 256

namespace Wide

/-- `Work(x)`. -/
def ofU64 (x : U64) : Work := BitVec.ofNat 256 x.val

/-- The four limbs of a `Work`. -/
def limbs (a : Work) : List Nat := Limbs.ofNat 64 4 a.toNat

def mulU256U64 (a : Work) (m : U64) : List Nat := Limbs.mulCarry 64 m.val (limbs a) 0

def mulU64U64 (a b : U64) : List Nat :=
  let p := a.val * b.val
  [p % 2 ^ 64, (p >>> 64) % 2 ^ 64, 0, 0, 0]

/-- `divmod_u320_u256`: the quotient, all ones when it does not fit, and the
remainder.  The divisor gets a fifth limb, for the remainder's shift. -/
def divmodU320U256 (num : List Nat) (den : Work) : U64 × Work :=
  let s := Limbs.divide 64 num (limbs den ++ [0])
  (if s.high then Fin.last (2 ^ 64 - 1) else Fin.ofNat (2 ^ 64) s.quot,
    BitVec.ofNat 256 (Limbs.value 64 (s.rem.take 4)))

def shareFloor (x : U64) (bp : U16) : U64 := Fin.ofNat (2 ^ 64) (x.val * bp.val / 10000)

theorem toNat_ofU64 (x : U64) : (ofU64 x).toNat = x.val := by
  unfold ofU64
  exact mod_eq_of_lt (lt_trans x.isLt (by decide))

@[simp] theorem value_limbs (a : Work) : Limbs.value 64 (limbs a) = a.toNat :=
  value_ofNat a.isLt

theorem bounded_limbs (a : Work) : Limbs.Bounded 64 (limbs a) :=
  bounded_ofNat _ _ _

@[simp] theorem length_limbs (a : Work) : (limbs a).length = 4 :=
  length_ofNat _ _ _

theorem value_mulU256U64 (a : Work) (m : U64) :
    Limbs.value 64 (mulU256U64 a m) = a.toNat * m.val := by
  unfold mulU256U64
  rw [value_mulCarry m.isLt (bounded_limbs a) (by decide), value_limbs, add_zero]

theorem bounded_mulU256U64 (a : Work) (m : U64) : Limbs.Bounded 64 (mulU256U64 a m) :=
  bounded_mulCarry _ _ _ _

@[simp] theorem length_mulU256U64 (a : Work) (m : U64) : (mulU256U64 a m).length = 5 := by
  simp [mulU256U64]

theorem mul_lt (a b : U64) : a.val * b.val < 2 ^ 64 * 2 ^ 64 :=
  mul_lt_mul'' a.isLt b.isLt

theorem value_mulU64U64 (a b : U64) : Limbs.value 64 (mulU64U64 a b) = a.val * b.val := by
  have hhigh : (a.val * b.val) / 2 ^ 64 < 2 ^ 64 := Nat.div_lt_of_lt_mul (mul_lt a b)
  simp only [mulU64U64, value_cons, value_nil, Nat.shiftRight_eq_div_pow,
    mod_eq_of_lt hhigh, mul_zero, add_zero]
  exact mod_add_div _ _

theorem bounded_mulU64U64 (a b : U64) : Limbs.Bounded 64 (mulU64U64 a b) := by
  simp [mulU64U64, mod_lt]

theorem less_mul {a b : List Nat} (ha : Limbs.Bounded 64 a) (hb : Limbs.Bounded 64 b)
    (hlength : a.length = b.length) :
    Limbs.less a b = decide (Limbs.value 64 a < Limbs.value 64 b) := by
  rw [Bool.eq_iff_iff, less_iff ha hb hlength, decide_eq_true_iff]

/-- The division of the split: with a quotient that fits it is exact. -/
theorem divmodU320U256_eq {num : List Nat} {den : Work} (hnum : Limbs.Bounded 64 num)
    (hpos : 0 < den.toNat) (hfits : Limbs.value 64 num / den.toNat < 2 ^ 64) :
    (divmodU320U256 num den).1.val = Limbs.value 64 num / den.toNat ∧
      (divmodU320U256 num den).2.toNat = Limbs.value 64 num % den.toNat := by
  have hvalue : value 64 (limbs den ++ [0]) = den.toNat := by
    rw [← value_limbs den]
    simp [limbs, ofNat]
  have hbounded : Limbs.Bounded 64 (limbs den ++ [0]) := by
    intro d hd
    rcases mem_append.mp hd with hd | hd
    · exact bounded_limbs den d hd
    · rw [mem_singleton.mp hd]
      exact Nat.two_pow_pos 64
  have hlt : den.toNat < 2 ^ 256 := den.isLt
  have hspec := divide_spec (w := 64) (by decide) hnum hbounded (by rwa [hvalue]) (by
    rw [hvalue, length_append, length_limbs, length_singleton]
    omega)
  rw [hvalue] at hspec
  obtain ⟨hremBounded, hrem, hquot, hhigh⟩ := hspec
  have hlow : (divide 64 num (limbs den ++ [0])).high = false := by
    rw [Bool.eq_false_iff]
    intro h
    exact absurd (hhigh.mp h) (not_le.mpr hfits)
  constructor
  · simp only [divmodU320U256, hlow, Bool.false_eq_true, if_false, hquot]
    rw [val_ofNat, mod_mod, mod_eq_of_lt hfits]
  have hsmall : value 64 num % den.toNat < 2 ^ 256 := lt_trans (mod_lt _ hpos) hlt
  simp only [divmodU320U256]
  rw [BitVec.toNat_ofNat, value_take hremBounded, hrem, mod_eq_of_lt hsmall, mod_eq_of_lt hsmall]

end Wide

/-! ## The block reward -/

/-- The two words of a 128-bit number. -/
def U128.ofNat (x : Nat) : U128 where
  hi := Fin.ofNat (2 ^ 64) (x / 2 ^ 64)
  lo := Fin.ofNat (2 ^ 64) x

def U128.toNat (x : U128) : Nat := x.hi.val * 2 ^ 64 + x.lo.val

/-- `mul128` with a 128-bit type. -/
def mul128 (a b : U64) : U128 := U128.ofNat (a.val * b.val)

/-- `div128_64` with a 128-bit type: the quotient and the remainder. -/
def div128By64 (n : U128) (divisor : U64) : U128 × U64 :=
  if divisor = 0 then ({}, 0)
  else (U128.ofNat (n.toNat / divisor.val), Fin.ofNat (2 ^ 64) (n.toNat % divisor.val))

def mul128Portable (a b : U64) : U128 :=
  let aLo := a.val % 2 ^ 32
  let aHi := a.val >>> 32
  let bLo := b.val % 2 ^ 32
  let bHi := b.val >>> 32
  let p0 := aLo * bLo % 2 ^ 64
  let p1 := aLo * bHi % 2 ^ 64
  let p2 := aHi * bLo % 2 ^ 64
  let p3 := aHi * bHi % 2 ^ 64
  let mid := (p0 >>> 32 + p1 % 2 ^ 32 + p2 % 2 ^ 32) % 2 ^ 64
  { hi := Fin.ofNat (2 ^ 64) (p3 + p1 >>> 32 + p2 >>> 32 + mid >>> 32)
    lo := Fin.ofNat (2 ^ 64) (p0 % 2 ^ 32 ||| (mid <<< 32) % 2 ^ 64) }

/-- The loop of `div128_64_portable`, for the bits below `i`: the remainder and the words of the
quotient. -/
def div128Loop (n : U128) (divisor : Nat) : Nat → Nat × Nat × Nat → Nat × Nat × Nat
  | 0, s => s
  | i + 1, (rem, hi, lo) =>
    let bit := if 64 ≤ i then (n.hi.val >>> (i - 64)) % 2 else (n.lo.val >>> i) % 2
    let rem := (rem <<< 1) % 2 ^ 64 ||| bit
    if divisor ≤ rem then
      if 64 ≤ i then div128Loop n divisor i (rem - divisor, hi ||| 1 <<< (i - 64), lo)
      else div128Loop n divisor i (rem - divisor, hi, lo ||| 1 <<< i)
    else div128Loop n divisor i (rem, hi, lo)

def div128By64Portable (n : U128) (divisor : U64) : U128 × U64 :=
  if divisor = 0 then ({}, 0)
  else
    let (rem, hi, lo) := div128Loop n divisor.val 128 (0, 0, 0)
    ({ hi := Fin.ofNat (2 ^ 64) hi, lo := Fin.ofNat (2 ^ 64) lo }, Fin.ofNat (2 ^ 64) rem)

def raisedMedian (medianWeight : U64) (version : U8) : U64 :=
  if medianWeight < minBlockWeight version then minBlockWeight version else medianWeight

/-- `get_block_reward` over the 128-bit helpers it is built with. -/
def getBlockRewardOn (mul : U64 → U64 → U128) (div : U128 → U64 → U128 × U64)
    (medianWeight currentBlockWeight alreadyGeneratedCoins : U64) (version : U8) : Option U64 :=
  let base := emissionBaseReward alreadyGeneratedCoins version
  let medianWeight := raisedMedian medianWeight version
  if currentBlockWeight ≤ medianWeight then some base
  else if 2 * medianWeight < currentBlockWeight then none
  else
    let multiplicand := (2 * medianWeight - currentBlockWeight) * currentBlockWeight
    let r := (div (div (mul base multiplicand) medianWeight).1 medianWeight).1
    if r.hi ≠ 0 ∨ base ≤ r.lo then none else some r.lo

theorem U128.toNat_ofNat {x : Nat} (h : x < 2 ^ 128) : (U128.ofNat x).toNat = x := by
  have hhi : x / 2 ^ 64 % 2 ^ 64 = x / 2 ^ 64 := mod_eq_of_lt (by omega)
  show x / 2 ^ 64 % 2 ^ 64 * 2 ^ 64 + x % 2 ^ 64 = x
  omega

/-- No partial product, nor the sum in the middle, wraps around. -/
theorem mul128Portable_eq (a b : U64) : mul128Portable a b = mul128 a b := by
  have ha := a.isLt
  have hb := b.isLt
  have hprod : ∀ {x y : Nat}, x < 2 ^ 32 → y < 2 ^ 32 → x * y ≤ (2 ^ 32 - 1) * (2 ^ 32 - 1) :=
    fun hx hy => Nat.mul_le_mul (by omega) (by omega)
  have halo : a.val % 2 ^ 32 < 2 ^ 32 := Nat.mod_lt _ (by decide)
  have hblo : b.val % 2 ^ 32 < 2 ^ 32 := Nat.mod_lt _ (by decide)
  have hahi : a.val / 2 ^ 32 < 2 ^ 32 := by omega
  have hbhi : b.val / 2 ^ 32 < 2 ^ 32 := by omega
  have h0 := hprod halo hblo
  have h1 := hprod halo hbhi
  have h2 := hprod hahi hblo
  have h3 := hprod hahi hbhi
  have hsplit : a.val * b.val = a.val / 2 ^ 32 * (b.val / 2 ^ 32) * 2 ^ 64 +
      (a.val % 2 ^ 32 * (b.val / 2 ^ 32) + a.val / 2 ^ 32 * (b.val % 2 ^ 32)) * 2 ^ 32 +
      a.val % 2 ^ 32 * (b.val % 2 ^ 32) := by
    conv_lhs => rw [← Nat.mod_add_div a.val (2 ^ 32), ← Nat.mod_add_div b.val (2 ^ 32)]
    ring
  unfold mul128Portable mul128 U128.ofNat
  rw [hsplit]
  simp only [Nat.shiftRight_eq_div_pow]
  generalize a.val % 2 ^ 32 * (b.val % 2 ^ 32) = p0 at *
  generalize a.val % 2 ^ 32 * (b.val / 2 ^ 32) = p1 at *
  generalize a.val / 2 ^ 32 * (b.val % 2 ^ 32) = p2 at *
  generalize a.val / 2 ^ 32 * (b.val / 2 ^ 32) = p3 at *
  rw [Nat.mod_eq_of_lt (by omega : p0 < 2 ^ 64), Nat.mod_eq_of_lt (by omega : p1 < 2 ^ 64),
    Nat.mod_eq_of_lt (by omega : p2 < 2 ^ 64), Nat.mod_eq_of_lt (by omega : p3 < 2 ^ 64)]
  obtain ⟨mid, hmid⟩ : ∃ mid, mid = p0 / 2 ^ 32 + p1 % 2 ^ 32 + p2 % 2 ^ 32 := ⟨_, rfl⟩
  have hor : p0 % 2 ^ 32 ||| (mid <<< 32) % 2 ^ 64 = p0 % 2 ^ 32 + 2 ^ 32 * (mid % 2 ^ 32) := by
    have hlimb := @limb_or 64 32 (p0 % 2 ^ 32 * 2 ^ 32) mid (by decide) (by omega)
    rwa [Nat.shiftRight_eq_div_pow, Nat.mul_div_cancel _ (by decide)] at hlimb
  rw [← hmid, Nat.mod_eq_of_lt (by omega : mid < 2 ^ 64), hor, U128.mk.injEq, Fin.ext_iff,
    Fin.ext_iff]
  simp only [Fin.ofNat]
  omega

theorem div128Loop_bit (n : U128) {i : Nat} (hi : i < 128) :
    (if 64 ≤ i then (n.hi.val >>> (i - 64)) % 2 else (n.lo.val >>> i) % 2) =
      n.toNat / 2 ^ i % 2 := by
  have hwords : Bounded 64 [n.lo.val, n.hi.val] := by
    simp only [bounded_cons, bounded_nil, and_true]
    exact ⟨n.lo.isLt, n.hi.isLt⟩
  have hvalue : value 64 [n.lo.val, n.hi.val] = n.toNat := by
    simp only [value_cons, value_nil, U128.toNat]
    omega
  have hbit := bit_eq (by decide) hwords i
  rw [hvalue, Limbs.bit] at hbit
  rw [← hbit]
  split
  · rw [show i / 64 = 1 by omega, show i % 64 = i - 64 by omega]
    rfl
  · rw [show i / 64 = 0 by omega, show i % 64 = i by omega]
    rfl

theorem quotient_bit (X i : Nat) :
    (64 ≤ i → X * 2 ^ (i + 1) / 2 ^ 64 ||| 1 <<< (i - 64) = (2 * X + 1) * 2 ^ i / 2 ^ 64 ∧
      X * 2 ^ (i + 1) % 2 ^ 64 = (2 * X + 1) * 2 ^ i % 2 ^ 64) ∧
    (i < 64 → X * 2 ^ (i + 1) / 2 ^ 64 = (2 * X + 1) * 2 ^ i / 2 ^ 64 ∧
      X * 2 ^ (i + 1) % 2 ^ 64 ||| 1 <<< i = (2 * X + 1) * 2 ^ i % 2 ^ 64) := by
  have hsum : (2 * X + 1) * 2 ^ i = X * 2 ^ (i + 1) + 2 ^ i := by ring
  constructor
  · intro hi
    obtain ⟨j, rfl⟩ := Nat.exists_eq_add_of_le hi
    have hshift (Y : Nat) : Y * 2 ^ (64 + j) = 2 ^ 64 * (Y * 2 ^ j) := by ring
    have hnext : X * 2 ^ (64 + j + 1) = 2 ^ 64 * (X <<< (j + 1)) := by
      rw [Nat.shiftLeft_eq]
      ring
    rw [Nat.add_sub_cancel_left, hshift, hnext, Nat.mul_div_cancel_left _ (by decide),
      Nat.mul_div_cancel_left _ (by decide), Nat.mul_mod_right, Nat.mul_mod_right, one_shiftLeft,
      ← Nat.shiftLeft_add_eq_or_of_lt (Nat.pow_lt_pow_right (by decide) (Nat.lt_add_one j)),
      Nat.shiftLeft_eq]
    exact ⟨by ring, rfl⟩
  intro hi
  have hpow : 2 ^ 64 = 2 ^ (i + 1) * 2 ^ (63 - i) := by
    rw [← Nat.pow_add]
    congr 1
    omega
  have hplace : (X * 2 ^ (i + 1) + 2 ^ i) / 2 ^ (i + 1) = X := by
    rw [Nat.add_comm, Nat.add_mul_div_right _ _ (Nat.two_pow_pos _),
      Nat.div_eq_of_lt (Nat.pow_lt_pow_right (by decide) (Nat.lt_add_one i)), Nat.zero_add]
  refine ⟨?_, ?_⟩
  · rw [hsum, hpow, ← Nat.div_div_eq_div_mul, ← Nat.div_div_eq_div_mul, hplace,
      Nat.mul_div_cancel _ (Nat.two_pow_pos _)]
  · rw [(@or_bit 64 i X hi).1, hsum]

/-- After the bits from `i` on: the remainder of the part read, and its quotient in place. -/
theorem div128Loop_eq (n : U128) {d : Nat} (hd : 0 < d) (hlow : d < 2 ^ 63) {i : Nat}
    (hi : i ≤ 128) :
    div128Loop n d i (n.toNat / 2 ^ i % d, n.toNat / 2 ^ i / d * 2 ^ i / 2 ^ 64,
      n.toNat / 2 ^ i / d * 2 ^ i % 2 ^ 64) =
        (n.toNat % d, n.toNat / d / 2 ^ 64, n.toNat / d % 2 ^ 64) := by
  induction i with
  | zero => simp [div128Loop]
  | succ i ih =>
    rw [← ih (by omega)]
    have hhalf : n.toNat / 2 ^ i = 2 * (n.toNat / 2 ^ (i + 1)) + n.toNat / 2 ^ i % 2 := by
      rw [Nat.pow_succ, ← Nat.div_div_eq_div_mul]
      omega
    have hbit := div128Loop_bit n (by omega : i < 128)
    have hb : n.toNat / 2 ^ i % 2 < 2 := mod_lt _ (by decide)
    generalize n.toNat / 2 ^ i % 2 = b at hhalf hbit hb
    rw [hhalf]
    generalize n.toNat / 2 ^ (i + 1) = A
    have hA := mod_add_div A d
    have hr := mod_lt A hd
    obtain ⟨hhigh, hword⟩ := quotient_bit (A / d) i
    rw [div128Loop, hbit, (@limb_shift 64 b (A % d) (by decide) (by omega) hb).1,
      mod_eq_of_lt (by omega : 2 * (A % d) + b < 2 ^ 64)]
    generalize A / d = X at *
    generalize A % d = r at *
    split
    · rename_i hle
      have hsplit : 2 * A + b = (2 * r + b - d) + d * (2 * X + 1) := by
        have htwice : d * (2 * X + 1) = 2 * (d * X) + d := by ring
        omega
      have hdiv : (2 * A + b) / d = 2 * X + 1 := by
        rw [hsplit, add_mul_div_left _ _ hd, div_eq_of_lt (by omega), zero_add]
      have hmod : (2 * A + b) % d = 2 * r + b - d := by
        rw [hsplit, add_mul_mod_self_left, mod_eq_of_lt (by omega)]
      rw [hdiv, hmod]
      split
      · rename_i h64
        rw [(hhigh h64).1, (hhigh h64).2]
      · rename_i h64
        rw [(hword (by omega)).1, (hword (by omega)).2]
    rename_i hlt
    have hsplit : 2 * A + b = (2 * r + b) + d * (2 * X) := by
      have htwice : d * (2 * X) = 2 * (d * X) := by ring
      omega
    have hdiv : (2 * A + b) / d = 2 * X := by
      rw [hsplit, add_mul_div_left _ _ hd, div_eq_of_lt (by omega), zero_add]
    have hmod : (2 * A + b) % d = 2 * r + b := by
      rw [hsplit, add_mul_mod_self_left, mod_eq_of_lt (by omega)]
    rw [hdiv, hmod, pow_succ, mul_comm (2 ^ i), ← mul_assoc, mul_comm X 2]

theorem div128By64Portable_eq (n : U128) {divisor : U64} (hlow : divisor.val < 2 ^ 63) :
    div128By64Portable n divisor = div128By64 n divisor := by
  unfold div128By64Portable div128By64
  split
  · rfl
  rename_i hne
  have hpos : 0 < divisor.val := Nat.pos_of_ne_zero fun hz => hne (Fin.ext hz)
  have hloop := div128Loop_eq n hpos hlow le_rfl
  have hsmall : n.toNat / 2 ^ 128 = 0 := by
    have hhi := n.hi.isLt
    have hlo := n.lo.isLt
    exact Nat.div_eq_of_lt (by unfold U128.toNat; omega)
  simp only [hsmall, Nat.zero_mod, Nat.zero_div, Nat.zero_mul] at hloop
  simp only [hloop, U128.ofNat, Fin.ofNat, Nat.mod_mod]

theorem div128By64_ofNat {x : Nat} (hx : x < 2 ^ 128) {divisor : U64} (hne : divisor ≠ 0) :
    (div128By64 (U128.ofNat x) divisor).1 = U128.ofNat (x / divisor.val) := by
  rw [div128By64, if_neg hne, U128.toNat_ofNat hx]

theorem raisedMedian_pos (medianWeight : U64) (version : U8) :
    0 < (raisedMedian medianWeight version).val := by
  have hzone : 0 < minBlockWeight version := by
    unfold minBlockWeight
    split
    · decide
    · split <;> decide
  unfold raisedMedian
  split
  · exact hzone
  · rename_i hle
    exact lt_of_lt_of_le hzone (not_lt.mp hle)

theorem emissionBaseReward_pos (coins : U64) (version : U8) :
    0 < (emissionBaseReward coins version).val := by
  have hmax {tail x : U64} (htail : 0 < tail) : 0 < if x < tail then tail else x := by
    split
    · exact htail
    · rename_i hle
      exact lt_of_lt_of_le htail (not_lt.mp hle)
  unfold emissionBaseReward
  apply hmax
  split <;> decide

def penalized (base m w : Nat) : Nat := base * ((2 * m - w) * w) / m / m

theorem penalty_mono {m w w' : Nat} (hm : m ≤ w) (hle : w ≤ w') (htop : w' ≤ 2 * m) :
    (2 * m - w') * w' ≤ (2 * m - w) * w := by
  obtain ⟨x, rfl⟩ := Nat.exists_eq_add_of_le hm
  obtain ⟨y, rfl⟩ := Nat.exists_eq_add_of_le hle
  obtain ⟨z, hz⟩ := Nat.exists_eq_add_of_le htop
  rw [show 2 * m - (m + x + y) = z by omega, show 2 * m - (m + x) = z + y by omega,
    show m = x + y + z by omega]
  ring_nf
  omega

theorem penalized_lt {base m w : Nat} (hbase : 0 < base) (hlt : m < w) (htop : w ≤ 2 * m) :
    penalized base m w < base := by
  have hlast : (2 * m - w) * w < m * m := by
    obtain ⟨x, rfl⟩ := Nat.exists_eq_add_of_lt hlt
    obtain ⟨z, hz⟩ := Nat.exists_eq_add_of_le htop
    rw [show 2 * m - (m + x + 1) = z by omega, show m = x + 1 + z by omega]
    ring_nf
    omega
  rw [penalized, Nat.div_div_eq_div_mul]
  apply Nat.div_lt_of_lt_mul
  rw [Nat.mul_comm]
  exact Nat.mul_lt_mul_of_pos_right hlast hbase

theorem penalty_le {m w : Nat} (hm : m ≤ w) (htop : w ≤ 2 * m) : (2 * m - w) * w ≤ m * m := by
  have h := penalty_mono le_rfl hm htop
  rwa [Nat.two_mul, Nat.add_sub_cancel, ← Nat.two_mul] at h

section Reward

variable (medianWeight w coins : U64) (version : U8)

theorem getBlockReward_raised : getBlockReward medianWeight w coins version =
    let base := emissionBaseReward coins version
    let m := raisedMedian medianWeight version
    if w ≤ m then some base
    else if 2 * m < w then none
    else if base.val ≤ base.val * ((2 * m - w) * w).val / m.val / m.val then none
    else some (Fin.ofNat (2 ^ 64) (base.val * ((2 * m - w) * w).val / m.val / m.val)) := rfl

/-- The two words of the second quotient refuse what the quotient itself refuses. -/
theorem getBlockRewardOn_eq : getBlockRewardOn mul128 div128By64 medianWeight w coins version =
    getBlockReward medianWeight w coins version := by
  have hpos := raisedMedian_pos medianWeight version
  have hne : raisedMedian medianWeight version ≠ 0 := fun hz => by simp [hz] at hpos
  have hwide (base x : U64) : base.val * x.val < 2 ^ 128 :=
    (Nat.mul_lt_mul'' base.isLt x.isLt).trans_le (by norm_num)
  rw [getBlockReward_raised]
  unfold getBlockRewardOn
  generalize raisedMedian medianWeight version = m at *
  generalize emissionBaseReward coins version = base
  dsimp only
  split
  · rfl
  split
  · rfl
  generalize (2 * m - w) * w = x
  rw [mul128, div128By64_ofNat (hwide base x) hne,
    div128By64_ofNat ((Nat.div_le_self _ _).trans_lt (hwide base x)) hne]
  have hr : base.val * x.val / m.val / m.val < 2 ^ 128 :=
    (Nat.div_le_self _ _).trans_lt ((Nat.div_le_self _ _).trans_lt (hwide base x))
  generalize base.val * x.val / m.val / m.val = r at hr
  have hb := base.isLt
  have hiff : (U128.ofNat r).hi ≠ 0 ∨ base ≤ (U128.ofNat r).lo ↔ base.val ≤ r := by
    rw [ne_eq, Fin.ext_iff, Fin.le_def]
    simp only [U128.ofNat, Fin.ofNat, Fin.val_zero]
    omega
  simp only [hiff]
  rfl

variable {medianWeight w coins version}

/-- The formula over the integers. -/
theorem getBlockReward_eq (hm : (raisedMedian medianWeight version).val < 2 ^ 31) :
    getBlockReward medianWeight w coins version =
      if w.val ≤ (raisedMedian medianWeight version).val then
        some (emissionBaseReward coins version)
      else if 2 * (raisedMedian medianWeight version).val < w.val then none
      else some (Fin.ofNat (2 ^ 64) (penalized (emissionBaseReward coins version).val
        (raisedMedian medianWeight version).val w.val)) := by
  have hpos := raisedMedian_pos medianWeight version
  have hbase := emissionBaseReward_pos coins version
  rw [getBlockReward_raised]
  generalize raisedMedian medianWeight version = m at *
  generalize emissionBaseReward coins version = base at *
  have hdouble : (2 * m).val = 2 * m.val := by
    rw [val_mul]
    exact mod_eq_of_lt (by simp; omega)
  simp only [le_def, lt_def, hdouble]
  split
  · rfl
  split
  · rfl
  rename_i hlt hle
  have hmul : ((2 * m - w) * w).val = (2 * m.val - w.val) * w.val := by
    rw [val_mul, sub_val_of_le (by rw [le_def, hdouble]; omega), hdouble]
    exact Nat.mod_eq_of_lt ((penalty_le (by omega) (by omega)).trans_lt
      ((Nat.mul_lt_mul'' hm hm).trans (by decide)))
  have hless := penalized_lt hbase (by omega : m.val < w.val) (by omega)
  rw [hmul, ← penalized, if_neg (by omega)]

theorem getBlockReward_eq_some (hm : (raisedMedian medianWeight version).val < 2 ^ 31) {r : U64}
    (h : getBlockReward medianWeight w coins version = some r) :
    w.val ≤ 2 * (raisedMedian medianWeight version).val ∧
      r.val = if w.val ≤ (raisedMedian medianWeight version).val
        then (emissionBaseReward coins version).val
        else penalized (emissionBaseReward coins version).val
          (raisedMedian medianWeight version).val w.val := by
  have hbase := emissionBaseReward_pos coins version
  rw [getBlockReward_eq hm] at h
  split at h
  · rename_i hle
    cases h
    exact ⟨by omega, (if_pos hle).symm⟩
  split at h
  · cases h
  rename_i hle htop
  cases h
  have hless := penalized_lt hbase
    (by omega : (raisedMedian medianWeight version).val < w.val) (by omega)
  have hb := (emissionBaseReward coins version).isLt
  rw [if_neg hle]
  exact ⟨by omega, mod_eq_of_lt (by omega)⟩

theorem getBlockReward_isSome (hm : (raisedMedian medianWeight version).val < 2 ^ 31) :
    (getBlockReward medianWeight w coins version).isSome = true ↔
      w.val ≤ 2 * (raisedMedian medianWeight version).val := by
  rw [getBlockReward_eq hm]
  split
  · exact iff_of_true rfl (by omega)
  split
  · exact iff_of_false (by simp) (by omega)
  · exact iff_of_true rfl (by omega)

theorem getBlockReward_between (hm : (raisedMedian medianWeight version).val < 2 ^ 31)
    (hlt : (raisedMedian medianWeight version).val < w.val)
    (hle : w.val ≤ 2 * (raisedMedian medianWeight version).val) :
    ∃ r, getBlockReward medianWeight w coins version = some r ∧
      r.val = penalized (emissionBaseReward coins version).val
        (raisedMedian medianWeight version).val w.val ∧ r < emissionBaseReward coins version := by
  have hless := penalized_lt (emissionBaseReward_pos coins version) hlt hle
  have hsome := Option.isSome_iff_exists.mp ((@getBlockReward_isSome _ _ coins _ hm).mpr hle)
  obtain ⟨r, hr⟩ := hsome
  have hval := (getBlockReward_eq_some hm hr).2
  rw [if_neg (by omega)] at hval
  exact ⟨r, hr, hval, by rwa [lt_def, hval]⟩

theorem getBlockReward_mono (hm : (raisedMedian medianWeight version).val < 2 ^ 31) {w' r r' : U64}
    (hle : w ≤ w') (hr : getBlockReward medianWeight w coins version = some r)
    (hr' : getBlockReward medianWeight w' coins version = some r') : r' ≤ r := by
  obtain ⟨htop, hval⟩ := getBlockReward_eq_some hm hr
  obtain ⟨htop', hval'⟩ := getBlockReward_eq_some hm hr'
  rw [le_def] at hle ⊢
  rw [hval, hval']
  split
  · rw [if_pos (by omega)]
  rename_i hlt'
  have hless := penalized_lt (emissionBaseReward_pos coins version)
    (by omega : (raisedMedian medianWeight version).val < w'.val) htop'
  split
  · exact hless.le
  · exact Nat.div_le_div_right (Nat.div_le_div_right (Nat.mul_le_mul_left _
      (penalty_mono (by omega) hle htop')))

end Reward

/-- **The penalty is total, exact and monotone.**  Up to twice the median every weight has a reward,
and beyond none has; up to the median it is the emission, then the formula over the integers, below
the emission and falling; and both spellings of the 128-bit helpers give it. -/
theorem block_reward_exact (medianWeight coins : U64) (version : U8)
    (hm : (raisedMedian medianWeight version).val < 2 ^ 31) :
    let m := (raisedMedian medianWeight version).val
    let base := emissionBaseReward coins version
    let reward := fun w => getBlockReward medianWeight w coins version
    (∀ w : U64, (reward w).isSome = true ↔ w.val ≤ 2 * m) ∧
      (∀ w : U64, w.val ≤ m → reward w = some base) ∧
      (∀ w : U64, m < w.val → w.val ≤ 2 * m →
        (2 * m - w.val) * w.val < 2 ^ 64 ∧ base.val * ((2 * m - w.val) * w.val) < 2 ^ 128 ∧
          ∃ r, reward w = some r ∧ r.val = base.val * ((2 * m - w.val) * w.val) / m / m ∧
            r < base) ∧
      (∀ w w' r r', w ≤ w' → reward w = some r → reward w' = some r' → r' ≤ r) ∧
      (∀ w, getBlockRewardOn mul128 div128By64 medianWeight w coins version = reward w ∧
        getBlockRewardOn mul128Portable div128By64Portable medianWeight w coins version =
          reward w) ∧
      (∀ a b, mul128Portable a b = mul128 a b) ∧
      ∀ (n : U128) (d : U64), d.val < 2 ^ 63 → div128By64Portable n d = div128By64 n d := by
  intro m base reward
  refine ⟨fun w => getBlockReward_isSome hm, fun w hw => (getBlockReward_eq hm).trans (if_pos hw),
    fun w hlt hle => ?_, fun w w' r r' => getBlockReward_mono hm, fun w => ⟨getBlockRewardOn_eq
    medianWeight w coins version, ?_⟩, mul128Portable_eq, fun n d hd => div128By64Portable_eq n hd⟩
  · have hprod : (2 * m - w.val) * w.val < 2 ^ 64 :=
      (penalty_le hlt.le hle).trans_lt ((Nat.mul_lt_mul'' hm hm).trans (by decide))
    exact ⟨hprod, (Nat.mul_lt_mul'' base.isLt hprod).trans_le (by norm_num),
      getBlockReward_between hm hlt hle⟩
  have hlow : (raisedMedian medianWeight version).val < 2 ^ 63 := hm.trans (by decide)
  refine Eq.trans ?_ (getBlockRewardOn_eq medianWeight w coins version)
  unfold getBlockRewardOn
  simp only [mul128Portable_eq, div128By64Portable_eq _ hlow]

theorem block_reward_exact_half :
    getBlockReward 300000 450000 0 16 = some ⟨26388279066623, by decide⟩ ∧
      getBlockRewardOn mul128Portable div128By64Portable 300000 450000 0 16 =
        getBlockReward 300000 450000 0 16 :=
  ⟨by decide +kernel, ((block_reward_exact 300000 0 16 (by decide)).2.2.2.2.1 450000).2⟩

end C2Pool.Xmr
