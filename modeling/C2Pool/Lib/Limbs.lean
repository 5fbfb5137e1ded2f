import C2Pool.Lib.Words
import Mathlib.Data.Nat.Bitwise

/-! # Numbers in limbs

Unsigned numbers held as a list of limbs of `w` bits, lowest limb first, with the
loops that work on them: the carry of a product, the comparison from the top, the
borrow of a difference and the schoolbook division bit by bit.
-/

namespace C2Pool.Limbs

open List Nat

def value (w : Nat) : List Nat → Nat
  | [] => 0
  | d :: ds => d + 2 ^ w * value w ds

/-- Every limb fits its `w` bits. -/
def Bounded (w : Nat) (l : List Nat) : Prop :=
  ∀ d ∈ l, d < 2 ^ w

/-- The lowest `n` limbs of a number. -/
def ofNat (w : Nat) : Nat → Nat → List Nat
  | 0, _ => []
  | n + 1, x => x % 2 ^ w :: ofNat w n (x / 2 ^ w)

def mulCarry (w m : Nat) : List Nat → Nat → List Nat
  | [], carry => [carry % 2 ^ w]
  | d :: ds, carry => (d * m + carry) % 2 ^ w :: mulCarry w m ds ((d * m + carry) >>> w)

/-- The comparison from the top limb down. -/
def less : List Nat → List Nat → Bool
  | d :: ds, e :: es => if ds = es then decide (d < e) else less ds es
  | _, _ => false

/-- The shift by one bit, with `bit` coming in at the bottom. -/
def shiftIn (w : Nat) : List Nat → Nat → List Nat
  | [], _ => []
  | d :: ds, bit => ((d <<< 1) % 2 ^ w ||| bit) :: shiftIn w ds (d >>> (w - 1))

/-- The difference limb by limb, computed in words twice as wide: a borrow shows
as a non-zero high half. -/
def subBorrow (w : Nat) : List Nat → List Nat → Nat → List Nat
  | d :: ds, e :: es, borrow =>
    let x := (2 ^ (2 * w) + d - e - borrow) % 2 ^ (2 * w)
    x % 2 ^ w :: subBorrow w ds es (if x >>> w = 0 then 0 else 1)
  | _, _, _ => []

def addCarry (w : Nat) : List Nat → List Nat → Nat → List Nat
  | d :: ds, e :: es, carry =>
    (d + e + carry) % 2 ^ w :: addCarry w ds es ((d + e + carry) >>> w)
  | _, _, _ => []

/-- The shift down by `s` bits, which loses the lowest limb's place. -/
def shiftDown (w s : Nat) : List Nat → List Nat
  | d :: e :: rest => (d >>> s ||| (e <<< (w - s)) % 2 ^ w) :: shiftDown w s (e :: rest)
  | _ => []

/-- The state of a division: the running remainder, the quotient's lowest limb,
and whether a quotient bit above it was set. -/
structure Division where
  rem : List Nat
  quot : Nat := 0
  high : Bool := false
deriving DecidableEq

/-- Bit `i` of a number. -/
def bit (w : Nat) (num : List Nat) (i : Nat) : Nat :=
  (num.getD (i / w) 0 >>> (i % w)) % 2

/-- One round of the division, for bit `i` of the numerator. -/
def divideStep (w : Nat) (num den : List Nat) (i : Nat) (s : Division) : Division :=
  let rem := shiftIn w s.rem (bit w num i)
  if less rem den then { s with rem := rem }
  else if i < w then
    { s with rem := subBorrow w rem den 0, quot := s.quot ||| 1 <<< i }
  else { s with rem := subBorrow w rem den 0, high := true }

/-- The rounds for the bits below `n`, highest first. -/
def divideFrom (w : Nat) (num den : List Nat) : Nat → Division → Division
  | 0, s => s
  | n + 1, s => divideFrom w num den n (divideStep w num den n s)

/-- Schoolbook binary division of `num` by `den`. -/
def divide (w : Nat) (num den : List Nat) : Division :=
  divideFrom w num den (w * num.length) { rem := List.replicate den.length 0 }

/-! ## Values -/

@[simp] theorem value_nil (w : Nat) : value w [] = 0 := rfl

@[simp] theorem value_cons (w d : Nat) (ds : List Nat) :
    value w (d :: ds) = d + 2 ^ w * value w ds := rfl

variable {w c : Nat} {l l' num den : List Nat}

@[simp] theorem bounded_cons {d : Nat} {ds : List Nat} :
    Bounded w (d :: ds) ↔ d < 2 ^ w ∧ Bounded w ds := by
  simp [Bounded]

@[simp] theorem bounded_nil (w : Nat) : Bounded w [] := by
  simp [Bounded]

theorem value_lt {w : Nat} {l : List Nat} (h : Bounded w l) : value w l < 2 ^ (w * l.length) := by
  induction l with
  | nil => simp
  | cons d ds ih =>
    obtain ⟨hd, hds⟩ := bounded_cons.mp h
    have hrest := ih hds
    have hpow : 2 ^ (w * (ds.length + 1)) = 2 ^ w * 2 ^ (w * ds.length) := by
      rw [mul_succ, pow_add, mul_comm]
    have hstep : 2 ^ w * (value w ds + 1) ≤ 2 ^ w * 2 ^ (w * ds.length) := mul_le_mul_left _ hrest
    rw [mul_succ] at hstep
    simp only [value_cons, length_cons]
    omega

theorem value_take (h : Bounded w l) (n : Nat) : value w (l.take n) = value w l % 2 ^ (w * n) := by
  induction l generalizing n with
  | nil => simp
  | cons d ds ih =>
    obtain ⟨hd, hds⟩ := bounded_cons.mp h
    cases n with
    | zero => simp [mod_one]
    | succ n =>
      have hpow : 2 ^ (w * (n + 1)) = 2 ^ w * 2 ^ (w * n) := by
        rw [mul_succ, pow_add, mul_comm]
      rw [take_succ_cons, value_cons, value_cons, ih hds, hpow, mod_mul,
        Nat.add_mul_mod_self_left, Nat.mod_eq_of_lt hd,
        Nat.add_mul_div_left _ _ (Nat.two_pow_pos w), Nat.div_eq_of_lt hd, Nat.zero_add]

theorem value_replicate_zero (w n : Nat) : value w (List.replicate n 0) = 0 := by
  induction n with
  | zero => rfl
  | succ n ih => simp [replicate_succ, ih]

theorem bounded_replicate_zero (w n : Nat) : Bounded w (List.replicate n 0) := by
  intro d hd
  rw [eq_of_mem_replicate hd]
  exact Nat.two_pow_pos w

@[simp] theorem length_ofNat (w n x : Nat) : (ofNat w n x).length = n := by
  induction n generalizing x with
  | zero => rfl
  | succ n ih => simp [ofNat, ih]

theorem bounded_ofNat (w n x : Nat) : Bounded w (ofNat w n x) := by
  induction n generalizing x with
  | zero => simp [ofNat]
  | succ n ih => simp [ofNat, ih, mod_lt]

theorem value_ofNat {w n x : Nat} (h : x < 2 ^ (w * n)) : value w (ofNat w n x) = x := by
  induction n generalizing x with
  | zero =>
    have hzero : x = 0 := by simpa using h
    simp [ofNat, hzero]
  | succ n ih =>
    have hrest : x / 2 ^ w < 2 ^ (w * n) := by
      rw [mul_succ, Nat.pow_add] at h
      exact Nat.div_lt_of_lt_mul (by rwa [Nat.mul_comm] at h)
    simp only [ofNat, value_cons, ih hrest]
    exact mod_add_div x (2 ^ w)

theorem value_mulCarry {m : Nat} (hm : m < 2 ^ w) (h : Bounded w l) {carry : Nat}
    (hcarry : carry < 2 ^ w) : value w (mulCarry w m l carry) = value w l * m + carry := by
  induction l generalizing carry with
  | nil => simp [mulCarry, Nat.mod_eq_of_lt hcarry]
  | cons d ds ih =>
    obtain ⟨hd, hds⟩ := bounded_cons.mp h
    have hnext : (d * m + carry) / 2 ^ w < 2 ^ w := by
      apply Nat.div_lt_of_lt_mul
      have hprod : d * m ≤ d * 2 ^ w := Nat.mul_le_mul_left _ hm.le
      have htop : (d + 1) * 2 ^ w ≤ 2 ^ w * 2 ^ w := Nat.mul_le_mul_right _ hd
      rw [Nat.succ_mul] at htop
      omega
    simp only [mulCarry, value_cons, Nat.shiftRight_eq_div_pow, ih hds hnext]
    have hsplit := Nat.mod_add_div (d * m + carry) (2 ^ w)
    calc (d * m + carry) % 2 ^ w + 2 ^ w * (value w ds * m + (d * m + carry) / 2 ^ w)
        = (d * m + carry) % 2 ^ w + 2 ^ w * ((d * m + carry) / 2 ^ w)
            + 2 ^ w * value w ds * m := by ring
      _ = (d + 2 ^ w * value w ds) * m + carry := by
          rw [hsplit]
          ring

theorem bounded_mulCarry (w m : Nat) (l : List Nat) (carry : Nat) :
    Bounded w (mulCarry w m l carry) := by
  induction l generalizing carry with
  | nil => simp [mulCarry, mod_lt]
  | cons d ds ih => simp [mulCarry, ih, mod_lt]

@[simp] theorem length_mulCarry (w m : Nat) (l : List Nat) (carry : Nat) :
    (mulCarry w m l carry).length = l.length + 1 := by
  induction l generalizing carry with
  | nil => rfl
  | cons d ds ih => simp [mulCarry, ih]

theorem value_inj (h : Bounded w l) (h' : Bounded w l')
    (hlength : l.length = l'.length) (heq : value w l = value w l') : l = l' := by
  induction l generalizing l' with
  | nil => exact (length_eq_zero_iff.mp hlength.symm).symm
  | cons d ds ih =>
    cases l' with
    | nil => simp at hlength
    | cons e es =>
      obtain ⟨hd, hds⟩ := bounded_cons.mp h
      obtain ⟨he, hes⟩ := bounded_cons.mp h'
      have hlow : d = e := by
        have hmod := congrArg (· % 2 ^ w) heq
        simpa [add_mul_mod_self_left, mod_eq_of_lt hd, mod_eq_of_lt he] using hmod
      have hhigh : value w ds = value w es := by
        rw [hlow] at heq
        exact Nat.eq_of_mul_eq_mul_left (Nat.two_pow_pos w) (Nat.add_left_cancel heq)
      rw [hlow, ih hds hes (by simpa using hlength) hhigh]

/-- Comparing from the top is comparing the numbers. -/
theorem less_iff (h : Bounded w l) (h' : Bounded w l')
    (hlength : l.length = l'.length) : less l l' = true ↔ value w l < value w l' := by
  induction l generalizing l' with
  | nil => simp [less, length_eq_zero_iff.mp hlength.symm]
  | cons d ds ih =>
    cases l' with
    | nil => simp at hlength
    | cons e es =>
      obtain ⟨hd, hds⟩ := bounded_cons.mp h
      obtain ⟨he, hes⟩ := bounded_cons.mp h'
      have hlen : ds.length = es.length := by simpa using hlength
      unfold less
      by_cases heq : ds = es
      · simp [heq]
      rw [if_neg heq, ih hds hes hlen, value_cons, value_cons]
      have hne : value w ds ≠ value w es := fun hv => heq (value_inj hds hes hlen hv)
      rcases lt_or_gt_of_ne hne with hlt | hgt
      · have hstep : 2 ^ w * (value w ds + 1) ≤ 2 ^ w * value w es := mul_le_mul_left _ hlt
        rw [mul_succ] at hstep
        constructor
        · intro _
          omega
        · intro _
          exact hlt
      have hstep : 2 ^ w * (value w es + 1) ≤ 2 ^ w * value w ds := mul_le_mul_left _ hgt
      rw [mul_succ] at hstep
      constructor
      · intro hlt
        omega
      · intro hlt
        omega

/-! ## Shifting and subtracting -/

@[simp] theorem length_shiftIn (w : Nat) (l : List Nat) (c : Nat) :
    (shiftIn w l c).length = l.length := by
  induction l generalizing c with
  | nil => rfl
  | cons d ds ih => simp [shiftIn, ih]

theorem limb_shift {d : Nat} (hw : 0 < w) (hd : d < 2 ^ w) (hc : c < 2) :
    (d <<< 1) % 2 ^ w ||| c = (2 * d + c) % 2 ^ w ∧ d >>> (w - 1) = (2 * d + c) / 2 ^ w := by
  obtain ⟨n, rfl⟩ : ∃ n, w = n + 1 := ⟨w - 1, by omega⟩
  have hpow : 2 ^ (n + 1) = 2 * 2 ^ n := by rw [pow_succ, mul_comm]
  have hshift : (d <<< 1) % 2 ^ (n + 1) = (d % 2 ^ n) <<< 1 := by
    rw [shiftLeft_eq, shiftLeft_eq, hpow, pow_one, mul_comm d 2, mul_mod_mul_left, mul_comm]
  have hsplit := mod_add_div d (2 ^ n)
  have hsum : 2 * d + c = 2 * (d % 2 ^ n) + c + 2 ^ (n + 1) * (d / 2 ^ n) := by
    rw [hpow, mul_assoc]
    omega
  have hsmall : 2 * (d % 2 ^ n) + c < 2 ^ (n + 1) := by omega
  constructor
  · rw [hshift, ← shiftLeft_add_eq_or_of_lt (by simpa using hc), shiftLeft_eq, hsum,
      Nat.add_mul_mod_self_left, Nat.mod_eq_of_lt hsmall, pow_one, Nat.mul_comm]
  · rw [hsum, Nat.add_mul_div_left _ _ (Nat.two_pow_pos _), Nat.div_eq_of_lt hsmall,
      Nat.zero_add, Nat.shiftRight_eq_div_pow, Nat.add_sub_cancel]

theorem limb_carry {d : Nat} (hw : 0 < w) (hd : d < 2 ^ w) : d >>> (w - 1) < 2 := by
  rw [(limb_shift hw hd Nat.two_pos).2]
  apply Nat.div_lt_of_lt_mul
  omega

theorem bounded_shiftIn (hw : 0 < w) (h : Bounded w l) (hc : c < 2) :
    Bounded w (shiftIn w l c) := by
  induction l generalizing c with
  | nil => simp [shiftIn]
  | cons d ds ih =>
    obtain ⟨hd, hds⟩ := bounded_cons.mp h
    obtain ⟨hlow, hout⟩ := limb_shift hw hd hc
    have hnext := limb_carry hw hd
    simp only [shiftIn, bounded_cons]
    exact ⟨by rw [hlow]; exact Nat.mod_lt _ (Nat.two_pow_pos w), ih hds hnext⟩

theorem value_shiftIn (hw : 0 < w) (h : Bounded w l)
    (hc : c < 2) (hfit : 2 * value w l + c < 2 ^ (w * l.length)) :
    value w (shiftIn w l c) = 2 * value w l + c := by
  induction l generalizing c with
  | nil =>
    have hzero : c = 0 := by simpa using hfit
    simp [shiftIn, hzero]
  | cons d ds ih =>
    obtain ⟨hd, hds⟩ := bounded_cons.mp h
    obtain ⟨hlow, hout⟩ := limb_shift hw hd hc
    have hnext := limb_carry hw hd
    have hsplit := Nat.mod_add_div (2 * d + c) (2 ^ w)
    have hwhole : 2 * value w (d :: ds) + c =
        (2 * d + c) % 2 ^ w + 2 ^ w * (2 * value w ds + (2 * d + c) / 2 ^ w) := by
      rw [value_cons, mul_add, mul_add, ← Nat.mul_assoc (2 ^ w), Nat.mul_comm (2 ^ w) 2,
        Nat.mul_assoc 2]
      omega
    have hrest : 2 * value w ds + d >>> (w - 1) < 2 ^ (w * ds.length) := by
      rw [hout]
      rw [hwhole, length_cons, mul_succ, Nat.pow_add, Nat.mul_comm _ (2 ^ w)] at hfit
      exact Nat.lt_of_mul_lt_mul_left (Nat.lt_of_le_of_lt (Nat.le_add_left _ _) hfit)
    rw [hwhole, shiftIn, value_cons, ih hds hnext hrest, hlow, hout]

@[simp] theorem length_subBorrow (w : Nat) (hlength : l.length = l'.length)
    (borrow : Nat) : (subBorrow w l l' borrow).length = l.length := by
  induction l generalizing l' borrow with
  | nil => simp [subBorrow]
  | cons d ds ih =>
    cases l' with
    | nil => simp at hlength
    | cons e es => simp [subBorrow, ih (succ.inj hlength)]

theorem bounded_subBorrow (w : Nat) (l l' : List Nat) (borrow : Nat) :
    Bounded w (subBorrow w l l' borrow) := by
  induction l generalizing l' borrow with
  | nil => simp [subBorrow]
  | cons d ds ih =>
    cases l' with
    | nil => simp [subBorrow]
    | cons e es => simp [subBorrow, ih, mod_lt]

theorem value_subBorrow (hw : 0 < w) (h : Bounded w l) (h' : Bounded w l')
    (hlength : l.length = l'.length) {borrow : Nat} (hborrow : borrow < 2)
    (hle : value w l' + borrow ≤ value w l) :
    value w (subBorrow w l l' borrow) = value w l - value w l' - borrow := by
  induction l generalizing l' borrow with
  | nil => simp [subBorrow]
  | cons d ds ih =>
    cases l' with
    | nil => simp at hlength
    | cons e es =>
      obtain ⟨hd, hds⟩ := bounded_cons.mp h
      obtain ⟨he, hes⟩ := bounded_cons.mp h'
      have hlen : ds.length = es.length := by simpa using hlength
      have hpos : 0 < 2 ^ w := Nat.two_pow_pos w
      have hsquare : 2 ^ (2 * w) = 2 ^ w * 2 ^ w := by rw [Nat.two_mul, Nat.pow_add]
      have hwide : 2 ^ w ≤ 2 ^ w * 2 ^ w := Nat.le_mul_of_pos_left _ hpos
      simp only [value_cons] at hle
      unfold subBorrow
      by_cases hlow : e + borrow ≤ d
      -- no borrow out of this limb
      · have hx : (2 ^ (2 * w) + d - e - borrow) % 2 ^ (2 * w) = d - e - borrow := by
          rw [show 2 ^ (2 * w) + d - e - borrow = d - e - borrow + 2 ^ (2 * w) by omega,
            Nat.add_mod_right]
          apply Nat.mod_eq_of_lt
          omega
        have hnone : (d - e - borrow) >>> w = 0 := by
          rw [Nat.shiftRight_eq_div_pow]
          exact Nat.div_eq_of_lt (by omega)
        have hrest : value w es + 0 ≤ value w ds := by
          by_contra hcon
          have hstep : 2 ^ w * (value w ds + 1) ≤ 2 ^ w * value w es :=
            Nat.mul_le_mul_left _ (by omega)
          rw [mul_succ] at hstep
          omega
        simp only [hx, hnone, if_true, value_cons]
        rw [ih hds hes hlen (by omega) hrest, Nat.mod_eq_of_lt (by omega), Nat.sub_zero,
          Nat.mul_sub]
        have hmono : 2 ^ w * value w es ≤ 2 ^ w * value w ds := Nat.mul_le_mul_left _ hrest
        omega
      have hx : (2 ^ (2 * w) + d - e - borrow) % 2 ^ (2 * w) =
          2 ^ w * (2 ^ w - 1) + (2 ^ w + d - e - borrow) := by
        rw [Nat.mod_eq_of_lt (by omega), hsquare, Nat.mul_sub, Nat.mul_one]
        omega
      have hlimb : (2 ^ w * (2 ^ w - 1) + (2 ^ w + d - e - borrow)) % 2 ^ w =
          2 ^ w + d - e - borrow := by
        rw [mul_add_mod]
        exact Nat.mod_eq_of_lt (by omega)
      have hrest : value w es + 1 ≤ value w ds := by
        by_contra hcon
        have hstep : 2 ^ w * value w ds ≤ 2 ^ w * value w es := Nat.mul_le_mul_left _ (by omega)
        omega
      have hout : (if (2 ^ w * (2 ^ w - 1) + (2 ^ w + d - e - borrow)) >>> w = 0
          then 0 else 1) = 1 := by
        rw [if_neg]
        rw [Nat.shiftRight_eq_div_pow, mul_add_div hpos]
        have htwo : 2 ^ 1 ≤ 2 ^ w := Nat.pow_le_pow_right (by omega) hw
        have hone : 0 < 2 ^ w - 1 := by omega
        exact ne_of_gt (lt_of_lt_of_le hone (le_add_right _ _))
      simp only [hx, hlimb, hout, value_cons]
      rw [ih hds hes hlen (by omega) hrest, Nat.mul_sub, Nat.mul_sub]
      have hmono : 2 ^ w * (value w es + 1) ≤ 2 ^ w * value w ds := Nat.mul_le_mul_left _ hrest
      rw [mul_succ] at hmono
      omega

theorem length_addCarry (hlength : l.length = l'.length) (carry : Nat) :
    (addCarry w l l' carry).length = l.length := by
  induction l generalizing l' carry with
  | nil => simp [addCarry]
  | cons d ds ih =>
    cases l' with
    | nil => simp at hlength
    | cons e es => simp [addCarry, ih (succ.inj hlength)]

theorem bounded_addCarry (w : Nat) (l l' : List Nat) (carry : Nat) :
    Bounded w (addCarry w l l' carry) := by
  induction l generalizing l' carry with
  | nil => simp [addCarry]
  | cons d ds ih =>
    cases l' with
    | nil => simp [addCarry]
    | cons e es => simp [addCarry, ih, mod_lt]

theorem subBorrow_addCarry (hw : 0 < w) (h : Bounded w l) (h' : Bounded w l')
    (hlength : l.length = l'.length) {carry : Nat} (hcarry : carry < 2) :
    subBorrow w (addCarry w l l' carry) l' carry = l := by
  induction l generalizing l' carry with
  | nil => simp [addCarry, subBorrow]
  | cons d ds ih =>
    cases l' with
    | nil => simp at hlength
    | cons e es =>
      obtain ⟨hd, hds⟩ := bounded_cons.mp h
      obtain ⟨he, hes⟩ := bounded_cons.mp h'
      have hsquare : 2 ^ (2 * w) = 2 ^ w * 2 ^ w := by rw [Nat.two_mul, Nat.pow_add]
      have htwo : 2 ^ 1 ≤ 2 ^ w := Nat.pow_le_pow_right (by omega) hw
      have hwide : 2 ^ w * 2 ≤ 2 ^ w * 2 ^ w := Nat.mul_le_mul_left _ htwo
      simp only [addCarry, subBorrow, Nat.shiftRight_eq_div_pow, hsquare]
      by_cases hlow : d + e + carry < 2 ^ w
      · have hx : (2 ^ w * 2 ^ w + (d + e + carry) % 2 ^ w - e - carry) % (2 ^ w * 2 ^ w) = d := by
          rw [Nat.mod_eq_of_lt hlow,
            show 2 ^ w * 2 ^ w + (d + e + carry) - e - carry = d + 2 ^ w * 2 ^ w by omega,
            Nat.add_mod_right]
          exact Nat.mod_eq_of_lt (by omega)
        rw [hx, Nat.div_eq_of_lt hlow, Nat.div_eq_of_lt hd, if_pos rfl,
          ih hds hes (Nat.succ.inj hlength) (by omega), Nat.mod_eq_of_lt hd]
      obtain ⟨x, hsum⟩ := Nat.exists_eq_add_of_le (Nat.le_of_not_lt hlow)
      have hout : (d + e + carry) / 2 ^ w = 1 := Nat.div_eq_of_lt_le (by omega) (by omega)
      have hin : (d + e + carry) % 2 ^ w = x := by
        rw [hsum, Nat.add_mod_left]
        exact Nat.mod_eq_of_lt (by omega)
      have hx : (2 ^ w * 2 ^ w + x - e - carry) % (2 ^ w * 2 ^ w) = 2 ^ w * (2 ^ w - 1) + d := by
        have hlt : 2 ^ w * 2 ^ w + x - e - carry < 2 ^ w * 2 ^ w := by omega
        rw [Nat.mod_eq_of_lt hlt, Nat.mul_sub, Nat.mul_one]
        omega
      have hborrow : (2 ^ w * (2 ^ w - 1) + d) / 2 ^ w ≠ 0 := by
        rw [Nat.mul_add_div (Nat.two_pow_pos w), Nat.div_eq_of_lt hd]
        omega
      rw [hin, hx, hout, if_neg hborrow, ih hds hes (Nat.succ.inj hlength) (by omega),
        Nat.mul_add_mod, Nat.mod_eq_of_lt hd]

theorem limb_or {s d e : Nat} (hs : s ≤ w) (hd : d < 2 ^ w) :
    d >>> s ||| (e <<< (w - s)) % 2 ^ w = d / 2 ^ s + 2 ^ (w - s) * (e % 2 ^ s) := by
  obtain ⟨t, rfl⟩ := Nat.exists_eq_add_of_le hs
  have hlow : d / 2 ^ s < 2 ^ t := Nat.div_lt_of_lt_mul (by rwa [← Nat.pow_add])
  have hhigh : (e <<< t) % 2 ^ (s + t) = (e % 2 ^ s) <<< t := by
    rw [Nat.shiftLeft_eq, Nat.shiftLeft_eq, Nat.pow_add, Nat.mul_mod_mul_right]
  rw [Nat.add_sub_cancel_left, hhigh, Nat.shiftRight_eq_div_pow, Nat.or_comm,
    ← Nat.shiftLeft_add_eq_or_of_lt hlow, Nat.shiftLeft_eq]
  ring

theorem limb_fits {s d r : Nat} (hs : s ≤ w) (hd : d < 2 ^ w) (hr : r < 2 ^ s) :
    d / 2 ^ s + 2 ^ (w - s) * r < 2 ^ w := by
  obtain ⟨t, rfl⟩ := Nat.exists_eq_add_of_le hs
  have hdigit : d / 2 ^ s < 2 ^ t := Nat.div_lt_of_lt_mul (by rwa [← Nat.pow_add])
  have hpart : 2 ^ t * (r + 1) ≤ 2 ^ t * 2 ^ s := Nat.mul_le_mul_left _ hr
  rw [Nat.mul_succ] at hpart
  rw [Nat.add_sub_cancel_left, Nat.pow_add, Nat.mul_comm (2 ^ s)]
  omega

theorem length_shiftDown (w s : Nat) (l : List Nat) : (shiftDown w s l).length = l.length - 1 := by
  induction l with
  | nil => rfl
  | cons d l ih =>
    cases l with
    | nil => rfl
    | cons e rest => simp [shiftDown, ih]

theorem bounded_shiftDown {s : Nat} (hs : s ≤ w) (h : Bounded w l) :
    Bounded w (shiftDown w s l) := by
  induction l with
  | nil => exact bounded_nil w
  | cons d l ih =>
    cases l with
    | nil => exact bounded_nil w
    | cons e rest =>
      obtain ⟨hd, hrest⟩ := bounded_cons.mp h
      rw [shiftDown, limb_or hs hd, bounded_cons]
      exact ⟨limb_fits hs hd (Nat.mod_lt e (Nat.two_pow_pos s)), ih hrest⟩

/-- The shifted limbs are the quotient by `2 ^ s`, up to the places above them. -/
theorem value_shiftDown {s : Nat} (hs : s ≤ w) (h : Bounded w l) (hne : l ≠ []) :
    value w (shiftDown w s l) = value w l / 2 ^ s % 2 ^ (w * (l.length - 1)) := by
  induction l with
  | nil => exact absurd rfl hne
  | cons d l ih =>
    cases l with
    | nil => simp [shiftDown, Nat.mod_one]
    | cons e rest =>
      obtain ⟨hd, hrest⟩ := bounded_cons.mp h
      have hlimb := @limb_or w s d e hs hd
      have hlow : e % 2 ^ s = value w (e :: rest) % 2 ^ s := by
        obtain ⟨t, rfl⟩ := Nat.exists_eq_add_of_le hs
        rw [value_cons, Nat.pow_add, Nat.mul_assoc, Nat.add_mul_mod_self_left]
      rw [shiftDown, value_cons, ih hrest (by simp), hlimb, hlow, value_cons w d]
      generalize value w (e :: rest) = V
      obtain ⟨t, rfl⟩ := Nat.exists_eq_add_of_le hs
      have hfit := @limb_fits (s + t) s d (V % 2 ^ s) hs hd (Nat.mod_lt V (Nat.two_pow_pos s))
      rw [Nat.add_sub_cancel_left] at hfit
      have hquot : (d + 2 ^ (s + t) * V) / 2 ^ s =
          d / 2 ^ s + 2 ^ t * (V % 2 ^ s) + 2 ^ (s + t) * (V / 2 ^ s) := by
        rw [Nat.pow_add, Nat.mul_assoc, Nat.add_mul_div_left _ _ (Nat.two_pow_pos s)]
        nth_rewrite 1 [← Nat.mod_add_div V (2 ^ s)]
        ring
      simp only [length_cons, Nat.add_sub_cancel, Nat.add_sub_cancel_left]
      rw [hquot, Nat.mul_succ, Nat.add_comm _ (s + t), Nat.pow_add 2 (s + t) (_ * _), Nat.mod_mul,
        Nat.add_mul_mod_self_left, Nat.mod_eq_of_lt hfit,
        Nat.add_mul_div_left _ _ (Nat.two_pow_pos _), Nat.div_eq_of_lt hfit, Nat.zero_add]

/-! ## Division -/

theorem bit_lt (w : Nat) (num : List Nat) (i : Nat) : bit w num i < 2 :=
  mod_lt _ (by omega)

theorem bit_eq (hw : 0 < w) (h : Bounded w num) (i : Nat) :
    bit w num i = value w num / 2 ^ i % 2 := by
  unfold bit
  rw [Nat.shiftRight_eq_div_pow]
  induction num generalizing i with
  | nil => simp
  | cons d ds ih =>
    obtain ⟨hd, hds⟩ := bounded_cons.mp h
    rw [value_cons]
    by_cases hi : i < w
    -- the bit lies in this limb: the limbs above only add an even number
    · rw [Nat.div_eq_of_lt hi, Nat.mod_eq_of_lt hi]
      have hpow : 2 ^ w = 2 ^ i * (2 * 2 ^ (w - i - 1)) := by
        rw [← pow_succ', ← Nat.pow_add]
        congr 1
        omega
      rw [hpow, Nat.mul_assoc, Nat.add_mul_div_left _ _ (Nat.two_pow_pos i), Nat.mul_assoc,
        Nat.add_mul_mod_self_left]
      rfl
    have hquot : i / w = (i - w) / w + 1 := by
      rw [← Nat.add_div_right _ hw, Nat.sub_add_cancel (by omega)]
    have hmod : i % w = (i - w) % w := by
      rw [← Nat.add_mod_right (i - w), Nat.sub_add_cancel (by omega)]
    have hdrop : (d + 2 ^ w * value w ds) / 2 ^ i = value w ds / 2 ^ (i - w) := by
      rw [show 2 ^ i = 2 ^ w * 2 ^ (i - w) by rw [← Nat.pow_add]; congr 1; omega,
        ← Nat.div_div_eq_div_mul, Nat.add_mul_div_left _ _ (Nat.two_pow_pos w),
        Nat.div_eq_of_lt hd, Nat.zero_add]
    rw [hquot, hmod, hdrop, getD_cons_succ]
    exact ih hds (i - w)

/-- The division after the bits from `i` up: what is left to divide is
`N / 2^i`, and the quotient's bits so far stand at their own places. -/
structure Divided (w N : Nat) (den : List Nat) (i : Nat) (s : Division) : Prop where
  length : s.rem.length = den.length
  bounded : Bounded w s.rem
  rem : value w s.rem = N / 2 ^ i % value w den
  quot : s.quot = N / 2 ^ i / value w den * 2 ^ i % 2 ^ w
  high : s.high = true ↔ 2 ^ w ≤ N / 2 ^ i / value w den * 2 ^ i

theorem or_bit {i X : Nat} (hi : i < w) :
    X * 2 ^ (i + 1) % 2 ^ w ||| 1 <<< i = (X * 2 ^ (i + 1) + 2 ^ i) % 2 ^ w ∧
      (2 ^ w ≤ X * 2 ^ (i + 1) ↔ 2 ^ w ≤ X * 2 ^ (i + 1) + 2 ^ i) := by
  have hpow : 2 ^ w = 2 ^ (i + 1) * 2 ^ (w - (i + 1)) := by
    rw [← Nat.pow_add]
    congr 1
    omega
  have hpos : 0 < 2 ^ i := Nat.two_pow_pos i
  have hlow : X * 2 ^ (i + 1) % 2 ^ w = (X % 2 ^ (w - (i + 1))) * 2 ^ (i + 1) := by
    rw [hpow, Nat.mul_comm X, mul_mod_mul_left, Nat.mul_comm]
  have htop : (X % 2 ^ (w - (i + 1)) + 1) * 2 ^ (i + 1) ≤ 2 ^ w := by
    rw [hpow, Nat.mul_comm (2 ^ (i + 1))]
    exact Nat.mul_le_mul_right _ (Nat.mod_lt _ (Nat.two_pow_pos _))
  rw [Nat.succ_mul] at htop
  constructor
  · rw [one_shiftLeft]
    rw [hlow, ← shiftLeft_eq, ← shiftLeft_add_eq_or_of_lt (by omega), shiftLeft_eq,
      add_mod, hlow, @Nat.mod_eq_of_lt (2 ^ i) (2 ^ w) (by omega)]
    exact (Nat.mod_eq_of_lt (by omega)).symm
  constructor
  · intro hle
    omega
  intro hle
  by_contra hlt
  have hle' : X < 2 ^ (w - (i + 1)) := by
    rw [hpow, Nat.mul_comm] at hlt
    exact Nat.lt_of_mul_lt_mul_right (Nat.lt_of_not_le hlt)
  have hstep : (X + 1) * 2 ^ (i + 1) ≤ 2 ^ w := by
    rw [hpow, Nat.mul_comm (2 ^ (i + 1))]
    exact Nat.mul_le_mul_right _ hle'
  rw [Nat.succ_mul] at hstep
  omega

theorem Divided.step {i : Nat} {s : Division} (hw : 0 < w) (hnum : Bounded w num)
    (hden : Bounded w den) (hpos : 0 < value w den)
    (hroom : 2 * value w den ≤ 2 ^ (w * den.length)) (h : Divided w (value w num) den (i + 1) s) :
    Divided w (value w num) den i (divideStep w num den i s) := by
  obtain ⟨hlength, hbounded, hrem, hquot, hhigh⟩ := h
  generalize hA : value w num / 2 ^ (i + 1) = A at hrem hquot hhigh
  generalize hD : value w den = D at *
  generalize hb : bit w num i = b
  have hb2 : b < 2 := hb ▸ bit_lt w num i
  have hpart : value w num / 2 ^ i = 2 * A + b := by
    rw [← hA, ← hb, bit_eq hw hnum, Nat.pow_succ, ← Nat.div_div_eq_div_mul]
    omega
  have hltD : A % D < D := Nat.mod_lt _ hpos
  have hsplit := div_add_mod A D
  have hfit : 2 * value w s.rem + b < 2 ^ (w * s.rem.length) := by
    rw [hlength, hrem]
    omega
  have hshift := value_shiftIn hw hbounded hb2 hfit
  rw [hrem] at hshift
  have hshiftLen : (shiftIn w s.rem b).length = den.length := by simp [hlength]
  have hshiftBd := bounded_shiftIn hw hbounded hb2
  have hless := less_iff hshiftBd hden hshiftLen
  rw [hshift, hD] at hless
  have hexpand : 2 * A + b = D * (2 * (A / D)) + (2 * (A % D) + b) := by
    rw [mul_left_comm]
    omega
  have hshiftQ : A / D * 2 ^ (i + 1) = 2 * (A / D) * 2 ^ i := by
    ring
  unfold divideStep
  rw [hb]
  by_cases hlt : less (shiftIn w s.rem b) den = true
  · have hsmall : 2 * (A % D) + b < D := hless.mp hlt
    have hq : (2 * A + b) / D = 2 * (A / D) := by
      rw [hexpand, mul_add_div hpos, Nat.div_eq_of_lt hsmall, add_zero]
    have hr : (2 * A + b) % D = 2 * (A % D) + b := by
      rw [hexpand, mul_add_mod, Nat.mod_eq_of_lt hsmall]
    simp only [hlt, if_true]
    refine ⟨hshiftLen, hshiftBd, ?_, ?_, ?_⟩
    · rw [hshift, hpart, hD, hr]
    · rw [hpart, hD, hq, hquot, hshiftQ]
    · rw [hpart, hD, hq, hhigh, hshiftQ]
  have hlarge : D ≤ 2 * (A % D) + b := by
    by_contra hcon
    exact hlt (hless.mpr (by omega))
  have hone : (2 * (A % D) + b) / D = 1 := Nat.div_eq_of_lt_le (by omega) (by omega)
  have hq : (2 * A + b) / D = 2 * (A / D) + 1 := by
    rw [hexpand, mul_add_div hpos, hone]
  have hr : (2 * A + b) % D = 2 * (A % D) + b - D := by
    rw [hexpand, mul_add_mod, mod_eq_sub_mod hlarge, Nat.mod_eq_of_lt (by omega)]
  have hsub : value w (subBorrow w (shiftIn w s.rem b) den 0) = 2 * (A % D) + b - D := by
    rw [value_subBorrow hw hshiftBd hden hshiftLen (by omega) (by omega), hshift, hD, Nat.sub_zero]
  have hsubLen : (subBorrow w (shiftIn w s.rem b) den 0).length = den.length := by
    rw [length_subBorrow w hshiftLen, hshiftLen]
  have hplace : (2 * (A / D) + 1) * 2 ^ i = A / D * 2 ^ (i + 1) + 2 ^ i := by
    ring
  simp only [hlt, Bool.false_eq_true, if_false]
  by_cases hi : i < w
  · obtain ⟨hor, htop⟩ := @or_bit w i (A / D) hi
    simp only [hi, if_true]
    refine ⟨hsubLen, bounded_subBorrow _ _ _ _, ?_, ?_, ?_⟩
    · rw [hsub, hpart, hD, hr]
    · rw [hpart, hD, hq, hplace, ← hor, hquot]
    · rw [hpart, hD, hq, hplace, ← htop, hhigh]
  have hdiv : 2 ^ w ∣ 2 ^ i := pow_dvd_pow 2 (by omega)
  have hle : 2 ^ w ≤ 2 ^ i := Nat.le_of_dvd (Nat.two_pow_pos i) hdiv
  simp only [hi, if_false]
  refine ⟨hsubLen, bounded_subBorrow _ _ _ _, ?_, ?_, ?_⟩
  · rw [hsub, hpart, hD, hr]
  · rw [hpart, hD, hq, hplace, add_mod, mod_eq_zero_of_dvd hdiv, add_zero, mod_mod]
    exact hquot
  · rw [hpart, hD, hq, hplace]
    simp only [true_iff]
    omega

theorem Divided.run {n : Nat} {s : Division} (hw : 0 < w)
    (hnum : Bounded w num) (hden : Bounded w den) (hpos : 0 < value w den)
    (hroom : 2 * value w den ≤ 2 ^ (w * den.length)) (h : Divided w (value w num) den n s) :
    Divided w (value w num) den 0 (divideFrom w num den n s) := by
  induction n generalizing s with
  | zero => exact h
  | succ n ih => exact ih (h.step hw hnum hden hpos hroom)

theorem divide_spec (hw : 0 < w) (hnum : Bounded w num) (hden : Bounded w den)
    (hpos : 0 < value w den) (hroom : 2 * value w den ≤ 2 ^ (w * den.length)) :
    Bounded w (divide w num den).rem ∧
      value w (divide w num den).rem = value w num % value w den ∧
      (divide w num den).quot = value w num / value w den % 2 ^ w ∧
      ((divide w num den).high = true ↔ 2 ^ w ≤ value w num / value w den) := by
  have hstart : Divided w (value w num) den (w * num.length)
      { rem := replicate den.length 0 } := by
    have hzero : value w num / 2 ^ (w * num.length) = 0 := div_eq_of_lt (value_lt hnum)
    refine ⟨length_replicate, bounded_replicate_zero _ _, ?_, ?_, ?_⟩
    · simp [hzero, value_replicate_zero]
    · simp [hzero]
    · simp [hzero]
  have h := hstart.run hw hnum hden hpos hroom
  unfold divide
  refine ⟨h.bounded, ?_, ?_, ?_⟩
  · simpa using h.rem
  · simpa using h.quot
  · simpa using h.high

end C2Pool.Limbs
