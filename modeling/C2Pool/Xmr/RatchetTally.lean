import C2Pool.Xmr.RatchetAct

/-! # Votes of a window

The work that receipts put into a span of positions, and how `rs_step` accumulates
it: the lock-in test of the code is the test on these sums.
-/

namespace C2Pool.Xmr.PathB

open Wide

/-! ## Work -/

/-- The receipt votes for an epoch above `e`. -/
def votesAbove (e : Nat) (r : RatchetPlacement) : Bool := e < ballotEpoch r.ballot

/-- The credited work of the receipts that satisfy `P`. -/
def workOf (P : RatchetPlacement → Bool) (placed : List RatchetPlacement) : Nat :=
  ((placed.filter P).map fun r => r.work.val).sum

/-- The work placed at the positions of `[a, b)`; nothing is placed at position 0. -/
def spanWork (P : RatchetPlacement → Bool) (placed : Nat → List RatchetPlacement) (a b : Nat) :
    Nat :=
  ∑ y ∈ Finset.Ico (max 1 a) b, workOf P (placed y)

/-- All work of grid window `k`. -/
def windowAll (p : RatchetParams) (placed : Nat → List RatchetPlacement) (k : Nat) : Nat :=
  spanWork (fun _ => true) placed (k * p.window.val) ((k + 1) * p.window.val)

/-- The work of grid window `k` that votes above epoch `e`. -/
def windowYes (p : RatchetParams) (placed : Nat → List RatchetPlacement) (e k : Nat) : Nat :=
  spanWork (votesAbove e) placed (k * p.window.val) ((k + 1) * p.window.val)

/-- Grid window `k` locks the epoch after `e` in. -/
def LocksIn (p : RatchetParams) (placed : Nat → List RatchetPlacement) (e k : Nat) : Prop :=
  0 < windowAll p placed k ∧ 3 * windowAll p placed k ≤ 4 * windowYes p placed e k

instance (p : RatchetParams) (placed : Nat → List RatchetPlacement) (e k : Nat) :
    Decidable (LocksIn p placed e k) :=
  inferInstanceAs (Decidable (_ ∧ _))

@[simp] theorem workOf_nil (P : RatchetPlacement → Bool) : workOf P [] = 0 := rfl

section

variable (P : RatchetPlacement → Bool)
include P

theorem workOf_cons (r : RatchetPlacement) (placed : List RatchetPlacement) :
    workOf P (r :: placed) = (if P r then r.work.val else 0) + workOf P placed := by
  cases hP : P r <;> simp [workOf, hP]

theorem spanWork_empty (placed : Nat → List RatchetPlacement)
    {a b : Nat} (h : b ≤ max 1 a) : spanWork P placed a b = 0 := by
  simp [spanWork, Finset.Ico_eq_empty_of_le h]

theorem spanWork_succ (placed : Nat → List RatchetPlacement) {a b : Nat} (ha : a ≤ b)
    (hb : 1 ≤ b) : spanWork P placed a (b + 1) = spanWork P placed a b + workOf P (placed b) :=
  Finset.sum_Ico_succ_top (by omega) _

theorem spanWork_mono (placed : Nat → List RatchetPlacement)
    (a : Nat) {b c : Nat} (h : b ≤ c) : spanWork P placed a b ≤ spanWork P placed a c :=
  Finset.sum_le_sum_of_subset (Finset.Ico_subset_Ico_right h)

end

theorem toNat_mulSmall {a : Work} {m : U64} (h : a.toNat * m.val < 2 ^ 256) :
    (mulSmall a m).toNat = a.toNat * m.val := by
  have hvalue := value_mulU256U64 a m
  have hlength := length_mulU256U64 a m
  have hbounded := bounded_mulU256U64 a m
  have htake := Limbs.value_take hbounded 4
  unfold mulSmall
  unfold mulU256U64 at hvalue hlength hbounded htake
  generalize Limbs.mulCarry 64 m.val (limbs a) 0 = l at *
  have hlast : l.getD 4 0 = 0 := by
    match l, hlength with
    | [a0, a1, a2, a3, a4], _ =>
      simp only [Limbs.value_cons, Limbs.value_nil] at hvalue
      simp
      omega
  rw [if_neg (by simpa using hlast), BitVec.toNat_ofNat, htake, hvalue]
  omega

theorem lockInReached_iff {yes all : Work} (hyes : yes.toNat < 2 ^ 253)
    (hall : all.toNat < 2 ^ 253) :
    lockInReached yes all = true ↔ 0 < all.toNat ∧ 3 * all.toNat ≤ 4 * yes.toNat := by
  have hyes4 : (mulSmall yes 4).toNat = yes.toNat * 4 := toNat_mulSmall (by simp; omega)
  have hall3 : (mulSmall all 3).toNat = all.toNat * 3 := toNat_mulSmall (by simp; omega)
  have hzero : all ≠ 0 ↔ 0 < all.toNat := by
    rw [Nat.pos_iff_ne_zero, not_iff_not]
    exact ⟨fun h => by rw [h]; rfl, fun h => BitVec.eq_of_toNat_eq (by simpa using h)⟩
  simp only [lockInReached, Bool.and_eq_true, decide_eq_true_eq, hzero, Bool.not_eq_true',
    decide_eq_false_iff_not, BitVec.lt_def, hyes4, hall3]
  omega

theorem windowLevel_pos {s : RatchetState} (hy2 : s.y2.toNat ≤ s.y1.toNat)
    (hy1 : s.y1.toNat ≤ s.all.toNat) (hall : s.all.toNat < 2 ^ 253) :
    0 < windowLevel s ↔ 0 < s.all.toNat ∧ 3 * s.all.toNat ≤ 4 * s.y1.toNat := by
  have h1 := @lockInReached_iff s.y1 s.all (by omega) hall
  have h2 := @lockInReached_iff s.y2 s.all (by omega) hall
  unfold windowLevel
  by_cases hnext : lockInReached s.y2 s.all = true
  · have hboth := h2.mp hnext
    rw [if_pos hnext]
    simp only [show (0 : U8) < 2 by decide, true_iff]
    omega
  rw [if_neg hnext, ← h1]
  by_cases hone : lockInReached s.y1 s.all = true
  · simp [hone]
  · simp [hone]

theorem placeAll_frame (placed : List RatchetPlacement) (s : RatchetState) :
    (placed.foldl placeOne s).epochCur = s.epochCur ∧
      (placed.foldl placeOne s).rulesCur = s.rulesCur ∧
      (placed.foldl placeOne s).levels = s.levels := by
  induction placed generalizing s with
  | nil => simp
  | cons r placed ih => exact ih (placeOne s r)

theorem toNat_add_ofU64 {a : Work} {w : U64} (h : a.toNat + w.val < 2 ^ 256) :
    (a + ofU64 w).toNat = a.toNat + w.val := by
  rw [BitVec.toNat_add, toNat_ofU64, Nat.mod_eq_of_lt h]

theorem placeAll_tallies {placed : List RatchetPlacement} {s : RatchetState}
    (hy2 : s.y2.toNat ≤ s.y1.toNat) (hy1 : s.y1.toNat ≤ s.all.toNat)
    (hroom : s.all.toNat + workOf (fun _ => true) placed < 2 ^ 256) :
    (placed.foldl placeOne s).all.toNat = s.all.toNat + workOf (fun _ => true) placed ∧
      (placed.foldl placeOne s).y1.toNat = s.y1.toNat + workOf (votesAbove s.epochCur.val) placed ∧
      (placed.foldl placeOne s).y2.toNat ≤ (placed.foldl placeOne s).y1.toNat ∧
      (placed.foldl placeOne s).y1.toNat ≤ (placed.foldl placeOne s).all.toNat := by
  induction placed generalizing s with
  | nil => simpa using ⟨hy2, hy1⟩
  | cons r placed ih =>
    simp only [workOf_cons, if_true] at hroom
    have hall : (placeOne s r).all.toNat = s.all.toNat + r.work.val := toNat_add_ofU64 (by omega)
    have hone : (placeOne s r).y1.toNat =
        s.y1.toNat + if votesAbove s.epochCur.val r then r.work.val else 0 := by
      by_cases hvote : s.epochCur.val + 1 ≤ ballotEpoch r.ballot
      · simp only [placeOne, votesAbove, Nat.lt_iff_add_one_le, hvote, decide_true, if_true]
        exact toNat_add_ofU64 (by omega)
      · simp [placeOne, votesAbove, Nat.lt_iff_add_one_le, hvote]
    have htwo : (placeOne s r).y2.toNat ≤ (placeOne s r).y1.toNat := by
      rw [hone]
      by_cases hvote : s.epochCur.val + 2 ≤ ballotEpoch r.ballot
      · have hlower : votesAbove s.epochCur.val r = true := by
          simp only [votesAbove, decide_eq_true_eq]
          omega
        simp only [placeOne, if_pos hvote, hlower, if_true]
        rw [toNat_add_ofU64 (by omega)]
        omega
      · simp only [placeOne, if_neg hvote]
        omega
    have hle : (placeOne s r).y1.toNat ≤ (placeOne s r).all.toNat := by
      rw [hone, hall]
      split <;> omega
    obtain ⟨hrest, hrest1, horder⟩ := ih htwo hle (by omega)
    refine ⟨?_, ?_, horder⟩
    · rw [List.foldl_cons, hrest, hall, workOf_cons]
      simp only [if_true]
      omega
    rw [List.foldl_cons, hrest1, hone, workOf_cons]
    have hepoch : (placeOne s r).epochCur = s.epochCur := rfl
    rw [hepoch]
    omega

end C2Pool.Xmr.PathB
