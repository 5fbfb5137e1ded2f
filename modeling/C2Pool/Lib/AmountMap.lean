import C2Pool.Lib.FiniteMap

/-! # Maps of machine amounts

Maps from keys to words of a fixed width, with the sum of their amounts as a number,
and floors of a reward split by weights.
-/

namespace C2Pool

open Finset

/-- A map from keys to amounts of `w` bits. -/
abbrev AmountMap (K : Type) (w : Nat) := FiniteMap K (BitVec w)

namespace AmountMap

open FiniteMap

variable {K : Type} [DecidableEq K] {w : Nat} {m : AmountMap K w}

def amount (m : AmountMap K w) (k : K) : Nat := ((m.lookup k).getD 0).toNat

def total (m : AmountMap K w) : Nat := ∑ k ∈ m.keys, m.amount k

@[simp] theorem amount_empty (k : K) : amount (∅ : AmountMap K w) k = 0 := by
  simp [amount]

@[simp] theorem total_empty : total (∅ : AmountMap K w) = 0 := by
  simp [total]

theorem amount_insert (m : AmountMap K w) (k : K) (v : BitVec w) (x : K) :
    amount (m.insert k v) x = if x = k then v.toNat else m.amount x := by
  unfold amount
  rw [lookup_insert_ite]
  split <;> rfl

theorem amount_of_notMem {k : K} (h : k ∉ m.keys) : m.amount k = 0 := by
  simp [amount, Finmap.lookup_eq_none.mpr h]

theorem total_eq_sum {s : Finset K} (h : m.keys ⊆ s) :
    m.total = ∑ k ∈ s, m.amount k := sum_subset h fun _ _ hk => amount_of_notMem hk

theorem total_insert (m : AmountMap K w) (k : K) (v : BitVec w) :
    total (m.insert k v) + m.amount k = m.total + v.toNat := by
  have hleft : (m.insert k v).keys ⊆ insert k m.keys := by
    intro x hx
    rw [Finmap.mem_keys, Finmap.mem_insert] at hx
    rw [mem_insert, Finmap.mem_keys]
    exact hx
  have hk : k ∈ insert k m.keys := mem_insert_self _ _
  rw [total_eq_sum hleft, total_eq_sum (subset_insert k m.keys),
    ← add_sum_erase _ _ hk, ← add_sum_erase _ (m.amount) hk, amount_insert, if_pos rfl]
  have hrest : ∑ x ∈ (insert k m.keys).erase k, amount (m.insert k v) x =
      ∑ x ∈ (insert k m.keys).erase k, m.amount x := by
    apply sum_congr rfl
    intro x hx
    rw [amount_insert, if_neg (ne_of_mem_erase hx)]
  omega

theorem amount_le_total (m : AmountMap K w) (k : K) : m.amount k ≤ m.total := by
  by_cases hk : k ∈ m.keys
  · exact single_le_sum (fun _ _ => Nat.zero_le _) hk
  · rw [amount_of_notMem hk]
    exact Nat.zero_le _

theorem toNat_lookup (m : AmountMap K w) (k : K) : ((m.lookup k).getD 0).toNat = m.amount k := rfl

theorem total_add {k : K} {v : BitVec w} (h : m.amount k + v.toNat < 2 ^ w) :
    total (m.insert k ((m.lookup k).getD 0 + v)) = m.total + v.toNat := by
  have hinsert := total_insert m k ((m.lookup k).getD 0 + v)
  rw [BitVec.toNat_add, toNat_lookup, Nat.mod_eq_of_lt h] at hinsert
  omega

theorem mul_sum_floor_le (r d : Nat) (ws : List Nat) :
    d * (ws.map fun x => r * x / d).sum ≤ r * ws.sum := by
  induction ws with
  | nil => simp
  | cons x ws ih =>
    have hfloor := Nat.mul_div_le (r * x) d
    simp only [List.map_cons, List.sum_cons, Nat.mul_add]
    omega

theorem sum_floor_le (r d : Nat) {ws : List Nat} (h : ws.sum ≤ d) :
    (ws.map fun x => r * x / d).sum ≤ r := by
  cases Nat.eq_zero_or_pos d with
  | inl hzero =>
    subst hzero
    have hall : (ws.map fun x => r * x / 0).sum = 0 := by simp
    omega
  | inr hpos =>
    have hle : d * (ws.map fun x => r * x / d).sum ≤ d * r := by
      refine le_trans (mul_sum_floor_le r d ws) ?_
      rw [Nat.mul_comm d r]
      exact Nat.mul_le_mul_left r h
    exact Nat.le_of_mul_le_mul_left hle hpos

theorem sum_map_sort {L : Type} [LinearOrder L] (s : Finset L) (f : L → Nat) :
    (s.sort.map f).sum = ∑ k ∈ s, f k := by
  rw [((sort_perm_toList s (· ≤ ·)).map f).sum_eq, sum_map_toList]

end AmountMap

end C2Pool
