import C2Pool.Lib.SortedMap
import C2Pool.Lib.Tally

/-! # Accruing maps

A sorted map whose values are added to: `m[k] += v`.  What it holds in the end is
the sum of what was added, read key by key or through any measure of its rows.
-/

namespace C2Pool

open List

namespace SortedMap

variable {K M : Type} [LinearOrder K] [AddCommMonoid M] {m m' : SortedMap K M}

def amountAt (m : SortedMap K M) (k : K) : M := (m.lookup k).getD 0

/-- `m[k] += v`. -/
def accrue (m : SortedMap K M) (k : K) (v : M) : SortedMap K M := m.insert k (m.amountAt k + v)

/-- `for (k, v) in es: m[k] += v`. -/
def accrueAll (m : SortedMap K M) (es : List (K × M)) : SortedMap K M :=
  es.foldl (fun m e => m.accrue e.1 e.2) m

@[simp] theorem amountAt_empty (k : K) : amountAt (∅ : SortedMap K M) k = 0 := rfl

theorem amountAt_insert (m : SortedMap K M) (k : K) (v : M) (x : K) :
    (m.insert k v).amountAt x = if x = k then v else m.amountAt x := by
  unfold amountAt
  rw [lookup_insert]
  split
  · rfl
  · rfl

theorem amountAt_accrue (m : SortedMap K M) (k : K) (v : M) (x : K) :
    (m.accrue k v).amountAt x = m.amountAt x + if k = x then v else 0 := by
  unfold accrue
  rw [amountAt_insert]
  by_cases hx : x = k
  · simp [hx]
  · have hkx : k ≠ x := fun h => hx h.symm
    simp [hx, hkx]

@[simp] theorem accrueAll_nil (m : SortedMap K M) : m.accrueAll [] = m := rfl

@[simp] theorem accrueAll_cons (m : SortedMap K M) (e : K × M) (es : List (K × M)) :
    m.accrueAll (e :: es) = (m.accrue e.1 e.2).accrueAll es := rfl

theorem amountAt_accrueAll (m : SortedMap K M) (es : List (K × M)) (x : K) :
    (m.accrueAll es).amountAt x = m.amountAt x + Tally.amount es x := by
  induction es generalizing m with
  | nil => simp
  | cons e es ih => rw [accrueAll_cons, ih, amountAt_accrue, Tally.amount_cons, add_assoc]

omit [AddCommMonoid M] in
theorem mem_keys_iff {m : SortedMap K M} {k : K} : k ∈ m.keys ↔ ∃ v, m.lookup k = some v := by
  unfold keys
  simp only [mem_map, Prod.exists, exists_and_right, exists_eq_right]
  constructor
  · rintro ⟨v, hv⟩
    exact ⟨v, mem_entries_iff.mp hv⟩
  · rintro ⟨v, hv⟩
    exact ⟨v, mem_entries_iff.mpr hv⟩

theorem mem_keys_accrue {m : SortedMap K M} {k x : K} {v : M} :
    x ∈ (m.accrue k v).keys ↔ x = k ∨ x ∈ m.keys := by
  rw [mem_keys_iff, mem_keys_iff, accrue, lookup_insert]
  by_cases hx : x = k
  · simp [hx]
  · simp [hx]

theorem mem_keys_accrueAll {m : SortedMap K M} {es : List (K × M)} {k : K} :
    k ∈ (m.accrueAll es).keys ↔ k ∈ m.keys ∨ k ∈ es.map Prod.fst := by
  induction es generalizing m with
  | nil => simp
  | cons e es ih =>
    rw [accrueAll_cons, ih, mem_keys_accrue, map_cons, mem_cons]
    tauto

theorem ext_amountAt (hkeys : ∀ k, k ∈ m.keys ↔ k ∈ m'.keys)
    (h : ∀ k, m.amountAt k = m'.amountAt k) : m = m' := by
  apply ext_lookup
  intro k
  have hk := hkeys k
  have hamount := h k
  rw [mem_keys_iff, mem_keys_iff] at hk
  unfold amountAt at hamount
  cases hm : m.lookup k with
  | none =>
    cases hm' : m'.lookup k with
    | none => rfl
    | some v =>
      obtain ⟨w, hw⟩ := hk.mpr ⟨v, hm'⟩
      rw [hm] at hw
      cases hw
  | some v =>
    obtain ⟨w, hw⟩ := hk.mp ⟨v, hm⟩
    rw [hm, hw] at hamount
    rw [hw]
    exact congrArg some hamount

theorem accrueAll_congr (m : SortedMap K M) {es es' : List (K × M)}
    (hkeys : ∀ k, k ∈ es.map Prod.fst ↔ k ∈ es'.map Prod.fst)
    (h : ∀ k, Tally.amount es k = Tally.amount es' k) : m.accrueAll es = m.accrueAll es' := by
  apply ext_amountAt
  · intro k
    rw [mem_keys_accrueAll, mem_keys_accrueAll, hkeys]
  · intro k
    rw [amountAt_accrueAll, amountAt_accrueAll, h]

theorem length_accrueAll_le (m : SortedMap K M) (es : List (K × M)) :
    (m.accrueAll es).entries.length ≤ m.entries.length + es.length := by
  induction es generalizing m with
  | nil => simp
  | cons e es ih =>
    have hrest := ih (m.accrue e.1 e.2)
    have hone := length_insert_le m e.1 (m.amountAt e.1 + e.2)
    rw [accrueAll_cons, length_cons]
    unfold accrue at hrest ⊢
    omega

theorem entries_accrue_perm (m : SortedMap K M) (k : K) (v : M) :
    (m.accrue k v).entries.Perm ((k, m.amountAt k + v) :: (m.erase k).entries) := by
  have h := entries_perm (m := m.accrue k v) (k := k) (v := m.amountAt k + v)
    (by rw [accrue, lookup_insert, if_pos rfl])
  rwa [accrue, erase_insert] at h

theorem amountAt_of_mem {e : K × M} (h : e ∈ m.entries) : m.amountAt e.1 = e.2 := by
  unfold amountAt
  rw [mem_entries_iff.mp h]
  rfl

omit [AddCommMonoid M] in
theorem keys_nodup (m : SortedMap K M) : m.keys.Nodup := by
  unfold keys List.Nodup
  rw [pairwise_map]
  exact m.sorted.imp fun hlt => ne_of_lt hlt

theorem tally_entries (m : SortedMap K M) (x : K) : Tally.amount m.entries x = m.amountAt x := by
  cases hx : m.lookup x with
  | none =>
    unfold Tally.amount amountAt
    rw [hx]
    apply sum_eq_zero
    intro v hv
    obtain ⟨e, he, rfl⟩ := mem_map.mp hv
    have hne : e.1 ≠ x := by
      intro heq
      rw [← heq, mem_entries_iff.mp he] at hx
      cases hx
    exact if_neg hne
  | some v =>
    unfold Tally.amount
    rw [((entries_perm hx).map _).sum_eq, map_cons, sum_cons, if_pos rfl]
    have hrest : (((m.erase x).entries.map fun e => if e.1 = x then e.2 else 0)).sum = 0 := by
      apply sum_eq_zero
      intro w hw
      obtain ⟨e, he, rfl⟩ := mem_map.mp hw
      have hlook := mem_entries_iff.mp he
      rw [lookup_erase] at hlook
      have hne : e.1 ≠ x := by
        intro heq
        rw [if_pos heq] at hlook
        cases hlook
      exact if_neg hne
    rw [hrest, add_zero]
    simp [amountAt, hx]

section Measures

variable {N : Type} [AddCommMonoid N]

section

variable {g : K → M → N} (hzero : ∀ k, g k 0 = 0)
include hzero

theorem sum_entries_at (m : SortedMap K M) (k : K) :
    (m.entries.map fun e => g e.1 e.2).sum =
      g k (m.amountAt k) + ((m.erase k).entries.map fun e => g e.1 e.2).sum := by
  cases hk : m.lookup k with
  | none => simp [amountAt, hk, hzero, erase_of_lookup_none hk]
  | some v =>
    rw [((entries_perm hk).map _).sum_eq]
    simp [amountAt, hk]

theorem sum_entries_eq (m : SortedMap K M) {s : Finset K} (hs : ∀ k ∈ m.keys, k ∈ s) :
    (m.entries.map fun e => g e.1 e.2).sum = ∑ k ∈ s, g k (m.amountAt k) := by
  have hrows : (m.entries.map fun e => g e.1 e.2) = m.keys.map fun k => g k (m.amountAt k) := by
    unfold keys
    rw [map_map]
    apply map_congr_left
    intro e he
    rw [Function.comp_apply, amountAt_of_mem he]
  rw [hrows, ← sum_toFinset _ m.keys_nodup]
  apply Finset.sum_subset
  · intro k hk
    exact hs k (mem_toFinset.mp hk)
  intro k _ hk
  have hnone : m.lookup k = none := lookup_of_notMem_keys fun h => hk (mem_toFinset.mpr h)
  simp [amountAt, hnone, hzero]

theorem sum_entries_congr (h : ∀ k, m.amountAt k = m'.amountAt k) :
    (m.entries.map fun e => g e.1 e.2).sum = (m'.entries.map fun e => g e.1 e.2).sum := by
  have hleft : ∀ k ∈ m.keys, k ∈ (m.keys ++ m'.keys).toFinset := by
    intro k hk
    simp [hk]
  have hright : ∀ k ∈ m'.keys, k ∈ (m.keys ++ m'.keys).toFinset := by
    intro k hk
    simp [hk]
  rw [sum_entries_eq hzero m hleft, sum_entries_eq hzero m' hright]
  apply Finset.sum_congr rfl
  intro k _
  rw [h]

theorem sum_accrueAll
    (hadd : ∀ k a b, g k (a + b) = g k a + g k b) (m : SortedMap K M) (es : List (K × M)) :
    ((m.accrueAll es).entries.map fun e => g e.1 e.2).sum =
      (m.entries.map fun e => g e.1 e.2).sum + (es.map fun e => g e.1 e.2).sum := by
  induction es generalizing m with
  | nil => simp
  | cons e es ih =>
    have hold := sum_entries_at hzero m e.1
    rw [accrueAll_cons, ih, ((entries_accrue_perm m e.1 e.2).map _).sum_eq, hold]
    simp only [map_cons, sum_cons, hadd]
    ac_rfl

end

end Measures

/-- A measure that is subadditive in the amounts can only lose. -/
theorem sum_accrueAll_le {g : K → M → Nat} (hzero : ∀ k, g k 0 = 0)
    (hadd : ∀ k a b, g k (a + b) ≤ g k a + g k b) (m : SortedMap K M) (es : List (K × M)) :
    ((m.accrueAll es).entries.map fun e => g e.1 e.2).sum ≤
      (m.entries.map fun e => g e.1 e.2).sum + (es.map fun e => g e.1 e.2).sum := by
  induction es generalizing m with
  | nil => simp
  | cons e es ih =>
    have hold := sum_entries_at hzero m e.1
    have hrest := ih (m.accrue e.1 e.2)
    rw [((entries_accrue_perm m e.1 e.2).map _).sum_eq] at hrest
    simp only [map_cons, sum_cons] at hrest
    rw [accrueAll_cons, hold, map_cons, sum_cons]
    have hstep := hadd e.1 (m.amountAt e.1) e.2
    omega

end SortedMap

end C2Pool
