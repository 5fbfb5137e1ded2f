import C2Pool.Lib.Words

/-! # Apportionment by largest remainders

A whole number `R` is divided over weights that add up to `W`: everybody gets the
floor of its exact share, and the units left over go one each to the largest
remainders, the earlier position first where two are equal.
-/

namespace C2Pool.Apportion

open List

variable {M : Type} [LinearOrder M] {order : List Nat} {α : Type}

/-- The positions below `n` by remainder, largest first, by a stable sort. -/
def ranking (r : Nat → M) (n : Nat) : List Nat :=
  (List.range n).mergeSort fun a b => !decide (r a < r b)

/-- Position `i` comes before position `j`: a larger remainder, or an equal one
further to the left. -/
def Ahead (r : Nat → M) (i j : Nat) : Prop :=
  r j < r i ∨ r j = r i ∧ i < j

/-- `f` at the first `k` positions of a list of positions. -/
def bumpFirst {α : Type} (f : α → α) : List α → List Nat → Nat → List α
  | rows, j :: order, k + 1 => bumpFirst f (rows.modify j f) order k
  | rows, _, _ => rows

theorem ranking_perm (r : Nat → M) (n : Nat) : (ranking r n).Perm (List.range n) :=
  mergeSort_perm _ _

theorem ranking_nodup (r : Nat → M) (n : Nat) : (ranking r n).Nodup :=
  (ranking_perm r n).nodup_iff.mpr nodup_range

@[simp] theorem length_ranking (r : Nat → M) (n : Nat) : (ranking r n).length = n := by
  rw [(ranking_perm r n).length_eq, length_range]

@[simp] theorem mem_ranking {r : Nat → M} {n i : Nat} : i ∈ ranking r n ↔ i < n := by
  rw [(ranking_perm r n).mem_iff, mem_range]

theorem pair_sublist_range {n i j : Nat} (hij : i < j) (hj : j < n) :
    [i, j].Sublist (List.range n) := by
  have hsorted : (List.range n).Pairwise (· < ·) := pairwise_lt_range
  have hpair : [i, j].Pairwise (· < ·) := by simpa using hij
  have hsub : [i, j] ⊆ List.range n := by
    intro x hx
    simp only [mem_cons, not_mem_nil, or_false] at hx
    rw [mem_range]
    omega
  exact sublist_of_subperm_of_pairwise (subperm_of_subset (by simp; omega) hsub)
    hpair hsorted

theorem not_sublist_swap {l : List Nat} (hnodup : l.Nodup) {i j : Nat} (h : [i, j].Sublist l) :
    ¬ [j, i].Sublist l := by
  intro hswap
  obtain ⟨front, back, rfl, hi, hj⟩ := cons_sublist_iff.mp h
  have hj' : j ∈ back := by simpa using hj
  have hdisjoint := disjoint_of_nodup_append hnodup
  obtain ⟨a, b, hab, ha, hb⟩ := sublist_append_iff.mp hswap
  cases a with
  | nil =>
    have hmem : i ∈ back := hb.subset (by rw [← nil_append b, ← hab]; simp)
    exact hdisjoint hi hmem
  | cons x a =>
    have hx : x = j := by
      exact (List.cons.inj hab).1.symm
    exact hdisjoint (ha.subset (by simp [hx])) hj'

theorem rank_trans (r : Nat → M) (a b c : Nat) (hab : (!decide (r a < r b)) = true)
    (hbc : (!decide (r b < r c)) = true) : (!decide (r a < r c)) = true := by
  simp only [Bool.not_eq_true', decide_eq_false_iff_not, not_lt] at hab hbc ⊢
  exact le_trans hbc hab

theorem rank_total (r : Nat → M) (a b : Nat) :
    ((!decide (r a < r b)) || (!decide (r b < r a))) = true := by
  simp only [Bool.or_eq_true, Bool.not_eq_true', decide_eq_false_iff_not, not_lt]
  exact le_total _ _

theorem ranking_ahead (r : Nat → M) (n : Nat) : (ranking r n).Pairwise (Ahead r) := by
  rw [pairwise_iff_forall_sublist]
  intro i j hij
  have hsorted := pairwise_mergeSort (rank_trans r) (rank_total r) (List.range n)
  have hle : r j ≤ r i := by
    have h := pairwise_iff_forall_sublist.mp hsorted hij
    simpa using h
  rcases lt_or_eq_of_le hle with hlt | heq
  · exact Or.inl hlt
  have hne : i ≠ j := by simpa using hij.nodup (ranking_nodup r n)
  have hi : i < n := mem_ranking.mp (hij.subset (by simp))
  refine Or.inr ⟨heq, ?_⟩
  by_contra hcon
  -- a stable sort would have kept the other order
  have hback : [j, i].Sublist (ranking r n) :=
    pair_sublist_mergeSort (rank_trans r) (rank_total r) (by simp [heq])
      (pair_sublist_range (by omega) hi)
  exact not_sublist_swap (ranking_nodup r n) hij hback

/-- Whoever is chosen among the first `k` is ahead of whoever is not. -/
theorem ahead_of_chosen {r : Nat → M} {n k i j : Nat} (hi : i ∈ (ranking r n).take k)
    (hj : j ∉ (ranking r n).take k) (hlt : j < n) : Ahead r i j := by
  have hmem : j ∈ (ranking r n).drop k := by
    have h : j ∈ (ranking r n).take k ++ (ranking r n).drop k := by
      rw [take_append_drop]
      exact mem_ranking.mpr hlt
    exact (mem_append.mp h).resolve_left hj
  have hall := ranking_ahead r n
  rw [← take_append_drop k (ranking r n), pairwise_append] at hall
  exact hall.2.2 i hi j hmem

/-- What is bumped is what stands at the first `k` positions. -/
theorem getElem?_bumpFirst (f : α → α) (rows : List α) (hnodup : order.Nodup) (k i : Nat) :
    (bumpFirst f rows order k)[i]? = if i ∈ order.take k then rows[i]?.map f else rows[i]? := by
  induction order generalizing rows k with
  | nil => cases k <;> simp [bumpFirst]
  | cons j order ih =>
    obtain ⟨hj, hrest⟩ := nodup_cons.mp hnodup
    cases k with
    | zero => simp [bumpFirst]
    | succ k =>
      simp only [bumpFirst, ih _ hrest, take_succ_cons, mem_cons]
      by_cases hij : i = j
      · have hnot : j ∉ order.take k := fun h => hj (mem_of_mem_take h)
        simp [hij, hnot]
      · have hji : j ≠ i := fun h => hij h.symm
        simp [hij, hji]

theorem sum_bumpFirst (f : α → α) (g : α → Nat) (rows : List α) (hnodup : order.Nodup) {k : Nat}
    (hk : k ≤ order.length) (hf : ∀ j ∈ order.take k, ∃ a, rows[j]? = some a ∧ g (f a) = g a + 1) :
    ((bumpFirst f rows order k).map g).sum = (rows.map g).sum + k := by
  induction order generalizing rows k with
  | nil =>
    have hzero : k = 0 := by simpa using hk
    simp [hzero, bumpFirst]
  | cons j order ih =>
    obtain ⟨hj, hrest⟩ := nodup_cons.mp hnodup
    cases k with
    | zero => simp [bumpFirst]
    | succ k =>
      obtain ⟨a, ha, hone⟩ := hf j (by simp)
      obtain ⟨hlt, hget⟩ := List.getElem?_eq_some_iff.mp ha
      have hsum : ((rows.modify j f).map g).sum = (rows.map g).sum + 1 := by
        rw [modify_eq_take_cons_drop hlt, hget]
        conv_rhs => rw [← take_append_drop j rows, drop_eq_getElem_cons hlt, hget]
        simp only [map_append, map_cons, sum_append, sum_cons, hone]
        omega
      have hothers : ∀ i ∈ order.take k, ∃ a, (rows.modify j f)[i]? = some a ∧
          g (f a) = g a + 1 := by
        intro i hi
        obtain ⟨a, ha, hone⟩ := hf i (by simp [hi])
        have hji : j ≠ i := fun h => hj (h ▸ mem_of_mem_take hi)
        exact ⟨a, by simp [hji, ha], hone⟩
      rw [bumpFirst, ih (rows.modify j f) hrest (by simpa using hk) hothers, hsum]
      omega

/-- The floors of the exact shares, with their remainders, make up `R` times the
total. -/
theorem floors_add_remainders (R W : Nat) (ws : List Nat) :
    W * (ws.map fun w => R * w / W).sum + (ws.map fun w => R * w % W).sum = R * ws.sum := by
  induction ws with
  | nil => simp
  | cons w ws ih =>
    have hdiv := Nat.div_add_mod (R * w) W
    simp only [map_cons, sum_cons, Nat.mul_add]
    omega

theorem floors_deficit {R W : Nat} {ws : List Nat} (hsum : ws.sum = W) (hpos : 0 < W) :
    (ws.map fun w => R * w / W).sum ≤ R ∧ R - (ws.map fun w => R * w / W).sum < ws.length := by
  have htotal := floors_add_remainders R W ws
  rw [hsum, Nat.mul_comm R] at htotal
  have hle : (ws.map fun w => R * w / W).sum ≤ R := Nat.le_of_mul_le_mul_left (by omega) hpos
  have hne : ws ≠ [] := by
    intro hnil
    rw [hnil, sum_nil] at hsum
    omega
  have hrem : (ws.map fun w => R * w % W).sum < (ws.map fun _ => W).sum := by
    apply sum_lt_sum_of_ne_nil hne
    intro w _
    exact Nat.mod_lt _ hpos
  rw [map_const', sum_replicate_nat] at hrem
  refine ⟨hle, @Nat.lt_of_mul_lt_mul_left W _ _ ?_⟩
  rw [Nat.mul_sub, Nat.mul_comm W ws.length]
  omega

end C2Pool.Apportion
