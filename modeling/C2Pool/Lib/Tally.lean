import C2Pool.Lib.Words

/-! # Tallies

Maps that are only ever added to, such as the weight maps and counters of a
ledger: a list of keys with amounts.  What a tally says about a key is the sum
of its amounts, which is how tallies are compared.
-/

namespace C2Pool

open Finset List

/-- A map from keys to amounts. -/
abbrev Tally (K M : Type) := List (K × M)

namespace Tally

variable {K M : Type} [DecidableEq K] [AddCommMonoid M] {N : Type} {t : Tally K M}

def amount (t : Tally K M) (k : K) : M :=
  (t.map fun e => if e.1 = k then e.2 else 0).sum

/-- `t[k] += v`. -/
def bump (t : Tally K M) (k : K) (v : M) : Tally K M :=
  match t with
  | [] => [(k, v)]
  | (k', v') :: rest => if k' = k then (k', v' + v) :: rest else (k', v') :: bump rest k v

/-- `for (k, v) in t': t[k] += v`. -/
def merge (t t' : Tally K M) : Tally K M :=
  t'.foldl (fun acc e => bump acc e.1 e.2) t

@[simp] theorem amount_nil (k : K) : amount ([] : Tally K M) k = 0 := rfl

@[simp] theorem amount_cons (e : K × M) (t : Tally K M) (k : K) :
    amount (e :: t) k = (if e.1 = k then e.2 else 0) + amount t k := by
  simp [amount]

theorem amount_bump (t : Tally K M) (k : K) (v : M) (k' : K) :
    amount (bump t k v) k' = amount t k' + if k = k' then v else 0 := by
  induction t with
  | nil => simp [bump]
  | cons e rest ih =>
    rcases e with ⟨k₁, v₁⟩
    unfold bump
    by_cases hk : k₁ = k
    · subst hk
      rw [if_pos rfl, amount_cons, amount_cons]
      by_cases hk' : k₁ = k'
      · simp only [hk', if_true]
        rw [add_assoc, add_comm v, ← add_assoc]
      · simp [hk']
    · rw [if_neg hk, amount_cons, amount_cons, ih, add_assoc]

@[simp] theorem amount_merge (t t' : Tally K M) (k : K) :
    amount (merge t t') k = amount t k + amount t' k := by
  unfold merge
  induction t' generalizing t with
  | nil => simp
  | cons e rest ih =>
    rw [List.foldl_cons, ih, amount_bump, amount_cons, add_assoc]

theorem amount_foldl_merge (parts : List (Tally K M)) (t : Tally K M) (k : K) :
    amount (parts.foldl merge t) k = amount t k + (parts.map fun p => amount p k).sum := by
  induction parts generalizing t with
  | nil => simp
  | cons p parts ih =>
    rw [List.foldl_cons, ih, amount_merge, List.map_cons, List.sum_cons, add_assoc]

theorem sum_map_of_additive [AddCommMonoid N] (t : Tally K M) (f : K → M → N)
    (hzero : ∀ k, f k 0 = 0) (hadd : ∀ k a b, f k (a + b) = f k a + f k b) (keys : Finset K)
    (hkeys : ∀ e ∈ t, e.1 ∈ keys) :
    (t.map fun e => f e.1 e.2).sum = ∑ k ∈ keys, f k (t.amount k) := by
  induction t with
  | nil => simp [hzero]
  | cons e rest ih =>
    have hrest := ih fun e' he' => hkeys e' (mem_cons_of_mem _ he')
    have hmem := hkeys e List.mem_cons_self
    have hone : ∑ k ∈ keys, f k (if e.1 = k then e.2 else 0) = f e.1 e.2 := by
      rw [sum_eq_single e.1]
      · simp
      · intro k _ hk
        rw [if_neg (Ne.symm hk), hzero]
      · intro hnot
        exact absurd hmem hnot
    rw [List.map_cons, List.sum_cons, hrest, ← hone, ← sum_add_distrib]
    apply sum_congr rfl
    intro k _
    rw [amount_cons, hadd]

theorem sum_map_eq_of_amount_eq [AddCommMonoid N] {t t' : Tally K M}
    (h : ∀ k, t.amount k = t'.amount k) (f : K → M → N) (hzero : ∀ k, f k 0 = 0)
    (hadd : ∀ k a b, f k (a + b) = f k a + f k b) :
    (t.map fun e => f e.1 e.2).sum = (t'.map fun e => f e.1 e.2).sum := by
  have hleft : ∀ e ∈ t, e.1 ∈ ((t ++ t').map Prod.fst).toFinset := by
    intro e he
    rw [mem_toFinset]
    exact mem_map_of_mem (mem_append_left t' he)
  have hright : ∀ e ∈ t', e.1 ∈ ((t ++ t').map Prod.fst).toFinset := by
    intro e he
    rw [mem_toFinset]
    exact mem_map_of_mem (mem_append_right t he)
  rw [sum_map_of_additive t f hzero hadd _ hleft, sum_map_of_additive t' f hzero hadd _ hright]
  apply sum_congr rfl
  intro k _
  rw [h]

def Distinct (t : Tally K M) : Prop :=
  (t.map Prod.fst).Nodup

theorem mem_keys_bump {k k' : K} {v : M}
    (h : k' ∈ (bump t k v).map Prod.fst) : k' = k ∨ k' ∈ t.map Prod.fst := by
  induction t with
  | nil => simpa [bump] using h
  | cons e rest ih =>
    unfold bump at h
    by_cases hk : e.1 = k
    · right
      simpa [hk] using h
    rw [if_neg hk, List.map_cons, List.mem_cons] at h
    rcases h with h | h
    · right
      simp [h]
    rcases ih h with h | h
    · exact .inl h
    · right
      exact mem_cons_of_mem _ h

theorem Distinct.bump (h : Distinct t) (k : K) (v : M) : Distinct (Tally.bump t k v) := by
  induction t with
  | nil => simp [Tally.bump, Distinct]
  | cons e rest ih =>
    unfold Distinct at h
    rw [List.map_cons, List.nodup_cons] at h
    unfold Tally.bump
    by_cases hk : e.1 = k
    · rw [if_pos hk]
      exact List.nodup_cons.mpr h
    rw [if_neg hk]
    refine List.nodup_cons.mpr ⟨?_, ih h.2⟩
    intro hmem
    rcases mem_keys_bump hmem with hsame | hmem
    · exact hk hsame
    · exact h.1 hmem

theorem amount_of_notMem {k : K} (h : k ∉ t.map Prod.fst) : t.amount k = 0 := by
  induction t with
  | nil => rfl
  | cons e rest ih =>
    rw [List.map_cons, List.mem_cons, not_or] at h
    rw [amount_cons, if_neg (Ne.symm h.1), ih h.2, zero_add]

theorem Distinct.amount_of_mem (h : Distinct t) {e : K × M} (he : e ∈ t) : t.amount e.1 = e.2 := by
  induction t with
  | nil => cases he
  | cons e' rest ih =>
    unfold Distinct at h
    rw [List.map_cons, List.nodup_cons] at h
    rw [amount_cons]
    rcases List.mem_cons.mp he with hee | he
    · rw [hee, if_pos rfl, amount_of_notMem h.1, add_zero]
    have hne : e'.1 ≠ e.1 := by
      intro hsame
      exact h.1 (hsame ▸ mem_map_of_mem he)
    rw [if_neg hne, zero_add, ih h.2 he]

theorem Distinct.sum_map [AddCommMonoid N] (h : Distinct t)
    (f : K → M → N) (hzero : ∀ k, f k 0 = 0) (keys : Finset K) (hkeys : ∀ e ∈ t, e.1 ∈ keys) :
    (t.map fun e => f e.1 e.2).sum = ∑ k ∈ keys, f k (t.amount k) := by
  induction t with
  | nil => simp [hzero]
  | cons e rest ih =>
    unfold Distinct at h
    rw [List.map_cons, List.nodup_cons] at h
    have hmem := hkeys e List.mem_cons_self
    have hrest := ih h.2 fun e' he' => hkeys e' (mem_cons_of_mem _ he')
    rw [List.map_cons, List.sum_cons, hrest, ← add_sum_erase _ _ hmem,
      ← add_sum_erase _ (fun k => f k (amount (e :: rest) k)) hmem]
    have hhere : amount (e :: rest) e.1 = e.2 := by
      rw [amount_cons, if_pos rfl, amount_of_notMem h.1, add_zero]
    rw [hhere, amount_of_notMem h.1, hzero, zero_add]
    congr 1
    apply sum_congr rfl
    intro k hk
    rw [amount_cons, if_neg (Ne.symm (ne_of_mem_erase hk)), zero_add]

end Tally

end C2Pool
