import C2Pool.Lib.SortedMap

/-! # Ledgers

Ordered maps of amounts that are credited and debited.  A debit is refused
when it exceeds the amount, so that it never wraps around; the debits of a
ledger drop a row that comes to nothing.
-/

namespace C2Pool

open List SortedMap

/-- Amounts by key. -/
abbrev Ledger (K : Type) [LinearOrder K] := SortedMap K Nat

/-- `a -= b`, refused when it would wrap around. -/
def checkedSub (a b : Nat) : Option Nat :=
  if b ≤ a then some (a - b) else none

theorem checkedSub_of_le {a b : Nat} (h : b ≤ a) : checkedSub a b = some (a - b) :=
  if_pos h

theorem checkedSub_add (a b : Nat) : checkedSub (a + b) b = some a := by
  rw [checkedSub_of_le (Nat.le_add_left b a), Nat.add_sub_cancel]

theorem checkedSub_eq_some {a b c : Nat} : checkedSub a b = some c ↔ c + b = a := by
  unfold checkedSub
  split
  · rw [Option.some.injEq]
    omega
  constructor
  · intro h
    cases h
  · omega

namespace Ledger

variable {K : Type} [LinearOrder K] {es es' : List (K × Nat)} {k : K} {v : Nat} {l l' : Ledger K}

def amount (l : Ledger K) (k : K) : Nat := (l.lookup k).getD 0

/-- `l[k] += v`. -/
def credit (l : Ledger K) (k : K) (v : Nat) : Ledger K := l.insert k (l.amount k + v)

/-- `l[k] -= v`, and the row is erased at zero. -/
def debit (l : Ledger K) (k : K) (v : Nat) : Option (Ledger K) :=
  (checkedSub (l.amount k) v).map fun rest => if rest = 0 then l.erase k else l.insert k rest

def total (l : Ledger K) : Nat := l.sum fun _ v => v

def creditAll (l : Ledger K) (es : List (K × Nat)) : Ledger K :=
  es.foldl (fun l e => l.credit e.1 e.2) l

def debitAll (l : Ledger K) : List (K × Nat) → Option (Ledger K)
  | [] => some l
  | e :: es => (l.debit e.1 e.2).bind fun l => debitAll l es

def sumOf (es : List (K × Nat)) (k : K) : Nat :=
  (es.map fun e => if e.1 = k then e.2 else 0).sum

@[simp] theorem amount_empty (k : K) : amount (∅ : Ledger K) k = 0 := rfl

@[simp] theorem sumOf_nil (k : K) : sumOf ([] : List (K × Nat)) k = 0 := rfl

@[simp] theorem sumOf_cons (e : K × Nat) (es : List (K × Nat)) (k : K) :
    sumOf (e :: es) k = (if e.1 = k then e.2 else 0) + sumOf es k := by
  simp [sumOf]

@[simp] theorem sumOf_append (es es' : List (K × Nat)) (k : K) :
    sumOf (es ++ es') k = sumOf es k + sumOf es' k := by
  simp [sumOf]

theorem sumOf_eq_zero (h : k ∉ es.map Prod.fst) : sumOf es k = 0 := by
  induction es with
  | nil => rfl
  | cons e es ih =>
    rw [map_cons, mem_cons, not_or] at h
    rw [sumOf_cons, if_neg (Ne.symm h.1), ih h.2]

theorem sumOf_perm (h : es.Perm es') (k : K) : sumOf es k = sumOf es' k := (h.map _).sum_eq

theorem sumOf_entries {V : Type} (m : SortedMap K V) (f : V → Nat) (k : K) :
    sumOf (m.entries.map fun e => (e.1, f e.2)) k = ((m.lookup k).map f).getD 0 := by
  obtain ⟨l, hl⟩ := m
  show sumOf (l.map fun e => (e.1, f e.2)) k = ((SortedMap.find k l).map f).getD 0
  induction l with
  | nil => rfl
  | cons e rest ih =>
    rw [pairwise_cons] at hl
    rw [map_cons, sumOf_cons, ih hl.2, find_cons]
    by_cases hk : e.1 = k
    · have hnone : SortedMap.find k rest = none := find_eq_none_of_lt fun e' he' => hk ▸ hl.1 e' he'
      rw [if_pos hk, if_pos hk, hnone]
      rfl
    · rw [if_neg hk, if_neg hk, Nat.zero_add]

theorem sum_eq_sum_sumOf (es : List (K × Nat)) {keys : Finset K} (h : ∀ e ∈ es, e.1 ∈ keys) :
    (es.map Prod.snd).sum = ∑ k ∈ keys, sumOf es k := by
  induction es with
  | nil => simp
  | cons e es ih =>
    have hrest := ih fun e' he' => h e' (mem_cons_of_mem _ he')
    simp only [sumOf_cons, Finset.sum_add_distrib]
    rw [Finset.sum_ite_eq, if_pos (h e mem_cons_self), ← hrest, map_cons, sum_cons]

/-- The total of a list of amounts is determined by what it says about each key. -/
theorem sum_eq_of_sumOf_eq (h : ∀ k, sumOf es k = sumOf es' k) :
    (es.map Prod.snd).sum = (es'.map Prod.snd).sum := by
  have hkeys : ∀ e ∈ es, e.1 ∈ ((es ++ es').map Prod.fst).toFinset := by
    intro e he
    rw [mem_toFinset]
    exact mem_map_of_mem (mem_append_left _ he)
  have hkeys' : ∀ e ∈ es', e.1 ∈ ((es ++ es').map Prod.fst).toFinset := by
    intro e he
    rw [mem_toFinset]
    exact mem_map_of_mem (mem_append_right _ he)
  rw [sum_eq_sum_sumOf es hkeys, sum_eq_sum_sumOf es' hkeys']
  exact Finset.sum_congr rfl fun k _ => h k

theorem amount_credit (l : Ledger K) (k : K) (v : Nat) (x : K) :
    (l.credit k v).amount x = l.amount x + if k = x then v else 0 := by
  unfold credit amount
  rw [lookup_insert]
  by_cases hx : x = k
  · subst hx
    simp
  · simp [hx, Ne.symm hx]

theorem amount_creditAll (l : Ledger K) (es : List (K × Nat)) (x : K) :
    (l.creditAll es).amount x = l.amount x + sumOf es x := by
  unfold creditAll
  induction es generalizing l with
  | nil => rfl
  | cons e es ih =>
    rw [foldl_cons, ih, amount_credit, sumOf_cons]
    omega

theorem debit_of_le (h : v ≤ l.amount k) :
    ∃ l', l.debit k v = some l' ∧ ∀ x, l'.amount x = l.amount x - if k = x then v else 0 := by
  unfold debit
  rw [checkedSub_of_le h]
  refine ⟨_, rfl, ?_⟩
  intro x
  dsimp only
  by_cases hx : x = k
  · subst hx
    rw [if_pos rfl]
    split
    · rename_i hzero
      unfold amount at hzero ⊢
      rw [lookup_erase, if_pos rfl, hzero]
      rfl
    unfold amount
    rw [lookup_insert, if_pos rfl]
    rfl
  rw [if_neg (Ne.symm hx), Nat.sub_zero]
  split
  · unfold amount
    rw [lookup_erase, if_neg hx]
  · unfold amount
    rw [lookup_insert, if_neg hx]

theorem debitAll_of_le (h : ∀ k, sumOf es k ≤ l.amount k) :
    ∃ l', l.debitAll es = some l' ∧ ∀ x, l'.amount x = l.amount x - sumOf es x := by
  induction es generalizing l with
  | nil => exact ⟨l, rfl, fun x => rfl⟩
  | cons e es ih =>
    have hfirst : e.2 ≤ l.amount e.1 := by
      have := h e.1
      rw [sumOf_cons, if_pos rfl] at this
      omega
    obtain ⟨l₁, hl₁, hamount⟩ := debit_of_le hfirst
    have hrest : ∀ k, sumOf es k ≤ l₁.amount k := by
      intro k
      have := h k
      rw [sumOf_cons] at this
      rw [hamount]
      omega
    obtain ⟨l', hl', hamount'⟩ := ih hrest
    refine ⟨l', ?_, ?_⟩
    · unfold debitAll
      rw [hl₁]
      exact hl'
    intro x
    rw [hamount', hamount, sumOf_cons]
    omega

theorem le_of_debit (h : l.debit k v = some l') : v ≤ l.amount k := by
  unfold debit checkedSub at h
  split at h
  · assumption
  · cases h

theorem le_of_debitAll (h : l.debitAll es = some l') (k : K) : sumOf es k ≤ l.amount k := by
  induction es generalizing l with
  | nil => exact Nat.zero_le _
  | cons e es ih =>
    obtain ⟨l₁, hl₁, hrest⟩ := Option.bind_eq_some_iff.mp h
    have hle := le_of_debit hl₁
    obtain ⟨l₂, hl₂, hamount⟩ := debit_of_le hle
    rw [hl₁] at hl₂
    cases hl₂
    have hrest := ih hrest
    rw [hamount] at hrest
    rw [sumOf_cons]
    split
    · rename_i hk
      rw [if_pos hk] at hrest
      rw [hk] at hle
      omega
    · rename_i hk
      omega

theorem amount_debitAll (h : l.debitAll es = some l')
    (k : K) : l'.amount k + sumOf es k = l.amount k := by
  have hle := le_of_debitAll h
  obtain ⟨l₁, hl₁, hamount⟩ := debitAll_of_le hle
  rw [h] at hl₁
  cases hl₁
  have := hle k
  rw [hamount]
  omega

theorem total_eq_add_erase (l : Ledger K) (k : K) : l.total = l.amount k + total (l.erase k) := by
  unfold total amount
  cases hk : l.lookup k with
  | none =>
    rw [erase_of_lookup_none hk]
    simp
  | some w => exact sum_of_split (fun _ w => w) hk

theorem sumOf_entries_self (l : Ledger K) (k : K) : sumOf l.entries k = l.amount k := by
  have h := sumOf_entries l id k
  rw [show (l.entries.map fun e => (e.1, id e.2)) = l.entries by simp] at h
  rw [h, Option.map_id]
  rfl

theorem total_congr (h : ∀ k, l.amount k = l'.amount k) : l.total = l'.total := by
  apply sum_eq_of_sumOf_eq
  intro k
  rw [sumOf_entries_self, sumOf_entries_self, h]

theorem amount_insert_self (l : Ledger K) (k : K) (v : Nat) : amount (l.insert k v) k = v := by
  unfold amount
  rw [lookup_insert, if_pos rfl]
  rfl

theorem total_credit (l : Ledger K) (k : K) (v : Nat) : (l.credit k v).total = l.total + v := by
  rw [total_eq_add_erase (l.credit k v) k, total_eq_add_erase l k]
  unfold credit
  rw [amount_insert_self, erase_insert]
  omega

theorem total_creditAll (l : Ledger K) (es : List (K × Nat)) :
    (l.creditAll es).total = l.total + (es.map Prod.snd).sum := by
  unfold creditAll
  induction es generalizing l with
  | nil => rfl
  | cons e es ih =>
    rw [foldl_cons, ih, total_credit, map_cons, sum_cons]
    omega

theorem creditAll_append (l : Ledger K) (es es' : List (K × Nat)) :
    l.creditAll (es ++ es') = (l.creditAll es).creditAll es' := foldl_append

theorem lookup_creditAll (l : Ledger K) (es : List (K × Nat)) (k : K) :
    (l.creditAll es).lookup k =
      if k ∈ es.map Prod.fst then some (l.amount k + sumOf es k) else l.lookup k := by
  induction es generalizing l with
  | nil => simp [creditAll]
  | cons e es ih =>
    have hfirst : (l.credit e.1 e.2).lookup k =
        if k = e.1 then some (l.amount k + e.2) else l.lookup k := by
      unfold credit
      rw [lookup_insert]
      split
      · rename_i hk
        rw [hk]
      · rfl
    show ((l.credit e.1 e.2).creditAll es).lookup k = _
    rw [ih, amount_credit, sumOf_cons, map_cons, hfirst]
    by_cases hk : k = e.1
    · have hmem : k ∈ e.1 :: es.map Prod.fst := hk ▸ mem_cons_self
      rw [if_pos hk, if_pos hk.symm, if_pos hmem]
      split
      · rw [Nat.add_assoc]
      · rename_i hnot
        rw [sumOf_eq_zero hnot, Nat.add_zero]
    have hmem : k ∈ e.1 :: es.map Prod.fst ↔ k ∈ es.map Prod.fst := by
      simp [hk]
    rw [if_neg hk, if_neg (Ne.symm hk), Nat.add_zero, Nat.zero_add]
    by_cases hin : k ∈ es.map Prod.fst
    · rw [if_pos hin, if_pos (hmem.mpr hin)]
    · rw [if_neg hin, if_neg (mt hmem.mp hin)]

theorem creditAll_entries {V : Type} (m : SortedMap K V) (f : V → Nat) :
    (∅ : Ledger K).creditAll (m.entries.map fun e => (e.1, f e.2)) =
      m.mapValues fun _ v => f v := by
  apply ext_lookup
  intro k
  have hkeys : k ∈ (m.entries.map fun e => (e.1, f e.2)).map Prod.fst ↔
      ∃ v, m.lookup k = some v := by
    rw [map_map, mem_map]
    constructor
    · rintro ⟨e, he, rfl⟩
      exact ⟨e.2, mem_entries_iff.mp he⟩
    · rintro ⟨v, hv⟩
      exact ⟨(k, v), mem_entries_iff.mpr hv, rfl⟩
  rw [lookup_creditAll, lookup_mapValues, sumOf_entries]
  cases hk : m.lookup k with
  | none =>
    rw [if_neg]
    · rfl
    intro hin
    obtain ⟨v, hv⟩ := hkeys.mp hin
    cases hk.symm.trans hv
  | some v =>
    rw [if_pos (hkeys.mpr ⟨v, hk⟩)]
    simp

theorem creditAll_perm (l : Ledger K) (h : es.Perm es') : l.creditAll es = l.creditAll es' := by
  apply ext_lookup
  intro k
  rw [lookup_creditAll, lookup_creditAll, sumOf_perm h]
  have hmem : k ∈ es.map Prod.fst ↔ k ∈ es'.map Prod.fst := (h.map Prod.fst).mem_iff
  by_cases hin : k ∈ es.map Prod.fst
  · rw [if_pos hin, if_pos (hmem.mp hin)]
  · rw [if_neg hin, if_neg (mt hmem.mpr hin)]

def NoZero (l : Ledger K) : Prop := ∀ k v, l.lookup k = some v → v ≠ 0

theorem NoZero.lookup (h : l.NoZero) (k : K) :
    l.lookup k = if l.amount k = 0 then none else some (l.amount k) := by
  unfold amount
  cases hk : SortedMap.lookup l k with
  | none => rfl
  | some v =>
    rw [Option.getD_some, if_neg (h k v hk)]

theorem NoZero.ext (h : l.NoZero) (h' : l'.NoZero)
    (hamount : ∀ k, l.amount k = l'.amount k) : l = l' := by
  apply ext_lookup
  intro k
  rw [h.lookup, h'.lookup, hamount]

theorem noZero_empty : NoZero (∅ : Ledger K) := fun _ _ h => nomatch h

theorem le_sumOf {es : List (K × Nat)} {e : K × Nat} (h : e ∈ es) : e.2 ≤ sumOf es e.1 := by
  induction es with
  | nil => cases h
  | cons first es ih =>
    rw [sumOf_cons]
    rcases mem_cons.mp h with rfl | h
    · rw [if_pos rfl]
      exact Nat.le_add_right _ _
    · exact (ih h).trans (Nat.le_add_left _ _)

theorem NoZero.creditAll (h : l.NoZero) (hes : ∀ e ∈ es, e.2 ≠ 0) : (l.creditAll es).NoZero := by
  intro k v hk
  rw [lookup_creditAll] at hk
  split at hk
  · rename_i hmem
    cases hk
    obtain ⟨e, he, rfl⟩ := mem_map.mp hmem
    have hle := le_sumOf he
    have hpos := hes e he
    omega
  · exact h k v hk

theorem NoZero.debit (h : l.NoZero) (hdebit : l.debit k v = some l') : l'.NoZero := by
  obtain ⟨rest, -, rfl⟩ := Option.map_eq_some_iff.mp hdebit
  intro x w hx
  split at hx
  · rw [lookup_erase] at hx
    split at hx
    · cases hx
    · exact h x w hx
  rename_i hrest
  rw [lookup_insert] at hx
  split at hx
  · cases hx
    exact hrest
  · exact h x w hx

theorem NoZero.debit_credit (h : l.NoZero) (k : K) (v : Nat) :
    (l.credit k v).debit k v = some l := by
  have hamount : (l.credit k v).amount k = l.amount k + v := by
    rw [amount_credit, if_pos rfl]
  unfold Ledger.debit
  rw [hamount, checkedSub_add, Option.map_some]
  congr 1
  apply ext_lookup
  intro x
  unfold Ledger.credit
  split
  · rename_i hzero
    rw [erase_insert, lookup_erase]
    split
    · rename_i hx
      rw [h.lookup, hx, if_pos hzero]
    · rfl
  rename_i hpos
  rw [lookup_insert, lookup_insert]
  split
  · rename_i hx
    rw [h.lookup, hx, if_neg hpos]
  · rfl

end Ledger

end C2Pool
