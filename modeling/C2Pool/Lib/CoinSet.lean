import C2Pool.Lib.Words

/-! # Sets of unspent values

A set of unspent values is a partial function.  A spending takes keys out of it
and puts new ones in; what it takes is kept on record.  A list of spendings is
undone in two sweeps, one that puts back what was taken and one that takes out
what was put in, and the order of the sweeps decides which lists it undoes.
-/

namespace C2Pool.CoinSet

open Function Finset

variable {K V : Type} [DecidableEq K] {outputs : List (K × V)} {k : K} {s : K → Option V} {v : V}
  {ks : Finset K} {R : Option V → Option V → Prop} {x : K → Option V}

/-- The keys that are taken out, and then the values that are put in. -/
structure Spending (K V : Type) where
  inputs : List K
  outputs : List (K × V)

/-! ## Spendings -/

def spendAll (s : K → Option V) (ks : List K) : K → Option V :=
  ks.foldl (fun s k => Function.update s k none) s

def taken : (K → Option V) → List K → List (Option V)
  | _, [] => []
  | s, k :: ks => s k :: taken (Function.update s k none) ks

theorem length_taken (s : K → Option V) (ks : List K) : (taken s ks).length = ks.length := by
  induction ks generalizing s with
  | nil => rfl
  | cons k ks ih => rw [taken, List.length_cons, List.length_cons, ih]

def createAll (s : K → Option V) (outputs : List (K × V)) : K → Option V :=
  outputs.foldl (fun s o => Function.update s o.1 (some o.2)) s

def after (s : K → Option V) (t : Spending K V) : K → Option V :=
  createAll (spendAll s t.inputs) t.outputs

def afterAll (s : K → Option V) (ts : List (Spending K V)) : K → Option V :=
  ts.foldl after s

def records : (K → Option V) → List (Spending K V) → List (List (K × Option V))
  | _, [] => []
  | s, t :: ts => t.inputs.zip (taken s t.inputs) :: records (after s t) ts

def spentKeys (ts : List (Spending K V)) : List K := ts.flatMap Spending.inputs

def createdKeys (ts : List (Spending K V)) : List K :=
  ts.flatMap fun t => t.outputs.map Prod.fst

theorem spendAll_apply (s : K → Option V) (ks : List K) (k : K) :
    spendAll s ks k = if k ∈ ks then none else s k := by
  unfold spendAll
  induction ks generalizing s with
  | nil => simp
  | cons k₀ ks ih =>
    rw [List.foldl_cons, ih, update_apply]
    by_cases hmem : k ∈ ks
    · simp [hmem]
    · simp [hmem]

variable {t : Spending K V} {ts : List (Spending K V)}

theorem createAll_of_notMem (s : K → Option V)
    (h : k ∉ outputs.map Prod.fst) : createAll s outputs k = s k := by
  unfold createAll
  induction outputs generalizing s with
  | nil => rfl
  | cons o outputs ih =>
    rw [List.map_cons, List.mem_cons, not_or] at h
    rw [List.foldl_cons, ih _ h.2, update_of_ne h.1]

/-- A key that the spending does not name keeps its value. -/
theorem after_of_notMem (hin : k ∉ t.inputs) (hout : k ∉ t.outputs.map Prod.fst) :
    after s t k = s k := by
  unfold after
  rw [createAll_of_notMem _ hout, spendAll_apply, if_neg hin]

theorem afterAll_of_notMem
    (hin : k ∉ spentKeys ts) (hout : k ∉ createdKeys ts) : afterAll s ts k = s k := by
  unfold afterAll
  induction ts generalizing s with
  | nil => rfl
  | cons t ts ih =>
    unfold spentKeys at hin
    unfold createdKeys at hout
    rw [List.flatMap_cons, List.mem_append, not_or] at hin hout
    rw [List.foldl_cons, ih hin.2 hout.2, after_of_notMem hin.1 hout.1]

theorem createAll_eq_some (h : createAll s outputs k = some v) :
    s k = some v ∨ (k, v) ∈ outputs := by
  induction outputs generalizing s with
  | nil => exact Or.inl h
  | cons o outputs ih =>
    obtain hs | hmem := ih h
    · dsimp only at hs
      rw [update_apply] at hs
      split at hs
      · rename_i hk
        right
        rw [hk, ← Option.some.inj hs]
        exact List.mem_cons_self
      · exact Or.inl hs
    · exact Or.inr (List.mem_cons_of_mem _ hmem)

theorem after_eq_some (h : after s t k = some v) : s k = some v ∨ (k, v) ∈ t.outputs := by
  obtain hs | hmem := createAll_eq_some h
  · rw [spendAll_apply] at hs
    split at hs
    · cases hs
    · exact Or.inl hs
  · exact Or.inr hmem

/-- A value after a list was there before it, or the list put it in. -/
theorem afterAll_eq_some
    (h : afterAll s ts k = some v) : s k = some v ∨ ∃ t ∈ ts, (k, v) ∈ t.outputs := by
  induction ts generalizing s with
  | nil => exact Or.inl h
  | cons t ts ih =>
    obtain hs | ⟨t', ht', hmem⟩ := ih h
    · obtain hs | hmem := after_eq_some hs
      · exact Or.inl hs
      · exact Or.inr ⟨t, List.mem_cons_self, hmem⟩
    · exact Or.inr ⟨t', List.mem_cons_of_mem _ ht', hmem⟩

/-- Every key holds a value when it is taken out. -/
def Spendable : (K → Option V) → List K → Prop
  | _, [] => True
  | s, k :: ks => s k ≠ none ∧ Spendable (Function.update s k none) ks

/-- No key holds a value when it is put in. -/
def Fresh : (K → Option V) → List (K × V) → Prop
  | _, [] => True
  | s, o :: os => s o.1 = none ∧ Fresh (Function.update s o.1 (some o.2)) os

def FreshAll : (K → Option V) → List (Spending K V) → Prop
  | _, [] => True
  | s, t :: ts => Fresh (spendAll s t.inputs) t.outputs ∧ FreshAll (after s t) ts

def SpendableAll : (K → Option V) → List (Spending K V) → Prop
  | _, [] => True
  | s, t :: ts => Spendable s t.inputs ∧ SpendableAll (after s t) ts

def Accepts : (K → Option V) → List (Spending K V) → Prop
  | _, [] => True
  | s, t :: ts =>
    Spendable s t.inputs ∧ Fresh (spendAll s t.inputs) t.outputs ∧ Accepts (after s t) ts

theorem Spendable.mem {ks : List K} (h : Spendable s ks) (hk : k ∈ ks) : s k ≠ none := by
  induction ks generalizing s with
  | nil => cases hk
  | cons k₀ ks ih =>
    by_cases heq : k = k₀
    · subst heq
      exact h.1
    · have hrest := ih h.2 ((List.mem_cons.mp hk).resolve_left heq)
      rwa [update_of_ne heq] at hrest

theorem Fresh.mem (h : Fresh s outputs) (hk : k ∈ outputs.map Prod.fst) : s k = none := by
  induction outputs generalizing s with
  | nil => cases hk
  | cons o outputs ih =>
    by_cases heq : k = o.1
    · subst heq
      exact h.1
    · have hrest := ih h.2 ((List.mem_cons.mp hk).resolve_left heq)
      rwa [update_of_ne heq] at hrest

/-- A key that is put in and not taken out before held nothing. -/
theorem Accepts.created (h : Accepts s ts)
    (hout : k ∈ createdKeys ts) (hin : k ∉ spentKeys ts) : s k = none := by
  induction ts generalizing s with
  | nil => cases hout
  | cons t ts ih =>
    unfold spentKeys at hin
    unfold createdKeys at hout
    rw [List.flatMap_cons, List.mem_append, not_or] at hin
    rw [List.flatMap_cons, List.mem_append] at hout
    by_cases hnow : k ∈ t.outputs.map Prod.fst
    · have hfree := h.2.1.mem hnow
      rwa [spendAll_apply, if_neg hin.1] at hfree
    · have hlater := ih h.2.2 (hout.resolve_left hnow) hin.2
      rwa [after_of_notMem hin.1 hnow] at hlater

/-! ## Undoing -/

def putBack (s : K → Option V) (us : List (K × Option V)) : K → Option V :=
  us.foldl (fun s u => if u.2 = none then s else Function.update s u.1 u.2) s

def restoreAll (s : K → Option V) (uss : List (List (K × Option V))) : K → Option V :=
  uss.reverse.foldl putBack s

theorem putBack_cons (s : K → Option V) (u : K × Option V) (us : List (K × Option V)) :
    putBack s (u :: us) = putBack (if u.2 = none then s else Function.update s u.1 u.2) us := rfl

theorem putBack_concat (s : K → Option V) (us : List (K × Option V)) (u : K × Option V) :
    putBack s (us ++ [u]) =
      if u.2 = none then putBack s us else Function.update (putBack s us) u.1 u.2 := by
  unfold putBack
  rw [List.foldl_append]
  rfl

theorem putBack_through (f : V → V) (x s : K → Option V) (ks : List K) (k : K) :
    putBack x ((ks.zip (taken s ks)).map fun u => (u.1, u.2.map f)) k =
      if k ∈ ks ∧ s k ≠ none then (s k).map f else x k := by
  induction ks generalizing s x with
  | nil => simp [putBack]
  | cons k₀ ks ih =>
    rw [taken, List.zip_cons_cons, List.map_cons, putBack_cons, ih]
    by_cases heq : k = k₀
    · subst heq
      cases hk : s k with
      | none => simp
      | some v => simp
    by_cases hnone : s k₀ = none
    · simp [heq, hnone]
    · simp [heq, hnone]

theorem putBack_taken (x s : K → Option V) (ks : List K) (k : K) :
    putBack x (ks.zip (taken s ks)) k = if k ∈ ks ∧ s k ≠ none then s k else x k := by
  have h := putBack_through id x s ks k
  simpa using h

theorem putBack_taken_reverse (x s : K → Option V) (ks : List K) (k : K) :
    putBack x (ks.zip (taken s ks)).reverse k = if k ∈ ks ∧ s k ≠ none then s k else x k := by
  induction ks generalizing s with
  | nil => simp [putBack]
  | cons k₀ ks ih =>
    rw [taken, List.zip_cons_cons, List.reverse_cons, putBack_concat]
    by_cases heq : k = k₀
    · subst heq
      cases hk : s k with
      | none => simp [ih]
      | some v => simp
    by_cases hnone : s k₀ = none
    · simp [heq, hnone, ih]
    · simp [heq, hnone, ih]

theorem restoreAll_cons (s : K → Option V) (us : List (K × Option V))
    (uss : List (List (K × Option V))) :
    restoreAll s (us :: uss) = putBack (restoreAll s uss) us := by
  unfold restoreAll
  rw [List.reverse_cons, List.foldl_append]
  rfl

theorem restoreAll_reverse (x s : K → Option V) (ts : List (Spending K V)) :
    restoreAll x ((records s ts).map List.reverse) = restoreAll x (records s ts) := by
  induction ts generalizing s with
  | nil => rfl
  | cons t ts ih =>
    rw [records, List.map_cons, restoreAll_cons, restoreAll_cons, ih]
    funext k
    rw [putBack_taken_reverse, putBack_taken]

/-- Putting back alone gives a key that is not put in the value it held, or leaves it alone, and
then the list left it alone too. -/
theorem restoreAll_of_notCreated (x : K → Option V) (hout : k ∉ createdKeys ts) :
    restoreAll x (records s ts) k = s k ∨
      restoreAll x (records s ts) k = x k ∧ afterAll s ts k = s k := by
  induction ts generalizing s with
  | nil => exact Or.inr ⟨rfl, rfl⟩
  | cons t ts ih =>
    unfold createdKeys at hout
    rw [List.flatMap_cons, List.mem_append, not_or] at hout
    have hafter : k ∉ t.inputs ∨ s k = none → after s t k = s k := by
      intro hkeep
      unfold after
      rw [createAll_of_notMem _ hout.1, spendAll_apply]
      obtain hin | hnone := hkeep
      · simp [hin]
      · simp [hnone]
    rw [records, restoreAll_cons, putBack_taken]
    by_cases htaken : k ∈ t.inputs ∧ s k ≠ none
    · rw [if_pos htaken]
      exact Or.inl rfl
    rw [if_neg htaken]
    have hkeep := hafter (by tauto)
    have hrest := ih hout.2 (s := after s t)
    rw [hkeep] at hrest
    exact hrest

/-- Putting back and then taking out undoes a list that puts in no key which held a value; where
the set has changed since then, it has changed in the same way before the list. -/
theorem removeAll_restoreAll (hrefl : ∀ v, R v v) (hx : ∀ k, R (x k) (afterAll s ts k))
    (hfresh : ∀ k ∈ createdKeys ts, s k = none) (k : K) :
    R (spendAll (restoreAll x (records s ts)) (createdKeys ts) k) (s k) := by
  rw [spendAll_apply]
  by_cases hout : k ∈ createdKeys ts
  · rw [if_pos hout, hfresh k hout]
    exact hrefl none
  rw [if_neg hout]
  obtain hback | ⟨hleft, hkeep⟩ := restoreAll_of_notCreated x (s := s) hout
  · rw [hback]
    exact hrefl _
  · rw [hleft, ← hkeep]
    exact hx k

def through (f : V → V) (uss : List (List (K × Option V))) : List (List (K × Option V)) :=
  uss.map fun us => us.map fun u => (u.1, u.2.map f)

/-- After the records of a strict list are put back, a key that was taken holds what it held when
it was first taken: its value before, or one that the list itself put in. -/
theorem Accepts.restoreAll (h : Accepts s ts) (f : V → V) (x : K → Option V) (k : K) :
    (k ∉ spentKeys ts → restoreAll x (through f (records s ts)) k = x k) ∧
      (k ∈ spentKeys ts → CoinSet.restoreAll x (through f (records s ts)) k ≠ none ∧
        (s k ≠ none → CoinSet.restoreAll x (through f (records s ts)) k = (s k).map f)) := by
  induction ts generalizing s with
  | nil =>
    refine ⟨fun _ => rfl, ?_⟩
    intro hin
    cases hin
  | cons t ts ih =>
    obtain ⟨hspendable, hfresh, hrest⟩ := h
    obtain ⟨hskip, htake⟩ := ih hrest
    unfold through at hskip htake ⊢
    unfold spentKeys
    rw [List.flatMap_cons, List.mem_append, records, List.map_cons, restoreAll_cons,
      putBack_through]
    by_cases hin : k ∈ t.inputs
    · have hheld := hspendable.mem hin
      rw [if_pos ⟨hin, hheld⟩]
      refine ⟨fun hnot => absurd (Or.inl hin) hnot, fun _ => ⟨?_, fun _ => rfl⟩⟩
      rwa [ne_eq, Option.map_eq_none_iff]
    rw [if_neg (fun hboth => hin hboth.1)]
    refine ⟨fun hnot => hskip fun hmem => hnot (Or.inr hmem), ?_⟩
    intro hmem
    obtain ⟨hsome, hsame⟩ := htake (hmem.resolve_left hin)
    refine ⟨hsome, ?_⟩
    intro hheld
    have hout : k ∉ t.outputs.map Prod.fst := by
      intro hout
      have hnone := hfresh.mem hout
      rw [spendAll_apply, if_neg hin] at hnone
      exact hheld hnone
    have hkeep : after s t k = s k := after_of_notMem hin hout
    rw [hsame (by rwa [hkeep]), hkeep]

/-- Taking out and then putting back undoes a strict list exactly when it takes only keys that
held a value before it. -/
theorem Accepts.restoreAll_removeAll_iff (h : Accepts s ts) (f : V → V) (hf : ∀ v, R (v.map f) v)
    (hnone : ∀ v, R v none ↔ v = none) (hx : ∀ k, R (x k) (afterAll s ts k)) :
    (∀ k, R (CoinSet.restoreAll (spendAll x (createdKeys ts)) (through f (records s ts)) k)
        (s k)) ↔ ∀ k ∈ spentKeys ts, s k ≠ none := by
  constructor
  · intro hback k hin hempty
    have hsome := ((h.restoreAll f (spendAll x (createdKeys ts)) k).2 hin).1
    have hk := hback k
    rw [hempty] at hk
    exact hsome ((hnone _).mp hk)
  intro hheld k
  by_cases hin : k ∈ spentKeys ts
  · rw [((h.restoreAll f _ k).2 hin).2 (hheld k hin)]
    exact hf (s k)
  rw [(h.restoreAll f _ k).1 hin, spendAll_apply]
  by_cases hout : k ∈ createdKeys ts
  · rw [if_pos hout, h.created hout hin]
    exact (hnone none).mpr rfl
  · rw [if_neg hout, ← afterAll_of_notMem (s := s) hin hout]
    exact hx k

def held (ks : Finset K) (s : K → Option V) : Int := ((ks.filter fun k => s k ≠ none).card : Int)

def weight (v : Option V) : Int := if v.isSome then 1 else 0

theorem held_update (hk : k ∈ ks) (s : K → Option V) (v : Option V) :
    held ks (Function.update s k v) = held ks s - weight (s k) + weight v := by
  have hsplit : ∀ s : K → Option V, held ks s = held (ks.erase k) s + weight (s k) := by
    intro s
    unfold held weight
    conv_lhs => rw [← insert_erase hk]
    rw [filter_insert]
    cases hs : s k with
    | none => simp
    | some v => simp
  have hrest : held (ks.erase k) (Function.update s k v) = held (ks.erase k) s := by
    unfold held
    congr 2
    apply filter_congr
    intro x hx
    rw [update_of_ne (ne_of_mem_erase hx)]
  rw [hsplit (Function.update s k v), hrest, hsplit s, update_self]
  omega

omit [DecidableEq K] in
theorem held_congr {s' : K → Option V}
    (h : ∀ k, (s k).isSome = (s' k).isSome) : held ks s = held ks s' := by
  unfold held
  congr 2
  apply filter_congr
  intro k _
  have hk := h k
  cases hs : s k <;> cases hs' : s' k <;> simp_all

theorem Spendable.held {s : K → Option V} {ks : Finset K} {l : List K} (h : Spendable s l)
    (hl : ∀ k ∈ l, k ∈ ks) : held ks (spendAll s l) = CoinSet.held ks s - l.length := by
  unfold spendAll
  induction l generalizing s with
  | nil => simp
  | cons k l ih =>
    have hone : weight (s k) = 1 := by
      unfold weight
      rw [if_pos (Option.ne_none_iff_isSome.mp h.1)]
    rw [List.foldl_cons, ih h.2 (fun x hx => hl x (List.mem_cons_of_mem _ hx)),
      held_update (hl k List.mem_cons_self), hone, List.length_cons]
    simp [weight]
    omega

theorem Fresh.held {s : K → Option V} {ks : Finset K} {outputs : List (K × V)} (h : Fresh s outputs)
    (hl : ∀ o ∈ outputs, o.1 ∈ ks) :
    held ks (createAll s outputs) = CoinSet.held ks s + outputs.length := by
  unfold createAll
  induction outputs generalizing s with
  | nil => simp
  | cons o outputs ih =>
    rw [List.foldl_cons, ih h.2 (fun x hx => hl x (List.mem_cons_of_mem _ hx)),
      held_update (hl o List.mem_cons_self), h.1, List.length_cons]
    simp [weight]
    omega

def net (ts : List (Spending K V)) : Int :=
  (ts.map fun t => (t.outputs.length : Int) - t.inputs.length).sum

theorem held_afterAll {s : K → Option V} {ks : Finset K} (hspendable : SpendableAll s ts)
    (hfresh : FreshAll s ts) (hin : ∀ k ∈ spentKeys ts, k ∈ ks)
    (hout : ∀ k ∈ createdKeys ts, k ∈ ks) :
    held ks (afterAll s ts) = held ks s + net ts := by
  unfold afterAll
  induction ts generalizing s with
  | nil => simp [net]
  | cons t ts ih =>
    unfold spentKeys at hin
    unfold createdKeys at hout
    simp only [List.flatMap_cons, List.mem_append] at hin hout
    have hrest := ih hspendable.2 hfresh.2 (fun k hk => hin k (Or.inr hk))
      (fun k hk => hout k (Or.inr hk))
    have hspent := hspendable.1.held fun k hk => hin k (Or.inl hk)
    have hmade := hfresh.1.held fun o ho => hout o.1 (Or.inl (List.mem_map_of_mem ho))
    rw [List.foldl_cons, hrest]
    unfold after net
    rw [hmade, hspent, List.map_cons, List.sum_cons]
    omega

end C2Pool.CoinSet
