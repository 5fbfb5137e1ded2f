import C2Pool.Sharechain.ForestAdd
import C2Pool.Sharechain.ForestRemove

/-! # Runs of the share forest

Any interleaving of additions and removals from the empty forest, with parents
arriving before or after their children, keeps the four tables in agreement.
-/

namespace C2Pool.Sharechain.Forest

open ParentForest FiniteMap Run Finmap Finset

variable {H S : Type} [DecidableEq H] [Inhabited H] {c : Forest H S} {h : H}

/-- A call that changes the forest. -/
inductive Op (H S : Type) where
  | add (data : ChainData H S)
  | remove (hash : H)

def step (c : Forest H S) : Op H S → Forest H S
  | .add data => c.add data
  | .remove hash => (c.remove hash).2

/-- What a caller of `add` provides: a non-null hash that is not held, and a
previous hash that closes no cycle. -/
structure Fresh (c : Forest H S) (data : ChainData H S) : Prop where
  nonNull : data.index.head ≠ default
  new : data.index.head ∉ c.shares
  acyclic : Acyclic (extend c.parent data.index.head data.index.tail)

def Allowed (c : Forest H S) : Op H S → Prop
  | .add data => Fresh c data ∧ c.size + 1 ≤ 100000
  | .remove _ => True

/-- The invariant read table by table. -/
structure ForestInvariant (c : Forest H S) : Prop where
  heads_keys : ∀ x, x ∈ c.heads ↔ x ∈ c.shares ∧ ∀ y ∈ c.shares, c.parent y ≠ some x
  heads_last : ∀ x t, c.heads.lookup x = some t → EndsIn c.parent x t
  tails_row : ∀ t x, x ∈ row c.tails t ↔ x ∈ c.heads ∧ EndsIn c.parent x t
  tails_nonempty : ∀ t hs, c.tails.lookup t = some hs → hs.Nonempty
  reverse_row : ∀ p x, x ∈ row c.reverse p ↔ x ∈ c.shares ∧ c.parent x = some p
  reverse_nonempty : ∀ p cs, c.reverse.lookup p = some cs → cs.Nonempty

omit [Inhabited H] in
theorem isHead_iff_childless {x : H} :
    IsHead c.parent x ↔ x ∈ c.shares ∧ ∀ y ∈ c.shares, c.parent y ≠ some x := by
  unfold IsHead
  rw [Ne, parent_eq_none_iff, not_not]
  constructor
  · intro h
    exact ⟨h.1, fun y _ => h.2 y⟩
  intro h
  refine ⟨h.1, ?_⟩
  intro y hy
  have hmem := mem_keys_of_parent (c := c) y (by simp [hy])
  exact h.2 y (mem_keys.mp hmem) hy

theorem Consistent.forestInvariant (hc : c.Consistent) : ForestInvariant c where
  heads_keys x := hc.mem_heads_iff.trans isHead_iff_childless
  heads_last x t h := ((hc.tables.heads_iff x t).mp h).2
  tails_row t x := by
    rw [hc.tables.tails_iff, hc.mem_heads_iff]
  tails_nonempty t hs h := by
    apply nonempty_iff_ne_empty.mpr
    intro hempty
    exact hc.tables.tails_noEmpty t (hempty ▸ h)
  reverse_row p x := by
    rw [hc.tables.reverse_iff]
    constructor
    · intro h
      have hmem := mem_keys_of_parent (c := c) x (by simp [h])
      exact ⟨mem_keys.mp hmem, h⟩
    · intro h
      exact h.2
  reverse_nonempty p cs h := by
    apply nonempty_iff_ne_empty.mpr
    intro hempty
    exact hc.tables.reverse_noEmpty p (hempty ▸ h)

theorem shares_tryRemove {c c' : Forest H S} {branch : RemoveBranch}
    (hr : c.tryRemove h = some (branch, c')) : c'.shares = c.shares.erase h := by
  unfold tryRemove at hr
  cases hdata : c.shares.lookup h with
  | none => simp [hdata] at hr
  | some data =>
    simp only [hdata] at hr
    split at hr
    · cases hr
    · simp only [Option.some.injEq, Prod.mk.injEq] at hr
      rw [← hr.2]

theorem size_remove_le (c : Forest H S) (h : H) : (c.remove h).2.size ≤ c.size := by
  unfold remove
  cases hr : c.tryRemove h with
  | none => exact le_rfl
  | some out =>
    show out.2.size ≤ c.size
    unfold size
    rw [shares_tryRemove hr, keys_erase]
    exact card_le_card (erase_subset _ _)

theorem remove_eq_self_of_false (hr : (c.remove h).1 = false) : (c.remove h).2 = c := by
  unfold remove at hr ⊢
  cases htry : c.tryRemove h with
  | none => rfl
  | some out => simp [htry] at hr

theorem shares_remove_of_true (hr : (c.remove h).1 = true) :
    (c.remove h).2.shares = c.shares.erase h := by
  unfold Forest.remove at hr ⊢
  cases htry : c.tryRemove h with
  | none => simp [htry] at hr
  | some out => exact shares_tryRemove htry

theorem lookup_remove_iff (c : Forest H S) (h x : H) (data : ChainData H S) :
    (c.remove h).2.shares.lookup x = some data ↔
      c.shares.lookup x = some data ∧ ¬ ((c.remove h).1 = true ∧ x = h) := by
  cases hr : (c.remove h).1 with
  | false => simp [remove_eq_self_of_false hr]
  | true =>
    rw [shares_remove_of_true hr, lookup_erase_ite]
    by_cases hx : x = h <;> simp [hx]

theorem step_consistent (c : Forest H S) (op : Op H S) (hc : c.Consistent ∧ c.size ≤ 100000)
    (hop : Allowed c op) : (c.step op).Consistent ∧ (c.step op).size ≤ 100000 := by
  rcases hc with ⟨hc, hsize⟩
  have hs : c.Shallow := shallow_of_size_le hc.acyclic (by omega)
  cases op with
  | add data =>
    rcases hop with ⟨hfresh, hroom⟩
    refine ⟨hc.add hs hfresh.nonNull hfresh.new hfresh.acyclic, ?_⟩
    show (c.add data).size ≤ 100000
    rw [size_add hfresh.new]
    exact hroom
  | remove hash =>
    exact ⟨hc.remove hs hash, (size_remove_le c hash).trans hsize⟩

/-- After every call of an allowed run from the empty forest the four tables
agree, and a removal that returns false has changed nothing. -/
theorem run_keeps_forestInvariant (ops : List (Op H S)) (hops : Admissible step Allowed empty ops) :
    ∀ done, done <+: ops →
      ForestInvariant (run step empty done) ∧
        ∀ hash, ((run step empty done).remove hash).1 = false →
          ((run step empty done).remove hash).2 = run step empty done := by
  intro done hdone
  rcases hdone with ⟨rest, rfl⟩
  have hrun := run_invariant step_consistent (s := (empty : Forest H S))
    ⟨empty_consistent, by simp [empty, size]⟩ (admissible_append.mp hops).1
  exact ⟨hrun.1.forestInvariant, fun hash => remove_eq_self_of_false⟩

def plainShare (hash prev : Nat) : ChainData Nat Unit :=
  ⟨⟨hash, prev, 1, 1⟩, ()⟩

/-- Two children arrive before their parent, which is then removed from under
them. -/
def forkedOps : List (Op Nat Unit) :=
  [.add (plainShare 2 1), .add (plainShare 3 1), .add (plainShare 1 0), .remove 1]

theorem forkedOps_admissible : Admissible step Allowed (empty : Forest Nat Unit) forkedOps := by
  refine ⟨⟨⟨by decide, by decide, ?_⟩, by decide⟩, ⟨⟨by decide, by decide, ?_⟩, by decide⟩,
    ⟨⟨by decide, by decide, ?_⟩, by decide⟩, trivial, trivial⟩
  all_goals
    apply acyclic_of_rank id
    simp only [step, parent_add, extend_eq_some_iff, plainShare, id]
    simp only [parent, empty, lookup_empty, Option.map_none]
    grind

theorem run_keeps_forestInvariant_forkedOps :
    ForestInvariant (run step (empty : Forest Nat Unit) forkedOps) :=
  (run_keeps_forestInvariant forkedOps forkedOps_admissible forkedOps (List.prefix_refl _)).1

omit [Inhabited H] in
theorem eq_of_row {m m' : FiniteMap H (Finset H)} (hm : NoEmptyRow m) (hm' : NoEmptyRow m')
    (h : ∀ k, row m k = row m' k) : m = m' := by
  apply ext_lookup
  intro k
  have hk := h k
  have hk₁ := hm k
  have hk₂ := hm' k
  unfold row at hk
  cases hl : m.lookup k <;> cases hl' : m'.lookup k <;> simp_all

theorem Consistent.eq_of_shares {c c' : Forest H S} (hc : c.Consistent) (hc' : c'.Consistent)
    (h : c.shares = c'.shares) : c = c' := by
  have hparent : c.parent = c'.parent := by
    funext x
    simp [parent, h]
  have ht := hc.tables
  rw [hparent] at ht
  have hheads : c.heads = c'.heads := by
    apply ext_lookup
    intro x
    apply Option.ext
    intro t
    exact (ht.heads_iff x t).trans (hc'.tables.heads_iff x t).symm
  have htails : c.tails = c'.tails := by
    apply eq_of_row ht.tails_noEmpty hc'.tables.tails_noEmpty
    intro t
    ext x
    exact (ht.tails_iff t x).trans (hc'.tables.tails_iff t x).symm
  have hreverse : c.reverse = c'.reverse := by
    apply eq_of_row ht.reverse_noEmpty hc'.tables.reverse_noEmpty
    intro p
    ext x
    exact (ht.reverse_iff p x).trans (hc'.tables.reverse_iff p x).symm
  cases c
  cases c'
  simp_all

theorem run_eq_of_shares (ops ops' : List (Op H S)) (hops : Admissible step Allowed empty ops)
    (hops' : Admissible step Allowed empty ops')
    (hshares : (run step empty ops).shares = (run step empty ops').shares) :
    run step empty ops = run step empty ops' := by
  have hstart : (empty : Forest H S).Consistent ∧ (empty : Forest H S).size ≤ 100000 :=
    ⟨empty_consistent, by simp [empty, size]⟩
  have hrun := run_invariant step_consistent hstart hops
  have hrun' := run_invariant step_consistent hstart hops'
  exact hrun.1.eq_of_shares hrun'.1 hshares

theorem run_eq_of_shares_forkedOps :
    run step (empty : Forest Nat Unit) forkedOps =
      run step empty [.add (plainShare 3 1), .add (plainShare 2 1)] := by
  refine run_eq_of_shares forkedOps _ forkedOps_admissible ?_ (by decide +kernel)
  refine ⟨⟨⟨by decide, by decide, ?_⟩, by decide⟩, ⟨⟨by decide, by decide, ?_⟩, by decide⟩, trivial⟩
  all_goals
    apply acyclic_of_rank id
    simp only [step, parent_add, extend_eq_some_iff, plainShare, id]
    simp only [parent, empty, lookup_empty, Option.map_none]
    grind

end C2Pool.Sharechain.Forest
