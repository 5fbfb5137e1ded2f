import C2Pool.Sharechain.Forest

/-! # The forest invariant

The three derived tables of a `Forest` are functions of the previous hashes of
the held shares: heads are the held shares without a held child, each head is
filed under the hash its chain leaves the forest at, and the reverse map lists
held children.  `add` and every branch of `remove` keep this as long as
`get_last` is not cut short by its cycle guard.
-/

namespace C2Pool.Sharechain

open ParentForest FiniteMap

namespace Forest

variable {H S : Type} [DecidableEq H] {n k : Nat} {x t : H} {c : Forest H S}

/-! ## The walks against the parent function -/

theorem parent_eq_none_iff {c : Forest H S} {x : H} : c.parent x = none ↔ x ∉ c.shares := by
  simp [parent, Finmap.lookup_eq_none]

theorem parent_of_lookup {h : H} {data : ChainData H S}
    (hdata : c.shares.lookup h = some data) : c.parent h = some data.index.tail := by
  simp [parent, hdata]

theorem mem_keys_of_parent (x : H) (h : c.parent x ≠ none) : x ∈ c.shares.keys := by
  by_contra hx
  exact h (parent_eq_none_iff.mpr hx)

theorem length_le_size (ha : Acyclic c.parent) {y : H}
    (h : ancestor c.parent n x = some y) : n ≤ c.size := ha.length_le_card mem_keys_of_parent h

/-- No chain is longer than the walk of `get_last` can follow. -/
def Shallow (c : Forest H S) : Prop :=
  ∀ n x t, EndsAt c.parent n x t → n ≤ 100001

theorem shallow_of_size_le (ha : Acyclic c.parent) (hsize : c.size ≤ 100001) : c.Shallow := by
  intro n x t h
  have hle := length_le_size ha h.1
  omega

theorem Shallow.of_subforest {c' : Forest H S} (hs : c.Shallow) (ha : Acyclic c.parent)
    (hsub : ∀ x y, c'.parent x = some y → c.parent x = some y) : c'.Shallow := by
  intro n x t hend
  have hchain := ancestor_mono hsub hend.1
  rcases ha.exists_endsIn mem_keys_of_parent t with ⟨u, m, hm⟩
  have := hs _ _ _ (hm.prepend hchain)
  omega

variable [Inhabited H]

def NullFree (c : Forest H S) : Prop := c.parent default = none

section

variable (hn : c.NullFree)
include hn

theorem current_tail (x : H) : (c.current x).map (fun data => data.index.tail) = c.parent x := by
  unfold current
  split
  · rename_i hx
    rw [hx, hn]
    rfl
  · rfl

theorem getLastLoop_of_ancestor {y : H} (h : ancestor c.parent k x = some y) :
    c.getLastLoop k x = y := by
  induction k generalizing x with
  | zero =>
    unfold getLastLoop
    simpa using h
  | succ k ih =>
    have hcur := current_tail hn x
    rw [ancestor_succ] at h
    unfold getLastLoop
    cases hx : c.current x with
    | none =>
      rw [hx] at hcur
      simp [← hcur] at h
    | some data =>
      rw [hx] at hcur
      rw [← hcur] at h
      exact ih h

theorem getLastLoop_of_endsAt (h : EndsAt c.parent n x t) (hk : n ≤ k) : c.getLastLoop k x = t := by
  induction k generalizing n x with
  | zero =>
    have hn0 : n = 0 := by omega
    subst hn0
    unfold getLastLoop
    simpa using h.1
  | succ k ih =>
    have hcur := current_tail hn x
    unfold getLastLoop
    cases hx : c.current x with
    | none =>
      rw [hx] at hcur
      have hnone : c.parent x = none := hcur.symm
      exact (EndsIn.self_of_none hnone ⟨n, h⟩).symm
    | some data =>
      rw [hx] at hcur
      rcases h.of_cons hcur.symm with ⟨m, rfl, hm⟩
      exact ih hm (by omega)

theorem getHeightLoop_of_endsAt (h : EndsAt c.parent n x t) (hk : n ≤ k) :
    c.getHeightLoop k x = n := by
  induction k generalizing n x with
  | zero =>
    have hn0 : n = 0 := by omega
    subst hn0
    rfl
  | succ k ih =>
    have hcur := current_tail hn x
    unfold getHeightLoop
    cases hx : c.current x with
    | none =>
      rw [hx] at hcur
      have hnone : c.parent x = none := hcur.symm
      exact ((EndsAt.zero_of_none hnone).unique h).1
    | some data =>
      rw [hx] at hcur
      rcases h.of_cons hcur.symm with ⟨m, rfl, hm⟩
      show c.getHeightLoop k data.index.tail + 1 = m + 1
      rw [ih hm (by omega)]

theorem getNthParentKey_eq_ancestor (n : Nat) (x : H) :
    c.getNthParentKey n x = ancestor c.parent n x := by
  induction n generalizing x with
  | zero => rfl
  | succ n ih =>
    have hcur := current_tail hn x
    unfold getNthParentKey
    rw [ancestor_succ, ← hcur]
    cases c.current x with
    | none => rfl
    | some data => exact ih data.index.tail

theorem getHeight_of_endsAt (ha : Acyclic c.parent) (h : EndsAt c.parent n x t) :
    c.getHeight x = n := by
  have hle := length_le_size ha h.1
  exact getHeightLoop_of_endsAt hn h (by omega)

end

/-- The walk inside `is_child_of` has a share to stand on at every step. -/
theorem getNthParentKey_isSome_of_le_getHeight (x : H) :
    ∀ {k n : Nat}, n ≤ c.getHeightLoop k x → (c.getNthParentKey n x).isSome := by
  intro k n
  induction n generalizing k x with
  | zero => intro _; rfl
  | succ n ih =>
    intro hle
    cases k with
    | zero => simp [getHeightLoop] at hle
    | succ k =>
      unfold getHeightLoop at hle
      unfold getNthParentKey
      cases hx : c.current x with
      | none => simp [hx] at hle
      | some data =>
        simp only [hx] at hle
        exact ih data.index.tail (k := k) (by omega)

/-- The three derived tables agree with the previous hashes `parent`. -/
structure TablesMatch (parent : H → Option H) (heads : FiniteMap H H)
    (tails reverse : FiniteMap H (Finset H)) : Prop where
  heads_iff : ∀ x t, heads.lookup x = some t ↔ IsHead parent x ∧ EndsIn parent x t
  tails_iff : ∀ t x, x ∈ row tails t ↔ IsHead parent x ∧ EndsIn parent x t
  tails_noEmpty : NoEmptyRow tails
  reverse_iff : ∀ p x, x ∈ row reverse p ↔ parent x = some p
  reverse_noEmpty : NoEmptyRow reverse

/-- The forest invariant: a null-free acyclic forest whose derived tables
match its shares. -/
structure Consistent (c : Forest H S) : Prop where
  nullFree : c.NullFree
  acyclic : Acyclic c.parent
  tables : TablesMatch c.parent c.heads c.tails c.reverse

theorem empty_consistent : Consistent (empty : Forest H S) := by
  have hparent : ∀ x, (empty : Forest H S).parent x = none := by
    simp [empty, parent]
  have hhead : ∀ x, ¬ IsHead (empty : Forest H S).parent x := by
    intro x hx
    exact hx.1 (hparent x)
  constructor
  · exact hparent default
  · intro n x
    simp [ancestor_succ, hparent]
  · constructor
    · intro x t
      simp only [hhead, false_and, iff_false]
      simp [empty]
    · intro t x
      simp only [hhead, false_and, iff_false]
      simp [empty, row]
    · intro k
      simp [empty]
    · intro p x
      simp only [hparent]
      simp [empty, row]
    · intro k
      simp [empty]

section

variable (hc : c.Consistent)
include hc

theorem Consistent.exists_endsIn (x : H) :
    ∃ t, EndsIn c.parent x t := hc.acyclic.exists_endsIn mem_keys_of_parent x

theorem Consistent.exists_isHead_above
    (hx : c.parent x ≠ none) : ∃ n y, IsHead c.parent y ∧ ancestor c.parent n y = some x :=
  hc.acyclic.exists_isHead_above mem_keys_of_parent hx

theorem Consistent.mem_heads_iff : x ∈ c.heads ↔ IsHead c.parent x := by
  rw [Finmap.mem_iff]
  constructor
  · intro h
    rcases h with ⟨t, ht⟩
    exact ((hc.tables.heads_iff x t).mp ht).1
  intro h
  rcases hc.exists_endsIn x with ⟨t, ht⟩
  exact ⟨t, (hc.tables.heads_iff x t).mpr ⟨h, ht⟩⟩

theorem Consistent.mem_tails_iff : t ∈ c.tails ↔ ∃ x, IsHead c.parent x ∧ EndsIn c.parent x t := by
  rw [hc.tables.tails_noEmpty.mem_iff]
  exact exists_congr fun x => hc.tables.tails_iff t x

theorem Consistent.mem_tails_iff_child :
    t ∈ c.tails ↔ c.parent t = none ∧ ∃ x, c.parent x = some t := by
  rw [hc.mem_tails_iff]
  constructor
  · intro h
    rcases h with ⟨x, hx, n, hn⟩
    refine ⟨hn.2, ?_⟩
    cases n with
    | zero =>
      have hxt : x = t := by simpa using hn.1
      exact absurd hn.2 (hxt ▸ hx.1)
    | succ n =>
      have hlast := hn.1
      rw [ancestor_succ_last] at hlast
      rcases Option.bind_eq_some_iff.mp hlast with ⟨y, -, hy⟩
      exact ⟨y, hy⟩
  intro h
  rcases h with ⟨hnone, x, hx⟩
  rcases hc.exists_isHead_above (x := x) (by simp [hx]) with ⟨n, y, hy, hyx⟩
  refine ⟨y, hy, n + 1, ?_, hnone⟩
  rw [ancestor_succ_last, hyx]
  exact hx

theorem Consistent.getLast_of_endsIn (hs : c.Shallow) (h : EndsIn c.parent x t) :
    c.getLast x = t := by
  rcases h with ⟨n, hn⟩
  exact getLastLoop_of_endsAt hc.nullFree hn (hs n x t hn)

end

end Forest

end C2Pool.Sharechain
