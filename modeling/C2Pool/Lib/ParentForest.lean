import C2Pool.Lib.Words

/-! # Forests given by a partial parent function

A node is held when `parent` is defined on it; its parent may or may not be
held.  The chain of a node is followed until the first node that is not held.
The main facts describe how chains, ends and childless nodes change when one
node is attached (`extend`), which read backwards also describe detaching it.
-/

namespace C2Pool.ParentForest

open Finset

variable {H : Type}

/-! ## Chains -/

/-- The `n`-th ancestor, defined while every node passed over is held. -/
def ancestor (parent : H → Option H) : Nat → H → Option H
  | 0, x => some x
  | n + 1, x => (parent x).bind (ancestor parent n)

/-- The chain of `x` has exactly `n` held nodes and leaves the forest at `t`. -/
def EndsAt (parent : H → Option H) (n : Nat) (x t : H) : Prop :=
  ancestor parent n x = some t ∧ parent t = none

/-- The chain of `x` leaves the forest at `t`. -/
def EndsIn (parent : H → Option H) (x t : H) : Prop :=
  ∃ n, EndsAt parent n x t

def Acyclic (parent : H → Option H) : Prop :=
  ∀ n x, ancestor parent (n + 1) x ≠ some x

/-- A held node with no held child. -/
def IsHead (parent : H → Option H) (x : H) : Prop :=
  parent x ≠ none ∧ ∀ y, parent y ≠ some x

section Chains

variable {parent : H → Option H} {m n k : Nat} {x y t : H} {parent' : H → Option H}

@[simp] theorem ancestor_zero (x : H) : ancestor parent 0 x = some x := rfl

theorem ancestor_succ (n : Nat) (x : H) :
    ancestor parent (n + 1) x = (parent x).bind (ancestor parent n) := rfl

@[simp] theorem ancestor_one (x : H) : ancestor parent 1 x = parent x := by
  cases h : parent x <;> simp [ancestor_succ, h]

theorem ancestor_add (m n : Nat) (x : H) :
    ancestor parent (m + n) x = (ancestor parent m x).bind (ancestor parent n) := by
  induction m generalizing x with
  | zero => simp
  | succ m ih =>
    rw [Nat.succ_add, ancestor_succ, ancestor_succ]
    cases parent x with
    | none => rfl
    | some y => exact ih y

theorem ancestor_succ_last (n : Nat) (x : H) :
    ancestor parent (n + 1) x = (ancestor parent n x).bind parent := by
  rw [ancestor_add]
  cases ancestor parent n x with
  | none => rfl
  | some y => simp

theorem ancestor_trans {z : H} (hxy : ancestor parent m x = some y)
    (hyz : ancestor parent n y = some z) : ancestor parent (m + n) x = some z := by
  simp [ancestor_add, hxy, hyz]

theorem ancestor_eq_none_of_le (h : ancestor parent m x = none)
    (hmn : m ≤ n) : ancestor parent n x = none := by
  obtain ⟨k, rfl⟩ := Nat.exists_eq_add_of_le hmn
  simp [ancestor_add, h]

theorem ancestor_isSome_of_le (h : ancestor parent n x = some y)
    (hmn : m ≤ n) : ∃ z, ancestor parent m x = some z ∧ ancestor parent (n - m) z = some y := by
  obtain ⟨k, rfl⟩ := Nat.exists_eq_add_of_le hmn
  rw [ancestor_add] at h
  cases hm : ancestor parent m x with
  | none => simp [hm] at h
  | some z =>
    simpa [hm] using h

theorem ancestor_congr (h : ∀ m y, m < n → ancestor parent m x = some y → parent' y = parent y) :
    ancestor parent' n x = ancestor parent n x := by
  induction n with
  | zero => rfl
  | succ n ih =>
    have hn := ih fun m y hm => h m y (by omega)
    rw [ancestor_succ_last, ancestor_succ_last, hn]
    cases hy : ancestor parent n x with
    | none => rfl
    | some y => exact h n y (by omega) hy

/-- A chain of a sub-forest is a chain of the forest. -/
theorem ancestor_mono (h : ∀ x y, parent' x = some y → parent x = some y)
    (hxy : ancestor parent' n x = some y) : ancestor parent n x = some y := by
  rw [← hxy]
  apply ancestor_congr
  intro m z hm hz
  rcases ancestor_isSome_of_le hxy hm with ⟨w, hw, -⟩
  rw [ancestor_succ_last, hz] at hw
  have hstep : parent' z = some w := hw
  rw [hstep]
  exact h z w hstep

theorem Acyclic.mono (ha : Acyclic parent)
    (h : ∀ x y, parent' x = some y → parent x = some y) : Acyclic parent' :=
  fun n x hx => ha n x (ancestor_mono h hx)

theorem EndsAt.zero_of_none (h : parent x = none) : EndsAt parent 0 x x :=
  ⟨rfl, h⟩

theorem EndsAt.cons (hxy : parent x = some y) (h : EndsAt parent n y t) :
    EndsAt parent (n + 1) x t :=
  ⟨by simp [ancestor_succ, hxy, h.1], h.2⟩

theorem EndsAt.of_cons (hxy : parent x = some y)
    (h : EndsAt parent n x t) : ∃ m, n = m + 1 ∧ EndsAt parent m y t := by
  cases n with
  | zero =>
    have hxt : x = t := by simpa using h.1
    have ht := h.2
    rw [← hxt, hxy] at ht
    cases ht
  | succ m =>
    refine ⟨m, rfl, ?_, h.2⟩
    simpa [ancestor_succ, hxy] using h.1

theorem EndsAt.ancestor_eq_none (h : EndsAt parent n x t) (hk : n < k) :
    ancestor parent k x = none := by
  refine ancestor_eq_none_of_le (m := n + 1) ?_ hk
  rw [ancestor_succ_last, h.1]
  exact h.2

/-- Dropping the first `k` nodes of a chain shortens it by `k`. -/
theorem EndsAt.drop (h : EndsAt parent n x t)
    (hy : ancestor parent k x = some y) : k ≤ n ∧ EndsAt parent (n - k) y t := by
  have hk : k ≤ n := by
    by_contra hlt
    have := h.ancestor_eq_none (k := k) (by omega)
    simp [this] at hy
  obtain ⟨z, hz, hzt⟩ := ancestor_isSome_of_le h.1 hk
  have hzy : z = y := Option.some.inj (hz.symm.trans hy)
  subst hzy
  exact ⟨hk, hzt, h.2⟩

theorem EndsAt.prepend (hy : ancestor parent k x = some y)
    (h : EndsAt parent n y t) : EndsAt parent (k + n) x t := ⟨ancestor_trans hy h.1, h.2⟩

theorem EndsAt.unique {n' : Nat} {t' : H} (h : EndsAt parent n x t)
    (h' : EndsAt parent n' x t') : n = n' ∧ t = t' := by
  have hle := (h.drop h'.1).1
  have hle' := (h'.drop h.1).1
  obtain rfl : n = n' := by omega
  exact ⟨rfl, Option.some.inj (h.1.symm.trans h'.1)⟩

theorem EndsIn.unique {t' : H} (h : EndsIn parent x t) (h' : EndsIn parent x t') : t = t' := by
  obtain ⟨n, hn⟩ := h
  obtain ⟨n', hn'⟩ := h'
  exact (hn.unique hn').2

theorem EndsIn.not_held (h : EndsIn parent x t) : parent t = none :=
  h.elim fun _ hn => hn.2

theorem EndsIn.prepend (hy : ancestor parent k x = some y)
    (h : EndsIn parent y t) : EndsIn parent x t := h.elim fun _ hn => ⟨_, hn.prepend hy⟩

theorem EndsIn.drop (h : EndsIn parent x t) (hy : ancestor parent k x = some y) :
    EndsIn parent y t :=
  h.elim fun _ hn => ⟨_, (hn.drop hy).2⟩

theorem EndsIn.self_of_none (hx : parent x = none) (h : EndsIn parent x t) : t = x :=
  h.unique ⟨0, EndsAt.zero_of_none hx⟩

theorem EndsIn.eq_of_childless (ht : ∀ y, parent y ≠ some t) (hx : EndsIn parent x t) : x = t := by
  rcases hx with ⟨n, hn⟩
  cases n with
  | zero => simpa using hn.1
  | succ n =>
    have hlast := hn.1
    rw [ancestor_succ_last] at hlast
    rcases Option.bind_eq_some_iff.mp hlast with ⟨y, -, hy⟩
    exact absurd hy (ht y)

theorem rank_ancestor_le {rank : H → Nat} (hrank : ∀ x y, parent x = some y → rank y < rank x)
    (h : ancestor parent n x = some y) : rank y + n ≤ rank x := by
  induction n generalizing x with
  | zero =>
    have hxy : x = y := by simpa using h
    simp [hxy]
  | succ n ih =>
    rcases Option.bind_eq_some_iff.mp h with ⟨z, hz, hzy⟩
    have hlt := hrank x z hz
    have hle := ih hzy
    omega

theorem acyclic_of_rank (rank : H → Nat)
    (hrank : ∀ x y, parent x = some y → rank y < rank x) : Acyclic parent := by
  intro n x hx
  have := rank_ancestor_le hrank hx
  omega

end Chains

section Finite

variable {parent : H → Option H} {held : Finset H} {x : H}

theorem Acyclic.ancestor_inj (ha : Acyclic parent) {i j : Nat} {y : H}
    (hi : ancestor parent i x = some y) (hj : ancestor parent j x = some y) : i = j := by
  wlog hij : i ≤ j generalizing i j
  · exact (this hj hi (by omega)).symm
  obtain ⟨z, hz, hzy⟩ := ancestor_isSome_of_le hj hij
  have hzy' : z = y := Option.some.inj (hz.symm.trans hi)
  subst hzy'
  cases hk : j - i with
  | zero => omega
  | succ k =>
    rw [hk] at hzy
    exact absurd hzy (ha k z)

theorem Acyclic.length_le_card (ha : Acyclic parent) (hheld : ∀ x, parent x ≠ none → x ∈ held)
    {n : Nat} {y : H} (h : ancestor parent n x = some y) : n ≤ held.card := by
  classical
  have hsome : ∀ i : Fin n, ∃ z, ancestor parent i x = some z ∧ parent z ≠ none := by
    intro i
    obtain ⟨z, hz, hzy⟩ := ancestor_isSome_of_le h i.2.le
    refine ⟨z, hz, fun hnone => ?_⟩
    obtain ⟨k, hk⟩ : ∃ k, n - i = k + 1 := ⟨n - i - 1, by omega⟩
    simp [hk, ancestor_succ, hnone] at hzy
  choose f hf hfheld using hsome
  have hinj : Function.Injective f := by
    intro i j hij
    have hj := hf j
    rw [← hij] at hj
    exact Fin.ext (ha.ancestor_inj (hf i) hj)
  calc
    n = (Finset.univ.image f).card := by
      rw [card_image_of_injective _ hinj, card_univ, Fintype.card_fin]
    _ ≤ held.card := by
      refine card_le_card fun z hz => ?_
      obtain ⟨i, -, rfl⟩ := mem_image.mp hz
      exact hheld _ (hfheld i)

private theorem exists_last_of_bounded {P : Nat → Prop} {N : Nat} (h0 : P 0)
    (hb : ∀ n, P n → n ≤ N) : ∃ n, P n ∧ ¬ P (n + 1) := by
  by_contra hno
  push Not at hno
  have hall : ∀ n, P n := fun n => Nat.rec h0 (fun n ih => hno n ih) n
  have := hb (N + 1) (hall _)
  omega

theorem Acyclic.exists_endsIn (ha : Acyclic parent) (hheld : ∀ x, parent x ≠ none → x ∈ held)
    (x : H) : ∃ t, EndsIn parent x t := by
  obtain ⟨n, hn, hlast⟩ := exists_last_of_bounded (P := fun n => ancestor parent n x ≠ none)
    (by simp) fun n hn => by
      obtain ⟨y, hy⟩ := Option.ne_none_iff_exists'.mp hn
      exact ha.length_le_card hheld hy
  obtain ⟨t, ht⟩ := Option.ne_none_iff_exists'.mp hn
  refine ⟨t, n, ht, ?_⟩
  rw [not_not, ancestor_succ_last, ht] at hlast
  exact hlast

theorem Acyclic.exists_isHead_above (ha : Acyclic parent) (hheld : ∀ x, parent x ≠ none → x ∈ held)
    (hx : parent x ≠ none) : ∃ n y, IsHead parent y ∧ ancestor parent n y = some x := by
  obtain ⟨n, ⟨y, hy, hyx⟩, hlast⟩ := exists_last_of_bounded (P := fun n => ∃ y, parent y ≠ none ∧
    ancestor parent n y = some x) ⟨x, hx, rfl⟩ fun n ⟨y, _, hy⟩ => ha.length_le_card hheld hy
  refine ⟨n, y, ⟨hy, fun z hz => hlast ⟨z, by simp [hz], ?_⟩⟩, hyx⟩
  simp [ancestor_succ, hz, hyx]

end Finite

/-! ## Attaching one node -/

section Extend

variable [DecidableEq H] {p x t : H} {n : Nat} {parent : H → Option H} {h : H}

/-- Hold `h` with parent `p`, leaving every other node alone. -/
def extend (parent : H → Option H) (h p : H) : H → Option H :=
  Function.update parent h (some p)

@[simp] theorem extend_self : extend parent h p h = some p := by
  simp [extend]

theorem extend_of_ne {x : H} (hx : x ≠ h) : extend parent h p x = parent x := by
  simp [extend, hx]

theorem extend_eq_some_iff {y : H} :
    extend parent h p x = some y ↔ (x = h ∧ p = y) ∨ (x ≠ h ∧ parent x = some y) := by
  by_cases hx : x = h
  · subst hx
    simp
  · simp [extend_of_ne, hx]

section

variable (hfree : parent h = none)
include hfree

theorem ancestor_extend {y : H}
    (hxy : ancestor parent n x = some y) : ancestor (extend parent h p) n x = some y := by
  rw [← hxy]
  refine ancestor_congr fun m z hm hz => extend_of_ne ?_
  rintro rfl
  obtain ⟨w, hw, hwy⟩ := ancestor_isSome_of_le hxy hm.le
  obtain rfl : w = z := Option.some.inj (hw.symm.trans hz)
  obtain ⟨k, hk⟩ : ∃ k, n - m = k + 1 := ⟨n - m - 1, by omega⟩
  simp [hk, ancestor_succ, hfree] at hwy

theorem EndsAt.extend_of_ne
    (hx : EndsAt parent n x t) (ht : t ≠ h) : EndsAt (extend parent h p) n x t :=
  ⟨ancestor_extend hfree hx.1, by rw [ParentForest.extend_of_ne ht]; exact hx.2⟩

theorem EndsAt.extend_through {m : Nat} (hx : EndsAt parent n x h) (hp : EndsAt parent m p t)
    (ht : t ≠ h) : EndsAt (extend parent h p) (n + (m + 1)) x t :=
  ((hp.extend_of_ne hfree ht).cons extend_self).prepend (ancestor_extend hfree hx.1)

theorem Acyclic.of_extend (ha : Acyclic (extend parent h p)) : Acyclic parent :=
  fun n x hx => ha n x (ancestor_extend hfree hx)

theorem Acyclic.not_endsIn_extended (ha : Acyclic (extend parent h p)) : ¬ EndsIn parent p h := by
  rintro ⟨n, hn⟩
  refine ha n h ?_
  simp [ancestor_succ, ancestor_extend hfree hn.1]

end

theorem Acyclic.parent_ne_self (ha : Acyclic (extend parent h p)) : p ≠ h := by
  rintro rfl
  exact ha 0 p (by simp)

/-- Where chains end after attaching `h` below `p`: those that stopped at `h`
now run on to the end of `p`'s chain, every other chain is unchanged. -/
theorem endsIn_extend_iff (hfree : parent h = none) (ha : Acyclic (extend parent h p))
    (htotal : ∀ x, ∃ t, EndsIn parent x t) :
    EndsIn (extend parent h p) x t ↔
      (EndsIn parent x t ∧ t ≠ h) ∨ (EndsIn parent x h ∧ EndsIn parent p t) := by
  have hforward : ∀ {t}, (EndsIn parent x t ∧ t ≠ h) ∨ (EndsIn parent x h ∧ EndsIn parent p t) →
      EndsIn (extend parent h p) x t := by
    rintro t (⟨⟨n, hn⟩, ht⟩ | ⟨⟨n, hn⟩, ⟨m, hm⟩⟩)
    · exact ⟨n, hn.extend_of_ne hfree ht⟩
    refine ⟨_, hn.extend_through hfree hm ?_⟩
    rintro rfl
    exact ha.not_endsIn_extended hfree ⟨m, hm⟩
  refine ⟨fun hx => ?_, hforward⟩
  obtain ⟨u, hu⟩ := htotal x
  by_cases huh : u = h
  · subst huh
    obtain ⟨v, hv⟩ := htotal p
    have hxv := hforward (.inr ⟨hu, hv⟩)
    exact .inr ⟨hu, hx.unique hxv ▸ hv⟩
  have hxu := hforward (.inl ⟨hu, huh⟩)
  obtain rfl := hx.unique hxu
  exact .inl ⟨hu, huh⟩

/-- In the smaller forest a chain stops at `h` exactly when it passes `h` in
the larger one. -/
theorem endsIn_iff_exists_ancestor_extend (hfree : parent h = none)
    (htotal : ∀ x, ∃ t, EndsIn parent x t) :
    EndsIn parent x h ↔ ∃ k, ancestor (extend parent h p) k x = some h := by
  constructor
  · intro hx
    rcases hx with ⟨n, hn⟩
    exact ⟨n, ancestor_extend hfree hn.1⟩
  intro hx
  rcases hx with ⟨k, hk⟩
  rcases htotal x with ⟨u, n, hn⟩
  by_cases huh : u = h
  · exact huh ▸ ⟨n, hn⟩
  have hkn : k ≤ n := ((hn.extend_of_ne (p := p) hfree huh).drop hk).1
  rcases ancestor_isSome_of_le hn.1 hkn with ⟨z, hz, -⟩
  have hzh : z = h := Option.some.inj ((ancestor_extend hfree hz).symm.trans hk)
  exact ⟨_, hzh ▸ hz, hfree⟩

/-- Attaching `h` makes `p` a non-head and `h` a head unless it had children. -/
theorem isHead_extend_iff (hfree : parent h = none) (hne : p ≠ h) :
    IsHead (extend parent h p) x ↔
      (x = h ∧ ∀ y, parent y ≠ some h) ∨ (IsHead parent x ∧ x ≠ p) := by
  by_cases hx : x = h
  · subst hx
    constructor
    · rintro ⟨-, hchild⟩
      refine .inl ⟨rfl, fun y hy => hchild y ?_⟩
      rw [extend_of_ne (by rintro rfl; simp [hfree] at hy), hy]
    rintro (⟨-, hchild⟩ | ⟨⟨hheld, -⟩, -⟩)
    · refine ⟨by simp, fun y hy => ?_⟩
      rcases extend_eq_some_iff.mp hy with ⟨-, hp⟩ | ⟨-, hp⟩
      · exact hne hp
      · exact hchild y hp
    · exact absurd hfree hheld
  constructor
  · rintro ⟨hheld, hchild⟩
    rw [extend_of_ne hx] at hheld
    refine .inr ⟨⟨hheld, fun y hy => hchild y ?_⟩, ?_⟩
    · rw [extend_of_ne (by rintro rfl; simp [hfree] at hy), hy]
    · rintro rfl
      exact hchild h extend_self
  rintro (⟨rfl, -⟩ | ⟨⟨hheld, hchild⟩, hxp⟩)
  · exact absurd rfl hx
  refine ⟨by rwa [extend_of_ne hx], fun y hy => ?_⟩
  rcases extend_eq_some_iff.mp hy with ⟨-, hp⟩ | ⟨-, hp⟩
  · exact hxp hp.symm
  · exact hchild y hp

end Extend

end C2Pool.ParentForest
