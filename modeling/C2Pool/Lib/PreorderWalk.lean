import C2Pool.Lib.ParentForest

/-! # Preorder of a forest

A forest given by its parent map and walked along lists of children. From a list of nodes no two of
which have a common descendant, the walk visits every descendant once and parents before children.
-/

namespace C2Pool.PreorderWalk

open List ParentForest

variable {α : Type} {parent : α → Option α} {children : α → List α} {l : List α}

/-- The preorder walk, cut below depth `k`. -/
def preorder (children : α → List α) : Nat → α → List α
  | 0, _ => []
  | k + 1, x => x :: (children x).flatMap (preorder children k)

/-- `children x` lists the nodes below `x`, once each. -/
structure ListsChildren (parent : α → Option α) (children : α → List α) : Prop where
  mem_iff : ∀ x y, y ∈ children x ↔ parent y = some x
  nodup : ∀ x, (children x).Nodup

/-- Nodes of which no two have a common descendant. -/
structure Apart (parent : α → Option α) (l : List α) : Prop where
  nodup : l.Nodup
  unique : ∀ a ∈ l, ∀ b ∈ l, ∀ m n y, ancestor parent m y = some a →
    ancestor parent n y = some b → a = b

theorem apart_children (h : ListsChildren parent children) (ha : Acyclic parent) (x : α) :
    Apart parent (children x) := by
  refine ⟨h.nodup x, ?_⟩
  intro a hmemA b hmemB m n y hya hyb
  have hxa : ancestor parent (m + 1) y = some x := by
    rw [ancestor_succ_last, hya]
    exact (h.mem_iff x a).mp hmemA
  have hxb : ancestor parent (n + 1) y = some x := by
    rw [ancestor_succ_last, hyb]
    exact (h.mem_iff x b).mp hmemB
  have hmn := ha.ancestor_inj hxa hxb
  obtain rfl : m = n := by omega
  exact Option.some.inj (hya.symm.trans hyb)

theorem apart_roots (hnodup : l.Nodup) (hroots : ∀ x ∈ l, parent x = none) : Apart parent l := by
  refine ⟨hnodup, ?_⟩
  intro a ha b hb m n y hya hyb
  exact (EndsAt.unique ⟨hya, hroots a ha⟩ ⟨hyb, hroots b hb⟩).2

section

variable (h : ListsChildren parent children) {k : Nat}
include h

theorem mem_preorder {x y : α} :
    y ∈ preorder children k x ↔ ∃ m < k, ancestor parent m y = some x := by
  induction k generalizing x with
  | zero => simp [preorder]
  | succ k ih =>
    unfold preorder
    rw [mem_cons, mem_flatMap]
    constructor
    · rintro (rfl | ⟨c, hc, hy⟩)
      · exact ⟨0, by omega, rfl⟩
      obtain ⟨m, hm, hyc⟩ := ih.mp hy
      refine ⟨m + 1, by omega, ?_⟩
      rw [ancestor_succ_last, hyc]
      exact (h.mem_iff x c).mp hc
    rintro ⟨m, hm, hyx⟩
    cases m with
    | zero => exact Or.inl (Option.some.inj hyx)
    | succ m =>
      rw [ancestor_succ_last] at hyx
      obtain ⟨c, hyc, hc⟩ := Option.bind_eq_some_iff.mp hyx
      exact Or.inr ⟨c, (h.mem_iff x c).mpr hc, ih.mpr ⟨m, by omega, hyc⟩⟩

/-- What holds below every node of a list holds below the list. -/
theorem nodup_flatMap_preorder (hl : Apart parent l)
    (heach : ∀ x ∈ l, (preorder children k x).Nodup) : (l.flatMap (preorder children k)).Nodup := by
  rw [nodup_flatMap]
  refine ⟨heach, hl.nodup.imp_of_mem ?_⟩
  intro a b ha hb hab y hya hyb
  obtain ⟨m, -, hm⟩ := (mem_preorder h).mp hya
  obtain ⟨n, -, hn⟩ := (mem_preorder h).mp hyb
  exact hab (hl.unique a ha b hb m n y hm hn)

theorem pairwise_flatMap_preorder (hl : Apart parent l)
    (heach : ∀ x ∈ l, (preorder children k x).Pairwise fun a b => parent a ≠ some b) :
    (l.flatMap (preorder children k)).Pairwise fun a b => parent a ≠ some b := by
  rw [pairwise_flatMap]
  refine ⟨heach, hl.nodup.imp_of_mem ?_⟩
  intro c d hc hd hcd a ha b hb hab
  obtain ⟨m, -, hm⟩ := (mem_preorder h).mp ha
  obtain ⟨n, -, hn⟩ := (mem_preorder h).mp hb
  have hn' : ancestor parent (n + 1) a = some d := by
    rw [ancestor_succ, hab]
    exact hn
  exact hcd (hl.unique c hc d hd m (n + 1) a hm hn')

theorem nodup_preorder (ha : Acyclic parent) (k : Nat) (x : α) : (preorder children k x).Nodup := by
  induction k generalizing x with
  | zero => exact nodup_nil
  | succ k ih =>
    unfold preorder
    rw [nodup_cons]
    refine ⟨?_, nodup_flatMap_preorder h (apart_children h ha x) fun c _ => ih c⟩
    intro hx
    obtain ⟨c, hc, hxc⟩ := mem_flatMap.mp hx
    obtain ⟨m, -, hm⟩ := (mem_preorder h).mp hxc
    apply ha m x
    rw [ancestor_succ_last, hm]
    exact (h.mem_iff x c).mp hc

theorem pairwise_preorder (ha : Acyclic parent) (k : Nat)
    (x : α) : (preorder children k x).Pairwise fun a b => parent a ≠ some b := by
  induction k generalizing x with
  | zero => exact List.Pairwise.nil
  | succ k ih =>
    unfold preorder
    rw [pairwise_cons]
    refine ⟨?_, pairwise_flatMap_preorder h (apart_children h ha x) fun c _ => ih c⟩
    intro b hb hparent
    obtain ⟨c, hc, hbc⟩ := mem_flatMap.mp hb
    obtain ⟨m, -, hm⟩ := (mem_preorder h).mp hbc
    apply ha (m + 1) x
    rw [ancestor_succ, hparent, Option.bind_some, ancestor_succ_last, hm]
    exact (h.mem_iff x c).mp hc

end

end C2Pool.PreorderWalk
