import C2Pool.Lib.Words

/-! # Merkle mountain ranges

The append of a mountain range over an arbitrary merge, and the forest of
binary trees behind it.  The shape of the forest depends on the number of
leaves alone, and its trees list the leaves in the order they were appended.
A root determines the leaves when the merge is injective on what was merged.
-/

namespace C2Pool.Mmr

open List

variable {α β : Type} {op : α → α → α} {op' : β → β → β} {f : α → β}

/-- The loop of an append over the peaks from the shortest one: merge while the low bit of the
count is set. -/
def mergeUp (op : α → α → α) : Nat → Nat → List α → α → List α
  | 0, _, peaks, h => h :: peaks
  | _ + 1, _, [], h => [h]
  | rounds + 1, n, peak :: peaks, h =>
    if n % 2 = 1 then mergeUp op rounds (n / 2) peaks (op peak h) else h :: peak :: peaks

/-- The peaks, shortest first, after the leaves are appended to a range of `n` leaves. -/
def appendAll (op : α → α → α) : Nat → List α → List α → List α
  | _, peaks, [] => peaks
  | n, peaks, x :: xs => appendAll op (n + 1) (mergeUp op peaks.length n peaks x) xs

theorem map_mergeUp (hf : ∀ a b, f (op a b) = op' (f a) (f b)) (rounds n : Nat) (peaks : List α)
    (h : α) : (mergeUp op rounds n peaks h).map f = mergeUp op' rounds n (peaks.map f) (f h) := by
  induction rounds generalizing n peaks h with
  | zero => rfl
  | succ rounds ih =>
    cases peaks with
    | nil => rfl
    | cons peak peaks =>
      simp only [mergeUp, map_cons]
      split
      · rw [ih, hf]
      · rfl

theorem map_appendAll (hf : ∀ a b, f (op a b) = op' (f a) (f b)) (n : Nat) (peaks xs : List α) :
    (appendAll op n peaks xs).map f = appendAll op' n (peaks.map f) (xs.map f) := by
  induction xs generalizing n peaks with
  | nil => rfl
  | cons x xs ih =>
    rw [appendAll, map_cons, appendAll, ih, map_mergeUp hf, length_map]

def bag (op : α → α → α) : List α → Option α
  | [] => none
  | last :: rest => some (rest.foldl (fun r peak => op peak r) last)

theorem map_bag (hf : ∀ a b, f (op a b) = op' (f a) (f b)) (peaks : List α) :
    (bag op peaks).map f = bag op' (peaks.map f) := by
  cases peaks with
  | nil => rfl
  | cons last rest =>
    simp only [bag, map_cons, Option.map_some, Option.some.injEq]
    induction rest generalizing last with
    | nil => rfl
    | cons peak rest ih => rw [foldl_cons, ih, hf]; rfl

/-! ## The forest -/

/-- A binary tree over its leaves. -/
inductive Tree (α : Type) where
  | leaf (a : α)
  | node (l r : Tree α)

namespace Tree

def map (f : α → β) : Tree α → Tree β
  | leaf a => leaf (f a)
  | node l r => node (l.map f) (r.map f)

/-- The leaves, left to right. -/
def toList : Tree α → List α
  | leaf a => [a]
  | node l r => l.toList ++ r.toList

def fold (op : α → α → α) : Tree α → α
  | leaf a => a
  | node l r => op (l.fold op) (r.fold op)

def merged (op : α → α → α) : Tree α → List (α × α)
  | leaf _ => []
  | node l r => (l.fold op, r.fold op) :: (l.merged op ++ r.merged op)

theorem eq_of_fold_eq {op : α → α → α} {t t' : Tree α}
    (hshape : t.map (fun _ => ()) = t'.map (fun _ => ()))
    (hinj : ∀ p ∈ t.merged op, ∀ p' ∈ t'.merged op, op p.1 p.2 = op p'.1 p'.2 → p = p')
    (heq : t.fold op = t'.fold op) : t = t' := by
  induction t generalizing t' with
  | leaf a =>
    cases t' with
    | leaf b => exact congrArg leaf heq
    | node l r => cases hshape
  | node l r ihl ihr =>
    cases t' with
    | leaf b => cases hshape
    | node l' r' =>
      simp only [map, node.injEq] at hshape
      have hpair := hinj _ mem_cons_self _ mem_cons_self heq
      rw [Prod.mk.injEq] at hpair
      have hleft := ihl hshape.1 (fun p hp p' hp' => hinj p (mem_cons_of_mem _ (mem_append_left _
        hp)) p' (mem_cons_of_mem _ (mem_append_left _ hp'))) hpair.1
      have hright := ihr hshape.2 (fun p hp p' hp' => hinj p (mem_cons_of_mem _ (mem_append_right _
        hp)) p' (mem_cons_of_mem _ (mem_append_right _ hp'))) hpair.2
      rw [hleft, hright]

end Tree

def treeOf (xs : List α) : Option (Tree α) :=
  bag Tree.node (appendAll Tree.node 0 [] (xs.map Tree.leaf))

theorem map_fold_treeOf (op : α → α → α) (xs : List α) :
    (treeOf xs).map (Tree.fold op) = bag op (appendAll op 0 [] xs) := by
  unfold treeOf
  rw [map_bag (fun a b => rfl), map_appendAll (fun a b => rfl), map_map]
  congr 2
  exact map_id xs

theorem map_shape_treeOf (xs : List α) :
    (treeOf xs).map (Tree.map fun _ => ()) = treeOf (List.replicate xs.length ()) := by
  unfold treeOf
  rw [map_bag (fun a b => rfl), map_appendAll (fun a b => rfl), map_map, map_replicate]
  congr 2
  rw [eq_replicate_iff]
  constructor
  · rw [length_map]
  intro t ht
  obtain ⟨a, -, rfl⟩ := mem_map.mp ht
  rfl

theorem flatten_mergeUp (rounds n : Nat) (peaks : List (List α)) (h : List α) :
    (mergeUp (· ++ ·) rounds n peaks h).reverse.flatten = peaks.reverse.flatten ++ h := by
  induction rounds generalizing n peaks h with
  | zero => simp [mergeUp]
  | succ rounds ih =>
    cases peaks with
    | nil => simp [mergeUp]
    | cons peak peaks =>
      simp only [mergeUp]
      split
      · rw [ih]
        simp
      · simp

theorem flatten_appendAll (n : Nat) (peaks xs : List (List α)) :
    (appendAll (· ++ ·) n peaks xs).reverse.flatten = peaks.reverse.flatten ++ xs.flatten := by
  induction xs generalizing n peaks with
  | nil => simp [appendAll]
  | cons x xs ih =>
    rw [appendAll, ih, flatten_mergeUp, append_assoc, flatten_cons]

theorem bag_append (peaks : List (List α)) :
    (bag (· ++ ·) peaks).getD [] = peaks.reverse.flatten := by
  cases peaks with
  | nil => rfl
  | cons last rest =>
    simp only [bag, Option.getD_some, reverse_cons, flatten_append, flatten_cons,
      flatten_nil, append_nil]
    induction rest generalizing last with
    | nil => rfl
    | cons peak rest ih => rw [foldl_cons, ih]; simp

theorem toList_treeOf (xs : List α) : ((treeOf xs).map Tree.toList).getD [] = xs := by
  have happend : ∀ l r : Tree α, (Tree.node l r).toList = l.toList ++ r.toList := fun _ _ => rfl
  unfold treeOf
  rw [map_bag happend, map_appendAll happend, bag_append, flatten_appendAll, map_map]
  simp only [map_nil, reverse_nil, flatten_nil, nil_append]
  induction xs with
  | nil => rfl
  | cons x xs ih => rw [map_cons, flatten_cons, ih]; rfl

def mergedPairs (op : α → α → α) (xs : List α) : List (α × α) :=
  ((treeOf xs).map (Tree.merged op)).getD []

theorem eq_of_root_eq {xs ys : List α} (hlen : xs.length = ys.length)
    (hinj : ∀ p ∈ mergedPairs op xs, ∀ p' ∈ mergedPairs op ys, op p.1 p.2 = op p'.1 p'.2 → p = p')
    (hroot : bag op (appendAll op 0 [] xs) = bag op (appendAll op 0 [] ys)) : xs = ys := by
  have hshape : (treeOf xs).map (Tree.map fun _ => ()) =
      (treeOf ys).map (Tree.map fun _ => ()) := by
    rw [map_shape_treeOf, map_shape_treeOf, hlen]
  rw [← map_fold_treeOf, ← map_fold_treeOf] at hroot
  unfold mergedPairs at hinj
  rw [← toList_treeOf xs, ← toList_treeOf ys]
  cases hx : treeOf xs with
  | none =>
    cases hy : treeOf ys with
    | none => rfl
    | some t' => rw [hx, hy] at hshape; cases hshape
  | some t =>
    cases hy : treeOf ys with
    | none => rw [hx, hy] at hshape; cases hshape
    | some t' =>
      rw [hx, hy] at hshape hroot hinj
      simp only [Option.map_some, Option.some.injEq, Option.getD_some] at hshape hroot hinj
      rw [Tree.eq_of_fold_eq hshape hinj hroot]

theorem eq_of_getD_root_eq {xs ys : List α} (z : α) (hlen : xs.length = ys.length)
    (hinj : ∀ p ∈ mergedPairs op xs, ∀ p' ∈ mergedPairs op ys, op p.1 p.2 = op p'.1 p'.2 → p = p')
    (hroot : (bag op (appendAll op 0 [] xs)).getD z = (bag op (appendAll op 0 [] ys)).getD z) :
    xs = ys := by
  have hempty : ∀ {zs : List α}, bag op (appendAll op 0 [] zs) = none → zs = [] := by
    intro zs h
    rw [← map_fold_treeOf, Option.map_eq_none_iff] at h
    rw [← toList_treeOf zs, h]
    rfl
  cases hx : bag op (appendAll op 0 [] xs) with
  | none =>
    have hnil := hempty hx
    rw [hnil, length_nil] at hlen
    rw [hnil, length_eq_zero_iff.mp hlen.symm]
  | some r =>
    cases hy : bag op (appendAll op 0 [] ys) with
    | none =>
      have hnil := hempty hy
      rw [hnil, length_nil] at hlen
      rw [hnil, length_eq_zero_iff.mp hlen]
    | some r' =>
      apply eq_of_root_eq hlen hinj
      rw [hx, hy] at hroot ⊢
      exact congrArg some hroot

/-- The ones among the low `k` bits. -/
def ones : Nat → Nat → Nat
  | 0, _ => 0
  | k + 1, n => n % 2 + ones k (n / 2)

theorem ones_le (k n : Nat) : ones k n ≤ k := by
  induction k generalizing n with
  | zero => exact Nat.le_refl 0
  | succ k ih =>
    have := ih (n / 2)
    unfold ones
    omega

theorem ones_zero (k : Nat) : ones k 0 = 0 := by
  induction k with
  | zero => rfl
  | succ k ih => rw [ones, Nat.zero_div, ih]

theorem length_mergeUp {k n : Nat} {peaks : List α} (h : α) (hlen : peaks.length = ones k n)
    (hn : n + 1 < 2 ^ k) : (mergeUp op peaks.length n peaks h).length = ones k (n + 1) := by
  induction k generalizing n peaks h with
  | zero =>
    omega
  | succ k ih =>
    unfold ones at hlen ⊢
    rcases Nat.mod_two_eq_zero_or_one n with heven | hodd
    · have hhalf : (n + 1) / 2 = n / 2 := by omega
      have hstop : mergeUp op peaks.length n peaks h = h :: peaks := by
        cases peaks with
        | nil => rfl
        | cons peak peaks => simp [mergeUp, heven]
      rw [hstop, length_cons, hlen, hhalf]
      omega
    have hhalf : (n + 1) / 2 = n / 2 + 1 := by omega
    cases peaks with
    | nil =>
      rw [length_nil] at hlen
      omega
    | cons peak peaks =>
      have hlow : peaks.length = ones k (n / 2) := by
        rw [length_cons] at hlen
        omega
      rw [length_cons, mergeUp, if_pos hodd, ih (op peak h) hlow (by omega), hhalf]
      omega

end C2Pool.Mmr
