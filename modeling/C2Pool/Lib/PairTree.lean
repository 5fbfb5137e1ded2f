import C2Pool.Lib.Words

/-! # Pairwise trees

The levels of a tree that pairs the nodes of each level from the left and pairs
an odd last node with itself.  When a few leaves change, the nodes above them are
enough to bring all levels up to date.
-/

namespace C2Pool.PairTree

open List

variable {H : Type} (pair : H → H → H) {old new : List H} {dirty : List Nat}

def pairUp : List H → List H
  | a :: b :: rest => pair a b :: pairUp rest
  | [a] => [pair a a]
  | [] => []

/-- The node above position `2 * p`. -/
def parent (level : List H) (p : Nat) : Option H :=
  match level[2 * p]?, level[2 * p + 1]? with
  | some a, some b => some (pair a b)
  | some a, none => some (pair a a)
  | none, _ => none

def levels : Nat → List H → List (List H)
  | 0, level => [level]
  | fuel + 1, level =>
    if level.length ≤ 1 then [level] else level :: levels fuel (pairUp pair level)

/-- The levels above the leaves `level`. -/
def build (level : List H) : List (List H) := levels pair level.length level

def writeParents (level next : List H) (dirty : List Nat) : List H :=
  dirty.foldl (fun next i =>
    match parent pair level (i / 2) with
    | some node => next.set (i / 2) node
    | none => next) next

/-- The levels above `level`, with the nodes above the dirty positions computed again. -/
def recomputeAbove : List Nat → List H → List (List H) → List (List H)
  | _, _, [] => []
  | dirty, level, next :: above =>
    writeParents pair level next dirty ::
      recomputeAbove (dirty.map (· / 2)) (writeParents pair level next dirty) above

def recomputePaths (dirty : List Nat) : List (List H) → List (List H)
  | [] => []
  | level :: above => level :: recomputeAbove pair dirty level above

variable {pair}

theorem getElem?_pairUp (level : List H) (p : Nat) :
    (pairUp pair level)[p]? = parent pair level p := by
  induction level using pairUp.induct generalizing p with
  | case1 a b rest ih =>
    cases p with
    | zero => rfl
    | succ p =>
      unfold pairUp
      rw [getElem?_cons_succ, ih]
      unfold parent
      have hleft : 2 * (p + 1) = 2 * p + 1 + 1 := by ring
      rw [hleft]
      simp
  | case2 a =>
    cases p with
    | zero => rfl
    | succ p =>
      unfold parent
      simp [pairUp]
  | case3 => simp [pairUp, parent]

theorem length_pairUp (level : List H) : (pairUp pair level).length = (level.length + 1) / 2 := by
  induction level using pairUp.induct with
  | case1 a b rest ih =>
    unfold pairUp
    rw [length_cons, ih, length_cons, length_cons]
    omega
  | case2 a => simp [pairUp]
  | case3 => simp [pairUp]

/-- A level above is right wherever the level below did not change. -/
theorem getElem?_pairUp_of_clean (hdirty : ∀ i, i ∉ dirty → new[i]? = old[i]?) (p : Nat)
    (hp : p ∉ dirty.map (· / 2)) : (pairUp pair new)[p]? = (pairUp pair old)[p]? := by
  rw [getElem?_pairUp, getElem?_pairUp]
  have hkept : ∀ i, i / 2 = p → new[i]? = old[i]? := by
    intro i hi
    apply hdirty
    intro hmem
    exact hp (mem_map.mpr ⟨i, hmem, hi⟩)
  unfold parent
  rw [hkept (2 * p) (by omega), hkept (2 * p + 1) (by omega)]

theorem writeParents_eq (hlen : new.length = old.length)
    (hdirty : ∀ i, i ∉ dirty → new[i]? = old[i]?) :
    writeParents pair new (pairUp pair old) dirty = pairUp pair new := by
  -- the level above is right outside the parents that are still to be written
  have hwrite : ∀ (todo : List Nat) (next : List H),
      next.length = (pairUp pair new).length →
      (∀ p, (∀ i ∈ todo, i / 2 ≠ p) → next[p]? = (pairUp pair new)[p]?) →
      writeParents pair new next todo = pairUp pair new := by
    intro todo
    induction todo with
    | nil =>
      intro next _ hnext
      apply ext_getElem?
      intro p
      exact hnext p (by simp)
    | cons i todo ih =>
      intro next hnextlen hnext
      have hstep : (match parent pair new (i / 2) with
          | some node => next.set (i / 2) node
          | none => next).length = (pairUp pair new).length := by
        split
        · rw [length_set]
          exact hnextlen
        · exact hnextlen
      apply ih _ hstep
      intro p hp
      by_cases heq : i / 2 = p
      · subst heq
        rw [← getElem?_pairUp]
        cases hnode : (pairUp pair new)[i / 2]? with
        | none =>
          dsimp only
          rw [getElem?_eq_none_iff] at hnode ⊢
          omega
        | some node =>
          have hlt : i / 2 < (pairUp pair new).length := (List.getElem?_eq_some_iff.mp hnode).1
          rw [List.getElem?_set_self (by omega)]
      have hkept : (match parent pair new (i / 2) with
          | some node => next.set (i / 2) node
          | none => next)[p]? = next[p]? := by
        split
        · rw [getElem?_set_ne heq]
        · rfl
      rw [hkept]
      apply hnext
      intro j hj
      rcases mem_cons.mp hj with rfl | hj
      · exact heq
      · exact hp j hj
  apply hwrite
  · rw [length_pairUp, length_pairUp, hlen]
  intro p hp
  refine (getElem?_pairUp_of_clean hdirty p ?_).symm
  intro hmem
  obtain ⟨i, hi, heq⟩ := mem_map.mp hmem
  exact hp i hi heq

theorem exists_levels_eq_cons (pair : H → H → H) (fuel : Nat) (level : List H) :
    ∃ above, levels pair fuel level = level :: above := by
  cases fuel with
  | zero => exact ⟨[], rfl⟩
  | succ fuel =>
    unfold levels
    split
    · exact ⟨_, rfl⟩
    · exact ⟨_, rfl⟩

section

variable (fuel : Nat) {old new : List H} (hlen : new.length = old.length) {dirty : List Nat}
  (hdirty : ∀ i, i ∉ dirty → new[i]? = old[i]?)
include fuel hlen hdirty

theorem recomputeAbove_levels :
    recomputeAbove pair dirty new (levels pair fuel old).tail = (levels pair fuel new).tail := by
  induction fuel generalizing old new dirty with
  | zero => rfl
  | succ fuel ih =>
    unfold levels
    rw [hlen]
    by_cases hshort : old.length ≤ 1
    · rw [if_pos hshort, if_pos hshort]
      rfl
    rw [if_neg hshort, if_neg hshort, tail_cons, tail_cons]
    obtain ⟨above, habove⟩ := exists_levels_eq_cons pair fuel (pairUp pair old)
    obtain ⟨above', habove'⟩ := exists_levels_eq_cons pair fuel (pairUp pair new)
    have hlen' : (pairUp pair new).length = (pairUp pair old).length := by
      rw [length_pairUp, length_pairUp, hlen]
    have hnext := ih hlen' (getElem?_pairUp_of_clean hdirty)
    rw [habove, habove', tail_cons, tail_cons] at hnext
    rw [habove, habove']
    unfold recomputeAbove
    rw [writeParents_eq hlen hdirty, hnext]

theorem recomputePaths_levels :
    recomputePaths pair dirty (new :: (levels pair fuel old).tail) = levels pair fuel new := by
  obtain ⟨above, habove⟩ := exists_levels_eq_cons pair fuel new
  have hnext := @recomputeAbove_levels H pair fuel old new hlen dirty hdirty
  rw [habove, tail_cons] at hnext
  unfold recomputePaths
  dsimp only
  rw [hnext, habove]

end

section Root

variable (pair)

def padOdd (level : List H) : List H :=
  if level.length % 2 = 1 then level ++ level.getLast?.toList else level

def pairs : List H → List H
  | a :: b :: rest => pair a b :: pairs rest
  | _ => []

def reduce (empty : H) : Nat → List H → H
  | 0, level => level.headD empty
  | fuel + 1, level =>
    if 1 < level.length then reduce empty fuel (pairs pair (padOdd level))
    else level.headD empty

/-- The root of the leaves `level`. -/
def computeRoot (empty : H) (level : List H) : H := reduce pair empty level.length level

variable {pair}

theorem pairs_padOdd (level : List H) : pairs pair (padOdd level) = pairUp pair level := by
  induction level using pairUp.induct with
  | case1 a b rest ih =>
    unfold pairUp
    rw [← ih]
    unfold padOdd
    cases rest with
    | nil => simp [pairs]
    | cons c rest =>
      by_cases hodd : (c :: rest).length % 2 = 1
      · have hodd' : (a :: b :: c :: rest).length % 2 = 1 := by
          simp only [length_cons] at hodd ⊢
          omega
        rw [if_pos hodd, if_pos hodd', getLast?_cons_cons, getLast?_cons_cons]
        rfl
      have hodd' : ¬ (a :: b :: c :: rest).length % 2 = 1 := by
        simp only [length_cons] at hodd ⊢
        omega
      rw [if_neg hodd, if_neg hodd']
      rfl
  | case2 a => rfl
  | case3 => rfl

theorem reduce_eq (empty : H) (fuel : Nat) (level : List H) :
    reduce pair empty fuel level =
      ((levels pair fuel level).getLast?.bind List.head?).getD empty := by
  induction fuel generalizing level with
  | zero =>
    cases level with
    | nil => rfl
    | cons a level => rfl
  | succ fuel ih =>
    unfold reduce levels
    by_cases hlong : 1 < level.length
    · rw [if_pos hlong, if_neg (by omega), pairs_padOdd, ih]
      obtain ⟨above, habove⟩ := exists_levels_eq_cons pair fuel (pairUp pair level)
      rw [habove, getLast?_cons_cons]
    rw [if_neg hlong, if_pos (by omega)]
    cases level with
    | nil => rfl
    | cons a level => rfl

end Root

section Promote

variable (pair) {level : List H} {i : Nat} {x : H}

/-- As `pairUp`, but an odd last node is carried up as it is. -/
def promote : List H → List H
  | a :: b :: rest => pair a b :: promote rest
  | rest => rest

/-- The rounds that promote a level until one node is left; each of them shortens the level. -/
def promoteAll : Nat → List H → List H
  | 0, level => level
  | fuel + 1, level => if level.length ≤ 1 then level else promoteAll fuel (promote pair level)

variable {pair}

theorem length_promote (pair : H → H → H) (level : List H) :
    (promote pair level).length = (level.length + 1) / 2 := by
  induction level using pairUp.induct with
  | case1 a b rest ih =>
    rw [promote, length_cons, ih, length_cons, length_cons]
    omega
  | case2 a => simp [promote]
  | case3 => simp [promote]

/-- The node above position `i`. -/
theorem getElem?_promote (pair : H → H → H) (hx : level[i]? = some x) (d : H) :
    (promote pair level)[i / 2]? = some (if i % 2 = 1 then pair (level.getD (i - 1) d) x
      else if i + 1 < level.length then pair x (level.getD (i + 1) d) else x) := by
  induction level using pairUp.induct generalizing i with
  | case1 a b rest ih =>
    match i with
    | 0 =>
      cases hx
      simp [promote]
    | 1 =>
      cases hx
      simp [promote]
    | i + 2 =>
      have hnext := ih hx
      rw [promote, Nat.add_div_right i two_pos, getElem?_cons_succ, hnext, Nat.add_mod_right]
      have hlength : i + 2 + 1 < (a :: b :: rest).length ↔ i + 1 < rest.length := by
        rw [length_cons, length_cons]
        omega
      simp only [hlength]
      match i with
      | 0 => rfl
      | i + 1 => rfl
  | case2 a =>
    obtain rfl : i = 0 := by
      have := (List.getElem?_eq_some_iff.mp hx).1
      simpa using this
    cases hx
    rfl
  | case3 => cases hx

theorem promoteAll_of_short (h : level.length ≤ 1) (fuel : Nat) :
    promoteAll pair fuel level = level := by
  cases fuel with
  | zero => rfl
  | succ fuel => rw [promoteAll, if_pos h]

theorem promoteAll_succ (h : ¬ level.length ≤ 1) (fuel : Nat) :
    promoteAll pair (fuel + 1) level = promoteAll pair fuel (promote pair level) := by
  rw [promoteAll, if_neg h]

theorem headD_promoteAll_of_short (hx : level[i]? = some x) (h : level.length ≤ 1) (fuel : Nat)
    (d : H) : (promoteAll pair fuel level).headD d = x := by
  rw [promoteAll_of_short h]
  match level, h with
  | [y], _ =>
    obtain rfl : i = 0 := by
      have := (List.getElem?_eq_some_iff.mp hx).1
      simpa using this
    exact Option.some.inj hx

/-- What every promotion keeps, the one node that is left has. -/
theorem promoteAll_spec {P : List H → Prop} (hkept : ∀ level, P level → P (promote pair level))
    {fuel : Nat} (hne : level ≠ []) (hfuel : level.length ≤ fuel + 1) (h : P level) :
    ∃ node, promoteAll pair fuel level = [node] ∧ P [node] := by
  have hpos := length_pos_iff.mpr hne
  induction fuel generalizing level with
  | zero =>
    obtain ⟨node, rfl⟩ := length_eq_one_iff.mp (show level.length = 1 by omega)
    exact ⟨node, rfl, h⟩
  | succ fuel ih =>
    by_cases hshort : level.length ≤ 1
    · obtain ⟨node, rfl⟩ := length_eq_one_iff.mp (show level.length = 1 by omega)
      exact ⟨node, rfl, h⟩
    have hlength := length_promote pair level
    rw [promoteAll_succ hshort]
    exact ih (ne_nil_of_length_pos (by omega)) (by omega) (hkept _ h) (by omega)

end Promote

end C2Pool.PairTree
