import C2Pool.Lib.LazySkipList
import C2Pool.Sharechain.ForestInvariant

/-! # Ancestor lookups by skip list

`DistanceSkipList` (`skip_list.hpp`): levels are relative jumps, stored at the node they start from.
A level once stored stays true of the previous-hash function, whatever is removed or added again
later, so a lookup that stays within the height of its start agrees with walking.
-/

namespace C2Pool.Sharechain

open LazySkipList ParentForest Function

variable {H : Type} [DecidableEq H] [Inhabited H]

/-- `m_skips`: levels `(to_hash, distance)` by `from_hash`. -/
abbrev DistanceSkipList (H : Type) := Table H Nat

/-- `sol_dist` and `sol_hash`. -/
structure DistanceSol (H : Type) where
  dist : Nat
  hash : H

/-- The walk of `get_nth_parent`: a jump to exactly `n` is the answer, a jump
short of it to a non-null hash is taken, any other level is refused. -/
def distanceWalker (previous : H → H) (n : Nat) : Walker H Nat (DistanceSol H) H where
  previous := previous
  getDelta _ := 1
  combine d d' := d + d'
  judge sol toHash distance :=
    if sol.dist + distance = n then .finish toHash
    else if sol.dist + distance < n ∧ toHash ≠ default then
      .take ⟨sol.dist + distance, toHash⟩
    else .skip
  stuck _ := default
  exhausted sol := sol.hash

namespace DistanceSkipList

/-- `get_nth_parent`; `draw` is the geometric skip length of each node met for
the first time. -/
def getNthParent (previous : H → H) (draw : H → Nat) (skips : DistanceSkipList H) (start : H)
    (n : Nat) : H × DistanceSkipList H :=
  if n = 0 then (start, skips)
  else
    loop (distanceWalker previous n) draw (2 * n + 100) skips (fun _ => none) start ⟨0, start⟩

def forgetItem (skips : DistanceSkipList H) (hash : H) : DistanceSkipList H :=
  skips.erase hash

/-- A jump of `d` steps along `prev`. -/
def Covers (prev : H → H) (x toHash : H) (d : Nat) : Prop :=
  1 ≤ d ∧ prev^[d] x = toHash

/-- Every stored level is a true jump along `prev`. -/
def Truthful (prev : H → H) (skips : DistanceSkipList H) : Prop :=
  TableOk (fun x => (prev x, 1)) (Covers prev) skips

variable {skips : DistanceSkipList H}

omit [Inhabited H] in
theorem Truthful.forgetItem {prev : H → H}
    (h : Truthful prev skips) (hash : H) : Truthful prev (skips.forgetItem hash) :=
  TableOk.erase h hash

/-- One lookup, when the first `n` hashes from `start` are shares whose
previous hash the callback knows. -/
theorem Truthful.getNthParent_spec {prev previous : H → H}
    (hskips : Truthful prev skips) (draw : H → Nat) {start : H} {n : Nat}
    (hheld : ∀ i < n, prev^[i] start ≠ default ∧
      previous (prev^[i] start) = prev (prev^[i] start)) :
    (getNthParent previous draw skips start n).1 = prev^[n] start ∧
      Truthful prev (getNthParent previous draw skips start n).2 := by
  unfold getNthParent
  by_cases hn : n = 0
  · subst hn
    exact ⟨rfl, hskips⟩
  rw [if_neg hn]
  have hsound : Sound (distanceWalker previous n) (fun x => (prev x, 1)) (Covers prev)
      (fun pos sol => prev^[sol.dist] start = pos ∧ sol.dist < n)
      (fun r => r = prev^[n] start) (fun sol => n - sol.dist) := by
    constructor
    · intro x y z d d' hxy hyz
      rcases hxy with ⟨hd, rfl⟩
      rcases hyz with ⟨hd', rfl⟩
      refine ⟨Nat.le_add_right_of_le hd, ?_⟩
      show prev^[d + d'] x = prev^[d'] (prev^[d] x)
      rw [Nat.add_comm, iterate_add_apply]
    · intro pos sol hinv
      rcases hinv with ⟨rfl, hlt⟩
      rcases hheld sol.dist hlt with ⟨hnull, hprev⟩
      exact ⟨hnull, by simp [distanceWalker, hprev], le_rfl, rfl⟩
    · intro pos sol hinv hskip
      rcases hinv with ⟨rfl, hlt⟩
      have hstep : prev (prev^[sol.dist] start) = prev^[sol.dist + 1] start :=
        (iterate_succ_apply' prev sol.dist start).symm
      simp only [distanceWalker, hstep] at hskip
      by_cases hlast : sol.dist + 1 = n
      · simp [hlast] at hskip
      have hnull := (hheld (sol.dist + 1) (by omega)).1
      rw [if_neg hlast, if_pos ⟨by omega, hnull⟩] at hskip
      cases hskip
    · intro pos sol toHash d r hinv hcov hjudge
      rcases hinv with ⟨rfl, -⟩
      rcases hcov with ⟨-, rfl⟩
      simp only [distanceWalker] at hjudge
      split at hjudge
      · rename_i hexact
        cases hjudge
        rw [← hexact, Nat.add_comm, iterate_add_apply]
      · split at hjudge <;> cases hjudge
    · intro pos sol toHash d sol' hinv hcov hjudge
      rcases hinv with ⟨rfl, hlt⟩
      rcases hcov with ⟨hd, rfl⟩
      simp only [distanceWalker] at hjudge
      split at hjudge
      · cases hjudge
      split at hjudge
      · rename_i hshort
        cases hjudge
        refine ⟨⟨?_, hshort.1⟩, ?_⟩
        · show prev^[sol.dist + d] start = _
          rw [Nat.add_comm, iterate_add_apply]
        · show n - (sol.dist + d) < n - sol.dist
          omega
      · cases hjudge
  refine loop_sound hsound draw hskips ?_ ⟨rfl, Nat.pos_of_ne_zero hn⟩ ?_
  · intro i p hp
    cases hp
  · show n - 0 < 2 * n + 100
    omega

end DistanceSkipList

end C2Pool.Sharechain
