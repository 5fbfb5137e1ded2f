import C2Pool.Lib.Words
import Mathlib.Data.List.DropRight

/-! # Sliding windows with exact rollback

A window of at most `cap` values, the oldest first.  Sliding a value in hands
back the value that fell out at the far end, and that value is all a rollback
needs.  A capacity of `0` stands for a window without a bound.
-/

namespace C2Pool

open List

namespace SlidingWindow

variable {α : Type} {n : Nat} {w : List α}

/-- Append `v` and drop the oldest value once the window is over its capacity. -/
def slide (cap : Nat) (w : List α) (v : α) : List α × Option α :=
  match w with
  | [] => ([v], none)
  | oldest :: rest =>
    if cap ≠ 0 ∧ cap < w.length + 1 then (rest ++ [v], some oldest) else (w ++ [v], none)

def unslide (w : List α) (evicted : Option α) : List α :=
  evicted.toList ++ w.dropLast

/-- Rollback is exact, whatever the length of the window. -/
@[simp] theorem unslide_slide (cap : Nat) (w : List α) (v : α) :
    unslide (slide cap w v).1 (slide cap w v).2 = w := by
  unfold unslide slide
  cases w with
  | nil => simp
  | cons oldest rest =>
    dsimp only
    split
    · simp
    · exact dropLast_concat

theorem slide_ne_nil (cap : Nat) (w : List α) (v : α) : (slide cap w v).1 ≠ [] := by
  unfold slide
  cases w with
  | nil => simp
  | cons oldest rest =>
    dsimp only
    split <;> simp

theorem slide_perm (cap : Nat) (w : List α) (v : α) :
    ((slide cap w v).2.toList ++ (slide cap w v).1).Perm (v :: w) := by
  unfold slide
  cases w with
  | nil => simp
  | cons oldest rest =>
    dsimp only
    split
    · simpa using (perm_append_singleton v (oldest :: rest))
    · simpa using (perm_append_singleton v (oldest :: rest))

/-- The newest `n` values. -/
def newest (n : Nat) (w : List α) : List α :=
  w.drop (w.length - n)

@[simp] theorem newest_nil (n : Nat) : newest n ([] : List α) = [] := by
  simp [newest]

theorem newest_eq_self (h : w.length ≤ n) : newest n w = w := by
  have hzero : w.length - n = 0 := by omega
  simp [newest, hzero]

theorem newest_concat (n : Nat) (w : List α) (v : α) :
    newest (n + 1) (w ++ [v]) = newest n w ++ [v] := by
  unfold newest
  rw [drop_append_of_le_length (by simp)]
  simp

theorem newest_newest (m n : Nat) (w : List α) : newest m (newest n w) = newest (min m n) w := by
  unfold newest
  rw [drop_drop, length_drop]
  congr 1
  omega

theorem mem_of_mem_newest {x : α} (h : x ∈ newest n w) : x ∈ w :=
  mem_of_mem_drop h

theorem getLast?_newest (h : n ≠ 0) (w : List α) : (newest n w).getLast? = w.getLast? := by
  cases w using List.reverseRecOn with
  | nil => simp
  | append_singleton w v =>
    obtain ⟨m, rfl⟩ := Nat.exists_eq_succ_of_ne_zero h
    rw [newest_concat]
    simp

end SlidingWindow

end C2Pool
