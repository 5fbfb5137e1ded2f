import C2Pool.Lib.SortedMap

/-! # Histograms

A histogram counts how often each value stands in a list.  It is kept as an
ordered map, and a value that no longer occurs leaves the map, so a list has
exactly one histogram.
-/

namespace C2Pool

open SortedMap

variable {K : Type} [LinearOrder K]

namespace Histogram

/-- Count one more `v`. -/
def add (m : SortedMap K Nat) (v : K) : SortedMap K Nat :=
  m.insert v ((m.lookup v).getD 0 + 1)

/-- Count one `v` less. -/
def remove (m : SortedMap K Nat) (v : K) : SortedMap K Nat :=
  match m.lookup v with
  | none => m
  | some n => if n - 1 = 0 then m.erase v else m.insert v (n - 1)

/-- `m` is the histogram of `vs`. -/
def Counts (m : SortedMap K Nat) (vs : List K) : Prop :=
  ∀ v, m.lookup v = if vs.count v = 0 then none else some (vs.count v)

theorem Counts.empty : Counts (∅ : SortedMap K Nat) [] := by
  intro v
  simp

variable {vs : List K} {m : SortedMap K Nat}

theorem Counts.unique {m m' : SortedMap K Nat} (h : Counts m vs) (h' : Counts m' vs) : m = m' := by
  ext v : 1
  rw [h v, h' v]

theorem Counts.of_perm {vs ws : List K} (h : Counts m vs) (hp : vs.Perm ws) : Counts m ws := by
  intro v
  rw [h v, hp.count_eq]

theorem Counts.add (h : Counts m vs) (v : K) : Counts (add m v) (v :: vs) := by
  intro x
  unfold Histogram.add
  rw [lookup_insert, h v, h x]
  by_cases hx : x = v
  · subst hx
    by_cases hzero : vs.count x = 0
    · simp [hzero]
    · simp [hzero]
  · rw [if_neg hx, List.count_cons_of_ne (Ne.symm hx)]

theorem Counts.remove {m : SortedMap K Nat} {v : K} {vs : List K} (h : Counts m (v :: vs)) :
    Counts (remove m v) vs := by
  have hv : m.lookup v = some (vs.count v + 1) := by
    rw [h v, List.count_cons_self, if_neg (Nat.succ_ne_zero _)]
  intro x
  unfold Histogram.remove
  rw [hv]
  dsimp only
  rw [Nat.add_sub_cancel]
  by_cases hx : x = v
  · subst hx
    by_cases hzero : vs.count x = 0
    · rw [if_pos hzero, if_pos hzero, lookup_erase, if_pos rfl]
    · rw [if_neg hzero, if_neg hzero, lookup_insert, if_pos rfl]
  have hrest : m.lookup x = if vs.count x = 0 then none else some (vs.count x) := by
    rw [h x, List.count_cons_of_ne (Ne.symm hx)]
  split
  · rw [lookup_erase, if_neg hx, hrest]
  · rw [lookup_insert, if_neg hx, hrest]

end Histogram

end C2Pool
