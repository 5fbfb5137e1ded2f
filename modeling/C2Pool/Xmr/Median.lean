import C2Pool.Lib.Histogram
import C2Pool.Lib.SlidingWindow

/-! # Medians

`xmr_median.hpp`: the median as monerod computes it, and the rolling window
that keeps its values and their histogram side by side.
-/

namespace C2Pool.Xmr

open SlidingWindow

abbrev U8 := Fin (2 ^ 8)

abbrev U64 := Fin (2 ^ 64)

/-- `median_get_mid`: the midpoint, without forming the sum. -/
def medianGetMid (a b : U64) : U64 :=
  a / 2 + b / 2 + ((a - 2 * (a / 2)) + (b - 2 * (b / 2))) / 2

/-- `MedianWindow::nth_`: the `k`-th smallest value, walking the histogram.  `seen` values are
behind the walk, and `last` is the answer when the walk runs out. -/
def nthFrom (k : Nat) (last : U64) : Nat → List (U64 × Nat) → U64
  | _, [] => last
  | seen, kv :: rest => if k < seen + kv.2 then kv.1 else nthFrom k last (seen + kv.2) rest

/-- `MedianWindow`.  The histogram is the histogram of the values, so two windows with the same
values are the same window. -/
structure MedianWindow where
  cap : Nat
  values : List U64
  hist : SortedMap U64 Nat
  counted : Histogram.Counts hist values

namespace MedianWindow

theorem ext_values {w w' : MedianWindow} (hcap : w.cap = w'.cap) (hvalues : w.values = w'.values) :
    w = w' := by
  obtain ⟨cap, values, hist, counted⟩ := w
  obtain ⟨cap', values', hist', counted'⟩ := w'
  cases hcap
  cases hvalues
  cases counted.unique counted'
  rfl

def ofCapacity (capacity : Nat) : MedianWindow where
  cap := capacity
  values := []
  hist := ∅
  counted := Histogram.Counts.empty

def size (w : MedianWindow) : Nat := w.values.length

theorem counted_slide (w : MedianWindow) (v : U64) :
    Histogram.Counts
      (match (SlidingWindow.slide w.cap w.values v).2 with
        | none => Histogram.add w.hist v
        | some evicted => Histogram.remove (Histogram.add w.hist v) evicted)
      (SlidingWindow.slide w.cap w.values v).1 := by
  have hperm := slide_perm w.cap w.values v
  have hadd := (w.counted.add v).of_perm hperm.symm
  cases hevicted : (SlidingWindow.slide w.cap w.values v).2 with
  | none => simpa [hevicted] using hadd
  | some evicted =>
    rw [hevicted] at hadd
    exact Histogram.Counts.remove hadd

/-- `MedianWindow::push`, with the value it evicts. -/
def push (w : MedianWindow) (v : U64) : MedianWindow × Option U64 :=
  let slid := SlidingWindow.slide w.cap w.values v
  ({ cap := w.cap
     values := slid.1
     hist := match slid.2 with
       | none => Histogram.add w.hist v
       | some evicted => Histogram.remove (Histogram.add w.hist v) evicted
     counted := w.counted_slide v },
    slid.2)

theorem counted_pop {w : MedianWindow} {back : U64} (hback : w.values.getLast? = some back)
    (restore : Option U64) :
    Histogram.Counts
      (match restore with
        | none => Histogram.remove w.hist back
        | some v => Histogram.add (Histogram.remove w.hist back) v)
      (SlidingWindow.unslide w.values restore) := by
  have hsplit : w.values = w.values.dropLast ++ [back] :=
    (List.dropLast_append_getLast? back hback).symm
  have hperm : w.values.Perm (back :: w.values.dropLast) := by
    rw [hsplit]
    simp
  have hremove := (w.counted.of_perm hperm).remove
  cases restore with
  | none => simpa [SlidingWindow.unslide] using hremove
  | some v => exact hremove.add v

/-- `MedianWindow::pop_back`: the flag and the value of the source are one option here.  An empty
window stays as it is. -/
def popBack (w : MedianWindow) (restore : Option U64) : MedianWindow :=
  match hback : w.values.getLast? with
  | none => w
  | some back =>
    { cap := w.cap
      values := SlidingWindow.unslide w.values restore
      hist := match restore with
        | none => Histogram.remove w.hist back
        | some v => Histogram.add (Histogram.remove w.hist back) v
      counted := counted_pop hback restore }

def nth (w : MedianWindow) (k : Nat) : U64 :=
  nthFrom k (w.values.getLast?.getD 0) 0 w.hist.entries

def median (w : MedianWindow) : U64 :=
  let n := w.size
  if n = 0 then 0
  else if n = 1 then w.values.headD 0
  else if n % 2 = 1 then w.nth (n / 2)
  else medianGetMid (w.nth (n / 2 - 1)) (w.nth (n / 2))

/-- `seed` of the windows: clear, then push the values, oldest first. -/
def seed (w : MedianWindow) (vs : List U64) : MedianWindow :=
  vs.foldl (fun w v => (w.push v).1) (ofCapacity w.cap)

@[simp] theorem push_cap (w : MedianWindow) (v : U64) : (w.push v).1.cap = w.cap := rfl

theorem push_values (w : MedianWindow) (v : U64) :
    (w.push v).1.values = (SlidingWindow.slide w.cap w.values v).1 := rfl

theorem push_evicted (w : MedianWindow) (v : U64) :
    (w.push v).2 = (SlidingWindow.slide w.cap w.values v).2 := rfl

@[simp] theorem popBack_cap (w : MedianWindow) (restore : Option U64) :
    (w.popBack restore).cap = w.cap := by
  unfold popBack
  split <;> rfl

theorem popBack_values {w : MedianWindow} (h : w.values ≠ []) (restore : Option U64) :
    (w.popBack restore).values = SlidingWindow.unslide w.values restore := by
  unfold popBack
  split
  · next hnone => exact absurd (List.getLast?_eq_none_iff.mp hnone) h
  · rfl

@[simp] theorem popBack_push (w : MedianWindow) (v : U64) :
    (w.push v).1.popBack (w.push v).2 = w := by
  apply ext_values
  · rw [popBack_cap, push_cap]
  · have hne : (w.push v).1.values ≠ [] := slide_ne_nil w.cap w.values v
    rw [popBack_values hne, push_values, push_evicted, unslide_slide]

end MedianWindow

end C2Pool.Xmr
