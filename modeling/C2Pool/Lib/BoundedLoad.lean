import C2Pool.Lib.Words

/-! # Bounded loads

Items with weights, each put at a place.  An item that goes to a place it fits
keeps the place under the cap; one that goes to a least loaded place keeps it
within an item of the average.
-/

namespace C2Pool.BoundedLoad

open Finset

variable {α ι : Type} {places : Finset ι} {pick : α → ι} {weight : α → Nat} {items : List α}

theorem least_le_average {load : ι → Nat} {r : ι} (hr : r ∈ places)
    (hleast : ∀ r' ∈ places, load r ≤ load r') :
    load r ≤ (∑ r' ∈ places, load r') / places.card := by
  have hpos : 0 < places.card := card_pos.mpr ⟨r, hr⟩
  rw [Nat.le_div_iff_mul_le hpos, Nat.mul_comm]
  exact card_nsmul_le_sum places load (load r) hleast

theorem place_le (load : ι → Nat) (cap : Nat) {total largest w : Nat} {r : ι}
    (hr : r ∈ places) (hw : w ≤ largest) (htotal : ∑ r' ∈ places, load r' ≤ total)
    (hfit : load r + w ≤ cap ∨ ∀ r' ∈ places, load r ≤ load r') :
    load r + w ≤ max cap (total / places.card + largest) := by
  rcases hfit with hfit | hleast
  · exact hfit.trans (le_max_left _ _)
  have haverage := least_le_average hr hleast
  have hmono : (∑ r' ∈ places, load r') / places.card ≤ total / places.card :=
    Nat.div_le_div_right htotal
  exact (Nat.add_le_add (haverage.trans hmono) hw).trans (le_max_right _ _)

variable [DecidableEq ι]

/-- What the items at `r` weigh together. -/
def loadAt (pick : α → ι) (weight : α → Nat) (items : List α) (r : ι) : Nat :=
  (items.map fun x => if pick x = r then weight x else 0).sum

theorem loadAt_concat (x : α) (r : ι) :
    loadAt pick weight (items ++ [x]) r =
      loadAt pick weight items r + if pick x = r then weight x else 0 := by
  simp [loadAt]

theorem loadAt_congr {pick' : α → ι} (h : ∀ x ∈ items, pick x = pick' x) (r : ι) :
    loadAt pick weight items r = loadAt pick' weight items r := by
  unfold loadAt
  congr 1
  apply List.map_congr_left
  intro x hx
  rw [h x hx]

theorem sum_loadAt (h : ∀ x ∈ items, pick x ∈ places) :
    ∑ r ∈ places, loadAt pick weight items r = (items.map weight).sum := by
  induction items with
  | nil => simp [loadAt]
  | cons x items ih =>
    have hrest := ih fun y hy => h y (List.mem_cons_of_mem _ hy)
    have hsplit (r : ι) : loadAt pick weight (x :: items) r =
        (if pick x = r then weight x else 0) + loadAt pick weight items r := by
      simp [loadAt]
    rw [sum_congr rfl fun r _ => hsplit r, sum_add_distrib, hrest, List.map_cons,
      List.sum_cons, sum_ite_eq places (pick x), if_pos (h x List.mem_cons_self)]

end C2Pool.BoundedLoad
