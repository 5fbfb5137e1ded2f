import C2Pool.Lib.Words

/-! # Tilings

Ranges of positions, first and last, that follow each other without a gap.
-/

namespace C2Pool

open List

/-- `Tiles lo spans hi`: the ranges cover the positions from `lo` to just below
`hi`, in order and each once. -/
def Tiles (lo : Nat) : List (Nat × Nat) → Nat → Prop
  | [], hi => lo = hi
  | span :: rest, hi => span.1 = lo ∧ span.1 ≤ span.2 ∧ Tiles (span.2 + 1) rest hi

namespace Tiles

def width (span : Nat × Nat) : Nat := span.2 - span.1 + 1

variable {lo hi : Nat} {spans spans' : List (Nat × Nat)}

theorem append {mid : Nat} (h : Tiles lo spans mid)
    (h' : Tiles mid spans' hi) : Tiles lo (spans ++ spans') hi := by
  induction spans generalizing lo with
  | nil =>
    have hlo : lo = mid := h
    exact hlo ▸ h'
  | cons span spans ih => exact ⟨h.1, h.2.1, ih h.2.2⟩

theorem split (h : Tiles lo (spans ++ spans') hi) :
    ∃ mid, Tiles lo spans mid ∧ Tiles mid spans' hi := by
  induction spans generalizing lo with
  | nil => exact ⟨lo, rfl, h⟩
  | cons span spans ih =>
    obtain ⟨mid, hfirst, hlast⟩ := ih h.2.2
    exact ⟨mid, ⟨h.1, h.2.1, hfirst⟩, hlast⟩

theorem sum_width (h : Tiles lo spans hi) : lo + (spans.map width).sum = hi := by
  induction spans generalizing lo with
  | nil =>
    have hlo : lo = hi := h
    simp [hlo]
  | cons span spans ih =>
    have hrest := ih h.2.2
    have hfirst := h.1
    have hle := h.2.1
    rw [map_cons, sum_cons]
    unfold width at hrest ⊢
    omega

theorem le {lo hi : Nat} {spans : List (Nat × Nat)} (h : Tiles lo spans hi) : lo ≤ hi := by
  have := h.sum_width
  omega

theorem bounds (h : Tiles lo spans hi)
    {span : Nat × Nat} (hspan : span ∈ spans) : lo ≤ span.1 ∧ span.1 ≤ span.2 ∧ span.2 < hi := by
  induction spans generalizing lo with
  | nil => cases hspan
  | cons first rest ih =>
    have hrest := h.2.2.le
    rcases mem_cons.mp hspan with hspan | hspan
    · subst hspan
      exact ⟨Nat.le_of_eq h.1.symm, h.2.1, hrest⟩
    obtain ⟨hlo, hle, hhi⟩ := ih h.2.2 hspan
    have hfirst := h.1
    have hfirstLe := h.2.1
    exact ⟨by omega, hle, hhi⟩

theorem merge (h : Tiles lo spans hi) (hne : spans ≠ []) :
    (spans.head?.map Prod.fst).getD 0 = lo ∧ (spans.getLast?.map Prod.snd).getD 0 + 1 = hi ∧
      lo < hi := by
  induction spans generalizing lo with
  | nil => exact absurd rfl hne
  | cons span rest ih =>
    have hfirst := h.1
    have hle := h.2.1
    refine ⟨h.1, ?_, ?_⟩
    · cases rest with
      | nil => exact h.2.2
      | cons next rest =>
        exact (ih h.2.2 (cons_ne_nil _ _)).2.1
    · have := h.2.2.le
      omega

end Tiles

end C2Pool
