import C2Pool.Lib.Words

/-! # Runs of a guarded step function

A run folds a step function over a list of operations.  `Admissible` collects
the guard of every operation at the state it meets, and an invariant kept by
every guarded step is kept by every admissible run.
-/

namespace C2Pool.Run

open List

variable {σ ι : Type} (step : σ → ι → σ) (ok : σ → ι → Prop) {s : σ} {ops : List ι} {α : Type}
  {fn : σ → α → σ × Bool}

def run (s : σ) (ops : List ι) : σ :=
  ops.foldl step s

/-- Every operation meets its guard in the state it is run from. -/
def Admissible : σ → List ι → Prop
  | _, [] => True
  | s, op :: ops => ok s op ∧ Admissible (step s op) ops

instance decidableAdmissible [∀ s op, Decidable (ok s op)] :
    ∀ s ops, Decidable (Admissible step ok s ops)
  | _, [] => .isTrue trivial
  | s, op :: ops =>
    have := decidableAdmissible (step s op) ops
    inferInstanceAs (Decidable (ok s op ∧ Admissible step ok (step s op) ops))

variable {step ok}

@[simp] theorem run_nil (s : σ) : run step s [] = s := rfl

@[simp] theorem run_cons (s : σ) (op : ι) (ops : List ι) :
    run step s (op :: ops) = run step (step s op) ops := rfl

theorem run_append (s : σ) (ops ops' : List ι) :
    run step s (ops ++ ops') = run step (run step s ops) ops' := foldl_append

theorem admissible_append {ops ops' : List ι} :
    Admissible step ok s (ops ++ ops') ↔
      Admissible step ok s ops ∧ Admissible step ok (run step s ops) ops' := by
  induction ops generalizing s with
  | nil => simp [Admissible]
  | cons op ops ih => simp [Admissible, ih, and_assoc]

theorem admissible_of_forall (h : ∀ s op, ok s op) (s : σ) (ops : List ι) :
    Admissible step ok s ops := by
  induction ops generalizing s with
  | nil => trivial
  | cons op ops ih => exact ⟨h s op, ih (step s op)⟩

theorem run_invariant {Inv : σ → Prop} (hstep : ∀ s op, Inv s → ok s op → Inv (step s op))
    (hs : Inv s) (hops : Admissible step ok s ops) : Inv (run step s ops) := by
  induction ops generalizing s with
  | nil => exact hs
  | cons op ops ih => exact ih (hstep s op hs hops.1) hops.2

/-- The exactness rule: where a guard is met just when the step keeps `P`, the runs that keep `P`
all along are the admissible ones. -/
theorem always_iff_admissible {Inv P : σ → Prop} (hP : ∀ s, Inv s → P s)
    (hstep : ∀ s op, Inv s → ok s op → Inv (step s op))
    (hneeds : ∀ s op, Inv s → P (step s op) → ok s op) (hs : Inv s) :
    (∀ pre, pre <+: ops → P (run step s pre)) ↔ Admissible step ok s ops := by
  induction ops generalizing s with
  | nil =>
    refine ⟨fun _ => trivial, fun _ pre hpre => ?_⟩
    rw [prefix_nil.mp hpre]
    exact hP s hs
  | cons op ops ih =>
    constructor
    · intro h
      have hok : ok s op := hneeds s op hs (h [op] ⟨ops, rfl⟩)
      refine ⟨hok, (ih (hstep s op hs hok)).mp fun pre hpre => ?_⟩
      exact h (op :: pre) (cons_prefix_cons.mpr ⟨rfl, hpre⟩)
    intro h pre hpre
    exact hP _ (run_invariant hstep hs (by
      obtain ⟨rest, hrest⟩ := hpre
      rw [← hrest] at h
      exact (admissible_append.mp h).1))

def visit (fn : σ → α → σ × Bool) : σ → List α → σ × Bool
  | s, [] => (s, true)
  | s, a :: as => if (fn s a).2 then visit fn (fn s a).1 as else ((fn s a).1, false)

theorem visit_append (fn : σ → α → σ × Bool) (s : σ) (as bs : List α) :
    visit fn s (as ++ bs) =
      if (visit fn s as).2 then visit fn (visit fn s as).1 bs else visit fn s as := by
  induction as generalizing s with
  | nil => rfl
  | cons a as ih =>
    simp only [cons_append, visit]
    split
    · exact ih _
    · simp

/-- A body that passes over some elements is a loop over the others. -/
theorem visit_skip {β : Type} (fn : σ → β → σ × Bool) (f : α → β) (skip : α → Prop)
    [DecidablePred skip] (s : σ) (as : List α) :
    visit (fun s a => if skip a then (s, true) else fn s (f a)) s as =
      visit fn s ((as.filter fun a => ¬ skip a).map f) := by
  induction as generalizing s with
  | nil => rfl
  | cons a as ih =>
    by_cases h : skip a
    · simp only [visit, if_pos h]
      rw [filter_cons_of_neg (by simpa using h)]
      exact ih s
    · simp only [visit, if_neg h]
      rw [filter_cons_of_pos (by simpa using h), map_cons, visit, ih]

/-- A body that stops stays stopped and changes nothing. -/
def Latches (fn : σ → α → σ × Bool) : Prop :=
  ∀ s a, (fn s a).2 = false → ∀ b, fn s b = (s, false)

theorem Latches.foldl_eq (h : ∀ b, fn s b = (s, false))
    (as : List α) : as.foldl (fun s a => (fn s a).1) s = s := by
  induction as with
  | nil => rfl
  | cons a as ih => rw [foldl_cons, h a, ih]

theorem Latches.visit (h : Latches fn) (s : σ) (as : List α) :
    (Run.visit fn s as).1 = as.foldl (fun s a => (fn s a).1) s ∧
      ((Run.visit fn s as).2 = false →
        ∀ b, fn (Run.visit fn s as).1 b = ((Run.visit fn s as).1, false)) := by
  induction as generalizing s with
  | nil => exact ⟨rfl, fun hfalse => by cases hfalse⟩
  | cons a as ih =>
    simp only [Run.visit, foldl_cons]
    split
    · exact ih _
    rename_i hstop
    have hlatch := h s a (by simpa using hstop)
    rw [hlatch a]
    exact ⟨(Latches.foldl_eq hlatch as).symm, fun _ => hlatch⟩

end C2Pool.Run
