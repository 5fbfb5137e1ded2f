import C2Pool.Lib.Words

/-! # Readers

A reader takes a value off the front of its input, or fails.  `Reads` says that
a reader takes back what a writer wrote, whatever follows; it composes along
the binds of a reader, so a record is read back when its fields are.
-/

namespace C2Pool

open List

variable {σ α β : Type}

abbrev Reader (σ α : Type) := StateT (List σ) Option α

namespace Reader

/-- The next `n` symbols. -/
def items (n : Nat) : Reader σ (List σ) := fun s =>
  if s.length < n then none else some (s.take n, s.drop n)

def rest : Reader σ (List σ) := fun s => some (s, s)

def require (c : Prop) [Decidable c] : Reader σ Unit := fun s => if c then some ((), s) else none

/-- `n` values, one after the other. -/
def times (r : Reader σ α) : Nat → Reader σ (List α)
  | 0 => pure []
  | n + 1 => do
      let a ← r
      let as ← times r n
      pure (a :: as)

def all (r : Reader σ α) (s : List σ) : Option α :=
  match r s with
  | some (a, []) => some a
  | _ => none

/-- The reader takes `a` off `bytes`. -/
def Reads (r : Reader σ α) (bytes : List σ) (a : α) : Prop :=
  ∀ tail, r (bytes ++ tail) = some (a, tail)

theorem Reads.pure (a : α) : Reads (Pure.pure a : Reader σ α) [] a := fun _ => rfl

variable {r : Reader σ α} {f : α → Reader σ β} {bytes : List σ} {a : α} {put : α → List σ}
  {P : α → Prop} {Q : β → Prop}

theorem Reads.bind {bytes' : List σ} {b : β}
    (h : Reads r bytes a) (h' : Reads (f a) bytes' b) : Reads (r >>= f) (bytes ++ bytes') b := by
  intro tail
  have hstep : (r >>= f) (bytes ++ bytes' ++ tail) =
      (r (bytes ++ bytes' ++ tail)).bind fun p => f p.1 p.2 := rfl
  rw [hstep, append_assoc, h, Option.bind_some, h']

theorem Reads.last {f : α → β} (h : Reads r bytes a) :
    Reads (r >>= fun a => Pure.pure (f a)) bytes (f a) := by
  rw [← append_nil bytes]
  exact h.bind (Reads.pure (f a))

theorem Reads.map {f : α → β} (h : Reads r bytes a) : Reads (f <$> r) bytes (f a) := by
  intro tail
  have hstep : (f <$> r) (bytes ++ tail) = (r (bytes ++ tail)).bind fun p => some (f p.1, p.2) :=
      rfl
  rw [hstep, h, Option.bind_some]

theorem reads_items (s : List σ) : Reads (items s.length) s s := by
  intro tail
  unfold items
  rw [if_neg (by simp), take_left, drop_left]

theorem reads_require {c : Prop} [Decidable c] (h : c) : Reads (require c : Reader σ Unit) [] () :=
  fun _ => if_pos h

theorem Reads.guard {c : Prop} [Decidable c] (hc : c)
    (h : Reads r bytes a) : Reads (require c >>= fun _ => r) bytes a := by
  exact Reads.bind (f := fun _ => r) (reads_require hc) h

theorem Reads.peek {f : List σ → Reader σ α}
    (h : ∀ tail, f (bytes ++ tail) (bytes ++ tail) = some (a, tail)) :
    Reads (rest >>= f) bytes a := fun tail => h tail

theorem reads_times {as : List α}
    (h : ∀ a ∈ as, Reads r (put a) a) : Reads (times r as.length) (as.flatMap put) as := by
  induction as with
  | nil => exact Reads.pure []
  | cons a as ih =>
    exact (h a mem_cons_self).bind (ih fun b hb => h b (mem_cons_of_mem a hb)).last

theorem Reads.all_eq (h : Reads r bytes a) : all r bytes = some a := by
  have := h []
  rw [append_nil] at this
  unfold all
  rw [this]

def Yields (r : Reader σ α) (P : α → Prop) : Prop :=
  ∀ s a s', r s = some (a, s') → P a

theorem Yields.trivial (r : Reader σ α) : Yields r fun _ => True := fun _ _ _ _ => True.intro

theorem Yields.pure (h : P a) : Yields (Pure.pure a : Reader σ α) P := by
  intro s b s' hr
  cases hr
  exact h

theorem Yields.bind (h : Yields r P) (h' : ∀ a, P a → Yields (f a) Q) : Yields (r >>= f) Q := by
  intro s b s' hr
  obtain ⟨⟨a, t⟩, ha, hb⟩ := Option.bind_eq_some_iff.mp hr
  exact h' a (h s a t ha) t b s' hb

theorem Yields.skip {Q : β → Prop} (h : ∀ a, Yields (f a) Q) : Yields (r >>= f) Q :=
  (Yields.trivial r).bind fun a _ => h a

theorem Yields.map {f : α → β} (h : Yields r fun a => Q (f a)) : Yields (f <$> r) Q := by
  intro s b s' hr
  have hstep : (f <$> r) s = (r s).bind fun p => some (f p.1, p.2) := rfl
  rw [hstep] at hr
  obtain ⟨⟨a, t⟩, ha, hb⟩ := Option.bind_eq_some_iff.mp hr
  cases hb
  exact h s a t ha

theorem yields_items (n : Nat) : Yields (items n : Reader σ (List σ)) fun l => l.length = n := by
  intro s l s' hr
  unfold items at hr
  split at hr
  · cases hr
  cases hr
  rw [length_take]
  omega

theorem yields_times (h : Yields r P) (n : Nat) :
    Yields (times r n) fun as => as.length = n ∧ ∀ a ∈ as, P a := by
  induction n with
  | zero => exact Yields.pure ⟨rfl, fun _ ha => (not_mem_nil ha).elim⟩
  | succ n ih =>
    refine Yields.bind h fun a ha => Yields.bind ih fun as has => Yields.pure ⟨?_, ?_⟩
    · rw [length_cons, has.1]
    intro x hx
    rcases mem_cons.mp hx with rfl | hx
    · exact ha
    · exact has.2 x hx

theorem Yields.of_all (h : Yields r P) {s : List σ} (hr : all r s = some a) : P a := by
  unfold all at hr
  split at hr
  · rename_i b hb
    cases hr
    exact h s a [] hb
  · cases hr

/-- The reader takes nothing off its input but what `put` writes for the value. -/
def Undoes (put : α → List σ) (r : Reader σ α) : Prop :=
  ∀ s a s', r s = some (a, s') → s = put a ++ s'

theorem undoes_items (n : Nat) : Undoes id (items n : Reader σ (List σ)) := by
  intro s xs s' hr
  unfold items at hr
  split at hr
  · cases hr
  · cases hr
    exact (take_append_drop n s).symm

theorem Undoes.map {f : α → β} {put' : β → List σ} (h : Undoes put r) (hP : Yields r P)
    (hput : ∀ a, P a → put' (f a) = put a) : Undoes put' (f <$> r) := by
  intro s b s' hr
  obtain ⟨⟨a, t⟩, ha, hlast⟩ := Option.bind_eq_some_iff.mp hr
  cases hlast
  rw [hput a (hP s a s' ha)]
  exact h s a s' ha

theorem undoes_times (h : Undoes put r) (n : Nat) : Undoes (flatMap put) (times r n) := by
  induction n with
  | zero =>
      intro s as s' hr
      cases hr
      rfl
  | succ n ih =>
      intro s as s' hr
      obtain ⟨⟨a, t⟩, ha, hrest⟩ := Option.bind_eq_some_iff.mp hr
      obtain ⟨⟨bs, t'⟩, hbs, hlast⟩ := Option.bind_eq_some_iff.mp hrest
      cases hlast
      rw [h s a t ha, ih t bs s' hbs, flatMap_cons, append_assoc]

end Reader

end C2Pool
