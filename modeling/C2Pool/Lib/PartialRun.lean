import C2Pool.Lib.Words

/-! # Runs of a step that can fail

Steps in `Except`: a run goes on while every step succeeds, and what every
successful step keeps, every successful run keeps.
-/

namespace C2Pool.PartialRun

open List

variable {ε σ ι α β : Type} {x : Except ε α} {f : α → Except ε β} {b : β} {e : ε} {a : α} {s s' : σ}
  {ops xs : List ι} {Inv : σ → Prop} {sure : Prop} {Q : α → Prop}

def failure : Except ε α → Option ε
  | .error e => some e
  | .ok _ => none

theorem ok_bind (a : α) (f : α → Except ε β) : (Except.ok a >>= f) = f a := rfl

theorem bind_eq_ok : x >>= f = .ok b ↔ ∃ a, x = .ok a ∧ f a = .ok b := by
  cases x with
  | error e =>
    constructor
    · intro h
      cases h
    · rintro ⟨a, h, -⟩
      cases h
  | ok a =>
    constructor
    · intro h
      exact ⟨a, rfl, h⟩
    rintro ⟨a', h, h'⟩
    cases h
    exact h'

/-- A sequence fails in its first or in its second part. -/
theorem bind_eq_error : x >>= f = .error e ↔ x = .error e ∨ ∃ a, x = .ok a ∧ f a = .error e := by
  cases x with
  | error e' =>
    constructor
    · intro h
      cases h
      exact .inl rfl
    rintro (h | ⟨a, h, -⟩)
    · cases h
      rfl
    · cases h
  | ok a =>
    constructor
    · intro h
      exact .inr ⟨a, rfl, h⟩
    rintro (h | ⟨a', h, h'⟩)
    · cases h
    · cases h
      exact h'

theorem map_eq_ok {f : α → β} : x.map f = .ok b ↔ ∃ a, x = .ok a ∧ f a = b := by
  cases x with
  | error e => simp [Except.map]
  | ok a => simp [Except.map]

theorem toOption_eq_some {x : Except ε α} {a : α} : x.toOption = some a ↔ x = .ok a := by
  cases x with
  | error e => simp [Except.toOption]
  | ok b => simp [Except.toOption]

theorem of_guard {P : Prop} [Decidable P]
    (h : (if P then .error e else x) = .ok a) : ¬ P ∧ x = .ok a := by
  by_cases hP : P
  · rw [if_pos hP] at h
    cases h
  · rw [if_neg hP] at h
    exact ⟨hP, h⟩

variable (step : σ → ι → Except ε σ)

def run (s : σ) : List ι → Except ε σ
  | [] => .ok s
  | op :: ops => step s op >>= fun s => run s ops

variable {step}

theorem run_invariant (hstep : ∀ s op s', Inv s → step s op = .ok s' → Inv s') (hs : Inv s)
    (hrun : run step s ops = .ok s') : Inv s' := by
  induction ops generalizing s with
  | nil =>
    cases hrun
    exact hs
  | cons op ops ih =>
    obtain ⟨s₁, hop, hrest⟩ := bind_eq_ok.mp hrun
    exact ih (hstep s op s₁ hs hop) hrest

theorem run_invariant_along {A : σ → ι → Prop}
    (hstep : ∀ s op s', Inv s → A s op → step s op = .ok s' → Inv s') (hs : Inv s)
    (hallowed : ∀ done op rest s₁, ops = done ++ op :: rest → run step s done = .ok s₁ → A s₁ op)
    (hrun : run step s ops = .ok s') : Inv s' := by
  induction ops generalizing s with
  | nil =>
    cases hrun
    exact hs
  | cons op ops ih =>
    obtain ⟨next, hnext, hrest⟩ := bind_eq_ok.mp hrun
    refine ih (hstep s op next hs (hallowed [] op ops s rfl rfl) hnext) ?_ hrest
    intro done op' rest s₁ hops hdone
    refine hallowed (op :: done) op' rest s₁ (by rw [hops, cons_append]) ?_
    unfold run
    rw [hnext]
    exact hdone

theorem foldlM_invariant {Inv : σ → Prop} {xs : List ι}
    (hstep : ∀ s x s', x ∈ xs → Inv s → step s x = .ok s' → Inv s') {s s' : σ} (hs : Inv s)
    (h : xs.foldlM step s = .ok s') : Inv s' := by
  induction xs generalizing s with
  | nil =>
    cases h
    exact hs
  | cons x xs ih =>
    obtain ⟨s₁, hx, hrest⟩ := bind_eq_ok.mp h
    exact ih (fun s x s' hmem => hstep s x s' (mem_cons_of_mem _ hmem))
      (hstep s x s₁ mem_cons_self hs hx) hrest

theorem foldlM_taken (hstep : ∀ s x s', x ∈ xs → Inv s → step s x = .ok s' → Inv s') (hs : Inv s)
    (h : xs.foldlM step s = .ok s') {x : ι} (hx : x ∈ xs) : ∃ u u', Inv u ∧ step u x = .ok u' := by
  induction xs generalizing s with
  | nil => cases hx
  | cons y xs ih =>
    obtain ⟨s₁, hy, hrest⟩ := bind_eq_ok.mp h
    rcases mem_cons.mp hx with rfl | hx
    · exact ⟨s, s₁, hs, hy⟩
    · exact ih (fun u z u' hmem => hstep u z u' (mem_cons_of_mem _ hmem))
        (hstep s y s₁ mem_cons_self hs hy) hrest hx

theorem foldlM_map_eq_some {f : σ → β → Option σ} {g : σ → α → σ} {row : α → β} {l : List α}
    (h : ∀ s, ∀ x ∈ l, f s (row x) = some (g s x)) (s : σ) :
    (l.map row).foldlM f s = some (l.foldl g s) := by
  induction l generalizing s with
  | nil => rfl
  | cons x l ih =>
    rw [map_cons, foldlM_cons, h s x mem_cons_self]
    exact ih (fun s y hy => h s y (mem_cons_of_mem x hy)) (g s x)

/-- The result meets `Q`; a failure is allowed unless success is sure. -/
structure Meets (sure : Prop) (x : Except ε α) (Q : α → Prop) : Prop where
  of_eq_ok : ∀ {a}, x = .ok a → Q a
  succeeds : sure → ∃ a, x = .ok a

theorem Meets.ok (h : Q a) : Meets sure (.ok a : Except ε α) Q := by
  refine ⟨?_, fun _ => ⟨a, rfl⟩⟩
  rintro _ ⟨⟩
  exact h

theorem Meets.error (h : ¬ sure) : Meets sure (.error e : Except ε α) Q :=
  ⟨(fun he => nomatch he), fun hsure => absurd hsure h⟩

theorem Meets.exists_ok (h : Meets sure x Q) (hsure : sure) : ∃ a, x = .ok a ∧ Q a := by
  obtain ⟨a, ha⟩ := h.succeeds hsure
  exact ⟨a, ha, h.of_eq_ok ha⟩

theorem Meets.not_sure (h : Meets sure (.error e : Except ε α) Q) : ¬ sure := by
  intro hsure
  obtain ⟨a, ha⟩ := h.succeeds hsure
  cases ha

theorem Meets.mono {R : α → Prop} (h : Meets sure x Q) (hQR : ∀ a, Q a → R a) :
    Meets sure x R := ⟨fun ha => hQR _ (h.of_eq_ok ha), h.succeeds⟩

theorem Meets.bind {S : β → Prop} (h : Meets sure x Q)
    (hf : ∀ a, Q a → Meets sure (f a) S) : Meets sure (x >>= f) S := by
  cases x with
  | error e => exact .error h.not_sure
  | ok a => exact hf a (h.of_eq_ok rfl)

/-- What a loop keeps may depend on what it has still to do. -/
theorem Meets.foldlM {Inv : List ι → σ → Prop}
    (hstep : ∀ x xs s, Inv (x :: xs) s → Meets sure (step s x) (Inv xs))
    (hs : Inv xs s) : Meets sure (xs.foldlM step s) (Inv []) := by
  induction xs generalizing s with
  | nil => exact .ok hs
  | cons x xs ih =>
    exact (hstep x xs s hs).bind fun s' hs' => ih hs'

theorem Meets.foldlM_range {step : σ → Nat → Except ε σ} {Inv : Nat → σ → Prop} {n : Nat}
    (hstep : ∀ k s, k < n → Inv k s → Meets sure (step s k) (Inv (k + 1)))
    (hs : Inv 0 s) : Meets sure ((List.range n).foldlM step s) (Inv n) := by
  induction n with
  | zero => exact .ok hs
  | succ n ih =>
    rw [range_succ, foldlM_append]
    refine (ih fun k s hk => hstep k s (Nat.lt_succ_of_lt hk)).bind ?_
    intro mid hmid
    exact (hstep n mid (Nat.lt_succ_self n) hmid).bind fun s' hs' => .ok hs'

end C2Pool.PartialRun
