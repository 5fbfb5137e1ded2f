import C2Pool.Lib.Words

/-! # Windows of seen keys

Keys are offered in batches. A window remembers the accepted keys with the time of their batch, and
forgets those that lie more than a span behind the time of a later batch. Times need not be in
order, so a forgotten key can be accepted a second time; a run without that accepts every key once.
-/

namespace C2Pool.SeenWindow

open List

variable {K : Type} {span b : Nat} {k : K} {accepted : List K}

/-- A batch: the time it is taken at, if it is, and the keys it offers. -/
structure Offer (K : Type) where
  time : Option Nat
  keys : List K
deriving DecidableEq

/-- What a window remembers: a time for each key it has not forgotten. -/
abbrev Window (K : Type) := K → Option Nat

/-- The window without what lies more than `span` behind `now`. -/
def Window.prune (span now : Nat) (w : Window K) : Window K :=
  fun k => (w k).filter fun b => now ≤ b + span

variable {w : Window K} {os : List (Offer K)}

theorem Window.prune_eq_some {now : Nat} (hk : w k = some b)
    (hnow : now ≤ b + span) : w.prune span now k = some b := by
  unfold prune
  rw [hk, Option.filter_some, if_pos (decide_eq_true hnow)]

/-- One batch: refused, or its accepted keys are new to the window and enter it together. -/
inductive Step (span : Nat) (w : Window K) : Offer K → Window K → List K → Prop where
  | refused {keys : List K} : Step span w ⟨none, keys⟩ w []
  | taken {now : Nat} {keys accepted : List K} {w' : Window K} (hsub : accepted ⊆ keys)
      (hnodup : accepted.Nodup) (hnew : ∀ k ∈ accepted, w.prune span now k = none)
      (hin : ∀ k ∈ accepted, w' k = some now)
      (hkeep : ∀ k ∉ accepted, w' k = w.prune span now k) :
      Step span w ⟨some now, keys⟩ w' accepted

/-- A sequence of batches, with everything it accepts. -/
inductive Runs (span : Nat) : Window K → List (Offer K) → List K → Prop where
  | nil (w : Window K) : Runs span w [] []
  | cons {w w' : Window K} {o : Offer K} {os : List (Offer K)} {accepted rest : List K}
      (hstep : Step span w o w' accepted) (hrest : Runs span w' os rest) :
      Runs span w (o :: os) (accepted ++ rest)

/-- Whenever the key is offered, no batch up to then is taken too late for the time `b`. -/
def Guarded (span : Nat) (os : List (Offer K)) (k : K) (b : Nat) : Prop :=
  ∀ mid o post, os = mid ++ o :: post → k ∈ o.keys →
    ∀ d ∈ mid ++ [o], ∀ now ∈ d.time, now ≤ b + span

def InTime (span : Nat) : List (Offer K) → Prop
  | [] => True
  | o :: os => (∀ b ∈ o.time, ∀ k ∈ o.keys, Guarded span os k b) ∧ InTime span os

theorem Guarded.tail {o : Offer K} (h : Guarded span (o :: os) k b) : Guarded span os k b := by
  intro mid o' post heq hk d hd
  apply h (o :: mid) o' post (by rw [heq, cons_append]) hk d
  exact mem_cons_of_mem o hd

theorem Guarded.not_offered {now : Nat} {keys : List K}
    (h : Guarded span (⟨some now, keys⟩ :: os) k b) (hlate : ¬ now ≤ b + span) :
    ∀ o ∈ (⟨some now, keys⟩ :: os : List (Offer K)), k ∉ o.keys := by
  intro o ho hk
  obtain ⟨mid, post, heq⟩ := append_of_mem ho
  apply hlate
  apply h mid o post heq hk ⟨some now, keys⟩ _ now rfl
  cases mid with
  | nil =>
    rw [nil_append, List.cons.injEq] at heq
    rw [heq.1]
    exact mem_singleton_self _
  | cons d mid =>
    rw [cons_append, List.cons.injEq] at heq
    rw [heq.1]
    exact mem_cons_self

/-- What is known of a key that was accepted at time `b`: it is remembered, or not offered any
more. -/
def Settled (span : Nat) (w : Window K) (os : List (Offer K)) (k : K) (b : Nat) : Prop :=
  Guarded span os k b ∧ (w k = some b ∨ ∀ o ∈ os, k ∉ o.keys)

theorem Settled.step {w' : Window K} {o : Offer K} (h : Settled span w (o :: os) k b)
    (hstep : Step span w o w' accepted) : k ∉ accepted ∧ Settled span w' os k b := by
  obtain ⟨hguard, hkept⟩ := h
  have htail : (∀ o' ∈ o :: os, k ∉ o'.keys) → ∀ o' ∈ os, k ∉ o'.keys :=
    fun hno o' ho' => hno o' (mem_cons_of_mem o ho')
  cases hstep with
  | refused => exact ⟨not_mem_nil, hguard.tail, hkept.imp id htail⟩
  | @taken now keys accepted w' hsub hnodup hnew hin hkeep =>
    have hgone : (∀ o' ∈ (⟨some now, keys⟩ :: os : List (Offer K)), k ∉ o'.keys) →
        k ∉ accepted ∧ Settled span w' os k b := by
      intro hno
      refine ⟨fun hk => hno _ mem_cons_self (hsub hk), hguard.tail, .inr (htail hno)⟩
    rcases hkept with hkept | hno
    · by_cases hlate : now ≤ b + span
      · have hpruned := Window.prune_eq_some hkept hlate
        have hout : k ∉ accepted := by
          intro hk
          rw [hnew k hk] at hpruned
          cases hpruned
        exact ⟨hout, hguard.tail, .inl (by rw [hkeep k hout, hpruned])⟩
      · exact hgone (hguard.not_offered hlate)
    · exact hgone hno

theorem Settled.not_mem (h : Settled span w os k b) (hruns : Runs span w os accepted) :
    k ∉ accepted := by
  induction hruns with
  | nil => exact not_mem_nil
  | cons hstep _ ih =>
    obtain ⟨hout, hsettled⟩ := h.step hstep
    rw [mem_append, not_or]
    exact ⟨hout, ih hsettled⟩

theorem Runs.nodup (h : Runs span w os accepted) (hin : InTime span os) : accepted.Nodup := by
  induction h with
  | nil => exact nodup_nil
  | @cons w w' o os accepted rest hstep hrest ih =>
    obtain ⟨hfirst, htail⟩ := hin
    rw [nodup_append']
    refine ⟨?_, ih htail, ?_⟩
    · cases hstep with
      | refused => exact nodup_nil
      | taken _ hnodup _ _ _ => exact hnodup
    intro k hk hk'
    cases hstep with
    | refused => cases hk
    | taken hsub _ _ hin' _ =>
      have hsettled : Settled span w' os k _ := ⟨hfirst _ rfl k (hsub hk), .inl (hin' k hk)⟩
      exact hsettled.not_mem hrest hk'

theorem inTime_of_close
    (h : os.Pairwise fun o d => ∀ b ∈ o.time, ∀ now ∈ d.time, now ≤ b + span) : InTime span os := by
  induction h with
  | nil => trivial
  | cons hfirst _ ih =>
    refine ⟨fun b hb k _ mid o post heq _ d hd => ?_, ih⟩
    apply hfirst d _ b hb
    rw [heq]
    rcases mem_append.mp hd with hd | hd
    · exact mem_append_left _ hd
    · rw [mem_singleton.mp hd]
      exact mem_append_right _ mem_cons_self

end C2Pool.SeenWindow
