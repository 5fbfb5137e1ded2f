import C2Pool.Lib.Words

/-! # Self-delimiting encodings

An encoder is self-delimiting on the values of a predicate when what follows an encoded value does
not matter: two encodings that agree, with anything after them, encode the same value.
-/

namespace C2Pool

open List

variable {α β σ : Type} {tag e e' x y : List σ} {c c' : Prop}

/-- Two encodings with arbitrary tails agree only if the values and the tails do. -/
def Delimits (enc : α → List σ) (P : α → Prop) : Prop :=
  ∀ a b x y, P a → P b → enc a ++ x = enc b ++ y → a = b ∧ x = y

namespace Delimits

variable {enc : α → List σ} {P : α → Prop} {Q : β → Prop}

theorem of_width {n : Nat} (hlen : ∀ a, (enc a).length = n)
    (hinj : ∀ a b, P a → P b → enc a = enc b → a = b) : Delimits enc P := by
  intro a b x y ha hb heq
  obtain ⟨henc, htail⟩ := append_inj heq ((hlen a).trans (hlen b).symm)
  exact ⟨hinj a b ha hb henc, htail⟩

theorem append {enc' : β → List σ} (h : Delimits enc P) (h' : Delimits enc' Q) :
    Delimits (fun p : α × β => enc p.1 ++ enc' p.2) (fun p => P p.1 ∧ Q p.2) := by
  intro a b x y ha hb heq
  simp only [append_assoc] at heq
  obtain ⟨hfst, hrest⟩ := h a.1 b.1 _ _ ha.1 hb.1 heq
  obtain ⟨hsnd, htail⟩ := h' a.2 b.2 _ _ ha.2 hb.2 hrest
  exact ⟨Prod.ext hfst hsnd, htail⟩

theorem flatMap (h : Delimits enc P) {as bs : List α}
    (hlen : as.length = bs.length) (has : ∀ a ∈ as, P a) (hbs : ∀ b ∈ bs, P b) {x y : List σ}
    (heq : as.flatMap enc ++ x = bs.flatMap enc ++ y) : as = bs ∧ x = y := by
  induction as generalizing bs with
  | nil =>
    cases bs with
    | nil => exact ⟨rfl, heq⟩
    | cons b bs => cases hlen
  | cons a as ih =>
    cases bs with
    | nil => cases hlen
    | cons b bs =>
      simp only [flatMap_cons, append_assoc] at heq
      obtain ⟨rfl, hrest⟩ := h a b _ _ (has a mem_cons_self) (hbs b mem_cons_self) heq
      obtain ⟨rfl, htail⟩ := ih (Nat.succ.inj hlen) (fun a' ha' => has a' (mem_cons_of_mem a ha'))
        (fun b' hb' => hbs b' (mem_cons_of_mem a hb')) hrest
      exact ⟨rfl, htail⟩

theorem counted {count : Nat → List σ} {bound : Nat} (hcount : Delimits count (· < bound))
    (h : Delimits enc P) :
    Delimits (fun as : List α => count as.length ++ as.flatMap enc)
      (fun as => as.length < bound ∧ ∀ a ∈ as, P a) := by
  intro as bs x y has hbs heq
  simp only [append_assoc] at heq
  obtain ⟨hlen, hrest⟩ := hcount _ _ _ _ has.1 hbs.1 heq
  exact h.flatMap hlen has.2 hbs.2 hrest

theorem comap (h : Delimits enc P) {f : β → α} (hf : ∀ a b, Q a → Q b → f a = f b → a = b)
    (hQ : ∀ b, Q b → P (f b)) : Delimits (fun b => enc (f b)) Q := by
  intro a b x y ha hb heq
  obtain ⟨hval, htail⟩ := h _ _ _ _ (hQ a ha) (hQ b hb) heq
  exact ⟨hf a b ha hb hval, htail⟩

end Delimits

theorem optional_section [Decidable c] [Decidable c'] (hx : ¬ tag <+: x) (hy : ¬ tag <+: y)
    (heq : (if c then tag ++ e else []) ++ x = (if c' then tag ++ e' else []) ++ y) :
    (c ∧ c' ∧ e ++ x = e' ++ y) ∨ (¬ c ∧ ¬ c' ∧ x = y) := by
  by_cases hc : c
  · by_cases hc' : c'
    · rw [if_pos hc, if_pos hc', append_assoc, append_assoc, append_cancel_left_eq] at heq
      exact .inl ⟨hc, hc', heq⟩
    · rw [if_pos hc, if_neg hc', append_assoc, nil_append] at heq
      exact absurd ⟨e ++ x, heq⟩ hy
  by_cases hc' : c'
  · rw [if_neg hc, if_pos hc', append_assoc, nil_append] at heq
    exact absurd ⟨e' ++ y, heq.symm⟩ hx
  · rw [if_neg hc, if_neg hc', nil_append, nil_append] at heq
    exact .inr ⟨hc, hc', heq⟩

theorem section_delimits [Decidable c] [Decidable c'] {P : Prop} (hx : ¬ tag <+: x)
    (hy : ¬ tag <+: y)
    (heq : (if c then tag ++ e else []) ++ x = (if c' then tag ++ e' else []) ++ y)
    (hbody : e ++ x = e' ++ y → P ∧ x = y) (hnone : ¬ c → ¬ c' → P) : P ∧ x = y := by
  obtain ⟨-, -, h⟩ | ⟨hc, hc', h⟩ := optional_section hx hy heq
  · exact hbody h
  · exact ⟨hnone hc hc', h⟩

theorem not_prefix_section {tag' : List σ} {c : Prop} [Decidable c]
    (hlen : tag.length = tag'.length) (hne : tag ≠ tag') (hx : ¬ tag <+: x) :
    ¬ tag <+: (if c then tag' ++ e else []) ++ x := by
  split
  · rintro ⟨y, hy⟩
    rw [append_assoc] at hy
    exact hne (append_inj hy hlen).1
  · exact hx

theorem eq_of_map_eq {f : α → β} {xs ys : List α}
    (hinj : ∀ x ∈ xs, ∀ y ∈ ys, f x = f y → x = y) (h : xs.map f = ys.map f) : xs = ys := by
  induction xs generalizing ys with
  | nil => exact (map_eq_nil_iff.mp h.symm).symm
  | cons x xs ih =>
    cases ys with
    | nil => cases h
    | cons y ys =>
      rw [map_cons, map_cons, List.cons.injEq] at h
      rw [hinj x mem_cons_self y mem_cons_self h.1,
        ih (fun x' hx' y' hy' => hinj x' (mem_cons_of_mem x hx') y'
          (mem_cons_of_mem y hy')) h.2]

end C2Pool
