import C2Pool.Lib.Mmr

/-! # Inclusion proofs of a mountain range

A range of `n` leaves is cut into blocks of a power of two each, one for every bit of `n`. Appending
leaves merges blocks of one size.
-/

namespace C2Pool.Mmr

open List Option

variable {α : Type}

def pairUp (op : α → α → α) : List α → List α
  | l :: r :: rest => op l r :: pairUp op rest
  | _ => []

def up (op : α → α → α) : Nat → List α → List α
  | 0, level => level
  | k + 1, level => up op k (pairUp op level)

theorem length_pairUp (op : α → α → α) (level : List α) :
    (pairUp op level).length = level.length / 2 := by
  induction level using pairUp.induct with
  | case1 l r rest ih =>
    rw [pairUp, length_cons, ih, length_cons, length_cons]
    omega
  | case2 level h =>
    cases level with
    | nil => simp [pairUp]
    | cons l rest =>
      cases rest with
      | nil => simp [pairUp]
      | cons r rest => exact absurd rfl (h l r rest)

variable {level b : List α} {k rounds n h : Nat} {bs : List (List α)}

section

variable (op : α → α → α)
include op

theorem pairUp_append {level' : List α} (h : 2 ∣ level.length) :
    pairUp op (level ++ level') = pairUp op level ++ pairUp op level' := by
  induction level using pairUp.induct with
  | case1 l r rest ih =>
    have hrest : 2 ∣ rest.length := by
      rw [length_cons, length_cons] at h
      omega
    rw [cons_append, cons_append, pairUp, pairUp, ih hrest, cons_append]
  | case2 level hshape =>
    cases level with
    | nil => rfl
    | cons l rest =>
      cases rest with
      | nil =>
        rw [length_singleton] at h
        omega
      | cons r rest => exact absurd rfl (hshape l r rest)

theorem getElem?_pairUp {i : Nat} {x y : α} (hx : level[2 * i]? = some x)
    (hy : level[2 * i + 1]? = some y) : (pairUp op level)[i]? = some (op x y) := by
  induction level using pairUp.induct generalizing i with
  | case1 l r rest ih =>
    cases i with
    | zero =>
      rw [Nat.mul_zero, List.getElem?_cons_zero, Option.some_inj] at hx
      rw [Nat.mul_zero, Nat.zero_add, List.getElem?_cons_succ, List.getElem?_cons_zero,
        some_inj] at hy
      rw [pairUp, getElem?_cons_zero, hx, hy]
    | succ i =>
      have hdouble : 2 * (i + 1) = 2 * i + 1 + 1 := by omega
      rw [hdouble] at hx hy
      exact ih (by simpa using hx) (by simpa using hy)
  | case2 level hshape =>
    cases level with
    | nil => simp at hx
    | cons l rest =>
      cases rest with
      | nil => simp at hy
      | cons r rest => exact absurd rfl (hshape l r rest)

theorem up_append (k : Nat) {level' : List α} (h : 2 ^ k ∣ level.length) :
    up op k (level ++ level') = up op k level ++ up op k level' := by
  induction k generalizing level level' with
  | zero => rfl
  | succ k ih =>
    have heven : 2 ∣ level.length := Nat.dvd_trans (Nat.dvd_mul_left 2 (2 ^ k)) h
    have hhalf : 2 ^ k ∣ (pairUp op level).length := by
      rw [length_pairUp]
      exact (Nat.dvd_div_iff_mul_dvd heven).mpr (by rw [Nat.pow_succ, Nat.mul_comm] at h; exact h)
    rw [up, pairUp_append op heven, ih hhalf]
    rfl

theorem up_succ (k : Nat) (level : List α) : up op (k + 1) level = pairUp op (up op k level) := by
  induction k generalizing level with
  | zero => rfl
  | succ k ih => exact ih (pairUp op level)

theorem length_up (k : Nat) (level : List α) : (up op k level).length = level.length / 2 ^ k := by
  induction k generalizing level with
  | zero => simp [up]
  | succ k ih => rw [up, ih, length_pairUp, Nat.div_div_eq_div_mul, Nat.pow_succ, Nat.mul_comm]

end

def root (op : α → α → α) (z : α) : Nat → List α → α
  | 0, level => level.headD z
  | rounds + 1, level =>
    if 1 < level.length then root op z rounds (pairUp op level) else level.headD z

def siblings (op : α → α → α) (z : α) : Nat → List α → Nat → List α
  | 0, _, _ => []
  | rounds + 1, level, j =>
    if 1 < level.length then
      level.getD (if j % 2 = 0 then j + 1 else j - 1) z ::
        siblings op z rounds (pairUp op level) (j / 2)
    else []

/-- The root that a leaf and its siblings lead to. -/
def climb (op : α → α → α) : List α → Nat → α → α
  | [], _, x => x
  | sib :: path, j, x => climb op path (j / 2) (if j % 2 = 1 then op sib x else op x sib)

variable {op : α → α → α} {z : α}

theorem halves (op : α → α → α) (hlength : level.length = 2 ^ (k + 1)) :
    1 < level.length ∧ (pairUp op level).length = 2 ^ k := by
  rw [length_pairUp, hlength]
  exact ⟨Nat.one_lt_two_pow (by omega), by rw [Nat.pow_succ, Nat.mul_div_cancel _ (by decide)]⟩

theorem root_eq_up (hlength : level.length = 2 ^ k)
    (hrounds : k ≤ rounds) : root op z rounds level = (up op k level).headD z := by
  induction k generalizing rounds level with
  | zero =>
    cases rounds with
    | zero => rfl
    | succ rounds =>
      rw [root, if_neg (by omega)]
      rfl
  | succ k ih =>
    obtain ⟨rounds, rfl⟩ : ∃ r, rounds = r + 1 := ⟨rounds - 1, by omega⟩
    obtain ⟨hlong, hhalf⟩ := halves op hlength
    rw [root, if_pos hlong, ih hhalf (by omega)]
    rfl

theorem root_append {rounds' rounds'' : Nat} {b' : List α} (hb : b.length = 2 ^ k)
    (hb' : b'.length = 2 ^ k) (hrounds : k < rounds) (hrounds' : k ≤ rounds')
    (hrounds'' : k ≤ rounds'') :
    root op z rounds (b ++ b') = op (root op z rounds' b) (root op z rounds'' b') := by
  have hlength : (b ++ b').length = 2 ^ (k + 1) := by
    rw [List.length_append, hb, hb', Nat.pow_succ]
    omega
  have hone : ∀ {c : List α}, c.length = 2 ^ k → ∃ x, up op k c = [x] := by
    intro c hc
    apply List.length_eq_one_iff.mp
    rw [length_up, hc, Nat.div_self (Nat.two_pow_pos k)]
  obtain ⟨x, hx⟩ := hone hb
  obtain ⟨y, hy⟩ := hone hb'
  rw [root_eq_up hlength hrounds, root_eq_up hb hrounds', root_eq_up hb' hrounds'', up_succ,
    up_append op k (hb ▸ Nat.dvd_refl _), hx, hy]
  simp [pairUp]

theorem climb_siblings {rounds' : Nat} (hlength : level.length = 2 ^ k)
    (hrounds : k ≤ rounds) (hrounds' : k ≤ rounds') {j : Nat} {x : α} (hx : level[j]? = some x) :
    (siblings op z rounds level j).length = k ∧
      climb op (siblings op z rounds level j) j x = root op z rounds' level := by
  induction k generalizing rounds rounds' level j x with
  | zero =>
    obtain ⟨y, rfl⟩ := List.length_eq_one_iff.mp hlength
    have hj : j = 0 := by
      have hlt := (List.getElem?_eq_some_iff.mp hx).1
      omega
    subst hj
    cases hx
    have hsiblings : siblings op z rounds [x] 0 = [] := by
      cases rounds with
      | zero => rfl
      | succ rounds => simp [siblings]
    rw [hsiblings, root_eq_up (by simp) (Nat.zero_le rounds')]
    exact ⟨rfl, rfl⟩
  | succ k ih =>
    obtain ⟨rounds, rfl⟩ : ∃ r, rounds = r + 1 := ⟨rounds - 1, by omega⟩
    obtain ⟨rounds', rfl⟩ : ∃ r, rounds' = r + 1 := ⟨rounds' - 1, by omega⟩
    obtain ⟨hlong, hhalf⟩ := halves op hlength
    have hj := (List.getElem?_eq_some_iff.mp hx).1
    have hfirst : 2 * (j / 2) < level.length := by omega
    have hsecond : 2 * (j / 2) + 1 < level.length := by omega
    have hpair := getElem?_pairUp op (getElem?_eq_getElem hfirst) (getElem?_eq_getElem hsecond)
    obtain ⟨hpath, hclimb⟩ := ih hhalf (Nat.le_of_succ_le_succ hrounds)
      (Nat.le_of_succ_le_succ hrounds') hpair
    rw [siblings, if_pos hlong, root, if_pos hlong, ← hclimb]
    refine ⟨by rw [List.length_cons, hpath], ?_⟩
    rw [climb]
    -- the sibling of an even index stands after it, that of an odd one before it
    rcases Nat.mod_two_eq_zero_or_one j with h | h
    · have hx' : level[2 * (j / 2)]? = some x := by
        rw [← hx]
        congr 1
        omega
      have hsib : level.getD (j + 1) z = level[2 * (j / 2) + 1] := by
        have hindex : j + 1 = 2 * (j / 2) + 1 := by omega
        rw [hindex, getD_eq_getElem?_getD, getElem?_eq_getElem hsecond, Option.getD_some]
      rw [if_neg (by omega), if_pos h, hsib]
      rw [getElem?_eq_getElem hfirst, Option.some_inj] at hx'
      rw [hx']
    have hx' : level[2 * (j / 2) + 1]? = some x := by
      rw [← hx]
      congr 1
      omega
    have hsib : level.getD (j - 1) z = level[2 * (j / 2)] := by
      have hindex : j - 1 = 2 * (j / 2) := by omega
      rw [hindex, getD_eq_getElem?_getD, getElem?_eq_getElem hfirst, Option.getD_some]
    rw [if_pos h, if_neg (by omega), hsib]
    rw [getElem?_eq_getElem hsecond, Option.some_inj] at hx'
    rw [hx']

/-! ## Blocks -/

/-- The blocks of a range of `n` leaves, shortest first, in units of `2 ^ k` leaves. -/
inductive Blocks : Nat → Nat → List (List α) → Prop where
  | nil (k : Nat) : Blocks k 0 []
  | even {k n : Nat} {bs : List (List α)} : Blocks (k + 1) n bs → Blocks k (2 * n) bs
  | odd {k n : Nat} {b : List α} {bs : List (List α)} : b.length = 2 ^ k → Blocks (k + 1) n bs →
      Blocks k (2 * n + 1) (b :: bs)

def roots (op : α → α → α) (z : α) (bs : List (List α)) : List α :=
  bs.map fun b => root op z b.length b

theorem le_two_pow (k : Nat) : k ≤ 2 ^ k := Nat.le_of_lt Nat.lt_two_pow_self

theorem Blocks.mergeUp (h : Blocks k n bs) (hb : b.length = 2 ^ k) (hrounds : bs.length ≤ rounds) :
    ∃ bs', Blocks k (n + 1) bs' ∧ bs'.reverse.flatten = bs.reverse.flatten ++ b ∧
      Mmr.mergeUp op rounds n (roots op z bs) (root op z b.length b) = roots op z bs' := by
  induction h generalizing b rounds with
  | nil k =>
    refine ⟨[b], .odd hb (.nil (k + 1)), by simp, ?_⟩
    cases rounds with
    | zero => rfl
    | succ rounds => rfl
  | @even k n bs h ih =>
    refine ⟨b :: bs, .odd hb h, by simp, ?_⟩
    cases rounds with
    | zero =>
      rw [Nat.le_zero, length_eq_zero_iff] at hrounds
      rfl
    | succ rounds =>
      cases bs with
      | nil => rfl
      | cons b' bs => simp [roots, Mmr.mergeUp]
  | @odd k n b' bs hb' h ih =>
    obtain ⟨rounds, rfl⟩ : ∃ r, rounds = r + 1 := ⟨rounds - 1, by simp at hrounds; omega⟩
    have hboth : (b' ++ b).length = 2 ^ (k + 1) := by
      rw [List.length_append, hb', hb, Nat.pow_succ]
      omega
    obtain ⟨bs', hbs', hflat, hmerge⟩ := ih hboth (by simpa using hrounds)
    refine ⟨bs', ?_, ?_, ?_⟩
    · have hcarry : 2 * n + 1 + 1 = 2 * (n + 1) := by omega
      exact .even hbs'
    · rw [hflat, List.reverse_cons, flatten_append]
      simp
    · have hroot : root op z (b' ++ b).length (b' ++ b) =
          op (root op z b'.length b') (root op z b.length b) := by
        apply root_append hb' hb
        · rw [hboth]
          exact Nat.lt_of_lt_of_le (Nat.lt_succ_self k) (le_two_pow (k + 1))
        · rw [hb']
          exact le_two_pow k
        · rw [hb]
          exact le_two_pow k
      rw [hroot] at hmerge
      have hhalf : (2 * n + 1) / 2 = n := by omega
      rw [roots, map_cons, Mmr.mergeUp, if_pos (by omega), hhalf]
      exact hmerge

theorem exists_blocks (op : α → α → α) (z : α) (xs : List α) :
    ∃ bs, Blocks 0 xs.length bs ∧ bs.reverse.flatten = xs ∧
      appendAll op 0 [] xs = roots op z bs := by
  have hall : ∀ (xs : List α) (n : Nat) (bs : List (List α)), Blocks 0 n bs →
      ∃ bs', Blocks 0 (n + xs.length) bs' ∧ bs'.reverse.flatten = bs.reverse.flatten ++ xs ∧
        appendAll op n (roots op z bs) xs = roots op z bs' := by
    intro xs
    induction xs with
    | nil => exact fun n bs h => ⟨bs, h, by simp, rfl⟩
    | cons x xs ih =>
      intro n bs h
      obtain ⟨bs₁, h₁, hflat₁, hmerge⟩ := @Blocks.mergeUp α [x] 0 bs.length n bs op z h rfl
        (Nat.le_refl bs.length)
      obtain ⟨bs₂, h₂, hflat₂, hrest⟩ := ih (n + 1) bs₁ h₁
      refine ⟨bs₂, ?_, by rw [hflat₂, hflat₁]; simp, ?_⟩
      · rw [List.length_cons, Nat.add_comm xs.length 1, ← Nat.add_assoc]
        exact h₂
      have hroot : root op z [x].length [x] = x := rfl
      rw [hroot] at hmerge
      rw [appendAll, ← hrest, ← hmerge]
      simp [roots]
  obtain ⟨bs, h, hflat, hpeaks⟩ := hall xs 0 [] (.nil 0)
  rw [Nat.zero_add] at h
  exact ⟨bs, h, by simpa using hflat, hpeaks⟩

theorem Blocks.length_eq_ones {K : Nat} (h : Blocks k n bs) (hn : n < 2 ^ K) :
    bs.length = ones K n := by
  induction h generalizing K with
  | nil k => rw [ones_zero]; rfl
  | @even k n bs h ih =>
    cases K with
    | zero =>
      have hzero : n = 0 := by simp at hn; omega
      subst hzero
      rw [ih (K := 0) (by simp)]
    | succ K =>
      have hhalf : 2 * n / 2 = n := by omega
      rw [ones, hhalf, ih (K := K) (by omega)]
      omega
  | @odd k n b bs hb h ih =>
    cases K with
    | zero => simp at hn
    | succ K =>
      have hhalf : (2 * n + 1) / 2 = n := by omega
      rw [ones, hhalf, length_cons, ih (K := K) (by omega)]
      omega

/-- The blocks of the low `h` bits, tallest first, in units of `2 ^ k` leaves. -/
inductive Down (k : Nat) : Nat → Nat → List (List α) → Prop where
  | nil : Down k 0 0 []
  | skip {h n : Nat} {bs : List (List α)} : Down k h n bs → Down k (h + 1) n bs
  | take {h n : Nat} {b : List α} {bs : List (List α)} : b.length = 2 ^ (k + h) → Down k h n bs →
      Down k (h + 1) (2 ^ h + n) (b :: bs)

theorem Down.lt (hd : Down k h n bs) : n < 2 ^ h := by
  induction hd with
  | nil => decide
  | skip _ ih =>
    omega
  | take _ _ ih =>
    omega

theorem Down.even (hd : Down (k + 1) h n bs) : Down k (h + 1) (2 * n) bs := by
  induction hd with
  | nil => exact .skip .nil
  | skip _ ih => exact .skip ih
  | @take h n b bs hb _ ih =>
    have hsum : 2 * (2 ^ h + n) = 2 ^ (h + 1) + 2 * n := by
      omega
    rw [hsum]
    refine .take ?_ ih
    rw [hb]
    congr 1
    omega

theorem Down.odd (hd : Down (k + 1) h n bs)
    (hb : b.length = 2 ^ k) : Down k (h + 1) (2 * n + 1) (bs ++ [b]) := by
  induction hd with
  | nil => exact .take hb .nil
  | skip _ ih => exact .skip ih
  | @take h n b' bs hb' _ ih =>
    have hsum : 2 * (2 ^ h + n) + 1 = 2 ^ (h + 1) + (2 * n + 1) := by
      omega
    rw [hsum]
    refine .take ?_ ih
    rw [hb']
    congr 1
    omega

theorem down_zero (k h : Nat) : Down k h 0 ([] : List (List α)) := by
  induction h with
  | zero => exact .nil
  | succ h ih => exact .skip ih

theorem Blocks.down {K : Nat} (h : Blocks k n bs) (hn : n < 2 ^ K) : Down k K n bs.reverse := by
  induction h generalizing K with
  | nil k => exact down_zero k K
  | @even k n bs h ih =>
    cases K with
    | zero =>
      have hzero : n = 0 := by simp at hn; omega
      subst hzero
      have hempty := h.length_eq_ones (K := 0) (by simp)
      rw [length_eq_zero_iff.mp hempty]
      exact .nil
    | succ K =>
      exact (ih (K := K) (by omega)).even
  | @odd k n b bs hb h ih =>
    cases K with
    | zero => simp at hn
    | succ K =>
      rw [reverse_cons]
      exact (ih (K := K) (by omega)).odd hb

end C2Pool.Mmr
