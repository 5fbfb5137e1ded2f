import C2Pool.Lib.Run
import C2Pool.Xmr.Median
import Mathlib.Data.List.GetD

/-! # Runs of the rolling median

Pushes, and pops that take the newest of them back: the window holds the newest of
the values that are left, and its median is the median of their sorted list.
-/

namespace C2Pool

open List SlidingWindow

theorem SlidingWindow.slide_newest {α : Type} (cap : Nat) (vs : List α) (v : α) :
    (slide cap (if cap = 0 then vs else newest cap vs) v).1 =
      if cap = 0 then vs ++ [v] else newest cap (vs ++ [v]) := by
  cases cap with
  | zero => cases vs <;> rfl
  | succ n =>
    rw [if_neg n.succ_ne_zero, if_neg n.succ_ne_zero, newest_concat]
    have hlen : (newest (n + 1) vs).length = min vs.length (n + 1) := by
      rw [newest, length_drop]
      omega
    have hlater : newest n (newest (n + 1) vs) = newest n vs := by
      rw [newest_newest, Nat.min_eq_left n.le_succ]
    unfold slide
    cases hw : newest (n + 1) vs with
    | nil =>
      rw [hw] at hlater
      rw [← hlater, newest_nil]
      rfl
    | cons oldest rest =>
      rw [hw] at hlen hlater
      rw [length_cons] at hlen
      dsimp only
      rw [length_cons, ← hlater]
      split
      · have hfull : rest.length = n := by omega
        simp [newest, hfull]
      · rw [newest_eq_self (by rw [length_cons]; omega)]

namespace Histogram

variable {K : Type} [LinearOrder K]

/-- The values of a histogram, in their order. -/
def spread (es : List (K × Nat)) : List K :=
  es.flatMap fun e => replicate e.2 e.1

theorem count_spread {es : List (K × Nat)} (h : es.Pairwise fun a b => a.1 < b.1) (v : K) :
    (spread es).count v = (SortedMap.lookup ⟨es, h⟩ v).getD 0 := by
  induction es with
  | nil => rfl
  | cons e es ih =>
    obtain ⟨hlt, hrest⟩ := pairwise_cons.mp h
    have hfound : SortedMap.lookup ⟨e :: es, h⟩ v =
        if e.1 = v then some e.2 else SortedMap.lookup ⟨es, hrest⟩ v := SortedMap.find_cons v e es
    rw [hfound, spread, flatMap_cons, count_append, count_replicate]
    split
    · rename_i heq
      have hnone : (spread es).count v = 0 := by
        rw [count_eq_zero]
        intro hmem
        obtain ⟨e', he', hv⟩ := mem_flatMap.mp hmem
        have hlt' := hlt e' he'
        rw [← eq_of_mem_replicate hv, ← beq_iff_eq.mp heq] at hlt'
        exact lt_irrefl _ hlt'
      rw [if_pos (beq_iff_eq.mp heq)]
      exact congrArg (e.2 + ·) hnone
    rename_i hne
    rw [if_neg (fun heq => hne (beq_iff_eq.mpr heq)), Nat.zero_add]
    exact ih hrest

theorem pairwise_spread {es : List (K × Nat)} (h : es.Pairwise fun a b => a.1 < b.1) :
    (spread es).Pairwise (· ≤ ·) := by
  unfold spread
  induction es with
  | nil => exact Pairwise.nil
  | cons e es ih =>
    obtain ⟨hlt, hrest⟩ := pairwise_cons.mp h
    rw [flatMap_cons, pairwise_append]
    refine ⟨pairwise_replicate.mpr (Or.inr le_rfl), ih hrest, ?_⟩
    intro x hx y hy
    obtain ⟨e', he', hy⟩ := mem_flatMap.mp hy
    rw [eq_of_mem_replicate hx, eq_of_mem_replicate hy]
    exact (hlt e' he').le

theorem Counts.spread_eq {m : SortedMap K Nat} {vs : List K} (h : Counts m vs) :
    spread m.entries = vs.insertionSort (· ≤ ·) := by
  have hperm : (spread m.entries).Perm vs := by
    rw [perm_iff_count]
    intro v
    rw [count_spread m.sorted, h v]
    split <;> simp_all
  exact (hperm.trans (perm_insertionSort _ vs).symm).eq_of_pairwise' (pairwise_spread m.sorted)
    (pairwise_insertionSort _ vs)

end Histogram

namespace Xmr

/-- `median_of`. -/
def medianOf (v : List U64) : U64 :=
  if v.length = 0 then 0
  else if v.length = 1 then v.headD 0
  else
    let n := v.length / 2
    let sorted := v.insertionSort (· ≤ ·)
    if v.length % 2 = 1 then sorted.getD n 0
    else medianGetMid (sorted.getD (n - 1) 0) (sorted.getD n 0)

theorem val_medianGetMid (a b : U64) : (medianGetMid a b).val = (a.val + b.val) / 2 := by
  have hodd : ∀ x : U64, (x - 2 * (x / 2)).val = x.val % 2 := by
    intro x
    have hx := x.isLt
    have htwice : (2 * (x / 2)).val = 2 * (x.val / 2) := by
      show 2 * (x.val / 2) % 2 ^ 64 = _
      rw [Nat.mod_eq_of_lt (by omega)]
    rw [Fin.sub_val_of_le (by show (2 * (x / 2)).val ≤ x.val; omega), htwice]
    omega
  have ha := a.isLt
  have hb := b.isLt
  show ((a.val / 2 + b.val / 2) % 2 ^ 64 +
    ((a - 2 * (a / 2)).val + (b - 2 * (b / 2)).val) % 2 ^ 64 / 2) % 2 ^ 64 = _
  rw [hodd, hodd]
  omega

theorem nthFrom_eq (k : Nat) (last : U64) (seen : Nat) (es : List (U64 × Nat)) (h : seen ≤ k) :
    nthFrom k last seen es = (Histogram.spread es).getD (k - seen) last := by
  induction es generalizing seen with
  | nil => rfl
  | cons e es ih =>
    rw [nthFrom, Histogram.spread, flatMap_cons]
    split
    · rw [getD_append _ _ _ _ (by simp; omega), getD_replicate _ (by omega)]
    rw [ih _ (by omega), getD_append_right _ _ _ _ (by simp; omega), length_replicate,
      Nat.sub_sub]
    rfl

namespace MedianWindow

theorem nth_eq (w : MedianWindow) {k : Nat} (h : k < w.values.length) :
    w.nth k = (w.values.insertionSort (· ≤ ·)).getD k 0 := by
  rw [nth, nthFrom_eq k _ 0 _ (Nat.zero_le k), w.counted.spread_eq, Nat.sub_zero]
  have hlen : k < (w.values.insertionSort (· ≤ ·)).length := by
    rw [length_insertionSort]
    exact h
  rw [getD_eq_getElem _ _ hlen, getD_eq_getElem _ _ hlen]

theorem median_eq (w : MedianWindow) : w.median = medianOf w.values := by
  unfold median medianOf size
  by_cases hzero : w.values.length = 0
  · rw [if_pos hzero, if_pos hzero]
  by_cases hone : w.values.length = 1
  · rw [if_neg hzero, if_pos hone, if_neg hzero, if_pos hone]
  · rw [if_neg hzero, if_neg hone, if_neg hzero, if_neg hone, w.nth_eq (by omega),
      w.nth_eq (by omega)]

inductive Call where
  | push (v : U64)
  | popBack

def call (s : MedianWindow × List (Option U64)) : Call → MedianWindow × List (Option U64)
  | .push v => ((s.1.push v).1, (s.1.push v).2 :: s.2)
  | .popBack =>
    match s.2 with
    | [] => s
    | evicted :: pushes => (s.1.popBack evicted, pushes)

def surviving (vs : List U64) : Call → List U64
  | .push v => vs ++ [v]
  | .popBack => vs.dropLast

def pushed (capacity : Nat) (vs : List U64) : MedianWindow × List (Option U64) :=
  Run.run call (ofCapacity capacity, []) (vs.map .push)

theorem pushed_concat (capacity : Nat) (vs : List U64) (v : U64) :
    pushed capacity (vs ++ [v]) = call (pushed capacity vs) (.push v) := by
  unfold pushed
  rw [map_append, Run.run_append]
  rfl

theorem call_pushed (capacity : Nat) (vs : List U64) (c : Call) :
    call (pushed capacity vs) c = pushed capacity (surviving vs c) := by
  cases c with
  | push v => exact (pushed_concat capacity vs v).symm
  | popBack =>
    cases vs using List.reverseRecOn with
    | nil => rfl
    | append_singleton vs v =>
      rw [pushed_concat, surviving, dropLast_concat]
      simp only [call, popBack_push]

theorem values_pushed (capacity : Nat) (vs : List U64) : (pushed capacity vs).1.cap = capacity ∧
    (pushed capacity vs).1.values = if capacity = 0 then vs else newest capacity vs := by
  induction vs using List.reverseRecOn with
  | nil =>
    refine ⟨rfl, ?_⟩
    split
    · rfl
    · exact (newest_nil capacity).symm
  | append_singleton vs v ih =>
    obtain ⟨hcap, hvalues⟩ := ih
    rw [pushed_concat, call]
    refine ⟨hcap, ?_⟩
    dsimp only
    rw [push_values, hcap, hvalues, slide_newest]

/-- After any pushes and pops that take back the newest push, the window holds the newest of the
values that are left, and its median is theirs. -/
theorem values_median_run (capacity : Nat) (calls : List Call) :
    let w := (Run.run call (ofCapacity capacity, []) calls).1
    let vs := Run.run surviving [] calls
    w.values = (if capacity = 0 then vs else newest capacity vs) ∧ w.median = medianOf w.values ∧
      ∀ a b, (medianGetMid a b).val = (a.val + b.val) / 2 := by
  intro w vs
  have hrun : ∀ vs : List U64, Run.run call (pushed capacity vs) calls =
      pushed capacity (Run.run surviving vs calls) := by
    induction calls with
    | nil => exact fun _ => rfl
    | cons c calls ih =>
      intro vs
      rw [Run.run_cons, call_pushed, ih]
      rfl
  have hw : w = (pushed capacity vs).1 := congrArg Prod.fst (hrun [])
  refine ⟨?_, w.median_eq, val_medianGetMid⟩
  rw [hw]
  exact (values_pushed capacity vs).2

end MedianWindow

end Xmr

end C2Pool
