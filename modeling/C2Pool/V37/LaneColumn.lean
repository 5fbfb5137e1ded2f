import C2Pool.Lib.Tiling
import C2Pool.V37.LaneSame

/-! # The column of buckets

The buckets of a lane from the outermost level inwards, oldest first.  A fold
replaces some neighbours of the column by one bucket that is worth as much, and
an eviction takes the first one.
-/

namespace C2Pool.V37

open List Ledger Function

namespace Comp

def scaledOf (c : Comp) (m : MinerId) : Nat := ((c.lookup m).map Prod.fst).getD 0

theorem scaledOf_add (c : Comp) (m : MinerId) (scaled raw : Nat) (x : MinerId) :
    (c.add m scaled raw).scaledOf x = c.scaledOf x + if m = x then scaled else 0 := by
  unfold scaledOf add
  rw [SortedMap.lookup_insert]
  by_cases hx : x = m
  · subst hx
    cases c.lookup x <;> simp
  · rw [if_neg hx, if_neg (Ne.symm hx), Nat.add_zero]

theorem scaledOf_foldl {α : Type} (xs : List α) (key : α → MinerId) (scaled raw : α → Nat)
    (c : Comp) (m : MinerId) :
    (xs.foldl (fun c x => Comp.add c (key x) (scaled x) (raw x)) c).scaledOf m =
      c.scaledOf m + Ledger.sumOf (xs.map fun x => (key x, scaled x)) m := by
  induction xs generalizing c with
  | nil => rfl
  | cons x xs ih =>
    rw [foldl_cons, ih, scaledOf_add, map_cons, sumOf_cons]
    exact Nat.add_assoc _ _ _

end Comp

namespace Lane

theorem sumOf_worth (f : U64) (b : Bucket) (m : MinerId) :
    Ledger.sumOf (worth f b) m = mulQ (b.comp.scaledOf m) f := by
  unfold worth Comp.scaledOf
  rw [sumOf_entries b.comp (fun v => mulQ v.1 f)]
  cases b.comp.lookup m <;> simp

theorem sumOf_worth_slots (base : Nat) (slots : List L0Slot) (m : MinerId) :
    Ledger.sumOf (worth qOne (bucketOfSlots base slots)) m =
      Ledger.sumOf (slots.map fun s => (s.miner, s.wScaled)) m := by
  rw [sumOf_worth, mulQ_qOne]
  unfold bucketOfSlots
  rw [Comp.scaledOf_foldl slots (fun s => s.miner) (fun s => s.wScaled) fun s => s.wRaw.val]
  exact Nat.zero_add _

/-- The worth of a list of buckets in the frame `base`. -/
def heldBy (lane : Lane) (base : Nat) (bs : List Bucket) : List (MinerId × Nat) :=
  bs.flatMap fun b => worth (lane.shift base b) b

theorem heldBy_append (lane : Lane) (base : Nat) (bs bs' : List Bucket) :
    lane.heldBy base (bs ++ bs') = lane.heldBy base bs ++ lane.heldBy base bs' := flatMap_append

theorem heldBy_cons (lane : Lane) (base : Nat) (b : Bucket) (bs : List Bucket) :
    lane.heldBy base (b :: bs) = worth (lane.shift base b) b ++ lane.heldBy base bs := flatMap_cons

theorem sumOf_worth_buckets (lane : Lane) (children : List Bucket) (m : MinerId) :
    Ledger.sumOf (worth qOne (lane.bucketOfBuckets children)) m =
      Ledger.sumOf (lane.heldBy lane.base children) m := by
  rw [sumOf_worth, mulQ_qOne]
  have hfold : ∀ (bs : List Bucket) (c : Comp),
      (bs.foldl (fun c b => b.comp.entries.foldl (fun c e =>
        Comp.add c e.1 (mulQ e.2.1 (lane.shift lane.base b)) e.2.2) c) c).scaledOf m =
      c.scaledOf m + Ledger.sumOf (lane.heldBy lane.base bs) m := by
    intro bs
    induction bs with
    | nil => exact fun c => rfl
    | cons b bs ih =>
      intro c
      rw [foldl_cons, ih, heldBy_cons, sumOf_append,
        Comp.scaledOf_foldl b.comp.entries (fun e => e.1)
          (fun e => mulQ e.2.1 (lane.shift lane.base b)) fun e => e.2.2]
      exact Nat.add_assoc _ _ _
  exact (hfold children ∅).trans (Nat.zero_add _)

/-- The buckets of the first `n` levels, outermost level first. -/
def stack (levels : Nat → List Bucket) : Nat → List Bucket
  | 0 => []
  | n + 1 => levels n ++ stack levels n

def column (lane : Lane) : List Bucket := stack lane.levels lane.numLevels

theorem stack_congr {levels levels' : Nat → List Bucket} {n : Nat}
    (h : ∀ k < n, levels k = levels' k) : stack levels n = stack levels' n := by
  induction n with
  | zero => rfl
  | succ n ih =>
    unfold stack
    rw [h n (Nat.lt_succ_self n), ih fun k hk => h k (Nat.lt_succ_of_lt hk)]

theorem stack_split {n k : Nat} (hk : k < n) (levels : Nat → List Bucket) :
    ∃ above, ∀ levels', (∀ j, k < j → levels' j = levels j) →
      stack levels' n = above ++ (levels' k ++ stack levels' k) := by
  induction n with
  | zero => exact absurd hk (Nat.not_lt_zero k)
  | succ n ih =>
    by_cases hlast : k = n
    · subst hlast
      exact ⟨[], fun levels' _ => rfl⟩
    obtain ⟨above, habove⟩ := ih (by omega)
    refine ⟨levels n ++ above, ?_⟩
    intro levels' hsame
    rw [stack, habove levels' hsame, hsame n (by omega), append_assoc]

theorem bucketList_perm (lane : Lane) : lane.bucketList.Perm lane.column := by
  unfold bucketList column
  induction lane.numLevels with
  | zero => exact .refl _
  | succ n ih =>
    rw [range_succ, flatMap_append, flatMap_singleton]
    exact perm_append_comm.trans (ih.append_left _)

theorem sumOf_holdings (lane : Lane) (base : Nat) (m : MinerId) :
    Ledger.sumOf (lane.holdings base) m =
      Ledger.sumOf (lane.l0.map fun s => (s.miner, s.wScaled)) m +
        Ledger.sumOf (lane.heldBy base lane.column) m := by
  unfold holdings heldBy
  rw [sumOf_append, sumOf_perm (lane.bucketList_perm.flatMap_right _)]

variable {lane lane' : Lane} {b : Bucket}

theorem column_foldL0 (hlevels : 0 < lane.numLevels) (hparams : lane'.params = lane.params)
    (h : lane'.levels = Function.update lane.levels 0 (lane.levels 0 ++ [b])) :
    lane'.column = lane.column ++ [b] := by
  obtain ⟨above, habove⟩ := stack_split hlevels lane.levels
  have hold := habove lane.levels fun _ _ => rfl
  have hnew := habove lane'.levels fun j hj => by
    rw [h, update_of_ne (by omega)]
  unfold column numLevels at *
  rw [hparams, hold, hnew, h, update_self]
  simp [stack]

theorem column_foldLevel {k n : Nat} (hk : k + 1 < lane.numLevels)
    (hparams : lane'.params = lane.params) (h : lane'.levels = Function.update
      (Function.update lane.levels k ((lane.levels k).drop n)) (k + 1)
      (lane.levels (k + 1) ++ [b])) :
    ∃ older newer, lane.column = older ++ ((lane.levels k).take n ++ newer) ∧
      lane'.column = older ++ (b :: newer) := by
  obtain ⟨above, habove⟩ := stack_split hk lane.levels
  have hold := habove lane.levels fun _ _ => rfl
  have hnew := habove lane'.levels fun j hj => by
    rw [h, update_of_ne (by omega), update_of_ne (by omega)]
  have hbelow : stack lane'.levels k = stack lane.levels k := by
    apply stack_congr
    intro j hj
    rw [h, update_of_ne (by omega), update_of_ne (by omega)]
  refine ⟨above ++ lane.levels (k + 1), (lane.levels k).drop n ++ stack lane.levels k, ?_, ?_⟩
  · unfold column
    rw [hold, stack, append_assoc, ← append_assoc ((lane.levels k).take n), take_append_drop]
  unfold column numLevels at *
  rw [hparams, hnew, stack, hbelow, h, update_self, update_of_ne (by omega), update_self]
  simp

end Lane

end C2Pool.V37
