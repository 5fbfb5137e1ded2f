import C2Pool.Lib.Run
import C2Pool.Lib.SortedMap

/-! # Two-phase books

Entries are opened under a key, and then either settled or withdrawn.  A key
that is open or settled cannot be opened again, a settled key stays settled,
and the history lists every settled entry once, in the order of settling.
-/

namespace C2Pool

open List SortedMap

namespace SortedMap

variable {K V : Type} [LinearOrder K] {m : SortedMap K V}

def sumBy (m : SortedMap K V) (f : V → Int) : Int := (m.entries.map fun e => f e.2).sum

@[simp] theorem sumBy_empty (f : V → Int) : (∅ : SortedMap K V).sumBy f = 0 := rfl

theorem sumBy_of_lookup {k : K} {v : V} (h : m.lookup k = some v)
    (f : V → Int) : m.sumBy f = f v + (m.erase k).sumBy f := by
  unfold sumBy
  rw [((entries_perm h).map fun e => f e.2).sum_eq, map_cons, sum_cons]

theorem sumBy_insert {k : K} (h : m.lookup k = none) (v : V) (f : V → Int) :
    (m.insert k v).sumBy f = f v + m.sumBy f := by
  have hnew : (m.insert k v).lookup k = some v := by
    rw [lookup_insert, if_pos rfl]
  rw [sumBy_of_lookup hnew, erase_insert, erase_of_lookup_none h]

end SortedMap

/-- Open entries, and the settled ones with what they were settled at. -/
structure Book (B R H : Type) [LinearOrder B] where
  pending : SortedMap B R := ∅
  history : List (B × R × H) := []

/-- What can happen to an entry. -/
inductive BookEvent (B R H : Type) where
  | found (b : B) (r : R)
  | finalize (b : B) (h : H)
  | orphan (b : B)

namespace Book

variable {B R H : Type} [LinearOrder B] {bk : Book B R H}

def settled (bk : Book B R H) : List B := bk.history.map Prod.fst

def step (bk : Book B R H) : BookEvent B R H → Book B R H
  | .found b r =>
    if bk.pending.lookup b ≠ none ∨ b ∈ bk.settled then bk
    else { bk with pending := bk.pending.insert b r }
  | .finalize b h =>
    match bk.pending.lookup b with
    | none => bk
    | some r => ⟨bk.pending.erase b, bk.history ++ [(b, r, h)]⟩
  | .orphan b => { bk with pending := bk.pending.erase b }

/-- No key is settled twice, and none is open and settled. -/
structure Sound (bk : Book B R H) : Prop where
  once : bk.settled.Nodup
  apart : ∀ b ∈ bk.settled, bk.pending.lookup b = none

theorem sound_empty : Sound ({} : Book B R H) :=
  ⟨nodup_nil, fun _ h => (not_mem_nil h).elim⟩

theorem settled_concat (bk : Book B R H) (b : B) (r : R) (h : H) (pending : SortedMap B R) :
    settled ⟨pending, bk.history ++ [(b, r, h)]⟩ = bk.settled ++ [b] := by
  simp [settled]

theorem Sound.step {bk : Book B R H} (hbk : bk.Sound) (ev : BookEvent B R H) :
    (bk.step ev).Sound := by
  obtain ⟨honce, hapart⟩ := hbk
  cases ev with
  | found b r =>
    simp only [Book.step]
    split
    · exact ⟨honce, hapart⟩
    rename_i hfresh
    refine ⟨honce, fun x hx => ?_⟩
    have hne : x ≠ b := by
      rintro rfl
      exact hfresh (.inr hx)
    show (SortedMap.insert _ _ _).lookup x = none
    rw [lookup_insert, if_neg hne]
    exact hapart x hx
  | finalize b h =>
    simp only [Book.step]
    split
    · exact ⟨honce, hapart⟩
    rename_i r hr
    have hnew : b ∉ bk.settled := by
      intro hmem
      rw [hapart b hmem] at hr
      cases hr
    constructor
    · rw [settled_concat, nodup_append]
      refine ⟨honce, nodup_singleton b, fun x hx y hy => ?_⟩
      rw [mem_singleton] at hy
      rintro rfl
      exact hnew (hy ▸ hx)
    intro x hx
    rw [settled_concat, mem_append, mem_singleton] at hx
    rw [lookup_erase]
    obtain hx | rfl := hx
    · split
      · rfl
      · exact hapart x hx
    · rw [if_pos rfl]
  | orphan b =>
    refine ⟨honce, fun x hx => ?_⟩
    show (SortedMap.erase _ _).lookup x = none
    rw [lookup_erase]
    split
    · rfl
    · exact hapart x hx

def settledSum (bk : Book B R H) (f : R → Int) : Int := (bk.history.map fun e => f e.2.1).sum

def pendingSum (bk : Book B R H) (f : R → Int) : Int := bk.pending.sumBy f

@[simp] theorem settledSum_empty (f : R → Int) : settledSum ({} : Book B R H) f = 0 := rfl

@[simp] theorem pendingSum_empty (f : R → Int) : pendingSum ({} : Book B R H) f = 0 := rfl

end Book

end C2Pool
