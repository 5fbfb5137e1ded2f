import C2Pool.Lib.Words
import Mathlib.Data.Finmap

/-! # Finite maps with extensional updates

The non-dependent case of `Finmap`, with the updates a table-driven program makes. Every update has
one lookup equation, so clients compare tables by `Finmap.ext_lookup` and never open an entry list.
-/

namespace C2Pool

open Finmap

/-- A finite table from `K` to `V`. -/
abbrev FiniteMap (K V : Type) := Finmap (fun _ : K => V)

namespace FiniteMap

variable {K V : Type} [DecidableEq K] {k : K} {s : Finset V} {m : FiniteMap K (Finset V)}

theorem lookup_insert_ite (m : FiniteMap K V) (k : K) (v : V) (x : K) :
    (m.insert k v).lookup x = if x = k then some v else m.lookup x := by
  by_cases h : x = k
  · subst h
    simp
  · simp [h, lookup_insert_of_ne]

theorem lookup_erase_ite (m : FiniteMap K V) (k : K) (x : K) :
    (m.erase k).lookup x = if x = k then none else m.lookup x := by
  by_cases h : x = k
  · subst h
    simp
  · simp [h, lookup_erase_ne]

theorem mem_iff_lookup_ne_none {m : FiniteMap K V} : k ∈ m ↔ m.lookup k ≠ none := by
  rw [Ne, lookup_eq_none, not_not]

theorem card_keys_insert_of_notMem {m : FiniteMap K V} (v : V) (h : k ∉ m) :
    (m.insert k v).keys.card = m.keys.card + 1 := by
  have hkeys : (m.insert k v).keys = Insert.insert k m.keys := by
    ext x
    simp [mem_keys, mem_insert]
  rw [hkeys, Finset.card_insert_of_notMem]
  simpa [mem_keys] using h

/-- The table that sends every key of `s` to `v`. -/
def constant (s : Finset K) (v : V) : FiniteMap K V where
  entries := s.1.map fun k => ⟨k, v⟩
  nodupKeys := by
    rw [← Multiset.nodup_keys]
    simpa [Multiset.keys, Multiset.map_map, Function.comp_def] using s.2

theorem lookup_constant (s : Finset K) (v : V) (x : K) :
    (constant s v).lookup x = if x ∈ s then some v else none := by
  by_cases h : x ∈ s
  · rw [if_pos h, lookup_eq_some_iff]
    simpa [constant] using h
  · rw [if_neg h, lookup_eq_none, mem_def]
    simpa [constant, Multiset.keys, Multiset.map_map, Function.comp_def] using h

/-- Run `m[k] = v` for every key of `s`. -/
def assignAll (s : Finset K) (v : V) (m : FiniteMap K V) : FiniteMap K V :=
  constant s v ∪ m

theorem lookup_assignAll (s : Finset K) (v : V) (m : FiniteMap K V) (x : K) :
    (assignAll s v m).lookup x = if x ∈ s then some v else m.lookup x := by
  by_cases h : x ∈ s
  · have hmem : x ∈ constant s v := by
      rw [mem_iff_lookup_ne_none, lookup_constant, if_pos h]
      simp
    rw [assignAll, lookup_union_left hmem, lookup_constant, if_pos h, if_pos h]
  have hmem : x ∉ constant s v := by
    rw [mem_iff_lookup_ne_none, lookup_constant, if_neg h]
    simp
  rw [assignAll, lookup_union_right hmem, if_neg h]

def row (m : FiniteMap K (Finset V)) (k : K) : Finset V :=
  (m.lookup k).getD ∅

theorem row_insert (m : FiniteMap K (Finset V)) (k : K) (s : Finset V) (x : K) :
    row (m.insert k s) x = if x = k then s else row m x := by
  unfold row
  rw [lookup_insert_ite]
  split <;> rfl

theorem row_erase (m : FiniteMap K (Finset V)) (k : K) (x : K) :
    row (m.erase k) x = if x = k then ∅ else row m x := by
  unfold row
  rw [lookup_erase_ite]
  split <;> rfl

theorem row_of_lookup (h : m.lookup k = some s) : row m k = s := by
  simp [row, h]

theorem row_of_notMem (h : k ∉ m) : row m k = ∅ := by
  simp [row, lookup_eq_none.mpr h]

/-- No row of the table is empty: an absent key is the only spelling of an
empty row. -/
def NoEmptyRow (m : FiniteMap K (Finset V)) : Prop :=
  ∀ k, m.lookup k ≠ some ∅

section

variable {m : FiniteMap K (Finset V)} (h : NoEmptyRow m)
include h

theorem NoEmptyRow.mem_iff : k ∈ m ↔ (row m k).Nonempty := by
  cases hk : m.lookup k with
  | none => simp [mem_iff_lookup_ne_none, row, hk]
  | some s =>
    have hs : s ≠ ∅ := fun he => h k (he ▸ hk)
    simpa [mem_iff_lookup_ne_none, row, hk] using Finset.nonempty_iff_ne_empty.mpr hs

theorem NoEmptyRow.insert (k : K) (hs : s.Nonempty) : NoEmptyRow (m.insert k s) := by
  intro x hx
  rw [lookup_insert_ite] at hx
  split at hx
  · exact hs.ne_empty (Option.some.inj hx)
  · exact h x hx

theorem NoEmptyRow.erase (k : K) : NoEmptyRow (m.erase k) := by
  intro x hx
  rw [lookup_erase_ite] at hx
  split at hx
  · cases hx
  · exact h x hx

end

end FiniteMap

end C2Pool
