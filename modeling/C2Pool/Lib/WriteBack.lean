import C2Pool.Lib.SortedMap

/-! # Write-back maps

Changes gather in an overlay over a base that holds encoded values: a change is a
value or the mark that the key is gone.  A commit writes all changes to the base.
-/

namespace C2Pool.WriteBack

open SortedMap

variable {K V B : Type} [LinearOrder K] (read : B → Option V) (write : V → B)

def view (overlay : SortedMap K (Option V)) (base : SortedMap K B) (k : K) : Option V :=
  match overlay.lookup k with
  | some change => change
  | none => (base.lookup k).bind read

def commit (overlay : SortedMap K (Option V)) (base : SortedMap K B) : SortedMap K B :=
  overlay.entries.foldl (fun base e =>
    match e.2 with
    | some v => base.insert e.1 (write v)
    | none => base.erase e.1) base

variable {read write}

theorem view_insert (overlay : SortedMap K (Option V)) (base : SortedMap K B) (k : K)
    (change : Option V) :
    view read (overlay.insert k change) base =
      Function.update (view read overlay base) k change := by
  funext x
  unfold view
  rw [lookup_insert, Function.update_apply]
  by_cases hx : x = k
  · simp [hx]
  · simp [hx]

theorem view_merge (changes overlay : SortedMap K (Option V)) (base : SortedMap K B) (k : K) :
    view read (changes.entries.foldl (fun o e => o.insert e.1 e.2) overlay) base k =
      match changes.lookup k with
      | some change => change
      | none => view read overlay base k := by
  obtain ⟨overlay', -, hread⟩ := foldl_at_key
    (fun (o : SortedMap K (Option V)) (e : K × Option V) => o.insert e.1 e.2)
    (fun o => view read o base k) (k := k)
    (fun o e hne => by rw [view_insert, Function.update_of_ne (Ne.symm hne)]) changes overlay
  rw [hread]
  cases changes.lookup k with
  | none => rfl
  | some change => simp [view_insert]

theorem lookup_commit (overlay : SortedMap K (Option V)) (base : SortedMap K B) (k : K) :
    (commit write overlay base).lookup k =
      match overlay.lookup k with
      | some change => change.map write
      | none => base.lookup k := by
  obtain ⟨base', hbase, hread⟩ := foldl_at_key
    (fun (base : SortedMap K B) (e : K × Option V) =>
      match e.2 with
      | some v => base.insert e.1 (write v)
      | none => base.erase e.1)
    (fun base => base.lookup k) (k := k)
    (fun base e hne => by
      split
      · rw [lookup_insert, if_neg (Ne.symm hne)]
      · rw [lookup_erase, if_neg (Ne.symm hne)]) overlay base
  unfold commit
  rw [hread]
  cases overlay.lookup k with
  | none => rfl
  | some change =>
    cases change with
    | none => simp [lookup_erase]
    | some v => simp [lookup_insert]

end C2Pool.WriteBack
