import C2Pool.Sharechain.SkipList
import C2Pool.Sharechain.TrackerView

/-! # The share chain

`ShareChain` (`sharechain.hpp`) puts the forest tables, the tracker view and
the skip list together.  The view and the skip list subscribe to the removal
signals, which fire while the removed share is still in `m_shares`.
-/

namespace C2Pool.Sharechain

variable {H S : Type} [DecidableEq H] [Inhabited H]

structure ShareChain (H S : Type) where
  forest : Forest H S
  view : TrackerView H
  skipList : DistanceSkipList H

namespace ShareChain

def empty : ShareChain H S := ⟨.empty, .empty, ∅⟩

/-- `add`: nothing is cached for a new share. -/
def add (c : ShareChain H S) (data : ChainData H S) : ShareChain H S :=
  { c with forest := c.forest.add data }

/-- The view after the signals of a removal: the special signal of the branch,
then `removed`. -/
def signalView (c : ShareChain H S) (order : IterationOrder H) (hash : H)
    (branch : RemoveBranch) : TrackerView H :=
  let view :=
    match branch with
    | .soleChild => c.view.handleRemoveSpecial c.forest order hash
    | .forkRoot => c.view.handleRemoveSpecial2 c.forest order hash
    | .bridge | .sibling | .promote => c.view
  view.handleRemoved hash

/-- `remove`; `order` is the order in which the view iterates a group. -/
def remove (c : ShareChain H S) (order : IterationOrder H) (hash : H) : Bool × ShareChain H S :=
  match c.forest.tryRemove hash with
  | none => (false, c)
  | some (branch, forest) =>
    (true, ⟨forest, c.signalView order hash branch, c.skipList.forgetItem hash⟩)

def getDeltaToLast (c : ShareChain H S) (hash : H) : Option (AttributeDelta H × ShareChain H S) :=
  (c.view.getDeltaToLast c.forest hash).map fun out => (out.1, { c with view := out.2 })

def getDelta (c : ShareChain H S) (item ancestor : H) :
    Option (AttributeDelta H × ShareChain H S) :=
  (c.view.getDelta c.forest item ancestor).map fun out => (out.1, { c with view := out.2 })

/-- One attribute of the delta to the chain end; the neutral value for a hash
that is not held. -/
def getAttribute {A : Type} (field : AttributeDelta H → A) (neutral : A)
    (c : ShareChain H S) (hash : H) : Option (A × ShareChain H S) :=
  if hash ∈ c.forest.shares then
    (c.getDeltaToLast hash).map fun out => (field out.1, out.2)
  else some (neutral, c)

def getAccHeight (c : ShareChain H S) (hash : H) : Option (Int × ShareChain H S) :=
  c.getAttribute (fun d => d.height) 0 hash

def getWork (c : ShareChain H S) (hash : H) : Option (UInt288 × ShareChain H S) :=
  c.getAttribute (fun d => d.work) 0 hash

def getMinWork (c : ShareChain H S) (hash : H) : Option (UInt288 × ShareChain H S) :=
  c.getAttribute (fun d => d.minWork) 0 hash

def previous (forest : Forest H S) (hash : H) : H :=
  match forest.shares.lookup hash with
  | some data => data.index.tail
  | none => default

/-- `get_nth_parent_via_skip` on a chain without a parent chain. -/
def getNthParentViaSkip (c : ShareChain H S) (draw : H → Nat) (hash : H) (n : Nat) :
    H × ShareChain H S :=
  let out := c.skipList.getNthParent (previous c.forest) draw hash n
  (out.1, { c with skipList := out.2 })

end ShareChain

namespace Forest

/-- Every held share sits under its own hash and has the previous hash that
`prev` gives. -/
def Follows (prev : H → H) (c : Forest H S) : Prop :=
  ∀ x data, c.shares.lookup x = some data → data.index.head = x ∧ data.index.tail = prev x

omit [Inhabited H] in
theorem empty_follows (prev : H → H) : Follows prev (empty : Forest H S) := by
  intro x data h
  simp [empty] at h

variable {prev : H → H} {c : Forest H S} {x : H}

omit [Inhabited H] in
theorem Follows.of_shares {c' : Forest H S} (h : Follows prev c)
    (hshares : ∀ x data, c'.shares.lookup x = some data → c.shares.lookup x = some data) :
    Follows prev c' :=
  fun x data hx => h x data (hshares x data hx)

theorem Follows.add (h : Follows prev c) {data : ChainData H S}
    (hdata : data.index.tail = prev data.index.head) : Follows prev (c.add data) := by
  intro x data' hx
  have hx' : (c.shares.insert data.index.head data).lookup x = some data' := hx
  rw [FiniteMap.lookup_insert_ite] at hx'
  split at hx'
  · rename_i hxd
    cases hx'
    exact ⟨hxd.symm, hxd ▸ hdata⟩
  · exact h x data' hx'

/-- A walk that does not run out follows `prev` over held shares. -/
theorem Follows.getNthParentKey (h : Follows prev c) {n : Nat}
    {y : H} (hy : c.getNthParentKey n x = some y) :
    y = prev^[n] x ∧ ∀ i < n, prev^[i] x ≠ default ∧ prev^[i] x ∈ c.shares := by
  induction n generalizing x with
  | zero =>
    refine ⟨(Option.some.inj hy).symm, ?_⟩
    omega
  | succ n ih =>
    unfold Forest.getNthParentKey current at hy
    by_cases hnull : x = default
    · simp [hnull] at hy
    rw [if_neg hnull] at hy
    cases hx : c.shares.lookup x with
    | none => simp [hx] at hy
    | some data =>
      simp only [hx] at hy
      rw [(h x data hx).2] at hy
      rcases ih hy with ⟨hval, hpath⟩
      refine ⟨hval, ?_⟩
      intro i hi
      cases i with
      | zero => exact ⟨hnull, Finmap.mem_of_lookup_eq_some hx⟩
      | succ i => exact hpath i (by omega)

theorem Follows.previous_eq (h : Follows prev c)
    (hx : x ∈ c.shares) : ShareChain.previous c x = prev x := by
  rcases Finmap.mem_iff.mp hx with ⟨data, hdata⟩
  unfold ShareChain.previous
  rw [hdata]
  exact (h x data hdata).2

theorem Follows.path_of_le_getHeight (h : Follows prev c) {n : Nat} (hn : n ≤ c.getHeight x) :
    ∀ i < n, prev^[i] x ≠ default ∧ prev^[i] x ∈ c.shares := by
  have hsome := getNthParentKey_isSome_of_le_getHeight x hn
  rcases Option.isSome_iff_exists.mp hsome with ⟨y, hy⟩
  exact (h.getNthParentKey hy).2

end Forest

end C2Pool.Sharechain
