import C2Pool.Sharechain.Forest

/-! # The cached tracker view

`TrackerView` (`tracker_view.hpp`): the distance, work and minimum work from a share to the end of
its chain, cached in two parts. An item stores its delta up to a reference point, and all items of
one reference share the delta from that point to the chain end, which is rewritten in place when the
last share of the chain is removed.
-/

namespace C2Pool.Sharechain

open FiniteMap

structure AttributeDelta (H : Type) where
  head : H
  tail : H
  height : Int
  work : UInt288
  minWork : UInt288
deriving DecidableEq

namespace AttributeDelta

variable {H : Type}

def getNone (id : H) : AttributeDelta H := ⟨id, id, 0, 0, 0⟩

/-- `operator+`. -/
instance : Add (AttributeDelta H) where
  add d other :=
    ⟨d.head, other.tail, d.height + other.height, d.work + other.work, d.minWork + other.minWork⟩

/-- `operator-`. -/
instance [DecidableEq H] : Sub (AttributeDelta H) where
  sub d other :=
    let ends :=
      if d.head = other.head then (other.tail, d.tail)
      else if d.tail = other.tail then (d.head, other.head)
      else (d.head, d.tail)
    ⟨ends.1, ends.2, d.height - other.height, d.work - other.work, d.minWork - other.minWork⟩

theorem sub_of_tail [DecidableEq H] {d e : AttributeDelta H} (hhead : d.head ≠ e.head)
    (htail : d.tail = e.tail) : (d - e).head = d.head ∧ (d - e).tail = e.head := by
  have hends : ((d - e).head, (d - e).tail) =
      if d.head = e.head then (e.tail, d.tail)
      else if d.tail = e.tail then (d.head, e.head)
      else (d.head, d.tail) := rfl
  rw [if_neg hhead, if_pos htail] at hends
  exact Prod.mk.inj hends

end AttributeDelta

/-- The order in which a set is iterated: each element once, otherwise
unspecified. -/
structure IterationOrder (H : Type) where
  list : Finset H → List H
  mem_list : ∀ s x, x ∈ list s ↔ x ∈ s
  nodup : ∀ s, (list s).Nodup

def sortedOrder : IterationOrder Nat where
  list s := s.sort
  mem_list s x := Finset.mem_sort _
  nodup s := Finset.sort_nodup s _

/-- `m_deltas`, `m_reverse_deltas`, `m_delta_refs`, `m_reverse_delta_refs` and
the reference counter. -/
structure TrackerView (H : Type) where
  deltas : FiniteMap H (AttributeDelta H × Nat)
  reverseDeltas : FiniteMap Nat (Finset H)
  deltaRefs : FiniteMap Nat (AttributeDelta H)
  reverseDeltaRefs : FiniteMap H Nat
  refGen : Nat

namespace TrackerView

variable {H S : Type} [DecidableEq H] [Inhabited H]

def empty : TrackerView H := ⟨∅, ∅, ∅, ∅, 0⟩

def makeElementDelta (c : Forest H S) (hash : H) : AttributeDelta H :=
  match c.shares.lookup hash with
  | some data => ⟨hash, data.index.tail, 1, data.index.work, data.index.minWork⟩
  | none => ⟨hash, default, 1, 0, 0⟩

def cached (v : TrackerView H) (item : H) : Option (AttributeDelta H) :=
  (v.deltas.lookup item).bind fun entry =>
    (v.deltaRefs.lookup entry.2).map fun refDelta => entry.1 + refDelta

def getDeltaLocked (v : TrackerView H) (c : Forest H S) (item : H) : AttributeDelta H :=
  (v.cached item).getD (makeElementDelta c item)

def dropRef (v : TrackerView H) (ref : Nat) : TrackerView H :=
  match v.deltaRefs.lookup ref with
  | none => { v with reverseDeltas := v.reverseDeltas.erase ref }
  | some refDelta =>
    { v with
      reverseDeltas := v.reverseDeltas.erase ref
      reverseDeltaRefs := v.reverseDeltaRefs.erase refDelta.tail
      deltaRefs := v.deltaRefs.erase ref }

/-- Take an item out of its group, dropping the group's reference when that
was its last item, unless it is the reference `keep` the item is about to
join. -/
def leaveGroup (v : TrackerView H) (item : H) (keep : Option Nat) : TrackerView H :=
  match v.deltas.lookup item with
  | none => v
  | some (_, ref) =>
    let group := (row v.reverseDeltas ref).erase item
    let v := { v with
      deltas := v.deltas.erase item
      reverseDeltas := v.reverseDeltas.insert ref group }
    if group = ∅ ∧ some ref ≠ keep then v.dropRef ref else v

/-- The first step of `_set_delta_locked`: a reference at the given tail. -/
def ensureRef (v : TrackerView H) (tail : H) : TrackerView H × Nat :=
  match v.reverseDeltaRefs.lookup tail with
  | some ref => (v, ref)
  | none =>
    ({ v with
      deltaRefs := v.deltaRefs.insert v.refGen (.getNone tail)
      reverseDeltaRefs := v.reverseDeltaRefs.insert tail v.refGen
      refGen := v.refGen + 1 }, v.refGen)

def joinGroup (v : TrackerView H) (item : H) (delta : AttributeDelta H) (ref : Nat) :
    TrackerView H :=
  { v with
    deltas := v.deltas.insert item (delta, ref)
    reverseDeltas := v.reverseDeltas.insert ref (insert item (row v.reverseDeltas ref)) }

/-- `_set_delta_locked`.  The entry the source overwrites is erased first. -/
def setDeltaLocked (v : TrackerView H) (item : H) (delta : AttributeDelta H) : TrackerView H :=
  let (v, ref) := v.ensureRef delta.tail
  let refDelta := (v.deltaRefs.lookup ref).getD (.getNone delta.tail)
  (v.leaveGroup item (some ref)).joinGroup item (delta - refDelta) ref

/-- The accumulating loop of `get_delta_to_last`, with the hashes to update;
`none` when the rounds run out before the end of the chain. -/
def lastLoop (v : TrackerView H) (c : Forest H S) :
    Nat → AttributeDelta H → List (H × AttributeDelta H) →
      Option (AttributeDelta H × List (H × AttributeDelta H))
  | 0, _, _ => none
  | rounds + 1, delta, updates =>
    match c.current delta.tail with
    | none => some (delta, updates)
    | some _ =>
      lastLoop v c rounds (delta + v.getDeltaLocked c delta.tail)
        (updates ++ [(delta.tail, delta)])

/-- Write the intermediate results of a walk that ended in `delta`. -/
def storeUpdates (delta : AttributeDelta H) (v : TrackerView H)
    (updates : List (H × AttributeDelta H)) : TrackerView H :=
  updates.foldl (fun v update => v.setDeltaLocked update.1 (delta - update.2)) v

/-- `get_delta_to_last`.  The loop of the source has no bound; a round for each
share is enough (`getDeltaToLast_isSome`). -/
def getDeltaToLast (v : TrackerView H) (c : Forest H S) (item : H) :
    Option (AttributeDelta H × TrackerView H) :=
  (v.lastLoop c (c.size + 1) (.getNone item) []).map fun out =>
    (out.1, storeUpdates out.1 v out.2)

/-- `get_delta`: both walks, then their difference. -/
def getDelta (v : TrackerView H) (c : Forest H S) (item ancestor : H) :
    Option (AttributeDelta H × TrackerView H) :=
  (v.getDeltaToLast c item).bind fun out1 =>
    (out1.2.getDeltaToLast c ancestor).map fun out2 => (out1.1 - out2.1, out2.2)

def handleRemoved (v : TrackerView H) (hash : H) : TrackerView H :=
  v.leaveGroup hash none

/-- Drop the reference at `tail` and every item of its group. -/
def dropGroup (v : TrackerView H) (order : IterationOrder H) (tail : H) (ref : Nat) :
    TrackerView H :=
  { v with
    deltas := (order.list (row v.reverseDeltas ref)).foldl (fun m x => m.erase x) v.deltas
    reverseDeltas := v.reverseDeltas.erase ref
    deltaRefs := v.deltaRefs.erase ref
    reverseDeltaRefs := v.reverseDeltaRefs.erase tail }

/-- `handle_remove_special2`: drop the group whose chains end at the parent of
the removed share. -/
def handleRemoveSpecial2 (v : TrackerView H) (c : Forest H S) (order : IterationOrder H)
    (hash : H) : TrackerView H :=
  match v.reverseDeltaRefs.lookup (makeElementDelta c hash).tail with
  | none => v
  | some ref => v.dropGroup order (makeElementDelta c hash).tail ref

def refreshAll (c : Forest H S) (v : TrackerView H) (items : List H) : TrackerView H :=
  items.foldl (fun v x => ((v.getDeltaToLast c x).map Prod.snd).getD v) v

/-- Make the removed share itself the reference point of its parent's group. -/
def moveRefUp (v : TrackerView H) (delta : AttributeDelta H) (ref : Nat) : TrackerView H :=
  let curDelta := (v.deltaRefs.lookup ref).getD (.getNone default)
  { v with
    deltaRefs := v.deltaRefs.insert ref (curDelta - delta)
    reverseDeltaRefs := (v.reverseDeltaRefs.erase delta.tail).insert delta.head ref }

/-- The first half of `handle_remove_special`: items that refer to the removed
share itself are walked down to its parent's reference. -/
def refreshChildren (v : TrackerView H) (c : Forest H S) (order : IterationOrder H) (hash : H) :
    TrackerView H :=
  match v.reverseDeltaRefs.lookup hash with
  | none => v
  | some headRef => v.refreshAll c (order.list (row v.reverseDeltas headRef))

/-- The second half of `handle_remove_special`. -/
def moveTailRef (v : TrackerView H) (delta : AttributeDelta H) : TrackerView H :=
  match v.reverseDeltaRefs.lookup delta.tail with
  | none => v
  | some ref => v.moveRefUp delta ref

def handleRemoveSpecial (v : TrackerView H) (c : Forest H S) (order : IterationOrder H)
    (hash : H) : TrackerView H :=
  match v.reverseDeltaRefs.lookup (makeElementDelta c hash).tail with
  | none => v
  | some _ => (v.refreshChildren c order hash).moveTailRef (makeElementDelta c hash)

end TrackerView

end C2Pool.Sharechain
