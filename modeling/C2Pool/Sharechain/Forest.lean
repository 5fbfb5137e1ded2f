import C2Pool.Lib.FiniteMap
import C2Pool.Lib.ParentForest
import C2Pool.Lib.Run

/-! # The share forest

The four tables of `ShareChain` (`sharechain.hpp`): the held shares, the reverse child map, the
heads with the hash each one's chain ends at, and the tails with the heads that end there. A hash is
null when it is `hash_t()`, the default. The signals fired by `remove` are reported as the branch
that was taken.
-/

namespace C2Pool.Sharechain

open ParentForest FiniteMap

abbrev UInt288 := BitVec 288

/-- `ShareIndex`: the share's own hash, its previous hash and its per-share
work values. -/
structure ShareIndex (H : Type) where
  head : H
  tail : H
  work : UInt288
  minWork : UInt288
deriving DecidableEq

/-- `chain_data`: the index of a share and the share itself. -/
structure ChainData (H S : Type) where
  index : ShareIndex H
  share : S
deriving DecidableEq

/-- The tables `m_shares`, `m_reverse`, `m_heads` and `m_tails`. -/
structure Forest (H S : Type) where
  shares : FiniteMap H (ChainData H S)
  reverse : FiniteMap H (Finset H)
  heads : FiniteMap H H
  tails : FiniteMap H (Finset H)

/-- The branch of `remove` that was taken.  `soleChild` fires
`remove_special`, `forkRoot` fires `remove_special2`. -/
inductive RemoveBranch where
  | bridge
  | sibling
  | promote
  | soleChild
  | forkRoot
deriving DecidableEq, Repr

namespace Forest

variable {H S : Type} [DecidableEq H] [Inhabited H]

def empty : Forest H S := ⟨∅, ∅, ∅, ∅⟩

def size (c : Forest H S) : Nat := c.shares.keys.card

/-- The previous hash of a held share. -/
def parent (c : Forest H S) (x : H) : Option H :=
  (c.shares.lookup x).map fun data => data.index.tail

/-- The share a walk stands on: the loops all test `!cur.IsNull()` before the
table. -/
def current (c : Forest H S) (cur : H) : Option (ChainData H S) :=
  if cur = default then none else c.shares.lookup cur

/-- The loop of `get_last`; the count is the number of rounds its cycle guard
still allows. -/
def getLastLoop (c : Forest H S) : Nat → H → H
  | 0, cur => cur
  | rounds + 1, cur =>
    match c.current cur with
    | none => cur
    | some data => getLastLoop c rounds data.index.tail

/-- `get_last`: the guard `++steps > 100000` breaks in round 100001. -/
def getLast (c : Forest H S) (hash : H) : H :=
  getLastLoop c 100001 hash

def getHeightLoop (c : Forest H S) : Nat → H → Nat
  | 0, _ => 0
  | rounds + 1, cur =>
    match c.current cur with
    | none => 0
    | some data => getHeightLoop c rounds data.index.tail + 1

/-- `get_height`: the cycle guard breaks once the count passes `size()`. -/
def getHeight (c : Forest H S) (hash : H) : Nat :=
  getHeightLoop c (c.size + 1) hash

/-- `get_nth_parent_key`; `none` is its `invalid_argument` exception. -/
def getNthParentKey (c : Forest H S) : Nat → H → Option H
  | 0, cur => some cur
  | n + 1, cur =>
    match c.current cur with
    | none => none
    | some data => getNthParentKey c n data.index.tail

/-- `is_child_of`.  The last walk is never longer than the height measured
before it, so it does not throw (`getNthParentKey_isSome_of_le_getHeight`). -/
def isChildOf (c : Forest H S) (item possibleChild : H) : Bool :=
  if item = possibleChild then true
  else if c.getLast item ≠ c.getLast possibleChild then false
  else
    let heightUp : Int := (c.getHeight possibleChild : Int) - c.getHeight item
    heightUp ≥ 0 && c.getNthParentKey heightUp.toNat possibleChild == some item

/-- Step 1 of `calculate_head_tail`: the heads above a hash that is already a
tail, else the new share alone. -/
def headsSet (c : Forest H S) (head : H) : Finset H :=
  match c.tails.lookup head with
  | some above => above
  | none => {head}

/-- Step 2 of `calculate_head_tail`: the deep tail of a current head, else the
end of the walk from the previous hash. -/
def resolvedTail (c : Forest H S) (tail : H) : H :=
  match c.heads.lookup tail with
  | some deep => deep
  | none => c.getLast tail

/-- `calculate_head_tail`.  Erasing a key that is absent changes nothing, so
the two guarded erasures of steps 1 and 2 and the one of step 3 are plain. -/
def calculateHeadTail (c : Forest H S) (head tail : H) : Forest H S :=
  let headsSet := c.headsSet head
  let resolvedTail := c.resolvedTail tail
  let tails := c.tails.erase head
  let tails := tails.insert resolvedTail (row tails resolvedTail ∪ headsSet)
  let tails := tails.insert resolvedTail ((row tails resolvedTail).erase tail)
  { c with heads := assignAll headsSet resolvedTail (c.heads.erase tail), tails := tails }

def add (c : Forest H S) (data : ChainData H S) : Forest H S :=
  let hash := data.index.head
  let prev := data.index.tail
  let c := c.calculateHeadTail hash prev
  { c with
    shares := c.shares.insert hash data
    reverse := c.reverse.insert prev (insert hash (row c.reverse prev)) }

/-- `if (m[k].empty()) m.erase(k)`. -/
def dropIfEmpty (m : FiniteMap H (Finset H)) (k : H) : FiniteMap H (Finset H) :=
  if row m k = ∅ then m.erase k else m

/-- The four-branch logic of `remove` on the head and tail tables. -/
def removeBranch (c : Forest H S) (hash shareTail : H) :
    Option (RemoveBranch × FiniteMap H H × FiniteMap H (Finset H)) :=
  match c.heads.lookup hash with
  | some tail =>
    let heads := c.heads.erase hash
    let tails := c.tails.insert tail ((row c.tails tail).erase hash)
    if shareTail ∈ c.tails then
      some (.bridge, heads, dropIfEmpty tails shareTail)
    else if (row c.reverse shareTail).card = 1 ∧ hash ∈ row c.reverse shareTail then
      some (.promote, heads.insert shareTail tail,
        tails.insert tail (insert shareTail (row tails tail)))
    else
      some (.sibling, heads, dropIfEmpty tails tail)
  | none =>
    if shareTail ∈ c.tails then
      if (row c.reverse shareTail).card ≤ 1 then
        let headsAbove := row c.tails shareTail
        some (.soleChild, assignAll headsAbove hash c.heads,
          (c.tails.erase shareTail).insert hash headsAbove)
      else
        let myHeads := (row c.tails shareTail).filter fun h => c.isChildOf hash h
        let tails := c.tails.insert shareTail (row c.tails shareTail \ myHeads)
        some (.forkRoot, assignAll myHeads hash c.heads,
          (dropIfEmpty tails shareTail).insert hash myHeads)
    else none

/-- Take `hash` out of its parent's row of the reverse map. -/
def detachChild (reverse : FiniteMap H (Finset H)) (shareTail hash : H) : FiniteMap H (Finset H) :=
  if shareTail ∈ reverse then
    dropIfEmpty (reverse.insert shareTail ((row reverse shareTail).erase hash)) shareTail
  else reverse

/-- The body of `remove`; `none` is a `return false`. -/
def tryRemove (c : Forest H S) (hash : H) : Option (RemoveBranch × Forest H S) :=
  match c.shares.lookup hash with
  | none => none
  | some data =>
    match c.removeBranch hash data.index.tail with
    | none => none
    | some (branch, heads, tails) =>
      some (branch,
        { shares := c.shares.erase hash
          reverse := detachChild c.reverse data.index.tail hash
          heads := heads
          tails := tails })

def remove (c : Forest H S) (hash : H) : Bool × Forest H S :=
  match c.tryRemove hash with
  | none => (false, c)
  | some (_, c') => (true, c')

end Forest

end C2Pool.Sharechain
