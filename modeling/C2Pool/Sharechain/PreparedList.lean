import C2Pool.Lib.PreorderWalk
import C2Pool.Sharechain.TrackerView

/-! # Sorting a batch of shares

`PreparedList` turns a batch of shares into trees of nodes linked by previous hash and lists them
with parents before children. Nodes are named by the place of their allocation; maps and sets
iterate in an order the model leaves open. `none` is an exception, a null pointer followed, or a
loop that does not end within its rounds.
-/

namespace C2Pool.Sharechain

open FiniteMap

/-- What the list reads of a share: `hash()` and `prev_hash()`. -/
structure BatchItem (H S : Type) where
  hash : H
  prevHash : H
  share : S
deriving DecidableEq

structure PreparedNode (H S : Type) where
  value : BatchItem H S
  prevNode : Option Nat
  nextNodes : Finset Nat

/-- `PreparedList`: the allocated nodes, `nodes` and `branch_tails`. -/
structure PreparedList (H S : Type) where
  heap : List (PreparedNode H S)
  nodes : FiniteMap H Nat
  branchTails : FiniteMap H (Finset Nat)

variable {H S : Type} [DecidableEq H]

namespace PreparedList

def empty : PreparedList H S := ⟨[], ∅, ∅⟩

def makeNode (p : PreparedList H S) (val : BatchItem H S) : Nat × PreparedList H S :=
  (p.heap.length,
    { p with
      heap := p.heap ++ [⟨val, none, ∅⟩]
      nodes := p.nodes.insert val.hash p.heap.length })

/-- `parent->next_nodes.insert(child); child->prev_node = parent`. -/
def link (p : PreparedList H S) (parent child : Nat) : PreparedList H S :=
  { p with
    heap := (p.heap.modify parent fun node =>
      { node with nextNodes := insert child node.nextNodes }).modify child fun node =>
        { node with prevNode := some parent } }

/-- `merge_nodes`; both branches return the first node. -/
def mergeNodes (p : PreparedList H S) (n1 n2 : Nat) : Option (Nat × PreparedList H S) :=
  match p.heap[n1]?, p.heap[n2]? with
  | some a, some b =>
    if a.value.hash = b.value.prevHash then some (n1, p.link n1 n2)
    else if b.value.hash = a.value.prevHash then some (n1, p.link n2 n1)
    else none
  | _, _ => none

/-- `branch_tails[key].insert(node)`. -/
def putTail (p : PreparedList H S) (key : H) (node : Nat) : PreparedList H S :=
  { p with branchTails := p.branchTails.insert key (insert node (row p.branchTails key)) }

/-- `while (new_tail->prev_node) new_tail = new_tail->prev_node`. -/
def firstNode (p : PreparedList H S) : Nat → Nat → Option Nat
  | 0, _ => none
  | rounds + 1, node =>
    match p.heap[node]? with
    | none => none
    | some n =>
      match n.prevNode with
      | none => some node
      | some prev => firstNode p rounds prev

end PreparedList

/-- The list under construction and the two local maps of `add`. -/
structure BatchState (H S : Type) where
  list : PreparedList H S
  items : FiniteMap H (BatchItem H S)
  tails : FiniteMap H (List (BatchItem H S))

namespace BatchState

/-- The body of the first loop of `add`. -/
def enlist (s : BatchState H S) (it : BatchItem H S) : BatchState H S :=
  { s with
    items := s.items.insert it.hash it
    tails := s.tails.insert it.prevHash (((s.tails.lookup it.prevHash).getD []) ++ [it]) }

/-- The item before `node` becomes a node of its own and the parent of `node`. -/
def attachParent (s : BatchState H S) (node : Nat) (key : H) (it : BatchItem H S) :
    Option (BatchState H S × Nat) :=
  let made := s.list.makeNode it
  (made.2.mergeNodes made.1 node).map fun merged =>
    (⟨merged.2, s.items.erase key, s.tails⟩, made.1)

def growLeft : Nat → BatchState H S → Nat → Option (BatchState H S × Nat)
  | 0, _, _ => none
  | rounds + 1, s, tail =>
    match s.list.heap[tail]? with
    | none => none
    | some node =>
      match s.items.lookup node.value.prevHash with
      | none => some (s, tail)
      | some it =>
        (s.attachParent tail node.value.prevHash it).bind fun out =>
          growLeft rounds out.1 out.2

/-- The loop over `right_entries`; the last `merged_head` is returned. -/
def attachChildren (s : BatchState H S) (head : Nat) :
    List (BatchItem H S) → Option Nat → Option (BatchState H S × Option Nat)
  | [], mergedHead => some (s, mergedHead)
  | it :: rest, _ =>
    let made := s.list.makeNode it
    (made.2.mergeNodes made.1 head).bind fun merged =>
      attachChildren ⟨merged.2, s.items.erase it.hash, s.tails⟩ head rest (some merged.1)

def growRight : Nat → BatchState H S → Nat → Option (BatchState H S × Nat)
  | 0, _, _ => none
  | rounds + 1, s, head =>
    match s.list.heap[head]? with
    | none => none
    | some node =>
      match s.tails.lookup node.value.hash with
      | none => some (s, head)
      | some entries =>
        (attachChildren { s with tails := s.tails.erase node.value.hash } head entries
          none).bind fun out =>
            out.2.bind fun mergedHead => growRight rounds out.1 mergedHead

def branchStart (s : BatchState H S) (head : Nat) : Option Nat → Option Nat
  | some tail => some tail
  | none => s.list.firstNode (s.list.heap.length + 1) head

/-- The end of the loop body: the first node of the branch is entered in `branch_tails`. -/
def closeBranch (s : BatchState H S) (head : Nat) (tail : Option Nat) : Option (BatchState H S) :=
  (s.branchStart head tail).bind fun first =>
    (s.list.heap[first]?).map fun node =>
      { s with list := s.list.putTail node.value.prevHash first }

/-- The body of `while (!items.empty())` for the item that was drawn. -/
def growBranch (s : BatchState H S) (it : BatchItem H S) : Option (BatchState H S) :=
  let made := s.list.makeNode it
  let s : BatchState H S := ⟨made.2, s.items.erase it.hash, s.tails⟩
  let left : Option (BatchState H S × Option Nat) :=
    match s.items.lookup it.prevHash with
    | none => some (s, none)
    | some parent =>
      (s.attachParent made.1 it.prevHash parent).bind fun out =>
        (growLeft (out.1.items.keys.card + 1) out.1 out.2).map fun out =>
          (out.1, some out.2)
  left.bind fun left =>
    (growRight (left.1.tails.keys.card + 1) left.1 made.1).bind fun right =>
      right.1.closeBranch right.2 left.2

/-- `while (!items.empty())`; `order` decides which item `items.begin()` is. -/
def growBranches (order : IterationOrder H) : Nat → BatchState H S → Option (BatchState H S)
  | 0, _ => none
  | rounds + 1, s =>
    match (order.list s.items.keys).head? with
    | none => some s
    | some hash =>
      (s.items.lookup hash).bind fun it =>
        (s.growBranch it).bind fun s => growBranches order rounds s

end BatchState

namespace PreparedList

def mergeTails (p : PreparedList H S) (node : Nat) : List Nat → Option (PreparedList H S)
  | [] => some p
  | tail :: rest => (p.mergeNodes node tail).bind fun merged => merged.2.mergeTails node rest

/-- The last pass over `branch_tails`, with the keys to be removed. -/
def mergeBranches (places : IterationOrder Nat) (p : PreparedList H S) :
    List H → Option (PreparedList H S)
  | [] => some p
  | key :: rest =>
    match p.nodes.lookup key with
    | none => mergeBranches places p rest
    | some node =>
      (p.mergeTails node (places.list (row p.branchTails key))).bind fun p =>
        mergeBranches places p rest

/-- `branch_tails.erase(k)` for the keys that were merged. -/
def dropMerged (p : PreparedList H S) (keys : List H) : PreparedList H S :=
  { p with
    branchTails := (keys.filter fun key => key ∈ p.nodes).foldl (fun m key => m.erase key)
      p.branchTails }

/-- `add` on an empty list, with the key order of the maps and the address order of the nodes. -/
def add (order : IterationOrder H) (places : IterationOrder Nat)
    (values : List (BatchItem H S)) : Option (PreparedList H S) :=
  let s : BatchState H S := values.foldl BatchState.enlist ⟨empty, ∅, ∅⟩
  (s.growBranches order (values.length + 1)).bind fun s =>
    let keys := order.list s.list.branchTails.keys
    (s.list.mergeBranches places keys).map fun p => p.dropMerged keys

/-- `update_stack`; the top of the stack is the head of the list. -/
def updateStack (places : IterationOrder Nat) (p : PreparedList H S) :
    Nat → Nat → List Nat → Option (List Nat)
  | 0, _, _ => none
  | rounds + 1, node, stack =>
    (p.heap[node]?).bind fun n =>
      (places.list n.nextNodes).foldlM (fun stack next => updateStack places p rounds next stack)
        (node :: stack)

/-- `build_list`. The stack is popped into a vector and the vector is reversed. -/
def buildList (order : IterationOrder H) (places : IterationOrder Nat) (p : PreparedList H S) :
    Option (List (BatchItem H S)) :=
  let roots := (order.list p.branchTails.keys).flatMap fun key =>
    places.list (row p.branchTails key)
  (roots.foldlM (fun stack node => p.updateStack places (p.heap.length + 1) node stack) []).bind
    fun stack => (stack.mapM fun node => (p.heap[node]?).map fun n => n.value).map List.reverse

end PreparedList

end C2Pool.Sharechain
