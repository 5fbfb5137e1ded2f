import C2Pool.Sharechain.TrackerView

/-! # Pruning the share tracker

`ShareTracker` keeps two chains: `chain` owns the shares, and `verified` borrows those that passed
verification . Shares leave through three loops: the removal of bad shares in `think` (phase 1), the
eating of stale heads and the dropping of tails in `clean_tracker`. Every one of them ignores the
result of `verified.remove`; the model records it.
-/

namespace C2Pool.Ltc

open Sharechain FiniteMap

variable {H S : Type} [DecidableEq H] [Inhabited H]

structure Removal (H : Type) where
  hash : H
  borrowed : Bool
  fromVerified : Bool
  fromChain : Bool
deriving DecidableEq

/-- The two chains of `ShareTracker`, and the removals made so far. -/
structure Tracker (H S : Type) where
  chain : Forest H S
  verified : Forest H S
  removals : List (Removal H)

namespace Tracker

def empty : Tracker H S := ⟨.empty, .empty, []⟩

def add (t : Tracker H S) (data : ChainData H S) : Tracker H S :=
  if data.index.head ∈ t.chain.shares then t else { t with chain := t.chain.add data }

/-- `attempt_verify`; `passes` stands for its height guard and `verify_share`.
A hash that is not held makes `get_share` throw, which is a failure too. -/
def attemptVerify (passes : Tracker H S → H → Bool) (t : Tracker H S) (hash : H) :
    Bool × Tracker H S :=
  if hash ∈ t.verified.shares then (true, t)
  else
    match t.chain.shares.lookup hash with
    | none => (false, t)
    | some data =>
      if passes t hash then (true, { t with verified := t.verified.add data })
      else (false, t)

/-- `if (verified.contains(h)) verified.remove(h, false); chain.remove(h);` -/
def removeShare (t : Tracker H S) (hash : H) : Tracker H S :=
  let fromVerified :=
    if hash ∈ t.verified.shares then t.verified.remove hash else (false, t.verified)
  let fromChain := t.chain.remove hash
  { chain := fromChain.2
    verified := fromVerified.2
    removals := t.removals ++
      [⟨hash, decide (hash ∈ t.verified.shares), fromVerified.1, fromChain.1⟩] }

/-- The hashes of `get_chain(start, n)`. -/
def chainHashes (c : Forest H S) : Nat → H → List H
  | 0, _ => []
  | n + 1, cur =>
    match c.current cur with
    | none => []
    | some data => cur :: chainHashes c n data.index.tail

/-- `walk_count`: the whole chain of a rooted head, else at most five shares
beyond the chain length. -/
def walkCount (c : Forest H S) (chainLength : Nat) (head : H) : Nat :=
  if c.getLast head = default then c.getHeight head
  else min 5 (c.getHeight head - chainLength)

/-- The tracker, `bads` and `p1_budget_remaining`. -/
structure Phase1 (H S : Type) where
  tracker : Tracker H S
  bads : List H
  budget : Nat

/-- The walk down one head, up to the first share that verifies or until the
budget is spent. -/
def walkHead (passes : Tracker H S → H → Bool) : List H → Phase1 H S → Phase1 H S
  | [], p => p
  | hash :: rest, p =>
    let out := p.tracker.attemptVerify passes hash
    if out.1 then { p with tracker := out.2, budget := p.budget - 1 }
    else
      let p := ⟨out.2, p.bads ++ [hash], p.budget - 1⟩
      if p.budget = 0 then p else walkHead passes rest p

def visitHead (passes : Tracker H S → H → Bool) (chainLength : Nat) (p : Phase1 H S) (head : H) :
    Phase1 H S :=
  if p.budget = 0 then p
  else if head ∈ p.tracker.verified.heads then p
  else if head ∉ p.tracker.chain.shares then p
  else
    let walk := walkCount p.tracker.chain chainLength head
    walkHead passes (chainHashes p.tracker.chain walk head) p

def removeBad (t : Tracker H S) (bad : H) : Tracker H S :=
  if bad ∈ t.verified.shares then t
  else if bad ∉ t.chain.shares then t
  else t.removeShare bad

/-- Phase 1 of `think`, with its budgets of 100 and, at bootstrap, 20000. -/
def thinkPhase1 (passes : Tracker H S → H → Bool) (chainLength : Nat) (order : IterationOrder H)
    (bootstrap : Bool) (t : Tracker H S) : Tracker H S :=
  let p := (order.list t.chain.heads.keys).foldl (visitHead passes chainLength)
    ⟨t, [], if bootstrap then 20000 else 100⟩
  p.bads.foldl removeBad p.tracker

/-- One round of step 2: the heads that the policy does not retain.
`retained` stands for `head_retained`, which looks at scores and times. -/
def staleHeads (order : IterationOrder H) (retained : Tracker H S → H → Bool)
    (t : Tracker H S) : List H :=
  (order.list t.chain.heads.keys).filter fun h => h ∈ t.chain.shares ∧ ¬ retained t h

/-- Step 2, at most `rounds` rounds. -/
def eatHeads (order : IterationOrder H) (retained : Tracker H S → H → Bool) :
    Nat → Tracker H S → Tracker H S
  | 0, t => t
  | rounds + 1, t =>
    match staleHeads order retained t with
    | [] => t
    | h :: rest => eatHeads order retained rounds ((h :: rest).foldl removeShare t)

/-- `min_height` over the held heads of a tail; zero stands for none. -/
def minHeight (c : Forest H S) (heads : List H) : Nat :=
  heads.foldl (fun least h =>
    if h ∉ c.shares then least
    else if least = 0 ∨ c.getHeight h < least then c.getHeight h else least) 0

/-- One round of step 3: all children of the tails whose shortest chain is
long enough.  `spared` stands for the converging challenger's segment. -/
def afterTails (order : IterationOrder H) (chainLength : Nat) (spared : Tracker H S → H → Bool)
    (t : Tracker H S) : List H :=
  (order.list t.chain.tails.keys).flatMap fun tail =>
    if spared t tail then []
    else if minHeight t.chain (order.list (row t.chain.tails tail)) < 2 * chainLength + 10 then []
    else order.list (row t.chain.reverse tail)

def dropAfterTail (t : Tracker H S) (aftertail : H) : Tracker H S :=
  match t.chain.shares.lookup aftertail with
  | none => t
  | some data =>
    if data.index.tail ∉ t.chain.tails then t else t.removeShare aftertail

/-- Step 3, at most `rounds` rounds. -/
def dropTails (order : IterationOrder H) (chainLength : Nat) (spared : Tracker H S → H → Bool) :
    Nat → Tracker H S → Tracker H S
  | 0, t => t
  | rounds + 1, t =>
    match afterTails order chainLength spared t with
    | [] => t
    | h :: rest =>
      dropTails order chainLength spared rounds ((h :: rest).foldl dropAfterTail t)

inductive Op (H S : Type) where
  | add (data : ChainData H S)
  | verify (passes : Tracker H S → H → Bool) (hash : H)
  | think (passes : Tracker H S → H → Bool) (chainLength : Nat) (order : IterationOrder H)
      (bootstrap : Bool)
  | eatHeads (order : IterationOrder H) (retained : Tracker H S → H → Bool)
  | dropTails (order : IterationOrder H) (chainLength : Nat) (spared : Tracker H S → H → Bool)

def step (t : Tracker H S) : Op H S → Tracker H S
  | .add data => t.add data
  | .verify passes hash => (t.attemptVerify passes hash).2
  | .think passes chainLength order bootstrap => thinkPhase1 passes chainLength order bootstrap t
  | .eatHeads order retained => eatHeads order retained 1000 t
  | .dropTails order chainLength spared => dropTails order chainLength spared 1000 t

end Tracker

end C2Pool.Ltc
