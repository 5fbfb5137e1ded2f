import C2Pool.Ltc.DecayedWeights
import C2Pool.Ltc.Pruning
import C2Pool.Sharechain.Chain

/-! # The payout window carried along phase 2

Phase 2 of `think` needs, for each share of version 36, the decayed weights of the window below it.
It builds the window once, as a deque of entries, and then slides it one share deeper. Each result
goes into the cache of decayed weights without another check.
-/

namespace C2Pool.Ltc

open Sharechain FiniteMap

variable {H : Type} [DecidableEq H] [Inhabited H]

structure PPLNSEntry where
  att : UInt288
  donation : BitVec 16
  script : Script
deriving DecidableEq

def PPLNSEntry.ofShare (share : PayShare) : PPLNSEntry :=
  ⟨share.attempts, share.donation, share.script⟩

/-- `s_decay_table` after `init_decay_table`. -/
def decayTable (chainLen : Nat) : List Nat :=
  List.iterate (fun decay => mul128Shift decay (decayPer chainLen) 40) decayScale chainLen

/-- `rebuild`: at most `n` shares from `cur` on. -/
def rebuildRing (c : Forest H PayShare) : Nat → H → List PPLNSEntry
  | 0, _ => []
  | n + 1, cur =>
    match c.current cur with
    | none => []
    | some data => PPLNSEntry.ofShare data.share :: rebuildRing c n data.index.tail

def slideBackward (entries : List PPLNSEntry) (deeper : PPLNSEntry) : List PPLNSEntry :=
  entries.drop 1 ++ [deeper]

/-- The body of the loop of `compute_v36_weights`. -/
def weighEntry (decay : Nat) (result : CumulativeWeightsResult) (e : PPLNSEntry) :
    CumulativeWeightsResult :=
  let decayedAtt := (e.att * BitVec.ofNat 288 decay) >>> 40
  let addrW := decayedAtt * (65535 - e.donation.setWidth 288)
  let donW := decayedAtt * e.donation.setWidth 288
  ⟨result.weights.bump e.script addrW, result.totalWeight + (addrW + donW),
    result.totalDonationWeight + donW⟩

/-- The loop of `compute_v36_weights` from depth `d` on. -/
def weighFrom (table : List Nat) : Nat → List PPLNSEntry → CumulativeWeightsResult →
    CumulativeWeightsResult
  | _, [], result => result
  | d, e :: entries, result =>
    weighFrom table (d + 1) entries (weighEntry (table.getD d 0) result e)

def computeV36Weights (chainLen : Nat) (entries : List PPLNSEntry) : CumulativeWeightsResult :=
  weighFrom (decayTable chainLen) 0 entries ⟨[], 0, 0⟩

/-- What the loop asks of the rest of the node: the version of a held share, the skip lengths, the
wall clock after so many shares, whether a share is verified already, and `attempt_verify`. -/
structure Phase2Env (H : Type) where
  version : H → Nat
  draw : H → Nat
  wallExceeded : Nat → Bool
  alreadyVerified : H → Bool
  attemptVerify : H → Bool
  isChallenger : Bool

/-- A call of `prime_pplns_cache` when `p2_verified_count` is `share`, with the ring it was made
from. -/
structure PrimeCall (H : Type) where
  share : Nat
  start : H
  ring : List PPLNSEntry
  weights : CumulativeWeightsResult

/-- The chain, the ring once `pplns_active`, the calls made, and the counters of the loop. -/
structure Phase2 (H : Type) where
  chain : ShareChain H PayShare
  ring : Option (List PPLNSEntry)
  calls : List (PrimeCall H)
  verifiedCount : Nat
  budgetRemaining : Nat
  elevatedRemaining : Nat

section

variable (chainLength : Nat) (env : Phase2Env H)

/-- The ring moved to `prevHash`: built on first use, else slid one step or built again. -/
def moveRing (p : Phase2 H) (prevHash : H) : Phase2 H :=
  match p.ring with
  | none => { p with ring := some (rebuildRing p.chain.forest chainLength prevHash) }
  | some entries =>
    if entries.length = 0 then p
    else
      let out := p.chain.getNthParentViaSkip env.draw prevHash
        (min (entries.length - 1) (chainLength - 1))
      match out.2.forest.current out.1 with
      | some data =>
        { p with
          chain := out.2
          ring := some (slideBackward entries (PPLNSEntry.ofShare data.share)) }
      | none =>
        { p with
          chain := out.2
          ring := some (rebuildRing p.chain.forest chainLength prevHash) }

/-- `prime_pplns_cache` with the weights of the ring, unless it is empty. -/
def primeFromRing (p : Phase2 H) (prevHash : H) : Phase2 H :=
  match p.ring with
  | some (e :: entries) =>
    { p with calls := p.calls ++ [⟨p.verifiedCount, prevHash, e :: entries,
        computeV36Weights chainLength (e :: entries)⟩] }
  | _ => p

def primeShare (p : Phase2 H) (hash : H) (data : ChainData H PayShare) : Phase2 H :=
  let prevHash := data.index.tail
  if 36 ≤ env.version hash ∧ (p.chain.forest.current prevHash).isSome then
    primeFromRing chainLength (moveRing chainLength env p prevHash) prevHash
  else p

/-- The counters after a share was verified. -/
def spend (p : Phase2 H) (hash : H) : Phase2 H :=
  let p := { p with verifiedCount := p.verifiedCount + 1 }
  if env.alreadyVerified hash then p
  else if 0 < p.budgetRemaining then { p with budgetRemaining := p.budgetRemaining - 1 }
  else if env.isChallenger ∧ 0 < p.elevatedRemaining then
    { p with elevatedRemaining := p.elevatedRemaining - 1 }
  else p

/-- The loop over `chain_view`. -/
def verifyLoop : List H → Phase2 H → Phase2 H
  | [], p => p
  | hash :: rest, p =>
    match p.chain.forest.shares.lookup hash with
    | none => p
    | some data =>
      if ¬ (0 < p.budgetRemaining ∨ env.isChallenger ∧ 0 < p.elevatedRemaining) then p
      else if p.verifiedCount % 8 = 0 ∧ env.wallExceeded p.verifiedCount then p
      else
        let p := primeShare chainLength env p hash data
        if env.attemptVerify hash then verifyLoop rest (spend env p hash) else p

/-- The verification of a head's segment: `get_chain(last_hash, to_get)` and the loop over it. -/
def carryForward (chain : ShareChain H PayShare) (lastHash : H) (toGet budget elevated : Nat) :
    Phase2 H :=
  verifyLoop chainLength env (Tracker.chainHashes chain.forest toGet lastHash)
    ⟨chain, none, [], 0, budget, elevated⟩

end

end C2Pool.Ltc
