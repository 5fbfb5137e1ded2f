import C2Pool.Ltc.DecayedWeights
import C2Pool.Sharechain.Chain

/-! # Merged-mining payouts

`get_merged_expected_payouts`: the subsidy of an auxiliary chain is split by the weights of the
shares below the best one. A share that names no address for the chain is credited to the address
that the same miner gave in another share. The first address registered under a script stays; a new
one drops the skip list of its chain.
-/

namespace C2Pool.Ltc

open Sharechain FiniteMap

/-- `normalize_script_for_merged`; the empty script is unconvertible. -/
def normalizeScriptForMerged (script : Script) : Script :=
  if script.length = 25 ∧ script.take 3 = [0x76, 0xa9, 0x14] ∧ script.drop 23 = [0x88, 0xac] then
    script
  else if script.length = 22 ∧ script.take 2 = [0x00, 0x14] then
    [0x76, 0xa9, 0x14] ++ script.drop 2 ++ [0x88, 0xac]
  else if script.length = 23 ∧ script.take 2 = [0xa9, 0x14] ∧ script.drop 22 = [0x87] then script
  else []

def mergedKeyPrefix : Script := [0x4d, 0x45, 0x52, 0x47, 0x45, 0x44, 0x3a]

def makeMergedKey (script : Script) : Script := mergedKeyPrefix ++ script

def isMergedKey (key : Script) : Bool :=
  7 < key.length && key.take 7 == mergedKeyPrefix

def resolveMergedPayoutScript (key : Script) : Script :=
  if isMergedKey key then key.drop 7 else normalizeScriptForMerged key

abbrev ChainId := BitVec 32

structure MergedAddressEntry where
  chainId : ChainId
  script : Script
deriving DecidableEq

/-- What the merged payouts read of a share; share versions without merged
addresses have `none`. -/
structure MergedShare where
  pay : PayShare
  desiredVersion : BitVec 64
  mergedAddresses : Option (List MergedAddressEntry)
deriving DecidableEq

/-- `m_miner_merged_addr`, keyed by chain and parent script at once. -/
abbrev MinerMergedAddr := FiniteMap (ChainId × Script) Script

def MinerMergedAddr.probe (table : MinerMergedAddr) (chainId : ChainId) (parent : Script) :
    Option Script :=
  match table.lookup (chainId, parent) with
  | some script => some script
  | none =>
    if normalizeScriptForMerged parent ≠ [] ∧ normalizeScriptForMerged parent ≠ parent then
      table.lookup (chainId, normalizeScriptForMerged parent)
    else none

/-- The weight key of a share: its explicit address for the chain, the
remembered one, or its parent script. -/
def weightKey (table : MinerMergedAddr) (chainId : ChainId) (share : MergedShare) : Script :=
  match share.mergedAddresses with
  | none => share.pay.script
  | some entries =>
    match entries.find? fun e => e.chainId = chainId with
    | some e => makeMergedKey e.script
    | none =>
      match table.probe chainId share.pay.script with
      | some script => makeMergedKey script
      | none => share.pay.script

/-- `merged_weights_delta` for a chain. -/
def mergedWeightsDelta (table : MinerMergedAddr) (chainId : ChainId) (share : MergedShare) :
    WeightsDelta :=
  if share.desiredVersion < 36 ∨ share.pay.script = [] then ⟨1, [], 0, 0⟩
  else
    let att := share.pay.attempts
    ⟨1, [(weightKey table chainId share, att * (65535 - share.pay.donation.setWidth 288))],
      att * 65535, att * share.pay.donation.setWidth 288⟩

/-- `MergedPayoutWeights`; `resolved` has one entry per script, in no
particular order. -/
structure MergedPayoutWeights where
  totalWeight : UInt288
  donationWeight : UInt288
  resolved : Tally Script UInt288
  acceptedTotal : UInt288

/-- The operator's own script, if both halves are given, and else the resolved
script of a weight key. -/
def payoutScript (operatorLtc operatorMerged key : Script) : Script :=
  if operatorLtc ≠ [] ∧ operatorMerged ≠ [] ∧ key = operatorLtc then operatorMerged
  else resolveMergedPayoutScript key

/-- The second half of `get_merged_payout_weights`. -/
def resolveWeights (operatorLtc operatorMerged : Script) (w : CumulativeWeightsResult) :
    MergedPayoutWeights where
  totalWeight := w.totalWeight
  donationWeight := w.totalDonationWeight
  resolved := w.weights.foldl (fun acc e =>
    if payoutScript operatorLtc operatorMerged e.1 = [] then acc
    else acc.bump (payoutScript operatorLtc operatorMerged e.1) e.2) []
  acceptedTotal := w.weights.foldl (fun acc e =>
    if payoutScript operatorLtc operatorMerged e.1 = [] then acc else acc + e.2) 0

/-- `std::map<script, uint64_t>`. -/
abbrev Payouts := FiniteMap Script (BitVec 64)

def payAmount (reward : BitVec 64) (accepted weight : UInt288) : BitVec 64 :=
  if accepted = 0 then 0 else (reward.setWidth 288 * weight / accepted).setWidth 64

/-- One round of the second pass, on the payouts and `total_distributed`. -/
def payOne (reward : BitVec 64) (accepted : UInt288) (acc : Payouts × BitVec 64)
    (e : Script × UInt288) : Payouts × BitVec 64 :=
  if payAmount reward accepted e.2 = 0 then acc
  else
    (acc.1.insert e.1 ((acc.1.lookup e.1).getD 0 + payAmount reward accepted e.2),
      acc.2 + payAmount reward accepted e.2)

def largestPayout (result : Payouts) : WithBot (Nat ×ₗ Script) :=
  result.keys.sup fun s => ((toLex (((result.lookup s).getD 0).toNat, s) : Nat ×ₗ Script) :
    WithBot (Nat ×ₗ Script))

def enforceDonation (subsidy : BitVec 64) (result : Payouts) (donation : BitVec 64) :
    Payouts × BitVec 64 :=
  if donation = 0 ∧ subsidy.toNat < 2 ^ 63 then
    match largestPayout result with
    | none => (result, donation)
    | some largest =>
      (result.insert (ofLex largest).2
        ((result.lookup (ofLex largest).2).getD 0 - 1), donation + 1)
  else (result, donation)

def settleDonation (subsidy donationAmount : BitVec 64) (donationScript : Script)
    (paid : Payouts × BitVec 64) : Payouts :=
  let minersReward := subsidy - donationAmount
  let remainder := if paid.2 ≤ minersReward then minersReward - paid.2 else 0
  let final := enforceDonation subsidy paid.1 (donationAmount + remainder)
  final.1.insert donationScript ((final.1.lookup donationScript).getD 0 + final.2)

def mergedPayoutsFromWeights (w : MergedPayoutWeights) (subsidy : BitVec 64)
    (donationScript : Script) : Payouts :=
  if w.totalWeight = 0 ∨ subsidy = 0 then ∅
  else
    let donationAmount : BitVec 64 :=
      if w.donationWeight = 0 then 0
      else (subsidy.setWidth 288 * w.donationWeight / w.totalWeight).setWidth 64
    settleDonation subsidy donationAmount donationScript
      (w.resolved.foldl (payOne (subsidy - donationAmount) w.acceptedTotal) (∅, 0))

variable {H : Type} [DecidableEq H] [Inhabited H]

/-- `chain`, `m_miner_merged_addr` and `m_merged_skiplists`; a chain without a
skip list has an empty one. -/
structure MergedTracker (H : Type) where
  chain : Forest H MergedShare
  addr : MinerMergedAddr
  skips : ChainId → WeightsSkipList H

namespace MergedTracker

def empty : MergedTracker H := ⟨.empty, ∅, fun _ => ∅⟩

/-- `lookup.emplace`: the first mapping stays. -/
def emplace (table : MinerMergedAddr) (key : ChainId × Script) (script : Script) :
    MinerMergedAddr :=
  if key ∈ table then table else table.insert key script

def registerKeys (parent : Script) : List Script :=
  if normalizeScriptForMerged parent ≠ [] ∧ normalizeScriptForMerged parent ≠ parent then
    [parent, normalizeScriptForMerged parent]
  else [parent]

/-- One entry of `try_register_merged_addr`. -/
def registerEntry (parent : Script) (t : MergedTracker H) (e : MergedAddressEntry) :
    MergedTracker H :=
  if e.script = [] then t
  else
    let addr := (registerKeys parent).foldl (fun table k => emplace table (e.chainId, k) e.script)
      t.addr
    let anyNew := ∃ k ∈ registerKeys parent, (e.chainId, k) ∉ t.addr
    { t with
      addr := addr
      skips := if anyNew then Function.update t.skips e.chainId ∅ else t.skips }

def tryRegisterMergedAddr (t : MergedTracker H) (share : MergedShare) : MergedTracker H :=
  if share.desiredVersion < 36 ∨ share.pay.script = [] then t
  else (share.mergedAddresses.getD []).foldl (registerEntry share.pay.script) t

def add (t : MergedTracker H) (data : ChainData H MergedShare) : MergedTracker H :=
  if data.index.head ∈ t.chain.shares then t
  else
    let t := t.tryRegisterMergedAddr data.share
    { t with chain := t.chain.add data }

/-- `merged_weights_delta_for_hash`. -/
def getDelta (t : MergedTracker H) (chainId : ChainId) (hash : H) : WeightsDelta :=
  match t.chain.shares.lookup hash with
  | some data => mergedWeightsDelta t.addr chainId data.share
  | none => default

def realChainLength (testnet : Bool) : Nat := if testnet then 400 else 8640

def chainLen (testnet : Bool) (t : MergedTracker H) (best : H) : Nat :=
  min (t.chain.getHeight best) (realChainLength testnet)

/-- `get_merged_cumulative_weights` with the window of the payouts. -/
def cumulativeWeights (testnet : Bool) (t : MergedTracker H) (draw : H → Nat) (best : H)
    (chainId : ChainId) : CumulativeWeightsResult × MergedTracker H :=
  let out := (t.skips chainId).query (ShareChain.previous t.chain) (t.getDelta chainId) draw best
    (t.chainLen testnet best) DecayTracker.unlimited
  (out.1, { t with skips := Function.update t.skips chainId out.2 })

/-- `get_merged_expected_payouts`. -/
def expectedPayouts (testnet : Bool) (t : MergedTracker H) (draw : H → Nat) (best : H)
    (subsidy : BitVec 64) (chainId : ChainId)
    (donationScript operatorLtc operatorMerged : Script) : Payouts :=
  mergedPayoutsFromWeights
    (resolveWeights operatorLtc operatorMerged (t.cumulativeWeights testnet draw best chainId).1)
    subsidy donationScript

/-- Additions, and payouts computed in between. -/
inductive Op (H : Type) where
  | add (data : ChainData H MergedShare)
  | payouts (draw : H → Nat) (best : H) (chainId : ChainId)

def step (testnet : Bool) (t : MergedTracker H) : Op H → MergedTracker H
  | .add data => t.add data
  | .payouts draw best chainId => (t.cumulativeWeights testnet draw best chainId).2

end MergedTracker

end C2Pool.Ltc
