import C2Pool.Lib.AmountMap
import C2Pool.Ltc.MergedPayouts

/-! # The amounts of a share's coinbase

The second and third step of `generate_share_transaction`: PPLNS weights become payouts,
the rest of the subsidy is the donation, and the outputs are sorted and cut to the 4000
largest ones.
-/

namespace C2Pool.Ltc

open Sharechain FiniteMap AmountMap

def shareAmount (v36 : Bool) (subsidy : BitVec 64) (totalWeight weight : UInt288) : BitVec 64 :=
  if v36 then (subsidy.setWidth 288 * weight / totalWeight).setWidth 64
  else (subsidy.setWidth 288 * (weight * 199) / (totalWeight * 200)).setWidth 64

def weighAmounts (v36 : Bool) (subsidy : BitVec 64) (totalWeight : UInt288)
    (weights : FiniteMap Script UInt288) : Payouts :=
  if totalWeight = 0 then ∅
  else
    weights.keys.sort.foldl (fun amounts s =>
      let amount := shareAmount v36 subsidy totalWeight ((weights.lookup s).getD 0)
      if 0 < amount then amounts.insert s amount else amounts) ∅

def payAmounts (v36 : Bool) (subsidy : BitVec 64) (totalWeight : UInt288)
    (weights : FiniteMap Script UInt288) (finderScript : Script) : Payouts :=
  let amounts := weighAmounts v36 subsidy totalWeight weights
  if v36 then amounts
  else amounts.insert finderScript ((amounts.lookup finderScript).getD 0 + subsidy / 200)

/-- `sum_amounts`, in 64 bits. -/
def sumAmounts (amounts : Payouts) : BitVec 64 :=
  (amounts.keys.sort.map fun s => (amounts.lookup s).getD 0).sum

def takeDonation (v36 : Bool) (subsidy : BitVec 64) (amounts : Payouts) : Payouts × BitVec 64 :=
  let sum := sumAmounts amounts
  let donation := if sum < subsidy then subsidy - sum else 0
  if v36 ∧ donation < 1 ∧ 0 < subsidy then
    match largestPayout amounts with
    | none => (amounts, donation)
    | some largest =>
      if 0 < (ofLex largest).1 then
        (amounts.insert (ofLex largest).2 ((amounts.lookup (ofLex largest).2).getD 0 - 1),
          subsidy - (sum - 1))
      else (amounts, donation)
  else (amounts, donation)

structure CoinbaseOutputs where
  payouts : List (Script × BitVec 64)
  donation : BitVec 64
deriving DecidableEq

def buildPayoutOutputsExcludingDonation (amounts : Payouts) (combined p2pk : Script)
    (donation : BitVec 64) : CoinbaseOutputs :=
  { payouts := ((amounts.keys.erase combined).erase p2pk).sort.map fun s =>
      (s, (amounts.lookup s).getD 0)
    donation := donation + (amounts.lookup combined).getD 0 }

def payoutLess (a b : Script × BitVec 64) : Bool :=
  if a.2 ≠ b.2 then a.2 < b.2 else a.1 < b.1

def maxOutputs : Nat := 4000

def keepLargest (payouts : List (Script × BitVec 64)) : List (Script × BitVec 64) :=
  let sorted := payouts.mergeSort fun a b => !payoutLess b a
  sorted.drop (sorted.length - maxOutputs)

/-- What `generate_share_transaction` reads of a share and its parameters for the amounts. -/
structure ShareTerms where
  version : Int
  subsidy : BitVec 64
  finderScript : Script
  combinedDonationScript : Script
  p2pkDonationScript : Script

/-- `use_v36_pplns`. -/
def ShareTerms.useV36 (share : ShareTerms) (v36Active : Bool) : Bool :=
  v36Active || decide (36 ≤ share.version)

/-- The amounts of `generate_share_transaction`, before the outputs are built. -/
def ShareTerms.amounts (share : ShareTerms) (v36Active : Bool) (totalWeight : UInt288)
    (weights : FiniteMap Script UInt288) : Payouts × BitVec 64 :=
  let v36 := share.useV36 v36Active
  takeDonation v36 share.subsidy
    (payAmounts v36 share.subsidy totalWeight weights share.finderScript)

/-- The outputs of `generate_share_transaction` that carry value. -/
def ShareTerms.outputs (share : ShareTerms) (v36Active : Bool) (totalWeight : UInt288)
    (weights : FiniteMap Script UInt288) : CoinbaseOutputs :=
  let amounts := share.amounts v36Active totalWeight weights
  let out := buildPayoutOutputsExcludingDonation amounts.1 share.combinedDonationScript
    share.p2pkDonationScript amounts.2
  { out with payouts := keepLargest out.payouts }

end C2Pool.Ltc
