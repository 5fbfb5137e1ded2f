import C2Pool.Xmr.Median

/-! # The rules a block is judged by

The pure arithmetic of connecting a block: the hard-fork table and policy
(`xmr_hf_table.hpp`, `xmr_hf_policy.hpp`), the weight recursion
(`xmr_weight.hpp`) and the emission (`xmr_reward.hpp`).
-/

namespace C2Pool.Xmr

/-- 32 raw bytes. -/
abbrev Hash := Fin (2 ^ 256)

/-- `node::Difficulty128`. -/
structure U128 where
  hi : U64 := 0
  lo : U64 := 0
deriving DecidableEq

def u128Add (a b : U128) : U128 :=
  let lo := a.lo + b.lo
  { hi := a.hi + b.hi + (if lo < a.lo then 1 else 0), lo := lo }

def u128Less (a b : U128) : Bool :=
  if a.hi ≠ b.hi then a.hi < b.hi else a.lo < b.lo

/-! ## Hard forks -/

inductive XmrNet where
  | mainnet
  | testnet
  | stagenet
  | regtest
deriving DecidableEq

def maxImplementedHfVersion : U8 := 16

/-- `hard_fork_table`: the version and the height it starts at. -/
def hardForkTable : XmrNet → List (U8 × U64)
  | .mainnet =>
    [(1, 1), (2, 1009827), (3, 1141317), (4, 1220516), (5, 1288616), (6, 1400000),
      (7, 1546000), (8, 1685555), (9, 1686275), (10, 1788000), (11, 1788720), (12, 1978433),
      (13, 2210000), (14, 2210720), (15, 2688888), (16, 2689608)]
  | .testnet =>
    [(1, 1), (2, 624634), (3, 800500), (4, 801219), (5, 802660), (6, 971400),
      (7, 1057027), (8, 1057058), (9, 1057778), (10, 1154318), (11, 1155038), (12, 1308737),
      (13, 1543939), (14, 1544659), (15, 1982800), (16, 1983520)]
  | .stagenet =>
    [(1, 1), (2, 32000), (3, 33000), (4, 34000), (5, 35000), (6, 36000),
      (7, 37000), (8, 176456), (9, 177176), (10, 269000), (11, 269720), (12, 454721),
      (13, 675405), (14, 676125), (15, 1151000), (16, 1151720)]
  | .regtest => [(maxImplementedHfVersion, 1)]

/-- `hf_version_for_height`: the last row of the table the height has reached. -/
def hfVersionForHeight (net : XmrNet) (height : U64) : U8 :=
  (((hardForkTable net).takeWhile fun row => row.2 ≤ height).getLast?.map Prod.fst).getD 1

def hfIsFenced (version : U8) : Bool := maxImplementedHfVersion < version

def hfRulesVersion (version : U8) : U8 :=
  if maxImplementedHfVersion < version then maxImplementedHfVersion else version

structure HfFuse where
  tripped : Bool := false
  firstHeight : U64 := 0
  firstVersion : U8 := 0
  highestVersion : U8 := 0
  seen : U64 := 0
deriving DecidableEq

def HfFuse.trip (fuse : HfFuse) (height : U64) (version : U8) : HfFuse :=
  let fuse := { fuse with seen := fuse.seen + 1 }
  if !fuse.tripped then
    { fuse with
      tripped := true, firstHeight := height, firstVersion := version, highestVersion := version }
  else if fuse.highestVersion < version then { fuse with highestVersion := version }
  else fuse

inductive HfVerdict where
  | ok
  | okRolled
  | rejectTooLow
  | rejectMinorLow
deriving DecidableEq

/-- `hf_verdict_accepts`. -/
def HfVerdict.accepts : HfVerdict → Bool
  | .ok => true
  | .okRolled => true
  | .rejectTooLow => false
  | .rejectMinorLow => false

/-- `hf_policy_check_block`: the verdict, the fuse afterwards and what it says. -/
def hfPolicyCheckBlock (net : XmrNet) (height : U64) (major minor : U8) (fuse : HfFuse) :
    HfVerdict × HfFuse × String :=
  let required := hfVersionForHeight net height
  if major < required then
    (.rejectTooLow, fuse, s!"block major_version {major} below required {required}" ++
      s!" at height {height}")
  else if 8 ≤ major ∧ minor < major then
    (.rejectMinorLow, fuse, s!"block minor_version {minor} below major {major}")
  else if hfIsFenced major then
    (.okRolled, fuse.trip height major, s!"block major_version {major} at height {height}" ++
      s!" is beyond the implemented fork range (max {maxImplementedHfVersion})" ++
      ": following it with rolled rules, template and tx admission withdrawn")
  else (.ok, fuse, "")

theorem hfPolicyCheckBlock_fuse (net : XmrNet) (height : U64) (major minor : U8)
    (fuse fuse' : HfFuse) :
    (hfPolicyCheckBlock net height major minor fuse).1 =
        (hfPolicyCheckBlock net height major minor fuse').1 ∧
      (hfPolicyCheckBlock net height major minor fuse).2.2 =
        (hfPolicyCheckBlock net height major minor fuse').2.2 := by
  unfold hfPolicyCheckBlock
  dsimp only
  split
  · exact ⟨rfl, rfl⟩
  split
  · exact ⟨rfl, rfl⟩
  · split <;> exact ⟨rfl, rfl⟩

/-- `min_block_weight`, the penalty-free zone. -/
def minBlockWeight (version : U8) : U64 :=
  if version < 2 then 20000 else if version < 5 then 60000 else 300000

def longTermWeightFor (blockWeight ltemw : U64) (hfVersion : U8) : U64 :=
  if hfVersion < 10 then blockWeight
  else if 15 ≤ hfVersion then
    let floor2021 := ltemw * 10 / 17
    let blockWeight := if blockWeight < floor2021 then floor2021 else blockWeight
    let shortTermConstraint := ltemw + ltemw * 7 / 10
    if blockWeight < shortTermConstraint then blockWeight else shortTermConstraint
  else
    let shortTermConstraint := ltemw + ltemw * 2 / 5
    if blockWeight < shortTermConstraint then blockWeight else shortTermConstraint

def longTermEffectiveMedian (longTermMedian : U64) : U64 :=
  if 300000 < longTermMedian then longTermMedian else 300000

def effectiveMedianWeight (shortTermMedian ltemw : U64) (hfVersion : U8) : U64 :=
  let effective :=
    if hfVersion < 10 then shortTermMedian
    else
      let lower := if 15 ≤ hfVersion then ltemw else 300000
      let v := if lower < shortTermMedian then shortTermMedian else lower
      let upper := 50 * ltemw
      if v < upper then v else upper
  let zone := minBlockWeight hfVersion
  if effective ≤ zone then zone else effective

def moneySupply : U64 := ⟨2 ^ 64 - 1, by decide⟩

def emissionBaseReward (alreadyGeneratedCoins : U64) (version : U8) : U64 :=
  let targetMinutes : Nat := if version < 2 then 1 else 2
  let speedFactor := 20 - (targetMinutes - 1)
  let base := (moneySupply - alreadyGeneratedCoins) / Fin.ofNat (2 ^ 64) (2 ^ speedFactor)
  let tail := 300000000000 * Fin.ofNat (2 ^ 64) targetMinutes
  if base < tail then tail else base

/-- `get_block_reward`: `none` is `BlockTooBig`.  The product and the two divisions are over 128
bits, and the quotients fit. -/
def getBlockReward (medianWeight currentBlockWeight alreadyGeneratedCoins : U64) (version : U8) :
    Option U64 :=
  let base := emissionBaseReward alreadyGeneratedCoins version
  let zone := minBlockWeight version
  let medianWeight := if medianWeight < zone then zone else medianWeight
  if currentBlockWeight ≤ medianWeight then some base
  else if 2 * medianWeight < currentBlockWeight then none
  else
    let multiplicand := (2 * medianWeight - currentBlockWeight) * currentBlockWeight
    let r := base.val * multiplicand.val / medianWeight.val / medianWeight.val
    if base.val ≤ r then none else some (Fin.ofNat (2 ^ 64) r)

def accumulateGeneratedCoins (alreadyGeneratedCoins baseReward : U64) : U64 :=
  if baseReward < moneySupply - alreadyGeneratedCoins then alreadyGeneratedCoins + baseReward
  else moneySupply

structure CoinbaseCheck where
  ok : Bool := false
  partialClaim : Bool := false
  expected : U64 := 0
  effectiveBase : U64 := 0

def checkCoinbaseAmount (moneyInUse baseReward fees : U64) (version : U8) : CoinbaseCheck :=
  let c : CoinbaseCheck := { expected := baseReward + fees, effectiveBase := baseReward }
  if c.expected < moneyInUse then c
  else if version < 2 ∨ 13 ≤ version then { c with ok := moneyInUse = c.expected }
  else if moneyInUse < fees then c
  else
    { c with
      partialClaim := moneyInUse ≠ c.expected, effectiveBase := moneyInUse - fees, ok := true }

def penaltyMedian (effectiveMedian shortTermMedian : U64) (version : U8) : U64 :=
  if 12 ≤ version then effectiveMedian else shortTermMedian

def maxMinerTxOutputs (hfVersion : U64) : U64 :=
  if 17 ≤ hfVersion then 10000 else 3125000

def minerTxOutputCountOk (hfVersion nOutputs : U64) : Bool :=
  nOutputs ≤ maxMinerTxOutputs hfVersion

end C2Pool.Xmr
