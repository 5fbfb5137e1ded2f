import C2Pool.Lib.Tally
import C2Pool.Sharechain.ForestRun

/-! # The share version ratchet

`AutoRatchet` (`auto_ratchet.hpp`) decides which share version a node mints; `share_check`
(`share_check.hpp`) decides in its second step whether a share may switch the version of its parent.
Both read the desired versions of the oldest tenth of the window.
-/

namespace C2Pool.Ltc

open Sharechain

inductive AddrType where
  | ipv4
  | ipv6
deriving DecidableEq

structure NetService where
  type : AddrType := .ipv4
  ip : String := "localhost"
  port : BitVec 16 := 0
deriving DecidableEq

def NetService.isLocal (addr : NetService) : Bool :=
  addr = { ip := "0.0.0.0" } || addr = {}

/-- The parts of a share that version switches read. -/
structure VoteShare where
  version : Int
  desiredVersion : BitVec 64
  peerAddr : NetService
deriving DecidableEq

section Chain

variable {H S : Type} [DecidableEq H] [Inhabited H]

/-- The shares of a `ChainView`. -/
def chainShares (c : Forest H S) : Nat → H → List (ChainData H S)
  | 0, _ => []
  | n + 1, cur =>
    match c.current cur with
    | none => []
    | some data => data :: chainShares c n data.index.tail

def getChain (c : Forest H S) (hash : H) (n : Nat) : Except String (List (ChainData H S)) :=
  if c.getHeight hash < n then .error "n > height for this hash in get_chain!"
  else .ok (chainShares c n hash)

/-- `get_nth_parent_key`, which throws when the chain runs out. -/
def nthParentKey (c : Forest H S) (hash : H) (n : Nat) : Except String H :=
  match c.getNthParentKey n hash with
  | none => .error "get_nth_parent_key: chain too short"
  | some cur => .ok cur

def getDesiredVersionWeights (c : Forest H VoteShare) (hash : H) (lookbehind : Nat) :
    Except String (Tally (BitVec 64) UInt288) :=
  if hash ∉ c.shares then .ok []
  else
    let actual := min lookbehind (c.getHeight hash)
    if actual = 0 then .ok []
    else
      (getChain c hash actual).map fun view =>
        view.foldl (fun weights data => weights.bump data.share.desiredVersion data.index.work) []

/-- The sum of the weights whose version satisfies `P`. -/
def weightOf (P : Int → Bool) (weights : Tally (BitVec 64) UInt288) : UInt288 :=
  weights.foldl (fun sum e => if P e.1.toInt then sum + e.2 else sum) 0

/-- The desired-version weights of the oldest tenth of the window behind `hash`. -/
def tailWeights (c : Forest H VoteShare) (chainLength : Nat) (hash : H) :
    Except String (Tally (BitVec 64) UInt288) := do
  let ancestor ← nthParentKey c hash (chainLength * 9 / 10)
  getDesiredVersionWeights c ancestor (chainLength / 10)

def versionSwitchUnderweight (newVerWeight totalWeight : UInt288) : Bool :=
  newVerWeight < totalWeight * 60 / 100

/-- Step 2 of `share_check`, for a share of version `shareVer` after `prevHash`. -/
def checkVersionSwitch (c : Forest H VoteShare) (chainLength : Nat) (prevHash : H)
    (shareVer : Int) : Except String Unit :=
  match (if prevHash = default then none else c.shares.lookup prevHash) with
  | none => .ok ()
  | some parent =>
    if chainLength ≤ c.getHeight prevHash then
      if shareVer = parent.share.version then .ok ()
      else if shareVer = parent.share.version + 1 then do
        let weights ← tailWeights c chainLength prevHash
        if versionSwitchUnderweight (weightOf (fun ver => ver = shareVer) weights)
            (weightOf (fun _ => true) weights) then
          .error "switch without enough hash power upgraded"
        else .ok ()
      else if parent.share.version = shareVer + 1 then .ok ()
      else
        .error ("invalid version jump from " ++ toString parent.share.version ++ " to " ++
          toString shareVer)
    else if shareVer = parent.share.version + 1 then .error "switch without enough history"
    else .ok ()

end Chain

/-! ## The ratchet -/

inductive RatchetState where
  | voting
  | activated
  | confirmed
deriving DecidableEq

/-- `AutoRatchet`; `stateFile` says whether it has a state file. -/
structure AutoRatchet where
  stateFile : Bool
  targetVersion : Int
  state : RatchetState := .voting
  activatedAt : Int := 0
  activatedHeight : Int := 0
  confirmedAt : Int := 0
  confirmCount : Int := 0
  lastSeenHeight : Int := 0
deriving DecidableEq

/-- The state file. -/
structure SavedRatchet where
  state : RatchetState
  activatedAt : Int
  activatedHeight : Int
  confirmedAt : Int
  confirmCount : Int
  targetVersion : Int
deriving DecidableEq

structure RatchetNode where
  ratchet : AutoRatchet
  file : Option SavedRatchet := none
deriving DecidableEq

def RatchetNode.save (n : RatchetNode) : RatchetNode :=
  if n.ratchet.stateFile then
    let r := n.ratchet
    { n with
      file := some
        { state := r.state, activatedAt := r.activatedAt, activatedHeight := r.activatedHeight
          confirmedAt := r.confirmedAt, confirmCount := r.confirmCount
          targetVersion := r.targetVersion } }
  else n

/-- A new `AutoRatchet` with the same file and target, with `load` in its constructor. -/
def RatchetNode.restart (n : RatchetNode) : RatchetNode :=
  let fresh : AutoRatchet :=
    { stateFile := n.ratchet.stateFile, targetVersion := n.ratchet.targetVersion }
  match (if n.ratchet.stateFile then n.file else none) with
  | none => { n with ratchet := fresh }
  | some saved =>
    { n with
      ratchet :=
        { fresh with
          state := saved.state
          activatedAt := saved.activatedAt
          activatedHeight := saved.activatedHeight
          confirmedAt := saved.confirmedAt
          confirmCount := saved.confirmCount } }

/-- What `get_share_version` counts over the window. -/
structure VoteCount where
  total : Nat
  targetVotes : Nat
  targetShares : Nat
  distinctOrigins : Nat
deriving DecidableEq

/-- The loop over the window.  The set of authors orders them by address and port. -/
def countVotes {H : Type} (targetVersion : Int) (view : List (ChainData H VoteShare)) : VoteCount :=
  let yes := view.filter fun data => decide (targetVersion ≤ data.share.desiredVersion.toInt)
  let remote := yes.filter fun data => !data.share.peerAddr.isLocal
  let authors := (remote.map fun data => (data.share.peerAddr.ip, data.share.peerAddr.port)).dedup
  { total := view.length
    targetVotes := yes.length
    targetShares := (view.filter fun data => decide (targetVersion ≤ data.share.version)).length
    distinctOrigins := authors.length +
      if yes.any fun data => data.share.peerAddr.isLocal then 1 else 0 }

def VoteCount.votePct (v : VoteCount) : Nat := v.targetVotes * 100 / v.total

def VoteCount.sharePct (v : VoteCount) : Nat := v.targetShares * 100 / v.total

def tailOk (targetVersion : Int) (weights : Tally (BitVec 64) UInt288) : Bool :=
  !decide (weightOf (fun ver => targetVersion ≤ ver) weights * 100 <
    weightOf (fun _ => true) weights * 60)

/-- `VOTING -> ACTIVATED`, and on to `CONFIRMED` for a chain that is deep enough. -/
def RatchetNode.activate (n : RatchetNode) (chainLength : Nat) (now : Int) (height : Nat)
    (v : VoteCount) : RatchetNode :=
  let retroactive := height - chainLength
  let r :=
    { n.ratchet with
      state := .activated
      activatedAt := now
      activatedHeight := height
      confirmCount := retroactive
      lastSeenHeight := height }
  let r :=
    if chainLength * 2 ≤ retroactive ∧ 95 ≤ v.sharePct then
      { r with state := .confirmed, confirmedAt := now }
    else r
  RatchetNode.save { n with ratchet := r }

def RatchetNode.stepVoting {H : Type} [DecidableEq H] [Inhabited H] (n : RatchetNode)
    (c : Forest H VoteShare) (best : H) (chainLength : Nat) (now : Int) (v : VoteCount) :
    Except String RatchetNode :=
  if chainLength ≤ v.total ∧ 95 ≤ v.votePct then do
    let weights ← tailWeights c chainLength best
    if tailOk n.ratchet.targetVersion weights ∧ 2 ≤ v.distinctOrigins then
      return n.activate chainLength now (c.getHeight best) v
    else return n
  else .ok n

def RatchetNode.stepActivated (n : RatchetNode) (chainLength : Nat) (now : Int) (height : Nat)
    (v : VoteCount) : RatchetNode :=
  let r := n.ratchet
  if chainLength ≤ v.total ∧ v.votePct < 50 then
    RatchetNode.save
      { n with
        ratchet :=
          { r with
            state := .voting, activatedAt := 0, activatedHeight := 0, confirmCount := 0
            lastSeenHeight := 0 } }
  else if 0 < r.activatedHeight then
    let confirmCount :=
      if 0 < r.lastSeenHeight ∧ r.lastSeenHeight < height then
        r.confirmCount + (height - r.lastSeenHeight)
      else r.confirmCount
    let r := { r with confirmCount := confirmCount, lastSeenHeight := height }
    if chainLength * 2 ≤ confirmCount ∧ 95 ≤ v.sharePct then
      RatchetNode.save { n with ratchet := { r with state := .confirmed, confirmedAt := now } }
    else { n with ratchet := r }
  else n

/-- The version to mint in a state. -/
def RatchetNode.output (n : RatchetNode) : Int :=
  if n.ratchet.state = .voting then n.ratchet.targetVersion - 1 else n.ratchet.targetVersion

/-- `get_share_version`: the version to mint, the version to vote for, and the ratchet
after it. -/
def getShareVersion {H : Type} [DecidableEq H] [Inhabited H] (chainLength : Nat) (now : Int)
    (n : RatchetNode) (c : Forest H VoteShare) (best : H) :
    Except String ((Int × Int) × RatchetNode) :=
  let target := n.ratchet.targetVersion
  let bootstrap : Int := if n.ratchet.state = .confirmed then target else target - 1
  if best = default ∨ best ∉ c.shares ∨ c.getHeight best < 1 then .ok ((bootstrap, target), n)
  else do
    let view ← getChain c best (min (c.getHeight best) chainLength)
    let v := countVotes target view
    if v.total = 0 then return ((bootstrap, target), n)
    match n.ratchet.state with
    | .voting =>
      let n ← n.stepVoting c best chainLength now v
      return ((n.output, target), n)
    | .activated =>
      let n := n.stepActivated chainLength now (c.getHeight best) v
      return ((n.output, target), n)
    | .confirmed =>
      if chainLength ≤ v.total ∧ v.votePct < 50 then return ((target - 1, target), n)
      else return ((n.output, target), n)

end C2Pool.Ltc
