import C2Pool.Xmr.Wide

/-! # The rules ratchet of Path B

`pathb_ratchet_state.hpp` and `pathb_ratchet_activation.hpp`: the state that each
position commits to, the vote windows and their levels, the deployment table with
its start-up checks, and the activation of a locked-in deployment.  Positions are
numbers below `2^64`.
-/

namespace C2Pool.Xmr.PathB

open Wide

structure RatchetParams where
  window : U64
  grace : U64
  timeout : U64
deriving DecidableEq

def ratchetKeptWindows (p : RatchetParams) : Nat := (p.grace - 1).val / p.window.val + 1

def ratchetParamsValid (p : RatchetParams) : Bool :=
  0 < p.window && 0 < p.grace && ratchetKeptWindows p ≤ 4

def ratchetVoteWindows (p : RatchetParams) : Nat :=
  if 0 < p.window then p.timeout.val / p.window.val else 0

/-- `ballot_epoch`: the low fifteen bits. -/
def ballotEpoch (ballot : U16) : Nat := ballot.val % 2 ^ 15

/-- `RatchetState`; the levels stand oldest first. -/
structure RatchetState where
  epochCur : U16 := 0
  rulesCur : Hash := 0
  all : Work := 0
  y1 : Work := 0
  y2 : Work := 0
  levels : Fin 4 → U8 := fun _ => 0
deriving DecidableEq

def genesisRatchetState (genesisRulesDigest : Hash) : RatchetState :=
  { rulesCur := genesisRulesDigest }

structure RatchetPlacement where
  work : U64
  ballot : U16
deriving DecidableEq

/-- `U256::mul_small`, which saturates. -/
def mulSmall (a : Work) (m : U64) : Work :=
  let l := Limbs.mulCarry 64 m.val (limbs a) 0
  if l.getD 4 0 ≠ 0 then BitVec.allOnes 256 else BitVec.ofNat 256 (Limbs.value 64 (l.take 4))

def lockInReached (yes all : Work) : Bool :=
  all ≠ 0 && !decide (mulSmall yes 4 < mulSmall all 3)

def windowLevel (s : RatchetState) : U8 :=
  if lockInReached s.y2 s.all then 2 else if lockInReached s.y1 s.all then 1 else 0

def ratchetWindowEnd (p : RatchetParams) (x : Nat) : Bool :=
  x % p.window.val = p.window.val - 1

/-- One placed receipt in `rs_step`. -/
def placeOne (s : RatchetState) (r : RatchetPlacement) : RatchetState :=
  let w := ofU64 r.work
  { s with
    all := s.all + w
    y1 := if s.epochCur.val + 1 ≤ ballotEpoch r.ballot then s.y1 + w else s.y1
    y2 := if s.epochCur.val + 2 ≤ ballotEpoch r.ballot then s.y2 + w else s.y2 }

/-- The end of a vote window in `rs_step`: its level is appended and the oldest one
leaves. -/
def closeWindow (s : RatchetState) : RatchetState :=
  { s with
    levels := fun i => if h : i.val + 1 < 4 then s.levels ⟨i.val + 1, h⟩ else windowLevel s
    all := 0
    y1 := 0
    y2 := 0 }

/-- `rs_step` without an activation. -/
def rsStep (p : RatchetParams) (prev : RatchetState) (x : Nat) (placed : List RatchetPlacement) :
    RatchetState :=
  let s := placed.foldl placeOne prev
  if ratchetWindowEnd p x then closeWindow s else s

/-- Step (1) of `rs_step` with an activation. -/
def activate (s : RatchetState) (digest : Hash) : RatchetState :=
  { s with
    epochCur := s.epochCur + 1
    rulesCur := digest
    y1 := s.y2
    y2 := 0
    levels := fun i => if 0 < s.levels i then s.levels i - 1 else 0 }

structure Deployment where
  epochNo : U16
  rulesDigest : Hash
  kind : U8
  start : U64
  timeout : U64
  fixed : U64 := 0
deriving DecidableEq

def kKindVote : U8 := 1

def kKindFixed : U8 := 2

/-- `CompiledEpoch`, over the type of the lane rules. -/
structure CompiledEpoch (Rules : Type) where
  epochNo : U16
  digest : Hash
  rules : Option Rules

structure EpochTable (Rules : Type) where
  compiled : List (CompiledEpoch Rules)
  attempts : List Deployment

section Table

variable {Rules : Type} (T : EpochTable Rules)

/-- `own_attempt`: the last attempt of an epoch. -/
def ownAttempt (e : Nat) : Option Deployment :=
  (T.attempts.filter fun a => a.epochNo.val = e).getLast?

/-- `own_attempt(T, a.epoch_no) == &a` for the attempt at index `i`: no later one
has its epoch. -/
def isOwn (i : Nat) (a : Deployment) : Bool :=
  (T.attempts.drop (i + 1)).all fun b => b.epochNo ≠ a.epochNo

def compiledDigest (e : Nat) : Option Hash :=
  (T.compiled.find? fun c => c.epochNo.val = e).map CompiledEpoch.digest

def implements2 (d : Deployment) : Bool := compiledDigest T d.epochNo.val = some d.rulesDigest

def rulesOfTable (e : Nat) : Option Hash :=
  if e = 0 then compiledDigest T 0
  else
    match ownAttempt T e with
    | none => none
    | some d => if compiledDigest T e = some d.rulesDigest then some d.rulesDigest else none

def base (s : RatchetState) : Bool := rulesOfTable T s.epochCur.val = some s.rulesCur

def nextAttempt (s : RatchetState) : Option Deployment := ownAttempt T (s.epochCur.val + 1)

end Table

/-- `kept_windows`: the grid windows that the newest slots stand for, oldest first. -/
def keptWindows (p : RatchetParams) (s : RatchetState) (x : Nat) : List (Nat × U8) :=
  let cur := x / p.window.val
  ((List.finRange 4).drop (4 - ratchetKeptWindows p)).filterMap fun i =>
    if cur + i.val < 4 then none else some (cur + i.val - 4, s.levels i)

/-- `window_h_act`, in 64 bits. -/
def windowHAct (p : RatchetParams) (k : Nat) : Nat :=
  ((k + 1) * p.window.val - 1 + p.grace.val) % 2 ^ 64

/-- `window_in_range`.  It is asked of windows that are over, so nothing wraps. -/
def windowInRange (p : RatchetParams) (d : Deployment) (k : Nat) : Bool :=
  d.start.val ≤ k * p.window.val && (k + 1) * p.window.val ≤ d.timeout.val

def lockWindow (p : RatchetParams) (s : RatchetState) (x : Nat) (d : Deployment) : Option Nat :=
  ((keptWindows p s x).find? fun w => decide (1 ≤ w.2) && windowInRange p d w.1).map Prod.fst

section Activation

variable {Rules : Type} (p : RatchetParams) (s : RatchetState) (x : Nat) (T : EpochTable Rules)

/-- `open`. -/
def isOpen : Bool :=
  match nextAttempt T s with
  | none => false
  | some d => d.kind = kKindVote && base T s && d.start.val ≤ x && x < d.timeout.val

def hAct : Option Nat :=
  match nextAttempt T s with
  | none => none
  | some d =>
    if d.kind = kKindFixed then some d.fixed.val
    else if d.kind ≠ kKindVote then none
    else (lockWindow p s x d).map (windowHAct p)

def locked : Bool :=
  match nextAttempt T s with
  | none => false
  | some d =>
    if !base T s then false
    else if d.kind = kKindFixed then implements2 T d && d.start.val ≤ x && x ≤ d.fixed.val
    else if d.kind ≠ kKindVote then false
    else
      match hAct p s x T with
      | none => false
      | some y => x ≤ y

/-- `implements`. -/
def isImplemented : Bool := isOpen s x T || locked p s x T

structure EImpl where
  value : U16
  below : Bool
deriving DecidableEq

def eImpl : EImpl :=
  if !base T s then ⟨s.epochCur, true⟩
  else if isImplemented p s x T then ⟨s.epochCur + 1, false⟩
  else ⟨s.epochCur, false⟩

def act : Option Hash :=
  if !locked p s x T then none
  else if hAct p s x T ≠ some x then none
  else (nextAttempt T s).map Deployment.rulesDigest

def kNoHold : Nat := 2 ^ 64 - 1

def hHold : Nat :=
  let ei := eImpl p s x T
  if ei.below then x
  else
    let need := ei.value.val - s.epochCur.val + 1
    let h := (keptWindows p s x).foldl
      (fun h w => if need ≤ w.2.val then min h (windowHAct p w.1) else h) kNoHold
    match nextAttempt T s with
    | none => h
    | some d =>
      if d.kind = kKindFixed ∧ implements2 T d = false ∧ x ≤ d.fixed.val then min h d.fixed.val
      else h

end Activation

/-- `hold`: the node at `tip` stops building. -/
def hold {Rules : Type} (p : RatchetParams) (sTip : RatchetState) (tip : Nat)
    (T : EpochTable Rules) : Bool :=
  hHold p sTip (tip + 1) T ≤ tip + 1

structure ActivationRow where
  epoch : U16
  hAct : Nat
  rulesDigest : Hash
deriving DecidableEq

structure ActivationRecord where
  rows : List ActivationRow := []
  joiner : Bool := false
deriving DecidableEq

/-- `ActivationRecord::append`, nothing when it refuses. -/
def ActivationRecord.append (ar : ActivationRecord) (r : ActivationRow) : Option ActivationRecord :=
  if 2 ^ 15 ≤ ar.rows.length then none
  else
    match ar.rows.getLast? with
    | some last =>
      if r.hAct ≤ last.hAct ∨ r.epoch.val ≠ last.epoch.val + 1 then none
      else some { ar with rows := ar.rows ++ [r] }
    | none => some { ar with rows := ar.rows ++ [r] }

structure StepAt where
  s : RatchetState
  row : Option ActivationRow
deriving DecidableEq

def rsStepAt {Rules : Type} (p : RatchetParams) (prev : RatchetState) (x : Nat)
    (placed : List RatchetPlacement) (T : EpochTable Rules) : StepAt :=
  match act p prev x T with
  | none => { s := rsStep p prev x placed, row := none }
  | some digest =>
    let s := rsStep p (activate prev digest) x placed
    { s := s, row := some { epoch := s.epochCur, hAct := x, rulesDigest := digest } }

/-- The states that `rs_step_at` makes at positions 1, 2, … from the genesis state. -/
def ratchetRun {Rules : Type} (p : RatchetParams) (genesis : Hash) (T : EpochTable Rules)
    (placed : Nat → List RatchetPlacement) : Nat → RatchetState
  | 0 => genesisRatchetState genesis
  | x + 1 => (rsStepAt p (ratchetRun p genesis T placed x) (x + 1) (placed (x + 1)) T).s

inductive LaneNet where
  | mainnet
  | testnet
  | stagenet
  | regtest
deriving DecidableEq

structure StartupCheck where
  ok : Bool := true
  why : String := ""
deriving DecidableEq

def spacingThreshold (p : RatchetParams) (a : Deployment) : Option Nat :=
  if a.kind = kKindFixed then
    if a.fixed.val = 2 ^ 64 - 1 then none else some (a.fixed.val + 1)
  else if 2 ^ 64 - 1 - p.grace.val < a.timeout.val then none
  else some (a.timeout.val + p.grace.val)

section Startup

variable {Rules : Type} (genesisDigestFor : LaneNet → Rules → Option Hash)
  (rulesDigest : Rules → Hash)

/-- The refusal of `deployment_table_valid` for attempt `a` at index `i`, if any. -/
def attemptRefusal (p : RatchetParams) (net : LaneNet) (T : EpochTable Rules) (i : Nat)
    (a : Deployment) : Option String :=
  let span := ratchetVoteWindows p * p.window.val
  let at_ := "attempt " ++ toString i ++ " (epoch " ++ toString a.epochNo.val ++ ")"
  if a.epochNo.val < 1 ∨ 2 ^ 15 - 1 < a.epochNo.val then
    some (at_ ++ ": epoch_no outside 1..32767")
  else if i = 0 ∧ a.epochNo ≠ 1 then some (at_ ++ ": epoch numbers start at 1")
  else
    let order := match (if i = 0 then none else T.attempts[i - 1]?) with
      | none => none
      | some b =>
        if a.epochNo.val < b.epochNo.val ∨ b.epochNo.val + 1 < a.epochNo.val then
          some (at_ ++ ": epoch numbers not ascending by one")
        else if a.epochNo = b.epochNo ∧ a.start ≤ b.start then
          some (at_ ++ ": attempts not in ascending start")
        else none
    let kind :=
      if a.kind = kKindVote then
        if a.start.val % p.window.val ≠ 0 then some (at_ ++ ": start not a multiple of L")
        else if 2 ^ 64 - 1 - span < a.start.val then some (at_ ++ ": start out of range")
        else if a.timeout.val ≠ a.start.val + span then
          some (at_ ++ ": timeout != start + N_W L")
        else if a.fixed ≠ 0 then some (at_ ++ ": kind 1 with fixed != 0")
        else none
      else if a.kind = kKindFixed then
        if net = .mainnet then some (at_ ++ ": kind 2 on mainnet")
        else if 2 ^ 64 - 1 - p.grace.val < a.start.val ∨
            a.fixed.val < a.start.val + p.grace.val then
          some (at_ ++ ": kind 2 fixed < start + GRACE")
        else if a.timeout ≠ 0 then some (at_ ++ ": kind 2 with timeout != 0")
        else none
      else some (at_ ++ ": unknown kind")
    let spacing := ((T.attempts.take i).zipIdx.find? fun b =>
      (b.1.epochNo = a.epochNo || (b.1.epochNo.val + 1 = a.epochNo.val && isOwn T b.2 b.1)) &&
        (match spacingThreshold p b.1 with
          | none => true
          | some th => a.start.val < th)).map
      fun _ => at_ ++ ": start before timeout + GRACE of an earlier attempt"
    order <|> kind <|> spacing

def deploymentTableValid (p : RatchetParams) (net : LaneNet) (T : EpochTable Rules) :
    StartupCheck :=
  if !ratchetParamsValid p then ⟨false, "K30: W_R above the kept windows"⟩
  else if ratchetVoteWindows p < 1 then ⟨false, "K30: TIMEOUT below one vote window"⟩
  else
    match T.attempts.zipIdx.findSome? fun a => attemptRefusal p net T a.2 a.1 with
    | some why => ⟨false, why⟩
    | none => {}

/-- The refusal of `lane_rules_valid` for compiled epoch `c` after `prev`, if any. -/
def compiledRefusal (prev c : CompiledEpoch Rules) : Option String :=
  if c.epochNo ≤ prev.epochNo then some "compiled epochs not ascending"
  else if c.rules.map rulesDigest ≠ some c.digest then
    some ("compiled epoch " ++ toString c.epochNo.val ++ ": digest differs from its rules")
  else none

/-- `lane_rules_valid`.  The rules and their digests are those of
`pathb_lane_rules.hpp`. -/
def laneRulesValid (net : LaneNet) (T : EpochTable Rules) : StartupCheck :=
  match T.compiled with
  | [] => ⟨false, "no epoch-0 lane rules"⟩
  | first :: rest =>
    match (if first.epochNo ≠ 0 then none else first.rules) with
    | none => ⟨false, "no epoch-0 lane rules"⟩
    | some rules =>
      match genesisDigestFor net rules with
      | none => ⟨false, "epoch-0 lane rules are not the network's list, or G differs"⟩
      | some g =>
        if g ≠ first.digest then
          ⟨false, "compiled G differs from rules_digest of the epoch-0 list"⟩
        else
          match (T.compiled.zip rest).findSome? fun c =>
              compiledRefusal rulesDigest c.1 c.2 with
          | some why => ⟨false, why⟩
          | none =>
            match T.attempts.zipIdx.find? fun a => isOwn T a.2 a.1 &&
                a.1.kind = kKindVote &&
                compiledDigest T a.1.epochNo.val ≠ some a.1.rulesDigest with
            | some a => ⟨false, "own attempt of epoch " ++ toString a.1.epochNo.val ++
                " is not the compiled rules"⟩
            | none => {}

end Startup

end C2Pool.Xmr.PathB
