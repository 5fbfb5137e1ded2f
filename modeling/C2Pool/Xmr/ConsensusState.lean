import C2Pool.Xmr.Rules

/-! # The consensus state

`xmr_consensus_state.hpp`: the windows a chain carries, the rules that advance
them by one block, and the rollback that takes one block back.

The retarget `cryptonote::next_difficulty` is a parameter of the model: it is a
function of the window's timestamps, its cumulative difficulties and the target
seconds.
-/

namespace C2Pool.Xmr

structure DifficultyRow where
  timestamp : U64 := 0
  cumulativeDifficulty : U128 := {}
deriving DecidableEq

def difficultyBlocksCount : Nat := 735

def difficultyTargetSeconds (version : U8) : U64 := if version < 2 then 60 else 120

structure DifficultyWindow where
  rows : List DifficultyRow := []
deriving DecidableEq

/-- The retarget of the vendored `difficulty.cpp`. -/
abbrev Retarget := List U64 → List U128 → U64 → U128

namespace DifficultyWindow

def seed (rows : List DifficultyRow) : DifficultyWindow :=
  { rows := SlidingWindow.newest difficultyBlocksCount rows }

/-- `DifficultyWindow::push`, with the row that fell off the far end. -/
def push (w : DifficultyWindow) (timestamp : U64) (cumulativeDifficulty : U128) :
    DifficultyWindow × Option DifficultyRow :=
  let slid := SlidingWindow.slide difficultyBlocksCount w.rows { timestamp, cumulativeDifficulty }
  ({ rows := slid.1 }, slid.2)

def pop (w : DifficultyWindow) (evicted : Option DifficultyRow) : DifficultyWindow :=
  if w.rows = [] then w else { rows := SlidingWindow.unslide w.rows evicted }

def nextDifficulty (retarget : Retarget) (w : DifficultyWindow) (version : U8) : U128 :=
  retarget (w.rows.map (·.timestamp)) (w.rows.map (·.cumulativeDifficulty))
    (difficultyTargetSeconds version)

@[simp] theorem pop_push (w : DifficultyWindow) (timestamp : U64) (cumulativeDifficulty : U128) :
    (w.push timestamp cumulativeDifficulty).1.pop (w.push timestamp cumulativeDifficulty).2 =
      w := by
  unfold pop push
  rw [if_neg (SlidingWindow.slide_ne_nil _ _ _), SlidingWindow.unslide_slide]

end DifficultyWindow

/-- `WeightUndo`: what each of the two windows evicted. -/
structure WeightUndo where
  short : Option U64 := none
  long : Option U64 := none
deriving DecidableEq

structure WeightState where
  short : MedianWindow := MedianWindow.ofCapacity 100
  long : MedianWindow := MedianWindow.ofCapacity 100000

namespace WeightState

def seed (w : WeightState) (shortTerm longTerm : List U64) : WeightState :=
  { short := w.short.seed shortTerm, long := w.long.seed longTerm }

def shortTermMedian (w : WeightState) : U64 := w.short.median

def longTermEffectiveMedian (w : WeightState) : U64 :=
  Xmr.longTermEffectiveMedian w.long.median

def nextLongTermWeight (w : WeightState) (blockWeight : U64) (hfVersion : U8) : U64 :=
  longTermWeightFor blockWeight w.longTermEffectiveMedian hfVersion

def effectiveMedian (w : WeightState) (hfVersion : U8) : U64 :=
  effectiveMedianWeight w.shortTermMedian w.longTermEffectiveMedian hfVersion

def push (w : WeightState) (blockWeight longTermWeight : U64) : WeightState × WeightUndo :=
  let short := w.short.push blockWeight
  let long := w.long.push longTermWeight
  ({ short := short.1, long := long.1 }, { short := short.2, long := long.2 })

def pop (w : WeightState) (u : WeightUndo) : WeightState :=
  { short := w.short.popBack u.short, long := w.long.popBack u.long }

@[simp] theorem pop_push (w : WeightState) (blockWeight longTermWeight : U64) :
    (w.push blockWeight longTermWeight).1.pop (w.push blockWeight longTermWeight).2 = w := by
  simp [pop, push]

end WeightState

inductive TimestampStatus where
  | ok
  | tooFarInFuture
  | belowMedian
deriving DecidableEq

structure TimestampWindow where
  window : MedianWindow := MedianWindow.ofCapacity 60

namespace TimestampWindow

def seed (w : TimestampWindow) (timestamps : List U64) : TimestampWindow :=
  { window := w.window.seed timestamps }

/-- `TimestampWindow::median`: there is none until the window is full. -/
def median (w : TimestampWindow) : U64 :=
  if w.window.size < 60 then 0 else w.window.median

def push (w : TimestampWindow) (timestamp : U64) : TimestampWindow × Option U64 :=
  ({ window := (w.window.push timestamp).1 }, (w.window.push timestamp).2)

def pop (w : TimestampWindow) (u : Option U64) : TimestampWindow :=
  { window := w.window.popBack u }

def check (w : TimestampWindow) (timestamp now : U64) : TimestampStatus :=
  if now ≠ 0 ∧ now + 7200 < timestamp then .tooFarInFuture
  else if w.window.size < 60 then .ok
  else if timestamp < w.window.median then .belowMedian
  else .ok

@[simp] theorem pop_push (w : TimestampWindow) (timestamp : U64) :
    (w.push timestamp).1.pop (w.push timestamp).2 = w := by
  simp [pop, push]

end TimestampWindow

structure ChainRow where
  height : U64 := 0
  id : Hash := 0
  prevId : Hash := 0
  timestamp : U64 := 0
  majorVersion : U8 := 0
  minorVersion : U8 := 0
  blockWeight : U64 := 0
  longTermWeight : U64 := 0
  difficulty : U128 := {}
  cumulativeDifficulty : U128 := {}
  baseReward : U64 := 0
  fees : U64 := 0
  reward : U64 := 0
  alreadyGeneratedCoins : U64 := 0
  powVerified : Bool := false
  rolledFork : Bool := false
deriving DecidableEq

/-- `BlockConnectInput`, with the fields of the parsed block, its identity and its coinbase that
`connect` reads. -/
structure BlockConnectInput where
  majorVersion : U64 := 0
  minorVersion : U64 := 0
  timestamp : U64 := 0
  prevId : Hash := 0
  minerTxOutputs : U64 := 0
  id : Hash := 0
  coinbaseHeight : U64 := 0
  coinbaseOutputSum : U64 := 0
  blockWeight : U64 := 0
  fees : U64 := 0
  bodiesComplete : Bool := false
  powVerified : Bool := false
deriving DecidableEq

inductive ConnectStatus where
  | ok
  | prevMismatch
  | heightMismatch
  | forkRejected
  | badTimestamp
  | futureTimestamp
  | bodiesMissing
  | blockTooBig
  | badCoinbase
  | belowAnchor
deriving DecidableEq

structure ConnectUndo where
  weight : WeightUndo := {}
  difficulty : Option DifficultyRow := none
  timestamp : Option U64 := none
  prevAlreadyGeneratedCoins : U64 := 0
deriving DecidableEq

/-- `AnchorBundle`, with the fields the seeding reads. -/
structure AnchorBundle where
  height : U64 := 0
  id : Hash := 0
  prevId : Hash := 0
  timestamp : U64 := 0
  majorVersion : U8 := 0
  cumulativeDifficulty : U128 := {}
  alreadyGeneratedCoins : U64 := 0
  difficultyWindow : List (U64 × U128) := []
  shortTermWeights : List U64 := []
  longTermWeights : List U64 := []

/-- `TemplateInputs`, less the seed hashes the index fills in. -/
structure TemplateInputs where
  majorVersion : U8
  minorVersion : U8
  height : U64
  prevId : Hash
  difficulty : U128
  medianWeight : U64
  blockWeightLimit : U64
  longTermEffectiveMedianWeight : U64
  alreadyGeneratedCoins : U64
  medianTimestamp : U64
  expectedBaseReward : U64
  feeQuantizationMask : U64
  epochSeq : U64
  synced : Bool
deriving DecidableEq

/-! ## The state -/

/-- `ConsensusState`.  `rows` holds the connected rows, the oldest first. -/
structure ConsensusState where
  net : XmrNet
  difficulty : DifficultyWindow := {}
  weights : WeightState := {}
  timestamps : TimestampWindow := {}
  rows : List ChainRow := []
  rowRetention : Nat := 2048
  agc : U64 := 0
  anchorHeight : U64 := 0
  verifiedFrontier : U64 := 0
  epochSeq : U64 := 0
  fuse : HfFuse := {}

/-- What `connect` hands back: its status, the state it leaves, the row and the undo record it
writes on success, and its text. -/
structure ConnectResult where
  status : ConnectStatus
  state : ConsensusState
  out : Option (ChainRow × ConnectUndo)
  why : String

namespace ConsensusState

def clear (s : ConsensusState) : ConsensusState :=
  { net := s.net, rowRetention := s.rowRetention }

def seedFromAnchor (s : ConsensusState) (b : AnchorBundle) (timestamps60 : List U64) :
    ConsensusState :=
  let s := s.clear
  let tip : ChainRow :=
    { height := b.height
      id := b.id
      prevId := b.prevId
      timestamp := b.timestamp
      majorVersion := b.majorVersion
      minorVersion := b.majorVersion
      blockWeight := b.shortTermWeights.getLast?.getD 0
      longTermWeight := b.longTermWeights.getLast?.getD 0
      cumulativeDifficulty := b.cumulativeDifficulty
      alreadyGeneratedCoins := b.alreadyGeneratedCoins
      powVerified := true }
  { s with
    anchorHeight := b.height
    difficulty := DifficultyWindow.seed
      (b.difficultyWindow.map fun p => { timestamp := p.1, cumulativeDifficulty := p.2 })
    weights := s.weights.seed b.shortTermWeights b.longTermWeights
    timestamps := s.timestamps.seed timestamps60
    rows := [tip]
    agc := b.alreadyGeneratedCoins
    verifiedFrontier := b.height
    epochSeq := s.epochSeq + 1 }

def seedEmpty (s : ConsensusState) (anchorHeight : U64) : ConsensusState :=
  { s.clear with anchorHeight := anchorHeight }

def seedDirect (s : ConsensusState) (tip : ChainRow) (difficultyWindow : List DifficultyRow)
    (shortTermWeights longTermWeights timestamps60 : List U64) : ConsensusState :=
  let s := s.clear
  { s with
    anchorHeight := tip.height
    difficulty := DifficultyWindow.seed difficultyWindow
    weights := s.weights.seed shortTermWeights longTermWeights
    timestamps := s.timestamps.seed timestamps60
    rows := [tip]
    agc := tip.alreadyGeneratedCoins
    verifiedFrontier := if tip.powVerified then tip.height else s.verifiedFrontier
    epochSeq := s.epochSeq + 1 }

def tip (s : ConsensusState) : Option ChainRow := s.rows.getLast?

def height (s : ConsensusState) : U64 := (s.tip.map (·.height)).getD 0

def nextMajorVersion (s : ConsensusState) : U8 :=
  let table := hfVersionForHeight s.net (s.height + 1)
  let tipv := (s.tip.map (·.majorVersion)).getD 0
  if table < tipv then tipv else table

/-- `ConsensusState::template_inputs_partial`, with the getters it calls. -/
def templateInputsPartial (retarget : Retarget) (s : ConsensusState) : TemplateInputs :=
  let v := s.nextMajorVersion
  { majorVersion := v
    minorVersion := v
    height := s.height + 1
    prevId := (s.tip.map (·.id)).getD 0
    difficulty := s.difficulty.nextDifficulty retarget v
    medianWeight := s.weights.effectiveMedian v
    blockWeightLimit := s.weights.effectiveMedian v * 2
    longTermEffectiveMedianWeight := s.weights.longTermEffectiveMedian
    alreadyGeneratedCoins := s.agc
    medianTimestamp := s.timestamps.median
    expectedBaseReward := emissionBaseReward s.agc v
    feeQuantizationMask := 10000
    epochSeq := s.epochSeq
    synced := false }

def trimRows (s : ConsensusState) : ConsensusState :=
  { s with rows := SlidingWindow.newest s.rowRetention s.rows }

/-- A refusal of `connect`: the status and the text, and the state as it was. -/
def refuse (s : ConsensusState) (status : ConnectStatus) (why : String) : ConnectResult :=
  { status, state := s, out := none, why }

/-- What the checks of `connect` work out for the part that mutates. -/
structure Judged where
  verdict : HfVerdict
  fuse : HfFuse
  why : String
  coinbase : CoinbaseCheck

/-- `static_cast<std::uint8_t>`. -/
def toU8 (x : U64) : U8 := Fin.ofNat (2 ^ 8) x.val

/-- The checks of `ConsensusState::connect`, in the order the source makes them. -/
def judge (s : ConsensusState) (block : BlockConnectInput) (now : U64) :
    Except (ConnectStatus × String) Judged :=
  let heightIn := s.height + 1
  if s.rows ≠ [] ∧ s.tip.map (·.id) ≠ some block.prevId then
    .error (.prevMismatch, "block does not extend the current tip")
  else if s.rows ≠ [] ∧ heightIn ≤ s.anchorHeight then
    .error (.belowAnchor, s!"refusing to connect at or below the anchor height {s.anchorHeight}")
  else
    let major := toU8 block.majorVersion
    let minor := toU8 block.minorVersion
    let (verdict, probe, why) := hfPolicyCheckBlock s.net heightIn major minor s.fuse
    let rulesV := hfRulesVersion major
    if !verdict.accepts then .error (.forkRejected, why)
    else if block.coinbaseHeight ≠ heightIn then
      .error (.heightMismatch,
        s!"coinbase height {block.coinbaseHeight} != block height {heightIn}")
    else if !minerTxOutputCountOk block.majorVersion block.minerTxOutputs then
      .error (.badCoinbase, s!"miner tx carries {block.minerTxOutputs}" ++
        s!" outputs, the limit at major version {block.majorVersion}" ++
        s!" is {maxMinerTxOutputs block.majorVersion}")
    else
      match s.timestamps.check block.timestamp now with
      | .tooFarInFuture => .error (.futureTimestamp, s!"block timestamp {block.timestamp}" ++
          " is more than two hours ahead of local time")
      | .belowMedian => .error (.badTimestamp, s!"block timestamp {block.timestamp}" ++
          s!" is below the 60-block median {s.timestamps.median}")
      | .ok =>
        if !block.bodiesComplete then
          .error (.bodiesMissing, "block bodies are incomplete: the weight cannot be computed")
        else
          let penMedian := penaltyMedian (s.weights.effectiveMedian rulesV)
            s.weights.shortTermMedian rulesV
          match getBlockReward penMedian block.blockWeight s.agc rulesV with
          | none => .error (.blockTooBig, s!"block weight {block.blockWeight}" ++
              s!" is beyond twice the median {penMedian}")
          | some base =>
            let cb := checkCoinbaseAmount block.coinbaseOutputSum base block.fees rulesV
            if !cb.ok then
              .error (.badCoinbase, s!"coinbase pays {block.coinbaseOutputSum}" ++
                s!", the rule allows {cb.expected}" ++
                s!" (base {base} + fees {block.fees})")
            else .ok { verdict, fuse := probe, why, coinbase := cb }

/-- The row `connect` writes for a block that passed its checks. -/
def rowOf (retarget : Retarget) (s : ConsensusState) (block : BlockConnectInput) (j : Judged) :
    ChainRow :=
  let rulesV := hfRulesVersion (toU8 block.majorVersion)
  let difficulty := s.difficulty.nextDifficulty retarget rulesV
  { height := s.height + 1
    id := block.id
    prevId := block.prevId
    timestamp := block.timestamp
    majorVersion := toU8 block.majorVersion
    minorVersion := toU8 block.minorVersion
    blockWeight := block.blockWeight
    longTermWeight := s.weights.nextLongTermWeight block.blockWeight rulesV
    difficulty := difficulty
    cumulativeDifficulty := match s.tip with
      | none => difficulty
      | some t => u128Add t.cumulativeDifficulty difficulty
    baseReward := j.coinbase.effectiveBase
    fees := block.fees
    reward := block.coinbaseOutputSum
    alreadyGeneratedCoins := accumulateGeneratedCoins s.agc j.coinbase.effectiveBase
    powVerified := block.powVerified
    rolledFork := j.verdict = .okRolled }

def undoOf (s : ConsensusState) (row : ChainRow) : ConnectUndo :=
  { weight := (s.weights.push row.blockWeight row.longTermWeight).2
    difficulty := (s.difficulty.push row.timestamp row.cumulativeDifficulty).2
    timestamp := (s.timestamps.push row.timestamp).2
    prevAlreadyGeneratedCoins := s.agc }

/-- The part of `connect` that mutates: the windows, the emission, the rows and the frontier. -/
def accept (s : ConsensusState) (fuse : HfFuse) (row : ChainRow) : ConsensusState :=
  let s' := trimRows
    { s with
      fuse := fuse
      weights := (s.weights.push row.blockWeight row.longTermWeight).1
      difficulty := (s.difficulty.push row.timestamp row.cumulativeDifficulty).1
      timestamps := (s.timestamps.push row.timestamp).1
      agc := row.alreadyGeneratedCoins
      rows := s.rows ++ [row] }
  { s' with
    verifiedFrontier :=
      if row.powVerified ∧ s'.verifiedFrontier < row.height then row.height
      else s'.verifiedFrontier
    epochSeq := s'.epochSeq + 1 }

def connect (retarget : Retarget) (s : ConsensusState) (block : BlockConnectInput) (now : U64) :
    ConnectResult :=
  match s.judge block now with
  | .error (status, why) => s.refuse status why
  | .ok j =>
    let row := s.rowOf retarget block j
    { status := .ok
      state := s.accept j.fuse row
      out := some (row, s.undoOf row)
      why := j.why }

variable {block : BlockConnectInput} {s : ConsensusState} {now : U64}

theorem judge_error_ne_ok {status : ConnectStatus} {why : String}
    (h : s.judge block now = .error (status, why)) : status ≠ .ok := by
  unfold judge at h
  dsimp only at h
  split at h
  · cases h; decide
  split at h
  · cases h; decide
  split at h
  · cases h; decide
  split at h
  · cases h; decide
  split at h
  · cases h; decide
  split at h
  · cases h; decide
  · cases h; decide
  split at h
  · cases h; decide
  split at h
  · cases h; decide
  split at h
  · cases h; decide
  · cases h

/-- What `connect` can do: refuse and leave the state as it is, or accept one row on top of the
tip. -/
theorem connect_cases (retarget : Retarget) (s : ConsensusState) (block : BlockConnectInput)
    (now : U64) :
    ((s.connect retarget block now).status ≠ .ok ∧ (s.connect retarget block now).state = s ∧
      (s.connect retarget block now).out = none) ∨
    ((s.connect retarget block now).status = .ok ∧ ∃ j, s.judge block now = .ok j ∧
      (s.connect retarget block now).state = s.accept j.fuse (s.rowOf retarget block j) ∧
      (s.connect retarget block now).out =
        some (s.rowOf retarget block j, s.undoOf (s.rowOf retarget block j))) := by
  unfold connect
  split
  next hj => exact Or.inl ⟨judge_error_ne_ok hj, rfl, rfl⟩
  next j hj => exact Or.inr ⟨rfl, j, hj, rfl, rfl⟩

theorem judge_height {j : Judged}
    (h : s.judge block now = .ok j) (hrows : s.rows ≠ []) : s.anchorHeight < s.height + 1 := by
  unfold judge at h
  dsimp only at h
  split at h
  · cases h
  split at h
  · cases h
  next habove =>
    simp only [hrows, ne_eq, not_false_eq_true, true_and, not_le] at habove
    exact habove

/-- The frontier `disconnect` falls back to: the highest retained row that carried a proof of
work, or the anchor. -/
def highestVerified (anchorHeight : U64) (rows : List ChainRow) : U64 :=
  ((rows.reverse.find? (·.powVerified)).map (·.height)).getD anchorHeight

/-- `ConsensusState::disconnect`: `none` is its refusal, which changes nothing. -/
def disconnect (s : ConsensusState) (undo : ConnectUndo) : Option ConsensusState :=
  match s.tip with
  | none => none
  | some t =>
    if t.height ≤ s.anchorHeight then none
    else
      let rows := s.rows.dropLast
      some { s with
        timestamps := s.timestamps.pop undo.timestamp
        difficulty := s.difficulty.pop undo.difficulty
        weights := s.weights.pop undo.weight
        agc := undo.prevAlreadyGeneratedCoins
        rows := rows
        verifiedFrontier := match rows.getLast? with
          | none => s.verifiedFrontier
          | some below =>
            if below.height < s.verifiedFrontier then highestVerified s.anchorHeight rows
            else s.verifiedFrontier
        epochSeq := s.epochSeq + 1 }

end ConsensusState

end C2Pool.Xmr
