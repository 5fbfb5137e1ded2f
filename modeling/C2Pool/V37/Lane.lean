import C2Pool.V37.Params

/-! # The lane

The state of `v37::Lane` and its positional operations (`v37_lane.hpp`): new shares enter the
level-0 ring, full rings are folded into buckets, buckets into larger buckets, and the oldest
buckets leave when the window is full.
-/

namespace C2Pool.V37

def provV37 : ProtoVersion := 37

def provAdmissible (v : ProtoVersion) : Prop := v = 35 ∨ v = 36 ∨ v = provV37

instance (v : ProtoVersion) : Decidable (provAdmissible v) := inferInstanceAs (Decidable (_ ∨ _))

/-- A bin that is set: any value but `UINT64_MAX`. -/
abbrev Bin := Fin (2 ^ 64 - 1)

/-- `WorkAtom`; an unset bin is `none`. -/
structure WorkAtom where
  miner : MinerId
  wRaw : U64
  flags : BitVec 32 := 0
  version : ProtoVersion := provV37
  originBin : Option Bin := none
  carrierBin : Option Bin := none
  isReceipt : Bool := false
  dNet : Fin (2 ^ 256) := 0
deriving DecidableEq

structure L0Slot where
  pos : Nat
  wRaw : U64
  wScaled : Nat
  miner : MinerId
  flags : BitVec 32
  version : ProtoVersion
deriving DecidableEq

abbrev Comp := SortedMap MinerId (Nat × Nat)

/-- `agg[miner] += (scaled, raw)`. -/
def Comp.add (c : Comp) (m : MinerId) (scaled raw : Nat) : Comp :=
  let old := (c.lookup m).getD (0, 0)
  c.insert m (old.1 + scaled, old.2 + raw)

structure Bucket where
  posLo : Nat
  posHi : Nat
  epochTag : Nat
  scaledSum : Nat
  rawWork : Nat
  comp : Comp
  prov : List ProvEntry
deriving DecidableEq

/-- The positional half of the lane, which the ridge activation consumes. -/
structure Positional where
  cover : Nat
  l0 : List L0Slot
  levels : Nat → List Bucket
  acc : Ledger MinerId
  accTotal : Nat
  rawTotal : Nat
  l0ScaledSum : Nat
  l0RawSum : Nat
  carry : Ledger MinerId
  carryTotal : Nat

structure CarrySegment where
  id : Nat
  halfLife : Nat
  fromPos : Option Nat
deriving DecidableEq

/-- The native-ridge state, `m_nr_*` and `m_W_bins`. -/
structure Ridge where
  started : Bool
  t : Nat
  t0 : Nat
  width : Nat
  fine : SortedMap Nat Nr.FineBin
  cells : Nat → SortedMap Nat Nr.Cell
  record : SortedMap Nat Nr.Cell
  lastCkptBin : Nat
  lastRetargetBin : Nat
  rawCur : Nat
  rawPrev : Nat
  dnetAtBase : Nat

/-- The native-ridge part of a checkpoint. -/
structure RidgeRecord where
  started : Bool
  t : Nat
  width : Nat
  t0 : Nat
  fineLoPos : Option Nat
  lastCkptBin : Nat
  lastRetargetBin : Nat
  rawCur : Nat
  rawPrev : Nat
  dnetAtBase : Nat
  cells : Nat → SortedMap Nat Nr.Cell
  record : SortedMap Nat Nr.Cell

structure Checkpoint where
  base : Nat
  nextPos : Nat
  carry : Ledger MinerId
  carryTotal : Nat
  mmr : PeakSet
  segments : List CarrySegment
  nr : Option RidgeRecord

structure PeriodState where
  lastRetargetBin : Nat
  rawCur : Nat
  rawPrev : Nat
  dnetAtBase : Nat

/-- A journal record. -/
inductive Op where
  | push (slot : L0Slot)
  | foldL0 (bucket : Bucket) (slots : List L0Slot)
  | foldLevel (level : Nat) (bucket : Bucket) (children : List Bucket)
  | evict (level : Nat) (bucket : Bucket) (subtracted : List (MinerId × Nat))
      (carried : Option PeakSet)
  | rebuildBoundary
  | nrClock (before : Nat) (started : Bool)
  | nrFold (level idx : Nat)
  | nrShed (bin : Nat) (fine : Nr.FineBin) (appended : Option PeakSet)
  | nrShedRecord (bin : Nat) (appended : Option PeakSet)
  | nrDrop (level idx : Nat) (cell : Nr.Cell)
  | nrDropRecord (bin : Nat) (cell : Nr.Cell)
  | nrWidth (before : Nat) (period : Option PeriodState)
  | nrCredit (bin : Nat) (miner : MinerId) (raw : Nat) (posLoBefore : Option Nat)
      (version : Option ProtoVersion)
  | nrCkpt (lastCkptBin : Nat) (dropped : Option Checkpoint)
  | nrMigrate (prologue : Positional) (widthBefore : Nat)

namespace Op

/-- A push record: `Push` or `NrCredit`. -/
def isPush : Op → Bool
  | .push _ | .nrCredit _ _ _ _ _ => true
  | _ => false

def isBoundary : Op → Bool
  | .rebuildBoundary => true
  | _ => false

/-- A record that follows the push record of its push. -/
def isPostOp : Op → Bool
  | .evict _ _ _ _ | .nrMigrate _ _ => true
  | _ => false

def isPreOp : Op → Bool
  | .foldL0 _ _ | .foldLevel _ _ _ => true
  | .nrClock _ _ | .nrFold _ _ | .nrShed _ _ _ | .nrShedRecord _ _ => true
  | .nrDrop _ _ _ | .nrDropRecord _ _ | .nrWidth _ _ | .nrCkpt _ _ => true
  | .push _ | .evict _ _ _ _ | .rebuildBoundary | .nrCredit _ _ _ _ _ | .nrMigrate _ _ => false

end Op

/-- The compiled-in tables and the hash. -/
structure Env where
  canon : CanonicalTables
  sha256d : List Byte → Bytes32

/-- A resolver of canonical identities; the calls without one pass `none`. -/
abbrev Resolver := MinerId → Bytes32

structure Lane extends Positional where
  params : LaneParams
  tables : DecayTables
  nextPos : Nat
  base : Nat
  mmr : PeakSet
  ckpts : List Checkpoint
  ridge : Ridge
  journal : List Op

/-- A throw, with the lane as the throw leaves it; a throw out of a ridge tick
comes with the lane at the last record of the tick. -/
structure Failure where
  cause : Throw
  lane : Lane

abbrev Attempt := Except Failure

namespace Lane

def orWrapped {α : Type} (lane : Lane) : Option α → Attempt α
  | some x => .ok x
  | none => .error ⟨.wrapped, lane⟩

def emptyRidge : Ridge :=
  ⟨false, 0, 0, 0, ∅, fun _ => ∅, ∅, 0, 0, 0, 0, 0⟩

def emptyPositional : Positional :=
  ⟨0, [], fun _ => [], ∅, 0, 0, 0, 0, ∅, 0⟩

def create (env : Env) (p : LaneParams) : Except Throw Lane := do
  let tables ← p.construct env.canon
  .ok { toPositional := emptyPositional
        params := p
        tables := tables
        nextPos := 0
        base := 0
        mmr := PeakSet.empty
        ckpts := []
        ridge := emptyRidge
        journal := [] }

def numLevels (lane : Lane) : Nat := lane.params.levelCaps.length

def mrrActive (lane : Lane) : Prop :=
  match lane.params.mrr.activationPos with
  | none => False
  | some pos => pos < lane.nextPos

instance (lane : Lane) : Decidable lane.mrrActive := by
  unfold mrrActive
  split <;> infer_instance

def nrActive (lane : Lane) : Prop :=
  lane.params.nr.version = 1 ∧
    (match lane.params.nr.activationPos with
    | none => False
    | some pos => pos < lane.nextPos) ∧ lane.mrrActive

instance (lane : Lane) : Decidable lane.nrActive := by
  unfold nrActive
  have : Decidable (match lane.params.nr.activationPos with
    | none => False
    | some pos => pos < lane.nextPos) := by split <;> infer_instance
  infer_instance

/-- The epoch factor of a bucket in the frame `base`. -/
def shift (lane : Lane) (base : Nat) (b : Bucket) : U64 :=
  lane.tables.epochShift ((base - b.epochTag) / lane.params.epochLen)

def worth (f : U64) (b : Bucket) : List (MinerId × Nat) :=
  b.comp.entries.map fun e => (e.1, mulQ e.2.1 f)

def bucketList (lane : Lane) : List Bucket :=
  (List.range lane.numLevels).flatMap lane.levels

/-- What the slots and buckets are worth to each miner in the frame `base`. -/
def holdings (lane : Lane) (base : Nat) : List (MinerId × Nat) :=
  (lane.l0.map fun s => (s.miner, s.wScaled)) ++
    lane.bucketList.flatMap fun b => worth (lane.shift base b) b

/-- `m_segments`. -/
def segments (lane : Lane) : List CarrySegment :=
  [⟨0, lane.params.halfLife, lane.params.mrr.activationPos⟩]

def fineLoPos (ridge : Ridge) : Option Nat :=
  ridge.fine.entries.foldl (fun lo e =>
    match lo, e.2.posLo with
    | none, p => p
    | some lo, none => some lo
    | some lo, some p => some (min lo p)) none

def makeCheckpoint (lane : Lane) : Checkpoint where
  base := lane.base
  nextPos := lane.nextPos
  carry := lane.carry
  carryTotal := lane.carryTotal
  mmr := lane.mmr
  segments := lane.segments
  nr :=
    if lane.params.nr.version = 1 ∧ lane.ridge.started then
      some ⟨lane.ridge.started, lane.ridge.t, lane.ridge.width, lane.ridge.t0,
        fineLoPos lane.ridge, lane.ridge.lastCkptBin, lane.ridge.lastRetargetBin,
        lane.ridge.rawCur, lane.ridge.rawPrev, lane.ridge.dnetAtBase, lane.ridge.cells,
        lane.ridge.record⟩
    else none

/-- Keep the newest `retain` checkpoints, oldest first. -/
def retained (retain : Nat) (ckpts : List Checkpoint) : List Checkpoint :=
  ckpts.drop (ckpts.length - retain)

/-- `mrr_rebase_carry`: one epoch factor per row, zero rows are erased. -/
def rebasedCarry (lane : Lane) : Ledger MinerId :=
  lane.carry.filterMap fun _ c =>
    let w := mulQ c (lane.tables.decay lane.params.epochLen)
    if w = 0 then none else some w

def rebaseSlot (lane : Lane) (base : Nat) (s : L0Slot) : L0Slot :=
  { s with wScaled := s.wRaw.val * (lane.tables.decay (base - s.pos)).val }

def epochRebuild (lane : Lane) : Attempt Lane :=
  if lane.nextPos - lane.base ≠ lane.params.epochLen then
    .error ⟨.logicError ("v37: epoch_rebuild outside the epoch boundary (positionally " ++
      "defined, §8.3)"), lane⟩
  else
    let base := lane.base + lane.params.epochLen
    let l0 := lane.l0.map (lane.rebaseSlot base)
    let held := { lane with l0 := l0 }.holdings base
    let carry := lane.rebasedCarry
    let rebuilt : Lane :=
      { lane with
        l0 := l0
        acc := (∅ : Ledger MinerId).creditAll held
        accTotal := (held.map Prod.snd).sum
        l0ScaledSum := (l0.map fun s => s.wScaled).sum
        carry := carry
        carryTotal := carry.total
        base := base }
    let ckpts :=
      match lane.params.mrr.activationPos with
      | some pos =>
        if pos ≤ base then
          retained lane.params.mrr.ckptRetain (lane.ckpts ++ [rebuilt.makeCheckpoint])
        else lane.ckpts
      | none => lane.ckpts
    .ok { rebuilt with ckpts := ckpts, journal := [.rebuildBoundary] }

/-- The bucket of `rollup` slots. -/
def bucketOfSlots (base : Nat) (slots : List L0Slot) : Bucket where
  posLo := (slots.head?.map fun s => s.pos).getD 0
  posHi := (slots.getLast?.map fun s => s.pos).getD 0
  epochTag := base
  scaledSum := (slots.map fun s => s.wScaled).sum
  rawWork := (slots.map fun s => s.wRaw.val).sum
  comp := slots.foldl (fun c s => c.add s.miner s.wScaled s.wRaw.val) ∅
  prov := provRows (slots.foldl (fun (m : Ledger ProvKey) s =>
    if s.version = provV37 then m else m.credit (toLex (s.version, s.miner)) s.wRaw.val) ∅)

def foldL0 (lane : Lane) : Attempt Lane := do
  let slots := lane.l0.take lane.params.rollup
  let b := bucketOfSlots lane.base slots
  let scaled ← lane.orWrapped (checkedSub lane.l0ScaledSum (slots.map fun s => s.wScaled).sum)
  let raw ← lane.orWrapped (checkedSub lane.l0RawSum (slots.map fun s => s.wRaw.val).sum)
  .ok { lane with
        l0 := lane.l0.drop lane.params.rollup
        l0ScaledSum := scaled
        l0RawSum := raw
        levels := Function.update lane.levels 0 (lane.levels 0 ++ [b])
        journal := .foldL0 b slots :: lane.journal }

/-- The bucket of `rollup` buckets, brought to the frame of the fold. -/
def bucketOfBuckets (lane : Lane) (children : List Bucket) : Bucket where
  posLo := (children.head?.map fun b => b.posLo).getD 0
  posHi := (children.getLast?.map fun b => b.posHi).getD 0
  epochTag := lane.base
  scaledSum := (children.map fun b => mulQ b.scaledSum (lane.shift lane.base b)).sum
  rawWork := (children.map fun b => b.rawWork).sum
  comp := children.foldl (fun c b => b.comp.entries.foldl (fun c e =>
    c.add e.1 (mulQ e.2.1 (lane.shift lane.base b)) e.2.2) c) ∅
  prov := provRows (children.foldl (fun (m : Ledger ProvKey) b => b.prov.foldl (fun m e =>
    m.credit (toLex (e.version, e.miner)) e.raw) m) ∅)

/-- One level of `cascade_folds`. -/
def foldLevel (lane : Lane) (k : Nat) : Lane :=
  if (lane.levels k).length < lane.params.levelCaps.getD k 0 then lane
  else
    let children := (lane.levels k).take lane.params.rollup
    let b := lane.bucketOfBuckets children
    { lane with
      levels := Function.update
        (Function.update lane.levels k ((lane.levels k).drop lane.params.rollup))
        (k + 1) (lane.levels (k + 1) ++ [b])
      journal := .foldLevel k b children :: lane.journal }

def cascadeFolds (lane : Lane) : Lane :=
  (List.range (lane.numLevels - 1)).foldl foldLevel lane

/-- The records up to the `d`-th push record, and the ones behind it. -/
def cut : Nat → List Op → Option (List Op × List Op)
  | _, [] => none
  | d, op :: ops =>
    if op.isPush then
      if d = 1 then some ([op], ops)
      else (cut (d - 1) ops).map fun parts => (op :: parts.1, parts.2)
    else (cut d ops).map fun parts => (op :: parts.1, parts.2)

/-- The trim of `journal_push`: the newest `depth` pushes, each with the
records before it that belong to it. -/
def trim (depth : Nat) (journal : List Op) : List Op :=
  match cut depth journal with
  | none => journal
  | some (kept, rest) => kept ++ rest.takeWhile fun op => op.isPreOp || op.isBoundary

def journalPush (lane : Lane) (op : Op) : Lane :=
  { lane with journal := trim lane.params.journalDepth (op :: lane.journal) }

/-! ## Insertion and eviction -/

/-- Step (4) of `push`. -/
def insertSlot (lane : Lane) (a : WorkAtom) : Lane :=
  let scaled := a.wRaw.val * (lane.tables.invDecay (lane.nextPos - lane.base)).val
  let s : L0Slot := ⟨lane.nextPos, a.wRaw, scaled, a.miner, a.flags, a.version⟩
  journalPush
    { lane with
      nextPos := lane.nextPos + 1
      l0 := lane.l0 ++ [s]
      acc := lane.acc.credit a.miner scaled
      accTotal := lane.accTotal + scaled
      rawTotal := lane.rawTotal + a.wRaw.val
      l0ScaledSum := lane.l0ScaledSum + scaled
      l0RawSum := lane.l0RawSum + a.wRaw.val
      cover := lane.cover + 1 }
    (.push s)

def oldestLevel (lane : Lane) : Option Nat :=
  (List.range lane.numLevels).foldl (fun best k =>
    match lane.levels k, best with
    | [], best => best
    | _ :: _, none => some k
    | b :: _, some j =>
      match lane.levels j with
      | [] => some k
      | b' :: _ => if b.posLo < b'.posLo then some k else some j) none

def byIdentity {α : Type} (rows : List (Bytes32 × α)) : List (Bytes32 × α) :=
  rows.insertionSort fun a b => a.1 ≤ b.1

/-- `append_prov_block`. -/
def provBlock (id : Resolver) (prov : List ProvEntry) : List Byte :=
  let rows := (prov.map fun e => ((toLex (e.version.val, id e.miner) : Nat ×ₗ Bytes32), e.raw))
    |>.insertionSort fun a b => a.1 ≤ b.1
  putTag "V37V" ++ putU64 rows.length ++
    rows.flatMap fun r => putU64 (ofLex r.1).1 ++ (ofLex r.1).2.toBytes ++ putU128 r.2

def compHash (env : Env) (id : Resolver) (b : Bucket) : Bytes32 :=
  env.sha256d ((byIdentity (b.comp.entries.map fun e => (id e.1, e.2))).flatMap fun r =>
    r.1.toBytes ++ putU256 r.2.1 ++ putU128 r.2.2)

def bucketLeafPayload (env : Env) (id : Resolver) (level : Nat) (b : Bucket) (provActive : Bool) :
    List Byte :=
  putTag "V37B" ++ putU64 level ++ putU64 b.posLo ++ putU64 b.posHi ++ putU128 b.rawWork ++
    putU64 b.epochTag ++ (compHash env id b).toBytes ++
    if provActive ∧ b.prov ≠ [] then provBlock id b.prov else []

def bucketLeaf (env : Env) (id : Resolver) (level : Nat) (b : Bucket) : Bytes32 :=
  leafHash env.sha256d (bucketLeafPayload env id level b true)

def carries (lane : Lane) (b : Bucket) : Prop :=
  lane.mrrActive ∧ ∃ pos ∈ lane.params.mrr.activationPos, pos ≤ b.posLo

instance (lane : Lane) (b : Bucket) : Decidable (lane.carries b) := by
  unfold carries
  infer_instance

/-- The limit of `mrr_check_headroom`. -/
def carryLimit : Nat := 2 ^ 156

def subtracted (lane : Lane) (b : Bucket) : List (MinerId × Nat) :=
  worth (lane.shift lane.base b) b

/-- What the carry gets of it; a zero row is never created. -/
def credited (lane : Lane) (b : Bucket) : List (MinerId × Nat) :=
  if lane.carries b then (lane.subtracted b).filter fun e => e.2 ≠ 0 else []

/-- The permanence range after the eviction. -/
def mmrAfter (env : Env) (resolver : Option Resolver) (lane : Lane) (k : Nat) (b : Bucket) :
    PeakSet :=
  match resolver with
  | some id =>
    if lane.carries b then mmrAppend env.sha256d lane.mmr (bucketLeaf env id k b) else lane.mmr
  | none => lane.mmr

/-- The eviction of bucket `b` from the front of level `k`. -/
def evictBucket (env : Env) (resolver : Option Resolver) (lane : Lane) (k : Nat) (b : Bucket)
    (rest : List Bucket) : Attempt Lane :=
  if lane.carries b ∧ resolver.isNone then
    .error
      ⟨.logicError ("v37: MRR-active carried eviction needs the canonical identity resolver " ++
      "(use push(miner, w_raw, flags, id_key))"), lane⟩
  else do
    let acc ← lane.orWrapped (lane.acc.debitAll (lane.subtracted b))
    let accTotal ← lane.orWrapped
      (checkedSub lane.accTotal ((lane.subtracted b).map Prod.snd).sum)
    let mid : Lane :=
      { lane with
        levels := Function.update lane.levels k rest
        acc := acc
        accTotal := accTotal
        carry := lane.carry.creditAll (lane.credited b)
        carryTotal := lane.carryTotal + ((lane.credited b).map Prod.snd).sum }
    if lane.carries b ∧ carryLimit ≤ mid.carryTotal then
      .error ⟨.logicError "v37: MRR carry exceeded its headroom bound", mid⟩
    else do
      let rawTotal ← mid.orWrapped (checkedSub lane.rawTotal b.rawWork)
      let cover ← mid.orWrapped (checkedSub lane.cover (b.posHi - b.posLo + 1))
      .ok { mid with
            mmr := lane.mmrAfter env resolver k b
            rawTotal := rawTotal
            cover := cover
            journal := .evict k b (lane.subtracted b)
              (if lane.carries b then some lane.mmr else none) :: lane.journal }

def evictOldestBucket (env : Env) (resolver : Option Resolver) (lane : Lane) : Attempt Lane :=
  match lane.oldestLevel with
  | none => .error ⟨.logicError "v37: cover > W with no buckets", lane⟩
  | some k =>
    match lane.levels k with
    | [] => .error ⟨.logicError "v37: cover > W with no buckets", lane⟩
    | b :: rest => lane.evictBucket env resolver k b rest

/-- Step (5) of `push`; every eviction shortens the cover. -/
def evictLoop (env : Env) (resolver : Option Resolver) : Nat → Lane → Attempt Lane
  | 0, lane => .ok lane
  | rounds + 1, lane =>
    if lane.params.window.val < lane.cover then do
      let next ← lane.evictOldestBucket env resolver
      evictLoop env resolver rounds next
    else .ok lane

def undoPush (lane : Lane) (s : L0Slot) : Attempt Lane := do
  let acc ← lane.orWrapped (lane.acc.debit s.miner s.wScaled)
  let accTotal ← lane.orWrapped (checkedSub lane.accTotal s.wScaled)
  let rawTotal ← lane.orWrapped (checkedSub lane.rawTotal s.wRaw.val)
  let scaled ← lane.orWrapped (checkedSub lane.l0ScaledSum s.wScaled)
  let raw ← lane.orWrapped (checkedSub lane.l0RawSum s.wRaw.val)
  let cover ← lane.orWrapped (checkedSub lane.cover 1)
  let nextPos ← lane.orWrapped (checkedSub lane.nextPos 1)
  .ok { lane with
        l0 := lane.l0.dropLast
        acc := acc
        accTotal := accTotal
        rawTotal := rawTotal
        l0ScaledSum := scaled
        l0RawSum := raw
        cover := cover
        nextPos := nextPos }

def undoFoldL0 (lane : Lane) (slots : List L0Slot) : Lane :=
  { lane with
    levels := Function.update lane.levels 0 (lane.levels 0).dropLast
    l0 := slots ++ lane.l0
    l0ScaledSum := lane.l0ScaledSum + (slots.map fun s => s.wScaled).sum
    l0RawSum := lane.l0RawSum + (slots.map fun s => s.wRaw.val).sum }

def undoFoldLevel (lane : Lane) (k : Nat) (children : List Bucket) : Lane :=
  let levels := Function.update lane.levels (k + 1) (lane.levels (k + 1)).dropLast
  { lane with levels := Function.update levels k (children ++ levels k) }

def undoEvict (lane : Lane) (k : Nat) (b : Bucket) (subtracted : List (MinerId × Nat))
    (carried : Option PeakSet) : Attempt Lane := do
  let debited := if carried.isSome then subtracted.filter fun e => e.2 ≠ 0 else []
  let carry ← lane.orWrapped (lane.carry.debitAll debited)
  let carryTotal ← lane.orWrapped (checkedSub lane.carryTotal (debited.map Prod.snd).sum)
  .ok { lane with
        levels := Function.update lane.levels k (b :: lane.levels k)
        acc := lane.acc.creditAll subtracted
        accTotal := lane.accTotal + (subtracted.map Prod.snd).sum
        carry := carry
        carryTotal := carryTotal
        rawTotal := lane.rawTotal + b.rawWork
        cover := lane.cover + (b.posHi - b.posLo + 1)
        mmr := carried.getD lane.mmr }

end Lane

end C2Pool.V37
