import C2Pool.V37.LanePush

/-! # The lane digest

`digest`: the root of a Merkle tree over the canonical leaves of a lane.  Rows
stand in the order of their canonical identities, so that no leaf depends on
the ids a node has interned.
-/

namespace C2Pool.V37

/-- `UINT64_MAX` where there is nothing. -/
def putU64Opt (x : Option Nat) : List Byte := putU64 (x.getD (2 ^ 64 - 1))

namespace Lane

def l0Provenance (lane : Lane) : List ProvEntry :=
  provRows (lane.l0.foldl (fun (m : Ledger ProvKey) s =>
    if s.version = provV37 then m else m.credit (toLex (s.version, s.miner)) s.wRaw.val) ∅)

def ledgerLeaves (env : Env) (tag : String) (id : Resolver) (rows : Ledger MinerId) :
    List Bytes32 :=
  (byIdentity (rows.entries.map fun e => (id e.1, e.2))).map fun r =>
    leafHash env.sha256d (putTag tag ++ r.1.toBytes ++ putU256 r.2)

/-- `append_carry_leaves`. -/
def carryLeaves (env : Env) (id : Resolver) (carry : Ledger MinerId) : List Bytes32 :=
  ledgerLeaves env "V37C" id carry

def mmrRootPayload (leafCount : Nat) (root : Bytes32) : List Byte :=
  putTag "V37P" ++ putU64 leafCount ++ root.toBytes

def mmrLeaf (env : Env) (mmr : PeakSet) : Bytes32 :=
  leafHash env.sha256d (mmrRootPayload mmr.leafCount (mmrBag env.sha256d mmr))

def nrCarriedLeafPayload (env : Env) (id : Resolver) (c : Nr.Cell) : List Byte :=
  putTag "NRX1" ++ putU64 c.level ++ putU64 c.binHi ++ putU64 (if c.recordOnly then 1 else 0) ++
    putU128 c.carriedRaw ++ putU64 c.carried.entries.length ++
    (nrRowsHash env id c.carried).toBytes

def cellBefore (a c : Nr.Cell) : Prop :=
  c.binHi < a.binHi ∨
    (a.binHi = c.binHi ∧ (c.level < a.level ∨
      (a.level = c.level ∧ (a.recordOnly = true ∨ c.recordOnly = false))))

instance : DecidableRel cellBefore := fun _ _ => inferInstanceAs (Decidable (_ ∨ _))

/-- `nr_ordered_cells_of`. -/
def nrOrderedCells (cells : Nat → SortedMap Nat Nr.Cell) (record : SortedMap Nat Nr.Cell) :
    List Nr.Cell :=
  (((List.range (Nr.maxFoldCap + 1)).flatMap fun l => (cells l).entries.map Prod.snd) ++
    record.entries.map Prod.snd).insertionSort cellBefore

def cellLeaf (env : Env) (id : Resolver) (c : Nr.Cell) : Bytes32 :=
  leafHash env.sha256d (nrCellLeafPayload env id c)

def carriedLeaf (env : Env) (id : Resolver) (c : Nr.Cell) : List Bytes32 :=
  if c.carried ≠ ∅ then [leafHash env.sha256d (nrCarriedLeafPayload env id c)] else []

/-- The ridge part of `checkpoint_digest`. -/
def ridgeRecordBytes (env : Env) (id : Resolver) (r : RidgeRecord) : List Byte :=
  let leaves := (nrOrderedCells r.cells r.record).flatMap fun c =>
    cellLeaf env id c :: carriedLeaf env id c
  putTag "NRK1" ++ putU64 (if r.started then 1 else 0) ++ putU64 r.t ++ putU64 r.width ++
    putU64 r.t0 ++ putU64Opt r.fineLoPos ++ putU64 r.lastCkptBin ++ putU64 r.lastRetargetBin ++
    putU256 r.rawCur ++ putU256 r.rawPrev ++ putU256 r.dnetAtBase ++ putU64 leaves.length ++
    Bytes32.toBytes (if leaves = [] then 0 else merkleRoot env.sha256d leaves)

def checkpointDigest (env : Env) (id : Resolver) (c : Checkpoint) : Bytes32 :=
  let root := merkleRoot env.sha256d (carryLeaves env id c.carry ++ [mmrLeaf env c.mmr])
  env.sha256d (putTag "CKP1" ++ putU64 c.base ++ putU64 c.nextPos ++
    putU64 c.segments.length ++
    (c.segments.flatMap fun s => putU64 s.id ++ putU64 s.halfLife ++ putU64Opt s.fromPos) ++
    putU64 c.carry.entries.length ++ putU256 c.carryTotal ++ putU64 c.mmr.leafCount ++
    root.toBytes ++
    match c.nr with
    | some r => ridgeRecordBytes env id r
    | none => [])

def newestCheckpointDigest (env : Env) (id : Resolver) (lane : Lane) : Bytes32 :=
  match lane.ckpts.getLast? with
  | none => 0
  | some c => checkpointDigest env id c

def geometryBytes (p : LaneParams) : List Byte :=
  putTag "V37H" ++ putU64 p.window.val ++ putU64 p.c0 ++ putU64 p.rollup ++ putU64 p.halfLife ++
    putU64 p.levelCaps.length ++ p.levelCaps.flatMap putU64 ++
    if p.kFloor ≠ 0 then putTag "KFL1" ++ putU64 p.kFloor else []

/-- The carry block of the header leaf. -/
def mrrBytes (env : Env) (id : Resolver) (lane : Lane) : List Byte :=
  putTag "MRR1" ++ putU64Opt lane.params.mrr.activationPos ++ putU64 lane.carry.entries.length ++
    putU256 lane.carryTotal ++ putU64 lane.mmr.leafCount ++
    (newestCheckpointDigest env id lane).toBytes

def ridgeBytes (lane : Lane) : List Byte :=
  let nr := lane.params.nr
  let cells := nrOrderedCells lane.ridge.cells lane.ridge.record
  putTag "NRG1" ++ putU64Opt nr.activationPos ++ putU64 nr.version ++ putU64 nr.foldCap ++
    putU64 nr.openHorizonBins ++ putU64 nr.wMinBins ++ putU64 nr.wMaxBins ++
    putU64 nr.wDefaultBins ++ putU64 nr.coverageBlocks ++ putU64 nr.binSeconds ++
    putU64 nr.retargetBins ++ putU64 nr.ckptBins ++
    putU64 (if nr.nCtxBins = 0 then Nr.nCtxBins else nr.nCtxBins) ++ putU64 lane.ridge.width ++
    putU64 lane.ridge.t ++ putU64 lane.nrBBin ++ putU64 lane.ridge.t0 ++ putU64 cells.length ++
    putU64 (cells.countP fun c => c.carried ≠ ∅)

def headerBytes (env : Env) (id : Resolver) (lane : Lane) : List Byte :=
  geometryBytes lane.params ++ putU64 lane.base ++ putU64 lane.nextPos ++
    putU64 lane.acc.entries.length ++ putU64 lane.l0.length ++ putU256 lane.l0ScaledSum ++
    putU128 lane.l0RawSum ++
    ((List.range lane.numLevels).flatMap fun k => putU64 (lane.levels k).length) ++
    (if lane.mrrActive then mrrBytes env id lane else []) ++
    (if lane.nrActive then lane.ridgeBytes else []) ++
    if lane.mrrActive ∧ lane.l0Provenance ≠ [] then provBlock id lane.l0Provenance else []

def bucketLeaves (env : Env) (id : Resolver) (lane : Lane) : List Bytes32 :=
  (List.range lane.numLevels).flatMap fun k => (lane.levels k).map fun b =>
    leafHash env.sha256d (bucketLeafPayload env id k b (decide lane.mrrActive))

/-- The seal records of the cells, and their carried splits. -/
def ridgeLeaves (env : Env) (id : Resolver) (lane : Lane) : List Bytes32 :=
  let cells := nrOrderedCells lane.ridge.cells lane.ridge.record
  cells.map (cellLeaf env id) ++ cells.flatMap (carriedLeaf env id)

/-- `build_leaves`, with the window gate off. -/
def buildLeaves (env : Env) (id : Resolver) (lane : Lane) : List Bytes32 :=
  leafHash env.sha256d (headerBytes env id lane) :: ledgerLeaves env "V37A" id lane.acc ++
    bucketLeaves env id lane ++ (if lane.nrActive then ridgeLeaves env id lane else []) ++
    if lane.mrrActive then carryLeaves env id lane.carry ++ [mmrLeaf env lane.mmr] else []

def digest (env : Env) (id : Resolver) (lane : Lane) : Bytes32 :=
  merkleRoot env.sha256d (lane.buildLeaves env id)

end Lane

end C2Pool.V37
