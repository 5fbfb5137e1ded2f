import C2Pool.V37.Lane

/-! # The native-ridge engine

The `nr_*` operations of the lane.  Work is credited to its origin bin; when the
clock moves, sealed groups of bins are folded into larger cells, bins that leave
the window are shed into the carried part of their cell, and cells at the edge
of the ladder are dropped.
-/

namespace C2Pool.V37

namespace Winlaw

/-- `U256::mul_small`, saturating. -/
def mulSmall (x m : Nat) : Nat := min (x * m) (2 ^ 256 - 1)

/-- `U256::div_u128_to_u64`, saturating; division by zero gives zero. -/
def divU128ToU64 (x d : Nat) : Nat := min (x / d) (2 ^ 64 - 1)

def clampU64 (x lo hi : Nat) : Nat := if x < lo then lo else if hi < x then hi else x

def floorToR (w r : Nat) : Nat := if r = 0 then w else w / r * r

def dampRatio (old target f : Nat) : Nat :=
  if f ≤ 1 then old
  else clampU64 target (old / f) (min (old * f) (2 ^ 64 - 1))

def retargetWidthOver (dNet width raw span : Nat) (w : WinGate) : Nat :=
  if raw = 0 ∨ width = 0 ∨ span = 0 then
    floorToR (clampU64 w.wDefaultBins w.wMinBins w.wMaxBins) w.retargetBins
  else
    let target := divU128ToU64 (mulSmall (mulSmall dNet w.coverageBlocks) span) raw
    floorToR (clampU64 (dampRatio width target w.dampFactor) w.wMinBins w.wMaxBins)
      w.retargetBins

end Winlaw

def LaneParams.nrWidthParams (p : LaneParams) : WinGate :=
  { coverageBlocks := p.nr.coverageBlocks
    binSeconds := p.nr.binSeconds
    wMinBins := p.nr.wMinBins
    wDefaultBins := p.nr.wDefaultBins
    wMaxBins := p.nr.wMaxBins
    retargetBins := p.nr.retargetBins
    dampFactor := 4 }

namespace Lane

def orThrow {α : Type} (lane : Lane) : Except Throw α → Attempt α
  | .ok x => .ok x
  | .error e => .error ⟨e, lane⟩

def record (lane : Lane) (op : Op) : Lane := { lane with journal := op :: lane.journal }

def nrBBin (lane : Lane) : Nat :=
  if lane.ridge.started then
    if lane.ridge.width < lane.ridge.t + 1 then lane.ridge.t - lane.ridge.width + 1 else 0
  else 0

def nrSealed (lane : Lane) (bin : Nat) : Prop :=
  lane.ridge.started ∧ Nr.sealedBin bin lane.ridge.t lane.params.nr.openHorizonBins

instance (lane : Lane) (bin : Nat) : Decidable (lane.nrSealed bin) :=
  inferInstanceAs (Decidable (_ ∧ _))

def nrOldestUnfoldedBinHi (lane : Lane) : Option Nat :=
  ((List.range lane.params.nr.foldCap).flatMap fun l =>
    (lane.ridge.cells l).entries.map fun e => e.2.binHi).min?

/-- Bins of level `l`, first and last. -/
def spanLo (level idx : Nat) : Nat := idx * Nr.powR level
def spanHi (level idx : Nat) : Nat := idx * Nr.powR level + Nr.powR level - 1

def binCredits (fb : Nr.FineBin) : List (MinerId × Nat) :=
  fb.rows.entries.map fun r => (r.1, r.2.v)

def reframeBin (env : Env) (lane : Lane) (level binHi bin : Nat) (fb : Nr.FineBin) :
    Except Throw Nr.FineBin :=
  (fb.rows.tryMap fun _ p =>
    (Nr.pairValue env.canon lane.params.nr.allowDigitRepeat bin p.raw level binHi).map
      fun v => { p with v := v }).map fun rows => { fb with rows := rows }

def reframe (env : Env) (lane : Lane) (level idx : Nat) : Except Throw (SortedMap Nat Nr.FineBin) :=
  lane.ridge.fine.tryMap fun bin fb =>
    if spanLo level idx ≤ bin ∧ bin ≤ spanHi level idx then
      lane.reframeBin env level (spanHi level idx) bin fb
    else .ok fb

def cellOf (level idx : Nat) (bins : List Nr.FineBin) (g : U64) : Nr.Cell where
  level := level
  binLo := spanLo level idx
  binHi := spanHi level idx
  rawWork := (bins.map fun fb => fb.rawSum).sum
  comp := (∅ : Ledger MinerId).creditAll (bins.flatMap binCredits)
  prov := provRows ((∅ : Ledger ProvKey).creditAll (bins.flatMap fun fb => fb.prov.entries))
  recordOnly := false
  G := g
  carried := ∅
  carriedRaw := 0

def binsOf (fine : SortedMap Nat Nr.FineBin) (level idx : Nat) : List Nr.FineBin :=
  (fine.slice (spanLo level idx) (spanHi level idx)).map Prod.snd

/-- `cell_scalar` at the lane's clock. -/
def scalar (env : Env) (lane : Lane) (binHi : Nat) : Except Throw U64 :=
  Nr.cellScalar env.canon lane.params.nr.allowDigitRepeat lane.ridge.t binHi

/-- `nr_build_cell_from_fine`: the fine layer in the frame of the cell, and the
cell unless it is empty. -/
def nrBuildCellFromFine (env : Env) (lane : Lane) (level idx : Nat) :
    Except Throw (SortedMap Nat Nr.FineBin × Option Nr.Cell) := do
  let fine ← lane.reframe env level idx
  let g ← lane.scalar env (spanHi level idx)
  let bins := binsOf fine level idx
  .ok (fine, if bins = [] then none else some (cellOf level idx bins g))

def setLevel (lane : Lane) (level : Nat) (cells : SortedMap Nat Nr.Cell) : Lane :=
  { lane with ridge := { lane.ridge with cells := Function.update lane.ridge.cells level cells } }

def setFine (lane : Lane) (fine : SortedMap Nat Nr.FineBin) : Lane :=
  { lane with ridge := { lane.ridge with fine := fine } }

def nrFoldGroup (env : Env) (lane : Lane) (level pidx : Nat) : Attempt Lane :=
  let child := lane.ridge.cells (level - 1)
  let lo := pidx * Nr.rollup
  let hi := pidx * Nr.rollup + Nr.rollup - 1
  if ∃ e ∈ child.slice lo hi, e.2.carried ≠ ∅ then
    .error ⟨.logicError "v37: NR fold of a carried child (fold-before-shed)", lane⟩
  else do
    let cut := lane.setLevel (level - 1) (child.cutOut lo hi)
    let (fine, cell) ← lane.orThrow (cut.nrBuildCellFromFine env level pidx)
    match cell with
    | none =>
      .error ⟨.logicError "v37: NR fold group with children but no fine layer", lane⟩
    | some c =>
      .ok (((cut.setFine fine).setLevel level ((cut.ridge.cells level).insert pidx c)).record
        (.nrFold level pidx))

/-- The groups of level `l` that are due, in the order of their children. -/
def nrDueGroups (lane : Lane) (l : Nat) : List Nat :=
  (lane.ridge.cells (l - 1)).entries.foldl (fun due e =>
    let pidx := e.2.binLo / Nr.powR l
    if Nr.sealedBin (spanHi l pidx) lane.ridge.t lane.params.nr.openHorizonBins ∧
        due.getLast? ≠ some pidx then due ++ [pidx]
    else due) []

/-- One level of `nr_run_due_folds`. -/
def nrFoldLevel (env : Env) (lane : Lane) (l : Nat) : Attempt Lane :=
  (lane.nrDueGroups l).foldlM (fun lane pidx => lane.nrFoldGroup env l pidx) lane

def nrRunDueFolds (env : Env) (lane : Lane) : Attempt Lane :=
  (List.range lane.params.nr.foldCap).foldlM (fun lane l => lane.nrFoldLevel env (l + 1)) lane

/-- The children that `nr_undo_fold` builds again: the live bins of a group of
bins, every index of a group of cells. -/
def nrChildren (lane : Lane) (level pidx : Nat) : List Nat :=
  if level = 1 then
    (lane.ridge.fine.slice (spanLo 1 pidx) (spanHi 1 pidx)).map Prod.fst
  else (List.range Nr.rollup).map fun i => pidx * Nr.rollup + i

def nrRestoreChild (env : Env) (level : Nat) (lane : Lane) (cidx : Nat) : Attempt Lane := do
  let (fine, cell) ← lane.orThrow (lane.nrBuildCellFromFine env level cidx)
  match cell with
  | none => .ok (lane.setFine fine)
  | some c => .ok ((lane.setFine fine).setLevel level ((lane.ridge.cells level).insert cidx c))

def nrUndoFold (env : Env) (lane : Lane) (level pidx : Nat) : Attempt Lane :=
  match (lane.ridge.cells level).lookup pidx with
  | none => .error ⟨.logicError "v37: NR fold undo — parent cell missing", lane⟩
  | some c =>
    if c.carried ≠ ∅ then
      .error ⟨.logicError "v37: NR fold undo — parent carried (journal order)", lane⟩
    else
      (lane.nrChildren level pidx).foldlM (nrRestoreChild env (level - 1))
        (lane.setLevel level ((lane.ridge.cells level).erase pidx))

/-! ## Shed -/

/-- `nr_find_owner`: the level and index of the owning cell. -/
def nrFindOwner (lane : Lane) (bin : Nat) : Option (Nat × Nat) :=
  ((List.range (lane.params.nr.foldCap + 1)).reverse.find? fun l =>
    ((lane.ridge.cells l).lookup (bin / Nr.powR l)).isSome).map fun l => (l, bin / Nr.powR l)

def nrRowsHash (env : Env) (id : Resolver) (rows : Ledger MinerId) : Bytes32 :=
  env.sha256d ((byIdentity (rows.entries.map fun e => (id e.1, e.2))).flatMap fun r =>
    r.1.toBytes ++ putU256 r.2)

def nrCellLeafPayload (env : Env) (id : Resolver) (c : Nr.Cell) : List Byte :=
  putTag "NRC1" ++ putU64 c.level ++ putU64 c.binHi ++ putU64 c.binLo ++ putU128 c.rawWork ++
    putU64 (if c.recordOnly then 1 else 0) ++ putU64 c.comp.entries.length ++
    (nrRowsHash env id c.comp).toBytes ++ if c.prov ≠ [] then provBlock id c.prov else []

def nrOnFullCarry (env : Env) (id : Resolver) (lane : Lane) (c : Nr.Cell) : Attempt Lane :=
  if c.carried ≠ c.comp then
    .error ⟨.logicError "v37: NR fully carried cell with carried != comp", lane⟩
  else
    .ok { lane with
          mmr := mmrAppend env.sha256d lane.mmr
            (leafHash env.sha256d (nrCellLeafPayload env id c)) }

def shedInto (c : Nr.Cell) (fb : Nr.FineBin) : Nr.Cell :=
  { c with
    carried := c.carried.creditAll (binCredits fb)
    carriedRaw := c.carriedRaw + fb.rawSum }

/-- One round of `nr_shed_below_floor` over the fine layer. -/
def nrShedBin (env : Env) (id : Resolver) (lane : Lane) (e : Nat × Nr.FineBin) : Attempt Lane :=
  match lane.nrFindOwner e.1 with
  | none => .error ⟨.logicError "v37: NR shed of a bin with no owning cell", lane⟩
  | some (l, idx) => do
      let c := shedInto (((lane.ridge.cells l).lookup idx).getD Nr.Cell.default) e.2
      let shed := (lane.setFine (lane.ridge.fine.erase e.1)).setLevel l
        ((lane.ridge.cells l).insert idx c)
      if c.fullyCarried then
        let full ← shed.nrOnFullCarry env id c
        .ok (full.record (.nrShed e.1 e.2 (some lane.mmr)))
      else .ok (shed.record (.nrShed e.1 e.2 none))

def setRecord (lane : Lane) (cells : SortedMap Nat Nr.Cell) : Lane :=
  { lane with ridge := { lane.ridge with record := cells } }

/-- One round of `nr_shed_below_floor` over the record cells. -/
def nrShedRecordCell (env : Env) (id : Resolver) (floor : Nat) (lane : Lane)
    (e : Nat × Nr.Cell) : Attempt Lane :=
  if floor ≤ e.1 ∨ e.2.fullyCarried then .ok lane
  else do
    let c : Nr.Cell := { e.2 with carried := e.2.comp, carriedRaw := e.2.rawWork }
    let shed := lane.setRecord (lane.ridge.record.insert e.1 c)
    let full ← shed.nrOnFullCarry env id c
    .ok (full.record (.nrShedRecord e.1 (some lane.mmr)))

/-- `nr_shed_below_floor`; a shed removes its bin and no other. -/
def nrShedBelowFloor (env : Env) (id : Resolver) (lane : Lane) : Attempt Lane := do
  let floor := lane.nrBBin
  let shed ← (lane.ridge.fine.entries.takeWhile fun e => e.1 < floor).foldlM
    (nrShedBin env id) lane
  shed.ridge.record.entries.foldlM (nrShedRecordCell env id floor) shed

/-- `l[k] -= v` of `nr_undo_shed`: the row must be there. -/
def nrUnshedRow (lane : Lane) (carried : Ledger MinerId) (r : MinerId × Nat) :
    Attempt (Ledger MinerId) :=
  match carried.lookup r.1 with
  | none => .error ⟨.logicError "v37: NR shed undo — carried row missing", lane⟩
  | some _ => lane.orWrapped (carried.debit r.1 r.2)

/-- `nr_undo_shed` of a bin. -/
def nrUndoShed (lane : Lane) (bin : Nat) (fb : Nr.FineBin) (appended : Option PeakSet) :
    Attempt Lane :=
  match lane.nrFindOwner bin with
  | none => .error ⟨.logicError "v37: NR shed undo — owning cell missing", lane⟩
  | some (l, idx) => do
      let c := ((lane.ridge.cells l).lookup idx).getD Nr.Cell.default
      let carried ← (binCredits fb).foldlM lane.nrUnshedRow c.carried
      let raw ← lane.orWrapped (checkedSub c.carriedRaw fb.rawSum)
      let back := (lane.setLevel l ((lane.ridge.cells l).insert idx
        { c with carried := carried, carriedRaw := raw })).setFine (lane.ridge.fine.insert bin fb)
      .ok { back with mmr := appended.getD lane.mmr }

/-- `nr_undo_shed` of a record cell. -/
def nrUndoShedRecord (lane : Lane) (bin : Nat) (appended : Option PeakSet) : Attempt Lane :=
  match lane.ridge.record.lookup bin with
  | none => .error ⟨.logicError "v37: NR shed undo — record cell missing", lane⟩
  | some c =>
    .ok { lane.setRecord (lane.ridge.record.insert bin
            { c with carried := ∅, carriedRaw := 0 }) with
          mmr := appended.getD lane.mmr }

def beyondDomain (lane : Lane) (c : Nr.Cell) : Prop :=
  (c.binHi + Nr.ladderDomainBins) % 2 ^ 64 ≤ lane.ridge.t

instance (lane : Lane) (c : Nr.Cell) : Decidable (lane.beyondDomain c) :=
  inferInstanceAs (Decidable (_ ≤ _))

def nrDropCell (l : Nat) (lane : Lane) (e : Nat × Nr.Cell) : Attempt Lane :=
  if ¬ lane.beyondDomain e.2 then .ok lane
  else if ¬ e.2.fullyCarried then
    .error ⟨.logicError "v37: NR domain-edge drop of a cell with live bins", lane⟩
  else
    .ok ((lane.setLevel l ((lane.ridge.cells l).erase e.1)).record (.nrDrop l e.1 e.2))

def nrDropRecordCell (lane : Lane) (e : Nat × Nr.Cell) : Attempt Lane :=
  if ¬ lane.beyondDomain e.2 then .ok lane
  else if ¬ e.2.fullyCarried then
    .error ⟨.logicError "v37: NR domain-edge drop of a live record cell", lane⟩
  else .ok ((lane.setRecord (lane.ridge.record.erase e.1)).record (.nrDropRecord e.1 e.2))

def nrDropBeyondDomain (lane : Lane) : Attempt Lane := do
  let cells ← (List.range (lane.params.nr.foldCap + 1)).foldlM
    (fun lane l => (lane.ridge.cells l).entries.foldlM (nrDropCell l) lane) lane
  cells.ridge.record.entries.foldlM nrDropRecordCell cells

def nrUndoDrop (lane : Lane) (l idx : Nat) (c : Nr.Cell) : Lane :=
  lane.setLevel l ((lane.ridge.cells l).insert idx c)

def nrUndoDropRecord (lane : Lane) (bin : Nat) (c : Nr.Cell) : Lane :=
  lane.setRecord (lane.ridge.record.insert bin c)

def nrAllCells (ridge : Ridge) : List Nr.Cell :=
  ((List.range (Nr.maxFoldCap + 1)).flatMap fun l =>
    (ridge.cells l).entries.map Prod.snd) ++ ridge.record.entries.map Prod.snd

def rescale (env : Env) (lane : Lane) (c : Nr.Cell) : Option Nr.Cell :=
  (lane.scalar env c.binHi).toOption.map fun g => { c with G := g }

def nrRefreshScalars (env : Env) (lane : Lane) : Attempt Lane :=
  match (nrAllCells lane.ridge).findSome? fun c =>
      PartialRun.failure (lane.scalar env c.binHi) with
  | some e => .error ⟨e, lane⟩
  | none =>
    .ok { lane with ridge :=
            { lane.ridge with
              cells := fun l => (lane.ridge.cells l).filterMap fun _ c => lane.rescale env c
              record := lane.ridge.record.filterMap fun _ c => lane.rescale env c } }

def nrUndoClock (env : Env) (lane : Lane) (before : Nat) (started : Bool) : Attempt Lane :=
  nrRefreshScalars env
    { lane with ridge := { lane.ridge with t := before, started := started } }

def nrMaybeRetarget (lane : Lane) (a : WorkAtom) : Lane :=
  let r := lane.ridge
  let due := r.t / lane.params.nr.retargetBins * lane.params.nr.retargetBins
  if due ≤ r.lastRetargetBin then lane
  else
    let span := due - max r.lastRetargetBin r.t0
    let width :=
      if a.dNet.val = 0 then r.width
      else Winlaw.retargetWidthOver a.dNet.val r.width r.rawCur span lane.params.nrWidthParams
    { lane with ridge :=
        { r with
          lastRetargetBin := due
          rawPrev := r.rawCur
          rawCur := 0
          dnetAtBase := a.dNet.val
          width := width } }.record
      (.nrWidth r.width (some ⟨r.lastRetargetBin, r.rawCur, r.rawPrev, r.dnetAtBase⟩))

def nrUndoWidth (lane : Lane) (before : Nat) (period : Option PeriodState) : Lane :=
  match period with
  | none => { lane with ridge := { lane.ridge with width := before } }
  | some p =>
    { lane with ridge :=
        { lane.ridge with
          width := before
          lastRetargetBin := p.lastRetargetBin
          rawCur := p.rawCur
          rawPrev := p.rawPrev
          dnetAtBase := p.dnetAtBase } }

/-- `nr_take_checkpoint`; the record keeps the last checkpoint that leaves the ring. -/
def nrTakeCheckpoint (lane : Lane) : Lane :=
  let ring := lane.ckpts ++ [lane.makeCheckpoint]
  let drop := ring.length - lane.params.mrr.ckptRetain
  { lane with ckpts := retained lane.params.mrr.ckptRetain ring }.record
    (.nrCkpt lane.ridge.lastCkptBin (ring.take drop).getLast?)

def nrMaybeCheckpoint (lane : Lane) (prospective : Nat) : Lane :=
  let due := prospective / lane.params.nr.ckptBins * lane.params.nr.ckptBins
  if due ≤ lane.ridge.lastCkptBin then lane
  else
    let taken := lane.nrTakeCheckpoint
    { taken with ridge := { taken.ridge with lastCkptBin := due } }

def nrUndoCkpt (lane : Lane) (lastCkptBin : Nat) (dropped : Option Checkpoint) : Attempt Lane :=
  if lane.ckpts = [] then
    .error ⟨.logicError "v37: NR checkpoint undo with an empty ring", lane⟩
  else
    .ok { lane with
          ckpts := dropped.toList ++ lane.ckpts.dropLast
          ridge := { lane.ridge with lastCkptBin := lastCkptBin } }

def nrOpenCell (env : Env) (lane : Lane) (bin : Nat) : Attempt Nr.Cell :=
  let c := ((lane.ridge.cells 0).lookup bin).getD Nr.Cell.default
  if c.rawWork = 0 ∧ c.comp = ∅ then do
    let g ← lane.orThrow (lane.scalar env bin)
    .ok { c with level := 0, binLo := bin, binHi := bin, G := g }
  else .ok c

/-- `pair_value` of a bin in the frame of a cell. -/
def pairIn (env : Env) (lane : Lane) (c : Nr.Cell) (bin raw : Nat) : Attempt Nat :=
  lane.orThrow
    (Nr.pairValue env.canon lane.params.nr.allowDigitRepeat bin raw c.level c.binHi)

def nrCreditBin (lane : Lane) (a : WorkAtom) (bin : Nat) (fb : Nr.FineBin) (v : Nat) :
    Nr.FineBin where
  bin := bin
  rawSum := fb.rawSum + a.wRaw.val
  rows := fb.rows.insert a.miner
    ⟨((fb.rows.lookup a.miner).getD ⟨0, 0⟩).raw + a.wRaw.val, v⟩
  prov :=
    if a.version = provV37 then fb.prov
    else fb.prov.credit (toLex (a.version, a.miner)) a.wRaw.val
  posLo := some (match fb.posLo with
    | none => lane.nextPos
    | some lo => min lo lane.nextPos)

/-- `nr_credit` and the end of `nr_push`: the position and the period work. -/
def nrCredit (env : Env) (lane : Lane) (a : WorkAtom) (bin : Nat) : Attempt Lane :=
  if lane.nrSealed bin then
    .error ⟨.logicError "v37: NR credit into a sealed bin (guarded by admission)", lane⟩
  else do
    let c ← lane.nrOpenCell env bin
    let fb := (lane.ridge.fine.lookup bin).getD ⟨0, 0, ∅, ∅, none⟩
    let p := (fb.rows.lookup a.miner).getD ⟨0, 0⟩
    let v ← lane.pairIn env c bin (p.raw + a.wRaw.val)
    let kept ← lane.orWrapped (checkedSub (c.comp.amount a.miner) p.v)
    let fb' := lane.nrCreditBin a bin fb v
    let c' : Nr.Cell :=
      { c with
        comp := c.comp.insert a.miner (kept + v)
        rawWork := c.rawWork + a.wRaw.val
        prov := if a.version = provV37 then c.prov else provRows fb'.prov }
    let credited := journalPush
      ((lane.setFine (lane.ridge.fine.insert bin fb')).setLevel 0
        ((lane.ridge.cells 0).insert bin c'))
      (.nrCredit bin a.miner a.wRaw.val fb.posLo
        (if a.version = provV37 then none else some a.version))
    .ok { credited with
          nextPos := lane.nextPos + 1
          ridge := { credited.ridge with rawCur := lane.ridge.rawCur + a.wRaw.val } }

def nrUncreditProv (lane : Lane) (prov : Ledger ProvKey) (miner : MinerId) (raw : Nat) :
    Option ProtoVersion → Attempt (Ledger ProvKey)
  | none => .ok prov
  | some version =>
    match prov.lookup (toLex (version, miner)) with
    | none => .error ⟨.logicError "v37: NR credit undo — provenance row missing", lane⟩
    | some _ => lane.orWrapped (prov.debit (toLex (version, miner)) raw)

def nrUncreditPair (env : Env) (lane : Lane) (c : Nr.Cell) (bin rest : Nat) : Attempt Nat :=
  if rest = 0 then .ok 0 else lane.pairIn env c bin rest

def nrUndoCredit (env : Env) (lane : Lane) (bin : Nat) (miner : MinerId) (raw : Nat)
    (posLoBefore : Option Nat) (version : Option ProtoVersion) : Attempt Lane :=
  match (lane.ridge.cells 0).lookup bin, lane.ridge.fine.lookup bin with
  | some c, some fb =>
    match fb.rows.lookup miner with
    | none => .error ⟨.logicError "v37: NR credit undo — pair missing", lane⟩
    | some p => do
        let rest ← lane.orWrapped (checkedSub p.raw raw)
        let v ← lane.nrUncreditPair env c bin rest
        let kept ← lane.orWrapped (checkedSub (c.comp.amount miner) p.v)
        let rawWork ← lane.orWrapped (checkedSub c.rawWork raw)
        let rawCur ← lane.orWrapped (checkedSub lane.ridge.rawCur raw)
        let rawSum ← lane.orWrapped (checkedSub fb.rawSum raw)
        let nextPos ← lane.orWrapped (checkedSub lane.nextPos 1)
        let prov ← lane.nrUncreditProv fb.prov miner raw version
        let fb' : Nr.FineBin :=
          { fb with
            rawSum := rawSum
            rows := if rest = 0 then fb.rows.erase miner
              else fb.rows.insert miner ⟨rest, v⟩
            prov := prov
            posLo := posLoBefore }
        let c' : Nr.Cell :=
          { c with
            comp := if kept + v = 0 then c.comp.erase miner
              else c.comp.insert miner (kept + v)
            rawWork := rawWork
            prov := if version.isSome then provRows prov else c.prov }
        let fine := if fb'.rows = ∅ then lane.ridge.fine.erase bin
          else lane.ridge.fine.insert bin fb'
        let cells := if c'.rawWork = 0 ∧ c'.comp = ∅ then (lane.ridge.cells 0).erase bin
          else (lane.ridge.cells 0).insert bin c'
        let back := (lane.setFine fine).setLevel 0 cells
        .ok { back with
              nextPos := nextPos
              ridge := { back.ridge with rawCur := rawCur } }
  | _, _ => .error ⟨.logicError "v37: NR credit undo — open cell / fine bin missing", lane⟩

end Lane

end C2Pool.V37
