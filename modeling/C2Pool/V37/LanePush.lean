import C2Pool.V37.RidgeEngine

/-! # Pushes and rewinds

`push`, `nr_set_width` and `rewind`, the calls that change a lane, and the runs
made of them.
-/

namespace C2Pool.V37

namespace Lane

def headDecay (lane : Lane) : U64 :=
  if lane.nextPos = lane.base then qOne
  else lane.tables.decay (lane.nextPos - 1 - lane.base)

def payoutMapPositional (lane : Lane) : Ledger MinerId :=
  Ledger.creditAll (lane.acc.mapValues fun _ w => mulQ w lane.headDecay)
    (lane.carry.entries.map fun e => (e.1, mulQ e.2 lane.headDecay))

/-- The rows that a cell adds to `nr_payout_map`. -/
def cellPayouts (c : Nr.Cell) : List (MinerId × Nat) :=
  (c.comp.entries.map fun e => (e.1, (Nr.cellRead c e.1).1 + (Nr.cellRead c e.1).2)).filter
    fun e => e.2 ≠ 0

def nrPayoutMap (lane : Lane) : Ledger MinerId :=
  (∅ : Ledger MinerId).creditAll ((nrAllCells lane.ridge).flatMap cellPayouts)

def payoutMap (lane : Lane) : Ledger MinerId :=
  if lane.nrActive then lane.nrPayoutMap else lane.payoutMapPositional

def decayedWeight (lane : Lane) (m : MinerId) : Nat :=
  if lane.nrActive then lane.nrPayoutMap.amount m
  else mulQ (lane.acc.amount m) lane.headDecay + mulQ (lane.carry.amount m) lane.headDecay

def prologueProv (lane : Lane) : Ledger ProvKey :=
  let slots := lane.l0.foldl (fun (m : Ledger ProvKey) s =>
    if s.version = provV37 then m else m.credit (toLex (s.version, s.miner)) s.wRaw.val) ∅
  lane.bucketList.foldl (fun m b => b.prov.foldl (fun m e =>
    m.credit (toLex (e.version, e.miner)) e.raw) m) slots

def prologueCell (lane : Lane) (t0 : Nat) : Nr.Cell where
  level := 0
  binLo := t0
  binHi := t0
  rawWork := lane.rawTotal
  comp := lane.payoutMapPositional.filterMap fun _ w => if w = 0 then none else some w
  prov := provRows lane.prologueProv
  recordOnly := true
  G := qOne
  carried := ∅
  carriedRaw := 0

def nrMigrate (lane : Lane) (t0 : Nat) : Lane :=
  let cell := lane.prologueCell t0
  { lane with
    toPositional := emptyPositional
    ridge :=
      { lane.ridge with
        started := true
        t := t0
        t0 := t0
        width := lane.params.nr.wDefaultBins
        record :=
          if cell.rawWork ≠ 0 ∨ cell.comp ≠ ∅ then lane.ridge.record.insert t0 cell
          else lane.ridge.record
        lastCkptBin := t0 / lane.params.nr.ckptBins * lane.params.nr.ckptBins
        lastRetargetBin := t0 / lane.params.nr.retargetBins * lane.params.nr.retargetBins
        rawCur := 0
        rawPrev := 0
        dnetAtBase := 0 } }.record
    (.nrMigrate lane.toPositional lane.ridge.width)

def nrUndoMigrate (lane : Lane) (prologue : Positional) (widthBefore : Nat) : Attempt Lane :=
  if ((List.range (Nr.maxFoldCap + 1)).any fun l => !(lane.ridge.cells l).entries.isEmpty) then
    .error ⟨.logicError "v37: NR migration undo with live cells (journal order)", lane⟩
  else if lane.ridge.fine ≠ ∅ then
    .error ⟨.logicError "v37: NR migration undo with a live fine layer (journal order)", lane⟩
  else
    .ok { lane with
          toPositional := prologue
          ridge :=
            { lane.ridge with
              started := false
              t := 0
              t0 := 0
              width := widthBefore
              record := ∅
              lastCkptBin := 0
              lastRetargetBin := 0
              rawCur := 0
              rawPrev := 0
              dnetAtBase := 0 } }

/-! ## The ridge push -/

def nrAfterClockMove (env : Env) (id : Resolver) (lane : Lane) (a : WorkAtom) : Attempt Lane := do
  let folded ← lane.nrRunDueFolds env
  let shed ← (folded.nrMaybeRetarget a).nrShedBelowFloor env id
  let dropped ← shed.nrDropBeyondDomain
  dropped.nrRefreshScalars env

/-- The clock that a push would install. -/
def nrProspective (lane : Lane) (a : WorkAtom) (carrier : Bin) : Nat :=
  if a.isReceipt then lane.ridge.t else max lane.ridge.t carrier.val

/-- The guards of `nr_push`, decided before any change: `some` refusal. -/
def nrRefusal (lane : Lane) (a : WorkAtom) (origin carrier : Bin) : Option Throw :=
  let prospective := lane.nrProspective a carrier
  let floor := if lane.ridge.width < prospective + 1 then prospective - lane.ridge.width + 1 else 0
  if carrier < origin then
    some (.invalidArgument "v37: NR origin_bin above its carrier_bin")
  else if lane.ridge.started = false then
    some (.logicError ("v37: NR push before the activation migration " ++
      "(nr_active() must imply a started ridge)"))
  else if origin.val < floor then
    some (.invalidArgument ("v37: NR Expired — origin_bin below the burial floor B_bin " ++
      "(ruling I; W2 REJECT_EXPIRED)"))
  else if Nr.sealedBin origin.val prospective lane.params.nr.openHorizonBins then
    some (.invalidArgument ("v37: NR Expired-sealed — origin_bin inside the settled past " ++
      "(paper §15; W2 REJECT_SEALED)"))
  else if lane.ridge.t + Nr.ladderDomainBins ≤ carrier.val then
    some (.invalidArgument ("v37: NR Expired — carrier_bin a whole ladder domain past the clock " ++
      "(a forward clock jump; ruling I, W2 REJECT_EXPIRED)"))
  else if ∃ hi ∈ lane.nrOldestUnfoldedBinHi, hi + Nr.ladderDomainBins ≤ carrier.val then
    some (.invalidArgument
      ("v37: NR Expired — carrier_bin a whole ladder domain past the oldest " ++
      "cell still awaiting its fold (forward clock jump, ND-R15b fence)"))
  else none

/-- The clock of `nr_push`: its record, and the tick when it moves. -/
def nrTick (env : Env) (id : Resolver) (lane : Lane) (a : WorkAtom) (prospective : Nat) :
    Attempt Lane :=
  let recorded := lane.record (.nrClock lane.ridge.t lane.ridge.started)
  if lane.ridge.t < prospective then
    nrAfterClockMove env id { recorded with ridge := { lane.ridge with t := prospective } } a
  else .ok recorded

/-- `nr_push` behind its guards. -/
def nrAdmitted (env : Env) (id : Resolver) (lane : Lane) (a : WorkAtom) (origin carrier : Bin) :
    Attempt Lane := do
  let prospective := lane.nrProspective a carrier
  let ticked ← (lane.nrMaybeCheckpoint prospective).nrTick env id a prospective
  ticked.nrCredit env a origin.val

def nrPush (env : Env) (resolver : Option Resolver) (lane : Lane) (a : WorkAtom) : Attempt Lane :=
  match resolver with
  | none =>
    .error ⟨.logicError ("v37: an NR-active push needs the canonical identity resolver " ++
      "(a fully carried cell's permanence leaf) — use push(atom, id_key)"), lane⟩
  | some id =>
    match a.originBin, a.carrierBin with
    | some origin, some carrier =>
      match lane.nrRefusal a origin carrier with
      | some e => .error ⟨e, lane⟩
      | none => lane.nrAdmitted env id a origin carrier
    | _, _ =>
      .error ⟨.invalidArgument ("v37: NR push needs origin_bin / carrier_bin " ++
        "(set by the W2 admission emitter)"), lane⟩

def nrSetWidth (env : Env) (resolver : Option Resolver) (lane : Lane) (w : U64) : Attempt Lane :=
  match resolver with
  | none =>
    .error ⟨.logicError "v37: nr_set_width needs the canonical identity resolver", lane⟩
  | some id =>
    if ¬ lane.nrActive ∨ lane.ridge.started = false then
      .error ⟨.logicError "v37: nr_set_width before the native ridge is live", lane⟩
    else if w.val < lane.params.nr.wMinBins ∨ lane.params.nr.wMaxBins < w.val then
      .error ⟨.invalidArgument "v37: NR width outside [W_MIN, W_MAX]", lane⟩
    else if w.val % lane.params.rollup ≠ 0 then
      .error ⟨.invalidArgument "v37: NR width not R-aligned", lane⟩
    else do
      let recorded := lane.record (.nrWidth lane.ridge.width none)
      let shed ← nrShedBelowFloor env id
        { recorded with ridge := { recorded.ridge with width := w.val } }
      let dropped ← shed.nrDropBeyondDomain
      dropped.nrRefreshScalars env

def nrActivating (lane : Lane) : Prop :=
  lane.params.nr.version = 1 ∧ lane.params.nr.activationPos = some lane.nextPos

instance (lane : Lane) : Decidable lane.nrActivating := inferInstanceAs (Decidable (_ ∧ _))

/-- Step (1) of a positional push. -/
def rebuildIfDue (lane : Lane) : Attempt Lane :=
  if lane.nextPos - lane.base = lane.params.epochLen then lane.epochRebuild else .ok lane

/-- Step (2). -/
def foldIfFull (lane : Lane) : Attempt Lane :=
  if lane.l0.length = lane.params.c0 then lane.foldL0 else .ok lane

/-- Steps (1) to (3): rebuild, fold, cascade. -/
def settle (lane : Lane) : Attempt Lane := do
  let rebuilt ← lane.rebuildIfDue
  let folded ← rebuilt.foldIfFull
  .ok folded.cascadeFolds

def pushPositional (env : Env) (resolver : Option Resolver) (lane : Lane) (a : WorkAtom) :
    Attempt Lane := do
  let settled ← lane.settle
  let inserted := settled.insertSlot a
  evictLoop env resolver inserted.cover inserted

/-- `push`, with the window gate off. -/
def push (env : Env) (resolver : Option Resolver) (lane : Lane) (a : WorkAtom) : Attempt Lane :=
  if a.wRaw.val = 0 then .error ⟨.invalidArgument "v37: zero-work share", lane⟩
  else if ¬ provAdmissible a.version then
    .error ⟨.invalidArgument ("v37: inadmissible share provenance " ++
      "(not one of v35 / v36 / v37)"), lane⟩
  else if lane.nrActive then lane.nrPush env resolver a
  else if lane.nrActivating then
    match a.carrierBin with
    | none =>
      .error ⟨.invalidArgument ("v37(nr): the ridge activation share needs its carrier_bin " ++
        "(t0_bin, ruling K)"), lane⟩
    | some carrier => do
        let pushed ← lane.pushPositional env resolver a
        .ok (if pushed.nrActive ∧ pushed.ridge.started = false then pushed.nrMigrate carrier.val
          else pushed)
  else lane.pushPositional env resolver a

def undoOp (env : Env) (lane : Lane) : Op → Attempt Lane
  | .push s => lane.undoPush s
  | .foldL0 _ slots => .ok (lane.undoFoldL0 slots)
  | .foldLevel k _ children => .ok (lane.undoFoldLevel k children)
  | .evict k b subtracted carried => lane.undoEvict k b subtracted carried
  | .rebuildBoundary =>
    .error ⟨.logicError "v37: undo of the rebuild sentinel (unreachable)", lane⟩
  | .nrClock before started => lane.nrUndoClock env before started
  | .nrFold level idx => lane.nrUndoFold env level idx
  | .nrShed bin fine appended => lane.nrUndoShed bin fine appended
  | .nrShedRecord bin appended => lane.nrUndoShedRecord bin appended
  | .nrDrop level idx c => .ok (lane.nrUndoDrop level idx c)
  | .nrDropRecord bin c => .ok (lane.nrUndoDropRecord bin c)
  | .nrWidth before period => .ok (lane.nrUndoWidth before period)
  | .nrCredit bin miner raw posLo version => lane.nrUndoCredit env bin miner raw posLo version
  | .nrCkpt lastCkptBin dropped => lane.nrUndoCkpt lastCkptBin dropped
  | .nrMigrate prologue width => lane.nrUndoMigrate prologue width

/-- The first loop of `rewind`, over the journal that is left. -/
def undoPushes (env : Env) : List Op → Nat → Lane → Attempt Lane
  | rest, 0, lane => .ok { lane with journal := rest }
  | [], _ + 1, lane => .ok { lane with journal := [] }
  | op :: rest, d + 1, lane =>
    if op.isBoundary then
      .error ⟨.logicError ("v37: rewind crossed rebuild sentinel" ++
        " (guarded above — unreachable)"), lane⟩
    else do
      let undone ← { lane with journal := rest }.undoOp env op
      undoPushes env rest (if op.isPush then d else d + 1) undone

/-- The second loop of `rewind`: the records that belong to the last undone push. -/
def undoPreOps (env : Env) : List Op → Lane → Attempt Lane
  | [], lane => .ok { lane with journal := [] }
  | op :: rest, lane =>
    if op.isPreOp then do
      let undone ← { lane with journal := rest }.undoOp env op
      undoPreOps env rest undone
    else .ok { lane with journal := op :: rest }

def pushes (journal : List Op) : Nat := journal.countP fun op => op.isPush

/-- `rewind`, and whether it could be served. -/
def rewind (env : Env) (lane : Lane) (d : Nat) : Attempt (Bool × Lane) :=
  if pushes lane.journal < d then .ok (false, lane)
  else if (∃ op ∈ lane.journal, op.isBoundary) ∧ d = pushes lane.journal then .ok (false, lane)
  else do
    let undone ← undoPushes env lane.journal d lane
    let restored ← undoPreOps env undone.journal undone
    .ok (true, restored)

end Lane

inductive Call where
  | push (resolver : Option Resolver) (atom : WorkAtom)
  | setWidth (resolver : Option Resolver) (width : U64)
  | rewind (d : Nat)

/-- A push with its resolver, for runs that only push. -/
abbrev Share := Option Resolver × WorkAtom

def Lane.pushShare (env : Env) (lane : Lane) (x : Share) : Attempt Lane :=
  lane.push env x.1 x.2

def Lane.afterShares (env : Env) (p : LaneParams) (shares : List Share) : Option Lane :=
  match Lane.create env p with
  | .error _ => none
  | .ok lane => (PartialRun.run (pushShare env) lane shares).toOption

theorem Lane.afterShares_eq_some {env : Env} {p : LaneParams} {shares : List Share} {lane : Lane}
    (h : afterShares env p shares = some lane) :
    ∃ lane₀, create env p = .ok lane₀ ∧ PartialRun.run (pushShare env) lane₀ shares = .ok lane := by
  unfold afterShares at h
  split at h
  · cases h
  rename_i lane₀ hcreate
  refine ⟨lane₀, hcreate, ?_⟩
  cases hrun : PartialRun.run (pushShare env) lane₀ shares with
  | error e =>
    rw [hrun] at h
    cases h
  | ok last =>
    rw [hrun] at h
    cases h
    rfl

def Lane.call (env : Env) (lane : Lane) : Call → Attempt Lane
  | .push resolver a => lane.push env resolver a
  | .setWidth resolver w => lane.nrSetWidth env resolver w
  | .rewind d => (lane.rewind env d).map Prod.snd

end C2Pool.V37
