import C2Pool.Lib.Run
import C2Pool.V37.OwedEvents

/-! # The owed ledger

`OwedLedger` (`w4_settlement.hpp`): a found block waits in the pending set; its credit and its
payout reach the finalized balances only when it is finalized. Amounts are integers: the code
assumes that its 64-bit sums do not overflow, and saturates where it does not assume it.
-/

namespace C2Pool.V37

structure DropsWindowRule where
  window : U64 := 0
  halfLife : U64 := 0
  epochLen : U64 := 0
  rw : U64 := 0
  workLz : Nat := 0
deriving DecidableEq

def DropsWindowRule.on (r : DropsWindowRule) : Prop :=
  r.window ≠ 0 ∧ r.halfLife ≠ 0 ∧ r.epochLen ≠ 0 ∧ r.rw ≠ 0 ∧ r.workLz ≠ 0 ∧ r.workLz ≤ 62

instance (r : DropsWindowRule) : Decidable r.on := inferInstanceAs (Decidable (_ ∧ _))

/-- `OwedLedgerRules`; every rule is off by default. -/
structure OwedLedgerRules where
  armFloor : Int := 0
  rotateOnPayment : Bool := false
  decayHorizon : U64 := 0
  decayHalfLife : U64 := 0
  anchorCut : Bool := false
  merkleRows : Bool := false
  dropsDue : Bool := false
  raindropEnrol : Bool := false
  dropsWindow : DropsWindowRule := {}
  laneHeight : Bool := false
  decayFromGross : Bool := false
deriving DecidableEq

def OwedLedgerRules.decayOn (rules : OwedLedgerRules) : Prop :=
  0 < rules.armFloor ∧ 0 < rules.decayHorizon ∧ 0 < rules.decayHalfLife

instance (rules : OwedLedgerRules) : Decidable rules.decayOn := inferInstanceAs (Decidable (_ ∧ _))

/-- `ScriptRef`; a kind is any byte. -/
structure ScriptRef where
  kind : Byte := 255
  payload : List Byte := []
deriving DecidableEq

structure AnchorCut where
  nextPos : U64
  spine : Bytes32
deriving DecidableEq

structure DropsEnrolRec where
  eff : U64
  ref : ScriptRef
deriving DecidableEq

abbrev DropsEnrolRegistry := SortedMap Bytes32 DropsEnrolRec

/-- `DropsWindowKey`: the end position of a bin, its receipts and the payee, compared in this
order. -/
abbrev DropsWindowKey := U64 ×ₗ U64 ×ₗ Bytes32

abbrev DropsWindow := Balances DropsWindowKey

structure LaneFound where
  height : U64 := 0
  gross : SortedMap Bytes32 Unit := ∅
deriving DecidableEq

/-- `DropsFound`, without its diagnostics. -/
structure DropsFound where
  deposit : Amounts := ∅
  claim : Bool := false
  claimed : Amounts := ∅
  enrolAdd : DropsEnrolRegistry := ∅
  window : DropsWindow := ∅
deriving DecidableEq

/-- The arguments of `on_block_found` next to the block id. -/
structure FoundArgs where
  credit : Amounts := ∅
  payout : Amounts := ∅
  cut : Option AnchorCut := none
  drops : Option DropsFound := none
  lane : Option LaneFound := none
deriving DecidableEq

def dropsSatAdd (a b : Int) : Int := max (-2 ^ 63) (min (2 ^ 63 - 1) (a + b))

/-- `Pending`: what a found block brings, zero rows dropped and rules applied. -/
structure Pending where
  credit : Amounts := ∅
  payout : Amounts := ∅
  cut : Option AnchorCut := none
  deposit : Amounts := ∅
  claimed : Amounts := ∅
  enrolAdd : DropsEnrolRegistry := ∅
  window : DropsWindow := ∅
  height : U64 := 0
  gross : SortedMap Bytes32 Unit := ∅
deriving DecidableEq

/-- The finalized part of the ledger, which `owed_digest` commits to. -/
structure Finalized where
  finalW : Amounts := ∅
  firstEligible : SortedMap Bytes32 U64 := ∅
  goneSince : SortedMap Bytes32 U64 := ∅
  decaySteps : SortedMap Bytes32 U64 := ∅
  anchor : Option AnchorCut := none
  lastSettledLaneHeight : U64 := 0
  due : Amounts := ∅
  enrol : DropsEnrolRegistry := ∅
  dwin : DropsWindow := ∅
deriving DecidableEq

structure OwedLedger extends Finalized where
  seq : Nat := 0
  pending : SortedMap Bid Pending := ∅
  settled : Finset Bid := ∅
  residual : Int := 0
  residualEvents : List (Bid × Int) := []
  index : EffectiveOwedIndex := {}
  evlog : RecordLog := {}
deriving DecidableEq

def Finalized.feAt (fin : Finalized) (k : Bytes32) : U64 := (fin.firstEligible.lookup k).getD 0

/-- The row that `on_block_found` makes of its arguments. -/
def Pending.ofFound (rules : OwedLedgerRules) (args : FoundArgs) : Pending where
  credit := args.credit.nonzero
  payout := args.payout.nonzero
  cut := if rules.anchorCut then args.cut else none
  deposit :=
    match args.drops with
    | some d => if rules.dropsDue then d.deposit.nonzero else ∅
    | none => ∅
  claimed :=
    match args.drops with
    | some d => if rules.dropsDue ∧ d.claim then d.claimed.nonzero else ∅
    | none => ∅
  enrolAdd :=
    match args.drops with
    | some d =>
      if rules.raindropEnrol then
        d.enrolAdd.filterMap fun _ r => if r.eff = 0 then none else some r
      else ∅
    | none => ∅
  window :=
    match args.drops with
    | some d => if rules.dropsWindow.on then d.window.nonzero else ∅
    | none => ∅
  height :=
    match args.lane with
    | some l => if rules.laneHeight then l.height else 0
    | none => 0
  gross :=
    match args.lane with
    | some l => if rules.decayFromGross then l.gross else ∅
    | none => ∅

def putEnrolRecords (m : DropsEnrolRegistry) : List Byte :=
  putU64 m.entries.length ++ m.entries.flatMap fun e =>
    e.1.toBytes ++ putU64 e.2.eff.val ++ [e.2.ref.kind] ++
      [Fin.ofNat 256 e.2.ref.payload.length] ++ e.2.ref.payload

def putDropsWindow (w : DropsWindow) : List Byte :=
  putU64 w.entries.length ++ w.entries.flatMap fun e =>
    putU64 (ofLex e.1).1.val ++ putU64 (ofLex (ofLex e.1).2).1.val ++
      (ofLex (ofLex e.1).2).2.toBytes ++ putI64 e.2

/-- The leaf of a found block: its maps, and a section for each of its other parts that is not
empty. -/
def Pending.leaf (bid : Bid) (p : Pending) : List Byte :=
  foundPayload bid p.credit p.payout ++
    (if p.deposit ≠ ∅ ∨ p.claimed ≠ ∅ then
      putTag "V37U" ++ putAmap p.deposit ++ putAmap p.claimed
    else []) ++
    (if p.enrolAdd ≠ ∅ then putTag "V37G" ++ putEnrolRecords p.enrolAdd else []) ++
    (if p.window ≠ ∅ then putTag "V37W" ++ putDropsWindow p.window else []) ++
    if p.height ≠ 0 ∨ p.gross ≠ ∅ then
      putTag "V37Z" ++ putU64 p.height.val ++ putU64 p.gross.entries.length ++
        p.gross.entries.flatMap fun e => e.1.toBytes
    else []

/-! ## Finalizing -/

namespace Finalized

variable (rules : OwedLedgerRules)

/-- `finalW += credit; finalW -= payout`. -/
def book (fin : Finalized) (p : Pending) : Finalized :=
  { fin with finalW := (fin.finalW.addAll p.credit).subAll p.payout }

def noteHeight (fin : Finalized) (p : Pending) : Finalized :=
  if rules.laneHeight ∧ fin.lastSettledLaneHeight < p.height then
    { fin with lastSettledLaneHeight := p.height }
  else fin

/-- The keys that a block credits, for the dust clock: the gross set, or the rows that are
positive. -/
def creditedBy (p : Pending) : List Bytes32 :=
  if rules.decayFromGross then p.gross.keys
  else (p.credit.entries.filter fun e => 0 < e.2).map Prod.fst

/-- The dust clock: the credited keys are cleared, and every sub-floor key that the block passed
by is gone from now on. -/
def runClock (fin : Finalized) (p : Pending) (binHeight : U64) : Finalized :=
  if rules.decayOn then
    let credited := creditedBy rules p
    let gone := fin.goneSince.filterMap fun k g => if k ∈ credited then none else some g
    let steps := fin.decaySteps.filterMap fun k n => if k ∈ credited then none else some n
    if credited = [] then { fin with goneSince := gone, decaySteps := steps }
    else
      { fin with
        goneSince := fin.finalW.entries.foldl (fun g e =>
          if 0 < e.2 ∧ e.2 < rules.armFloor ∧ g.lookup e.1 = none ∧ e.1 ∉ credited then
            g.insert e.1 binHeight
          else g) gone
        decaySteps := steps }
  else fin

def moveAnchor (fin : Finalized) (p : Pending) : Finalized :=
  match p.cut with
  | some cut => if rules.anchorCut then { fin with anchor := some cut } else fin
  | none => fin

/-- `due -= claimed`, `due += deposit`, zero rows dropped. -/
def settleDue (fin : Finalized) (p : Pending) : Finalized :=
  if rules.dropsDue then
    { fin with
      due := ((fin.due.combine (fun a v => dropsSatAdd a (-v)) p.claimed).combine
        dropsSatAdd p.deposit).nonzero }
  else fin

def earliest (r : Option DropsEnrolRec) (e : DropsEnrolRec) : DropsEnrolRec :=
  match r with
  | none => e
  | some r => if e.eff < r.eff then e else r

def joinRegistry (fin : Finalized) (p : Pending) : Finalized :=
  if rules.raindropEnrol then { fin with enrol := fin.enrol.merge earliest p.enrolAdd } else fin

def slideWindow (fin : Finalized) (p : Pending) : Finalized :=
  if rules.dropsWindow.on then
    let n := (fin.anchor.map AnchorCut.nextPos).getD 0
    { fin with
      dwin := (fin.dwin.combine dropsSatAdd p.window).filterMap fun ck v =>
        if v = 0 ∨ ((ofLex ck).1 ≤ n ∧ rules.dropsWindow.window ≤ n - (ofLex ck).1) then none
        else some v }
  else fin

def halvingsDue (binHeight since : U64) : U64 :=
  1 + (binHeight - since - rules.decayHorizon) / rules.decayHalfLife

/-- What `decay_dust` writes off of one row: the amount and the halvings that are then done. -/
def dustOff (fin : Finalized) (binHeight : U64) (k : Bytes32) (w : Int) : Option (Int × U64) :=
  match fin.goneSince.lookup k with
  | none => none
  | some since =>
    if w ≤ 0 ∨ rules.armFloor ≤ w then none
    else if binHeight < since + rules.decayHorizon then none
    else
      let due := halvingsDue rules binHeight since
      let done := (fin.decaySteps.lookup k).getD 0
      if due ≤ done then none
      else
        let n := (due - done).val
        some (w - (if 63 ≤ n then 0 else w / 2 ^ n), due)

/-- The rows for which `decay_dust` reads a halving count, which makes an absent one zero. -/
def dustRead (fin : Finalized) (binHeight : U64) (k : Bytes32) (w : Int) : Prop :=
  0 < w ∧ w < rules.armFloor ∧
    ∃ since ∈ fin.goneSince.lookup k, ¬ binHeight < since + rules.decayHorizon

instance (fin : Finalized) (binHeight : U64) (k : Bytes32) (w : Int) :
    Decidable (dustRead rules fin binHeight k w) :=
  match h : fin.goneSince.lookup k with
  | none => .isFalse fun hr => by simp [dustRead, h] at hr
  | some since =>
    decidable_of_iff (0 < w ∧ w < rules.armFloor ∧ ¬ binHeight < since + rules.decayHorizon)
      (by simp [dustRead, h])

/-- The amounts that `decay_dust` returns. -/
def decayed (fin : Finalized) (binHeight : U64) : Amounts :=
  if rules.decayOn then
    fin.finalW.filterMap fun k w => (dustOff rules fin binHeight k w).map Prod.fst
  else ∅

/-- `decay_dust`, but for the index. -/
def decayDust (fin : Finalized) (binHeight : U64) : Finalized :=
  if rules.decayOn then
    { fin with
      finalW := fin.finalW.subAll (decayed rules fin binHeight)
      decaySteps := fin.decaySteps.merge (fun _ n => n) (fin.finalW.filterMap fun k w =>
        if dustRead rules fin binHeight k w then
          some (((dustOff rules fin binHeight k w).map Prod.snd).getD
            ((fin.decaySteps.lookup k).getD 0))
        else none) }
  else fin

def armingFloor : Int := if 1 < rules.armFloor then rules.armFloor else 1

/-- The age of a key with a row, after `rearm_first_eligible`. -/
def rearmed (binHeight : U64) (fe : SortedMap Bytes32 U64) (k : Bytes32) (w : Int) :
    SortedMap Bytes32 U64 :=
  if armingFloor rules ≤ w then
    match fe.lookup k with
    | some _ => fe
    | none => fe.insert k binHeight
  else fe.erase k

/-- `rearm_first_eligible`, but for the index. -/
def rearmFirstEligible (fin : Finalized) (binHeight : U64) (paid : List Bytes32) : Finalized :=
  { fin with
    firstEligible := paid.foldl
      (fun fe k => match fe.lookup k with
        | some _ => fe.insert k binHeight
        | none => fe)
      (fin.finalW.entries.foldl (fun fe e => rearmed rules binHeight fe e.1 e.2)
        fin.firstEligible) }

/-- A row that `prune_finalized_zero_rows` drops. -/
def Idle (fin : Finalized) (k : Bytes32) : Prop :=
  fin.finalW.lookup k = some 0 ∧ fin.firstEligible.lookup k = none

instance (fin : Finalized) (k : Bytes32) : Decidable (fin.Idle k) :=
  inferInstanceAs (Decidable (_ ∧ _))

/-- `prune_finalized_zero_rows`: the clocks of a dropped row go with it. -/
def pruneFinalizedZeroRows (fin : Finalized) : Finalized :=
  { fin with
    finalW := fin.finalW.filterMap fun k w => if fin.Idle k then none else some w
    goneSince := fin.goneSince.filterMap fun k g => if fin.Idle k then none else some g
    decaySteps := fin.decaySteps.filterMap fun k n => if fin.Idle k then none else some n }

def paidKeys (p : Pending) : List Bytes32 :=
  if rules.rotateOnPayment then (p.payout.entries.filter fun e => 0 < e.2).map Prod.fst else []

def absorb (fin : Finalized) (p : Pending) (binHeight : U64) : Finalized :=
  ((((((fin.book p).noteHeight rules p).runClock rules p binHeight).moveAnchor rules p).settleDue
    rules p).joinRegistry rules p).slideWindow rules p

/-- The finalized part after `on_block_finalized`. -/
def settle (fin : Finalized) (p : Pending) (binHeight : U64) : Finalized :=
  ((((fin.absorb rules p binHeight).decayDust rules binHeight).rearmFirstEligible rules binHeight
    (paidKeys rules p)).pruneFinalizedZeroRows)

def writtenOff (fin : Finalized) (p : Pending) (binHeight : U64) : Amounts :=
  decayed rules (fin.absorb rules p binHeight) binHeight

end Finalized

namespace OwedLedger

variable (sha : List Byte → Bytes32) (rules : OwedLedgerRules)

/-- `bump`: one leaf for one step of the sequence. -/
def bump (l : OwedLedger) (leaf : List Byte) : OwedLedger :=
  { l with evlog := l.evlog.append sha leaf, seq := l.seq + 1 }

def onBlockFound (l : OwedLedger) (bid : Bid) (args : FoundArgs) : OwedLedger :=
  if l.pending.lookup bid ≠ none ∨ bid ∈ l.settled then l
  else
    let p := Pending.ofFound rules args
    bump sha
      { l with
        index := l.index.onFound p.payout l.feAt
        pending := l.pending.insert bid p }
      (p.leaf bid)

def settleIndex (l : OwedLedger) (p : Pending) (binHeight : U64) : EffectiveOwedIndex :=
  ((l.index.applyFinalizeCredit p.credit).applyFinalizeCredit
    ((l.writtenOff rules p binHeight).mapValues fun _ v => -v)).rebuildOrder
    (l.settle rules p binHeight).feAt

def finalizeLeaf (l : OwedLedger) (bid : Bid) (p : Pending) (binHeight : U64) : List Byte :=
  if l.writtenOff rules p binHeight = ∅ then finalizePayload bid binHeight
  else leafPayload .finalize bid binHeight ∅ ∅ (l.writtenOff rules p binHeight)

def onBlockFinalized (l : OwedLedger) (bid : Bid) (binHeight : U64) : OwedLedger :=
  match l.pending.lookup bid with
  | none => l
  | some p =>
    bump sha
      { l with
        toFinalized := l.settle rules p binHeight
        index := l.settleIndex rules p binHeight
        pending := l.pending.erase bid
        settled := insert bid l.settled }
      (l.finalizeLeaf rules bid p binHeight)

def noteResidual (l : OwedLedger) (bid : Bid) (residual : Int) : OwedLedger :=
  if 0 < residual then
    { l with
      residual := l.residual + residual
      residualEvents := l.residualEvents ++ [(bid, residual)] }
  else l

def onBlockOrphaned (l : OwedLedger) (bid : Bid) (settledPayout : Amounts) : OwedLedger :=
  match l.pending.lookup bid with
  | some p =>
    bump sha
      { l with
        index := l.index.onOrphanPre p.payout l.feAt
        pending := l.pending.erase bid }
      (orphanPrePayload bid)
  | none =>
    if bid ∈ l.settled then
      bump sha (l.noteResidual bid settledPayout.total)
        (orphanSettledPayload bid settledPayout)
    else l

def dropsAvailable (l : OwedLedger) : Amounts :=
  if rules.dropsDue then
    (l.pending.entries.foldl
      (fun a e => a.combine (fun x v => dropsSatAdd x (-v)) e.2.claimed) l.due).nonzero
  else ∅

def effectiveOwed (l : OwedLedger) (k : Bytes32) : Int := l.index.value k

end OwedLedger

inductive LedgerCall where
  | found (bid : Bid) (args : FoundArgs)
  | finalized (bid : Bid) (binHeight : U64)
  | orphaned (bid : Bid) (settledPayout : Amounts)
deriving DecidableEq

namespace OwedLedger

variable (sha : List Byte → Bytes32) (rules : OwedLedgerRules)

def call (l : OwedLedger) : LedgerCall → OwedLedger
  | .found bid args => l.onBlockFound sha rules bid args
  | .finalized bid binHeight => l.onBlockFinalized sha rules bid binHeight
  | .orphaned bid settledPayout => l.onBlockOrphaned sha bid settledPayout

def after (calls : List LedgerCall) : OwedLedger :=
  Run.run (call sha rules) {} calls

end OwedLedger

end C2Pool.V37
