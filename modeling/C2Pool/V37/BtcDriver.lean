import C2Pool.V37.BtcStore
import C2Pool.V37.FinalizeDriver

/-! # The finalize driver of the Bitcoin family

`BtcFinalizeDriver` (`btc_finalize_driver.hpp`): found blocks wait at the height they were mined at,
and a tip steps the cursor one height at a time up to the buried frontier. The driver never reads
the store; its commits are kept in order.
-/

namespace C2Pool.V37.Btc

/-- `FoundBlock`; `drops` is the carried DROPS map, or what the harvest of the block is worth. -/
structure FoundBlock where
  bid : Bid
  height : U64
  credit : Amounts := ∅
  payout : Amounts := ∅
  drops : Amounts := ∅
  canonical : Bool := true
deriving DecidableEq

structure FinalizeStep where
  bid : Bid
  coinHeight : U64
  binHeight : U64
deriving DecidableEq

/-- A batch of one record; an event comes with the height that was being stepped. -/
inductive Commit where
  | event (seq : U64) (e : SettleEvent) (stepped : Option U64)
  | cursor (h : U64)
  | hw (hw : SettleHW)
  | sidecar (bid : Bid) (h : U64)
  | dropSidecar (bid : Bid)
deriving DecidableEq

namespace Commit

def key : Commit → Key
  | .event seq _ _ => .evt seq
  | .cursor _ => .cursor
  | .hw _ => .hw
  | .sidecar bid _ => .pfound bid
  | .dropSidecar bid => .pfound bid

def value : Commit → Option (List Byte)
  | .event _ e _ => some e.serialize
  | .cursor h => some (putU64 h.val)
  | .hw w => some w.serialize
  | .sidecar _ h => some (bytesLE 1 1 ++ putU64 h.val)
  | .dropSidecar _ => none

end Commit

/-- `BtcFinalizeDriver`, with the ledger and the high-water that it drives, the commits that it has
made and the FINALIZE steps that it has returned. -/
structure BtcFinalizeDriver where
  ledger : OwedLedger := {}
  hw : SettleHW := {}
  cursorH : U64 := 0
  seq : U64 := 0
  found : SortedMap Bid FoundBlock := ∅
  byHeight : SortedMap U64 (List Bid) := ∅
  commits : List Commit := []
  steps : List FinalizeStep := []

def FoundBlock.event (b : FoundBlock) : SettleEvent where
  kind := .found
  bid := b.bid
  credit := composeCreditFromDelta b.credit b.drops
  payout := b.payout

def orphanEvent (bid : Bid) (payout : Amounts) : SettleEvent where
  kind := .orphan
  bid := bid
  payout := payout

def finalizeEvent (bid : Bid) (binHeight : U64) : SettleEvent where
  kind := .finalize
  bid := bid
  binHeight := binHeight

namespace BtcFinalizeDriver

variable (sha : List Byte → Bytes32) (rules : OwedLedgerRules) (dConf : U64)

/-- `write_event`, and the ledger call that follows it. -/
def writeEvent (d : BtcFinalizeDriver) (e : SettleEvent) (stepped : Option U64) :
    BtcFinalizeDriver :=
  { d with
    seq := d.seq + 1
    commits := d.commits ++ [.event (d.seq + 1) e stepped]
    ledger := replayCall sha rules d.ledger e }

def persistCursor (d : BtcFinalizeDriver) : BtcFinalizeDriver :=
  { d with commits := d.commits ++ [.cursor d.cursorH] }

def persistHw (d : BtcFinalizeDriver) : BtcFinalizeDriver :=
  let hw := { d.hw with ledgerSeq := d.ledger.ledgerSeq }
  { d with hw := hw, commits := d.commits ++ [.hw hw] }

def remember (d : BtcFinalizeDriver) (b : FoundBlock) : BtcFinalizeDriver :=
  { d with
    found := d.found.insert b.bid b
    byHeight := d.byHeight.insert b.height ((d.byHeight.lookup b.height).getD [] ++ [b.bid]) }

def onBlockFound (d : BtcFinalizeDriver) (b : FoundBlock) : BtcFinalizeDriver :=
  if d.found.lookup b.bid ≠ none then d
  else (d.writeEvent sha rules b.event none).remember b

def reseedFound (d : BtcFinalizeDriver) (b : FoundBlock) : BtcFinalizeDriver × Bool :=
  if d.found.lookup b.bid ≠ none then (d, true)
  else if d.ledger.isPending b.bid = false then (d, false)
  else (d.remember b, true)

def onBlockOrphaned (d : BtcFinalizeDriver) (bid : Bid) (stepped : Option U64) :
    BtcFinalizeDriver :=
  match d.found.lookup bid with
  | none => d.writeEvent sha rules (orphanEvent bid ∅) stepped
  | some b =>
    let d := d.writeEvent sha rules (orphanEvent bid b.payout) stepped
    { d with found := d.found.insert bid { b with canonical := false } }

section Advance

variable (isCanonical : U64 → Bid → Bool)

def stepBid (h : U64) (d : BtcFinalizeDriver) (bid : Bid) : BtcFinalizeDriver :=
  match d.found.lookup bid with
  | none => d
  | some b =>
    if b.canonical = false then d
    else if isCanonical h bid = false then d.onBlockOrphaned sha rules bid (some h)
    else if d.ledger.isPending bid = false then d
    else
      let d := d.writeEvent sha rules (finalizeEvent bid (h + dConf)) (some h)
      { d with steps := d.steps ++ [⟨bid, h, h + dConf⟩] }

def stepHeight (d : BtcFinalizeDriver) (h : U64) : BtcFinalizeDriver :=
  let d := ((d.byHeight.lookup h).getD []).foldl (stepBid sha rules dConf isCanonical h) d
  { d with cursorH := h }.persistCursor

/-- The loop of `advance_to_tip` from `h` on, with its 64-bit counter, for some rounds; whether it
has ended comes with the driver. -/
def stepHeights (frontier : U64) : Nat → U64 → BtcFinalizeDriver → BtcFinalizeDriver × Bool
  | 0, _, d => (d, false)
  | rounds + 1, h, d =>
    if h ≤ frontier then
      stepHeights frontier rounds (h + 1) (d.stepHeight sha rules dConf isCanonical h)
    else (d, true)

/-- `advance_to_tip`, its loop for some rounds. -/
def advanceToTip (rounds : Nat) (d : BtcFinalizeDriver) (best : U64) (id : Bytes32) :
    BtcFinalizeDriver × Bool :=
  let (admitted, hw) := d.hw.admitCandidateHeight best
  if admitted then
    let frontier := if dConf ≤ best then best - dConf else 0
    let r := stepHeights sha rules dConf isCanonical frontier rounds (d.cursorH + 1)
      { d with hw := hw.advance best id }
    if r.2 then (r.1.persistHw, true) else r
  else ({ d with hw := hw }.persistHw, true)

end Advance

/-- The operations of a driver; the canonicality answers of a call come with it. -/
inductive Op where
  | found (b : FoundBlock)
  | orphaned (bid : Bid)
  | advance (isCanonical : U64 → Bid → Bool) (best : U64) (id : Bytes32)

def attempt (rounds : Nat) (d : BtcFinalizeDriver) : Op → BtcFinalizeDriver × Bool
  | .found b => (d.onBlockFound sha rules b, true)
  | .orphaned bid => (d.onBlockOrphaned sha rules bid none, true)
  | .advance isCanonical best id => d.advanceToTip sha rules dConf isCanonical rounds best id

/-- One operation; `none` where it does not return: a loop that has not ended after as many rounds
as its counter has values never ends. -/
def step (d : BtcFinalizeDriver) (op : Op) : Option BtcFinalizeDriver :=
  let r := d.attempt sha rules dConf (2 ^ 64 + 1) op
  if r.2 then some r.1 else none

/-- The driver that `open` makes of a recovered store. -/
def ofRecovered (commits : List Commit) (st : RecoveredState × OwedLedger) : BtcFinalizeDriver where
  ledger := st.2
  hw := st.1.hw
  cursorH := st.1.finalizeCursorHeight
  seq := st.1.maxEventSeq
  commits := commits

end BtcFinalizeDriver

end C2Pool.V37.Btc
