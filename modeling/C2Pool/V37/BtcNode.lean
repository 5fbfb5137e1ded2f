import C2Pool.V37.BtcLog

/-! # The block events of a node of the Bitcoin family

`BlockEventDriver` (`block_event_driver.hpp`): a sidecar record keeps the height
of every block that is found, for as long as the ledger holds it pending.  A
restart recovers the ledger, opens an empty finalize driver on it, and registers
the blocks of the sidecars with it again.
-/

namespace C2Pool.V37.Btc

open Reader

def readSidecar : Reader Byte U64 :=
  Read.u8 >>= fun ver => require (ver ≤ 1) >>= fun _ => Read.u64

/-- The sidecars of the store by block; `none` where a record is torn. -/
def storedSidecars (chain : U32) (kv : Kv) : Option (SortedMap Bid U64) :=
  (withPrefix (kPfoundPrefix chain) kv).foldlM (fun m row =>
    (readSidecar.all row.2).map fun h =>
      SortedMap.insert m (row.1.drop (kPfoundPrefix chain).length) h) ∅

structure FoundRec where
  credit : Amounts := ∅
  payout : Amounts := ∅

def storedFound (chain : U32) (kv : Kv) : Option (SortedMap Bid FoundRec) :=
  (withPrefix (kEvtPrefix chain) kv).foldlM (fun m row =>
    (SettleEvent.deserialize row.2).map fun e =>
      if e.kind = .found then SortedMap.insert m e.bid ⟨e.credit, e.payout⟩ else m) ∅

/-- `BlockEventDriver` with the finalize driver of its node; `pending` mirrors the sidecars. -/
structure BlockEventDriver where
  fin : BtcFinalizeDriver := {}
  pending : SortedMap Bid U64 := ∅

namespace BlockEventDriver

/-- `put_sidecar_locked`. -/
def putSidecar (d : BlockEventDriver) (bid : Bid) (h : U64) : BlockEventDriver :=
  { d with fin := { d.fin with commits := d.fin.commits ++ [.sidecar bid h] } }

/-- `del_sidecar_locked`. -/
def delSidecar (d : BlockEventDriver) (bid : Bid) : BlockEventDriver :=
  { d with fin := { d.fin with commits := d.fin.commits ++ [.dropSidecar bid] } }

def retire (d : BlockEventDriver) (bid : Bid) : BlockEventDriver :=
  { d with pending := d.pending.erase bid }.delSidecar bid

variable (sha : List Byte → Bytes32) (rules : OwedLedgerRules) (dConf : U64) (chain : U32)

/-- `on_block_found`; what `on_block_won` folds into the block comes with it. -/
def onBlockFound (d : BlockEventDriver) (b : FoundBlock) : BlockEventDriver :=
  if d.pending.lookup b.bid ≠ none then d
  else if b.height = 0 then d
  else
    let d := d.putSidecar b.bid b.height
    let d := { d with fin := d.fin.onBlockFound sha rules { b with canonical := true } }
    if d.fin.ledger.isPending b.bid = false then d.delSidecar b.bid
    else { d with pending := d.pending.insert b.bid b.height }

def onBlockOrphaned (d : BlockEventDriver) (bid : Bid) : BlockEventDriver :=
  { d with fin := d.fin.onBlockOrphaned sha rules bid none }.retire bid

/-- `reconcile_locked`. -/
def reconcile (d : BlockEventDriver) : BlockEventDriver :=
  d.pending.entries.foldl
    (fun d e => if d.fin.ledger.isPending e.1 = false then d.retire e.1 else d) d

/-- `on_tip`: the blocks of the new steps are retired, and what else the ledger has let go. -/
def onTip (isCanonical : U64 → Bid → Bool) (d : BlockEventDriver) (best : U64) (id : Bytes32) :
    Option BlockEventDriver :=
  (d.fin.step sha rules dConf (.advance isCanonical best id)).map fun fin =>
    ((fin.steps.drop d.fin.steps.length).foldl (fun d s => retire d s.bid)
      { d with fin := fin }).reconcile

/-- One operation; `none` where it does not return. -/
def step (d : BlockEventDriver) : BtcFinalizeDriver.Op → Option BlockEventDriver
  | .found b => some (d.onBlockFound sha rules b)
  | .orphaned bid => some (d.onBlockOrphaned sha rules bid)
  | .advance isCanonical best id => d.onTip sha rules dConf isCanonical best id

def sidecarBlock (found : SortedMap Bid FoundRec) (e : Bid × U64) : FoundBlock :=
  let r := (found.lookup e.1).getD {}
  { bid := e.1, height := e.2, credit := r.credit, payout := r.payout, canonical := true }

/-- One sidecar of `reseed_after_open`. -/
def reseedOne (found : SortedMap Bid FoundRec) (d : BlockEventDriver) (e : Bid × U64) :
    BlockEventDriver :=
  if d.fin.ledger.isPending e.1 = false then d.delSidecar e.1
  else
    let fin := d.fin.reseedFound (sidecarBlock found e)
    if fin.2 then { d with fin := fin.1, pending := d.pending.insert e.1 e.2 }
    else d.delSidecar e.1

/-- `open` on the image of the store, and `reseed_after_open`; the steps that the driver has
returned stay returned. -/
def restart (d : BlockEventDriver) : Option BlockEventDriver :=
  (load (storeAfter chain (fun _ => true) d.fin.commits).img).bind fun kv =>
    (recover sha rules chain kv).bind fun st =>
      (storedSidecars chain kv).bind fun sidecars =>
        (storedFound chain kv).map fun found =>
          sidecars.entries.foldl (reseedOne found)
            { fin := { BtcFinalizeDriver.ofRecovered d.fin.commits st with
                steps := d.fin.steps } }

/-- An operation, or a restart. -/
inductive Act where
  | op (op : BtcFinalizeDriver.Op)
  | restart

def act (d : BlockEventDriver) : Act → Option BlockEventDriver
  | .op op => d.step sha rules dConf op
  | .restart => d.restart sha rules chain

/-- A run; `none` where an operation does not return or a restart is refused. -/
def run (d : BlockEventDriver) (acts : List Act) : Option BlockEventDriver :=
  acts.foldlM (act sha rules dConf chain) d

def withoutRestarts (acts : List Act) : List Act :=
  acts.filter fun
    | .op _ => true
    | .restart => false

/-- The same FINALIZE steps, ledger and cursor. -/
structure SameOutcome (v u : BlockEventDriver) : Prop where
  steps : v.fin.steps = u.fin.steps
  cursorH : v.fin.cursorH = u.fin.cursorH
  finalW : v.fin.ledger.finalW = u.fin.ledger.finalW
  pending : v.fin.ledger.pending = u.fin.ledger.pending
  settled : v.fin.ledger.settled = u.fin.ledger.settled
  digest : v.fin.ledger.digest sha rules = u.fin.ledger.digest sha rules

end BlockEventDriver

end C2Pool.V37.Btc
