import C2Pool.V37.OwedDigest
import C2Pool.V37.SettleStore

/-! # The settlement journal

`SettlementJournal` (`w6_persistence.hpp`), the one writer of the store: each entry point calls the
ledger and then commits one batch, or two for a found block. A commit that fails poisons the chain.
The results of the commits and of the carrier append are arguments of a call.
-/

namespace C2Pool.V37

/-- `ledger_seq`, a 64-bit word. -/
def OwedLedger.ledgerSeq (l : OwedLedger) : U64 := Fin.ofNat (2 ^ 64) l.seq

abbrev OwedLedger.digestDefault (sha : List Byte → Bytes32) (l : OwedLedger) : Bytes32 :=
  l.digest sha {}

inductive TipResult where
  | advanced | refusedShorter | torn | poisoned
deriving DecidableEq

inductive FoundResult where
  | found | duplicate | carrierRefused | tornIntent | tornFound | poisoned
deriving DecidableEq

inductive FinalResult where
  | finalized | noOpNotPending | rejectedNonMonotone | rejectedAboveHighWater | torn | poisoned
deriving DecidableEq

inductive OrphanResult where
  | applied | noOpUnknown | torn | poisoned
deriving DecidableEq

/-- What is held in memory for a chain: the caller's high-water and ledger, the poison latch and
the height of the last finalized block. -/
structure ChainMem where
  hw : SettleHW := {}
  ledger : OwedLedger := {}
  poisoned : Bool := false
  lastFinalizeBin : Option U64 := none

/-- The arguments of `on_block_found_twophase` next to the chain. -/
structure FoundCall where
  bid : Bid
  shareHash : Bytes32 := 0
  height : U64 := 0
  reward : U64 := 0
  credit : Amounts := ∅
  payout : Amounts := ∅
  cut : CutToken := {}

def OwedLedger.isPending (l : OwedLedger) (bid : Bid) : Bool := (l.pending.lookup bid).isSome

def OwedLedger.isSettled (l : OwedLedger) (bid : Bid) : Bool := bid ∈ l.settled

section Journal

variable (sha : List Byte → Bytes32) (bootId : U64) (c : U32)

def lmmrOf (l : OwedLedger) (bootId : U64) : LmmrRec where
  ledgerSeq := l.ledgerSeq
  leafCount := Fin.ofNat (2 ^ 64) l.evlog.leafCount
  root := l.evlog.root sha
  peaks := l.evlog.peaks.peaks
  bootId := bootId

/-- The head records of a ledger: `hw`, `lhead` and `lmmr`. -/
def headOps (c : U32) (bootId : U64) (hw : SettleHW) (l : OwedLedger) :
    List (RecKey × Option (List Byte)) :=
  [(.hw, some (encodeHw ⟨c, bootId, hw⟩)),
    (.lhead, some (encodeLhead ⟨l.ledgerSeq, l.digestDefault sha, bootId⟩)),
    (.lmmr, some (encodeLmmr (lmmrOf sha l bootId)))]

/-- `hw.ledger_seq = ledger.ledger_seq()`. -/
def stampSeq (hw : SettleHW) (l : OwedLedger) : SettleHW := { hw with ledgerSeq := l.ledgerSeq }

def onTipAdvanced (s : SettleStore) (m : ChainMem) (height : U64) (tip : Bytes32) (ok : Bool) :
    TipResult × SettleStore × ChainMem :=
  if m.poisoned then (.poisoned, s, m)
  else
    let (admitted, hw) := m.hw.admitCandidateHeight height
    let hw := stampSeq (if admitted then hw.advance height tip else hw) m.ledger
    let s' := s.commitSync ok (onChain c [(.hw, some (encodeHw ⟨c, bootId, hw⟩))])
    if ok then
      (if admitted then .advanced else .refusedShorter, s', { m with hw := hw })
    else (.torn, s', { m with hw := hw, poisoned := true })

def FoundCall.event (f : FoundCall) (seq : U64) : EventRec where
  evkind := .found
  seq := seq
  bid := f.bid
  binHeight := f.height
  credit := f.credit
  payout := f.payout

/-- The batch of a found block: the event if the ledger took it, the block, the heads; the intent
goes. -/
def foundOps (f : FoundCall) (hw : SettleHW) (l l' : OwedLedger) :
    List (RecKey × Option (List Byte)) :=
  (if l.ledgerSeq < l'.ledgerSeq then
    [(.levt l'.ledgerSeq, some (encodeEvent (f.event l'.ledgerSeq)))]
  else []) ++
    [(.blk f.bid, some (encodeBlk ⟨f.shareHash, f.height, f.reward, l'.ledgerSeq, bootId,
      f.cut⟩))] ++
    headOps sha c bootId hw l' ++ [(.intent f.shareHash, none)]

/-- `on_block_found_twophase`: the intent, the carrier append, and the found block. -/
def onBlockFoundTwophase (s : SettleStore) (m : ChainMem) (f : FoundCall)
    (okIntent carrierOk okFound : Bool) : FoundResult × SettleStore × ChainMem :=
  if m.poisoned then (.poisoned, s, m)
  else if m.ledger.isPending f.bid ∨ m.ledger.isSettled f.bid then (.duplicate, s, m)
  else
    let s := s.commitSync okIntent
      (onChain c [(.intent f.shareHash, some (encodeIntent ⟨f.bid, f.height, f.reward, 0⟩))])
    if ¬ okIntent then (.tornIntent, s, { m with poisoned := true })
    else if ¬ carrierOk then (.carrierRefused, s, m)
    else
      let l := m.ledger.onBlockFound sha {} f.bid { credit := f.credit, payout := f.payout }
      let hw := stampSeq m.hw l
      let s := s.commitSync okFound (onChain c (foundOps sha bootId c f hw m.ledger l))
      if okFound then (.found, s, { m with ledger := l, hw := hw })
      else (.tornFound, s, { m with ledger := l, hw := hw, poisoned := true })

/-- The batch of a finalized or orphaned block. -/
def eventOps (e : EventRec) (hw : SettleHW) (l : OwedLedger) : List (RecKey × Option (List Byte)) :=
  (.levt e.seq, some (encodeEvent e)) :: headOps sha c bootId hw l

/-- `on_block_finalized`; heights do not go back, nor above the high-water. -/
def onBlockFinalized (s : SettleStore) (m : ChainMem) (bid : Bid) (binHeight : U64) (ok : Bool) :
    FinalResult × SettleStore × ChainMem :=
  if m.poisoned then (.poisoned, s, m)
  else if m.lastFinalizeBin.any fun last => binHeight < last then (.rejectedNonMonotone, s, m)
  else if m.hw.hwHeight < binHeight then (.rejectedAboveHighWater, s, m)
  else
    let l := m.ledger.onBlockFinalized sha {} bid binHeight
    if l.ledgerSeq = m.ledger.ledgerSeq then (.noOpNotPending, s, { m with ledger := l })
    else
      let hw := stampSeq m.hw l
      let e : EventRec :=
        { evkind := .finalize, seq := l.ledgerSeq, bid := bid, binHeight := binHeight }
      let s := s.commitSync ok (onChain c (eventOps sha bootId c e hw l))
      if ok then
        (.finalized, s, { m with ledger := l, hw := hw, lastFinalizeBin := some binHeight })
      else (.torn, s, { m with ledger := l, hw := hw, poisoned := true })

def onBlockOrphaned (s : SettleStore) (m : ChainMem) (bid : Bid) (settledPayout : Amounts)
    (ok : Bool) : OrphanResult × SettleStore × ChainMem :=
  if m.poisoned then (.poisoned, s, m)
  else
    let l := m.ledger.onBlockOrphaned sha bid settledPayout
    if l.ledgerSeq = m.ledger.ledgerSeq then (.noOpUnknown, s, { m with ledger := l })
    else
      let hw := stampSeq m.hw l
      let e : EventRec :=
        { evkind := .orphan, seq := l.ledgerSeq, bid := bid, settledPayout := settledPayout }
      let s := s.commitSync ok (onChain c (eventOps sha bootId c e hw l))
      if ok then (.applied, s, { m with ledger := l, hw := hw })
      else (.torn, s, { m with ledger := l, hw := hw, poisoned := true })

end Journal

/-- A call of an entry point, with the results of its commits. -/
inductive JournalCall where
  | tip (height : U64) (tip : Bytes32) (ok : Bool)
  | found (f : FoundCall) (okIntent carrierOk okFound : Bool)
  | finalized (bid : Bid) (binHeight : U64) (ok : Bool)
  | orphaned (bid : Bid) (settledPayout : Amounts) (ok : Bool)

/-- `SettlementJournal`, with its store and what its callers hold for each chain. -/
structure SettlementJournal where
  store : SettleStore := {}
  bootId : U64 := 1
  chains : U32 → ChainMem := fun _ => {}

namespace SettlementJournal

variable (sha : List Byte → Bytes32)

def callChain (bootId : U64) (c : U32) (s : SettleStore) (m : ChainMem) :
    JournalCall → SettleStore × ChainMem
  | .tip height tip ok => (onTipAdvanced bootId c s m height tip ok).2
  | .found f okIntent carrierOk okFound =>
    (onBlockFoundTwophase sha bootId c s m f okIntent carrierOk okFound).2
  | .finalized bid binHeight ok => (onBlockFinalized sha bootId c s m bid binHeight ok).2
  | .orphaned bid settledPayout ok => (onBlockOrphaned sha bootId c s m bid settledPayout ok).2

def call (j : SettlementJournal) (cc : U32 × JournalCall) : SettlementJournal :=
  let r := callChain sha j.bootId cc.1 j.store (j.chains cc.1) cc.2
  { j with store := r.1, chains := Function.update j.chains cc.1 r.2 }

def after (bootId : U64) (calls : List (U32 × JournalCall)) : SettlementJournal :=
  Run.run (call sha) { bootId := bootId } calls

/-- The runs that stop between two commits of a list of calls: its prefixes, and those that end
inside a found block, after the commit of its intent. -/
def cuts : List (U32 × JournalCall) → List (List (U32 × JournalCall))
  | [] => [[]]
  | cc :: calls =>
    [] :: (match cc.2 with
      | .found f okIntent _ _ => [[(cc.1, .found f okIntent false false)]]
      | _ => []) ++ (cuts calls).map (cc :: ·)

end SettlementJournal

end C2Pool.V37
