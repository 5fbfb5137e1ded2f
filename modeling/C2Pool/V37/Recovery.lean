import C2Pool.V37.Journal

/-! # Restart recovery

`RecoveryDriver` (`w6_persistence.hpp`): each chain with a record is loaded, its events are replayed
into a fresh default-rules ledger, recorded blocks are reconciled with the coin chain, and the
intents that are left are re-derived or dropped. The results of all commits are a parameter.
-/

namespace C2Pool.V37

/-- A store with the number of commits tried on it. -/
structure Disk where
  store : SettleStore
  count : Nat := 0
deriving DecidableEq

def Disk.commitSync (oks : Nat → Bool) (d : Disk) (ops : List BatchOp) : Disk :=
  ⟨d.store.commitSync (oks d.count) ops, d.count + 1⟩

/-- The conditions of `FailClosed`. -/
inductive FailCondition where
  | hwMissing
  | hwDecode
  | lheadMissing
  | lheadDecode
  | levtBad
  | seqDisagreement
  | owedDigestMismatch
  | lmmrDecode
  | lmmrSeqMismatch
  | lmmrLeafcountMismatch
  | lmmrRootMismatch
  | lmmrPeaksMismatch
  | anchorDecode
  | carrierBad
  | replayFailed
  | replayPosMismatch
  | replayDigestMismatch
  | blkBad
  | intentBad
deriving DecidableEq

/-- `FailClosed`: the condition and the key it names. -/
structure FailClosed where
  chain : U32
  condition : FailCondition
  key : RecKey
deriving DecidableEq

structure FoundRederive where
  credit : Amounts := ∅
  payout : Amounts := ∅
  binHeight : U64 := 0
  bid : Bid := []
  blk : BlkRec := {}

/-- `RecoveryHooks`; an unset `winner_at` knows no winner. -/
structure RecoveryHooks where
  localHeaderHeight : U32 → U64 := fun _ => Fin.ofNat (2 ^ 64) (2 ^ 64 - 1)
  replayLane : Option (U32 → GenesisRec → TipRec → List CarrierRec → Option (Bytes32 × U64)) := none
  winnerAt : U32 → U64 → Option Bytes32 := fun _ _ => none
  prebootTokenResolves : CutToken → Bool := fun _ => false
  tryRederiveIntent : IntentRec → Option FoundRederive := fun _ => none

/-- `ChainRecovery`, as far as recovery goes on with it. -/
structure ChainRecovery where
  refusedUntilCatchup : Bool := false
  hw : SettleHW := {}
  lhead : LheadRec := {}
  ledger : OwedLedger := {}
  levtApplied : Nat := 0
  newIncarnation : U64 := 0
  lmmr : Option LmmrRec := none
  foundPayout : SortedMap Bid Amounts := ∅

abbrev Outcome := Except FailClosed ChainRecovery

/-- `apply_event`. -/
def EventRec.toCall (e : EventRec) : LedgerCall :=
  match e.evkind with
  | .found => .found e.bid { credit := e.credit, payout := e.payout }
  | .finalize => .finalized e.bid e.binHeight
  | .orphan => .orphaned e.bid e.settledPayout

section Recovery

variable (sha : List Byte → Bytes32) (hooks : RecoveryHooks) (oks : Nat → Bool) (bootId : U64)
  (c : U32)

def decodeAll {K α : Type} [LinearOrder K] (decode : List Byte → Option α)
    (m : SortedMap K (List Byte)) : Except K (List (K × α)) :=
  m.entries.mapM fun e =>
    match decode e.2 with
    | some a => .ok (e.1, a)
    | none => .error e.1

def loadFamilyA (c : U32) (r : ChainRecords) : Except FailClosed SettleHW :=
  match r.hw with
  | none => .error ⟨c, .hwMissing, .hw⟩
  | some v =>
    match decodeHw v with
    | none => .error ⟨c, .hwDecode, .hw⟩
    | some h => .ok h.hw

/-- The loop of `load_family_B` over the events; `n` have been applied. -/
def replayEvents (c : U32) :
    List (U64 × List Byte) → Nat → OwedLedger × SortedMap Bid Amounts →
      Except FailClosed (Nat × OwedLedger × SortedMap Bid Amounts)
  | [], n, s => .ok (n, s)
  | (key, v) :: rest, n, s =>
    match decodeEvent v with
    | none => .error ⟨c, .levtBad, .levt key⟩
    | some e =>
      if e.seq.val ≠ n + 1 then .error ⟨c, .levtBad, .levt key⟩
      else
        replayEvents c rest (n + 1)
          (s.1.call sha {} e.toCall, if e.evkind = .found then s.2.insert e.bid e.payout else s.2)

/-- `load_lmmr_check`: the head of the record log, if there is one, is the replayed one. -/
def loadLmmrCheck (c : U32) (r : ChainRecords) (l : OwedLedger) :
    Except FailClosed (Option LmmrRec) :=
  match r.lmmr with
  | none => .ok none
  | some v =>
    match decodeLmmr v with
    | none => .error ⟨c, .lmmrDecode, .lmmr⟩
    | some h =>
      if h.ledgerSeq ≠ l.ledgerSeq then .error ⟨c, .lmmrSeqMismatch, .lmmr⟩
      else if h.leafCount ≠ Fin.ofNat (2 ^ 64) l.evlog.leafCount then
        .error ⟨c, .lmmrLeafcountMismatch, .lmmr⟩
      else if h.root ≠ l.evlog.root sha then .error ⟨c, .lmmrRootMismatch, .lmmr⟩
      else if h.peaks ≠ l.evlog.peaks.peaks then .error ⟨c, .lmmrPeaksMismatch, .lmmr⟩
      else .ok (some h)

def loadFamilyB (c : U32) (r : ChainRecords) (cr : ChainRecovery) : Outcome :=
  match r.lhead with
  | none => .error ⟨c, .lheadMissing, .lhead⟩
  | some v =>
    match decodeLhead v with
    | none => .error ⟨c, .lheadDecode, .lhead⟩
    | some lhead => do
        let (n, ledger, foundPayout) ← replayEvents sha c r.levt.entries 0 ({}, ∅)
        if ¬ (ledger.ledgerSeq = cr.hw.ledgerSeq ∧ ledger.ledgerSeq = lhead.ledgerSeq) then
          .error ⟨c, .seqDisagreement, .lhead⟩
        else if ledger.digestDefault sha ≠ lhead.owedDigest then
          .error ⟨c, .owedDigestMismatch, .lhead⟩
        else do
          let lmmr ← loadLmmrCheck sha c r ledger
          .ok { cr with
            lhead := lhead
            ledger := ledger
            levtApplied := n
            lmmr := lmmr
            foundPayout := foundPayout }

/-- The last step of `rebuild_family_D`: where the replay of the lane ends. -/
def checkReplay (c : U32) (tip : TipRec) (tipDigest : Option Bytes32) (cr : ChainRecovery) :
    Option (Bytes32 × U64) → Outcome
  | none => .error ⟨c, .replayFailed, .genesis⟩
  | some (digest, nextPos) =>
    if nextPos ≠ tip.nextPos then .error ⟨c, .replayPosMismatch, .tip⟩
    else if tipDigest.any fun d => digest ≠ d then .error ⟨c, .replayDigestMismatch, .tip⟩
    else .ok cr

/-- `rebuild_family_D`; without lane anchors or without a replay hook there is nothing to
rebuild. -/
def rebuildFamilyD (c : U32) (r : ChainRecords) (cr : ChainRecovery) : Outcome :=
  match r.genesis, r.tip with
  | some gv, some tv =>
    match decodeGenesis gv, decodeTip tv with
    | some genesis, some tip => do
        let carriers ← (decodeAll decodeCarrier r.carrier).mapError fun h =>
          ⟨c, .carrierBad, .carrier h⟩
        let tipDigest := (carriers.filter fun e =>
          e.2.nextPosAfter = tip.nextPos ∧ e.1 = tip.shareHash).getLast?.map
            fun e => e.2.digestAfter
        let cr := { cr with newIncarnation := 1 }
        match hooks.replayLane with
        | none => .ok cr
        | some replayLane =>
          checkReplay c tip tipDigest cr (replayLane c genesis tip (carriers.map Prod.snd))
    | none, _ => .error ⟨c, .anchorDecode, .genesis⟩
    | some _, none => .error ⟨c, .anchorDecode, .tip⟩
  | _, _ => .ok { cr with newIncarnation := 1 }

/-- An event that reconciling writes, with the heads it moves; further operations join the
batch. -/
def logEvent (d : Disk) (cr : ChainRecovery) (e : EventRec)
    (more : List (RecKey × Option (List Byte))) : Disk × ChainRecovery :=
  let hw := stampSeq cr.hw cr.ledger
  let lhead := { cr.lhead with
    ledgerSeq := cr.ledger.ledgerSeq
    owedDigest := cr.ledger.digestDefault sha }
  (d.commitSync oks (onChain c
    ([(.levt e.seq, some (encodeEvent e)), (.lhead, some (encodeLhead lhead)),
      (.hw, some (encodeHw ⟨c, bootId, hw⟩)),
      (.lmmr, some (encodeLmmr (lmmrOf sha cr.ledger bootId)))] ++ more)),
    { cr with hw := hw, lhead := lhead })

/-- `log_reconcile_event`, for an orphaned block. -/
def logReconcileEvent (d : Disk) (cr : ChainRecovery) (bid : Bid) (settledPayout : Amounts) :
    Disk × ChainRecovery :=
  if cr.ledger.ledgerSeq = cr.lhead.ledgerSeq then (d, cr)
  else
    logEvent sha oks bootId c d cr
      { evkind := .orphan
        seq := cr.ledger.ledgerSeq
        bid := bid
        binHeight := cr.hw.hwHeight
        settledPayout := settledPayout } []

/-- A record whose token is of another boot and does not resolve is passed over. -/
def aliasRefused (b : BlkRec) : Prop :=
  b.token.incarnation ≠ 0 ∧ b.bootId ≠ bootId ∧ hooks.prebootTokenResolves b.token = false

instance (b : BlkRec) : Decidable (aliasRefused hooks bootId b) :=
  inferInstanceAs (Decidable (_ ∧ _))

def stillWins (b : BlkRec) : Prop := hooks.winnerAt c b.height = some b.shareHash

instance (b : BlkRec) : Decidable (stillWins hooks c b) := inferInstanceAs (Decidable (_ = _))

/-- One round of `own_block_reconcile`. -/
def reconcileBlock (s : Disk × ChainRecovery) (e : Bid × BlkRec) : Disk × ChainRecovery :=
  if aliasRefused hooks bootId e.2 then s
  else if ¬ s.2.ledger.isPending e.1 ∧ ¬ s.2.ledger.isSettled e.1 then s
  else if stillWins hooks c e.2 then s
  else
    let settledPayout := if s.2.ledger.isPending e.1 then ∅ else (s.2.foundPayout.lookup e.1).getD ∅
    let cr := { s.2 with ledger := s.2.ledger.onBlockOrphaned sha e.1 settledPayout }
    logReconcileEvent sha oks bootId c s.1 cr e.1 settledPayout

def dropIntent (d : Disk) (h : Bytes32) : Disk :=
  d.commitSync oks (onChain c [(.intent h, none)])

/-- One round of `intent_reconcile`. -/
def reconcileIntent (s : Disk × ChainRecovery) (e : Bytes32 × IntentRec) : Disk × ChainRecovery :=
  if s.2.ledger.isPending e.2.bid ∨ s.2.ledger.isSettled e.2.bid then
    (dropIntent oks c s.1 e.1, s.2)
  else
    match hooks.tryRederiveIntent e.2 with
    | none => (dropIntent oks c s.1 e.1, s.2)
    | some rd =>
      let l := s.2.ledger.onBlockFound sha {} rd.bid { credit := rd.credit, payout := rd.payout }
      logEvent sha oks bootId c s.1 { s.2 with ledger := l }
        { evkind := .found
          seq := l.ledgerSeq
          bid := rd.bid
          binHeight := rd.binHeight
          credit := rd.credit
          payout := rd.payout }
        [(.blk rd.bid, some (encodeBlk { rd.blk with bootId := bootId })), (.intent e.1, none)]

def ownBlockReconcile (d : Disk) (cr : ChainRecovery) : Except FailClosed (Disk × ChainRecovery) :=
  match decodeAll decodeBlk (d.store.chain c).blk with
  | .error bid => .error ⟨c, .blkBad, .blk bid⟩
  | .ok blks => .ok (blks.foldl (reconcileBlock sha hooks oks bootId c) (d, cr))

def intentReconcile (d : Disk) (cr : ChainRecovery) : Except FailClosed (Disk × ChainRecovery) :=
  match decodeAll decodeIntent (d.store.chain c).intent with
  | .error h => .error ⟨c, .intentBad, .intent h⟩
  | .ok intents => .ok (intents.foldl (reconcileIntent sha hooks oks bootId c) (d, cr))

def loadChain (r : ChainRecords) : Outcome := do
  let hw ← loadFamilyA c r
  let hh := hooks.localHeaderHeight c
  let cr : ChainRecovery :=
    if hh < hw.hwHeight then
      { refusedUntilCatchup := true, hw := (hw.admitCandidateHeight hh).2 }
    else { hw := hw }
  let cr ← loadFamilyB sha c r cr
  rebuildFamilyD hooks c r cr

/-- One chain of `recover`. -/
def recoverChain (d : Disk) : Disk × Outcome :=
  match loadChain sha hooks c (d.store.chain c) with
  | .error e => (d, .error e)
  | .ok cr =>
    match ownBlockReconcile sha hooks oks bootId c d cr with
    | .error e => (d, .error e)
    | .ok (d', cr) =>
      match intentReconcile sha hooks oks bootId c d' cr with
      | .error e => (d', .error e)
      | .ok (d'', cr) => (d'', .ok cr)

/-- The loop of `recover` over the chains. -/
def recoverChains : List U32 → Disk → List (U32 × Outcome) × Disk
  | [], d => ([], d)
  | c :: cs, d =>
    let r := recoverChain sha hooks oks bootId c d
    let rest := recoverChains cs r.1
    ((c, r.2) :: rest.1, rest.2)

end Recovery

/-- `open_meta`: the boot id moves on. -/
def openMeta (oks : Nat → Bool) (d : Disk) : Disk × Option MetaRec :=
  match (match d.store.metaRec with
    | none => some ({} : MetaRec)
    | some v => decodeMeta v) with
  | none => (d, none)
  | some m =>
    let m := { m with bootId := m.bootId + 1 }
    (d.commitSync oks [(.metaRec, some (encodeMeta m))], if oks d.count then some m else none)

/-- The result of `recover`: the meta record, or `none` where it cannot be opened, and the outcome
of every chain. -/
structure RecoveryResult where
  metaRec : Option MetaRec := none
  chains : List (U32 × Outcome) := []

def recover (sha : List Byte → Bytes32) (hooks : RecoveryHooks) (oks : Nat → Bool)
    (s : SettleStore) : RecoveryResult × SettleStore :=
  match openMeta oks ⟨s, 0⟩ with
  | (d, none) => ({}, d.store)
  | (d, some m) =>
    let r := recoverChains sha hooks oks m.bootId d.store.unionChains d
    ({ metaRec := some m, chains := r.1 }, r.2.store)

/-- The outcome of a chain that `recover` looked at. -/
def RecoveryResult.outcome (r : RecoveryResult) (c : U32) : Option Outcome :=
  (r.chains.find? fun e => e.1 = c).map Prod.snd

/-- `Result::ok`: the meta record is open and every chain is started. -/
def RecoveryResult.ok (r : RecoveryResult) : Bool :=
  r.metaRec.isSome && r.chains.all fun e => e.2.isOk

end C2Pool.V37
