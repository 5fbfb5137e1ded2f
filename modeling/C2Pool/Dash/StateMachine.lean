import C2Pool.Dash.ProviderTx

/-! # The masternode state machine

`MnStateMachine` (`mn_state_machine.hpp`) over the entries of `mn_state_db.hpp`:
the projection of the masternode list that a block replay keeps, the order in
which masternodes are paid, and what one block does to both.
-/

namespace C2Pool.Dash

/-- `SPLIT_UNKNOWN` and `SPLIT_KNOWN`. -/
inductive SplitProvenance where
  | unknown
  | known
deriving DecidableEq

structure MNState where
  nVersion : U16 := basicBls
  nType : Fin (2 ^ 8) := 0
  collateralOutpoint : TxPrevOut := toLex (0, 0)
  keyIDOwner : Uint160 := 0
  pubKeyOperator : OpKey := 0
  keyIDVoting : Uint160 := 0
  nOperatorReward : U16 := 0
  scriptPayout : Script := []
  netInfo : LegacyNetService := {}
  scriptOperatorPayout : Script := []
  nRegisteredHeight : U32 := 0
  nLastPaidHeight : U32 := 0
  nPoSeRevivedHeight : U32 := 0
  nPoSeBanHeight : U32 := 0
  nConsecutivePayments : U32 := 0
  nRevocationReason : U16 := 0
  isValid : Bool := true
  platformNodeID : Uint160 := 0
  platformP2PPort : U16 := 0
  platformHTTPPort : U16 := 0
  payoutSplitProvenance : SplitProvenance := .unknown
deriving DecidableEq

/-- The sentinel -1 of older snapshots, read as 0. -/
def saneHeight (v : U32) : U32 := if v.val = 2 ^ 32 - 1 then 0 else v

/-- `static_cast<int>`. -/
def toInt32 (v : U32) : Int := if v.val < 2 ^ 31 then v.val else v.val - 2 ^ 32

namespace MNState

def firstPayoutScript (st : MNState) : Script :=
  if st.nOperatorReward = 10000 ∧ st.scriptOperatorPayout ≠ [] then st.scriptOperatorPayout
  else st.scriptPayout

def payeeScore (st : MNState) : Int :=
  let lastPaid := saneHeight st.nLastPaidHeight
  let revived := saneHeight st.nPoSeRevivedHeight
  if revived ≠ 0 ∧ toInt32 lastPaid < toInt32 revived then toInt32 revived
  else if toInt32 lastPaid = 0 then toInt32 st.nRegisteredHeight
  else toInt32 lastPaid

def Eligible (st : MNState) : Prop := st.isValid ∧ saneHeight st.nPoSeBanHeight = 0

instance (st : MNState) : Decidable st.Eligible :=
  inferInstanceAs (Decidable (st.isValid ∧ saneHeight st.nPoSeBanHeight = 0))

/-- `mark_paid_entry`. -/
def markPaid (height : U32) (st : MNState) : MNState :=
  { st with
    nLastPaidHeight := height
    nConsecutivePayments :=
      if st.nType.val = mnEvo.val then
        if st.nLastPaidHeight = height - 1 then st.nConsecutivePayments + 1 else 1
      else 0 }

def register {P : Type} (code : ProTxCode P) (height : U32) (proRegTxHash : Uint256)
    (ptx : ProRegTx) : MNState where
  nVersion := ptx.nVersion
  nType := Fin.ofNat (2 ^ 8) ptx.nType.val
  nRegisteredHeight := height
  nLastPaidHeight := 0
  isValid := if ptx.netInfo.IsEmpty then false else true
  nPoSeBanHeight := if ptx.netInfo.IsEmpty then height else 0
  collateralOutpoint :=
    if (ofLex ptx.collateralOutpoint).1 = 0 then
      toLex (proRegTxHash, (ofLex ptx.collateralOutpoint).2)
    else ptx.collateralOutpoint
  keyIDOwner := ptx.keyIDOwner
  pubKeyOperator := code.opkeyToBasic ptx.pubKeyOperator (ptx.nVersion < basicBls)
  keyIDVoting := ptx.keyIDVoting
  nOperatorReward := ptx.nOperatorReward
  scriptPayout := ptx.scriptPayout
  netInfo := ptx.netInfo.canonical
  payoutSplitProvenance := .known
  platformNodeID := if ptx.nType = mnEvo then ptx.platformNodeID else 0
  platformP2PPort := if ptx.nType = mnEvo then ptx.platformP2PPort else 0
  platformHTTPPort := if ptx.nType = mnEvo then ptx.platformHTTPPort else 0

def updateService (ptx : ProUpServTx) (st : MNState) : MNState :=
  { st with
    netInfo := ptx.netInfo.canonical
    scriptOperatorPayout := ptx.scriptOperatorPayout
    payoutSplitProvenance :=
      if ptx.scriptOperatorPayout ≠ [] ∧ st.nOperatorReward = 0 ∧
          st.payoutSplitProvenance = .known then .unknown
      else st.payoutSplitProvenance
    platformNodeID := if ptx.nType = mnEvo then ptx.platformNodeID else st.platformNodeID
    platformP2PPort :=
      if ptx.nType = mnEvo ∧ ptx.nVersion < extAddr then ptx.platformP2PPort
      else st.platformP2PPort
    platformHTTPPort :=
      if ptx.nType = mnEvo ∧ ptx.nVersion < extAddr then ptx.platformHTTPPort
      else st.platformHTTPPort }

def revive (height : U32) (st : MNState) : MNState :=
  { st with nPoSeBanHeight := 0, nPoSeRevivedHeight := height, isValid := true }

def updateRegistrar {P : Type} (code : ProTxCode P) (height : U32) (ptx : ProUpRegTx)
    (st : MNState) : MNState :=
  let incoming := code.opkeyToBasic ptx.pubKeyOperator (ptx.nVersion < basicBls)
  let updated :=
    { st with
      pubKeyOperator := incoming
      keyIDVoting := ptx.keyIDVoting
      scriptPayout := ptx.scriptPayout }
  if st.pubKeyOperator = incoming then updated
  else
    { updated with
      nPoSeBanHeight := height
      isValid := false
      netInfo := {}
      scriptOperatorPayout := []
      nRevocationReason := 0
      platformNodeID := 0 }

def revoke (height : U32) (ptx : ProUpRevTx) (st : MNState) : MNState :=
  { st with
    nPoSeBanHeight := height
    isValid := false
    nRevocationReason := ptx.nReason
    pubKeyOperator := 0
    netInfo := {}
    scriptOperatorPayout := []
    platformNodeID := 0 }

end MNState

abbrev Entries := SortedMap Uint256 MNState

structure PendingPayeeAdjudication where
  present : Bool := false
  height : U32 := 0
  ranked : List Uint256 := []
  projected : Option Uint256 := none
deriving DecidableEq

structure ApplyResult where
  registered : Nat := 0
  updated : Nat := 0
  revoked : Nat := 0
  revived : Nat := 0
  reviveDroppedUnknown : Nat := 0
  reviveUnmeasured : Nat := 0
  reviveUnmeasuredProtx : List Uint256 := []
  reviveDeclinedMeasured : Nat := 0
  spent : Nat := 0
  paid : Nat := 0
  totalAfter : Nat := 0
  skippedOutOfOrder : Bool := false
  gapDetected : Bool := false
  payeeDesync : Bool := false
  projectedPayee : Option Uint256 := none
  smlRecovered : Nat := 0
  splitAdopted : Nat := 0
  splitDesync : Nat := 0
  refused : String := ""
deriving DecidableEq

structure MnStateMachine where
  entries : Entries := ∅
  collateralIndex : SortedMap TxPrevOut Uint256 := ∅
  pending : PendingPayeeAdjudication := {}
  smlValidity : Option (Uint256 → Option Bool) := none
  isSuperblockHeight : Option (U32 → Bool) := none
  smlHeight : U32 := 0
  smlHeightKnown : Bool := false
  smlRecoveryCap : Nat := 0
  smlRecoveredTotal : Nat := 0
  lastAppliedHeight : U32 := 0
  dip0003Height : U32 := 1028160
  banStateMeasuredAt : U32 := 0
  unmeasuredReviveAt : SortedMap Uint256 U32 := ∅

def payeeOrderBefore (aScore : Int) (a : Uint256) (bScore : Int) (b : Uint256) : Bool :=
  if aScore ≠ bScore then aScore < bScore else wireBytes a < wireBytes b

def payeeCandidates (entries : Entries) : List (Int × Uint256) :=
  (entries.entries.filter fun e => e.2.Eligible).map fun e => (e.2.payeeScore, e.1)

def payeeQueue (entries : Entries) : List Uint256 :=
  ((payeeCandidates entries).insertionSort
    fun a b => ¬ payeeOrderBefore b.1 b.2 a.1 a.2).map Prod.snd

/-- `rank_payee_candidates`: `partial_sort` leaves the first `k` of the queue. -/
def rankPayeeCandidates (entries : Entries) (k : Nat) : List Uint256 := (payeeQueue entries).take k

def kPayeeCandidates : Nat := 8

namespace MnStateMachine

def BanStateMeasuredFor (m : MnStateMachine) (height : U32) : Prop :=
  m.banStateMeasuredAt ≠ 0 ∧ m.banStateMeasuredAt + 1 = height

instance (m : MnStateMachine) (height : U32) : Decidable (m.BanStateMeasuredFor height) :=
  inferInstanceAs (Decidable (m.banStateMeasuredAt ≠ 0 ∧ m.banStateMeasuredAt + 1 = height))

def SmlCovers (m : MnStateMachine) (height : U32) : Prop :=
  ¬ m.smlHeightKnown ∨ m.smlHeight ≠ 0 ∧ height ≤ m.smlHeight

instance (m : MnStateMachine) (height : U32) : Decidable (m.SmlCovers height) :=
  inferInstanceAs (Decidable (¬ m.smlHeightKnown ∨ m.smlHeight ≠ 0 ∧ height ≤ m.smlHeight))

def smlAttest (m : MnStateMachine) (h : Uint256) (height : U32) : Option Bool :=
  match m.smlValidity with
  | none => none
  | some validity => if m.SmlCovers height then validity h else none

end MnStateMachine

/-! ## Special transactions -/

section Passes

variable {P : Type} (code : ProTxCode P) (height : U32)

/-- What the passes of `apply_block` carry. -/
abbrev Applying := MnStateMachine × ApplyResult

/-- `emplace`, which keeps an entry that is there. -/
def emplace (entries : Entries) (h : Uint256) (st : MNState) : Entries :=
  match entries.lookup h with
  | some _ => entries
  | none => entries.insert h st

def dropHolder (m : MnStateMachine) (outpoint : TxPrevOut) : Entries :=
  match m.collateralIndex.lookup outpoint with
  | some old => m.entries.erase old
  | none => m.entries

/-- Case 1 of `apply_block`. -/
def applyProReg (s : Applying) (tx : Tx P) : Applying :=
  match code.parseProReg tx.extraPayload with
  | none => s
  | some ptx =>
    let proRegTxHash := code.computeTxHash tx
    let st := MNState.register code height proRegTxHash ptx
    ({ s.1 with
        entries := emplace (dropHolder s.1 st.collateralOutpoint) proRegTxHash st
        collateralIndex := s.1.collateralIndex.insert st.collateralOutpoint proRegTxHash },
      { s.2 with registered := s.2.registered + 1 })

/-- Case 2 of `apply_block`. -/
def applyProUpServ (s : Applying) (tx : Tx P) : Applying :=
  match code.parseProUpServ tx.extraPayload with
  | none => s
  | some ptx =>
    match s.1.entries.lookup ptx.proTxHash with
    | none => (s.1, { s.2 with reviveDroppedUnknown := s.2.reviveDroppedUnknown + 1 })
    | some st =>
      let st := st.updateService ptx
      let r := { s.2 with updated := s.2.updated + 1 }
      if st.nPoSeBanHeight ≠ 0 then
        ({ s.1 with entries := s.1.entries.insert ptx.proTxHash (st.revive height) },
          { r with revived := r.revived + 1 })
      else
        let m := { s.1 with entries := s.1.entries.insert ptx.proTxHash st }
        if s.1.BanStateMeasuredFor height then
          (m, { r with reviveDeclinedMeasured := r.reviveDeclinedMeasured + 1 })
        else
          ({ m with
              unmeasuredReviveAt := m.unmeasuredReviveAt.insert ptx.proTxHash height },
            { r with
              reviveUnmeasured := r.reviveUnmeasured + 1
              reviveUnmeasuredProtx := r.reviveUnmeasuredProtx ++ [ptx.proTxHash] })

/-- Case 3 of `apply_block`. -/
def applyProUpReg (s : Applying) (tx : Tx P) : Applying :=
  match code.parseProUpReg tx.extraPayload with
  | none => s
  | some ptx =>
    match s.1.entries.lookup ptx.proTxHash with
    | none => s
    | some st =>
      ({ s.1 with
          entries := s.1.entries.insert ptx.proTxHash (st.updateRegistrar code height ptx) },
        { s.2 with updated := s.2.updated + 1 })

/-- Case 4 of `apply_block`. -/
def applyProUpRev (s : Applying) (tx : Tx P) : Applying :=
  match code.parseProUpRev tx.extraPayload with
  | none => s
  | some ptx =>
    match s.1.entries.lookup ptx.proTxHash with
    | none => s
    | some st =>
      ({ s.1 with entries := s.1.entries.insert ptx.proTxHash (st.revoke height ptx) },
        { s.2 with revoked := s.2.revoked + 1 })

/-- One transaction of pass 1. -/
def applySpecialTx (s : Applying) (tx : Tx P) : Applying :=
  match tx.type.val with
  | 1 => applyProReg code height s tx
  | 2 => applyProUpServ code height s tx
  | 3 => applyProUpReg code height s tx
  | 4 => applyProUpRev code height s tx
  | _ => s

/-- Pass 1. -/
def specialTxs (s : Applying) (txs : List (Tx P)) : Applying :=
  txs.foldl (applySpecialTx code height) s

/-- One input of pass 2. -/
def spendCollateral (s : Applying) (prevout : TxPrevOut) : Applying :=
  match s.1.collateralIndex.lookup prevout with
  | none => s
  | some owner =>
    ({ s.1 with
        entries := s.1.entries.erase owner
        collateralIndex := s.1.collateralIndex.erase prevout },
      { s.2 with spent := s.2.spent + 1 })

/-- Pass 2. -/
def collateralSpends (s : Applying) (txs : List (Tx P)) : Applying :=
  (txs.flatMap fun tx => tx.vin.map TxIn.prevout).foldl spendCollateral s

end Passes

def paidInCb (outs : List TxOut) (script : Script) : Bool :=
  script ≠ [] ∧ outs.any fun o => o.scriptPubKey = script

def floorSplit (total : Int) (bps : U16) : Int := (total * bps.val).tdiv 10000

/-- An output of the shape scan: not empty and not `OP_RETURN`. -/
def scanned (o : TxOut) : Bool := o.scriptPubKey ≠ [] ∧ o.scriptPubKey.head? ≠ some 0x6a

namespace MNState

def ExpectOperatorOut (st : MNState) : Prop :=
  0 < st.nOperatorReward ∧ st.nOperatorReward ≤ 10000 ∧ st.scriptOperatorPayout ≠ []

instance (st : MNState) : Decidable st.ExpectOperatorOut :=
  inferInstanceAs (Decidable
    (0 < st.nOperatorReward ∧ st.nOperatorReward ≤ 10000 ∧ st.scriptOperatorPayout ≠ []))

/-- `owner_idx`: the outputs at the owner's script, with their positions. -/
def ownerOuts (st : MNState) (outs : List TxOut) : List (TxOut × Nat) :=
  outs.zipIdx.filter fun o => scanned o.1 ∧ o.1.scriptPubKey = st.scriptPayout

/-- `other_idx`. -/
def otherOuts (st : MNState) (outs : List TxOut) : List (TxOut × Nat) :=
  outs.zipIdx.filter fun o => scanned o.1 ∧ o.1.scriptPubKey ≠ st.scriptPayout

/-- The outputs at the operator's script, apart from position `i`. -/
def operatorOutsBut (st : MNState) (outs : List TxOut) (i : Nat) : List (TxOut × Nat) :=
  outs.zipIdx.filter fun p => p.2 ≠ i ∧ p.1.scriptPubKey = st.scriptOperatorPayout

/-- `consistent`: the coinbase pays the owner and the operator as this entry says. -/
def splitConsistent (st : MNState) (outs : List TxOut) : Bool :=
  if st.nOperatorReward = 10000 then
    outs.any fun o => 0 < o.value ∧ o.scriptPubKey = st.scriptOperatorPayout
  else
    ((st.ownerOuts outs).any fun o => (st.operatorOutsBut outs o.2).any fun p =>
        floorSplit (o.1.value + p.1.value) st.nOperatorReward = p.1.value) ||
      (st.ownerOuts outs).any fun o =>
        0 < o.1.value ∧ floorSplit o.1.value st.nOperatorReward = 0 ∧
          st.operatorOutsBut outs o.2 = []

/-- The entry and the counts of adoptions and desyncs after `observe_payout_split`. -/
def observePayoutSplit (ambiguousHeight : Bool) (outs : List TxOut) (st : MNState) :
    MNState × Nat × Nat :=
  if st.scriptPayout = [] then (st, 0, 0)
  else
    match st.payoutSplitProvenance with
    | .known =>
      if st.ExpectOperatorOut then
        if st.splitConsistent outs then (st, 0, 0)
        else ({ st with payoutSplitProvenance := .unknown }, 0, 1)
      else if 0 < st.nOperatorReward ∧ ¬ ambiguousHeight then
        match st.ownerOuts outs, st.otherOuts outs with
        | [own], [other] =>
          if floorSplit (own.1.value + other.1.value) st.nOperatorReward = other.1.value then
            ({ st with payoutSplitProvenance := .unknown }, 0, 1)
          else (st, 0, 0)
        | _, _ => (st, 0, 0)
      else (st, 0, 0)
    | .unknown =>
      if ambiguousHeight then (st, 0, 0)
      else
        match st.ownerOuts outs, st.otherOuts outs with
        | [_], [] =>
          ({ st with scriptOperatorPayout := [], payoutSplitProvenance := .known }, 1, 0)
        | [own], [other] =>
          let total := own.1.value + other.1.value
          if 0 < total ∧ 0 < other.1.value then
            let bps := (other.1.value * 10000 + total - 1).tdiv total
            if 1 ≤ bps ∧ bps ≤ 10000 ∧
                floorSplit total (Fin.ofNat (2 ^ 16) bps.toNat) = other.1.value then
              ({ st with
                  nOperatorReward := Fin.ofNat (2 ^ 16) bps.toNat
                  scriptOperatorPayout := other.1.scriptPubKey
                  payoutSplitProvenance := .known }, 1, 0)
            else (st, 0, 0)
          else (st, 0, 0)
        | _, _ => (st, 0, 0)

end MNState

structure WalkOutcome where
  demoted : List Uint256
  accepted : Option Uint256
  refusal : Option String
deriving DecidableEq

/-- The loop of `walk_to_paid_candidate`. -/
def walkFrom (entries : Entries) (attest : Uint256 → Option Bool) (paid : Script → Bool) :
    List Uint256 → List Uint256 → WalkOutcome
  | demoted, candidate :: next :: rest =>
    match attest candidate with
    | none =>
      ⟨demoted, none, some ("the list has NO ENTRY for the projected candidate," ++
        " and absent is never evidence of a ban")⟩
    | some true =>
      ⟨demoted, none, some ("the list attests the projected candidate VALID —" ++
        " that is counter-evidence, not a missed ban")⟩
    | some false =>
      match entries.lookup next with
      | none =>
        ⟨demoted ++ [candidate], none,
          some ("the next ranked candidate was removed by this block's own special txs" ++
            " / collateral spends, so its script cannot be cross-checked")⟩
      | some st =>
        if paid st.firstPayoutScript then ⟨demoted ++ [candidate], some next, none⟩
        else walkFrom entries attest paid (demoted ++ [candidate]) (next :: rest)
  | demoted, _ =>
    ⟨demoted, none, some ("no candidate in the ranked queue has a scriptPayout" ++
      " this coinbase pays exactly")⟩

def walkToPaidCandidate (entries : Entries) (ranked : List Uint256)
    (attest : Uint256 → Option Bool) (paid : Script → Bool) : WalkOutcome :=
  if ranked.length < 2 then
    ⟨[], none, some ("fewer than two payee candidates were ranked, so there is no runner-up" ++
      " to attribute the payment to")⟩
  else walkFrom entries attest paid [] ranked

def changeEntry (entries : Entries) (h : Uint256) (f : MNState → MNState) : Entries :=
  match entries.lookup h with
  | some st => entries.insert h (f st)
  | none => entries

/-- `commit_walk_outcome`: the demoted are banned and the accepted is marked paid. -/
def commitWalkOutcome (entries : Entries) (height : U32) (demoted : List Uint256)
    (accepted : Uint256) : Entries :=
  changeEntry
    (demoted.foldl (fun entries d =>
      changeEntry entries d fun st => { st with isValid := false, nPoSeBanHeight := height })
      entries)
    accepted (MNState.markPaid height)

/-- `recover_from_sml_ban`: `none` when no repair is licensed. -/
def recoverFromSmlBan (ranked : List Uint256) (height : U32) (paid : Script → Bool)
    (s : Applying) : Option Applying :=
  if s.1.smlValidity.isNone then none
  else
    let w := walkToPaidCandidate s.1.entries ranked (fun h => s.1.smlAttest h height) paid
    match w.accepted with
    | none => none
    | some accepted =>
      if s.1.smlRecoveryCap < s.1.smlRecoveredTotal + w.demoted.length then none
      else
        some ({ s.1 with
            entries := commitWalkOutcome s.1.entries height w.demoted accepted
            smlRecoveredTotal := s.1.smlRecoveredTotal + w.demoted.length },
          { s.2 with
            paid := s.2.paid + if (s.1.entries.lookup accepted).isSome then 1 else 0
            smlRecovered := w.demoted.length })

section Block

variable {P : Type} (code : ProTxCode P)

/-- The part of `consensus_refusal` about a service update. -/
def proUpServRefusal (entries : Entries) (tx : Tx P) : Option String :=
  if tx.type ≠ 2 then none
  else
    match code.parseProUpServ tx.extraPayload with
    | none => none
    | some ptx =>
      if ptx.nType ≠ mnRegular ∧ ptx.nType ≠ mnEvo then
        some s!"bad-protx-type (ProUpServTx nType={ptx.nType.val})"
      else
        match entries.lookup ptx.proTxHash with
        | some st =>
          if st.nType.val ≠ ptx.nType.val then
            some (s!"bad-protx-type-mismatch (ProUpServTx nType={ptx.nType.val}" ++
              s!", registered nType={st.nType.val})")
          else none
        | none => none

/-- The checks of `consensus_refusal` on transaction `i`. -/
def txRefusal (m : MnStateMachine) (height : U32) (tx : Tx P) (i : Nat) : Option String :=
  let contextual := if m.dip0003Height ≤ height then contextualTxCheck tx (i = 0) else none
  match contextual with
  | some why => some s!"tx[{i}]: {why}"
  | none =>
    if i = 0 then none
    else (proUpServRefusal code m.entries tx).map fun why => s!"tx[{i}]: {why}"

def consensusRefusal (m : MnStateMachine) (block : Block P) (height : U32) : Option String :=
  block.txs.zipIdx.findSome? fun t => txRefusal code m height t.1 t.2

def Block.coinbaseOuts (block : Block P) : List TxOut :=
  match block.txs with
  | [] => []
  | coinbase :: _ => coinbase.vout

/-- Passes 1 and 2. -/
def foldTxs (height : U32) (block : Block P) (s : Applying) : Applying :=
  collateralSpends (specialTxs code height s block.txs.tail) block.txs.tail

def resolvePayee (ranked : List Uint256) (height : U32) (outs : List TxOut) (projected : Uint256)
    (scriptPre : Script) (st : MNState) (s : Applying) : Applying :=
  if paidInCb outs scriptPre then
    let seen := (st.markPaid height).observePayoutSplit
      (match s.1.isSuperblockHeight with
        | some f => f height
        | none => false) outs
    ({ s.1 with entries := s.1.entries.insert projected seen.1 },
      { s.2 with
        paid := s.2.paid + 1
        splitAdopted := s.2.splitAdopted + seen.2.1
        splitDesync := s.2.splitDesync + seen.2.2 })
  else
    match recoverFromSmlBan ranked height (paidInCb outs) s with
    | some s => s
    | none =>
      ({ s.1 with
          pending :=
            { present := true
              height := height
              ranked := ranked
              projected := some projected } },
        { s.2 with payeeDesync := true })

def applyBlock (m : MnStateMachine) (block : Block P) (height : U32) : Applying :=
  let total := m.entries.entries.length
  if m.lastAppliedHeight ≠ 0 ∧ height ≤ m.lastAppliedHeight then
    (m, { skippedOutOfOrder := true, totalAfter := total })
  else if m.lastAppliedHeight ≠ 0 ∧ m.lastAppliedHeight + 1 < height then
    (m, { gapDetected := true, totalAfter := total })
  else
    match consensusRefusal code m block height with
    | some why => (m, { refused := why, totalAfter := total })
    | none =>
      let ranked := rankPayeeCandidates m.entries kPayeeCandidates
      let s := foldTxs code height block
        ({ m with pending := {} }, { projectedPayee := ranked.head? })
      let s :=
        match ranked.head?, block.txs with
        | some projected, _ :: _ =>
          match s.1.entries.lookup projected with
          | some st =>
            resolvePayee ranked height block.coinbaseOuts projected
              (((m.entries.lookup projected).map MNState.firstPayoutScript).getD []) st s
          | none => s
        | _, _ => s
      ({ s.1 with lastAppliedHeight := height },
        { s.2 with totalAfter := s.1.entries.entries.length })

end Block

def attestations (sml : List SmlEntry) : SortedMap Uint256 Bool :=
  sml.foldl (fun attested e => attested.insert e.proRegTxHash e.isValid) ∅

structure ReadjudicateResult where
  recovered : Bool := false
  excluded : Nat := 0
  accepted : Option Uint256 := none
  refusal : String := ""
deriving DecidableEq

def readjudicateHead (m : MnStateMachine) (attest : Uint256 → Option Bool)
    (paid : Script → Bool) : Option Uint256 :=
  match m.pending.ranked with
  | [] => none
  | head :: _ =>
    match m.entries.lookup head with
    | none => none
    | some st =>
      if paid st.firstPayoutScript ∧ attest head ≠ some false then some head else none

def readjudicatePayee {P : Type} (m : MnStateMachine) (block : Block P) (height : U32)
    (sml : List SmlEntry) : MnStateMachine × ReadjudicateResult :=
  if ¬ m.pending.present then
    (m, { refusal := "there is no pending payee mismatch to re-adjudicate" })
  else if m.pending.height ≠ height then
    (m, { refusal := s!"the pending mismatch is at h={m.pending.height.val}, not h={height.val}" })
  else if m.lastAppliedHeight ≠ height then
    (m, { refusal := s!"the apply cursor has moved to h={m.lastAppliedHeight.val}" ++
      s!" since the mismatch at h={height.val}" ++
      " — refusing to adjudicate a height we are no longer standing on" })
  else
    match block.txs with
    | [] => (m, { refusal := "the block carries no coinbase to cross-check against" })
    | coinbase :: _ =>
      let attest := (attestations sml).lookup
      let paid := paidInCb coinbase.vout
      match readjudicateHead m attest paid with
      | some head =>
        ({ m with
            entries := changeEntry m.entries head (MNState.markPaid height)
            pending := {} },
          { recovered := true, accepted := some head })
      | none =>
        let w := walkToPaidCandidate m.entries m.pending.ranked attest paid
        match w.accepted with
        | none =>
          (m, { refusal := s!"the masternode list dated exactly at h={height.val}" ++
            " does not license a repair: " ++ w.refusal.getD "no candidate accepted" })
        | some accepted =>
          ({ m with
              entries := commitWalkOutcome m.entries height w.demoted accepted
              pending := {} },
            { recovered := true, excluded := w.demoted.length, accepted := some accepted })

/-- What `repair_unmeasured_revive_ordering` writes. -/
def MNState.repairRevive (reviveHeight : U32) (st : MNState) : MNState :=
  { st with nPoSeRevivedHeight := reviveHeight, nPoSeBanHeight := 0, isValid := true }

/-- One round of `repair_unmeasured_revive_ordering`, with the count of repairs. -/
def repairRevive (attested : SortedMap Uint256 Bool) (s : MnStateMachine × Nat)
    (e : Uint256 × U32) : MnStateMachine × Nat :=
  match attested.lookup e.1, s.1.entries.lookup e.1 with
  | some true, some st =>
    let ledger := s.1.unmeasuredReviveAt.erase e.1
    if st.nPoSeRevivedHeight < e.2 then
      ({ s.1 with
          entries := s.1.entries.insert e.1 (st.repairRevive e.2)
          unmeasuredReviveAt := ledger }, s.2 + 1)
    else ({ s.1 with unmeasuredReviveAt := ledger }, s.2)
  | _, _ => s

def queuedScore (entries : Entries) (h : Uint256) : Int :=
  match entries.lookup h with
  | some st => st.payeeScore
  | none => 2 ^ 31 - 1

def repairUnmeasuredReviveOrdering (m : MnStateMachine) (sml : List SmlEntry) :
    MnStateMachine × Nat :=
  let s := m.unmeasuredReviveAt.entries.foldl (repairRevive (attestations sml)) (m, 0)
  if s.2 ≠ 0 ∧ s.1.pending.present then
    let ranked := s.1.pending.ranked.insertionSort fun a b =>
      ¬ payeeOrderBefore (queuedScore s.1.entries b) b (queuedScore s.1.entries a) a
    ({ s.1 with
        pending := { s.1.pending with ranked := ranked, projected := ranked.head? } }, s.2)
  else s

end C2Pool.Dash
