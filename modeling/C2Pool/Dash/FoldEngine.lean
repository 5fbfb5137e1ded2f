import C2Pool.Dash.SmlMerkle
import C2Pool.Dash.StateMachine

/-! # The list fold

`DmlFoldEngine` (`replay_fold_engine.hpp`) with the penalty rules of
`pose_penalty.hpp`: the full state of every masternode, folded block by block and
checked against the root of the list that each block commits to.
-/

namespace C2Pool.Dash

def never : Int := -1

structure ReplayMNState where
  nType : U16 := mnRegular
  internalId : U64 := 0
  collateralOutpoint : TxPrevOut := toLex (0, 0)
  nOperatorReward : U16 := 0
  nVersion : U16 := legacyBls
  nRegisteredHeight : Int := never
  nLastPaidHeight : Int := 0
  nConsecutivePayments : Int := 0
  nPoSePenalty : Int := 0
  nPoSePenaltyHi : Int := 0
  nPoSeRevivedHeight : Int := never
  nPoSeBanHeight : Int := never
  nRevocationReason : U16 := 0
  confirmedHash : Uint256 := 0
  confirmedHashWithProRegTxHash : Uint256 := 0
  keyIDOwner : Uint160 := 0
  pubKeyOperator : OpKey := 0
  keyIDVoting : Uint160 := 0
  netInfo : LegacyNetService := {}
  scriptPayout : Script := []
  scriptOperatorPayout : Script := []
  platformNodeID : Uint160 := 0
  platformP2PPort : U16 := 0
  platformHTTPPort : U16 := 0
deriving DecidableEq

abbrev ReplayEntries := SortedMap Uint256 ReplayMNState

/-- The parts of `CFinalCommitment` that the fold reads. -/
structure FinalCommitment where
  llmqType : Fin (2 ^ 8)
  quorumHash : Uint256
  signers : List Bool := []
  validMembers : List Bool := []
  quorumPublicKey : OpKey := 0
  quorumVvecHash : Uint256 := 0
  quorumSig : Fin (2 ^ 768) := 0
  membersSig : Fin (2 ^ 768) := 0
deriving DecidableEq

/-- A snapshot as its bytes are read: the rows carry an upper bound from version 4 on. -/
structure Snapshot where
  version : Nat
  network : String
  height : U32
  blockHash : Uint256
  totalRegistered : U64
  rows : List (Uint256 × ReplayMNState)
  trailing : Nat

/-- What the fold calls on payloads, keys, headers and snapshot bytes, beside `ProTxCode`:
`parse_cbtx` (its `merkleRootMNList`), the `qfcommit` payload with the text of its failure,
`opkey_for_leaf`, `opkey_legacy_wire_to_basic`, `opkey_point_eq`, the hash of
`UpdateConfirmedHash`, `block_header_hash`, and the header, digest and codec of a snapshot. -/
structure FoldCode (P : Type) extends ProTxCode P where
  sml : SmlHash
  parseCbtx : P → Option Uint256
  parseQfcommit : P → Except String FinalCommitment
  opkeyForLeaf : OpKey → Bool → OpKey
  opkeyLegacyWireToBasic : OpKey → Option OpKey
  opkeyPointEq : OpKey → Bool → OpKey → Bool → Bool
  hashConfirmed : Uint256 → Uint256 → Uint256
  blockHeaderHash : Block P → Uint256
  decodeSnapshot : List Byte → Except String Snapshot

def plainFoldCode {P : Type} : FoldCode P :=
  { plainCode with
    sml :=
      { calcHash := fun e => e.proRegTxHash + e.confirmedHash
        merklePairHash := fun a b => a + 2 * b }
    parseCbtx := fun _ => none
    parseQfcommit := fun _ => .error ""
    opkeyForLeaf := fun key _ => key
    opkeyLegacyWireToBasic := fun _ => none
    opkeyPointEq := fun a _ b _ => a = b
    hashConfirmed := fun _ h => h
    blockHeaderHash := fun block => block.previousBlock + 1
    decodeSnapshot := fun _ => .error "" }

def calcMaxPosePenalty (totalMnCount : Nat) : Int := max 100 (min totalMnCount (2 ^ 31 - 1))

def calcPenalty (maxPenalty percent : Int) : Int := (maxPenalty * percent).tdiv 100

def decayed (penalty : Int) : Int := if 0 < penalty then penalty - 1 else penalty

def punished (penalty add maxPenalty : Int) : Int := min maxPenalty (penalty + add)

def punishBans (wasBanned : Bool) (newPenalty maxPenalty : Int) : Bool :=
  ¬ wasBanned ∧ maxPenalty ≤ newPenalty

namespace ReplayMNState

def isBanned (st : ReplayMNState) : Bool := st.nPoSeBanHeight ≠ never

def firstPayoutScript (st : ReplayMNState) : Script :=
  if st.nOperatorReward = 10000 ∧ st.scriptOperatorPayout ≠ [] then st.scriptOperatorPayout
  else st.scriptPayout

def banIfNotBanned (height : Int) (st : ReplayMNState) : ReplayMNState :=
  if st.isBanned then st else { st with nPoSeBanHeight := height }

def revive (height : Int) (st : ReplayMNState) : ReplayMNState :=
  { st with
    nPoSePenalty := 0
    nPoSePenaltyHi := 0
    nPoSeBanHeight := never
    nPoSeRevivedHeight := height }

def resetOperatorFields (st : ReplayMNState) : ReplayMNState :=
  { st with
    nVersion := legacyBls
    pubKeyOperator := 0
    netInfo := {}
    scriptOperatorPayout := []
    nRevocationReason := 0
    platformNodeID := 0 }

variable {P : Type} (code : FoldCode P)

def updateConfirmedHash (proTxHash newConfirmedHash : Uint256) (st : ReplayMNState) :
    ReplayMNState :=
  { st with
    confirmedHash := newConfirmedHash
    confirmedHashWithProRegTxHash := code.hashConfirmed proTxHash newConfirmedHash }

def toSmlEntry (proTxHash : Uint256) (st : ReplayMNState) : SmlEntry where
  nVersion := st.nVersion
  proRegTxHash := proTxHash
  confirmedHash := st.confirmedHash
  netInfo := st.netInfo.canonical
  pubKeyOperator := code.opkeyForLeaf st.pubKeyOperator (st.nVersion < basicBls)
  keyIDVoting := st.keyIDVoting
  isValid := ¬ st.isBanned
  nType := st.nType
  platformHTTPPort := st.platformHTTPPort
  platformNodeID := st.platformNodeID

def compareByLastPaidHeight (st : ReplayMNState) : Int :=
  if st.nPoSeRevivedHeight ≠ never ∧ st.nLastPaidHeight < st.nPoSeRevivedHeight then
    st.nPoSeRevivedHeight
  else if st.nLastPaidHeight = 0 then st.nRegisteredHeight
  else st.nLastPaidHeight

end ReplayMNState

/-! ## The engine -/

structure FoldGates where
  dip0003Height : Int := 1028160
  dip0003EnforcementHeight : Int := 1047200
  v19Height : Int := 1899072
  mnRrHeight : Int := 2128896
  masternodeMinConfirmations : Int := 15
  v24Active : Bool := false

structure FoldConfig where
  enabled : Bool := false
  gates : FoldGates := {}

structure FoldResult where
  ok : Bool := false
  error : String := ""
  height : U32 := 0
  refusedUnchanged : Bool := false
  computedRoot : Uint256 := 0
  committedRoot : Uint256 := 0
  registered : Nat := 0
  updated : Nat := 0
  revoked : Nat := 0
  revived : Nat := 0
  punished : Nat := 0
  banned : Nat := 0
  decayed : Nat := 0
  confirmed : Nat := 0
  collateralReplaced : Nat := 0
  collateralSpent : Nat := 0
  rootResolvedBans : Nat := 0
  rootResolvedNobans : Nat := 0
  payee : Option Uint256 := none
  payeeMarked : Bool := false
  payeePaidVerified : Bool := false
  payeeCheckPreenforcementSkipped : Bool := false
deriving DecidableEq

structure DmlFoldEngine where
  cfg : FoldConfig := {}
  membersFn : Option (Fin (2 ^ 8) → Uint256 → Option (List Uint256)) := none
  entries : ReplayEntries := ∅
  smlCache : IncrementalSmlMerkle := {}
  smlTouched : List Uint256 := []
  smlStructural : Bool := false
  blockPunished : SortedMap Uint256 Int := ∅
  blockReviveWidened : List Uint256 := []
  collateralIndex : SortedMap TxPrevOut Uint256 := ∅
  totalRegisteredCount : U64 := 0
  height : U32 := 0
  blockHash : Uint256 := 0
  network : String := "mainnet"
  poisoned : Bool := false
  poisonReason : String := ""
  loadedSnapshotVersion : Nat := 0

/-- `GetHex`. -/
def hexDigits (h : Uint256) : List Char :=
  let digits := Nat.toDigits 16 h.val
  List.replicate (64 - digits.length) '0' ++ digits

def getHex (h : Uint256) : String := String.ofList (hexDigits h)

def hex16 (h : Uint256) : String := String.ofList ((hexDigits h).take 16)

namespace DmlFoldEngine

def poison (why : String) (eng : DmlFoldEngine) : DmlFoldEngine :=
  { eng with poisoned := true, poisonReason := why }

/-- `calc_max_pose_penalty` of the held list. -/
def maxPosePenalty (eng : DmlFoldEngine) : Int := calcMaxPosePenalty eng.entries.entries.length

/-- `kSeedPenaltyCeilingFactor` times the maximum. -/
def seedPenaltyCeiling (entries : ReplayEntries) : Int :=
  2 * calcMaxPosePenalty entries.entries.length

/-- `emplace`, which keeps an entry that is there. -/
def emplace (entries : ReplayEntries) (e : Uint256 × ReplayMNState) : ReplayEntries :=
  match entries.lookup e.1 with
  | some _ => entries
  | none => entries.insert e.1 e.2

def indexOf (entries : List (Uint256 × ReplayMNState)) : SortedMap TxPrevOut Uint256 :=
  entries.foldl (fun index e => index.insert e.2.collateralOutpoint e.1) ∅

inductive SeedPenalties where
  | unknown
  | exact
deriving DecidableEq

def seed (eng : DmlFoldEngine) (entries : List (Uint256 × ReplayMNState))
    (totalRegisteredCount : U64) (height : U32) (blockHash : Uint256) (network : String)
    (penalties : SeedPenalties) : DmlFoldEngine :=
  let held := entries.foldl emplace ∅
  { eng with
    entries := held.mapValues fun _ st =>
      { st with
        nPoSePenaltyHi :=
          match penalties with
          | .exact => st.nPoSePenalty
          | .unknown => max st.nPoSePenalty (seedPenaltyCeiling held) }
    collateralIndex := indexOf entries
    totalRegisteredCount := totalRegisteredCount
    height := height
    blockHash := blockHash
    network := network
    poisoned := false
    poisonReason := ""
    smlCache := .reset }

def badRow (snapshot : Snapshot) : Option (Uint256 × ReplayMNState) :=
  if 4 ≤ snapshot.version then
    snapshot.rows.find? fun row => row.2.nPoSePenaltyHi < row.2.nPoSePenalty
  else none

/-- `load_snapshot`: the text of the failure, empty on success. -/
def loadSnapshot {P : Type} (code : FoldCode P) (eng : DmlFoldEngine) (bytes : List Byte) :
    DmlFoldEngine × String :=
  match code.decodeSnapshot bytes with
  | .error why => (eng, why)
  | .ok snapshot =>
    match badRow snapshot with
    | some row =>
      (eng, s!"snapshot entry {hex16 row.1}" ++
        s!" carries penalty bounds lo={row.2.nPoSePenalty} > hi={row.2.nPoSePenaltyHi}" ++
        " — not a state this engine writes, refusing")
    | none =>
      let entries := snapshot.rows.foldl emplace ∅
      let held :=
        if snapshot.version = 3 then
          entries.mapValues fun _ st =>
            { st with
              nPoSePenaltyHi := max st.nPoSePenalty (seedPenaltyCeiling entries) }
        else entries
      if snapshot.trailing ≠ 0 then
        (eng, s!"snapshot carries {snapshot.trailing} trailing bytes" ++
          " — format drift, refusing")
      else if held.entries.length ≠ snapshot.rows.length then
        (eng, s!"snapshot declared {snapshot.rows.length} entries but carried " ++
          s!"{held.entries.length} unique proTxHashes")
      else
        ({ eng with
            entries := held
            collateralIndex := indexOf snapshot.rows
            network := snapshot.network
            height := snapshot.height
            blockHash := snapshot.blockHash
            totalRegisteredCount := snapshot.totalRegistered
            poisoned := false
            poisonReason := ""
            loadedSnapshotVersion := snapshot.version
            smlCache := .reset }, "")

section Root

variable {P : Type} (code : FoldCode P)

def materializeSmlEntries (entries : ReplayEntries) : List SmlEntry :=
  entries.entries.map fun e => e.2.toSmlEntry code e.1

def computeSmlRoot (eng : DmlFoldEngine) : Uint256 :=
  calcMerkleRoot code.sml (sortSml (materializeSmlEntries code eng.entries))

def changedEntries (eng : DmlFoldEngine) : List SmlEntry :=
  eng.smlTouched.filterMap fun protx =>
    (eng.entries.lookup protx).map (ReplayMNState.toSmlEntry code protx)

/-- The cache that `compute_sml_root_incremental` leaves; its root is the result. -/
def refreshedCache (eng : DmlFoldEngine) : IncrementalSmlMerkle :=
  if ¬ eng.smlCache.valid ∨ eng.smlStructural then
    eng.smlCache.update code.sml (materializeSmlEntries code eng.entries)
  else if eng.smlTouched = [] then eng.smlCache
  else
    match eng.smlCache.applyValueChanges code.sml (eng.changedEntries code) with
    | (cache, true) => cache
    | (cache, false) => cache.update code.sml (materializeSmlEntries code eng.entries)

def computeSmlRootIncremental (eng : DmlFoldEngine) : DmlFoldEngine × Uint256 :=
  ({ eng with smlCache := eng.refreshedCache code }, (eng.refreshedCache code).root)

end Root

def payeeBefore (a b : Int × Uint256) : Bool :=
  if a.1 ≠ b.1 then a.1 < b.1 else wireBytes a.2 < wireBytes b.2

/-- The loop of `project_payee` over the masternodes that are not banned. -/
def bestPayee (entries : List (Uint256 × ReplayMNState)) : Option (Int × Uint256) :=
  entries.foldl (fun best e =>
    if e.2.isBanned then best
    else
      let candidate := (e.2.compareByLastPaidHeight, e.1)
      match best with
      | none => some candidate
      | some held => if payeeBefore candidate held then some candidate else best) none

def projectPayee (eng : DmlFoldEngine) (nextHeight : Int) : Option Uint256 :=
  let evoBonus := eng.cfg.gates.v19Height ≤ nextHeight ∧ ¬ eng.cfg.gates.mnRrHeight ≤ nextHeight
  let bonus :=
    if evoBonus then
      eng.entries.entries.find? fun e =>
        ¬ e.2.isBanned ∧ e.2.nLastPaidHeight = toInt32 eng.height ∧ e.2.nType = mnEvo ∧
          e.2.nConsecutivePayments < 4
    else none
  match bonus with
  | some e => some e.1
  | none => (bestPayee eng.entries.entries).map Prod.snd

/-! ## Special transactions -/

/-- What the passes of `fold_block` carry. -/
abbrev Folding := DmlFoldEngine × FoldResult

/-- A step of the fold, or the text of its failure with what it has changed by then. -/
abbrev FoldStep := Except (String × Folding) Folding

def removeMn (eng : DmlFoldEngine) (protx : Uint256) : DmlFoldEngine :=
  match eng.entries.lookup protx with
  | none => eng
  | some st =>
    { eng with
      collateralIndex := eng.collateralIndex.erase st.collateralOutpoint
      entries := eng.entries.erase protx
      smlStructural := true }

def touchEntry (eng : DmlFoldEngine) (protx : Uint256) (st : ReplayMNState) : DmlFoldEngine :=
  { eng with
    entries := eng.entries.insert protx st
    smlTouched := eng.smlTouched ++ [protx] }

def idHolder (entries : ReplayEntries) (id : Uint160) (self : Uint256) : Option Uint256 :=
  if id = 0 then none
  else
    (entries.entries.find? fun e =>
      e.1 ≠ self ∧ (e.2.keyIDOwner = id ∨ e.2.nType = mnEvo ∧ e.2.platformNodeID = id)).map
      Prod.fst

section Passes

variable {P : Type} (code : FoldCode P) (H : Int)

def opkeyHolder (entries : ReplayEntries) (wire : OpKey) (self : Uint256) : Option Uint256 :=
  if wire = 0 then none
  else
    (entries.entries.find? fun e =>
      e.1 ≠ self ∧ e.2.pubKeyOperator ≠ 0 ∧
        if e.2.nVersion < basicBls then
          code.opkeyLegacyWireToBasic wire = some e.2.pubKeyOperator
        else e.2.pubKeyOperator = wire).map Prod.fst

def registered (eng : DmlFoldEngine) (proTxHash : Uint256) (p : ProRegTx) : ReplayMNState :=
  let st : ReplayMNState :=
    { nType := p.nType
      internalId := eng.totalRegisteredCount
      collateralOutpoint :=
        if (ofLex p.collateralOutpoint).1 = 0 then
          toLex (proTxHash, (ofLex p.collateralOutpoint).2)
        else p.collateralOutpoint
      nVersion := p.nVersion
      keyIDOwner := p.keyIDOwner
      pubKeyOperator := code.opkeyToBasic p.pubKeyOperator (p.nVersion < basicBls)
      keyIDVoting := p.keyIDVoting
      netInfo := p.netInfo.canonical
      scriptPayout := p.scriptPayout
      platformNodeID := p.platformNodeID
      platformP2PPort := p.platformP2PPort
      platformHTTPPort := p.platformHTTPPort
      nOperatorReward := p.nOperatorReward
      nRegisteredHeight := H }
  if st.netInfo.IsEmpty then st.banIfNotBanned H else st

def replaceCollateral (s : Folding) (outpoint : TxPrevOut) : Folding :=
  match s.1.collateralIndex.lookup outpoint with
  | none => s
  | some old =>
    (s.1.removeMn old, { s.2 with collateralReplaced := s.2.collateralReplaced + 1 })

def foldProReg (s : Folding) (tx : Tx P) : FoldStep :=
  match code.parseProReg tx.extraPayload with
  | none =>
    .error ("unparseable ProRegTx payload (replay folds byte-exact or not at all)", s)
  | some p =>
    if extAddr ≤ p.nVersion then
      .error (s!"ProRegTx nVersion={p.nVersion.val}" ++
        " (ExtAddr) — branch not implemented, failing closed", s)
    else
      let proTxHash := code.computeTxHash tx
      let st := registered code H s.1 proTxHash p
      let s := replaceCollateral s st.collateralOutpoint
      match idHolder s.1.entries p.keyIDOwner proTxHash with
      | some h =>
        .error ("ProRegTx keyIDOwner is already an owner key or platformNodeID of MN " ++
          hex16 h ++ " (bad-protx-dup-key)", s)
      | none =>
        match opkeyHolder code s.1.entries p.pubKeyOperator proTxHash with
        | some h =>
          .error ("ProRegTx pubKeyOperator is already held by MN " ++ hex16 h ++
            " (bad-protx-dup-key)", s)
        | none =>
          match if p.nType = mnEvo then idHolder s.1.entries p.platformNodeID proTxHash
            else none with
          | some h =>
            .error ("ProRegTx platformNodeID is already an owner key or" ++
              " platformNodeID of MN " ++ hex16 h ++
              " (bad-protx-dup-platformnodeid)", s)
          | none =>
            .ok ({ s.1 with
                collateralIndex := s.1.collateralIndex.insert st.collateralOutpoint proTxHash
                entries := s.1.entries.insert proTxHash st
                smlStructural := true
                totalRegisteredCount := s.1.totalRegisteredCount + 1 },
              { s.2 with
                banned := s.2.banned + if st.netInfo.IsEmpty then 1 else 0
                registered := s.2.registered + 1 })

def updatedService (p : ProUpServTx) (st : ReplayMNState) : ReplayMNState :=
  { st with
    netInfo := p.netInfo.canonical
    scriptOperatorPayout := p.scriptOperatorPayout
    platformNodeID := if p.nType = mnEvo then p.platformNodeID else st.platformNodeID
    platformP2PPort := if p.nType = mnEvo then p.platformP2PPort else st.platformP2PPort
    platformHTTPPort := if p.nType = mnEvo then p.platformHTTPPort else st.platformHTTPPort }

def PunishedOpen (eng : DmlFoldEngine) (protx : Uint256) (st : ReplayMNState) : Prop :=
  ¬ st.isBanned ∧ (∃ mx ∈ eng.blockPunished.lookup protx, mx ≤ st.nPoSePenaltyHi) ∧
    0 < st.nPoSePenalty

instance (eng : DmlFoldEngine) (protx : Uint256) (st : ReplayMNState) :
    Decidable (PunishedOpen eng protx st) :=
  inferInstanceAs (Decidable (_ ∧ _ ∧ _))

def widenRevived (eng : DmlFoldEngine) (protx : Uint256) (st : ReplayMNState) :
    DmlFoldEngine × ReplayMNState :=
  if PunishedOpen eng protx st then
    ({ eng with blockReviveWidened := protx :: eng.blockReviveWidened },
      { st with nPoSePenalty := 0 })
  else (eng, st)

def Revivable (st : ReplayMNState) : Prop :=
  st.isBanned ∧ st.pubKeyOperator ≠ 0 ∧ st.keyIDVoting ≠ 0 ∧ st.keyIDOwner ≠ 0

instance (st : ReplayMNState) : Decidable (Revivable st) :=
  inferInstanceAs (Decidable (_ ∧ _ ∧ _ ∧ _))

def foldProUpServ (s : Folding) (tx : Tx P) : FoldStep :=
  match code.parseProUpServ tx.extraPayload with
  | none => .error ("unparseable ProUpServTx payload", s)
  | some p =>
    if extAddr ≤ p.nVersion then
      .error (s!"ProUpServTx nVersion={p.nVersion.val}" ++
        " (ExtAddr) — branch not implemented, failing closed", s)
    else if p.nType ≠ mnRegular ∧ p.nType ≠ mnEvo then
      .error (s!"ProUpServTx nType={p.nType.val} is not a valid MnType (bad-protx-type)", s)
    else
      match s.1.entries.lookup p.proTxHash with
      | none =>
        .error ("ProUpServTx names proTxHash " ++ hex16 p.proTxHash ++
          " this list does not hold — state divergence" ++
          " (an accepted block cannot reference a missing MN)", s)
      | some st =>
        if p.nType ≠ st.nType then
          .error ("ProUpServTx nType mismatch for " ++ hex16 p.proTxHash, s)
        else
          match if p.nType = mnEvo then idHolder s.1.entries p.platformNodeID p.proTxHash
            else none with
          | some h =>
            .error ("ProUpServTx platformNodeID is already an owner key or" ++
              " platformNodeID of MN " ++ hex16 h ++ " (bad-protx-dup-platformnodeid)", s)
          | none =>
            let w := widenRevived s.1 p.proTxHash (updatedService p st)
            if Revivable w.2 then
              .ok (w.1.touchEntry p.proTxHash (w.2.revive H),
                { s.2 with revived := s.2.revived + 1, updated := s.2.updated + 1 })
            else
              .ok (w.1.touchEntry p.proTxHash w.2, { s.2 with updated := s.2.updated + 1 })

def changedOperator (p : ProUpRegTx) (st : ReplayMNState) : ReplayMNState :=
  let st := st.resetOperatorFields.banIfNotBanned H
  { st with
    nVersion := if basicBls < st.nVersion then st.nVersion else p.nVersion
    pubKeyOperator := code.opkeyToBasic p.pubKeyOperator (p.nVersion < basicBls) }

def foldProUpReg (s : Folding) (tx : Tx P) : FoldStep :=
  match code.parseProUpReg tx.extraPayload with
  | none => .error ("unparseable ProUpRegTx payload", s)
  | some p =>
    match s.1.entries.lookup p.proTxHash with
    | none =>
      .error ("ProUpRegTx names proTxHash " ++ hex16 p.proTxHash ++
        " this list does not hold — state divergence", s)
    | some st =>
      match opkeyHolder code s.1.entries p.pubKeyOperator p.proTxHash with
      | some h =>
        .error ("ProUpRegTx pubKeyOperator is already held by MN " ++ hex16 h ++
          " (bad-protx-dup-key)", s)
      | none =>
        let same := code.opkeyPointEq st.pubKeyOperator false p.pubKeyOperator
          (p.nVersion < basicBls)
        let new := if same then st else changedOperator code H p st
        .ok (s.1.touchEntry p.proTxHash
            { new with keyIDVoting := p.keyIDVoting, scriptPayout := p.scriptPayout },
          { s.2 with
            banned := s.2.banned + if ¬ same ∧ ¬ st.isBanned then 1 else 0
            updated := s.2.updated + 1 })

def foldProUpRev (s : Folding) (tx : Tx P) : FoldStep :=
  match code.parseProUpRev tx.extraPayload with
  | none => .error ("unparseable ProUpRevTx payload", s)
  | some p =>
    match s.1.entries.lookup p.proTxHash with
    | none =>
      .error ("ProUpRevTx names proTxHash " ++ hex16 p.proTxHash ++
        " this list does not hold — state divergence", s)
    | some st =>
      .ok (s.1.touchEntry p.proTxHash
          { st.resetOperatorFields.banIfNotBanned H with nRevocationReason := p.nReason },
        { s.2 with
          banned := s.2.banned + if ¬ st.isBanned then 1 else 0
          revoked := s.2.revoked + 1 })

def commitmentIsNull (c : FinalCommitment) : Bool :=
  c.signers.count true = 0 ∧ c.validMembers.count true = 0 ∧ c.quorumPublicKey = 0 ∧
    c.quorumVvecHash = 0 ∧ c.quorumSig = 0 ∧ c.membersSig = 0

def posePunish (s : Folding) (protx : Uint256) (st : ReplayMNState) (penalty : Int) : Folding :=
  let maxPenalty := s.1.maxPosePenalty
  let st' :=
    { st with
      nPoSePenalty := punished st.nPoSePenalty penalty maxPenalty
      nPoSePenaltyHi := punished st.nPoSePenaltyHi penalty maxPenalty }
  let eng :=
    if st.isBanned then s.1
    else { s.1 with blockPunished := s.1.blockPunished.insert protx maxPenalty }
  let r := { s.2 with punished := s.2.punished + 1 }
  if punishBans st.isBanned st'.nPoSePenalty maxPenalty then
    (eng.touchEntry protx (st'.banIfNotBanned H), { r with banned := r.banned + 1 })
  else ({ eng with entries := eng.entries.insert protx st' }, r)

/-- The loop of `fold_qfcommit` over the members and their bits. -/
def punishMembers (s : Folding) (members : List (Uint256 × Bool)) : Folding :=
  members.foldl (fun s m =>
    match s.1.entries.lookup m.1 with
    | none => s
    | some st =>
      if m.2 then s else posePunish H s m.1 st (calcPenalty s.1.maxPosePenalty 66)) s

def foldQfcommit (s : Folding) (tx : Tx P) : FoldStep :=
  match code.parseQfcommit tx.extraPayload with
  | .error why => .error (why, s)
  | .ok c =>
    if commitmentIsNull c then .ok s
    else if c.validMembers.count true = c.validMembers.length then .ok s
    else
      match s.1.membersFn with
      | none =>
        .error (s!"block carries a non-null qfcommit (llmqType={c.llmqType.val}" ++
          " quorumHash=" ++ hex16 c.quorumHash ++
          ") but no quorum-member resolver is installed — PoSe" ++
          " punishes cannot be folded, failing closed", s)
      | some resolve =>
        match resolve c.llmqType c.quorumHash with
        | none =>
          .error ("quorum-member resolver has no member set for llmqType=" ++
            s!"{c.llmqType.val} quorumHash=" ++ hex16 c.quorumHash ++
            " — failing closed", s)
        | some members =>
          if c.validMembers.length < members.length then
            .error (s!"quorum member set size {members.length}" ++
              s!" OVERRUNS validMembers bitset size {c.validMembers.length}" ++
              " for quorumHash " ++ hex16 c.quorumHash, s)
          else .ok (punishMembers H s (members.zip c.validMembers))

/-- One transaction of pass 3. -/
def foldTx (s : Folding) (tx : Tx P) : FoldStep :=
  if ¬ txHasExtraPayload tx.version tx.type then .ok s
  else
    match tx.type.val with
    | 1 => foldProReg code H s tx
    | 2 => foldProUpServ code H s tx
    | 3 => foldProUpReg code H s tx
    | 4 => foldProUpRev code H s tx
    | 6 => foldQfcommit code H s tx
    | _ => .ok s

/-- One input of pass 4. -/
def foldSpend (s : Folding) (prevout : TxPrevOut) : Folding :=
  match s.1.collateralIndex.lookup prevout with
  | none => s
  | some owner => (s.1.removeMn owner, { s.2 with collateralSpent := s.2.collateralSpent + 1 })

/-- Pass 4. -/
def foldSpends (s : Folding) (txs : List (Tx P)) : Folding :=
  (txs.flatMap fun tx => tx.vin.map TxIn.prevout).foldl foldSpend s

/-- Pass 3, with the text of the transaction that fails. -/
def foldTxs (height : U32) (s : Folding) (txs : List (Tx P × Nat)) : FoldStep :=
  txs.foldlM (fun s t =>
    match foldTx code H s t.1 with
    | .ok s => .ok s
    | .error e => .error (s!"fold FAILED at h={height.val} tx[{t.2}]: " ++ e.1, e.2)) s

def beginBlock (s : Folding) : Folding :=
  ({ s.1 with
      smlTouched := []
      smlStructural := false
      blockPunished := ∅
      blockReviveWidened := [] }, s.2)

def ConfirmationDue (gates : FoldGates) (H : Int) (st : ReplayMNState) : Prop :=
  st.confirmedHash = 0 ∧ gates.masternodeMinConfirmations ≤ (H - 1) - st.nRegisteredHeight

instance (gates : FoldGates) (H : Int) (st : ReplayMNState) :
    Decidable (ConfirmationDue gates H st) :=
  inferInstanceAs (Decidable (_ ∧ _))

def confirmPass (prevHash : Uint256) (s : Folding) : Folding :=
  let due := s.1.entries.entries.filter fun e => ConfirmationDue s.1.cfg.gates H e.2
  ({ s.1 with
      entries := s.1.entries.mapValues fun protx st =>
        if ConfirmationDue s.1.cfg.gates H st then st.updateConfirmedHash code protx prevHash
        else st
      smlTouched := s.1.smlTouched ++ due.map Prod.fst },
    { s.2 with confirmed := s.2.confirmed + due.length })

/-- Pass 2. -/
def decreaseScores (s : Folding) : Folding :=
  ({ s.1 with
      entries := s.1.entries.mapValues fun _ st =>
        if st.isBanned then st
        else
          { st with
            nPoSePenalty := decayed st.nPoSePenalty
            nPoSePenaltyHi := decayed st.nPoSePenaltyHi } },
    { s.2 with
      decayed := s.2.decayed + (s.1.entries.entries.filter fun e =>
        ¬ e.2.isBanned ∧ 0 < e.2.nPoSePenalty).length })

def markPayee (payee : Option Uint256) (s : Folding) : Folding :=
  match payee with
  | none => s
  | some protx =>
    match s.1.entries.lookup protx with
    | none => s
    | some st =>
      ({ s.1 with
          entries := s.1.entries.insert protx
            { st with
              nLastPaidHeight := H
              nConsecutivePayments :=
                if st.nType = mnEvo ∧ ¬ s.1.cfg.gates.mnRrHeight ≤ H then
                  st.nConsecutivePayments + 1
                else st.nConsecutivePayments } },
        { s.2 with payeeMarked := true })

/-- Pass 5. -/
def payeeBookkeeping (payee : Option Uint256) (s : Folding) : Folding :=
  let s := markPayee H payee s
  ({ s.1 with
      entries := s.1.entries.mapValues fun protx st =>
        if st.nType ≠ mnEvo then st
        else if payee = some protx ∧ ¬ s.1.cfg.gates.mnRrHeight ≤ H then st
        else { st with nConsecutivePayments := 0 } }, s.2)

end Passes

section Resolve

variable {P : Type} (code : FoldCode P) (H : Int)

def kMaxRootResolveCandidates : Nat := 8

/-- The punishes whose ban the bounds leave open, with their maxima. -/
def ambiguous (eng : DmlFoldEngine) : List (Uint256 × Int) :=
  eng.blockPunished.entries.filter fun e =>
    decide (e.1 ∉ eng.blockReviveWidened) &&
      match eng.entries.lookup e.1 with
      | none => false
      | some st => ¬ st.isBanned ∧ e.2 ≤ st.nPoSePenaltyHi

def maskValidity (amb : List (Uint256 × Int)) (mask : Nat) (sml : List SmlEntry) : List SmlEntry :=
  sml.map fun e =>
    match amb.findIdx? fun a => a.1 = e.proRegTxHash with
    | some b => { e with isValid := ¬ mask.testBit b }
    | none => e

def matchingMasks (eng : DmlFoldEngine) (committedRoot : Uint256) : List Nat :=
  let sml := sortSml (materializeSmlEntries code eng.entries)
  let amb := eng.ambiguous
  (List.range' 1 (2 ^ amb.length - 1)).filter fun mask =>
    calcMerkleRoot code.sml (maskValidity amb mask sml) = committedRoot

def adoptBan (mask : Nat) (s : Folding) (a : (Uint256 × Int) × Nat) : Folding :=
  match s.1.entries.lookup a.1.1 with
  | none => s
  | some st =>
    if mask.testBit a.2 then
      (s.1.touchEntry a.1.1
          { st.banIfNotBanned H with nPoSePenalty := a.1.2, nPoSePenaltyHi := a.1.2 },
        { s.2 with
          banned := s.2.banned + 1
          rootResolvedBans := s.2.rootResolvedBans + 1 })
    else
      ({ s.1 with
          entries := s.1.entries.insert a.1.1
            { st with nPoSePenaltyHi := min st.nPoSePenaltyHi (a.1.2 - 1) } },
        { s.2 with rootResolvedNobans := s.2.rootResolvedNobans + 1 })

def resolveAmbiguousBansFromRoot (s : Folding) : Folding × Bool :=
  if s.1.ambiguous = [] ∨ kMaxRootResolveCandidates < s.1.ambiguous.length then (s, false)
  else
    match s.1.matchingMasks code s.2.committedRoot with
    | [mask] =>
      let start : Folding := ({ s.1 with smlTouched := [], smlStructural := false }, s.2)
      let s := s.1.ambiguous.zipIdx.foldl (adoptBan H mask) start
      let again := s.1.computeSmlRootIncremental code
      if again.2 ≠ s.2.committedRoot then
        ((again.1.poison (s!"root-resolved PoSe ban did not re-hash to the committed" ++
          s!" root at h={H} (incremental merkle disagreement)"), s.2), false)
      else ((again.1, s.2), true)
    | _ => (s, false)

end Resolve

section Block

variable {P : Type} (code : FoldCode P)

/-- `check_before_fold`: the result of a block that is refused, else the committed root. -/
def checkBeforeFold (eng : DmlFoldEngine) (block : Block P) (height : U32) :
    Except FoldResult Uint256 :=
  let r : FoldResult := { height := height }
  let refused := s!"fold refused at h={height.val}"
  if ¬ eng.cfg.enabled then
    .error { r with error := "DML fold engine is not enabled (FoldConfig.enabled" ++
      " is the W1 feature flag; W5 wires it)" }
  else if eng.poisoned then
    .error { r with
      error := "DML fold engine is POISONED (" ++ eng.poisonReason ++ ") — re-seed required" }
  else if eng.cfg.gates.v24Active then
    .error { r with error := refused ++ ": DEPLOYMENT_V24/ExtAddr is active but the ExtAddr" ++
      " fold branch is not implemented (fail closed, never drift — design doc §3)" }
  else if toInt32 height < eng.cfg.gates.dip0003Height then
    .error { r with error := refused ++
      s!": below DIP0003 activation h={eng.cfg.gates.dip0003Height}" }
  else if height ≠ eng.height + 1 then
    .error { r with error := refused ++ s!": cursor is at h={eng.height.val}" ++
      s!" and the fold is forward-contiguous (only h={(eng.height + 1).val} is foldable)" }
  else if block.previousBlock ≠ eng.blockHash then
    .error { r with
      refusedUnchanged := true
      error := refused ++ ": block's prev-link " ++ hex16 block.previousBlock ++
        " is not the cursor block " ++ hex16 eng.blockHash ++
        " (a different chain; the held state is the post-state of the cursor block only)" }
  else
    match block.txs with
    | [] =>
      .error { r with error := refused ++ ": block has no transactions (no coinbase, no cbTx" ++
        " root to self-check against)" }
    | coinbase :: _ =>
      match if coinbase.type = 5 then code.parseCbtx coinbase.extraPayload else none with
      | none =>
        .error { r with error := refused ++ ": coinbase carries no parseable CCbTx" ++
          " (merkleRootMNList unavailable for the self-check)" }
      | some committedRoot =>
        match block.txs.zipIdx.findSome? fun t =>
            (contextualTxCheck t.1 (t.2 = 0)).map fun why => (t.2, why) with
        | some (i, why) =>
          .error { r with
            refusedUnchanged := true
            committedRoot := committedRoot
            error := refused ++ s!" tx[{i}]: " ++ why ++
              " (ContextualCheckTransaction — dashd rejects" ++
              " this block; the held list is unchanged)" }
        | none => .ok committedRoot

def foldPasses (block : Block P) (height : U32) (payee : Option Uint256) (s : Folding) : FoldStep :=
  let H := toInt32 height
  let s := decreaseScores (confirmPass code H block.previousBlock (beginBlock s))
  match foldTxs code H height s (block.txs.zipIdx.drop 1) with
  | .error e => .error e
  | .ok s => .ok (payeeBookkeeping H payee (foldSpends s block.txs.tail))

def checkRoot (H : Int) (s : Folding) : Folding :=
  let own := s.1.computeSmlRootIncremental code
  let s : Folding := (own.1, { s.2 with computedRoot := own.2 })
  if s.2.computedRoot ≠ s.2.committedRoot then
    match resolveAmbiguousBansFromRoot code H s with
    | (s, true) => (s.1, { s.2 with computedRoot := s.2.committedRoot })
    | (s, false) => s
  else s

def checkPayee (block : Block P) (height : U32) (scriptPre : Script) (s : Folding) : Folding :=
  let H := toInt32 height
  let asked := s.2.payee.isSome ∧ scriptPre ≠ []
  let enforced := s.1.cfg.gates.dip0003EnforcementHeight ≤ H
  let advance : DmlFoldEngine :=
    { s.1 with height := height, blockHash := code.blockHeaderHash block }
  if asked ∧ ¬ enforced then
    (advance, { s.2 with payeeCheckPreenforcementSkipped := true, ok := true })
  else if asked then
    if block.coinbaseOuts.any fun o => o.scriptPubKey = scriptPre then
      (advance, { s.2 with payeePaidVerified := true, ok := true })
    else
      let why := s!"DML FOLD PAYEE MISMATCH at h={height.val}: this block's coinbase does not" ++
        " pay the projected masternode " ++ getHex (s.2.payee.getD 0) ++
        " — the merkleRootMNList self-check PASSED at this height, which is exactly why this" ++
        " check exists: nLastPaidHeight is not committed by any block, so a wrong payment" ++
        " order folds to the right root — HARD STOP, engine poisoned, re-seed required"
      (s.1.poison why, { s.2 with error := why })
  else (advance, { s.2 with ok := true })

/-- `fold_block` after its passes. -/
def finishFold (block : Block P) (height : U32) (scriptPre : Script) : FoldStep → Folding
  | .error e => (e.2.1.poison e.1, { e.2.2 with error := e.1 })
  | .ok s =>
    let s := checkRoot code (toInt32 height) s
    if s.2.computedRoot ≠ s.2.committedRoot then
      let why := s!"DML FOLD ROOT MISMATCH at h={height.val}: folded merkleRootMNList " ++
        getHex s.2.computedRoot ++ " != committed cbTx root " ++
        getHex s.2.committedRoot ++
        " — HARD STOP, engine poisoned, re-seed required"
      (s.1.poison why, { s.2 with error := why })
    else checkPayee code block height scriptPre s

def foldBlock (eng : DmlFoldEngine) (block : Block P) (height : U32) : Folding :=
  match checkBeforeFold code eng block height with
  | .error r => (eng, r)
  | .ok committedRoot =>
    let H := toInt32 height
    let payee := eng.projectPayee H
    let r : FoldResult := { height := height, committedRoot := committedRoot, payee := payee }
    match payee.map fun protx => (protx, eng.entries.lookup protx) with
    | some (protx, none) =>
      let why := s!"fold refused at h={height.val}: projected payee " ++ getHex protx ++
        " is not in the pre-block list (internal invariant violated) — HARD STOP," ++
        " engine poisoned"
      (eng.poison why, { r with error := why })
    | held =>
      let scriptPre := ((held.bind Prod.snd).map ReplayMNState.firstPayoutScript).getD []
      finishFold code block height scriptPre (foldPasses code block height payee (eng, r))

end Block

end DmlFoldEngine

end C2Pool.Dash
