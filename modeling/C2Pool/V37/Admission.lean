import C2Pool.V37.OwedLedger

/-! # Receipt admission

`ReceiptAdmitter` (`w2_admission.hpp`): a carrier is checked, accounted and credited, and then its
receipts in wire order. A work event is known by the double hash of its preimage. The share tracker
and the mainchain index are seams of the source and parameters here.
-/

namespace C2Pool.V37

/-- `W2_N_CTX`. -/
def nCtx : Nat := 2

/-- `W2_DEDUP_RETENTION`. -/
def dedupRetention : Nat := nCtx + 2

/-- `W2_R_MAX`. -/
def rMax : Nat := 4

/-- `W2_L0F_RECEIPT`. -/
def l0fReceipt : Nat := 0x04

/-- `W2_CARRIER_FLAGS`. -/
def carrierFlags : Nat := 0x00

/-- `consensus_lz`: one bit harder from `W2_RETARGET_BIN` on. -/
def consensusLz (bin : U64) : Nat := if 1000 ≤ bin.val then 9 else 8

/-- `work_of_lz`, saturated. -/
def workOfLz (lz : Nat) : Nat := if 64 ≤ lz then 2 ^ 64 - 1 else 2 ^ lz

def leadingZeroBits : List Byte → Nat
  | [] => 0
  | b :: bs => if b = 0 then 8 + leadingZeroBits bs else 7 - Nat.log2 b.val

structure AuxEntry where
  chainId : U32
  ref : ScriptRef

structure PayoutDescriptor where
  pay : ScriptRef := {}
  attribution : Option ScriptRef := none
  aux : List AuxEntry := []
  rawScript : List Byte := []

/-- `WorkEvent`: a carrier or a receipt. -/
structure WorkEvent where
  chainId : U32 := 0
  identity : Bytes32 := 0
  prevBlockHash : Bytes32 := 0
  prevOwnShare : Bytes32 := 0
  lzBits : U32 := 0
  nonce : U64 := 0
  donation : Fin (2 ^ 16) := 0
  descriptor : PayoutDescriptor := {}
  tag : String := ""

namespace WorkEvent

variable (sha : List Byte → Bytes32)

/-- `preimage`; a donation of zero is left out. -/
def preimage (e : WorkEvent) : List Byte :=
  bytesLE 4 e.chainId.val ++ e.identity.toBytes ++ e.prevBlockHash.toBytes ++
    e.prevOwnShare.toBytes ++ bytesLE 4 e.lzBits.val ++ bytesLE 8 e.nonce.val ++
    if e.donation ≠ 0 then bytesLE 2 e.donation.val else []

def hash (e : WorkEvent) : Bytes32 := sha e.preimage

def MeetsOwnTarget (e : WorkEvent) : Prop :=
  e.lzBits.val ≤ leadingZeroBits (e.hash sha).toBytes

instance (e : WorkEvent) : Decidable (e.MeetsOwnTarget sha) :=
  inferInstanceAs (Decidable (_ ≤ _))

def work (e : WorkEvent) : Nat := workOfLz e.lzBits.val

end WorkEvent

/-- `mainchain_hash`: the synthetic block hash of a height. -/
def mainchainHash (sha : List Byte → Bytes32) (height : U64) : Bytes32 :=
  sha (putTag "mainchain-block" ++ bytesLE 8 height.val)

/-- `IShareTracker`. -/
structure ShareTracker (T : Type) where
  hasPrevOwn : T → Bytes32 → Bytes32 → Bool
  recordShare : T → Bytes32 → Bytes32 → T

/-- `MemShareTracker`; the zero hash is everyone's first share. -/
def memShareTracker : ShareTracker (SortedMap Bytes32 (Finset Bytes32)) where
  hasPrevOwn := fun chained id prev =>
    prev = 0 ∨ prev ∈ (chained.lookup id).getD ∅
  recordShare := fun chained id h => chained.insert id (insert h ((chained.lookup id).getD ∅))

/-- `LiveMainchainIndex::height_of` over the heights of the active chain, with the default horizon
of 64. -/
def liveHeightOf (active : Bytes32 → Option U64) (tip : U64) (prevBlockHash : Bytes32) :
    Option U64 :=
  match active prevBlockHash with
  | none => none
  | some height =>
    if tip < height then none else if 64 < (tip - height).val then none else some height

/-- `DedupWindow`: an event hash and the bin it was accounted in. -/
abbrev DedupWindow := SortedMap Bytes32 U64

def DedupWindow.prune (w : DedupWindow) (nowBin : U64) : DedupWindow :=
  w.filterMap fun _ bin =>
    if bin.val < (if dedupRetention ≤ nowBin.val then nowBin.val - dedupRetention else 0) then none
    else some bin

/-! ## Admission -/

inductive Disposition where
  | ok
  | rejectPow
  | rejectR1Target
  | rejectIdentity
  | rejectPrevOwn
  | rejectChain
  | rejectExpired
  | rejectDedup
  | okSubtargetDrop
deriving DecidableEq

inductive CarrierStatus where
  | ok
  | rejectRmax
  | rejectPow
  | rejectDedup
deriving DecidableEq

structure EmittedPush where
  identity : Bytes32
  descriptor : PayoutDescriptor
  wRaw : Nat
  flags : Nat
  pos : U64
  originBin : U64
  carrierBin : U64
  tag : String

structure HarvestedDrop where
  payee : Bytes32
  interval : U64
  hash : Bytes32
  consensusLz : Nat
  ownLz : Nat

/-- `ReceiptAdmitter`, without its seams. -/
structure ReceiptAdmitter (T : Type) where
  chain : U32
  tracker : T
  window : DedupWindow := ∅
  nextPos : U64 := 0
  rawTotal : Nat := 0
  dropsEnabled : Bool := false
  dropsHarvested : U64 := 0

/-- `ReceiptAdmitter::Result`, with what reached the drop sink. -/
structure AdmitResult where
  carrierStatus : CarrierStatus := .ok
  receipts : List (String × Disposition) := []
  pushes : List EmittedPush := []
  drops : Nat := 0
  harvested : List HarvestedDrop := []

namespace ReceiptAdmitter

variable {T : Type} (sha : List Byte → Bytes32) (tracker : ShareTracker T)
  (heightOf : Bytes32 → Option U64)
/-- The step of `validate_receipt` that looks at the target: a weaker one makes a drop. -/
def targetCheck (a : ReceiptAdmitter T) (r : WorkEvent) : Option Bool :=
  match heightOf r.prevBlockHash with
  | none => some false
  | some bin =>
    if r.lzBits.val ≠ consensusLz bin then
      if a.dropsEnabled ∧ r.lzBits.val < consensusLz bin then some true else none
    else some false

def expired (carrierBin : U64) : Option U64 → Bool
  | none => true
  | some bin => carrierBin < bin || nCtx < (carrierBin - bin).val

/-- `validate_receipt`: the first check that fails. -/
def validateReceipt (a : ReceiptAdmitter T) (r carrier : WorkEvent) (carrierBin : U64) :
    Disposition :=
  if ¬ r.MeetsOwnTarget sha then .rejectPow
  else
    match a.targetCheck heightOf r with
    | none => .rejectR1Target
    | some isDrop =>
      if r.identity ≠ carrier.identity then .rejectIdentity
      else if ¬ tracker.hasPrevOwn a.tracker r.identity r.prevOwnShare then .rejectPrevOwn
      else if r.chainId ≠ a.chain then .rejectChain
      else if expired carrierBin (heightOf r.prevBlockHash) then .rejectExpired
      else if a.window.lookup (r.hash sha) ≠ none then .rejectDedup
      else if isDrop then .okSubtargetDrop
      else .ok

def emit (a : ReceiptAdmitter T) (out : AdmitResult) (carrier : WorkEvent) (wRaw flags : Nat)
    (originBin carrierBin : U64) (tag : String) : ReceiptAdmitter T × AdmitResult :=
  ({ a with nextPos := a.nextPos + 1, rawTotal := (a.rawTotal + wRaw) % 2 ^ 128 },
    { out with
      pushes := out.pushes ++ [{
        identity := carrier.identity
        descriptor := carrier.descriptor
        wRaw := wRaw
        flags := flags
        pos := a.nextPos
        originBin := originBin
        carrierBin := carrierBin
        tag := tag }] })

/-- `m_window.add`. -/
def account (a : ReceiptAdmitter T) (h : Bytes32) (bin : U64) : ReceiptAdmitter T :=
  { a with window := a.window.insert h bin }

def admitReceipt (carrier : WorkEvent) (carrierBin : U64) (s : ReceiptAdmitter T × AdmitResult)
    (r : WorkEvent) : ReceiptAdmitter T × AdmitResult :=
  let disp := s.1.validateReceipt sha tracker heightOf r carrier carrierBin
  let out := { s.2 with receipts := s.2.receipts ++ [(r.tag, disp)] }
  let originBin := (heightOf r.prevBlockHash).getD 0
  match disp with
  | .okSubtargetDrop =>
    (account { s.1 with dropsHarvested := s.1.dropsHarvested + 1 } (r.hash sha) carrierBin,
      { out with
        drops := out.drops + 1
        harvested := out.harvested ++ [{
          payee := carrier.identity
          interval := originBin
          hash := r.hash sha
          consensusLz := consensusLz originBin
          ownLz := r.lzBits.val }] })
  | .ok =>
    let s' := s.1.emit out carrier r.work (carrierFlags ||| l0fReceipt) originBin carrierBin r.tag
    (account s'.1 (r.hash sha) carrierBin, s'.2)
  | _ => (s.1, out)

def checkedBin (chain : U32) (carrier : WorkEvent) (receipts : List WorkEvent) : Option U64 :=
  if rMax < receipts.length then none
  else
    match heightOf carrier.prevBlockHash with
    | none => none
    | some bin =>
      if ¬ carrier.MeetsOwnTarget sha ∨ carrier.lzBits.val ≠ consensusLz bin ∨
          carrier.chainId ≠ chain then none
      else some bin

/-- `admit`. -/
def admitCarrier (a : ReceiptAdmitter T) (carrier : WorkEvent) (receipts : List WorkEvent) :
    ReceiptAdmitter T × AdmitResult :=
  match checkedBin sha heightOf a.chain carrier receipts with
  | none =>
    (a, { carrierStatus := if rMax < receipts.length then .rejectRmax else .rejectPow })
  | some carrierBin =>
    let a := { a with window := DedupWindow.prune a.window carrierBin }
    if a.window.lookup (carrier.hash sha) ≠ none then (a, { carrierStatus := .rejectDedup })
    else
      let s := a.emit {} carrier carrier.work carrierFlags carrierBin carrierBin carrier.tag
      let a := account s.1 (carrier.hash sha) carrierBin
      let a := { a with
        tracker := tracker.recordShare a.tracker carrier.identity (carrier.hash sha) }
      receipts.foldl (admitReceipt sha tracker heightOf carrier carrierBin) (a, s.2)

def setDropHarvest (a : ReceiptAdmitter T) (enabled : Bool) : ReceiptAdmitter T :=
  { a with dropsEnabled := enabled }

end ReceiptAdmitter

end C2Pool.V37
