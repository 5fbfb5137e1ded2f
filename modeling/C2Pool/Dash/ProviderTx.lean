import C2Pool.V37.OwedLeaves

/-! # Provider transactions

The transactions that change a masternode list (`vendor/providertx.hpp`,
`transaction.hpp`), and the rules on their version and type
(`tx_version_rules.hpp`).  How a payload is laid out in bytes, how a transaction
is hashed and how an operator key is decoded are parameters.
-/

namespace C2Pool.Dash

abbrev Byte := Fin 256

abbrev U16 := Fin (2 ^ 16)

abbrev U32 := Fin (2 ^ 32)

abbrev U64 := Fin (2 ^ 64)

abbrev Uint160 := Fin (2 ^ 160)

/-- `uint256`, in the order of `CompareTo`. -/
abbrev Uint256 := Fin (2 ^ 256)

abbrev OpKey := Fin (2 ^ 384)

abbrev Script := List Byte

/-- `TxPrevOut`, in the order of `TxPrevOutLess`. -/
abbrev TxPrevOut := Uint256 ×ₗ U32

/-- The 32 bytes as they lie in memory, which is the order that `memcmp` sees. -/
def wireBytes (h : Uint256) : List Byte := V37.bytesLE 32 h.val

theorem wireBytes_injective : Function.Injective wireBytes := by
  intro a b h
  have ha : a.val < 256 ^ 32 := by
    exact a.isLt
  have hb : b.val < 256 ^ 32 := by
    exact b.isLt
  exact Fin.ext (V37.bytesLE_injective ha hb h)

/-- `LegacyNetService`: the 16 address bytes as a big-endian number, and the port. -/
structure LegacyNetService where
  ip : Fin (2 ^ 128) := 0
  portBe : U16 := 0
deriving DecidableEq

def legacyServiceAddressValid (ip : Fin (2 ^ 128)) : Bool :=
  if ip.val >>> 32 = 0xffff then ip.val % 2 ^ 32 ≠ 0 ∧ ip.val % 2 ^ 32 ≠ 0xffffffff
  else if ip.val >>> 80 = 0xfd87d87eeb43 then false
  else if ip.val >>> 80 = 0xfd6b88c08724 then false
  else if ip = 0 then false
  else ip.val >>> 96 ≠ 0x20010db8

namespace LegacyNetService

def IsEmpty (s : LegacyNetService) : Prop := ¬ legacyServiceAddressValid s.ip

instance (s : LegacyNetService) : Decidable s.IsEmpty :=
  inferInstanceAs (Decidable (¬ legacyServiceAddressValid s.ip))

def canonical (s : LegacyNetService) : LegacyNetService := if s.IsEmpty then {} else s

end LegacyNetService

/-- `MnType::REGULAR` and `MnType::EVO`. -/
def mnRegular : U16 := 0

def mnEvo : U16 := 1

/-- `ProTxVersion::LEGACY_BLS`, `BASIC_BLS` and `EXT_ADDR`. -/
def legacyBls : U16 := 1

def basicBls : U16 := 2

def extAddr : U16 := 3

/-- `CProRegTx`, without the parts that no list machine reads. -/
structure ProRegTx where
  nVersion : U16 := basicBls
  nType : U16 := mnRegular
  collateralOutpoint : TxPrevOut := toLex (0, 0)
  netInfo : LegacyNetService := {}
  keyIDOwner : Uint160 := 0
  pubKeyOperator : OpKey := 0
  keyIDVoting : Uint160 := 0
  nOperatorReward : U16 := 0
  scriptPayout : Script := []
  platformNodeID : Uint160 := 0
  platformP2PPort : U16 := 0
  platformHTTPPort : U16 := 0
deriving DecidableEq

/-- `CProUpServTx`. -/
structure ProUpServTx where
  nVersion : U16 := basicBls
  nType : U16 := mnRegular
  proTxHash : Uint256
  netInfo : LegacyNetService := {}
  scriptOperatorPayout : Script := []
  platformNodeID : Uint160 := 0
  platformP2PPort : U16 := 0
  platformHTTPPort : U16 := 0
deriving DecidableEq

/-- `CProUpRegTx`. -/
structure ProUpRegTx where
  nVersion : U16 := basicBls
  proTxHash : Uint256
  pubKeyOperator : OpKey := 0
  keyIDVoting : Uint160 := 0
  scriptPayout : Script := []
deriving DecidableEq

/-- `CProUpRevTx`. -/
structure ProUpRevTx where
  nVersion : U16 := basicBls
  proTxHash : Uint256
  nReason : U16 := 0
deriving DecidableEq

/-- `CSimplifiedMNListEntry`. -/
structure SmlEntry where
  nVersion : U16 := basicBls
  proRegTxHash : Uint256
  confirmedHash : Uint256 := 0
  netInfo : LegacyNetService := {}
  pubKeyOperator : OpKey := 0
  keyIDVoting : Uint160 := 0
  isValid : Bool := false
  nType : U16 := mnRegular
  platformHTTPPort : U16 := 0
  platformNodeID : Uint160 := 0
deriving DecidableEq

structure TxIn where
  prevout : TxPrevOut
  scriptSig : Script := []
  sequence : U32 := 0
deriving DecidableEq

structure TxOut where
  value : Int
  scriptPubKey : Script
deriving DecidableEq

/-- `MutableTransaction`; `version` holds the low half of the wire field. -/
structure Tx (P : Type) where
  vin : List TxIn := []
  vout : List TxOut := []
  version : U16 := 1
  type : U16 := 0
  locktime : U32 := 0
  extraPayload : P
deriving DecidableEq

/-- `BlockType`: the link to the block before it and the transactions, the coinbase first. -/
structure Block (P : Type) where
  previousBlock : Uint256 := 0
  txs : List (Tx P)
deriving DecidableEq

/-- What the list machines call on payloads, transactions and keys: `parse_protx_payload` at each
payload type (which fails on an empty payload), `compute_tx_hash` and `opkey_to_basic`. -/
structure ProTxCode (P : Type) where
  parseProReg : P → Option ProRegTx
  parseProUpServ : P → Option ProUpServTx
  parseProUpReg : P → Option ProUpRegTx
  parseProUpRev : P → Option ProUpRevTx
  computeTxHash : Tx P → Uint256
  opkeyToBasic : OpKey → Bool → OpKey

/-- A code for blocks without special transactions. -/
def plainCode {P : Type} : ProTxCode P where
  parseProReg _ := none
  parseProUpServ _ := none
  parseProUpReg _ := none
  parseProUpRev _ := none
  computeTxHash _ := 0
  opkeyToBasic key _ := key

def wireVersionI16 (version : U16) : Int :=
  if version.val < 2 ^ 15 then version.val else version.val - 2 ^ 16

def txIsSpecialVersion (version : U16) : Bool := 3 ≤ wireVersionI16 version

def txHasExtraPayload (version type : U16) : Bool := txIsSpecialVersion version ∧ type ≠ 0

/-- `contextual_tx_check`: the reject reason. -/
def contextualTxCheck {P : Type} (tx : Tx P) (isCoinbase : Bool) : Option String :=
  if txIsSpecialVersion tx.version then
    if ¬ tx.type ≤ 9 then some "bad-txns-type"
    else if isCoinbase ∧ tx.type ≠ 5 then some "bad-txns-cb-type"
    else if wireVersionI16 tx.version < 0 then some "bad-txns-version"
    else none
  else if tx.type ≠ 0 then some "bad-txns-type"
  else if wireVersionI16 tx.version < 0 then some "bad-txns-version"
  else none

end C2Pool.Dash
