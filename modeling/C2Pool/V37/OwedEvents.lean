import C2Pool.V37.OwedIndex

/-! # The owed-event log

The leaves of the owed-event Merkle mountain range (`owed_event_log.hpp`) and
the record log that holds them (`record_log.hpp`).  One leaf stands for one
mutation of the ledger, and carries the arguments that the mutation used.
-/

namespace C2Pool.V37

abbrev U32 := Fin (2 ^ 32)

/-- A block id: `std::string`, ordered as a string of bytes. -/
abbrev Bid := List Byte

inductive EvKind where
  | found
  | finalize
  | orphan
deriving DecidableEq

/-- The numbering shared with the stored records. -/
def EvKind.code : EvKind → Byte
  | .found => 1
  | .finalize => 2
  | .orphan => 3

def putU32 (x : Nat) : List Byte := bytesLE 4 x

/-- A signed amount as the 64-bit word of its two's complement. -/
def putI64 (x : Int) : List Byte := putU64 (x % 2 ^ 64).toNat

/-- `put_amap`: the rows that are not zero, counted and in key order. -/
def putAmap (m : Amounts) : List Byte :=
  putU32 m.nonzero.entries.length ++
    m.nonzero.entries.flatMap fun e => e.1.toBytes ++ putI64 e.2

def leafPayload (kind : EvKind) (bid : Bid) (binHeight : U64) (credit payout settled : Amounts) :
    List Byte :=
  putTag "V37L" ++ [kind.code] ++ putU32 bid.length ++ bid ++ putU64 binHeight.val ++
    putAmap credit ++ putAmap payout ++ putAmap settled

def foundPayload (bid : Bid) (credit payout : Amounts) : List Byte :=
  leafPayload .found bid 0 credit payout ∅

def finalizePayload (bid : Bid) (binHeight : U64) : List Byte :=
  leafPayload .finalize bid binHeight ∅ ∅ ∅

def orphanPrePayload (bid : Bid) : List Byte :=
  leafPayload .orphan bid 0 ∅ ∅ ∅

def orphanSettledPayload (bid : Bid) (settled : Amounts) : List Byte :=
  leafPayload .orphan bid 0 ∅ ∅ settled

/-- `RecordLog`, which retains its leaves. -/
structure RecordLog where
  peaks : PeakSet := PeakSet.empty
  leaves : List Bytes32 := []
deriving DecidableEq

namespace RecordLog

variable (sha : List Byte → Bytes32)

def append (log : RecordLog) (payload : List Byte) : RecordLog where
  peaks := mmrAppend sha log.peaks (leafHash sha payload)
  leaves := log.leaves ++ [leafHash sha payload]

def root (log : RecordLog) : Bytes32 := mmrBag sha log.peaks

def leafCount (log : RecordLog) : Nat := log.peaks.leafCount

end RecordLog

end C2Pool.V37
