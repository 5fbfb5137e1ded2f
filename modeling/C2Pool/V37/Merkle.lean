import C2Pool.Lib.Mmr
import C2Pool.Lib.PairTree
import C2Pool.V37.Fixed

/-! # Bytes, leaves and the permanence range

The serializers of the lane digest (fixed width, little endian), its leaf and
interior hashes, and the Merkle mountain range over evicted buckets.  The hash
`sha256d` is a parameter, `sha`.
-/

namespace C2Pool.V37

abbrev Byte := Fin 256

/-- `bytes32`, read as a big-endian number so that `<` is the order of the
byte strings. -/
abbrev Bytes32 := Fin (2 ^ 256)

def Bytes32.toBytes (x : Bytes32) : List Byte :=
  (List.range 32).map fun i => Fin.ofNat 256 (x.val >>> (8 * (31 - i)))

/-- The low `n` bytes of a number, least significant first. -/
def bytesLE (n x : Nat) : List Byte :=
  (List.range n).map fun i => Fin.ofNat 256 (x >>> (8 * i))

/-- `append_u64`. -/
def putU64 (x : Nat) : List Byte := bytesLE 8 x

/-- `append_u128`. -/
def putU128 (x : Nat) : List Byte := bytesLE 16 x

/-- `append_u256`. -/
def putU256 (x : Nat) : List Byte := bytesLE 32 x

def putTag (tag : String) : List Byte := tag.toList.map fun c => Fin.ofNat 256 c.toNat

/-- `PeakSet`: the roots of the perfect subtrees, tallest first. -/
structure PeakSet where
  peaks : List Bytes32
  leafCount : Nat
deriving DecidableEq

def PeakSet.empty : PeakSet := ⟨[], 0⟩

section Hash

variable (sha : List Byte → Bytes32)

def leafHash (payload : List Byte) : Bytes32 := sha (0x00 :: payload)

def interiorHash (l r : Bytes32) : Bytes32 := sha (0x01 :: (l.toBytes ++ r.toBytes))

/-- `mmr_append`: merge upwards while the low bit of the count is set. -/
def mmrAppend (ps : PeakSet) (leaf : Bytes32) : PeakSet where
  peaks := (Mmr.mergeUp (interiorHash sha) ps.peaks.length ps.leafCount ps.peaks.reverse
    leaf).reverse
  leafCount := ps.leafCount + 1

def mmrBag (ps : PeakSet) : Bytes32 :=
  match ps.peaks.reverse with
  | [] => 0
  | last :: rest => rest.foldl (fun r peak => interiorHash sha peak r) last

/-- `merkle_root`: pairs are hashed and an odd node is promoted. -/
def merkleRoot (leaves : List Bytes32) : Bytes32 :=
  (PairTree.promoteAll (interiorHash sha) leaves.length leaves).headD 0

end Hash

end C2Pool.V37
