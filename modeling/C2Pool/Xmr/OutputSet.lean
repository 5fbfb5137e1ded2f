import C2Pool.V37.MmrProof
import C2Pool.Xmr.Rules

/-! # The output set of the chain

`ChainOutputSet` (`xmr_output_set.hpp`): the table of outputs that rings are resolved from, the
spent key images, and one leaf for each connected block in two authenticated logs.
-/

namespace C2Pool.Xmr

open C2Pool.V37 (Byte Bytes32 PeakSet MmrProof putU64 putTag bytesLE leafHash mmrAppend mmrBag
  mmrProof mmrVerify peaksOf)

structure OutputRecord where
  pubkey : Hash
  commitment : Hash
  unlockTime : U64
  height : U64
deriving DecidableEq

inductive BlockTxKind where
  | connected
  | disconnected
deriving DecidableEq

/-- `BlockTxEvent`, without the bodies that the output set does not read. -/
structure BlockTxEvent where
  kind : BlockTxKind := .connected
  height : U64 := 0
  blockId : Hash := 0
  keyImages : List Hash := []
  coinbaseAmountPubkeys : List (U64 × Hash) := []
  coinbaseUnlockTime : U64 := 0
  outputs : List OutputRecord := []
  firstOutputIndex : U64 := 0
deriving DecidableEq

structure UndoFrame where
  height : U64
  blockId : Hash
  outputsAdded : Nat
  keyImageList : List Hash
  keyImagesSkipped : List Hash
  outPeaksBefore : PeakSet
  kiPeaksBefore : PeakSet
  prevTipHeight : U64
  prevTipId : Hash
deriving DecidableEq

/-- `ChainOutputSet`.  The snapshot is its rows and its key images; the frames are newest
first. -/
structure ChainOutputSet where
  base : U64
  resolutionEnabled : Bool := true
  snapOutputs : List OutputRecord := []
  snapKeyImages : List Hash := []
  outputs : List OutputRecord := []
  spent : Finset Hash := ∅
  outPeaks : PeakSet := PeakSet.empty
  outLeaves : List Bytes32 := []
  outLeafFirst : List U64 := []
  kiPeaks : PeakSet := PeakSet.empty
  kiLeaves : List Bytes32 := []
  tipHeight : U64 := 0
  tipId : Hash := 0
  undo : List UndoFrame := []
deriving DecidableEq

/-- `vector::resize`, which fills with `fill`. -/
def resize {α : Type} (xs : List α) (n : Nat) (fill : α) : List α :=
  xs.take n ++ List.replicate (n - xs.length) fill

/-- `spent_.insert` over the key images of a block: the set, the images that were new and the
ones that were not. -/
def insertKeyImages (snap : List Hash) :
    Finset Hash → List Hash → Finset Hash × List Hash × List Hash
  | spent, [] => (spent, [], [])
  | spent, ki :: kis =>
    if ki ∉ snap ∧ ki ∉ spent then
      let r := insertKeyImages snap (insert ki spent) kis
      (r.1, ki :: r.2.1, r.2.2)
    else
      let r := insertKeyImages snap spent kis
      (r.1, r.2.1, ki :: r.2.2)

namespace BlockTxEvent

section

variable (zeroCommit : U64 → Hash) (sha : List Byte → Bytes32)

def blockOuts (ev : BlockTxEvent) : List OutputRecord :=
  ev.coinbaseAmountPubkeys.map (fun ap =>
    { pubkey := ap.2, commitment := zeroCommit ap.1, unlockTime := ev.coinbaseUnlockTime
      height := ev.height }) ++ ev.outputs

def outputRow (o : OutputRecord) : List Byte :=
  Bytes32.toBytes o.pubkey ++ Bytes32.toBytes o.commitment ++ putU64 o.unlockTime.val

/-- The `"XMRO"` leaf of a block. -/
def outputLeaf (ev : BlockTxEvent) : Bytes32 :=
  let outs := ev.blockOuts zeroCommit
  leafHash sha (putTag "XMRO" ++ [1] ++ putU64 ev.height.val ++ Bytes32.toBytes ev.blockId ++
    putU64 ev.firstOutputIndex.val ++ bytesLE 4 outs.length ++
    Bytes32.toBytes (sha (outs.flatMap outputRow)))

/-- The `"XMRK"` leaf of a block. -/
def spentLeaf (ev : BlockTxEvent) : Bytes32 :=
  let sorted := ev.keyImages.mergeSort fun a b => a ≤ b
  leafHash sha (putTag "XMRK" ++ [1] ++ putU64 ev.height.val ++ Bytes32.toBytes ev.blockId ++
    bytesLE 4 sorted.length ++ Bytes32.toBytes (sha (sorted.flatMap Bytes32.toBytes)))

end

def outputCount (ev : BlockTxEvent) : Nat := ev.coinbaseAmountPubkeys.length + ev.outputs.length

@[simp] theorem length_blockOuts (zeroCommit : U64 → Hash) (ev : BlockTxEvent) :
    (ev.blockOuts zeroCommit).length = ev.outputCount := by
  simp [blockOuts, outputCount]

end BlockTxEvent

namespace ChainOutputSet

def totalOutputs (s : ChainOutputSet) : Nat := s.snapOutputs.length + s.outputs.length

/-- `base_ + total_outputs_()`, which wraps. -/
def frontier (s : ChainOutputSet) : U64 := Fin.ofNat (2 ^ 64) (s.base.val + s.totalOutputs)

/-- The loop of `resolve`. -/
def resolveAll (s : ChainOutputSet) : List U64 → Option (List OutputRecord)
  | [] => some []
  | off :: offs => do
      if off < s.base then none
      let idx := off.val - s.base.val
      if s.totalOutputs ≤ idx then none
      let row ← if idx < s.snapOutputs.length then s.snapOutputs[idx]?
        else s.outputs[idx - s.snapOutputs.length]?
      let rows ← s.resolveAll offs
      some (row :: rows)

def resolve (s : ChainOutputSet) (amount : U64) (absoluteOffsets : List U64) :
    Option (List OutputRecord) :=
  if amount ≠ 0 ∨ ¬ s.resolutionEnabled then none else s.resolveAll absoluteOffsets

def isSpent (s : ChainOutputSet) (ki : Hash) : Bool := ki ∈ s.spent ∨ ki ∈ s.snapKeyImages

section Feed

variable (zeroCommit : U64 → Hash) (sha : List Byte → Bytes32)

/-- The set after a block that `connect_locked_` takes. -/
def appended (s : ChainOutputSet) (ev : BlockTxEvent) : ChainOutputSet :=
  let outLeaf := ev.outputLeaf zeroCommit sha
  let kiLeaf := ev.spentLeaf sha
  let kis := insertKeyImages s.snapKeyImages s.spent ev.keyImages
  { s with
    outPeaks := mmrAppend sha s.outPeaks outLeaf
    outLeaves := s.outLeaves ++ [outLeaf]
    outLeafFirst := s.outLeafFirst ++ [ev.firstOutputIndex]
    kiPeaks := mmrAppend sha s.kiPeaks kiLeaf
    kiLeaves := s.kiLeaves ++ [kiLeaf]
    outputs := s.outputs ++ ev.blockOuts zeroCommit
    spent := kis.1
    tipHeight := ev.height
    tipId := ev.blockId
    undo :=
      { height := ev.height
        blockId := ev.blockId
        outputsAdded := (ev.blockOuts zeroCommit).length
        keyImageList := kis.2.1
        keyImagesSkipped := kis.2.2
        outPeaksBefore := s.outPeaks
        kiPeaksBefore := s.kiPeaks
        prevTipHeight := s.tipHeight
        prevTipId := s.tipId } :: s.undo }

/-- `on_block_connected`; a refused block is `none`. -/
def onBlockConnected (s : ChainOutputSet) (ev : BlockTxEvent) : Option ChainOutputSet :=
  if ev.kind ≠ .connected then none
  else if ev.blockOuts zeroCommit ≠ [] ∧ ev.firstOutputIndex ≠ s.frontier then none
  else some (s.appended zeroCommit sha ev)

/-- `on_block_disconnected`; a refused event is `none`. -/
def onBlockDisconnected (s : ChainOutputSet) (ev : BlockTxEvent) : Option ChainOutputSet :=
  match s.undo with
  | [] => none
  | f :: frames =>
    if f.height ≠ ev.height then none
    else
      some { s with
        outputs := s.outputs.take (s.outputs.length - f.outputsAdded)
        spent := f.keyImageList.foldl Finset.erase s.spent
        outPeaks := f.outPeaksBefore
        kiPeaks := f.kiPeaksBefore
        outLeaves := resize s.outLeaves f.outPeaksBefore.leafCount 0
        outLeafFirst := resize s.outLeafFirst f.outPeaksBefore.leafCount 0
        kiLeaves := resize s.kiLeaves f.kiPeaksBefore.leafCount 0
        tipHeight := f.prevTipHeight
        tipId := f.prevTipId
        undo := frames }

def outputRoot (s : ChainOutputSet) : Bytes32 := mmrBag sha s.outPeaks

def spentRoot (s : ChainOutputSet) : Bytes32 := mmrBag sha s.kiPeaks

def outputLeafCount (s : ChainOutputSet) : Nat := s.outPeaks.leafCount

def spentLeafCount (s : ChainOutputSet) : Nat := s.kiPeaks.leafCount

def setDigest (s : ChainOutputSet) : Bytes32 :=
  leafHash sha (putTag "XMRS" ++ [1] ++ putU64 s.tipHeight.val ++ Bytes32.toBytes s.tipId ++
    putU64 s.base.val ++ putU64 s.frontier.val ++ putU64 s.outPeaks.leafCount ++
    Bytes32.toBytes (mmrBag sha s.outPeaks) ++ putU64 s.kiPeaks.leafCount ++
    Bytes32.toBytes (mmrBag sha s.kiPeaks))

/-- `prove_output`.  `upper_bound` over the sorted first indices is the length of the part that
does not pass `globalIndex`. -/
def proveOutput (s : ChainOutputSet) (globalIndex : U64) : Option (Bytes32 × MmrProof) :=
  if globalIndex < s.base then none
  else
    let it := (s.outLeafFirst.takeWhile fun first => first ≤ globalIndex).length
    if it = 0 then none
    else
      match s.outLeaves[it - 1]? with
      | none => none
      | some leaf => some (leaf, mmrProof sha s.outLeaves (it - 1))

end Feed

end ChainOutputSet

end C2Pool.Xmr
