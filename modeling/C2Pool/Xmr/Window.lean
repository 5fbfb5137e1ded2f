import C2Pool.Lib.Accrual
import C2Pool.Lib.Apportion
import C2Pool.V37.Merkle
import C2Pool.Xmr.Wide

/-! # The Path B payout window

`pathb_window.hpp`: the bins of the lane are read newest first until their work covers twice the
network difficulty, cut where the spend floor or the number of payees asks for it, and resolved into
weights by shares and merge-back.
-/

namespace C2Pool.Xmr.PathB

open Wide
open C2Pool.V37 (Byte Bytes32 putU256)

/-! ## Entries and bins -/

/-- `WinEntry`: one live receipt.  Identities are byte strings, read as big-endian
numbers so that `<` is their order. -/
structure WinEntry where
  miner : Hash
  owner : Hash := 0
  work : U64
  p : U16 := 0
  giveAuthorBp : U16 := 0
  position : U64 := 0
  id : Hash := 0
deriving DecidableEq

structure Shares where
  wMiner : U64
  wOwner : U64
  wAuthor : U64
deriving DecidableEq

def sharesOf (work : U64) (p ga : U16) : Shares :=
  let wOwner := shareFloor work p
  let wAuthor := shareFloor work ga
  let taken := wOwner + wAuthor
  { wMiner := if taken ≤ work then work - taken else 0, wOwner := wOwner, wAuthor := wAuthor }

abbrev RowWeights := Work × Work × Work

structure BucketRow where
  miner : Hash
  owner : Hash
  wMiner : Work
  wOwner : Work
  wAuthor : Work
deriving DecidableEq

def rowOf (e : WinEntry) : BucketRow :=
  let s := sharesOf e.work e.p e.giveAuthorBp
  { miner := e.miner, owner := e.owner, wMiner := ofU64 s.wMiner, wOwner := ofU64 s.wOwner,
    wAuthor := ofU64 s.wAuthor }

/-- The rows of a `std::map` by (miner, owner): every addition goes to the row of
its pair. -/
def groupRows (rows : List BucketRow) : List BucketRow :=
  let byPair : SortedMap (Hash ×ₗ Hash) RowWeights :=
    SortedMap.accrueAll ∅ (rows.map fun r =>
      (toLex (r.miner, r.owner), (r.wMiner, r.wOwner, r.wAuthor)))
  byPair.entries.map fun e =>
    { miner := (ofLex e.1).1, owner := (ofLex e.1).2, wMiner := e.2.1, wOwner := e.2.2.1,
      wAuthor := e.2.2.2 }

def rowsOf (entries : List WinEntry) : List BucketRow := groupRows (entries.map rowOf)

/-- `std::min` of a value and the smallest one so far, if there was one. -/
def lowerOf (d : Option U64) (m : U64) : U64 :=
  match d with
  | some n => if m < n then m else n
  | none => m

def minWork (d : Option U64) (e : WinEntry) : Option U64 := some (lowerOf d e.work)

def rawSum (entries : List WinEntry) : Work :=
  entries.foldl (fun sum e => sum + ofU64 e.work) 0

def smallestWork (entries : List WinEntry) : U64 := (entries.foldl minWork none).getD 0

/-- `L1Bucket`, without the commitments that the window does not read. -/
structure L1Bucket where
  binLo : U64
  binHi : U64
  rawSum : Work
  dMin : U64
  rows : List BucketRow
deriving DecidableEq

def sealFromEntries (bin : U64) (entries : List WinEntry) : L1Bucket where
  binLo := bin
  binHi := bin
  rawSum := rawSum entries
  dMin := smallestWork entries
  rows := rowsOf entries

/-- `WinBin`: open with its entries, or sealed with its bucket. -/
structure WinBin where
  bin : U64
  entries : List WinEntry := []
  bucket : Option L1Bucket := none
deriving DecidableEq

namespace WinBin

/-- `bin_empty`. -/
def isEmpty (b : WinBin) : Bool :=
  match b.bucket with
  | some s => s.rows.isEmpty
  | none => b.entries.isEmpty

/-- The raw work of `bin_stats`. -/
def raw (b : WinBin) : Work :=
  match b.bucket with
  | some s => s.rawSum
  | none => rawSum b.entries

/-- The smallest work of `bin_stats`. -/
def dMin (b : WinBin) : U64 :=
  match b.bucket with
  | some s => s.dMin
  | none => smallestWork b.entries

def sourceRows (b : WinBin) : List BucketRow :=
  match b.bucket with
  | some s => s.rows
  | none => b.entries.map rowOf

end WinBin

/-- `rows_of_bins`: the rows. -/
def rowsOfBins (bins : List WinBin) : List BucketRow := groupRows (bins.flatMap WinBin.sourceRows)

/-- `rows_of_bins`: the raw work. -/
def workOfBins (bins : List WinBin) : Work := bins.foldl (fun W b => W + b.raw) 0

structure Window where
  weight : SortedMap Hash Work := ∅
  total : Work := 0
  rows : List BucketRow := []
  emptyFinderOnly : Bool := false
  mergedBack : Bool := false
deriving DecidableEq

def belowFloor (weightX : Work) (B : U64) (W : Work) (fSpend : U64) : Bool :=
  Limbs.less (mulU256U64 weightX B) (mulU256U64 W fSpend)

def minerWeights (rows : List BucketRow) : SortedMap Hash Work :=
  SortedMap.accrueAll ∅ (rows.map fun r => (r.miner, r.wMiner))

def ownerWeights (rows : List BucketRow) : SortedMap Hash Work :=
  SortedMap.accrueAll ∅ ((rows.filter fun r => r.owner ≠ 0).map fun r => (r.owner, r.wOwner))

def authorWeight (rows : List BucketRow) : Work := (rows.map BucketRow.wAuthor).foldl (· + ·) 0

/-- `total_of`: the weight of an identity in all its parts, before merge-back. -/
def totalOf (rows : List BucketRow) (author x : Hash) : Work :=
  (minerWeights rows).amountAt x + (ownerWeights rows).amountAt x +
    (if author ≠ 0 ∧ x = author then authorWeight rows else 0)

/-- `owners_merging`, ascending. -/
def ownersMerging (rows : List BucketRow) (W : Work) (B fSpend : U64) (author : Hash) : List Hash :=
  (ownerWeights rows).keys.filter fun o => belowFloor (totalOf rows author o) B W fSpend

def authorMerges (rows : List BucketRow) (W : Work) (B fSpend : U64) (author : Hash) : Bool :=
  author = 0 || authorWeight rows = 0 || belowFloor (totalOf rows author author) B W fSpend

def nonZero (m : SortedMap Hash Work) : List (Hash × Work) := m.entries.filter fun e => e.2 ≠ 0

def resolveRows (rows : List BucketRow) (W : Work) (B fSpend : U64) (author : Hash) : Window :=
  let merging := ownersMerging rows W B fSpend author
  let authorBack := authorMerges rows W B fSpend author
  let miners := (minerWeights rows).accrueAll
    (merging.flatMap fun o => (rows.filter fun r => r.owner = o).map fun r => (r.miner, r.wOwner))
  let owners := merging.foldl (fun m o => m.insert o 0) (ownerWeights rows)
  let miners := if authorBack then miners.accrueAll (rows.map fun r => (r.miner, r.wAuthor))
    else miners
  let weight := (SortedMap.accrueAll ∅ (nonZero miners)).accrueAll (nonZero owners)
  { weight := if !authorBack && authorWeight rows ≠ 0 then weight.accrue author (authorWeight rows)
      else weight
    total := W
    rows := rows
    mergedBack := !merging.isEmpty || (author ≠ 0 && authorWeight rows ≠ 0 && authorBack) }

def resolveBins (bins : List WinBin) (B fSpend : U64) (author : Hash) : Window :=
  resolveRows (rowsOfBins bins) (workOfBins bins) B fSpend author

def addRow (author : Hash) (ids : Finset Hash) (r : BucketRow) : Finset Hash :=
  let ids := if r.wMiner ≠ 0 then insert r.miner ids else ids
  let ids := if r.owner ≠ 0 ∧ r.wOwner ≠ 0 then insert r.owner ids else ids
  if author ≠ 0 ∧ r.wAuthor ≠ 0 then insert author ids else ids

def addEntry (author : Hash) (ids : Finset Hash) (e : WinEntry) : Finset Hash :=
  let s := sharesOf e.work e.p e.giveAuthorBp
  let ids := if 0 < s.wMiner then insert e.miner ids else ids
  let ids := if e.owner ≠ 0 ∧ 0 < s.wOwner then insert e.owner ids else ids
  if author ≠ 0 ∧ 0 < s.wAuthor then insert author ids else ids

def addBin (author : Hash) (ids : Finset Hash) (b : WinBin) : Finset Hash :=
  match b.bucket with
  | some s => s.rows.foldl (addRow author) ids
  | none => b.entries.foldl (addEntry author) ids

/-- The in-bin cut order: carrier position descending, then id ascending. -/
def NewerFirst (a b : WinEntry) : Prop :=
  b.position < a.position ∨ b.position = a.position ∧ a.id ≤ b.id

instance : DecidableRel NewerFirst := fun a b => by
  unfold NewerFirst
  infer_instance

def withinWMax (W : Work) (dMin B fSpend : U64) : Bool :=
  !Limbs.less (mulU64U64 B dMin) (mulU256U64 W fSpend)

/-- What a source yields for a bin it was asked for. -/
inductive BinPull where
  | bin (b : WinBin)
  | missingBucket (bin : U64)
  | missingEntries (bin : U64)
deriving DecidableEq

inductive WinStatus where
  | ok
  | missingBucket
  | missingEntries
  | sealedCut
deriving DecidableEq

structure WinSelect where
  status : WinStatus := .ok
  missingBin : U64 := 0
  bins : List WinBin := []
  read : Nat := 0
deriving DecidableEq

/-- The longest prefix of the sorted entries whose work stays within `W_max`. -/
def keepWMax (B fSpend : U64) : List WinEntry → Work → Option U64 → List WinEntry
  | [], _, _ => []
  | e :: es, W, d =>
    let W := W + ofU64 e.work
    let d := minWork d e
    if withinWMax W (d.getD 0) B fSpend then e :: keepWMax B fSpend es W d else []

section Source

-- `std::sort` by the in-bin cut order; it leaves open how equal entries end up
variable (sort : List WinEntry → List WinEntry)

/-- The newest bin, which alone does not fit `W_max`, cut by carrier position. -/
def cutNewest (B fSpend : U64) (b : WinBin) (read : Nat) : WinSelect :=
  match b.bucket with
  | some _ => { status := .sealedCut, missingBin := b.bin, read := read }
  | none =>
    let kept := keepWMax B fSpend (sort b.entries) 0 none
    { bins := if kept.isEmpty then [] else [{ b with entries := kept }], read := read }

/-- The loop of `select_window_bins_from`: `taken` are the bins so far, of work
`cum` and smallest work `d`. -/
def selectFrom (coverage : Work) (B fSpend : U64) :
    List BinPull → Work → Option U64 → List WinBin → Nat → WinSelect
  | [], _, _, taken, read => { bins := taken, read := read }
  | pull :: pulls, cum, d, taken, read =>
    if ¬ cum < coverage then { bins := taken, read := read }
    else
      match pull with
      | .missingBucket bin => { status := .missingBucket, missingBin := bin, read := read + 1 }
      | .missingEntries bin => { status := .missingEntries, missingBin := bin, read := read + 1 }
      | .bin b =>
        if b.isEmpty then selectFrom coverage B fSpend pulls cum d taken (read + 1)
        else
          let W := cum + b.raw
          let dNew := lowerOf d b.dMin
          if !withinWMax W dNew B fSpend then
            if taken.isEmpty then cutNewest sort B fSpend b (read + 1)
            else { bins := taken, read := read + 1 }
          else selectFrom coverage B fSpend pulls W (some dNew) (taken ++ [b]) (read + 1)

/-- `select_window_bins_from`; the coverage is twice the network difficulty. -/
def selectWindowBinsFrom (pulls : List BinPull) (dNet : BitVec 128) (B fSpend : U64) : WinSelect :=
  let coverage : Work := dNet.setWidth 256 + dNet.setWidth 256
  selectFrom sort coverage B fSpend pulls 0 none [] 0

def binsWithin (author : Hash) (N : U64) : Finset Hash → List WinBin → Nat
  | _, [] => 0
  | ids, b :: bs =>
    let ids := addBin author ids b
    if N.val < ids.card then 0 else binsWithin author N ids bs + 1

/-- The longest prefix of the sorted entries with at most `N` payees. -/
def keepPayees (author : Hash) (N : U64) : Finset Hash → List WinEntry → List WinEntry
  | _, [] => []
  | ids, e :: es =>
    let ids := addEntry author ids e
    if N.val < ids.card then [] else e :: keepPayees author N ids es

/-- What the N rule leaves of the selected bins. -/
structure Kept where
  status : WinStatus := .ok
  missingBin : U64 := 0
  bins : List WinBin := []
  droppedBins : Bool := false
  cutPosition : Bool := false
deriving DecidableEq

def cutPayees (author : Hash) (N : U64) (b : WinBin) (dropped : Bool) : Kept :=
  match b.bucket with
  | some _ =>
    { status := .sealedCut, missingBin := b.bin, bins := [b], droppedBins := dropped }
  | none =>
    let sorted := sort b.entries
    let kept := keepPayees author N ∅ sorted
    { bins := [{ b with entries := kept }], droppedBins := dropped
      cutPosition := kept.length < sorted.length }

/-- Steps 3 and 4 of `window_from`. -/
def nRule (author : Hash) (N : U64) (selected : List WinBin) : Kept :=
  match selected with
  | [] => {}
  | newest :: older =>
    if N = 0 then { bins := newest :: older }
    else
      match binsWithin author N ∅ (newest :: older) with
      | 0 => cutPayees sort author N newest (!older.isEmpty)
      | k + 1 => { bins := newest :: older.take k, droppedBins := k < older.length }

structure WinEval where
  status : WinStatus := .ok
  missingBin : U64 := 0
  window : Window := {}
  read : Nat := 0
  oldestBin : U64 := 0
  nDroppedBins : Bool := false
  nCutPosition : Bool := false
deriving DecidableEq

def windowFrom (pulls : List BinPull) (dNet : BitVec 128) (B fSpend N : U64) (author : Hash) :
    WinEval :=
  let s := selectWindowBinsFrom sort pulls dNet B fSpend
  if s.status ≠ .ok then { status := s.status, missingBin := s.missingBin, read := s.read }
  else
    let kept := nRule sort author N s.bins
    if kept.status ≠ .ok then
      { status := kept.status, missingBin := kept.missingBin, read := s.read
        nDroppedBins := kept.droppedBins }
    else
      let w := resolveBins kept.bins B fSpend author
      { window := { w with emptyFinderOnly := w.weight.entries.isEmpty }
        read := s.read
        oldestBin := (kept.bins.getLast?.map WinBin.bin).getD 0
        nDroppedBins := kept.droppedBins
        nCutPosition := kept.cutPosition }

end Source

structure SplitOutput where
  payee : Hash
  amount : U64
deriving DecidableEq

/-- A row of `split`: the floor of the payee's share and its remainder. -/
structure SplitRow where
  payee : Hash
  q : U64
  rem : Work
deriving DecidableEq

def weightsSumToW (w : Window) : Bool :=
  w.weight.entries.foldl (fun sum e => sum + e.2) 0 = w.total

/-- The floors of `split`, in identity order. -/
def splitRows (R : U64) (w : Window) : List SplitRow :=
  w.weight.entries.map fun e =>
    let d := divmodU320U256 (mulU256U64 e.2 R) w.total
    { payee := e.1, q := d.1, rem := d.2 }

/-- The order of the extra units: by remainder, largest first. -/
def rankRows (rows : List SplitRow) : List Nat :=
  Apportion.ranking (fun i => (rows[i]?.map fun r => r.rem.toNat).getD 0) rows.length

def split (R : U64) (w : Window) : List SplitOutput :=
  if w.weight.entries.isEmpty || !weightsSumToW w then []
  else
    let rows := splitRows R w
    let assigned := rows.foldl (fun sum r => sum + r.q) 0
    let deficit := R - assigned
    (Apportion.bumpFirst (fun r => { r with q := r.q + 1 }) rows (rankRows rows) deficit.val).map
      fun r => { payee := r.payee, amount := r.q }

section Root

variable (sha : List Byte → Bytes32)

def windowSumLeaf (payee : Hash) (w : Work) : Hash :=
  sha (0x06 :: (Bytes32.toBytes payee ++ putU256 w.toNat))

def windowSumNode (l r : Hash × Work) : Hash :=
  sha (0x07 :: (Bytes32.toBytes l.1 ++ putU256 l.2.toNat ++ Bytes32.toBytes r.1 ++
    putU256 r.2.toNat))

/-- `window_root`, with the sum: adjacent nodes are joined, a lone one is promoted. -/
def windowRoot (w : Window) : Hash × Work :=
  let leaves := w.weight.entries.map fun e => (windowSumLeaf sha e.1 e.2, e.2)
  (PairTree.promoteAll (fun l r => (windowSumNode sha l r, l.2 + r.2)) leaves.length
    leaves).head?.getD (0, 0)

end Root

end C2Pool.Xmr.PathB
