import C2Pool.Xmr.ConsensusState

/-! # The chain index

`xmr_chain_index.hpp` over `xmr_chain_view.hpp` and `xmr_row_store.hpp`: the consensus state with
the undo records of its blocks, the row store, and the mirror of the long-term weight window. The
alternative pool is not modelled: a switch is given the branch the pool assembled and the bodies the
entry cache holds.
-/

namespace C2Pool.Xmr

structure ChainStateView where
  state : ConsensusState
  undos : List ConnectUndo := []

namespace ChainStateView

/-- `ChainStateView::connect` of an evaluated block; `none` is a refusal. -/
def connect (retarget : Retarget) (v : ChainStateView) (block : BlockConnectInput)
    (powVerified : Bool) (now : U64) : Option (ChainRow × ChainStateView) :=
  let r := v.state.connect retarget { block with powVerified := powVerified } now
  r.out.map fun written =>
    (written.1, { state := r.state, undos := v.undos ++ [written.2] })

def disconnectTip (v : ChainStateView) : Option ChainStateView :=
  match v.undos.getLast? with
  | none => none
  | some undo => (v.state.disconnect undo).map fun s => { state := s, undos := v.undos.dropLast }

end ChainStateView

structure RowRecord where
  row : ChainRow := {}
  ownMined : Bool := false
  powHash : Hash := 0
deriving DecidableEq

/-- `RowStore`, less the seed anchors and the pre-window. -/
structure RowStore where
  rows : List RowRecord := []
  byId : SortedMap Hash U64 := ∅
  retention : Nat := 2048

namespace RowStore

/-- `RowStore::set_retention`. -/
def ofRetention (n : Nat) : RowStore := { retention := if n = 0 then 1 else n }

def tip (r : RowStore) : Option RowRecord := r.rows.getLast?

def tipHeight (r : RowStore) : U64 := (r.tip.map (·.row.height)).getD 0

def oldestHeight (r : RowStore) : U64 := (r.rows.head?.map (·.row.height)).getD 0

/-- `RowStore::trim_`: the oldest rows go, and their ids with them. -/
def trim (r : RowStore) : RowStore :=
  { r with
    rows := SlidingWindow.newest r.retention r.rows
    byId := (r.rows.take (r.rows.length - r.retention)).foldl
      (fun m rec => m.erase rec.row.id) r.byId }

/-- `RowStore::push`: a row that does not follow the tip is not taken. -/
def push (r : RowStore) (row : ChainRow) (ownMined : Bool) (powHash : Hash) : RowStore :=
  if r.rows ≠ [] ∧ row.height ≠ r.tipHeight + 1 then r
  else
    trim { r with
      byId := r.byId.insert row.id row.height
      rows := r.rows ++ [{ row, ownMined, powHash }] }

def pop (r : RowStore) : RowStore :=
  match r.tip with
  | none => r
  | some out => { r with byId := r.byId.erase out.row.id, rows := r.rows.dropLast }

def byHeight (r : RowStore) (h : U64) : Option RowRecord :=
  if r.rows = [] ∨ h < r.oldestHeight ∨ r.tipHeight < h then none
  else r.rows[(h - r.oldestHeight).val]?

def heightOf (r : RowStore) (id : Hash) : Option U64 := r.byId.lookup id

/-- `RowStore::by_id`. -/
def byIdRecord (r : RowStore) (id : Hash) : Option RowRecord := (r.heightOf id).bind r.byHeight

end RowStore

inductive TieBreak where
  | firstSeen
  | preferOwn
deriving DecidableEq

structure ChainIndexOptions where
  net : XmrNet := .mainnet
  rowRetention : Nat := 2048
  maxReorgDepth : Nat := 720
  snapshotDepth : Nat := 64
  tie : TieBreak := .preferOwn
  requirePow : Bool := true

structure ChainIndex where
  opts : ChainIndexOptions
  view : ChainStateView
  rows : RowStore
  checkpoints : List U64 := []
  ltMirror : List U64 := []
  ltUndo : List (Option U64) := []

/-- `AltBlock`, with the evaluated block of its entry; `none` when the entry does not evaluate. -/
structure AltBlock where
  block : Option BlockConnectInput := none
  difficulty : U128 := {}
  cumulativeDifficulty : U128 := {}
  powVerified : Bool := false
  ownMined : Bool := false
  adoptable : Bool := false
  hasEntry : Bool := false
  bodiesMissing : Bool := false

inductive BurialStatus where
  | unknown
  | orphaned
  | notYet
  | buried
  | pinnedBuried
deriving DecidableEq

structure Burial where
  status : BurialStatus := .unknown
  height : U64 := 0
  depth : U64 := 0
deriving DecidableEq

/-- `fork_choice`: whether the candidate replaces the best chain. -/
def forkChoice (bestDifficulty : U128) (bestOwn : Bool) (candidate : AltBlock) (tie : TieBreak) :
    Bool :=
  if u128Less bestDifficulty candidate.cumulativeDifficulty then true
  else if u128Less candidate.cumulativeDifficulty bestDifficulty then false
  else tie = .preferOwn && candidate.ownMined && !bestOwn

namespace ChainIndex

def ofOptions (opts : ChainIndexOptions) : ChainIndex :=
  { opts
    view := { state := { net := opts.net, rowRetention := opts.rowRetention } }
    rows := RowStore.ofRetention opts.rowRetention }

def bootFromAnchor (opts : ChainIndexOptions) (b : AnchorBundle)
    (checkpoints timestamps60 : List U64) : ChainIndex :=
  let x := ofOptions opts
  let state := x.view.state.seedFromAnchor b timestamps60
  { x with
    view := { state }
    rows := match state.tip with
      | none => x.rows
      | some t => x.rows.push t false 0
    checkpoints := checkpoints
    ltMirror := b.longTermWeights }

def seedDirect (opts : ChainIndexOptions) (tip : ChainRow) (difficultyWindow : List DifficultyRow)
    (shortTermWeights longTermWeights timestamps60 : List U64) : ChainIndex :=
  let x := ofOptions opts
  let state :=
    x.view.state.seedDirect tip difficultyWindow shortTermWeights longTermWeights timestamps60
  { x with
    view := { state }
    rows := x.rows.push tip false 0
    ltMirror := longTermWeights }

def pushLongMirror (x : ChainIndex) (v : U64) : ChainIndex :=
  let slid := SlidingWindow.slide 100000 x.ltMirror v
  { x with
    ltMirror := slid.1
    ltUndo := SlidingWindow.newest (x.opts.snapshotDepth + 8) (x.ltUndo ++ [slid.2]) }

def popLongMirror (x : ChainIndex) : ChainIndex :=
  match x.ltUndo.getLast? with
  | none => x
  | some u =>
    if x.ltMirror = [] then x
    else { x with ltMirror := SlidingWindow.unslide x.ltMirror u, ltUndo := x.ltUndo.dropLast }

def rollWindow : List (Option U64) → List U64 → Option (List U64)
  | [], w => some w
  | u :: us, w => if w = [] then none else rollWindow us (SlidingWindow.unslide w u)

def longWindowAtDepth (x : ChainIndex) (depth : Nat) : Option (List U64) :=
  if x.ltUndo.length < depth then none
  else rollWindow (x.ltUndo.reverse.take depth) x.ltMirror

/-! ### Operations -/

def follow (x : ChainIndex) (row : ChainRow) (view : ChainStateView) (ownMined : Bool)
    (powHash : Hash) : ChainIndex :=
  pushLongMirror { x with view := view, rows := x.rows.push row ownMined powHash }
    row.longTermWeight

def unfollow (x : ChainIndex) (view : ChainStateView) : ChainIndex :=
  popLongMirror { x with view := view, rows := x.rows.pop }

/-- `connect_to_tip_locked_`. -/
def connectToTip (retarget : Retarget) (x : ChainIndex) (block : BlockConnectInput) (powOk : Bool)
    (powHash : Hash) (ownMined : Bool) (now : U64) : ChainIndex :=
  match x.view.connect retarget block powOk now with
  | none => x
  | some (row, view) => x.follow row view ownMined powHash

/-- The disconnect loop of a switch or an abandonment: `n` rows stand above the fork.  It hands
back the rows that left, the oldest first, each with the body the cache holds for it. -/
def unwind (bodies : Hash → Option BlockConnectInput) (forkHeight : U64) :
    Nat → ChainIndex → List (RowRecord × Option BlockConnectInput) →
      ChainIndex × List (RowRecord × Option BlockConnectInput)
  | 0, x, unwound => (x, unwound)
  | n + 1, x, unwound =>
    match x.rows.byHeight (forkHeight + Fin.ofNat (2 ^ 64) (n + 1)) with
    | none => (x, unwound)
    | some rr =>
      match x.view.disconnectTip with
      | none => (x, unwound)
      | some view =>
        let popped := x.rows.tip.getD {}
        unwind bodies forkHeight n (x.unfollow view) ((popped, bodies rr.row.id) :: unwound)

/-- The apply loop of a switch: the index, how many blocks it applied, and whether the branch went
in whole. -/
def applyBranch (retarget : Retarget) (clock : Nat → U64) :
    List AltBlock → ChainIndex → Nat → ChainIndex × Nat × Bool
  | [], x, applied => (x, applied, true)
  | b :: branch, x, applied =>
    match b.block with
    | none => (x, applied, false)
    | some block =>
      match x.view.connect retarget block b.powVerified (clock applied) with
      | none => (x, applied, false)
      | some (row, view) =>
        -- The difficulty of the rolled-back windows has to be the one the branch walk computed.
        if u128Less row.difficulty b.difficulty || u128Less b.difficulty row.difficulty then
          ({ x with view := view.disconnectTip.getD view }, applied, false)
        else applyBranch retarget clock branch (x.follow row view b.ownMined 0) (applied + 1)

/-- The first half of the restore path: the applied blocks leave again. -/
def unapply : Nat → ChainIndex → ChainIndex
  | 0, x => x
  | n + 1, x => unapply n (x.unfollow (x.view.disconnectTip.getD x.view))

def reapply (retarget : Retarget) (clock : Nat → U64) :
    List (RowRecord × Option BlockConnectInput) → ChainIndex → Nat → ChainIndex
  | [], x, _ => x
  | (rr, body) :: rest, x, n =>
    match body.bind fun block => x.view.connect retarget block rr.row.powVerified (clock n) with
    | none => x
    | some (row, view) =>
      reapply retarget clock rest (x.follow row view rr.ownMined rr.powHash) (n + 1)

structure Switch where
  forkParent : Hash
  branch : List AltBlock
  bodies : Hash → Option BlockConnectInput
  applyClock : Nat → U64
  restoreClock : Nat → U64

def depthAbove (x : ChainIndex) (forkHeight : U64) : Nat :=
  (x.rows.tipHeight - forkHeight).val

/-- The checks `maybe_switch_locked_` makes before it touches anything; the fork height when they
all pass. -/
def judgeSwitch (x : ChainIndex) (w : Switch) : Option U64 := do
  let best ← x.rows.tip
  let candidate ← w.branch.getLast?
  guard (forkChoice best.row.cumulativeDifficulty best.ownMined candidate x.opts.tie)
  guard (w.branch.length ≤ x.opts.maxReorgDepth + 1)
  let forkRow ← x.rows.byIdRecord w.forkParent
  let forkHeight := forkRow.row.height
  guard (¬ forkHeight < x.view.state.anchorHeight)
  guard (x.depthAbove forkHeight ≤ x.opts.maxReorgDepth)
  guard (¬ forkHeight < x.rows.oldestHeight)
  guard (∀ cp ∈ x.checkpoints, ¬ best.row.height + 1 < cp → ¬ forkHeight < cp)
  guard (∀ b ∈ w.branch, b.hasEntry ∧ ¬ b.bodiesMissing ∧ (x.opts.requirePow → b.adoptable))
  guard (∀ n < x.depthAbove forkHeight,
    ((x.rows.byHeight (best.row.height - Fin.ofNat (2 ^ 64) n)).bind
      fun rr => w.bodies rr.row.id).isSome)
  return forkHeight

/-- `maybe_switch_locked_`. -/
def maybeSwitch (retarget : Retarget) (x : ChainIndex) (w : Switch) : ChainIndex :=
  match x.judgeSwitch w with
  | none => x
  | some forkHeight =>
    let unwound := unwind w.bodies forkHeight (x.depthAbove forkHeight) x []
    let applied := applyBranch retarget w.applyClock w.branch unwound.1 0
    if applied.2.2 then applied.1
    else reapply retarget w.restoreClock unwound.2 (unapply applied.2.1 applied.1) 0

/-- The checks `abandon_own_fork_locked_` makes; the fork height when they pass. -/
def judgeAbandon (x : ChainIndex) (baseHeight : U64) : Option U64 := do
  let best ← x.rows.tip
  guard (baseHeight ≠ 0 ∧ ¬ best.row.height < baseHeight)
  let forkHeight := baseHeight - 1
  guard ((x.rows.byHeight forkHeight).isSome ∧ ¬ forkHeight < x.rows.oldestHeight)
  guard (¬ forkHeight < x.view.state.anchorHeight)
  guard (x.depthAbove forkHeight ≤ x.opts.maxReorgDepth)
  return forkHeight

/-- `abandon_own_fork_locked_`, up to the point where the pool takes over. -/
def abandonOwnFork (x : ChainIndex) (baseHeight : U64) : ChainIndex :=
  match x.judgeAbandon baseHeight with
  | none => x
  | some forkHeight => (unwind (fun _ => none) forkHeight (x.depthAbove forkHeight) x []).1

/-- The operations that move the best chain. -/
inductive Op where
  | connect (block : BlockConnectInput) (powOk : Bool) (powHash : Hash) (ownMined : Bool)
      (now : U64)
  | switch (w : Switch)
  | abandon (baseHeight : U64)

def step (retarget : Retarget) (x : ChainIndex) : Op → ChainIndex
  | .connect block powOk powHash ownMined now =>
    x.connectToTip retarget block powOk powHash ownMined now
  | .switch w => x.maybeSwitch retarget w
  | .abandon baseHeight => x.abandonOwnFork baseHeight

/-- `burial_locked_`; `held` says whether the alternative pool holds the block. -/
def burial (x : ChainIndex) (held : Hash → Bool) (id : Hash) (n : U64) : Burial :=
  match x.rows.heightOf id with
  | none => { status := if held id then .orphaned else .unknown }
  | some h =>
    let tipHeight := x.rows.tipHeight
    let depth := if h ≤ tipHeight then tipHeight - h + 1 else 0
    let status :=
      if h ≤ x.view.state.anchorHeight then .pinnedBuried
      else if depth < n then .notYet
      else if x.view.state.verifiedFrontier < h then .notYet
      else .buried
    { status, height := h, depth }

end ChainIndex

end C2Pool.Xmr
