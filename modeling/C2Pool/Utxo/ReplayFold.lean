import C2Pool.Utxo.Coins

/-! # The replay fold of the unspent set

Blocks are folded in order into an overlay over a store, which a flush writes in one
batch together with the undo records, the block hashes and the cursor; the tip is
disconnected with its stored record (`impl/dash/coin/replay_utxo_fold.hpp`).  The store
is open and its batches commit.
-/

namespace C2Pool.Utxo

open List SortedMap PartialRun

abbrev Overlay := SortedMap Outpoint (Option Coin)

/-- `ReplayUtxoFoldOptions`, without the gate. -/
structure ReplayUtxoFoldOptions where
  undoWindow : U32 := 100
  flushInterval : U32 := 2000
  checkPrevLinkage : Bool := false
deriving DecidableEq

/-- A stored undo record: the bytes of the spent coins of each transaction, and the outpoints that
the block added. -/
structure UndoRecord where
  spent : List (List (List Byte)) := []
  added : List Outpoint := []
deriving DecidableEq

/-- `serialize_block_undo`, up to its length fields: it keeps no outpoints of the inputs. -/
def serializeBlockUndo (u : BlockUndo) : UndoRecord where
  spent := u.txUndos.map fun tu => tu.spentCoins.map serializeCoin
  added := u.addedOutpoints

def readTxUndo (tx : List (List Byte)) : Option TxUndo :=
  (tx.mapM deserializeCoin).map fun coins => { spentCoins := coins }

def deserializeBlockUndo (r : UndoRecord) : Option BlockUndo :=
  (r.spent.mapM readTxUndo).map fun txUndos =>
    { txUndos := txUndos, addedOutpoints := r.added }

/-- The cursor: the best block and the lowest height that may have an undo record. -/
structure Cursor where
  bestHash : Uint256
  bestHeight : U32
  undoFloor : U32
deriving DecidableEq

structure FoldStore where
  coins : SortedMap Outpoint (List Byte) := ∅
  undo : SortedMap U32 UndoRecord := ∅
  hashes : SortedMap U32 Uint256 := ∅
  cursor : Option Cursor := none
deriving DecidableEq

/-- Why a call was refused. -/
inductive FoldRefusal where
  | poisoned (cause : String)
  | gap (got want : U32)
  | prevMismatch (height : U32) (prev cursor : Uint256)
  | coldStartAbove1 (got : U32)
  | emptyBlock (height : U32)
  | missingInput (height : U32) (txid : Uint256) (prevout : Outpoint)
  | bip30Duplicate (height : U32) (outpoint : Outpoint)
  | disconnectNoTip
  | undoMissing (height window : U32)
  | disconnectPrevHashMissing (height : Nat)
  | disconnectUndoUnderrun
  | disconnectVinCountMismatch
  | hashScanFailed
deriving DecidableEq

/-- The first sixteen digits of `GetHex`. -/
def hex16 (h : Uint256) : String :=
  String.ofList ((List.range 16).map fun i => Nat.digitChar (h.val / 16 ^ (63 - i) % 16))

/-- The text of `refusal`. -/
def FoldRefusal.text : FoldRefusal → String
  | poisoned cause => "replay-utxo-poisoned (gate FAIL latched): " ++ cause
  | gap got want => s!"replay-utxo-gap: got h={got} want h={want}"
  | prevMismatch h prev cursor =>
    s!"replay-utxo-prev-mismatch: h={h} prev=" ++ hex16 prev ++ " cursor=" ++ hex16 cursor ++
      " (reorg or mis-fed lane)"
  | coldStartAbove1 got =>
    s!"replay-utxo-cold-start-above-1: got h={got}" ++
      " on an empty store (UTXO fold starts at genesis)"
  | emptyBlock h =>
    s!"replay-utxo-empty-block: h={h} (a parsed body always carries its coinbase)"
  | missingInput h txid op =>
    s!"replay-utxo-missing-input: h={h} tx=" ++ hex16 txid ++ " prevout=" ++
      hex16 (ofLex op).1 ++ ":" ++ toString (ofLex op).2
  | bip30Duplicate h op =>
    s!"replay-utxo-bip30-duplicate: h={h} outpoint=" ++ hex16 (ofLex op).1 ++ ":" ++
      toString (ofLex op).2
  | disconnectNoTip => "replay-utxo-disconnect-no-tip"
  | undoMissing h window =>
    s!"replay-utxo-undo-missing: h={h} (outside the {window}-block undo window?)"
  | disconnectPrevHashMissing h => s!"replay-utxo-disconnect-prev-hash-missing: h={h}"
  | disconnectUndoUnderrun => "replay-utxo-disconnect-undo-underrun"
  | disconnectVinCountMismatch => "replay-utxo-disconnect-vin-count-mismatch"
  | hashScanFailed => "replay-utxo-hash-scan-failed (store error or corrupt coin)"

structure FoldBlock where
  previousBlock : Uint256 := 0
  txs : List Tx
deriving DecidableEq

structure ReplayUtxoFold where
  opts : ReplayUtxoFoldOptions := {}
  store : FoldStore := {}
  overlay : Overlay := ∅
  pendingUndo : List (U32 × BlockUndo) := []
  pendingHashes : List (U32 × Uint256) := []
  pendingUndoRemovals : List U32 := []
  bestHash : Uint256 := 0
  bestHeight : U32 := 0
  undoFloor : U32 := 0
  haveCursor : Bool := false
  sinceFlush : Nat := 0
  refusal : Option FoldRefusal := none
  poisoned : Option String := none
deriving DecidableEq

namespace ReplayUtxoFold

/-- `open` on a store: everything else starts empty. -/
def openStore (opts : ReplayUtxoFoldOptions) (store : FoldStore) : ReplayUtxoFold :=
  match store.cursor with
  | none => { opts := opts, store := store }
  | some cur =>
    { opts := opts, store := store, bestHash := cur.bestHash, bestHeight := cur.bestHeight,
      undoFloor := cur.undoFloor, haveCursor := true }

def refuse (s : ReplayUtxoFold) (why : FoldRefusal) : ReplayUtxoFold × Bool :=
  ({ s with refusal := some why }, false)

/-- `get_coin` under the changes of an overlay. -/
def coinIn (store : FoldStore) (overlay : Overlay) : Outpoint → Option Coin :=
  WriteBack.view deserializeCoin overlay store.coins

def getCoin (s : ReplayUtxoFold) : Outpoint → Option Coin := coinIn s.store s.overlay

/-- The rollback journal, newest first: what the overlay had at a key before it was touched. -/
abbrev FoldJournal := List (Outpoint × Option (Option Coin))

def rollback (overlay : Overlay) (journal : FoldJournal) : Overlay :=
  journal.foldl (fun o e =>
    match e.2 with
    | some change => o.insert e.1 change
    | none => o.erase e.1) overlay

def touch (w : Overlay × FoldJournal) (op : Outpoint) (change : Option Coin) :
    Overlay × FoldJournal :=
  (w.1.insert op change, (op, w.1.lookup op) :: w.2)

def spendVin (store : FoldStore) (height : U32) (txid : Uint256) :
    Overlay × FoldJournal → List Outpoint →
      Except (FoldRefusal × Overlay) ((Overlay × FoldJournal) × List Coin)
  | w, [] => .ok (w, [])
  | w, op :: vin =>
    match coinIn store w.1 op with
    | none => .error (.missingInput height txid op, rollback w.1 w.2)
    | some spent => do
        let rest ← spendVin store height txid (touch w op none) vin
        return (rest.1, spent :: rest.2)

def addVout (store : FoldStore) (height : U32) :
    Overlay × FoldJournal → List (Outpoint × Coin) →
      Except (FoldRefusal × Overlay) (Overlay × FoldJournal)
  | w, [] => .ok w
  | w, e :: coins =>
    if (coinIn store w.1 e.1).isSome then
      .error (.bip30Duplicate height e.1, rollback w.1 w.2)
    else addVout store height (touch w e.1 (some e.2)) coins

def spendTx (store : FoldStore) (height : U32) (isCoinbase : Bool) (w : Overlay × FoldJournal)
    (tx : Tx) : Except (FoldRefusal × Overlay) ((Overlay × FoldJournal) × List Coin) :=
  if isCoinbase then .ok (w, []) else spendVin store height tx.txid w tx.vin

/-- The loop over the transactions, from the first. -/
def applyTxs (store : FoldStore) (height : U32) :
    Bool → Overlay × FoldJournal → List Tx → Except (FoldRefusal × Overlay) (Overlay × BlockUndo)
  | _, w, [] => .ok (w.1, {})
  | isCoinbase, w, tx :: txs => do
      let spent ← spendTx store height isCoinbase w tx
      let coins := addedCoins true height isCoinbase false tx
      let added ← addVout store height spent.1 coins
      let rest ← applyTxs store height false added txs
      let txUndos := if isCoinbase then rest.2.txUndos else ⟨spent.2, []⟩ :: rest.2.txUndos
      return (rest.1,
        { txUndos := txUndos, addedOutpoints := coins.map Prod.fst ++ rest.2.addedOutpoints })

/-- `apply_block_txs`: the overlay with the block, or as it was with the refusal. -/
def applyBlockTxs (s : ReplayUtxoFold) (height : U32) (block : FoldBlock) :
    Except (FoldRefusal × Overlay) (Overlay × BlockUndo) :=
  if block.txs = [] then .error (.emptyBlock height, s.overlay)
  else applyTxs s.store height true (s.overlay, []) block.txs

def putRows {V : Type} (m : SortedMap U32 V) (rows : List (U32 × V)) : SortedMap U32 V :=
  rows.foldl (fun m e => m.insert e.1 e.2) m

/-- Removes the rows of the heights from `lo` up to `hi`. -/
def pruneRows {V : Type} (m : SortedMap U32 V) (lo hi : Nat) : SortedMap U32 V :=
  m.filterMap fun h v => if lo ≤ h.val ∧ h.val < hi then none else some v

def removeRows {V : Type} (m : SortedMap U32 V) (hs : List U32) : SortedMap U32 V :=
  hs.foldl (fun m h => m.erase h) m

/-- The lowest height that the undo window keeps, as `flush` computes it. -/
def keepFrom (s : ReplayUtxoFold) : Nat := (s.bestHeight.val + 1) % 2 ^ 32 - s.opts.undoWindow.val

def newFloor (s : ReplayUtxoFold) : U32 :=
  if s.undoFloor.val < s.keepFrom then Fin.ofNat _ s.keepFrom else s.undoFloor

def flushed (s : ReplayUtxoFold) : FoldStore where
  coins := WriteBack.commit serializeCoin s.overlay s.store.coins
  undo :=
    pruneRows
      (putRows (removeRows s.store.undo s.pendingUndoRemovals)
        (s.pendingUndo.map fun e => (e.1, serializeBlockUndo e.2)))
      s.undoFloor.val s.keepFrom
  hashes :=
    pruneRows (putRows (removeRows s.store.hashes s.pendingUndoRemovals) s.pendingHashes)
      s.undoFloor.val s.keepFrom
  cursor := some ⟨s.bestHash, s.bestHeight, s.newFloor⟩

def flush (s : ReplayUtxoFold) : ReplayUtxoFold :=
  if s.haveCursor = false then s
  else if s.overlay.entries = [] ∧ s.pendingUndo = [] ∧ s.pendingHashes = [] ∧
      s.pendingUndoRemovals = [] ∧ s.sinceFlush = 0 then s
  else
    { s with
      store := s.flushed
      overlay := ∅
      pendingUndo := []
      pendingHashes := []
      pendingUndoRemovals := []
      undoFloor := s.newFloor
      sinceFlush := 0 }

def moveTo (s : ReplayUtxoFold) (height : U32) (hash : Uint256) (overlay : Overlay)
    (undo : BlockUndo) : ReplayUtxoFold :=
  { s with
    overlay := overlay
    bestHash := hash
    bestHeight := height
    haveCursor := true
    pendingUndo := s.pendingUndo ++ [(height, undo)]
    pendingHashes := s.pendingHashes ++ [(height, hash)]
    sinceFlush := s.sinceFlush + 1 }

/-- The same, with a flush when one is due. -/
def advance (s : ReplayUtxoFold) (height : U32) (hash : Uint256) (overlay : Overlay)
    (undo : BlockUndo) : ReplayUtxoFold :=
  let s := s.moveTo height hash overlay undo
  if s.opts.flushInterval.val ≤ s.sinceFlush then s.flush else s

def onReplayBlock (s : ReplayUtxoFold) (height : U32) (hash : Uint256) (block : FoldBlock) :
    ReplayUtxoFold × Bool :=
  match s.poisoned with
  | some cause => s.refuse (.poisoned cause)
  | none =>
    if s.haveCursor ∧ height ≤ s.bestHeight then (s, true)
    else if s.haveCursor ∧ height ≠ s.bestHeight + 1 then
      s.refuse (.gap height (s.bestHeight + 1))
    else if s.opts.checkPrevLinkage ∧ s.haveCursor ∧ 1 ≤ s.bestHeight ∧
        block.previousBlock ≠ s.bestHash then
      s.refuse (.prevMismatch height block.previousBlock s.bestHash)
    else if s.haveCursor = false ∧ 1 < height then s.refuse (.coldStartAbove1 height)
    else if height = 0 then (s.advance height hash s.overlay {}, true)
    else
      match s.applyBlockTxs height block with
      | .error (why, overlay) => { s with overlay := overlay }.refuse why
      | .ok (overlay, undo) => (s.advance height hash overlay undo, true)

def restoreTxs : Overlay → List Tx → List TxUndo → Overlay × Option FoldRefusal
  | o, [], _ => (o, none)
  | o, _ :: _, [] => (o, some .disconnectUndoUnderrun)
  | o, tx :: txs, tu :: tus =>
    if tu.spentCoins.length ≠ tx.vin.length then (o, some .disconnectVinCountMismatch)
    else
      restoreTxs ((tx.vin.zip tu.spentCoins).foldl (fun o e => o.insert e.1 (some e.2)) o) txs tus

/-- The hash of the block under the tip at the height `h`. -/
def prevHash (store : FoldStore) (h : U32) : Option Uint256 :=
  match store.hashes.lookup (h - 1) with
  | some hash => some hash
  | none => if h = 1 then some 0 else none

def disconnectTip (s : ReplayUtxoFold) (block : FoldBlock) : ReplayUtxoFold × Bool :=
  if s.haveCursor = false ∨ s.bestHeight = 0 then s.refuse .disconnectNoTip
  else
    let s := s.flush
    let h := s.bestHeight
    match (s.store.undo.lookup h).bind deserializeBlockUndo with
    | none => s.refuse (.undoMissing h s.opts.undoWindow)
    | some undo =>
      match prevHash s.store h with
      | none => s.refuse (.disconnectPrevHashMissing (h.val - 1))
      | some prev =>
        let removed := undo.addedOutpoints.foldl (fun o op => o.insert op none) s.overlay
        match restoreTxs removed (block.txs.drop 1).reverse undo.txUndos.reverse with
        | (overlay, some why) => { s with overlay := overlay }.refuse why
        | (overlay, none) =>
          ({ s with
              overlay := overlay
              bestHeight := h - 1
              bestHash := prev
              pendingUndoRemovals := s.pendingUndoRemovals ++ [h] }.flush, true)

def crash (s : ReplayUtxoFold) : ReplayUtxoFold := openStore s.opts s.store

def leBytes : Nat → Nat → List Byte
  | 0, _ => []
  | width + 1, n => Fin.ofNat _ n :: leBytes width (n / 256)

/-- The groups of `write_dashd_varint` before the last, for a value that has more to come. -/
def dashdGroups : Nat → Nat → List Byte
  | 0, _ => []
  | fuel + 1, n =>
    (if n ≤ 0x7f then [] else dashdGroups fuel (n / 128 - 1)) ++ [Fin.ofNat _ (n % 128 + 128)]

/-- `write_dashd_varint`: a 64-bit value has at most ten groups. -/
def writeDashdVarint (n : U64) : List Byte :=
  (if n.val ≤ 0x7f then [] else dashdGroups 9 (n.val / 128 - 1)) ++ [Fin.ofNat _ (n.val % 128)]

def writeCompactSize (n : Nat) : List Byte :=
  if n < 253 then leBytes 1 n
  else if n ≤ 0xffff then 253 :: leBytes 2 n
  else if n ≤ 0xffffffff then 254 :: leBytes 4 n
  else 255 :: leBytes 8 n

/-- `apply_hash_group`: the code of the first output is only tested for zero. -/
def hashGroup (txid : Uint256) (outputs : SortedMap U32 Coin) : List Byte :=
  match outputs.entries with
  | [] => []
  | first :: _ =>
    let code := first.2.height.val * 2 + if first.2.coinbase then 1 else 0
    leBytes 32 txid.val ++ writeDashdVarint (if code = 0 then 0 else 1) ++
      outputs.entries.flatMap (fun o =>
        writeDashdVarint (Fin.ofNat _ (o.1.val + 1)) ++
          writeCompactSize o.2.scriptPubKey.val.length ++ o.2.scriptPubKey.val ++
          writeDashdVarint o.2.value) ++
      writeDashdVarint 0

structure ReplayUtxoSetHash where
  hash : Uint256
  bestBlock : Uint256
  bestHeight : U32
  coins : Nat
  txGroups : Nat
deriving DecidableEq

structure HashScan where
  stream : List Byte
  groupTxid : Uint256 := 0
  group : SortedMap U32 Coin := ∅
  coins : Nat := 0
  txGroups : Nat := 0

def HashScan.close (a : HashScan) : HashScan :=
  if a.group = ∅ then a
  else
    { a with
      stream := a.stream ++ hashGroup a.groupTxid a.group
      group := ∅
      txGroups := a.txGroups + 1 }

def HashScan.coin (a : HashScan) (op : Outpoint) (coin : Coin) : HashScan :=
  let a := if (ofLex op).1 = a.groupTxid then a else a.close
  { a with
    groupTxid := (ofLex op).1
    group := a.group.insert (ofLex op).2 coin
    coins := a.coins + 1 }

def HashScan.row (a : HashScan) (e : Outpoint × List Byte) : Option HashScan :=
  (deserializeCoin e.2).map fun coin => a.coin e.1 coin

/-- `outpoint_to_key`: the store walks its rows in the order of these bytes. -/
def outpointToKey (op : Outpoint) : List Nat :=
  (leBytes 32 (ofLex op).1.val ++ leBytes 4 (ofLex op).2.val).map Fin.val

def scanRows {V : Type} (coins : SortedMap Outpoint V) : List (Outpoint × V) :=
  coins.entries.mergeSort fun a b => outpointToKey a.1 ≤ outpointToKey b.1

def HashScan.finish (hasher : List Byte → Uint256) (bestBlock : Uint256) (bestHeight : U32)
    (a : HashScan) : ReplayUtxoSetHash where
  hash := hasher a.close.stream
  bestBlock := bestBlock
  bestHeight := bestHeight
  coins := a.close.coins
  txGroups := a.close.txGroups

/-- `hash_serialized_2`, over the double hash of the stream. -/
def hashSerialized2 (hasher : List Byte → Uint256) (s : ReplayUtxoFold) :
    ReplayUtxoFold × Option ReplayUtxoSetHash :=
  let s := s.flush
  let start : HashScan := { stream := leBytes 32 s.bestHash.val }
  match (scanRows s.store.coins).foldlM HashScan.row start with
  | none => ((s.refuse .hashScanFailed).1, none)
  | some scan => (s, some (scan.finish hasher s.bestHash s.bestHeight))

/-! ## What folding a block does -/

theorem coinIn_touch (store : FoldStore) (w : Overlay × FoldJournal) (op : Outpoint)
    (change : Option Coin) :
    coinIn store (touch w op change).1 = Function.update (coinIn store w.1) op change :=
  WriteBack.view_insert w.1 store.coins op change

theorem rollback_touch (w : Overlay × FoldJournal) (op : Outpoint) (change : Option Coin) :
    rollback (touch w op change).1 (touch w op change).2 = rollback w.1 w.2 := by
  unfold touch rollback
  rw [foldl_cons]
  congr 1
  ext1 x
  cases hop : w.1.lookup op with
  | none =>
    rw [lookup_erase, lookup_insert]
    by_cases hx : x = op
    · simp [hx, hop]
    · simp [hx]
  | some old =>
    rw [lookup_insert, lookup_insert]
    by_cases hx : x = op
    · simp [hx, hop]
    · simp [hx]

variable {store : FoldStore} {height : U32} {w : Overlay × FoldJournal} {isCoinbase : Bool}
  {txid : Uint256} {vin : List Outpoint} {r : (Overlay × FoldJournal) × List Coin}
  {coins : List (Outpoint × Coin)} {tx : Tx} {txs : List Tx} {e : FoldRefusal × Overlay}

theorem spendVin_ok (h : spendVin store height txid w vin = .ok r) :
    coinIn store r.1.1 = CoinSet.spendAll (coinIn store w.1) vin ∧
      r.2.map some = CoinSet.taken (coinIn store w.1) vin ∧
      CoinSet.Spendable (coinIn store w.1) vin ∧
      rollback r.1.1 r.1.2 = rollback w.1 w.2 := by
  induction vin generalizing w r with
  | nil =>
    rw [← Except.ok.inj h]
    exact ⟨rfl, rfl, trivial, rfl⟩
  | cons op vin ih =>
    unfold spendVin at h
    cases hop : coinIn store w.1 op with
    | none => simp [hop] at h
    | some spent =>
      rw [hop] at h
      obtain ⟨rest, hrest, hr⟩ := bind_eq_ok.mp h
      rw [← Except.ok.inj hr]
      obtain ⟨hview, hcoins, hspendable, hrollback⟩ := ih hrest
      rw [coinIn_touch] at hview hcoins hspendable
      rw [rollback_touch] at hrollback
      refine ⟨hview, ?_, ⟨?_, hspendable⟩, hrollback⟩
      · rw [map_cons, hcoins, CoinSet.taken, hop]
      · rw [hop]
        exact Option.some_ne_none spent

theorem spendVin_error (h : spendVin store height txid w vin = .error e) :
    e.2 = rollback w.1 w.2 := by
  induction vin generalizing w with
  | nil => cases h
  | cons op vin ih =>
    unfold spendVin at h
    cases hop : coinIn store w.1 op with
    | none =>
      rw [hop] at h
      rw [← Except.error.inj h]
    | some spent =>
      rw [hop] at h
      obtain hrest | ⟨rest, -, hr⟩ := bind_eq_error.mp h
      · rw [ih hrest, rollback_touch]
      · cases hr

theorem addVout_ok {r : Overlay × FoldJournal} (h : addVout store height w coins = .ok r) :
    coinIn store r.1 = CoinSet.createAll (coinIn store w.1) coins ∧
      CoinSet.Fresh (coinIn store w.1) coins ∧ rollback r.1 r.2 = rollback w.1 w.2 := by
  induction coins generalizing w with
  | nil =>
    rw [← Except.ok.inj h]
    exact ⟨rfl, trivial, rfl⟩
  | cons e coins ih =>
    unfold addVout at h
    split at h
    · cases h
    rename_i hfree
    obtain ⟨hview, hfresh, hrollback⟩ := ih h
    rw [coinIn_touch] at hview hfresh
    rw [rollback_touch] at hrollback
    exact ⟨hview, ⟨by simpa using hfree, hfresh⟩, hrollback⟩

theorem addVout_error (h : addVout store height w coins = .error e) : e.2 = rollback w.1 w.2 := by
  induction coins generalizing w with
  | nil => cases h
  | cons c coins ih =>
    unfold addVout at h
    split at h
    · rw [← Except.error.inj h]
    · rw [ih h, rollback_touch]

def foldSpendings (height : U32) (isCoinbase : Bool) (txs : List Tx) :
    List (CoinSet.Spending Outpoint Coin) :=
  spendings true height (fun _ => false) isCoinbase txs

theorem spendTx_ok (h : spendTx store height isCoinbase w tx = .ok r) :
    let inputs := (spending true height isCoinbase false tx).inputs
    coinIn store r.1.1 = CoinSet.spendAll (coinIn store w.1) inputs ∧
      r.2.map some = CoinSet.taken (coinIn store w.1) inputs ∧
      CoinSet.Spendable (coinIn store w.1) inputs ∧
      rollback r.1.1 r.1.2 = rollback w.1 w.2 := by
  cases isCoinbase with
  | true =>
    rw [← Except.ok.inj h]
    exact ⟨rfl, rfl, trivial, rfl⟩
  | false => exact spendVin_ok h

theorem spendTx_error (h : spendTx store height isCoinbase w tx = .error e) :
    e.2 = rollback w.1 w.2 := by
  cases isCoinbase with
  | true => cases h
  | false => exact spendVin_error h

theorem applyTxs_error
    (h : applyTxs store height isCoinbase w txs = .error e) : e.2 = rollback w.1 w.2 := by
  induction txs generalizing isCoinbase w with
  | nil => cases h
  | cons tx txs ih =>
    unfold applyTxs at h
    obtain hspent | ⟨spent, hspent, h⟩ := bind_eq_error.mp h
    · exact spendTx_error hspent
    have hback := (spendTx_ok hspent).2.2.2
    obtain hadded | ⟨added, hadded, h⟩ := bind_eq_error.mp h
    · rw [addVout_error hadded, hback]
    obtain hrest | ⟨rest, -, h⟩ := bind_eq_error.mp h
    · rw [ih hrest, (addVout_ok hadded).2.2, hback]
    · cases h

theorem applyBlockTxs_error {s : ReplayUtxoFold} {block : FoldBlock}
    (h : s.applyBlockTxs height block = .error e) : e.2 = s.overlay := by
  unfold applyBlockTxs at h
  split at h
  · rw [← Except.error.inj h]
  · exact applyTxs_error h

def undoEntries (txs : List Tx) (txUndos : List TxUndo) : List (List (Outpoint × Option Coin)) :=
  List.zipWith (fun tx tu => tx.vin.zip (tu.spentCoins.map some)) txs txUndos

/-- The record has one entry for each transaction of the body, with one coin for each input. -/
def Fits (txs : List Tx) (txUndos : List TxUndo) : Prop :=
  List.Forall₂ (fun tx tu => tu.spentCoins.length = tx.vin.length) txs txUndos

theorem applyTxs_ok {r : Overlay × BlockUndo} (h : applyTxs store height isCoinbase w txs = .ok r) :
    coinIn store r.1 =
        CoinSet.afterAll (coinIn store w.1) (foldSpendings height isCoinbase txs) ∧
      CoinSet.Accepts (coinIn store w.1) (foldSpendings height isCoinbase txs) ∧
      r.2.addedOutpoints = CoinSet.createdKeys (foldSpendings height isCoinbase txs) ∧
      Fits (if isCoinbase then txs.drop 1 else txs) r.2.txUndos ∧
      undoEntries (if isCoinbase then txs.drop 1 else txs) r.2.txUndos =
        (CoinSet.records (coinIn store w.1) (foldSpendings height isCoinbase txs)).drop
          (if isCoinbase then 1 else 0) := by
  induction txs generalizing isCoinbase w r with
  | nil =>
    rw [← Except.ok.inj h]
    refine ⟨rfl, trivial, rfl, ?_, ?_⟩
    · cases isCoinbase <;> exact List.Forall₂.nil
    · cases isCoinbase <;> rfl
  | cons tx txs ih =>
    unfold applyTxs at h
    obtain ⟨spent, hspent, h⟩ := bind_eq_ok.mp h
    obtain ⟨added, hadded, h⟩ := bind_eq_ok.mp h
    obtain ⟨rest, hrest, h⟩ := bind_eq_ok.mp h
    obtain ⟨hview, hcoins, hspendable, -⟩ := spendTx_ok hspent
    obtain ⟨hmade, hfresh, -⟩ := addVout_ok hadded
    obtain ⟨hafter, haccepts, hops, hfits, hentries⟩ := ih hrest
    rw [hview] at hmade hfresh
    rw [hmade] at hafter haccepts hentries
    rw [← Except.ok.inj h]
    refine ⟨hafter, ⟨hspendable, hfresh, haccepts⟩, ?_, ?_, ?_⟩
    · dsimp only
      rw [hops]
      rfl
    · cases isCoinbase with
      | true => exact hfits
      | false =>
        refine List.Forall₂.cons ?_ hfits
        have hlength := congrArg List.length hcoins
        rwa [length_map, CoinSet.length_taken] at hlength
    · cases isCoinbase with
      | true => exact hentries
      | false =>
        simp only [Bool.false_eq_true, if_false, drop_zero] at hentries ⊢
        unfold undoEntries at hentries ⊢
        rw [zipWith_cons_cons, hentries, hcoins]
        rfl

end ReplayUtxoFold

end C2Pool.Utxo
