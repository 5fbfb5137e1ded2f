import C2Pool.Utxo.Coins

/-! # The coin view

A cache of coin changes over a store (`core/coin/utxo_view_cache.hpp`,
`core/coin/utxo_view_db.hpp`).  A block is connected in partial mode, which takes an
input it does not know as an empty coin, or in strict mode, which refuses the block.
-/

namespace C2Pool.Utxo

open CoinSet (Spending)
open List Except Function

/-- `static_cast<int64_t>`. -/
def toInt64 (v : U64) : Int := if v.val < 2 ^ 63 then v.val else v.val - 2 ^ 64

/-- `SyncState`; an anchor of `none` is `ANCHOR_UNKNOWN`. -/
structure SyncState where
  anchorHeight : Option U32 := none
  bestHeight : U32 := 0
  strict : Bool := false
  synced : Bool := false
  coins : U64 := 0
deriving DecidableEq

def SyncState.tracked (s : SyncState) : Bool := s.anchorHeight.isSome

/-- `UTXOViewDB`: the coin records, the best block and the sync state. -/
structure UTXOViewDB where
  coins : SortedMap Outpoint (List Byte) := ∅
  bestBlock : Uint256 := 0
  bestHeight : U32 := 0
  sync : SyncState := {}
deriving DecidableEq

/-- `UTXOViewCache`: the changes not flushed yet, over a store that may be missing. -/
structure UTXOViewCache where
  cache : SortedMap Outpoint (Option Coin) := ∅
  base : Option UTXOViewDB := none
  coinDelta : Int := 0
  blocksConnected : U32 := 0
deriving DecidableEq

structure Block where
  txs : List Tx
  height : U32
  hash : Uint256 := 0

namespace UTXOViewCache

def baseCoins (s : UTXOViewCache) : SortedMap Outpoint (List Byte) :=
  match s.base with
  | none => ∅
  | some db => db.coins

def getCoin (s : UTXOViewCache) : Outpoint → Option Coin :=
  WriteBack.view deserializeCoin s.cache s.baseCoins

def addCoin (s : UTXOViewCache) (op : Outpoint) (coin : Coin) : UTXOViewCache :=
  { s with cache := s.cache.insert op (some coin) }

def spend (s : UTXOViewCache) (op : Outpoint) : UTXOViewCache :=
  { s with cache := s.cache.insert op none }

def spendInputs : UTXOViewCache → List Outpoint → UTXOViewCache × List Coin
  | s, [] => (s, [])
  | s, op :: vin =>
    match s.getCoin op with
    | some spent =>
      let rest := spendInputs (s.spend op) vin
      (rest.1, spent :: rest.2)
    | none =>
      let rest := spendInputs s vin
      (rest.1, { value := 0, scriptPubKey := ⟨[], by decide⟩, height := 0, coinbase := false }
        :: rest.2)

/-- The loop over the transactions, from the first. -/
def connectTxs (height : U32) : Bool → UTXOViewCache → List Tx → UTXOViewCache × BlockUndo
  | _, s, [] => (s, {})
  | isCoinbase, s, tx :: txs =>
    let spent := if isCoinbase then (s, []) else s.spendInputs tx.vin
    let coins := addedCoins false height isCoinbase tx.hogEx tx
    let rest := connectTxs height false (coins.foldl (fun s e => s.addCoin e.1 e.2) spent.1) txs
    (rest.1,
      { rest.2 with
        txUndos := if isCoinbase then rest.2.txUndos else ⟨spent.2, tx.vin⟩ :: rest.2.txUndos
        addedOutpoints := coins.map Prod.fst ++ rest.2.addedOutpoints })

/-- `connect_block` without the mode. -/
def connectPartial (s : UTXOViewCache) (block : Block) : UTXOViewCache × BlockUndo :=
  let r := connectTxs block.height true s block.txs
  ({ r.1 with blocksConnected := r.1.blocksConnected + 1 }, { r.2 with blockHash := block.hash })

structure StrictRefusal where
  missing : Outpoint
  txid : Uint256
  txIndex : U32
  spentInBlock : Bool
deriving DecidableEq

/-- `lookup`: the change of the block, or the coin of the view. -/
def lookupIn (s : UTXOViewCache) (overlay : SortedMap Outpoint (Option Coin)) (op : Outpoint) :
    Option Coin :=
  match overlay.lookup op with
  | some change => change
  | none => s.getCoin op

/-- The input loop over the changes of the block. -/
def spendStrict (s : UTXOViewCache) (txid : Uint256) (t : Nat) :
    SortedMap Outpoint (Option Coin) → List Outpoint →
      Except StrictRefusal (SortedMap Outpoint (Option Coin) × List Coin)
  | overlay, [] => .ok (overlay, [])
  | overlay, op :: vin =>
    match s.lookupIn overlay op with
    | none => .error ⟨op, txid, Fin.ofNat _ t, overlay.lookup op = some none⟩
    | some spent => do
        let rest ← spendStrict s txid t (overlay.insert op none) vin
        return (rest.1, spent :: rest.2)

/-- The inputs of the transaction at the position `t`: a coinbase spends nothing. -/
def spendTxStrict (s : UTXOViewCache) (t : Nat) (overlay : SortedMap Outpoint (Option Coin))
    (tx : Tx) : Except StrictRefusal (SortedMap Outpoint (Option Coin) × List Coin) :=
  if t == 0 then .ok (overlay, []) else s.spendStrict tx.txid t overlay tx.vin

/-- What the strict loop has gathered: the changes, the record and the change of the count. -/
structure Gathered where
  overlay : SortedMap Outpoint (Option Coin) := ∅
  undo : BlockUndo := {}
  delta : Int := 0

/-- The loop over the transactions, from the position `t`. -/
def connectTxsStrict (s : UTXOViewCache) (height : U32) :
    Nat → SortedMap Outpoint (Option Coin) → List Tx → Except StrictRefusal Gathered
  | _, overlay, [] => .ok { overlay := overlay }
  | t, overlay, tx :: txs => do
      let isCoinbase := t == 0
      let spent ← s.spendTxStrict t overlay tx
      let coins := addedCoins true height isCoinbase tx.hogEx tx
      let rest ← connectTxsStrict s height (t + 1)
        (coins.foldl (fun o e => o.insert e.1 (some e.2)) spent.1) txs
      let txUndos :=
        if isCoinbase then rest.undo.txUndos else ⟨spent.2, tx.vin⟩ :: rest.undo.txUndos
      return {
        overlay := rest.overlay
        undo :=
          { rest.undo with
            txUndos := txUndos
            addedOutpoints := coins.map Prod.fst ++ rest.undo.addedOutpoints }
        delta := rest.delta + coins.length - spent.2.length }

/-- `connect_block` in strict mode: the changes reach the view only when every input was found. -/
def connectStrict (s : UTXOViewCache) (block : Block) :
    UTXOViewCache × Except StrictRefusal BlockUndo :=
  match s.connectTxsStrict block.height 0 ∅ block.txs with
  | .error why => (s, .error why)
  | .ok g =>
    ({ s with
        cache := g.overlay.entries.foldl (fun cache e => cache.insert e.1 e.2) s.cache
        coinDelta := s.coinDelta + g.delta
        blocksConnected := s.blocksConnected + 1 },
      .ok { g.undo with blockHash := block.hash })

/-- `connect_block` with the mode. -/
def connectBlock (s : UTXOViewCache) (block : Block) (strict : Bool) :
    UTXOViewCache × Except StrictRefusal BlockUndo :=
  if strict then s.connectStrict block
  else ((s.connectPartial block).1, .ok (s.connectPartial block).2)

def restoreCoin (everyCoinKnown : Bool) (s : UTXOViewCache) (e : Outpoint × Coin) : UTXOViewCache :=
  if !everyCoinKnown && e.2.isSpent then s
  else
    { s.addCoin e.1 e.2 with
      coinDelta := s.coinDelta + if (s.getCoin e.1).isSome then 0 else 1 }

def removeCoin (s : UTXOViewCache) (op : Outpoint) : UTXOViewCache :=
  { s.spend op with coinDelta := s.coinDelta - if (s.getCoin op).isSome then 1 else 0 }

def disconnectLocked (s : UTXOViewCache) (undo : BlockUndo) (everyCoinKnown : Bool) :
    UTXOViewCache :=
  let spent := undo.txUndos.reverse.flatMap fun tu => (tu.spentOutpoints.zip tu.spentCoins).reverse
  undo.addedOutpoints.foldl removeCoin (spent.foldl (restoreCoin everyCoinKnown) s)

def disconnectFromUndo (s : UTXOViewCache) (undo : BlockUndo) (everyCoinKnown : Bool) :
    UTXOViewCache × Bool :=
  if undo.restorable then (s.disconnectLocked undo everyCoinKnown, true)
  else (undo.addedOutpoints.foldl spend s, false)

/-- A flush of the caller: the best block it names, and whether the batch commits. -/
structure Flush where
  bestBlock : Uint256
  bestHeight : U32
  commits : Bool := true

/-- `UTXOViewDB::write_batch`, when the batch commits. -/
def writeBatch (db : UTXOViewDB) (changes : SortedMap Outpoint (Option Coin)) (f : Flush)
    (coinDelta : Int) : UTXOViewDB where
  coins := WriteBack.commit serializeCoin changes db.coins
  bestBlock := f.bestBlock
  bestHeight := f.bestHeight
  sync :=
    if db.sync.tracked then
      let coins := toInt64 db.sync.coins + coinDelta
      { db.sync with
        bestHeight := f.bestHeight
        coins := if 0 < coins then Fin.ofNat (2 ^ 64) coins.toNat else 0 }
    else db.sync

def flush (s : UTXOViewCache) (f : Flush) : UTXOViewCache × Bool :=
  match s.base with
  | none => (s, false)
  | some db =>
    if f.commits then
      ({ s with cache := ∅, base := some (writeBatch db s.cache f s.coinDelta), coinDelta := 0 },
        true)
    else (s, false)

/-! ## What the view holds -/

theorem getCoin_addCoin (s : UTXOViewCache) (op : Outpoint) (coin : Coin) :
    (s.addCoin op coin).getCoin = Function.update s.getCoin op (some coin) :=
  WriteBack.view_insert s.cache s.baseCoins op (some coin)

theorem getCoin_spend (s : UTXOViewCache) (op : Outpoint) :
    (s.spend op).getCoin = Function.update s.getCoin op none :=
  WriteBack.view_insert s.cache s.baseCoins op none

theorem getCoin_addCoins (s : UTXOViewCache) (coins : List (Outpoint × Coin)) :
    (coins.foldl (fun s e => s.addCoin e.1 e.2) s).getCoin = CoinSet.createAll s.getCoin coins := by
  unfold CoinSet.createAll
  induction coins generalizing s with
  | nil => rfl
  | cons e coins ih => rw [foldl_cons, foldl_cons, ih, getCoin_addCoin]

def unknownCoin : Coin :=
  { value := 0, scriptPubKey := ⟨[], by decide⟩, height := 0, coinbase := false }

theorem spendInputs_spec (s : UTXOViewCache) (vin : List Outpoint) :
    (s.spendInputs vin).1.getCoin = CoinSet.spendAll s.getCoin vin ∧
      (s.spendInputs vin).2 = (CoinSet.taken s.getCoin vin).map (Option.getD · unknownCoin) := by
  unfold CoinSet.spendAll
  induction vin generalizing s with
  | nil => exact ⟨rfl, rfl⟩
  | cons op vin ih =>
    unfold spendInputs
    cases hop : s.getCoin op with
    | some spent =>
      obtain ⟨hview, hcoins⟩ := ih (s.spend op)
      rw [getCoin_spend] at hview hcoins
      dsimp only
      rw [hview, hcoins, CoinSet.taken, hop]
      exact ⟨rfl, rfl⟩
    | none =>
      obtain ⟨hview, hcoins⟩ := ih s
      have hsame : Function.update s.getCoin op none = s.getCoin := by
        rw [← hop, Function.update_eq_self]
      dsimp only
      rw [hview, hcoins, CoinSet.taken, hop, hsame, foldl_cons, hsame]
      exact ⟨rfl, rfl⟩

def entries (everyCoinKnown : Bool) (tu : TxUndo) : List (Outpoint × Option Coin) :=
  (tu.spentOutpoints.zip tu.spentCoins).map fun e =>
    (e.1, if !everyCoinKnown && e.2.isSpent then none else some e.2)

def Solid (ops : List Outpoint) (view : Outpoint → Option Coin) : Prop :=
  ∀ op ∈ ops, ∀ c, view op = some c → c.isSpent = false

variable {ops : List Outpoint} {view : Outpoint → Option Coin} {t : Nat}
  {overlay : SortedMap Outpoint (Option Coin)} {height : U32} {vin : List Outpoint}
  {s : UTXOViewCache} {r : SortedMap Outpoint (Option Coin) × List Coin}

theorem Solid.update_none
    (h : Solid ops view) (op : Outpoint) : Solid ops (Function.update view op none) := by
  intro x hx c hc
  rw [update_apply] at hc
  split at hc
  · cases hc
  · exact h x hx c hc

theorem addedCoins_solid {isCoinbase isHogex : Bool} {tx : Tx} {e : Outpoint × Coin}
    (he : e ∈ addedCoins false height isCoinbase isHogex tx) : e.2.isSpent = false := by
  obtain ⟨o, -, ho⟩ := mem_filterMap.mp he
  split at ho
  · cases ho
  split at ho
  · cases ho
  rename_i hvalue
  rw [← Option.some.inj ho]
  simp only [Bool.not_false, and_true] at hvalue
  simp [Coin.isSpent, hvalue]

theorem entries_taken (h : Solid vin view) :
    entries false ⟨(CoinSet.taken view vin).map (Option.getD · unknownCoin), vin⟩ =
      vin.zip (CoinSet.taken view vin) := by
  suffices hgen : ∀ ops : List Outpoint, (∀ op ∈ vin, op ∈ ops) → Solid ops view →
      entries false ⟨(CoinSet.taken view vin).map (Option.getD · unknownCoin), vin⟩ =
        vin.zip (CoinSet.taken view vin) from hgen vin (fun _ hop => hop) h
  intro ops hsub hsolid
  clear h
  unfold entries
  induction vin generalizing view with
  | nil => rfl
  | cons op vin ih =>
    have hrest := ih (fun x hx => hsub x (mem_cons_of_mem _ hx)) (hsolid.update_none op)
    rw [CoinSet.taken, map_cons, zip_cons_cons, map_cons, zip_cons_cons, hrest]
    cases hop : view op with
    | none => rfl
    | some c => simp [hsolid op (hsub op mem_cons_self) c hop]

theorem Solid.mono {ops' : List Outpoint} (h : Solid ops view) (hsub : ops' ⊆ ops) :
    Solid ops' view :=
  fun op hop => h op (hsub hop)

theorem Solid.after (h : Solid ops view) (height : U32) (isCoinbase : Bool) (tx : Tx) :
    Solid ops (CoinSet.after view (spending false height isCoinbase tx.hogEx tx)) := by
  intro op hop c hc
  obtain hold | hnew := CoinSet.after_eq_some hc
  · exact h op hop c hold
  · exact addedCoins_solid hnew

theorem spent_spec (height : U32) (isCoinbase : Bool) (s : UTXOViewCache) (tx : Tx) :
    (if isCoinbase then (s, []) else s.spendInputs tx.vin).1.getCoin =
      CoinSet.spendAll s.getCoin (spending false height isCoinbase tx.hogEx tx).inputs := by
  cases isCoinbase with
  | true => rfl
  | false => exact (spendInputs_spec s tx.vin).1

theorem connectTxs_spec (height : U32) (isCoinbase : Bool) (s : UTXOViewCache) (txs : List Tx) :
    (connectTxs height isCoinbase s txs).1.getCoin =
        CoinSet.afterAll s.getCoin (spendings false height Tx.hogEx isCoinbase txs) ∧
      (connectTxs height isCoinbase s txs).2.addedOutpoints =
        CoinSet.createdKeys (spendings false height Tx.hogEx isCoinbase txs) ∧
      (connectTxs height isCoinbase s txs).2.txUndos.all TxUndo.hasOutpoints ∧
      (Solid (CoinSet.spentKeys (spendings false height Tx.hogEx isCoinbase txs)) s.getCoin →
        (connectTxs height isCoinbase s txs).2.txUndos.map (entries false) =
          (CoinSet.records s.getCoin (spendings false height Tx.hogEx isCoinbase txs)).drop
            (if isCoinbase then 1 else 0)) := by
  induction txs generalizing isCoinbase s with
  | nil =>
    refine ⟨rfl, rfl, rfl, fun _ => ?_⟩
    simp [connectTxs, spendings, CoinSet.records]
  | cons tx txs ih =>
    have hspent := spent_spec height isCoinbase s tx
    obtain ⟨hview, hadded, hall, hrecords⟩ := ih false
      ((addedCoins false height isCoinbase tx.hogEx tx).foldl (fun s e => s.addCoin e.1 e.2)
        (if isCoinbase then (s, []) else s.spendInputs tx.vin).1)
    rw [getCoin_addCoins, hspent] at hview hrecords
    unfold connectTxs
    dsimp only
    refine ⟨hview, ?_, ?_, ?_⟩
    · rw [hadded]
      rfl
    · cases isCoinbase with
      | true => exact hall
      | false =>
        have hlength : (s.spendInputs tx.vin).2.length = tx.vin.length := by
          rw [(spendInputs_spec s tx.vin).2, length_map, CoinSet.length_taken]
        simpa [TxUndo.hasOutpoints, hlength] using hall
    · intro hsolid
      have hlater : Solid (CoinSet.spentKeys (spendings false height Tx.hogEx false txs))
          (CoinSet.createAll (CoinSet.spendAll s.getCoin
            (spending false height isCoinbase tx.hogEx tx).inputs)
            (addedCoins false height isCoinbase tx.hogEx tx)) := by
        apply Solid.after _ height isCoinbase tx
        exact hsolid.mono (subset_append_right _ _)
      have hrest := hrecords hlater
      cases isCoinbase with
      | true => exact hrest
      | false =>
        have hnow : Solid tx.vin s.getCoin := hsolid.mono (subset_append_left _ _)
        have hentries := entries_taken hnow
        rw [← (spendInputs_spec s tx.vin).2] at hentries
        simp only [Bool.false_eq_true, if_false, map_cons, drop_zero] at hrest ⊢
        rw [hrest, hentries]
        rfl

theorem lookupIn_insert (s : UTXOViewCache) (overlay : SortedMap Outpoint (Option Coin))
    (op : Outpoint) (change : Option Coin) :
    s.lookupIn (overlay.insert op change) = Function.update (s.lookupIn overlay) op change := by
  funext x
  unfold lookupIn
  rw [SortedMap.lookup_insert, update_apply]
  by_cases hx : x = op
  · simp [hx]
  · simp [hx]

theorem lookupIn_addCoins (s : UTXOViewCache) (overlay : SortedMap Outpoint (Option Coin))
    (coins : List (Outpoint × Coin)) :
    s.lookupIn (coins.foldl (fun o e => o.insert e.1 (some e.2)) overlay) =
      CoinSet.createAll (s.lookupIn overlay) coins := by
  unfold CoinSet.createAll
  induction coins generalizing overlay with
  | nil => rfl
  | cons e coins ih => rw [foldl_cons, foldl_cons, ih, lookupIn_insert]

theorem spendStrict_ok {txid : Uint256} (h : s.spendStrict txid t overlay vin = .ok r) :
    s.lookupIn r.1 = CoinSet.spendAll (s.lookupIn overlay) vin ∧
      r.2.map some = CoinSet.taken (s.lookupIn overlay) vin ∧
      CoinSet.Spendable (s.lookupIn overlay) vin := by
  induction vin generalizing overlay r with
  | nil =>
    rw [← ok.inj h]
    exact ⟨rfl, rfl, trivial⟩
  | cons op vin ih =>
    unfold spendStrict at h
    cases hop : s.lookupIn overlay op with
    | none => simp [hop] at h
    | some spent =>
      rw [hop] at h
      obtain ⟨rest, hrest, hr⟩ := PartialRun.bind_eq_ok.mp h
      rw [← ok.inj hr]
      obtain ⟨hview, hcoins, hspendable⟩ := ih hrest
      rw [lookupIn_insert] at hview hcoins hspendable
      refine ⟨hview, ?_, ?_, hspendable⟩
      · rw [map_cons, hcoins, CoinSet.taken, hop]
      · rw [hop]
        exact Option.some_ne_none spent

theorem entries_known (vin : List Outpoint) (coins : List Coin) :
    entries true ⟨coins, vin⟩ = vin.zip (coins.map some) := by
  rw [zip_map_right]
  rfl

theorem spendTxStrict_ok (height : U32) {tx : Tx} (h : s.spendTxStrict t overlay tx = .ok r) :
    s.lookupIn r.1 = CoinSet.spendAll (s.lookupIn overlay)
        (spending true height (t == 0) tx.hogEx tx).inputs ∧
      r.2.map some = CoinSet.taken (s.lookupIn overlay)
        (spending true height (t == 0) tx.hogEx tx).inputs ∧
      CoinSet.Spendable (s.lookupIn overlay)
        (spending true height (t == 0) tx.hogEx tx).inputs := by
  unfold spendTxStrict at h
  cases ht : t == 0 with
  | true =>
    rw [ht, if_pos rfl] at h
    rw [← ok.inj h]
    exact ⟨rfl, rfl, trivial⟩
  | false =>
    rw [ht] at h
    exact spendStrict_ok h

theorem connectTxsStrict_ok {txs : List Tx} {g : Gathered}
    (h : s.connectTxsStrict height t overlay txs = .ok g) :
    s.lookupIn g.overlay =
        CoinSet.afterAll (s.lookupIn overlay) (spendings true height Tx.hogEx (t == 0) txs) ∧
      g.undo.addedOutpoints = CoinSet.createdKeys (spendings true height Tx.hogEx (t == 0) txs) ∧
      (g.undo.txUndos.all TxUndo.hasOutpoints ∧ g.undo.txUndos.flatMap TxUndo.spentOutpoints =
        CoinSet.spentKeys (spendings true height Tx.hogEx (t == 0) txs)) ∧
      g.undo.txUndos.map (entries true) =
        (CoinSet.records (s.lookupIn overlay)
          (spendings true height Tx.hogEx (t == 0) txs)).drop (if t == 0 then 1 else 0) ∧
      g.delta = CoinSet.net (spendings true height Tx.hogEx (t == 0) txs) ∧
      CoinSet.SpendableAll (s.lookupIn overlay)
        (spendings true height Tx.hogEx (t == 0) txs) := by
  induction txs generalizing t overlay g with
  | nil =>
    rw [← Except.ok.inj h]
    refine ⟨rfl, rfl, ⟨rfl, rfl⟩, ?_, rfl, trivial⟩
    simp [spendings, CoinSet.records]
  | cons tx txs ih =>
    unfold connectTxsStrict at h
    obtain ⟨spent, hspent, h⟩ := PartialRun.bind_eq_ok.mp h
    obtain ⟨rest, hrest, hg⟩ := PartialRun.bind_eq_ok.mp h
    obtain ⟨hview, hcoins, hspendable⟩ := spendTxStrict_ok height hspent
    obtain ⟨hafter, hadded, ⟨hall, hspentOps⟩, hrecords, hdelta, hlater⟩ := ih hrest
    rw [lookupIn_addCoins, hview] at hafter hrecords hlater
    have hnext : (t + 1 == 0) = false := rfl
    have hlength : spent.2.length = (spending true height (t == 0) tx.hogEx tx).inputs.length := by
      rw [← CoinSet.length_taken (s.lookupIn overlay), ← hcoins, length_map]
    rw [hnext] at hafter hadded hspentOps hrecords hdelta hlater
    rw [← Except.ok.inj hg]
    refine ⟨hafter, ?_, ?_, ?_, ?_, hspendable, hlater⟩
    · dsimp only
      rw [hadded]
      rfl
    · cases ht : t == 0 with
      | true =>
        exact ⟨hall, hspentOps⟩
      | false =>
        rw [ht] at hlength
        simp only [Bool.false_eq_true, if_false]
        refine ⟨?_, ?_⟩
        · rw [all_cons, hall, Bool.and_true]
          exact decide_eq_true hlength.symm
        · rw [flatMap_cons, hspentOps]
          rfl
    · cases ht : t == 0 with
      | true =>
        rw [ht] at hrecords
        exact hrecords
      | false =>
        rw [ht] at hcoins hrecords
        simp only [Bool.false_eq_true, if_false, map_cons, drop_zero] at hrecords ⊢
        rw [hrecords, entries_known, hcoins]
        rfl
    · dsimp only
      rw [hdelta, hlength]
      unfold CoinSet.net
      rw [spendings, map_cons, sum_cons]
      simp only [spending]
      omega

end UTXOViewCache

end C2Pool.Utxo
