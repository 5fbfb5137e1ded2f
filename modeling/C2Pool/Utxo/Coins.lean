import C2Pool.Lib.WriteBack
import C2Pool.Lib.CoinSet
import Mathlib.Data.Nat.Bitwise

/-! # Coins

Unspent outputs and the records that undo a block (`core/coin/utxo.hpp`), with the
byte format in which a store keeps a coin.
-/

namespace C2Pool.Utxo

open List Nat

abbrev Byte := Fin 256

abbrev U32 := Fin (2 ^ 32)

abbrev U64 := Fin (2 ^ 64)

abbrev Uint256 := Fin (2 ^ 256)

/-- `OPScript`; its length is a `size_t`. -/
abbrev OPScript := { data : List Byte // data.length < 2 ^ 64 }

/-- `Outpoint`, in the order of `operator<`. -/
abbrev Outpoint := Uint256 ×ₗ U32

def isUnspendable (script : OPScript) : Bool :=
  match script.val with
  | [] => false
  | b :: _ => b = 0x6a ∨ 10000 < script.val.length

/-- `Coin`; the value is an `int64_t` by its bits. -/
structure Coin where
  value : U64
  scriptPubKey : OPScript
  height : U32
  coinbase : Bool
  pegout : Bool := false
deriving DecidableEq

def Coin.isSpent (c : Coin) : Bool := c.value = 0 ∧ c.scriptPubKey.val = []

structure TxOut where
  value : U64
  scriptPubKey : OPScript
deriving DecidableEq

def opTrue : OPScript := ⟨[0x51], by decide⟩

theorem nil_fits : ([] : List TxOut).length < 2 ^ 32 := by decide

/-- What the coin code reads of a transaction: its id as the caller's function answers it, the
outpoints it spends, its outputs and whether it is a HogEx. -/
structure Tx where
  txid : Uint256
  vin : List Outpoint := []
  vout : List TxOut := []
  hogEx : Bool := false
  fits : vout.length < 2 ^ 32 := by first | exact nil_fits | decide
deriving DecidableEq

structure TxUndo where
  spentCoins : List Coin := []
  spentOutpoints : List Outpoint := []
deriving DecidableEq

def TxUndo.hasOutpoints (u : TxUndo) : Bool := u.spentOutpoints.length = u.spentCoins.length

structure BlockUndo where
  txUndos : List TxUndo := []
  addedOutpoints : List Outpoint := []
  blockHash : Uint256 := 0
deriving DecidableEq

def BlockUndo.unrestorableCoins (u : BlockUndo) : Nat :=
  (u.txUndos.map fun tu =>
    if tu.hasOutpoints then 0 else tu.spentCoins.countP fun c => !c.isSpent).sum

def BlockUndo.restorable (u : BlockUndo) : Bool := u.unrestorableCoins = 0

def addedCoins (keepZero : Bool) (height : U32) (isCoinbase isHogex : Bool) (tx : Tx) :
    List (Outpoint × Coin) :=
  tx.vout.zipIdx.filterMap fun o =>
    if isUnspendable o.1.scriptPubKey then none
    else if o.1.value = 0 ∧ !keepZero then none
    else some (toLex (tx.txid, Fin.ofNat _ o.2),
      { value := o.1.value, scriptPubKey := o.1.scriptPubKey, height := height,
        coinbase := isCoinbase, pegout := isHogex && decide (0 < o.2) })

def spending (keepZero : Bool) (height : U32) (isCoinbase isHogex : Bool) (tx : Tx) :
    CoinSet.Spending Outpoint Coin where
  inputs := if isCoinbase then [] else tx.vin
  outputs := addedCoins keepZero height isCoinbase isHogex tx

def spendings (keepZero : Bool) (height : U32) (hogEx : Tx → Bool) :
    Bool → List Tx → List (CoinSet.Spending Outpoint Coin)
  | _, [] => []
  | isCoinbase, tx :: txs =>
    spending keepZero height isCoinbase (hogEx tx) tx :: spendings keepZero height hogEx false txs

variable {height : U32} {shift v w x i : Nat}

theorem mem_spendings {keepZero isCoinbase : Bool} {hogEx : Tx → Bool} {txs : List Tx}
    {t : CoinSet.Spending Outpoint Coin} (h : t ∈ spendings keepZero height hogEx isCoinbase txs) :
    ∃ tx c, t = spending keepZero height c (hogEx tx) tx := by
  induction txs generalizing isCoinbase with
  | nil => cases h
  | cons tx txs ih =>
    obtain rfl | hrest := mem_cons.mp h
    · exact ⟨tx, isCoinbase, rfl⟩
    · exact ih hrest

theorem height_of_mem_addedCoins {keepZero isCoinbase isHogex : Bool} {tx : Tx}
    {e : Outpoint × Coin} (he : e ∈ addedCoins keepZero height isCoinbase isHogex tx) :
    e.2.height = height := by
  obtain ⟨o, -, ho⟩ := mem_filterMap.mp he
  split at ho
  · cases ho
  split at ho
  · cases ho
  · rw [← Option.some.inj ho]

/-- The groups of `write_varint`, of which a 64-bit value has at most ten. -/
def varintGroups : Nat → Nat → List Byte
  | 0, v => [Fin.ofNat _ v]
  | n + 1, v =>
    if 128 ≤ v then Fin.ofNat _ (v % 128 + 128) :: varintGroups n (v / 128)
    else [Fin.ofNat _ v]

def writeVarint (v : U64) : List Byte := varintGroups 9 v.val

/-- The loop of `read_varint` from a shift and a partial value. -/
def readGroups : Nat → Nat → List Byte → Nat × List Byte
  | _, v, [] => (v, [])
  | shift, v, b :: rest =>
    let v := v ||| ((b.val % 128) <<< shift) % 2 ^ 64
    if b.val < 128 then (v, rest)
    else if 63 < shift + 7 then (0, rest)
    else readGroups (shift + 7) v rest

/-- `read_varint`: the value and the bytes after it. -/
def readVarint (data : List Byte) : U64 × List Byte :=
  ((Fin.ofNat _ (readGroups 0 0 data).1), (readGroups 0 0 data).2)

theorem or_shiftLeft (hv : v < 2 ^ shift) : v ||| w <<< shift = v + w * 2 ^ shift := by
  rw [Nat.shiftLeft_eq, Nat.or_comm, mul_comm, ← Nat.two_pow_add_eq_or_of_lt hv, add_comm]

theorem readGroups_last (tail : List Byte) (hv : v < 2 ^ shift) (hw : w < 128)
    (hfits : w * 2 ^ shift < 2 ^ 64) :
    readGroups shift v (Fin.ofNat 256 w :: tail) = (v + w * 2 ^ shift, tail) := by
  have hbyte : (Fin.ofNat 256 w).val = w := mod_eq_of_lt (by omega)
  have hor := or_shiftLeft (w := w) hv
  rw [Nat.shiftLeft_eq] at hor
  unfold readGroups
  rw [hbyte, if_pos hw, mod_eq_of_lt hw, Nat.shiftLeft_eq, mod_eq_of_lt hfits, hor]

theorem readGroups_varintGroups (n shift v w : Nat) (tail : List Byte) (hv : v < 2 ^ shift)
    (hw : w < 128 ^ (n + 1)) (hshift : shift + 7 * n ≤ 63) (hfits : w * 2 ^ shift < 2 ^ 64) :
    readGroups shift v (varintGroups n w ++ tail) = (v + w * 2 ^ shift, tail) := by
  induction n generalizing shift v w with
  | zero => exact readGroups_last tail hv (by simpa using hw) hfits
  | succ n ih =>
    unfold varintGroups
    by_cases hlong : 128 ≤ w
    · rw [if_pos hlong, cons_append]
      have hbyte : (Fin.ofNat 256 (w % 128 + 128)).val = w % 128 + 128 := mod_eq_of_lt (by omega)
      have hlow : (w % 128 + 128) % 128 = w % 128 := by omega
      have hsplit : w % 128 * 2 ^ shift + w / 128 * 2 ^ (shift + 7) = w * 2 ^ shift := by
        rw [pow_add, ← mul_assoc, mul_right_comm, ← add_mul, mul_comm (w / 128)]
        rw [show (2 : Nat) ^ 7 = 128 from rfl, mod_add_div]
      have hpart : w % 128 * 2 ^ shift < 2 ^ 64 := by omega
      have hor := or_shiftLeft (w := w % 128) hv
      rw [Nat.shiftLeft_eq] at hor
      have hvalue : v + w % 128 * 2 ^ shift < 2 ^ (shift + 7) := by
        have hle : w % 128 * 2 ^ shift ≤ 127 * 2 ^ shift := mul_le_mul_right _ (by omega)
        rw [pow_add]
        omega
      unfold readGroups
      rw [hbyte, hlow, Nat.shiftLeft_eq, mod_eq_of_lt hpart, hor, if_neg (by omega),
        if_neg (by omega), ih _ _ _ hvalue ?_ (by omega) (by omega), ← hsplit, add_assoc]
      exact Nat.div_lt_of_lt_mul (by omega)
    · rw [if_neg hlong]
      exact readGroups_last tail hv (by omega) hfits

theorem readVarint_writeVarint (v : U64) (tail : List Byte) :
    readVarint (writeVarint v ++ tail) = (v, tail) := by
  have hlt := v.isLt
  have hgroups : v.val < 128 ^ (9 + 1) := lt_of_lt_of_le hlt (by decide)
  have hfits : v.val * 2 ^ 0 < 2 ^ 64 := by simp
  unfold readVarint writeVarint
  rw [readGroups_varintGroups 9 0 0 v.val tail (by simp) hgroups (by simp) hfits]
  simp

/-! ## Coins in bytes -/

def coinCode (c : Coin) : Nat :=
  let code := c.height.val * 2 + if c.coinbase then 1 else 0
  if c.pegout then code ||| 2 ^ 31 else code

def serializeCoin (c : Coin) : List Byte :=
  writeVarint (Fin.ofNat _ (coinCode c)) ++ writeVarint c.value ++
    writeVarint (Fin.ofNat _ c.scriptPubKey.val.length) ++ c.scriptPubKey.val

def readScript (slen : U64) (rest : List Byte) : Option OPScript :=
  if h : slen.val ≤ rest.length then
    some ⟨rest.take slen.val, by
      rw [length_take, min_eq_left h]
      exact slen.isLt⟩
  else none

def deserializeCoin (data : List Byte) : Option Coin :=
  let code := readVarint data
  let value := readVarint code.2
  let slen := readVarint value.2
  let low := code.1.val - if code.1.val.testBit 31 then 2 ^ 31 else 0
  (readScript slen.1 slen.2).map fun script =>
    { value := value.1
      scriptPubKey := script
      height := Fin.ofNat _ (low / 2)
      coinbase := low.testBit 0
      pegout := code.1.val.testBit 31 }

/-- What a store answers for a coin.  The pegout flag stands in bit 31 of the first field, which a
height from `2 ^ 30` on also reaches. -/
def storedCoin (c : Coin) : Coin :=
  if c.height.val.testBit 30 then
    { c with height := Fin.ofNat _ (c.height.val - 2 ^ 30), pegout := true }
  else c

theorem storedCoin_value (c : Coin) : (storedCoin c).value = c.value := by
  unfold storedCoin
  split <;> rfl

theorem storedCoin_scriptPubKey (c : Coin) : (storedCoin c).scriptPubKey = c.scriptPubKey := by
  unfold storedCoin
  split <;> rfl

theorem storedCoin_coinbase (c : Coin) : (storedCoin c).coinbase = c.coinbase := by
  unfold storedCoin
  split <;> rfl

theorem storedCoin_of_low {c : Coin} (h : c.height.val.testBit 30 = false) : storedCoin c = c := by
  unfold storedCoin
  rw [h]
  rfl

theorem or_two_pow (h : x.testBit i = false) : x ||| 2 ^ i = x + 2 ^ i := by
  have hbit : x / 2 ^ i % 2 = 0 := by
    rw [testBit_eq_decide_div_mod_eq, decide_eq_false_iff_not] at h
    omega
  have hlow : x % 2 ^ (i + 1) = x % 2 ^ i := by
    rw [mod_pow_succ, hbit, mul_zero, add_zero]
  have hsmall : x % 2 ^ i < 2 ^ i := Nat.mod_lt _ (Nat.two_pow_pos i)
  have hsum : x % 2 ^ i + 2 ^ i < 2 ^ (i + 1) := by
    omega
  have hlarge : x % 2 ^ i < 2 ^ (i + 1) := by omega
  have hx : 2 ^ (i + 1) * (x / 2 ^ (i + 1)) + x % 2 ^ i = x := by
    rw [← hlow, div_add_mod]
  calc x ||| 2 ^ i
      = 2 ^ (i + 1) * (x / 2 ^ (i + 1)) ||| (x % 2 ^ i ||| 2 ^ i) := by
        rw [← Nat.or_assoc, ← Nat.two_pow_add_eq_or_of_lt hlarge, hx]
    _ = 2 ^ (i + 1) * (x / 2 ^ (i + 1)) + (x % 2 ^ i + 2 ^ i) := by
        rw [or_two_pow_eq_add_of_lt hsmall, Nat.two_pow_add_eq_or_of_lt hsum]
    _ = x + 2 ^ i := by rw [← add_assoc, hx]

theorem or_two_pow_of_testBit (h : x.testBit i = true) : x ||| 2 ^ i = x := by
  apply eq_of_testBit_eq
  intro j
  by_cases hj : i = j
  · simp [← hj, h]
  · simp [hj]

theorem coinCode_lt (c : Coin) : coinCode c < 2 ^ 64 := by
  have hcode : c.height.val * 2 + (if c.coinbase then 1 else 0) < 2 ^ 33 := by
    split <;> omega
  unfold coinCode
  dsimp only
  split
  · exact lt_trans (or_lt_two_pow hcode (by decide)) (by decide)
  · omega

theorem coinCode_eq (c : Coin) :
    coinCode c = (storedCoin c).height.val * 2 + (if c.coinbase then 1 else 0) +
      (if (storedCoin c).pegout then 2 ^ 31 else 0) ∧
    (coinCode c).testBit 31 = (storedCoin c).pegout := by
  have hhalf : (c.height.val * 2 + (if c.coinbase then 1 else 0)) / 2 = c.height.val := by
    split <;> omega
  have hbit : (c.height.val * 2 + (if c.coinbase then 1 else 0)).testBit 31 =
      c.height.val.testBit 30 := by
    rw [testBit_succ, hhalf]
  unfold coinCode storedCoin
  dsimp only
  by_cases hhigh : c.height.val.testBit 30
  · rw [hhigh] at hbit
    have hbound := Nat.ge_two_pow_of_testBit hhigh
    have hval : (Fin.ofNat (2 ^ 32) (c.height.val - 2 ^ 30)).val = c.height.val - 2 ^ 30 :=
      mod_eq_of_lt (by omega)
    rw [or_two_pow_of_testBit hbit, ite_self, if_pos hhigh]
    refine ⟨?_, hbit⟩
    rw [hval, if_pos rfl]
    omega
  rw [Bool.not_eq_true] at hhigh
  rw [hhigh] at hbit
  rw [or_two_pow hbit, hhigh]
  cases hpegout : c.pegout with
  | false => simp [hbit, hpegout]
  | true =>
    refine ⟨by simp [hpegout], ?_⟩
    rw [if_pos rfl, add_comm, testBit_two_pow_add_eq, hbit]
    simp [hpegout]

theorem readScript_length (script : OPScript) :
    readScript (Fin.ofNat _ script.val.length) script.val = some script := by
  have hlength : (Fin.ofNat (2 ^ 64) script.val.length).val = script.val.length :=
    mod_eq_of_lt script.property
  unfold readScript
  rw [dif_pos hlength.le]
  congr 1
  apply Subtype.ext
  change script.val.take (Fin.ofNat (2 ^ 64) script.val.length).val = script.val
  rw [hlength, take_length]

theorem deserializeCoin_serializeCoin (c : Coin) :
    deserializeCoin (serializeCoin c) = some (storedCoin c) := by
  have hcode : (Fin.ofNat (2 ^ 64) (coinCode c)).val = coinCode c := mod_eq_of_lt (coinCode_lt c)
  obtain ⟨hsum, hflag⟩ := coinCode_eq c
  have hlow : coinCode c - (if (storedCoin c).pegout then 2 ^ 31 else 0) =
      (storedCoin c).height.val * 2 + (if c.coinbase then 1 else 0) := by omega
  have hheight : ((storedCoin c).height.val * 2 + (if c.coinbase then 1 else 0)) / 2 =
      (storedCoin c).height.val := by
    split <;> omega
  have hcoinbase : ((storedCoin c).height.val * 2 + (if c.coinbase then 1 else 0)).testBit 0 =
      c.coinbase := by
    cases c.coinbase <;> simp
  unfold deserializeCoin serializeCoin
  rw [append_assoc, append_assoc]
  simp only [readVarint_writeVarint, readScript_length, hcode, hflag, hlow, hheight, hcoinbase,
    Fin.ofNat_val_eq_self, Option.map_some]
  rw [← storedCoin_value, ← storedCoin_scriptPubKey, ← storedCoin_coinbase]

theorem testBit_sub_two_pow (h : x.testBit i = true) : (x - 2 ^ i).testBit i = false := by
  have hge := Nat.ge_two_pow_of_testBit h
  have hflip := testBit_two_pow_add_eq (x - 2 ^ i) i
  rw [Nat.add_sub_cancel' hge, h] at hflip
  simpa using hflip.symm

theorem deserializeCoin_low {data : List Byte} {c : Coin} (h : deserializeCoin data = some c) :
    c.height.val.testBit 30 = false := by
  obtain ⟨script, -, rfl⟩ := Option.map_eq_some_iff.mp h
  rw [Fin.val_ofNat, testBit_mod_two_pow, ← testBit_succ]
  cases hbit : (readVarint data).1.val.testBit 31 with
  | true => rw [if_pos rfl, testBit_sub_two_pow hbit, Bool.and_false]
  | false => simp [hbit]

theorem storedCoin_low (c : Coin) : (storedCoin c).height.val.testBit 30 = false :=
  deserializeCoin_low (deserializeCoin_serializeCoin c)

theorem serializeCoin_storedCoin (c : Coin) : serializeCoin (storedCoin c) = serializeCoin c := by
  have hcode : coinCode (storedCoin c) = coinCode c := by
    rw [(coinCode_eq (storedCoin c)).1, (coinCode_eq c).1, storedCoin_of_low (storedCoin_low c),
      storedCoin_coinbase]
  unfold serializeCoin
  rw [hcode, storedCoin_value, storedCoin_scriptPubKey]

theorem coin_round_trips_iff (c : Coin) :
    (deserializeCoin (serializeCoin c) = some c ↔ c.height.val.testBit 30 = false) ∧
      ∀ c', serializeCoin c = serializeCoin c' ↔ storedCoin c = storedCoin c' := by
  refine ⟨?_, fun c' => ⟨fun h => ?_, fun h => ?_⟩⟩
  · rw [deserializeCoin_serializeCoin, Option.some_inj]
    constructor
    · intro h
      rw [← h]
      exact storedCoin_low c
    · exact storedCoin_of_low
  · have hread := deserializeCoin_serializeCoin c
    rw [h, deserializeCoin_serializeCoin, Option.some_inj] at hread
    exact hread.symm
  · rw [← serializeCoin_storedCoin c, ← serializeCoin_storedCoin c', h]

def Aged (new old : Option Coin) : Prop := new = old ∨ new = old.map storedCoin

theorem Aged.refl (c : Option Coin) : Aged c c := Or.inl rfl

theorem Aged.trans {a b c : Option Coin} (hab : Aged a b) (hbc : Aged b c) : Aged a c := by
  obtain rfl | rfl := hab
  · exact hbc
  obtain rfl | rfl := hbc
  · exact Or.inr rfl
  right
  rw [Option.map_map]
  congr 1
  funext x
  exact storedCoin_of_low (storedCoin_low x)

theorem Aged.isSome {a b : Option Coin} (h : Aged a b) : a.isSome = b.isSome := by
  obtain rfl | rfl := h
  · rfl
  · exact Option.isSome_map

theorem aged_commit (overlay : SortedMap Outpoint (Option Coin))
    (base : SortedMap Outpoint (List Byte)) (op : Outpoint) :
    Aged (((WriteBack.commit serializeCoin overlay base).lookup op).bind deserializeCoin)
      (WriteBack.view deserializeCoin overlay base op) := by
  unfold WriteBack.view
  rw [WriteBack.lookup_commit]
  cases overlay.lookup op with
  | none => exact Aged.refl _
  | some change =>
    cases change with
    | none => exact Aged.refl _
    | some c => exact Or.inr (deserializeCoin_serializeCoin c)

def LowOverlay (overlay : SortedMap Outpoint (Option Coin)) : Prop :=
  ∀ op c, overlay.lookup op = some (some c) → c.height.val.testBit 30 = false

theorem LowOverlay.eq_of_aged {overlay : SortedMap Outpoint (Option Coin)} (h : LowOverlay overlay)
    {base : SortedMap Outpoint (List Byte)} {op : Outpoint} {new : Option Coin}
    (haged : Aged new (WriteBack.view deserializeCoin overlay base op)) :
    new = WriteBack.view deserializeCoin overlay base op := by
  obtain rfl | rfl := haged
  · rfl
  cases hop : WriteBack.view deserializeCoin overlay base op with
  | none => rfl
  | some c =>
    have hlow : c.height.val.testBit 30 = false := by
      unfold WriteBack.view at hop
      cases hoverlay : overlay.lookup op with
      | none =>
        rw [hoverlay] at hop
        obtain ⟨data, -, hdata⟩ := Option.bind_eq_some_iff.mp hop
        exact deserializeCoin_low hdata
      | some change =>
        rw [hoverlay] at hop
        exact h op c (hoverlay.trans (congrArg some hop))
    rw [Option.map_some, storedCoin_of_low hlow]

end C2Pool.Utxo
