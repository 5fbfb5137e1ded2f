import C2Pool.V37.Journal

/-! # The settle store of the Bitcoin family

`btc_settle_store.hpp`: keys and records as byte strings, the file image that a
commit rewrites as a whole, and the recovery that replays the events of a lane
in key order.
-/

namespace C2Pool.V37.Btc

open List Reader

def putStr (s : List Byte) : List Byte := putU64 s.length ++ s

def putAmounts (m : Amounts) : List Byte := putU64 m.entries.length ++ m.entries.flatMap Write.row

/-- `Reader::str`. -/
def readStr : Reader Byte (List Byte) := Read.u64 >>= fun n => items n.val

/-- `Reader::amounts`; a later row of the same key wins. -/
def readAmounts : Reader Byte Amounts :=
  Read.u64 >>= fun n => times Read.row n.val >>= fun rows =>
    pure (rows.foldl (fun m e => SortedMap.insert m e.1 e.2) ∅)

/-- `SettleEvKind`: an enumeration of one byte, read without a check. -/
inductive SettleEvKind where
  | found
  | finalize
  | orphan
  | other (code : Nat)
deriving DecidableEq

def SettleEvKind.code : SettleEvKind → Nat
  | .found => 1
  | .finalize => 2
  | .orphan => 3
  | .other code => code

def SettleEvKind.ofCode : Nat → SettleEvKind
  | 1 => .found
  | 2 => .finalize
  | 3 => .orphan
  | code => .other code

structure SettleEvent where
  kind : SettleEvKind := .found
  bid : Bid := []
  credit : Amounts := ∅
  payout : Amounts := ∅
  binHeight : U64 := 0
deriving DecidableEq

def SettleEvent.serialize (e : SettleEvent) : List Byte :=
  bytesLE 1 1 ++ bytesLE 1 e.kind.code ++ putStr e.bid ++ putAmounts e.credit ++
    putAmounts e.payout ++ putU64 e.binHeight.val

def readEvent : Reader Byte SettleEvent :=
  Read.u8 >>= fun ver => require (ver ≤ 1) >>= fun _ => Read.u8 >>= fun code =>
    readStr >>= fun bid => readAmounts >>= fun credit => readAmounts >>= fun payout =>
      Read.u64 >>= fun binHeight =>
        pure ⟨SettleEvKind.ofCode code, bid, credit, payout, binHeight⟩

/-- `SettleEvent::deserialize`; `none` where it throws. -/
def SettleEvent.deserialize : List Byte → Option SettleEvent := readEvent.all

def SettleEvent.toCall (e : SettleEvent) : Option LedgerCall :=
  match e.kind with
  | .found => some (.found e.bid { credit := e.credit, payout := e.payout })
  | .finalize => some (.finalized e.bid e.binHeight)
  | .orphan => some (.orphaned e.bid e.payout)
  | .other _ => none

/-- An event of a known kind whose record has a 64-bit size, with 64-bit amounts. -/
structure SettleEvent.Fits (e : SettleEvent) : Prop where
  kind : ∀ code, e.kind ≠ .other code
  size : e.serialize.length < 2 ^ 64
  credit : ∀ row ∈ e.credit.entries, InRange row.2
  payout : ∀ row ∈ e.payout.entries, InRange row.2

theorem reads_str {s : List Byte} (h : s.length < 2 ^ 64) : Reads readStr (putStr s) s :=
  (Read.reads_u64 ⟨s.length, h⟩).bind (reads_items s)

theorem reads_amounts {m : Amounts} (hlength : m.entries.length < 2 ^ 64)
    (hrows : ∀ row ∈ m.entries, InRange row.2) : Reads readAmounts (putAmounts m) m := by
  have hread : Reads (times Read.row m.entries.length) (m.entries.flatMap Write.row) m.entries :=
    reads_times fun e he => Read.reads_row (hrows e he)
  have hall := hread.last (f := fun rows => rows.foldl (fun m e => SortedMap.insert m e.1 e.2) ∅)
  rw [SortedMap.foldl_insert_entries] at hall
  exact (Read.reads_u64 ⟨m.entries.length, hlength⟩).bind hall

theorem length_serialize_event (e : SettleEvent) :
    e.serialize.length =
      34 + e.bid.length + 40 * e.credit.entries.length + 40 * e.payout.entries.length := by
  unfold SettleEvent.serialize putStr putAmounts putU64
  simp only [length_append, length_bytesLE, Read.length_flatMap_row]
  omega

theorem deserialize_serialize {e : SettleEvent} (he : e.Fits) :
    SettleEvent.deserialize e.serialize = some e := by
  have hsize := he.size
  rw [length_serialize_event] at hsize
  have hcode : SettleEvKind.ofCode e.kind.code = e.kind := by
    cases hkind : e.kind with
    | other code => exact absurd hkind (he.kind code)
    | _ => rfl
  have hbyte : e.kind.code < 256 ^ 1 := by
    cases hkind : e.kind with
    | other code => exact absurd hkind (he.kind code)
    | _ => decide
  apply Reads.all_eq
  unfold SettleEvent.serialize
  simp only [append_assoc]
  apply (Read.reads_word (by decide)).bind
  apply Reads.guard (by decide)
  apply (Read.reads_word hbyte).bind
  apply (reads_str (by omega)).bind
  apply (reads_amounts (by omega) he.credit).bind
  apply (reads_amounts (by omega) he.payout).bind
  rw [hcode]
  exact (Read.reads_u64 e.binHeight).last

/-! ## Keys -/

/-- `%0*u`: a number below `10 ^ w` as `w` decimal digits. -/
def decFmt : Nat → Nat → List Byte
  | 0, _ => []
  | w + 1, n => Fin.ofNat 256 (48 + n / 10 ^ w) :: decFmt w (n % 10 ^ w)

/-- The keys of a lane. -/
inductive Key where
  | hw
  | cursor
  | evt (seq : U64)
  | pfound (bid : Bid)
deriving DecidableEq

def kEvtPrefix (chain : U32) : List Byte := putTag "v37s:levt:" ++ decFmt 10 chain.val ++ putTag ":"

def kPfoundPrefix (chain : U32) : List Byte :=
  putTag "v37s:pfound:" ++ decFmt 10 chain.val ++ putTag ":"

/-- `k_hw`, `k_cursor`, `k_evt` and `k_pfound`. -/
def Key.bytes (chain : U32) : Key → List Byte
  | .hw => putTag "v37s:hw:" ++ decFmt 10 chain.val
  | .cursor => putTag "v37s:fcur:" ++ decFmt 10 chain.val
  | .evt seq => kEvtPrefix chain ++ decFmt 20 seq.val
  | .pfound bid => kPfoundPrefix chain ++ bid

theorem decFmt_lt {w a b : Nat} (hab : a < b) (hb : b < 10 ^ w) : decFmt w a < decFmt w b := by
  induction w generalizing a b with
  | zero => omega
  | succ w ih =>
    have hpos : 0 < 10 ^ w := Nat.pow_pos (by decide)
    have hdigit : b / 10 ^ w < 10 := Nat.div_lt_of_lt_mul (by omega)
    have hle : a / 10 ^ w ≤ b / 10 ^ w := Nat.div_le_div_right hab.le
    rw [decFmt, decFmt, cons_lt_cons_iff]
    rcases Nat.lt_or_eq_of_le hle with hlt | heq
    · left
      generalize a / 10 ^ w = x at hlt
      rw [Fin.lt_def]
      simp only [Fin.ofNat]
      omega
    right
    refine ⟨by rw [heq], ih ?_ (Nat.mod_lt _ hpos)⟩
    have ha := Nat.div_add_mod a (10 ^ w)
    have hb' := Nat.div_add_mod b (10 ^ w)
    rw [heq] at ha
    omega

theorem kEvt_lt {chain : U32} {seq seq' : U64} (h : seq < seq') :
    (Key.evt seq).bytes chain < (Key.evt seq').bytes chain := by
  apply append_left_lt
  apply decFmt_lt h
  omega

theorem kPfound_lt {chain : U32} {bid bid' : Bid} (h : bid < bid') :
    (Key.pfound bid).bytes chain < (Key.pfound bid').bytes chain := append_left_lt h

theorem bytes_injective (chain : U32) : Function.Injective (Key.bytes chain) := by
  intro k k' h
  cases k with
  | hw =>
    cases k' with
    | hw => rfl
    | _ => simp [Key.bytes, kEvtPrefix, kPfoundPrefix, putTag] at h
  | cursor =>
    cases k' with
    | cursor => rfl
    | _ => simp [Key.bytes, kEvtPrefix, kPfoundPrefix, putTag] at h
  | evt seq =>
    cases k' with
    | evt seq' =>
      rcases lt_trichotomy seq seq' with hlt | heq | hlt
      · exact absurd h (kEvt_lt hlt).ne
      · rw [heq]
      · exact absurd h.symm (kEvt_lt hlt).ne
    | _ => simp [Key.bytes, kEvtPrefix, kPfoundPrefix, putTag] at h
  | pfound bid =>
    cases k' with
    | pfound bid' => rw [append_cancel_left h]
    | _ => simp [Key.bytes, kEvtPrefix, kPfoundPrefix, putTag] at h

theorem kEvtPrefix_prefix_iff (chain : U32) (k : Key) :
    kEvtPrefix chain <+: k.bytes chain ↔ ∃ seq, k = .evt seq := by
  cases k with
  | evt seq => simp [Key.bytes]
  | _ => simp [Key.bytes, kEvtPrefix, kPfoundPrefix, putTag]

theorem kPfoundPrefix_prefix_iff (chain : U32) (k : Key) :
    kPfoundPrefix chain <+: k.bytes chain ↔ ∃ bid, k = .pfound bid := by
  cases k with
  | pfound bid => simp [Key.bytes]
  | _ => simp [Key.bytes, kEvtPrefix, kPfoundPrefix, putTag]

abbrev Kv := SortedMap (List Byte) (List Byte)

/-- The image that `flush` writes. -/
def image (kv : Kv) : List Byte := kv.entries.flatMap fun e => putStr e.1 ++ putStr e.2

/-- The loop of `load` over what is left of the image; a record takes a byte or more. -/
def loadRecords : Nat → List Byte → Kv → Option Kv
  | _, [], kv => some kv
  | 0, _ :: _, _ => none
  | fuel + 1, b :: bs, kv =>
    (readStr (b :: bs)).bind fun k =>
      (readStr k.2).bind fun v => loadRecords fuel v.2 (kv.insert k.1 v.1)

/-- `load`; no file is a fresh store, and `none` is a throw. -/
def load : Option (List Byte) → Option Kv
  | none => some ∅
  | some img => loadRecords img.length img ∅

/-- `FileSettleStore`: the map, and the image on disk. -/
structure FileSettleStore where
  kv : Kv := ∅
  img : Option (List Byte) := none

/-- `commit_sync` of one put or remove; a flush that fails leaves the old image. -/
def FileSettleStore.commitSync (st : FileSettleStore) (ok : Bool) (key : List Byte)
    (value : Option (List Byte)) : FileSettleStore :=
  let kv := SortedMap.set st.kv key value
  ⟨kv, if ok then some (image kv) else st.img⟩

/-- `for_each_prefix`. -/
def withPrefix (pre : List Byte) (kv : Kv) : List (List Byte × List Byte) :=
  kv.entries.filter fun e => pre.isPrefixOf e.1

/-- Keys and values have 64-bit sizes. -/
def KvFits (kv : Kv) : Prop :=
  ∀ e ∈ kv.entries, e.1.length < 2 ^ 64 ∧ e.2.length < 2 ^ 64

theorem loadRecords_image {es : List (List Byte × List Byte)}
    (hes : ∀ e ∈ es, e.1.length < 2 ^ 64 ∧ e.2.length < 2 ^ 64) {fuel : Nat}
    (hfuel : es.length ≤ fuel) (kv : Kv) :
    loadRecords fuel (es.flatMap fun e => putStr e.1 ++ putStr e.2) kv =
      some (es.foldl (fun kv e => SortedMap.insert kv e.1 e.2) kv) := by
  induction es generalizing fuel kv with
  | nil =>
    cases fuel with
    | zero => rfl
    | succ fuel => rfl
  | cons e es ih =>
    obtain ⟨fuel, rfl⟩ : ∃ n, fuel = n + 1 := ⟨fuel - 1, by simp at hfuel; omega⟩
    obtain ⟨hkey, hvalue⟩ := hes e mem_cons_self
    have hk := reads_str hkey (putStr e.2 ++ es.flatMap fun e => putStr e.1 ++ putStr e.2)
    have hv := reads_str hvalue (es.flatMap fun e => putStr e.1 ++ putStr e.2)
    rw [flatMap_cons, append_assoc]
    generalize hbytes : putStr e.1 ++ (putStr e.2 ++ es.flatMap fun e => putStr e.1 ++ putStr e.2) =
      bytes at hk
    cases bytes with
    | nil => simp [putStr, putU64, bytesLE] at hbytes
    | cons b bs =>
      rw [loadRecords, hk, Option.bind_some]
      rw [hv, Option.bind_some]
      exact ih (fun e' he' => hes e' (mem_cons_of_mem _ he'))
        (by simp at hfuel; omega) (kv.insert e.1 e.2)

theorem load_image {kv : Kv} (h : KvFits kv) : load (some (image kv)) = some kv := by
  have hlength : kv.entries.length ≤ (image kv).length := by
    unfold image
    generalize kv.entries = es
    induction es with
    | nil => simp
    | cons e es ih =>
      have hkey : 8 ≤ (putStr e.1).length := by simp [putStr, putU64, length_bytesLE]
      rw [flatMap_cons, length_append, length_append, length_cons]
      omega
  have hload := loadRecords_image h hlength ∅
  rw [SortedMap.foldl_insert_entries] at hload
  exact hload

structure RecoveredState where
  hw : SettleHW := {}
  finalizeCursorHeight : U64 := 0
  maxEventSeq : U64 := 0
  recovered : Bool := false
deriving DecidableEq

section Recover

variable (sha : List Byte → Bytes32) (rules : OwedLedgerRules) (chain : U32)

def replayCall (l : OwedLedger) (e : SettleEvent) : OwedLedger :=
  match e.toCall with
  | some call => l.call sha rules call
  | none => l

/-- The replay of `recover` over the stored events, counted. -/
def replayEvents (rows : List (List Byte × List Byte)) (s : U64 × OwedLedger) :
    Option (U64 × OwedLedger) :=
  rows.foldlM (fun s row =>
    (SettleEvent.deserialize row.2).map fun e => (s.1 + 1, replayCall sha rules s.2 e)) s

def recoverHw (kv : Kv) : Option SettleHW :=
  match kv.lookup (Key.hw.bytes chain) with
  | none => some {}
  | some blob => if 24 ≤ blob.length then (Read.settleHW blob).map Prod.fst else some {}

def recoverCursor (kv : Kv) : Option U64 :=
  match kv.lookup (Key.cursor.bytes chain) with
  | none => some 0
  | some blob => (Read.u64 blob).map Prod.fst

/-- `recover` into a fresh ledger; `none` where it answers not ok. -/
def recover (kv : Kv) : Option (RecoveredState × OwedLedger) :=
  (recoverHw chain kv).bind fun hw =>
    (recoverCursor chain kv).bind fun cursor =>
      (replayEvents sha rules (withPrefix (kEvtPrefix chain) kv) (0, {})).map fun s =>
        ({ hw := hw
           finalizeCursorHeight := cursor
           maxEventSeq := s.1
           recovered :=
            kv.lookup (Key.hw.bytes chain) ≠ none || kv.lookup (Key.cursor.bytes chain) ≠ none ||
              s.1 ≠ 0 }, s.2)

end Recover

end C2Pool.V37.Btc
