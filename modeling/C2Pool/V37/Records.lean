import C2Pool.Lib.Reader
import C2Pool.V37.OwedLeaves

/-! # The stored records

The records of the settlement store (`w6_persistence.hpp`) and their byte layout: a version, a kind,
and the fields, little endian. Every record is read back as it was written, except that a string is
cut at 65535 bytes.
-/

namespace C2Pool.V37

open List SortedMap

def valLE : List Byte → Nat
  | [] => 0
  | b :: bs => b.val + 256 * valLE bs

theorem valLE_bytesLE {n x : Nat} (hx : x < 256 ^ n) : valLE (bytesLE n x) = x := by
  induction n generalizing x with
  | zero =>
    have : x = 0 := by omega
    rw [this]
    rfl
  | succ n ih =>
    rw [bytesLE_succ, valLE, ih (Nat.div_lt_of_lt_mul (by omega))]
    simp only [Fin.ofNat]
    omega

namespace Read

open Reader

/-- An unsigned number of `n` bytes. -/
def word (n : Nat) : Reader Byte Nat := valLE <$> items n

def u8 : Reader Byte Nat := word 1

def u16 : Reader Byte Nat := word 2

def u32 : Reader Byte U32 := Fin.ofNat (2 ^ 32) <$> word 4

def u64 : Reader Byte U64 := Fin.ofNat (2 ^ 64) <$> word 8

def signed (x : Nat) : Int := if x < 2 ^ 63 then (x : Int) else (x : Int) - 2 ^ 64

def i64 : Reader Byte Int := signed <$> word 8

def b32 : Reader Byte Bytes32 := (fun bs => Fin.ofNat (2 ^ 256) (valLE bs.reverse)) <$> items 32

def str : Reader Byte (List Byte) := u16 >>= fun n => items n

def row : Reader Byte (Bytes32 × Int) := b32 >>= fun k => i64 >>= fun v => pure (k, v)

/-- `Reader::amap`; a later row of the same key wins. -/
def amap : Reader Byte Amounts :=
  u32 >>= fun n => rest >>= fun left => require (n.val ≤ left.length / 40) >>= fun _ =>
    times row n.val >>= fun rows =>
      pure (rows.foldl (fun m e => SortedMap.insert m e.1 e.2) ∅)

/-- `read_hdr`: a version up to 1, and the kind. -/
def hdr (kind : Nat) : Reader Byte Unit :=
  u8 >>= fun ver => u8 >>= fun k => require (ver ≤ 1 ∧ k = kind)

end Read

namespace Write

/-- `Writer::str`, cut at 65535 bytes. -/
def str (s : List Byte) : List Byte :=
  bytesLE 2 (s.take 0xffff).length ++ s.take 0xffff

def row (e : Bytes32 × Int) : List Byte := e.1.toBytes ++ putI64 e.2

def amap (m : Amounts) : List Byte := putU32 m.entries.length ++ m.entries.flatMap row

def hdr (kind : Nat) : List Byte := bytesLE 1 1 ++ bytesLE 1 kind

end Write

namespace Read

open Reader

theorem reads_word {n x : Nat} (hx : x < 256 ^ n) : Reads (word n) (bytesLE n x) x := by
  have h := (reads_items (bytesLE n x)).map (f := valLE)
  rw [length_bytesLE, valLE_bytesLE hx] at h
  exact h

theorem reads_u32 (x : U32) : Reads u32 (putU32 x.val) x := by
  have hx : x.val < 256 ^ 4 := by
    exact x.isLt
  have h := (reads_word hx).map (f := Fin.ofNat (2 ^ 32))
  rwa [show Fin.ofNat (2 ^ 32) x.val = x from Fin.ext (Nat.mod_eq_of_lt x.isLt)] at h

theorem reads_u64 (x : U64) : Reads u64 (putU64 x.val) x := by
  have hx : x.val < 256 ^ 8 := by
    exact x.isLt
  have h := (reads_word hx).map (f := Fin.ofNat (2 ^ 64))
  rwa [show Fin.ofNat (2 ^ 64) x.val = x from Fin.ext (Nat.mod_eq_of_lt x.isLt)] at h

theorem reads_i64 {v : Int} (hv : InRange v) : Reads i64 (putI64 v) v := by
  have hbound : (v % 2 ^ 64).toNat < 256 ^ 8 := by
    omega
  have h := (reads_word hbound).map (f := signed)
  have hsigned : signed (v % 2 ^ 64).toNat = v := by
    unfold InRange at hv
    unfold signed
    split <;> omega
  rwa [hsigned] at h

theorem reads_b32 (x : Bytes32) : Reads b32 x.toBytes x := by
  have h := (reads_items x.toBytes).map (f := fun bs => Fin.ofNat (2 ^ 256) (valLE bs.reverse))
  have hx : x.val < 256 ^ 32 := by
    exact x.isLt
  rw [show Fin.ofNat (2 ^ 256) (valLE x.toBytes.reverse) = x by
    rw [toBytes_eq_reverse, reverse_reverse, valLE_bytesLE hx]
    exact Fin.ext (Nat.mod_eq_of_lt x.isLt)] at h
  exact h

theorem reads_hdr {kind : Nat} (hkind : kind < 256) : Reads (hdr kind) (Write.hdr kind) () := by
  apply (reads_word (by decide)).bind
  exact (reads_word (by omega)).bind (reads_require ⟨by decide, rfl⟩)

theorem reads_str (s : List Byte) : Reads str (Write.str s) (s.take 0xffff) := by
  have hlen : (s.take 0xffff).length < 256 ^ 2 := by
    have := length_take_le 0xffff s
    omega
  exact (reads_word hlen).bind (reads_items _)

theorem reads_row {e : Bytes32 × Int} (he : InRange e.2) : Reads row (Write.row e) e :=
  (reads_b32 e.1).bind (reads_i64 he).last

end Read

def FitsRows (m : Amounts) : Prop :=
  m.entries.length < 2 ^ 32 ∧ ∀ e ∈ m.entries, InRange e.2

namespace Read

open Reader

theorem length_flatMap_row (es : List (Bytes32 × Int)) :
    (es.flatMap Write.row).length = 40 * es.length := by
  induction es with
  | nil => rfl
  | cons e es ih =>
    rw [flatMap_cons, length_append, ih, length_cons, Write.row,
      length_append, length_toBytes, putI64, putU64, length_bytesLE]
    omega

theorem reads_amap {m : Amounts} (hm : FitsRows m) : Reads amap (Write.amap m) m := by
  have hcount := reads_u32 ⟨m.entries.length, hm.1⟩
  apply hcount.bind
  intro tail
  have hroom : m.entries.length ≤ (m.entries.flatMap Write.row ++ tail).length / 40 := by
    rw [length_append, length_flatMap_row]
    omega
  have hrows : Reads (times row m.entries.length) (m.entries.flatMap Write.row) m.entries :=
    reads_times fun e he => reads_row (hm.2 e he)
  have hall := Reads.guard hroom
    (hrows.last (f := fun rows => rows.foldl (fun m e => SortedMap.insert m e.1 e.2) ∅))
  rw [foldl_insert_entries] at hall
  exact hall tail

end Read

/-! ## Records -/

structure SettleHW where
  hwHeight : U64 := 0
  hwTip : Bytes32 := 0
  ledgerSeq : U64 := 0
  refused : U64 := 0
deriving DecidableEq

/-- `admit_candidate_height`: a shorter branch is refused and counted. -/
def SettleHW.admitCandidateHeight (hw : SettleHW) (height : U64) : Bool × SettleHW :=
  if height < hw.hwHeight then (false, { hw with refused := hw.refused + 1 }) else (true, hw)

def SettleHW.advance (hw : SettleHW) (height : U64) (tip : Bytes32) : SettleHW :=
  if height < hw.hwHeight then { hw with refused := hw.refused + 1 }
  else { hw with hwHeight := height, hwTip := tip }

structure CutToken where
  chain : U32 := 0
  incarnation : U64 := 0
  version : U64 := 0
  nextPos : U64 := 0
  spineDigest : Bytes32 := 0
  ledgerSeq : U64 := 0
  owedDigest : Bytes32 := 0
  hwHeight : U64 := 0
  hwTip : Bytes32 := 0
deriving DecidableEq

structure MetaRec where
  schema : U32 := 1
  bootId : U64 := 0
  createdTs : U64 := 0
  lastOpenTs : U64 := 0
deriving DecidableEq

structure HwRec where
  chain : U32 := 0
  bootId : U64 := 0
  hw : SettleHW := {}
deriving DecidableEq

structure LheadRec where
  ledgerSeq : U64 := 0
  owedDigest : Bytes32 := 0
  bootId : U64 := 0
deriving DecidableEq

/-- `LmmrRec`: the head of the record log. -/
structure LmmrRec where
  ledgerSeq : U64 := 0
  leafCount : U64 := 0
  root : Bytes32 := 0
  peaks : List Bytes32 := []
  bootId : U64 := 0
deriving DecidableEq

/-- `EventRec`: the arguments of a ledger call, at its sequence number. -/
structure EventRec where
  evkind : EvKind := .found
  seq : U64 := 0
  bid : Bid := []
  binHeight : U64 := 0
  credit : Amounts := ∅
  payout : Amounts := ∅
  settledPayout : Amounts := ∅
deriving DecidableEq

/-- `BlkRec`; the block id is in the key. -/
structure BlkRec where
  shareHash : Bytes32 := 0
  height : U64 := 0
  reward : U64 := 0
  foundSeq : U64 := 0
  bootId : U64 := 0
  token : CutToken := {}
deriving DecidableEq

structure IntentRec where
  bid : Bid := []
  height : U64 := 0
  reward : U64 := 0
  ts : U64 := 0
deriving DecidableEq

structure CarrierRec where
  bootId : U64
  incarnation : U64
  laneVersionAfter : U64
  nextPosAfter : U64
  digestAfter : Bytes32
  acceptedMask : Nat
  wRawCarrier : U64
  wRawReceipt : List U64
deriving DecidableEq

structure LaneParamsRec where
  window : U64
  c0 : U64
  rollup : U64
  halfLife : U64
  levelCaps : List U64
  journalDepth : U64
deriving DecidableEq

structure GenesisRec where
  firstShareHash : Bytes32
  params : LaneParamsRec
  ts : U64
deriving DecidableEq

structure TipRec where
  shareHash : Bytes32
  nextPos : U64
  bootId : U64
deriving DecidableEq

def encodeMeta (m : MetaRec) : List Byte :=
  Write.hdr 1 ++ putU32 m.schema.val ++ putU64 m.bootId.val ++ putU64 m.createdTs.val ++
    putU64 m.lastOpenTs.val

/-- `SettleHW::serialize`, 56 bytes. -/
def SettleHW.serialize (hw : SettleHW) : List Byte :=
  putU64 hw.hwHeight.val ++ hw.hwTip.toBytes ++ putU64 hw.ledgerSeq.val ++ putU64 hw.refused.val

def encodeHw (h : HwRec) : List Byte :=
  Write.hdr 2 ++ putU32 h.chain.val ++ putU64 h.bootId.val ++ bytesLE 1 h.hw.serialize.length ++
    h.hw.serialize

def encodeLhead (l : LheadRec) : List Byte :=
  Write.hdr 3 ++ putU64 l.ledgerSeq.val ++ l.owedDigest.toBytes ++ putU64 l.bootId.val

def encodeLmmr (l : LmmrRec) : List Byte :=
  Write.hdr 10 ++ putU64 l.ledgerSeq.val ++ putU64 l.leafCount.val ++ l.root.toBytes ++
    putU32 l.peaks.length ++ l.peaks.flatMap Bytes32.toBytes ++ putU64 l.bootId.val

def encodeEvent (e : EventRec) : List Byte :=
  Write.hdr 4 ++ bytesLE 1 e.evkind.code.val ++ putU64 e.seq.val ++ Write.str e.bid ++
    putU64 e.binHeight.val ++ Write.amap e.credit ++ Write.amap e.payout ++
    Write.amap e.settledPayout

/-- `w_token`. -/
def putToken (t : CutToken) : List Byte :=
  putU32 t.chain.val ++ putU64 t.incarnation.val ++ putU64 t.version.val ++ putU64 t.nextPos.val ++
    t.spineDigest.toBytes ++ putU64 t.ledgerSeq.val ++ t.owedDigest.toBytes ++
    putU64 t.hwHeight.val ++ t.hwTip.toBytes

def encodeBlk (b : BlkRec) : List Byte :=
  Write.hdr 5 ++ b.shareHash.toBytes ++ putU64 b.height.val ++ putU64 b.reward.val ++
    putU64 b.foundSeq.val ++ putU64 b.bootId.val ++ putToken b.token

def encodeIntent (i : IntentRec) : List Byte :=
  Write.hdr 6 ++ Write.str i.bid ++ putU64 i.height.val ++ putU64 i.reward.val ++ putU64 i.ts.val

namespace Read

open Reader

def metaRec : Reader Byte MetaRec :=
  hdr 1 >>= fun _ => u32 >>= fun schema => u64 >>= fun bootId => u64 >>= fun createdTs =>
    u64 >>= fun lastOpenTs => pure ⟨schema, bootId, createdTs, lastOpenTs⟩

/-- `SettleHW::deserialize`. -/
def settleHW : Reader Byte SettleHW :=
  u64 >>= fun hwHeight => b32 >>= fun hwTip => u64 >>= fun ledgerSeq => u64 >>= fun refused =>
    pure ⟨hwHeight, hwTip, ledgerSeq, refused⟩

def hwRec : Reader Byte HwRec :=
  hdr 2 >>= fun _ => u32 >>= fun chain => u64 >>= fun bootId => u8 >>= fun len =>
    require (len = 56) >>= fun _ => settleHW >>= fun hw => pure ⟨chain, bootId, hw⟩

def lheadRec : Reader Byte LheadRec :=
  hdr 3 >>= fun _ => u64 >>= fun ledgerSeq => b32 >>= fun owedDigest => u64 >>= fun bootId =>
    pure ⟨ledgerSeq, owedDigest, bootId⟩

end Read

/-- `std::popcount` of a 64-bit word. -/
def popcount (x : U64) : Nat := Mmr.ones 64 x.val

def EvKind.ofCode : Nat → Option EvKind
  | 1 => some .found
  | 2 => some .finalize
  | 3 => some .orphan
  | _ => none

namespace Read

open Reader

/-- A head has one peak for each bit of its count. -/
def lmmrRec : Reader Byte LmmrRec :=
  hdr 10 >>= fun _ => u64 >>= fun ledgerSeq => u64 >>= fun leafCount => b32 >>= fun root =>
    u32 >>= fun np => require (np.val = popcount leafCount) >>= fun _ => rest >>= fun left =>
      require (np.val ≤ left.length / 32) >>= fun _ => times b32 np.val >>= fun peaks =>
        u64 >>= fun bootId => pure ⟨ledgerSeq, leafCount, root, peaks, bootId⟩

def evkind : Reader Byte EvKind :=
  u8 >>= fun code => fun s => (EvKind.ofCode code).map fun k => (k, s)

def eventRec : Reader Byte EventRec :=
  hdr 4 >>= fun _ => evkind >>= fun kind => u64 >>= fun seq => str >>= fun bid =>
    u64 >>= fun binHeight => amap >>= fun credit => amap >>= fun payout =>
      amap >>= fun settledPayout =>
        pure ⟨kind, seq, bid, binHeight, credit, payout, settledPayout⟩

/-- `r_token`. -/
def token : Reader Byte CutToken :=
  u32 >>= fun chain => u64 >>= fun incarnation => u64 >>= fun version => u64 >>= fun nextPos =>
    b32 >>= fun spineDigest => u64 >>= fun ledgerSeq => b32 >>= fun owedDigest =>
      u64 >>= fun hwHeight => b32 >>= fun hwTip =>
        pure ⟨chain, incarnation, version, nextPos, spineDigest, ledgerSeq, owedDigest, hwHeight,
          hwTip⟩

def blkRec : Reader Byte BlkRec :=
  hdr 5 >>= fun _ => b32 >>= fun shareHash => u64 >>= fun height => u64 >>= fun reward =>
    u64 >>= fun foundSeq => u64 >>= fun bootId => token >>= fun token =>
      pure ⟨shareHash, height, reward, foundSeq, bootId, token⟩

def intentRec : Reader Byte IntentRec :=
  hdr 6 >>= fun _ => str >>= fun bid => u64 >>= fun height => u64 >>= fun reward =>
    u64 >>= fun ts => pure ⟨bid, height, reward, ts⟩

/-- The mask has `R_MAX` bits, and a receipt for each that is set. -/
def carrierRec : Reader Byte CarrierRec :=
  hdr 7 >>= fun _ => u64 >>= fun bootId => u64 >>= fun incarnation =>
    u64 >>= fun laneVersionAfter => u64 >>= fun nextPosAfter => b32 >>= fun digestAfter =>
      u8 >>= fun acceptedMask => require (acceptedMask < 16) >>= fun _ =>
        u64 >>= fun wRawCarrier => times u64 (Mmr.ones 8 acceptedMask) >>= fun wRawReceipt =>
          pure ⟨bootId, incarnation, laneVersionAfter, nextPosAfter, digestAfter, acceptedMask,
            wRawCarrier, wRawReceipt⟩

def genesisRec : Reader Byte GenesisRec :=
  hdr 8 >>= fun _ => b32 >>= fun firstShareHash => u64 >>= fun window => u64 >>= fun c0 =>
    u64 >>= fun rollup => u64 >>= fun halfLife => u32 >>= fun n => rest >>= fun left =>
      require (n.val ≤ 64 ∧ n.val ≤ left.length / 8) >>= fun _ =>
        times u64 n.val >>= fun levelCaps => u64 >>= fun journalDepth => u64 >>= fun ts =>
          pure ⟨firstShareHash, ⟨window, c0, rollup, halfLife, levelCaps, journalDepth⟩, ts⟩

def tipRec : Reader Byte TipRec :=
  hdr 9 >>= fun _ => b32 >>= fun shareHash => u64 >>= fun nextPos => u64 >>= fun bootId =>
    pure ⟨shareHash, nextPos, bootId⟩

end Read

def decodeMeta : List Byte → Option MetaRec := Read.metaRec.all

def decodeHw : List Byte → Option HwRec := Read.hwRec.all

def decodeLhead : List Byte → Option LheadRec := Read.lheadRec.all

def decodeLmmr : List Byte → Option LmmrRec := Read.lmmrRec.all

def decodeEvent : List Byte → Option EventRec := Read.eventRec.all

def decodeBlk : List Byte → Option BlkRec := Read.blkRec.all

def decodeIntent : List Byte → Option IntentRec := Read.intentRec.all

def decodeCarrier : List Byte → Option CarrierRec := Read.carrierRec.all

def decodeGenesis : List Byte → Option GenesisRec := Read.genesisRec.all

def decodeTip : List Byte → Option TipRec := Read.tipRec.all

section RoundTrips

open Reader Read

theorem decodeMeta_encodeMeta (m : MetaRec) : decodeMeta (encodeMeta m) = some m := by
  unfold encodeMeta
  apply Reads.all_eq
  apply (reads_hdr (by decide)).bind
  apply (reads_u32 m.schema).bind
  apply (reads_u64 m.bootId).bind
  apply (reads_u64 m.createdTs).bind
  exact (reads_u64 m.lastOpenTs).last

theorem reads_settleHW (hw : SettleHW) : Reads settleHW hw.serialize hw := by
  unfold SettleHW.serialize
  apply (reads_u64 hw.hwHeight).bind
  apply (reads_b32 hw.hwTip).bind
  apply (reads_u64 hw.ledgerSeq).bind
  exact (reads_u64 hw.refused).last

theorem length_serialize (hw : SettleHW) : hw.serialize.length = 56 := by
  simp only [SettleHW.serialize, putU64, length_append, length_bytesLE, length_toBytes]

theorem decodeHw_encodeHw (h : HwRec) : decodeHw (encodeHw h) = some h := by
  unfold encodeHw
  apply Reads.all_eq
  apply (reads_hdr (by decide)).bind
  apply (reads_u32 h.chain).bind
  apply (reads_u64 h.bootId).bind
  have hlen : Reads u8 (bytesLE 1 56) 56 := reads_word (by decide)
  apply hlen.bind
  exact Reads.guard rfl (reads_settleHW h.hw).last

theorem decodeLhead_encodeLhead (l : LheadRec) : decodeLhead (encodeLhead l) = some l := by
  unfold encodeLhead
  apply Reads.all_eq
  apply (reads_hdr (by decide)).bind
  apply (reads_u64 l.ledgerSeq).bind
  apply (reads_b32 l.owedDigest).bind
  exact (reads_u64 l.bootId).last

theorem reads_token (t : CutToken) : Reads token (putToken t) t := by
  unfold putToken
  apply (reads_u32 t.chain).bind
  apply (reads_u64 t.incarnation).bind
  apply (reads_u64 t.version).bind
  apply (reads_u64 t.nextPos).bind
  apply (reads_b32 t.spineDigest).bind
  apply (reads_u64 t.ledgerSeq).bind
  apply (reads_b32 t.owedDigest).bind
  apply (reads_u64 t.hwHeight).bind
  exact (reads_b32 t.hwTip).last

theorem decodeBlk_encodeBlk (b : BlkRec) : decodeBlk (encodeBlk b) = some b := by
  unfold encodeBlk
  apply Reads.all_eq
  apply (reads_hdr (by decide)).bind
  apply (reads_b32 b.shareHash).bind
  apply (reads_u64 b.height).bind
  apply (reads_u64 b.reward).bind
  apply (reads_u64 b.foundSeq).bind
  apply (reads_u64 b.bootId).bind
  exact (reads_token b.token).last

theorem decodeIntent_encodeIntent (i : IntentRec) :
    decodeIntent (encodeIntent i) = some { i with bid := i.bid.take 0xffff } := by
  unfold encodeIntent
  simp only [append_assoc]
  apply Reads.all_eq
  apply (reads_hdr (by decide)).bind
  apply (reads_str i.bid).bind
  apply (reads_u64 i.height).bind
  apply (reads_u64 i.reward).bind
  exact (reads_u64 i.ts).last

theorem reads_evkind (k : EvKind) : Reads evkind (bytesLE 1 k.code.val) k := by
  intro tail
  cases k <;> rfl

def EventRec.Fits (e : EventRec) : Prop :=
  FitsRows e.credit ∧ FitsRows e.payout ∧ FitsRows e.settledPayout

theorem decodeEvent_encodeEvent {e : EventRec} (he : e.Fits) :
    decodeEvent (encodeEvent e) = some { e with bid := e.bid.take 0xffff } := by
  unfold encodeEvent
  simp only [append_assoc]
  apply Reads.all_eq
  apply (reads_hdr (by decide)).bind
  apply (reads_evkind e.evkind).bind
  apply (reads_u64 e.seq).bind
  apply (reads_str e.bid).bind
  apply (reads_u64 e.binHeight).bind
  apply (reads_amap he.1).bind
  apply (reads_amap he.2.1).bind
  exact (reads_amap he.2.2).last

theorem decodeLmmr_encodeLmmr {l : LmmrRec} (hpeaks : l.peaks.length = popcount l.leafCount) :
    decodeLmmr (encodeLmmr l) = some l := by
  have hcount : l.peaks.length < 2 ^ 32 := by
    have := Mmr.ones_le 64 l.leafCount.val
    unfold popcount at hpeaks
    omega
  have hnp : Reads u32 (putU32 l.peaks.length) ⟨l.peaks.length, hcount⟩ :=
    reads_u32 ⟨l.peaks.length, hcount⟩
  unfold encodeLmmr
  apply Reads.all_eq
  apply (reads_hdr (by decide)).bind
  apply (reads_u64 l.ledgerSeq).bind
  apply (reads_u64 l.leafCount).bind
  apply (reads_b32 l.root).bind
  apply hnp.bind
  apply Reads.guard hpeaks
  intro tail
  have hlen : (l.peaks.flatMap Bytes32.toBytes).length = 32 * l.peaks.length := by
    simp [length_toBytes, Nat.mul_comm]
  have hroom : l.peaks.length ≤
      (l.peaks.flatMap Bytes32.toBytes ++ putU64 l.bootId.val ++ tail).length / 32 := by
    rw [length_append, length_append, hlen]
    omega
  have hrows : Reads (times b32 l.peaks.length) (l.peaks.flatMap Bytes32.toBytes) l.peaks :=
    reads_times fun x _ => reads_b32 x
  exact Reads.guard hroom (hrows.bind (reads_u64 _).last) tail

end RoundTrips

section Decoded

open Reader Read

theorem valLE_lt (bs : List Byte) : valLE bs < 256 ^ bs.length := by
  induction bs with
  | nil => exact Nat.one_pos
  | cons b bs ih =>
    rw [valLE, length_cons, pow_succ]
    omega

theorem yields_word (n : Nat) : Yields (word n) fun x => x < 256 ^ n := by
  apply Yields.map
  intro s bs s' hr
  have hlen := yields_items n s bs s' hr
  rw [← hlen]
  exact valLE_lt bs

theorem bytesLE_valLE {n : Nat} {bs : List Byte} (hlength : bs.length = n) :
    bytesLE n (valLE bs) = bs := by
  induction bs generalizing n with
  | nil =>
      cases hlength
      rfl
  | cons b bs ih =>
      cases hlength
      have hb := b.isLt
      rw [length_cons, bytesLE_succ, valLE, Nat.add_mul_div_left _ _ (by decide),
        Nat.div_eq_of_lt hb, Nat.zero_add, ih rfl]
      congr 1
      apply Fin.ext
      simp only [Fin.ofNat]
      omega

theorem undoes_word (n : Nat) : Undoes (bytesLE n) (word n) :=
  (undoes_items n).map (yields_items n) fun _ hlength => bytesLE_valLE hlength

theorem undoes_u32 : Undoes (fun x : U32 => putU32 x.val) u32 :=
  (undoes_word 4).map (yields_word 4) fun _ hlt => congrArg putU32 (Nat.mod_eq_of_lt hlt)

theorem undoes_u64 : Undoes (fun x : U64 => putU64 x.val) u64 :=
  (undoes_word 8).map (yields_word 8) fun _ hlt => congrArg putU64 (Nat.mod_eq_of_lt hlt)

theorem undoes_b32 : Undoes Bytes32.toBytes b32 := by
  refine (undoes_items 32).map (yields_items 32) fun bs hlength => ?_
  have hlt := valLE_lt bs.reverse
  rw [length_reverse, hlength] at hlt
  rw [toBytes_eq_reverse, Fin.val_ofNat, Nat.mod_eq_of_lt (by omega),
    bytesLE_valLE (by rw [length_reverse, hlength]), reverse_reverse]
  rfl

theorem yields_str : Yields str fun s => s.length ≤ 0xffff := by
  refine (yields_word 2).bind fun n hn => ?_
  intro s l s' hr
  have hlen := yields_items n s l s' hr
  omega

theorem yields_i64 : Yields i64 InRange := by
  apply Yields.map
  intro s x s' hr
  have hx := yields_word 8 s x s' hr
  unfold signed InRange
  split <;> omega

theorem fitsRows_foldl {rows : List (Bytes32 × Int)} (hrows : ∀ e ∈ rows, InRange e.2) {m : Amounts}
    (hlen : m.entries.length + rows.length < 2 ^ 32) (hm : ∀ e ∈ m.entries, InRange e.2) :
    FitsRows (rows.foldl (fun m e => SortedMap.insert m e.1 e.2) m) := by
  induction rows generalizing m with
  | nil => exact ⟨hlen, hm⟩
  | cons e rows ih =>
    rw [length_cons] at hlen
    have hins := length_insert_le m e.1 e.2
    have hroom : (SortedMap.insert m e.1 e.2).entries.length + rows.length < 2 ^ 32 := by
      omega
    apply ih (fun x hx => hrows x (mem_cons_of_mem e hx)) hroom
    intro x hx
    rcases mem_put hx with rfl | hx
    · exact hrows e mem_cons_self
    · exact hm x hx

theorem yields_amap : Yields amap FitsRows := by
  have hrow : Yields row fun e => InRange e.2 :=
    Yields.skip fun k => yields_i64.bind fun v hv => Yields.pure hv
  refine Yields.skip fun n => Yields.skip fun left => Yields.skip fun _ =>
    (yields_times hrow n.val).bind fun rows hrows => Yields.pure (fitsRows_foldl hrows.2 ?_ ?_)
  · have hn := n.isLt
    rw [hrows.1]
    show 0 + n.val < 2 ^ 32
    omega
  · exact fun _ he => (not_mem_nil he).elim

theorem fits_of_decodeEvent {v : List Byte} {e : EventRec} (h : decodeEvent v = some e) :
    e.Fits ∧ e.bid.length ≤ 0xffff := by
  have hyields : Yields eventRec fun e => e.Fits ∧ e.bid.length ≤ 0xffff :=
    Yields.skip fun _ => Yields.skip fun _ => Yields.skip fun _ =>
      yields_str.bind fun _ hbid => Yields.skip fun _ => yields_amap.bind fun _ hcredit =>
        yields_amap.bind fun _ hpayout => yields_amap.bind fun _ hsettled =>
          Yields.pure ⟨⟨hcredit, hpayout, hsettled⟩, hbid⟩
  exact hyields.of_all h

end Decoded

end C2Pool.V37
