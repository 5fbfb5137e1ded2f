import C2Pool.V37.Inclusion
import C2Pool.V37.Records

/-! # Record logs

The record log (`record_log.hpp`) with the switch that makes it give up its
leaves.  A prefix proof carries the peaks of the old range and the leaves
appended since, and the verifier appends them again.
-/

namespace C2Pool.V37.Recordlog

open List Nat

/-- A record log that may have given up its leaves. -/
structure RecordLog extends V37.RecordLog where
  retain : Bool := true
deriving DecidableEq

structure PrefixProof where
  oldState : PeakSet := PeakSet.empty
  appended : List Bytes32 := []
deriving DecidableEq

/-- `max_size` of a vector of hashes, which has no more than `PTRDIFF_MAX` bytes. -/
def maxSize : Nat := (2 ^ 63 - 1) / 32

namespace RecordLog

section Hash

variable (sha : List Byte → Bytes32) {p : PrefixProof} {leaves : List Bytes32}

def appendLeaf (log : RecordLog) (leaf : Bytes32) : RecordLog :=
  { log with
    peaks := mmrAppend sha log.peaks leaf
    leaves := if log.retain then log.leaves ++ [leaf] else log.leaves }

def append (log : RecordLog) (payload : List Byte) : RecordLog :=
  log.appendLeaf sha (leafHash sha payload)

def provePrefix (log : RecordLog) (oldLeafCount : Nat) : Option PrefixProof :=
  if !log.retain ∨ log.leafCount < oldLeafCount then none
  else if log.leaves.length ≠ log.leafCount then none
  else some
    { oldState := (log.leaves.take oldLeafCount).foldl (mmrAppend sha) PeakSet.empty
      appended := log.leaves.drop oldLeafCount }

def verifyPrefix (oldRoot : Bytes32) (oldLeafCount : Nat) (newRoot : Bytes32)
    (newLeafCount : Nat) (p : PrefixProof) : Bool :=
  if p.oldState.leafCount ≠ oldLeafCount then false
  else if p.oldState.peaks.length ≠ Mmr.ones 64 oldLeafCount then false
  else if (oldLeafCount + p.appended.length) % 2 ^ 64 ≠ newLeafCount then false
  else if mmrBag sha p.oldState ≠ oldRoot then false
  else
    let ps := p.appended.foldl (mmrAppend sha) p.oldState
    if ps.leafCount ≠ newLeafCount then false
    else mmrBag sha ps = newRoot

def rangeInputs (leaves : List Bytes32) : List (List Byte) :=
  (Mmr.mergedPairs (interiorHash sha) leaves).map fun p => pairBytes p.1 p.2

def prefixInputs (old new : List Bytes32) (p : PrefixProof) : List (List Byte) :=
  baggedInputs sha p.oldState.peaks ++ baggedInputs sha (peaksOf sha old).peaks ++
    (rangeInputs sha (old ++ p.appended) ++ rangeInputs sha new)

variable {sha}

theorem mmrBag_peaksOf (leaves : List Bytes32) :
    mmrBag sha (peaksOf sha leaves) =
      (Mmr.bag (interiorHash sha)
        (Mmr.appendAll (interiorHash sha) 0 [] leaves)).getD 0 := by
  rw [mmrBag, peaks_peaksOf]
  cases Mmr.appendAll (interiorHash sha) 0 [] leaves <;> rfl

theorem leaves_eq_of_mmrBag_eq {xs ys : List Bytes32} (hlength : xs.length = ys.length)
    (hfree : CollisionFree sha (rangeInputs sha xs ++ rangeInputs sha ys))
    (hbag : mmrBag sha (peaksOf sha xs) = mmrBag sha (peaksOf sha ys)) : xs = ys := by
  rw [mmrBag_peaksOf, mmrBag_peaksOf] at hbag
  refine Mmr.eq_of_getD_root_eq 0 hlength (fun p hp q hq heq => ?_) hbag
  obtain ⟨hfst, hsnd⟩ := hfree.pair (mem_append_left _ (mem_map_of_mem hp))
    (mem_append_right _ (mem_map_of_mem hq)) heq
  exact Prod.ext hfst hsnd

theorem foldl_peaksOf (old appended : List Bytes32) :
    appended.foldl (mmrAppend sha) (peaksOf sha old) = peaksOf sha (old ++ appended) :=
  foldl_append.symm

theorem verifyPrefix_eq_true_iff {oldRoot newRoot : Bytes32} {m n : Nat} :
    verifyPrefix sha oldRoot m newRoot n p = true ↔
      p.oldState.leafCount = m ∧ p.oldState.peaks.length = Mmr.ones 64 m ∧
        (m + p.appended.length) % 2 ^ 64 = n ∧ mmrBag sha p.oldState = oldRoot ∧
        (p.appended.foldl (mmrAppend sha) p.oldState).leafCount = n ∧
        mmrBag sha (p.appended.foldl (mmrAppend sha) p.oldState) = newRoot := by
  unfold verifyPrefix
  split_ifs <;> simp_all

theorem ones_peaksOf (hfew : leaves.length < 2 ^ 64) :
    (peaksOf sha leaves).leafCount = leaves.length ∧
      (peaksOf sha leaves).peaks.length = Mmr.ones 64 leaves.length := by
  obtain ⟨hcount, hpeaks, -⟩ := @peaksOf_spec sha leaves hfew
  exact ⟨hcount, hpeaks.trans (popcount64_eq_ones hfew)⟩

theorem foldl_appendLeaf (leaves : List Bytes32) :
    leaves.foldl (appendLeaf sha) {} = ⟨⟨peaksOf sha leaves, leaves⟩, true⟩ := by
  induction leaves using reverseRecOn with
  | nil => rfl
  | append_singleton leaves leaf ih =>
    rw [foldl_concat, ih, peaksOf_concat]
    rfl

theorem provePrefix_foldl (hfew : leaves.length < 2 ^ 64) {k : Nat} (hk : k ≤ leaves.length) :
    (leaves.foldl (appendLeaf sha) {}).provePrefix sha k =
      some ⟨peaksOf sha (leaves.take k), leaves.drop k⟩ := by
  obtain ⟨hcount, -⟩ := @ones_peaksOf sha leaves hfew
  rw [foldl_appendLeaf, provePrefix, if_neg, if_neg]
  · rfl
  · exact not_not.mpr hcount.symm
  · simpa [V37.RecordLog.leafCount, hcount] using hk

theorem verifyPrefix_peaksOf {old appended : List Bytes32}
    (hfew : (old ++ appended).length < 2 ^ 64) :
    verifyPrefix sha (mmrBag sha (peaksOf sha old)) old.length
      (mmrBag sha (peaksOf sha (old ++ appended))) (old ++ appended).length
      ⟨peaksOf sha old, appended⟩ = true := by
  rw [verifyPrefix_eq_true_iff, foldl_peaksOf]
  have hnew := @ones_peaksOf sha _ hfew
  rw [length_append] at hfew
  have hold := @ones_peaksOf sha old (by omega)
  exact ⟨hold.1, hold.2, by rw [mod_eq_of_lt hfew, length_append], rfl, hnew.1, rfl⟩

theorem append_eq_of_verifyPrefix {old new : List Bytes32}
    (hold : old.length ≤ maxSize) (happended : p.appended.length ≤ maxSize)
    (hfree : CollisionFree sha (prefixInputs sha old new p))
    (h : verifyPrefix sha (mmrBag sha (peaksOf sha old)) old.length
      (mmrBag sha (peaksOf sha new)) new.length p = true) :
    old ++ p.appended = new := by
  obtain ⟨hcount, hpeaks, hlength, hbag, -, hroot⟩ := verifyPrefix_eq_true_iff.mp h
  unfold maxSize at hold happended
  obtain ⟨hcount', hpeaks'⟩ := @ones_peaksOf sha old (by omega)
  have hstate : p.oldState = peaksOf sha old := by
    have hsame := peaks_eq_of_mmrBag_eq (hpeaks.trans hpeaks'.symm)
      (hfree.mono fun _ hx => mem_append_left _ hx) hbag
    rw [← hcount'] at hcount
    cases hp : p.oldState
    cases hq : peaksOf sha old
    simp_all
  rw [hstate, foldl_peaksOf] at hroot
  refine leaves_eq_of_mmrBag_eq ?_ (hfree.mono fun _ hx => mem_append_right _ hx) hroot
  rw [length_append, ← hlength, mod_eq_of_lt (by omega)]

/-- **Prefix proofs are complete and sound.**  A log that has kept its leaves proves each of its
own prefixes, and the leaves under an old root that is proved are a prefix of those under the new
one, unless two inputs that are hashed on the way collide. -/
theorem prefix_complete_sound (sha : List Byte → Bytes32) :
    (∀ leaves : List Bytes32, leaves.length ≤ maxSize → ∀ k ≤ leaves.length,
      let log := leaves.foldl (appendLeaf sha) {}
      let old := (leaves.take k).foldl (appendLeaf sha) {}
      ∃ p, log.provePrefix sha k = some p ∧
        verifyPrefix sha (old.root sha) old.leafCount (log.root sha)
          log.leafCount p = true) ∧
    ∀ (old new : List Bytes32) (p : PrefixProof),
      old.length ≤ maxSize → p.appended.length ≤ maxSize →
      CollisionFree sha (prefixInputs sha old new p) →
      verifyPrefix sha (mmrBag sha (peaksOf sha old)) old.length
        (mmrBag sha (peaksOf sha new)) new.length p = true →
      old <+: new := by
  constructor
  · intro leaves hsize k hk log old
    unfold maxSize at hsize
    have hfew : leaves.length < 2 ^ 64 := by omega
    refine ⟨_, provePrefix_foldl hfew hk, ?_⟩
    have hverify := @verifyPrefix_peaksOf sha (leaves.take k) (leaves.drop k)
      (by rwa [take_append_drop])
    rw [take_append_drop] at hverify
    have hlog := @ones_peaksOf sha leaves hfew
    have hold := @ones_peaksOf sha (leaves.take k) (by rw [length_take]; omega)
    rw [← hlog.1, ← hold.1] at hverify
    dsimp only [log, old]
    rw [foldl_appendLeaf, foldl_appendLeaf]
    exact hverify
  · intro old new p hold happended hfree h
    exact ⟨p.appended, append_eq_of_verifyPrefix hold happended hfree h⟩

/-- The first of three leaves under the hash of the code. -/
theorem prefix_complete_sound_three :
    (∃ p, ([1, 2, 3].foldl (appendLeaf Sha256.sha256d) {}).provePrefix Sha256.sha256d 1 = some p ∧
      verifyPrefix Sha256.sha256d 1 1 (mmrBag Sha256.sha256d (peaksOf Sha256.sha256d [1, 2, 3])) 3
        p = true) ∧ ([1] : List Bytes32) <+: [1, 2, 3] := by
  obtain ⟨hcomplete, hsound⟩ := prefix_complete_sound Sha256.sha256d
  constructor
  · exact hcomplete [1, 2, 3] (by decide) 1 (by decide)
  · exact hsound [1] [1, 2, 3] ⟨⟨[1], 1⟩, [2, 3]⟩ (by decide) (by decide) (by decide +kernel)
      (by decide +kernel)

end Hash

/-! ## The persisted form -/

def setRetainLeaves (log : RecordLog) (on : Bool) : RecordLog :=
  { log with
    leaves := if !on then [] else log.leaves
    retain := on }

/-- Little endian: the version, the flags, the count, the peaks behind their number, and the
leaves where they are kept. -/
def serialize (log : RecordLog) : List Byte :=
  bytesLE 1 1 ++ (bytesLE 1 (if log.retain then 0x01 else 0x00) ++ (putU64 log.leafCount ++
    (putU32 log.peaks.peaks.length ++ (log.peaks.peaks.flatMap Bytes32.toBytes ++
      if log.retain then putU64 log.leaves.length ++ log.leaves.flatMap Bytes32.toBytes
      else []))))

/-- A mutator of the log. -/
inductive LogCall where
  | append (payload : List Byte)
  | appendLeaf (leaf : Bytes32)
  | setRetainLeaves (on : Bool)

def Keeps (log : RecordLog) : LogCall → Prop
  | .append _ | .appendLeaf _ => log.leafCount + 1 < 2 ^ 64
  | .setRetainLeaves on => on = true → log.retain = true ∨ log.leafCount = 0

section Persistence

open Reader Read Run

variable (sha : List Byte → Bytes32) {log : RecordLog} {leaves : List Bytes32} {s s' : List Byte}

def call (log : RecordLog) : LogCall → RecordLog
  | .append payload => log.append sha payload
  | .appendLeaf leaf => log.appendLeaf sha leaf
  | .setRetainLeaves on => log.setRetainLeaves on

def readLeaves (ps : PeakSet) (n : U64) : Reader Byte RecordLog :=
  u64 >>= fun nl => require (nl = n) >>= fun _ => rest >>= fun left =>
    require (nl.val ≤ left.length / 32) >>= fun _ => times b32 nl.val >>= fun leaves =>
      require (peaksOf sha leaves = ps) >>= fun _ => pure ⟨⟨ps, leaves⟩, true⟩

def readLog : Reader Byte RecordLog :=
  u8 >>= fun ver => require (ver ≤ 1) >>= fun _ => u8 >>= fun flags =>
    require (flags &&& 0xfe = 0) >>= fun _ => u64 >>= fun n => u32 >>= fun np =>
      require (np.val = popcount n) >>= fun _ => times b32 np.val >>= fun peaks =>
        if flags &&& 0x01 ≠ 0 then readLeaves sha ⟨peaks, n.val⟩ n
        else pure ⟨⟨⟨peaks, n.val⟩, []⟩, false⟩

def deserialize (v : List Byte) : Option RecordLog := all (readLog sha) v

variable {sha}

/-- The log stands for the leaves that were appended. -/
structure Logs (sha : List Byte → Bytes32) (leaves : List Bytes32) (log : RecordLog) :
    Prop where
  few : leaves.length < 2 ^ 64
  peaks : log.peaks = peaksOf sha leaves
  kept : log.leaves = if log.retain then leaves else []

theorem Logs.leafCount (h : Logs sha leaves log) : log.leafCount = leaves.length := by
  rw [V37.RecordLog.leafCount, h.peaks]
  exact (ones_peaksOf h.few).1

theorem Logs.appendLeaf (h : Logs sha leaves log) (leaf : Bytes32)
    (hroom : log.leafCount + 1 < 2 ^ 64) :
    Logs sha (leaves ++ [leaf]) (log.appendLeaf sha leaf) := by
  rw [h.leafCount] at hroom
  refine ⟨by simpa using hroom, ?_, ?_⟩
  · rw [peaksOf_concat, ← h.peaks]
    rfl
  have hkept := h.kept
  unfold RecordLog.appendLeaf
  dsimp only
  split at hkept <;> simp_all

theorem Logs.setRetainLeaves (h : Logs sha leaves log) {on : Bool}
    (hon : on = true → log.retain = true ∨ log.leafCount = 0) :
    Logs sha leaves (log.setRetainLeaves on) := by
  refine ⟨h.few, h.peaks, ?_⟩
  have hkept := h.kept
  unfold RecordLog.setRetainLeaves
  cases on with
  | false => rfl
  | true =>
    rcases hon rfl with hretain | hempty
    · simpa [hretain] using hkept
    · rw [h.leafCount, length_eq_zero_iff] at hempty
      simpa [hempty] using hkept

theorem Logs.call (h : ∃ leaves, Logs sha leaves log) {c : LogCall} (hc : log.Keeps c) :
    ∃ leaves, Logs sha leaves (log.call sha c) := by
  obtain ⟨leaves, h⟩ := h
  cases c with
  | append payload => exact ⟨_, h.appendLeaf _ hc⟩
  | appendLeaf leaf => exact ⟨_, h.appendLeaf leaf hc⟩
  | setRetainLeaves on => exact ⟨leaves, h.setRetainLeaves hc⟩

theorem reads_hashes (xs : List Bytes32) :
    Reads (times b32 xs.length) (xs.flatMap Bytes32.toBytes) xs :=
  reads_times fun x _ => reads_b32 x

theorem reads_readLeaves (hfew : leaves.length < 2 ^ 64) :
    Reads (readLeaves sha (peaksOf sha leaves) ⟨leaves.length, hfew⟩)
      (putU64 leaves.length ++ leaves.flatMap Bytes32.toBytes)
      ⟨⟨peaksOf sha leaves, leaves⟩, true⟩ := by
  apply (reads_u64 ⟨leaves.length, hfew⟩).bind
  apply Reads.guard rfl
  apply Reads.peek
  intro tail
  have hroom : leaves.length ≤ (leaves.flatMap Bytes32.toBytes ++ tail).length / 32 := by
    have hlength : (leaves.flatMap Bytes32.toBytes).length = 32 * leaves.length := by
      simp [length_toBytes, Nat.mul_comm]
    rw [length_append, hlength]
    omega
  rw [← append_nil (leaves.flatMap Bytes32.toBytes)] at hroom ⊢
  exact Reads.guard hroom ((reads_hashes leaves).bind (Reads.guard rfl (Reads.pure _))) tail

theorem Logs.reads (h : Logs sha leaves log) : Reads (readLog sha) log.serialize log := by
  have hcount := h.leafCount
  have hlt : log.leafCount < 2 ^ 64 := hcount.trans_lt h.few
  have hpeaks : log.peaks.peaks.length = Mmr.ones 64 log.leafCount := by
    rw [hcount, h.peaks]
    exact (ones_peaksOf h.few).2
  have hnp : log.peaks.peaks.length < 2 ^ 32 := by
    have := Mmr.ones_le 64 log.leafCount
    omega
  unfold serialize readLog
  apply (reads_word (by decide)).bind
  apply Reads.guard (by decide)
  apply (reads_word (by split <;> decide)).bind
  apply Reads.guard (by split <;> decide)
  apply (reads_u64 ⟨log.leafCount, hlt⟩).bind
  apply (reads_u32 ⟨log.peaks.peaks.length, hnp⟩).bind
  apply Reads.guard hpeaks
  apply (reads_hashes log.peaks.peaks).bind
  obtain ⟨⟨ps, kept⟩, retain⟩ := log
  obtain ⟨hfew, hps, hkept⟩ := h
  cases hps
  cases retain with
  | false =>
    cases hkept
    rw [if_neg (by simp)]
    exact Reads.pure _
  | true =>
    cases hkept
    rw [if_pos (by simp)]
    change Reads (readLeaves sha (peaksOf sha leaves) ⟨_, hlt⟩) _ _
    rw [show (⟨_, hlt⟩ : U64) = ⟨leaves.length, hfew⟩ from Fin.ext hcount]
    exact reads_readLeaves hfew

theorem require_eq_some {c : Prop} [Decidable c] {a : Unit}
    (h : (require c : Reader Byte Unit) s = some (a, s')) : c ∧ s = s' := by
  unfold require at h
  split at h
  · rename_i hc
    cases h
    exact ⟨hc, rfl⟩
  · cases h

theorem readLeaves_eq_some {ps : PeakSet} {n : U64} (h : readLeaves sha ps n s = some (log, s')) :
    ∃ leaves, leaves.length = n.val ∧ log = ⟨⟨ps, leaves⟩, true⟩ ∧
      s = putU64 leaves.length ++ leaves.flatMap Bytes32.toBytes ++ s' := by
  obtain ⟨⟨nl, s₁⟩, hnl, h⟩ := Option.bind_eq_some_iff.mp h
  obtain ⟨⟨_, s₂⟩, heq, h⟩ := Option.bind_eq_some_iff.mp h
  obtain ⟨⟨_, s₄⟩, hroom, h⟩ := Option.bind_eq_some_iff.mp h
  obtain ⟨⟨leaves, s₅⟩, hleaves, h⟩ := Option.bind_eq_some_iff.mp h
  obtain ⟨⟨_, s₆⟩, hpeaks, h⟩ := Option.bind_eq_some_iff.mp h
  obtain ⟨rfl, rfl⟩ := require_eq_some heq
  obtain ⟨-, rfl⟩ := require_eq_some hroom
  obtain ⟨-, rfl⟩ := require_eq_some hpeaks
  cases h
  obtain ⟨hlength, -⟩ := yields_times (Yields.trivial b32) nl.val _ leaves _ hleaves
  refine ⟨leaves, hlength, rfl, ?_⟩
  rw [undoes_u64 s nl _ hnl, undoes_times undoes_b32 _ _ leaves _ hleaves, hlength, append_assoc]

theorem readLog_eq_some (h : readLog sha s = some (log, s')) :
    log.leafCount < 2 ^ 64 ∧ (log.retain = true → log.leaves.length = log.leafCount) ∧
      ∃ ver, s = bytesLE 1 ver ++ (log.serialize.drop 1 ++ s') := by
  obtain ⟨⟨ver, s₁⟩, hver, h⟩ := Option.bind_eq_some_iff.mp h
  obtain ⟨⟨_, s₂⟩, hknown, h⟩ := Option.bind_eq_some_iff.mp h
  obtain ⟨⟨flags, s₃⟩, hflags, h⟩ := Option.bind_eq_some_iff.mp h
  obtain ⟨⟨_, s₄⟩, hreserved, h⟩ := Option.bind_eq_some_iff.mp h
  obtain ⟨⟨n, s₅⟩, hn, h⟩ := Option.bind_eq_some_iff.mp h
  obtain ⟨⟨np, s₆⟩, hnp, h⟩ := Option.bind_eq_some_iff.mp h
  obtain ⟨⟨_, s₇⟩, hcount, h⟩ := Option.bind_eq_some_iff.mp h
  obtain ⟨⟨peaks, s₈⟩, hpeaks, hlast⟩ := Option.bind_eq_some_iff.mp h
  obtain ⟨-, rfl⟩ := require_eq_some hknown
  obtain ⟨hbits, rfl⟩ := require_eq_some hreserved
  obtain ⟨-, rfl⟩ := require_eq_some hcount
  obtain ⟨hlength, -⟩ := yields_times (Yields.trivial b32) np.val _ peaks _ hpeaks
  have hbyte := yields_word 1 _ flags _ hflags
  have hs : s = bytesLE 1 ver ++ (bytesLE 1 flags ++ (putU64 n.val ++ (putU32 peaks.length ++
      (peaks.flatMap Bytes32.toBytes ++ s₈)))) := by
    rw [undoes_word 1 s ver _ hver, undoes_word 1 _ flags _ hflags, undoes_u64 _ n _ hn,
      undoes_u32 _ np _ hnp, undoes_times undoes_b32 _ _ peaks _ hpeaks, hlength]
  have hflag : ∀ flags < 256, flags &&& 0xfe = 0 → flags = 0 ∨ flags = 1 := by
    decide +kernel
  dsimp only at hlast
  rcases hflag flags hbyte hbits with hzero | hone
  · rw [hzero, if_neg (by decide)] at hlast
    cases hlast
    refine ⟨n.isLt, nofun, ver, ?_⟩
    rw [hs, hzero, serialize, drop_left' (length_bytesLE 1 1)]
    simp [V37.RecordLog.leafCount]
  rw [hone, if_pos (by decide)] at hlast
  obtain ⟨leaves, hleaves, rfl, rfl⟩ := readLeaves_eq_some hlast
  refine ⟨n.isLt, fun _ => hleaves, ver, ?_⟩
  rw [hs, hone, serialize, drop_left' (length_bytesLE 1 1)]
  simp [V37.RecordLog.leafCount]

theorem deserialize_eq_some {v : List Byte} (h : deserialize sha v = some log) :
    readLog sha v = some (log, []) := by
  unfold deserialize Reader.all at h
  split at h
  · cases h
    assumption
  · cases h

/-- **Persistence.**  A run keeps a log that is read back as it was written just when it appends
within the count and switches retention on where no leaf was given up; and what is read is, but for
the version, what is written for it. -/
theorem serialize_round_trips (sha : List Byte → Bytes32) (retain : Bool) (calls : List LogCall) :
    ((∀ done, done <+: calls →
        let log := run (call sha) { retain := retain } done
        deserialize sha log.serialize = some log) ↔
      Admissible (call sha) Keeps { retain := retain } calls) ∧
    ∀ v log, deserialize sha v = some log → log.serialize = bytesLE 1 1 ++ v.drop 1 := by
  constructor
  · refine @always_iff_admissible _ _ (call sha) Keeps _ calls (fun log => ∃ leaves, Logs sha leaves
      log) (fun log => deserialize sha log.serialize = some log) ?_ ?_ ?_ ?_
    · rintro log ⟨leaves, h⟩
      exact h.reads.all_eq
    · exact fun log c h hc => Logs.call h hc
    · rintro log c ⟨leaves, h⟩ hread
      obtain ⟨hlt, hkept, -⟩ := readLog_eq_some (deserialize_eq_some hread)
      cases c with
      | append payload => exact hlt
      | appendLeaf leaf => exact hlt
      | setRetainLeaves on =>
        rintro rfl
        have hempty := h.kept
        have hcount : log.leaves.length = log.leafCount := hkept rfl
        cases hretain : log.retain with
        | true => exact .inl rfl
        | false =>
          rw [hretain, if_neg (by decide)] at hempty
          rw [hempty] at hcount
          exact .inr hcount.symm
    · exact ⟨[], by decide, rfl, by cases retain <;> rfl⟩
  intro v log h
  obtain ⟨-, -, ver, rfl⟩ := readLog_eq_some (deserialize_eq_some h)
  rw [append_nil, drop_left' (length_bytesLE 1 ver)]
  rw [serialize, drop_left' (length_bytesLE 1 1)]

/-- One leaf, then retention off. -/
theorem serialize_round_trips_off :
    let log := run (call Sha256.sha256d) { retain := true } [.append [7], .setRetainLeaves false]
    deserialize Sha256.sha256d log.serialize = some log ∧
      log.serialize = bytesLE 1 1 ++ log.serialize.drop 1 := by
  obtain ⟨hruns, hbytes⟩ := serialize_round_trips Sha256.sha256d true
    [.append [7], .setRetainLeaves false]
  have hread := hruns.mpr ⟨(by decide : 0 + 1 < 2 ^ 64), nofun, trivial⟩ _ prefix_rfl
  exact ⟨hread, hbytes _ _ hread⟩

/-- One leaf, then retention off and on: the log is written with no leaves under a count of one,
which is refused. -/
theorem deserialize_retain_again :
    let log := run (call Sha256.sha256d) {}
      [.append [7], .setRetainLeaves false, .setRetainLeaves true]
    deserialize Sha256.sha256d log.serialize = none := by
  decide +kernel

end Persistence

end RecordLog

end C2Pool.V37.Recordlog
