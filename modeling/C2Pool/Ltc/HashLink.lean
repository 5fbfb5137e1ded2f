import C2Pool.Lib.BlockHasher

/-! # Hash links of a share

A share carries, instead of its coinbase, the SHA-256 state after the part that ends in the constant
donation script. `prefix_to_hash_link` captures that state and `check_hash_link` resumes it. The
compression function and what the fresh hashers' buffers held before are parameters.
-/

namespace C2Pool.Ltc

/-- The eight words of a SHA-256 state. -/
abbrev Words := Vector UInt32 8

/-- The `CSHA256` object: `s`, `buf` and `bytes`. -/
abbrev CSHA256 := BlockHasher Words UInt8

def writeBE32 (x : UInt32) : Vector UInt8 4 :=
  #v[UInt8.ofNat (x.toNat / 2 ^ 24), UInt8.ofNat (x.toNat / 2 ^ 16), UInt8.ofNat (x.toNat / 2 ^ 8),
    UInt8.ofNat x.toNat]

def readBE32 (b : Vector UInt8 4) : UInt32 :=
  UInt32.ofNat (b[0].toNat * 2 ^ 24 + b[1].toNat * 2 ^ 16 + b[2].toNat * 2 ^ 8 + b[3].toNat)

/-- `WriteBE64` of the low 64 bits of `x`. -/
def writeBE64 (x : Nat) : List UInt8 :=
  (List.range 8).map fun i => UInt8.ofNat (x % 2 ^ 64 / 2 ^ (8 * (7 - i)))

def writeWords (s : Words) : Vector UInt8 32 :=
  Vector.ofFn fun k : Fin 32 => (writeBE32 s[k.val / 4])[k.val % 4]

def readWords (b : Vector UInt8 32) : Words :=
  Vector.ofFn fun i : Fin 8 =>
    readBE32 (Vector.ofFn fun k : Fin 4 => b[4 * i.val + k.val])

/-- `sha256::Initialize` without a custom state. -/
def initialWords : Words :=
  #v[0x6a09e667, 0xbb67ae85, 0x3c6ef372, 0xa54ff53a, 0x510e527f, 0x9b05688c, 0x1f83d9ab, 0x5be0cd19]

/-- The padding of `CSHA256::Finalize`. -/
def pad : List UInt8 := 0x80 :: List.replicate 63 0

section

variable (transform : Words → List UInt8 → Words)

/-- `CSHA256()`: only the state and the counter are set. -/
def CSHA256.fresh (memory : Vector UInt8 64) : CSHA256 := ⟨initialWords, memory.toList, 0⟩

/-- `CSHA256(custom_init, _buf, _length)`. -/
def CSHA256.resumed (memory : Vector UInt8 64) (customInit : Words) (buf : List UInt8)
    (length : Nat) : CSHA256 :=
  ⟨customInit, BlockHasher.memcpy memory.toList 0 buf, length⟩

def CSHA256.write (h : CSHA256) (data : List UInt8) : CSHA256 :=
  BlockHasher.write transform 64 (2 ^ 64) h data

def CSHA256.finalize (h : CSHA256) : Vector UInt8 32 :=
  let sizedesc := writeBE64 (h.bytes * 2 ^ 3)
  let h' := CSHA256.write transform h (pad.take (1 + (119 - h.bytes % 64) % 64))
  writeWords (CSHA256.write transform h' sizedesc).s

/-- `HashLinkType`: the captured state and the number of bytes behind it. -/
structure HashLink where
  state : Vector UInt8 32
  length : Nat

/-- `V36HashLinkType`: with the part of the partial block that is not in the constant ending. -/
structure V36HashLink where
  state : Vector UInt8 32
  extraData : List UInt8
  length : Nat

def prefixToHashLink (memory : Vector UInt8 64) (front constEnding : List UInt8) : V36HashLink :=
  let hasher := CSHA256.write transform (CSHA256.fresh memory) front
  let bufsize := hasher.bytes % 64
  let extraLen := if constEnding.length < bufsize then bufsize - constEnding.length else 0
  { state := writeWords hasher.s, extraData := hasher.buf.take extraLen, length := hasher.bytes }

/-- `prefix_to_hash_link_v35`: drops the extra data. -/
def prefixToHashLinkV35 (memory : Vector UInt8 64) (front constEnding : List UInt8) : HashLink :=
  let link := prefixToHashLink transform memory front constEnding
  { state := link.state, length := link.length }

def extraV36 (extraData constEnding : List UInt8) (extraLength : Nat) : List UInt8 :=
  if extraData.length < extraLength then
    let needed := extraLength - extraData.length
    if needed ≤ constEnding.length then
      extraData ++ constEnding.drop (constEnding.length - needed)
    else extraData
  else extraData

def extraPreV36 (constEnding : List UInt8) (extraLength : Nat) : List UInt8 :=
  if extraLength < constEnding.length then constEnding.drop (constEnding.length - extraLength)
  else constEnding

/-- The part of `check_hash_link` both kinds of links share: refuses a partial block of another
length than the counter says, resumes the first pass, and hashes its output again. -/
def resumeHashLink (memory memory' : Vector UInt8 64) (state : Vector UInt8 32)
    (extra : List UInt8) (length : Nat) (data : List UInt8) : Except String (Vector UInt8 32) :=
  if extra.length ≠ length % 64 then throw "check_hash_link: extra size mismatch"
  else
    let hasher := CSHA256.resumed memory (readWords state) extra length
    let out1 := CSHA256.finalize transform (CSHA256.write transform hasher data)
    let second := CSHA256.write transform (CSHA256.fresh memory') out1.toList
    return CSHA256.finalize transform second

/-- `check_hash_link` on a V36 link. -/
def checkHashLink (memory memory' : Vector UInt8 64) (hashLink : V36HashLink)
    (data constEnding : List UInt8) : Except String (Vector UInt8 32) :=
  resumeHashLink transform memory memory' hashLink.state
    (extraV36 hashLink.extraData constEnding (hashLink.length % 64)) hashLink.length data

/-- `check_hash_link` on a link of the versions before 36. -/
def checkHashLinkV35 (memory memory' : Vector UInt8 64) (hashLink : HashLink)
    (data constEnding : List UInt8) : Except String (Vector UInt8 32) :=
  resumeHashLink transform memory memory' hashLink.state
    (extraPreV36 constEnding (hashLink.length % 64)) hashLink.length data

/-- The message, a one bit, zeros up to eight bytes before the end of a block, and the length in
bits. -/
def padded (m : List UInt8) : List UInt8 :=
  m ++ 0x80 :: List.replicate ((119 - m.length % 64) % 64) 0 ++ writeBE64 (m.length * 8)

def sha256 (m : List UInt8) : Vector UInt8 32 :=
  writeWords (BlockHasher.transformBlocks transform 64 ((padded m).length / 64) initialWords
    (padded m))

def sha256d (m : List UInt8) : Vector UInt8 32 := sha256 transform (sha256 transform m).toList

end

theorem readBE32_writeBE32 (x : UInt32) : readBE32 (writeBE32 x) = x := by
  have hx := x.toNat_lt
  apply UInt32.toNat_inj.mp
  simp only [readBE32, writeBE32, UInt32.toNat_ofNat', Vector.getElem_mk, List.getElem_toArray,
    List.getElem_cons_zero, List.getElem_cons_succ, UInt8.toNat_ofNat']
  omega

theorem readWords_writeWords (s : Words) : readWords (writeWords s) = s := by
  apply Vector.ext
  intro i hi
  have hbytes : (Vector.ofFn fun k : Fin 4 => (writeWords s)[4 * i + k.val]) = writeBE32 s[i] := by
    apply Vector.ext
    intro k hk
    have hdiv : (4 * i + k) / 4 = i := by omega
    have hmod : (4 * i + k) % 4 = k := by omega
    simp only [writeWords, Vector.getElem_ofFn, hdiv, hmod]
  simp only [readWords, Vector.getElem_ofFn, hbytes, readBE32_writeBE32]

theorem length_writeBE64 (x : Nat) : (writeBE64 x).length = 8 := by
  simp [writeBE64]

theorem writeBE64_mod (x : Nat) : writeBE64 (x % 2 ^ 64) = writeBE64 x := by
  simp only [writeBE64, Nat.mod_mod]

theorem take_pad {k : Nat} (hk : k < 64) : pad.take (1 + k) = 0x80 :: List.replicate k 0 := by
  rw [Nat.add_comm, pad, List.take_succ_cons, List.take_replicate, Nat.min_eq_left (by omega)]

theorem padded_aligned (m : List UInt8) : (padded m).length = (padded m).length / 64 * 64 := by
  simp only [padded, List.length_append, List.length_cons, List.length_replicate, length_writeBE64]
  omega

variable {transform : Words → List UInt8 → Words} {h : CSHA256} {m front constEnding : List UInt8}

/-- The object has consumed `m` from the initial state. -/
abbrev CSHA256.Consumed (transform : Words → List UInt8 → Words) (h : CSHA256)
    (m : List UInt8) : Prop :=
  BlockHasher.Represents transform 64 (2 ^ 64) initialWords h m

theorem CSHA256.consumed_fresh (memory : Vector UInt8 64) :
    CSHA256.Consumed transform (CSHA256.fresh memory) [] := BlockHasher.Represents.nil (by simp)

section

variable (hr : CSHA256.Consumed transform h m)
include hr

theorem CSHA256.Consumed.write (data : List UInt8) :
    CSHA256.Consumed transform (CSHA256.write transform h data) (m ++ data) :=
  BlockHasher.Represents.write hr (by decide) (by decide) data

theorem CSHA256.Consumed.finalize : CSHA256.finalize transform h = sha256 transform m := by
  have hmod : h.bytes % 64 = m.length % 64 := hr.bytes_mod (by decide)
  have hsize : writeBE64 (h.bytes * 2 ^ 3) = writeBE64 (m.length * 8) := by
    rw [hr.bytes, ← writeBE64_mod, Nat.mod_mul_mod, writeBE64_mod, Nat.pow_succ]
  have hpad : pad.take (1 + (119 - h.bytes % 64) % 64) =
      0x80 :: List.replicate ((119 - m.length % 64) % 64) 0 := by
    rw [hmod, take_pad (Nat.mod_lt _ (by decide))]
  have hall := (hr.write (pad.take (1 + (119 - h.bytes % 64) % 64))).write
    (writeBE64 (h.bytes * 2 ^ 3))
  have hmessage : m ++ pad.take (1 + (119 - h.bytes % 64) % 64) ++ writeBE64 (h.bytes * 2 ^ 3) =
      padded m := by
    rw [hpad, hsize, padded]
  rw [hmessage] at hall
  simp only [CSHA256.finalize, sha256, hall.s_of_aligned (by decide) (padded_aligned m)]

theorem CSHA256.Consumed.resumed (memory : Vector UInt8 64) :
    CSHA256.Consumed transform
      (CSHA256.resumed memory (readWords (writeWords h.s)) (m.drop (m.length / 64 * 64)) h.bytes)
      m := by
  have hlen : (m.drop (m.length / 64 * 64)).length = m.length % 64 := by
    rw [List.length_drop]
    omega
  have hmemory : memory.toList.length = 64 := by simp
  constructor
  · exact hr.bytes
  · rw [CSHA256.resumed, readWords_writeWords]
    exact hr.s
  · rw [CSHA256.resumed, BlockHasher.length_memcpy (by omega), hmemory]
  · have htake := @BlockHasher.take_memcpy UInt8 memory.toList (m.drop (m.length / 64 * 64)) 0
    rw [hlen] at htake
    simpa [CSHA256.resumed] using htake

theorem resumeHashLink_eq (memory memory' : Vector UInt8 64) (data : List UInt8) :
    resumeHashLink transform memory memory' (writeWords h.s) (m.drop (m.length / 64 * 64)) h.bytes
      data = .ok (sha256d transform (m ++ data)) := by
  have hlen : (m.drop (m.length / 64 * 64)).length = h.bytes % 64 := by
    rw [hr.bytes_mod (by decide), List.length_drop]
    omega
  have hfirst := ((hr.resumed memory).write data).finalize
  have hsecond : ∀ out : List UInt8, CSHA256.finalize transform
      (CSHA256.write transform (CSHA256.fresh memory') out) = sha256 transform out := by
    intro out
    simpa using ((CSHA256.consumed_fresh memory').write out).finalize
  unfold resumeHashLink
  rw [if_neg (by simpa using hlen)]
  simp only [hfirst, hsecond]
  rfl

end

theorem extraV36_eq (hending : constEnding <:+ front) {n : Nat} (hn : n ≤ front.length) :
    extraV36 ((front.drop (front.length - n)).take (n - constEnding.length)) constEnding n =
      front.drop (front.length - n) := by
  obtain ⟨init, rfl⟩ := hending
  have hlength := @List.length_append _ init constEnding
  by_cases hlong : constEnding.length < n
  · have hdrop : (init ++ constEnding).drop ((init ++ constEnding).length - n) =
        init.drop ((init ++ constEnding).length - n) ++ constEnding :=
      List.drop_append_of_le_length (by omega)
    have hkept : (init.drop ((init ++ constEnding).length - n)).length =
        n - constEnding.length := by
      rw [List.length_drop]
      omega
    rw [hdrop, List.take_append_of_le_length (by omega), List.take_of_length_le (by omega)]
    unfold extraV36
    by_cases hzero : constEnding.length = 0
    · rw [if_neg (by omega), List.length_eq_zero_iff.mp hzero, List.append_nil, List.append_nil]
    rw [if_pos (by omega), if_pos (by omega), hkept]
    have hwhole : constEnding.length - (n - (n - constEnding.length)) = 0 := by omega
    rw [hwhole, List.drop_zero]
  have hdrop : (init ++ constEnding).drop ((init ++ constEnding).length - n) =
      constEnding.drop (constEnding.length - n) := by
    rw [List.drop_append, List.drop_of_length_le (by omega), List.nil_append]
    congr 1
    omega
  have hnone : n - constEnding.length = 0 := by omega
  rw [hnone, List.take_zero, hdrop]
  unfold extraV36
  by_cases hzero : n = 0
  · subst hzero
    simp
  · simp only [List.length_nil, Nat.sub_zero, List.nil_append]
    rw [if_pos (by omega), if_pos (by omega)]

theorem extraPreV36_eq (hending : constEnding <:+ front) {n : Nat} (hn : n ≤ constEnding.length) :
    extraPreV36 constEnding n = front.drop (front.length - n) := by
  obtain ⟨init, rfl⟩ := hending
  have hdrop : (init ++ constEnding).drop ((init ++ constEnding).length - n) =
      constEnding.drop (constEnding.length - n) := by
    rw [List.length_append, List.drop_append, List.drop_of_length_le (by omega), List.nil_append]
    congr 1
    omega
  rw [hdrop]
  unfold extraPreV36
  by_cases hlt : n < constEnding.length
  · rw [if_pos hlt]
  · have hwhole : constEnding.length - n = 0 := by omega
    rw [if_neg hlt, hwhole, List.drop_zero]

theorem prefixToHashLink_eq (memory : Vector UInt8 64) (front constEnding : List UInt8) :
    ∃ h : CSHA256, CSHA256.Consumed transform h front ∧
      prefixToHashLink transform memory front constEnding =
        { state := writeWords h.s
          extraData := (front.drop (front.length - front.length % 64)).take
            (front.length % 64 - constEnding.length)
          length := h.bytes } := by
  have hr : CSHA256.Consumed transform (CSHA256.write transform (CSHA256.fresh memory) front)
      front := by
    simpa using (CSHA256.consumed_fresh memory).write front
  have hstart : front.length - front.length % 64 = front.length / 64 * 64 := by omega
  refine ⟨_, hr, ?_⟩
  unfold prefixToHashLink
  simp only [hr.bytes_mod (by decide), hstart, ← hr.buf, List.take_take]
  congr 2
  split <;> omega

/-- Checking the link of a prefix over the rest of the coinbase is hashing the whole coinbase, also
when the link drops its extra data, if the ending covers every partial block. -/
theorem hash_link_resumes (transform : Words → List UInt8 → Words)
    (memory memory₁ memory₂ : Vector UInt8 64) {front constEnding : List UInt8}
    (hending : constEnding <:+ front) (data : List UInt8) :
    checkHashLink transform memory₁ memory₂
        (prefixToHashLink transform memory front constEnding) data constEnding =
      .ok (sha256d transform (front ++ data)) ∧
    (63 ≤ constEnding.length →
      checkHashLinkV35 transform memory₁ memory₂
          (prefixToHashLinkV35 transform memory front constEnding) data constEnding =
        .ok (sha256d transform (front ++ data))) := by
  obtain ⟨h, hr, hlink⟩ := @prefixToHashLink_eq transform memory front constEnding
  have hmod : h.bytes % 64 = front.length % 64 := hr.bytes_mod (by decide)
  have hstart : front.length - front.length % 64 = front.length / 64 * 64 := by omega
  have hresume := resumeHashLink_eq hr memory₁ memory₂ data
  rw [← hstart] at hresume
  constructor
  · rw [hlink, checkHashLink]
    simp only [hmod]
    rw [extraV36_eq hending (Nat.mod_le _ _)]
    exact hresume
  intro hlong
  rw [prefixToHashLinkV35, hlink, checkHashLinkV35]
  simp only [hmod]
  rw [extraPreV36_eq hending (by omega)]
  exact hresume

/-- A prefix of seventy bytes, of which the last sixty-three are the ending, under a compression
function that adds every byte of the block to every word. -/
theorem hash_link_resumes_seventy :
    let mixing : Words → List UInt8 → Words :=
      fun s block => s.map fun w => block.foldl (fun x b => 31 * x + b.toUInt32) w
    let ending := List.replicate 63 7
    let link := prefixToHashLinkV35 mixing (Vector.replicate 64 5)
      (List.replicate 7 1 ++ ending) ending
    63 ≤ ending.length ∧
      checkHashLinkV35 mixing (Vector.replicate 64 9) (Vector.replicate 64 0) link [2, 3] ending =
        .ok (sha256d mixing (List.replicate 7 1 ++ ending ++ [2, 3])) := by
  intro mixing ending link
  have hlong : 63 ≤ ending.length := by decide
  exact ⟨hlong, (hash_link_resumes mixing _ _ _ (List.suffix_append _ ending) _).2 hlong⟩

end C2Pool.Ltc
