import C2Pool.Lib.Words

/-! # Hashers that consume a message in blocks

A hasher keeps a chaining state, a buffer of one block and a count of the bytes it was given. The
count wraps at a modulus, the buffer is raw memory of which only the first part is meaningful.
`Represents` says which message a hasher has consumed; `Represents.write` carries it over a write of
any length.
-/

namespace C2Pool

open List Nat

/-- A chaining state, the partial block, and the number of bytes consumed so far. -/
structure BlockHasher (σ α : Type) where
  s : σ
  buf : List α
  bytes : Nat

namespace BlockHasher

variable {σ α : Type}

/-- Overwrites `data.length` cells of `buf` from the offset on. -/
def memcpy (buf : List α) (offset : Nat) (data : List α) : List α :=
  buf.take offset ++ data ++ buf.drop (offset + data.length)

theorem length_memcpy {buf data : List α} {offset : Nat}
    (h : offset + data.length ≤ buf.length) : (memcpy buf offset data).length = buf.length := by
  simp only [memcpy, length_append, length_take, length_drop]
  omega

theorem take_memcpy {buf data : List α} {offset : Nat} (h : offset ≤ buf.length) :
    (memcpy buf offset data).take (offset + data.length) = buf.take offset ++ data := by
  have hlength : (buf.take offset ++ data).length = offset + data.length := by
    simp only [length_append, length_take]
    omega
  unfold memcpy
  rw [← hlength, take_left]

section Blocks

variable (transform : σ → List α → σ) (B : Nat)

/-- The compression function over the first `n` blocks of `l`. -/
def transformBlocks : Nat → σ → List α → σ
  | 0, s, _ => s
  | n + 1, s, l => transformBlocks n (transform s (l.take B)) (l.drop B)

theorem transformBlocks_add (a b : Nat) (s : σ) (l : List α) :
    transformBlocks transform B (a + b) s l =
      transformBlocks transform B b (transformBlocks transform B a s l) (l.drop (a * B)) := by
  induction a generalizing s l with
  | zero => simp [transformBlocks]
  | succ a ih =>
    rw [Nat.add_right_comm, transformBlocks, ih, transformBlocks, drop_drop, Nat.succ_mul,
      Nat.add_comm B]

theorem transformBlocks_append {n : Nat} {l : List α} (h : n * B ≤ l.length) (s : σ) (r : List α) :
    transformBlocks transform B n s (l ++ r) = transformBlocks transform B n s l := by
  induction n generalizing s l with
  | zero => rfl
  | succ n ih =>
    rw [Nat.succ_mul] at h
    have hblock : B ≤ l.length := by omega
    have hrest : n * B ≤ (l.drop B).length := by
      rw [length_drop]
      omega
    rw [transformBlocks, transformBlocks, take_append_of_le_length hblock,
      drop_append_of_le_length hblock, ih hrest]

end Blocks

/-! ## Writing -/

section Writing

variable (transform : σ → List α → σ) (B M : Nat)

/-- Completes the partial block with the front of `data` and compresses it. -/
def fill (h : BlockHasher σ α) (bufsize : Nat) (data : List α) : BlockHasher σ α :=
  let buf := memcpy h.buf bufsize (data.take (B - bufsize))
  { s := transformBlocks transform B 1 h.s buf, buf := buf, bytes := (h.bytes + (B - bufsize)) % M }

/-- Compresses the whole blocks at the front of `data`, without the buffer. -/
def blocks (h : BlockHasher σ α) (data : List α) : BlockHasher σ α :=
  let n := data.length / B
  { h with s := transformBlocks transform B n h.s data, bytes := (h.bytes + B * n) % M }

/-- Keeps what is left of `data` in the buffer. -/
def keep (h : BlockHasher σ α) (bufsize : Nat) (data : List α) : BlockHasher σ α :=
  { h with buf := memcpy h.buf bufsize data, bytes := (h.bytes + data.length) % M }

/-- What follows once the buffer holds `bufsize` bytes and cannot be completed by `data`. -/
def writeRest (h : BlockHasher σ α) (bufsize : Nat) (data : List α) : BlockHasher σ α :=
  let (h, data) :=
    if B ≤ data.length then (h.blocks transform B M data, data.drop (B * (data.length / B)))
    else (h, data)
  if data.length = 0 then h else h.keep M bufsize data

def write (h : BlockHasher σ α) (data : List α) : BlockHasher σ α :=
  let bufsize := h.bytes % B
  if bufsize ≠ 0 ∧ B ≤ bufsize + data.length then
    (h.fill transform B M bufsize data).writeRest transform B M 0 (data.drop (B - bufsize))
  else h.writeRest transform B M bufsize data

/-- The hasher has consumed the message `m`, starting from the chaining state `init`. -/
structure Represents (init : σ) (h : BlockHasher σ α) (m : List α) : Prop where
  bytes : h.bytes = m.length % M
  s : h.s = transformBlocks transform B (m.length / B) init m
  size : h.buf.length = B
  buf : h.buf.take (m.length % B) = m.drop (m.length / B * B)

end Writing

namespace Represents

variable {transform : σ → List α → σ} {B M : Nat} {init : σ} {h : BlockHasher σ α} {m : List α}

/-- The counter wraps at a multiple of the block size, so it still tells the fill of the buffer. -/
theorem bytes_mod (hM : B ∣ M) (hr : Represents transform B M init h m) :
    h.bytes % B = m.length % B := by
  rw [hr.bytes, mod_mod_of_dvd _ hM]

theorem add_bytes (hr : Represents transform B M init h m) (n : Nat) :
    (h.bytes + n) % M = (m.length + n) % M := by
  rw [hr.bytes, mod_add_mod]

theorem nil {buf : List α} (hbuf : buf.length = B) :
    Represents transform B M init ⟨init, buf, 0⟩ [] where
  bytes := by simp
  s := by simp [transformBlocks]
  size := hbuf
  buf := by simp

section

variable (hr : Represents transform B M init h m) (hB : 0 < B) {data : List α}
include hr hB

theorem fill (hfill : B ≤ m.length % B + data.length) :
    Represents transform B M init (h.fill transform B M (m.length % B) data)
      (m ++ data.take (B - m.length % B)) := by
  have hlt := Nat.mod_lt m.length hB
  have hm := div_add_mod' m.length B
  have hsize := hr.size
  have hlen : (data.take (B - m.length % B)).length = B - m.length % B := by
    rw [length_take]
    omega
  have htotal : (m ++ data.take (B - m.length % B)).length = (m.length / B + 1) * B := by
    rw [length_append, hlen, Nat.succ_mul]
    omega
  have hdiv : (m ++ data.take (B - m.length % B)).length / B = m.length / B + 1 := by
    rw [htotal, Nat.mul_div_cancel _ hB]
  have hmod : (m ++ data.take (B - m.length % B)).length % B = 0 := by
    rw [htotal, mul_mod_left]
  have hbuf : memcpy h.buf (m.length % B) (data.take (B - m.length % B)) =
      (m ++ data.take (B - m.length % B)).drop (m.length / B * B) := by
    have htake := @take_memcpy α h.buf (data.take (B - m.length % B)) (m.length % B)
      (by omega)
    rw [take_of_length_le (by rw [length_memcpy] <;> omega), hr.buf] at htake
    rw [htake, drop_append_of_le_length (by omega)]
  constructor
  · rw [length_append, hlen]
    exact hr.add_bytes _
  · rw [hdiv, transformBlocks_add, transformBlocks_append _ _ (by omega), ← hr.s, ← hbuf]
    rfl
  · simp only [BlockHasher.fill]
    rw [length_memcpy (by omega), hsize]
  · rw [hmod, hdiv, ← htotal, take_zero, drop_length]

theorem blocks (haligned : m.length % B = 0) (data : List α) :
    Represents transform B M init (h.blocks transform B M data)
      (m ++ data.take (B * (data.length / B))) := by
  have hm := div_add_mod' m.length B
  have hle := mul_div_le data.length B
  have hlen : (data.take (B * (data.length / B))).length = B * (data.length / B) := by
    rw [length_take]
    omega
  have htotal : (m ++ data.take (B * (data.length / B))).length =
      (m.length / B + data.length / B) * B := by
    rw [length_append, hlen, Nat.add_mul, Nat.mul_comm B]
    omega
  have hdiv : (m ++ data.take (B * (data.length / B))).length / B =
      m.length / B + data.length / B := by
    rw [htotal, Nat.mul_div_cancel _ hB]
  constructor
  · rw [length_append, hlen]
    exact hr.add_bytes _
  · have hall : m.drop (m.length / B * B) = [] := drop_of_length_le (by omega)
    have hread := transformBlocks_append transform B (n := data.length / B)
      (l := data.take (B * (data.length / B))) (Nat.le_of_eq (by rw [hlen, Nat.mul_comm]))
      h.s (data.drop (B * (data.length / B)))
    rw [take_append_drop] at hread
    rw [hdiv, transformBlocks_add, transformBlocks_append _ _ (by omega), ← hr.s,
      drop_append_of_le_length (by omega), hall, nil_append, ← hread]
    rfl
  · exact hr.size
  · rw [hdiv, ← htotal, drop_length, htotal, mul_mod_left, take_zero]

theorem keep (hfits : m.length % B + data.length < B) :
    Represents transform B M init (h.keep M (m.length % B) data) (m ++ data) := by
  have hm := div_add_mod' m.length B
  have hsize := hr.size
  have hdiv : (m ++ data).length / B = m.length / B := by
    rw [length_append, ← hm, Nat.add_assoc, Nat.mul_comm, Nat.mul_add_div hB,
      Nat.div_eq_of_lt hfits, Nat.mul_add_div hB, Nat.div_eq_of_lt (Nat.mod_lt _ hB)]
  have hmod : (m ++ data).length % B = m.length % B + data.length := by
    have := div_add_mod' (m ++ data).length B
    rw [hdiv] at this
    rw [length_append] at *
    omega
  constructor
  · rw [length_append]
    exact hr.add_bytes _
  · rw [hdiv, transformBlocks_append _ _ (by omega)]
    exact hr.s
  · simp only [BlockHasher.keep]
    rw [length_memcpy (by omega), hsize]
  · simp only [BlockHasher.keep]
    rw [hmod, hdiv, take_memcpy (by omega), hr.buf, drop_append_of_le_length (by omega)]

theorem writeRest (hfits : m.length % B ≠ 0 → m.length % B + data.length < B) :
    Represents transform B M init (h.writeRest transform B M (m.length % B) data) (m ++ data) := by
  -- the tail of a write never completes a block
  have hkeep : ∀ {h' : BlockHasher σ α} {m' data' : List α},
      Represents transform B M init h' m' → m'.length % B + data'.length < B →
      Represents transform B M init
        (if data'.length = 0 then h' else h'.keep M (m'.length % B) data') (m' ++ data') := by
    intro h' m' data' hr' hlt
    by_cases hnil : data'.length = 0
    · rw [if_pos hnil, length_eq_zero_iff.mp hnil, append_nil]
      exact hr'
    · rw [if_neg hnil]
      exact hr'.keep hB hlt
  by_cases hlong : B ≤ data.length
  · have haligned : m.length % B = 0 := by
      by_contra hne
      omega
    have hle := mul_div_le data.length B
    have hmod : (m ++ data.take (B * (data.length / B))).length % B = 0 := by
      rw [length_append, length_take, Nat.min_eq_left hle, Nat.add_mul_mod_self_left, haligned]
    have hdrop : (data.drop (B * (data.length / B))).length < B := by
      have h1 := div_add_mod data.length B
      have h2 := Nat.mod_lt data.length hB
      rw [length_drop]
      omega
    have hdone := hkeep (hr.blocks hB haligned data) (by rw [hmod, Nat.zero_add]; exact hdrop)
    rw [append_assoc, take_append_drop, hmod] at hdone
    simpa [BlockHasher.writeRest, hlong, haligned] using hdone
  have hdone := @hkeep h m data hr (by
    by_cases hzero : m.length % B = 0
    · omega
    · exact hfits hzero)
  simpa [BlockHasher.writeRest, hlong] using hdone

theorem write (hM : B ∣ M) (data : List α) :
    Represents transform B M init (h.write transform B M data) (m ++ data) := by
  have hlt := Nat.mod_lt m.length hB
  unfold BlockHasher.write
  rw [hr.bytes_mod hM]
  by_cases hfill : m.length % B ≠ 0 ∧ B ≤ m.length % B + data.length
  · have hmod : (m ++ data.take (B - m.length % B)).length % B = 0 := by
      have hm := div_add_mod' m.length B
      have : (m ++ data.take (B - m.length % B)).length = (m.length / B + 1) * B := by
        rw [length_append, length_take, Nat.succ_mul]
        omega
      rw [this, mul_mod_left]
    have hdone := @writeRest σ α transform B M init _ _ (hr.fill hB hfill.2) hB
      (data.drop (B - m.length % B)) (fun hne => absurd hmod hne)
    rw [hmod, append_assoc, take_append_drop] at hdone
    simpa [hfill] using hdone
  have hdone := @writeRest σ α transform B M init h m hr hB data (by
    intro hne
    omega)
  simpa only [if_neg hfill] using hdone

end

theorem s_of_aligned (hr : Represents transform B M init h m) {n : Nat} (hB : 0 < B)
    (hn : m.length = n * B) : h.s = transformBlocks transform B n init m := by
  rw [hr.s, hn, Nat.mul_div_cancel _ hB]

end Represents

end BlockHasher

end C2Pool
