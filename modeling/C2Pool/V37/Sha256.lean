import C2Pool.V37.Merkle

/-! # The hash

`sha256` and `sha256d` (`v37_hash.hpp`), on 32-bit words as numbers.
-/

namespace C2Pool.V37.Sha256

def word (x : Nat) : Nat := x % 2 ^ 32

def rotr (x n : Nat) : Nat := word (x >>> n ||| x <<< (32 - n))

/-- The value of a word before what is done with it. -/
def strict {α : Type} (x : Nat) (k : Nat → α) : α :=
  match x with
  | 0 => k 0
  | n + 1 => k (n + 1)

def roundConstants : List Nat :=
  [0x428a2f98, 0x71374491, 0xb5c0fbcf, 0xe9b5dba5, 0x3956c25b, 0x59f111f1, 0x923f82a4, 0xab1c5ed5,
    0xd807aa98, 0x12835b01, 0x243185be, 0x550c7dc3, 0x72be5d74, 0x80deb1fe, 0x9bdc06a7, 0xc19bf174,
    0xe49b69c1, 0xefbe4786, 0x0fc19dc6, 0x240ca1cc, 0x2de92c6f, 0x4a7484aa, 0x5cb0a9dc, 0x76f988da,
    0x983e5152, 0xa831c66d, 0xb00327c8, 0xbf597fc7, 0xc6e00bf3, 0xd5a79147, 0x06ca6351, 0x14292967,
    0x27b70a85, 0x2e1b2138, 0x4d2c6dfc, 0x53380d13, 0x650a7354, 0x766a0abb, 0x81c2c92e, 0x92722c85,
    0xa2bfe8a1, 0xa81a664b, 0xc24b8b70, 0xc76c51a3, 0xd192e819, 0xd6990624, 0xf40e3585, 0x106aa070,
    0x19a4c116, 0x1e376c08, 0x2748774c, 0x34b0bcb5, 0x391c0cb3, 0x4ed8aa4a, 0x5b9cca4f, 0x682e6ff3,
    0x748f82ee, 0x78a5636f, 0x84c87814, 0x8cc70208, 0x90befffa, 0xa4506ceb, 0xbef9a3f7, 0xc67178f2]

structure State where
  a : Nat
  b : Nat
  c : Nat
  d : Nat
  e : Nat
  f : Nat
  g : Nat
  h : Nat

def init : State where
  a := 0x6a09e667
  b := 0xbb67ae85
  c := 0x3c6ef372
  d := 0xa54ff53a
  e := 0x510e527f
  f := 0x9b05688c
  g := 0x1f83d9ab
  h := 0x5be0cd19

def scheduleWord (ws : List Nat) : Nat :=
  let x := ws.getD 14 0
  let y := ws.getD 1 0
  word (ws.getD 15 0 + (rotr x 7 ^^^ rotr x 18 ^^^ x >>> 3) + ws.getD 6 0 +
    (rotr y 17 ^^^ rotr y 19 ^^^ y >>> 10))

def extend : Nat → List Nat → List Nat
  | 0, ws => ws
  | n + 1, ws => strict (scheduleWord ws) fun w => extend n (w :: ws)

/-- `t1` of a round. -/
def t1 (s : State) (k w : Nat) : Nat :=
  s.h + (rotr s.e 6 ^^^ rotr s.e 11 ^^^ rotr s.e 25) +
    ((s.e &&& s.f) ^^^ ((2 ^ 32 - 1 - s.e) &&& s.g)) + k + w

/-- `t2` of a round. -/
def t2 (s : State) : Nat :=
  (rotr s.a 2 ^^^ rotr s.a 13 ^^^ rotr s.a 22) + ((s.a &&& s.b) ^^^ (s.a &&& s.c) ^^^ (s.b &&& s.c))

def rounds : List Nat → List Nat → State → State
  | k :: ks, w :: ws, s =>
    strict (t1 s k w) fun x => strict (word (s.d + x)) fun e => strict (word (x + t2 s)) fun a =>
      rounds ks ws ⟨a, s.a, s.b, s.c, e, s.e, s.f, s.g⟩
  | _, _, s => s

def blockWords : List Byte → List Nat
  | p :: q :: r :: s :: rest =>
    (p.val <<< 24 ||| q.val <<< 16 ||| r.val <<< 8 ||| s.val) :: blockWords rest
  | _ => []

def compress (s : State) (block : List Byte) : State :=
  let ws := (extend 48 (blockWords block).reverse).reverse
  let r := rounds roundConstants ws s
  ⟨word (s.a + r.a), word (s.b + r.b), word (s.c + r.c), word (s.d + r.d), word (s.e + r.e),
    word (s.f + r.f), word (s.g + r.g), word (s.h + r.h)⟩

/-- `finalize`: a one bit, zeroes up to 56 bytes of a block, and the length in bits. -/
def padding (len : Nat) : List Byte :=
  (0x80 : Byte) :: (List.replicate ((119 - len % 64) % 64) (0 : Byte) ++
    (List.range 8).map fun i => Fin.ofNat 256 ((len * 8 % 2 ^ 64) >>> (56 - i * 8)))

def compressAll : Nat → State → List Byte → State
  | 0, s, _ => s
  | n + 1, s, bytes => compressAll n (compress s (bytes.take 64)) (bytes.drop 64)

def State.toBytes32 (s : State) : Bytes32 :=
  Fin.ofNat (2 ^ 256) ([s.a, s.b, s.c, s.d, s.e, s.f, s.g, s.h].foldl
    (fun x w => x * 2 ^ 32 + w) 0)

def sha256 (bytes : List Byte) : Bytes32 :=
  let padded := bytes ++ padding bytes.length
  (compressAll (padded.length / 64) init padded).toBytes32

def sha256d (bytes : List Byte) : Bytes32 := sha256 (sha256 bytes).toBytes

example : sha256 (putTag "abc") =
    0xba7816bf8f01cfea414140de5dae2223b00361a396177a9cb410ff61f20015ad := by
  decide +kernel

example : sha256d [] =
    0x5df6e0e2761359d30a8275058e299fcc0381534545f55cf43e41983f5d4c9456 := by
  decide +kernel

end C2Pool.V37.Sha256
