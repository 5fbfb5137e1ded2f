import C2Pool.Lib.Words

/-! # Q62 arithmetic and the decay tables

`v37_fixed.hpp`.  Scaled work is kept with 62 fractional bits and every product
truncates.  The tables are built by iterated truncating products, except for
the ratified geometry, whose entries are compiled in.
-/

namespace C2Pool.V37

abbrev U64 := Fin (2 ^ 64)

/-- What a call throws.  `wrapped` is not thrown: the model stops there where
an unsigned subtraction of the source would wrap around. -/
inductive Throw where
  | invalidArgument (what : String)
  | logicError (what : String)
  | wrapped
deriving DecidableEq

/-- `Q_ONE`, 1.0 in Q62. -/
def qOne : U64 := ⟨2 ^ 62, by decide⟩

/-- `U256::mul_q`.  The factors it is used with are at most 1.0, so the result
is at most `x` and none of its bits is lost. -/
def mulQ (x : Nat) (m : U64) : Nat := x * m.val / 2 ^ 62

def mulQ64 (a b : U64) : U64 := Fin.ofNat (2 ^ 64) (a.val * b.val / 2 ^ 62)

@[simp] theorem mulQ_zero (m : U64) : mulQ 0 m = 0 := by
  simp [mulQ]

@[simp] theorem mulQ_qOne (x : Nat) : mulQ x qOne = x := by
  exact Nat.mul_div_cancel x (by decide)

theorem mulQ_le {m : U64} (hm : m ≤ qOne) (x : Nat) : mulQ x m ≤ x := by
  have hval : m.val ≤ 2 ^ 62 := hm
  calc x * m.val / 2 ^ 62 ≤ x * 2 ^ 62 / 2 ^ 62 :=
        Nat.div_le_div_right (Nat.mul_le_mul_left x hval)
    _ = x := Nat.mul_div_cancel x (by decide)

theorem mulQ64_le {a b : U64} (hb : b ≤ qOne) : mulQ64 a b ≤ a := by
  have hval : b.val ≤ 2 ^ 62 := hb
  have hle : a.val * b.val / 2 ^ 62 ≤ a.val :=
    calc a.val * b.val / 2 ^ 62 ≤ a.val * 2 ^ 62 / 2 ^ 62 :=
          Nat.div_le_div_right (Nat.mul_le_mul_left _ hval)
      _ = a.val := Nat.mul_div_cancel _ (by decide)
  show (a.val * b.val / 2 ^ 62) % 2 ^ 64 ≤ a.val
  exact (Nat.mod_le _ _).trans hle

/-- The compiled-in tables of `v37_decay_canonical.hpp`: `DECAY` up to
`CANON_MAX_DEPTH` and `INV_DECAY` up to `CANON_EPOCH_LEN`. -/
structure CanonicalTables where
  decay : Nat → U64
  invDecay : Nat → U64

def canonHalfLife : Nat := 2160
def canonEpochLen : Nat := 4096
def canonMaxDepth : Nat := 8192

/-- `DecayTables`; `maxEpochs` is the last index of `epoch_shift`. -/
structure DecayTables where
  halfLife : Nat
  epochLen : Nat
  maxEpochs : Nat
  decay : Nat → U64
  invDecay : Nat → U64
  epochShift : Nat → U64

namespace DecayTables

/-- `1.0, per, per², …`, each product truncated. -/
def powers (per : U64) : Nat → U64
  | 0 => qOne
  | d + 1 => mulQ64 (powers per d) per

def ln2Micro : Nat := 693147

/-- `decay_per` of a geometry that is not ratified. -/
def decayPer (halfLife : Nat) : U64 :=
  Fin.ofNat (2 ^ 64) (2 ^ 62 - 2 ^ 62 * ln2Micro / (1000000 * halfLife))

def invPer (halfLife : Nat) : U64 :=
  Fin.ofNat (2 ^ 64) (2 ^ 124 / (decayPer halfLife).val)

/-- The test of `verify_or_throw`. -/
def Verified (canon : CanonicalTables) (halfLife epochLen maxDepth : Nat) : Prop :=
  canon.decay 0 = qOne ∧ canon.invDecay 0 = qOne ∧
    (canon.decay halfLife).val = 2 ^ 61 ∧
    (∀ d ∈ List.range maxDepth, canon.decay (d + 1) < canon.decay d) ∧
    (∀ j ∈ List.range (epochLen - 1), canon.invDecay j < canon.invDecay (j + 1))

instance (canon : CanonicalTables) (halfLife epochLen maxDepth : Nat) :
    Decidable (Verified canon halfLife epochLen maxDepth) := by
  unfold Verified
  infer_instance

/-- The tables once `decay` and `inv_decay` are chosen. -/
def withShift (halfLife epochLen maxEpochs : Nat) (decay invDecay : Nat → U64) : DecayTables :=
  ⟨halfLife, epochLen, maxEpochs, decay, invDecay, powers (decay epochLen)⟩

def init (canon : CanonicalTables) (halfLife epochLen maxDepth maxEpochs : Nat) :
    Except Throw DecayTables :=
  if halfLife = 0 ∨ epochLen = 0 then .error (.invalidArgument "v37: zero decay parameter")
  else if maxDepth < epochLen then
    .error (.invalidArgument "v37: decay table shorter than epoch")
  else if halfLife = canonHalfLife ∧ epochLen = canonEpochLen then
    if canonMaxDepth < maxDepth then
      .error (.invalidArgument ("v37: ratified lane geometry (half_life 2160, E 4096) " ++
        "requested with max_depth beyond the canonical table; " ++
        "refusing to fall back to the non-golden first-order base"))
    else if Verified canon halfLife epochLen maxDepth then
      .ok (withShift halfLife epochLen maxEpochs canon.decay canon.invDecay)
    else
      .error (.invalidArgument ("v37: embedded canonical decay table failed its init-time " ++
        "self-check (regenerate with tools/gen_decay_canonical.py)"))
  else if ∀ j ∈ List.range (epochLen - 1),
      powers (invPer halfLife) j < powers (invPer halfLife) (j + 1) then
    .ok (withShift halfLife epochLen maxEpochs (powers (decayPer halfLife))
      (powers (invPer halfLife)))
  else
    .error (.invalidArgument ("v37: epoch_len/half_life ratio overflows inverse-decay " ++
      "headroom (need lambda^-(E-1) < 4.0)"))

/-- What the lane relies on: the epoch ladder starts at 1.0 and never rises
above it. -/
structure Ladder (t : DecayTables) : Prop where
  shift_zero : t.epochShift 0 = qOne
  shift_le : ∀ i, t.epochShift i ≤ qOne
  decay_epoch_le : t.decay t.epochLen ≤ qOne

theorem powers_le {per : U64} (hper : per ≤ qOne) (d : Nat) : powers per d ≤ qOne := by
  induction d with
  | zero => exact le_rfl
  | succ d ih => exact (mulQ64_le hper).trans ih

theorem decayPer_le (halfLife : Nat) : decayPer halfLife ≤ qOne := by
  show (2 ^ 62 - 2 ^ 62 * ln2Micro / (1000000 * halfLife)) % 2 ^ 64 ≤ 2 ^ 62
  exact (Nat.mod_le _ _).trans (Nat.sub_le _ _)

theorem withShift_ladder {halfLife epochLen maxEpochs : Nat} {decay invDecay : Nat → U64}
    (h : decay epochLen ≤ qOne) : (withShift halfLife epochLen maxEpochs decay invDecay).Ladder :=
  ⟨rfl, fun i => powers_le h i, h⟩

variable {canon : CanonicalTables}

/-- A strictly falling table stays at or below its first entry. -/
theorem decay_le_of_verified {halfLife epochLen maxDepth : Nat}
    (h : Verified canon halfLife epochLen maxDepth) {d : Nat} (hd : d ≤ maxDepth) :
    canon.decay d ≤ qOne := by
  obtain ⟨hzero, -, -, hfalls, -⟩ := h
  induction d with
  | zero => exact hzero.le
  | succ d ih =>
    have hstep := hfalls d (List.mem_range.mpr (by omega))
    exact hstep.le.trans (ih (by omega))

theorem init_spec {halfLife epochLen maxDepth maxEpochs : Nat}
    {t : DecayTables} (h : init canon halfLife epochLen maxDepth maxEpochs = .ok t) :
    t.Ladder ∧ t.epochLen = epochLen ∧ t.maxEpochs = maxEpochs ∧ 0 < epochLen := by
  unfold init at h
  split at h
  · cases h
  have hpos : 0 < epochLen := by omega
  split at h
  · cases h
  split at h
  · split at h
    · cases h
    split at h
    · rename_i hverified
      cases h
      exact ⟨withShift_ladder (decay_le_of_verified hverified (by omega)), rfl, rfl, hpos⟩
    · cases h
  split at h
  · cases h
    exact ⟨withShift_ladder (powers_le (decayPer_le halfLife) epochLen), rfl, rfl, hpos⟩
  · cases h

end DecayTables

end C2Pool.V37
