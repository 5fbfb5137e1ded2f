import C2Pool.Lib.Ledger
import C2Pool.V37.Merkle

/-! # The native ridge: ladder, dimensions and records

`nr_ladder.hpp`.  A power of the decay is the product of one table entry per
base-8 digit of the exponent; work is kept per bin, and bins are gathered into
cells of 8, 64, … bins.
-/

namespace C2Pool.V37

abbrev MinerId := Fin (2 ^ 32)

abbrev ProtoVersion := Fin (2 ^ 16)

/-- `ProvKey`, ordered by version and then by miner. -/
abbrev ProvKey := ProtoVersion ×ₗ MinerId

/-- `ProvEntry` and `ProvRow`. -/
structure ProvEntry where
  version : ProtoVersion
  miner : MinerId
  raw : Nat
deriving DecidableEq

/-- `prov_rows` and `prov_rows_of`. -/
def provRows (m : Ledger ProvKey) : List ProvEntry :=
  m.entries.map fun e => ⟨(ofLex e.1).1, (ofLex e.1).2, e.2⟩

namespace Nr

def rollup : Nat := 8
def maxFoldCap : Nat := 4
def nCtxBins : Nat := 2
def openHorizonDefault : Nat := 2 * rollup

def powR (level : Nat) : Nat := rollup ^ level

def ladderDomainBins : Nat := (canonMaxDepth / 4096 + 1) * 4096

section Ladder

variable (canon : CanonicalTables) (allowDigitRepeat : Bool)

/-- `lad`: the table entry of one digit. -/
def lad (level k : Nat) : Except Throw U64 :=
  if k = 0 then .ok qOne
  else if rollup ≤ k then .error (.invalidArgument "nr: ladder digit out of range [0,R)")
  else if k * powR level ≤ canonMaxDepth then .ok (canon.decay (k * powR level))
  else if allowDigitRepeat = false then
    .error (.invalidArgument ("nr: ladder entry beyond the ratified golden domain and the " ++
      "ND-R4 digit-repeat closure is not enabled"))
  else if canonMaxDepth < powR level then
    .error (.invalidArgument "nr: ladder span beyond the golden domain")
  else .ok (DecayTables.powers (canon.decay (powR level)) k)

/-- The loop of `lambda_pow` over the digits from the lowest one. -/
def lambdaLoop : Nat → Nat → Nat → U64 → Except Throw U64
  | 0, _, _, g => .ok g
  | rounds + 1, d, level, g =>
    if d = 0 then .ok g
    else if d % rollup = 0 then lambdaLoop rounds (d / rollup) (level + 1) g
    else
      (lad canon allowDigitRepeat level (d % rollup)).bind fun factor =>
        lambdaLoop rounds (d / rollup) (level + 1) (mulQ64 g factor)

/-- `lambda_pow`; a number has at most as many digits as its value. -/
def lambdaPow (d : Nat) : Except Throw U64 := lambdaLoop canon allowDigitRepeat d d 0 qOne

def cellScalar (t binHi : Nat) : Except Throw U64 :=
  lambdaPow canon allowDigitRepeat (t - binHi)

/-- The loop of `pair_value`: one product per nonzero digit below the level. -/
def pairLoop (off : Nat) : Nat → Nat → Nat → Except Throw Nat
  | 0, _, v => .ok v
  | rounds + 1, l, v =>
    if off / powR l % rollup = 0 then pairLoop off rounds (l + 1) v
    else
      (lad canon allowDigitRepeat l (off / powR l % rollup)).bind fun factor =>
        pairLoop off rounds (l + 1) (mulQ v factor)

/-- `pair_value`: the raw work of a bin in the frame of its cell. -/
def pairValue (bin raw level binHi : Nat) : Except Throw Nat :=
  pairLoop canon allowDigitRepeat (binHi - bin) level 0 (raw * 2 ^ 62)

end Ladder

structure RidgeDim where
  rollup : Nat := 8
  foldCap : Nat := 2
  halfLifeBins : Nat := 2160
  binSeconds : Nat := 0
  wMinBins : Nat := 0
  wMaxBins : Nat := 0
  wDefaultBins : Nat := 0
  retargetBins : Nat := 8
  dampFactor : Nat := 4
  openHorizonBins : Nat := openHorizonDefault
  ckptBins : Nat := 64
  nCtxBins : Nat := 2
  allowDigitRepeat : Bool := false
deriving DecidableEq

/-- The tests that `check_dims` makes of each of the three widths. -/
def checkWidth (d : RidgeDim) (w : Nat) : Except Throw Unit :=
  if w % Nr.rollup ≠ 0 then
    .error (.invalidArgument "nr: width not a whole fold-group multiple")
  else if d.retargetBins ≠ 0 ∧ w % d.retargetBins ≠ 0 then
    .error (.invalidArgument "nr: width not retarget-aligned (ruling F)")
  else if d.dampFactor ≠ 0 ∧ w % d.dampFactor ≠ 0 then
    .error (.invalidArgument "nr: damp factor does not divide the width bounds")
  else .ok ()

def checkDims (d : RidgeDim) : Except Throw Unit :=
  if d.rollup ≠ Nr.rollup then .error (.invalidArgument "nr: rollup is frozen at R = 8")
  else if d.foldCap = 0 ∨ maxFoldCap < d.foldCap then
    .error (.invalidArgument "nr: fold cap outside [1, ladder top level]")
  else if d.halfLifeBins = 0 then .error (.invalidArgument "nr: zero half-life")
  else if d.halfLifeBins ≠ canonHalfLife then
    .error (.invalidArgument ("nr: half_life != 2160 bins would need a ladder golden of its own " ++
      "(ND-R8 RULED: 2160 BINS uniform, d659c801 reused bit-for-bit)"))
  else if d.wMinBins = 0 ∨ d.wMaxBins = 0 ∨ d.wDefaultBins = 0 then
    .error (.invalidArgument "nr: width params unset")
  else if d.wMinBins < Nr.rollup then
    .error (.invalidArgument "nr: W_MIN below one fold group (R bins)")
  else do
    checkWidth d d.wMinBins
    checkWidth d d.wMaxBins
    checkWidth d d.wDefaultBins
    if ¬ (d.wMinBins ≤ d.wDefaultBins ∧ d.wDefaultBins ≤ d.wMaxBins) then
      .error (.invalidArgument "nr: W_default outside [W_MIN, W_MAX]")
    else if d.allowDigitRepeat = false ∧ ladderDomainBins < d.wMaxBins then
      .error
        (.invalidArgument ("nr: W_MAX beyond the ratified ladder domain (12288 bins at R=8); " ++
        "enable the ND-R4 digit-repeat closure or lower W_MAX"))
    else if d.retargetBins = 0 ∨ d.retargetBins % Nr.rollup ≠ 0 then
      .error (.invalidArgument
        "nr: retarget_bins must be a non-zero whole-R multiple (ruling F)")
    else if d.ckptBins = 0 ∨ d.ckptBins % powR d.foldCap ≠ 0 then
      .error
        (.invalidArgument ("nr: checkpoint cadence must be a non-zero multiple of R^fold_cap " ++
        "(a checkpoint stands on the top-level lattice)"))
    else if d.nCtxBins = 0 then
      .error (.invalidArgument "nr: N_CTX mirror unset (0 is not the shipped 2)")
    else if d.openHorizonBins ≤ d.nCtxBins then
      .error
        (.invalidArgument ("nr: open horizon must exceed N_CTX (W2-admitted receipts must never " ++
        "be Expired-sealed)"))
    else if d.wMinBins ≤ d.openHorizonBins then
      .error (.invalidArgument "nr: open horizon must be below W_MIN")
    else if d.wMinBins < (d.openHorizonBins + powR d.foldCap) % 2 ^ 64 then
      .error (.invalidArgument "nr: W_MIN must be >= H_open + R^fold_cap (fold-before-shed)")
    else .ok ()

/-- `sealed_bin`, a 64-bit sum. -/
def sealedBin (bin t horizon : Nat) : Prop := (bin + horizon) % 2 ^ 64 ≤ t

instance (bin t horizon : Nat) : Decidable (sealedBin bin t horizon) :=
  inferInstanceAs (Decidable (_ ≤ _))

structure FinePair where
  raw : Nat
  v : Nat
deriving DecidableEq

/-- `FineBin`; a bin without a position has `none`. -/
structure FineBin where
  bin : Nat
  rawSum : Nat
  rows : SortedMap MinerId FinePair
  prov : Ledger ProvKey
  posLo : Option Nat
deriving DecidableEq

structure Cell where
  level : Nat
  binLo : Nat
  binHi : Nat
  rawWork : Nat
  comp : Ledger MinerId
  prov : List ProvEntry
  recordOnly : Bool
  G : U64
  carried : Ledger MinerId
  carriedRaw : Nat
deriving DecidableEq

/-- `Cell{}`. -/
def Cell.default : Cell := ⟨0, 0, 0, 0, ∅, [], false, qOne, ∅, 0⟩

def Cell.fullyCarried (c : Cell) : Prop :=
  c.carriedRaw = c.rawWork ∧ c.carried.entries.length = c.comp.entries.length

instance (c : Cell) : Decidable c.fullyCarried := inferInstanceAs (Decidable (_ ∧ _))

/-- `cell_read`: the live and the carried share of a miner. -/
def cellRead (c : Cell) (m : MinerId) : Nat × Nat :=
  match c.comp.lookup m with
  | none => (0, 0)
  | some w =>
    match c.carried.lookup m with
    | none => (mulQ w c.G, 0)
    | some carried => (mulQ (w - carried) c.G, mulQ carried c.G)

end Nr

end C2Pool.V37
