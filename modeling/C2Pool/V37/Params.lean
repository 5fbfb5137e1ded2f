import Mathlib.Data.List.GetD
import C2Pool.V37.Ladder

/-! # Lane parameters

`LaneParams` with its gates, and the guards of the lane constructor.  An
activation position that is off (`UINT64_MAX`) is `none`.  The sub-threshold
and fee gates are not read by the lane and are left out.
-/

namespace C2Pool.V37

open List PartialRun

structure MrrGate where
  activationPos : Option Nat := none
  ckptRetain : Nat := 2
deriving DecidableEq

/-- `WinGate`; the window engine itself is not modelled. -/
structure WinGate where
  activationPos : Option Nat := none
  version : Nat := 0
  coverageBlocks : Nat := 0
  binSeconds : Nat := 0
  wMinBins : Nat := 0
  wDefaultBins : Nat := 0
  wMaxBins : Nat := 0
  retargetBins : Nat := 0
  dampFactor : Nat := 0
  burialDepth : Nat := 0
deriving DecidableEq

structure NrGate where
  activationPos : Option Nat := none
  version : Nat := 0
  foldCap : Nat := 0
  openHorizonBins : Nat := 0
  wMinBins : Nat := 0
  wMaxBins : Nat := 0
  wDefaultBins : Nat := 0
  coverageBlocks : Nat := 0
  binSeconds : Nat := 0
  retargetBins : Nat := 0
  ckptBins : Nat := 0
  nCtxBins : Nat := 0
  allowDigitRepeat : Bool := false
deriving DecidableEq

structure LaneParams where
  window : U64 := 8640
  c0 : Nat := 4096
  rollup : Nat := 8
  levelCaps : List Nat := [568]
  halfLife : Nat := 2160
  journalDepth : Nat := 64
  mrr : MrrGate := {}
  win : WinGate := {}
  nr : NrGate := {}
  kFloor : Nat := 0
deriving DecidableEq

namespace LaneParams

def epochLen (p : LaneParams) : Nat := p.c0

/-- `nr_dims_of`. -/
def nrDims (p : LaneParams) : Nr.RidgeDim where
  foldCap := p.nr.foldCap
  halfLifeBins := p.halfLife
  wMinBins := p.nr.wMinBins
  wMaxBins := p.nr.wMaxBins
  wDefaultBins := p.nr.wDefaultBins
  openHorizonBins := p.nr.openHorizonBins
  retargetBins := p.nr.retargetBins
  ckptBins := p.nr.ckptBins
  nCtxBins := if p.nr.nCtxBins = 0 then Nr.nCtxBins else p.nr.nCtxBins
  dampFactor := 4
  allowDigitRepeat := p.nr.allowDigitRepeat

def wIsRAligned (w r : Nat) : Prop := r = 0 ∨ w % r = 0

instance (w r : Nat) : Decidable (wIsRAligned w r) := inferInstanceAs (Decidable (_ ∨ _))

def checkGeometry (p : LaneParams) : Except Throw Unit :=
  if p.c0 = 0 ∨ p.c0 &&& (p.c0 - 1) ≠ 0 then
    .error (.invalidArgument "v37: C0 must be a power of two")
  else if p.rollup = 0 ∨ p.c0 % p.rollup ≠ 0 then
    .error (.invalidArgument "v37: R must divide C0")
  else if p.window.val < p.c0 then
    .error (.invalidArgument "v37: window must be >= C0 (eviction needs whole buckets)")
  else if p.levelCaps = [] then .error (.invalidArgument "v37: at least one bucket level")
  else if ∃ cap ∈ p.levelCaps.dropLast, cap < p.rollup then
    .error (.invalidArgument "v37: inner level cap smaller than roll-up factor")
  else .ok ()

/-- The guards of a declared time window. -/
def checkWin (p : LaneParams) : Except Throw Unit :=
  let w := p.win
  if w.version ≠ 1 then .ok ()
  else if w.coverageBlocks = 0 ∨ w.binSeconds = 0 ∨ w.wMinBins = 0 ∨ w.wDefaultBins = 0 ∨
      w.wMaxBins = 0 ∨ w.retargetBins = 0 ∨ w.dampFactor = 0 ∨ w.burialDepth = 0 then
    .error (.invalidArgument
      "v37(win): win_version 1 needs the complete width-law constant set")
  else if w.burialDepth ≠ p.journalDepth then
    .error (.invalidArgument "v37(win): the burial depth is the journal depth (ruling L)")
  else if w.retargetBins ≠ p.rollup then
    .error (.invalidArgument "v37(win): the width step must be the lane's roll-up factor")
  else if ¬ wIsRAligned w.wMinBins p.rollup ∨ ¬ wIsRAligned w.wDefaultBins p.rollup ∨
      ¬ wIsRAligned w.wMaxBins p.rollup then
    .error (.invalidArgument
      "v37(win): W_MIN / W_default / W_MAX must be whole roll-up multiples")
  else if w.wMinBins < p.rollup then
    .error (.invalidArgument "v37(win): W_MIN must hold at least one fold group")
  else if w.wMinBins % w.dampFactor ≠ 0 ∨ w.wMaxBins % w.dampFactor ≠ 0 then
    .error (.invalidArgument "v37(win): the damping factor must divide W_MIN and W_MAX")
  else if ¬ (w.wMinBins ≤ w.wDefaultBins ∧ w.wDefaultBins ≤ w.wMaxBins) then
    .error (.invalidArgument "v37(win): W_MIN <= W_default <= W_MAX")
  else if 12288 < w.wMaxBins then
    .error (.invalidArgument "v37(win): W_MAX above the ratified ladder domain")
  else if p.halfLife ≠ 2160 then
    .error (.invalidArgument "v37(win): the bin window keeps the ratified half-life (ruling B)")
  else .ok ()

/-- The guards of a finite window position. -/
def checkWinPos (p : LaneParams) : Except Throw Unit :=
  match p.win.activationPos with
  | none => .ok ()
  | some pos =>
    if p.win.version ≠ 1 then
      .error (.invalidArgument "v37(win): a finite window gate needs win_version 1")
    else if pos % p.epochLen ≠ 0 then
      .error (.invalidArgument "v37(win): the window activation must be epoch-aligned")
    else if p.win.activationPos ≠ p.mrr.activationPos then
      .error (.invalidArgument ("v37(win): ruling M co-locates the window gate with the MRR / " ++
        "estimator activation position"))
    else .ok ()

/-- The guards of a finite ridge position. -/
def checkNrPos (p : LaneParams) : Except Throw Unit :=
  match p.nr.activationPos with
  | none => .ok ()
  | some pos =>
    if p.mrr.activationPos = none then
      .error (.invalidArgument ("v37(nr): the native ridge sits above the MRR retrofit (S10): a " ++
        "finite ridge gate needs a finite mrr.activation_pos"))
    else if pos % p.epochLen ≠ 0 then
      .error (.invalidArgument ("v37(nr): the ridge activation must be epoch-aligned (the " ++
        "activation share is a rebuild / checkpoint point)"))
    else if p.nr.activationPos ≠ p.mrr.activationPos then
      .error
        (.invalidArgument ("v37(nr): ruling M / ND-R9 co-locate the ridge gate with the MRR / " ++
        "estimator activation position"))
    else if p.win.activationPos ≠ none then
      .error (.invalidArgument ("v37(nr): ND-R9 — the S3 bin-band pyramid is RETIRED; S12 " ++
        "supersedes it (a finite window gate beside nr_version 1 is refused)"))
    else .ok ()

/-- The guards of the native ridge. -/
def checkNr (p : LaneParams) : Except Throw Unit :=
  if p.nr.version = 0 then
    if p.nr.activationPos ≠ none then
      .error (.invalidArgument "v37(nr): nr_activation_pos set with nr_version 0")
    else .ok ()
  else if p.nr.version ≠ 1 then
    .error (.invalidArgument
      "v37(nr): unknown nr_version (0 = table path, 1 = native ridge)")
  else if p.nr.coverageBlocks = 0 then
    .error (.invalidArgument ("v37(nr): nr_version 1 needs coverage_blocks (ND-R6: the " ++
      "operator-baked economic constant of the S4 width law)"))
  else if p.nr.binSeconds = 0 then
    .error (.invalidArgument ("v37(nr): nr_version 1 needs bin_seconds (ruling A: one bin == " ++
      "one buried parent block)"))
  else do
    Nr.checkDims p.nrDims
    if ¬ wIsRAligned p.nr.wMinBins p.rollup ∨ ¬ wIsRAligned p.nr.wMaxBins p.rollup ∨
        ¬ wIsRAligned p.nr.wDefaultBins p.rollup then
      .error (.invalidArgument
        "v37(nr): a width bound off the R lattice would let the width law leave it")
    else p.checkNrPos

/-- The length of the `epoch_shift` ladder. -/
def maxEpochs (p : LaneParams) : Nat :=
  (if p.win.version = 1 ∧ p.window.val < p.win.wMaxBins then p.win.wMaxBins else p.window.val) /
    p.epochLen + 4

def construct (canon : CanonicalTables) (p : LaneParams) : Except Throw DecayTables := do
  p.checkGeometry
  p.checkWin
  p.checkWinPos
  p.checkNr
  let tables ← DecayTables.init canon p.halfLife p.epochLen ((p.epochLen + p.c0) % 2 ^ 64)
    p.maxEpochs
  if p.mrr.ckptRetain < 2 then
    .error (.invalidArgument "v37: CKPT-OQ1 requires >= 2 retained checkpoints")
  else .ok tables

structure Geometry (p : LaneParams) : Prop where
  c0_pos : 0 < p.c0
  rollup_pos : 0 < p.rollup
  rollup_le : p.rollup ≤ p.c0
  c0_le : p.c0 ≤ p.window.val
  levels_pos : 0 < p.levelCaps.length
  inner_caps : ∀ k, k + 1 < p.levelCaps.length → p.rollup ≤ p.levelCaps.getD k 0

theorem checkGeometry_spec {p : LaneParams} (h : p.checkGeometry = .ok ()) : Geometry p := by
  unfold checkGeometry at h
  split at h
  · cases h
  rename_i hpow
  split at h
  · cases h
  rename_i hroll
  split at h
  · cases h
  split at h
  · cases h
  rename_i hlevels
  split at h
  · cases h
  rename_i hcaps
  push Not at hpow hroll hcaps
  have hc0 : 0 < p.c0 := Nat.pos_of_ne_zero hpow.1
  refine ⟨hc0, Nat.pos_of_ne_zero hroll.1, ?_, by omega, length_pos_of_ne_nil hlevels, ?_⟩
  · exact Nat.le_of_dvd hc0 (Nat.dvd_of_mod_eq_zero hroll.2)
  intro k hk
  have hlen : k < p.levelCaps.dropLast.length := by
    rw [length_dropLast]
    omega
  have hmem : p.levelCaps.dropLast[k] ∈ p.levelCaps.dropLast := getElem_mem hlen
  have hcap := hcaps _ hmem
  rw [getElem_dropLast] at hcap
  rw [getD_eq_getElem _ _ (by omega)]
  exact hcap

section

variable {canon : CanonicalTables} {p : LaneParams} {tables : DecayTables}
  (h : p.construct canon = .ok tables)
include h

theorem construct_spec :
    Geometry p ∧ p.checkNr = .ok () ∧ tables.Ladder ∧ tables.epochLen = p.epochLen ∧
      tables.maxEpochs = p.maxEpochs ∧ 2 ≤ p.mrr.ckptRetain := by
  obtain ⟨_, hgeometry, h⟩ := bind_eq_ok.mp h
  obtain ⟨_, -, h⟩ := bind_eq_ok.mp h
  obtain ⟨_, -, h⟩ := bind_eq_ok.mp h
  obtain ⟨_, hnr, h⟩ := bind_eq_ok.mp h
  obtain ⟨t, hinit, h⟩ := bind_eq_ok.mp h
  obtain ⟨hladder, hlen, hmax, -⟩ := DecayTables.init_spec hinit
  split at h
  · cases h
  rename_i hretain
  cases h
  exact ⟨checkGeometry_spec hgeometry, hnr, hladder, hlen, hmax, by omega⟩

theorem construct_tables :
    DecayTables.init canon p.halfLife p.epochLen ((p.epochLen + p.c0) % 2 ^ 64) p.maxEpochs =
      .ok tables := by
  obtain ⟨_, -, h⟩ := bind_eq_ok.mp h
  obtain ⟨_, -, h⟩ := bind_eq_ok.mp h
  obtain ⟨_, -, h⟩ := bind_eq_ok.mp h
  obtain ⟨_, -, h⟩ := bind_eq_ok.mp h
  obtain ⟨t, hinit, h⟩ := bind_eq_ok.mp h
  split at h
  · cases h
  · cases h
    exact hinit

end

end LaneParams

end C2Pool.V37
