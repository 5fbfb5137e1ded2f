import C2Pool.V37.OwedProposal
import C2Pool.V37.Sha256

/-! # Coinbase assembly

`assemble` of `w5_coinbase.hpp`: the proposal is cut where the byte budget is
reached.  The budget is charged by a table of sizes, while the outputs carry the
scripts themselves.
-/

namespace C2Pool.V37

open List

def outputScript (r : ScriptRef) (raw : Option (List Byte)) : List Byte :=
  if r.kind = 0 then [0x76, 0xa9, 0x14] ++ r.payload ++ [0x88, 0xac]
  else if r.kind = 1 then [0xa9, 0x14] ++ r.payload ++ [0x87]
  else if r.kind = 2 then [0x00, 0x14] ++ r.payload
  else if r.kind = 3 then [0x00, 0x20] ++ r.payload
  else if r.kind = 4 then [0x51, 0x20] ++ r.payload
  else raw.getD []

def scriptLen (kind : Byte) : U64 :=
  if kind = 0 then 25 else if kind = 1 then 23 else if kind = 2 then 22 else 34

def outputSize (kind : Byte) : U64 := 8 + 1 + scriptLen kind

def hMin (kind : Byte) (kFloor : U64) : U64 := kFloor * outputSize kind

structure CoinbaseBudget where
  slotBudget : Nat := 0
  maxPayoutBytes : U64 := 0
  kFloor : U64 := 0

structure AssembledOutput where
  key : Bytes32
  pay : ScriptRef
  script : List Byte
  amount : Nat
deriving DecidableEq

/-- The length prefix of a script. -/
def compactSize (n : Nat) : Nat :=
  if n < 253 then 1 else if n < 2 ^ 16 then 3 else if n < 2 ^ 32 then 5 else 9

def AssembledOutput.serializedSize (o : AssembledOutput) : Nat :=
  8 + compactSize o.script.length + o.script.length

/-- `CoinbaseAssembly`, but for the state root. -/
structure CoinbaseAssembly where
  outputs : List AssembledOutput := []
  totalPaid : Nat := 0
  payoutBytes : Nat := 0
  carried : Nat := 0
deriving DecidableEq

section Assemble

variable (budget : CoinbaseBudget) (rawOf : Bytes32 → Option (List Byte))
  {outs kept : List ProposedOut} {used : Nat}

def emit (o : ProposedOut) : AssembledOutput :=
  ⟨o.key, o.pay, outputScript o.pay (rawOf o.key), o.amount⟩

/-- The loop of `assemble`: the first output past the byte budget ends it. -/
def assembleFrom : List ProposedOut → CoinbaseAssembly → CoinbaseAssembly
  | [], out => out
  | o :: rest, out =>
    if budget.maxPayoutBytes ≠ 0 ∧
        budget.maxPayoutBytes.val < out.payoutBytes + (outputSize o.pay.kind).val then
      { out with carried := out.carried + (rest.length + 1) }
    else
      assembleFrom rest
        { out with
          outputs := out.outputs ++ [emit rawOf o]
          totalPaid := out.totalPaid + o.amount
          payoutBytes := out.payoutBytes + (outputSize o.pay.kind).val }

/-- What `assemble` asks `propose_coinbase` for. -/
def proposalArgs (reward : U64) (payOf : Bytes32 → ScriptRef) : ProposalArgs :=
  ⟨reward, budget.slotBudget, payOf, fun kind => hMin kind budget.kFloor⟩

def assemble (rules : OwedLedgerRules) (l : OwedLedger) (reward : U64)
    (payOf : Bytes32 → ScriptRef) : CoinbaseAssembly :=
  assembleFrom budget rawOf (l.proposeCoinbase rules (proposalArgs budget reward payOf)) {}

def tableSize (outs : List ProposedOut) : Nat :=
  (outs.map fun o => (outputSize o.pay.kind).val).sum

def realSize (outs : List ProposedOut) : Nat :=
  (outs.map fun o => (emit rawOf o).serializedSize).sum

def keptFrom : Nat → List ProposedOut → List ProposedOut
  | _, [] => []
  | used, o :: rest =>
    if budget.maxPayoutBytes ≠ 0 ∧
        budget.maxPayoutBytes.val < used + (outputSize o.pay.kind).val then []
    else o :: keptFrom (used + (outputSize o.pay.kind).val) rest

variable {budget rawOf}

theorem assembleFrom_eq (outs : List ProposedOut) (out : CoinbaseAssembly) :
    (assembleFrom budget rawOf outs out).outputs =
        out.outputs ++ (keptFrom budget out.payoutBytes outs).map (emit rawOf) ∧
      (assembleFrom budget rawOf outs out).totalPaid =
        out.totalPaid + ((keptFrom budget out.payoutBytes outs).map fun o => o.amount).sum := by
  induction outs generalizing out with
  | nil => simp [assembleFrom, keptFrom]
  | cons o rest ih =>
    unfold assembleFrom keptFrom
    split
    · simp
    obtain ⟨houts, hpaid⟩ := ih
      { out with
        outputs := out.outputs ++ [emit rawOf o]
        totalPaid := out.totalPaid + o.amount
        payoutBytes := out.payoutBytes + (outputSize o.pay.kind).val }
    rw [houts, hpaid]
    simp [Nat.add_assoc]

theorem keptFrom_spec (used : Nat) (outs : List ProposedOut) :
    keptFrom budget used outs <+: outs ∧
      (budget.maxPayoutBytes ≠ 0 → used ≤ budget.maxPayoutBytes.val →
        used + tableSize (keptFrom budget used outs) ≤ budget.maxPayoutBytes.val) ∧
      ∀ part, part <+: outs → used + tableSize part ≤ budget.maxPayoutBytes.val →
        part <+: keptFrom budget used outs := by
  induction outs generalizing used with
  | nil =>
    refine ⟨prefix_refl _, fun _ h => by simpa [keptFrom, tableSize] using h, ?_⟩
    intro part hpart _
    exact hpart
  | cons o rest ih =>
    obtain ⟨ hprefix, hfits, hmost⟩ := ih (used + (outputSize o.pay.kind).val)
    have hcons (part : List ProposedOut) :
        tableSize (o :: part) = (outputSize o.pay.kind).val + tableSize part := by
      simp [tableSize]
    unfold keptFrom
    split
    · rename_i hfull
      refine ⟨ nil_prefix, fun _ h => by simpa [tableSize] using h, ?_⟩
      intro part hpart hsize
      cases part with
      | nil => exact prefix_refl _
      | cons o' part =>
        rw [cons_prefix_cons] at hpart
        rw [hpart.1, hcons] at hsize
        omega
    rename_i hroom
    refine ⟨cons_prefix_cons.mpr ⟨rfl, hprefix⟩, ?_, ?_⟩
    · intro hmax _
      rw [hcons, ← Nat.add_assoc]
      exact hfits hmax (not_lt.mp fun hover => hroom ⟨hmax, hover⟩)
    intro part hpart hsize
    cases part with
    | nil => exact nil_prefix
    | cons o' part =>
      rw [cons_prefix_cons] at hpart
      rw [hpart.1, hcons, ← Nat.add_assoc] at hsize
      exact cons_prefix_cons.mpr ⟨hpart.1, hmost part hpart.2 hsize⟩

theorem sum_map_le_of_prefix {f : ProposedOut → Nat} (h : kept <+: outs) :
    (kept.map f).sum ≤ (outs.map f).sum := by
  obtain ⟨rest, rfl⟩ := h
  simp

end Assemble

namespace OwedLedger

variable {rules : OwedLedgerRules} {l : OwedLedger} {args : ProposalArgs}

/-- A walk within its slots, whose outputs are paid out of the reward. -/
structure Walk.Within (args : ProposalArgs) (w : Walk) : Prop where
  paid : w.budget + (w.outs.map fun o => o.amount).sum = args.blockReward.val
  slots : args.slotBudget ≠ 0 → w.outs.length ≤ args.slotBudget

theorem Walk.Within.turn {w : Walk} (h : Walk.Within args w) (k : Bytes32) :
    Walk.Within args (l.turn rules args w k).1 := by
  unfold OwedLedger.turn
  split
  · exact h
  rename_i hslots
  split
  · exact h
  split
  · exact h
  split
  · exact h
  dsimp only
  split
  · exact h
  obtain ⟨hpaid, -⟩ := h
  constructor
  · simp only [map_append, sum_append, map_singleton, sum_singleton]
    omega
  intro hC
  rw [length_append, length_singleton]
  omega

theorem within_proposeCoinbase :
    ((proposeCoinbase rules l args).map fun o => o.amount).sum ≤ args.blockReward.val ∧
      (args.slotBudget ≠ 0 → (proposeCoinbase rules l args).length ≤ args.slotBudget) := by
  have hall : ∀ (ks : List Bytes32) (w : Walk), Walk.Within args w →
      Walk.Within args (ks.foldl (fun w k => (l.turn rules args w k).1) w) := by
    intro ks
    induction ks with
    | nil => exact fun w h => h
    | cons k ks ih => exact fun w h => ih _ (h.turn k)
  have hend := hall ((turnList rules l).map Prod.fst) ⟨args.blockReward.val, []⟩
    ⟨by simp, fun _ => Nat.zero_le _⟩
  rw [proposeCoinbase_eq]
  exact ⟨by have := hend.paid; omega, hend.slots⟩

end OwedLedger

/-- The assembly stays inside its budget. -/
structure CoinbaseAssembly.Within (budget : CoinbaseBudget) (reward : U64)
    (proposal : List ProposedOut) (out : CoinbaseAssembly) : Prop where
  prefixed : (out.outputs.map fun o => (⟨o.key, o.pay, o.amount⟩ : ProposedOut)) <+: proposal
  paid : out.totalPaid ≤ reward.val
  sums : out.totalPaid = (out.outputs.map fun o => o.amount).sum
  slots : budget.slotBudget ≠ 0 → out.outputs.length ≤ budget.slotBudget
  bytes : budget.maxPayoutBytes ≠ 0 →
    (out.outputs.map AssembledOutput.serializedSize).sum ≤ budget.maxPayoutBytes.val

/-- The assembly stays inside its budget exactly when no part of the proposal that fits by the
table of sizes is longer in bytes than the budget. -/
theorem assemble_within_iff (rules : OwedLedgerRules) (l : OwedLedger) (reward : U64)
    (budget : CoinbaseBudget) (payOf : Bytes32 → ScriptRef)
    (rawOf : Bytes32 → Option (List Byte)) :
    (assemble budget rawOf rules l reward payOf).Within budget reward
        (l.proposeCoinbase rules (proposalArgs budget reward payOf)) ↔ (budget.maxPayoutBytes ≠ 0 →
        ∀ part, part <+: l.proposeCoinbase rules (proposalArgs budget reward payOf) →
          tableSize part ≤ budget.maxPayoutBytes.val →
          realSize rawOf part ≤ budget.maxPayoutBytes.val) := by
  obtain ⟨hpaid, hslots⟩ := @OwedLedger.within_proposeCoinbase rules l
    (proposalArgs budget reward payOf)
  unfold assemble
  generalize l.proposeCoinbase rules (proposalArgs budget reward payOf) = proposal at *
  obtain ⟨hkept, hfits, hmost⟩ := @keptFrom_spec budget 0 proposal
  obtain ⟨houts, htotal⟩ := @assembleFrom_eq budget rawOf proposal {}
  simp only [nil_append, Nat.zero_add] at houts htotal
  have hsize : ((assembleFrom budget rawOf proposal {}).outputs.map
      AssembledOutput.serializedSize).sum = realSize rawOf (keptFrom budget 0 proposal) := by
    rw [houts, map_map]
    rfl
  constructor
  · intro h hmax part hpart htable
    have hle : realSize rawOf part ≤ realSize rawOf (keptFrom budget 0 proposal) :=
      sum_map_le_of_prefix (hmost part hpart (by rwa [Nat.zero_add]))
    exact hle.trans (hsize ▸ h.bytes hmax)
  intro h
  refine ⟨?_, ?_, ?_, ?_, ?_⟩
  · rw [houts, map_map]
    exact (map_id' (keptFrom budget 0 proposal)).symm ▸ hkept
  · rw [htotal]
    exact ( sum_map_le_of_prefix hkept).trans hpaid
  · rw [htotal, houts, map_map]
    rfl
  · intro hC
    rw [houts, length_map]
    exact hkept.length_le.trans (hslots hC)
  · intro hmax
    rw [hsize]
    have hroom := hfits hmax (Nat.zero_le _)
    rw [Nat.zero_add] at hroom
    exact h hmax _ hkept hroom

def rawLedger : OwedLedger :=
  OwedLedger.after Sha256.sha256d {}
    [.found [1] { credit := SortedMap.insert ∅ 7 1000 }, .finalized [1] 3]

/-- A raw script of 100 bytes is charged 43 bytes and takes 109. -/
theorem assemble_past_budget :
    (assemble { maxPayoutBytes := 50 } (fun _ => some (List.replicate 100 0x51)) {} rawLedger 500
        fun _ => {}).outputs.length = 1 ∧
      ¬ (assemble { maxPayoutBytes := 50 } (fun _ => some (List.replicate 100 0x51)) {} rawLedger
        500 fun _ => {}).Within { maxPayoutBytes := 50 } 500 (rawLedger.proposeCoinbase {}
          (proposalArgs { maxPayoutBytes := 50 } 500 fun _ => {})) := by
  refine ⟨by decide +kernel, fun h => ?_⟩
  exact absurd (h.bytes (by decide)) (by decide +kernel)

end C2Pool.V37
