import C2Pool.V37.Digest
import C2Pool.V37.LaneExact

/-! # The gate of the carry

Two lanes that differ in the activation of the carry run in lock step: the gate
owns the carry, the permanence range and the checkpoints, and nothing else
depends on it.
-/

namespace C2Pool.V37

open List PartialRun Ledger

def LaneParams.gatedAt (p : LaneParams) (pos : Option Nat) : LaneParams :=
  { p with mrr := { p.mrr with activationPos := pos } }

/-- What the gate owns, and the journal that records it. -/
structure Gate where
  pos : Option Nat
  carry : Ledger MinerId
  carryTotal : Nat
  mmr : PeakSet
  ckpts : List Checkpoint
  journal : List Op

def Op.forgone (pos : Option Nat) : Op → List (MinerId × Nat)
  | .evict _ b subtracted _ => if ∃ p ∈ pos, p ≤ b.posLo then subtracted else []
  | _ => []

namespace Lane

def behind (lane : Lane) (g : Gate) : Lane :=
  { lane with
    params := lane.params.gatedAt g.pos
    carry := g.carry
    carryTotal := g.carryTotal
    mmr := g.mmr
    ckpts := g.ckpts
    journal := g.journal }

variable {env : Env} {lane next last : Lane} {resolver : Option Resolver} {g : Gate}
  {settled next' last' lane' : Lane} {b : Bucket} {rounds : Nat} {a : WorkAtom} {p : LaneParams}

/-! ## The steps of a push -/

theorem amount_rebasedCarry (lane : Lane) (m : MinerId) :
    lane.rebasedCarry.amount m =
      mulQ (lane.carry.amount m) (lane.tables.decay lane.params.epochLen) := by
  unfold rebasedCarry Ledger.amount
  rw [SortedMap.lookup_filterMap]
  cases lane.carry.lookup m with
  | none => simp
  | some c =>
    dsimp only [Option.bind_some, Option.getD_some]
    split
    · rename_i hzero
      exact hzero.symm
    · rfl

/-- The carry of a gate after the rebuild that a push may begin with. -/
def rebasedAmount (before after : Lane) (c : Nat) : Nat :=
  if after.base = before.base then c
  else mulQ c (before.tables.decay before.params.epochLen)

theorem epochRebuild_behind {rebuilt : Lane} (h : lane.epochRebuild = .ok rebuilt) (g : Gate) :
    rebuilt.base = lane.base + lane.params.epochLen ∧
      ∃ other, (lane.behind g).epochRebuild = .ok other ∧
        other.carry = (lane.behind g).rebasedCarry ∧
        other = rebuilt.behind { other with pos := g.pos } := by
  unfold epochRebuild at h ⊢
  split at h
  · cases h
  rename_i hdue
  cases h
  rw [if_neg (show ¬ (lane.behind g).nextPos - (lane.behind g).base ≠
    (lane.behind g).params.epochLen from hdue)]
  exact ⟨rfl, _, rfl, rfl, rfl⟩

theorem rebuildIfDue_behind {start : Lane} (hlen : 0 < lane.params.epochLen)
    (h : lane.rebuildIfDue = .ok start) (g : Gate) :
    ∃ g', (lane.behind g).rebuildIfDue = .ok (start.behind g') ∧ g'.pos = g.pos ∧
      ∀ m, g'.carry.amount m = rebasedAmount lane start (g.carry.amount m) := by
  have hdue : (lane.behind g).nextPos - (lane.behind g).base = (lane.behind g).params.epochLen ↔
      lane.nextPos - lane.base = lane.params.epochLen := Iff.rfl
  unfold rebuildIfDue at h ⊢
  split at h
  · rename_i hdue'
    obtain ⟨hbase, other, hother, hcarry, hbehind⟩ := epochRebuild_behind h g
    rw [if_pos (hdue.mpr hdue'), hother]
    refine ⟨_, congrArg Except.ok hbehind, rfl, ?_⟩
    intro m
    have hmoved : start.base ≠ lane.base := by omega
    rw [hcarry, amount_rebasedCarry]
    exact (if_neg hmoved).symm
  rename_i hdue'
  cases h
  rw [if_neg (mt hdue.mp hdue')]
  exact ⟨g, rfl, rfl, fun m => (if_pos rfl).symm⟩

theorem foldIfFull_behind {folded folded' : Lane} (h : lane.foldIfFull = .ok folded)
    (h' : (lane.behind g).foldIfFull = .ok folded') :
    folded' = folded.behind { g with journal := folded'.journal } := by
  unfold foldIfFull at h h'
  have hlen : (lane.behind g).l0.length = (lane.behind g).params.c0 ↔
      lane.l0.length = lane.params.c0 := Iff.rfl
  by_cases hfull : lane.l0.length = lane.params.c0
  · rw [if_pos hfull] at h
    rw [if_pos (hlen.mpr hfull)] at h'
    obtain ⟨scaled, raw, hscaled, hraw, rfl⟩ := foldL0_eq_ok h
    obtain ⟨scaled', raw', hscaled', hraw', rfl⟩ := foldL0_eq_ok h'
    have hs : scaled' = scaled := Nat.add_right_cancel (hscaled'.trans hscaled.symm)
    have hr : raw' = raw := Nat.add_right_cancel (hraw'.trans hraw.symm)
    rw [hs, hr]
    rfl
  rw [if_neg hfull] at h
  rw [if_neg (mt hlen.mp hfull)] at h'
  cases h
  cases h'
  rfl

theorem foldLevel_behind (lane : Lane) (g : Gate) (k : Nat) :
    (lane.behind g).foldLevel k =
      (lane.foldLevel k).behind { g with journal := ((lane.behind g).foldLevel k).journal } := by
  have hcap : ((lane.behind g).levels k).length < (lane.behind g).params.levelCaps.getD k 0 ↔
      (lane.levels k).length < lane.params.levelCaps.getD k 0 := Iff.rfl
  unfold foldLevel
  by_cases hshort : (lane.levels k).length < lane.params.levelCaps.getD k 0
  · rw [if_pos hshort, if_pos (hcap.mpr hshort)]
    rfl
  · rw [if_neg hshort, if_neg (mt hcap.mp hshort)]
    rfl

theorem cascadeFolds_behind (lane : Lane) (g : Gate) :
    ∃ journal, (lane.behind g).cascadeFolds =
      lane.cascadeFolds.behind { g with journal := journal } := by
  have hlevels : (lane.behind g).numLevels = lane.numLevels := rfl
  unfold cascadeFolds
  rw [hlevels]
  induction List.range (lane.numLevels - 1) generalizing lane g with
  | nil => exact ⟨g.journal, rfl⟩
  | cons k ks ih =>
    rw [foldl_cons, foldl_cons, foldLevel_behind]
    exact ih (lane.foldLevel k) _ rfl

theorem cascadeFolds_frame (lane : Lane) :
    lane.cascadeFolds.base = lane.base ∧ lane.cascadeFolds.nextPos = lane.nextPos ∧
      lane.cascadeFolds.carry = lane.carry := by
  unfold cascadeFolds
  induction List.range (lane.numLevels - 1) generalizing lane with
  | nil => exact ⟨rfl, rfl, rfl⟩
  | cons k ks ih =>
    have hfold : (lane.foldLevel k).base = lane.base ∧
        (lane.foldLevel k).nextPos = lane.nextPos ∧ (lane.foldLevel k).carry = lane.carry := by
      unfold foldLevel
      split <;> exact ⟨rfl, rfl, rfl⟩
    obtain ⟨hbase, hnext, hcarry⟩ := ih (lane.foldLevel k)
    exact ⟨hbase.trans hfold.1, hnext.trans hfold.2.1, hcarry.trans hfold.2.2⟩

theorem settle_behind {settled' : Lane} (hlen : 0 < lane.params.epochLen)
    (h : lane.settle = .ok settled) (h' : (lane.behind g).settle = .ok settled') :
    ∃ g', settled' = settled.behind g' ∧ g'.pos = g.pos ∧
      ∀ m, g'.carry.amount m = rebasedAmount lane settled (g.carry.amount m) := by
  obtain ⟨start, hstart, h⟩ := bind_eq_ok.mp h
  obtain ⟨folded, hfolded, h⟩ := bind_eq_ok.mp h
  cases h
  obtain ⟨g₁, hstart', hpos, hcarry⟩ := rebuildIfDue_behind hlen hstart g
  obtain ⟨start', heq, h'⟩ := bind_eq_ok.mp h'
  rw [hstart'] at heq
  cases heq
  obtain ⟨folded', hfolded', h'⟩ := bind_eq_ok.mp h'
  cases h'
  obtain ⟨journal, hcascade⟩ := cascadeFolds_behind folded { g₁ with journal := folded'.journal }
  rw [foldIfFull_behind hfolded hfolded']
  refine ⟨_, hcascade, hpos, ?_⟩
  intro m
  rw [hcarry]
  have hfold : folded.base = start.base := by
    unfold foldIfFull at hfolded
    split at hfolded
    · obtain ⟨_, _, -, -, rfl⟩ := foldL0_eq_ok hfolded
      rfl
    · cases hfolded
      rfl
  unfold rebasedAmount
  rw [(cascadeFolds_frame folded).1, hfold]

theorem insertSlot_behind (lane : Lane) (g : Gate) (a : WorkAtom) :
    (lane.behind g).insertSlot a =
      (lane.insertSlot a).behind { g with journal := ((lane.behind g).insertSlot a).journal } := rfl

theorem oldestLevel_behind (lane : Lane) (g : Gate) :
    (lane.behind g).oldestLevel = lane.oldestLevel := rfl

theorem sumOf_credited (lane : Lane) (b : Bucket) (m : MinerId) :
    Ledger.sumOf (lane.credited b) m =
      if lane.carries b then Ledger.sumOf (lane.subtracted b) m else 0 := by
  unfold credited
  split
  · generalize lane.subtracted b = rows
    induction rows with
    | nil => rfl
    | cons e rows ih =>
      by_cases hzero : e.2 = 0
      · rw [filter_cons_of_neg (by simpa using hzero), ih, sumOf_cons, hzero]
        simp
      · rw [filter_cons_of_pos (by simpa using hzero), sumOf_cons, sumOf_cons, ih]
  · rfl

theorem carries_iff (h : b.posLo < lane.nextPos) :
    lane.carries b ↔ ∃ p ∈ lane.params.mrr.activationPos, p ≤ b.posLo := by
  unfold carries mrrActive
  cases lane.params.mrr.activationPos with
  | none => simp
  | some pos =>
    constructor
    · exact fun hcarries => hcarries.2
    rintro ⟨p, hp, hle⟩
    cases hp
    exact ⟨by dsimp only; omega, pos, rfl, hle⟩

theorem evictBucket_behind (hbal : lane.Balanced) {k : Nat} (hk : lane.oldestLevel = some k)
    {rest : List Bucket} (hfront : lane.levels k = b :: rest)
    (h : lane.evictBucket env resolver k b rest = .ok next)
    (h' : (lane.behind g).evictBucket env resolver k b rest = .ok next') :
    ∃ g' op, next' = next.behind g' ∧ g'.pos = g.pos ∧ next.journal = op :: lane.journal ∧
      op.isPostOp = true ∧
      ∀ m, g'.carry.amount m = g.carry.amount m + Ledger.sumOf (op.forgone g.pos) m := by
  obtain ⟨newer, hold, -⟩ := hbal.oldest hk hfront
  have hspan := hbal.tiles.bounds (mem_append_left _ (mem_map_of_mem
    (hold ▸ mem_cons_self : b ∈ lane.column)))
  have hlt : b.posLo < (lane.behind g).nextPos := by
    have hlo : b.posLo ≤ b.posHi := hspan.2.1
    have hhi : b.posHi < lane.nextPos := hspan.2.2
    show b.posLo < lane.nextPos
    omega
  obtain ⟨acc, accTotal, rawTotal, cover, hacc, htotal, hraw, hcover, -, rfl⟩ := evictBucket_eq_ok h
  obtain ⟨acc', accTotal', rawTotal', cover', hacc', htotal', hraw', hcover', -, rfl⟩ :=
    evictBucket_eq_ok h'
  have haccs : acc' = acc := Option.some.inj (hacc'.symm.trans hacc)
  have htotals : accTotal' = accTotal := Nat.add_right_cancel (htotal'.trans htotal.symm)
  have hraws : rawTotal' = rawTotal := Nat.add_right_cancel (hraw'.trans hraw.symm)
  have hcovers : cover' = cover := Nat.add_right_cancel (hcover'.trans hcover.symm)
  rw [haccs, htotals, hraws, hcovers]
  refine ⟨⟨g.pos, (lane.behind g).carry.creditAll ((lane.behind g).credited b), _, _, _, _⟩, _,
    rfl, rfl, rfl, rfl, ?_⟩
  intro m
  dsimp only [Op.forgone]
  rw [amount_creditAll, sumOf_credited]
  have hsame : (lane.behind g).subtracted b = lane.subtracted b := rfl
  have hiff : (lane.behind g).carries b ↔ ∃ p ∈ g.pos, p ≤ b.posLo := carries_iff hlt
  by_cases hcarries : (lane.behind g).carries b
  · rw [if_pos hcarries, if_pos (hiff.mp hcarries), hsame]
    rfl
  · rw [if_neg hcarries, if_neg (mt hiff.mpr hcarries)]
    rfl

theorem evictLoop_behind (hbal : lane.Balanced) (h : evictLoop env resolver rounds lane = .ok last)
    (h' : evictLoop env resolver rounds (lane.behind g) = .ok last') :
    ∃ g' ops, last' = last.behind g' ∧ g'.pos = g.pos ∧ last.journal = ops ++ lane.journal ∧
      (∀ op ∈ ops, op.isPostOp = true) ∧
      ∀ m, g'.carry.amount m =
        g.carry.amount m + Ledger.sumOf (ops.flatMap fun op => op.forgone g.pos) m := by
  induction rounds generalizing lane g with
  | zero =>
    cases h
    cases h'
    exact ⟨g, [], rfl, rfl, rfl, by simp, fun m => rfl⟩
  | succ rounds ih =>
    have hcover : (lane.behind g).params.window.val < (lane.behind g).cover ↔
        lane.params.window.val < lane.cover := Iff.rfl
    unfold evictLoop at h h'
    split at h
    · rename_i hover
      rw [if_pos (hcover.mpr hover)] at h'
      obtain ⟨next, hevict, h⟩ := bind_eq_ok.mp h
      obtain ⟨next', hevict', h'⟩ := bind_eq_ok.mp h'
      obtain ⟨k, b, rest, hk, hfront, hbucket⟩ := evictOldestBucket_eq_ok hevict
      obtain ⟨k', b', rest', hk', hfront', hbucket'⟩ := evictOldestBucket_eq_ok hevict'
      rw [oldestLevel_behind, hk] at hk'
      cases hk'
      rw [show (lane.behind g).levels k = lane.levels k from rfl, hfront] at hfront'
      cases hfront'
      obtain ⟨g₁, op, rfl, hpos, hjournal, hkind, hcarry⟩ :=
        evictBucket_behind hbal hk hfront hbucket hbucket'
      have hnext := (hbal.evictBucket hk hfront hbucket).1
      obtain ⟨g', ops, hlast, hpos', hjournal', hkind', hcarry'⟩ := ih hnext h h'
      refine ⟨g', ops ++ [op], hlast, hpos'.trans hpos, ?_, ?_, ?_⟩
      · rw [hjournal', hjournal, append_assoc, singleton_append]
      · intro op' hop'
        rcases mem_append.mp hop' with hop' | hop'
        · exact hkind' op' hop'
        · rw [mem_singleton.mp hop']
          exact hkind
      · intro m
        rw [hcarry', hcarry, hpos, flatMap_append, sumOf_append, flatMap_singleton]
        omega
    rename_i hover
    rw [if_neg (mt hcover.mp hover)] at h'
    cases h
    cases h'
    exact ⟨g, [], rfl, rfl, rfl, by simp, fun m => rfl⟩

def evictions (lane : Lane) : List Op := lane.journal.takeWhile Op.isPostOp

/-- The carry of a miner after a push, told by the evictions of a lane with
another gate: re-based at a rebuild, and credited with what was forgone. -/
def carryAfter (pos : Option Nat) (m : MinerId) (before after : Lane) (c : Nat) : Nat :=
  rebasedAmount before after c + Ledger.sumOf (after.evictions.flatMap fun op => op.forgone pos) m

theorem cut_head {d : Nat} {op : Op} {ops kept rest : List Op}
    (h : cut d (op :: ops) = some (kept, rest)) : ∃ kept', kept = op :: kept' := by
  rw [cut_cons] at h
  split at h
  · split at h
    · cases h
      exact ⟨[], rfl⟩
    obtain ⟨parts, -, hparts⟩ := Option.map_eq_some_iff.mp h
    cases hparts
    exact ⟨parts.1, rfl⟩
  obtain ⟨parts, -, hparts⟩ := Option.map_eq_some_iff.mp h
  cases hparts
  exact ⟨parts.1, rfl⟩

theorem trim_head (d : Nat) (op : Op) (ops : List Op) :
    ∃ rest, trim d (op :: ops) = op :: rest := by
  unfold trim
  cases hcut : cut d (op :: ops) with
  | none => exact ⟨ops, rfl⟩
  | some parts =>
    obtain ⟨kept, rest⟩ := parts
    obtain ⟨kept', rfl⟩ := cut_head hcut
    exact ⟨_, rfl⟩

theorem pushPositional_behind (hsound : lane.Sound)
    (h : lane.pushPositional env resolver a = .ok next)
    (h' : (lane.behind g).pushPositional env resolver a = .ok next') :
    ∃ g', next' = next.behind g' ∧ g'.pos = g.pos ∧
      ∀ m, g'.carry.amount m = carryAfter g.pos m lane next (g.carry.amount m) := by
  obtain ⟨settled, hsettle, h⟩ := bind_eq_ok.mp h
  obtain ⟨settled', hsettle', h'⟩ := bind_eq_ok.mp h'
  obtain ⟨_, hsettled, hbal, -⟩ := hsound.settle
  rw [hsettle] at hsettled
  cases hsettled
  obtain ⟨g₁, rfl, hpos, hcarry⟩ := settle_behind hsound.balanced.geometry.c0_pos hsettle hsettle'
  rw [insertSlot_behind] at h'
  have hinserted := hbal.insertSlot a
  obtain ⟨-, hkept, -⟩ := hinserted.evictLoop (Nat.le_refl _) h
  obtain ⟨g', ops, hlast, hpos', hjournal, hkind, hcarry'⟩ := evictLoop_behind hinserted h h'
  refine ⟨g', hlast, hpos'.trans hpos, ?_⟩
  intro m
  have hevictions : next.evictions = ops := by
    obtain ⟨rest, hhead⟩ : ∃ rest, (settled.insertSlot a).journal = .push _ :: rest :=
      trim_head _ _ _
    unfold evictions
    rw [hjournal, hhead, takeWhile_append_of_pos hkind]
    simp [Op.isPostOp]
  have hbase : next.base = settled.base := hkept.base
  unfold carryAfter rebasedAmount
  rw [hcarry', hevictions, hbase]
  rw [hcarry, hpos]
  rfl

/-! ## Runs -/

/-- The carry of a miner after a run, told by the evictions of a lane with
another gate. -/
def carryTold (env : Env) (pos : Option Nat) (m : MinerId) : Lane → List Share → Nat → Nat
  | _, [], c => c
  | lane, x :: xs, c =>
    match lane.pushShare env x with
    | .error _ => c
    | .ok next => carryTold env pos m next xs (carryAfter pos m lane next c)

theorem run_behind (hnr : p.nr.activationPos = none) (hlane : Tracked env p lane)
    {shares : List Share} (h : PartialRun.run (pushShare env) lane shares = .ok last)
    (h' : PartialRun.run (pushShare env) (lane.behind g) shares = .ok last') :
    ∃ g', last' = last.behind g' ∧ g'.pos = g.pos ∧
      ∀ m, g'.carry.amount m = carryTold env g.pos m lane shares (g.carry.amount m) := by
  induction shares generalizing lane g with
  | nil =>
    cases h
    cases h'
    exact ⟨g, rfl, rfl, fun m => rfl⟩
  | cons x xs ih =>
    obtain ⟨next, hnext, h⟩ := bind_eq_ok.mp h
    obtain ⟨next', hnext', h'⟩ := bind_eq_ok.mp h'
    have hoff : lane.params.nr.activationPos = none := hlane.params ▸ hnr
    have hoff' : (lane.behind g).params.nr.activationPos = none := hoff
    obtain ⟨g₁, rfl, hpos, hcarry⟩ := pushPositional_behind hlane.sound
      (push_of_off hoff hnext) (push_of_off hoff' hnext')
    obtain ⟨g', hlast, hpos', hcarry'⟩ := ih (hlane.push hnr hnext) h h'
    refine ⟨g', hlast, hpos'.trans hpos, ?_⟩
    intro m
    rw [hcarry', hcarry, hpos]
    show _ = match lane.pushShare env x with
      | .error _ => _
      | .ok next => carryTold env g.pos m next xs (carryAfter g.pos m lane next (g.carry.amount m))
    rw [hnext]

theorem evictLoop_dormant (hoff : ¬ lane.mrrActive)
    (h : evictLoop env resolver rounds lane = .ok last) : last.carry = lane.carry := by
  refine evictLoop_rec (R := fun l last => ¬ l.mrrActive → last.carry = l.carry)
    (fun _ _ => rfl) ?_ h hoff
  intro l k b rest next last _ hbucket hrest hoff
  obtain ⟨_, _, _, _, -, -, -, -, -, rfl⟩ := evictBucket_eq_ok hbucket
  rw [hrest hoff, credited_le l b fun hcarries => hoff hcarries.1]
  rfl

theorem settle_frame (h : lane.settle = .ok settled) :
    settled.nextPos = lane.nextPos ∧ (lane.carry = ∅ → settled.carry = ∅) := by
  obtain ⟨start, hstart, h⟩ := bind_eq_ok.mp h
  obtain ⟨folded, hfolded, h⟩ := bind_eq_ok.mp h
  cases h
  have hstart : start.nextPos = lane.nextPos ∧ (lane.carry = ∅ → start.carry = ∅) := by
    unfold rebuildIfDue at hstart
    split at hstart
    · unfold epochRebuild at hstart
      split at hstart
      · cases hstart
      cases hstart
      refine ⟨rfl, ?_⟩
      intro hempty
      show lane.rebasedCarry = ∅
      unfold rebasedCarry
      rw [hempty]
      rfl
    · cases hstart
      exact ⟨rfl, id⟩
  have hfolded : folded.nextPos = start.nextPos ∧ folded.carry = start.carry := by
    unfold foldIfFull at hfolded
    split at hfolded
    · obtain ⟨_, _, -, -, rfl⟩ := foldL0_eq_ok hfolded
      exact ⟨rfl, rfl⟩
    · cases hfolded
      exact ⟨rfl, rfl⟩
  obtain ⟨-, hnext, hcarry⟩ := cascadeFolds_frame folded
  refine ⟨hnext.trans (hfolded.1.trans hstart.1), ?_⟩
  intro hempty
  rw [hcarry, hfolded.2]
  exact hstart.2 hempty

def Dormant (lane : Lane) : Prop := ¬ lane.mrrActive → lane.carry = ∅

theorem mrrActive_mono (hparams : lane'.params = lane.params)
    (hnext : lane.nextPos ≤ lane'.nextPos) (h : lane.mrrActive) : lane'.mrrActive := by
  unfold mrrActive at h ⊢
  rw [hparams]
  cases hpos : lane.params.mrr.activationPos with
  | none =>
    rw [hpos] at h
    exact h
  | some pos =>
    rw [hpos] at h
    exact Nat.lt_of_lt_of_le h hnext

theorem Dormant.pushPositional (hsound : lane.Sound) (hdormant : lane.Dormant)
    (h : lane.pushPositional env resolver a = .ok next) : next.Dormant := by
  intro hoff
  obtain ⟨settled, hsettle, h⟩ := bind_eq_ok.mp h
  obtain ⟨_, hsettled, hbal, hparams, -⟩ := hsound.settle
  rw [hsettle] at hsettled
  cases hsettled
  obtain ⟨-, hkept, -⟩ := (hbal.insertSlot a).evictLoop (Nat.le_refl _) h
  obtain ⟨hnext, hcarry⟩ := settle_frame hsettle
  have hinserted : ¬ (settled.insertSlot a).mrrActive :=
    fun hactive => hoff (mrrActive_mono hkept.params hkept.nextPos.ge hactive)
  have hbefore : ¬ lane.mrrActive := by
    intro hactive
    have hle : lane.nextPos ≤ (settled.insertSlot a).nextPos := by
      show lane.nextPos ≤ settled.nextPos + 1
      omega
    exact hinserted (mrrActive_mono hparams hle hactive)
  rw [evictLoop_dormant hinserted h]
  exact hcarry (hdormant hbefore)

theorem create_behind {x y : Option Nat}
    (h : create env (p.gatedAt x) = .ok lane) (h' : create env (p.gatedAt y) = .ok lane') :
    lane' = lane.behind ⟨y, ∅, 0, PeakSet.empty, [], []⟩ := by
  obtain ⟨tables, hconstruct, h⟩ := bind_eq_ok.mp h
  obtain ⟨tables', hconstruct', h'⟩ := bind_eq_ok.mp h'
  cases h
  cases h'
  have htables := LaneParams.construct_tables hconstruct
  have htables' := LaneParams.construct_tables hconstruct'
  have hsame : tables' = tables := Except.ok.inj (htables'.symm.trans htables)
  rw [hsame]
  rfl

theorem amount_payoutMapPositional (lane : Lane) (m : MinerId) :
    lane.payoutMapPositional.amount m =
      mulQ (lane.acc.amount m) lane.headDecay + mulQ (lane.carry.amount m) lane.headDecay := by
  have hvalue : ∀ l : Ledger MinerId,
      ((l.lookup m).map fun w => mulQ w lane.headDecay).getD 0 =
        mulQ (l.amount m) lane.headDecay := by
    intro l
    unfold Ledger.amount
    cases l.lookup m with
    | none => simp
    | some w => rfl
  have hcarry := sumOf_entries lane.carry (fun w => mulQ w lane.headDecay) m
  have hacc : Ledger.amount (lane.acc.mapValues fun _ w => mulQ w lane.headDecay) m =
      ((lane.acc.lookup m).map fun w => mulQ w lane.headDecay).getD 0 := by
    unfold Ledger.amount
    rw [SortedMap.lookup_mapValues]
  unfold payoutMapPositional
  rw [amount_creditAll, hcarry, hacc, hvalue, hvalue]

theorem digest_behind (hnr : lane.params.nr.activationPos = none)
    (hoff : ¬ lane.mrrActive) (hoff' : ¬ (lane.behind g).mrrActive) (id : Resolver) :
    (lane.behind g).digest env id = lane.digest env id := by
  have hridge := (nr_off hnr).1
  have hridge' : ¬ (lane.behind g).nrActive := (nr_off (by exact hnr)).1
  have hheader : headerBytes env id (lane.behind g) = headerBytes env id lane := by
    unfold headerBytes
    rw [if_neg hoff, if_neg hoff', if_neg hridge, if_neg hridge', if_neg (fun h => hoff' h.1),
      if_neg (fun h => hoff h.1)]
    rfl
  have hbuckets : bucketLeaves env id (lane.behind g) = bucketLeaves env id lane := by
    unfold bucketLeaves
    rw [decide_eq_false hoff, decide_eq_false hoff']
    rfl
  unfold digest buildLeaves
  rw [hheader, hbuckets, if_neg hoff, if_neg hoff', if_neg hridge, if_neg hridge']
  rfl

/-- Two lanes that differ only in the activation of the carry hold the same live
ledger after every run of the same shares; their digests are the same while both
gates are closed; and what one lane pays more than a lane whose gate is closed
is its decayed carry, which the evictions of the other lane tell. -/
theorem run_gate_keeps_ledger {env : Env} {p : LaneParams} (_hwin : p.win.activationPos = none)
    (hnr : p.nr.activationPos = none) {x y : Option Nat} {lane₀ lane₀' lane lane' : Lane}
    (hcreate : create env (p.gatedAt x) = .ok lane₀)
    (hcreate' : create env (p.gatedAt y) = .ok lane₀') {shares : List Share}
    (hrun : PartialRun.run (pushShare env) lane₀ shares = .ok lane)
    (hrun' : PartialRun.run (pushShare env) lane₀' shares = .ok lane') :
    lane'.l0 = lane.l0 ∧ lane'.levels = lane.levels ∧ lane'.acc = lane.acc ∧
      lane'.accTotal = lane.accTotal ∧ lane'.cover = lane.cover ∧
      lane'.rawTotal = lane.rawTotal ∧ lane'.base = lane.base ∧
      (¬ lane.mrrActive → ¬ lane'.mrrActive → ∀ id, lane'.digest env id = lane.digest env id) ∧
      (¬ lane.mrrActive → ∀ m, lane'.payoutMap.amount m =
        lane.payoutMap.amount m + mulQ (lane'.carry.amount m) lane'.headDecay) ∧
      (∀ m, lane'.decayedWeight m = lane'.payoutMap.amount m) ∧
      ∀ m, lane'.carry.amount m = carryTold env y m lane₀ shares 0 := by
  have hnr' : (p.gatedAt x).nr.activationPos = none := hnr
  rw [create_behind hcreate hcreate'] at hrun'
  obtain ⟨g, rfl, hpos, hcarry⟩ := run_behind hnr' (create_tracked hcreate) hrun hrun'
  have hstep : ∀ s share s', Tracked env (p.gatedAt x) s ∧ s.Dormant →
      pushShare env s share = .ok s' → Tracked env (p.gatedAt x) s' ∧ s'.Dormant := by
    rintro s share s' ⟨hs, hdormant⟩ hok
    have hok' := push_of_off (hs.params ▸ hnr') hok
    exact ⟨hs.push hnr' hok, hdormant.pushPositional hs.sound hok'⟩
  have hstart : lane₀.Dormant := by
    intro _
    obtain ⟨tables, -, hlane⟩ := bind_eq_ok.mp hcreate
    cases hlane
    rfl
  obtain ⟨htracked, hdormant⟩ := run_invariant hstep ⟨create_tracked hcreate, hstart⟩ hrun
  have hoff : lane.params.nr.activationPos = none := htracked.params ▸ hnr'
  have hridge := (nr_off hoff).1
  have hridge' : ¬ (lane.behind g).nrActive := (nr_off (by exact hoff)).1
  refine ⟨rfl, rfl, rfl, rfl, rfl, rfl, rfl, ?_, ?_, ?_, ?_⟩
  · intro hclosed hclosed' id
    exact digest_behind hoff hclosed hclosed' id
  · intro hclosed m
    unfold payoutMap
    rw [if_neg hridge, if_neg hridge', amount_payoutMapPositional, amount_payoutMapPositional,
      hdormant hclosed, amount_empty, mulQ_zero]
    rfl
  · intro m
    unfold payoutMap decayedWeight
    rw [if_neg hridge', if_neg hridge', amount_payoutMapPositional]
  · intro m
    exact hcarry m

def smallShares : List Share :=
  [1, 2, 1, 2, 1, 1, 2, 1, 1, 2, 1, 2, 2, 1, 2, 2].map fun m =>
    (some fun m => Fin.ofNat _ m.val, { miner := m, wRaw := 7 })

theorem run_gate_keeps_ledger_smallShares :
    ∃ lane lane', afterShares smallEnv (smallParams.gatedAt none) smallShares = some lane ∧
      afterShares smallEnv (smallParams.gatedAt (some 0)) smallShares = some lane' ∧
      lane'.acc = lane.acc ∧ 0 < lane'.carry.amount 1 ∧
      lane'.payoutMap.amount 1 =
        lane.payoutMap.amount 1 + mulQ (lane'.carry.amount 1) lane'.headDecay := by
  have hclosed : (afterShares smallEnv (smallParams.gatedAt none) smallShares).isSome = true := by
    decide +kernel
  have hopen : (afterShares smallEnv (smallParams.gatedAt (some 0)) smallShares).any
      (fun lane => decide (0 < lane.carry.amount 1)) = true := by
    decide +kernel
  obtain ⟨lane, hlane⟩ := Option.isSome_iff_exists.mp hclosed
  obtain ⟨lane', hlane', hcarry⟩ := (Option.any_eq_true _ _).mp hopen
  obtain ⟨lane₀, hcreate, hrun⟩ := afterShares_eq_some hlane
  obtain ⟨lane₀', hcreate', hrun'⟩ := afterShares_eq_some hlane'
  obtain ⟨-, -, hacc, -, -, -, -, -, hpays, -⟩ :=
    run_gate_keeps_ledger rfl rfl hcreate hcreate' hrun hrun'
  refine ⟨lane, lane', hlane, hlane', hacc, of_decide_eq_true hcarry, hpays ?_ 1⟩
  have hparams : lane.params = smallParams.gatedAt none := by
    have htracked : Tracked smallEnv (smallParams.gatedAt none) lane :=
      run_invariant (fun _ _ _ h hstep => h.push rfl hstep) (create_tracked hcreate) hrun
    exact htracked.params
  unfold mrrActive
  rw [hparams]
  exact id

end Lane

end C2Pool.V37
