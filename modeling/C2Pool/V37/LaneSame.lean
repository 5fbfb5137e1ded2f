import C2Pool.Lib.UndoLog
import C2Pool.V37.LanePush

/-! # What an undo restores

Two lanes are the same up to the journal, the scalars of the cells, which
follow the clock, and rows of zero in the two ledgers.  Every positional record
leads back to the lane it was recorded on.
-/

namespace C2Pool.V37

open List UndoLog PartialRun Ledger Function

def Nr.Cell.unscaled (c : Nr.Cell) : Nr.Cell := { c with G := qOne }

def CellsAlike (m m' : SortedMap Nat Nr.Cell) : Prop :=
  ∀ k, (m.lookup k).map Nr.Cell.unscaled = (m'.lookup k).map Nr.Cell.unscaled

theorem CellsAlike.refl (m : SortedMap Nat Nr.Cell) : CellsAlike m m := fun _ => rfl

theorem CellsAlike.symm {m m' : SortedMap Nat Nr.Cell} (h : CellsAlike m m') : CellsAlike m' m :=
  fun k => (h k).symm

theorem CellsAlike.trans {m m' m'' : SortedMap Nat Nr.Cell} (h : CellsAlike m m')
    (h' : CellsAlike m' m'') : CellsAlike m m'' :=
  fun k => (h k).trans (h' k)

structure Ridge.Same (r s : Ridge) : Prop where
  started : r.started = s.started
  t : r.t = s.t
  t0 : r.t0 = s.t0
  width : r.width = s.width
  fine : r.fine = s.fine
  cells : ∀ l, CellsAlike (r.cells l) (s.cells l)
  record : CellsAlike r.record s.record
  lastCkptBin : r.lastCkptBin = s.lastCkptBin
  lastRetargetBin : r.lastRetargetBin = s.lastRetargetBin
  rawCur : r.rawCur = s.rawCur
  rawPrev : r.rawPrev = s.rawPrev
  dnetAtBase : r.dnetAtBase = s.dnetAtBase

theorem Ridge.Same.refl (r : Ridge) : r.Same r :=
  ⟨rfl, rfl, rfl, rfl, rfl, fun l => .refl (r.cells l), .refl r.record, rfl, rfl, rfl, rfl, rfl⟩

theorem Ridge.Same.symm {r s : Ridge} (h : r.Same s) : s.Same r :=
  ⟨h.started.symm, h.t.symm, h.t0.symm, h.width.symm, h.fine.symm, fun l => (h.cells l).symm,
    h.record.symm, h.lastCkptBin.symm, h.lastRetargetBin.symm, h.rawCur.symm, h.rawPrev.symm,
    h.dnetAtBase.symm⟩

theorem Ridge.Same.trans {r s u : Ridge} (h : r.Same s) (h' : s.Same u) : r.Same u :=
  ⟨h.started.trans h'.started, h.t.trans h'.t, h.t0.trans h'.t0, h.width.trans h'.width,
    h.fine.trans h'.fine, fun l => (h.cells l).trans (h'.cells l), h.record.trans h'.record,
    h.lastCkptBin.trans h'.lastCkptBin, h.lastRetargetBin.trans h'.lastRetargetBin,
    h.rawCur.trans h'.rawCur, h.rawPrev.trans h'.rawPrev, h.dnetAtBase.trans h'.dnetAtBase⟩

structure Positional.Same (r s : Positional) : Prop where
  cover : r.cover = s.cover
  l0 : r.l0 = s.l0
  levels : r.levels = s.levels
  acc : ∀ m, r.acc.amount m = s.acc.amount m
  accTotal : r.accTotal = s.accTotal
  rawTotal : r.rawTotal = s.rawTotal
  l0ScaledSum : r.l0ScaledSum = s.l0ScaledSum
  l0RawSum : r.l0RawSum = s.l0RawSum
  carry : ∀ m, r.carry.amount m = s.carry.amount m
  carryTotal : r.carryTotal = s.carryTotal

theorem Positional.Same.refl (r : Positional) : r.Same r :=
  ⟨rfl, rfl, rfl, fun _ => rfl, rfl, rfl, rfl, rfl, fun _ => rfl, rfl⟩

theorem Positional.Same.symm {r s : Positional} (h : r.Same s) : s.Same r :=
  ⟨h.cover.symm, h.l0.symm, h.levels.symm, fun m => (h.acc m).symm, h.accTotal.symm,
    h.rawTotal.symm, h.l0ScaledSum.symm, h.l0RawSum.symm, fun m => (h.carry m).symm,
    h.carryTotal.symm⟩

theorem Positional.Same.trans {r s u : Positional} (h : r.Same s) (h' : s.Same u) : r.Same u :=
  ⟨h.cover.trans h'.cover, h.l0.trans h'.l0, h.levels.trans h'.levels,
    fun m => (h.acc m).trans (h'.acc m), h.accTotal.trans h'.accTotal,
    h.rawTotal.trans h'.rawTotal, h.l0ScaledSum.trans h'.l0ScaledSum,
    h.l0RawSum.trans h'.l0RawSum, fun m => (h.carry m).trans (h'.carry m),
    h.carryTotal.trans h'.carryTotal⟩

namespace Lane

structure Same (r s : Lane) : Prop where
  params : r.params = s.params
  tables : r.tables = s.tables
  nextPos : r.nextPos = s.nextPos
  base : r.base = s.base
  mmr : r.mmr = s.mmr
  ckpts : r.ckpts = s.ckpts
  pos : r.toPositional.Same s.toPositional
  ridge : r.ridge.Same s.ridge

instance : Setoid Lane where
  r := Same
  iseqv :=
    { refl := fun r =>
        ⟨rfl, rfl, rfl, rfl, rfl, rfl, .refl r.toPositional, .refl r.ridge⟩
      symm := fun h =>
        ⟨h.params.symm, h.tables.symm, h.nextPos.symm, h.base.symm, h.mmr.symm, h.ckpts.symm,
          h.pos.symm, h.ridge.symm⟩
      trans := fun h h' =>
        ⟨h.params.trans h'.params, h.tables.trans h'.tables, h.nextPos.trans h'.nextPos,
          h.base.trans h'.base, h.mmr.trans h'.mmr, h.ckpts.trans h'.ckpts, h.pos.trans h'.pos,
          h.ridge.trans h'.ridge⟩ }

def unlogged (lane : Lane) : Lane := { lane with journal := [] }

theorem unlogged_equiv (lane : Lane) : lane.unlogged ≈ lane :=
  ⟨rfl, rfl, rfl, rfl, rfl, rfl, .refl lane.toPositional, .refl lane.ridge⟩

/-- Every cell has the scalar of the clock. -/
structure Scaled (env : Env) (lane : Lane) : Prop where
  cells : ∀ l i c, (lane.ridge.cells l).lookup i = some c → lane.scalar env c.binHi = .ok c.G
  record : ∀ b c, lane.ridge.record.lookup b = some c → lane.scalar env c.binHi = .ok c.G

variable {lane lane' after before : Lane} {resolver : Option Resolver} {env : Env} {total : Prop}
  {kind : Op → Bool} {rest : List Bucket} {b : Bucket}

theorem Scaled.of_ridge {env : Env} (h : lane.Scaled env) (hridge : lane'.ridge = lane.ridge)
    (hparams : lane'.params = lane.params) : lane'.Scaled env := by
  have hscalar : ∀ hi, lane'.scalar env hi = lane.scalar env hi := by
    intro hi
    unfold scalar
    rw [hridge, hparams]
  refine ⟨?_, ?_⟩
  · rw [hridge]
    intro l i c hc
    rw [hscalar]
    exact h.cells l i c hc
  rw [hridge]
  intro b c hc
  rw [hscalar]
  exact h.record b c hc

/-- The lanes that an undo may take for `x` while a push is under way. -/
def Alike (x s : Lane) : Prop := s ≈ x

/-- The lanes that a rewind may take for `x`. -/
def Like (env : Env) (x s : Lane) : Prop := s ≈ x ∧ s.Scaled env

theorem like_self {env : Env} (h : lane.Scaled env) :
    Like env lane lane.unlogged := ⟨lane.unlogged_equiv, h.of_ridge rfl rfl⟩

/-! ## Positional records -/

/-- The records lead from the lanes of `P` back to the lanes of `Q`. -/
abbrev LaneLeads (env : Env) (total : Prop) : List Op → (Lane → Prop) → (Lane → Prop) → Prop :=
  Leads unlogged (undoOp env) total

abbrev LaneUndoes (env : Env) (total : Prop) : Op → (Lane → Prop) → (Lane → Prop) → Prop :=
  Undoes unlogged (undoOp env) total

theorem LaneUndoes.of_same {op : Op}
    (h : ∀ r, r ≈ after → ∃ r', undoOp env r op = .ok r' ∧ r' ≈ before ∧ r'.ridge = r.ridge ∧
      r'.params = r.params) :
    LaneUndoes env total op (Like env after) (Like env before) := by
  apply Undoes.of_ok
  rintro r ⟨hsame, hscaled⟩
  obtain ⟨r', hundo, hsame', hridge, hparams⟩ :=
    h r (Setoid.trans (Setoid.symm r.unlogged_equiv) hsame)
  exact ⟨r', hundo, Setoid.trans r'.unlogged_equiv hsame', hscaled.of_ridge hridge hparams⟩

theorem insertSlot_undoes (env : Env) (total : Prop) (lane : Lane) (a : WorkAtom) :
    ∃ s, (lane.insertSlot a).journal = trim lane.params.journalDepth (.push s :: lane.journal) ∧
      LaneUndoes env total (.push s) (Like env (lane.insertSlot a)) (Like env lane) := by
  unfold insertSlot journalPush
  refine ⟨_, rfl, .of_same ?_⟩
  intro r hr
  obtain ⟨hparams, htables, hnext, hbase, hmmr, hckpts, hpos, hridge⟩ := hr
  obtain ⟨hcover, hl0, hlevels, hacc, haccTotal, hrawTotal, hscaled, hraw, hcarry,
    hcarryTotal⟩ := hpos
  have hle : a.wRaw.val * (lane.tables.invDecay (lane.nextPos - lane.base)).val ≤
      r.acc.amount a.miner := by
    rw [hacc, amount_credit, if_pos rfl]
    exact Nat.le_add_left _ _
  obtain ⟨acc, hdebit, hamount⟩ := debit_of_le hle
  refine ⟨{ r with
            l0 := r.l0.dropLast, acc := acc, accTotal := lane.accTotal
            rawTotal := lane.rawTotal, l0ScaledSum := lane.l0ScaledSum
            l0RawSum := lane.l0RawSum, cover := lane.cover, nextPos := lane.nextPos }, ?_, ?_⟩
  · show undoPush r _ = _
    unfold undoPush
    rw [hdebit, haccTotal, hrawTotal, hscaled, hraw, hcover, hnext, checkedSub_add,
      checkedSub_add, checkedSub_add, checkedSub_add, checkedSub_add, checkedSub_add]
    rfl
  refine ⟨⟨hparams, htables, rfl, hbase, hmmr, hckpts,
    ⟨rfl, ?_, hlevels, ?_, rfl, rfl, rfl, rfl, hcarry, hcarryTotal⟩, hridge⟩, rfl, rfl⟩
  · dsimp only
    rw [hl0, dropLast_concat]
  intro m
  rw [hamount, hacc, amount_credit]
  exact Nat.add_sub_cancel _ _

theorem orWrapped_eq_ok {α : Type} {o : Option α} {x : α} :
    lane.orWrapped o = .ok x ↔ o = some x := by
  cases o with
  | none =>
    constructor
    · intro h
      cases h
    · intro h
      cases h
  | some y =>
    constructor
    · intro h
      cases h
      rfl
    intro h
    cases h
    rfl

theorem foldL0_eq_ok (h : lane.foldL0 = .ok lane') :
    ∃ scaled raw,
      scaled + ((lane.l0.take lane.params.rollup).map fun s => s.wScaled).sum = lane.l0ScaledSum ∧
      raw + ((lane.l0.take lane.params.rollup).map fun s => s.wRaw.val).sum = lane.l0RawSum ∧
      lane' =
        { lane with
          l0 := lane.l0.drop lane.params.rollup
          l0ScaledSum := scaled
          l0RawSum := raw
          levels := Function.update lane.levels 0
            (lane.levels 0 ++ [bucketOfSlots lane.base (lane.l0.take lane.params.rollup)])
          journal := .foldL0 (bucketOfSlots lane.base (lane.l0.take lane.params.rollup))
            (lane.l0.take lane.params.rollup) :: lane.journal } := by
  obtain ⟨scaled, hscaled, h⟩ := bind_eq_ok.mp h
  obtain ⟨raw, hraw, h⟩ := bind_eq_ok.mp h
  cases h
  exact ⟨scaled, raw, checkedSub_eq_some.mp (orWrapped_eq_ok.mp hscaled),
    checkedSub_eq_some.mp (orWrapped_eq_ok.mp hraw), rfl⟩

theorem update_append_dropLast {levels : Nat → List Bucket} (k : Nat) (b : Bucket) :
    Function.update (Function.update levels k (levels k ++ [b])) k
      (Function.update levels k (levels k ++ [b]) k).dropLast = levels := by
  rw [update_self, dropLast_concat, update_idem, update_eq_self]

theorem foldL0_undoes (h : lane.foldL0 = .ok lane') :
    ∃ op, lane'.journal = op :: lane.journal ∧ op.isPreOp = true ∧
      LaneUndoes env total op (Like env lane') (Like env lane) := by
  obtain ⟨scaled, raw, hscaled, hraw, rfl⟩ := foldL0_eq_ok h
  refine ⟨_, rfl, rfl, .of_same ?_⟩
  rintro r ⟨hparams, htables, hnext, hbase, hmmr, hckpts, hpos, hridge⟩
  refine ⟨_, rfl, ⟨hparams, htables, hnext, hbase, hmmr, hckpts, ?_, hridge⟩, rfl, rfl⟩
  unfold undoFoldL0
  refine { hpos with l0 := ?_, levels := ?_, l0ScaledSum := ?_, l0RawSum := ?_ }
  · dsimp only
    rw [hpos.l0, take_append_drop]
  · dsimp only
    rw [hpos.levels, update_append_dropLast]
  · dsimp only
    rw [hpos.l0ScaledSum, hscaled]
  · dsimp only
    rw [hpos.l0RawSum, hraw]

/-- The records that `after` has beside those of `before` lead back to it. -/
def LeadsBack (env : Env) (total : Prop) (kind : Op → Bool) (like : Lane → Lane → Prop)
    (before after : Lane) : Prop :=
  ∃ ops, after.journal = ops ++ before.journal ∧ (∀ op ∈ ops, kind op = true) ∧
    LaneLeads env total ops (like after) (like before)

def Recorded (env : Env) (total : Prop) (kind : Op → Bool) (before after : Lane) : Prop :=
  LeadsBack env total kind (Like env) before after

theorem Recorded.refl (kind : Op → Bool) (lane : Lane) : Recorded env total kind lane lane :=
  ⟨[], rfl, by simp, fun _ h => h⟩

theorem LeadsBack.trans {mid : Lane} {like : Lane → Lane → Prop}
    (h : LeadsBack env total kind like before mid) (h' : LeadsBack env total kind like mid after) :
    LeadsBack env total kind like before after := by
  obtain ⟨ops, hjournal, hkind, hleads⟩ := h
  obtain ⟨ops', hjournal', hkind', hleads'⟩ := h'
  refine ⟨ops' ++ ops, ?_, ?_, hleads'.append hleads⟩
  · rw [hjournal', hjournal, append_assoc]
  · intro op hop
    exact (mem_append.mp hop).elim (hkind' op) (hkind op)

theorem Recorded.trans {mid : Lane} (h : Recorded env total kind before mid)
    (h' : Recorded env total kind mid after) : Recorded env total kind before after :=
  LeadsBack.trans h h'

theorem Recorded.of_undoes {op : Op} (hjournal : after.journal = op :: before.journal)
    (hkind : kind op = true) (h : LaneUndoes env total op (Like env after) (Like env before)) :
    Recorded env total kind before after := ⟨[op], hjournal, by simpa using hkind, h.leads⟩

theorem foldLevel_recorded (lane : Lane) (k : Nat) :
    Recorded env total Op.isPreOp lane (lane.foldLevel k) := by
  unfold foldLevel
  split
  · exact .refl _ lane
  refine .of_undoes rfl rfl (.of_same ?_)
  rintro r ⟨hparams, htables, hnext, hbase, hmmr, hckpts, hpos, hridge⟩
  refine ⟨_, rfl, ⟨hparams, htables, hnext, hbase, hmmr, hckpts, ?_, hridge⟩, rfl, rfl⟩
  unfold undoFoldLevel
  refine { hpos with levels := ?_ }
  rw [hpos.levels]
  funext j
  by_cases hj : j = k
  · subst hj
    simp [update_of_ne]
  by_cases hj' : j = k + 1
  · subst hj'
    simp [update_of_ne]
  · simp [update_of_ne, hj, hj']

theorem cascadeFolds_recorded (lane : Lane) :
    Recorded env total Op.isPreOp lane lane.cascadeFolds := by
  unfold cascadeFolds
  induction List.range (lane.numLevels - 1) generalizing lane with
  | nil => exact .refl _ lane
  | cons k ks ih => exact (foldLevel_recorded lane k).trans (ih (lane.foldLevel k))

theorem evictBucket_eq_ok {k : Nat} (h : lane.evictBucket env resolver k b rest = .ok lane') :
    ∃ acc accTotal rawTotal cover,
      lane.acc.debitAll (lane.subtracted b) = some acc ∧
      accTotal + ((lane.subtracted b).map Prod.snd).sum = lane.accTotal ∧
      rawTotal + b.rawWork = lane.rawTotal ∧
      cover + (b.posHi - b.posLo + 1) = lane.cover ∧
      (lane.carries b → lane.carryTotal + ((lane.credited b).map Prod.snd).sum < carryLimit) ∧
      lane' =
        { lane with
          levels := Function.update lane.levels k rest
          acc := acc
          accTotal := accTotal
          carry := lane.carry.creditAll (lane.credited b)
          carryTotal := lane.carryTotal + ((lane.credited b).map Prod.snd).sum
          mmr := lane.mmrAfter env resolver k b
          rawTotal := rawTotal
          cover := cover
          journal := .evict k b (lane.subtracted b)
            (if lane.carries b then some lane.mmr else none) :: lane.journal } := by
  unfold evictBucket at h
  split at h
  · cases h
  obtain ⟨acc, hacc, h⟩ := bind_eq_ok.mp h
  obtain ⟨accTotal, htotal, h⟩ := bind_eq_ok.mp h
  dsimp only at h
  split at h
  · cases h
  rename_i hroom
  obtain ⟨rawTotal, hraw, h⟩ := bind_eq_ok.mp h
  obtain ⟨cover, hcover, h⟩ := bind_eq_ok.mp h
  cases h
  refine ⟨acc, accTotal, rawTotal, cover, orWrapped_eq_ok.mp hacc, checkedSub_eq_some.mp
    (orWrapped_eq_ok.mp htotal), checkedSub_eq_some.mp (orWrapped_eq_ok.mp hraw),
    checkedSub_eq_some.mp (orWrapped_eq_ok.mp hcover), ?_, rfl⟩
  intro hcarries
  by_contra hlimit
  exact hroom ⟨hcarries, by omega⟩

theorem credited_eq (lane : Lane) (b : Bucket) :
    (if (if lane.carries b then some lane.mmr else none).isSome = true then
      (lane.subtracted b).filter fun e => e.2 ≠ 0 else []) = lane.credited b := by
  unfold credited
  by_cases hcarries : lane.carries b
  · simp [hcarries]
  · simp [hcarries]

theorem mmrAfter_undone (resolver : Option Resolver) (lane : Lane) (k : Nat) (b : Bucket) :
    (if lane.carries b then some lane.mmr else none).getD (lane.mmrAfter env resolver k b) =
      lane.mmr := by
  unfold mmrAfter
  by_cases hcarries : lane.carries b
  · simp [hcarries]
  cases resolver with
  | none => simp [hcarries]
  | some id => simp [hcarries]

theorem evictBucket_undoes {k : Nat} (hfront : lane.levels k = b :: rest)
    (h : lane.evictBucket env resolver k b rest = .ok lane') :
    ∃ op, lane'.journal = op :: lane.journal ∧ op.isPostOp = true ∧
      LaneUndoes env total op (Like env lane') (Like env lane) := by
  obtain ⟨acc, accTotal, rawTotal, cover, hacc, haccTotal, hraw, hcover, -, rfl⟩ :=
    evictBucket_eq_ok h
  refine ⟨_, rfl, rfl, .of_same ?_⟩
  rintro r ⟨hparams, htables, hnext, hbase, hmmr, hckpts, hpos, hridge⟩
  have hle : ∀ m, Ledger.sumOf (lane.credited b) m ≤ r.carry.amount m := by
    intro m
    rw [hpos.carry, amount_creditAll]
    exact Nat.le_add_left _ _
  obtain ⟨carry, hdebit, hamount⟩ := debitAll_of_le hle
  apply Exists.intro
  constructor
  · show undoEvict r k b (lane.subtracted b) _ = _
    unfold undoEvict
    dsimp only
    rw [credited_eq, hdebit, hpos.carryTotal, checkedSub_add]
    rfl
  refine ⟨⟨hparams, htables, hnext, hbase, ?_, hckpts, ?_, hridge⟩, rfl, rfl⟩
  · dsimp only
    rw [hmmr, mmrAfter_undone]
  refine ⟨?_, hpos.l0, ?_, ?_, ?_, ?_, hpos.l0ScaledSum, hpos.l0RawSum, ?_, rfl⟩
  · dsimp only
    rw [hpos.cover, hcover]
  · dsimp only
    have hlevels : r.levels = Function.update lane.levels k rest := hpos.levels
    rw [hlevels, update_self, update_idem, ← hfront, update_eq_self]
  · intro m
    rw [amount_creditAll, hpos.acc]
    exact amount_debitAll hacc m
  · dsimp only
    rw [hpos.accTotal, haccTotal]
  · dsimp only
    rw [hpos.rawTotal, hraw]
  · intro m
    rw [hamount, hpos.carry, amount_creditAll]
    exact Nat.add_sub_cancel _ _

theorem evictOldestBucket_eq_ok (h : lane.evictOldestBucket env resolver = .ok lane') :
    ∃ k b rest, lane.oldestLevel = some k ∧ lane.levels k = b :: rest ∧
      lane.evictBucket env resolver k b rest = .ok lane' := by
  unfold evictOldestBucket at h
  split at h
  · cases h
  rename_i k hk
  split at h
  · cases h
  · rename_i b rest hlevel
    exact ⟨k, b, rest, hk, hlevel, h⟩

/-- What every eviction carries back to the lane before it, the whole loop does. -/
theorem evictLoop_rec {R : Lane → Lane → Prop} (hrefl : ∀ l, R l l)
    (hstep : ∀ {l k b rest next last}, l.levels k = b :: rest →
      l.evictBucket env resolver k b rest = .ok next → R next last → R l last)
    {rounds : Nat} (h : evictLoop env resolver rounds lane = .ok lane') : R lane lane' := by
  induction rounds generalizing lane with
  | zero =>
    cases h
    exact hrefl _
  | succ rounds ih =>
    unfold evictLoop at h
    split at h
    · obtain ⟨next, hevict, hrest⟩ := bind_eq_ok.mp h
      obtain ⟨k, b, rest, -, hfront, hbucket⟩ := evictOldestBucket_eq_ok hevict
      exact hstep hfront hbucket (ih hrest)
    · cases h
      exact hrefl _

theorem evictLoop_recorded {rounds : Nat} (h : evictLoop env resolver rounds lane = .ok lane') :
    Recorded env total Op.isPostOp lane lane' := by
  refine evictLoop_rec (.refl _) ?_ h
  intro l k b rest next last hfront hbucket hrest
  obtain ⟨op, hjournal, hkind, hundoes⟩ := evictBucket_undoes hfront hbucket
  exact (Recorded.of_undoes hjournal hkind hundoes).trans hrest

end Lane

end C2Pool.V37
