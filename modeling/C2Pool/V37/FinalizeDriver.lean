import C2Pool.V37.Journal

/-! # The finalize driver

`FinalizeDriver` (`settle_finalize_driver.hpp`): found blocks wait at their
gate, `found_height + D_conf`, and every admitted height is driven step by
step: the high-water moves to the step and the blocks at or below it are
finalized there, in the order of their gates and ids.
-/

namespace C2Pool.V37

open List

/-- `FinalizeCandidate`; `drops` is the carried DROPS map, or what `subthreshold_credit` makes of
the harvest of the candidate. -/
structure FinalizeCandidate where
  bid : Bid
  foundHeight : U64
  credit : Amounts := ∅
  payout : Amounts := ∅
  drops : Amounts := ∅
deriving DecidableEq

def composeCreditFromDelta (base delta : Amounts) : Amounts :=
  if delta = ∅ then base else base.addAll delta

def FinalizeCandidate.args (c : FinalizeCandidate) : FoundArgs where
  credit := composeCreditFromDelta c.credit c.drops
  payout := c.payout

/-- `FinalizeDriver`, with the ledger and the high-water that it drives, and the calls that it has
made on the ledger. -/
structure FinalizeDriver where
  ledger : OwedLedger := {}
  hw : SettleHW := {}
  lastDriven : U64 := 0
  byFinalizeHeight : SortedMap U64 (List Bid) := ∅
  foundHeight : SortedMap Bid U64 := ∅
  orphaned : Finset Bid := ∅
  calls : List LedgerCall := []

namespace FinalizeDriver

variable (sha : List Byte → Bytes32) (rules : OwedLedgerRules) (dConf : U64) (tipOf : U64 → Bytes32)
def callLedger (d : FinalizeDriver) (call : LedgerCall) : FinalizeDriver :=
  { d with ledger := d.ledger.call sha rules call, calls := d.calls ++ [call] }

/-- `register_found`; the sum wraps, as in the code. -/
def registerFound (d : FinalizeDriver) (c : FinalizeCandidate) : FinalizeDriver :=
  let d := d.callLedger sha rules (.found c.bid c.args)
  let finH := c.foundHeight + dConf
  { d with
    byFinalizeHeight :=
      d.byFinalizeHeight.insert finH ((d.byFinalizeHeight.lookup finH).getD [] ++ [c.bid])
    foundHeight := d.foundHeight.insert c.bid c.foundHeight }

def onOrphaned (d : FinalizeDriver) (bid : Bid) (settledPayout : Amounts) : FinalizeDriver :=
  let d := d.callLedger sha rules (.orphaned bid settledPayout)
  { d with orphaned := insert bid d.orphaned }

section Drive

variable (isCanonical : Bid → Bool)

/-- The loop of `drive_one_height` over the blocks of a gate; a block that is skipped is not looked
at again. -/
def finalizeBid (s : FinalizeDriver × Nat) (bid : Bid) : FinalizeDriver × Nat :=
  if bid ∈ s.1.orphaned then s
  else if isCanonical bid = false then s
  else if s.1.ledger.isPending bid = false then s
  else (s.1.callLedger sha rules (.finalized bid s.1.hw.hwHeight), s.2 + 1)

def finalizeGate (s : FinalizeDriver × Nat) (e : U64 × List Bid) : FinalizeDriver × Nat :=
  let s := (e.2.insertionSort (· ≤ ·)).foldl (finalizeBid sha rules isCanonical) s
  ({ s.1 with byFinalizeHeight := s.1.byFinalizeHeight.erase e.1 }, s.2)

/-- `drive_one_height`; the number of blocks finalized comes with the driver. -/
def driveOneHeight (d : FinalizeDriver) (h : U64) : FinalizeDriver × Nat :=
  let d := { d with hw := d.hw.advance h (tipOf h) }
  (d.byFinalizeHeight.entries.takeWhile fun e => e.1 ≤ h).foldl
    (finalizeGate sha rules isCanonical) (d, 0)

/-- The loop of `advance_to` from `h` on, with its 64-bit counter; `none` where it has not ended
after as many rounds as the counter has values, that is, never ends. -/
def driveHeights (new : U64) : Nat → U64 → FinalizeDriver × Nat → Option (FinalizeDriver × Nat)
  | 0, _, _ => none
  | fuel + 1, h, s =>
    if h ≤ new then
      let r := s.1.driveOneHeight sha rules tipOf isCanonical h
      driveHeights new fuel (h + 1) (r.1, s.2 + r.2)
    else some s

def advanceTo (d : FinalizeDriver) (new : U64) : Option (FinalizeDriver × Nat) :=
  let (admitted, hw) := d.hw.admitCandidateHeight new
  let d := { d with hw := hw }
  if admitted then
    (driveHeights sha rules tipOf isCanonical new (2 ^ 64 + 1) (d.lastDriven + 1) (d, 0)).map
      fun s => ({ s.1 with lastDriven := new }, s.2)
  else some (d, 0)

end Drive

/-- The operations of a driver; the canonicality answers of a call come with it. -/
inductive Op where
  | register (c : FinalizeCandidate)
  | advance (isCanonical : Bid → Bool) (new : U64)
  | orphan (bid : Bid) (settledPayout : Amounts)

/-- One operation; `none` where it does not return. -/
def step (d : FinalizeDriver) : Op → Option FinalizeDriver
  | .register c => some (d.registerFound sha rules dConf c)
  | .advance isCanonical new =>
    (d.advanceTo sha rules tipOf isCanonical new).map Prod.fst
  | .orphan bid settledPayout => some (d.onOrphaned sha rules bid settledPayout)

def run (d : FinalizeDriver) (ops : List Op) : Option FinalizeDriver :=
  ops.foldlM (step sha rules dConf tipOf) d

theorem succ_val {h : U64} (hlt : h.val + 1 < 2 ^ 64) : (h + 1).val = h.val + 1 := by
  rw [Fin.val_add, Fin.val_one, Nat.mod_eq_of_lt hlt]

theorem driveHeights_rule {sha : List Byte → Bytes32} {rules : OwedLedgerRules}
    {tipOf : U64 → Bytes32} {isCanonical : Bid → Bool} {Inv : Nat → FinalizeDriver → Prop}
    {new : U64} (hnew : new.val < 2 ^ 64 - 1) (hstep : ∀ h : U64, h ≤ new → ∀ d, Inv h.val d →
      Inv (h.val + 1) (d.driveOneHeight sha rules tipOf isCanonical h).1) (fuel : Nat) {h : U64}
    {s : FinalizeDriver × Nat} (hle : h.val ≤ new.val + 1) (hfuel : new.val + 1 < h.val + fuel)
    (hs : Inv h.val s.1) :
    ∃ s', driveHeights sha rules tipOf isCanonical new fuel h s = some s' ∧
      Inv (new.val + 1) s'.1 := by
  induction fuel generalizing h s with
  | zero => omega
  | succ fuel ih =>
    unfold driveHeights
    by_cases hh : h ≤ new
    · rw [if_pos hh]
      have hval : h.val ≤ new.val := hh
      have hsucc := @succ_val h (by omega)
      apply ih
      · omega
      · omega
      · rw [hsucc]
        exact hstep h hh s.1 hs
    rw [if_neg hh]
    have hval : new.val < h.val := not_le.mp hh
    have heq : h.val = new.val + 1 := by omega
    rw [heq] at hs
    exact ⟨s, rfl, hs⟩

theorem driveHeights_last {sha : List Byte → Bytes32} {rules : OwedLedgerRules}
    {tipOf : U64 → Bytes32} {isCanonical : Bid → Bool} {new : U64} (hnew : new.val = 2 ^ 64 - 1)
    (fuel : Nat) (h : U64) (s : FinalizeDriver × Nat) :
    driveHeights sha rules tipOf isCanonical new fuel h s = none := by
  induction fuel generalizing h s with
  | zero => rfl
  | succ fuel ih =>
    unfold driveHeights
    have hh : h ≤ new := by
      rw [Fin.le_def]
      omega
    rw [if_pos hh]
    exact ih _ _

/-! ## One height -/

def Waits (d : FinalizeDriver) (g : U64) (bid : Bid) : Prop :=
  ∃ bids, d.byFinalizeHeight.lookup g = some bids ∧ bid ∈ bids

def Live (isCanonical : Bid → Bool) (d : FinalizeDriver) (bid : Bid) : Prop :=
  bid ∉ d.orphaned ∧ isCanonical bid = true

structure SameBut (d d' : FinalizeDriver) : Prop where
  lastDriven : d'.lastDriven = d.lastDriven
  foundHeight : d'.foundHeight = d.foundHeight
  orphaned : d'.orphaned = d.orphaned

theorem SameBut.refl (d : FinalizeDriver) : SameBut d d := ⟨rfl, rfl, rfl⟩

theorem SameBut.trans {d d' d'' : FinalizeDriver} (h : SameBut d d') (h' : SameBut d' d'') :
    SameBut d d'' := ⟨h'.lastDriven.trans h.lastDriven, h'.foundHeight.trans h.foundHeight,
    h'.orphaned.trans h.orphaned⟩

theorem SameBut.live {d d' : FinalizeDriver} (h : SameBut d d') (isCanonical : Bid → Bool)
    (bid : Bid) : d'.Live isCanonical bid ↔ d.Live isCanonical bid := by
  unfold Live
  rw [h.orphaned]

theorem isPending_finalized {sha : List Byte → Bytes32} {rules : OwedLedgerRules} (l : OwedLedger)
    (b : Bid) (binHeight : U64) (bid : Bid) :
    (l.call sha rules (.finalized b binHeight)).isPending bid = true ↔
      l.isPending bid = true ∧ bid ≠ b := by
  simp only [OwedLedger.call, OwedLedger.onBlockFinalized, OwedLedger.isPending]
  cases hp : l.pending.lookup b with
  | none =>
    constructor
    · intro hsome
      refine ⟨hsome, ?_⟩
      rintro rfl
      rw [hp] at hsome
      cases hsome
    · exact fun h => h.1
  | some p =>
    simp only [OwedLedger.bump]
    rw [SortedMap.lookup_erase]
    by_cases hb : bid = b
    · simp [hb]
    · simp [hb]

theorem finalizeBid_spec (s : FinalizeDriver × Nat) (b : Bid) :
    let s' := finalizeBid sha rules isCanonical s b
    SameBut s.1 s'.1 ∧ s'.1.hw = s.1.hw ∧ s'.1.byFinalizeHeight = s.1.byFinalizeHeight ∧
      ∀ bid, s'.1.ledger.isPending bid = true ↔
        s.1.ledger.isPending bid = true ∧ ¬ (bid = b ∧ s.1.Live isCanonical bid) := by
  unfold finalizeBid
  by_cases horphan : b ∈ s.1.orphaned
  · rw [if_pos horphan]
    refine ⟨.refl _, rfl, rfl, fun bid => ⟨fun h => ⟨h, ?_⟩, fun h => h.1⟩⟩
    rintro ⟨rfl, hlive⟩
    exact hlive.1 horphan
  rw [if_neg horphan]
  by_cases hcanon : isCanonical b = false
  · rw [if_pos hcanon]
    refine ⟨.refl _, rfl, rfl, fun bid => ⟨fun h => ⟨h, ?_⟩, fun h => h.1⟩⟩
    rintro ⟨rfl, hlive⟩
    rw [hlive.2] at hcanon
    cases hcanon
  rw [if_neg hcanon]
  by_cases hpend : s.1.ledger.isPending b = false
  · rw [if_pos hpend]
    refine ⟨.refl _, rfl, rfl, fun bid => ⟨fun h => ⟨h, ?_⟩, fun h => h.1⟩⟩
    rintro ⟨rfl, -⟩
    rw [hpend] at h
    cases h
  rw [if_neg hpend]
  refine ⟨⟨rfl, rfl, rfl⟩, rfl, rfl, fun bid => ?_⟩
  have hlive : s.1.Live isCanonical b := ⟨horphan, by simpa using hcanon⟩
  show (s.1.ledger.call sha rules _).isPending bid = true ↔ _
  rw [isPending_finalized]
  constructor
  · rintro ⟨h, hne⟩
    exact ⟨h, fun hb => hne hb.1⟩
  rintro ⟨h, hno⟩
  refine ⟨h, fun hb => hno ⟨hb, ?_⟩⟩
  rw [hb]
  exact hlive

theorem foldl_finalizeBid_spec (bids : List Bid) (s : FinalizeDriver × Nat) :
    let s' := bids.foldl (finalizeBid sha rules isCanonical) s
    SameBut s.1 s'.1 ∧ s'.1.hw = s.1.hw ∧ s'.1.byFinalizeHeight = s.1.byFinalizeHeight ∧
      ∀ bid, s'.1.ledger.isPending bid = true ↔
        s.1.ledger.isPending bid = true ∧ ¬ (bid ∈ bids ∧ s.1.Live isCanonical bid) := by
  induction bids generalizing s with
  | nil => simp [SameBut.refl]
  | cons b bids ih =>
    obtain ⟨hsame, hhw, hgates, hpend⟩ := @finalizeBid_spec sha rules isCanonical s b
    obtain ⟨hsame', hhw', hgates', hpend'⟩ := ih (finalizeBid sha rules isCanonical s b)
    rw [foldl_cons]
    refine ⟨hsame.trans hsame', hhw'.trans hhw, hgates'.trans hgates, fun bid => ?_⟩
    rw [hpend', hpend, hsame.live, mem_cons]
    tauto

theorem finalizeGate_spec (s : FinalizeDriver × Nat) (e : U64 × List Bid) :
    let s' := finalizeGate sha rules isCanonical s e
    SameBut s.1 s'.1 ∧ s'.1.hw = s.1.hw ∧
      s'.1.byFinalizeHeight = s.1.byFinalizeHeight.erase e.1 ∧
      ∀ bid, s'.1.ledger.isPending bid = true ↔
        s.1.ledger.isPending bid = true ∧ ¬ (bid ∈ e.2 ∧ s.1.Live isCanonical bid) := by
  obtain ⟨hsame, hhw, hgates, hpend⟩ :=
    @foldl_finalizeBid_spec sha rules isCanonical (e.2.insertionSort (· ≤ ·)) s
  simp only [finalizeGate]
  refine ⟨{ hsame with }, hhw, by rw [hgates], ?_⟩
  intro bid
  rw [hpend, mem_insertionSort]

theorem foldl_finalizeGate_spec (es : List (U64 × List Bid)) (s : FinalizeDriver × Nat) :
    let s' := es.foldl (finalizeGate sha rules isCanonical) s
    SameBut s.1 s'.1 ∧ s'.1.hw = s.1.hw ∧
      (∀ g, s'.1.byFinalizeHeight.lookup g =
        if g ∈ es.map Prod.fst then none else s.1.byFinalizeHeight.lookup g) ∧
      ∀ bid, s'.1.ledger.isPending bid = true ↔
        s.1.ledger.isPending bid = true ∧ ¬ ((∃ e ∈ es, bid ∈ e.2) ∧ s.1.Live isCanonical bid) := by
  induction es generalizing s with
  | nil => simp [SameBut.refl]
  | cons e es ih =>
    obtain ⟨hsame, hhw, hgates, hpend⟩ := @finalizeGate_spec sha rules isCanonical s e
    obtain ⟨hsame', hhw', hgates', hpend'⟩ := ih (finalizeGate sha rules isCanonical s e)
    rw [foldl_cons]
    refine ⟨hsame.trans hsame', hhw'.trans hhw, fun g => ?_, fun bid => ?_⟩
    · rw [hgates', hgates, SortedMap.lookup_erase]
      by_cases hg : g = e.1
      · rw [if_pos hg, ite_self, if_pos]
        rw [hg]
        exact mem_cons_self
      · rw [if_neg hg]
        simp only [map_cons, mem_cons, hg, false_or]
    · have hmem : (∃ x ∈ e :: es, bid ∈ x.2) ↔ bid ∈ e.2 ∨ ∃ x ∈ es, bid ∈ x.2 := by simp
      rw [hpend', hsame.live, hpend, hmem, or_and_right, not_or, and_assoc]

theorem mem_takeWhile_entries {m : SortedMap U64 (List Bid)} {h : U64} {e : U64 × List Bid} :
    e ∈ m.entries.takeWhile (fun e => e.1 ≤ h) ↔ e ∈ m.entries ∧ e.1 ≤ h := by
  have hsorted := m.sorted
  generalize m.entries = es at hsorted
  induction es with
  | nil => simp
  | cons x es ih =>
    obtain ⟨hx, hes⟩ := pairwise_cons.mp hsorted
    by_cases hle : x.1 ≤ h
    · rw [takeWhile_cons_of_pos (by simpa using hle), mem_cons, mem_cons]
      constructor
      · rintro (rfl | he)
        · exact ⟨.inl rfl, hle⟩
        · exact ⟨.inr ((ih hes).mp he).1, ((ih hes).mp he).2⟩
      rintro ⟨rfl | he, hh⟩
      · exact .inl rfl
      · exact .inr ((ih hes).mpr ⟨he, hh⟩)
    rw [takeWhile_cons_of_neg (by simpa using hle)]
    constructor
    · intro he
      cases he
    rintro ⟨he, hh⟩
    rcases mem_cons.mp he with rfl | he
    · exact (hle hh).elim
    · exact (hle ((hx e he).le.trans hh)).elim

theorem driveOneHeight_spec (d : FinalizeDriver) (h : U64) :
    let d' := (d.driveOneHeight sha rules tipOf isCanonical h).1
    SameBut d d' ∧ d'.hw = d.hw.advance h (tipOf h) ∧
      (∀ g, d'.byFinalizeHeight.lookup g = if g ≤ h then none else d.byFinalizeHeight.lookup g) ∧
      ∀ bid, d'.ledger.isPending bid = true ↔
        d.ledger.isPending bid = true ∧
          ¬ ((∃ g, g ≤ h ∧ d.Waits g bid) ∧ d.Live isCanonical bid) := by
  simp only [driveOneHeight]
  obtain ⟨hsame, hhw, hgates, hpend⟩ := @foldl_finalizeGate_spec sha rules isCanonical
    (d.byFinalizeHeight.entries.takeWhile fun e => e.1 ≤ h)
    ({ d with hw := d.hw.advance h (tipOf h) }, 0)
  refine ⟨{ hsame with }, hhw, fun g => ?_, fun bid => ?_⟩
  · rw [hgates]
    by_cases hg : g ≤ h
    · rw [if_pos hg]
      split
      · rfl
      rename_i hno
      cases hlook : d.byFinalizeHeight.lookup g with
      | none => rfl
      | some bids =>
        refine (hno (mem_map.mpr ⟨(g, bids), ?_, rfl⟩)).elim
        exact mem_takeWhile_entries.mpr ⟨SortedMap.mem_entries_iff.mpr hlook, hg⟩
    rw [if_neg hg, if_neg]
    intro hmem
    obtain ⟨e, he, rfl⟩ := mem_map.mp hmem
    exact hg (mem_takeWhile_entries.mp he).2
  rw [hpend]
  have hwaits : (∃ e ∈ d.byFinalizeHeight.entries.takeWhile (fun e => e.1 ≤ h), bid ∈ e.2) ↔
      ∃ g, g ≤ h ∧ d.Waits g bid := by
    constructor
    · rintro ⟨e, he, hbid⟩
      obtain ⟨hmem, hle⟩ := mem_takeWhile_entries.mp he
      exact ⟨e.1, hle, e.2, SortedMap.mem_entries_iff.mp hmem, hbid⟩
    rintro ⟨g, hle, bids, hlook, hbid⟩
    exact ⟨(g, bids), mem_takeWhile_entries.mpr ⟨SortedMap.mem_entries_iff.mpr hlook, hle⟩, hbid⟩
  rw [hwaits]
  rfl

end FinalizeDriver

end C2Pool.V37
