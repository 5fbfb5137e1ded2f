import C2Pool.Lib.Book
import C2Pool.V37.OwedLedger

/-! # The ledger as a book

What the owed ledger is for: a book of blocks that are found, and then settled or withdrawn. The
finalized part of the ledger is a fold over the settled blocks of the book and reads nothing else.
-/

namespace C2Pool.V37

open List SortedMap Balances Option

def LedgerCall.event : LedgerCall → BookEvent Bid FoundArgs U64
  | .found bid args => .found bid args
  | .finalized bid binHeight => .finalize bid binHeight
  | .orphaned bid _ => .orphan bid

def bookOf (calls : List LedgerCall) : Book Bid FoundArgs U64 :=
  Run.run Book.step {} (calls.map LedgerCall.event)

def Finalized.ofHistory (rules : OwedLedgerRules) (history : List (Bid × FoundArgs × U64)) :
    Finalized :=
  history.foldl (fun fin e => fin.settle rules (Pending.ofFound rules e.2.1) e.2.2) {}

/-! ## Frames of the stages of finalizing -/

namespace Finalized

variable (rules : OwedLedgerRules) (fin : Finalized) (p : Pending) (binHeight : U64)

@[simp] theorem finalW_noteHeight : (fin.noteHeight rules p).finalW = fin.finalW := by
  unfold noteHeight
  split <;> rfl

@[simp] theorem finalW_runClock : (fin.runClock rules p binHeight).finalW = fin.finalW := by
  unfold runClock
  split
  · dsimp only
    split <;> rfl
  · rfl

@[simp] theorem finalW_moveAnchor : (fin.moveAnchor rules p).finalW = fin.finalW := by
  unfold moveAnchor
  split
  · split <;> rfl
  · rfl

@[simp] theorem finalW_settleDue : (fin.settleDue rules p).finalW = fin.finalW := by
  unfold settleDue
  split <;> rfl

@[simp] theorem finalW_joinRegistry : (fin.joinRegistry rules p).finalW = fin.finalW := by
  unfold joinRegistry
  split <;> rfl

@[simp] theorem finalW_slideWindow : (fin.slideWindow rules p).finalW = fin.finalW := by
  unfold slideWindow
  split <;> rfl

theorem finalW_absorb : (fin.absorb rules p binHeight).finalW =
    (fin.finalW.addAll p.credit).subAll p.payout := by
  simp [absorb, book]

theorem finalW_decayDust : (fin.decayDust rules binHeight).finalW =
    fin.finalW.subAll (fin.decayed rules binHeight) := by
  unfold decayDust decayed
  split <;> rfl

@[simp] theorem finalW_rearmFirstEligible (paid : List Bytes32) :
    (fin.rearmFirstEligible rules binHeight paid).finalW = fin.finalW := rfl

theorem balance_pruneFinalizedZeroRows (k : Bytes32) :
    fin.pruneFinalizedZeroRows.finalW.balance k = fin.finalW.balance k := by
  unfold pruneFinalizedZeroRows
  rw [balance_filterMap, Balances.balance]
  cases h : fin.finalW.lookup k with
  | none => rfl
  | some w =>
    split
    · rename_i hidle
      have hzero : w = 0 := by
        have := hidle.1
        rw [h] at this
        exact Option.some.inj this
      rw [hzero]
      rfl
    · rfl

theorem total_pruneFinalizedZeroRows :
    fin.pruneFinalizedZeroRows.finalW.total = fin.finalW.total := by
  have hkeep : fin.pruneFinalizedZeroRows.finalW = fin.finalW.filterMap fun k w =>
      if decide (¬ (w = 0 ∧ fin.firstEligible.lookup k = none)) then some w else none := by
    ext1 k
    unfold pruneFinalizedZeroRows
    rw [lookup_filterMap, lookup_filterMap]
    cases h : fin.finalW.lookup k with
    | none => rfl
    | some w =>
      simp only [bind_some, Idle, h, Option.some.injEq]
      by_cases hidle : w = 0 ∧ fin.firstEligible.lookup k = none
      · simp [hidle]
      · simp [hidle]
  rw [hkeep]
  apply total_filterMap_of_drops_zero
  intro k v hdrop
  rw [decide_eq_false_iff_not, not_not] at hdrop
  exact hdrop.1

theorem balance_settle (k : Bytes32) : (fin.settle rules p binHeight).finalW.balance k =
    fin.finalW.balance k + p.credit.balance k - p.payout.balance k -
      (fin.writtenOff rules p binHeight).balance k := by
  unfold settle writtenOff
  rw [balance_pruneFinalizedZeroRows, finalW_rearmFirstEligible, finalW_decayDust, finalW_absorb,
    balance_subAll, balance_subAll, balance_addAll]

theorem total_settle : (fin.settle rules p binHeight).finalW.total =
    fin.finalW.total + p.credit.total - p.payout.total -
      (fin.writtenOff rules p binHeight).total := by
  unfold settle writtenOff
  rw [total_pruneFinalizedZeroRows, finalW_rearmFirstEligible, finalW_decayDust, finalW_absorb,
    total_subAll, total_subAll, total_addAll]

theorem writtenOff_of_off (hoff : ¬ rules.decayOn) : fin.writtenOff rules p binHeight = ∅ := by
  unfold writtenOff decayed
  rw [if_neg hoff]

end Finalized

namespace OwedLedger

variable {sha : List Byte → Bytes32} {rules : OwedLedgerRules} {l : OwedLedger}
  {bk : Book Bid FoundArgs U64}

theorem call_cases (l : OwedLedger) (c : LedgerCall) :
    l.call sha rules c = l ∨
    (∃ bid args, c = .found bid args ∧ l.pending.lookup bid = none ∧ bid ∉ l.settled ∧
      l.call sha rules c = bump sha
        { l with
          index := l.index.onFound (Pending.ofFound rules args).payout l.feAt
          pending := l.pending.insert bid (Pending.ofFound rules args) }
        ((Pending.ofFound rules args).leaf bid)) ∨
    (∃ bid binHeight p, c = .finalized bid binHeight ∧ l.pending.lookup bid = some p ∧
      l.call sha rules c = bump sha
        { l with
          toFinalized := l.settle rules p binHeight
          index := l.settleIndex rules p binHeight
          pending := l.pending.erase bid
          settled := insert bid l.settled }
        (l.finalizeLeaf rules bid p binHeight)) ∨
    (∃ bid settledPayout p, c = .orphaned bid settledPayout ∧ l.pending.lookup bid = some p ∧
      l.call sha rules c = bump sha
        { l with
          index := l.index.onOrphanPre p.payout l.feAt
          pending := l.pending.erase bid }
        (orphanPrePayload bid)) ∨
    ∃ bid settledPayout, c = .orphaned bid settledPayout ∧ l.pending.lookup bid = none ∧
      bid ∈ l.settled ∧
      l.call sha rules c = bump sha (l.noteResidual bid settledPayout.total)
        (orphanSettledPayload bid settledPayout) := by
  cases c with
  | found bid args =>
    simp only [call, onBlockFound]
    by_cases hknown : l.pending.lookup bid ≠ none ∨ bid ∈ l.settled
    · exact .inl (if_pos hknown)
    rw [not_or, not_not] at hknown
    right; left
    refine ⟨bid, args, rfl, hknown.1, hknown.2, ?_⟩
    rw [if_neg (by simp [hknown])]
  | finalized bid binHeight =>
    simp only [call, onBlockFinalized]
    cases hp : l.pending.lookup bid with
    | none => exact .inl rfl
    | some p => exact .inr (.inr (.inl ⟨bid, binHeight, p, rfl, hp, rfl⟩))
  | orphaned bid settledPayout =>
    simp only [call, onBlockOrphaned]
    cases hp : l.pending.lookup bid with
    | some p => exact .inr (.inr (.inr (.inl ⟨bid, settledPayout, p, rfl, hp, rfl⟩)))
    | none =>
      by_cases hset : bid ∈ l.settled
      · exact .inr (.inr (.inr (.inr ⟨bid, settledPayout, rfl, hp, hset, if_pos hset⟩)))
      · exact .inl (if_neg hset)

@[simp] theorem pending_noteResidual (l : OwedLedger) (bid : Bid) (residual : Int) :
    (l.noteResidual bid residual).pending = l.pending := by
  unfold noteResidual
  split <;> rfl

@[simp] theorem toFinalized_noteResidual (l : OwedLedger) (bid : Bid) (residual : Int) :
    (l.noteResidual bid residual).toFinalized = l.toFinalized := by
  unfold noteResidual
  split <;> rfl

structure Keeps (rules : OwedLedgerRules) (l : OwedLedger) (bk : Book Bid FoundArgs U64) :
    Prop where
  pending : l.pending = bk.pending.mapValues fun _ args => Pending.ofFound rules args
  settled : ∀ bid, bid ∈ l.settled ↔ bid ∈ bk.settled
  finalized : l.toFinalized = Finalized.ofHistory rules bk.history

theorem Keeps.lookup (h : Keeps rules l bk) (bid : Bid) :
    l.pending.lookup bid = (bk.pending.lookup bid).map fun args => Pending.ofFound rules args := by
  rw [h.pending, lookup_mapValues]

theorem Keeps.call (h : Keeps rules l bk)
    (c : LedgerCall) : Keeps rules (l.call sha rules c) (bk.step c.event) := by
  cases c with
  | found bid args =>
    have hknown : (l.pending.lookup bid ≠ none ∨ bid ∈ l.settled) ↔
        (bk.pending.lookup bid ≠ none ∨ bid ∈ bk.settled) := by
      rw [h.settled, h.lookup, ne_eq, map_eq_none_iff]
    simp only [OwedLedger.call, onBlockFound, LedgerCall.event, Book.step, hknown]
    split
    · exact h
    · exact { h with pending := by simp only [bump, h.pending, mapValues_insert] }
  | finalized bid binHeight =>
    have hrow := h.lookup bid
    simp only [OwedLedger.call, onBlockFinalized, LedgerCall.event, Book.step]
    cases hr : bk.pending.lookup bid with
    | none =>
      rw [hr, map_none] at hrow
      rw [hrow]
      exact h
    | some args =>
      rw [hr, map_some] at hrow
      rw [hrow]
      refine ⟨?_, fun x => ?_, ?_⟩
      · simp only [bump, h.pending, mapValues_erase]
      · simp only [bump, Finset.mem_insert, h.settled, Book.settled, map_append,
          mem_append, map_cons, map_nil, mem_singleton]
        exact or_comm
      · simp only [bump, Finalized.ofHistory, foldl_append, foldl_cons, foldl_nil]
        rw [h.finalized]
        rfl
  | orphaned bid settledPayout =>
    have hrow := h.lookup bid
    simp only [OwedLedger.call, onBlockOrphaned, LedgerCall.event, Book.step]
    cases hr : bk.pending.lookup bid with
    | none =>
      rw [hr, map_none] at hrow
      rw [hrow, erase_of_lookup_none hr]
      simp only
      split
      · unfold noteResidual
        split <;> exact { h with }
      · exact h
    | some args =>
      rw [hr, map_some] at hrow
      rw [hrow]
      exact { h with pending := by simp only [bump, h.pending, mapValues_erase] }

theorem keeps_run (h : Keeps rules l bk) (calls : List LedgerCall) :
    Keeps rules (Run.run (call sha rules) l calls)
      (Run.run Book.step bk (calls.map LedgerCall.event)) := by
  induction calls generalizing l bk with
  | nil => exact h
  | cons c calls ih => exact ih (h.call c)

theorem keeps_after (calls : List LedgerCall) :
    Keeps rules (after sha rules calls) (bookOf calls) := by
  apply keeps_run
  exact ⟨rfl, fun bid => by simp [Book.settled], rfl⟩

def pendingPayout (l : OwedLedger) (k : Bytes32) : Int :=
  l.pending.sumBy fun p => p.payout.balance k

/-- The effective balance as it is defined: the finalized one less the pending payouts. -/
def directOwed (l : OwedLedger) (k : Bytes32) : Int := l.finalW.balance k - l.pendingPayout k

/-- The index holds the effective balance of every key, and the positive keys by age. -/
structure Indexed (l : OwedLedger) : Prop where
  value : ∀ k, l.index.value k = l.directOwed k
  ordered : l.index.Ordered l.feAt

theorem indexed_empty : Indexed {} :=
  ⟨fun _ => rfl, EffectiveOwedIndex.ordered_empty _⟩

theorem pendingPayout_insert {bid : Bid} (h : l.pending.lookup bid = none)
    (p : Pending) (k : Bytes32) :
    (l.pending.insert bid p).sumBy (fun p => p.payout.balance k) =
      p.payout.balance k + l.pendingPayout k := sumBy_insert h p _

theorem pendingPayout_erase {bid : Bid} {p : Pending}
    (h : l.pending.lookup bid = some p) (k : Bytes32) :
    (l.pending.erase bid).sumBy (fun p => p.payout.balance k) =
      l.pendingPayout k - p.payout.balance k := by
  have := sumBy_of_lookup h fun p => p.payout.balance k
  unfold pendingPayout
  omega

theorem Indexed.bump (h : l.Indexed) (leaf : List Byte) : (l.bump sha leaf).Indexed := { h with }

theorem Indexed.onBlockFound (h : l.Indexed) (bid : Bid) (args : FoundArgs) :
    (l.onBlockFound sha rules bid args).Indexed := by
  unfold OwedLedger.onBlockFound
  split
  · exact h
  rename_i hfresh
  have hnone : l.pending.lookup bid = none := by
    by_contra hsome
    exact hfresh (.inl hsome)
  obtain ⟨hord, hval⟩ := h.ordered.onFound (Pending.ofFound rules args).payout
  apply Indexed.bump
  refine ⟨fun k => ?_, hord⟩
  show (l.index.onFound _ _).value k = l.finalW.balance k - SortedMap.sumBy _ _
  rw [hval, h.value, pendingPayout_insert hnone, directOwed]
  omega

theorem Indexed.onBlockFinalized (h : l.Indexed) (bid : Bid) (binHeight : U64) :
    (l.onBlockFinalized sha rules bid binHeight).Indexed := by
  unfold OwedLedger.onBlockFinalized
  split
  · exact h
  rename_i p hp
  obtain ⟨hord, hval⟩ := EffectiveOwedIndex.ordered_rebuildOrder
    ((l.index.applyFinalizeCredit p.credit).applyFinalizeCredit
      ((l.writtenOff rules p binHeight).mapValues fun _ v => -v))
    (l.settle rules p binHeight).feAt
  apply Indexed.bump
  refine ⟨fun k => ?_, hord⟩
  have hneg : Balances.balance ((l.writtenOff rules p binHeight).mapValues fun _ v => -v) k =
      -(l.writtenOff rules p binHeight).balance k := by
    unfold Balances.balance
    rw [lookup_mapValues]
    cases SortedMap.lookup (l.writtenOff rules p binHeight) k <;> simp
  show (l.settleIndex rules p binHeight).value k =
    (l.settle rules p binHeight).finalW.balance k - SortedMap.sumBy _ _
  rw [settleIndex, hval, EffectiveOwedIndex.value_applyFinalizeCredit,
    EffectiveOwedIndex.value_applyFinalizeCredit, hneg, h.value, Finalized.balance_settle,
    pendingPayout_erase hp, directOwed]
  omega

theorem Indexed.onBlockOrphaned (h : l.Indexed) (bid : Bid)
    (settledPayout : Amounts) : (l.onBlockOrphaned sha bid settledPayout).Indexed := by
  unfold OwedLedger.onBlockOrphaned
  split
  · rename_i p hp
    obtain ⟨hord, hval⟩ := h.ordered.onOrphanPre p.payout
    apply Indexed.bump
    refine ⟨fun k => ?_, hord⟩
    show (l.index.onOrphanPre _ _).value k = l.finalW.balance k - SortedMap.sumBy _ _
    rw [hval, h.value, pendingPayout_erase hp, directOwed]
    omega
  split
  · apply Indexed.bump
    unfold noteResidual
    split <;> exact { h with }
  · exact h

theorem Indexed.call (h : l.Indexed) (c : LedgerCall) : (l.call sha rules c).Indexed := by
  cases c with
  | found bid args => exact h.onBlockFound bid args
  | finalized bid binHeight => exact h.onBlockFinalized bid binHeight
  | orphaned bid settledPayout => exact h.onBlockOrphaned bid settledPayout

theorem indexed_after (calls : List LedgerCall) : (after sha rules calls).Indexed := by
  have hrun : ∀ l : OwedLedger, l.Indexed → (Run.run (call sha rules) l calls).Indexed := by
    induction calls with
    | nil => exact fun l h => h
    | cons c calls ih => exact fun l h => ih _ (h.call c)
  exact hrun {} indexed_empty

end OwedLedger

end C2Pool.V37
