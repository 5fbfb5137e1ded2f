import C2Pool.V37.OwedProposal

/-! # Conservation

Payouts that are drawn from proposals never overdraw a balance, and the finalized balances are what
the settled blocks credited less what they paid. The drops due are conserved in the same way.
-/

namespace C2Pool.V37

open List SortedMap Balances

namespace OwedLedger

variable {sha : List Byte → Bytes32} {rules : OwedLedgerRules} {l : OwedLedger}

def DrawnFrom (payout : Amounts) (outs : List ProposedOut) : Prop :=
  ∀ k v, payout.lookup k = some v →
    0 ≤ v ∧ (v = 0 ∨ ∃ o ∈ outs, o.key = k ∧ v ≤ (o.amount : Int))

/-- A found block credits nobody negatively and, when it is new, pays out of a proposal on the
ledger it is found on. -/
def Fair (rules : OwedLedgerRules) (l : OwedLedger) : LedgerCall → Prop
  | .found bid args =>
    (∀ k, 0 ≤ args.credit.balance k) ∧
      (l.pending.lookup bid = none → bid ∉ l.settled →
        ∃ pargs : ProposalArgs, DrawnFrom args.payout (proposeCoinbase rules l pargs))
  | _ => True

theorem amount_le_of_mem_payInTurn {args : ProposalArgs} {ks : List Bytes32}
    {budget used : Nat} {o : ProposedOut} (ho : o ∈ payInTurn l args budget used ks) :
    o.key ∈ ks ∧ o.amount ≤ (l.directOwed o.key).toNat := by
  induction ks generalizing budget used with
  | nil => exact (not_mem_nil ho).elim
  | cons k ks ih =>
    rw [payInTurn] at ho
    split at ho
    · exact (not_mem_nil ho).elim
    dsimp only at ho
    split at ho
    · obtain ⟨hmem, hle⟩ := ih ho
      exact ⟨mem_cons_of_mem k hmem, hle⟩
    rw [mem_cons] at ho
    obtain rfl | ho := ho
    · exact ⟨mem_cons_self, Nat.min_le_left _ _⟩
    · obtain ⟨hmem, hle⟩ := ih ho
      exact ⟨mem_cons_of_mem k hmem, hle⟩

theorem DrawnFrom.le_owed (h : l.Indexed) (hl : ∀ k, 0 ≤ l.directOwed k) {pargs : ProposalArgs}
    {payout : Amounts} (hdrawn : DrawnFrom payout (proposeCoinbase rules l pargs)) (k : Bytes32) :
    0 ≤ payout.balance k ∧ payout.balance k ≤ l.directOwed k := by
  cases hrow : payout.lookup k with
  | none =>
    rw [Balances.balance, hrow, Option.getD_none]
    exact ⟨le_refl 0, hl k⟩
  | some v =>
    rw [balance_of_lookup hrow]
    obtain ⟨hpos, rfl | ⟨o, ho, rfl, hle⟩⟩ := hdrawn k v hrow
    · exact ⟨le_refl 0, hl k⟩
    refine ⟨hpos, ?_⟩
    rw [proposeCoinbase_eq_direct h] at ho
    obtain ⟨hmem, hamount⟩ := amount_le_of_mem_payInTurn ho
    have howed := (mem_queue.mp hmem).1
    omega

/-- The finalized balances cover the pending payouts, and nothing pending is negative. -/
structure Covered (l : OwedLedger) : Prop where
  rows : ∀ bid p, l.pending.lookup bid = some p →
    ∀ k, 0 ≤ p.credit.balance k ∧ 0 ≤ p.payout.balance k
  owed : ∀ k, 0 ≤ l.directOwed k

theorem forall_lookup_erase {m : SortedMap Bid Pending} {P : Pending → Prop}
    (h : ∀ x p, m.lookup x = some p → P p) (bid x : Bid) (p : Pending)
    (hp : (m.erase bid).lookup x = some p) : P p := by
  rw [lookup_erase] at hp
  split at hp
  · cases hp
  · exact h x p hp

theorem Covered.call (hoff : ¬ rules.decayOn) (hidx : l.Indexed) (h : l.Covered) {c : LedgerCall}
    (hc : Fair rules l c) : (l.call sha rules c).Covered := by
  obtain heq | ⟨bid, args, rfl, hnone, hnew, heq⟩ | ⟨bid, binHeight, p, rfl, hp, heq⟩ |
      ⟨bid, settledPayout, p, rfl, hp, heq⟩ | ⟨bid, settledPayout, rfl, hnone, hset, heq⟩ :=
    @call_cases sha rules l c <;> rw [heq]
  · exact h
  · obtain ⟨hcredit, hdrawn⟩ := hc
    obtain ⟨pargs, hdrawn⟩ := hdrawn hnone hnew
    have hpayout := hdrawn.le_owed hidx h.owed
    constructor
    · intro x p hp k
      simp only [bump] at hp
      rw [lookup_insert] at hp
      split at hp
      · cases hp
        simp only [Pending.ofFound, balance_nonzero]
        exact ⟨hcredit k, (hpayout k).1⟩
      · exact h.rows x p hp k
    intro k
    show 0 ≤ l.finalW.balance k -
      (l.pending.insert bid (Pending.ofFound rules args)).sumBy fun p => p.payout.balance k
    rw [pendingPayout_insert hnone]
    simp only [Pending.ofFound, balance_nonzero]
    have := (hpayout k).2
    unfold directOwed at this
    omega
  · constructor
    · exact forall_lookup_erase h.rows bid
    intro k
    show 0 ≤ (l.settle rules p binHeight).finalW.balance k -
      (l.pending.erase bid).sumBy fun p => p.payout.balance k
    rw [pendingPayout_erase hp, Finalized.balance_settle, Finalized.writtenOff_of_off _ _ _ _ hoff,
      balance_empty]
    have hcredit := (h.rows bid p hp k).1
    have howed := h.owed k
    unfold directOwed at howed
    omega
  · constructor
    · exact forall_lookup_erase h.rows bid
    intro k
    show 0 ≤ l.finalW.balance k -
      (l.pending.erase bid).sumBy fun p => p.payout.balance k
    rw [pendingPayout_erase hp]
    have hpay := (h.rows bid p hp k).2
    have howed := h.owed k
    unfold directOwed at howed
    omega
  · constructor
    · simpa [bump] using h.rows
    · intro k
      simpa [bump, directOwed, pendingPayout] using h.owed k

theorem balance_ofHistory (hoff : ¬ rules.decayOn) (history : List (Bid × FoundArgs × U64))
    (k : Bytes32) : (Finalized.ofHistory rules history).finalW.balance k =
      (history.map fun e => e.2.1.credit.balance k - e.2.1.payout.balance k).sum := by
  induction history using List.reverseRecOn with
  | nil => rfl
  | append_singleton history e ih =>
    simp only [Finalized.ofHistory, foldl_append, foldl_cons, foldl_nil] at ih ⊢
    rw [Finalized.balance_settle, Finalized.writtenOff_of_off _ _ _ _ hoff, ih]
    simp [Pending.ofFound]
    omega

theorem total_ofHistory (hoff : ¬ rules.decayOn) (history : List (Bid × FoundArgs × U64)) :
    (Finalized.ofHistory rules history).finalW.total =
      (history.map fun e => e.2.1.credit.total).sum -
        (history.map fun e => e.2.1.payout.total).sum := by
  induction history using List.reverseRecOn with
  | nil => rfl
  | append_singleton history e ih =>
    simp only [Finalized.ofHistory, foldl_append, foldl_cons, foldl_nil] at ih ⊢
    rw [Finalized.total_settle, Finalized.writtenOff_of_off _ _ _ _ hoff, ih]
    simp [Pending.ofFound, total_nonzero]
    omega

theorem after_owed_perm (hoff : ¬ rules.decayOn) {calls calls' : List LedgerCall}
    (hpending : (bookOf calls).pending = (bookOf calls').pending)
    (hsettled : ((bookOf calls).history.map fun e => e.2.1).Perm
      ((bookOf calls').history.map fun e => e.2.1)) (k : Bytes32) :
    (after sha rules calls).effectiveOwed k = (after sha rules calls').effectiveOwed k ∧
      (after sha rules calls).finalW.total = (after sha rules calls').finalW.total := by
  have h : Keeps rules (after sha rules calls) (bookOf calls) := keeps_after calls
  have h' : Keeps rules (after sha rules calls') (bookOf calls') := keeps_after calls'
  have hsum (f : FoundArgs → Int) : ((bookOf calls).history.map fun e => f e.2.1).sum =
      ((bookOf calls').history.map fun e => f e.2.1).sum := by
    simpa [map_map, Function.comp_def] using (hsettled.map f).sum_eq
  constructor
  · unfold effectiveOwed
    rw [(indexed_after calls).value, (indexed_after calls').value]
    unfold directOwed pendingPayout
    rw [h.pending, h'.pending, hpending, h.finalized, h'.finalized, balance_ofHistory hoff,
      balance_ofHistory hoff, hsum fun args => args.credit.balance k - args.payout.balance k]
  · rw [h.finalized, h'.finalized, total_ofHistory hoff, total_ofHistory hoff,
      hsum fun args => args.credit.total, hsum fun args => args.payout.total]

def creditFive : FoundArgs := { credit := SortedMap.insert ∅ 1 5 }

def payThree : FoundArgs := { credit := SortedMap.insert ∅ 1 2, payout := SortedMap.insert ∅ 1 3 }

def settledInTurn (b b' : Bid) : List LedgerCall :=
  [.found [1] creditFive, .found [2] payThree, .finalized b 7, .finalized b' 9]

theorem after_owed_perm_swapped :
    (after (fun _ => 0) {} (settledInTurn [1] [2])).effectiveOwed 1 =
      (after (fun _ => 0) {} (settledInTurn [2] [1])).effectiveOwed 1 := by
  have hfirst : bookOf (settledInTurn [1] [2]) =
      ⟨∅, [([1], creditFive, 7), ([2], payThree, 9)]⟩ := rfl
  have hsecond : bookOf (settledInTurn [2] [1]) =
      ⟨∅, [([2], payThree, 7), ([1], creditFive, 9)]⟩ := rfl
  refine (@after_owed_perm _ {} (by decide) (settledInTurn [1] [2]) _ ?_ ?_ 1).1
  · rw [hfirst, hsecond]
  · rw [hfirst, hsecond]
    exact Perm.swap _ _ []

end OwedLedger

end C2Pool.V37
