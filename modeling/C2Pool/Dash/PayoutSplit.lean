import C2Pool.Dash.PayeeQueue
import Mathlib.Data.List.Permutation

/-! # The operator split of the payee

The template builder (`embedded_gbt.hpp`) pays a masternode an owner share and a floored operator
share, both read off its entry before the block. Pass 3 of `apply_block` marks the payee by its
script before the block, but `observe_payout_split` reads the entry as the block has left it.
-/

namespace C2Pool.Dash

open List SortedMap

namespace MNState

def operatorPaymentOf (st : MNState) (mnPayment : Int) : Int :=
  if st.nOperatorReward = 0 ∨ 10000 < st.nOperatorReward then 0
  else if st.scriptOperatorPayout = [] then 0
  else if mnPayment ≤ 0 then 0
  else floorSplit mnPayment st.nOperatorReward

def packedPayments (st : MNState) (mnPayment : Int) : List TxOut :=
  let operatorPayment := st.operatorPaymentOf mnPayment
  let ownerPayment := mnPayment - operatorPayment
  (if 0 < ownerPayment then [⟨ownerPayment, st.scriptPayout⟩] else []) ++
    if 0 < operatorPayment then [⟨operatorPayment, st.scriptOperatorPayout⟩] else []

end MNState

/-- A coinbase that pays the split of a known entry, among any other outputs. -/
structure PaysSplit (st : MNState) (mnPayment : Int) (outs : List TxOut) : Prop where
  known : st.payoutSplitProvenance = .known
  operator : st.ExpectOperatorOut
  positive : 0 < mnPayment
  contained : (st.packedPayments mnPayment).Subperm outs

theorem floorSplit_full (total : Int) : floorSplit total 10000 = total := by
  exact Int.mul_tdiv_cancel total (by decide)

/-- The owner keeps a part of every reward that is not all the operator's. -/
theorem floorSplit_lt {total : Int} {bps : U16} (htotal : 0 < total) (hbps : bps.val < 10000) :
    floorSplit total bps < total := by
  unfold floorSplit
  have hprod : total * bps.val < total * 10000 := by
    apply Int.mul_lt_mul_of_pos_left _ htotal
    exact_mod_cast hbps
  have hnonneg : 0 ≤ total * bps.val := Int.mul_nonneg (by omega) (by omega)
  rw [Int.tdiv_eq_ediv_of_nonneg hnonneg]
  omega

namespace PaysSplit

variable {st : MNState} {mnPayment : Int} {outs : List TxOut}

section

variable (h : PaysSplit st mnPayment outs)
include h

theorem operatorPaymentOf :
    st.operatorPaymentOf mnPayment = floorSplit mnPayment st.nOperatorReward := by
  obtain ⟨hpos, hle, hscript⟩ := h.operator
  have hreward : ¬ (st.nOperatorReward = 0 ∨ 10000 < st.nOperatorReward) := by
    rintro (hzero | hlt)
    · rw [hzero] at hpos
      exact lt_irrefl _ hpos
    · exact absurd hle (not_le.mpr hlt)
  unfold MNState.operatorPaymentOf
  rw [if_neg hreward, if_neg hscript, if_neg (by have := h.positive; omega)]

theorem full_mem (hfull : st.nOperatorReward = 10000) :
    ⟨mnPayment, st.scriptOperatorPayout⟩ ∈ outs := by
  have hpay := h.operatorPaymentOf
  rw [hfull, floorSplit_full] at hpay
  apply h.contained.subset
  unfold MNState.packedPayments
  simp [hpay, h.positive]

theorem bps_lt (hpart : st.nOperatorReward ≠ 10000) : st.nOperatorReward.val < 10000 := by
  have hle : st.nOperatorReward.val ≤ (10000 : U16).val := h.operator.2.1
  have hne : st.nOperatorReward.val ≠ (10000 : U16).val := fun heq => hpart (Fin.ext heq)
  have hval : (10000 : U16).val = 10000 := by decide
  omega

theorem owner_mem (hpart : st.nOperatorReward ≠ 10000) :
    ⟨mnPayment - floorSplit mnPayment st.nOperatorReward, st.scriptPayout⟩ ∈ outs := by
  have hlt := floorSplit_lt h.positive (h.bps_lt hpart)
  apply h.contained.subset
  unfold MNState.packedPayments
  rw [h.operatorPaymentOf]
  simp [hlt]

theorem paidInCb : paidInCb outs st.firstPayoutScript = true ↔ st.firstPayoutScript ≠ [] := by
  have hany : outs.any (fun o => o.scriptPubKey = st.firstPayoutScript) = true := by
    rw [any_eq_true]
    unfold MNState.firstPayoutScript
    by_cases hfull : st.nOperatorReward = 10000
    · refine ⟨_, h.full_mem hfull, ?_⟩
      simp [hfull, h.operator.2.2]
    · refine ⟨_, h.owner_mem hfull, ?_⟩
      simp [hfull]
  unfold Dash.paidInCb
  simp [hany]

end

end PaysSplit

/-! ## What the shape scan accepts -/

variable {outs : List TxOut} {superblock : Bool} {s : Applying} {entries : Entries}

/-- Two outputs among others stand at different places. -/
theorem positions_of_subperm_pair {a b : TxOut} (h : [a, b].Subperm outs) :
    ∃ i j, j ≠ i ∧ (a, i) ∈ outs.zipIdx ∧ (b, j) ∈ outs.zipIdx := by
  obtain ⟨l, hperm, hsub⟩ := h
  obtain ⟨f, hf⟩ := sublist_iff_exists_orderEmbedding_getElem?_eq.mp hsub
  have hne : f 0 ≠ f 1 := by simp
  have h0 := hf 0
  have h1 := hf 1
  rcases perm_pair.mp hperm with rfl | rfl
  · refine ⟨f 0, f 1, hne.symm, ?_, ?_⟩
    · exact mem_zipIdx_iff_getElem?.mpr h0.symm
    · exact mem_zipIdx_iff_getElem?.mpr h1.symm
  refine ⟨f 1, f 0, hne, ?_, ?_⟩
  · exact mem_zipIdx_iff_getElem?.mpr h1.symm
  · exact mem_zipIdx_iff_getElem?.mpr h0.symm

variable {st : MNState}

theorem PaysSplit.splitConsistent {mnPayment : Int} (h : PaysSplit st mnPayment outs)
    (hplain : st.nOperatorReward = 10000 ∨
      scanned ⟨0, st.scriptPayout⟩ ∧ 0 < st.operatorPaymentOf mnPayment) :
    st.splitConsistent outs = true := by
  unfold MNState.splitConsistent
  by_cases hfull : st.nOperatorReward = 10000
  · rw [if_pos hfull, any_eq_true]
    exact ⟨_, h.full_mem hfull, by simp [h.positive]⟩
  obtain ⟨hscanned, hshare⟩ := hplain.resolve_left hfull
  have hlt := floorSplit_lt h.positive (h.bps_lt hfull)
  have hcontained := h.contained
  unfold MNState.packedPayments at hcontained
  rw [h.operatorPaymentOf] at hcontained hshare
  simp only [Int.sub_pos, hlt, hshare, if_true, singleton_append] at hcontained
  obtain ⟨i, j, hij, hown, hop⟩ := positions_of_subperm_pair hcontained
  rw [if_neg hfull, Bool.or_eq_true]
  left
  have howner : (⟨mnPayment - floorSplit mnPayment st.nOperatorReward, st.scriptPayout⟩, i) ∈
      st.ownerOuts outs := by
    unfold MNState.ownerOuts
    rw [mem_filter]
    exact ⟨hown, by simpa [scanned] using hscanned⟩
  have hoperator : (⟨floorSplit mnPayment st.nOperatorReward, st.scriptOperatorPayout⟩, j) ∈
      st.operatorOutsBut outs i := by
    unfold MNState.operatorOutsBut
    rw [mem_filter]
    exact ⟨hop, by simp [hij]⟩
  rw [any_eq_true]
  exact ⟨_, howner, any_eq_true.mpr ⟨_, hoperator, by simp⟩⟩

def PaysUnheldOperator (superblock : Bool) (outs : List TxOut) (st : MNState) : Prop :=
  (0 < st.nOperatorReward ∧ ¬ superblock) ∧ ∃ own other, st.ownerOuts outs = [own] ∧
    st.otherOuts outs = [other] ∧
    floorSplit (own.1.value + other.1.value) st.nOperatorReward = other.1.value

def SplitStands (superblock : Bool) (outs : List TxOut) (st : MNState) : Prop :=
  st.scriptPayout = [] ∨ st.payoutSplitProvenance = .unknown ∨
    if st.ExpectOperatorOut then st.splitConsistent outs = true
    else ¬ PaysUnheldOperator superblock outs st

theorem observePayoutSplit_of_unknown (h : st.payoutSplitProvenance = .unknown) :
    (st.observePayoutSplit superblock outs).2.2 = 0 := by
  unfold MNState.observePayoutSplit
  rw [h]
  dsimp only
  split
  · rfl
  split
  · rfl
  split
  · rfl
  · split
    · split
      · rfl
      · rfl
    · rfl
  · rfl

theorem observePayoutSplit_of_no_operator {outs : List TxOut} {st : MNState}
    (hempty : st.scriptPayout ≠ []) (hprov : st.payoutSplitProvenance = .known)
    (hoperator : ¬ st.ExpectOperatorOut) :
    (PaysUnheldOperator superblock outs st → (st.observePayoutSplit superblock outs).2.2 = 1) ∧
      (¬ PaysUnheldOperator superblock outs st →
        st.observePayoutSplit superblock outs = (st, 0, 0)) := by
  unfold MNState.observePayoutSplit
  rw [if_neg hempty, hprov]
  dsimp only
  rw [if_neg hoperator]
  by_cases hguard : 0 < st.nOperatorReward ∧ ¬ superblock
  · rw [if_pos hguard]
    split
    · rename_i own other howner hother
      by_cases hfloor : floorSplit (own.1.value + other.1.value) st.nOperatorReward = other.1.value
      · rw [if_pos hfloor]
        exact ⟨fun _ => rfl, fun h => absurd ⟨hguard, own, other, howner, hother, hfloor⟩ h⟩
      rw [if_neg hfloor]
      refine ⟨?_, fun _ => rfl⟩
      rintro ⟨-, own', other', howner', hother', hfloor'⟩
      rw [howner, List.cons.injEq] at howner'
      rw [hother, List.cons.injEq] at hother'
      rw [← howner'.1, ← hother'.1] at hfloor'
      exact absurd hfloor' hfloor
    rename_i hshape
    refine ⟨?_, fun _ => rfl⟩
    rintro ⟨-, own, other, howner, hother, -⟩
    exact absurd hother (hshape own other howner)
  · rw [if_neg hguard]
    exact ⟨fun h => absurd h.1 hguard, fun _ => rfl⟩

theorem nLastPaidHeight_observePayoutSplit (superblock : Bool) (outs : List TxOut) (st : MNState) :
    (st.observePayoutSplit superblock outs).1.nLastPaidHeight = st.nLastPaidHeight := by
  unfold MNState.observePayoutSplit
  dsimp only
  repeat' split
  all_goals rfl

theorem observePayoutSplit_iff (superblock : Bool) (outs : List TxOut) (st : MNState) :
    ((st.observePayoutSplit superblock outs).2.2 = 0 ↔ SplitStands superblock outs st) ∧
      (SplitStands superblock outs st → st.payoutSplitProvenance = .known →
        (st.observePayoutSplit superblock outs).1.payoutSplitProvenance = .known) := by
  unfold SplitStands
  by_cases hempty : st.scriptPayout = []
  · simp [MNState.observePayoutSplit, hempty]
  cases hprov : st.payoutSplitProvenance with
  | unknown => simp [observePayoutSplit_of_unknown hprov]
  | known =>
    by_cases hoperator : st.ExpectOperatorOut
    · unfold MNState.observePayoutSplit
      rw [if_neg hempty, hprov]
      by_cases hconsistent : st.splitConsistent outs
      · simp [hoperator, hconsistent, hprov]
      · simp [hoperator, hconsistent, hempty]
    obtain ⟨hpaid, hnot⟩ :=
      @observePayoutSplit_of_no_operator superblock outs st hempty hprov hoperator
    by_cases hunheld : PaysUnheldOperator superblock outs st
    · simp [hoperator, hunheld, hempty, hpaid hunheld]
    · simp [hoperator, hunheld, hnot hunheld, hprov]

/-! ## What the block's transactions do to the split -/

section Transactions

variable {P : Type} {code : ProTxCode P} {height : U32} {who : Uint256}

def ApplyResult.verdict (r : ApplyResult) : Nat × Bool × Nat × Nat :=
  (r.paid, r.payeeDesync, r.smlRecovered, r.splitDesync)

theorem verdict_applySpecialTx (s : Applying) (tx : Tx P) :
    (applySpecialTx code height s tx).2.verdict = s.2.verdict := by
  unfold applySpecialTx
  split
  · unfold applyProReg
    split
    · rfl
    · rfl
  · unfold applyProUpServ
    split
    · rfl
    split
    · rfl
    dsimp only
    split
    · rfl
    split
    · rfl
    · rfl
  · unfold applyProUpReg
    split
    · rfl
    split
    · rfl
    · rfl
  · unfold applyProUpRev
    split
    · rfl
    split
    · rfl
    · rfl
  · rfl

theorem verdict_spendCollateral (s : Applying) (prevout : TxPrevOut) :
    (spendCollateral s prevout).2.verdict = s.2.verdict := by
  unfold spendCollateral
  split
  · rfl
  · rfl

/-- Passes 1 and 2 attribute no payment and report no desync. -/
theorem verdict_foldTxs (block : Block P) (s : Applying) :
    (foldTxs code height block s).2.verdict = s.2.verdict := by
  have hspecial : ∀ (txs : List (Tx P)) (s : Applying),
      (specialTxs code height s txs).2.verdict = s.2.verdict := by
    intro txs
    induction txs with
    | nil => intro s; rfl
    | cons tx txs ih =>
      intro s
      exact (ih _).trans (verdict_applySpecialTx s tx)
  have hspends : ∀ (prevouts : List TxPrevOut) (s : Applying),
      (prevouts.foldl spendCollateral s).2.verdict = s.2.verdict := by
    intro prevouts
    induction prevouts with
    | nil => intro s; rfl
    | cons prevout prevouts ih =>
      intro s
      exact (ih _).trans (verdict_spendCollateral s prevout)
  unfold foldTxs collateralSpends
  rw [hspends, hspecial]

def KnownAt (who : Uint256) (entries : Entries) : Prop :=
  ∀ st, entries.lookup who = some st → st.payoutSplitProvenance = .known

theorem KnownAt.insert (h : KnownAt who entries) {k : Uint256}
    (hst : k = who → st.payoutSplitProvenance = .known) : KnownAt who (entries.insert k st) := by
  intro st' hst'
  rw [lookup_insert] at hst'
  split at hst'
  · rename_i heq
    rw [← Option.some.inj hst']
    exact hst heq.symm
  · exact h st' hst'

theorem KnownAt.erase (h : KnownAt who entries) (k : Uint256) : KnownAt who (entries.erase k) := by
  intro st' hst'
  rw [lookup_erase] at hst'
  split at hst'
  · simp at hst'
  · exact h st' hst'

theorem KnownAt.applySpecialTx (h : KnownAt who s.1.entries) {tx : Tx P}
    (htype : tx.type.val ≠ 2) : KnownAt who (applySpecialTx code height s tx).1.entries := by
  unfold Dash.applySpecialTx
  split
  · unfold applyProReg
    split
    · exact h
    have hdrop : ∀ outpoint, KnownAt who (dropHolder s.1 outpoint) := by
      intro outpoint
      unfold dropHolder
      split
      · exact h.erase _
      · exact h
    dsimp only
    unfold emplace
    split
    · exact hdrop _
    · exact (hdrop _).insert fun _ => rfl
  · contradiction
  · unfold applyProUpReg
    split
    · exact h
    split
    · exact h
    rename_i ptx hparse st hst
    refine h.insert fun heq => ?_
    rw [heq] at hst
    unfold MNState.updateRegistrar
    dsimp only
    split
    · exact h st hst
    · exact h st hst
  · unfold applyProUpRev
    split
    · exact h
    split
    · exact h
    rename_i ptx hparse st hst
    refine h.insert fun heq => ?_
    rw [heq] at hst
    exact h st hst
  · exact h

def DemotedByService (code : ProTxCode P) (height : U32) (who : Uint256) (s : Applying)
    (txs : List (Tx P)) : Prop :=
  ∃ before tx after, txs = before ++ tx :: after ∧ tx.type.val = 2 ∧
    KnownAt who (specialTxs code height s before).1.entries ∧
    ¬ KnownAt who (specialTxs code height s (before ++ [tx])).1.entries

theorem knownAt_specialTxs (txs : List (Tx P)) (h : KnownAt who s.1.entries) :
    KnownAt who (specialTxs code height s txs).1.entries ∨
      DemotedByService code height who s txs := by
  induction txs generalizing s with
  | nil => exact Or.inl h
  | cons tx txs ih =>
    by_cases hkept : KnownAt who (applySpecialTx code height s tx).1.entries
    · rcases ih hkept with hknown | ⟨before, tx', after, rfl, htype, hbefore, hafter⟩
      · exact Or.inl hknown
      · exact Or.inr ⟨tx :: before, tx', after, rfl, htype, hbefore, hafter⟩
    right
    have htype : tx.type.val = 2 := by
      by_contra htype
      exact hkept (h.applySpecialTx htype)
    exact ⟨[], tx, txs, rfl, htype, h, hkept⟩

theorem knownAt_foldTxs (block : Block P) (h : KnownAt who s.1.entries) :
    KnownAt who (foldTxs code height block s).1.entries ∨
      DemotedByService code height who s block.txs.tail := by
  have hspends : ∀ (prevouts : List TxPrevOut) (s : Applying), KnownAt who s.1.entries →
      KnownAt who (prevouts.foldl spendCollateral s).1.entries := by
    intro prevouts
    induction prevouts with
    | nil => intro s hs; exact hs
    | cons prevout prevouts ih =>
      intro s hs
      apply ih
      unfold spendCollateral
      split
      · exact hs
      · exact hs.erase _
  rcases knownAt_specialTxs block.txs.tail h with hknown | hdemoted
  · exact Or.inl (hspends _ _ hknown)
  · exact Or.inr hdemoted

end Transactions

/-! ## The honest block -/

section Honest

variable {P : Type} {code : ProTxCode P} {m : MnStateMachine} {block : Block P} {height : U32}
  {projected : Uint256}

def beforePasses (m : MnStateMachine) : Applying :=
  ({ m with pending := {} }, { projectedPayee := (queueBefore m).head? })

/-- The block is taken without a desync.  The payee, if the block leaves it on the list, is marked
by the block itself and keeps its split unless a service update of the block demotes it. -/
structure Synchronised (code : ProTxCode P) (m : MnStateMachine) (block : Block P) (height : U32)
    (projected : Uint256) : Prop where
  payee : (applyBlock code m block height).2.payeeDesync = false
  split : (applyBlock code m block height).2.splitDesync = 0
  paid : ∀ st, (applyBlock code m block height).1.entries.lookup projected = some st →
    (applyBlock code m block height).2.paid = 1 ∧
      (applyBlock code m block height).2.smlRecovered = 0 ∧ st.nLastPaidHeight = height
  known : ∀ st, (applyBlock code m block height).1.entries.lookup projected = some st →
    st.payoutSplitProvenance = .known ∨
      DemotedByService code height projected (beforePasses m) block.txs.tail

def MnStateMachine.ambiguousHeight (m : MnStateMachine) (height : U32) : Bool :=
  match m.isSuperblockHeight with
  | some f => f height
  | none => false

theorem verdict_folded : (folded code m block height).2.verdict = (0, false, 0, 0) :=
  verdict_foldTxs block (beforePasses m)

theorem not_synchronised_of_refused (hst : m.entries.lookup projected ≠ none)
    (h : ¬ Applies code m block height) : ¬ Synchronised code m block height projected := by
  obtain ⟨st, hst⟩ := Option.ne_none_iff_exists'.mp hst
  intro hsync
  rw [← applyBlock_of_not_applies h] at hst
  have hpaid := (hsync.paid st hst).1
  have hnone : (applyBlock code m block height).2.paid = 0 := by
    unfold applyBlock
    split
    · rfl
    split
    · rfl
    split
    · rfl
    · rename_i hskip hgap _ hrefusal
      exact absurd ⟨hskip, hgap, hrefusal⟩ h
  omega

theorem synchronised_of_gone (happlies : Applies code m block height)
    (hhead : (queueBefore m).head? = some projected)
    (hgone : (folded code m block height).1.entries.lookup projected = none) :
    Synchronised code m block height projected := by
  have hnothing : payeeDecision code m block height = .nothing := by
    by_contra hdecision
    obtain ⟨projected', hp⟩ := projects_of_payeeDecision hdecision
    have hsame : projected' = projected := by
      apply Option.some.inj
      rw [← hp.head, hhead]
    rw [hsame] at hp
    exact hp.survives hgone
  obtain ⟨hm, hr⟩ := applyBlock_of_nothing happlies hnothing
  have hverdict := @verdict_folded P code m block height
  unfold ApplyResult.verdict at hverdict
  simp only [Prod.mk.injEq] at hverdict
  obtain ⟨-, hdesync, -, hsplit⟩ := hverdict
  have hnone : (applyBlock code m block height).1.entries.lookup projected = none := by
    rw [hm]
    exact hgone
  refine ⟨?_, ?_, ?_, ?_⟩
  · rw [hr]
    exact hdesync
  · rw [hr]
    exact hsplit
  · intro st hst
    rw [hnone] at hst
    cases hst
  · intro st hst
    rw [hnone] at hst
    cases hst

theorem isSome_lookup_changeEntry (entries : Entries) (k h : Uint256) (f : MNState → MNState) :
    ((changeEntry entries k f).lookup h).isSome = (entries.lookup h).isSome := by
  unfold changeEntry
  split
  · rename_i st hst
    rw [lookup_insert]
    split
    · rename_i heq
      rw [heq, hst]
      rfl
    · rfl
  · rfl

theorem isSome_lookup_commitWalkOutcome (entries : Entries) (demoted : List Uint256)
    (accepted h : Uint256) :
    ((commitWalkOutcome entries height demoted accepted).lookup h).isSome =
      (entries.lookup h).isSome := by
  unfold commitWalkOutcome
  rw [isSome_lookup_changeEntry]
  induction demoted generalizing entries with
  | nil => rfl
  | cons d demoted ih =>
    rw [foldl_cons, ih, isSome_lookup_changeEntry]

theorem walkFrom_demoted_ne_nil {attest : Uint256 → Option Bool}
    {paid : Script → Bool} {queue demoted : List Uint256} {who : Uint256}
    (h : (walkFrom entries attest paid demoted queue).accepted = some who) :
    (walkFrom entries attest paid demoted queue).demoted ≠ [] := by
  induction queue generalizing demoted with
  | nil => simp [walkFrom] at h
  | cons candidate queue ih =>
    cases queue with
    | nil => simp [walkFrom] at h
    | cons next rest =>
      unfold walkFrom at h ⊢
      split at h
      · simp at h
      · simp at h
      · split at h
        · simp at h
        split at h
        · rename_i hpaid
          simp [hpaid]
        rename_i hpaid
        simp only [hpaid, if_false, Bool.false_eq_true]
        exact ih h

theorem resolvePayee_of_paid {ranked : List Uint256} {scriptPre : Script}
    (hpaid : paidInCb outs scriptPre = true) {seen : MNState × Nat × Nat}
    (hseen : (st.markPaid height).observePayoutSplit (s.1.ambiguousHeight height) outs = seen) :
    resolvePayee ranked height outs projected scriptPre st s =
      ({ s.1 with entries := s.1.entries.insert projected seen.1 },
        { s.2 with
          paid := s.2.paid + 1
          splitAdopted := s.2.splitAdopted + seen.2.1
          splitDesync := s.2.splitDesync + seen.2.2 }) := by
  unfold resolvePayee
  rw [if_pos hpaid, ← hseen]
  rfl

theorem synchronised_iff_of_paid (hp : Projects code m block height projected)
    (hafter : (folded code m block height).1.entries.lookup projected = some st)
    (hknown : KnownAt projected m.entries)
    (hpaid : paidInCb block.coinbaseOuts (scriptBefore m projected) = true) :
    Synchronised code m block height projected ↔
      SplitStands (m.ambiguousHeight height) block.coinbaseOuts st := by
  obtain ⟨st', s, hst', hs, hm, hr⟩ := applyBlock_of_projects hp
  obtain rfl : st = st' := by
    rw [hafter] at hst'
    exact Option.some.inj hst'
  obtain ⟨-, -, -, hhook, -, -⟩ := @folded_frame P code m block height
  have hverdict := @verdict_folded P code m block height
  unfold ApplyResult.verdict at hverdict
  simp only [Prod.mk.injEq] at hverdict
  obtain ⟨hpaid0, hdesync0, hrecovered0, hsplit0⟩ := hverdict
  obtain ⟨hcount, hkeeps⟩ := observePayoutSplit_iff (m.ambiguousHeight height)
    block.coinbaseOuts (st.markPaid height)
  generalize hseen : (st.markPaid height).observePayoutSplit (m.ambiguousHeight height)
    block.coinbaseOuts = seen at hcount hkeeps
  have hambiguous : (folded code m block height).1.ambiguousHeight height =
      m.ambiguousHeight height := by
    unfold MnStateMachine.ambiguousHeight
    rw [hhook]
  rw [resolvePayee_of_paid hpaid (hambiguous ▸ hseen)] at hs
  have hentry : (applyBlock code m block height).1.entries.lookup projected = some seen.1 := by
    rw [hm, hs, lookup_insert, if_pos rfl]
  -- marking the payee leaves its split as it is
  have hstands : SplitStands (m.ambiguousHeight height) block.coinbaseOuts (st.markPaid height) ↔
      SplitStands (m.ambiguousHeight height) block.coinbaseOuts st := Iff.rfl
  have hcount' : (applyBlock code m block height).2.splitDesync = seen.2.2 := by
    rw [hr, hs]
    simp [hsplit0]
  constructor
  · intro hsync
    apply hcount.mp
    rw [← hcount']
    exact hsync.split
  intro hst
  refine ⟨?_, ?_, ?_, ?_⟩
  · rw [hr, hs]
    exact hdesync0
  · rw [hcount']
    exact hcount.mpr hst
  · intro st' hlookup
    rw [hentry] at hlookup
    rw [← Option.some.inj hlookup]
    refine ⟨?_, ?_, ?_⟩
    · rw [hr, hs]
      simp [hpaid0]
    · rw [hr, hs]
      exact hrecovered0
    · rw [← hseen, nLastPaidHeight_observePayoutSplit]
      rfl
  · intro st' hlookup
    rw [hentry] at hlookup
    rw [← Option.some.inj hlookup]
    rcases knownAt_foldTxs block (show KnownAt projected (beforePasses m).1.entries from hknown)
      with hfolded | hdemoted
    · exact Or.inl (hkeeps hst (hfolded st hafter))
    · exact Or.inr hdemoted

theorem not_synchronised_of_unpaid (hp : Projects code m block height projected)
    (hunpaid : ¬ paidInCb block.coinbaseOuts (scriptBefore m projected)) :
    ¬ Synchronised code m block height projected := by
  intro hsync
  obtain ⟨st, s, hst, hs, hm, hr⟩ := applyBlock_of_projects hp
  unfold resolvePayee at hs
  rw [recoverFromSmlBan_folded] at hs
  simp only [hunpaid, if_false, Bool.false_eq_true] at hs
  have hpayee := hsync.payee
  by_cases hhook : m.smlValidity.isNone
  · simp only [hhook, if_true] at hs
    rw [hr, hs] at hpayee
    simp at hpayee
  cases haccepted : (walkOf code m block height).accepted with
  | none =>
    simp only [hhook, haccepted, if_false, Bool.false_eq_true] at hs
    rw [hr, hs] at hpayee
    simp at hpayee
  | some who =>
    simp only [hhook, haccepted, if_false, Bool.false_eq_true] at hs
    split at hs
    · rename_i s' hs'
      split at hs'
      · simp at hs'
      rw [← Option.some.inj hs'] at hs
      have hsome : ((applyBlock code m block height).1.entries.lookup projected).isSome := by
        rw [hm, hs, isSome_lookup_commitWalkOutcome, hst]
        rfl
      obtain ⟨st', hst'⟩ := Option.isSome_iff_exists.mp hsome
      have hrecovered := (hsync.paid st' hst').2.1
      rw [hr, hs] at hrecovered
      unfold walkOf walkToPaidCandidate at haccepted hrecovered
      split at haccepted
      · simp at haccepted
      rename_i hlong
      rw [if_neg hlong] at hrecovered
      exact walkFrom_demoted_ne_nil haccepted (eq_nil_of_length_eq_zero hrecovered)
    · rw [hr, hs] at hpayee
      simp at hpayee

def MNState.SameSplit (st st' : MNState) : Prop :=
  st'.scriptPayout = st.scriptPayout ∧ st'.scriptOperatorPayout = st.scriptOperatorPayout ∧
    st'.nOperatorReward = st.nOperatorReward

theorem PaysSplit.splitStands {mnPayment : Int} {st st' : MNState} (h : PaysSplit st mnPayment outs)
    (hsame : st.SameSplit st') (hplain : st.nOperatorReward = 10000 ∨
      scanned ⟨0, st.scriptPayout⟩ ∧ 0 < st.operatorPaymentOf mnPayment) (superblock : Bool) :
    SplitStands superblock outs st' := by
  obtain ⟨howner, hoperator, hreward⟩ := hsame
  have hexpect : st'.ExpectOperatorOut := by
    unfold MNState.ExpectOperatorOut
    rw [hoperator, hreward]
    exact h.operator
  have hconsistent : st'.splitConsistent outs = st.splitConsistent outs := by
    unfold MNState.splitConsistent MNState.ownerOuts MNState.operatorOutsBut
    rw [howner, hoperator, hreward]
  right
  right
  rw [if_pos hexpect, hconsistent]
  exact h.splitConsistent hplain

theorem PaysSplit.firstPayoutScript_ne_nil {mnPayment : Int} (h : PaysSplit st mnPayment outs)
    (hplain : st.nOperatorReward = 10000 ∨
      scanned ⟨0, st.scriptPayout⟩ ∧ 0 < st.operatorPaymentOf mnPayment) :
    st.firstPayoutScript ≠ [] := by
  unfold MNState.firstPayoutScript
  split
  · exact h.operator.2.2
  rename_i hnot
  rcases hplain with hfull | ⟨hscanned, -⟩
  · exact absurd ⟨hfull, h.operator.2.2⟩ hnot
  unfold scanned at hscanned
  simp only [ne_eq, Bool.decide_and, Bool.and_eq_true, decide_eq_true_eq] at hscanned
  exact hscanned.1

theorem applies_iff_of_next
    (hnext : m.lastAppliedHeight = 0 ∨ m.lastAppliedHeight.val + 1 = height.val) :
    Applies code m block height ↔ consensusRefusal code m block height = none := by
  constructor
  · exact fun h => h.2.2
  intro h
  refine ⟨?_, ?_, h⟩
  · rintro ⟨hne, hle⟩
    have hval : height.val ≤ m.lastAppliedHeight.val := hle
    have := hnext.resolve_left hne
    omega
  rintro ⟨hne, hlt⟩
  have hval := Fin.lt_def.mp hlt
  have hone : (1 : U32).val = 1 := rfl
  have := hnext.resolve_left hne
  omega

theorem PaysSplit.txs_ne_nil {mnPayment : Int} (h : PaysSplit st mnPayment block.coinbaseOuts) :
    block.txs ≠ [] := by
  intro hnil
  have houts : block.coinbaseOuts = [] := by
    unfold Block.coinbaseOuts
    rw [hnil]
  by_cases hfull : st.nOperatorReward = 10000
  · have hmem := h.full_mem hfull
    simp [houts] at hmem
  · have hmem := h.owner_mem hfull
    simp [houts] at hmem

theorem synchronised_iff {st : MNState} {mnPayment : Int}
    (hnext : m.lastAppliedHeight = 0 ∨ m.lastAppliedHeight.val + 1 = height.val)
    (hhead : (queueBefore m).head? = some projected) (hst : m.entries.lookup projected = some st)
    (hpays : PaysSplit st mnPayment block.coinbaseOuts) :
    Synchronised code m block height projected ↔
      consensusRefusal code m block height = none ∧
        ∀ st', (folded code m block height).1.entries.lookup projected = some st' →
          st.firstPayoutScript ≠ [] ∧
            SplitStands (m.ambiguousHeight height) block.coinbaseOuts st' := by
  have hknown : KnownAt projected m.entries := by
    intro st' hst'
    rw [hst] at hst'
    rw [← Option.some.inj hst']
    exact hpays.known
  have hscript : scriptBefore m projected = st.firstPayoutScript := by
    unfold scriptBefore
    rw [hst]
    rfl
  rw [← applies_iff_of_next hnext]
  by_cases happly : Applies code m block height
  · cases hafter : (folded code m block height).1.entries.lookup projected with
    | none =>
      have hsync := synchronised_of_gone happly hhead hafter
      simp [happly, hsync]
    | some st' =>
      have hp : Projects code m block height projected :=
        ⟨happly, hhead, hpays.txs_ne_nil, by simp [hafter]⟩
      by_cases hempty : st.firstPayoutScript = []
      · have hunpaid : ¬ paidInCb block.coinbaseOuts (scriptBefore m projected) := by
          rw [hscript, hpays.paidInCb]
          simpa using hempty
        simp [not_synchronised_of_unpaid hp hunpaid, hempty]
      have hpaid : paidInCb block.coinbaseOuts (scriptBefore m projected) = true := by
        rw [hscript, hpays.paidInCb]
        exact hempty
      rw [synchronised_iff_of_paid hp hafter hknown hpaid]
      simp [happly, hempty]
  have hsync : ¬ Synchronised code m block height projected :=
    not_synchronised_of_refused (by simp [hst]) happly
  exact ⟨fun h => absurd h hsync, fun h => absurd h.1 happly⟩

/-- A coinbase that pays the split of the entry before the block keeps the projection synchronised
exactly when the block is accepted, the script of pass 0 is not empty, and the coinbase also pays
the split of the entry that the block's transactions have left.  It does so when they leave the
split as it was, the owner's script is one that the scan reads, and the operator's share is not
rounded to nothing. -/
theorem honest_block_synchronised_iff (code : ProTxCode P) (m : MnStateMachine) (block : Block P)
    (height : U32) (projected : Uint256) (st : MNState) (mnPayment : Int)
    (hnext : m.lastAppliedHeight = 0 ∨ m.lastAppliedHeight.val + 1 = height.val)
    (hhead : (queueBefore m).head? = some projected) (hst : m.entries.lookup projected = some st)
    (hpays : PaysSplit st mnPayment block.coinbaseOuts) :
    (Synchronised code m block height projected ↔
        consensusRefusal code m block height = none ∧
          ∀ st', (folded code m block height).1.entries.lookup projected = some st' →
            st.firstPayoutScript ≠ [] ∧
              SplitStands (m.ambiguousHeight height) block.coinbaseOuts st') ∧
      (consensusRefusal code m block height = none →
        (∀ st', (folded code m block height).1.entries.lookup projected = some st' →
          st.SameSplit st') →
        (st.nOperatorReward = 10000 ∨
          scanned ⟨0, st.scriptPayout⟩ ∧ 0 < st.operatorPaymentOf mnPayment) →
        Synchronised code m block height projected) := by
  have hiff := @synchronised_iff P code m block height projected st mnPayment hnext hhead hst hpays
  refine ⟨hiff, ?_⟩
  intro haccepted hkept hplain
  apply hiff.mpr
  refine ⟨haccepted, ?_⟩
  intro st' hst'
  exact ⟨hpays.firstPayoutScript_ne_nil hplain, hpays.splitStands (hkept st' hst') hplain _⟩

end Honest

def registrarCode : ProTxCode (Option ProUpRegTx) := { plainCode with parseProUpReg := id }

def tenthToOperator : MNState where
  nOperatorReward := 1000
  scriptPayout := [1]
  scriptOperatorPayout := [2]
  payoutSplitProvenance := .known

def splitPayee : MnStateMachine where
  entries := SortedMap.empty.insert 1 tenthToOperator
  lastAppliedHeight := 10

def splitPaid (txs : List (Tx (Option ProUpRegTx))) : Block (Option ProUpRegTx) where
  txs :=
    { vout := [{ value := 90, scriptPubKey := [1] }, { value := 10, scriptPubKey := [2] }]
      extraPayload := none } :: txs

def newPayoutScript : Tx (Option ProUpRegTx) where
  version := 3
  type := 3
  extraPayload := some { proTxHash := 1, scriptPayout := [3] }

theorem paysSplit_splitPaid (txs : List (Tx (Option ProUpRegTx))) :
    PaysSplit tenthToOperator 100 (splitPaid txs).coinbaseOuts where
  known := rfl
  operator := by decide
  positive := by decide
  contained := by
    have hcoinbase : (splitPaid txs).coinbaseOuts =
        [{ value := 90, scriptPubKey := [1] }, { value := 10, scriptPubKey := [2] }] := rfl
    rw [hcoinbase]
    exact List.Sublist.subperm (by decide)

theorem honest_block_synchronised_plain :
    Synchronised registrarCode splitPayee (splitPaid []) 11 1 :=
  (honest_block_synchronised_iff registrarCode splitPayee (splitPaid []) 11 1 tenthToOperator 100
    (by decide) (by decide +kernel) (by decide +kernel) (paysSplit_splitPaid [])).2
    (by decide +kernel)
    (by
      intro st' hst'
      have heq : st' = tenthToOperator := by
        apply Option.some.inj
        rw [← hst']
        decide +kernel
      rw [heq]
      exact ⟨rfl, rfl, rfl⟩)
    (Or.inr (by decide))

/-- An honest coinbase beside a registrar update of the payee is reported as a split desync. -/
theorem honest_block_split_desync :
    (queueBefore splitPayee).head? = some 1 ∧
      PaysSplit tenthToOperator 100 (splitPaid [newPayoutScript]).coinbaseOuts ∧
      consensusRefusal registrarCode splitPayee (splitPaid [newPayoutScript]) 11 = none ∧
      (applyBlock registrarCode splitPayee (splitPaid [newPayoutScript]) 11).2.splitDesync = 1 ∧
      ¬ Synchronised registrarCode splitPayee (splitPaid [newPayoutScript]) 11 1 := by
  have hdesync : (applyBlock registrarCode splitPayee
      (splitPaid [newPayoutScript]) 11).2.splitDesync = 1 := by decide +kernel
  refine ⟨by decide +kernel, paysSplit_splitPaid _, by decide +kernel, hdesync, ?_⟩
  intro hsync
  have hsplit := hsync.split
  exact absurd hsplit (by decide)

end C2Pool.Dash
