import C2Pool.Dash.ListAgreement

/-! # The payment queue and the decision of a block

The queue is sorted by one total order, so taking masternodes out of the list
takes them out of the queue and leaves the rest in place.  `payeeDecision` says
whom pass 3 of `apply_block` marks paid, and the lemmas about it say what
`apply_block` then does.
-/

namespace C2Pool.Dash

open List SortedMap

def payeeKey (c : Int × Uint256) : Int ×ₗ List Byte := toLex (c.1, wireBytes c.2)

theorem payeeKey_injective : Function.Injective payeeKey := by
  rintro ⟨s, h⟩ ⟨s', h'⟩ heq
  simp only [payeeKey, EmbeddingLike.apply_eq_iff_eq, Prod.mk.injEq] at heq
  rw [heq.1, wireBytes_injective heq.2]

theorem payeeOrderBefore_iff (a b : Int × Uint256) :
    payeeOrderBefore a.1 a.2 b.1 b.2 = true ↔ payeeKey a < payeeKey b := by
  unfold payeeOrderBefore payeeKey
  rw [Prod.Lex.toLex_lt_toLex]
  by_cases heq : a.1 = b.1
  · simp [heq]
  · simp [heq]

/-- The relation that the sort uses. -/
def ByLastPaid (a b : Int × Uint256) : Prop := ¬ payeeOrderBefore b.1 b.2 a.1 a.2

instance : DecidableRel ByLastPaid := fun a b =>
  inferInstanceAs (Decidable (¬ payeeOrderBefore b.1 b.2 a.1 a.2))

theorem byLastPaid_iff (a b : Int × Uint256) : ByLastPaid a b ↔ payeeKey a ≤ payeeKey b := by
  unfold ByLastPaid
  rw [payeeOrderBefore_iff, not_lt]

instance : Std.Total ByLastPaid where
  total a b := by
    rw [byLastPaid_iff, byLastPaid_iff]
    exact le_total _ _

instance : IsTrans (Int × Uint256) ByLastPaid where
  trans a b c := by
    rw [byLastPaid_iff, byLastPaid_iff, byLastPaid_iff]
    exact le_trans

def sortedCandidates (l : List (Int × Uint256)) : List (Int × Uint256) :=
  l.insertionSort ByLastPaid

theorem payeeQueue_eq (entries : Entries) :
    payeeQueue entries = (sortedCandidates (payeeCandidates entries)).map Prod.snd := rfl

theorem sortedCandidates_filter (p : Int × Uint256 → Bool) (l : List (Int × Uint256)) :
    sortedCandidates (l.filter p) = (sortedCandidates l).filter p := by
  have hperm : (sortedCandidates (l.filter p)).Perm ((sortedCandidates l).filter p) :=
    (perm_insertionSort ByLastPaid (l.filter p)).trans
      ((perm_insertionSort ByLastPaid l).symm.filter p)
  have hfew : (sortedCandidates (l.filter p)).Pairwise ByLastPaid :=
    pairwise_insertionSort ByLastPaid (l.filter p)
  have hall : ((sortedCandidates l).filter p).Pairwise ByLastPaid :=
    (pairwise_insertionSort ByLastPaid l).filter p
  refine hperm.eq_of_pairwise (fun a b _ _ hab hba => ?_) hfew hall
  rw [byLastPaid_iff] at hab hba
  exact payeeKey_injective (le_antisymm hab hba)

/-- An entry banned at `ban`. -/
def MNState.bannedAt (ban : U32) (st : MNState) : MNState :=
  { st with isValid := false, nPoSeBanHeight := ban }

theorem MNState.not_eligible_bannedAt (ban : U32) (st : MNState) :
    ¬ (st.bannedAt ban).Eligible := by
  simp [MNState.Eligible, MNState.bannedAt]

/-- Every masternode that is attested invalid banned at `ban`. -/
def banAttested (attest : Uint256 → Option Bool) (ban : U32) (m : MnStateMachine) :
    MnStateMachine :=
  { m with
    entries := m.entries.mapValues fun h st =>
      if attest h = some false then st.bannedAt ban else st }

section Banned

variable {attest : Uint256 → Option Bool} {ban : U32} {m : MnStateMachine}

theorem sameList_banAttested : SameList m (banAttested attest ban m) := by
  refine ⟨fun k => ?_, rfl, rfl⟩
  unfold banAttested
  rw [lookup_mapValues, Option.map_map]
  congr 1
  split <;> rfl

theorem lookup_banAttested {h : Uint256} (hattest : attest h ≠ some false) :
    (banAttested attest ban m).entries.lookup h = m.entries.lookup h := by
  unfold banAttested
  rw [lookup_mapValues]
  simp [hattest]

theorem payeeCandidates_banAttested :
    payeeCandidates (banAttested attest ban m).entries =
      (payeeCandidates m.entries).filter fun c => attest c.2 ≠ some false := by
  unfold payeeCandidates banAttested
  rw [entries_mapValues]
  induction m.entries.entries with
  | nil => rfl
  | cons e rest ih =>
    by_cases hattest : attest e.1 = some false
    · by_cases helig : e.2.Eligible
      · simpa [hattest, helig, MNState.not_eligible_bannedAt] using ih
      · simpa [hattest, helig, MNState.not_eligible_bannedAt] using ih
    by_cases helig : e.2.Eligible
    · simpa [hattest, helig] using ih
    · simpa [hattest, helig] using ih

theorem payeeQueue_banAttested :
    payeeQueue (banAttested attest ban m).entries =
      (payeeQueue m.entries).filter fun h => attest h ≠ some false := by
  rw [payeeQueue_eq, payeeQueue_eq, payeeCandidates_banAttested, sortedCandidates_filter,
    filter_map]
  rfl

end Banned

/-! ## Pass 3 -/

section Decision

variable {P : Type} (code : ProTxCode P) (m : MnStateMachine) (block : Block P) (height : U32)
  {projected : Uint256}

/-- The guards of `apply_block` let the block through. -/
def Applies : Prop :=
  ¬ (m.lastAppliedHeight ≠ 0 ∧ height ≤ m.lastAppliedHeight) ∧
    ¬ (m.lastAppliedHeight ≠ 0 ∧ m.lastAppliedHeight + 1 < height) ∧
    consensusRefusal code m block height = none

instance : Decidable (Applies code m block height) :=
  inferInstanceAs (Decidable (_ ∧ _ ∧ _))

def queueBefore : List Uint256 := rankPayeeCandidates m.entries kPayeeCandidates

/-- The state that passes 1 and 2 leave. -/
def folded : Applying :=
  foldTxs code height block
    ({ m with pending := {} }, { projectedPayee := (queueBefore m).head? })

def scriptBefore (h : Uint256) : Script :=
  ((m.entries.lookup h).map MNState.firstPayoutScript).getD []

inductive PayeeDecision where
  | nothing
  | paid (who : Uint256)
  | walked (demoted : List Uint256) (who : Uint256)
  | desync (who : Uint256)
deriving DecidableEq

/-- Whom pass 3 marks paid. -/
def payeeDecision : PayeeDecision :=
  if Applies code m block height then
    match (queueBefore m).head?, block.txs with
    | some projected, _ :: _ =>
      match (folded code m block height).1.entries.lookup projected with
      | none => .nothing
      | some _ =>
        if paidInCb block.coinbaseOuts (scriptBefore m projected) then .paid projected
        else if m.smlValidity.isNone then .desync projected
        else
          let w := walkToPaidCandidate (folded code m block height).1.entries (queueBefore m)
            (fun h => m.smlAttest h height) (paidInCb block.coinbaseOuts)
          match w.accepted with
          | none => .desync projected
          | some who =>
            if m.smlRecoveryCap < m.smlRecoveredTotal + w.demoted.length then
              .desync projected
            else .walked w.demoted who
    | _, _ => .nothing
  else .nothing

variable {code height}

theorem applyProUpServ_cases (s : Applying) (tx : Tx P) :
    (applyProUpServ code height s tx).1 = s.1 ∨
      ∃ ptx st, code.parseProUpServ tx.extraPayload = some ptx ∧
        s.1.entries.lookup ptx.proTxHash = some st ∧
        (st.nPoSeBanHeight ≠ 0 ∧ (applyProUpServ code height s tx).1 =
            { s.1 with
              entries := s.1.entries.insert ptx.proTxHash ((st.updateService ptx).revive height) } ∨
          st.nPoSeBanHeight = 0 ∧ s.1.BanStateMeasuredFor height ∧
            (applyProUpServ code height s tx).1 =
              { s.1 with entries := s.1.entries.insert ptx.proTxHash (st.updateService ptx) } ∨
          st.nPoSeBanHeight = 0 ∧ ¬ s.1.BanStateMeasuredFor height ∧
            (applyProUpServ code height s tx).1 =
              { s.1 with
                entries := s.1.entries.insert ptx.proTxHash (st.updateService ptx)
                unmeasuredReviveAt := s.1.unmeasuredReviveAt.insert ptx.proTxHash height }) := by
  unfold applyProUpServ
  cases hparse : code.parseProUpServ tx.extraPayload with
  | none => exact .inl rfl
  | some ptx =>
    cases hlookup : s.1.entries.lookup ptx.proTxHash with
    | none =>
      left
      simp only [hlookup]
    | some st =>
      right
      refine ⟨ptx, st, rfl, hlookup, ?_⟩
      have hban : (st.updateService ptx).nPoSeBanHeight = st.nPoSeBanHeight := rfl
      simp only [hlookup, hban]
      by_cases hzero : st.nPoSeBanHeight = 0
      · by_cases hmeasured : s.1.BanStateMeasuredFor height
        · exact .inr (.inl ⟨hzero, hmeasured, by simp [hzero, hmeasured]⟩)
        · exact .inr (.inr ⟨hzero, hmeasured, by simp [hzero, hmeasured]⟩)
      · exact .inl ⟨hzero, by simp [hzero]⟩

theorem applySpecialTx_frame (s : Applying) (tx : Tx P) :
    ∃ e c u, (applySpecialTx code height s tx).1 =
      { s.1 with entries := e, collateralIndex := c, unmeasuredReviveAt := u } := by
  unfold applySpecialTx
  split
  · unfold applyProReg
    split <;> exact ⟨_, _, _, rfl⟩
  · rcases applyProUpServ_cases s tx with h | ⟨ptx, st, -, -, ⟨-, h⟩ | ⟨-, -, h⟩ | ⟨-, -, h⟩⟩
    all_goals
      rw [h]
      exact ⟨_, _, _, rfl⟩
  · unfold applyProUpReg
    split
    · exact ⟨_, _, _, rfl⟩
    · split <;> exact ⟨_, _, _, rfl⟩
  · unfold applyProUpRev
    split
    · exact ⟨_, _, _, rfl⟩
    · split <;> exact ⟨_, _, _, rfl⟩
  · exact ⟨_, _, _, rfl⟩

theorem foldTxs_frame (block : Block P) (s : Applying) :
    ∃ e c u, (foldTxs code height block s).1 =
      { s.1 with entries := e, collateralIndex := c, unmeasuredReviveAt := u } := by
  have hspecial : ∀ (txs : List (Tx P)) (s : Applying), ∃ e c u,
      (specialTxs code height s txs).1 =
        { s.1 with entries := e, collateralIndex := c, unmeasuredReviveAt := u } := by
    intro txs
    induction txs with
    | nil => exact fun s => ⟨_, _, _, rfl⟩
    | cons tx txs ih =>
      intro s
      obtain ⟨e, c, u, hs⟩ := applySpecialTx_frame s tx
      obtain ⟨e', c', u', hs'⟩ := ih (applySpecialTx code height s tx)
      refine ⟨e', c', u', ?_⟩
      unfold specialTxs at hs' ⊢
      rw [foldl_cons, hs', hs]
  have hspends : ∀ (prevouts : List TxPrevOut) (s : Applying), ∃ e c,
      (prevouts.foldl spendCollateral s).1 = { s.1 with entries := e, collateralIndex := c } := by
    intro prevouts
    induction prevouts with
    | nil => exact fun s => ⟨_, _, rfl⟩
    | cons prevout prevouts ih =>
      intro s
      have hstep : ∃ e c, (spendCollateral s prevout).1 =
          { s.1 with entries := e, collateralIndex := c } := by
        unfold spendCollateral
        split <;> exact ⟨_, _, rfl⟩
      obtain ⟨e, c, hs⟩ := hstep
      obtain ⟨e', c', hs'⟩ := ih (spendCollateral s prevout)
      refine ⟨e', c', ?_⟩
      rw [foldl_cons, hs', hs]
  obtain ⟨e, c, u, hs⟩ := hspecial block.txs.tail s
  obtain ⟨e', c', hs'⟩ := hspends (block.txs.tail.flatMap fun tx => tx.vin.map TxIn.prevout)
    (specialTxs code height s block.txs.tail)
  refine ⟨e', c', u, ?_⟩
  unfold foldTxs collateralSpends
  rw [hs', hs]

variable {m block}

theorem applyBlock_of_not_applies (h : ¬ Applies code m block height) :
    (applyBlock code m block height).1 = m := by
  unfold applyBlock
  split
  · rfl
  split
  · rfl
  rename_i hskip hgap
  cases hrefusal : consensusRefusal code m block height with
  | some why => rfl
  | none => exact absurd ⟨hskip, hgap, hrefusal⟩ h

theorem applyBlock_of_applies (h : Applies code m block height) :
    ∃ s : Applying, (applyBlock code m block height).1 = { s.1 with lastAppliedHeight := height } ∧
      (applyBlock code m block height).2 = { s.2 with totalAfter := s.1.entries.entries.length } ∧
      s = match (queueBefore m).head?, block.txs with
        | some projected, _ :: _ =>
          match (folded code m block height).1.entries.lookup projected with
          | some st =>
            resolvePayee (queueBefore m) height block.coinbaseOuts projected
              (scriptBefore m projected) st (folded code m block height)
          | none => folded code m block height
        | _, _ => folded code m block height := by
  obtain ⟨hskip, hgap, hrefusal⟩ := h
  refine ⟨_, ?_, ?_, rfl⟩
  · unfold applyBlock
    rw [if_neg hskip, if_neg hgap, hrefusal]
    rfl
  unfold applyBlock
  rw [if_neg hskip, if_neg hgap, hrefusal]
  rfl

theorem folded_frame :
    (folded code m block height).1.smlValidity = m.smlValidity ∧
      (folded code m block height).1.smlRecoveryCap = m.smlRecoveryCap ∧
      (folded code m block height).1.smlRecoveredTotal = m.smlRecoveredTotal ∧
      (folded code m block height).1.isSuperblockHeight = m.isSuperblockHeight ∧
      (folded code m block height).1.smlAttest = m.smlAttest ∧
      (folded code m block height).1.pending = {} := by
  obtain ⟨e, c, u, h⟩ := @foldTxs_frame P code height block
    ({ m with pending := {} }, { projectedPayee := (queueBefore m).head? })
  unfold folded
  rw [h]
  exact ⟨rfl, rfl, rfl, rfl, rfl, rfl⟩

def walkOf (code : ProTxCode P) (m : MnStateMachine) (block : Block P) (height : U32) :
    WalkOutcome :=
  walkToPaidCandidate (folded code m block height).1.entries (queueBefore m)
    (fun h => m.smlAttest h height) (paidInCb block.coinbaseOuts)

/-- A decision that is not `nothing` is about the head of the queue, still on the list, in a block
with a coinbase. -/
structure Projects (code : ProTxCode P) (m : MnStateMachine) (block : Block P) (height : U32)
    (projected : Uint256) : Prop where
  applies : Applies code m block height
  head : (queueBefore m).head? = some projected
  coinbase : block.txs ≠ []
  survives : (folded code m block height).1.entries.lookup projected ≠ none

theorem payeeDecision_of_projects (h : Projects code m block height projected) :
    payeeDecision code m block height =
      if paidInCb block.coinbaseOuts (scriptBefore m projected) then .paid projected
      else if m.smlValidity.isNone then .desync projected
      else
        match (walkOf code m block height).accepted with
        | none => .desync projected
        | some who =>
          if m.smlRecoveryCap < m.smlRecoveredTotal +
              (walkOf code m block height).demoted.length then .desync projected
          else .walked (walkOf code m block height).demoted who := by
  obtain ⟨st, hst⟩ := Option.ne_none_iff_exists'.mp h.survives
  unfold payeeDecision
  rw [if_pos h.applies, h.head]
  cases hblock : block.txs with
  | nil => exact absurd hblock h.coinbase
  | cons coinbase txs =>
    simp only [hst]
    rfl

theorem projects_of_payeeDecision (h : payeeDecision code m block height ≠ .nothing) :
    ∃ projected, Projects code m block height projected := by
  unfold payeeDecision at h
  split at h
  · rename_i happlies
    split at h
    · rename_i projected coinbase txs hhead hblock
      cases hst : (folded code m block height).1.entries.lookup projected with
      | none =>
        simp only [hst] at h
        exact absurd rfl h
      | some st => exact ⟨projected, happlies, hhead, by simp [hblock], by simp [hst]⟩
    · exact absurd rfl h
  · exact absurd rfl h

theorem applyBlock_of_projects (h : Projects code m block height projected) :
    ∃ st s, (folded code m block height).1.entries.lookup projected = some st ∧
      s = resolvePayee (queueBefore m) height block.coinbaseOuts projected
        (scriptBefore m projected) st (folded code m block height) ∧
      (applyBlock code m block height).1 = { s.1 with lastAppliedHeight := height } ∧
      (applyBlock code m block height).2 =
        { s.2 with totalAfter := s.1.entries.entries.length } := by
  obtain ⟨st, hst⟩ := Option.ne_none_iff_exists'.mp h.survives
  obtain ⟨s, hm, hr, hs⟩ := applyBlock_of_applies h.applies
  refine ⟨st, s, hst, ?_, hm, hr⟩
  rw [hs, h.head]
  cases hblock : block.txs with
  | nil => exact absurd hblock h.coinbase
  | cons coinbase txs => simp only [hst]

theorem recoverFromSmlBan_folded :
    recoverFromSmlBan (queueBefore m) height (paidInCb block.coinbaseOuts)
        (folded code m block height) =
      if m.smlValidity.isNone then none
      else
        match (walkOf code m block height).accepted with
        | none => none
        | some who =>
          if m.smlRecoveryCap < m.smlRecoveredTotal +
              (walkOf code m block height).demoted.length then none
          else
            some ({ (folded code m block height).1 with
                entries := commitWalkOutcome (folded code m block height).1.entries height
                  (walkOf code m block height).demoted who
                smlRecoveredTotal := m.smlRecoveredTotal +
                  (walkOf code m block height).demoted.length },
              { (folded code m block height).2 with
                paid := (folded code m block height).2.paid +
                  if ((folded code m block height).1.entries.lookup who).isSome then 1 else 0
                smlRecovered := (walkOf code m block height).demoted.length }) := by
  obtain ⟨hvalidity, hcap, htotal, -, hattest, -⟩ := @folded_frame P code m block height
  have hw : walkToPaidCandidate (folded code m block height).1.entries (queueBefore m)
      (fun h => (folded code m block height).1.smlAttest h height)
      (paidInCb block.coinbaseOuts) = walkOf code m block height := by
    rw [hattest]
    rfl
  rw [← hw, ← hvalidity, ← hcap, ← htotal]
  rfl

theorem payeeDecision_of_unpaid (h : Projects code m block height projected)
    (hpaid : ¬ paidInCb block.coinbaseOuts (scriptBefore m projected)) :
    (payeeDecision code m block height = .desync projected ∧
      recoverFromSmlBan (queueBefore m) height (paidInCb block.coinbaseOuts)
        (folded code m block height) = none) ∨
    ∃ who s, (walkOf code m block height).accepted = some who ∧
      payeeDecision code m block height = .walked (walkOf code m block height).demoted who ∧
      recoverFromSmlBan (queueBefore m) height (paidInCb block.coinbaseOuts)
        (folded code m block height) = some s ∧
          s.1.pending = (folded code m block height).1.pending ∧
      s.1.entries = commitWalkOutcome (folded code m block height).1.entries height
        (walkOf code m block height).demoted who := by
  rw [payeeDecision_of_projects h, recoverFromSmlBan_folded, if_neg hpaid]
  split
  · exact .inl ⟨rfl, rfl⟩
  cases (walkOf code m block height).accepted with
  | none => exact .inl ⟨rfl, rfl⟩
  | some who =>
    dsimp only
    split
    · exact .inl ⟨rfl, rfl⟩
    · exact .inr ⟨who, _, rfl, rfl, rfl, rfl, rfl⟩

theorem applyBlock_of_walked {demoted : List Uint256} {who : Uint256}
    (h : payeeDecision code m block height = .walked demoted who) :
    ∃ projected, Projects code m block height projected ∧
      (walkOf code m block height).accepted = some who ∧
      (applyBlock code m block height).1.entries =
        commitWalkOutcome (folded code m block height).1.entries height demoted who := by
  obtain ⟨projected, hp⟩ := projects_of_payeeDecision (by rw [h]; simp)
  obtain ⟨st, s, hst, hs, hm, -⟩ := applyBlock_of_projects hp
  refine ⟨projected, hp, ?_⟩
  rw [hm, hs]
  unfold resolvePayee
  by_cases hpaid : paidInCb block.coinbaseOuts (scriptBefore m projected)
  · simp [payeeDecision_of_projects hp, hpaid] at h
  obtain ⟨hdesync, -⟩ | ⟨who', s', haccepted, hwalked, hrecover, -, hentries⟩ :=
    payeeDecision_of_unpaid hp hpaid
  · rw [hdesync] at h
    cases h
  rw [hwalked] at h
  cases h
  rw [if_neg hpaid, hrecover]
  exact ⟨haccepted, hentries⟩

/-- A walk that is refused leaves the list as the transactions made it. -/
theorem applyBlock_of_desync (h : payeeDecision code m block height = .desync projected) :
    Projects code m block height projected ∧
      ¬ paidInCb block.coinbaseOuts (scriptBefore m projected) ∧
      (applyBlock code m block height).1 =
        { (folded code m block height).1 with
          lastAppliedHeight := height
          pending :=
            { present := true
              height := height
              ranked := queueBefore m
              projected := some projected } } := by
  obtain ⟨projected', hp⟩ := projects_of_payeeDecision (by rw [h]; simp)
  obtain ⟨st, s, hst, hs, hm, -⟩ := applyBlock_of_projects hp
  rw [hm, hs]
  unfold resolvePayee
  by_cases hpaid : paidInCb block.coinbaseOuts (scriptBefore m projected')
  · simp [payeeDecision_of_projects hp, hpaid] at h
  obtain ⟨hdesync, hrecover⟩ | ⟨who, s', -, hwalked, -⟩ := payeeDecision_of_unpaid hp hpaid
  · rw [hdesync] at h
    cases h
    refine ⟨hp, hpaid, ?_⟩
    rw [if_neg hpaid, hrecover]
  · rw [hwalked] at h
    cases h

theorem payeeDecision_ne_nothing
    (h : Projects code m block height projected) :
    payeeDecision code m block height ≠ .nothing := by
  rw [payeeDecision_of_projects h]
  split
  · simp
  split
  · simp
  split
  · simp
  · split <;> simp

theorem applyBlock_of_nothing (happlies : Applies code m block height)
    (h : payeeDecision code m block height = .nothing) :
    (applyBlock code m block height).1 =
        { (folded code m block height).1 with lastAppliedHeight := height } ∧
      (applyBlock code m block height).2 =
        { (folded code m block height).2 with
          totalAfter := (folded code m block height).1.entries.entries.length } := by
  obtain ⟨s, hm, hr, hs⟩ := applyBlock_of_applies happlies
  have heq : s = folded code m block height := by
    rw [hs]
    split
    · rename_i projected coinbase txs hhead hblock
      cases hst : (folded code m block height).1.entries.lookup projected with
      | none => rfl
      | some st =>
        have hp : Projects code m block height projected :=
          ⟨happlies, hhead, by simp [hblock], by simp [hst]⟩
        exact absurd h (payeeDecision_ne_nothing hp)
    · rfl
  rw [hm, hr, heq]
  exact ⟨rfl, rfl⟩

theorem pending_of_not_desync (happlies : Applies code m block height)
    (h : ∀ projected, payeeDecision code m block height ≠ .desync projected) :
    (applyBlock code m block height).1.pending = {} := by
  obtain ⟨-, -, -, -, -, hfolded⟩ := @folded_frame P code m block height
  by_cases hnothing : payeeDecision code m block height = .nothing
  · rw [(applyBlock_of_nothing happlies hnothing).1]
    exact hfolded
  obtain ⟨projected, hp⟩ := projects_of_payeeDecision hnothing
  obtain ⟨st, s, hst, hs, hm, -⟩ := applyBlock_of_projects hp
  rw [hm, hs]
  unfold resolvePayee
  by_cases hpaid : paidInCb block.coinbaseOuts (scriptBefore m projected)
  · simp only [hpaid, if_true, hfolded]
  obtain ⟨hdesync, -⟩ | ⟨who, s', -, -, hrecover, hpending, -⟩ := payeeDecision_of_unpaid hp hpaid
  · exact absurd hdesync (h projected)
  · rw [if_neg hpaid, hrecover]
    exact hpending.trans hfolded

end Decision

end C2Pool.Dash
