import C2Pool.Dash.PayoutSplit

/-! # The repair of unmeasured revivals

A block replay sees no bans, so a service update that revives a banned masternode looks like a plain
one. `apply_block` records its height, and `repair_unmeasured_revive_ordering` writes it when a
later list attests the masternode valid. The reference here is the same machine with the bans of the
network put in after each block.
-/

namespace C2Pool.Dash

open List SortedMap MNState Option

/-! ## What a block does to one entry -/

section Entry

variable {P : Type} {code : ProTxCode P} {m : MnStateMachine} {block : Block P} {height : U32}

def PayeeDecision.marked : PayeeDecision → Option Uint256
  | .paid who => some who
  | .walked _ who => some who
  | _ => none

theorem lookup_changeEntry (entries : Entries) (k h : Uint256) (f : MNState → MNState) :
    (changeEntry entries k f).lookup h =
      if h = k then (entries.lookup k).map f else entries.lookup h := by
  unfold changeEntry
  split
  · rename_i st hst
    rw [lookup_insert, hst]
    rfl
  rename_i hnone
  split
  · rename_i heq
    rw [heq, hnone]
    rfl
  · rfl

/-- What the order of payments reads, and what the transactions read. -/
def MNState.view (st : MNState) : (Fin (2 ^ 8) × OpKey × U32) × U32 × U32 :=
  (st.txPart, st.nPoSeRevivedHeight, st.nLastPaidHeight)

def MNState.viewPaid (height : U32) (marked : Prop) [Decidable marked] (st : MNState) :
    (Fin (2 ^ 8) × OpKey × U32) × U32 × U32 :=
  (st.txPart, st.nPoSeRevivedHeight, if marked then height else st.nLastPaidHeight)

theorem MNState.viewPaid_of_not {marked : Prop} [Decidable marked] (h : ¬ marked) :
    MNState.viewPaid height marked = MNState.view := by
  funext st
  unfold viewPaid view
  rw [if_neg h]

theorem view_demotions (demoted : List Uint256) (entries : Entries) (h : Uint256) :
    ((demoted.foldl (fun entries d =>
        changeEntry entries d fun st => { st with isValid := false, nPoSeBanHeight := height })
        entries).lookup h).map MNState.view = (entries.lookup h).map MNState.view := by
  induction demoted generalizing entries with
  | nil => rfl
  | cons d demoted ih =>
    rw [foldl_cons, ih, lookup_changeEntry]
    split
    · rename_i heq
      rw [heq, Option.map_map]
      rfl
    · rfl

theorem view_commitWalkOutcome (entries : Entries) (demoted : List Uint256) (accepted h : Uint256) :
    ((commitWalkOutcome entries height demoted accepted).lookup h).map MNState.view =
      (entries.lookup h).map (MNState.viewPaid height (some accepted = some h)) := by
  unfold commitWalkOutcome
  rw [lookup_changeEntry]
  have hdemotions := @view_demotions height demoted entries h
  by_cases heq : h = accepted
  · rw [if_pos heq, ← heq, Option.map_map]
    have hview : MNState.view ∘ MNState.markPaid height =
        (fun v => (v.1, v.2.1, height)) ∘ MNState.view := rfl
    have hpaid : MNState.viewPaid height (some h = some h) =
        (fun v => (v.1, v.2.1, height)) ∘ MNState.view := by
      funext st
      unfold MNState.viewPaid
      rw [if_pos rfl]
      rfl
    rw [hview, hpaid, ← Option.map_map, ← Option.map_map, hdemotions]
  have hne : ¬ some accepted = some h := by
    intro hsome
    exact heq (Option.some.inj hsome).symm
  rw [if_neg heq, viewPaid_of_not hne, hdemotions]

theorem view_observePayoutSplit (superblock : Bool) (outs : List TxOut) (st : MNState) :
    (st.observePayoutSplit superblock outs).1.view = st.view := by
  unfold MNState.observePayoutSplit
  dsimp only
  repeat' split
  all_goals rfl

theorem view_applyBlock (happlies : Applies code m block height) (h : Uint256) :
    ((applyBlock code m block height).1.entries.lookup h).map MNState.view =
      ((folded code m block height).1.entries.lookup h).map
        (MNState.viewPaid height ((payeeDecision code m block height).marked = some h)) := by
  cases hdecision : payeeDecision code m block height with
  | nothing =>
    rw [(applyBlock_of_nothing happlies hdecision).1, viewPaid_of_not]
    simp [PayeeDecision.marked]
  | paid who =>
    obtain ⟨projected, hp⟩ := projects_of_payeeDecision (by rw [hdecision]; simp)
    have hdecided := payeeDecision_of_projects hp
    rw [hdecision] at hdecided
    have hpaid : paidInCb block.coinbaseOuts (scriptBefore m projected) = true := by
      by_contra hunpaid
      rw [if_neg hunpaid] at hdecided
      split at hdecided
      · simp at hdecided
      split at hdecided
      · simp at hdecided
      · split at hdecided <;> simp at hdecided
    rw [if_pos hpaid, PayeeDecision.paid.injEq] at hdecided
    subst hdecided
    obtain ⟨st, s, hst, hs, hm, -⟩ := applyBlock_of_projects hp
    rw [hm, hs, resolvePayee_of_paid hpaid rfl]
    rw [lookup_insert]
    split
    · rename_i heq
      rw [heq, hst, map_some, view_observePayoutSplit, map_some]
      have hmarked : (PayeeDecision.paid who).marked = some who := rfl
      unfold MNState.viewPaid
      rw [if_pos hmarked]
      rfl
    rename_i hne
    rw [viewPaid_of_not]
    intro hsome
    exact hne (Option.some.inj hsome).symm
  | walked demoted who =>
    obtain ⟨projected, -, -, hentries⟩ := applyBlock_of_walked hdecision
    rw [hentries, view_commitWalkOutcome]
    rfl
  | desync who =>
    rw [(applyBlock_of_desync hdecision).2.2, viewPaid_of_not]
    simp [PayeeDecision.marked]

theorem applyBlock_rest (happlies : Applies code m block height) :
    (applyBlock code m block height).1.collateralIndex =
        (folded code m block height).1.collateralIndex ∧
      (applyBlock code m block height).1.unmeasuredReviveAt =
        (folded code m block height).1.unmeasuredReviveAt ∧
      (applyBlock code m block height).1.dip0003Height = m.dip0003Height ∧
      (applyBlock code m block height).1.lastAppliedHeight = height := by
  have hdip : (folded code m block height).1.dip0003Height = m.dip0003Height := by
    obtain ⟨e, c, u, hfold⟩ := @foldTxs_frame P code height block (beforePasses m)
    have hfolded : folded code m block height = foldTxs code height block (beforePasses m) := rfl
    rw [hfolded, hfold]
    rfl
  obtain ⟨s, hm, -, hs⟩ := applyBlock_of_applies happlies
  have hrest : ∀ ranked outs projected script st,
      (resolvePayee ranked height outs projected script st
          (folded code m block height)).1.collateralIndex =
          (folded code m block height).1.collateralIndex ∧
        (resolvePayee ranked height outs projected script st
          (folded code m block height)).1.unmeasuredReviveAt =
          (folded code m block height).1.unmeasuredReviveAt ∧
        (resolvePayee ranked height outs projected script st
          (folded code m block height)).1.dip0003Height = m.dip0003Height := by
    intro ranked outs projected script st
    rw [← hdip]
    unfold resolvePayee recoverFromSmlBan
    split
    · exact ⟨rfl, rfl, rfl⟩
    split
    · rename_i s' hs'
      dsimp only at hs'
      split at hs'
      · simp at hs'
      split at hs'
      · simp at hs'
      split at hs'
      · simp at hs'
      · rw [← Option.some.inj hs']
        exact ⟨rfl, rfl, rfl⟩
    · exact ⟨rfl, rfl, rfl⟩
  have hkept : s.1.collateralIndex = (folded code m block height).1.collateralIndex ∧
      s.1.unmeasuredReviveAt = (folded code m block height).1.unmeasuredReviveAt ∧
      s.1.dip0003Height = m.dip0003Height := by
    rw [hs]
    split
    · split
      · exact hrest _ _ _ _ _
      · exact ⟨rfl, rfl, hdip⟩
    · exact ⟨rfl, rfl, hdip⟩
  rw [hm]
  exact ⟨hkept.1, hkept.2.1, hkept.2.2, rfl⟩

end Entry

/-! ## The reference history -/

section History

variable {P : Type} (code : ProTxCode P) {height : U32} {h : Uint256} {s s' : Applying} {tx : Tx P}
  {ptx : ProUpServTx} {st : MNState} {block : Block P} {st' : MNState} {m ref : MnStateMachine}

/-- A block of the network, with the ban heights of the masternodes that are banned after it. -/
structure HistoryStep (P : Type) where
  block : Block P
  height : U32
  bans : Uint256 → Option U32

def banAll (bans : Uint256 → Option U32) (m : MnStateMachine) : MnStateMachine :=
  { m with
    entries := m.entries.mapValues fun h st =>
      match bans h with
      | some ban => st.bannedAt ban
      | none => st }

def HistoryStep.reference (ref : MnStateMachine) (e : HistoryStep P) : MnStateMachine :=
  banAll e.bans (applyBlock code ref e.block e.height).1

def HistoryStep.observed (m : MnStateMachine) (e : HistoryStep P) : MnStateMachine :=
  (applyBlock code m e.block e.height).1

/-- What the ledger of revivals takes from one transaction is what it is for in the reference: a
service update that is recorded is one that revives, one that is declined does not, and no
recorded masternode is registered again. -/
structure TxRecorded (height : U32) (h : Uint256) (s s' : Applying) (tx : Tx P) : Prop where
  registers : tx.type.val = 1 → ∀ ptx, code.parseProReg tx.extraPayload = some ptx →
    code.computeTxHash tx = h → s.1.unmeasuredReviveAt.lookup h = none
  revives : tx.type.val = 2 → ∀ ptx, code.parseProUpServ tx.extraPayload = some ptx →
    ptx.proTxHash = h → ∀ st st', s.1.entries.lookup h = some st →
      s'.1.entries.lookup h = some st' → st.nPoSeBanHeight = 0 →
        if s.1.BanStateMeasuredFor height then st'.nPoSeBanHeight = 0
        else st'.nPoSeBanHeight ≠ 0 ∨ st'.nPoSeRevivedHeight = height

/-- The same for the transactions of a block in order. -/
def TxsRecorded (height : U32) (h : Uint256) : Applying → Applying → List (Tx P) → Prop
  | _, _, [] => True
  | s, s', tx :: txs =>
    TxRecorded code height h s s' tx ∧
      TxsRecorded height h (applySpecialTx code height s tx) (applySpecialTx code height s' tx)
        txs

def RunRecorded (h : Uint256) : MnStateMachine → MnStateMachine → List (HistoryStep P) → Prop
  | _, _, [] => True
  | m, ref, e :: run =>
    (Applies code m e.block e.height →
      TxsRecorded code e.height h (beforePasses m) (beforePasses ref) e.block.txs.tail) ∧
      RunRecorded h (e.observed code m) (e.reference code ref) run

def RunPaidAlike (h : Uint256) : MnStateMachine → MnStateMachine → List (HistoryStep P) → Prop
  | _, _, [] => True
  | m, ref, e :: run =>
    ((payeeDecision code m e.block e.height).marked = some h ↔
        (payeeDecision code ref e.block e.height).marked = some h) ∧
      RunPaidAlike h (e.observed code m) (e.reference code ref) run

variable {code}

/-- A recorded height that is still to be written is the reference's revive height. -/
structure Recorded (h : Uint256) (height : U32) (m ref : MnStateMachine) : Prop where
  bounded : ∀ k, m.unmeasuredReviveAt.lookup h = some k → k ≤ height
  recorded : ∀ k st st', m.unmeasuredReviveAt.lookup h = some k → m.entries.lookup h = some st →
    ref.entries.lookup h = some st' → st.nPoSeRevivedHeight < k → st'.nPoSeRevivedHeight = k

theorem ledger_of_not_service (htype : tx.type.val ≠ 2) :
    (applySpecialTx code height s tx).1.unmeasuredReviveAt = s.1.unmeasuredReviveAt := by
  unfold applySpecialTx
  split
  · unfold applyProReg
    split <;> rfl
  · contradiction
  · unfold applyProUpReg
    split
    · rfl
    · split <;> rfl
  · unfold applyProUpRev
    split
    · rfl
    · split <;> rfl
  · rfl

theorem revived_of_not_service (htype : tx.type.val ≠ 2)
    (hst : (applySpecialTx code height s tx).1.entries.lookup h = some st) :
    (tx.type.val = 1 ∧ ∃ ptx, code.parseProReg tx.extraPayload = some ptx ∧
        code.computeTxHash tx = h) ∨
      ∃ st₀, s.1.entries.lookup h = some st₀ ∧
        st₀.nPoSeRevivedHeight = st.nPoSeRevivedHeight ∧
        st₀.nLastPaidHeight = st.nLastPaidHeight := by
  unfold applySpecialTx at hst
  split at hst
  · rename_i htype'
    unfold applyProReg at hst
    split at hst
    · exact Or.inr ⟨st, hst, rfl, rfl⟩
    rename_i ptx hparse
    by_cases hhash : code.computeTxHash tx = h
    · exact Or.inl ⟨htype', ptx, hparse, hhash⟩
    right
    have hdrop : (dropHolder s.1 (MNState.register code height (code.computeTxHash tx)
        ptx).collateralOutpoint).lookup h = some st := by
      unfold emplace at hst
      dsimp only at hst
      split at hst
      · exact hst
      · rw [lookup_insert, if_neg (Ne.symm hhash)] at hst
        exact hst
    unfold dropHolder at hdrop
    split at hdrop
    · rw [lookup_erase] at hdrop
      split at hdrop
      · simp at hdrop
      · exact ⟨st, hdrop, rfl, rfl⟩
    · exact ⟨st, hdrop, rfl, rfl⟩
  · contradiction
  · right
    unfold applyProUpReg at hst
    split at hst
    · exact ⟨st, hst, rfl, rfl⟩
    rename_i ptx hparse
    cases hold : s.1.entries.lookup ptx.proTxHash with
    | none =>
      simp only [hold] at hst
      exact ⟨st, hst, rfl, rfl⟩
    | some st₀ =>
      simp only [hold, lookup_insert] at hst
      split at hst
      · rename_i heq
        refine ⟨st₀, heq ▸ hold, ?_⟩
        rw [← Option.some.inj hst]
        unfold MNState.updateRegistrar
        dsimp only
        split
        · exact ⟨rfl, rfl⟩
        · exact ⟨rfl, rfl⟩
      · exact ⟨st, hst, rfl, rfl⟩
  · right
    unfold applyProUpRev at hst
    split at hst
    · exact ⟨st, hst, rfl, rfl⟩
    rename_i ptx hparse
    cases hold : s.1.entries.lookup ptx.proTxHash with
    | none =>
      simp only [hold] at hst
      exact ⟨st, hst, rfl, rfl⟩
    | some st₀ =>
      simp only [hold, lookup_insert] at hst
      split at hst
      · rename_i heq
        refine ⟨st₀, heq ▸ hold, ?_⟩
        rw [← Option.some.inj hst]
        exact ⟨rfl, rfl⟩
      · exact ⟨st, hst, rfl, rfl⟩
  · exact Or.inr ⟨st, hst, rfl, rfl⟩

theorem applyProUpServ_of_lookup (hparse : code.parseProUpServ tx.extraPayload = some ptx)
    (hst : s.1.entries.lookup ptx.proTxHash = some st) :
    (applyProUpServ code height s tx).1 =
      if st.nPoSeBanHeight ≠ 0 then
        { s.1 with
          entries := s.1.entries.insert ptx.proTxHash ((st.updateService ptx).revive height) }
      else if s.1.BanStateMeasuredFor height then
        { s.1 with entries := s.1.entries.insert ptx.proTxHash (st.updateService ptx) }
      else
        { s.1 with
          entries := s.1.entries.insert ptx.proTxHash (st.updateService ptx)
          unmeasuredReviveAt := s.1.unmeasuredReviveAt.insert ptx.proTxHash height } := by
  have hban : (st.updateService ptx).nPoSeBanHeight = st.nPoSeBanHeight := rfl
  unfold applyProUpServ
  simp only [hparse, hst, hban]
  by_cases hzero : st.nPoSeBanHeight = 0
  · by_cases hmeasured : s.1.BanStateMeasuredFor height
    · simp [hzero, hmeasured]
    · simp [hzero, hmeasured]
  · simp [hzero]

theorem applyProUpServ_of_ne
    (hparse : code.parseProUpServ tx.extraPayload = some ptx) (hne : ptx.proTxHash ≠ h) :
    (applyProUpServ code height s tx).1.entries.lookup h = s.1.entries.lookup h ∧
      (applyProUpServ code height s tx).1.unmeasuredReviveAt.lookup h =
        s.1.unmeasuredReviveAt.lookup h := by
  cases hst : s.1.entries.lookup ptx.proTxHash with
  | none =>
    unfold applyProUpServ
    simp only [hparse, hst, and_self]
  | some st =>
    rw [applyProUpServ_of_lookup hparse hst]
    split
    · exact ⟨by rw [lookup_insert, if_neg (Ne.symm hne)], rfl⟩
    split
    · exact ⟨by rw [lookup_insert, if_neg (Ne.symm hne)], rfl⟩
    · exact ⟨by rw [lookup_insert, if_neg (Ne.symm hne)],
        by rw [lookup_insert, if_neg (Ne.symm hne)]⟩

def MNState.revivedBy (height : U32) (st : MNState) : U32 :=
  if st.nPoSeBanHeight ≠ 0 then height else st.nPoSeRevivedHeight

theorem revived_applyProUpServ (hparse : code.parseProUpServ tx.extraPayload = some ptx)
    (hhash : ptx.proTxHash = h) (hst : s.1.entries.lookup h = some st) :
    ∃ st', (applyProUpServ code height s tx).1.entries.lookup h = some st' ∧
      st'.nPoSeRevivedHeight = st.revivedBy height := by
  subst hhash
  rw [applyProUpServ_of_lookup hparse hst]
  unfold MNState.revivedBy
  by_cases hban : st.nPoSeBanHeight ≠ 0
  · rw [if_pos hban, if_pos hban]
    exact ⟨_, by rw [lookup_insert, if_pos rfl], rfl⟩
  rw [if_neg hban, if_neg hban]
  refine ⟨st.updateService ptx, ?_, rfl⟩
  split
  · rw [lookup_insert, if_pos rfl]
  · rw [lookup_insert, if_pos rfl]

theorem Recorded.applyProUpServ (hsame : SameList s.1 s'.1) (hrec : Recorded h height s.1 s'.1)
    (htype : tx.type.val = 2) (htx : TxRecorded code height h s s' tx) :
    Recorded h height (applyProUpServ code height s tx).1
      (Dash.applyProUpServ code height s' tx).1 := by
  cases hparse : code.parseProUpServ tx.extraPayload with
  | none =>
    unfold Dash.applyProUpServ
    simp only [hparse]
    exact hrec
  | some ptx =>
    by_cases hhash : ptx.proTxHash = h
    · rcases hsame.parts.cases h with ⟨hnone, hnone'⟩ | ⟨st, st', hst, hst', -⟩
      · unfold Dash.applyProUpServ
        simp only [hparse, hhash, hnone, hnone']
        exact hrec
      have hcond := htx.revives htype ptx hparse hhash st st' hst hst'
      obtain ⟨new, hnew, hrevived⟩ := @revived_applyProUpServ P code height h s tx ptx st
        hparse hhash hst
      obtain ⟨new', hnew', hrevived'⟩ := @revived_applyProUpServ P code height h s' tx ptx st'
        hparse hhash hst'
      unfold MNState.revivedBy at hrevived hrevived'
      have hledger := congrArg MnStateMachine.unmeasuredReviveAt
        (@applyProUpServ_of_lookup P code height s tx ptx st hparse (hhash ▸ hst))
      by_cases hban : st.nPoSeBanHeight ≠ 0
      · -- revived in both, and not before what is recorded
        rw [if_pos hban] at hledger hrevived
        refine ⟨?_, ?_⟩
        · rw [hledger]
          exact hrec.bounded
        intro k a b hk ha hb hlt
        rw [hnew, Option.some.injEq] at ha
        rw [← ha, hrevived] at hlt
        rw [hledger] at hk
        exact absurd (hrec.bounded k hk) (not_le.mpr hlt)
      have hzero : st.nPoSeBanHeight = 0 := not_not.mp hban
      rw [if_neg hban] at hledger hrevived
      have hcond := hcond hzero
      by_cases hmeasured : s.1.BanStateMeasuredFor height
      · rw [if_pos hmeasured] at hledger hcond
        rw [if_neg (not_not.mpr hcond)] at hrevived'
        refine ⟨?_, ?_⟩
        · rw [hledger]
          exact hrec.bounded
        intro k a b hk ha hb hlt
        rw [hnew, Option.some.injEq] at ha
        rw [hnew', Option.some.injEq] at hb
        rw [hledger] at hk
        rw [← ha, hrevived] at hlt
        rw [← hb, hrevived']
        exact hrec.recorded k st st' hk hst hst' hlt
      rw [if_neg hmeasured] at hledger hcond
      have hheight : new'.nPoSeRevivedHeight = height := by
        rw [hrevived']
        split
        · rfl
        · rename_i hban'
          exact hcond.resolve_left hban'
      refine ⟨?_, ?_⟩
      · intro k hk
        rw [hledger, lookup_insert, if_pos hhash.symm, Option.some.injEq] at hk
        exact hk ▸ le_rfl
      intro k a b hk ha hb hlt
      rw [hledger, lookup_insert, if_pos hhash.symm, Option.some.injEq] at hk
      rw [hnew', Option.some.injEq] at hb
      rw [← hb, hheight, hk]
    · obtain ⟨hentry, hledger⟩ := @applyProUpServ_of_ne P code height h s tx ptx hparse hhash
      obtain ⟨hentry', -⟩ := @applyProUpServ_of_ne P code height h s' tx ptx hparse hhash
      refine ⟨?_, ?_⟩
      · rw [hledger]
        exact hrec.bounded
      · rw [hledger, hentry, hentry']
        exact hrec.recorded

theorem Recorded.applySpecialTx (hsame : SameList s.1 s'.1) (hrec : Recorded h height s.1 s'.1)
    (htx : TxRecorded code height h s s' tx) :
    Recorded h height (applySpecialTx code height s tx).1
      (Dash.applySpecialTx code height s' tx).1 := by
  by_cases htype : tx.type.val = 2
  · unfold Dash.applySpecialTx
    rw [htype]
    exact hrec.applyProUpServ hsame htype htx
  have hledger := @ledger_of_not_service P code height s tx htype
  refine ⟨?_, ?_⟩
  · rw [hledger]
    exact hrec.bounded
  intro k st st' hk hst hst' hlt
  rw [hledger] at hk
  rcases revived_of_not_service htype hst with ⟨hreg, ptx, hparse, hhash⟩ | ⟨old, hold, heq, -⟩
  · rw [htx.registers hreg ptx hparse hhash] at hk
    simp at hk
  rcases revived_of_not_service htype hst' with ⟨hreg, ptx, hparse, hhash⟩ | ⟨old', hold', heq', -⟩
  · rw [htx.registers hreg ptx hparse hhash] at hk
    simp at hk
  · rw [← heq']
    exact hrec.recorded k old old' hk hold hold' (heq ▸ hlt)

theorem Recorded.specialTxs (txs : List (Tx P)) (hsame : SameList s.1 s'.1)
    (hrec : Recorded h height s.1 s'.1) (htxs : TxsRecorded code height h s s' txs) :
    Recorded h height (specialTxs code height s txs).1
      (Dash.specialTxs code height s' txs).1 := by
  induction txs generalizing s s' with
  | nil => exact hrec
  | cons tx txs ih => exact ih (hsame.applySpecialTx tx) (hrec.applySpecialTx hsame htxs.1) htxs.2

theorem lookup_of_spendCollateral {prevout : TxPrevOut}
    (hst : (spendCollateral s prevout).1.entries.lookup h = some st) :
    s.1.entries.lookup h = some st := by
  unfold spendCollateral at hst
  split at hst
  · exact hst
  rw [lookup_erase] at hst
  split at hst
  · simp at hst
  · exact hst

theorem Recorded.spendCollateral (hrec : Recorded h height s.1 s'.1) (prevout : TxPrevOut) :
    Recorded h height (spendCollateral s prevout).1 (Dash.spendCollateral s' prevout).1 := by
  have hledger : (Dash.spendCollateral s prevout).1.unmeasuredReviveAt =
      s.1.unmeasuredReviveAt := by
    unfold Dash.spendCollateral
    split <;> rfl
  refine ⟨?_, ?_⟩
  · rw [hledger]
    exact hrec.bounded
  intro k st st' hk hst hst' hlt
  rw [hledger] at hk
  exact hrec.recorded k st st' hk (lookup_of_spendCollateral hst)
    (lookup_of_spendCollateral hst') hlt

theorem Recorded.foldTxs (block : Block P) (hsame : SameList s.1 s'.1)
    (hrec : Recorded h height s.1 s'.1) (htxs : TxsRecorded code height h s s' block.txs.tail) :
    Recorded h height (foldTxs code height block s).1 (Dash.foldTxs code height block s').1 := by
  have hspends : ∀ (prevouts : List TxPrevOut) (s s' : Applying), Recorded h height s.1 s'.1 →
      Recorded h height (prevouts.foldl Dash.spendCollateral s).1
        (prevouts.foldl Dash.spendCollateral s').1 := by
    intro prevouts
    induction prevouts with
    | nil => exact fun _ _ hrec => hrec
    | cons prevout prevouts ih => exact fun _ _ hrec => ih _ _ (hrec.spendCollateral prevout)
  exact hspends _ _ _ (hrec.specialTxs block.txs.tail hsame htxs)

def PaidAlike (h : Uint256) (m ref : MnStateMachine) : Prop :=
  ∀ st st', m.entries.lookup h = some st → ref.entries.lookup h = some st' →
    st.nLastPaidHeight = st'.nLastPaidHeight

theorem lastPaid_applyProUpServ
    (hst : (applyProUpServ code height s tx).1.entries.lookup h = some st) :
    ∃ st₀, s.1.entries.lookup h = some st₀ ∧ st₀.nLastPaidHeight = st.nLastPaidHeight := by
  rcases applyProUpServ_cases s tx with
    heq | ⟨ptx, old, -, hold, ⟨-, heq⟩ | ⟨-, -, heq⟩ | ⟨-, -, heq⟩⟩
  · rw [heq] at hst
    exact ⟨st, hst, rfl⟩
  all_goals
    rw [heq, lookup_insert] at hst
    split at hst
    · rename_i hkey
      rw [← Option.some.inj hst]
      exact ⟨old, hkey ▸ hold, rfl⟩
    · exact ⟨st, hst, rfl⟩

/-- A registration makes the same entry in two machines, or in neither. -/
theorem PaidAlike.applyProReg (hsame : SameList s.1 s'.1) (hpaid : PaidAlike h s.1 s'.1) :
    PaidAlike h (applyProReg code height s tx).1 (Dash.applyProReg code height s' tx).1 := by
  unfold Dash.applyProReg
  cases hparse : code.parseProReg tx.extraPayload with
  | none => exact hpaid
  | some ptx =>
    intro st st' hst hst'
    dsimp only at hst hst'
    generalize hreg : MNState.register code height (code.computeTxHash tx) ptx = new
      at hst hst'
    have hdropped : ∀ a b, (dropHolder s.1 new.collateralOutpoint).lookup h = some a →
        (dropHolder s'.1 new.collateralOutpoint).lookup h = some b →
          a.nLastPaidHeight = b.nLastPaidHeight := by
      intro a b ha hb
      unfold dropHolder at ha hb
      rw [← hsame.collateralIndex] at hb
      cases hholder : s.1.collateralIndex.lookup new.collateralOutpoint with
      | none =>
        rw [hholder] at ha hb
        exact hpaid a b ha hb
      | some old =>
        rw [hholder] at ha hb
        dsimp only at ha hb
        rw [lookup_erase] at ha hb
        split at ha
        · simp at ha
        rename_i hne
        rw [if_neg hne] at hb
        exact hpaid a b ha hb
    unfold emplace at hst hst'
    rcases (hsame.dropHolder new.collateralOutpoint).cases (code.computeTxHash tx) with
      ⟨hnone, hnone'⟩ | ⟨old, old', hold, hold', -⟩
    · simp only [hnone, lookup_insert] at hst
      simp only [hnone', lookup_insert] at hst'
      split at hst
      · rename_i heq
        rw [if_pos heq] at hst'
        rw [← Option.some.inj hst, ← Option.some.inj hst']
      rename_i hne
      rw [if_neg hne] at hst'
      exact hdropped st st' hst hst'
    simp only [hold] at hst
    simp only [hold'] at hst'
    exact hdropped st st' hst hst'

theorem PaidAlike.applySpecialTx (hsame : SameList s.1 s'.1) (hpaid : PaidAlike h s.1 s'.1) :
    PaidAlike h (applySpecialTx code height s tx).1 (Dash.applySpecialTx code height s' tx).1 := by
  by_cases hone : tx.type.val = 1
  · unfold Dash.applySpecialTx
    rw [hone]
    exact hpaid.applyProReg hsame
  have hkept : ∀ (s : Applying) st,
      (Dash.applySpecialTx code height s tx).1.entries.lookup h = some st →
        ∃ st₀, s.1.entries.lookup h = some st₀ ∧ st₀.nLastPaidHeight = st.nLastPaidHeight := by
    intro s st hst
    by_cases htwo : tx.type.val = 2
    · unfold Dash.applySpecialTx at hst
      rw [htwo] at hst
      exact lastPaid_applyProUpServ hst
    rcases revived_of_not_service htwo hst with ⟨hreg, -⟩ | ⟨old, hold, -, heq⟩
    · exact absurd hreg hone
    · exact ⟨old, hold, heq⟩
  intro st st' hst hst'
  obtain ⟨old, hold, heq⟩ := hkept s st hst
  obtain ⟨old', hold', heq'⟩ := hkept s' st' hst'
  rw [← heq, ← heq']
  exact hpaid old old' hold hold'

theorem PaidAlike.foldTxs (block : Block P) (hsame : SameList s.1 s'.1)
    (hpaid : PaidAlike h s.1 s'.1) :
    PaidAlike h (foldTxs code height block s).1 (Dash.foldTxs code height block s').1 := by
  have hspecial : ∀ (txs : List (Tx P)) (s s' : Applying), SameList s.1 s'.1 →
      PaidAlike h s.1 s'.1 →
        PaidAlike h (specialTxs code height s txs).1 (specialTxs code height s' txs).1 := by
    intro txs
    induction txs with
    | nil => exact fun _ _ _ hpaid => hpaid
    | cons tx txs ih =>
      exact fun _ _ hsame hpaid => ih _ _ (hsame.applySpecialTx tx) (hpaid.applySpecialTx hsame)
  have hspends : ∀ (prevouts : List TxPrevOut) (s s' : Applying), PaidAlike h s.1 s'.1 →
      PaidAlike h (prevouts.foldl spendCollateral s).1 (prevouts.foldl spendCollateral s').1 := by
    intro prevouts
    induction prevouts with
    | nil => exact fun _ _ hpaid => hpaid
    | cons prevout prevouts ih =>
      intro s s' hpaid
      apply ih
      intro st st' hst hst'
      exact hpaid st st' (lookup_of_spendCollateral hst) (lookup_of_spendCollateral hst')
  exact hspends _ _ _ (hspecial block.txs.tail s s' hsame hpaid)

/-! ## Whole blocks -/

theorem lookup_of_applyBlock {m : MnStateMachine} (happlies : Applies code m block height)
    (hst : (applyBlock code m block height).1.entries.lookup h = some st) :
    ∃ st₀, (folded code m block height).1.entries.lookup h = some st₀ ∧
      st.nPoSeRevivedHeight = st₀.nPoSeRevivedHeight ∧
      st.nLastPaidHeight = if (payeeDecision code m block height).marked = some h then height
        else st₀.nLastPaidHeight := by
  have hview := view_applyBlock happlies h
  rw [hst] at hview
  cases hold : (folded code m block height).1.entries.lookup h with
  | none => simp [hold] at hview
  | some st₀ =>
    rw [hold, map_some, map_some, Option.some.injEq] at hview
    unfold MNState.view MNState.viewPaid at hview
    simp only [Prod.mk.injEq] at hview
    exact ⟨st₀, rfl, hview.2.1, hview.2.2⟩

theorem SameList.applyBlock (hsame : SameList m ref)
    (happlies : Applies code m block height) (happlies' : Applies code ref block height) :
    SameList (applyBlock code m block height).1 (Dash.applyBlock code ref block height).1 := by
  have hfolded : SameList (folded code m block height).1 (folded code ref block height).1 := by
    unfold folded
    apply SameList.foldTxs
    exact { hsame with }
  obtain ⟨hindex, -, hdip, -⟩ := applyBlock_rest happlies
  obtain ⟨hindex', -, hdip', -⟩ := applyBlock_rest happlies'
  have hpart : ∀ (m : MnStateMachine), Applies code m block height → ∀ k,
      ((Dash.applyBlock code m block height).1.entries.lookup k).map MNState.txPart =
        ((folded code m block height).1.entries.lookup k).map MNState.txPart := by
    intro m happlies k
    have hview := congrArg (Option.map Prod.fst) (view_applyBlock happlies k)
    rw [Option.map_map, Option.map_map] at hview
    exact hview
  refine ⟨?_, ?_, ?_⟩
  · intro k
    rw [hpart m happlies k, hpart ref happlies' k]
    exact hfolded.parts k
  · rw [hindex, hindex']
    exact hfolded.collateralIndex
  · rw [hdip, hdip']
    exact hsame.dip0003Height

/-- The machine follows the reference as far as `h` is concerned. -/
structure Follows (h : Uint256) (m ref : MnStateMachine) : Prop where
  same : SameList m ref
  cursor : m.lastAppliedHeight = ref.lastAppliedHeight
  recorded : Recorded h m.lastAppliedHeight m ref

theorem lookup_banAll (bans : Uint256 → Option U32) (m : MnStateMachine) (k : Uint256) :
    (banAll bans m).entries.lookup k = (m.entries.lookup k).map fun st =>
      match bans k with
      | some ban => st.bannedAt ban
      | none => st := by
  unfold banAll
  rw [lookup_mapValues]

theorem lookup_of_banAll {bans : Uint256 → Option U32} {m : MnStateMachine}
    (hst : (banAll bans m).entries.lookup h = some st) :
    ∃ st₀, m.entries.lookup h = some st₀ ∧ st.view = st₀.view := by
  rw [lookup_banAll] at hst
  obtain ⟨st₀, hst₀, heq⟩ := map_eq_some_iff.mp hst
  refine ⟨st₀, hst₀, ?_⟩
  rw [← heq]
  split <;> rfl

theorem SameList.banAll (hsame : SameList m ref)
    (bans : Uint256 → Option U32) : SameList m (banAll bans ref) := by
  refine { hsame with parts := ?_ }
  intro k
  rw [lookup_banAll, hsame.parts k, Option.map_map]
  congr 1
  funext st
  unfold Function.comp
  split <;> rfl

theorem Recorded.banAll (hrec : Recorded h height m ref)
    (bans : Uint256 → Option U32) : Recorded h height m (banAll bans ref) := by
  refine ⟨hrec.bounded, ?_⟩
  intro k st st' hk hst hst' hlt
  obtain ⟨old, hold, hview⟩ := lookup_of_banAll hst'
  unfold MNState.view at hview
  simp only [Prod.mk.injEq] at hview
  rw [hview.2.1]
  exact hrec.recorded k st old hk hst hold hlt

theorem Follows.applies_iff (hfollows : Follows h m ref) (block : Block P) (height : U32) :
    Applies code m block height ↔ Applies code ref block height := by
  unfold Applies
  rw [hfollows.cursor, hfollows.same.consensusRefusal block]

theorem Follows.beforePasses (hfollows : Follows h m ref) :
    SameList (beforePasses m).1 (Dash.beforePasses ref).1 :=
  ⟨hfollows.same.parts, hfollows.same.collateralIndex, hfollows.same.dip0003Height⟩

theorem Follows.step (hfollows : Follows h m ref) (e : HistoryStep P)
    (htxs : Applies code m e.block e.height →
      TxsRecorded code e.height h (Dash.beforePasses m) (Dash.beforePasses ref)
        e.block.txs.tail) :
    Follows h (e.observed code m) (e.reference code ref) := by
  unfold HistoryStep.observed HistoryStep.reference
  by_cases happlies : Applies code m e.block e.height
  · have happlies' := (hfollows.applies_iff e.block e.height).mp happlies
    obtain ⟨-, hledger, -, hcursor⟩ := applyBlock_rest happlies
    obtain ⟨-, -, -, hcursor'⟩ := applyBlock_rest happlies'
    have hbefore : Recorded h e.height (Dash.beforePasses m).1 (Dash.beforePasses ref).1 := by
      refine ⟨?_, hfollows.recorded.recorded⟩
      intro k hk
      have hle := hfollows.recorded.bounded k hk
      by_cases hzero : m.lastAppliedHeight = 0
      · rw [hzero] at hle
        exact hle.trans (Fin.zero_le _)
      have hlt := happlies.1
      simp only [hzero, ne_eq, not_false_eq_true, true_and, not_le] at hlt
      exact hle.trans hlt.le
    have hfolded := hbefore.foldTxs e.block hfollows.beforePasses (htxs happlies)
    refine ⟨(hfollows.same.applyBlock happlies happlies').banAll e.bans, ?_, ?_⟩
    · rw [hcursor]
      exact hcursor'.symm
    rw [hcursor]
    apply Recorded.banAll
    refine ⟨?_, ?_⟩
    · rw [hledger]
      exact hfolded.bounded
    intro k st st' hk hst hst' hlt
    rw [hledger] at hk
    obtain ⟨old, hold, hrevived, -⟩ := lookup_of_applyBlock happlies hst
    obtain ⟨old', hold', hrevived', -⟩ := lookup_of_applyBlock happlies' hst'
    rw [hrevived']
    exact hfolded.recorded k old old' hk hold hold' (hrevived ▸ hlt)
  have happlies' := fun happlies' =>
    happlies ((hfollows.applies_iff e.block e.height).mpr happlies')
  rw [applyBlock_of_not_applies happlies, applyBlock_of_not_applies happlies']
  exact ⟨hfollows.same.banAll e.bans, hfollows.cursor, hfollows.recorded.banAll e.bans⟩

theorem PaidAlike.banAll (hpaid : PaidAlike h m ref) (bans : Uint256 → Option U32) :
    PaidAlike h m (banAll bans ref) := by
  intro st st' hst hst'
  obtain ⟨old, hold, hview⟩ := lookup_of_banAll hst'
  unfold MNState.view at hview
  simp only [Prod.mk.injEq] at hview
  rw [hview.2.2]
  exact hpaid st old hst hold

/-- One block that marks `h` in both machines or in neither. -/
theorem PaidAlike.step (hpaid : PaidAlike h m ref) (hfollows : Follows h m ref) (e : HistoryStep P)
    (hmarked : (payeeDecision code m e.block e.height).marked = some h ↔
      (payeeDecision code ref e.block e.height).marked = some h) :
    PaidAlike h (e.observed code m) (e.reference code ref) := by
  unfold HistoryStep.observed HistoryStep.reference
  apply PaidAlike.banAll
  by_cases happlies : Applies code m e.block e.height
  · have happlies' := (hfollows.applies_iff e.block e.height).mp happlies
    have hbefore : PaidAlike h (Dash.beforePasses m).1 (Dash.beforePasses ref).1 := hpaid
    have hfolded := @PaidAlike.foldTxs P code e.height h _ _ e.block hfollows.beforePasses hbefore
    intro st st' hst hst'
    obtain ⟨old, hold, -, hlast⟩ := lookup_of_applyBlock happlies hst
    obtain ⟨old', hold', -, hlast'⟩ := lookup_of_applyBlock happlies' hst'
    rw [hlast, hlast', hfolded old old' hold hold']
    by_cases hm : (payeeDecision code m e.block e.height).marked = some h
    · rw [if_pos hm, if_pos (hmarked.mp hm)]
    · rw [if_neg hm, if_neg fun hm' => hm (hmarked.mpr hm')]
  have happlies' := fun happlies' =>
    happlies ((hfollows.applies_iff e.block e.height).mpr happlies')
  rw [applyBlock_of_not_applies happlies, applyBlock_of_not_applies happlies']
  exact hpaid

theorem Follows.run (run : List (HistoryStep P)) (hfollows : Follows h m ref)
    (hrun : RunRecorded code h m ref run) :
    Follows h (run.foldl (HistoryStep.observed code) m)
        (run.foldl (HistoryStep.reference code) ref) ∧
      (PaidAlike h m ref → RunPaidAlike code h m ref run →
        PaidAlike h (run.foldl (HistoryStep.observed code) m)
          (run.foldl (HistoryStep.reference code) ref)) := by
  induction run generalizing m ref with
  | nil => exact ⟨hfollows, fun hpaid _ => hpaid⟩
  | cons e run ih =>
    obtain ⟨hlast, hpaid⟩ := ih (hfollows.step e hrun.1) hrun.2
    exact ⟨hlast, fun halike hmarks =>
      hpaid (halike.step hfollows e hmarks.1) hmarks.2⟩

def smlOf (ref : MnStateMachine) : List SmlEntry :=
  ref.entries.entries.map fun e => { proRegTxHash := e.1, isValid := e.2.isValid }

theorem lookup_of_repairRevive {attested : SortedMap Uint256 Bool} {s : MnStateMachine × Nat}
    {e : Uint256 × U32} (hst' : (repairRevive attested s e).1.entries.lookup h = some st') :
    ∃ st, s.1.entries.lookup h = some st ∧ (st' = st ∨
      e.1 = h ∧ st.nPoSeRevivedHeight < e.2 ∧ st' = st.repairRevive e.2) := by
  unfold repairRevive at hst'
  split at hst'
  · rename_i st hattested hst
    split at hst'
    · rename_i hlt
      rw [lookup_insert] at hst'
      split at hst'
      · rename_i heq
        exact ⟨st, heq ▸ hst, Or.inr ⟨heq.symm, hlt, (Option.some.inj hst').symm⟩⟩
      · exact ⟨st', hst', Or.inl rfl⟩
    · exact ⟨st', hst', Or.inl rfl⟩
  · exact ⟨st', hst', Or.inl rfl⟩

theorem lookup_of_repair {sml : List SmlEntry}
    (hst' : (repairUnmeasuredReviveOrdering m sml).1.entries.lookup h = some st') :
    ∃ st, m.entries.lookup h = some st ∧ (st' = st ∨
      ∃ k, m.unmeasuredReviveAt.lookup h = some k ∧ st.nPoSeRevivedHeight < k ∧
        st' = st.repairRevive k) := by
  have hfold : ∀ (l : List (Uint256 × U32)) (s : MnStateMachine × Nat) (st' : MNState),
      (l.foldl (repairRevive (attestations sml)) s).1.entries.lookup h = some st' →
        ∃ st, s.1.entries.lookup h = some st ∧ (st' = st ∨
          ∃ k, (h, k) ∈ l ∧ st.nPoSeRevivedHeight < k ∧ st' = st.repairRevive k) := by
    intro l
    induction l with
    | nil => exact fun _ st' hst' => ⟨st', hst', Or.inl rfl⟩
    | cons e l ih =>
      intro s st' hst'
      obtain ⟨mid, hmid, hlater⟩ := ih _ st' hst'
      obtain ⟨st, hst, hround⟩ := lookup_of_repairRevive hmid
      refine ⟨st, hst, ?_⟩
      rcases hround with rfl | ⟨hkey, hlt, rfl⟩
      · rcases hlater with rfl | ⟨k, hk, hlt, rfl⟩
        · exact Or.inl rfl
        · exact Or.inr ⟨k, mem_cons_of_mem _ hk, hlt, rfl⟩
      right
      rcases hlater with rfl | ⟨k, hk, hlt', rfl⟩
      · refine ⟨e.2, ?_, hlt, rfl⟩
        rw [← hkey]
        exact mem_cons_self
      · exact ⟨k, mem_cons_of_mem _ hk, hlt.trans hlt', rfl⟩
  have hentries : (m.unmeasuredReviveAt.entries.foldl (repairRevive (attestations sml))
      (m, 0)).1.entries.lookup h = some st' := by
    unfold repairUnmeasuredReviveOrdering at hst'
    dsimp only at hst'
    split at hst'
    · exact hst'
    · exact hst'
  obtain ⟨st, hst, heq | ⟨k, hk, hlt, heq⟩⟩ := hfold _ _ _ hentries
  · exact ⟨st, hst, Or.inl heq⟩
  · exact ⟨st, hst, Or.inr ⟨k, mem_entries_iff.mp hk, hlt, heq⟩⟩

/-- In every history whose blocks record for `h` only what revives it in the reference, a revive
height that the repair writes for `h` is the reference's, and so is the payee score when the
machine and the reference mark `h` paid at the same blocks. -/
theorem repair_writes_reference_height (code : ProTxCode P) (start : MnStateMachine)
    (run : List (HistoryStep P)) (h : Uint256) (hstart : start.unmeasuredReviveAt.lookup h = none)
    (hrun : RunRecorded code h start start run) :
    let m := run.foldl (HistoryStep.observed code) start
    let ref := run.foldl (HistoryStep.reference code) start
    ∀ st st', m.entries.lookup h = some st →
      (repairUnmeasuredReviveOrdering m (smlOf ref)).1.entries.lookup h = some st' →
      st'.nPoSeRevivedHeight ≠ st.nPoSeRevivedHeight →
        ∃ st'', ref.entries.lookup h = some st'' ∧
          st'.nPoSeRevivedHeight = st''.nPoSeRevivedHeight ∧
          (RunPaidAlike code h start start run → st'.payeeScore = st''.payeeScore) := by
  intro m ref st st' hst hst' hwritten
  have hinit : Follows h start start := by
    refine ⟨⟨fun _ => rfl, rfl, rfl⟩, rfl, ?_, ?_⟩
    · intro k hk
      rw [hstart] at hk
      simp at hk
    intro k _ _ hk
    rw [hstart] at hk
    simp at hk
  obtain ⟨hfollows, hpaid⟩ := hinit.run run hrun
  have halike : RunPaidAlike code h start start run → PaidAlike h m ref := by
    apply hpaid
    intro a b ha hb
    rw [ha, Option.some.injEq] at hb
    rw [hb]
  obtain ⟨old, hold, hrepair⟩ := lookup_of_repair hst'
  obtain rfl : old = st := by
    rw [hst, Option.some.injEq] at hold
    exact hold.symm
  rcases hrepair with rfl | ⟨k, hk, hlt, rfl⟩
  · exact absurd rfl hwritten
  rcases hfollows.same.parts.cases h with ⟨hnone, -⟩ | ⟨a, st'', ha, hst'', hpart⟩
  · rw [hst] at hnone
    simp at hnone
  obtain rfl : a = old := by
    rw [hst, Option.some.injEq] at ha
    exact ha.symm
  have hrevived : st''.nPoSeRevivedHeight = k :=
    hfollows.recorded.recorded k a st'' hk hst hst'' hlt
  refine ⟨st'', hst'', hrevived.symm, ?_⟩
  intro hmarks
  have hlast := halike hmarks a st'' hst hst''
  unfold MNState.txPart at hpart
  simp only [Prod.mk.injEq] at hpart
  unfold MNState.payeeScore MNState.repairRevive
  dsimp only
  rw [hrevived, hlast, hpart.2.2]

end History

def serviceCode : ProTxCode (Option ProUpServTx) := { plainCode with parseProUpServ := id }

def oneMasternode : MnStateMachine where
  entries := SortedMap.empty.insert 1 { nRegisteredHeight := 5, scriptPayout := [1] }
  lastAppliedHeight := 9

def paysScript (script : Script) (txs : List (Tx (Option ProUpServTx))) :
    Block (Option ProUpServTx) where
  txs := { vout := [{ value := 5, scriptPubKey := script }], extraPayload := none } :: txs

def serviceUpdate : Tx (Option ProUpServTx) where
  version := 3
  type := 2
  extraPayload := some { proTxHash := 1 }

/-- The masternode is paid and banned at 10 and revived at 11, where the network pays no
masternode. -/
def bannedThenRevived : List (HistoryStep (Option ProUpServTx)) :=
  [{ block := paysScript [1] []
     height := 10
     bans := fun h => if h = 1 then some 10 else none },
    { block := paysScript [9] [serviceUpdate]
      height := 11
      bans := fun _ => none }]

def twoMasternodes : MnStateMachine where
  entries :=
    (SortedMap.empty.insert 1 { nLastPaidHeight := 8, scriptPayout := [1] }).insert 2
      { nLastPaidHeight := 7, scriptPayout := [2] }
  lastAppliedHeight := 9

def neverBanned : List (HistoryStep (Option ProUpServTx)) :=
  [{ block := paysScript [2] [serviceUpdate]
     height := 10
     bans := fun _ => none }]

theorem runRecorded_bannedThenRevived :
    RunRecorded serviceCode 1 oneMasternode oneMasternode bannedThenRevived := by
  have hban : ((HistoryStep.reference serviceCode oneMasternode
      { block := paysScript [1] []
        height := 10
        bans := fun h => if h = 1 then some 10 else none }).entries.lookup 1).map
      MNState.nPoSeBanHeight = some 10 := by decide +kernel
  refine ⟨fun _ => trivial, fun _ => ⟨⟨?_, ?_⟩, trivial⟩, trivial⟩
  · intro htype
    exact absurd htype (by decide)
  intro _ ptx _ _ st st' _ hst' _
  rw [if_neg (by decide +kernel)]
  left
  have hst'' : (HistoryStep.reference serviceCode oneMasternode
      { block := paysScript [1] []
        height := 10
        bans := fun h => if h = 1 then some 10 else none }).entries.lookup 1 = some st' := hst'
  rw [hst'', map_some, Option.some.injEq] at hban
  rw [hban]
  decide

theorem repair_writes_revived_height :
    ∃ st' st'', (repairUnmeasuredReviveOrdering
        (bannedThenRevived.foldl (HistoryStep.observed serviceCode) oneMasternode)
        (smlOf (bannedThenRevived.foldl (HistoryStep.reference serviceCode)
          oneMasternode))).1.entries.lookup 1 = some st' ∧
      (bannedThenRevived.foldl (HistoryStep.reference serviceCode)
        oneMasternode).entries.lookup 1 = some st'' ∧
      st'.nPoSeRevivedHeight = st''.nPoSeRevivedHeight ∧ st'.payeeScore = st''.payeeScore := by
  obtain ⟨st, hst⟩ := isSome_iff_exists.mp (show ((bannedThenRevived.foldl
    (HistoryStep.observed serviceCode) oneMasternode).entries.lookup 1).isSome by decide +kernel)
  obtain ⟨st', hst'⟩ := isSome_iff_exists.mp (show ((repairUnmeasuredReviveOrdering
    (bannedThenRevived.foldl (HistoryStep.observed serviceCode) oneMasternode)
    (smlOf (bannedThenRevived.foldl (HistoryStep.reference serviceCode)
      oneMasternode))).1.entries.lookup 1).isSome by decide +kernel)
  have hbefore : ((bannedThenRevived.foldl (HistoryStep.observed serviceCode)
      oneMasternode).entries.lookup 1).map MNState.nPoSeRevivedHeight = some 0 := by
    decide +kernel
  have hafter : ((repairUnmeasuredReviveOrdering
      (bannedThenRevived.foldl (HistoryStep.observed serviceCode) oneMasternode)
      (smlOf (bannedThenRevived.foldl (HistoryStep.reference serviceCode)
        oneMasternode))).1.entries.lookup 1).map MNState.nPoSeRevivedHeight = some 11 := by
    decide +kernel
  rw [hst, map_some, Option.some.injEq] at hbefore
  rw [hst', map_some, Option.some.injEq] at hafter
  obtain ⟨st'', hst'', hrevived, hscore⟩ :=
    repair_writes_reference_height serviceCode oneMasternode bannedThenRevived 1 rfl
      runRecorded_bannedThenRevived st st' hst hst' (by rw [hbefore, hafter]; decide)
  exact ⟨st', st'', hst', hst'', hrevived, hscore ⟨by decide +kernel, by decide +kernel, trivial⟩⟩

/-- A plain service update of a masternode that was never banned is written as a revival, and
moves the masternode back in the queue. -/
theorem repair_writes_unbanned :
    ((repairUnmeasuredReviveOrdering
        (neverBanned.foldl (HistoryStep.observed serviceCode) twoMasternodes)
        (smlOf (neverBanned.foldl (HistoryStep.reference serviceCode)
          twoMasternodes))).1.entries.lookup 1).map
        (fun st => (st.nPoSeRevivedHeight, st.payeeScore)) = some (10, 10) ∧
      ((neverBanned.foldl (HistoryStep.observed serviceCode) twoMasternodes).entries.lookup 1).map
        (fun st => (st.nPoSeRevivedHeight, st.payeeScore)) = some (0, 8) ∧
      ((neverBanned.foldl (HistoryStep.reference serviceCode)
        twoMasternodes).entries.lookup 1).map
        (fun st => (st.nPoSeRevivedHeight, st.payeeScore)) = some (0, 8) := by
  decide +kernel

end C2Pool.Dash
