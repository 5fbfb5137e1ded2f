import C2Pool.Dash.PayeeQueue

/-! # The recovery walk

When the coinbase does not pay the projected masternode, a list that attests it invalid lets
`apply_block` and `readjudicate_payee` pass the payment on to a runner-up. The walk asks the list
about the candidates it demotes only, and it reads the scripts that the block has already changed.
-/

namespace C2Pool.Dash

open List

theorem walkFrom_accepted {entries : Entries} {attest : Uint256 → Option Bool}
    {paid : Script → Bool} {queue demoted : List Uint256} {who : Uint256}
    (h : (walkFrom entries attest paid demoted queue).accepted = some who) :
    ∃ first between tail st, queue = first :: between ++ who :: tail ∧
      attest first = some false ∧ (∀ x ∈ between, attest x = some false) ∧
      (∀ x ∈ between, ∀ st, entries.lookup x = some st → ¬ paid st.firstPayoutScript) ∧
      entries.lookup who = some st ∧ paid st.firstPayoutScript := by
  induction queue generalizing demoted with
  | nil => simp [walkFrom] at h
  | cons candidate queue ih =>
    cases queue with
    | nil => simp [walkFrom] at h
    | cons next rest =>
      unfold walkFrom at h
      cases hattest : attest candidate with
      | none => simp [hattest] at h
      | some valid =>
        cases valid with
        | true => simp [hattest] at h
        | false =>
          cases hnext : entries.lookup next with
          | none => simp [hattest, hnext] at h
          | some st =>
            simp only [hattest, hnext] at h
            by_cases hpaid : paid st.firstPayoutScript
            · simp only [hpaid, if_true, Option.some.injEq] at h
              subst h
              exact ⟨candidate, [], rest, st, rfl, hattest, by simp, by simp, hnext, hpaid⟩
            simp only [hpaid, if_false, Bool.false_eq_true] at h
            obtain ⟨first, between, tail, st', hqueue, hfirst, hinvalid, hunpaid,
              hwho, hpays⟩ := ih h
            obtain ⟨rfl, hrest⟩ := List.cons.inj hqueue
            refine ⟨candidate, next :: between, tail, st', by simp [hrest], hattest,
              ?_, ?_, hwho, hpays⟩
            · intro x hx
              rcases mem_cons.mp hx with rfl | hx
              · exact hfirst
              · exact hinvalid x hx
            intro x hx st'' hst''
            rcases mem_cons.mp hx with rfl | hx
            · rw [hnext] at hst''
              rw [← Option.some.inj hst'']
              exact hpaid
            · exact hunpaid x hx st'' hst''

section Walk

variable {P : Type} {code : ProTxCode P} {m : MnStateMachine} {block : Block P} {height : U32}
  {attest : Uint256 → Option Bool} {who : Uint256} {sml : List SmlEntry}

/-- `who` is the first masternode of the payment order before the block that is not attested
invalid, and the one that `apply_block` marks paid when all that are attested invalid were banned
before the block. -/
def PaysFirstUnbanned (code : ProTxCode P) (m : MnStateMachine) (block : Block P) (height : U32)
    (attest : Uint256 → Option Bool) (ban : U32) (who : Uint256) : Prop :=
  ((payeeQueue m.entries).find? fun h => attest h ≠ some false) = some who ∧
    payeeDecision code (banAttested attest ban m) block height = .paid who

/-- No runner-up among the leading candidates that are attested invalid is paid by the coinbase,
and the first candidate that is not attested invalid is paid at its old script when it is at its
new one. -/
def WalkSound (code : ProTxCode P) (m : MnStateMachine) (block : Block P) (height : U32)
    (attest : Uint256 → Option Bool) : Prop :=
  (∀ h ∈ ((queueBefore m).takeWhile fun h => attest h = some false).tail,
      ∀ st, (folded code m block height).1.entries.lookup h = some st →
        ¬ paidInCb block.coinbaseOuts st.firstPayoutScript) ∧
    ∀ h, ((queueBefore m).find? fun h => attest h ≠ some false) = some h →
      ∀ st, (folded code m block height).1.entries.lookup h = some st →
        paidInCb block.coinbaseOuts st.firstPayoutScript →
          paidInCb block.coinbaseOuts (scriptBefore m h)

theorem head_queueBefore_banAttested (attest : Uint256 → Option Bool) (ban : U32) :
    (queueBefore (banAttested attest ban m)).head? =
      (payeeQueue m.entries).find? fun h => attest h ≠ some false := by
  unfold queueBefore rankPayeeCandidates kPayeeCandidates
  rw [payeeQueue_banAttested, head?_take]
  simp

theorem find?_of_queueBefore {h : Uint256}
    (hfind : ((queueBefore m).find? fun h => attest h ≠ some false) = some h) :
    ((payeeQueue m.entries).find? fun h => attest h ≠ some false) = some h := by
  unfold queueBefore rankPayeeCandidates at hfind
  rw [← take_append_drop kPayeeCandidates (payeeQueue m.entries), find?_append, hfind]
  rfl

theorem applies_banAttested (attest : Uint256 → Option Bool) (ban : U32) :
    Applies code (banAttested attest ban m) block height ↔ Applies code m block height := by
  unfold Applies
  rw [← (@sameList_banAttested attest ban m).consensusRefusal block]
  rfl

theorem survives_banAttested (attest : Uint256 → Option Bool) (ban : U32) (h : Uint256) :
    (folded code (banAttested attest ban m) block height).1.entries.lookup h ≠ none ↔
      (folded code m block height).1.entries.lookup h ≠ none := by
  have hsame : SameList (folded code m block height).1
      (folded code (banAttested attest ban m) block height).1 := by
    have hbefore := @sameList_banAttested attest ban m
    apply SameList.foldTxs
    exact { hbefore with }
  have hsome := hsame.parts.isSome_eq h
  rw [← Option.isSome_iff_ne_none, ← Option.isSome_iff_ne_none, hsome]

theorem payeeDecision_banAttested
    (hfirst : ((payeeQueue m.entries).find? fun h => attest h ≠ some false) = some who)
    (happlies : Applies code m block height) (hcoinbase : block.txs ≠ [])
    (hsurvives : (folded code m block height).1.entries.lookup who ≠ none) (ban : U32) :
    payeeDecision code (banAttested attest ban m) block height = .paid who ↔
      paidInCb block.coinbaseOuts (scriptBefore m who) := by
  have hattest : attest who ≠ some false := by
    simpa using find?_some hfirst
  have hp : Projects code (banAttested attest ban m) block height who :=
    ⟨(applies_banAttested attest ban).mpr happlies,
      (head_queueBefore_banAttested attest ban).trans hfirst, hcoinbase,
      (survives_banAttested attest ban who).mpr hsurvives⟩
  have hscript : scriptBefore (banAttested attest ban m) who = scriptBefore m who := by
    unfold scriptBefore
    rw [lookup_banAttested hattest]
  rw [payeeDecision_of_projects hp, hscript]
  by_cases hpaid : paidInCb block.coinbaseOuts (scriptBefore m who)
  · simp [hpaid]
  simp only [hpaid, if_false, Bool.false_eq_true, iff_false]
  split
  · simp
  split
  · simp
  · split <;> simp

theorem paysFirstUnbanned_iff {before tail : List Uint256} {st : MNState}
    (hqueue : queueBefore m = before ++ who :: tail) (hbefore : ∀ x ∈ before, attest x = some false)
    (hunpaid : ∀ x ∈ before.tail, ∀ st,
      (folded code m block height).1.entries.lookup x = some st →
        ¬ paidInCb block.coinbaseOuts st.firstPayoutScript)
    (hwho : (folded code m block height).1.entries.lookup who = some st)
    (hpays : paidInCb block.coinbaseOuts st.firstPayoutScript)
    (hsecond : attest who = some false → before ≠ []) (happlies : Applies code m block height)
    (hcoinbase : block.txs ≠ []) (ban : U32) :
    PaysFirstUnbanned code m block height attest ban who ↔
      WalkSound code m block height attest := by
  by_cases hattest : attest who = some false
  · -- the accepted candidate is banned itself
    have hne := hsecond hattest
    constructor
    · intro h
      have := find?_some h.1
      simp [hattest] at this
    intro h
    obtain ⟨first, rest, rfl⟩ := exists_cons_of_ne_nil hne
    have hlead : (queueBefore m).takeWhile (fun h => decide (attest h = some false)) =
        (first :: rest) ++ who :: (tail.takeWhile fun h => decide (attest h = some false)) := by
      rw [hqueue, takeWhile_append_of_pos (fun x hx => decide_eq_true (hbefore x hx))]
      simp [hattest]
    have hmem : who ∈ ((queueBefore m).takeWhile
        fun h => decide (attest h = some false)).tail := by
      rw [hlead]
      simp
    exact absurd hpays (h.1 who hmem st hwho)
  have hlead : (queueBefore m).takeWhile (fun h => decide (attest h = some false)) = before := by
    rw [hqueue, takeWhile_append_of_pos (fun x hx => decide_eq_true (hbefore x hx))]
    simp [hattest]
  have hfind : ((queueBefore m).find? fun h => decide (attest h ≠ some false)) = some who := by
    rw [hqueue, find?_append, find?_eq_none.mpr]
    · simp [hattest]
    · intro x hx
      simp [hbefore x hx]
  have hfirst := find?_of_queueBefore hfind
  have hmarks := payeeDecision_banAttested hfirst happlies hcoinbase (by simp [hwho]) ban
  unfold PaysFirstUnbanned WalkSound
  rw [hlead, hfind, hfirst, hmarks]
  constructor
  · intro h
    refine ⟨hunpaid, ?_⟩
    intro x hx st' hst' hpaid'
    rw [← Option.some.inj hx]
    exact h.2
  · intro h
    exact ⟨rfl, h.2 who rfl st hwho hpays⟩

/-- The walk of `apply_block` under an installed list that covers the height. -/
theorem paysFirstUnbanned_of_walked {demoted : List Uint256} (hhook : m.smlValidity = some attest)
    (hcovers : m.SmlCovers height)
    (h : payeeDecision code m block height = .walked demoted who) (ban : U32) :
    PaysFirstUnbanned code m block height attest ban who ↔
      WalkSound code m block height attest := by
  obtain ⟨projected, hp, haccepted, -⟩ := applyBlock_of_walked h
  have hattest : (fun h => m.smlAttest h height) = attest := by
    unfold MnStateMachine.smlAttest
    rw [hhook]
    simp only [hcovers, if_true]
  unfold walkOf walkToPaidCandidate at haccepted
  rw [hattest] at haccepted
  split at haccepted
  · simp at haccepted
  obtain ⟨first, between, tail, st, hqueue, hfirst, hinvalid, hunpaid, hwho, hpays⟩ :=
    walkFrom_accepted haccepted
  refine paysFirstUnbanned_iff hqueue ?_ hunpaid hwho hpays (by simp) hp.applies hp.coinbase ban
  intro x hx
  rcases mem_cons.mp hx with rfl | hx
  · exact hfirst
  · exact hinvalid x hx

/-- `readjudicate_payee` takes a payment only for the mismatch of the block it stands on. -/
theorem desync_of_readjudicated (hcursor : m.lastAppliedHeight + 1 = height)
    (h : (readjudicatePayee (applyBlock code m block height).1 block height sml).2.accepted =
      some who) :
    ∃ projected, payeeDecision code m block height = .desync projected := by
  have hlast : (applyBlock code m block height).1.lastAppliedHeight = height := by
    by_contra hne
    unfold readjudicatePayee at h
    split at h
    · simp at h
    split at h
    · simp at h
    · simp at h
  have happlies : Applies code m block height := by
    by_contra hnot
    rw [applyBlock_of_not_applies hnot, ← hcursor] at hlast
    have hval := congrArg Fin.val hlast
    have hone : (1 : U32).val = 1 := rfl
    omega
  by_contra hnone
  push Not at hnone
  have hpending := pending_of_not_desync happlies hnone
  unfold readjudicatePayee at h
  simp [hpending] at h

/-- Whom `readjudicate_payee` accepts: every candidate before it is attested invalid, and none of
the runners-up among them is paid. -/
theorem readjudicatePayee_accepted (hblock : block.txs ≠ [])
    (h : (readjudicatePayee m block height sml).2.accepted = some who) :
    ∃ before tail st, m.pending.ranked = before ++ who :: tail ∧
      (∀ x ∈ before, (attestations sml).lookup x = some false) ∧
      (∀ x ∈ before.tail, ∀ st, m.entries.lookup x = some st →
        ¬ paidInCb block.coinbaseOuts st.firstPayoutScript) ∧
      m.entries.lookup who = some st ∧ paidInCb block.coinbaseOuts st.firstPayoutScript ∧
      ((attestations sml).lookup who = some false → before ≠ []) := by
  obtain ⟨coinbase, txs, hcb⟩ := exists_cons_of_ne_nil hblock
  have houts : block.coinbaseOuts = coinbase.vout := by
    unfold Block.coinbaseOuts
    rw [hcb]
  unfold readjudicatePayee at h
  rw [hcb] at h
  split at h
  · simp at h
  split at h
  · simp at h
  split at h
  · simp at h
  dsimp only at h
  rw [← houts] at h
  cases hhead : readjudicateHead m (attestations sml).lookup (paidInCb block.coinbaseOuts) with
  | some head =>
    simp only [hhead, Option.some.injEq] at h
    subst h
    unfold readjudicateHead at hhead
    split at hhead
    · simp at hhead
    rename_i head' tail hranked
    split at hhead
    · simp at hhead
    rename_i st hst
    split at hhead
    · rename_i hpaid
      simp only [Option.some.injEq] at hhead
      subst hhead
      exact ⟨[], tail, st, by simp [hranked], by simp, by simp, hst, hpaid.1,
        fun hinvalid => absurd hinvalid hpaid.2⟩
    · simp at hhead
  | none =>
    simp only [hhead] at h
    cases haccepted : (walkToPaidCandidate m.entries m.pending.ranked
        (attestations sml).lookup (paidInCb block.coinbaseOuts)).accepted with
    | none => simp [haccepted] at h
    | some accepted =>
      simp only [haccepted, Option.some.injEq] at h
      subst h
      unfold walkToPaidCandidate at haccepted
      split at haccepted
      · simp at haccepted
      obtain ⟨first, between, tail, st, hqueue, hfirst, hinvalid, hunpaid, hwho,
        hpays⟩ := walkFrom_accepted haccepted
      refine ⟨first :: between, tail, st, hqueue, ?_, hunpaid, hwho, hpays, by simp⟩
      intro x hx
      rcases mem_cons.mp hx with rfl | hx
      · exact hfirst
      · exact hinvalid x hx

/-- `readjudicate_payee` after the mismatch of the block. -/
theorem paysFirstUnbanned_of_readjudicated (hcursor : m.lastAppliedHeight + 1 = height)
    (h : (readjudicatePayee (applyBlock code m block height).1 block height sml).2.accepted =
      some who) (ban : U32) :
    PaysFirstUnbanned code m block height (attestations sml).lookup ban who ↔
      WalkSound code m block height (attestations sml).lookup := by
  obtain ⟨projected, hdesync⟩ := desync_of_readjudicated hcursor h
  obtain ⟨hp, -, hafter⟩ := applyBlock_of_desync hdesync
  rw [hafter] at h
  obtain ⟨before, tail, st, hqueue, hbefore, hunpaid, hwho, hpays, hsecond⟩ :=
    readjudicatePayee_accepted hp.coinbase h
  exact paysFirstUnbanned_iff hqueue hbefore hunpaid hwho hpays hsecond hp.applies hp.coinbase ban

theorem readjudicatePayee_of_not_accepted
    (h : (readjudicatePayee m block height sml).2.accepted = none) :
    (readjudicatePayee m block height sml).1 = m := by
  unfold readjudicatePayee at h ⊢
  split
  · rfl
  split
  · rfl
  split
  · rfl
  split
  · rfl
  rename_i hpresent hheight hlast _ coinbase txs hblock
  simp only [hpresent, hheight, hlast, hblock, if_false] at h
  dsimp only
  split
  · rename_i head hhead
    simp [hhead] at h
  rename_i hhead
  split
  · rfl
  · rename_i accepted haccepted
    simp [hhead, haccepted] at h

/-- Whenever the walk of `apply_block` or `readjudicate_payee` attributes a payment, it goes to the
first unbanned masternode exactly when the walk is sound, and a refused walk changes no entry. -/
theorem recovery_pays_first_unbanned_iff (code : ProTxCode P) (m : MnStateMachine)
    (block : Block P) (height : U32) (hcursor : m.lastAppliedHeight + 1 = height) (ban : U32) :
    (∀ attest, m.smlValidity = some attest → m.SmlCovers height → ∀ demoted who,
        payeeDecision code m block height = .walked demoted who →
          (applyBlock code m block height).1.entries =
              commitWalkOutcome (folded code m block height).1.entries height demoted who ∧
            (PaysFirstUnbanned code m block height attest ban who ↔
              WalkSound code m block height attest)) ∧
      (∀ sml who, (readjudicatePayee (applyBlock code m block height).1 block height
          sml).2.accepted = some who →
        (PaysFirstUnbanned code m block height (attestations sml).lookup ban who ↔
          WalkSound code m block height (attestations sml).lookup)) ∧
      (∀ projected, payeeDecision code m block height = .desync projected →
        (applyBlock code m block height).1.entries = (folded code m block height).1.entries) ∧
      ∀ sml, (readjudicatePayee (applyBlock code m block height).1 block height
          sml).2.accepted = none →
        (readjudicatePayee (applyBlock code m block height).1 block height sml).1 =
          (applyBlock code m block height).1 := by
  refine ⟨?_, ?_, ?_, ?_⟩
  · intro attest hhook hcovers demoted who hwalked
    obtain ⟨-, -, -, hentries⟩ := applyBlock_of_walked hwalked
    exact ⟨hentries, paysFirstUnbanned_of_walked hhook hcovers hwalked ban⟩
  · intro sml who haccepted
    exact paysFirstUnbanned_of_readjudicated hcursor haccepted ban
  · intro projected hdesync
    rw [(applyBlock_of_desync hdesync).2.2]
  · intro sml hnone
    exact readjudicatePayee_of_not_accepted hnone

end Walk

def sharedScripts (attest : Uint256 → Option Bool) : MnStateMachine where
  entries :=
    ((SortedMap.empty.insert 1 { nLastPaidHeight := 1, scriptPayout := [1] }).insert 2
      { nLastPaidHeight := 2, scriptPayout := [7] }).insert 3
      { nLastPaidHeight := 3, scriptPayout := [7] }
  smlValidity := some attest
  smlRecoveryCap := 8
  lastAppliedHeight := 10

def paysShared : Block Unit where
  txs := [{ vout := [{ value := 5, scriptPubKey := [7] }], extraPayload := () }]

def firstBanned (h : Uint256) : Option Bool := if h = 1 then some false else some true

def firstTwoBanned (h : Uint256) : Option Bool := if h = 1 ∨ h = 2 then some false else some true

theorem recovery_pays_runner_up :
    payeeDecision plainCode (sharedScripts firstBanned) paysShared 11 = .walked [1] 2 ∧
      WalkSound plainCode (sharedScripts firstBanned) paysShared 11 firstBanned :=
  ⟨by decide +kernel,
    (((recovery_pays_first_unbanned_iff plainCode (sharedScripts firstBanned) paysShared 11
      (by decide) 9).1 firstBanned rfl (by decide) [1] 2 (by decide +kernel)).2).mp
      (by unfold PaysFirstUnbanned; decide +kernel)⟩

/-- The payment of the third masternode is attributed to the second, which is banned. -/
theorem recovery_pays_banned :
    payeeDecision plainCode (sharedScripts firstTwoBanned) paysShared 11 = .walked [1] 2 ∧
      firstTwoBanned 2 = some false ∧
      ¬ PaysFirstUnbanned plainCode (sharedScripts firstTwoBanned) paysShared 11 firstTwoBanned
        9 2 := by
  unfold PaysFirstUnbanned
  decide +kernel

end C2Pool.Dash
