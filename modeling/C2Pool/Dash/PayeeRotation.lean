import C2Pool.Dash.PayoutSplit
import C2Pool.Dash.RecoveryWalk

/-! # Turns of payment

Without special transactions and spends, the payee that a block pays goes to the
end of the queue and the others keep their order: `rank_payee_candidates` before
a row of such blocks names the payees of all of them.
-/

namespace C2Pool.Dash

open List SortedMap

variable {entries : Entries} {st : MNState} {h : Uint256} {queue : List Uint256} {who : Uint256}

theorem payeeCandidates_perm (hst : entries.lookup h = some st) (hel : st.Eligible) :
    (payeeCandidates entries).Perm ((st.payeeScore, h) :: payeeCandidates (entries.erase h)) := by
  have hperm := ((entries_perm hst).filter fun e => e.2.Eligible).map fun e => (e.2.payeeScore, e.1)
  rw [filter_cons_of_pos (by simpa using hel), map_cons] at hperm
  exact hperm

theorem payeeQueue_insert {st st' : MNState} (hqueue : payeeQueue entries = who :: queue)
    (hst : entries.lookup who = some st) (hel : st.Eligible) (hel' : st'.Eligible)
    (hlast : ∀ c ∈ payeeCandidates entries, c.1 < st'.payeeScore) :
    payeeQueue (entries.insert who st') = queue ++ [who] := by
  rw [payeeQueue_eq] at hqueue ⊢
  obtain ⟨⟨score, h⟩, rest, hsorted, rfl, hrest⟩ := map_eq_cons_iff.mp hqueue
  have hperm : (sortedCandidates (payeeCandidates entries)).Perm (payeeCandidates entries) :=
    perm_insertionSort ByLastPaid _
  have hscore : score = st.payeeScore := by
    have hmem : (score, h) ∈ payeeCandidates entries :=
      hperm.subset (by rw [hsorted]; exact mem_cons_self)
    obtain ⟨e, he, heq⟩ := mem_map.mp hmem
    have hkey : e.1 = h := congrArg Prod.snd heq
    have hlookup := mem_entries_iff.mp (mem_filter.mp he).1
    rw [hkey, hst, Option.some_inj] at hlookup
    rw [hlookup]
    exact (congrArg Prod.fst heq).symm
  rw [hsorted, hscore] at hperm
  have hothers : rest.Perm (payeeCandidates (entries.erase h)) :=
    (hperm.trans (payeeCandidates_perm hst hel)).cons_inv
  have hnew : (payeeCandidates (entries.insert h st')).Perm (rest ++ [(st'.payeeScore, h)]) := by
    have hfound : (entries.insert h st').lookup h = some st' := by
      rw [lookup_insert, if_pos rfl]
    have hinsert := payeeCandidates_perm hfound hel'
    rw [erase_insert] at hinsert
    exact hinsert.trans ((hothers.symm.cons _).trans (perm_append_singleton _ _).symm)
  have hall : (sortedCandidates (payeeCandidates entries)).Pairwise ByLastPaid :=
    pairwise_insertionSort ByLastPaid _
  rw [hsorted] at hall
  have hturned : (rest ++ [(st'.payeeScore, h)]).Pairwise ByLastPaid := by
    refine pairwise_append.mpr ⟨(pairwise_cons.mp hall).2, pairwise_singleton _ _, ?_⟩
    intro a ha b hb
    rw [mem_singleton.mp hb, byLastPaid_iff]
    refine le_of_lt (Prod.Lex.toLex_lt_toLex.mpr (.inl (hlast a ?_)))
    exact hperm.subset (mem_cons_of_mem _ ha)
  have heq : sortedCandidates (payeeCandidates (entries.insert h st')) =
      rest ++ [(st'.payeeScore, h)] := by
    refine ((perm_insertionSort ByLastPaid _).trans hnew).eq_of_pairwise
      (fun a b _ _ hab hba => ?_) (pairwise_insertionSort ByLastPaid _) hturned
    rw [byLastPaid_iff] at hab hba
    exact payeeKey_injective (le_antisymm hab hba)
  rw [heq, map_append, hrest]
  rfl

theorem mem_payeeQueue :
    h ∈ payeeQueue entries ↔ ∃ st, entries.lookup h = some st ∧ st.Eligible := by
  have hperm := perm_insertionSort ByLastPaid (payeeCandidates entries)
  rw [payeeQueue_eq, sortedCandidates, (hperm.map Prod.snd).mem_iff, payeeCandidates, map_map]
  simp [mem_entries_iff]

theorem nodup_payeeQueue (entries : Entries) : (payeeQueue entries).Nodup := by
  have hperm := perm_insertionSort ByLastPaid (payeeCandidates entries)
  rw [payeeQueue_eq, sortedCandidates, (hperm.map Prod.snd).nodup_iff, payeeCandidates, map_map]
  have hkeys : (entries.entries.map Prod.fst).Nodup :=
    pairwise_map.mpr (entries.sorted.imp fun hlt => hlt.ne)
  exact hkeys.sublist (filter_sublist.map _)

def eligibleSize (entries : Entries) : Nat := (entries.entries.filter fun e => e.2.Eligible).length

theorem length_payeeQueue (entries : Entries) :
    (payeeQueue entries).length = eligibleSize entries := by
  rw [payeeQueue_eq, length_map, sortedCandidates, length_insertionSort, payeeCandidates,
    length_map,
    eligibleSize]

/-! ## One turn -/

namespace MNState

theorem payeeScore_markPaid {height : U32} (hpos : 0 < height.val) (hlow : height.val < 2 ^ 31)
    (hscore : st.payeeScore < height.val) : (st.markPaid height).payeeScore = height.val := by
  have hsane : saneHeight height = height := if_neg (by omega)
  have hint : toInt32 height = height.val := if_pos hlow
  have hrevived : toInt32 (saneHeight st.nPoSeRevivedHeight) < height.val ∨
      saneHeight st.nPoSeRevivedHeight = 0 := by
    unfold payeeScore at hscore
    dsimp only at hscore
    split at hscore
    · exact .inl hscore
    rename_i hnot
    by_cases hzero : saneHeight st.nPoSeRevivedHeight = 0
    · exact .inr hzero
    · have hle := not_lt.mp fun hlt => hnot ⟨hzero, hlt⟩
      split at hscore <;> exact .inl (by omega)
  unfold payeeScore markPaid
  dsimp only
  rw [hsane, hint]
  rcases hrevived with hlt | hzero
  · rw [if_neg (by omega), if_neg (by omega)]
  · rw [if_neg (fun h => h.1 hzero), if_neg (by omega)]

theorem observePayoutSplit_score (ambiguous : Bool) (outs : List TxOut) (st : MNState) :
    (st.observePayoutSplit ambiguous outs).1.payeeScore = st.payeeScore ∧
      ((st.observePayoutSplit ambiguous outs).1.Eligible ↔ st.Eligible) := by
  unfold observePayoutSplit
  dsimp only
  repeat' split
  all_goals exact ⟨rfl, Iff.rfl⟩

end MNState

section Turns

variable {P : Type} {code : ProTxCode P} {m : MnStateMachine} {block : Block P} {height : U32}

/-- The block is accepted, has no special transactions, spends no collateral and pays the script of
the projected payee. -/
structure PaysInTurn (code : ProTxCode P) (m : MnStateMachine) (block : Block P) (height : U32) :
    Prop where
  accepted : consensusRefusal code m block height = none
  plain : ∀ tx ∈ block.txs.tail, tx.type = 0
  unspent : ∀ tx ∈ block.txs.tail, ∀ i ∈ tx.vin, m.collateralIndex.lookup i.prevout = none
  pays : ∀ h ∈ (payeeQueue m.entries).head?, paidInCb block.coinbaseOuts (scriptBefore m h) = true

theorem foldl_of_fixed {A B : Type} {f : A → B → A} {s : A} {l : List B}
    (h : ∀ x ∈ l, f s x = s) : l.foldl f s = s := by
  induction l with
  | nil => rfl
  | cons x l ih =>
    rw [foldl_cons, h x mem_cons_self]
    exact ih fun y hy => h y (mem_cons_of_mem _ hy)

theorem foldTxs_of_plain {s : Applying} (hplain : ∀ tx ∈ block.txs.tail, tx.type = 0)
    (hunspent : ∀ tx ∈ block.txs.tail, ∀ i ∈ tx.vin, s.1.collateralIndex.lookup i.prevout = none) :
    foldTxs code height block s = s := by
  have hspecial : specialTxs code height s block.txs.tail = s := by
    refine foldl_of_fixed fun tx htx => ?_
    unfold applySpecialTx
    rw [hplain tx htx]
    rfl
  unfold foldTxs collateralSpends
  rw [hspecial]
  refine foldl_of_fixed fun o ho => ?_
  obtain ⟨tx, htx, ho⟩ := mem_flatMap.mp ho
  obtain ⟨i, hi, rfl⟩ := mem_map.mp ho
  rw [spendCollateral, hunspent tx htx i hi]

def TurnReady (m : MnStateMachine) (height : Nat) : Prop :=
  m.lastAppliedHeight.val + 1 = height ∧
    ∀ h st, m.entries.lookup h = some st → st.Eligible → st.payeeScore < height

/-- **One turn**: the head of the queue is marked paid and goes to its end. -/
theorem applyBlock_turn {height : Nat} (hready : TurnReady m height) (hlow : height < 2 ^ 31)
    (hqueue : payeeQueue m.entries = who :: queue)
    (hpays : PaysInTurn code m block (Fin.ofNat (2 ^ 32) height)) :
    ∃ st, (applyBlock code m block (Fin.ofNat (2 ^ 32) height)).1.entries =
      m.entries.insert who st ∧
      st.nLastPaidHeight = Fin.ofNat (2 ^ 32) height ∧
      payeeQueue (applyBlock code m block (Fin.ofNat (2 ^ 32) height)).1.entries = queue ++ [who] ∧
      TurnReady (applyBlock code m block (Fin.ofNat (2 ^ 32) height)).1 (height + 1) := by
  obtain ⟨hcursor, hscores⟩ := hready
  have hval : (Fin.ofNat (2 ^ 32) height).val = height := Nat.mod_eq_of_lt (by omega)
  generalize Fin.ofNat (2 ^ 32) height = at_ at hval hpays
  have hfolded : folded code m block at_ =
      ({ m with pending := {} }, { projectedPayee := (queueBefore m).head? }) :=
    foldTxs_of_plain hpays.plain hpays.unspent
  obtain ⟨st, hst, hel⟩ := mem_payeeQueue.mp (hqueue ▸ mem_cons_self)
  have hpaid := hpays.pays who (by rw [hqueue]; rfl)
  have hproj : Projects code m block at_ who := by
    refine ⟨⟨?_, ?_, hpays.accepted⟩, ?_, ?_, ?_⟩
    · rw [Fin.le_def]
      omega
    · have hnext : (m.lastAppliedHeight + 1).val = height := by
        rw [Fin.val_add]
        exact (Nat.mod_eq_of_lt (by simp; omega)).trans hcursor
      rw [Fin.lt_def]
      omega
    · rw [queueBefore, rankPayeeCandidates, hqueue]
      rfl
    · intro hnone
      simp [paidInCb, Block.coinbaseOuts, hnone] at hpaid
    · rw [hfolded, hst]
      simp
  obtain ⟨st', s, hst', hs, hm, -⟩ := applyBlock_of_projects hproj
  rw [hfolded, hst, Option.some_inj] at hst'
  subst hst'
  rw [hfolded, resolvePayee_of_paid hpaid rfl] at hs
  obtain ⟨hscore, helig⟩ := MNState.observePayoutSplit_score (m.ambiguousHeight at_)
    block.coinbaseOuts (st.markPaid at_)
  have hlast := nLastPaidHeight_observePayoutSplit (m.ambiguousHeight at_) block.coinbaseOuts
    (st.markPaid at_)
  have hentries : (applyBlock code m block at_).1.entries = m.entries.insert who
      ((st.markPaid at_).observePayoutSplit (m.ambiguousHeight at_) block.coinbaseOuts).1 := by
    rw [hm, hs]
    rfl
  generalize ((st.markPaid at_).observePayoutSplit (m.ambiguousHeight at_)
    block.coinbaseOuts).1 = paid at hscore helig hlast hentries
  rw [MNState.payeeScore_markPaid (by omega) (by omega)
    (by rw [hval]; exact hscores who st hst hel),
    hval] at hscore
  refine ⟨paid, hentries, hlast, ?_, ?_, ?_⟩
  · rw [hentries]
    refine payeeQueue_insert hqueue hst hel (helig.mpr hel) fun c hc => ?_
    obtain ⟨e, he, rfl⟩ := mem_map.mp hc
    obtain ⟨hmem, heligible⟩ := mem_filter.mp he
    rw [hscore]
    exact hscores e.1 e.2 (mem_entries_iff.mp hmem) (of_decide_eq_true heligible)
  · rw [hm]
    exact congrArg (· + 1) hval
  · intro h st' hst' hel'
    rw [hentries, lookup_insert] at hst'
    split at hst'
    · cases hst'
      rw [hscore]
      omega
    · have := hscores h st' hst' hel'
      omega

def applyBlocks (code : ProTxCode P) : MnStateMachine → Nat → List (Block P) → MnStateMachine
  | m, _, [] => m
  | m, height, block :: blocks =>
    applyBlocks code (applyBlock code m block (Fin.ofNat (2 ^ 32) height)).1 (height + 1) blocks

def AllPayInTurn (code : ProTxCode P) : MnStateMachine → Nat → List (Block P) → Prop
  | _, _, [] => True
  | m, height, block :: blocks =>
    PaysInTurn code m block (Fin.ofNat (2 ^ 32) height) ∧
      AllPayInTurn code (applyBlock code m block (Fin.ofNat (2 ^ 32) height)).1 (height + 1) blocks

def MarksPaid (code : ProTxCode P) (m : MnStateMachine) (block : Block P) (height : Nat)
    (who : Uint256) : Prop :=
  ∃ st, (applyBlock code m block (Fin.ofNat (2 ^ 32) height)).1.entries = m.entries.insert who st ∧
    st.nLastPaidHeight.val = height

theorem marksPaid_in_turn {height : Nat} {blocks : List (Block P)} (hready : TurnReady m height)
    (hlow : height + blocks.length ≤ 2 ^ 31)
    (hlength : blocks.length ≤ (payeeQueue m.entries).length)
    (hpays : AllPayInTurn code m height blocks) {i : Nat} (hi : blocks[i]? = some block) :
    ∃ who, (payeeQueue m.entries)[i]? = some who ∧
      MarksPaid code (applyBlocks code m height (blocks.take i)) block (height + i) who := by
  induction blocks generalizing m height i with
  | nil => cases hi
  | cons first blocks ih =>
    cases hqueue : payeeQueue m.entries with
    | nil => simp [hqueue] at hlength
    | cons who queue =>
      simp only [hqueue, length_cons] at hlength hlow
      obtain ⟨st, hentries, hpaid, hturned, hnext⟩ :=
        applyBlock_turn hready (by omega) hqueue hpays.1
      cases i with
      | zero =>
        cases hi
        refine ⟨who, rfl, st, hentries, ?_⟩
        rw [hpaid]
        exact Nat.mod_eq_of_lt (by omega)
      | succ i =>
        obtain ⟨who', hwho', hmarks⟩ := ih hnext (by omega)
          (by rw [hturned, length_append, length_singleton]; omega) hpays.2 hi
        refine ⟨who', ?_, ?_⟩
        · have hin : i < queue.length := by
            have := (List.getElem?_eq_some_iff.mp hi).1
            simp only [length_cons] at this
            omega
          rw [hturned, getElem?_append_left hin] at hwho'
          exact hwho'
        · rw [Nat.add_assoc, Nat.add_comm 1] at hmarks
          exact hmarks

/-- **Payments take turns.**  Over blocks that pay the projected payee and touch no masternode
otherwise, the payee at `H + i` is entry `i` of the ranking from before `H`; so over as many blocks
as there are eligible masternodes each of them is paid once. -/
theorem payments_rotate (code : ProTxCode P) (m : MnStateMachine) (height : Nat)
    (blocks : List (Block P)) (hcursor : m.lastAppliedHeight.val + 1 = height)
    (hscores : ∀ h st, m.entries.lookup h = some st → st.Eligible → st.payeeScore < height)
    (hlow : height + blocks.length ≤ 2 ^ 31) (hlength : blocks.length ≤ eligibleSize m.entries)
    (hpays : AllPayInTurn code m height blocks) :
    (∀ i block, blocks[i]? = some block →
      ∃ who, (rankPayeeCandidates m.entries blocks.length)[i]? = some who ∧
        MarksPaid code (applyBlocks code m height (blocks.take i)) block (height + i) who) ∧
      (blocks.length = eligibleSize m.entries → ∀ h,
        (∃ st, m.entries.lookup h = some st ∧ st.Eligible) ↔
          ∃! i : Nat, (rankPayeeCandidates m.entries blocks.length)[i]? = some h) := by
  rw [← length_payeeQueue] at hlength ⊢
  constructor
  · intro i block hi
    obtain ⟨who, hwho, hmarks⟩ := marksPaid_in_turn ⟨hcursor, hscores⟩ hlow hlength hpays hi
    refine ⟨who, ?_, hmarks⟩
    rw [rankPayeeCandidates, getElem?_take_of_lt (List.getElem?_eq_some_iff.mp hi).1]
    exact hwho
  intro hall h
  rw [rankPayeeCandidates, hall, take_length, ← mem_payeeQueue, mem_iff_getElem?]
  constructor
  · rintro ⟨i, hi⟩
    refine ⟨i, hi, fun j hj => ?_⟩
    exact (getElem?_inj (List.getElem?_eq_some_iff.mp hj).1 (nodup_payeeQueue m.entries)).mp
      (hj.trans hi.symm)
  · rintro ⟨i, hi, -⟩
    exact ⟨i, hi⟩

def plainBlock (script : Script) : Block Unit where
  txs := [{ vout := [{ value := 5, scriptPubKey := script }], extraPayload := () }]

theorem payments_rotate_three :
    rankPayeeCandidates (sharedScripts firstBanned).entries 3 = [1, 2, 3] ∧
      MarksPaid plainCode (applyBlocks plainCode (sharedScripts firstBanned) 11
        [plainBlock [1], plainBlock [7]]) (plainBlock [7]) 13 3 := by
  have hturn := (payments_rotate plainCode (sharedScripts firstBanned) 11
    [plainBlock [1], plainBlock [7], plainBlock [7]] rfl ?_ (by decide)
      (by decide +kernel) ?_).1 2 _
    rfl
  · obtain ⟨who, hwho, hmarks⟩ := hturn
    have hthird : who = 3 := Option.some.inj (hwho.symm.trans (by decide +kernel))
    rw [hthird] at hmarks
    exact ⟨by decide +kernel, hmarks⟩
  · have hall : ∀ e ∈ (sharedScripts firstBanned).entries.entries, e.2.payeeScore < 11 := by
      decide +kernel
    exact fun h st hst _ => hall (h, st) (mem_entries_iff.mpr hst)
  · have hpays {m : MnStateMachine} {script : Script} (h : Uint256)
        (hhead : (payeeQueue m.entries).head? = some h)
        (hpaid : paidInCb (plainBlock script).coinbaseOuts (scriptBefore m h) = true) :
        ∀ h ∈ (payeeQueue m.entries).head?,
          paidInCb (plainBlock script).coinbaseOuts (scriptBefore m h) = true := by
      rintro h' hmem
      rwa [Option.mem_unique hmem hhead]
    refine ⟨⟨?_, ?_, ?_, hpays 1 ?_ ?_⟩, ⟨?_, ?_, ?_, hpays 2 ?_ ?_⟩, ⟨?_, ?_, ?_, hpays 3 ?_ ?_⟩,
      trivial⟩
    all_goals decide +kernel

end Turns

end C2Pool.Dash
