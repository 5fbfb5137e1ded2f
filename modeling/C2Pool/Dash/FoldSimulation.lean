import C2Pool.Dash.FoldAgreement

/-! # Blocks that the fold accepts

A block that `DmlFoldEngine` accepts is applied by `MnStateMachine` with the same
payee, and leaves the two lists as they correspond.
-/

namespace C2Pool.Dash

open List DmlFoldEngine Option

variable {rs : ReplayMNState} {st : MNState} {root : Uint256} {t : Folding}

section Payment

variable {reg : Uint256 → TxPrevOut × U16} {cfg : FoldConfig} {payee : Option Uint256}
  {s : Applying} {t : Folding} {height : U32}

theorem observePayoutSplit_eq (superblock : Bool) (outs : List TxOut) (st : MNState)
    (h : (st.observePayoutSplit superblock outs).2.1 = 0) :
    ∃ prov, (st.observePayoutSplit superblock outs).1 =
      { st with payoutSplitProvenance := prov } := by
  have hself : ∃ prov, st = { st with payoutSplitProvenance := prov } :=
    ⟨st.payoutSplitProvenance, rfl⟩
  unfold MNState.observePayoutSplit at h ⊢
  split
  · exact hself
  rename_i hscript
  rw [if_neg hscript] at h
  split
  · split
    · split
      · exact hself
      · exact ⟨_, rfl⟩
    split
    · split
      · split
        · exact ⟨_, rfl⟩
        · exact hself
      · exact hself
    · exact hself
  rename_i hprov
  rw [hprov] at h
  split
  · exact hself
  rename_i hsuper
  rw [if_neg hsuper] at h
  split
  · rename_i howner hother
    rw [howner, hother] at h
    cases h
  · rename_i own other howner hother
    rw [howner, hother] at h
    dsimp only at h ⊢
    split
    · rename_i hpos
      rw [if_pos hpos] at h
      split
      · rename_i hbps
        rw [if_pos hbps] at h
        cases h
      · exact hself
    · exact hself
  · exact hself

/-- The payment of a masternode that is in both lists. -/
theorem sameEntry_markPaid (h : SameEntry st rs)
    (hheight : 0 < toInt32 height) (prov : SplitProvenance) (consecutive : Int) :
    SameEntry { st.markPaid height with payoutSplitProvenance := prov }
      { rs with nLastPaidHeight := toInt32 height, nConsecutivePayments := consecutive } :=
  { h with nLastPaidHeight := toInt32_of_pos hheight }

theorem SameLists.payeeBookkeeping {m : MnStateMachine}
    (h : SameLists reg m (markPayee (toInt32 height) payee t).1) :
    SameLists reg m (payeeBookkeeping (toInt32 height) payee t).1 := by
  generalize hmark : markPayee (toInt32 height) payee t = marked at h
  have hentries : (DmlFoldEngine.payeeBookkeeping (toInt32 height) payee t).1.entries =
      marked.1.entries.mapValues fun protx st =>
        if st.nType ≠ mnEvo then st
        else if payee = some protx ∧ ¬ marked.1.cfg.gates.mnRrHeight ≤ toInt32 height then st
        else { st with nConsecutivePayments := 0 } := by
    rw [← hmark]
    rfl
  have hindex : (DmlFoldEngine.payeeBookkeeping (toInt32 height) payee t).1.collateralIndex =
      marked.1.collateralIndex := by
    rw [← hmark]
    rfl
  refine h.mapValues hentries hindex ?_ ?_ ?_
  · intro k st rs hsame
    split
    · exact hsame
    split
    · exact hsame
    · exact { hsame with }
  · intro k rs
    split
    · rfl
    · split <;> rfl
  · intro k rs
    split
    · rfl
    · split <;> rfl

end Payment

/-! ## The fold's side -/

section Accepted

variable {P : Type} {code : FoldCode P} {eng : DmlFoldEngine} {block : Block P} {height : U32}
  {scriptPre : Script}

def startResult (eng : DmlFoldEngine) (height : U32) (root : Uint256) : FoldResult :=
  { height := height, committedRoot := root, payee := eng.projectPayee (toInt32 height) }

def startTxs (code : FoldCode P) (eng : DmlFoldEngine) (block : Block P) (height : U32)
    (root : Uint256) : Folding :=
  decreaseScores (confirmPass code (toInt32 height) block.previousBlock
    (beginBlock (eng, startResult eng height root)))

def payeeScript (eng : DmlFoldEngine) (height : U32) : Script :=
  (((eng.projectPayee (toInt32 height)).bind eng.entries.lookup).map
    ReplayMNState.firstPayoutScript).getD []

theorem checkBeforeFold_ok (h : checkBeforeFold code eng block height = .ok root) :
    height = eng.height + 1 ∧ block.txs ≠ [] ∧
      ∀ tx ∈ block.txs.zipIdx, contextualTxCheck tx.1 (tx.2 = 0) = none := by
  unfold checkBeforeFold at h
  iterate 4 (split at h; cases h)
  split at h
  · cases h
  rename_i hheight
  split at h
  · cases h
  split at h
  · cases h
  rename_i coinbase txs htxs
  split at h
  · cases h
  split at h
  · cases h
  rename_i hcontextual
  refine ⟨not_not.mp hheight, by rw [htxs]; exact cons_ne_nil _ _, ?_⟩
  intro tx htx
  rw [findSome?_eq_none_iff] at hcontextual
  exact map_eq_none_iff.mp (hcontextual tx htx)

theorem finishFold_accepted {step : FoldStep} (hstep : (outcome step).2.ok = false)
    (h : (finishFold code block height scriptPre step).2.ok = true) :
    ∃ t, step = .ok t ∧
      finishFold code block height scriptPre step =
        checkPayee code block height scriptPre (checkRoot code (toInt32 height) t) := by
  cases step with
  | error e => exact absurd (hstep.symm.trans h) Bool.false_ne_true
  | ok t =>
    refine ⟨t, rfl, ?_⟩
    unfold finishFold at h ⊢
    dsimp only at h ⊢
    split at h
    · have hok := (@ok_checkRoot P code (toInt32 height) t).trans hstep
      exact absurd (hok.symm.trans h) Bool.false_ne_true
    · rename_i hroot
      rw [if_neg hroot]

theorem foldBlock_of_checked (hcheck : checkBeforeFold code eng block height = .ok root) :
    (∃ protx why, eng.projectPayee (toInt32 height) = some protx ∧
        eng.entries.lookup protx = none ∧ eng.foldBlock code block height =
          (eng.poison why, { startResult eng height root with error := why })) ∨
      eng.foldBlock code block height =
        finishFold code block height (payeeScript eng height)
          (foldPasses code block height (eng.projectPayee (toInt32 height))
            (eng, startResult eng height root)) := by
  unfold foldBlock payeeScript startResult
  rw [hcheck]
  dsimp only
  cases hpayee : eng.projectPayee (toInt32 height) with
  | none => exact Or.inr rfl
  | some protx =>
    dsimp only [map_some, bind_some]
    cases hlookup : eng.entries.lookup protx with
    | none => exact Or.inl ⟨protx, _, rfl, hlookup, rfl⟩
    | some rs => exact Or.inr rfl

theorem foldBlock_refused (h : (eng.foldBlock code block height).2.ok = false) :
    (eng.foldBlock code block height).1 = eng ∨
      (eng.foldBlock code block height).1.poisoned = true := by
  cases hcheck : checkBeforeFold code eng block height with
  | error r =>
    left
    unfold foldBlock
    rw [hcheck]
  | ok root =>
    right
    rcases foldBlock_of_checked hcheck with ⟨protx, why, -, -, hfold⟩ | hfold
    · rw [hfold]
      rfl
    rw [hfold] at h ⊢
    unfold finishFold at h ⊢
    split at h
    · rfl
    dsimp only at h ⊢
    split at h
    · rename_i hroot
      rw [if_pos hroot]
      rfl
    rename_i hroot
    rw [if_neg hroot]
    unfold checkPayee at h ⊢
    dsimp only at h ⊢
    split at h
    · cases h
    rename_i hasked
    rw [if_neg hasked]
    split at h
    · rename_i hpaid
      rw [if_pos hpaid]
      split at h
      · cases h
      rename_i hunpaid
      rw [if_neg hunpaid]
      rfl
    · cases h

theorem foldBlock_accepted (h : (eng.foldBlock code block height).2.ok = true) :
    ∃ root t, checkBeforeFold code eng block height = .ok root ∧
      foldPasses code block height (eng.projectPayee (toInt32 height))
        (eng, startResult eng height root) = .ok t ∧
      eng.foldBlock code block height =
        checkPayee code block height (payeeScript eng height)
          (checkRoot code (toInt32 height) t) := by
  have hbefore := @checkBeforeFold_spec P code eng block height
  cases hcheck : checkBeforeFold code eng block height with
  | error r =>
    have hfold : eng.foldBlock code block height = (eng, r) := by
      unfold foldBlock
      rw [hcheck]
    rw [hcheck] at hbefore
    rw [hfold] at h
    exact absurd (hbefore.symm.trans h) Bool.false_ne_true
  | ok root =>
    rcases foldBlock_of_checked hcheck with ⟨protx, why, -, -, hfold⟩ | hfold
    · rw [hfold] at h
      cases h
    rw [hfold] at h ⊢
    obtain ⟨t, ht, heq⟩ := finishFold_accepted (ok_foldPasses _ _ _ _) h
    exact ⟨root, t, rfl, ht, heq⟩

theorem checkRoot_of_unpunished {t : Folding} (h : t.1.blockPunished = ∅) (H : Int) :
    (checkRoot code H t).1.entries = t.1.entries ∧
      (checkRoot code H t).1.collateralIndex = t.1.collateralIndex ∧
      (checkRoot code H t).1.cfg = t.1.cfg ∧ (checkRoot code H t).2.payee = t.2.payee := by
  unfold checkRoot
  dsimp only
  split
  · have hambiguous : (t.1.computeSmlRootIncremental code).1.ambiguous = [] := by
      unfold ambiguous
      have hnone : (t.1.computeSmlRootIncremental code).1.blockPunished = ∅ := h
      rw [hnone]
      rfl
    have hresolve : ∀ r : FoldResult, resolveAmbiguousBansFromRoot code H
        ((t.1.computeSmlRootIncremental code).1, r) =
          (((t.1.computeSmlRootIncremental code).1, r), false) := by
      intro r
      unfold resolveAmbiguousBansFromRoot
      rw [if_pos (Or.inl hambiguous)]
    rw [hresolve]
    exact ⟨rfl, rfl, rfl, rfl⟩
  · exact ⟨rfl, rfl, rfl, rfl⟩

theorem checkPayee_accepted (hok : t.2.ok = false)
    (h : (checkPayee code block height scriptPre t).2.ok = true) :
    (checkPayee code block height scriptPre t).1 =
        { t.1 with height := height, blockHash := code.blockHeaderHash block } ∧
      (checkPayee code block height scriptPre t).2.payee = t.2.payee ∧
      (t.2.payee.isSome → scriptPre ≠ [] →
        t.1.cfg.gates.dip0003EnforcementHeight ≤ toInt32 height →
        block.coinbaseOuts.any (fun o => o.scriptPubKey = scriptPre) = true) := by
  unfold checkPayee at h ⊢
  dsimp only at h ⊢
  split
  · rename_i hskipped
    exact ⟨rfl, rfl, fun _ _ henforced => absurd henforced hskipped.2⟩
  rename_i hskipped
  rw [if_neg hskipped] at h
  split
  · rename_i hasked
    rw [if_pos hasked] at h
    split
    · rename_i hpaid
      exact ⟨rfl, rfl, fun _ _ _ => hpaid⟩
    rename_i hpaid
    rw [if_neg hpaid] at h
    exact absurd (hok.symm.trans h) Bool.false_ne_true
  · rename_i hasked
    exact ⟨rfl, rfl, fun hpayee hscript _ => absurd ⟨hpayee, hscript⟩ hasked⟩

end Accepted

def ApplyResult.reported (r : ApplyResult) : Bool × Bool × Bool × Option Uint256 × String :=
  (r.skippedOutOfOrder, r.gapDetected, r.payeeDesync, r.projectedPayee, r.refused)

section Applied

variable {P : Type} {height : U32}

theorem reported_applySpecialTx (code : ProTxCode P) (s : Applying) (tx : Tx P) :
    (applySpecialTx code height s tx).2.reported = s.2.reported := by
  unfold applySpecialTx
  split
  · unfold applyProReg
    split <;> rfl
  · unfold applyProUpServ
    split
    · rfl
    split
    · rfl
    dsimp only
    split
    · rfl
    · split <;> rfl
  · unfold applyProUpReg
    split
    · rfl
    · split <;> rfl
  · unfold applyProUpRev
    split
    · rfl
    · split <;> rfl
  · rfl

theorem reported_specialTxs (code : ProTxCode P) (txs : List (Tx P)) (s : Applying) :
    (specialTxs code height s txs).2.reported = s.2.reported := by
  induction txs generalizing s with
  | nil => rfl
  | cons tx txs ih => exact (ih _).trans (reported_applySpecialTx code s tx)

theorem reported_collateralSpends (txs : List (Tx P)) (s : Applying) :
    (collateralSpends s txs).2.reported = s.2.reported := by
  unfold collateralSpends
  induction txs.flatMap fun tx => tx.vin.map TxIn.prevout generalizing s with
  | nil => rfl
  | cons prevout prevouts ih =>
    refine (ih _).trans ?_
    unfold spendCollateral
    split <;> rfl

theorem reported_folded (code : ProTxCode P) (m : MnStateMachine) (block : Block P) :
    (folded code m block height).2.reported = (false, false, false, (queueBefore m).head?, "") := by
  exact (reported_collateralSpends _ _).trans (reported_specialTxs code _ _)

end Applied

/-! ## One block -/

/-- Lists that correspond at a height above the reallocation of the rewards, in a configuration
that enforces payments from there on. -/
structure Corresponds (reg : Uint256 → TxPrevOut × U16) (m : MnStateMachine) (eng : DmlFoldEngine) :
    Prop extends SameLists reg m eng where
  height : m.lastAppliedHeight = eng.height
  reallocated : 0 ≤ eng.cfg.gates.mnRrHeight ∧ eng.cfg.gates.mnRrHeight ≤ toInt32 eng.height
  enforced : eng.cfg.gates.dip0003EnforcementHeight ≤ eng.cfg.gates.mnRrHeight

def MnStateMachine.measured (m : MnStateMachine) (height : U32) : MnStateMachine :=
  { m with banStateMeasuredAt := height - 1 }

section Block

variable {P : Type} (code : FoldCode P) (reg : Uint256 → TxPrevOut × U16) (m : MnStateMachine)
  (eng : DmlFoldEngine) (block : Block P) (height : U32)

/-- A block that the fold accepts above the reallocation of the rewards, of plain transactions,
whose payee has a script and whose coinbase teaches the state machine no split. -/
structure AcceptedBlock : Prop where
  accepted : (eng.foldBlock code block height).2.ok = true
  reallocated : eng.cfg.gates.mnRrHeight ≤ toInt32 height
  registers : ∀ tx ∈ block.txs.tail, RegistersAs code reg tx
  plain : ∀ root, checkBeforeFold code eng block height = .ok root →
    PlainTxs code (toInt32 height) (startTxs code eng block height root) block.txs.tail
  payable : eng.projectPayee (toInt32 height) ≠ none → payeeScript eng height ≠ []
  unadopted : (applyBlock code.toProTxCode (m.measured height) block height).2.splitAdopted = 0

/-- The state machine takes the block, with the payee of the fold and no desync. -/
structure SameBlock : Prop where
  taken : (applyBlock code.toProTxCode (m.measured height) block height).2.skippedOutOfOrder =
      false ∧
    (applyBlock code.toProTxCode (m.measured height) block height).2.gapDetected = false ∧
    (applyBlock code.toProTxCode (m.measured height) block height).2.refused = ""
  payee : (applyBlock code.toProTxCode (m.measured height) block height).2.projectedPayee =
    (eng.foldBlock code block height).2.payee
  synchronised :
    (applyBlock code.toProTxCode (m.measured height) block height).2.payeeDesync = false

variable {code reg m eng block height}

theorem AcceptedBlock.pos (hb : AcceptedBlock code reg m eng block height)
    (h : Corresponds reg m eng) (hheight : height = eng.height + 1) :
    0 < toInt32 height ∧ height.val = eng.height.val + 1 := by
  obtain ⟨hnonneg, habove⟩ := h.reallocated
  have hreallocated := hb.reallocated
  have hsmall : eng.height.val < 2 ^ 31 := by
    unfold toInt32 at habove
    split at habove
    · assumption
    · omega
  have hval : height.val = eng.height.val + 1 := by
    rw [hheight, Fin.val_add_one_of_lt']
    omega
  unfold toInt32 at hreallocated ⊢
  split at hreallocated
  · rename_i hhalf
    omega
  · omega

/-- Both machines before the special transactions of a block. -/
theorem Corresponds.startTxs (h : Corresponds reg m eng) (root : Uint256) :
    Folds reg eng.cfg (eng.projectPayee (toInt32 height))
      ({ m.measured height with pending := {} },
        { projectedPayee := (queueBefore (m.measured height)).head? })
      (startTxs code eng block height root) := by
  have hbegin : Folds reg eng.cfg (eng.projectPayee (toInt32 height))
      ({ m.measured height with pending := {} },
        { projectedPayee := (queueBefore (m.measured height)).head? })
      (beginBlock (eng, startResult eng height root)) :=
    ⟨h.toSameLists.congr rfl rfl rfl rfl, rfl, rfl, rfl⟩
  exact (hbegin.confirmPass _ _).decreaseScores

theorem map_fst_drop_zipIdx (txs : List (Tx P)) : (txs.zipIdx.drop 1).map Prod.fst = txs.tail := by
  rw [map_drop, zipIdx_map_fst, drop_one]

theorem mem_drop_zipIdx (txs : List (Tx P)) (tx : Tx P × Nat) :
    tx ∈ txs.zipIdx.drop 1 ↔ tx ∈ txs.zipIdx ∧ tx.2 ≠ 0 := by
  cases txs with
  | nil => simp
  | cons first rest =>
    rw [zipIdx_cons, drop_one, tail_cons, mem_cons]
    have hpos : tx ∈ rest.zipIdx (0 + 1) → tx.2 ≠ 0 := by
      intro htx
      have hle := le_snd_of_mem_zipIdx htx
      omega
    constructor
    · intro htx
      exact ⟨Or.inr htx, hpos htx⟩
    rintro ⟨rfl | htx, hne⟩
    · exact absurd rfl hne
    · exact htx

section

variable (hb : AcceptedBlock code reg m eng block height) (h : Corresponds reg m eng)
include hb h

theorem AcceptedBlock.folded (hcheck : checkBeforeFold code eng block height = .ok root)
    (hpasses : foldPasses code block height (eng.projectPayee (toInt32 height))
      (eng, startResult eng height root) = .ok t) :
    ∃ t₁, t = payeeBookkeeping (toInt32 height) (eng.projectPayee (toInt32 height)) t₁ ∧
      Folds reg eng.cfg (eng.projectPayee (toInt32 height))
        (folded code.toProTxCode (m.measured height) block height) t₁ ∧
      ∀ tx ∈ block.txs.zipIdx, tx.2 ≠ 0 → tx.1.type = 2 →
        ∀ p, code.parseProUpServ tx.1.extraPayload = some p →
          (p.nType = mnRegular ∨ p.nType = mnEvo) ∧ (reg p.proTxHash).2 = p.nType := by
  obtain ⟨hheight, -, hcontextual⟩ := checkBeforeFold_ok hcheck
  obtain ⟨hpos, -⟩ := hb.pos h hheight
  unfold foldPasses at hpasses
  dsimp only at hpasses
  split at hpasses
  · cases hpasses
  rename_i t₀ ht₀
  cases hpasses
  have hstart := @Corresponds.startTxs P code reg m eng block height h root
  have hplain := hb.plain root hcheck
  rw [← map_fst_drop_zipIdx block.txs] at hplain
  have hchecked : ∀ tx ∈ block.txs.zipIdx.drop 1, contextualTxCheck tx.1 false = none := by
    intro tx htx
    obtain ⟨hmem, hne⟩ := (mem_drop_zipIdx block.txs tx).mp htx
    have hnone := hcontextual tx hmem
    rwa [decide_eq_false hne] at hnone
  have hregisters : ∀ tx ∈ block.txs.zipIdx.drop 1, RegistersAs code reg tx.1 := by
    intro tx htx
    apply hb.registers
    rw [← map_fst_drop_zipIdx block.txs]
    exact mem_map_of_mem htx
  obtain ⟨htxs, hserves⟩ := hstart.foldTxs _ hpos hchecked hregisters hplain ht₀
  rw [map_fst_drop_zipIdx] at htxs
  refine ⟨_, rfl, htxs.foldSpends block.txs.tail, ?_⟩
  intro tx htx hne
  exact hserves tx ((mem_drop_zipIdx block.txs tx).mpr ⟨htx, hne⟩)

theorem AcceptedBlock.applies : Applies code.toProTxCode (m.measured height) block height := by
  obtain ⟨root, t, hcheck, hpasses, -⟩ := foldBlock_accepted hb.accepted
  obtain ⟨hheight, -, hcontextual⟩ := checkBeforeFold_ok hcheck
  obtain ⟨-, hval⟩ := hb.pos h hheight
  obtain ⟨-, -, -, htypes⟩ := hb.folded h hcheck hpasses
  have hlast : (m.measured height).lastAppliedHeight = eng.height := h.height
  refine ⟨?_, ?_, ?_⟩
  · rw [hlast]
    rintro ⟨-, hle⟩
    rw [Fin.le_def] at hle
    omega
  · rw [hlast, ← hheight]
    rintro ⟨-, hlt⟩
    exact lt_irrefl _ hlt
  · unfold consensusRefusal
    rw [findSome?_eq_none_iff]
    intro tx htx
    unfold txRefusal
    have hnone : (if (m.measured height).dip0003Height ≤ height then
        contextualTxCheck tx.1 (tx.2 = 0) else none) = none := by
      split
      · exact hcontextual tx htx
      · rfl
    rw [hnone]
    dsimp only
    split
    · rfl
    rename_i hne
    rw [map_eq_none_iff]
    unfold proUpServRefusal
    split
    · rfl
    rename_i htype
    split
    · rfl
    rename_i p hp
    obtain ⟨hkind, hreg⟩ := htypes tx htx hne (not_not.mp htype) p hp
    rw [if_neg (fun hother => hkind.elim hother.1 hother.2)]
    split
    · rename_i st hst
      rcases h.cases p.proTxHash with ⟨hmissing, -⟩ | ⟨st', rs, hst', hrs, hsame⟩
      · rw [show m.entries.lookup p.proTxHash = some st from hst] at hmissing
        cases hmissing
      have heq : st' = st := Option.some.inj (hst'.symm.trans hst)
      subst heq
      have hregistered := h.registered p.proTxHash rs hrs
      rw [← hregistered] at hreg
      dsimp only at hreg
      rw [if_neg]
      rw [not_not, hsame.nType, hreg]
      rcases hkind with hkind | hkind
      · rw [hkind]
        rfl
      · rw [hkind]
        rfl
    · rfl

theorem AcceptedBlock.resolved {t₁ : Folding} (hpos : 0 < toInt32 height)
    (hfolds : Folds reg eng.cfg (eng.projectPayee (toInt32 height))
      (Dash.folded code.toProTxCode (m.measured height) block height) t₁)
    (hpaid : eng.projectPayee (toInt32 height) ≠ none →
      block.coinbaseOuts.any (fun o => o.scriptPubKey = payeeScript eng height) = true)
    (htxs : block.txs ≠ []) :
    ∃ s : Applying,
      (applyBlock code.toProTxCode (m.measured height) block height).1 =
        { s.1 with lastAppliedHeight := height } ∧
      (applyBlock code.toProTxCode (m.measured height) block height).2.reported =
        (false, false, false, eng.projectPayee (toInt32 height), "") ∧
      SameLists reg s.1
        (markPayee (toInt32 height) (eng.projectPayee (toInt32 height)) t₁).1 := by
  have happlies := hb.applies h
  have hmeasured : SameLists reg (m.measured height) eng := h.toSameLists.congr rfl rfl rfl rfl
  have hhead : (queueBefore (m.measured height)).head? = eng.projectPayee (toInt32 height) :=
    hmeasured.head?_queueBefore hb.reallocated
  obtain ⟨s, hm, hr, hs⟩ := applyBlock_of_applies happlies
  have hreported := @reported_folded P height code.toProTxCode (m.measured height) block
  have hunadopted := hb.unadopted
  rw [hhead] at hs hreported
  refine ⟨s, hm, ?_⟩
  rw [hr] at hunadopted ⊢
  cases hpayee : eng.projectPayee (toInt32 height) with
  | none =>
    rw [hpayee] at hs hreported
    rw [hs]
    exact ⟨hreported, hfolds.lists⟩
  | some protx =>
    rw [hpayee] at hs hreported
    have hsome : eng.projectPayee (toInt32 height) ≠ none := by
      rw [hpayee]
      exact some_ne_none protx
    cases htx : block.txs with
    | nil => exact absurd htx htxs
    | cons coinbase txs =>
      rw [htx] at hs
      dsimp only at hs
      cases hst : (Dash.folded code.toProTxCode (m.measured height) block
          height).1.entries.lookup protx with
      | none =>
        rw [hst] at hs
        rw [hs]
        refine ⟨hreported, ?_⟩
        unfold markPayee
        rcases hfolds.lists.cases protx with ⟨-, hrs⟩ | ⟨st, -, hst', -, -⟩
        · dsimp only
          rw [hrs]
          exact hfolds.lists
        · rw [hst] at hst'
          cases hst'
      | some st =>
        rw [hst] at hs
        dsimp only at hs
        have hscript : scriptBefore (m.measured height) protx = payeeScript eng height := by
          unfold scriptBefore payeeScript
          rw [hpayee]
          dsimp only [bind_some]
          rcases hmeasured.cases protx with ⟨hnone, hnone'⟩ | ⟨st', rs', hst', hrs', hsame'⟩
          · rw [hnone, hnone']
            rfl
          · rw [hst', hrs', map_some, map_some, hsame'.firstPayoutScript]
        have hcoinbase : paidInCb block.coinbaseOuts
            (scriptBefore (m.measured height) protx) = true := by
          rw [hscript]
          exact decide_eq_true ⟨hb.payable hsome, hpaid hsome⟩
        unfold resolvePayee at hs
        rw [if_pos hcoinbase] at hs
        obtain ⟨rs, hrs, hsame⟩ : ∃ rs, t₁.1.entries.lookup protx = some rs ∧ SameEntry st rs := by
          rcases hfolds.lists.cases protx with ⟨hnone, -⟩ | ⟨st', rs, hst', hrs, hsame⟩
          · rw [hst] at hnone
            cases hnone
          rw [hst] at hst'
          cases hst'
          exact ⟨rs, hrs, hsame⟩
        rw [hs] at hunadopted ⊢
        obtain ⟨prov, hprov⟩ := observePayoutSplit_eq _ _ _ (Nat.eq_zero_of_add_eq_zero
          hunadopted).2
        refine ⟨hreported, ?_⟩
        unfold markPayee
        dsimp only
        rw [hrs]
        refine hfolds.lists.update hrs (sameEntry_markPaid hsame hpos prov _) rfl rfl ?_ rfl rfl rfl
        rw [hprov]

end

theorem payeeBookkeeping_frame (payee : Option Uint256) (t : Folding) (H : Int) :
    (payeeBookkeeping H payee t).1.blockPunished = t.1.blockPunished ∧
      (payeeBookkeeping H payee t).1.cfg = t.1.cfg ∧
      (payeeBookkeeping H payee t).2.payee = t.2.payee := by
  unfold payeeBookkeeping markPayee
  split
  · exact ⟨rfl, rfl, rfl⟩
  · split <;> exact ⟨rfl, rfl, rfl⟩

theorem Corresponds.applyBlock (h : Corresponds reg m eng)
    (hb : AcceptedBlock code reg m eng block height) :
    Corresponds reg (applyBlock code.toProTxCode (m.measured height) block height).1
        (eng.foldBlock code block height).1 ∧
      SameBlock code m eng block height := by
  obtain ⟨root, t, hcheck, hpasses, hfold⟩ := foldBlock_accepted hb.accepted
  obtain ⟨hheight, htxs, -⟩ := checkBeforeFold_ok hcheck
  obtain ⟨hpos, -⟩ := hb.pos h hheight
  have hok : t.2.ok = false := ok_of_foldPasses hpasses
  obtain ⟨t₁, rfl, hfolds, -⟩ := hb.folded h hcheck hpasses
  -- neither the end of the passes nor the check of the root changes what the payee's check asks
  obtain ⟨hpunished, hcfg, hpayee⟩ := payeeBookkeeping_frame
    (eng.projectPayee (toInt32 height)) t₁ (toInt32 height)
  obtain ⟨hentries, hindex, hcfg', hpayee'⟩ := @checkRoot_of_unpunished P code _
    (hpunished.trans hfolds.unpunished) (toInt32 height)
  have haccepted := hb.accepted
  rw [hfold] at haccepted
  obtain ⟨heng, hresult, hpaid⟩ := checkPayee_accepted ((ok_checkRoot _).trans hok) haccepted
  rw [hpayee', hpayee, hfolds.payee] at hresult hpaid
  rw [hcfg', hcfg, hfolds.cfg] at hpaid
  have hcoinbase : eng.projectPayee (toInt32 height) ≠ none →
      block.coinbaseOuts.any (fun o => o.scriptPubKey = payeeScript eng height) = true := by
    intro hsome
    exact hpaid (isSome_iff_ne_none.mpr hsome) (hb.payable hsome) (h.enforced.trans hb.reallocated)
  obtain ⟨s, hm, hreported, hmarked⟩ := hb.resolved h hpos hfolds hcoinbase htxs
  have hlists : SameLists reg s.1 (checkRoot code (toInt32 height)
      (payeeBookkeeping (toInt32 height) (eng.projectPayee (toInt32 height)) t₁)).1 :=
    (SameLists.payeeBookkeeping hmarked).congr rfl rfl hentries hindex
  rw [← hfold] at heng hresult
  simp only [ApplyResult.reported, Prod.mk.injEq] at hreported
  obtain ⟨hskip, hgap, hdesync, hprojected, hrefused⟩ := hreported
  refine ⟨?_, ⟨⟨hskip, hgap, hrefused⟩, ?_, hdesync⟩⟩
  · rw [hm, heng]
    refine ⟨hlists.congr rfl rfl rfl rfl, rfl, ?_, ?_⟩
    · rw [hcfg', hcfg, hfolds.cfg]
      exact ⟨h.reallocated.1, hb.reallocated⟩
    dsimp only
    rw [hcfg', hcfg, hfolds.cfg]
    exact h.enforced
  · rw [hprojected, hresult]

end Block

section Runs

variable {P : Type}

def stepBoth (code : FoldCode P) (s : MnStateMachine × DmlFoldEngine) (b : Block P × U32) :
    MnStateMachine × DmlFoldEngine :=
  ((applyBlock code.toProTxCode (s.1.measured b.2) b.1 b.2).1, (s.2.foldBlock code b.1 b.2).1)

def AcceptedAt (code : FoldCode P) (reg : Uint256 → TxPrevOut × U16)
    (s : MnStateMachine × DmlFoldEngine) (b : Block P × U32) : Prop :=
  AcceptedBlock code reg s.1 s.2 b.1 b.2

/-- Over every run of accepted blocks the machines correspond, and the state machine takes every
block with the payee of the fold and no desync. -/
theorem machines_agree (code : FoldCode P) (reg : Uint256 → TxPrevOut × U16) (m : MnStateMachine)
    (eng : DmlFoldEngine) (h : Corresponds reg m eng) (blocks : List (Block P × U32))
    (hrun : Run.Admissible (stepBoth code) (AcceptedAt code reg) (m, eng) blocks) :
    Corresponds reg (Run.run (stepBoth code) (m, eng) blocks).1
        (Run.run (stepBoth code) (m, eng) blocks).2 ∧
      ∀ before b after, blocks = before ++ b :: after →
        SameBlock code (Run.run (stepBoth code) (m, eng) before).1
          (Run.run (stepBoth code) (m, eng) before).2 b.1 b.2 := by
  have hstep : ∀ (s : MnStateMachine × DmlFoldEngine) (b : Block P × U32),
      Corresponds reg s.1 s.2 → AcceptedAt code reg s b →
      Corresponds reg (stepBoth code s b).1 (stepBoth code s b).2 :=
    fun s b hs hb => (hs.applyBlock hb).1
  refine ⟨Run.run_invariant hstep h hrun, ?_⟩
  rintro before b after rfl
  obtain ⟨hbefore, hb, -⟩ := Run.admissible_append.mp hrun
  have hmid : Corresponds reg (Run.run (stepBoth code) (m, eng) before).1
      (Run.run (stepBoth code) (m, eng) before).2 := Run.run_invariant hstep h hbefore
  exact (hmid.applyBlock hb).2

end Runs

/-! ## Lists of one and of two masternodes -/

section FewMasternodes

def pairCode : FoldCode (Uint256 × Option ProUpServTx) :=
  { plainFoldCode with parseProUpServ := Prod.snd, parseCbtx := fun p => some p.1 }

def machineOf (st : MNState) : MnStateMachine where
  entries := SortedMap.empty.insert 1 st
  collateralIndex := SortedMap.empty.insert st.collateralOutpoint 1
  lastAppliedHeight := 2200000

def engineOf (rs : ReplayMNState) : DmlFoldEngine where
  cfg := { enabled := true }
  entries := SortedMap.empty.insert 1 rs
  collateralIndex := SortedMap.empty.insert rs.collateralOutpoint 1
  height := 2200000

theorem corresponds_one (h : SameEntry st rs) (hreg : reg 1 = (rs.collateralOutpoint, rs.nType)) :
    Corresponds reg (machineOf st) (engineOf rs) := by
  have hempty : SameLists reg {} {} := by
    refine ⟨fun _ => Option.Rel.none, nofun, ?_, rfl⟩
    intro c k
    exact ⟨nofun, fun ⟨_, hr, _⟩ => by cases hr⟩
  have hreallocated : (0 : Int) ≤ 2128896 ∧ (2128896 : Int) ≤ toInt32 2200000 := by decide
  have henforced : (1047200 : Int) ≤ 2128896 := by decide
  refine ⟨hempty.register rfl hreg h rfl ?_ rfl rfl, rfl, hreallocated, henforced⟩
  unfold machineOf
  rw [h.collateralOutpoint]
  rfl

def oneEntry : MNState where
  collateralOutpoint := toLex (7, 0)
  keyIDOwner := 1
  pubKeyOperator := 1
  keyIDVoting := 1
  scriptPayout := [1]
  nRegisteredHeight := 2100000
  payoutSplitProvenance := .known

def oneReplay : ReplayMNState where
  collateralOutpoint := toLex (7, 0)
  keyIDOwner := 1
  pubKeyOperator := 1
  keyIDVoting := 1
  scriptPayout := [1]
  nRegisteredHeight := 2100000
  confirmedHash := 3

theorem sameEntry_one : SameEntry oneEntry oneReplay :=
  ⟨rfl, rfl, rfl, rfl, rfl, rfl, rfl, rfl, Or.inr (by decide), by decide, Or.inl ⟨rfl, rfl⟩, rfl,
    by decide⟩

def oneBlock (outs : List TxOut) (txs : List (Tx (Uint256 × Option ProUpServTx))) :
    Block (Uint256 × Option ProUpServTx) where
  txs := { version := 3, type := 5, vout := outs, extraPayload := (4, none) } :: txs

def oneService : Tx (Uint256 × Option ProUpServTx) where
  version := 3
  type := 2
  extraPayload := (0, some { proTxHash := 1 })

def secondEntry : MNState :=
  { oneEntry with
    collateralOutpoint := toLex (8, 0), keyIDOwner := 2, pubKeyOperator := 2, scriptPayout := [2] }

def secondReplay : ReplayMNState :=
  { oneReplay with
    collateralOutpoint := toLex (8, 0), keyIDOwner := 2, pubKeyOperator := 2, scriptPayout := [2] }

def twoMachine : MnStateMachine :=
  { machineOf oneEntry with
    entries := (machineOf oneEntry).entries.insert 2 secondEntry
    collateralIndex := (machineOf oneEntry).collateralIndex.insert (toLex (8, 0)) 2 }

def twoEngine : DmlFoldEngine :=
  { engineOf oneReplay with
    entries := (engineOf oneReplay).entries.insert 2 secondReplay
    collateralIndex := (engineOf oneReplay).collateralIndex.insert (toLex (8, 0)) 2 }

def twoReg (k : Uint256) : TxPrevOut × U16 :=
  (if k = 2 then toLex (8, 0) else toLex (7, 0), mnRegular)

theorem corresponds_two : Corresponds twoReg twoMachine twoEngine := by
  have hone : Corresponds twoReg (machineOf oneEntry) (engineOf oneReplay) :=
    corresponds_one sameEntry_one rfl
  have hsecond : SameEntry secondEntry secondReplay :=
    ⟨rfl, rfl, rfl, rfl, rfl, rfl, rfl, rfl, Or.inr (by decide), by decide, Or.inl ⟨rfl, rfl⟩, rfl,
      by decide⟩
  have hboth : SameLists twoReg twoMachine twoEngine :=
    hone.toSameLists.register (by decide) rfl hsecond rfl rfl rfl rfl
  exact { hone with toSameLists := hboth }

def payingBlock (payee : Nat) (txs : List (Tx (Uint256 × Option ProUpServTx))) :
    Block (Uint256 × Option ProUpServTx) :=
  let pays : TxOut := { value := 60, scriptPubKey := [Fin.ofNat _ payee] }
  { previousBlock := Fin.ofNat _ (payee - 1)
    txs := { version := 3, type := 5, vout := [pays], extraPayload := (14, none) } :: txs }

def twoRun : List (Block (Uint256 × Option ProUpServTx) × U32) :=
  [(payingBlock 1 [oneService], 2200001), (payingBlock 2 [], 2200002)]

/-- Each masternode is paid once. -/
theorem machines_agree_service :
    let s := Run.run (stepBoth pairCode) (twoMachine, twoEngine) twoRun
    Corresponds twoReg s.1 s.2 ∧
      s.1.entries.entries.map (fun e => e.2.nLastPaidHeight) = [2200001, 2200002] := by
  refine ⟨(machines_agree pairCode twoReg twoMachine twoEngine corresponds_two twoRun
    ⟨?_, ?_, trivial⟩).1, by decide +kernel⟩
  · refine ⟨by decide +kernel, by decide +kernel, ?_, ?_, by decide +kernel, by decide +kernel⟩
    · intro tx htx htype
      rw [mem_singleton.mp htx] at htype
      exact absurd htype (by decide)
    intro root _
    refine ⟨⟨?_, ?_, ?_⟩, fun _ _ => trivial⟩
    · intro _ p rs hp hrs hbanned
      cases hp
      cases hrs
      cases hbanned
    · intro htype
      exact absurd htype (by decide)
    · intro htype
      exact absurd htype (by decide)
  · exact ⟨by decide +kernel, by decide +kernel, nofun, fun _ _ => trivial, by decide +kernel,
      by decide +kernel⟩

def unknownSplitEntry : MNState := { oneEntry with payoutSplitProvenance := .unknown }

def scriptlessEntry : MNState := { oneEntry with scriptPayout := [] }

def scriptlessReplay : ReplayMNState := { oneReplay with scriptPayout := [] }

/-- The masternode banned and without a voting key. -/
def votelessEntry : MNState :=
  { oneEntry with keyIDVoting := 0, isValid := false, nPoSeBanHeight := 2150000 }

def votelessReplay : ReplayMNState :=
  { oneReplay with keyIDVoting := 0, nPoSeBanHeight := 2150000 }

def evenBlock : Block (Uint256 × Option ProUpServTx) :=
  oneBlock [{ value := 50, scriptPubKey := [1] }, { value := 50, scriptPubKey := [2] }] []

/-- A coinbase of two outputs teaches the state machine an operator share that the fold does not
hold; it reports the payee without a script as a desync; and it revives a masternode without a
voting key. -/
theorem machines_disagree :
    (Corresponds (fun _ => (toLex (7, 0), mnRegular)) (machineOf unknownSplitEntry)
        (engineOf oneReplay) ∧
      ((engineOf oneReplay).foldBlock pairCode evenBlock 2200001).2.ok = true ∧
      (((engineOf oneReplay).foldBlock pairCode evenBlock 2200001).1.entries.lookup 1).map
        ReplayMNState.nOperatorReward = some 0 ∧
      ((applyBlock pairCode.toProTxCode ((machineOf unknownSplitEntry).measured 2200001) evenBlock
        2200001).1.entries.lookup 1).map MNState.nOperatorReward = some 5000) ∧
    (Corresponds (fun _ => (toLex (7, 0), mnRegular)) (machineOf scriptlessEntry)
        (engineOf scriptlessReplay) ∧
      ((engineOf scriptlessReplay).foldBlock pairCode (oneBlock [] []) 2200001).2.ok = true ∧
      (applyBlock pairCode.toProTxCode ((machineOf scriptlessEntry).measured 2200001)
        (oneBlock [] []) 2200001).2.payeeDesync = true) ∧
    Corresponds (fun _ => (toLex (7, 0), mnRegular)) (machineOf votelessEntry)
        (engineOf votelessReplay) ∧
      ((engineOf votelessReplay).foldBlock pairCode (oneBlock [] [oneService]) 2200001).2.ok =
        true ∧
      (((engineOf votelessReplay).foldBlock pairCode (oneBlock [] [oneService])
        2200001).1.entries.lookup 1).map ReplayMNState.isBanned = some true ∧
      ((applyBlock pairCode.toProTxCode ((machineOf votelessEntry).measured 2200001)
        (oneBlock [] [oneService]) 2200001).1.entries.lookup 1).map MNState.isValid =
          some true := by
  have hregistered : SameHeight 2100000 (2100000 : U32) := Or.inr (by decide)
  have hpaid : (0 : Int) = ((0 : U32).val : Int) ∧ (0 : U32).val < 2 ^ 31 := by decide
  have hrevived : SameHeight never (0 : U32) := Or.inl ⟨rfl, rfl⟩
  have hunknown : SameEntry unknownSplitEntry oneReplay :=
    ⟨rfl, rfl, rfl, rfl, rfl, rfl, rfl, rfl, hregistered, hpaid, hrevived, rfl, by decide⟩
  have hscriptless : SameEntry scriptlessEntry scriptlessReplay :=
    ⟨rfl, rfl, rfl, rfl, rfl, rfl, rfl, rfl, hregistered, hpaid, hrevived, rfl, by decide⟩
  have hvoteless : SameEntry votelessEntry votelessReplay :=
    ⟨rfl, rfl, rfl, rfl, rfl, rfl, rfl, rfl, hregistered, hpaid, hrevived, rfl, by decide⟩
  exact ⟨⟨corresponds_one hunknown rfl, by decide +kernel, by decide +kernel, by decide +kernel⟩,
    ⟨corresponds_one hscriptless rfl, by decide +kernel, by decide +kernel⟩,
    corresponds_one hvoteless rfl, by decide +kernel, by decide +kernel, by decide +kernel⟩

end FewMasternodes

end C2Pool.Dash
