import C2Pool.V37.RecoveryDisk

/-! # Recovering twice

The first recovery orphans the recorded blocks that the coin chain does not have any more. A block
that was open is then gone, but a block that had settled stays settled, so that the next recovery
orphans it again.
-/

namespace C2Pool.V37

open List Run

variable {sha : List Byte → Bytes32} {hooks : RecoveryHooks} {oks : Nat → Bool} {bootId : U64}
  {c : U32} {l : OwedLedger} {blks : List (Bid × BlkRec)} {b : Bid × BlkRec}
/-! ## The ledger of the rounds -/

theorem settled_call_orphaned (l : OwedLedger) (bid : Bid) (settledPayout : Amounts) :
    (l.call sha {} (.orphaned bid settledPayout)).settled = l.settled := by
  simp only [OwedLedger.call, OwedLedger.onBlockOrphaned]
  cases l.pending.lookup bid with
  | some p => rfl
  | none =>
    dsimp only
    split
    · show (l.noteResidual bid settledPayout.total).settled = _
      unfold OwedLedger.noteResidual
      split <;> rfl
    · rfl

theorem lookup_pending_call_orphaned (l : OwedLedger) (bid : Bid) (settledPayout : Amounts)
    (x : Bid) : (l.call sha {} (.orphaned bid settledPayout)).pending.lookup x =
      if x = bid then none else l.pending.lookup x := by
  simp only [OwedLedger.call, OwedLedger.onBlockOrphaned]
  cases hp : l.pending.lookup bid with
  | some p =>
    refine (SortedMap.lookup_erase l.pending bid x).trans ?_
    by_cases hx : x = bid
    · rw [if_pos hx, if_pos hx]
    · rw [if_neg hx, if_neg hx]
  | none =>
    have hsame : l.pending.lookup x = if x = bid then none else l.pending.lookup x := by
      split
      · rename_i heq
        rw [heq, hp]
      · rfl
    dsimp only
    split
    · rw [← hsame]
      show (l.noteResidual bid settledPayout.total).pending.lookup x = _
      rw [OwedLedger.pending_noteResidual]
    · exact hsame

theorem knows_call_orphaned {bid x : Bid} (hne : x ≠ bid) (settledPayout : Amounts) :
    (l.call sha {} (.orphaned bid settledPayout)).Knows x ↔ l.Knows x := by
  unfold OwedLedger.Knows
  rw [lookup_pending_call_orphaned, if_neg hne, settled_call_orphaned]

theorem ledger_reconcile_lost {s : Disk × ChainRecovery} {b : Bid × BlkRec}
    (h : Lost hooks bootId c s.2.ledger b) :
    (reconcile sha hooks oks bootId c s (.block b)).2.ledger =
      s.2.ledger.call sha {} (.orphaned b.1 (orphanPayout s.2 b.1)) := by
  show (reconcileBlock sha hooks oks bootId c s b).2.ledger = _
  rw [reconcileBlock_of_lost h]
  unfold logReconcileEvent
  split <;> rfl

theorem ledger_run_blocks {s : Disk × ChainRecovery} (hnodup : (blks.map Prod.fst).Nodup)
    (hl : l = (Run.run (reconcile sha hooks oks bootId c) s (blks.map Round.block)).2.ledger) :
    l.settled = s.2.ledger.settled ∧
    (∀ b ∈ blks, Lost hooks bootId c s.2.ledger b → l.pending.lookup b.1 = none) ∧
    ∀ x, (∀ b ∈ blks, b.1 = x → ¬ Lost hooks bootId c s.2.ledger b) →
      l.pending.lookup x = s.2.ledger.pending.lookup x := by
  induction blks generalizing s with
  | nil =>
    rw [hl]
    exact ⟨rfl, fun _ h => (not_mem_nil h).elim, fun _ _ => rfl⟩
  | cons b blks ih =>
    rw [map_cons, nodup_cons] at hnodup
    obtain ⟨hsettled, hgone, hkept⟩ := ih hnodup.2 hl
    by_cases hlost : Lost hooks bootId c s.2.ledger b
    · have hledger := @ledger_reconcile_lost sha hooks oks bootId c s b hlost
      have hother : ∀ y ∈ blks, y.1 ≠ b.1 := fun y hy heq =>
        hnodup.1 (heq ▸ mem_map_of_mem hy)
      have hsame : ∀ y ∈ blks, (Lost hooks bootId c
          (reconcile sha hooks oks bootId c s (.block b)).2.ledger y ↔
            Lost hooks bootId c s.2.ledger y) := by
        intro y hy
        unfold Lost
        rw [hledger, knows_call_orphaned (hother y hy)]
      rw [hledger] at hsettled hkept
      rw [settled_call_orphaned] at hsettled
      refine ⟨hsettled, ?_, ?_⟩
      · intro y hy hylost
        rcases mem_cons.mp hy with rfl | hy
        · -- no later round is for the same block
          rw [hkept y.1 fun z hz heq => (hother z hz heq).elim, lookup_pending_call_orphaned,
            if_pos rfl]
        · exact hgone y hy ((hsame y hy).mpr hylost)
      intro x hx
      have hne : x ≠ b.1 := fun heq => hx b mem_cons_self heq.symm hlost
      rw [hkept x, lookup_pending_call_orphaned, if_neg hne]
      intro y hy hyx hylost
      rw [← hledger, hsame y hy] at hylost
      exact hx y (mem_cons_of_mem b hy) hyx hylost
    have heq : reconcile sha hooks oks bootId c s (.block b) = s := reconcileBlock_of_not_lost hlost
    rw [heq] at hsettled hgone hkept
    refine ⟨hsettled, ?_, ?_⟩
    · intro y hy hylost
      rcases mem_cons.mp hy with rfl | hy
      · exact (hlost hylost).elim
      · exact hgone y hy hylost
    · intro x hx
      exact hkept x fun y hy => hx y (mem_cons_of_mem b hy)

theorem records_reconcile (hintent : ∀ i, hooks.tryRederiveIntent i = none)
    {s : Disk × ChainRecovery} {x : Round}
    (h : ∀ e ∈ (s.1.store.chain c).intent.entries, ∃ i, decodeIntent e.2 = some i) :
    ((reconcile sha hooks oks bootId c s x).1.store.chain c).blk = (s.1.store.chain c).blk ∧
      ∀ e ∈ ((reconcile sha hooks oks bootId c s x).1.store.chain c).intent.entries,
        ∃ i, decodeIntent e.2 = some i := by
  cases x with
  | block b =>
    obtain ⟨hi, hb⟩ := @records_reconcileBlock sha hooks oks bootId c s b
    refine ⟨hb, ?_⟩
    show ∀ e ∈ ((reconcileBlock sha hooks oks bootId c s b).1.store.chain c).intent.entries, _
    rw [hi]
    exact h
  | intent i =>
    have hquiet : ¬ Appends sha hooks bootId c s.2 (.intent i) := by
      rw [appends_intent]
      exact fun happ => happ.2 (hintent i.2)
    obtain heq | ⟨j, -, heq⟩ := @reconcile_of_quiet sha hooks oks bootId c s _ hquiet
    · rw [heq]
      exact ⟨rfl, h⟩
    rw [heq]
    rw [chain_dropIntent]
    split
    · exact ⟨rfl, @decodes_set _ _ _ _ _ h j.1 none fun v hv => by cases hv⟩
    · exact ⟨rfl, h⟩

theorem records_run (hintent : ∀ i, hooks.tryRederiveIntent i = none)
    {s : Disk × ChainRecovery} {rs : List Round}
    (h : ∀ e ∈ (s.1.store.chain c).intent.entries, ∃ i, decodeIntent e.2 = some i) :
    ((Run.run (reconcile sha hooks oks bootId c) s rs).1.store.chain c).blk =
        (s.1.store.chain c).blk ∧
      ∀ e ∈ ((Run.run (reconcile sha hooks oks bootId c) s rs).1.store.chain c).intent.entries,
        ∃ i, decodeIntent e.2 = some i := by
  induction rs generalizing s with
  | nil => exact ⟨rfl, h⟩
  | cons x rs ih =>
    obtain ⟨hblk, hdec⟩ := @records_reconcile sha hooks oks bootId c hintent s x h
    obtain ⟨hblk', hdec'⟩ := ih hdec
    exact ⟨hblk'.trans hblk, hdec'⟩

theorem seq_reconcile_block (s : Disk × ChainRecovery) (b : Bid × BlkRec) :
    s.2.ledger.seq ≤ (reconcile sha hooks oks bootId c s (.block b)).2.ledger.seq ∧
      (Lost hooks bootId c s.2.ledger b →
        s.2.ledger.seq < (reconcile sha hooks oks bootId c s (.block b)).2.ledger.seq) := by
  by_cases hlost : Lost hooks bootId c s.2.ledger b
  · rw [ledger_reconcile_lost hlost, seq_call_orphaned hlost.2.1]
    exact ⟨Nat.le_succ _, fun _ => Nat.lt_succ_self _⟩
  have heq : reconcile sha hooks oks bootId c s (.block b) = s := reconcileBlock_of_not_lost hlost
  rw [heq]
  exact ⟨Nat.le_refl _, fun hyes => (hlost hyes).elim⟩

theorem seq_run_blocks (s : Disk × ChainRecovery) (blks : List (Bid × BlkRec)) :
    s.2.ledger.seq ≤
        (Run.run (reconcile sha hooks oks bootId c) s (blks.map Round.block)).2.ledger.seq ∧
      ((∃ b ∈ blks, Lost hooks bootId c s.2.ledger b) → s.2.ledger.seq <
        (Run.run (reconcile sha hooks oks bootId c) s (blks.map Round.block)).2.ledger.seq) := by
  induction blks generalizing s with
  | nil =>
    refine ⟨Nat.le_refl _, ?_⟩
    rintro ⟨b, hb, -⟩
    exact (not_mem_nil hb).elim
  | cons b blks ih =>
    obtain ⟨hle, hlt⟩ := @seq_reconcile_block sha hooks oks bootId c s b
    obtain ⟨hrun, hrunLt⟩ := ih (reconcile sha hooks oks bootId c s (.block b))
    rw [map_cons, run_cons]
    refine ⟨hle.trans hrun, ?_⟩
    rintro ⟨y, hy, hylost⟩
    by_cases hlost : Lost hooks bootId c s.2.ledger b
    · exact (hlt hlost).trans_le hrun
    have heq : reconcile sha hooks oks bootId c s (.block b) = s := reconcileBlock_of_not_lost hlost
    rw [heq] at hrunLt ⊢
    rcases mem_cons.mp hy with rfl | hy
    · exact (hlost hylost).elim
    · exact hrunLt ⟨y, hy, hylost⟩

theorem run_intents (hintent : ∀ i, hooks.tryRederiveIntent i = none) (s : Disk × ChainRecovery)
    (intents : List (Bytes32 × IntentRec)) :
    (Run.run (reconcile sha hooks oks bootId c) s (intents.map Round.intent)).2 = s.2 := by
  refine (run_reconcile_of_quiet ?_).1
  intro x hx
  obtain ⟨i, -, rfl⟩ := mem_map.mp hx
  rw [appends_intent]
  exact fun happ => happ.2 (hintent i.2)

section

variable {s : SettleStore} {m : MetaRec} (h : (recover sha hooks oks s).1.metaRec = some m)
include h

theorem openMeta_of_opened : ∃ d, openMeta oks ⟨s, 0⟩ = (d, some m) := by
  generalize hopen : openMeta oks ⟨s, 0⟩ = opened
  obtain ⟨d, m' | m'⟩ := opened
  · unfold recover at h
    rw [hopen] at h
    cases h
  unfold recover at h
  rw [hopen] at h
  cases h
  exact ⟨d, rfl⟩

theorem metaRec_recover : (recover sha hooks oks s).2.metaRec = some (encodeMeta m) := by
  obtain ⟨d, hopen⟩ := openMeta_of_opened h
  have hd : d.store.metaRec = some (encodeMeta m) := by
    unfold openMeta at hopen
    split at hopen
    · cases hopen
    rename_i m' hm'
    cases hok : oks 0 with
    | false =>
      simp only [hok] at hopen
      cases hopen
    | true =>
      simp only [hok, if_true] at hopen
      cases hopen
      unfold Disk.commitSync
      rw [hok]
      rfl
  unfold recover
  rw [hopen]
  exact (metaRec_recoverChains _ d).trans hd

end

theorem openMeta_again {s : SettleStore} {m : MetaRec} (hs : s.metaRec = some (encodeMeta m))
    (hok : oks 0 = true) :
    ∃ d, openMeta oks ⟨s, 0⟩ = (d, some { m with bootId := m.bootId + 1 }) := by
  simp [openMeta, hs, hok, decodeMeta_encodeMeta]

/-! ## The second recovery -/

theorem lost_again_iff {l l' : OwedLedger} {bootId' : U64} (hsettled : l'.settled = l.settled)
    (hgone : Lost hooks bootId c l b → l'.pending.lookup b.1 = none)
    (hkept : ¬ Lost hooks bootId c l b → l'.pending.lookup b.1 = l.pending.lookup b.1) :
    Lost hooks bootId' c l' b ↔
      ¬ stillWins hooks c b.2 ∧ ¬ aliasRefused hooks bootId' b.2 ∧
        (b.1 ∈ l.settled ∨ aliasRefused hooks bootId b.2 ∧ l.pending.lookup b.1 ≠ none) := by
  have hknows : ¬ stillWins hooks c b.2 → (l'.Knows b.1 ↔
      b.1 ∈ l.settled ∨ aliasRefused hooks bootId b.2 ∧ l.pending.lookup b.1 ≠ none) := by
    intro hwins
    unfold OwedLedger.Knows
    rw [hsettled]
    by_cases hlost : Lost hooks bootId c l b
    · rw [hgone hlost]
      simp [hlost.1]
    rw [hkept hlost]
    by_cases hs : b.1 ∈ l.settled
    · simp [hs]
    by_cases ha : aliasRefused hooks bootId b.2
    · simp [hs, ha]
    have hnone : l.pending.lookup b.1 = none := by
      by_contra hp
      exact hlost ⟨ha, .inl hp, hwins⟩
    simp [hs, ha, hnone]
  unfold Lost
  by_cases hwins : stillWins hooks c b.2
  · simp [hwins]
  · rw [hknows hwins]
    simp only [hwins, not_false_eq_true, true_and, and_true]

section Twice

variable {s : SettleStore} {m : MetaRec} {start : Disk × ChainRecovery} {rs : List Round}
  {cr : ChainRecovery}

theorem Started.again (h : Started sha hooks (fun _ => true) s c m start rs cr)
    (hintent : ∀ i, hooks.tryRederiveIntent i = none)
    (horder : (∃ x ∈ rs, Appends sha hooks m.bootId c start.2 x) →
      ∃ evs, InOrder sha (s.chain c) evs)
    (hlt : (s.chain c).levt.entries.length + (s.chain c).blk.entries.length +
      (s.chain c).intent.entries.length < 2 ^ 64)
    (hblks : decodeAll decodeBlk (s.chain c).blk = .ok blks) :
    ∃ (intents : List (Bytes32 × IntentRec)) (start' : Disk × ChainRecovery) (cr' : ChainRecovery),
      start'.2.ledger = cr.ledger ∧
      Started sha hooks (fun _ => true) (recover sha hooks (fun _ => true) s).2 c
        { m with bootId := m.bootId + 1 } start'
        (blks.map Round.block ++ intents.map Round.intent) cr' := by
  obtain ⟨fp, hload⟩ := h.loadable horder hlt (admissible_of_forall (fun s x => fresh_of_noRederive
    hintent s.2 x) start rs) (admissible_of_forall (fun _ _ _ => rfl) start rs)
  obtain ⟨-, intents, -, hintents, -⟩ := h.rounds
  obtain ⟨hblk, hdec⟩ := @records_run sha hooks (fun _ => true) m.bootId c hintent start rs
    (by rw [h.records]; exact decodes_of_decodeAll hintents)
  rw [← h.left] at hblk hdec
  rw [h.records] at hblk
  obtain ⟨intents', hintents'⟩ := exists_decodeAll hdec
  obtain ⟨cr0, hload0, hl0, -⟩ := loadChain_of_loadable hload
  obtain ⟨d, hopen⟩ := @openMeta_again (fun _ => true) _ m (metaRec_recover h.opened) rfl
  have hne : (recover sha hooks (fun _ => true) s).2.chain c ≠ {} := by
    obtain ⟨v, x, hv, -⟩ := hload.hw
    intro hempty
    rw [hempty] at hv
    cases hv
  have hrounds : Rounds ((recover sha hooks (fun _ => true) s).2.chain c)
      (blks.map Round.block ++ intents'.map Round.intent) :=
    ⟨blks, intents', by rw [hblk]; exact hblks, hintents', rfl⟩
  obtain ⟨start', cr', hstart, hstarted⟩ := started_of_loaded hopen hne hload0 hrounds
  exact ⟨intents', start', cr', by rw [hstart, hl0], hstarted⟩

theorem Started.lost_iff (h : Started sha hooks oks s c m start rs cr)
    (hintent : ∀ i, hooks.tryRederiveIntent i = none)
    (hblks : decodeAll decodeBlk (s.chain c).blk = .ok blks) (hb : b ∈ blks)
    (bootId' : U64) : Lost hooks bootId' c cr.ledger b ↔
      ¬ stillWins hooks c b.2 ∧ ¬ aliasRefused hooks bootId' b.2 ∧
        (b.1 ∈ start.2.ledger.settled ∨
          aliasRefused hooks m.bootId b.2 ∧ start.2.ledger.pending.lookup b.1 ≠ none) := by
  have hnodup := nodup_of_decodeAll hblks
  have hfirst : cr.ledger = (Run.run (reconcile sha hooks oks m.bootId c) start
      (blks.map Round.block)).2.ledger := by
    obtain ⟨blks', intents, hblks', -, hrs⟩ := h.rounds
    rw [hblks, Except.ok.injEq] at hblks'
    rw [← h.recovered, hrs, run_append, run_intents hintent, hblks']
  obtain ⟨hsettled, hgone, hkept⟩ := ledger_run_blocks hnodup hfirst
  apply lost_again_iff hsettled (hgone b hb)
  intro hno
  apply hkept
  intro y hy heq hlost
  -- the block has one record only
  have hyb : y = b := inj_on_of_nodup_map hnodup hy hb heq
  rw [hyb] at hlost
  exact hno hlost

/-- After a recovery all of whose commits succeed, a second one logs no event and gives the same
ledger exactly when no lost block had settled, or was open and refused at the first boot only. -/
theorem recover_twice_iff (h : Started sha hooks (fun _ => true) s c m start rs cr)
    (hintent : ∀ i, hooks.tryRederiveIntent i = none)
    (horder : (∃ x ∈ rs, Appends sha hooks m.bootId c start.2 x) →
      ∃ evs, InOrder sha (s.chain c) evs)
    (hlt : (s.chain c).levt.entries.length + (s.chain c).blk.entries.length +
      (s.chain c).intent.entries.length < 2 ^ 64) :
    (∃ cr', (recover sha hooks (fun _ => true)
        (recover sha hooks (fun _ => true) s).2).1.outcome c = some (.ok cr') ∧
      cr'.ledger = cr.ledger ∧
      ((recover sha hooks (fun _ => true)
        (recover sha hooks (fun _ => true) s).2).2.chain c).levt =
          ((recover sha hooks (fun _ => true) s).2.chain c).levt) ↔
    ∀ bid v b, (s.chain c).blk.lookup bid = some v → decodeBlk v = some b →
      ¬ stillWins hooks c b → ¬ aliasRefused hooks (m.bootId + 1) b →
        bid ∉ start.2.ledger.settled ∧
          (aliasRefused hooks m.bootId b → start.2.ledger.pending.lookup bid = none) := by
  obtain ⟨blks, -, hblks, -⟩ := h.rounds
  obtain ⟨intents, start', cr', hledger, hsecond⟩ := h.again hintent horder hlt hblks
  have hlost : (∀ b ∈ blks, ¬ Lost hooks (m.bootId + 1) c cr.ledger b) ↔
      ∀ bid v b, (s.chain c).blk.lookup bid = some v → decodeBlk v = some b →
        ¬ stillWins hooks c b → ¬ aliasRefused hooks (m.bootId + 1) b →
          bid ∉ start.2.ledger.settled ∧
            (aliasRefused hooks m.bootId b → start.2.ledger.pending.lookup bid = none) := by
    constructor
    · intro hall bid v b hv hdec hwins halias
      have hb := (mem_of_decodeAll hblks).mpr ⟨v, hv, hdec⟩
      have hno := hall (bid, b) hb
      rw [h.lost_iff hintent hblks hb] at hno
      simp only [hwins, halias, not_false_eq_true, true_and, not_or, not_and, not_not] at hno
      exact hno
    intro hall b hb hyes
    obtain ⟨v, hv, hdec⟩ := (mem_of_decodeAll hblks).mp hb
    obtain ⟨hwins, halias, hknown⟩ := (h.lost_iff hintent hblks hb _).mp hyes
    obtain ⟨hsettled, hpending⟩ := hall b.1 v b.2 hv hdec hwins halias
    rcases hknown with hs | ⟨ha, hp⟩
    · exact hsettled hs
    · exact hp (hpending ha)
  rw [← hlost]
  constructor
  · rintro ⟨cr2, hout, hsame, -⟩ b hb hyes
    have hcr : cr2 = cr' := by
      rw [hsecond.outcome] at hout
      cases hout
      rfl
    have hgrows := (@seq_run_blocks sha hooks (fun _ => true) (m.bootId + 1) c start' blks).2
      ⟨b, hb, by rw [hledger]; exact hyes⟩
    have hend := hsecond.recovered
    rw [run_append, run_intents hintent] at hend
    rw [hend, ← hcr, hsame, hledger] at hgrows
    exact lt_irrefl _ hgrows
  intro hall
  have hquiet : ∀ x ∈ blks.map Round.block ++ intents.map Round.intent,
      ¬ Appends sha hooks (m.bootId + 1) c start'.2 x := by
    intro x hx
    rcases mem_append.mp hx with hx | hx
    · obtain ⟨b, hb, rfl⟩ := mem_map.mp hx
      rw [appends_block, hledger]
      exact hall b hb
    obtain ⟨i, -, rfl⟩ := mem_map.mp hx
    rw [appends_intent]
    exact fun happ => happ.2 (hintent i.2)
  obtain ⟨hcr, i, hi⟩ := @run_reconcile_of_quiet sha hooks (fun _ => true) (m.bootId + 1) c
    start' _ hquiet
  refine ⟨cr', hsecond.outcome, ?_, ?_⟩
  · rw [← hsecond.recovered]
    exact (congrArg ChainRecovery.ledger hcr).trans hledger
  have hlevt := congrArg ChainRecords.levt hi
  have hrecords := congrArg ChainRecords.levt hsecond.records
  rw [hsecond.left]
  exact hlevt.trans hrecords

end Twice

/-- An open block that is lost is orphaned once. -/
theorem recover_twice_foundStore : ∃ cr cr',
    (recover Sha256.sha256d {} (fun _ => true) foundStore).1.outcome 0 = some (.ok cr) ∧
    (recover Sha256.sha256d {} (fun _ => true)
      (recover Sha256.sha256d {} (fun _ => true) foundStore).2).1.outcome 0 = some (.ok cr') ∧
    cr'.ledger = cr.ledger ∧
    ((recover Sha256.sha256d {} (fun _ => true)
      (recover Sha256.sha256d {} (fun _ => true) foundStore).2).2.chain 0).levt =
        ((recover Sha256.sha256d {} (fun _ => true) foundStore).2.chain 0).levt := by
  have houtcome : (((recover Sha256.sha256d {} (fun _ => true) foundStore).1.outcome 0).map fun o =>
      o.toOption.map fun cr => cr.ledger.seq) = some (some 2) := by
    decide +kernel
  have hsettled : ((loadChain Sha256.sha256d {} 0 (foundStore.chain 0)).toOption.map
      fun cr => cr.ledger.settled) = some ∅ := by
    decide +kernel
  have hblk : ∃ b : BlkRec, b.token.incarnation = 0 ∧
      (foundStore.chain 0).blk = (∅ : SortedMap Bid (List Byte)).insert [1] (encodeBlk b) :=
    ⟨_, rfl, rfl⟩
  obtain ⟨cr, hcr, -⟩ := outcome_of_map houtcome
  obtain ⟨m, start, rs, h⟩ := exists_started hcr
  obtain ⟨cr', hout, hledger, hlevt⟩ := (recover_twice_iff h (fun _ => rfl)
    (fun _ => inOrder_foundStore) (by decide +kernel)).mpr (by
      intro bid v b hv hdec _ _
      obtain ⟨b', htoken, hblk⟩ := hblk
      rw [h.loaded] at hsettled
      have hnone : start.2.ledger.settled = ∅ := Option.some.inj hsettled
      constructor
      · rw [hnone]
        simp
      intro halias
      rw [hblk, SortedMap.lookup_insert] at hv
      split at hv
      · cases hv
        rw [decodeBlk_encodeBlk] at hdec
        cases hdec
        exact (halias.1 htoken).elim
      · cases hv)
  exact ⟨cr, cr', hcr, hout, hledger, hlevt⟩

def settledStore : SettleStore :=
  (SettlementJournal.after Sha256.sha256d 1
    [(0, .tip 10 1 true), (0, .found { bid := [1], height := 7 } true true true),
      (0, .finalized [1] 8 true)]).store

/-- A settled block that is lost is orphaned by every recovery. -/
theorem recover_twice_settledStore : ∃ cr cr',
    (recover Sha256.sha256d {} (fun _ => true) settledStore).1.outcome 0 = some (.ok cr) ∧
    (recover Sha256.sha256d {} (fun _ => true)
      (recover Sha256.sha256d {} (fun _ => true) settledStore).2).1.outcome 0 = some (.ok cr') ∧
    cr.ledger.seq = 3 ∧ cr'.ledger.seq = 4 := by
  have hfirst : (((recover Sha256.sha256d {} (fun _ => true) settledStore).1.outcome 0).map fun o =>
      o.toOption.map fun cr => cr.ledger.seq) = some (some 3) := by
    decide +kernel
  have hsecond : (((recover Sha256.sha256d {} (fun _ => true)
      (recover Sha256.sha256d {} (fun _ => true) settledStore).2).1.outcome 0).map fun o =>
        o.toOption.map fun cr => cr.ledger.seq) = some (some 4) := by
    decide +kernel
  obtain ⟨cr, hcr, hseq⟩ := outcome_of_map hfirst
  obtain ⟨cr', hcr', hseq'⟩ := outcome_of_map hsecond
  exact ⟨cr, cr', hcr, hcr', hseq, hseq'⟩

end C2Pool.V37
