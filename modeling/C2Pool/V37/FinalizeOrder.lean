import C2Pool.V37.RecoveryDisk

/-! # The order of the FINALIZE events over restarts

A node runs one `SettlementJournal` after the other on one store. The check that `bin_height` does
not decrease (`m_last_finalize_bin`) is memory of the journal, so that a new one accepts any height
up to the high-water.
-/

namespace C2Pool.V37

open List SettleStore Function Nat

/-- A node: its journal, the chains that it runs, and the FINALIZE batches committed so far, each
with the high-water that it stores. -/
structure Node where
  journal : SettlementJournal := {}
  started : U32 → Bool := fun _ => true
  finalizes : U32 → List (EventRec × SettleHW) := fun _ => []

/-- A call of the journal, or a restart with the hooks and the results of the commits of
`recover`. -/
inductive NodeStep where
  | call (c : U32) (call : JournalCall)
  | restart (hooks : RecoveryHooks) (oks : Nat → Bool)

section Node

variable (sha : List Byte → Bytes32)

def finalizeBatch (bootId : U64) (c : U32) (s : SettleStore) (m : ChainMem) :
    JournalCall → List (EventRec × SettleHW)
  | .finalized bid binHeight ok =>
    let r := onBlockFinalized sha bootId c s m bid binHeight ok
    if r.1 = .finalized then [(finalizeEvent r.2.2.ledger.ledgerSeq bid binHeight, r.2.2.hw)]
    else []
  | _ => []

def ChainMem.ofOutcome : Option Outcome → ChainMem
  | some (.ok cr) => { hw := cr.hw, ledger := cr.ledger }
  | _ => {}

/-- A chain without a record, or that `recover` marked started. -/
def isStarted : Option Outcome → Bool
  | some (.error _) => false
  | _ => true

namespace Node

def call (n : Node) (c : U32) (call : JournalCall) : Node :=
  if n.started c then
    { n with
      journal := n.journal.call sha (c, call)
      finalizes := Function.update n.finalizes c (n.finalizes c ++
        finalizeBatch sha n.journal.bootId c n.journal.store (n.journal.chains c) call) }
  else n

def restart (n : Node) (hooks : RecoveryHooks) (oks : Nat → Bool) : Node :=
  let r := recover sha hooks oks n.journal.store
  match r.1.metaRec with
  | none => { n with journal := { store := r.2 }, started := fun _ => false }
  | some m =>
    { n with
      journal := { store := r.2, bootId := m.bootId, chains := fun c => .ofOutcome (r.1.outcome c) }
      started := fun c => isStarted (r.1.outcome c) }

def step (n : Node) : NodeStep → Node
  | .call c call => n.call sha c call
  | .restart hooks oks => n.restart sha hooks oks

end Node

end Node

variable {sha : List Byte → Bytes32} {hooks : RecoveryHooks} {oks : Nat → Bool}
  {r r' : ChainRecords} {n : Node}
variable {bootId : U64} {c : U32} {s : SettleStore} {m : ChainMem}

/-- The `ledger_seq` of the stored high-water. -/
def storedSeq (r : ChainRecords) : Nat :=
  ((r.hw.bind decodeHw).map fun h => h.hw.ledgerSeq.val).getD 0

theorem storedSeq_of_hw {r : ChainRecords} {hw : SettleHW}
    (h : r.hw = some (encodeHw ⟨c, bootId, hw⟩)) : storedSeq r = hw.ledgerSeq.val := by
  unfold storedSeq
  rw [h, Option.bind_some, decodeHw_encodeHw]
  rfl

theorem storedSeq_congr (h : r'.hw = r.hw) : storedSeq r' = storedSeq r := by
  unfold storedSeq
  rw [h]

/-- The stored count moves from `r` up to that of a ledger. -/
def Catches (r r' : ChainRecords) (l : OwedLedger) : Prop :=
  storedSeq r ≤ storedSeq r' ∧ storedSeq r' ≤ l.seq

theorem Catches.same {l l' : OwedLedger} (h : storedSeq r ≤ l.seq)
    (hhw : r'.hw = r.hw) (hle : l.seq ≤ l'.seq) : Catches r r' l' := by
  unfold Catches
  rw [storedSeq_congr hhw]
  exact ⟨le_refl _, h.trans hle⟩

theorem Catches.stamp {r r' : ChainRecords} {l l' : OwedLedger} {hw : SettleHW}
    (h : storedSeq r ≤ l.seq) (hhw : r'.hw = some (encodeHw ⟨c, bootId, hw⟩))
    (hseq : hw.ledgerSeq = l'.ledgerSeq) (hle : l.seq ≤ l'.seq) (hlt : l'.seq < 2 ^ 64) :
    Catches r r' l' := by
  have hval : storedSeq r' = l'.seq := by
    rw [storedSeq_of_hw hhw, hseq, ledgerSeq_val hlt]
  unfold Catches
  omega

theorem seq_call_le (l : OwedLedger) (e : LedgerCall) :
    l.seq ≤ (l.call sha {} e).seq ∧ (l.call sha {} e).seq ≤ l.seq + 1 := by
  rcases @OwedLedger.call_eq_or_seq sha {} l e with heq | heq
  · rw [heq]
    omega
  · omega

/-! ## The calls of a journal -/

theorem onBlockFinalized_finalized {bid : Bid} {binHeight : U64} {ok : Bool}
    (h : (onBlockFinalized sha bootId c s m bid binHeight ok).1 = .finalized)
    {l : OwedLedger} (hl : l = m.ledger.call sha {} (.finalized bid binHeight)) :
    m.poisoned = false ∧ (∀ last, m.lastFinalizeBin = some last → last ≤ binHeight) ∧
      binHeight ≤ m.hw.hwHeight ∧ l.ledgerSeq ≠ m.ledger.ledgerSeq ∧
      onBlockFinalized sha bootId c s m bid binHeight ok =
        (.finalized, s.commitSync true (onChain c (eventOps sha bootId c
          (finalizeEvent l.ledgerSeq bid binHeight) (stampSeq m.hw l) l)),
          { m with
            ledger := l
            hw := stampSeq m.hw l
            lastFinalizeBin := some binHeight }) := by
  have hcall : m.ledger.onBlockFinalized sha {} bid binHeight = l := hl.symm
  unfold onBlockFinalized at h ⊢
  rw [hcall] at h ⊢
  by_cases hp : m.poisoned = true
  · rw [if_pos hp] at h
    cases h
  rw [if_neg hp] at h ⊢
  by_cases hlast : (m.lastFinalizeBin.any fun last => binHeight < last) = true
  · rw [if_pos hlast] at h
    cases h
  rw [if_neg hlast] at h ⊢
  by_cases hhw : m.hw.hwHeight < binHeight
  · rw [if_pos hhw] at h
    cases h
  rw [if_neg hhw] at h ⊢
  by_cases hseq : l.ledgerSeq = m.ledger.ledgerSeq
  · rw [if_pos hseq] at h
    cases h
  rw [if_neg hseq] at h ⊢
  cases ok with
  | false => cases h
  | true =>
    refine ⟨by simpa using hp, ?_, not_lt.mp hhw, hseq, rfl⟩
    intro last heq
    rw [heq] at hlast
    simpa using hlast

section

variable {call : JournalCall} {b : EventRec × SettleHW}
  (h : b ∈ finalizeBatch sha bootId c s m call)
include h

theorem mem_finalizeBatch :
    ∃ bid binHeight ok, call = .finalized bid binHeight ok ∧
      (onBlockFinalized sha bootId c s m bid binHeight ok).1 = .finalized ∧
      finalizeBatch sha bootId c s m call = [b] ∧
      b = (finalizeEvent (m.ledger.call sha {} (.finalized bid binHeight)).ledgerSeq bid
        binHeight, stampSeq m.hw (m.ledger.call sha {} (.finalized bid binHeight))) := by
  cases call with
  | finalized bid binHeight ok =>
    simp only [finalizeBatch] at h ⊢
    by_cases hres : (onBlockFinalized sha bootId c s m bid binHeight ok).1 = .finalized
    · rw [if_pos hres] at h ⊢
      obtain ⟨-, -, -, -, hstep⟩ := onBlockFinalized_finalized hres rfl
      refine ⟨bid, binHeight, ok, rfl, hres, ?_, ?_⟩
      · rw [mem_singleton.mp h]
      · rw [mem_singleton.mp h, hstep]
    · rw [if_neg hres] at h
      cases h
  | tip height t ok => cases h
  | found f okIntent carrierOk okFound => cases h
  | orphaned bid settledPayout ok => cases h

theorem stored_of_mem_finalizeBatch :
    let r := (SettlementJournal.callChain sha bootId c s m call).1.chain c
    b.1.evkind = .finalize ∧ r.levt.lookup b.1.seq = some (encodeEvent b.1) ∧
      r.hw = some (encodeHw ⟨c, bootId, b.2⟩) := by
  obtain ⟨bid, binHeight, ok, rfl, hres, -, rfl⟩ := mem_finalizeBatch h
  obtain ⟨-, -, -, -, hstep⟩ := onBlockFinalized_finalized hres rfl
  simp only [SettlementJournal.callChain]
  rw [hstep]
  rw [chain_commitSync, if_pos rfl]
  simp [eventOps, headOps, ChainRecords.set, SortedMap.set, finalizeEvent, SortedMap.lookup_insert]

end

theorem catches_eventCases (h : storedSeq (s.chain c) ≤ m.ledger.seq)
    (hlt : m.ledger.seq + 1 < 2 ^ 64) {e : EventRec} {committed : Bool} {s' : SettleStore}
    {m' : ChainMem} (hcases : EventCases sha bootId c s m e committed s' m') :
    storedSeq (s.chain c) ≤ storedSeq (s'.chain c) ∧
      (m'.poisoned = false → storedSeq (s'.chain c) ≤ m'.ledger.seq) := by
  obtain ⟨-, rfl, rfl⟩ | ⟨-, rfl, hp⟩ | ⟨-, -, -, -, rfl, -, hl, -⟩ := hcases
  · exact ⟨le_refl _, fun _ => h⟩
  · refine ⟨le_refl _, fun hno => ?_⟩
    rw [hp] at hno
    cases hno
  · have hle := @seq_call_le sha m.ledger e.toCall
    rw [chain_commitSync, if_pos rfl, hl]
    have hcatch := @Catches.stamp bootId c (s.chain c)
      ((eventOps sha bootId c e (stampSeq m.hw (m.ledger.call sha {} e.toCall))
        (m.ledger.call sha {} e.toCall)).foldl (fun r op => r.set op.2 op.1) (s.chain c))
      m.ledger (m.ledger.call sha {} e.toCall) _ h rfl rfl hle.1 (by omega)
    exact ⟨hcatch.1, fun _ => hcatch.2⟩

theorem catches_callChain (h : storedSeq (s.chain c) ≤ m.ledger.seq)
    (hlt : m.ledger.seq + 1 < 2 ^ 64) (call : JournalCall) :
    storedSeq (s.chain c) ≤
        storedSeq ((SettlementJournal.callChain sha bootId c s m call).1.chain c) ∧
      ((SettlementJournal.callChain sha bootId c s m call).2.poisoned = false →
        storedSeq ((SettlementJournal.callChain sha bootId c s m call).1.chain c) ≤
          (SettlementJournal.callChain sha bootId c s m call).2.ledger.seq) := by
  cases call with
  | tip height t ok =>
    simp only [SettlementJournal.callChain]
    obtain heq | ⟨hw', heq⟩ | ⟨res, hw', -, hp, hseq, heq⟩ :=
      @onTipAdvanced_cases bootId c s m height t ok
    · rw [heq]
      exact ⟨le_refl _, fun _ => h⟩
    · rw [heq]
      exact ⟨le_refl _, fun hno => by cases hno⟩
    · rw [heq]
      rw [chain_commitSync, if_pos rfl]
      have hcatch := @Catches.stamp bootId c (s.chain c)
        ((s.chain c).set (some (encodeHw ⟨c, bootId, hw'⟩)) .hw) m.ledger m.ledger hw' h rfl hseq
        (le_refl _) (by omega)
      exact ⟨hcatch.1, fun _ => hcatch.2⟩
  | found f okIntent carrierOk okFound =>
    simp only [SettlementJournal.callChain]
    obtain ⟨res, -, heq⟩ | ⟨res, ok, m', -, hm, heq⟩ | ⟨hp, hnew, heq⟩ :=
      @onBlockFoundTwophase_cases sha bootId c s m f okIntent carrierOk okFound
    · rw [heq]
      exact ⟨le_refl _, fun _ => h⟩
    · have hhw : ((s.commitSync ok (onChain c [(.intent f.shareHash,
          some (encodeIntent { f with ts := 0 }))])).chain c).hw = (s.chain c).hw := by
        rw [chain_commitSync]
        split <;> rfl
      rw [heq]
      rw [storedSeq_congr hhw]
      refine ⟨le_refl _, fun hno => ?_⟩
      rcases hm with rfl | hm
      · exact h
      · rw [hm] at hno
        cases hno
    · have hle := @seq_call_le sha m.ledger
        (.found f.bid { credit := f.credit, payout := f.payout })
      rw [heq]
      generalize hl : m.ledger.call sha {}
        (.found f.bid { credit := f.credit, payout := f.payout }) = l at hle ⊢
      have hhw : (((s.commitSync true (onChain c [(.intent f.shareHash,
          some (encodeIntent { f with ts := 0 }))])).commitSync true
          (onChain c (foundOps sha bootId c f (stampSeq m.hw l) m.ledger l))).chain c).hw =
            some (encodeHw ⟨c, bootId, stampSeq m.hw l⟩) := by
        rw [chain_commitSync, if_pos rfl]
        unfold foundOps
        split <;> rfl
      have hcatch := Catches.stamp h hhw rfl hle.1 (by omega)
      exact ⟨hcatch.1, fun _ => hcatch.2⟩
  | finalized bid binHeight ok =>
    exact catches_eventCases h hlt (onBlockFinalized_cases hlt bid binHeight ok)
  | orphaned bid settledPayout ok =>
    exact catches_eventCases h hlt (onBlockOrphaned_cases hlt bid settledPayout ok)

/-! ## The rounds of a recovery -/

theorem catches_reconcile {s : Disk × ChainRecovery} (x : Round)
    (h : storedSeq (s.1.store.chain c) ≤ s.2.ledger.seq)
    (hsync : s.2.lhead.ledgerSeq = s.2.ledger.ledgerSeq) (hlt : s.2.ledger.seq + 1 < 2 ^ 64) :
    Catches (s.1.store.chain c)
        ((reconcile sha hooks oks bootId c s x).1.store.chain c)
        (reconcile sha hooks oks bootId c s x).2.ledger ∧
      (reconcile sha hooks oks bootId c s x).2.lhead.ledgerSeq =
        (reconcile sha hooks oks bootId c s x).2.ledger.ledgerSeq ∧
      (reconcile sha hooks oks bootId c s x).2.ledger.seq ≤ s.2.ledger.seq + 1 := by
  by_cases happ : Appends sha hooks bootId c s.2 x
  · obtain ⟨e, more, hl⟩ := happ
    have hle := @seq_call_le sha s.2.ledger e.toCall
    cases hok : oks s.1.count with
    | true =>
      obtain ⟨d, cr, heq, hledger, -, hsynced, -, -, hhw, -⟩ :=
        @Logged.records sha hooks oks bootId c s x e more hl hsync hlt hok
      rw [heq]
      rw [← hledger] at hle
      have hbound : cr.ledger.seq < 2 ^ 64 := by omega
      exact ⟨Catches.stamp h hhw rfl hle.1 hbound, hsynced, hle.2⟩
    | false =>
      have hstore : (s.1.commitSync oks (onChain c
          ([(.levt e.seq, some (encodeEvent e)), (.lhead, some (encodeLhead
            { s.2.lhead with
              ledgerSeq := (s.2.ledger.call sha {} e.toCall).ledgerSeq
              owedDigest := (s.2.ledger.call sha {} e.toCall).digestDefault sha })),
            (.hw, some (encodeHw ⟨c, bootId,
              stampSeq s.2.hw (s.2.ledger.call sha {} e.toCall)⟩)), (.lmmr, some (encodeLmmr
              (lmmrOf sha (s.2.ledger.call sha {} e.toCall) bootId)))] ++
            more))).store.chain c = s.1.store.chain c := by
        rw [Disk.chain_commitSync, if_neg (by rw [hok]; simp)]
      rw [@reconcile_of_logged sha hooks oks bootId c s x e more hl hsync hlt]
      exact ⟨Catches.same h (congrArg ChainRecords.hw hstore) hle.1, rfl, hle.2⟩
  obtain heq | ⟨i, -, heq⟩ := @reconcile_of_quiet sha hooks oks bootId c s x happ
  · rw [heq]
    exact ⟨Catches.same h rfl (le_refl _), hsync, le_succ _⟩
  have hhw : ((dropIntent oks c s.1 i.1).store.chain c).hw = (s.1.store.chain c).hw := by
    rw [chain_dropIntent]
    split <;> rfl
  rw [heq]
  exact ⟨Catches.same h hhw (le_refl _), hsync, le_succ _⟩

theorem catches_run_reconcile {s : Disk × ChainRecovery} {rs : List Round}
    (h : storedSeq (s.1.store.chain c) ≤ s.2.ledger.seq)
    (hsync : s.2.lhead.ledgerSeq = s.2.ledger.ledgerSeq)
    (hlt : s.2.ledger.seq + rs.length < 2 ^ 64) :
    Catches (s.1.store.chain c)
      ((Run.run (reconcile sha hooks oks bootId c) s rs).1.store.chain c)
      (Run.run (reconcile sha hooks oks bootId c) s rs).2.ledger := by
  induction rs generalizing s with
  | nil => exact ⟨le_refl _, h⟩
  | cons x rs ih =>
    rw [length_cons] at hlt
    obtain ⟨hcatch, hsynced, hseq⟩ :=
      @catches_reconcile sha hooks oks bootId c s x h hsync (by omega)
    have hrest := ih hcatch.2 hsynced (by omega)
    exact ⟨hcatch.1.trans hrest.1, hrest.2⟩

def Countable (r : ChainRecords) : Prop :=
  r.levt.entries.length + r.blk.entries.length + r.intent.entries.length < 2 ^ 64

instance (r : ChainRecords) : Decidable (Countable r) := inferInstanceAs (Decidable (_ < _))

theorem catches_of_loadChain {cr : ChainRecovery} (h : loadChain sha hooks c r = .ok cr) :
    storedSeq r ≤ cr.ledger.seq ∧ cr.ledger.seq ≤ r.levt.entries.length ∧
      cr.lhead.ledgerSeq = cr.ledger.ledgerSeq := by
  obtain ⟨hload, hsynced⟩ := loadable_of_loadChain h
  refine ⟨?_, ?_, hsynced⟩
  · obtain ⟨v, x, hv, hx, hseq⟩ := hload.hw
    unfold storedSeq
    rw [hv, Option.bind_some, hx]
    show x.hw.ledgerSeq.val ≤ _
    rw [hseq]
    exact mod_le _ _
  obtain ⟨n, hreplay⟩ := hload.replay
  have hle := seq_replayEvents_le hreplay
  dsimp only at hle
  omega

theorem catches_recoverChain {d : Disk} (hr : Countable (d.store.chain c)) :
    storedSeq (d.store.chain c) ≤
        storedSeq ((recoverChain sha hooks oks bootId c d).1.store.chain c) ∧
      ∀ cr, (recoverChain sha hooks oks bootId c d).2 = .ok cr →
        storedSeq ((recoverChain sha hooks oks bootId c d).1.store.chain c) ≤ cr.ledger.seq := by
  unfold recoverChain
  cases hload : loadChain sha hooks c (d.store.chain c) with
  | error e => exact ⟨le_refl _, fun cr hcr => by cases hcr⟩
  | ok cr0 =>
    obtain ⟨hle, hlen, hsync⟩ := catches_of_loadChain hload
    unfold ownBlockReconcile
    cases hblks : decodeAll decodeBlk (d.store.chain c).blk with
    | error bid => exact ⟨le_refl _, fun cr hcr => by cases hcr⟩
    | ok blks =>
      have hcount := length_of_decodeAll hblks
      unfold Countable at hr
      have hown : ∀ intents : List (Bytes32 × IntentRec),
          intents.length = (d.store.chain c).intent.entries.length ∨ intents = [] →
          Catches (d.store.chain c)
            ((intents.foldl (reconcileIntent sha hooks oks bootId c)
              (blks.foldl (reconcileBlock sha hooks oks bootId c)
                (d, cr0))).1.store.chain c)
            (intents.foldl (reconcileIntent sha hooks oks bootId c)
              (blks.foldl (reconcileBlock sha hooks oks bootId c) (d, cr0))).2.ledger := by
        intro intents hintents
        rw [← run_reconcile]
        apply @catches_run_reconcile sha hooks oks bootId c (d, cr0) _ hle hsync
        rw [length_append, length_map, length_map]
        rcases hintents with hintents | rfl
        · dsimp only
          omega
        rw [length_nil]
        dsimp only
        omega
      have hkept := @intent_foldl_reconcileBlock sha hooks oks bootId c (d, cr0) blks
      dsimp only
      unfold intentReconcile
      cases hintents : decodeAll decodeIntent
        ((blks.foldl (reconcileBlock sha hooks oks bootId c)
          (d, cr0)).1.store.chain c).intent with
      | error h => exact ⟨(hown [] (.inr rfl)).1, fun cr hcr => by cases hcr⟩
      | ok intents =>
        have hlength := length_of_decodeAll hintents
        rw [hkept] at hlength
        have hall := hown intents (.inl hlength)
        refine ⟨hall.1, fun cr hcr => ?_⟩
        cases hcr
        exact hall.2

theorem catches_recover {s : SettleStore} (hr : Countable (s.chain c)) :
    storedSeq (s.chain c) ≤ storedSeq ((recover sha hooks oks s).2.chain c) ∧
      ((recover sha hooks oks s).1.metaRec ≠ none →
        isStarted ((recover sha hooks oks s).1.outcome c) = true →
        storedSeq ((recover sha hooks oks s).2.chain c) ≤
          (ChainMem.ofOutcome ((recover sha hooks oks s).1.outcome c)).ledger.seq) := by
  generalize hopen : openMeta oks ⟨s, 0⟩ = opened
  have hchain := @chain_openMeta oks c ⟨s, 0⟩
  rw [hopen] at hchain
  obtain ⟨d, m | m⟩ := opened
  · unfold recover
    rw [hopen]
    rw [hchain]
    exact ⟨le_refl _, fun hno => (hno rfl).elim⟩
  by_cases hc : s.chain c = {}
  · have hnot : c ∉ d.store.unionChains := by
      rw [mem_unionChains, hchain]
      exact not_not.mpr hc
    have hsame : (recover sha hooks oks s).2.chain c = s.chain c := by
      unfold recover
      rw [hopen]
      exact (chain_recoverChains_of_not_mem hnot d).trans hchain
    rw [hsame, hc]
    exact ⟨le_refl _, fun _ _ => zero_le _⟩
  obtain ⟨hd, houtcome, hleft⟩ := @recover_of_openMeta sha hooks oks c s d m hopen hc
  have hrecords : (diskAt sha hooks oks m.bootId c d).store.chain c = s.chain c :=
    (chain_diskAt d).trans hd
  have hcatch := @catches_recoverChain sha hooks oks m.bootId c
    (diskAt sha hooks oks m.bootId c d) (by rw [hrecords]; exact hr)
  rw [hrecords] at hcatch
  rw [hleft, houtcome]
  refine ⟨hcatch.1, fun _ hstarted => ?_⟩
  cases hout : (recoverChain sha hooks oks m.bootId c
      (diskAt sha hooks oks m.bootId c d)).2 with
  | error e =>
    rw [hout] at hstarted
    cases hstarted
  | ok cr => exact hcatch.2 cr hout

/-! ## Histories -/

def JournalCall.Resumes (fs : List (EventRec × SettleHW)) (m : ChainMem) : JournalCall → Prop
  | .finalized _ binHeight _ => m.lastFinalizeBin = none → ∀ b ∈ fs, b.1.binHeight ≤ binHeight
  | _ => True

instance (fs : List (EventRec × SettleHW)) (m : ChainMem) :
    (call : JournalCall) → Decidable (call.Resumes fs m)
  | .finalized _ _ _ => inferInstanceAs (Decidable (_ → _))
  | .tip _ _ _ => .isTrue trivial
  | .found _ _ _ _ => .isTrue trivial
  | .orphaned _ _ _ => .isTrue trivial

/-- The FINALIZE calls on a chain resume from the committed ones, and the count of its events stays
in 64 bits. -/
def Resumes (c : U32) (n : Node) : NodeStep → Prop
  | .call c' call =>
    c' = c → n.started c = true → (n.journal.chains c).poisoned = false →
      (n.journal.chains c).ledger.seq + 1 < 2 ^ 64 ∧
        call.Resumes (n.finalizes c) (n.journal.chains c)
  | .restart _ _ => Countable (n.journal.store.chain c)

instance (c : U32) (n : Node) : (x : NodeStep) → Decidable (Resumes c n x)
  | .call _ _ => inferInstanceAs (Decidable (_ → _ → _ → _ ∧ _))
  | .restart _ _ => inferInstanceAs (Decidable (Countable _))

/-- The FINALIZE batches of a chain are in order, and the stored count and the memory are past
them. -/
structure Ordered (fs : List (EventRec × SettleHW)) (r : ChainRecords) (started : Bool)
    (m : ChainMem) : Prop where
  sorted : fs.Pairwise fun a b => a.1.seq < b.1.seq ∧ a.1.binHeight ≤ b.1.binHeight
  below : ∀ b ∈ fs, b.1.binHeight ≤ b.2.hwHeight
  reached : ∀ b ∈ fs, b.1.seq.val ≤ storedSeq r
  ahead : started = true → m.poisoned = false → storedSeq r ≤ m.ledger.seq
  last : ∀ last, m.lastFinalizeBin = some last → ∀ b ∈ fs, b.1.binHeight ≤ last

theorem ordered_nil : Ordered [] {} true {} where
  sorted := List.Pairwise.nil
  below := fun b hb => (not_mem_nil hb).elim
  reached := fun b hb => (not_mem_nil hb).elim
  ahead := fun _ _ => le_refl _
  last := fun _ h => by cases h

theorem callChain_of_poisoned (hp : m.poisoned = true) (call : JournalCall) :
    SettlementJournal.callChain sha bootId c s m call = (s, m) ∧
      finalizeBatch sha bootId c s m call = [] := by
  cases call with
  | tip height t ok => simp [SettlementJournal.callChain, onTipAdvanced, hp, finalizeBatch]
  | found f okIntent carrierOk okFound =>
    simp [SettlementJournal.callChain, onBlockFoundTwophase, hp, finalizeBatch]
  | finalized bid binHeight ok =>
    simp [SettlementJournal.callChain, onBlockFinalized, hp, finalizeBatch]
  | orphaned bid settledPayout ok =>
    simp [SettlementJournal.callChain, onBlockOrphaned, hp, finalizeBatch]

theorem lastFinalizeBin_callChain (call : JournalCall)
    (h : finalizeBatch sha bootId c s m call = []) :
    (SettlementJournal.callChain sha bootId c s m call).2.lastFinalizeBin = m.lastFinalizeBin := by
  cases call with
  | tip height t ok =>
    simp only [SettlementJournal.callChain]
    obtain heq | ⟨hw', heq⟩ | ⟨res, hw', -, -, -, heq⟩ :=
      @onTipAdvanced_cases bootId c s m height t ok
    · rw [heq]
    · rw [heq]
    · rw [heq]
  | found f okIntent carrierOk okFound =>
    simp only [SettlementJournal.callChain, onBlockFoundTwophase]
    split_ifs <;> rfl
  | finalized bid binHeight ok =>
    simp only [SettlementJournal.callChain, finalizeBatch] at h ⊢
    by_cases hres : (onBlockFinalized sha bootId c s m bid binHeight ok).1 = .finalized
    · rw [if_pos hres] at h
      cases h
    · simp only [onBlockFinalized] at hres ⊢
      split_ifs at hres ⊢ <;> first | rfl | exact (hres rfl).elim
  | orphaned bid settledPayout ok =>
    simp only [SettlementJournal.callChain, onBlockOrphaned]
    split_ifs <;> rfl

theorem Ordered.callChain {fs : List (EventRec × SettleHW)} (h : Ordered fs (s.chain c) true m)
    {call : JournalCall} (hp : m.poisoned = false) (hlt : m.ledger.seq + 1 < 2 ^ 64)
    (hresume : call.Resumes fs m) :
    Ordered (fs ++ finalizeBatch sha bootId c s m call)
      ((SettlementJournal.callChain sha bootId c s m call).1.chain c) true
      (SettlementJournal.callChain sha bootId c s m call).2 := by
  have hcatch := @catches_callChain sha bootId c s m (h.ahead rfl hp) hlt call
  have hreached : ∀ b ∈ fs, b.1.seq.val ≤
      storedSeq ((SettlementJournal.callChain sha bootId c s m call).1.chain c) :=
    fun b hb => (h.reached b hb).trans hcatch.1
  cases hbatch : finalizeBatch sha bootId c s m call with
  | nil =>
    have hlast := lastFinalizeBin_callChain call hbatch
    rw [append_nil]
    refine ⟨h.sorted, h.below, hreached, fun _ => hcatch.2, fun last hsome => ?_⟩
    rw [hlast] at hsome
    exact h.last last hsome
  | cons b rest =>
    have hmem : b ∈ finalizeBatch sha bootId c s m call := by
      rw [hbatch]
      exact mem_cons_self
    have hstored := stored_of_mem_finalizeBatch hmem
    obtain ⟨bid, binHeight, ok, rfl, hres, hone, hb⟩ := mem_finalizeBatch hmem
    obtain ⟨-, hmono, hhigh, hseq, hstep⟩ := onBlockFinalized_finalized hres rfl
    have hnum := call_seq_of_ledgerSeq_ne hseq
    have hnext : b.1.seq.val = m.ledger.seq + 1 := by
      rw [hb, ← hnum]
      exact ledgerSeq_val (by omega)
    have hbin : b.1.binHeight = binHeight := by rw [hb]; rfl
    -- the earlier heights: below the last one of this journal, or resumed from
    have hall : ∀ a ∈ fs, a.1.binHeight ≤ binHeight := by
      cases hlast : m.lastFinalizeBin with
      | none => exact hresume hlast
      | some last => exact fun a ha => (h.last last hlast a ha).trans (hmono last hlast)
    rw [← hbatch, hone]
    refine ⟨?_, ?_, ?_, fun _ => hcatch.2, ?_⟩
    · rw [pairwise_append]
      refine ⟨h.sorted, pairwise_singleton _ _, fun a ha x hx => ?_⟩
      rw [mem_singleton.mp hx, hbin]
      have hle := (h.reached a ha).trans (h.ahead rfl hp)
      exact ⟨Fin.lt_def.mpr (by omega), hall a ha⟩
    · intro x hx
      rcases mem_append.mp hx with hx | hx
      · exact h.below x hx
      · rw [mem_singleton.mp hx, hbin, hb]
        exact hhigh
    · intro x hx
      rcases mem_append.mp hx with hx | hx
      · exact hreached x hx
      · rw [mem_singleton.mp hx, storedSeq_of_hw hstored.2.2, hb]
        exact le_refl _
    · intro last hsome x hx
      simp only [SettlementJournal.callChain] at hsome
      rw [hstep] at hsome
      cases hsome
      rcases mem_append.mp hx with hx | hx
      · exact hall x hx
      · rw [mem_singleton.mp hx, hbin]

def Node.Ordered (c : U32) (n : Node) : Prop :=
  V37.Ordered (n.finalizes c) (n.journal.store.chain c) (n.started c) (n.journal.chains c)

theorem Node.Ordered.call (h : n.Ordered c) {c' : U32} {call : JournalCall}
    (hguard : Resumes c n (.call c' call)) : (n.call sha c' call).Ordered c := by
  unfold Node.call
  by_cases hstarted : n.started c' = true
  · rw [if_pos hstarted]
    unfold Node.Ordered at h ⊢
    simp only [SettlementJournal.call]
    by_cases hc : c' = c
    · subst hc
      rw [update_self, update_self, hstarted]
      rw [hstarted] at h
      cases hp : (n.journal.chains c').poisoned with
      | true =>
        obtain ⟨hsame, hbatch⟩ := @callChain_of_poisoned sha n.journal.bootId c'
          n.journal.store (n.journal.chains c') hp call
        rw [hbatch, hsame, append_nil]
        exact h
      | false =>
        obtain ⟨hlt, hbin⟩ := hguard rfl hstarted hp
        exact h.callChain hp hlt hbin
    have hne : c ≠ c' := fun heq => hc heq.symm
    rw [update_of_ne hne, update_of_ne hne, SettlementJournal.chain_callChain_of_ne hne]
    exact h
  · rw [if_neg hstarted]
    exact h

theorem Node.Ordered.restart (h : n.Ordered c) (hcount : Countable (n.journal.store.chain c)) :
    (n.restart sha hooks oks).Ordered c := by
  obtain ⟨hgrow, hahead⟩ := @catches_recover sha hooks oks c n.journal.store hcount
  have hreached : ∀ b ∈ n.finalizes c, b.1.seq.val ≤
      storedSeq ((recover sha hooks oks n.journal.store).2.chain c) :=
    fun b hb => (h.reached b hb).trans hgrow
  unfold Node.restart
  dsimp only
  cases hmeta : (recover sha hooks oks n.journal.store).1.metaRec with
  | none =>
    refine ⟨h.sorted, h.below, hreached, ?_, ?_⟩
    · intro hno
      cases hno
    · intro last hno
      cases hno
  | some boot =>
    refine ⟨h.sorted, h.below, hreached, ?_, ?_⟩
    · intro hstarted _
      exact hahead (by rw [hmeta]; simp) hstarted
    intro last hno
    unfold ChainMem.ofOutcome at hno
    dsimp only at hno
    split at hno <;> cases hno

theorem Node.Ordered.step (h : n.Ordered c) {x : NodeStep} (hguard : Resumes c n x) :
    (n.step sha x).Ordered c := by
  cases x with
  | call c' call => exact h.call hguard
  | restart hooks oks => exact h.restart hguard

/-- In every history in which the FINALIZE calls resume from the committed ones, the committed
FINALIZE events of a chain have increasing numbers and heights that do not decrease, and none is
above the high-water stored in its batch. -/
theorem finalizes_ordered {xs : List NodeStep}
    (h : Run.Admissible (Node.step sha) (Resumes c) {} xs) :
    let fs := (Run.run (Node.step sha) {} xs).finalizes c
    (fs.Pairwise fun a b => a.1.seq < b.1.seq ∧ a.1.binHeight ≤ b.1.binHeight) ∧
      ∀ b ∈ fs, b.1.binHeight ≤ b.2.hwHeight := by
  have hstart : Node.Ordered c {} := ordered_nil
  have hstep : ∀ n x, Node.Ordered c n → Resumes c n x → Node.Ordered c (n.step sha x) :=
    fun n x hn hx => hn.step hx
  have hordered := Run.run_invariant hstep hstart h
  exact ⟨hordered.sorted, hordered.below⟩

/-- Two blocks, the first finalized at the high-water 10; after a restart, the second at a height
of its own. -/
def resumedHistory (binHeight : U64) : List NodeStep :=
  [.call 0 (.tip 10 0 true), .call 0 (.found { bid := [1], height := 7 } true true true),
    .call 0 (.finalized [1] 10 true),
    .restart { winnerAt := fun _ _ => some 0 } (fun _ => true),
    .call 0 (.found { bid := [2], height := 8 } true true true),
    .call 0 (.finalized [2] binHeight true)]

theorem finalizes_resumedHistory :
    let fs := (Run.run (Node.step Sha256.sha256d) {} (resumedHistory 10)).finalizes 0
    fs.length = 2 ∧
      (fs.Pairwise fun a b => a.1.seq < b.1.seq ∧ a.1.binHeight ≤ b.1.binHeight) ∧
      ∀ b ∈ fs, b.1.binHeight ≤ b.2.hwHeight := by
  have hresumes : Run.Admissible (Node.step Sha256.sha256d) (Resumes 0) {} (resumedHistory 10) := by
    decide +kernel
  exact ⟨by decide +kernel, finalizes_ordered hresumes⟩

/-- The journal after a restart accepts a height below the committed one. -/
theorem finalizes_below :
    ¬ ((Run.run (Node.step Sha256.sha256d) {} (resumedHistory 5)).finalizes 0).Pairwise
      fun a b => a.1.binHeight ≤ b.1.binHeight := by
  decide +kernel

end C2Pool.V37
