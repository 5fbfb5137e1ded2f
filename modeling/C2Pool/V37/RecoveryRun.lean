import C2Pool.V37.JournalStore

/-! # Recovery as a run

After the loads, a chain is recovered in rounds, one for each recorded block and then one for each
intent. A round is idle, drops an intent, or calls the ledger and logs the event.
-/

namespace C2Pool.V37

open List

section Decoded

variable {K α : Type} {decode : List Byte → Option α} {xs : List (K × α)}

theorem mapM_decode_eq_ok {es : List (K × List Byte)} :
    (es.mapM fun e =>
      match decode e.2 with
      | some a => (.ok (e.1, a) : Except K (K × α))
      | none => .error e.1) = .ok xs ↔
    (es.map fun e => (e.1, decode e.2)) = xs.map fun e => (e.1, some e.2) := by
  induction es generalizing xs with
  | nil =>
    cases xs with
    | nil => simp [pure, Except.pure]
    | cons x xs => simp [pure, Except.pure]
  | cons e es ih =>
    rw [mapM_cons]
    cases hd : decode e.2 with
    | none =>
      cases xs with
      | nil => simp [bind, Except.bind]
      | cons x xs => simp [bind, Except.bind, hd]
    | some a =>
      cases hm : (es.mapM fun e =>
          match decode e.2 with
          | some a => (.ok (e.1, a) : Except K (K × α))
          | none => .error e.1) with
      | error k =>
        rw [hm] at ih
        cases xs with
        | nil => simp [bind, Except.bind]
        | cons x xs =>
          have hne : ¬ (es.map fun e => (e.1, decode e.2)) =
              xs.map fun e => (e.1, some e.2) := fun h => by cases ih.mpr h
          simp [bind, Except.bind, hne]
      | ok ys =>
        rw [hm] at ih
        cases xs with
        | nil => simp [bind, Except.bind, pure, Except.pure]
        | cons x xs =>
          have hx : (e.1, a) = x ↔ e.1 = x.1 ∧ a = x.2 := Prod.ext_iff
          simp only [bind, Except.bind, pure, Except.pure, Except.ok.injEq, List.cons.injEq,
            map_cons, hd, Prod.mk.injEq, Option.some.injEq, hx]
          rw [← ih, Except.ok.injEq]

variable [LinearOrder K] {m : SortedMap K (List Byte)}

theorem decodeAll_eq_ok :
    decodeAll decode m = .ok xs ↔
      (m.entries.map fun e => (e.1, decode e.2)) = xs.map fun e => (e.1, some e.2) :=
  mapM_decode_eq_ok

theorem mem_of_decodeAll (h : decodeAll decode m = .ok xs) {k : K} {a : α} :
    (k, a) ∈ xs ↔ ∃ v, m.lookup k = some v ∧ decode v = some a := by
  have heq := decodeAll_eq_ok.mp h
  constructor
  · intro hmem
    have hmap : (k, some a) ∈ m.entries.map fun e => (e.1, decode e.2) := by
      rw [heq]
      exact mem_map_of_mem (f := fun e : K × α => (e.1, some e.2)) hmem
    obtain ⟨⟨k', v⟩, he, hkv⟩ := mem_map.mp hmap
    simp only [Prod.mk.injEq] at hkv
    obtain ⟨rfl, hv⟩ := hkv
    exact ⟨v, SortedMap.mem_entries_iff.mp he, hv⟩
  rintro ⟨v, hv, ha⟩
  have hmap : (k, some a) ∈ xs.map fun e => (e.1, some e.2) := by
    rw [← heq, ← ha]
    exact mem_map_of_mem (f := fun e : K × List Byte => (e.1, decode e.2))
      (SortedMap.mem_entries_iff.mpr hv)
  obtain ⟨⟨k', a'⟩, he, hka⟩ := mem_map.mp hmap
  cases hka
  exact he

theorem decodes_of_decodeAll
    (h : decodeAll decode m = .ok xs) : ∀ e ∈ m.entries, ∃ a, decode e.2 = some a := by
  intro e he
  have hmem : (e.1, decode e.2) ∈ xs.map fun e => (e.1, some e.2) := by
    rw [← decodeAll_eq_ok.mp h]
    exact mem_map_of_mem (f := fun e : K × List Byte => (e.1, decode e.2)) he
  obtain ⟨x, -, hx⟩ := mem_map.mp hmem
  exact ⟨x.2, (congrArg Prod.snd hx).symm⟩

theorem nodup_of_decodeAll (h : decodeAll decode m = .ok xs) : (xs.map Prod.fst).Nodup := by
  have hkeys : xs.map Prod.fst = m.keys := by
    have := congrArg (List.map Prod.fst) (decodeAll_eq_ok.mp h)
    rw [map_map, map_map] at this
    exact this.symm
  rw [hkeys]
  exact (pairwise_map.mpr (m.sorted.imp fun hlt => hlt)).imp fun hlt => ne_of_lt hlt

theorem exists_decodeAll
    (h : ∀ e ∈ m.entries, ∃ a, decode e.2 = some a) : ∃ xs, decodeAll decode m = .ok xs := by
  simp only [decodeAll_eq_ok]
  generalize m.entries = es at h ⊢
  induction es with
  | nil => exact ⟨[], rfl⟩
  | cons e es ih =>
    obtain ⟨a, ha⟩ := h e mem_cons_self
    obtain ⟨xs, hxs⟩ := ih fun x hx => h x (mem_cons_of_mem e hx)
    refine ⟨(e.1, a) :: xs, ?_⟩
    rw [map_cons, map_cons, hxs, ha]

end Decoded

/-! ## Rounds -/

/-- A round of the reconciliation: a recorded block, or an intent. -/
inductive Round where
  | block (e : Bid × BlkRec)
  | intent (e : Bytes32 × IntentRec)

def Rounds (r : ChainRecords) (rs : List Round) : Prop :=
  ∃ blks intents, decodeAll decodeBlk r.blk = .ok blks ∧
    decodeAll decodeIntent r.intent = .ok intents ∧
    rs = blks.map Round.block ++ intents.map Round.intent

theorem length_of_decodeAll {K α : Type} [LinearOrder K] {decode : List Byte → Option α}
    {m : SortedMap K (List Byte)} {xs : List (K × α)} (h : decodeAll decode m = .ok xs) :
    xs.length = m.entries.length := by
  have hlen := congrArg List.length (decodeAll_eq_ok.mp h)
  rw [length_map, length_map] at hlen
  exact hlen.symm

variable {r : ChainRecords} {rs : List Round} {e : Bid × BlkRec} {cr : ChainRecovery}
  {l : OwedLedger} {c' : U32} {s : SettleStore} {d : Disk} {m : MetaRec}

theorem Rounds.length_eq (h : Rounds r rs) :
    rs.length = r.blk.entries.length + r.intent.entries.length := by
  obtain ⟨blks, intents, hblks, hintents, rfl⟩ := h
  rw [length_append, length_map, length_map, length_of_decodeAll hblks,
    length_of_decodeAll hintents]

def reconcile (sha : List Byte → Bytes32) (hooks : RecoveryHooks) (oks : Nat → Bool)
    (bootId : U64) (c : U32) (s : Disk × ChainRecovery) : Round → Disk × ChainRecovery
  | .block e => reconcileBlock sha hooks oks bootId c s e
  | .intent e => reconcileIntent sha hooks oks bootId c s e

variable {sha : List Byte → Bytes32} {hooks : RecoveryHooks} {oks : Nat → Bool}
variable {bootId : U64} {c : U32}

def orphanPayout (cr : ChainRecovery) (bid : Bid) : Amounts :=
  if cr.ledger.isPending bid then ∅ else (cr.foundPayout.lookup bid).getD ∅

def FoundRederive.event (rd : FoundRederive) (seq : U64) : EventRec where
  evkind := .found
  seq := seq
  bid := rd.bid
  binHeight := rd.binHeight
  credit := rd.credit
  payout := rd.payout

def Lost (hooks : RecoveryHooks) (bootId : U64) (c : U32) (l : OwedLedger) (e : Bid × BlkRec) :
    Prop :=
  ¬ aliasRefused hooks bootId e.2 ∧ l.Knows e.1 ∧ ¬ stillWins hooks c e.2

theorem reconcileBlock_of_not_lost {s : Disk × ChainRecovery}
    (h : ¬ Lost hooks bootId c s.2.ledger e) : reconcileBlock sha hooks oks bootId c s e = s := by
  unfold reconcileBlock
  by_cases ha : aliasRefused hooks bootId e.2
  · rw [if_pos ha]
  rw [if_neg ha]
  by_cases hk : s.2.ledger.Knows e.1
  · have hwins : stillWins hooks c e.2 := by
      by_contra hw
      exact h ⟨ha, hk, hw⟩
    split <;> rfl
  rw [if_pos]
  rw [OwedLedger.knows_iff, not_or] at hk
  exact hk

theorem reconcileBlock_of_lost {s : Disk × ChainRecovery} (h : Lost hooks bootId c s.2.ledger e) :
    reconcileBlock sha hooks oks bootId c s e =
      logReconcileEvent sha oks bootId c s.1
        { s.2 with ledger := s.2.ledger.call sha {} (.orphaned e.1 (orphanPayout s.2 e.1)) }
        e.1 (orphanPayout s.2 e.1) := by
  have hk := OwedLedger.knows_iff.mp h.2.1
  unfold reconcileBlock
  rw [if_neg h.1, if_neg (by rwa [← not_or, not_not]), if_neg h.2.2]
  rfl

/-- The round calls the ledger and logs the event, with further operations in the batch. -/
inductive Logged (sha : List Byte → Bytes32) (hooks : RecoveryHooks) (bootId : U64) (c : U32)
    (cr : ChainRecovery) : Round → EventRec → List (RecKey × Option (List Byte)) → Prop where
  | orphan {b : Bid × BlkRec} (h : Lost hooks bootId c cr.ledger b) :
      Logged sha hooks bootId c cr (.block b)
        { evkind := .orphan
          seq := (cr.ledger.call sha {} (.orphaned b.1 (orphanPayout cr b.1))).ledgerSeq
          bid := b.1
          binHeight := cr.hw.hwHeight
          settledPayout := orphanPayout cr b.1 } []
  | rederived {i : Bytes32 × IntentRec} {rd : FoundRederive} (hnew : ¬ cr.ledger.Knows i.2.bid)
      (hrd : hooks.tryRederiveIntent i.2 = some rd) :
      Logged sha hooks bootId c cr (.intent i)
        (rd.event (cr.ledger.call sha {}
          (.found rd.bid { credit := rd.credit, payout := rd.payout })).ledgerSeq)
        [(.blk rd.bid, some (encodeBlk { rd.blk with bootId := bootId })), (.intent i.1, none)]

def Appends (sha : List Byte → Bytes32) (hooks : RecoveryHooks) (bootId : U64) (c : U32)
    (cr : ChainRecovery) (x : Round) : Prop :=
  ∃ e more, Logged sha hooks bootId c cr x e more

theorem appends_block {b : Bid × BlkRec} :
    Appends sha hooks bootId c cr (.block b) ↔ Lost hooks bootId c cr.ledger b := by
  constructor
  · rintro ⟨e, more, hl⟩
    cases hl with
    | orphan h => exact h
  · intro h
    exact ⟨_, _, .orphan h⟩

theorem appends_intent {i : Bytes32 × IntentRec} :
    Appends sha hooks bootId c cr (.intent i) ↔
      ¬ cr.ledger.Knows i.2.bid ∧ hooks.tryRederiveIntent i.2 ≠ none := by
  constructor
  · rintro ⟨e, more, hl⟩
    cases hl with
    | rederived hnew hrd =>
      rw [hrd]
      exact ⟨hnew, by simp⟩
  rintro ⟨hnew, hne⟩
  obtain ⟨rd, hrd⟩ := Option.ne_none_iff_exists'.mp hne
  exact ⟨_, _, .rederived hnew hrd⟩

theorem reconcile_of_quiet {s : Disk × ChainRecovery} {x : Round}
    (h : ¬ Appends sha hooks bootId c s.2 x) :
    reconcile sha hooks oks bootId c s x = s ∨
      ∃ i, x = .intent i ∧
        reconcile sha hooks oks bootId c s x = (dropIntent oks c s.1 i.1, s.2) := by
  cases x with
  | block b => exact .inl (reconcileBlock_of_not_lost fun hl => h (appends_block.mpr hl))
  | intent i =>
    right
    refine ⟨i, rfl, ?_⟩
    unfold reconcile reconcileIntent
    by_cases hk : s.2.ledger.isPending i.2.bid ∨ s.2.ledger.isSettled i.2.bid
    · exact if_pos hk
    simp only [if_neg hk]
    cases hrd : hooks.tryRederiveIntent i.2 with
    | none => rfl
    | some rd =>
      refine (h (appends_intent.mpr ⟨?_, by simp [hrd]⟩)).elim
      rwa [OwedLedger.knows_iff]

theorem seq_call_orphaned {bid : Bid} (h : l.Knows bid) (settledPayout : Amounts) :
    (l.call sha {} (.orphaned bid settledPayout)).seq = l.seq + 1 := by
  simp only [OwedLedger.call, OwedLedger.onBlockOrphaned]
  cases hp : l.pending.lookup bid with
  | some p => rfl
  | none =>
    have hs : bid ∈ l.settled := by
      rcases h with h | h
      · exact (h hp).elim
      · exact h
    simp only [if_pos hs]
    show (l.noteResidual bid settledPayout.total).seq + 1 = _
    unfold OwedLedger.noteResidual
    split <;> rfl

theorem reconcile_of_logged {s : Disk × ChainRecovery} {x : Round} {e : EventRec}
    {more : List (RecKey × Option (List Byte))} (h : Logged sha hooks bootId c s.2 x e more)
    (hsync : s.2.lhead.ledgerSeq = s.2.ledger.ledgerSeq) (hlt : s.2.ledger.seq + 1 < 2 ^ 64) :
    reconcile sha hooks oks bootId c s x = logEvent sha oks bootId c s.1
      { s.2 with ledger := s.2.ledger.call sha {} e.toCall } e more := by
  cases h with
  | @orphan b h =>
    show reconcileBlock sha hooks oks bootId c s b = _
    rw [reconcileBlock_of_lost h]
    unfold logReconcileEvent
    rw [if_neg]
    · rfl
    show ¬ (s.2.ledger.call sha {} _).ledgerSeq = s.2.lhead.ledgerSeq
    intro heq
    rw [hsync] at heq
    have hval := congrArg Fin.val heq
    rw [ledgerSeq_val (by rw [seq_call_orphaned h.2.1]; omega), ledgerSeq_val (by omega),
      seq_call_orphaned h.2.1] at hval
    omega
  | @rederived i rd hnew hrd =>
    show reconcileIntent sha hooks oks bootId c s i = _
    unfold reconcileIntent
    rw [OwedLedger.knows_iff] at hnew
    simp only [if_neg hnew, hrd]
    rfl

/-! ## One chain -/

theorem ledgerSeq_admitCandidateHeight (hw : SettleHW) (height : U64) :
    (hw.admitCandidateHeight height).2.ledgerSeq = hw.ledgerSeq := by
  unfold SettleHW.admitCandidateHeight
  split <;> rfl

theorem loadLmmrCheck_lmmrOf (hr : r.lmmr = some (encodeLmmr (lmmrOf sha l bootId)))
    (hl : l.Counted) (hlt : l.seq < 2 ^ 64) :
    loadLmmrCheck sha c r l = .ok (some (lmmrOf sha l bootId)) := by
  unfold loadLmmrCheck
  rw [hr]
  dsimp only
  rw [decodeLmmr_lmmrOf hl hlt]
  simp [lmmrOf]

theorem loadChain_eq {r : ChainRecords} {hw : SettleHW} (hA : loadFamilyA c r = .ok hw) :
    ∃ cr, cr.hw.ledgerSeq = hw.ledgerSeq ∧ loadChain sha hooks c r =
      (loadFamilyB sha c r cr).bind (rebuildFamilyD hooks c r) := by
  by_cases hlow : hooks.localHeaderHeight c < hw.hwHeight
  · refine ⟨{ refusedUntilCatchup := true
              hw := (hw.admitCandidateHeight (hooks.localHeaderHeight c)).2 },
      ledgerSeq_admitCandidateHeight hw _, ?_⟩
    unfold loadChain
    rw [hA]
    show (loadFamilyB sha c r (if _ then _ else _)).bind _ = _
    rw [if_pos hlow]
  refine ⟨{ hw := hw }, rfl, ?_⟩
  unfold loadChain
  rw [hA]
  show (loadFamilyB sha c r (if _ then _ else _)).bind _ = _
  rw [if_neg hlow]

theorem Disk.chain_commitSync (d : Disk) (ops : List (RecKey × Option (List Byte))) :
    (d.commitSync oks (onChain c ops)).store.chain c =
      if oks d.count then ops.foldl (fun r op => r.set op.2 op.1) (d.store.chain c)
      else d.store.chain c := SettleStore.chain_commitSync d.store c (oks d.count) ops

theorem disk_reconcile (s : Disk × ChainRecovery) (x : Round) :
    (reconcile sha hooks oks bootId c s x).1 = s.1 ∨
      ∃ ops, (reconcile sha hooks oks bootId c s x).1 = s.1.commitSync oks (onChain c ops) := by
  cases x with
  | block b =>
    by_cases hlost : Lost hooks bootId c s.2.ledger b
    · show (reconcileBlock sha hooks oks bootId c s b).1 = _ ∨
        ∃ ops, (reconcileBlock sha hooks oks bootId c s b).1 = _
      rw [reconcileBlock_of_lost hlost]
      unfold logReconcileEvent
      split
      · exact .inl rfl
      · exact .inr ⟨_, rfl⟩
    · exact .inl (congrArg Prod.fst (reconcileBlock_of_not_lost hlost))
  | intent i =>
    right
    show ∃ ops, (reconcileIntent sha hooks oks bootId c s i).1 = _
    unfold reconcileIntent
    split
    · exact ⟨_, rfl⟩
    split
    · exact ⟨_, rfl⟩
    · exact ⟨_, rfl⟩

theorem chain_reconcile_of_ne (hne : c' ≠ c) (s : Disk × ChainRecovery) (x : Round) :
    (reconcile sha hooks oks bootId c s x).1.store.chain c' = s.1.store.chain c' := by
  obtain heq | ⟨ops, heq⟩ := @disk_reconcile sha hooks oks bootId c s x
  · rw [heq]
  · rw [heq]
    exact SettleStore.chain_commitSync_of_ne s.1.store hne _ ops

theorem metaRec_reconcile (s : Disk × ChainRecovery) (x : Round) :
    (reconcile sha hooks oks bootId c s x).1.store.metaRec = s.1.store.metaRec := by
  obtain heq | ⟨ops, heq⟩ := @disk_reconcile sha hooks oks bootId c s x
  · rw [heq]
  · rw [heq]
    exact SettleStore.metaRec_commitSync_onChain s.1.store c _ ops

theorem records_reconcileBlock (s : Disk × ChainRecovery) (b : Bid × BlkRec) :
    ((reconcileBlock sha hooks oks bootId c s b).1.store.chain c).intent =
        (s.1.store.chain c).intent ∧
      ((reconcileBlock sha hooks oks bootId c s b).1.store.chain c).blk =
        (s.1.store.chain c).blk := by
  by_cases hlost : Lost hooks bootId c s.2.ledger b
  · rw [reconcileBlock_of_lost hlost]
    unfold logReconcileEvent
    split
    · exact ⟨rfl, rfl⟩
    unfold logEvent
    rw [Disk.chain_commitSync]
    split <;> exact ⟨rfl, rfl⟩
  · rw [reconcileBlock_of_not_lost hlost]
    exact ⟨rfl, rfl⟩

theorem intent_foldl_reconcileBlock (s : Disk × ChainRecovery) (blks : List (Bid × BlkRec)) :
    ((blks.foldl (reconcileBlock sha hooks oks bootId c) s).1.store.chain c).intent =
      (s.1.store.chain c).intent := by
  induction blks generalizing s with
  | nil => rfl
  | cons b blks ih =>
    rw [foldl_cons, ih]
    exact (records_reconcileBlock s b).1

theorem run_reconcile (s : Disk × ChainRecovery) (blks : List (Bid × BlkRec))
    (intents : List (Bytes32 × IntentRec)) :
    Run.run (reconcile sha hooks oks bootId c) s
      (blks.map Round.block ++ intents.map Round.intent) =
        intents.foldl (reconcileIntent sha hooks oks bootId c)
          (blks.foldl (reconcileBlock sha hooks oks bootId c) s) := by
  unfold Run.run
  rw [foldl_append, foldl_map, foldl_map]
  rfl

theorem recoverChain_eq_ok {d d' : Disk} {cr : ChainRecovery} :
    recoverChain sha hooks oks bootId c d = (d', .ok cr) ↔
      ∃ cr0 rs, loadChain sha hooks c (d.store.chain c) = .ok cr0 ∧
        Rounds (d.store.chain c) rs ∧
        Run.run (reconcile sha hooks oks bootId c) (d, cr0) rs = (d', cr) := by
  unfold recoverChain
  cases hload : loadChain sha hooks c (d.store.chain c) with
  | error e => simp
  | ok cr0 =>
    unfold ownBlockReconcile
    cases hblk : decodeAll decodeBlk (d.store.chain c).blk with
    | error bid => simp [Rounds, hblk]
    | ok blks =>
      dsimp only
      unfold intentReconcile
      rw [intent_foldl_reconcileBlock]
      cases hint : decodeAll decodeIntent (d.store.chain c).intent with
      | error h => simp [Rounds, hint]
      | ok intents =>
        simp only [Rounds, hblk, hint, Except.ok.injEq, exists_and_left, exists_eq_left',
          ↓existsAndEq, true_and, run_reconcile, Prod.ext_iff]

/-- Whatever the outcome, the writes to the store are those of rounds. -/
theorem disk_recoverChain (d : Disk) : ∃ cr0 rs, (recoverChain sha hooks oks bootId c d).1 =
    (Run.run (reconcile sha hooks oks bootId c) (d, cr0) rs).1 := by
  unfold recoverChain
  cases loadChain sha hooks c (d.store.chain c) with
  | error e => exact ⟨{}, [], rfl⟩
  | ok cr0 =>
    unfold ownBlockReconcile
    cases decodeAll decodeBlk (d.store.chain c).blk with
    | error bid => exact ⟨{}, [], rfl⟩
    | ok blks =>
      dsimp only
      unfold intentReconcile
      split
      · rename_i e he
        refine ⟨cr0, blks.map Round.block ++ [].map Round.intent, ?_⟩
        rw [run_reconcile]
        rfl
      rename_i d'' cr he
      split at he
      · cases he
      rename_i intents hint
      refine ⟨cr0, blks.map Round.block ++ intents.map Round.intent, ?_⟩
      rw [run_reconcile]
      rw [Except.ok.injEq] at he
      exact (congrArg Prod.fst he).symm

theorem recoverChain_keeps {α : Type} {f : SettleStore → α}
    (hf : ∀ s x, f (reconcile sha hooks oks bootId c s x).1.store = f s.1.store) (d : Disk) :
    f (recoverChain sha hooks oks bootId c d).1.store = f d.store := by
  obtain ⟨cr0, rs, heq⟩ := @disk_recoverChain sha hooks oks bootId c d
  rw [heq]
  generalize hs : (d, cr0) = s
  rw [show d = s.1 by rw [← hs]]
  clear hs heq
  induction rs generalizing s with
  | nil => rfl
  | cons x rs ih => exact (ih _).trans (hf s x)

theorem chain_recoverChain_of_ne (hne : c' ≠ c) (d : Disk) :
    (recoverChain sha hooks oks bootId c d).1.store.chain c' = d.store.chain c' :=
  recoverChain_keeps (f := fun s => s.chain c') (chain_reconcile_of_ne hne) d

theorem metaRec_recoverChain (d : Disk) :
    (recoverChain sha hooks oks bootId c d).1.store.metaRec = d.store.metaRec :=
  recoverChain_keeps metaRec_reconcile d

theorem chain_dropIntent (d : Disk) (h : Bytes32) :
    (dropIntent oks c d h).store.chain c = if oks d.count then
      { d.store.chain c with intent := (d.store.chain c).intent.erase h }
    else d.store.chain c := by
  unfold dropIntent
  rw [Disk.chain_commitSync]
  rfl

theorem run_reconcile_of_quiet {s : Disk × ChainRecovery} {rs : List Round}
    (h : ∀ x ∈ rs, ¬ Appends sha hooks bootId c s.2 x) :
    (Run.run (reconcile sha hooks oks bootId c) s rs).2 = s.2 ∧
      ∃ m, (Run.run (reconcile sha hooks oks bootId c) s rs).1.store.chain c =
        { s.1.store.chain c with intent := m } := by
  induction rs generalizing s with
  | nil => exact ⟨rfl, _, rfl⟩
  | cons x rs ih =>
    rw [Run.run_cons]
    obtain heq | ⟨i, -, heq⟩ := @reconcile_of_quiet sha hooks oks bootId c s x (h x mem_cons_self)
    · rw [heq]
      exact ih fun y hy => h y (mem_cons_of_mem x hy)
    rw [heq]
    obtain ⟨hcr, m, hchain⟩ := @ih (dropIntent oks c s.1 i.1, s.2)
      fun y hy => h y (mem_cons_of_mem x hy)
    refine ⟨hcr, m, hchain.trans ?_⟩
    rw [chain_dropIntent]
    split <;> rfl

def Confirmed (hooks : RecoveryHooks) (c : U32) (r : ChainRecords) : Prop :=
  ∀ bid v b, r.blk.lookup bid = some v → decodeBlk v = some b → stillWins hooks c b

theorem quiet_of_confirmed (hrs : Rounds r rs)
    (hwins : Confirmed hooks c r) (hintent : ∀ i, hooks.tryRederiveIntent i = none)
    (cr : ChainRecovery) : ∀ x ∈ rs, ¬ Appends sha hooks bootId c cr x := by
  obtain ⟨blks, intents, hblks, -, rfl⟩ := hrs
  intro x hx
  rcases mem_append.mp hx with hx | hx
  · obtain ⟨b, hb, rfl⟩ := mem_map.mp hx
    obtain ⟨v, hv, hdec⟩ := (mem_of_decodeAll hblks).mp hb
    rw [appends_block]
    intro hlost
    exact hlost.2.2 (hwins b.1 v b.2 hv hdec)
  obtain ⟨i, -, rfl⟩ := mem_map.mp hx
  rw [appends_intent]
  intro happ
  exact happ.2 (hintent i.2)

/-! ## All chains -/

def diskAt (sha : List Byte → Bytes32) (hooks : RecoveryHooks) (oks : Nat → Bool)
    (bootId : U64) (c : U32) (d : Disk) : Disk :=
  (recoverChains sha hooks oks bootId (d.store.unionChains.takeWhile (· ≠ c)) d).2

theorem recoverChains_append (cs cs' : List U32) (d : Disk) :
    recoverChains sha hooks oks bootId (cs ++ cs') d =
      ((recoverChains sha hooks oks bootId cs d).1 ++
        (recoverChains sha hooks oks bootId cs'
          (recoverChains sha hooks oks bootId cs d).2).1,
        (recoverChains sha hooks oks bootId cs'
          (recoverChains sha hooks oks bootId cs d).2).2) := by
  induction cs generalizing d with
  | nil => rfl
  | cons c cs ih =>
    simp only [cons_append, recoverChains]
    rw [ih]

theorem keys_recoverChains (cs : List U32) (d : Disk) :
    (recoverChains sha hooks oks bootId cs d).1.map Prod.fst = cs := by
  induction cs generalizing d with
  | nil => rfl
  | cons c cs ih =>
    simp only [recoverChains, map_cons]
    rw [ih]

theorem chain_recoverChains_of_not_mem {cs : List U32} (h : c ∉ cs) (d : Disk) :
    (recoverChains sha hooks oks bootId cs d).2.store.chain c = d.store.chain c := by
  induction cs generalizing d with
  | nil => rfl
  | cons c' cs ih =>
    rw [mem_cons, not_or] at h
    exact (ih h.2 _).trans (chain_recoverChain_of_ne h.1 d)

theorem metaRec_recoverChains (cs : List U32) (d : Disk) :
    (recoverChains sha hooks oks bootId cs d).2.store.metaRec = d.store.metaRec := by
  induction cs generalizing d with
  | nil => rfl
  | cons c' cs ih => exact (ih _).trans (metaRec_recoverChain d)

theorem nodup_unionChains (s : SettleStore) : s.unionChains.Nodup := by
  have hkeys : (s.chains.entries.map Prod.fst).Nodup :=
    (pairwise_map.mpr (s.chains.sorted.imp fun hlt => hlt)).imp fun hlt => ne_of_lt hlt
  exact hkeys.sublist (filter_sublist.map Prod.fst)

theorem chain_commitSync_metaRec (s : SettleStore) (ok : Bool) (v : Option (List Byte)) :
    (s.commitSync ok [(.metaRec, v)]).chain c = s.chain c := by
  cases ok <;> rfl

theorem unionChains_split (h : s.chain c ≠ {}) :
    ∃ rest, s.unionChains = s.unionChains.takeWhile (· ≠ c) ++ c :: rest ∧
      c ∉ s.unionChains.takeWhile (· ≠ c) ∧ c ∉ rest := by
  obtain ⟨front, rest, heq, hfront⟩ := eq_append_cons_of_mem (SettleStore.mem_unionChains.mpr h)
  have hnodup := nodup_unionChains s
  have htake : s.unionChains.takeWhile (· ≠ c) = front := by
    rw [heq, takeWhile_append_of_pos, takeWhile_cons_of_neg (by simp), append_nil]
    intro x hx
    have hne : x ≠ c := fun hxc => hfront (hxc ▸ hx)
    simpa using hne
  rw [htake]
  refine ⟨rest, heq, hfront, ?_⟩
  rw [heq] at hnodup
  exact (nodup_cons.mp (nodup_append.mp hnodup).2.1).1

theorem chain_diskAt (d : Disk) :
    (diskAt sha hooks oks bootId c d).store.chain c = d.store.chain c := by
  apply chain_recoverChains_of_not_mem
  intro hmem
  have hall := all_eq_true.mp (all_takeWhile (p := (· ≠ c)) (l := d.store.unionChains)) c hmem
  simp at hall

theorem recoverChains_at {d : Disk} (h : d.store.chain c ≠ {}) :
    ((recoverChains sha hooks oks bootId d.store.unionChains d).1.find?
        fun e => e.1 = c) =
      some (c, (recoverChain sha hooks oks bootId c (diskAt sha hooks oks bootId c d)).2) ∧
    (recoverChains sha hooks oks bootId d.store.unionChains d).2.store.chain c =
      (recoverChain sha hooks oks bootId c
        (diskAt sha hooks oks bootId c d)).1.store.chain c := by
  obtain ⟨rest, hsplit, hfront, hrest⟩ := unionChains_split h
  rw [hsplit, recoverChains_append]
  constructor
  · have hnone : (recoverChains sha hooks oks bootId
        (d.store.unionChains.takeWhile (· ≠ c)) d).1.find? (fun e => e.1 = c) = none := by
      rw [find?_eq_none]
      intro e he hc
      apply hfront
      have hmem := mem_map_of_mem (f := Prod.fst) he
      rw [keys_recoverChains, of_decide_eq_true hc] at hmem
      exact hmem
    rw [find?_append, hnone, Option.none_or]
    simp only [recoverChains]
    rw [find?_cons_of_pos (by simp)]
    rfl
  · exact chain_recoverChains_of_not_mem hrest _

theorem chain_openMeta (d : Disk) : (openMeta oks d).1.store.chain c = d.store.chain c := by
  unfold openMeta
  split
  · rfl
  · exact chain_commitSync_metaRec d.store _ _

theorem recover_of_openMeta {s : SettleStore} {d : Disk} {m : MetaRec}
    (h : openMeta oks ⟨s, 0⟩ = (d, some m)) (hc : s.chain c ≠ {}) :
    d.store.chain c = s.chain c ∧
    (recover sha hooks oks s).1.outcome c =
      some (recoverChain sha hooks oks m.bootId c
        (diskAt sha hooks oks m.bootId c d)).2 ∧
    (recover sha hooks oks s).2.chain c =
      (recoverChain sha hooks oks m.bootId c
        (diskAt sha hooks oks m.bootId c d)).1.store.chain c := by
  have hd : d.store.chain c = s.chain c := by
    rw [show d = (openMeta oks ⟨s, 0⟩).1 by rw [h]]
    exact chain_openMeta _
  have hat := @recoverChains_at sha hooks oks m.bootId c d (by rwa [hd])
  refine ⟨hd, ?_, ?_⟩
  · unfold recover RecoveryResult.outcome
    rw [h]
    rw [hat.1]
    rfl
  unfold recover
  rw [h]
  exact hat.2

theorem chain_ne_of_outcome (h : openMeta oks ⟨s, 0⟩ = (d, some m)) {o : Outcome}
    (ho : (recover sha hooks oks s).1.outcome c = some o) : s.chain c ≠ {} := by
  unfold recover RecoveryResult.outcome at ho
  rw [h] at ho
  obtain ⟨e, he, -⟩ := Option.map_eq_some_iff.mp ho
  have hmem := mem_map_of_mem (f := Prod.fst) (mem_of_find?_eq_some he)
  have hkey := find?_some he
  rw [decide_eq_true_eq] at hkey
  rw [keys_recoverChains, hkey, SettleStore.mem_unionChains] at hmem
  rw [show d = (openMeta oks ⟨s, 0⟩).1 by rw [h], chain_openMeta] at hmem
  exact hmem

theorem find?_eq_of_mem {α : Type} {l : List (U32 × α)} (hnodup : (l.map Prod.fst).Nodup)
    {e : U32 × α} (he : e ∈ l) : (l.find? fun x => x.1 = e.1) = some e := by
  induction l with
  | nil => cases he
  | cons x l ih =>
    rw [map_cons, nodup_cons] at hnodup
    rcases mem_cons.mp he with rfl | he
    · rw [find?_cons_of_pos (by simp)]
    have hne : x.1 ≠ e.1 := fun heq => hnodup.1 (heq ▸ mem_map_of_mem he)
    rw [find?_cons_of_neg (by simpa using hne)]
    exact ih hnodup.2 he

theorem ok_recover_iff (h : openMeta oks ⟨s, 0⟩ = (d, some m)) :
    (recover sha hooks oks s).1.ok = true ↔
      ∀ c, s.chain c ≠ {} → ∃ cr, (recover sha hooks oks s).1.outcome c = some (.ok cr) := by
  have hd : ∀ c, d.store.chain c = s.chain c := by
    intro c
    rw [show d = (openMeta oks ⟨s, 0⟩).1 by rw [h]]
    exact chain_openMeta _
  have hr : (recover sha hooks oks s).1 =
      { metaRec := some m
        chains := (recoverChains sha hooks oks m.bootId d.store.unionChains d).1 } := by
    unfold recover
    rw [h]
  have hkeys := @keys_recoverChains sha hooks oks m.bootId d.store.unionChains d
  rw [hr]
  unfold RecoveryResult.ok RecoveryResult.outcome
  simp only [Option.isSome_some, Bool.true_and, all_eq_true]
  generalize (recoverChains sha hooks oks m.bootId d.store.unionChains d).1 = chains at hkeys ⊢
  have hnodup : (chains.map Prod.fst).Nodup := by
    rw [hkeys]
    exact nodup_unionChains d.store
  constructor
  · intro hall c hc
    have hmem : c ∈ chains.map Prod.fst := by
      rw [hkeys, SettleStore.mem_unionChains, hd]
      exact hc
    obtain ⟨e, he, rfl⟩ := mem_map.mp hmem
    rw [find?_eq_of_mem hnodup he]
    have hok := hall e he
    cases ho : e.2 with
    | error f =>
      rw [ho] at hok
      cases hok
    | ok cr => exact ⟨cr, by simp [ho]⟩
  intro hall e he
  have hmem := mem_map_of_mem (f := Prod.fst) he
  rw [hkeys, SettleStore.mem_unionChains, hd] at hmem
  obtain ⟨cr, hcr⟩ := hall e.1 hmem
  rw [find?_eq_of_mem hnodup he] at hcr
  rw [show e.2 = .ok cr by simpa using hcr]
  rfl

end C2Pool.V37
