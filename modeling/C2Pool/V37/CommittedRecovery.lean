import C2Pool.V37.RecoveryRun
import C2Pool.V37.Sha256

/-! # Recovery of what the journal wrote

A chain with a committed event is recovered to the ledger of its committed events and to its last
committed high-water. A chain that has a record but no committed event, only a tip or an intent, is
refused.
-/

namespace C2Pool.V37

variable {sha : List Byte → Bytes32} {hooks : RecoveryHooks} {oks : Nat → Bool}
  {bootId bootId' : U64} {c : U32} {r : ChainRecords} {evs : List EventRec} {hw : Option SettleHW}
  {cr : ChainRecovery} {l : OwedLedger} {d : Disk}
def loadedAs (sha : List Byte → Bytes32) (hooks : RecoveryHooks) (bootId : U64) (c : U32)
    (evs : List EventRec) (hw : SettleHW) : ChainRecovery where
  refusedUntilCatchup := hooks.localHeaderHeight c < hw.hwHeight
  hw := if hooks.localHeaderHeight c < hw.hwHeight then
    (hw.admitCandidateHeight (hooks.localHeaderHeight c)).2 else hw
  lhead := ⟨(replayed sha evs).ledgerSeq, (replayed sha evs).digestDefault sha, bootId⟩
  ledger := replayed sha evs
  levtApplied := evs.length
  newIncarnation := 1
  lmmr := some (lmmrOf sha (replayed sha evs) bootId)
  foundPayout := foundPayouts evs

theorem loadLmmrCheck_durable
    (h : Durable sha bootId c r evs hw) (hne : evs ≠ []) (hlt : evs.length < 2 ^ 64) :
    loadLmmrCheck sha c r (replayed sha evs) = .ok (some (lmmrOf sha (replayed sha evs) bootId)) :=
  loadLmmrCheck_lmmrOf (h.heads hne).2.2 (counted_replayed evs) (by rw [h.count]; exact hlt)

theorem loadFamilyB_durable {hw : SettleHW} (h : Durable sha bootId c r evs (some hw))
    (hne : evs ≠ []) (hlt : evs.length < 2 ^ 64) (hseq : cr.hw.ledgerSeq = hw.ledgerSeq) :
    loadFamilyB sha c r cr = .ok { cr with
      lhead := ⟨(replayed sha evs).ledgerSeq, (replayed sha evs).digestDefault sha, bootId⟩
      ledger := replayed sha evs
      levtApplied := evs.length
      lmmr := some (lmmrOf sha (replayed sha evs) bootId)
      foundPayout := foundPayouts evs } := by
  have hstamped := h.stamped hw rfl
  unfold loadFamilyB
  rw [(h.heads hne).2.1]
  dsimp only
  rw [decodeLhead_encodeLhead, h.log.replayEvents_eq c]
  show (if _ then _ else _) = _
  rw [if_neg (by rw [hseq, hstamped]; simp), if_neg (by simp), loadLmmrCheck_durable h hne hlt]
  rfl

theorem loadFamilyB_of_short {v : List Byte} {lhead : LheadRec} (hlhead : r.lhead = some v)
    (hdec : decodeLhead v = some lhead) {n : Nat} {fp : SortedMap Bid Amounts}
    (hreplay : replayEvents sha c r.levt.entries 0 ({}, ∅) = .ok (n, l, fp))
    (hseq : l.ledgerSeq ≠ cr.hw.ledgerSeq) :
    loadFamilyB sha c r cr = .error ⟨c, .seqDisagreement, .lhead⟩ := by
  unfold loadFamilyB
  rw [hlhead]
  dsimp only
  rw [hdec, hreplay]
  exact if_pos fun h => hseq h.1

theorem loadChain_durable {hw : SettleHW}
    (h : Durable sha bootId c r evs (some hw)) (hne : evs ≠ []) (hlt : evs.length < 2 ^ 64) :
    loadChain sha hooks c r = .ok (loadedAs sha hooks bootId c evs hw) := by
  have hA : loadFamilyA c r = .ok hw := by
    unfold loadFamilyA
    rw [h.highWater, Option.map_some]
    dsimp only
    rw [decodeHw_encodeHw]
  have hD : ∀ cr, rebuildFamilyD hooks c r cr = .ok { cr with newIncarnation := 1 } := by
    intro cr
    unfold rebuildFamilyD
    rw [h.noLane.2.2]
  unfold loadChain
  rw [hA]
  show (loadFamilyB sha c r _).bind (rebuildFamilyD hooks c r) = _
  by_cases hlow : hooks.localHeaderHeight c < hw.hwHeight
  · rw [if_pos hlow, loadFamilyB_durable h hne hlt (ledgerSeq_admitCandidateHeight hw _)]
    show rebuildFamilyD hooks c r _ = _
    rw [hD]
    simp [loadedAs, hlow]
  rw [if_neg hlow, loadFamilyB_durable h hne hlt rfl]
  show rebuildFamilyD hooks c r _ = _
  rw [hD]
  simp [loadedAs, hlow]

/-! ## Recovery -/

theorem rounds_durable (h : Durable sha bootId c r evs hw) : ∃ rs, Rounds r rs := by
  obtain ⟨blks, hblks⟩ := exists_decodeAll h.blk
  obtain ⟨intents, hintents⟩ := exists_decodeAll h.intent
  exact ⟨_, blks, intents, hblks, hintents, rfl⟩

theorem recoverChain_durable {hw : SettleHW}
    (h : Durable sha bootId c (d.store.chain c) evs (some hw)) (hne : evs ≠ [])
    (hlt : evs.length < 2 ^ 64) (hwins : Confirmed hooks c (d.store.chain c))
    (hintent : ∀ i, hooks.tryRederiveIntent i = none) :
    (recoverChain sha hooks oks bootId' c d).2 = .ok (loadedAs sha hooks bootId c evs hw) := by
  obtain ⟨rs, hrs⟩ := rounds_durable h
  obtain ⟨hcr, -⟩ := @run_reconcile_of_quiet sha hooks oks bootId' c
    (d, loadedAs sha hooks bootId c evs hw) rs (quiet_of_confirmed hrs hwins hintent _)
  generalize hrun : Run.run (reconcile sha hooks oks bootId' c)
    (d, loadedAs sha hooks bootId c evs hw) rs = s at hcr
  have hok := recoverChain_eq_ok.mpr ⟨_, rs, loadChain_durable h hne hlt, hrs, hrun⟩
  rw [hok, hcr]

namespace SettlementJournal

theorem self_mem_cuts (calls : List (U32 × JournalCall)) : calls ∈ cuts calls := by
  induction calls with
  | nil => exact List.mem_singleton_self []
  | cons cc calls ih =>
    rw [cuts, List.cons_append, List.mem_cons, List.mem_append]
    exact .inr (.inr (List.mem_map_of_mem ih))

theorem fits_of_mem_cuts {calls cut : List (U32 × JournalCall)} (hcut : cut ∈ cuts calls)
    (hfits : ∀ cc ∈ calls, cc.2.Fits) : cut.length ≤ calls.length ∧ ∀ cc ∈ cut, cc.2.Fits := by
  induction calls generalizing cut with
  | nil =>
    rw [cuts, List.mem_singleton] at hcut
    rw [hcut]
    exact ⟨Nat.le_refl 0, fun _ h => (List.not_mem_nil h).elim⟩
  | cons cc calls ih =>
    rw [cuts, List.cons_append, List.mem_cons, List.mem_append] at hcut
    rcases hcut with rfl | hcut | hcut
    · exact ⟨Nat.zero_le _, fun _ h => (List.not_mem_nil h).elim⟩
    · have hcc := hfits cc List.mem_cons_self
      split at hcut
      · rename_i f okIntent carrierOk okFound heq
        rw [heq] at hcc
        rw [List.mem_singleton.mp hcut]
        refine ⟨by simp, ?_⟩
        intro x hx
        rw [List.mem_singleton.mp hx]
        exact hcc
      · exact (List.not_mem_nil hcut).elim
    · obtain ⟨rest, hrest, rfl⟩ := List.mem_map.mp hcut
      obtain ⟨hlen, hall⟩ := ih hrest fun x hx => hfits x (List.mem_cons_of_mem cc hx)
      refine ⟨by simpa using hlen, ?_⟩
      intro x hx
      rcases List.mem_cons.mp hx with rfl | hx
      · exact hfits x List.mem_cons_self
      · exact hall x hx

end SettlementJournal

theorem chain_ne_of_durable (h : Durable sha bootId c r evs hw) (hne : evs ≠ []) : r ≠ {} := by
  intro heq
  have hlhead := (h.heads hne).2.1
  rw [heq] at hlhead
  cases hlhead

theorem openMeta_of_none {s : SettleStore} (hs : s.metaRec = none) (hok : oks 0 = true) :
    ∃ d m, openMeta oks ⟨s, 0⟩ = (d, some m) := by
  simp [openMeta, hs, hok]

open SettlementJournal

/-- Recovery after a run of the journal that stops between any two commits: a chain with a committed
event is started with the ledger of exactly its committed events and with the last committed
high-water, on which a refusal is counted if the headers are not there yet. -/
theorem recover_committed {calls cut : List (U32 × JournalCall)}
    (hcut : cut ∈ SettlementJournal.cuts calls) (hlt : calls.length < 2 ^ 64)
    (hfits : ∀ cc ∈ calls, cc.2.Fits)
    (hne : SettlementJournal.committed sha c { bootId := bootId } cut ≠ [])
    (hwins : Confirmed hooks c ((SettlementJournal.after sha bootId cut).store.chain c))
    (hintent : ∀ i, hooks.tryRederiveIntent i = none) (hmeta : oks 0 = true) :
    ∃ cr hw, (recover sha hooks oks
        (SettlementJournal.after sha bootId cut).store).1.outcome c = some (.ok cr) ∧
      cr.ledger = OwedLedger.after sha {}
        (SettlementJournal.committed sha c { bootId := bootId } cut) ∧
      SettlementJournal.committedHw sha c { bootId := bootId } none cut = some hw ∧
      cr.hw = if hooks.localHeaderHeight c < hw.hwHeight then { hw with refused := hw.refused + 1 }
        else hw := by
  obtain ⟨hlen, hcutFits⟩ := SettlementJournal.fits_of_mem_cuts hcut hfits
  obtain ⟨evs, hevs, hevsLt, hdurable⟩ := @SettlementJournal.durable_after sha bootId cut
    (by omega) hcutFits c
  have hevsNe : evs ≠ [] := by
    rintro rfl
    exact hne hevs.symm
  obtain ⟨hw, hhw⟩ := Option.ne_none_iff_exists'.mp (hdurable.heads hevsNe).1
  rw [hhw] at hdurable
  obtain ⟨d, m, hopen⟩ := @openMeta_of_none oks (SettlementJournal.after sha bootId cut).store
    (SettlementJournal.metaRec_run _ cut) hmeta
  obtain ⟨hchain, houtcome, -⟩ := @recover_of_openMeta sha hooks oks c _ d m hopen
    (chain_ne_of_durable hdurable hevsNe)
  have hdisk : (diskAt sha hooks oks m.bootId c d).store.chain c =
      (SettlementJournal.after sha bootId cut).store.chain c := (chain_diskAt d).trans hchain
  rw [← hdisk] at hdurable hwins
  rw [recoverChain_durable hdurable hevsNe hevsLt hwins hintent] at houtcome
  refine ⟨_, hw, houtcome, ?_, hhw, ?_⟩
  · show replayed sha evs = _
    rw [← hevs]
    rfl
  · unfold loadedAs SettleHW.admitCandidateHeight
    split <;> rfl

def interruptedRun : List (U32 × JournalCall) :=
  [(0, .tip 7 1 true),
    (0, .found { bid := [1], height := 7, credit := (∅ : Amounts).insert 3 5 } true true true),
    (0, .found { bid := [2], height := 8 } true true true)]

def interruptedCut : List (U32 × JournalCall) :=
  [(0, .tip 7 1 true),
    (0, .found { bid := [1], height := 7, credit := (∅ : Amounts).insert 3 5 } true true true),
    (0, .found { bid := [2], height := 8 } true false false)]

theorem interruptedCut_mem : interruptedCut ∈ cuts interruptedRun := by
  simp [cuts, interruptedRun, interruptedCut]

theorem fits_interruptedRun : ∀ cc ∈ interruptedRun, cc.2.Fits := by
  have hrows : FitsRows ((∅ : Amounts).insert 3 5) := by
    constructor
    · decide
    · show ∀ e ∈ [((3 : Bytes32), (5 : Int))], InRange e.2
      simp [InRange]
  simp [interruptedRun, JournalCall.Fits, FoundCall.Fits, hrows, fitsRows_empty]

theorem committed_interruptedCut : committed Sha256.sha256d 0 { bootId := 1 } interruptedCut =
    [.found [1] { credit := (∅ : Amounts).insert 3 5 }] := rfl

theorem confirmed_interruptedCut : Confirmed { winnerAt := fun _ _ => some 0 } 0
    ((after Sha256.sha256d 1 interruptedCut).store.chain 0) := by
  have hblk : ∃ b : BlkRec, b.shareHash = 0 ∧
      ((after Sha256.sha256d 1 interruptedCut).store.chain 0).blk =
        (∅ : SortedMap Bid (List Byte)).insert [1] (encodeBlk b) := ⟨_, rfl, rfl⟩
  obtain ⟨b, hb, hblk⟩ := hblk
  intro bid v b' hv hdec
  rw [hblk, SortedMap.lookup_insert] at hv
  split at hv
  · cases hv
    rw [decodeBlk_encodeBlk] at hdec
    cases hdec
    exact congrArg some hb.symm
  · cases hv

theorem recover_interruptedCut : ∃ cr hw,
    (recover Sha256.sha256d { winnerAt := fun _ _ => some 0 } (fun _ => true)
      (after Sha256.sha256d 1 interruptedCut).store).1.outcome 0 = some (.ok cr) ∧
    cr.ledger = OwedLedger.after Sha256.sha256d {}
      (committed Sha256.sha256d 0 { bootId := 1 } interruptedCut) ∧
    committedHw Sha256.sha256d 0 { bootId := 1 } none interruptedCut = some hw ∧
    cr.hw = if (2 ^ 64 - 1 : U64) < hw.hwHeight then { hw with refused := hw.refused + 1 }
      else hw := by
  apply recover_committed interruptedCut_mem (by decide) fits_interruptedRun
  · rw [committed_interruptedCut]
    simp
  · exact confirmed_interruptedCut
  · intro i
    rfl
  · rfl

/-! ## Ids that do not fit -/

def twoFound (b b' : Bid) : List (U32 × JournalCall) :=
  [(0, .found { bid := b } true true true), (0, .found { bid := b' } true true true)]

theorem after_twoFound {b b' : Bid} (hne : b' ≠ b) : ∃ l1 l2 : OwedLedger, l1.seq = 1 ∧ l2.seq = 2 ∧
    (after sha 1 (twoFound b b')).store.chain 0 =
      (foundOps sha 1 0 { bid := b' } (stampSeq {} l2) l1 l2).foldl
        (fun r op => r.set op.2 op.1)
        (((foundOps sha 1 0 { bid := b } (stampSeq {} l1) {} l1).foldl
          (fun r op => r.set op.2 op.1)
          (({} : ChainRecords).set (some (encodeIntent ⟨b, 0, 0, 0⟩)) (.intent 0))).set
            (some (encodeIntent ⟨b', 0, 0, 0⟩)) (.intent 0)) ∧
      committed sha 0 { bootId := 1 } (twoFound b b') = [.found b {}, .found b' {}] := by
  have hnew1 : ¬ ({} : OwedLedger).Knows b := by
    rintro (h | h)
    · exact h rfl
    · cases h
  generalize hl1 : ({} : OwedLedger).call sha {} (.found b {}) = l1
  have hseq1 : l1.seq = 1 := by
    rw [← hl1, seq_call_found hnew1]
  have hnew2 : ¬ l1.Knows b' := by
    intro h
    rw [← hl1] at h
    rcases h.of_call with h | ⟨args, h⟩
    · rcases h with h | h
      · exact h rfl
      · cases h
    · cases h
      exact hne rfl
  generalize hl2 : l1.call sha {} (.found b' {}) = l2
  have hseq2 : l2.seq = 2 := by
    rw [← hl2, seq_call_found hnew2, hseq1]
  have hfound1 := fun s => @onBlockFoundTwophase_new sha 1 0 s {} _ { bid := b } rfl hnew1 hl1.symm
  have hfound2 := fun s => @onBlockFoundTwophase_new sha 1 0 s
    { ledger := l1, hw := stampSeq {} l1 } _ { bid := b' } rfl hnew2 hl2.symm
  have hcall1 : ({ bootId := 1 } : SettlementJournal).call sha
      (0, .found { bid := b } true true true) =
      { store := (({} : SettleStore).commitSync true (onChain 0
          [(.intent 0, some (encodeIntent ⟨b, 0, 0, 0⟩))])).commitSync true
            (onChain 0 (foundOps sha 1 0 { bid := b } (stampSeq {} l1) {} l1))
        chains := Function.update (fun _ => {}) 0 { ledger := l1, hw := stampSeq {} l1 } } := by
    simp only [call, callChain, hfound1]
  refine ⟨l1, l2, hseq1, hseq2, ?_, ?_⟩
  · unfold after twoFound
    rw [Run.run_cons, hcall1, Run.run_cons, Run.run_nil]
    simp only [call, callChain, Function.update_self, hfound2]
    rw [SettleStore.chain_commitSync, SettleStore.chain_commitSync, SettleStore.chain_commitSync,
      SettleStore.chain_commitSync]
    rfl
  have hcommits1 : ({ bootId := 1 } : SettlementJournal).commitsOn sha 0
      (0, .found { bid := b } true true true) = true := by
    simp [commitsOn, JournalCall.commits, hfound1]
  unfold twoFound
  simp only [committed, hcommits1, hcall1]
  simp [commitsOn, JournalCall.commits, hfound2, JournalCall.events]

theorem recover_twoFound {b b' : Bid} (hne : b' ≠ b) (hcut : b'.take 0xffff = b.take 0xffff)
    (hmeta : oks 0 = true) : (recover sha hooks oks
      (after sha 1 (twoFound b b')).store).1.outcome 0 =
        some (.error ⟨0, .seqDisagreement, .lhead⟩) := by
  obtain ⟨l1, l2, hseq1, hseq2, hchain, -⟩ := @after_twoFound sha b b' hne
  have h1 : l1.ledgerSeq = 1 := by
    unfold OwedLedger.ledgerSeq
    rw [hseq1]
    rfl
  have h2 : l2.ledgerSeq = 2 := by
    unfold OwedLedger.ledgerSeq
    rw [hseq2]
    rfl
  have h0 : ({} : OwedLedger).ledgerSeq = 0 := rfl
  have hrecords : ∃ lhead, ((after sha 1 (twoFound b b')).store.chain 0).hw =
        some (encodeHw ⟨0, 1, { ledgerSeq := 2 }⟩) ∧
      ((after sha 1 (twoFound b b')).store.chain 0).lhead = some (encodeLhead lhead) ∧
      ((after sha 1 (twoFound b b')).store.chain 0).levt.entries =
        [(1, encodeEvent { seq := 1, bid := b }), (2, encodeEvent { seq := 2, bid := b' })] := by
    rw [hchain]
    simp [foundOps, headOps, h0, h1, h2, ChainRecords.set, stampSeq, SortedMap.set, FoundCall.event]
    rfl
  obtain ⟨lhead, hhw, hlhead, hlevt⟩ := hrecords
  have hfits : ∀ (seq : U64) (bid : Bid), ({ seq := seq, bid := bid } : EventRec).Fits :=
    fun _ _ => ⟨fitsRows_empty, fitsRows_empty, fitsRows_empty⟩
  have hfresh : ¬ ({} : OwedLedger).Knows (b.take 0xffff) := by
    rintro (h | h)
    · exact h rfl
    · cases h
  -- the second event finds the block of the first
  have hreplay : ∃ l fp, replayEvents sha 0
      ((after sha 1 (twoFound b b')).store.chain 0).levt.entries 0 ({}, ∅) = .ok (2, l, fp) ∧
        l.seq = 1 := by
    rw [hlevt]
    simp only [replayEvents, decodeEvent_encodeEvent (hfits _ _), hcut]
    refine ⟨_, _, rfl, ?_⟩
    simp only [EventRec.toCall]
    generalize hl : ({} : OwedLedger).call sha {} (.found (b.take 0xffff) {}) = l
    have hknown : l.Knows (b.take 0xffff) := by
      left
      rw [← hl]
      simp [OwedLedger.call, OwedLedger.onBlockFound, OwedLedger.bump, SortedMap.lookup_insert]
    have hagain : l.call sha {} (.found (b.take 0xffff) {}) = l := by
      exact if_pos hknown
    rw [hagain, ← hl, seq_call_found hfresh]
  obtain ⟨l, fp, hreplay, hseq⟩ := hreplay
  have hl : l.ledgerSeq ≠ 2 := by
    unfold OwedLedger.ledgerSeq
    rw [hseq]
    decide
  have hload : loadChain sha hooks 0 ((after sha 1 (twoFound b b')).store.chain 0) =
      .error ⟨0, .seqDisagreement, .lhead⟩ := by
    unfold loadChain loadFamilyA
    simp only [hhw, decodeHw_encodeHw]
    show (loadFamilyB sha 0 _ (if _ then _ else _)).bind (rebuildFamilyD hooks 0 _) = _
    rw [loadFamilyB_of_short hlhead (decodeLhead_encodeLhead lhead) hreplay hl]
    rfl
  obtain ⟨d, m, hopen⟩ := @openMeta_of_none oks (after sha 1 (twoFound b b')).store
    (metaRec_run _ _) hmeta
  obtain ⟨hd, houtcome, -⟩ := @recover_of_openMeta sha hooks oks 0 _ d m hopen (by
    intro heq
    rw [heq] at hhw
    cases hhw)
  rw [houtcome]
  unfold recoverChain
  rw [chain_diskAt, hd, hload]

theorem Confirmed.found (h : Confirmed hooks c r) {f : FoundCall}
    {hw : SettleHW} {l' : OwedLedger} (hwins : hooks.winnerAt c f.height = some f.shareHash) :
    Confirmed hooks c ((foundOps sha bootId c f hw l l').foldl (fun r op => r.set op.2 op.1)
      r) := by
  have hblk : ((foundOps sha bootId c f hw l l').foldl (fun r op => r.set op.2 op.1) r).blk =
      r.blk.insert f.bid
        (encodeBlk ⟨f.shareHash, f.height, f.reward, l'.ledgerSeq, bootId, f.cut⟩) := by
    unfold foundOps
    split <;> rfl
  intro bid v b hv hdec
  rw [hblk, SortedMap.lookup_insert] at hv
  split at hv
  · cases hv
    rw [decodeBlk_encodeBlk] at hdec
    cases hdec
    exact hwins
  · exact h bid v b hv hdec

def longBid (b : Byte) : Bid := List.replicate 65535 0 ++ [b]

/-- Two blocks whose ids are longer than a record can hold: both are committed and confirmed, and
the chain is refused. -/
theorem recover_longBid :
    twoFound (longBid 0) (longBid 1) ∈ cuts (twoFound (longBid 0) (longBid 1)) ∧
    committed Sha256.sha256d 0 { bootId := 1 } (twoFound (longBid 0) (longBid 1)) =
      [.found (longBid 0) {}, .found (longBid 1) {}] ∧
    Confirmed { winnerAt := fun _ _ => some 0 } 0
      ((after Sha256.sha256d 1 (twoFound (longBid 0) (longBid 1))).store.chain 0) ∧
    (recover Sha256.sha256d { winnerAt := fun _ _ => some 0 } (fun _ => true)
      (after Sha256.sha256d 1 (twoFound (longBid 0) (longBid 1))).store).1.outcome 0 =
        some (.error ⟨0, .seqDisagreement, .lhead⟩) := by
  have hne : longBid 1 ≠ longBid 0 := by
    intro h
    have := List.append_cancel_left h
    cases this
  have hcut : (longBid 1).take 0xffff = (longBid 0).take 0xffff := by
    unfold longBid
    rw [List.take_left' List.length_replicate, List.take_left' List.length_replicate]
  obtain ⟨l1, l2, -, -, hchain, hcommitted⟩ := @after_twoFound Sha256.sha256d _ _ hne
  refine ⟨self_mem_cuts _, hcommitted, ?_, recover_twoFound hne hcut rfl⟩
  rw [hchain]
  apply Confirmed.found _ rfl
  apply Confirmed.found _ rfl
  intro bid v b hv
  cases hv

/-! ## The census -/

theorem decodes_durable
    (h : Durable sha bootId c r evs hw) (hlt : evs.length < 2 ^ 64) : Census.Decodes r := by
  have hlmmr := @decodeLmmr_lmmrOf sha (replayed sha evs) (counted_replayed evs)
    (by rw [h.count]; exact hlt) bootId
  constructor
  · intro v hv
    rw [h.highWater] at hv
    obtain ⟨x, -, rfl⟩ := Option.map_eq_some_iff.mp hv
    rfl
  · intro v hv
    by_cases hne : evs = []
    · rw [(h.noEvent hne).1] at hv
      cases hv
    rw [(h.heads hne).2.1] at hv
    cases hv
    rfl
  · intro v hv
    by_cases hne : evs = []
    · rw [(h.noEvent hne).2] at hv
      cases hv
    rw [(h.heads hne).2.2] at hv
    cases hv
    rw [hlmmr]
    rfl
  · intro e he
    have hmem : (e.1, decodeEvent e.2) ∈ evs.map fun e => (e.seq, some e) := by
      rw [← h.log.decoded]
      exact List.mem_map_of_mem (f := fun e : U64 × List Byte => (e.1, decodeEvent e.2)) he
    obtain ⟨x, -, hx⟩ := List.mem_map.mp hmem
    have hdec : some x = decodeEvent e.2 := congrArg Prod.snd hx
    rw [← hdec]
    rfl
  · exact fun e he => Option.isSome_iff_exists.mpr (h.blk e he)
  · exact fun e he => Option.isSome_iff_exists.mpr (h.intent e he)
  · rw [h.noLane.1]
    exact fun _ he => (List.not_mem_nil he).elim
  · rw [h.noLane.2.1]
    exact fun _ hv => by cases hv
  · rw [h.noLane.2.2]
    exact fun _ hv => by cases hv

theorem levtSeqs_durable
    (h : Durable sha bootId c r evs hw) : Census.levtSeqs r = evs.map EventRec.seq := by
  have hmap := congrArg (List.filterMap fun p : U64 × Option EventRec => p.2.map EventRec.seq)
    h.log.decoded
  rw [List.filterMap_map, List.filterMap_map] at hmap
  refine Eq.trans hmap ?_
  rw [← List.filterMap_eq_map]
  rfl

theorem heads_durable {hw : SettleHW} (h : Durable sha bootId c r evs (some hw)) (hne : evs ≠ [])
    (hlt : evs.length < 2 ^ 64) (c' : U32) : Census.heads c' r = [] := by
  have hseq : (replayed sha evs).ledgerSeq.val = evs.length := by
    rw [ledgerSeq_val (by rw [h.count]; exact hlt), h.count]
  have hl : Census.lheadSeq r = some (replayed sha evs).ledgerSeq := by
    unfold Census.lheadSeq
    rw [(h.heads hne).2.1, Option.bind_some, decodeLhead_encodeLhead]
    rfl
  have hh : Census.hwSeq r = some (replayed sha evs).ledgerSeq := by
    unfold Census.hwSeq
    rw [h.highWater, Option.map_some, Option.bind_some, decodeHw_encodeHw, Option.map_some]
    exact congrArg some (h.stamped hw rfl)
  have hmissing : (List.range (replayed sha evs).ledgerSeq.val).filter
      (fun i => (evs.map EventRec.seq).all fun s => s.val ≠ i + 1) = [] := by
    rw [List.filter_eq_nil_iff]
    intro i hi hall
    rw [List.mem_range, hseq] at hi
    have hmem : i + 1 ∈ evs.map fun e => e.seq.val := by
      rw [h.log.numbered, List.mem_range'_1]
      omega
    obtain ⟨e, he, heq⟩ := List.mem_map.mp hmem
    have hsome := List.all_eq_true.mp hall e.seq (List.mem_map_of_mem he)
    simp [heq] at hsome
  unfold Census.heads
  rw [hl, hh, levtSeqs_durable h]
  simp only [ne_eq, not_true_eq_false, if_false, List.length_map, hseq]
  rw [hseq] at hmissing
  rw [hmissing]
  rfl

theorem recoverChain_noEvent
    (h : Durable sha bootId c (d.store.chain c) [] hw) (cr : ChainRecovery) :
    (recoverChain sha hooks oks bootId' c d).2 ≠ .ok cr := by
  intro hok
  obtain ⟨cr0, rs, hload, -⟩ := recoverChain_eq_ok.mp (Prod.ext rfl hok)
  unfold loadChain at hload
  have hB : ∀ cr, loadFamilyB sha c (d.store.chain c) cr = .error ⟨c, .lheadMissing, .lhead⟩ := by
    intro cr
    unfold loadFamilyB
    rw [(h.noEvent rfl).1]
  cases hA : loadFamilyA c (d.store.chain c) with
  | error e =>
    rw [hA] at hload
    cases hload
  | ok x =>
    rw [hA] at hload
    simp only [hB] at hload
    cases hload
/-- The store of every run of the journal, wherever it stops between two commits, passes the census
and starts every chain exactly when every chain with a record has a committed event. -/
theorem restartable_iff {calls cut : List (U32 × JournalCall)} (hcut : cut ∈ cuts calls)
    (hlt : calls.length < 2 ^ 64) (hfits : ∀ cc ∈ calls, cc.2.Fits)
    (hwins : ∀ c, Confirmed hooks c ((after sha bootId cut).store.chain c))
    (hintent : ∀ i, hooks.tryRederiveIntent i = none) (hmeta : oks 0 = true) :
    (censusOpen (after sha bootId cut).store = [] ∧
      (recover sha hooks oks (after sha bootId cut).store).1.ok = true) ↔
    ∀ c, (after sha bootId cut).store.chain c ≠ {} →
      committed sha c { bootId := bootId } cut ≠ [] := by
  obtain ⟨hlen, hcutFits⟩ := fits_of_mem_cuts hcut hfits
  have hdurable := fun c => @durable_after sha bootId cut (by omega) hcutFits c
  have hnone : (after sha bootId cut).store.metaRec = none := metaRec_run _ cut
  obtain ⟨d, m, hopen⟩ := @openMeta_of_none oks (after sha bootId cut).store hnone hmeta
  generalize hs : (after sha bootId cut).store = s at *
  have hdisk : ∀ c, s.chain c ≠ {} →
      (diskAt sha hooks oks m.bootId c d).store.chain c = s.chain c := fun c hc =>
    (chain_diskAt d).trans (@recover_of_openMeta sha hooks oks c s d m hopen hc).1
  rw [ok_recover_iff hopen]
  constructor
  · rintro ⟨-, hok⟩ c hc hcommitted
    obtain ⟨evs, hevs, -, h⟩ := hdurable c
    obtain ⟨cr, hcr⟩ := hok c hc
    rw [(recover_of_openMeta hopen hc).2.1, Option.some.injEq] at hcr
    rw [hcommitted, List.map_eq_nil_iff] at hevs
    rw [hevs, ← hdisk c hc] at h
    exact recoverChain_noEvent h cr hcr
  intro hevents
  have hsome : ∀ c, s.chain c ≠ {} → ∃ evs hw, evs ≠ [] ∧ evs.length < 2 ^ 64 ∧
      Durable sha bootId c (s.chain c) evs (some hw) := by
    intro c hc
    obtain ⟨evs, hevs, hevsLt, h⟩ := hdurable c
    have hne : evs ≠ [] := by
      rintro rfl
      exact hevents c hc hevs.symm
    obtain ⟨hw, hhw⟩ := Option.ne_none_iff_exists'.mp (h.heads hne).1
    rw [hhw] at h
    exact ⟨evs, hw, hne, hevsLt, h⟩
  constructor
  · apply censusOpen_eq_nil hnone
    · intro c
      obtain ⟨evs, -, hevsLt, h⟩ := hdurable c
      exact decodes_durable h hevsLt
    · intro c hc
      obtain ⟨evs, hw, -, -, h⟩ := hsome c hc
      rw [h.highWater]
      simp
    · intro c hc
      obtain ⟨evs, hw, hne, hevsLt, h⟩ := hsome c hc
      exact heads_durable h hne hevsLt c
  intro c hc
  obtain ⟨evs, hw, hne, hevsLt, h⟩ := hsome c hc
  have hw' := hwins c
  rw [← hdisk c hc] at h hw'
  refine ⟨loadedAs sha hooks bootId c evs hw, ?_⟩
  rw [(recover_of_openMeta hopen hc).2.1, recoverChain_durable h hne hevsLt hw' hintent]

/-- The run above passes the census and starts its chain. -/
theorem restartable_interruptedCut :
    censusOpen (after Sha256.sha256d 1 interruptedCut).store = [] ∧
    (recover Sha256.sha256d { winnerAt := fun _ _ => some 0 } (fun _ => true)
      (after Sha256.sha256d 1 interruptedCut).store).1.ok = true := by
  have hother : ∀ c, c ≠ 0 → (after Sha256.sha256d 1 interruptedCut).store.chain c = {} := by
    intro c hc
    apply chain_run_of_not_mem
    simp [interruptedCut, Ne.symm hc]
  apply (restartable_iff interruptedCut_mem (by decide) fits_interruptedRun ?_ (fun _ => rfl)
    rfl).mpr
  · intro c hc
    by_cases h0 : c = 0
    · rw [h0, committed_interruptedCut]
      simp
    · exact (hc (hother c h0)).elim
  intro c
  by_cases h0 : c = 0
  · rw [h0]
    exact confirmed_interruptedCut
  rw [hother c h0]
  intro bid v b hv
  cases hv

/-- A tip alone passes the census and is refused; an intent alone does not pass either. -/
theorem recover_noEvent :
    censusOpen (after Sha256.sha256d 1 [(0, .tip 7 1 true)]).store = [] ∧
    (recover Sha256.sha256d {} (fun _ => true)
      (after Sha256.sha256d 1 [(0, .tip 7 1 true)]).store).1.outcome 0 =
        some (.error ⟨0, .lheadMissing, .lhead⟩) ∧
    censusOpen (after Sha256.sha256d 1 [(0, .found { bid := [1] } true false false)]).store =
      [.missingHw 0] ∧
    (recover Sha256.sha256d {} (fun _ => true)
      (after Sha256.sha256d 1 [(0, .found { bid := [1] } true false false)]).store).1.outcome 0 =
        some (.error ⟨0, .hwMissing, .hw⟩) := by
  refine ⟨?_, rfl, ?_, rfl⟩
  · decide +kernel
  · decide +kernel

end C2Pool.V37
