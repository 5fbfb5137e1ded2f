import C2Pool.V37.Replay

/-! # What the journal leaves in the store

Along every run of the journal, the records of a chain are those of its committed events: the log,
the heads of the ledger that the log leads to, and the high-water of the last commit.
-/

namespace C2Pool.V37

open List

variable {sha : List Byte → Bytes32} {bootId : U64} {c c' : U32} {r : ChainRecords}
  {s : SettleStore} {m : ChainMem} {l : OwedLedger} {e : EventRec} {evs : List EventRec}
  {hw : Option SettleHW} {hw' : SettleHW} {bid : Bid} {f : FoundCall}
  {calls : List (U32 × JournalCall)}

theorem ledgerSeq_val (h : l.seq < 2 ^ 64) : l.ledgerSeq.val = l.seq :=
  Nat.mod_eq_of_lt h

/-- The records of a chain with the committed events `evs` and the last committed high-water. -/
structure Durable (sha : List Byte → Bytes32) (bootId : U64) (c : U32) (r : ChainRecords)
    (evs : List EventRec) (hw : Option SettleHW) : Prop where
  log : Logs r.levt evs
  count : (replayed sha evs).seq = evs.length
  short : ∀ e ∈ evs, e.evkind = .found → e.bid.length ≤ 0xffff
  highWater : r.hw = hw.map fun h => encodeHw ⟨c, bootId, h⟩
  stamped : ∀ h, hw = some h → h.ledgerSeq = (replayed sha evs).ledgerSeq
  noEvent : evs = [] → r.lhead = none ∧ r.lmmr = none
  heads : evs ≠ [] → hw ≠ none ∧
    r.lhead = some (encodeLhead ⟨(replayed sha evs).ledgerSeq,
      (replayed sha evs).digestDefault sha, bootId⟩) ∧
    r.lmmr = some (encodeLmmr (lmmrOf sha (replayed sha evs) bootId))
  blk : ∀ e ∈ r.blk.entries, ∃ b, decodeBlk e.2 = some b
  intent : ∀ e ∈ r.intent.entries, ∃ i, decodeIntent e.2 = some i
  noLane : r.carrier = ∅ ∧ r.tip = none ∧ r.genesis = none

theorem durable_empty (bootId : U64) (c : U32) : Durable sha bootId c {} [] none where
  log := Logs.empty
  count := rfl
  short := fun _ h => (not_mem_nil h).elim
  highWater := rfl
  stamped := fun _ h => by cases h
  noEvent := fun _ => ⟨rfl, rfl⟩
  heads := fun h => (h rfl).elim
  blk := fun _ h => (not_mem_nil h).elim
  intent := fun _ h => (not_mem_nil h).elim
  noLane := ⟨rfl, rfl, rfl⟩

theorem fitsRows_empty : FitsRows ∅ := ⟨by decide, fun _ he => (not_mem_nil he).elim⟩

theorem decodes_set {K α : Type} [LinearOrder K] {decode : List Byte → Option α}
    {m : SortedMap K (List Byte)} (h : ∀ e ∈ m.entries, ∃ a, decode e.2 = some a) (k : K)
    {v : Option (List Byte)} (hv : ∀ x, v = some x → ∃ a, decode x = some a) :
    ∀ e ∈ (SortedMap.set m k v).entries, ∃ a, decode e.2 = some a := by
  intro e he
  have hlookup := SortedMap.mem_entries_iff.mp he
  cases v with
  | none =>
    rw [SortedMap.set, SortedMap.lookup_erase] at hlookup
    split at hlookup
    · cases hlookup
    · exact h e (SortedMap.mem_entries_iff.mpr hlookup)
  | some x =>
    rw [SortedMap.set, SortedMap.lookup_insert] at hlookup
    split at hlookup
    · cases hlookup
      exact hv _ rfl
    · exact h e (SortedMap.mem_entries_iff.mpr hlookup)

namespace Durable

section

variable (h : Durable sha bootId c r evs hw)
include h

theorem tip (hseq : hw'.ledgerSeq = (replayed sha evs).ledgerSeq) :
    Durable sha bootId c (r.set (some (encodeHw ⟨c, bootId, hw'⟩)) .hw) evs (some hw') where
  log := h.log
  count := h.count
  short := h.short
  highWater := rfl
  stamped := fun x hx => by
    cases hx
    exact hseq
  noEvent := h.noEvent
  heads := fun hne => ⟨by simp, (h.heads hne).2⟩
  blk := h.blk
  intent := h.intent
  noLane := h.noLane

theorem setIntent (shareHash : Bytes32) {v : Option (List Byte)}
    (hv : ∀ x, v = some x → ∃ i, decodeIntent x = some i) :
    Durable sha bootId c (r.set v (.intent shareHash)) evs hw :=
  { h with intent := decodes_set h.intent shareHash hv }

theorem setBlk (bid : Bid) (b : BlkRec) :
    Durable sha bootId c (r.set (some (encodeBlk b)) (.blk bid)) evs hw :=
  { h with
    blk := decodes_set h.blk bid fun x hx => by
      cases hx
      exact ⟨b, decodeBlk_encodeBlk b⟩ }

theorem event {e : EventRec} (hw' : SettleHW) (hlt : evs.length + 1 < 2 ^ 64)
    (hmove : ((replayed sha evs).call sha {} e.toCall).seq = (replayed sha evs).seq + 1)
    (hseq : e.seq = ((replayed sha evs).call sha {} e.toCall).ledgerSeq)
    (hdec : decodeEvent (encodeEvent e) = some e) (hshort : e.bid.length ≤ 0xffff)
    (hhw : hw'.ledgerSeq = ((replayed sha evs).call sha {} e.toCall).ledgerSeq) :
    Durable sha bootId c
      ((eventOps sha bootId c e hw' ((replayed sha evs).call sha {} e.toCall)).foldl
        (fun r op => r.set op.2 op.1) r) (evs ++ [e]) (some hw') := by
  have hnum : e.seq.val = evs.length + 1 := by
    rw [hseq, ledgerSeq_val (by rw [hmove, h.count]; exact hlt), hmove, h.count]
  have hnew : replayed sha (evs ++ [e]) = (replayed sha evs).call sha {} e.toCall :=
    replayed_append evs e
  constructor
  · exact h.log.insert hnum hdec
  · rw [hnew, hmove, h.count, length_append, length_singleton]
  · intro x hx hfound
    rcases mem_append.mp hx with hx | hx
    · exact h.short x hx hfound
    · rw [mem_singleton.mp hx]
      exact hshort
  · rfl
  · intro x hx
    cases hx
    rw [hnew]
    exact hhw
  · intro hnil
    simp at hnil
  · intro _
    rw [hnew]
    exact ⟨by simp, rfl, rfl⟩
  · exact h.blk
  · exact h.intent
  · exact h.noLane

end

end Durable

/-! ## What a call commits -/

namespace SettleStore

theorem chain_commitSync (s : SettleStore) (c : U32) (ok : Bool)
    (ops : List (RecKey × Option (List Byte))) : (s.commitSync ok (onChain c ops)).chain c =
      if ok then ops.foldl (fun r op => r.set op.2 op.1) (s.chain c) else s.chain c := by
  cases ok with
  | false => rfl
  | true => exact (chain_commit_onChain s c c ops).trans (if_pos rfl)

theorem chain_commitSync_of_ne (s : SettleStore) (hne : c' ≠ c) (ok : Bool)
    (ops : List (RecKey × Option (List Byte))) :
    (s.commitSync ok (onChain c ops)).chain c' = s.chain c' := by
  cases ok with
  | false => rfl
  | true => exact (chain_commit_onChain s c c' ops).trans (if_neg hne)

theorem metaRec_commitSync_onChain (s : SettleStore) (c : U32) (ok : Bool)
    (ops : List (RecKey × Option (List Byte))) :
    (s.commitSync ok (onChain c ops)).metaRec = s.metaRec := by
  cases ok with
  | false => rfl
  | true => exact metaRec_commit_onChain s c ops

end SettleStore

def FoundCall.Fits (f : FoundCall) : Prop :=
  f.bid.length ≤ 0xffff ∧ FitsRows f.credit ∧ FitsRows f.payout

def JournalCall.Fits : JournalCall → Prop
  | .tip _ _ _ => True
  | .found f _ _ _ => f.Fits
  | .finalized _ _ _ => True
  | .orphaned _ settledPayout _ => FitsRows settledPayout

def JournalCall.events : JournalCall → List LedgerCall
  | .tip _ _ _ => []
  | .found f _ _ _ => [.found f.bid { credit := f.credit, payout := f.payout }]
  | .finalized bid binHeight _ => [.finalized bid binHeight]
  | .orphaned bid settledPayout _ => [.orphaned bid settledPayout]

def JournalCall.commits (sha : List Byte → Bytes32) (bootId : U64) (c : U32) (s : SettleStore)
    (m : ChainMem) : JournalCall → Bool
  | .tip height t ok =>
    match (onTipAdvanced bootId c s m height t ok).1 with
    | .advanced | .refusedShorter => true
    | .torn | .poisoned => false
  | .found f okIntent carrierOk okFound =>
    (onBlockFoundTwophase sha bootId c s m f okIntent carrierOk okFound).1 = .found
  | .finalized bid binHeight ok =>
    (onBlockFinalized sha bootId c s m bid binHeight ok).1 = .finalized
  | .orphaned bid settledPayout ok =>
    (onBlockOrphaned sha bootId c s m bid settledPayout ok).1 = .applied

def InStep (sha : List Byte → Bytes32) (m : ChainMem) (evs : List EventRec)
    (hw : Option SettleHW) : Prop :=
  m.poisoned = false → m.ledger = replayed sha evs ∧ m.hw = hw.getD {}

def Kept (sha : List Byte → Bytes32) (bootId : U64) (c : U32) (r : ChainRecords) (m : ChainMem)
    (evs : List EventRec) (hw : Option SettleHW) : Prop :=
  Durable sha bootId c r evs hw ∧ InStep sha m evs hw

/-- What `on_tip_advanced` does: nothing, a torn commit, or a new high-water. -/
theorem onTipAdvanced_cases (height : U64) (t : Bytes32) (ok : Bool) :
    onTipAdvanced bootId c s m height t ok = (.poisoned, s, m) ∨
    (∃ hw', onTipAdvanced bootId c s m height t ok =
      (.torn, s, { m with hw := hw', poisoned := true })) ∨
    ∃ res hw', (res = .advanced ∨ res = .refusedShorter) ∧ m.poisoned = false ∧
      hw'.ledgerSeq = m.ledger.ledgerSeq ∧
      onTipAdvanced bootId c s m height t ok =
        (res, s.commitSync true (onChain c [(.hw, some (encodeHw ⟨c, bootId, hw'⟩))]),
          { m with hw := hw' }) := by
  unfold onTipAdvanced
  cases hp : m.poisoned with
  | true => exact .inl rfl
  | false =>
    generalize m.hw.admitCandidateHeight height = adm
    obtain ⟨admitted, hw1⟩ := adm
    right
    cases ok with
    | false => exact .inl ⟨_, rfl⟩
    | true =>
      right
      refine ⟨if admitted then .advanced else .refusedShorter,
        stampSeq (if admitted then hw1.advance height t else hw1) m.ledger, ?_, rfl, rfl, rfl⟩
      cases admitted
      · exact .inr rfl
      · exact .inl rfl

theorem onBlockFoundTwophase_new {f : FoundCall} (hp : m.poisoned = false)
    (hnew : ¬ m.ledger.Knows f.bid)
    (hl : l = m.ledger.call sha {} (.found f.bid { credit := f.credit, payout := f.payout })) :
    onBlockFoundTwophase sha bootId c s m f true true true =
      (.found,
        (s.commitSync true (onChain c
          [(.intent f.shareHash, some (encodeIntent { f with ts := 0 }))])).commitSync
          true (onChain c (foundOps sha bootId c f (stampSeq m.hw l) m.ledger l)),
        { m with ledger := l, hw := stampSeq m.hw l }) := by
  rw [OwedLedger.knows_iff] at hnew
  unfold onBlockFoundTwophase
  rw [if_neg (by simp [hp]), if_neg hnew, hl]
  rfl

/-- What `on_block_found_twophase` does: nothing, an intent at most, or the found block. -/
theorem onBlockFoundTwophase_cases (f : FoundCall) (okIntent carrierOk okFound : Bool) :
    (∃ res, res ≠ .found ∧ onBlockFoundTwophase sha bootId c s m f okIntent carrierOk okFound =
      (res, s, m)) ∨
    (∃ res ok m', res ≠ .found ∧ (m' = m ∨ m'.poisoned = true) ∧
      onBlockFoundTwophase sha bootId c s m f okIntent carrierOk okFound =
        (res, s.commitSync ok (onChain c
          [(.intent f.shareHash, some (encodeIntent { f with ts := 0 }))]), m')) ∨
    (m.poisoned = false ∧ ¬ m.ledger.Knows f.bid ∧
      onBlockFoundTwophase sha bootId c s m f okIntent carrierOk okFound =
        (.found,
          (s.commitSync true (onChain c
            [(.intent f.shareHash, some (encodeIntent { f with ts := 0 }))])).commitSync
            true (onChain c (foundOps sha bootId c f
              (stampSeq m.hw (m.ledger.call sha {}
                (.found f.bid { credit := f.credit, payout := f.payout }))) m.ledger
              (m.ledger.call sha {}
                (.found f.bid { credit := f.credit, payout := f.payout })))),
          { m with
            ledger := m.ledger.call sha {}
              (.found f.bid { credit := f.credit, payout := f.payout })
            hw := stampSeq m.hw (m.ledger.call sha {}
              (.found f.bid { credit := f.credit, payout := f.payout })) })) := by
  unfold onBlockFoundTwophase
  cases hp : m.poisoned with
  | true => exact .inl ⟨.poisoned, by simp, rfl⟩
  | false =>
    by_cases hdup : m.ledger.isPending f.bid ∨ m.ledger.isSettled f.bid
    · left
      refine ⟨.duplicate, by simp, ?_⟩
      rw [if_neg (by simp), if_pos hdup]
    rw [if_neg (by simp), if_neg hdup]
    right
    cases okIntent with
    | false => exact .inl ⟨.tornIntent, false, _, by simp, .inr rfl, rfl⟩
    | true =>
      cases carrierOk with
      | false => exact .inl ⟨.carrierRefused, true, m, by simp, .inl rfl, rfl⟩
      | true =>
        cases okFound with
        | false => exact .inl ⟨.tornFound, true, _, by simp, .inr rfl, rfl⟩
        | true => exact .inr ⟨rfl, fun h => hdup (OwedLedger.knows_iff.mp h), rfl⟩

theorem call_of_ledgerSeq_eq {e : LedgerCall} (hlt : l.seq + 1 < 2 ^ 64)
    (h : (l.call sha {} e).ledgerSeq = l.ledgerSeq) : l.call sha {} e = l := by
  rcases @OwedLedger.call_eq_or_seq sha {} l e with heq | heq
  · exact heq
  have hval := congrArg Fin.val h
  rw [ledgerSeq_val (by omega), ledgerSeq_val (by omega)] at hval
  omega

theorem call_seq_of_ledgerSeq_ne {e : LedgerCall} (h : (l.call sha {} e).ledgerSeq ≠ l.ledgerSeq) :
    (l.call sha {} e).seq = l.seq + 1 := by
  rcases @OwedLedger.call_eq_or_seq sha {} l e with heq | heq
  · rw [heq] at h
    exact (h rfl).elim
  · exact heq

def finalizeEvent (seq : U64) (bid : Bid) (binHeight : U64) : EventRec :=
  { evkind := .finalize, seq := seq, bid := bid, binHeight := binHeight }

def orphanEvent (seq : U64) (bid : Bid) (settledPayout : Amounts) : EventRec :=
  { evkind := .orphan, seq := seq, bid := bid, settledPayout := settledPayout }

def EventCases (sha : List Byte → Bytes32) (bootId : U64) (c : U32) (s : SettleStore)
    (m : ChainMem) (e : EventRec) (committed : Bool) (s' : SettleStore) (m' : ChainMem) : Prop :=
  (committed = false ∧ s' = s ∧ m' = m) ∨
  (committed = false ∧ s' = s ∧ m'.poisoned = true) ∨
  (committed = true ∧ m.poisoned = false ∧
    (m.ledger.call sha {} e.toCall).ledgerSeq ≠ m.ledger.ledgerSeq ∧
    e.seq = (m.ledger.call sha {} e.toCall).ledgerSeq ∧
    s' = s.commitSync true (onChain c (eventOps sha bootId c e
      (stampSeq m.hw (m.ledger.call sha {} e.toCall)) (m.ledger.call sha {} e.toCall))) ∧
    m'.poisoned = false ∧ m'.ledger = m.ledger.call sha {} e.toCall ∧
    m'.hw = stampSeq m.hw (m.ledger.call sha {} e.toCall))

/-- The end of such an entry point, once its own checks have passed. -/
theorem eventCases_of_seq {ρ : Type} (done : ρ → Bool) {noOp success torn : ρ} (e : EventRec)
    (hlt : m.ledger.seq + 1 < 2 ^ 64) (hp : ¬ m.poisoned = true) (hnoOp : done noOp = false)
    (hsuccess : done success = true) (htorn : done torn = false) (last : Option U64)
    (hseq : e.seq = (m.ledger.call sha {} e.toCall).ledgerSeq) (ok : Bool) :
    let l := m.ledger.call sha {} e.toCall
    let hw := stampSeq m.hw l
    let s' := s.commitSync ok (onChain c (eventOps sha bootId c e hw l))
    let out : ρ × SettleStore × ChainMem :=
      if l.ledgerSeq = m.ledger.ledgerSeq then (noOp, s, { m with ledger := l })
      else if ok then (success, s', { m with ledger := l, hw := hw, lastFinalizeBin := last })
      else (torn, s', { m with ledger := l, hw := hw, poisoned := true })
    EventCases sha bootId c s m e (done out.1) out.2.1 out.2.2 := by
  dsimp only
  by_cases hsame : (m.ledger.call sha {} e.toCall).ledgerSeq = m.ledger.ledgerSeq
  · rw [if_pos hsame]
    left
    refine ⟨hnoOp, rfl, ?_⟩
    rw [call_of_ledgerSeq_eq hlt hsame]
  rw [if_neg hsame]
  right
  cases ok with
  | false => exact .inl ⟨htorn, rfl, rfl⟩
  | true =>
    refine .inr ⟨hsuccess, by simpa using hp, hsame, hseq, rfl, by simpa using hp, rfl, rfl⟩

theorem onBlockFinalized_cases (hlt : m.ledger.seq + 1 < 2 ^ 64) (bid : Bid) (binHeight : U64)
    (ok : Bool) : EventCases sha bootId c s m
      (finalizeEvent (m.ledger.call sha {} (.finalized bid binHeight)).ledgerSeq bid binHeight)
      ((onBlockFinalized sha bootId c s m bid binHeight ok).1 = .finalized)
      (onBlockFinalized sha bootId c s m bid binHeight ok).2.1
      (onBlockFinalized sha bootId c s m bid binHeight ok).2.2 := by
  have hcall : m.ledger.onBlockFinalized sha {} bid binHeight =
      m.ledger.call sha {} (.finalized bid binHeight) := rfl
  unfold onBlockFinalized
  by_cases hp : m.poisoned = true
  · rw [if_pos hp]
    exact .inl ⟨rfl, rfl, rfl⟩
  rw [if_neg hp]
  split
  · exact .inl ⟨rfl, rfl, rfl⟩
  split
  · exact .inl ⟨rfl, rfl, rfl⟩
  rw [hcall]
  exact eventCases_of_seq (fun res => decide (res = FinalResult.finalized))
    (finalizeEvent (m.ledger.call sha {} (.finalized bid binHeight)).ledgerSeq bid binHeight)
    hlt hp rfl rfl rfl (some binHeight) rfl ok

theorem onBlockOrphaned_cases (hlt : m.ledger.seq + 1 < 2 ^ 64) (bid : Bid)
    (settledPayout : Amounts) (ok : Bool) : EventCases sha bootId c s m
      (orphanEvent (m.ledger.call sha {} (.orphaned bid settledPayout)).ledgerSeq bid
        settledPayout)
      ((onBlockOrphaned sha bootId c s m bid settledPayout ok).1 = .applied)
      (onBlockOrphaned sha bootId c s m bid settledPayout ok).2.1
      (onBlockOrphaned sha bootId c s m bid settledPayout ok).2.2 := by
  have hcall : m.ledger.onBlockOrphaned sha bid settledPayout =
      m.ledger.call sha {} (.orphaned bid settledPayout) := rfl
  unfold onBlockOrphaned
  by_cases hp : m.poisoned = true
  · rw [if_pos hp]
    exact .inl ⟨rfl, rfl, rfl⟩
  rw [if_neg hp, hcall]
  exact eventCases_of_seq (fun res => decide (res = OrphanResult.applied))
    (orphanEvent (m.ledger.call sha {} (.orphaned bid settledPayout)).ledgerSeq bid
      settledPayout) hlt hp rfl rfl rfl m.lastFinalizeBin rfl ok

theorem kept_onTipAdvanced (h : Kept sha bootId c (s.chain c) m evs hw) (height : U64)
    (t : Bytes32) (ok : Bool) :
    Kept sha bootId c ((onTipAdvanced bootId c s m height t ok).2.1.chain c)
      (onTipAdvanced bootId c s m height t ok).2.2 evs
      (if JournalCall.commits sha bootId c s m (.tip height t ok) then
        some (onTipAdvanced bootId c s m height t ok).2.2.hw else hw) := by
  obtain ⟨hdur, hmem⟩ := h
  unfold JournalCall.commits
  obtain heq | ⟨hw', heq⟩ | ⟨res, hw', hres, hp, hseq, heq⟩ :=
    @onTipAdvanced_cases bootId c s m height t ok
  · simp only [heq]
    exact ⟨hdur, hmem⟩
  · simp only [heq]
    exact ⟨hdur, fun hlive => by cases hlive⟩
  · obtain ⟨hledger, -⟩ := hmem hp
    rw [hledger] at hseq
    have hstore := SettleStore.chain_commitSync s c true [(.hw, some (encodeHw ⟨c, bootId, hw'⟩))]
    simp only [heq]
    rcases hres with rfl | rfl
    · exact ⟨hstore ▸ hdur.tip hseq, fun _ => ⟨hledger, rfl⟩⟩
    · exact ⟨hstore ▸ hdur.tip hseq, fun _ => ⟨hledger, rfl⟩⟩

theorem knows_of_moves (hkind : e.evkind ≠ .found)
    (h : (l.call sha {} e.toCall).ledgerSeq ≠ l.ledgerSeq) : l.Knows e.bid := by
  by_contra hno
  unfold OwedLedger.Knows at hno
  rw [not_or, not_not] at hno
  apply h
  unfold EventRec.toCall
  cases hk : e.evkind with
  | found => exact (hkind hk).elim
  | finalize => simp only [OwedLedger.call, OwedLedger.onBlockFinalized, hno.1]
  | orphan =>
    simp only [OwedLedger.call, OwedLedger.onBlockOrphaned, hno.1]
    rw [if_neg hno.2]

theorem Durable.short_of_knows (h : Durable sha bootId c r evs hw)
    (hk : (replayed sha evs).Knows bid) : bid.length ≤ 0xffff := by
  obtain ⟨e, he, hkind, rfl⟩ := exists_found_of_knows hk
  exact h.short e he hkind

theorem decodeEvent_of_short (hfits : e.Fits) (hshort : e.bid.length ≤ 0xffff) :
    decodeEvent (encodeEvent e) = some e := by
  rw [decodeEvent_encodeEvent hfits, take_of_length_le hshort]

theorem kept_eventCases (h : Kept sha bootId c (s.chain c) m evs hw) (hlt : evs.length + 1 < 2 ^ 64)
    (hkind : e.evkind ≠ .found) (hfits : e.Fits) {committed : Bool} {s' : SettleStore}
    {m' : ChainMem} (hcases : EventCases sha bootId c s m e committed s' m') :
    Kept sha bootId c (s'.chain c) m' (evs ++ if committed then [e] else [])
      (if committed then some m'.hw else hw) := by
  obtain ⟨hdur, hmem⟩ := h
  obtain ⟨rfl, rfl, rfl⟩ | ⟨rfl, rfl, hpoison⟩ |
    ⟨rfl, hp, hmove, hseq, rfl, hlive, hledger', hhw'⟩ := hcases
  · simp only [Bool.false_eq_true, if_false, append_nil]
    exact ⟨hdur, hmem⟩
  · simp only [Bool.false_eq_true, if_false, append_nil]
    refine ⟨hdur, fun hlive => ?_⟩
    rw [hpoison] at hlive
    cases hlive
  · obtain ⟨hledger, -⟩ := hmem hp
    rw [hledger] at hmove hseq hledger' hhw'
    have hshort := hdur.short_of_knows (knows_of_moves hkind hmove)
    have hnext := hdur.event m'.hw hlt (call_seq_of_ledgerSeq_ne hmove) hseq
      (decodeEvent_of_short hfits hshort) hshort (by rw [hhw']; rfl)
    simp only [if_true]
    refine ⟨?_, fun _ => ⟨by rw [hledger', replayed_append], rfl⟩⟩
    rw [SettleStore.chain_commitSync, if_pos rfl, hledger, ← hhw']
    exact hnext

theorem seq_call_found (h : ¬ l.Knows bid) (args : FoundArgs) :
    (l.call sha {} (.found bid args)).seq = l.seq + 1 := by
  unfold OwedLedger.Knows at h
  simp only [OwedLedger.call, OwedLedger.onBlockFound]
  rw [if_neg h]
  rfl

/-- A new block: the event and the heads, the block record, and no intent any more. -/
theorem Durable.found (h : Durable sha bootId c r evs hw) (hlt : evs.length + 1 < 2 ^ 64)
    (hfits : f.Fits) (hnew : ¬ (replayed sha evs).Knows f.bid)
    (hl : l = (replayed sha evs).call sha {}
      (.found f.bid { credit := f.credit, payout := f.payout }))
    (hhw : hw'.ledgerSeq = l.ledgerSeq) :
    Durable sha bootId c
      ((foundOps sha bootId c f hw' (replayed sha evs) l).foldl
        (fun r op => r.set op.2 op.1) r) (evs ++ [f.event l.ledgerSeq]) (some hw') := by
  have hmove : l.seq = (replayed sha evs).seq + 1 := by
    rw [hl]
    exact seq_call_found hnew _
  have hmoved : (replayed sha evs).ledgerSeq < l.ledgerSeq := by
    rw [Fin.lt_def, ledgerSeq_val (by rw [h.count]; omega),
      ledgerSeq_val (by rw [hmove, h.count]; exact hlt), hmove]
    omega
  have hdec : decodeEvent (encodeEvent (f.event l.ledgerSeq)) = some (f.event l.ledgerSeq) :=
    decodeEvent_of_short ⟨hfits.2.1, hfits.2.2, fitsRows_empty⟩ hfits.1
  have hcall : (replayed sha evs).call sha {} (f.event l.ledgerSeq).toCall = l := hl.symm
  have hevent := h.event (e := f.event l.ledgerSeq) hw' hlt (by rw [hcall, hmove])
    (by rw [hcall]; rfl)
    hdec hfits.1 (by rw [hcall, hhw])
  have hdone := (hevent.setBlk f.bid ⟨f.shareHash, f.height, f.reward, l.ledgerSeq, bootId,
    f.cut⟩).setIntent f.shareHash (v := none) fun x hx => by cases hx
  unfold foundOps
  rw [if_pos hmoved]
  rw [hcall] at hdone
  exact hdone

theorem kept_onBlockFoundTwophase (h : Kept sha bootId c (s.chain c) m evs hw)
    (hlt : evs.length + 1 < 2 ^ 64) (hfits : f.Fits) (okIntent carrierOk okFound : Bool) :
    ∃ evs', (evs'.map EventRec.toCall = evs.map EventRec.toCall ++
        if (JournalCall.found f okIntent carrierOk okFound).commits sha bootId c s m then
          (JournalCall.found f okIntent carrierOk okFound).events else []) ∧
      evs'.length ≤ evs.length + 1 ∧
      Kept sha bootId c
        ((onBlockFoundTwophase sha bootId c s m f okIntent carrierOk okFound).2.1.chain c)
        (onBlockFoundTwophase sha bootId c s m f okIntent carrierOk okFound).2.2 evs'
        (if (JournalCall.found f okIntent carrierOk okFound).commits sha bootId c s m then
          some (onBlockFoundTwophase sha bootId c s m f okIntent carrierOk okFound).2.2.hw
        else hw) := by
  obtain ⟨hdur, hmem⟩ := h
  have hintent : ∀ x, some (encodeIntent { f with ts := 0 }) = some x →
      ∃ i, decodeIntent x = some i := by
    intro x hx
    cases hx
    exact ⟨_, decodeIntent_encodeIntent _⟩
  unfold JournalCall.commits JournalCall.events
  obtain ⟨res, hres, heq⟩ | ⟨res, ok, m', hres, hm', heq⟩ | ⟨hp, hnew, heq⟩ :=
    @onBlockFoundTwophase_cases sha bootId c s m f okIntent carrierOk okFound
  · simp only [heq, hres, decide_false, Bool.false_eq_true, if_false, append_nil]
    exact ⟨evs, rfl, Nat.le_succ _, hdur, hmem⟩
  · simp only [heq, hres, decide_false, Bool.false_eq_true, if_false, append_nil]
    refine ⟨evs, rfl, Nat.le_succ _, ?_, ?_⟩
    · rw [SettleStore.chain_commitSync]
      split
      · exact hdur.setIntent f.shareHash hintent
      · exact hdur
    rcases hm' with rfl | hpoison
    · exact hmem
    intro hlive
    rw [hpoison] at hlive
    cases hlive
  · obtain ⟨hledger, -⟩ := hmem hp
    simp only [heq, decide_true, if_true]
    rw [hledger] at hnew ⊢
    have hdone := (hdur.setIntent f.shareHash hintent).found hlt hfits hnew rfl
      (show (stampSeq m.hw ((replayed sha evs).call sha {}
        (.found f.bid { credit := f.credit, payout := f.payout }))).ledgerSeq = _ from rfl)
    refine ⟨evs ++ [f.event ((replayed sha evs).call sha {}
      (.found f.bid { credit := f.credit, payout := f.payout })).ledgerSeq], ?_, ?_, ?_,
      fun _ => ⟨?_, rfl⟩⟩
    · rw [map_append]
      rfl
    · rw [length_append, length_singleton]
    · rw [SettleStore.chain_commitSync, if_pos rfl, SettleStore.chain_commitSync, if_pos rfl]
      exact hdone
    · rw [replayed_append]
      rfl

/-! ## Runs -/

namespace SettlementJournal

section Ghost

variable (sha : List Byte → Bytes32)

def commitsOn (j : SettlementJournal) (c : U32) (cc : U32 × JournalCall) : Bool :=
  cc.1 = c && cc.2.commits sha j.bootId cc.1 j.store (j.chains cc.1)

def committed (c : U32) : SettlementJournal → List (U32 × JournalCall) → List LedgerCall
  | _, [] => []
  | j, cc :: calls =>
    (if j.commitsOn sha c cc then cc.2.events else []) ++
      committed c (j.call sha cc) calls

def committedHw (c : U32) :
    SettlementJournal → Option SettleHW → List (U32 × JournalCall) → Option SettleHW
  | _, last, [] => last
  | j, last, cc :: calls =>
    committedHw c (j.call sha cc)
      (if j.commitsOn sha c cc then some ((j.call sha cc).chains c).hw else last) calls

end Ghost

theorem callChain_keeps {α : Type} {f : SettleStore → α}
    (hf : ∀ s ok ops, f (s.commitSync ok (onChain c ops)) = f s) (s : SettleStore) (m : ChainMem)
    (call : JournalCall) : f (callChain sha bootId c s m call).1 = f s := by
  cases call with
  | tip height t ok =>
    obtain heq | ⟨_, heq⟩ | ⟨_, _, _, _, _, heq⟩ := @onTipAdvanced_cases bootId c s m height t ok
    · simp only [callChain, heq]
    · simp only [callChain, heq]
    · simp only [callChain, heq, hf]
  | found f okIntent carrierOk okFound =>
    obtain ⟨_, _, heq⟩ | ⟨_, _, _, _, _, heq⟩ | ⟨_, _, heq⟩ :=
      @onBlockFoundTwophase_cases sha bootId c s m f okIntent carrierOk okFound
    · simp only [callChain, heq]
    · simp only [callChain, heq, hf]
    · simp only [callChain, heq, hf]
  | finalized bid binHeight ok =>
    simp only [callChain, onBlockFinalized]
    repeat' split
    all_goals simp only [hf]
  | orphaned bid settledPayout ok =>
    simp only [callChain, onBlockOrphaned]
    repeat' split
    all_goals simp only [hf]

theorem chain_callChain_of_ne (hne : c' ≠ c) (s : SettleStore) (m : ChainMem) (call : JournalCall) :
    (callChain sha bootId c s m call).1.chain c' = s.chain c' :=
  callChain_keeps (f := fun s => s.chain c')
    (fun s => SettleStore.chain_commitSync_of_ne s hne) s m call

theorem chain_run_of_not_mem (h : ∀ cc ∈ calls, cc.1 ≠ c) (j : SettlementJournal) :
    (Run.run (call sha) j calls).store.chain c = j.store.chain c := by
  induction calls generalizing j with
  | nil => rfl
  | cons cc calls ih =>
    exact (ih (fun x hx => h x (mem_cons_of_mem cc hx)) _).trans
      (chain_callChain_of_ne (Ne.symm (h cc mem_cons_self)) _ _ _)

theorem metaRec_callChain (s : SettleStore) (m : ChainMem)
    (call : JournalCall) : (callChain sha bootId c s m call).1.metaRec = s.metaRec :=
  callChain_keeps (fun s => SettleStore.metaRec_commitSync_onChain s c) s m call

theorem metaRec_run (j : SettlementJournal) (calls : List (U32 × JournalCall)) :
    (Run.run (call sha) j calls).store.metaRec = j.store.metaRec := by
  induction calls generalizing j with
  | nil => rfl
  | cons cc calls ih => exact (ih _).trans (metaRec_callChain j.store (j.chains cc.1) cc.2)

theorem kept_callChain (h : Kept sha bootId c (s.chain c) m evs hw)
    (hlt : evs.length + 1 < 2 ^ 64) {call : JournalCall} (hfits : call.Fits) :
    ∃ evs', (evs'.map EventRec.toCall = evs.map EventRec.toCall ++
        if call.commits sha bootId c s m then call.events else []) ∧
      evs'.length ≤ evs.length + 1 ∧
      Kept sha bootId c ((callChain sha bootId c s m call).1.chain c)
        (callChain sha bootId c s m call).2 evs'
        (if call.commits sha bootId c s m then
          some (callChain sha bootId c s m call).2.hw else hw) := by
  by_cases hp : m.poisoned = true
  · -- a poisoned chain answers every call at once
    refine ⟨evs, ?_, Nat.le_succ _, ?_⟩
    · cases call <;> simp [JournalCall.commits, onTipAdvanced, onBlockFoundTwophase,
        onBlockFinalized, onBlockOrphaned, hp]
    · cases call <;> simp [JournalCall.commits, callChain, onTipAdvanced, onBlockFoundTwophase,
        onBlockFinalized, onBlockOrphaned, hp, h]
  have hseq : m.ledger.seq + 1 < 2 ^ 64 := by
    rw [(h.2 (by simpa using hp)).1, h.1.count]
    exact hlt
  cases call with
  | tip height t ok =>
    exact ⟨evs, by simp [JournalCall.events], Nat.le_succ _, kept_onTipAdvanced h height t ok⟩
  | found f okIntent carrierOk okFound =>
    exact kept_onBlockFoundTwophase h hlt hfits okIntent carrierOk okFound
  | finalized bid binHeight ok =>
    have hkept := kept_eventCases h hlt (by simp [finalizeEvent])
      ⟨fitsRows_empty, fitsRows_empty, fitsRows_empty⟩
      (@onBlockFinalized_cases sha bootId c s m hseq bid binHeight ok)
    refine ⟨_, ?_, ?_, hkept⟩
    · rw [map_append]
      unfold JournalCall.commits JournalCall.events
      split <;> rfl
    · rw [length_append]
      split <;> simp
  | orphaned bid settledPayout ok =>
    have hkept := kept_eventCases (e := orphanEvent _ bid settledPayout) h hlt
      (by simp [orphanEvent]) ⟨fitsRows_empty, fitsRows_empty, hfits⟩
      (@onBlockOrphaned_cases sha bootId c s m hseq bid settledPayout ok)
    refine ⟨_, ?_, ?_, hkept⟩
    · rw [map_append]
      unfold JournalCall.commits JournalCall.events
      split <;> rfl
    · rw [length_append]
      split <;> simp

theorem kept_run {j : SettlementJournal}
    (h : Kept sha j.bootId c (j.store.chain c) (j.chains c) evs hw)
    (hlt : evs.length + calls.length < 2 ^ 64) (hfits : ∀ cc ∈ calls, cc.2.Fits) :
    ∃ evs', (evs'.map EventRec.toCall = evs.map EventRec.toCall ++ committed sha c j calls) ∧
      evs'.length ≤ evs.length + calls.length ∧
      Kept sha j.bootId c ((Run.run (call sha) j calls).store.chain c)
        ((Run.run (call sha) j calls).chains c) evs' (committedHw sha c j hw calls) := by
  induction calls generalizing j evs hw with
  | nil => exact ⟨evs, by simp [committed], Nat.le_refl _, h⟩
  | cons cc calls ih =>
    rw [length_cons] at hlt ⊢
    have hrest : ∀ cc ∈ calls, cc.2.Fits := fun x hx => hfits x (mem_cons_of_mem cc hx)
    by_cases hc : cc.1 = c
    · subst hc
      obtain ⟨evs1, hmap1, hlen1, hkept1⟩ := kept_callChain h (by omega) (hfits cc mem_cons_self)
      have hmem : (j.call sha cc).chains cc.1 =
          (callChain sha j.bootId cc.1 j.store (j.chains cc.1) cc.2).2 :=
        Function.update_self _ _ _
      have hon : j.commitsOn sha cc.1 cc =
          cc.2.commits sha j.bootId cc.1 j.store (j.chains cc.1) := by
        simp [commitsOn]
      rw [← hmem] at hkept1
      obtain ⟨evs2, hmap2, hlen2, hkept2⟩ := ih (j := j.call sha cc) hkept1 (by omega) hrest
      refine ⟨evs2, ?_, by omega, ?_⟩
      · rw [hmap2, hmap1, committed, hon, append_assoc]
      · rw [committedHw, hon]
        exact hkept2
    have hmem : (j.call sha cc).chains c = j.chains c := Function.update_of_ne (Ne.symm hc) _ _
    have hstore : (j.call sha cc).store.chain c = j.store.chain c :=
      chain_callChain_of_ne (Ne.symm hc) _ _ _
    have hoff : j.commitsOn sha c cc = false := by
      simp [commitsOn, hc]
    have hsame : Kept sha (j.call sha cc).bootId c ((j.call sha cc).store.chain c)
        ((j.call sha cc).chains c) evs hw := by
      rw [hmem, hstore]
      exact h
    obtain ⟨evs2, hmap2, hlen2, hkept2⟩ := ih hsame (by omega) hrest
    refine ⟨evs2, ?_, by omega, ?_⟩
    · rw [hmap2, committed, hoff]
      rfl
    · rw [committedHw, hoff]
      exact hkept2

theorem durable_after {bootId : U64} {calls : List (U32 × JournalCall)}
    (hlt : calls.length < 2 ^ 64) (hfits : ∀ cc ∈ calls, cc.2.Fits) (c : U32) :
    ∃ evs, evs.map EventRec.toCall = committed sha c { bootId := bootId } calls ∧
      evs.length < 2 ^ 64 ∧
      Durable sha bootId c ((after sha bootId calls).store.chain c) evs
        (committedHw sha c { bootId := bootId } none calls) := by
  have hstart : Kept sha bootId c
      (({ bootId := bootId } : SettlementJournal).store.chain c) {} [] none :=
    ⟨durable_empty bootId c, fun _ => ⟨rfl, rfl⟩⟩
  obtain ⟨evs, hmap, hlen, hkept⟩ := kept_run (j := { bootId := bootId }) hstart
    (by simpa using hlt) hfits
  refine ⟨evs, by simpa using hmap, ?_, hkept.1⟩
  rw [length_nil] at hlen
  omega

end SettlementJournal

end C2Pool.V37
