import C2Pool.V37.RecoveryRun
import C2Pool.V37.Sha256

/-! # A started chain and its records

A chain that loads has a log that replays to its ledger and heads that carry its sequence number and
digest. A round that logs an event keeps this when the ledger takes the event and the batch is
committed.
-/

namespace C2Pool.V37

open List

variable {sha : List Byte → Bytes32} {hooks : RecoveryHooks} {oks : Nat → Bool} {r : ChainRecords}
  {l : OwedLedger} {fp : SortedMap Bid Amounts} {cr : ChainRecovery} {rs : List Round} {k : Nat}
  {m : MetaRec}
variable {bootId : U64} {c : U32} {evs : List EventRec} {s : Disk × ChainRecovery}

/-- The stored events replay to the ledger, and the stored heads are those of the ledger. -/
structure AgreesWithDisk (sha : List Byte → Bytes32) (c : U32) (r : ChainRecords)
    (l : OwedLedger) : Prop where
  replay : ∃ n fp, replayEvents sha c r.levt.entries 0 ({}, ∅) = .ok (n, l, fp)
  hw : ∃ v h, r.hw = some v ∧ decodeHw v = some h ∧ h.hw.ledgerSeq = l.ledgerSeq
  lhead : ∃ v h, r.lhead = some v ∧ decodeLhead v = some h ∧ h.ledgerSeq = l.ledgerSeq ∧
    h.owedDigest = l.digestDefault sha

/-! ## Loading -/

theorem checkReplay_eq_map (tip : TipRec) (tipDigest : Option Bytes32) (cr cr' : ChainRecovery)
    (reached : Option (Bytes32 × U64)) :
    checkReplay c tip tipDigest cr reached =
      (checkReplay c tip tipDigest cr' reached).map fun _ => cr := by
  cases reached with
  | none => rfl
  | some x =>
    simp only [checkReplay]
    split
    · rfl
    · split <;> rfl

theorem rebuildFamilyD_eq_map (r : ChainRecords) (cr : ChainRecovery) :
    rebuildFamilyD hooks c r cr =
      (rebuildFamilyD hooks c r {}).map fun _ => { cr with newIncarnation := 1 } := by
  unfold rebuildFamilyD
  cases r.genesis with
  | none => rfl
  | some gv =>
    cases r.tip with
    | none => rfl
    | some tv =>
      dsimp only
      cases decodeGenesis gv with
      | none => rfl
      | some genesis =>
        cases decodeTip tv with
        | none => rfl
        | some tip =>
          cases decodeAll decodeCarrier r.carrier with
          | error x => rfl
          | ok carriers =>
            dsimp only [bind, Except.bind]
            cases hooks.replayLane with
            | none => rfl
            | some replayLane => exact checkReplay_eq_map _ _ _ _ _

/-- The records of a chain that loads with this ledger, whose found blocks have these payouts. -/
structure Loadable (sha : List Byte → Bytes32) (hooks : RecoveryHooks) (c : U32)
    (r : ChainRecords) (l : OwedLedger) (fp : SortedMap Bid Amounts) : Prop where
  replay : ∃ n, replayEvents sha c r.levt.entries 0 ({}, ∅) = .ok (n, l, fp)
  hw : ∃ v h, r.hw = some v ∧ decodeHw v = some h ∧ h.hw.ledgerSeq = l.ledgerSeq
  lhead : ∃ v h, r.lhead = some v ∧ decodeLhead v = some h ∧ h.ledgerSeq = l.ledgerSeq ∧
    h.owedDigest = l.digestDefault sha
  lmmr : ∃ x, loadLmmrCheck sha c r l = .ok x
  lane : ∃ cr, rebuildFamilyD hooks c r {} = .ok cr

theorem Loadable.agrees (h : Loadable sha hooks c r l fp) : AgreesWithDisk sha c r l where
  replay := by
    obtain ⟨n, hn⟩ := h.replay
    exact ⟨n, fp, hn⟩
  hw := h.hw
  lhead := h.lhead

theorem loadFamilyB_eq_ok {cr' : ChainRecovery} (h : loadFamilyB sha c r cr = .ok cr') :
    (∃ n, replayEvents sha c r.levt.entries 0 ({}, ∅) = .ok (n, cr'.ledger, cr'.foundPayout)) ∧
    cr'.ledger.ledgerSeq = cr.hw.ledgerSeq ∧
    (∃ v, r.lhead = some v ∧ decodeLhead v = some cr'.lhead) ∧
    cr'.lhead.ledgerSeq = cr'.ledger.ledgerSeq ∧
    cr'.lhead.owedDigest = cr'.ledger.digestDefault sha ∧
    ∃ x, loadLmmrCheck sha c r cr'.ledger = .ok x := by
  unfold loadFamilyB at h
  split at h
  · cases h
  rename_i v hv
  split at h
  · cases h
  rename_i lhead hlhead
  cases hr : replayEvents sha c r.levt.entries 0 ({}, ∅) with
  | error e =>
    rw [hr] at h
    cases h
  | ok s =>
    obtain ⟨n, l, fp⟩ := s
    rw [hr] at h
    change (if _ then _ else _) = _ at h
    split at h
    · cases h
    rename_i hseq
    split at h
    · cases h
    rename_i hdigest
    cases hm : loadLmmrCheck sha c r l with
    | error e =>
      rw [hm] at h
      cases h
    | ok x =>
      rw [hm] at h
      cases h
      rw [not_not] at hseq hdigest
      exact ⟨⟨n, rfl⟩, hseq.1, ⟨v, hv, hlhead⟩, hseq.2.symm, hdigest.symm, x, hm⟩

theorem loadFamilyB_of_loadable (h : Loadable sha hooks c r l fp)
    (hseq : cr.hw.ledgerSeq = l.ledgerSeq) :
    ∃ cr', loadFamilyB sha c r cr = .ok cr' ∧ cr'.ledger = l ∧ cr'.foundPayout = fp := by
  obtain ⟨n, hreplay⟩ := h.replay
  obtain ⟨v, lhead, hv, hlhead, hlseq, hdigest⟩ := h.lhead
  obtain ⟨x, hx⟩ := h.lmmr
  refine ⟨{ cr with
    lhead := lhead, ledger := l, levtApplied := n, lmmr := x, foundPayout := fp }, ?_, rfl, rfl⟩
  unfold loadFamilyB
  rw [hv]
  dsimp only
  rw [hlhead, hreplay]
  show (if _ then _ else _) = _
  rw [if_neg (not_not.mpr ⟨hseq.symm, hlseq.symm⟩), if_neg (not_not.mpr hdigest.symm), hx]
  rfl

theorem loadFamilyA_eq_ok {hw : SettleHW} :
    loadFamilyA c r = .ok hw ↔ ∃ v h, r.hw = some v ∧ decodeHw v = some h ∧ h.hw = hw := by
  unfold loadFamilyA
  cases r.hw with
  | none => simp
  | some v => cases h : decodeHw v <;> simp [h]

theorem loadable_of_loadChain (h : loadChain sha hooks c r = .ok cr) :
    Loadable sha hooks c r cr.ledger cr.foundPayout ∧ cr.lhead.ledgerSeq = cr.ledger.ledgerSeq := by
  cases hA : loadFamilyA c r with
  | error e =>
    unfold loadChain at h
    rw [hA] at h
    cases h
  | ok hw =>
    obtain ⟨v, x, hv, hx, rfl⟩ := loadFamilyA_eq_ok.mp hA
    obtain ⟨cr0, hseq0, heq⟩ := @loadChain_eq sha hooks c r _ hA
    rw [heq] at h
    obtain ⟨cr1, hB, hD⟩ := PartialRun.bind_eq_ok.mp h
    rw [rebuildFamilyD_eq_map] at hD
    obtain ⟨cr2, hlane, rfl⟩ := PartialRun.map_eq_ok.mp hD
    obtain ⟨hreplay, hseq, ⟨lv, hlv, hlhead⟩, hlseq, hdigest, hlmmr⟩ := loadFamilyB_eq_ok hB
    refine ⟨⟨hreplay, ⟨v, x, hv, hx, ?_⟩, ⟨lv, _, hlv, hlhead, hlseq, hdigest⟩, hlmmr, cr2, hlane⟩,
      hlseq⟩
    rw [hseq, hseq0]

theorem loadChain_of_loadable (h : Loadable sha hooks c r l fp) :
    ∃ cr, loadChain sha hooks c r = .ok cr ∧ cr.ledger = l ∧ cr.foundPayout = fp := by
  obtain ⟨v, x, hv, hx, hseq⟩ := h.hw
  obtain ⟨cr0, hseq0, heq⟩ := @loadChain_eq sha hooks c r x.hw
    (loadFamilyA_eq_ok.mpr ⟨v, x, hv, hx, rfl⟩)
  obtain ⟨cr1, hB, hl, hfp⟩ := loadFamilyB_of_loadable h (hseq0.trans hseq)
  obtain ⟨cr2, hlane⟩ := h.lane
  refine ⟨{ cr1 with newIncarnation := 1 }, ?_, hl, hfp⟩
  rw [heq, hB]
  show rebuildFamilyD hooks c r cr1 = _
  rw [rebuildFamilyD_eq_map, hlane]
  rfl

/-! ## Rounds on a log in order -/

def InOrder (sha : List Byte → Bytes32) (r : ChainRecords) (evs : List EventRec) : Prop :=
  Logs r.levt evs ∧ (replayed sha evs).seq = evs.length

/-- A chain whose log is in order and leads to its ledger, with the heads of that ledger. -/
structure InSync (sha : List Byte → Bytes32) (hooks : RecoveryHooks) (c : U32)
    (r : ChainRecords) (cr : ChainRecovery) (evs : List EventRec) : Prop where
  order : InOrder sha r evs
  ledger : cr.ledger = replayed sha evs
  short : ∀ e ∈ evs, e.bid.length ≤ 0xffff
  payouts : ∀ bid m, cr.foundPayout.lookup bid = some m → FitsRows m
  hw : ∃ v h, r.hw = some v ∧ decodeHw v = some h ∧ h.hw.ledgerSeq = cr.ledger.ledgerSeq
  lhead : ∃ v h, r.lhead = some v ∧ decodeLhead v = some h ∧
    h.ledgerSeq = cr.ledger.ledgerSeq ∧ h.owedDigest = cr.ledger.digestDefault sha
  lmmr : ∃ x, loadLmmrCheck sha c r cr.ledger = .ok x
  lane : ∃ x, rebuildFamilyD hooks c r {} = .ok x
  synced : cr.lhead.ledgerSeq = cr.ledger.ledgerSeq

theorem InSync.loadable (h : InSync sha hooks c r cr evs) :
    Loadable sha hooks c r cr.ledger (foundPayouts evs) where
  replay := by
    rw [h.ledger]
    exact ⟨evs.length, h.order.1.replayEvents_eq c⟩
  hw := h.hw
  lhead := h.lhead
  lmmr := h.lmmr
  lane := h.lane

theorem Logs.decodes {levt : SortedMap U64 (List Byte)} (h : Logs levt evs)
    {e : EventRec} (he : e ∈ evs) : ∃ v, decodeEvent v = some e := by
  have hmem : (e.seq, some e) ∈ levt.entries.map fun e => (e.1, decodeEvent e.2) := by
    rw [h.decoded]
    exact mem_map_of_mem (f := fun e : EventRec => (e.seq, some e)) he
  obtain ⟨x, -, hx⟩ := mem_map.mp hmem
  exact ⟨x.2, congrArg Prod.snd hx⟩

theorem fits_foundPayouts (h : ∀ e ∈ evs, FitsRows e.payout) {bid : Bid}
    {m : Amounts} (hm : (foundPayouts evs).lookup bid = some m) : FitsRows m := by
  unfold foundPayouts at hm
  induction evs using List.reverseRecOn with
  | nil => cases hm
  | append_singleton evs e ih =>
    rw [foldl_append, foldl_cons, foldl_nil] at hm
    have hrest : ∀ x ∈ evs, FitsRows x.payout := fun x hx => h x (mem_append_left [e] hx)
    split at hm
    · rw [SortedMap.lookup_insert] at hm
      split at hm
      · cases hm
        exact h e (mem_append_right evs mem_cons_self)
      · exact ih hrest hm
    · exact ih hrest hm

theorem inSync_of_loadChain (h : loadChain sha hooks c r = .ok cr)
    (horder : InOrder sha r evs) : InSync sha hooks c r cr evs := by
  obtain ⟨hload, hsynced⟩ := loadable_of_loadChain h
  obtain ⟨n, hreplay⟩ := hload.replay
  rw [horder.1.replayEvents_eq c] at hreplay
  have heq := Except.ok.inj hreplay
  have hledger : cr.ledger = replayed sha evs := (congrArg (fun x => x.2.1) heq).symm
  have hfp : cr.foundPayout = foundPayouts evs := (congrArg (fun x => x.2.2) heq).symm
  have hfits : ∀ e ∈ evs, e.Fits ∧ e.bid.length ≤ 0xffff := by
    intro e he
    obtain ⟨v, hv⟩ := horder.1.decodes he
    exact fits_of_decodeEvent hv
  exact {
    order := horder
    ledger := hledger
    short := fun e he => (hfits e he).2
    payouts := fun bid m hm => by
      rw [hfp] at hm
      exact fits_foundPayouts (fun e he => (hfits e he).1.2.1) hm
    hw := hload.hw
    lhead := hload.lhead
    lmmr := hload.lmmr
    lane := hload.lane
    synced := hsynced }

def Fresh (sha : List Byte → Bytes32) (hooks : RecoveryHooks) (bootId : U64) (c : U32)
    (cr : ChainRecovery) (x : Round) : Prop :=
  ∀ e more, Logged sha hooks bootId c cr x e more → e.evkind = .found →
    ¬ cr.ledger.Knows e.bid ∧ e.bid.length ≤ 0xffff ∧ FitsRows e.credit ∧ FitsRows e.payout

section Round

variable {s : Disk × ChainRecovery} {x : Round} {e : EventRec}
variable {more : List (RecKey × Option (List Byte))} {evs : List EventRec}

section

variable (h : Logged sha hooks bootId c s.2 x e more)
include h

theorem Logged.seq_eq : e.seq = (s.2.ledger.call sha {} e.toCall).ledgerSeq := by
  cases h <;> rfl

theorem Logged.moves (hfresh : Fresh sha hooks bootId c s.2 x) :
    (s.2.ledger.call sha {} e.toCall).seq = s.2.ledger.seq + 1 := by
  have hnew := hfresh e more h
  cases h with
  | orphan hlost => exact seq_call_orphaned hlost.2.1 _
  | rederived _ _ => exact seq_call_found (hnew rfl).1 _

theorem Logged.records (hsync : s.2.lhead.ledgerSeq = s.2.ledger.ledgerSeq)
    (hlt : s.2.ledger.seq + 1 < 2 ^ 64) (hok : oks s.1.count = true) :
    ∃ r cr, reconcile sha hooks oks bootId c s x = (r, cr) ∧
      cr.ledger = s.2.ledger.call sha {} e.toCall ∧ cr.foundPayout = s.2.foundPayout ∧
      cr.lhead.ledgerSeq = cr.ledger.ledgerSeq ∧
      cr.lhead.owedDigest = cr.ledger.digestDefault sha ∧
      (r.store.chain c).levt = (s.1.store.chain c).levt.insert e.seq (encodeEvent e) ∧
      (r.store.chain c).hw = some (encodeHw ⟨c, bootId, stampSeq s.2.hw cr.ledger⟩) ∧
      (r.store.chain c).lhead = some (encodeLhead cr.lhead) ∧
      (r.store.chain c).lmmr = some (encodeLmmr (lmmrOf sha cr.ledger bootId)) ∧
      (r.store.chain c).genesis = (s.1.store.chain c).genesis ∧
      (r.store.chain c).tip = (s.1.store.chain c).tip ∧
      (r.store.chain c).carrier = (s.1.store.chain c).carrier := by
  refine ⟨_, _, reconcile_of_logged h hsync hlt, rfl, rfl, rfl, rfl, ?_⟩
  rw [Disk.chain_commitSync, if_pos hok]
  cases h <;> exact ⟨rfl, rfl, rfl, rfl, rfl, rfl, rfl⟩

end

theorem rebuildFamilyD_congr {r r' : ChainRecords} (hg : r'.genesis = r.genesis)
    (ht : r'.tip = r.tip) (hc : r'.carrier = r.carrier) (cr : ChainRecovery) :
    rebuildFamilyD hooks c r' cr = rebuildFamilyD hooks c r cr := by
  unfold rebuildFamilyD
  rw [hg, ht, hc]

section

variable (h : InSync sha hooks c (s.1.store.chain c) s.2 evs)
  (hl : Logged sha hooks bootId c s.2 x e more) (hfresh : Fresh sha hooks bootId c s.2 x)
include h hl hfresh

theorem InSync.decodeEvent_logged :
    decodeEvent (encodeEvent e) = some e ∧ e.bid.length ≤ 0xffff := by
  have hnew := hfresh e more hl
  cases hl with
  | orphan hlost =>
    rename_i b
    have hshort : b.1.length ≤ 0xffff := by
      have hk := hlost.2.1
      rw [h.ledger] at hk
      obtain ⟨e, he, -, hbid⟩ := exists_found_of_knows hk
      rw [← hbid]
      exact h.short e he
    have hpayout : FitsRows (orphanPayout s.2 b.1) := by
      unfold orphanPayout
      split
      · exact fitsRows_empty
      cases hlookup : s.2.foundPayout.lookup b.1 with
      | none => exact fitsRows_empty
      | some m => exact h.payouts b.1 m hlookup
    exact ⟨decodeEvent_of_short ⟨fitsRows_empty, fitsRows_empty, hpayout⟩ hshort, hshort⟩
  | rederived _ _ =>
    obtain ⟨-, hshort, hcredit, hpayout⟩ := hnew rfl
    exact ⟨decodeEvent_of_short ⟨hcredit, hpayout, fitsRows_empty⟩ hshort, hshort⟩

theorem InSync.append (hlt : evs.length + 1 < 2 ^ 64) (hok : oks s.1.count = true) :
    InSync sha hooks c ((reconcile sha hooks oks bootId c s x).1.store.chain c)
      (reconcile sha hooks oks bootId c s x).2 (evs ++ [e]) := by
  have hseq : s.2.ledger.seq = evs.length := by
    rw [h.ledger, h.order.2]
  obtain ⟨d, cr, heq, hledger, hfp, hsynced, hdigest, hlevt, hhw, hlhead, hlmmr, hgenesis, htip,
    hcarrier⟩ := @Logged.records sha hooks oks bootId c s x e more hl h.synced (by omega) hok
  obtain ⟨hdec, hshort⟩ := h.decodeEvent_logged hl hfresh
  have hmoves := hl.moves hfresh
  have hnew : cr.ledger = replayed sha (evs ++ [e]) := by
    rw [replayed_append, hledger, h.ledger]
  have hcount : (replayed sha (evs ++ [e])).seq = (evs ++ [e]).length := by
    rw [← hnew, hledger, hmoves, hseq, length_append, length_singleton]
  have hnum : e.seq.val = evs.length + 1 := by
    rw [hl.seq_eq, ledgerSeq_val (by omega), hmoves, hseq]
  rw [heq]
  constructor
  · exact ⟨by rw [hlevt]; exact h.order.1.insert hnum hdec, hcount⟩
  · exact hnew
  · intro y hy
    rcases mem_append.mp hy with hy | hy
    · exact h.short y hy
    · rw [mem_singleton.mp hy]
      exact hshort
  · rw [hfp]
    exact h.payouts
  · exact ⟨_, _, hhw, decodeHw_encodeHw _, rfl⟩
  · exact ⟨_, _, hlhead, decodeLhead_encodeLhead _, hsynced, hdigest⟩
  · refine ⟨_, loadLmmrCheck_lmmrOf hlmmr ?_ ?_⟩
    · rw [hnew]
      exact counted_replayed _
    · rw [hledger, hmoves, hseq]
      exact hlt
  · obtain ⟨y, hy⟩ := h.lane
    exact ⟨y, (rebuildFamilyD_congr hgenesis htip hcarrier {}).trans hy⟩
  · exact hsynced

end

theorem InSync.quiet (h : InSync sha hooks c (s.1.store.chain c) s.2 evs)
    (hq : ¬ Appends sha hooks bootId c s.2 x) :
    InSync sha hooks c ((reconcile sha hooks oks bootId c s x).1.store.chain c)
      (reconcile sha hooks oks bootId c s x).2 evs := by
  obtain heq | ⟨i, -, heq⟩ := @reconcile_of_quiet sha hooks oks bootId c s x hq
  · rw [heq]
    exact h
  rw [heq]
  rw [chain_dropIntent]
  split
  · exact { h with }
  · exact h

end Round

def CommitsEvent (sha : List Byte → Bytes32) (hooks : RecoveryHooks) (oks : Nat → Bool)
    (bootId : U64) (c : U32) (s : Disk × ChainRecovery) (x : Round) : Prop :=
  Appends sha hooks bootId c s.2 x → oks s.1.count = true

theorem inSync_run
    (h : InSync sha hooks c (s.1.store.chain c) s.2 evs) (hlt : evs.length + rs.length < 2 ^ 64)
    (hfresh : Run.Admissible (reconcile sha hooks oks bootId c)
      (fun s x => Fresh sha hooks bootId c s.2 x) s rs)
    (hcommits : Run.Admissible (reconcile sha hooks oks bootId c)
      (CommitsEvent sha hooks oks bootId c) s rs) :
    ∃ evs', InSync sha hooks c
      ((Run.run (reconcile sha hooks oks bootId c) s rs).1.store.chain c)
      (Run.run (reconcile sha hooks oks bootId c) s rs).2 evs' := by
  induction rs generalizing s evs with
  | nil => exact ⟨evs, h⟩
  | cons x rs ih =>
    rw [length_cons] at hlt
    by_cases happ : Appends sha hooks bootId c s.2 x
    · obtain ⟨e, more, hl⟩ := happ
      have hnext := h.append hl hfresh.1 (by omega) (hcommits.1 ⟨e, more, hl⟩)
      apply ih hnext _ hfresh.2 hcommits.2
      rw [length_append, length_singleton]
      omega
    · exact ih (h.quiet happ) (by omega) hfresh.2 hcommits.2

theorem fresh_of_noRederive (hintent : ∀ i, hooks.tryRederiveIntent i = none) (cr : ChainRecovery)
    (x : Round) : Fresh sha hooks bootId c cr x := by
  intro e more hl hkind
  cases hl with
  | orphan hlost => cases hkind
  | rederived hnew hrd =>
    rw [hintent] at hrd
    cases hrd

theorem commits_of_quiet (h : ∀ x ∈ rs, ¬ Appends sha hooks bootId c s.2 x) :
    Run.Admissible (reconcile sha hooks oks bootId c)
      (CommitsEvent sha hooks oks bootId c) s rs := by
  induction rs generalizing s with
  | nil => trivial
  | cons x rs ih =>
    have hx := h x mem_cons_self
    refine ⟨fun happ => (hx happ).elim, ih ?_⟩
    have hcr : (reconcile sha hooks oks bootId c s x).2 = s.2 := by
      obtain heq | ⟨i, -, heq⟩ := @reconcile_of_quiet sha hooks oks bootId c s x hx
      · rw [heq]
      · rw [heq]
    rw [hcr]
    exact fun y hy => h y (mem_cons_of_mem x hy)

/-- The log is `k` events short of the ledger. -/
def Short (c : U32) (k : Nat) (s : Disk × ChainRecovery) : Prop :=
  s.2.lhead.ledgerSeq = s.2.ledger.ledgerSeq ∧
    (s.1.store.chain c).levt.entries.length + k ≤ s.2.ledger.seq

theorem Short.reconcile {k : Nat} {s : Disk × ChainRecovery} {x : Round} (h : Short c k s)
    (hlt : s.2.ledger.seq + 1 < 2 ^ 64) (hfresh : Fresh sha hooks bootId c s.2 x) :
    Short c k (reconcile sha hooks oks bootId c s x) ∧
      (¬ CommitsEvent sha hooks oks bootId c s x →
        Short c (k + 1) (reconcile sha hooks oks bootId c s x)) ∧
      (reconcile sha hooks oks bootId c s x).2.ledger.seq ≤ s.2.ledger.seq + 1 := by
  by_cases happ : Appends sha hooks bootId c s.2 x
  · obtain ⟨e, more, hl⟩ := happ
    have hmoves := hl.moves hfresh
    have hlen := SortedMap.length_insert_le (s.1.store.chain c).levt e.seq (encodeEvent e)
    cases hok : oks s.1.count with
    | true =>
      obtain ⟨d, cr, heq, hledger, -, hsynced, -, hlevt, -⟩ :=
        @Logged.records sha hooks oks bootId c s x e more hl h.1 hlt hok
      rw [heq]
      refine ⟨⟨hsynced, ?_⟩, fun hno => (hno fun _ => hok).elim, ?_⟩
      · rw [hlevt, hledger, hmoves]
        have := h.2
        omega
      · rw [hledger, hmoves]
    | false =>
      have heq := @reconcile_of_logged sha hooks oks bootId c s x e more hl h.1 hlt
      have hstore : (V37.reconcile sha hooks oks bootId c s x).1.store.chain c =
          s.1.store.chain c := by
        rw [heq]
        simp only [logEvent]
        rw [Disk.chain_commitSync, if_neg (by rw [hok]; simp)]
      have hledger : (V37.reconcile sha hooks oks bootId c s x).2.ledger =
          s.2.ledger.call sha {} e.toCall := by
        rw [heq]
        rfl
      have hsynced : (V37.reconcile sha hooks oks bootId c s x).2.lhead.ledgerSeq =
          (V37.reconcile sha hooks oks bootId c s x).2.ledger.ledgerSeq := by
        rw [heq]
        rfl
      have hshort := h.2
      refine ⟨⟨hsynced, ?_⟩, fun _ => ⟨hsynced, ?_⟩, ?_⟩
      · rw [hstore, hledger, hmoves]
        omega
      · rw [hstore, hledger, hmoves]
        omega
      · rw [hledger, hmoves]
  · have hcommits : CommitsEvent sha hooks oks bootId c s x := fun hyes => (happ hyes).elim
    refine ⟨?_, fun hno => (hno hcommits).elim, ?_⟩
    · obtain heq | ⟨i, -, heq⟩ := @reconcile_of_quiet sha hooks oks bootId c s x happ
      · rw [heq]
        exact h
      rw [heq]
      refine ⟨h.1, ?_⟩
      dsimp only
      rw [chain_dropIntent]
      split <;> exact h.2
    obtain heq | ⟨i, -, heq⟩ := @reconcile_of_quiet sha hooks oks bootId c s x happ
    · rw [heq]
      exact Nat.le_succ _
    · rw [heq]
      exact Nat.le_succ _

theorem short_run (h : Short c k s) (hlt : s.2.ledger.seq + rs.length < 2 ^ 64)
    (hfresh : Run.Admissible (reconcile sha hooks oks bootId c)
      (fun s x => Fresh sha hooks bootId c s.2 x) s rs) :
    Short c k (Run.run (reconcile sha hooks oks bootId c) s rs) ∧
      (¬ Run.Admissible (reconcile sha hooks oks bootId c)
          (CommitsEvent sha hooks oks bootId c) s rs →
        Short c (k + 1) (Run.run (reconcile sha hooks oks bootId c) s rs)) := by
  induction rs generalizing s k with
  | nil => exact ⟨h, fun hno => (hno True.intro).elim⟩
  | cons x rs ih =>
    rw [length_cons] at hlt
    obtain ⟨hkeep, hlose, hseq⟩ :=
      @Short.reconcile sha hooks oks bootId c k s x h (by omega) hfresh.1
    obtain ⟨hrun, hrest⟩ := ih hkeep (by omega) hfresh.2
    refine ⟨hrun, fun hno => ?_⟩
    by_cases hcommits : CommitsEvent sha hooks oks bootId c s x
    · exact hrest fun hadm => hno ⟨hcommits, hadm⟩
    · exact (ih (hlose hcommits) (by omega) hfresh.2).1

theorem seq_replayEvents_le {entries : List (U64 × List Byte)} {n n' : Nat}
    {s s' : OwedLedger × SortedMap Bid Amounts}
    (h : replayEvents sha c entries n s = .ok (n', s')) :
    s'.1.seq ≤ s.1.seq + entries.length := by
  induction entries generalizing n s with
  | nil =>
    cases h
    exact Nat.le_refl _
  | cons e entries ih =>
    unfold replayEvents at h
    split at h
    · cases h
    rename_i e hdec
    split at h
    · cases h
    have hle := ih h
    dsimp only at hle
    rw [length_cons]
    rcases @OwedLedger.call_eq_or_seq sha {} s.1 e.toCall with heq | heq
    · rw [heq] at hle
      omega
    · rw [heq] at hle
      omega

theorem Short.not_agrees (h : Short c (k + 1) s) :
    ¬ AgreesWithDisk sha c (s.1.store.chain c) s.2.ledger := by
  intro hagrees
  obtain ⟨n, fp, hreplay⟩ := hagrees.replay
  have hle := seq_replayEvents_le hreplay
  have hshort := h.2
  dsimp only at hle
  omega

/-! ## Started chains -/

/-- How `recover` started a chain: the disk it came to, the chain as it was loaded, and the rounds
that it ran. -/
structure Started (sha : List Byte → Bytes32) (hooks : RecoveryHooks) (oks : Nat → Bool)
    (s : SettleStore) (c : U32) (m : MetaRec) (start : Disk × ChainRecovery) (rs : List Round)
    (cr : ChainRecovery) : Prop where
  outcome : (recover sha hooks oks s).1.outcome c = some (.ok cr)
  opened : (recover sha hooks oks s).1.metaRec = some m
  records : start.1.store.chain c = s.chain c
  loaded : loadChain sha hooks c (s.chain c) = .ok start.2
  rounds : Rounds (s.chain c) rs
  recovered : (Run.run (reconcile sha hooks oks m.bootId c) start rs).2 = cr
  left : (recover sha hooks oks s).2.chain c =
    (Run.run (reconcile sha hooks oks m.bootId c) start rs).1.store.chain c

theorem exists_started {s : SettleStore}
    (h : (recover sha hooks oks s).1.outcome c = some (.ok cr)) :
    ∃ m start rs, Started sha hooks oks s c m start rs cr := by
  generalize hopen : openMeta oks ⟨s, 0⟩ = opened
  obtain ⟨d, m | m⟩ := opened
  · unfold recover at h
    rw [hopen] at h
    cases h
  have hc : s.chain c ≠ {} := chain_ne_of_outcome hopen h
  obtain ⟨hchain, houtcome, hleft⟩ := @recover_of_openMeta sha hooks oks c s d m hopen hc
  rw [houtcome, Option.some.injEq] at h
  obtain ⟨cr0, rs, hload, hrounds, hrun⟩ := recoverChain_eq_ok.mp (Prod.ext rfl h)
  have hrecords : (diskAt sha hooks oks m.bootId c d).store.chain c = s.chain c :=
    (chain_diskAt d).trans hchain
  rw [hrecords] at hload hrounds
  refine ⟨m, (diskAt sha hooks oks m.bootId c d, cr0), rs, ?_, ?_, hrecords, hload, hrounds,
    congrArg Prod.snd hrun, ?_⟩
  · rw [houtcome, h]
  · unfold recover
    rw [hopen]
  · rw [hleft, hrun]

theorem started_of_loaded {s : SettleStore} {d : Disk} (hopen : openMeta oks ⟨s, 0⟩ = (d, some m))
    (hc : s.chain c ≠ {}) {cr0 : ChainRecovery}
    (hload : loadChain sha hooks c (s.chain c) = .ok cr0) (hrounds : Rounds (s.chain c) rs) :
    ∃ start cr, start.2 = cr0 ∧ Started sha hooks oks s c m start rs cr := by
  obtain ⟨hchain, houtcome, hleft⟩ := @recover_of_openMeta sha hooks oks c s d m hopen hc
  have hrecords : (diskAt sha hooks oks m.bootId c d).store.chain c = s.chain c :=
    (chain_diskAt d).trans hchain
  generalize hrun : Run.run (reconcile sha hooks oks m.bootId c)
    (diskAt sha hooks oks m.bootId c d, cr0) rs = fin
  have hok := (@recoverChain_eq_ok sha hooks oks m.bootId c _ fin.1 fin.2).mpr
    ⟨cr0, rs, by rw [hrecords]; exact hload, by rw [hrecords]; exact hrounds, hrun⟩
  refine ⟨(diskAt sha hooks oks m.bootId c d, cr0), fin.2, rfl, ?_, ?_, hrecords, hload, hrounds,
    congrArg Prod.snd hrun, ?_⟩
  · rw [houtcome, hok]
  · unfold recover
    rw [hopen]
  · rw [hleft, hok, hrun]

theorem InOrder.length_eq (h : InOrder sha r evs) : r.levt.entries.length = evs.length := by
  have hlen := congrArg List.length h.1.decoded
  rwa [length_map, length_map] at hlen

theorem Started.loadable {s : SettleStore} {start : Disk × ChainRecovery}
    (h : Started sha hooks oks s c m start rs cr)
    (horder : (∃ x ∈ rs, Appends sha hooks m.bootId c start.2 x) →
      ∃ evs, InOrder sha (s.chain c) evs)
    (hlt : (s.chain c).levt.entries.length + (s.chain c).blk.entries.length +
      (s.chain c).intent.entries.length < 2 ^ 64)
    (hfresh : Run.Admissible (reconcile sha hooks oks m.bootId c)
      (fun s x => Fresh sha hooks m.bootId c s.2 x) start rs)
    (hcommits : Run.Admissible (reconcile sha hooks oks m.bootId c)
      (CommitsEvent sha hooks oks m.bootId c) start rs) :
    ∃ fp, Loadable sha hooks c ((recover sha hooks oks s).2.chain c) cr.ledger fp := by
  have hrounds := h.rounds.length_eq
  rw [h.left, ← h.recovered]
  by_cases happ : ∃ x ∈ rs, Appends sha hooks m.bootId c start.2 x
  · obtain ⟨evs, horder⟩ := horder happ
    have hlen := horder.length_eq
    have hsync := inSync_of_loadChain h.loaded horder
    rw [← h.records] at hsync
    obtain ⟨evs', hsync'⟩ := inSync_run hsync (by omega) hfresh hcommits
    exact ⟨_, hsync'.loadable⟩
  have hquiet : ∀ x ∈ rs, ¬ Appends sha hooks m.bootId c start.2 x :=
    fun x hx hax => happ ⟨x, hx, hax⟩
  obtain ⟨hcr, i, hi⟩ := @run_reconcile_of_quiet sha hooks oks m.bootId c start rs hquiet
  have hload := (loadable_of_loadChain h.loaded).1
  refine ⟨start.2.foundPayout, ?_⟩
  rw [hcr, hi, h.records]
  exact { hload with }

/-- A chain that `recover` marks started agrees with its records exactly when every batch that logs
an event is committed; where it logs one, the stored log is in order, and the blocks that are
re-derived are new to the ledger and fit their records. -/
theorem started_agrees_iff {s : SettleStore} {m : MetaRec} {start : Disk × ChainRecovery}
    {rs : List Round} {cr : ChainRecovery} (h : Started sha hooks oks s c m start rs cr)
    (horder : (∃ x ∈ rs, Appends sha hooks m.bootId c start.2 x) →
      ∃ evs, InOrder sha (s.chain c) evs)
    (hlt : (s.chain c).levt.entries.length + (s.chain c).blk.entries.length +
      (s.chain c).intent.entries.length < 2 ^ 64)
    (hfresh : Run.Admissible (reconcile sha hooks oks m.bootId c)
      (fun s x => Fresh sha hooks m.bootId c s.2 x) start rs) :
    AgreesWithDisk sha c ((recover sha hooks oks s).2.chain c) cr.ledger ↔
      Run.Admissible (reconcile sha hooks oks m.bootId c)
        (CommitsEvent sha hooks oks m.bootId c) start rs := by
  constructor
  · intro hagrees
    by_cases happ : ∃ x ∈ rs, Appends sha hooks m.bootId c start.2 x
    · obtain ⟨evs, horder⟩ := horder happ
      have hrounds := h.rounds.length_eq
      have hlen := horder.length_eq
      have hsync := inSync_of_loadChain h.loaded horder
      have hseq : start.2.ledger.seq = evs.length := by
        rw [hsync.ledger, horder.2]
      have hshort : Short c 0 start := by
        refine ⟨hsync.synced, ?_⟩
        rw [h.records]
        omega
      rw [h.left, ← h.recovered] at hagrees
      by_contra hno
      exact ((short_run hshort (by omega) hfresh).2 hno).not_agrees hagrees
    · exact commits_of_quiet fun x hx hax => happ ⟨x, hx, hax⟩
  intro hcommits
  obtain ⟨fp, hload⟩ := h.loadable horder hlt hfresh hcommits
  exact hload.agrees

def foundStore : SettleStore :=
  (SettlementJournal.after Sha256.sha256d 1
    [(0, .found { bid := [1], height := 7 } true true true)]).store

theorem inOrder_foundStore : ∃ evs, InOrder Sha256.sha256d (foundStore.chain 0) evs := by
  obtain ⟨evs, -, -, hdurable⟩ := @SettlementJournal.durable_after Sha256.sha256d 1
    [(0, .found { bid := [1], height := 7 } true true true)] (by decide)
    (by simp [JournalCall.Fits, FoundCall.Fits, fitsRows_empty]) 0
  exact ⟨evs, hdurable.log, hdurable.count⟩

theorem outcome_of_map {α : Type} {f : ChainRecovery → α} {o : Option Outcome} {a : α}
    (h : (o.map fun o => o.toOption.map f) = some (some a)) :
    ∃ cr, o = some (.ok cr) ∧ f cr = a := by
  obtain ⟨o, rfl, ho⟩ := Option.map_eq_some_iff.mp h
  cases o with
  | error e => cases ho
  | ok cr => exact ⟨cr, rfl, Option.some.inj ho⟩

/-- The block is orphaned by a recovery all of whose batches are committed. -/
theorem started_agrees_foundStore : ∃ cr,
    (recover Sha256.sha256d {} (fun _ => true) foundStore).1.outcome 0 = some (.ok cr) ∧
    AgreesWithDisk Sha256.sha256d 0
      ((recover Sha256.sha256d {} (fun _ => true) foundStore).2.chain 0) cr.ledger := by
  have houtcome : (((recover Sha256.sha256d {} (fun _ => true) foundStore).1.outcome 0).map fun o =>
      o.toOption.map fun cr => cr.ledger.seq) = some (some 2) := by
    decide +kernel
  obtain ⟨cr, hcr, -⟩ := outcome_of_map houtcome
  obtain ⟨m, start, rs, h⟩ := exists_started hcr
  refine ⟨cr, hcr, (started_agrees_iff h (fun _ => inOrder_foundStore) ?_ ?_).mpr ?_⟩
  · decide +kernel
  · apply Run.admissible_of_forall
    intro s x
    exact fresh_of_noRederive (fun _ => rfl) s.2 x
  · exact Run.admissible_of_forall (fun _ _ _ => rfl) start rs

def lostBatch : RecoveryResult × SettleStore :=
  recover Sha256.sha256d {} (fun n => n == 0) foundStore

def foundAgain : RecoveryResult × SettleStore :=
  recover Sha256.sha256d
    { winnerAt := fun _ _ => some 0
      tryRederiveIntent := fun _ => some { credit := (∅ : Amounts).insert 3 5, bid := [1] } }
    (fun _ => true)
    (SettlementJournal.after Sha256.sha256d 1
      [(0, .found { bid := [1], height := 7 } true true true),
        (0, .found { bid := [2], height := 8 } true false false)]).store

theorem lostBatch_disagrees : ∃ cr, lostBatch.1.outcome 0 = some (.ok cr) ∧
    ¬ AgreesWithDisk Sha256.sha256d 0 (lostBatch.2.chain 0) cr.ledger := by
  have houtcome : ((lostBatch.1.outcome 0).map fun o =>
      o.toOption.map fun cr => cr.ledger.seq) = some (some 2) := by
    decide +kernel
  have hlevt : (lostBatch.2.chain 0).levt.entries.length = 1 := by
    decide +kernel
  obtain ⟨cr, hcr, hseq⟩ := outcome_of_map houtcome
  refine ⟨cr, hcr, fun hagrees => ?_⟩
  obtain ⟨n, fp, hreplay⟩ := hagrees.replay
  have hle := seq_replayEvents_le hreplay
  rw [hlevt, hseq] at hle
  exact absurd hle (by decide)

theorem foundAgain_disagrees : ∃ cr, foundAgain.1.outcome 0 = some (.ok cr) ∧
    ¬ AgreesWithDisk Sha256.sha256d 0 (foundAgain.2.chain 0) cr.ledger := by
  have houtcome : ((foundAgain.1.outcome 0).map fun o =>
      o.toOption.map fun cr => (cr.ledger.pending.lookup [1]).map fun p => p.credit.entries) =
        some (some (some [])) := by
    decide +kernel
  have hreplay : ((replayEvents Sha256.sha256d 0 (foundAgain.2.chain 0).levt.entries 0
      ({}, ∅)).toOption.map fun x => (x.2.1.pending.lookup [1]).map fun p => p.credit.entries) =
        some (some [(3, 5)]) := by
    decide +kernel
  obtain ⟨cr, hcr, hpending⟩ := outcome_of_map houtcome
  refine ⟨cr, hcr, fun hagrees => ?_⟩
  obtain ⟨n, fp, heq⟩ := hagrees.replay
  rw [heq] at hreplay
  have hledger := Option.some.inj hreplay
  dsimp only at hledger
  rw [hpending] at hledger
  cases hledger

/-- Two recoveries that start a chain which does not agree with its records. -/
theorem started_disagrees :
    (∃ cr, lostBatch.1.outcome 0 = some (.ok cr) ∧
      ¬ AgreesWithDisk Sha256.sha256d 0 (lostBatch.2.chain 0) cr.ledger) ∧
    ∃ cr, foundAgain.1.outcome 0 = some (.ok cr) ∧
      ¬ AgreesWithDisk Sha256.sha256d 0 (foundAgain.2.chain 0) cr.ledger :=
  ⟨lostBatch_disagrees, foundAgain_disagrees⟩

end C2Pool.V37
