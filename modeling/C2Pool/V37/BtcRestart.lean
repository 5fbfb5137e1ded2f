import C2Pool.V37.BtcNode
import C2Pool.V37.BtcSettlement
import C2Pool.V37.Sha256

/-! # Restarts of a node of the Bitcoin family

The log of a node replays to its ledger, and the sidecars are the open blocks with their heights. A
restart rebuilds the tables of the finalize driver in the order of the ids, and so tracks the same
settlement as long as no block is opened out of that order or a second time.
-/

namespace C2Pool.V37.Btc

open List Reader

/-! ## Sidecars -/

def sidecarsOf (commits : List Commit) : SortedMap Bid U64 :=
  commits.foldl (fun m c =>
    match c with
    | .sidecar bid h => m.insert bid h
    | .dropSidecar bid => m.erase bid
    | _ => m) ∅

theorem sidecarsOf_concat (commits : List Commit) (c : Commit) :
    sidecarsOf (commits ++ [c]) =
      match c with
      | .sidecar bid h => (sidecarsOf commits).insert bid h
      | .dropSidecar bid => (sidecarsOf commits).erase bid
      | _ => sidecarsOf commits := by
  simp [sidecarsOf]

theorem held_pfound (commits : List Commit) (bid : Bid) :
    held commits (.pfound bid) =
      ((sidecarsOf commits).lookup bid).map fun h => bytesLE 1 1 ++ putU64 h.val := by
  induction commits using List.reverseRecOn with
  | nil => rfl
  | append_singleton commits c ih =>
    rw [held_concat, sidecarsOf_concat, ih]
    cases c with
    | sidecar x h =>
      by_cases heq : x = bid
      · subst heq
        simp [Commit.key, Commit.value, SortedMap.lookup_insert]
      · simp [Commit.key, SortedMap.lookup_insert, heq, Ne.symm heq]
    | dropSidecar x =>
      by_cases heq : x = bid
      · subst heq
        simp [Commit.key, Commit.value, SortedMap.lookup_erase]
      · simp [Commit.key, SortedMap.lookup_erase, heq, Ne.symm heq]
    | _ => simp [Commit.key]

theorem withPrefix_pfound (chain : U32) (commits : List Commit) :
    withPrefix (kPfoundPrefix chain) (kvAfter chain commits) =
      (sidecarsOf commits).entries.map fun e =>
        ((Key.pfound e.1).bytes chain, bytesLE 1 1 ++ putU64 e.2.val) := by
  have hsorted : ((sidecarsOf commits).entries.map fun e =>
      ((Key.pfound e.1).bytes chain, bytesLE 1 1 ++ putU64 e.2.val)).Pairwise
        fun a b => a.1 < b.1 := by
    rw [pairwise_map]
    exact (sidecarsOf commits).sorted.imp fun hlt => kPfound_lt hlt
  refine SortedMap.sorted_eq_of_mem_iff ((kvAfter chain commits).sorted.filter _) hsorted ?_
  rintro ⟨key, v⟩
  unfold withPrefix
  rw [mem_filter, SortedMap.mem_entries_iff, isPrefixOf_iff_prefix, mem_map]
  constructor
  · rintro ⟨hlookup, hpre⟩
    obtain ⟨k, rfl⟩ := exists_key_of_lookup (by rw [hlookup]; simp)
    obtain ⟨bid, rfl⟩ := (kPfoundPrefix_prefix_iff chain k).mp hpre
    rw [lookup_kvAfter, held_pfound, Option.map_eq_some_iff] at hlookup
    obtain ⟨h, hh, rfl⟩ := hlookup
    exact ⟨(bid, h), SortedMap.mem_entries_iff.mpr hh, rfl⟩
  rintro ⟨⟨bid, h⟩, hmem, heq⟩
  cases heq
  refine ⟨?_, (kPfoundPrefix_prefix_iff chain _).mpr ⟨bid, rfl⟩⟩
  rw [lookup_kvAfter, held_pfound, SortedMap.mem_entries_iff.mp hmem]
  rfl

theorem storedSidecars_kvAfter (chain : U32) (commits : List Commit) :
    storedSidecars chain (kvAfter chain commits) = some (sidecarsOf commits) := by
  have hrecord : ∀ h : U64, readSidecar.all (bytesLE 1 1 ++ putU64 h.val) = some h := by
    intro h
    apply Reads.all_eq
    apply (Read.reads_word (by decide)).bind
    exact Read.reads_u64 h
  unfold storedSidecars
  rw [withPrefix_pfound, PartialRun.foldlM_map_eq_some (g := fun m e => SortedMap.insert m e.1 e.2),
    SortedMap.foldl_insert_entries]
  intro m e _
  rw [hrecord, Option.map_some, Key.bytes, drop_left]

variable {commits : List Commit}

theorem storedFound_kvAfter (h : Logged commits) (chain : U32) :
    ∃ m, storedFound chain (kvAfter chain commits) = some m ∧
      (∀ bid r, m.lookup bid = some r → ∃ x ∈ eventsOf commits,
        x.2.1.kind = .found ∧ x.2.1.bid = bid ∧ r = ⟨x.2.1.credit, x.2.1.payout⟩) ∧
      ∀ x ∈ eventsOf commits, x.2.1.kind = .found → m.lookup x.2.1.bid ≠ none := by
  unfold storedFound
  rw [h.withPrefix_kvAfter, PartialRun.foldlM_map_eq_some (g := fun m x =>
    if x.2.1.kind = .found then SortedMap.insert m x.2.1.bid ⟨x.2.1.credit, x.2.1.payout⟩ else m)]
  · refine ⟨_, rfl, ?_⟩
    generalize eventsOf commits = events
    induction events using List.reverseRecOn with
    | nil => simp
    | append_singleton events x ih =>
      obtain ⟨hof, hall⟩ := ih
      rw [foldl_append, foldl_cons, foldl_nil]
      by_cases hkind : x.2.1.kind = .found
      · rw [if_pos hkind]
        constructor
        · intro bid r hlookup
          rw [SortedMap.lookup_insert] at hlookup
          split at hlookup
          next heq =>
            cases hlookup
            exact ⟨x, by simp, hkind, heq.symm, rfl⟩
          · obtain ⟨y, hy, hrest⟩ := hof bid r hlookup
            exact ⟨y, by simp [hy], hrest⟩
        intro y hy hfound
        rw [SortedMap.lookup_insert]
        split
        · simp
        next hne =>
          rcases mem_append.mp hy with hy | hy
          · exact hall y hy hfound
          · rw [mem_singleton.mp hy] at hne
            exact absurd rfl hne
      rw [if_neg hkind]
      constructor
      · intro bid r hlookup
        obtain ⟨y, hy, hrest⟩ := hof bid r hlookup
        exact ⟨y, by simp [hy], hrest⟩
      intro y hy hfound
      rcases mem_append.mp hy with hy | hy
      · exact hall y hy hfound
      · rw [mem_singleton.mp hy] at hfound
        exact absurd hfound hkind
  · intro m x hx
    rw [deserialize_serialize (h.fits x hx), Option.map_some]

theorem exists_found_of_pending (sha : List Byte → Bytes32) (rules : OwedLedgerRules)
    (events : List (U64 × SettleEvent × Option U64)) :
    ∃ book, OwedLedger.Keeps rules (replay sha rules events) book ∧
      ∀ bid, book.pending.lookup bid ≠ none →
        ∃ x ∈ events, x.2.1.kind = .found ∧ x.2.1.bid = bid := by
  induction events using List.reverseRecOn with
  | nil => exact ⟨{}, @OwedLedger.keeps_after sha rules [], fun bid h => absurd rfl h⟩
  | append_singleton events x ih =>
    obtain ⟨book, hkeeps, hfound⟩ := ih
    have hbefore : ∀ bid, book.pending.lookup bid ≠ none →
        ∃ y ∈ events ++ [x], y.2.1.kind = .found ∧ y.2.1.bid = bid := by
      intro bid hbid
      obtain ⟨y, hy, hrest⟩ := hfound bid hbid
      exact ⟨y, by simp [hy], hrest⟩
    have hlast : replay sha rules (events ++ [x]) =
        replayCall sha rules (replay sha rules events) x.2.1 := by
      simp [replay]
    have herased : ∀ b bid, (book.pending.erase b).lookup bid ≠ none →
        book.pending.lookup bid ≠ none := by
      intro b bid hbid
      rw [SortedMap.lookup_erase] at hbid
      split at hbid
      · exact absurd rfl hbid
      · exact hbid
    rw [hlast]
    unfold replayCall SettleEvent.toCall
    cases hkind : x.2.1.kind with
    | found =>
      refine ⟨_, hkeeps.call _, ?_⟩
      intro bid hbid
      simp only [LedgerCall.event, Book.step] at hbid
      split at hbid
      · exact hbefore bid hbid
      rw [SortedMap.lookup_insert] at hbid
      split at hbid
      next heq => exact ⟨x, by simp, hkind, heq.symm⟩
      · exact hbefore bid hbid
    | finalize =>
      refine ⟨_, hkeeps.call _, ?_⟩
      intro bid hbid
      simp only [LedgerCall.event, Book.step] at hbid
      split at hbid
      · exact hbefore bid hbid
      · exact hbefore bid (herased _ bid hbid)
    | orphan =>
      refine ⟨_, hkeeps.call _, ?_⟩
      intro bid hbid
      exact hbefore bid (herased _ bid hbid)
    | other code => exact ⟨book, hkeeps, hbefore⟩

/-! ## What the records of a driver hold -/

variable {id : Bytes32} {best : U64}

namespace BtcFinalizeDriver

variable {sha : List Byte → Bytes32} {rules : OwedLedgerRules} {dConf : U64}
  {isCanonical : U64 → Bid → Bool} {d : BtcFinalizeDriver} {hw : SettleHW}
  {side : SortedMap Bid U64} {d' : BtcFinalizeDriver}

/-- The commits hold the ledger and the cursor of the driver, a high-water and some sidecars. -/
structure Mirrors (sha : List Byte → Bytes32) (rules : OwedLedgerRules) (hw : SettleHW)
    (side : SortedMap Bid U64) (d : BtcFinalizeDriver) : Prop where
  ledger : d.ledger = replay sha rules (eventsOf d.commits)
  cursor : lastCursor d.commits = d.cursorH
  hw : lastHw d.commits = hw
  sidecars : sidecarsOf d.commits = side

namespace Mirrors

section

variable (h : Mirrors sha rules hw side d)
include h

theorem of_frame (hledger : d'.ledger = d.ledger) (hcursor : d'.cursorH = d.cursorH)
    (hcommits : d'.commits = d.commits) : Mirrors sha rules hw side d' where
  ledger := by rw [hledger, hcommits, h.ledger]
  cursor := by rw [hcursor, hcommits, h.cursor]
  hw := by rw [hcommits, h.hw]
  sidecars := by rw [hcommits, h.sidecars]

/-- A commit that is not an event changes what it names. -/
theorem concat (c : Commit) : (∀ seq e stepped, c ≠ .event seq e stepped) →
    d'.ledger = d.ledger → d'.commits = d.commits ++ [c] →
    (match c with | .cursor x => x | _ => d.cursorH) = d'.cursorH →
    Mirrors sha rules (match c with | .hw w => w | _ => hw)
      (match c with
      | .sidecar bid x => side.insert bid x
      | .dropSidecar bid => side.erase bid
      | _ => side) d' := by
  intro hc hledger hcommits hcursor
  constructor
  · rw [hledger, hcommits, eventsOf_concat_other _ hc, h.ledger]
  · rw [hcommits, lastCursor_concat, h.cursor]
    exact hcursor
  · rw [hcommits, ← h.hw]
    exact lastHw_concat d.commits c
  · rw [hcommits, sidecarsOf_concat, h.sidecars]

theorem writeEvent (e : SettleEvent) (stepped : Option U64) :
    Mirrors sha rules hw side (d.writeEvent sha rules e stepped) where
  ledger := by
    dsimp only [BtcFinalizeDriver.writeEvent]
    rw [eventsOf_append, h.ledger]
    simp [replay, eventsOf]
  cursor := by
    dsimp only [BtcFinalizeDriver.writeEvent]
    rw [lastCursor_concat]
    exact h.cursor
  hw := by
    dsimp only [BtcFinalizeDriver.writeEvent]
    rw [lastHw_concat]
    exact h.hw
  sidecars := by
    dsimp only [BtcFinalizeDriver.writeEvent]
    rw [sidecarsOf_concat]
    exact h.sidecars

theorem onBlockOrphaned (bid : Bid) (stepped : Option U64) :
    Mirrors sha rules hw side (d.onBlockOrphaned sha rules bid stepped) := by
  unfold BtcFinalizeDriver.onBlockOrphaned
  split
  · exact h.writeEvent _ _
  · exact (h.writeEvent _ _).of_frame rfl rfl rfl

theorem onBlockFound (b : FoundBlock) : Mirrors sha rules hw side (d.onBlockFound sha rules b) := by
  unfold BtcFinalizeDriver.onBlockFound
  split
  · exact h
  · exact (h.writeEvent _ _).of_frame rfl rfl rfl

theorem stepBid (x : U64) (bid : Bid) :
    Mirrors sha rules hw side (stepBid sha rules dConf isCanonical x d bid) := by
  unfold BtcFinalizeDriver.stepBid
  split
  · exact h
  split
  · exact h
  split
  · exact h.onBlockOrphaned bid (some x)
  split
  · exact h
  · exact (h.writeEvent _ _).of_frame rfl rfl rfl

theorem stepHeight (x : U64) :
    Mirrors sha rules hw side (d.stepHeight sha rules dConf isCanonical x) := by
  have hfold : ∀ (bids : List Bid) (d : BtcFinalizeDriver), Mirrors sha rules hw side d →
      Mirrors sha rules hw side
        (bids.foldl (BtcFinalizeDriver.stepBid sha rules dConf isCanonical x) d) := by
    intro bids
    induction bids with
    | nil => exact fun d h => h
    | cons bid bids ih => exact fun d h => ih _ (h.stepBid x bid)
  have hbids := hfold ((d.byHeight.lookup x).getD []) d h
  apply hbids.concat (.cursor x) (by simp) <;> rfl

theorem stepHeights (frontier : U64) (rounds : Nat) (x : U64) :
    Mirrors sha rules hw side
      (stepHeights sha rules dConf isCanonical frontier rounds x d).1 := by
  induction rounds generalizing x d with
  | zero => exact h
  | succ rounds ih =>
    unfold BtcFinalizeDriver.stepHeights
    split
    · exact ih (h.stepHeight x) _
    · exact h

theorem persistHw : Mirrors sha rules d.persistHw.hw side d.persistHw := by
  apply h.concat (.hw d.persistHw.hw) (by simp) <;> rfl

theorem advance (hstep : d.step sha rules dConf (.advance isCanonical best id) = some d') :
    Mirrors sha rules d'.hw side d' := by
  obtain ⟨hw', frontier, rounds, -, rfl⟩ := advance_cases hstep
  have hstart : Mirrors sha rules hw side { d with hw := hw' } := h.of_frame rfl rfl rfl
  exact (hstart.stepHeights frontier rounds _).persistHw

theorem putSidecar (bid : Bid) (height : U64) :
    Mirrors sha rules hw (side.insert bid height)
      { d with commits := d.commits ++ [.sidecar bid height] } := by
  apply h.concat (.sidecar bid height) (by simp) <;> rfl

theorem delSidecar (bid : Bid) :
    Mirrors sha rules hw (side.erase bid)
      { d with commits := d.commits ++ [.dropSidecar bid] } := by
  apply h.concat (.dropSidecar bid) (by simp) <;> rfl

end

end Mirrors

variable {chain : U32} {room : Nat}

theorem Sound.advance (h : Sound chain room d) (hroom : room < 2 ^ 64)
    (hstep : d.step sha rules dConf (.advance isCanonical best id) = some d') :
    Sound chain room d' := by
  obtain ⟨hw', frontier, rounds, hfrontier, rfl⟩ := advance_cases hstep
  have hstart : Sound chain room { d with hw := hw' } :=
    ⟨h.log.of_frame rfl rfl rfl h.log.found, h.below, h.room⟩
  have hnext : (d.cursorH + 1).val = d.cursorH.val + 1 := by
    have hbelow := h.below
    exact FinalizeDriver.succ_val (by omega)
  exact (hstart.stepHeights sha rules dConf isCanonical hroom hfrontier rounds hnext).persistHw

theorem Sound.commit (h : Sound chain room d) {c : Commit}
    (hevent : ∀ seq e stepped, c ≠ .event seq e stepped) (hcursor : ∀ x, c ≠ .cursor x)
    (hsized : c.Sized chain) : Sound chain room { d with commits := d.commits ++ [c] } := by
  refine ⟨h.log.commit hevent hsized rfl rfl rfl le_rfl fun x hx => absurd hx (hcursor x),
    h.below, ?_⟩
  have hroom := h.room
  unfold written at hroom ⊢
  rw [eventsOf_concat_other _ hevent]
  exact hroom

end BtcFinalizeDriver

/-! ## Nodes -/

namespace BlockEventDriver

open BtcFinalizeDriver

variable {sha : List Byte → Bytes32} {rules : OwedLedgerRules} {dConf : U64} {chain : U32} {n : Nat}
  {d : BlockEventDriver} {a : Settlement} {bid : Bid} {base : BtcFinalizeDriver}
  {done : List (Bid × U64)} {e : Bid × U64} {fin : BtcFinalizeDriver}

/-- The sidecar of a block has a 64-bit size. -/
def Small (chain : U32) (bid : Bid) : Prop := ((Key.pfound bid).bytes chain).length < 2 ^ 64

theorem sized_sidecar (h : Small chain bid) (height : U64) :
    (Commit.sidecar bid height).Sized chain := by
  refine ⟨h, ?_⟩
  intro v hv
  rw [← Option.some_inj.mp hv, length_append, putU64, length_bytesLE, length_bytesLE]
  decide

theorem sized_dropSidecar (h : Small chain bid) : (Commit.dropSidecar bid).Sized chain := by
  refine ⟨h, ?_⟩
  intro v hv
  cases hv

theorem small_of_fits {e : SettleEvent} (h : e.Fits) : Small chain e.bid := by
  have hsize := h.size
  rw [length_serialize_event] at hsize
  simp only [Small, Key.bytes, kPfoundPrefix, putTag, length_append, length_map, length_decFmt]
  have htag : "v37s:pfound:".toList.length = 12 := by decide
  have hcolon : ":".toList.length = 1 := by decide
  omega

/-- The node is as its records say. -/
structure Durable (sha : List Byte → Bytes32) (rules : OwedLedgerRules) (chain : U32) (n : Nat)
    (d : BlockEventDriver) : Prop where
  sound : Sound chain (2 * n) d.fin
  mirrors : Mirrors sha rules d.fin.hw d.pending d.fin

section

variable (h : Durable sha rules chain n d)
include h

theorem Durable.mono : Durable sha rules chain (n + 1) d :=
  ⟨⟨h.sound.log, h.sound.below, by have := h.sound.room; omega⟩, h.mirrors⟩

theorem Durable.small (hbid : d.pending.lookup bid ≠ none) : Small chain bid := by
  rw [← h.mirrors.sidecars] at hbid
  have hkey := h.sound.log.sized
  generalize d.fin.commits = commits at hbid hkey
  induction commits using List.reverseRecOn with
  | nil => exact absurd rfl hbid
  | append_singleton commits c ih =>
    have hbefore (hold : (sidecarsOf commits).lookup bid ≠ none) : Small chain bid :=
      ih hold fun x hx => hkey x (by simp [hx])
    rw [sidecarsOf_concat] at hbid
    cases c with
    | sidecar x height =>
      rw [SortedMap.lookup_insert] at hbid
      split at hbid
      next heq =>
        rw [heq]
        exact (hkey (.sidecar x height) (by simp)).1
      · exact hbefore hbid
    | dropSidecar x =>
      rw [SortedMap.lookup_erase] at hbid
      split at hbid
      · exact absurd rfl hbid
      · exact hbefore hbid
    | _ => exact hbefore hbid

theorem Durable.retire (hbid : Small chain bid) : Durable sha rules chain n (d.retire bid) :=
  ⟨h.sound.commit (by simp) (by simp) (sized_dropSidecar hbid), h.mirrors.delSidecar bid⟩

theorem Durable.foldl_retire {bids : List Bid} (hbids : ∀ bid ∈ bids, Small chain bid) :
    Durable sha rules chain n (bids.foldl BlockEventDriver.retire d) := by
  induction bids generalizing d with
  | nil => exact h
  | cons bid bids ih =>
    exact ih (h.retire (hbids bid mem_cons_self)) fun x hx => hbids x (mem_cons_of_mem _ hx)

end

theorem foldl_retire_eq (bids : List Bid) (d : BlockEventDriver) :
    ∃ commits, bids.foldl retire d =
      ⟨{ d.fin with commits := commits }, (bids.foldl retire d).pending⟩ ∧
      ∀ x, (bids.foldl retire d).pending.lookup x =
        if x ∈ bids then none else d.pending.lookup x := by
  induction bids generalizing d with
  | nil => exact ⟨d.fin.commits, rfl, fun x => by simp⟩
  | cons bid bids ih =>
    obtain ⟨commits, heq, hlookup⟩ := ih (d.retire bid)
    refine ⟨commits, heq, ?_⟩
    intro x
    rw [foldl_cons, hlookup]
    dsimp only [retire, delSidecar]
    rw [SortedMap.lookup_erase]
    by_cases hx : x ∈ bids
    · simp [hx]
    · simp [hx]

theorem reconcile_eq (d : BlockEventDriver) :
    d.reconcile = ((d.pending.entries.filter fun e => d.fin.ledger.isPending e.1 = false).map
      Prod.fst).foldl retire d := by
  have hloop : ∀ (l : OwedLedger) (es : List (Bid × U64)) (d : BlockEventDriver),
      d.fin.ledger = l →
      es.foldl (fun d e => if d.fin.ledger.isPending e.1 = false then d.retire e.1 else d) d =
        ((es.filter fun e => l.isPending e.1 = false).map Prod.fst).foldl retire d := by
    intro l es
    induction es with
    | nil => exact fun d _ => rfl
    | cons e es ih =>
      intro d hl
      rw [foldl_cons, hl]
      by_cases he : l.isPending e.1 = false
      · rw [if_pos he, filter_cons_of_pos (by simpa using he), map_cons, foldl_cons]
        exact ih _ hl
      · rw [if_neg he, filter_cons_of_neg (by simpa using he)]
        exact ih d hl
  exact hloop d.fin.ledger d.pending.entries d rfl

/-- The node tracks a settlement, its pending blocks are the open ones, and its records say so. -/
structure Refines (sha : List Byte → Bytes32) (rules : OwedLedgerRules) (chain : U32) (n : Nat)
    (d : BlockEventDriver) (a : Settlement) : Prop where
  tracks : Tracks rules d.fin a
  pending : d.pending = a.waits
  durable : Durable sha rules chain n d

/-- The condition of a FOUND: a block that will be opened is new to the tables of the driver, and
its id comes after those of the blocks that wait at its height. -/
def Opens (d : BlockEventDriver) (b : FoundBlock) : Prop :=
  d.pending.lookup b.bid = none → b.height ≠ 0 → b.bid ∉ d.fin.ledger.settled →
    d.fin.found.lookup b.bid = none ∧
      (d.fin.cursorH < b.height → ∀ bid, d.pending.lookup bid = some b.height → bid < b.bid)

def Orderly (d : BlockEventDriver) : BtcFinalizeDriver.Op → Prop
  | .found b => b.event.Fits ∧ d.Opens b
  | .orphaned bid => (orphanEvent bid ∅).Fits
  | .advance _ _ _ => True

namespace Refines

theorem tracks_commits (h : Tracks rules fin a) (commits : List Commit) :
    Tracks rules { fin with commits := commits } a := { h with }

section

variable (h : Refines sha rules chain n d a) (hn : 2 * (n + 1) < 2 ^ 64)
include h hn

theorem found {b : FoundBlock} (hb : Orderly d (.found b)) :
    Refines sha rules chain (n + 1) (d.onBlockFound sha rules b) (a.found b) := by
  obtain ⟨hfits, hopens⟩ := hb
  have hsame (hstay : a.found b = a) : Refines sha rules chain (n + 1) d (a.found b) := by
    rw [hstay]
    exact ⟨h.tracks, h.pending, h.durable.mono⟩
  unfold BlockEventDriver.onBlockFound
  by_cases hwaits : a.waits.lookup b.bid = none
  · rw [if_neg (by rw [h.pending]; simp [hwaits])]
    by_cases hheight : b.height = 0
    · rw [if_pos hheight]
      apply hsame
      unfold Settlement.found
      rw [if_pos (Or.inr (Or.inl hheight))]
    rw [if_neg hheight]
    have htracks := tracks_commits h.tracks (d.putSidecar b.bid b.height).fin.commits
    have hfound : Sound chain (2 * (n + 1)) ((d.putSidecar b.bid b.height).fin.onBlockFound
          sha rules { b with canonical := true }) ∧
        Mirrors sha rules d.fin.hw (d.pending.insert b.bid b.height)
          ((d.putSidecar b.bid b.height).fin.onBlockFound sha rules
            { b with canonical := true }) := by
      constructor
      · exact (h.durable.sound.commit (by simp) (by simp)
          (sized_sidecar (small_of_fits hfits) b.height)).onBlockFound hn hfits
      · exact (h.durable.mirrors.putSidecar b.bid b.height).onBlockFound _
    have hhw : ((d.putSidecar b.bid b.height).fin.onBlockFound sha rules
        { b with canonical := true }).hw = d.fin.hw := by
      unfold BtcFinalizeDriver.onBlockFound
      split <;> rfl
    have hsettle (hsettled : b.bid ∈ a.book.settled) :
        Tracks rules ((d.putSidecar b.bid b.height).fin.onBlockFound sha rules
          { b with canonical := true }) a := htracks.found_settled hwaits hsettled
    have hopen (hsettled : b.bid ∉ a.book.settled) :
        Tracks rules ((d.putSidecar b.bid b.height).fin.onBlockFound sha rules
          { b with canonical := true }) (a.found b) := by
      obtain ⟨hnew, hlast⟩ := hopens (by rw [h.pending]; exact hwaits) hheight
        (by rw [h.tracks.keeps.settled]; exact hsettled)
      rw [h.tracks.cursor, h.pending] at hlast
      exact htracks.found hwaits hsettled hheight hnew rfl hlast
    obtain ⟨hsound, hmirrors⟩ := hfound
    dsimp only
    generalize (d.putSidecar b.bid b.height).fin.onBlockFound sha rules
      { b with canonical := true } = fin at hsound hmirrors hhw hsettle hopen ⊢
    rw [← hhw] at hmirrors
    by_cases hsettled : b.bid ∈ a.book.settled
    · have hafter := hsettle hsettled
      have hstay : a.found b = a := by
        unfold Settlement.found
        rw [if_pos (Or.inr (Or.inr hsettled))]
      have hpending : fin.ledger.isPending b.bid = false := by
        rw [hafter.isPending_iff, Settlement.waiting_eq_false]
        exact hwaits
      have hback : (d.pending.insert b.bid b.height).erase b.bid = d.pending := by
        rw [SortedMap.erase_insert,
          SortedMap.erase_of_lookup_none (by rw [h.pending]; exact hwaits)]
      rw [if_pos hpending, hstay]
      refine ⟨tracks_commits hafter _, h.pending,
        hsound.commit (by simp) (by simp) (sized_dropSidecar (small_of_fits hfits)), ?_⟩
      have hdrop := hmirrors.delSidecar b.bid
      rw [hback] at hdrop
      exact hdrop
    have hafter := hopen hsettled
    have hinsert : (a.found b).waits = a.waits.insert b.bid b.height := by
      unfold Settlement.found Settlement.waiting
      rw [if_neg (by simp [hwaits, hheight, hsettled])]
    have hpending : fin.ledger.isPending b.bid = true := by
      rw [hafter.isPending_iff, Settlement.waiting, hinsert, SortedMap.lookup_insert, if_pos rfl]
      rfl
    rw [if_neg (by rw [hpending]; decide)]
    refine ⟨hafter, ?_, hsound, hmirrors⟩
    rw [hinsert, ← h.pending]
    rfl
  · rw [if_pos (by rw [h.pending]; exact hwaits)]
    apply hsame
    unfold Settlement.found Settlement.waiting
    rw [if_pos (Or.inl (Option.isSome_iff_ne_none.mpr hwaits))]

theorem orphaned {bid : Bid} (hbid : (orphanEvent bid ∅).Fits) :
    Refines sha rules chain (n + 1) (d.onBlockOrphaned sha rules bid) (a.orphaned bid) := by
  have hdurable : Durable sha rules chain (n + 1)
      { d with fin := d.fin.onBlockOrphaned sha rules bid none } := by
    refine ⟨h.durable.sound.onBlockOrphaned hn hbid, ?_⟩
    have hmirrors := h.durable.mirrors.onBlockOrphaned bid none
    have hhw : (d.fin.onBlockOrphaned sha rules bid none).hw = d.fin.hw := by
      unfold BtcFinalizeDriver.onBlockOrphaned
      split <;> rfl
    rw [← hhw] at hmirrors
    exact hmirrors
  refine ⟨tracks_commits (h.tracks.orphaned bid none) _, ?_, hdurable.retire (small_of_fits hbid)⟩
  show d.pending.erase bid = a.waits.erase bid
  rw [h.pending]

theorem advance (isCanonical : U64 → Bid → Bool) (best : U64) (id : Bytes32) :
    d.onTip sha rules dConf isCanonical best id = none ∧
        a.tip dConf isCanonical best = none ∨
      ∃ d' a', d.onTip sha rules dConf isCanonical best id = some d' ∧
        a.tip dConf isCanonical best = some a' ∧ Refines sha rules chain (n + 1) d' a' := by
  have hbelow : a.cursor.val < 2 ^ 64 - 1 := by
    rw [← h.tracks.cursor]
    exact h.durable.sound.below
  unfold BlockEventDriver.onTip
  rcases @Tracks.advance sha rules dConf isCanonical d.fin a h.tracks hbelow best id with
    ⟨hnone, htip⟩ | ⟨fin, a', hstep, htip, htracks⟩
  · left
    rw [hnone]
    exact ⟨rfl, htip⟩
  right
  have hadvances : Settlement.Advances a a' := Settlement.advances_tip htip
  obtain ⟨new, hsteps, hnew⟩ := hadvances.steps
  have hdone : fin.steps.drop d.fin.steps.length = new := by
    rw [htracks.steps, hsteps, h.tracks.steps, drop_left]
  have hstart : Durable sha rules chain (n + 1) { d with fin := fin } :=
    Durable.mono ⟨h.durable.sound.advance (by omega) hstep, h.durable.mirrors.advance hstep⟩
  rw [hstep, Option.map_some, hdone]
  refine ⟨_, a', rfl, htip, ?_⟩
  have hretired : ∀ bid ∈ new.map FinalizeStep.bid, Small chain bid := by
    intro bid hbid
    obtain ⟨s, hs, rfl⟩ := mem_map.mp hbid
    exact h.durable.small (by rw [h.pending]; exact (hnew s hs).1)
  have hmap : new.foldl (fun d s => retire d s.bid) { d with fin := fin } =
      (new.map FinalizeStep.bid).foldl retire { d with fin := fin } := by
    rw [foldl_map]
  have hfirst := hstart.foldl_retire hretired
  obtain ⟨commits, heq, hlookup⟩ := foldl_retire_eq (new.map FinalizeStep.bid) { d with fin := fin }
  rw [hmap]
  generalize (new.map FinalizeStep.bid).foldl retire { d with fin := fin } = d₁
    at hfirst heq hlookup ⊢
  have hledger : d₁.fin.ledger = fin.ledger := by rw [heq]
  rw [reconcile_eq, hledger]
  have hstale : ∀ bid, bid ∈ (d₁.pending.entries.filter fun e =>
      fin.ledger.isPending e.1 = false).map Prod.fst ↔
        d₁.pending.lookup bid ≠ none ∧ a'.waits.lookup bid = none := by
    intro bid
    rw [mem_map]
    constructor
    · rintro ⟨⟨x, height⟩, hmem, rfl⟩
      rw [mem_filter, decide_eq_true_eq, htracks.isPending_iff, Settlement.waiting_eq_false] at hmem
      refine ⟨?_, hmem.2⟩
      rw [SortedMap.mem_entries_iff.mp hmem.1]
      simp
    rintro ⟨hsome, hnone⟩
    obtain ⟨height, hheight⟩ := Option.ne_none_iff_exists'.mp hsome
    refine ⟨(bid, height), ?_, rfl⟩
    rw [mem_filter, decide_eq_true_eq, htracks.isPending_iff, Settlement.waiting_eq_false]
    exact ⟨SortedMap.mem_entries_iff.mpr hheight, hnone⟩
  obtain ⟨commits', heq', hlookup'⟩ := foldl_retire_eq ((d₁.pending.entries.filter fun e =>
    fin.ledger.isPending e.1 = false).map Prod.fst) d₁
  have hsecond := hfirst.foldl_retire fun bid hbid => hfirst.small ((hstale bid).mp hbid).1
  refine ⟨?_, ?_, hsecond⟩
  · rw [heq', heq]
    exact tracks_commits htracks commits'
  ext1 x
  rw [hlookup', hlookup]
  by_cases hopen : a'.waits.lookup x = none
  · rw [hopen]
    by_cases hx : d₁.pending.lookup x = none
    · rw [← hlookup, hx, ite_self]
    · rw [if_pos ((hstale x).mpr ⟨hx, hopen⟩)]
  rw [if_neg fun hx => hopen ((hstale x).mp hx).2, if_neg]
  · show d.pending.lookup x = _
    rw [h.pending]
    rcases hadvances.waits x with hnone | hsame
    · exact absurd hnone hopen
    · exact hsame.symm
  intro hx
  obtain ⟨s, hs, rfl⟩ := mem_map.mp hx
  exact hopen (hnew s hs).2

end

end Refines

/-! ## The reseeded tables -/

@[simp] theorem bid_sidecarBlock (found : SortedMap Bid FoundRec) (e : Bid × U64) :
    (sidecarBlock found e).bid = e.1 := rfl

@[simp] theorem height_sidecarBlock (found : SortedMap Bid FoundRec) (e : Bid × U64) :
    (sidecarBlock found e).height = e.2 := rfl

/-- The node after some sidecars have been taken up again: only the tables have changed. -/
structure Reseeded (base : BtcFinalizeDriver) (done : List (Bid × U64)) (d : BlockEventDriver) :
    Prop where
  frame : d.fin = { base with found := d.fin.found, byHeight := d.fin.byHeight }
  found : ∀ bid, d.fin.found.lookup bid ≠ none ↔ bid ∈ done.map Prod.fst
  block : ∀ bid b, d.fin.found.lookup bid = some b →
    b.bid = bid ∧ b.event.Fits ∧ b.canonical = true
  foundAt : ∀ x, d.fin.foundAt x = (done.filter fun e => e.2 = x).map Prod.fst
  pending : ∀ bid h, d.pending.lookup bid = some h ↔ (bid, h) ∈ done
  waiting : d.fin.waiting ≤ (done.filter fun e => base.cursorH < e.2).length

variable {found : SortedMap Bid FoundRec}

theorem Reseeded.reseedOne (h : Reseeded base done d) (hnew : e.1 ∉ done.map Prod.fst)
    (hpending : base.ledger.isPending e.1 = true) (hfits : (sidecarBlock found e).event.Fits) :
    Reseeded base (done ++ [e]) (BlockEventDriver.reseedOne found d e) := by
  have hledger : d.fin.ledger = base.ledger := by rw [h.frame]
  have hcursor : d.fin.cursorH = base.cursorH := by rw [h.frame]
  have hnone : d.fin.found.lookup e.1 = none := by
    by_contra hsome
    exact hnew ((h.found e.1).mp hsome)
  have hseed : d.fin.reseedFound (sidecarBlock found e) =
      (d.fin.remember (sidecarBlock found e), true) := by
    unfold BtcFinalizeDriver.reseedFound
    rw [bid_sidecarBlock, if_neg (not_not.mpr hnone), hledger, if_neg (by rw [hpending]; decide)]
  unfold BlockEventDriver.reseedOne
  rw [hledger, if_neg (by rw [hpending]; decide), hseed]
  rw [if_pos rfl]
  constructor
  · dsimp only [remember]
    rw [h.frame]
  · intro bid
    dsimp only [remember]
    rw [bid_sidecarBlock, SortedMap.lookup_insert, map_append, mem_append, ← h.found]
    split
    next heq => simp [heq]
    next hne => simp [hne]
  · intro bid b hlookup
    dsimp only [remember] at hlookup
    rw [SortedMap.lookup_insert] at hlookup
    split at hlookup
    next heq =>
      cases hlookup
      exact ⟨heq.symm, hfits, rfl⟩
    · exact h.block bid b hlookup
  · intro x
    rw [foundAt_remember, h.foundAt, filter_append, map_append, height_sidecarBlock,
      bid_sidecarBlock]
    by_cases hx : x = e.2
    · simp [hx]
    · simp [hx, Ne.symm hx]
  · intro bid height
    rw [SortedMap.lookup_insert, mem_append, mem_singleton, ← h.pending]
    split
    next heq =>
      have hfresh : d.pending.lookup bid ≠ some height := by
        intro hsome
        exact hnew (mem_map.mpr ⟨_, (h.pending bid height).mp hsome, heq⟩)
      rw [or_iff_right hfresh, heq, Option.some_inj, Prod.ext_iff]
      simp [eq_comm]
    next hne =>
      rw [or_iff_left]
      intro hlast
      exact hne (congrArg Prod.fst hlast)
  · have hmore := waiting_remember d.fin (sidecarBlock found e)
    have hbefore := h.waiting
    have hlast : ([e].filter fun e => base.cursorH < e.2).length =
        if base.cursorH < e.2 then 1 else 0 := by
      by_cases hlt : base.cursorH < e.2
      · simp [hlt]
      · simp [hlt]
    rw [filter_append, length_append, hlast]
    rw [hcursor] at hmore
    exact hmore.trans (Nat.add_le_add_right hbefore _)

theorem Reseeded.foldl {es : List (Bid × U64)} (h : Reseeded base done d)
    (hnodup : ((done ++ es).map Prod.fst).Nodup)
    (hpending : ∀ e ∈ es, base.ledger.isPending e.1 = true)
    (hfits : ∀ e ∈ es, (sidecarBlock found e).event.Fits) :
    Reseeded base (done ++ es) (es.foldl (BlockEventDriver.reseedOne found) d) := by
  induction es generalizing d done with
  | nil =>
    rw [append_nil]
    exact h
  | cons e es ih =>
    have hnew : e.1 ∉ done.map Prod.fst := by
      rw [map_append, map_cons] at hnodup
      intro hmem
      exact (nodup_append.mp hnodup).2.2 e.1 hmem e.1 mem_cons_self rfl
    have hone := h.reseedOne hnew (hpending e mem_cons_self) (hfits e mem_cons_self)
    have hsplit : done ++ e :: es = (done ++ [e]) ++ es := by simp
    rw [hsplit] at hnodup ⊢
    exact ih hone hnodup (fun x hx => hpending x (mem_cons_of_mem _ hx))
      fun x hx => hfits x (mem_cons_of_mem _ hx)

theorem length_le_waiting (h : Tracks rules fin a) :
    (a.waits.entries.filter fun e => fin.cursorH < e.2).length ≤ fin.waiting := by
  have hwaiting : fin.waiting =
      (fin.byHeight.entries.flatMap fun e => if fin.cursorH < e.1 then e.2 else []).length := by
    unfold BtcFinalizeDriver.waiting SortedMap.sum
    rw [length_flatMap]
    congr 1
    apply map_congr_left
    intro e _
    dsimp only
    split <;> rfl
  have hnodup : ((a.waits.entries.filter fun e => fin.cursorH < e.2).map Prod.fst).Nodup := by
    have hsorted := a.waits.sorted.filter fun e => fin.cursorH < e.2
    rw [List.Nodup, pairwise_map]
    exact hsorted.imp fun hlt => hlt.ne
  rw [hwaiting, ← length_map (f := Prod.fst)]
  apply (hnodup.subperm ?_).length_le
  intro bid hbid
  obtain ⟨⟨x, height⟩, hmem, rfl⟩ := mem_map.mp hbid
  rw [mem_filter, decide_eq_true_eq] at hmem
  obtain ⟨hentry, habove⟩ := hmem
  have hat := (h.mem x height (SortedMap.mem_entries_iff.mp hentry) height
    (by rw [← h.cursor]; exact habove)).mpr rfl
  unfold BtcFinalizeDriver.foundAt at hat
  cases hlookup : fin.byHeight.lookup height with
  | none =>
    rw [hlookup] at hat
    cases hat
  | some bids =>
    rw [hlookup] at hat
    apply mem_flatMap.mpr
    refine ⟨(height, bids), SortedMap.mem_entries_iff.mpr hlookup, ?_⟩
    rw [if_pos habove]
    exact hat

theorem Reseeded.tracks {old : BtcFinalizeDriver}
    (h : Reseeded base a.waits.entries d) (hold : Tracks rules old a)
    (hledger : base.ledger = old.ledger) (hcursor : base.cursorH = old.cursorH)
    (hhw : base.hw = old.hw) (hsteps : base.steps = old.steps) : Tracks rules d.fin a := by
  have hmem : ∀ x bid, bid ∈ d.fin.foundAt x ↔ a.waits.lookup bid = some x := by
    intro x bid
    rw [h.foundAt]
    exact Settlement.mem_waitsAt
  have hkeys : ∀ bid, d.fin.found.lookup bid ≠ none ↔ a.waits.lookup bid ≠ none := by
    intro bid
    rw [h.found, mem_map]
    constructor
    · rintro ⟨e, he, rfl⟩
      rw [SortedMap.mem_entries_iff.mp he]
      simp
    intro hsome
    obtain ⟨height, hheight⟩ := Option.ne_none_iff_exists'.mp hsome
    exact ⟨(bid, height), SortedMap.mem_entries_iff.mpr hheight, rfl⟩
  refine ⟨?_, hold.waits, ?_, ?_, ?_, ?_, ?_, ?_, ?_⟩
  · rw [h.frame]
    show OwedLedger.Keeps rules base.ledger a.book
    rw [hledger]
    exact hold.keeps
  · rw [h.frame]
    exact hcursor.trans hold.cursor
  · rw [h.frame]
    show base.hw.hwHeight = a.best
    rw [hhw]
    exact hold.best
  · rw [h.frame]
    exact hsteps.trans hold.steps
  · intro bid hbid
    obtain ⟨b, hb⟩ := Option.ne_none_iff_exists'.mp ((hkeys bid).mpr hbid)
    exact ⟨b, hb, (h.block bid b hb).2.2⟩
  · intro bid height hlookup x _
    rw [hmem, hlookup, Option.some_inj, eq_comm]
  · intro x _
    rw [h.foundAt]
    exact (a.sorted_waitsAt x).filter _
  · intro x bid hbid
    rw [hkeys, (hmem x bid).mp hbid]
    simp

theorem fits_sidecarBlock (hlog : Logged commits)
    (hpending : (replay sha rules (eventsOf commits)).isPending e.1 = true)
    (hof : ∀ bid r, found.lookup bid = some r → ∃ x ∈ eventsOf commits,
      x.2.1.kind = .found ∧ x.2.1.bid = bid ∧ r = ⟨x.2.1.credit, x.2.1.payout⟩)
    (hall : ∀ x ∈ eventsOf commits, x.2.1.kind = .found → found.lookup x.2.1.bid ≠ none) :
    (sidecarBlock found e).event.Fits := by
  obtain ⟨book, hkeeps, hbook⟩ := exists_found_of_pending sha rules (eventsOf commits)
  have hopen : book.pending.lookup e.1 ≠ none := by
    intro hnone
    unfold OwedLedger.isPending at hpending
    rw [hkeeps.lookup, hnone] at hpending
    cases hpending
  obtain ⟨x, hx, hkind, hbid⟩ := hbook e.1 hopen
  have hsome := hall x hx hkind
  rw [hbid] at hsome
  obtain ⟨r, hr⟩ := Option.ne_none_iff_exists'.mp hsome
  obtain ⟨y, hy, hkind', hbid', rfl⟩ := hof e.1 r hr
  have hfits := hlog.fits y hy
  have hevent : (sidecarBlock found e).event =
      { kind := .found, bid := y.2.1.bid, credit := y.2.1.credit, payout := y.2.1.payout } := by
    unfold sidecarBlock FoundBlock.event composeCreditFromDelta
    rw [hr, if_pos rfl, hbid']
    rfl
  rw [hevent]
  refine ⟨by simp, ?_, hfits.credit, hfits.payout⟩
  have hsize := hfits.size
  rw [length_serialize_event] at hsize ⊢
  exact hsize

theorem Refines.restart (h : Refines sha rules chain n d a) :
    ∃ d', d.restart sha rules chain = some d' ∧ Refines sha rules chain n d' a ∧
      ∀ bid, d'.fin.found.lookup bid ≠ none → a.waits.lookup bid ≠ none := by
  have hlog := h.durable.sound.log.logged
  have hload : load (storeAfter chain (fun _ => true) d.fin.commits).img =
      some (kvAfter chain d.fin.commits) := by
    by_cases hne : d.fin.commits = []
    · rw [hne]
      rfl
    · rw [img_storeAfter_flushed hne rfl]
      exact load_image (kvFits_kvAfter h.durable.sound.log.sized)
  obtain ⟨st, hrecover, hhw, hcursor, hseq⟩ := @recover_kvAfter sha rules chain _ hlog
  obtain ⟨found, hfound, hof, hall⟩ := storedFound_kvAfter hlog chain
  have hledger := h.durable.mirrors.ledger
  rw [← hledger] at hrecover
  rw [h.durable.mirrors.cursor] at hcursor
  rw [h.durable.mirrors.hw] at hhw
  have hsidecars : sidecarsOf d.fin.commits = a.waits := by
    rw [h.durable.mirrors.sidecars, h.pending]
  have hopen : ∀ e ∈ a.waits.entries, d.fin.ledger.isPending e.1 = true := by
    intro e he
    rw [h.tracks.isPending_iff, Settlement.waiting, SortedMap.mem_entries_iff.mp he]
    rfl
  have hrestart : d.restart sha rules chain = some (a.waits.entries.foldl (reseedOne found)
      { fin := { BtcFinalizeDriver.ofRecovered d.fin.commits (st, d.fin.ledger) with
          steps := d.fin.steps } }) := by
    unfold BlockEventDriver.restart
    rw [hload, Option.bind_some, hrecover, Option.bind_some, storedSidecars_kvAfter,
      Option.bind_some,
      hfound, Option.map_some, hsidecars]
  have hbase : Reseeded { BtcFinalizeDriver.ofRecovered d.fin.commits (st, d.fin.ledger) with
      steps := d.fin.steps } [] { fin := { BtcFinalizeDriver.ofRecovered d.fin.commits
        (st, d.fin.ledger) with steps := d.fin.steps } } := by
    refine ⟨rfl, by simp [BtcFinalizeDriver.ofRecovered], ?_, fun _ => rfl, by simp, le_rfl⟩
    intro bid b hb
    cases hb
  have hnodup : (([] ++ a.waits.entries).map Prod.fst).Nodup := by
    rw [nil_append, List.Nodup, pairwise_map]
    exact a.waits.sorted.imp fun hlt => hlt.ne
  have hfits : ∀ e ∈ a.waits.entries, (sidecarBlock found e).event.Fits := by
    intro e he
    have hpending := hopen e he
    rw [hledger] at hpending
    exact fits_sidecarBlock hlog hpending hof hall
  have hseeded := hbase.foldl hnodup hopen hfits
  rw [nil_append] at hseeded
  refine ⟨_, hrestart, ?_⟩
  generalize a.waits.entries.foldl (reseedOne found) { fin := { BtcFinalizeDriver.ofRecovered
    d.fin.commits (st, d.fin.ledger) with steps := d.fin.steps } } = d' at hseeded ⊢
  have htracks := hseeded.tracks h.tracks rfl hcursor hhw rfl
  have hpending : d'.pending = a.waits := by
    ext1 bid
    apply Option.ext
    intro height
    rw [hseeded.pending, SortedMap.mem_entries_iff]
  refine ⟨⟨htracks, hpending, ?_, ?_⟩, ?_⟩
  · have hopened := @Sound.ofRecovered sha rules chain d.fin _ h.durable.sound
      d.fin.commits.length (st, d.fin.ledger) (by rw [take_length]; exact hrecover)
    rw [take_length] at hopened
    have hwaiting : d'.fin.waiting ≤ d.fin.waiting := by
      have hfew := length_le_waiting h.tracks
      have hmost := hseeded.waiting
      rw [← hcursor] at hfew
      exact hmost.trans hfew
    refine ⟨hopened.log.of_frame ?_ ?_ ?_ ?_, ?_, ?_⟩
    · rw [hseeded.frame]
    · rw [hseeded.frame]
    · rw [hseeded.frame]
    · exact fun bid b hb => ⟨(hseeded.block bid b hb).1, (hseeded.block bid b hb).2.1⟩
    · rw [htracks.cursor, ← h.tracks.cursor]
      exact h.durable.sound.below
    · have hwritten : d'.fin.written = d.fin.written := by
        rw [hseeded.frame]
        rfl
      rw [hwritten]
      exact (Nat.add_le_add_left hwaiting _).trans h.durable.sound.room
  · rw [hpending, ← h.pending]
    have hmirrors := h.durable.mirrors
    have hhw' : d'.fin.hw = d.fin.hw := by
      rw [hseeded.frame]
      exact hhw
    rw [hhw']
    apply hmirrors.of_frame
    · rw [hseeded.frame]
      rfl
    · rw [htracks.cursor, ← h.tracks.cursor]
    · rw [hseeded.frame]
      rfl
  · intro bid hbid
    obtain ⟨e, he, rfl⟩ := mem_map.mp ((hseeded.found bid).mp hbid)
    rw [SortedMap.mem_entries_iff.mp he]
    simp

/-! ## Runs -/

theorem found_onBlockFound (d : BlockEventDriver) (b : FoundBlock) (bid : Bid) :
    (d.onBlockFound sha rules b).fin.found.lookup bid = none ↔
      d.fin.found.lookup bid = none ∧
        ¬ (bid = b.bid ∧ d.pending.lookup b.bid = none ∧ b.height ≠ 0) := by
  unfold BlockEventDriver.onBlockFound
  by_cases hpending : d.pending.lookup b.bid = none
  · rw [if_neg (not_not.mpr hpending)]
    by_cases hheight : b.height = 0
    · rw [if_pos hheight]
      simp [hheight]
    rw [if_neg hheight]
    have hfin : ((d.putSidecar b.bid b.height).fin.onBlockFound sha rules
        { b with canonical := true }).found.lookup bid = none ↔
          d.fin.found.lookup bid = none ∧ bid ≠ b.bid := by
      unfold BtcFinalizeDriver.onBlockFound
      by_cases hold : (d.putSidecar b.bid b.height).fin.found.lookup b.bid = none
      · rw [if_neg (not_not.mpr hold)]
        dsimp only [remember]
        rw [SortedMap.lookup_insert]
        split
        next heq => simp [heq]
        next hne => simp [hne, BtcFinalizeDriver.writeEvent, putSidecar]
      rw [if_pos hold]
      constructor
      · intro hnone
        refine ⟨hnone, ?_⟩
        rintro rfl
        exact hold hnone
      · exact fun hboth => hboth.1
    dsimp only
    split
    · exact hfin.trans (by simp [hpending, hheight])
    · exact hfin.trans (by simp [hpending, hheight])
  · rw [if_pos hpending]
    simp [hpending]

theorem sameFound_onTip {isCanonical : U64 → Bid → Bool} {d' : BlockEventDriver}
    (h : d.onTip sha rules dConf isCanonical best id = some d') : SameFound d.fin d'.fin := by
  obtain ⟨fin, hstep, rfl⟩ := Option.map_eq_some_iff.mp h
  have hsame := sameFound_advance hstep
  rw [← foldl_map, reconcile_eq]
  obtain ⟨commits, heq, -⟩ := foldl_retire_eq
    ((fin.steps.drop d.fin.steps.length).map FinalizeStep.bid) { d with fin := fin }
  generalize ((fin.steps.drop d.fin.steps.length).map FinalizeStep.bid).foldl retire
    { d with fin := fin } = d₁ at heq ⊢
  obtain ⟨commits', heq', -⟩ := foldl_retire_eq ((d₁.pending.entries.filter fun e =>
    d₁.fin.ledger.isPending e.1 = false).map Prod.fst) d₁
  rw [heq', heq]
  exact hsame

section

variable {u v : BlockEventDriver} (hu : Refines sha rules chain n u a)
  (hv : Refines sha rules chain n v a)
include hu hv

/-- One operation of two nodes that track the same settlement, the tables of the second within those
of the first. -/
theorem Refines.step (hsub : ∀ bid, u.fin.found.lookup bid = none → v.fin.found.lookup bid = none)
    (hn : 2 * (n + 1) < 2 ^ 64) {op : BtcFinalizeDriver.Op} (hop : Orderly u op) :
    u.step sha rules dConf op = none ∧ v.step sha rules dConf op = none ∨
      ∃ u' v' a', u.step sha rules dConf op = some u' ∧
        v.step sha rules dConf op = some v' ∧
        Refines sha rules chain (n + 1) u' a' ∧ Refines sha rules chain (n + 1) v' a' ∧
        ∀ bid, u'.fin.found.lookup bid = none → v'.fin.found.lookup bid = none := by
  cases op with
  | found b =>
    right
    have hsettled : v.fin.ledger.settled = u.fin.ledger.settled := by
      ext bid
      rw [hv.tracks.keeps.settled, hu.tracks.keeps.settled]
    have hop' : Orderly v (.found b) := by
      refine ⟨hop.1, ?_⟩
      have hopens := hop.2
      unfold Opens at hopens ⊢
      rw [hv.pending, hv.tracks.cursor, hsettled]
      rw [hu.pending, hu.tracks.cursor] at hopens
      intro hpending hheight hnew
      obtain ⟨hfound, hlast⟩ := hopens hpending hheight hnew
      exact ⟨hsub b.bid hfound, hlast⟩
    refine ⟨_, _, a.found b, rfl, rfl, hu.found hn hop, hv.found hn hop', ?_⟩
    intro bid
    rw [found_onBlockFound, found_onBlockFound, hu.pending, hv.pending]
    exact fun hboth => ⟨hsub bid hboth.1, hboth.2⟩
  | orphaned bid =>
    right
    refine ⟨_, _, a.orphaned bid, rfl, rfl, hu.orphaned hn hop, hv.orphaned hn hop, ?_⟩
    intro x hx
    have hu' := sameFound_onBlockOrphaned sha rules u.fin bid none x
    have hv' := sameFound_onBlockOrphaned sha rules v.fin bid none x
    exact hv'.mpr (hsub x (hu'.mp hx))
  | advance isCanonical best id =>
    rcases @Refines.advance sha rules dConf chain n u a hu hn isCanonical best id with
      ⟨hnone, htip⟩ | ⟨u', a', hsome, htip, hu'⟩
    · rcases @Refines.advance sha rules dConf chain n v a hv hn isCanonical best id with
        ⟨hnone', -⟩ | ⟨v', a'', -, htip', -⟩
      · exact Or.inl ⟨hnone, hnone'⟩
      · rw [htip] at htip'
        cases htip'
    rcases @Refines.advance sha rules dConf chain n v a hv hn isCanonical best id with
      ⟨-, htip'⟩ | ⟨v', a'', hsome', htip', hv'⟩
    · rw [htip] at htip'
      cases htip'
    rw [htip, Option.some_inj] at htip'
    subst htip'
    refine Or.inr ⟨u', v', a', hsome, hsome', hu', hv', ?_⟩
    intro bid hbid
    exact (sameFound_onTip hsome' bid).mpr (hsub bid ((sameFound_onTip hsome bid).mp hbid))

/-- Nodes that track the same settlement have the same steps, ledger and cursor. -/
theorem Refines.sameOutcome : SameOutcome sha rules v u := by
  have hfinalized : v.fin.ledger.toFinalized = u.fin.ledger.toFinalized := by
    rw [hv.tracks.keeps.finalized, hu.tracks.keeps.finalized]
  constructor
  · rw [hv.tracks.steps, hu.tracks.steps]
  · rw [hv.tracks.cursor, hu.tracks.cursor]
  · rw [hfinalized]
  · rw [hv.tracks.keeps.pending, hu.tracks.keeps.pending]
  · ext bid
    rw [hv.tracks.keeps.settled, hu.tracks.keeps.settled]
  · rw [hfinalized]

end

section Runs

variable (sha rules dConf chain)

def OrderlyRun (u : BlockEventDriver) : List Act → Prop
  | [] => True
  | .restart :: acts => OrderlyRun u acts
  | .op op :: acts =>
    Orderly u op ∧ ∀ u', u.step sha rules dConf op = some u' → OrderlyRun u' acts

theorem sameOutcome_run {u v : BlockEventDriver} {acts : List Act}
    (hu : Refines sha rules chain n u a) (hv : Refines sha rules chain n v a)
    (hsub : ∀ bid, u.fin.found.lookup bid = none → v.fin.found.lookup bid = none)
    (hacts : OrderlyRun sha rules dConf u acts)
    (hn : 2 * (n + (withoutRestarts acts).length) < 2 ^ 64) :
    Option.Rel (SameOutcome sha rules) (run sha rules dConf chain v acts)
      (run sha rules dConf chain u (withoutRestarts acts)) := by
  induction acts generalizing n u v a with
  | nil => exact .some (hu.sameOutcome hv)
  | cons act acts ih =>
    cases act with
    | restart =>
      obtain ⟨v', hrestart, hv', hopen⟩ := hv.restart
      have hrun : run sha rules dConf chain v (.restart :: acts) =
          run sha rules dConf chain v' acts := by
        unfold run
        rw [foldlM_cons]
        dsimp only [BlockEventDriver.act]
        rw [hrestart]
        rfl
      rw [hrun]
      refine ih hu hv' ?_ hacts hn
      intro bid hbid
      by_contra hsome
      obtain ⟨b, hb, -⟩ := hu.tracks.live bid (hopen bid hsome)
      rw [hbid] at hb
      cases hb
    | op op =>
      have hlength : (withoutRestarts (.op op :: acts)).length =
          (withoutRestarts acts).length + 1 := rfl
      have hrun (d : BlockEventDriver) (acts : List Act) :
          run sha rules dConf chain d (.op op :: acts) =
            (d.step sha rules dConf op).bind fun d =>
              run sha rules dConf chain d acts := by
        unfold run
        rfl
      have hkeep : withoutRestarts (.op op :: acts) = .op op :: withoutRestarts acts := rfl
      rw [hkeep, hrun, hrun]
      rcases @Refines.step sha rules dConf chain n a u v hu hv hsub (by omega) op hacts.1 with
        ⟨hnone, hnone'⟩ | ⟨u', v', a', hsome, hsome', hu', hv', hsub'⟩
      · rw [hnone, hnone']
        exact .none
      · rw [hsome, hsome', Option.bind_some, Option.bind_some]
        exact ih hu' hv' hsub' (hacts.2 u' hsome) (by omega)

end Runs

theorem refines_fresh : Refines sha rules chain 0 {} {} := by
  have hsound : Sound chain (2 * 0) ({} : BtcFinalizeDriver) :=
    Reached.sound (.fresh : Reached sha rules 0 chain 0 {}) (by decide)
  refine ⟨⟨@OwedLedger.keeps_after sha rules [], fun _ => ⟨fun _ => rfl, fun _ => rfl⟩,
    rfl, rfl, rfl, ?_, ?_, ?_, ?_⟩, rfl, hsound, rfl, rfl, rfl, rfl⟩
  · intro bid hbid
    exact absurd rfl hbid
  · intro bid h hlookup
    cases hlookup
  · intro x _
    exact List.Pairwise.nil
  · intro x bid hbid
    cases hbid

/-- However restarts are put between the operations, the run performs the same FINALIZE steps and
ends with the same ledger and cursor. -/
theorem restarts_transparent (acts : List Act) (hacts : OrderlyRun sha rules dConf {} acts)
    (hn : 2 * (withoutRestarts acts).length < 2 ^ 64) :
    Option.Rel (SameOutcome sha rules) (run sha rules dConf chain {} acts)
      (run sha rules dConf chain {} (withoutRestarts acts)) :=
  sameOutcome_run sha rules dConf chain refines_fresh refines_fresh (fun _ h => h) hacts
    (by omega)

def blockNamed (bid : Bid) : FoundBlock := { bid := bid, height := 1 }

theorem fits_blockNamed (c : Byte) : (blockNamed [c]).event.Fits := by
  refine ⟨by simp [FoundBlock.event], ?_, ?_, ?_⟩
  · rw [length_serialize_event]
    show 34 + 1 + 40 * 0 + 40 * 0 < 2 ^ 64
    decide
  · intro row hrow
    cases hrow
  · intro row hrow
    cases hrow

/-- Two blocks of a height are found in the order of their ids, around a restart, and finalized. -/
def twoFinalized : List Act :=
  [.op (.found (blockNamed [97])), .restart, .op (.found (blockNamed [98])), .restart,
    .op (.advance (fun _ _ => true) 7 0)]

theorem restarts_transparent_two :
    Option.Rel (SameOutcome Sha256.sha256d {}) (run Sha256.sha256d {} 6 0 {} twoFinalized)
      (run Sha256.sha256d {} 6 0 {} (withoutRestarts twoFinalized)) := by
  apply restarts_transparent twoFinalized
  · refine ⟨⟨fits_blockNamed 97, ?_⟩, ?_⟩
    · intro _ _ _
      exact ⟨rfl, fun _ bid hbid => by cases hbid⟩
    intro u' hu'
    cases hu'
    refine ⟨⟨fits_blockNamed 98, ?_⟩, fun _ _ => ⟨trivial, fun _ _ => trivial⟩⟩
    intro _ _ _
    refine ⟨by decide +kernel, ?_⟩
    intro _ bid hbid
    have hpending : (({} : BlockEventDriver).onBlockFound Sha256.sha256d {}
        (blockNamed [97])).pending = SortedMap.insert ∅ [97] 1 := by decide +kernel
    rw [hpending, SortedMap.lookup_insert] at hbid
    split at hbid
    next heq =>
      rw [heq]
      decide
    · cases hbid
  · decide

theorem map_eq_of_rel {β : Type} {x y : Option BlockEventDriver} {f : BlockEventDriver → β}
    (h : Option.Rel (SameOutcome sha rules) x y)
    (hf : ∀ v u, SameOutcome sha rules v u → f v = f u) : x.map f = y.map f := by
  cases h with
  | some hsame => exact congrArg some (hf _ _ hsame)
  | none => rfl

/-- A block that is found again after it was orphaned is ignored by a node that stayed up and opened
by one that was restarted; and blocks of one height are finalized in the order they were found in by
the one and in the order of their ids by the other. -/
theorem restarted_node_differs :
    ¬ Option.Rel (SameOutcome (fun _ => 0) {})
        (run (fun _ => 0) {} 6 0 {} [.op (.found (blockNamed [97])), .op (.orphaned [97]), .restart,
          .op (.found (blockNamed [97]))])
        (run (fun _ => 0) {} 6 0 {} [.op (.found (blockNamed [97])), .op (.orphaned [97]),
          .op (.found (blockNamed [97]))]) ∧
      ¬ Option.Rel (SameOutcome (fun _ => 0) {})
        (run (fun _ => 0) {} 6 0 {} [.op (.found (blockNamed [98])), .op (.found (blockNamed [97])),
          .restart, .op (.advance (fun _ _ => true) 7 0)])
        (run (fun _ => 0) {} 6 0 {} [.op (.found (blockNamed [98])), .op (.found (blockNamed [97])),
          .op (.advance (fun _ _ => true) 7 0)]) := by
  constructor
  · intro h
    have hpending := map_eq_of_rel (f := fun d => d.fin.ledger.isPending [97]) h fun v u hsame => by
      dsimp only [OwedLedger.isPending]
      rw [hsame.pending]
    revert hpending
    decide +kernel
  intro h
  have hsteps := map_eq_of_rel (f := fun d => d.fin.steps) h fun v u hsame => hsame.steps
  revert hsteps
  decide +kernel

end BlockEventDriver

end C2Pool.V37.Btc
