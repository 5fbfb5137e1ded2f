import C2Pool.V37.BtcLog

/-! # Crashes of the finalize driver

Every event and cursor that the driver commits keeps the log in order, so that
the image a crash leaves on disk replays to a prefix of the log.  The loop over
the heights is the exception: at the last height of 64 bits its counter wraps
and heights that the cursor has passed are stepped again.
-/

namespace C2Pool.V37.Btc

open List

namespace BtcFinalizeDriver

variable {sha : List Byte → Bytes32} {rules : OwedLedgerRules} {dConf : U64} {chain : U32}
  {isCanonical : U64 → Bid → Bool} {d d' : BtcFinalizeDriver} {b : FoundBlock} {best top : U64}
  {room n rounds : Nat} {height : U64}

/-! ## The log of a driver -/

/-- The driver numbers its events, and its cursor is the largest that it has committed. -/
structure KeepsLog (chain : U32) (d : BtcFinalizeDriver) : Prop where
  logged : Logged d.commits
  sized : ∀ c ∈ d.commits, c.Sized chain
  seq : d.seq.val = (eventsOf d.commits).length
  cursors : ∀ c, .cursor c ∈ d.commits → c ≤ d.cursorH
  found : ∀ bid b, d.found.lookup bid = some b → b.bid = bid ∧ b.event.Fits

def written (d : BtcFinalizeDriver) : Nat := (eventsOf d.commits).length

variable (sha rules) in
theorem written_writeEvent (d : BtcFinalizeDriver) (e : SettleEvent) (stepped : Option U64) :
    (d.writeEvent sha rules e stepped).written = d.written + 1 := by
  unfold written writeEvent
  rw [eventsOf_append, length_append]
  rfl

namespace KeepsLog

variable (sha rules) in
theorem writeEvent (h : KeepsLog chain d) {e : SettleEvent} (he : e.Fits) {stepped : Option U64}
    (hroom : d.written + 1 < 2 ^ 64) (hstepped : ∀ x, stepped = some x → d.cursorH < x) :
    KeepsLog chain (d.writeEvent sha rules e stepped) := by
  have hnext : (d.seq + 1).val = d.written + 1 := by
    rw [FinalizeDriver.succ_val (by rw [h.seq]; exact hroom), h.seq]
    rfl
  have hevents : eventsOf (d.commits ++ [.event (d.seq + 1) e stepped]) =
      eventsOf d.commits ++ [(d.seq + 1, e, stepped)] := by
    rw [eventsOf_append]
    rfl
  have hmem : ∀ x ∈ eventsOf d.commits ++ [(d.seq + 1, e, stepped)],
      x ∈ eventsOf d.commits ∨ x = (d.seq + 1, e, stepped) := by
    intro x hx
    simpa using hx
  constructor
  · show Logged (d.commits ++ [.event (d.seq + 1) e stepped])
    constructor
    · intro i x hx
      rw [hevents] at hx
      rcases Nat.lt_trichotomy i (eventsOf d.commits).length with hlt | heq | hgt
      · rw [getElem?_append_left hlt] at hx
        exact h.logged.numbered i x hx
      · rw [heq, getElem?_append_right le_rfl] at hx
        have hx' : (d.seq + 1, e, stepped) = x := by simpa using hx
        rw [← hx', heq]
        exact hnext
      · rw [getElem?_append_right hgt.le, getElem?_eq_none (by simp; omega)] at hx
        cases hx
    · intro x hx
      rw [hevents] at hx
      rcases hmem x hx with hx | rfl
      · exact h.logged.fits x hx
      · exact he
    · intro x hx height hheight
      rw [hevents] at hx
      rcases hmem x hx with hx | rfl
      · exact h.logged.positive x hx height hheight
      · exact lt_of_le_of_lt (Fin.zero_le _) (hstepped height hheight)
    · rw [pairwise_append]
      refine ⟨h.logged.stepped, pairwise_singleton _ _, ?_⟩
      intro a ha b hb c seq e' height hcursor hevent
      subst hcursor
      rw [mem_singleton.mp hb] at hevent
      cases hevent
      exact (h.cursors c ha).trans_lt (hstepped height rfl)
    · rw [pairwise_append]
      refine ⟨h.logged.rising, pairwise_singleton _ _, ?_⟩
      intro a _ b hb x y _ hy
      rw [mem_singleton.mp hb] at hy
      cases hy
  · intro c hc
    rcases mem_append.mp hc with hc | hc
    · exact h.sized c hc
    · rw [mem_singleton.mp hc]
      exact sized_event chain _ he _
  · show (d.seq + 1).val = _
    rw [hnext, ← written_writeEvent sha rules d e stepped]
    rfl
  · intro c hc
    rcases mem_append.mp hc with hc | hc
    · exact h.cursors c hc
    · cases mem_singleton.mp hc
  · exact h.found

theorem of_frame (h : KeepsLog chain d) (hcommits : d'.commits = d.commits)
    (hseq : d'.seq = d.seq) (hcursor : d'.cursorH = d.cursorH)
    (hfound : ∀ bid b, d'.found.lookup bid = some b → b.bid = bid ∧ b.event.Fits) :
    KeepsLog chain d' where
  logged := hcommits ▸ h.logged
  sized := hcommits ▸ h.sized
  seq := by rw [hseq, hcommits]; exact h.seq
  cursors := by rw [hcommits, hcursor]; exact h.cursors
  found := hfound

end KeepsLog

theorem fits_orphanEvent (h : b.event.Fits) : (orphanEvent b.bid b.payout).Fits := by
  have hsize := h.size
  rw [length_serialize_event] at hsize
  simp only [FoundBlock.event] at hsize
  refine ⟨by simp [orphanEvent], ?_, ?_, h.payout⟩
  · rw [length_serialize_event]
    simp only [orphanEvent]
    have hempty : (∅ : Amounts).entries.length = 0 := rfl
    omega
  · intro row hrow
    cases hrow

theorem fits_finalizeEvent (h : b.event.Fits) (binHeight : U64) :
    (finalizeEvent b.bid binHeight).Fits := by
  have hsize := h.size
  rw [length_serialize_event] at hsize
  simp only [FoundBlock.event] at hsize
  refine ⟨by simp [finalizeEvent], ?_, ?_, ?_⟩
  · rw [length_serialize_event]
    simp only [finalizeEvent]
    have hempty : (∅ : Amounts).entries.length = 0 := rfl
    omega
  · intro row hrow
    cases hrow
  · intro row hrow
    cases hrow

/-- What a step leaves alone, and how many events it may write. -/
structure Writes (n : Nat) (d d' : BtcFinalizeDriver) : Prop where
  cursorH : d'.cursorH = d.cursorH
  byHeight : d'.byHeight = d.byHeight
  written : d'.written ≤ d.written + n

theorem KeepsLog.onBlockOrphaned (h : KeepsLog chain d) {bid : Bid} {stepped : Option U64}
    (hroom : d.written + 1 < 2 ^ 64) (hstepped : ∀ x, stepped = some x → d.cursorH < x)
    (hfits : d.found.lookup bid = none → (orphanEvent bid ∅).Fits) :
    KeepsLog chain (d.onBlockOrphaned sha rules bid stepped) ∧
      Writes 1 d (d.onBlockOrphaned sha rules bid stepped) := by
  unfold BtcFinalizeDriver.onBlockOrphaned
  cases hfound : d.found.lookup bid with
  | none =>
    exact ⟨h.writeEvent sha rules (hfits hfound) hroom hstepped, rfl, rfl,
      (written_writeEvent sha rules d _ _).le⟩
  | some b =>
    obtain ⟨hbid, hb⟩ := h.found bid b hfound
    have hevent : (orphanEvent bid b.payout).Fits := hbid ▸ fits_orphanEvent hb
    have hwrite := h.writeEvent sha rules hevent hroom hstepped
    refine ⟨hwrite.of_frame rfl rfl rfl ?_, rfl, rfl, (written_writeEvent sha rules d _ _).le⟩
    intro x bx hx
    rw [SortedMap.lookup_insert] at hx
    split at hx
    next hxbid =>
      cases hx
      exact ⟨hbid.trans hxbid.symm, hb⟩
    · exact h.found x bx hx

variable (sha rules dConf isCanonical) in
theorem KeepsLog.stepBid (h : KeepsLog chain d) (hheight : d.cursorH < height)
    (hroom : d.written + 1 < 2 ^ 64) (bid : Bid) :
    KeepsLog chain (stepBid sha rules dConf isCanonical height d bid) ∧
      Writes 1 d (stepBid sha rules dConf isCanonical height d bid) := by
  have hstay : KeepsLog chain d ∧ Writes 1 d d := ⟨h, rfl, rfl, Nat.le_succ _⟩
  have hstepped : ∀ x, some height = some x → d.cursorH < x := by
    intro x hx
    cases hx
    exact hheight
  unfold BtcFinalizeDriver.stepBid
  cases hfound : d.found.lookup bid with
  | none => exact hstay
  | some b =>
    dsimp only
    obtain ⟨hbid, hb⟩ := h.found bid b hfound
    split
    · exact hstay
    split
    · exact h.onBlockOrphaned hroom hstepped fun hnone => by rw [hfound] at hnone; cases hnone
    split
    · exact hstay
    have hevent : (finalizeEvent bid (height + dConf)).Fits := hbid ▸ fits_finalizeEvent hb _
    have hwrite := h.writeEvent sha rules hevent hroom hstepped
    exact ⟨hwrite.of_frame rfl rfl rfl hwrite.found, rfl, rfl,
      (written_writeEvent sha rules d _ _).le⟩

variable (sha rules dConf isCanonical) in
theorem KeepsLog.foldl_stepBid (h : KeepsLog chain d) (hheight : d.cursorH < height)
    (bids : List Bid) (hroom : d.written + bids.length < 2 ^ 64) :
    KeepsLog chain (bids.foldl (BtcFinalizeDriver.stepBid sha rules dConf isCanonical height) d) ∧
      Writes bids.length d
        (bids.foldl (BtcFinalizeDriver.stepBid sha rules dConf isCanonical height) d) := by
  induction bids generalizing d with
  | nil => exact ⟨h, rfl, rfl, le_rfl⟩
  | cons bid bids ih =>
    rw [length_cons] at hroom ⊢
    obtain ⟨hkeeps, hone⟩ := h.stepBid sha rules dConf isCanonical hheight (by omega) bid
    have hmore := hone.written
    obtain ⟨hall, hrest⟩ := ih hkeeps (by rw [hone.cursorH]; exact hheight) (by omega)
    refine ⟨hall, hrest.cursorH.trans hone.cursorH, hrest.byHeight.trans hone.byHeight, ?_⟩
    have := hrest.written
    rw [foldl_cons]
    omega

/-! ## Heights -/

def waiting (d : BtcFinalizeDriver) : Nat :=
  d.byHeight.sum fun h bids => if d.cursorH < h then bids.length else 0

theorem waiting_stepHeight {d d' : BtcFinalizeDriver} (hby : d'.byHeight = d.byHeight)
    (hcursor : d'.cursorH.val = d.cursorH.val + 1) :
    d'.waiting + ((d.byHeight.lookup d'.cursorH).getD []).length = d.waiting := by
  have hsame : ∀ (m : SortedMap U64 (List Bid)), m.lookup d'.cursorH = none →
      (m.sum fun h bids => if d'.cursorH < h then bids.length else 0) =
        m.sum fun h bids => if d.cursorH < h then bids.length else 0 := by
    intro m hnone
    apply SortedMap.sum_congr
    intro h bids hlookup
    have hne : h ≠ d'.cursorH := by
      rintro rfl
      rw [hnone] at hlookup
      cases hlookup
    have hval : h.val ≠ d'.cursorH.val := fun heq => hne (Fin.ext heq)
    have hiff : d'.cursorH < h ↔ d.cursorH < h := by
      rw [Fin.lt_def, Fin.lt_def]
      omega
    simp only [hiff]
  unfold waiting
  rw [hby]
  cases hlookup : d.byHeight.lookup d'.cursorH with
  | none =>
    rw [hsame _ hlookup]
    rfl
  | some bids =>
    have hbelow : d.cursorH < d'.cursorH := by
      rw [Fin.lt_def]
      omega
    rw [SortedMap.sum_of_split _ hlookup, SortedMap.sum_of_split _ hlookup,
      hsame _ (by rw [SortedMap.lookup_erase, if_pos rfl]), if_neg (lt_irrefl _), if_pos hbelow]
    show 0 + _ + bids.length = bids.length + _
    omega

theorem waiting_remember (d : BtcFinalizeDriver) (b : FoundBlock) :
    (d.remember b).waiting ≤ d.waiting + if d.cursorH < b.height then 1 else 0 := by
  unfold waiting remember
  rw [SortedMap.sum_insert]
  cases hlookup : d.byHeight.lookup b.height with
  | none =>
    rw [SortedMap.erase_of_lookup_none hlookup]
    simp only [Option.getD_none, nil_append, length_singleton]
    split <;> omega
  | some bids =>
    rw [SortedMap.sum_of_split _ hlookup]
    simp only [Option.getD_some, length_append, length_singleton]
    split <;> omega

/-- The log, with room for what still waits. -/
structure Sound (chain : U32) (room : Nat) (d : BtcFinalizeDriver) : Prop where
  log : KeepsLog chain d
  below : d.cursorH.val < 2 ^ 64 - 1
  room : d.written + d.waiting ≤ room

theorem KeepsLog.commit (h : KeepsLog chain d) {c : Commit}
    (hc : ∀ seq e stepped, c ≠ .event seq e stepped) (hsized : c.Sized chain)
    (hcommits : d'.commits = d.commits ++ [c]) (hseq : d'.seq = d.seq) (hfound : d'.found = d.found)
    (hcursor : d.cursorH ≤ d'.cursorH) (hnew : ∀ x, c = .cursor x → x = d'.cursorH) :
    KeepsLog chain d' where
  logged := by
    rw [hcommits]
    apply h.logged.concat_other hc
    intro x y hx hy
    rw [hnew y hy]
    exact (h.cursors x hx).trans hcursor
  sized := by
    rw [hcommits]
    intro x hx
    rcases mem_append.mp hx with hx | hx
    · exact h.sized x hx
    · rw [mem_singleton.mp hx]
      exact hsized
  seq := by
    rw [hcommits, eventsOf_concat_other _ hc, hseq]
    exact h.seq
  cursors := by
    rw [hcommits]
    intro x hx
    rcases mem_append.mp hx with hx | hx
    · exact (h.cursors x hx).trans hcursor
    · exact (hnew x (mem_singleton.mp hx).symm).le
  found := by
    rw [hfound]
    exact h.found

theorem KeepsLog.persistCursor (h : KeepsLog chain d) (hheight : d.cursorH < height) :
    KeepsLog chain ({ d with cursorH := height }.persistCursor) := by
  refine h.commit (by simp) (sized_cursor chain height) rfl rfl rfl hheight.le ?_
  intro x hx
  cases hx
  rfl

theorem KeepsLog.persistHw (h : KeepsLog chain d) : KeepsLog chain d.persistHw :=
  h.commit (by simp) (sized_hw chain _) rfl rfl rfl le_rfl (by simp)

theorem written_persistHw (d : BtcFinalizeDriver) : d.persistHw.written = d.written := by
  unfold written persistHw
  rw [eventsOf_concat_other]
  simp

theorem written_persistCursor (d : BtcFinalizeDriver) (height : U64) :
    ({ d with cursorH := height }.persistCursor).written = d.written := by
  unfold written persistCursor
  rw [eventsOf_concat_other]
  simp

variable (sha rules dConf isCanonical) in
theorem Sound.stepHeight (h : Sound chain room d) (hroom : room < 2 ^ 64)
    (hheight : height.val = d.cursorH.val + 1) (hlast : height.val < 2 ^ 64 - 1) :
    Sound chain room (d.stepHeight sha rules dConf isCanonical height) := by
  have habove : d.cursorH < height := by
    rw [Fin.lt_def]
    omega
  have hbound := h.room
  have hfew : ((d.byHeight.lookup height).getD []).length ≤ d.waiting := by
    have hwait := @waiting_stepHeight d { d with cursorH := height } rfl hheight
    dsimp only at hwait
    omega
  obtain ⟨hkeeps, hwrites⟩ := h.log.foldl_stepBid sha rules dConf isCanonical habove
    ((d.byHeight.lookup height).getD []) (by omega)
  have hwait := @waiting_stepHeight d (d.stepHeight sha rules dConf isCanonical height)
    hwrites.byHeight hheight
  have hwritten : (d.stepHeight sha rules dConf isCanonical height).written ≤
      d.written + ((d.byHeight.lookup height).getD []).length := by
    unfold BtcFinalizeDriver.stepHeight
    rw [written_persistCursor]
    exact hwrites.written
  refine ⟨?_, hlast, ?_⟩
  · apply hkeeps.persistCursor
    rw [hwrites.cursorH]
    exact habove
  have hcursor : (d.stepHeight sha rules dConf isCanonical height).cursorH = height := rfl
  rw [hcursor] at hwait
  omega

theorem cursorH_stepHeight (d : BtcFinalizeDriver) (height : U64) :
    (d.stepHeight sha rules dConf isCanonical height).cursorH = height := rfl

variable (sha rules dConf isCanonical) in
theorem Sound.stepHeights {room : Nat} (h : Sound chain room d) (hroom : room < 2 ^ 64)
    {frontier : U64} (hfrontier : frontier.val < 2 ^ 64 - 1) (rounds : Nat)
    (hheight : height.val = d.cursorH.val + 1) :
    Sound chain room
      (stepHeights sha rules dConf isCanonical frontier rounds height d).1 := by
  induction rounds generalizing d height with
  | zero => exact h
  | succ rounds ih =>
    unfold BtcFinalizeDriver.stepHeights
    by_cases hle : height ≤ frontier
    · rw [if_pos hle]
      have hlast : height.val < 2 ^ 64 - 1 := lt_of_le_of_lt hle hfrontier
      apply ih (h.stepHeight sha rules dConf isCanonical hroom hheight hlast)
      rw [cursorH_stepHeight, FinalizeDriver.succ_val (by omega)]
    · rw [if_neg hle]
      exact h

/-- The records of the call have 64-bit sizes and amounts, and its tip does not bury the last height
of 64 bits. -/
def Tame (dConf : U64) : Op → Prop
  | .found b => b.event.Fits
  | .orphaned bid => (orphanEvent bid ∅).Fits
  | .advance _ best _ => ¬ (dConf = 0 ∧ best.val = 2 ^ 64 - 1)

theorem Sound.onBlockFound (h : Sound chain (2 * n) d) (hn : 2 * (n + 1) < 2 ^ 64)
    (hb : b.event.Fits) : Sound chain (2 * (n + 1)) (d.onBlockFound sha rules b) := by
  have hbound := h.room
  unfold BtcFinalizeDriver.onBlockFound
  split
  · exact ⟨h.log, h.below, by omega⟩
  have hwrite := @KeepsLog.writeEvent sha rules chain d h.log b.event hb none (by omega)
    (by simp)
  refine ⟨hwrite.of_frame rfl rfl rfl ?_, h.below, ?_⟩
  · intro bid b' hlookup
    simp only [remember] at hlookup
    rw [SortedMap.lookup_insert] at hlookup
    split at hlookup
    next hbid =>
      cases hlookup
      exact ⟨hbid.symm, hb⟩
    · exact h.log.found bid b' hlookup
  have hwritten := written_writeEvent sha rules d b.event none
  have hwaiting := waiting_remember (d.writeEvent sha rules b.event none) b
  have hsame : (d.writeEvent sha rules b.event none).waiting = d.waiting := rfl
  show (d.writeEvent sha rules b.event none).written + _ ≤ _
  split at hwaiting <;> omega

theorem Sound.onBlockOrphaned (h : Sound chain (2 * n) d) (hn : 2 * (n + 1) < 2 ^ 64)
    {bid : Bid} (hfits : (orphanEvent bid ∅).Fits) :
    Sound chain (2 * (n + 1)) (d.onBlockOrphaned sha rules bid none) := by
  have hbound := h.room
  obtain ⟨hkeeps, hwrites⟩ := @KeepsLog.onBlockOrphaned sha rules chain d h.log bid none
    (by omega) (by simp) fun _ => hfits
  have hwritten := hwrites.written
  have hwaiting : (d.onBlockOrphaned sha rules bid none).waiting = d.waiting := by
    unfold waiting
    rw [hwrites.byHeight, hwrites.cursorH]
  refine ⟨hkeeps, ?_, by omega⟩
  rw [hwrites.cursorH]
  exact h.below

theorem waiting_persistHw (d : BtcFinalizeDriver) : d.persistHw.waiting = d.waiting := rfl

theorem Sound.persistHw {room : Nat} (h : Sound chain room d) : Sound chain room d.persistHw := by
  refine ⟨h.log.persistHw, h.below, ?_⟩
  rw [written_persistHw, waiting_persistHw]
  exact h.room

theorem Sound.advanceToTip {room : Nat} (h : Sound chain room d) (hroom : room < 2 ^ 64)
    (hbest : ¬ (dConf = 0 ∧ best.val = 2 ^ 64 - 1)) (id : Bytes32) (rounds : Nat) :
    Sound chain room (d.advanceToTip sha rules dConf isCanonical rounds best id).1 := by
  have hhw : ∀ hw, Sound chain room { d with hw := hw } := fun hw =>
    ⟨h.log.of_frame rfl rfl rfl h.log.found, h.below, h.room⟩
  have hfrontier : (if dConf ≤ best then best - dConf else 0 : U64).val < 2 ^ 64 - 1 := by
    split
    next hle =>
      rw [Fin.sub_val_of_le hle]
      have hbound := best.isLt
      by_contra hlast
      apply hbest
      constructor
      · apply Fin.ext
        show dConf.val = 0
        omega
      · omega
    · decide
  have hnext : (d.cursorH + 1).val = d.cursorH.val + 1 := by
    have hbelow := h.below
    exact FinalizeDriver.succ_val (by omega)
  unfold BtcFinalizeDriver.advanceToTip
  dsimp only
  generalize (if dConf ≤ best then best - dConf else 0 : U64) = frontier at hfrontier ⊢
  have hloop (hw : SettleHW) := (hhw hw).stepHeights sha rules dConf isCanonical hroom
    hfrontier rounds hnext
  split
  · split
    · exact (hloop _).persistHw
    · exact hloop _
  · exact (hhw _).persistHw

variable (sha rules) in
theorem Sound.attempt (h : Sound chain (2 * n) d) (hn : 2 * (n + 1) < 2 ^ 64) {op : Op}
    (hop : Tame dConf op) (rounds : Nat) :
    Sound chain (2 * (n + 1)) (d.attempt sha rules dConf rounds op).1 := by
  cases op with
  | found b => exact h.onBlockFound hn hop
  | orphaned bid => exact h.onBlockOrphaned hn hop
  | advance isCanonical best id =>
    have hmore : Sound chain (2 * (n + 1)) d := ⟨h.log, h.below, by have := h.room; omega⟩
    exact hmore.advanceToTip hn hop id rounds

/-- The drivers that `n` operations reach from a fresh store, with any crashes in between: a crash
stops an operation at some round, and the next driver is opened on the map after some first
commits. -/
inductive Reached (sha : List Byte → Bytes32) (rules : OwedLedgerRules) (dConf : U64)
    (chain : U32) : Nat → BtcFinalizeDriver → Prop where
  | fresh : Reached sha rules dConf chain 0 {}
  | op {n : Nat} {d d' : BtcFinalizeDriver} (op : Op) :
      Reached sha rules dConf chain n d → Tame dConf op →
      d.step sha rules dConf op = some d' → Reached sha rules dConf chain (n + 1) d'
  | reopen {n : Nat} {d : BtcFinalizeDriver} (op : Op) (rounds j : Nat)
      {st : RecoveredState × OwedLedger} :
      Reached sha rules dConf chain n d → Tame dConf op →
      recover sha rules chain
        (kvAfter chain ((d.attempt sha rules dConf rounds op).1.commits.take j)) = some st →
      Reached sha rules dConf chain (n + 1)
        (ofRecovered ((d.attempt sha rules dConf rounds op).1.commits.take j) st)

theorem Sound.ofRecovered {room : Nat} (h : Sound chain room d) {j : Nat}
    {st : RecoveredState × OwedLedger}
    (hrecover : recover sha rules chain (kvAfter chain (d.commits.take j)) = some st) :
    Sound chain room (ofRecovered (d.commits.take j) st) := by
  have hlog := h.log.logged.take j
  obtain ⟨st', hst, -, hcursor, hseq⟩ := @recover_kvAfter sha rules chain _ hlog
  rw [hrecover, Option.some_inj] at hst
  subst hst
  have hfew := (eventsOf_take_isPrefix d.commits j).length_le
  refine ⟨⟨hlog, ?_, ?_, ?_, ?_⟩, ?_, ?_⟩
  · exact fun c hc => h.log.sized c (mem_of_mem_take hc)
  · show st'.maxEventSeq.val = _
    rw [hseq]
    exact Nat.mod_eq_of_lt hlog.length_lt
  · intro c hc
    show c ≤ st'.finalizeCursorHeight
    rw [hcursor]
    exact hlog.le_lastCursor hc
  · intro bid b hb
    cases hb
  · show st'.finalizeCursorHeight.val < _
    rw [hcursor]
    rcases lastCursor_mem (d.commits.take j) with hzero | hmem
    · rw [hzero]
      decide
    · exact lt_of_le_of_lt (h.log.cursors _ (mem_of_mem_take hmem)) h.below
  · have hbound := h.room
    show (eventsOf (d.commits.take j)).length + 0 ≤ room
    unfold written at hbound
    omega

theorem Reached.sound (h : Reached sha rules dConf chain n d)
    (hn : 2 * n < 2 ^ 64) : Sound chain (2 * n) d := by
  induction h with
  | fresh =>
    refine ⟨⟨logged_nil, by simp, rfl, by simp, by simp⟩, by decide, ?_⟩
    decide
  | op op hreached hop hstep ih =>
    have hattempt := (ih (by omega)).attempt sha rules hn hop
      (2 ^ 64 + 1)
    unfold BtcFinalizeDriver.step at hstep
    dsimp only at hstep
    split at hstep
    · cases hstep
      exact hattempt
    · cases hstep
  | reopen op rounds j hreached hop hrecover ih =>
    exact ((ih (by omega)).attempt sha rules hn hop rounds).ofRecovered hrecover

/-- Whatever flushes fail and wherever the driver crashes, the image on disk replays to a prefix of
the log. -/
theorem log_replays_prefix {n : Nat} (h : Reached sha rules dConf chain n d)
    (hn : 2 * (n + 1) < 2 ^ 64) {op : Op} (hop : Tame dConf op) (rounds k : Nat)
    (oks : Nat → Bool) :
    ReplaysPrefix sha rules chain ((d.attempt sha rules dConf rounds op).1.commits.take k)
      (storeAfter chain oks ((d.attempt sha rules dConf rounds op).1.commits.take k)).img := by
  have hsound := (h.sound (by omega)).attempt sha rules hn hop rounds
  exact (hsound.log.logged.take k).replaysPrefix
    (fun c hc => hsound.log.sized c (mem_of_mem_take hc)) oks

def blockAtZero : FoundBlock := { bid := [98], height := 0 }

theorem fits_blockAtZero : blockAtZero.event.Fits := by
  refine ⟨?_, ?_, ?_, ?_⟩
  · intro code
    simp [FoundBlock.event]
  · decide +kernel
  · intro row hrow
    cases hrow
  · intro row hrow
    cases hrow

/-- A block is found and a tip seen; the flush of the FOUND event alone succeeds. -/
theorem log_replays_prefix_found :
    let d := ({} : BtcFinalizeDriver).onBlockFound (fun _ => 0) {} blockAtZero
    let op := Op.advance (fun _ _ => true) 9 0
    ReplaysPrefix (fun _ => 0) {} 0 ((d.attempt (fun _ => 0) {} 6 5 op).1.commits.take 4)
      (storeAfter 0 (fun i => decide (i = 0))
        ((d.attempt (fun _ => 0) {} 6 5 op).1.commits.take 4)).img :=
  log_replays_prefix (.op (.found blockAtZero) .fresh fits_blockAtZero rfl) (by decide)
    (show Tame 6 (.advance (fun _ _ => true) 9 0) from fun h => absurd h.1 (by decide)) 5 4 _

/-! ## The last height -/

variable (sha rules dConf isCanonical) in
theorem stepHeights_idle (frontier : U64) (r n : Nat) {d : BtcFinalizeDriver}
    (hn : height.val + n ≤ frontier.val + 1)
    (hidle : ∀ x : U64, height ≤ x → x.val < height.val + n → d.byHeight.lookup x = none) :
    ∃ c cs, cs.length = n ∧ (∀ x ∈ cs, ∃ y, x = Commit.cursor y) ∧
      stepHeights sha rules dConf isCanonical frontier (n + r) height d =
        stepHeights sha rules dConf isCanonical frontier r
          (Fin.ofNat (2 ^ 64) (height.val + n))
          { d with cursorH := c, commits := d.commits ++ cs } := by
  induction n generalizing height d with
  | zero =>
    refine ⟨d.cursorH, [], rfl, by simp, ?_⟩
    have hheight : Fin.ofNat (2 ^ 64) (height.val + 0) = height :=
      Fin.ext (Nat.mod_eq_of_lt height.isLt)
    rw [hheight, append_nil, Nat.zero_add]
  | succ n ih =>
    have hle : height ≤ frontier := by
      rw [Fin.le_def]
      omega
    have hnext : (height + 1).val = (height.val + 1) % 2 ^ 64 := Fin.val_add height 1
    have hstep : d.stepHeight sha rules dConf isCanonical height =
        { d with cursorH := height, commits := d.commits ++ [.cursor height] } := by
      unfold BtcFinalizeDriver.stepHeight
      rw [hidle height le_rfl (by omega)]
      rfl
    obtain ⟨c, cs, hlength, hcursors, hrest⟩ := @ih (height + 1)
      { d with cursorH := height, commits := d.commits ++ [.cursor height] } (by omega) (by
        intro x hx hlt
        rw [Fin.le_def] at hx
        exact hidle x (by rw [Fin.le_def]; omega) (by omega))
    refine ⟨c, .cursor height :: cs, by rw [length_cons, hlength], ?_, ?_⟩
    · intro x hx
      rcases mem_cons.mp hx with rfl | hx
      · exact ⟨height, rfl⟩
      · exact hcursors x hx
    have hheight : Fin.ofNat (2 ^ 64) ((height + 1).val + n) =
        Fin.ofNat (2 ^ 64) (height.val + (n + 1)) := by
      apply Fin.ext
      show ((height + 1).val + n) % 2 ^ 64 = (height.val + (n + 1)) % 2 ^ 64
      omega
    rw [Nat.add_right_comm n 1 r, BtcFinalizeDriver.stepHeights, if_pos hle, hstep, hrest, hheight]
    simp only [append_assoc, singleton_append]

theorem advanceToTip_admitted (id : Bytes32) (rounds : Nat) (hbest : ¬ best < d.hw.hwHeight) :
    d.advanceToTip sha rules dConf isCanonical rounds best id =
      let r := stepHeights sha rules dConf isCanonical
        (if dConf ≤ best then best - dConf else 0) rounds (d.cursorH + 1)
        { d with hw := d.hw.advance best id }
      if r.2 then (r.1.persistHw, true) else r := by
  unfold BtcFinalizeDriver.advanceToTip SettleHW.admitCandidateHeight
  rw [if_neg hbest]
  rfl

theorem advanceToTip_refused (id : Bytes32) (rounds : Nat) (hbest : best < d.hw.hwHeight) :
    d.advanceToTip sha rules dConf isCanonical rounds best id =
      ({ d with hw := { d.hw with refused := d.hw.refused + 1 } }.persistHw, true) := by
  unfold BtcFinalizeDriver.advanceToTip SettleHW.admitCandidateHeight
  rw [if_pos hbest]
  rfl

variable (sha rules isCanonical) in
theorem advanceToTip_wraps (hcursor : d.cursorH = 0)
    (hidle : ∀ x : U64, 1 ≤ x → d.byHeight.lookup x = none) (htop : top.val = 2 ^ 64 - 1)
    (hadmits : ¬ top < d.hw.hwHeight) (id : Bytes32) (hrounds : rounds = 2 ^ 64 - 1 + 1) :
    ∃ c cs, cs.length = 2 ^ 64 - 1 ∧ (∀ x ∈ cs, ∃ y, x = Commit.cursor y) ∧
      (d.advanceToTip sha rules 0 isCanonical rounds top id).1 =
        ({ d with hw := d.hw.advance top id, cursorH := c, commits := d.commits ++ cs }).stepHeight
          sha rules 0 isCanonical 0 := by
  have hfirst : (d.cursorH + 1 : U64) = 1 := by
    rw [hcursor]
    rfl
  obtain ⟨c, cs, hlength, hcursors, hloop⟩ := @stepHeights_idle sha rules 0 isCanonical 1 top 1
    (2 ^ 64 - 1) { d with hw := d.hw.advance top id }
    (by rw [htop, Fin.val_one]; omega) fun x hx _ => hidle x hx
  have hwrap : Fin.ofNat (2 ^ 64) ((1 : U64).val + (2 ^ 64 - 1)) = 0 := by decide
  have hfrontier : (if (0 : U64) ≤ top then top - 0 else 0) = top := by
    exact Fin.ext (Fin.sub_val_of_le (Fin.zero_le _))
  refine ⟨c, cs, hlength, hcursors, ?_⟩
  rw [advanceToTip_admitted id rounds hadmits, hfrontier, hfirst, hrounds]
  rw [hloop, hwrap, BtcFinalizeDriver.stepHeights, if_pos (Fin.zero_le _),
    BtcFinalizeDriver.stepHeights]
  rfl

def steppingZero (rounds : Nat) (top : U64) : BtcFinalizeDriver :=
  ((({} : BtcFinalizeDriver).onBlockFound (fun _ => 0) {} blockAtZero).attempt (fun _ => 0) {} 0
    rounds (.advance (fun _ _ => true) top 0)).1

theorem commits_stepHeight_zero (hw : SettleHW) (c : U64) (commits : List Commit) :
    (({ ({} : BtcFinalizeDriver).onBlockFound (fun _ => 0) {} blockAtZero with
        hw := hw, cursorH := c, commits := commits } : BtcFinalizeDriver).stepHeight
          (fun _ => 0) {} 0 (fun _ _ => true) 0).commits =
      commits ++ [.event 2 (finalizeEvent [98] 0) (some 0), .cursor 0] := by
  have hlookup : (({} : BtcFinalizeDriver).onBlockFound (fun _ => 0) {}
      blockAtZero).byHeight.lookup 0 = some [[98]] := by decide +kernel
  have hfound : (({} : BtcFinalizeDriver).onBlockFound (fun _ => 0) {}
      blockAtZero).found.lookup [98] = some blockAtZero := by decide +kernel
  have hpending : (({} : BtcFinalizeDriver).onBlockFound (fun _ => 0) {}
      blockAtZero).ledger.isPending [98] = true := by decide +kernel
  have hseq : (({} : BtcFinalizeDriver).onBlockFound (fun _ => 0) {} blockAtZero).seq = 1 := by
    decide +kernel
  unfold BtcFinalizeDriver.stepHeight
  rw [hlookup, Option.getD_some, foldl_cons, foldl_nil]
  unfold BtcFinalizeDriver.stepBid
  rw [hfound]
  dsimp only
  rw [hpending, if_neg (by decide), if_neg (by decide), if_neg (by decide)]
  simp only [writeEvent, persistCursor, hseq, append_assoc]
  rfl

theorem commits_steppingZero (hrounds : rounds = 2 ^ 64 - 1 + 1) (htop : top.val = 2 ^ 64 - 1) :
    ∃ cs, cs.length = 2 ^ 64 - 1 ∧ (∀ x ∈ cs, ∃ y, x = Commit.cursor y) ∧
      (steppingZero rounds top).commits = .event 1 blockAtZero.event none :: cs ++
        [.event 2 (finalizeEvent [98] 0) (some 0), .cursor 0] := by
  have hby : ∀ x : U64, (1 : U64) ≤ x → (({} : BtcFinalizeDriver).onBlockFound (fun _ => 0) {}
      blockAtZero).byHeight.lookup x = none := by
    intro x hx
    have hne : x ≠ 0 := by
      rintro rfl
      exact absurd hx (by decide)
    show (SortedMap.insert ∅ 0 [[98]]).lookup x = none
    rw [SortedMap.lookup_insert, if_neg hne]
    rfl
  obtain ⟨c, cs, hlength, hcursors, hrun⟩ := advanceToTip_wraps (fun _ => 0) {} (fun _ _ => true)
    (d := ({} : BtcFinalizeDriver).onBlockFound (fun _ => 0) {} blockAtZero) rfl hby htop
    (not_lt.mpr (Fin.zero_le _)) 0 hrounds
  refine ⟨cs, hlength, hcursors, ?_⟩
  unfold steppingZero BtcFinalizeDriver.attempt
  rw [hrun, commits_stepHeight_zero]
  rfl

theorem not_replaysPrefix_steppingZero {chain : U32} (hrounds : rounds = 2 ^ 64 - 1 + 1)
    (htop : top.val = 2 ^ 64 - 1) {oks : Nat → Bool} (hoks : ∀ i, oks i = true ↔ i < 2 ^ 64) :
    ¬ ReplaysPrefix (fun _ => 0) {} chain (steppingZero rounds top).commits
      (storeAfter chain oks (steppingZero rounds top).commits).img := by
  obtain ⟨cs, hlength, hcursors, hcommits⟩ := commits_steppingZero hrounds htop
  rw [hcommits]
  rintro ⟨kv, m, st, hload, -, hkeys, -, -, hall⟩
  have himg : (storeAfter chain oks (.event 1 blockAtZero.event none :: cs ++
      [.event 2 (finalizeEvent [98] 0) (some 0), .cursor 0])).img =
        some (image (kvAfter chain (.event 1 blockAtZero.event none :: cs))) := by
    have hfull : (Commit.event 1 blockAtZero.event none :: cs).length = 2 ^ 64 := by
      rw [length_cons, hlength]
      decide
    rw [img_storeAfter_failed]
    · apply img_storeAfter_flushed (cons_ne_nil _ _)
      rw [hfull, hoks]
      omega
    intro i hi
    rw [Bool.eq_false_iff]
    intro hok
    rw [hoks] at hok
    omega
  have hsized : ∀ c ∈ Commit.event 1 blockAtZero.event none :: cs, c.Sized chain := by
    intro c hc
    rcases mem_cons.mp hc with rfl | hc
    · exact sized_event chain 1 fits_blockAtZero none
    · obtain ⟨y, rfl⟩ := hcursors c hc
      exact sized_cursor chain y
  rw [himg, load_image (kvFits_kvAfter hsized), Option.some_inj] at hload
  subst hload
  have hm : 2 ≤ m := hall (2, finalizeEvent [98] 0, some 0)
    (by rw [eventsOf_append]; exact mem_append_right _ (by simp [eventsOf])) 0 rfl
    (Fin.zero_le _)
  -- the second event would be on disk
  have hkey : (Key.evt 2).bytes chain ∈
      (withPrefix (kEvtPrefix chain)
        (kvAfter chain (Commit.event 1 blockAtZero.event none :: cs))).map Prod.fst := by
    rw [hkeys]
    exact mem_map.mpr ⟨1, mem_range.mpr (by omega), rfl⟩
  obtain ⟨⟨key, v⟩, hentry, rfl⟩ := mem_map.mp hkey
  have hlookup := SortedMap.mem_entries_iff.mp (mem_of_mem_filter hentry)
  rw [lookup_kvAfter, held_eq_none] at hlookup
  · cases hlookup
  intro c hc
  rcases mem_cons.mp hc with rfl | hc
  · decide
  · obtain ⟨y, rfl⟩ := hcursors c hc
    simp [Commit.key]

/-- At the last height of 64 bits the loop wraps, and the block at height zero is finalized under a
cursor that has passed it. -/
theorem wrapped_loop_outruns_cursor :
    ¬ ReplaysPrefix (fun _ => 0) {} 0
      (steppingZero (2 ^ 64) (Fin.ofNat (2 ^ 64) (2 ^ 64 - 1))).commits
      (storeAfter 0 (fun i => decide (i < 2 ^ 64))
        (steppingZero (2 ^ 64) (Fin.ofNat (2 ^ 64) (2 ^ 64 - 1))).commits).img :=
  not_replaysPrefix_steppingZero (by decide) (Nat.mod_eq_of_lt (by omega))
    fun i => by rw [decide_eq_true_eq]

end BtcFinalizeDriver

end C2Pool.V37.Btc
