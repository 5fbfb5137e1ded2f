import C2Pool.V37.BtcCrash

/-! # What a finalize driver settles

A book of blocks with the height that each open one waits at.  A tip takes the
blocks of every buried height in the order of their ids; the driver takes them
in the order of its own tables, and tracks the book while the two orders agree.
-/

namespace C2Pool.V37.Btc

open List

/-- The book, the heights of its open blocks, how far the chain is buried and seen, and the steps
taken. -/
structure Settlement where
  book : Book Bid FoundArgs U64 := {}
  waits : SortedMap Bid U64 := ∅
  cursor : U64 := 0
  best : U64 := 0
  steps : List FinalizeStep := []

namespace Settlement

def waiting (a : Settlement) (bid : Bid) : Bool := (a.waits.lookup bid).isSome

/-- The open blocks of a height, in the order of their ids. -/
def waitsAt (a : Settlement) (h : U64) : List Bid :=
  (a.waits.entries.filter fun e => e.2 = h).map Prod.fst

def found (a : Settlement) (b : FoundBlock) : Settlement :=
  if a.waiting b.bid ∨ b.height = 0 ∨ b.bid ∈ a.book.settled then a
  else
    { a with
      book := a.book.step (.found b.bid
        { credit := composeCreditFromDelta b.credit b.drops, payout := b.payout })
      waits := a.waits.insert b.bid b.height }

def orphaned (a : Settlement) (bid : Bid) : Settlement :=
  { a with book := a.book.step (.orphan bid), waits := a.waits.erase bid }

section Advance

variable (dConf : U64) (isCanonical : U64 → Bid → Bool)

def mature (h : U64) (a : Settlement) (bid : Bid) : Settlement :=
  if isCanonical h bid then
    { a with
      book := a.book.step (.finalize bid (h + dConf))
      waits := a.waits.erase bid
      steps := a.steps ++ [⟨bid, h, h + dConf⟩] }
  else a.orphaned bid

def bury (a : Settlement) (h : U64) : Settlement :=
  { (a.waitsAt h).foldl (mature dConf isCanonical h) a with cursor := h }

def buryTo (a : Settlement) (frontier : U64) : Nat → U64 → Settlement × Bool
  | 0, _ => (a, false)
  | rounds + 1, h =>
    if h ≤ frontier then buryTo (a.bury dConf isCanonical h) frontier rounds (h + 1)
    else (a, true)

def tip (a : Settlement) (best : U64) : Option Settlement :=
  if best < a.best then some a
  else
    let r := { a with best := best }.buryTo dConf isCanonical
      (if dConf ≤ best then best - dConf else 0) (2 ^ 64 + 1) (a.cursor + 1)
    if r.2 then some r.1 else none

end Advance

variable {dConf : U64} {isCanonical : U64 → Bid → Bool} {a a' : Settlement} {bid : Bid}

theorem waiting_eq_false {bid : Bid} : a.waiting bid = false ↔ a.waits.lookup bid = none := by
  unfold waiting
  rw [Option.isSome_eq_false_iff, Option.isNone_iff_eq_none]

theorem waiting_erase (h : a'.waits = a.waits.erase bid) (x : Bid) :
    a'.waiting x = (decide (x ≠ bid) && a.waiting x) := by
  unfold waiting
  rw [h, SortedMap.lookup_erase]
  by_cases hx : x = bid
  · simp [hx]
  · simp [hx]

variable (dConf isCanonical) in
theorem waits_mature (h : U64) (a : Settlement) (bid : Bid) :
    (a.mature dConf isCanonical h bid).waits = a.waits.erase bid := by
  unfold mature
  split <;> rfl

variable (dConf isCanonical) in
theorem cursor_foldl_mature (h : U64) (bids : List Bid) (a : Settlement) :
    (bids.foldl (mature dConf isCanonical h) a).cursor = a.cursor := by
  induction bids generalizing a with
  | nil => rfl
  | cons bid bids ih =>
    rw [foldl_cons, ih]
    unfold mature
    split <;> rfl

theorem orphaned_of_not_waiting (hwaits : a.waits.lookup bid = none)
    (hbook : a.book.pending.lookup bid = none) : a.orphaned bid = a := by
  simp only [orphaned, Book.step]
  rw [SortedMap.erase_of_lookup_none hwaits, SortedMap.erase_of_lookup_none hbook]

theorem mem_waitsAt {h : U64} {bid : Bid} : bid ∈ a.waitsAt h ↔ a.waits.lookup bid = some h := by
  unfold waitsAt
  rw [mem_map]
  constructor
  · rintro ⟨⟨x, y⟩, hmem, rfl⟩
    rw [mem_filter, decide_eq_true_eq] at hmem
    obtain ⟨hmem, rfl⟩ := hmem
    exact SortedMap.mem_entries_iff.mp hmem
  intro hlookup
  refine ⟨(bid, h), ?_, rfl⟩
  rw [mem_filter, decide_eq_true_eq]
  exact ⟨SortedMap.mem_entries_iff.mpr hlookup, rfl⟩

theorem sorted_waitsAt (a : Settlement) (h : U64) : (a.waitsAt h).Pairwise (· < ·) := by
  unfold waitsAt
  rw [pairwise_map]
  exact a.waits.sorted.filter _

/-- Open blocks stay where they wait or are done, and the blocks of the new steps are done. -/
structure Advances (a a' : Settlement) : Prop where
  waits : ∀ bid, a'.waits.lookup bid = none ∨ a'.waits.lookup bid = a.waits.lookup bid
  steps : ∃ new, a'.steps = a.steps ++ new ∧
    ∀ s ∈ new, a.waits.lookup s.bid ≠ none ∧ a'.waits.lookup s.bid = none

theorem Advances.refl (a : Settlement) : Advances a a :=
  ⟨fun _ => Or.inr rfl, [], by simp, by simp⟩

theorem Advances.trans {a a'' : Settlement} (h : Advances a a') (h' : Advances a' a'') :
    Advances a a'' := by
  constructor
  · intro bid
    rcases h'.waits bid with hnone | hsame
    · exact Or.inl hnone
    · rw [hsame]
      exact h.waits bid
  obtain ⟨new, hsteps, hnew⟩ := h.steps
  obtain ⟨new', hsteps', hnew'⟩ := h'.steps
  refine ⟨new ++ new', by rw [hsteps', hsteps, append_assoc], ?_⟩
  intro s hs
  rcases mem_append.mp hs with hs | hs
  · obtain ⟨hopen, hdone⟩ := hnew s hs
    refine ⟨hopen, ?_⟩
    rcases h'.waits s.bid with hnone | hsame
    · exact hnone
    · rw [hsame, hdone]
  obtain ⟨hopen, hdone⟩ := hnew' s hs
  refine ⟨?_, hdone⟩
  rcases h.waits s.bid with hnone | hsame
  · exact absurd hnone hopen
  · rw [← hsame]
    exact hopen

theorem Advances.mature (h : U64) (hwaits : a.waits.lookup bid ≠ none) :
    Advances a (a.mature dConf isCanonical h bid) := by
  have herase := waits_mature dConf isCanonical h a bid
  constructor
  · intro x
    rw [herase, SortedMap.lookup_erase]
    split
    · exact Or.inl rfl
    · exact Or.inr rfl
  rw [herase]
  unfold Settlement.mature
  split
  · refine ⟨_, rfl, ?_⟩
    intro s hs
    rw [mem_singleton.mp hs]
    exact ⟨hwaits, by rw [SortedMap.lookup_erase, if_pos rfl]⟩
  · exact ⟨[], by simp [orphaned], by simp⟩

theorem Advances.foldl_mature (h : U64) {bids : List Bid} (hnodup : bids.Nodup)
    (hbids : ∀ bid ∈ bids, a.waits.lookup bid ≠ none) :
    Advances a (bids.foldl (Settlement.mature dConf isCanonical h) a) := by
  induction bids generalizing a with
  | nil => exact .refl a
  | cons bid bids ih =>
    obtain ⟨hnew, hnodup⟩ := nodup_cons.mp hnodup
    apply (Advances.mature h (hbids bid mem_cons_self)).trans
    apply ih hnodup
    intro x hx
    rw [waits_mature, SortedMap.lookup_erase, if_neg]
    · exact hbids x (mem_cons_of_mem _ hx)
    · rintro rfl
      exact hnew hx

variable (dConf isCanonical) in
theorem Advances.bury (a : Settlement) (h : U64) : Advances a (a.bury dConf isCanonical h) := by
  have hfold := @Advances.foldl_mature dConf isCanonical a h (a.waitsAt h)
    ((a.sorted_waitsAt h).imp fun hlt => hlt.ne) (by
      intro bid hbid
      rw [mem_waitsAt.mp hbid]
      simp)
  exact { hfold with }

variable (dConf isCanonical) in
theorem Advances.buryTo (frontier : U64) (rounds : Nat) (h : U64) (a : Settlement) :
    Advances a (a.buryTo dConf isCanonical frontier rounds h).1 := by
  induction rounds generalizing h a with
  | zero => exact .refl a
  | succ rounds ih =>
    unfold Settlement.buryTo
    split
    · exact (Advances.bury dConf isCanonical a h).trans (ih _ _)
    · exact .refl a

theorem advances_tip {best : U64} (h : a.tip dConf isCanonical best = some a') : Advances a a' := by
  unfold tip at h
  split at h
  · cases h
    exact .refl a
  generalize 2 ^ 64 + 1 = rounds at h
  generalize (if dConf ≤ best then best - dConf else 0 : U64) = frontier at h
  dsimp only at h
  split at h
  · cases h
    have hloop := Advances.buryTo dConf isCanonical frontier rounds (a.cursor + 1)
      { a with best := best }
    exact { hloop with }
  · cases h

theorem buryTo_last {frontier : U64} (hfrontier : frontier.val = 2 ^ 64 - 1) (rounds : Nat)
    (h : U64) (a : Settlement) : (a.buryTo dConf isCanonical frontier rounds h).2 = false := by
  induction rounds generalizing h a with
  | zero => rfl
  | succ rounds ih =>
    have hle : h ≤ frontier := by
      rw [Fin.le_def]
      omega
    unfold buryTo
    rw [if_pos hle]
    exact ih _ _

end Settlement

/-! ## A driver that tracks it -/

namespace BtcFinalizeDriver

variable {sha : List Byte → Bytes32} {rules : OwedLedgerRules} {dConf : U64}
  {isCanonical : U64 → Bid → Bool} {d : BtcFinalizeDriver} {a : Settlement} {best : U64}
  {d' : BtcFinalizeDriver} {id : Bytes32}

def foundAt (d : BtcFinalizeDriver) (h : U64) : List Bid := (d.byHeight.lookup h).getD []

/-- The driver tracks a settlement: every open block is canonical in its tables, and at the heights
to come stands under its own height only, in the order of the ids. -/
structure Tracks (rules : OwedLedgerRules) (d : BtcFinalizeDriver) (a : Settlement) : Prop where
  keeps : OwedLedger.Keeps rules d.ledger a.book
  waits : ∀ bid, a.waits.lookup bid = none ↔ a.book.pending.lookup bid = none
  cursor : d.cursorH = a.cursor
  best : d.hw.hwHeight = a.best
  steps : d.steps = a.steps
  live : ∀ bid, a.waits.lookup bid ≠ none → ∃ b, d.found.lookup bid = some b ∧ b.canonical = true
  mem : ∀ bid h, a.waits.lookup bid = some h → ∀ x, a.cursor < x → (bid ∈ d.foundAt x ↔ x = h)
  sorted : ∀ x, a.cursor < x → ((d.foundAt x).filter a.waiting).Pairwise (· < ·)
  known : ∀ x, ∀ bid ∈ d.foundAt x, d.found.lookup bid ≠ none

theorem foundAt_remember (d : BtcFinalizeDriver) (b : FoundBlock) (x : U64) :
    (d.remember b).foundAt x = d.foundAt x ++ if x = b.height then [b.bid] else [] := by
  unfold foundAt remember
  rw [SortedMap.lookup_insert]
  split
  next heq => rw [heq, Option.getD_some]
  · rw [append_nil]

theorem known_remember (hknown : ∀ x, ∀ bid ∈ d.foundAt x, d.found.lookup bid ≠ none)
    (b : FoundBlock) : ∀ x, ∀ bid ∈ (d.remember b).foundAt x,
      (d.remember b).found.lookup bid ≠ none := by
  intro x bid hbid
  rw [foundAt_remember, mem_append] at hbid
  dsimp only [remember]
  rw [SortedMap.lookup_insert]
  split
  · simp
  next hne =>
    rcases hbid with hbid | hbid
    · exact hknown x bid hbid
    split at hbid
    · exact absurd (mem_singleton.mp hbid) hne
    · cases hbid

theorem step_refused (id : Bytes32) (hbest : best < d.hw.hwHeight) :
    d.step sha rules dConf (.advance isCanonical best id) =
      some { d with hw := { d.hw with refused := d.hw.refused + 1 } }.persistHw := by
  unfold BtcFinalizeDriver.step BtcFinalizeDriver.attempt
  dsimp only
  rw [advanceToTip_refused id _ hbest, if_pos rfl]

theorem step_admitted (id : Bytes32) (hbest : ¬ best < d.hw.hwHeight) :
    d.step sha rules dConf (.advance isCanonical best id) =
      let r := stepHeights sha rules dConf isCanonical
        (if dConf ≤ best then best - dConf else 0) (2 ^ 64 + 1) (d.cursorH + 1)
        { d with hw := d.hw.advance best id }
      if r.2 then some r.1.persistHw else none := by
  unfold BtcFinalizeDriver.step BtcFinalizeDriver.attempt
  dsimp only
  rw [advanceToTip_admitted id _ hbest]
  generalize stepHeights sha rules dConf isCanonical
    (if dConf ≤ best then best - dConf else 0) (2 ^ 64 + 1) (d.cursorH + 1)
    { d with hw := d.hw.advance best id } = r
  obtain ⟨d', returns⟩ := r
  cases returns with
  | false => rfl
  | true => rfl

theorem ended_stepHeights (frontier : U64) (rounds : Nat) (height : U64) (d : BtcFinalizeDriver)
    (a : Settlement) :
    (stepHeights sha rules dConf isCanonical frontier rounds height d).2 =
      (a.buryTo dConf isCanonical frontier rounds height).2 := by
  induction rounds generalizing height d a with
  | zero => rfl
  | succ rounds ih =>
    unfold BtcFinalizeDriver.stepHeights Settlement.buryTo
    split
    · exact ih _ _ _
    · rfl

theorem advance_cases (h : d.step sha rules dConf (.advance isCanonical best id) = some d') :
    ∃ hw frontier rounds, frontier.val < 2 ^ 64 - 1 ∧
      d' = (stepHeights sha rules dConf isCanonical frontier rounds (d.cursorH + 1)
        { d with hw := hw }).1.persistHw := by
  by_cases hbest : best < d.hw.hwHeight
  · rw [step_refused id hbest] at h
    cases h
    exact ⟨_, 0, 0, by decide, rfl⟩
  rw [step_admitted id hbest] at h
  generalize 2 ^ 64 + 1 = rounds at h
  generalize (if dConf ≤ best then best - dConf else 0 : U64) = frontier at h
  dsimp only at h
  split at h
  next hreturns =>
    cases h
    refine ⟨_, frontier, rounds, ?_, rfl⟩
    by_contra hlast
    rw [ended_stepHeights frontier rounds _ _ {},
      Settlement.buryTo_last (by have := frontier.isLt; omega)] at hreturns
    cases hreturns
  · cases h

def SameFound (d d' : BtcFinalizeDriver) : Prop :=
  ∀ bid, d'.found.lookup bid = none ↔ d.found.lookup bid = none

variable (sha rules) in
theorem sameFound_onBlockOrphaned (d : BtcFinalizeDriver) (bid : Bid) (stepped : Option U64) :
    SameFound d (d.onBlockOrphaned sha rules bid stepped) := by
  intro x
  unfold BtcFinalizeDriver.onBlockOrphaned
  split
  · exact Iff.rfl
  next b hb =>
    rw [SortedMap.lookup_insert]
    split
    next heq => simp [heq, hb]
    · exact Iff.rfl

theorem sameFound_stepBid (x : U64) (d : BtcFinalizeDriver) (bid : Bid) :
    SameFound d (stepBid sha rules dConf isCanonical x d bid) := by
  unfold BtcFinalizeDriver.stepBid
  split
  · exact fun _ => Iff.rfl
  split
  · exact fun _ => Iff.rfl
  split
  · exact sameFound_onBlockOrphaned sha rules d bid (some x)
  split
  · exact fun _ => Iff.rfl
  · exact fun _ => Iff.rfl

theorem sameFound_stepHeight (d : BtcFinalizeDriver) (x : U64) :
    SameFound d (d.stepHeight sha rules dConf isCanonical x) := by
  have hfold : ∀ (bids : List Bid) (d : BtcFinalizeDriver),
      SameFound d (bids.foldl (stepBid sha rules dConf isCanonical x) d) := by
    intro bids
    induction bids with
    | nil => exact fun _ _ => Iff.rfl
    | cons bid bids ih =>
      intro d y
      exact (ih _ y).trans (sameFound_stepBid x d bid y)
  exact hfold _ d

theorem sameFound_stepHeights (frontier : U64) (rounds : Nat) (x : U64) (d : BtcFinalizeDriver) :
    SameFound d (stepHeights sha rules dConf isCanonical frontier rounds x d).1 := by
  induction rounds generalizing x d with
  | zero => exact fun _ => Iff.rfl
  | succ rounds ih =>
    unfold BtcFinalizeDriver.stepHeights
    split
    · exact fun bid => (ih _ _ bid).trans (sameFound_stepHeight d x bid)
    · exact fun _ => Iff.rfl

theorem sameFound_advance (h : d.step sha rules dConf (.advance isCanonical best id) = some d') :
    SameFound d d' := by
  obtain ⟨hw, frontier, rounds, -, rfl⟩ := advance_cases h
  exact sameFound_stepHeights frontier rounds _ { d with hw := hw }

/-! ## Tracking -/

namespace Tracks

theorem isPending_iff (h : Tracks rules d a) (bid : Bid) :
    d.ledger.isPending bid = a.waiting bid := by
  unfold OwedLedger.isPending Settlement.waiting
  rw [h.keeps.lookup, Option.isSome_map, Bool.eq_iff_iff, Option.isSome_iff_ne_none,
    Option.isSome_iff_ne_none, not_iff_not]
  exact (h.waits bid).symm

variable {bid : Bid} {b : FoundBlock} {x : U64}

section

variable (h : Tracks rules d a)
include h

theorem leave {d' : BtcFinalizeDriver} {a' : Settlement}
    (hkeeps : OwedLedger.Keeps rules d'.ledger a'.book)
    (hpending : a'.book.pending = a.book.pending.erase bid) (hwaits : a'.waits = a.waits.erase bid)
    (hcursor : a'.cursor = a.cursor) (hbest : a'.best = a.best) (hsteps : d'.steps = a'.steps)
    (hcursor' : d'.cursorH = d.cursorH) (hhw : d'.hw = d.hw) (hby : d'.byHeight = d.byHeight)
    (hfound : ∀ x, x ≠ bid → d'.found.lookup x = d.found.lookup x)
    (hstays : d.found.lookup bid ≠ none → d'.found.lookup bid ≠ none) : Tracks rules d' a' where
  keeps := hkeeps
  waits := by
    intro x
    rw [hwaits, hpending, SortedMap.lookup_erase, SortedMap.lookup_erase]
    split
    · simp
    · exact h.waits x
  cursor := by rw [hcursor', hcursor, h.cursor]
  best := by rw [hhw, hbest, h.best]
  steps := hsteps
  live := by
    intro x hx
    rw [hwaits, SortedMap.lookup_erase] at hx
    by_cases heq : x = bid
    · rw [if_pos heq] at hx
      exact absurd rfl hx
    rw [if_neg heq] at hx
    rw [hfound x heq]
    exact h.live x hx
  mem := by
    intro x height hx y hy
    rw [hwaits, SortedMap.lookup_erase] at hx
    split at hx
    · cases hx
    rw [hcursor] at hy
    unfold foundAt
    rw [hby]
    exact h.mem x height hx y hy
  sorted := by
    intro y hy
    rw [hcursor] at hy
    have hsub : (d'.foundAt y).filter a'.waiting =
        ((d.foundAt y).filter a.waiting).filter fun x => decide (x ≠ bid) := by
      unfold foundAt
      rw [hby, filter_filter]
      apply filter_congr
      intro x _
      exact Settlement.waiting_erase hwaits x
    rw [hsub]
    exact (h.sorted y hy).filter _
  known := by
    intro y x hx
    unfold foundAt at hx
    rw [hby] at hx
    have hknown := h.known y x hx
    by_cases heq : x = bid
    · rw [heq] at hknown ⊢
      exact hstays hknown
    · rw [hfound x heq]
      exact hknown

theorem orphaned (bid : Bid) (stepped : Option U64) :
    Tracks rules (d.onBlockOrphaned sha rules bid stepped) (a.orphaned bid) := by
  have hcall (payout : Amounts) : OwedLedger.Keeps rules
      (replayCall sha rules d.ledger (orphanEvent bid payout)) (a.book.step (.orphan bid)) :=
    h.keeps.call (.orphaned bid payout)
  unfold BtcFinalizeDriver.onBlockOrphaned
  split
  · exact h.leave (hcall ∅) rfl rfl rfl rfl h.steps rfl rfl rfl (fun _ _ => rfl) id
  refine h.leave (hcall _) rfl rfl rfl rfl h.steps rfl rfl rfl ?_ ?_
  · intro x hx
    rw [SortedMap.lookup_insert, if_neg hx]
    rfl
  intro _
  rw [SortedMap.lookup_insert, if_pos rfl]
  simp

theorem found (hopen : a.waits.lookup b.bid = none)
    (hsettled : b.bid ∉ a.book.settled) (hheight : b.height ≠ 0)
    (hfound : d.found.lookup b.bid = none) (hcanonical : b.canonical = true)
    (hlast : a.cursor < b.height → ∀ bid, a.waits.lookup bid = some b.height → bid < b.bid) :
    Tracks rules (d.onBlockFound sha rules b) (a.found b) := by
  have hbook := (h.waits b.bid).mp hopen
  have hnew : ∀ x, b.bid ∉ d.foundAt x := fun x hx => h.known x b.bid hx hfound
  unfold BtcFinalizeDriver.onBlockFound Settlement.found
  rw [if_neg (not_not.mpr hfound), if_neg]
  · refine ⟨?_, ?_, h.cursor, h.best, h.steps, ?_, ?_, ?_, ?_⟩
    · exact h.keeps.call (.found b.bid _)
    · intro x
      simp only [Book.step]
      rw [if_neg (by simp [hbook, hsettled]), SortedMap.lookup_insert, SortedMap.lookup_insert]
      split
      · simp
      · exact h.waits x
    · intro x hx
      dsimp only [remember] at hx ⊢
      rw [SortedMap.lookup_insert] at hx ⊢
      split
      · exact ⟨b, rfl, hcanonical⟩
      next hne =>
        rw [if_neg hne] at hx
        exact h.live x hx
    · intro x height hx y hy
      rw [foundAt_remember, mem_append]
      rw [SortedMap.lookup_insert] at hx
      split at hx
      next heq =>
        cases hx
        rw [heq]
        have hnot : b.bid ∉ (d.writeEvent sha rules b.event none).foundAt y := hnew y
        simp [hnot]
      next hne =>
        have hold : x ∈ (d.writeEvent sha rules b.event none).foundAt y ↔ y = height :=
          h.mem x height hx y hy
        rw [hold, or_iff_left]
        split
        · simpa using hne
        · simp
    · intro y hy
      rw [foundAt_remember, filter_append]
      have hsame : ((d.writeEvent sha rules b.event none).foundAt y).filter
          (fun x => ((a.waits.insert b.bid b.height).lookup x).isSome) =
            (d.foundAt y).filter a.waiting := by
        apply filter_congr
        intro x hx
        have hne : x ≠ b.bid := fun heq => hnew y (heq ▸ hx)
        rw [SortedMap.lookup_insert, if_neg hne]
        rfl
      refine pairwise_append.mpr ⟨hsame ▸ h.sorted y hy, ?_, ?_⟩
      · apply List.Pairwise.filter
        split
        · exact pairwise_singleton _ _
        · exact List.Pairwise.nil
      intro x hx z hz
      have hx' : x ∈ (d.foundAt y).filter a.waiting := hsame ▸ hx
      obtain ⟨hmem, hwaiting⟩ := mem_filter.mp hx'
      obtain ⟨height, hlookup⟩ := Option.isSome_iff_exists.mp hwaiting
      have hz' := mem_of_mem_filter hz
      split at hz'
      next heq =>
        subst heq
        rw [mem_singleton.mp hz']
        apply hlast hy
        rw [hlookup, (h.mem x height hlookup b.height hy).mp hmem]
      · cases hz'
    · exact known_remember h.known b
  · rw [Settlement.waiting, hopen]
    simp [hheight, hsettled]

theorem found_settled (hopen : a.waits.lookup b.bid = none)
    (hsettled : b.bid ∈ a.book.settled) : Tracks rules (d.onBlockFound sha rules b) a := by
  unfold BtcFinalizeDriver.onBlockFound
  split
  · exact h
  have hkeeps : OwedLedger.Keeps rules (replayCall sha rules d.ledger b.event)
      (a.book.step (.found b.bid
        { credit := composeCreditFromDelta b.credit b.drops, payout := b.payout })) :=
    h.keeps.call (.found b.bid _)
  simp only [Book.step] at hkeeps
  rw [if_pos (Or.inr hsettled)] at hkeeps
  have hother : ∀ x, a.waits.lookup x ≠ none → x ≠ b.bid := by
    rintro x hx rfl
    exact hx hopen
  refine ⟨hkeeps, h.waits, h.cursor, h.best, h.steps, ?_, ?_, ?_, known_remember h.known b⟩
  · intro x hx
    dsimp only [remember]
    rw [SortedMap.lookup_insert, if_neg (hother x hx)]
    exact h.live x hx
  · intro x height hx y hy
    have hold : x ∈ (d.writeEvent sha rules b.event none).foundAt y ↔ y = height :=
      h.mem x height hx y hy
    rw [foundAt_remember, mem_append, hold, or_iff_left]
    split
    · simpa using hother x (by rw [hx]; simp)
    · simp
  · intro y hy
    have hnone : (if y = b.height then [b.bid] else []).filter a.waiting = [] := by
      rw [filter_eq_nil_iff]
      intro x hx hwaiting
      apply hother x (Option.isSome_iff_ne_none.mp hwaiting)
      split at hx
      · exact mem_singleton.mp hx
      · cases hx
    rw [foundAt_remember, filter_append, hnone, append_nil]
    exact h.sorted y hy

theorem stepBid_idle (x : U64) (hwaits : a.waits.lookup bid = none) :
    Tracks rules (stepBid sha rules dConf isCanonical x d bid) a := by
  have hsame := Settlement.orphaned_of_not_waiting hwaits ((h.waits bid).mp hwaits)
  have hpending : d.ledger.isPending bid = false := by
    rw [h.isPending_iff, Settlement.waiting_eq_false]
    exact hwaits
  unfold BtcFinalizeDriver.stepBid
  split
  · exact h
  split
  · exact h
  split
  · have horphan := @Tracks.orphaned sha rules d a h bid (some x)
    rwa [hsame] at horphan
  · exact h

theorem stepBid (x : U64) (hwaits : a.waits.lookup bid ≠ none) :
    Tracks rules (stepBid sha rules dConf isCanonical x d bid)
      (a.mature dConf isCanonical x bid) := by
  obtain ⟨b, hb, hcanonical⟩ := h.live bid hwaits
  have hpending : d.ledger.isPending bid = true := by
    rw [h.isPending_iff, Settlement.waiting, Option.isSome_iff_ne_none]
    exact hwaits
  unfold BtcFinalizeDriver.stepBid Settlement.mature
  rw [hb]
  dsimp only
  rw [hcanonical, if_neg (by decide)]
  cases hcan : isCanonical x bid with
  | false => exact h.orphaned bid (some x)
  | true =>
    rw [if_neg (by decide), hpending, if_neg (by decide), if_pos rfl]
    have hkeeps : OwedLedger.Keeps rules
        (replayCall sha rules d.ledger (finalizeEvent bid (x + dConf)))
        (a.book.step (.finalize bid (x + dConf))) := h.keeps.call (.finalized bid (x + dConf))
    have herase : (a.book.step (.finalize bid (x + dConf))).pending = a.book.pending.erase bid := by
      simp only [Book.step]
      cases hlookup : a.book.pending.lookup bid with
      | none => exact absurd ((h.waits bid).mpr hlookup) hwaits
      | some args => rfl
    refine h.leave hkeeps herase rfl rfl rfl ?_ rfl rfl rfl (fun _ _ => rfl) id
    show d.steps ++ _ = a.steps ++ _
    rw [h.steps]

/-- The blocks of a height in the order of the tables: only the open ones count. -/
theorem foldl_stepBid (x : U64) (bids : List Bid) (hnodup : (bids.filter a.waiting).Nodup) :
    Tracks rules (bids.foldl (BtcFinalizeDriver.stepBid sha rules dConf isCanonical x) d)
      ((bids.filter a.waiting).foldl (Settlement.mature dConf isCanonical x) a) := by
  induction bids generalizing d a with
  | nil => exact h
  | cons bid bids ih =>
    cases hbid : a.waiting bid with
    | false =>
      rw [filter_cons_of_neg (by simp [hbid])] at hnodup ⊢
      exact ih (h.stepBid_idle x (Settlement.waiting_eq_false.mp hbid)) hnodup
    | true =>
      rw [filter_cons_of_pos hbid] at hnodup ⊢
      obtain ⟨hnew, hnodup⟩ := nodup_cons.mp hnodup
      have hsame : bids.filter (a.mature dConf isCanonical x bid).waiting =
          bids.filter a.waiting := by
        apply filter_congr
        intro y hy
        rw [Settlement.waiting_erase (Settlement.waits_mature dConf isCanonical x a bid)]
        cases hopen : a.waiting y with
        | false => simp
        | true =>
          have hne : y ≠ bid := by
            rintro rfl
            exact hnew (mem_filter.mpr ⟨hy, hopen⟩)
          simp [hne]
      rw [foldl_cons, ← hsame]
      apply ih
      · apply h.stepBid x
        rw [← Option.isSome_iff_ne_none]
        exact hbid
      · rw [hsame]
        exact hnodup

theorem waitsAt_eq (hx : a.cursor < x) : a.waitsAt x = (d.foundAt x).filter a.waiting := by
  refine (a.sorted_waitsAt x).eq_of_mem_iff (h.sorted x hx) ?_
  intro bid
  rw [Settlement.mem_waitsAt, mem_filter, Settlement.waiting]
  constructor
  · intro hlookup
    exact ⟨(h.mem bid x hlookup x hx).mpr rfl, by rw [hlookup]; rfl⟩
  rintro ⟨hmem, hopen⟩
  obtain ⟨height, hlookup⟩ := Option.isSome_iff_exists.mp hopen
  rw [hlookup, (h.mem bid height hlookup x hx).mp hmem]

theorem stepHeight (hx : a.cursor < x) :
    Tracks rules (d.stepHeight sha rules dConf isCanonical x)
      (a.bury dConf isCanonical x) := by
  have hsorted := h.sorted x hx
  have hfold := @Tracks.foldl_stepBid sha rules dConf isCanonical d a h x (d.foundAt x)
    (hsorted.imp fun hlt => hlt.ne)
  rw [← h.waitsAt_eq hx] at hfold
  have hcursor := Settlement.cursor_foldl_mature dConf isCanonical x (a.waitsAt x) a
  refine { hfold with cursor := rfl, mem := ?_, sorted := ?_ }
  · intro bid height hlookup y hy
    exact hfold.mem bid height hlookup y (by rw [hcursor]; exact hx.trans hy)
  · intro y hy
    exact hfold.sorted y (by rw [hcursor]; exact hx.trans hy)

theorem stepHeights {frontier : U64} (hfrontier : frontier.val < 2 ^ 64 - 1)
    (rounds : Nat) {height : U64} (hheight : height.val = a.cursor.val + 1) :
    Tracks rules (stepHeights sha rules dConf isCanonical frontier rounds height d).1
      (a.buryTo dConf isCanonical frontier rounds height).1 := by
  induction rounds generalizing height d a with
  | zero => exact h
  | succ rounds ih =>
    unfold BtcFinalizeDriver.stepHeights Settlement.buryTo
    by_cases hle : height ≤ frontier
    · rw [if_pos hle, if_pos hle]
      have habove : a.cursor < height := by
        rw [Fin.lt_def]
        omega
      apply ih (h.stepHeight habove)
      show (height + 1).val = height.val + 1
      rw [Fin.le_def] at hle
      exact FinalizeDriver.succ_val (by omega)
    · rw [if_neg hle, if_neg hle]
      exact h

theorem persistHw : Tracks rules d.persistHw a :=
  { h with }

theorem advance (hbelow : a.cursor.val < 2 ^ 64 - 1) (best : U64) (id : Bytes32) :
    d.step sha rules dConf (.advance isCanonical best id) = none ∧
        a.tip dConf isCanonical best = none ∨
      ∃ d' a', d.step sha rules dConf (.advance isCanonical best id) = some d' ∧
        a.tip dConf isCanonical best = some a' ∧ Tracks rules d' a' := by
  unfold Settlement.tip
  by_cases hbest : best < a.best
  · rw [if_pos hbest, step_refused id (by rw [h.best]; exact hbest)]
    exact Or.inr ⟨_, _, rfl, rfl, persistHw { h with }⟩
  have hsame : d.cursorH + 1 = a.cursor + 1 := by rw [h.cursor]
  rw [if_neg hbest, step_admitted id (by rw [h.best]; exact hbest), hsame]
  have hstart : Tracks rules { d with hw := d.hw.advance best id } { a with best := best } := by
    refine { h with best := ?_ }
    unfold SettleHW.advance
    rw [h.best, if_neg hbest]
  have hnext : (a.cursor + 1).val = a.cursor.val + 1 := FinalizeDriver.succ_val (by omega)
  generalize (if dConf ≤ best then best - dConf else 0 : U64) = frontier
  generalize 2 ^ 64 + 1 = rounds
  dsimp only
  rw [ended_stepHeights frontier rounds (a.cursor + 1) _ { a with best := best }]
  split
  next hreturns =>
    refine Or.inr ⟨_, _, rfl, rfl, (hstart.stepHeights ?_ rounds hnext).persistHw⟩
    by_contra hlast
    rw [Settlement.buryTo_last (by have := frontier.isLt; omega)] at hreturns
    cases hreturns
  · exact Or.inl ⟨rfl, rfl⟩

end

end Tracks

end BtcFinalizeDriver

end C2Pool.V37.Btc
