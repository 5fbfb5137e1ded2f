import C2Pool.V37.FinalizeGates

/-! # The order in which heights arrive

A driver that is fed candidates and heights settles every canonical candidate at its own gate,
whatever the heights jump over: the blocks of one gate in the order of their ids, the gates in the
order of their heights.
-/

namespace C2Pool.V37

open List

def FinalizeCandidate.gate (dConf : U64) (c : FinalizeCandidate) : U64 := c.foundHeight + dConf

/-- The order of settling: by height, then by block id. -/
def Before (x y : Bid × FoundArgs × U64) : Prop := x.2.2 < y.2.2 ∨ x.2.2 = y.2.2 ∧ x.1 < y.1

instance : Std.Irrefl Before where
  irrefl x h := by
    rcases h with h | ⟨-, h⟩
    · exact lt_irrefl _ h
    · exact lt_irrefl _ h

instance : Std.Antisymm Before where
  antisymm x y h h' := by
    rcases h with h | ⟨heq, h⟩
    · rcases h' with h' | ⟨heq', -⟩
      · exact (lt_asymm h h').elim
      · exact (lt_irrefl _ (heq' ▸ h)).elim
    rcases h' with h' | ⟨-, h'⟩
    · exact (lt_irrefl _ (heq ▸ h')).elim
    · exact (lt_asymm h h').elim

theorem bookOf_append (calls : List LedgerCall) (c : LedgerCall) :
    bookOf (calls ++ [c]) = (bookOf calls).step c.event := by
  unfold bookOf
  rw [map_append, Run.run_append]
  rfl

namespace FinalizeDriver

variable {sha : List Byte → Bytes32} {rules : OwedLedgerRules} {dConf : U64} {tipOf : U64 → Bytes32}
  {isCanonical : Bid → Bool} {d : FinalizeDriver} {c : FinalizeCandidate} {n h : U64}
  {cs : List FinalizeCandidate}
def book (d : FinalizeDriver) : Book Bid FoundArgs U64 := bookOf d.calls

def Recorded (sha : List Byte → Bytes32) (rules : OwedLedgerRules) (d : FinalizeDriver) : Prop :=
  d.ledger = OwedLedger.after sha rules d.calls

theorem Recorded.keeps (h : d.Recorded sha rules) : OwedLedger.Keeps rules d.ledger d.book := by
  rw [h]
  exact OwedLedger.keeps_after d.calls

theorem Recorded.isPending (h : d.Recorded sha rules) (bid : Bid) :
    d.ledger.isPending bid = (d.book.pending.lookup bid).isSome := by
  unfold OwedLedger.isPending
  rw [h.keeps.lookup]
  simp

theorem Recorded.callLedger (h : d.Recorded sha rules) (call : LedgerCall) :
    (d.callLedger sha rules call).Recorded sha rules ∧
      (d.callLedger sha rules call).book = d.book.step call.event := by
  constructor
  · unfold Recorded FinalizeDriver.callLedger OwedLedger.after
    rw [Run.run_append, h]
    rfl
  · exact bookOf_append d.calls call

/-! ## The blocks of one gate -/

structure Settles (isCanonical : Bid → Bool) (bids : List Bid) (bin : U64)
    (bk bk' : Book Bid FoundArgs U64) (new : List (Bid × FoundArgs × U64)) : Prop where
  history : bk'.history = bk.history ++ new
  sorted : new.Pairwise fun x y => x.1 < y.1
  mem : ∀ e, e ∈ new ↔
    (e.1 ∈ bids ∧ isCanonical e.1 = true ∧ bk.pending.lookup e.1 = some e.2.1 ∧ e.2.2 = bin)
  pending : ∀ bid args, bk'.pending.lookup bid = some args ↔
    bk.pending.lookup bid = some args ∧ ¬ (bid ∈ bids ∧ isCanonical bid = true)

theorem finalizeBid_book {s : FinalizeDriver × Nat} (hrec : s.1.Recorded sha rules)
    (horphan : s.1.orphaned = ∅) (b : Bid) :
    let s' := finalizeBid sha rules isCanonical s b
    s'.1.Recorded sha rules ∧
      ((s'.1.book = s.1.book ∧ ¬ (isCanonical b = true ∧ s.1.book.pending.lookup b ≠ none)) ∨
        ∃ args, isCanonical b = true ∧ s.1.book.pending.lookup b = some args ∧
          s'.1.book = ⟨s.1.book.pending.erase b,
            s.1.book.history ++ [(b, args, s.1.hw.hwHeight)]⟩) := by
  unfold finalizeBid
  rw [if_neg (by rw [horphan]; simp)]
  by_cases hcanon : isCanonical b = false
  · rw [if_pos hcanon]
    refine ⟨hrec, .inl ⟨rfl, fun h => ?_⟩⟩
    rw [h.1] at hcanon
    cases hcanon
  rw [if_neg hcanon, hrec.isPending]
  cases hp : s.1.book.pending.lookup b with
  | none =>
    exact ⟨hrec, .inl ⟨rfl, fun h => h.2 rfl⟩⟩
  | some args =>
    rw [if_neg (by simp)]
    obtain ⟨hrec', hbook⟩ := hrec.callLedger (.finalized b s.1.hw.hwHeight)
    refine ⟨hrec', .inr ⟨args, by simpa using hcanon, rfl, ?_⟩⟩
    rw [hbook]
    simp only [LedgerCall.event, Book.step]
    rw [hp]

theorem foldl_finalizeBid_book (bids : List Bid) {s : FinalizeDriver × Nat}
    (hsorted : bids.Pairwise (· ≤ ·)) (hrec : s.1.Recorded sha rules)
    (horphan : s.1.orphaned = ∅) :
    let s' := bids.foldl (finalizeBid sha rules isCanonical) s
    s'.1.Recorded sha rules ∧
      ∃ new, Settles isCanonical bids s.1.hw.hwHeight s.1.book s'.1.book new := by
  induction bids generalizing s with
  | nil => exact ⟨hrec, [], by simp, List.Pairwise.nil, by simp, by simp⟩
  | cons b bids ih =>
    obtain ⟨hb, hbids⟩ := pairwise_cons.mp hsorted
    obtain ⟨hsame, hhw, -, -⟩ := @finalizeBid_spec sha rules isCanonical s b
    obtain ⟨hrec1, hcases⟩ := @finalizeBid_book sha rules isCanonical s hrec horphan b
    have horphan1 := hsame.orphaned.trans horphan
    obtain ⟨hrec2, new, hnew⟩ := ih hbids hrec1 horphan1
    rw [foldl_cons]
    refine ⟨hrec2, ?_⟩
    rcases hcases with ⟨hbook, hskip⟩ | ⟨args, hcanon, hlook, hbook⟩
    · refine ⟨new, ?_, hnew.sorted, fun e => ?_, fun bid a => ?_⟩
      · rw [hnew.history, hbook]
      · rw [hnew.mem, hbook, hhw, mem_cons]
        constructor
        · rintro ⟨h1, h2⟩
          exact ⟨.inr h1, h2⟩
        rintro ⟨h1 | h1, h2, h3, h4⟩
        · rw [h1] at h2 h3
          exact (hskip ⟨h2, by rw [h3]; simp⟩).elim
        · exact ⟨h1, h2, h3, h4⟩
      · rw [hnew.pending, hbook, mem_cons]
        constructor
        · rintro ⟨h1, h2⟩
          refine ⟨h1, ?_⟩
          rintro ⟨rfl | h3, h4⟩
          · exact hskip ⟨h4, by rw [h1]; simp⟩
          · exact h2 ⟨h3, h4⟩
        · rintro ⟨h1, h2⟩
          exact ⟨h1, fun h3 => h2 ⟨.inr h3.1, h3.2⟩⟩
    have herase : ∀ bid a, (s.1.book.pending.erase b).lookup bid = some a ↔
        bid ≠ b ∧ s.1.book.pending.lookup bid = some a := by
      intro bid a
      rw [SortedMap.lookup_erase]
      by_cases hbid : bid = b
      · simp [hbid]
      · simp [hbid]
    have hmem : ∀ e, e ∈ new ↔ (e.1 ∈ bids ∧ isCanonical e.1 = true ∧
        (e.1 ≠ b ∧ s.1.book.pending.lookup e.1 = some e.2.1) ∧ e.2.2 = s.1.hw.hwHeight) := by
      intro e
      rw [hnew.mem, hbook, hhw, herase]
    refine ⟨(b, args, s.1.hw.hwHeight) :: new, ?_, ?_, fun e => ?_, fun bid a => ?_⟩
    · rw [hnew.history, hbook, append_assoc]
      rfl
    · refine pairwise_cons.mpr ⟨fun e he => ?_, hnew.sorted⟩
      obtain ⟨h1, -, ⟨h2, -⟩, -⟩ := (hmem e).mp he
      exact lt_of_le_of_ne (hb e.1 h1) (Ne.symm h2)
    · rw [mem_cons, hmem, mem_cons]
      constructor
      · rintro (rfl | ⟨h1, h2, h3, h4⟩)
        · exact ⟨.inl rfl, hcanon, hlook, rfl⟩
        · exact ⟨.inr h1, h2, h3.2, h4⟩
      rintro ⟨h1, h2, h3, h4⟩
      by_cases hbid : e.1 = b
      · left
        rw [hbid, hlook, Option.some.injEq] at h3
        rw [h3, ← hbid, ← h4]
      · exact .inr ⟨h1.resolve_left hbid, h2, ⟨hbid, h3⟩, h4⟩
    · rw [hnew.pending, hbook, herase, mem_cons]
      constructor
      · rintro ⟨⟨h1, h2⟩, h3⟩
        refine ⟨h2, ?_⟩
        rintro ⟨h4 | h4, h5⟩
        · exact h1 h4
        · exact h3 ⟨h4, h5⟩
      rintro ⟨h1, h2⟩
      refine ⟨⟨?_, h1⟩, fun h3 => h2 ⟨.inr h3.1, h3.2⟩⟩
      rintro rfl
      exact h2 ⟨.inl rfl, hcanon⟩

theorem Settles.eq_of_dead {bids : List Bid} {bin : U64} {bk bk' : Book Bid FoundArgs U64}
    {new : List (Bid × FoundArgs × U64)} (h : Settles isCanonical bids bin bk bk' new)
    (hdead : ∀ b ∈ bids, isCanonical b = false) : bk' = bk := by
  have hno : ∀ b, ¬ (b ∈ bids ∧ isCanonical b = true) := by
    rintro b ⟨hb, hcanon⟩
    rw [hdead b hb] at hcanon
    cases hcanon
  have hnil : new = [] := by
    apply eq_nil_iff_forall_not_mem.mpr
    intro e he
    obtain ⟨h1, h2, -⟩ := (h.mem e).mp he
    exact hno e.1 ⟨h1, h2⟩
  have hpending : bk'.pending = bk.pending := by
    ext1 bid
    apply Option.ext
    intro args
    rw [h.pending]
    exact ⟨fun hx => hx.1, fun hx => ⟨hx, hno bid⟩⟩
  have hhistory := h.history
  rw [hnil, append_nil] at hhistory
  cases bk
  cases bk'
  rw [Book.mk.injEq]
  exact ⟨hpending, hhistory⟩

theorem finalizeGate_book {s : FinalizeDriver × Nat} (hrec : s.1.Recorded sha rules)
    (horphan : s.1.orphaned = ∅) (e : U64 × List Bid) :
    let s' := finalizeGate sha rules isCanonical s e
    s'.1.Recorded sha rules ∧
      ∃ new, Settles isCanonical e.2 s.1.hw.hwHeight s.1.book s'.1.book new := by
  obtain ⟨hrec', new, hnew⟩ := @foldl_finalizeBid_book sha rules isCanonical
    (e.2.insertionSort (· ≤ ·)) s (pairwise_insertionSort _ _) hrec horphan
  refine ⟨hrec', new, hnew.history, hnew.sorted, fun x => ?_, fun bid args => ?_⟩
  · rw [hnew.mem, mem_insertionSort]
  have hpending := hnew.pending bid args
  rw [mem_insertionSort] at hpending
  exact hpending

theorem foldl_finalizeGate_dead (es : List (U64 × List Bid)) {s : FinalizeDriver × Nat}
    (hdead : ∀ e ∈ es, ∀ b ∈ e.2, isCanonical b = false) (hrec : s.1.Recorded sha rules)
    (horphan : s.1.orphaned = ∅) :
    let s' := es.foldl (finalizeGate sha rules isCanonical) s
    s'.1.Recorded sha rules ∧ s'.1.book = s.1.book := by
  induction es generalizing s with
  | nil => exact ⟨hrec, rfl⟩
  | cons e es ih =>
    obtain ⟨hsame, -, -, -⟩ := @finalizeGate_spec sha rules isCanonical s e
    obtain ⟨hrec1, new, hnew⟩ := @finalizeGate_book sha rules isCanonical s hrec horphan e
    have hbook := hnew.eq_of_dead (hdead e mem_cons_self)
    obtain ⟨hrec2, hbook2⟩ := ih (fun x hx => hdead x (mem_cons_of_mem e hx)) hrec1
      (hsame.orphaned.trans horphan)
    exact ⟨hrec2, hbook2.trans hbook⟩

/-- The gates at or below a height: the ones below it, and its own. -/
theorem takeWhile_entries_eq (m : SortedMap U64 (List Bid)) (h : U64) :
    ∃ es, m.entries.takeWhile (fun e => e.1 ≤ h) = es ++ (m.lookup h).toList.map (h, ·) ∧
      ∀ e ∈ es, m.lookup e.1 = some e.2 ∧ e.1 < h := by
  refine ⟨m.entries.filter fun e => e.1 < h, ?_, ?_⟩
  · have hsorted := m.sorted
    unfold SortedMap.lookup
    generalize m.entries = es at hsorted
    induction es with
    | nil => rfl
    | cons e es ih =>
      obtain ⟨he, hes⟩ := pairwise_cons.mp hsorted
      rw [SortedMap.find_cons]
      rcases lt_trichotomy e.1 h with hlt | heq | hgt
      · rw [takeWhile_cons_of_pos (by simpa using hlt.le), ih hes,
          filter_cons_of_pos (by simpa using hlt), if_neg hlt.ne]
        rfl
      · have hrest : es.takeWhile (fun e => e.1 ≤ h) = [] := by
          cases es with
          | nil => rfl
          | cons x es =>
            have hx := he x mem_cons_self
            rw [heq] at hx
            exact takeWhile_cons_of_neg (by simpa using hx)
        have hfilter : es.filter (fun e => e.1 < h) = [] := by
          apply filter_eq_nil_iff.mpr
          intro x hx
          have hlt := he x hx
          rw [heq] at hlt
          simpa using hlt.le
        rw [takeWhile_cons_of_pos (by simpa using heq.le), hrest,
          filter_cons_of_neg (by simpa using heq.ge), hfilter, if_pos heq, ← heq]
        rfl
      · have hfilter : (e :: es).filter (fun e => e.1 < h) = [] := by
          apply filter_eq_nil_iff.mpr
          intro x hx
          rcases mem_cons.mp hx with rfl | hx
          · simpa using hgt.le
          · simpa using (hgt.trans (he x hx)).le
        have hnone : SortedMap.find h es = none :=
          SortedMap.find_eq_none_of_lt fun x hx => hgt.trans (he x hx)
        rw [takeWhile_cons_of_neg (by simpa using hgt), hfilter, if_neg hgt.ne', hnone]
        rfl
  · intro e he
    obtain ⟨hmem, hlt⟩ := mem_filter.mp he
    exact ⟨SortedMap.mem_entries_iff.mp hmem, by simpa using hlt⟩

theorem driveOneHeight_book {d : FinalizeDriver} {h : U64} (hrec : d.Recorded sha rules)
    (horphan : d.orphaned = ∅) (hhw : d.hw.hwHeight ≤ h)
    (hdead : ∀ g bid, g < h → d.Waits g bid → isCanonical bid = false) :
    let d' := (d.driveOneHeight sha rules tipOf isCanonical h).1
    d'.Recorded sha rules ∧ d'.hw.hwHeight = h ∧
      ∃ new, Settles isCanonical ((d.byFinalizeHeight.lookup h).getD []) h d.book d'.book new := by
  have hadvance : (d.hw.advance h (tipOf h)).hwHeight = h := by
    unfold SettleHW.advance
    rw [if_neg (not_lt.mpr hhw)]
  obtain ⟨es, htake, hes⟩ := takeWhile_entries_eq d.byFinalizeHeight h
  have hdead' : ∀ e ∈ es, ∀ b ∈ e.2, isCanonical b = false := by
    intro e he b hb
    exact hdead e.1 b (hes e he).2 ⟨e.2, (hes e he).1, hb⟩
  obtain ⟨-, hhw', -, -⟩ := @driveOneHeight_spec sha rules tipOf isCanonical d h
  obtain ⟨hrec1, hbook1⟩ := @foldl_finalizeGate_dead sha rules isCanonical es
    ({ d with hw := d.hw.advance h (tipOf h) }, 0) hdead' hrec horphan
  obtain ⟨hsame1, hhw1, -, -⟩ := @foldl_finalizeGate_spec sha rules isCanonical es
    ({ d with hw := d.hw.advance h (tipOf h) }, 0)
  generalize hs : es.foldl (finalizeGate sha rules isCanonical)
    ({ d with hw := d.hw.advance h (tipOf h) }, 0) = s at hrec1 hbook1 hsame1 hhw1
  have hgate : d.driveOneHeight sha rules tipOf isCanonical h =
      ((d.byFinalizeHeight.lookup h).toList.map (h, ·)).foldl
        (finalizeGate sha rules isCanonical) s := by
    rw [← hs, ← foldl_append, ← htake]
    rfl
  have hbin : s.1.hw.hwHeight = h := by
    rw [hhw1]
    exact hadvance
  have hbook : s.1.book = d.book := hbook1
  rw [hgate] at hhw' ⊢
  cases hlook : d.byFinalizeHeight.lookup h with
  | none => exact ⟨hrec1, hbin, [], by simp [hbook], List.Pairwise.nil, by simp, by simp [hbook]⟩
  | some bids =>
    obtain ⟨hrec2, new, hnew⟩ := @finalizeGate_book sha rules isCanonical s hrec1
      (hsame1.orphaned.trans horphan) (h, bids)
    obtain ⟨-, hhw2, -, -⟩ := @finalizeGate_spec sha rules isCanonical s (h, bids)
    rw [hbin, hbook] at hnew
    exact ⟨hrec2, (congrArg SettleHW.hwHeight hhw2).trans hbin, new, hnew⟩

/-! ## Heights in order -/

/-- A driver that was fed the candidates `cs` and is at height `n`: the canonical candidates up to
`n` are settled, each at its gate and in order, and the others are open. -/
structure Follows (sha : List Byte → Bytes32) (rules : OwedLedgerRules) (dConf : U64)
    (isCanonical : Bid → Bool) (cs : List FinalizeCandidate) (n : U64) (d : FinalizeDriver) :
    Prop where
  recorded : d.Recorded sha rules
  orphaned : d.orphaned = ∅
  highWater : d.hw.hwHeight = n
  ahead : ∀ g bid, d.Waits g bid → isCanonical bid = true → n < g
  origin : ∀ g bid, d.Waits g bid → ∃ c ∈ cs, c.bid = bid ∧ c.gate dConf = g
  waits : ∀ c ∈ cs, isCanonical c.bid = true → n < c.gate dConf → d.Waits (c.gate dConf) c.bid
  pending : ∀ bid args, d.book.pending.lookup bid = some args ↔
    ∃ c ∈ cs, c.bid = bid ∧ c.args = args ∧ ¬ (isCanonical c.bid = true ∧ c.gate dConf ≤ n)
  history : ∀ e, e ∈ d.book.history ↔
    ∃ c ∈ cs, isCanonical c.bid = true ∧ c.gate dConf ≤ n ∧ e = (c.bid, c.args, c.gate dConf)
  sorted : d.book.history.Pairwise Before

theorem eq_of_bid (hnodup : (cs.map FinalizeCandidate.bid).Nodup)
    {c' : FinalizeCandidate} (hc : c ∈ cs) (hc' : c' ∈ cs) (h : c.bid = c'.bid) : c = c' :=
  inj_on_of_nodup_map hnodup hc hc' h

theorem follows_new (sha : List Byte → Bytes32) (rules : OwedLedgerRules) (dConf : U64)
    (isCanonical : Bid → Bool) : Follows sha rules dConf isCanonical [] 0 {} where
  recorded := rfl
  orphaned := rfl
  highWater := rfl
  ahead := fun g bid h => by
    obtain ⟨bids, hno, -⟩ := h
    cases hno
  origin := fun g bid h => by
    obtain ⟨bids, hno, -⟩ := h
    cases hno
  waits := fun c h => (not_mem_nil h).elim
  pending := fun bid args => by simp [book, bookOf]
  history := fun e => by simp [book, bookOf]
  sorted := List.Pairwise.nil

theorem Follows.driveOneHeight (hd : Follows sha rules dConf isCanonical cs n d)
    (hnodup : (cs.map FinalizeCandidate.bid).Nodup) (hh : h.val = n.val + 1) :
    Follows sha rules dConf isCanonical cs h
      (d.driveOneHeight sha rules tipOf isCanonical h).1 := by
  have hlt : ∀ g : U64, n < g ↔ h ≤ g := fun g => by rw [Fin.lt_def, Fin.le_def, hh]; omega
  have hle : ∀ g : U64, g ≤ h ↔ g ≤ n ∨ g = h := fun g => by
    rw [Fin.le_def, Fin.le_def, Fin.ext_iff]
    omega
  have hnh : n < h := (hlt h).mpr (le_refl h)
  obtain ⟨hrec, hhw, new, hnew⟩ := @driveOneHeight_book sha rules tipOf isCanonical d h
    hd.recorded hd.orphaned (by rw [hd.highWater]; exact hnh.le) (by
      intro g bid hg hwaits
      by_contra hcanon
      have := (hlt g).mp (hd.ahead g bid hwaits (by simpa using hcanon))
      exact absurd hg (not_lt.mpr this))
  obtain ⟨hsame, -, hgates, -⟩ := @driveOneHeight_spec sha rules tipOf isCanonical d h
  have hwaits : ∀ g bid, (d.driveOneHeight sha rules tipOf isCanonical h).1.Waits g bid ↔
      h < g ∧ d.Waits g bid := by
    intro g bid
    unfold Waits
    rw [hgates]
    by_cases hg : g ≤ h
    · rw [if_pos hg]
      simp [not_lt.mpr hg]
    · rw [if_neg hg]
      simp [not_le.mp hg]
  have hmem : ∀ e, e ∈ new ↔
      ∃ c ∈ cs, isCanonical c.bid = true ∧ c.gate dConf = h ∧
        e = (c.bid, c.args, c.gate dConf) := by
    intro e
    rw [hnew.mem]
    constructor
    · rintro ⟨hbid, hcanon, hlook, hbin⟩
      have hw : d.Waits h e.1 := by
        cases hg : d.byFinalizeHeight.lookup h with
        | none =>
          rw [hg] at hbid
          cases hbid
        | some bids =>
          rw [hg] at hbid
          exact ⟨bids, hg, hbid⟩
      obtain ⟨c, hc, hcbid, hgate⟩ := hd.origin h e.1 hw
      obtain ⟨c', hc', hcbid', hargs, -⟩ := (hd.pending e.1 e.2.1).mp hlook
      have heq := eq_of_bid hnodup hc hc' (hcbid.trans hcbid'.symm)
      subst heq
      refine ⟨c, hc, by rw [hcbid]; exact hcanon, hgate, ?_⟩
      rw [hgate, ← hbin, hcbid, hargs]
    rintro ⟨c, hc, hcanon, hgate, rfl⟩
    have hng : n < c.gate dConf := by rw [hgate]; exact hnh
    obtain ⟨bids, hlook, hbid⟩ := hd.waits c hc hcanon hng
    rw [hgate] at hlook
    refine ⟨by rw [hlook]; exact hbid, hcanon, ?_, hgate⟩
    exact (hd.pending c.bid c.args).mpr ⟨c, hc, rfl, rfl, fun hx => absurd hx.2 (not_le.mpr hng)⟩
  refine ⟨hrec, hsame.orphaned.trans hd.orphaned, hhw, ?_, ?_, ?_, ?_, ?_, ?_⟩
  · intro g bid hw _
    exact ((hwaits g bid).mp hw).1
  · intro g bid hw
    exact hd.origin g bid ((hwaits g bid).mp hw).2
  · intro c hc hcanon hg
    exact (hwaits _ _).mpr ⟨hg, hd.waits c hc hcanon (hnh.trans hg)⟩
  · intro bid args
    rw [hnew.pending, hd.pending]
    constructor
    · rintro ⟨⟨c, hc, rfl, rfl, hopen⟩, hno⟩
      refine ⟨c, hc, rfl, rfl, ?_⟩
      rintro ⟨hcanon, hgate⟩
      rcases (hle _).mp hgate with hg | hg
      · exact hopen ⟨hcanon, hg⟩
      obtain ⟨bids, hlook, hbid⟩ := hd.waits c hc hcanon (by rw [hg]; exact hnh)
      rw [hg] at hlook
      exact hno ⟨by rw [hlook]; exact hbid, hcanon⟩
    rintro ⟨c, hc, rfl, rfl, hopen⟩
    refine ⟨⟨c, hc, rfl, rfl, fun hx => hopen ⟨hx.1, (hle _).mpr (.inl hx.2)⟩⟩, ?_⟩
    rintro ⟨hbid, hcanon⟩
    have hx := (hmem (c.bid, c.args, h)).mp ((hnew.mem _).mpr ⟨hbid, hcanon, ?_, rfl⟩)
    · obtain ⟨c', hc', -, hgate, heq⟩ := hx
      rw [Prod.mk.injEq] at heq
      rw [eq_of_bid hnodup hc hc' heq.1] at hopen
      exact hopen ⟨by rw [← heq.1]; exact hcanon, hgate.le⟩
    · exact (hd.pending _ _).mpr ⟨c, hc, rfl, rfl, fun hx => hopen ⟨hx.1, (hle _).mpr (.inl hx.2)⟩⟩
  · intro e
    rw [hnew.history, mem_append, hd.history, hmem]
    constructor
    · rintro (⟨c, hc, hcanon, hgate, heq⟩ | ⟨c, hc, hcanon, hgate, heq⟩)
      · exact ⟨c, hc, hcanon, (hle _).mpr (.inl hgate), heq⟩
      · exact ⟨c, hc, hcanon, hgate.le, heq⟩
    rintro ⟨c, hc, hcanon, hgate, heq⟩
    rcases (hle _).mp hgate with hg | hg
    · exact .inl ⟨c, hc, hcanon, hg, heq⟩
    · exact .inr ⟨c, hc, hcanon, hg, heq⟩
  · rw [hnew.history, pairwise_append]
    have hbin : ∀ e ∈ new, e.2.2 = h := fun e he => ((hnew.mem e).mp he).2.2.2
    refine ⟨hd.sorted, ?_, ?_⟩
    · apply List.Pairwise.imp_of_mem _ hnew.sorted
      intro x y hx hy hxy
      exact .inr ⟨(hbin x hx).trans (hbin y hy).symm, hxy⟩
    intro x hx y hy
    obtain ⟨c, -, -, hgate, rfl⟩ := (hd.history x).mp hx
    left
    rw [hbin y hy]
    exact lt_of_le_of_lt hgate hnh

theorem Follows.congr {d' : FinalizeDriver} (hd : Follows sha rules dConf isCanonical cs n d)
    (hledger : d'.ledger = d.ledger) (horphaned : d'.orphaned = d.orphaned)
    (hhw : d'.hw.hwHeight = d.hw.hwHeight) (hgates : d'.byFinalizeHeight = d.byFinalizeHeight)
    (hcalls : d'.calls = d.calls) : Follows sha rules dConf isCanonical cs n d' := by
  have hwaits : ∀ g bid, d'.Waits g bid ↔ d.Waits g bid := fun g bid => by
    unfold Waits
    rw [hgates]
  have hbook : d'.book = d.book := congrArg bookOf hcalls
  refine ⟨?_, horphaned.trans hd.orphaned, hhw.trans hd.highWater, ?_, ?_, ?_, ?_, ?_, ?_⟩
  · unfold Recorded
    rw [hledger, hcalls]
    exact hd.recorded
  · exact fun g bid hw => hd.ahead g bid ((hwaits g bid).mp hw)
  · exact fun g bid hw => hd.origin g bid ((hwaits g bid).mp hw)
  · exact fun c hc hcanon hg => (hwaits _ _).mpr (hd.waits c hc hcanon hg)
  · rw [hbook]
    exact hd.pending
  · rw [hbook]
    exact hd.history
  · rw [hbook]
    exact hd.sorted

/-- A call of `advance_to` brings the driver to the greater of the two heights. -/
theorem Follows.advanceTo {d : FinalizeDriver}
    (hd : Follows sha rules dConf isCanonical cs d.lastDriven d)
    (hnodup : (cs.map FinalizeCandidate.bid).Nodup) {new : U64} (hnew : new.val < 2 ^ 64 - 1) :
    ∃ d' k, d.advanceTo sha rules tipOf isCanonical new = some (d', k) ∧
      d'.lastDriven = max d.lastDriven new ∧
      Follows sha rules dConf isCanonical cs d'.lastDriven d' := by
  unfold FinalizeDriver.advanceTo SettleHW.admitCandidateHeight
  rw [hd.highWater]
  by_cases hlt : new < d.lastDriven
  · rw [if_pos hlt]
    exact ⟨_, _, rfl, (max_eq_left hlt.le).symm, hd.congr rfl rfl hd.highWater.symm rfl rfl⟩
  rw [if_neg hlt]
  have hle : d.lastDriven ≤ new := not_lt.mp hlt
  have hval := Fin.le_def.mp hle
  have hsucc := @succ_val d.lastDriven (by omega)
  obtain ⟨s, hs, m, hm, hfollows⟩ := @driveHeights_rule sha rules tipOf isCanonical
    (fun k d' => ∃ m : U64, m.val + 1 = k ∧ Follows sha rules dConf isCanonical cs m d') new
    hnew
    (by
      rintro h - d' ⟨m, hm, hd'⟩
      exact ⟨h, rfl, hd'.driveOneHeight hnodup hm.symm⟩)
    (2 ^ 64 + 1) (d.lastDriven + 1) (d, 0) (by omega) (by omega)
    ⟨d.lastDriven, hsucc.symm, hd⟩
  have hmn : m = new := Fin.ext (by omega)
  rw [hmn] at hfollows
  dsimp only
  rw [if_pos rfl, hs]
  exact ⟨_, _, rfl, (max_eq_right hle).symm, hfollows.congr rfl rfl rfl rfl rfl⟩

theorem Follows.registerFound (hd : Follows sha rules dConf isCanonical cs n d)
    (hnew : c.bid ∉ cs.map FinalizeCandidate.bid)
    (hahead : isCanonical c.bid = true → n < c.gate dConf) :
    Follows sha rules dConf isCanonical (cs ++ [c]) n
      (d.registerFound sha rules dConf c) := by
  obtain ⟨hrec, hbook⟩ := hd.recorded.callLedger (.found c.bid c.args)
  have hfresh : ∀ x ∈ cs, x.bid ≠ c.bid := fun x hx heq => hnew (heq ▸ mem_map_of_mem hx)
  have hnone : d.book.pending.lookup c.bid = none := by
    cases hlook : d.book.pending.lookup c.bid with
    | none => rfl
    | some args =>
      obtain ⟨x, hx, hbid, -⟩ := (hd.pending _ _).mp hlook
      exact (hfresh x hx hbid).elim
  have hunsettled : c.bid ∉ d.book.settled := by
    intro hmem
    obtain ⟨e, he, hbid⟩ := mem_map.mp hmem
    obtain ⟨x, hx, -, -, rfl⟩ := (hd.history e).mp he
    exact hfresh x hx hbid
  have hnext : (d.registerFound sha rules dConf c).book =
      { d.book with pending := d.book.pending.insert c.bid c.args } := by
    show (d.callLedger sha rules _).book = _
    rw [hbook]
    simp only [LedgerCall.event, Book.step]
    rw [if_neg (by rw [not_or]; exact ⟨not_not.mpr hnone, hunsettled⟩)]
  have hwaits : ∀ g bid, (d.registerFound sha rules dConf c).Waits g bid ↔
      d.Waits g bid ∨ g = c.gate dConf ∧ bid = c.bid := by
    intro g bid
    unfold Waits
    simp only [FinalizeDriver.registerFound, callLedger]
    rw [SortedMap.lookup_insert]
    by_cases hg : g = c.foundHeight + dConf
    · rw [if_pos hg, hg]
      cases hlook : d.byFinalizeHeight.lookup (c.foundHeight + dConf) with
      | none => simp [FinalizeCandidate.gate]
      | some bids => simp [FinalizeCandidate.gate]
    · rw [if_neg hg]
      simp [FinalizeCandidate.gate, hg]
  refine ⟨hrec, hd.orphaned, hd.highWater, ?_, ?_, ?_, ?_, ?_, ?_⟩
  · intro g bid hw hcanon
    rcases (hwaits g bid).mp hw with hw | ⟨rfl, rfl⟩
    · exact hd.ahead g bid hw hcanon
    · exact hahead hcanon
  · intro g bid hw
    rcases (hwaits g bid).mp hw with hw | ⟨rfl, rfl⟩
    · obtain ⟨x, hx, h⟩ := hd.origin g bid hw
      exact ⟨x, mem_append_left _ hx, h⟩
    · exact ⟨c, by simp, rfl, rfl⟩
  · intro x hx hcanon hg
    rcases mem_append.mp hx with hx | hx
    · exact (hwaits _ _).mpr (.inl (hd.waits x hx hcanon hg))
    · rw [mem_singleton.mp hx]
      exact (hwaits _ _).mpr (.inr ⟨rfl, rfl⟩)
  · intro bid args
    rw [hnext]
    rw [SortedMap.lookup_insert]
    by_cases hbid : bid = c.bid
    · rw [if_pos hbid, Option.some.injEq]
      constructor
      · rintro rfl
        exact ⟨c, by simp, hbid.symm, rfl, fun hx => absurd hx.2 (not_le.mpr (hahead hx.1))⟩
      rintro ⟨x, hx, hxbid, rfl, -⟩
      rcases mem_append.mp hx with hx | hx
      · exact (hfresh x hx (hxbid.trans hbid)).elim
      · rw [mem_singleton.mp hx]
    rw [if_neg hbid, hd.pending]
    constructor
    · rintro ⟨x, hx, h⟩
      exact ⟨x, mem_append_left _ hx, h⟩
    rintro ⟨x, hx, hxbid, h⟩
    rcases mem_append.mp hx with hx | hx
    · exact ⟨x, hx, hxbid, h⟩
    · rw [mem_singleton.mp hx] at hxbid
      exact (hbid hxbid.symm).elim
  · intro e
    rw [hnext, hd.history]
    constructor
    · rintro ⟨x, hx, h⟩
      exact ⟨x, mem_append_left _ hx, h⟩
    rintro ⟨x, hx, hcanon, hgate, heq⟩
    rcases mem_append.mp hx with hx | hx
    · exact ⟨x, hx, hcanon, hgate, heq⟩
    · rw [mem_singleton.mp hx] at hcanon hgate
      exact absurd hgate (not_le.mpr (hahead hcanon))
  · rw [hnext]
    exact hd.sorted

/-! ## Feeds -/

/-- What a driver is fed with: candidates and heights. -/
inductive Feed where
  | register (c : FinalizeCandidate)
  | advance (new : U64)

def Feed.op (isCanonical : Bid → Bool) : Feed → Op
  | .register c => .register c
  | .advance new => .advance isCanonical new

def registered (fs : List Feed) : List FinalizeCandidate :=
  fs.filterMap fun
    | .register c => some c
    | .advance _ => none

def heights (fs : List Feed) : List U64 :=
  fs.filterMap fun
    | .register _ => none
    | .advance new => some new

def fed (sha : List Byte → Bytes32) (rules : OwedLedgerRules) (dConf : U64)
    (tipOf : U64 → Bytes32) (isCanonical : Bid → Bool) (fs : List Feed) : Option FinalizeDriver :=
  run sha rules dConf tipOf {} (fs.map (Feed.op isCanonical))

/-- A feed of these candidates whose greatest height is `top`, where each candidate is registered
before its gate is reached. -/
structure Fair (dConf : U64) (cs : List FinalizeCandidate) (top : U64) (fs : List Feed) : Prop where
  candidates : (registered fs).Perm cs
  timely : ∀ pre c post, fs = pre ++ .register c :: post → ∀ h ∈ heights pre, h < c.gate dConf
  reaches : top ∈ heights fs
  highest : ∀ h ∈ heights fs, h ≤ top

/-- The canonical candidates with a gate up to `top` are settled, at their gates, and no others. -/
def SettlesDue (dConf : U64) (isCanonical : Bid → Bool) (cs : List FinalizeCandidate) (top : U64)
    (d : FinalizeDriver) : Prop :=
  (∀ bid, bid ∈ d.ledger.settled ↔
    ∃ c ∈ cs, isCanonical c.bid = true ∧ c.gate dConf ≤ top ∧ c.bid = bid) ∧
  ∀ e ∈ d.book.history, ∃ c ∈ cs, c.bid = e.1 ∧ c.gate dConf = e.2.2

theorem fed_append (fs : List Feed) (f : Feed) :
    fed sha rules dConf tipOf isCanonical (fs ++ [f]) =
      (fed sha rules dConf tipOf isCanonical fs).bind
        fun d => d.step sha rules dConf tipOf (f.op isCanonical) := by
  unfold fed run
  rw [map_append, foldlM_append, map_cons, map_nil]
  simp only [foldlM_cons, foldlM_nil, bind_pure]
  rfl

theorem follows_fed (fs : List Feed) (hnodup : ((registered fs).map FinalizeCandidate.bid).Nodup)
    (htimely : ∀ pre c post, fs = pre ++ .register c :: post → ∀ h ∈ heights pre, h < c.gate dConf)
    (hgate : ∀ c ∈ registered fs, isCanonical c.bid = true → c.gate dConf ≠ 0)
    (hlast : ∀ h ∈ heights fs, h.val < 2 ^ 64 - 1) :
    ∃ d, fed sha rules dConf tipOf isCanonical fs = some d ∧
      Follows sha rules dConf isCanonical (registered fs) d.lastDriven d ∧
      (∀ h ∈ heights fs, h ≤ d.lastDriven) ∧ (d.lastDriven = 0 ∨ d.lastDriven ∈ heights fs) := by
  induction fs using List.reverseRecOn with
  | nil =>
    exact ⟨{}, rfl, follows_new sha rules dConf isCanonical,
      fun h hh => (not_mem_nil hh).elim, .inl rfl⟩
  | append_singleton fs f ih =>
    have hreg : registered (fs ++ [f]) = registered fs ++ registered [f] := filterMap_append
    have hhts : heights (fs ++ [f]) = heights fs ++ heights [f] := filterMap_append
    rw [hreg] at hnodup hgate
    rw [hhts] at hlast
    rw [map_append] at hnodup
    obtain ⟨d, hd, hfollows, hle, hmem⟩ := ih (nodup_append.mp hnodup).1
      (fun pre c post heq => htimely pre c (post ++ [f]) (by rw [heq]; simp))
      (fun c hc => hgate c (mem_append_left _ hc))
      (fun h hh => hlast h (mem_append_left _ hh))
    rw [fed_append, hd, Option.bind_some]
    cases f with
    | register c =>
      have hnew : c.bid ∉ (registered fs).map FinalizeCandidate.bid := by
        intro hin
        exact (nodup_append.mp hnodup).2.2 c.bid hin c.bid (by simp [registered]) rfl
      have hahead : isCanonical c.bid = true → d.lastDriven < c.gate dConf := by
        intro hcanon
        rcases hmem with hzero | hin
        · rw [hzero]
          exact Fin.pos_iff_ne_zero.mpr (hgate c (by simp [registered]) hcanon)
        · exact htimely fs c [] rfl _ hin
      refine ⟨_, rfl, ?_, ?_, ?_⟩
      · rw [hreg]
        exact hfollows.registerFound hnew hahead
      · intro h hh
        exact hle h (by simpa [heights] using hh)
      · rw [hhts]
        exact hmem.imp_right fun hin => mem_append_left _ hin
    | advance new =>
      obtain ⟨d', k, hadv, hmax, hfollows'⟩ :=
        @Follows.advanceTo sha rules dConf tipOf isCanonical _ d hfollows
          (nodup_append.mp hnodup).1 new (hlast new (by simp [heights]))
      refine ⟨d', ?_, ?_, ?_, ?_⟩
      · simp only [Feed.op, step]
        rw [hadv]
        rfl
      · rw [hreg]
        simpa [registered] using hfollows'
      · intro h hh
        rw [hhts] at hh
        rw [hmax]
        rcases mem_append.mp hh with hh | hh
        · exact (hle h hh).trans (le_max_left _ _)
        · rw [show h = new by simpa [heights] using hh]
          exact le_max_right _ _
      · rw [hhts, hmax]
        rcases max_choice d.lastDriven new with heq | heq
        · rw [heq]
          exact hmem.imp_right fun hin => mem_append_left _ hin
        · rw [heq]
          exact .inr (mem_append_right _ (by simp [heights]))

theorem settlesDue_fed (hnodup : (cs.map FinalizeCandidate.bid).Nodup) {top : U64} {fs : List Feed}
    (h : Fair dConf cs top fs) (htop : top.val ≠ 2 ^ 64 - 1)
    (hgate : ∀ c ∈ cs, isCanonical c.bid = true → c.gate dConf ≠ 0) :
    ∃ d, fed sha rules dConf tipOf isCanonical fs = some d ∧
      SettlesDue dConf isCanonical cs top d ∧
      OwedLedger.Keeps rules d.ledger d.book ∧ d.book.history.Pairwise Before ∧
      ∀ e, e ∈ d.book.history ↔ ∃ c ∈ cs,
        isCanonical c.bid = true ∧ c.gate dConf ≤ top ∧ e = (c.bid, c.args, c.gate dConf) := by
  have hmem : ∀ c, c ∈ registered fs ↔ c ∈ cs := fun c => h.candidates.mem_iff
  obtain ⟨d, hd, hfollows, hle, hlast⟩ := @follows_fed sha rules dConf tipOf isCanonical fs
    ((h.candidates.map _).nodup_iff.mpr hnodup) h.timely
    (fun c hc => hgate c ((hmem c).mp hc))
    (fun x hx => by
      have := Fin.le_def.mp (h.highest x hx)
      omega)
  have heq : d.lastDriven = top := by
    apply le_antisymm _ (hle top h.reaches)
    rcases hlast with hzero | hin
    · rw [hzero]
      exact Fin.zero_le _
    · exact h.highest _ hin
  have hkeeps := hfollows.recorded.keeps
  rw [heq] at hfollows
  have hhistory : ∀ e, e ∈ d.book.history ↔ ∃ c ∈ cs,
      isCanonical c.bid = true ∧ c.gate dConf ≤ top ∧ e = (c.bid, c.args, c.gate dConf) := by
    intro e
    rw [hfollows.history]
    simp only [hmem]
  refine ⟨d, hd, ⟨fun bid => ?_, fun e he => ?_⟩, hkeeps, hfollows.sorted, hhistory⟩
  · rw [hkeeps.settled]
    unfold Book.settled
    rw [mem_map]
    constructor
    · rintro ⟨e, he, rfl⟩
      obtain ⟨c, hc, hcanon, hg, rfl⟩ := (hhistory e).mp he
      exact ⟨c, hc, hcanon, hg, rfl⟩
    · rintro ⟨c, hc, hcanon, hg, rfl⟩
      exact ⟨_, (hhistory _).mpr ⟨c, hc, hcanon, hg, rfl⟩, rfl⟩
  · obtain ⟨c, hc, -, -, rfl⟩ := (hhistory e).mp he
    exact ⟨c, hc, rfl, rfl⟩

/-! ## Where a feed fails -/

/-- Nothing is settled at height 0. -/
structure AboveZero (sha : List Byte → Bytes32) (rules : OwedLedgerRules) (d : FinalizeDriver) :
    Prop where
  recorded : d.Recorded sha rules
  orphaned : d.orphaned = ∅
  driven : d.lastDriven ≤ d.hw.hwHeight
  bins : ∀ e ∈ d.book.history, e.2.2 ≠ 0

theorem foldl_finalizeGate_bins (es : List (U64 × List Bid)) {s : FinalizeDriver × Nat}
    (hrec : s.1.Recorded sha rules) (horphan : s.1.orphaned = ∅) (hhw : s.1.hw.hwHeight ≠ 0)
    (hbins : ∀ e ∈ s.1.book.history, e.2.2 ≠ 0) :
    let s' := es.foldl (finalizeGate sha rules isCanonical) s
    s'.1.Recorded sha rules ∧ ∀ e ∈ s'.1.book.history, e.2.2 ≠ 0 := by
  induction es generalizing s with
  | nil => exact ⟨hrec, hbins⟩
  | cons e es ih =>
    obtain ⟨hsame, hhw', -, -⟩ := @finalizeGate_spec sha rules isCanonical s e
    obtain ⟨hrec1, new, hnew⟩ := @finalizeGate_book sha rules isCanonical s hrec horphan e
    apply ih hrec1 (hsame.orphaned.trans horphan) (by rw [hhw']; exact hhw)
    intro x hx
    rw [hnew.history] at hx
    rcases mem_append.mp hx with hx | hx
    · exact hbins x hx
    · rw [((hnew.mem x).mp hx).2.2.2]
      exact hhw

theorem AboveZero.driveOneHeight (hd : AboveZero sha rules d) (hh : h ≠ 0) :
    AboveZero sha rules (d.driveOneHeight sha rules tipOf isCanonical h).1 := by
  obtain ⟨hsame, hhw, -, -⟩ := @driveOneHeight_spec sha rules tipOf isCanonical d h
  have hle := le_hwHeight_advance d.hw h (tipOf h)
  have hgrow : d.hw.hwHeight ≤ (d.hw.advance h (tipOf h)).hwHeight := by
    unfold SettleHW.advance
    split
    · exact le_refl _
    · rename_i hno
      exact not_lt.mp hno
  have hne : (d.hw.advance h (tipOf h)).hwHeight ≠ 0 :=
    fun hz => hh (le_antisymm (hz ▸ hle) (Fin.zero_le _))
  obtain ⟨hrec, hbins⟩ := @foldl_finalizeGate_bins sha rules isCanonical
    (d.byFinalizeHeight.entries.takeWhile fun e => e.1 ≤ h)
    ({ d with hw := d.hw.advance h (tipOf h) }, 0) hd.recorded hd.orphaned hne hd.bins
  refine ⟨hrec, hsame.orphaned.trans hd.orphaned, ?_, hbins⟩
  rw [hsame.lastDriven, hhw]
  exact hd.driven.trans hgrow

theorem AboveZero.step {d d' : FinalizeDriver} (hd : AboveZero sha rules d) (f : Feed)
    (h : d.step sha rules dConf tipOf (f.op isCanonical) = some d') : AboveZero sha rules d' := by
  cases f with
  | register c =>
    cases h
    obtain ⟨hrec, hbook⟩ := hd.recorded.callLedger (.found c.bid c.args)
    refine ⟨hrec, hd.orphaned, hd.driven, fun e he => ?_⟩
    have hhist : (d.callLedger sha rules (.found c.bid c.args)).book.history = d.book.history := by
      rw [hbook]
      simp only [LedgerCall.event, Book.step]
      split <;> rfl
    have he' : e ∈ (d.callLedger sha rules (.found c.bid c.args)).book.history := he
    rw [hhist] at he'
    exact hd.bins e he'
  | advance new =>
    obtain ⟨⟨d1, k⟩, hadv, rfl⟩ := Option.map_eq_some_iff.mp h
    obtain ⟨-, hw, hhw, heq⟩ | ⟨-, -, heq⟩ | ⟨-, -, -, heq⟩ |
        ⟨hle, hnew, hlast, d2, k2, hdriven, heq⟩ :=
      @advanceTo_cases sha rules tipOf isCanonical d hd.driven new
    · rw [heq] at hadv
      cases hadv
      exact { hd with driven := by rw [hhw]; exact hd.driven }
    · rw [heq] at hadv
      cases hadv
    · rw [heq] at hadv
      cases hadv
      exact hd
    · have hval := Fin.lt_def.mp hlast
      have hsucc := @succ_val d.lastDriven (by omega)
      obtain ⟨s, hs, -, hinv⟩ := @driveHeights_rule sha rules tipOf isCanonical
        (fun n d' => 0 < n ∧ AboveZero sha rules d') new hnew
        (by
          rintro h - d' ⟨hpos, hd'⟩
          refine ⟨Nat.succ_pos _, hd'.driveOneHeight ?_⟩
          rintro rfl
          exact absurd hpos (by simp))
        (2 ^ 64 + 1) (d.lastDriven + 1) (d, 0) (by omega) (by omega) ⟨by omega, hd⟩
      rw [heq] at hadv
      have hsame : ({ d2 with lastDriven := new }, k2) = ({ s.1 with lastDriven := new }, s.2) := by
        unfold advanceTo SettleHW.admitCandidateHeight at heq
        rw [if_neg (not_lt.mpr hle)] at heq
        dsimp only at heq
        rw [if_pos rfl, hs, Option.map_some, Option.some.injEq] at heq
        exact heq.symm
      rw [Option.some.injEq, hsame] at hadv
      have hd1 : d1 = { s.1 with lastDriven := new } := (congrArg Prod.fst hadv).symm
      have hhigh : d2.hw = s.1.hw := congrArg (fun x => x.1.hw) hsame
      have hreach := hdriven.highWater
      rw [hhigh] at hreach
      rw [hd1]
      exact { hinv with driven := Fin.le_def.mpr (by dsimp only; omega) }

variable {fs : List Feed}

theorem aboveZero_fed
    (h : fed sha rules dConf tipOf isCanonical fs = some d) : AboveZero sha rules d := by
  induction fs using List.reverseRecOn generalizing d with
  | nil =>
    cases h
    exact ⟨rfl, rfl, Fin.zero_le _, fun e he => (not_mem_nil he).elim⟩
  | append_singleton fs f ih =>
    rw [fed_append] at h
    obtain ⟨d0, hd0, hstep⟩ := Option.bind_eq_some_iff.mp h
    exact (ih hd0).step f hstep

theorem fed_of_last {new : U64} (hnew : new.val = 2 ^ 64 - 1)
    (h : new ∈ heights fs) : fed sha rules dConf tipOf isCanonical fs = none := by
  induction fs using List.reverseRecOn with
  | nil => exact (not_mem_nil h).elim
  | append_singleton fs f ih =>
    rw [fed_append]
    have hhts : heights (fs ++ [f]) = heights fs ++ heights [f] := filterMap_append
    rw [hhts] at h
    rcases mem_append.mp h with h | h
    · rw [ih h]
      rfl
    cases f with
    | register c => exact (not_mem_nil h).elim
    | advance x =>
      have hx : new = x := by simpa [heights] using h
      subst hx
      cases hd : fed sha rules dConf tipOf isCanonical fs with
      | none => rfl
      | some d =>
        have hadm : ¬ new < d.hw.hwHeight := by
          rw [Fin.lt_def]
          omega
        show (d.advanceTo sha rules tipOf isCanonical new).map Prod.fst = none
        unfold advanceTo SettleHW.admitCandidateHeight
        rw [if_neg hadm]
        dsimp only
        rw [if_pos rfl, driveHeights_last hnew]
        rfl

theorem gate_ne_zero_of_settlesDue
    (hnodup : (cs.map FinalizeCandidate.bid).Nodup) {top : U64}
    (hd : fed sha rules dConf tipOf isCanonical fs = some d)
    (hdue : SettlesDue dConf isCanonical cs top d) (hc : c ∈ cs)
    (hcanon : isCanonical c.bid = true) : c.gate dConf ≠ 0 := by
  intro hzero
  have habove := aboveZero_fed hd
  have hsettled : c.bid ∈ d.ledger.settled :=
    (hdue.1 c.bid).mpr ⟨c, hc, hcanon, by rw [hzero]; exact Fin.zero_le _, rfl⟩
  rw [habove.recorded.keeps.settled] at hsettled
  obtain ⟨e, he, hbid⟩ := mem_map.mp hsettled
  obtain ⟨c', hc', hbid', hgate⟩ := hdue.2 e he
  rw [eq_of_bid hnodup hc' hc (hbid'.trans hbid), hzero] at hgate
  exact habove.bins e he hgate.symm

/-- Two feeds of the same candidates up to the same height lead to the same settled blocks, each
settled at its gate, and to the same digest, exactly when the height is not the last one of 64 bits
and no canonical candidate has its gate at 0. -/
theorem fed_same_iff {cs : List FinalizeCandidate}
    (hnodup : (cs.map FinalizeCandidate.bid).Nodup) {top : U64} {fs fs' : List Feed}
    {tipOf tipOf' : U64 → Bytes32} (h : Fair dConf cs top fs) (h' : Fair dConf cs top fs') :
    (∃ d d', fed sha rules dConf tipOf isCanonical fs = some d ∧
      fed sha rules dConf tipOf' isCanonical fs' = some d' ∧
      SettlesDue dConf isCanonical cs top d ∧ SettlesDue dConf isCanonical cs top d' ∧
      d.ledger.digest sha rules = d'.ledger.digest sha rules) ↔
    top.val ≠ 2 ^ 64 - 1 ∧ ∀ c ∈ cs, isCanonical c.bid = true → c.gate dConf ≠ 0 := by
  constructor
  · rintro ⟨d, d', hd, -, hdue, -, -⟩
    refine ⟨fun hlast => ?_, fun c hc => gate_ne_zero_of_settlesDue hnodup hd hdue hc⟩
    rw [fed_of_last hlast h.reaches] at hd
    cases hd
  rintro ⟨htop, hgate⟩
  obtain ⟨d, hd, hdue, hkeeps, hsorted, hmem⟩ :=
    @settlesDue_fed sha rules dConf tipOf isCanonical cs hnodup top fs h htop hgate
  obtain ⟨d', hd', hdue', hkeeps', hsorted', hmem'⟩ :=
    @settlesDue_fed sha rules dConf tipOf' isCanonical cs hnodup top fs' h' htop hgate
  have hsame : d.book.history = d'.book.history :=
    hsorted.eq_of_mem_iff hsorted' fun e => (hmem e).trans (hmem' e).symm
  refine ⟨d, d', hd, hd', hdue, hdue', ?_⟩
  rw [hkeeps.finalized, hkeeps'.finalized, hsame]

def twoFound : List FinalizeCandidate :=
  [{ bid := [2], foundHeight := 1, credit := (∅ : Amounts).insert 7 5 },
    { bid := [1], foundHeight := 4, credit := (∅ : Amounts).insert 7 8 }]

/-- The heights one by one, with a refused one. -/
def slowFeed : List Feed :=
  [.register { bid := [2], foundHeight := 1, credit := (∅ : Amounts).insert 7 5 },
    .advance 3, .advance 2,
    .register { bid := [1], foundHeight := 4, credit := (∅ : Amounts).insert 7 8 },
    .advance 9]

def jumpFeed : List Feed :=
  [.register { bid := [1], foundHeight := 4, credit := (∅ : Amounts).insert 7 8 },
    .register { bid := [2], foundHeight := 1, credit := (∅ : Amounts).insert 7 5 }, .advance 9]

theorem fair_slowFeed : Fair 2 twoFound 9 slowFeed where
  candidates := List.Perm.refl _
  timely := by
    intro pre c post heq
    rcases pre with _ | ⟨a, _ | ⟨b, _ | ⟨x, _ | ⟨y, _ | ⟨z, pre⟩⟩⟩⟩⟩ <;> simp_all [slowFeed]
    · exact fun h hh => (not_mem_nil hh).elim
    · obtain ⟨rfl, rfl, rfl, rfl, -⟩ := heq
      simp [heights, FinalizeCandidate.gate]
  reaches := by decide +kernel
  highest := by simp [heights, slowFeed]

theorem fair_jumpFeed : Fair 2 twoFound 9 jumpFeed where
  candidates := List.Perm.swap _ _ _
  timely := by
    intro pre c post heq
    rcases pre with _ | ⟨a, _ | ⟨b, _ | ⟨x, pre⟩⟩⟩ <;> simp_all [jumpFeed]
    · exact fun h hh => (not_mem_nil hh).elim
    · obtain ⟨rfl, rfl, -⟩ := heq
      simp [heights]
  reaches := by decide +kernel
  highest := by simp [heights, jumpFeed]

theorem fed_slowFeed_jumpFeed :
    ∃ d d', fed Sha256.sha256d {} 2 (fun _ => 0) (fun _ => true) slowFeed = some d ∧
      fed Sha256.sha256d {} 2 (fun _ => 0) (fun _ => true) jumpFeed = some d' ∧
      SettlesDue 2 (fun _ => true) twoFound 9 d ∧ SettlesDue 2 (fun _ => true) twoFound 9 d' ∧
      d.ledger.digest Sha256.sha256d {} = d'.ledger.digest Sha256.sha256d {} :=
  (fed_same_iff (by decide) fair_slowFeed fair_jumpFeed).mpr ⟨by decide, by decide⟩

def zeroFeed : List Feed := [.register { bid := [1], foundHeight := 0 }, .advance 1]

theorem fair_zeroFeed : Fair 0 [{ bid := [1], foundHeight := 0 }] 1 zeroFeed where
  candidates := List.Perm.refl _
  timely := by
    intro pre c post heq
    rcases pre with _ | ⟨a, _ | ⟨b, pre⟩⟩ <;> simp_all [zeroFeed]
    exact fun h hh => (not_mem_nil hh).elim
  reaches := by decide +kernel
  highest := by simp [heights, zeroFeed]

/-- A gate at 0 is driven at height 1. -/
theorem fed_zeroFeed : Fair 0 [{ bid := [1], foundHeight := 0 }] 1 zeroFeed ∧
    ¬ ∃ d d', fed Sha256.sha256d {} 0 (fun _ => 0) (fun _ => true) zeroFeed = some d ∧
      fed Sha256.sha256d {} 0 (fun _ => 0) (fun _ => true) zeroFeed = some d' ∧
      SettlesDue 0 (fun _ => true) [{ bid := [1], foundHeight := 0 }] 1 d ∧
      SettlesDue 0 (fun _ => true) [{ bid := [1], foundHeight := 0 }] 1 d' ∧
      d.ledger.digest Sha256.sha256d {} = d'.ledger.digest Sha256.sha256d {} := by
  refine ⟨fair_zeroFeed, ?_⟩
  rintro ⟨d, d', hd, -, hdue, -, -⟩
  exact gate_ne_zero_of_settlesDue (by decide) hd hdue (mem_singleton.mpr rfl) rfl (by decide)

end FinalizeDriver

end C2Pool.V37
