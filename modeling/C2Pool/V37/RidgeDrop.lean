import C2Pool.V37.RidgeShed

/-! # The edge of the ladder

Cells that have reached the edge of the ladder are dropped, and the scalars of
the cells that stay are brought to the clock.
-/

namespace C2Pool.V37

open List Lane PartialRun UndoLog SortedMap Holding Function

variable {env : Env} {sure total : Prop} {held : Holding} {lane : Lane} {c : Nr.Cell} {l : Nat}
  {start lane' : Lane}

namespace Holding

/-- Drop the cells of `G` with all their bins. -/
def dropWhere (G : Nat → Nat → Bool) (held : Holding) : Holding :=
  held.filterMap fun b x => if G x.level (b / Nr.powR x.level) then none else some x

variable {G : Nat → Nat → Bool}

theorem lookup_dropWhere_eq_some {b : Nat} {x : Held} :
    (held.dropWhere G).lookup b = some x ↔
      held.lookup b = some x ∧ G x.level (b / Nr.powR x.level) = false := by
  unfold dropWhere
  rw [lookup_filterMap, Option.bind_eq_some_iff]
  constructor
  · rintro ⟨y, hy, hif⟩
    split at hif
    · cases hif
    rename_i hG
    cases hif
    exact ⟨hy, by simpa using hG⟩
  rintro ⟨hx, hG⟩
  refine ⟨x, hx, ?_⟩
  rw [hG]
  rfl

theorem dropWhere_congr {G' : Nat → Nat → Bool} (h : ∀ b x, held.lookup b = some x →
      G x.level (b / Nr.powR x.level) = G' x.level (b / Nr.powR x.level)) :
    held.dropWhere G = held.dropWhere G' := by
  apply ext_lookup
  intro b
  unfold dropWhere
  rw [lookup_filterMap, lookup_filterMap]
  cases hb : held.lookup b with
  | none => rfl
  | some x => rw [Option.bind_some, Option.bind_some, h b x hb]

theorem members_dropWhere (l i : Nat) :
    (held.dropWhere G).members l i = if G l i then ∅ else held.members l i := by
  apply ext_lookup
  intro b
  rw [Option.ext_iff]
  intro x
  split
  · rename_i hG
    constructor
    · intro hx
      obtain ⟨hdropped, rfl, rfl⟩ := lookup_members_eq_some.mp hx
      obtain ⟨-, hno⟩ := lookup_dropWhere_eq_some.mp hdropped
      rw [hG] at hno
      cases hno
    · intro hx
      cases hx
  rename_i hG
  rw [lookup_members_eq_some, lookup_dropWhere_eq_some, lookup_members_eq_some]
  constructor
  · rintro ⟨⟨hx, -⟩, hcond⟩
    exact ⟨hx, hcond⟩
  · rintro ⟨hx, rfl, rfl⟩
    exact ⟨⟨hx, by simpa using hG⟩, rfl, rfl⟩

theorem cell_dropWhere (l i : Nat) :
    (held.dropWhere G).cell l i = if G l i then none else held.cell l i := by
  unfold cell
  rw [members_dropWhere]
  split
  · rw [if_pos rfl]
  · rfl

/-- The cells of `G` and cell `i` of level `l`. -/
def andCell (G : Nat → Nat → Bool) (l i : Nat) : Nat → Nat → Bool :=
  fun l' i' => G l' i' || decide (l' = l ∧ i' = i)

theorem cell_dropWhere_andCell (l i l' i' : Nat) : (held.dropWhere (andCell G l i)).cell l' i' =
    if l' = l ∧ i' = i then none else (held.dropWhere G).cell l' i' := by
  rw [cell_dropWhere, cell_dropWhere]
  unfold andCell
  by_cases hboth : l' = l ∧ i' = i
  · rw [if_pos hboth, decide_eq_true hboth, Bool.or_true, if_pos rfl]
  · rw [if_neg hboth, decide_eq_false hboth, Bool.or_false]

theorem Sound.dropWhere {canon : CanonicalTables} {cap : Nat} (h : held.Sound canon cap) :
    (held.dropWhere G).Sound canon cap := by
  constructor
  · intro b x hx
    exact h.ok (lookup_dropWhere_eq_some.mp hx).1
  · intro b x hx
    exact h.framed (lookup_dropWhere_eq_some.mp hx).1
  · intro b x hx
    exact h.level_le (lookup_dropWhere_eq_some.mp hx).1
  · intro b x hx
    exact h.shed (lookup_dropWhere_eq_some.mp hx).1
  · intro b x b' x' hx hx'
    exact h.even (lookup_dropWhere_eq_some.mp hx).1 (lookup_dropWhere_eq_some.mp hx').1

theorem fine_dropWhere
    (h : ∀ b x, held.lookup b = some x → G x.level (b / Nr.powR x.level) = true → x.shed = true) :
    (held.dropWhere G).fine = held.fine := by
  apply ext_lookup
  intro b
  rw [lookup_fine, lookup_fine]
  unfold dropWhere
  rw [lookup_filterMap]
  cases hb : held.lookup b with
  | none => rfl
  | some x =>
    rw [Option.bind_some, Option.bind_some]
    split
    · rename_i hG
      rw [h b x hb hG]
      rfl
    · rfl

end Holding

/-! ## Cells -/

/-- Whether cell `i` of level `l` has reached the edge at clock `t`. -/
def beyond (t l i : Nat) : Bool :=
  decide ((spanHi l i + Nr.ladderDomainBins) % 2 ^ 64 ≤ t)

theorem beyond_iff {t i : Nat} (hhi : c.binHi = spanHi l i)
    (ht : lane.ridge.t = t) : lane.beyondDomain c ↔ beyond t l i = true := by
  have hedge : lane.beyondDomain c ↔
      (c.binHi + Nr.ladderDomainBins) % 2 ^ 64 ≤ lane.ridge.t := Iff.rfl
  rw [hedge, hhi, ht]
  exact decide_eq_true_iff.symm

/-- A lane that has dropped the cells of `G`, all of them fully carried. -/
structure Lane.Dropping (env : Env) (total : Prop) (start : Lane) (held₀ : Holding)
    (G : Nat → Nat → Bool) (lane : Lane) : Prop where
  holds : lane.Holds env (held₀.dropWhere G)
  sound : held₀.Sound env.canon start.params.nr.foldCap
  gone : ∀ b x, held₀.lookup b = some x → G x.level (b / Nr.powR x.level) = true → x.shed = true
  traced : Traced env total start lane
  ticked : start.Ticked lane
  record : lane.ridge.record = start.ridge.record
  mmr : lane.mmr = start.mmr

theorem Lane.Dropping.congr {held₀ : Holding} {G G' : Nat → Nat → Bool}
    (h : Dropping env total start held₀ G lane) (hG : ∀ b x, held₀.lookup b = some x →
      G x.level (b / Nr.powR x.level) = G' x.level (b / Nr.powR x.level)) :
    Dropping env total start held₀ G' lane := by
  refine { h with holds := dropWhere_congr hG ▸ h.holds, gone := ?_ }
  intro b x hb hyes
  rw [← hG b x hb] at hyes
  exact h.gone b x hb hyes

def Lane.withoutCell (lane : Lane) (l i : Nat) (c : Nr.Cell) : Lane :=
  (lane.setLevel l ((lane.ridge.cells l).erase i)).record (.nrDrop l i c)

theorem Lane.lookup_withoutCell (lane : Lane) (l i : Nat) (c : Nr.Cell) (l' i' : Nat) :
    ((lane.withoutCell l i c).ridge.cells l').lookup i' =
      if l' = l ∧ i' = i then none else (lane.ridge.cells l').lookup i' := by
  show (Function.update lane.ridge.cells l ((lane.ridge.cells l).erase i) l').lookup i' = _
  by_cases hl : l' = l
  · subst hl
    rw [update_self, lookup_erase]
    simp
  · rw [update_of_ne hl, if_neg fun hboth => hl hboth.1]

section Cell

variable {held₀ : Holding} {G : Nat → Nat → Bool} {i : Nat}
  (h : Dropping env total start held₀ G lane) (hc : (lane.ridge.cells l).lookup i = some c)
include h hc

theorem Lane.Dropping.fullyCarried_iff : c.fullyCarried ↔
    ∀ b x, (held₀.members l i).lookup b = some x → x.shed = true := by
  obtain ⟨hne, hover⟩ := h.holds.shows.cell hc
  have hok : ∀ b x, ((held₀.dropWhere G).members l i).lookup b = some x → BinOk b x.bin :=
    fun b x hx => h.holds.sound.ok (lookup_members_eq_some.mp hx).1
  have hmembers : (held₀.dropWhere G).members l i = held₀.members l i := by
    rw [members_dropWhere] at hne ⊢
    split at hne
    · exact absurd rfl hne
    · rename_i hG
      rw [if_neg hG]
  rw [← hmembers, ← Holding.fullyCarried_iff hok l i, ← hover]
  rfl

theorem Lane.Dropping.withoutCell (hfully : c.fullyCarried) :
    Dropping env total start held₀ (andCell G l i) (lane.withoutCell l i c) := by
  have hgone : ∀ b x, held₀.lookup b = some x →
      andCell G l i x.level (b / Nr.powR x.level) = true → x.shed = true := by
    intro b x hb hG
    unfold andCell at hG
    rw [Bool.or_eq_true, decide_eq_true_iff] at hG
    rcases hG with hG | ⟨rfl, hi⟩
    · exact h.gone b x hb hG
    · exact (h.fullyCarried_iff hc).mp hfully b x (lookup_members_eq_some.mpr ⟨hb, rfl, hi⟩)
  have hfine : (held₀.dropWhere (andCell G l i)).fine = lane.ridge.fine := by
    rw [fine_dropWhere hgone, h.holds.shows.fine, fine_dropWhere h.gone]
  have hshows : (lane.withoutCell l i c).ridge.Shows (held₀.dropWhere (andCell G l i)) := by
    refine ⟨hfine.symm, ?_⟩
    intro l' i'
    rw [lane.lookup_withoutCell, cell_dropWhere_andCell]
    split
    · rfl
    · exact h.holds.shows.cells l' i'
  have hticked : lane.Ticked (lane.withoutCell l i c) :=
    ⟨lane.ridge.fine, _, lane.ridge.record, lane.mmr, _, rfl⟩
  refine ⟨⟨hshows, ?_⟩, h.sound, hgone, h.traced.trans ?_, h.ticked.trans hticked, h.record, h.mmr⟩
  · rw [(h.ticked.trans hticked).fields.1]
    exact h.sound.dropWhere
  refine .of_undo rfl rfl ?_
  intro s hs
  have hsshows := hshows.of_alike hs.ridge.fine hs.ridge.cells
  refine .ok (hticked.equiv hs ⟨s.ridge.fine, _, s.ridge.record, s.mmr, s.journal, rfl⟩
    (hsshows.fine.trans hfine) ?_ hs.ridge.record hs.mmr)
  intro l' i'
  show ((Function.update s.ridge.cells l ((s.ridge.cells l).insert i c) l').lookup i').map _ = _
  have hs' := hsshows.cells l' i'
  rw [cell_dropWhere_andCell] at hs'
  by_cases hl : l' = l
  · subst hl
    rw [update_self, lookup_insert]
    by_cases hi : i' = i
    · subst hi
      rw [if_pos rfl, hc]
    rw [if_neg hi]
    rw [if_neg fun hboth => hi hboth.2] at hs'
    rw [hs', ← h.holds.shows.cells]
  rw [update_of_ne hl]
  rw [if_neg fun hboth => hl hboth.1] at hs'
  rw [hs', ← h.holds.shows.cells]

theorem Lane.Dropping.step (hsure : sure → beyond start.ridge.t l i = true →
      ∀ b x, held₀.lookup b = some x → x.level = l → b / Nr.powR l = i → x.shed = true) :
    Meets sure (nrDropCell l lane (i, c)) fun lane' =>
      Dropping env total start held₀
        (fun l' i' => G l' i' || decide (l' = l ∧ i' = i) && beyond start.ridge.t l i) lane' ∧
        ∀ l' i', ¬ (l' = l ∧ i' = i) →
          (lane'.ridge.cells l').lookup i' = (lane.ridge.cells l').lookup i' := by
  obtain ⟨-, ht, -⟩ := h.ticked.fields
  obtain ⟨-, -, hhi, -⟩ := h.holds.shows.binLo hc
  have hbeyond := beyond_iff hhi ht
  unfold nrDropCell
  by_cases hreached : lane.beyondDomain c
  swap
  · rw [if_pos hreached]
    have hno : beyond start.ridge.t l i = false :=
      Bool.eq_false_iff.mpr fun hb => hreached (hbeyond.mpr hb)
    refine .ok ⟨h.congr ?_, fun _ _ _ => rfl⟩
    intro b x _
    rw [hno, Bool.and_false, Bool.or_false]
  have hyes := hbeyond.mp hreached
  rw [if_neg (not_not.mpr hreached)]
  by_cases hfully : c.fullyCarried
  · rw [if_neg (not_not.mpr hfully)]
    refine .ok ⟨?_, fun l' i' hnot => (lane.lookup_withoutCell l i c l' i').trans (if_neg hnot)⟩
    rw [hyes]
    simp only [Bool.and_true]
    exact h.withoutCell hc hfully
  rw [if_pos hfully]
  refine .error fun hsurely => hfully ((h.fullyCarried_iff hc).mpr ?_)
  intro b x hx
  obtain ⟨hx, hlevel, hi⟩ := lookup_members_eq_some.mp hx
  exact hsure hsurely hyes b x hx hlevel hi

end Cell

section Loop

variable {start : Lane} {held₀ : Holding}

/-- A lane that has gone through the levels below `n` and is at level `n`, with
`rest` still to be looked at. -/
structure Lane.DroppingAt (env : Env) (total : Prop) (start : Lane) (held₀ : Holding) (n : Nat)
    (rest : List (Nat × Nr.Cell)) (lane : Lane) : Prop where
  dropping : Dropping env total start held₀ (fun l i =>
    (decide (l < n) || decide (l = n ∧ i ∉ rest.map Prod.fst)) && beyond start.ridge.t l i) lane
  ahead : ∀ e ∈ rest, (lane.ridge.cells n).lookup e.1 = some e.2
  sorted : rest.Pairwise fun a b => a.1 < b.1

theorem Lane.Dropping.nrDropLevel (hsure : sure → ∀ b x, held₀.lookup b = some x →
      beyond start.ridge.t x.level (b / Nr.powR x.level) = true → x.shed = true)
    {n : Nat} {lane : Lane} (h : Dropping env total start held₀
      (fun l i => decide (l < n) && beyond start.ridge.t l i) lane) :
    Meets sure ((lane.ridge.cells n).entries.foldlM (nrDropCell n) lane)
      (Dropping env total start held₀
        fun l i => decide (l < n + 1) && beyond start.ridge.t l i) := by
  have hstep : ∀ e rest s, DroppingAt env total start held₀ n (e :: rest) s →
      Meets sure (nrDropCell n s e) (DroppingAt env total start held₀ n rest) := by
    rintro ⟨i, c⟩ rest s ⟨hs, hahead, hsorted⟩
    rw [pairwise_cons] at hsorted
    have hshed : sure → beyond start.ridge.t n i = true → ∀ b x, held₀.lookup b = some x →
        x.level = n → b / Nr.powR n = i → x.shed = true := by
      intro hyes hb b x hx hl hi
      refine hsure hyes b x hx ?_
      rw [hl, hi]
      exact hb
    refine (hs.step (hahead (i, c) mem_cons_self) hshed).mono ?_
    rintro s' ⟨hs', hothers⟩
    refine ⟨hs'.congr ?_, ?_, hsorted.2⟩
    · intro b x _
      have hfresh : i ∉ rest.map Prod.fst := by
        intro hin
        obtain ⟨e, he, heq⟩ := mem_map.mp hin
        exact absurd (heq ▸ hsorted.1 e he) (lt_irrefl i)
      rw [Bool.eq_iff_iff]
      simp only [Bool.or_eq_true, Bool.and_eq_true, decide_eq_true_iff, map_cons, mem_cons, not_or]
      constructor
      · rintro (⟨hlt | ⟨hl, -, hrest⟩, hb⟩ | ⟨⟨hl, hi⟩, hb⟩)
        · exact ⟨.inl hlt, hb⟩
        · exact ⟨.inr ⟨hl, hrest⟩, hb⟩
        · rw [hl] at hi
          rw [hl, hi]
          exact ⟨.inr ⟨rfl, hfresh⟩, hb⟩
      rintro ⟨hlt | ⟨hl, hrest⟩, hb⟩
      · exact .inl ⟨.inl hlt, hb⟩
      by_cases hi : b / Nr.powR x.level = i
      · rw [hi, hl] at hb
        exact .inr ⟨⟨hl, hi⟩, hb⟩
      · exact .inl ⟨.inr ⟨hl, hi, hrest⟩, hb⟩
    intro e he
    rw [hothers n e.1 fun hboth => ne_of_gt (hsorted.1 e he) hboth.2]
    exact hahead e (mem_cons_of_mem _ he)
  have hinit : DroppingAt env total start held₀ n (lane.ridge.cells n).entries lane := by
    refine ⟨h.congr ?_, fun e he => mem_entries_iff.mp he, (lane.ridge.cells n).sorted⟩
    intro b x hb
    rw [Bool.eq_iff_iff]
    simp only [Bool.or_eq_true, Bool.and_eq_true, decide_eq_true_iff]
    constructor
    · rintro ⟨hlt, hyes⟩
      exact ⟨.inl hlt, hyes⟩
    rintro ⟨hlt | ⟨hl, hnot⟩, hyes⟩
    · exact ⟨hlt, hyes⟩
    -- A cell of this level is still there.
    · subst hl
      have hkept : (held₀.dropWhere fun l i => decide (l < x.level) &&
          beyond start.ridge.t l i).lookup b = some x := by
        refine lookup_dropWhere_eq_some.mpr ⟨hb, ?_⟩
        rw [decide_eq_false (lt_irrefl _), Bool.false_and]
      have hcell := h.holds.shows.cells x.level (b / Nr.powR x.level)
      unfold Holding.cell at hcell
      rw [if_neg (members_ne_empty.mpr ⟨b, x, hkept, rfl, rfl⟩)] at hcell
      obtain ⟨c, hc, -⟩ := Option.map_eq_some_iff.mp hcell
      exact absurd (mem_map.mpr ⟨_, mem_entries_iff.mpr hc, rfl⟩) hnot
  refine (Meets.foldlM hstep hinit).mono ?_
  rintro lane' ⟨hlast, -, -⟩
  refine hlast.congr ?_
  intro b x _
  rw [Bool.eq_iff_iff]
  simp only [Bool.or_eq_true, Bool.and_eq_true, decide_eq_true_iff, map_nil,
    not_mem_nil, not_false_eq_true, and_true]
  rw [Nat.lt_succ_iff_lt_or_eq]

theorem Lane.Holds.dropCells (h : start.Holds env held₀)
    (hsure : sure → ∀ b x, held₀.lookup b = some x →
      beyond start.ridge.t x.level (b / Nr.powR x.level) = true → x.shed = true) :
    Meets sure ((List.range (start.params.nr.foldCap + 1)).foldlM
      (fun lane l => (lane.ridge.cells l).entries.foldlM (nrDropCell l) lane) start)
      (Dropping env total start held₀ (beyond start.ridge.t)) := by
  have hinit : Dropping env total start held₀
      (fun l i => decide (l < 0) && beyond start.ridge.t l i) start := by
    have hall : held₀.dropWhere (fun l i => decide (l < 0) && beyond start.ridge.t l i) =
        held₀ := by
      apply ext_lookup
      intro b
      rw [Option.ext_iff]
      intro x
      rw [lookup_dropWhere_eq_some, decide_eq_false (Nat.not_lt_zero _), Bool.false_and]
      exact and_iff_left rfl
    refine ⟨hall.symm ▸ h, h.sound, ?_, .refl start, ?_, rfl, rfl⟩
    · intro b x _ hyes
      cases hyes
    · exact ⟨start.ridge.fine, start.ridge.cells, start.ridge.record, start.mmr, start.journal, rfl⟩
  have hstep : ∀ n s, n < start.params.nr.foldCap + 1 →
      Dropping env total start held₀ (fun l i => decide (l < n) && beyond start.ridge.t l i) s →
      Meets sure ((s.ridge.cells n).entries.foldlM (nrDropCell n) s)
        (Dropping env total start held₀
          fun l i => decide (l < n + 1) && beyond start.ridge.t l i) :=
    fun n s _ hs => hs.nrDropLevel hsure
  refine (Meets.foldlM_range hstep hinit).mono ?_
  intro lane hlast
  refine hlast.congr ?_
  intro b x hb
  rw [decide_eq_true (Nat.lt_succ_of_le (h.sound.level_le hb)), Bool.true_and]

end Loop

/-! ## Record cells -/

theorem beyondDomain_congr (ht : lane'.ridge.t = lane.ridge.t) {c' : Nr.Cell}
    (hhi : c'.binHi = c.binHi) : lane'.beyondDomain c' ↔ lane.beyondDomain c := by
  have hedge : lane'.beyondDomain c' ↔
      (c'.binHi + Nr.ladderDomainBins) % 2 ^ 64 ≤ lane'.ridge.t := Iff.rfl
  rw [hedge, hhi, ht]
  exact Iff.rfl

theorem Lane.nrDropRecordCell_meets {b : Nat} (hb : lane.ridge.record.lookup b = some c)
    (hsure : sure → lane.beyondDomain c → c.fullyCarried) :
    Meets sure (nrDropRecordCell lane (b, c)) fun lane' =>
      RecordStep env total lane lane' ∧ lane'.mmr = lane.mmr ∧
        ∀ k d, lane'.ridge.record.lookup k = some d ↔
          lane.ridge.record.lookup k = some d ∧ ¬ (k = b ∧ lane.beyondDomain d) := by
  by_cases hreached : lane.beyondDomain c
  swap
  · unfold nrDropRecordCell
    rw [if_pos hreached]
    refine .ok ⟨.refl lane, rfl, fun k d => ⟨fun hk => ⟨hk, ?_⟩, fun hk => hk.1⟩⟩
    rintro ⟨rfl, hd⟩
    cases hb.symm.trans hk
    exact hreached hd
  by_cases hfull : c.fullyCarried
  swap
  · unfold nrDropRecordCell
    rw [if_neg (not_not.mpr hreached), if_pos hfull]
    exact .error fun hyes => hfull (hsure hyes hreached)
  have hdrop : nrDropRecordCell lane (b, c) =
      .ok ((lane.setRecord (lane.ridge.record.erase b)).record (.nrDropRecord b c)) := by
    unfold nrDropRecordCell
    rw [if_neg (not_not.mpr hreached), if_neg (not_not.mpr hfull)]
  rw [hdrop]
  have hticked : lane.Ticked
      ((lane.setRecord (lane.ridge.record.erase b)).record (.nrDropRecord b c)) :=
    ⟨lane.ridge.fine, lane.ridge.cells, lane.ridge.record.erase b, lane.mmr, _, rfl⟩
  refine .ok ⟨⟨.of_undo rfl rfl ?_, hticked, rfl, rfl⟩, rfl, ?_⟩
  · intro s hs
    have halike : CellsAlike s.ridge.record (lane.ridge.record.erase b) := hs.ridge.record
    refine .ok (hticked.equiv hs ⟨s.ridge.fine, s.ridge.cells, _, s.mmr, s.journal, rfl⟩
      hs.ridge.fine hs.ridge.cells ?_ hs.mmr)
    intro k
    show ((s.ridge.record.insert b c).lookup k).map _ = _
    have hk := halike k
    rw [lookup_erase] at hk
    rw [lookup_insert]
    split
    · rename_i heq
      rw [heq, hb]
    · rename_i hne
      rw [hk, if_neg hne]
  intro k d
  show (lane.ridge.record.erase b).lookup k = some d ↔ _
  rw [lookup_erase]
  split
  · rename_i heq
    subst heq
    constructor
    · intro h
      cases h
    rintro ⟨hk, hnot⟩
    cases hb.symm.trans hk
    exact absurd ⟨rfl, hreached⟩ hnot
  · rename_i hne
    exact (and_iff_left fun hboth => hne hboth.1).symm

/-- A lane on its way through its record cells, with `rest` still to be looked at. -/
structure Lane.DroppingRecord (env : Env) (total : Prop) (start : Lane)
    (rest : List (Nat × Nr.Cell)) (lane : Lane) : Prop where
  step : RecordStep env total start lane
  mmr : lane.mmr = start.mmr
  left : ∀ k d, lane.ridge.record.lookup k = some d ↔
    start.ridge.record.lookup k = some d ∧ ¬ (k ∉ rest.map Prod.fst ∧ start.beyondDomain d)
  held : ∀ e ∈ rest, start.ridge.record.lookup e.1 = some e.2
  sorted : rest.Pairwise fun a b => a.1 < b.1

theorem Lane.dropRecord
    (hsure : sure → ∀ k d, lane.ridge.record.lookup k = some d → lane.beyondDomain d →
      d.fullyCarried) :
    Meets sure (lane.ridge.record.entries.foldlM nrDropRecordCell lane) fun lane' =>
      RecordStep env total lane lane' ∧ lane'.mmr = lane.mmr ∧
        ∀ k d, lane'.ridge.record.lookup k = some d ↔
          lane.ridge.record.lookup k = some d ∧ ¬ lane.beyondDomain d := by
  have hstep : ∀ e rest s, DroppingRecord env total lane (e :: rest) s →
      Meets sure (nrDropRecordCell s e) (DroppingRecord env total lane rest) := by
    rintro ⟨b, c⟩ rest s ⟨hs, hmmr, hleft, hheld, hsorted⟩
    rw [pairwise_cons] at hsorted
    have hstart := hheld (b, c) mem_cons_self
    have hedge : ∀ d, s.beyondDomain d ↔ lane.beyondDomain d :=
      fun d => beyondDomain_congr hs.ticked.fields.2.1 rfl
    have hb : s.ridge.record.lookup b = some c :=
      (hleft b c).mpr ⟨hstart, fun hboth => hboth.1 mem_cons_self⟩
    have hmeets : Meets sure (nrDropRecordCell s (b, c)) fun s' =>
        RecordStep env total s s' ∧ s'.mmr = s.mmr ∧
          ∀ k d, s'.ridge.record.lookup k = some d ↔
            s.ridge.record.lookup k = some d ∧ ¬ (k = b ∧ s.beyondDomain d) :=
      nrDropRecordCell_meets hb fun hyes hreached =>
        hsure hyes b c hstart ((hedge c).mp hreached)
    refine hmeets.mono ?_
    rintro s' ⟨hs', hmmr', hleft'⟩
    refine ⟨hs.trans hs', hmmr'.trans hmmr, ?_, fun e he => hheld e (mem_cons_of_mem _ he),
      hsorted.2⟩
    intro k d
    have hfresh : b ∉ rest.map Prod.fst := by
      intro hin
      obtain ⟨e, he, heq⟩ := mem_map.mp hin
      exact absurd (heq ▸ hsorted.1 e he) (lt_irrefl b)
    rw [hleft', hleft, hedge, map_cons, mem_cons]
    by_cases hk : k = b
    · subst hk
      simp [hfresh]
    · simp [hk]
  have hinit : DroppingRecord env total lane lane.ridge.record.entries lane := by
    refine ⟨.refl lane, rfl, fun k d => ⟨fun hk => ⟨hk, ?_⟩, fun hk => hk.1⟩,
      fun e he => mem_entries_iff.mp he, lane.ridge.record.sorted⟩
    rintro ⟨hnot, -⟩
    exact hnot (mem_map.mpr ⟨(k, d), mem_entries_iff.mpr hk, rfl⟩)
  refine (Meets.foldlM hstep hinit).mono ?_
  rintro lane' ⟨hs, hmmr, hleft, -, -⟩
  refine ⟨hs, hmmr, fun k d => ?_⟩
  rw [hleft, map_nil]
  simp

theorem Lane.Holds.nrDropBeyondDomain (h : lane.Holds env held)
    (hrecord : RecordOk lane.ridge.record) (hsure : sure → (∀ b x, held.lookup b = some x →
        beyond lane.ridge.t x.level (b / Nr.powR x.level) = true → x.shed = true) ∧
      ∀ k d, lane.ridge.record.lookup k = some d → lane.beyondDomain d → d.fullyCarried) :
    Meets sure lane.nrDropBeyondDomain fun lane' =>
      lane'.Holds env (held.dropWhere (beyond lane.ridge.t)) ∧
        (∀ b x, held.lookup b = some x →
          beyond lane.ridge.t x.level (b / Nr.powR x.level) = true → x.shed = true) ∧
        Traced env total lane lane' ∧ lane.Ticked lane' ∧ lane'.mmr = lane.mmr ∧
        RecordOk lane'.ridge.record ∧
        ∀ k d, lane'.ridge.record.lookup k = some d ↔
          lane.ridge.record.lookup k = some d ∧ ¬ lane.beyondDomain d := by
  have hcells : Meets sure ((List.range (lane.params.nr.foldCap + 1)).foldlM
      (fun lane l => (lane.ridge.cells l).entries.foldlM (nrDropCell l) lane) lane)
      (Dropping env total lane held (beyond lane.ridge.t)) := h.dropCells fun hyes => (hsure hyes).1
  refine hcells.bind ?_
  intro mid hmid
  have hedge : ∀ d, mid.beyondDomain d ↔ lane.beyondDomain d :=
    fun d => beyondDomain_congr hmid.ticked.fields.2.1 rfl
  have hlast : Meets sure (mid.ridge.record.entries.foldlM nrDropRecordCell mid) fun lane' =>
      RecordStep env total mid lane' ∧ lane'.mmr = mid.mmr ∧
        ∀ k d, lane'.ridge.record.lookup k = some d ↔
          mid.ridge.record.lookup k = some d ∧ ¬ mid.beyondDomain d := by
    refine dropRecord fun hyes k d hk hreached => (hsure hyes).2 k d ?_ ((hedge d).mp hreached)
    rwa [hmid.record] at hk
  refine hlast.mono ?_
  rintro lane' ⟨hstep, hmmr, hleft⟩
  have hleft' : ∀ k d, lane'.ridge.record.lookup k = some d ↔
      lane.ridge.record.lookup k = some d ∧ ¬ lane.beyondDomain d := by
    intro k d
    rw [hleft, hmid.record, hedge]
  exact ⟨hmid.holds.of_recordStep hstep, hmid.gone, hmid.traced.trans hstep.traced,
    hmid.ticked.trans hstep.ticked, hmmr.trans hmid.mmr,
    fun k d hk => hrecord k d ((hleft' k d).mp hk).1, hleft'⟩

theorem mem_nrAllCells {r : Ridge} :
    c ∈ nrAllCells r ↔ (∃ l ≤ Nr.maxFoldCap, ∃ i, (r.cells l).lookup i = some c) ∨
      ∃ b, r.record.lookup b = some c := by
  unfold nrAllCells
  rw [mem_append, mem_flatMap, mem_map]
  constructor
  · rintro (⟨l, hl, hc⟩ | ⟨e, he, rfl⟩)
    · obtain ⟨e, he, rfl⟩ := mem_map.mp hc
      exact .inl ⟨l, Nat.lt_succ_iff.mp (mem_range.mp hl), e.1, mem_entries_iff.mp he⟩
    · exact .inr ⟨e.1, mem_entries_iff.mp he⟩
  rintro (⟨l, hl, i, hc⟩ | ⟨b, hb⟩)
  · exact .inl ⟨l, mem_range.mpr (Nat.lt_succ_iff.mpr hl),
      mem_map.mpr ⟨(i, c), mem_entries_iff.mpr hc, rfl⟩⟩
  · exact .inr ⟨(b, c), mem_entries_iff.mpr hb, rfl⟩

theorem Lane.rescaled {m : SortedMap Nat Nr.Cell}
    (h : ∀ i c, m.lookup i = some c → ∃ g, lane.scalar env c.binHi = .ok g) :
    CellsAlike (m.filterMap fun _ c => lane.rescale env c) m ∧
      ∀ i c, (m.filterMap fun _ c => lane.rescale env c).lookup i = some c →
        lane.scalar env c.binHi = .ok c.G := by
  refine ⟨?_, ?_⟩
  · intro i
    rw [lookup_filterMap]
    cases hc : m.lookup i with
    | none => rfl
    | some c =>
      obtain ⟨g, hg⟩ := h i c hc
      rw [Option.bind_some]
      unfold rescale
      rw [hg]
      rfl
  intro i c hc
  rw [lookup_filterMap] at hc
  obtain ⟨c₀, hc₀, hscaled⟩ := Option.bind_eq_some_iff.mp hc
  obtain ⟨g, hg⟩ := h i c₀ hc₀
  unfold rescale at hscaled
  rw [hg] at hscaled
  cases hscaled
  exact hg

theorem Lane.Holds.cells_top (h : lane.Holds env held)
    (hcap : lane.params.nr.foldCap ≤ Nr.maxFoldCap) (hl : Nr.maxFoldCap < l) :
    lane.ridge.cells l = ∅ := by
  rw [eq_empty_iff]
  intro i
  cases hc : (lane.ridge.cells l).lookup i with
  | none => rfl
  | some c =>
    obtain ⟨hne, -⟩ := h.shows.cell hc
    obtain ⟨b, x, hb, hlevel, -⟩ := members_ne_empty.mp hne
    have hle := h.sound.level_le hb
    omega

theorem Lane.refresh_meets (htop : ∀ l, Nr.maxFoldCap < l → lane.ridge.cells l = ∅)
    (hsure : sure → ∀ c ∈ nrAllCells lane.ridge, ∃ g, lane.scalar env c.binHi = .ok g) :
    Meets sure (lane.nrRefreshScalars env) fun lane' =>
      lane' ≈ lane ∧ lane'.Scaled env ∧ lane'.journal = lane.journal ∧ lane.Ticked lane' := by
  refine ⟨?_, ?_⟩
  · intro lane' hok
    obtain ⟨hscalars, rfl⟩ := nrRefreshScalars_eq_ok hok
    have hcells : ∀ l i c, (lane.ridge.cells l).lookup i = some c →
        ∃ g, lane.scalar env c.binHi = .ok g := by
      intro l i c hc
      by_cases hl : l ≤ Nr.maxFoldCap
      · exact hscalars c (mem_nrAllCells.mpr (.inl ⟨l, hl, i, hc⟩))
      · rw [htop l (not_le.mp hl)] at hc
        cases hc
    have hrecord : ∀ b c, lane.ridge.record.lookup b = some c →
        ∃ g, lane.scalar env c.binHi = .ok g :=
      fun b c hc => hscalars c (mem_nrAllCells.mpr (.inr ⟨b, hc⟩))
    refine ⟨⟨rfl, rfl, rfl, rfl, rfl, rfl, .refl _, ⟨rfl, rfl, rfl, rfl, rfl, fun l => (rescaled
      (hcells l)).1, (rescaled hrecord).1, rfl, rfl, rfl, rfl, rfl⟩⟩, ⟨fun l => (rescaled (hcells
      l)).2, (rescaled hrecord).2⟩, rfl, ⟨lane.ridge.fine, _, _, lane.mmr, lane.journal, rfl⟩⟩
  intro hyes
  unfold nrRefreshScalars
  have hnone : ((nrAllCells lane.ridge).findSome? fun c =>
      PartialRun.failure (lane.scalar env c.binHi)) = none := by
    rw [findSome?_eq_none_iff]
    intro c hc
    obtain ⟨g, hg⟩ := hsure hyes c hc
    rw [hg]
    rfl
  rw [hnone]
  exact ⟨_, rfl⟩

theorem Lane.Holds.of_equiv (h : lane.Holds env held) (hsame : lane' ≈ lane) :
    lane'.Holds env held :=
  ⟨h.shows.of_alike hsame.ridge.fine hsame.ridge.cells, hsame.params ▸ h.sound⟩

theorem RecordOk.of_alike {m m' : SortedMap Nat Nr.Cell} (h : RecordOk m)
    (hsame : CellsAlike m' m) :
    RecordOk m' := by
  intro b c hc
  obtain ⟨c', hc', heq⟩ := hsame.symm.lookup hc
  obtain ⟨hhi, hcases⟩ := h b c' hc'
  have hback : c = { c' with G := c.G } := by
    cases c
    cases c'
    cases heq
    rfl
  rw [hback]
  exact ⟨hhi, hcases⟩

end C2Pool.V37
