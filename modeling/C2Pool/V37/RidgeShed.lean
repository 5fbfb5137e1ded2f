import C2Pool.V37.RidgeLevels

/-! # Sheds and drops

A bin below the floor is shed: it leaves the fine layer and joins the carried
part of its cell.  A cell at the edge of the ladder is dropped with all its bins.
Both are recorded, and their records lead back.
-/

namespace C2Pool.V37

open List Lane PartialRun UndoLog SortedMap Holding Ledger Function

variable {env : Env} {sure total : Prop} {held : Holding} {es : List (MinerId × Nat)}
  {carried : Ledger MinerId} {record m' : SortedMap Nat Nr.Cell} {s s' start : Lane} {floor : Nat}
  {c : Nr.Cell} {id : Resolver} {m : SortedMap Nat Nr.Cell} {lane : Lane} {b : Nat} {x : Held}

namespace Holding

/-! ## Shed bins -/

def shedBin (b : Nat) (held : Holding) : Holding :=
  held.mapValues fun b' x => if b' = b then { x with shed := true } else x

theorem lookup_shedBin (b b' : Nat) :
    (held.shedBin b).lookup b' =
      (held.lookup b').map fun x => if b' = b then { x with shed := true } else x :=
  lookup_mapValues _ _ _

variable {b cap : Nat} {x : Held} {canon : CanonicalTables}

theorem lookup_shedBin_eq_some {b' : Nat} (h : (held.shedBin b).lookup b' = some x) :
    ∃ x₀, held.lookup b' = some x₀ ∧ x.bin = x₀.bin ∧ x.level = x₀.level ∧
      (x.shed = true ↔ x₀.shed = true ∨ b' = b) := by
  rw [lookup_shedBin] at h
  obtain ⟨x₀, hx₀, rfl⟩ := Option.map_eq_some_iff.mp h
  refine ⟨x₀, hx₀, ?_⟩
  split
  · rename_i hb
    exact ⟨rfl, rfl, by simp [hb]⟩
  · rename_i hb
    exact ⟨rfl, rfl, by simp [hb]⟩

theorem Sound.shedBin (h : held.Sound canon cap)
    (hdeep : ∀ x, held.lookup b = some x → x.level = cap) : (held.shedBin b).Sound canon cap := by
  constructor
  · intro b' x hx
    obtain ⟨x₀, hx₀, hbin, -, -⟩ := lookup_shedBin_eq_some hx
    exact hbin ▸ h.ok hx₀
  · intro b' x hx
    obtain ⟨x₀, hx₀, hbin, hlevel, -⟩ := lookup_shedBin_eq_some hx
    rw [hbin, hlevel]
    exact h.framed hx₀
  · intro b' x hx
    obtain ⟨x₀, hx₀, -, hlevel, -⟩ := lookup_shedBin_eq_some hx
    exact hlevel ▸ h.level_le hx₀
  · intro b' x hx hshed
    obtain ⟨x₀, hx₀, -, hlevel, hiff⟩ := lookup_shedBin_eq_some hx
    rw [hlevel]
    rcases hiff.mp hshed with hold | rfl
    · exact h.shed hx₀ hold
    · exact hdeep x₀ hx₀
  · intro b' x b'' x' hx hx' hsame
    obtain ⟨x₀, hx₀, -, hlevel, -⟩ := lookup_shedBin_eq_some hx
    obtain ⟨x₀', hx₀', -, hlevel', -⟩ := lookup_shedBin_eq_some hx'
    rw [hlevel, hlevel']
    exact h.even hx₀ hx₀' (hlevel ▸ hsame)

theorem members_shedBin (b l i : Nat) :
    (held.shedBin b).members l i = (held.members l i).shedBin b := by
  apply ext_lookup
  intro b'
  rw [lookup_members, lookup_shedBin, lookup_shedBin, lookup_members]
  cases held.lookup b' with
  | none => rfl
  | some x =>
    rw [Option.map_some, Option.bind_some, Option.bind_some]
    split
    · dsimp only
      split <;> rfl
    · split <;> rfl

theorem shedBin_of_none {b : Nat} (h : held.lookup b = none) : held.shedBin b = held := by
  apply ext_lookup
  intro b'
  rw [lookup_shedBin]
  by_cases hb : b' = b
  · rw [hb, h]
    rfl
  · simp [hb]

theorem bins_shedBin (b : Nat) : (held.shedBin b).bins = held.bins := by
  unfold bins shedBin
  rw [entries_mapValues, map_map]
  congr 1
  funext e
  dsimp only [comp_apply]
  split <;> rfl

theorem shedBins_perm (hb : held.lookup b = some x) :
    held.shedBins.Perm ((if x.shed then [x.bin] else []) ++ shedBins (held.erase b)) := by
  have hperm := ((entries_perm hb).filter fun e => e.2.shed).map fun e => e.2.bin
  refine hperm.trans ?_
  rw [filter_cons]
  split <;> exact List.Perm.refl _

theorem shedBins_shedBin (hb : held.lookup b = some x)
    (hlive : x.shed = false) : (held.shedBin b).shedBins.Perm (held.shedBins ++ [x.bin]) := by
  have hnew : (held.shedBin b).lookup b = some { x with shed := true } := by
    rw [lookup_shedBin, hb, Option.map_some, if_pos rfl]
  have hrest : (held.shedBin b).erase b = held.erase b := by
    apply ext_lookup
    intro b'
    rw [lookup_erase, lookup_erase, lookup_shedBin]
    by_cases hb' : b' = b
    · rw [if_pos hb', if_pos hb']
    · simp [hb']
  have hafter := shedBins_perm hnew
  have hbefore := shedBins_perm hb
  rw [hrest] at hafter
  rw [hlive] at hbefore
  have hmoved : (held.shedBin b).shedBins.Perm (shedBins (held.erase b) ++ [x.bin]) :=
    hafter.trans perm_append_comm
  exact hmoved.trans (hbefore.symm.append_right _)

theorem cellOver_shedBin (hb : held.lookup b = some x) (hlive : x.shed = false) (l i : Nat) :
    cellOver l i (held.shedBin b) = shedInto (cellOver l i held) x.bin := by
  have hperm := shedBins_shedBin hb hlive
  have hcarried : (∅ : Ledger MinerId).creditAll ((held.shedBin b).shedBins.flatMap binCredits) =
      ((∅ : Ledger MinerId).creditAll (held.shedBins.flatMap binCredits)).creditAll
        (binCredits x.bin) := by
    rw [← creditAll_append]
    apply creditAll_perm
    have hflat := hperm.flatMap_right binCredits
    rwa [flatMap_append, flatMap_singleton] at hflat
  have hraw : ((held.shedBin b).shedBins.map fun fb => fb.rawSum).sum =
      (held.shedBins.map fun fb => fb.rawSum).sum + x.bin.rawSum := by
    rw [(hperm.map fun fb => fb.rawSum).sum_eq, map_append, sum_append,
      map_singleton, sum_singleton]
  unfold cellOver shedInto
  rw [bins_shedBin, hcarried, hraw]

theorem fullyCarried_iff (hok : ∀ b x, held.lookup b = some x → BinOk b x.bin) (l i : Nat) :
    (cellOver l i held).fullyCarried ↔ ∀ b x, held.lookup b = some x → x.shed = true := by
  constructor
  · rintro ⟨hraw, -⟩ b x hb
    by_contra hlive
    have hmem : (b, x) ∈ held.entries := mem_entries_iff.mpr hb
    have hsplit : ((held.entries.filter fun e => e.2.shed).map fun e => e.2.bin.rawSum).sum +
        ((held.entries.filter fun e => !e.2.shed).map fun e => e.2.bin.rawSum).sum =
        (held.entries.map fun e => e.2.bin.rawSum).sum := by
      rw [← sum_append, ← map_append]
      exact ((filter_append_perm _ _).map _).sum_eq
    have hpart : x.bin.rawSum ≤
        ((held.entries.filter fun e => !e.2.shed).map fun e => e.2.bin.rawSum).sum := by
      apply single_le_sum (fun _ _ => Nat.zero_le _)
      refine mem_map.mpr ⟨(b, x), mem_filter.mpr ⟨hmem, ?_⟩, rfl⟩
      simpa using hlive
    have hpos := (hok b x hb).rawSum_pos
    have hraw : (held.shedBins.map fun fb => fb.rawSum).sum =
        (held.bins.map fun fb => fb.rawSum).sum := hraw
    unfold shedBins bins at hraw
    rw [map_map, map_map] at hraw
    have hraw : ((held.entries.filter fun e => e.2.shed).map fun e => e.2.bin.rawSum).sum =
        (held.entries.map fun e => e.2.bin.rawSum).sum := hraw
    omega
  intro hall
  have hsame : held.shedBins = held.bins := by
    unfold shedBins bins
    rw [filter_eq_self.mpr]
    intro e he
    exact hall e.1 e.2 (mem_entries_iff.mp he)
  unfold Nr.Cell.fullyCarried cellOver
  rw [hsame]
  exact ⟨rfl, rfl⟩

theorem carried_eq_comp (h : ∀ b x, held.lookup b = some x → x.shed = true) (l i : Nat) :
    (cellOver l i held).carried = (cellOver l i held).comp ∧
      (cellOver l i held).carriedRaw = (cellOver l i held).rawWork := by
  have hsame : held.shedBins = held.bins := by
    unfold shedBins bins
    rw [filter_eq_self.mpr]
    intro e he
    exact h e.1 e.2 (mem_entries_iff.mp he)
  unfold cellOver
  rw [hsame]
  exact ⟨rfl, rfl⟩

theorem Sound.credits_ne_zero (h : held.Sound canon cap)
    (hfalls : Falling canon) (hcap : cap ≤ Nr.maxFoldCap)
    (hb : held.lookup b = some x) {e : MinerId × Nat} (he : e ∈ binCredits x.bin) : e.2 ≠ 0 := by
  rw [← h.framed hb] at he
  unfold binCredits inFrame frameBin at he
  obtain ⟨r, hr, rfl⟩ := mem_map.mp he
  have hlook := mem_entries_iff.mp (show (r.1, r.2) ∈ _ from hr)
  rw [lookup_mapValues] at hlook
  obtain ⟨p, hp, hpair⟩ := Option.map_eq_some_iff.mp hlook
  have hraw := (h.ok hb).raw r.1 p hp
  have hpos := Nr.frameValue_pos hfalls ((h.level_le hb).trans hcap) hraw b (groupHi x.level b)
  have hv : r.2.v = Nr.frameValue canon b p.raw x.level (groupHi x.level b) := by
    rw [← hpair]
  show r.2.v ≠ 0
  omega

theorem Sound.carried_noZero (h : held.Sound canon cap)
    (hfalls : Falling canon) (hcap : cap ≤ Nr.maxFoldCap) (l i : Nat) :
    (cellOver l i (held.members l i)).carried.NoZero := by
  apply noZero_empty.creditAll
  intro e he
  obtain ⟨fb, hfb, he⟩ := mem_flatMap.mp he
  obtain ⟨⟨b, x⟩, hx, rfl⟩ := mem_map.mp hfb
  have hlook := mem_entries_iff.mp (mem_filter.mp hx).1
  exact h.credits_ne_zero hfalls hcap (lookup_members_eq_some.mp hlook).1 he

end Holding

theorem Lane.unshedRows (lane : Lane) (hes : ∀ e ∈ es, e.2 ≠ 0) (hnz : carried.NoZero)
    (hle : ∀ m, Ledger.sumOf es m ≤ carried.amount m) :
    ∃ rest : Ledger MinerId, es.foldlM lane.nrUnshedRow carried = .ok rest ∧ rest.NoZero ∧
      ∀ m, rest.amount m = carried.amount m - Ledger.sumOf es m := by
  induction es generalizing carried with
  | nil => exact ⟨carried, rfl, hnz, fun _ => rfl⟩
  | cons e es ih =>
    have hfirst : e.2 ≤ carried.amount e.1 := by
      have := hle e.1
      rw [sumOf_cons, if_pos rfl] at this
      omega
    obtain ⟨next, hdebit, hamount⟩ := debit_of_le hfirst
    have hnext : ∀ m, Ledger.sumOf es m ≤ next.amount m := by
      intro m
      have := hle m
      rw [sumOf_cons] at this
      rw [hamount]
      omega
    obtain ⟨rest, hrest, hnz', hamount'⟩ :=
      ih (fun e' he' => hes e' (mem_cons_of_mem _ he')) (hnz.debit hdebit) hnext
    refine ⟨rest, ?_, hnz', ?_⟩
    · have hrow : carried.lookup e.1 = some (carried.amount e.1) := by
        have hpos := hes e mem_cons_self
        rw [hnz.lookup, if_neg (by omega)]
      rw [foldlM_cons]
      unfold nrUnshedRow
      rw [hrow]
      rw [hdebit]
      exact hrest
    intro m
    rw [hamount', hamount, sumOf_cons]
    omega

theorem Lane.unshedRows_creditAll (lane : Lane) (hes : ∀ e ∈ es, e.2 ≠ 0) (hnz : carried.NoZero) :
    es.foldlM lane.nrUnshedRow (carried.creditAll es) = .ok carried := by
  have hle : ∀ m, Ledger.sumOf es m ≤ (carried.creditAll es).amount m := by
    intro m
    rw [amount_creditAll]
    exact Nat.le_add_left _ _
  obtain ⟨rest, hrest, hnz', hamount⟩ := lane.unshedRows hes (hnz.creditAll hes) hle
  rw [hrest, hnz'.ext hnz]
  intro m
  rw [hamount, amount_creditAll]
  omega

theorem Lane.Holds.nrFindOwner (h : lane.Holds env held) (hb : held.lookup b = some x) :
    lane.nrFindOwner b = some (x.level, b / Nr.powR x.level) := by
  have hiff : ∀ l, ((lane.ridge.cells l).lookup (b / Nr.powR l)).isSome = true ↔ l = x.level := by
    intro l
    have hsome : ((lane.ridge.cells l).lookup (b / Nr.powR l)).isSome =
        (held.cell l (b / Nr.powR l)).isSome := by
      rw [← h.shows.cells, Option.isSome_map]
    rw [hsome]
    constructor
    · intro hcell
      obtain ⟨c, hc⟩ := Option.isSome_iff_exists.mp hcell
      obtain ⟨hne, -⟩ := cell_eq_some hc
      obtain ⟨b', x', hb', rfl, hsame⟩ := members_ne_empty.mp hne
      exact (h.sound.even hb' hb hsame.symm).symm
    rintro rfl
    have hne : held.members x.level (b / Nr.powR x.level) ≠ ∅ :=
      members_ne_empty.mpr ⟨b, x, hb, rfl, rfl⟩
    unfold Holding.cell
    rw [if_neg hne]
    rfl
  have hfind : (List.range (lane.params.nr.foldCap + 1)).reverse.find? (fun l =>
      ((lane.ridge.cells l).lookup (b / Nr.powR l)).isSome) = some x.level := by
    cases hfound : (List.range (lane.params.nr.foldCap + 1)).reverse.find? (fun l =>
        ((lane.ridge.cells l).lookup (b / Nr.powR l)).isSome) with
    | none =>
      have hmem : x.level ∈ (List.range (lane.params.nr.foldCap + 1)).reverse := by
        rw [mem_reverse, mem_range]
        exact Nat.lt_succ_of_le (h.sound.level_le hb)
      exact absurd ((hiff x.level).mpr rfl) (find?_eq_none.mp hfound _ hmem)
    | some l =>
      have hl := find?_some hfound
      rw [(hiff l).mp hl]
  unfold Lane.nrFindOwner
  rw [hfind]
  rfl

/-! ## The shed of a bin -/

/-- Only the bins and cells of the ridge, the permanence range and the journal have
changed. -/
def Lane.Ticked (s s' : Lane) : Prop :=
  ∃ fine cells record mmr journal,
    s' = { s with
      mmr := mmr
      journal := journal
      ridge := { s.ridge with fine := fine, cells := cells, record := record } }

theorem Lane.Ticked.trans {s'' : Lane} (h : s.Ticked s') (h' : s'.Ticked s'') : s.Ticked s'' := by
  obtain ⟨_, _, _, _, _, rfl⟩ := h
  obtain ⟨fine, cells, record, mmr, journal, rfl⟩ := h'
  exact ⟨fine, cells, record, mmr, journal, rfl⟩

theorem Lane.Reshaped.ticked (h : s.Reshaped s') : s.Ticked s' := by
  obtain ⟨fine, cells, journal, rfl⟩ := h
  exact ⟨fine, cells, s.ridge.record, s.mmr, journal, rfl⟩

theorem Lane.Ticked.fields (h : s.Ticked s') :
    s'.params = s.params ∧ s'.ridge.t = s.ridge.t ∧ s'.ridge.started = s.ridge.started ∧
      s'.ridge.width = s.ridge.width ∧ s'.nextPos = s.nextPos := by
  obtain ⟨_, _, _, _, _, rfl⟩ := h
  exact ⟨rfl, rfl, rfl, rfl, rfl⟩

theorem Lane.Ticked.equiv {before after : Lane} (hs : s ≈ after) (hafter : before.Ticked after)
    (hs' : s.Ticked s') (hfine : s'.ridge.fine = before.ridge.fine)
    (hcells : ∀ l, CellsAlike (s'.ridge.cells l) (before.ridge.cells l))
    (hrecord : CellsAlike s'.ridge.record before.ridge.record) (hmmr : s'.mmr = before.mmr) :
    s' ≈ before := by
  obtain ⟨_, _, _, _, _, rfl⟩ := hafter
  obtain ⟨_, _, _, _, _, rfl⟩ := hs'
  have hridge := hs.ridge
  exact ⟨hs.params, hs.tables, hs.nextPos, hs.base, hmmr, hs.ckpts, hs.pos,
    { hridge with fine := hfine, cells := hcells, record := hrecord }⟩

theorem Holding.cell_shedBin_of_ne {l i : Nat} (hb : held.lookup b = some x)
    (hne : ¬ (l = x.level ∧ i = b / Nr.powR x.level)) :
    (held.shedBin b).cell l i = held.cell l i := by
  apply cell_congr
  rw [members_shedBin, shedBin_of_none]
  rw [lookup_members, hb, Option.bind_some, if_neg]
  rintro ⟨rfl, rfl⟩
  exact hne ⟨rfl, rfl⟩

theorem Holding.cell_shedBin (hb : held.lookup b = some x) (hlive : x.shed = false) :
    (held.shedBin b).cell x.level (b / Nr.powR x.level) =
      some (shedInto (Holding.cellOver x.level (b / Nr.powR x.level)
        (held.members x.level (b / Nr.powR x.level))) x.bin) := by
  have hmember : (held.members x.level (b / Nr.powR x.level)).lookup b = some x :=
    lookup_members_eq_some.mpr ⟨hb, rfl, rfl⟩
  have hne : (held.shedBin b).members x.level (b / Nr.powR x.level) ≠ ∅ := by
    intro hempty
    rw [members_shedBin, eq_empty_iff] at hempty
    have hnone := hempty b
    rw [lookup_shedBin, hmember] at hnone
    cases hnone
  unfold Holding.cell
  rw [if_neg hne, members_shedBin, cellOver_shedBin hmember hlive]

theorem Holding.fine_shedBin (b : Nat) : (held.shedBin b).fine = held.fine.erase b := by
  apply ext_lookup
  intro b'
  rw [lookup_fine, lookup_shedBin, lookup_erase, lookup_fine]
  cases held.lookup b' with
  | none => simp
  | some x =>
    split <;> rfl

theorem Ridge.Shows.shed (hshows : lane.ridge.Shows held)
    (hb : held.lookup b = some x) (hlive : x.shed = false)
    (hc : (lane.ridge.cells x.level).lookup (b / Nr.powR x.level) = some c) :
    (lane.afterShed (b, x.bin) x.level (b / Nr.powR x.level)
      (shedInto c x.bin)).ridge.Shows (held.shedBin b) := by
  obtain ⟨-, hcell⟩ := hshows.cell hc
  refine ⟨?_, ?_⟩
  · show lane.ridge.fine.erase b = _
    rw [hshows.fine, fine_shedBin]
  intro l i
  show ((Function.update lane.ridge.cells x.level _ l).lookup i).map _ = _
  by_cases hl : l = x.level
  · subst hl
    rw [update_self, lookup_insert]
    by_cases hi : i = b / Nr.powR x.level
    · subst hi
      rw [if_pos rfl, cell_shedBin hb hlive, ← hcell]
      rfl
    · rw [if_neg hi, cell_shedBin_of_ne hb fun hne => hi hne.2]
      exact hshows.cells _ _
  · rw [update_of_ne hl, cell_shedBin_of_ne hb fun hne => hl hne.1]
    exact hshows.cells _ _

section

variable (hfalls : Falling env.canon) (hcap : lane.params.nr.foldCap ≤ Nr.maxFoldCap)
  (h : lane.Holds env held) (hb : held.lookup b = some x) (hlive : x.shed = false)
include hfalls hcap h hb hlive

theorem Lane.Holds.nrUndoShed
    (hshows : s.ridge.Shows (held.shedBin b)) (hparams : s.params = lane.params)
    (hdeep : x.level = lane.params.nr.foldCap) (appended : Option PeakSet) :
    ∃ s', s.nrUndoShed b x.bin appended = .ok s' ∧ s'.ridge.Shows held ∧ s.Ticked s' ∧
      s'.ridge.record = s.ridge.record ∧ s'.mmr = appended.getD s.mmr := by
  have hnew : (held.shedBin b).lookup b = some { x with shed := true } := by
    rw [lookup_shedBin, hb, Option.map_some, if_pos rfl]
  have hsound : (held.shedBin b).Sound env.canon s.params.nr.foldCap := by
    rw [hparams]
    apply h.sound.shedBin
    intro y hy
    rw [hb] at hy
    cases hy
    exact hdeep
  have howner := Holds.nrFindOwner ⟨hshows, hsound⟩ hnew
  have hcell := hshows.cells x.level (b / Nr.powR x.level)
  rw [cell_shedBin hb hlive] at hcell
  obtain ⟨c, hc, hunscaled⟩ := Option.map_eq_some_iff.mp hcell
  generalize hbase : Holding.cellOver x.level (b / Nr.powR x.level)
    (held.members x.level (b / Nr.powR x.level)) = base at hunscaled
  have hnz : base.carried.NoZero := hbase ▸ h.sound.carried_noZero hfalls hcap _ _
  have hcarried : c.carried = base.carried.creditAll (binCredits x.bin) :=
    congrArg Nr.Cell.carried hunscaled
  have hraw : c.carriedRaw = base.carriedRaw + x.bin.rawSum := congrArg Nr.Cell.carriedRaw hunscaled
  have hrows : (binCredits x.bin).foldlM s.nrUnshedRow c.carried = .ok base.carried := by
    rw [hcarried]
    exact s.unshedRows_creditAll (fun e he => h.sound.credits_ne_zero hfalls hcap hb he) hnz
  have hback : { c.unscaled with carried := base.carried, carriedRaw := base.carriedRaw } =
      base := by
    rw [hunscaled]
    rfl
  refine ⟨{ (s.setLevel x.level ((s.ridge.cells x.level).insert (b / Nr.powR x.level)
      { c with carried := base.carried, carriedRaw := base.carriedRaw })).setFine
        (s.ridge.fine.insert b x.bin) with mmr := appended.getD s.mmr }, ?_, ⟨?_, ?_⟩, ?_, rfl, rfl⟩
  · unfold Lane.nrUndoShed
    rw [howner]
    dsimp only
    rw [hc, Option.getD_some, hrows, hraw, checkedSub_add]
    rfl
  · show s.ridge.fine.insert b x.bin = _
    rw [hshows.fine, fine_shedBin]
    apply ext_lookup
    intro b'
    rw [lookup_insert, lookup_erase, lookup_fine]
    by_cases hb' : b' = b
    · rw [if_pos hb', hb', hb, Option.bind_some, hlive]
      rfl
    · rw [if_neg hb', if_neg hb']
  · intro l i
    show ((Function.update s.ridge.cells x.level _ l).lookup i).map _ = _
    by_cases hl : l = x.level
    · subst hl
      rw [update_self, lookup_insert]
      by_cases hi : i = b / Nr.powR x.level
      · subst hi
        have hne : held.members x.level (b / Nr.powR x.level) ≠ ∅ :=
          members_ne_empty.mpr ⟨b, x, hb, rfl, rfl⟩
        unfold Holding.cell
        rw [if_pos rfl, if_neg hne, hbase, ← hback]
        rfl
      · rw [if_neg hi, ← cell_shedBin_of_ne hb fun hne => hi hne.2]
        exact hshows.cells _ _
    · rw [update_of_ne hl, ← cell_shedBin_of_ne hb fun hne => hl hne.1]
      exact hshows.cells _ _
  · exact ⟨_, _, s.ridge.record, _, s.journal, rfl⟩

theorem Lane.Holds.nrShedBin (hdeep : x.level = lane.params.nr.foldCap) :
    Meets sure (lane.nrShedBin env id (b, x.bin)) fun lane' =>
      lane'.Holds env (held.shedBin b) ∧ Traced env total lane lane' ∧ lane.Ticked lane' ∧
        lane'.ridge.record = lane.ridge.record := by
  have hsound : (held.shedBin b).Sound env.canon lane.params.nr.foldCap := by
    apply h.sound.shedBin
    intro y hy
    rw [hb] at hy
    cases hy
    exact hdeep
  have hundo : ∀ appended : Option PeakSet, ∀ after : Lane, lane.Ticked after →
      after.ridge.Shows (held.shedBin b) → after.ridge.record = lane.ridge.record →
      appended.getD after.mmr = lane.mmr →
      after.journal = .nrShed b x.bin appended :: lane.journal → Traced env total lane after := by
    intro appended after hticked hshows hrecord hmmr hjournal
    refine .of_undo hjournal rfl ?_
    intro s hs
    obtain ⟨hparams, -⟩ := hticked.fields
    obtain ⟨s', hok, hback, hticked', hrecord', hmmr'⟩ := h.nrUndoShed hfalls hcap hb hlive
      (hshows.of_alike hs.ridge.fine hs.ridge.cells) (hs.params.trans hparams) hdeep appended
    show Meets total (s.nrUndoShed b x.bin appended) _
    rw [hok]
    obtain ⟨hfine, hcells⟩ := hback.alike h.shows
    refine .ok (hticked.equiv hs hticked' hfine hcells ?_ ?_)
    · rw [hrecord', ← hrecord]
      exact hs.ridge.record
    · rw [hmmr', hs.mmr, hmmr]
  have howner := h.nrFindOwner hb
  have hcell := h.shows.cells x.level (b / Nr.powR x.level)
  have hne : held.members x.level (b / Nr.powR x.level) ≠ ∅ :=
    members_ne_empty.mpr ⟨b, x, hb, rfl, rfl⟩
  unfold Holding.cell at hcell
  rw [if_neg hne] at hcell
  obtain ⟨c, hc, hunscaled⟩ := Option.map_eq_some_iff.mp hcell
  have hshows := h.shows.shed hb hlive hc
  cases hshed : lane.nrShedBin env id (b, x.bin) with
  | ok lane' =>
    obtain ⟨l, idx, c₀, hfound, hc₀, hcases⟩ := nrShedBin_eq_ok hshed
    cases howner.symm.trans hfound
    cases hc.symm.trans hc₀
    obtain ⟨-, -, rfl⟩ | ⟨-, rfl⟩ := hcases
    · refine .ok ⟨⟨{ hshows with }, hsound⟩, ?_, ?_, rfl⟩
      · exact hundo (some lane.mmr) _ ⟨_, _, lane.ridge.record, _, _, rfl⟩
          { hshows with } rfl rfl rfl
      · exact ⟨_, _, lane.ridge.record, _, _, rfl⟩
    refine .ok ⟨⟨{ hshows with }, hsound⟩, ?_, ?_, rfl⟩
    · exact hundo none _ ⟨_, _, lane.ridge.record, lane.mmr, _, rfl⟩ { hshows with } rfl rfl rfl
    · exact ⟨_, _, lane.ridge.record, lane.mmr, _, rfl⟩
  | error e =>
    unfold Lane.nrShedBin at hshed
    rw [howner] at hshed
    dsimp only at hshed
    rw [hc, Option.getD_some] at hshed
    split at hshed
    · rename_i hfull
      -- A fully carried cell has shed all its bins, so that it carries what it holds.
      have hall : (shedInto c x.bin).carried = (shedInto c x.bin).comp := by
        have hover : (shedInto c x.bin).unscaled = Holding.cellOver x.level
            (b / Nr.powR x.level)
            ((held.members x.level (b / Nr.powR x.level)).shedBin b) := by
          rw [cellOver_shedBin (lookup_members_eq_some.mpr ⟨hb, rfl, rfl⟩) hlive, ← hunscaled]
          rfl
        have hmembers : ∀ b' y, ((held.members x.level (b / Nr.powR x.level)).shedBin b).lookup
            b' = some y → BinOk b' y.bin := by
          intro b' y hy
          obtain ⟨y₀, hy₀, hbin, -, -⟩ := lookup_shedBin_eq_some hy
          exact hbin ▸ h.sound.ok (lookup_members_eq_some.mp hy₀).1
        have hfull : (shedInto c x.bin).unscaled.fullyCarried := hfull
        rw [hover] at hfull
        have hcarried := (carried_eq_comp
          ((fullyCarried_iff hmembers _ _).mp hfull) x.level (b / Nr.powR x.level)).1
        rw [← hover] at hcarried
        exact hcarried
      unfold nrOnFullCarry at hshed
      rw [if_neg (not_not.mpr hall)] at hshed
      cases hshed
    · cases hshed

end

/-! ## The sheds of a tick -/

def Holding.shedBelow (floor : Nat) (held : Holding) : Holding :=
  held.mapValues fun b x => if b < floor then { x with shed := true } else x

theorem mem_takeWhile_below {V : Type} (m : SortedMap Nat V) (floor : Nat) {e : Nat × V} :
    e ∈ m.entries.takeWhile (fun e => e.1 < floor) ↔ m.lookup e.1 = some e.2 ∧ e.1 < floor := by
  rw [← mem_entries_iff]
  have hsorted := m.sorted
  generalize m.entries = l at hsorted
  show e ∈ l.takeWhile _ ↔ e ∈ l ∧ _
  induction l with
  | nil => simp
  | cons first rest ih =>
    rw [pairwise_cons] at hsorted
    rw [takeWhile_cons]
    by_cases hfirst : first.1 < floor
    · rw [if_pos (decide_eq_true hfirst), mem_cons, ih hsorted.2, mem_cons]
      constructor
      · rintro (rfl | ⟨hmem, hlt⟩)
        · exact ⟨.inl rfl, hfirst⟩
        · exact ⟨.inr hmem, hlt⟩
      rintro ⟨heq | hmem, hlt⟩
      · exact .inl heq
      · exact .inr ⟨hmem, hlt⟩
    rw [if_neg (by simpa using hfirst)]
    constructor
    · intro hmem
      cases hmem
    rintro ⟨hmem, hlt⟩
    rcases mem_cons.mp hmem with rfl | hmem
    · exact absurd hlt hfirst
    · exact absurd ((hsorted.1 e hmem).trans hlt) hfirst

/-- A lane on its way through the bins to shed, with `rest` still to go. -/
structure Lane.Shedding (env : Env) (total : Prop) (start : Lane) (held₀ : Holding) (floor : Nat)
    (todo rest : List (Nat × Nr.FineBin)) (lane : Lane) : Prop where
  suffix : rest <:+ todo
  holds : ∃ held, lane.Holds env held ∧ ∀ b, held.lookup b = (held₀.lookup b).map fun x =>
    if b < floor ∧ b ∉ rest.map Prod.fst then { x with shed := true } else x
  traced : Traced env total start lane
  ticked : start.Ticked lane
  record : lane.ridge.record = start.ridge.record

theorem Lane.Shedding.step {held₀ : Holding}
    (hfalls : Falling env.canon) (hcap : start.params.nr.foldCap ≤ Nr.maxFoldCap)
    (hdeep : ∀ b x, held₀.lookup b = some x → b < floor → x.level = start.params.nr.foldCap)
    {todo rest : List (Nat × Nr.FineBin)} {e : Nat × Nr.FineBin}
    (hsorted : todo.Pairwise fun a b => a.1 < b.1)
    (htodo : ∀ e ∈ todo, held₀.fine.lookup e.1 = some e.2 ∧ e.1 < floor)
    (h : Shedding env total start held₀ floor todo (e :: rest) lane) :
    Meets sure (lane.nrShedBin env id e) (Shedding env total start held₀ floor todo rest) := by
  obtain ⟨hsuffix, ⟨held, hholds, hheld⟩, htraced, hticked, hrecord⟩ := h
  obtain ⟨hparams, -⟩ := hticked.fields
  obtain ⟨b₀, fb⟩ := e
  obtain ⟨hfine, hfloor⟩ := htodo _ (hsuffix.subset mem_cons_self)
  rw [lookup_fine] at hfine
  obtain ⟨x, hx, hbin⟩ := Option.bind_eq_some_iff.mp hfine
  have hlive : x.shed = false := by
    cases hs : x.shed with
    | true =>
      rw [hs] at hbin
      cases hbin
    | false => rfl
  rw [hlive] at hbin
  cases hbin
  have hlook : held.lookup b₀ = some x := by
    rw [hheld, hx, Option.map_some, if_neg]
    simp
  have hmeets : Meets sure (lane.nrShedBin env id (b₀, x.bin)) fun lane' =>
      lane'.Holds env (held.shedBin b₀) ∧ Traced env total lane lane' ∧ lane.Ticked lane' ∧
        lane'.ridge.record = lane.ridge.record :=
    hholds.nrShedBin hfalls (hparams ▸ hcap) hlook hlive (hparams ▸ hdeep b₀ x hx hfloor)
  refine hmeets.mono ?_
  rintro lane' ⟨hholds', htraced', hticked', hrecord'⟩
  refine ⟨(suffix_cons _ rest).trans hsuffix, ⟨_, hholds', ?_⟩, htraced.trans htraced',
    hticked.trans hticked', hrecord'.trans hrecord⟩
  intro b
  rw [lookup_shedBin, hheld, Option.map_map]
  congr 1
  funext y
  have hfresh : b₀ ∉ rest.map Prod.fst := by
    have htail := (pairwise_cons.mp (hsorted.sublist hsuffix.sublist)).1
    intro hin
    obtain ⟨e', he', heq⟩ := mem_map.mp hin
    exact absurd (heq ▸ htail e' he') (lt_irrefl _)
  dsimp only [comp_apply]
  by_cases hb : b = b₀
  · subst hb
    have hfirst : ¬ (b < floor ∧ b ∉ ((b, x.bin) :: rest).map Prod.fst) := by simp
    rw [if_neg hfirst, if_pos rfl, if_pos ⟨hfloor, hfresh⟩]
  have hmem : b ∉ ((b₀, x.bin) :: rest).map Prod.fst ↔ b ∉ rest.map Prod.fst := by
    rw [map_cons, mem_cons, not_or, and_iff_right hb]
  rw [if_neg hb]
  exact if_congr (and_congr_right fun _ => hmem) rfl rfl

theorem Lane.Holds.shedBins (hfalls : Falling env.canon)
    (hcap : lane.params.nr.foldCap ≤ Nr.maxFoldCap) (h : lane.Holds env held)
    (hdeep : ∀ b x, held.lookup b = some x → b < floor → x.level = lane.params.nr.foldCap) :
    Meets sure ((lane.ridge.fine.entries.takeWhile fun e => e.1 < floor).foldlM
      (Lane.nrShedBin env id) lane) fun lane' =>
      lane'.Holds env (held.shedBelow floor) ∧ Traced env total lane lane' ∧ lane.Ticked lane' ∧
        lane'.ridge.record = lane.ridge.record := by
  have hsorted : (lane.ridge.fine.entries.takeWhile fun e => e.1 < floor).Pairwise
      fun a b => a.1 < b.1 := lane.ridge.fine.sorted.sublist (takeWhile_sublist _)
  have htodo : ∀ e ∈ lane.ridge.fine.entries.takeWhile (fun e => e.1 < floor),
      held.fine.lookup e.1 = some e.2 ∧ e.1 < floor := by
    intro e he
    rw [← h.shows.fine]
    exact (mem_takeWhile_below _ _).mp he
  have hinit : Shedding env total lane held floor
      (lane.ridge.fine.entries.takeWhile fun e => e.1 < floor)
      (lane.ridge.fine.entries.takeWhile fun e => e.1 < floor) lane := by
    refine ⟨suffix_rfl, ⟨held, h, ?_⟩, .refl lane, ?_, rfl⟩
    · intro b
      cases hb : held.lookup b with
      | none => rfl
      | some x =>
        rw [Option.map_some]
        split
        · rename_i hgone
          -- A bin below the floor that is not to be shed was shed before.
          have hshed : x.shed = true := by
            by_contra hlive
            apply hgone.2
            rw [mem_map]
            refine ⟨(b, x.bin), (mem_takeWhile_below _ _).mpr ⟨?_, hgone.1⟩, rfl⟩
            rw [h.shows.fine, lookup_fine, hb, Option.bind_some]
            exact if_neg hlive
          rw [← hshed]
        · rfl
    · exact ⟨lane.ridge.fine, lane.ridge.cells, lane.ridge.record, lane.mmr, lane.journal, rfl⟩
  have hstep : ∀ e rest s, Shedding env total lane held floor
      (lane.ridge.fine.entries.takeWhile fun e => e.1 < floor) (e :: rest) s →
      Meets sure (s.nrShedBin env id e) (Shedding env total lane held floor
        (lane.ridge.fine.entries.takeWhile fun e => e.1 < floor) rest) :=
    fun e rest s hs => hs.step hfalls hcap hdeep hsorted htodo
  have hloop := Meets.foldlM hstep hinit
  refine hloop.mono ?_
  rintro lane' ⟨-, ⟨held', hholds, hheld⟩, htraced, hticked, hrecord⟩
  have hsame : held' = held.shedBelow floor := by
    apply ext_lookup
    intro b
    unfold Holding.shedBelow
    rw [hheld, lookup_mapValues]
    simp
  exact ⟨hsame ▸ hholds, htraced, hticked, hrecord⟩

/-! ## Record cells -/

def RecordOk (record : SortedMap Nat Nr.Cell) : Prop :=
  ∀ b c, record.lookup b = some c → c.binHi = b ∧
    (c.carried = ∅ ∧ c.carriedRaw = 0 ∨ c.carried = c.comp ∧ c.carriedRaw = c.rawWork)

def Nr.Cell.carriedWhole (c : Nr.Cell) : Nr.Cell :=
  { c with carried := c.comp, carriedRaw := c.rawWork }

def shedRecords (floor : Nat) (record : SortedMap Nat Nr.Cell) : SortedMap Nat Nr.Cell :=
  record.mapValues fun k c => if k < floor then c.carriedWhole else c

theorem RecordOk.carriedWhole (h : RecordOk record) (hc : record.lookup b = some c)
    (hfull : c.fullyCarried) : c.carriedWhole = c := by
  have hboth : c.carried = c.comp ∧ c.carriedRaw = c.rawWork := by
    rcases (h b c hc).2 with ⟨hnone, hraw⟩ | hboth
    · obtain ⟨hwork, hlength⟩ := hfull
      rw [hnone] at hlength
      have hcomp : c.comp = ∅ := entries_eq_nil.mp (length_eq_zero_iff.mp hlength.symm)
      exact ⟨hnone.trans hcomp.symm, hwork⟩
    · exact hboth
  cases c
  cases hboth.1
  cases hboth.2
  rfl

theorem RecordOk.shed (h : RecordOk record) (floor : Nat) :
    RecordOk (shedRecords floor record) := by
  intro b c hc
  unfold shedRecords at hc
  rw [lookup_mapValues] at hc
  obtain ⟨c₀, hc₀, rfl⟩ := Option.map_eq_some_iff.mp hc
  split
  · exact ⟨(h b c₀ hc₀).1, .inr ⟨rfl, rfl⟩⟩
  · exact h b c₀ hc₀

/-- Only the record cells, the permanence range and the journal have changed. -/
structure Lane.RecordStep (env : Env) (total : Prop) (start lane : Lane) : Prop where
  traced : Traced env total start lane
  ticked : start.Ticked lane
  fine : lane.ridge.fine = start.ridge.fine
  cells : lane.ridge.cells = start.ridge.cells

theorem Lane.RecordStep.refl (lane : Lane) : RecordStep env total lane lane :=
  ⟨.refl lane, ⟨lane.ridge.fine, lane.ridge.cells, lane.ridge.record, lane.mmr, lane.journal, rfl⟩,
    rfl, rfl⟩

theorem Lane.RecordStep.trans {mid : Lane} (h : RecordStep env total start mid)
    (h' : RecordStep env total mid lane) : RecordStep env total start lane :=
  ⟨h.traced.trans h'.traced, h.ticked.trans h'.ticked, h'.fine.trans h.fine, h'.cells.trans h.cells⟩

theorem CellsAlike.insert (h : CellsAlike m m') {c' : Nr.Cell} (hc : c.unscaled = c'.unscaled) :
    CellsAlike (m.insert b c) (m'.insert b c') := by
  intro k
  rw [lookup_insert, lookup_insert]
  split
  · rw [Option.map_some, Option.map_some, hc]
  · exact h k

theorem CellsAlike.lookup (h : CellsAlike m m') (hc : m'.lookup b = some c) :
    ∃ c', m.lookup b = some c' ∧ c'.unscaled = c.unscaled := by
  have hb := h b
  rw [hc, Option.map_some] at hb
  exact Option.map_eq_some_iff.mp hb

theorem insert_self (h : m.lookup b = some c) (c' : Nr.Cell) : (m.insert b c').insert b c = m := by
  apply ext_lookup
  intro k
  rw [lookup_insert, lookup_insert]
  split
  · rename_i hk
    rw [hk, h]
  · rfl

theorem Lane.nrShedRecordCell_meets (hb : lane.ridge.record.lookup b = some c)
    (hok : RecordOk lane.ridge.record) :
    Meets sure (lane.nrShedRecordCell env id floor (b, c)) fun lane' =>
      RecordStep env total lane lane' ∧
        ∀ k, lane'.ridge.record.lookup k = (lane.ridge.record.lookup k).map fun d =>
          if k = b ∧ b < floor then d.carriedWhole else d := by
  by_cases hkeep : floor ≤ b ∨ c.fullyCarried
  · unfold Lane.nrShedRecordCell
    rw [if_pos hkeep]
    refine .ok ⟨.refl lane, fun k => ?_⟩
    split
    · rename_i hboth
      obtain ⟨rfl, hlt⟩ := hboth
      rw [hb, Option.map_some, hok.carriedWhole hb (hkeep.resolve_left (not_le.mpr hlt))]
    · exact Option.map_id'.symm
  push Not at hkeep
  have huncarried : c.carried = ∅ ∧ c.carriedRaw = 0 := by
    refine (hok b c hb).2.resolve_right fun hfull => hkeep.2 ⟨hfull.2, ?_⟩
    rw [hfull.1]
  have hshed : lane.nrShedRecordCell env id floor (b, c) = .ok
      { lane.setRecord (lane.ridge.record.insert b c.carriedWhole) with
        mmr := mmrAppend env.sha256d lane.mmr
          (leafHash env.sha256d (nrCellLeafPayload env id c.carriedWhole))
        journal := .nrShedRecord b (some lane.mmr) :: lane.journal } := by
    unfold Lane.nrShedRecordCell nrOnFullCarry
    rw [if_neg (not_or.mpr ⟨not_le.mpr hkeep.1, hkeep.2⟩)]
    dsimp only
    rw [if_neg (not_not.mpr rfl)]
    rfl
  rw [hshed]
  refine .ok ⟨⟨?_, ⟨lane.ridge.fine, lane.ridge.cells, _, _, _, rfl⟩, rfl, rfl⟩, ?_⟩
  · refine .of_undo rfl rfl ?_
    intro s hs
    have halike : CellsAlike s.ridge.record (lane.ridge.record.insert b c.carriedWhole) :=
      hs.ridge.record
    have hnew : (lane.ridge.record.insert b c.carriedWhole).lookup b = some c.carriedWhole := by
      rw [lookup_insert, if_pos rfl]
    obtain ⟨c', hc', hsame⟩ := halike.lookup hnew
    show Meets total (s.nrUndoShedRecord b (some lane.mmr)) _
    unfold nrUndoShedRecord
    rw [hc']
    refine .ok (Ticked.equiv hs ⟨lane.ridge.fine, lane.ridge.cells, _, _, _, rfl⟩
      ⟨s.ridge.fine, s.ridge.cells, _, _, s.journal, rfl⟩ hs.ridge.fine hs.ridge.cells ?_ rfl)
    show CellsAlike (s.ridge.record.insert b { c' with carried := ∅, carriedRaw := 0 }) _
    have hback : ({ c' with carried := ∅, carriedRaw := 0 } : Nr.Cell).unscaled = c.unscaled := by
      calc ({ c' with carried := ∅, carriedRaw := 0 } : Nr.Cell).unscaled
          = { c'.unscaled with carried := ∅, carriedRaw := 0 } := rfl
        _ = { c.unscaled with carried := c.carried, carriedRaw := c.carriedRaw } := by
            rw [hsame, huncarried.1, huncarried.2]
            rfl
    have hlast := halike.insert hback (b := b)
    rwa [insert_self hb] at hlast
  intro k
  show (lane.ridge.record.insert b c.carriedWhole).lookup k = _
  rw [lookup_insert]
  by_cases hk : k = b
  · rw [if_pos hk, hk, hb, Option.map_some, if_pos ⟨rfl, hkeep.1⟩]
  · simp [hk]

/-- A lane on its way through its record cells, with `rest` still to be looked at. -/
structure Lane.SheddingRecord (env : Env) (total : Prop) (start : Lane) (floor : Nat)
    (rest : List (Nat × Nr.Cell)) (lane : Lane) : Prop where
  step : RecordStep env total start lane
  record : ∀ k, lane.ridge.record.lookup k = (start.ridge.record.lookup k).map fun d =>
    if k < floor ∧ k ∉ rest.map Prod.fst then d.carriedWhole else d
  ahead : ∀ e ∈ rest, start.ridge.record.lookup e.1 = some e.2
  sorted : rest.Pairwise fun a b => a.1 < b.1

theorem Lane.SheddingRecord.ok {rest : List (Nat × Nr.Cell)}
    (h : SheddingRecord env total start floor rest lane) (hok : RecordOk start.ridge.record) :
    RecordOk lane.ridge.record := by
  intro b c hc
  rw [h.record] at hc
  obtain ⟨c₀, hc₀, rfl⟩ := Option.map_eq_some_iff.mp hc
  split
  · exact ⟨(hok b c₀ hc₀).1, .inr ⟨rfl, rfl⟩⟩
  · exact hok b c₀ hc₀

theorem Lane.shedRecord (hok : RecordOk lane.ridge.record) :
    Meets sure (lane.ridge.record.entries.foldlM (nrShedRecordCell env id floor) lane) fun lane' =>
      RecordStep env total lane lane' ∧
        lane'.ridge.record = shedRecords floor lane.ridge.record := by
  have hstep : ∀ e rest s, SheddingRecord env total lane floor (e :: rest) s →
      Meets sure (s.nrShedRecordCell env id floor e)
        (SheddingRecord env total lane floor rest) := by
    rintro ⟨b, c⟩ rest s hs
    have hsorted := hs.sorted
    rw [pairwise_cons] at hsorted
    have hfresh : b ∉ rest.map Prod.fst := by
      intro hin
      obtain ⟨e, he, heq⟩ := mem_map.mp hin
      exact absurd (heq ▸ hsorted.1 e he) (lt_irrefl b)
    have hb : s.ridge.record.lookup b = some c := by
      rw [hs.record, hs.ahead (b, c) mem_cons_self]
      simp
    have hmeets : Meets sure (s.nrShedRecordCell env id floor (b, c)) fun lane' =>
        RecordStep env total s lane' ∧
          ∀ k, lane'.ridge.record.lookup k = (s.ridge.record.lookup k).map fun d =>
            if k = b ∧ b < floor then d.carriedWhole else d := nrShedRecordCell_meets hb (hs.ok hok)
    refine hmeets.mono ?_
    rintro s' ⟨hs', hrecord⟩
    refine ⟨hs.step.trans hs', ?_, fun e he => hs.ahead e (mem_cons_of_mem _ he), hsorted.2⟩
    intro k
    rw [hrecord, hs.record, Option.map_map]
    congr 1
    funext d
    by_cases hk : k = b
    · subst hk
      simp [hfresh]
    have hin : k ∉ ((b, c) :: rest).map Prod.fst ↔ k ∉ rest.map Prod.fst := by
      rw [map_cons, mem_cons, not_or]
      exact and_iff_right hk
    simp only [Function.comp, hk, hin, false_and, if_false]
  have hinit : SheddingRecord env total lane floor lane.ridge.record.entries lane := by
    refine ⟨.refl lane, ?_, fun e he => mem_entries_iff.mp he, lane.ridge.record.sorted⟩
    intro k
    cases hk : lane.ridge.record.lookup k with
    | none => rfl
    | some c =>
      have hin : k ∈ lane.ridge.record.entries.map Prod.fst :=
        mem_map.mpr ⟨(k, c), mem_entries_iff.mpr hk, rfl⟩
      rw [Option.map_some, if_neg fun hboth => hboth.2 hin]
  refine (Meets.foldlM hstep hinit).mono ?_
  rintro lane' ⟨hs, hrecord, -, -⟩
  refine ⟨hs, ?_⟩
  apply ext_lookup
  intro k
  unfold shedRecords
  rw [hrecord, lookup_mapValues]
  simp

theorem Lane.Holds.of_recordStep (h : start.Holds env held)
    (hstep : RecordStep env total start lane) : lane.Holds env held := by
  obtain ⟨hparams, -⟩ := hstep.ticked.fields
  refine ⟨h.shows.of_alike hstep.fine fun l => ?_, hparams ▸ h.sound⟩
  rw [hstep.cells]
  exact .refl _

theorem Lane.Holds.nrShedBelowFloor (hfalls : Falling env.canon)
    (hcap : lane.params.nr.foldCap ≤ Nr.maxFoldCap) (h : lane.Holds env held)
    (hrecord : RecordOk lane.ridge.record)
    (hdeep : ∀ b x, held.lookup b = some x → b < lane.nrBBin → x.level = lane.params.nr.foldCap) :
    Meets sure (lane.nrShedBelowFloor env id) fun lane' =>
      lane'.Holds env (held.shedBelow lane.nrBBin) ∧ Traced env total lane lane' ∧
        lane.Ticked lane' ∧ lane'.ridge.record = shedRecords lane.nrBBin lane.ridge.record := by
  have hbins : Meets sure ((lane.ridge.fine.entries.takeWhile fun e => e.1 < lane.nrBBin).foldlM
      (Lane.nrShedBin env id) lane) fun lane' =>
      lane'.Holds env (held.shedBelow lane.nrBBin) ∧ Traced env total lane lane' ∧
        lane.Ticked lane' ∧ lane'.ridge.record = lane.ridge.record := h.shedBins hfalls hcap hdeep
  refine hbins.bind ?_
  rintro mid ⟨hholds, htraced, hticked, hsame⟩
  have hlast : Meets sure (mid.ridge.record.entries.foldlM
      (nrShedRecordCell env id lane.nrBBin) mid) fun lane' =>
      RecordStep env total mid lane' ∧
        lane'.ridge.record = shedRecords lane.nrBBin mid.ridge.record :=
    shedRecord (hsame ▸ hrecord)
  refine hlast.mono ?_
  rintro lane' ⟨hstep, hshed⟩
  rw [hsame] at hshed
  exact ⟨hholds.of_recordStep hstep, htraced.trans hstep.traced, hticked.trans hstep.ticked, hshed⟩

end C2Pool.V37
