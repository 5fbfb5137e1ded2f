import C2Pool.V37.RidgeValue

/-! # The layout of the ridge

Every bin of the fine layer has a level, and the cells are what the bins of one group and level add
up to, in the frame of that group. Bins that were shed stay with their cell as its carried part;
they are kept here in a second layer.
-/

namespace C2Pool.V37

open List SortedMap

namespace Lane

/-- The last bin of the group of level `l` around a bin. -/
def groupHi (l bin : Nat) : Nat := spanHi l (bin / Nr.powR l)

variable {l b b' : Nat} {fb : Nr.FineBin} {bin : Nat}

theorem mem_span_iff {i : Nat} : spanLo l i ≤ b ∧ b ≤ spanHi l i ↔ b / Nr.powR l = i := by
  have hpos := Nr.powR_pos l
  unfold spanLo spanHi
  rw [Nat.div_eq_iff hpos]

theorem div_powR_succ (b l : Nat) : b / Nr.powR (l + 1) = b / Nr.powR l / Nr.rollup := by
  rw [Nr.powR_succ, Nat.div_div_eq_div_mul]

theorem div_powR_of_le {l' : Nat} (hle : l ≤ l')
    (h : b / Nr.powR l = b' / Nr.powR l) : b / Nr.powR l' = b' / Nr.powR l' := by
  induction l', hle using Nat.le_induction with
  | base => exact h
  | succ l' _ ih => rw [div_powR_succ, div_powR_succ, ih]

theorem spanLo_div (l i : Nat) : spanLo l i / Nr.powR l = i :=
  Nat.mul_div_cancel i (Nr.powR_pos l)

theorem le_groupHi (l b : Nat) : b ≤ groupHi l b :=
  (mem_span_iff.mpr rfl).2

theorem groupHi_lt (l b : Nat) : groupHi l b < b + Nr.powR l := by
  have hlo : spanLo l (b / Nr.powR l) ≤ b := (mem_span_iff.mpr rfl).1
  have hpos := Nr.powR_pos l
  unfold groupHi spanHi
  unfold spanLo at hlo
  omega

theorem groupHi_div (l b : Nat) : groupHi l b / Nr.powR l = b / Nr.powR l := by
  rw [← mem_span_iff]
  have hpos := Nr.powR_pos l
  unfold groupHi spanHi spanLo
  omega

theorem groupHi_mono {l l' : Nat} (hle : l ≤ l') (b : Nat) : groupHi l b ≤ groupHi l' b := by
  have hsame := div_powR_of_le hle (groupHi_div l b)
  exact (mem_span_iff.mpr hsame).2

theorem groupHi_congr (h : b / Nr.powR l = b' / Nr.powR l) : groupHi l b = groupHi l b' := by
  unfold groupHi
  rw [h]

structure BinOk (bin : Nat) (fb : Nr.FineBin) : Prop where
  bin : fb.bin = bin
  rows : fb.rows ≠ ∅
  raw : ∀ m p, fb.rows.lookup m = some p → 0 < p.raw
  rawSum : fb.rawSum = fb.rows.sum fun _ p => p.raw
  prov : ∀ k v, fb.prov.lookup k = some v → 0 < v
  posLo : fb.posLo ≠ none

theorem BinOk.rawSum_pos (h : BinOk bin fb) : 0 < fb.rawSum := by
  rw [h.rawSum]
  unfold SortedMap.sum
  cases hentries : fb.rows.entries with
  | nil =>
    refine absurd ?_ h.rows
    apply ext_lookup
    intro k
    unfold SortedMap.lookup
    rw [hentries]
    rfl
  | cons e rest =>
    have hmem : (e.1, e.2) ∈ fb.rows.entries := hentries ▸ mem_cons_self
    have hraw := h.raw e.1 e.2 (mem_entries_iff.mp hmem)
    rw [map_cons, sum_cons]
    dsimp only
    omega

variable (canon : CanonicalTables)

def frameBin (level binHi bin : Nat) (fb : Nr.FineBin) : Nr.FineBin :=
  { fb with rows := fb.rows.mapValues fun _ p =>
      ⟨p.raw, Nr.frameValue canon bin p.raw level binHi⟩ }

/-- A bin in the frame of its group of level `l`. -/
def inFrame (l bin : Nat) (fb : Nr.FineBin) : Nr.FineBin := frameBin canon l (groupHi l bin) bin fb

def reframed (level idx : Nat) (fine : SortedMap Nat Nr.FineBin) : SortedMap Nat Nr.FineBin :=
  fine.mapValues fun bin fb =>
    if bin / Nr.powR level = idx then inFrame canon level bin fb else fb

variable {canon}

theorem frameBin_frameBin (level binHi level' binHi' bin : Nat) (fb : Nr.FineBin) :
    frameBin canon level binHi bin (frameBin canon level' binHi' bin fb) =
      frameBin canon level binHi bin fb := by
  unfold frameBin
  congr 1
  apply ext_lookup
  intro m
  rw [lookup_mapValues, lookup_mapValues, lookup_mapValues]
  cases fb.rows.lookup m <;> rfl

theorem inFrame_inFrame (l l' bin : Nat) (fb : Nr.FineBin) :
    inFrame canon l bin (inFrame canon l' bin fb) = inFrame canon l bin fb :=
  frameBin_frameBin _ _ _ _ _ _

theorem BinOk.inFrame (h : BinOk bin fb) (l : Nat) : BinOk bin (inFrame canon l bin fb) := by
  refine ⟨h.bin, ?_, ?_, ?_, h.prov, h.posLo⟩
  · intro hempty
    apply h.rows
    apply ext_lookup
    intro m
    have hlook : (fb.rows.mapValues fun _ p =>
        (⟨p.raw, Nr.frameValue canon bin p.raw l (groupHi l bin)⟩ : Nr.FinePair)).lookup m =
        none := by
      show (Lane.inFrame canon l bin fb).rows.lookup m = none
      rw [hempty]
      rfl
    rw [lookup_mapValues, Option.map_eq_none_iff] at hlook
    rw [hlook]
    rfl
  · intro m p hp
    have hlook : (fb.rows.mapValues fun _ p =>
        (⟨p.raw, Nr.frameValue canon bin p.raw l (groupHi l bin)⟩ : Nr.FinePair)).lookup m =
        some p := hp
    rw [lookup_mapValues] at hlook
    obtain ⟨old, hold, rfl⟩ := Option.map_eq_some_iff.mp hlook
    exact h.raw m old hold
  · show fb.rawSum = _
    rw [h.rawSum]
    unfold SortedMap.sum Lane.inFrame frameBin
    rw [entries_mapValues, map_map]
    rfl

theorem reframe_eq {env : Env} {level : Nat} (hlevel : level ≤ Nr.maxFoldCap) (lane : Lane)
    (idx : Nat) :
    lane.reframe env level idx = .ok (reframed env.canon level idx lane.ridge.fine) := by
  apply tryMap_of_ok
  intro bin fb _
  by_cases hspan : bin / Nr.powR level = idx
  · rw [if_pos (mem_span_iff.mpr hspan), if_pos hspan]
    unfold reframeBin
    have hrows : (fb.rows.tryMap fun _ p =>
        (Nr.pairValue env.canon lane.params.nr.allowDigitRepeat bin p.raw level
          (spanHi level idx)).map fun v => { p with v := v }) =
        .ok (fb.rows.mapValues fun _ p =>
          (⟨p.raw, Nr.frameValue env.canon bin p.raw level (spanHi level idx)⟩ :
            Nr.FinePair)) := by
      apply tryMap_of_ok
      intro m p _
      rw [Nr.pairValue_eq _ hlevel]
      rfl
    rw [hrows, ← hspan]
    rfl
  · rw [if_neg (mt mem_span_iff.mp hspan), if_neg hspan]

end Lane

/-! ## Holdings -/

/-- A bin that the ridge still holds: live in the fine layer, or shed into the
carried part of its cell. -/
structure Held where
  bin : Nr.FineBin
  level : Nat
  shed : Bool
deriving DecidableEq

/-- Everything the ridge holds, by bin. -/
abbrev Holding := SortedMap Nat Held

variable {c : Nr.Cell}

namespace Holding

open Lane

def fine (held : Holding) : SortedMap Nat Nr.FineBin :=
  held.filterMap fun _ h => if h.shed then none else some h.bin

/-- The bins of cell `i` of level `l`. -/
def members (held : Holding) (l i : Nat) : Holding :=
  held.filterMap fun b h => if h.level = l ∧ b / Nr.powR l = i then some h else none

def bins (held : Holding) : List Nr.FineBin := held.entries.map fun e => e.2.bin

def shedBins (held : Holding) : List Nr.FineBin :=
  (held.entries.filter fun e => e.2.shed).map fun e => e.2.bin

def cellOver (l i : Nat) (held : Holding) : Nr.Cell :=
  { cellOf l i held.bins qOne with
    carried := (∅ : Ledger MinerId).creditAll (held.shedBins.flatMap binCredits)
    carriedRaw := (held.shedBins.map fun fb => fb.rawSum).sum }

/-- Cell `i` of level `l` of a holding, up to its scalar. -/
def cell (held : Holding) (l i : Nat) : Option Nr.Cell :=
  if held.members l i = ∅ then none else some (cellOver l i (held.members l i))

/-- What every holding of the ridge satisfies.  Shed bins are at the fold cap, and
the bins of a group that has been folded are at one level. -/
structure Sound (canon : CanonicalTables) (cap : Nat) (held : Holding) : Prop where
  ok : ∀ {b h}, held.lookup b = some h → BinOk b h.bin
  framed : ∀ {b h}, held.lookup b = some h → inFrame canon h.level b h.bin = h.bin
  level_le : ∀ {b h}, held.lookup b = some h → h.level ≤ cap
  shed : ∀ {b h}, held.lookup b = some h → h.shed = true → h.level = cap
  even : ∀ {b h b' h'}, held.lookup b = some h → held.lookup b' = some h' →
    b' / Nr.powR h.level = b / Nr.powR h.level → h'.level = h.level

theorem lookup_fine (held : Holding) (b : Nat) :
    held.fine.lookup b = (held.lookup b).bind fun h => if h.shed then none else some h.bin :=
  lookup_filterMap _ _ _

theorem lookup_members (held : Holding) (l i b : Nat) :
    (held.members l i).lookup b =
      (held.lookup b).bind fun h =>
        if h.level = l ∧ b / Nr.powR l = i then some h else none := lookup_filterMap _ _ _

variable {held : Holding} {l i : Nat}

theorem lookup_members_eq_some {b : Nat} {h : Held} :
    (held.members l i).lookup b = some h ↔
      held.lookup b = some h ∧ h.level = l ∧ b / Nr.powR l = i := by
  rw [lookup_members, Option.bind_eq_some_iff]
  constructor
  · rintro ⟨x, hx, hif⟩
    split at hif
    · rename_i hcond
      cases hif
      exact ⟨hx, hcond⟩
    · cases hif
  · rintro ⟨hx, hcond⟩
    exact ⟨h, hx, if_pos hcond⟩

theorem members_ne_empty :
    held.members l i ≠ ∅ ↔ ∃ b h, held.lookup b = some h ∧ h.level = l ∧ b / Nr.powR l = i := by
  constructor
  · intro hne
    by_contra hnone
    apply hne
    rw [eq_empty_iff]
    intro b
    rw [Option.eq_none_iff_forall_not_mem]
    intro h hh
    exact hnone ⟨b, h, lookup_members_eq_some.mp hh⟩
  rintro ⟨b, h, hh⟩ hempty
  have hlook := lookup_members_eq_some.mpr hh
  rw [hempty] at hlook
  cases hlook

theorem cell_eq_some (h : held.cell l i = some c) :
    held.members l i ≠ ∅ ∧ c = cellOver l i (held.members l i) := by
  unfold cell at h
  split at h
  · cases h
  rename_i hne
  cases h
  exact ⟨hne, rfl⟩

theorem cell_congr {held' : Holding}
    (h : held.members l i = held'.members l i) : held.cell l i = held'.cell l i := by
  unfold cell
  rw [h]

theorem binsOf_fine
    (h : ∀ b x, held.lookup b = some x → b / Nr.powR l = i → x.level = l ∧ x.shed = false) :
    binsOf held.fine l i = (held.members l i).bins := by
  have hmap : (held.fine.filterMap fun b fb =>
        if spanLo l i ≤ b ∧ b ≤ spanHi l i then some fb else none) =
      (held.members l i).mapValues fun _ x => x.bin := by
    apply ext_lookup
    intro b
    rw [lookup_filterMap, lookup_fine, lookup_mapValues, lookup_members]
    cases hb : held.lookup b with
    | none => rfl
    | some x =>
      by_cases hspan : b / Nr.powR l = i
      · obtain ⟨hlevel, hshed⟩ := h b x hb hspan
        simp only [Option.bind_some, hshed, hlevel, hspan, mem_span_iff]
        rfl
      · simp only [Option.bind_some, hspan, mem_span_iff, and_false, if_false]
        cases hs : x.shed <;> rfl
  unfold binsOf bins
  rw [slice_eq_entries, hmap, entries_mapValues, map_map]
  rfl

end Holding

/-- The ridge shows a holding: its fine layer, and its cells up to their scalars. -/
structure Ridge.Shows (r : Ridge) (held : Holding) : Prop where
  fine : r.fine = held.fine
  cells : ∀ l i, ((r.cells l).lookup i).map Nr.Cell.unscaled = held.cell l i

variable {r s : Ridge}

theorem Ridge.Shows.alike {held : Holding} (hr : r.Shows held) (hs : s.Shows held) :
    r.fine = s.fine ∧ ∀ l, CellsAlike (r.cells l) (s.cells l) :=
  ⟨hr.fine.trans hs.fine.symm, fun l i => (hr.cells l i).trans (hs.cells l i).symm⟩

theorem Ridge.Shows.of_alike {held : Holding} (hs : s.Shows held) (hfine : r.fine = s.fine)
    (hcells : ∀ l, CellsAlike (r.cells l) (s.cells l)) :
    r.Shows held := ⟨hfine.trans hs.fine, fun l i => (hcells l i).trans (hs.cells l i)⟩

theorem Ridge.Shows.cell {held : Holding} (h : r.Shows held) {l i : Nat}
    (hc : (r.cells l).lookup i = some c) :
    held.members l i ≠ ∅ ∧ c.unscaled = Holding.cellOver l i (held.members l i) := by
  have hcell := h.cells l i
  rw [hc] at hcell
  exact Holding.cell_eq_some hcell.symm

end C2Pool.V37
