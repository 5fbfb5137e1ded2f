import C2Pool.V37.RidgeTop

/-! # The cells out of the fine layer

`nr_reference_cells` derives every cell again from the fine layer, the clock and
the carried part.  The engine, which only ever moves cells, ends with the same
cells, as long as no seal test wraps around.
-/

namespace C2Pool.V37

open List Lane PartialRun SortedMap Holding Ledger Function Option

/-- `level_at`: the deepest level whose group of the bin is sealed. -/
def Nr.levelAt (bin t horizon cap : Nat) : Nat :=
  (((List.range cap).reverse.map fun l => l + 1).find? fun l =>
    Nr.sealedBin (groupHi l bin) t horizon).getD 0

/-- The state of `nr_reference_cells`: the cells, the provenance of the fine layer
by level and index, and the cells with a shed part. -/
structure ReferenceCells where
  cells : Nat → SortedMap Nat Nr.Cell
  prov : Nat → SortedMap Nat (Ledger ProvKey)
  partlyShed : List (Nat × Nat)

namespace Lane

def nrFrozenCells (ridge : Ridge) : Nat → SortedMap Nat Nr.Cell :=
  ((List.range (Nr.maxFoldCap + 1)).flatMap fun l => (ridge.cells l).entries).foldl
    (fun out e =>
      if e.2.fullyCarried then
        Function.update out e.2.level ((out e.2.level).insert e.1 e.2)
      else out)
    fun _ => ∅

def nrReferenceStart (env : Env) (lane : Lane) (l idx : Nat) (c : Nr.Cell) :
    Except Throw (Nr.Cell × Bool) := do
  let g ← lane.scalar env (spanHi l idx)
  let c := { c with level := l, binLo := spanLo l idx, binHi := spanHi l idx, G := g }
  match (lane.ridge.cells l).lookup idx with
  | none => .ok (c, false)
  | some own =>
    if own.carriedRaw = 0 then .ok (c, false)
    else
      .ok ({ c with
          carried := own.carried
          carriedRaw := own.carriedRaw
          rawWork := own.carriedRaw
          comp := own.carried
          prov := own.prov }, true)

def nrReferenceFind (env : Env) (lane : Lane) (out : ReferenceCells) (l idx : Nat) :
    Except Throw (Nr.Cell × Bool) :=
  let c := ((out.cells l).lookup idx).getD Nr.Cell.default
  if c.rawWork = 0 ∧ c.comp = ∅ then lane.nrReferenceStart env l idx c else .ok (c, false)

def nrReferenceBin (env : Env) (lane : Lane) (out : ReferenceCells) (e : Nat × Nr.FineBin) :
    Except Throw ReferenceCells := do
  let l := Nr.levelAt e.1 lane.ridge.t lane.params.nr.openHorizonBins lane.params.nr.foldCap
  let idx := e.1 / Nr.powR l
  let (c, shed) ← lane.nrReferenceFind env out l idx
  let values ← e.2.rows.tryMap fun _ p =>
    Nr.pairValue env.canon lane.params.nr.allowDigitRepeat e.1 p.raw c.level c.binHi
  .ok
    { cells := Function.update out.cells l ((out.cells l).insert idx
        { c with
          rawWork := c.rawWork + e.2.rawSum
          comp := c.comp.creditAll values.entries })
      prov :=
        if e.2.prov = ∅ then out.prov
        else Function.update out.prov l ((out.prov l).insert idx
          (Ledger.creditAll (((out.prov l).lookup idx).getD ∅) e.2.prov.entries))
      partlyShed := if shed then (l, idx) :: out.partlyShed else out.partlyShed }

def withReferenceProv (out : ReferenceCells) (l idx : Nat) (c : Nr.Cell) : Nr.Cell :=
  if (l, idx) ∈ out.partlyShed then c
  else
    match (out.prov l).lookup idx with
    | none => c
    | some prov => { c with prov := provRows prov }

def nrReferenceCells (env : Env) (lane : Lane) : Except Throw (Nat → SortedMap Nat Nr.Cell) := do
  let out ← lane.ridge.fine.entries.foldlM (lane.nrReferenceBin env)
    ⟨nrFrozenCells lane.ridge, fun _ => ∅, []⟩
  .ok fun l => (out.cells l).mapValues fun idx c => withReferenceProv out l idx c

def survivors (lane : Lane) (c : Nr.Cell) : List Nr.FineBin :=
  (lane.ridge.fine.slice c.binLo c.binHi).map Prod.snd

/-- A cell is its carried part and its surviving bins. -/
structure Split (lane : Lane) (c : Nr.Cell) : Prop where
  carried_le : ∀ m, c.carried.amount m ≤ c.comp.amount m
  comp : ∀ m, c.comp.amount m =
    c.carried.amount m + Ledger.sumOf ((lane.survivors c).flatMap binCredits) m
  rawWork : c.rawWork = c.carriedRaw + ((lane.survivors c).map fun fb => fb.rawSum).sum
  fullyCarried : c.fullyCarried ↔ c.carried = c.comp ∧ lane.survivors c = []
  top : c.carried ≠ ∅ → c.level = lane.params.nr.foldCap

/-- The cells are those of the reference, and each is split as it says. -/
structure Derived (env : Env) (lane : Lane) : Prop where
  reference : lane.nrReferenceCells env = .ok lane.ridge.cells
  split : ∀ l idx c, (lane.ridge.cells l).lookup idx = some c → lane.Split c

end Lane

variable {env : Env} {held : Holding} {b : Nat} {x : Held}

namespace Holding

def liveBins (held : Holding) : List Nr.FineBin :=
  (held.entries.filter fun e => !e.2.shed).map fun e => e.2.bin

theorem bins_perm (held : Holding) : (held.shedBins ++ held.liveBins).Perm held.bins := by
  unfold shedBins liveBins bins
  rw [← map_append]
  exact (filter_append_perm _ _).map _

theorem binsOf_fine_live {l i : Nat}
    (h : ∀ b x, held.lookup b = some x → b / Nr.powR l = i → x.level = l) :
    binsOf held.fine l i = (held.members l i).liveBins := by
  have hmap : (held.fine.filterMap fun b fb =>
        if spanLo l i ≤ b ∧ b ≤ spanHi l i then some fb else none) = (held.members l i).fine := by
    apply ext_lookup
    intro b
    rw [lookup_filterMap, lookup_fine, lookup_fine, lookup_members]
    cases hb : held.lookup b with
    | none => rfl
    | some x =>
      by_cases hspan : b / Nr.powR l = i
      · have hlevel := h b x hb hspan
        cases hs : x.shed <;> simp [hs, hlevel, hspan, mem_span_iff]
      · cases hs : x.shed <;> simp [hs, hspan, mem_span_iff]
  unfold binsOf liveBins
  rw [slice_eq_entries, hmap]
  unfold fine SortedMap.filterMap
  rw [map_filterMap, ← filterMap_eq_map, ← filterMap_eq_filter, filterMap_filterMap]
  congr 1
  funext e
  cases hs : e.2.shed <;> simp [Option.guard, hs]

theorem liveBins_eq_nil_iff :
    held.liveBins = [] ↔ ∀ b x, held.lookup b = some x → x.shed = true := by
  unfold liveBins
  rw [map_eq_nil_iff, filter_eq_nil_iff]
  constructor
  · intro h b x hb
    simpa using h (b, x) (mem_entries_iff.mpr hb)
  · intro h e he
    simpa using h e.1 e.2 (mem_entries_iff.mp he)

theorem cellOver_comp (held : Holding) (l i : Nat) :
    (cellOver l i held).comp =
      (cellOver l i held).carried.creditAll (held.liveBins.flatMap binCredits) := by
  show (∅ : Ledger MinerId).creditAll (held.bins.flatMap binCredits) =
    ((∅ : Ledger MinerId).creditAll (held.shedBins.flatMap binCredits)).creditAll _
  rw [← creditAll_append, ← flatMap_append]
  exact creditAll_perm _ (held.bins_perm.symm.flatMap_right _)

theorem cellOver_rawWork (held : Holding) (l i : Nat) :
    (cellOver l i held).rawWork =
      (cellOver l i held).carriedRaw + (held.liveBins.map fun fb => fb.rawSum).sum := by
  show (held.bins.map fun fb => fb.rawSum).sum = (held.shedBins.map fun fb => fb.rawSum).sum + _
  rw [← sum_append, ← map_append]
  exact (held.bins_perm.symm.map _).sum_eq

end Holding

variable {lane : Lane} {l i : Nat} {c : Nr.Cell}

section

variable (h : lane.Resting env held) (hc : (lane.ridge.cells l).lookup i = some c)
include h hc

theorem Lane.Resting.cell :
    c.unscaled = Holding.cellOver l i (held.members l i) ∧
      binsOf lane.ridge.fine l i = (held.members l i).liveBins ∧
      lane.survivors c = binsOf lane.ridge.fine l i ∧ c.level = l := by
  obtain ⟨hne, hover⟩ := h.holds.shows.cell hc
  obtain ⟨hlevel, hlo, hhi, -⟩ := h.holds.shows.binLo hc
  refine ⟨hover, ?_, ?_, hlevel⟩
  · rw [h.holds.shows.fine]
    apply binsOf_fine_live
    intro b x hb hgroup
    obtain ⟨b₀, x₀, hb₀, rfl, hgroup₀⟩ := members_ne_empty.mp hne
    exact h.holds.sound.even hb₀ hb (hgroup.trans hgroup₀.symm)
  · unfold survivors binsOf
    rw [hlo, hhi]

theorem Lane.Resting.comp_eq :
    c.comp = c.carried.creditAll ((lane.survivors c).flatMap binCredits) := by
  obtain ⟨hover, hlive, hsurvivors, -⟩ := h.cell hc
  rw [hsurvivors, hlive]
  have hcomp := cellOver_comp (held.members l i) l i
  rw [← hover] at hcomp
  exact hcomp

theorem Lane.Resting.split : lane.Split c := by
  obtain ⟨hover, hlive, hsurvivors, hlevel⟩ := h.cell hc
  have hcomp := h.comp_eq hc
  have hamount : ∀ m, c.comp.amount m =
      c.carried.amount m + Ledger.sumOf ((lane.survivors c).flatMap binCredits) m := by
    intro m
    rw [← amount_creditAll, ← hcomp]
  have hok : ∀ b x, (held.members l i).lookup b = some x → BinOk b x.bin := by
    intro b x hb
    exact h.holds.sound.ok (lookup_members_eq_some.mp hb).1
  have hfull : c.fullyCarried ↔ lane.survivors c = [] := by
    rw [hsurvivors, hlive, liveBins_eq_nil_iff, ← fullyCarried_iff hok l i, ← hover]
    rfl
  refine ⟨?_, hamount, ?_, ?_, ?_⟩
  · intro m
    rw [hamount m]
    exact Nat.le_add_right _ _
  · rw [hsurvivors, hlive]
    have hraw := cellOver_rawWork (held.members l i) l i
    rw [← hover] at hraw
    exact hraw
  · rw [hfull]
    constructor
    · intro hnone
      refine ⟨?_, hnone⟩
      rw [hcomp, hnone]
      rfl
    · intro hboth
      exact hboth.2
  · intro hcarried
    by_contra htop
    apply hcarried
    have hunshed : ∀ b x, (held.members l i).lookup b = some x → x.shed = false := by
      intro b x hb
      obtain ⟨hb, hlevel', -⟩ := lookup_members_eq_some.mp hb
      by_contra hshed
      have hcap := h.holds.sound.shed hb (Bool.eq_true_of_not_eq_false hshed)
      omega
    have hempty := cellOver_carried (l := l) (i := i) hunshed
    rw [← hover] at hempty
    exact hempty

end

/-! ## The reference of a resting lane -/

theorem find_deepest {P : Nat → Prop} [DecidablePred P] {cap n : Nat} (hle : n ≤ cap)
    (h : ∀ l, l ≠ 0 → l ≤ cap → (P l ↔ l ≤ n)) :
    (((List.range cap).reverse.map fun l => l + 1).find? fun l => P l).getD 0 = n := by
  induction cap with
  | zero =>
    have hzero : n = 0 := by omega
    simp [hzero]
  | succ cap ih =>
    rw [range_succ, reverse_append, map_append]
    by_cases htop : n = cap + 1
    · have hP : P (cap + 1) := (h (cap + 1) (Nat.succ_ne_zero cap) le_rfl).mpr htop.ge
      simp [hP, htop]
    have hP : ¬ P (cap + 1) := by
      intro hP
      have hn := (h (cap + 1) (Nat.succ_ne_zero cap) le_rfl).mp hP
      omega
    have hrest := ih (by omega) fun l hl hcap => h l hl (by omega)
    simpa [hP] using hrest

theorem Lane.Resting.levelAt (h : lane.Resting env held)
    (hfits : held.Fits lane.params.nr.foldCap lane.params.nr.openHorizonBins)
    (hb : held.lookup b = some x) :
    Nr.levelAt b lane.ridge.t lane.params.nr.openHorizonBins lane.params.nr.foldCap = x.level := by
  refine find_deepest (h.holds.sound.level_le hb) ?_
  intro l hl hcap
  rw [h.leveled b x hb l hl hcap]
  exact hfits.sealedBin_iff hb hcap _

theorem Lane.Resting.fine_cell (h : lane.Resting env held)
    {fb : Nr.FineBin} (hfb : lane.ridge.fine.lookup b = some fb) :
    ∃ x c, held.lookup b = some x ∧ x.shed = false ∧ x.bin = fb ∧
      (lane.ridge.cells x.level).lookup (b / Nr.powR x.level) = some c := by
  rw [h.holds.shows.fine, lookup_fine] at hfb
  obtain ⟨x, hx, hlive⟩ := bind_eq_some_iff.mp hfb
  split at hlive
  · cases hlive
  rename_i hshed
  cases hlive
  have hne : held.members x.level (b / Nr.powR x.level) ≠ ∅ :=
    members_ne_empty.mpr ⟨b, x, hx, rfl, rfl⟩
  have hshown := h.holds.shows.cells x.level (b / Nr.powR x.level)
  unfold Holding.cell at hshown
  rw [if_neg hne] at hshown
  obtain ⟨c, hc, -⟩ := map_eq_some_iff.mp hshown
  exact ⟨x, c, hx, Bool.eq_false_of_not_eq_true hshed, rfl, hc⟩

variable {lane : Lane}

theorem Lane.Resting.values (h : lane.Resting env held) {b : Nat} (hb : held.lookup b = some x) :
    ∃ values : Ledger MinerId, (x.bin.rows.tryMap fun _ p =>
        Nr.pairValue env.canon lane.params.nr.allowDigitRepeat b p.raw x.level
          (spanHi x.level (b / Nr.powR x.level))) = .ok values ∧
      values.entries = binCredits x.bin := by
  have hlevel : x.level ≤ Nr.maxFoldCap := (h.holds.sound.level_le hb).trans h.dims.cap_le
  have hframed := h.holds.sound.framed hb
  refine ⟨x.bin.rows.mapValues fun _ p => p.v, tryMap_of_ok ?_, ?_⟩
  · intro m p hp
    rw [Nr.pairValue_eq _ hlevel]
    have hrow : (inFrame env.canon x.level b x.bin).rows.lookup m = some p := by
      rw [hframed]
      exact hp
    unfold inFrame frameBin at hrow
    rw [lookup_mapValues, hp] at hrow
    have hpair := Option.some.inj hrow
    exact congrArg Except.ok (congrArg Nr.FinePair.v hpair)
  · rw [entries_mapValues]
    rfl

theorem lookup_putBack {own : Nat → SortedMap Nat Nr.Cell}
    (hlevel : ∀ l i c, (own l).lookup i = some c → c.level = l) {es : List (Nat × Nr.Cell)}
    (hes : ∀ e ∈ es, (own e.2.level).lookup e.1 = some e.2) (l i : Nat) :
    ((es.foldl (fun out e =>
      if e.2.fullyCarried then
        Function.update out e.2.level ((out e.2.level).insert e.1 e.2)
      else out) fun _ => (∅ : SortedMap Nat Nr.Cell)) l).lookup i =
      ((own l).lookup i).bind fun c =>
        if c.fullyCarried ∧ (i, c) ∈ es then some c else none := by
  induction es using List.reverseRecOn with
  | nil => cases (own l).lookup i <;> simp
  | append_singleton es e ih =>
    have hrest := ih fun e' he' => hes e' (mem_append_left _ he')
    have he := hes e (mem_append_right _ mem_cons_self)
    rw [foldl_append, foldl_cons, foldl_nil]
    by_cases hkey : l = e.2.level ∧ i = e.1
    · obtain ⟨rfl, rfl⟩ := hkey
      rw [he]
      by_cases hfull : e.2.fullyCarried
      · rw [if_pos hfull, update_self, lookup_insert]
        simp [hfull]
      · rw [if_neg hfull, hrest, he]
        simp [hfull]
    have hother : ∀ c, (own l).lookup i = some c → (i, c) ≠ e := by
      rintro c hc rfl
      exact hkey ⟨(hlevel l i c hc).symm, rfl⟩
    have hsame : ((own l).lookup i).bind (fun c =>
          if c.fullyCarried ∧ (i, c) ∈ es then some c else none) =
        ((own l).lookup i).bind fun c =>
          if c.fullyCarried ∧ (i, c) ∈ es ++ [e] then some c else none := by
      cases hc : (own l).lookup i with
      | none => rfl
      | some c => simp [hother c hc]
    rw [← hsame, ← hrest]
    split
    · by_cases hl : l = e.2.level
      · subst hl
        have hi : i ≠ e.1 := fun hi => hkey ⟨rfl, hi⟩
        rw [update_self, lookup_insert, if_neg hi]
      · rw [update_of_ne hl]
    · rfl

theorem Lane.Resting.lookup_frozen (h : lane.Resting env held) (l i : Nat) :
    (nrFrozenCells lane.ridge l).lookup i =
      ((lane.ridge.cells l).lookup i).bind fun c => if c.fullyCarried then some c else none := by
  have hlevel : ∀ l i c, (lane.ridge.cells l).lookup i = some c → c.level = l := by
    intro l i c hc
    exact (h.holds.shows.binLo hc).1
  have hall : ∀ l i c, (lane.ridge.cells l).lookup i = some c →
      (i, c) ∈ (List.range (Nr.maxFoldCap + 1)).flatMap fun l => (lane.ridge.cells l).entries := by
    intro l i c hc
    refine mem_flatMap.mpr ⟨l, mem_range.mpr ?_, mem_entries_iff.mpr hc⟩
    by_contra hdeep
    rw [h.holds.cells_top h.dims.cap_le (by omega)] at hc
    cases hc
  unfold nrFrozenCells
  rw [lookup_putBack hlevel]
  · cases hc : (lane.ridge.cells l).lookup i with
    | none => rfl
    | some c => simp only [bind_some, hall l i c hc, and_true]
  intro e he
  obtain ⟨l', -, he⟩ := mem_flatMap.mp he
  have hc := mem_entries_iff.mp (show (e.1, e.2) ∈ _ from he)
  rw [hlevel l' e.1 e.2 hc]
  exact hc

section

variable (h : lane.Resting env held) (hc : (lane.ridge.cells l).lookup i = some c)
  (hraw : c.carriedRaw = 0)
include h hc hraw

theorem Lane.Resting.unshed_of_raw (hb : (held.members l i).lookup b = some x) :
    x.shed = false := by
  obtain ⟨hover, -, -, -⟩ := h.cell hc
  by_contra hshed
  have hmem : x.bin ∈ (held.members l i).shedBins := by
    refine mem_map.mpr ⟨(b, x), mem_filter.mpr ⟨mem_entries_iff.mpr hb, ?_⟩, rfl⟩
    exact Bool.eq_true_of_not_eq_false hshed
  have hsum : c.carriedRaw = ((held.members l i).shedBins.map fun fb => fb.rawSum).sum :=
    congrArg Nr.Cell.carriedRaw hover
  have hle := le_sum_of_mem (mem_map_of_mem (f := fun fb : Nr.FineBin => fb.rawSum) hmem)
  have hpos := (h.holds.sound.ok (lookup_members_eq_some.mp hb).1).rawSum_pos
  omega

theorem Lane.Resting.carried_of_raw : c.carried = ∅ := by
  have hempty := cellOver_carried (l := l) (i := i) fun _ _ => h.unshed_of_raw hc hraw
  rw [← (h.cell hc).1] at hempty
  exact hempty

end

namespace Lane

def referenceKey (lane : Lane) (b : Nat) : Nat × Nat :=
  let l := Nr.levelAt b lane.ridge.t lane.params.nr.openHorizonBins lane.params.nr.foldCap
  (l, b / Nr.powR l)

/-- The bins of a list that the reference puts under `(l, i)`. -/
def referenceBins (lane : Lane) (done : List (Nat × Nr.FineBin)) (l i : Nat) : List Nr.FineBin :=
  (done.filter fun e => lane.referenceKey e.1 = (l, i)).map Prod.snd

def referenceCell (c : Nr.Cell) (bins : List Nr.FineBin) : Nr.Cell :=
  { c with
    rawWork := c.carriedRaw + (bins.map fun fb => fb.rawSum).sum
    comp := c.carried.creditAll (bins.flatMap binCredits)
    prov := if c.carriedRaw = 0 then [] else c.prov }

/-- What the loop has built after the bins of `done`. -/
structure Referring (lane : Lane) (done : List (Nat × Nr.FineBin)) (out : ReferenceCells) :
    Prop where
  fine : ∀ e ∈ done, lane.ridge.fine.lookup e.1 = some e.2
  cells : ∀ l i, (out.cells l).lookup i = ((lane.ridge.cells l).lookup i).bind fun c =>
    if lane.referenceBins done l i = [] then if c.fullyCarried then some c else none
    else some (referenceCell c (lane.referenceBins done l i))
  prov : ∀ l i, (out.prov l).lookup i =
    if ∀ fb ∈ lane.referenceBins done l i, fb.prov = ∅ then none
    else some ((∅ : Ledger ProvKey).creditAll
      ((lane.referenceBins done l i).flatMap fun fb => fb.prov.entries))
  partlyShed : ∀ l i, (l, i) ∈ out.partlyShed ↔
    lane.referenceBins done l i ≠ [] ∧
      ∃ c, (lane.ridge.cells l).lookup i = some c ∧ c.carriedRaw ≠ 0

variable {lane : Lane} {done : List (Nat × Nr.FineBin)} {l i : Nat} {c : Nr.Cell} {fb : Nr.FineBin}
  {e : Nat × Nr.FineBin} {out : ReferenceCells}

theorem referenceBins_append (l i : Nat) :
    lane.referenceBins (done ++ [e]) l i =
      if lane.referenceKey e.1 = (l, i) then lane.referenceBins done l i ++ [e.2]
      else lane.referenceBins done l i := by
  unfold referenceBins
  split
  · rename_i hkey
    simp [hkey]
  · rename_i hkey
    simp [hkey]

theorem Resting.referenceStart (h : lane.Resting env held)
    (hc : (lane.ridge.cells l).lookup i = some c) :
    lane.nrReferenceStart env l i Nr.Cell.default =
      .ok (referenceCell c [], decide (c.carriedRaw ≠ 0)) := by
  obtain ⟨hlevel, hlo, hhi, hrecord⟩ := h.holds.shows.binLo hc
  have hscalar : lane.scalar env (spanHi l i) = .ok c.G := by
    rw [← hhi]
    exact h.scaled.cells l i c hc
  unfold nrReferenceStart
  rw [hscalar, ok_bind, hc]
  dsimp only
  by_cases hraw : c.carriedRaw = 0
  · have hcarried := h.carried_of_raw hc hraw
    obtain ⟨level, lo, hi, raw, comp, prov, recordOnly, G, carried, carriedRaw⟩ := c
    dsimp only at hlevel hlo hhi hrecord hraw hcarried
    subst hlevel hlo hhi hrecord hraw hcarried
    rfl
  rw [if_neg hraw]
  obtain ⟨level, lo, hi, raw, comp, prov, recordOnly, G, carried, carriedRaw⟩ := c
  dsimp only at hlevel hlo hhi hrecord hraw
  subst hlevel hlo hhi hrecord
  simp [referenceCell, Nr.Cell.default, hraw, Ledger.creditAll]

theorem Resting.not_fullyCarried {b : Nat} (h : lane.Resting env held)
    (hc : (lane.ridge.cells l).lookup (b / Nr.powR l) = some c)
    (hfb : lane.ridge.fine.lookup b = some fb) : ¬ c.fullyCarried := by
  intro hfull
  have hnone := ((h.split hc).fullyCarried.mp hfull).2
  rw [(h.cell hc).2.2.1] at hnone
  have hmem : fb ∈ binsOf lane.ridge.fine l (b / Nr.powR l) :=
    mem_map.mpr ⟨(b, fb), mem_slice.mpr ⟨hfb, mem_span_iff.mpr rfl⟩, rfl⟩
  rw [hnone] at hmem
  cases hmem

theorem Referring.found {b : Nat} (h : lane.Referring done out) (hresting : lane.Resting env held)
    (hc : (lane.ridge.cells l).lookup (b / Nr.powR l) = some c)
    (hfb : lane.ridge.fine.lookup b = some fb) :
    lane.nrReferenceFind env out l (b / Nr.powR l) =
      .ok (referenceCell c (lane.referenceBins done l (b / Nr.powR l)),
        decide (lane.referenceBins done l (b / Nr.powR l) = [] ∧ c.carriedRaw ≠ 0)) := by
  unfold nrReferenceFind
  rw [h.cells, hc, bind_some]
  by_cases hbins : lane.referenceBins done l (b / Nr.powR l) = []
  · rw [if_pos hbins, if_neg (hresting.not_fullyCarried hc hfb), getD_none,
      if_pos ⟨rfl, rfl⟩, hresting.referenceStart hc, hbins]
    simp
  rw [if_neg hbins, getD_some, if_neg]
  · simp [hbins]
  rintro ⟨hzero, -⟩
  obtain ⟨fb', rest, hlist⟩ := exists_cons_of_ne_nil hbins
  have hmem : fb' ∈ lane.referenceBins done l (b / Nr.powR l) := by
    rw [hlist]
    exact mem_cons_self
  obtain ⟨e, he, rfl⟩ := mem_map.mp hmem
  have hpos := hresting.fine_pos (h.fine e (mem_filter.mp he).1)
  have hraw : c.carriedRaw + ((lane.referenceBins done l (b / Nr.powR l)).map
      fun fb => fb.rawSum).sum = 0 := hzero
  rw [hlist, map_cons, sum_cons] at hraw
  omega

theorem referenceCell_append (c : Nr.Cell) (bins : List Nr.FineBin) (fb : Nr.FineBin) :
    { referenceCell c bins with
      rawWork := (referenceCell c bins).rawWork + fb.rawSum
      comp := (referenceCell c bins).comp.creditAll (binCredits fb) } =
      referenceCell c (bins ++ [fb]) := by
  unfold referenceCell
  simp [creditAll_append, Nat.add_assoc]

/-- What a bin adds to the loop. -/
def ReferenceCells.add (out : ReferenceCells) (l i : Nat) (c : Nr.Cell) (prov : Ledger ProvKey)
    (shed : Bool) : ReferenceCells where
  cells := Function.update out.cells l ((out.cells l).insert i c)
  prov :=
    if prov = ∅ then out.prov
    else Function.update out.prov l ((out.prov l).insert i
      (Ledger.creditAll (((out.prov l).lookup i).getD ∅) prov.entries))
  partlyShed := if shed then (l, i) :: out.partlyShed else out.partlyShed

theorem Referring.nrReferenceBin {b : Nat} (h : lane.Referring done out)
    (hresting : lane.Resting env held)
    (hfits : held.Fits lane.params.nr.foldCap lane.params.nr.openHorizonBins)
    (hfb : lane.ridge.fine.lookup b = some fb) :
    ∃ l i c, lane.referenceKey b = (l, i) ∧ (lane.ridge.cells l).lookup i = some c ∧
      lane.nrReferenceBin env out (b, fb) = .ok (ReferenceCells.add out l i
        (referenceCell c (lane.referenceBins done l i ++ [fb])) fb.prov
        (decide (lane.referenceBins done l i = [] ∧ c.carriedRaw ≠ 0))) := by
  obtain ⟨x, c, hx, -, rfl, hc⟩ := hresting.fine_cell hfb
  have hlevel := hresting.levelAt hfits hx
  obtain ⟨values, hvalues, hentries⟩ := hresting.values hx
  obtain ⟨hcell, -, hhi, -⟩ := hresting.holds.shows.binLo hc
  refine ⟨x.level, b / Nr.powR x.level, c, ?_, hc, ?_⟩
  · unfold referenceKey
    rw [hlevel]
  unfold Lane.nrReferenceBin
  dsimp only
  rw [hlevel, h.found hresting hc hfb, ok_bind]
  have hvalues : (x.bin.rows.tryMap fun _ p =>
      Nr.pairValue env.canon lane.params.nr.allowDigitRepeat b p.raw
        (referenceCell c (lane.referenceBins done x.level (b / Nr.powR x.level))).level
        (referenceCell c (lane.referenceBins done x.level (b / Nr.powR x.level))).binHi) =
      .ok values := by
    rw [← hhi, ← hcell] at hvalues
    exact hvalues
  rw [hvalues, ok_bind, hentries, ← referenceCell_append]
  rfl

theorem Referring.gathered (h : lane.Referring done out) (l i : Nat) :
    ((out.prov l).lookup i).getD ∅ = (∅ : Ledger ProvKey).creditAll
      ((lane.referenceBins done l i).flatMap fun fb => fb.prov.entries) := by
  rw [h.prov]
  split
  · rename_i hall
    have hnil : (lane.referenceBins done l i).flatMap (fun fb => fb.prov.entries) = [] := by
      rw [flatMap_eq_nil_iff]
      intro fb hfb
      exact entries_eq_nil.mpr (hall fb hfb)
    rw [hnil]
    rfl
  · rfl

theorem Referring.add (h : lane.Referring done out) (hfb : lane.ridge.fine.lookup e.1 = some e.2)
    (hkey : lane.referenceKey e.1 = (l, i)) (hc : (lane.ridge.cells l).lookup i = some c) :
    lane.Referring (done ++ [e]) (ReferenceCells.add out l i
      (referenceCell c (lane.referenceBins done l i ++ [e.2])) e.2.prov
      (decide (lane.referenceBins done l i = [] ∧ c.carriedRaw ≠ 0))) := by
  have hself : lane.referenceBins (done ++ [e]) l i = lane.referenceBins done l i ++ [e.2] := by
    rw [referenceBins_append, if_pos hkey]
  have hother : ∀ l' i', ¬ (l' = l ∧ i' = i) →
      lane.referenceBins (done ++ [e]) l' i' = lane.referenceBins done l' i' := by
    intro l' i' hne
    rw [referenceBins_append, if_neg]
    rw [hkey]
    intro heq
    cases heq
    exact hne ⟨rfl, rfl⟩
  refine ⟨?_, ?_, ?_, ?_⟩
  · intro e' he'
    rcases mem_append.mp he' with he' | he'
    · exact h.fine e' he'
    · rw [mem_singleton.mp he']
      exact hfb
  · intro l' i'
    show ((Function.update out.cells l ((out.cells l).insert i _)) l').lookup i' = _
    by_cases hne : l' = l ∧ i' = i
    · obtain ⟨rfl, rfl⟩ := hne
      rw [update_self, lookup_insert, if_pos rfl, hc, hself]
      simp
    rw [hother l' i' hne, ← h.cells l' i']
    by_cases hl : l' = l
    · subst hl
      rw [update_self, lookup_insert, if_neg fun hi => hne ⟨rfl, hi⟩]
    · rw [update_of_ne hl]
  · intro l' i'
    by_cases hne : l' = l ∧ i' = i
    · obtain ⟨rfl, rfl⟩ := hne
      rw [hself]
      unfold ReferenceCells.add
      dsimp only
      by_cases hempty : e.2.prov = ∅
      · have hall : (∀ fb ∈ lane.referenceBins done l' i' ++ [e.2], fb.prov = ∅) ↔
            ∀ fb ∈ lane.referenceBins done l' i', fb.prov = ∅ := by
          simp [hempty, or_imp, forall_and]
        have hentries : (lane.referenceBins done l' i' ++ [e.2]).flatMap
              (fun fb => fb.prov.entries) =
            (lane.referenceBins done l' i').flatMap fun fb => fb.prov.entries := by
          rw [flatMap_append, flatMap_singleton, entries_eq_nil.mpr hempty, append_nil]
        rw [if_pos hempty, h.prov, hentries]
        simp only [hall]
      have hsome : ¬ ∀ fb ∈ lane.referenceBins done l' i' ++ [e.2], fb.prov = ∅ := by
        intro hall
        exact hempty (hall e.2 (mem_append_right _ mem_cons_self))
      rw [if_neg hempty, if_neg hsome, update_self, lookup_insert, if_pos rfl,
        h.gathered, flatMap_append, creditAll_append, flatMap_singleton]
    rw [hother l' i' hne, ← h.prov l' i']
    unfold ReferenceCells.add
    dsimp only
    split
    · rfl
    by_cases hl : l' = l
    · subst hl
      rw [update_self, lookup_insert, if_neg fun hi => hne ⟨rfl, hi⟩]
    · rw [update_of_ne hl]
  · intro l' i'
    have hmem : (l', i') ∈ (ReferenceCells.add out l i
          (referenceCell c (lane.referenceBins done l i ++ [e.2])) e.2.prov
          (decide (lane.referenceBins done l i = [] ∧ c.carriedRaw ≠ 0))).partlyShed ↔
        (l' = l ∧ i' = i) ∧ (lane.referenceBins done l i = [] ∧ c.carriedRaw ≠ 0) ∨
          (l', i') ∈ out.partlyShed := by
      unfold ReferenceCells.add
      dsimp only
      split
      · rename_i hshed
        simp only [decide_eq_true_eq] at hshed
        simp [hshed]
      rename_i hshed
      simp only [decide_eq_true_eq] at hshed
      simp [hshed]
    rw [hmem, h.partlyShed]
    by_cases hne : l' = l ∧ i' = i
    · obtain ⟨rfl, rfl⟩ := hne
      rw [hself, hc]
      by_cases hbins : lane.referenceBins done l' i' = []
      · simp [hbins]
      · simp [hbins]
    · rw [hother l' i' hne]
      simp [hne]

theorem Referring.all (hresting : lane.Resting env held)
    (hfits : held.Fits lane.params.nr.foldCap lane.params.nr.openHorizonBins)
    {es : List (Nat × Nr.FineBin)} (h : lane.Referring done out)
    (hes : ∀ e ∈ es, lane.ridge.fine.lookup e.1 = some e.2) :
    ∃ out', es.foldlM (lane.nrReferenceBin env) out = .ok out' ∧
      lane.Referring (done ++ es) out' := by
  induction es generalizing done out with
  | nil => exact ⟨out, rfl, by simpa using h⟩
  | cons e es ih =>
    have hfb := hes e mem_cons_self
    obtain ⟨l, i, c, hkey, hc, hbin⟩ := h.nrReferenceBin hresting hfits hfb
    obtain ⟨out', hrest, hout'⟩ := ih (h.add hfb hkey hc)
      fun e' he' => hes e' (mem_cons_of_mem _ he')
    refine ⟨out', ?_, ?_⟩
    · rw [foldlM_cons, show lane.nrReferenceBin env out e = _ from hbin, ok_bind]
      exact hrest
    · rw [append_assoc] at hout'
      exact hout'

theorem Resting.referenceBins (h : lane.Resting env held)
    (hfits : held.Fits lane.params.nr.foldCap lane.params.nr.openHorizonBins)
    (hc : (lane.ridge.cells l).lookup i = some c) :
    lane.referenceBins lane.ridge.fine.entries l i = lane.survivors c := by
  rw [(h.cell hc).2.2.1]
  unfold Lane.referenceBins binsOf SortedMap.slice
  congr 1
  apply filter_congr
  intro e he
  obtain ⟨x, -, hx, -, -, -⟩ := h.fine_cell (mem_entries_iff.mp he)
  have hkey : lane.referenceKey e.1 = (x.level, e.1 / Nr.powR x.level) := by
    unfold referenceKey
    rw [h.levelAt hfits hx]
  rw [hkey, decide_eq_decide, mem_span_iff, Prod.mk.injEq]
  constructor
  · rintro ⟨rfl, rfl⟩
    rfl
  rintro rfl
  obtain ⟨b₀, x₀, hb₀, rfl, hgroup⟩ := members_ne_empty.mp (h.holds.shows.cell hc).1
  have hlevel := h.holds.sound.even hb₀ hx hgroup.symm
  exact ⟨hlevel, by rw [hlevel]⟩

theorem Resting.prov_eq (h : lane.Resting env held)
    (hc : (lane.ridge.cells l).lookup i = some c) (hraw : c.carriedRaw = 0) :
    c.prov = provRows ((∅ : Ledger ProvKey).creditAll
      ((lane.survivors c).flatMap fun fb => fb.prov.entries)) := by
  obtain ⟨hover, hlive, hsurvivors, -⟩ := h.cell hc
  have hbins : (held.members l i).bins = (held.members l i).liveBins := by
    unfold Holding.bins Holding.liveBins
    rw [filter_eq_self.mpr]
    intro e he
    simp [h.unshed_of_raw hc hraw (mem_entries_iff.mp he)]
  rw [hsurvivors, hlive, ← hbins]
  exact congrArg Nr.Cell.prov hover

section

variable (h : lane.Resting env held)
  (hfits : held.Fits lane.params.nr.foldCap lane.params.nr.openHorizonBins)
include h hfits

theorem Resting.reference : lane.nrReferenceCells env = .ok lane.ridge.cells := by
  have hstart : lane.Referring [] ⟨nrFrozenCells lane.ridge, fun _ => ∅, []⟩ := by
    refine ⟨fun e he => (nomatch he), ?_, ?_, ?_⟩
    · intro l i
      exact h.lookup_frozen l i
    · intro l i
      rw [show lane.referenceBins [] l i = [] from rfl]
      simp
    · intro l i
      rw [show lane.referenceBins [] l i = [] from rfl]
      simp
  obtain ⟨out, hout, hrefers⟩ := hstart.all h hfits (fun e he => mem_entries_iff.mp he)
  rw [nil_append] at hrefers
  unfold nrReferenceCells
  rw [hout, ok_bind]
  congr 1
  funext l
  apply ext_lookup
  intro i
  rw [lookup_mapValues, hrefers.cells]
  cases hc : (lane.ridge.cells l).lookup i with
  | none => rfl
  | some c =>
    have hbins := h.referenceBins hfits hc
    have hsplit := h.split hc
    have hpartly := hrefers.partlyShed l i
    have hprov := hrefers.prov l i
    rw [hbins] at hpartly hprov
    rw [bind_some, hbins]
    unfold withReferenceProv
    by_cases hnone : lane.survivors c = []
    · have hfull : c.fullyCarried := by
        rw [hsplit.fullyCarried]
        refine ⟨?_, hnone⟩
        rw [h.comp_eq hc, hnone]
        rfl
      rw [if_pos hnone, if_pos hfull, map_some, if_neg, hprov, hnone]
      · simp
      · rw [hpartly]
        simp [hnone]
    have hwhole : referenceCell c (lane.survivors c) =
        { c with prov := if c.carriedRaw = 0 then [] else c.prov } := by
      unfold referenceCell
      rw [← hsplit.rawWork, ← h.comp_eq hc]
    rw [if_neg hnone, map_some, hwhole]
    by_cases hraw : c.carriedRaw = 0
    · have hrows := h.prov_eq hc hraw
      have hgathered := hrefers.gathered l i
      rw [hbins] at hgathered
      rw [← hgathered] at hrows
      rw [if_neg, if_pos hraw]
      · cases hlook : (out.prov l).lookup i with
        | none =>
          rw [hlook] at hrows
          rw [← show c.prov = [] from hrows]
        | some prov =>
          rw [hlook] at hrows
          dsimp only
          rw [← show c.prov = provRows prov from hrows]
      · rw [hpartly]
        simp [hc, hraw]
    rw [if_pos, if_neg hraw]
    rw [hpartly]
    exact ⟨hnone, c, hc, hraw⟩

theorem Resting.derived : lane.Derived env := ⟨h.reference hfits, fun _ _ _ hc => h.split hc⟩

end

theorem derived_of_empty (h : lane.ridge.Same emptyRidge) : lane.Derived env := by
  have hcells : ∀ l, lane.ridge.cells l = ∅ := by
    intro l
    apply ext_lookup
    intro i
    exact map_eq_none_iff.mp (h.cells l i)
  have hfrozen : nrFrozenCells lane.ridge = fun _ => ∅ := by
    unfold nrFrozenCells
    simp only [hcells]
    rfl
  refine ⟨?_, ?_⟩
  · unfold nrReferenceCells
    rw [h.fine, hfrozen]
    show Except.ok _ = _
    congr 1
    funext l
    rw [hcells l]
    rfl
  intro l i c hc
  rw [hcells l] at hc
  cases hc

end Lane

/-- No seal test of the groups of a bin wraps around. -/
def LaneParams.Reaches (p : LaneParams) (b : Nat) : Prop :=
  groupHi p.nr.foldCap b + p.nr.openHorizonBins + 1 < 2 ^ 64

theorem LaneParams.Dims.room_of_reaches {p : LaneParams} (h : p.Dims)
    (hb : p.Reaches b) : p.nr.openHorizonBins + Nr.powR p.nr.foldCap ≤ p.nr.wMinBins := by
  have hdeep := h.deep
  have hgroup : Nr.powR p.nr.foldCap ≤ groupHi p.nr.foldCap b + 1 := by
    unfold groupHi spanHi
    omega
  unfold LaneParams.Reaches at hb
  rw [Nat.mod_eq_of_lt (by omega)] at hdeep
  exact hdeep

theorem Lane.clearOn_of_reaches {resolver : Option Resolver} {a : WorkAtom}
    (hreaches : lane.nrActive → ∀ origin, a.originBin = some origin →
      lane.params.Reaches origin.val) :
    lane.ClearOn env lane.params.Reaches False resolver a := by
  intro held id origin carrier lane' hactive hresting hheld _ horigin _ hadmits _
  have hbin := hreaches hactive origin horigin
  exact ⟨hbin, hadmits.lt_origin, hresting.dims.room_of_reaches hbin, fun _ => hheld, False.elim⟩

/-- While no seal test of a credited bin wraps around, every run of successful calls
ends with the cells of the reference. -/
theorem Lane.run_derived {p : LaneParams} (hfalls : Falling env.canon)
    (_hridge : p.nr.activationPos ≠ none) {lane₀ lane : Lane} (hcreate : create env p = .ok lane₀)
    {calls : List Call} (hrun : PartialRun.run (Lane.call env) lane₀ calls = .ok lane)
    (hreaches : ∀ done resolver a rest lane', calls = done ++ .push resolver a :: rest →
      PartialRun.run (Lane.call env) lane₀ done = .ok lane' → lane'.nrActive →
      ∀ origin, a.originBin = some origin → p.Reaches origin.val) : lane.Derived env := by
  obtain ⟨tables, hconstruct, -⟩ := bind_eq_ok.mp hcreate
  obtain ⟨-, hnr, -, -, -, hretain⟩ := LaneParams.construct_spec hconstruct
  have hdims : p.nr.version = 1 → p.Dims := LaneParams.checkNr_dims hnr
  have htended : lane.Tended env p p.Reaches False := by
    refine run_invariant_along (A := fun s c => ∀ resolver a, c = .push resolver a →
      s.nrActive → ∀ origin, a.originBin = some origin → p.Reaches origin.val) ?_
      (create_tended hcreate) ?_ hrun
    · intro s c s' hs hallowed hstep
      refine hs.call hfalls hdims (by omega) ?_ hstep
      intro resolver a hc
      have hclear : s.ClearOn env s.params.Reaches False resolver a := by
        apply clearOn_of_reaches
        rw [hs.kept.params]
        exact hallowed resolver a hc
      rw [hs.kept.params] at hclear
      exact hclear
    · rintro done c rest s hcalls hdone resolver a rfl
      exact hreaches done resolver a rest s hcalls hdone
  obtain ⟨-, hempty⟩ | ⟨held, hresting, hheld⟩ := htended.kept.ridge
  · exact derived_of_empty hempty
  apply hresting.derived
  rw [htended.kept.params]
  exact hheld

/-- A share whose group ends at the last bin of the range. -/
def topCalls : List Call :=
  [ridgeShare 1 (2 ^ 64 - 12289) (2 ^ 64 - 12289) false,
    ridgeShare 2 (2 ^ 64 - 8) (2 ^ 64 - 8) false].map fun x => .push x.1 x.2

/-- The reference folds a bin whose seal test wraps around, the engine does not. -/
theorem Lane.topCalls_not_derived :
    ∃ lane₀ lane, create nearEnv ridgeParams = .ok lane₀ ∧
      PartialRun.run (Lane.call nearEnv) lane₀ topCalls = .ok lane ∧ ¬ lane.Derived nearEnv := by
  have hruns : ((create nearEnv ridgeParams).toOption.bind fun lane₀ =>
      (PartialRun.run (Lane.call nearEnv) lane₀ topCalls).toOption).any (fun lane =>
        decide ((lane.ridge.cells 1).entries = []) &&
          (lane.nrReferenceCells nearEnv).toOption.any fun cells =>
            decide ((cells 1).entries ≠ [])) = true := by decide +kernel
  obtain ⟨lane₀, lane, hcreate, hrun, hstate⟩ := exists_run hruns
  refine ⟨lane₀, lane, hcreate, hrun, ?_⟩
  intro hderived
  rw [hderived.reference] at hstate
  simp [Except.toOption] at hstate

theorem Lane.run_derived_ridgeCalls :
    ∃ lane₀ lane, create nearEnv ridgeParams = .ok lane₀ ∧
      PartialRun.run (Lane.call nearEnv) lane₀ ridgeCalls = .ok lane ∧ lane.Derived nearEnv := by
  obtain ⟨lane₀, lane, hcreate, hrun, -⟩ := @exists_run ridgeParams ridgeCalls
    (fun _ => true) (by decide +kernel)
  have hlow : ridgeCalls.all (fun c => match c with
      | .push _ a => a.originBin.all fun origin => origin.val ≤ 112
      | _ => true) = true := by decide
  refine ⟨lane₀, lane, hcreate, hrun, run_derived falling_nearEnv (by decide) hcreate hrun ?_⟩
  intro done resolver a rest lane' hcalls _ _ origin horigin
  have hmem : Call.push resolver a ∈ ridgeCalls := by
    rw [hcalls]
    exact mem_append_right _ mem_cons_self
  have hbin : origin.val ≤ 112 := by
    have hall := all_eq_true.mp hlow _ hmem
    dsimp only at hall
    rw [horigin] at hall
    exact of_decide_eq_true hall
  have hgroup := groupHi_lt 1 origin.val
  show groupHi 1 origin.val + 3 + 1 < 2 ^ 64
  have hpow : Nr.powR 1 = 8 := rfl
  omega

end C2Pool.V37
