import C2Pool.V37.LaneHistory

/-! # The steps of the ridge

What each operation of the ridge has done when it goes through.
-/

namespace C2Pool.V37

open PartialRun

namespace Lane

variable {env : Env} {lane lane' : Lane} {id : Resolver} {e : Nat × Nr.Cell} {a : WorkAtom}
  {resolver : Option Resolver}

theorem orThrow_eq_ok {α : Type} {x : Except Throw α} {y : α} :
    lane.orThrow x = .ok y ↔ x = .ok y := by
  cases x with
  | error e =>
    constructor
    · intro h
      cases h
    · intro h
      cases h
  | ok z =>
    constructor
    · intro h
      cases h
      rfl
    intro h
    cases h
    rfl

/-- The lane after the fold of group `pidx` of level `level`. -/
def afterFold (lane : Lane) (level pidx : Nat) (fine : SortedMap Nat Nr.FineBin) (g : U64) : Lane :=
  let child := (lane.ridge.cells (level - 1)).cutOut (pidx * Nr.rollup)
    (pidx * Nr.rollup + Nr.rollup - 1)
  let cut := lane.setLevel (level - 1) child
  ((cut.setFine fine).setLevel level
    ((cut.ridge.cells level).insert pidx (cellOf level pidx (binsOf fine level pidx) g))).record
    (.nrFold level pidx)

theorem nrFoldGroup_eq_ok {level pidx : Nat} (h : lane.nrFoldGroup env level pidx = .ok lane') :
    (∀ e ∈ (lane.ridge.cells (level - 1)).slice (pidx * Nr.rollup)
      (pidx * Nr.rollup + Nr.rollup - 1), e.2.carried = ∅) ∧
      ∃ fine g, lane.reframe env level pidx = .ok fine ∧
        lane.scalar env (spanHi level pidx) = .ok g ∧ binsOf fine level pidx ≠ [] ∧
        lane' = lane.afterFold level pidx fine g := by
  unfold nrFoldGroup at h
  dsimp only at h
  split at h
  · cases h
  rename_i hcarried
  push Not at hcarried
  obtain ⟨⟨fine, cell⟩, hbuild, h⟩ := bind_eq_ok.mp h
  have hbuild := orThrow_eq_ok.mp hbuild
  obtain ⟨fine', hfine, hbuild⟩ := bind_eq_ok.mp hbuild
  obtain ⟨g, hg, hbuild⟩ := bind_eq_ok.mp hbuild
  dsimp only at hbuild
  split at hbuild
  · cases hbuild
    cases h
  rename_i hbins
  cases hbuild
  cases h
  exact ⟨hcarried, fine, g, hfine, hg, hbins, rfl⟩

/-- The lane after the shed of a bin into cell `idx` of level `l`. -/
def afterShed (lane : Lane) (e : Nat × Nr.FineBin) (l idx : Nat) (c : Nr.Cell) : Lane :=
  (lane.setFine (lane.ridge.fine.erase e.1)).setLevel l ((lane.ridge.cells l).insert idx c)

theorem nrShedBin_eq_ok {e : Nat × Nr.FineBin} (h : lane.nrShedBin env id e = .ok lane') :
    ∃ l idx c₀, lane.nrFindOwner e.1 = some (l, idx) ∧ (lane.ridge.cells l).lookup idx = some c₀ ∧
      ((shedInto c₀ e.2).fullyCarried ∧ (shedInto c₀ e.2).carried = (shedInto c₀ e.2).comp ∧
        lane' = { lane.afterShed e l idx (shedInto c₀ e.2) with
          mmr := mmrAppend env.sha256d lane.mmr
            (leafHash env.sha256d (nrCellLeafPayload env id (shedInto c₀ e.2)))
          journal := .nrShed e.1 e.2 (some lane.mmr) :: lane.journal } ∨
      ¬ (shedInto c₀ e.2).fullyCarried ∧
        lane' = (lane.afterShed e l idx (shedInto c₀ e.2)).record (.nrShed e.1 e.2 none)) := by
  unfold nrShedBin at h
  split at h
  · cases h
  rename_i l idx howner
  have hfound : ∃ c₀, (lane.ridge.cells l).lookup idx = some c₀ := by
    obtain ⟨l', hl', hpair⟩ := Option.map_eq_some_iff.mp howner
    cases hpair
    have hsome := List.find?_some hl'
    exact Option.isSome_iff_exists.mp hsome
  obtain ⟨c₀, hc₀⟩ := hfound
  refine ⟨l, idx, c₀, howner, hc₀, ?_⟩
  rw [hc₀, Option.getD_some] at h
  dsimp only at h
  split at h
  · rename_i hfull
    obtain ⟨full, hon, h⟩ := bind_eq_ok.mp h
    unfold nrOnFullCarry at hon
    split at hon
    · cases hon
    rename_i hcarried
    cases hon
    cases h
    exact .inl ⟨hfull, not_not.mp hcarried, rfl⟩
  rename_i hfull
  cases h
  exact .inr ⟨hfull, rfl⟩

theorem nrShedRecordCell_eq_ok {floor : Nat}
    (h : lane.nrShedRecordCell env id floor e = .ok lane') :
    (floor ≤ e.1 ∨ e.2.fullyCarried) ∧ lane' = lane ∨
      ¬ (floor ≤ e.1 ∨ e.2.fullyCarried) ∧
        lane' = { lane.setRecord (lane.ridge.record.insert e.1
            { e.2 with carried := e.2.comp, carriedRaw := e.2.rawWork }) with
          mmr := mmrAppend env.sha256d lane.mmr (leafHash env.sha256d (nrCellLeafPayload env id
            { e.2 with carried := e.2.comp, carriedRaw := e.2.rawWork }))
          journal := .nrShedRecord e.1 (some lane.mmr) :: lane.journal } := by
  unfold nrShedRecordCell at h
  split at h
  · rename_i hkeep
    cases h
    exact .inl ⟨hkeep, rfl⟩
  rename_i hkeep
  obtain ⟨full, hon, h⟩ := bind_eq_ok.mp h
  unfold nrOnFullCarry at hon
  split at hon
  · cases hon
  cases hon
  cases h
  exact .inr ⟨hkeep, rfl⟩

theorem drop_eq_ok {c : Nr.Cell} {err : Failure} {dropped : Lane}
    (h : (if ¬ lane.beyondDomain c then .ok lane else if ¬ c.fullyCarried then .error err
      else .ok dropped : Attempt Lane) = .ok lane') :
    ¬ lane.beyondDomain c ∧ lane' = lane ∨
      lane.beyondDomain c ∧ c.fullyCarried ∧ lane' = dropped := by
  split at h
  · rename_i hbeyond
    cases h
    exact .inl ⟨hbeyond, rfl⟩
  rename_i hbeyond
  split at h
  · cases h
  rename_i hfull
  cases h
  exact .inr ⟨not_not.mp hbeyond, not_not.mp hfull, rfl⟩

theorem nrDropCell_eq_ok {l : Nat} (h : nrDropCell l lane e = .ok lane') :
    ¬ lane.beyondDomain e.2 ∧ lane' = lane ∨
      lane.beyondDomain e.2 ∧ e.2.fullyCarried ∧
        lane' = (lane.setLevel l ((lane.ridge.cells l).erase e.1)).record (.nrDrop l e.1 e.2) :=
  drop_eq_ok h

theorem nrDropRecordCell_eq_ok (h : nrDropRecordCell lane e = .ok lane') :
    ¬ lane.beyondDomain e.2 ∧ lane' = lane ∨
      lane.beyondDomain e.2 ∧ e.2.fullyCarried ∧
        lane' = (lane.setRecord (lane.ridge.record.erase e.1)).record (.nrDropRecord e.1 e.2) :=
  drop_eq_ok h

theorem nrRefreshScalars_eq_ok (h : lane.nrRefreshScalars env = .ok lane') :
    (∀ c ∈ nrAllCells lane.ridge, ∃ g, lane.scalar env c.binHi = .ok g) ∧
      lane' = { lane with ridge :=
        { lane.ridge with
          cells := fun l => (lane.ridge.cells l).filterMap fun _ c => lane.rescale env c
          record := lane.ridge.record.filterMap fun _ c => lane.rescale env c } } := by
  unfold nrRefreshScalars at h
  split at h
  · cases h
  rename_i hnone
  cases h
  refine ⟨?_, rfl⟩
  intro c hc
  have hone := List.findSome?_eq_none_iff.mp hnone c hc
  cases hg : lane.scalar env c.binHi with
  | error e =>
    rw [hg] at hone
    cases hone
  | ok g => exact ⟨g, rfl⟩

theorem nrShedBelowFloor_eq_ok (h : lane.nrShedBelowFloor env id = .ok lane') :
    ∃ shed, (lane.ridge.fine.entries.takeWhile fun e => e.1 < lane.nrBBin).foldlM
        (nrShedBin env id) lane = .ok shed ∧
      shed.ridge.record.entries.foldlM (nrShedRecordCell env id lane.nrBBin) shed = .ok lane' :=
  bind_eq_ok.mp h

theorem nrDropBeyondDomain_eq_ok (h : lane.nrDropBeyondDomain = .ok lane') :
    ∃ cells, (List.range (lane.params.nr.foldCap + 1)).foldlM
        (fun lane l => (lane.ridge.cells l).entries.foldlM (nrDropCell l) lane) lane = .ok cells ∧
      cells.ridge.record.entries.foldlM nrDropRecordCell cells = .ok lane' := bind_eq_ok.mp h

theorem nrAfterClockMove_eq_ok (h : lane.nrAfterClockMove env id a = .ok lane') :
    ∃ folded shed dropped, lane.nrRunDueFolds env = .ok folded ∧
      (folded.nrMaybeRetarget a).nrShedBelowFloor env id = .ok shed ∧
      shed.nrDropBeyondDomain = .ok dropped ∧ dropped.nrRefreshScalars env = .ok lane' := by
  obtain ⟨folded, hfolded, h⟩ := bind_eq_ok.mp h
  obtain ⟨shed, hshed, h⟩ := bind_eq_ok.mp h
  obtain ⟨dropped, hdropped, h⟩ := bind_eq_ok.mp h
  exact ⟨folded, shed, dropped, hfolded, hshed, hdropped, h⟩

def fineAt (lane : Lane) (bin : Nat) : Nr.FineBin :=
  (lane.ridge.fine.lookup bin).getD ⟨0, 0, ∅, ∅, none⟩

def pairAt (fb : Nr.FineBin) (m : MinerId) : Nr.FinePair := (fb.rows.lookup m).getD ⟨0, 0⟩

def creditInto (c : Nr.Cell) (a : WorkAtom) (fb : Nr.FineBin) (kept v : Nat) : Nr.Cell :=
  { c with
    comp := c.comp.insert a.miner (kept + v)
    rawWork := c.rawWork + a.wRaw.val
    prov := if a.version = provV37 then c.prov else provRows fb.prov }

def afterCredit (lane : Lane) (a : WorkAtom) (bin : Nat) (c : Nr.Cell) (kept v : Nat) : Lane :=
  let fb := lane.nrCreditBin a bin (lane.fineAt bin) v
  { lane with
    nextPos := lane.nextPos + 1
    ridge :=
      { lane.ridge with
        fine := lane.ridge.fine.insert bin fb
        cells := Function.update lane.ridge.cells 0
          ((lane.ridge.cells 0).insert bin (creditInto c a fb kept v))
        rawCur := lane.ridge.rawCur + a.wRaw.val }
    journal := trim lane.params.journalDepth
      (.nrCredit bin a.miner a.wRaw.val (lane.fineAt bin).posLo
        (if a.version = provV37 then none else some a.version) :: lane.journal) }

theorem nrCredit_eq_ok {bin : Nat} (h : lane.nrCredit env a bin = .ok lane') :
    ¬ lane.nrSealed bin ∧ ∃ c v kept, lane.nrOpenCell env bin = .ok c ∧
      Nr.pairValue env.canon lane.params.nr.allowDigitRepeat bin
        ((pairAt (lane.fineAt bin) a.miner).raw + a.wRaw.val) c.level c.binHi = .ok v ∧
      kept + (pairAt (lane.fineAt bin) a.miner).v = c.comp.amount a.miner ∧
      lane' = lane.afterCredit a bin c kept v := by
  unfold nrCredit at h
  split at h
  · cases h
  rename_i hsealed
  obtain ⟨c, hopen, h⟩ := bind_eq_ok.mp h
  obtain ⟨v, hv, h⟩ := bind_eq_ok.mp h
  obtain ⟨kept, hkept, h⟩ := bind_eq_ok.mp h
  cases h
  exact ⟨hsealed, c, v, kept, hopen, orThrow_eq_ok.mp hv,
    checkedSub_eq_some.mp (orWrapped_eq_ok.mp hkept), rfl⟩

theorem nrPush_eq_ok (h : lane.nrPush env resolver a = .ok lane') :
    ∃ id origin carrier, resolver = some id ∧ a.originBin = some origin ∧
      a.carrierBin = some carrier ∧ lane.nrRefusal a origin carrier = none ∧
      lane.nrAdmitted env id a origin carrier = .ok lane' := by
  unfold nrPush at h
  split at h
  · cases h
  rename_i id
  split at h
  · rename_i origin carrier horigin hcarrier
    split at h
    · cases h
    · rename_i hadmit
      exact ⟨id, origin, carrier, rfl, horigin, hcarrier, hadmit, h⟩
  · cases h

theorem nrAdmitted_eq_ok {origin carrier : Bin}
    (h : lane.nrAdmitted env id a origin carrier = .ok lane') :
    ∃ ticked, (lane.nrMaybeCheckpoint (lane.nrProspective a carrier)).nrTick env id a
        (lane.nrProspective a carrier) = .ok ticked ∧
      ticked.nrCredit env a origin.val = .ok lane' := bind_eq_ok.mp h

theorem nrSetWidth_eq_ok {w : U64} (h : lane.nrSetWidth env resolver w = .ok lane') :
    ∃ id shed dropped, resolver = some id ∧ lane.nrActive ∧ lane.ridge.started = true ∧
      lane.params.nr.wMinBins ≤ w.val ∧ w.val ≤ lane.params.nr.wMaxBins ∧
      { lane.record (.nrWidth lane.ridge.width none) with
        ridge := { lane.ridge with width := w.val } }.nrShedBelowFloor env id = .ok shed ∧
      shed.nrDropBeyondDomain = .ok dropped ∧ dropped.nrRefreshScalars env = .ok lane' := by
  unfold nrSetWidth at h
  split at h
  · cases h
  rename_i id
  split at h
  · cases h
  rename_i hlive
  split at h
  · cases h
  rename_i hrange
  split at h
  · cases h
  obtain ⟨shed, hshed, h⟩ := bind_eq_ok.mp h
  obtain ⟨dropped, hdropped, h⟩ := bind_eq_ok.mp h
  push Not at hlive hrange
  exact ⟨id, shed, dropped, rfl, hlive.1, by simpa using hlive.2, hrange.1, hrange.2, hshed,
    hdropped, h⟩

theorem push_eq_ok (h : lane.push env resolver a = .ok lane') :
    0 < a.wRaw.val ∧ provAdmissible a.version ∧
      (lane.nrActive ∧ lane.nrPush env resolver a = .ok lane' ∨
        ¬ lane.nrActive ∧ ∃ pushed, lane.pushPositional env resolver a = .ok pushed ∧
          (¬ lane.nrActivating ∧ lane' = pushed ∨
            lane.nrActivating ∧ ∃ carrier, a.carrierBin = some carrier ∧
              lane' = if pushed.nrActive ∧ pushed.ridge.started = false then
                pushed.nrMigrate carrier.val else pushed)) := by
  unfold push at h
  split at h
  · cases h
  rename_i hwork
  split at h
  · cases h
  rename_i hprov
  refine ⟨Nat.pos_of_ne_zero hwork, not_not.mp hprov, ?_⟩
  split at h
  · rename_i hactive
    exact .inl ⟨hactive, h⟩
  rename_i hactive
  split at h
  · rename_i hactivating
    split at h
    · cases h
    rename_i carrier hcarrier
    obtain ⟨pushed, hpushed, h⟩ := bind_eq_ok.mp h
    cases h
    exact .inr ⟨hactive, pushed, hpushed, .inr ⟨hactivating, carrier, hcarrier, rfl⟩⟩
  · rename_i hactivating
    exact .inr ⟨hactive, lane', h, .inl ⟨hactivating, rfl⟩⟩

end Lane

end C2Pool.V37
