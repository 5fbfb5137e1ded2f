import C2Pool.V37.RidgeCredit

/-! # Runs of the ridge

A push takes its checkpoint, its tick and its credit; the activation migrates the
positional lane into the ridge.  Along every run the ridge stays in order, and the
journal leads back to lanes that were in order.
-/

namespace C2Pool.V37

open List Lane PartialRun UndoLog SortedMap

variable {env : Env} {total : Prop} {held : Holding} {origin carrier : Bin} {p : LaneParams}
  {F : Nat → Prop} {resolver : Option Resolver} {lane s : Lane} {earlier : List Lane}
  {before pushed : Lane} {a : WorkAtom}

theorem ring_restored {α : Type} {ring : List α} {retain : Nat} (hpos : 0 < retain)
    (hle : ring.length ≤ retain) (c : α) :
    (((ring ++ [c]).take ((ring ++ [c]).length - retain)).getLast?).toList ++
      ((ring ++ [c]).drop ((ring ++ [c]).length - retain)).dropLast = ring := by
  rw [length_append, length_singleton]
  by_cases hfull : ring.length = retain
  · cases ring with
    | nil =>
      rw [length_nil] at hfull
      omega
    | cons x xs =>
      have hone : (x :: xs).length + 1 - retain = 1 := by omega
      rw [hone]
      show [x] ++ (xs ++ [c]).dropLast = x :: xs
      rw [dropLast_concat]
      rfl
  have hzero : ring.length + 1 - retain = 0 := by omega
  rw [hzero, take_zero, drop_zero, dropLast_concat]
  rfl

def Lane.checkpointed (lane : Lane) (due : Nat) : Lane :=
  { lane.nrTakeCheckpoint with ridge := { lane.ridge with lastCkptBin := due } }

theorem Lane.nrMaybeCheckpoint_eq (lane : Lane) (t : Nat) :
    lane.nrMaybeCheckpoint t = lane ∨ ∃ due, lane.nrMaybeCheckpoint t = lane.checkpointed due := by
  unfold nrMaybeCheckpoint
  dsimp only
  split
  · exact .inl rfl
  · exact .inr ⟨_, rfl⟩

theorem Lane.checkpointed_ckpts (lane : Lane) (due : Nat) :
    (lane.checkpointed due).ckpts =
      (lane.ckpts ++ [lane.makeCheckpoint]).drop
        ((lane.ckpts ++ [lane.makeCheckpoint]).length - lane.params.mrr.ckptRetain) := rfl

theorem Lane.checkpointed_recorded (hpos : 0 < lane.params.mrr.ckptRetain)
    (hring : lane.ckpts.length ≤ lane.params.mrr.ckptRetain) (due : Nat) :
    Recorded env total Op.isPreOp lane (lane.checkpointed due) := by
  refine .of_undoes rfl rfl (.of_ok ?_)
  rintro s ⟨hs, hscaled⟩
  have hs : s ≈ lane.checkpointed due := Setoid.trans (Setoid.symm s.unlogged_equiv) hs
  have hckpts := hs.ckpts.trans (lane.checkpointed_ckpts due)
  have hne : s.ckpts ≠ [] := by
    rw [hckpts]
    apply ne_nil_of_length_pos
    rw [length_drop, length_append, length_singleton]
    omega
  refine ⟨_, if_neg hne, ?_⟩
  refine ⟨⟨hs.params, hs.tables, hs.nextPos, hs.base, hs.mmr, ?_, hs.pos,
    { hs.ridge with lastCkptBin := rfl }⟩,
    hscaled.of_cells rfl rfl (fun _ i c hc => ⟨i, c, hc, rfl, rfl⟩) rfl⟩
  show _ ++ s.ckpts.dropLast = lane.ckpts
  rw [hckpts]
  exact ring_restored hpos hring lane.makeCheckpoint

/-! ## The activation -/

theorem Lane.shows_empty {r : Ridge} (h : r.Same emptyRidge) : r.Shows ∅ := by
  refine ⟨h.fine, fun l i => ?_⟩
  exact h.cells l i

theorem sound_empty (canon : CanonicalTables) (cap : Nat) : Holding.Sound canon cap ∅ :=
  ⟨(fun h => nomatch h), (fun h => nomatch h), (fun h => nomatch h), (fun h => nomatch h),
    (fun h => nomatch h)⟩

theorem Lane.lookup_prologue (h : lane.ridge.Same emptyRidge) {t0 b : Nat}
    {c : Nr.Cell} (hc : (lane.nrMigrate t0).ridge.record.lookup b = some c) :
    b = t0 ∧ c = lane.prologueCell t0 := by
  have hnone : ∀ k, lane.ridge.record.lookup k = none := by
    intro k
    have hk := h.record k
    exact Option.map_eq_none_iff.mp hk
  have hrecord : (lane.nrMigrate t0).ridge.record =
      if (lane.prologueCell t0).rawWork ≠ 0 ∨ (lane.prologueCell t0).comp ≠ ∅ then
        lane.ridge.record.insert t0 (lane.prologueCell t0)
      else lane.ridge.record := rfl
  rw [hrecord] at hc
  split at hc
  · rw [lookup_insert] at hc
    split at hc
    · rename_i heq
      exact ⟨heq, (Option.some.inj hc).symm⟩
    · cases (hnone b).symm.trans hc
  · cases (hnone b).symm.trans hc

theorem Lane.resting_migrated (hdims : lane.params.Dims)
    (h : lane.ridge.Same emptyRidge) (t0 : Nat) : (lane.nrMigrate t0).Resting env ∅ := by
  have hempty := shows_empty h
  refine ⟨⟨⟨hdims, rfl, (fun _ _ h => nomatch h), (fun _ _ h => nomatch h), ?_, ?_, hdims.min_le,
    hdims.le_max⟩, ⟨{ hempty with }, sound_empty _ _⟩, fun _ _ h => nomatch h⟩, ?_, ?_⟩
  · intro b c hc
    obtain ⟨rfl, rfl⟩ := lookup_prologue h hc
    exact ⟨rfl, .inl ⟨rfl, rfl⟩⟩
  · intro b c hc
    obtain ⟨rfl, rfl⟩ := lookup_prologue h hc
    exact le_refl _
  · intro l i c hc
    have hcell := h.cells l i
    have hlook : (lane.ridge.cells l).lookup i = some c := hc
    rw [hlook] at hcell
    cases hcell
  · intro b c hc
    obtain ⟨rfl, rfl⟩ := lookup_prologue h hc
    show Nr.cellScalar env.canon lane.params.nr.allowDigitRepeat b b = .ok qOne
    unfold Nr.cellScalar
    rw [Nat.sub_self]
    rfl

theorem Lane.migrated_recorded (h : lane.ridge.Same emptyRidge) (t0 : Nat) :
    Recorded env total Op.isPostOp lane (lane.nrMigrate t0) := by
  refine .of_undoes rfl rfl (.of_ok ?_)
  rintro s ⟨hs, -⟩
  have hcells : ∀ l, s.ridge.cells l = ∅ := by
    intro l
    rw [eq_empty_iff]
    intro i
    have hi := (hs.ridge.cells l i).trans (h.cells l i)
    exact Option.map_eq_none_iff.mp hi
  have hnone : ((List.range (Nr.maxFoldCap + 1)).any
      fun l => !(s.ridge.cells l).entries.isEmpty) = false := by
    rw [any_eq_false]
    intro l _
    rw [hcells l]
    decide
  have hfine : s.ridge.fine = ∅ := hs.ridge.fine.trans h.fine
  have hundo : undoOp env s (.nrMigrate lane.toPositional lane.ridge.width) = .ok
      { s with
        toPositional := lane.toPositional
        ridge :=
          { s.ridge with
            started := false, t := 0, t0 := 0, width := lane.ridge.width, record := ∅
            lastCkptBin := 0, lastRetargetBin := 0, rawCur := 0, rawPrev := 0
            dnetAtBase := 0 } } := by
    show s.nrUndoMigrate lane.toPositional lane.ridge.width = _
    unfold nrUndoMigrate
    rw [hnone, if_neg (by decide), if_neg (not_not.mpr hfine)]
  refine ⟨_, hundo, ⟨hs.params, hs.tables, hs.nextPos, hs.base, hs.mmr, hs.ckpts, .refl _,
    ⟨h.started.symm, h.t.symm, h.t0.symm, rfl, hs.ridge.fine, hs.ridge.cells, h.record.symm,
      h.lastCkptBin.symm, h.lastRetargetBin.symm, h.rawCur.symm, h.rawPrev.symm,
      h.dnetAtBase.symm⟩⟩, ?_, (fun _ _ hc => nomatch hc)⟩
  intro l i c hc
  have hlook : (s.ridge.cells l).lookup i = some c := hc
  rw [hcells l] at hlook
  cases hlook

theorem of_refusal {P : Prop} [Decidable P] {e : Throw} {x : Option Throw}
    (h : (if P then some e else x) = none) : ¬ P ∧ x = none := by
  by_cases hP : P
  · rw [if_pos hP] at h
    cases h
  · rw [if_neg hP] at h
    exact ⟨hP, h⟩

/-- What the guards of a push let through. -/
structure Lane.Admits (lane : Lane) (a : WorkAtom) (origin carrier : Bin) : Prop where
  origin_le : origin ≤ carrier
  started : lane.ridge.started = true
  opened : ¬ Nr.sealedBin origin.val (lane.nrProspective a carrier)
    lane.params.nr.openHorizonBins
  jump : carrier.val < lane.ridge.t + Nr.ladderDomainBins
  fence : ∀ hi ∈ lane.nrOldestUnfoldedBinHi, carrier.val < hi + Nr.ladderDomainBins

theorem Lane.admits_of_nrRefusal
    (h : lane.nrRefusal a origin carrier = none) : lane.Admits a origin carrier := by
  obtain ⟨horigin, h⟩ := of_refusal h
  obtain ⟨hstarted, h⟩ := of_refusal h
  obtain ⟨-, h⟩ := of_refusal h
  obtain ⟨hopened, h⟩ := of_refusal h
  obtain ⟨hjump, h⟩ := of_refusal h
  obtain ⟨hfence, -⟩ := of_refusal h
  refine ⟨not_lt.mp horigin, ?_, hopened, not_le.mp hjump, ?_⟩
  · cases hst : lane.ridge.started with
    | false => exact absurd hst hstarted
    | true => rfl
  · intro hi hmem
    exact not_le.mp fun hle => hfence ⟨hi, hmem, hle⟩

theorem Lane.le_nrProspective (lane : Lane) (a : WorkAtom) (carrier : Bin) :
    lane.ridge.t ≤ lane.nrProspective a carrier := by
  unfold nrProspective
  split
  · exact le_refl _
  · exact le_max_left _ _

theorem Lane.nrProspective_of_lt (h : lane.ridge.t < lane.nrProspective a carrier) :
    lane.nrProspective a carrier = carrier.val := by
  unfold nrProspective at h ⊢
  split at h
  · exact absurd h (lt_irrefl _)
  rename_i hfresh
  rw [if_neg hfresh]
  omega

theorem Lane.Admits.near (h : lane.Admits a origin carrier) (hholds : lane.Holds env held) :
    held.Near lane.params.nr.foldCap carrier.val := by
  intro b x hb hlevel
  have hcell := hholds.shows.cells x.level (b / Nr.powR x.level)
  unfold Holding.cell at hcell
  rw [if_neg (Holding.members_ne_empty.mpr ⟨b, x, hb, rfl, rfl⟩)] at hcell
  obtain ⟨c, hc, -⟩ := Option.map_eq_some_iff.mp hcell
  have hhi := (hholds.shows.binLo hc).2.2.1
  have hmem : c.binHi ∈ (List.range lane.params.nr.foldCap).flatMap fun l =>
      (lane.ridge.cells l).entries.map fun e => e.2.binHi :=
    mem_flatMap.mpr ⟨x.level, mem_range.mpr hlevel,
      mem_map.mpr ⟨(_, c), mem_entries_iff.mpr hc, rfl⟩⟩
  cases hmin : lane.nrOldestUnfoldedBinHi with
  | none =>
    unfold nrOldestUnfoldedBinHi at hmin
    rw [min?_eq_none_iff] at hmin
    rw [hmin] at hmem
    cases hmem
  | some hi =>
    have hle : hi ≤ c.binHi := by
      exact (min?_eq_some_iff.mp hmin).2 _ hmem
    have hfar := h.fence hi (by rw [hmin]; rfl)
    show carrier.val < groupHi x.level b + Nr.ladderDomainBins
    unfold groupHi
    omega

/-- What a push leaves behind: the lane after its tick, and its credit. -/
structure Lane.PushedTo (env : Env) (total : Prop) (held : Holding) (lane : Lane) (a : WorkAtom)
    (b t : Nat) (ticked : Lane) (held₁ : Holding) (lane' : Lane) : Prop where
  resting : ticked.Resting env held₁
  passes : lane.ridge.t < t ∧ held.Passes env.canon ticked.nrBBin t held₁ ∨
    lane.ridge.t = t ∧ held₁ = held
  recorded : Recorded env total Op.isPreOp lane ticked
  params : ticked.params = lane.params
  nextPos : ticked.nextPos = lane.nextPos
  clock : ticked.ridge.t = t
  ring : ticked.ckpts.length ≤ lane.params.mrr.ckptRetain
  credited : ∃ c, c.unscaled = openCell b (ticked.creditedBin a b (held₁.binAt b)) ∧
    ticked.scalar env b = .ok c.G ∧ lane' = ticked.creditedTo a b (held₁.binAt b) c

theorem Lane.Resting.checkpointed (h : lane.Resting env held) (due : Nat) :
    (lane.checkpointed due).Resting env held :=
  ⟨{ h with holds := ⟨⟨h.holds.shows.fine, h.holds.shows.cells⟩, h.holds.sound⟩ },
    h.scaled.of_cells rfl rfl (fun _ i c hc => ⟨i, c, hc, rfl, rfl⟩) rfl⟩

theorem Lane.Resting.nrMaybeCheckpoint (h : lane.Resting env held)
    (hpos : 0 < lane.params.mrr.ckptRetain)
    (hring : lane.ckpts.length ≤ lane.params.mrr.ckptRetain) (t : Nat) :
    (lane.nrMaybeCheckpoint t).Resting env held ∧
      Recorded env total Op.isPreOp lane (lane.nrMaybeCheckpoint t) ∧
      (lane.nrMaybeCheckpoint t).params = lane.params ∧
      (lane.nrMaybeCheckpoint t).nextPos = lane.nextPos ∧
      (lane.nrMaybeCheckpoint t).ridge.t = lane.ridge.t ∧
      (lane.nrMaybeCheckpoint t).ckpts.length ≤ lane.params.mrr.ckptRetain := by
  rcases lane.nrMaybeCheckpoint_eq t with heq | ⟨due, heq⟩
  · rw [heq]
    exact ⟨h, .refl _ lane, rfl, rfl, rfl, hring⟩
  rw [heq]
  refine ⟨h.checkpointed due, checkpointed_recorded hpos hring due, rfl, rfl, rfl, ?_⟩
  rw [checkpointed_ckpts, length_drop, length_append, length_singleton]
  omega

theorem Lane.Unfoldable.congr {lane lane' : Lane} (h : lane.Unfoldable env held)
    (hparams : lane'.params = lane.params) (ht : lane'.ridge.t = lane.ridge.t) :
    lane'.Unfoldable env held := by
  have hscalar : ∀ hi, lane'.scalar env hi = lane.scalar env hi := by
    intro hi
    unfold scalar
    rw [ht, hparams]
  intro b x hb k hle hlt hsealed c hc hsome
  rw [hparams] at hlt hsealed
  rw [ht] at hsealed
  rw [hscalar]
  exact h b x hb k hle hlt hsealed c hc hsome

theorem Lane.Resting.nrAdmitted {sure : Prop} {id : Resolver} (hfalls : Falling env.canon)
    (h : lane.Resting env held) (hpos : 0 < lane.params.mrr.ckptRetain)
    (hring : lane.ckpts.length ≤ lane.params.mrr.ckptRetain)
    (hadmits : lane.Admits a origin carrier)
    (hopen : lane.nrProspective a carrier < origin.val + lane.params.nr.openHorizonBins)
    (hfits : lane.ridge.t < lane.nrProspective a carrier →
      held.Fits lane.params.nr.foldCap lane.params.nr.openHorizonBins)
    (hsure : sure → lane.params.nr.wMaxBins ≤ Nr.ladderDomainBins ∧ lane.ridge.t + 40960 ≤ 2 ^ 64)
    (htotal : total → lane.ridge.t < lane.nrProspective a carrier →
      (lane.clockAt (lane.nrProspective a carrier)).Unfoldable env held) :
    Meets sure (lane.nrAdmitted env id a origin carrier) fun lane' => ∃ ticked held₁,
      lane.PushedTo env total held a origin.val (lane.nrProspective a carrier) ticked held₁
        lane' := by
  have hcheck : (lane.nrMaybeCheckpoint (lane.nrProspective a carrier)).Resting env held ∧
      Recorded env total Op.isPreOp lane (lane.nrMaybeCheckpoint (lane.nrProspective a carrier)) ∧
      _ := h.nrMaybeCheckpoint hpos hring (lane.nrProspective a carrier)
  obtain ⟨hresting, hrecorded, hparams, hnext, ht, hring'⟩ := hcheck
  have hforward := lane.le_nrProspective a carrier
  have hclock : sure → lane.nrProspective a carrier + 28672 ≤ 2 ^ 64 := by
    intro hyes
    have hlow := (hsure hyes).2
    rcases Nat.lt_or_ge lane.ridge.t (lane.nrProspective a carrier) with hmoves | hstays
    · rw [nrProspective_of_lt hmoves]
      have hjump := hadmits.jump
      rw [Nr.ladderDomainBins_eq] at hjump
      omega
    · omega
  have htick : Meets sure ((lane.nrMaybeCheckpoint (lane.nrProspective a carrier)).nrTick env id a
      (lane.nrProspective a carrier)) ((lane.nrMaybeCheckpoint
        (lane.nrProspective a carrier)).TickedTo env total held
          (lane.nrProspective a carrier)) := by
    refine hresting.nrTick hfalls (ht ▸ hforward) ?_ ?_ ?_ ?_
    · rw [ht, hparams]
      exact hfits
    · intro hyes
      refine ⟨?_, hclock hyes⟩
      show (lane.nrMaybeCheckpoint _).params.nr.wMaxBins ≤ _
      rw [hparams]
      exact (hsure hyes).1
    · intro _ hmoves
      rw [ht] at hmoves
      rw [hparams, nrProspective_of_lt hmoves]
      exact hadmits.near h.holds
    · intro hyes hmoves
      rw [ht] at hmoves
      exact (htotal hyes hmoves).congr hparams rfl
  refine htick.bind ?_
  rintro ticked ⟨⟨held₁, hresting₁, hpasses⟩, hrecorded₁, helapsed, hclock₁⟩
  have hparams₁ := helapsed.params.trans hparams
  rw [ht] at hpasses
  have hopen₁ : ticked.ridge.t < origin.val + ticked.params.nr.openHorizonBins := by
    rw [hclock₁, hparams₁]
    exact hopen
  have hcredit : sure → ¬ ticked.nrSealed origin.val ∧
      ∃ g, ticked.scalar env origin.val = .ok g := by
    intro hyes
    refine ⟨?_, Nr.cellScalar_ok _ _ ?_⟩
    · rintro ⟨-, hsealed⟩
      rw [hclock₁, hparams₁] at hsealed
      exact hadmits.opened hsealed
    have hhorizon := hresting₁.dims.horizon_lt
    have hdomain := (hsure hyes).1
    rw [← hparams₁] at hdomain
    have hmin := hresting₁.dims.min_le
    have hmax := hresting₁.dims.le_max
    omega
  refine (hresting₁.nrCredit_meets hopen₁ hcredit a).mono ?_
  rintro lane' ⟨c, hc, hscalar, hlane'⟩
  exact ⟨ticked, held₁, hresting₁, hpasses, hrecorded.trans hrecorded₁, hparams₁,
    helapsed.nextPos.trans hnext, hclock₁, helapsed.ckpts ▸ hring', c, hc, hscalar, hlane'⟩

/-! ## Lanes of a run -/

theorem Lane.Resting.of_equiv (h : lane.Resting env held) (hs : s ≈ lane)
    (hscaled : s.Scaled env) : s.Resting env held := by
  have hrecord := h.record.of_alike hs.ridge.record
  refine ⟨⟨h.toFenced.of_frame hs.params hs.ridge.t hs.ridge.started hs.ridge.width
    (fun _ x hb => ⟨x, hb⟩) hrecord ?_, h.holds.of_equiv hs, ?_⟩, hscaled⟩
  · intro b c hc
    obtain ⟨c', hc', -⟩ := hs.ridge.record.symm.lookup hc
    exact ⟨c', hc'⟩
  · rw [hs.params, hs.ridge.t]
    exact h.leveled

theorem Lane.nrActive_congr (hparams : s.params = lane.params)
    (hnext : s.nextPos = lane.nextPos) : s.nrActive ↔ lane.nrActive := by
  unfold nrActive mrrActive
  rw [hparams, hnext]

/-- A lane of a run.  Every bin of its ridge is one of `F`. -/
structure Lane.Kept (env : Env) (p : LaneParams) (F : Nat → Prop) (lane : Lane) : Prop where
  params : lane.params = p
  ring : lane.ckpts.length ≤ p.mrr.ckptRetain
  live : lane.ridge.started = true ↔ lane.nrActive
  ridge : lane.ridge.started = false ∧ lane.ridge.Same emptyRidge ∨
    ∃ held, lane.Resting env held ∧ ∀ b x, held.lookup b = some x → F b

theorem Lane.Kept.of_equiv (h : lane.Kept env p F) (hs : s ≈ lane)
    (hscaled : s.Scaled env) : s.Kept env p F := by
  refine ⟨hs.params.trans h.params, hs.ckpts ▸ h.ring, ?_, ?_⟩
  · rw [hs.ridge.started, nrActive_congr hs.params hs.nextPos]
    exact h.live
  rcases h.ridge with ⟨hoff, hempty⟩ | ⟨held, hresting, hF⟩
  · exact .inl ⟨hs.ridge.started.trans hoff, hs.ridge.trans hempty⟩
  · exact .inr ⟨held, hresting.of_equiv hs hscaled, hF⟩

theorem scaled_of_empty (h : lane.ridge.Same emptyRidge) : lane.Scaled env := by
  refine ⟨?_, ?_⟩
  · intro l i c hc
    have hcell := h.cells l i
    rw [hc] at hcell
    cases hcell
  intro b c hc
  have hcell := h.record b
  rw [hc] at hcell
  cases hcell

theorem Lane.Kept.scaled (h : lane.Kept env p F) : lane.Scaled env := by
  rcases h.ridge with ⟨-, hempty⟩ | ⟨held, hresting, -⟩
  · exact scaled_of_empty hempty
  · exact hresting.scaled

/-- The journal leads back to `before`, the lane at the last push, and to the lanes
before the earlier ones. -/
def Lane.Traces (env : Env) (total : Prop) (lane before : Lane) (earlier : List Lane) : Prop :=
  ∃ journal pending, lane.journal = pending ++ journal ∧ (∀ op ∈ pending, op.isPreOp = true) ∧
    LaneLeads env total pending (Like env lane) (Like env before) ∧
    History env total journal before earlier

theorem Lane.Traces.of_history
    (h : History env total lane.journal lane earlier) : lane.Traces env total lane earlier :=
  ⟨lane.journal, [], rfl, (fun _ h => nomatch h), fun _ h => h, h⟩

theorem Lane.Traces.recorded {lane lane' before : Lane} (h : lane.Traces env total before earlier)
    (hrecorded : Recorded env total Op.isPreOp lane lane') :
    lane'.Traces env total before earlier := by
  obtain ⟨journal, pending, hjournal, hpending, hleads, hhistory⟩ := h
  obtain ⟨ops, hops, hkind, hback⟩ := hrecorded
  refine ⟨journal, ops ++ pending, ?_, ?_, hback.append hleads, hhistory⟩
  · rw [hops, hjournal, append_assoc]
  · intro op hop
    exact (mem_append.mp hop).elim (hkind op) (hpending op)

section Pushed

variable {lane ticked lane' : Lane} {a : WorkAtom} {b t : Nat} {held₁ : Holding}

theorem Holding.Passes.lookup {canon : CanonicalTables} {floor t : Nat} {held held' : Holding}
    (h : held.Passes canon floor t held') {b : Nat} {x : Held} (hb : held'.lookup b = some x) :
    ∃ x₀, held.lookup b = some x₀ := by
  obtain ⟨folded, hwork, rfl⟩ := h
  obtain ⟨x₁, hx₁, -⟩ := Holding.lookup_trimmed_eq_some hb
  obtain ⟨x₀, hx₀, -⟩ := Holding.lookup_of_work hwork hx₁
  exact ⟨x₀, hx₀⟩

section

variable (h : lane.PushedTo env total held a b t ticked held₁ lane')
  (hopen : t < b + lane.params.nr.openHorizonBins)
include h hopen

theorem Lane.PushedTo.opened : ticked.ridge.t < b + ticked.params.nr.openHorizonBins := by
  rw [h.clock, h.params]
  exact hopen

section

variable (hraw : 0 < a.wRaw.val)
  (hroom : lane.params.nr.openHorizonBins + Nr.powR lane.params.nr.foldCap ≤
    lane.params.nr.wMinBins)
  (hahead : b < t + Nr.ladderDomainBins)
include hraw hroom hahead

theorem Lane.PushedTo.rests : lane'.Resting env (ticked.withCredit a b held₁) := by
  obtain ⟨c, hc, hscalar, rfl⟩ := h.credited
  exact h.resting.creditedTo (h.opened hopen) (h.params ▸ hroom) (h.clock ▸ hahead) hraw hc hscalar

theorem Lane.PushedTo.kept (hkept : lane.Kept env p F) (hactive : lane.nrActive)
    (hF : ∀ b x, held.lookup b = some x → F b) (hFb : F b) : lane'.Kept env p F := by
  have hrests := h.rests hopen hraw hroom hahead
  obtain ⟨c, -, -, hlane'⟩ := h.credited
  have hparams : lane'.params = lane.params := by
    rw [hlane']
    exact h.params
  have hnext : lane'.nextPos = lane.nextPos + 1 := by
    rw [hlane']
    exact congrArg (· + 1) h.nextPos
  refine ⟨hparams.trans hkept.params, ?_, ?_, .inr ⟨_, hrests, ?_⟩⟩
  · rw [hlane', ← hkept.params]
    exact h.ring
  · refine ⟨fun _ => ?_, fun _ => hrests.started⟩
    obtain ⟨hversion, hpos, hmrr⟩ := hactive
    unfold nrActive mrrActive at *
    rw [hparams, hnext]
    refine ⟨hversion, ?_, ?_⟩
    · split at hpos
      · exact hpos.elim
      · exact Nat.lt_succ_of_lt hpos
    split at hmrr
    · exact hmrr.elim
    · exact Nat.lt_succ_of_lt hmrr
  · intro b' x hx
    unfold Lane.withCredit at hx
    rw [lookup_insert] at hx
    split at hx
    · rename_i heq
      rw [heq]
      exact hFb
    rcases h.passes with ⟨-, hpasses⟩ | ⟨-, rfl⟩
    · obtain ⟨x₀, hx₀⟩ := hpasses.lookup hx
      exact hF b' x₀ hx₀
    · exact hF b' x hx

end

theorem Lane.PushedTo.traces (hraw : 0 < a.wRaw.val)
    {earlier : List Lane} (htraces : lane.Traces env total before earlier) :
    ∃ earlier', lane'.Traces env total lane' earlier' ∧ earlier' <+: before :: earlier ∧
      (lane.params.journalDepth ≠ 0 →
        earlier' = (before :: earlier).take lane.params.journalDepth) := by
  obtain ⟨c, hc, -, hlane'⟩ := h.credited
  obtain ⟨journal, pending, hjournal, hpending, hleads, hhistory⟩ := htraces.recorded h.recorded
  have hundo : LaneUndoes env total (.nrCredit b a.miner a.wRaw.val (held₁.binAt b).posLo
      (if a.version = provV37 then none else some a.version)) (Like env lane')
        (Like env ticked) := by
    rw [hlane']
    exact h.resting.nrUndoCredit (h.opened hopen) hraw hc
  obtain ⟨earlier', hpre, hdepth, hlast⟩ := hhistory.pushed rfl hpending hleads hundo
    lane.params.journalDepth
  refine ⟨earlier', .of_history ?_, hpre, hdepth⟩
  have hnew : lane'.journal = trim lane.params.journalDepth
      (.nrCredit b a.miner a.wRaw.val (held₁.binAt b).posLo
        (if a.version = provV37 then none else some a.version) :: (pending ++ journal)) := by
    rw [← hjournal, ← h.params, hlane']
    rfl
  rw [hnew]
  exact hlast

end

end Pushed

/-- What a ridge push needs of its bin and of the ridge beside its guards. -/
structure Lane.Clear (env : Env) (F : Nat → Prop) (total : Prop) (lane : Lane) (held : Holding)
    (a : WorkAtom) (origin carrier : Bin) : Prop where
  bin : F origin.val
  opened : lane.nrProspective a carrier < origin.val + lane.params.nr.openHorizonBins
  room : lane.params.nr.openHorizonBins + Nr.powR lane.params.nr.foldCap ≤ lane.params.nr.wMinBins
  fits : lane.ridge.t < lane.nrProspective a carrier →
    held.Fits lane.params.nr.foldCap lane.params.nr.openHorizonBins
  unfoldable : total → lane.ridge.t < lane.nrProspective a carrier →
    (lane.clockAt (lane.nrProspective a carrier)).Unfoldable env held

def Lane.ClearOn (env : Env) (F : Nat → Prop) (total : Prop) (lane : Lane)
    (resolver : Option Resolver)
    (a : WorkAtom) : Prop :=
  ∀ held id origin carrier lane', lane.nrActive → lane.Resting env held →
    (∀ b x, held.lookup b = some x → F b) → resolver = some id → a.originBin = some origin →
    a.carrierBin = some carrier → lane.Admits a origin carrier →
    lane.nrAdmitted env id a origin carrier = .ok lane' →
    lane.Clear env F total held a origin carrier

theorem Lane.Admits.ahead (h : lane.Admits a origin carrier) :
    origin.val < lane.nrProspective a carrier + Nr.ladderDomainBins := by
  have horigin : origin.val ≤ carrier.val := h.origin_le
  have hjump := h.jump
  have hforward := lane.le_nrProspective a carrier
  omega

theorem Lane.Kept.positional {lane : Lane} (h : lane.Kept env p F) (hoff : ¬ lane.nrActive)
    (hpushed : lane.pushPositional env resolver a = .ok pushed) :
    pushed.params = p ∧ pushed.ckpts.length ≤ p.mrr.ckptRetain ∧
      pushed.nextPos = lane.nextPos + 1 ∧ pushed.ridge.started = false ∧
      pushed.ridge.Same emptyRidge := by
  obtain ⟨hridge, hnext, hparams, hring⟩ := pushPositional_ridge hpushed
  rw [h.params] at hring
  rcases h.ridge with ⟨hst, hempty⟩ | ⟨held, hresting, -⟩
  · rw [hridge]
    exact ⟨hparams.trans h.params, hring h.ring, hnext, hst, hempty⟩
  · exact absurd (h.live.mp hresting.started) hoff

theorem Lane.nrActive_next {lane : Lane} (hdims : lane.params.nr.version = 1 → lane.params.Dims)
    (hoff : ¬ lane.nrActive) (hparams : pushed.params = lane.params)
    (hnext : pushed.nextPos = lane.nextPos + 1) : pushed.nrActive ↔ lane.nrActivating := by
  unfold nrActive nrActivating mrrActive at *
  rw [hparams, hnext]
  constructor
  · rintro ⟨hversion, hpos, hmrr⟩
    refine ⟨hversion, ?_⟩
    cases hact : lane.params.nr.activationPos with
    | none =>
      rw [hact] at hpos
      exact hpos.elim
    | some pos =>
      rw [hact] at hpos hoff
      have hsame := (hdims hversion).located (by rw [hact]; exact Option.some_ne_none _)
      rw [hact] at hsame
      rw [← hsame] at hmrr hoff
      congr 1
      omega
  rintro ⟨hversion, hact⟩
  have hsame := (hdims hversion).located (by rw [hact]; exact Option.some_ne_none _)
  rw [← hsame, hact]
  exact ⟨hversion, Nat.lt_succ_self _, Nat.lt_succ_self _⟩

theorem Lane.Kept.push {lane lane' : Lane} {a : WorkAtom} (hfalls : Falling env.canon)
    (hdims : p.nr.version = 1 → p.Dims) (hretain : 0 < p.mrr.ckptRetain) (h : lane.Kept env p F)
    (hclear : lane.ClearOn env F total resolver a) (hok : lane.push env resolver a = .ok lane')
    (htraces : lane.Traces env total before earlier) :
    lane'.Kept env p F ∧ ∃ earlier', lane'.Traces env total lane' earlier' ∧
      earlier' <+: before :: earlier ∧
      (lane.nrActive ∨ lane.nextPos - lane.base ≠ lane.params.epochLen →
        lane.params.journalDepth ≠ 0 →
          earlier' = (before :: earlier).take lane.params.journalDepth) := by
  obtain ⟨hraw, -, ⟨hactive, hpush⟩ | ⟨hoff, pushed, hpushed, hcases⟩⟩ := push_eq_ok hok
  · obtain ⟨id, origin, carrier, hresolver, horigin, hcarrier, hrefusal, hadmitted⟩ :=
      nrPush_eq_ok hpush
    have hadmits := admits_of_nrRefusal hrefusal
    rcases h.ridge with ⟨hst, -⟩ | ⟨held, hresting, hF⟩
    · rw [hadmits.started] at hst
      cases hst
    have hc := hclear held id origin carrier lane' hactive hresting hF hresolver horigin hcarrier
      hadmits hadmitted
    have hmeets : Meets False (lane.nrAdmitted env id a origin carrier) fun lane' =>
        ∃ ticked held₁, lane.PushedTo env total held a origin.val (lane.nrProspective a carrier)
          ticked held₁ lane' :=
      hresting.nrAdmitted hfalls (h.params ▸ hretain) (h.params ▸ h.ring) hadmits hc.opened hc.fits
        (fun hno => hno.elim) hc.unfoldable
    obtain ⟨ticked, held₁, hpushedTo⟩ := hmeets.of_eq_ok hadmitted
    obtain ⟨earlier', htraces', hpre, hdepth⟩ := hpushedTo.traces hc.opened hraw htraces
    exact ⟨hpushedTo.kept hc.opened hraw hc.room hadmits.ahead h hactive hF hc.bin, earlier',
      htraces', hpre, fun _ => hdepth⟩
  obtain ⟨hparams, hring, hnext, hst, hempty⟩ := h.positional hoff hpushed
  obtain ⟨journal, pending, hjournal, hpending, hleads, hhistory⟩ := htraces
  obtain ⟨earlier', hhistory', hne, hpre, hdepth⟩ :=
    pushPositional_history hhistory hjournal hpending hleads hpushed
  have hactive := nrActive_next (h.params.symm ▸ hdims) hoff (hparams.trans h.params.symm) hnext
  have hdepth' : lane.nrActive ∨ lane.nextPos - lane.base ≠ lane.params.epochLen →
      lane.params.journalDepth ≠ 0 →
        earlier' = (before :: earlier).take lane.params.journalDepth := by
    rintro (hon | hwithin)
    · exact absurd hon hoff
    · exact hdepth hwithin
  rcases hcases with ⟨hnot, rfl⟩ | ⟨hactivating, carrier, -, rfl⟩
  · refine ⟨⟨hparams, hring, ?_, .inl ⟨hst, hempty⟩⟩, earlier', .of_history hhistory', hpre,
      hdepth'⟩
    rw [hst]
    exact ⟨(fun hno => nomatch hno), fun hon => absurd (hactive.mp hon) hnot⟩
  rw [if_pos ⟨hactive.mpr hactivating, hst⟩]
  have hposts : Recorded env total Op.isPostOp pushed (pushed.nrMigrate carrier.val) :=
    migrated_recorded hempty carrier.val
  have hrests : (pushed.nrMigrate carrier.val).Resting env ∅ :=
    resting_migrated (hparams.symm ▸ hdims (h.params ▸ hactivating.1)) hempty carrier.val
  refine ⟨⟨hparams, hring, ?_, .inr ⟨∅, hrests, (fun _ _ hno => nomatch hno)⟩⟩, earlier',
    .of_history (hhistory'.posts hne hposts), hpre, hdepth'⟩
  exact ⟨fun _ => hactive.mpr hactivating, fun _ => rfl⟩

end C2Pool.V37
