import C2Pool.V37.RidgeTick

/-! # Credit

A credit goes to an open bin, which is a cell of its own, and its undo takes
exactly this credit back.
-/

namespace C2Pool.V37

open List Lane PartialRun UndoLog SortedMap Holding Function

variable {env : Env} {sure : Prop} {held : Holding} {canon : CanonicalTables} {b : Nat} {x : Held}
  {fb : Nr.FineBin} {c : Nr.Cell}

def openCell (b : Nat) (fb : Nr.FineBin) : Nr.Cell where
  level := 0
  binLo := b
  binHi := b
  rawWork := fb.rawSum
  comp := fb.rows.mapValues fun _ p => p.v
  prov := provRows fb.prov
  recordOnly := false
  G := qOne
  carried := ∅
  carriedRaw := 0

theorem div_powR_zero (b : Nat) : b / Nr.powR 0 = b := Nat.div_one b

theorem span_zero (b : Nat) : spanLo 0 b = b ∧ spanHi 0 b = b := by
  have hpow : Nr.powR 0 = 1 := rfl
  unfold spanLo spanHi
  rw [hpow]
  omega

namespace Holding

theorem cellOver_one (hlive : x.shed = false) :
    cellOver 0 b ((∅ : Holding).insert b x) = openCell b x.bin := by
  have hentries : ((∅ : Holding).insert b x).entries = [(b, x)] := rfl
  have hbins : bins ((∅ : Holding).insert b x) = [x.bin] := by
    unfold bins
    rfl
  have hshed : shedBins ((∅ : Holding).insert b x) = [] := by
    unfold shedBins
    rw [hentries, filter_cons_of_neg (by rw [hlive]; decide)]
    rfl
  have hcomp : (∅ : Ledger MinerId).creditAll (binCredits x.bin) =
      x.bin.rows.mapValues fun _ p => p.v := Ledger.creditAll_entries _ _
  have hprov : (∅ : Ledger ProvKey).creditAll x.bin.prov.entries = x.bin.prov := by
    have hall := Ledger.creditAll_entries x.bin.prov fun v => v
    rw [map_id'] at hall
    rw [hall]
    apply ext_lookup
    intro k
    rw [lookup_mapValues]
    exact Option.map_id'
  unfold cellOver cellOf openCell
  rw [hbins, hshed, (span_zero b).1, (span_zero b).2, map_singleton, sum_singleton,
    flatMap_singleton, flatMap_singleton, hcomp, hprov]
  rfl

theorem cell_zero {canon : CanonicalTables} {cap : Nat} (h : held.Sound canon cap) (hcap : 0 < cap)
    (b : Nat) :
    held.cell 0 b = (held.lookup b).bind fun x =>
      if x.level = 0 then some (openCell b x.bin) else none := by
  have hmembers : ∀ b', (held.members 0 b).lookup b' =
      if b' = b then (held.lookup b).bind fun x => if x.level = 0 then some x else none
      else none := by
    intro b'
    rw [lookup_members]
    simp only [div_powR_zero]
    by_cases hb : b' = b
    · subst hb
      rw [if_pos rfl]
      simp only [and_true]
    rw [if_neg hb]
    cases held.lookup b' with
    | none => rfl
    | some x => rw [Option.bind_some, if_neg fun hboth => hb hboth.2]
  unfold cell
  cases hb : held.lookup b with
  | none =>
    rw [if_pos, Option.bind_none]
    rw [eq_empty_iff]
    intro b'
    rw [hmembers, hb, Option.bind_none]
    split <;> rfl
  | some x =>
    rw [Option.bind_some]
    by_cases hlevel : x.level = 0
    · have hlive : x.shed = false := by
        cases hshed : x.shed with
        | false => rfl
        | true =>
          have := h.shed hb hshed
          omega
      have hone : held.members 0 b = (∅ : Holding).insert b x := by
        apply ext_lookup
        intro b'
        rw [hmembers, hb, Option.bind_some, if_pos hlevel, lookup_insert]
        rfl
      rw [if_pos hlevel, hone, if_neg, cellOver_one hlive]
      intro hempty
      have hlook := lookup_insert (∅ : Holding) b x b
      rw [hempty, if_pos rfl] at hlook
      cases hlook
    rw [if_neg hlevel, if_pos]
    rw [eq_empty_iff]
    intro b'
    rw [hmembers, hb, Option.bind_some, if_neg hlevel]
    split <;> rfl

end Holding

namespace Holding

theorem cell_of_open {held' : Holding} (hopen : ∀ x, held.lookup b = some x → x.level = 0)
    (hopen' : ∀ x, held'.lookup b = some x → x.level = 0)
    (hsame : ∀ b', b' ≠ b → held'.lookup b' = held.lookup b') {l i : Nat}
    (hother : ¬ (l = 0 ∧ i = b)) : held'.cell l i = held.cell l i := by
  apply cell_congr
  apply ext_lookup
  intro b'
  rw [Option.ext_iff]
  intro x
  rw [lookup_members_eq_some, lookup_members_eq_some]
  by_cases hb : b' = b
  · subst hb
    have hout : ∀ h : Holding, (∀ x, h.lookup b' = some x → x.level = 0) →
        ¬ (h.lookup b' = some x ∧ x.level = l ∧ b' / Nr.powR l = i) := by
      rintro h hh ⟨hx, rfl, hi⟩
      have hzero := hh x hx
      rw [hzero, div_powR_zero] at hi
      exact hother ⟨hzero, hi.symm⟩
    exact ⟨fun hx => absurd hx (hout held' hopen'), fun hx => absurd hx (hout held hopen)⟩
  · rw [hsame b' hb]

end Holding

def Ridge.putOpen (r : Ridge) (b : Nat) (fb : Nr.FineBin) (c : Nr.Cell) : Ridge :=
  { r with
    fine := r.fine.insert b fb
    cells := Function.update r.cells 0 ((r.cells 0).insert b c) }

def Ridge.dropOpen (r : Ridge) (b : Nat) : Ridge :=
  { r with
    fine := r.fine.erase b
    cells := Function.update r.cells 0 ((r.cells 0).erase b) }

section

variable {cap : Nat} (hcap : 0 < cap) {r : Ridge} (h : r.Shows held) {b : Nat}
  (hopen : ∀ x, held.lookup b = some x → x.level = 0)
include hcap h hopen

theorem Ridge.Shows.putOpen (hc : c.unscaled = openCell b fb)
    (hsound : Holding.Sound canon cap (held.insert b ⟨fb, 0, false⟩)) :
    (r.putOpen b fb c).Shows (held.insert b ⟨fb, 0, false⟩) := by
  have hlook : ∀ b', (held.insert b ⟨fb, 0, false⟩).lookup b' =
      if b' = b then some ⟨fb, 0, false⟩ else held.lookup b' := lookup_insert _ _ _
  refine ⟨?_, ?_⟩
  · apply ext_lookup
    intro b'
    show (r.fine.insert b fb).lookup b' = _
    rw [lookup_insert, lookup_fine, hlook, h.fine, lookup_fine]
    split <;> rfl
  intro l i
  show ((update r.cells 0 ((r.cells 0).insert b c) l).lookup i).map _ = _
  by_cases hboth : l = 0 ∧ i = b
  · obtain ⟨rfl, rfl⟩ := hboth
    rw [update_self, lookup_insert, if_pos rfl, Option.map_some, hc,
      cell_zero hsound hcap, hlook, if_pos rfl]
    rfl
  rw [cell_of_open hopen (fun x hx => ?_) (fun b' hb' => ?_) hboth, ← h.cells l i]
  · by_cases hl : l = 0
    · subst hl
      rw [update_self, lookup_insert, if_neg fun hi => hboth ⟨rfl, hi⟩]
    · rw [update_of_ne hl]
  · rw [hlook, if_pos rfl] at hx
    cases hx
    rfl
  · rw [hlook, if_neg hb']

theorem Ridge.Shows.dropOpen (hsound : Holding.Sound canon cap (held.erase b)) :
    (r.dropOpen b).Shows (held.erase b) := by
  have hlook : ∀ b', (held.erase b).lookup b' = if b' = b then none else held.lookup b' :=
    lookup_erase _ _
  refine ⟨?_, ?_⟩
  · apply ext_lookup
    intro b'
    show (r.fine.erase b).lookup b' = _
    rw [lookup_erase, lookup_fine, hlook, h.fine, lookup_fine]
    split <;> rfl
  intro l i
  show ((update r.cells 0 ((r.cells 0).erase b) l).lookup i).map _ = _
  by_cases hboth : l = 0 ∧ i = b
  · obtain ⟨rfl, rfl⟩ := hboth
    rw [update_self, lookup_erase, if_pos rfl, cell_zero hsound hcap, hlook, if_pos rfl]
    rfl
  rw [cell_of_open hopen (fun x hx => ?_) (fun b' hb' => ?_) hboth, ← h.cells l i]
  · by_cases hl : l = 0
    · subst hl
      rw [update_self, lookup_erase, if_neg fun hi => hboth ⟨rfl, hi⟩]
    · rw [update_of_ne hl]
  · rw [hlook, if_pos rfl] at hx
    cases hx
  · rw [hlook, if_neg hb']

end

def blankBin : Nr.FineBin := ⟨0, 0, ∅, ∅, none⟩

def Holding.binAt (held : Holding) (b : Nat) : Nr.FineBin :=
  ((held.lookup b).map fun x => x.bin).getD blankBin

def Lane.creditedBin (lane : Lane) (a : WorkAtom) (b : Nat) (fb : Nr.FineBin) : Nr.FineBin :=
  lane.nrCreditBin a b fb (((pairAt fb a.miner).raw + a.wRaw.val) * 2 ^ 62)

def Lane.withCredit (lane : Lane) (a : WorkAtom) (b : Nat) (held : Holding) : Holding :=
  held.insert b ⟨lane.creditedBin a b (held.binAt b), 0, false⟩

theorem frameBin_zero (canon : CanonicalTables) (binHi b : Nat) (fb : Nr.FineBin) :
    frameBin canon 0 binHi b fb =
      { fb with rows := fb.rows.mapValues fun _ p => ⟨p.raw, p.raw * 2 ^ 62⟩ } := rfl

theorem inFrame_zero_iff :
    inFrame canon 0 b fb = fb ↔ ∀ m p, fb.rows.lookup m = some p → p.v = p.raw * 2 ^ 62 := by
  unfold inFrame
  rw [frameBin_zero]
  constructor
  · intro h m p hp
    have hrows : (fb.rows.mapValues fun _ p => (⟨p.raw, p.raw * 2 ^ 62⟩ : Nr.FinePair)) = fb.rows :=
      congrArg Nr.FineBin.rows h
    have hlook : (fb.rows.mapValues fun _ p =>
        (⟨p.raw, p.raw * 2 ^ 62⟩ : Nr.FinePair)).lookup m = fb.rows.lookup m := by rw [hrows]
    rw [lookup_mapValues, hp, Option.map_some] at hlook
    have hpair := Option.some.inj hlook
    rw [← hpair]
  intro h
  have hrows : (fb.rows.mapValues fun _ p => (⟨p.raw, p.raw * 2 ^ 62⟩ : Nr.FinePair)) =
      fb.rows := by
    apply ext_lookup
    intro m
    rw [lookup_mapValues]
    cases hp : fb.rows.lookup m with
    | none => rfl
    | some p =>
      rw [Option.map_some, ← h m p hp]
  rw [hrows]

structure CreditOk (b : Nat) (fb : Nr.FineBin) : Prop where
  raw : ∀ m p, fb.rows.lookup m = some p → 0 < p.raw ∧ p.v = p.raw * 2 ^ 62
  rawSum : fb.rawSum = fb.rows.sum fun _ p => p.raw
  prov : ∀ k v, fb.prov.lookup k = some v → 0 < v
  bin : fb.rows ≠ ∅ → fb.bin = b
  blank : fb.rows = ∅ → fb = blankBin

theorem creditOk_blank (b : Nat) : CreditOk b blankBin :=
  ⟨(fun _ _ h => nomatch h), rfl, (fun _ _ h => nomatch h), fun h => absurd rfl h, fun _ => rfl⟩

theorem Lane.BinOk.creditOk (h : BinOk b fb)
    (hframed : Lane.inFrame canon 0 b fb = fb) : CreditOk b fb :=
  ⟨fun m p hp => ⟨h.raw m p hp, inFrame_zero_iff.mp hframed m p hp⟩, h.rawSum, h.prov,
    fun _ => h.bin, fun hempty => absurd hempty h.rows⟩

theorem CreditOk.rawSum_eq (h : CreditOk b fb) (m : MinerId) :
    fb.rawSum = (pairAt fb m).raw + SortedMap.sum (fb.rows.erase m) fun _ p => p.raw := by
  rw [h.rawSum]
  unfold pairAt
  cases hp : fb.rows.lookup m with
  | none =>
    rw [erase_of_lookup_none hp]
    exact (Nat.zero_add _).symm
  | some p => exact sum_of_split _ hp

theorem Lane.creditedBin_rows (lane : Lane) (a : WorkAtom) (b : Nat) (fb : Nr.FineBin) :
    (lane.creditedBin a b fb).rows = fb.rows.insert a.miner
      ⟨(pairAt fb a.miner).raw + a.wRaw.val, ((pairAt fb a.miner).raw + a.wRaw.val) * 2 ^ 62⟩ := rfl

theorem CreditOk.credited (h : CreditOk b fb) {a : WorkAtom}
    (hraw : 0 < a.wRaw.val) (canon : CanonicalTables) (lane : Lane) :
    BinOk b (lane.creditedBin a b fb) ∧
      inFrame canon 0 b (lane.creditedBin a b fb) = lane.creditedBin a b fb := by
  have hrows : ∀ m p, (lane.creditedBin a b fb).rows.lookup m = some p →
      0 < p.raw ∧ p.v = p.raw * 2 ^ 62 := by
    intro m p hp
    rw [creditedBin_rows, lookup_insert] at hp
    split at hp
    · cases hp
      exact ⟨Nat.add_pos_right _ hraw, rfl⟩
    · exact h.raw m p hp
  refine ⟨⟨rfl, ?_, fun m p hp => (hrows m p hp).1, ?_, ?_, ?_⟩,
    inFrame_zero_iff.mpr fun m p hp => (hrows m p hp).2⟩
  · intro hempty
    have hlook := lookup_insert fb.rows a.miner
      (⟨(pairAt fb a.miner).raw + a.wRaw.val,
        ((pairAt fb a.miner).raw + a.wRaw.val) * 2 ^ 62⟩ : Nr.FinePair) a.miner
    rw [← creditedBin_rows lane a b fb, hempty, if_pos rfl] at hlook
    cases hlook
  · show fb.rawSum + a.wRaw.val = _
    rw [creditedBin_rows, sum_insert, h.rawSum_eq a.miner]
    dsimp only
    omega
  · intro k v hv
    have hprov : (lane.creditedBin a b fb).prov =
        if a.version = provV37 then fb.prov
        else fb.prov.credit (toLex (a.version, a.miner)) a.wRaw.val := rfl
    rw [hprov] at hv
    split at hv
    · exact h.prov k v hv
    unfold Ledger.credit at hv
    rw [lookup_insert] at hv
    split at hv
    · cases hv
      exact Nat.add_pos_right _ hraw
    · exact h.prov k v hv
  · exact Option.some_ne_none _

theorem creditInto_openCell (hc : c.unscaled = openCell b fb) (lane : Lane) (a : WorkAtom) :
    (creditInto c a (lane.creditedBin a b fb) 0
      (((pairAt fb a.miner).raw + a.wRaw.val) * 2 ^ 62)).unscaled =
      openCell b (lane.creditedBin a b fb) := by
  have hcomp : (fb.rows.mapValues fun _ p => p.v).insert a.miner
      (((pairAt fb a.miner).raw + a.wRaw.val) * 2 ^ 62) =
      (lane.creditedBin a b fb).rows.mapValues fun _ p => p.v := by
    apply ext_lookup
    intro m
    rw [creditedBin_rows, lookup_insert, lookup_mapValues, lookup_mapValues, lookup_insert]
    split <;> rfl
  have hback : c = { openCell b fb with G := c.G } := by
    rw [← hc]
    rfl
  rw [hback]
  unfold creditInto Nr.Cell.unscaled openCell
  rw [Nat.zero_add, hcomp]
  by_cases hversion : a.version = provV37
  · have hprov : (lane.creditedBin a b fb).prov = fb.prov := if_pos hversion
    rw [if_pos hversion, hprov]
    rfl
  · rw [if_neg hversion]
    rfl

/-! ## The credit -/

section Credit

variable {lane : Lane} {b : Nat} {a : WorkAtom} {fb : Nr.FineBin} {c : Nr.Cell} {s : Lane}

section

variable (h : lane.Ordered env held) (hopen : lane.ridge.t < b + lane.params.nr.openHorizonBins)
include h hopen

theorem Lane.Ordered.level_of_open {b' : Nat} (hb' : held.lookup b' = some x)
    (hgroup : b / Nr.powR x.level = b' / Nr.powR x.level) : x.level = 0 := by
  by_contra hlevel
  have hsealed := (h.leveled b' x hb' x.level hlevel (h.holds.sound.level_le hb')).mp (le_refl _)
  have hle : b ≤ spanHi x.level (b / Nr.powR x.level) := le_groupHi x.level b
  rw [hgroup] at hle
  unfold Holding.sealedBy at hsealed
  omega

theorem Lane.Ordered.open_bin (hb : held.lookup b = some x) : x = ⟨x.bin, 0, false⟩ := by
  have hlevel := h.level_of_open hopen hb rfl
  have hlive : x.shed = false := by
    cases hshed : x.shed with
    | false => rfl
    | true =>
      have := h.holds.sound.shed hb hshed
      have := h.dims.cap_pos
      omega
  cases x
  cases hlevel
  cases hlive
  rfl

theorem Lane.Ordered.creditOk : CreditOk b (held.binAt b) := by
  unfold Holding.binAt
  cases hb : held.lookup b with
  | none => exact creditOk_blank b
  | some x =>
    have hx := h.open_bin hopen hb
    rw [hx] at hb
    exact (h.holds.sound.ok hb).creditOk (h.holds.sound.framed hb)

theorem Lane.Ordered.fineAt : lane.fineAt b = held.binAt b := by
  unfold Lane.fineAt Holding.binAt
  rw [h.holds.shows.fine, lookup_fine]
  cases hb : held.lookup b with
  | none => rfl
  | some x =>
    rw [h.open_bin hopen hb]
    rfl

theorem Lane.Ordered.cell_open :
    ((lane.ridge.cells 0).lookup b).map Nr.Cell.unscaled =
      (held.lookup b).map fun x => openCell b x.bin := by
  rw [h.holds.shows.cells, cell_zero h.holds.sound h.dims.cap_pos]
  cases hb : held.lookup b with
  | none => rfl
  | some x =>
    rw [h.open_bin hopen hb]
    rfl

end

theorem Lane.Resting.nrOpenCell (h : lane.Resting env held)
    (hopen : lane.ridge.t < b + lane.params.nr.openHorizonBins)
    (hsure : sure → ∃ g, lane.scalar env b = .ok g) :
    Meets sure (lane.nrOpenCell env b) fun c =>
      c.unscaled = openCell b (held.binAt b) ∧ lane.scalar env b = .ok c.G := by
  have hcell := h.cell_open hopen
  unfold Lane.nrOpenCell Holding.binAt
  cases hb : held.lookup b with
  | none =>
    rw [hb, Option.map_none, Option.map_eq_none_iff] at hcell
    rw [hcell]
    dsimp only [Option.getD_none]
    cases hg : lane.scalar env b with
    | error e =>
      refine .error fun hyes => ?_
      obtain ⟨g, hg'⟩ := hsure hyes
      cases hg.symm.trans hg'
    | ok g => exact .ok ⟨rfl, rfl⟩
  | some x =>
    rw [hb, Option.map_some] at hcell
    obtain ⟨c, hc, hunscaled⟩ := Option.map_eq_some_iff.mp hcell
    rw [hc]
    have hwork : c.rawWork = x.bin.rawSum := congrArg Nr.Cell.rawWork hunscaled
    have hpos := (h.holds.sound.ok hb).rawSum_pos
    dsimp only [Option.getD_some]
    rw [if_neg fun hboth => by omega]
    refine .ok ⟨hunscaled, ?_⟩
    have hhi : c.binHi = b := congrArg Nr.Cell.binHi hunscaled
    have hscaled := h.scaled.cells 0 b c hc
    rwa [hhi] at hscaled

theorem Lane.Ordered.sound_credit (h : lane.Ordered env held)
    (hopen : lane.ridge.t < b + lane.params.nr.openHorizonBins)
    (hok : BinOk b fb) (hframed : inFrame env.canon 0 b fb = fb) :
    Holding.Sound env.canon lane.params.nr.foldCap (held.insert b ⟨fb, 0, false⟩) := by
  have hsound := h.holds.sound
  have hlook : ∀ {b' x}, (held.insert b ⟨fb, 0, false⟩).lookup b' = some x →
      b' = b ∧ x = ⟨fb, 0, false⟩ ∨ b' ≠ b ∧ held.lookup b' = some x := by
    intro b' x hx
    rw [lookup_insert] at hx
    split at hx
    · rename_i heq
      exact .inl ⟨heq, (Option.some.inj hx).symm⟩
    · rename_i hne
      exact .inr ⟨hne, hx⟩
  constructor
  · intro b' x hx
    obtain ⟨rfl, rfl⟩ | ⟨-, hx⟩ := hlook hx
    · exact hok
    · exact hsound.ok hx
  · intro b' x hx
    obtain ⟨rfl, rfl⟩ | ⟨-, hx⟩ := hlook hx
    · exact hframed
    · exact hsound.framed hx
  · intro b' x hx
    obtain ⟨rfl, rfl⟩ | ⟨-, hx⟩ := hlook hx
    · exact Nat.zero_le _
    · exact hsound.level_le hx
  · intro b' x hx hshed
    obtain ⟨rfl, rfl⟩ | ⟨-, hx⟩ := hlook hx
    · cases hshed
    · exact hsound.shed hx hshed
  · intro b₁ x₁ b₂ x₂ hx₁ hx₂ hgroup
    obtain ⟨rfl, rfl⟩ | ⟨-, hy₁⟩ := hlook hx₁
    · rw [div_powR_zero, div_powR_zero] at hgroup
      subst hgroup
      obtain ⟨-, rfl⟩ | ⟨hne, -⟩ := hlook hx₂
      · rfl
      · exact absurd rfl hne
    obtain ⟨rfl, rfl⟩ | ⟨-, hy₂⟩ := hlook hx₂
    · exact (h.level_of_open hopen hy₁ hgroup).symm
    · exact hsound.even hy₁ hy₂ hgroup

theorem Lane.Ordered.leveled_credit (h : lane.Ordered env held)
    (hopen : lane.ridge.t < b + lane.params.nr.openHorizonBins) (fb : Nr.FineBin) :
    Holding.Leveled lane.params.nr.foldCap
      (Holding.sealedBy lane.params.nr.openHorizonBins lane.ridge.t)
      (held.insert b ⟨fb, 0, false⟩) := by
  intro b' x hx l hl hcap
  rw [lookup_insert] at hx
  split at hx
  · rename_i heq
    cases hx
    constructor
    · intro hle
      exact absurd (Nat.le_zero.mp hle) hl
    intro hsealed
    have hle : b' ≤ spanHi l (b' / Nr.powR l) := le_groupHi l b'
    unfold Holding.sealedBy at hsealed
    omega
  · exact h.leveled b' x hx l hl hcap

theorem amount_rows (fb : Nr.FineBin) (m : MinerId) :
    Ledger.amount (fb.rows.mapValues fun _ p => p.v) m = (pairAt fb m).v := by
  unfold Ledger.amount pairAt
  rw [lookup_mapValues]
  cases fb.rows.lookup m <;> rfl

def Lane.creditedTo (lane : Lane) (a : WorkAtom) (b : Nat) (fb : Nr.FineBin) (c : Nr.Cell) : Lane :=
  { lane with
    nextPos := lane.nextPos + 1
    ridge :=
      { lane.ridge.putOpen b (lane.creditedBin a b fb) c with
        rawCur := lane.ridge.rawCur + a.wRaw.val }
    journal := trim lane.params.journalDepth
      (.nrCredit b a.miner a.wRaw.val fb.posLo
        (if a.version = provV37 then none else some a.version) :: lane.journal) }

theorem Lane.Resting.nrCredit_meets (h : lane.Resting env held)
    (hopen : lane.ridge.t < b + lane.params.nr.openHorizonBins)
    (hsure : sure → ¬ lane.nrSealed b ∧ ∃ g, lane.scalar env b = .ok g) (a : WorkAtom) :
    Meets sure (lane.nrCredit env a b) fun lane' =>
      ∃ c, c.unscaled = openCell b (lane.creditedBin a b (held.binAt b)) ∧
        lane.scalar env b = .ok c.G ∧ lane' = lane.creditedTo a b (held.binAt b) c := by
  unfold Lane.nrCredit
  split
  · rename_i hsealed
    exact .error fun hyes => (hsure hyes).1 hsealed
  refine (h.nrOpenCell hopen fun hyes => (hsure hyes).2).bind ?_
  rintro c ⟨hc, hscalar⟩
  have hfine : (lane.ridge.fine.lookup b).getD ⟨0, 0, ∅, ∅, none⟩ = held.binAt b := h.fineAt hopen
  have hlevel : c.level = 0 := congrArg Nr.Cell.level hc
  have hpair : lane.pairIn env c b ((pairAt (held.binAt b) a.miner).raw + a.wRaw.val) =
      .ok (((pairAt (held.binAt b) a.miner).raw + a.wRaw.val) * 2 ^ 62) := by
    unfold pairIn
    rw [hlevel, Nr.pairValue_eq _ (Nat.zero_le _)]
    rfl
  have hcomp : c.comp = (held.binAt b).rows.mapValues fun _ p => p.v := congrArg Nr.Cell.comp hc
  have hkept : lane.orWrapped (checkedSub (c.comp.amount a.miner)
      (pairAt (held.binAt b) a.miner).v) = .ok 0 := by
    rw [hcomp, amount_rows, checkedSub_of_le (le_refl _), Nat.sub_self]
    rfl
  dsimp only
  rw [hfine]
  have hpair' : lane.pairIn env c b (((lookup (held.binAt b).rows a.miner).getD
      ⟨0, 0⟩).raw + a.wRaw.val) = _ := hpair
  have hkept' : lane.orWrapped (checkedSub (c.comp.amount a.miner)
      ((lookup (held.binAt b).rows a.miner).getD ⟨0, 0⟩).v) = .ok 0 := hkept
  rw [hpair']
  refine Meets.bind (.ok rfl) ?_
  rintro v rfl
  rw [hkept']
  refine Meets.bind (.ok rfl) ?_
  rintro kept rfl
  exact .ok ⟨_, creditInto_openCell hc lane a, hscalar, rfl⟩

theorem Lane.Resting.creditedTo (h : lane.Resting env held)
    (hopen : lane.ridge.t < b + lane.params.nr.openHorizonBins)
    (hroom : lane.params.nr.openHorizonBins + Nr.powR lane.params.nr.foldCap ≤
      lane.params.nr.wMinBins)
    (hahead : b < lane.ridge.t + Nr.ladderDomainBins) (hraw : 0 < a.wRaw.val)
    (hc : c.unscaled = openCell b (lane.creditedBin a b (held.binAt b)))
    (hscalar : lane.scalar env b = .ok c.G) :
    (lane.creditedTo a b (held.binAt b) c).Resting env (lane.withCredit a b held) := by
  obtain ⟨hok, hframed⟩ := (h.creditOk hopen).credited hraw env.canon lane
  have hsound := h.sound_credit hopen hok hframed
  have hshows : (lane.ridge.putOpen b (lane.creditedBin a b (held.binAt b)) c).Shows
      (lane.withCredit a b held) :=
    h.holds.shows.putOpen h.dims.cap_pos (fun x hx => by rw [h.open_bin hopen hx]) hc hsound
  have hhi : c.binHi = b := congrArg Nr.Cell.binHi hc
  refine ⟨⟨⟨h.dims, h.started, fun _ _ _ => hroom, ?_, h.record, h.recorded, h.width⟩,
    ⟨{ hshows with }, hsound⟩, h.leveled_credit hopen _⟩, ⟨?_, h.scaled.record⟩⟩
  · intro b' x hx
    unfold Lane.withCredit at hx
    rw [lookup_insert] at hx
    split at hx
    · rename_i heq
      rw [heq]
      exact hahead
    · exact h.ahead b' x hx
  intro l i d hd
  have hlook : ((update lane.ridge.cells 0 ((lane.ridge.cells 0).insert b c)) l).lookup i =
      some d := hd
  show lane.scalar env d.binHi = .ok d.G
  by_cases hl : l = 0
  · subst hl
    rw [update_self, lookup_insert] at hlook
    split at hlook
    · cases hlook
      rw [hhi]
      exact hscalar
    · exact h.scaled.cells 0 i d hlook
  · rw [update_of_ne hl] at hlook
    exact h.scaled.cells l i d hlook

/-! ## The undo of a credit -/

theorem CreditOk.rows_restored (h : CreditOk b fb) (lane : Lane) (a : WorkAtom) :
    (if (pairAt fb a.miner).raw = 0 then (lane.creditedBin a b fb).rows.erase a.miner
      else (lane.creditedBin a b fb).rows.insert a.miner
        ⟨(pairAt fb a.miner).raw, (pairAt fb a.miner).raw * 2 ^ 62⟩) = fb.rows := by
  rw [creditedBin_rows]
  unfold pairAt
  apply ext_lookup
  intro m
  cases hp : fb.rows.lookup a.miner with
  | none =>
    rw [Option.getD_none, if_pos rfl, erase_insert, lookup_erase]
    split
    · rename_i hm
      rw [hm, hp]
    · rfl
  | some p =>
    obtain ⟨hpos, hv⟩ := h.raw a.miner p hp
    rw [Option.getD_some, if_neg hpos.ne', lookup_insert, lookup_insert]
    split
    · rename_i hm
      rw [hm, hp, ← hv]
    · rfl

theorem CreditOk.prov_restored (h : CreditOk b fb) (lane s : Lane) (a : WorkAtom) :
    s.nrUncreditProv (lane.creditedBin a b fb).prov a.miner a.wRaw.val
      (if a.version = provV37 then none else some a.version) = .ok fb.prov := by
  have hprov : (lane.creditedBin a b fb).prov =
      if a.version = provV37 then fb.prov
      else fb.prov.credit (toLex (a.version, a.miner)) a.wRaw.val := rfl
  have hnz : Ledger.NoZero fb.prov := fun k v hv => (h.prov k v hv).ne'
  rw [hprov]
  split
  · rfl
  unfold nrUncreditProv
  have hlook : (fb.prov.credit (toLex (a.version, a.miner)) a.wRaw.val).lookup
      (toLex (a.version, a.miner)) =
      some (fb.prov.amount (toLex (a.version, a.miner)) + a.wRaw.val) := by
    unfold Ledger.credit
    rw [lookup_insert, if_pos rfl]
  dsimp only
  rw [hlook]
  rw [hnz.debit_credit]
  rfl

theorem CreditOk.comp_restored (h : CreditOk b fb) (lane : Lane) (a : WorkAtom) :
    (if 0 + (pairAt fb a.miner).raw * 2 ^ 62 = 0 then
        SortedMap.erase ((lane.creditedBin a b fb).rows.mapValues fun _ p => p.v) a.miner
      else SortedMap.insert ((lane.creditedBin a b fb).rows.mapValues fun _ p => p.v) a.miner
        (0 + (pairAt fb a.miner).raw * 2 ^ 62)) = fb.rows.mapValues fun _ p => p.v := by
  have hzero : 0 + (pairAt fb a.miner).raw * 2 ^ 62 = 0 ↔ (pairAt fb a.miner).raw = 0 := by
    omega
  rw [if_congr hzero rfl rfl, ← h.rows_restored lane a, Nat.zero_add]
  apply ext_lookup
  intro m
  split
  · rw [lookup_erase, lookup_mapValues, lookup_mapValues, lookup_erase]
    split <;> rfl
  rw [lookup_insert, lookup_mapValues, lookup_mapValues, lookup_insert]
  split <;> rfl

def uncreditedBin (fb' fb : Nr.FineBin) : Nr.FineBin :=
  { fb' with rawSum := fb.rawSum, rows := fb.rows, prov := fb.prov, posLo := fb.posLo }

def uncreditedCell (c : Nr.Cell) (fb : Nr.FineBin) (a : WorkAtom) : Nr.Cell :=
  { c with
    comp := fb.rows.mapValues fun _ p => p.v
    rawWork := fb.rawSum
    prov := if (if a.version = provV37 then none else some a.version).isSome then provRows fb.prov
      else c.prov }

theorem Lane.nrUndoCredit_eq (h : CreditOk b fb) (hc : (s.ridge.cells 0).lookup b = some c)
    (hopen : c.unscaled = openCell b (lane.creditedBin a b fb))
    (hfine : s.ridge.fine.lookup b = some (lane.creditedBin a b fb))
    (hraw : s.ridge.rawCur = lane.ridge.rawCur + a.wRaw.val)
    (hnext : s.nextPos = lane.nextPos + 1) :
    s.nrUndoCredit env b a.miner a.wRaw.val fb.posLo
        (if a.version = provV37 then none else some a.version) =
      .ok { s with
        nextPos := lane.nextPos
        ridge :=
          { s.ridge with
            fine := if fb.rows = ∅ then s.ridge.fine.erase b
              else s.ridge.fine.insert b (uncreditedBin (lane.creditedBin a b fb) fb)
            cells := Function.update s.ridge.cells 0
              (if fb.rawSum = 0 ∧ (fb.rows.mapValues fun _ p => p.v) = ∅ then
                (s.ridge.cells 0).erase b
              else (s.ridge.cells 0).insert b (uncreditedCell c fb a))
            rawCur := lane.ridge.rawCur } } := by
  have hrow : (lane.creditedBin a b fb).rows.lookup a.miner =
      some ⟨(pairAt fb a.miner).raw + a.wRaw.val,
        ((pairAt fb a.miner).raw + a.wRaw.val) * 2 ^ 62⟩ := by
    rw [creditedBin_rows, lookup_insert, if_pos rfl]
  have hcomp : c.comp = (lane.creditedBin a b fb).rows.mapValues fun _ p => p.v :=
    congrArg Nr.Cell.comp hopen
  have hlevel : c.level = 0 := congrArg Nr.Cell.level hopen
  have hwork : c.rawWork = fb.rawSum + a.wRaw.val := congrArg Nr.Cell.rawWork hopen
  have hsum : (lane.creditedBin a b fb).rawSum = fb.rawSum + a.wRaw.val := rfl
  have hamount : Ledger.amount c.comp a.miner =
      ((pairAt fb a.miner).raw + a.wRaw.val) * 2 ^ 62 := by
    rw [hcomp, amount_rows]
    unfold pairAt at hrow ⊢
    rw [hrow]
    rfl
  have hpair : s.nrUncreditPair env c b (pairAt fb a.miner).raw =
      .ok ((pairAt fb a.miner).raw * 2 ^ 62) := by
    unfold nrUncreditPair
    split
    · rename_i hzero
      rw [hzero, Nat.zero_mul]
    unfold pairIn
    rw [hlevel, Nr.pairValue_eq _ (Nat.zero_le _)]
    rfl
  unfold Lane.nrUndoCredit
  rw [hc, hfine]
  dsimp only
  rw [hrow]
  dsimp only
  rw [checkedSub_add]
  show (Except.ok _ >>= _) = _
  rw [ok_bind, hpair, ok_bind, hamount, checkedSub_of_le (le_refl _), Nat.sub_self]
  show (Except.ok _ >>= _) = _
  rw [ok_bind, hwork, checkedSub_add]
  show (Except.ok _ >>= _) = _
  rw [ok_bind, hraw, checkedSub_add]
  show (Except.ok _ >>= _) = _
  rw [ok_bind, hsum, checkedSub_add]
  show (Except.ok _ >>= _) = _
  rw [ok_bind, hnext, checkedSub_add]
  show (Except.ok _ >>= _) = _
  rw [ok_bind, h.prov_restored lane s a, ok_bind, h.rows_restored lane a, hcomp,
    h.comp_restored lane a]
  rfl

theorem uncreditedCell_unscaled (hc : c.unscaled = openCell b (lane.creditedBin a b fb)) :
    (uncreditedCell c fb a).unscaled = openCell b fb := by
  have hback : c = { openCell b (lane.creditedBin a b fb) with G := c.G } := by
    rw [← hc]
    rfl
  rw [hback]
  unfold uncreditedCell Nr.Cell.unscaled openCell
  by_cases hversion : a.version = provV37
  · have hprov : (lane.creditedBin a b fb).prov = fb.prov := if_pos hversion
    rw [if_pos hversion, if_neg (by decide), hprov]
  · rw [if_neg hversion]
    rfl

theorem CreditOk.blank_iff (h : CreditOk b fb) :
    (fb.rawSum = 0 ∧ (fb.rows.mapValues fun _ p => p.v) = ∅) ↔ fb.rows = ∅ := by
  constructor
  · rintro ⟨-, hempty⟩
    rw [eq_empty_iff]
    intro m
    have hm := eq_empty_iff.mp hempty m
    rwa [lookup_mapValues, Option.map_eq_none_iff] at hm
  intro hempty
  rw [h.blank hempty]
  exact ⟨rfl, rfl⟩

section

variable {s' : Lane} (h : s.Scaled env) (ht : s'.ridge.t = s.ridge.t)
  (hparams : s'.params = s.params)
  (hcells : ∀ l i c, (s'.ridge.cells l).lookup i = some c → ∃ i' c',
    (s.ridge.cells l).lookup i' = some c' ∧ c.binHi = c'.binHi ∧ c.G = c'.G)
include h ht hparams hcells

theorem Lane.Scaled.of_lookups (hrecord : ∀ b c, s'.ridge.record.lookup b = some c →
      ∃ b' c', s.ridge.record.lookup b' = some c' ∧ c.binHi = c'.binHi ∧ c.G = c'.G) :
    s'.Scaled env := by
  have hscalar : ∀ hi, s'.scalar env hi = s.scalar env hi := by
    intro hi
    unfold scalar
    rw [ht, hparams]
  refine ⟨?_, ?_⟩
  · intro l i c hc
    obtain ⟨i', c', hc', hhi, hg⟩ := hcells l i c hc
    rw [hscalar, hhi, hg]
    exact h.cells l i' c' hc'
  intro k c hc
  obtain ⟨k', c', hc', hhi, hg⟩ := hrecord k c hc
  rw [hscalar, hhi, hg]
  exact h.record k' c' hc'

theorem Lane.Scaled.of_cells (hrecord : s'.ridge.record = s.ridge.record) : s'.Scaled env :=
  h.of_lookups ht hparams hcells fun b c hc => ⟨b, c, hrecord ▸ hc, rfl, rfl⟩

end

theorem Lane.Like.uncredited {fine : SortedMap Nat Nr.FineBin} {cells : SortedMap Nat Nr.Cell}
    (h : Like env (lane.creditedTo a b fb c) s) (hfine : fine = lane.ridge.fine)
    (hcells : ∀ l, CellsAlike (update s.ridge.cells 0 cells l) (lane.ridge.cells l))
    (hkept : ∀ i d, cells.lookup i = some d → ∃ i' d', (s.ridge.cells 0).lookup i' = some d' ∧
      d.binHi = d'.binHi ∧ d.G = d'.G) :
    Like env lane (unlogged { s with
      nextPos := lane.nextPos
      ridge := { s.ridge with
        fine := fine, cells := update s.ridge.cells 0 cells, rawCur := lane.ridge.rawCur } }) := by
  obtain ⟨hs, hscaled⟩ := h
  refine ⟨⟨hs.params, hs.tables, rfl, hs.base, hs.mmr, hs.ckpts, hs.pos,
    { hs.ridge with fine := hfine, cells := hcells, rawCur := rfl }⟩,
    hscaled.of_cells rfl rfl ?_ rfl⟩
  intro l i d hd
  have hlook : (update s.ridge.cells 0 cells l).lookup i = some d := hd
  by_cases hl : l = 0
  · subst hl
    rw [update_self] at hlook
    exact hkept i d hlook
  · rw [update_of_ne hl] at hlook
    exact ⟨i, d, hlook, rfl, rfl⟩

theorem Lane.Resting.nrUndoCredit {total : Prop} (h : lane.Resting env held)
    (hopen : lane.ridge.t < b + lane.params.nr.openHorizonBins) (hraw : 0 < a.wRaw.val)
    (hc : c.unscaled = openCell b (lane.creditedBin a b (held.binAt b))) :
    LaneUndoes env total
      (.nrCredit b a.miner a.wRaw.val (held.binAt b).posLo
        (if a.version = provV37 then none else some a.version))
      (Like env (lane.creditedTo a b (held.binAt b) c)) (Like env lane) := by
  have hcredit := h.creditOk hopen
  obtain ⟨hok, hframed⟩ := hcredit.credited hraw env.canon lane
  have hsound := h.sound_credit hopen hok hframed
  have hafter : (lane.ridge.putOpen b (lane.creditedBin a b (held.binAt b)) c).Shows
      (lane.withCredit a b held) :=
    h.holds.shows.putOpen h.dims.cap_pos (fun x hx => by rw [h.open_bin hopen hx]) hc hsound
  have hopenAfter : ∀ x, (lane.withCredit a b held).lookup b = some x → x.level = 0 := by
    intro x hx
    unfold Lane.withCredit at hx
    rw [lookup_insert, if_pos rfl] at hx
    cases hx
    rfl
  apply Undoes.of_ok
  intro s hlike
  have hs := hlike.1
  have hfine : s.ridge.fine.lookup b = some (lane.creditedBin a b (held.binAt b)) := by
    have hsame : s.ridge.fine = lane.ridge.fine.insert b (lane.creditedBin a b (held.binAt b)) :=
      hs.ridge.fine
    rw [hsame, lookup_insert, if_pos rfl]
  have hcell : ((update lane.ridge.cells 0 ((lane.ridge.cells 0).insert b c)) 0).lookup b =
      some c := by
    rw [update_self, lookup_insert, if_pos rfl]
  obtain ⟨c₁, hc₁, hsame₁⟩ := (hs.ridge.cells 0).lookup hcell
  have hopen₁ := hsame₁.trans hc
  have hundo : Lane.nrUndoCredit env s b a.miner a.wRaw.val (held.binAt b).posLo _ = _ :=
    nrUndoCredit_eq hcredit hc₁ hopen₁ hfine hs.ridge.rawCur hs.nextPos
  have hshows : s.ridge.Shows (lane.withCredit a b held) :=
    hafter.of_alike hs.ridge.fine hs.ridge.cells
  refine ⟨_, hundo, ?_⟩
  rw [if_congr hcredit.blank_iff rfl rfl]
  by_cases hblank : (held.binAt b).rows = ∅
  -- The bin was opened by the credit.
  · have hnone : held.lookup b = none := by
      cases hb : held.lookup b with
      | none => rfl
      | some x =>
        refine absurd hblank ?_
        unfold Holding.binAt
        rw [hb]
        exact (h.holds.sound.ok hb).rows
    have hback : erase (lane.withCredit a b held) b = held := by
      unfold Lane.withCredit
      rw [erase_insert, erase_of_lookup_none hnone]
    have hheld := hshows.dropOpen h.dims.cap_pos hopenAfter (hback.symm ▸ h.holds.sound)
    rw [hback] at hheld
    obtain ⟨hfine', hcells'⟩ := hheld.alike h.holds.shows
    rw [if_pos hblank, if_pos hblank]
    refine hlike.uncredited hfine' hcells' ?_
    intro i d hd
    rw [lookup_erase] at hd
    split at hd
    · cases hd
    · exact ⟨i, d, hd, rfl, rfl⟩
  -- The bin goes back to what it was.
  · obtain ⟨x, hx⟩ : ∃ x, held.lookup b = some x := by
      cases hb : held.lookup b with
      | none =>
        refine absurd ?_ hblank
        unfold Holding.binAt
        rw [hb]
        rfl
      | some x => exact ⟨x, rfl⟩
    have hat : held.binAt b = x.bin := by
      unfold Holding.binAt
      rw [hx]
      rfl
    have hbin : uncreditedBin (lane.creditedBin a b (held.binAt b)) (held.binAt b) =
        held.binAt b := by
      have hb : (held.binAt b).bin = b := hcredit.bin hblank
      calc uncreditedBin (lane.creditedBin a b (held.binAt b)) (held.binAt b)
          = { held.binAt b with bin := b } := rfl
        _ = { held.binAt b with bin := (held.binAt b).bin } := by rw [hb]
    have hback : insert (lane.withCredit a b held) b ⟨held.binAt b, 0, false⟩ = held := by
      apply ext_lookup
      intro b'
      unfold Lane.withCredit
      rw [lookup_insert, lookup_insert]
      split
      · rename_i heq
        rw [heq, hx, h.open_bin hopen hx, hat]
      · rfl
    have hheld := hshows.putOpen h.dims.cap_pos hopenAfter (uncreditedCell_unscaled hopen₁)
      (hback.symm ▸ h.holds.sound)
    rw [hback] at hheld
    obtain ⟨hfine', hcells'⟩ := hheld.alike h.holds.shows
    rw [if_neg hblank, if_neg hblank, hbin]
    refine hlike.uncredited hfine' hcells' ?_
    intro i d hd
    rw [lookup_insert] at hd
    split at hd
    · cases hd
      exact ⟨b, c₁, hc₁, rfl, rfl⟩
    · exact ⟨i, d, hd, rfl, rfl⟩

end Credit

end C2Pool.V37
