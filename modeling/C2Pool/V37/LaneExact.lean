import C2Pool.V37.LaneBalanced

/-! # Runs keep the accumulators exact

Insertion and eviction keep a lane balanced, so every positional push does, and
so does every rewind, which leads back to an earlier lane of the run.  No
subtraction of a push or an undo wraps around.
-/

namespace C2Pool.V37

open List UndoLog PartialRun Ledger Function Nat

namespace Lane

variable {lane lane' : Lane} {b : Bucket} {rest : List Bucket} {k : Nat} {env : Env}
  {resolver : Option Resolver} {f : Failure} {a : WorkAtom} {p : LaneParams} {last : Lane}
  {shares : List (Option Resolver × WorkAtom)}

theorem Balanced.insertSlot (h : lane.Balanced) (a : WorkAtom) : (lane.insertSlot a).Balanced := by
  have hlight : a.wRaw.val * (lane.tables.invDecay (lane.nextPos - lane.base)).val < 2 ^ 128 := by
    calc a.wRaw.val * (lane.tables.invDecay (lane.nextPos - lane.base)).val
        < 2 ^ 64 * 2 ^ 64 := Nat.mul_lt_mul'' a.wRaw.isLt (lane.tables.invDecay _).isLt
      _ = 2 ^ 128 := (Nat.pow_add 2 64 64).symm
  unfold Lane.insertSlot journalPush
  generalize a.wRaw.val * (lane.tables.invDecay (lane.nextPos - lane.base)).val = scaled at hlight
  have hbase := h.base_le
  have hcover := h.cover_le
  have hrows : ∀ s : L0Slot, slotRows (lane.l0 ++ [s]) =
      slotRows lane.l0 ++ [(s.miner, s.wScaled)] := by
    intro s
    unfold slotRows
    rw [map_append]
    rfl
  refine
    { geometry := h.geometry
      ladder := h.ladder
      base_le := Nat.le_succ_of_le hbase
      cover_le := Nat.succ_le_succ hcover
      tiles := ?_
      bucket := h.bucket
      slot := ?_
      acc := ?_
      accTotal := ?_
      rawTotal := ?_
      l0ScaledSum := ?_
      l0RawSum := ?_
      carryTotal := h.carryTotal
      headroom := h.headroom }
  · have hspan : Tiles lane.nextPos [(lane.nextPos, lane.nextPos)] (lane.nextPos + 1) :=
      ⟨rfl, Nat.le_refl _, rfl⟩
    have htiles := h.tiles.append hspan
    show Tiles (lane.nextPos + 1 - (lane.cover + 1))
      (lane.column.map bucketSpan ++ (lane.l0 ++ [_]).map slotSpan) (lane.nextPos + 1)
    rw [Nat.add_sub_add_right, map_append, ← append_assoc]
    exact htiles
  · intro s hs
    rcases mem_append.mp hs with hs | hs
    · exact h.slot s hs
    rw [mem_singleton] at hs
    rw [hs]
    exact hlight
  · intro m
    show (lane.acc.credit a.miner scaled).amount m = _ +
      Ledger.sumOf (lane.heldBy lane.base lane.column) m
    rw [amount_credit, h.acc]
    rw [hrows, sumOf_append, sumOf_cons, sumOf_nil]
    dsimp only
    omega
  · show lane.accTotal + scaled = _ + ((lane.heldBy lane.base lane.column).map Prod.snd).sum
    rw [h.accTotal]
    rw [hrows, map_append, sum_append_nat, map_singleton, sum_singleton]
    dsimp only
    omega
  · show lane.rawTotal + a.wRaw.val = _ + (lane.column.map fun b => b.rawWork).sum
    rw [h.rawTotal]
    rw [map_append, sum_append_nat, map_singleton, sum_singleton]
    dsimp only
    omega
  · rw [map_append, sum_append_nat, ← h.l0ScaledSum]
    rfl
  · rw [map_append, sum_append_nat, ← h.l0RawSum]
    rfl

/-! ## Eviction -/

theorem oldestLevel_spec (lane : Lane) :
    match lane.oldestLevel with
    | none => ∀ k < lane.numLevels, lane.levels k = []
    | some k => k < lane.numLevels ∧ ∃ b rest, lane.levels k = b :: rest ∧
        ∀ j < lane.numLevels, ∀ b' rest', lane.levels j = b' :: rest' → b.posLo ≤ b'.posLo := by
  unfold oldestLevel
  induction lane.numLevels with
  | zero => simp
  | succ n ih =>
    rw [range_succ, foldl_append, foldl_cons, foldl_nil]
    generalize (List.range n).foldl _ none = best at ih ⊢
    have hlast : ∀ j < n + 1, j < n ∨ j = n := by omega
    cases hn : lane.levels n with
    | nil =>
      cases best with
      | none =>
        intro k hk
        rcases hlast k hk with hk | rfl
        · exact ih k hk
        · exact hn
      | some k =>
        obtain ⟨hk, b, rest, hfront, hmin⟩ := ih
        refine ⟨by omega, b, rest, hfront, ?_⟩
        intro j hj b' rest' hj'
        rcases hlast j hj with hj | rfl
        · exact hmin j hj b' rest' hj'
        · rw [hn] at hj'
          cases hj'
    | cons c cs =>
      cases best with
      | none =>
        refine ⟨by omega, c, cs, hn, ?_⟩
        intro j hj b' rest' hj'
        rcases hlast j hj with hj | rfl
        · rw [ih j hj] at hj'
          cases hj'
        rw [hn] at hj'
        cases hj'
        exact Nat.le_refl _
      | some k =>
        obtain ⟨hk, b, rest, hfront, hmin⟩ := ih
        dsimp only
        rw [hfront]
        dsimp only
        by_cases hlt : c.posLo < b.posLo
        · rw [if_pos hlt]
          refine ⟨by omega, c, cs, hn, ?_⟩
          intro j hj b' rest' hj'
          rcases hlast j hj with hj | rfl
          · have := hmin j hj b' rest' hj'
            omega
          rw [hn] at hj'
          cases hj'
          exact Nat.le_refl _
        rw [if_neg hlt]
        refine ⟨by omega, b, rest, hfront, ?_⟩
        intro j hj b' rest' hj'
        rcases hlast j hj with hj | rfl
        · exact hmin j hj b' rest' hj'
        rw [hn] at hj'
        cases hj'
        omega

theorem stack_head {levels : Nat → List Bucket} {n : Nat}
    (h : stack levels n = b :: rest) : ∃ k < n, ∃ rest', levels k = b :: rest' := by
  induction n with
  | zero => cases h
  | succ n ih =>
    unfold stack at h
    cases hn : levels n with
    | nil =>
      rw [hn, nil_append] at h
      obtain ⟨k, hk, hfront⟩ := ih h
      exact ⟨k, lt_succ_of_lt hk, hfront⟩
    | cons c cs =>
      rw [hn] at h
      cases h
      exact ⟨n, lt_succ_self n, cs, hn⟩

theorem Balanced.oldest (h : lane.Balanced) (hk : lane.oldestLevel = some k)
    (hfront : lane.levels k = b :: rest) :
    ∃ newer, lane.column = b :: newer ∧
      stack (Function.update lane.levels k rest) lane.numLevels = newer := by
  have hspec := lane.oldestLevel_spec
  rw [hk] at hspec
  obtain ⟨hlt, b', rest', hfront', hmin⟩ := hspec
  rw [hfront] at hfront'
  cases hfront'
  obtain ⟨above, habove⟩ := stack_split hlt lane.levels
  have hcolumn : lane.column = above ++ (b :: (rest ++ stack lane.levels k)) := by
    unfold column
    rw [habove lane.levels fun _ _ => rfl, hfront]
    rfl
  have hnone : above = [] := by
    cases habv : above with
    | nil => rfl
    | cons c cs =>
      rw [habv, cons_append] at hcolumn
      obtain ⟨j, hj, r, hj'⟩ := stack_head hcolumn
      have hle := hmin j hj c r hj'
      have htiles := h.tiles
      unfold spans at htiles
      rw [hcolumn, map_cons, cons_append] at htiles
      obtain ⟨-, hc, htiles⟩ := htiles
      have hb := htiles.bounds (mem_append_left _ (mem_map_of_mem
        (mem_append_right cs mem_cons_self)))
      have hb : c.posHi + 1 ≤ b.posLo := hb.1
      have hc : c.posLo ≤ c.posHi := hc
      omega
  refine ⟨rest ++ stack lane.levels k, by rw [hcolumn, hnone]; rfl, ?_⟩
  have hnew := habove (Function.update lane.levels k rest) fun j hj =>
    update_of_ne (by omega) _ _
  have hbelow : stack (Function.update lane.levels k rest) k = stack lane.levels k :=
    stack_congr fun j hj => update_of_ne (by omega) _ _
  rw [hnew, hnone, hbelow, update_self]
  rfl

theorem credited_le (lane : Lane) (b : Bucket) (h : ¬ lane.carries b) : lane.credited b = [] := by
  unfold credited
  rw [if_neg h]

theorem Balanced.evictBucket
    (h : lane.Balanced) (hk : lane.oldestLevel = some k) (hfront : lane.levels k = b :: rest)
    (hok : lane.evictBucket env resolver k b rest = .ok lane') :
    lane'.Balanced ∧ lane'.cover < lane.cover := by
  obtain ⟨newer, hold, hnew⟩ := h.oldest hk hfront
  obtain ⟨acc, accTotal, rawTotal, cover, hacc, haccTotal, hraw, hcover, hroom, hlane⟩ :=
    evictBucket_eq_ok hok
  have hcolumn : lane'.column = newer := by
    rw [hlane]
    exact hnew
  subst hlane
  refine ⟨?_, by dsimp only; omega⟩
  have hle := h.cover_le
  have hsub : lane.subtracted b = worth (lane.shift lane.base b) b := rfl
  have hheld : ∀ m, Ledger.sumOf (lane.heldBy lane.base lane.column) m =
      Ledger.sumOf (lane.subtracted b) m + Ledger.sumOf (lane.heldBy lane.base newer) m := by
    intro m
    rw [hold, heldBy_cons, sumOf_append, hsub]
  refine
    { geometry := h.geometry
      ladder := h.ladder
      base_le := h.base_le
      cover_le := by dsimp only; omega
      tiles := ?_
      bucket := ?_
      slot := h.slot
      acc := ?_
      accTotal := ?_
      rawTotal := ?_
      l0ScaledSum := h.l0ScaledSum
      l0RawSum := h.l0RawSum
      carryTotal := ?_
      headroom := ?_ }
  · have htiles := h.tiles
    unfold spans at htiles ⊢
    rw [hold, map_cons, cons_append] at htiles
    obtain ⟨hlo, hspan, htiles⟩ := htiles
    have hlo : b.posLo = lane.nextPos - lane.cover := hlo
    have hspan : b.posLo ≤ b.posHi := hspan
    have hstart : lane.nextPos - cover = b.posHi + 1 := by omega
    rw [hcolumn]
    rw [hstart]
    exact htiles
  · rw [hcolumn]
    intro b' hb'
    exact h.bucket b' (by rw [hold]; exact mem_cons_of_mem _ hb')
  · intro m
    rw [hcolumn]
    show acc.amount m = _ + Ledger.sumOf (lane.heldBy lane.base newer) m
    have hbefore := h.acc m
    have hdebit := amount_debitAll hacc m
    rw [hheld] at hbefore
    dsimp only
    omega
  · rw [hcolumn]
    show accTotal = _ + ((lane.heldBy lane.base newer).map Prod.snd).sum
    have hbefore := h.accTotal
    rw [hold, heldBy_cons, map_append, sum_append_nat, ← hsub] at hbefore
    dsimp only
    omega
  · rw [hcolumn]
    have hbefore := h.rawTotal
    rw [hold, map_cons, sum_cons] at hbefore
    dsimp only
    omega
  · show lane.carryTotal + _ = (lane.carry.creditAll (lane.credited b)).total
    rw [total_creditAll, h.carryTotal]
  · by_cases hcarries : lane.carries b
    · exact hroom hcarries
    dsimp only
    rw [lane.credited_le b hcarries]
    exact h.headroom

theorem Balanced.evictBucket_not_wrapped
    (h : lane.Balanced) (hk : lane.oldestLevel = some k) (hfront : lane.levels k = b :: rest)
    (herr : lane.evictBucket env resolver k b rest = .error f) : f.cause ≠ .wrapped := by
  obtain ⟨newer, hold, -⟩ := h.oldest hk hfront
  have hacc : ∀ m, Ledger.sumOf (lane.subtracted b) m ≤ lane.acc.amount m := by
    intro m
    rw [h.acc, hold, heldBy_cons, sumOf_append]
    exact le_add_left_of_le (le_add_right _ _)
  obtain ⟨acc, hdebit, -⟩ := debitAll_of_le hacc
  have htotal : ((lane.subtracted b).map Prod.snd).sum ≤ lane.accTotal := by
    rw [h.accTotal, hold, heldBy_cons, map_append, sum_append_nat]
    exact le_add_left_of_le (le_add_right _ _)
  have hraw : b.rawWork ≤ lane.rawTotal := by
    rw [h.rawTotal, hold, map_cons, sum_cons]
    exact le_add_left_of_le (le_add_right _ _)
  have hcover : b.posHi - b.posLo + 1 ≤ lane.cover := by
    have hsum := h.tiles.sum_width
    unfold spans at hsum
    rw [hold, map_cons, cons_append, map_cons, sum_cons] at hsum
    have hwidth : Tiles.width (bucketSpan b) = b.posHi - b.posLo + 1 := rfl
    omega
  unfold Lane.evictBucket at herr
  split at herr
  · cases herr
    exact fun hcause => nomatch hcause
  rw [hdebit, checkedSub_of_le htotal] at herr
  dsimp only [orWrapped, bind, Except.bind] at herr
  split at herr
  · cases herr
    exact fun hcause => nomatch hcause
  rw [checkedSub_of_le hraw, checkedSub_of_le hcover] at herr
  cases herr

/-- What evictions leave alone. -/
structure Shortened (lane lane' : Lane) : Prop where
  params : lane'.params = lane.params
  tables : lane'.tables = lane.tables
  nextPos : lane'.nextPos = lane.nextPos
  base : lane'.base = lane.base
  l0 : lane'.l0 = lane.l0
  ridge : lane'.ridge = lane.ridge

theorem Balanced.evictLoop {rounds : Nat} (h : lane.Balanced) (hrounds : lane.cover ≤ rounds)
    (hok : evictLoop env resolver rounds lane = .ok lane') :
    lane'.Balanced ∧ Shortened lane lane' ∧ lane'.cover ≤ lane'.params.window.val := by
  induction rounds generalizing lane with
  | zero =>
    cases hok
    exact ⟨h, ⟨rfl, rfl, rfl, rfl, rfl, rfl⟩, by omega⟩
  | succ rounds ih =>
    unfold Lane.evictLoop at hok
    split at hok
    · obtain ⟨next, hevict, hrest⟩ := bind_eq_ok.mp hok
      obtain ⟨k, b, rest, hk, hfront, hbucket⟩ := evictOldestBucket_eq_ok hevict
      obtain ⟨hnext, hlt⟩ := h.evictBucket hk hfront hbucket
      have hkept : Shortened lane next := by
        obtain ⟨_, _, _, _, -, -, -, -, -, rfl⟩ := evictBucket_eq_ok hbucket
        exact ⟨rfl, rfl, rfl, rfl, rfl, rfl⟩
      obtain ⟨hlast, hkept', hcover⟩ := ih hnext (by omega) hrest
      exact ⟨hlast, ⟨hkept'.params.trans hkept.params, hkept'.tables.trans hkept.tables,
        hkept'.nextPos.trans hkept.nextPos, hkept'.base.trans hkept.base,
        hkept'.l0.trans hkept.l0, hkept'.ridge.trans hkept.ridge⟩, hcover⟩
    · cases hok
      exact ⟨h, ⟨rfl, rfl, rfl, rfl, rfl, rfl⟩, by omega⟩

theorem Balanced.evictLoop_not_wrapped {rounds : Nat} (h : lane.Balanced)
    (herr : Lane.evictLoop env resolver rounds lane = .error f) : f.cause ≠ .wrapped := by
  induction rounds generalizing lane with
  | zero => cases herr
  | succ rounds ih =>
    unfold Lane.evictLoop at herr
    split at herr
    · rcases bind_eq_error.mp herr with herr | ⟨next, hevict, herr⟩
      · unfold evictOldestBucket at herr
        split at herr
        · cases herr
          exact fun hcause => nomatch hcause
        rename_i k hk
        split at herr
        · cases herr
          exact fun hcause => nomatch hcause
        · rename_i b rest hfront
          exact h.evictBucket_not_wrapped hk hfront herr
      · obtain ⟨k, b, rest, hk, hfront, hbucket⟩ := evictOldestBucket_eq_ok hevict
        exact ih (h.evictBucket hk hfront hbucket).1 herr
    · cases herr

/-- A lane between two calls. -/
structure Sound (lane : Lane) : Prop where
  balanced : lane.Balanced
  next_le : lane.nextPos ≤ lane.base + lane.params.epochLen
  l0_le : lane.l0.length ≤ lane.params.c0
  cover_le : lane.cover ≤ lane.params.window.val
  epochLen : lane.tables.epochLen = lane.params.epochLen
  maxEpochs : lane.tables.maxEpochs = lane.params.maxEpochs

theorem Sound.of_equiv (h : lane.Sound) (hsame : lane' ≈ lane) : lane'.Sound := by
  refine ⟨h.balanced.of_equiv hsame, ?_, ?_, ?_, ?_, ?_⟩
  · rw [hsame.nextPos, hsame.base, hsame.params]
    exact h.next_le
  · rw [hsame.pos.l0, hsame.params]
    exact h.l0_le
  · rw [hsame.pos.cover, hsame.params]
    exact h.cover_le
  · rw [hsame.tables, hsame.params]
    exact h.epochLen
  · rw [hsame.tables, hsame.params]
    exact h.maxEpochs

theorem Sound.rebuildIfDue (h : lane.Sound) :
    ∃ start, lane.rebuildIfDue = .ok start ∧ start.Balanced ∧ start.params = lane.params ∧
      start.tables = lane.tables ∧ start.l0.length ≤ start.params.c0 ∧
      start.nextPos < start.base + start.params.c0 ∧ start.ridge = lane.ridge := by
  have hc0 := h.balanced.geometry.c0_pos
  have hnext : lane.nextPos ≤ lane.base + lane.params.c0 := h.next_le
  unfold Lane.rebuildIfDue
  by_cases hdue : lane.nextPos - lane.base = lane.params.epochLen
  · rw [if_pos hdue]
    have hrun : ∃ start, lane.epochRebuild = .ok start := by
      unfold Lane.epochRebuild
      rw [if_neg (by simpa using hdue)]
      exact ⟨_, rfl⟩
    obtain ⟨start, hstart⟩ := hrun
    obtain ⟨hbal, hsync, hlen, -, hparams, htables, hridge⟩ :=
      h.balanced.epochRebuild h.epochLen hstart
    refine ⟨start, hstart, hbal, hparams, htables, ?_, ?_, hridge⟩
    · rw [hlen, hparams]
      exact h.l0_le
    · rw [hsync, hparams]
      omega
  rw [if_neg hdue]
  have hne : lane.nextPos - lane.base ≠ lane.params.c0 := hdue
  exact ⟨lane, rfl, h.balanced, rfl, rfl, h.l0_le, by omega, rfl⟩

/-- Steps (1) to (3) of a push never throw, and make room for the share. -/
theorem Sound.settle (h : lane.Sound) :
    ∃ settled, lane.settle = .ok settled ∧ settled.Balanced ∧ settled.params = lane.params ∧
      settled.tables = lane.tables ∧ settled.l0.length < settled.params.c0 ∧
      settled.nextPos < settled.base + settled.params.c0 ∧ settled.ridge = lane.ridge := by
  obtain ⟨start, hstart, hbal, hparams, htables, hlen, hframe, hridge⟩ := h.rebuildIfDue
  have hfold : ∃ folded, start.foldIfFull = .ok folded ∧ folded.Balanced ∧
      Rearranged start folded ∧ folded.l0.length < start.params.c0 := by
    unfold foldIfFull
    by_cases hfull : start.l0.length = start.params.c0
    · rw [if_pos hfull]
      obtain ⟨folded, hfolded⟩ := hbal.foldL0_ok
      obtain ⟨hfoldBal, hre, hlt⟩ := hbal.foldL0 hfull hframe hfolded
      exact ⟨folded, hfolded, hfoldBal, hre, hlt⟩
    · rw [if_neg hfull]
      exact ⟨start, rfl, hbal, ⟨rfl, rfl, rfl, rfl, rfl, rfl, rfl, rfl, rfl, rfl, rfl⟩, by omega⟩
  obtain ⟨folded, hfolded, hfoldBal, hre, hlt⟩ := hfold
  obtain ⟨hcascade, hre', hl0⟩ := hfoldBal.cascadeFolds
  have hall := hre.trans hre'
  refine ⟨folded.cascadeFolds, ?_, hcascade, ?_, ?_, ?_, ?_, ?_⟩
  · unfold Lane.settle
    rw [hstart]
    show start.foldIfFull >>= _ = _
    rw [hfolded]
    rfl
  · rw [hall.params, hparams]
  · rw [hall.tables, htables]
  · rw [hl0, hall.params]
    exact hlt
  · rw [hall.nextPos, hall.base, hall.params]
    exact hframe
  · rw [hall.ridge, hridge]

theorem Sound.pushPositional
    (h : lane.Sound) (hok : lane.pushPositional env resolver a = .ok lane') :
    lane'.Sound ∧ lane'.params = lane.params ∧ lane'.ridge = lane.ridge := by
  obtain ⟨settled, hsettle, hevict⟩ := bind_eq_ok.mp hok
  obtain ⟨settled', hsettle', hbal, hparams, htables, hlen, hframe, hridge⟩ := h.settle
  rw [hsettle] at hsettle'
  cases hsettle'
  obtain ⟨hlast, hkept, hcover⟩ := (hbal.insertSlot a).evictLoop (Nat.le_refl _) hevict
  refine ⟨⟨hlast, ?_, ?_, hcover, ?_, ?_⟩, hkept.params.trans hparams, hkept.ridge.trans hridge⟩
  · rw [hkept.nextPos, hkept.base, hkept.params]
    exact hframe
  · rw [hkept.l0, hkept.params]
    show (settled.l0 ++ [_]).length ≤ settled.params.c0
    rw [length_append]
    exact hlen
  · rw [hkept.tables, hkept.params]
    show settled.tables.epochLen = settled.params.epochLen
    rw [htables, hparams]
    exact h.epochLen
  · rw [hkept.tables, hkept.params]
    show settled.tables.maxEpochs = settled.params.maxEpochs
    rw [htables, hparams]
    exact h.maxEpochs

theorem Sound.pushPositional_not_wrapped (h : lane.Sound)
    (herr : lane.pushPositional env resolver a = .error f) : f.cause ≠ .wrapped := by
  obtain ⟨settled, hsettle, hbal, -⟩ := h.settle
  unfold Lane.pushPositional at herr
  rw [hsettle] at herr
  exact (hbal.insertSlot a).evictLoop_not_wrapped herr

/-! ## Runs -/

theorem nr_off (h : lane.params.nr.activationPos = none) :
    ¬ lane.nrActive ∧ ¬ lane.nrActivating := by
  constructor
  · rintro ⟨-, hpos, -⟩
    rw [h] at hpos
    exact hpos
  rintro ⟨-, hpos⟩
  rw [h] at hpos
  cases hpos

theorem push_of_off
    (h : lane.params.nr.activationPos = none) (hok : lane.push env resolver a = .ok lane') :
    lane.pushPositional env resolver a = .ok lane' := by
  obtain ⟨hactive, hactivating⟩ := nr_off h
  unfold push at hok
  split at hok
  · cases hok
  split at hok
  · cases hok
  exact hok

/-- A lane of a run, with the lanes its journal can lead back to. -/
structure Tracked (env : Env) (p : LaneParams) (lane : Lane) : Prop where
  sound : lane.Sound
  params : lane.params = p
  scaled : lane.Scaled env
  history : ∃ earlier, History env True lane.journal lane earlier ∧
    ∀ s ∈ earlier, s.Sound ∧ s.params = p

theorem Tracked.push (h : Tracked env p lane) (hoff : p.nr.activationPos = none)
    (hok : lane.push env resolver a = .ok lane') : Tracked env p lane' := by
  have hpos := push_of_off (h.params ▸ hoff) hok
  obtain ⟨hsound, hparams, -⟩ := h.sound.pushPositional hpos
  obtain ⟨earlier, hhistory, hall⟩ := h.history
  obtain ⟨earlier', hhistory', -, hinit, -⟩ := pushPositional_history hhistory
    (nil_append _).symm (by simp) (fun _ hs => hs) hpos
  obtain ⟨hridge, -, -⟩ := pushPositional_ridge hpos
  refine ⟨hsound, hparams.trans h.params, h.scaled.of_ridge hridge hparams, earlier', hhistory', ?_⟩
  intro s hs
  rcases mem_cons.mp (hinit.subset hs) with rfl | hs
  · exact ⟨h.sound, h.params⟩
  · exact hall s hs

theorem Tracked.rewind (h : Tracked env p lane)
    (d : Nat) : ∃ served lane', lane.rewind env d = .ok (served, lane') ∧ Tracked env p lane' := by
  obtain ⟨earlier, hhistory, hall⟩ := h.history
  have hpend : lane.journal = [] ++ lane.journal := (nil_append _).symm
  cases d with
  | zero =>
    rcases hhistory.rewind_zero hpend (by simp) h.scaled (fun _ hs => hs) with
      ⟨r, hrewind, hlike, hjournal⟩ | ⟨htotal, -⟩
    swap
    · exact absurd trivial htotal
    have hr : r ≈ lane := Setoid.trans (Setoid.symm r.unlogged_equiv) hlike.1
    refine ⟨true, r, hrewind, h.sound.of_equiv hr, hr.params.trans h.params,
      hlike.2.of_ridge rfl rfl, earlier, ?_, hall⟩
    rw [hjournal]
    exact hhistory.of_equiv hr
  | succ d =>
    by_cases hd : d < earlier.length
    · rcases hhistory.rewind hpend (by simp) h.scaled (fun _ hs => hs) hd with
        ⟨r, hrewind, hlike, hrest⟩ | ⟨htotal, -⟩
      swap
      · exact absurd trivial htotal
      have hr : r ≈ earlier[d] := Setoid.trans (Setoid.symm r.unlogged_equiv) hlike.1
      have hback := hall _ (getElem_mem hd)
      refine ⟨true, r, hrewind, hback.1.of_equiv hr, hr.params.trans hback.2,
        hlike.2.of_ridge rfl rfl, _, hrest, ?_⟩
      intro s hs
      exact hall s (mem_of_mem_drop hs)
    · exact ⟨false, lane, hhistory.rewind_refused hpend (by simp) (by omega), h⟩

theorem setWidth_of_off {w : U64} (h : lane.params.nr.activationPos = none) :
    ∃ f, lane.nrSetWidth env resolver w = .error f ∧ f.cause ≠ .wrapped := by
  unfold nrSetWidth
  cases resolver with
  | none => exact ⟨_, rfl, fun hcause => nomatch hcause⟩
  | some id =>
    dsimp only
    rw [if_pos (.inl (nr_off h).1)]
    exact ⟨_, rfl, fun hcause => nomatch hcause⟩

theorem Tracked.call (h : Tracked env p lane) (hoff : p.nr.activationPos = none) {c : Call}
    (hok : lane.call env c = .ok lane') : Tracked env p lane' := by
  cases c with
  | push resolver a => exact h.push hoff hok
  | setWidth resolver w =>
    obtain ⟨f, herr, -⟩ := setWidth_of_off (h.params ▸ hoff)
    exact absurd (hok.symm.trans herr) (fun hne => nomatch hne)
  | rewind d =>
    obtain ⟨served, back, hrewind, htracked⟩ := h.rewind d
    have hback : (lane.rewind env d).map Prod.snd = .ok back := by
      rw [hrewind]
      rfl
    cases hok.symm.trans hback
    exact htracked

theorem Tracked.call_not_wrapped (h : Tracked env p lane) (hoff : p.nr.activationPos = none)
    {c : Call} (herr : lane.call env c = .error f) : f.cause ≠ .wrapped := by
  have hoff' : lane.params.nr.activationPos = none := h.params ▸ hoff
  cases c with
  | push resolver a =>
    have herr : lane.push env resolver a = .error f := herr
    unfold Lane.push at herr
    split at herr
    · cases herr
      exact fun hcause => nomatch hcause
    split at herr
    · cases herr
      exact fun hcause => nomatch hcause
    rw [if_neg (nr_off hoff').1, if_neg (nr_off hoff').2] at herr
    exact h.sound.pushPositional_not_wrapped herr
  | setWidth resolver w =>
    obtain ⟨f', herr', hcause⟩ := setWidth_of_off hoff'
    cases herr.symm.trans herr'
    exact hcause
  | rewind d =>
    obtain ⟨served, back, hrewind, -⟩ := h.rewind d
    have hback : (lane.rewind env d).map Prod.snd = .ok back := by
      rw [hrewind]
      rfl
    cases herr.symm.trans hback

structure Exact (lane : Lane) : Prop where
  acc : ∀ m, lane.acc.amount m = Ledger.sumOf (lane.holdings lane.base) m
  accTotal : lane.accTotal = ((lane.holdings lane.base).map Prod.snd).sum
  rawTotal : lane.rawTotal = (lane.l0.map fun s => s.wRaw.val).sum +
    (lane.bucketList.map fun b => b.rawWork).sum
  l0ScaledSum : lane.l0ScaledSum = (lane.l0.map fun s => s.wScaled).sum
  l0RawSum : lane.l0RawSum = (lane.l0.map fun s => s.wRaw.val).sum
  carryTotal : lane.carryTotal = lane.carry.total
  cover_le_next : lane.cover ≤ lane.nextPos
  tiles : Tiles (lane.nextPos - lane.cover) lane.spans lane.nextPos
  cover_le : lane.cover ≤ lane.params.window.val
  accRange : lane.accTotal < 2 ^ 192
  rawRange : lane.rawTotal < 2 ^ 128
  carryRange : lane.carryTotal < 2 ^ 156
  slotRange : ∀ s ∈ lane.l0, s.wScaled < 2 ^ 128
  tags : ∀ b ∈ lane.bucketList, b.epochTag ≤ lane.base ∧
    (lane.base - b.epochTag) / lane.params.epochLen ≤ lane.tables.maxEpochs

theorem Sound.exact {lane : Lane} (h : lane.Sound) : lane.Exact := by
  have hbal := h.balanced
  have hsums : ∀ m, Ledger.sumOf (lane.holdings lane.base) m =
      Ledger.sumOf (slotRows lane.l0 ++ lane.heldBy lane.base lane.column) m := by
    intro m
    rw [sumOf_holdings, sumOf_append]
    rfl
  have hwidths := hbal.tiles.sum_width
  unfold spans at hwidths
  rw [map_append, sum_append_nat] at hwidths
  have hnext := hbal.cover_le
  have hcover := h.cover_le
  refine
    { acc := fun m => by rw [hbal.acc, hsums, sumOf_append]
      accTotal := ?_
      rawTotal := ?_
      l0ScaledSum := hbal.l0ScaledSum
      l0RawSum := hbal.l0RawSum
      carryTotal := hbal.carryTotal
      cover_le_next := hnext
      tiles := hbal.tiles
      cover_le := hcover
      accRange := ?_
      rawRange := ?_
      carryRange := hbal.headroom
      slotRange := hbal.slot
      tags := ?_ }
  · rw [hbal.accTotal, sum_eq_of_sumOf_eq hsums, map_append, sum_append_nat]
  · rw [hbal.rawTotal, (lane.bucketList_perm.map _).sum_eq]
  · have hslots : ((slotRows lane.l0).map Prod.snd).sum ≤
        ((lane.l0.map slotSpan).map Tiles.width).sum * 2 ^ 128 := by
      unfold slotRows
      rw [map_map, map_map]
      apply sum_map_le_mul
      intro s hs
      have hs := hbal.slot s hs
      show s.wScaled ≤ (s.pos - s.pos + 1) * 2 ^ 128
      omega
    have hheld := sum_heldBy_le hbal.ladder lane.base hbal.bucket
    rw [hbal.accTotal]
    omega
  · have hslots : (lane.l0.map fun s => s.wRaw.val).sum ≤
        ((lane.l0.map slotSpan).map Tiles.width).sum * 2 ^ 64 := by
      rw [map_map]
      apply sum_map_le_mul
      intro s _
      show s.wRaw.val ≤ (s.pos - s.pos + 1) * 2 ^ 64
      omega
    have hraws : (lane.column.map fun b => b.rawWork).sum ≤
        ((lane.column.map bucketSpan).map Tiles.width).sum * 2 ^ 64 := by
      rw [map_map]
      exact sum_map_le_mul _ _ _ _ fun b hb => (hbal.bucket b hb).rawLight
    rw [hbal.rawTotal]
    omega
  · intro b hb
    have hb : b ∈ lane.column := lane.bucketList_perm.mem_iff.mp hb
    have hok := hbal.bucket b hb
    have hspan := hbal.tiles.bounds (mem_append_left _ (mem_map_of_mem hb))
    have hlo : lane.nextPos - lane.cover ≤ b.posLo := hspan.1
    have hgt := hok.tag_gt
    have hle := hok.tag_le
    have hbase := hbal.base_le
    rw [h.maxEpochs]
    unfold LaneParams.maxEpochs
    have hage : lane.base - b.epochTag ≤ lane.params.window.val := by omega
    have hdiv := Nat.div_le_div_right (c := lane.params.epochLen) hage
    split
    · rename_i hwin
      have hmore := Nat.div_le_div_right (c := lane.params.epochLen) hwin.2.le
      omega
    · omega

theorem create_tracked (h : create env p = .ok lane) : Tracked env p lane := by
  obtain ⟨tables, hconstruct, h⟩ := bind_eq_ok.mp h
  cases h
  obtain ⟨hgeometry, -, hladder, hlen, hmax, -⟩ := LaneParams.construct_spec hconstruct
  have hempty : ∀ n, stack (fun _ => []) n = [] := by
    intro n
    induction n with
    | zero => rfl
    | succ n ih => exact ih
  refine ⟨⟨?_, zero_le _, zero_le _, zero_le _, hlen, hmax⟩, rfl,
    ⟨(fun _ _ _ hc => nomatch hc), (fun _ _ hc => nomatch hc)⟩, [], .fresh _, by simp⟩
  have hcolumn : column
      { toPositional := emptyPositional, params := p, tables := tables, nextPos := 0, base := 0
        mmr := PeakSet.empty, ckpts := [], ridge := emptyRidge, journal := [] } = [] := hempty _
  refine
    { geometry := hgeometry
      ladder := hladder
      base_le := Nat.le_refl _
      cover_le := Nat.le_refl _
      tiles := ?_
      bucket := ?_
      slot := fun s hs => nomatch hs
      acc := ?_
      accTotal := ?_
      rawTotal := ?_
      l0ScaledSum := rfl
      l0RawSum := rfl
      carryTotal := rfl
      headroom := Nat.two_pow_pos _ }
  · unfold spans
    rw [hcolumn]
    rfl
  · rw [hcolumn]
    exact fun b hb => nomatch hb
  · rw [hcolumn]
    exact fun m => rfl
  · rw [hcolumn]
    rfl
  · rw [hcolumn]
    rfl

/-- After every run of successful calls on a lane without window and ridge, the
accumulators are the sums of what the lane holds, its slots and buckets tile the
positions it covers, and no subtraction of the next call wraps around. -/
theorem run_exact {env : Env} {p : LaneParams} (_hwin : p.win.activationPos = none)
    (hnr : p.nr.activationPos = none) {lane₀ lane : Lane} (hcreate : create env p = .ok lane₀)
    {calls : List Call} (hrun : PartialRun.run (call env) lane₀ calls = .ok lane) :
    lane.Exact ∧ ∀ c f, lane.call env c = .error f → f.cause ≠ .wrapped := by
  have htracked : Tracked env p lane :=
    run_invariant (fun _ _ _ h hstep => h.call hnr hstep) (create_tracked hcreate) hrun
  exact ⟨htracked.sound.exact, fun c f herr => htracked.call_not_wrapped hnr herr⟩

/-- Two bucket levels over a ring of four, the carry active from the start. -/
def smallParams : LaneParams :=
  { window := 8, c0 := 4, rollup := 2, levelCaps := [2, 2], halfLife := 10, journalDepth := 3
    mrr := { activationPos := some 0 } }

def smallEnv : Env := ⟨⟨fun _ => qOne, fun _ => qOne⟩, fun _ => 0⟩

/-- Fourteen shares of two miners, with a rewind of two of them. -/
def smallCalls : List Call :=
  let share (m : MinerId) : Call :=
    .push (some fun m => Fin.ofNat _ m.val) { miner := m, wRaw := 7 }
  [share 1, share 2, share 1, share 2, share 1, share 1, share 2, share 1, share 1, share 2,
    share 1, .rewind 2, share 2, share 2, share 1, share 2, share 2]

def finishes (env : Env) (p : LaneParams) (calls : List Call) : Bool :=
  match create env p with
  | .error _ => false
  | .ok lane =>
    match PartialRun.run (call env) lane calls with
    | .error _ => false
    | .ok _ => true

theorem run_exact_smallCalls :
    ∃ lane₀ lane, create smallEnv smallParams = .ok lane₀ ∧
      PartialRun.run (call smallEnv) lane₀ smallCalls = .ok lane ∧ lane.Exact := by
  have hfinishes : finishes smallEnv smallParams smallCalls = true := by decide +kernel
  unfold finishes at hfinishes
  cases hcreate : create smallEnv smallParams with
  | error e => simp [hcreate] at hfinishes
  | ok lane₀ =>
    cases hrun : PartialRun.run (call smallEnv) lane₀ smallCalls with
    | error e => simp [hcreate, hrun] at hfinishes
    | ok lane => exact ⟨lane₀, lane, rfl, hrun, (run_exact rfl rfl hcreate hrun).1⟩

def pushAll (env : Env) (lane : Lane) (shares : List (Option Resolver × WorkAtom)) : Attempt Lane :=
  shares.foldlM (fun lane s => lane.push env s.1 s.2) lane

def SameEpoch (env : Env) : Lane → List (Option Resolver × WorkAtom) → Prop
  | _, [] => True
  | lane, s :: shares => lane.nextPos - lane.base ≠ lane.params.epochLen ∧
    ∀ next, lane.push env s.1 s.2 = .ok next → SameEpoch env next shares

theorem Tracked.pushAll {earlier : List Lane} (h : Tracked env p lane)
    (hoff : p.nr.activationPos = none) (hhistory : History env True lane.journal lane earlier)
    (hpushes : lane.pushAll env shares = .ok last) :
    Tracked env p last ∧ ∃ earlier' passed, History env True last.journal last earlier' ∧
      passed.length = shares.length ∧ earlier' <+: passed ++ earlier ∧
      (∀ x, passed.getLast? = some x → x = lane) ∧
      (shares.length ≤ p.journalDepth → SameEpoch env lane shares →
        ∀ m, m ≤ earlier.length → min (m + shares.length) p.journalDepth ≤ earlier'.length) := by
  induction shares generalizing lane earlier with
  | nil =>
    cases hpushes
    exact ⟨h, earlier, [], hhistory, rfl, prefix_rfl, nofun,
      fun _ _ m hm => (min_le_left _ _).trans hm⟩
  | cons s shares ih =>
    obtain ⟨next, hnext, hrest⟩ := bind_eq_ok.mp hpushes
    obtain ⟨earlier₁, hhistory₁, -, hprefix, htake⟩ := pushPositional_history hhistory
      (nil_append _).symm (by simp) (fun _ hs => hs) (push_of_off (h.params ▸ hoff) hnext)
    obtain ⟨hlast, earlier', passed, hhistory', hlength, hearlier, -, hdeep⟩ :=
      ih (h.push hoff hnext) hhistory₁ hrest
    refine ⟨hlast, earlier', passed ++ [lane], hhistory', by simp [hlength], ?_, ?_, ?_⟩
    · rw [append_assoc]
      exact hearlier.trans (prefix_append_right_inj passed |>.mpr hprefix)
    · simp
    · rintro hdepth ⟨hepoch, hsame⟩ m hm
      rw [length_cons] at hdepth ⊢
      rw [h.params] at htake hepoch
      have hmore := hdeep (by omega) (hsame next hnext) (min p.journalDepth (m + 1))
      rw [htake hepoch (by omega), length_take, length_cons] at hmore
      have := hmore (by omega)
      omega

/-- **A rewind is the inverse of its pushes.**  On a lane of a run without window and ridge, after
any pushes, a rewind of as many either leads back to the lane they started from or changes nothing;
it does the first when the journal is deep enough and no push has rebuilt the epoch. -/
theorem run_rewind_inverts (_hwin : p.win.activationPos = none) (hnr : p.nr.activationPos = none)
    {lane₀ : Lane} (hcreate : create env p = .ok lane₀) {calls : List Call}
    (hrun : PartialRun.run (call env) lane₀ calls = .ok lane)
    (hpushes : lane.pushAll env shares = .ok last) :
    ∃ served r, last.rewind env shares.length = .ok (served, r) ∧ (served = true → r ≈ lane) ∧
      (served = false → r = last) ∧
      (shares.length ≤ p.journalDepth → SameEpoch env lane shares → served = true) := by
  have htracked : Tracked env p lane :=
    run_invariant (fun _ _ _ h hstep => h.call hnr hstep) (create_tracked hcreate) hrun
  obtain ⟨earlier, hhistory, -⟩ := htracked.history
  obtain ⟨hlast, earlier', passed, hhistory', hlength, hearlier, hfirst, hdeep⟩ :=
    htracked.pushAll hnr hhistory hpushes
  have hpend : last.journal = [] ++ last.journal := (nil_append _).symm
  cases hcount : shares.length with
  | zero =>
    obtain rfl := length_eq_zero_iff.mp hcount
    cases hpushes
    rcases hhistory'.rewind_zero hpend (by simp) hlast.scaled (fun _ hs => hs) with
      ⟨r, hrewind, hlike, -⟩ | ⟨htotal, -⟩
    · exact ⟨true, r, hrewind, fun _ => Setoid.trans (Setoid.symm r.unlogged_equiv) hlike.1, nofun,
        fun _ _ => rfl⟩
    · exact absurd trivial htotal
  | succ d =>
    by_cases hd : d < earlier'.length
    · rcases hhistory'.rewind hpend (by simp) hlast.scaled (fun _ hs => hs) hd with
        ⟨r, hrewind, hlike, -⟩ | ⟨htotal, -⟩
      swap
      · exact absurd trivial htotal
      have hback : earlier'[d] = lane := by
        rw [hearlier.getElem hd, getElem_append_left (by omega)]
        apply hfirst
        rw [getLast?_eq_getElem?, show passed.length - 1 = d by omega]
        exact getElem?_eq_getElem _
      refine ⟨true, r, hrewind, fun _ => ?_, nofun, fun _ _ => rfl⟩
      rw [← hback]
      exact Setoid.trans (Setoid.symm r.unlogged_equiv) hlike.1
    · refine ⟨false, last, hhistory'.rewind_refused hpend (by simp) (by omega), nofun,
        fun _ => rfl, ?_⟩
      intro hdepth hsame
      have := hdeep (by omega) hsame 0 (Nat.zero_le _)
      omega

theorem run_rewind_inverts_small :
    let s : Option Resolver × WorkAtom :=
      (some fun m => Fin.ofNat _ m.val, { miner := 1, wRaw := 7 })
    ∃ lane₀ lane last r, create smallEnv smallParams = .ok lane₀ ∧
      PartialRun.run (call smallEnv) lane₀ smallCalls = .ok lane ∧
      lane.pushAll smallEnv [s, s] = .ok last ∧ last.rewind smallEnv 2 = .ok (true, r) ∧
        r ≈ lane := by
  intro s
  have hserved : ((create smallEnv smallParams).toOption.bind fun lane₀ =>
      (PartialRun.run (call smallEnv) lane₀ smallCalls).toOption.bind fun lane =>
        (lane.pushAll smallEnv [s, s]).toOption.map fun last =>
          (last.rewind smallEnv 2).toOption.map Prod.fst) = some (some true) := by decide +kernel
  obtain ⟨lane₀, hcreate, h⟩ := Option.bind_eq_some_iff.mp hserved
  obtain ⟨lane, hrun, h⟩ := Option.bind_eq_some_iff.mp h
  obtain ⟨last, hpushes, h⟩ := Option.map_eq_some_iff.mp h
  rw [toOption_eq_some] at hcreate hrun hpushes
  obtain ⟨served, r, hrewind, hback, -⟩ := run_rewind_inverts rfl rfl hcreate hrun hpushes
  change last.rewind smallEnv 2 = _ at hrewind
  rw [hrewind] at h
  cases h
  exact ⟨lane₀, lane, last, r, hcreate, hrun, hpushes, hrewind, hback rfl⟩

end Lane

end C2Pool.V37
