import C2Pool.V37.LaneColumn
import C2Pool.V37.LaneHistory

/-! # The accumulators are sums

`Balanced` says that the accumulators of a lane are the sums of what its slots and buckets are worth
in the frame of the epoch base, and that these tile the positions the lane covers. Every step of a
positional push keeps it.
-/

namespace C2Pool.V37

open List UndoLog Ledger

def slotSpan (s : L0Slot) : Nat × Nat := (s.pos, s.pos)

def bucketSpan (b : Bucket) : Nat × Nat := (b.posLo, b.posHi)

def slotRows (slots : List L0Slot) : List (MinerId × Nat) := slots.map fun s => (s.miner, s.wScaled)

/-- A bucket of a lane whose epoch base is `base`. -/
structure BucketOk (base : Nat) (b : Bucket) : Prop where
  tag_gt : b.posLo < b.epochTag
  tag_le : b.epochTag ≤ base
  light : ((Lane.worth qOne b).map Prod.snd).sum ≤ Tiles.width (bucketSpan b) * 2 ^ 128
  rawLight : b.rawWork ≤ Tiles.width (bucketSpan b) * 2 ^ 64

namespace Lane

def spans (lane : Lane) : List (Nat × Nat) :=
  lane.column.map bucketSpan ++ lane.l0.map slotSpan

structure Balanced (lane : Lane) : Prop where
  geometry : lane.params.Geometry
  ladder : lane.tables.Ladder
  base_le : lane.base ≤ lane.nextPos
  cover_le : lane.cover ≤ lane.nextPos
  tiles : Tiles (lane.nextPos - lane.cover) lane.spans lane.nextPos
  bucket : ∀ b ∈ lane.column, BucketOk lane.base b
  slot : ∀ s ∈ lane.l0, s.wScaled < 2 ^ 128
  acc : ∀ m, lane.acc.amount m =
    Ledger.sumOf (slotRows lane.l0) m + Ledger.sumOf (lane.heldBy lane.base lane.column) m
  accTotal : lane.accTotal = ((slotRows lane.l0).map Prod.snd).sum +
    ((lane.heldBy lane.base lane.column).map Prod.snd).sum
  rawTotal : lane.rawTotal = (lane.l0.map fun s => s.wRaw.val).sum +
    (lane.column.map fun b => b.rawWork).sum
  l0ScaledSum : lane.l0ScaledSum = (lane.l0.map fun s => s.wScaled).sum
  l0RawSum : lane.l0RawSum = (lane.l0.map fun s => s.wRaw.val).sum
  carryTotal : lane.carryTotal = lane.carry.total
  headroom : lane.carryTotal < carryLimit

variable {lane lane' : Lane}

theorem heldBy_congr (hparams : lane'.params = lane.params) (htables : lane'.tables = lane.tables)
    (base : Nat) (bs : List Bucket) : lane'.heldBy base bs = lane.heldBy base bs := by
  unfold heldBy shift
  rw [hparams, htables]

theorem shift_self (hladder : lane.tables.Ladder) {b : Bucket} {base : Nat}
    (h : b.epochTag = base) : lane.shift base b = qOne := by
  unfold shift
  rw [h, Nat.sub_self, Nat.zero_div]
  exact hladder.shift_zero

theorem sum_worth_le {f : U64} (hf : f ≤ qOne) (b : Bucket) :
    ((worth f b).map Prod.snd).sum ≤ ((worth qOne b).map Prod.snd).sum := by
  unfold worth
  rw [map_map, map_map]
  apply sum_le_sum
  intro e _
  simp only [Function.comp_apply, mulQ_qOne]
  exact mulQ_le hf e.2.1

/-- Two lanes that differ in what `Same` leaves out are balanced together. -/
theorem Balanced.of_equiv (h : lane.Balanced) (hsame : lane' ≈ lane) : lane'.Balanced := by
  obtain ⟨hparams, htables, hnext, hbase, -, -, hpos, -⟩ := hsame
  have hcolumn : lane'.column = lane.column := by
    unfold column numLevels
    rw [hparams, hpos.levels]
  have hheld : lane'.heldBy lane'.base lane'.column = lane.heldBy lane.base lane.column := by
    rw [heldBy_congr hparams htables, hbase, hcolumn]
  refine
    { geometry := hparams ▸ h.geometry
      ladder := htables ▸ h.ladder
      base_le := by rw [hbase, hnext]; exact h.base_le
      cover_le := by rw [hpos.cover, hnext]; exact h.cover_le
      tiles := ?_
      bucket := ?_
      slot := by rw [hpos.l0]; exact h.slot
      acc := ?_
      accTotal := by rw [hpos.accTotal, hpos.l0, hheld]; exact h.accTotal
      rawTotal := by rw [hpos.rawTotal, hpos.l0, hcolumn]; exact h.rawTotal
      l0ScaledSum := by rw [hpos.l0ScaledSum, hpos.l0]; exact h.l0ScaledSum
      l0RawSum := by rw [hpos.l0RawSum, hpos.l0]; exact h.l0RawSum
      carryTotal := ?_
      headroom := by rw [hpos.carryTotal]; exact h.headroom }
  · unfold spans
    rw [hnext, hpos.cover, hcolumn, hpos.l0]
    exact h.tiles
  · rw [hcolumn, hbase]
    exact h.bucket
  · intro m
    rw [hpos.acc, hpos.l0, hheld]
    exact h.acc m
  · rw [hpos.carryTotal, h.carryTotal]
    exact total_congr fun m => (hpos.carry m).symm

theorem rebasedCarry_total_le (hladder : lane.tables.Ladder)
    (hlen : lane.tables.epochLen = lane.params.epochLen) :
    lane.rebasedCarry.total ≤ lane.carry.total := by
  unfold rebasedCarry Ledger.total SortedMap.sum SortedMap.filterMap
  dsimp only
  induction lane.carry.entries with
  | nil => exact Nat.le_refl _
  | cons e rest ih =>
    have hle : mulQ e.2 (lane.tables.decay lane.params.epochLen) ≤ e.2 :=
      mulQ_le (hlen ▸ hladder.decay_epoch_le) e.2
    rw [filterMap_cons, map_cons, sum_cons]
    split
    · omega
    rename_i row hrow
    split at hrow
    · cases hrow
    cases hrow
    rw [map_cons, sum_cons]
    dsimp only
    omega

theorem rebaseSlot_lt (lane : Lane) (base : Nat) (s : L0Slot) :
    (lane.rebaseSlot base s).wScaled < 2 ^ 128 := by
  calc s.wRaw.val * (lane.tables.decay (base - s.pos)).val
      < 2 ^ 64 * 2 ^ 64 := Nat.mul_lt_mul'' s.wRaw.isLt (lane.tables.decay _).isLt

theorem Balanced.epochRebuild (h : lane.Balanced)
    (hlen : lane.tables.epochLen = lane.params.epochLen) (hok : lane.epochRebuild = .ok lane') :
    lane'.Balanced ∧ lane'.base = lane'.nextPos ∧ lane'.l0.length = lane.l0.length ∧
      lane'.cover = lane.cover ∧ lane'.params = lane.params ∧ lane'.tables = lane.tables ∧
      lane'.ridge = lane.ridge := by
  unfold Lane.epochRebuild at hok
  split at hok
  · cases hok
  have hbase : lane.base + lane.params.epochLen = lane.nextPos := by
    have := h.base_le
    omega
  cases hok
  refine ⟨?_, hbase, ?_, rfl, rfl, rfl, rfl⟩
  rotate_left
  · simp
  have hsums : ∀ m, Ledger.sumOf
      ({ lane with l0 := lane.l0.map (lane.rebaseSlot (lane.base + lane.params.epochLen)) }.holdings
        (lane.base + lane.params.epochLen)) m =
      Ledger.sumOf (slotRows (lane.l0.map (lane.rebaseSlot (lane.base + lane.params.epochLen)))) m +
        Ledger.sumOf (lane.heldBy (lane.base + lane.params.epochLen) lane.column) m :=
    fun m => sumOf_holdings _ _ m
  have hraw : ((lane.l0.map (lane.rebaseSlot (lane.base + lane.params.epochLen))).map
      fun s => s.wRaw.val) = lane.l0.map fun s => s.wRaw.val := by
    rw [map_map]
    rfl
  refine
    { geometry := h.geometry
      ladder := h.ladder
      base_le := hbase.le
      cover_le := h.cover_le
      tiles := ?_
      bucket := ?_
      slot := ?_
      acc := ?_
      accTotal := ?_
      rawTotal := ?_
      l0ScaledSum := rfl
      l0RawSum := ?_
      carryTotal := rfl
      headroom := ?_ }
  · have hspans : (lane.l0.map (lane.rebaseSlot (lane.base + lane.params.epochLen))).map slotSpan =
        lane.l0.map slotSpan := by
      rw [map_map]
      rfl
    unfold spans
    rw [hspans]
    exact h.tiles
  · intro b hb
    have hb := h.bucket b hb
    exact { hb with tag_le := Nat.le_add_right_of_le hb.tag_le }
  · intro s hs
    obtain ⟨s₀, -, rfl⟩ := mem_map.mp hs
    exact lane.rebaseSlot_lt _ s₀
  · intro m
    rw [amount_creditAll, amount_empty, Nat.zero_add]
    exact hsums m
  · show (List.map Prod.snd _).sum = _
    rw [← sum_append, ← map_append]
    apply sum_eq_of_sumOf_eq
    intro m
    rw [sumOf_append]
    exact hsums m
  · show lane.rawTotal = _
    rw [hraw]
    exact h.rawTotal
  · rw [hraw]
    exact h.l0RawSum
  · have hle := rebasedCarry_total_le h.ladder hlen
    have hroom := h.headroom
    rw [h.carryTotal] at hroom
    exact hle.trans_lt hroom

/-! ## Folds -/

theorem sum_map_le_mul {α : Type} (xs : List α) (f g : α → Nat) (c : Nat)
    (h : ∀ x ∈ xs, f x ≤ g x * c) : (xs.map f).sum ≤ (xs.map g).sum * c := by
  induction xs with
  | nil => simp
  | cons x xs ih =>
    have hfirst := h x mem_cons_self
    have hrest := ih fun x' hx' => h x' (mem_cons_of_mem _ hx')
    rw [map_cons, sum_cons, map_cons, sum_cons, Nat.add_mul]
    exact Nat.add_le_add hfirst hrest

theorem sum_heldBy (lane : Lane) (base : Nat) (bs : List Bucket) :
    ((lane.heldBy base bs).map Prod.snd).sum =
      (bs.map fun b => ((worth (lane.shift base b) b).map Prod.snd).sum).sum := by
  induction bs with
  | nil => rfl
  | cons b bs ih =>
    rw [heldBy_cons, map_append, sum_append, ih, map_cons, sum_cons]

theorem sum_heldBy_le (hladder : lane.tables.Ladder) (base : Nat) {base' : Nat}
    {bs : List Bucket} (h : ∀ b ∈ bs, BucketOk base' b) :
    ((lane.heldBy base bs).map Prod.snd).sum ≤
      ((bs.map bucketSpan).map Tiles.width).sum * 2 ^ 128 := by
  rw [sum_heldBy, map_map]
  apply sum_map_le_mul
  intro b hb
  exact (sum_worth_le (hladder.shift_le _) b).trans (h b hb).light

theorem bucketOfBuckets_ok (hladder : lane.tables.Ladder) {lo hi : Nat}
    {children : List Bucket} (hne : children ≠ []) (h : ∀ b ∈ children, BucketOk lane.base b)
    (htiles : Tiles lo (children.map bucketSpan) hi) :
    BucketOk lane.base (lane.bucketOfBuckets children) ∧
      Tiles lo [bucketSpan (lane.bucketOfBuckets children)] hi := by
  have hmerge := htiles.merge (by simpa using hne)
  have hlo : (lane.bucketOfBuckets children).posLo = lo := by
    rw [← hmerge.1]
    cases children <;> rfl
  have hhi : (lane.bucketOfBuckets children).posHi + 1 = hi := by
    rw [← hmerge.2.1]
    unfold bucketOfBuckets
    rw [getLast?_map]
    cases children.getLast? <;> rfl
  have hwidth : Tiles.width (bucketSpan (lane.bucketOfBuckets children)) =
      ((children.map bucketSpan).map Tiles.width).sum := by
    have hsum := htiles.sum_width
    unfold Tiles.width bucketSpan at hsum ⊢
    omega
  refine ⟨⟨?_, Nat.le_refl _, ?_, ?_⟩, hlo, ?_, hhi⟩
  · obtain ⟨first, rest, rfl⟩ := exists_cons_of_ne_nil hne
    have hfirst := h first mem_cons_self
    exact hfirst.tag_gt.trans_le hfirst.tag_le
  · have hsame : ((worth qOne (lane.bucketOfBuckets children)).map Prod.snd).sum =
        ((lane.heldBy lane.base children).map Prod.snd).sum :=
      sum_eq_of_sumOf_eq fun m => sumOf_worth_buckets lane children m
    rw [hsame, hwidth]
    exact sum_heldBy_le hladder lane.base h
  · rw [hwidth, map_map]
    apply sum_map_le_mul
    intro b hb
    exact (h b hb).rawLight
  · have hlt := hmerge.2.2
    show (lane.bucketOfBuckets children).posLo ≤ (lane.bucketOfBuckets children).posHi
    omega

structure Rearranged (lane lane' : Lane) : Prop where
  params : lane'.params = lane.params
  tables : lane'.tables = lane.tables
  nextPos : lane'.nextPos = lane.nextPos
  base : lane'.base = lane.base
  cover : lane'.cover = lane.cover
  acc : lane'.acc = lane.acc
  accTotal : lane'.accTotal = lane.accTotal
  rawTotal : lane'.rawTotal = lane.rawTotal
  carry : lane'.carry = lane.carry
  carryTotal : lane'.carryTotal = lane.carryTotal
  ridge : lane'.ridge = lane.ridge

theorem Balanced.merged (h : lane.Balanced) (hre : Rearranged lane lane')
    (hslots : lane'.l0 = lane.l0 ∧ lane'.l0ScaledSum = lane.l0ScaledSum ∧
      lane'.l0RawSum = lane.l0RawSum)
    {older children newer : List Bucket} (hne : children ≠ [])
    (hold : lane.column = older ++ (children ++ newer))
    (hnew : lane'.column = older ++ (lane.bucketOfBuckets children :: newer)) : lane'.Balanced := by
  obtain ⟨hl0, hscaled, hraw⟩ := hslots
  have htiles := h.tiles
  unfold spans at htiles
  rw [hold, map_append, map_append, append_assoc, append_assoc] at htiles
  obtain ⟨lo, holder, htiles⟩ := htiles.split
  obtain ⟨hi, hchildren, hrest⟩ := htiles.split
  obtain ⟨hok, hspan⟩ := bucketOfBuckets_ok h.ladder hne
    (fun b hb => h.bucket b (by rw [hold]; simp [hb])) hchildren
  have hheld : ∀ m, Ledger.sumOf (lane'.heldBy lane'.base lane'.column) m =
      Ledger.sumOf (lane.heldBy lane.base lane.column) m := by
    intro m
    have hself : lane.shift lane.base (lane.bucketOfBuckets children) = qOne :=
      shift_self h.ladder rfl
    rw [heldBy_congr hre.params hre.tables, hre.base, hnew, hold, heldBy_append, heldBy_append,
      heldBy_append, heldBy_cons, hself]
    simp only [sumOf_append]
    rw [sumOf_worth_buckets]
  refine
    { geometry := hre.params ▸ h.geometry
      ladder := hre.tables ▸ h.ladder
      base_le := by rw [hre.base, hre.nextPos]; exact h.base_le
      cover_le := by rw [hre.cover, hre.nextPos]; exact h.cover_le
      tiles := ?_
      bucket := ?_
      slot := by rw [hl0]; exact h.slot
      acc := ?_
      accTotal := ?_
      rawTotal := ?_
      l0ScaledSum := by rw [hscaled, hl0]; exact h.l0ScaledSum
      l0RawSum := by rw [hraw, hl0]; exact h.l0RawSum
      carryTotal := by rw [hre.carryTotal, hre.carry]; exact h.carryTotal
      headroom := by rw [hre.carryTotal]; exact h.headroom }
  · unfold spans
    rw [hre.nextPos, hre.cover, hnew, hl0, map_append, map_cons, append_assoc]
    exact holder.append (hspan.append hrest)
  · intro b hb
    rw [hre.base]
    rw [hnew] at hb
    rcases mem_append.mp hb with hb | hb
    · exact h.bucket b (by rw [hold]; simp [hb])
    rcases mem_cons.mp hb with hb | hb
    · exact hb ▸ hok
    · exact h.bucket b (by rw [hold]; simp [hb])
  · intro m
    rw [hre.acc, hl0, hheld]
    exact h.acc m
  · rw [hre.accTotal, hl0, sum_eq_of_sumOf_eq hheld]
    exact h.accTotal
  · rw [hre.rawTotal, h.rawTotal, hl0, hnew, hold]
    simp only [map_append, map_cons, sum_append, sum_cons]
    rfl

theorem Balanced.foldLevel (h : lane.Balanced) {k : Nat} (hk : k + 1 < lane.numLevels) :
    (lane.foldLevel k).Balanced ∧ Rearranged lane (lane.foldLevel k) ∧
      (lane.foldLevel k).l0 = lane.l0 := by
  by_cases hfull : (lane.levels k).length < lane.params.levelCaps.getD k 0
  · rw [Lane.foldLevel, if_pos hfull]
    exact ⟨h, ⟨rfl, rfl, rfl, rfl, rfl, rfl, rfl, rfl, rfl, rfl, rfl⟩, rfl⟩
  have hfold : Rearranged lane (lane.foldLevel k) ∧
      ((lane.foldLevel k).l0 = lane.l0 ∧ (lane.foldLevel k).l0ScaledSum = lane.l0ScaledSum ∧
        (lane.foldLevel k).l0RawSum = lane.l0RawSum) ∧
      (lane.foldLevel k).levels = Function.update
        (Function.update lane.levels k ((lane.levels k).drop lane.params.rollup)) (k + 1)
        (lane.levels (k + 1) ++
          [lane.bucketOfBuckets ((lane.levels k).take lane.params.rollup)]) := by
    rw [Lane.foldLevel, if_neg hfull]
    exact ⟨⟨rfl, rfl, rfl, rfl, rfl, rfl, rfl, rfl, rfl, rfl, rfl⟩, ⟨rfl, rfl, rfl⟩, rfl⟩
  obtain ⟨hre, hslots, hlevels⟩ := hfold
  obtain ⟨older, newer, hold, hnew⟩ := column_foldLevel hk hre.params hlevels
  have hne : (lane.levels k).take lane.params.rollup ≠ [] := by
    have hcap := h.geometry.inner_caps k hk
    have hpos := h.geometry.rollup_pos
    rw [← length_pos_iff_ne_nil, length_take]
    omega
  exact ⟨h.merged hre hslots hne hold hnew, hre, hslots.1⟩

theorem Rearranged.trans {lane'' : Lane} (h : Rearranged lane lane')
    (h' : Rearranged lane' lane'') : Rearranged lane lane'' :=
  ⟨h'.params.trans h.params, h'.tables.trans h.tables, h'.nextPos.trans h.nextPos,
    h'.base.trans h.base, h'.cover.trans h.cover, h'.acc.trans h.acc,
    h'.accTotal.trans h.accTotal, h'.rawTotal.trans h.rawTotal, h'.carry.trans h.carry,
    h'.carryTotal.trans h.carryTotal, h'.ridge.trans h.ridge⟩

theorem Balanced.cascadeFolds (h : lane.Balanced) :
    lane.cascadeFolds.Balanced ∧ Rearranged lane lane.cascadeFolds ∧
      lane.cascadeFolds.l0 = lane.l0 := by
  unfold Lane.cascadeFolds
  have hrange : ∀ k ∈ List.range (lane.numLevels - 1), k + 1 < lane.numLevels := by
    intro k hk
    have := mem_range.mp hk
    omega
  generalize List.range (lane.numLevels - 1) = ks at hrange
  induction ks generalizing lane with
  | nil => exact ⟨h, ⟨rfl, rfl, rfl, rfl, rfl, rfl, rfl, rfl, rfl, rfl, rfl⟩, rfl⟩
  | cons k ks ih =>
    obtain ⟨hbal, hre, hl0⟩ := h.foldLevel (hrange k mem_cons_self)
    have hnum : (lane.foldLevel k).numLevels = lane.numLevels := by
      unfold numLevels
      rw [hre.params]
    obtain ⟨hbal', hre', hl0'⟩ := ih hbal fun j hj =>
      hnum ▸ hrange j (mem_cons_of_mem _ hj)
    exact ⟨hbal', hre.trans hre', hl0'.trans hl0⟩

theorem bucketOfSlots_ok {base lo hi : Nat} {slots : List L0Slot} (hne : slots ≠ [])
    (h : ∀ s ∈ slots, s.wScaled < 2 ^ 128) (htiles : Tiles lo (slots.map slotSpan) hi)
    (hlo : lo < base) :
    BucketOk base (bucketOfSlots base slots) ∧
      Tiles lo [bucketSpan (bucketOfSlots base slots)] hi := by
  have hmerge := htiles.merge (by simpa using hne)
  have hposLo : (bucketOfSlots base slots).posLo = lo := by
    rw [← hmerge.1]
    cases slots <;> rfl
  have hposHi : (bucketOfSlots base slots).posHi + 1 = hi := by
    rw [← hmerge.2.1]
    unfold bucketOfSlots
    rw [getLast?_map]
    cases slots.getLast? <;> rfl
  have hwidth : Tiles.width (bucketSpan (bucketOfSlots base slots)) =
      ((slots.map slotSpan).map Tiles.width).sum := by
    have hsum := htiles.sum_width
    unfold bucketSpan
    unfold Tiles.width at hsum ⊢
    omega
  refine ⟨⟨hposLo ▸ hlo, Nat.le_refl _, ?_, ?_⟩, hposLo, ?_, hposHi⟩
  · have hsame : ((worth qOne (bucketOfSlots base slots)).map Prod.snd).sum =
        ((slotRows slots).map Prod.snd).sum :=
      sum_eq_of_sumOf_eq fun m => sumOf_worth_slots base slots m
    rw [hsame, hwidth, map_map]
    unfold slotRows
    rw [map_map]
    apply sum_map_le_mul
    intro s hs
    have hs := h s hs
    show s.wScaled ≤ (s.pos - s.pos + 1) * 2 ^ 128
    omega
  · rw [hwidth, map_map]
    apply sum_map_le_mul
    intro s _
    show s.wRaw.val ≤ (s.pos - s.pos + 1) * 2 ^ 64
    omega
  · have hlt := hmerge.2.2
    show (bucketOfSlots base slots).posLo ≤ (bucketOfSlots base slots).posHi
    omega

theorem Balanced.slots_tile (h : lane.Balanced) :
    ∃ mid, Tiles (lane.nextPos - lane.cover) (lane.column.map bucketSpan) mid ∧
      Tiles mid (lane.l0.map slotSpan) lane.nextPos ∧ mid + lane.l0.length = lane.nextPos := by
  have htiles := h.tiles
  obtain ⟨mid, hcolumn, hslots⟩ := htiles.split
  refine ⟨mid, hcolumn, hslots, ?_⟩
  have hsum := hslots.sum_width
  rw [map_map] at hsum
  have hones : (lane.l0.map (Tiles.width ∘ slotSpan)).sum = lane.l0.length := by
    induction lane.l0 with
    | nil => rfl
    | cons s rest ih =>
      rw [map_cons, sum_cons, ih, length_cons]
      show s.pos - s.pos + 1 + rest.length = rest.length + 1
      omega
  omega

theorem Balanced.foldL0 (h : lane.Balanced) (hfull : lane.l0.length = lane.params.c0)
    (hframe : lane.nextPos < lane.base + lane.params.c0) (hok : lane.foldL0 = .ok lane') :
    lane'.Balanced ∧ Rearranged lane lane' ∧ lane'.l0.length < lane.params.c0 := by
  obtain ⟨scaled, raw, hscaled, hraw, hlane⟩ := foldL0_eq_ok hok
  have hnew : lane'.column =
      lane.column ++ [bucketOfSlots lane.base (lane.l0.take lane.params.rollup)] := by
    rw [hlane]
    exact column_foldL0 h.geometry.levels_pos rfl rfl
  subst hlane
  have hpos := h.geometry.rollup_pos
  have hle := h.geometry.rollup_le
  refine ⟨?_, ⟨rfl, rfl, rfl, rfl, rfl, rfl, rfl, rfl, rfl, rfl, rfl⟩, ?_⟩
  rotate_left
  · show (lane.l0.drop lane.params.rollup).length < lane.params.c0
    rw [length_drop]
    omega
  obtain ⟨mid, hcolumn, hslots, hmid⟩ := h.slots_tile
  rw [← take_append_drop lane.params.rollup lane.l0, map_append] at hslots
  obtain ⟨cut, htake, hdrop⟩ := hslots.split
  have hne : lane.l0.take lane.params.rollup ≠ [] := by
    rw [← length_pos_iff_ne_nil, length_take]
    omega
  have hlt : mid < lane.base := by omega
  obtain ⟨hbucket, hspan⟩ := bucketOfSlots_ok hne
    (fun s hs => h.slot s (mem_of_mem_take hs)) htake hlt
  generalize hb : bucketOfSlots lane.base (lane.l0.take lane.params.rollup) = b at *
  have htag : b.epochTag = lane.base := by
    rw [← hb]
    rfl
  have hworth : ∀ m, Ledger.sumOf (worth qOne b) m =
      Ledger.sumOf (slotRows (lane.l0.take lane.params.rollup)) m := by
    intro m
    rw [← hb]
    exact sumOf_worth_slots lane.base _ m
  have hrawWork : b.rawWork = ((lane.l0.take lane.params.rollup).map fun s => s.wRaw.val).sum := by
    rw [← hb]
    rfl
  have hrows : ∀ m, Ledger.sumOf (slotRows lane.l0) m =
      Ledger.sumOf (slotRows (lane.l0.take lane.params.rollup)) m +
        Ledger.sumOf (slotRows (lane.l0.drop lane.params.rollup)) m := by
    intro m
    unfold slotRows
    rw [← sumOf_append, ← map_append, take_append_drop]
  have hheld : ∀ m, Ledger.sumOf (lane.heldBy lane.base (lane.column ++ [b])) m =
      Ledger.sumOf (lane.heldBy lane.base lane.column) m + Ledger.sumOf (worth qOne b) m := by
    intro m
    rw [heldBy_append, heldBy_cons, shift_self h.ladder htag, sumOf_append, sumOf_append]
    rfl
  have hsums : ∀ m, lane.acc.amount m =
      Ledger.sumOf (slotRows (lane.l0.drop lane.params.rollup)) m +
        Ledger.sumOf (lane.heldBy lane.base (lane.column ++ [b])) m := by
    intro m
    rw [h.acc, hrows, hheld, hworth]
    omega
  refine
    { geometry := h.geometry
      ladder := h.ladder
      base_le := h.base_le
      cover_le := h.cover_le
      tiles := ?_
      bucket := ?_
      slot := fun s hs => h.slot s (mem_of_mem_drop hs)
      acc := ?_
      accTotal := ?_
      rawTotal := ?_
      l0ScaledSum := ?_
      l0RawSum := ?_
      carryTotal := h.carryTotal
      headroom := h.headroom }
  · unfold spans
    rw [hnew, map_append, append_assoc]
    exact hcolumn.append (hspan.append hdrop)
  · rw [hnew]
    intro b' hb'
    rcases mem_append.mp hb' with hb' | hb'
    · exact h.bucket b' hb'
    · rw [mem_singleton] at hb'
      exact hb' ▸ hbucket
  · rw [hnew]
    exact hsums
  · rw [hnew]
    show lane.accTotal = _ + ((lane.heldBy lane.base (lane.column ++ [b])).map Prod.snd).sum
    rw [h.accTotal, ← sum_append, ← map_append, ← sum_append, ← map_append]
    apply sum_eq_of_sumOf_eq
    intro m
    rw [sumOf_append, sumOf_append, ← h.acc, hsums]
  · rw [hnew]
    show lane.rawTotal = _
    have hsplit : (lane.l0.map fun s => s.wRaw.val).sum =
        ((lane.l0.take lane.params.rollup).map fun s => s.wRaw.val).sum +
          ((lane.l0.drop lane.params.rollup).map fun s => s.wRaw.val).sum := by
      rw [← sum_append, ← map_append, take_append_drop]
    rw [h.rawTotal, hsplit, map_append, sum_append, map_singleton, sum_singleton, hrawWork]
    dsimp only
    omega
  · have hsplit : (lane.l0.map fun s => s.wScaled).sum =
        ((lane.l0.take lane.params.rollup).map fun s => s.wScaled).sum +
          ((lane.l0.drop lane.params.rollup).map fun s => s.wScaled).sum := by
      rw [← sum_append, ← map_append, take_append_drop]
    have hsum := h.l0ScaledSum
    dsimp only
    omega
  · have hsplit : (lane.l0.map fun s => s.wRaw.val).sum =
        ((lane.l0.take lane.params.rollup).map fun s => s.wRaw.val).sum +
          ((lane.l0.drop lane.params.rollup).map fun s => s.wRaw.val).sum := by
      rw [← sum_append, ← map_append, take_append_drop]
    have hsum := h.l0RawSum
    dsimp only
    omega

theorem Balanced.foldL0_ok (h : lane.Balanced) : ∃ lane', lane.foldL0 = .ok lane' := by
  have hscaled : ((lane.l0.take lane.params.rollup).map fun s => s.wScaled).sum ≤
      lane.l0ScaledSum := by
    rw [h.l0ScaledSum]
    exact ((take_sublist _ _).map _).sum_le_sum (by simp)
  have hraw : ((lane.l0.take lane.params.rollup).map fun s => s.wRaw.val).sum ≤ lane.l0RawSum := by
    rw [h.l0RawSum]
    exact ((take_sublist _ _).map _).sum_le_sum (by simp)
  unfold Lane.foldL0
  dsimp only
  rw [checkedSub_of_le hscaled, checkedSub_of_le hraw]
  exact ⟨_, rfl⟩

end Lane

end C2Pool.V37
