import C2Pool.Lib.Balances
import C2Pool.V37.Merkle

/-! # The incremental index of effective balances

`EffectiveOwedIndex` (`w4_owed_incremental.hpp`): the effective balance of every
key, kept by deltas, and the keys whose balance is positive in the order of
their ages.  The ages belong to the ledger and are passed in.
-/

namespace C2Pool.V37

open List SortedMap Balances

/-- `std::map<bytes32, long long>`. -/
abbrev Amounts := Balances Bytes32

structure EffectiveOwedIndex where
  eo : Amounts := ∅
  order : SortedMap (U64 ×ₗ Bytes32) Unit := ∅
  orderFe : SortedMap Bytes32 U64 := ∅
deriving DecidableEq

namespace EffectiveOwedIndex

def value (idx : EffectiveOwedIndex) (k : Bytes32) : Int := idx.eo.balance k

def addEo (idx : EffectiveOwedIndex) (k : Bytes32) (delta : Int) : EffectiveOwedIndex :=
  { idx with eo := idx.eo.insert k (idx.value k + delta) }

/-- The entry of a positive key, at its age. -/
def enlist (idx : EffectiveOwedIndex) (k : Bytes32) (fe : U64) : EffectiveOwedIndex :=
  { idx with order := idx.order.insert (toLex (fe, k)) (), orderFe := idx.orderFe.insert k fe }

/-- The removal of a key by the age it was entered at. -/
def delist (idx : EffectiveOwedIndex) (k : Bytes32) : EffectiveOwedIndex :=
  match idx.orderFe.lookup k with
  | some fe =>
    { idx with order := idx.order.erase (toLex (fe, k)), orderFe := idx.orderFe.erase k }
  | none => idx

def reindex (idx : EffectiveOwedIndex) (k : Bytes32) (fe : U64) : EffectiveOwedIndex :=
  if 0 < idx.value k then (idx.delist k).enlist k fe else idx.delist k

/-- The loop of `on_found` and `on_orphan_pre`, with the sign of the delta. -/
def shift (sign : Int) (idx : EffectiveOwedIndex) (payout : List (Bytes32 × Int))
    (fe : Bytes32 → U64) : EffectiveOwedIndex :=
  payout.foldl (fun idx e =>
    if e.2 = 0 then idx else (idx.addEo e.1 (sign * e.2)).reindex e.1 (fe e.1)) idx

def onFound (idx : EffectiveOwedIndex) (payout : Amounts) (fe : Bytes32 → U64) :
    EffectiveOwedIndex :=
  idx.shift (-1) payout.entries fe

def onOrphanPre (idx : EffectiveOwedIndex) (payout : Amounts) (fe : Bytes32 → U64) :
    EffectiveOwedIndex :=
  idx.shift 1 payout.entries fe

/-- `apply_finalize_credit`; the order is left as it was. -/
def applyFinalizeCredit (idx : EffectiveOwedIndex) (credit : Amounts) : EffectiveOwedIndex :=
  credit.entries.foldl (fun idx e => if e.2 = 0 then idx else idx.addEo e.1 e.2) idx

def rebuildOrder (idx : EffectiveOwedIndex) (fe : Bytes32 → U64) : EffectiveOwedIndex :=
  idx.eo.entries.foldl (fun idx e => if e.2 ≤ 0 then idx else idx.enlist e.1 (fe e.1))
    { idx with order := ∅, orderFe := ∅ }

/-- The keys that `for_each_eligible` visits, in its order. -/
def eligible (idx : EffectiveOwedIndex) : List Bytes32 :=
  idx.order.keys.map fun x => (ofLex x).2

/-! ## What the index holds -/

def Listed (idx : EffectiveOwedIndex) : Prop :=
  ∀ f k, idx.order.lookup (toLex (f, k)) = if idx.orderFe.lookup k = some f then some () else none

/-- The positive keys are entered at their age, and no other key is. -/
structure Ordered (idx : EffectiveOwedIndex) (fe : Bytes32 → U64) : Prop where
  listed : idx.Listed
  orderFe : ∀ k, idx.orderFe.lookup k = if 0 < idx.value k then some (fe k) else none

@[simp] theorem value_empty (k : Bytes32) : value {} k = 0 := rfl

theorem ordered_empty (fe : Bytes32 → U64) : Ordered {} fe := by
  constructor
  · intro f k
    simp
  · intro k
    simp

theorem value_addEo (idx : EffectiveOwedIndex) (k : Bytes32) (delta : Int) (x : Bytes32) :
    (idx.addEo k delta).value x = idx.value x + if k = x then delta else 0 := by
  unfold addEo value
  rw [balance_insert]
  by_cases h : x = k
  · rw [if_pos h, if_pos h.symm, h]
  · rw [if_neg h, if_neg (Ne.symm h), add_zero]

@[simp] theorem value_enlist (idx : EffectiveOwedIndex) (k : Bytes32) (fe : U64) (x : Bytes32) :
    (idx.enlist k fe).value x = idx.value x := rfl

@[simp] theorem value_delist (idx : EffectiveOwedIndex) (k x : Bytes32) :
    (idx.delist k).value x = idx.value x := by
  unfold delist
  split <;> rfl

@[simp] theorem value_reindex (idx : EffectiveOwedIndex) (k : Bytes32) (fe : U64) (x : Bytes32) :
    (idx.reindex k fe).value x = idx.value x := by
  unfold reindex
  split <;> simp

theorem orderFe_enlist (idx : EffectiveOwedIndex) (k : Bytes32) (fe : U64) (x : Bytes32) :
    (idx.enlist k fe).orderFe.lookup x = if x = k then some fe else idx.orderFe.lookup x :=
  lookup_insert _ _ _ _

theorem orderFe_delist (idx : EffectiveOwedIndex) (k x : Bytes32) :
    (idx.delist k).orderFe.lookup x = if x = k then none else idx.orderFe.lookup x := by
  unfold delist
  split
  · exact lookup_erase _ _ _
  rename_i hnone
  split
  · rename_i heq
    rw [heq, hnone]
  · rfl

variable {idx : EffectiveOwedIndex} {fe : Bytes32 → U64}

theorem Listed.delist (h : idx.Listed) (k : Bytes32) : (idx.delist k).Listed := by
  intro f x
  rw [orderFe_delist]
  unfold EffectiveOwedIndex.delist
  split
  · rename_i fe hsome
    show (SortedMap.erase _ _).lookup _ = _
    rw [lookup_erase, h f x]
    by_cases hx : x = k
    · subst hx
      rw [hsome, if_pos rfl]
      by_cases hf : f = fe
      · simp [hf]
      · simp [hf, Ne.symm hf]
    · simp [hx]
  rename_i hnone
  rw [h f x]
  by_cases hx : x = k
  · simp [hx, hnone]
  · simp [hx]

theorem Listed.enlist (h : idx.Listed) {k : Bytes32}
    (hk : idx.orderFe.lookup k = none) (fe : U64) : (idx.enlist k fe).Listed := by
  intro f x
  simp only [EffectiveOwedIndex.enlist, lookup_insert, h f x]
  by_cases hx : x = k
  · subst hx
    by_cases hf : f = fe
    · simp [hf]
    · simp [hf, Ne.symm hf, hk]
  · simp [hx]

theorem Listed.reindex (h : idx.Listed) (k : Bytes32) (fe : U64) : (idx.reindex k fe).Listed := by
  unfold EffectiveOwedIndex.reindex
  split
  · apply (h.delist k).enlist
    rw [orderFe_delist, if_pos rfl]
  · exact h.delist k

theorem orderFe_reindex (idx : EffectiveOwedIndex) (k : Bytes32) (fe : U64) (x : Bytes32) :
    (idx.reindex k fe).orderFe.lookup x =
      if x = k then (if 0 < idx.value k then some fe else none) else idx.orderFe.lookup x := by
  unfold reindex
  split
  · rw [orderFe_enlist, orderFe_delist]
    split <;> rfl
  · rw [orderFe_delist]

theorem Ordered.addEo_reindex (h : idx.Ordered fe) (k : Bytes32) (delta : Int) :
    ((idx.addEo k delta).reindex k (fe k)).Ordered fe := by
  have hlisted : (idx.addEo k delta).Listed := h.listed
  refine ⟨hlisted.reindex k (fe k), fun x => ?_⟩
  rw [orderFe_reindex, value_reindex]
  by_cases hx : x = k
  · rw [if_pos hx, hx]
  · rw [if_neg hx, value_addEo, if_neg (Ne.symm hx), add_zero]
    exact h.orderFe x

theorem Ordered.shift (sign : Int) (payout : List (Bytes32 × Int)) (h : idx.Ordered fe) :
    (idx.shift sign payout fe).Ordered fe ∧
      ∀ k, (idx.shift sign payout fe).value k = idx.value k + sign * Tally.amount payout k := by
  unfold EffectiveOwedIndex.shift
  induction payout generalizing idx with
  | nil => exact ⟨h, fun k => by simp⟩
  | cons e payout ih =>
    rw [foldl_cons]
    split
    · rename_i hzero
      obtain ⟨hord, hval⟩ := ih h
      refine ⟨hord, fun k => ?_⟩
      rw [hval, Tally.amount_cons, hzero, ite_self, zero_add]
    obtain ⟨hord, hval⟩ := ih (h.addEo_reindex e.1 (sign * e.2))
    refine ⟨hord, fun k => ?_⟩
    rw [hval, value_reindex, value_addEo, Tally.amount_cons, mul_add, mul_ite, mul_zero, add_assoc]

theorem Ordered.onFound (h : idx.Ordered fe)
    (payout : Amounts) : (idx.onFound payout fe).Ordered fe ∧
      ∀ k, (idx.onFound payout fe).value k = idx.value k - payout.balance k := by
  obtain ⟨hord, hval⟩ := h.shift (-1) payout.entries
  refine ⟨hord, fun k => ?_⟩
  rw [EffectiveOwedIndex.onFound, hval, amount_entries, neg_one_mul, sub_eq_add_neg]

theorem Ordered.onOrphanPre (h : idx.Ordered fe)
    (payout : Amounts) : (idx.onOrphanPre payout fe).Ordered fe ∧
      ∀ k, (idx.onOrphanPre payout fe).value k = idx.value k + payout.balance k := by
  obtain ⟨hord, hval⟩ := h.shift 1 payout.entries
  refine ⟨hord, fun k => ?_⟩
  rw [EffectiveOwedIndex.onOrphanPre, hval, amount_entries, one_mul]

theorem value_applyFinalizeCredit (idx : EffectiveOwedIndex) (credit : Amounts) (k : Bytes32) :
    (idx.applyFinalizeCredit credit).value k = idx.value k + credit.balance k := by
  unfold applyFinalizeCredit
  rw [← amount_entries]
  induction credit.entries generalizing idx with
  | nil => simp
  | cons e es ih =>
    rw [foldl_cons, ih, Tally.amount_cons]
    split
    · rename_i hzero
      rw [hzero, ite_self, zero_add]
    · rw [value_addEo, add_assoc]

/-- The loop of `rebuild_order`: the keys still ahead are not listed yet. -/
theorem Listed.foldl_enlist (fe : Bytes32 → U64) {es : List (Bytes32 × Int)}
    (hnodup : (es.map Prod.fst).Nodup) (hlisted : idx.Listed)
    (hahead : ∀ e ∈ es, idx.orderFe.lookup e.1 = none) :
    let out := es.foldl (fun i e => if e.2 ≤ 0 then i else i.enlist e.1 (fe e.1)) idx
    out.Listed ∧ out.eo = idx.eo ∧ ∀ k, out.orderFe.lookup k =
      if ∃ e ∈ es, e.1 = k ∧ 0 < e.2 then some (fe k) else idx.orderFe.lookup k := by
  induction es generalizing idx with
  | nil => exact ⟨hlisted, rfl, fun k => by simp⟩
  | cons e es ih =>
    rw [map_cons, nodup_cons] at hnodup
    simp only [foldl_cons]
    split
    · rename_i hle
      obtain ⟨hl, heo, hfe⟩ := ih hnodup.2 hlisted fun e' he' => hahead e' (mem_cons_of_mem e he')
      refine ⟨hl, heo, fun k => ?_⟩
      rw [hfe k]
      congr 1
      simp only [mem_cons, exists_eq_or_imp, eq_iff_iff]
      constructor
      · exact Or.inr
      rintro (⟨-, hpos⟩ | h)
      · omega
      · exact h
    rename_i hpos
    have hstill : ∀ e' ∈ es, (idx.enlist e.1 (fe e.1)).orderFe.lookup e'.1 = none := by
      intro e' he'
      have hne : e'.1 ≠ e.1 := fun heq => hnodup.1 (heq ▸ mem_map_of_mem he')
      rw [orderFe_enlist, if_neg hne]
      exact hahead e' (mem_cons_of_mem e he')
    obtain ⟨hl, heo, hfe⟩ := ih hnodup.2 (hlisted.enlist (hahead e mem_cons_self) (fe e.1)) hstill
    refine ⟨hl, heo, fun k => ?_⟩
    rw [hfe k, orderFe_enlist]
    by_cases hk : k = e.1
    · subst hk
      rw [if_pos rfl, ite_self, if_pos ⟨e, mem_cons_self, rfl, by omega⟩]
    rw [if_neg hk]
    congr 1
    simp [Ne.symm hk]

theorem ordered_rebuildOrder (idx : EffectiveOwedIndex) (fe : Bytes32 → U64) :
    (idx.rebuildOrder fe).Ordered fe ∧ ∀ k, (idx.rebuildOrder fe).value k = idx.value k := by
  have hstart : ({ idx with order := ∅, orderFe := ∅ } : EffectiveOwedIndex).Listed := by
    intro f k
    simp
  obtain ⟨hl, heo, hfe⟩ := hstart.foldl_enlist fe
    (pairwise_map.mpr (idx.eo.sorted.imp fun h => h.ne)) (fun e _ => rfl)
  have hval : ∀ k, (idx.rebuildOrder fe).value k = idx.value k := by
    intro k
    unfold value rebuildOrder
    rw [heo]
  refine ⟨⟨hl, fun k => ?_⟩, hval⟩
  rw [hval]
  unfold rebuildOrder
  rw [hfe k]
  congr 1
  rw [eq_iff_iff]
  constructor
  · rintro ⟨e, he, rfl, hpos⟩
    rw [value, balance_of_lookup (mem_entries_iff.mp he)]
    exact hpos
  intro hpos
  cases h : idx.eo.lookup k with
  | none => simp [value, Balances.balance, h] at hpos
  | some v =>
    rw [value, balance_of_lookup h] at hpos
    exact ⟨(k, v), mem_entries_iff.mpr h, rfl, hpos⟩

/-- Earlier age first, and the smaller key among equal ages. -/
def before (fe : Bytes32 → U64) (k k' : Bytes32) : Prop := toLex (fe k, k) < toLex (fe k', k')

instance (fe : Bytes32 → U64) : DecidableRel (before fe) :=
  fun _ _ => inferInstanceAs (Decidable (_ < _))

theorem Ordered.mem_order (h : idx.Ordered fe) {x : U64 ×ₗ Bytes32} :
    x ∈ idx.order.keys ↔ 0 < idx.value (ofLex x).2 ∧ (ofLex x).1 = fe (ofLex x).2 := by
  have hkeys : x ∈ idx.order.keys ↔ idx.order.lookup x = some () := by
    unfold SortedMap.keys
    rw [mem_map]
    constructor
    · rintro ⟨⟨x, u⟩, he, rfl⟩
      exact mem_entries_iff.mp he
    · intro hx
      exact ⟨(x, ()), mem_entries_iff.mpr hx, rfl⟩
  rw [hkeys, show x = toLex ((ofLex x).1, (ofLex x).2) from rfl, h.listed, h.orderFe]
  by_cases hpos : 0 < idx.value (ofLex x).2
  · simp [hpos, eq_comm]
  · simp [hpos]

/-- `for_each_eligible` visits exactly the positive keys. -/
theorem Ordered.mem_eligible (h : idx.Ordered fe) {k : Bytes32} :
    k ∈ idx.eligible ↔ 0 < idx.value k := by
  unfold eligible
  rw [mem_map]
  constructor
  · rintro ⟨x, hx, rfl⟩
    exact (h.mem_order.mp hx).1
  · intro hpos
    exact ⟨toLex (fe k, k), h.mem_order.mpr ⟨hpos, rfl⟩, rfl⟩

theorem Ordered.sorted_eligible (h : idx.Ordered fe) : idx.eligible.Pairwise (before fe) := by
  unfold eligible
  rw [pairwise_map]
  have hsorted : idx.order.keys.Pairwise (· < ·) := pairwise_map.mpr idx.order.sorted
  apply hsorted.imp_of_mem
  intro x y hx hy hlt
  have hx' := (h.mem_order.mp hx).2
  have hy' := (h.mem_order.mp hy).2
  unfold before
  rw [← hx', ← hy']
  exact hlt

end EffectiveOwedIndex

end C2Pool.V37
