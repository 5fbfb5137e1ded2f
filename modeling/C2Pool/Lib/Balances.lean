import C2Pool.Lib.SortedMap
import C2Pool.Lib.Tally

/-! # Signed balances

Ordered maps of signed amounts.  A key without a row has balance zero, so two
maps say the same about every key as soon as they differ in zero rows only.
-/

namespace C2Pool

open List SortedMap

/-- Signed amounts by key. -/
abbrev Balances (K : Type) [LinearOrder K] := SortedMap K Int

namespace Balances

variable {K : Type} [LinearOrder K]

def balance (m : Balances K) (k : K) : Int := (m.lookup k).getD 0

/-- `m[k] = op(m[k], v)` for every row `(k, v)` of `d`. -/
def combine (op : Int → Int → Int) (m d : Balances K) : Balances K :=
  m.merge (fun w v => op (w.getD 0) v) d

/-- `m[k] += v` for every row of `d`. -/
def addAll (m d : Balances K) : Balances K := m.combine (· + ·) d

/-- `m[k] -= v` for every row of `d`. -/
def subAll (m d : Balances K) : Balances K := m.combine (· - ·) d

def nonzero (m : Balances K) : Balances K :=
  m.filterMap fun _ v => if v = 0 then none else some v

def total (m : Balances K) : Int := (m.entries.map Prod.snd).sum

@[simp] theorem balance_empty (k : K) : balance (∅ : Balances K) k = 0 := rfl

theorem balance_insert (m : Balances K) (k : K) (v : Int) (x : K) :
    balance (m.insert k v) x = if x = k then v else m.balance x := by
  unfold balance
  rw [lookup_insert]
  split <;> rfl

theorem balance_erase (m : Balances K) (k x : K) :
    balance (m.erase k) x = if x = k then 0 else m.balance x := by
  unfold balance
  rw [lookup_erase]
  split <;> rfl

theorem balance_filterMap (m : Balances K) (f : K → Int → Option Int) (k : K) :
    balance (m.filterMap f) k = ((m.lookup k).bind (f k)).getD 0 := by
  unfold balance
  rw [lookup_filterMap]

theorem balance_of_lookup {m : Balances K} {k : K} {v : Int} (h : m.lookup k = some v) :
    m.balance k = v := by
  simp [balance, h]

theorem balance_combine (op : Int → Int → Int) (m d : Balances K) (k : K) :
    balance (m.combine op d) k =
      match d.lookup k with
      | some v => op (m.balance k) v
      | none => m.balance k := by
  unfold combine balance
  rw [lookup_merge]
  cases d.lookup k <;> rfl

@[simp] theorem balance_addAll (m d : Balances K) (k : K) :
    (m.addAll d).balance k = m.balance k + d.balance k := by
  unfold addAll
  rw [balance_combine]
  cases h : d.lookup k with
  | none => simp [balance, h]
  | some v => simp [balance, h]

@[simp] theorem balance_subAll (m d : Balances K) (k : K) :
    (m.subAll d).balance k = m.balance k - d.balance k := by
  unfold subAll
  rw [balance_combine]
  cases h : d.lookup k with
  | none => simp [balance, h]
  | some v => simp [balance, h]

theorem lookup_nonzero (m : Balances K) (k : K) :
    m.nonzero.lookup k = if m.balance k = 0 then none else some (m.balance k) := by
  unfold nonzero balance
  rw [lookup_filterMap]
  cases m.lookup k <;> simp

@[simp] theorem balance_nonzero (m : Balances K) (k : K) : m.nonzero.balance k = m.balance k := by
  rw [balance, lookup_nonzero]
  split
  · rename_i h
    rw [h]
    rfl
  · rfl

theorem nonzero_ext {m m' : Balances K} (h : ∀ k, m.balance k = m'.balance k) :
    m.nonzero = m'.nonzero := by
  ext1 k
  rw [lookup_nonzero, lookup_nonzero, h k]

theorem amount_entries (m : Balances K) (k : K) : Tally.amount m.entries k = m.balance k := by
  have hdistinct : Tally.Distinct m.entries := by
    exact (pairwise_map.mpr (m.sorted.imp fun h => h.ne))
  cases h : m.lookup k with
  | some v =>
    rw [balance_of_lookup h]
    exact hdistinct.amount_of_mem (mem_entries_iff.mpr h)
  | none =>
    rw [balance, h, Option.getD_none]
    apply Tally.amount_of_notMem
    intro hmem
    obtain ⟨⟨x, v⟩, he, rfl⟩ := mem_map.mp hmem
    rw [mem_entries_iff.mp he] at h
    cases h

theorem total_insert (m : Balances K) (k : K) (v : Int) :
    total (m.insert k v) = m.total - m.balance k + v := by
  have hnew : (m.insert k v).lookup k = some v := by
    rw [lookup_insert, if_pos rfl]
  have hperm := (entries_perm hnew).map Prod.snd
  rw [erase_insert] at hperm
  unfold total
  rw [hperm.sum_eq, map_cons, sum_cons]
  cases h : m.lookup k with
  | none =>
    rw [erase_of_lookup_none h, balance, h, Option.getD_none]
    ring
  | some w =>
    rw [((entries_perm h).map Prod.snd).sum_eq, map_cons, sum_cons, balance_of_lookup h]
    ring

theorem total_combine_foldl (op : Int → Int → Int) (f : Int → Int)
    (hop : ∀ a v, op a v = a + f v) (es : List (K × Int)) (m : Balances K) :
    total (es.foldl (fun m e => m.insert e.1 (op ((m.lookup e.1).getD 0) e.2)) m) =
      m.total + (es.map fun e => f e.2).sum := by
  induction es generalizing m with
  | nil => simp
  | cons e es ih =>
    rw [foldl_cons, ih, total_insert, hop, map_cons, sum_cons]
    unfold balance
    ring

theorem total_addAll (m d : Balances K) : (m.addAll d).total = m.total + d.total :=
  total_combine_foldl (· + ·) id (fun _ _ => rfl) d.entries m

theorem total_subAll (m d : Balances K) : (m.subAll d).total = m.total - d.total := by
  have h := total_combine_foldl (· - ·) (fun v => -v) (fun a v => sub_eq_add_neg a v) d.entries m
  have hneg : (d.entries.map fun e => -e.2).sum = -(d.entries.map Prod.snd).sum := by
    induction d.entries with
    | nil => rfl
    | cons e es ih => simp [ih, add_comm]
  rw [hneg] at h
  exact h

theorem total_filterMap_of_drops_zero (m : Balances K) (keep : K → Int → Bool)
    (h : ∀ k v, keep k v = false → v = 0) :
    total (m.filterMap fun k v => if keep k v then some v else none) = m.total := by
  unfold total
  show ((m.entries.filterMap fun e => (if keep e.1 e.2 then some e.2 else none).map fun w =>
    (e.1, w)).map Prod.snd).sum = _
  induction m.entries with
  | nil => rfl
  | cons e es ih =>
    cases hk : keep e.1 e.2 with
    | true =>
      rw [filterMap_cons_some (b := (e.1, e.2)) (by simp [hk]), map_cons,
        map_cons, sum_cons, sum_cons, ih]
    | false =>
      rw [filterMap_cons_none (by simp [hk]), ih, map_cons, sum_cons, h e.1 e.2 hk, zero_add]

theorem total_nonzero (m : Balances K) : m.nonzero.total = m.total := by
  have hkeep : m.nonzero = m.filterMap fun _ v => if decide (v ≠ 0) then some v else none := by
    unfold nonzero
    congr 1
    funext k v
    by_cases h : v = 0 <;> simp [h]
  rw [hkeep]
  apply total_filterMap_of_drops_zero m fun _ v => decide (v ≠ 0)
  simp

@[simp] theorem total_empty : total (∅ : Balances K) = 0 := rfl

end Balances

end C2Pool
