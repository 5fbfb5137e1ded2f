import C2Pool.Lib.LazySkipList
import C2Pool.Lib.Tally
import C2Pool.Sharechain.Forest

/-! # Payout weights by skip list

`WeightsSkipList` (`weights_skiplist.hpp`): the weights of the shares below a
start, up to a number of shares or a total weight.  Levels carry the sum of the
deltas they jump over.  A jump of several shares is refused when it passes the
desired weight; the single share that does is taken in part.
-/

namespace C2Pool.Sharechain

open LazySkipList Function Finset Nat

/-- An output script, `std::vector<unsigned char>`. -/
abbrev Script := List (Fin 256)

structure WeightsDelta where
  shareCount : Nat
  weights : Tally Script UInt288
  totalWeight : UInt288
  totalDonationWeight : UInt288
deriving DecidableEq

instance : Inhabited WeightsDelta := ⟨⟨0, [], 0, 0⟩⟩

def combineDeltas (a b : WeightsDelta) : WeightsDelta where
  shareCount := a.shareCount + b.shareCount
  weights := a.weights.merge b.weights
  totalWeight := a.totalWeight + b.totalWeight
  totalDonationWeight := a.totalDonationWeight + b.totalDonationWeight

structure CumulativeWeightsResult where
  weights : Tally Script UInt288
  totalWeight : UInt288
  totalDonationWeight : UInt288
deriving DecidableEq

/-- Results that agree on the sum per script, the total and the donation. -/
structure CumulativeWeightsResult.Same (r r' : CumulativeWeightsResult) : Prop where
  weights : ∀ k, r.weights.amount k = r'.weights.amount k
  total : r.totalWeight = r'.totalWeight
  donation : r.totalDonationWeight = r'.totalDonationWeight

variable {r r' : CumulativeWeightsResult} {d d' : WeightsDelta} {desired : UInt288}

theorem CumulativeWeightsResult.Same.symm (h : r.Same r') :
    r'.Same r := ⟨fun k => (h.weights k).symm, h.total.symm, h.donation.symm⟩

theorem CumulativeWeightsResult.Same.trans {r'' : CumulativeWeightsResult} (h : r.Same r')
    (h' : r'.Same r'') : r.Same r'' :=
  ⟨fun k => (h.weights k).trans (h'.weights k), h.total.trans h'.total,
    h.donation.trans h'.donation⟩

/-- `sol_count`, `sol_total`, `sol_donation` and `weight_parts`. -/
structure WeightsSol where
  count : Nat
  total : UInt288
  donation : UInt288
  parts : List (Tally Script UInt288)

namespace WeightsSol

def initial : WeightsSol := ⟨0, 0, 0, []⟩

def apply (sol : WeightsSol) (d : WeightsDelta) : WeightsSol where
  count := sol.count + d.shareCount
  total := sol.total + d.totalWeight
  donation := sol.donation + d.totalDonationWeight
  parts := sol.parts ++ [d.weights]

def finalize (sol : WeightsSol) : CumulativeWeightsResult :=
  ⟨sol.parts.foldl Tally.merge [], sol.total, sol.donation⟩

/-- The part of the boundary share that still fits: its weights and its
donation by `(remaining / 65535) * w / (total_weight / 65535)`. -/
def scaleBoundary (remaining : UInt288) (d : WeightsDelta) : Tally Script UInt288 × UInt288 :=
  if d.totalWeight ≠ 0 ∧ d.weights ≠ [] then
    (d.weights.map fun e => (e.1, remaining / 65535 * e.2 / (d.totalWeight / 65535)),
      remaining / 65535 * d.totalDonationWeight / (d.totalWeight / 65535))
  else ([], 0)

def boundary (sol : WeightsSol) (desired : UInt288) (d : WeightsDelta) : CumulativeWeightsResult :=
  let scaled := scaleBoundary (desired - sol.total) d
  finalize ⟨sol.count + 1, desired, sol.donation + scaled.2, sol.parts ++ [scaled.1]⟩

end WeightsSol

variable {H : Type} [DecidableEq H] [Inhabited H] {sol' sol : WeightsSol}

/-- `m_skips`. -/
abbrev WeightsSkipList (H : Type) := Table H WeightsDelta

/-- The walk of `query`. -/
def weightsWalker (previous : H → H) (getDelta : H → WeightsDelta) (maxShares : Nat)
    (desired : UInt288) : Walker H WeightsDelta WeightsSol CumulativeWeightsResult where
  previous := previous
  getDelta := getDelta
  combine := combineDeltas
  judge sol _ d :=
    if d.shareCount = 0 then .skip
    else if desired < sol.total + d.totalWeight ∧ d.shareCount = 1 then
      .finish (sol.boundary desired d)
    else if maxShares < sol.count + d.shareCount ∨ desired < sol.total + d.totalWeight then .skip
    else if sol.count + d.shareCount = maxShares ∨ sol.total + d.totalWeight = desired then
      .finish (sol.apply d).finalize
    else .take (sol.apply d)
  stuck sol := sol.finalize
  exhausted sol := sol.finalize

namespace WeightsSkipList

/-- `query`; `draw` is the geometric level count of each node met for the
first time. -/
def query (previous : H → H) (getDelta : H → WeightsDelta) (draw : H → Nat)
    (skips : WeightsSkipList H) (start : H) (maxShares : Nat) (desired : UInt288) :
    CumulativeWeightsResult × WeightsSkipList H :=
  if start = default then (⟨[], 0, 0⟩, skips)
  else
    loop (weightsWalker previous getDelta maxShares desired) draw (maxShares + 100) skips
      (fun _ => none) start .initial

def forget (skips : WeightsSkipList H) (hash : H) : WeightsSkipList H :=
  skips.erase hash

end WeightsSkipList

/-- Take whole shares until `n` are taken or the total is reached; the share
that would pass the total is taken in part. -/
def linearWalk (ds : Nat → WeightsDelta) (desired : UInt288) :
    Nat → Nat → WeightsSol → CumulativeWeightsResult
  | 0, _, sol => sol.finalize
  | n + 1, i, sol =>
    if desired < sol.total + (ds i).totalWeight then sol.boundary desired (ds i)
    else if sol.total + (ds i).totalWeight = desired then (sol.apply (ds i)).finalize
    else linearWalk ds desired n (i + 1) (sol.apply (ds i))

theorem linearWalk_congr {ds ds' : Nat → WeightsDelta} (desired : UInt288) {n i : Nat}
    (sol : WeightsSol) (h : ∀ l, i ≤ l → l < i + n → ds l = ds' l) :
    linearWalk ds desired n i sol = linearWalk ds' desired n i sol := by
  induction n generalizing i sol with
  | zero => rfl
  | succ n ih =>
    unfold linearWalk
    rw [h i le_rfl (by omega), ih _ fun l hl hl' => h l (by omega) (by omega)]

/-! ## Where a walk stops -/

/-- The sums over the first `n` shares. -/
structure Gathers (ds : Nat → WeightsDelta) (n : Nat) (sol : WeightsSol) : Prop where
  total : sol.total = ∑ i ∈ Finset.range n, (ds i).totalWeight
  donation : sol.donation = ∑ i ∈ Finset.range n, (ds i).totalDonationWeight
  weights : ∀ k, (sol.parts.map fun p => p.amount k).sum =
    ∑ i ∈ Finset.range n, (ds i).weights.amount k

/-- The result of a walk that stops at share `j`, the first one at which the
desired weight or the number of shares is reached. -/
inductive StopsAt (ds : Nat → WeightsDelta) (maxShares : Nat) (desired : UInt288) (j : Nat) :
    CumulativeWeightsResult → Prop
  | whole (sol : WeightsSol) (hsol : Gathers ds (j + 1) sol) (hle : sol.total ≤ desired)
      (hend : j + 1 = maxShares ∨ sol.total = desired) : StopsAt ds maxShares desired j sol.finalize
  | part (sol : WeightsSol) (hsol : Gathers ds j sol)
      (hover : desired < sol.total + (ds j).totalWeight) :
      StopsAt ds maxShares desired j (sol.boundary desired (ds j))

def Below (ds : Nat → WeightsDelta) (desired : UInt288) (j : Nat) : Prop :=
  ∀ i, 1 ≤ i → i ≤ j → ∑ l ∈ Finset.range i, (ds l).totalWeight < desired

theorem WeightsSol.amount_finalize (sol : WeightsSol) (k : Script) :
    sol.finalize.weights.amount k = (sol.parts.map fun p => p.amount k).sum := by
  unfold finalize
  rw [Tally.amount_foldl_merge, Tally.amount_nil, zero_add]

theorem initial_gathers (ds : Nat → WeightsDelta) : Gathers ds 0 .initial := by
  constructor <;> simp [WeightsSol.initial]

/-- A delta that is the sum of the next `m` shares takes a walk over them. -/
structure SumsTo (ds : Nat → WeightsDelta) (n m : Nat) (d : WeightsDelta) : Prop where
  count : d.shareCount = m
  total : d.totalWeight = ∑ i ∈ Finset.range m, (ds (n + i)).totalWeight
  donation : d.totalDonationWeight = ∑ i ∈ Finset.range m, (ds (n + i)).totalDonationWeight
  weights : ∀ k, d.weights.amount k = ∑ i ∈ Finset.range m, (ds (n + i)).weights.amount k

variable {ds : Nat → WeightsDelta} {n : Nat}

theorem sumsTo_one (hone : (ds n).shareCount = 1) : SumsTo ds n 1 (ds n) := by
  refine ⟨hone, ?_, ?_, ?_⟩ <;> simp

theorem SumsTo.combine {n m m' : Nat} (h : SumsTo ds n m d) (h' : SumsTo ds (n + m) m' d') :
    SumsTo ds n (m + m') (combineDeltas d d') := by
  refine ⟨?_, ?_, ?_, ?_⟩
  · show d.shareCount + d'.shareCount = m + m'
    rw [h.count, h'.count]
  · simp only [sum_range_add, ← add_assoc, combineDeltas, h.total, h'.total]
  · simp only [sum_range_add, ← add_assoc, combineDeltas, h.donation, h'.donation]
  · intro k
    simp only [sum_range_add, ← add_assoc, combineDeltas, Tally.amount_merge,
      h.weights, h'.weights]

theorem Gathers.apply {sol : WeightsSol} {n m : Nat} (h : Gathers ds n sol) (hd : SumsTo ds n m d) :
    Gathers ds (n + m) (sol.apply d) := by
  refine ⟨?_, ?_, ?_⟩
  · simp only [sum_range_add, WeightsSol.apply, h.total, hd.total]
  · simp only [sum_range_add, WeightsSol.apply, h.donation, hd.donation]
  · intro k
    show ((sol.parts ++ [d.weights]).map fun p => p.amount k).sum = _
    rw [List.map_append, List.sum_append, List.map_singleton, List.sum_singleton, h.weights,
      hd.weights, sum_range_add]

theorem Gathers.finalize_same {sol : WeightsSol} (h : Gathers ds n sol) (h' : Gathers ds n sol') :
    sol.finalize.Same sol'.finalize := by
  refine ⟨?_, ?_, ?_⟩
  · intro k
    rw [sol.amount_finalize, sol'.amount_finalize, h.weights, h'.weights]
  · exact h.total.trans h'.total.symm
  · exact h.donation.trans h'.donation.symm

theorem Gathers.boundary_same {sol : WeightsSol} (h : Gathers ds n sol) (h' : Gathers ds n sol')
    (desired : UInt288) (d : WeightsDelta) :
    (sol.boundary desired d).Same (sol'.boundary desired d) := by
  have htotal : sol.total = sol'.total := h.total.trans h'.total.symm
  have hdonation : sol.donation = sol'.donation := h.donation.trans h'.donation.symm
  unfold WeightsSol.boundary
  rw [htotal, hdonation]
  refine ⟨?_, rfl, rfl⟩
  intro k
  rw [WeightsSol.amount_finalize, WeightsSol.amount_finalize, List.map_append, List.map_append,
    List.sum_append, List.sum_append, h.weights, h'.weights]

theorem StopsAt.same {maxShares : Nat} {j j' : Nat} (h : StopsAt ds maxShares desired j r)
    (h' : StopsAt ds maxShares desired j' r') (hj : j < maxShares) (hj' : j' < maxShares)
    (hbelow : Below ds desired j) (hbelow' : Below ds desired j') : r.Same r' := by
  have hstop : ∀ {i i' r}, StopsAt ds maxShares desired i r → i' < maxShares →
      Below ds desired i' → ¬ i < i' := by
    intro i i' r hs hi' hb hlt
    have hless := BitVec.lt_def.mp (hb (i + 1) (by omega) (by omega))
    cases hs with
    | whole sol hsol hle hend =>
      rw [← hsol.total] at hless
      rcases hend with hend | hend
      · omega
      · rw [hend] at hless
        omega
    | part sol hsol hover =>
      have hover := BitVec.lt_def.mp hover
      rw [hsol.total, ← sum_range_succ] at hover
      omega
  obtain rfl : j = j' := by
    have h₁ := hstop h hj' hbelow'
    have h₂ := hstop h' hj hbelow
    omega
  have hexcl : ∀ {sol sol' : WeightsSol}, Gathers ds (j + 1) sol → sol.total ≤ desired →
      Gathers ds j sol' → ¬ desired < sol'.total + (ds j).totalWeight := by
    intro sol sol' hs hle hs' hover
    have hle := BitVec.le_def.mp hle
    have hover := BitVec.lt_def.mp hover
    rw [hs'.total, ← sum_range_succ, ← hs.total] at hover
    omega
  cases h with
  | whole sol hsol hle hend =>
    cases h' with
    | whole sol' hsol' hle' hend' => exact hsol.finalize_same hsol'
    | part sol' hsol' hover' => exact absurd hover' (hexcl hsol hle hsol')
  | part sol hsol hover =>
    cases h' with
    | whole sol' hsol' hle' hend' => exact absurd hover (hexcl hsol' hle' hsol)
    | part sol' hsol' hover' => exact hsol.boundary_same hsol' desired _

theorem linearWalk_stops {sol : WeightsSol} (hone : ∀ i, (ds i).shareCount = 1) {n i : Nat}
    (hsol : Gathers ds i sol) (hbelow : Below ds desired i) (hn : 1 ≤ n) :
    ∃ j < i + n, Below ds desired j ∧
      StopsAt ds (i + n) desired j (linearWalk ds desired n i sol) := by
  induction n generalizing i sol with
  | zero => omega
  | succ n ih =>
    have hnext : Gathers ds (i + 1) (sol.apply (ds i)) := hsol.apply (sumsTo_one (hone i))
    unfold linearWalk
    by_cases hover : desired < sol.total + (ds i).totalWeight
    · rw [if_pos hover]
      exact ⟨i, by omega, hbelow, .part sol hsol hover⟩
    rw [if_neg hover]
    have hle : (sol.apply (ds i)).total ≤ desired := BitVec.not_lt.mp hover
    by_cases hexact : sol.total + (ds i).totalWeight = desired
    · rw [if_pos hexact]
      exact ⟨i, by omega, hbelow, .whole _ hnext hle (.inr hexact)⟩
    rw [if_neg hexact]
    cases n with
    | zero => exact ⟨i, by omega, hbelow, .whole _ hnext hle (.inl rfl)⟩
    | succ n =>
      have hbelow' : Below ds desired (i + 1) := by
        intro l hl hli
        by_cases hlast : l = i + 1
        · rw [hlast, ← hnext.total]
          exact BitVec.lt_of_le_ne hle hexact
        · exact hbelow l hl (by omega)
      rcases ih hnext hbelow' (by omega) with ⟨j, hj, hjb, hjs⟩
      refine ⟨j, by omega, hjb, ?_⟩
      rw [show i + (n + 1 + 1) = i + 1 + (n + 1) by omega]
      exact hjs

/-- A share's own delta: one share, with enough weight to be divided by or
with nothing at all. -/
structure WeightsDelta.Proper (d : WeightsDelta) : Prop where
  one : d.shareCount = 1
  scalable : 65535 ≤ d.totalWeight ∨ d = ⟨1, [], 0, 0⟩

theorem WeightsDelta.Proper.eq_empty (h : d.Proper) (hzero : d.totalWeight = 0) :
    d = ⟨1, [], 0, 0⟩ := by
  rcases h.scalable with hbig | hempty
  · rw [hzero] at hbig
    exact absurd hbig (by decide)
  · exact hempty

/-- The total weights of the first `n` shares fit into 288 bits. -/
def NoWrap (ds : Nat → WeightsDelta) (n : Nat) : Prop :=
  ∑ i ∈ Finset.range n, (ds i).totalWeight.toNat < 2 ^ 288

instance (ds : Nat → WeightsDelta) (n : Nat) : Decidable (NoWrap ds n) :=
  inferInstanceAs (Decidable (_ < _))

section NoWrap

variable {ds : Nat → WeightsDelta} {n m : Nat}

theorem NoWrap.mono (h : NoWrap ds n) (hm : m ≤ n) : NoWrap ds m := by
  refine lt_of_le_of_lt ?_ h
  exact sum_le_sum_of_subset (range_subset_range.mpr hm)

theorem NoWrap.congr {ds' : Nat → WeightsDelta} (h : NoWrap ds n) (hds : ∀ i < n, ds' i = ds i) :
    NoWrap ds' n := by
  unfold NoWrap
  rw [sum_congr rfl fun i hi => by rw [hds i (mem_range.mp hi)]]
  exact h

theorem NoWrap.toNat_sum (h : NoWrap ds n) :
    (∑ i ∈ Finset.range n, (ds i).totalWeight).toNat =
      ∑ i ∈ Finset.range n, (ds i).totalWeight.toNat := by
  induction n with
  | zero => rfl
  | succ n ih =>
    have hsum := ih (h.mono (Nat.le_succ n))
    unfold NoWrap at h
    rw [sum_range_succ] at h
    rw [sum_range_succ, sum_range_succ, BitVec.toNat_add, hsum, mod_eq_of_lt h]

theorem NoWrap.sum_le (h : NoWrap ds n) (hm : m ≤ n) :
    ∑ i ∈ Finset.range m, (ds i).totalWeight ≤ ∑ i ∈ Finset.range n, (ds i).totalWeight := by
  rw [BitVec.le_def, (h.mono hm).toNat_sum, h.toNat_sum]
  exact sum_le_sum_of_subset (range_subset_range.mpr hm)

theorem NoWrap.below (h : NoWrap ds n)
    (hlt : n = 0 ∨ ∑ i ∈ Finset.range n, (ds i).totalWeight < desired) : Below ds desired n := by
  intro i hi hin
  rcases hlt with hzero | hlt
  · omega
  · rw [BitVec.lt_def] at hlt ⊢
    exact lt_of_le_of_lt (BitVec.le_def.mp (h.sum_le hin)) hlt

theorem NoWrap.gathers_of_sum_eq (h : NoWrap ds n) (hproper : ∀ i, (ds i).Proper) (hm : m ≤ n)
    (hsol : Gathers ds n sol)
    (hsum : sol.total = ∑ i ∈ Finset.range m, (ds i).totalWeight) : Gathers ds m sol := by
  induction n with
  | zero =>
    obtain rfl : m = 0 := by omega
    exact hsol
  | succ n ih =>
    by_cases hlast : m = n + 1
    · rw [hlast]
      exact hsol
    have hprev := h.mono (Nat.le_succ n)
    have hle := BitVec.le_def.mp (hprev.sum_le (show m ≤ n by omega))
    have htotal := congrArg BitVec.toNat hsol.total
    rw [h.toNat_sum, sum_range_succ, ← hprev.toNat_sum, hsum] at htotal
    have hzero : (ds n).totalWeight = 0 := by
      apply BitVec.eq_of_toNat_eq
      show _ = 0
      omega
    have hempty := (hproper n).eq_empty hzero
    apply ih hprev (by omega)
    refine ⟨?_, ?_, ?_⟩
    · rw [hsol.total, sum_range_succ, hempty]
      exact BitVec.add_zero _
    · rw [hsol.donation, sum_range_succ, hempty]
      exact BitVec.add_zero _
    · intro k
      rw [hsol.weights, sum_range_succ, hempty]
      exact BitVec.add_zero _

theorem NoWrap.stopsAt {maxShares : Nat} (hproper : ∀ i, (ds i).Proper) (h : NoWrap ds n)
    (hn : 1 ≤ n) (hmax : n ≤ maxShares) (hsol : Gathers ds n sol) (hle : sol.total ≤ desired)
    (hend : n = maxShares ∨ sol.total = desired) :
    ∃ j < maxShares, Below ds desired j ∧ StopsAt ds maxShares desired j sol.finalize := by
  induction n using Nat.strongRecOn with
  | _ n ih =>
    by_cases hbelow : Below ds desired (n - 1)
    · obtain ⟨j, rfl⟩ : ∃ j, n = j + 1 := ⟨n - 1, by omega⟩
      exact ⟨j, by omega, hbelow, .whole sol hsol hle hend⟩
    unfold Below at hbelow
    push Not at hbelow
    rcases hbelow with ⟨i, hi, hin, hreach⟩
    have hreach := BitVec.not_lt.mp hreach
    have hsum := h.sum_le (show i ≤ n by omega)
    rw [← hsol.total] at hsum
    have htotal : sol.total = desired := BitVec.le_antisymm hle (BitVec.le_trans hreach hsum)
    have hsame : sol.total = ∑ l ∈ Finset.range i, (ds l).totalWeight :=
      BitVec.le_antisymm (BitVec.le_trans hle hreach) hsum
    exact ih i (by omega) (h.mono (by omega)) hi (by omega)
      (h.gathers_of_sum_eq hproper (by omega) hsol hsame) (.inr htotal)

end NoWrap

/-! ## One query -/

namespace WeightsSkipList

variable {prev : H → H} {delta : H → WeightsDelta} {start : H} {maxShares : Nat} {previous : H → H}
  {getDelta : H → WeightsDelta} {skips : WeightsSkipList H}

/-- The deltas of the shares below `x`. -/
def below (prev : H → H) (delta : H → WeightsDelta) (x : H) (i : Nat) : WeightsDelta :=
  delta (prev^[i] x)

/-- A jump over the sum of the shares it passes; a jump over one share is that
share's own delta. -/
def Covers (prev : H → H) (delta : H → WeightsDelta) (x target : H) (d : WeightsDelta) : Prop :=
  ∃ m, 1 ≤ m ∧ prev^[m] x = target ∧ SumsTo (below prev delta x) 0 m d ∧ (m = 1 → d = delta x)

/-- Every stored level is a true jump along `prev`. -/
def Truthful (prev : H → H) (delta : H → WeightsDelta) (skips : WeightsSkipList H) : Prop :=
  TableOk (fun x => (prev x, delta x)) (Covers prev delta) skips

omit [DecidableEq H] [Inhabited H] in
theorem below_iterate (x : H) (n i : Nat) :
    below prev delta (prev^[n] x) i = below prev delta x (n + i) := by
  unfold below
  rw [add_comm, iterate_add_apply]

omit [DecidableEq H] [Inhabited H] in
theorem sumsTo_of_iterate {d : WeightsDelta} {x : H} {n m : Nat}
    (h : SumsTo (below prev delta (prev^[n] x)) 0 m d) : SumsTo (below prev delta x) n m d := by
  refine ⟨h.count, ?_, ?_, ?_⟩
  · simpa only [below_iterate, zero_add] using h.total
  · simpa only [below_iterate, zero_add] using h.donation
  · simpa only [below_iterate, zero_add] using h.weights

omit [DecidableEq H] [Inhabited H] in
theorem Covers.combine {d : WeightsDelta} {x y z : H} (h : Covers prev delta x y d)
    (h' : Covers prev delta y z d') : Covers prev delta x z (combineDeltas d d') := by
  rcases h with ⟨m, hm, rfl, hsum, -⟩
  rcases h' with ⟨m', hm', rfl, hsum', -⟩
  refine ⟨m + m', by omega, ?_, ?_, fun h => by omega⟩
  · rw [add_comm, iterate_add_apply]
  apply hsum.combine
  rw [zero_add]
  exact sumsTo_of_iterate hsum'

/-- Where a query stands: at the share below those it has gathered, short of
both limits. -/
structure Stands (prev : H → H) (delta : H → WeightsDelta) (start : H) (maxShares : Nat)
    (desired : UInt288) (pos : H) (sol : WeightsSol) : Prop where
  pos : prev^[sol.count] start = pos
  count : sol.count < maxShares
  gathers : Gathers (below prev delta start) sol.count sol
  total : sol.count = 0 ∨ sol.total < desired

omit [DecidableEq H] [Inhabited H] in
theorem Stands.apply {d : WeightsDelta} {pos target : H}
    (h : Stands prev delta start maxShares desired pos sol) (hd : Covers prev delta pos target d) :
    prev^[(sol.apply d).count] start = target ∧ sol.count < (sol.apply d).count ∧
      Gathers (below prev delta start) (sol.apply d).count (sol.apply d) := by
  rcases hd with ⟨m, hm, rfl, hsum, -⟩
  rw [← h.pos] at hsum ⊢
  have hsum' := sumsTo_of_iterate hsum
  have hcount : (sol.apply d).count = sol.count + m := by
    show sol.count + d.shareCount = _
    rw [hsum.count]
  rw [hcount]
  refine ⟨?_, by omega, h.gathers.apply hsum'⟩
  rw [add_comm, iterate_add_apply]

omit [DecidableEq H] [Inhabited H] in
theorem judge_cases (previous : H → H) (getDelta : H → WeightsDelta) (maxShares : Nat)
    (desired : UInt288) (sol : WeightsSol) (target : H) (d : WeightsDelta) :
    (desired < sol.total + d.totalWeight ∧ d.shareCount = 1 ∧
      (weightsWalker previous getDelta maxShares desired).judge sol target d =
        .finish (sol.boundary desired d)) ∨
    ((sol.apply d).count ≤ maxShares ∧ (sol.apply d).total ≤ desired ∧ d.shareCount ≠ 0 ∧
      ((sol.apply d).count = maxShares ∨ (sol.apply d).total = desired) ∧
      (weightsWalker previous getDelta maxShares desired).judge sol target d =
        .finish (sol.apply d).finalize) ∨
    ((sol.apply d).count < maxShares ∧ (sol.apply d).total < desired ∧ d.shareCount ≠ 0 ∧
      (weightsWalker previous getDelta maxShares desired).judge sol target d =
        .take (sol.apply d)) ∨
    ((d.shareCount ≠ 1 ∨ maxShares < sol.count + 1) ∧
      (weightsWalker previous getDelta maxShares desired).judge sol target d = .skip) := by
  have hcount : (sol.apply d).count = sol.count + d.shareCount := rfl
  have htotal : (sol.apply d).total = sol.total + d.totalWeight := rfl
  simp only [weightsWalker, hcount, htotal]
  by_cases hzero : d.shareCount = 0
  · right; right; right
    exact ⟨.inl (by omega), by rw [if_pos hzero]⟩
  rw [if_neg hzero]
  by_cases hover : desired < sol.total + d.totalWeight
  · by_cases hone : d.shareCount = 1
    · left
      exact ⟨hover, hone, by rw [if_pos ⟨hover, hone⟩]⟩
    right; right; right
    refine ⟨.inl hone, ?_⟩
    rw [if_neg (fun h => hone h.2), if_pos (.inr hover)]
  rw [if_neg (fun h => hover h.1)]
  have hle := BitVec.not_lt.mp hover
  by_cases hmany : maxShares < sol.count + d.shareCount
  · right; right; right
    exact ⟨by omega, by rw [if_pos (.inl hmany)]⟩
  rw [if_neg (fun h => h.elim hmany hover)]
  by_cases hend : sol.count + d.shareCount = maxShares ∨ sol.total + d.totalWeight = desired
  · right; left
    exact ⟨by omega, hle, hzero, hend, by rw [if_pos hend]⟩
  right; right; left
  refine ⟨by omega, ?_, hzero, by rw [if_neg hend]⟩
  exact BitVec.lt_of_le_ne hle fun h => hend (.inr h)

/-- What a query has to know of its shares: the callbacks are right about them
and none of them is the null hash. -/
structure Readable (prev : H → H) (delta : H → WeightsDelta) (previous : H → H)
    (getDelta : H → WeightsDelta) (x : H) : Prop where
  nonNull : x ≠ default
  previous : previous x = prev x
  getDelta : getDelta x = delta x

omit [DecidableEq H] in
theorem weightsWalker_sound (hproper : ∀ x, (delta x).Proper) (desired : UInt288)
    (hheld : ∀ i < maxShares, Readable prev delta previous getDelta (prev^[i] start)) :
    Sound (weightsWalker previous getDelta maxShares desired) (fun x => (prev x, delta x))
      (Covers prev delta) (Stands prev delta start maxShares desired)
      (fun r => NoWrap (below prev delta start) maxShares → ∃ j < maxShares,
        Below (below prev delta start) desired j ∧
          StopsAt (below prev delta start) maxShares desired j r)
      (fun sol => maxShares - sol.count) := by
  constructor
  · intro x y z d d' h h'
    exact h.combine h'
  · intro pos sol h
    have hread := hheld sol.count h.count
    rw [h.pos] at hread
    refine ⟨hread.nonNull, by simp [weightsWalker, hread.previous, hread.getDelta], 1, le_rfl,
      rfl, ?_, fun _ => rfl⟩
    exact sumsTo_one (hproper pos).one
  · intro pos sol h
    rcases judge_cases previous getDelta maxShares desired sol (prev pos) (delta pos) with
      ⟨-, -, hj⟩ | ⟨-, -, -, -, hj⟩ | ⟨-, -, -, hj⟩ | ⟨hbad, -⟩
    · simp [hj]
    · simp [hj]
    · simp [hj]
    · have := (hproper pos).one
      have := h.count
      omega
  · intro pos sol target d r h hd hjudge hwrap
    have happly := h.apply hd
    rcases judge_cases previous getDelta maxShares desired sol target d with
      ⟨hover, hone, hj⟩ | ⟨hcount, htotal, -, hend, hj⟩ | ⟨-, -, -, hj⟩ | ⟨-, hj⟩
    · -- the boundary share: a jump over one share is its own delta
      rw [hj] at hjudge
      cases hjudge
      rcases hd with ⟨m, -, -, hsum, hown⟩
      have hd : d = below prev delta start sol.count := by
        rw [hown (hsum.count.symm.trans hone), ← h.pos]
        rfl
      rw [hd] at hover ⊢
      refine ⟨sol.count, h.count, ?_, .part sol h.gathers hover⟩
      apply (hwrap.mono h.count.le).below
      rw [← h.gathers.total]
      exact h.total
    · rw [hj] at hjudge
      cases hjudge
      exact (hwrap.mono hcount).stopsAt (fun i => hproper _) (by omega) hcount happly.2.2 htotal
        hend
    · rw [hj] at hjudge
      cases hjudge
    · rw [hj] at hjudge
      cases hjudge
  · intro pos sol target d sol' h hd hjudge
    have happly := h.apply hd
    rcases judge_cases previous getDelta maxShares desired sol target d with
      ⟨-, -, hj⟩ | ⟨-, -, -, -, hj⟩ | ⟨hcount, htotal, -, hj⟩ | ⟨-, hj⟩
    · rw [hj] at hjudge
      cases hjudge
    · rw [hj] at hjudge
      cases hjudge
    · rw [hj] at hjudge
      cases hjudge
      exact ⟨⟨happly.1, hcount, happly.2.2, .inr htotal⟩, by omega⟩
    · rw [hj] at hjudge
      cases hjudge

theorem Truthful.query_spec (hskips : Truthful prev delta skips) (hproper : ∀ x, (delta x).Proper)
    (draw : H → Nat) (hmax : 1 ≤ maxShares) (desired : UInt288)
    (hheld : ∀ i < maxShares, Readable prev delta previous getDelta (prev^[i] start)) :
    (NoWrap (below prev delta start) maxShares →
      (query previous getDelta draw skips start maxShares desired).1.Same
        (linearWalk (below prev delta start) desired maxShares 0 .initial)) ∧
      Truthful prev delta (query previous getDelta draw skips start maxShares desired).2 := by
  have hstart : start ≠ default := (hheld 0 hmax).nonNull
  have hbegin : Stands prev delta start maxShares desired start .initial :=
    ⟨rfl, hmax, initial_gathers _, .inl rfl⟩
  have hfuel : maxShares - WeightsSol.initial.count < maxShares + 100 := by
    show maxShares - 0 < maxShares + 100
    omega
  have hloop := loop_sound (weightsWalker_sound hproper desired hheld) draw hskips
    (u := fun _ => none) (fun i p hp => by cases hp) hbegin hfuel
  unfold query
  rw [if_neg hstart]
  refine ⟨?_, hloop.2⟩
  intro hwrap
  rcases hloop.1 hwrap with ⟨j, hj, hbelow, hstop⟩
  have hnone : Below (below prev delta start) desired 0 := by
    intro i hi hi'
    omega
  rcases linearWalk_stops (fun i => (hproper _).one) (initial_gathers _) hnone hmax with
    ⟨j', hj', hbelow', hstop'⟩
  rw [zero_add] at hj' hstop'
  exact hstop.same hstop' hj hj' hbelow hbelow'

theorem Truthful.query_zero (hskips : Truthful prev delta skips) (draw : H → Nat)
    (hlight : (delta start).totalWeight ≤ desired) (hmissing : (getDelta start).shareCount = 0) :
    (query previous getDelta draw skips start 0 desired).1 = ⟨[], 0, 0⟩ := by
  unfold query
  by_cases hnull : start = default
  · rw [if_pos hnull]
  rw [if_neg hnull]
  apply loop_stuck (by omega) hnull
  intro l hl
  rcases judge_cases previous getDelta 0 desired .initial l.1 l.2 with
    ⟨hover, hone, -⟩ | ⟨hcount, -, hpos, -⟩ | ⟨hcount, -⟩ | ⟨-, hj⟩
  · exfalso
    unfold entryAt ensure at hl
    split at hl
    · rename_i hmem
      obtain ⟨e, he⟩ := Finmap.mem_iff.mp hmem
      rw [he] at hl
      obtain ⟨m, -, -, hsum, hown⟩ := (hskips start e he).2 l hl
      rw [hown (hsum.count.symm.trans hone)] at hover
      have hzero : WeightsSol.initial.total + (delta start).totalWeight =
          (delta start).totalWeight := BitVec.zero_add _
      rw [hzero, BitVec.lt_def] at hover
      have hlight := BitVec.le_def.mp hlight
      omega
    rw [Finmap.lookup_insert] at hl
    have hl' : l = (previous start, getDelta start) := List.mem_singleton.mp hl
    rw [hl', hmissing] at hone
    cases hone
  · exfalso
    have : WeightsSol.initial.count + l.2.shareCount ≤ 0 := hcount
    omega
  · exact absurd hcount (not_lt_zero _)
  · exact hj

end WeightsSkipList

end C2Pool.Sharechain
