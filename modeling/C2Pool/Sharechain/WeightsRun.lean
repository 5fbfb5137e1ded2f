import C2Pool.Sharechain.Chain
import C2Pool.Sharechain.ForestRun
import C2Pool.Sharechain.WeightsSkipList

/-! # Payout weights over a run

Additions, removals and earlier queries leave levels that reach over shares
that have gone and come back.  A share's hash fixes its previous hash and its
weights, so every level stays the sum of the shares it passes.  Sums are taken
modulo `2^288`: a jump whose true total is larger can pass for a small one.
-/

namespace C2Pool.Sharechain

open Run

variable {H : Type} [DecidableEq H] [Inhabited H]

/-- The chain and its weight skip list; a share is known by its delta. -/
structure WeightsTracker (H : Type) where
  chain : Forest H WeightsDelta
  skips : WeightsSkipList H

namespace WeightsTracker

def empty : WeightsTracker H := ⟨.empty, ∅⟩

/-- The delta callback of `ensure_weights_skiplist`. -/
def getDelta (chain : Forest H WeightsDelta) (hash : H) : WeightsDelta :=
  match chain.shares.lookup hash with
  | some data => data.share
  | none => default

/-- `get_cumulative_weights`. -/
def query (t : WeightsTracker H) (draw : H → Nat) (start : H) (maxShares : Nat)
    (desired : UInt288) : CumulativeWeightsResult × WeightsTracker H :=
  let out := t.skips.query (ShareChain.previous t.chain) (getDelta t.chain) draw start maxShares
    desired
  (out.1, { t with skips := out.2 })

/-- `chain.remove`, whose signal makes the skip list forget the share. -/
def remove (t : WeightsTracker H) (hash : H) : WeightsTracker H :=
  if (t.chain.remove hash).1 then ⟨(t.chain.remove hash).2, t.skips.forget hash⟩ else t

/-- The deltas met when walking from `start` over the held shares. -/
def deltas (t : WeightsTracker H) (start : H) (i : Nat) : WeightsDelta :=
  getDelta t.chain ((ShareChain.previous t.chain)^[i] start)

def plainQuery (t : WeightsTracker H) (start : H) (maxShares : Nat) (desired : UInt288) :
    CumulativeWeightsResult :=
  linearWalk (t.deltas start) desired maxShares 0 .initial

inductive Op (H : Type) where
  | add (data : ChainData H WeightsDelta)
  | remove (hash : H)
  | forget (hash : H)
  | query (draw : H → Nat) (start : H) (maxShares : Nat) (desired : UInt288)

def step (t : WeightsTracker H) : Op H → WeightsTracker H
  | .add data => { t with chain := t.chain.add data }
  | .remove hash => t.remove hash
  | .forget hash => { t with skips := t.skips.forget hash }
  | .query draw start maxShares desired => (t.query draw start maxShares desired).2

/-- Shares are those their hashes stand for, and queries ask for at most as
many shares as there are below their start. -/
def Allowed (prev : H → H) (delta : H → WeightsDelta) (t : WeightsTracker H) : Op H → Prop
  | .add data =>
    data.index.tail = prev data.index.head ∧ data.share = delta data.index.head
  | .remove _ => True
  | .forget _ => True
  | .query _ start maxShares _ => 1 ≤ maxShares ∧ maxShares ≤ t.chain.getHeight start

instance (prev : H → H) (delta : H → WeightsDelta) (t : WeightsTracker H) :
    ∀ op, Decidable (Allowed prev delta t op)
  | .add data => inferInstanceAs (Decidable
      (data.index.tail = prev data.index.head ∧ data.share = delta data.index.head))
  | .remove _ => .isTrue trivial
  | .forget _ => .isTrue trivial
  | .query _ start maxShares _ => inferInstanceAs (Decidable
      (1 ≤ maxShares ∧ maxShares ≤ t.chain.getHeight start))

/-! ## The invariant -/

structure WeightsInvariant (prev : H → H) (delta : H → WeightsDelta) (t : WeightsTracker H) :
    Prop where
  follows : t.chain.Follows prev
  shares : ∀ x data, t.chain.shares.lookup x = some data → data.share = delta x
  truthful : t.skips.Truthful prev delta

variable {prev : H → H} {delta : H → WeightsDelta}

omit [Inhabited H] in
theorem empty_weightsInvariant : WeightsInvariant prev delta (empty : WeightsTracker H) := by
  refine ⟨Forest.empty_follows prev, ?_, LazySkipList.TableOk.empty⟩
  intro x data h
  simp [empty, Forest.empty] at h

variable {t : WeightsTracker H} {start : H}

section

variable (h : WeightsInvariant prev delta t) {n : Nat} (hn : n ≤ t.chain.getHeight start) {i : Nat}
  (hi : i < n)
include h hn hi

theorem WeightsInvariant.readable :
    WeightsSkipList.Readable prev delta (ShareChain.previous t.chain) (getDelta t.chain)
      (prev^[i] start) := by
  obtain ⟨hnull, hmem⟩ := h.follows.path_of_le_getHeight hn i hi
  obtain ⟨data, hdata⟩ := Finmap.mem_iff.mp hmem
  refine ⟨hnull, h.follows.previous_eq hmem, ?_⟩
  unfold getDelta
  rw [hdata]
  exact h.shares _ data hdata

/-- The walk over the held shares is the walk along `prev`. -/
theorem WeightsInvariant.deltas_eq :
    t.deltas start i = WeightsSkipList.below prev delta start i := by
  have hiter : ∀ j ≤ i, (ShareChain.previous t.chain)^[j] start = prev^[j] start := by
    intro j hj
    induction j with
    | zero => rfl
    | succ j ih =>
      rw [Function.iterate_succ_apply', Function.iterate_succ_apply', ih (by omega)]
      exact (h.readable hn (show j < n by omega)).previous
  unfold deltas
  rw [hiter i le_rfl]
  exact (h.readable hn hi).getDelta

end

theorem WeightsInvariant.query (h : WeightsInvariant prev delta t) (hproper : ∀ x, (delta x).Proper)
    (draw : H → Nat) {maxShares : Nat}
    (hone : 1 ≤ maxShares) (hmax : maxShares ≤ t.chain.getHeight start) (desired : UInt288) :
    (NoWrap (t.deltas start) maxShares →
      (t.query draw start maxShares desired).1.Same (t.plainQuery start maxShares desired)) ∧
      WeightsInvariant prev delta (t.query draw start maxShares desired).2 := by
  have hspec := h.truthful.query_spec hproper draw hone desired fun i hi => h.readable hmax hi
  refine ⟨?_, h.follows, h.shares, hspec.2⟩
  intro hwrap
  have hplain : t.plainQuery start maxShares desired =
      linearWalk (WeightsSkipList.below prev delta start) desired maxShares 0 .initial := by
    apply linearWalk_congr
    intro l _ hl
    exact h.deltas_eq hmax (by omega)
  rw [hplain]
  exact hspec.1 (hwrap.congr fun i hi => (h.deltas_eq hmax hi).symm)

theorem step_weightsInvariant (hproper : ∀ x, (delta x).Proper) (t : WeightsTracker H)
    (op : Op H) (h : WeightsInvariant prev delta t) (hop : Allowed prev delta t op) :
    WeightsInvariant prev delta (t.step op) := by
  cases op with
  | add data =>
    refine ⟨h.follows.add hop.1, ?_, h.truthful⟩
    intro x data' hx
    have hx' : (t.chain.shares.insert data.index.head data).lookup x = some data' := hx
    rw [FiniteMap.lookup_insert_ite] at hx'
    split at hx'
    · rename_i hxd
      cases hx'
      rw [hxd]
      exact hop.2
    · exact h.shares x data' hx'
  | remove hash =>
    show WeightsInvariant prev delta (t.remove hash)
    unfold remove
    split
    · have hsub : ∀ x data, (t.chain.remove hash).2.shares.lookup x = some data →
          t.chain.shares.lookup x = some data := by
        intro x data hx
        exact ((Forest.lookup_remove_iff _ _ _ _).mp hx).1
      exact ⟨h.follows.of_shares hsub, fun x data hx => h.shares x data (hsub x data hx),
        LazySkipList.TableOk.erase h.truthful hash⟩
    · exact h
  | forget hash => exact ⟨h.follows, h.shares, LazySkipList.TableOk.erase h.truthful hash⟩
  | query draw start maxShares desired => exact (h.query hproper draw hop.1 hop.2 desired).2

/-- After any allowed run, a query whose shares have total weights that fit
into 288 bits is the plain walk over the held shares. -/
theorem run_weights_agree (prev : H → H) (delta : H → WeightsDelta)
    (hproper : ∀ x, (delta x).Proper) (ops : List (Op H))
    (hops : Admissible step (Allowed prev delta) empty ops) (draw : H → Nat) (start : H)
    (maxShares : Nat) (desired : UInt288) (hone : 1 ≤ maxShares)
    (hmax : maxShares ≤ (run step empty ops).chain.getHeight start)
    (hwrap : NoWrap ((run step empty ops).deltas start) maxShares) :
    ((run step empty ops).query draw start maxShares desired).1.Same
      ((run step empty ops).plainQuery start maxShares desired) := by
  have h := run_invariant (step_weightsInvariant hproper) empty_weightsInvariant hops
  exact (h.query hproper draw hone hmax desired).1 hwrap

def plainDelta (weight : Nat → UInt288) (x : Nat) : WeightsDelta :=
  ⟨1, [([Fin.ofNat 256 x], weight x)], weight x, 0⟩

def weightShare (weight : Nat → UInt288) (x : Nat) : ChainData Nat WeightsDelta :=
  ⟨⟨x, x - 1, 1, 1⟩, plainDelta weight x⟩

/-- Four shares and a query over all of them that leaves a level from the
fourth share to the first. -/
def levelOps (weight : Nat → UInt288) : List (Op Nat) :=
  [.add (weightShare weight 1), .add (weightShare weight 2), .add (weightShare weight 3),
    .add (weightShare weight 4),
    .query (fun x => if x = 4 ∨ x = 1 then 2 else 1) 4 4 (BitVec.allOnes 288)]

def evenWeight (_ : Nat) : UInt288 := 131070

theorem run_weights_agree_levelOps :
    ((run step empty (levelOps evenWeight)).query (fun _ => 1) 4 4 300000).1.Same
      ((run step empty (levelOps evenWeight)).plainQuery 4 4 300000) := by
  apply run_weights_agree Nat.pred (plainDelta evenWeight)
  · intro x
    exact ⟨rfl, .inl (show 65535 ≤ (131070 : UInt288) by decide)⟩
  · decide +kernel
  · decide
  · decide
  · decide +kernel

/-- Three weights that add up to more than `2^288`. -/
def heavyWeight (x : Nat) : UInt288 :=
  if x = 1 then 65535 else if x = 4 then 1 <<< 286 else 1 <<< 287

/-- Without the bound the sum kept in a level can wrap around: the jump over
three shares is taken for a light one and hides the boundary share. -/
theorem weights_disagree_on_wraparound :
    (∀ x, (plainDelta heavyWeight x).Proper) ∧
      Admissible step (Allowed Nat.pred (plainDelta heavyWeight)) empty (levelOps heavyWeight) ∧
      4 ≤ (run step empty (levelOps heavyWeight)).chain.getHeight 4 ∧
      ¬ ((run step empty (levelOps heavyWeight)).query (fun _ => 1) 4 4 ((1 <<< 287) - 1)).1.Same
        ((run step empty (levelOps heavyWeight)).plainQuery 4 4 ((1 <<< 287) - 1)) := by
  refine ⟨?_, by decide +kernel, by decide, ?_⟩
  · intro x
    refine ⟨rfl, .inl ?_⟩
    show 65535 ≤ heavyWeight x
    unfold heavyWeight
    split
    · decide
    · split <;> decide
  · intro hsame
    exact absurd hsame.total (by decide +kernel)

end WeightsTracker

end C2Pool.Sharechain
