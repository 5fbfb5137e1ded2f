import C2Pool.Sharechain.ForestRun
import C2Pool.Sharechain.WeightsSkipList

/-! # The decayed weights and their cache

`get_v36_decayed_cumulative_weights` walks from a share towards the tail and weighs each share by
its work, halved every quarter of the chain length. The last result is kept, keyed by the arguments
of the query. A removal drops it; an addition does not.
-/

namespace C2Pool.Ltc

open Sharechain Run FiniteMap

def bitsToTarget (bits : BitVec 32) : BitVec 256 :=
  let size := (bits >>> 24).toNat
  let word := bits &&& 0x00ffffff
  if size ≤ 3 then (word >>> (8 * (3 - size))).setWidth 256
  else word.setWidth 256 <<< (8 * (size - 3))

/-- `target_to_average_attempts`: `2^256 / (target + 1)`. -/
def targetToAverageAttempts (target : BitVec 256) : UInt288 :=
  (1 <<< 256) / (target.setWidth 288 + 1)

/-- What the payout walks read of a share: `m_bits`, `m_donation` and
`get_share_script`. -/
structure PayShare where
  bits : BitVec 32
  donation : BitVec 16
  script : Script
deriving DecidableEq

def PayShare.attempts (share : PayShare) : UInt288 :=
  targetToAverageAttempts (bitsToTarget share.bits)

def mul128Shift (a b shift : Nat) : Nat :=
  ((a * b) >>> shift) % 2 ^ 64

def decayScale : Nat := 2 ^ 40

/-- `decay_per`: the decay of one share, from `LN2_MICRO` and the half life. -/
def decayPer (chainLength : Nat) : Nat :=
  decayScale - decayScale * 693147 / (1000000 * max (chainLength / 4) 1)

/-- The running result and `decay_fp`. -/
structure DecayAcc where
  result : CumulativeWeightsResult
  decay : Nat

namespace DecayAcc

def initial : DecayAcc := ⟨⟨[], 0, 0⟩, decayScale⟩

/-- The body of the walk for one share; a share that passes the desired weight
is scaled down to what remains. -/
def weigh (desired : UInt288) (acc : DecayAcc) (share : PayShare) : CumulativeWeightsResult :=
  let decayedAtt := (share.attempts * BitVec.ofNat 288 acc.decay) >>> 40
  let addrW := decayedAtt * (65535 - share.donation.setWidth 288)
  let donW := decayedAtt * share.donation.setWidth 288
  let total := addrW + donW
  if desired < acc.result.totalWeight + total then
    let remaining := desired - acc.result.totalWeight
    ⟨acc.result.weights.bump share.script
        (if total = 0 then addrW else addrW * remaining / total),
      acc.result.totalWeight + remaining,
      acc.result.totalDonationWeight + (if total = 0 then donW else donW * remaining / total)⟩
  else
    ⟨acc.result.weights.bump share.script addrW, acc.result.totalWeight + total,
      acc.result.totalDonationWeight + donW⟩

end DecayAcc

variable {H : Type} [DecidableEq H] [Inhabited H] (chainLength : Nat)

/-- The walk over at most `n` more shares from `cur`. -/
def decayedWalk (c : Forest H PayShare) (desired : UInt288) :
    Nat → H → DecayAcc → CumulativeWeightsResult
  | 0, _, acc => acc.result
  | n + 1, cur, acc =>
    match c.current cur with
    | none => acc.result
    | some data =>
      let result := acc.weigh desired data.share
      if desired ≤ result.totalWeight then result
      else
        decayedWalk c desired n data.index.tail
          ⟨result, mul128Shift acc.decay (decayPer chainLength) 40⟩

def freshWeights (c : Forest H PayShare) (start : H) (maxShares : Nat) (desired : UInt288) :
    CumulativeWeightsResult :=
  decayedWalk chainLength c desired maxShares start .initial

def missingHash (c : Forest H PayShare) (desired : UInt288) : Nat → H → DecayAcc → Option H
  | 0, _, _ => none
  | n + 1, cur, acc =>
    if cur = default then none
    else
      match c.shares.lookup cur with
      | none => some cur
      | some data =>
        let result := acc.weigh desired data.share
        if desired ≤ result.totalWeight then none
        else
          missingHash c desired n data.index.tail
            ⟨result, mul128Shift acc.decay (decayPer chainLength) 40⟩

/-! ## The cache -/

/-- `m_decayed_cache_*` when valid. -/
structure DecayCache (H : Type) where
  start : H
  shares : Nat
  desired : UInt288
  result : CumulativeWeightsResult
deriving DecidableEq

structure DecayTracker (H : Type) where
  chain : Forest H PayShare
  cache : Option (DecayCache H)

namespace DecayTracker

def empty : DecayTracker H := ⟨.empty, none⟩

/-- The desired weight of `prime_pplns_cache`: 68 hexadecimal digits. -/
def unlimited : UInt288 := (1 <<< 272) - 1

def add (t : DecayTracker H) (data : ChainData H PayShare) : DecayTracker H :=
  if data.index.head ∈ t.chain.shares then t else { t with chain := t.chain.add data }

/-- `chain.remove`, whose signal invalidates the cache. -/
def remove (t : DecayTracker H) (hash : H) : DecayTracker H :=
  if (t.chain.remove hash).1 then ⟨(t.chain.remove hash).2, none⟩ else t

/-- `prime_pplns_cache`. -/
def prime (t : DecayTracker H) (start : H) (maxShares : Nat) (weights : CumulativeWeightsResult) :
    DecayTracker H :=
  { t with cache := some ⟨start, maxShares, unlimited, weights⟩ }

/-- `get_v36_decayed_cumulative_weights`. -/
def query (t : DecayTracker H) (start : H) (maxShares : Nat) (desired : UInt288) :
    CumulativeWeightsResult × DecayTracker H :=
  if start = default then (⟨[], 0, 0⟩, t)
  else
    match t.cache with
    | some e =>
      if e.start = start ∧ e.shares = maxShares ∧ e.desired = desired then (e.result, t)
      else
        let result := freshWeights chainLength t.chain start maxShares desired
        (result, { t with cache := some ⟨start, maxShares, desired, result⟩ })
    | none =>
      let result := freshWeights chainLength t.chain start maxShares desired
      (result, { t with cache := some ⟨start, maxShares, desired, result⟩ })

inductive Op (H : Type) where
  | add (data : ChainData H PayShare)
  | remove (hash : H)
  | invalidate
  | prime (start : H) (maxShares : Nat) (weights : CumulativeWeightsResult)
  | query (start : H) (maxShares : Nat) (desired : UInt288)

def step (t : DecayTracker H) : Op H → DecayTracker H
  | .add data => t.add data
  | .remove hash => t.remove hash
  | .invalidate => { t with cache := none }
  | .prime start maxShares weights => t.prime start maxShares weights
  | .query start maxShares desired => (t.query chainLength start maxShares desired).2

def PrimedRight (t : DecayTracker H) : Op H → Prop
  | .prime start maxShares weights =>
    weights = freshWeights chainLength t.chain start maxShares unlimited
  | .add _ | .remove _ | .invalidate | .query _ _ _ => True

/-- Primed with correct weights, and no addition brings the share that the
cached walk was missing. -/
def NeverCompletes (t : DecayTracker H) : Op H → Prop
  | .add data => ∀ e, t.cache = some e →
      missingHash chainLength t.chain e.desired e.shares e.start .initial ≠ some data.index.head
  | .prime start maxShares weights =>
    weights = freshWeights chainLength t.chain start maxShares unlimited
  | .remove _ | .invalidate | .query _ _ _ => True

def CacheRight (t : DecayTracker H) : Prop :=
  ∀ e, t.cache = some e → e.result = freshWeights chainLength t.chain e.start e.shares e.desired

variable {chainLength}

theorem decayedWalk_add {c : Forest H PayShare} {data : ChainData H PayShare}
    (hnew : data.index.head ∉ c.shares) {desired : UInt288} {n : Nat} {cur : H} {acc : DecayAcc}
    (hmiss : missingHash chainLength c desired n cur acc ≠ some data.index.head) :
    decayedWalk chainLength (c.add data) desired n cur acc =
      decayedWalk chainLength c desired n cur acc := by
  induction n generalizing cur acc with
  | zero => rfl
  | succ n ih =>
    have hlookup : ∀ x, x ≠ data.index.head →
        (c.add data).shares.lookup x = c.shares.lookup x := by
      intro x hx
      show (c.shares.insert data.index.head data).lookup x = _
      rw [lookup_insert_ite, if_neg hx]
    unfold decayedWalk Forest.current
    unfold missingHash at hmiss
    by_cases hnull : cur = default
    · simp [hnull]
    rw [if_neg hnull] at hmiss
    rw [if_neg hnull, if_neg hnull]
    cases hcur : c.shares.lookup cur with
    | none =>
      simp only [hcur] at hmiss
      rw [hlookup cur fun h => hmiss (by rw [h]), hcur]
    | some held =>
      have hne : cur ≠ data.index.head := by
        intro h
        exact hnew (h ▸ Finmap.mem_of_lookup_eq_some hcur)
      simp only [hcur] at hmiss
      rw [hlookup cur hne, hcur]
      dsimp only
      split
      · rfl
      rename_i hshort
      rw [if_neg hshort] at hmiss
      exact ih hmiss

theorem step_cacheRight (t : DecayTracker H) (op : Op H) (h : CacheRight chainLength t)
    (hop : NeverCompletes chainLength t op) : CacheRight chainLength (t.step chainLength op) := by
  cases op with
  | add data =>
    show CacheRight chainLength (t.add data)
    unfold add
    split
    · exact h
    rename_i hnew
    intro e he
    have hcached := h e he
    rw [hcached]
    exact (decayedWalk_add hnew (hop e he)).symm
  | remove hash =>
    show CacheRight chainLength (t.remove hash)
    unfold remove
    split
    · intro e he
      cases he
    · exact h
  | invalidate =>
    intro e he
    cases he
  | prime start maxShares weights =>
    intro e he
    cases he
    exact hop
  | query start maxShares desired =>
    show CacheRight chainLength (t.query chainLength start maxShares desired).2
    have hfresh : CacheRight chainLength { t with cache := some ⟨start, maxShares, desired,
        freshWeights chainLength t.chain start maxShares desired⟩ } := by
      intro e he
      cases he
      rfl
    unfold query
    split
    · exact h
    cases hcache : t.cache with
    | none => exact hfresh
    | some e =>
      dsimp only
      split
      · exact h
      · exact hfresh

theorem CacheRight.query {t : DecayTracker H} (h : CacheRight chainLength t) (start : H)
    (maxShares : Nat) (desired : UInt288) :
    (t.query chainLength start maxShares desired).1 =
      freshWeights chainLength t.chain start maxShares desired := by
  unfold DecayTracker.query
  split
  · rename_i hnull
    unfold freshWeights
    cases maxShares with
    | zero => rfl
    | succ n =>
      unfold decayedWalk Forest.current
      rw [if_pos hnull]
      rfl
  cases hcache : t.cache with
  | none => rfl
  | some e =>
    dsimp only
    split
    · rename_i hkey
      rw [h e hcache, hkey.1, hkey.2.1, hkey.2.2]
    · rfl

variable (chainLength)

/-- In every run in which no addition completes the cached walk, every query
is a fresh walk over the shares held at its time. -/
theorem run_query_fresh (ops : List (Op H))
    (hops : Admissible (step chainLength) (NeverCompletes chainLength) empty ops) (start : H)
    (maxShares : Nat) (desired : UInt288) :
    ((run (step chainLength) empty ops).query chainLength start maxShares desired).1 =
      freshWeights chainLength (run (step chainLength) empty ops).chain start maxShares
        desired := by
  have hempty : CacheRight chainLength (empty : DecayTracker H) := by
    intro e he
    cases he
  have h := run_invariant step_cacheRight hempty hops
  exact h.query start maxShares desired

def payShare (hash prev : Nat) : ChainData Nat PayShare :=
  ⟨⟨hash, prev, 1, 1⟩, ⟨0x1e0fffff, 655, [Fin.ofNat 256 hash]⟩⟩

/-- A query, and then an addition on top of the start. -/
def grownOps : List (Op Nat) :=
  [.add (payShare 1 0), .add (payShare 2 1), .query 2 5 unlimited, .add (payShare 3 2)]

theorem run_query_fresh_grownOps :
    ((run (step 8640) empty grownOps).query 8640 2 5 unlimited).1 =
      freshWeights 8640 (run (step 8640) empty grownOps).chain 2 5 unlimited := by
  apply run_query_fresh 8640 grownOps
  refine ⟨?_, ?_, trivial, ?_, trivial⟩
  · intro e he
    cases he
  · intro e he
    cases he
  · intro e he
    cases he
    decide +kernel

def lateParentOps : List (Op Nat) :=
  [.add (payShare 2 1), .query 2 5 unlimited, .add (payShare 1 0)]

theorem query_stale_after_parent :
    Admissible (step 8640) (PrimedRight 8640) empty lateParentOps ∧
      ((run (step 8640) empty lateParentOps).query 8640 2 5 unlimited).1 ≠
        freshWeights 8640 (run (step 8640) empty lateParentOps).chain 2 5 unlimited := by
  refine ⟨⟨trivial, trivial, trivial, trivial⟩, ?_⟩
  decide +kernel

end DecayTracker

end C2Pool.Ltc
