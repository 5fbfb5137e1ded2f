import C2Pool.Ltc.CompactTarget
import C2Pool.Ltc.HeadScoring

/-! # The target of a new share

`compute_share_target` estimates the pool's rate from the last 200 shares, clamps the target the
rate asks for to ten percent around the previous share's target, and eases that reference when no
share was found for a long time. Targets are 256-bit numbers; the products are taken in 288 bits.
-/

namespace C2Pool.Ltc

open List Sharechain ParentForest FiniteMap Relation Forest ShareChain Option

variable {H : Type} [DecidableEq H] [Inhabited H] {E : H → H → Prop} {prev : H → H}

/-- `PoolConfig::is_testnet`. -/
inductive PoolNetwork where
  | mainnet
  | testnet
deriving DecidableEq

def PoolNetwork.maxTarget : PoolNetwork → BitVec 256
  | .mainnet => 0x00000fffffffffffffffffffffffffffffffffffffffffffffffffffffffffff
  | .testnet => 0x0ccccccccccccccccccccccccccccccccccccccccccccccccccccccccccccccb

/-- `PoolConfig::share_period`, in seconds. -/
def PoolNetwork.sharePeriod : PoolNetwork → Nat
  | .mainnet => 15
  | .testnet => 4

def targetLookbehind : Nat := 200

/-- What the retarget reads of a share: `m_max_bits` and `m_timestamp`. -/
structure TargetShare where
  maxBits : BitVec 32
  timestamp : BitVec 32
deriving DecidableEq

/-- `emergency_decay_shl`: a left shift that saturates at the network's limit. -/
def emergencyDecayShl (prev : BitVec 256) (shift : Nat) (maxTarget : BitVec 256) : BitVec 256 :=
  if 256 ≤ shift ∨ maxTarget >>> shift < prev then maxTarget else prev <<< shift

def capTarget (maxTarget : BitVec 256) (value : UInt288) : BitVec 256 :=
  if maxTarget.setWidth 288 < value then maxTarget else value.setWidth 256

/-- `if (x < lo) x = lo; if (x > hi) x = hi;`. -/
def clipTarget (target lo hi : BitVec 256) : BitVec 256 :=
  let raised := if target < lo then lo else target
  if hi < raised then hi else raised

/-- `divisor` before it is kept from being zero. -/
def rateDivisor (net : PoolNetwork) (aps : UInt288) : UInt288 :=
  aps * BitVec.ofNat 288 net.sharePeriod

def preTarget (net : PoolNetwork) (aps : UInt288) : BitVec 256 :=
  if aps = 0 then net.maxTarget
  else
    let divisor := if rateDivisor net aps = 0 then 1 else rateDivisor net aps
    let result : UInt288 := (1 <<< 256) / divisor
    let result := if 1 < result then result - 1 else result
    capTarget net.maxTarget result

/-- `half_life` of the emergency decay. -/
def halfLife (net : PoolNetwork) : Nat := net.sharePeriod * 10

/-- The linear interpolation before its division: `eased * (half_life + remainder)`. -/
def easedProduct (net : PoolNetwork) (eased : BitVec 256) (remainder : Nat) : UInt288 :=
  eased.setWidth 288 * BitVec.ofNat 288 (halfLife net + remainder)

/-- The target eased by `excess` seconds past the threshold. -/
def easedTarget (net : PoolNetwork) (prevMaxTarget : BitVec 256) (excess : Nat) : BitVec 256 :=
  let eased := emergencyDecayShl prevMaxTarget (excess / halfLife net) net.maxTarget
  capTarget net.maxTarget
    (easedProduct net eased (excess % halfLife net) / BitVec.ofNat 288 (halfLife net))

/-- Step 3: `clamp_ref_target`, eased when the last share is more than twenty periods old. -/
def clampRefTarget (net : PoolNetwork) (prevMaxTarget : BitVec 256)
    (prevTs desiredTimestamp : BitVec 32) : BitVec 256 :=
  if 0 < prevTs ∧ prevTs < desiredTimestamp then
    let timeSinceShare := desiredTimestamp.toNat - prevTs.toNat
    let emergencyThreshold := net.sharePeriod * 20
    if emergencyThreshold < timeSinceShare then
      easedTarget net prevMaxTarget (timeSinceShare - emergencyThreshold)
    else prevMaxTarget
  else prevMaxTarget

def clampTarget (net : PoolNetwork) (target clampRef : BitVec 256) : BitVec 256 :=
  clipTarget target (capTarget net.maxTarget (clampRef.setWidth 288 * 9 / 10))
    (capTarget net.maxTarget (clampRef.setWidth 288 * 11 / 10))

def limitTarget (net : PoolNetwork) (target : BitVec 256) : BitVec 256 :=
  let raised := if target = 0 then 1 else target
  if net.maxTarget < raised then net.maxTarget else raised

structure ShareTarget where
  maxBits : BitVec 32
  bits : BitVec 32
deriving DecidableEq

/-- The two encodings of the result, the second of the desired target clipped to
`[pre_target3 / 30, pre_target3]`. -/
def shareBits (preTarget3 desiredTarget : BitVec 256) : ShareTarget :=
  let bitsLo := if preTarget3 / 30 = 0 then 1 else preTarget3 / 30
  ⟨targetToBitsUpperBound preTarget3,
    targetToBitsUpperBound (clipTarget desiredTarget bitsLo preTarget3)⟩

def timestampOf (c : Forest H TargetShare) (hash : H) : BitVec 32 :=
  match c.shares.lookup hash with
  | some data => data.share.timestamp
  | none => 0

/-- `attempts / time_span`, with the signed 32-bit span raised to one second. -/
def attemptRate (attempts : UInt288) (nearTs farTs : BitVec 32) : UInt288 :=
  let timeSpan := (nearTs - farTs).toInt
  attempts / BitVec.ofNat 288 (if timeSpan ≤ 0 then 1 else timeSpan.toNat)

/-- `get_pool_attempts_per_second` with `use_min_work`. -/
def getPoolAttemptsPerSecond (draw : H → Nat) (c : ShareChain H TargetShare) (shareHash : H)
    (dist : Nat) : Option (UInt288 × ShareChain H TargetShare) :=
  if dist < 2 ∨ shareHash ∉ c.forest.shares then some (0, c)
  else
    let far := c.getNthParentViaSkip draw shareHash (dist - 1)
    if far.1 = default ∨ far.1 ∉ far.2.forest.shares then some (0, far.2)
    else
      (far.2.getDelta shareHash far.1).map fun out =>
        (attemptRate out.1.minWork (timestampOf out.2.forest shareHash)
          (timestampOf out.2.forest far.1), out.2)

/-- `aps`, `prev_max_target` and `prev_ts`. -/
structure RetargetBasis where
  aps : UInt288
  prevMaxTarget : BitVec 256
  prevTs : BitVec 32
deriving DecidableEq

/-- What the steps start from; `none` for the two early returns with `MAX_TARGET`. -/
def retargetBasis (draw : H → Nat) (c : ShareChain H TargetShare) (prevShareHash : H) :
    Option (Option RetargetBasis × ShareChain H TargetShare) :=
  if prevShareHash = default ∨ prevShareHash ∉ c.forest.shares then some (none, c)
  else
    (c.getAccHeight prevShareHash).bind fun height =>
      if height.1 < targetLookbehind then some (none, height.2)
      else
        (getPoolAttemptsPerSecond draw height.2 prevShareHash targetLookbehind).bind fun rate =>
          (rate.2.forest.shares.lookup prevShareHash).map fun data =>
            (some ⟨rate.1, bitsToTarget data.share.maxBits, data.share.timestamp⟩, rate.2)

def preTarget3 (net : PoolNetwork) (desiredTimestamp : BitVec 32) :
    Option RetargetBasis → BitVec 256
  | none => net.maxTarget
  | some basis =>
    limitTarget net (clampTarget net (preTarget net basis.aps)
      (clampRefTarget net basis.prevMaxTarget basis.prevTs desiredTimestamp))

def computeShareTarget (net : PoolNetwork) (draw : H → Nat) (c : ShareChain H TargetShare)
    (prevShareHash : H) (desiredTimestamp : BitVec 32) (desiredTarget : BitVec 256) :
    Option (ShareTarget × ShareChain H TargetShare) :=
  (retargetBasis draw c prevShareHash).map fun out =>
    (shareBits (preTarget3 net desiredTimestamp out.1) desiredTarget, out.2)

/-! ## The reading of a well-kept chain -/

/-- Every held share is indexed with the work of its own `m_max_bits`. -/
def MinPriced (c : Forest H TargetShare) : Prop :=
  ∀ x data, c.shares.lookup x = some data →
    data.index.minWork = targetToAverageAttempts (bitsToTarget data.share.maxBits)

/-- The chain as the tracker keeps it: the cached sums and the skip list are right. -/
structure Retargetable (E : H → H → Prop) (prev : H → H) (c : ShareChain H TargetShare) :
    Prop where
  view : ShareChain.ViewInvariant E c
  follows : Forest.Follows prev c.forest
  truthful : c.skipList.Truthful prev
  priced : MinPriced c.forest

/-- The attempts over the newest `dist - 1` shares, without caches. -/
def poolAttempts (c : Forest H TargetShare) (dist : Nat) (x : H) : UInt288 :=
  ((TrackerView.chainIndexes c (dist - 1) x).map fun index => index.minWork).sum

/-- The rate of a chain that is at least `dist` shares long. -/
def chainRate (c : Forest H TargetShare) (dist : Nat) (x : H) : UInt288 :=
  match c.getNthParentKey (dist - 1) x with
  | none => 0
  | some far =>
    if far = default ∨ far ∉ c.shares then 0
    else attemptRate (poolAttempts c dist x) (timestampOf c x) (timestampOf c far)

def chainBasis (c : Forest H TargetShare) (x : H) : Option RetargetBasis :=
  if x = default ∨ c.getHeight x < targetLookbehind then none
  else
    (c.shares.lookup x).map fun data =>
      ⟨chainRate c targetLookbehind x, bitsToTarget data.share.maxBits, data.share.timestamp⟩

variable {c : ShareChain H TargetShare}

theorem Retargetable.of_view {c c' : ShareChain H TargetShare} (h : Retargetable E prev c)
    (hview : ShareChain.ViewInvariant E c') (hforest : c'.forest = c.forest)
    (hskips : c'.skipList.Truthful prev) : Retargetable E prev c' := by
  refine ⟨hview, ?_, hskips, ?_⟩
  · rw [hforest]
    exact h.follows
  · rw [hforest]
    exact h.priced

theorem getDelta_minWork (h : ShareChain.ViewInvariant E c)
    {k : Nat} {x y : H} (hy : ancestor c.forest.parent k x = some y) :
    ∃ d c', c.getDelta x y = some (d, c') ∧ c'.forest = c.forest ∧ c'.skipList = c.skipList ∧
      ShareChain.ViewInvariant E c' ∧
      d.minWork = ((TrackerView.chainIndexes c.forest k x).map fun index => index.minWork).sum := by
  obtain ⟨d, d', c', hget, hd, hd', h'⟩ := h.getDelta x y
  have hkept : c'.forest = c.forest ∧ c'.skipList = c.skipList := by
    obtain ⟨out, -, hout⟩ := map_eq_some_iff.mp hget
    have hstate := congrArg Prod.snd hout
    subst hstate
    exact ⟨rfl, rfl⟩
  refine ⟨d - d', c', hget, hkept.1, hkept.2, h', ?_⟩
  have hnear := spans_of_isDeltaToLast h.consistent hd
  have hfar := spans_of_isDeltaToLast h.consistent hd'
  have hheight : c.forest.getHeight x = k + c.forest.getHeight y := by
    apply getHeight_of_endsAt h.consistent.nullFree h.consistent.acyclic
    exact ⟨ancestor_trans hy hfar.reaches, hd'.missing⟩
  change d.minWork - d'.minWork = _
  rw [hnear.minWork, hfar.minWork, hheight, TrackerView.chainIndexes_add _ hy, map_append,
    sum_append]
  exact BitVec.add_sub_cancel _ _

theorem Retargetable.far (h : Retargetable E prev c)
    (draw : H → Nat) {x : H} {n : Nat} (hn : n ≤ c.forest.getHeight x) :
    c.forest.getNthParentKey n x = some (c.getNthParentViaSkip draw x n).1 ∧
      Retargetable E prev (c.getNthParentViaSkip draw x n).2 ∧
        (c.getNthParentViaSkip draw x n).2.forest = c.forest := by
  obtain ⟨y, hy⟩ := isSome_iff_exists.mp (getNthParentKey_isSome_of_le_getHeight x hn)
  obtain ⟨hval, hpath⟩ := h.follows.getNthParentKey hy
  have hspec := h.truthful.getNthParent_spec draw (fun i hi =>
    ⟨(hpath i hi).1, h.follows.previous_eq (hpath i hi).2⟩)
  have hview : ShareChain.ViewInvariant E (c.getNthParentViaSkip draw x n).2 :=
    ⟨h.view.consistent, h.view.shallow, h.view.edges, h.view.refs, h.view.values⟩
  refine ⟨?_, h.of_view hview rfl hspec.2, rfl⟩
  rw [hy, hval]
  exact congrArg some hspec.1.symm

theorem Retargetable.getPoolAttemptsPerSecond
    (h : Retargetable E prev c) (draw : H → Nat) {x : H} (hx : x ∈ c.forest.shares) {dist : Nat}
    (hdist : 2 ≤ dist) (hheight : dist ≤ c.forest.getHeight x) :
    ∃ c', Ltc.getPoolAttemptsPerSecond draw c x dist = some (chainRate c.forest dist x, c') ∧
      Retargetable E prev c' ∧ c'.forest = c.forest := by
  obtain ⟨hfar, hkept, hforest⟩ := h.far draw (show dist - 1 ≤ c.forest.getHeight x by omega)
  have henough : ¬ (dist < 2 ∨ x ∉ c.forest.shares) := by
    rintro (hshort | hnot)
    · omega
    · exact hnot hx
  unfold Ltc.getPoolAttemptsPerSecond chainRate
  rw [if_neg henough, hfar]
  generalize c.getNthParentViaSkip draw x (dist - 1) = far at hfar hkept hforest
  simp only [hforest]
  split
  case isTrue hmissing => exact ⟨far.2, rfl, hkept, hforest⟩
  case isFalse hheld =>
    rw [getNthParentKey_eq_ancestor h.view.consistent.nullFree, ← hforest] at hfar
    obtain ⟨d, c', hget, hforest', hskips, hview, hwork⟩ := getDelta_minWork hkept.view hfar
    refine ⟨c', ?_, hkept.of_view hview hforest' ?_, hforest'.trans hforest⟩
    · rw [hget, map_some, hwork, hforest', hforest]
      rfl
    · rw [hskips]
      exact hkept.truthful

theorem Retargetable.retargetBasis (h : Retargetable E prev c) (draw : H → Nat) (x : H) :
    ∃ c', Ltc.retargetBasis draw c x = some (chainBasis c.forest x, c') ∧
      Retargetable E prev c' ∧ c'.forest = c.forest := by
  unfold Ltc.retargetBasis chainBasis
  by_cases hnull : x = default
  · rw [if_pos (Or.inl hnull), if_pos (Or.inl hnull)]
    exact ⟨c, rfl, h, rfl⟩
  by_cases hx : x ∈ c.forest.shares
  · have hheld : ¬ (x = default ∨ x ∉ c.forest.shares) := by
      rintro (h₁ | h₂)
      · exact hnull h₁
      · exact h₂ hx
    obtain ⟨c₁, hheight, hforest₁, hview₁⟩ := getAccHeight_eq h.view hx
    have hskips₁ : c₁.skipList = c.skipList := by
      unfold ShareChain.getAccHeight ShareChain.getAttribute at hheight
      rw [if_pos hx] at hheight
      obtain ⟨out, hout, heq⟩ := map_eq_some_iff.mp hheight
      obtain ⟨out', -, heq'⟩ := map_eq_some_iff.mp hout
      have hstate := congrArg Prod.snd heq
      subst hstate heq'
      rfl
    have h₁ : Retargetable E prev c₁ := h.of_view hview₁ hforest₁ (hskips₁ ▸ h.truthful)
    rw [if_neg hheld, hheight, bind_some]
    by_cases hshort : c.forest.getHeight x < targetLookbehind
    · rw [if_pos (show (((c.forest.getHeight x : Nat) : Int)) < (targetLookbehind : Int) by omega),
        if_pos (Or.inr hshort)]
      exact ⟨c₁, rfl, h₁, hforest₁⟩
    have hlong : ¬ (((c.forest.getHeight x : Nat) : Int)) < (targetLookbehind : Int) := by omega
    have hlong' : ¬ (x = default ∨ c.forest.getHeight x < targetLookbehind) := by
      rintro (h₂ | h₂)
      · exact hnull h₂
      · exact hshort h₂
    obtain ⟨c₂, hrate, h₂, hforest₂⟩ := h₁.getPoolAttemptsPerSecond draw
      (show x ∈ c₁.forest.shares by rwa [hforest₁]) (show 2 ≤ targetLookbehind by decide)
      (by rw [hforest₁]; omega)
    obtain ⟨data, hdata⟩ := Finmap.mem_iff.mp hx
    have hforest := hforest₂.trans hforest₁
    refine ⟨c₂, ?_, h₂, hforest⟩
    rw [if_neg hlong, if_neg hlong', hrate, bind_some, hforest, hdata, hforest₁]
    rfl
  · have hzero : c.forest.getHeight x < targetLookbehind := by
      rw [getHeight_of_notMem hx]
      decide
    rw [if_pos (Or.inr hx), if_pos (Or.inr hzero)]
    exact ⟨c, rfl, h, rfl⟩

omit [Inhabited H] in
theorem poolAttempts_le {c : Forest H TargetShare} (hpriced : MinPriced c) (dist : Nat) (x : H) :
    (poolAttempts c dist x).toNat ≤ (dist - 1) * 2 ^ 256 := by
  have hwork : ∀ w ∈ (TrackerView.chainIndexes c (dist - 1) x).map fun index => index.minWork,
      w.toNat ≤ 2 ^ 256 := by
    intro w hw
    obtain ⟨index, hindex, rfl⟩ := mem_map.mp hw
    obtain ⟨y, data, hy, rfl⟩ := mem_chainIndexes hindex
    rw [hpriced y data hy]
    exact targetToAverageAttempts_le _
  have hsum := toNat_sum_le _ hwork
  rw [length_map] at hsum
  exact hsum.trans (Nat.mul_le_mul_right _ (length_chainIndexes_le c (dist - 1) x))

theorem chainRate_le {c : Forest H TargetShare} (hpriced : MinPriced c) (dist : Nat) (x : H) :
    (chainRate c dist x).toNat ≤ (dist - 1) * 2 ^ 256 := by
  unfold chainRate
  split
  · exact Nat.zero_le _
  split
  · exact Nat.zero_le _
  · unfold attemptRate
    exact (Nat.div_le_self _ _).trans (poolAttempts_le hpriced dist x)

/-- The calls on a chain: its own operations, and the retarget, which fills the caches. -/
inductive RetargetOp (H : Type) where
  | chain (op : ShareChain.Op H TargetShare)
  | retarget (net : PoolNetwork) (draw : H → Nat) (prevShareHash : H)
      (desiredTimestamp : BitVec 32) (desiredTarget : BitVec 256)

def retargetStep (c : ShareChain H TargetShare) : RetargetOp H → ShareChain H TargetShare
  | .chain op => c.step op
  | .retarget net draw x t target =>
    ((computeShareTarget net draw c x t target).map Prod.snd).getD c

/-- An added share is new, names its previous share and is indexed with its own work; no chain
outgrows the walk of `get_last`. -/
def RetargetAllowed (E : H → H → Prop) (prev : H → H) (c : ShareChain H TargetShare) :
    RetargetOp H → Prop
  | .chain (.add data) => ShareChain.ShallowShares E c (.add data) ∧
      data.index.tail = prev data.index.head ∧
      data.index.minWork = targetToAverageAttempts (bitsToTarget data.share.maxBits)
  | .chain (.remove _ _) | .chain (.query _) | .retarget .. => True

theorem MinPriced.add {c : Forest H TargetShare} (h : MinPriced c) {data : ChainData H TargetShare}
    (hdata : data.index.minWork = targetToAverageAttempts (bitsToTarget data.share.maxBits)) :
    MinPriced (c.add data) := by
  intro x other hx
  have hx' : (c.shares.insert data.index.head data).lookup x = some other := hx
  rw [lookup_insert_ite] at hx'
  split at hx'
  · cases hx'
    exact hdata
  · exact h x other hx'

theorem retargetStep_retargetable (hE : ∀ x, ¬ TransGen E x x) (c : ShareChain H TargetShare)
    (op : RetargetOp H) (h : Retargetable E prev c) (hop : RetargetAllowed E prev c op) :
    Retargetable E prev (retargetStep c op) := by
  cases op with
  | chain op =>
    cases op with
    | add data =>
      obtain ⟨hnew, htail, hwork⟩ := hop
      exact ⟨step_viewInvariant hE c (.add data) h.view hnew, h.follows.add htail,
        h.truthful, h.priced.add hwork⟩
    | remove order hash =>
      refine ⟨h.view.remove hE order hash, h.follows.of_shares fun x data =>
        ChainPair.lookup_remove, ?_, fun x data hx => h.priced x data (ChainPair.lookup_remove hx)⟩
      change ((c.remove order hash).2.skipList).Truthful prev
      unfold ShareChain.remove
      cases c.forest.tryRemove hash with
      | none => exact h.truthful
      | some out => exact h.truthful.forgetItem hash
    | query q =>
      have hskips : (c.ask q).skipList.Truthful prev := by
        rw [ask_skipList]
        exact h.truthful
      exact h.of_view (h.view.ask q) (ask_forest c q) hskips
  | retarget net draw x t target =>
    obtain ⟨c', hbasis, h', -⟩ := h.retargetBasis draw x
    have hstep : retargetStep c (.retarget net draw x t target) = c' := by
      simp [retargetStep, computeShareTarget, hbasis]
    rw [hstep]
    exact h'

theorem empty_retargetable (E : H → H → Prop) (prev : H → H) :
    Retargetable E prev (ShareChain.empty : ShareChain H TargetShare) := by
  refine ⟨empty_viewInvariant, empty_follows prev,
    (ChainPair.empty_navInvariant prev : ChainPair.NavInvariant prev
      (ChainPair.empty : ChainPair H TargetShare)).truthful, ?_⟩
  intro x data hx
  simp [ShareChain.empty, Forest.empty] at hx

theorem run_retargetable (hE : ∀ x, ¬ TransGen E x x) (ops : List (RetargetOp H))
    (hops : Run.Admissible retargetStep (RetargetAllowed E prev) ShareChain.empty ops) :
    Retargetable E prev (Run.run retargetStep ShareChain.empty ops) :=
  Run.run_invariant (retargetStep_retargetable hE) (empty_retargetable E prev) hops

end C2Pool.Ltc
