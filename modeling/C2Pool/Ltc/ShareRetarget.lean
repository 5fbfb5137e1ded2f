import C2Pool.Ltc.ShareTarget

/-! # The retarget follows the clock and keeps its range

The steps of `compute_share_target` on natural numbers. The eased reference grows with the time
since the last share, through whole half-lives and the interpolation between them, until the
network's limit; the clamp and the encoding keep the order.
-/

namespace C2Pool.Ltc

open Sharechain ParentForest FiniteMap Relation ShareChain Nat BitVec

variable {H : Type} [DecidableEq H] [Inhabited H] {k l : Nat} {target : BitVec 256}
  {net : PoolNetwork} {prevTs t t₁ t₂ : BitVec 32} {basis : RetargetBasis}
  {c : Forest H TargetShare} {x : H}

theorem widen_toNat (target : BitVec 256) : (target.setWidth 288).toNat = target.toNat := by
  rw [toNat_setWidth]
  exact Nat.mod_eq_of_lt (target.isLt.trans_le (Nat.pow_le_pow_right (by omega) (by omega)))

theorem widened_mul_toNat (target : BitVec 256) (hk : k < 2 ^ 32) :
    (target.setWidth 288 * BitVec.ofNat 288 k).toNat = target.toNat * k := by
  have hwide : (BitVec.ofNat 288 k).toNat = k := by
    exact Nat.mod_eq_of_lt (hk.trans_le (Nat.pow_le_pow_right (by omega) (by omega)))
  rw [BitVec.toNat_mul, widen_toNat, hwide]
  apply Nat.mod_eq_of_lt
  calc target.toNat * k < 2 ^ 256 * 2 ^ 32 := mul_lt_mul'' target.isLt hk

theorem capTarget_toNat (maxTarget : BitVec 256) (value : UInt288) :
    (capTarget maxTarget value).toNat = min value.toNat maxTarget.toNat := by
  unfold capTarget
  simp only [lt_def, widen_toNat]
  split
  case isTrue hover => omega
  case isFalse hle =>
    rw [toNat_setWidth, Nat.mod_eq_of_lt (by omega)]
    omega

theorem clipTarget_toNat (target lo hi : BitVec 256) :
    (clipTarget target lo hi).toNat = min (max target.toNat lo.toNat) hi.toNat := by
  unfold clipTarget
  simp only [lt_def]
  split <;> split <;> omega

theorem maxTarget_pos (net : PoolNetwork) : 0 < net.maxTarget.toNat := by
  cases net <;> decide

theorem limitTarget_toNat (net : PoolNetwork) (target : BitVec 256) :
    (limitTarget net target).toNat = min (max target.toNat 1) net.maxTarget.toNat := by
  have hzero : target = 0 ↔ target.toNat = 0 := toNat_eq
  have hraised : (if target = 0 then 1 else target).toNat = max target.toNat 1 := by
    split
    case isTrue h =>
      rw [hzero.mp h]
      rfl
    case isFalse h =>
      rw [hzero] at h
      omega
  unfold limitTarget
  simp only [lt_def, hraised]
  split
  · omega
  · rw [hraised]
    omega

theorem shiftLeft_exact {maxTarget : BitVec 256} {shift : Nat}
    (hfits : ¬ maxTarget >>> shift < target) :
    (target <<< shift).toNat = target.toNat * 2 ^ shift ∧
      target.toNat * 2 ^ shift ≤ maxTarget.toNat := by
  have hle : target.toNat ≤ maxTarget.toNat / 2 ^ shift := by
    rw [← Nat.shiftRight_eq_div_pow, ← BitVec.toNat_ushiftRight]
    exact BitVec.not_lt.mp hfits
  have hbound : target.toNat * 2 ^ shift ≤ maxTarget.toNat :=
    (Nat.mul_le_mul_right _ hle).trans (Nat.div_mul_le_self _ _)
  refine ⟨?_, hbound⟩
  rw [BitVec.toNat_shiftLeft, Nat.shiftLeft_eq]
  exact Nat.mod_eq_of_lt (hbound.trans_lt maxTarget.isLt)

theorem emergencyDecayShl_toNat (hpos : 0 < target.toNat) (shift : Nat)
    (maxTarget : BitVec 256) : (emergencyDecayShl target shift maxTarget).toNat =
      min (target.toNat * 2 ^ shift) maxTarget.toNat := by
  unfold emergencyDecayShl
  split
  case isTrue hover =>
    have hbeyond : maxTarget.toNat < target.toNat * 2 ^ shift := by
      rcases hover with hwide | hover
      · have hpow : 2 ^ 256 ≤ 2 ^ shift := Nat.pow_le_pow_right (by omega) hwide
        have hone : 1 * 2 ^ shift ≤ target.toNat * 2 ^ shift := Nat.mul_le_mul_right _ hpos
        omega
      rw [lt_def, BitVec.toNat_ushiftRight, Nat.shiftRight_eq_div_pow,
        Nat.div_lt_iff_lt_mul (Nat.two_pow_pos _)] at hover
      exact hover
    omega
  case isFalse hfits =>
    obtain ⟨hexact, hle⟩ := shiftLeft_exact fun h => hfits (Or.inr h)
    omega

theorem halfLife_pos (net : PoolNetwork) : 0 < halfLife net := by
  cases net <;> decide

theorem halfLife_le (net : PoolNetwork) : halfLife net ≤ 150 := by
  cases net <;> decide

theorem easedProduct_toNat (net : PoolNetwork) (eased : BitVec 256) {remainder : Nat}
    (hremainder : remainder < halfLife net) :
    (easedProduct net eased remainder).toNat = eased.toNat * (halfLife net + remainder) := by
  have hle := halfLife_le net
  exact widened_mul_toNat eased (by omega)

/-- `p * 2^halvings`, interpolated linearly inside a half-life of `l` seconds. -/
def easing (p l excess : Nat) : Nat :=
  p * 2 ^ (excess / l) * (l + excess % l) / l

theorem le_easing (p : Nat) {l : Nat} (hl : 0 < l) (excess : Nat) : p ≤ easing p l excess := by
  unfold easing
  rw [le_div_iff_mul_le hl]
  have hpow : p * 1 ≤ p * 2 ^ (excess / l) := Nat.mul_le_mul_left p (Nat.one_le_two_pow)
  exact Nat.mul_le_mul (by omega) (by omega)

theorem easing_mono (p : Nat) (hl : 0 < l) {a b : Nat} (hab : a ≤ b) :
    easing p l a ≤ easing p l b := by
  apply Nat.div_le_div_right
  have ha := Nat.div_add_mod a l
  have hb := Nat.div_add_mod b l
  have hmod := mod_lt a hl
  have hdiv : a / l ≤ b / l := Nat.div_le_div_right hab
  by_cases hsame : a / l = b / l
  · -- inside one half-life the remainder grows
    rw [hsame] at ha ⊢
    exact Nat.mul_le_mul_left _ (by omega)
  -- the whole half-life doubles what the remainder can reach
  have hpow : 2 ^ (a / l) * 2 ≤ 2 ^ (b / l) := by
    rw [← pow_succ]
    exact Nat.pow_le_pow_right (by omega) (by omega)
  calc p * 2 ^ (a / l) * (l + a % l) ≤ p * 2 ^ (a / l) * (2 * l) :=
        Nat.mul_le_mul_left _ (by omega)
    _ = p * (2 ^ (a / l) * 2) * l := by
        rw [mul_assoc, mul_assoc, ← mul_assoc _ 2 l]
    _ ≤ p * 2 ^ (b / l) * l := Nat.mul_le_mul_right _ (Nat.mul_le_mul_left _ hpow)
    _ ≤ p * 2 ^ (b / l) * (l + b % l) := Nat.mul_le_mul_left _ (by omega)

/-- Saturating before the interpolation or after it makes no difference. -/
theorem min_easing (n m : Nat) {r : Nat} (hl : 0 < l) :
    min (min n m * (l + r) / l) m = min (n * (l + r) / l) m := by
  rcases le_total n m with hle | hle
  · rw [min_eq_left hle]
  have hgrow : ∀ k, k ≤ k * (l + r) / l := by
    intro k
    rw [le_div_iff_mul_le hl]
    exact Nat.mul_le_mul_left k (by omega)
  have hm := hgrow m
  have hn := hgrow n
  rw [min_eq_right hle]
  omega

theorem easedTarget_toNat (net : PoolNetwork) (hpos : 0 < target.toNat)
    (excess : Nat) : (easedTarget net target excess).toNat =
      min (easing target.toNat (halfLife net) excess) net.maxTarget.toNat := by
  have hl := halfLife_pos net
  have hle := halfLife_le net
  have hhalf : (BitVec.ofNat 288 (halfLife net)).toNat = halfLife net := by
    exact Nat.mod_eq_of_lt (by omega)
  unfold easedTarget
  simp only [capTarget_toNat, toNat_udiv, easedProduct_toNat net _ (mod_lt excess hl),
    hhalf, emergencyDecayShl_toNat hpos]
  exact min_easing _ _ hl

/-- The easing applies: the share has a timestamp more than twenty periods before `t`. -/
def Late (net : PoolNetwork) (prevTs t : BitVec 32) : Prop :=
  0 < prevTs ∧ prevTs.toNat + net.sharePeriod * 20 < t.toNat

theorem clampRefTarget_of_late (h : Late net prevTs t)
    (target : BitVec 256) : clampRefTarget net target prevTs t =
      easedTarget net target (t.toNat - prevTs.toNat - net.sharePeriod * 20) := by
  obtain ⟨hset, hlate⟩ := h
  have hafter : 0 < prevTs ∧ prevTs < t := by
    refine ⟨hset, ?_⟩
    rw [lt_def]
    omega
  unfold clampRefTarget
  rw [if_pos hafter]
  exact if_pos (show net.sharePeriod * 20 < t.toNat - prevTs.toNat by omega)

theorem clampRefTarget_of_not_late (h : ¬ Late net prevTs t) (target : BitVec 256) :
    clampRefTarget net target prevTs t = target := by
  unfold clampRefTarget
  split
  case isTrue hafter =>
    refine if_neg fun hover => h ⟨hafter.1, ?_⟩
    omega
  case isFalse => rfl

theorem clampRefTarget_mono (net : PoolNetwork) (hpos : 0 < target.toNat)
    (hmax : target.toNat ≤ net.maxTarget.toNat) (prevTs : BitVec 32) (ht : t₁ ≤ t₂) :
    (clampRefTarget net target prevTs t₁).toNat ≤ (clampRefTarget net target prevTs t₂).toNat := by
  have hl := halfLife_pos net
  rw [le_def] at ht
  by_cases hlate₁ : Late net prevTs t₁
  · -- once the easing has begun it goes on
    have hlate₂ : Late net prevTs t₂ := ⟨hlate₁.1, by have := hlate₁.2; omega⟩
    have hease := easing_mono target.toNat hl
      (show t₁.toNat - prevTs.toNat - net.sharePeriod * 20 ≤
        t₂.toNat - prevTs.toNat - net.sharePeriod * 20 by omega)
    rw [clampRefTarget_of_late hlate₁, clampRefTarget_of_late hlate₂, easedTarget_toNat net hpos,
      easedTarget_toNat net hpos]
    omega
  rw [clampRefTarget_of_not_late hlate₁]
  by_cases hlate₂ : Late net prevTs t₂
  · rw [clampRefTarget_of_late hlate₂, easedTarget_toNat net hpos]
    exact Nat.le_min.mpr ⟨le_easing _ hl _, hmax⟩
  · rw [clampRefTarget_of_not_late hlate₂]

theorem tenths_toNat (target : BitVec 256) (hk : k < 2 ^ 32) :
    (target.setWidth 288 * BitVec.ofNat 288 k / 10).toNat = target.toNat * k / 10 := by
  rw [toNat_udiv, widened_mul_toNat target hk]
  rfl

theorem clampTarget_toNat (net : PoolNetwork) (target clampRef : BitVec 256) :
    (clampTarget net target clampRef).toNat =
      min (max target.toNat (min (clampRef.toNat * 9 / 10) net.maxTarget.toNat))
        (min (clampRef.toNat * 11 / 10) net.maxTarget.toNat) := by
  have hlo : (clampRef.setWidth 288 * 9 / 10).toNat = clampRef.toNat * 9 / 10 :=
    tenths_toNat clampRef (show 9 < 2 ^ 32 by decide)
  have hhi : (clampRef.setWidth 288 * 11 / 10).toNat = clampRef.toNat * 11 / 10 :=
    tenths_toNat clampRef (show 11 < 2 ^ 32 by decide)
  unfold clampTarget
  rw [clipTarget_toNat, capTarget_toNat, capTarget_toNat, hlo, hhi]

theorem clampTarget_mono (net : PoolNetwork) (target : BitVec 256) {ref₁ ref₂ : BitVec 256}
    (href : ref₁.toNat ≤ ref₂.toNat) :
    (clampTarget net target ref₁).toNat ≤ (clampTarget net target ref₂).toNat := by
  rw [clampTarget_toNat, clampTarget_toNat]
  omega

/-! ## The result -/

theorem preTarget3_toNat (net : PoolNetwork) (t : BitVec 32) (basis : Option RetargetBasis) :
    1 ≤ (preTarget3 net t basis).toNat ∧
      (preTarget3 net t basis).toNat ≤ net.maxTarget.toNat := by
  have hpos := maxTarget_pos net
  cases basis with
  | none => exact ⟨hpos, le_refl _⟩
  | some basis =>
    unfold preTarget3
    rw [limitTarget_toNat]
    omega

theorem preTarget3_mono (net : PoolNetwork) {basis : Option RetargetBasis}
    (hbasis : ∀ b, basis = some b → 0 < b.prevMaxTarget ∧ b.prevMaxTarget ≤ net.maxTarget)
    (ht : t₁ ≤ t₂) : preTarget3 net t₁ basis ≤ preTarget3 net t₂ basis := by
  rw [le_def]
  cases basis with
  | none => exact le_refl _
  | some b =>
    obtain ⟨hpos, hmax⟩ := hbasis b rfl
    have href := clampRefTarget_mono net hpos hmax b.prevTs ht
    have hclamp := clampTarget_mono net (preTarget net b.aps) href
    unfold preTarget3
    rw [limitTarget_toNat, limitTarget_toNat]
    omega

/-- `0 < target(bits) <= target(max_bits) <= MAX_TARGET`. -/
def ShareTarget.InRange (net : PoolNetwork) (out : ShareTarget) : Prop :=
  0 < bitsToTarget out.bits ∧ bitsToTarget out.bits ≤ bitsToTarget out.maxBits ∧
    bitsToTarget out.maxBits ≤ net.maxTarget

theorem shareBits_inRange (net : PoolNetwork) (t : BitVec 32) (basis : Option RetargetBasis)
    (desiredTarget : BitVec 256) :
    (shareBits (preTarget3 net t basis) desiredTarget).InRange net := by
  obtain ⟨hone, hmax⟩ := preTarget3_toNat net t basis
  generalize preTarget3 net t basis = target at hone hmax
  have hlo : 1 ≤ (if target / 30 = 0 then 1 else target / 30 : BitVec 256).toNat ∧
      (if target / 30 = 0 then 1 else target / 30 : BitVec 256).toNat ≤ target.toNat := by
    split
    case isTrue => exact ⟨le_refl _, hone⟩
    case isFalse hpos =>
      have hdiv : (target / 30).toNat = target.toNat / 30 := toNat_udiv
      have hne : (target / 30).toNat ≠ 0 := fun h => hpos (eq_of_toNat_eq h)
      omega
  have hbits := clipTarget_toNat desiredTarget
  refine ⟨encodedTarget_pos ?_, encodedTarget_mono ?_, ?_⟩
  · rw [lt_def, hbits]
    change 0 < _
    omega
  · rw [le_def, hbits]
    omega
  · exact le_trans (encodedTarget_le target) hmax

/-- The products and shifts of a retarget are those of unbounded integers. -/
structure RetargetBasis.NoWrap (net : PoolNetwork) (basis : RetargetBasis) (t : BitVec 32) :
    Prop where
  rate : (rateDivisor net basis.aps).toNat = basis.aps.toNat * net.sharePeriod
  shift : ∀ k, emergencyDecayShl basis.prevMaxTarget k net.maxTarget = net.maxTarget ∨
    (emergencyDecayShl basis.prevMaxTarget k net.maxTarget).toNat =
      basis.prevMaxTarget.toNat * 2 ^ k
  eased : ∀ k, ∀ r < halfLife net,
    (easedProduct net (emergencyDecayShl basis.prevMaxTarget k net.maxTarget) r).toNat =
      (emergencyDecayShl basis.prevMaxTarget k net.maxTarget).toNat * (halfLife net + r)
  lower : ((clampRefTarget net basis.prevMaxTarget basis.prevTs t).setWidth 288 * 9).toNat =
    (clampRefTarget net basis.prevMaxTarget basis.prevTs t).toNat * 9
  upper : ((clampRefTarget net basis.prevMaxTarget basis.prevTs t).setWidth 288 * 11).toNat =
    (clampRefTarget net basis.prevMaxTarget basis.prevTs t).toNat * 11

theorem noWrap_of_aps_le (net : PoolNetwork)
    (haps : basis.aps.toNat ≤ 199 * 2 ^ 256) (t : BitVec 32) : basis.NoWrap net t where
  rate := by
    have hperiod : net.sharePeriod ≤ 15 := by cases net <;> decide
    have hwide : (BitVec.ofNat 288 net.sharePeriod).toNat = net.sharePeriod := by
      exact Nat.mod_eq_of_lt (by omega)
    unfold rateDivisor
    rw [BitVec.toNat_mul, hwide]
    apply Nat.mod_eq_of_lt
    calc basis.aps.toNat * net.sharePeriod ≤ 199 * 2 ^ 256 * 15 := Nat.mul_le_mul haps hperiod
      _ < 2 ^ 288 := by decide
  shift := by
    intro k
    unfold emergencyDecayShl
    split
    case isTrue => exact Or.inl rfl
    case isFalse hfits => exact Or.inr (shiftLeft_exact fun h => hfits (Or.inr h)).1
  eased := fun k r hr => easedProduct_toNat net _ hr
  lower := widened_mul_toNat _ (show 9 < 2 ^ 32 by decide)
  upper := widened_mul_toNat _ (show 11 < 2 ^ 32 by decide)

theorem aps_le_of_chainBasis (hpriced : MinPriced c) (hbasis : chainBasis c x = some basis) :
    basis.aps.toNat ≤ 199 * 2 ^ 256 := by
  unfold chainBasis at hbasis
  split at hbasis
  · cases hbasis
  obtain ⟨data, -, hdata⟩ := Option.map_eq_some_iff.mp hbasis
  subst hdata
  exact chainRate_le hpriced targetLookbehind x

theorem prevMaxTarget_of_chainBasis {data : ChainData H TargetShare}
    (hdata : c.shares.lookup x = some data) (hbasis : chainBasis c x = some basis) :
    basis.prevMaxTarget = bitsToTarget data.share.maxBits := by
  unfold chainBasis at hbasis
  split at hbasis
  · cases hbasis
  rw [hdata, Option.map_some] at hbasis
  cases hbasis
  rfl

/-- The retarget is monotone in the desired timestamp, its result is in range, and none of its
products or shifts wraps. -/
theorem share_retarget {E : H → H → Prop} {prev : H → H} {c : ShareChain H TargetShare}
    (h : Retargetable E prev c) (net : PoolNetwork) (x : H) (desiredTarget : BitVec 256) :
    (∀ data, c.forest.shares.lookup x = some data →
      0 < bitsToTarget data.share.maxBits → bitsToTarget data.share.maxBits ≤ net.maxTarget →
      ∀ draw₁ draw₂ t₁ t₂, t₁ ≤ t₂ →
        ∃ out₁ out₂, computeShareTarget net draw₁ c x t₁ desiredTarget = some out₁ ∧
          computeShareTarget net draw₂ c x t₂ desiredTarget = some out₂ ∧
          bitsToTarget out₁.1.maxBits ≤ bitsToTarget out₂.1.maxBits) ∧
      ∀ draw t, ∃ basis out c', retargetBasis draw c x = some (basis, c') ∧
        computeShareTarget net draw c x t desiredTarget = some (out, c') ∧
        out.InRange net ∧ ∀ b, basis = some b → b.NoWrap net t := by
  constructor
  · intro data hdata hpos hmax draw₁ draw₂ t₁ t₂ ht
    obtain ⟨c₁, hbasis₁, -, -⟩ := h.retargetBasis draw₁ x
    obtain ⟨c₂, hbasis₂, -, -⟩ := h.retargetBasis draw₂ x
    unfold computeShareTarget
    rw [hbasis₁, hbasis₂]
    refine ⟨_, _, rfl, rfl, encodedTarget_mono (preTarget3_mono net ?_ ht)⟩
    intro b hb
    rw [prevMaxTarget_of_chainBasis hdata hb]
    exact ⟨hpos, hmax⟩
  intro draw t
  obtain ⟨c', hbasis, -, -⟩ := h.retargetBasis draw x
  refine ⟨chainBasis c.forest x, shareBits (preTarget3 net t (chainBasis c.forest x))
    desiredTarget, c', hbasis, ?_, shareBits_inRange net t _ desiredTarget, ?_⟩
  · unfold computeShareTarget
    rw [hbasis]
    rfl
  · intro b hb
    exact noWrap_of_aps_le net (aps_le_of_chainBasis h.priced hb) t

def steadyShare (n : Nat) : ChainData Nat TargetShare :=
  let maxBits : BitVec 32 := 0x1e0fffff
  ⟨⟨n + 1, n, 0, targetToAverageAttempts (bitsToTarget maxBits)⟩,
    ⟨maxBits, BitVec.ofNat 32 (1700000000 + 15 * n)⟩⟩

def steadyOps (n : Nat) : List (RetargetOp Nat) :=
  (List.range n).map fun i => .chain (.add (steadyShare i))

theorem steadyOps_succ (n : Nat) :
    steadyOps (n + 1) = steadyOps n ++ [.chain (.add (steadyShare n))] := by
  simp [steadyOps, List.range_succ]

/-- The chain of the first `n` steady shares. -/
def steadyChain (n : Nat) : ShareChain Nat TargetShare :=
  Run.run retargetStep ShareChain.empty (steadyOps n)

theorem steadyChain_succ (n : Nat) : steadyChain (n + 1) = (steadyChain n).add (steadyShare n) := by
  unfold steadyChain
  rw [steadyOps_succ, Run.run_append]
  rfl

theorem steadyChain_lookup (n x : Nat) : (steadyChain n).forest.shares.lookup x =
    if 1 ≤ x ∧ x ≤ n then some (steadyShare (x - 1)) else none := by
  induction n with
  | zero =>
    rw [if_neg (by omega)]
    rfl
  | succ n ih =>
    rw [steadyChain_succ]
    change ((steadyChain n).forest.shares.insert (n + 1) (steadyShare n)).lookup x = _
    rw [lookup_insert_ite]
    split
    case isTrue hx =>
      subst hx
      rw [if_pos (by omega)]
      rfl
    case isFalse hx =>
      rw [ih]
      by_cases hin : 1 ≤ x ∧ x ≤ n
      · rw [if_pos hin, if_pos (by omega)]
      · rw [if_neg hin, if_neg (by omega)]

theorem steadyChain_size (n : Nat) : (steadyChain n).forest.size ≤ n := by
  have hsub : (steadyChain n).forest.shares.keys ⊆ Finset.Icc 1 n := by
    intro x hx
    obtain ⟨data, hdata⟩ := Finmap.mem_iff.mp hx
    rw [steadyChain_lookup] at hdata
    split at hdata
    case isTrue hin => exact Finset.mem_Icc.mpr hin
    case isFalse => cases hdata
  have hcard := Finset.card_le_card hsub
  rw [card_Icc] at hcard
  exact hcard

theorem steadyOps_admissible {n : Nat} (hn : n ≤ 100001) :
    Run.Admissible retargetStep (RetargetAllowed (fun x y : Nat => y < x) (fun x => x - 1))
      ShareChain.empty (steadyOps n) := by
  induction n with
  | zero => trivial
  | succ n ih =>
    rw [steadyOps_succ, Run.admissible_append]
    refine ⟨ih (by omega), ⟨⟨⟨by simp [steadyShare], ?_, by simp [steadyShare]⟩, ?_⟩, ?_, rfl⟩,
      trivial⟩
    · change n + 1 ∉ (steadyChain n).forest.shares
      rw [← Finmap.lookup_eq_none, steadyChain_lookup, if_neg (by omega)]
    · change ((steadyChain n).add (steadyShare n)).forest.Shallow
      rw [← steadyChain_succ]
      refine Forest.shallow_of_size_le ?_ ((steadyChain_size (n + 1)).trans hn)
      apply acyclic_of_edges lt_acyclic
      intro x y hxy
      unfold Forest.parent at hxy
      rw [steadyChain_lookup] at hxy
      split at hxy
      case isTrue hin =>
        have hy : x - 1 = y := Option.some.inj hxy
        omega
      case isFalse => cases hxy
    · simp [steadyShare]

theorem share_retarget_steady :
    ∃ out₁ out₂, computeShareTarget .mainnet (fun _ => 1) (steadyChain 300) 300 1700004400
        (BitVec.allOnes 256) = some out₁ ∧
      computeShareTarget .mainnet (fun _ => 1) (steadyChain 300) 300 1700009999
        (BitVec.allOnes 256) = some out₂ ∧
      bitsToTarget out₁.1.maxBits ≤ bitsToTarget out₂.1.maxBits := by
  have hkept : Retargetable (fun x y : Nat => y < x) (fun x => x - 1) (steadyChain 300) :=
    run_retargetable lt_acyclic _ (steadyOps_admissible (by omega))
  have hlast : (steadyChain 300).forest.shares.lookup 300 = some (steadyShare 299) := by
    rw [steadyChain_lookup, if_pos (by omega)]
  exact (share_retarget hkept .mainnet 300 (BitVec.allOnes 256)).1 (steadyShare 299) hlast
    (by decide) (by decide) (fun _ => 1) (fun _ => 1) 1700004400 1700009999 (by decide)

end C2Pool.Ltc
