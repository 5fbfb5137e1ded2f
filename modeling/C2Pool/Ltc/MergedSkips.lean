import C2Pool.Ltc.MergedPayouts

/-! # The address table and the merged skip lists

A share registers its addresses where none is registered yet, and a new
address drops the skip list of its chain.  So every level of every skip list is
the sum of the deltas that the present address table gives.
-/

namespace C2Pool.Ltc

open List Sharechain FiniteMap Finmap Function

/-! ## What a share registers -/

def MergedShare.registered (share : MergedShare) (chainId : ChainId) (key : Script) :
    Option Script :=
  if share.desiredVersion < 36 ∨ share.pay.script = [] then none
  else if key ∈ MergedTracker.registerKeys share.pay.script then
    ((share.mergedAddresses.getD []).find? fun e => e.script ≠ [] ∧ e.chainId = chainId).map
      fun e => e.script
  else none

theorem MergedShare.mem_of_registered {share : MergedShare} {chainId : ChainId}
    {key script : Script} (h : share.registered chainId key = some script) :
    ∃ e ∈ share.mergedAddresses.getD [], e.script = script := by
  unfold registered at h
  split at h
  · cases h
  split at h
  · obtain ⟨e, he, hscript⟩ := Option.map_eq_some_iff.mp h
    exact ⟨e, mem_of_find?_eq_some he, hscript⟩
  · cases h

namespace MergedTracker

variable {H : Type} {table table' : MinerMergedAddr} {chainId : ChainId} {t : MergedTracker H}
  {best : H} {n : Nat} {find : H → Option (ChainData H MergedShare)}

theorem lookup_emplace (table : MinerMergedAddr) (key key' : ChainId × Script) (script : Script) :
    (emplace table key script).lookup key' =
      (table.lookup key').or (if key' = key then some script else none) := by
  unfold emplace
  by_cases hkey : key' = key
  · subst hkey
    split
    · rename_i hmem
      obtain ⟨old, hold⟩ := mem_iff.mp hmem
      rw [hold]
      rfl
    rename_i hmem
    rw [lookup_insert_ite, lookup_eq_none.mpr hmem, if_pos rfl]
    rfl
  rw [if_neg hkey, Option.or_none]
  split
  · rfl
  · rw [lookup_insert_ite, if_neg hkey]

theorem lookup_foldl_emplace (keys : List Script) (table : MinerMergedAddr) (chainId : ChainId)
    (script : Script) (c : ChainId) (k : Script) :
    (keys.foldl (fun table key => emplace table (chainId, key) script) table).lookup (c, k) =
      (table.lookup (c, k)).or (if c = chainId ∧ k ∈ keys then some script else none) := by
  induction keys generalizing table with
  | nil => simp
  | cons key keys ih =>
    rw [foldl_cons, ih, lookup_emplace, Option.or_assoc]
    by_cases hc : c = chainId
    · by_cases hk : k = key
      · simp [hc, hk]
      · simp [hc, hk]
    · simp [hc]

theorem lookup_registerEntry (parent : Script) (t : MergedTracker H) (e : MergedAddressEntry)
    (c : ChainId) (k : Script) :
    (registerEntry parent t e).addr.lookup (c, k) =
      (t.addr.lookup (c, k)).or
        (if k ∈ registerKeys parent ∧ e.script ≠ [] ∧ e.chainId = c then some e.script
          else none) := by
  unfold registerEntry
  by_cases hempty : e.script = []
  · simp [hempty]
  rw [if_neg hempty]
  rw [lookup_foldl_emplace]
  congr 1
  apply if_congr _ rfl rfl
  constructor
  · rintro ⟨hc, hk⟩
    exact ⟨hk, hempty, hc.symm⟩
  · rintro ⟨hk, -, hc⟩
    exact ⟨hc.symm, hk⟩

theorem lookup_foldl_registerEntry (parent : Script) (entries : List MergedAddressEntry)
    (t : MergedTracker H) (c : ChainId) (k : Script) :
    (entries.foldl (registerEntry parent) t).addr.lookup (c, k) =
      (t.addr.lookup (c, k)).or
        (if k ∈ registerKeys parent then
          (entries.find? fun e => e.script ≠ [] ∧ e.chainId = c).map fun e => e.script
        else none) := by
  induction entries generalizing t with
  | nil => simp
  | cons e entries ih =>
    rw [foldl_cons, ih, lookup_registerEntry, Option.or_assoc]
    by_cases hk : k ∈ registerKeys parent
    · by_cases he : e.script ≠ [] ∧ e.chainId = c
      · simp [hk, he]
      · rw [if_neg fun h => he h.2, if_pos hk, if_pos hk, find?_cons_of_neg (by simpa using he)]
        rfl
    · simp [hk]

theorem lookup_tryRegister (t : MergedTracker H) (share : MergedShare) (c : ChainId) (k : Script) :
    (t.tryRegisterMergedAddr share).addr.lookup (c, k) =
      (t.addr.lookup (c, k)).or (share.registered c k) := by
  unfold tryRegisterMergedAddr MergedShare.registered
  split
  · rw [Option.or_none]
  · exact lookup_foldl_registerEntry share.pay.script _ t c k

theorem registerEntry_cases (parent : Script) (t : MergedTracker H) (e : MergedAddressEntry)
    (c : ChainId) :
    (registerEntry parent t e).skips c = ∅ ∨
      (registerEntry parent t e).skips c = t.skips c ∧
        ∀ k, (registerEntry parent t e).addr.lookup (c, k) = t.addr.lookup (c, k) := by
  by_cases hempty : e.script = []
  · right
    unfold registerEntry
    rw [if_pos hempty]
    exact ⟨rfl, fun _ => rfl⟩
  by_cases hnew : (∃ k ∈ registerKeys parent, (e.chainId, k) ∉ t.addr) ∧ c = e.chainId
  · left
    unfold registerEntry
    rw [if_neg hempty]
    dsimp only
    rw [if_pos hnew.1, hnew.2, update_self]
  right
  refine ⟨?_, ?_⟩
  · unfold registerEntry
    rw [if_neg hempty]
    dsimp only
    split
    · rename_i hany
      exact update_of_ne (fun hc => hnew ⟨hany, hc⟩) _ _
    · rfl
  intro k
  rw [lookup_registerEntry]
  by_cases hk : k ∈ registerKeys parent ∧ e.script ≠ [] ∧ e.chainId = c
  · obtain ⟨hk, -, rfl⟩ := hk
    have hmem : (e.chainId, k) ∈ t.addr := by
      by_contra hfree
      exact hnew ⟨⟨k, hk, hfree⟩, rfl⟩
    obtain ⟨old, hold⟩ := mem_iff.mp hmem
    rw [hold]
    rfl
  · rw [if_neg hk, Option.or_none]

theorem registerEntry_chain (parent : Script) (t : MergedTracker H) (e : MergedAddressEntry) :
    (registerEntry parent t e).chain = t.chain := by
  unfold registerEntry
  split <;> rfl

theorem tryRegister_chain (t : MergedTracker H) (share : MergedShare) :
    (t.tryRegisterMergedAddr share).chain = t.chain := by
  have hfold : ∀ (entries : List MergedAddressEntry) (t : MergedTracker H),
      (entries.foldl (registerEntry share.pay.script) t).chain = t.chain := by
    intro entries
    induction entries with
    | nil =>
      intro t
      rfl
    | cons e entries ih =>
      intro t
      rw [foldl_cons, ih, registerEntry_chain]
  unfold tryRegisterMergedAddr
  split
  · rfl
  · exact hfold _ t

/-! ## Skip lists that tell the truth -/

theorem attempts_bounds (share : PayShare) :
    1 ≤ share.attempts.toNat ∧ share.attempts.toNat ≤ 2 ^ 256 := by
  have hsucc : ((bitsToTarget share.bits).setWidth 288 + 1).toNat =
      (bitsToTarget share.bits).toNat + 1 := by
    rw [BitVec.toNat_add, BitVec.toNat_setWidth]
    show ((bitsToTarget share.bits).toNat % 2 ^ 288 + 1) % 2 ^ 288 = _
    omega
  have hone : (1 <<< 256 : UInt288).toNat = 2 ^ 256 := by decide +kernel
  refine ⟨?_, Nat.div_le_self _ _⟩
  exact (Nat.one_le_div_iff (by omega)).mpr (by omega)

theorem toNat_weight (share : PayShare) :
    (share.attempts * 65535).toNat = share.attempts.toNat * 65535 := by
  have hbounds := attempts_bounds share
  show share.attempts.toNat * 65535 % 2 ^ 288 = _
  exact Nat.mod_eq_of_lt (by omega)

theorem mergedWeightsDelta_proper (table : MinerMergedAddr) (chainId : ChainId)
    (share : MergedShare) : (mergedWeightsDelta table chainId share).Proper := by
  have hbounds := attempts_bounds share.pay
  unfold mergedWeightsDelta
  split
  · exact ⟨rfl, .inr rfl⟩
  refine ⟨rfl, .inl ?_⟩
  show 65535 ≤ share.pay.attempts * 65535
  rw [BitVec.le_def, toNat_weight]
  show 65535 ≤ share.pay.attempts.toNat * 65535
  omega

theorem mergedWeightsDelta_light (table : MinerMergedAddr) (chainId : ChainId)
    (share : MergedShare) :
    (mergedWeightsDelta table chainId share).totalWeight.toNat ≤ 2 ^ 256 * 65535 := by
  have hbounds := attempts_bounds share.pay
  unfold mergedWeightsDelta
  split
  · exact Nat.zero_le _
  show (share.pay.attempts * 65535).toNat ≤ _
  rw [toNat_weight]
  omega

variable [DecidableEq H] [Inhabited H]

section Truth

variable (find : H → Option (ChainData H MergedShare))

/-- The previous hash of the share that `find` gives. -/
def prevOf (x : H) : H :=
  match find x with
  | some data => data.index.tail
  | none => default

/-- The delta of the share that `find` gives. -/
def deltaOf (table : MinerMergedAddr) (chainId : ChainId) (x : H) : WeightsDelta :=
  match find x with
  | some data => mergedWeightsDelta table chainId data.share
  | none => ⟨1, [], 0, 0⟩

/-- The held shares are those that `find` gives, and the levels of every skip
list are true for the present address table. -/
structure Truthful (t : MergedTracker H) : Prop where
  held : ∀ x data, t.chain.shares.lookup x = some data → find x = some data
  truthful : ∀ c, (t.skips c).Truthful (prevOf find) (deltaOf find t.addr c)

end Truth

omit [DecidableEq H] [Inhabited H] in
theorem deltaOf_proper (table : MinerMergedAddr) (chainId : ChainId) (x : H) :
    (deltaOf find table chainId x).Proper := by
  unfold deltaOf
  split
  · exact mergedWeightsDelta_proper table chainId _
  · exact ⟨rfl, .inr rfl⟩

omit [DecidableEq H] [Inhabited H] in
theorem deltaOf_light (table : MinerMergedAddr) (chainId : ChainId) (x : H) :
    (deltaOf find table chainId x).totalWeight.toNat ≤ 2 ^ 256 * 65535 := by
  unfold deltaOf
  split
  · exact mergedWeightsDelta_light table chainId _
  · exact Nat.zero_le _

theorem mergedWeightsDelta_congr
    (h : ∀ k, table.lookup (chainId, k) = table'.lookup (chainId, k)) (share : MergedShare) :
    mergedWeightsDelta table chainId share = mergedWeightsDelta table' chainId share := by
  have hprobe : ∀ parent, table.probe chainId parent = table'.probe chainId parent := by
    intro parent
    unfold MinerMergedAddr.probe
    rw [h, h]
  have hkey : weightKey table chainId share = weightKey table' chainId share := by
    unfold weightKey
    simp only [hprobe]
  unfold mergedWeightsDelta
  rw [hkey]

omit [DecidableEq H] [Inhabited H] in
theorem deltaOf_congr (h : ∀ k, table.lookup (chainId, k) = table'.lookup (chainId, k)) :
    deltaOf find table chainId = deltaOf find table' chainId := by
  funext x
  unfold deltaOf
  split
  · exact mergedWeightsDelta_congr h _
  · rfl

theorem Truthful.registerEntry {t : MergedTracker H} (h : Truthful find t) (parent : Script)
    (e : MergedAddressEntry) : Truthful find (registerEntry parent t e) := by
  refine ⟨?_, ?_⟩
  · rw [registerEntry_chain]
    exact h.held
  intro c
  obtain hdropped | ⟨hskips, hsame⟩ := registerEntry_cases parent t e c
  · rw [hdropped]
    exact LazySkipList.TableOk.empty
  · rw [hskips, deltaOf_congr hsame]
    exact h.truthful c

theorem Truthful.tryRegister (h : Truthful find t) (share : MergedShare) :
    Truthful find (t.tryRegisterMergedAddr share) := by
  have hfold : ∀ (entries : List MergedAddressEntry) (t : MergedTracker H), Truthful find t →
      Truthful find (entries.foldl (MergedTracker.registerEntry share.pay.script) t) := by
    intro entries
    induction entries with
    | nil =>
      intro t h
      exact h
    | cons e entries ih =>
      intro t h
      exact ih _ (h.registerEntry share.pay.script e)
  unfold tryRegisterMergedAddr
  split
  · exact h
  · exact hfold _ t h

theorem Truthful.add (h : Truthful find t) {data : ChainData H MergedShare}
    (hdata : find data.index.head = some data) : Truthful find (t.add data) := by
  unfold MergedTracker.add
  split
  · exact h
  refine ⟨?_, (h.tryRegister data.share).truthful⟩
  intro x data' hx
  have hx' : ((t.tryRegisterMergedAddr data.share).chain.shares.insert data.index.head data).lookup
      x = some data' := hx
  rw [lookup_insert_ite] at hx'
  split at hx'
  · rename_i hxd
    cases hx'
    rw [hxd]
    exact hdata
  · exact (h.tryRegister data.share).held x data' hx'

variable (hfind : ∀ x data, find x = some data → data.index.head = x)

include hfind in
theorem Truthful.follows (h : Truthful find t) : t.chain.Follows (prevOf find) := by
  intro x data hx
  have hgiven := h.held x data hx
  refine ⟨hfind x data hgiven, ?_⟩
  unfold prevOf
  rw [hgiven]

include hfind in
theorem Truthful.readable (h : Truthful find t) (chainId : ChainId)
    (hn : n ≤ t.chain.getHeight best) {i : Nat} (hi : i < n) :
    WeightsSkipList.Readable (prevOf find) (deltaOf find t.addr chainId)
      (ShareChain.previous t.chain) (t.getDelta chainId) ((prevOf find)^[i] best) := by
  obtain ⟨hnull, hmem⟩ := (h.follows hfind).path_of_le_getHeight hn i hi
  obtain ⟨data, hdata⟩ := mem_iff.mp hmem
  refine ⟨hnull, (h.follows hfind).previous_eq hmem, ?_⟩
  unfold getDelta deltaOf
  rw [hdata, h.held _ data hdata]

omit [DecidableEq H] in
theorem noWrap_chainLen (table : MinerMergedAddr) (chainId : ChainId) (best : H) (hn : n ≤ 8640) :
    NoWrap (WeightsSkipList.below (prevOf find) (deltaOf find table chainId) best) n := by
  calc ∑ i ∈ Finset.range n,
        (WeightsSkipList.below (prevOf find) (deltaOf find table chainId) best i).totalWeight.toNat
      ≤ ∑ _i ∈ Finset.range n, 2 ^ 256 * 65535 :=
        Finset.sum_le_sum fun i _ => deltaOf_light table chainId _
    _ = n * (2 ^ 256 * 65535) := by
        rw [Finset.sum_const, Finset.card_range]
        rfl
    _ < 2 ^ 288 := by omega

theorem chainLen_le (testnet : Bool) (t : MergedTracker H) (best : H) :
    t.chainLen testnet best ≤ t.chain.getHeight best ∧ t.chainLen testnet best ≤ 8640 := by
  unfold chainLen realChainLength
  split <;> omega

theorem Truthful.cumulativeWeights (h : Truthful find t)
    (hfind : ∀ x data, find x = some data → data.index.head = x) (testnet : Bool) (draw : H → Nat)
    (chainId : ChainId) (hlen : 1 ≤ t.chainLen testnet best) :
    (t.cumulativeWeights testnet draw best chainId).1.Same
        (linearWalk (WeightsSkipList.below (prevOf find) (deltaOf find t.addr chainId) best)
          DecayTracker.unlimited (t.chainLen testnet best) 0 .initial) ∧
      Truthful find (t.cumulativeWeights testnet draw best chainId).2 := by
  obtain ⟨hheight, hshort⟩ := chainLen_le testnet t best
  obtain ⟨hsame, hkept⟩ := (h.truthful chainId).query_spec (deltaOf_proper t.addr chainId) draw hlen
    DecayTracker.unlimited fun i hi => h.readable hfind chainId hheight hi
  refine ⟨hsame (noWrap_chainLen t.addr chainId best hshort), h.held, ?_⟩
  intro c
  show (Function.update t.skips chainId _ c).Truthful _ _
  by_cases hc : c = chainId
  · subst hc
    rw [update_self]
    exact hkept
  · rw [update_of_ne hc]
    exact h.truthful c

end MergedTracker

end C2Pool.Ltc
