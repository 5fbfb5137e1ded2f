import C2Pool.Ltc.MergedSkips

/-! # Payouts and the order of arrival

Two trackers that were given the same shares in different orders hold the same chain, but their
address tables can differ: the first registration under a key stays. When every key that a share
without an address looks up was registered with one script only, both trackers pay the same.
-/

namespace C2Pool.Ltc

open Sharechain FiniteMap Run Tally Finmap List

/-! ## The split depends on the sums per key only -/

section Split

variable (operatorLtc operatorMerged : Script) {r r' : CumulativeWeightsResult}

/-- What an entry adds to the payout script `s`. -/
def shareOfScript (s key : Script) (weight : UInt288) : UInt288 :=
  if payoutScript operatorLtc operatorMerged key = [] then 0
  else if payoutScript operatorLtc operatorMerged key = s then weight else 0

theorem amount_resolved (w : CumulativeWeightsResult) (s : Script) :
    (resolveWeights operatorLtc operatorMerged w).resolved.amount s =
      (w.weights.map fun e => shareOfScript operatorLtc operatorMerged s e.1 e.2).sum := by
  have hfold : ∀ (entries acc : Tally Script UInt288),
      (entries.foldl (fun acc e =>
        if payoutScript operatorLtc operatorMerged e.1 = [] then acc
        else acc.bump (payoutScript operatorLtc operatorMerged e.1) e.2) acc).amount s =
      acc.amount s +
        (entries.map fun e => shareOfScript operatorLtc operatorMerged s e.1 e.2).sum := by
    intro entries
    induction entries with
    | nil => simp
    | cons e entries ih =>
      intro acc
      rw [foldl_cons, ih, List.map_cons, sum_cons]
      unfold shareOfScript
      split
      · rw [zero_add]
      · rw [amount_bump, add_assoc]
  unfold resolveWeights
  rw [hfold, amount_nil, zero_add]

theorem resolved_distinct (w : CumulativeWeightsResult) :
    (resolveWeights operatorLtc operatorMerged w).resolved.Distinct := by
  have hfold : ∀ (entries acc : Tally Script UInt288), acc.Distinct →
      (entries.foldl (fun acc e =>
        if payoutScript operatorLtc operatorMerged e.1 = [] then acc
        else acc.bump (payoutScript operatorLtc operatorMerged e.1) e.2) acc).Distinct := by
    intro entries
    induction entries with
    | nil =>
      intro acc h
      exact h
    | cons e entries ih =>
      intro acc h
      rw [foldl_cons]
      apply ih
      split
      · exact h
      · exact h.bump _ _
  exact hfold w.weights [] nodup_nil

theorem acceptedTotal_eq_sum (w : CumulativeWeightsResult) :
    (resolveWeights operatorLtc operatorMerged w).acceptedTotal =
      (w.weights.map fun e =>
        if payoutScript operatorLtc operatorMerged e.1 = [] then 0 else e.2).sum := by
  have hfold : ∀ (entries : Tally Script UInt288) (acc : UInt288),
      entries.foldl (fun acc e =>
        if payoutScript operatorLtc operatorMerged e.1 = [] then acc else acc + e.2) acc =
      acc + (entries.map fun e =>
        if payoutScript operatorLtc operatorMerged e.1 = [] then 0 else e.2).sum := by
    intro entries
    induction entries with
    | nil => simp
    | cons e entries ih =>
      intro acc
      rw [foldl_cons, ih, List.map_cons, sum_cons]
      split
      · rw [zero_add]
      · rw [add_assoc]
  unfold resolveWeights
  rw [hfold, zero_add]

variable {operatorLtc operatorMerged}

theorem resolved_amount_congr (h : r.Same r') (s : Script) :
    (resolveWeights operatorLtc operatorMerged r).resolved.amount s =
      (resolveWeights operatorLtc operatorMerged r').resolved.amount s := by
  rw [amount_resolved, amount_resolved]
  apply sum_map_eq_of_amount_eq h.weights (shareOfScript operatorLtc operatorMerged s)
  · intro k
    unfold shareOfScript
    split <;> simp
  intro k a b
  unfold shareOfScript
  split
  · rw [add_zero]
  split
  · rfl
  · rw [add_zero]

theorem acceptedTotal_congr (h : r.Same r') :
    (resolveWeights operatorLtc operatorMerged r).acceptedTotal =
      (resolveWeights operatorLtc operatorMerged r').acceptedTotal := by
  rw [acceptedTotal_eq_sum, acceptedTotal_eq_sum]
  apply sum_map_eq_of_amount_eq h.weights
    (fun key weight => if payoutScript operatorLtc operatorMerged key = [] then 0 else weight)
  · intro k
    split <;> rfl
  intro k a b
  split
  · rw [add_zero]
  · rfl

end Split

theorem payAmount_zero (reward : BitVec 64) (accepted : UInt288) :
    payAmount reward accepted 0 = 0 := by
  unfold payAmount
  split
  · rfl
  show (reward.setWidth 288 * 0#288 / accepted).setWidth 64 = 0#64
  rw [BitVec.mul_zero, BitVec.zero_udiv]
  rfl

variable {reward : BitVec 64} {accepted : UInt288} {entries : Tally Script UInt288}

theorem foldl_payOne_of_notMem {s : Script} (h : s ∉ entries.map Prod.fst)
    (acc : Payouts × BitVec 64) :
    (entries.foldl (payOne reward accepted) acc).1.lookup s = acc.1.lookup s := by
  induction entries generalizing acc with
  | nil => rfl
  | cons e entries ih =>
    rw [List.map_cons, mem_cons, not_or] at h
    rw [foldl_cons, ih h.2]
    unfold payOne
    split
    · rfl
    · rw [lookup_insert_ite, if_neg h.1]

theorem foldl_payOne_lookup (h : entries.Distinct) (s : Script)
    (acc : Payouts × BitVec 64) (hnew : acc.1.lookup s = none) :
    (entries.foldl (payOne reward accepted) acc).1.lookup s =
      if payAmount reward accepted (entries.amount s) = 0 then none
      else some (payAmount reward accepted (entries.amount s)) := by
  induction entries generalizing acc with
  | nil =>
    rw [foldl_nil, amount_nil, payAmount_zero, if_pos rfl]
    exact hnew
  | cons e entries ih =>
    unfold Tally.Distinct at h
    rw [List.map_cons, nodup_cons] at h
    rw [foldl_cons, amount_cons]
    by_cases hs : e.1 = s
    · subst hs
      rw [foldl_payOne_of_notMem h.1, if_pos rfl, amount_of_notMem h.1, add_zero]
      unfold payOne
      split
      · exact hnew
      · rw [lookup_insert_ite, if_pos rfl, hnew]
        simp
    rw [if_neg hs, zero_add]
    apply ih h.2
    unfold payOne
    split
    · exact hnew
    · rw [lookup_insert_ite, if_neg (Ne.symm hs)]
      exact hnew

theorem foldl_payOne_total (reward : BitVec 64) (accepted : UInt288)
    (entries : Tally Script UInt288) (acc : Payouts × BitVec 64) :
    (entries.foldl (payOne reward accepted) acc).2 =
      acc.2 + (entries.map fun e => payAmount reward accepted e.2).sum := by
  induction entries generalizing acc with
  | nil => simp
  | cons e entries ih =>
    rw [foldl_cons, ih, List.map_cons, sum_cons]
    unfold payOne
    split
    · rename_i hzero
      rw [hzero, zero_add]
    · rw [add_assoc]

theorem foldl_payOne_congr {entries' : Tally Script UInt288} (h : entries.Distinct)
    (h' : entries'.Distinct) (hsame : ∀ s, entries.amount s = entries'.amount s) :
    entries.foldl (payOne reward accepted) (∅, 0) =
      entries'.foldl (payOne reward accepted) (∅, 0) := by
  have hempty : ∀ s : Script, ((∅ : Payouts), (0 : BitVec 64)).1.lookup s = none := by
    intro s
    exact lookup_empty s
  refine Prod.ext ?_ ?_
  · apply ext_lookup
    intro s
    rw [foldl_payOne_lookup h s _ (hempty s), foldl_payOne_lookup h' s _ (hempty s), hsame]
  have hleft : ∀ e ∈ entries, e.1 ∈ ((entries ++ entries').map Prod.fst).toFinset := by
    intro e he
    exact mem_toFinset.mpr (mem_map_of_mem (mem_append_left _ he))
  have hright : ∀ e ∈ entries', e.1 ∈ ((entries ++ entries').map Prod.fst).toFinset := by
    intro e he
    exact mem_toFinset.mpr (mem_map_of_mem (mem_append_right _ he))
  rw [foldl_payOne_total, foldl_payOne_total,
    h.sum_map (fun _ w => payAmount reward accepted w) (fun _ => payAmount_zero _ _) _ hleft,
    h'.sum_map (fun _ w => payAmount reward accepted w) (fun _ => payAmount_zero _ _) _ hright]
  simp only [hsame]

theorem payouts_congr {r r' : CumulativeWeightsResult} (h : r.Same r') (subsidy : BitVec 64)
    (donationScript operatorLtc operatorMerged : Script) :
    mergedPayoutsFromWeights (resolveWeights operatorLtc operatorMerged r) subsidy donationScript =
      mergedPayoutsFromWeights (resolveWeights operatorLtc operatorMerged r') subsidy
        donationScript := by
  have htotal : (resolveWeights operatorLtc operatorMerged r).totalWeight =
      (resolveWeights operatorLtc operatorMerged r').totalWeight := h.total
  have hdonation : (resolveWeights operatorLtc operatorMerged r).donationWeight =
      (resolveWeights operatorLtc operatorMerged r').donationWeight := h.donation
  unfold mergedPayoutsFromWeights
  rw [htotal, hdonation, acceptedTotal_congr h]
  split
  · rfl
  dsimp only
  rw [foldl_payOne_congr (resolved_distinct _ _ r) (resolved_distinct _ _ r')
    (resolved_amount_congr h)]

namespace MergedTracker

variable {H : Type} [DecidableEq H] [Inhabited H] {find : H → Option (ChainData H MergedShare)}
  {t : MergedTracker H} {testnet : Bool} {ops : List (Op H)}
  {shares : List (ChainData H MergedShare)} {data : ChainData H MergedShare}
/-! ## Runs -/

def added (ops : List (Op H)) : List (ChainData H MergedShare) :=
  ops.filterMap fun op =>
    match op with
    | .add data => some data
    | .payouts _ _ _ => none

def FromHeld (t : MergedTracker H) : Op H → Prop
  | .add _ => True
  | .payouts _ best _ => best ∈ t.chain.shares

theorem chainLen_pos {best : H} (testnet : Bool) (hnull : best ≠ default)
    (hheld : best ∈ t.chain.shares) : 1 ≤ t.chainLen testnet best := by
  obtain ⟨data, hdata⟩ := mem_iff.mp hheld
  have hheight : 1 ≤ t.chain.getHeight best := by
    unfold Forest.getHeight Forest.getHeightLoop Forest.current
    rw [if_neg hnull, hdata]
    exact Nat.le_add_left 1 _
  unfold chainLen realChainLength
  split <;> omega

theorem step_truthful (hfind : ∀ x data, find x = some data → data.index.head = x)
    (h : Truthful find t) {op : Op H}
    (hadded : ∀ data ∈ added [op], find data.index.head = some data) (hop : FromHeld t op) :
    Truthful find (t.step testnet op) := by
  cases op with
  | add data => exact h.add (hadded data mem_cons_self)
  | payouts draw best chainId =>
    by_cases hnull : best = default
    · have hskips : (t.cumulativeWeights testnet draw best chainId).2 = t := by
        unfold cumulativeWeights WeightsSkipList.query
        simp only [hnull, if_true, Function.update_eq_self]
      show Truthful find (t.cumulativeWeights testnet draw best chainId).2
      rw [hskips]
      exact h
    · exact (h.cumulativeWeights hfind testnet draw chainId (chainLen_pos testnet hnull hop)).2

theorem run_truthful (hfind : ∀ x data, find x = some data → data.index.head = x)
    (h : Truthful find t) (hadded : ∀ data ∈ added ops, find data.index.head = some data)
    (hops : Admissible (step testnet) FromHeld t ops) :
    Truthful find (run (step testnet) t ops) := by
  induction ops generalizing t with
  | nil => exact h
  | cons op ops ih =>
    have hsplit : added (op :: ops) = added [op] ++ added ops := by
      unfold added
      rw [← filterMap_append]
      rfl
    rw [hsplit] at hadded
    apply ih _ (fun data hdata => hadded data (mem_append_right _ hdata)) hops.2
    exact step_truthful hfind h (fun data hdata => hadded data (mem_append_left _ hdata)) hops.1

def byHash (shares : List (ChainData H MergedShare)) (x : H) : Option (ChainData H MergedShare) :=
  shares.find? fun data => data.index.head = x

omit [Inhabited H] in
theorem head_of_byHash (shares : List (ChainData H MergedShare)) (x : H)
    (data : ChainData H MergedShare) (h : byHash shares x = some data) : data.index.head = x := by
  simpa using find?_some h

omit [Inhabited H] in
theorem byHash_eq_some_iff (hnodup : (shares.map fun data => data.index.head).Nodup) {x : H} :
    byHash shares x = some data ↔ data ∈ shares ∧ data.index.head = x := by
  constructor
  · intro h
    exact ⟨mem_of_find?_eq_some h, head_of_byHash shares x data h⟩
  rintro ⟨hmem, rfl⟩
  induction shares with
  | nil => cases hmem
  | cons first shares ih =>
    rw [List.map_cons, nodup_cons] at hnodup
    unfold byHash
    rw [find?_cons]
    rcases mem_cons.mp hmem with rfl | hmem
    · simp
    have hne : first.index.head ≠ data.index.head := by
      intro hsame
      exact hnodup.1 (hsame ▸ mem_map_of_mem hmem)
    simp only [hne, decide_false]
    exact ih hnodup.2 hmem

omit [Inhabited H] in
theorem byHash_perm {shares' : List (ChainData H MergedShare)}
    (hnodup : (shares.map fun data => data.index.head).Nodup) (hperm : shares.Perm shares') :
    byHash shares = byHash shares' := by
  have hnodup' : (shares'.map fun data => data.index.head).Nodup :=
    (hperm.map _).nodup_iff.mp hnodup
  funext x
  apply Option.ext
  intro data
  rw [byHash_eq_some_iff hnodup, byHash_eq_some_iff hnodup', hperm.mem_iff]

theorem lookup_add (hnew : data.index.head ∉ t.chain.shares) (x : H) :
    (t.add data).chain.shares.lookup x = (t.chain.shares.lookup x).or (byHash [data] x) := by
  unfold MergedTracker.add
  rw [if_neg hnew]
  show ((t.tryRegisterMergedAddr data.share).chain.shares.insert data.index.head data).lookup x = _
  rw [tryRegister_chain, lookup_insert_ite]
  by_cases hx : x = data.index.head
  · subst hx
    rw [if_pos rfl, lookup_eq_none.mpr hnew]
    simp [byHash]
  · rw [if_neg hx]
    simp [byHash, Ne.symm hx]

theorem run_contents (hnew : ∀ data ∈ added ops, data.index.head ∉ t.chain.shares)
    (hnodup : ((added ops).map fun data => data.index.head).Nodup) :
    (∀ x, (run (step testnet) t ops).chain.shares.lookup x =
      (t.chain.shares.lookup x).or (byHash (added ops) x)) ∧
    (∀ c k, (run (step testnet) t ops).addr.lookup (c, k) =
      (t.addr.lookup (c, k)).or ((added ops).findSome? fun data => data.share.registered c k)) := by
  induction ops generalizing t with
  | nil => simp [added, byHash]
  | cons op ops ih =>
    cases op with
    | payouts draw best chainId => exact ih hnew hnodup
    | add data =>
      have hadded : added (.add data :: ops) = data :: added ops := rfl
      rw [hadded] at hnew hnodup ⊢
      rw [List.map_cons, nodup_cons] at hnodup
      have hfree := hnew data mem_cons_self
      have hrest : ∀ d ∈ added ops, d.index.head ∉ (t.add data).chain.shares := by
        intro d hd
        rw [← lookup_eq_none, lookup_add hfree,
          lookup_eq_none.mpr (hnew d (mem_cons_of_mem _ hd)), Option.none_or]
        have hne : data.index.head ≠ d.index.head := by
          intro hsame
          exact hnodup.1 (hsame ▸ mem_map_of_mem hd)
        simp [byHash, hne]
      obtain ⟨hshares, haddr⟩ := ih hrest hnodup.2
      refine ⟨?_, ?_⟩
      · intro x
        show (run (step testnet) (t.add data) ops).chain.shares.lookup x = _
        rw [hshares, lookup_add hfree, Option.or_assoc]
        unfold byHash
        by_cases hx : data.index.head = x <;> simp [hx]
      intro c k
      show (run (step testnet) (t.add data) ops).addr.lookup (c, k) = _
      have hregister : (t.add data).addr.lookup (c, k) =
          (t.addr.lookup (c, k)).or (data.share.registered c k) := by
        unfold MergedTracker.add
        rw [if_neg hfree]
        exact lookup_tryRegister t data.share c k
      rw [haddr, hregister, Option.or_assoc, List.findSome?_cons]
      cases data.share.registered c k <;> rfl

def Agree (shares : List (ChainData H MergedShare)) (chainId : ChainId) (key : Script) : Prop :=
  ∀ a ∈ shares, ∀ b ∈ shares, ∀ s s', a.share.registered chainId key = some s →
    b.share.registered chainId key = some s' → s = s'

end MergedTracker

def MergedShare.Consults (share : MergedShare) (chainId : ChainId) : Prop :=
  ¬ (share.desiredVersion < 36 ∨ share.pay.script = []) ∧
    ∃ entries, share.mergedAddresses = some entries ∧ ∀ e ∈ entries, e.chainId ≠ chainId

namespace MergedTracker

variable {H : Type} [DecidableEq H] [Inhabited H] {shares shares' : List (ChainData H MergedShare)}
  {chainId : ChainId}

/-- Every key that a share has to look up was given one script: its parent
script or, where no share registers that, its normalized form. -/
def Unambiguous (shares : List (ChainData H MergedShare)) (chainId : ChainId) : Prop :=
  ∀ data ∈ shares, data.share.Consults chainId →
    Agree shares chainId data.share.pay.script ∧
      ((∀ a ∈ shares, a.share.registered chainId data.share.pay.script = none) →
        Agree shares chainId (normalizeScriptForMerged data.share.pay.script))

omit [DecidableEq H] [Inhabited H] in
theorem findSome_registered_perm {key : Script} (hperm : shares.Perm shares')
    (hagree : Agree shares chainId key) :
    (shares.findSome? fun data => data.share.registered chainId key) =
      shares'.findSome? fun data => data.share.registered chainId key := by
  cases hl : shares.findSome? fun data => data.share.registered chainId key with
  | none =>
    rw [findSome?_eq_none_iff] at hl
    symm
    rw [findSome?_eq_none_iff]
    intro data hdata
    exact hl data (hperm.mem_iff.mpr hdata)
  | some s =>
    obtain ⟨a, ha, has⟩ := exists_of_findSome?_eq_some hl
    cases hr : shares'.findSome? fun data => data.share.registered chainId key with
    | none =>
      rw [findSome?_eq_none_iff] at hr
      have hnone := hr a (hperm.mem_iff.mp ha)
      rw [has] at hnone
      cases hnone
    | some s' =>
      obtain ⟨b, hb, hbs⟩ := exists_of_findSome?_eq_some hr
      rw [hagree a ha b (hperm.mem_iff.mpr hb) s s' has hbs]

omit [DecidableEq H] [Inhabited H] in
theorem Unambiguous.delta_eq (hclear : Unambiguous shares chainId) (hperm : shares.Perm shares')
    {table table' : MinerMergedAddr} (htable : ∀ k, table.lookup (chainId, k) =
      shares.findSome? fun data => data.share.registered chainId k)
    (htable' : ∀ k, table'.lookup (chainId, k) =
      shares'.findSome? fun data => data.share.registered chainId k)
    {data : ChainData H MergedShare} (hdata : data ∈ shares) :
    mergedWeightsDelta table chainId data.share = mergedWeightsDelta table' chainId data.share := by
  unfold mergedWeightsDelta
  split
  · rfl
  rename_i hweighed
  have hkey : weightKey table chainId data.share = weightKey table' chainId data.share := by
    unfold weightKey
    cases hentries : data.share.mergedAddresses with
    | none => rfl
    | some entries =>
      cases hown : entries.find? fun e => e.chainId = chainId with
      | some e => simp only [hown]
      | none =>
        have hconsults : data.share.Consults chainId := by
          refine ⟨hweighed, entries, hentries, ?_⟩
          simpa using find?_eq_none.mp hown
        obtain ⟨hparent, hnormal⟩ := hclear data hdata hconsults
        have hlookup : table.lookup (chainId, data.share.pay.script) =
            table'.lookup (chainId, data.share.pay.script) := by
          rw [htable, htable', findSome_registered_perm hperm hparent]
        have hprobe : table.probe chainId data.share.pay.script =
            table'.probe chainId data.share.pay.script := by
          unfold MinerMergedAddr.probe
          rw [← hlookup]
          cases hfirst : table.lookup (chainId, data.share.pay.script) with
          | some script => rfl
          | none =>
            rw [htable, findSome?_eq_none_iff] at hfirst
            simp only [htable, htable', findSome_registered_perm hperm (hnormal hfirst)]
        simp only [hown, hprobe]
  rw [hkey]

/-! ## Two orders -/

theorem getHeight_congr {c c' : Forest H MergedShare} (h : c.shares = c'.shares) (x : H) :
    c.getHeight x = c'.getHeight x := by
  have hloop : ∀ rounds cur, c.getHeightLoop rounds cur = c'.getHeightLoop rounds cur := by
    intro rounds
    induction rounds with
    | zero =>
      intro cur
      rfl
    | succ rounds ih =>
      intro cur
      unfold Forest.getHeightLoop Forest.current
      rw [h]
      split
      · rfl
      · rw [ih]
  unfold Forest.getHeight Forest.size
  rw [hloop, h]

theorem Truthful.cumulativeWeights_zero {t : MergedTracker H} (h : Truthful find t) (testnet : Bool)
    (draw : H → Nat) {best : H} (chainId : ChainId) (hlen : t.chainLen testnet best = 0) :
    (t.cumulativeWeights testnet draw best chainId).1 = ⟨[], 0, 0⟩ := by
  unfold MergedTracker.cumulativeWeights
  by_cases hnull : best = default
  · unfold WeightsSkipList.query
    rw [if_pos hnull]
  rw [hlen]
  apply (h.truthful chainId).query_zero draw
  · have hlight := @deltaOf_light H find t.addr chainId best
    have hlarge : DecayTracker.unlimited.toNat = 2 ^ 272 - 1 := by decide +kernel
    rw [BitVec.le_def, hlarge]
    omega
  have hfree : best ∉ t.chain.shares := by
    intro hheld
    have := chainLen_pos testnet hnull hheld
    omega
  unfold getDelta
  rw [lookup_eq_none.mpr hfree]
  rfl

theorem run_empty_contents (testnet : Bool) {ops : List (Op H)}
    (hnodup : ((added ops).map fun data => data.index.head).Nodup) :
    (∀ x, (run (step testnet) empty ops).chain.shares.lookup x = byHash (added ops) x) ∧
    (∀ c k, (run (step testnet) empty ops).addr.lookup (c, k) =
      (added ops).findSome? fun data => data.share.registered c k) := by
  have hnew : ∀ data ∈ added ops, data.index.head ∉ (empty : MergedTracker H).chain.shares :=
    fun _ _ => notMem_empty
  obtain ⟨hshares, haddr⟩ := run_contents hnew hnodup
  refine ⟨?_, ?_⟩
  · intro x
    rw [hshares]
    exact Option.none_or
  intro c k
  rw [haddr]
  exact Option.none_or

theorem empty_truthful : Truthful find (empty : MergedTracker H) := by
  refine ⟨?_, fun c => LazySkipList.TableOk.empty⟩
  intro x data hx
  cases hx

/-- Two runs that add the same shares, in any orders and with payouts in
between, pay the same for every best share, subsidy and draw of the skip
lists. -/
theorem run_payouts_agree (testnet : Bool) (ops ops' : List (Op H))
    (hperm : (added ops).Perm (added ops'))
    (hnodup : ((added ops).map fun data => data.index.head).Nodup)
    (hops : Admissible (step testnet) FromHeld empty ops)
    (hops' : Admissible (step testnet) FromHeld empty ops') (chainId : ChainId)
    (hclear : Unambiguous (added ops) chainId) (draw draw' : H → Nat) (best : H)
    (subsidy : BitVec 64) (donationScript operatorLtc operatorMerged : Script) :
    (run (step testnet) empty ops).expectedPayouts testnet draw best subsidy chainId
        donationScript operatorLtc operatorMerged =
      (run (step testnet) empty ops').expectedPayouts testnet draw' best subsidy chainId
        donationScript operatorLtc operatorMerged := by
  have hnodup' : ((added ops').map fun data => data.index.head).Nodup :=
    (hperm.map _).nodup_iff.mp hnodup
  have hby := byHash_perm hnodup hperm
  have hfind := head_of_byHash (added ops)
  obtain ⟨hshares, haddr⟩ := run_empty_contents testnet hnodup
  obtain ⟨hshares', haddr'⟩ := run_empty_contents testnet hnodup'
  have htruth : Truthful (byHash (added ops)) (run (step testnet) empty ops) := by
    apply run_truthful hfind empty_truthful _ hops
    intro data hdata
    exact (byHash_eq_some_iff hnodup).mpr ⟨hdata, rfl⟩
  have htruth' : Truthful (byHash (added ops)) (run (step testnet) empty ops') := by
    apply run_truthful hfind empty_truthful _ hops'
    intro data hdata
    exact (byHash_eq_some_iff hnodup).mpr ⟨hperm.mem_iff.mpr hdata, rfl⟩
  have hsame : (run (step testnet) empty ops).chain.shares =
      (run (step testnet) empty ops').chain.shares := by
    apply ext_lookup
    intro x
    rw [hshares, hshares', hby]
  have hlen : (run (step testnet) empty ops').chainLen testnet best =
      (run (step testnet) empty ops).chainLen testnet best := by
    unfold chainLen
    rw [getHeight_congr hsame]
  have hdelta : deltaOf (byHash (added ops)) (run (step testnet) empty ops').addr chainId =
      deltaOf (byHash (added ops)) (run (step testnet) empty ops).addr chainId := by
    funext x
    unfold deltaOf
    cases hx : byHash (added ops) x with
    | none => rfl
    | some data =>
      have hmem := ((byHash_eq_some_iff hnodup).mp hx).1
      exact (hclear.delta_eq hperm (haddr chainId) (haddr' chainId) hmem).symm
  apply payouts_congr
  by_cases hzero : (run (step testnet) empty ops).chainLen testnet best = 0
  · rw [htruth.cumulativeWeights_zero testnet draw chainId hzero,
      htruth'.cumulativeWeights_zero testnet draw' chainId (hlen.trans hzero)]
    exact ⟨fun _ => rfl, rfl, rfl⟩
  have hpos : 1 ≤ (run (step testnet) empty ops).chainLen testnet best := by omega
  have hpos' : 1 ≤ (run (step testnet) empty ops').chainLen testnet best := by omega
  have hweights := (htruth.cumulativeWeights hfind testnet draw chainId hpos).1
  have hweights' := (htruth'.cumulativeWeights hfind testnet draw' chainId hpos').1
  rw [hlen, hdelta] at hweights'
  exact hweights.trans hweights'.symm

def keyScript (owner : Fin 256) : Script :=
  [0x76, 0xa9, 0x14] ++ List.replicate 20 owner ++ [0x88, 0xac]

def minedShare (hash prev : Nat) (owner : Option (Fin 256)) : ChainData Nat MergedShare :=
  ⟨⟨hash, prev, 1, 1⟩,
    ⟨⟨0x1e0fffff, 655, keyScript 1⟩, 36,
      some (owner.toList.map fun owner => ⟨98, keyScript owner⟩)⟩⟩

def oneAddressOps (order : List Nat) : List (Op Nat) :=
  order.map fun x => .add (minedShare x (x - 1) (if x = 3 then none else some 5))

theorem oneAddress_unambiguous (order : List Nat) :
    Unambiguous (added (oneAddressOps order)) 98 := by
  have hone : ∀ data ∈ added (oneAddressOps order), ∀ k s,
      data.share.registered 98 k = some s → s = keyScript 5 := by
    intro data hdata k s hs
    unfold added oneAddressOps at hdata
    rw [List.filterMap_map, List.mem_filterMap] at hdata
    obtain ⟨x, -, hx⟩ := hdata
    obtain rfl := Option.some.inj hx
    obtain ⟨e, he, rfl⟩ := MergedShare.mem_of_registered hs
    by_cases hx : x = 3
    · simp [minedShare, hx] at he
    simp only [minedShare, if_neg hx, Option.toList_some, List.map_cons, List.map_nil,
      Option.getD_some, List.mem_singleton] at he
    rw [he]
  have hagree : ∀ k, Agree (added (oneAddressOps order)) 98 k := by
    intro k a ha b hb s s' hs hs'
    rw [hone a ha k s hs, hone b hb k s' hs']
  intro data _ _
  exact ⟨hagree _, fun _ => hagree _⟩

/-- The other order, with payouts before the first two shares have arrived. -/
theorem run_payouts_agree_oneAddressOps :
    (run (step false) empty (oneAddressOps [1, 2, 3])).expectedPayouts false (fun _ => 1) 3
        1000000 98 (keyScript 9) [] [] =
      (run (step false) empty (oneAddressOps [3] ++ .payouts (fun _ => 1) 3 98 ::
        oneAddressOps [2, 1])).expectedPayouts false (fun _ => 2) 3 1000000 98 (keyScript 9) []
          [] := by
  apply run_payouts_agree false (oneAddressOps [1, 2, 3])
  · exact reverse_perm (added (oneAddressOps [3, 2, 1]))
  · decide
  · exact ⟨trivial, trivial, trivial, trivial⟩
  · refine ⟨trivial, ?_, trivial, trivial, trivial⟩
    show 3 ∈ (empty.add (minedShare 3 2 none)).chain.shares
    decide
  · exact oneAddress_unambiguous [1, 2, 3]

def twoAddressesOps (order : List Nat) : List (Op Nat) :=
  order.map fun x => .add (minedShare x (x - 1) (if x = 3 then none else some (Fin.ofNat 256 x)))

/-- Two orders of the same shares that are paid differently: the third share is
credited to the address that arrived first. -/
theorem payouts_differ_by_order :
    (added (twoAddressesOps [1, 2, 3])).Perm (added (twoAddressesOps [2, 1, 3])) ∧
      ((added (twoAddressesOps [1, 2, 3])).map fun data => data.index.head).Nodup ∧
      (run (step false) empty (twoAddressesOps [1, 2, 3])).expectedPayouts false (fun _ => 1) 3
          1000000 98 (keyScript 9) [] [] ≠
        (run (step false) empty (twoAddressesOps [2, 1, 3])).expectedPayouts false (fun _ => 1) 3
          1000000 98 (keyScript 9) [] [] := by
  refine ⟨List.Perm.swap _ _ _, by decide, ?_⟩
  intro hsame
  have hpaid := congrArg (fun payouts : Payouts => payouts.lookup (keyScript 1)) hsame
  exact absurd hpaid (by decide +kernel)

end MergedTracker

end C2Pool.Ltc
