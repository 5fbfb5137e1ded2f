import C2Pool.Ltc.PplnsRingRun

/-! # A window that lags behind

An older share between two of version 36 is walked without a slide. While the chain below is long
enough, the ring is then slid all the same for the next share of version 36, from where it was.
-/

namespace C2Pool.Ltc

open List Sharechain FiniteMap

variable {H : Type} [DecidableEq H] [Inhabited H] {prev : H → H} {n : Nat} {env : Phase2Env H}

theorem verifyLoop_cons {hash : H} {rest : List H} {p : Phase2 H} {data : ChainData H PayShare}
    (hhash : p.chain.forest.current hash = some data) (hbudget : 0 < p.budgetRemaining)
    (hwall : ∀ k, env.wallExceeded k = false) (hverify : ∀ h, env.attemptVerify h = true) :
    verifyLoop n env (hash :: rest) p =
      verifyLoop n env rest (spend env (primeShare n env p hash data) hash) := by
  rw [verifyLoop]
  simp [(current_eq_some hhash).2, hbudget, hwall, hverify]

omit [DecidableEq H] [Inhabited H] in
theorem budget_spend (env : Phase2Env H) (p : Phase2 H) (hash : H) :
    p.budgetRemaining ≤ (spend env p hash).budgetRemaining + 1 := by
  unfold spend
  dsimp only
  split
  · exact Nat.le_succ _
  split
  · dsimp only
    omega
  · split <;> exact Nat.le_succ _

theorem budget_primeShare (n : Nat) (env : Phase2Env H) (p : Phase2 H) (hash : H)
    (data : ChainData H PayShare) :
    (primeShare n env p hash data).budgetRemaining = p.budgetRemaining := by
  have hmove : ∀ x, (moveRing n env p x).budgetRemaining = p.budgetRemaining := by
    intro x
    unfold moveRing
    split
    · rfl
    dsimp only
    split
    · rfl
    · split <;> rfl
  unfold primeShare
  dsimp only
  split
  · rw [← hmove data.index.tail]
    unfold primeFromRing
    split <;> rfl
  · rfl

theorem interrupted_call {chain : ShareChain H PayShare} (hc : Forest.Follows prev chain.forest)
    (hskips : chain.skipList.Truthful prev) {a : H} {da db dd deep : ChainData H PayShare}
    (ha : chain.forest.current a = some da) (hb : chain.forest.current da.index.tail = some db)
    (hd : chain.forest.current db.index.tail = some dd)
    (he : (chain.forest.current dd.index.tail).isSome)
    (hdeep : chain.forest.current (prev^[n] dd.index.tail) = some deep)
    (hfull : (rebuildRing chain.forest (n + 1) da.index.tail).length = n + 1)
    (hbelow : (rebuildRing chain.forest n dd.index.tail).length = n) (hva : 36 ≤ env.version a)
    (hvb : env.version da.index.tail < 36) (hvd : 36 ≤ env.version db.index.tail)
    (hwall : ∀ k, env.wallExceeded k = false) (hverify : ∀ h, env.attemptVerify h = true)
    {budget : Nat} (hbudget : 3 ≤ budget) (elevated : Nat) :
    let ring := slideBackward (rebuildRing chain.forest (n + 1) da.index.tail)
      (PPLNSEntry.ofShare deep.share)
    ⟨2, dd.index.tail, ring, computeV36Weights (n + 1) ring⟩ ∈
      (carryForward (n + 1) env chain a 3 budget elevated).calls := by
  intro ring
  have hwalk : Tracker.chainHashes chain.forest 3 a = [a, da.index.tail, db.index.tail] := by
    simp [Tracker.chainHashes, ha, hb, hd]
  -- the first share builds the ring
  generalize hp₁ : primeShare (n + 1) env ⟨chain, none, [], 0, budget, elevated⟩ a da = p₁
  have hfirst : p₁.chain = chain ∧
      p₁.ring = some (rebuildRing chain.forest (n + 1) da.index.tail) ∧ p₁.verifiedCount = 0 := by
    have hprime : p₁ = primeFromRing (n + 1)
        ⟨chain, some (rebuildRing chain.forest (n + 1) da.index.tail), [], 0, budget, elevated⟩
        da.index.tail := by
      rw [← hp₁]
      exact if_pos ⟨hva, by simp [hb]⟩
    rw [hprime]
    exact primeFromRing_frame _ _ _
  have hbudget₁ : p₁.budgetRemaining = budget := by
    rw [← hp₁]
    exact budget_primeShare (n + 1) env ⟨chain, none, [], 0, budget, elevated⟩ a da
  have hframe₁ := spend_frame env p₁ a
  have hleft₁ := budget_spend env p₁ a
  -- the second one leaves it where it is
  have hsecond : primeShare (n + 1) env (spend env p₁ a) da.index.tail db = spend env p₁ a :=
    if_neg fun hboth => by omega
  have hframe₂ := spend_frame env (spend env p₁ a) da.index.tail
  have hleft₂ := budget_spend env (spend env p₁ a) da.index.tail
  generalize hp₂ : spend env (spend env p₁ a) da.index.tail = p₂ at hframe₂ hleft₂
  have hchain₂ : p₂.chain = chain := by
    rw [hframe₂.1, hframe₁.1, hfirst.1]
  have hring₂ : p₂.ring = some (rebuildRing chain.forest (n + 1) da.index.tail) := by
    rw [hframe₂.2.1, hframe₁.2.1, hfirst.2.1]
  have hcount₂ : p₂.verifiedCount = 2 := by
    rw [hframe₂.2.2.2, hframe₁.2.2.2, hfirst.2.2]
  -- the third one slides it once
  have hmoved : (moveRing (n + 1) env p₂ dd.index.tail).ring = some ring ∧
      (moveRing (n + 1) env p₂ dd.index.tail).verifiedCount = 2 := by
    have hlookup := getNthParentViaSkip_eq hc rfl hskips env.draw n dd.index.tail
    rw [hbelow] at hlookup
    refine ⟨?_, (moveRing_frame (n + 1) env p₂ dd.index.tail).2.2.trans hcount₂⟩
    unfold moveRing
    simp only [hring₂, hchain₂, hfull, Nat.add_sub_cancel, Nat.min_self]
    rw [if_neg (Nat.succ_ne_zero n), hlookup.2.1, hlookup.1, hdeep]
  have hthird : primeShare (n + 1) env p₂ db.index.tail dd =
      primeFromRing (n + 1) (moveRing (n + 1) env p₂ dd.index.tail) dd.index.tail := by
    unfold primeShare
    rw [hchain₂]
    exact if_pos ⟨hvd, he⟩
  have hnonempty : ring ≠ [] := by
    simp [ring, slideBackward]
  unfold carryForward
  rw [hwalk, verifyLoop_cons ha (by dsimp only; omega) hwall hverify, hp₁,
    verifyLoop_cons (by rw [hframe₁.1, hfirst.1]; exact hb) (by omega) hwall hverify, hsecond, hp₂,
    verifyLoop_cons (by rw [hchain₂]; exact hd) (by omega) hwall hverify, hthird, verifyLoop,
    (spend_frame env _ db.index.tail).2.2.1]
  unfold primeFromRing
  rw [hmoved.1, hmoved.2]
  cases hring : ring with
  | nil => exact absurd hring hnonempty
  | cons e entries =>
    exact mem_append_right _ mem_cons_self

/-! ## A chain of 404 shares -/

def ordinaryShare : PayShare := ⟨0x1e0fffff, 0, []⟩

def donorShare : PayShare := ⟨0x1e0fffff, 1, []⟩

def paidShare (x : Nat) : ChainData Nat PayShare :=
  ⟨⟨x, x - 1, 1, 1⟩, if x = 402 then donorShare else ordinaryShare⟩

/-- The shares `1, ..., n`, each on top of the one before. -/
def paidForest : Nat → Forest Nat PayShare
  | 0 => .empty
  | n + 1 => (paidForest n).add (paidShare (n + 1))

theorem paidForest_lookup (n x : Nat) :
    (paidForest n).shares.lookup x = if 1 ≤ x ∧ x ≤ n then some (paidShare x) else none := by
  induction n with
  | zero =>
    rw [if_neg (by omega)]
    rfl
  | succ n ih =>
    have hadd : (paidForest (n + 1)).shares =
        (paidForest n).shares.insert (n + 1) (paidShare (n + 1)) := rfl
    rw [hadd, lookup_insert_ite, ih]
    by_cases hx : x = n + 1
    · rw [if_pos hx, if_pos (by omega), hx]
    rw [if_neg hx]
    by_cases hle : 1 ≤ x ∧ x ≤ n
    · rw [if_pos hle, if_pos (by omega)]
    · rw [if_neg hle, if_neg (by omega)]

theorem paidForest_current {n x : Nat} (hx : 1 ≤ x) (hn : x ≤ n) :
    (paidForest n).current x = some (paidShare x) := by
  have hne : x ≠ default := Nat.one_le_iff_ne_zero.mp hx
  rw [Forest.current, if_neg hne, paidForest_lookup, if_pos ⟨hx, hn⟩]

theorem paidForest_follows (n : Nat) : Forest.Follows (fun x => x - 1) (paidForest n) := by
  intro x data hx
  rw [paidForest_lookup] at hx
  split at hx
  · cases hx
    exact ⟨rfl, rfl⟩
  · cases hx

theorem rebuildRing_paidForest {n k x : Nat} (hk : k ≤ x) (hx : x < 402) (hn : x ≤ n) :
    rebuildRing (paidForest n) k x = List.replicate k (PPLNSEntry.ofShare ordinaryShare) := by
  induction k generalizing x with
  | zero => rfl
  | succ k ih =>
    have hshare : (paidShare x).share = ordinaryShare := if_neg (by omega)
    rw [rebuildRing, paidForest_current (by omega) hn, replicate_succ]
    dsimp only
    rw [hshare]
    congr 1
    exact ih (x := x - 1) (by omega) (by omega) (by omega)

theorem rebuildRing_paidForest_donor {n k : Nat} (hk : k ≤ 401) (hn : 403 ≤ n) :
    rebuildRing (paidForest n) (k + 2) 403 = PPLNSEntry.ofShare ordinaryShare ::
      PPLNSEntry.ofShare donorShare :: List.replicate k (PPLNSEntry.ofShare ordinaryShare) := by
  have htop : (paidShare 403).index.tail = 402 := rfl
  have hnext : (paidShare 402).index.tail = 401 := rfl
  rw [rebuildRing, paidForest_current (by omega) hn]
  dsimp only
  rw [htop, rebuildRing, paidForest_current (by omega) (by omega)]
  dsimp only
  rw [hnext, rebuildRing_paidForest hk (by omega) (by omega)]
  rfl

def mixedEnv : Phase2Env Nat where
  version h := if h = 403 then 35 else 36
  draw _ := 1
  wallExceeded _ := false
  alreadyVerified _ := false
  attemptVerify _ := true
  isChallenger := false

def paidChain (n : Nat) : ShareChain Nat PayShare := ⟨paidForest n, .empty, ∅⟩

def laggingRing (k : Nat) : List PPLNSEntry :=
  PPLNSEntry.ofShare donorShare :: List.replicate k (PPLNSEntry.ofShare ordinaryShare)

theorem iterate_pred (m x : Nat) : (fun y => y - 1)^[m] x = x - m := by
  induction m generalizing x with
  | zero => rfl
  | succ m ih =>
    rw [Function.iterate_succ_apply, ih]
    omega

theorem lagging_call {n k : Nat} (hn : n = 404) (hk : k ≤ 398) :
    ⟨2, 401, laggingRing (k + 1), computeV36Weights (k + 2) (laggingRing (k + 1))⟩ ∈
      (carryForward (k + 2) mixedEnv (paidChain n) 404 3 100 0).calls := by
  have hcurrent : ∀ {x : Nat}, 1 ≤ x → x ≤ 404 →
      (paidChain n).forest.current x = some (paidShare x) := by
    intro x hx hle
    exact paidForest_current hx (by omega)
  have hdeep : (paidChain n).forest.current ((fun y => y - 1)^[k + 1] 401) =
      some (paidShare (400 - k)) := by
    rw [iterate_pred, show 401 - (k + 1) = 400 - k by omega]
    exact hcurrent (by omega) (by omega)
  have hring : rebuildRing (paidChain n).forest (k + 1 + 1) 403 =
      PPLNSEntry.ofShare ordinaryShare :: PPLNSEntry.ofShare donorShare ::
        List.replicate k (PPLNSEntry.ofShare ordinaryShare) :=
    rebuildRing_paidForest_donor (by omega) (by omega)
  have hslid : slideBackward (rebuildRing (paidChain n).forest (k + 1 + 1) 403)
      (PPLNSEntry.ofShare (paidShare (400 - k)).share) = laggingRing (k + 1) := by
    have hshare : (paidShare (400 - k)).share = ordinaryShare := if_neg (by omega)
    rw [hring, hshare, slideBackward, drop_succ_cons, drop_zero, cons_append,
      ← replicate_succ', laggingRing]
  have h403 := @hcurrent 403 (by omega) (by omega)
  have h402 := @hcurrent 402 (by omega) (by omega)
  have h401 := @hcurrent 401 (by omega) (by omega)
  have hfull : (rebuildRing (paidChain n).forest (k + 1 + 1) 403).length = k + 1 + 1 := by
    rw [hring]
    simp
  have hbelow : (rebuildRing (paidChain n).forest (k + 1) 401).length = k + 1 :=
    (congrArg List.length (rebuildRing_paidForest (by omega) (by omega) (by omega))).trans
      length_replicate
  have hcall := @interrupted_call Nat _ _ (fun y => y - 1) (k + 1) mixedEnv (paidChain n)
    (paidForest_follows n) LazySkipList.TableOk.empty 404 (paidShare 404) (paidShare 403)
    (paidShare 402) (paidShare (400 - k)) (hcurrent (by omega) (by omega)) h403 h402
    (Option.isSome_of_mem h401) hdeep hfull hbelow (by decide) (by decide) (by decide)
    (fun _ => rfl) (fun _ => rfl) 100 (by decide) 0
  rw [show (paidShare 404).index.tail = 403 from rfl, hslid] at hcall
  exact hcall

/-- With the window of the test network, the call for share 401 passes the donation of share 402,
which the window of share 401 does not hold. -/
theorem interrupted_walk_misprimes :
    Forest.Follows (fun x => x - 1) (paidForest 404) ∧
      ringTotal (decayTable 400) 0 (rebuildRing (paidForest 404) 400 401) <
        DecayTracker.unlimited.toNat ∧
      ∃ call ∈ (carryForward 400 mixedEnv (paidChain 404) 404 3 100 0).calls, call.start = 401 ∧
        call.ring ≠ rebuildRing (paidForest 404) 400 401 ∧
        call.weights ≠ freshWeights 400 (paidForest 404) 401 400 DecayTracker.unlimited := by
  have hwindow := @rebuildRing_paidForest 404 400 401 (by omega) (by omega) (by omega)
  have htotal : ringTotal (decayTable 400) 0
      (List.replicate 400 (PPLNSEntry.ofShare ordinaryShare)) < DecayTracker.unlimited.toNat := by
    decide +kernel
  have hdonation : (computeV36Weights 400 (laggingRing 399)).totalDonationWeight ≠
      (computeV36Weights 400
        (List.replicate 400 (PPLNSEntry.ofShare ordinaryShare))).totalDonationWeight := by
    decide +kernel
  have hbounded := lt_of_eq_of_lt (congrArg (ringTotal (decayTable 400) 0) hwindow) htotal
  have hfresh := computeV36Weights_rebuildRing (paidForest 404) 400 401 hbounded
  have hcall : (⟨2, 401, laggingRing 399, computeV36Weights 400 (laggingRing 399)⟩ :
      PrimeCall Nat) ∈ (carryForward 400 mixedEnv (paidChain 404) 404 3 100 0).calls :=
    @lagging_call 404 398 rfl (by omega)
  refine ⟨paidForest_follows 404, hbounded, _, hcall, rfl, ?_, ?_⟩
  · rw [hwindow]
    intro heq
    exact hdonation (congrArg (fun ring => (computeV36Weights 400 ring).totalDonationWeight) heq)
  intro heq
  have hsame := congrArg CumulativeWeightsResult.totalDonationWeight (heq.trans hfresh.symm)
  rw [hwindow] at hsame
  exact hdonation hsame

/-- Four shares of version 36 under a window of two: both calls pass their windows and the weights
of a fresh walk. -/
theorem uninterrupted_walk_primes :
    let env : Phase2Env Nat := { mixedEnv with version := fun _ => 36 }
    let calls := (carryForward 2 env (paidChain 4) 4 2 100 0).calls
    calls.map PrimeCall.start = [3, 2] ∧
      ∀ call ∈ calls, call.ring = rebuildRing (paidForest 4) 2 call.start ∧
        call.weights = freshWeights 2 (paidForest 4) call.start 2 DecayTracker.unlimited := by
  intro env calls
  have hstarts : calls.map PrimeCall.start = [3, 2] := by decide +kernel
  have htotal : ringTotal (decayTable 2) 0
      (List.replicate 2 (PPLNSEntry.ofShare ordinaryShare)) < DecayTracker.unlimited.toNat := by
    decide +kernel
  refine ⟨hstarts, ?_⟩
  intro call hcall
  have hstart : 2 ≤ call.start ∧ call.start ≤ 3 := by
    have hmem : call.start ∈ calls.map PrimeCall.start := mem_map_of_mem hcall
    rw [hstarts] at hmem
    simp at hmem
    omega
  have hwalk : Uninterrupted env.version
      ((Tracker.chainHashes (paidChain 4).forest 2 4).take call.share) :=
    pairwise_of_forall fun _ _ h => h
  have hskips : (paidChain 4).skipList.Truthful fun x => x - 1 := LazySkipList.TableOk.empty
  obtain ⟨hring, hweights⟩ := primed_weights_fresh (paidForest_follows 4) hskips (by decide) env 4 2
    100 0 call hcall hwalk
  refine ⟨hring, hweights ?_⟩
  change ringTotal (decayTable 2) 0 (rebuildRing (paidForest 4) 2 call.start) < _
  rw [rebuildRing_paidForest hstart.1 (by omega) (by omega)]
  exact htotal

end C2Pool.Ltc
