import C2Pool.Ltc.PplnsRing
import Mathlib.Data.List.Iterate
import Mathlib.Data.List.GetD

/-! # The carried window against a fresh walk

As long as the walk has met no older share below one of version 36, the ring holds exactly the
shares that a walk from the previous hash meets, and its weights are those of the walk. An older
share in between is walked without a slide, and from there on the ring lags behind.
-/

namespace C2Pool.Ltc

open List Sharechain FiniteMap Function

variable {H : Type} [DecidableEq H] [Inhabited H] {data : ChainData H PayShare}

/-! ## The window -/

theorem current_eq_some {c : Forest H PayShare} {x : H}
    (h : c.current x = some data) : x ≠ default ∧ c.shares.lookup x = some data := by
  unfold Forest.current at h
  split at h
  · cases h
  · rename_i hx
    exact ⟨hx, h⟩

section Window

variable {c : Forest H PayShare} {prev : H → H} {x : H}

theorem length_rebuildRing_le (n : Nat) (x : H) : (rebuildRing c n x).length ≤ n := by
  induction n generalizing x with
  | zero => simp [rebuildRing]
  | succ n ih =>
    unfold rebuildRing
    cases hx : c.current x with
    | none => simp
    | some data => simpa using ih data.index.tail

theorem held_of_lt_length (hc : Forest.Follows prev c) {n i : Nat}
    (hi : i < (rebuildRing c n x).length) :
    prev^[i] x ≠ default ∧ ShareChain.previous c (prev^[i] x) = prev (prev^[i] x) := by
  induction n generalizing x i with
  | zero => simp [rebuildRing] at hi
  | succ n ih =>
    unfold rebuildRing at hi
    cases hx : c.current x with
    | none => simp [hx] at hi
    | some data =>
      obtain ⟨hnull, hlookup⟩ := current_eq_some hx
      simp only [hx, length_cons] at hi
      cases i with
      | zero => exact ⟨hnull, hc.previous_eq (Finmap.mem_of_lookup_eq_some hlookup)⟩
      | succ i =>
        rw [iterate_succ_apply, ← (hc x data hlookup).2]
        exact ih (by omega)

theorem current_of_length_lt (hc : Forest.Follows prev c) {n : Nat}
    (hn : (rebuildRing c n x).length < n) :
    c.current (prev^[(rebuildRing c n x).length] x) = none := by
  induction n generalizing x with
  | zero => omega
  | succ n ih =>
    unfold rebuildRing at hn ⊢
    cases hx : c.current x with
    | none => simpa using hx
    | some data =>
      obtain ⟨-, hlookup⟩ := current_eq_some hx
      simp only [hx, length_cons] at hn ⊢
      rw [iterate_succ_apply, ← (hc x data hlookup).2]
      exact ih (by omega)

theorem rebuildRing_succ (hc : Forest.Follows prev c) {n : Nat}
    (hn : (rebuildRing c n x).length = n) (hdeep : c.current (prev^[n] x) = some data) :
    rebuildRing c (n + 1) x = rebuildRing c n x ++ [PPLNSEntry.ofShare data.share] := by
  induction n generalizing x with
  | zero =>
    rw [iterate_zero, id] at hdeep
    simp [rebuildRing, hdeep]
  | succ n ih =>
    unfold rebuildRing at hn
    rw [rebuildRing]
    rw [rebuildRing]
    cases hx : c.current x with
    | none => simp [hx] at hn
    | some held =>
      obtain ⟨-, hlookup⟩ := current_eq_some hx
      simp only [hx, length_cons] at hn ⊢
      rw [iterate_succ_apply, ← (hc x held hlookup).2] at hdeep
      rw [ih (by omega) hdeep]
      rfl

theorem slideBackward_eq (hc : Forest.Follows prev c) {n : Nat}
    {data deep : ChainData H PayShare} (hx : c.current x = some data)
    (hdeep : c.current (prev^[(rebuildRing c (n + 1) x).length - 1] data.index.tail) = some deep) :
    slideBackward (rebuildRing c (n + 1) x) (PPLNSEntry.ofShare deep.share) =
      rebuildRing c (n + 1) data.index.tail := by
  have hring : rebuildRing c (n + 1) x =
      PPLNSEntry.ofShare data.share :: rebuildRing c n data.index.tail := by
    rw [rebuildRing, hx]
  rw [hring, length_cons, Nat.add_sub_cancel] at hdeep
  have hfull : (rebuildRing c n data.index.tail).length = n := by
    by_contra hne
    have hshort : (rebuildRing c n data.index.tail).length < n :=
      Nat.lt_of_le_of_ne (length_rebuildRing_le n _) hne
    rw [current_of_length_lt hc hshort] at hdeep
    cases hdeep
  rw [hfull] at hdeep
  rw [hring, rebuildRing_succ hc hfull hdeep]
  rfl

end Window

theorem getD_decayTable {chainLength d : Nat} (hd : d < chainLength) :
    (decayTable chainLength).getD d 0 =
      (fun decay => mul128Shift decay (decayPer chainLength) 40)^[d] decayScale := by
  unfold decayTable
  rw [getD_eq_getElem _ _ (by rwa [length_iterate]), getElem_iterate]

def entryWeight (decay : Nat) (e : PPLNSEntry) : UInt288 :=
  let decayedAtt := (e.att * BitVec.ofNat 288 decay) >>> 40
  decayedAtt * (65535 - e.donation.setWidth 288) + decayedAtt * e.donation.setWidth 288

/-- The total weight of the entries from depth `d` on, as a number. -/
def ringTotal (table : List Nat) : Nat → List PPLNSEntry → Nat
  | _, [] => 0
  | d, e :: entries => (entryWeight (table.getD d 0) e).toNat + ringTotal table (d + 1) entries

theorem weighFrom_eq_decayedWalk {chainLength : Nat} (c : Forest H PayShare) {n d : Nat} {cur : H}
    (hd : d + n ≤ chainLength) {acc : DecayAcc}
    (hdecay : acc.decay = (fun decay => mul128Shift decay (decayPer chainLength) 40)^[d] decayScale)
    (htotal : acc.result.totalWeight.toNat +
      ringTotal (decayTable chainLength) d (rebuildRing c n cur) < DecayTracker.unlimited.toNat) :
    weighFrom (decayTable chainLength) d (rebuildRing c n cur) acc.result =
      decayedWalk chainLength c DecayTracker.unlimited n cur acc := by
  induction n generalizing d cur acc with
  | zero => rfl
  | succ n ih =>
    unfold rebuildRing at htotal ⊢
    unfold decayedWalk
    cases hcur : c.current cur with
    | none => rfl
    | some data =>
      have hfactor : (decayTable chainLength).getD d 0 = acc.decay := by
        rw [hdecay, getD_decayTable (by omega)]
      simp only [hcur, ringTotal, hfactor] at htotal
      -- the walk stays below the limit at this share, so it neither scales nor stops
      have hsum : (acc.result.totalWeight +
          entryWeight acc.decay (PPLNSEntry.ofShare data.share)).toNat =
          acc.result.totalWeight.toNat +
            (entryWeight acc.decay (PPLNSEntry.ofShare data.share)).toNat := by
        rw [BitVec.toNat_add, Nat.mod_eq_of_lt (by omega)]
      have hweigh : acc.weigh DecayTracker.unlimited data.share =
          weighEntry acc.decay acc.result (PPLNSEntry.ofShare data.share) := by
        unfold DecayAcc.weigh
        rw [if_neg]
        · rfl
        rw [BitVec.lt_def]
        change ¬ DecayTracker.unlimited.toNat < (acc.result.totalWeight +
          entryWeight acc.decay (PPLNSEntry.ofShare data.share)).toNat
        omega
      have hnext : (weighEntry acc.decay acc.result (PPLNSEntry.ofShare data.share)).totalWeight =
          acc.result.totalWeight + entryWeight acc.decay (PPLNSEntry.ofShare data.share) := rfl
      simp only [weighFrom, hfactor, hweigh]
      rw [if_neg]
      · refine @ih (d + 1) data.index.tail (by omega)
          ⟨weighEntry acc.decay acc.result (PPLNSEntry.ofShare data.share),
            mul128Shift acc.decay (decayPer chainLength) 40⟩ ?_ ?_
        · rw [iterate_succ_apply', ← hdecay]
        · rw [hnext, hsum]
          omega
      · rw [hnext, BitVec.le_def, hsum]
        omega

theorem computeV36Weights_rebuildRing (c : Forest H PayShare) (chainLength : Nat) (start : H)
    (htotal : ringTotal (decayTable chainLength) 0 (rebuildRing c chainLength start) <
      DecayTracker.unlimited.toNat) :
    computeV36Weights chainLength (rebuildRing c chainLength start) =
      freshWeights chainLength c start chainLength DecayTracker.unlimited := by
  apply @weighFrom_eq_decayedWalk _ _ _ _ c chainLength 0 start (by omega) .initial rfl
  simpa [DecayAcc.initial] using htotal

/-! ## The walk of phase 2 -/

def Uninterrupted (version : H → Nat) (walked : List H) : Prop :=
  walked.Pairwise fun a b => 36 ≤ version a → 36 ≤ version b

section Run

variable (chainLength : Nat) (env : Phase2Env H) (prev : H → H) (c : Forest H PayShare)

/-- A call made before the walk was interrupted is right. -/
structure CallRight (all : List H) (call : PrimeCall H) : Prop where
  weights : call.weights = computeV36Weights chainLength call.ring
  ring : Uninterrupted env.version (all.take call.share) →
    call.ring = rebuildRing c chainLength call.start

/-- The state of the loop when `done` is walked and `next` comes now. -/
structure Carried (done : List H) (next : H) (p : Phase2 H) : Prop where
  forest : p.chain.forest = c
  count : p.verifiedCount = done.length
  skips : Uninterrupted env.version done → p.chain.skipList.Truthful prev
  unbuilt : (∀ h ∈ done, env.version h < 36) → p.ring = none
  built : Uninterrupted env.version done → (∃ h ∈ done, 36 ≤ env.version h) →
    p.ring = some (rebuildRing c chainLength next)

end Run

section Run

variable {n : Nat} {env : Phase2Env H} {prev : H → H} {c : Forest H PayShare} {done : List H}
  {hash : H} {p : Phase2 H} {call : PrimeCall H}

theorem getNthParentViaSkip_eq (hc : Forest.Follows prev c) {chain : ShareChain H PayShare}
    (hforest : chain.forest = c) (hskips : chain.skipList.Truthful prev) (draw : H → Nat) (m : Nat)
    (x : H) :
    (chain.getNthParentViaSkip draw x (rebuildRing c m x).length).1 =
        prev^[(rebuildRing c m x).length] x ∧
      (chain.getNthParentViaSkip draw x (rebuildRing c m x).length).2.forest = c ∧
      (chain.getNthParentViaSkip draw x (rebuildRing c m x).length).2.skipList.Truthful prev := by
  subst hforest
  have hspec := hskips.getNthParent_spec draw
    fun i (hi : i < (rebuildRing chain.forest m x).length) => held_of_lt_length hc hi
  exact ⟨hspec.1, rfl, hspec.2⟩

theorem moveRing_eq {data : ChainData H PayShare} (hc : Forest.Follows prev c)
    (h : Carried (n + 1) env prev c done hash p) (hhash : c.current hash = some data)
    (hdone : Uninterrupted env.version done) :
    (moveRing (n + 1) env p data.index.tail).ring = some (rebuildRing c (n + 1) data.index.tail) ∧
      (moveRing (n + 1) env p data.index.tail).chain.skipList.Truthful prev := by
  by_cases hfirst : ∀ h ∈ done, env.version h < 36
  · have hnone := h.unbuilt hfirst
    unfold moveRing
    rw [hnone, h.forest]
    exact ⟨rfl, h.skips hdone⟩
  push Not at hfirst
  have hring := h.built hdone hfirst
  have hlength : (rebuildRing c (n + 1) hash).length =
      (rebuildRing c n data.index.tail).length + 1 := by
    rw [rebuildRing, hhash, length_cons]
  have hle := @length_rebuildRing_le _ _ _ c n data.index.tail
  have hsteps : min ((rebuildRing c (n + 1) hash).length - 1) (n + 1 - 1) =
      (rebuildRing c n data.index.tail).length := by omega
  have hlookup := getNthParentViaSkip_eq hc h.forest (h.skips hdone) env.draw n data.index.tail
  unfold moveRing
  simp only [hring]
  rw [if_neg (by omega), hsteps]
  generalize hout : p.chain.getNthParentViaSkip env.draw data.index.tail
    (rebuildRing c n data.index.tail).length = out at hlookup
  rw [hlookup.2.1]
  cases hdeep : c.current out.1 with
  | none =>
    rw [h.forest]
    exact ⟨rfl, hlookup.2.2⟩
  | some deep =>
    refine ⟨?_, hlookup.2.2⟩
    rw [hlookup.1] at hdeep
    have hslide := @slideBackward_eq _ _ _ c prev hash hc n data deep hhash (by
      rw [hlength, Nat.add_sub_cancel]
      exact hdeep)
    exact congrArg some hslide

theorem moveRing_frame (chainLength : Nat) (env : Phase2Env H) (p : Phase2 H) (prevHash : H) :
    (moveRing chainLength env p prevHash).chain.forest = p.chain.forest ∧
      (moveRing chainLength env p prevHash).calls = p.calls ∧
      (moveRing chainLength env p prevHash).verifiedCount = p.verifiedCount := by
  unfold moveRing
  cases hring : p.ring with
  | none => exact ⟨rfl, rfl, rfl⟩
  | some entries =>
    dsimp only
    split
    · exact ⟨rfl, rfl, rfl⟩
    · split <;> exact ⟨rfl, rfl, rfl⟩

omit [DecidableEq H] [Inhabited H] in
theorem primeFromRing_frame (chainLength : Nat) (p : Phase2 H) (prevHash : H) :
    (primeFromRing chainLength p prevHash).chain = p.chain ∧
      (primeFromRing chainLength p prevHash).ring = p.ring ∧
      (primeFromRing chainLength p prevHash).verifiedCount = p.verifiedCount := by
  unfold primeFromRing
  split
  · rename_i hring
    exact ⟨rfl, hring.symm ▸ rfl, rfl⟩
  · exact ⟨rfl, rfl, rfl⟩

omit [DecidableEq H] [Inhabited H] in
theorem mem_calls_primeFromRing {chainLength : Nat} {prevHash : H}
    (hcall : call ∈ (primeFromRing chainLength p prevHash).calls) :
    call ∈ p.calls ∨ call.share = p.verifiedCount ∧ call.start = prevHash ∧
      p.ring = some call.ring ∧ call.weights = computeV36Weights chainLength call.ring := by
  unfold primeFromRing at hcall
  split at hcall
  · rename_i hring
    rcases mem_append.mp hcall with hold | hnew
    · exact .inl hold
    rw [mem_singleton] at hnew
    subst hnew
    exact .inr ⟨rfl, rfl, hring, rfl⟩
  · exact .inl hcall

omit [DecidableEq H] [Inhabited H] in
theorem spend_frame (env : Phase2Env H) (p : Phase2 H) (hash : H) :
    (spend env p hash).chain = p.chain ∧ (spend env p hash).ring = p.ring ∧
      (spend env p hash).calls = p.calls ∧
      (spend env p hash).verifiedCount = p.verifiedCount + 1 := by
  unfold spend
  dsimp only
  split
  · exact ⟨rfl, rfl, rfl, rfl⟩
  split
  · exact ⟨rfl, rfl, rfl, rfl⟩
  · split <;> exact ⟨rfl, rfl, rfl, rfl⟩

theorem Carried.step {data : ChainData H PayShare} (hc : Forest.Follows prev c)
    (h : Carried (n + 1) env prev c done hash p) (hhash : c.current hash = some data)
    (htail : (c.current data.index.tail).isSome) :
    Carried (n + 1) env prev c (done ++ [hash]) data.index.tail
      (spend env (primeShare (n + 1) env p hash data) hash) := by
  obtain ⟨hchain, hring, -, hcount⟩ := spend_frame env (primeShare (n + 1) env p hash data) hash
  by_cases hversion : 36 ≤ env.version hash
  · have hprime : primeShare (n + 1) env p hash data =
        primeFromRing (n + 1) (moveRing (n + 1) env p data.index.tail) data.index.tail := by
      unfold primeShare
      rw [h.forest]
      exact if_pos ⟨hversion, htail⟩
    have hmove := moveRing_frame (n + 1) env p data.index.tail
    have hcall := primeFromRing_frame (n + 1) (moveRing (n + 1) env p data.index.tail)
      data.index.tail
    rw [hprime] at hchain hring hcount ⊢
    constructor
    · rw [hchain, hcall.1, hmove.1, h.forest]
    · rw [hcount, hcall.2.2, hmove.2.2, h.count, length_append]
      rfl
    · intro hdone
      rw [hchain, hcall.1]
      exact (moveRing_eq hc h hhash (pairwise_append.mp hdone).1).2
    · intro hold
      have := hold hash (mem_append_right done mem_cons_self)
      omega
    · intro hdone _
      rw [hring, hcall.2.1]
      exact (moveRing_eq hc h hhash (pairwise_append.mp hdone).1).1
  have hprime : primeShare (n + 1) env p hash data = p := if_neg fun hboth => hversion hboth.1
  rw [hprime] at hchain hring hcount ⊢
  constructor
  · rw [hchain, h.forest]
  · rw [hcount, h.count, length_append]
    rfl
  · intro hdone
    rw [hchain]
    exact h.skips (pairwise_append.mp hdone).1
  · intro hold
    rw [hring]
    exact h.unbuilt fun x hx => hold x (mem_append_left [hash] hx)
  · intro hdone hnew
    -- nothing walked so far is of version 36, or the walk would be interrupted here
    obtain ⟨x, hx, hx36⟩ := hnew
    exfalso
    rcases mem_append.mp hx with hx | hx
    · exact hversion ((pairwise_append.mp hdone).2.2 x hx hash mem_cons_self hx36)
    · rw [mem_singleton.mp hx] at hx36
      exact hversion hx36

theorem callRight_primeShare {data : ChainData H PayShare} (hc : Forest.Follows prev c)
    {rest : List H} (h : Carried (n + 1) env prev c done hash p)
    (hhash : c.current hash = some data)
    (hcalls : ∀ call ∈ p.calls, CallRight (n + 1) env c (done ++ hash :: rest) call)
    (hcall : call ∈ (primeShare (n + 1) env p hash data).calls) :
    CallRight (n + 1) env c (done ++ hash :: rest) call := by
  unfold primeShare at hcall
  dsimp only at hcall
  split at hcall
  · have hmove := moveRing_frame (n + 1) env p data.index.tail
    rcases mem_calls_primeFromRing hcall with hold | ⟨hshare, hstart, hring, hweights⟩
    · rw [hmove.2.1] at hold
      exact hcalls call hold
    refine ⟨hweights, ?_⟩
    rw [hshare, hmove.2.2, h.count, take_left]
    intro hdone
    rw [(moveRing_eq hc h hhash hdone).1] at hring
    rw [hstart]
    exact (Option.some.inj hring).symm
  · exact hcalls call hcall

theorem callRight_verifyLoop (hc : Forest.Follows prev c) {m : Nat}
    (h : Carried (n + 1) env prev c done hash p)
    (hcalls : ∀ call ∈ p.calls,
      CallRight (n + 1) env c (done ++ Tracker.chainHashes c m hash) call) :
    ∀ call ∈ (verifyLoop (n + 1) env (Tracker.chainHashes c m hash) p).calls,
      CallRight (n + 1) env c (done ++ Tracker.chainHashes c m hash) call := by
  induction m generalizing done hash p with
  | zero => exact hcalls
  | succ m ih =>
    unfold Tracker.chainHashes at hcalls ⊢
    cases hhash : c.current hash with
    | none =>
      rw [hhash] at hcalls
      exact hcalls
    | some data =>
      rw [hhash] at hcalls
      have hlookup : p.chain.forest.shares.lookup hash = some data := by
        rw [h.forest]
        exact (current_eq_some hhash).2
      have hprime : ∀ call ∈ (primeShare (n + 1) env p hash data).calls, CallRight (n + 1) env c
          (done ++ hash :: Tracker.chainHashes c m data.index.tail) call :=
        fun _ hcall => callRight_primeShare hc h hhash hcalls hcall
      unfold verifyLoop
      simp only [hlookup]
      split
      · exact hcalls
      split
      · exact hcalls
      split
      · have hspend := spend_frame env (primeShare (n + 1) env p hash data) hash
        cases htail : c.current data.index.tail with
        | none =>
          have hend : Tracker.chainHashes c m data.index.tail = [] := by
            cases m with
            | zero => rfl
            | succ m => rw [Tracker.chainHashes, htail]
          rw [hend] at hprime ⊢
          intro call hcall
          rw [verifyLoop, hspend.2.2.1] at hcall
          exact hprime call hcall
        | some tail =>
          have hnext := h.step hc hhash (by rw [htail]; rfl)
          have hsplit : done ++ hash :: Tracker.chainHashes c m data.index.tail =
              (done ++ [hash]) ++ Tracker.chainHashes c m data.index.tail := by simp
          rw [hsplit] at hprime ⊢
          apply ih hnext
          intro call hcall
          rw [hspend.2.2.1] at hcall
          exact hprime call hcall
      · exact hprime

/-- Every call of `prime_pplns_cache` made while the walk is uninterrupted passes the window of the
previous hash and, below the limit at which a walk stops, its freshly walked weights. -/
theorem primed_weights_fresh {chain : ShareChain H PayShare} (hc : Forest.Follows prev chain.forest)
    (hskips : chain.skipList.Truthful prev) {chainLength : Nat} (hlength : 0 < chainLength)
    (env : Phase2Env H) (lastHash : H) (toGet budget elevated : Nat) :
    ∀ call ∈ (carryForward chainLength env chain lastHash toGet budget elevated).calls,
      Uninterrupted env.version
          ((Tracker.chainHashes chain.forest toGet lastHash).take call.share) →
        call.ring = rebuildRing chain.forest chainLength call.start ∧
          (ringTotal (decayTable chainLength) 0 (rebuildRing chain.forest chainLength call.start) <
              DecayTracker.unlimited.toNat →
            call.weights = freshWeights chainLength chain.forest call.start chainLength
              DecayTracker.unlimited) := by
  obtain ⟨n, rfl⟩ : ∃ n, chainLength = n + 1 := ⟨chainLength - 1, by omega⟩
  intro call hcall hwalk
  have hstart : Carried (n + 1) env prev chain.forest [] lastHash
      ⟨chain, none, [], 0, budget, elevated⟩ := by
    refine ⟨rfl, rfl, fun _ => hskips, fun _ => rfl, ?_⟩
    intro _ hnew
    obtain ⟨h, hh, -⟩ := hnew
    cases hh
  have hright := callRight_verifyLoop hc hstart (m := toGet) (by
    intro call hcall
    cases hcall) call hcall
  have hring := hright.ring hwalk
  refine ⟨hring, ?_⟩
  intro htotal
  rw [hright.weights, hring]
  exact computeV36Weights_rebuildRing chain.forest (n + 1) call.start htotal

end Run

end C2Pool.Ltc
