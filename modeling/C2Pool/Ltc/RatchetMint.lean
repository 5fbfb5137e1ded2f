import C2Pool.Ltc.RatchetGates

/-! # Boundary shares of the ratchet

Runs of a ratchet over calls of `get_share_version` and restarts.  A minted boundary
share passes `share_check` along a run exactly when the mint gate covers the accept
gate at each of its calls.
-/

namespace C2Pool.Ltc

open Sharechain Forest ParentForest

variable {H : Type} [DecidableEq H] [Inhabited H] {c : Forest H VoteShare} {best : H}
  {chainLength : Nat}

/-- What happens to a ratchet: a call on the best share of a tracker, or a restart. -/
inductive RatchetOp (H : Type) where
  | call (c : Forest H VoteShare) (best : H) (now : Int)
  | restart

def RatchetNode.step (chainLength : Nat) (n : RatchetNode) : RatchetOp H → RatchetNode
  | .call c best now =>
    match getShareVersion chainLength now n c best with
    | .ok out => out.2
    | .error _ => n
  | .restart => n.restart

/-- `P` holds at every call of a run, of the ratchet before it. -/
def AtCalls (chainLength : Nat) (P : RatchetNode → Forest H VoteShare → H → Int → Prop) :
    RatchetNode → List (RatchetOp H) → Prop
  | _, [] => True
  | n, .call c best now :: ops =>
    P n c best now ∧ AtCalls chainLength P (n.step chainLength (.call c best now)) ops
  | n, .restart :: ops => AtCalls chainLength P n.restart ops

theorem atCalls_congr {chainLength : Nat} {P Q : RatchetNode → Forest H VoteShare → H → Int → Prop}
    {ops : List (RatchetOp H)}
    (h : ∀ n c best now, RatchetOp.call c best now ∈ ops → (P n c best now ↔ Q n c best now))
    (n : RatchetNode) : AtCalls chainLength P n ops ↔ AtCalls chainLength Q n ops := by
  induction ops generalizing n with
  | nil => exact Iff.rfl
  | cons op ops ih =>
    have hrest := ih fun n c best now hmem => h n c best now (List.mem_cons_of_mem _ hmem)
    cases op with
    | call c best now => exact and_congr (h n c best now (by simp)) (hrest _)
    | restart => exact hrest _

/-- If the call mints the target version on a held best share of the version below, the
minted share passes the version switch of `share_check`. -/
def MintedPasses (chainLength : Nat) (n : RatchetNode) (c : Forest H VoteShare) (best : H)
    (now : Int) : Prop :=
  ∀ data, c.shares.lookup best = some data → data.share.version = n.ratchet.targetVersion - 1 →
    ∀ out, getShareVersion chainLength now n c best = .ok out →
      out.1.1 = n.ratchet.targetVersion →
        checkVersionSwitch c chainLength best n.ratchet.targetVersion = .ok ()

/-- On a held best share of the version below the target, the mint gate covers the accept
gate. -/
def CoveredCall (chainLength : Nat) (n : RatchetNode) (c : Forest H VoteShare) (best : H)
    (_now : Int) : Prop :=
  ∀ data, c.shares.lookup best = some data → data.share.version = n.ratchet.targetVersion - 1 →
    Covers chainLength n.ratchet c best

theorem mintedPasses_iff {c : Forest H VoteShare} {chainLength : Nat} (hnull : c.NullFree)
    (hlength : 1 ≤ chainLength) (n : RatchetNode) (best : H) (now : Int) :
    MintedPasses chainLength n c best now ↔ CoveredCall chainLength n c best now := by
  refine forall_congr' fun data => forall_congr' fun hdata => forall_congr' fun hversion => ?_
  obtain ⟨out, hout, hmints⟩ := getShareVersion_mints hnull hlength hdata n now
  rw [covers_iff, checkVersionSwitch_next hnull hdata hversion, ← hmints]
  constructor
  · intro h hminted
    exact h out hout hminted
  intro h out' hout' hminted
  rw [hout] at hout'
  cases hout'
  exact h hminted

/-- Along every run of a fresh ratchet, every minted boundary share passes exactly when the
mint gate covers the accept gate at every call. -/
theorem minted_boundary_passes_iff {chainLength : Nat} (hlength : 10 ≤ chainLength)
    (stateFile : Bool) (target : Int) (ops : List (RatchetOp H))
    (hforests : ∀ c best now, RatchetOp.call c best now ∈ ops → c.Consistent) :
    AtCalls chainLength (MintedPasses chainLength)
        { ratchet := { stateFile := stateFile, targetVersion := target } } ops ↔
      AtCalls chainLength (CoveredCall chainLength)
        { ratchet := { stateFile := stateFile, targetVersion := target } } ops :=
  atCalls_congr (fun n c best now hmem =>
    mintedPasses_iff (hforests c best now hmem).nullFree (by omega) n best now) _

/-- A version 35 share that desires `desired`; every other one was minted here. -/
def voter (desired : BitVec 64) (i : Nat) : VoteShare :=
  { version := 35, desiredVersion := desired
    peerAddr := if i % 2 = 0 then {} else { ip := "192.0.2.1", port := 9 } }

/-- The chain `n -> … -> 1` of such shares. -/
def voteChain (desired : BitVec 64) : Nat → Forest Nat VoteShare
  | 0 => .empty
  | n + 1 => (voteChain desired n).add ⟨⟨n + 1, n, 2, 2⟩, voter desired (n + 1)⟩

theorem voteChain_parent (desired : BitVec 64) (n x : Nat) :
    (voteChain desired n).parent x = if 1 ≤ x ∧ x ≤ n then some (x - 1) else none := by
  induction n with
  | zero =>
    rw [if_neg (by omega)]
    simp [voteChain, Forest.empty, Forest.parent]
  | succ n ih =>
    unfold voteChain
    rw [parent_add]
    by_cases hx : x = n + 1
    · subst hx
      simp
    rw [extend_of_ne hx, ih]
    by_cases hle : 1 ≤ x ∧ x ≤ n
    · rw [if_pos hle, if_pos (by omega)]
    · rw [if_neg hle, if_neg (by omega)]

theorem voteChain_acyclic (desired : BitVec 64) (n : Nat) :
    Acyclic (voteChain desired n).parent := by
  apply acyclic_of_rank id
  intro x y hxy
  rw [voteChain_parent] at hxy
  split at hxy
  · cases hxy
    simp only [id]
    omega
  · cases hxy

theorem voteChain_consistent (desired : BitVec 64) {n : Nat} (hn : n ≤ 100000) :
    (voteChain desired n).Consistent ∧ (voteChain desired n).size ≤ n := by
  induction n with
  | zero => exact ⟨empty_consistent, by simp [voteChain, Forest.empty, Forest.size]⟩
  | succ n ih =>
    obtain ⟨hc, hsize⟩ := ih (by omega)
    have hnew : n + 1 ∉ (voteChain desired n).shares := by
      rw [← parent_eq_none_iff, voteChain_parent, if_neg (by omega)]
    unfold voteChain
    refine ⟨hc.add (shallow_of_size_le hc.acyclic (by omega)) (Nat.succ_ne_zero n) hnew ?_, ?_⟩
    · rw [← parent_add]
      exact voteChain_acyclic desired (n + 1)
    · rw [size_add hnew]
      omega

/-- The ratchet counts votes for version 37 as votes for 36: it mints a 36 share on a
chain whose tail does not ask for 36 at all. -/
theorem minted_boundary_rejected :
    (voteChain 37 10).Consistent ∧
      ((voteChain 37 10).shares.lookup 10).map (fun data => data.share.version) = some 35 ∧
      (getShareVersion 10 0 { ratchet := { stateFile := true, targetVersion := 36 } }
        (voteChain 37 10) 10).map Prod.fst = .ok (36, 36) ∧
      checkVersionSwitch (voteChain 37 10) 10 10 36 =
        .error "switch without enough hash power upgraded" := by
  refine ⟨(voteChain_consistent 37 (by decide)).1, ?_, ?_, ?_⟩ <;> decide +kernel

/-- On a chain that asks for 36 the first call mints a 36 share, which passes; so does the
share after a restart. -/
theorem minted_boundary_passes_once :
    AtCalls 10 (MintedPasses 10) { ratchet := { stateFile := true, targetVersion := 36 } }
      [RatchetOp.call (voteChain 36 10) 10 0, .restart, .call (voteChain 36 10) 10 1] := by
  have hcovered : ∀ (n : RatchetNode) (now : Int), n.ratchet.targetVersion = 36 →
      CoveredCall 10 n (voteChain 36 10) 10 now := by
    intro n now htarget data _ _
    refine covers_of_accepts (by decide +kernel) ?_
    rw [htarget]
    exact ⟨[(36, 2#288)], by decide +kernel, by decide +kernel⟩
  refine (@minted_boundary_passes_iff Nat _ _ 10 (by decide) true 36 _ ?_).mpr ?_
  · intro c best now hmem
    have hc : c = voteChain 36 10 := by
      simp only [List.mem_cons, RatchetOp.call.injEq, reduceCtorEq, List.not_mem_nil, or_false,
        false_or] at hmem
      exact hmem.elim (fun h => h.1) (fun h => h.1)
    rw [hc]
    exact (voteChain_consistent 36 (by decide)).1
  · exact ⟨hcovered _ _ rfl, hcovered _ _ (by decide +kernel), trivial⟩

/-! ## What the confirmations count -/

/-- The newest `n` shares of the chain below `best`. -/
def newestShares (c : Forest H VoteShare) (best : H) (n : Nat) : Finset H :=
  (Finset.range n).image fun i => (c.getNthParentKey i best).getD default

/-- Since the last activation: its credit, the shares that were on its chain, and those that were
on the chain of any best share. -/
structure Growth (H : Type) where
  credit : Nat := 0
  start : Finset H := ∅
  seen : Finset H := ∅

def Growth.credited (g : Growth H) : Nat := g.credit + (g.seen \ g.start).card

def Growth.track (chainLength : Nat) (n : RatchetNode) (g : Growth H) : RatchetOp H → Growth H
  | .call c best now =>
    let chain := newestShares c best (c.getHeight best)
    if n.ratchet.state = .voting ∧
        (n.step chainLength (.call c best now)).ratchet.state ≠ .voting then
      { credit := c.getHeight best - chainLength, start := chain, seen := chain }
    else { g with seen := g.seen ∪ chain }
  | .restart => g

def growthRun (chainLength : Nat) :
    RatchetNode × Growth H → List (RatchetOp H) → RatchetNode × Growth H
  | s, [] => s
  | s, op :: ops =>
    growthRun chainLength (s.1.step chainLength op, s.2.track chainLength s.1 op) ops

def CountsNew (r : AutoRatchet) (g : Growth H) : RatchetOp H → Prop
  | .call c best _ =>
    r.state = .activated → 0 < r.lastSeenHeight → r.lastSeenHeight < c.getHeight best →
      Disjoint (newestShares c best (c.getHeight best - r.lastSeenHeight.toNat)) g.seen
  | .restart => True

def AlwaysCountsNew (chainLength : Nat) : RatchetNode × Growth H → List (RatchetOp H) → Prop
  | _, [] => True
  | s, op :: ops => CountsNew s.1.ratchet s.2 op ∧
    AlwaysCountsNew chainLength (s.1.step chainLength op, s.2.track chainLength s.1 op) ops

variable {n : RatchetNode} {g : Growth H}

theorem card_newestShares (hc : c.Consistent) {k : Nat} (hk : k ≤ c.getHeight best) :
    (newestShares c best k).card = k := by
  rw [newestShares, Finset.card_image_of_injOn, Finset.card_range]
  have hheld : ∀ i, i < k → ∃ y, ancestor c.parent i best = some y := by
    intro i hi
    rw [← getNthParentKey_eq_ancestor hc.nullFree]
    exact Option.isSome_iff_exists.mp (getNthParentKey_isSome_of_le_getHeight best (by
      show i ≤ c.getHeight best
      omega))
  intro i hi j hj heq
  obtain ⟨x, hx⟩ := hheld i (Finset.mem_range.mp hi)
  obtain ⟨y, hy⟩ := hheld j (Finset.mem_range.mp hj)
  simp only [getNthParentKey_eq_ancestor hc.nullFree, hx, hy, Option.getD_some] at heq
  rw [heq] at hx
  exact hc.acyclic.ancestor_inj hx hy

theorem newestShares_subset {k m : Nat} (hk : k ≤ m) :
    newestShares c best k ⊆ newestShares c best m :=
  Finset.image_subset_image (Finset.range_subset_range.mpr hk)

theorem stepVoting_cases (n : RatchetNode) (c : Forest H VoteShare) (best : H) (chainLength : Nat)
    (now : Int) (v : VoteCount) :
    n.stepVoting c best chainLength now v = .ok n ∨
      (∃ why, n.stepVoting c best chainLength now v = .error why) ∨
      n.stepVoting c best chainLength now v =
        .ok (n.activate chainLength now (c.getHeight best) v) := by
  unfold RatchetNode.stepVoting
  split
  · cases tailWeights c chainLength best with
    | error why => exact .inr (.inl ⟨why, rfl⟩)
    | ok weights =>
      simp only [bind, Except.bind]
      split
      · exact .inr (.inr rfl)
      · exact .inl rfl
  · exact .inl rfl

theorem step_call_cases (n : RatchetNode) (c : Forest H VoteShare) (best : H) (now : Int) :
    n.step chainLength (.call c best now) = n ∨
      (n.ratchet.state = .voting ∧ ∃ v, n.step chainLength (.call c best now) =
        n.activate chainLength now (c.getHeight best) v) ∨
      n.ratchet.state = .activated ∧ ∃ v, n.step chainLength (.call c best now) =
        n.stepActivated chainLength now (c.getHeight best) v := by
  simp only [RatchetNode.step, getShareVersion, bind, Except.bind, pure, Except.pure]
  by_cases hguard : best = default ∨ best ∉ c.shares ∨ c.getHeight best < 1
  · rw [if_pos hguard]
    exact .inl rfl
  rw [if_neg hguard]
  cases getChain c best (min (c.getHeight best) chainLength) with
  | error why => exact .inl rfl
  | ok view =>
    dsimp only
    generalize countVotes n.ratchet.targetVersion view = v
    by_cases hnone : v.total = 0
    · rw [if_pos hnone]
      exact .inl rfl
    rw [if_neg hnone]
    cases hstate : n.ratchet.state with
    | voting =>
      obtain hsame | ⟨why, herror⟩ | hleft := stepVoting_cases n c best chainLength now v
      · rw [hsame]
        exact .inl rfl
      · rw [herror]
        exact .inl rfl
      · rw [hleft]
        exact .inr (.inl ⟨rfl, v, rfl⟩)
    | activated => exact .inr (.inr ⟨rfl, v, rfl⟩)
    | confirmed =>
      dsimp only
      left
      by_cases hlow : chainLength ≤ v.total ∧ v.votePct < 50
      · rw [if_pos hlow]
      · rw [if_neg hlow]

/-- The count and the saved count are within the credited growth, and enough where they led to
CONFIRMED. -/
structure Grown (chainLength : Nat) (n : RatchetNode) (g : Growth H) : Prop where
  start_subset : g.start ⊆ g.seen
  count_le : n.ratchet.state ≠ .voting → n.ratchet.confirmCount ≤ g.credited
  confirmed : n.ratchet.state = .confirmed → chainLength * 2 ≤ n.ratchet.confirmCount
  saved : n.ratchet.stateFile = true → ∀ s, n.file = some s →
    (s.state ≠ .voting → s.confirmCount ≤ g.credited) ∧
      (s.state = .confirmed → chainLength * 2 ≤ s.confirmCount)

omit [Inhabited H] in
theorem Grown.save (hstart : g.start ⊆ g.seen)
    (hcount : n.ratchet.state ≠ .voting → n.ratchet.confirmCount ≤ g.credited)
    (hconfirmed : n.ratchet.state = .confirmed → chainLength * 2 ≤ n.ratchet.confirmCount) :
    Grown chainLength n.save g := by
  unfold RatchetNode.save
  split
  · refine ⟨hstart, hcount, hconfirmed, fun _ s hs => ?_⟩
    cases hs
    exact ⟨hcount, hconfirmed⟩
  · rename_i hfile
    exact ⟨hstart, hcount, hconfirmed, fun htrue => absurd htrue hfile⟩

omit [Inhabited H] in
theorem Grown.mono {g' : Growth H} (h : Grown chainLength n g) (hstart : g'.start ⊆ g'.seen)
    (hle : g.credited ≤ g'.credited) : Grown chainLength n g' where
  start_subset := hstart
  count_le hstate := (h.count_le hstate).trans (by exact_mod_cast hle)
  confirmed := h.confirmed
  saved hfile s hs := by
    obtain ⟨hcount, hconfirmed⟩ := h.saved hfile s hs
    exact ⟨fun hstate => (hcount hstate).trans (by exact_mod_cast hle), hconfirmed⟩

omit [Inhabited H] in
theorem Grown.restart (h : Grown chainLength n g) : Grown chainLength n.restart g := by
  unfold RatchetNode.restart
  dsimp only
  split
  · exact ⟨h.start_subset, fun hstate => absurd rfl hstate, fun hstate => (by cases hstate),
    h.saved⟩
  rename_i s hs
  by_cases hfile : n.ratchet.stateFile = true
  · rw [if_pos hfile] at hs
    obtain ⟨hcount, hconfirmed⟩ := h.saved hfile s hs
    exact ⟨h.start_subset, hcount, hconfirmed, h.saved⟩
  · rw [if_neg hfile] at hs
    cases hs

omit [Inhabited H] in
theorem grown_activate (n : RatchetNode) (now : Int) (height : Nat) (v : VoteCount)
    (chain : Finset H) :
    Grown chainLength (n.activate chainLength now height v)
      { credit := height - chainLength, start := chain, seen := chain } := by
  unfold RatchetNode.activate
  have hcredit : ((height - chainLength : Nat) : Int) ≤
      (Growth.credited (H := H)
        { credit := height - chainLength, start := chain, seen := chain } : Nat) := by
    simp [Growth.credited]
  refine Grown.save subset_rfl (fun _ => ?_) (fun hstate => ?_)
  · dsimp only
    split <;> exact hcredit
  dsimp only at hstate ⊢
  split at hstate
  · rename_i hdeep
    rw [if_pos hdeep]
    show ((chainLength * 2 : Nat) : Int) ≤ (height - chainLength : Nat)
    exact_mod_cast hdeep.1
  · cases hstate

omit [Inhabited H] in
theorem Growth.credited_le (g : Growth H) (chain : Finset H) :
    g.credited ≤ Growth.credited { g with seen := g.seen ∪ chain } :=
  Nat.add_le_add_left (Finset.card_le_card (Finset.sdiff_subset_sdiff
    Finset.subset_union_left subset_rfl)) _

omit [Inhabited H] in
theorem Growth.credited_add_card {chain new : Finset H} (hstart : g.start ⊆ g.seen)
    (hnew : Disjoint new g.seen) (hsub : new ⊆ chain) :
    g.credited + new.card ≤ Growth.credited { g with seen := g.seen ∪ chain } := by
  have hdisjoint : Disjoint (g.seen \ g.start) new := (hnew.mono_right Finset.sdiff_subset).symm
  have hunion : (g.seen \ g.start) ∪ new ⊆ (g.seen ∪ chain) \ g.start := by
    apply Finset.union_subset
    · exact Finset.sdiff_subset_sdiff Finset.subset_union_left subset_rfl
    intro x hx
    exact Finset.mem_sdiff.mpr ⟨Finset.mem_union_right _ (hsub hx),
      fun hmem => Finset.disjoint_left.mp hnew hx (hstart hmem)⟩
  have hcard := Finset.card_le_card hunion
  rw [Finset.card_union_of_disjoint hdisjoint] at hcard
  unfold credited
  dsimp only
  omega

theorem Grown.stepActivated (h : Grown chainLength n g) (hc : c.Consistent)
    (hstate : n.ratchet.state = .activated) {now : Int}
    (hnew : CountsNew n.ratchet g (.call c best now)) (v : VoteCount) :
    Grown chainLength (n.stepActivated chainLength now (c.getHeight best) v)
      { g with seen := g.seen ∪ newestShares c best (c.getHeight best) } := by
  have hstart : g.start ⊆ g.seen ∪ newestShares c best (c.getHeight best) :=
    h.start_subset.trans Finset.subset_union_left
  have hmore := g.credited_le (newestShares c best (c.getHeight best))
  have hold := h.count_le (by rw [hstate]; simp)
  unfold RatchetNode.stepActivated
  dsimp only
  split
  · exact Grown.save hstart (fun hleft => absurd rfl hleft) fun hleft => (by cases hleft)
  split
  · generalize hcount : (if 0 < n.ratchet.lastSeenHeight ∧
      n.ratchet.lastSeenHeight < (c.getHeight best : Int)
      then n.ratchet.confirmCount + ((c.getHeight best : Int) - n.ratchet.lastSeenHeight)
      else n.ratchet.confirmCount) = count
    have hle : count ≤ Growth.credited
        { g with seen := g.seen ∪ newestShares c best (c.getHeight best) } := by
      rw [← hcount]
      split
      · rename_i hrise
        have hfresh := hnew hstate hrise.1 hrise.2
        have hgrown := Growth.credited_add_card h.start_subset hfresh
          (newestShares_subset (Nat.sub_le _ _))
        rw [card_newestShares hc (Nat.sub_le _ _)] at hgrown
        omega
      · omega
    split
    · rename_i henough
      exact Grown.save hstart (fun _ => hle) fun _ => henough.1
    · have hstays : n.ratchet.state ≠ .confirmed := by simp [hstate]
      exact ⟨hstart, fun _ => hle, fun hleft => absurd hleft hstays, (h.mono hstart hmore).saved⟩
  · exact h.mono hstart hmore

theorem Grown.step (h : Grown chainLength n g) {op : RatchetOp H}
    (hforest : ∀ c best now, op = .call c best now → c.Consistent)
    (hnew : CountsNew n.ratchet g op) :
    Grown chainLength (n.step chainLength op) (g.track chainLength n op) := by
  cases op with
  | restart => exact h.restart
  | call c best now =>
    have hstart : g.start ⊆ g.seen ∪ newestShares c best (c.getHeight best) :=
      h.start_subset.trans Finset.subset_union_left
    unfold Growth.track
    dsimp only
    obtain heq | ⟨hvoting, v, heq⟩ | ⟨hactivated, v, heq⟩ :=
      @step_call_cases H _ _ chainLength n c best now
    · rw [heq, if_neg fun hleft => hleft.2 hleft.1]
      exact h.mono hstart (g.credited_le _)
    · rw [heq, if_pos ⟨hvoting, (activate_ratchet n chainLength now _ v).1⟩]
      exact grown_activate n now _ v _
    · rw [if_neg (by simp [hactivated]), heq]
      exact h.stepActivated (hforest c best now rfl) hactivated hnew v

/-- **Confirmations count growth.**  Along every run of a fresh ratchet over calls and restarts in
which each share counted was on no earlier chain, the count stays within the credit and the growth
since the activation, and CONFIRMED is entered with `2 * CHAIN_LENGTH` of them. -/
theorem confirm_counts_growth (chainLength : Nat) (stateFile : Bool) (target : Int)
    (ops : List (RatchetOp H))
    (hforests : ∀ c best now, RatchetOp.call c best now ∈ ops → c.Consistent)
    (hnew : AlwaysCountsNew chainLength
      ({ ratchet := { stateFile := stateFile, targetVersion := target } }, {}) ops) :
    let s := growthRun chainLength
      ({ ratchet := { stateFile := stateFile, targetVersion := target } }, ({} : Growth H)) ops
    (s.1.ratchet.state ≠ .voting → s.1.ratchet.confirmCount ≤ s.2.credited) ∧
      (s.1.ratchet.state = .confirmed → chainLength * 2 ≤ s.2.credited) := by
  have hrun : ∀ s : RatchetNode × Growth H, Grown chainLength s.1 s.2 →
      AlwaysCountsNew chainLength s ops →
      Grown chainLength (growthRun chainLength s ops).1 (growthRun chainLength s ops).2 := by
    clear hnew
    induction ops with
    | nil => exact fun s hs _ => hs
    | cons op ops ih =>
      intro s hs hnew
      refine ih (fun c best now hmem => hforests c best now (List.mem_cons_of_mem _ hmem)) _
        (hs.step (fun c best now heq => hforests c best now (by simp [heq])) hnew.1) hnew.2
  have hfirst : Grown chainLength
      { ratchet := { stateFile := stateFile, targetVersion := target } } ({} : Growth H) :=
    ⟨subset_rfl, fun hstate => absurd rfl hstate, fun hstate => (by cases hstate),
      fun _ s hs => (by cases hs)⟩
  have hend := hrun _ hfirst hnew
  refine ⟨hend.count_le, fun hstate => ?_⟩
  have henough := hend.confirmed hstate
  have hcount := hend.count_le (by rw [hstate]; simp)
  omega

def forkedVotes : Forest Nat VoteShare := (voteChain 36 10).add ⟨⟨11, 8, 2, 2⟩, voter 36 11⟩

theorem forkedVotes_consistent : forkedVotes.Consistent := by
  obtain ⟨hc, hsize⟩ := voteChain_consistent 36 (by decide : 10 ≤ 100000)
  have hnew : 11 ∉ (voteChain 36 10).shares := by
    rw [← parent_eq_none_iff, voteChain_parent, if_neg (by decide)]
  refine hc.add (shallow_of_size_le hc.acyclic (by omega)) (by decide) hnew
    (acyclic_of_rank id fun x y hxy => ?_)
  rcases extend_eq_some_iff.mp hxy with ⟨rfl, hy⟩ | ⟨-, hy⟩
  · rw [← hy]
    decide
  rw [voteChain_parent] at hy
  split at hy
  · cases hy
    simp only [id]
    omega
  · cases hy

/-- The best share moves between the two heads, and each time it comes back one more confirmation is
counted, for no new share. -/
theorem confirm_counts_again :
    forkedVotes.Consistent ∧
      (growthRun 10 ({ ratchet := { stateFile := true, targetVersion := 36 } }, {})
        [.call forkedVotes 10 0, .call forkedVotes 11 1, .call forkedVotes 10 2,
          .call forkedVotes 11 3, .call forkedVotes 10 4]).1.ratchet.confirmCount = 2 ∧
      (growthRun 10 ({ ratchet := { stateFile := true, targetVersion := 36 } }, {})
        [.call forkedVotes 10 0, .call forkedVotes 11 1, .call forkedVotes 10 2,
          .call forkedVotes 11 3, .call forkedVotes 10 4]).2.credited = 1 := by
  refine ⟨forkedVotes_consistent, ?_, ?_⟩ <;> decide +kernel

theorem confirm_counts_growth_once :
    let s := growthRun 10 ({ ratchet := { stateFile := true, targetVersion := 36 } }, {})
      [.call (voteChain 36 10) 10 0, .restart, .call (voteChain 36 10) 10 1,
        .call (voteChain 36 11) 11 2]
    s.1.ratchet.state = .activated ∧ s.1.ratchet.confirmCount = 1 ∧
      s.1.ratchet.confirmCount ≤ s.2.credited := by
  refine ⟨by decide +kernel, by decide +kernel,
    (@confirm_counts_growth Nat _ _ 10 true 36 _ ?_ ?_).1 (by decide +kernel)⟩
  · intro c best now hmem
    simp only [List.mem_cons, RatchetOp.call.injEq, reduceCtorEq, List.not_mem_nil, or_false,
      false_or] at hmem
    rcases hmem with ⟨rfl, -⟩ | ⟨rfl, -⟩ | ⟨rfl, -⟩
    · exact (voteChain_consistent 36 (by decide)).1
    · exact (voteChain_consistent 36 (by decide)).1
    · exact (voteChain_consistent 36 (by decide)).1
  refine ⟨fun h => ?_, trivial, fun _ h => ?_, fun _ _ _ => ?_, trivial⟩
  · cases h
  · exact absurd h (by decide +kernel)
  · decide +kernel

def RatchetNode.savedState (n : RatchetNode) : RatchetState := (n.file.map (·.state)).getD .voting

/-- Every change of phase is saved. -/
def RatchetNode.Recorded (n : RatchetNode) : Prop :=
  n.ratchet.stateFile = true ∧ n.savedState = n.ratchet.state

theorem recorded_save {n : RatchetNode} (h : n.ratchet.stateFile = true) : n.save.Recorded := by
  simp [RatchetNode.save, h, RatchetNode.Recorded, RatchetNode.savedState]

theorem state_restart {n : RatchetNode} (h : n.Recorded) :
    n.restart.Recorded ∧ n.restart.ratchet.state = n.ratchet.state := by
  obtain ⟨hfile, hsaved⟩ := h
  unfold RatchetNode.savedState at hsaved
  unfold RatchetNode.restart RatchetNode.Recorded RatchetNode.savedState
  cases hsome : n.file <;> simp_all

theorem recorded_step {n : RatchetNode} (h : n.Recorded) (chainLength : Nat) (op : RatchetOp H) :
    (n.step chainLength op).Recorded ∧
      (n.ratchet.state = .confirmed → (n.step chainLength op).ratchet.state = .confirmed) := by
  cases op with
  | restart => exact ⟨(state_restart h).1, fun hstate => (state_restart h).2.trans hstate⟩
  | call c best now =>
    rcases step_call_cases n c best now with hsame | ⟨hstate, v, hleft⟩ | ⟨hstate, v, hleft⟩
    · rw [hsame]
      exact ⟨h, id⟩
    · rw [hleft, hstate]
      refine ⟨?_, fun hne => (by cases hne)⟩
      unfold RatchetNode.activate
      apply recorded_save
      dsimp only
      split <;> exact h.1
    · rw [hleft, hstate]
      refine ⟨?_, fun hne => (by cases hne)⟩
      unfold RatchetNode.stepActivated
      dsimp only
      repeat' split
      all_goals first | exact recorded_save h.1 | exact h

theorem recorded_run {n : RatchetNode} (h : n.Recorded) (chainLength : Nat)
    (ops : List (RatchetOp H)) :
    (Run.run (RatchetNode.step chainLength) n ops).Recorded ∧ (n.ratchet.state = .confirmed →
      (Run.run (RatchetNode.step chainLength) n ops).ratchet.state = .confirmed) := by
  induction ops generalizing n with
  | nil => exact ⟨h, id⟩
  | cons op ops ih =>
    obtain ⟨hstep, hkept⟩ := recorded_step h chainLength op
    exact ⟨(ih hstep).1, fun hstate => (ih hstep).2 (hkept hstate)⟩

theorem phase_survives (chainLength : Nat) (target : Int) (ops more : List (RatchetOp H)) :
    let n := Run.run (RatchetNode.step chainLength)
      { ratchet := { stateFile := true, targetVersion := target } } ops
    n.restart.ratchet.state = n.ratchet.state ∧
      (n.ratchet.state = .confirmed →
        (Run.run (RatchetNode.step chainLength) n more).ratchet.state = .confirmed) := by
  intro n
  have hn : n.Recorded := (recorded_run ⟨rfl, rfl⟩ chainLength ops).1
  exact ⟨(state_restart hn).2, (recorded_run hn chainLength more).2⟩

end C2Pool.Ltc
