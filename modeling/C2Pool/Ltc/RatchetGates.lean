import C2Pool.Ltc.AutoRatchet

/-! # The mint gate and the accept gate

When `get_share_version` mints the target version on a best share of the version
below, and when `share_check` accepts that switch.  The ratchet reads the tail only
while it is voting, and it counts versions above the target for it.
-/

namespace C2Pool.Ltc

open Sharechain Forest

variable {H : Type} [DecidableEq H] [Inhabited H] {x best : H} {c : Forest H VoteShare}
  {chainLength : Nat} {S : Type} {data : ChainData H VoteShare}

theorem length_chainShares {c : Forest H S} {n k : Nat}
    (h : n ≤ c.getHeightLoop k x) : (chainShares c n x).length = n := by
  induction n generalizing k x with
  | zero => rfl
  | succ n ih =>
    cases k with
    | zero => simp [getHeightLoop] at h
    | succ k =>
      unfold getHeightLoop at h
      unfold chainShares
      cases hcur : c.current x with
      | none => simp [hcur] at h
      | some data =>
        simp only [hcur] at h
        simp [ih (Nat.le_of_succ_le_succ h)]

theorem getChain_ok {c : Forest H S} {n : Nat} (h : n ≤ c.getHeight x) :
    getChain c x n = .ok (chainShares c n x) := by
  unfold getChain
  rw [if_neg (by omega)]

theorem getDesiredVersionWeights_ok (c : Forest H VoteShare) (x : H) (n : Nat) :
    ∃ weights, getDesiredVersionWeights c x n = .ok weights := by
  unfold getDesiredVersionWeights
  split
  · exact ⟨_, rfl⟩
  simp only
  split
  · exact ⟨_, rfl⟩
  · rw [getChain_ok (Nat.min_le_right _ _)]
    exact ⟨_, rfl⟩

theorem tailWeights_ok
    (h : chainLength ≤ c.getHeight x) : ∃ weights, tailWeights c chainLength x = .ok weights := by
  have hle : chainLength * 9 / 10 ≤ c.getHeight x := by omega
  obtain ⟨ancestor, hancestor⟩ :=
    Option.isSome_iff_exists.mp (getNthParentKey_isSome_of_le_getHeight x hle)
  obtain ⟨weights, hweights⟩ := getDesiredVersionWeights_ok c ancestor (chainLength / 10)
  refine ⟨weights, ?_⟩
  unfold tailWeights nthParentKey
  rw [hancestor]
  exact hweights

/-- The vote count of the window of `best`. -/
def windowVotes (c : Forest H VoteShare) (chainLength : Nat) (target : Int) (best : H) :
    VoteCount :=
  countVotes target (chainShares c (min (c.getHeight best) chainLength) best)

/-- The tail guard of the ratchet holds behind `best`. -/
def TailSignals (c : Forest H VoteShare) (chainLength : Nat) (target : Int) (best : H) : Prop :=
  ∃ weights, tailWeights c chainLength best = .ok weights ∧ tailOk target weights = true

/-- The tail behind `best` meets the 60% rule for exactly the target version. -/
def TailAccepts (c : Forest H VoteShare) (chainLength : Nat) (target : Int) (best : H) : Prop :=
  ∃ weights, tailWeights c chainLength best = .ok weights ∧
    versionSwitchUnderweight (weightOf (fun ver => ver = target) weights)
      (weightOf (fun _ => true) weights) = false

/-- The condition under which the mint gate of a ratchet covers the accept gate.  While
it votes: if it activates here, the 60% of the tail vote for exactly the target.  Once
it has activated: there is a whole window, in which less than half vote for the target or
the tail votes 60% for exactly the target. -/
def Covers (chainLength : Nat) (r : AutoRatchet) (c : Forest H VoteShare) (best : H) : Prop :=
  let v := windowVotes c chainLength r.targetVersion best
  if r.state = .voting then
    chainLength ≤ c.getHeight best → 95 ≤ v.votePct → 2 ≤ v.distinctOrigins →
      TailSignals c chainLength r.targetVersion best →
        TailAccepts c chainLength r.targetVersion best
  else
    chainLength ≤ c.getHeight best ∧
      (v.votePct < 50 ∨ TailAccepts c chainLength r.targetVersion best)

theorem total_windowVotes (c : Forest H VoteShare) (chainLength : Nat) (target : Int) (best : H) :
    (windowVotes c chainLength target best).total = min (c.getHeight best) chainLength :=
  length_chainShares (Nat.min_le_left _ _)

theorem getHeight_pos {c : Forest H S} {data : ChainData H S} (hnull : c.NullFree)
    (hx : c.shares.lookup x = some data) : x ≠ default ∧ 1 ≤ c.getHeight x := by
  have hne : x ≠ default := by
    intro heq
    unfold NullFree Forest.parent at hnull
    rw [← heq, hx] at hnull
    simp at hnull
  have hcur : c.current x = some data := by
    unfold current
    rw [if_neg hne, hx]
  refine ⟨hne, ?_⟩
  unfold getHeight getHeightLoop
  rw [hcur]
  exact Nat.succ_le_succ (Nat.zero_le _)

theorem checkVersionSwitch_next {target : Int} (hnull : c.NullFree)
    (hdata : c.shares.lookup best = some data) (hversion : data.share.version = target - 1) :
    checkVersionSwitch c chainLength best target = .ok () ↔
      chainLength ≤ c.getHeight best ∧ TailAccepts c chainLength target best := by
  have hne := (getHeight_pos hnull hdata).1
  have hother : target ≠ data.share.version := by omega
  have hnext : target = data.share.version + 1 := by omega
  unfold checkVersionSwitch
  rw [if_neg hne, hdata]
  simp only
  by_cases hheight : chainLength ≤ c.getHeight best
  · obtain ⟨weights, hweights⟩ := tailWeights_ok hheight
    rw [if_pos hheight, if_neg hother, if_pos hnext]
    unfold TailAccepts
    simp only [hweights, hheight, true_and, Except.ok.injEq, exists_eq_left']
    cases hunder : versionSwitchUnderweight (weightOf (fun ver => ver = target) weights)
        (weightOf (fun _ => true) weights) with
    | true => simp [bind, Except.bind, hunder]
    | false => simp [bind, Except.bind, hunder]
  · rw [if_neg hheight, if_pos hnext]
    simp [hheight]

/-! ## The mint gate -/

/-- The ratchet mints the target version on `best`. -/
def Mints (chainLength : Nat) (r : AutoRatchet) (c : Forest H VoteShare) (best : H) : Prop :=
  let v := windowVotes c chainLength r.targetVersion best
  if r.state = .voting then
    chainLength ≤ c.getHeight best ∧ 95 ≤ v.votePct ∧ 2 ≤ v.distinctOrigins ∧
      TailSignals c chainLength r.targetVersion best
  else ¬ (chainLength ≤ c.getHeight best ∧ v.votePct < 50)

theorem covers_iff (chainLength : Nat) (r : AutoRatchet) (c : Forest H VoteShare) (best : H) :
    Covers chainLength r c best ↔ (Mints chainLength r c best →
      chainLength ≤ c.getHeight best ∧ TailAccepts c chainLength r.targetVersion best) := by
  unfold Covers Mints
  simp only
  split
  · constructor
    · intro h hmint
      obtain ⟨hheight, hvotes, horigins, htail⟩ := hmint
      exact ⟨hheight, h hheight hvotes horigins htail⟩
    · intro h hheight hvotes horigins htail
      exact (h ⟨hheight, hvotes, horigins, htail⟩).2
  constructor
  · intro h hmint
    obtain ⟨hheight, hlow | haccepts⟩ := h
    · exact absurd ⟨hheight, hlow⟩ hmint
    · exact ⟨hheight, haccepts⟩
  intro h
  by_cases hlow : chainLength ≤ c.getHeight best ∧
      (windowVotes c chainLength r.targetVersion best).votePct < 50
  · exact ⟨hlow.1, Or.inl hlow.2⟩
  · exact ⟨(h hlow).1, Or.inr (h hlow).2⟩

theorem covers_of_accepts {r : AutoRatchet} (hheight : chainLength ≤ c.getHeight best)
    (haccepts : TailAccepts c chainLength r.targetVersion best) : Covers chainLength r c best := by
  rw [covers_iff]
  intro _
  exact ⟨hheight, haccepts⟩

theorem output_eq_target (n : RatchetNode) :
    n.output = n.ratchet.targetVersion ↔ n.ratchet.state ≠ .voting := by
  unfold RatchetNode.output
  split
  · simp_all
  · simp_all

theorem save_ratchet (n : RatchetNode) : n.save.ratchet = n.ratchet := by
  unfold RatchetNode.save
  split <;> rfl

theorem activate_ratchet (n : RatchetNode) (chainLength : Nat) (now : Int) (height : Nat)
    (v : VoteCount) :
    (n.activate chainLength now height v).ratchet.state ≠ .voting ∧
      (n.activate chainLength now height v).ratchet.targetVersion = n.ratchet.targetVersion := by
  unfold RatchetNode.activate
  rw [save_ratchet]
  split
  · exact ⟨by simp, rfl⟩
  · exact ⟨by simp, rfl⟩

theorem stepVoting_leaves (n : RatchetNode) (c : Forest H VoteShare) (best : H)
    (chainLength : Nat) (now : Int) (hstate : n.ratchet.state = .voting) :
    ∃ n', n.stepVoting c best chainLength now
        (windowVotes c chainLength n.ratchet.targetVersion best) = .ok n' ∧
      n'.ratchet.targetVersion = n.ratchet.targetVersion ∧
      (n'.ratchet.state ≠ .voting ↔ Mints chainLength n.ratchet c best) := by
  have htotal := total_windowVotes c chainLength n.ratchet.targetVersion best
  have hfull : chainLength ≤ (windowVotes c chainLength n.ratchet.targetVersion best).total ↔
      chainLength ≤ c.getHeight best := by
    omega
  unfold RatchetNode.stepVoting Mints
  simp only [hfull, hstate, if_true]
  by_cases hvotes : chainLength ≤ c.getHeight best ∧
      95 ≤ (windowVotes c chainLength n.ratchet.targetVersion best).votePct
  · obtain ⟨weights, hweights⟩ := tailWeights_ok hvotes.1
    have hsignals : TailSignals c chainLength n.ratchet.targetVersion best ↔
        tailOk n.ratchet.targetVersion weights = true := by
      unfold TailSignals
      simp [hweights]
    rw [if_pos hvotes, hweights]
    simp only [bind, Except.bind]
    by_cases hpass : tailOk n.ratchet.targetVersion weights = true ∧
        2 ≤ (windowVotes c chainLength n.ratchet.targetVersion best).distinctOrigins
    · rw [if_pos hpass]
      obtain ⟨hleft, htarget⟩ := activate_ratchet n chainLength now (c.getHeight best)
        (windowVotes c chainLength n.ratchet.targetVersion best)
      refine ⟨_, rfl, htarget, ?_⟩
      exact iff_of_true hleft ⟨hvotes.1, hvotes.2, hpass.2, hsignals.mpr hpass.1⟩
    rw [if_neg hpass]
    refine ⟨n, rfl, rfl, iff_of_false (fun h => h hstate) ?_⟩
    intro hmint
    exact hpass ⟨hsignals.mp hmint.2.2.2, hmint.2.2.1⟩
  rw [if_neg hvotes]
  refine ⟨n, rfl, rfl, iff_of_false (fun h => h hstate) ?_⟩
  intro hmint
  exact hvotes ⟨hmint.1, hmint.2.1⟩

theorem stepActivated_stays (n : RatchetNode) (chainLength : Nat) (now : Int) (height : Nat)
    (v : VoteCount) (hstate : n.ratchet.state = .activated) :
    (n.stepActivated chainLength now height v).ratchet.targetVersion = n.ratchet.targetVersion ∧
      ((n.stepActivated chainLength now height v).ratchet.state ≠ .voting ↔
        ¬ (chainLength ≤ v.total ∧ v.votePct < 50)) := by
  unfold RatchetNode.stepActivated
  simp only
  split
  · rename_i hlow
    rw [save_ratchet]
    simp [hlow]
  rename_i hlow
  split
  · generalize (if 0 < n.ratchet.lastSeenHeight ∧ n.ratchet.lastSeenHeight < (height : Int)
      then n.ratchet.confirmCount + ((height : Int) - n.ratchet.lastSeenHeight)
      else n.ratchet.confirmCount) = count
    split
    · rw [save_ratchet]
      exact ⟨rfl, iff_of_true (by simp) hlow⟩
    · exact ⟨rfl, iff_of_true (by simp [hstate]) hlow⟩
  · exact ⟨rfl, iff_of_true (by simp [hstate]) hlow⟩

/-- `get_share_version` returns on a held best share, and mints the target version exactly
when the mint gate is open. -/
theorem getShareVersion_mints (hnull : c.NullFree) (hlength : 1 ≤ chainLength)
    (hdata : c.shares.lookup best = some data) (n : RatchetNode) (now : Int) :
    ∃ out, getShareVersion chainLength now n c best = .ok out ∧
      (out.1.1 = n.ratchet.targetVersion ↔ Mints chainLength n.ratchet c best) := by
  obtain ⟨hne, hheight⟩ := getHeight_pos hnull hdata
  have hheld : best ∈ c.shares := Finmap.mem_of_lookup_eq_some hdata
  have htotal := total_windowVotes c chainLength n.ratchet.targetVersion best
  have hsome : (windowVotes c chainLength n.ratchet.targetVersion best).total ≠ 0 := by
    omega
  have hfull : chainLength ≤ (windowVotes c chainLength n.ratchet.targetVersion best).total ↔
      chainLength ≤ c.getHeight best := by
    omega
  have hguard : ¬ (best = default ∨ best ∉ c.shares ∨ c.getHeight best < 1) := by
    simp only [hne, hheld, not_true, false_or]
    omega
  unfold getShareVersion
  simp only [if_neg hguard, getChain_ok (Nat.min_le_left _ _), bind, Except.bind]
  change ∃ out, (if (windowVotes c chainLength n.ratchet.targetVersion best).total = 0 then _
    else _) = Except.ok out ∧ _
  rw [if_neg hsome]
  cases hstate : n.ratchet.state with
  | voting =>
    obtain ⟨n', hstep, htarget, hleaves⟩ := stepVoting_leaves n c best chainLength now hstate
    change ∃ out, (n.stepVoting c best chainLength now
      (windowVotes c chainLength n.ratchet.targetVersion best)).bind _ = Except.ok out ∧ _
    rw [hstep]
    refine ⟨_, rfl, ?_⟩
    rw [← hleaves, ← output_eq_target, htarget]
  | activated =>
    obtain ⟨htarget, hstays⟩ := stepActivated_stays n chainLength now (c.getHeight best)
      (windowVotes c chainLength n.ratchet.targetVersion best) hstate
    refine ⟨_, rfl, ?_⟩
    unfold Mints
    simp only [hstate, reduceCtorEq, if_false]
    rw [← hfull, ← hstays, ← output_eq_target, htarget]
    exact Iff.rfl
  | confirmed =>
    unfold Mints
    simp only [hstate, reduceCtorEq, if_false, ← hfull]
    change ∃ out, (if chainLength ≤ (windowVotes c chainLength n.ratchet.targetVersion best).total
      ∧ (windowVotes c chainLength n.ratchet.targetVersion best).votePct < 50 then _ else _) =
        Except.ok out ∧ _
    split
    · rename_i hlow
      refine ⟨_, rfl, iff_of_false ?_ (fun h => h hlow)⟩
      simp
    rename_i hlow
    refine ⟨_, rfl, iff_of_true ?_ hlow⟩
    exact (output_eq_target n).mpr (by simp [hstate])

end C2Pool.Ltc
