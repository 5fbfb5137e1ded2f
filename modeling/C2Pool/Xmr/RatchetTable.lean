import C2Pool.Xmr.Ratchet

/-! # What the start-up checks of the ratchet promise

A deployment table that passes `deployment_table_valid` and `lane_rules_valid` for
mainnet: every attempt is a vote on the grid, the attempts of an epoch and of the
next one are spaced by the grace period, and no epoch below a table's last one is
missing.
-/

namespace C2Pool.Xmr.PathB

open List

variable {Rules : Type} {p : RatchetParams} {T : EpochTable Rules} {e i : Nat} {d a : Deployment}
  {genesisDigestFor : LaneNet → Rules → Option Hash} {rulesDigest : Rules → Hash}

theorem ratchetParamsValid_elim (h : ratchetParamsValid p = true) :
    0 < p.window.val ∧ 0 < p.grace.val ∧ ratchetKeptWindows p ≤ 4 := by
  unfold ratchetParamsValid at h
  simp only [Bool.and_eq_true, decide_eq_true_eq] at h
  obtain ⟨⟨hwindow, hgrace⟩, hkept⟩ := h
  exact ⟨hwindow, hgrace, hkept⟩

theorem ratchetKeptWindows_eq (hgrace : 0 < p.grace.val) :
    ratchetKeptWindows p = (p.grace.val - 1) / p.window.val + 1 := by
  unfold ratchetKeptWindows
  rw [Fin.sub_val_of_le (by rw [Fin.le_def]; exact hgrace)]
  rfl

theorem ownAttempt_mem (h : ownAttempt T e = some d) : d ∈ T.attempts ∧ d.epochNo.val = e := by
  have hmem := mem_of_getLast? h
  simpa using hmem

theorem ownAttempt_index (h : ownAttempt T e = some d) :
    ∃ i, T.attempts[i]? = some d ∧ isOwn T i d = true := by
  obtain ⟨-, hepoch⟩ := ownAttempt_mem h
  obtain ⟨front, hfront⟩ := getLast?_eq_some_iff.mp h
  obtain ⟨before, rest, hsplit, -, hrest⟩ := filter_eq_append_iff.mp hfront
  obtain ⟨skipped, after, hcut, hskipped, -, hafter⟩ := filter_eq_cons_iff.mp hrest
  refine ⟨before.length + skipped.length, ?_, ?_⟩
  · rw [hsplit, hcut]
    simp
  have hdrop : T.attempts.drop (before.length + skipped.length + 1) = after := by
    have hall : T.attempts = (before ++ (skipped ++ [d])) ++ after := by simp [hsplit, hcut]
    rw [hall, drop_left' (by simp [Nat.add_assoc])]
  unfold isOwn
  rw [hdrop, all_eq_true]
  intro b hb
  have hnone := filter_eq_nil_iff.mp hafter b hb
  simp only [decide_eq_true_eq] at hnone ⊢
  intro hsame
  exact hnone (by rw [hsame, hepoch])

/-! ## Attempts -/

/-- What `deployment_table_valid` leaves of one attempt on mainnet. -/
structure AttemptFits (p : RatchetParams) (T : EpochTable Rules) (i : Nat) (a : Deployment) :
    Prop where
  epoch_pos : 1 ≤ a.epochNo.val
  epoch_le : a.epochNo.val ≤ 2 ^ 15 - 1
  first : i = 0 → a.epochNo.val = 1
  step : ∀ b, i ≠ 0 → T.attempts[i - 1]? = some b → b.epochNo.val ≤ a.epochNo.val
  kind : a.kind = kKindVote
  timeout : a.timeout.val = a.start.val + ratchetVoteWindows p * p.window.val
  spaced : ∀ j b, j < i → T.attempts[j]? = some b →
    b.epochNo = a.epochNo ∨ (b.epochNo.val + 1 = a.epochNo.val ∧ isOwn T j b = true) →
    b.kind = kKindVote → b.timeout.val + p.grace.val ≤ a.start.val

theorem AttemptFits.of_refusal (h : attemptRefusal p .mainnet T i a = none) :
    AttemptFits p T i a := by
  unfold attemptRefusal at h
  split at h
  · simp at h
  split at h
  · simp at h
  rename_i hfirst
  simp only [Option.orElse_eq_orElse, Option.orElse_eq_or, Option.or_eq_none_iff] at h
  obtain ⟨horder, hkind, hspacing⟩ := h
  have hvote : a.kind = kKindVote := by
    by_contra hne
    rw [if_neg hne] at hkind
    split at hkind <;> simp at hkind
  rw [if_pos hvote] at hkind
  refine ⟨by omega, by omega, ?_, ?_, hvote, ?_, ?_⟩
  · intro hi
    have hone : a.epochNo = 1 := by
      by_contra hne
      exact hfirst ⟨hi, hne⟩
    rw [hone]
    rfl
  · intro b hi hb
    rw [if_neg hi, hb] at horder
    simp only at horder
    split at horder
    · simp at horder
    · omega
  · split at hkind
    · simp at hkind
    split at hkind
    · simp at hkind
    split at hkind
    · simp at hkind
    · omega
  · intro j b hj hb hrel hbkind
    rw [Option.map_eq_none_iff, find?_eq_none] at hspacing
    have hmem : (b, j) ∈ (T.attempts.take i).zipIdx := by
      rw [mem_zipIdx_iff_getElem?]
      simpa [getElem?_take, hj] using hb
    have hfits := hspacing (b, j) hmem
    have hother : b.kind ≠ kKindFixed := by
      rw [hbkind]
      decide
    have hclose : (decide (b.epochNo = a.epochNo) ||
        decide (b.epochNo.val + 1 = a.epochNo.val) && isOwn T j b) = true := by
      simpa using hrel
    simp only [hclose, Bool.true_and, spacingThreshold, if_neg hother] at hfits
    by_cases hroom : 2 ^ 64 - 1 - p.grace.val < b.timeout.val
    · rw [if_pos hroom] at hfits
      simp at hfits
    · rw [if_neg hroom] at hfits
      simpa using hfits

/-- What the start-up checks promise about a mainnet table. -/
structure MainnetTable (p : RatchetParams) (T : EpochTable Rules) : Prop where
  fits : ∀ i a, T.attempts[i]? = some a → AttemptFits p T i a
  compiled : ∀ e d, ownAttempt T e = some d → compiledDigest T e = some d.rulesDigest

theorem deploymentTableValid_fits {p : RatchetParams} {T : EpochTable Rules}
    (h : (deploymentTableValid p .mainnet T).ok = true)
    (ha : T.attempts[i]? = some a) : AttemptFits p T i a := by
  unfold deploymentTableValid at h
  split at h
  · simp at h
  split at h
  · simp at h
  split at h
  · simp at h
  rename_i hnone
  have hmem : (a, i) ∈ T.attempts.zipIdx := mem_zipIdx_iff_getElem?.mpr ha
  exact AttemptFits.of_refusal (findSome?_eq_none_iff.mp hnone (a, i) hmem)

theorem laneRulesValid_compiled {net : LaneNet}
    (h : (laneRulesValid genesisDigestFor rulesDigest net T).ok = true)
    (hown : ownAttempt T e = some d) (hkind : d.kind = kKindVote) :
    compiledDigest T e = some d.rulesDigest := by
  obtain ⟨-, hepoch⟩ := ownAttempt_mem hown
  obtain ⟨i, hi, hisOwn⟩ := ownAttempt_index hown
  unfold laneRulesValid at h
  split at h
  · simp at h
  split at h
  · simp at h
  split at h
  · simp at h
  split at h
  · simp at h
  split at h
  · simp at h
  split at h
  · simp at h
  rename_i hnone
  have hmem : (d, i) ∈ T.attempts.zipIdx := mem_zipIdx_iff_getElem?.mpr hi
  have hfound := find?_eq_none.mp hnone (d, i) hmem
  simpa [hisOwn, hkind, hepoch] using hfound

theorem MainnetTable.of_checks (htable : (deploymentTableValid p .mainnet T).ok = true)
    (hrules : (laneRulesValid genesisDigestFor rulesDigest .mainnet T).ok = true) :
    MainnetTable p T := by
  refine ⟨fun i a => deploymentTableValid_fits htable, ?_⟩
  intro e d hown
  obtain ⟨i, hi, -⟩ := ownAttempt_index hown
  exact laneRulesValid_compiled hrules hown (deploymentTableValid_fits htable hi).kind

section Mainnet

variable (h : MainnetTable p T)
include h

theorem MainnetTable.own_fits {e : Nat} {d : Deployment} (hown : ownAttempt T e = some d) :
    ∃ i, T.attempts[i]? = some d ∧ isOwn T i d = true ∧ AttemptFits p T i d := by
  obtain ⟨i, hi, hisOwn⟩ := ownAttempt_index hown
  exact ⟨i, hi, hisOwn, h.fits i d hi⟩

theorem MainnetTable.own_kind {e : Nat} {d : Deployment} (hown : ownAttempt T e = some d) :
    d.kind = kKindVote := by
  obtain ⟨i, -, -, hfits⟩ := h.own_fits hown
  exact hfits.kind

theorem MainnetTable.epoch_le {i j : Nat} {a b : Deployment} (ha : T.attempts[i]? = some a)
    (hb : T.attempts[j]? = some b) (hle : i ≤ j) : a.epochNo.val ≤ b.epochNo.val := by
  induction j, hle using Nat.le_induction generalizing b with
  | base =>
    rw [ha] at hb
    cases hb
    exact Nat.le_refl _
  | succ j hij ih =>
    have hj : j < T.attempts.length := by
      have := (List.getElem?_eq_some_iff.mp hb).1
      omega
    have hmid : T.attempts[j]? = some T.attempts[j] := getElem?_eq_getElem hj
    have hstep := (h.fits (j + 1) b hb).step T.attempts[j] (by omega) hmid
    have hbefore := ih hmid
    omega

theorem MainnetTable.own_spaced {e : Nat} {d : Deployment} {d' : Deployment}
    (hown : ownAttempt T e = some d) (hnext : ownAttempt T (e + 1) = some d') :
    d.timeout.val + p.grace.val ≤ d'.start.val := by
  obtain ⟨-, hepoch⟩ := ownAttempt_mem hown
  obtain ⟨-, hepoch'⟩ := ownAttempt_mem hnext
  obtain ⟨i, hi, hisOwn, hfits⟩ := h.own_fits hown
  obtain ⟨j, hj, -, hfits'⟩ := h.own_fits hnext
  have hlt : i < j := by
    by_contra hge
    have hle := h.epoch_le hj hi (by omega)
    omega
  exact hfits'.spaced i d hlt hi (Or.inr ⟨by omega, hisOwn⟩) hfits.kind

end Mainnet

end C2Pool.Xmr.PathB
