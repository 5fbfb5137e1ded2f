import C2Pool.Xmr.RatchetAct

/-! # Two releases of the ratchet

An older and a newer release fold the same placements under their own deployment
tables.  While neither of them holds, they stand in the same state.
-/

namespace C2Pool.Xmr.PathB

variable {Rules : Type} {p : RatchetParams} {s : RatchetState} {x : Nat} {T : EpochTable Rules}

theorem base_of_not_hold (h : ¬ hHold p s x T ≤ x) : base T s = true := by
  by_contra hbase
  have hfalse : base T s = false := by simpa using hbase
  simp [hHold, eImpl, hfalse] at h

theorem holdFold_le (need : Nat) {ws : List (Nat × U8)} {w : Nat × U8} (hw : w ∈ ws)
    (hneed : need ≤ w.2.val) (h : Nat) :
    ws.foldl (fun h w => if need ≤ w.2.val then min h (windowHAct p w.1) else h) h ≤
      windowHAct p w.1 := by
  have hle : ∀ (ws : List (Nat × U8)) (h : Nat),
      ws.foldl (fun h w => if need ≤ w.2.val then min h (windowHAct p w.1) else h) h ≤ h := by
    intro ws
    induction ws with
    | nil => simp
    | cons v ws ih =>
      intro h
      refine le_trans (ih _) ?_
      dsimp only
      split
      · exact min_le_left _ _
      · exact le_refl _
  induction ws generalizing h with
  | nil => simp at hw
  | cons v ws ih =>
    rw [List.foldl_cons]
    cases List.mem_cons.mp hw with
    | inl heq =>
      subst heq
      refine le_trans (hle _ _) ?_
      rw [if_pos hneed]
      exact min_le_right _ _
    | inr hmem => exact ih hmem _

theorem hold_of_unimplemented (himpl : isImplemented p s x T = false)
    {k : Nat} {l : U8} (hmem : (k, l) ∈ keptWindows p s x) (hl : 1 ≤ l)
    (hx : windowHAct p k ≤ x) : hHold p s x T ≤ x := by
  by_cases hbase : base T s = true
  · have hei : eImpl p s x T = ⟨s.epochCur, false⟩ := by simp [eImpl, hbase, himpl]
    have hfold := holdFold_le (p := p) 1 hmem (show 1 ≤ l.val from hl) kNoHold
    unfold hHold
    simp only [hei, Nat.sub_self, Nat.zero_add, Bool.false_eq_true, if_false]
    refine le_trans ?_ (le_trans hfold hx)
    split
    · exact le_refl _
    split
    · exact min_le_left _ _
    · exact le_refl _
  · simp [hHold, eImpl, hbase]

theorem ownAttempt_extended {T1 T2 : EpochTable Rules} (h2 : MainnetTable p T2)
    (hattempts : T1.attempts <+: T2.attempts) (e : Nat) :
    ownAttempt T2 e = ownAttempt T1 e ∨
      ∃ d2, ownAttempt T2 e = some d2 ∧ ∀ d1, ownAttempt T1 e = some d1 →
        d1.timeout.val + p.grace.val ≤ d2.start.val := by
  obtain ⟨more, hmore⟩ := hattempts
  have hown : ownAttempt T2 e =
      ((more.filter fun a => decide (a.epochNo.val = e)).getLast?).or (ownAttempt T1 e) := by
    simp [ownAttempt, ← hmore, List.getLast?_append]
  cases hlast : (more.filter fun a => decide (a.epochNo.val = e)).getLast? with
  | none => exact Or.inl (by simpa [hlast] using hown)
  | some d2 =>
    rw [hlast, Option.some_or] at hown
    refine Or.inr ⟨d2, hown, ?_⟩
    intro d1 hown1
    obtain ⟨i, hi, -⟩ := ownAttempt_index hown1
    obtain ⟨-, hepoch1⟩ := ownAttempt_mem hown1
    obtain ⟨-, hepoch2⟩ := ownAttempt_mem hown
    have hilt : i < T1.attempts.length := (List.getElem?_eq_some_iff.mp hi).1
    have hi2 : T2.attempts[i]? = some d1 := by
      rw [← hmore, List.getElem?_append_left hilt, hi]
    have hmem : d2 ∈ more := (List.mem_filter.mp (List.mem_of_getLast? hlast)).1
    obtain ⟨m, hm⟩ := List.mem_iff_getElem?.mp hmem
    have hj2 : T2.attempts[T1.attempts.length + m]? = some d2 := by
      rw [← hmore, List.getElem?_append_right (by omega), Nat.add_sub_cancel_left, hm]
    refine (h2.fits _ d2 hj2).spaced i d1 (by omega) hi2 (Or.inl ?_) (h2.fits i d1 hi2).kind
    exact Fin.ext (by omega)

theorem not_implemented (hT : MainnetTable p T) (h : ∀ d, nextAttempt T s = some d →
      ¬ (d.start.val ≤ x ∧ x < d.timeout.val) ∧
      ∀ k l, (k, l) ∈ keptWindows p s x → ¬ windowInRange p d k = true) :
    isImplemented p s x T = false := by
  cases hnext : nextAttempt T s with
  | none => simp [isImplemented, isOpen, locked, hnext]
  | some d =>
    obtain ⟨hclosed, hkept⟩ := h d hnext
    have hvote := hT.own_kind hnext
    have hother : kKindVote ≠ kKindFixed := by decide
    have hlock : lockWindow p s x d = none := by
      cases hlock : lockWindow p s x d with
      | none => rfl
      | some k =>
        obtain ⟨l, hmem, -, hrange⟩ := lockWindow_some hlock
        exact absurd hrange (hkept k l hmem)
    have hopen : isOpen s x T = false := by
      simp only [isOpen, hnext, Bool.and_eq_false_iff, decide_eq_false_iff_not]
      by_cases hstart : d.start.val ≤ x
      · exact Or.inr fun hlt => hclosed ⟨hstart, hlt⟩
      · exact Or.inl (Or.inr hstart)
    simp [isImplemented, hopen, locked, hAct, hnext, hvote, hother, hlock]

section Position

variable {T1 T2 : EpochTable Rules} (hpos : 0 < p.window.val) (hgrace : 0 < p.grace.val)
  (h1 : MainnetTable p T1) (h2 : MainnetTable p T2) (hattempts : T1.attempts <+: T2.attempts)
include hpos h1 h2 hattempts

theorem act_of_older {g : Hash} (hact : act p s x T1 = some g) (hfree : ¬ hHold p s x T2 ≤ x) :
    act p s x T2 = some g := by
  obtain ⟨d1, k, l, hnext1, -, -, hmem, hl, hrange, hx⟩ := act_window h1 hpos hact
  have hhact := windowHAct_le hpos hx
  obtain ⟨-, hend⟩ := windowInRange_iff.mp hrange
  cases ownAttempt_extended h2 hattempts (s.epochCur.val + 1) with
  | inl hsame =>
    rw [act_eq_some_iff fun d hd => h1.own_kind hd] at hact
    obtain ⟨d, j, hnext, -, hrest⟩ := hact
    rw [act_eq_some_iff fun d hd => h2.own_kind hd]
    exact ⟨d, j, hsame.trans hnext, base_of_not_hold hfree, hrest⟩
  | inr hretry =>
    obtain ⟨d2, hnext2, hspaced⟩ := hretry
    have hstart := hspaced d1 hnext1
    refine absurd (hold_of_unimplemented (not_implemented h2 ?_) hmem hl hhact) hfree
    intro d hd
    have hd2 : d = d2 := by
      rw [nextAttempt, hnext2] at hd
      exact (Option.some.inj hd).symm
    subst hd2
    refine ⟨by omega, ?_⟩
    intro j m hj hjrange
    have hover := (kept_bounds hj).1
    have hjstart := (windowInRange_iff.mp hjrange).1
    have hstep : j * p.window.val ≤ (j + 1) * p.window.val :=
      Nat.mul_le_mul_right _ (Nat.le_succ j)
    omega

include hgrace in
theorem act_of_newer {g : Hash} (hact : act p s x T2 = some g) (hfree : ¬ hHold p s x T1 ≤ x) :
    act p s x T1 = some g := by
  obtain ⟨d2, k, l, hnext2, -, -, hmem, hl, hrange, hx⟩ := act_window h2 hpos hact
  have hhact := windowHAct_le hpos hx
  have hcur := div_of_position hpos hgrace hx
  obtain ⟨hbegin, -⟩ := windowInRange_iff.mp hrange
  cases ownAttempt_extended h2 hattempts (s.epochCur.val + 1) with
  | inl hsame =>
    rw [act_eq_some_iff fun d hd => h2.own_kind hd] at hact
    obtain ⟨d, j, hnext, -, hrest⟩ := hact
    rw [act_eq_some_iff fun d hd => h1.own_kind hd]
    exact ⟨d, j, hsame.symm.trans hnext, base_of_not_hold hfree, hrest⟩
  | inr hretry =>
    obtain ⟨d2', hnext2', hspaced⟩ := hretry
    have hd2 : d2' = d2 := by
      rw [nextAttempt, hnext2'] at hnext2
      exact Option.some.inj hnext2
    subst hd2
    refine absurd (hold_of_unimplemented (not_implemented h1 ?_) hmem hl hhact) hfree
    intro d1 hnext1
    have hstart := hspaced d1 hnext1
    have hstep : (k + 1) * p.window.val = k * p.window.val + p.window.val := Nat.succ_mul _ _
    refine ⟨by omega, ?_⟩
    -- a window of the first attempt ends a grace period before `k` starts, and `k` is
    -- the oldest window kept at its own activation position
    intro j m hj hjrange
    have hjkept := (kept_bounds hj).2
    have hjend := (windowInRange_iff.mp hjrange).2
    have hle : (k + 1) * p.window.val ≤ (j + 1) * p.window.val := Nat.mul_le_mul_right _ (by omega)
    omega

include hgrace in
theorem rsStepAt_agree (placed : List RatchetPlacement) (hfree1 : ¬ hHold p s x T1 ≤ x)
    (hfree2 : ¬ hHold p s x T2 ≤ x) : rsStepAt p s x placed T1 = rsStepAt p s x placed T2 := by
  have hact : act p s x T1 = act p s x T2 := by
    apply Option.ext
    intro g
    constructor
    · intro h
      exact act_of_older hpos h1 h2 hattempts h hfree2
    · intro h
      exact act_of_newer hpos hgrace h1 h2 hattempts h hfree1
  unfold rsStepAt
  rw [hact]

end Position

/-- Two releases whose tables pass the mainnet start-up checks, the older one's attempts
a first part of the newer one's, stand in the same state as long as neither holds. -/
theorem releases_agree {genesisDigestFor : LaneNet → Rules → Option Hash}
    {rulesDigest : Rules → Hash} {T1 T2 : EpochTable Rules} (hparams : ratchetParamsValid p = true)
    (htable1 : (deploymentTableValid p .mainnet T1).ok = true)
    (htable2 : (deploymentTableValid p .mainnet T2).ok = true)
    (hrules1 : (laneRulesValid genesisDigestFor rulesDigest .mainnet T1).ok = true)
    (hrules2 : (laneRulesValid genesisDigestFor rulesDigest .mainnet T2).ok = true)
    (hattempts : T1.attempts <+: T2.attempts) (genesis : Hash)
    (placed : Nat → List RatchetPlacement) (x : Nat) (hfree : ∀ y, y < x →
      hold p (ratchetRun p genesis T1 placed y) y T1 = false ∧
      hold p (ratchetRun p genesis T2 placed y) y T2 = false) :
    ratchetRun p genesis T1 placed x = ratchetRun p genesis T2 placed x := by
  obtain ⟨hpos, hgrace, -⟩ := ratchetParamsValid_elim hparams
  have h1 := MainnetTable.of_checks htable1 hrules1
  have h2 := MainnetTable.of_checks htable2 hrules2
  induction x with
  | zero => rfl
  | succ x ih =>
    have hsame := ih fun y hy => hfree y (Nat.lt_succ_of_lt hy)
    obtain ⟨hfree1, hfree2⟩ := hfree x (Nat.lt_succ_self x)
    rw [hsame] at hfree1
    have hstep := rsStepAt_agree hpos hgrace h1 h2 hattempts (placed (x + 1))
      (by simpa [hold] using hfree1) (by simpa [hold] using hfree2)
    unfold ratchetRun
    rw [hsame, hstep]

/-- Windows of one position: epoch 1 is voted in at position 2 and activates at
position 3. -/
def shortParams : RatchetParams := { window := 1, grace := 1, timeout := 1 }

def firstVote : Deployment :=
  { epochNo := 1, rulesDigest := 7, kind := kKindVote, start := 2, timeout := 3 }

def olderTable : EpochTable Hash :=
  { compiled := [⟨0, 5, some 5⟩, ⟨1, 7, some 7⟩], attempts := [firstVote] }

def newerTable : EpochTable Hash :=
  { compiled := [⟨0, 5, some 5⟩, ⟨1, 7, some 7⟩, ⟨2, 9, some 9⟩]
    attempts := [firstVote,
      { epochNo := 2, rulesDigest := 9, kind := kKindVote, start := 4, timeout := 5 }] }

def oneBallot (x : Nat) : List RatchetPlacement :=
  if x = 2 then [{ work := 10, ballot := 1 }] else []

theorem releases_agree_after_activation :
    (ratchetRun shortParams 5 olderTable oneBallot 4).epochCur = 1 ∧
      ratchetRun shortParams 5 olderTable oneBallot 4 =
        ratchetRun shortParams 5 newerTable oneBallot 4 := by
  refine ⟨by decide +kernel, ?_⟩
  exact @releases_agree Hash shortParams (fun _ rules => some rules) id olderTable newerTable
    (by decide +kernel) (by decide +kernel) (by decide +kernel) (by decide +kernel)
    (by decide +kernel) (by decide) 5 oneBallot 4 (by decide +kernel)

end C2Pool.Xmr.PathB
