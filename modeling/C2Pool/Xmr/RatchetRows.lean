import C2Pool.Xmr.RatchetRun
import C2Pool.Xmr.RatchetSplit

/-! # Lock-ins and activations

A window that locks the next epoch in inside its attempt's range activates it a grace
period after its end, and nothing else does.  The rows that come of it extend the
activation record one by one.
-/

namespace C2Pool.Xmr.PathB

open List Nat

/-- The activation record after position `x`: every row of `rs_step_at` is appended;
nothing when one was refused. -/
def activationRecord {Rules : Type} (p : RatchetParams) (genesis : Hash) (T : EpochTable Rules)
    (placed : Nat → List RatchetPlacement) : Nat → Option ActivationRecord
  | 0 => some {}
  | x + 1 =>
    match (rsStepAt p (ratchetRun p genesis T placed x) (x + 1) (placed (x + 1)) T).row with
    | none => activationRecord p genesis T placed x
    | some row => (activationRecord p genesis T placed x).bind fun ar => ar.append row

namespace RatchetHistory

variable {Rules : Type} (H : RatchetHistory Rules) {d : Deployment} {x : Nat}

theorem epoch_at_window {x k : Nat} (hown : ownAttempt H.T (H.epoch x + 1) = some d)
    (hrange : windowInRange H.p d k = true) (hover : (k + 1) * H.p.window.val ≤ x + 1) :
    H.epoch (k * H.p.window.val - 1) = H.epoch x := by
  obtain ⟨hstart, -⟩ := windowInRange_iff.mp hrange
  have hstep : k * H.p.window.val + H.p.window.val = (k + 1) * H.p.window.val := (succ_mul _ _).symm
  exact H.epoch_since hown (by omega) (by omega)

theorem level_iff (hown : ownAttempt H.T (H.epoch x + 1) = some d) (i : Fin 4)
    (hi : 4 ≤ H.ended x + i.val) (hrange : windowInRange H.p d (H.ended x + i.val - 4) = true) :
    0 < (H.state x).levels i ↔ LocksIn H.p H.placed (H.epoch x) (H.ended x + i.val - 4) := by
  have hover : (H.ended x + i.val - 4 + 1) * H.p.window.val ≤ H.ended x * H.p.window.val :=
    mul_le_mul_right _ (by omega)
  have hle := H.ended_le x
  exact (H.tracks x).slots i hi (H.epoch_at_window hown hrange (by omega))

theorem acts_of_locksIn {x k : Nat} (hx : x + 1 < 2 ^ 64) (hbase : base H.T (H.state x) = true)
    (hown : ownAttempt H.T (H.epoch x + 1) = some d) (hrange : windowInRange H.p d k = true)
    (hlock : LocksIn H.p H.placed (H.epoch x) k)
    (hat : x + 2 = (k + 1) * H.p.window.val + H.p.grace.val) : H.acts x = some d.rulesDigest := by
  have hkept := H.kept_le
  have hone : 0 < ratchetKeptWindows H.p := succ_pos _
  have hcur : (x + 1) / H.p.window.val = k + ratchetKeptWindows H.p :=
    div_of_position H.window_pos H.grace_pos hat
  obtain ⟨rest, holdest⟩ := @keptWindows_oldest H.p (H.state x) (x + 1) k hkept hone hcur
  have hslot : H.ended x + (4 - ratchetKeptWindows H.p) - 4 = k := by
    unfold ended
    omega
  have hlevel : 0 < (H.state x).levels ⟨4 - ratchetKeptWindows H.p, by omega⟩ := by
    refine (H.level_iff hown _ ?_ ?_).mpr ?_
    · unfold ended
      simp only
      omega
    · rw [hslot]
      exact hrange
    · rw [hslot]
      exact hlock
  have hwindow : lockWindow H.p (H.state x) (x + 1) d = some k := by
    have hreached : decide (1 ≤ (H.state x).levels ⟨4 - ratchetKeptWindows H.p, by omega⟩) =
        true := decide_eq_true hlevel
    unfold lockWindow
    rw [holdest, find?_cons_of_pos (by simp [hrange, hreached])]
    rfl
  have hhact := windowHAct_of_position H.window_pos hx hat
  exact (act_eq_some_iff fun d hd => H.table.own_kind hd).mpr
    ⟨d, k, hown, hbase, hwindow, hhact, rfl⟩

theorem no_earlier_locksIn {x j k : Nat} (hx : x + 1 < 2 ^ 64)
    (hbase : base H.T (H.state x) = true) (hown : ownAttempt H.T (H.epoch x + 1) = some d)
    (hjk : j < k) (hrange : windowInRange H.p d j = true)
    (hat : x + 2 = (k + 1) * H.p.window.val + H.p.grace.val) :
    ¬ LocksIn H.p H.placed (H.epoch x) j := by
  intro hlock
  have hpos := H.window_pos
  have hgrace := H.grace_pos
  obtain ⟨hstart, -⟩ := windowInRange_iff.mp hrange
  have hstep : (j + 1) * H.p.window.val = j * H.p.window.val + H.p.window.val := succ_mul _ _
  have hle : (j + 1) * H.p.window.val + H.p.window.val ≤ (k + 1) * H.p.window.val := by
    rw [← succ_mul]
    exact mul_le_mul_right _ (by omega)
  -- `z + 1` is the activation position of the earlier window
  obtain ⟨z, hz⟩ : ∃ z, z + 2 = (j + 1) * H.p.window.val + H.p.grace.val :=
    ⟨(j + 1) * H.p.window.val + H.p.grace.val - 2, by omega⟩
  have hsame : H.epoch z = H.epoch x := H.epoch_since hown (by omega) (by omega)
  have hact := H.acts_of_locksIn (x := z) (by omega)
    ((H.base_of_epoch (by omega) hsame).trans hbase) (by rw [hsame]; exact hown) hrange
    (by rw [hsame]; exact hlock) hz
  obtain ⟨-, -, -, -, -, -, -, -, -, hmoved⟩ := H.epoch_of_some hact
  have hmono := H.epoch_mono (show z + 1 ≤ x by omega)
  omega

theorem acts_isSome_iff (hx : x + 1 < 2 ^ 64) :
    (H.acts x).isSome = true ↔ base H.T (H.state x) = true ∧
      ∃ d k, ownAttempt H.T (H.epoch x + 1) = some d ∧ windowInRange H.p d k = true ∧
        LocksIn H.p H.placed (H.epoch x) k ∧
        (∀ j, j < k → windowInRange H.p d j = true → ¬ LocksIn H.p H.placed (H.epoch x) j) ∧
        x + 2 = (k + 1) * H.p.window.val + H.p.grace.val := by
  constructor
  · intro h
    obtain ⟨g, hg⟩ := Option.isSome_iff_exists.mp h
    obtain ⟨d, k, l, hown, hbase, hmem, hl, hrange, hat, -⟩ := H.epoch_of_some hg
    obtain ⟨i, -, hcur, hw⟩ := mem_keptWindows.mp hmem
    obtain ⟨hk, hlevel⟩ := Prod.mk.inj hw
    refine ⟨hbase, d, k, hown, hrange, ?_, ?_, hat⟩
    · subst hk
      refine (H.level_iff hown i hcur hrange).mp ?_
      rw [← hlevel]
      exact lt_of_lt_of_le (by decide) hl
    · intro j hjk hjrange
      exact H.no_earlier_locksIn hx hbase hown hjk hjrange hat
  intro h
  obtain ⟨hbase, d, k, hown, hrange, hlock, -, hat⟩ := h
  rw [H.acts_of_locksIn hx hbase hown hrange hlock hat]
  rfl

/-! ## The record -/

theorem row_of_none (h : H.acts x = none) :
    (rsStepAt H.p (H.state x) (x + 1) (H.placed (x + 1)) H.T).row = none := by
  unfold acts at h
  unfold rsStepAt
  rw [h]

theorem row_of_some {g : Hash} (h : H.acts x = some g) :
    (rsStepAt H.p (H.state x) (x + 1) (H.placed (x + 1)) H.T).row =
      some { epoch := (H.state (x + 1)).epochCur, hAct := x + 1, rulesDigest := g } := by
  have hstate := H.state_of_some h
  unfold acts at h
  unfold rsStepAt
  rw [h, hstate]

/-- Each row of the record is of a later position than the one before it, and of the
next epoch. -/
def RowsAscend (rows : List ActivationRow) : Prop :=
  rows.IsChain fun a b => a.hAct < b.hAct ∧ b.epoch.val = a.epoch.val + 1

/-- The record after position `x`: one row for each epoch so far, the last one the
current epoch's. -/
structure Recorded (x : Nat) (ar : ActivationRecord) : Prop where
  length : ar.rows.length = H.epoch x
  last : ∀ r, ar.rows.getLast? = some r → r.hAct ≤ x ∧ r.epoch.val = H.epoch x
  ascend : RowsAscend ar.rows

theorem Recorded.append {H : RatchetHistory Rules} {ar : ActivationRecord}
    (h : H.Recorded x ar) {g : Hash} (hact : H.acts x = some g) :
    ∃ ar', ar.append { epoch := (H.state (x + 1)).epochCur, hAct := x + 1, rulesDigest := g } =
      some ar' ∧ H.Recorded (x + 1) ar' := by
  obtain ⟨d, k, l, hown, -, -, -, -, -, hmoved⟩ := H.epoch_of_some hact
  obtain ⟨i, -, -, hfits⟩ := H.table.own_fits hown
  have hepoch := (ownAttempt_mem hown).2
  have hmax := hfits.epoch_le
  have hroom : ¬ 2 ^ 15 ≤ ar.rows.length := by
    rw [h.length]
    omega
  have hrecorded : H.Recorded (x + 1) { ar with rows := ar.rows ++
      [{ epoch := (H.state (x + 1)).epochCur, hAct := x + 1, rulesDigest := g }] } := by
    refine ⟨?_, ?_, ?_⟩
    · simp [h.length, hmoved]
    · intro r hr
      simp only [getLast?_concat, Option.some.injEq] at hr
      subst hr
      exact ⟨le_refl _, rfl⟩
    · refine List.IsChain.append h.ascend (isChain_singleton _) ?_
      intro a ha b hb
      simp only [head?_cons, Option.mem_def, Option.some.injEq] at hb
      subst hb
      obtain ⟨hle, he⟩ := h.last a ha
      exact ⟨lt_succ_of_le hle, by rw [he]; exact hmoved⟩
  refine ⟨_, ?_, hrecorded⟩
  unfold ActivationRecord.append
  rw [if_neg hroom]
  cases hlast : ar.rows.getLast? with
  | none => rfl
  | some r =>
    obtain ⟨hle, he⟩ := h.last r hlast
    have hnext : (H.state (x + 1)).epochCur.val = r.epoch.val + 1 := by
      rw [he]
      exact hmoved
    simp only
    rw [if_neg (by omega)]

theorem recorded (x : Nat) :
    ∃ ar, activationRecord H.p H.genesis H.T H.placed x = some ar ∧ H.Recorded x ar := by
  induction x with
  | zero => exact ⟨{}, rfl, rfl, by simp, List.IsChain.nil⟩
  | succ x ih =>
    obtain ⟨ar, har, hrecorded⟩ := ih
    change ∃ ar, (match (rsStepAt H.p (H.state x) (x + 1) (H.placed (x + 1)) H.T).row with
      | none => activationRecord H.p H.genesis H.T H.placed x
      | some row => (activationRecord H.p H.genesis H.T H.placed x).bind
          fun ar => ar.append row) = some ar ∧ _
    cases hact : H.acts x with
    | none =>
      obtain ⟨hsame, -⟩ := H.epoch_of_none hact
      rw [H.row_of_none hact]
      refine ⟨ar, har, ?_, ?_, hrecorded.ascend⟩
      · rw [hsame, hrecorded.length]
      intro r hr
      obtain ⟨hle, he⟩ := hrecorded.last r hr
      exact ⟨le_succ_of_le hle, by rw [hsame, he]⟩
    | some g =>
      obtain ⟨ar', happend, hrecorded'⟩ := hrecorded.append hact
      rw [H.row_of_some hact, har]
      exact ⟨ar', happend, hrecorded'⟩

end RatchetHistory

/-- Along every history of placements, `rs_step_at` returns a row at position `x` exactly
when the base holds and `x` is a grace period after the earliest grid window inside the
next own attempt's range that locked it in; and the record takes every row. -/
theorem row_iff_lock_in {Rules : Type} {genesisDigestFor : LaneNet → Rules → Option Hash}
    {rulesDigest : Rules → Hash} {p : RatchetParams} {T : EpochTable Rules}
    (hparams : ratchetParamsValid p = true) (htable : (deploymentTableValid p .mainnet T).ok = true)
    (hrules : (laneRulesValid genesisDigestFor rulesDigest .mainnet T).ok = true) (genesis : Hash)
    (placed : Nat → List RatchetPlacement) (hwork : ∀ k, windowAll p placed k < 2 ^ 253) :
    (∀ x, 1 ≤ x → x < 2 ^ 64 →
      let s := ratchetRun p genesis T placed (x - 1)
      ((rsStepAt p s x (placed x) T).row.isSome = true ↔
        base T s = true ∧ ∃ d k, ownAttempt T (s.epochCur.val + 1) = some d ∧
          windowInRange p d k = true ∧ LocksIn p placed s.epochCur.val k ∧
          (∀ j, j < k → windowInRange p d j = true → ¬ LocksIn p placed s.epochCur.val j) ∧
          x = (k + 1) * p.window.val - 1 + p.grace.val)) ∧
    ∀ x, ∃ ar, activationRecord p genesis T placed x = some ar ∧
      RatchetHistory.RowsAscend ar.rows := by
  have htracked := MainnetTable.of_checks htable hrules
  let H : RatchetHistory Rules := ⟨p, T, genesis, placed, hparams, htracked, hwork⟩
  constructor
  · intro x hx1 hx
    obtain ⟨y, rfl⟩ : ∃ y, x = y + 1 := ⟨x - 1, by omega⟩
    have hrow : (rsStepAt p (ratchetRun p genesis T placed y) (y + 1) (placed (y + 1))
        T).row.isSome = (H.acts y).isSome := by
      cases hact : H.acts y with
      | none => exact congrArg Option.isSome (H.row_of_none hact)
      | some g => exact congrArg Option.isSome (H.row_of_some hact)
    have hpos := H.window_pos
    have hat : ∀ k, y + 2 = (k + 1) * H.p.window.val + H.p.grace.val ↔
        y + 1 = (k + 1) * p.window.val - 1 + p.grace.val := by
      intro k
      have hone : 0 < (k + 1) * H.p.window.val := mul_pos (succ_pos k) hpos
      change y + 2 = (k + 1) * H.p.window.val + H.p.grace.val ↔
        y + 1 = (k + 1) * H.p.window.val - 1 + H.p.grace.val
      omega
    rw [Nat.add_sub_cancel]
    simp only [hrow, H.acts_isSome_iff hx, hat]
    exact Iff.rfl
  intro x
  obtain ⟨ar, har, hrecorded⟩ := H.recorded x
  exact ⟨ar, har, hrecorded.ascend⟩

theorem windowAll_oneBallot (k : Nat) : windowAll shortParams oneBallot k < 2 ^ 253 := by
  have hwork : ∀ y, workOf (fun _ => true) (oneBallot y) ≤ 10 := by
    intro y
    unfold oneBallot
    split <;> decide
  have hwindow : shortParams.window.val = 1 := rfl
  have hsum := Finset.sum_le_card_nsmul (Finset.Ico (max 1 (k * 1)) ((k + 1) * 1))
    (fun y => workOf (fun _ => true) (oneBallot y)) 10 fun y _ => hwork y
  unfold windowAll spanWork
  rw [hwindow]
  rw [card_Ico] at hsum
  change _ ≤ _ * 10 at hsum
  omega

/-- The ballot at position 2 activates epoch 1 at position 3. -/
theorem row_at_three :
    base olderTable (ratchetRun shortParams 5 olderTable oneBallot 2) = true ∧
      ∃ d k, ownAttempt olderTable 1 = some d ∧ windowInRange shortParams d k = true ∧
        LocksIn shortParams oneBallot 0 k ∧
        (∀ j, j < k → windowInRange shortParams d j = true → ¬ LocksIn shortParams oneBallot 0 j) ∧
        3 = (k + 1) * 1 - 1 + 1 := by
  have hrow := (@row_iff_lock_in Hash (fun _ rules => some rules) id shortParams olderTable
    (by decide +kernel) (by decide +kernel) (by decide +kernel) 5 oneBallot
    windowAll_oneBallot).1 3 (by decide) (by decide)
  have hsome : (rsStepAt shortParams (ratchetRun shortParams 5 olderTable oneBallot 2) 3
      (oneBallot 3) olderTable).row.isSome = true := by
    decide +kernel
  have hright := hrow.mp hsome
  exact hright

end C2Pool.Xmr.PathB
