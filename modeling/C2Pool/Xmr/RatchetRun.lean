import C2Pool.Xmr.RatchetTally

/-! # The ratchet along a history

The state keeps four levels and the tallies of one window.  Along a history of
placements these agree with the votes themselves, for every window that started in
the current epoch.  An own attempt starts only after the activation before it, so
no other window can lock it in.
-/

namespace C2Pool.Xmr.PathB

open Nat

/-- A deployment table that passed the mainnet checks, and the receipts placed at each
position, no window of which overflows the tallies. -/
structure RatchetHistory (Rules : Type) where
  p : RatchetParams
  T : EpochTable Rules
  genesis : Hash
  placed : Nat → List RatchetPlacement
  valid : ratchetParamsValid p = true
  table : MainnetTable p T
  room : ∀ k, windowAll p placed k < 2 ^ 253

namespace RatchetHistory

variable {Rules : Type} (H : RatchetHistory Rules) {z x : Nat}

def state (x : Nat) : RatchetState := ratchetRun H.p H.genesis H.T H.placed x

def epoch (x : Nat) : Nat := (H.state x).epochCur.val

/-- The activation at position `x + 1`. -/
def acts (x : Nat) : Option Hash := act H.p (H.state x) (x + 1) H.T

theorem window_pos : 0 < H.p.window.val := (ratchetParamsValid_elim H.valid).1

theorem grace_pos : 0 < H.p.grace.val := (ratchetParamsValid_elim H.valid).2.1

theorem kept_le : ratchetKeptWindows H.p ≤ 4 := (ratchetParamsValid_elim H.valid).2.2

theorem state_of_none {x : Nat} (h : H.acts x = none) :
    H.state (x + 1) = rsStep H.p (H.state x) (x + 1) (H.placed (x + 1)) := by
  unfold acts state at h
  unfold state
  rw [ratchetRun, rsStepAt, h]

theorem state_of_some {x : Nat} {g : Hash} (h : H.acts x = some g) :
    H.state (x + 1) = rsStep H.p (activate (H.state x) g) (x + 1) (H.placed (x + 1)) := by
  unfold acts state at h
  unfold state
  rw [ratchetRun, rsStepAt, h]

theorem rsStep_epoch (p : RatchetParams) (s : RatchetState) (x : Nat)
    (placed : List RatchetPlacement) :
    (rsStep p s x placed).epochCur = s.epochCur ∧ (rsStep p s x placed).rulesCur = s.rulesCur := by
  obtain ⟨hepoch, hrules, -⟩ := placeAll_frame placed s
  unfold rsStep
  split
  · exact ⟨hepoch, hrules⟩
  · exact ⟨hepoch, hrules⟩

theorem epoch_of_none {x : Nat} (h : H.acts x = none) :
    H.epoch (x + 1) = H.epoch x ∧ (H.state (x + 1)).rulesCur = (H.state x).rulesCur := by
  have hframe := rsStep_epoch H.p (H.state x) (x + 1) (H.placed (x + 1))
  unfold epoch
  rw [H.state_of_none h, hframe.1, hframe.2]
  exact ⟨rfl, rfl⟩

theorem epoch_of_some {x : Nat} {g : Hash} (h : H.acts x = some g) :
    ∃ d k l, ownAttempt H.T (H.epoch x + 1) = some d ∧ base H.T (H.state x) = true ∧
      (k, l) ∈ keptWindows H.p (H.state x) (x + 1) ∧ (1 : U8) ≤ l ∧
      windowInRange H.p d k = true ∧ x + 2 = (k + 1) * H.p.window.val + H.p.grace.val ∧
      H.epoch (x + 1) = H.epoch x + 1 := by
  obtain ⟨d, k, l, hnext, hbase, -, hmem, hl, hrange, hx⟩ := act_window H.table H.window_pos h
  refine ⟨d, k, l, hnext, hbase, hmem, hl, hrange, hx, ?_⟩
  have hframe := rsStep_epoch H.p (activate (H.state x) g) (x + 1) (H.placed (x + 1))
  have hepoch := (ownAttempt_mem hnext).2
  unfold epoch
  rw [H.state_of_some h, hframe.1]
  change ((H.state x).epochCur + 1).val = _
  rw [Fin.val_add_one_of_lt']
  omega

theorem epoch_step (x : Nat) : H.epoch x ≤ H.epoch (x + 1) := by
  cases h : H.acts x with
  | none => exact le_of_eq (H.epoch_of_none h).1.symm
  | some g =>
    obtain ⟨d, k, l, -, -, -, -, -, -, hepoch⟩ := H.epoch_of_some h
    omega

theorem epoch_mono (h : z ≤ x) : H.epoch z ≤ H.epoch x := by
  induction x, h using le_induction with
  | base => exact le_refl _
  | succ x hzx ih => exact le_trans ih (H.epoch_step x)

theorem rules_of_epoch (h : z ≤ x) (hepoch : H.epoch z = H.epoch x) :
    (H.state z).rulesCur = (H.state x).rulesCur := by
  induction x, h using le_induction with
  | base => rfl
  | succ x hzx ih =>
    cases hact : H.acts x with
    | none =>
      obtain ⟨hsame, hrules⟩ := H.epoch_of_none hact
      rw [ih (by omega), hrules]
    | some g =>
      obtain ⟨d, k, l, -, -, -, -, -, -, hmoved⟩ := H.epoch_of_some hact
      have hle := H.epoch_mono hzx
      omega

theorem base_of_epoch (h : z ≤ x) (hepoch : H.epoch z = H.epoch x) :
    base H.T (H.state z) = base H.T (H.state x) := by
  have hrules := H.rules_of_epoch h hepoch
  unfold epoch at hepoch
  unfold base
  rw [hrules, hepoch]

theorem epoch_since {d : Deployment} (hown : ownAttempt H.T (H.epoch x + 1) = some d)
    (hstart : d.start.val ≤ z + 1) (h : z ≤ x) : H.epoch z = H.epoch x := by
  induction x, h using le_induction generalizing d with
  | base => rfl
  | succ x hzx ih =>
    cases hact : H.acts x with
    | none =>
      obtain ⟨hsame, -⟩ := H.epoch_of_none hact
      rw [hsame] at hown ⊢
      exact ih hown hstart
    | some g =>
      obtain ⟨old, k, l, hold, -, -, -, hrange, hx, hmoved⟩ := H.epoch_of_some hact
      obtain ⟨-, hend⟩ := windowInRange_iff.mp hrange
      rw [hmoved] at hown
      have hspaced := H.table.own_spaced hold hown
      omega

/-! ## The votes behind the state -/

/-- The number of grid windows that are over after position `x`. -/
def ended (x : Nat) : Nat := (x + 1) / H.p.window.val

theorem ended_le (x : Nat) : H.ended x * H.p.window.val ≤ x + 1 := div_mul_le_self _ _

theorem lt_ended (x : Nat) : x + 1 < (H.ended x + 1) * H.p.window.val := by
  rw [mul_comm]
  exact lt_mul_div_succ _ H.window_pos

theorem ended_of_end (h : ratchetWindowEnd H.p (x + 1) = true) :
    (H.ended x + 1) * H.p.window.val = x + 2 ∧ H.ended (x + 1) = H.ended x + 1 := by
  have hpos := H.window_pos
  have hdiv := Nat.div_add_mod' (x + 1) H.p.window.val
  simp only [ratchetWindowEnd, decide_eq_true_eq] at h
  have hend : (H.ended x + 1) * H.p.window.val = x + 2 := by
    rw [succ_mul, ended]
    omega
  refine ⟨hend, ?_⟩
  unfold ended at hend ⊢
  rw [show x + 1 + 1 = x + 2 from rfl, ← hend, Nat.mul_div_cancel _ hpos]

theorem ended_of_inner (h : ratchetWindowEnd H.p (x + 1) = false) :
    H.ended (x + 1) = H.ended x := by
  have hpos := H.window_pos
  have hdiv := Nat.div_add_mod' (x + 1) H.p.window.val
  have hlt := Nat.mod_lt (x + 1) hpos
  simp only [ratchetWindowEnd, decide_eq_false_iff_not] at h
  unfold ended
  rw [Nat.div_eq_iff hpos]
  omega

/-- After position `x`, the tallies are those of the window under way and the slots
hold the levels of the windows before it, as far as these started in the current
epoch. -/
structure Tracks (x : Nat) : Prop where
  all : (H.state x).all.toNat =
    spanWork (fun _ => true) H.placed (H.ended x * H.p.window.val) (x + 1)
  y2_le : (H.state x).y2.toNat ≤ (H.state x).y1.toNat
  y1_le : (H.state x).y1.toNat ≤ (H.state x).all.toNat
  y1 : H.epoch (H.ended x * H.p.window.val - 1) = H.epoch x →
    (H.state x).y1.toNat =
      spanWork (votesAbove (H.epoch x)) H.placed (H.ended x * H.p.window.val) (x + 1)
  slots : ∀ i : Fin 4, 4 ≤ H.ended x + i.val →
    H.epoch ((H.ended x + i.val - 4) * H.p.window.val - 1) = H.epoch x →
    (0 < (H.state x).levels i ↔ LocksIn H.p H.placed (H.epoch x) (H.ended x + i.val - 4))

theorem tracks_genesis : H.Tracks 0 := by
  have hempty : ∀ P, spanWork P H.placed (H.ended 0 * H.p.window.val) (0 + 1) = 0 :=
    fun P => spanWork_empty P H.placed (by omega)
  refine ⟨(hempty _).symm, le_refl _, le_refl _, fun _ => (hempty _).symm, ?_⟩
  intro i hi _
  have hover := H.ended_le 0
  have hall : windowAll H.p H.placed (H.ended 0 + i.val - 4) = 0 := by
    apply spanWork_empty
    have hle : (H.ended 0 + i.val - 4 + 1) * H.p.window.val ≤ H.ended 0 * H.p.window.val :=
      mul_le_mul_right _ (by omega)
    omega
  have hnot : ¬ LocksIn H.p H.placed (H.epoch 0) (H.ended 0 + i.val - 4) := by
    intro h
    exact absurd h.1 (by omega)
  refine iff_of_false ?_ hnot
  exact lt_irrefl (0 : U8)

/-- The state with the receipts of position `x + 1` placed. -/
structure Placed (x : Nat) (s : RatchetState) : Prop where
  all : s.all.toNat = spanWork (fun _ => true) H.placed (H.ended x * H.p.window.val) (x + 2)
  y2_le : s.y2.toNat ≤ s.y1.toNat
  y1_le : s.y1.toNat ≤ s.all.toNat
  y1 : H.epoch (H.ended x * H.p.window.val - 1) = H.epoch (x + 1) →
    s.y1.toNat =
      spanWork (votesAbove (H.epoch (x + 1))) H.placed (H.ended x * H.p.window.val) (x + 2)
  slots : ∀ i : Fin 4, 4 ≤ H.ended x + i.val →
    H.epoch ((H.ended x + i.val - 4) * H.p.window.val - 1) = H.epoch (x + 1) →
    (0 < s.levels i ↔ LocksIn H.p H.placed (H.epoch (x + 1)) (H.ended x + i.val - 4))

theorem Placed.close {H : RatchetHistory Rules} {s : RatchetState} (h : H.Placed x s)
    (hstate : H.state (x + 1) = if ratchetWindowEnd H.p (x + 1) then closeWindow s else s) :
    H.Tracks (x + 1) := by
  by_cases hend : ratchetWindowEnd H.p (x + 1) = true
  · rw [if_pos hend] at hstate
    obtain ⟨hedge, hover⟩ := H.ended_of_end hend
    have hempty : ∀ P, spanWork P H.placed (H.ended (x + 1) * H.p.window.val) (x + 1 + 1) = 0 := by
      intro P
      rw [hover, hedge]
      exact spanWork_empty P H.placed (by omega)
    refine ⟨?_, ?_, ?_, ?_, ?_⟩
    · rw [hstate, hempty]
      rfl
    · rw [hstate]
      exact le_refl _
    · rw [hstate]
      exact le_refl _
    · intro _
      rw [hstate, hempty]
      rfl
    · intro i hi hguard
      rw [hstate]
      by_cases hlast : i.val + 1 < 4
      · have hslot : (closeWindow s).levels i = s.levels ⟨i.val + 1, hlast⟩ := dif_pos hlast
        have hshift : H.ended (x + 1) + i.val - 4 = H.ended x + (i.val + 1) - 4 := by omega
        rw [hshift] at hguard ⊢
        rw [hslot]
        exact h.slots ⟨i.val + 1, hlast⟩ (by simp only; omega) hguard
      have hslot : (closeWindow s).levels i = windowLevel s := dif_neg hlast
      have hshift : H.ended (x + 1) + i.val - 4 = H.ended x := by omega
      rw [hshift] at hguard ⊢
      have hall : s.all.toNat = windowAll H.p H.placed (H.ended x) := by
        rw [h.all, windowAll, hedge]
      have hyes : s.y1.toNat = windowYes H.p H.placed (H.epoch (x + 1)) (H.ended x) := by
        rw [h.y1 hguard, windowYes, hedge]
      have hroom := H.room (H.ended x)
      rw [hslot, windowLevel_pos h.y2_le h.y1_le (by omega), hall, hyes]
      exact Iff.rfl
  · have hinner : ratchetWindowEnd H.p (x + 1) = false := by simpa using hend
    rw [if_neg hend] at hstate
    have hover := H.ended_of_inner hinner
    refine ⟨?_, ?_, ?_, ?_, ?_⟩
    · rw [hstate, hover]
      exact h.all
    · rw [hstate]
      exact h.y2_le
    · rw [hstate]
      exact h.y1_le
    · rw [hstate, hover]
      exact h.y1
    · rw [hstate, hover]
      exact h.slots

theorem Tracks.place {H : RatchetHistory Rules} {x : Nat} (h : H.Tracks x) {s : RatchetState}
    (hall : s.all = (H.state x).all) (hy2 : s.y2.toNat ≤ s.y1.toNat)
    (hy1 : s.y1.toNat ≤ s.all.toNat) :
    ((H.placed (x + 1)).foldl placeOne s).all.toNat =
        spanWork (fun _ => true) H.placed (H.ended x * H.p.window.val) (x + 2) ∧
      ((H.placed (x + 1)).foldl placeOne s).y1.toNat =
        s.y1.toNat + workOf (votesAbove s.epochCur.val) (H.placed (x + 1)) ∧
      ((H.placed (x + 1)).foldl placeOne s).y2.toNat ≤
        ((H.placed (x + 1)).foldl placeOne s).y1.toNat ∧
      ((H.placed (x + 1)).foldl placeOne s).y1.toNat ≤
        ((H.placed (x + 1)).foldl placeOne s).all.toNat := by
  have hsum : spanWork (fun _ => true) H.placed (H.ended x * H.p.window.val) (x + 2) =
      s.all.toNat + workOf (fun _ => true) (H.placed (x + 1)) := by
    rw [spanWork_succ _ _ (H.ended_le x) (by omega), hall, h.all]
  have hbound : spanWork (fun _ => true) H.placed (H.ended x * H.p.window.val) (x + 2) ≤
      windowAll H.p H.placed (H.ended x) := spanWork_mono _ _ _ (H.lt_ended x)
  have hroom := H.room (H.ended x)
  rw [hsum]
  exact placeAll_tallies hy2 hy1 (by omega)

theorem Tracks.step {H : RatchetHistory Rules} {x : Nat} (h : H.Tracks x) : H.Tracks (x + 1) := by
  have hover := H.ended_le x
  cases hact : H.acts x with
  | none =>
    obtain ⟨hepoch, -⟩ := H.epoch_of_none hact
    obtain ⟨hall, hone, htwo, hle⟩ := h.place rfl h.y2_le h.y1_le
    refine Placed.close ⟨hall, htwo, hle, ?_, ?_⟩ (H.state_of_none hact)
    · intro hguard
      rw [hepoch] at hguard ⊢
      rw [hone, h.y1 hguard, spanWork_succ _ _ hover (by omega)]
      rfl
    intro i hi hguard
    rw [hepoch] at hguard ⊢
    rw [(placeAll_frame _ _).2.2]
    exact h.slots i hi hguard
  | some g =>
    -- every window that is not over yet or was kept started before the new epoch
    obtain ⟨d, k, l, -, -, -, -, -, -, hmoved⟩ := H.epoch_of_some hact
    have hearlier : ∀ z, z ≤ x → H.epoch z ≠ H.epoch (x + 1) := by
      intro z hz heq
      have hle := H.epoch_mono hz
      omega
    obtain ⟨hall, -, htwo, hle⟩ := @Tracks.place _ H x h (activate (H.state x) g) rfl
      (zero_le _) (le_trans h.y2_le h.y1_le)
    refine Placed.close ⟨hall, htwo, hle, ?_, ?_⟩ (H.state_of_some hact)
    · intro hguard
      exact absurd hguard (hearlier _ (by omega))
    intro i hi hguard
    have hle' : (H.ended x + i.val - 4) * H.p.window.val ≤ H.ended x * H.p.window.val :=
      mul_le_mul_right _ (by omega)
    exact absurd hguard (hearlier _ (by omega))

theorem tracks {H : RatchetHistory Rules} (x : Nat) : H.Tracks x := by
  induction x with
  | zero => exact H.tracks_genesis
  | succ x ih => exact ih.step

end RatchetHistory

end C2Pool.Xmr.PathB
