import C2Pool.Xmr.RatchetTable

/-! # When the ratchet activates

The activation predicate read through the kept windows: an activation at `x` comes
from the oldest window that the slots still hold, and `x` stands a grace period after
its end.
-/

namespace C2Pool.Xmr.PathB

open List Nat

variable {Rules : Type} {p : RatchetParams} {s : RatchetState} {x k : Nat} {d : Deployment}
  {T : EpochTable Rules}

theorem mem_drop_finRange {n : Nat} (hn : n ≤ 4) (i : Fin 4) :
    i ∈ (List.finRange 4).drop n ↔ n ≤ i.val := by
  revert n i
  decide

theorem mem_keptWindows {w : Nat × U8} :
    w ∈ keptWindows p s x ↔ ∃ i : Fin 4, 4 ≤ ratchetKeptWindows p + i.val ∧
      4 ≤ x / p.window.val + i.val ∧ w = (x / p.window.val + i.val - 4, s.levels i) := by
  unfold keptWindows
  simp only [mem_filterMap, mem_drop_finRange (sub_le 4 _)]
  constructor
  · intro h
    obtain ⟨i, hi, hw⟩ := h
    split at hw
    · simp at hw
    · simp only [Option.some.injEq] at hw
      exact ⟨i, by omega, by omega, hw.symm⟩
  intro h
  obtain ⟨i, hi, hcur, hw⟩ := h
  exact ⟨i, by omega, by rw [if_neg (by omega), hw]⟩

theorem kept_bounds {l : U8} (h : (k, l) ∈ keptWindows p s x) :
    (k + 1) * p.window.val ≤ x ∧ x / p.window.val ≤ k + ratchetKeptWindows p := by
  obtain ⟨i, hkept, hcur, hw⟩ := mem_keptWindows.mp h
  simp only [Prod.mk.injEq] at hw
  have hle : k + 1 ≤ x / p.window.val := by omega
  exact ⟨le_trans (mul_le_mul_right _ hle) (div_mul_le_self _ _), by omega⟩

theorem keptWindows_oldest (hkept : ratchetKeptWindows p ≤ 4) (hpos : 0 < ratchetKeptWindows p)
    (hcur : x / p.window.val = k + ratchetKeptWindows p) :
    ∃ rest, keptWindows p s x = (k, s.levels ⟨4 - ratchetKeptWindows p, by omega⟩) :: rest := by
  have hdrop : (List.finRange 4).drop (4 - ratchetKeptWindows p) =
      ⟨4 - ratchetKeptWindows p, by omega⟩ ::
        (List.finRange 4).drop (4 - ratchetKeptWindows p + 1) := by
    rw [drop_eq_getElem_cons (by simp; omega)]
    simp
  unfold keptWindows
  simp only [hdrop, filterMap_cons, hcur]
  rw [if_neg (by omega)]
  have hk : k + ratchetKeptWindows p + (4 - ratchetKeptWindows p) - 4 = k := by omega
  rw [hk]
  exact ⟨_, rfl⟩

theorem lockWindow_some (h : lockWindow p s x d = some k) :
    ∃ l : U8, (k, l) ∈ keptWindows p s x ∧ 1 ≤ l ∧ windowInRange p d k = true := by
  obtain ⟨w, hfind, hk⟩ := Option.map_eq_some_iff.mp h
  have hmem := mem_of_find?_eq_some hfind
  have hsat := find?_some hfind
  simp only [Bool.and_eq_true, decide_eq_true_eq] at hsat
  cases hk
  exact ⟨w.2, hmem, hsat.1, hsat.2⟩

theorem windowInRange_iff : windowInRange p d k = true ↔
    d.start.val ≤ k * p.window.val ∧ (k + 1) * p.window.val ≤ d.timeout.val := by
  simp [windowInRange]

theorem position_of_windowHAct (hpos : 0 < p.window.val) (hover : (k + 1) * p.window.val ≤ x)
    (h : windowHAct p k = x) : x + 1 = (k + 1) * p.window.val + p.grace.val := by
  have hone : 0 < (k + 1) * p.window.val := mul_pos (succ_pos k) hpos
  unfold windowHAct at h
  omega

theorem windowHAct_of_position (hpos : 0 < p.window.val) (hx : x < 2 ^ 64)
    (h : x + 1 = (k + 1) * p.window.val + p.grace.val) : windowHAct p k = x := by
  have hone : 0 < (k + 1) * p.window.val := mul_pos (succ_pos k) hpos
  unfold windowHAct
  omega

theorem windowHAct_le (hpos : 0 < p.window.val)
    (h : x + 1 = (k + 1) * p.window.val + p.grace.val) : windowHAct p k ≤ x := by
  have hone : 0 < (k + 1) * p.window.val := mul_pos (succ_pos k) hpos
  exact le_trans (mod_le _ _) (by omega)

theorem div_of_position (hpos : 0 < p.window.val) (hgrace : 0 < p.grace.val)
    (h : x + 1 = (k + 1) * p.window.val + p.grace.val) :
    x / p.window.val = k + ratchetKeptWindows p := by
  have hx : x = (p.grace.val - 1) + p.window.val * (k + 1) := by
    rw [mul_comm]
    omega
  rw [hx, add_mul_div_left _ _ hpos, ratchetKeptWindows_eq hgrace]
  omega

theorem act_eq_some_iff (hkind : ∀ d, nextAttempt T s = some d → d.kind = kKindVote) {g : Hash} :
    act p s x T = some g ↔ ∃ d k, nextAttempt T s = some d ∧ base T s = true ∧
      lockWindow p s x d = some k ∧ windowHAct p k = x ∧ d.rulesDigest = g := by
  cases hnext : nextAttempt T s with
  | none => simp [act, locked, hnext]
  | some d =>
    have hvote := hkind d hnext
    have hother : kKindVote ≠ kKindFixed := by decide
    have hact : hAct p s x T = (lockWindow p s x d).map (windowHAct p) := by
      simp [hAct, hnext, hother, hvote]
    cases hlock : lockWindow p s x d with
    | none => simp [act, locked, hnext, hother, hvote, hact, hlock]
    | some k =>
      by_cases hx : windowHAct p k = x
      · cases hbase : base T s <;> simp [act, locked, hnext, hother, hvote, hact, hlock, hbase, hx]
      · simp [act, hact, hlock, hx]

theorem act_window (htable : MainnetTable p T) (hpos : 0 < p.window.val) {g : Hash}
    (h : act p s x T = some g) :
    ∃ d k l, nextAttempt T s = some d ∧ base T s = true ∧ d.rulesDigest = g ∧
      (k, l) ∈ keptWindows p s x ∧ (1 : U8) ≤ l ∧ windowInRange p d k = true ∧
      x + 1 = (k + 1) * p.window.val + p.grace.val := by
  rw [act_eq_some_iff fun d hd => htable.own_kind hd] at h
  obtain ⟨d, k, hnext, hbase, hlock, hx, hg⟩ := h
  obtain ⟨l, hmem, hl, hrange⟩ := lockWindow_some hlock
  exact ⟨d, k, l, hnext, hbase, hg, hmem, hl, hrange,
    position_of_windowHAct hpos (kept_bounds hmem).1 hx⟩

end C2Pool.Xmr.PathB
