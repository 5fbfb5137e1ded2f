import C2Pool.Sharechain.TrackerView

/-! # Reference groups of the tracker view

The four tables of a view describe one partition: each item is in the group of one live reference,
each live reference has a group and a tail of its own.
-/

namespace C2Pool.Sharechain.TrackerView

open FiniteMap Relation Finmap

variable {H : Type} [DecidableEq H] {E : H → H → Prop} {v : TrackerView H} {x : H}
  {δ δr : AttributeDelta H} {r : Nat} {keep pending : Option Nat}

/-- The tables agree.  Every live reference other than `pending` has a
non-empty group, and its tail descends from the hash it was created at along
the previous-hash relation `E`. -/
structure RefsOk (E : H → H → Prop) (v : TrackerView H) (pending : Option Nat) : Prop where
  entry : ∀ x δ r, v.deltas.lookup x = some (δ, r) → r ∈ v.deltaRefs
  group : ∀ r x, x ∈ row v.reverseDeltas r ↔ ∃ δ, v.deltas.lookup x = some (δ, r)
  tails : ∀ t r, v.reverseDeltaRefs.lookup t = some r ↔
    ∃ δ, v.deltaRefs.lookup r = some δ ∧ δ.tail = t
  gen : ∀ r ∈ v.deltaRefs, r < v.refGen
  base : ∀ r δ, v.deltaRefs.lookup r = some δ → ReflTransGen E δ.tail δ.head
  live : ∀ r ∈ v.deltaRefs, some r ≠ pending → (row v.reverseDeltas r).Nonempty

theorem empty_refsOk : RefsOk E (empty : TrackerView H) none := by
  constructor <;> simp [empty, row, notMem_empty]

theorem cached_congr {v' : TrackerView H} (hentry : v'.deltas.lookup x = v.deltas.lookup x)
    (href : ∀ δ r, v.deltas.lookup x = some (δ, r) →
      v'.deltaRefs.lookup r = v.deltaRefs.lookup r) : v'.cached x = v.cached x := by
  unfold cached
  rw [hentry]
  cases hx : v.deltas.lookup x with
  | none => rfl
  | some entry =>
    show (v'.deltaRefs.lookup entry.2).map _ = (v.deltaRefs.lookup entry.2).map _
    rw [href entry.1 entry.2 hx]

theorem cached_eq_some {d : AttributeDelta H}
    (h : v.cached x = some d) : ∃ δ r δr, v.deltas.lookup x = some (δ, r) ∧
      v.deltaRefs.lookup r = some δr ∧ d = δ + δr := by
  rcases Option.bind_eq_some_iff.mp h with ⟨⟨δ, r⟩, hx, hmap⟩
  rcases Option.map_eq_some_iff.mp hmap with ⟨δr, hr, rfl⟩
  exact ⟨δ, r, δr, hx, hr, rfl⟩

theorem cached_of_lookup (hx : v.deltas.lookup x = some (δ, r))
    (hr : v.deltaRefs.lookup r = some δr) : v.cached x = some (δ + δr) := by
  simp [cached, hx, hr]

theorem RefsOk.tail_inj (h : RefsOk E v pending)
    {r' : Nat} {δ' : AttributeDelta H} (hr : v.deltaRefs.lookup r = some δ)
    (hr' : v.deltaRefs.lookup r' = some δ') (htail : δ.tail = δ'.tail) : r = r' := by
  have h1 := (h.tails δ.tail r).mpr ⟨δ, hr, rfl⟩
  have h2 := (h.tails δ.tail r').mpr ⟨δ', hr', htail.symm⟩
  exact Option.some.inj (h1.symm.trans h2)

theorem RefsOk.lookup_refGen (h : RefsOk E v pending) : v.deltaRefs.lookup v.refGen = none := by
  rw [lookup_eq_none]
  intro hmem
  exact absurd (h.gen _ hmem) (lt_irrefl _)

theorem ensureRef_spec (h : RefsOk E v none) (tail : H) :
    RefsOk E (v.ensureRef tail).1 (some (v.ensureRef tail).2) ∧
      (∃ δ, (v.ensureRef tail).1.deltaRefs.lookup (v.ensureRef tail).2 = some δ ∧ δ.tail = tail) ∧
      ∀ x, (v.ensureRef tail).1.cached x = v.cached x := by
  unfold ensureRef
  cases htail : v.reverseDeltaRefs.lookup tail with
  | some ref =>
    refine ⟨{ h with live := ?_ }, (h.tails tail ref).mp htail, ?_⟩
    · intro r hr _
      exact h.live r hr (by simp)
    · intro x
      rfl
  | none =>
    have hfresh := h.lookup_refGen
    have hold : ∀ r, r ∈ v.deltaRefs → r ≠ v.refGen := fun r hr => (h.gen r hr).ne
    refine ⟨?_, ⟨.getNone tail, by simp, rfl⟩, ?_⟩
    · constructor
      · intro x δ r hx
        exact mem_insert.mpr (.inr (h.entry x δ r hx))
      · exact h.group
      · intro t r
        simp only [lookup_insert_ite]
        by_cases ht : t = tail
        · subst ht
          rw [if_pos rfl]
          by_cases hr : r = v.refGen
          · subst hr
            simp [AttributeDelta.getNone]
          rw [if_neg hr]
          constructor
          · intro heq
            exact absurd (Option.some.inj heq).symm hr
          intro hδ
          have := (h.tails t r).mpr hδ
          rw [htail] at this
          cases this
        rw [if_neg ht]
        by_cases hr : r = v.refGen
        · subst hr
          rw [if_pos rfl, h.tails, hfresh]
          simp [AttributeDelta.getNone, Ne.symm ht]
        · rw [if_neg hr]
          exact h.tails t r
      · intro r hr
        show r < v.refGen + 1
        rcases mem_insert.mp hr with hr | hr
        · omega
        · have := h.gen r hr
          omega
      · intro r δ hr
        simp only [lookup_insert_ite] at hr
        split at hr
        · cases hr
          exact ReflTransGen.refl
        · exact h.base r δ hr
      · intro r hr hne
        rcases mem_insert.mp hr with hr | hr
        · exact absurd (congrArg some hr) hne
        · exact h.live r hr (by simp)
    · intro x
      refine cached_congr ?_ ?_
      · rfl
      · intro δ r hx
        exact lookup_insert_of_ne _ (hold r (h.entry x δ r hx))

/-! ## Leaving and joining a group -/

theorem leaveGroup_deltas (v : TrackerView H) (x : H) (keep : Option Nat) (y : H) :
    (v.leaveGroup x keep).deltas.lookup y = if y = x then none else v.deltas.lookup y := by
  unfold leaveGroup dropRef
  cases hx : v.deltas.lookup x with
  | none =>
    by_cases hy : y = x
    · subst hy
      simp [hx]
    · simp [hy]
  | some entry =>
    simp only
    split
    · split <;> exact lookup_erase_ite _ _ _
    · exact lookup_erase_ite _ _ _

theorem leaveGroup_eq_drop (hx : v.deltas.lookup x = some (δ, r))
    (hr : v.deltaRefs.lookup r = some δr) (hempty : (row v.reverseDeltas r).erase x = ∅)
    (hkeep : some r ≠ keep) :
    v.leaveGroup x keep =
      { v with
        deltas := v.deltas.erase x
        reverseDeltas := v.reverseDeltas.erase r
        reverseDeltaRefs := v.reverseDeltaRefs.erase δr.tail
        deltaRefs := v.deltaRefs.erase r } := by
  have herase : (v.reverseDeltas.insert r ∅).erase r = v.reverseDeltas.erase r := by
    apply ext_lookup
    intro k
    rw [lookup_erase_ite, lookup_erase_ite, lookup_insert_ite]
    split <;> rfl
  simp [leaveGroup, dropRef, hx, hempty, hkeep, hr, herase]

theorem leaveGroup_eq_stay (hx : v.deltas.lookup x = some (δ, r))
    (hstay : ¬ ((row v.reverseDeltas r).erase x = ∅ ∧ some r ≠ keep)) :
    v.leaveGroup x keep =
      { v with
        deltas := v.deltas.erase x
        reverseDeltas := v.reverseDeltas.insert r ((row v.reverseDeltas r).erase x) } := by
  simp only [leaveGroup, hx]
  rw [if_neg hstay]

theorem cached_of_left {v' : TrackerView H} (hdel : v'.deltas = v.deltas.erase x)
    (href : ∀ y, y ≠ x → ∀ δ' r', v.deltas.lookup y = some (δ', r') →
      v'.deltaRefs.lookup r' = v.deltaRefs.lookup r') (y : H) :
    v'.cached y = if y = x then none else v.cached y := by
  by_cases hy : y = x
  · subst hy
    simp [cached, hdel]
  rw [if_neg hy]
  apply cached_congr
  · rw [hdel, lookup_erase_ne hy]
  · exact href y hy

section Leave

variable (h : RefsOk E v keep) (hx : v.deltas.lookup x = some (δ, r))
include h

theorem RefsOk.eq_of_last (hempty : (row v.reverseDeltas r).erase x = ∅) {y : H}
    {δ' : AttributeDelta H} (hy : v.deltas.lookup y = some (δ', r)) : y = x := by
  by_contra hne
  have hmem : y ∈ (row v.reverseDeltas r).erase x :=
    Finset.mem_erase.mpr ⟨hne, (h.group r y).mpr ⟨δ', hy⟩⟩
  rw [hempty] at hmem
  exact absurd hmem (Finset.notMem_empty y)

include hx

/-- The group of `r` goes with its last member. -/
theorem RefsOk.drop (hr : v.deltaRefs.lookup r = some δr)
    (hempty : (row v.reverseDeltas r).erase x = ∅) (hkeep : some r ≠ keep) :
    RefsOk E (v.leaveGroup x keep) keep := by
  rw [leaveGroup_eq_drop hx hr hempty hkeep]
  constructor
  · intro y δ' r' hy
    simp only [lookup_erase_ite] at hy
    split at hy
    · cases hy
    rename_i hyx
    refine mem_erase.mpr ⟨?_, h.entry y δ' r' hy⟩
    intro hrr
    exact hyx (h.eq_of_last hempty (hrr ▸ hy))
  · intro r' y
    simp only [row_erase, lookup_erase_ite]
    by_cases hrr : r' = r
    · subst hrr
      simp only [if_pos, Finset.notMem_empty, false_iff]
      intro hy
      rcases hy with ⟨δ', hy⟩
      split at hy
      · cases hy
      · rename_i hyx
        exact hyx (h.eq_of_last hempty hy)
    rw [if_neg hrr, h.group]
    by_cases hyx : y = x
    · subst hyx
      simp [hx, Ne.symm hrr]
    · simp [hyx]
  · intro t r'
    simp only [lookup_erase_ite]
    by_cases hrr : r' = r
    · subst hrr
      by_cases ht : t = δr.tail
      · simp [ht]
      have : v.reverseDeltaRefs.lookup t ≠ some r' := by
        intro hsome
        rcases (h.tails t r').mp hsome with ⟨δ', hδ', htail⟩
        rw [hr] at hδ'
        cases hδ'
        exact ht htail.symm
      simp [ht, this]
    rw [if_neg hrr, ← h.tails t r']
    by_cases ht : t = δr.tail
    · rw [if_pos ht]
      have hthis := (h.tails t r).mpr ⟨δr, hr, ht.symm⟩
      simp [hthis, Ne.symm hrr]
    · rw [if_neg ht]
  · intro r' hr'
    exact h.gen r' (mem_erase.mp hr').2
  · intro r' δ' hr'
    simp only [lookup_erase_ite] at hr'
    split at hr'
    · cases hr'
    · exact h.base r' δ' hr'
  · intro r' hr' hne
    rcases mem_erase.mp hr' with ⟨hrr, hmem⟩
    simp only [row_erase, if_neg hrr]
    exact h.live r' hmem hne

/-- The group of `r` stays, without `x`. -/
theorem RefsOk.stay (hstay : ¬ ((row v.reverseDeltas r).erase x = ∅ ∧ some r ≠ keep)) :
    RefsOk E (v.leaveGroup x keep) keep := by
  rw [leaveGroup_eq_stay hx hstay]
  refine ⟨?_, ?_, h.tails, h.gen, h.base, ?_⟩
  · intro y δ' r' hy
    simp only [lookup_erase_ite] at hy
    split at hy
    · cases hy
    · exact h.entry y δ' r' hy
  · intro r' y
    simp only [row_insert, lookup_erase_ite]
    by_cases hrr : r' = r
    · subst hrr
      rw [if_pos rfl, Finset.mem_erase, h.group]
      by_cases hyx : y = x
      · simp [hyx]
      · simp [hyx]
    rw [if_neg hrr, h.group]
    by_cases hyx : y = x
    · subst hyx
      simp [hx, Ne.symm hrr]
    · simp [hyx]
  · intro r' hr' hne
    simp only [row_insert]
    by_cases hrr : r' = r
    · subst hrr
      rw [if_pos rfl]
      apply Finset.nonempty_iff_ne_empty.mpr
      intro hempty
      exact hstay ⟨hempty, hne⟩
    · rw [if_neg hrr]
      exact h.live r' hr' hne

end Leave

theorem leaveGroup_spec (h : RefsOk E v keep) (x : H) :
    RefsOk E (v.leaveGroup x keep) keep ∧
      (∀ r, some r = keep → (v.leaveGroup x keep).deltaRefs.lookup r = v.deltaRefs.lookup r) ∧
      ∀ y, (v.leaveGroup x keep).cached y = if y = x then none else v.cached y := by
  cases hx : v.deltas.lookup x with
  | none =>
    have hself : v.leaveGroup x keep = v := by simp [leaveGroup, hx]
    rw [hself]
    refine ⟨h, fun _ _ => rfl, ?_⟩
    intro y
    split
    · rename_i hy
      subst hy
      simp [cached, hx]
    · rfl
  | some entry =>
    rcases entry with ⟨δ, r⟩
    rcases mem_iff.mp (h.entry x δ r hx) with ⟨δr, hr⟩
    by_cases hstay : (row v.reverseDeltas r).erase x = ∅ ∧ some r ≠ keep
    · refine ⟨h.drop hx hr hstay.1 hstay.2, ?_⟩
      rw [leaveGroup_eq_drop hx hr hstay.1 hstay.2]
      constructor
      · intro r' hkeep
        apply lookup_erase_ne
        intro hrr
        exact hstay.2 (hrr ▸ hkeep)
      · apply cached_of_left rfl
        intro y hy δ' r' hlook
        apply lookup_erase_ne
        intro hrr
        exact hy (h.eq_of_last hstay.1 (hrr ▸ hlook))
    · refine ⟨h.stay hx hstay, ?_⟩
      rw [leaveGroup_eq_stay hx hstay]
      exact ⟨fun _ _ => rfl, cached_of_left rfl fun _ _ _ _ _ => rfl⟩

theorem joinGroup_spec (h : RefsOk E v (some r)) (hx : v.deltas.lookup x = none)
    (hr : v.deltaRefs.lookup r = some δr) :
    RefsOk E (v.joinGroup x δ r) none ∧
      ∀ y, (v.joinGroup x δ r).cached y = if y = x then some (δ + δr) else v.cached y := by
  unfold joinGroup
  constructor
  · constructor
    · intro y δ' r' hy
      simp only [lookup_insert_ite] at hy
      split at hy
      · cases hy
        exact mem_of_lookup_eq_some hr
      · exact h.entry y δ' r' hy
    · intro r' y
      simp only [row_insert, lookup_insert_ite]
      by_cases hyx : y = x
      · subst hyx
        have hnot : ∀ r', y ∉ row v.reverseDeltas r' := by
          intro r' hmem
          rcases (h.group r' y).mp hmem with ⟨δ', hδ'⟩
          rw [hx] at hδ'
          cases hδ'
        by_cases hrr : r' = r
        · simp [hrr]
        · simp [hrr, hnot, Ne.symm hrr]
      by_cases hrr : r' = r
      · subst hrr
        simp [hyx, h.group]
      · simp [hyx, hrr, h.group]
    · exact h.tails
    · exact h.gen
    · exact h.base
    · intro r' hr' _
      simp only [row_insert]
      by_cases hrr : r' = r
      · rw [if_pos hrr]
        exact ⟨x, Finset.mem_insert_self _ _⟩
      · rw [if_neg hrr]
        exact h.live r' hr' fun heq => hrr (Option.some.inj heq)
  · intro y
    by_cases hyx : y = x
    · subst hyx
      rw [if_pos rfl]
      exact cached_of_lookup (by simp) hr
    · rw [if_neg hyx]
      exact cached_congr (lookup_insert_of_ne _ hyx) fun _ _ _ => rfl

def SameReading (d d' : AttributeDelta H) : Prop :=
  d.tail = d'.tail ∧ d.height = d'.height ∧ d.work = d'.work ∧ d.minWork = d'.minWork

theorem sub_add_sameReading (d d' : AttributeDelta H) (htail : d'.tail = d.tail) :
    SameReading (d - d' + d') d := by
  refine ⟨htail, ?_, ?_, ?_⟩
  · show d.height - d'.height + d'.height = d.height
    omega
  · exact sub_add_cancel d.work d'.work
  · exact sub_add_cancel d.minWork d'.minWork

/-- `_set_delta_locked` changes what is seen of the item set, and of nothing
else. -/
theorem setDeltaLocked_spec (h : RefsOk E v none) (x : H) (delta : AttributeDelta H) :
    RefsOk E (v.setDeltaLocked x delta) none ∧
      (∃ d, (v.setDeltaLocked x delta).cached x = some d ∧ SameReading d delta) ∧
      ∀ y, y ≠ x → (v.setDeltaLocked x delta).cached y = v.cached y := by
  rcases ensureRef_spec h delta.tail with ⟨hensure, ⟨δr, hr, htail⟩, hcached⟩
  rcases leaveGroup_spec hensure x with ⟨hleave, hkept, hleft⟩
  have hnone := leaveGroup_deltas (v.ensureRef delta.tail).1 x (some (v.ensureRef delta.tail).2) x
  rw [if_pos rfl] at hnone
  have hr' := (hkept _ rfl).trans hr
  have hjoin := joinGroup_spec (δ := delta - δr) hleave hnone hr'
  have hset : v.setDeltaLocked x delta =
      ((v.ensureRef delta.tail).1.leaveGroup x (some (v.ensureRef delta.tail).2)).joinGroup x
        (delta - δr) (v.ensureRef delta.tail).2 := by
    simp [setDeltaLocked, hr]
  rw [hset]
  refine ⟨hjoin.1, ⟨delta - δr + δr, ?_, sub_add_sameReading delta δr htail⟩, ?_⟩
  · rw [hjoin.2, if_pos rfl]
  · intro y hy
    rw [hjoin.2, if_neg hy, hleft, if_neg hy, hcached]

end C2Pool.Sharechain.TrackerView
