import C2Pool.Sharechain.ViewQueries

/-! # Removal signals of the tracker view

Before a share leaves `m_shares` the view must lose every cached delta whose
way passes over it.  A removed head is on nobody else's way.  A removed tail
child is on the way of exactly the items whose delta ends at its parent: with
siblings that group is dropped, and without them its reference moves up to the
removed share, after the items that referred to that share itself have been
walked again.
-/

namespace C2Pool.Sharechain.TrackerView

open List FiniteMap ParentForest Relation Finmap

variable {H S : Type} [DecidableEq H] {E : H → H → Prop} {v : TrackerView H}

/-- Every cached delta spans a way that does not pass over `h`. -/
def Avoids (c : Forest H S) (h : H) (v : TrackerView H) : Prop :=
  ∀ y d, v.cached y = some d →
    ∃ n, 1 ≤ n ∧ Spans c n y d ∧ ∀ m < n, ancestor c.parent m y ≠ some h

theorem Avoids.valuesOk {c c' : Forest H S} {h : H} (hv : Avoids c h v)
    (hshares : c'.shares = c.shares.erase h) : ValuesOk c' v := by
  intro y d hy
  rcases hv y d hy with ⟨n, hn, hspan, havoid⟩
  refine ⟨n, hn, hspan.congr ?_⟩
  intro m z hm hz
  rw [hshares]
  apply lookup_erase_ne
  intro hzh
  exact havoid m hm (hzh ▸ hz)

/-- `handle_removed` forgets the removed share, which is enough when every
other item avoids it already. -/
theorem handleRemoved_spec {c : Forest H S} {h : H} (hr : RefsOk E v none)
    (hv : ∀ y d, y ≠ h → v.cached y = some d →
      ∃ n, 1 ≤ n ∧ Spans c n y d ∧ ∀ m < n, ancestor c.parent m y ≠ some h) :
    RefsOk E (v.handleRemoved h) none ∧ Avoids c h (v.handleRemoved h) := by
  rcases leaveGroup_spec hr h with ⟨hr', -, hcached⟩
  refine ⟨hr', ?_⟩
  intro y d hy
  unfold handleRemoved at hy
  rw [hcached] at hy
  split at hy
  · cases hy
  · rename_i hyh
    exact hv y d hyh hy

theorem ValuesOk.avoids_childless {c : Forest H S} {h : H}
    (hv : ValuesOk c v) (hchild : ∀ y, c.parent y ≠ some h) {y : H} {d : AttributeDelta H}
    (hyh : y ≠ h) (hy : v.cached y = some d) :
    ∃ n, 1 ≤ n ∧ Spans c n y d ∧ ∀ m < n, ancestor c.parent m y ≠ some h := by
  rcases hv y d hy with ⟨n, hn, hspan⟩
  refine ⟨n, hn, hspan, ?_⟩
  intro m _ hm
  cases m with
  | zero => exact hyh (by simpa using hm)
  | succ m =>
    rw [ancestor_succ_last] at hm
    rcases Option.bind_eq_some_iff.mp hm with ⟨z, -, hz⟩
    exact hchild z hz

section TailChild

variable {c : Forest H S} {h p y : H} {d : AttributeDelta H}

variable {v : TrackerView H}

theorem Spans.tail_of_passes (hh : c.parent h = some p) (hp : c.parent p = none) {n m : Nat}
    (hspan : Spans c n y d) (hm : m < n)
    (hpass : ancestor c.parent m y = some h) : d.tail = p ∧ n = m + 1 := by
  have hend : EndsAt c.parent (m + 1) y p := ((EndsAt.zero_of_none hp).cons hh).prepend hpass
  have hle := (hend.drop hspan.reaches).1
  obtain rfl : n = m + 1 := by omega
  exact ⟨Option.some.inj (hspan.reaches.symm.trans hend.1), rfl⟩

theorem ValuesOk.avoids_of_tail_ne (hh : c.parent h = some p) (hp : c.parent p = none)
    (hv : ValuesOk c v) (hy : v.cached y = some d) (htail : d.tail ≠ p) :
    ∃ n, 1 ≤ n ∧ Spans c n y d ∧ ∀ m < n, ancestor c.parent m y ≠ some h := by
  rcases hv y d hy with ⟨n, hn, hspan⟩
  refine ⟨n, hn, hspan, ?_⟩
  intro m hm hpass
  exact htail (hspan.tail_of_passes hh hp hm hpass).1

theorem RefsOk.tail_ne_of_none {pending : Option Nat} (hr : RefsOk E v pending) {t : H}
    (ht : v.reverseDeltaRefs.lookup t = none) (hy : v.cached y = some d) : d.tail ≠ t := by
  rcases cached_eq_some hy with ⟨δ, r, δr, -, hδr, rfl⟩
  intro htail
  have := (hr.tails t r).mpr ⟨δr, hδr, htail⟩
  rw [ht] at this
  cases this

theorem lookup_foldl_erase (items : List H) (m : FiniteMap H (AttributeDelta H × Nat)) (y : H) :
    (items.foldl (fun m x => m.erase x) m).lookup y = if y ∈ items then none else m.lookup y := by
  induction items generalizing m with
  | nil => simp
  | cons x items ih =>
    rw [foldl_cons, ih, lookup_erase_ite]
    by_cases hy : y ∈ items
    · simp [hy]
    by_cases hyx : y = x
    · simp [hyx]
    · simp [hy, hyx]

theorem dropGroup_spec (hr : RefsOk E v none) {ref : Nat}
    (htail : v.reverseDeltaRefs.lookup p = some ref) (order : IterationOrder H) :
    RefsOk E (v.dropGroup order p ref) none ∧
      ∀ y d, (v.dropGroup order p ref).cached y = some d → v.cached y = some d ∧ d.tail ≠ p := by
  rcases (hr.tails p ref).mp htail with ⟨δp, hδp, hδtail⟩
  have hdeltas : ∀ y, (v.dropGroup order p ref).deltas.lookup y =
      if y ∈ row v.reverseDeltas ref then none else v.deltas.lookup y := by
    intro y
    unfold dropGroup
    rw [lookup_foldl_erase]
    simp only [order.mem_list]
  constructor
  · constructor
    · intro y δ r hy
      rw [hdeltas] at hy
      split at hy
      · cases hy
      rename_i hout
      refine mem_erase.mpr ⟨?_, hr.entry y δ r hy⟩
      intro hrr
      exact hout ((hr.group ref y).mpr ⟨δ, hrr ▸ hy⟩)
    · intro r y
      show y ∈ row (v.reverseDeltas.erase ref) r ↔ _
      rw [row_erase, hdeltas]
      by_cases hrr : r = ref
      · subst hrr
        by_cases hy : y ∈ row v.reverseDeltas r
        · simp [hy]
        · simp only [if_neg hy, ← hr.group]
          simp [hy]
      rw [if_neg hrr, hr.group]
      by_cases hy : y ∈ row v.reverseDeltas ref
      · rcases (hr.group ref y).mp hy with ⟨δ, hδ⟩
        simp [hy, hδ, Ne.symm hrr]
      · simp [hy]
    · intro t r
      simp only [dropGroup, lookup_erase_ite]
      by_cases ht : t = p
      · subst ht
        by_cases hrr : r = ref
        · simp [hrr]
        have hne : ¬ ∃ δ, v.deltaRefs.lookup r = some δ ∧ δ.tail = t := by
          intro hδ
          have := (hr.tails t r).mpr hδ
          rw [htail] at this
          exact hrr (Option.some.inj this).symm
        simp only [if_neg hrr, if_pos]
        constructor
        · intro hnone
          cases hnone
        · intro hδ
          exact absurd hδ hne
      rw [if_neg ht]
      by_cases hrr : r = ref
      · subst hrr
        rw [if_pos rfl, hr.tails, hδp]
        simp only [Option.some.injEq, reduceCtorEq, false_and, exists_false, iff_false]
        intro hδ
        rcases hδ with ⟨δ, rfl, hδ⟩
        exact ht (hδ.symm.trans hδtail)
      · rw [if_neg hrr]
        exact hr.tails t r
    · intro r hmem
      exact hr.gen r (mem_erase.mp hmem).2
    · intro r δ hδ
      simp only [dropGroup, lookup_erase_ite] at hδ
      split at hδ
      · cases hδ
      · exact hr.base r δ hδ
    · intro r hmem hne
      rcases mem_erase.mp hmem with ⟨hrr, hmem⟩
      simp only [dropGroup, row_erase, if_neg hrr]
      exact hr.live r hmem hne
  · intro y d hy
    rcases cached_eq_some hy with ⟨δ, r, δr, hyδ, hδr, rfl⟩
    rw [hdeltas] at hyδ
    simp only [dropGroup, lookup_erase_ite] at hδr
    split at hyδ
    · cases hyδ
    split at hδr
    · cases hδr
    rename_i hrr
    refine ⟨cached_of_lookup hyδ hδr, ?_⟩
    intro htail'
    exact hrr (hr.tail_inj hδr hδp (htail'.trans hδtail.symm))

variable [Inhabited H]

theorem makeElementDelta_tail (hh : c.parent h = some p) : (makeElementDelta c h).tail = p := by
  rcases Option.map_eq_some_iff.mp hh with ⟨data, hdata, htail⟩
  simp [makeElementDelta, hdata, htail]

theorem handleRemoveSpecial2_spec (hr : RefsOk E v none) (hv : ValuesOk c v)
    (hh : c.parent h = some p) (hp : c.parent p = none) (order : IterationOrder H) :
    RefsOk E (v.handleRemoveSpecial2 c order h) none ∧
      Avoids c h (v.handleRemoveSpecial2 c order h) := by
  unfold handleRemoveSpecial2
  rw [makeElementDelta_tail hh]
  cases htail : v.reverseDeltaRefs.lookup p with
  | none =>
    refine ⟨hr, ?_⟩
    intro y d hy
    exact hv.avoids_of_tail_ne hh hp hy (hr.tail_ne_of_none htail hy)
  | some ref =>
    rcases dropGroup_spec hr htail order with ⟨hr', hdrop⟩
    refine ⟨hr', ?_⟩
    intro y d hy
    rcases hdrop y d hy with ⟨hy, hne⟩
    exact hv.avoids_of_tail_ne hh hp hy hne

/-! ## Removing a sole tail child -/

section

variable (hn : c.NullFree) (ha : Acyclic c.parent) (hh : c.parent h = some p)
  (hp : c.parent p = none) (hr : RefsOk E v none) (hv : ValuesOk c v)
include hn ha hh hp hr hv

/-- A pass over all items that refer to `h` takes each of them to the end of
its chain, which is the parent of `h`. -/
theorem refreshAll_spec
    {items : List H} (hitems : ∀ x ∈ items, ∃ n, 1 ≤ n ∧ ancestor c.parent n x = some h) :
    Stored E c v (refreshAll c v items) p ∧
      ∀ y, (y ∈ items ∨ ∃ d, v.cached y = some d ∧ d.tail = p) →
        ∃ d, (refreshAll c v items).cached y = some d ∧ d.tail = p := by
  induction items generalizing v with
  | nil =>
    refine ⟨Stored.refl hr hv p, ?_⟩
    intro y hy
    rcases hy with hy | hy
    · cases hy
    · exact hy
  | cons x items ih =>
    rcases hitems x mem_cons_self with ⟨n, hn1, hxh⟩
    have hend : EndsAt c.parent (n + 1) x p := ((EndsAt.zero_of_none hp).cons hh).prepend hxh
    rcases getDeltaToLast_spec hn ha hr hv hend with ⟨total, v', hquery, -, -, -, hstored, hown⟩
    have hrest := ih hstored.refs hstored.values fun x' hx' => hitems x' (mem_cons_of_mem _ hx')
    have hfold : refreshAll c v (x :: items) = refreshAll c v' items := by
      simp [refreshAll, hquery]
    rw [hfold]
    refine ⟨hstored.trans hrest.1, ?_⟩
    intro y hy
    apply hrest.2
    rcases hy with hy | hy
    · rcases mem_cons.mp hy with hy | hy
      · exact .inr (hy ▸ hown (by omega))
      · exact .inl hy
    rcases hstored.changed y with heq | hnew
    · exact .inr (heq ▸ hy)
    · exact .inr hnew

/-- After the first half of the handler nothing refers to `h` any more. -/
theorem refreshChildren_spec (order : IterationOrder H) :
    RefsOk E (v.refreshChildren c order h) none ∧ ValuesOk c (v.refreshChildren c order h) ∧
      (v.refreshChildren c order h).reverseDeltaRefs.lookup h = none := by
  have hph : p ≠ h := by
    intro hph
    rw [hph, hh] at hp
    cases hp
  unfold refreshChildren
  cases hhead : v.reverseDeltaRefs.lookup h with
  | none => exact ⟨hr, hv, hhead⟩
  | some ref =>
    rcases (hr.tails h ref).mp hhead with ⟨δh, hδh, hδtail⟩
    have hgroup : ∀ y d, v.cached y = some d → d.tail = h → y ∈ row v.reverseDeltas ref := by
      intro y d hy hd
      rcases cached_eq_some hy with ⟨δ, r, δr, hyδ, hδr, rfl⟩
      have hrr := hr.tail_inj hδr hδh (hd.trans hδtail.symm)
      exact (hr.group ref y).mpr ⟨δ, hrr ▸ hyδ⟩
    have hitems : ∀ x ∈ order.list (row v.reverseDeltas ref),
        ∃ n, 1 ≤ n ∧ ancestor c.parent n x = some h := by
      intro x hx
      rcases (hr.group ref x).mp ((order.mem_list _ _).mp hx) with ⟨δ, hδ⟩
      rcases hv x _ (cached_of_lookup hδ hδh) with ⟨n, hn1, hspan⟩
      refine ⟨n, hn1, ?_⟩
      rw [hspan.reaches]
      exact congrArg some hδtail
    rcases refreshAll_spec hn ha hh hp hr hv hitems with ⟨hstored, hall⟩
    refine ⟨hstored.refs, hstored.values, ?_⟩
    cases hleft : (v.refreshAll c (order.list (row v.reverseDeltas ref))).reverseDeltaRefs.lookup
        h with
    | none => rfl
    | some r =>
      -- a reference at `h` would have an item, but all of them have moved to `p`
      rcases (hstored.refs.tails h r).mp hleft with ⟨δ, hδ, hδt⟩
      rcases hstored.refs.live r (mem_of_lookup_eq_some hδ) (by simp) with ⟨y, hy⟩
      rcases (hstored.refs.group r y).mp hy with ⟨δ1, hδ1⟩
      have hcached := cached_of_lookup hδ1 hδ
      have hmoved : ∃ d, (v.refreshAll c (order.list (row v.reverseDeltas ref))).cached y =
          some d ∧ d.tail = p := by
        rcases hstored.changed y with heq | hnew
        · apply hall
          left
          rw [order.mem_list]
          exact hgroup y _ (heq.symm.trans hcached) hδt
        · exact hnew
      rcases hmoved with ⟨d, hd, hdp⟩
      rw [hcached] at hd
      cases hd
      exact absurd (hdp.symm.trans hδt) hph

end

private theorem sum_concat_sub {A : Type} [AddCommGroup A] (l : List A) (a : A) :
    (l ++ [a]).sum - a = l.sum := by
  simp

/-- A sum to `p` without its last share, which can only be `h`. -/
theorem Spans.dropLast (hh : c.parent h = some p) (hsole : ∀ x, c.parent x = some p → x = h)
    {n : Nat} {d' : AttributeDelta H} (hspan : Spans c (n + 1) y d) (hd : d.tail = p)
    (htail : d'.tail = h) (hheight : d'.height = d.height - (makeElementDelta c h).height)
    (hwork : d'.work = d.work - (makeElementDelta c h).work)
    (hmin : d'.minWork = d.minWork - (makeElementDelta c h).minWork) : Spans c n y d' := by
  have hreach := hspan.reaches
  rw [ancestor_succ_last, hd] at hreach
  rcases Option.bind_eq_some_iff.mp hreach with ⟨z, hz, hzp⟩
  rw [hsole z hzp] at hz
  rcases Option.map_eq_some_iff.mp (show (c.shares.lookup h).map _ = some p from hh) with
    ⟨data, hdata, -⟩
  have hlast := chainIndexes_add 1 hz
  rw [chainIndexes_succ hdata] at hlast
  have helem : makeElementDelta c h =
      ⟨h, data.index.tail, 1, data.index.work, data.index.minWork⟩ := by
    simp [makeElementDelta, hdata]
  rw [helem] at hheight hwork hmin
  constructor
  · rw [htail]
    exact hz
  · rw [hheight, hspan.height]
    show ((n + 1 : Nat) : Int) - 1 = n
    rw [Nat.cast_succ, add_sub_cancel_right]
  · rw [hwork, hspan.work, hlast, map_append]
    exact sum_concat_sub _ _
  · rw [hmin, hspan.minWork, hlast, map_append]
    exact sum_concat_sub _ _

theorem moveRefUp_refsOk (hr : RefsOk E v none) {ref : Nat}
    {cur delta : AttributeDelta H} (hcur : v.deltaRefs.lookup ref = some cur)
    (hcurtail : cur.tail = delta.tail) (hne : delta.tail ≠ delta.head)
    (hnone : v.reverseDeltaRefs.lookup delta.head = none)
    (htail : (cur - delta).tail = delta.head)
    (hbase : ReflTransGen E delta.head (cur - delta).head) :
    RefsOk E (v.moveRefUp delta ref) none := by
  unfold moveRefUp
  rw [hcur, Option.getD_some]
  constructor
  · intro y δ r hy
    exact mem_insert.mpr (.inr (hr.entry y δ r hy))
  · exact hr.group
  · intro t r
    simp only [lookup_insert_ite, lookup_erase_ite]
    have hother : r ≠ ref → (∃ δ, v.deltaRefs.lookup r = some δ ∧ δ.tail = t) →
        t ≠ delta.head ∧ t ≠ delta.tail := by
      intro hrr hδ
      rcases hδ with ⟨δ, hδ, hδt⟩
      constructor
      · intro ht
        have := (hr.tails t r).mpr ⟨δ, hδ, hδt⟩
        rw [ht, hnone] at this
        cases this
      · intro ht
        exact hrr (hr.tail_inj hδ hcur (hδt.trans (ht.trans hcurtail.symm)))
    by_cases hrr : r = ref
    · subst hrr
      simp only [if_pos, Option.some.injEq, exists_eq_left', htail]
      by_cases hth : t = delta.head
      · simp [hth]
      rw [if_neg hth]
      by_cases htp : t = delta.tail
      · simp [htp, Ne.symm hne]
      · rw [if_neg htp, hr.tails, hcur]
        simp [hcurtail, Ne.symm hth, Ne.symm htp]
    rw [if_neg hrr]
    by_cases hth : t = delta.head
    · rw [if_pos hth]
      constructor
      · intro heq
        exact absurd (Option.some.inj heq).symm hrr
      · intro hδ
        exact absurd hth (hother hrr hδ).1
    rw [if_neg hth]
    by_cases htp : t = delta.tail
    · rw [if_pos htp]
      constructor
      · intro hfalse
        cases hfalse
      · intro hδ
        exact absurd htp (hother hrr hδ).2
    · rw [if_neg htp]
      exact hr.tails t r
  · intro r hmem
    rcases mem_insert.mp hmem with rfl | hmem
    · exact hr.gen r (mem_of_lookup_eq_some hcur)
    · exact hr.gen r hmem
  · intro r δ hδ
    simp only [lookup_insert_ite] at hδ
    split at hδ
    · cases hδ
      rw [htail]
      exact hbase
    · exact hr.base r δ hδ
  · intro r hmem hne'
    rcases mem_insert.mp hmem with rfl | hmem
    · exact hr.live r (mem_of_lookup_eq_some hcur) hne'
    · exact hr.live r hmem hne'

/-- Moving the reference of `p` up to `h` takes the last share off every sum
that ended at `p`. -/
theorem moveTailRef_spec (hE : ∀ x, ¬ TransGen E x x) (hedge : E h p) (ha : Acyclic c.parent)
    (hh : c.parent h = some p) (hp : c.parent p = none) (hsole : ∀ x, c.parent x = some p → x = h)
    (hr : RefsOk E v none) (hv : ValuesOk c v) (hnone : v.reverseDeltaRefs.lookup h = none) :
    RefsOk E (v.moveTailRef (makeElementDelta c h)) none ∧
      ∀ y d, y ≠ h → (v.moveTailRef (makeElementDelta c h)).cached y = some d →
        ∃ n, 1 ≤ n ∧ Spans c n y d ∧ ∀ m < n, ancestor c.parent m y ≠ some h := by
  have helHead := makeElementDelta_head c h
  have helTail := makeElementDelta_tail hh
  unfold moveTailRef
  rw [helTail]
  cases htail : v.reverseDeltaRefs.lookup p with
  | none =>
    refine ⟨hr, ?_⟩
    intro y d _ hy
    exact hv.avoids_of_tail_ne hh hp hy (hr.tail_ne_of_none htail hy)
  | some ref =>
    rcases (hr.tails p ref).mp htail with ⟨cur, hcur, hcurtail⟩
    have hbase := hr.base ref cur hcur
    rw [hcurtail] at hbase
    have hhead : cur.head ≠ h := by
      intro heq
      rw [heq] at hbase
      exact hE h (TransGen.head' hedge hbase)
    have hends : (cur - makeElementDelta c h).head = cur.head ∧
        (cur - makeElementDelta c h).tail = h := by
      have hsub := AttributeDelta.sub_of_tail (by rwa [helHead]) (hcurtail.trans helTail.symm)
      rwa [helHead] at hsub
    have hph : p ≠ h := by
      intro hph
      rw [hph, hh] at hp
      cases hp
    constructor
    · apply moveRefUp_refsOk hr hcur
      · rw [helTail, hcurtail]
      · rw [helTail, helHead]
        exact hph
      · rw [helHead]
        exact hnone
      · rw [helHead]
        exact hends.2
      · rw [helHead, hends.1]
        exact ReflTransGen.head hedge hbase
    intro y d hyh hy
    rcases cached_eq_some hy with ⟨δ, r, δr, hentry, hδr, rfl⟩
    have hyδ : v.deltas.lookup y = some (δ, r) := hentry
    simp only [moveRefUp, hcur, Option.getD_some, lookup_insert_ite] at hδr
    split at hδr
    · rename_i hrr
      cases hδr
      have hold := cached_of_lookup hyδ (hrr ▸ hcur)
      rcases hv y _ hold with ⟨n, hn1, hspan⟩
      obtain ⟨k, rfl⟩ : ∃ k, n = k + 1 := ⟨n - 1, by omega⟩
      have hnew : Spans c k y (δ + (cur - makeElementDelta c h)) := by
        refine hspan.dropLast hh hsole hcurtail hends.2 ?_ ?_ ?_
        · show δ.height + (cur.height - _) = δ.height + cur.height - _
          omega
        · exact (add_sub_assoc δ.work cur.work _).symm
        · exact (add_sub_assoc δ.minWork cur.minWork _).symm
      have hkh : ancestor c.parent k y = some h := by
        rw [hnew.reaches]
        exact congrArg some hends.2
      refine ⟨k, ?_, hnew, ?_⟩
      · cases k with
        | zero => exact absurd (by simpa using hkh) hyh
        | succ k => omega
      intro m hm hpass
      have := ha.ancestor_inj hpass hkh
      omega
    rename_i hrr
    refine hv.avoids_of_tail_ne hh hp (cached_of_lookup hyδ hδr) ?_
    intro htail'
    exact hrr (hr.tail_inj hδr hcur (htail'.trans hcurtail.symm))

theorem handleRemoveSpecial_spec (hE : ∀ x, ¬ TransGen E x x) (hedge : E h p)
    (hn : c.NullFree) (ha : Acyclic c.parent) (hh : c.parent h = some p)
    (hp : c.parent p = none) (hsole : ∀ x, c.parent x = some p → x = h)
    (hr : RefsOk E v none) (hv : ValuesOk c v) (order : IterationOrder H) :
    RefsOk E (v.handleRemoveSpecial c order h) none ∧
      ∀ y d, y ≠ h → (v.handleRemoveSpecial c order h).cached y = some d →
        ∃ n, 1 ≤ n ∧ Spans c n y d ∧ ∀ m < n, ancestor c.parent m y ≠ some h := by
  unfold handleRemoveSpecial
  cases htail : v.reverseDeltaRefs.lookup (makeElementDelta c h).tail with
  | none =>
    rw [makeElementDelta_tail hh] at htail
    refine ⟨hr, ?_⟩
    intro y d _ hy
    exact hv.avoids_of_tail_ne hh hp hy (hr.tail_ne_of_none htail hy)
  | some ref =>
    rcases refreshChildren_spec hn ha hh hp hr hv order with ⟨hr', hv', hnone⟩
    exact moveTailRef_spec hE hedge ha hh hp hsole hr' hv' hnone

end TailChild

end C2Pool.Sharechain.TrackerView
