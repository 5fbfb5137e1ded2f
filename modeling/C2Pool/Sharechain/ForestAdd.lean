import C2Pool.Sharechain.ForestInvariant

/-! # Adding a share keeps the forest invariant

The new share may already be the tail of waiting children, and its previous hash may be a head, a
share in the middle of a chain, or missing.
-/

namespace C2Pool.Sharechain.Forest

open ParentForest FiniteMap Finmap

variable {H S : Type} [DecidableEq H] [Inhabited H] {data : ChainData H S}

section CalculateHeadTail

variable {c : Forest H S} {h p : H}

theorem mem_headsSet_iff (hc : c.Consistent) (hfree : c.parent h = none)
    (ha : Acyclic (extend c.parent h p)) {x : H} :
    x ∈ c.headsSet h ↔ IsHead (extend c.parent h p) x ∧ EndsIn c.parent x h := by
  have hne : p ≠ h := ha.parent_ne_self
  rw [isHead_extend_iff hfree hne]
  unfold headsSet
  cases htail : c.tails.lookup h with
  | some above =>
    have hmem : h ∈ c.tails := mem_of_lookup_eq_some htail
    rcases (hc.mem_tails_iff_child.mp hmem).2 with ⟨y, hy⟩
    have hrow := hc.tables.tails_iff h x
    rw [row_of_lookup htail] at hrow
    show x ∈ above ↔ _
    rw [hrow]
    constructor
    · intro hx
      refine ⟨.inr ⟨hx.1, ?_⟩, hx.2⟩
      intro hxp
      exact ha.not_endsIn_extended hfree (hxp ▸ hx.2)
    intro hx
    rcases hx with ⟨⟨-, hchild⟩ | ⟨hhead, -⟩, hend⟩
    · exact absurd hy (hchild y)
    · exact ⟨hhead, hend⟩
  | none =>
    have hmem : h ∉ c.tails := lookup_eq_none.mp htail
    show x ∈ ({h} : Finset H) ↔ _
    rw [Finset.mem_singleton]
    constructor
    · intro hx
      subst hx
      refine ⟨.inl ⟨rfl, ?_⟩, 0, EndsAt.zero_of_none hfree⟩
      intro y hy
      exact hmem (hc.mem_tails_iff_child.mpr ⟨hfree, y, hy⟩)
    intro hx
    rcases hx with ⟨⟨rfl, -⟩ | ⟨hhead, -⟩, hend⟩
    · rfl
    · exact absurd (hc.mem_tails_iff.mpr ⟨x, hhead, hend⟩) hmem

theorem endsIn_resolvedTail (hc : c.Consistent)
    (hwalk : p ∉ c.heads → ∀ t, EndsIn c.parent p t → c.getLast p = t) :
    EndsIn c.parent p (c.resolvedTail p) := by
  unfold resolvedTail
  cases hp : c.heads.lookup p with
  | some deep => exact ((hc.tables.heads_iff p deep).mp hp).2
  | none =>
    rcases hc.exists_endsIn p with ⟨t, ht⟩
    show EndsIn c.parent p (c.getLast p)
    rw [hwalk (lookup_eq_none.mp hp) t ht]
    exact ht

private theorem heads_add_iff (hc : c.Consistent) (hfree : c.parent h = none)
    (ha : Acyclic (extend c.parent h p)) (hr : EndsIn c.parent p (c.resolvedTail p)) (x t : H) :
    (c.calculateHeadTail h p).heads.lookup x = some t ↔
      IsHead (extend c.parent h p) x ∧ EndsIn (extend c.parent h p) x t := by
  have hne : p ≠ h := ha.parent_ne_self
  have hset := mem_headsSet_iff hc hfree ha (x := x)
  rw [endsIn_extend_iff hfree ha hc.exists_endsIn]
  simp only [calculateHeadTail, lookup_assignAll, lookup_erase_ite]
  by_cases hx : x ∈ c.headsSet h
  · rw [if_pos hx]
    rcases hset.mp hx with ⟨hhead, hend⟩
    constructor
    · intro ht
      exact ⟨hhead, .inr ⟨hend, Option.some.inj ht ▸ hr⟩⟩
    intro ht
    rcases ht with ⟨-, ⟨ht, hth⟩ | ⟨-, ht⟩⟩
    · exact absurd (ht.unique hend) hth
    · rw [ht.unique hr]
  rw [if_neg hx, isHead_extend_iff hfree hne]
  by_cases hxp : x = p
  · rw [if_pos hxp]
    simp [hxp, hne]
  rw [if_neg hxp, hc.tables.heads_iff]
  have hout : ¬ EndsIn c.parent x h ∨ ¬ IsHead (extend c.parent h p) x := by
    by_contra hboth
    push Not at hboth
    exact hx (hset.mpr ⟨hboth.2, hboth.1⟩)
  rw [isHead_extend_iff hfree hne] at hout
  constructor
  · intro hold
    rcases hold with ⟨hhead, hend⟩
    refine ⟨.inr ⟨hhead, hxp⟩, .inl ⟨hend, ?_⟩⟩
    intro hth
    subst hth
    rcases hout with hout | hout
    · exact hout hend
    · exact hout (.inr ⟨hhead, hxp⟩)
  intro hnew
  rcases hnew with ⟨hhead, hend⟩
  have hnot : ¬ EndsIn c.parent x h := hout.resolve_right (not_not.mpr hhead)
  rcases hhead with ⟨rfl, -⟩ | ⟨hhead, -⟩
  · exact absurd ⟨0, EndsAt.zero_of_none hfree⟩ hnot
  rcases hend with ⟨hend, -⟩ | ⟨hend, -⟩
  · exact ⟨hhead, hend⟩
  · exact absurd hend hnot

private theorem row_tails_add (x t : H) :
    x ∈ row (c.calculateHeadTail h p).tails t ↔
      (if t = c.resolvedTail p then
        x ≠ p ∧ ((t ≠ h ∧ x ∈ row c.tails t) ∨ x ∈ c.headsSet h)
      else t ≠ h ∧ x ∈ row c.tails t) := by
  simp only [calculateHeadTail, row_insert, row_erase]
  by_cases ht : t = c.resolvedTail p
  · subst ht
    by_cases hth : c.resolvedTail p = h
    · simp [hth]
    · simp [hth]
  simp only [if_neg ht]
  by_cases hth : t = h
  · simp [hth]
  · simp [hth]

private theorem tails_add_iff (hc : c.Consistent) (hfree : c.parent h = none)
    (ha : Acyclic (extend c.parent h p)) (hr : EndsIn c.parent p (c.resolvedTail p)) (t x : H) :
    x ∈ row (c.calculateHeadTail h p).tails t ↔
      (c.calculateHeadTail h p).heads.lookup x = some t := by
  have hold : ∀ t, x ∈ row c.tails t ↔ c.heads.lookup x = some t := by
    intro t
    rw [hc.tables.tails_iff, hc.tables.heads_iff]
  have hset := mem_headsSet_iff hc hfree ha (x := x)
  rw [row_tails_add, hold]
  simp only [calculateHeadTail, lookup_assignAll, lookup_erase_ite]
  by_cases hx : x ∈ c.headsSet h
  · have hxp : x ≠ p := by
      intro hxp
      exact ha.not_endsIn_extended hfree (hxp ▸ (hset.mp hx).2)
    have hlook : ∀ t, t ≠ h → c.heads.lookup x ≠ some t := by
      intro t hth hxt
      exact hth (((hc.tables.heads_iff x t).mp hxt).2.unique (hset.mp hx).2)
    by_cases ht : t = c.resolvedTail p
    · simp [hx, ht, hxp]
    · have : ¬ (t ≠ h ∧ c.heads.lookup x = some t) := fun hboth => hlook t hboth.1 hboth.2
      simp [hx, ht, this, Ne.symm ht]
  by_cases hxp : x = p
  · subst hxp
    have hlook : ∀ t, t ≠ c.resolvedTail x → c.heads.lookup x ≠ some t := by
      intro t ht hxt
      exact ht (((hc.tables.heads_iff x t).mp hxt).2.unique hr)
    by_cases ht : t = c.resolvedTail x
    · simp [hx, ht]
    · simp [hx, ht, hlook t ht]
  have hlook : c.heads.lookup x ≠ some h := by
    intro hxh
    rcases (hc.tables.heads_iff x h).mp hxh with ⟨hhead, hend⟩
    refine hx (hset.mpr ⟨?_, hend⟩)
    exact (isHead_extend_iff hfree ha.parent_ne_self).mpr (.inr ⟨hhead, hxp⟩)
  have hth : c.heads.lookup x = some t → t ≠ h := by
    intro hxt heq
    exact hlook (heq ▸ hxt)
  by_cases ht : t = c.resolvedTail p
  · simp only [if_pos ht, hx, hxp, or_false, if_false]
    exact ⟨fun hboth => hboth.2.2, fun hxt => ⟨hxp, hth hxt, hxt⟩⟩
  · simp only [if_neg ht, hx, hxp, if_false]
    exact ⟨fun hboth => hboth.2, fun hxt => ⟨hth hxt, hxt⟩⟩

private theorem tails_add_noEmpty (hc : c.Consistent) (hfree : c.parent h = none)
    (ha : Acyclic (extend c.parent h p)) : NoEmptyRow (c.calculateHeadTail h p).tails := by
  have hbase : NoEmptyRow (c.tails.erase h) := hc.tables.tails_noEmpty.erase h
  have hrow : (c.headsSet h).Nonempty := by
    unfold headsSet
    cases htail : c.tails.lookup h with
    | none => exact Finset.singleton_nonempty h
    | some above =>
      have hmem : h ∈ c.tails := mem_of_lookup_eq_some htail
      have hne := hc.tables.tails_noEmpty.mem_iff.mp hmem
      rwa [row_of_lookup htail] at hne
  rcases hrow with ⟨y, hy⟩
  have hyp : y ≠ p := by
    intro hyp
    have hend := ((mem_headsSet_iff hc hfree ha).mp hy).2
    exact ha.not_endsIn_extended hfree (hyp ▸ hend)
  unfold calculateHeadTail
  simp only [insert_insert]
  refine hbase.insert _ ⟨y, ?_⟩
  simp [row_insert, hy, hyp]

end CalculateHeadTail

theorem parent_add (c : Forest H S) (data : ChainData H S) :
    (c.add data).parent = extend c.parent data.index.head data.index.tail := by
  funext x
  unfold parent add
  show ((c.shares.insert data.index.head data).lookup x).map _ = _
  by_cases hx : x = data.index.head
  · subst hx
    simp
  · simp [hx, extend_of_ne]

theorem size_add {c : Forest H S} (hfree : data.index.head ∉ c.shares) :
    (c.add data).size = c.size + 1 := card_keys_insert_of_notMem data hfree

/-- `add` keeps the invariant when the walk from the previous hash, which is
made only if that hash is not a head, reaches the end of its chain. -/
theorem Consistent.add_of_walk {c : Forest H S} (hc : c.Consistent)
    (hnull : data.index.head ≠ default) (hnew : data.index.head ∉ c.shares)
    (ha : Acyclic (extend c.parent data.index.head data.index.tail))
    (hwalk : data.index.tail ∉ c.heads →
      ∀ t, EndsIn c.parent data.index.tail t → c.getLast data.index.tail = t) :
    (c.add data).Consistent := by
  have hfree : c.parent data.index.head = none := parent_eq_none_iff.mpr hnew
  have hr := endsIn_resolvedTail hc hwalk
  constructor
  · show (c.add data).parent default = none
    rw [parent_add, extend_of_ne (Ne.symm hnull)]
    exact hc.nullFree
  · rw [parent_add]
    exact ha
  · rw [parent_add]
    constructor
    · exact heads_add_iff hc hfree ha hr
    · intro t x
      show x ∈ row (c.calculateHeadTail _ _).tails t ↔ _
      rw [tails_add_iff hc hfree ha hr, heads_add_iff hc hfree ha hr]
    · exact tails_add_noEmpty hc hfree ha
    · intro q x
      show x ∈ row (c.reverse.insert _ (insert data.index.head (row c.reverse _))) q ↔ _
      rw [row_insert, extend_eq_some_iff]
      have hrev := hc.tables.reverse_iff q x
      by_cases hx : x = data.index.head
      · subst hx
        rw [hfree] at hrev
        by_cases hq : q = data.index.tail
        · simp [hq]
        · simp [hq, hrev, Ne.symm hq]
      by_cases hq : q = data.index.tail
      · subst hq
        simp [hx, hrev]
      · simp [hx, hq, hrev]
    · exact hc.tables.reverse_noEmpty.insert _ ⟨data.index.head, Finset.mem_insert_self _ _⟩

theorem Consistent.add {c : Forest H S} (hc : c.Consistent) (hs : c.Shallow)
    (hnull : data.index.head ≠ default) (hnew : data.index.head ∉ c.shares)
    (ha : Acyclic (extend c.parent data.index.head data.index.tail)) :
    (c.add data).Consistent := hc.add_of_walk hnull hnew ha fun _ _ ht => hc.getLast_of_endsIn hs ht

end C2Pool.Sharechain.Forest
