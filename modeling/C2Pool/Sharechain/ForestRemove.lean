import C2Pool.Sharechain.ForestInvariant

/-! # Removing a share keeps the forest invariant

A removal is read backwards: the forest before it is the forest after it with one share attached. A
removed head (branches 1 and 2) may promote its parent; a removed tail child (branches 3 and 4)
becomes the tail of the heads whose chains passed through it.
-/

namespace C2Pool.Sharechain.Forest

open ParentForest FiniteMap Finset

variable {H S : Type} [DecidableEq H] {branch : RemoveBranch}

theorem row_dropIfEmpty (m : FiniteMap H (Finset H)) (k t : H) :
    row (dropIfEmpty m k) t = row m t := by
  unfold dropIfEmpty
  split
  · rename_i hempty
    rw [row_erase]
    split
    · rename_i ht
      rw [ht, hempty]
    · rfl
  · rfl

theorem noEmptyRow_dropIfEmpty {m : FiniteMap H (Finset H)} (hm : NoEmptyRow m) (k : H)
    (s : Finset H) : NoEmptyRow (dropIfEmpty (m.insert k s) k) := by
  unfold dropIfEmpty
  split
  · rename_i hempty
    intro t
    rw [lookup_erase_ite, lookup_insert_ite]
    split
    · simp
    · exact hm t
  rename_i hempty
  rw [row_insert, if_pos rfl] at hempty
  exact hm.insert k (nonempty_iff_ne_empty.mpr hempty)

theorem mem_row_detachChild (reverse : FiniteMap H (Finset H)) (p h k x : H) :
    x ∈ row (detachChild reverse p h) k ↔ x ∈ row reverse k ∧ (k = p → x ≠ h) := by
  unfold detachChild
  split
  · rw [row_dropIfEmpty, row_insert]
    by_cases hk : k = p
    · simp [hk, and_comm]
    · simp [hk]
  rename_i hp
  by_cases hk : k = p
  · simp [hk, row_of_notMem hp]
  · simp [hk]

theorem noEmptyRow_detachChild {reverse : FiniteMap H (Finset H)} (hr : NoEmptyRow reverse)
    (p h : H) : NoEmptyRow (detachChild reverse p h) := by
  unfold detachChild
  split
  · exact noEmptyRow_dropIfEmpty hr p _
  · exact hr

variable [Inhabited H]

/-- `before` is the parent function of `c`, which holds `h` with previous hash
`p`; `after` is what remains without it. -/
structure Detach (c : Forest H S) (after : H → Option H) (h p : H) : Prop where
  consistent : c.Consistent
  free : after h = none
  before : c.parent = extend after h p

namespace Detach

variable {c : Forest H S} {q : H → Option H} {h p x tail : H} {heads : FiniteMap H H}
  {tails : FiniteMap H (Finset H)} {mine : Finset H}

section

variable (d : Detach c q h p)
include d

theorem acyclic : Acyclic (extend q h p) :=
  d.before ▸ d.consistent.acyclic

theorem acyclic_after : Acyclic q :=
  d.acyclic.of_extend d.free

theorem parent_ne : p ≠ h :=
  d.acyclic.parent_ne_self

theorem exists_endsIn (x : H) : ∃ t, EndsIn q x t := by
  have hheld : ∀ y, q y ≠ none → y ∈ c.shares.keys := by
    intro y hy
    apply mem_keys_of_parent
    rw [d.before]
    by_cases hyh : y = h
    · subst hyh
      simp
    · rwa [extend_of_ne hyh]
  exact d.acyclic_after.exists_endsIn hheld x

theorem heads_iff (x t : H) :
    c.heads.lookup x = some t ↔ IsHead (extend q h p) x ∧ EndsIn (extend q h p) x t := by
  rw [← d.before]
  exact d.consistent.tables.heads_iff x t

theorem mem_row_tails_iff (t x : H) : x ∈ row c.tails t ↔ c.heads.lookup x = some t := by
  rw [d.consistent.tables.tails_iff, d.consistent.tables.heads_iff]

end

section

variable (d : Detach c q h p)
include d

theorem endsIn_iff {t : H} :
    EndsIn (extend q h p) x t ↔ (EndsIn q x t ∧ t ≠ h) ∨ (EndsIn q x h ∧ EndsIn q p t) :=
  endsIn_extend_iff d.free d.acyclic d.exists_endsIn

theorem isHead_iff : IsHead (extend q h p) x ↔ (x = h ∧ ∀ y, q y ≠ some h) ∨ (IsHead q x ∧ x ≠ p) :=
  isHead_extend_iff d.free d.parent_ne

theorem mem_tails_iff : p ∈ c.tails ↔ q p = none := by
  rw [d.consistent.mem_tails_iff_child, d.before, extend_of_ne d.parent_ne]
  constructor
  · intro hp
    exact hp.1
  · intro hp
    exact ⟨hp, h, extend_self⟩

theorem mem_reverse_iff : x ∈ row c.reverse p ↔ x = h ∨ q x = some p := by
  rw [d.consistent.tables.reverse_iff, d.before, extend_eq_some_iff]
  by_cases hx : x = h
  · simp [hx]
  · simp [hx]

theorem not_isHead_self : ¬ IsHead q h :=
  fun hh => hh.1 d.free

theorem reverse_after (k x : H) : x ∈ row (detachChild c.reverse p h) k ↔ q x = some k := by
  rw [mem_row_detachChild, d.consistent.tables.reverse_iff, d.before, extend_eq_some_iff]
  constructor
  · intro hx
    rcases hx with ⟨⟨rfl, rfl⟩ | ⟨-, hx⟩, hne⟩
    · exact absurd rfl (hne rfl)
    · exact hx
  intro hx
  have hxh : x ≠ h := by
    intro hxh
    rw [hxh, d.free] at hx
    cases hx
  exact ⟨.inr ⟨hxh, hx⟩, fun _ => hxh⟩

theorem tablesMatch (hheads : ∀ x t, heads.lookup x = some t ↔ IsHead q x ∧ EndsIn q x t)
    (htails : ∀ t x, x ∈ row tails t ↔ heads.lookup x = some t) (hrow : NoEmptyRow tails) :
    TablesMatch q heads tails (detachChild c.reverse p h) where
  heads_iff := hheads
  tails_iff t x := (htails t x).trans (hheads x t)
  tails_noEmpty := hrow
  reverse_iff := d.reverse_after
  reverse_noEmpty := noEmptyRow_detachChild d.consistent.tables.reverse_noEmpty p h

end

/-! ## Removing a head -/

section

variable (d : Detach c q h p)
include d

/-- What `m_heads` says of a removed head: it had no children, and its chain
ends where its parent's does. -/
theorem of_head (hh : c.heads.lookup h = some tail) : (∀ y, q y ≠ some h) ∧ EndsIn q p tail := by
  rcases (d.heads_iff h tail).mp hh with ⟨hhead, hend⟩
  constructor
  · rcases d.isHead_iff.mp hhead with ⟨-, hchild⟩ | ⟨hq, -⟩
    · exact hchild
    · exact absurd hq d.not_isHead_self
  rcases d.endsIn_iff.mp hend with ⟨hq, hne⟩ | ⟨-, hq⟩
  · exact absurd (hq.self_of_none d.free) hne
  · exact hq

theorem heads_after_head (hh : c.heads.lookup h = some tail)
    (hheads : ∀ x t, heads.lookup x = some t ↔
      (x = p ∧ t = tail ∧ IsHead q p) ∨ (x ≠ h ∧ c.heads.lookup x = some t)) (x t : H) :
    heads.lookup x = some t ↔ IsHead q x ∧ EndsIn q x t := by
  rcases d.of_head hh with ⟨hchild, hend⟩
  rw [hheads, d.heads_iff, d.isHead_iff, d.endsIn_iff]
  constructor
  · intro hx
    rcases hx with ⟨rfl, rfl, hp⟩ | ⟨hxh, ⟨hxh', -⟩ | ⟨hhead, -⟩, hx⟩
    · exact ⟨hp, hend⟩
    · exact absurd hxh' hxh
    · rcases hx with ⟨hx, -⟩ | ⟨hx, -⟩
      · exact ⟨hhead, hx⟩
      · exact absurd (hx.eq_of_childless hchild) hxh
  intro hx
  rcases hx with ⟨hhead, hx⟩
  by_cases hxp : x = p
  · subst hxp
    exact .inl ⟨rfl, hx.unique hend, hhead⟩
  have hxh : x ≠ h := by
    intro hxh
    exact d.not_isHead_self (hxh ▸ hhead)
  refine .inr ⟨hxh, .inr ⟨hhead, hxp⟩, .inl ⟨hx, ?_⟩⟩
  intro hth
  exact hxh ((hth ▸ hx).eq_of_childless hchild)

/-- `p` becomes a head exactly when `h` was its only child and `p` is held. -/
theorem promote_iff (hp : q p ≠ none) :
    ((row c.reverse p).card = 1 ∧ h ∈ row c.reverse p) ↔ IsHead q p := by
  have hself : h ∈ row c.reverse p := d.mem_reverse_iff.mpr (.inl rfl)
  constructor
  · intro hcard
    rcases card_eq_one.mp hcard.1 with ⟨a, ha⟩
    refine ⟨hp, ?_⟩
    intro y hy
    have hya : y ∈ row c.reverse p := d.mem_reverse_iff.mpr (.inr hy)
    rw [ha, mem_singleton] at hya hself
    rw [hya, ← hself, d.free] at hy
    cases hy
  intro hhead
  refine ⟨card_eq_one.mpr ⟨h, ?_⟩, hself⟩
  ext x
  rw [d.mem_reverse_iff, mem_singleton]
  constructor
  · intro hx
    rcases hx with hx | hx
    · exact hx
    · exact absurd hx (hhead.2 x)
  · intro hx
    exact .inl hx

theorem mem_row_erased (hh : c.heads.lookup h = some tail) (t x : H) :
    x ∈ row (c.tails.insert tail ((row c.tails tail).erase h)) t ↔
      (c.heads.erase h).lookup x = some t := by
  rw [row_insert, lookup_erase_ite]
  by_cases hx : x = h
  · subst hx
    by_cases ht : t = tail
    · simp [ht]
    · simp [ht, d.mem_row_tails_iff, hh, Ne.symm ht]
  by_cases ht : t = tail
  · simp [hx, ht, d.mem_row_tails_iff]
  · simp [hx, ht, d.mem_row_tails_iff]

theorem lookup_parent_eq_none : c.heads.lookup p = none := by
  cases hlook : c.heads.lookup p with
  | none => rfl
  | some t =>
    rcases d.isHead_iff.mp ((d.heads_iff p t).mp hlook).1 with ⟨hph, -⟩ | ⟨-, hpp⟩
    · exact absurd hph d.parent_ne
    · exact absurd rfl hpp

theorem tables_unpromoted (hh : c.heads.lookup h = some tail) (hp : ¬ IsHead q p) :
    TablesMatch q (c.heads.erase h)
      (dropIfEmpty (c.tails.insert tail ((row c.tails tail).erase h)) tail)
      (detachChild c.reverse p h) := by
  refine d.tablesMatch (d.heads_after_head hh ?_) ?_ ?_
  · intro x t
    rw [lookup_erase_ite]
    by_cases hx : x = h
    · simp [hx, hp]
    · simp [hx, hp]
  · intro t x
    rw [row_dropIfEmpty]
    exact d.mem_row_erased hh t x
  · exact noEmptyRow_dropIfEmpty d.consistent.tables.tails_noEmpty tail _

theorem tables_promoted (hh : c.heads.lookup h = some tail) (hp : IsHead q p) :
    let erased := c.tails.insert tail ((row c.tails tail).erase h)
    TablesMatch q ((c.heads.erase h).insert p tail)
      (erased.insert tail (insert p (row erased tail))) (detachChild c.reverse p h) := by
  intro erased
  have hnone := d.lookup_parent_eq_none
  refine d.tablesMatch (d.heads_after_head hh ?_) ?_ ?_
  · intro x t
    rw [lookup_insert_ite, lookup_erase_ite]
    by_cases hx : x = p
    · subst hx
      simp [hp, hnone, eq_comm]
    by_cases hxh : x = h
    · simp [hxh, Ne.symm d.parent_ne]
    · simp [hx, hxh]
  · intro t x
    have herased := d.mem_row_erased hh t x
    rw [row_insert, lookup_insert_ite]
    by_cases hx : x = p
    · subst hx
      rw [lookup_erase_ite, if_neg d.parent_ne, hnone] at herased
      by_cases ht : t = tail
      · simp [ht]
      · simp [ht, Ne.symm ht, erased, herased]
    rw [if_neg hx, ← herased]
    by_cases ht : t = tail
    · simp [ht, hx, erased]
    · simp [ht, erased]
  · show NoEmptyRow ((c.tails.insert tail _).insert tail _)
    rw [Finmap.insert_insert]
    exact d.consistent.tables.tails_noEmpty.insert tail ⟨p, mem_insert_self _ _⟩

end

/-! ## Removing a tail child -/

section

variable (d : Detach c q h p)
include d

theorem isHead_after_tail (hh : c.heads.lookup h = none)
    (hp : q p = none) : IsHead (extend q h p) x ↔ IsHead q x := by
  rw [d.isHead_iff]
  constructor
  · intro hx
    rcases hx with ⟨rfl, hchild⟩ | ⟨hx, -⟩
    · rcases (d.before ▸ d.consistent.exists_endsIn x) with ⟨t, ht⟩
      have hsome := (d.heads_iff x t).mpr ⟨d.isHead_iff.mpr (.inl ⟨rfl, hchild⟩), ht⟩
      rw [hh] at hsome
      cases hsome
    · exact hx
  intro hx
  refine .inr ⟨hx, ?_⟩
  intro hxp
  exact hx.1 (hxp ▸ hp)

theorem heads_after_tail (hh : c.heads.lookup h = none) (hp : q p = none)
    (hmine : ∀ x, x ∈ mine ↔ IsHead q x ∧ EndsIn q x h) (x t : H) :
    (assignAll mine h c.heads).lookup x = some t ↔ IsHead q x ∧ EndsIn q x t := by
  rw [lookup_assignAll]
  by_cases hx : x ∈ mine
  · rcases (hmine x).mp hx with ⟨hhead, hend⟩
    rw [if_pos hx]
    constructor
    · intro ht
      exact ⟨hhead, Option.some.inj ht ▸ hend⟩
    · intro ht
      rw [ht.2.unique hend]
  rw [if_neg hx, d.heads_iff, d.isHead_after_tail hh hp, d.endsIn_iff]
  have hout : IsHead q x → ¬ EndsIn q x h := fun hhead hend => hx ((hmine x).mpr ⟨hhead, hend⟩)
  constructor
  · intro hnew
    rcases hnew with ⟨hhead, ⟨hend, -⟩ | ⟨hend, -⟩⟩
    · exact ⟨hhead, hend⟩
    · exact absurd hend (hout hhead)
  intro hold
  refine ⟨hold.1, .inl ⟨hold.2, ?_⟩⟩
  intro hth
  exact hout hold.1 (hth ▸ hold.2)

/-- The heads of the tail row of `p` that hang on `h` now have tail `h`; the
others keep tail `p`. -/
theorem tails_after_tail (hsub : ∀ x ∈ mine, c.heads.lookup x = some p)
    (htails : ∀ t x, x ∈ row tails t ↔
      if t = h then x ∈ mine else x ∈ row c.tails t ∧ (t = p → x ∉ mine)) (t x : H) :
    x ∈ row tails t ↔ (assignAll mine h c.heads).lookup x = some t := by
  have hnoh : c.heads.lookup x ≠ some h := by
    intro hxh
    have hheld := ((d.heads_iff x h).mp hxh).2.not_held
    rw [extend_self] at hheld
    cases hheld
  rw [htails, lookup_assignAll, d.mem_row_tails_iff]
  by_cases hx : x ∈ mine
  · by_cases hth : t = h
    · simp [hx, hth]
    by_cases htp : t = p
    · simp [hx, htp, Ne.symm d.parent_ne, d.parent_ne]
    · simp [hx, hth, htp, hsub x hx, Ne.symm htp, Ne.symm hth]
  by_cases hth : t = h
  · simp [hx, hth, hnoh]
  · simp [hx, hth]

theorem exists_mine (hh : c.heads.lookup h = none) (hp : q p = none) :
    ∃ x, IsHead q x ∧ EndsIn q x h := by
  have hheld : c.parent h ≠ none := by simp [d.before]
  rcases d.consistent.exists_isHead_above hheld with ⟨n, y, hy, hyh⟩
  rw [d.before] at hy hyh
  refine ⟨y, (d.isHead_after_tail hh hp).mp hy, ?_⟩
  exact (endsIn_iff_exists_ancestor_extend d.free d.exists_endsIn).mpr ⟨n, hyh⟩

theorem endsIn_parent_of_mine (hp : q p = none) (hx : EndsIn q x h) : EndsIn (extend q h p) x p :=
  d.endsIn_iff.mpr (.inr ⟨hx, 0, EndsAt.zero_of_none hp⟩)

/-- With no sibling, every head filed under `p` passes through `h`. -/
theorem mem_row_of_sole (hh : c.heads.lookup h = none) (hp : q p = none)
    (hcard : (row c.reverse p).card ≤ 1) (x : H) :
    x ∈ row c.tails p ↔ IsHead q x ∧ EndsIn q x h := by
  have hsole : ∀ y, q y ≠ some p := by
    intro y hy
    have hone := card_le_one.mp hcard y (d.mem_reverse_iff.mpr (.inr hy)) h
      (d.mem_reverse_iff.mpr (.inl rfl))
    rw [hone, d.free] at hy
    cases hy
  rw [d.mem_row_tails_iff, d.heads_iff, d.isHead_after_tail hh hp]
  constructor
  · intro hx
    rcases hx with ⟨hhead, hend⟩
    rcases d.endsIn_iff.mp hend with ⟨hend, -⟩ | ⟨hend, -⟩
    · exact absurd (hend.eq_of_childless hsole ▸ hp) hhead.1
    · exact ⟨hhead, hend⟩
  · intro hx
    exact ⟨hx.1, d.endsIn_parent_of_mine hp hx.2⟩

/-- `is_child_of` on a head filed under `p` decides whether the head hangs on
`h`: the heights measured to the common tail line the two walks up. -/
theorem isChildOf_iff (hs : c.Shallow) (hp : q p = none)
    (hx : EndsIn (extend q h p) x p) : c.isChildOf h x = true ↔ EndsIn q x h := by
  have hc := d.consistent
  rw [endsIn_iff_exists_ancestor_extend (p := p) d.free d.exists_endsIn]
  rw [← d.before] at hx ⊢
  have hheld : c.parent h = some p := by simp [d.before]
  have hmiss : c.parent p = none := by rw [d.before, extend_of_ne d.parent_ne, hp]
  have hone : EndsAt c.parent 1 h p := (EndsAt.zero_of_none hmiss).cons hheld
  rcases hx with ⟨n, hn⟩
  unfold isChildOf
  by_cases hhx : h = x
  · rw [if_pos hhx]
    exact ⟨fun _ => ⟨0, by simp [hhx]⟩, fun _ => rfl⟩
  rw [if_neg hhx, hc.getLast_of_endsIn hs ⟨1, hone⟩, hc.getLast_of_endsIn hs ⟨n, hn⟩,
    if_neg (by simp), getHeight_of_endsAt hc.nullFree hc.acyclic hone,
    getHeight_of_endsAt hc.nullFree hc.acyclic hn]
  simp only [getNthParentKey_eq_ancestor hc.nullFree, Bool.and_eq_true, beq_iff_eq,
    decide_eq_true_eq]
  constructor
  · intro hup
    exact ⟨_, hup.2⟩
  intro hup
  rcases hup with ⟨k, hk⟩
  have hkp : ancestor c.parent (k + 1) x = some p := by
    rw [ancestor_succ_last, hk]
    exact hheld
  have hkn : k + 1 = n := hc.acyclic.ancestor_inj hkp hn.1
  refine ⟨by omega, ?_⟩
  rw [show ((n : Int) - (1 : Nat)).toNat = k by omega]
  exact hk

theorem tables_soleChild (hh : c.heads.lookup h = none) (hp : q p = none)
    (hcard : (row c.reverse p).card ≤ 1) :
    TablesMatch q (assignAll (row c.tails p) h c.heads)
      ((c.tails.erase p).insert h (row c.tails p)) (detachChild c.reverse p h) := by
  have hmine := d.mem_row_of_sole hh hp hcard
  refine d.tablesMatch (d.heads_after_tail hh hp hmine) (d.tails_after_tail ?_ ?_) ?_
  · intro x hx
    exact (d.mem_row_tails_iff p x).mp hx
  · intro t x
    rw [row_insert, row_erase]
    by_cases hth : t = h
    · simp [hth]
    by_cases htp : t = p
    · simp [htp, d.parent_ne]
    · simp [hth, htp]
  · rcases d.exists_mine hh hp with ⟨x, hx⟩
    exact (d.consistent.tables.tails_noEmpty.erase p).insert h ⟨x, (hmine x).mpr hx⟩

theorem tables_forkRoot (hs : c.Shallow) (hh : c.heads.lookup h = none) (hp : q p = none) :
    let mine := (row c.tails p).filter fun x => c.isChildOf h x
    TablesMatch q (assignAll mine h c.heads)
      ((dropIfEmpty (c.tails.insert p (row c.tails p \ mine)) p).insert h mine)
      (detachChild c.reverse p h) := by
  intro mine
  have hmine : ∀ x, x ∈ mine ↔ IsHead q x ∧ EndsIn q x h := by
    intro x
    simp only [mine, mem_filter, d.mem_row_tails_iff, d.heads_iff, d.isHead_after_tail hh hp]
    constructor
    · intro hx
      exact ⟨hx.1.1, (d.isChildOf_iff hs hp hx.1.2).mp hx.2⟩
    intro hx
    have hend := d.endsIn_parent_of_mine hp hx.2
    exact ⟨⟨hx.1, hend⟩, (d.isChildOf_iff hs hp hend).mpr hx.2⟩
  refine d.tablesMatch (d.heads_after_tail hh hp hmine) (d.tails_after_tail ?_ ?_) ?_
  · intro x hx
    exact (d.mem_row_tails_iff p x).mp (mem_filter.mp hx).1
  · intro t x
    rw [row_insert, row_dropIfEmpty, row_insert]
    by_cases hth : t = h
    · simp [hth]
    by_cases htp : t = p
    · simp [htp, d.parent_ne]
    · simp [hth, htp]
  · rcases d.exists_mine hh hp with ⟨x, hx⟩
    refine NoEmptyRow.insert ?_ h ⟨x, (hmine x).mpr hx⟩
    exact noEmptyRow_dropIfEmpty d.consistent.tables.tails_noEmpty p _

end

end Detach

theorem Consistent.detach {c : Forest H S} (hc : c.Consistent) {h : H} {data : ChainData H S}
    (hdata : c.shares.lookup h = some data) :
    Detach c (fun x => ((c.shares.erase h).lookup x).map fun data => data.index.tail) h
      data.index.tail where
  consistent := hc
  free := by simp
  before := by
    funext x
    by_cases hx : x = h
    · subst hx
      simp [parent_of_lookup hdata]
    · simp [extend_of_ne hx, lookup_erase_ite, hx, parent]

theorem Detach.removeBranch_tables {c : Forest H S} {q : H → Option H} {h p : H}
    (d : Detach c q h p) (hs : c.Shallow) {heads : FiniteMap H H} {tails : FiniteMap H (Finset H)}
    (hbranch : c.removeBranch h p = some (branch, heads, tails)) :
    TablesMatch q heads tails (detachChild c.reverse p h) := by
  unfold removeBranch at hbranch
  cases hh : c.heads.lookup h with
  | some tail =>
    simp only [hh] at hbranch
    split at hbranch
    · rename_i hp
      have hq : q p = none := d.mem_tails_iff.mp hp
      have hpt : tail = p := (d.of_head hh).2.self_of_none hq
      cases hbranch
      subst hpt
      exact d.tables_unpromoted hh fun hhead => hhead.1 hq
    rename_i hp
    have hq : q p ≠ none := fun hq => hp (d.mem_tails_iff.mpr hq)
    split at hbranch
    · rename_i hcard
      cases hbranch
      exact d.tables_promoted hh ((d.promote_iff hq).mp hcard)
    rename_i hcard
    cases hbranch
    exact d.tables_unpromoted hh (mt (d.promote_iff hq).mpr hcard)
  | none =>
    simp only [hh] at hbranch
    split at hbranch
    · rename_i hp
      have hq : q p = none := d.mem_tails_iff.mp hp
      split at hbranch
      · rename_i hcard
        cases hbranch
        exact d.tables_soleChild hh hq hcard
      · cases hbranch
        exact d.tables_forkRoot hs hh hq
    · cases hbranch

theorem Consistent.tryRemove {c : Forest H S} (hc : c.Consistent) (hs : c.Shallow) {h : H}
    {c' : Forest H S} (hr : c.tryRemove h = some (branch, c')) : c'.Consistent := by
  unfold Forest.tryRemove at hr
  cases hdata : c.shares.lookup h with
  | none => simp [hdata] at hr
  | some data =>
    have d := hc.detach hdata
    simp only [hdata] at hr
    cases hbranch : c.removeBranch h data.index.tail with
    | none => simp [hbranch] at hr
    | some out =>
      simp only [hbranch, Option.some.injEq, Prod.mk.injEq] at hr
      rcases hr with ⟨-, rfl⟩
      refine ⟨?_, d.acyclic_after, d.removeBranch_tables hs hbranch⟩
      have hnull := hc.nullFree
      unfold NullFree at hnull ⊢
      rw [parent_eq_none_iff] at hnull ⊢
      exact fun hmem => hnull (Finmap.mem_erase.mp hmem).2

theorem Consistent.remove {c : Forest H S} (hc : c.Consistent) (hs : c.Shallow) (h : H) :
    (c.remove h).2.Consistent := by
  unfold Forest.remove
  cases hr : c.tryRemove h with
  | none => exact hc
  | some out => exact hc.tryRemove hs hr

end C2Pool.Sharechain.Forest
