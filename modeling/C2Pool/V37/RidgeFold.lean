import C2Pool.V37.RidgeLayout

/-! # Folds

A fold moves the bins of one group a level up, and its undo moves them back.
The folds of a tick bring every held bin to the level that the clock says.
-/

namespace C2Pool.V37

open List Lane SortedMap PartialRun Holding Function

namespace Holding

/-- Move the bins of group `p` of level `l` to level `l'`. -/
def relevel (canon : CanonicalTables) (l p l' : Nat) (held : Holding) : Holding :=
  held.mapValues fun b h =>
    if b / Nr.powR l = p then ⟨inFrame canon l' b h.bin, l', h.shed⟩ else h

/-- The bins of group `p` of level `l` are live and at level `m`. -/
def GroupAt (held : Holding) (l p m : Nat) : Prop :=
  ∀ b h, held.lookup b = some h → b / Nr.powR l = p → h.level = m ∧ h.shed = false

variable {canon : CanonicalTables} {cap : Nat} {held : Holding}

theorem lookup_relevel (l p l' b : Nat) :
    (held.relevel canon l p l').lookup b = (held.lookup b).map fun h =>
      if b / Nr.powR l = p then ⟨inFrame canon l' b h.bin, l', h.shed⟩ else h :=
  lookup_mapValues _ _ _

variable {l p l' m i : Nat}

theorem lookup_relevel_eq_some {b : Nat} {h : Held}
    (hb : (held.relevel canon l p l').lookup b = some h) :
    ∃ h₀, held.lookup b = some h₀ ∧
      (b / Nr.powR l = p ∧ h = ⟨inFrame canon l' b h₀.bin, l', h₀.shed⟩ ∨
        b / Nr.powR l ≠ p ∧ h = h₀) := by
  rw [lookup_relevel] at hb
  obtain ⟨h₀, hh₀, rfl⟩ := Option.map_eq_some_iff.mp hb
  refine ⟨h₀, hh₀, ?_⟩
  split
  · rename_i hp
    exact .inl ⟨hp, rfl⟩
  · rename_i hp
    exact .inr ⟨hp, rfl⟩

theorem GroupAt.relevel (h : held.GroupAt l p m) : (held.relevel canon l p l').GroupAt l p l' := by
  intro b x hx hp
  obtain ⟨h₀, hh₀, ⟨-, rfl⟩ | ⟨hne, -⟩⟩ := lookup_relevel_eq_some hx
  · exact ⟨rfl, (h b h₀ hh₀ hp).2⟩
  · exact absurd hp hne

theorem relevel_relevel (hsound : held.Sound canon cap) (h : held.GroupAt l p m)
    (l' : Nat) : (held.relevel canon l p l').relevel canon l p m = held := by
  apply ext_lookup
  intro b
  rw [lookup_relevel, lookup_relevel, Option.map_map]
  cases hb : held.lookup b with
  | none => rfl
  | some x =>
    rw [Option.map_some]
    dsimp only [comp_apply]
    split
    · rename_i hp
      have hframed := hsound.framed hb
      rw [(h b x hb hp).1] at hframed
      rw [inFrame_inFrame, hframed, ← (h b x hb hp).1]
    · rfl

theorem members_relevel {l'' : Nat} (h : held.GroupAt l p m)
    (hfar : ∀ b, b / Nr.powR l = p → b / Nr.powR l'' = i → m ≠ l'' ∧ l' ≠ l'') :
    (held.relevel canon l p l').members l'' i = held.members l'' i := by
  apply ext_lookup
  intro b
  rw [lookup_members, lookup_members, lookup_relevel]
  cases hb : held.lookup b with
  | none => rfl
  | some x =>
    rw [Option.map_some, Option.bind_some, Option.bind_some]
    split
    · rename_i hp
      have hx := (h b x hb hp).1
      have hnew : ¬ (l' = l'' ∧ b / Nr.powR l'' = i) := fun hb' => (hfar b hp hb'.2).2 hb'.1
      have hold : ¬ (x.level = l'' ∧ b / Nr.powR l'' = i) := fun hb' =>
        (hfar b hp hb'.2).1 (hx ▸ hb'.1)
      rw [if_neg hnew, if_neg hold]
    · rfl

theorem members_relevel_left {l'' : Nat} (hne : l' ≠ l'')
    (hin : ∀ b, b / Nr.powR l'' = i → b / Nr.powR l = p) :
    (held.relevel canon l p l').members l'' i = ∅ := by
  by_contra hsome
  obtain ⟨b, h, hb, hlevel, hi⟩ := members_ne_empty.mp hsome
  obtain ⟨h₀, hh₀, ⟨-, rfl⟩ | ⟨hp, -⟩⟩ := lookup_relevel_eq_some hb
  · exact hne hlevel
  · exact hp (hin b hi)

theorem members_relevel_self {b : Nat} {h : Held} (hb : held.lookup b = some h)
    (hp : b / Nr.powR l = p) : (held.relevel canon l p l).members l p ≠ ∅ := by
  rw [members_ne_empty]
  refine ⟨b, ⟨inFrame canon l b h.bin, l, h.shed⟩, ?_, rfl, hp⟩
  rw [lookup_relevel, hb, Option.map_some, if_pos hp]

theorem Sound.relevel (hsound : held.Sound canon cap) (h : held.GroupAt l p m) (hm : m ≤ l)
    (hl' : l' ≤ l) (hcap : l' ≤ cap) : (held.relevel canon l p l').Sound canon cap := by
  constructor
  · intro b x hx
    obtain ⟨h₀, hh₀, ⟨-, rfl⟩ | ⟨-, rfl⟩⟩ := lookup_relevel_eq_some hx
    · exact (hsound.ok hh₀).inFrame l'
    · exact hsound.ok hh₀
  · intro b x hx
    obtain ⟨h₀, hh₀, ⟨-, rfl⟩ | ⟨-, rfl⟩⟩ := lookup_relevel_eq_some hx
    · exact inFrame_inFrame _ _ _ _
    · exact hsound.framed hh₀
  · intro b x hx
    obtain ⟨h₀, hh₀, ⟨-, rfl⟩ | ⟨-, rfl⟩⟩ := lookup_relevel_eq_some hx
    · exact hcap
    · exact hsound.level_le hh₀
  · intro b x hx hshed
    obtain ⟨h₀, hh₀, ⟨hp, rfl⟩ | ⟨-, rfl⟩⟩ := lookup_relevel_eq_some hx
    · have hlive := (h b h₀ hh₀ hp).2
      rw [hlive] at hshed
      cases hshed
    · exact hsound.shed hh₀ hshed
  · intro b x b' x' hx hx' hsame
    obtain ⟨h₀, hh₀, ⟨hp, rfl⟩ | ⟨hp, rfl⟩⟩ := lookup_relevel_eq_some hx
    · have hp' : b' / Nr.powR l = p := (div_powR_of_le hl' hsame).trans hp
      obtain ⟨h₀', -, ⟨-, rfl⟩ | ⟨hne, -⟩⟩ := lookup_relevel_eq_some hx'
      · rfl
      · exact absurd hp' hne
    obtain ⟨h₀', hh₀', ⟨hp', rfl⟩ | ⟨-, rfl⟩⟩ := lookup_relevel_eq_some hx'
    -- A bin beside the group that shares a group with one of its bins is above it.
    · have habove : l < x.level := by
        by_contra hle
        exact hp ((div_powR_of_le (not_lt.mp hle) hsame).symm.trans hp')
      have heven := hsound.even hh₀ hh₀' hsame
      rw [(h b' h₀' hh₀' hp').1] at heven
      omega
    · exact hsound.even hh₀ hh₀' hsame

theorem shedBins_eq_nil (h : ∀ b x, held.lookup b = some x → x.shed = false) :
    held.shedBins = [] := by
  unfold shedBins
  rw [map_eq_nil_iff, filter_eq_nil_iff]
  intro e he
  rw [h e.1 e.2 (mem_entries_iff.mp he)]
  exact Bool.false_ne_true

theorem cellOver_live (h : ∀ b x, held.lookup b = some x → x.shed = false) :
    cellOver l i held = cellOf l i held.bins qOne := by
  unfold cellOver
  rw [shedBins_eq_nil h]
  rfl

theorem fine_relevel (hlive : held.GroupAt l p m) (l' : Nat) :
    (held.relevel canon l p l').fine = held.fine.mapValues fun b fb =>
      if b / Nr.powR l = p then inFrame canon l' b fb else fb := by
  apply ext_lookup
  intro b
  rw [lookup_fine, lookup_relevel, lookup_mapValues, lookup_fine]
  cases hb : held.lookup b with
  | none => rfl
  | some x =>
    rw [Option.map_some, Option.bind_some, Option.bind_some]
    cases hs : x.shed with
    | true =>
      have hp : b / Nr.powR l ≠ p := by
        intro hp
        have hfalse := (hlive b x hb hp).2
        rw [hs] at hfalse
        cases hfalse
      rw [if_neg hp, hs]
      rfl
    | false =>
      split
      · rfl
      · rw [hs]
        rfl

end Holding

variable {env : Env} {cap : Nat} {held : Holding}

theorem div_of_child {b k i : Nat} (h : b / Nr.powR k = i) :
    b / Nr.powR (k + 1) = i / Nr.rollup := by
  rw [div_powR_succ, h]

variable {p k m c : Nat} {lane lane' s s' : Lane}

theorem child_iff {i : Nat} :
    p * Nr.rollup ≤ i ∧ i ≤ p * Nr.rollup + Nr.rollup - 1 ↔ i / Nr.rollup = p := by
  rw [Nat.div_eq_iff (by decide)]

theorem Ridge.Shows.fold (hshows : lane.ridge.Shows held) (hgroup : held.GroupAt (k + 1) p k)
    (hsome : ∃ b h, held.lookup b = some h ∧ b / Nr.powR (k + 1) = p) (g : U64) :
    (lane.afterFold (k + 1) p (reframed env.canon (k + 1) p lane.ridge.fine) g).ridge.Shows
      (held.relevel env.canon (k + 1) p (k + 1)) := by
  have hfine : reframed env.canon (k + 1) p lane.ridge.fine =
      (held.relevel env.canon (k + 1) p (k + 1)).fine := by
    rw [fine_relevel hgroup, hshows.fine]
    rfl
  have hmoved : (held.relevel env.canon (k + 1) p (k + 1)).GroupAt (k + 1) p (k + 1) :=
    hgroup.relevel
  refine ⟨hfine, ?_⟩
  intro l i
  show ((Function.update (Function.update lane.ridge.cells k _) (k + 1) _ l).lookup i).map _ = _
  by_cases hl : l = k + 1
  · subst hl
    rw [update_self, lookup_insert]
    by_cases hi : i = p
    · subst hi
      have hmembers : (held.relevel env.canon (k + 1) i (k + 1)).members (k + 1) i ≠ ∅ := by
        obtain ⟨b, h, hb, hp⟩ := hsome
        exact members_relevel_self hb hp
      have hlive : ∀ b x, ((held.relevel env.canon (k + 1) i (k + 1)).members (k + 1) i).lookup b =
          some x → x.shed = false := by
        intro b x hx
        obtain ⟨hx, -, hp⟩ := lookup_members_eq_some.mp hx
        exact (hmoved b x hx hp).2
      unfold Holding.cell
      rw [if_pos rfl, if_neg hmembers, cellOver_live hlive, hfine, binsOf_fine hmoved]
      rfl
    have hsame : (held.relevel env.canon (k + 1) p (k + 1)).members (k + 1) i =
        held.members (k + 1) i := by
      apply members_relevel hgroup
      intro b hp hb
      exact absurd (hb.symm.trans hp) hi
    rw [if_neg hi, cell_congr hsame, ← hshows.cells]
    show ((Function.update lane.ridge.cells k _ (k + 1)).lookup i).map _ = _
    rw [update_of_ne (Nat.succ_ne_self k)]
  rw [update_of_ne hl]
  by_cases hk : l = k
  · subst hk
    rw [update_self, lookup_cutOut]
    by_cases hi : i / Nr.rollup = p
    · rw [if_pos (child_iff.mpr hi)]
      have hempty : (held.relevel env.canon (l + 1) p (l + 1)).members l i = ∅ :=
        members_relevel_left (Nat.succ_ne_self l)
          fun b hb => (div_of_child hb).trans hi
      unfold Holding.cell
      rw [if_pos hempty]
      rfl
    have hsame : (held.relevel env.canon (l + 1) p (l + 1)).members l i = held.members l i := by
      apply members_relevel hgroup
      intro b hp hb
      exact absurd ((div_of_child hb).symm.trans hp) hi
    rw [if_neg (mt child_iff.mp hi), cell_congr hsame, ← hshows.cells]
    rfl
  rw [update_of_ne hk]
  have hsame : (held.relevel env.canon (k + 1) p (k + 1)).members l i =
      held.members l i := members_relevel hgroup fun _ _ _ => ⟨Ne.symm hk, Ne.symm hl⟩
  rw [cell_congr hsame, ← hshows.cells]

/-! ## The undo of a fold -/

/-- The ridge shows a holding but for cell `p` of level `l`, which is missing. -/
structure Ridge.ShowsBut (l p : Nat) (r : Ridge) (held : Holding) : Prop where
  fine : r.fine = held.fine
  missing : (r.cells l).lookup p = none
  cells : ∀ l' i, (l' = l → i ≠ p) → ((r.cells l').lookup i).map Nr.Cell.unscaled = held.cell l' i

theorem Lane.nrRestoreChild_eq_ok (hm : m ≤ Nr.maxFoldCap)
    (h : nrRestoreChild env m lane c = .ok lane') :
    ∃ g, lane.scalar env (spanHi m c) = .ok g ∧
      (binsOf (reframed env.canon m c lane.ridge.fine) m c = [] ∧
        lane' = lane.setFine (reframed env.canon m c lane.ridge.fine) ∨
      binsOf (reframed env.canon m c lane.ridge.fine) m c ≠ [] ∧
        lane' = (lane.setFine (reframed env.canon m c lane.ridge.fine)).setLevel m
          ((lane.ridge.cells m).insert c
            (cellOf m c (binsOf (reframed env.canon m c lane.ridge.fine) m c) g))) := by
  obtain ⟨⟨fine, cell⟩, hbuild, h⟩ := bind_eq_ok.mp h
  have hbuild := orThrow_eq_ok.mp hbuild
  obtain ⟨fine', hfine, hbuild⟩ := bind_eq_ok.mp hbuild
  rw [reframe_eq hm] at hfine
  cases hfine
  obtain ⟨g, hg, hbuild⟩ := bind_eq_ok.mp hbuild
  refine ⟨g, hg, ?_⟩
  dsimp only at hbuild
  split at hbuild
  · rename_i hbins
    cases hbuild
    cases h
    exact .inl ⟨hbins, rfl⟩
  rename_i hbins
  cases hbuild
  cases h
  exact .inr ⟨hbins, rfl⟩

theorem Ridge.ShowsBut.restore (hk : k ≤ Nr.maxFoldCap)
    (hshows : lane.ridge.ShowsBut (k + 1) p held) (hc : c / Nr.rollup = p)
    (hgroup : held.GroupAt k c m) (hm : m = k ∨ m = k + 1)
    (h : nrRestoreChild env k lane c = .ok lane') :
    lane'.ridge.ShowsBut (k + 1) p (held.relevel env.canon k c k) := by
  obtain ⟨g, -, hcases⟩ := nrRestoreChild_eq_ok hk h
  have hfine : reframed env.canon k c lane.ridge.fine = (held.relevel env.canon k c k).fine := by
    rw [fine_relevel hgroup, hshows.fine]
    rfl
  have hmoved : (held.relevel env.canon k c k).GroupAt k c k := hgroup.relevel
  have hlive : ∀ b x, ((held.relevel env.canon k c k).members k c).lookup b = some x →
      x.shed = false := by
    intro b x hx
    obtain ⟨hx, -, hb⟩ := lookup_members_eq_some.mp hx
    exact (hmoved b x hx hb).2
  have hbins := binsOf_fine hmoved
  rw [hfine] at hcases
  -- The cells beside the child and its parent.
  have hfar : ∀ l i, (l = k + 1 → i ≠ p) → (l = k → i ≠ c) →
      (held.relevel env.canon k c k).cell l i = held.cell l i := by
    intro l i hparent hchild
    apply cell_congr
    apply members_relevel hgroup
    intro b hb hi
    have hkl : k ≠ l := fun hkl => hchild hkl.symm (by rw [← hi, ← hkl, hb])
    refine ⟨?_, hkl⟩
    rintro rfl
    rcases hm with hm | hm
    · exact hkl hm.symm
    · refine hparent hm ?_
      rw [← hi, hm, div_of_child hb, hc]
  obtain ⟨hnil, rfl⟩ | ⟨hcons, rfl⟩ := hcases
  · refine ⟨hfine ▸ rfl, hshows.missing, ?_⟩
    intro l i hne
    by_cases hchild : l = k ∧ i = c
    · obtain ⟨rfl, rfl⟩ := hchild
      have hempty : (held.relevel env.canon l i l).members l i = ∅ := by
        rw [hbins] at hnil
        exact entries_eq_nil.mp (map_eq_nil_iff.mp hnil)
      have hgone : held.members l i = ∅ := by
        by_contra hsome
        obtain ⟨b, x, hb, -, hi⟩ := members_ne_empty.mp hsome
        exact members_relevel_self hb hi hempty
      rw [cell_congr (hempty.trans hgone.symm)]
      exact hshows.cells l i hne
    · rw [hfar l i hne fun hl hi => hchild ⟨hl, hi⟩]
      exact hshows.cells l i hne
  refine ⟨hfine ▸ rfl, ?_, ?_⟩
  · show (Function.update lane.ridge.cells k _ (k + 1)).lookup p = none
    rw [update_of_ne (Nat.succ_ne_self k)]
    exact hshows.missing
  intro l i hne
  show ((Function.update lane.ridge.cells k _ l).lookup i).map _ = _
  by_cases hl : l = k
  · subst hl
    rw [update_self, lookup_insert]
    by_cases hi : i = c
    · subst hi
      have hsome : (held.relevel env.canon l i l).members l i ≠ ∅ := by
        intro hempty
        rw [hbins, hempty] at hcons
        exact hcons rfl
      unfold Holding.cell
      rw [if_pos rfl, if_neg hsome, cellOver_live hlive, hbins]
      rfl
    · rw [if_neg hi, hfar l i hne fun _ => hi]
      exact hshows.cells l i hne
  · rw [update_of_ne hl, hfar l i hne fun hl' => absurd hl' hl]
    exact hshows.cells l i hne

/-- Move the groups `cs` of level `k` to that level. -/
def Holding.relevelEach (canon : CanonicalTables) (k : Nat) (cs : List Nat) (held : Holding) :
    Holding :=
  cs.foldl (fun held c => held.relevel canon k c k) held

theorem Holding.lookup_relevelEach {canon : CanonicalTables} (cs : List Nat)
    (held : Holding) (b : Nat) :
    (held.relevelEach canon k cs).lookup b = (held.lookup b).map fun h =>
      if b / Nr.powR k ∈ cs then ⟨inFrame canon k b h.bin, k, h.shed⟩ else h := by
  induction cs generalizing held with
  | nil =>
    show held.lookup b = _
    cases held.lookup b <;> rfl
  | cons c cs ih =>
    show ((held.relevel canon k c k).relevelEach canon k cs).lookup b = _
    rw [ih, lookup_relevel, Option.map_map]
    congr 1
    funext h
    dsimp only [comp_apply]
    by_cases hc : b / Nr.powR k = c
    · have hmem : b / Nr.powR k ∈ c :: cs := hc ▸ mem_cons_self
      rw [if_pos hc, if_pos hmem, inFrame_inFrame]
      split <;> rfl
    have hmem : b / Nr.powR k ∈ c :: cs ↔ b / Nr.powR k ∈ cs := by
      rw [mem_cons, or_iff_right hc]
    by_cases hin : b / Nr.powR k ∈ cs
    · rw [if_neg hc, if_pos hin, if_pos (hmem.mpr hin)]
    · rw [if_neg hc, if_neg hin, if_neg (mt hmem.mp hin)]

def Lane.Reshaped (s s' : Lane) : Prop :=
  ∃ fine cells journal,
    s' = { s with ridge := { s.ridge with fine := fine, cells := cells }, journal := journal }

theorem Lane.Reshaped.trans {s'' : Lane} (h : s.Reshaped s') (h' : s'.Reshaped s'') :
    s.Reshaped s'' := by
  obtain ⟨_, _, _, rfl⟩ := h
  obtain ⟨fine, cells, journal, rfl⟩ := h'
  exact ⟨fine, cells, journal, rfl⟩

theorem Lane.Reshaped.fields (h : s.Reshaped s') :
    s'.params = s.params ∧ s'.ridge.t = s.ridge.t ∧ s'.ridge.started = s.ridge.started ∧
      s'.ridge.width = s.ridge.width ∧ s'.ridge.record = s.ridge.record ∧ s'.mmr = s.mmr := by
  obtain ⟨_, _, _, rfl⟩ := h
  exact ⟨rfl, rfl, rfl, rfl, rfl, rfl⟩

theorem Lane.Reshaped.equiv {before after : Lane} (hs : s ≈ after)
    (hafter : before.Reshaped after) (hs' : s.Reshaped s') (hshows : s'.ridge.Shows held)
    (hbefore : before.ridge.Shows held) : s' ≈ before := by
  obtain ⟨hfine, hcells⟩ := hshows.alike hbefore
  obtain ⟨_, _, _, rfl⟩ := hafter
  obtain ⟨_, _, _, rfl⟩ := hs'
  have hridge := hs.ridge
  exact { hs with ridge := { hridge with fine := hfine, cells := hcells } }

theorem Lane.nrRestoreChild_reshaped (hm : m ≤ Nr.maxFoldCap)
    (h : nrRestoreChild env m lane c = .ok lane') : lane.Reshaped lane' := by
  obtain ⟨g, -, ⟨-, rfl⟩ | ⟨-, rfl⟩⟩ := nrRestoreChild_eq_ok hm h
  · exact ⟨_, lane.ridge.cells, lane.journal, rfl⟩
  · exact ⟨_, _, lane.journal, rfl⟩

theorem Ridge.ShowsBut.restoreAll (hk : k ≤ Nr.maxFoldCap) {cs : List Nat}
    (hcs : ∀ c ∈ cs, c / Nr.rollup = p) (hshows : lane.ridge.ShowsBut (k + 1) p held)
    (hgroup : ∀ c, c / Nr.rollup = p → ∃ m, (m = k ∨ m = k + 1) ∧ held.GroupAt k c m)
    (h : cs.foldlM (nrRestoreChild env k) lane = .ok lane') :
    lane'.ridge.ShowsBut (k + 1) p (held.relevelEach env.canon k cs) ∧ lane.Reshaped lane' := by
  induction cs generalizing lane held with
  | nil =>
    cases h
    exact ⟨hshows, lane'.ridge.fine, lane'.ridge.cells, lane'.journal, rfl⟩
  | cons c cs ih =>
    obtain ⟨mid, hmid, hrest⟩ := bind_eq_ok.mp h
    have hc := hcs c mem_cons_self
    obtain ⟨m, hm, hat⟩ := hgroup c hc
    have hnext := hshows.restore hk hc hat hm hmid
    have hreshaped := nrRestoreChild_reshaped hk hmid
    have hkeep : ∀ c', c' / Nr.rollup = p → ∃ m, (m = k ∨ m = k + 1) ∧
        (held.relevel env.canon k c k).GroupAt k c' m := by
      intro c' hc'
      by_cases heq : c' = c
      · subst heq
        exact ⟨k, .inl rfl, hat.relevel⟩
      obtain ⟨m', hm', hat'⟩ := hgroup c' hc'
      refine ⟨m', hm', ?_⟩
      intro b x hx hb
      obtain ⟨h₀, hh₀, ⟨hbc, -⟩ | ⟨-, rfl⟩⟩ := lookup_relevel_eq_some hx
      · exact absurd (hb.symm.trans hbc) heq
      · exact hat' b x hh₀ hb
    obtain ⟨hlast, hreshaped'⟩ := ih (fun c' hc' => hcs c' (mem_cons_of_mem _ hc')) hnext
      hkeep hrest
    exact ⟨hlast, hreshaped.trans hreshaped'⟩

theorem Lane.mem_nrChildren (hshows : s.ridge.Shows held)
    (hgroup : held.GroupAt (k + 1) p (k + 1)) :
    (∀ c ∈ s.nrChildren (k + 1) p, c / Nr.rollup = p ∧ (k = 0 → ∃ h, held.lookup c = some h)) ∧
      ∀ b h, held.lookup b = some h → b / Nr.powR (k + 1) = p →
        b / Nr.powR k ∈ s.nrChildren (k + 1) p := by
  unfold nrChildren
  have hzero : ∀ b, b / Nr.powR 0 = b := fun b => Nat.div_one b
  by_cases hk : k = 0
  · subst hk
    rw [if_pos rfl]
    constructor
    · intro c hc
      obtain ⟨e, he, rfl⟩ := mem_map.mp hc
      obtain ⟨hlook, hspan⟩ := mem_slice.mp he
      rw [hshows.fine, lookup_fine] at hlook
      obtain ⟨h, hh, -⟩ := Option.bind_eq_some_iff.mp hlook
      exact ⟨mem_span_iff.mp hspan, fun _ => ⟨h, hh⟩⟩
    intro b h hb hp
    rw [hzero, mem_map]
    refine ⟨(b, h.bin), mem_slice.mpr ⟨?_, mem_span_iff.mpr hp⟩, rfl⟩
    rw [hshows.fine, lookup_fine, hb, Option.bind_some, (hgroup b h hb hp).2]
    rfl
  rw [if_neg (by omega)]
  have hr := Nr.rollup_eq
  constructor
  · intro c hc
    obtain ⟨i, hi, rfl⟩ := mem_map.mp hc
    rw [← child_iff]
    have hlt := mem_range.mp hi
    exact ⟨by omega, fun hzero => absurd hzero hk⟩
  intro b h hb hp
  have hspan := child_iff.mpr ((div_powR_succ b k).symm.trans hp)
  rw [mem_map]
  refine ⟨b / Nr.powR k - p * Nr.rollup, mem_range.mpr ?_, ?_⟩
  · omega
  · omega

theorem Ridge.Shows.erase {r : Ridge} (hshows : r.Shows held) (l p : Nat) :
    Ridge.ShowsBut l p
      { r with cells := Function.update r.cells l ((r.cells l).erase p) } held := by
  refine ⟨hshows.fine, ?_, ?_⟩
  · dsimp only
    rw [update_self, lookup_erase, if_pos rfl]
  intro l' i hne
  dsimp only
  by_cases hl : l' = l
  · subst hl
    rw [update_self, lookup_erase, if_neg (hne rfl)]
    exact hshows.cells l' i
  · rw [update_of_ne hl]
    exact hshows.cells l' i

theorem Ridge.Shows.undoFold (hk : k ≤ Nr.maxFoldCap) (hshows : s.ridge.Shows held)
    (hgroup : held.GroupAt (k + 1) p (k + 1)) (h : s.nrUndoFold env (k + 1) p = .ok s') :
    s'.ridge.Shows (held.relevel env.canon (k + 1) p k) ∧ s.Reshaped s' := by
  unfold nrUndoFold at h
  split at h
  · cases h
  split at h
  · cases h
  obtain ⟨hmem, hall⟩ := mem_nrChildren hshows hgroup
  have hchild : ∀ c, c / Nr.rollup = p → ∃ m, (m = k ∨ m = k + 1) ∧ held.GroupAt k c m := by
    intro c hc
    refine ⟨k + 1, .inr rfl, ?_⟩
    intro b x hx hb
    exact hgroup b x hx ((div_of_child hb).trans hc)
  obtain ⟨hbut, hreshaped⟩ := (hshows.erase (k + 1) p).restoreAll hk
    (fun c hc => (hmem c hc).1) hchild h
  have hheld : held.relevelEach env.canon k (s.nrChildren (k + 1) p) =
      held.relevel env.canon (k + 1) p k := by
    apply ext_lookup
    intro b
    rw [lookup_relevelEach, lookup_relevel]
    cases hb : held.lookup b with
    | none => rfl
    | some x =>
      rw [Option.map_some, Option.map_some]
      by_cases hp : b / Nr.powR (k + 1) = p
      · rw [if_pos hp, if_pos (hall b x hb hp)]
      rw [if_neg hp, if_neg]
      intro hin
      exact hp ((div_powR_succ b k).trans (hmem _ hin).1)
  rw [hheld] at hbut
  refine ⟨⟨hbut.fine, ?_⟩, ?_⟩
  · intro l i
    by_cases hparent : l = k + 1 ∧ i = p
    · obtain ⟨rfl, rfl⟩ := hparent
      have hempty : (held.relevel env.canon (k + 1) i k).members (k + 1) i = ∅ :=
        members_relevel_left (Nat.succ_ne_self k).symm fun _ hb => hb
      unfold Holding.cell
      rw [hbut.missing, if_pos hempty]
      rfl
    · exact hbut.cells l i fun hl hi => hparent ⟨hl, hi⟩
  have herased : s.Reshaped (s.setLevel (k + 1) ((s.ridge.cells (k + 1)).erase p)) :=
    ⟨s.ridge.fine, _, s.journal, rfl⟩
  exact herased.trans hreshaped

theorem Lane.nrRestoreChild_total (hm : m ≤ Nr.maxFoldCap)
    (h : ∃ g, lane.scalar env (spanHi m c) = .ok g) :
    ∃ lane', nrRestoreChild env m lane c = .ok lane' := by
  obtain ⟨g, hg⟩ := h
  unfold nrRestoreChild nrBuildCellFromFine
  rw [reframe_eq hm, hg]
  by_cases hbins : binsOf (reframed env.canon m c lane.ridge.fine) m c = []
  · refine ⟨lane.setFine (reframed env.canon m c lane.ridge.fine), ?_⟩
    simp [orThrow, bind, Except.bind, hbins]
  refine ⟨(lane.setFine (reframed env.canon m c lane.ridge.fine)).setLevel m
    ((lane.ridge.cells m).insert c
      (cellOf m c (binsOf (reframed env.canon m c lane.ridge.fine) m c) g)), ?_⟩
  simp [orThrow, bind, Except.bind, hbins]

theorem Lane.restoreAll_total (hm : m ≤ Nr.maxFoldCap) {cs : List Nat}
    (h : ∀ c ∈ cs, ∃ g, lane.scalar env (spanHi m c) = .ok g) :
    ∃ lane', cs.foldlM (nrRestoreChild env m) lane = .ok lane' := by
  induction cs generalizing lane with
  | nil => exact ⟨lane, rfl⟩
  | cons c cs ih =>
    obtain ⟨mid, hmid⟩ := nrRestoreChild_total hm (h c mem_cons_self)
    obtain ⟨hparams, ht, -⟩ := (nrRestoreChild_reshaped hm hmid).fields
    have hnext : ∀ c' ∈ cs, ∃ g, mid.scalar env (spanHi m c') = .ok g := by
      intro c' hc'
      unfold scalar
      rw [hparams, ht]
      exact h c' (mem_cons_of_mem _ hc')
    obtain ⟨lane', hrest⟩ := ih hnext
    refine ⟨lane', ?_⟩
    rw [foldlM_cons, hmid]
    exact hrest

theorem Holding.cellOver_carried {l i : Nat} (h : ∀ b x, held.lookup b = some x → x.shed = false) :
    (Holding.cellOver l i held).carried = ∅ := by
  rw [cellOver_live h]
  rfl

theorem Ridge.Shows.undoFold_total (hk : k ≤ Nr.maxFoldCap)
    (hshows : s.ridge.Shows held) (hgroup : held.GroupAt (k + 1) p (k + 1))
    (hsome : ∃ b h, held.lookup b = some h ∧ b / Nr.powR (k + 1) = p)
    (hscalar : ∀ c ∈ s.nrChildren (k + 1) p, ∃ g, s.scalar env (spanHi k c) = .ok g) :
    ∃ s', s.nrUndoFold env (k + 1) p = .ok s' := by
  have hmembers : held.members (k + 1) p ≠ ∅ := by
    obtain ⟨b, h, hb, hp⟩ := hsome
    exact members_ne_empty.mpr ⟨b, h, hb, (hgroup b h hb hp).1, hp⟩
  have hcell := hshows.cells (k + 1) p
  unfold Holding.cell at hcell
  rw [if_neg hmembers] at hcell
  obtain ⟨c, hc, hunscaled⟩ := Option.map_eq_some_iff.mp hcell
  have hcarried : c.carried = ∅ := by
    have hsame : c.unscaled.carried = ∅ := by
      rw [hunscaled]
      apply cellOver_carried
      intro b x hx
      obtain ⟨hx, -, hp⟩ := lookup_members_eq_some.mp hx
      exact (hgroup b x hx hp).2
    exact hsame
  unfold nrUndoFold
  rw [hc]
  dsimp only
  rw [if_neg (not_not.mpr hcarried)]
  exact restoreAll_total hk hscalar

end C2Pool.V37
