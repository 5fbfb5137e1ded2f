import C2Pool.V37.RidgeFold

/-! # The folds of a tick

A group is folded when its last bin is sealed.  Level by level, the folds of a
tick bring every held bin from the level of the old clock to the level of the
new one, and their records lead back.
-/

namespace C2Pool.V37

open List Lane PartialRun UndoLog SortedMap Holding

variable {env : Env} {sure total : Prop} {held : Holding}

/-! ## One fold -/

structure Lane.Holds (env : Env) (held : Holding) (lane : Lane) : Prop where
  shows : lane.ridge.Shows held
  sound : held.Sound env.canon lane.params.nr.foldCap

def Lane.Traced (env : Env) (total : Prop) (before after : Lane) : Prop :=
  LeadsBack env total Op.isPreOp Alike before after

theorem Lane.Traced.refl (lane : Lane) : Traced env total lane lane :=
  ⟨[], rfl, (fun _ hop => nomatch hop), fun _ h => h⟩

theorem Lane.Traced.trans {before mid after : Lane} (h : Traced env total before mid)
    (h' : Traced env total mid after) : Traced env total before after := LeadsBack.trans h h'

theorem Lane.Traced.of_undo {before after : Lane} {op : Op}
    (hjournal : after.journal = op :: before.journal) (hkind : op.isPreOp = true)
    (h : ∀ s, s ≈ after → Meets total (undoOp env s op) fun s' => s' ≈ before) :
    Traced env total before after := by
  refine ⟨[op], hjournal, by simpa using hkind, Undoes.leads ?_⟩
  intro s hs
  have hmeets := h s (Setoid.trans (Setoid.symm s.unlogged_equiv) hs)
  cases hundo : undoOp env s op with
  | error e =>
    rw [hundo] at hmeets
    exact .inr ⟨hmeets.not_sure, e, rfl⟩
  | ok s' => exact .inl ⟨s', rfl, Setoid.trans s'.unlogged_equiv (hmeets.of_eq_ok hundo)⟩

def Lane.ChildScalars (env : Env) (held : Holding) (k p : Nat) (lane : Lane) : Prop :=
  ∀ c, c / Nr.rollup = p → (k = 0 → ∃ h, held.lookup c = some h) →
    ∃ g, lane.scalar env (spanHi k c) = .ok g

section

variable {lane : Lane} (h : lane.Holds env held) {k p : Nat}
include h

theorem Lane.Holds.fold_traced (hk : k < Nr.maxFoldCap) (hgroup : held.GroupAt (k + 1) p k)
    (hsome : ∃ b x, held.lookup b = some x ∧ b / Nr.powR (k + 1) = p) (g : U64)
    (htotal : total → lane.ChildScalars env held k p) :
    Traced env total lane
      (lane.afterFold (k + 1) p (reframed env.canon (k + 1) p lane.ridge.fine) g) := by
  refine .of_undo rfl rfl ?_
  intro s hs
  have hshows : s.ridge.Shows (held.relevel env.canon (k + 1) p (k + 1)) :=
    (h.shows.fold hgroup hsome g).of_alike hs.ridge.fine hs.ridge.cells
  have hmoved : (held.relevel env.canon (k + 1) p (k + 1)).GroupAt (k + 1) p (k + 1) :=
    hgroup.relevel
  have hreshaped : lane.Reshaped
      (lane.afterFold (k + 1) p (reframed env.canon (k + 1) p lane.ridge.fine) g) := ⟨_, _, _, rfl⟩
  show Meets total (s.nrUndoFold env (k + 1) p) _
  cases hundo : s.nrUndoFold env (k + 1) p with
  | error e =>
    refine .error fun hyes => ?_
    have hsome' : ∃ b x, (held.relevel env.canon (k + 1) p (k + 1)).lookup b = some x ∧
        b / Nr.powR (k + 1) = p := by
      obtain ⟨b, x, hb, hp⟩ := hsome
      exact ⟨b, _, by rw [lookup_relevel, hb]; rfl, hp⟩
    have hscalars : ∀ c ∈ s.nrChildren (k + 1) p, ∃ g, s.scalar env (spanHi k c) = .ok g := by
      intro c hc
      obtain ⟨hp, hzero⟩ := (mem_nrChildren hshows hmoved).1 c hc
      have hscalar : s.scalar env (spanHi k c) = lane.scalar env (spanHi k c) := by
        unfold scalar
        rw [hs.params, hs.ridge.t]
        rfl
      rw [hscalar]
      refine htotal hyes c hp fun hk0 => ?_
      obtain ⟨x, hx⟩ := hzero hk0
      obtain ⟨x₀, hx₀, -⟩ := lookup_relevel_eq_some hx
      exact ⟨x₀, hx₀⟩
    obtain ⟨s', hs'⟩ := hshows.undoFold_total hk.le hmoved hsome' hscalars
    rw [hundo] at hs'
    cases hs'
  | ok s' =>
    obtain ⟨hback, hreshaped'⟩ := hshows.undoFold hk.le hmoved hundo
    rw [relevel_relevel h.sound hgroup] at hback
    exact .ok (hreshaped.equiv hs hreshaped' hback h.shows)

theorem Lane.Holds.child_carried (hgroup : held.GroupAt (k + 1) p k) {e : Nat × Nr.Cell}
    (he : e ∈ (lane.ridge.cells k).slice (p * Nr.rollup) (p * Nr.rollup + Nr.rollup - 1)) :
    e.2.carried = ∅ := by
  obtain ⟨hlook, hspan⟩ := mem_slice.mp he
  obtain ⟨-, hcell⟩ := h.shows.cell hlook
  have hcarried : e.2.unscaled.carried = ∅ := by
    rw [hcell]
    apply cellOver_carried
    intro b x hx
    obtain ⟨hx, -, hb⟩ := lookup_members_eq_some.mp hx
    exact (hgroup b x hx ((div_of_child hb).trans (child_iff.mp hspan))).2
  exact hcarried

theorem Lane.Holds.nrFoldGroup (hk : k < lane.params.nr.foldCap)
    (hcap : lane.params.nr.foldCap ≤ Nr.maxFoldCap) (hgroup : held.GroupAt (k + 1) p k)
    (hsome : ∃ b x, held.lookup b = some x ∧ b / Nr.powR (k + 1) = p)
    (htotal : total → lane.ChildScalars env held k p)
    (hsure : sure → ∃ g, lane.scalar env (spanHi (k + 1) p) = .ok g) :
    Meets sure (lane.nrFoldGroup env (k + 1) p) fun lane' =>
      lane'.Holds env (held.relevel env.canon (k + 1) p (k + 1)) ∧ Traced env total lane lane' ∧
        lane.Reshaped lane' := by
  cases hfold : lane.nrFoldGroup env (k + 1) p with
  | ok lane' =>
    obtain ⟨-, fine, g, hfine, -, -, rfl⟩ := nrFoldGroup_eq_ok hfold
    rw [reframe_eq (by omega)] at hfine
    cases hfine
    exact .ok ⟨⟨h.shows.fold hgroup hsome g, h.sound.relevel hgroup (Nat.le_succ k) le_rfl hk⟩,
      h.fold_traced (by omega) hgroup hsome g htotal, _, _, _, rfl⟩
  | error e =>
    refine .error fun hyes => ?_
    obtain ⟨g, hg⟩ := hsure hyes
    have hcarried : ¬ ∃ e ∈ (lane.ridge.cells (k + 1 - 1)).slice (p * Nr.rollup)
        (p * Nr.rollup + Nr.rollup - 1), e.2.carried ≠ ∅ := by
      rintro ⟨e, he, hne⟩
      exact hne (h.child_carried hgroup he)
    have hbins : binsOf (reframed env.canon (k + 1) p lane.ridge.fine) (k + 1) p ≠ [] := by
      have hfine : reframed env.canon (k + 1) p lane.ridge.fine =
          (held.relevel env.canon (k + 1) p (k + 1)).fine := by
        rw [fine_relevel hgroup, h.shows.fine]
        rfl
      have hmoved : (held.relevel env.canon (k + 1) p (k + 1)).GroupAt (k + 1) p (k + 1) :=
        hgroup.relevel
      rw [hfine, binsOf_fine hmoved]
      obtain ⟨b, x, hb, hp⟩ := hsome
      intro hnil
      exact members_relevel_self hb hp (entries_eq_nil.mp (map_eq_nil_iff.mp hnil))
    unfold Lane.nrFoldGroup at hfold
    dsimp only at hfold
    rw [if_neg hcarried] at hfold
    have hbuild : (lane.setLevel (k + 1 - 1) ((lane.ridge.cells (k + 1 - 1)).cutOut
        (p * Nr.rollup) (p * Nr.rollup + Nr.rollup - 1))).nrBuildCellFromFine env (k + 1) p =
        .ok (reframed env.canon (k + 1) p lane.ridge.fine,
          some (cellOf (k + 1) p (binsOf (reframed env.canon (k + 1) p lane.ridge.fine)
            (k + 1) p) g)) := by
      unfold nrBuildCellFromFine
      rw [reframe_eq (by omega)]
      show scalar env lane (spanHi (k + 1) p) >>= _ = _
      rw [hg]
      show Except.ok (_, if binsOf (reframed env.canon (k + 1) p lane.ridge.fine) (k + 1) p = []
        then _ else _) = _
      rw [if_neg hbins]
      rfl
    rw [hbuild] at hfold
    cases hfold

end

theorem getLast?_of_top {due : List Nat} (hsorted : due.Pairwise (· < ·)) {x : Nat} (hx : x ∈ due)
    (htop : ∀ y ∈ due, y ≤ x) : due.getLast? = some x := by
  rcases eq_nil_or_concat due with rfl | ⟨init, last, rfl⟩
  · cases hx
  rw [concat_eq_append] at hsorted hx htop ⊢
  rw [getLast?_concat, Option.some.injEq]
  have hle := htop last (mem_append_right _ mem_cons_self)
  rcases mem_append.mp hx with hin | hin
  · have hlt := (pairwise_append.mp hsorted).2.2 x hin last mem_cons_self
    omega
  · exact (mem_singleton.mp hin).symm

theorem collect_spec {α : Type} (f : α → Nat) (P : Nat → Prop) [DecidablePred P] {xs : List α}
    (hmono : xs.Pairwise fun a b => f a ≤ f b) :
    (xs.foldl (fun due e => if P (f e) ∧ due.getLast? ≠ some (f e) then due ++ [f e] else due)
      []).Pairwise (· < ·) ∧
      ∀ p, p ∈ xs.foldl (fun due e =>
        if P (f e) ∧ due.getLast? ≠ some (f e) then due ++ [f e] else due) [] ↔
          P p ∧ ∃ e ∈ xs, f e = p := by
  induction xs using List.reverseRecOn with
  | nil => simp
  | append_singleton xs e ih =>
    have hsplit := pairwise_append.mp hmono
    obtain ⟨hsorted, hmem⟩ := ih hsplit.1
    rw [foldl_append]
    generalize xs.foldl (fun due e =>
      if P (f e) ∧ due.getLast? ≠ some (f e) then due ++ [f e] else due) [] = due
      at hsorted hmem ⊢
    have hle : ∀ p ∈ due, p ≤ f e := by
      intro p hp
      obtain ⟨-, e', he', rfl⟩ := (hmem p).mp hp
      exact hsplit.2.2 e' he' e mem_cons_self
    have hnew : ∀ p, (P p ∧ ∃ e' ∈ xs ++ [e], f e' = p) ↔ p ∈ due ∨ P p ∧ f e = p := by
      intro p
      rw [hmem]
      simp only [mem_append, mem_singleton, or_and_right, exists_or, exists_eq_left]
      exact and_or_left
    show (if P (f e) ∧ due.getLast? ≠ some (f e) then due ++ [f e] else due).Pairwise _ ∧
      ∀ p, p ∈ (if P (f e) ∧ due.getLast? ≠ some (f e) then due ++ [f e] else due) ↔ _
    split
    · rename_i hadd
      refine ⟨pairwise_append.mpr ⟨hsorted, pairwise_singleton _ _, ?_⟩, ?_⟩
      · intro p hp q hq
        rw [mem_singleton] at hq
        subst hq
        refine lt_of_le_of_ne (hle p hp) ?_
        rintro rfl
        exact hadd.2 (getLast?_of_top hsorted hp hle)
      intro p
      rw [hnew, mem_append, mem_singleton]
      constructor
      · rintro (hp | rfl)
        · exact .inl hp
        · exact .inr ⟨hadd.1, rfl⟩
      rintro (hp | ⟨-, rfl⟩)
      · exact .inl hp
      · exact .inr rfl
    rename_i hskip
    refine ⟨hsorted, ?_⟩
    intro p
    rw [hnew]
    refine ⟨.inl, ?_⟩
    rintro (hp | ⟨hP, rfl⟩)
    · exact hp
    have hlast : due.getLast? = some (f e) := by
      by_contra hne
      exact hskip ⟨hP, hne⟩
    exact mem_of_getLast? hlast

theorem Ridge.Shows.binLo {r : Ridge} (h : r.Shows held) {l i : Nat} {c : Nr.Cell}
    (hc : (r.cells l).lookup i = some c) :
    c.level = l ∧ c.binLo = spanLo l i ∧ c.binHi = spanHi l i ∧ c.recordOnly = false := by
  obtain ⟨-, hcell⟩ := h.cell hc
  have hfields : c.unscaled.level = l ∧ c.unscaled.binLo = spanLo l i ∧
      c.unscaled.binHi = spanHi l i ∧ c.unscaled.recordOnly = false := by
    rw [hcell]
    exact ⟨rfl, rfl, rfl, rfl⟩
  exact hfields

theorem Lane.Holds.nrDueGroups {lane : Lane} (h : lane.Holds env held) (k : Nat) :
    (lane.nrDueGroups (k + 1)).Pairwise (· < ·) ∧
      ∀ p, p ∈ lane.nrDueGroups (k + 1) ↔
        Nr.sealedBin (spanHi (k + 1) p) lane.ridge.t lane.params.nr.openHorizonBins ∧
          ∃ b x, held.lookup b = some x ∧ x.level = k ∧ b / Nr.powR (k + 1) = p := by
  have hparent : ∀ e ∈ (lane.ridge.cells k).entries,
      e.2.binLo / Nr.powR (k + 1) = e.1 / Nr.rollup := by
    intro e he
    obtain ⟨-, hlo, -⟩ := h.shows.binLo (mem_entries_iff.mp he)
    rw [hlo, div_powR_succ, spanLo_div]
  have hmono : (lane.ridge.cells k).entries.Pairwise fun a b =>
      a.2.binLo / Nr.powR (k + 1) ≤ b.2.binLo / Nr.powR (k + 1) := by
    apply (lane.ridge.cells k).sorted.imp_of_mem
    intro a b ha hb hlt
    rw [hparent a ha, hparent b hb]
    exact Nat.div_le_div_right hlt.le
  obtain ⟨hsorted, hmem⟩ := collect_spec (fun e : Nat × Nr.Cell => e.2.binLo / Nr.powR (k + 1))
    (fun p => Nr.sealedBin (spanHi (k + 1) p) lane.ridge.t lane.params.nr.openHorizonBins) hmono
  refine ⟨hsorted, fun p => (hmem p).trans (and_congr_right fun _ => ?_)⟩
  constructor
  · rintro ⟨e, he, hp⟩
    have hlook := mem_entries_iff.mp he
    obtain ⟨hne, -⟩ := h.shows.cell hlook
    obtain ⟨b, x, hb, hlevel, hi⟩ := members_ne_empty.mp hne
    refine ⟨b, x, hb, hlevel, ?_⟩
    rw [div_of_child hi, ← hparent e he]
    exact hp
  rintro ⟨b, x, hb, hlevel, hp⟩
  have hne : held.members k (b / Nr.powR k) ≠ ∅ := members_ne_empty.mpr ⟨b, x, hb, hlevel, rfl⟩
  have hcell := h.shows.cells k (b / Nr.powR k)
  unfold Holding.cell at hcell
  rw [if_neg hne] at hcell
  obtain ⟨c, hc, -⟩ := Option.map_eq_some_iff.mp hcell
  have he : (b / Nr.powR k, c) ∈ (lane.ridge.cells k).entries := mem_entries_iff.mpr hc
  refine ⟨_, he, ?_⟩
  rw [hparent _ he, ← hp, div_powR_succ]

/-! ## One level of folds -/

namespace Holding

/-- A held bin has reached level `l` exactly when its group of that level is in `D`. -/
def Leveled (cap : Nat) (D : Nat → Nat → Prop) (held : Holding) : Prop :=
  ∀ b x, held.lookup b = some x → ∀ l, l ≠ 0 → l ≤ cap → (l ≤ x.level ↔ D l (b / Nr.powR l))

def sealedBy (horizon t l p : Nat) : Prop := spanHi l p + horizon ≤ t

/-- The groups of the clock `t` up to level `k`, and of the clock `t₀` above it. -/
def staged (horizon t₀ t k l p : Nat) : Prop := sealedBy horizon (if l ≤ k then t else t₀) l p

theorem staged_of_le {horizon t₀ t k l p : Nat} (h : l ≤ k) :
    staged horizon t₀ t k l p ↔ sealedBy horizon t l p := by
  unfold staged
  rw [if_pos h]

theorem staged_of_lt {horizon t₀ t k l p : Nat} (h : k < l) :
    staged horizon t₀ t k l p ↔ sealedBy horizon t₀ l p := by
  unfold staged
  rw [if_neg (Nat.not_le.mpr h)]

/-- No test of the fold rule wraps around. -/
def Fits (cap horizon : Nat) (held : Holding) : Prop :=
  ∀ b x, held.lookup b = some x → groupHi cap b + horizon + 1 < 2 ^ 64

/-- Every cell that can still be folded is inside the ladder. -/
def Near (cap t : Nat) (held : Holding) : Prop :=
  ∀ b x, held.lookup b = some x → x.level < cap → t < groupHi x.level b + Nr.ladderDomainBins

def work (canon : CanonicalTables) (held : Holding) : SortedMap Nat (Nr.FineBin × Bool) :=
  held.mapValues fun b x => (inFrame canon 0 b x.bin, x.shed)

theorem work_relevel (canon : CanonicalTables) (held : Holding) (l p l' : Nat) :
    (held.relevel canon l p l').work canon = held.work canon := by
  apply ext_lookup
  intro b
  unfold work
  rw [lookup_mapValues, lookup_mapValues, lookup_relevel, Option.map_map]
  congr 1
  funext x
  dsimp only [Function.comp_apply]
  split
  · rw [inFrame_inFrame]
  · rfl

theorem lookup_of_work {canon : CanonicalTables} {held held' : Holding}
    (h : held'.work canon = held.work canon) {b : Nat} {x : Held} (hb : held'.lookup b = some x) :
    ∃ x₀, held.lookup b = some x₀ ∧ x₀.shed = x.shed := by
  have hlook : (held'.work canon).lookup b = some (inFrame canon 0 b x.bin, x.shed) := by
    unfold work
    rw [lookup_mapValues, hb]
    rfl
  rw [h] at hlook
  unfold work at hlook
  rw [lookup_mapValues] at hlook
  obtain ⟨x₀, hx₀, hpair⟩ := Option.map_eq_some_iff.mp hlook
  exact ⟨x₀, hx₀, (Prod.mk.injEq _ _ _ _ ▸ hpair).2⟩

/-- Where nothing wraps around, the test of the code is the plain one. -/
theorem Fits.sealedBin_iff {cap horizon : Nat} (hfits : held.Fits cap horizon) {b : Nat} {x : Held}
    (hb : held.lookup b = some x) {l : Nat} (hl : l ≤ cap) (t : Nat) :
    Nr.sealedBin (spanHi l (b / Nr.powR l)) t horizon ↔ sealedBy horizon t l (b / Nr.powR l) := by
  have hmono : spanHi l (b / Nr.powR l) ≤ groupHi cap b := groupHi_mono hl b
  have hfit := hfits b x hb
  unfold Nr.sealedBin sealedBy
  rw [Nat.mod_eq_of_lt (by omega)]

theorem sealedBy_child {horizon t k b : Nat}
    (h : sealedBy horizon t (k + 1) (b / Nr.powR (k + 1))) :
    sealedBy horizon t k (b / Nr.powR k) := by
  have hmono : groupHi k b ≤ groupHi (k + 1) b := groupHi_mono (Nat.le_succ k) b
  unfold sealedBy at h ⊢
  unfold groupHi at hmono
  omega

end Holding

/-- The undo of every fold that the clock asks for has its scalars. -/
def Lane.Unfoldable (env : Env) (held : Holding) (lane : Lane) : Prop :=
  ∀ b x, held.lookup b = some x → ∀ k, x.level ≤ k → k < lane.params.nr.foldCap →
    Holding.sealedBy lane.params.nr.openHorizonBins lane.ridge.t (k + 1) (b / Nr.powR (k + 1)) →
      lane.ChildScalars env held k (b / Nr.powR (k + 1))

/-- What a tick starts its folds with: the holding of the old clock `t₀`. -/
structure Lane.Overdue (env : Env) (sure total : Prop) (held : Holding) (t₀ : Nat) (lane : Lane) :
    Prop where
  holds : lane.Holds env held
  leveled : held.Leveled lane.params.nr.foldCap
    (Holding.sealedBy lane.params.nr.openHorizonBins t₀)
  fits : held.Fits lane.params.nr.foldCap lane.params.nr.openHorizonBins
  forward : t₀ ≤ lane.ridge.t
  cap : lane.params.nr.foldCap ≤ Nr.maxFoldCap
  near : sure → held.Near lane.params.nr.foldCap lane.ridge.t
  unfoldable : total → lane.Unfoldable env held

/-- A lane on its way through the folds of a tick that started with `start`. -/
structure Lane.Folding (env : Env) (total : Prop) (start : Lane) (held₀ : Holding)
    (D : Nat → Nat → Prop) (held : Holding) (lane : Lane) : Prop where
  holds : lane.Holds env held
  leveled : held.Leveled start.params.nr.foldCap D
  work : held.work env.canon = held₀.work env.canon
  traced : Traced env total start lane
  reshaped : start.Reshaped lane

section Folding

variable {start lane : Lane} {held₀ : Holding} {t₀ : Nat} {D : Nat → Nat → Prop}

section

variable (h : Folding env total start held₀ D held lane)
  (hstart : Overdue env sure total held₀ t₀ start)
  (hD : ∀ l p, Holding.sealedBy start.params.nr.openHorizonBins t₀ l p → D l p)
include h hstart hD

theorem Lane.Folding.level_le {b : Nat} {x x₀ : Held} (hb : held.lookup b = some x)
    (hb₀ : held₀.lookup b = some x₀) : x₀.level ≤ x.level := by
  by_cases hzero : x₀.level = 0
  · omega
  have hcap := hstart.holds.sound.level_le hb₀
  rw [h.leveled b x hb x₀.level hzero hcap]
  apply hD
  rw [← hstart.leveled b x₀ hb₀ x₀.level hzero hcap]

theorem Lane.Folding.step {k p : Nat}
    (hk : k < start.params.nr.foldCap) (hgroup : held.GroupAt (k + 1) p k)
    (hsome : ∃ b x, held.lookup b = some x ∧ b / Nr.powR (k + 1) = p)
    (hdue : Holding.sealedBy start.params.nr.openHorizonBins start.ridge.t (k + 1) p) :
    Meets sure (lane.nrFoldGroup env (k + 1) p) fun lane' =>
      Folding env total start held₀ (fun l q => D l q ∨ l = k + 1 ∧ q = p)
        (held.relevel env.canon (k + 1) p (k + 1)) lane' := by
  obtain ⟨hparams, ht, -⟩ := h.reshaped.fields
  obtain ⟨b, x, hb, hp⟩ := hsome
  obtain ⟨x₀, hb₀, -⟩ := lookup_of_work h.work hb
  have hlevel : x₀.level ≤ k := by
    have hle := h.level_le hstart hD hb hb₀
    rw [(hgroup b x hb hp).1] at hle
    exact hle
  have hscalar : ∀ hi, lane.scalar env hi = start.scalar env hi := by
    intro hi
    unfold scalar
    rw [hparams, ht]
  have htotal : total → lane.ChildScalars env held k p := by
    intro hyes c hc hzero
    rw [hscalar]
    subst hp
    refine hstart.unfoldable hyes b x₀ hb₀ k hlevel hk hdue c hc fun hk0 => ?_
    obtain ⟨y, hy⟩ := hzero hk0
    obtain ⟨y₀, hy₀, -⟩ := lookup_of_work h.work hy
    exact ⟨y₀, hy₀⟩
  have hsure : sure → ∃ g, lane.scalar env (spanHi (k + 1) p) = .ok g := by
    intro hyes
    apply Nr.cellScalar_ok
    have hnear := hstart.near hyes b x₀ hb₀ (by omega)
    have hmono : groupHi x₀.level b ≤ groupHi (k + 1) b := groupHi_mono (by omega) b
    have hhi : groupHi (k + 1) b = spanHi (k + 1) p := by
      unfold groupHi
      rw [hp]
    omega
  have hfold := h.holds.nrFoldGroup (hparams ▸ hk) (hparams ▸ hstart.cap) hgroup ⟨b, x, hb, hp⟩
    htotal hsure
  refine hfold.mono ?_
  rintro lane' ⟨hholds, htraced, hreshaped⟩
  refine ⟨hholds, ?_, (work_relevel _ _ _ _ _).trans h.work, h.traced.trans htraced,
    h.reshaped.trans hreshaped⟩
  intro b' x' hb' l hl hcap
  obtain ⟨y, hy, ⟨hp', rfl⟩ | ⟨hp', rfl⟩⟩ := lookup_relevel_eq_some hb'
  · have hbefore := h.leveled b' y hy l hl hcap
    rw [(hgroup b' y hy hp').1] at hbefore
    dsimp only
    constructor
    · intro hle
      by_cases htop : l = k + 1
      · exact .inr ⟨htop, htop ▸ hp'⟩
      · exact .inl (hbefore.mp (by omega))
    rintro (hin | ⟨htop, -⟩)
    · have := hbefore.mpr hin
      omega
    · omega
  rw [h.leveled b' x' hy l hl hcap]
  constructor
  · exact .inl
  rintro (hin | ⟨rfl, hq⟩)
  · exact hin
  · exact absurd hq hp'

end

theorem Holding.Leveled.congr {cap : Nat} {D D' : Nat → Nat → Prop} (h : held.Leveled cap D)
    (hD : ∀ b x, held.lookup b = some x → ∀ l, l ≠ 0 → l ≤ cap →
      (D l (b / Nr.powR l) ↔ D' l (b / Nr.powR l))) : held.Leveled cap D' :=
  fun b x hb l hl hcap => (h b x hb l hl hcap).trans (hD b x hb l hl hcap)

theorem Lane.Folding.congr {D' : Nat → Nat → Prop} (h : Folding env total start held₀ D held lane)
    (hD : ∀ b x, held.lookup b = some x → ∀ l, l ≠ 0 → l ≤ start.params.nr.foldCap →
      (D l (b / Nr.powR l) ↔ D' l (b / Nr.powR l))) :
    Folding env total start held₀ D' held lane := { h with leveled := h.leveled.congr hD }

/-- A lane on its way through the groups `due` of level `k + 1`, with `rest` still to
be folded. -/
def Lane.Passing (env : Env) (total : Prop) (start : Lane) (held₀ : Holding) (t₀ k : Nat)
    (due rest : List Nat) (lane : Lane) : Prop :=
  rest <:+ due ∧ ∃ held, Folding env total start held₀ (fun l q =>
    Holding.staged start.params.nr.openHorizonBins t₀ start.ridge.t k l q ∨
      l = k + 1 ∧ q ∈ due ∧ q ∉ rest) held lane

/-- A bin whose group is sealed is at level `k` at least. -/
theorem Holding.Leveled.le_level {cap k b : Nat} {x : Held} {D : Nat → Nat → Prop}
    (h : held.Leveled cap D) (hb : held.lookup b = some x) (hk : k ≤ cap)
    (hD : D k (b / Nr.powR k)) : k ≤ x.level := by
  by_cases hk0 : k = 0
  · omega
  · exact (h b x hb k hk0 hk).mpr hD

section Level

variable {k : Nat} (hstart : Overdue env sure total held₀ t₀ start)
  (hk : k < start.params.nr.foldCap)
include hstart hk

/-- The next group of the pass has bins, all at level `k`, and folds. -/
theorem Lane.Passing.step {due : List Nat} (hsorted : due.Pairwise (· < ·)) {q : Nat}
    {rest : List Nat} (h : Passing env total start held₀ t₀ k due (q :: rest) lane)
    (hsealed : Holding.sealedBy start.params.nr.openHorizonBins start.ridge.t (k + 1) q)
    (hfresh : ¬ Holding.sealedBy start.params.nr.openHorizonBins t₀ (k + 1) q)
    (hsome : ∃ b x, held₀.lookup b = some x ∧ b / Nr.powR (k + 1) = q) :
    Meets sure (lane.nrFoldGroup env (k + 1) q) (Passing env total start held₀ t₀ k due rest) := by
  obtain ⟨hsuffix, held, hfolding⟩ := h
  have hforward := hstart.forward
  have hold : ∀ l q, Holding.sealedBy start.params.nr.openHorizonBins t₀ l q →
      Holding.staged start.params.nr.openHorizonBins t₀ start.ridge.t k l q := by
    intro l q hq
    unfold Holding.staged
    unfold Holding.sealedBy at hq ⊢
    split <;> omega
  have hgroup : held.GroupAt (k + 1) q k := by
    intro b x hb hp
    have hnot : ¬ k + 1 ≤ x.level := by
      rw [hfolding.leveled b x hb (k + 1) (Nat.succ_ne_zero k) hk]
      rintro (hin | ⟨-, -, hnotin⟩)
      · rw [Holding.staged_of_lt (Nat.lt_add_one k), hp] at hin
        exact hfresh hin
      · exact hnotin (hp ▸ mem_cons_self)
    have hreach := hfolding.leveled.le_level hb hk.le
      (.inl ((Holding.staged_of_le le_rfl).mpr (Holding.sealedBy_child (hp ▸ hsealed))))
    refine ⟨by omega, ?_⟩
    by_contra hshed
    have htop := hfolding.holds.sound.shed hb (by simpa using hshed)
    rw [hfolding.reshaped.fields.1] at htop
    omega
  obtain ⟨b, x₀, hb₀, hp⟩ := hsome
  obtain ⟨x, hb, -⟩ := lookup_of_work hfolding.work.symm hb₀
  have hmeets := hfolding.step hstart (fun l p hlp => .inl (hold l p hlp)) hk hgroup
    ⟨b, x, hb, hp⟩ hsealed
  refine hmeets.mono ?_
  intro s hs
  refine ⟨(suffix_cons q rest).trans hsuffix, _, hs.congr ?_⟩
  intro b' x' _ l _ _
  have hnodup : q ∉ rest := by
    have htail := hsorted.sublist hsuffix.sublist
    intro hin
    exact absurd ((pairwise_cons.mp htail).1 q hin) (lt_irrefl q)
  constructor
  · rintro ((hin | ⟨hl, hin, hnotin⟩) | ⟨hl, heq⟩)
    · exact .inl hin
    · exact .inr ⟨hl, hin, fun hrest => hnotin (mem_cons_of_mem _ hrest)⟩
    · exact .inr ⟨hl, heq ▸ hsuffix.subset mem_cons_self, heq ▸ hnodup⟩
  rintro (hin | ⟨hl, hin, hnotin⟩)
  · exact .inl (.inl hin)
  by_cases heq : b' / Nr.powR l = q
  · exact .inr ⟨hl, heq⟩
  · exact .inl (.inr ⟨hl, hin, by simp [heq, hnotin]⟩)

/-- Level `k + 1` of the folds: the bins of level `k` whose group is sealed move up. -/
theorem Lane.Folding.nrFoldLevel (h : Folding env total start held₀
      (Holding.staged start.params.nr.openHorizonBins t₀ start.ridge.t k) held lane) :
    Meets sure (lane.nrFoldLevel env (k + 1)) fun lane' => ∃ held', Folding env total start held₀
      (Holding.staged start.params.nr.openHorizonBins t₀ start.ridge.t (k + 1)) held' lane' := by
  obtain ⟨hparams, ht, -⟩ := h.reshaped.fields
  obtain ⟨hsorted, hmem⟩ := h.holds.nrDueGroups k
  rw [hparams, ht] at hmem
  have hnew : ∀ b x, held.lookup b = some x → (k + 1 ≤ x.level ↔
      Holding.sealedBy start.params.nr.openHorizonBins t₀ (k + 1) (b / Nr.powR (k + 1))) := by
    intro b x hb
    rw [h.leveled b x hb (k + 1) (Nat.succ_ne_zero k) hk, Holding.staged_of_lt (Nat.lt_add_one k)]
  -- A due group has a bin at level `k` and is sealed.
  have hdue : ∀ q ∈ lane.nrDueGroups (k + 1),
      Holding.sealedBy start.params.nr.openHorizonBins start.ridge.t (k + 1) q ∧
        ¬ Holding.sealedBy start.params.nr.openHorizonBins t₀ (k + 1) q ∧
        ∃ b x, held₀.lookup b = some x ∧ b / Nr.powR (k + 1) = q := by
    intro q hq
    obtain ⟨hsealed, b, x, hb, hlevel, rfl⟩ := (hmem q).mp hq
    obtain ⟨x₀, hb₀, -⟩ := lookup_of_work h.work hb
    refine ⟨(hstart.fits.sealedBin_iff hb₀ hk _).mp hsealed, ?_, b, x₀, hb₀, rfl⟩
    rw [← hnew b x hb]
    omega
  have hinit : Passing env total start held₀ t₀ k (lane.nrDueGroups (k + 1))
      (lane.nrDueGroups (k + 1)) lane := by
    refine ⟨suffix_rfl, held, h.congr ?_⟩
    intro b x _ l _ _
    constructor
    · exact .inl
    rintro (hin | ⟨-, hin, hnotin⟩)
    · exact hin
    · exact absurd hin hnotin
  have hloop : Meets sure (lane.nrFoldLevel env (k + 1))
      (Passing env total start held₀ t₀ k (lane.nrDueGroups (k + 1)) []) := by
    refine Meets.foldlM (fun q rest s hs => ?_) hinit
    obtain ⟨hsealed, hfresh, hsome⟩ := hdue q (hs.1.subset mem_cons_self)
    exact hs.step hstart hk hsorted hsealed hfresh hsome
  refine hloop.mono ?_
  rintro lane' ⟨-, held', hlast⟩
  refine ⟨held', hlast.congr ?_⟩
  intro b x hb l hl hcap
  obtain ⟨x₀, hb₀, -⟩ := lookup_of_work hlast.work hb
  obtain ⟨x₁, hb₁, -⟩ := lookup_of_work h.work.symm hb₀
  by_cases htop : l = k + 1
  · subst htop
    rw [Holding.staged_of_lt (Nat.lt_add_one k), Holding.staged_of_le le_rfl]
    constructor
    · rintro (hin | ⟨-, hin, -⟩)
      · have hforward := hstart.forward
        unfold Holding.sealedBy at hin ⊢
        omega
      · exact (hdue _ hin).1
    intro hin
    by_cases hbefore : k + 1 ≤ x₁.level
    · exact .inl ((hnew b x₁ hb₁).mp hbefore)
    refine .inr ⟨rfl, (hmem _).mpr ⟨?_, b, x₁, hb₁, ?_, rfl⟩, not_mem_nil⟩
    · exact (hstart.fits.sealedBin_iff hb₀ hk _).mpr hin
    · have := h.leveled.le_level hb₁ hk.le
        ((Holding.staged_of_le le_rfl).mpr (Holding.sealedBy_child hin))
      omega
  unfold Holding.staged
  have hlt : l ≤ k ↔ l ≤ k + 1 := by omega
  rw [if_congr hlt rfl rfl]
  constructor
  · rintro (hin | ⟨heq, -⟩)
    · exact hin
    · exact absurd heq htop
  · exact .inl

end Level

theorem Lane.Overdue.nrRunDueFolds (hstart : Overdue env sure total held₀ t₀ start) :
    Meets sure (start.nrRunDueFolds env) fun lane => ∃ held, Folding env total start held₀
      (Holding.sealedBy start.params.nr.openHorizonBins start.ridge.t) held lane := by
  have hstep : ∀ k s, k < start.params.nr.foldCap →
      (∃ held, Folding env total start held₀
        (Holding.staged start.params.nr.openHorizonBins t₀ start.ridge.t k) held s) →
      Meets sure (s.nrFoldLevel env (k + 1)) fun s' => ∃ held, Folding env total start held₀
        (Holding.staged start.params.nr.openHorizonBins t₀ start.ridge.t (k + 1)) held s' := by
    rintro k s hk ⟨held, h⟩
    exact h.nrFoldLevel hstart hk
  have hinit : ∃ held, Folding env total start held₀
      (Holding.staged start.params.nr.openHorizonBins t₀ start.ridge.t 0) held start := by
    refine ⟨held₀, hstart.holds, hstart.leveled.congr ?_, rfl, .refl start, start.ridge.fine,
      start.ridge.cells, start.journal, rfl⟩
    intro b x _ l hl _
    unfold Holding.staged
    rw [if_neg (by omega)]
  have hloop := Meets.foldlM_range hstep hinit
  refine hloop.mono ?_
  rintro lane ⟨held, h⟩
  refine ⟨held, h.congr ?_⟩
  intro b x _ l _ hcap
  unfold Holding.staged
  rw [if_pos hcap]

end Folding

end C2Pool.V37
