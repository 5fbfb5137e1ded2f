import C2Pool.Sharechain.Chain
import C2Pool.Sharechain.ForestRun
import C2Pool.Sharechain.ViewRemoval

/-! # Runs of the share chain with cached queries

Additions, removals and cached queries in any order: every cached query on a
held share returns the sums over its chain as it is now.
-/

namespace C2Pool.Sharechain

open ParentForest FiniteMap Run Relation Forest TrackerView

variable {H S : Type} [DecidableEq H]

/-! ## What a removal tells the view -/

namespace Forest

variable {c c' : Forest H S} {h : H}

theorem removeBranch_shape [Inhabited H] {q : H → Option H} {p : H} (d : Detach c q h p)
    {branch : RemoveBranch} {heads : FiniteMap H H} {tails : FiniteMap H (Finset H)}
    (hbranch : c.removeBranch h p = some (branch, heads, tails)) :
    (branch = .soleChild → c.parent p = none ∧ ∀ x, c.parent x = some p → x = h) ∧
      (branch = .forkRoot → c.parent p = none) ∧
      (branch ≠ .soleChild → branch ≠ .forkRoot → ∀ y, c.parent y ≠ some h) := by
  have hmissing : p ∈ c.tails → c.parent p = none :=
    fun hp => (d.consistent.mem_tails_iff_child.mp hp).1
  unfold removeBranch at hbranch
  cases hh : c.heads.lookup h with
  | some tail =>
    have hchild : ∀ y, c.parent y ≠ some h := ((d.consistent.tables.heads_iff h tail).mp hh).1.2
    simp only [hh] at hbranch
    split at hbranch
    · cases hbranch
      simp [hchild]
    · split at hbranch <;> cases hbranch <;> simp [hchild]
  | none =>
    simp only [hh] at hbranch
    split at hbranch
    · rename_i hp
      split at hbranch
      · rename_i hcard
        cases hbranch
        have hsole : ∀ x, c.parent x = some p → x = h := by
          intro x hx
          refine Finset.card_le_one.mp hcard x ?_ h (d.mem_reverse_iff.mpr (.inl rfl))
          exact (d.consistent.tables.reverse_iff p x).mpr hx
        exact ⟨fun _ => ⟨hmissing hp, hsole⟩, by simp, by simp⟩
      · cases hbranch
        simp [hmissing hp]
    · cases hbranch

theorem Consistent.tryRemove_shape [Inhabited H] (hc : c.Consistent)
    {branch : RemoveBranch} (hr : c.tryRemove h = some (branch, c')) :
    ∃ p, c.parent h = some p ∧
      (branch = .soleChild → c.parent p = none ∧ ∀ x, c.parent x = some p → x = h) ∧
      (branch = .forkRoot → c.parent p = none) ∧
      (branch ≠ .soleChild → branch ≠ .forkRoot → ∀ y, c.parent y ≠ some h) := by
  unfold Forest.tryRemove at hr
  cases hdata : c.shares.lookup h with
  | none => simp [hdata] at hr
  | some data =>
    refine ⟨data.index.tail, parent_of_lookup hdata, ?_⟩
    simp only [hdata] at hr
    split at hr
    · cases hr
    rename_i b heads tails hbranch
    rcases hr with ⟨rfl, -⟩
    exact removeBranch_shape (hc.detach hdata) hbranch

theorem parent_erase (hshares : c'.shares = c.shares.erase h)
    (x : H) : c'.parent x = if x = h then none else c.parent x := by
  unfold parent
  rw [hshares, lookup_erase_ite]
  split <;> rfl

theorem Shallow.erase (hs : c.Shallow)
    (hshares : c'.shares = c.shares.erase h) (ha : Acyclic c.parent) : c'.Shallow := by
  apply hs.of_subforest ha
  intro x y hxy
  rw [parent_erase hshares] at hxy
  split at hxy
  · cases hxy
  · exact hxy

end Forest

namespace ShareChain

variable [Inhabited H] {E : H → H → Prop} {c : ShareChain H S} {x : H}

/-- The invariant of a chain with its view, over an acyclic previous-hash
relation `E`. -/
structure ViewInvariant (E : H → H → Prop) (c : ShareChain H S) : Prop where
  consistent : c.forest.Consistent
  shallow : c.forest.Shallow
  edges : ∀ x y, c.forest.parent x = some y → E x y
  refs : c.view.RefsOk E none
  values : TrackerView.ValuesOk c.forest c.view

theorem empty_viewInvariant : ViewInvariant E (empty : ShareChain H S) where
  consistent := empty_consistent
  shallow := shallow_of_size_le empty_consistent.acyclic
    (by simp [empty, Forest.empty, Forest.size])
  edges := by
    intro x y h
    simp [empty, Forest.empty, Forest.parent] at h
  refs := empty_refsOk
  values := by
    intro x d h
    simp [empty, TrackerView.empty, TrackerView.cached] at h

omit [DecidableEq H] [Inhabited H] in
theorem acyclic_of_edges (hE : ∀ x, ¬ TransGen E x x) {parent : H → Option H}
    (hedges : ∀ x y, parent x = some y → E x y) : Acyclic parent := by
  have hpath : ∀ n x y, ancestor parent (n + 1) x = some y → TransGen E x y := by
    intro n
    induction n with
    | zero =>
      intro x y h
      exact TransGen.single (hedges x y (by simpa using h))
    | succ n ih =>
      intro x y h
      rw [ancestor_succ_last] at h
      rcases Option.bind_eq_some_iff.mp h with ⟨z, hz, hzy⟩
      exact (ih x z hz).tail (hedges z y hzy)
  intro n x hx
  exact hE x (hpath n x x hx)

theorem ViewInvariant.add (hE : ∀ x, ¬ TransGen E x x)
    (h : ViewInvariant E c) {data : ChainData H S} (hnull : data.index.head ≠ default)
    (hnew : data.index.head ∉ c.forest.shares) (hedge : E data.index.head data.index.tail)
    (hshallow : (c.forest.add data).Shallow) : ViewInvariant E (c.add data) := by
  have hedges : ∀ x y,
      extend c.forest.parent data.index.head data.index.tail x = some y → E x y := by
    intro x y hxy
    rcases extend_eq_some_iff.mp hxy with ⟨rfl, rfl⟩ | ⟨-, hxy⟩
    · exact hedge
    · exact h.edges x y hxy
  have ha := acyclic_of_edges hE hedges
  constructor
  · exact h.consistent.add h.shallow hnull hnew ha
  · exact hshallow
  · intro x y hxy
    apply hedges
    rw [← parent_add]
    exact hxy
  · exact h.refs
  · intro x d hd
    rcases h.values x d hd with ⟨n, hn, hspan⟩
    refine ⟨n, hn, hspan.congr ?_⟩
    -- a share on the way is held already, so it is not the new one
    intro m y hm hy
    refine Finmap.lookup_insert_of_ne _ ?_
    rintro rfl
    rcases ancestor_isSome_of_le hspan.reaches hm.le with ⟨z, hz, hzt⟩
    obtain rfl : z = data.index.head := Option.some.inj (hz.symm.trans hy)
    obtain ⟨k, hk⟩ : ∃ k, n - m = k + 1 := ⟨n - m - 1, by omega⟩
    rw [hk, ancestor_succ, parent_eq_none_iff.mpr hnew] at hzt
    cases hzt

theorem ViewInvariant.remove (hE : ∀ x, ¬ TransGen E x x) (h : ViewInvariant E c)
    (order : IterationOrder H) (hash : H) : ViewInvariant E (c.remove order hash).2 := by
  unfold ShareChain.remove
  cases hr : c.forest.tryRemove hash with
  | none => exact h
  | some out =>
    rcases out with ⟨branch, forest⟩
    have hshares := shares_tryRemove hr
    rcases h.consistent.tryRemove_shape hr with ⟨p, hp, hsole, hfork, hother⟩
    have hview : (c.signalView order hash branch).RefsOk E none ∧
        TrackerView.Avoids c.forest hash (c.signalView order hash branch) := by
      by_cases hb3 : branch = .soleChild
      · subst hb3
        rcases hsole rfl with ⟨hmiss, honly⟩
        have hspec := handleRemoveSpecial_spec hE (h.edges _ _ hp)
          h.consistent.nullFree h.consistent.acyclic hp hmiss honly h.refs h.values order
        exact handleRemoved_spec hspec.1 hspec.2
      by_cases hb4 : branch = .forkRoot
      · subst hb4
        have hspec := handleRemoveSpecial2_spec h.refs h.values hp (hfork rfl) order
        exact handleRemoved_spec hspec.1 fun y d _ hy => hspec.2 y d hy
      have hchild := hother hb3 hb4
      have hspec := handleRemoved_spec (c := c.forest) (h := hash) h.refs
        fun y d hyh hy => h.values.avoids_childless hchild hyh hy
      cases branch with
      | soleChild => exact absurd rfl hb3
      | forkRoot => exact absurd rfl hb4
      | bridge => exact hspec
      | sibling => exact hspec
      | promote => exact hspec
    constructor
    · exact h.consistent.tryRemove h.shallow hr
    · exact h.shallow.erase hshares h.consistent.acyclic
    · intro x y hxy
      rw [parent_erase hshares] at hxy
      split at hxy
      · cases hxy
      · exact h.edges x y hxy
    · exact hview.1
    · exact hview.2.valuesOk hshares

/-- The uncached answer: the sums over the whole chain of `x`. -/
structure IsDeltaToLast (c : Forest H S) (x : H) (d : AttributeDelta H) : Prop where
  head : d.head = x
  missing : c.parent d.tail = none
  sums : ∃ n, TrackerView.Spans c n x d

theorem ViewInvariant.getDeltaToLast (h : ViewInvariant E c) (x : H) :
    ∃ d c', c.getDeltaToLast x = some (d, c') ∧ IsDeltaToLast c.forest x d ∧
      c'.forest = c.forest ∧ ViewInvariant E c' := by
  rcases h.consistent.exists_endsIn x with ⟨t, n, hend⟩
  rcases getDeltaToLast_spec h.consistent.nullFree h.consistent.acyclic h.refs
      h.values hend with ⟨total, v', hquery, hspan, hhead, htail, hstored, -⟩
  refine ⟨total, { c with view := v' }, ?_, ⟨hhead, ?_, n, hspan⟩, rfl, ?_⟩
  · simp [ShareChain.getDeltaToLast, hquery]
  · rw [htail]
    exact hend.2
  · exact { h with refs := hstored.refs, values := hstored.values }

theorem getDelta_eq (c : ShareChain H S) (item ancestor : H) :
    c.getDelta item ancestor = (c.getDeltaToLast item).bind fun out1 =>
      (out1.2.getDeltaToLast ancestor).map fun out2 => (out1.1 - out2.1, out2.2) := by
  unfold getDelta ShareChain.getDeltaToLast TrackerView.getDelta
  cases c.view.getDeltaToLast c.forest item with
  | none => rfl
  | some out1 =>
    simp only [Option.map_some, Option.bind_some]
    cases out1.2.getDeltaToLast c.forest ancestor <;> rfl

theorem ViewInvariant.getDelta (h : ViewInvariant E c) (x y : H) :
    ∃ d d' c', c.getDelta x y = some (d - d', c') ∧ IsDeltaToLast c.forest x d ∧
      IsDeltaToLast c.forest y d' ∧ ViewInvariant E c' := by
  rcases h.getDeltaToLast x with ⟨d, c1, hd, hlast, hforest, h1⟩
  rcases h1.getDeltaToLast y with ⟨d', c2, hd', hlast', -, h2⟩
  rw [hforest] at hlast'
  refine ⟨d, d', c2, ?_, hlast, hlast', h2⟩
  simp [getDelta_eq, hd, hd']

theorem ViewInvariant.getAttribute {A : Type} (h : ViewInvariant E c)
    (field : AttributeDelta H → A) (neutral : A) (hx : x ∈ c.forest.shares) :
    ∃ d c', c.getAttribute field neutral x = some (field d, c') ∧
      IsDeltaToLast c.forest x d ∧ ViewInvariant E c' := by
  rcases h.getDeltaToLast x with ⟨d, c', hd, hlast, -, h'⟩
  refine ⟨d, c', ?_, hlast, h'⟩
  unfold ShareChain.getAttribute
  rw [if_pos hx, hd]
  rfl

/-! ## Runs -/

inductive ViewQuery (H : Type) where
  | accHeight (hash : H)
  | work (hash : H)
  | minWork (hash : H)
  | deltaToLast (hash : H)
  | delta (item ancestor : H)

def ask (c : ShareChain H S) : ViewQuery H → ShareChain H S
  | .accHeight hash => ((c.getAccHeight hash).map Prod.snd).getD c
  | .work hash => ((c.getWork hash).map Prod.snd).getD c
  | .minWork hash => ((c.getMinWork hash).map Prod.snd).getD c
  | .deltaToLast hash => ((c.getDeltaToLast hash).map Prod.snd).getD c
  | .delta item ancestor => ((c.getDelta item ancestor).map Prod.snd).getD c

inductive Op (H S : Type) where
  | add (data : ChainData H S)
  | remove (order : IterationOrder H) (hash : H)
  | query (q : ViewQuery H)

def step (c : ShareChain H S) : Op H S → ShareChain H S
  | .add data => c.add data
  | .remove order hash => (c.remove order hash).2
  | .query q => c.ask q

/-- A share to add: a non-null hash that is not held, whose previous hash is
the one the relation `E` gives it. -/
structure Addable (E : H → H → Prop) (c : ShareChain H S) (data : ChainData H S) : Prop where
  nonNull : data.index.head ≠ default
  new : data.index.head ∉ c.forest.shares
  edge : E data.index.head data.index.tail

/-- Runs of new shares over the relation `E`. -/
def NewShares (E : H → H → Prop) (c : ShareChain H S) : Op H S → Prop
  | .add data => Addable E c data
  | .remove _ _ => True
  | .query _ => True

/-- Runs of new shares in which no chain outgrows the walk of `get_last`. -/
def ShallowShares (E : H → H → Prop) (c : ShareChain H S) : Op H S → Prop
  | .add data => Addable E c data ∧ (c.forest.add data).Shallow
  | .remove _ _ => True
  | .query _ => True

/-- Every cached query on the held share `x` answers with the uncached sums. -/
def QueriesAgree (c : ShareChain H S) (x : H) : Prop :=
  ∃ d, IsDeltaToLast c.forest x d ∧
    (c.getDeltaToLast x).map Prod.fst = some d ∧
    (c.getAccHeight x).map Prod.fst = some d.height ∧
    (c.getWork x).map Prod.fst = some d.work ∧
    (c.getMinWork x).map Prod.fst = some d.minWork ∧
    ∀ y ∈ c.forest.shares, ∃ d', IsDeltaToLast c.forest y d' ∧
      (c.getDelta x y).map Prod.fst = some (d - d')

/-- A query changes the cached view only. -/
theorem ask_eq (c : ShareChain H S) (q : ViewQuery H) : ∃ v, c.ask q = { c with view := v } := by
  have hlast : ∀ x, ∃ v, ((c.getDeltaToLast x).map Prod.snd).getD c = { c with view := v } := by
    intro x
    unfold getDeltaToLast
    cases c.view.getDeltaToLast c.forest x <;> exact ⟨_, rfl⟩
  have hattr : ∀ {A : Type} (field : AttributeDelta H → A) (neutral : A) (x : H),
      ∃ v, ((c.getAttribute field neutral x).map Prod.snd).getD c = { c with view := v } := by
    intro A field neutral x
    unfold getAttribute
    split
    · unfold getDeltaToLast
      cases c.view.getDeltaToLast c.forest x <;> exact ⟨_, rfl⟩
    · exact ⟨_, rfl⟩
  cases q with
  | accHeight hash => exact hattr _ _ hash
  | work hash => exact hattr _ _ hash
  | minWork hash => exact hattr _ _ hash
  | deltaToLast hash => exact hlast hash
  | delta item ancestor =>
    change ∃ v, ((c.getDelta item ancestor).map Prod.snd).getD c = _
    unfold getDelta
    cases c.view.getDelta c.forest item ancestor <;> exact ⟨_, rfl⟩

theorem ask_forest (c : ShareChain H S) (q : ViewQuery H) : (c.ask q).forest = c.forest := by
  obtain ⟨v, hv⟩ := ask_eq c q
  rw [hv]

theorem ask_skipList (c : ShareChain H S) (q : ViewQuery H) :
    (c.ask q).skipList = c.skipList := by
  obtain ⟨v, hv⟩ := ask_eq c q
  rw [hv]

theorem ViewInvariant.ask (h : ViewInvariant E c) (q : ViewQuery H) :
    ViewInvariant E (c.ask q) := by
  have hattr : ∀ {A : Type} (field : AttributeDelta H → A) (neutral : A) (x : H),
      ViewInvariant E (((c.getAttribute field neutral x).map Prod.snd).getD c) := by
    intro A field neutral x
    by_cases hx : x ∈ c.forest.shares
    · rcases h.getAttribute field neutral hx with ⟨d, c', hc', -, h'⟩
      rw [hc']
      exact h'
    unfold ShareChain.getAttribute
    rw [if_neg hx]
    exact h
  cases q with
  | accHeight hash => exact hattr _ _ hash
  | work hash => exact hattr _ _ hash
  | minWork hash => exact hattr _ _ hash
  | deltaToLast hash =>
    rcases h.getDeltaToLast hash with ⟨d, c', hc', -, -, h'⟩
    show ViewInvariant E (((c.getDeltaToLast hash).map Prod.snd).getD c)
    rw [hc']
    exact h'
  | delta item ancestor =>
    rcases h.getDelta item ancestor with ⟨d, d', c', hc', -, -, h'⟩
    show ViewInvariant E (((c.getDelta item ancestor).map Prod.snd).getD c)
    rw [hc']
    exact h'

theorem step_viewInvariant (hE : ∀ x, ¬ TransGen E x x) (c : ShareChain H S) (op : Op H S)
    (h : ViewInvariant E c) (hop : ShallowShares E c op) : ViewInvariant E (c.step op) := by
  cases op with
  | add data => exact h.add hE hop.1.nonNull hop.1.new hop.1.edge hop.2
  | remove order hash => exact h.remove hE order hash
  | query q => exact h.ask q

omit [Inhabited H] in
theorem IsDeltaToLast.unique {c : Forest H S} {d d' : AttributeDelta H}
    (h : IsDeltaToLast c x d) (h' : IsDeltaToLast c x d') : d = d' := by
  rcases h.sums with ⟨n, hn⟩
  rcases h'.sums with ⟨n', hn'⟩
  have hend : EndsAt c.parent n x d.tail := ⟨hn.reaches, h.missing⟩
  rcases hend.unique ⟨hn'.reaches, h'.missing⟩ with ⟨rfl, htail⟩
  rcases d with ⟨head, tail, height, work, minWork⟩
  have hhead := h.head.trans h'.head.symm
  have hheight := hn.height.trans hn'.height.symm
  have hwork := hn.work.trans hn'.work.symm
  have hmin := hn.minWork.trans hn'.minWork.symm
  simp only at hhead htail hheight hwork hmin
  rw [hhead, htail, hheight, hwork, hmin]

theorem ViewInvariant.queriesAgree (h : ViewInvariant E c)
    (hx : x ∈ c.forest.shares) : QueriesAgree c x := by
  rcases h.getDeltaToLast x with ⟨d, c', hd, hlast, -, -⟩
  have hattr : ∀ {A : Type} (field : AttributeDelta H → A) (neutral : A),
      (c.getAttribute field neutral x).map Prod.fst = some (field d) := by
    intro A field neutral
    rcases h.getAttribute field neutral hx with ⟨d', c'', hc'', hlast', -⟩
    rw [hc'', hlast.unique hlast']
    rfl
  refine ⟨d, hlast, by rw [hd]; rfl, hattr _ _, hattr _ _, hattr _ _, ?_⟩
  intro y _
  rcases h.getDelta x y with ⟨dx, dy, c'', hc'', hlx, hly, -⟩
  refine ⟨dy, hly, ?_⟩
  rw [hc'', hlast.unique hlx]
  rfl

/-- In every run of new shares over an acyclic previous-hash relation in which
no chain holds more than 100001 shares, every cached query on a held share
returns what the uncached walk returns. -/
theorem run_queries_agree (hE : ∀ x, ¬ TransGen E x x) (ops : List (Op H S))
    (hops : Admissible step (ShallowShares E) empty ops) :
    ∀ x ∈ (run step empty ops).forest.shares, QueriesAgree (run step empty ops) x := by
  intro x hx
  have h := run_invariant (step_viewInvariant hE) empty_viewInvariant hops
  exact h.queriesAgree hx

theorem lt_acyclic (x : Nat) : ¬ TransGen (fun a b : Nat => b < a) x x := by
  have hlt : ∀ y, TransGen (fun a b : Nat => b < a) x y → y < x := by
    intro y hy
    induction hy with
    | single h => exact h
    | tail _ h ih => omega
  intro hx
  exact absurd (hlt x hx) (lt_irrefl x)

/-- A child is cached before its parent arrives, and again before the parent
leaves. -/
def lateParentOps : List (Op Nat Unit) :=
  [.add (Forest.plainShare 2 1), .query (.work 2), .add (Forest.plainShare 1 0),
    .query (.deltaToLast 2), .remove sortedOrder 1]

theorem lateParentOps_admissible : Admissible step (ShallowShares fun x y => y < x)
    (empty : ShareChain Nat Unit) lateParentOps := by
  refine ⟨⟨⟨by decide, by decide, by decide⟩, ?_⟩, trivial,
    ⟨⟨by decide, ?_, by decide⟩, ?_⟩, trivial, trivial, trivial⟩
  · apply shallow_of_size_le
    · apply acyclic_of_rank id
      intro x y
      rw [parent_add, extend_eq_some_iff]
      simp only [empty, Forest.empty, Forest.parent, Forest.plainShare, Finmap.lookup_empty, id]
      grind
    · decide
  · simp only [step, ask_forest]
    decide
  · simp only [step, ask_forest]
    apply shallow_of_size_le
    · apply acyclic_of_rank id
      simp only [ShareChain.add, parent_add, extend_eq_some_iff]
      simp only [empty, Forest.empty, Forest.parent, Forest.plainShare, Finmap.lookup_empty, id]
      grind
    · decide

theorem run_queries_agree_lateParentOps :
    QueriesAgree (run step (empty : ShareChain Nat Unit) lateParentOps) 2 :=
  run_queries_agree lt_acyclic lateParentOps lateParentOps_admissible 2 (by decide)

end ShareChain

end C2Pool.Sharechain
