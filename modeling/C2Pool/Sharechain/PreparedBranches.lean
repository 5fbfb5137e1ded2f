import C2Pool.Sharechain.PreparedNodes

/-! # The branches of a batch

Every item gets one node. When an item is drawn, its parent is drawn before it or right after it, so
a node whose children are attached has none of them yet. The first node of a branch is the only one
left without a parent and is entered in `branch_tails`.
-/

namespace C2Pool.Sharechain

open FiniteMap ParentForest PreparedList Finmap Finset List Option

variable {H S : Type} [DecidableEq H] {values : List (BatchItem H S)} {u v : BatchItem H S}

/-- A batch: distinct hashes and no cycle of previous hashes. -/
structure SortableBatch (values : List (BatchItem H S)) : Prop where
  nodup : (values.map fun v => v.hash).Nodup
  acyclic : Acyclic (parentOf values)

/-- The items of a batch that name `hash` as their previous one. -/
def childrenOf (values : List (BatchItem H S)) (hash : H) : List (BatchItem H S) :=
  values.filter fun v => v.prevHash = hash

theorem mem_childrenOf {v : BatchItem H S} {hash : H} :
    v ∈ childrenOf values hash ↔ v ∈ values ∧ v.prevHash = hash := by
  simp [childrenOf]

theorem SortableBatch.eq_of_hash (h : SortableBatch values)
    (hu : u ∈ values) (hv : v ∈ values) (huv : u.hash = v.hash) : u = v :=
  inj_on_of_nodup_map h.nodup hu hv huv

omit [DecidableEq H] in
theorem card_keys_lt {V : Type} {m m' : FiniteMap H V} (hsub : ∀ x, x ∈ m' → x ∈ m) {x : H}
    (hx : x ∈ m) (hx' : x ∉ m') : m'.keys.card < m.keys.card := by
  apply card_lt_card
  rw [ssubset_iff_of_subset]
  · exact ⟨x, mem_keys.mpr hx, fun hmem => hx' (mem_keys.mp hmem)⟩
  · intro y hy
    exact mem_keys.mpr (hsub y (mem_keys.mp hy))

namespace BatchState

/-- The local maps hold the items without a node, and the children of the hashes that were not
expanded; `skip` is the hash whose children are being attached. -/
structure Pending (values : List (BatchItem H S)) (skip : Option H) (s : BatchState H S) :
    Prop where
  woven : Woven values s.list
  items : ∀ h v, s.items.lookup h = some v ↔ v ∈ values ∧ v.hash = h ∧ h ∉ s.list.nodes
  unexpanded : ∀ h es, s.tails.lookup h = some es → es = childrenOf values h ∧ es ≠ []
  expanded : ∀ h, s.tails.lookup h = none → some h ≠ skip →
    ∀ v ∈ childrenOf values h, v.hash ∈ s.list.nodes

/-- The parent of a node is not among the items, `free` apart. -/
def Closed (s : BatchState H S) (free : Option Nat) : Prop :=
  ∀ j v, s.list.valueAt j = some v → some j ≠ free → v.prevHash ∉ s.items

/-- Every node has a parent or is entered in `branch_tails`, `loose` apart. -/
def Anchored (s : BatchState H S) (loose : Option Nat) : Prop :=
  ∀ j v, s.list.valueAt j = some v → some j ≠ loose →
    s.list.prevAt j ≠ none ∨ j ∈ row s.list.branchTails v.prevHash

/-- The entered nodes have no parent. -/
def Rooted (p : PreparedList H S) : Prop :=
  ∀ k j, j ∈ row p.branchTails k → p.prevAt j = none

variable {skip : Option H} {s : BatchState H S} {it h : BatchItem H S}
  {tail head loose parent child : Nat} {s' s'' : BatchState H S} {entries : List (BatchItem H S)}

def draw (s : BatchState H S) (it : BatchItem H S) : BatchState H S :=
  ⟨(s.list.makeNode it).2, s.items.erase it.hash, s.tails⟩

theorem Pending.draw (h : Pending values skip s)
    (hit : it ∈ values) (hnew : it.hash ∉ s.list.nodes) :
    Pending values skip (s.draw it) := by
  have hnodes : ∀ hash, hash ∈ (s.draw it).list.nodes ↔ hash = it.hash ∨ hash ∈ s.list.nodes :=
    fun hash => mem_insert
  refine ⟨h.woven.makeNode hit hnew, ?_, h.unexpanded, ?_⟩
  · intro hash v
    change (s.items.erase it.hash).lookup hash = some v ↔ _
    rw [lookup_erase_ite, hnodes]
    split
    case isTrue heq => simp [heq]
    case isFalse hne => simp [h.items, hne]
  intro hash hnone hskip v hv
  rw [hnodes]
  exact Or.inr (h.expanded hash hnone hskip v hv)

theorem Closed.draw {free : Option Nat} (h : s.Closed free) (it : BatchItem H S) :
    ∀ j v, s.list.valueAt j = some v → some j ≠ free → v.prevHash ∉ (s.draw it).items := by
  intro j v hv hj hmem
  apply h j v hv hj
  exact (mem_erase.mp hmem).2

theorem valueAt_draw_cases {j : Nat} (hv : (s.draw it).list.valueAt j = some v) :
    j = s.list.heap.length ∧ v = it ∨ s.list.valueAt j = some v := by
  change (s.list.makeNode it).2.valueAt j = some v at hv
  rw [valueAt_makeNode] at hv
  split at hv
  case isTrue hj =>
    cases hv
    exact Or.inl ⟨hj, rfl⟩
  case isFalse => exact Or.inr hv

theorem valueAt_link_draw {parent child j : Nat}
    (hv : ((s.draw it).list.link parent child).valueAt j = some v) :
    j = s.list.heap.length ∧ v = it ∨ s.list.valueAt j = some v := by
  rw [valueAt_link] at hv
  exact valueAt_draw_cases hv

theorem prevAt_link_draw (hv : (s.draw it).list.valueAt child = some v) (j : Nat) :
    ((s.draw it).list.link parent child).prevAt j =
      if j = child then some parent else s.list.prevAt j := by
  rw [prevAt_link (lt_of_valueAt hv)]
  split
  · rfl
  · exact prevAt_makeNode s.list it j

theorem Pending.link (h : Pending values skip s)
    (hu : s.list.valueAt parent = some u) (hv : s.list.valueAt child = some v)
    (huv : u.hash = v.prevHash) (hfree : s.list.prevAt child = none) :
    Pending values skip { s with list := s.list.link parent child } :=
  { h with woven := h.woven.link hu hv huv hfree }

/-- Nodes stay and items only leave. -/
structure Extends (s s' : BatchState H S) : Prop where
  values : ∀ j v, s.list.valueAt j = some v → s'.list.valueAt j = some v
  items : ∀ h, h ∈ s'.items → h ∈ s.items

omit [DecidableEq H] in
theorem Extends.refl (s : BatchState H S) : Extends s s :=
  ⟨fun _ _ hv => hv, fun _ hh => hh⟩

variable {s : BatchState H S}

omit [DecidableEq H] in
theorem Extends.trans (h : Extends s s') (h' : Extends s' s'') : Extends s s'' :=
  ⟨fun j v hv => h'.values j v (h.values j v hv), fun x hx => h.items x (h'.items x hx)⟩

theorem extends_draw (s : BatchState H S) (it : BatchItem H S) : Extends s (s.draw it) where
  values := fun _ _ hv => valueAt_makeNode_old hv
  items := fun _ hh => (mem_erase.mp hh).2

omit [DecidableEq H] in
theorem extends_link (s : BatchState H S) (parent child : Nat) :
    Extends s { s with list := s.list.link parent child } where
  values := by
    intro j v hv
    rw [valueAt_link]
    exact hv
  items := fun _ hh => hh

/-- A branch that grows to the left from the item with hash `head`; `tail` is its first node. -/
structure GrowsLeft (values : List (BatchItem H S)) (head : H) (s : BatchState H S) (tail : Nat) :
    Prop where
  pending : Pending values none s
  above : ∃ w k, s.list.valueAt tail = some w ∧ ancestor (parentOf values) k head = some w.hash
  free : s.list.prevAt tail = none
  outside : ∀ k, tail ∉ row s.list.branchTails k
  closed : s.Closed (some tail)
  anchored : s.Anchored (some tail)
  rooted : Rooted s.list
  childless : ∀ j v, s.list.valueAt j = some v → v.prevHash ≠ head

theorem Pending.new_node (h : Pending values skip s) (it : BatchItem H S) :
    (s.draw it).list.prevAt s.list.heap.length = none ∧
      ∀ k, s.list.heap.length ∉ row s.list.branchTails k := by
  have hnone : s.list.valueAt s.list.heap.length = none := valueAt_eq_none_iff.mpr (Nat.le_refl _)
  constructor
  · change (s.list.makeNode it).2.prevAt _ = none
    rw [prevAt_makeNode]
    exact h.woven.prevAt_of_none hnone
  intro k hk
  obtain ⟨v, hv, -⟩ := h.woven.entered k _ hk
  rw [hnone] at hv
  cases hv

theorem GrowsLeft.attachParent {head : H} (h : GrowsLeft values head s tail)
    (hbatch : SortableBatch values) {w : BatchItem H S}
    (hw : s.list.valueAt tail = some w) (hit : s.items.lookup w.prevHash = some it) :
    ∃ s' tail', s.attachParent tail w.prevHash it = some (s', tail') ∧
      GrowsLeft values head s' tail' ∧ Extends s s' ∧ w.prevHash ∉ s'.items := by
  obtain ⟨hmem, hhash, hnew⟩ := (h.pending.items _ _).mp hit
  rw [← hhash] at hnew
  obtain ⟨hfresh, hunused⟩ := h.pending.new_node it
  have hdraw := h.pending.draw hmem hnew
  have hvalue : (s.draw it).list.valueAt s.list.heap.length = some it :=
    valueAt_makeNode_new s.list it
  have hold : (s.draw it).list.valueAt tail = some w := valueAt_makeNode_old hw
  have hfree : (s.draw it).list.prevAt tail = none := by
    change (s.list.makeNode it).2.prevAt tail = none
    rw [prevAt_makeNode]
    exact h.free
  have htail : tail ≠ s.list.heap.length := (lt_of_valueAt hw).ne
  have hmerge := mergeNodes_child hvalue hold hhash
  have hpending := hdraw.link hvalue hold hhash hfree
  -- the new node is one step above the old tail
  have hstep : ∃ k, ancestor (parentOf values) k head = some it.hash := by
    obtain ⟨w', k, hw', hk⟩ := h.above
    rw [hw] at hw'
    cases hw'
    refine ⟨k + 1, ?_⟩
    rw [ancestor_succ_last, hk, bind_some,
      parentOf_eq hbatch.nodup (h.pending.woven.drawn tail w hw), hhash]
  refine ⟨⟨(s.draw it).list.link s.list.heap.length tail, s.items.erase it.hash, s.tails⟩,
    s.list.heap.length, ?_, ⟨hpending, ?_, ?_, hunused, ?_, ?_, ?_, ?_⟩,
    (extends_draw s it).trans (extends_link (s.draw it) _ _), ?_⟩
  · unfold BatchState.attachParent
    change (((s.draw it).list.mergeNodes s.list.heap.length tail).map _) = _
    rw [hmerge, ← hhash]
    rfl
  · obtain ⟨k, hk⟩ := hstep
    refine ⟨it, k, ?_, hk⟩
    rw [valueAt_link]
    exact hvalue
  · rw [prevAt_link_draw hold, if_neg htail.symm, ← prevAt_makeNode s.list it]
    exact hfresh
  · -- the old tail's parent has left the items
    intro j v hv hj
    rcases valueAt_link_draw hv with ⟨rfl, -⟩ | hbefore
    · exact absurd rfl hj
    by_cases hjt : j = tail
    · rw [hjt, hw] at hbefore
      cases hbefore
      rw [← hhash]
      exact notMem_erase_self
    · exact h.closed.draw it j v hbefore fun heq => hjt (Option.some.inj heq)
  · intro j v hv hj
    rcases valueAt_link_draw hv with ⟨rfl, -⟩ | hv
    · exact absurd rfl hj
    rw [prevAt_link_draw hold]
    by_cases hjt : j = tail
    · simp [hjt]
    · rw [if_neg hjt]
      exact h.anchored j v hv fun heq => hjt (Option.some.inj heq)
  · intro k j hj
    have hne : j ≠ tail := by
      rintro rfl
      exact h.outside k hj
    rw [prevAt_link_draw hold, if_neg hne]
    exact h.rooted k j hj
  · intro j v hv
    rcases valueAt_link_draw hv with ⟨-, rfl⟩ | hv
    · -- an ancestor of the head is no child of it
      obtain ⟨k, hk⟩ := hstep
      intro hback
      apply hbatch.acyclic k head
      rw [ancestor_succ_last, hk, bind_some, parentOf_eq hbatch.nodup hmem, hback]
    · exact h.childless j v hv
  · rw [← hhash]
    exact notMem_erase_self

theorem growLeft_spec {head : H} (hbatch : SortableBatch values) (rounds : Nat)
    (h : GrowsLeft values head s tail) (hrounds : s.items.keys.card < rounds) :
    ∃ s' tail', growLeft rounds s tail = some (s', tail') ∧ GrowsLeft values head s' tail' ∧
      Extends s s' ∧ s'.Closed none := by
  induction rounds generalizing s tail with
  | zero => omega
  | succ rounds ih =>
    obtain ⟨w, k, hw, -⟩ := h.above
    obtain ⟨node, hnode, rfl, -, -⟩ := exists_node hw
    cases hit : s.items.lookup node.value.prevHash with
    | none =>
      refine ⟨s, tail, ?_, h, Extends.refl s, ?_⟩
      · simp [growLeft, hnode, hit]
      intro j v hv _
      by_cases hj : j = tail
      · rw [hj, hw] at hv
        cases hv
        exact lookup_eq_none.mp hit
      · exact h.closed j v hv fun heq => hj (Option.some.inj heq)
    | some it =>
      obtain ⟨s₁, tail₁, hstep, h₁, hext, hgone⟩ := h.attachParent hbatch hw hit
      have hcard := card_keys_lt hext.items (mem_of_lookup_eq_some hit) hgone
      obtain ⟨s₂, tail₂, hrun, h₂, hext₂, hclosed⟩ := ih h₁ (by omega)
      refine ⟨s₂, tail₂, ?_, h₂, hext.trans hext₂, hclosed⟩
      simp [growLeft, hnode, hit, hstep, hrun]

/-! ## The right part -/

/-- The state while children of the node `head` with item `h` are attached; `loose` is
the first node of the branch. -/
structure Attaching (values : List (BatchItem H S)) (h : BatchItem H S) (head loose : Nat)
    (skip : Option H) (s : BatchState H S) : Prop where
  pending : Pending values skip s
  held : s.list.valueAt head = some h
  free : s.list.prevAt loose = none
  outside : ∀ k, loose ∉ row s.list.branchTails k
  started : ∃ w, s.list.valueAt loose = some w
  closed : s.Closed none
  anchored : s.Anchored (some loose)
  rooted : Rooted s.list

/-- What attaching children leaves in place: nodes and links stay, and a new node is a child of
`hash`. -/
structure Attached (hash : H) (s s' : BatchState H S) : Prop where
  grown : Extends s s'
  prev : ∀ i j, s.list.prevAt j = some i → s'.list.prevAt j = some i
  tails : s'.tails = s.tails
  fresh : ∀ j v, s'.list.valueAt j = some v → s.list.valueAt j = some v ∨ v.prevHash = hash

theorem Attaching.attachChild
    (a : Attaching values h head loose skip s) (hbatch : SortableBatch values)
    (hit : it ∈ childrenOf values h.hash) (hnew : it.hash ∉ s.list.nodes) :
    ∃ s', ((s.list.makeNode it).2.mergeNodes (s.list.makeNode it).1 head).map (fun merged =>
        (merged.1, (⟨merged.2, s.items.erase it.hash, s.tails⟩ : BatchState H S))) =
          some (s.list.heap.length, s') ∧
      Attaching values h head loose skip s' ∧ Attached h.hash s s' ∧
      s'.list.valueAt s.list.heap.length = some it ∧
      s'.list.prevAt s.list.heap.length = some head ∧
      ∀ x, x ∈ s'.list.nodes ↔ x = it.hash ∨ x ∈ s.list.nodes := by
  obtain ⟨hmem, hprevHash⟩ := mem_childrenOf.mp hit
  obtain ⟨hfresh, hunused⟩ := a.pending.new_node it
  have hdraw := a.pending.draw hmem hnew
  have hvalue : (s.draw it).list.valueAt s.list.heap.length = some it :=
    valueAt_makeNode_new s.list it
  have hold : (s.draw it).list.valueAt head = some h := valueAt_makeNode_old a.held
  -- the head is not in turn a child of the item
  have hnot : it.hash ≠ h.prevHash := by
    intro hback
    apply hbatch.acyclic 1 h.hash
    rw [ancestor_succ, parentOf_eq hbatch.nodup (a.pending.woven.drawn head h a.held),
      bind_some, ancestor_one, ← hback, parentOf_eq hbatch.nodup hmem, hprevHash]
  have hmerge := mergeNodes_parent hvalue hold hprevHash.symm hnot
  have hpending := hdraw.link hold hvalue hprevHash.symm hfresh
  have hext := (extends_draw s it).trans (extends_link (s.draw it) head s.list.heap.length)
  obtain ⟨w, hw⟩ := a.started
  have hloose : loose ≠ s.list.heap.length := (lt_of_valueAt hw).ne
  refine ⟨⟨(s.draw it).list.link head s.list.heap.length, s.items.erase it.hash, s.tails⟩, ?_,
    ⟨hpending, hext.values head h a.held, ?_, a.outside, ⟨w, hext.values loose w hw⟩, ?_, ?_, ?_⟩,
    ⟨hext, ?_, rfl, ?_⟩, ?_, ?_, ?_⟩
  · change (((s.draw it).list.mergeNodes s.list.heap.length head).map _) = _
    rw [hmerge]
    rfl
  · rw [prevAt_link_draw hvalue, if_neg hloose]
    exact a.free
  · intro j v hv _ hitems
    rcases valueAt_link_draw hv with ⟨-, rfl⟩ | hbefore
    · -- the parent of the new node is the head, which left the items long ago
      rw [hprevHash] at hitems
      obtain ⟨u, hu⟩ := mem_iff.mp (mem_erase.mp hitems).2
      exact ((a.pending.items _ _).mp hu).2.2
        (a.pending.woven.mem_nodes_iff.mpr ⟨head, h, a.held, rfl⟩)
    · exact a.closed.draw it j v hbefore (by simp) hitems
  · intro j v hv hj
    rw [prevAt_link_draw hvalue]
    rcases valueAt_link_draw hv with ⟨rfl, -⟩ | hbefore
    · simp
    · rw [if_neg (lt_of_valueAt hbefore).ne]
      exact a.anchored j v hbefore hj
  · intro k j hj
    have hne : j ≠ s.list.heap.length := by
      rintro rfl
      exact hunused k hj
    rw [prevAt_link_draw hvalue, if_neg hne]
    exact a.rooted k j hj
  · intro i j hij
    obtain ⟨u, v, -, hv, -⟩ := a.pending.woven.related i j hij
    rw [prevAt_link_draw hvalue, if_neg (lt_of_valueAt hv).ne]
    exact hij
  · intro j v hv
    rcases valueAt_link_draw hv with ⟨-, rfl⟩ | hbefore
    · exact Or.inr hprevHash
    · exact Or.inl hbefore
  · rw [valueAt_link]
    exact hvalue
  · rw [prevAt_link_draw hvalue, if_pos rfl]
  · intro x
    exact mem_insert

omit [DecidableEq H] in
theorem Attached.refl (hash : H) (s : BatchState H S) : Attached hash s s :=
  ⟨Extends.refl s, fun _ _ h => h, rfl, fun _ _ hv => Or.inl hv⟩

omit [DecidableEq H] in
theorem Attached.trans {hash : H} (h : Attached hash s s')
    (h' : Attached hash s' s'') : Attached hash s s'' where
  grown := h.grown.trans h'.grown
  prev := fun i j hij => h'.prev i j (h.prev i j hij)
  tails := h'.tails.trans h.tails
  fresh := by
    intro j v hv
    rcases h'.fresh j v hv with hmid | hchild
    · exact h.fresh j v hmid
    · exact Or.inr hchild

theorem attachChildren_spec (hbatch : SortableBatch values) (merged : Option Nat)
    (a : Attaching values h head loose skip s)
    (hentries : ∀ it ∈ entries, it ∈ childrenOf values h.hash ∧ it.hash ∉ s.list.nodes)
    (hnodup : (entries.map fun it => it.hash).Nodup) :
    ∃ s' merged', attachChildren s head entries merged = some (s', merged') ∧
      Attaching values h head loose skip s' ∧ Attached h.hash s s' ∧
      (∀ it ∈ entries, it.hash ∈ s'.list.nodes) ∧ (∀ x ∈ s.list.nodes, x ∈ s'.list.nodes) ∧
      (entries = [] ∧ merged' = merged ∨
        ∃ m, ∃ it ∈ entries, merged' = some m ∧ s'.list.valueAt m = some it ∧
          s'.list.prevAt m = some head) := by
  induction entries generalizing s merged with
  | nil =>
    exact ⟨s, merged, rfl, a, Attached.refl _ s, fun it hit => absurd hit not_mem_nil,
      fun x hx => hx, Or.inl ⟨rfl, rfl⟩⟩
  | cons it rest ih =>
    rw [List.map_cons, List.nodup_cons] at hnodup
    obtain ⟨hchild, hnew⟩ := hentries it List.mem_cons_self
    obtain ⟨s₁, hstep, a₁, hatt₁, hvalue, hprev, hnodes⟩ := a.attachChild hbatch hchild hnew
    obtain ⟨out, hout, heq⟩ := map_eq_some_iff.mp hstep
    have hmerged : out.1 = s.list.heap.length := congrArg Prod.fst heq
    have hstate : (⟨out.2, s.items.erase it.hash, s.tails⟩ : BatchState H S) = s₁ :=
      congrArg Prod.snd heq
    have hrest : ∀ other ∈ rest, other ∈ childrenOf values h.hash ∧ other.hash ∉ s₁.list.nodes := by
      intro other hother
      obtain ⟨hmem, hunmade⟩ := hentries other (mem_cons_of_mem it hother)
      refine ⟨hmem, fun hin => ?_⟩
      rcases (hnodes _).mp hin with heq | hin
      · exact hnodup.1 (mem_map.mpr ⟨other, hother, heq⟩)
      · exact hunmade hin
    obtain ⟨s₂, merged₂, hrun, a₂, hatt₂, hall, hkept, hlast⟩ :=
      ih (some s.list.heap.length) a₁ hrest hnodup.2
    refine ⟨s₂, merged₂, ?_, a₂, hatt₁.trans hatt₂, ?_, ?_, Or.inr ?_⟩
    · unfold attachChildren
      simp only [hout, bind_some, hmerged, hstate]
      exact hrun
    · intro other hother
      rcases mem_cons.mp hother with rfl | hother
      · exact hkept _ ((hnodes _).mpr (Or.inl rfl))
      · exact hall other hother
    · exact fun x hx => hkept x ((hnodes x).mpr (Or.inr hx))
    · rcases hlast with ⟨-, hmerged₂⟩ | ⟨m, other, hother, hrest₂⟩
      · exact ⟨_, it, List.mem_cons_self, hmerged₂, hatt₂.grown.values _ _ hvalue,
          hatt₂.prev _ _ hprev⟩
      · exact ⟨m, other, mem_cons_of_mem it hother, hrest₂⟩

/-- A branch that grows to the right at `head`. None of the head's children has a node
yet. The first node of the branch is the tail, or the start of the links behind the
head. -/
structure GrowsRight (values : List (BatchItem H S)) (tail : Option Nat) (loose : Nat)
    (s : BatchState H S) (head : Nat) : Prop where
  attaching : ∃ h, Attaching values h head loose none s ∧
    ∀ j v, s.list.valueAt j = some v → v.prevHash ≠ h.hash
  start : tail = some loose ∨ tail = none ∧ EndsIn s.list.prevAt head loose

theorem Attaching.setAside (a : Attaching values h head loose none s) :
    Attaching values h head loose (some h.hash) { s with tails := s.tails.erase h.hash } := by
  refine { a with pending := ⟨a.pending.woven, a.pending.items, ?_, ?_⟩ }
  · intro x es hes
    change (s.tails.erase h.hash).lookup x = some es at hes
    rw [lookup_erase_ite] at hes
    split at hes
    · cases hes
    · exact a.pending.unexpanded x es hes
  intro x hx hskip v hv
  change (s.tails.erase h.hash).lookup x = none at hx
  rw [lookup_erase_ite, if_neg fun heq => hskip (congrArg some heq)] at hx
  exact a.pending.expanded x hx (by simp) v hv

theorem Attaching.comeBack (a : Attaching values h head loose (some h.hash) s)
    (hall : ∀ v ∈ childrenOf values h.hash, v.hash ∈ s.list.nodes) : Pending values none s := by
  refine ⟨a.pending.woven, a.pending.items, a.pending.unexpanded, ?_⟩
  intro x hx _ v hv
  by_cases hxh : x = h.hash
  · rw [hxh] at hv
    exact hall v hv
  · exact a.pending.expanded x hx (fun heq => hxh (Option.some.inj heq)) v hv

theorem GrowsRight.step {tail : Option Nat} {loose head : Nat} {node : PreparedNode H S}
    (hbatch : SortableBatch values)
    (h : GrowsRight values tail loose s head) (hnode : s.list.heap[head]? = some node)
    (hentries : s.tails.lookup node.value.hash = some entries) :
    ∃ s' m, attachChildren { s with tails := s.tails.erase node.value.hash } head entries none =
        some (s', some m) ∧
      GrowsRight values tail loose s' m ∧ Extends s s' ∧
      s'.tails = s.tails.erase node.value.hash := by
  obtain ⟨v, a, hchildless⟩ := h.attaching
  obtain rfl : node.value = v := by
    have hheld := a.held
    unfold valueAt at hheld
    rw [hnode] at hheld
    exact Option.some.inj hheld
  obtain ⟨rfl, hnonempty⟩ := a.pending.unexpanded _ _ hentries
  have hunmade : ∀ it ∈ childrenOf values node.value.hash, it.hash ∉ s.list.nodes := by
    intro it hit hmem
    obtain ⟨hvalues, hprev⟩ := mem_childrenOf.mp hit
    obtain ⟨j, u, hu, huit⟩ := a.pending.woven.mem_nodes_iff.mp hmem
    rw [hbatch.eq_of_hash (a.pending.woven.drawn j u hu) hvalues huit] at hu
    exact hchildless j it hu hprev
  have hnodup : ((childrenOf values node.value.hash).map fun it => it.hash).Nodup :=
    hbatch.nodup.sublist (filter_sublist.map _)
  obtain ⟨s', merged, hrun, a', hatt, hall, hkept, hlast⟩ :=
    attachChildren_spec hbatch none a.setAside (fun it hit => ⟨hit, hunmade it hit⟩) hnodup
  rcases hlast with ⟨hempty, -⟩ | ⟨m, it, hit, rfl, hvalue, hprev⟩
  · exact absurd hempty hnonempty
  refine ⟨s', m, hrun, ⟨⟨it, ⟨a'.comeBack hall, hvalue, a'.free, a'.outside, a'.started, a'.closed,
    a'.anchored, a'.rooted⟩, ?_⟩, ?_⟩, ⟨hatt.grown.values, hatt.grown.items⟩, hatt.tails⟩
  · -- before this step the new head was among the items, so nothing had it as parent
    intro j v hv
    rcases hatt.fresh j v hv with hbefore | hchild
    · intro heq
      apply a.closed j v hbefore (by simp)
      rw [heq]
      exact mem_of_lookup_eq_some
        ((a.pending.items _ _).mpr ⟨(mem_childrenOf.mp hit).1, rfl, hunmade it hit⟩)
    rw [hchild]
    intro heq
    apply hunmade it hit
    rw [← heq]
    exact a.pending.woven.mem_nodes_iff.mpr ⟨head, _, a.held, rfl⟩
  rcases h.start with htail | ⟨htail, n, hpath, -⟩
  · exact Or.inl htail
  · refine Or.inr ⟨htail, n + 1, EndsAt.cons hprev ⟨ancestor_mono ?_ hpath, a'.free⟩⟩
    exact fun i j hij => hatt.prev j i hij

theorem growRight_spec {tail : Option Nat} (hbatch : SortableBatch values) (rounds : Nat)
    (h : GrowsRight values tail loose s head) (hrounds : s.tails.keys.card < rounds) :
    ∃ s' head', growRight rounds s head = some (s', head') ∧
      GrowsRight values tail loose s' head' ∧ Extends s s' := by
  induction rounds generalizing s head with
  | zero => omega
  | succ rounds ih =>
    obtain ⟨v, a, -⟩ := h.attaching
    obtain ⟨node, hnode, -, -, -⟩ := exists_node a.held
    cases hentries : s.tails.lookup node.value.hash with
    | none =>
      refine ⟨s, head, ?_, h, Extends.refl s⟩
      simp [growRight, hnode, hentries]
    | some entries =>
      obtain ⟨s₁, m, hstep, h₁, hext, htails⟩ := h.step hbatch hnode hentries
      have hcard : (s.tails.erase node.value.hash).keys.card < s.tails.keys.card :=
        card_keys_lt (fun x hx => (mem_erase.mp hx).2)
          (mem_of_lookup_eq_some hentries) notMem_erase_self
      obtain ⟨s₂, head₂, hrun, h₂, hext₂⟩ := ih h₁ (by rw [htails]; omega)
      refine ⟨s₂, head₂, ?_, h₂, hext.trans hext₂⟩
      simp [growRight, hnode, hentries, hstep, hrun]

/-! ## A whole branch -/

omit [DecidableEq H] in
theorem firstNode_of_endsAt {p : PreparedList H S} {n i j : Nat} (h : EndsAt p.prevAt n j i)
    (hheld : ∀ k x, ancestor p.prevAt k j = some x → ∃ v, p.valueAt x = some v) {rounds : Nat}
    (hrounds : n < rounds) : p.firstNode rounds j = some i := by
  induction rounds generalizing n j with
  | zero => omega
  | succ rounds ih =>
    obtain ⟨v, hv⟩ := hheld 0 j rfl
    obtain ⟨node, hnode, -, hprev, -⟩ := exists_node hv
    unfold firstNode
    cases hj : p.prevAt j with
    | none =>
      have hij : i = j := EndsIn.self_of_none hj ⟨n, h⟩
      simp [hnode, hprev, hj, hij]
    | some k =>
      obtain ⟨m, rfl, hm⟩ := h.of_cons hj
      have hrest := ih hm (fun l x hx => hheld (l + 1) x (by
        rw [ancestor_succ, hj]
        exact hx)) (by omega)
      simp [hnode, hprev, hj, hrest]

/-- The state between two branches. -/
structure Resting (values : List (BatchItem H S)) (s : BatchState H S) : Prop where
  pending : Pending values none s
  closed : s.Closed none
  anchored : s.Anchored none
  rooted : Rooted s.list

/-- The first node of a finished branch is entered in `branch_tails`. -/
theorem GrowsRight.closeBranch {tail : Option Nat}
    (h : GrowsRight values tail loose s head) (hbatch : SortableBatch values) :
    ∃ s', s.closeBranch head tail = some s' ∧ Resting values s' ∧ s'.items = s.items := by
  obtain ⟨v, a, -⟩ := h.attaching
  obtain ⟨w, hw⟩ := a.started
  obtain ⟨node, hnode, rfl, -, -⟩ := exists_node hw
  have hstart : s.branchStart head tail = some loose := by
    rcases h.start with rfl | ⟨rfl, n, hpath⟩
    · rfl
    have hlength := a.pending.woven.length_le hbatch.nodup hbatch.acyclic hpath.1
    refine firstNode_of_endsAt hpath (fun k x hx => ?_) (by omega)
    obtain ⟨u, hu, -⟩ := a.pending.woven.ancestor_hash hbatch.nodup a.held hx
    exact ⟨u, hu⟩
  have hrow : ∀ k, row (s.list.putTail node.value.prevHash loose).branchTails k =
      if k = node.value.prevHash then insert loose (row s.list.branchTails node.value.prevHash)
      else row s.list.branchTails k := fun k => row_insert _ _ _ k
  refine ⟨{ s with list := s.list.putTail node.value.prevHash loose }, ?_, ⟨⟨?_, a.pending.items,
    a.pending.unexpanded, a.pending.expanded⟩, a.closed, ?_, ?_⟩, rfl⟩
  · unfold BatchState.closeBranch
    rw [hstart, bind_some, hnode, map_some]
  · refine ⟨a.pending.woven.drawn, a.pending.woven.named, a.pending.woven.linked,
      a.pending.woven.related, ?_⟩
    intro k j hj
    rw [hrow] at hj
    split at hj
    case isTrue hk =>
      rcases mem_insert.mp hj with rfl | hj
      · exact ⟨node.value, hw, hk.symm⟩
      · rw [hk]
        exact a.pending.woven.entered _ j hj
    case isFalse => exact a.pending.woven.entered k j hj
  · intro j u hu _
    change s.list.prevAt j ≠ none ∨ j ∈ row (s.list.putTail node.value.prevHash loose).branchTails _
    rw [hrow]
    by_cases hj : j = loose
    · subst hj
      have huw : some u = some node.value := hu.symm.trans hw
      cases huw
      simp
    rcases a.anchored j u hu fun heq => hj (Option.some.inj heq) with hprev | hmem
    · exact Or.inl hprev
    right
    split
    case isTrue hk =>
      rw [← hk]
      exact mem_insert_of_mem hmem
    case isFalse => exact hmem
  · intro k j hj
    rw [hrow] at hj
    split at hj
    · rcases mem_insert.mp hj with rfl | hj
      · exact a.free
      · exact a.rooted _ j hj
    · exact a.rooted k j hj

theorem Resting.draw (h : Resting values s) (hbatch : SortableBatch values)
    (hit : s.items.lookup it.hash = some it) :
    GrowsLeft values it.hash (s.draw it) s.list.heap.length := by
  obtain ⟨hmem, -, hnew⟩ := (h.pending.items _ _).mp hit
  obtain ⟨hfree, hunused⟩ := h.pending.new_node it
  refine ⟨h.pending.draw hmem hnew, ⟨it, 0, valueAt_makeNode_new s.list it, rfl⟩, hfree, hunused,
    ?_, ?_, ?_, ?_⟩
  · intro j v hv hj
    rcases valueAt_draw_cases hv with ⟨rfl, -⟩ | hbefore
    · exact absurd rfl hj
    · exact h.closed.draw it j v hbefore (by simp)
  · intro j v hv hj
    rcases valueAt_draw_cases hv with ⟨rfl, -⟩ | hbefore
    · exact absurd rfl hj
    change (s.list.makeNode it).2.prevAt j ≠ none ∨ _
    rw [prevAt_makeNode]
    exact h.anchored j v hbefore (by simp)
  · intro k j hj
    change (s.list.makeNode it).2.prevAt j = none
    rw [prevAt_makeNode]
    exact h.rooted k j hj
  · intro j v hv
    rcases valueAt_draw_cases hv with ⟨-, rfl⟩ | hbefore
    · intro hself
      apply hbatch.acyclic 0 v.hash
      rw [ancestor_one, parentOf_eq hbatch.nodup hmem, hself]
    intro heq
    apply h.closed j v hbefore (by simp)
    rw [heq]
    exact mem_of_lookup_eq_some hit

theorem GrowsLeft.toRight {pivot : Nat} (h : GrowsLeft values it.hash s tail)
    (hclosed : s.Closed none) (hpivot : s.list.valueAt pivot = some it) {last : Option Nat}
    (hstart : last = some tail ∨ last = none ∧ EndsIn s.list.prevAt pivot tail) :
    GrowsRight values last tail s pivot := by
  obtain ⟨w, -, hw, -⟩ := h.above
  exact ⟨⟨it, { h with held := hpivot, started := ⟨w, hw⟩, closed := hclosed },
    h.childless⟩, hstart⟩

/-- The left part of `growBranch`, when the item is drawn. -/
def leftPart (s : BatchState H S) (node : Nat) (it : BatchItem H S) :
    Option (BatchState H S × Option Nat) :=
  match s.items.lookup it.prevHash with
  | none => some (s, none)
  | some parent =>
    (s.attachParent node it.prevHash parent).bind fun out =>
      (growLeft (out.1.items.keys.card + 1) out.1 out.2).map fun out =>
        (out.1, some out.2)

theorem Resting.growBranch (h : Resting values s) (hbatch : SortableBatch values)
    (hit : s.items.lookup it.hash = some it) :
    ∃ s', s.growBranch it = some s' ∧ Resting values s' ∧ (∀ x, x ∈ s'.items → x ∈ s.items) ∧
      it.hash ∉ s'.items := by
  have hleft := h.draw hbatch hit
  have hpivot : (s.draw it).list.valueAt s.list.heap.length = some it :=
    valueAt_makeNode_new s.list it
  have hgone : it.hash ∉ (s.draw it).items := notMem_erase_self
  -- after the left part, whether or not there was one
  have hparts : ∃ s₁ last tail, GrowsRight values last tail s₁ s.list.heap.length ∧
      Extends (s.draw it) s₁ ∧
      (s.draw it).leftPart s.list.heap.length it = some (s₁, last) := by
    unfold leftPart
    cases hparent : (s.draw it).items.lookup it.prevHash with
    | none =>
      refine ⟨s.draw it, none, s.list.heap.length, hleft.toRight ?_ hpivot
        (Or.inr ⟨rfl, 0, rfl, hleft.free⟩), Extends.refl _, rfl⟩
      intro j v hv _
      rcases valueAt_draw_cases hv with ⟨-, rfl⟩ | hbefore
      · exact lookup_eq_none.mp hparent
      · exact h.closed.draw it j v hbefore (by simp)
    | some parent =>
      obtain ⟨s₁, tail₁, hattach, hleft₁, hext₁, -⟩ := hleft.attachParent hbatch hpivot hparent
      obtain ⟨s₂, tail₂, hrun, hleft₂, hext₂, hclosed⟩ :=
        growLeft_spec hbatch (s₁.items.keys.card + 1) hleft₁ (by omega)
      have hext := hext₁.trans hext₂
      refine ⟨s₂, some tail₂, tail₂, hleft₂.toRight hclosed (hext.values _ _ hpivot) (Or.inl rfl),
        hext, ?_⟩
      simp only [hattach, bind_some, hrun, map_some]
  obtain ⟨s₁, last, tail, hright, hext, hleftRun⟩ := hparts
  obtain ⟨s₂, head, hrightRun, hright₂, hext₂⟩ :=
    growRight_spec hbatch (s₁.tails.keys.card + 1) hright (by omega)
  obtain ⟨s₃, hclose, hrest, hitems⟩ := hright₂.closeBranch hbatch
  refine ⟨s₃, ?_, hrest, ?_, ?_⟩
  · unfold BatchState.growBranch
    change Option.bind ((s.draw it).leftPart s.list.heap.length it) _ = _
    rw [hleftRun]
    change (growRight (s₁.tails.keys.card + 1) s₁ s.list.heap.length).bind _ = _
    rw [hrightRun]
    exact hclose
  · intro x hx
    rw [hitems] at hx
    exact (extends_draw s it).items x (hext.items x (hext₂.items x hx))
  · rw [hitems]
    exact fun hx => hgone (hext.items _ (hext₂.items _ hx))

theorem growBranches_spec (order : IterationOrder H) (hbatch : SortableBatch values) (rounds : Nat)
    (h : Resting values s) (hrounds : s.items.keys.card < rounds) :
    ∃ s', growBranches order rounds s = some s' ∧ Resting values s' ∧ s'.items.keys = ∅ := by
  induction rounds generalizing s with
  | zero => omega
  | succ rounds ih =>
    unfold growBranches
    cases hfirst : (order.list s.items.keys).head? with
    | none =>
      refine ⟨s, rfl, h, ?_⟩
      rw [eq_empty_iff_forall_notMem]
      intro x hx
      rw [← order.mem_list, head?_eq_none_iff.mp hfirst] at hx
      exact absurd hx not_mem_nil
    | some hash =>
      have hmem : hash ∈ s.items := mem_keys.mp ((order.mem_list _ _).mp (mem_of_mem_head? hfirst))
      obtain ⟨it, hit⟩ := mem_iff.mp hmem
      obtain ⟨-, rfl, -⟩ := (h.pending.items _ _).mp hit
      obtain ⟨s₁, hgrow, h₁, hsub, hgone⟩ := h.growBranch hbatch hit
      have hcard := card_keys_lt hsub hmem hgone
      obtain ⟨s₂, hrun, h₂, hempty⟩ := ih h₁ (by omega)
      refine ⟨s₂, ?_, h₂, hempty⟩
      simp only [hit, bind_some, hgrow, hrun]

end BatchState

end C2Pool.Sharechain
