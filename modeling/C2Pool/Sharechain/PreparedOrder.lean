import C2Pool.Sharechain.PreparedBranches

/-! # The order of a prepared list

The last pass of `add` hangs the branches whose parent has a node under that node. What is left in
`branch_tails` are the roots, and `build_list` walks the trees below them in preorder.
-/

namespace C2Pool.Sharechain

open List FiniteMap ParentForest PreparedList BatchState PreorderWalk Option

variable {H S : Type} [DecidableEq H] {values : List (BatchItem H S)} {p : PreparedList H S}

theorem enlist_all {done rest : List (BatchItem H S)}
    (hnodup : ((done ++ rest).map fun v => v.hash).Nodup) {s : BatchState H S}
    (hitems : ∀ h v, s.items.lookup h = some v ↔ v ∈ done ∧ v.hash = h)
    (htails : ∀ h, (s.tails.lookup h).getD [] = childrenOf done h ∧ s.tails.lookup h ≠ some []) :
    (rest.foldl enlist s).list = s.list ∧
      (∀ h v, (rest.foldl enlist s).items.lookup h = some v ↔ v ∈ done ++ rest ∧ v.hash = h) ∧
      ∀ h, ((rest.foldl enlist s).tails.lookup h).getD [] = childrenOf (done ++ rest) h ∧
        (rest.foldl enlist s).tails.lookup h ≠ some [] := by
  induction rest generalizing done s with
  | nil => simpa using ⟨hitems, htails⟩
  | cons it rest ih =>
    rw [foldl_cons, show done ++ it :: rest = (done ++ [it]) ++ rest by simp]
    rw [show done ++ it :: rest = (done ++ [it]) ++ rest by simp] at hnodup
    refine ih hnodup ?_ ?_
    · intro h v
      change (s.items.insert it.hash it).lookup h = some v ↔ _
      rw [lookup_insert_ite]
      split
      case isTrue hh =>
        subst hh
        constructor
        · intro heq
          cases heq
          exact ⟨by simp, rfl⟩
        rintro ⟨hv, hhash⟩
        rw [map_append, nodup_append] at hnodup
        have hpart := hnodup.1
        have hin : it ∈ done ++ [it] := by simp
        exact congrArg some (inj_on_of_nodup_map hpart hv hin hhash).symm
      case isFalse hh =>
        rw [hitems, mem_append, mem_singleton]
        constructor
        · exact fun hv => ⟨Or.inl hv.1, hv.2⟩
        rintro ⟨hv | rfl, hhash⟩
        · exact ⟨hv, hhash⟩
        · exact absurd hhash.symm hh
    intro h
    change ((s.tails.insert it.prevHash _).lookup h).getD [] = _ ∧
      (s.tails.insert it.prevHash _).lookup h ≠ some []
    rw [lookup_insert_ite]
    unfold childrenOf
    split
    case isTrue hh =>
      subst hh
      rw [Option.getD_some, (htails it.prevHash).1]
      simp [childrenOf]
    case isFalse hh =>
      refine ⟨?_, (htails h).2⟩
      rw [(htails h).1]
      simp [childrenOf, Ne.symm hh]

theorem resting_enlist (hbatch : SortableBatch values) :
    Resting values (values.foldl enlist (⟨.empty, ∅, ∅⟩ : BatchState H S)) := by
  have hnodup : ((([] : List (BatchItem H S)) ++ values).map fun v => v.hash).Nodup := hbatch.nodup
  have hnoItems : ∀ (h : H) (v : BatchItem H S),
      (⟨.empty, ∅, ∅⟩ : BatchState H S).items.lookup h = some v ↔ v ∈ [] ∧ v.hash = h := by simp
  have hnoTails : ∀ h, ((⟨.empty, ∅, ∅⟩ : BatchState H S).tails.lookup h).getD [] =
      childrenOf [] h ∧ (⟨.empty, ∅, ∅⟩ : BatchState H S).tails.lookup h ≠ some [] := by
    simp [childrenOf]
  obtain ⟨hlist, hitems, htails⟩ := enlist_all hnodup hnoItems hnoTails
  rw [nil_append] at hitems htails
  have hnone : ∀ j, (PreparedList.empty : PreparedList H S).valueAt j = none := by
    simp [valueAt, PreparedList.empty]
  refine ⟨⟨?_, ?_, ?_, ?_⟩, ?_, ?_, ?_⟩
  · rw [hlist]
    exact empty_woven values
  · intro h v
    rw [hitems, hlist]
    simp [PreparedList.empty, Finmap.notMem_empty]
  · intro h es hes
    obtain ⟨hchildren, hne⟩ := htails h
    rw [hes] at hchildren hne
    exact ⟨hchildren, fun hempty => hne (congrArg some hempty)⟩
  · intro h hes _ v hv
    have hchildren := (htails h).1
    rw [hes] at hchildren
    rw [← hchildren] at hv
    exact absurd hv not_mem_nil
  · intro j v hv
    rw [hlist, hnone] at hv
    cases hv
  · intro j v hv
    rw [hlist, hnone] at hv
    cases hv
  · intro k j hj
    rw [hlist] at hj
    simp [row, PreparedList.empty] at hj

/-! ## The last pass -/

/-- Links are added, nothing else changes. -/
structure Relinked (p p' : PreparedList H S) : Prop where
  values : ∀ i, p'.valueAt i = p.valueAt i
  nodes : p'.nodes = p.nodes
  branchTails : p'.branchTails = p.branchTails
  prev : ∀ i j, p.prevAt j = some i → p'.prevAt j = some i

omit [DecidableEq H] in
theorem Relinked.refl (p : PreparedList H S) : Relinked p p :=
  ⟨fun _ => rfl, rfl, rfl, fun _ _ h => h⟩

omit [DecidableEq H] in
theorem Relinked.trans {p' p'' : PreparedList H S} (h : Relinked p p') (h' : Relinked p' p'') :
    Relinked p p'' := ⟨fun i => (h'.values i).trans (h.values i), h'.nodes.trans h.nodes,
    h'.branchTails.trans h.branchTails, fun i j hij => h'.prev i j (h.prev i j hij)⟩

theorem mergeTails_spec (h : Woven values p) {node : Nat}
    {u : BatchItem H S} (hu : p.valueAt node = some u) {tails : List Nat} (hnodup : tails.Nodup)
    (htails : ∀ j ∈ tails, p.prevAt j = none ∧ ∃ v, p.valueAt j = some v ∧ v.prevHash = u.hash) :
    ∃ p', p.mergeTails node tails = some p' ∧ Woven values p' ∧ Relinked p p' ∧
      ∀ j, p'.prevAt j = if j ∈ tails then some node else p.prevAt j := by
  induction tails generalizing p with
  | nil => exact ⟨p, rfl, h, Relinked.refl p, fun j => by simp⟩
  | cons tail rest ih =>
    obtain ⟨hnot, hnodup⟩ := nodup_cons.mp hnodup
    obtain ⟨hfree, v, hv, hprevHash⟩ := htails tail mem_cons_self
    have hmerge := mergeNodes_child hu hv hprevHash.symm
    have h₁ := h.link hu hv hprevHash.symm hfree
    have hprev := fun j => prevAt_link (lt_of_valueAt hv) node j
    have hrelinked : Relinked p (p.link node tail) := by
      refine ⟨valueAt_link p node tail, rfl, rfl, fun i j hij => ?_⟩
      have hne : j ≠ tail := by
        rintro rfl
        rw [hfree] at hij
        cases hij
      rw [hprev, if_neg hne]
      exact hij
    have hrest : ∀ j ∈ rest, (p.link node tail).prevAt j = none ∧
        ∃ v, (p.link node tail).valueAt j = some v ∧ v.prevHash = u.hash := by
      intro j hj
      obtain ⟨hjfree, hjv⟩ := htails j (mem_cons_of_mem tail hj)
      have hne : j ≠ tail := by
        rintro rfl
        exact hnot hj
      rw [hprev, if_neg hne, valueAt_link]
      exact ⟨hjfree, hjv⟩
    obtain ⟨p', hrun, h', hre, hprev'⟩ := ih h₁ (by rw [valueAt_link]; exact hu) hnodup hrest
    refine ⟨p', ?_, h', hrelinked.trans hre, ?_⟩
    · unfold mergeTails
      rw [hmerge, bind_some]
      exact hrun
    intro j
    rw [hprev', hprev]
    by_cases hj : j = tail
    · simp [hj]
    · simp [hj]

theorem mergeBranches_spec (places : IterationOrder Nat) {keys : List H} (hnodup : keys.Nodup)
    (h : Woven values p) (hfree : ∀ k ∈ keys, ∀ j ∈ row p.branchTails k, p.prevAt j = none) :
    ∃ p', p.mergeBranches places keys = some p' ∧ Woven values p' ∧ Relinked p p' ∧
      ∀ k ∈ keys, k ∈ p.nodes → ∀ j ∈ row p.branchTails k, p'.prevAt j ≠ none := by
  induction keys generalizing p with
  | nil => exact ⟨p, rfl, h, Relinked.refl p, fun k hk => absurd hk not_mem_nil⟩
  | cons key rest ih =>
    obtain ⟨hnot, hnodup⟩ := nodup_cons.mp hnodup
    cases hlookup : p.nodes.lookup key with
    | none =>
      obtain ⟨p', hrun, h', hre, hdone⟩ := ih hnodup h fun k hk =>
        hfree k (mem_cons_of_mem key hk)
      refine ⟨p', ?_, h', hre, ?_⟩
      · simp only [mergeBranches, hlookup, hrun]
      intro k hk hnode
      rcases mem_cons.mp hk with rfl | hk
      · exact absurd hnode (Finmap.lookup_eq_none.mp hlookup)
      · exact hdone k hk hnode
    | some node =>
      obtain ⟨u, hu, hkey⟩ := (h.named key node).mp hlookup
      have htails : ∀ j ∈ places.list (row p.branchTails key), p.prevAt j = none ∧
          ∃ v, p.valueAt j = some v ∧ v.prevHash = u.hash := by
        intro j hj
        rw [places.mem_list] at hj
        obtain ⟨v, hv, hvk⟩ := h.entered key j hj
        exact ⟨hfree key mem_cons_self j hj, v, hv, hvk.trans hkey.symm⟩
      obtain ⟨p₁, hmerge, h₁, hre₁, hprev₁⟩ := mergeTails_spec h hu (places.nodup _) htails
      have hfree₁ : ∀ k ∈ rest, ∀ j ∈ row p₁.branchTails k, p₁.prevAt j = none := by
        intro k hk j hj
        rw [hre₁.branchTails] at hj
        have hother : j ∉ places.list (row p.branchTails key) := by
          intro hin
          rw [places.mem_list] at hin
          obtain ⟨v, hv, hvk⟩ := h.entered k j hj
          obtain ⟨w, hw, hwk⟩ := h.entered key j hin
          rw [hv] at hw
          cases hw
          exact hnot (hwk ▸ hvk ▸ hk)
        rw [hprev₁, if_neg hother]
        exact hfree k (mem_cons_of_mem key hk) j hj
      obtain ⟨p', hrun, h', hre, hdone⟩ := ih hnodup h₁ hfree₁
      refine ⟨p', ?_, h', hre₁.trans hre, ?_⟩
      · simp only [mergeBranches, hlookup, hmerge, bind_some, hrun]
      intro k hk hnode j hj
      rcases mem_cons.mp hk with rfl | hk
      · have hj₁ : p₁.prevAt j = some node := by
          rw [hprev₁, if_pos ((places.mem_list _ _).mpr hj)]
        rw [hre.prev _ _ hj₁]
        simp
      · exact hdone k hk (hre₁.nodes ▸ hnode) j (hre₁.branchTails ▸ hj)

theorem row_foldl_erase (keys : List H) (m : FiniteMap H (Finset Nat)) (k : H) :
    row (keys.foldl (fun m key => m.erase key) m) k = if k ∈ keys then ∅ else row m k := by
  induction keys generalizing m with
  | nil => simp
  | cons key rest ih =>
    rw [foldl_cons, ih, row_erase]
    by_cases hk : k = key
    · simp [hk]
    · simp [hk]

/-- The finished trees: every item has a node, a node with its parent in the batch hangs under it,
and the others are the roots. -/
structure Hung (values : List (BatchItem H S)) (p : PreparedList H S) : Prop where
  woven : Woven values p
  complete : ∀ v ∈ values, v.hash ∈ p.nodes
  hung : ∀ j v, p.valueAt j = some v → p.prevAt j ≠ none ∨ j ∈ row p.branchTails v.prevHash
  roots : ∀ k j, j ∈ row p.branchTails k → k ∉ p.nodes

theorem add_spec (hbatch : SortableBatch values) (order : IterationOrder H)
    (places : IterationOrder Nat) : ∃ p, add order places values = some p ∧ Hung values p := by
  have hrest := resting_enlist hbatch
  have hcard : (values.foldl enlist (⟨.empty, ∅, ∅⟩ : BatchState H S)).items.keys.card <
      values.length + 1 := by
    have hsub : (values.foldl enlist (⟨.empty, ∅, ∅⟩ : BatchState H S)).items.keys ⊆
        (values.map fun v => v.hash).toFinset := by
      intro x hx
      obtain ⟨v, hv⟩ := Finmap.mem_iff.mp (Finmap.mem_keys.mp hx)
      obtain ⟨hmem, hhash, -⟩ := (hrest.pending.items x v).mp hv
      exact mem_toFinset.mpr (mem_map.mpr ⟨v, hmem, hhash⟩)
    have hle := (Finset.card_le_card hsub).trans (toFinset_card_le _)
    rw [length_map] at hle
    omega
  obtain ⟨s, hgrow, hs, hempty⟩ := growBranches_spec order hbatch (values.length + 1) hrest hcard
  obtain ⟨p, hmerge, hwoven, hre, hdone⟩ := mergeBranches_spec places
    (order.nodup s.list.branchTails.keys) hs.pending.woven fun k _ j hj => hs.rooted k j hj
  refine ⟨p.dropMerged (order.list s.list.branchTails.keys), ?_, ?_⟩
  · unfold add
    simp only [hgrow, bind_some, hmerge, map_some]
  have hrow : ∀ k, row (p.dropMerged (order.list s.list.branchTails.keys)).branchTails k =
      if k ∈ p.nodes then ∅ else row s.list.branchTails k := by
    intro k
    unfold dropMerged
    rw [row_foldl_erase, hre.branchTails]
    by_cases hnode : k ∈ p.nodes
    · by_cases hkey : k ∈ s.list.branchTails
      · rw [if_pos, if_pos hnode]
        exact mem_filter.mpr ⟨(order.mem_list _ _).mpr (Finmap.mem_keys.mpr hkey),
          decide_eq_true hnode⟩
      · rw [row_of_notMem hkey]
        simp
    rw [if_neg hnode, if_neg]
    intro hmem
    exact hnode (of_decide_eq_true (mem_filter.mp hmem).2)
  refine ⟨{ hwoven with entered := ?_ }, ?_, ?_, ?_⟩
  · intro k j hj
    rw [hrow] at hj
    split at hj
    · exact absurd hj (Finset.notMem_empty j)
    · rw [← hre.branchTails] at hj
      exact hwoven.entered k j hj
  · intro v hv
    by_contra hnot
    have hitem : v.hash ∈ s.items := Finmap.mem_of_lookup_eq_some
      ((hs.pending.items _ _).mpr ⟨hv, rfl, hre.nodes ▸ hnot⟩)
    have hkey := Finmap.mem_keys.mpr hitem
    rw [hempty] at hkey
    exact absurd hkey (Finset.notMem_empty _)
  · intro j v hv
    change p.valueAt j = some v at hv
    have hvs : s.list.valueAt j = some v := (hre.values j) ▸ hv
    change p.prevAt j ≠ none ∨ _
    rcases hs.anchored j v hvs (by simp) with hprev | hmem
    · obtain ⟨i, hi⟩ := ne_none_iff_exists'.mp hprev
      rw [hre.prev i j hi]
      simp
    by_cases hnode : v.prevHash ∈ p.nodes
    · left
      refine hdone v.prevHash ?_ (hre.nodes ▸ hnode) j hmem
      rw [order.mem_list, Finmap.mem_keys]
      by_contra hnot
      rw [row_of_notMem hnot] at hmem
      exact absurd hmem (Finset.notMem_empty j)
    right
    rw [hrow, if_neg hnode]
    exact hmem
  · intro k j hj hnode
    rw [hrow, if_pos (show k ∈ p.nodes from hnode)] at hj
    exact absurd hj (Finset.notMem_empty j)

/-! ## The walk -/

omit [DecidableEq H] in
theorem foldlM_stack {α : Type} {l : List α} {f : List Nat → α → Option (List Nat)}
    {g : α → List Nat} (hf : ∀ x ∈ l, ∀ stack, f stack x = some ((g x).reverse ++ stack))
    (stack : List Nat) : l.foldlM f stack = some ((l.flatMap g).reverse ++ stack) := by
  induction l generalizing stack with
  | nil => rfl
  | cons x rest ih =>
    rw [foldlM_cons, hf x mem_cons_self]
    change rest.foldlM f ((g x).reverse ++ stack) = _
    rw [ih fun y hy => hf y (mem_cons_of_mem x hy)]
    simp

def listedChildren (places : IterationOrder Nat) (p : PreparedList H S) (i : Nat) : List Nat :=
  places.list (p.nextAt i)

theorem PreparedList.Woven.listsChildren (h : Woven values p)
    (places : IterationOrder Nat) : ListsChildren p.prevAt (listedChildren places p) where
  mem_iff := by
    intro i j
    unfold listedChildren
    rw [places.mem_list]
    exact h.linked i j
  nodup := fun i => places.nodup _

/-- `update_stack` pushes the preorder of the tree below a node. -/
theorem updateStack_eq (places : IterationOrder Nat) (h : Woven values p)
    {rounds node : Nat} {v : BatchItem H S} (hv : p.valueAt node = some v)
    (hdepth : ∀ m j, ancestor p.prevAt m j = some node → m < rounds) (stack : List Nat) :
    p.updateStack places rounds node stack =
      some ((preorder (listedChildren places p) rounds node).reverse ++ stack) := by
  induction rounds generalizing node v stack with
  | zero => exact absurd (hdepth 0 node rfl) (Nat.lt_irrefl 0)
  | succ rounds ih =>
    obtain ⟨n, hn, -, -, hnext⟩ := exists_node hv
    unfold updateStack preorder
    rw [hn, bind_some, hnext]
    rw [foldlM_stack (g := preorder (listedChildren places p) rounds)]
    · simp [listedChildren]
    intro child hchild stack
    have hparent := ((h.listsChildren places).mem_iff node child).mp hchild
    obtain ⟨u, w, -, hw, -⟩ := h.related node child hparent
    refine ih hw ?_ stack
    intro m j hj
    have hnode : ancestor p.prevAt (m + 1) j = some node := by
      rw [ancestor_succ_last, hj]
      exact hparent
    have := hdepth (m + 1) j hnode
    omega

/-- The nodes `build_list` starts from. -/
def listedRoots (order : IterationOrder H) (places : IterationOrder Nat) (p : PreparedList H S) :
    List Nat :=
  (order.list p.branchTails.keys).flatMap fun key => places.list (row p.branchTails key)

theorem mem_listedRoots {order : IterationOrder H} {places : IterationOrder Nat} {j : Nat} :
    j ∈ listedRoots order places p ↔ ∃ k, j ∈ row p.branchTails k := by
  unfold listedRoots
  rw [mem_flatMap]
  constructor
  · rintro ⟨k, -, hj⟩
    exact ⟨k, (places.mem_list _ _).mp hj⟩
  rintro ⟨k, hj⟩
  refine ⟨k, ?_, (places.mem_list _ _).mpr hj⟩
  rw [order.mem_list, Finmap.mem_keys]
  by_contra hnot
  rw [row_of_notMem hnot] at hj
  exact absurd hj (Finset.notMem_empty j)

theorem Hung.apart_roots (h : Hung values p) (order : IterationOrder H)
    (places : IterationOrder Nat) : Apart p.prevAt (listedRoots order places p) := by
  refine PreorderWalk.apart_roots ?_ ?_
  · unfold listedRoots
    rw [nodup_flatMap]
    refine ⟨fun k _ => places.nodup _, (order.nodup _).imp ?_⟩
    intro k l hkl j hj hj'
    rw [places.mem_list] at hj hj'
    obtain ⟨v, hv, hvk⟩ := h.woven.entered k j hj
    obtain ⟨w, hw, hwl⟩ := h.woven.entered l j hj'
    rw [hv] at hw
    cases hw
    exact hkl (hvk.symm.trans hwl)
  intro j hj
  obtain ⟨k, hk⟩ := mem_listedRoots.mp hj
  cases hprev : p.prevAt j with
  | none => rfl
  | some i =>
    obtain ⟨u, v, hu, hv, huv⟩ := h.woven.related i j hprev
    obtain ⟨w, hw, hwk⟩ := h.woven.entered k j hk
    rw [hv] at hw
    cases hw
    exact absurd (h.woven.mem_nodes_iff.mpr ⟨i, u, hu, huv.trans hwk⟩) (h.roots k j hk)

def listedNodes (order : IterationOrder H) (places : IterationOrder Nat) (p : PreparedList H S) :
    List Nat :=
  (listedRoots order places p).flatMap
    (preorder (listedChildren places p) (p.heap.length + 1))

section

variable (h : Hung values p) (hbatch : SortableBatch values) (order : IterationOrder H)
  (places : IterationOrder Nat)
include h hbatch order places

theorem Hung.mem_listedNodes {j : Nat} : j ∈ listedNodes order places p ↔ j < p.heap.length := by
  unfold listedNodes
  rw [mem_flatMap]
  constructor
  · rintro ⟨root, hroot, hj⟩
    obtain ⟨m, -, hm⟩ := (mem_preorder (h.woven.listsChildren places)).mp hj
    by_contra hnot
    have hnone := h.woven.prevAt_of_none (valueAt_eq_none_iff.mpr (show p.heap.length ≤ j by omega))
    obtain ⟨k, hk⟩ := mem_listedRoots.mp hroot
    obtain ⟨v, hv, -⟩ := h.woven.entered k root hk
    cases m with
    | zero =>
      cases hm
      exact hnot (lt_of_valueAt hv)
    | succ m =>
      rw [ancestor_succ, hnone] at hm
      cases hm
  intro hj
  have hacyclic := h.woven.acyclic hbatch.nodup hbatch.acyclic
  have hheld : ∀ x, p.prevAt x ≠ none → x ∈ Finset.range p.heap.length := by
    intro x hx
    rw [Finset.mem_range]
    by_contra hnot
    exact hx (h.woven.prevAt_of_none (valueAt_eq_none_iff.mpr (by omega)))
  obtain ⟨root, m, hm, hroot⟩ := hacyclic.exists_endsIn hheld j
  have hv : ∃ v, p.valueAt j = some v := by
    rw [← ne_none_iff_exists', ne_eq, valueAt_eq_none_iff]
    omega
  obtain ⟨v, hv⟩ := hv
  obtain ⟨u, hu, -⟩ := h.woven.ancestor_hash hbatch.nodup hv hm
  have hlength := h.woven.length_le hbatch.nodup hbatch.acyclic hm
  refine ⟨root, mem_listedRoots.mpr ⟨u.prevHash, ?_⟩,
    (mem_preorder (h.woven.listsChildren places)).mpr ⟨m, by omega, hm⟩⟩
  exact (h.hung root u hu).resolve_left fun hne => hne hroot

theorem Hung.nodup_listedNodes : (listedNodes order places p).Nodup :=
  nodup_flatMap_preorder (h.woven.listsChildren places) (h.apart_roots order places) fun x _ =>
    nodup_preorder (h.woven.listsChildren places) (h.woven.acyclic hbatch.nodup hbatch.acyclic) _ x

/-- `build_list` returns the values of the nodes in preorder. -/
theorem Hung.buildList_eq :
    p.buildList order places = some ((listedNodes order places p).filterMap p.valueAt) := by
  have hstack : (listedRoots order places p).foldlM (fun stack node =>
      p.updateStack places (p.heap.length + 1) node stack) [] =
        some (listedNodes order places p).reverse := by
    rw [foldlM_stack (g := preorder (listedChildren places p) (p.heap.length + 1))]
    · rw [append_nil]
      rfl
    intro root hroot stack
    obtain ⟨k, hk⟩ := mem_listedRoots.mp hroot
    obtain ⟨v, hv, -⟩ := h.woven.entered k root hk
    refine updateStack_eq places h.woven hv ?_ stack
    intro m j hj
    have := h.woven.length_le hbatch.nodup hbatch.acyclic hj
    omega
  have hvalues : ∀ l : List Nat, (∀ j ∈ l, j < p.heap.length) →
      l.mapM p.valueAt = some (l.filterMap p.valueAt) := by
    intro l hl
    induction l with
    | nil => rfl
    | cons j rest ih =>
      have hv : ∃ v, p.valueAt j = some v := by
        rw [← ne_none_iff_exists', ne_eq, valueAt_eq_none_iff]
        have := hl j mem_cons_self
        omega
      obtain ⟨v, hv⟩ := hv
      rw [mapM_cons, hv, ih fun x hx => hl x (mem_cons_of_mem j hx), filterMap_cons_some hv]
      rfl
  have hall : ∀ j ∈ (listedNodes order places p).reverse, j < p.heap.length := by
    intro j hj
    exact (h.mem_listedNodes hbatch order places).mp (mem_reverse.mp hj)
  change Option.bind ((listedRoots order places p).foldlM (fun stack node =>
    p.updateStack places (p.heap.length + 1) node stack) []) _ = _
  rw [hstack, bind_some]
  change ((listedNodes order places p).reverse.mapM p.valueAt).map List.reverse = _
  rw [hvalues _ hall, map_some, ← filterMap_reverse, reverse_reverse]

theorem Hung.mem_listed {v : BatchItem H S} :
    v ∈ (listedNodes order places p).filterMap p.valueAt ↔ v ∈ values := by
  rw [mem_filterMap]
  constructor
  · rintro ⟨j, -, hv⟩
    exact h.woven.drawn j v hv
  intro hv
  obtain ⟨j, u, hu, huv⟩ := h.woven.mem_nodes_iff.mp (h.complete v hv)
  rw [hbatch.eq_of_hash (h.woven.drawn j u hu) hv huv] at hu
  exact ⟨j, (h.mem_listedNodes hbatch order places).mpr (lt_of_valueAt hu), hu⟩

theorem Hung.pairwise_listed :
    ((listedNodes order places p).filterMap p.valueAt).Pairwise fun v u =>
      u.hash ≠ v.prevHash := by
  have hwalk : (listedNodes order places p).Pairwise fun a b => p.prevAt a ≠ some b :=
    pairwise_flatMap_preorder (h.woven.listsChildren places) (h.apart_roots order places)
      fun x _ => pairwise_preorder (h.woven.listsChildren places)
        (h.woven.acyclic hbatch.nodup hbatch.acyclic) _ x
  rw [pairwise_filterMap]
  refine hwalk.imp ?_
  intro a b hab v hv u hu huv
  -- the parent has a node, so the child is no root and hangs under that node
  rcases h.hung a v hv with hprev | hroot
  · obtain ⟨i, hi⟩ := ne_none_iff_exists'.mp hprev
    obtain ⟨w, v', hw, hv', hwv⟩ := h.woven.related i a hi
    rw [hv] at hv'
    cases hv'
    rw [h.woven.node_unique hw hu (hwv.trans huv.symm)] at hi
    exact hab hi
  · exact h.roots v.prevHash a hroot (h.woven.mem_nodes_iff.mpr ⟨b, u, hu, huv⟩)

end

/-- `PreparedList(values).build_list()` lists the batch, each share after its parent. -/
theorem build_list_sorts (hbatch : SortableBatch values) (order : IterationOrder H)
    (places : IterationOrder Nat) :
    ∃ out, (add order places values).bind (fun p => p.buildList order places) = some out ∧
      out.Perm values ∧
      ∀ front v rest, out = front ++ v :: rest →
        ∀ u ∈ values, u.hash = v.prevHash → u ∈ front := by
  obtain ⟨p, hadd, h⟩ := add_spec hbatch order places
  have hmem := fun v => @Hung.mem_listed H S _ values p h hbatch order places v
  refine ⟨(listedNodes order places p).filterMap p.valueAt, ?_, ?_, ?_⟩
  · rw [hadd, bind_some]
    exact h.buildList_eq hbatch order places
  · have hnodup : ((listedNodes order places p).filterMap p.valueAt).Nodup := by
      refine (h.nodup_listedNodes hbatch order places).filterMap ?_
      intro i j v hi hj
      exact h.woven.node_unique hi hj rfl
    exact (perm_ext_iff_of_nodup hnodup (List.Nodup.of_map _ hbatch.nodup)).mpr hmem
  · intro front v rest hout u hu huv
    have hpairs := h.pairwise_listed hbatch order places
    have hin := (hmem u).mpr hu
    rw [hout] at hpairs hin
    rcases mem_append.mp hin with hfront | hin
    · exact hfront
    rcases mem_cons.mp hin with rfl | hrest
    · -- a share is not its own parent
      exfalso
      apply hbatch.acyclic 0 u.hash
      rw [ancestor_one, parentOf_eq hbatch.nodup hu, huv]
    · have hlater := (pairwise_cons.mp (pairwise_append.mp hpairs).2.1).1 u hrest
      exact absurd huv hlater

def forkedBatch : List (BatchItem Nat Unit) :=
  [⟨5, 4, ()⟩, ⟨4, 3, ()⟩, ⟨2, 3, ()⟩, ⟨3, 9, ()⟩, ⟨6, 4, ()⟩, ⟨1, 2, ()⟩, ⟨8, 7, ()⟩]

theorem forkedBatch_sortable : SortableBatch forkedBatch where
  nodup := by decide
  acyclic := by
    refine acyclic_of_rank (fun x => if x = 9 ∨ x = 7 then 0 else if x = 3 then 1 else
      if x = 4 ∨ x = 2 then 2 else 3) ?_
    intro x y hxy
    obtain ⟨v, hv, rfl⟩ := map_eq_some_iff.mp hxy
    have hhash : v.hash = x := by simpa using find?_some hv
    have hmem := mem_of_find?_eq_some hv
    subst hhash
    revert v
    decide

theorem build_list_sorts_forkedBatch :
    ∃ out, (add sortedOrder sortedOrder forkedBatch).bind
        (fun p => p.buildList sortedOrder sortedOrder) = some out ∧
      out.Perm forkedBatch ∧
      ∀ front v rest, out = front ++ v :: rest →
        ∀ u ∈ forkedBatch, u.hash = v.prevHash → u ∈ front :=
  build_list_sorts forkedBatch_sortable sortedOrder sortedOrder

end C2Pool.Sharechain
