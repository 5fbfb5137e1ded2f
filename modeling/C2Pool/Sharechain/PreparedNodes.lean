import C2Pool.Sharechain.PreparedList

/-! # The nodes of a prepared list

What `make_node` and `merge_nodes` do to the heap, read through the value, the parent and the
children of a node, and the invariant of the links they make.
-/

namespace C2Pool.Sharechain

open List FiniteMap ParentForest

variable {H S : Type} [DecidableEq H]

namespace PreparedList

def valueAt (p : PreparedList H S) (i : Nat) : Option (BatchItem H S) :=
  (p.heap[i]?).map fun node => node.value

def prevAt (p : PreparedList H S) (i : Nat) : Option Nat :=
  (p.heap[i]?).bind fun node => node.prevNode

def nextAt (p : PreparedList H S) (i : Nat) : Finset Nat :=
  match p.heap[i]? with
  | some node => node.nextNodes
  | none => ∅

variable {i j : Nat} {v u val : BatchItem H S}

variable {p : PreparedList H S}

omit [DecidableEq H] in
theorem valueAt_eq_none_iff : p.valueAt i = none ↔ p.heap.length ≤ i := by
  simp [valueAt]

omit [DecidableEq H] in
theorem lt_of_valueAt (h : p.valueAt i = some v) : i < p.heap.length := by
  by_contra hnot
  rw [valueAt_eq_none_iff.mpr (by omega)] at h
  cases h

omit [DecidableEq H] in
theorem exists_node (h : p.valueAt i = some v) : ∃ node, p.heap[i]? = some node ∧ node.value = v ∧
      node.prevNode = p.prevAt i ∧ node.nextNodes = p.nextAt i := by
  obtain ⟨node, hnode, hvalue⟩ := Option.map_eq_some_iff.mp h
  exact ⟨node, hnode, hvalue, by simp [prevAt, hnode], by simp [nextAt, hnode]⟩

theorem heap_makeNode (p : PreparedList H S) (val : BatchItem H S) (i : Nat) :
    (p.makeNode val).2.heap[i]? =
      if i = p.heap.length then some ⟨val, none, ∅⟩ else p.heap[i]? := by
  unfold makeNode
  rcases Nat.lt_trichotomy i p.heap.length with hlt | rfl | hgt
  · rw [getElem?_append_left hlt, if_neg hlt.ne]
  · simp
  · rw [if_neg hgt.ne', getElem?_eq_none_iff.mpr hgt.le, getElem?_eq_none_iff, length_append]
    exact hgt

theorem valueAt_makeNode (p : PreparedList H S) (val : BatchItem H S) (i : Nat) :
    (p.makeNode val).2.valueAt i = if i = p.heap.length then some val else p.valueAt i := by
  unfold valueAt
  rw [heap_makeNode]
  split <;> rfl

theorem prevAt_makeNode (p : PreparedList H S) (val : BatchItem H S) (i : Nat) :
    (p.makeNode val).2.prevAt i = p.prevAt i := by
  unfold prevAt
  rw [heap_makeNode]
  split <;> simp_all

theorem nextAt_makeNode (p : PreparedList H S) (val : BatchItem H S) (i : Nat) :
    (p.makeNode val).2.nextAt i = p.nextAt i := by
  unfold nextAt
  rw [heap_makeNode]
  by_cases hi : i = p.heap.length <;> simp [hi]

omit [DecidableEq H] in
theorem heap_link (p : PreparedList H S) (parent child i : Nat) :
    (p.link parent child).heap[i]? = (p.heap[i]?).map fun node =>
      ⟨node.value, if i = child then some parent else node.prevNode,
        if i = parent then insert child node.nextNodes else node.nextNodes⟩ := by
  unfold link
  simp only [getElem?_modify]
  cases p.heap[i]? with
  | none => simp
  | some node =>
    by_cases hchild : child = i
    · by_cases hparent : parent = i
      · simp [hchild, hparent]
      · simp [hchild, hparent, Ne.symm hparent]
    by_cases hparent : parent = i
    · simp [hchild, hparent, Ne.symm hchild]
    · simp [hchild, hparent, Ne.symm hchild, Ne.symm hparent]

omit [DecidableEq H] in
theorem valueAt_link (p : PreparedList H S) (parent child i : Nat) :
    (p.link parent child).valueAt i = p.valueAt i := by
  unfold valueAt
  rw [heap_link]
  cases p.heap[i]? <;> rfl

omit [DecidableEq H] in
theorem prevAt_link {child : Nat} (hchild : child < p.heap.length) (parent i : Nat) :
    (p.link parent child).prevAt i = if i = child then some parent else p.prevAt i := by
  unfold prevAt
  rw [heap_link]
  by_cases h : i = child
  · subst h
    rw [getElem?_eq_getElem hchild]
    simp
  cases p.heap[i]? with
  | none => simp [h]
  | some node => simp [h]

omit [DecidableEq H] in
theorem nextAt_link {parent : Nat} (hparent : parent < p.heap.length) (child i : Nat) :
    (p.link parent child).nextAt i = if i = parent then insert child (p.nextAt i)
      else p.nextAt i := by
  unfold nextAt
  rw [heap_link]
  by_cases h : i = parent
  · subst h
    rw [getElem?_eq_getElem hparent]
    simp
  cases p.heap[i]? with
  | none => simp [h]
  | some node => simp [h]

section

variable {p : PreparedList H S} {n1 n2 : Nat} (hu : p.valueAt n1 = some u)
  (hv : p.valueAt n2 = some v)
include hu hv

theorem mergeNodes_child (h : u.hash = v.prevHash) :
    p.mergeNodes n1 n2 = some (n1, p.link n1 n2) := by
  obtain ⟨a, ha, hau, -, -⟩ := exists_node hu
  obtain ⟨b, hb, hbv, -, -⟩ := exists_node hv
  simp [mergeNodes, ha, hb, hau, hbv, h]

theorem mergeNodes_parent (h : v.hash = u.prevHash)
    (hnot : u.hash ≠ v.prevHash) : p.mergeNodes n1 n2 = some (n1, p.link n2 n1) := by
  obtain ⟨a, ha, hau, -, -⟩ := exists_node hu
  obtain ⟨b, hb, hbv, -, -⟩ := exists_node hv
  simp [mergeNodes, ha, hb, hau, hbv, h, hnot]

end

/-! ## The links -/

def parentOf (values : List (BatchItem H S)) (hash : H) : Option H :=
  (values.find? fun v => v.hash = hash).map fun v => v.prevHash

theorem parentOf_eq {values : List (BatchItem H S)} (hnodup : (values.map fun v => v.hash).Nodup)
    (hv : v ∈ values) : parentOf values v.hash = some v.prevHash := by
  unfold parentOf
  cases hfind : values.find? fun w => w.hash = v.hash with
  | none =>
    have hnone := find?_eq_none.mp hfind v hv
    simp at hnone
  | some w =>
    have hhash : w.hash = v.hash := by simpa using find?_some hfind
    have hwv : w = v := inj_on_of_nodup_map hnodup (mem_of_find?_eq_some hfind) hv hhash
    rw [hwv]
    rfl

/-- The nodes carry distinct items of the batch, under their hashes, and the links go both ways and
follow the previous hashes. -/
structure Woven (values : List (BatchItem H S)) (p : PreparedList H S) : Prop where
  drawn : ∀ i v, p.valueAt i = some v → v ∈ values
  named : ∀ h i, p.nodes.lookup h = some i ↔ ∃ v, p.valueAt i = some v ∧ v.hash = h
  linked : ∀ i j, j ∈ p.nextAt i ↔ p.prevAt j = some i
  related : ∀ i j, p.prevAt j = some i →
    ∃ u v, p.valueAt i = some u ∧ p.valueAt j = some v ∧ u.hash = v.prevHash
  entered : ∀ k j, j ∈ row p.branchTails k → ∃ v, p.valueAt j = some v ∧ v.prevHash = k

variable {values : List (BatchItem H S)} {p : PreparedList H S}

theorem empty_woven (values : List (BatchItem H S)) : Woven values (empty : PreparedList H S) where
  drawn := fun i v h => by simp [valueAt, empty] at h
  named := fun h i => by simp [valueAt, empty]
  linked := fun i j => by simp [nextAt, prevAt, empty]
  related := fun i j h => by simp [prevAt, empty] at h
  entered := fun k j h => by simp [row, empty] at h

theorem Woven.mem_nodes_iff (h : Woven values p) {hash : H} :
    hash ∈ p.nodes ↔ ∃ i v, p.valueAt i = some v ∧ v.hash = hash := by
  constructor
  · intro hmem
    obtain ⟨i, hi⟩ := Finmap.mem_iff.mp hmem
    exact ⟨i, (h.named hash i).mp hi⟩
  · rintro ⟨i, hi⟩
    exact Finmap.mem_of_lookup_eq_some ((h.named hash i).mpr hi)

theorem Woven.node_unique (h : Woven values p)
    (hu : p.valueAt i = some u) (hv : p.valueAt j = some v) (hhash : u.hash = v.hash) : i = j := by
  have hi := (h.named u.hash i).mpr ⟨u, hu, rfl⟩
  have hj := (h.named u.hash j).mpr ⟨v, hv, hhash.symm⟩
  exact Option.some.inj (hi.symm.trans hj)

theorem Woven.prevAt_of_none (h : Woven values p) (hi : p.valueAt i = none) :
    p.prevAt i = none := by
  cases hprev : p.prevAt i with
  | none => rfl
  | some j =>
    obtain ⟨u, v, -, hv, -⟩ := h.related j i hprev
    rw [hi] at hv
    cases hv

theorem valueAt_makeNode_old (hi : p.valueAt i = some v) :
    (p.makeNode val).2.valueAt i = some v := by
  rw [valueAt_makeNode, if_neg (lt_of_valueAt hi).ne]
  exact hi

theorem valueAt_makeNode_new (p : PreparedList H S) (val : BatchItem H S) :
    (p.makeNode val).2.valueAt (p.makeNode val).1 = some val := by
  rw [valueAt_makeNode]
  exact if_pos rfl

theorem Woven.makeNode (h : Woven values p) (hval : val ∈ values)
    (hnew : val.hash ∉ p.nodes) : Woven values (p.makeNode val).2 where
  drawn := by
    intro i v hv
    rw [valueAt_makeNode] at hv
    split at hv
    · cases hv
      exact hval
    · exact h.drawn i v hv
  named := by
    intro hash i
    change (p.nodes.insert val.hash p.heap.length).lookup hash = some i ↔ _
    rw [lookup_insert_ite, valueAt_makeNode]
    by_cases hi : i = p.heap.length
    · -- the new place: only the new hash leads there
      subst hi
      by_cases hhash : hash = val.hash
      · simp [hhash]
      · rw [if_neg hhash, if_pos rfl, h.named]
        simp [valueAt_eq_none_iff.mpr (Nat.le_refl p.heap.length), Ne.symm hhash]
    by_cases hhash : hash = val.hash
    · rw [if_pos hhash, if_neg hi]
      constructor
      · intro heq
        exact absurd (Option.some.inj heq).symm hi
      · rintro ⟨v, hv, hvh⟩
        exact absurd (h.mem_nodes_iff.mpr ⟨i, v, hv, hvh.trans hhash⟩) hnew
    · rw [if_neg hhash, if_neg hi, h.named]
  linked := by
    intro i j
    rw [nextAt_makeNode, prevAt_makeNode]
    exact h.linked i j
  related := by
    intro i j hij
    rw [prevAt_makeNode] at hij
    obtain ⟨u, v, hu, hv, huv⟩ := h.related i j hij
    exact ⟨u, v, valueAt_makeNode_old hu, valueAt_makeNode_old hv, huv⟩
  entered := by
    intro k j hj
    obtain ⟨v, hv, hk⟩ := h.entered k j hj
    exact ⟨v, valueAt_makeNode_old hv, hk⟩

theorem Woven.link (h : Woven values p) {parent child : Nat}
    (hu : p.valueAt parent = some u) (hv : p.valueAt child = some v) (huv : u.hash = v.prevHash)
    (hfree : p.prevAt child = none) : Woven values (p.link parent child) where
  drawn := by
    intro i w hw
    rw [valueAt_link] at hw
    exact h.drawn i w hw
  named := by
    intro hash i
    rw [valueAt_link]
    exact h.named hash i
  linked := by
    intro i j
    rw [nextAt_link (lt_of_valueAt hu), prevAt_link (lt_of_valueAt hv)]
    by_cases hi : i = parent
    · subst hi
      by_cases hj : j = child
      · simp [hj]
      · simp [hj, h.linked i j]
    by_cases hj : j = child
    · subst hj
      simp [hi, Ne.symm hi, h.linked i j, hfree]
    · simp [hi, hj, h.linked i j]
  related := by
    intro i j hij
    rw [prevAt_link (lt_of_valueAt hv)] at hij
    simp only [valueAt_link]
    split at hij
    case isTrue hj =>
      cases hij
      exact ⟨u, v, hu, hj ▸ hv, huv⟩
    case isFalse => exact h.related i j hij
  entered := by
    intro k j hj
    rw [valueAt_link]
    exact h.entered k j hj

section

variable (h : Woven values p) (hnodup : (values.map fun v => v.hash).Nodup)
include h hnodup

theorem Woven.ancestor_hash {n : Nat} (hv : p.valueAt j = some v)
    (hij : ancestor p.prevAt n j = some i) :
    ∃ u, p.valueAt i = some u ∧ ancestor (parentOf values) n v.hash = some u.hash := by
  induction n generalizing j v with
  | zero =>
    cases hij
    exact ⟨v, hv, rfl⟩
  | succ n ih =>
    obtain ⟨k, hk, hki⟩ := Option.bind_eq_some_iff.mp hij
    obtain ⟨w, v', hw, hv', hwv⟩ := h.related k j hk
    rw [hv] at hv'
    cases hv'
    obtain ⟨u, hu, hanc⟩ := ih hw hki
    refine ⟨u, hu, ?_⟩
    rw [ancestor_succ, parentOf_eq hnodup (h.drawn j v hv), Option.bind_some, ← hwv]
    exact hanc

theorem Woven.acyclic (hacyclic : Acyclic (parentOf values)) : Acyclic p.prevAt := by
  intro n j hj
  cases hv : p.valueAt j with
  | none =>
    rw [ancestor_succ, h.prevAt_of_none hv] at hj
    cases hj
  | some v =>
    obtain ⟨u, hu, hanc⟩ := h.ancestor_hash hnodup hv hj
    rw [hv] at hu
    cases hu
    exact hacyclic n v.hash hanc

theorem Woven.length_le (hacyclic : Acyclic (parentOf values)) {n : Nat}
    (hij : ancestor p.prevAt n j = some i) : n ≤ p.heap.length := by
  have hheld : ∀ x, p.prevAt x ≠ none → x ∈ Finset.range p.heap.length := by
    intro x hx
    rw [Finset.mem_range]
    by_contra hnot
    exact hx (h.prevAt_of_none (valueAt_eq_none_iff.mpr (by omega)))
  have hle := (h.acyclic hnodup hacyclic).length_le_card hheld hij
  rwa [Finset.card_range] at hle

end

end PreparedList

end C2Pool.Sharechain
