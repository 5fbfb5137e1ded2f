import C2Pool.Dash.ProviderTx

/-! # The root of the masternode list

`CSimplifiedMNList::CalcMerkleRoot` (`vendor/simplifiedmns.hpp`) and the cache
`IncrementalSmlMerkle` (`vendor/incremental_sml_merkle.hpp`), which keeps the
leaves and the tree of the last list and hashes again only what changed.  The
hash of an entry and the hash of two nodes are parameters.
-/

namespace C2Pool.Dash

open List

/-- `CalcHash` and `merkle_pair_hash`. -/
structure SmlHash where
  calcHash : SmlEntry → Uint256
  merklePairHash : Uint256 → Uint256 → Uint256

/-- The order of `memcmp` on the registration hashes. -/
def KeyBefore (a b : SmlEntry) : Prop := wireBytes a.proRegTxHash ≤ wireBytes b.proRegTxHash

instance : DecidableRel KeyBefore := fun a b =>
  inferInstanceAs (Decidable (wireBytes a.proRegTxHash ≤ wireBytes b.proRegTxHash))

/-- `CSimplifiedMNList::sort`. -/
def sortSml (entries : List SmlEntry) : List SmlEntry := entries.insertionSort KeyBefore

/-- `CalcMerkleRoot` of a list in order. -/
def calcMerkleRoot (hash : SmlHash) (mnList : List SmlEntry) : Uint256 :=
  PairTree.computeRoot hash.merklePairHash 0 (mnList.map hash.calcHash)

/-! ## The cache -/

/-- `IncrementalSmlMerkle::Leaf`. -/
structure SmlLeaf where
  key : Uint256
  entry : SmlEntry
  hash : Uint256
deriving DecidableEq

def SmlHash.leaf (hash : SmlHash) (e : SmlEntry) : SmlLeaf := ⟨e.proRegTxHash, e, hash.calcHash e⟩

structure IncrementalSmlMerkle where
  leaves : List SmlLeaf := []
  levels : List (List Uint256) := []
  root : Uint256 := 0
  valid : Bool := false
deriving DecidableEq

/-- What the merge of `update` builds. -/
structure SmlMerge where
  merged : List SmlLeaf := []
  valueDirty : List Nat := []
  structural : Bool := false

/-- The loop of `update` over the sorted entries and the cached leaves. -/
def mergeLeaves (hash : SmlHash) : Nat → List SmlEntry → List SmlLeaf → SmlMerge → SmlMerge
  | 0, _, _, acc => acc
  | _ + 1, [], [], acc => acc
  | fuel + 1, e :: entries, [], acc =>
    mergeLeaves hash fuel entries []
      { acc with merged := acc.merged ++ [hash.leaf e], structural := true }
  | fuel + 1, [], _ :: leaves, acc =>
    mergeLeaves hash fuel [] leaves { acc with structural := true }
  | fuel + 1, e :: entries, l :: leaves, acc =>
    if wireBytes e.proRegTxHash < wireBytes l.key then
      mergeLeaves hash fuel entries (l :: leaves)
        { acc with merged := acc.merged ++ [hash.leaf e], structural := true }
    else if wireBytes l.key < wireBytes e.proRegTxHash then
      mergeLeaves hash fuel (e :: entries) leaves { acc with structural := true }
    else if e = l.entry then
      mergeLeaves hash fuel entries leaves
        { acc with merged := acc.merged ++ [⟨e.proRegTxHash, e, l.hash⟩] }
    else
      mergeLeaves hash fuel entries leaves
        { acc with
          merged := acc.merged ++ [hash.leaf e]
          valueDirty := acc.valueDirty ++ [acc.merged.length] }

namespace IncrementalSmlMerkle

def rootOfLevels (levels : List (List Uint256)) : Uint256 :=
  (levels.getLast?.bind List.head?).getD 0

def rebuildTree (hash : SmlHash) (c : IncrementalSmlMerkle) : IncrementalSmlMerkle :=
  let levels := PairTree.build hash.merklePairHash (c.leaves.map SmlLeaf.hash)
  { c with levels := levels, root := rootOfLevels levels }

def recomputePaths (hash : SmlHash) (dirty : List Nat) (c : IncrementalSmlMerkle) :
    IncrementalSmlMerkle :=
  let levels := PairTree.recomputePaths hash.merklePairHash dirty c.levels
  { c with levels := levels, root := rootOfLevels levels }

def setLevel0 (c : IncrementalSmlMerkle) (i : Nat) (h : Uint256) : IncrementalSmlMerkle :=
  match c.levels with
  | [] => c
  | level :: above => { c with levels := level.set i h :: above }

def patchLevel0 (c : IncrementalSmlMerkle) (dirty : List Nat) : IncrementalSmlMerkle :=
  dirty.foldl (fun c i =>
    match c.leaves[i]? with
    | some leaf => c.setLevel0 i leaf.hash
    | none => c) c

def SameShape (c : IncrementalSmlMerkle) (structural : Bool) (leaves : List SmlLeaf) : Prop :=
  c.valid ∧ ¬ structural ∧ (c.levels.head?.map List.length) = some leaves.length

instance (c : IncrementalSmlMerkle) (structural : Bool) (leaves : List SmlLeaf) :
    Decidable (c.SameShape structural leaves) :=
  inferInstanceAs (Decidable (_ ∧ _ ∧ _))

def update (hash : SmlHash) (c : IncrementalSmlMerkle) (entries : List SmlEntry) :
    IncrementalSmlMerkle :=
  let m := mergeLeaves hash (entries.length + c.leaves.length) (sortSml entries) c.leaves {}
  let merged := { c with leaves := m.merged }
  if m.merged = [] then { leaves := [], levels := [], root := 0, valid := true }
  else if c.SameShape m.structural m.merged then
    if m.valueDirty = [] then merged
    else { (merged.patchLevel0 m.valueDirty).recomputePaths hash m.valueDirty with valid := true }
  else { merged.rebuildTree hash with valid := true }

/-- The loop of the binary search in `apply_value_changes`. -/
def lowerBound (leaves : List SmlLeaf) (key : Uint256) : Nat → Nat → Nat → Nat
  | 0, lo, _ => lo
  | fuel + 1, lo, hi =>
    if lo < hi then
      let mid := lo + (hi - lo) / 2
      match leaves[mid]? with
      | some leaf =>
        if wireBytes leaf.key < wireBytes key then lowerBound leaves key fuel (mid + 1) hi
        else lowerBound leaves key fuel lo mid
      | none => lo
    else lo

/-- One change of `apply_value_changes`, with the position that becomes dirty. -/
def changeLeaf (hash : SmlHash) (c : IncrementalSmlMerkle) (e : SmlEntry) :
    Option (IncrementalSmlMerkle × Nat) :=
  let lo := lowerBound c.leaves e.proRegTxHash c.leaves.length 0 c.leaves.length
  match c.leaves[lo]? with
  | none => none
  | some leaf =>
    if leaf.key ≠ e.proRegTxHash then none
    else
      let new : SmlLeaf := ⟨leaf.key, e, hash.calcHash e⟩
      some ({ c with leaves := c.leaves.set lo new }.setLevel0 lo new.hash, lo)

/-- The loop of `apply_value_changes`: the cache as far as it got, and the dirty positions when
every key was there. -/
def changeLeaves (hash : SmlHash) :
    IncrementalSmlMerkle → List Nat → List SmlEntry → IncrementalSmlMerkle × Option (List Nat)
  | c, dirty, [] => (c, some dirty)
  | c, dirty, e :: changed =>
    match c.changeLeaf hash e with
    | none => (c, none)
    | some (c, lo) => changeLeaves hash c (dirty ++ [lo]) changed

/-- `apply_value_changes`: `false` where it returns `nullopt`. -/
def applyValueChanges (hash : SmlHash) (c : IncrementalSmlMerkle) (changed : List SmlEntry) :
    IncrementalSmlMerkle × Bool :=
  if ¬ c.valid ∨ c.leaves = [] ∨ c.levels = [] then (c, false)
  else if (c.levels.head?.map List.length) ≠ some c.leaves.length then (c, false)
  else
    match changeLeaves hash c [] changed with
    | (c, none) => (c, false)
    | (c, some dirty) => (if dirty = [] then c else c.recomputePaths hash dirty, true)

def reset : IncrementalSmlMerkle := {}

end IncrementalSmlMerkle

section Merge

variable {hash : SmlHash}

variable {fuel : Nat}

theorem merged_mergeLeaves {es : List SmlEntry} {old : List SmlEntry}
    {acc : SmlMerge} (hfuel : es.length + old.length ≤ fuel) :
    (mergeLeaves hash fuel es (old.map hash.leaf) acc).merged = acc.merged ++ es.map hash.leaf := by
  induction fuel generalizing es old acc with
  | zero =>
    have hes : es = [] := eq_nil_of_length_eq_zero (by omega)
    simp [mergeLeaves, hes]
  | succ fuel ih =>
    cases es with
    | nil =>
      cases old with
      | nil => simp [mergeLeaves]
      | cons o old =>
        rw [map_cons]
        unfold mergeLeaves
        rw [ih (by simp only [length_cons] at hfuel; omega)]
    | cons e es =>
      simp only [length_cons] at hfuel
      cases old with
      | nil =>
        unfold mergeLeaves
        rw [map_nil]
        have hrest := @ih es [] { acc with
          merged := acc.merged ++ [hash.leaf e]
          structural := true } (by simp only [length_nil]; omega)
        rw [map_nil] at hrest
        rw [hrest]
        simp
      | cons o old =>
        simp only [length_cons] at hfuel
        rw [map_cons]
        unfold mergeLeaves
        split
        · have hrest := @ih es (o :: old) { acc with
            merged := acc.merged ++ [hash.leaf e]
            structural := true } (by simp only [length_cons]; omega)
          rw [map_cons] at hrest
          rw [hrest]
          simp
        split
        · rw [ih (by simp only [length_cons]; omega)]
        split
        · rename_i heq
          rw [ih (by omega)]
          have hleaf : (⟨e.proRegTxHash, e, (hash.leaf o).hash⟩ : SmlLeaf) = hash.leaf e := by
            rw [heq]
            rfl
          rw [hleaf]
          simp
        · rw [ih (by omega)]
          simp

theorem structural_mergeLeaves {es : List SmlEntry} {leaves : List SmlLeaf} {acc : SmlMerge}
    (h : acc.structural = true) : (mergeLeaves hash fuel es leaves acc).structural = true := by
  induction fuel generalizing es leaves acc with
  | zero => exact h
  | succ fuel ih =>
    cases es with
    | nil =>
      cases leaves with
      | nil => exact h
      | cons l leaves => exact ih rfl
    | cons e es =>
      cases leaves with
      | nil => exact ih rfl
      | cons l leaves =>
        unfold mergeLeaves
        split
        · exact ih rfl
        split
        · exact ih rfl
        split
        · exact ih h
        · exact ih h

theorem mergeLeaves_of_not_structural {es : List SmlEntry} {old : List SmlEntry}
    {acc : SmlMerge} (hfuel : es.length + old.length ≤ fuel)
    (h : (mergeLeaves hash fuel es (old.map hash.leaf) acc).structural = false) :
    es.length = old.length ∧
      (∀ i ∈ acc.valueDirty, i ∈ (mergeLeaves hash fuel es (old.map hash.leaf) acc).valueDirty) ∧
      ∀ i, es[i]? ≠ old[i]? →
        acc.merged.length + i ∈ (mergeLeaves hash fuel es (old.map hash.leaf) acc).valueDirty := by
  induction fuel generalizing es old acc with
  | zero =>
    have hes : es = [] := eq_nil_of_length_eq_zero (by omega)
    have hold : old = [] := eq_nil_of_length_eq_zero (by omega)
    subst hes hold
    exact ⟨rfl, fun i hi => hi, fun i hi => absurd rfl hi⟩
  | succ fuel ih =>
    cases es with
    | nil =>
      cases old with
      | nil => exact ⟨rfl, fun i hi => hi, fun i hi => absurd rfl hi⟩
      | cons o old =>
        rw [map_cons] at h
        unfold mergeLeaves at h
        rw [structural_mergeLeaves rfl] at h
        cases h
    | cons e es =>
      cases old with
      | nil =>
        rw [map_nil] at h
        unfold mergeLeaves at h
        rw [structural_mergeLeaves rfl] at h
        cases h
      | cons o old =>
        simp only [length_cons] at hfuel
        rw [map_cons] at h ⊢
        unfold mergeLeaves at h ⊢
        split at h
        · rw [structural_mergeLeaves rfl] at h
          cases h
        rename_i hbefore
        split at h
        · rw [structural_mergeLeaves rfl] at h
          cases h
        rename_i hafter
        rw [if_neg hbefore, if_neg hafter]
        split at h
        · rename_i heq
          rw [if_pos heq]
          obtain ⟨hlen, hkept, hmarked⟩ := ih (by omega) h
          refine ⟨by simp [hlen], hkept, ?_⟩
          intro i hi
          cases i with
          | zero =>
            have hsame : e = o := heq
            simp [hsame] at hi
          | succ i =>
            have hi' := hmarked i (by simpa using hi)
            rw [length_append, length_singleton] at hi'
            rw [Nat.add_comm i 1, ← Nat.add_assoc]
            exact hi'
        rename_i hne
        rw [if_neg hne]
        obtain ⟨hlen, hkept, hmarked⟩ := ih (by omega) h
        refine ⟨by simp [hlen], ?_, ?_⟩
        · intro i hi
          exact hkept i (mem_append_left _ hi)
        intro i hi
        cases i with
        | zero => exact hkept _ (mem_append_right _ (by simp))
        | succ i =>
          have hi' := hmarked i (by simpa using hi)
          rw [length_append, length_singleton] at hi'
          rw [Nat.add_comm i 1, ← Nat.add_assoc]
          exact hi'

end Merge

/-! ## The whole tree -/

namespace IncrementalSmlMerkle

variable {hash : SmlHash} {c : IncrementalSmlMerkle} {sml : List SmlEntry} {j : Nat} {e : SmlEntry}
  {changed : List SmlEntry}

def built (hash : SmlHash) (sml : List SmlEntry) : IncrementalSmlMerkle where
  leaves := sml.map hash.leaf
  levels := if sml = [] then [] else PairTree.build hash.merklePairHash (sml.map hash.calcHash)
  root := calcMerkleRoot hash sml
  valid := true

theorem rootOfLevels_build (sml : List SmlEntry) :
    rootOfLevels (PairTree.build hash.merklePairHash (sml.map hash.calcHash)) =
      calcMerkleRoot hash sml := by
  unfold rootOfLevels PairTree.build calcMerkleRoot PairTree.computeRoot
  rw [PairTree.reduce_eq]

theorem map_hash_leaf (sml : List SmlEntry) :
    (sml.map hash.leaf).map SmlLeaf.hash = sml.map hash.calcHash := by
  rw [map_map]
  rfl

theorem levels_built {sml : List SmlEntry} (h : sml ≠ []) :
    (built hash sml).levels = sml.map hash.calcHash ::
      (PairTree.levels hash.merklePairHash sml.length (sml.map hash.calcHash)).tail := by
  unfold built PairTree.build
  rw [if_neg h, length_map]
  obtain ⟨above, habove⟩ :=
    PairTree.exists_levels_eq_cons hash.merklePairHash sml.length (sml.map hash.calcHash)
  rw [habove, tail_cons]

theorem recomputePaths_eq_built {old new : List SmlEntry} (hlen : new.length = old.length)
    (hne : new ≠ []) {dirty : List Nat} (hdirty : ∀ i, i ∉ dirty → new[i]? = old[i]?)
    (hleaves : c.leaves = new.map hash.leaf) (hlevels : c.levels = new.map hash.calcHash ::
      (PairTree.levels hash.merklePairHash old.length (old.map hash.calcHash)).tail)
    (hvalid : c.valid = true) : c.recomputePaths hash dirty = built hash new := by
  have hpaths : PairTree.recomputePaths hash.merklePairHash dirty c.levels =
      PairTree.build hash.merklePairHash (new.map hash.calcHash) := by
    rw [hlevels, PairTree.recomputePaths_levels old.length (by simp [hlen])]
    · unfold PairTree.build
      rw [length_map, hlen]
    · intro i hi
      rw [List.getElem?_map, List.getElem?_map, hdirty i hi]
  unfold recomputePaths built
  dsimp only
  rw [hpaths, rootOfLevels_build, hleaves, hvalid, if_neg hne]

theorem leaves_setLevel0 (c : IncrementalSmlMerkle) (i : Nat) (h : Uint256) :
    (c.setLevel0 i h).leaves = c.leaves ∧ (c.setLevel0 i h).valid = c.valid := by
  unfold setLevel0
  split
  · exact ⟨rfl, rfl⟩
  · exact ⟨rfl, rfl⟩

theorem levels_setLevel0 {c : IncrementalSmlMerkle} {level : List Uint256}
    {above : List (List Uint256)} (hlevels : c.levels = level :: above) (i : Nat) (h : Uint256) :
    (c.setLevel0 i h).levels = level.set i h :: above := by
  unfold setLevel0
  rw [hlevels]

theorem patchLevel0_eq {new : List SmlEntry} {c : IncrementalSmlMerkle} {level : List Uint256}
    {above : List (List Uint256)} (hleaves : c.leaves = new.map hash.leaf)
    (hlevels : c.levels = level :: above) (hlen : level.length = new.length) {dirty : List Nat}
    (hdirty : ∀ i, i ∉ dirty → level[i]? = (new.map hash.calcHash)[i]?) :
    (c.patchLevel0 dirty).leaves = new.map hash.leaf ∧
      (c.patchLevel0 dirty).valid = c.valid ∧
      (c.patchLevel0 dirty).levels = new.map hash.calcHash :: above := by
  induction dirty generalizing c level with
  | nil =>
    refine ⟨hleaves, rfl, ?_⟩
    have heq : level = new.map hash.calcHash := by
      apply ext_getElem?
      intro i
      exact hdirty i (by simp)
    unfold patchLevel0
    rw [foldl_nil, hlevels, heq]
  | cons i dirty ih =>
    unfold patchLevel0
    rw [foldl_cons, hleaves, List.getElem?_map]
    cases hi : new[i]? with
    | none =>
      refine ih hleaves hlevels hlen ?_
      intro j hj
      by_cases heq : j = i
      · have hout : new.length ≤ j := by
          rw [heq]
          exact getElem?_eq_none_iff.mp hi
        rw [getElem?_eq_none (by omega), getElem?_eq_none (by simpa using hout)]
      · exact hdirty j (by simp [heq, hj])
    | some e =>
      obtain ⟨hleaves', hvalid'⟩ := leaves_setLevel0 c i (hash.leaf e).hash
      have hstep := ih (hleaves'.trans hleaves)
        (levels_setLevel0 hlevels i (hash.leaf e).hash) (by simp [hlen]) (by
          intro j hj
          by_cases heq : j = i
          · have hlt := (List.getElem?_eq_some_iff.mp hi).1
            rw [heq, List.getElem?_set_self (by omega), List.getElem?_map, hi]
            rfl
          · rw [getElem?_set_ne (Ne.symm heq)]
            exact hdirty j (by simp [heq, hj]))
      rw [hvalid'] at hstep
      exact hstep

/-- `update` gives the full build of the entries in order, from a cache that is a full build or is
not valid. -/
theorem update_eq_built {c : IncrementalSmlMerkle} {old : List SmlEntry}
    (hc : c = built hash old ∨ c.valid = false ∧ c.leaves = old.map hash.leaf)
    (entries : List SmlEntry) : c.update hash entries = built hash (sortSml entries) := by
  have hleaves : c.leaves = old.map hash.leaf := by
    rcases hc with rfl | ⟨-, hleaves⟩
    · rfl
    · exact hleaves
  have hlength : (sortSml entries).length = entries.length := length_insertionSort _ _
  generalize hsorted : sortSml entries = sml at hlength
  have hfuel : sml.length + old.length ≤ entries.length + c.leaves.length := by
    rw [hleaves, length_map, hlength]
  have hmerged := @merged_mergeLeaves hash (entries.length + c.leaves.length) sml old {} hfuel
  have hmarks := @mergeLeaves_of_not_structural hash (entries.length + c.leaves.length) sml old
    {} hfuel
  rw [← hleaves] at hmerged hmarks
  unfold update
  rw [hsorted]
  generalize mergeLeaves hash (entries.length + c.leaves.length) sml c.leaves {} = m
    at hmerged hmarks
  have hmerged' : m.merged = sml.map hash.leaf := by simpa using hmerged
  by_cases hnil : sml = []
  · rw [if_pos (by rw [hmerged', hnil]; rfl), hnil]
    rfl
  rw [if_neg (by rw [hmerged']; simpa using hnil)]
  split
  · rename_i hshape
    obtain ⟨hvalid, hstructural, -⟩ := hshape
    have hbuilt : c = built hash old := by
      rcases hc with hbuilt | ⟨hinvalid, -⟩
      · exact hbuilt
      · rw [hinvalid] at hvalid
        cases hvalid
    obtain ⟨hlen, -, hmarked⟩ := hmarks (by simpa using hstructural)
    have hclean : ∀ i, i ∉ m.valueDirty → sml[i]? = old[i]? := by
      intro i hi
      by_contra hne
      apply hi
      simpa using hmarked i hne
    have hold : old ≠ [] := by
      intro hold
      rw [hold] at hlen
      exact hnil (eq_nil_of_length_eq_zero hlen)
    split
    · rename_i hquiet
      have hsame : sml = old := by
        apply ext_getElem?
        intro i
        exact hclean i (by simp [hquiet])
      rw [hmerged', hsame, hbuilt]
      rfl
    have hlevels : c.levels = old.map hash.calcHash ::
        (PairTree.levels hash.merklePairHash old.length (old.map hash.calcHash)).tail := by
      rw [hbuilt, levels_built hold]
    obtain ⟨hleaves', hvalid', hlevels'⟩ := @patchLevel0_eq hash sml
      { c with leaves := m.merged } _ _ hmerged' hlevels (by simp [hlen]) m.valueDirty (by
        intro i hi
        rw [List.getElem?_map, List.getElem?_map, hclean i hi])
    have hpaths := recomputePaths_eq_built hlen hnil hclean hleaves' hlevels' (hvalid'.trans hvalid)
    rw [hpaths]
    rfl
  · unfold rebuildTree built
    dsimp only
    rw [hmerged', map_hash_leaf, rootOfLevels_build, if_neg hnil]

/-! ## Changes in place -/

def Ordered (sml : List SmlEntry) : Prop :=
  sml.Pairwise fun a b => wireBytes a.proRegTxHash < wireBytes b.proRegTxHash

def replaceEntry (sml : List SmlEntry) (e : SmlEntry) : List SmlEntry :=
  sml.map fun x => if x.proRegTxHash = e.proRegTxHash then e else x

theorem map_key_replaceEntry (sml : List SmlEntry) (e : SmlEntry) :
    (replaceEntry sml e).map SmlEntry.proRegTxHash = sml.map SmlEntry.proRegTxHash := by
  unfold replaceEntry
  rw [map_map]
  apply map_congr_left
  intro x _
  dsimp only [Function.comp]
  split
  · rename_i heq
    exact heq.symm
  · rfl

theorem ordered_iff_keys (sml : List SmlEntry) :
    Ordered sml ↔ (sml.map SmlEntry.proRegTxHash).Pairwise
      fun a b => wireBytes a < wireBytes b := by
  unfold Ordered
  rw [pairwise_map]

theorem Ordered.replaceEntry {sml : List SmlEntry} (h : Ordered sml) (e : SmlEntry) :
    Ordered (replaceEntry sml e) := by
  rw [ordered_iff_keys, map_key_replaceEntry, ← ordered_iff_keys]
  exact h

theorem Ordered.lt_of_lt (h : Ordered sml) {i : Nat} {a b : SmlEntry}
    (hi : sml[i]? = some a) (hj : sml[j]? = some b) (hij : i < j) :
    wireBytes a.proRegTxHash < wireBytes b.proRegTxHash := by
  obtain ⟨hi', rfl⟩ := List.getElem?_eq_some_iff.mp hi
  obtain ⟨hj', rfl⟩ := List.getElem?_eq_some_iff.mp hj
  exact pairwise_iff_getElem.mp h i j hi' hj' hij

theorem lowerBound_eq (h : Ordered sml) {key : Uint256} (hj : sml[j]? = some e)
    (hkey : e.proRegTxHash = key) {fuel lo hi : Nat}
    (hfuel : hi - lo ≤ fuel) (hlo : lo ≤ j) (hhi : j ≤ hi) (hlen : hi ≤ sml.length) :
    lowerBound (sml.map hash.leaf) key fuel lo hi = j := by
  induction fuel generalizing lo hi with
  | zero =>
    unfold lowerBound
    omega
  | succ fuel ih =>
    unfold lowerBound
    by_cases hlt : lo < hi
    · rw [if_pos hlt]
      dsimp only
      generalize hmid : lo + (hi - lo) / 2 = mid
      obtain ⟨x, hx⟩ : ∃ x, sml[mid]? = some x :=
        ⟨sml.get ⟨mid, by omega⟩, getElem?_eq_getElem (by omega)⟩
      rw [List.getElem?_map, hx]
      dsimp only [Option.map_some]
      split
      · rename_i hbefore
        have hmidj : mid < j := by
          by_contra hge
          rcases Nat.lt_or_eq_of_le (Nat.le_of_not_lt hge) with hgt | heq
          · have horder := h.lt_of_lt hj hx hgt
            rw [hkey] at horder
            exact lt_asymm hbefore horder
          rw [← heq, hj, Option.some.injEq] at hx
          have hsame : (hash.leaf x).key = key := by
            rw [← hx]
            exact hkey
          rw [hsame] at hbefore
          exact lt_irrefl _ hbefore
        exact ih (by omega) (by omega) hhi hlen
      rename_i hbefore
      have hmidj : j ≤ mid := by
        by_contra hlt'
        have horder := h.lt_of_lt hx hj (Nat.lt_of_not_le hlt')
        rw [hkey] at horder
        exact hbefore horder
      exact ih (by omega) hlo hmidj (by omega)
    · rw [if_neg hlt]
      omega

theorem replaceEntry_eq_set (h : Ordered sml) {x : SmlEntry} (hj : sml[j]? = some x)
    (hkey : x.proRegTxHash = e.proRegTxHash) : replaceEntry sml e = sml.set j e := by
  apply ext_getElem?
  intro i
  unfold replaceEntry
  rw [List.getElem?_map]
  by_cases heq : i = j
  · subst heq
    have hlt := (List.getElem?_eq_some_iff.mp hj).1
    rw [hj, List.getElem?_set_self hlt, Option.map_some, if_pos hkey]
  rw [getElem?_set_ne (Ne.symm heq)]
  cases hi : sml[i]? with
  | none => rfl
  | some y =>
    rw [Option.map_some, if_neg]
    intro hsame
    rcases Nat.lt_or_gt_of_ne heq with hlt | hgt
    · have horder := h.lt_of_lt hi hj hlt
      rw [hsame, hkey] at horder
      exact lt_irrefl _ horder
    have horder := h.lt_of_lt hj hi hgt
    rw [hsame, hkey] at horder
    exact lt_irrefl _ horder

theorem changeLeaf_eq (h : Ordered sml) {above : List (List Uint256)}
    (hleaves : c.leaves = sml.map hash.leaf) (hlevels : c.levels = sml.map hash.calcHash :: above)
    (hmem : e.proRegTxHash ∈ sml.map SmlEntry.proRegTxHash) :
    ∃ c' j, c.changeLeaf hash e = some (c', j) ∧
      c'.leaves = (replaceEntry sml e).map hash.leaf ∧
      c'.levels = (replaceEntry sml e).map hash.calcHash :: above ∧ c'.valid = c.valid ∧
      ∀ i, i ≠ j → (replaceEntry sml e)[i]? = sml[i]? := by
  obtain ⟨x, hx, hkey⟩ := mem_map.mp hmem
  obtain ⟨j, hj, hget⟩ := mem_iff_getElem.mp hx
  have hj' : sml[j]? = some x := by
    rw [getElem?_eq_getElem hj, hget]
  have hplace : lowerBound c.leaves e.proRegTxHash c.leaves.length 0 c.leaves.length = j := by
    rw [hleaves, length_map]
    exact lowerBound_eq h hj' hkey (by omega) (by omega) (by omega) le_rfl
  have hset := replaceEntry_eq_set h hj' hkey
  have hleaf : (⟨(hash.leaf x).key, e, hash.calcHash e⟩ : SmlLeaf) = hash.leaf e := by
    unfold SmlHash.leaf
    rw [hkey]
  obtain ⟨hleaves', hvalid'⟩ := leaves_setLevel0
    { c with leaves := c.leaves.set j (hash.leaf e) } j (hash.calcHash e)
  have hlevels' := @levels_setLevel0 { c with leaves := c.leaves.set j (hash.leaf e) } _ _ hlevels
    j (hash.calcHash e)
  refine ⟨_, j, ?_, hleaves'.trans ?_, hlevels'.trans ?_, hvalid', ?_⟩
  · unfold changeLeaf
    dsimp only
    rw [hplace, hleaves, List.getElem?_map, hj', Option.map_some]
    dsimp only
    have hkey' : ¬ (hash.leaf x).key ≠ e.proRegTxHash := not_not.mpr hkey
    rw [if_neg hkey', hleaf]
  · rw [hleaves, hset, map_set]
  · rw [hset, map_set]
  · intro i hi
    rw [hset, getElem?_set_ne (Ne.symm hi)]

theorem changeLeaves_eq {sml : List SmlEntry} (h : Ordered sml) {c : IncrementalSmlMerkle}
    {above : List (List Uint256)} (hleaves : c.leaves = sml.map hash.leaf)
    (hlevels : c.levels = sml.map hash.calcHash :: above) {dirty : List Nat}
    (hmem : ∀ e ∈ changed, e.proRegTxHash ∈ sml.map SmlEntry.proRegTxHash) :
    ∃ c' dirty', changeLeaves hash c dirty changed = (c', some dirty') ∧
      c'.leaves = (changed.foldl replaceEntry sml).map hash.leaf ∧
      c'.levels = (changed.foldl replaceEntry sml).map hash.calcHash :: above ∧
      c'.valid = c.valid ∧ dirty ⊆ dirty' ∧ (changed ≠ [] → dirty' ≠ []) ∧
      ∀ i, i ∉ dirty' → (changed.foldl replaceEntry sml)[i]? = sml[i]? := by
  induction changed generalizing sml c dirty with
  | nil =>
    exact ⟨c, dirty, rfl, hleaves, hlevels, rfl, fun _ hi => hi, fun hne => absurd rfl hne,
      fun _ _ => rfl⟩
  | cons e changed ih =>
    obtain ⟨c₁, j, hstep, hleaves₁, hlevels₁, hvalid₁, hkept₁⟩ :=
      changeLeaf_eq h hleaves hlevels (hmem e (by simp))
    obtain ⟨c', dirty', hrun, hleaves', hlevels', hvalid', hsub, -, hkept'⟩ :=
      @ih (replaceEntry sml e) (h.replaceEntry e) c₁ hleaves₁ hlevels₁ (dirty ++ [j]) (by
        intro e' he'
        rw [map_key_replaceEntry]
        exact hmem e' (by simp [he']))
    have hj : j ∈ dirty' := hsub (by simp)
    refine ⟨c', dirty', ?_, hleaves', hlevels', hvalid'.trans hvalid₁, ?_, ?_, ?_⟩
    · unfold changeLeaves
      rw [hstep]
      exact hrun
    · intro i hi
      exact hsub (by simp [hi])
    · intro _ hnil
      rw [hnil] at hj
      simp at hj
    · intro i hi
      rw [foldl_cons, hkept' i hi]
      apply hkept₁
      intro heq
      rw [heq] at hi
      exact hi hj

theorem map_key_foldl_replaceEntry (changed sml : List SmlEntry) :
    (changed.foldl replaceEntry sml).map SmlEntry.proRegTxHash = sml.map SmlEntry.proRegTxHash := by
  induction changed generalizing sml with
  | nil => rfl
  | cons e changed ih => rw [foldl_cons, ih, map_key_replaceEntry]

/-- `apply_value_changes` on a full build gives the full build of the changed list. -/
theorem applyValueChanges_eq (h : Ordered sml) (hne : sml ≠ [])
    (hmem : ∀ e ∈ changed, e.proRegTxHash ∈ sml.map SmlEntry.proRegTxHash) :
    (built hash sml).applyValueChanges hash changed =
      (built hash (changed.foldl replaceEntry sml), true) := by
  have hlevels := @levels_built hash sml hne
  obtain ⟨c', dirty, hrun, hleaves', hlevels', hvalid', -, hdirty, hkept⟩ :=
    @changeLeaves_eq hash changed sml h (built hash sml) _ rfl hlevels [] hmem
  have hlen : (changed.foldl replaceEntry sml).length = sml.length := by
    have hkeys := congrArg List.length (map_key_foldl_replaceEntry changed sml)
    simpa using hkeys
  have hne' : changed.foldl replaceEntry sml ≠ [] := by
    intro hnil
    rw [hnil] at hlen
    exact hne (eq_nil_of_length_eq_zero hlen.symm)
  unfold applyValueChanges
  have hready : ¬ (¬ (built hash sml).valid = true ∨ (built hash sml).leaves = [] ∨
      (built hash sml).levels = []) := by
    rw [hlevels]
    unfold built
    simp [hne]
  have hshape : ¬ ((built hash sml).levels.head?.map List.length ≠
      some (built hash sml).leaves.length) := by
    rw [hlevels]
    unfold built
    simp
  rw [if_neg hready, if_neg hshape, hrun]
  dsimp only
  split
  · rename_i hnil
    cases changed with
    | nil =>
      rw [foldl_nil, (Prod.mk.inj hrun).1]
    | cons e changed => exact absurd hnil (hdirty (by simp))
  · rw [recomputePaths_eq_built hlen hne' hkept hleaves' hlevels' hvalid']

/-! ## Runs -/

inductive SmlCall where
  | update (entries : List SmlEntry)
  | applyValueChanges (changed : List SmlEntry)
  | reset

def call (hash : SmlHash) (c : IncrementalSmlMerkle) :
    SmlCall → IncrementalSmlMerkle × Option Uint256
  | .update entries => (c.update hash entries, some (c.update hash entries).root)
  | .applyValueChanges changed =>
    let (c, ok) := c.applyValueChanges hash changed
    (c, if ok then some c.root else none)
  | .reset => (reset, none)

def HasKey (sml : List SmlEntry) (e : SmlEntry) : Prop :=
  e.proRegTxHash ∈ sml.map SmlEntry.proRegTxHash

instance (sml : List SmlEntry) : DecidablePred (HasKey sml) := fun e =>
  inferInstanceAs (Decidable (e.proRegTxHash ∈ sml.map SmlEntry.proRegTxHash))

/-- The last set after a call, in order; `none` without one. -/
def lastSet (last : Option (List SmlEntry)) : SmlCall → Option (List SmlEntry)
  | .update entries => some (sortSml entries)
  | .applyValueChanges changed =>
    last.map fun sml => if ∀ e ∈ changed, HasKey sml e then changed.foldl replaceEntry sml else sml
  | .reset => none

/-- The keys of an update are distinct, and the entries before the first one that the last set does
not have are as the set has them. -/
def Clean (last : Option (List SmlEntry)) : SmlCall → Prop
  | .update entries => (entries.map SmlEntry.proRegTxHash).Nodup
  | .applyValueChanges changed => ∀ sml, last = some sml → ¬ (∀ e ∈ changed, HasKey sml e) →
    ∀ e ∈ changed.takeWhile fun e => HasKey sml e, e ∈ sml
  | .reset => True

def rootDue (hash : SmlHash) (last : Option (List SmlEntry)) : SmlCall → Option Uint256
  | .update entries => some (calcMerkleRoot hash (sortSml entries))
  | .applyValueChanges changed =>
    last.map fun sml => calcMerkleRoot hash (changed.foldl replaceEntry sml)
  | .reset => none

def runCalls (hash : SmlHash) (s : IncrementalSmlMerkle × Option (List SmlEntry))
    (calls : List SmlCall) : IncrementalSmlMerkle × Option (List SmlEntry) :=
  calls.foldl (fun s x => ((s.1.call hash x).1, lastSet s.2 x)) s

def AlwaysClean : Option (List SmlEntry) → List SmlCall → Prop
  | _, [] => True
  | last, x :: calls => Clean last x ∧ AlwaysClean (lastSet last x) calls

def Mirrors (hash : SmlHash) (c : IncrementalSmlMerkle) : Option (List SmlEntry) → Prop
  | none => c = reset
  | some sml => c = built hash sml ∧ Ordered sml

instance : Std.Total KeyBefore where
  total a b := le_total (wireBytes a.proRegTxHash) (wireBytes b.proRegTxHash)

instance : IsTrans SmlEntry KeyBefore where
  trans _ _ _ := le_trans

theorem ordered_sortSml {entries : List SmlEntry}
    (h : (entries.map SmlEntry.proRegTxHash).Nodup) : Ordered (sortSml entries) := by
  have hsorted : (sortSml entries).Pairwise KeyBefore := pairwise_insertionSort KeyBefore entries
  have hnodup : ((sortSml entries).map SmlEntry.proRegTxHash).Nodup :=
    ((perm_insertionSort KeyBefore entries).map _).nodup_iff.mpr h
  rw [Nodup, pairwise_map] at hnodup
  exact (hsorted.and hnodup).imp fun hab =>
    lt_of_le_of_ne hab.1 fun heq => hab.2 (wireBytes_injective heq)

theorem replaceEntry_of_mem (h : Ordered sml) (he : e ∈ sml) : replaceEntry sml e = sml := by
  have hnodup : (sml.map SmlEntry.proRegTxHash).Nodup := by
    rw [Nodup, pairwise_map]
    exact h.imp fun hlt heq => hlt.ne (congrArg wireBytes heq)
  unfold replaceEntry
  conv_rhs => rw [← map_id sml]
  apply map_congr_left
  intro x hx
  split
  · rename_i heq
    exact (inj_on_of_nodup_map hnodup hx he heq).symm
  · rfl

theorem root_changeLeaf {c' : IncrementalSmlMerkle} {j : Nat}
    (h : c.changeLeaf hash e = some (c', j)) : c'.root = c.root := by
  unfold changeLeaf at h
  dsimp only at h
  split at h
  · cases h
  split at h
  · cases h
  cases h
  unfold setLevel0
  split <;> rfl

theorem changeLeaf_of_mem (h : Ordered sml) (he : e ∈ sml) :
    ∃ j, (built hash sml).changeLeaf hash e = some (built hash sml, j) := by
  obtain ⟨c', j, hstep, hleaves, hlevels, hvalid, -⟩ := changeLeaf_eq h rfl
    (@levels_built hash _ (ne_nil_of_mem he)) (mem_map_of_mem he)
  have hroot := root_changeLeaf hstep
  rw [replaceEntry_of_mem h he] at hleaves hlevels
  rw [← levels_built (ne_nil_of_mem he)] at hlevels
  refine ⟨j, hstep.trans ?_⟩
  obtain ⟨leaves, levels, root, valid⟩ := c'
  cases hleaves
  cases hlevels
  cases hroot
  cases hvalid
  rfl

theorem changeLeaf_of_not_hasKey (he : ¬ HasKey sml e) :
    (built hash sml).changeLeaf hash e = none := by
  unfold changeLeaf
  dsimp only
  split
  · rfl
  rename_i leaf hleaf
  obtain ⟨x, hx, rfl⟩ := mem_map.mp (mem_of_getElem? hleaf)
  have hkey : (hash.leaf x).key ≠ e.proRegTxHash := fun heq => he (mem_map.mpr ⟨x, hx, heq⟩)
  rw [if_pos hkey]

theorem changeLeaves_of_clean (h : Ordered sml) (hmissing : ¬ ∀ e ∈ changed, HasKey sml e)
    (hclean : ∀ e ∈ changed.takeWhile fun e => HasKey sml e, e ∈ sml) (dirty : List Nat) :
    changeLeaves hash (built hash sml) dirty changed = (built hash sml, none) := by
  induction changed generalizing dirty with
  | nil => exact absurd (by simp) hmissing
  | cons e changed ih =>
    unfold changeLeaves
    by_cases he : HasKey sml e
    · rw [takeWhile_cons_of_pos (by simpa using he)] at hclean
      obtain ⟨j, hstep⟩ := @changeLeaf_of_mem hash sml e h (hclean e (by simp))
      rw [hstep]
      refine ih (fun hall => hmissing ?_) (fun x hx => hclean x (by simp [hx])) _
      intro x hx
      rcases mem_cons.mp hx with rfl | hx
      · exact he
      · exact hall x hx
    · rw [changeLeaf_of_not_hasKey he]

theorem applyValueChanges_of_clean (h : Ordered sml) (hmissing : ¬ ∀ e ∈ changed, HasKey sml e)
    (hclean : ∀ e ∈ changed.takeWhile fun e => HasKey sml e, e ∈ sml) :
    (built hash sml).applyValueChanges hash changed = (built hash sml, false) := by
  unfold applyValueChanges
  split
  · rfl
  split
  · rfl
  · rw [changeLeaves_of_clean h hmissing hclean]

variable {last : Option (List SmlEntry)} {x : SmlCall}

theorem Mirrors.call (h : Mirrors hash c last) (hx : Clean last x) :
    Mirrors hash (c.call hash x).1 (lastSet last x) ∧
      ∀ root, (c.call hash x).2 = some root → rootDue hash last x = some root := by
  cases x with
  | reset => exact ⟨rfl, fun root hroot => (nomatch hroot)⟩
  | update entries =>
    have hbuilt : c.update hash entries = built hash (sortSml entries) := by
      cases last with
      | none => exact @update_eq_built hash c [] (.inr (by rw [h]; exact ⟨rfl, rfl⟩)) entries
      | some sml => exact update_eq_built (.inl h.1) entries
    refine ⟨⟨hbuilt, ordered_sortSml hx⟩, fun root hroot => ?_⟩
    rw [← hroot]
    show some (built hash (sortSml entries)).root = some (c.update hash entries).root
    rw [hbuilt]
  | applyValueChanges changed =>
    unfold IncrementalSmlMerkle.call
    cases last with
    | none =>
      rw [h]
      exact ⟨rfl, fun root hroot => (nomatch hroot)⟩
    | some sml =>
      obtain ⟨rfl, hordered⟩ := h
      dsimp only [lastSet, rootDue, Option.map_some]
      by_cases hall : ∀ e ∈ changed, HasKey sml e
      · rw [if_pos hall]
        by_cases hne : sml = []
        · have hnone : changed = [] := eq_nil_iff_forall_not_mem.mpr fun e he => by
            simpa [HasKey, hne] using hall e he
          rw [hnone, hne]
          exact ⟨⟨rfl, Pairwise.nil⟩, fun root hroot => (nomatch hroot)⟩
        rw [applyValueChanges_eq hordered hne hall]
        refine ⟨⟨rfl, ?_⟩, fun root hroot => hroot⟩
        rw [ordered_iff_keys, map_key_foldl_replaceEntry, ← ordered_iff_keys]
        exact hordered
      · rw [applyValueChanges_of_clean hordered hall (hx sml rfl hall), if_neg hall]
        exact ⟨⟨rfl, hordered⟩, fun root hroot => (nomatch hroot)⟩

variable {calls : List SmlCall}

theorem mirrors_runCalls {s : IncrementalSmlMerkle × Option (List SmlEntry)}
    (h : Mirrors hash s.1 s.2) (hclean : AlwaysClean s.2 calls) :
    Mirrors hash (runCalls hash s calls).1 (runCalls hash s calls).2 := by
  induction calls generalizing s with
  | nil => exact h
  | cons x calls ih => exact ih (h.call hclean.1).1 hclean.2

theorem alwaysClean_append :
    AlwaysClean last (calls ++ [x]) ↔
      AlwaysClean last calls ∧ Clean (calls.foldl lastSet last) x := by
  induction calls generalizing last with
  | nil => simp [AlwaysClean]
  | cons y calls ih => simp [AlwaysClean, ih, and_assoc]

theorem runCalls_snd (s : IncrementalSmlMerkle × Option (List SmlEntry)) (calls : List SmlCall) :
    (runCalls hash s calls).2 = calls.foldl lastSet s.2 := by
  induction calls generalizing s with
  | nil => rfl
  | cons x calls ih => exact ih _

/-- **The incremental root is the full one**, at every call of a run in which no list of changes
gives up after it changed a leaf. -/
theorem incremental_root_eq (hash : SmlHash) (calls : List SmlCall) (x : SmlCall)
    (hclean : AlwaysClean none (calls ++ [x])) :
    let s := runCalls hash (reset, none) calls
    (∀ root, (s.1.call hash x).2 = some root → rootDue hash s.2 x = some root) ∧
      ∀ entries, x = .update entries → (s.1.call hash x).2 =
        some (calcMerkleRoot hash (sortSml entries)) := by
  intro s
  obtain ⟨hcalls, hx⟩ := alwaysClean_append.mp hclean
  have hmirrors : Mirrors hash s.1 s.2 := mirrors_runCalls rfl hcalls
  have hdue := (hmirrors.call (by rw [runCalls_snd]; exact hx)).2
  refine ⟨hdue, fun entries heq => ?_⟩
  rw [heq] at hdue ⊢
  exact (hdue _ rfl).symm

def mn (key : Uint256) (valid : Bool) : SmlEntry := { proRegTxHash := key, isValid := valid }

def smlSum : SmlHash where
  calcHash e := e.proRegTxHash + if e.isValid then 100 else 0
  merklePairHash a b := 2 * a + b

def halfChanged : List SmlCall :=
  [.update [mn 1 true, mn 2 true], .applyValueChanges [mn 1 false, mn 3 true]]

/-- The second change names no leaf, after the first was written; `update` with the first change
then finds nothing to do and returns the root from before it. -/
theorem incremental_root_stale :
    ((runCalls smlSum (reset, none) halfChanged).1.call smlSum
        (.update [mn 1 false, mn 2 true])).2 =
        some (calcMerkleRoot smlSum [mn 1 true, mn 2 true]) ∧
      calcMerkleRoot smlSum [mn 1 true, mn 2 true] ≠
        calcMerkleRoot smlSum (sortSml [mn 1 false, mn 2 true]) := by
  decide +kernel

def cleanlyChanged : List SmlCall :=
  [.update [mn 3 true, mn 1 true, mn 2 true], .applyValueChanges [mn 3 false, mn 1 false],
    .applyValueChanges [mn 4 true]]

theorem incremental_root_eq_three :
    ((runCalls smlSum (reset, none) cleanlyChanged).1.call smlSum
        (.update [mn 1 false, mn 2 true, mn 3 false])).2 =
      some (calcMerkleRoot smlSum (sortSml [mn 1 false, mn 2 true, mn 3 false])) := by
  have hclean : AlwaysClean none (cleanlyChanged ++
      [.update [mn 1 false, mn 2 true, mn 3 false]]) := by
    refine ⟨?_, ?_, ?_, ?_, trivial⟩
    · show ([mn 3 true, mn 1 true, mn 2 true].map SmlEntry.proRegTxHash).Nodup
      decide +kernel
    · rintro sml ⟨⟩ hmissing
      exact absurd (by decide +kernel) hmissing
    · rintro sml ⟨⟩ -
      decide +kernel
    · show ([mn 1 false, mn 2 true, mn 3 false].map SmlEntry.proRegTxHash).Nodup
      decide +kernel
  exact (incremental_root_eq smlSum cleanlyChanged _ hclean).2 _ rfl

end IncrementalSmlMerkle

end C2Pool.Dash
