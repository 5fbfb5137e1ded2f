import C2Pool.Dash.FoldEngine

/-! # The root that a fold checks

`fold_block` compares the committed root with the root of a cached tree.  The
cache follows the list because every pass marks what it changes of a hashed
field, and whatever else happens to the list drops the cache.
-/

namespace C2Pool.Dash

open List SortedMap

namespace DmlFoldEngine

open IncrementalSmlMerkle

/-- The order of `memcmp`. -/
def WireLe (a b : Uint256) : Prop := wireBytes a ≤ wireBytes b

instance : DecidableRel WireLe := fun a b =>
  inferInstanceAs (Decidable (wireBytes a ≤ wireBytes b))

instance : Std.Total WireLe where
  total a b := le_total (wireBytes a) (wireBytes b)

instance : IsTrans Uint256 WireLe where
  trans _ _ _ := le_trans

section Lists

variable {P : Type} (code : FoldCode P)

def smlOf (entries : ReplayEntries) : List SmlEntry := sortSml (materializeSmlEntries code entries)

def smlEntryAt (entries : ReplayEntries) (k : Uint256) : SmlEntry :=
  match entries.lookup k with
  | some st => st.toSmlEntry code k
  | none => { proRegTxHash := k }

theorem proRegTxHash_smlEntryAt (entries : ReplayEntries) (k : Uint256) :
    (smlEntryAt code entries k).proRegTxHash = k := by
  unfold smlEntryAt
  split <;> rfl

def smlKeys (entries : ReplayEntries) : List Uint256 := entries.keys.insertionSort WireLe

theorem materializeSmlEntries_eq (entries : ReplayEntries) :
    materializeSmlEntries code entries = entries.keys.map (smlEntryAt code entries) := by
  unfold materializeSmlEntries SortedMap.keys
  rw [map_map]
  apply map_congr_left
  intro e he
  have hlookup : entries.lookup e.1 = some e.2 := mem_entries_iff.mp he
  dsimp only [Function.comp]
  unfold smlEntryAt
  rw [hlookup]

theorem smlOf_eq (entries : ReplayEntries) :
    smlOf code entries = (smlKeys entries).map (smlEntryAt code entries) := by
  unfold smlOf sortSml smlKeys
  rw [materializeSmlEntries_eq]
  symm
  apply map_insertionSort
  intro a _ b _
  unfold KeyBefore WireLe
  rw [proRegTxHash_smlEntryAt, proRegTxHash_smlEntryAt]

theorem nodup_keys (entries : ReplayEntries) : entries.keys.Nodup := by
  have hsorted : (entries.entries.map Prod.fst).Pairwise (· < ·) := pairwise_map.mpr entries.sorted
  exact hsorted.imp fun hlt => ne_of_lt hlt

theorem ordered_smlOf (entries : ReplayEntries) : Ordered (smlOf code entries) := by
  rw [ordered_iff_keys, smlOf_eq, map_map]
  have hid : SmlEntry.proRegTxHash ∘ smlEntryAt code entries = id := by
    funext k
    exact proRegTxHash_smlEntryAt code entries k
  rw [hid, map_id]
  have hle : (entries.keys.insertionSort WireLe).Pairwise WireLe :=
    pairwise_insertionSort WireLe entries.keys
  have hnodup : (entries.keys.insertionSort WireLe).Nodup :=
    (perm_insertionSort WireLe entries.keys).nodup_iff.mpr (nodup_keys entries)
  refine (hle.and hnodup).imp ?_
  intro a b hab
  exact lt_of_le_of_ne hab.1 fun heq => hab.2 (wireBytes_injective heq)

theorem foldl_replaceEntry_map {g g' : Uint256 → SmlEntry} (hg : ∀ k, (g k).proRegTxHash = k)
    (hg' : ∀ k, (g' k).proRegTxHash = k) {changed : List SmlEntry}
    (hchanged : ∀ e ∈ changed, e = g' e.proRegTxHash) (keys : List Uint256) :
    changed.foldl replaceEntry (keys.map g) =
      keys.map fun k => if k ∈ changed.map SmlEntry.proRegTxHash then g' k else g k := by
  induction changed generalizing g with
  | nil => simp
  | cons e changed ih =>
    have he := hchanged e (by simp)
    have hstep : replaceEntry (keys.map g) e =
        keys.map fun k => if k = e.proRegTxHash then g' k else g k := by
      unfold replaceEntry
      rw [map_map]
      apply map_congr_left
      intro k _
      dsimp only [Function.comp]
      rw [hg k]
      split
      · rename_i heq
        rw [heq, ← he]
      · rfl
    rw [foldl_cons, hstep, ih _ (fun e' he' => hchanged e' (by simp [he']))]
    · apply map_congr_left
      intro k _
      by_cases hmem : k ∈ changed.map SmlEntry.proRegTxHash
      · rw [if_pos hmem, if_pos (by simp only [map_cons, mem_cons]; exact Or.inr hmem)]
      rw [if_neg hmem]
      by_cases heq : k = e.proRegTxHash
      · rw [if_pos heq, if_pos (by simp [heq])]
      rw [if_neg heq, if_neg]
      simp only [map_cons, mem_cons, not_or]
      exact ⟨heq, hmem⟩
    intro k
    split
    · exact hg' k
    · exact hg k

end Lists

/-! ## Marks -/

section Marks

variable {P : Type} {code : FoldCode P} {e : ReplayEntries} {k : Uint256} {st : ReplayMNState}
  {cache : IncrementalSmlMerkle} {before : ReplayEntries} {committed : Uint256} {s : Folding}
  {eng : DmlFoldEngine} {r : FoldResult}

def CacheOf (code : FoldCode P) (cache : IncrementalSmlMerkle) (entries : ReplayEntries) : Prop :=
  cache = built code.sml (smlOf code entries) ∨ cache.valid = false ∧ cache.leaves = []

/-- The engine still has the cache of the entries `before`, and what is not marked is as it was
there. -/
structure Marked (code : FoldCode P) (cache : IncrementalSmlMerkle) (before : ReplayEntries)
    (committed : Uint256) (s : Folding) : Prop where
  cache : s.1.smlCache = cache
  committed : s.2.committedRoot = committed
  marks : s.1.smlStructural = true ∨
    (∀ k, (s.1.entries.lookup k).isSome = (before.lookup k).isSome) ∧
      ∀ k, k ∉ s.1.smlTouched → smlEntryAt code s.1.entries k = smlEntryAt code before k

theorem keys_eq_of_isSome {e' : ReplayEntries}
    (h : ∀ k, (e.lookup k).isSome = (e'.lookup k).isSome) : e.keys = e'.keys := by
  have hunit : e.mapValues (fun _ _ => ()) = e'.mapValues fun _ _ => () := by
    ext1 k
    rw [lookup_mapValues, lookup_mapValues]
    have hk := h k
    cases he : e.lookup k with
    | none =>
      cases he' : e'.lookup k with
      | none => rfl
      | some st' => simp [he, he'] at hk
    | some st =>
      cases he' : e'.lookup k with
      | none => simp [he, he'] at hk
      | some st' => rfl
  have hkeys : ∀ e : ReplayEntries, e.keys = (e.mapValues fun _ _ => ()).keys := by
    intro e
    unfold SortedMap.keys
    rw [entries_mapValues, map_map]
    rfl
  rw [hkeys e, hkeys e', hunit]

theorem Marked.refreshedCache_eq (h : Marked code cache before committed s)
    (hcache : CacheOf code cache before) :
    s.1.refreshedCache code = built code.sml (smlOf code s.1.entries) := by
  have hupdate : ∀ c, c = built code.sml (smlOf code before) ∨ c.valid = false ∧ c.leaves = [] →
      c.update code.sml (materializeSmlEntries code s.1.entries) =
        built code.sml (smlOf code s.1.entries) := by
    rintro c (hbuilt | ⟨hinvalid, hleaves⟩)
    · exact update_eq_built (Or.inl hbuilt) _
    · exact @update_eq_built code.sml c [] (Or.inr ⟨hinvalid, hleaves⟩) _
  unfold refreshedCache
  rw [h.cache]
  by_cases hfull : ¬ cache.valid = true ∨ s.1.smlStructural = true
  · rw [if_pos hfull]
    exact hupdate cache hcache
  rw [if_neg hfull]
  simp only [not_or, not_not] at hfull
  obtain ⟨hvalid, hstructural⟩ := hfull
  have hbuilt : cache = built code.sml (smlOf code before) := by
    rcases hcache with hbuilt | ⟨hinvalid, -⟩
    · exact hbuilt
    · rw [hinvalid] at hvalid
      cases hvalid
  obtain ⟨hsome, hclean⟩ := h.marks.resolve_left hstructural
  have hkeys : smlKeys s.1.entries = smlKeys before := by
    unfold smlKeys
    rw [keys_eq_of_isSome hsome]
  have hnew : smlOf code s.1.entries = (smlKeys before).map (smlEntryAt code s.1.entries) := by
    rw [smlOf_eq, hkeys]
  split
  · rename_i hquiet
    rw [hbuilt, hnew, smlOf_eq]
    congr 1
    apply map_congr_left
    intro k _
    exact (hclean k (by simp [hquiet])).symm
  -- a handful of touched entries, each with a leaf of its own
  by_cases hempty : smlOf code before = []
  · have hdelta : cache.applyValueChanges code.sml (s.1.changedEntries code) = (cache, false) := by
      rw [hbuilt, hempty]
      rfl
    rw [hdelta]
    exact hupdate cache hcache
  have hchanged : ∀ e ∈ s.1.changedEntries code,
      e = smlEntryAt code s.1.entries e.proRegTxHash ∧
        (s.1.entries.lookup e.proRegTxHash).isSome ∧
        e.proRegTxHash ∈ s.1.smlTouched := by
    intro e he
    obtain ⟨k, hk, hsome⟩ := mem_filterMap.mp he
    obtain ⟨st, hst, rfl⟩ := Option.map_eq_some_iff.mp hsome
    have hkey : (st.toSmlEntry code k).proRegTxHash = k := rfl
    rw [hkey]
    refine ⟨?_, by simp [hst], hk⟩
    unfold smlEntryAt
    rw [hst]
  have hmemkeys : ∀ k, k ∈ smlKeys before ↔ (before.lookup k).isSome := by
    intro k
    unfold smlKeys SortedMap.keys
    rw [mem_insertionSort, mem_map]
    constructor
    · rintro ⟨e, he, rfl⟩
      have hlookup : before.lookup e.1 = some e.2 := mem_entries_iff.mp he
      simp [hlookup]
    intro hk
    obtain ⟨st, hst⟩ := Option.isSome_iff_exists.mp hk
    exact ⟨(k, st), mem_entries_iff.mpr hst, rfl⟩
  have hlisted : ∀ e ∈ s.1.changedEntries code,
      e.proRegTxHash ∈ (smlOf code before).map SmlEntry.proRegTxHash := by
    intro e he
    obtain ⟨-, hthere, -⟩ := hchanged e he
    rw [smlOf_eq, map_map]
    refine mem_map.mpr ⟨e.proRegTxHash, ?_, proRegTxHash_smlEntryAt code before _⟩
    rw [hmemkeys, ← hsome]
    exact hthere
  rw [hbuilt, applyValueChanges_eq (ordered_smlOf code before) hempty hlisted]
  dsimp only
  rw [hnew, smlOf_eq, foldl_replaceEntry_map (proRegTxHash_smlEntryAt code before)
    (proRegTxHash_smlEntryAt code s.1.entries) (fun e he => (hchanged e he).1)]
  congr 1
  apply map_congr_left
  intro k hk
  split
  · rfl
  rename_i hunchanged
  by_cases htouched : k ∈ s.1.smlTouched
  · exfalso
    apply hunchanged
    rw [hmemkeys, ← hsome] at hk
    obtain ⟨st, hst⟩ := Option.isSome_iff_exists.mp hk
    refine mem_map.mpr ⟨st.toSmlEntry code k, ?_, rfl⟩
    exact mem_filterMap.mpr ⟨k, htouched, by rw [hst]; rfl⟩
  · exact (hclean k htouched).symm

theorem Marked.step {s' : Folding} (h : Marked code cache before committed s)
    (hcache : s'.1.smlCache = s.1.smlCache) (hroot : s'.2.committedRoot = s.2.committedRoot)
    (hmarks : s'.1.smlStructural = true ∨
      s'.1.smlStructural = s.1.smlStructural ∧ s.1.smlTouched ⊆ s'.1.smlTouched ∧
        (∀ k, (s'.1.entries.lookup k).isSome = (s.1.entries.lookup k).isSome) ∧
        ∀ k, k ∉ s'.1.smlTouched → smlEntryAt code s'.1.entries k = smlEntryAt code s.1.entries k) :
    Marked code cache before committed s' := by
  refine ⟨hcache.trans h.cache, hroot.trans h.committed, ?_⟩
  rcases hmarks with hstructural | ⟨hstructural, htouched, hsome, hclean⟩
  · exact Or.inl hstructural
  rcases h.marks with hold | ⟨hsome₀, hclean₀⟩
  · exact Or.inl (hstructural.trans hold)
  right
  refine ⟨fun k => (hsome k).trans (hsome₀ k), ?_⟩
  intro k hk
  rw [hclean k hk]
  exact hclean₀ k fun hmem => hk (htouched hmem)

theorem lookup_isSome_insert (hst : e.lookup k = some st) (new : ReplayMNState) (x : Uint256) :
    ((e.insert k new).lookup x).isSome = (e.lookup x).isSome := by
  rw [lookup_insert]
  split
  · rename_i heq
    rw [heq, hst]
    rfl
  · rfl

theorem smlEntryAt_insert_of_ne {x : Uint256} (new : ReplayMNState)
    (hne : x ≠ k) : smlEntryAt code (e.insert k new) x = smlEntryAt code e x := by
  unfold smlEntryAt
  rw [lookup_insert, if_neg hne]

section

variable (h : Marked code cache before committed s)
include h

theorem Marked.touchEntry (hentries : eng.entries = s.1.entries)
    (hcache : eng.smlCache = s.1.smlCache) (htouched : eng.smlTouched = s.1.smlTouched)
    (hstructural : eng.smlStructural = s.1.smlStructural)
    (hroot : r.committedRoot = s.2.committedRoot) (hst : s.1.entries.lookup k = some st)
    (new : ReplayMNState) : Marked code cache before committed (eng.touchEntry k new, r) := by
  refine h.step hcache hroot (Or.inr ⟨hstructural, ?_, ?_, ?_⟩)
  · unfold DmlFoldEngine.touchEntry
    rw [htouched]
    exact subset_append_left _ _
  · intro x
    unfold DmlFoldEngine.touchEntry
    rw [hentries]
    exact lookup_isSome_insert hst new x
  · intro x hx
    unfold DmlFoldEngine.touchEntry at hx ⊢
    simp only [mem_append, mem_singleton, not_or] at hx
    rw [hentries]
    exact smlEntryAt_insert_of_ne new hx.2

section

variable (hcache : eng.smlCache = s.1.smlCache) (htouched : eng.smlTouched = s.1.smlTouched)
  (hstructural : eng.smlStructural = s.1.smlStructural)
  (hroot : r.committedRoot = s.2.committedRoot)
include hcache htouched hstructural hroot

theorem Marked.quiet (hentries : ∀ k, (eng.entries.lookup k).map (ReplayMNState.toSmlEntry code k) =
      (s.1.entries.lookup k).map (ReplayMNState.toSmlEntry code k)) :
    Marked code cache before committed (eng, r) := by
  refine h.step hcache hroot (Or.inr ⟨hstructural, ?_, ?_, ?_⟩)
  · rw [htouched]
    exact fun _ hx => hx
  · intro k
    have hsome := congrArg Option.isSome (hentries k)
    rwa [Option.isSome_map, Option.isSome_map] at hsome
  · intro k _
    have hk := hentries k
    unfold smlEntryAt
    cases hnew : eng.entries.lookup k with
    | none =>
      cases hold : s.1.entries.lookup k with
      | none => rfl
      | some st => simp [hnew, hold] at hk
    | some st' =>
      cases hold : s.1.entries.lookup k with
      | none => simp [hnew, hold] at hk
      | some st =>
        rw [hnew, hold, Option.map_some, Option.map_some, Option.some.injEq] at hk
        exact hk

theorem Marked.quietEntry {new : ReplayMNState} (hst : s.1.entries.lookup k = some st)
    (hnew : new.toSmlEntry code k = st.toSmlEntry code k)
    (hentries : eng.entries = s.1.entries.insert k new) :
    Marked code cache before committed (eng, r) := by
  refine h.quiet hcache htouched hstructural hroot ?_
  intro x
  rw [hentries, lookup_insert]
  split
  · rename_i heq
    rw [heq, hst, Option.map_some, Option.map_some, hnew]
  · rfl

end

theorem Marked.removeMn (protx : Uint256) (hroot : r.committedRoot = s.2.committedRoot) :
    Marked code cache before committed (s.1.removeMn protx, r) := by
  unfold DmlFoldEngine.removeMn
  split
  · exact ⟨h.cache, hroot.trans h.committed, h.marks⟩
  · exact h.step rfl hroot (Or.inl rfl)

end

end Marks

/-! ## The passes -/

variable {height : U32}

section Passes

variable {P : Type} {code : FoldCode P} {cache : IncrementalSmlMerkle} {before : ReplayEntries}
  {committed : Uint256} {s s' : Folding} {H : Int} {tx : Tx P}

section

variable (h : Marked code cache before committed s)
include h

theorem Marked.foldProReg
    (hstep : foldProReg code H s tx = .ok s') : Marked code cache before committed s' := by
  unfold DmlFoldEngine.foldProReg at hstep
  split at hstep
  · cases hstep
  split at hstep
  · cases hstep
  rename_i p _ _
  dsimp only at hstep
  have hreplaced : Marked code cache before committed (replaceCollateral s
      (registered code H s.1 (code.computeTxHash tx) p).collateralOutpoint) := by
    unfold replaceCollateral
    split
    · exact h
    · exact h.removeMn _ rfl
  split at hstep
  · cases hstep
  split at hstep
  · cases hstep
  split at hstep
  · cases hstep
  · cases hstep
    exact hreplaced.step rfl rfl (Or.inl rfl)

theorem Marked.foldProUpServ
    (hstep : foldProUpServ code H s tx = .ok s') : Marked code cache before committed s' := by
  unfold DmlFoldEngine.foldProUpServ at hstep
  split at hstep
  · cases hstep
  split at hstep
  · cases hstep
  split at hstep
  · cases hstep
  split at hstep
  · cases hstep
  rename_i p _ _ _ _ st hst
  split at hstep
  · cases hstep
  split at hstep
  · cases hstep
  dsimp only at hstep
  have hwiden : ∀ st, (widenRevived s.1 p.proTxHash st).1.entries = s.1.entries ∧
      (widenRevived s.1 p.proTxHash st).1.smlCache = s.1.smlCache ∧
      (widenRevived s.1 p.proTxHash st).1.smlTouched = s.1.smlTouched ∧
      (widenRevived s.1 p.proTxHash st).1.smlStructural = s.1.smlStructural := by
    intro st
    unfold widenRevived
    split
    · exact ⟨rfl, rfl, rfl, rfl⟩
    · exact ⟨rfl, rfl, rfl, rfl⟩
  obtain ⟨hentries, hcache, htouched, hstructural⟩ := hwiden (updatedService p st)
  split at hstep
  · cases hstep
    exact h.touchEntry hentries hcache htouched hstructural (by rfl) hst _
  · cases hstep
    exact h.touchEntry hentries hcache htouched hstructural (by rfl) hst _

theorem Marked.foldProUpReg
    (hstep : foldProUpReg code H s tx = .ok s') : Marked code cache before committed s' := by
  unfold DmlFoldEngine.foldProUpReg at hstep
  split at hstep
  · cases hstep
  split at hstep
  · cases hstep
  rename_i st hst
  split at hstep
  · cases hstep
  · cases hstep
    exact h.touchEntry (by rfl) (by rfl) (by rfl) (by rfl) (by rfl) hst _

theorem Marked.foldProUpRev
    (hstep : foldProUpRev code H s tx = .ok s') : Marked code cache before committed s' := by
  unfold DmlFoldEngine.foldProUpRev at hstep
  split at hstep
  · cases hstep
  split at hstep
  · cases hstep
  rename_i st hst
  cases hstep
  exact h.touchEntry (by rfl) (by rfl) (by rfl) (by rfl) (by rfl) hst _

theorem Marked.posePunish {protx : Uint256}
    {st : ReplayMNState} (hst : s.1.entries.lookup protx = some st) (penalty : Int) :
    Marked code cache before committed (posePunish H s protx st penalty) := by
  unfold DmlFoldEngine.posePunish
  dsimp only
  split
  · split
    · exact h.touchEntry (by rfl) (by rfl) (by rfl) (by rfl) (by rfl) hst _
    · exact h.touchEntry (by rfl) (by rfl) (by rfl) (by rfl) (by rfl) hst _
  have hentries : ∀ eng : DmlFoldEngine, ∀ st' : ReplayMNState,
      eng.entries = s.1.entries → eng.smlCache = s.1.smlCache →
      eng.smlTouched = s.1.smlTouched → eng.smlStructural = s.1.smlStructural →
      st'.toSmlEntry code protx = st.toSmlEntry code protx →
      Marked code cache before committed ({ eng with entries := eng.entries.insert protx st' },
        { s.2 with punished := s.2.punished + 1 }) := by
    intro eng st' hentries hcache htouched hstructural hsame
    exact h.quietEntry hcache htouched hstructural (by rfl) hst hsame (by rw [hentries])
  split
  · exact hentries _ _ rfl rfl rfl rfl rfl
  · exact hentries _ _ rfl rfl rfl rfl rfl

end

theorem Marked.punishMembers (members : List (Uint256 × Bool))
    (h : Marked code cache before committed s) :
    Marked code cache before committed (punishMembers H s members) := by
  unfold DmlFoldEngine.punishMembers
  induction members generalizing s with
  | nil => exact h
  | cons m members ih =>
    rw [foldl_cons]
    apply ih
    split
    · exact h
    rename_i st hst
    split
    · exact h
    · exact h.posePunish hst _

theorem Marked.foldQfcommit (h : Marked code cache before committed s)
    (hstep : foldQfcommit code H s tx = .ok s') : Marked code cache before committed s' := by
  unfold DmlFoldEngine.foldQfcommit at hstep
  split at hstep
  · cases hstep
  split at hstep
  · cases hstep
    exact h
  split at hstep
  · cases hstep
    exact h
  split at hstep
  · cases hstep
  split at hstep
  · cases hstep
  split at hstep
  · cases hstep
  · cases hstep
    exact h.punishMembers _

theorem Marked.foldTx (h : Marked code cache before committed s)
    (hstep : foldTx code H s tx = .ok s') : Marked code cache before committed s' := by
  unfold DmlFoldEngine.foldTx at hstep
  split at hstep
  · cases hstep
    exact h
  split at hstep
  · exact h.foldProReg hstep
  · exact h.foldProUpServ hstep
  · exact h.foldProUpReg hstep
  · exact h.foldProUpRev hstep
  · exact h.foldQfcommit hstep
  · cases hstep
    exact h

theorem Marked.foldTxs {height : U32} (txs : List (Tx P × Nat))
    (h : Marked code cache before committed s)
    (hstep : foldTxs code H height s txs = .ok s') : Marked code cache before committed s' := by
  unfold DmlFoldEngine.foldTxs at hstep
  induction txs generalizing s with
  | nil =>
    cases hstep
    exact h
  | cons t txs ih =>
    rw [foldlM_cons] at hstep
    cases hfirst : DmlFoldEngine.foldTx code H s t.1 with
    | error e =>
      rw [hfirst] at hstep
      cases hstep
    | ok s₁ =>
      rw [hfirst] at hstep
      exact ih (h.foldTx hfirst) hstep

section

variable (h : Marked code cache before committed s)
include h

theorem Marked.foldSpends (txs : List (Tx P)) :
    Marked code cache before committed (foldSpends s txs) := by
  unfold DmlFoldEngine.foldSpends
  induction txs.flatMap fun tx => tx.vin.map TxIn.prevout generalizing s with
  | nil => exact h
  | cons prevout prevouts ih =>
    rw [foldl_cons]
    apply ih
    unfold foldSpend
    split
    · exact h
    · exact h.removeMn _ rfl

theorem Marked.confirmPass (prevHash : Uint256) :
    Marked code cache before committed (confirmPass code H prevHash s) := by
  refine h.step rfl rfl (Or.inr ⟨rfl, ?_, ?_, ?_⟩)
  · exact subset_append_left _ _
  · intro k
    unfold DmlFoldEngine.confirmPass
    rw [lookup_mapValues, Option.isSome_map]
  · intro k hk
    unfold DmlFoldEngine.confirmPass at hk ⊢
    dsimp only at hk ⊢
    unfold smlEntryAt
    rw [lookup_mapValues]
    cases hst : s.1.entries.lookup k with
    | none => rfl
    | some st =>
      rw [Option.map_some]
      have hdue : ¬ ConfirmationDue s.1.cfg.gates H st := by
        intro hdue
        apply hk
        refine mem_append_right _ (mem_map.mpr ⟨(k, st), ?_, rfl⟩)
        exact mem_filter.mpr ⟨mem_entries_iff.mpr hst, decide_eq_true hdue⟩
      rw [if_neg hdue]

theorem Marked.decreaseScores : Marked code cache before committed (decreaseScores s) := by
  refine h.quiet rfl rfl rfl rfl ?_
  intro k
  rw [lookup_mapValues, Option.map_map]
  congr 1
  funext st
  dsimp only [Function.comp]
  split <;> rfl

theorem Marked.payeeBookkeeping (payee : Option Uint256) :
    Marked code cache before committed (payeeBookkeeping H payee s) := by
  have hmark : Marked code cache before committed (markPayee H payee s) := by
    unfold markPayee
    split
    · exact h
    split
    · exact h
    rename_i st hst
    refine h.quietEntry (by rfl) (by rfl) (by rfl) (by rfl) hst ?_ rfl
    rfl
  refine hmark.quiet rfl rfl rfl rfl ?_
  intro k
  rw [lookup_mapValues, Option.map_map]
  congr 1
  funext st
  dsimp only [Function.comp]
  split
  · rfl
  · split <;> rfl

end

theorem Marked.foldPasses {block : Block P} {payee : Option Uint256}
    (hstep : foldPasses code block height payee s = .ok s') :
    Marked code s.1.smlCache s.1.entries s.2.committedRoot s' := by
  unfold DmlFoldEngine.foldPasses at hstep
  dsimp only at hstep
  have hbegin : Marked code s.1.smlCache s.1.entries s.2.committedRoot (beginBlock s) :=
    ⟨rfl, rfl, Or.inr ⟨fun _ => rfl, fun _ _ => rfl⟩⟩
  split at hstep
  · cases hstep
  rename_i s₁ hs₁
  cases hstep
  have hfolded := ((hbegin.confirmPass block.previousBlock).decreaseScores).foldTxs _ hs₁
  exact (hfolded.foldSpends _).payeeBookkeeping _

theorem Marked.adoptBan (h : Marked code cache before committed s) (mask : Nat)
    (a : (Uint256 × Int) × Nat) : Marked code cache before committed (adoptBan H mask s a) := by
  unfold DmlFoldEngine.adoptBan
  split
  · exact h
  rename_i st hst
  split
  · exact h.touchEntry (by rfl) (by rfl) (by rfl) (by rfl) (by rfl) hst _
  · refine h.quietEntry (by rfl) (by rfl) (by rfl) (by rfl) hst ?_ rfl
    rfl

theorem Marked.adoptBans (mask : Nat) (bans : List ((Uint256 × Int) × Nat))
    (h : Marked code cache before committed s) :
    Marked code cache before committed (bans.foldl (DmlFoldEngine.adoptBan H mask) s) := by
  induction bans generalizing s with
  | nil => exact h
  | cons a bans ih => exact ih (h.adoptBan mask a)

end Passes

section Check

variable {P : Type} {code : FoldCode P} {committed : Uint256} {s : Folding}
  {cache : IncrementalSmlMerkle} {before : ReplayEntries}

/-- The cache stands for the entries that are held, and the results keep the committed root. -/
structure Rooted (code : FoldCode P) (committed : Uint256) (s : Folding) : Prop where
  cache : s.1.smlCache = built code.sml (smlOf code s.1.entries)
  committed : s.2.committedRoot = committed

theorem Rooted.computeSmlRoot (h : Rooted code committed s) :
    s.1.smlCache.root = computeSmlRoot code s.1 := by
  rw [h.cache]
  rfl

theorem Marked.rooted
    (h : Marked code cache before committed s) (hcache : CacheOf code cache before)
    {r : FoldResult} (hroot : r.committedRoot = s.2.committedRoot) :
    Rooted code committed ((s.1.computeSmlRootIncremental code).1, r) :=
  ⟨h.refreshedCache_eq hcache, hroot.trans h.committed⟩

theorem computedRoot_adoptBans {H : Int} (mask : Nat) (bans : List ((Uint256 × Int) × Nat))
    (s : Folding) : (bans.foldl (adoptBan H mask) s).2.computedRoot = s.2.computedRoot := by
  induction bans generalizing s with
  | nil => rfl
  | cons a bans ih =>
    rw [foldl_cons, ih]
    unfold adoptBan
    split
    · rfl
    · split <;> rfl

theorem Rooted.resolveAmbiguousBansFromRoot (h : Rooted code committed s) {H : Int} {out : Folding}
    {adopted : Bool} (hout : resolveAmbiguousBansFromRoot code H s = (out, adopted)) :
    out.2.committedRoot = committed ∧
      (adopted = false → out.2.computedRoot = s.2.computedRoot) ∧
      (adopted = true → Rooted code committed out ∧
        DmlFoldEngine.computeSmlRoot code out.1 = committed) := by
  unfold DmlFoldEngine.resolveAmbiguousBansFromRoot at hout
  split at hout
  · cases hout
    exact ⟨h.committed, fun _ => rfl, nofun⟩
  split at hout
  · rename_i mask _
    dsimp only at hout
    have hstart : Marked code s.1.smlCache s.1.entries committed
        ({ s.1 with smlTouched := [], smlStructural := false }, s.2) :=
      ⟨rfl, h.committed, Or.inr ⟨fun _ => rfl, fun _ _ => rfl⟩⟩
    have hadopted := hstart.adoptBans (H := H) mask s.1.ambiguous.zipIdx
    have hcomputed := computedRoot_adoptBans (H := H) mask s.1.ambiguous.zipIdx
      ({ s.1 with smlTouched := [], smlStructural := false }, s.2)
    have hrooted := hadopted.rooted (Or.inl h.cache) rfl
    split at hout
    · cases hout
      exact ⟨hadopted.committed, fun _ => hcomputed, nofun⟩
    rename_i hroot
    cases hout
    refine ⟨hadopted.committed, nofun, fun _ => ⟨hrooted, ?_⟩⟩
    rw [← hrooted.computeSmlRoot, ← hadopted.committed]
    exact not_not.mp hroot
  · cases hout
    exact ⟨h.committed, fun _ => rfl, nofun⟩

theorem checkRoot_spec
    (h : Marked code cache before committed s) (hcache : CacheOf code cache before) (H : Int) :
    (checkRoot code H s).2.committedRoot = committed ∧
      ((checkRoot code H s).2.computedRoot = committed →
        Rooted code committed (checkRoot code H s) ∧
          DmlFoldEngine.computeSmlRoot code (checkRoot code H s).1 = committed) := by
  unfold checkRoot
  dsimp only
  have hrooted : Rooted code committed ((s.1.computeSmlRootIncremental code).1,
      { s.2 with computedRoot := (s.1.computeSmlRootIncremental code).2 }) := h.rooted hcache rfl
  have hown := hrooted.computeSmlRoot
  split
  · rename_i hdiffer
    cases hout : DmlFoldEngine.resolveAmbiguousBansFromRoot code H
        ((s.1.computeSmlRootIncremental code).1,
          { s.2 with computedRoot := (s.1.computeSmlRootIncremental code).2 }) with
    | mk out adopted =>
      obtain ⟨hcommitted, hkept, hresolved⟩ := hrooted.resolveAmbiguousBansFromRoot hout
      cases adopted with
      | true =>
        obtain ⟨hcache', hroot⟩ := hresolved rfl
        exact ⟨hcommitted, fun _ => ⟨⟨hcache'.cache, hcommitted⟩, hroot⟩⟩
      | false =>
        refine ⟨hcommitted, ?_⟩
        intro heq
        rw [hkept rfl] at heq
        exact absurd (heq.trans h.committed.symm) hdiffer
  rename_i hsame
  refine ⟨h.committed, fun heq => ⟨hrooted, ?_⟩⟩
  rw [← hown]
  exact heq

theorem checkPayee_spec (block : Block P) (height : U32) (scriptPre : Script) (s : Folding) :
    (checkPayee code block height scriptPre s).1.entries = s.1.entries ∧
      (checkPayee code block height scriptPre s).1.smlCache = s.1.smlCache ∧
      (checkPayee code block height scriptPre s).2.computedRoot = s.2.computedRoot ∧
      (checkPayee code block height scriptPre s).2.committedRoot = s.2.committedRoot := by
  unfold checkPayee
  dsimp only
  split
  · exact ⟨rfl, rfl, rfl, rfl⟩
  split
  · split
    · exact ⟨rfl, rfl, rfl, rfl⟩
    · exact ⟨rfl, rfl, rfl, rfl⟩
  · exact ⟨rfl, rfl, rfl, rfl⟩

end Check

/-! ## Results that are not accepted -/

section Refused

variable {P : Type} {code : FoldCode P} {H : Int}

def outcome : FoldStep → Folding
  | .ok s => s
  | .error e => e.2

theorem ok_replaceCollateral (s : Folding) (outpoint : TxPrevOut) :
    (replaceCollateral s outpoint).2.ok = s.2.ok := by
  unfold replaceCollateral
  split <;> rfl

theorem ok_punishMembers (members : List (Uint256 × Bool)) (s : Folding) :
    (punishMembers H s members).2.ok = s.2.ok := by
  unfold punishMembers
  induction members generalizing s with
  | nil => rfl
  | cons m members ih =>
    rw [foldl_cons, ih]
    split
    · rfl
    split
    · rfl
    unfold posePunish
    dsimp only
    split <;> rfl

section

variable (s : Folding) (tx : Tx P)
include s tx

theorem ok_foldProReg : (outcome (foldProReg code H s tx)).2.ok = s.2.ok := by
  unfold foldProReg
  split
  · rfl
  split
  · rfl
  dsimp only
  split
  · exact ok_replaceCollateral s _
  split
  · exact ok_replaceCollateral s _
  split
  · exact ok_replaceCollateral s _
  · exact ok_replaceCollateral s _

theorem ok_foldProUpServ : (outcome (foldProUpServ code H s tx)).2.ok = s.2.ok := by
  unfold foldProUpServ
  repeat' split
  all_goals first | rfl | (dsimp only; split <;> rfl)

theorem ok_foldProUpReg : (outcome (foldProUpReg code H s tx)).2.ok = s.2.ok := by
  unfold foldProUpReg
  repeat' split
  all_goals rfl

theorem ok_foldProUpRev : (outcome (foldProUpRev code H s tx)).2.ok = s.2.ok := by
  unfold foldProUpRev
  repeat' split
  all_goals rfl

theorem ok_foldQfcommit : (outcome (foldQfcommit code H s tx)).2.ok = s.2.ok := by
  unfold foldQfcommit
  repeat' split
  all_goals first | rfl | exact ok_punishMembers _ s

theorem ok_foldTx : (outcome (foldTx code H s tx)).2.ok = s.2.ok := by
  unfold foldTx
  split
  · rfl
  split
  · exact ok_foldProReg s tx
  · exact ok_foldProUpServ s tx
  · exact ok_foldProUpReg s tx
  · exact ok_foldProUpRev s tx
  · exact ok_foldQfcommit s tx
  · rfl

end

theorem ok_foldTxs {height : U32} (txs : List (Tx P × Nat)) (s : Folding) :
    (outcome (foldTxs code H height s txs)).2.ok = s.2.ok := by
  unfold foldTxs
  induction txs generalizing s with
  | nil => rfl
  | cons t txs ih =>
    have hfirst := @ok_foldTx P code H s t.1
    rw [foldlM_cons]
    cases hstep : foldTx code H s t.1 with
    | error e =>
      rw [hstep] at hfirst
      exact hfirst
    | ok s₁ =>
      rw [hstep] at hfirst
      exact (ih s₁).trans hfirst

theorem ok_foldSpends (txs : List (Tx P)) (s : Folding) : (foldSpends s txs).2.ok = s.2.ok := by
  unfold foldSpends
  induction txs.flatMap fun tx => tx.vin.map TxIn.prevout generalizing s with
  | nil => rfl
  | cons prevout prevouts ih =>
    rw [foldl_cons, ih]
    unfold foldSpend
    split <;> rfl

theorem ok_payeeBookkeeping (payee : Option Uint256) (s : Folding) :
    (payeeBookkeeping H payee s).2.ok = s.2.ok := by
  unfold payeeBookkeeping markPayee
  split
  · rfl
  · split <;> rfl

theorem ok_foldPasses (block : Block P) (height : U32) (payee : Option Uint256) (s : Folding) :
    (outcome (foldPasses code block height payee s)).2.ok = s.2.ok := by
  unfold foldPasses
  dsimp only
  have hok := @ok_foldTxs P code (toInt32 height) height (block.txs.zipIdx.drop 1)
    (decreaseScores (confirmPass code (toInt32 height) block.previousBlock (beginBlock s)))
  split
  · rename_i e he
    rw [he] at hok
    exact hok
  rename_i s₁ hs₁
  rw [hs₁] at hok
  exact ((ok_payeeBookkeeping _ _).trans (ok_foldSpends _ _)).trans hok

theorem ok_of_foldPasses {block : Block P} {height : U32} {payee : Option Uint256} {s t : Folding}
    (h : foldPasses code block height payee s = .ok t) : t.2.ok = s.2.ok := by
  have hok := @ok_foldPasses P code block height payee s
  rwa [h] at hok

theorem ok_adoptBans (mask : Nat) (bans : List ((Uint256 × Int) × Nat)) (s : Folding) :
    (bans.foldl (adoptBan H mask) s).2.ok = s.2.ok := by
  induction bans generalizing s with
  | nil => rfl
  | cons a bans ih =>
    rw [foldl_cons, ih]
    unfold adoptBan
    split
    · rfl
    · split <;> rfl

theorem ok_resolveAmbiguousBansFromRoot (s : Folding) :
    (resolveAmbiguousBansFromRoot code H s).1.2.ok = s.2.ok := by
  unfold resolveAmbiguousBansFromRoot
  split
  · rfl
  split
  · dsimp only
    split
    · exact ok_adoptBans _ _ _
    · exact ok_adoptBans _ _ _
  · rfl

theorem ok_checkRoot (s : Folding) : (checkRoot code H s).2.ok = s.2.ok := by
  unfold checkRoot
  dsimp only
  split
  · have hok := @ok_resolveAmbiguousBansFromRoot P code H
      ((s.1.computeSmlRootIncremental code).1,
        { s.2 with computedRoot := (s.1.computeSmlRootIncremental code).2 })
    split
    · rename_i out hout
      rw [hout] at hok
      exact hok
    rename_i out hout
    rw [hout] at hok
    exact hok
  · rfl

theorem checkBeforeFold_spec (eng : DmlFoldEngine) (block : Block P) (height : U32) :
    match checkBeforeFold code eng block height with
    | .ok committedRoot =>
      eng.poisoned = false ∧ ∃ coinbase txs, block.txs = coinbase :: txs ∧
        code.parseCbtx coinbase.extraPayload = some committedRoot
    | .error r => r.ok = false := by
  unfold checkBeforeFold
  split
  · rename_i committedRoot hok
    split at hok
    · cases hok
    split at hok
    · cases hok
    rename_i hpoisoned
    refine ⟨by simpa using hpoisoned, ?_⟩
    iterate 4 (split at hok; cases hok)
    split at hok
    · cases hok
    rename_i coinbase txs htxs
    split at hok
    · cases hok
    rename_i root hroot
    split at hok
    · cases hok
    cases hok
    refine ⟨coinbase, txs, htxs, ?_⟩
    split at hroot
    · exact hroot
    · cases hroot
  rename_i r hr
  repeat' split at hr
  all_goals first | (cases hr; rfl) | cases hr

end Refused

/-! ## Calls -/

section Calls

variable {P : Type} (code : FoldCode P) {eng : DmlFoldEngine}

inductive FoldCall (P : Type) where
  | setMembersFn (fn : Option (Fin (2 ^ 8) → Uint256 → Option (List Uint256)))
  | seed (entries : List (Uint256 × ReplayMNState)) (totalRegisteredCount : U64) (height : U32)
      (blockHash : Uint256) (network : String) (penalties : SeedPenalties)
  | loadSnapshot (bytes : List Byte)
  | foldBlock (block : Block P) (height : U32)

def call (eng : DmlFoldEngine) : FoldCall P → DmlFoldEngine
  | .setMembersFn fn => { eng with membersFn := fn }
  | .seed entries total height blockHash network penalties =>
    eng.seed entries total height blockHash network penalties
  | .loadSnapshot bytes => (eng.loadSnapshot code bytes).1
  | .foldBlock block height => (eng.foldBlock code block height).1

def RefusedBeforePasses (eng : DmlFoldEngine) (block : Block P) (height : U32) : Prop :=
  (∃ r, checkBeforeFold code eng block height = .error r) ∨
    ∃ protx, eng.projectPayee (toInt32 height) = some protx ∧ eng.entries.lookup protx = none

def Fresh (eng : DmlFoldEngine) : Prop :=
  eng.poisoned = true ∨ CacheOf code eng.smlCache eng.entries

variable {code}

theorem Fresh.foldBlock (h : Fresh code eng) (block : Block P) (height : U32) :
    Fresh code (eng.foldBlock code block height).1 ∧
      ((eng.foldBlock code block height).2.ok = true →
        (eng.foldBlock code block height).2.computedRoot =
            computeSmlRoot code (eng.foldBlock code block height).1 ∧
          (eng.foldBlock code block height).2.computedRoot =
            (eng.foldBlock code block height).2.committedRoot ∧
          ∃ coinbase txs, block.txs = coinbase :: txs ∧
            code.parseCbtx coinbase.extraPayload =
              some (eng.foldBlock code block height).2.committedRoot) := by
  have hbefore := @checkBeforeFold_spec P code eng block height
  unfold DmlFoldEngine.foldBlock
  cases hcheck : checkBeforeFold code eng block height with
  | error r =>
    rw [hcheck] at hbefore
    refine ⟨h, fun hok => ?_⟩
    rw [hbefore] at hok
    cases hok
  | ok committedRoot =>
    rw [hcheck] at hbefore
    obtain ⟨hpoisoned, hcoinbase⟩ := hbefore
    have hcache : CacheOf code eng.smlCache eng.entries := by
      refine h.resolve_left ?_
      rw [hpoisoned]
      exact Bool.false_ne_true
    dsimp only
    split
    · exact ⟨Or.inl rfl, nofun⟩
    unfold finishFold
    split
    · rename_i e he
      have hok := @ok_foldPasses P code block height (eng.projectPayee (toInt32 height))
        (eng, { height := height, committedRoot := committedRoot,
                payee := eng.projectPayee (toInt32 height) })
      rw [he] at hok
      exact ⟨Or.inl rfl, fun hacc => absurd (hok.symm.trans hacc) Bool.false_ne_true⟩
    rename_i s hs
    have hok := ok_of_foldPasses hs
    obtain ⟨hcommitted, hroot⟩ := checkRoot_spec (Marked.foldPasses hs) hcache (toInt32 height)
    dsimp only
    split
    · refine ⟨Or.inl rfl, fun hacc => ?_⟩
      exact absurd (hok.symm.trans ((ok_checkRoot s).symm.trans hacc)) Bool.false_ne_true
    rename_i hsame
    have hcomputed : (checkRoot code (toInt32 height) s).2.computedRoot =
        committedRoot := (not_not.mp hsame).trans hcommitted
    obtain ⟨hrooted, hlist⟩ := hroot hcomputed
    obtain ⟨hentries, hcache', hcomputed', hcommitted'⟩ :=
      @checkPayee_spec P code block height
        (((Option.map (fun protx => (protx, eng.entries.lookup protx))
          (eng.projectPayee (toInt32 height))).bind Prod.snd).map
            ReplayMNState.firstPayoutScript |>.getD [])
        (checkRoot code (toInt32 height) s)
    have hsml : ∀ eng' : DmlFoldEngine,
        eng'.entries = (checkRoot code (toInt32 height) s).1.entries →
        computeSmlRoot code eng' = committedRoot := by
      intro eng' heq
      refine Eq.trans ?_ hlist
      unfold computeSmlRoot
      rw [heq]
    refine ⟨Or.inr (Or.inl ?_), fun _ => ⟨?_, ?_, ?_⟩⟩
    · rw [hcache', hentries]
      exact hrooted.cache
    · rw [hcomputed', hcomputed, hsml _ hentries]
    · rw [hcomputed', hcommitted', hcomputed, hcommitted]
    · rw [hcommitted', hcommitted]
      exact hcoinbase

theorem Fresh.call (h : Fresh code eng) (c : FoldCall P) : Fresh code (call code eng c) := by
  cases c with
  | setMembersFn fn => exact h
  | seed entries total height blockHash network penalties =>
    exact Or.inr (Or.inr ⟨rfl, rfl⟩)
  | loadSnapshot bytes =>
    unfold DmlFoldEngine.call DmlFoldEngine.loadSnapshot
    dsimp only
    split
    · exact h
    split
    · exact h
    split
    · exact h
    split
    · split
      · exact h
      · exact Or.inr (Or.inr ⟨rfl, rfl⟩)
    split
    · exact h
    · exact Or.inr (Or.inr ⟨rfl, rfl⟩)
  | foldBlock block height => exact (h.foldBlock block height).1

theorem foldBlock_of_refusedBeforePasses {block : Block P}
    (h : RefusedBeforePasses code eng block height) :
    (eng.foldBlock code block height).1.entries = eng.entries ∧
      (eng.foldBlock code block height).1.height = eng.height ∧
      (eng.foldBlock code block height).1.blockHash = eng.blockHash ∧
      (eng.foldBlock code block height).1.smlCache = eng.smlCache := by
  unfold DmlFoldEngine.foldBlock
  rcases h with ⟨r, hr⟩ | ⟨protx, hpayee, hmissing⟩
  · rw [hr]
    exact ⟨rfl, rfl, rfl, rfl⟩
  split
  · exact ⟨rfl, rfl, rfl, rfl⟩
  dsimp only
  rw [hpayee, Option.map_some, hmissing]
  exact ⟨rfl, rfl, rfl, rfl⟩

/-- A block that is accepted after any calls has the root of the list that is held then, and a
block that is refused before the passes changes nothing of it. -/
theorem accepted_root_eq_computeSmlRoot (code : FoldCode P) (cfg : FoldConfig)
    (calls : List (FoldCall P)) (block : Block P) (height : U32) :
    let eng := Run.run (DmlFoldEngine.call code) { cfg := cfg } calls
    let out := eng.foldBlock code block height
    (out.2.ok = true →
        out.2.computedRoot = computeSmlRoot code out.1 ∧
          out.2.computedRoot = out.2.committedRoot ∧
          ∃ coinbase txs, block.txs = coinbase :: txs ∧
            code.parseCbtx coinbase.extraPayload = some out.2.committedRoot) ∧
      (RefusedBeforePasses code eng block height →
        out.1.entries = eng.entries ∧ out.1.height = eng.height ∧
          out.1.blockHash = eng.blockHash ∧ out.1.smlCache = eng.smlCache) := by
  intro eng out
  have hfresh : Fresh code eng := by
    have hstep : ∀ (eng : DmlFoldEngine) (c : FoldCall P), Fresh code eng → True →
        Fresh code (DmlFoldEngine.call code eng c) := fun _ c h _ => h.call c
    refine Run.run_invariant hstep ?_ (Run.admissible_of_forall (fun _ _ => trivial) _ calls)
    exact Or.inr (Or.inr ⟨rfl, rfl⟩)
  exact ⟨(hfresh.foldBlock block height).2, foldBlock_of_refusedBeforePasses⟩

def rootCode : FoldCode Uint256 := { plainFoldCode with parseCbtx := some }

def rootConfig : FoldConfig where
  enabled := true
  gates := { dip0003Height := 0 }

def rootBlock (prev root : Uint256) : Block Uint256 where
  previousBlock := prev
  txs := [{ version := 3, type := 5, extraPayload := root }]

/-- Two masternodes that are confirmed one after the other. -/
def rootCalls : List (FoldCall Uint256) :=
  [.seed [(1, { nRegisteredHeight := 0 }), (2, { nRegisteredHeight := 1 })] 2 15 7 "mainnet"
      .exact,
    .foldBlock (rootBlock 7 12) 16]

/-- The second of two blocks, whose root the cache of the first gives. -/
theorem accepted_root_eq_computeSmlRoot_confirmed :
    let eng := Run.run (DmlFoldEngine.call rootCode) { cfg := rootConfig } rootCalls
    let out := eng.foldBlock rootCode (rootBlock 8 28) 17
    eng.smlCache.valid = true ∧ out.2.ok = true ∧
      out.2.computedRoot = computeSmlRoot rootCode out.1 := by
  have hok : ((Run.run (DmlFoldEngine.call rootCode) { cfg := rootConfig } rootCalls).foldBlock
      rootCode (rootBlock 8 28) 17).2.ok = true := by decide +kernel
  have hroot := (accepted_root_eq_computeSmlRoot rootCode rootConfig rootCalls
    (rootBlock 8 28) 17).1 hok
  exact ⟨by decide +kernel, hok, hroot.1⟩

end Calls

end DmlFoldEngine

end C2Pool.Dash
