import C2Pool.Lib.PartialRun

/-! # Maps in key order

`std::map`: entries with strictly increasing keys, walked in that order.  The
order is part of the type, so two maps with the same lookups are equal and
every walk is determined by the lookups.
-/

namespace C2Pool

open List

structure SortedMap (K V : Type) [LinearOrder K] where
  entries : List (K × V)
  sorted : entries.Pairwise fun a b => a.1 < b.1
deriving DecidableEq

namespace SortedMap

variable {K V W : Type} [LinearOrder K] {k : K} {v : V} {l : List (K × V)} {m : SortedMap K V}

def find (k : K) : List (K × V) → Option V
  | [] => none
  | e :: rest => if e.1 = k then some e.2 else find k rest

theorem find_cons (k : K) (e : K × V) (rest : List (K × V)) :
    find k (e :: rest) = if e.1 = k then some e.2 else find k rest := rfl

/-- Assign in place, or insert before the first larger key. -/
def put (k : K) (v : V) : List (K × V) → List (K × V)
  | [] => [(k, v)]
  | e :: rest =>
    if k < e.1 then (k, v) :: e :: rest
    else if e.1 = k then (k, v) :: rest
    else e :: put k v rest

theorem mem_put {e : K × V} (h : e ∈ put k v l) : e = (k, v) ∨ e ∈ l := by
  induction l with
  | nil => simpa [put] using h
  | cons first rest ih =>
    unfold put at h
    split at h
    · simpa using h
    split at h
    · rcases mem_cons.mp h with h | h
      · exact .inl h
      · exact .inr (mem_cons_of_mem _ h)
    rcases mem_cons.mp h with h | h
    · exact .inr (h ▸ mem_cons_self)
    rcases ih h with h | h
    · exact .inl h
    · exact .inr (mem_cons_of_mem _ h)

theorem put_sorted (h : l.Pairwise fun a b => a.1 < b.1) :
    (put k v l).Pairwise fun a b => a.1 < b.1 := by
  induction l with
  | nil => simp [put]
  | cons first rest ih =>
    rw [pairwise_cons] at h
    unfold put
    split
    · rename_i hlt
      refine pairwise_cons.mpr ⟨?_, pairwise_cons.mpr h⟩
      intro e he
      rcases mem_cons.mp he with he | he
      · exact he ▸ hlt
      · exact hlt.trans (h.1 e he)
    rename_i hnlt
    split
    · rename_i heq
      exact pairwise_cons.mpr ⟨fun e he => heq ▸ h.1 e he, h.2⟩
    rename_i hne
    refine pairwise_cons.mpr ⟨?_, ih h.2⟩
    intro e he
    rcases mem_put he with he | he
    · rw [he]
      exact lt_of_le_of_ne (not_lt.mp hnlt) hne
    · exact h.1 e he

theorem find_put (k : K) (v : V) (l : List (K × V)) (x : K) :
    find x (put k v l) = if x = k then some v else find x l := by
  induction l with
  | nil =>
    unfold put find
    by_cases hx : x = k
    · simp [hx]
    · simp [hx, Ne.symm hx, find]
  | cons first rest ih =>
    unfold put
    split
    · by_cases hx : x = k
      · simp [find, hx]
      · simp [find, hx, Ne.symm hx]
    split
    · rename_i heq
      by_cases hx : x = k
      · simp [find, hx]
      · simp [find, hx, Ne.symm hx, heq]
    rename_i hne
    by_cases hfirst : first.1 = x
    · have hx : x ≠ k := fun h => hne (hfirst.trans h)
      simp [find, hfirst, hx]
    · simp [find, hfirst, ih]

theorem find_eq_none_of_lt (h : ∀ e ∈ l, k < e.1) : find k l = none := by
  induction l with
  | nil => rfl
  | cons e rest ih =>
    unfold find
    rw [if_neg (ne_of_gt (h e mem_cons_self)), ih fun e' he' => h e' (mem_cons_of_mem _ he')]

theorem mem_of_find {l : List (K × V)} {k : K} {v : V} (h : find k l = some v) : (k, v) ∈ l := by
  induction l with
  | nil => cases h
  | cons e rest ih =>
    unfold find at h
    split at h
    · rename_i hk
      cases h
      exact hk ▸ mem_cons_self
    · exact mem_cons_of_mem _ (ih h)

theorem find_of_mem (hsorted : l.Pairwise fun a b => a.1 < b.1) (h : (k, v) ∈ l) :
    find k l = some v := by
  induction l with
  | nil => cases h
  | cons e rest ih =>
    rw [pairwise_cons] at hsorted
    unfold find
    rcases mem_cons.mp h with h | h
    · rw [← h, if_pos rfl]
    · rw [if_neg (ne_of_lt (hsorted.1 _ h)), ih hsorted.2 h]

/-! ## Maps -/

def empty : SortedMap K V := ⟨[], List.Pairwise.nil⟩

instance : EmptyCollection (SortedMap K V) := ⟨empty⟩

instance : Inhabited (SortedMap K V) := ⟨empty⟩

def lookup (m : SortedMap K V) (k : K) : Option V := find k m.entries

/-- `m[k] = v`. -/
def insert (m : SortedMap K V) (k : K) (v : V) : SortedMap K V :=
  ⟨put k v m.entries, put_sorted m.sorted⟩

/-- Rewrite or drop every value. -/
def filterMap (m : SortedMap K V) (f : K → V → Option W) : SortedMap K W where
  entries := m.entries.filterMap fun e => (f e.1 e.2).map fun w => (e.1, w)
  sorted := by
    apply List.Pairwise.filterMap _ _ m.sorted
    intro a a' hlt b hb b' hb'
    simp only [Option.map_eq_some_iff] at hb hb'
    obtain ⟨w, -, rfl⟩ := hb
    obtain ⟨w', -, rfl⟩ := hb'
    exact hlt

def erase (m : SortedMap K V) (k : K) : SortedMap K V :=
  m.filterMap fun x v => if x = k then none else some v

def mapValues (m : SortedMap K V) (f : K → V → W) : SortedMap K W :=
  m.filterMap fun k v => some (f k v)

/-- Rewrite every value, or fail as the first one does that cannot be. -/
def tryMap {ε : Type} (m : SortedMap K V) (f : K → V → Except ε W) : Except ε (SortedMap K W) :=
  match m.entries.findSome? fun e => PartialRun.failure (f e.1 e.2) with
  | some err => .error err
  | none => .ok (m.filterMap fun k v => (f k v).toOption)

/-- The entries from `lo` to `hi`. -/
def slice (m : SortedMap K V) (lo hi : K) : List (K × V) :=
  m.entries.filter fun e => lo ≤ e.1 ∧ e.1 ≤ hi

/-- The map without the entries from `lo` to `hi`. -/
def cutOut (m : SortedMap K V) (lo hi : K) : SortedMap K V :=
  m.filterMap fun k v => if lo ≤ k ∧ k ≤ hi then none else some v

def keys (m : SortedMap K V) : List K := m.entries.map Prod.fst

/-- The sum of `f` over the entries. -/
def sum (m : SortedMap K V) (f : K → V → Nat) : Nat :=
  (m.entries.map fun e => f e.1 e.2).sum

@[ext] theorem ext_lookup {m m' : SortedMap K V} (h : ∀ k, m.lookup k = m'.lookup k) : m = m' := by
  obtain ⟨l, hl⟩ := m
  obtain ⟨l', hl'⟩ := m'
  congr 1
  have hsub : ∀ {l l' : List (K × V)}, (l.Pairwise fun a b => a.1 < b.1) →
      (l'.Pairwise fun a b => a.1 < b.1) → (∀ k, find k l = find k l') → l ⊆ l' := by
    rintro l l' hl hl' h ⟨k, v⟩ he
    apply mem_of_find
    rw [← h k]
    exact find_of_mem hl he
  apply List.Perm.eq_of_pairwise (fun a b _ _ hab hba => absurd hba hab.asymm) hl hl'
  apply (perm_ext_iff_of_nodup (hl.imp fun hlt heq => ?_) (hl'.imp fun hlt heq => ?_)).mpr
  · intro e
    exact ⟨fun he => hsub hl hl' h he, fun he => hsub hl' hl (fun k => (h k).symm) he⟩
  · exact absurd (heq ▸ hlt) (lt_irrefl _)
  · exact absurd (heq ▸ hlt) (lt_irrefl _)

@[simp] theorem lookup_empty (k : K) : (∅ : SortedMap K V).lookup k = none := rfl

theorem lookup_insert (m : SortedMap K V) (k : K) (v : V) (x : K) :
    (m.insert k v).lookup x = if x = k then some v else m.lookup x := find_put k v m.entries x

theorem lookup_filterMap (m : SortedMap K V) (f : K → V → Option W) (x : K) :
    (m.filterMap f).lookup x = (m.lookup x).bind (f x) := by
  obtain ⟨l, hl⟩ := m
  show find x (l.filterMap fun e => (f e.1 e.2).map fun w => (e.1, w)) = (find x l).bind (f x)
  induction l with
  | nil => rfl
  | cons e rest ih =>
    rw [pairwise_cons] at hl
    have hrest := ih hl.2
    by_cases hx : e.1 = x
    · subst hx
      cases hf : f e.1 e.2 with
      | some w => simp [find, hf]
      | none =>
        have hnone : find e.1 rest = none := find_eq_none_of_lt hl.1
        rw [hnone] at hrest
        simp [find, hf, hrest]
    cases hf : f e.1 e.2 with
    | some w => simp [find, hf, hx, hrest]
    | none => simp [find, hf, hx, hrest]

theorem lookup_erase (m : SortedMap K V) (k x : K) :
    (m.erase k).lookup x = if x = k then none else m.lookup x := by
  unfold erase
  rw [lookup_filterMap]
  by_cases hx : x = k
  · simp only [if_pos hx]
    cases m.lookup x <;> rfl
  · simp only [if_neg hx]
    cases m.lookup x <;> rfl

theorem lookup_mapValues (m : SortedMap K V) (f : K → V → W) (x : K) :
    (m.mapValues f).lookup x = (m.lookup x).map (f x) := by
  unfold mapValues
  rw [lookup_filterMap]
  cases m.lookup x <;> rfl

theorem mem_entries_iff :
    (k, v) ∈ m.entries ↔ m.lookup k = some v := ⟨find_of_mem m.sorted, mem_of_find⟩

theorem erase_of_lookup_none (h : m.lookup k = none) : m.erase k = m := by
  apply ext_lookup
  intro x
  rw [lookup_erase]
  split
  · rename_i hx
    rw [hx, h]
  · rfl

theorem erase_insert (m : SortedMap K V) (k : K) (v : V) : (m.insert k v).erase k = m.erase k := by
  apply ext_lookup
  intro x
  rw [lookup_erase, lookup_erase, lookup_insert]
  split <;> rfl

theorem sum_of_split (f : K → V → Nat)
    (h : m.lookup k = some v) : m.sum f = f k v + (m.erase k).sum f := by
  obtain ⟨l, hl⟩ := m
  unfold sum erase filterMap
  dsimp only
  have hfind : find k l = some v := h
  induction l with
  | nil => cases hfind
  | cons e rest ih =>
    have hl' := pairwise_cons.mp hl
    rw [map_cons, sum_cons]
    by_cases hk : e.1 = k
    · have hv : e.2 = v := by simpa [find, hk] using hfind
      have hrest : ∀ e' ∈ rest, e'.1 ≠ k := fun e' he' => hk ▸ ne_of_gt (hl'.1 e' he')
      have hkeep : rest.filterMap (fun e => (if e.1 = k then none else some e.2).map
          fun w => (e.1, w)) = rest := by
        rw [filterMap_congr (g := fun e => some e)]
        · exact filterMap_some
        intro e' he'
        rw [if_neg (hrest e' he')]
        rfl
      rw [filterMap_cons, if_pos hk]
      dsimp only [Option.map_none]
      rw [hkeep, hk, hv]
    have hrest : find k rest = some v := by simpa [find, hk] using hfind
    have := ih hl'.2 hrest hrest
    rw [filterMap_cons, if_neg hk]
    dsimp only [Option.map_some]
    rw [map_cons, sum_cons, this]
    dsimp only
    omega

theorem sum_insert (m : SortedMap K V) (k : K) (v : V) (f : K → V → Nat) :
    (m.insert k v).sum f = f k v + (m.erase k).sum f := by
  have hlook : (m.insert k v).lookup k = some v := by
    rw [lookup_insert, if_pos rfl]
  rw [sum_of_split f hlook, erase_insert]

theorem sum_congr {f g : K → V → Nat}
    (h : ∀ k v, m.lookup k = some v → f k v = g k v) : m.sum f = m.sum g := by
  unfold sum
  congr 1
  apply map_congr_left
  intro e he
  exact h e.1 e.2 (mem_entries_iff.mp he)

theorem lookup_cutOut (m : SortedMap K V) (lo hi x : K) :
    (m.cutOut lo hi).lookup x = if lo ≤ x ∧ x ≤ hi then none else m.lookup x := by
  unfold cutOut
  rw [lookup_filterMap]
  by_cases hx : lo ≤ x ∧ x ≤ hi
  · simp only [if_pos hx]
    cases m.lookup x <;> rfl
  · simp only [if_neg hx]
    cases m.lookup x <;> rfl

theorem mem_slice {lo hi : K} {e : K × V} :
    e ∈ m.slice lo hi ↔ m.lookup e.1 = some e.2 ∧ lo ≤ e.1 ∧ e.1 ≤ hi := by
  unfold slice
  rw [mem_filter, ← mem_entries_iff]
  simp

theorem tryMap_eq_ok {ε : Type} {f : K → V → Except ε W}
    {m' : SortedMap K W} (h : m.tryMap f = .ok m') :
    (∀ k v, m.lookup k = some v → ∃ w, f k v = .ok w) ∧
      ∀ k, m'.lookup k = (m.lookup k).bind fun v => (f k v).toOption := by
  unfold tryMap at h
  split at h
  · cases h
  rename_i hnone
  cases h
  refine ⟨?_, fun k => lookup_filterMap m _ k⟩
  intro k v hk
  have hone := findSome?_eq_none_iff.mp hnone (k, v) (mem_entries_iff.mpr hk)
  cases hf : f k v with
  | error e =>
    rw [hf] at hone
    cases hone
  | ok w => exact ⟨w, rfl⟩

theorem tryMap_of_ok {ε : Type} {f : K → V → Except ε W} {g : K → V → W}
    (h : ∀ k v, m.lookup k = some v → f k v = .ok (g k v)) : m.tryMap f = .ok (m.mapValues g) := by
  have hnone : (m.entries.findSome? fun e => PartialRun.failure (f e.1 e.2)) = none := by
    rw [findSome?_eq_none_iff]
    intro e he
    rw [h e.1 e.2 (mem_entries_iff.mp he)]
    rfl
  unfold tryMap
  rw [hnone]
  dsimp only
  congr 1
  apply ext_lookup
  intro k
  rw [lookup_filterMap, lookup_mapValues]
  cases hk : m.lookup k with
  | none => rfl
  | some v =>
    rw [Option.bind_some, h k v hk]
    rfl

theorem eq_empty_iff {m : SortedMap K V} : m = ∅ ↔ ∀ k, m.lookup k = none := by
  constructor
  · rintro rfl k
    rfl
  intro h
  apply ext_lookup
  intro k
  rw [h]
  rfl

theorem entries_eq_nil {m : SortedMap K V} : m.entries = [] ↔ m = ∅ := by
  constructor
  · intro h
    rw [eq_empty_iff]
    intro k
    unfold lookup
    rw [h]
    rfl
  · rintro rfl
    rfl

theorem slice_eq_entries (m : SortedMap K V) (lo hi : K) :
    m.slice lo hi =
      (m.filterMap fun k v => if lo ≤ k ∧ k ≤ hi then some v else none).entries := by
  show m.entries.filter _ = m.entries.filterMap _
  rw [← filterMap_eq_filter]
  congr 1
  funext e
  by_cases hspan : lo ≤ e.1 ∧ e.1 ≤ hi
  · simp [Option.guard, hspan]
  · simp only [Option.guard, if_neg hspan, decide_eq_false hspan]
    rfl

theorem entries_perm (h : m.lookup k = some v) :
    m.entries.Perm ((k, v) :: (m.erase k).entries) := by
  have hnodup : ∀ m : SortedMap K V, m.entries.Nodup := fun m =>
    m.sorted.imp fun hlt heq => absurd (heq ▸ hlt) (lt_irrefl _)
  have hnot : (k, v) ∉ (m.erase k).entries := by
    rw [mem_entries_iff, lookup_erase, if_pos rfl]
    exact nofun
  rw [perm_ext_iff_of_nodup (hnodup m) (nodup_cons.mpr ⟨hnot, hnodup _⟩)]
  rintro ⟨x, w⟩
  rw [mem_cons, mem_entries_iff, mem_entries_iff, lookup_erase]
  by_cases hx : x = k
  · subst hx
    rw [if_pos rfl, h]
    simp [eq_comm]
  · simp [hx]

theorem entries_mapValues (m : SortedMap K V) (f : K → V → W) :
    (m.mapValues f).entries = m.entries.map fun e => (e.1, f e.1 e.2) := by
  show (m.entries.filterMap fun e => some (e.1, f e.1 e.2)) = _
  rw [filterMap_eq_map']

theorem mapValues_insert (m : SortedMap K V) (k : K) (v : V) (f : K → V → W) :
    (m.insert k v).mapValues f = (m.mapValues f).insert k (f k v) := by
  ext1 x
  rw [lookup_mapValues, lookup_insert, lookup_insert, lookup_mapValues]
  split
  · rename_i h
    rw [h, Option.map_some]
  · rfl

theorem mapValues_erase (m : SortedMap K V) (k : K) (f : K → V → W) :
    (m.erase k).mapValues f = (m.mapValues f).erase k := by
  ext1 x
  rw [lookup_mapValues, lookup_erase, lookup_erase, lookup_mapValues]
  split <;> rfl

theorem foldl_at_key {σ ρ : Type} (step : σ → K × V → σ) (read : σ → ρ)
    (hother : ∀ s e, e.1 ≠ k → read (step s e) = read s) (m : SortedMap K V) (s : σ) :
    ∃ s', read s' = read s ∧ read (m.entries.foldl step s) =
      match m.lookup k with
      | some v => read (step s' (k, v))
      | none => read s := by
  have hskip : ∀ (es : List (K × V)) (s : σ), (∀ e ∈ es, e.1 ≠ k) →
      read (es.foldl step s) = read s := by
    intro es
    induction es with
    | nil => exact fun s _ => rfl
    | cons e es ih =>
      intro s h
      rw [foldl_cons, ih _ fun e' he' => h e' (mem_cons_of_mem e he')]
      exact hother s e (h e mem_cons_self)
  obtain ⟨es, hsorted⟩ := m
  show ∃ s', read s' = read s ∧ read (es.foldl step s) =
    match find k es with
    | some v => read (step s' (k, v))
    | none => read s
  induction es generalizing s with
  | nil => exact ⟨s, rfl, rfl⟩
  | cons e es ih =>
    obtain ⟨hlt, hrest⟩ := pairwise_cons.mp hsorted
    rw [foldl_cons, find_cons]
    by_cases heq : e.1 = k
    · subst heq
      rw [if_pos rfl]
      exact ⟨s, rfl, hskip es _ fun e' he' => (hlt e' he').ne'⟩
    rw [if_neg heq]
    obtain ⟨s', hs', hread⟩ := ih (step s e) hrest
    rw [hother s e heq] at hs' hread
    exact ⟨s', hs', hread⟩

/-- Every row of `d` is merged into the row of its key. -/
def merge (f : Option V → W → V) (m : SortedMap K V) (d : SortedMap K W) : SortedMap K V :=
  d.entries.foldl (fun m e => m.insert e.1 (f (m.lookup e.1) e.2)) m

theorem lookup_merge (f : Option V → W → V) (m : SortedMap K V) (d : SortedMap K W) (k : K) :
    (m.merge f d).lookup k =
      match d.lookup k with
      | some w => some (f (m.lookup k) w)
      | none => m.lookup k := by
  obtain ⟨m', hm', hread⟩ := foldl_at_key
    (fun (m : SortedMap K V) (e : K × W) => m.insert e.1 (f (m.lookup e.1) e.2))
    (fun m => m.lookup k) (fun m e hne => by rw [lookup_insert, if_neg (Ne.symm hne)]) d m
  unfold merge
  rw [hread]
  cases d.lookup k with
  | none => rfl
  | some w =>
    dsimp only at hm' ⊢
    rw [lookup_insert, if_pos rfl, hm']

theorem entries_insert_of_last (h : ∀ e ∈ m.entries, e.1 < k) (v : V) :
    (m.insert k v).entries = m.entries ++ [(k, v)] := by
  show put k v m.entries = m.entries ++ [(k, v)]
  generalize m.entries = l at h
  induction l with
  | nil => rfl
  | cons e rest ih =>
    have hlt := h e mem_cons_self
    rw [put, if_neg hlt.asymm, if_neg hlt.ne, ih fun x hx => h x (mem_cons_of_mem e hx),
      cons_append]

theorem length_put_le (k : K) (v : V) (l : List (K × V)) : (put k v l).length ≤ l.length + 1 := by
  induction l with
  | nil => exact Nat.le_refl 1
  | cons e rest ih =>
    simp only [put]
    split
    · exact Nat.le_refl _
    split
    · simp
    · simpa using ih

theorem length_insert_le (m : SortedMap K V) (k : K) (v : V) :
    (m.insert k v).entries.length ≤ m.entries.length + 1 := length_put_le k v m.entries

theorem foldl_insert_entries (m : SortedMap K V) :
    m.entries.foldl (fun m e => insert m e.1 e.2) ∅ = m := by
  ext1 k
  obtain ⟨m', -, hlookup⟩ := foldl_at_key (fun (m : SortedMap K V) (e : K × V) => insert m e.1 e.2)
    (fun m => lookup m k) (k := k)
    (fun m e hne => by rw [lookup_insert, if_neg (Ne.symm hne)]) m ∅
  rw [hlookup]
  cases h : lookup m k with
  | none => rfl
  | some v => exact (lookup_insert m' k v k).trans (if_pos rfl)

theorem lookup_of_notMem_keys (h : k ∉ m.keys) : m.lookup k = none := by
  by_contra hsome
  obtain ⟨v, hv⟩ := Option.ne_none_iff_exists'.mp hsome
  exact h (mem_map_of_mem (mem_entries_iff.mpr hv))

/-- Entries in key order are determined by their members. -/
theorem sorted_eq_of_mem_iff {l' : List (K × V)} (hl : l.Pairwise fun a b => a.1 < b.1)
    (hl' : l'.Pairwise fun a b => a.1 < b.1) (h : ∀ e, e ∈ l ↔ e ∈ l') : l = l' := by
  have heq : (⟨l, hl⟩ : SortedMap K V) = ⟨l', hl'⟩ := by
    apply ext_lookup
    intro k
    apply Option.ext
    intro v
    rw [← mem_entries_iff, ← mem_entries_iff]
    exact h (k, v)
  exact congrArg entries heq

end SortedMap

end C2Pool
