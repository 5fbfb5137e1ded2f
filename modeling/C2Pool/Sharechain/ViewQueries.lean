import C2Pool.Sharechain.ForestInvariant
import C2Pool.Sharechain.ViewRefs

/-! # Cached queries against the uncached walk

`Spans` says that a delta is the plain sum over the shares from an item to some
later hash.  A view whose cached deltas all span their way answers a query with
the sum over the whole chain, and stores only deltas that span theirs.
-/

namespace C2Pool.Sharechain.TrackerView

open List FiniteMap ParentForest Relation

variable {H S : Type} [DecidableEq H] {E : H → H → Prop} {c : Forest H S} {x t : H}
  {data : ChainData H S} {m n N : Nat} {d d' : AttributeDelta H} {v : TrackerView H}
  {c' : Forest H S} {delta : AttributeDelta H} {updates : List (H × AttributeDelta H)}

/-! ## Sums along a chain -/

/-- The indexes of the first `n` shares of the chain of `x`. -/
def chainIndexes (c : Forest H S) : Nat → H → List (ShareIndex H)
  | 0, _ => []
  | n + 1, x =>
    match c.shares.lookup x with
    | none => []
    | some data => data.index :: chainIndexes c n data.index.tail

/-- `d` is the uncached sum over the `n` shares from `x` to `d.tail`. -/
structure Spans (c : Forest H S) (n : Nat) (x : H) (d : AttributeDelta H) : Prop where
  reaches : ancestor c.parent n x = some d.tail
  height : d.height = n
  work : d.work = ((chainIndexes c n x).map fun index => index.work).sum
  minWork : d.minWork = ((chainIndexes c n x).map fun index => index.minWork).sum

theorem chainIndexes_succ (hx : c.shares.lookup x = some data) (n : Nat) :
    chainIndexes c (n + 1) x = data.index :: chainIndexes c n data.index.tail := by
  simp [chainIndexes, hx]

theorem chainIndexes_add (n : Nat) {y : H} (h : ancestor c.parent m x = some y) :
    chainIndexes c (m + n) x = chainIndexes c m x ++ chainIndexes c n y := by
  induction m generalizing x with
  | zero =>
    have hxy : x = y := by simpa using h
    simp [chainIndexes, hxy]
  | succ m ih =>
    rw [ancestor_succ] at h
    cases hx : c.shares.lookup x with
    | none => simp [Forest.parent, hx] at h
    | some data =>
      rw [Forest.parent_of_lookup hx, Option.bind_some] at h
      rw [Nat.succ_add, chainIndexes_succ hx, chainIndexes_succ hx, ih h]
      rfl

theorem chainIndexes_congr (h : ∀ m y, m < n → ancestor c.parent m x = some y →
      c'.shares.lookup y = c.shares.lookup y) : chainIndexes c' n x = chainIndexes c n x := by
  induction n generalizing x with
  | zero => rfl
  | succ n ih =>
    unfold chainIndexes
    rw [h 0 x (by omega) rfl]
    cases hx : c.shares.lookup x with
    | none => rfl
    | some data =>
      show data.index :: _ = data.index :: _
      rw [ih]
      intro m y hm hy
      refine h (m + 1) y (by omega) ?_
      simp [ancestor_succ, Forest.parent, hx, hy]

theorem Spans.congr (hd : Spans c n x d)
    (h : ∀ m y, m < n → ancestor c.parent m x = some y → c'.shares.lookup y = c.shares.lookup y) :
    Spans c' n x d := by
  have hparent : ancestor c'.parent n x = ancestor c.parent n x := by
    apply ancestor_congr
    intro m y hm hy
    simp [Forest.parent, h m y hm hy]
  constructor
  · rw [hparent]
    exact hd.reaches
  · exact hd.height
  · rw [chainIndexes_congr h]
    exact hd.work
  · rw [chainIndexes_congr h]
    exact hd.minWork

theorem Spans.of_sameReading (hd : Spans c n x d) (h : SameReading d' d) : Spans c n x d' := by
  rcases h with ⟨htail, hheight, hwork, hmin⟩
  constructor
  · rw [htail]
    exact hd.reaches
  · rw [hheight]
    exact hd.height
  · rw [hwork]
    exact hd.work
  · rw [hmin]
    exact hd.minWork

theorem spans_getNone (c : Forest H S) (x : H) : Spans c 0 x (.getNone x) := by
  constructor <;> simp [AttributeDelta.getNone, chainIndexes]

theorem Spans.add (hd : Spans c m x d) (hd' : Spans c n d.tail d') :
    Spans c (m + n) x (d + d') := by
  constructor
  · exact ancestor_trans hd.reaches hd'.reaches
  · show d.height + d'.height = _
    rw [hd.height, hd'.height]
    rfl
  · show d.work + d'.work = _
    rw [chainIndexes_add n hd.reaches, map_append, sum_append, hd.work, hd'.work]
  · show d.minWork + d'.minWork = _
    rw [chainIndexes_add n hd.reaches, map_append, sum_append, hd.minWork, hd'.minWork]

/-- Taking an initial part off a sum leaves the sum over the rest. -/
theorem Spans.sub (hd : Spans c (m + n) x d) (hd' : Spans c m x d') (hhead : d.head = d'.head) :
    Spans c n d'.tail (d - d') ∧ (d - d').head = d'.tail ∧ (d - d').tail = d.tail := by
  have hends : (d - d').head = d'.tail ∧ (d - d').tail = d.tail := by
    show (if d.head = d'.head then (d'.tail, d.tail) else _).1 = _ ∧
      (if d.head = d'.head then (d'.tail, d.tail) else _).2 = _
    rw [if_pos hhead]
    exact ⟨rfl, rfl⟩
  refine ⟨?_, hends⟩
  have hreach := hd.reaches
  rw [ancestor_add, hd'.reaches, Option.bind_some] at hreach
  constructor
  · rw [hends.2]
    exact hreach
  · show d.height - d'.height = n
    rw [hd.height, hd'.height]
    omega
  · show d.work - d'.work = _
    rw [hd.work, hd'.work, chainIndexes_add n hd'.reaches, map_append, sum_append]
    exact add_sub_cancel_left _ _
  · show d.minWork - d'.minWork = _
    rw [hd.minWork, hd'.minWork, chainIndexes_add n hd'.reaches, map_append, sum_append]
    exact add_sub_cancel_left _ _

/-- Every cached delta is the sum over a non-empty part of its item's chain. -/
def ValuesOk (c : Forest H S) (v : TrackerView H) : Prop :=
  ∀ x d, v.cached x = some d → ∃ n, 1 ≤ n ∧ Spans c n x d

/-- What storing the updates of a walk to `t` leaves: cached deltas still span
their way, and one that changed now ends at `t`. -/
structure Stored (E : H → H → Prop) (c : Forest H S) (v v' : TrackerView H) (t : H) : Prop where
  refs : RefsOk E v' none
  values : ValuesOk c v'
  changed : ∀ y, v'.cached y = v.cached y ∨ ∃ d, v'.cached y = some d ∧ d.tail = t

theorem Stored.refl (hr : RefsOk E v none) (hv : ValuesOk c v) (t : H) : Stored E c v v t :=
  ⟨hr, hv, fun _ => .inl rfl⟩

theorem Stored.trans {v' v'' : TrackerView H}
    (h : Stored E c v v' t) (h' : Stored E c v' v'' t) : Stored E c v v'' t := by
  refine ⟨h'.refs, h'.values, ?_⟩
  intro y
  rcases h'.changed y with hy | hy
  · rw [hy]
    exact h.changed y
  · exact .inr hy

theorem Stored.setDeltaLocked (hr : RefsOk E v none) (hv : ValuesOk c v) (hn : 1 ≤ n)
    (hdelta : Spans c n x delta) :
    Stored E c v (v.setDeltaLocked x delta) delta.tail ∧
      ∃ d, (v.setDeltaLocked x delta).cached x = some d ∧ d.tail = delta.tail := by
  rcases setDeltaLocked_spec hr x delta with ⟨hr', ⟨d, hd, hsame⟩, hother⟩
  refine ⟨⟨hr', ?_, ?_⟩, d, hd, hsame.1⟩
  · intro y d' hy
    by_cases hyx : y = x
    · subst hyx
      rw [hd] at hy
      cases hy
      exact ⟨n, hn, hdelta.of_sameReading hsame⟩
    · rw [hother y hyx] at hy
      exact hv y d' hy
  intro y
  by_cases hyx : y = x
  · subst hyx
    exact .inr ⟨d, hd, hsame.1⟩
  · exact .inl (hother y hyx)

theorem storeUpdates_spec {total : AttributeDelta H} (htotal : Spans c N x total)
    (hhead : total.head = x)
    (hupdates : ∀ u ∈ updates, u.2.head = x ∧ u.2.tail = u.1 ∧ ∃ k, k < N ∧ Spans c k x u.2)
    (hr : RefsOk E v none) (hv : ValuesOk c v) :
    Stored E c v (storeUpdates total v updates) total.tail ∧
      ∀ y, (y ∈ updates.map Prod.fst ∨ ∃ d, v.cached y = some d ∧ d.tail = total.tail) →
        ∃ d, (storeUpdates total v updates).cached y = some d ∧ d.tail = total.tail := by
  induction updates generalizing v with
  | nil =>
    refine ⟨Stored.refl hr hv _, ?_⟩
    intro y hy
    rcases hy with hy | hy
    · cases hy
    · exact hy
  | cons u updates ih =>
    rcases hupdates u mem_cons_self with ⟨huhead, hutail, k, hk, hspan⟩
    have hsub := Spans.sub (n := N - k) (by rwa [Nat.add_sub_cancel' hk.le]) hspan
      (hhead.trans huhead.symm)
    rw [hutail] at hsub
    have hset := Stored.setDeltaLocked hr hv (by omega) hsub.1
    rw [hsub.2.2] at hset
    have hrest := ih (fun u' hu' => hupdates u' (mem_cons_of_mem _ hu')) hset.1.refs hset.1.values
    refine ⟨hset.1.trans hrest.1, ?_⟩
    intro y hy
    apply hrest.2
    rcases hy with hy | hy
    · rcases mem_cons.mp hy with hy | hy
      · exact .inr (hy ▸ hset.2)
      · exact .inl hy
    rcases hset.1.changed y with heq | hnew
    · exact .inr (heq ▸ hy)
    · exact .inr hnew

variable [Inhabited H]

theorem makeElementDelta_head (c : Forest H S) (x : H) : (makeElementDelta c x).head = x := by
  unfold makeElementDelta
  split <;> rfl

theorem spans_makeElementDelta
    (hx : c.shares.lookup x = some data) : Spans c 1 x (makeElementDelta c x) := by
  constructor <;> simp [makeElementDelta, hx, chainIndexes, Forest.parent]

theorem ValuesOk.getDeltaLocked (hv : ValuesOk c v) (hx : c.shares.lookup x = some data) :
    ∃ n, 1 ≤ n ∧ Spans c n x (v.getDeltaLocked c x) := by
  unfold TrackerView.getDeltaLocked
  cases hcached : v.cached x with
  | none => exact ⟨1, le_rfl, spans_makeElementDelta hx⟩
  | some d => exact hv x d hcached

theorem lastLoop_spec (hn : c.NullFree) (hv : ValuesOk c v) (hend : EndsAt c.parent N x t)
    {rounds : Nat} (hdelta : Spans c m x delta) (hhead : delta.head = x) (hrounds : N < m + rounds)
    (hupdates : ∀ u ∈ updates, u.2.head = x ∧ u.2.tail = u.1 ∧ ∃ k, k < N ∧ Spans c k x u.2)
    (hmem : x ∈ updates.map Prod.fst ∨ m = 0) :
    ∃ total all, v.lastLoop c rounds delta updates = some (total, all) ∧
      Spans c N x total ∧ total.head = x ∧ total.tail = t ∧
      (∀ u ∈ all, u.2.head = x ∧ u.2.tail = u.1 ∧ ∃ k, k < N ∧ Spans c k x u.2) ∧
      (x ∈ all.map Prod.fst ∨ N = 0) := by
  induction rounds generalizing m delta updates with
  | zero =>
    have := (hend.drop hdelta.reaches).1
    omega
  | succ rounds ih =>
    rcases hend.drop hdelta.reaches with ⟨hmN, hrest⟩
    have hcur := Forest.current_tail hn delta.tail
    unfold lastLoop
    cases hlook : c.current delta.tail with
    | none =>
      rw [hlook] at hcur
      have hstop := (EndsAt.zero_of_none hcur.symm).unique hrest
      obtain rfl : m = N := by omega
      exact ⟨delta, updates, rfl, hdelta, hhead, hstop.2, hupdates, hmem⟩
    | some data =>
      rw [hlook] at hcur
      rcases hrest.of_cons hcur.symm with ⟨k, hk, -⟩
      have hshare : ∃ data', c.shares.lookup delta.tail = some data' := by
        unfold Forest.current at hlook
        split at hlook
        · cases hlook
        · exact ⟨data, hlook⟩
      rcases hshare with ⟨data', hshare⟩
      rcases hv.getDeltaLocked hshare with ⟨n, hn1, hspan⟩
      refine ih (hdelta.add hspan) hhead (by omega) ?_ ?_
      · intro u hu
        rcases mem_append.mp hu with hu | hu
        · exact hupdates u hu
        · rw [mem_singleton.mp hu]
          exact ⟨hhead, rfl, m, by omega, hdelta⟩
      left
      rcases hmem with hmem | hm0
      · simp [hmem]
      subst hm0
      have hx : x = delta.tail := by simpa using hdelta.reaches
      simp [hx]

/-- `get_delta_to_last` returns the uncached sum over the whole chain and
leaves a truthful view in which the item's own delta reaches the chain end. -/
theorem getDeltaToLast_spec (hn : c.NullFree) (ha : Acyclic c.parent) (hr : RefsOk E v none)
    (hv : ValuesOk c v) (hend : EndsAt c.parent N x t) :
    ∃ total v', v.getDeltaToLast c x = some (total, v') ∧ Spans c N x total ∧
      total.head = x ∧ total.tail = t ∧ Stored E c v v' t ∧
      (1 ≤ N → ∃ d, v'.cached x = some d ∧ d.tail = t) := by
  have hsize := Forest.length_le_size ha hend.1
  have hnil : ∀ u ∈ ([] : List (H × AttributeDelta H)), u.2.head = x ∧ u.2.tail = u.1 ∧
      ∃ k, k < N ∧ Spans c k x u.2 := by simp
  rcases lastLoop_spec hn hv hend (spans_getNone c x) rfl
      (show N < 0 + (c.size + 1) by omega) hnil (.inr rfl) with
    ⟨total, all, hloop, htotal, hhead, htail, hall, hmem⟩
  rcases storeUpdates_spec htotal hhead hall hr hv with ⟨hstored, hown⟩
  refine ⟨total, storeUpdates total v all, ?_, htotal, hhead, htail, htail ▸ hstored, ?_⟩
  · simp [getDeltaToLast, hloop]
  intro hN
  rcases hmem with hmem | h0
  · exact htail ▸ hown x (.inl hmem)
  · omega

end C2Pool.Sharechain.TrackerView
