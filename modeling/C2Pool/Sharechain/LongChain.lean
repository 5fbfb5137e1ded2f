import C2Pool.Sharechain.ChainView

/-! # Chains longer than the walk of `get_last`

The cycle guard of `get_last` stops after 100001 rounds.  A fork off a chain
that is longer than that is filed under a held share, which then looks like a
tail: removals in the middle of the chain are accepted and the view keeps sums
over the removed part.
-/

namespace C2Pool.Sharechain

open ParentForest FiniteMap Run Relation Finset Forest

/-- The chain `n -> n - 1 -> … -> 1` over the null hash `0`. -/
def linearForest : Nat → Forest Nat Unit
  | 0 => .empty
  | n + 1 => (linearForest n).add (Forest.plainShare (n + 1) n)

theorem linearForest_parent (n x : Nat) :
    (linearForest n).parent x = if 1 ≤ x ∧ x ≤ n then some (x - 1) else none := by
  induction n with
  | zero =>
    rw [if_neg (by omega)]
    simp [linearForest, Forest.empty, Forest.parent]
  | succ n ih =>
    show ((linearForest n).add (Forest.plainShare (n + 1) n)).parent x = _
    rw [parent_add]
    by_cases hx : x = n + 1
    · subst hx
      simp [Forest.plainShare]
    show extend _ (n + 1) n x = _
    rw [extend_of_ne hx, ih]
    by_cases hle : 1 ≤ x ∧ x ≤ n
    · rw [if_pos hle, if_pos (by omega)]
    · rw [if_neg hle, if_neg (by omega)]

variable {n x : Nat}

theorem linearForest_ancestor {k : Nat} (hx : x ≤ n) (hk : k ≤ x) :
    ancestor (linearForest n).parent k x = some (x - k) := by
  induction k with
  | zero => rfl
  | succ k ih =>
    rw [ancestor_succ_last, ih (by omega), Option.bind_some, linearForest_parent, if_pos (by omega)]
    rfl

theorem linearForest_endsAt (hx : x ≤ n) : EndsAt (linearForest n).parent x x 0 := by
  constructor
  · rw [linearForest_ancestor hx le_rfl, Nat.sub_self]
  · rw [linearForest_parent, if_neg (by omega)]

theorem linearForest_acyclic (n : Nat) : Acyclic (linearForest n).parent := by
  apply acyclic_of_rank id
  intro x y hxy
  rw [linearForest_parent] at hxy
  split at hxy
  · cases hxy
    show x - 1 < x
    omega
  · cases hxy

theorem linearForest_isHead {n : Nat} (hn : 1 ≤ n) : IsHead (linearForest n).parent n := by
  constructor
  · rw [linearForest_parent, if_pos (by omega)]
    simp
  intro y hy
  rw [linearForest_parent] at hy
  split at hy
  · have := Option.some.inj hy
    omega
  · cases hy

/-- The forest tables stay right at any length: each new share extends the
head, so no walk is made. -/
theorem linearForest_consistent (n : Nat) : (linearForest n).Consistent := by
  induction n with
  | zero => exact empty_consistent
  | succ n ih =>
    apply ih.add_of_walk
    · show n + 1 ≠ 0
      omega
    · rw [← parent_eq_none_iff, linearForest_parent, if_neg]
      show ¬ (1 ≤ n + 1 ∧ n + 1 ≤ n)
      omega
    · rw [← parent_add]
      exact linearForest_acyclic (n + 1)
    · intro hhead t ht
      have hn : n = 0 := by
        by_contra hn
        exact hhead (ih.mem_heads_iff.mpr (linearForest_isHead (by omega)))
      subst hn
      have hnone : (linearForest 0).parent 0 = none := by
        rw [linearForest_parent, if_neg (by omega)]
      have ht0 : t = 0 := ht.self_of_none hnone
      rw [ht0]
      exact getLastLoop_of_endsAt ih.nullFree (EndsAt.zero_of_none hnone) (by omega)

theorem linearForest_lookup (n x : Nat) :
    (linearForest n).shares.lookup x =
      if 1 ≤ x ∧ x ≤ n then some (Forest.plainShare x (x - 1)) else none := by
  induction n with
  | zero =>
    rw [if_neg (by omega)]
    rfl
  | succ n ih =>
    show ((linearForest n).shares.insert (n + 1) (Forest.plainShare (n + 1) n)).lookup x = _
    rw [lookup_insert_ite]
    by_cases hx : x = n + 1
    · subst hx
      simp
    rw [if_neg hx, ih]
    by_cases hle : 1 ≤ x ∧ x ≤ n
    · rw [if_pos hle, if_pos (by omega)]
    · rw [if_neg hle, if_neg (by omega)]

/-! ## A fork past the guard -/

/-- The fork `n + 1 -> n - 1` off the linear chain of length `n`. -/
def forkShare (n : Nat) : ChainData Nat Unit := Forest.plainShare (n + 1) (n - 1)

def forkedForest (n : Nat) : Forest Nat Unit := (linearForest n).add (forkShare n)

theorem forkedForest_parent (n x : Nat) :
    (forkedForest n).parent x =
      if x = n + 1 then some (n - 1) else if 1 ≤ x ∧ x ≤ n then some (x - 1) else none := by
  unfold forkedForest
  rw [parent_add]
  by_cases hx : x = n + 1
  · rw [if_pos hx, hx]
    simp [forkShare, Forest.plainShare]
  · show extend _ (n + 1) (n - 1) x = _
    rw [if_neg hx, extend_of_ne hx, linearForest_parent]

theorem forkedForest_lookup (hx : x ≠ n + 1) :
    (forkedForest n).shares.lookup x = (linearForest n).shares.lookup x := by
  show ((linearForest n).shares.insert (n + 1) (forkShare n)).lookup x = _
  rw [lookup_insert_ite, if_neg hx]

theorem forkedForest_acyclic (n : Nat) : Acyclic (forkedForest n).parent := by
  apply acyclic_of_rank id
  intro x y hxy
  rw [forkedForest_parent] at hxy
  show y < x
  split at hxy
  · have := Option.some.inj hxy
    omega
  split at hxy
  · have := Option.some.inj hxy
    omega
  · cases hxy

theorem forkedForest_getHeight (hn : 1 ≤ n) : (forkedForest n).getHeight (n + 1) = n := by
  have hfree : (linearForest n).parent (n + 1) = none := by
    rw [linearForest_parent, if_neg (by omega)]
  have hend : EndsAt (forkedForest n).parent (n - 1 + 1) (n + 1) 0 := by
    unfold forkedForest
    rw [parent_add]
    have hbelow := (linearForest_endsAt (n := n) (x := n - 1) (by omega)).extend_of_ne
      (p := n - 1) hfree (by omega)
    exact hbelow.cons extend_self
  have hnull : (forkedForest n).NullFree := by
    show (forkedForest n).parent 0 = none
    rw [forkedForest_parent, if_neg (by omega), if_neg (by omega)]
  rw [getHeight_of_endsAt hnull (forkedForest_acyclic n) hend]
  omega

variable {n : Nat}

/-- The walk from the fork point is cut short `n - 100002` shares above the
end of the chain. -/
theorem linearForest_getLast (hn : 100002 ≤ n) :
    (linearForest n).getLast (n - 1) = n - 100002 := by
  have hwalk := linearForest_ancestor (n := n) (x := n - 1) (k := 100001) (by omega) (by omega)
  rw [show n - 1 - 100001 = n - 100002 by omega] at hwalk
  exact getLastLoop_of_ancestor (linearForest_consistent n).nullFree hwalk

theorem linearForest_headsSet (n : Nat) : (linearForest n).headsSet (n + 1) = {n + 1} := by
  have hnot : n + 1 ∉ (linearForest n).tails := by
    rw [(linearForest_consistent n).mem_tails_iff_child]
    intro htail
    rcases htail with ⟨-, y, hy⟩
    rw [linearForest_parent] at hy
    split at hy
    · have := Option.some.inj hy
      omega
    · cases hy
  unfold Forest.headsSet
  rw [Finmap.lookup_eq_none.mpr hnot]

theorem linearForest_resolvedTail (hn : 100003 ≤ n) :
    (linearForest n).resolvedTail (n - 1) = n - 100002 := by
  have hnot : (linearForest n).heads.lookup (n - 1) = none := by
    rw [Finmap.lookup_eq_none, (linearForest_consistent n).mem_heads_iff]
    intro hhead
    apply hhead.2 n
    rw [linearForest_parent, if_pos (by omega)]
  unfold Forest.resolvedTail
  rw [hnot]
  exact linearForest_getLast (by omega)

theorem forkedForest_tails (hn : 100003 ≤ n) : n - 100002 ∈ (forkedForest n).tails := by
  show n - 100002 ∈ ((linearForest n).calculateHeadTail (n + 1) (n - 1)).tails
  unfold Forest.calculateHeadTail
  rw [linearForest_resolvedTail hn]
  exact Finmap.mem_insert.mpr (.inl rfl)

theorem row_forkedForest_tails (hn : 100003 ≤ n) :
    row (forkedForest n).tails (n - 100002) = {n + 1} := by
  have hnot : n - 100002 ∉ (linearForest n).tails := by
    rw [(linearForest_consistent n).mem_tails_iff_child, linearForest_parent, if_pos (by omega)]
    simp
  show row ((linearForest n).calculateHeadTail (n + 1) (n - 1)).tails (n - 100002) = _
  unfold Forest.calculateHeadTail
  simp only [linearForest_resolvedTail hn, linearForest_headsSet, row_insert, row_erase,
    row_of_notMem hnot, if_true, ite_self, empty_union]
  apply erase_eq_of_notMem
  rw [mem_singleton]
  omega

theorem row_forkedForest_reverse (hn : 100003 ≤ n) :
    row (forkedForest n).reverse (n - 100002) = {n - 100001} := by
  have hsame : row (forkedForest n).reverse (n - 100002) =
      row (linearForest n).reverse (n - 100002) := by
    show row ((linearForest n).reverse.insert (n - 1) _) (n - 100002) = _
    rw [row_insert, if_neg (by omega)]
  rw [hsame]
  ext x
  rw [(linearForest_consistent n).tables.reverse_iff, linearForest_parent, mem_singleton]
  constructor
  · intro hx
    split at hx
    · have := Option.some.inj hx
      omega
    · cases hx
  · intro hx
    rw [if_pos (by omega), hx, show n - 100001 - 1 = n - 100002 by omega]

theorem forkedForest_heads {x : Nat} (hx : 1 ≤ x) (hxn : x < n) :
    (forkedForest n).heads.lookup x = none := by
  have hc := linearForest_consistent n
  show ((linearForest n).calculateHeadTail (n + 1) (n - 1)).heads.lookup x = none
  unfold Forest.calculateHeadTail
  rw [linearForest_headsSet]
  simp only [lookup_assignAll, lookup_erase_ite, mem_singleton]
  rw [if_neg (by omega)]
  split
  · rfl
  rw [Finmap.lookup_eq_none, hc.mem_heads_iff]
  intro hhead
  apply hhead.2 (x + 1)
  rw [linearForest_parent, if_pos (by omega)]
  rfl

theorem forkedForest_tryRemove (hn : 100003 ≤ n) :
    ∃ c', (forkedForest n).tryRemove (n - 100001) = some (.soleChild, c') := by
  have hparent : (forkedForest n).parent (n - 100001) = some (n - 100002) := by
    rw [forkedForest_parent, if_neg (by omega), if_pos (by omega),
      show n - 100001 - 1 = n - 100002 by omega]
  rcases Option.map_eq_some_iff.mp (show ((forkedForest n).shares.lookup _).map _ = _ from
    hparent) with ⟨data, hdata, htail⟩
  have hrow : (row (forkedForest n).reverse (n - 100002)).card ≤ 1 := by
    rw [row_forkedForest_reverse hn, card_singleton]
  have hheads := forkedForest_heads (n := n) (x := n - 100001) (by omega) (by omega)
  have hbranch : ∃ heads tails, (forkedForest n).removeBranch (n - 100001) data.index.tail =
      some (.soleChild, heads, tails) := by
    rw [htail]
    unfold Forest.removeBranch
    simp only [hheads, if_pos (forkedForest_tails hn), if_pos hrow]
    exact ⟨_, _, rfl⟩
  rcases hbranch with ⟨heads, tails, hbranch⟩
  unfold Forest.tryRemove
  simp only [hdata, hbranch]
  exact ⟨_, rfl⟩

/-! ## A stale view -/

namespace ShareChain

def linearOps (n : Nat) : List (Op Nat Unit) :=
  (List.range n).map fun i => .add (Forest.plainShare (i + 1) i)

theorem run_linearOps (n : Nat) :
    run step (empty : ShareChain Nat Unit) (linearOps n) = ⟨linearForest n, .empty, ∅⟩ := by
  induction n with
  | zero => rfl
  | succ n ih =>
    have hops : linearOps (n + 1) = linearOps n ++ [.add (Forest.plainShare (n + 1) n)] := by
      simp [linearOps, List.range_succ]
    rw [hops, run_append, ih]
    rfl

theorem linearOps_admissible (n : Nat) :
    Admissible step (NewShares fun x y => y < x) (empty : ShareChain Nat Unit)
      (linearOps n) := by
  induction n with
  | zero => trivial
  | succ n ih =>
    have hops : linearOps (n + 1) = linearOps n ++ [.add (Forest.plainShare (n + 1) n)] := by
      simp [linearOps, List.range_succ]
    rw [hops, admissible_append, run_linearOps]
    refine ⟨ih, ⟨?_, ?_, ?_⟩, trivial⟩
    · show n + 1 ≠ 0
      omega
    · show n + 1 ∉ (linearForest n).shares
      rw [← parent_eq_none_iff, linearForest_parent, if_neg (by omega)]
    · show n < n + 1
      omega

/-- Build a chain of length `n`, cache its sums, fork it below the head and
remove the share above the cut.  Irreducible, for no statement about a long
chain should be decided by unfolding it. -/
@[irreducible] def forkOps (n : Nat) : List (Op Nat Unit) :=
  linearOps n ++
    [.query (.deltaToLast n), .add (forkShare n), .remove sortedOrder (n - 100001)]

variable {c : ShareChain Nat Unit}

/-- A view that knows only sums to the end of the chain keeps its sum for the
head when the share above the cut is removed. -/
theorem cached_signalView {n : Nat} (hr : c.view.RefsOk (fun x y => y < x) none)
    (htails : ∀ y d, c.view.cached y = some d → d.tail = 0)
    (hparent : c.forest.parent (n - 100001) = some (n - 100002)) (hn : 100003 ≤ n)
    (order : IterationOrder Nat) :
    (c.signalView order (n - 100001) .soleChild).cached n = c.view.cached n := by
  have hnone : c.view.reverseDeltaRefs.lookup (n - 100002) = none := by
    cases href : c.view.reverseDeltaRefs.lookup (n - 100002) with
    | none => rfl
    | some r =>
      rcases (hr.tails _ r).mp href with ⟨δ, hδ, hδt⟩
      rcases hr.live r (Finmap.mem_of_lookup_eq_some hδ) (by simp) with ⟨y, hy⟩
      rcases (hr.group r y).mp hy with ⟨δ1, hδ1⟩
      have hzero := htails y _ (TrackerView.cached_of_lookup hδ1 hδ)
      have hsame : (δ1 + δ).tail = δ.tail := rfl
      omega
  have hspecial : c.view.handleRemoveSpecial c.forest order (n - 100001) = c.view := by
    unfold TrackerView.handleRemoveSpecial
    rw [TrackerView.makeElementDelta_tail hparent, hnone]
  show ((c.view.handleRemoveSpecial c.forest order (n - 100001)).handleRemoved
    (n - 100001)).cached n = _
  rw [hspecial]
  unfold TrackerView.handleRemoved
  rw [(TrackerView.leaveGroup_spec hr (n - 100001)).2.2 n, if_neg (by omega)]

theorem run_forkOps_fork (hn : 100003 ≤ n) :
    ∃ view skips, (((⟨linearForest n, .empty, ∅⟩ : ShareChain Nat Unit).ask
        (.deltaToLast n)).add (forkShare n)) = ⟨forkedForest n, view, skips⟩ ∧
      view.RefsOk (fun x y => y < x) none ∧ (∀ y d, view.cached y = some d → d.tail = 0) ∧
      ∃ d, view.cached n = some d := by
  have hc := linearForest_consistent n
  have hvalues : TrackerView.ValuesOk (linearForest n) (TrackerView.empty : TrackerView Nat) := by
    intro x d h
    simp [TrackerView.empty, TrackerView.cached] at h
  rcases TrackerView.getDeltaToLast_spec hc.nullFree hc.acyclic
      (TrackerView.empty_refsOk (E := fun x y : Nat => y < x)) hvalues
      (linearForest_endsAt (le_refl n)) with
    ⟨total, view, hquery, -, -, -, hstored, hown⟩
  refine ⟨view, ∅, ?_, hstored.refs, ?_, ?_⟩
  · simp [ask, ShareChain.getDeltaToLast, hquery, ShareChain.add, forkedForest]
  · intro y d hy
    rcases hstored.changed y with hsame | hnew
    · rw [hsame] at hy
      simp [TrackerView.empty, TrackerView.cached] at hy
    rcases hnew with ⟨d', hd', ht⟩
    rw [hy] at hd'
    cases hd'
    exact ht
  · rcases hown (by omega) with ⟨d, hd, -⟩
    exact ⟨d, hd⟩

/-- A query that finds a sum to a missing hash answers with it at once. -/
theorem getDeltaToLast_of_cached {x : Nat} {d : AttributeDelta Nat}
    (hnull : c.forest.NullFree) (hx : c.forest.parent x ≠ none) (hd : c.view.cached x = some d)
    (htail : c.forest.parent d.tail = none) :
    (c.getDeltaToLast x).map Prod.fst = some (.getNone x + d) := by
  have hsize : 1 ≤ c.forest.size := card_pos.mpr ⟨x, mem_keys_of_parent x hx⟩
  have hcur := current_tail hnull (AttributeDelta.getNone x).tail
  have hend := current_tail hnull (AttributeDelta.getNone x + d).tail
  have hloop : c.view.lastLoop c.forest (c.forest.size + 1) (.getNone x) [] =
      some (.getNone x + d, [(x, .getNone x)]) := by
    obtain ⟨k, hk⟩ : ∃ k, c.forest.size = k + 1 := ⟨c.forest.size - 1, by omega⟩
    rw [hk]
    unfold TrackerView.lastLoop
    cases hlook : c.forest.current (AttributeDelta.getNone x).tail with
    | none =>
      rw [hlook] at hcur
      exact absurd hcur.symm hx
    | some data =>
      have hget : c.view.getDeltaLocked c.forest (AttributeDelta.getNone x).tail = d := by
        show (c.view.cached x).getD _ = d
        rw [hd]
        rfl
      simp only [hget]
      unfold TrackerView.lastLoop
      cases hstop : c.forest.current (AttributeDelta.getNone x + d).tail with
      | none => rfl
      | some data' =>
        rw [hstop] at hend
        exact absurd (hend.trans htail) (by simp)
  simp [ShareChain.getDeltaToLast, TrackerView.getDeltaToLast, hloop]

theorem ancestor_above_cut {n : Nat} {c : Forest Nat Unit} (hn : 100003 ≤ n)
    (hshares : c.shares = (forkedForest n).shares.erase (n - 100001)) {k y : Nat}
    (h : ancestor c.parent k n = some y) : n - 100001 ≤ y ∧ y ≤ n := by
  induction k generalizing y with
  | zero =>
    have hny : n = y := by simpa using h
    omega
  | succ k ih =>
    rw [ancestor_succ_last] at h
    rcases Option.bind_eq_some_iff.mp h with ⟨z, hz, hzy⟩
    have hz' := ih hz
    rw [parent_erase hshares] at hzy
    split at hzy
    · cases hzy
    rw [forkedForest_parent, if_neg (by omega), if_pos (by omega)] at hzy
    have := Option.some.inj hzy
    omega

theorem not_queriesAgree_of_fork (hn : 100003 ≤ n) (order : IterationOrder Nat)
    (hc : c = (((⟨linearForest n, .empty, ∅⟩ : ShareChain Nat Unit).ask
      (.deltaToLast n)).add (forkShare n)).step (.remove order (n - 100001))) :
    n ∈ c.forest.shares ∧ ¬ QueriesAgree c n := by
  rcases run_forkOps_fork hn with ⟨view, skips, hfork, hrefs, htails, d, hd⟩
  rcases forkedForest_tryRemove hn with ⟨forest, hremove⟩
  have hshares := shares_tryRemove hremove
  have hcut : (forkedForest n).parent (n - 100001) = some (n - 100002) := by
    rw [forkedForest_parent, if_neg (by omega), if_pos (by omega),
      show n - 100001 - 1 = n - 100002 by omega]
  rw [hfork] at hc
  have hview := cached_signalView (c := ⟨forkedForest n, view, skips⟩) hrefs htails hcut hn order
  have hforest : c.forest = forest ∧
      c.view = (⟨forkedForest n, view, skips⟩ : ShareChain Nat Unit).signalView order
        (n - 100001) .soleChild := by
    rw [hc]
    simp [step, ShareChain.remove, hremove]
  have hparent : ∀ x, c.forest.parent x =
      if x = n - 100001 then none else (forkedForest n).parent x := by
    rw [hforest.1]
    exact parent_erase hshares
  have hheld : c.forest.parent n ≠ none := by
    rw [hparent, if_neg (by omega), forkedForest_parent, if_neg (by omega), if_pos (by omega)]
    simp
  have hzero : c.forest.parent 0 = none := by
    rw [hparent, if_neg (by omega), forkedForest_parent, if_neg (by omega), if_neg (by omega)]
  have hcached : c.view.cached n = some d := by
    rw [hforest.2, hview]
    exact hd
  refine ⟨Finmap.mem_keys.mp (mem_keys_of_parent n hheld), ?_⟩
  intro hagree
  rcases hagree with ⟨d', hlast, hquery, -⟩
  rw [getDeltaToLast_of_cached hzero hheld hcached (by rw [htails n d hd]; exact hzero)] at hquery
  rcases hlast.sums with ⟨k, hk⟩
  have htail : d'.tail = 0 := by
    rw [← Option.some.inj hquery]
    exact htails n d hd
  have habove := ancestor_above_cut hn (hforest.1 ▸ hshares) hk.reaches
  omega

theorem forkOps_admissible {n : Nat} (hn : 100003 ≤ n) :
    Admissible step (NewShares fun x y => y < x) (empty : ShareChain Nat Unit) (forkOps n) := by
  have hforest : ((⟨linearForest n, .empty, ∅⟩ : ShareChain Nat Unit).ask
      (.deltaToLast n)).forest = linearForest n := by
    rw [ask_forest]
  unfold forkOps
  rw [admissible_append, run_linearOps]
  refine ⟨linearOps_admissible n, trivial, ⟨?_, ?_, ?_⟩, trivial, trivial⟩
  · show n + 1 ≠ 0
    omega
  · show n + 1 ∉ ((⟨linearForest n, .empty, ∅⟩ : ShareChain Nat Unit).ask
      (.deltaToLast n)).forest.shares
    rw [hforest, ← parent_eq_none_iff, linearForest_parent, if_neg (by omega)]
  · show n - 1 < n + 1
    omega

theorem forkOps_stale {n : Nat} (hn : 100003 ≤ n) :
    n ∈ (run step (empty : ShareChain Nat Unit) (forkOps n)).forest.shares ∧
      ¬ QueriesAgree (run step (empty : ShareChain Nat Unit) (forkOps n)) n := by
  apply not_queriesAgree_of_fork hn sortedOrder
  unfold forkOps
  rw [run_append, run_linearOps]
  rfl

/-- Without a bound on the length of chains the view can go stale: after the
removal the cached sum of the head still runs over the removed share to the
old end of the chain. -/
theorem queries_stale_on_long_chain :
    (∀ x, ¬ TransGen (fun a b : Nat => b < a) x x) ∧
      Admissible step (NewShares fun x y => y < x) (empty : ShareChain Nat Unit)
        (forkOps 100003) ∧
      100003 ∈ (run step (empty : ShareChain Nat Unit) (forkOps 100003)).forest.shares ∧
      ¬ QueriesAgree (run step (empty : ShareChain Nat Unit) (forkOps 100003)) 100003 :=
  ⟨lt_acyclic, forkOps_admissible (le_refl 100003), forkOps_stale (le_refl 100003)⟩

end ShareChain

end C2Pool.Sharechain
