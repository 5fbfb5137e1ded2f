import C2Pool.Ltc.Pruning
import C2Pool.Sharechain.LongChain

/-! # The verified chain borrows from the chain

While no chain is longer than `get_last` can walk, both forests of the tracker
are consistent, the verified one is a sub-forest of the other, and a share that
can leave the chain can leave the verified chain too.  On longer chains a false
tail lets a share in the middle go while it is still verified.
-/

namespace C2Pool.Sharechain.Forest

open ParentForest FiniteMap

variable {H S : Type} [DecidableEq H] [Inhabited H] {c : Forest H S}

/-- `remove` succeeds on the heads and on the shares next to a missing parent,
and on no other. -/
theorem Consistent.remove_iff (hc : c.Consistent) {h p : H} (hp : c.parent h = some p) :
    (c.remove h).1 = true ↔ IsHead c.parent h ∨ c.parent p = none := by
  rcases Option.map_eq_some_iff.mp hp with ⟨data, hdata, rfl⟩
  have htail : data.index.tail ∈ c.tails ↔ c.parent data.index.tail = none := by
    rw [hc.mem_tails_iff_child]
    exact ⟨fun h => h.1, fun h => ⟨h, _, hp⟩⟩
  have hremove : (c.remove h).1 = (c.removeBranch h data.index.tail).isSome := by
    unfold Forest.remove Forest.tryRemove
    simp only [hdata]
    cases c.removeBranch h data.index.tail <;> rfl
  rw [hremove, ← hc.mem_heads_iff, ← htail]
  unfold removeBranch
  cases hh : c.heads.lookup h with
  | some tail =>
    have hmem : h ∈ c.heads := Finmap.mem_of_lookup_eq_some hh
    simp only [hmem, true_or, iff_true]
    split
    · rfl
    · split <;> rfl
  | none =>
    have hmem : h ∉ c.heads := Finmap.lookup_eq_none.mp hh
    simp only [hmem, false_or]
    split
    · rename_i ht
      simp only [ht, iff_true]
      split <;> rfl
    · rename_i ht
      simp [ht]

theorem remove_of_notMem {h : H} (hh : h ∉ c.shares) : c.remove h = (false, c) := by
  simp [Forest.remove, Forest.tryRemove, Finmap.lookup_eq_none.mpr hh]

end C2Pool.Sharechain.Forest

namespace C2Pool.Ltc.Tracker

open Sharechain ParentForest FiniteMap Run Relation

variable {H S : Type} [DecidableEq H] {x : H} {n : Nat} {verified chain : Forest H S}
  {E : H → H → Prop} {t : Tracker H S}

def Borrows (verified chain : Forest H S) : Prop :=
  ∀ x data, verified.shares.lookup x = some data → chain.shares.lookup x = some data

theorem Borrows.parent (h : Borrows verified chain) {y : H}
    (hxy : verified.parent x = some y) : chain.parent x = some y := by
  rcases Option.map_eq_some_iff.mp hxy with ⟨data, hdata, rfl⟩
  exact Forest.parent_of_lookup (h x data hdata)

variable [Inhabited H]

theorem Borrows.remove (h : Borrows verified chain)
    (hc : chain.Consistent) (hv : verified.Consistent) (hx : x ∈ verified.shares)
    (hr : (chain.remove x).1 = true) : (verified.remove x).1 = true := by
  rcases Finmap.mem_iff.mp hx with ⟨data, hdata⟩
  have hp := Forest.parent_of_lookup hdata
  rw [hv.remove_iff hp]
  rcases (hc.remove_iff (h.parent hp)).mp hr with hhead | hmissing
  · left
    constructor
    · simp [hp]
    · intro y hy
      exact hhead.2 y (h.parent hy)
  right
  cases hq : verified.parent data.index.tail with
  | none => rfl
  | some q => simp [h.parent hq] at hmissing

/-! ## The invariant -/

/-- The invariant of the two chains over an acyclic previous-hash relation. -/
structure Invariant (E : H → H → Prop) (t : Tracker H S) : Prop where
  chain : t.chain.Consistent
  verified : t.verified.Consistent
  shallow : t.chain.Shallow
  edges : ∀ x y, t.chain.parent x = some y → E x y
  keyed : ∀ x data, t.chain.shares.lookup x = some data → data.index.head = x
  borrows : Borrows t.verified t.chain
  paired : ∀ r ∈ t.removals, r.fromChain = true → r.borrowed = true → r.fromVerified = true

theorem empty_invariant : Invariant E (empty : Tracker H S) := by
  have hshallow : (Forest.empty : Forest H S).Shallow := by
    apply Forest.shallow_of_size_le Forest.empty_consistent.acyclic
    simp [Forest.empty, Forest.size]
  refine ⟨Forest.empty_consistent, Forest.empty_consistent, hshallow, ?_, ?_, ?_, ?_⟩
  · intro x y h
    simp [empty, Forest.empty, Forest.parent] at h
  · intro x data h
    simp [empty, Forest.empty] at h
  · intro x data h
    simp [empty, Forest.empty] at h
  · intro r hr
    cases hr

theorem Invariant.verified_shallow (h : Invariant E t) : t.verified.Shallow :=
  h.shallow.of_subforest h.chain.acyclic fun _ _ => h.borrows.parent

theorem Invariant.add (hE : ∀ x, ¬ TransGen E x x) (h : Invariant E t) {data : ChainData H S}
    (hnull : data.index.head ≠ default) (hedge : E data.index.head data.index.tail)
    (hshallow : (t.add data).chain.Shallow) : Invariant E (t.add data) := by
  unfold Tracker.add at hshallow ⊢
  split at hshallow
  · rename_i hheld
    rw [if_pos hheld]
    exact h
  rename_i hnew
  rw [if_neg hnew]
  have hedges : ∀ x y, (t.chain.add data).parent x = some y → E x y := by
    intro x y hxy
    rw [Forest.parent_add, extend_eq_some_iff] at hxy
    rcases hxy with ⟨rfl, rfl⟩ | ⟨-, hxy⟩
    · exact hedge
    · exact h.edges x y hxy
  have hacyclic := ShareChain.acyclic_of_edges hE hedges
  rw [Forest.parent_add] at hacyclic
  have hlookup : ∀ x data', (t.chain.add data).shares.lookup x = some data' →
      (x = data.index.head ∧ data' = data) ∨ t.chain.shares.lookup x = some data' := by
    intro x data' hx
    have hx' : (t.chain.shares.insert data.index.head data).lookup x = some data' := hx
    rw [lookup_insert_ite] at hx'
    split at hx'
    · rename_i hxd
      exact .inl ⟨hxd, (Option.some.inj hx').symm⟩
    · exact .inr hx'
  refine ⟨h.chain.add h.shallow hnull hnew hacyclic, h.verified, hshallow, hedges, ?_, ?_, h.paired⟩
  · intro x data' hx
    rcases hlookup x data' hx with ⟨rfl, rfl⟩ | hx
    · rfl
    · exact h.keyed x data' hx
  intro x data' hx
  have hx' := h.borrows x data' hx
  show (t.chain.shares.insert data.index.head data).lookup x = some data'
  rw [lookup_insert_ite, if_neg]
  · exact hx'
  · intro hxd
    exact hnew (hxd ▸ Finmap.mem_of_lookup_eq_some hx')

theorem Invariant.attemptVerify (h : Invariant E t) (passes : Tracker H S → H → Bool) (hash : H) :
    Invariant E (t.attemptVerify passes hash).2 := by
  unfold Tracker.attemptVerify
  split
  · exact h
  rename_i hnew
  cases hdata : t.chain.shares.lookup hash with
  | none => exact h
  | some data =>
    show Invariant E (if passes t hash = true then _ else _ : Bool × Tracker H S).2
    split
    · have hhead := h.keyed hash data hdata
      have hparent := Forest.parent_of_lookup hdata
      have hnull : data.index.head ≠ default := by
        intro hdef
        have hfree : t.chain.parent default = none := h.chain.nullFree
        rw [← hdef, hhead, hparent] at hfree
        cases hfree
      have hsub : ∀ x y, extend t.verified.parent data.index.head data.index.tail x = some y →
          t.chain.parent x = some y := by
        intro x y hxy
        rcases extend_eq_some_iff.mp hxy with ⟨rfl, rfl⟩ | ⟨-, hxy⟩
        · rw [hhead]
          exact hparent
        · exact h.borrows.parent hxy
      have hverified := h.verified.add h.verified_shallow hnull (hhead ▸ hnew)
        (h.chain.acyclic.mono hsub)
      refine { h with verified := hverified, borrows := ?_ }
      intro x data' hx
      have hx' : (t.verified.shares.insert data.index.head data).lookup x = some data' := hx
      rw [lookup_insert_ite] at hx'
      split at hx'
      · rename_i hxd
        cases hx'
        rw [hxd, hhead]
        exact hdata
      · exact h.borrows x data' hx'
    · exact h

theorem Invariant.removeShare (h : Invariant E t) (hash : H) :
    Invariant E (t.removeShare hash) := by
  have hguard : (if hash ∈ t.verified.shares then t.verified.remove hash
      else (false, t.verified)) = t.verified.remove hash := by
    split
    · rfl
    · rename_i hnot
      rw [Forest.remove_of_notMem hnot]
  unfold Tracker.removeShare
  simp only [hguard]
  have hsub : ∀ x y, (t.chain.remove hash).2.parent x = some y → t.chain.parent x = some y := by
    intro x y hxy
    rcases Option.map_eq_some_iff.mp hxy with ⟨data, hdata, rfl⟩
    exact Forest.parent_of_lookup ((Forest.lookup_remove_iff _ _ _ _).mp hdata).1
  refine ⟨h.chain.remove h.shallow hash, h.verified.remove h.verified_shallow hash,
    h.shallow.of_subforest h.chain.acyclic hsub, fun x y hxy => h.edges x y (hsub x y hxy),
    ?_, ?_, ?_⟩
  · intro x data hx
    exact h.keyed x data ((Forest.lookup_remove_iff _ _ _ _).mp hx).1
  · intro x data hx
    rcases (Forest.lookup_remove_iff _ _ _ _).mp hx with ⟨hx, hkept⟩
    apply (Forest.lookup_remove_iff _ _ _ _).mpr
    refine ⟨h.borrows x data hx, ?_⟩
    intro hgone
    apply hkept
    refine ⟨h.borrows.remove h.chain h.verified ?_ hgone.1, hgone.2⟩
    rw [← hgone.2]
    exact Finmap.mem_of_lookup_eq_some hx
  · intro r hr
    rcases List.mem_append.mp hr with hr | hr
    · exact h.paired r hr
    rw [List.mem_singleton.mp hr]
    intro hchain hborrowed
    exact h.borrows.remove h.chain h.verified (of_decide_eq_true hborrowed) hchain

theorem Invariant.walkHead {passes : Tracker H S → H → Bool} (hashes : List H) {p : Phase1 H S}
    (h : Invariant E p.tracker) : Invariant E (walkHead passes hashes p).tracker := by
  induction hashes generalizing p with
  | nil => exact h
  | cons hash rest ih =>
    have hout := h.attemptVerify passes hash
    unfold Tracker.walkHead
    dsimp only
    split
    · exact hout
    split
    · exact hout
    · exact ih hout

theorem Invariant.thinkPhase1 (h : Invariant E t)
    (passes : Tracker H S → H → Bool) (chainLength : Nat) (order : IterationOrder H)
    (bootstrap : Bool) : Invariant E (thinkPhase1 passes chainLength order bootstrap t) := by
  unfold Tracker.thinkPhase1
  apply List.foldlRecOn
  · apply List.foldlRecOn (motive := fun p => Invariant E (Phase1.tracker p))
    · exact h
    intro p hp head _
    unfold visitHead
    split
    · exact hp
    split
    · exact hp
    split
    · exact hp
    · exact hp.walkHead _
  intro t' ht' bad _
  unfold removeBad
  split
  · exact ht'
  split
  · exact ht'
  · exact ht'.removeShare bad

theorem Invariant.eatHeads (h : Invariant E t) (order : IterationOrder H)
    (retained : Tracker H S → H → Bool) (rounds : Nat) :
    Invariant E (eatHeads order retained rounds t) := by
  induction rounds generalizing t with
  | zero => exact h
  | succ rounds ih =>
    unfold Tracker.eatHeads
    split
    · exact h
    apply ih
    apply List.foldlRecOn
    · exact h
    · intro t' ht' hash _
      exact ht'.removeShare hash

theorem Invariant.dropTails (h : Invariant E t) (order : IterationOrder H)
    (chainLength : Nat) (spared : Tracker H S → H → Bool) (rounds : Nat) :
    Invariant E (dropTails order chainLength spared rounds t) := by
  induction rounds generalizing t with
  | zero => exact h
  | succ rounds ih =>
    unfold Tracker.dropTails
    split
    · exact h
    apply ih
    apply List.foldlRecOn
    · exact h
    intro t' ht' hash _
    unfold dropAfterTail
    split
    · exact ht'
    split
    · exact ht'
    · exact ht'.removeShare hash

/-- Shares of the relation `E` with non-null hashes. -/
def ProperShares (E : H → H → Prop) (_ : Tracker H S) : Op H S → Prop
  | .add data => data.index.head ≠ default ∧ E data.index.head data.index.tail
  | .verify _ _ | .think _ _ _ _ | .eatHeads _ _ | .dropTails _ _ _ => True

/-- Proper shares, and no chain outgrows the walk of `get_last`. -/
def ShallowShares (E : H → H → Prop) (t : Tracker H S) : Op H S → Prop
  | .add data =>
    (data.index.head ≠ default ∧ E data.index.head data.index.tail) ∧ (t.add data).chain.Shallow
  | .verify _ _ | .think _ _ _ _ | .eatHeads _ _ | .dropTails _ _ _ => True

theorem step_invariant (hE : ∀ x, ¬ TransGen E x x) (t : Tracker H S) (op : Op H S)
    (h : Invariant E t) (hop : ShallowShares E t op) : Invariant E (t.step op) := by
  cases op with
  | add data => exact h.add hE hop.1.1 hop.1.2 hop.2
  | verify passes hash => exact h.attemptVerify passes hash
  | think passes chainLength order bootstrap =>
    exact h.thinkPhase1 passes chainLength order bootstrap
  | eatHeads order retained => exact h.eatHeads order retained 1000
  | dropTails order chainLength spared => exact h.dropTails order chainLength spared 1000

/-- In every run whose chains stay within reach of `get_last`, verified shares
are shares of the chain, and no share left the chain while it was verified
without leaving the verified chain first. -/
theorem run_verified_within_chain (hE : ∀ x, ¬ TransGen E x x) (ops : List (Op H S))
    (hops : Admissible step (ShallowShares E) empty ops) :
    Borrows (run step empty ops).verified (run step empty ops).chain ∧
      ∀ r ∈ (run step empty ops).removals,
        r.fromChain = true → r.borrowed = true → r.fromVerified = true := by
  have h := run_invariant (step_invariant hE) empty_invariant hops
  exact ⟨h.borrows, h.paired⟩

/-- Three shares, of which the upper two are verified; the tail is dropped, and
then the head is eaten. -/
def prunedOps : List (Op Nat Unit) :=
  [.add (Forest.plainShare 1 0), .add (Forest.plainShare 2 1), .add (Forest.plainShare 3 2),
    .verify (fun _ _ => true) 2, .verify (fun _ _ => true) 3,
    .think (fun _ _ => false) 5 sortedOrder false, .eatHeads sortedOrder fun _ h => h ≠ 3]

theorem prunedOps_admissible :
    Admissible step (ShallowShares fun x y => y < x) (empty : Tracker Nat Unit) prunedOps := by
  have hlinear : ∀ n ≤ 3, (linearForest n).Shallow := by
    intro n hn
    have hsize : ∀ m < 4, (linearForest m).size ≤ 100001 := by decide
    exact Forest.shallow_of_size_le (linearForest_acyclic n) (hsize n (by omega))
  exact ⟨⟨⟨by decide, by decide⟩, hlinear 1 (by decide)⟩,
    ⟨⟨by decide, by decide⟩, hlinear 2 (by decide)⟩,
    ⟨⟨by decide, by decide⟩, hlinear 3 (by decide)⟩, trivial, trivial, trivial, trivial, trivial⟩

theorem run_verified_within_chain_prunedOps :
    Borrows (run step (empty : Tracker Nat Unit) prunedOps).verified
      (run step (empty : Tracker Nat Unit) prunedOps).chain :=
  (run_verified_within_chain ShareChain.lt_acyclic prunedOps prunedOps_admissible).1

/-! ## Chains out of reach -/

/-- The order that lists `x` first. -/
def orderFirst (x : Nat) : IterationOrder Nat where
  list s := if x ∈ s then x :: (s.erase x).sort else s.sort
  mem_list s y := by
    by_cases hx : x ∈ s
    · by_cases hy : y = x <;> simp [hx, hy]
    · simp [hx]
  nodup s := by
    by_cases hx : x ∈ s <;> simp [hx]

/-- A share that is verified but no longer in the chain. -/
def Orphan (t : Tracker H S) (x : H) : Prop :=
  x ∈ t.verified.shares ∧ x ∉ t.chain.shares

theorem Orphan.dropAfterTail (h : Orphan t x) (aftertail : H) :
    Orphan (t.dropAfterTail aftertail) x := by
  unfold Tracker.dropAfterTail
  cases hdata : t.chain.shares.lookup aftertail with
  | none => exact h
  | some data =>
    show Orphan (if _ then _ else _) x
    split
    · exact h
    have hne : x ≠ aftertail := by
      intro hx
      exact h.2 (hx ▸ Finmap.mem_of_lookup_eq_some hdata)
    constructor
    · rcases Finmap.mem_iff.mp h.1 with ⟨d, hd⟩
      show x ∈ (if aftertail ∈ t.verified.shares then t.verified.remove aftertail
        else (false, t.verified)).2.shares
      split
      · apply Finmap.mem_of_lookup_eq_some
        exact (Forest.lookup_remove_iff _ _ _ d).mpr ⟨hd, fun hgone => hne hgone.2⟩
      · exact h.1
    intro hx
    rcases Finmap.mem_iff.mp hx with ⟨d, hd⟩
    exact h.2 (Finmap.mem_of_lookup_eq_some ((Forest.lookup_remove_iff _ _ _ d).mp hd).1)

theorem Orphan.foldl (h : Orphan t x) (hashes : List H) :
    Orphan (hashes.foldl Tracker.dropAfterTail t) x := by
  induction hashes generalizing t with
  | nil => exact h
  | cons hash rest ih => exact ih (h.dropAfterTail hash)

theorem Orphan.dropTails {x : H} (h : Orphan t x) (order : IterationOrder H)
    (chainLength : Nat) (spared : Tracker H S → H → Bool) (rounds : Nat) :
    Orphan (dropTails order chainLength spared rounds t) x := by
  induction rounds generalizing t with
  | zero => exact h
  | succ rounds ih =>
    unfold Tracker.dropTails
    split
    · exact h
    · exact ih (h.foldl _)

def linearOps (n : Nat) : List (Op Nat Unit) :=
  (List.range n).map fun i => .add (Forest.plainShare (i + 1) i)

theorem run_linearOps (n : Nat) :
    run step (empty : Tracker Nat Unit) (linearOps n) = ⟨linearForest n, .empty, []⟩ := by
  induction n with
  | zero => rfl
  | succ n ih =>
    have hops : linearOps (n + 1) = linearOps n ++ [.add (Forest.plainShare (n + 1) n)] := by
      simp [linearOps, List.range_succ]
    have hnew : n + 1 ∉ (linearForest n).shares := by
      rw [← Forest.parent_eq_none_iff, linearForest_parent, if_neg (by omega)]
    rw [hops, run_append, ih]
    show Tracker.add ⟨linearForest n, .empty, []⟩ (Forest.plainShare (n + 1) n) = _
    exact if_neg hnew

/-- Build a chain of length `n` and fork it below its head, verify the lowest
three shares and drop tails.  Irreducible, for no statement about a long chain
should be decided by unfolding it. -/
@[irreducible] def outlivedOps (n : Nat) : List (Op Nat Unit) :=
  linearOps n ++
    [.add (forkShare n), .verify (fun _ _ => true) 1, .verify (fun _ _ => true) 2,
      .verify (fun _ _ => true) 3, .dropTails (orderFirst 1) 8640 fun _ _ => false]

theorem outlivedOps_admissible (hn : 1 ≤ n) :
    Admissible step (ProperShares fun x y => y < x) (empty : Tracker Nat Unit)
      (outlivedOps n) := by
  unfold outlivedOps
  rw [admissible_append]
  constructor
  · unfold linearOps
    generalize (empty : Tracker Nat Unit) = t
    induction List.range n generalizing t with
    | nil => trivial
    | cons i rest ih => exact ⟨⟨Nat.succ_ne_zero i, Nat.lt_succ_self i⟩, ih _⟩
  refine ⟨⟨Nat.succ_ne_zero n, ?_⟩, trivial, trivial, trivial, trivial, trivial⟩
  show n - 1 < n + 1
  omega

theorem attemptVerify_lowest {m : Nat} (hm : m < n) :
    (⟨forkedForest n, linearForest m, []⟩ : Tracker Nat Unit).attemptVerify (fun _ _ => true)
      (m + 1) = (true, ⟨forkedForest n, linearForest (m + 1), []⟩) := by
  have hnew : m + 1 ∉ (linearForest m).shares := by
    rw [← Forest.parent_eq_none_iff, linearForest_parent, if_neg (by omega)]
  have hheld : (forkedForest n).shares.lookup (m + 1) = some (Forest.plainShare (m + 1) m) := by
    rw [forkedForest_lookup (by omega), linearForest_lookup, if_pos (by omega)]
    rfl
  unfold Tracker.attemptVerify
  rw [if_neg hnew]
  simp only [hheld]
  rfl

theorem minHeight_forkedForest (hn : 1 ≤ n) : minHeight (forkedForest n) [n + 1] = n := by
  have hheld : n + 1 ∈ (forkedForest n).shares := by
    exact Finmap.mem_insert.mpr (.inl rfl)
  simp [minHeight, hheld, forkedForest_getHeight hn]

theorem afterTails_forkedForest (hn : n = 100003) (verified : Forest Nat Unit) :
    ∃ rest, afterTails (orderFirst 1) 8640 (fun _ _ => false)
      (⟨forkedForest n, verified, []⟩ : Tracker Nat Unit) = 2 :: rest := by
  have hcut : n - 100002 = 1 ∧ n - 100001 = 2 := by omega
  have htails := forkedForest_tails (n := n) (by omega)
  have hrow := row_forkedForest_tails (n := n) (by omega)
  have hreverse := row_forkedForest_reverse (n := n) (by omega)
  rw [hcut.1] at htails hrow hreverse
  rw [hcut.2] at hreverse
  have hkeys : (orderFirst 1).list (forkedForest n).tails.keys =
      1 :: ((forkedForest n).tails.keys.erase 1).sort := if_pos (Finmap.mem_keys.mpr htails)
  have hheads : (orderFirst 1).list ({n + 1} : Finset Nat) = [n + 1] := by
    have hne : ¬ n = 0 := by omega
    simp [orderFirst, hne]
  have hchildren : (orderFirst 1).list ({2} : Finset Nat) = [2] := by
    simp [orderFirst]
  unfold afterTails
  simp only [hkeys, List.flatMap_cons]
  rw [hrow, hheads, minHeight_forkedForest (by omega), hreverse, hchildren, if_neg (by decide),
    if_neg (by omega)]
  exact ⟨_, rfl⟩

theorem dropAfterTail_orphan (hn : n = 100003) :
    Orphan ((⟨forkedForest n, linearForest 3, []⟩ : Tracker Nat Unit).dropAfterTail 2) 2 := by
  have htails := forkedForest_tails (n := n) (by omega)
  rcases forkedForest_tryRemove (n := n) (by omega) with ⟨c, hremove⟩
  rw [show n - 100002 = 1 by omega] at htails
  rw [show n - 100001 = 2 by omega] at hremove
  have hheld : (forkedForest n).shares.lookup 2 = some (Forest.plainShare 2 1) := by
    rw [forkedForest_lookup (by omega), linearForest_lookup, if_pos (by omega)]
  have hrefused : (linearForest 3).remove 2 = (false, linearForest 3) := by
    have hparent : (linearForest 3).parent 2 = some 1 := by
      rw [linearForest_parent, if_pos (by omega)]
    have hfalse : (((linearForest 3).remove 2).1 = true) → False := by
      rw [(linearForest_consistent 3).remove_iff hparent]
      intro h
      rcases h with hhead | hmissing
      · apply hhead.2 3
        rw [linearForest_parent, if_pos (by omega)]
      · rw [linearForest_parent, if_pos (by omega)] at hmissing
        cases hmissing
    have hbool := Bool.eq_false_iff.mpr hfalse
    exact Prod.ext hbool (Forest.remove_eq_self_of_false hbool)
  have hverified : 2 ∈ (linearForest 3).shares := by
    apply Finmap.mem_of_lookup_eq_some
    rw [linearForest_lookup, if_pos (by omega)]
  have hdrop : (⟨forkedForest n, linearForest 3, []⟩ : Tracker Nat Unit).dropAfterTail 2 =
      (⟨forkedForest n, linearForest 3, []⟩ : Tracker Nat Unit).removeShare 2 := by
    unfold Tracker.dropAfterTail
    simp only [hheld]
    exact if_neg (not_not.mpr htails)
  rw [hdrop]
  unfold Tracker.removeShare
  refine ⟨hverified, ?_⟩
  show 2 ∉ ((forkedForest n).remove 2).2.shares
  unfold Forest.remove
  simp only [hremove]
  rw [Forest.shares_tryRemove hremove, Finmap.mem_erase]
  simp

theorem outlivedOps_orphan (hn : n = 100003) :
    Orphan (run step (empty : Tracker Nat Unit) (outlivedOps n)) 2 := by
  have hfork : (⟨linearForest n, .empty, []⟩ : Tracker Nat Unit).add (forkShare n) =
      ⟨forkedForest n, linearForest 0, []⟩ := by
    have hnew : n + 1 ∉ (linearForest n).shares := by
      rw [← Forest.parent_eq_none_iff, linearForest_parent, if_neg (by omega)]
    exact if_neg hnew
  unfold outlivedOps
  rw [run_append, run_linearOps]
  simp only [run_cons, run_nil, step, hfork, attemptVerify_lowest (n := n) (m := 0) (by omega),
    attemptVerify_lowest (n := n) (m := 1) (by omega),
    attemptVerify_lowest (n := n) (m := 2) (by omega)]
  rcases afterTails_forkedForest hn (linearForest 3) with ⟨rest, hafter⟩
  unfold Tracker.dropTails
  simp only [hafter]
  apply Orphan.dropTails
  exact (dropAfterTail_orphan hn).foldl rest

/-- Without a bound on the length of chains a verified share can outlive its
owner: the share above a false tail is dropped from the chain while the
verified chain, whose tables are right, refuses to let it go. -/
theorem verified_outlives_long_chain :
    (∀ x, ¬ TransGen (fun a b : Nat => b < a) x x) ∧
      Admissible step (ProperShares fun x y => y < x) (empty : Tracker Nat Unit)
        (outlivedOps 100003) ∧
      2 ∈ (run step (empty : Tracker Nat Unit) (outlivedOps 100003)).verified.shares ∧
      2 ∉ (run step (empty : Tracker Nat Unit) (outlivedOps 100003)).chain.shares :=
  ⟨ShareChain.lt_acyclic, outlivedOps_admissible (by omega), outlivedOps_orphan rfl⟩

end C2Pool.Ltc.Tracker
