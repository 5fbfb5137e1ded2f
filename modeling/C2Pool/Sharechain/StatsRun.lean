import C2Pool.Sharechain.ForestRun
import C2Pool.Sharechain.StatsSkipList

/-! # Dashboard statistics over a run

Nodes cached by earlier queries stay true of the shares they count, but they
may end before the window of a later query does, or reach past what is still
held: a share cached by a short query hides its ancestors from a longer one,
and a node built for a missing parent counts nothing once the parent is there.
-/

namespace C2Pool.Sharechain

open Run ParentForest FiniteMap Forest Finmap

variable {H : Type} [DecidableEq H] [Inhabited H]

/-- The chain and its statistics skip list; a share is known by its delta. -/
structure StatsTracker (H : Type) where
  chain : Forest H StatsDelta
  nodes : StatsNodes H

namespace StatsTracker

def empty : StatsTracker H := ⟨.empty, ∅⟩

def getDelta (chain : Forest H StatsDelta) (hash : H) : StatsDelta :=
  match chain.shares.lookup hash with
  | some data => data.share
  | none => .empty

def query (t : StatsTracker H) (draw : H → Nat) (start : H) (maxShares : Nat) :
    StatsDelta × StatsTracker H :=
  let out := t.nodes.query (ShareChain.previous t.chain) (getDelta t.chain) draw start maxShares
  (out.1, { t with nodes := out.2 })

/-- The `i`-th hash of the chain of `start`. -/
def hashAt (t : StatsTracker H) (start : H) (i : Nat) : H :=
  (ShareChain.previous t.chain)^[i] start

/-- The counts of the held shares among the first `maxShares`, for a start
with `len` held shares. -/
def IsCount (t : StatsTracker H) (start : H) (maxShares len : Nat) (r : StatsDelta) : Prop :=
  r.shareCount = min maxShares len ∧
    ∀ f, r.get f = ∑ i ∈ Finset.range (min maxShares len),
      (getDelta t.chain (t.hashAt start i)).get f

/-- Nothing calls `forget` when a share is removed. -/
inductive Op (H : Type) where
  | add (data : ChainData H StatsDelta)
  | remove (hash : H)
  | forget (hash : H)
  | query (draw : H → Nat) (start : H) (maxShares : Nat)

def step (t : StatsTracker H) : Op H → StatsTracker H
  | .add data => { t with chain := t.chain.add data }
  | .remove hash => { t with chain := (t.chain.remove hash).2 }
  | .forget hash => { t with nodes := t.nodes.forget hash }
  | .query draw start maxShares => (t.query draw start maxShares).2

def Allowed (prev : H → H) (delta : H → StatsDelta) (_ : StatsTracker H) : Op H → Prop
  | .add data =>
    data.index.head ≠ default ∧ data.index.tail = prev data.index.head ∧
      data.share = delta data.index.head
  | .remove _ => True
  | .forget _ => True
  | .query _ _ _ => True

instance (prev : H → H) (delta : H → StatsDelta) (t : StatsTracker H) :
    ∀ op, Decidable (Allowed prev delta t op)
  | .add data => inferInstanceAs (Decidable (data.index.head ≠ default ∧
      data.index.tail = prev data.index.head ∧ data.share = delta data.index.head))
  | .remove _ => .isTrue trivial
  | .forget _ => .isTrue trivial
  | .query _ _ _ => .isTrue trivial

/-! ## The invariant -/

structure StatsInvariant (prev : H → H) (delta : H → StatsDelta) (t : StatsTracker H) :
    Prop where
  nullFree : t.chain.NullFree
  follows : t.chain.Follows prev
  shares : ∀ x data, t.chain.shares.lookup x = some data → data.share = delta x
  nodes : t.nodes.NodesOk prev delta

variable {prev : H → H} {delta : H → StatsDelta}

theorem empty_statsInvariant : StatsInvariant prev delta (empty : StatsTracker H) := by
  refine ⟨empty_consistent.nullFree, empty_follows prev, ?_, ?_⟩
  · intro x data h
    simp [empty, Forest.empty] at h
  · intro x levels h
    simp [empty] at h

theorem StatsInvariant.readable {t : StatsTracker H} (h : StatsInvariant prev delta t) (x : H) :
    StatsNodes.Readable prev delta (ShareChain.previous t.chain) (getDelta t.chain) x := by
  unfold StatsNodes.Readable ShareChain.previous getDelta
  cases hx : t.chain.shares.lookup x with
  | none => exact .inr ⟨rfl, rfl⟩
  | some data => exact .inl ⟨(h.follows x data hx).2, h.shares x data hx⟩

theorem StatsInvariant.window {t : StatsTracker H} (h : StatsInvariant prev delta t) {start e : H}
    {len : Nat} (hlen : EndsAt t.chain.parent len start e) :
    StatsNodes.Window prev delta (ShareChain.previous t.chain) (getDelta t.chain)
      (t.hashAt start) len := by
  have hsucc : ∀ i, t.hashAt start (i + 1) = ShareChain.previous t.chain (t.hashAt start i) :=
    fun i => Function.iterate_succ_apply' _ i start
  have hanc : ∀ i ≤ len, ancestor t.chain.parent i start = some (t.hashAt start i) := by
    intro i hi
    induction i with
    | zero => rfl
    | succ i ih =>
      obtain ⟨z, hz, -⟩ := ancestor_isSome_of_le hlen.1 hi
      rw [hz, hsucc]
      rw [ancestor_succ_last, ih (by omega)] at hz
      have hparent : t.chain.parent (t.hashAt start i) = some z := hz
      obtain ⟨data, hdata, htail⟩ := Option.map_eq_some_iff.mp hparent
      unfold ShareChain.previous
      rw [hdata]
      exact congrArg some htail.symm
  have hends : ∀ i ≤ len, EndsAt t.chain.parent (len - i) (t.hashAt start i) e :=
    fun i hi => (hlen.drop (hanc i hi)).2
  have hheld : ∀ i < len, t.hashAt start i ∈ t.chain.shares := by
    intro i hi
    have hnext := hanc (i + 1) hi
    rw [ancestor_succ_last, hanc i hi.le] at hnext
    have hparent : t.chain.parent (t.hashAt start i) = some (t.hashAt start (i + 1)) := hnext
    exact mem_keys.mp (mem_keys_of_parent _ (by simp [hparent]))
  have hlast : t.hashAt start len = e := by
    have hsame := (hanc len le_rfl).symm.trans hlen.1
    exact Option.some.inj hsame
  have hmissing : t.chain.shares.lookup (t.hashAt start len) = none := by
    rw [hlast, lookup_eq_none, ← parent_eq_none_iff]
    exact hlen.2
  refine ⟨?_, ?_, fun i _ => (hsucc i).symm, ?_, ?_, ?_⟩
  · intro i hi hnull
    have hfree : t.chain.parent default = none := h.nullFree
    rw [← hnull, parent_eq_none_iff] at hfree
    exact hfree (hheld i hi)
  · intro i hi
    rw [hsucc, h.follows.previous_eq (hheld i hi)]
  · intro i hi
    obtain ⟨data, hdata⟩ := mem_iff.mp (hheld i hi)
    unfold getDelta
    rw [hdata]
    exact h.shares _ data hdata
  · unfold ShareChain.previous getDelta
    rw [hmissing]
    exact ⟨rfl, rfl⟩
  · intro i hi j hj hij
    have hi' := hends i hi
    rw [hij] at hi'
    have := (hi'.unique (hends j hj)).1
    omega

theorem step_statsInvariant (hone : ∀ x, (delta x).shareCount = 1) (t : StatsTracker H)
    (op : Op H) (h : StatsInvariant prev delta t) (hop : Allowed prev delta t op) :
    StatsInvariant prev delta (t.step op) := by
  cases op with
  | add data =>
    refine ⟨?_, h.follows.add hop.2.1, ?_, h.nodes⟩
    · show (t.chain.add data).parent default = none
      rw [parent_add, extend_of_ne (Ne.symm hop.1)]
      exact h.nullFree
    intro x data' hx
    have hx' : (t.chain.shares.insert data.index.head data).lookup x = some data' := hx
    rw [lookup_insert_ite] at hx'
    split at hx'
    · rename_i hxd
      cases hx'
      rw [hxd]
      exact hop.2.2
    · exact h.shares x data' hx'
  | remove hash =>
    have hsub : ∀ x data, (t.chain.remove hash).2.shares.lookup x = some data →
        t.chain.shares.lookup x = some data := by
      intro x data hx
      exact ((lookup_remove_iff _ _ _ _).mp hx).1
    refine ⟨?_, h.follows.of_shares hsub, fun x data hx => h.shares x data (hsub x data hx),
      h.nodes⟩
    show (t.chain.remove hash).2.parent default = none
    rw [parent_eq_none_iff]
    intro hmem
    obtain ⟨data, hdata⟩ := mem_iff.mp hmem
    have hfree : t.chain.parent default = none := h.nullFree
    rw [parent_of_lookup (hsub _ data hdata)] at hfree
    cases hfree
  | forget hash =>
    refine { h with nodes := ?_ }
    intro x levels hx
    have hx' : (t.nodes.erase hash).lookup x = some levels := hx
    rw [lookup_erase_ite] at hx'
    split at hx'
    · cases hx'
    · exact h.nodes x levels hx'
  | query draw start maxShares =>
    refine { h with nodes := ?_ }
    show (t.nodes.query _ _ draw start maxShares).2.NodesOk prev delta
    unfold StatsNodes.query
    split
    · exact h.nodes
    · exact h.nodes.phase1 hone h.readable draw start maxShares

/-- After any run, a query that the cache serves counts exactly the held shares
among the first `maxShares`. -/
theorem run_stats_agree (prev : H → H) (delta : H → StatsDelta)
    (hone : ∀ x, (delta x).shareCount = 1) (ops : List (Op H))
    (hops : Admissible step (Allowed prev delta) empty ops) (draw : H → Nat) (start e : H)
    (maxShares len : Nat) (hlen : EndsAt (run step empty ops).chain.parent len start e)
    (hserves : (run step empty ops).nodes.Serves
      ((run step empty ops).hashAt start) maxShares len) :
    (run step empty ops).IsCount start maxShares len
      ((run step empty ops).query draw start maxShares).1 := by
  have h := run_invariant (step_statsInvariant hone) empty_statsInvariant hops
  have w := h.window hlen
  have hcounts := hserves.query w hone h.readable h.nodes draw
  have hdelta : ∀ i < min maxShares len,
      delta (prev^[i] ((run step empty ops).hashAt start 0)) =
        getDelta (run step empty ops).chain ((run step empty ops).hashAt start i) := by
    intro i hi
    rw [w.iterate (by omega), Nat.zero_add, w.read i (by omega)]
  constructor
  · have hshares := hcounts .shares
    have hsum : ∀ m, ∑ i ∈ Finset.range m,
        (delta (prev^[i] ((run step empty ops).hashAt start 0))).get .shares = m := by
      simp [StatsDelta.get, hone]
    rw [hsum] at hshares
    exact hshares
  intro f
  refine (hcounts f).trans (Finset.sum_congr rfl fun i hi => ?_)
  rw [hdelta i (Finset.mem_range.mp hi)]

def plainStats (x : Nat) : StatsDelta :=
  ⟨1, 0, 0, [("36", 1)], [("36", 1)], [(toString x, 1)]⟩

def statsShare (x : Nat) : ChainData Nat StatsDelta := ⟨⟨x, x - 1, 1, 1⟩, plainStats x⟩

def grownOps : List (Op Nat) :=
  [.add (statsShare 1), .add (statsShare 2), .add (statsShare 3), .query (fun _ => 2) 3 3,
    .add (statsShare 4)]

theorem run_stats_agree_grownOps :
    (run step empty grownOps).IsCount 4 4 4
      ((run step empty grownOps).query (fun _ => 3) 4 4).1 := by
  apply run_stats_agree Nat.pred plainStats (fun _ => rfl) grownOps (by decide) _ 4 0 4 4
  · exact ⟨by decide, by decide⟩
  · exact ⟨by decide, by decide, by decide⟩

def shortQueryOps : List (Op Nat) :=
  [.add (statsShare 1), .add (statsShare 2), .add (statsShare 3), .query (fun _ => 1) 3 1]

theorem stats_cut_by_short_query :
    Admissible step (Allowed Nat.pred plainStats) empty shortQueryOps ∧
      EndsAt (run step empty shortQueryOps).chain.parent 3 3 0 ∧
      ¬ (run step empty shortQueryOps).IsCount 3 3 3
        ((run step empty shortQueryOps).query (fun _ => 1) 3 3).1 := by
  refine ⟨by decide, ⟨by decide, by decide⟩, ?_⟩
  intro hcount
  exact absurd hcount.1 (by decide)

end StatsTracker

end C2Pool.Sharechain
