import C2Pool.Sharechain.Chain
import C2Pool.Sharechain.ForestRun

/-! # Ancestor lookups over a run

A main chain and a verified chain that navigates with the main chain's skip
list.  A share's hash fixes its previous hash, so the levels stored by one
lookup stay true for all later ones, across removals and re-additions.
-/

namespace C2Pool.Sharechain

open Run Forest Finmap

variable {H S : Type} [DecidableEq H] [Inhabited H]

/-- The main chain and the verified chain, whose parent chain is the main one
(`set_parent_chain`). -/
structure ChainPair (H S : Type) where
  chain : ShareChain H S
  verified : ShareChain H S

/-- The chain a call is made through. -/
inductive Through where
  | chain
  | verified
deriving DecidableEq

namespace ChainPair

def empty : ChainPair H S := ⟨.empty, .empty⟩

def forest (t : ChainPair H S) : Through → Forest H S
  | .chain => t.chain.forest
  | .verified => t.verified.forest

/-- `get_nth_parent_via_skip`: the verified chain asks its parent's skip list,
which is the main chain's own. -/
def getNthParentViaSkip (t : ChainPair H S) (through : Through) (draw : H → Nat) (hash : H)
    (n : Nat) : H × ChainPair H S :=
  match through with
  | .chain | .verified =>
    let out := t.chain.getNthParentViaSkip draw hash n
    (out.1, { t with chain := out.2 })

inductive Op (H S : Type) where
  | add (data : ChainData H S)
  | verify (hash : H)
  | remove (order : IterationOrder H) (hash : H)
  | removeVerified (order : IterationOrder H) (hash : H)
  | lookup (through : Through) (draw : H → Nat) (start : H) (n : Nat)

def step (t : ChainPair H S) : Op H S → ChainPair H S
  | .add data => { t with chain := t.chain.add data }
  | .verify hash =>
    match t.chain.forest.shares.lookup hash with
    | some data => { t with verified := t.verified.add data }
    | none => t
  | .remove order hash => { t with chain := (t.chain.remove order hash).2 }
  | .removeVerified order hash => { t with verified := (t.verified.remove order hash).2 }
  | .lookup through draw start n => (t.getNthParentViaSkip through draw start n).2

/-- Shares carry the previous hash their own hash stands for, a share leaves
the verified chain before the main one, and every lookup stays within the
height of its start in the chain it is made through. -/
def Allowed (prev : H → H) (t : ChainPair H S) : Op H S → Prop
  | .add data => data.index.tail = prev data.index.head
  | .verify _ => True
  | .remove _ hash => hash ∉ t.verified.forest.shares
  | .removeVerified _ _ => True
  | .lookup through _ start n => n ≤ (t.forest through).getHeight start

instance (prev : H → H) (t : ChainPair H S) : ∀ op, Decidable (Allowed prev t op)
  | .add data => inferInstanceAs (Decidable (data.index.tail = prev data.index.head))
  | .verify _ => .isTrue trivial
  | .remove _ hash => inferInstanceAs (Decidable (hash ∉ t.verified.forest.shares))
  | .removeVerified _ _ => .isTrue trivial
  | .lookup through _ start n =>
    inferInstanceAs (Decidable (n ≤ (t.forest through).getHeight start))

/-! ## The invariant -/

structure NavInvariant (prev : H → H) (t : ChainPair H S) : Prop where
  chain : Forest.Follows prev t.chain.forest
  verified : Forest.Follows prev t.verified.forest
  subset : ∀ x ∈ t.verified.forest.shares, x ∈ t.chain.forest.shares
  truthful : t.chain.skipList.Truthful prev

omit [Inhabited H] in
theorem empty_navInvariant (prev : H → H) : NavInvariant prev (empty : ChainPair H S) := by
  refine ⟨empty_follows prev, empty_follows prev, ?_, LazySkipList.TableOk.empty⟩
  intro x h
  exact absurd h notMem_empty

variable {prev : H → H} {order : IterationOrder H} {c : ShareChain H S} {hash x : H}

theorem NavInvariant.lookup {t : ChainPair H S} (h : NavInvariant prev t) (through : Through)
    (draw : H → Nat) {start : H} {n : Nat} (hn : n ≤ (t.forest through).getHeight start) :
    (t.forest through).getNthParentKey n start =
        some (t.getNthParentViaSkip through draw start n).1 ∧
      NavInvariant prev (t.getNthParentViaSkip through draw start n).2 := by
  have hfollows : Forest.Follows prev (t.forest through) := by
    cases through
    · exact h.chain
    · exact h.verified
  have hmem : ∀ x ∈ (t.forest through).shares, x ∈ t.chain.forest.shares := by
    cases through
    · exact fun x hx => hx
    · exact h.subset
  have hsome := getNthParentKey_isSome_of_le_getHeight start hn
  rcases Option.isSome_iff_exists.mp hsome with ⟨y, hy⟩
  rcases hfollows.getNthParentKey hy with ⟨hval, hpath⟩
  have hheld : ∀ i < n, prev^[i] start ≠ default ∧
      ShareChain.previous t.chain.forest (prev^[i] start) = prev (prev^[i] start) := by
    intro i hi
    exact ⟨(hpath i hi).1, h.chain.previous_eq (hmem _ (hpath i hi).2)⟩
  have hspec := h.truthful.getNthParent_spec draw hheld
  have hout : t.getNthParentViaSkip through draw start n =
      ((t.chain.skipList.getNthParent (ShareChain.previous t.chain.forest) draw start n).1,
        { t with chain := { t.chain with skipList := (t.chain.skipList.getNthParent
          (ShareChain.previous t.chain.forest) draw start n).2 } }) := by
    cases through <;> rfl
  rw [hout]
  constructor
  · rw [hy, hval, hspec.1]
  · exact { h with truthful := hspec.2 }

theorem lookup_remove {data : ChainData H S}
    (hx : (c.remove order hash).2.forest.shares.lookup x = some data) :
    c.forest.shares.lookup x = some data := by
  unfold ShareChain.remove at hx
  cases hr : c.forest.tryRemove hash with
  | none => simpa [hr] using hx
  | some out =>
    simp only [hr, shares_tryRemove hr, FiniteMap.lookup_erase_ite] at hx
    split at hx
    · cases hx
    · exact hx

theorem mem_remove_of_ne (hne : x ≠ hash) (hx : x ∈ c.forest.shares) :
    x ∈ (c.remove order hash).2.forest.shares := by
  unfold ShareChain.remove
  cases hr : c.forest.tryRemove hash with
  | none => exact hx
  | some out =>
    simp only [shares_tryRemove hr]
    exact mem_erase.mpr ⟨hne, hx⟩

theorem step_navInvariant (t : ChainPair H S) (op : Op H S)
    (h : NavInvariant prev t) (hop : Allowed prev t op) : NavInvariant prev (t.step op) := by
  cases op with
  | add data =>
    refine ⟨h.chain.add hop, h.verified, ?_, h.truthful⟩
    intro x hx
    exact mem_insert.mpr (.inr (h.subset x hx))
  | verify hash =>
    cases hdata : t.chain.forest.shares.lookup hash with
    | none =>
      have hstep : t.step (.verify hash) = t := by
        simp [step, hdata]
      rw [hstep]
      exact h
    | some data =>
      have hstep : t.step (.verify hash) = { t with verified := t.verified.add data } := by
        simp [step, hdata]
      rw [hstep]
      rcases h.chain hash data hdata with ⟨hhead, htail⟩
      refine ⟨h.chain, h.verified.add (hhead ▸ htail), ?_, h.truthful⟩
      intro x hx
      rcases mem_insert.mp hx with hx | hx
      · rw [hx, hhead]
        exact mem_of_lookup_eq_some hdata
      · exact h.subset x hx
  | remove order hash =>
    refine ⟨h.chain.of_shares fun x data => lookup_remove, h.verified, ?_, ?_⟩
    · intro x hx
      refine mem_remove_of_ne ?_ (h.subset x hx)
      intro hxh
      exact hop (hxh ▸ hx)
    show ((t.chain.remove order hash).2.skipList).Truthful prev
    unfold ShareChain.remove
    cases t.chain.forest.tryRemove hash with
    | none => exact h.truthful
    | some out => exact h.truthful.forgetItem hash
  | removeVerified order hash =>
    refine ⟨h.chain, h.verified.of_shares fun x data => lookup_remove, ?_, h.truthful⟩
    intro x hx
    rcases mem_iff.mp hx with ⟨data, hdata⟩
    exact h.subset x (mem_of_lookup_eq_some (lookup_remove hdata))
  | lookup through draw start n => exact (h.lookup through draw hop).2

/-- After any allowed run, a lookup within the height of its start is the walk
along previous hashes, through either chain and for any random levels. -/
theorem run_lookup_agrees (prev : H → H) (ops : List (Op H S))
    (hops : Admissible step (Allowed prev) empty ops) (through : Through) (draw : H → Nat)
    (start : H) (n : Nat) (hn : n ≤ ((run step empty ops).forest through).getHeight start) :
    ((run step empty ops).forest through).getNthParentKey n start =
      some ((run step empty ops).getNthParentViaSkip through draw start n).1 := by
  have hrun : NavInvariant prev (run step empty ops) :=
    run_invariant step_navInvariant (empty_navInvariant prev) hops
  exact (hrun.lookup through draw hn).1

/-- Three shares, of which two are verified; a lookup leaves long levels, and
the middle share is removed and added again before the next one. -/
def revisitedOps : List (Op Nat Unit) :=
  [.add (Forest.plainShare 1 0), .add (Forest.plainShare 2 1), .add (Forest.plainShare 3 2),
    .verify 2, .verify 3, .lookup .chain (fun _ => 3) 3 3, .removeVerified sortedOrder 3,
    .remove sortedOrder 3, .add (Forest.plainShare 3 2), .verify 3]

theorem run_lookup_agrees_revisitedOps :
    ((run step empty revisitedOps).forest .verified).getNthParentKey 2 3 =
      some ((run step empty revisitedOps).getNthParentViaSkip .verified (fun _ => 1) 3 2).1 := by
  apply run_lookup_agrees Nat.pred
  · decide
  · decide

end ChainPair

end C2Pool.Sharechain
