import C2Pool.Ltc.ShareTarget

/-! # The order of the scored heads

A share starts out with `naughty` zero and only takes it over from its parent, so no run of the
tracker charges a head, and the unsigned scores order the heads as the signed keys do.
-/

namespace C2Pool.Ltc

open Relation Sharechain ParentForest FiniteMap Forest ShareChain

variable {H : Type} [DecidableEq H] [Inhabited H] {E : H → H → Prop} {prev : H → H}
  {c : Forest H SeenShare} {t : ChainPair H SeenShare}

theorem less_iff (a b : HeadScore) :
    a.less b = true ↔ a.adjustedWork.toNat < b.adjustedWork.toNat ∨
      a.adjustedWork.toNat = b.adjustedWork.toNat ∧
        tieLess a.negReason a.negTimeSeen b.negReason b.negTimeSeen := by
  unfold HeadScore.less
  simp only [BitVec.lt_def]
  split
  · simp_all
  split
  · have hne : a.adjustedWork.toNat ≠ b.adjustedWork.toNat := by omega
    simp_all
  · have heq : a.adjustedWork.toNat = b.adjustedWork.toNat := by omega
    simp [heq]

/-- A new share as the chain indexes it; `naughty` starts at zero. -/
def freshShare (hash previous : H) (bits maxBits : BitVec 32) (seen : Int) :
    ChainData H SeenShare :=
  ⟨⟨hash, previous, targetToAverageAttempts (bitsToTarget bits),
    targetToAverageAttempts (bitsToTarget maxBits)⟩, ⟨seen, 0⟩⟩

/-- The propagation of `naughty` in `attempt_verify`: one generation more than the parent's, and
zero after six. -/
def propagateNaughty (c : Forest H SeenShare) (hash : H) : Forest H SeenShare :=
  match c.shares.lookup hash with
  | none => c
  | some data =>
    match c.shares.lookup data.index.tail with
    | none => c
    | some parent =>
      if data.index.tail ≠ default ∧ 0 < parent.share.naughty then
        let naughty := parent.share.naughty + 1
        let share := { data.share with naughty := if 6 < naughty then 0 else naughty }
        { c with shares := c.shares.insert hash { data with share := share } }
      else c

/-- `attempt_verify` of a share that passes: it is indexed anew in the verified chain. -/
def attemptVerify (t : ChainPair H SeenShare) (hash : H) (seen : Int) : ChainPair H SeenShare :=
  match t.chain.forest.shares.lookup hash with
  | none => t
  | some data =>
    { chain := { t.chain with forest := propagateNaughty t.chain.forest hash }
      verified := if hash ∈ t.verified.forest.shares then t.verified
        else t.verified.add { data with share := ⟨seen, 0⟩ } }

inductive TrackerOp (H : Type) where
  | add (hash previous : H) (bits maxBits : BitVec 32) (seen : Int)
  | verify (hash : H) (seen : Int)
  | remove (order : IterationOrder H) (hash : H)
  | removeVerified (order : IterationOrder H) (hash : H)
  | query (through : Through) (q : ViewQuery H)
  | lookup (through : Through) (draw : H → Nat) (start : H) (n : Nat)
  | scoreHeads (draw : H → Nat) (order : IterationOrder H) (bestTail : H)

def trackerStep (t : ChainPair H SeenShare) : TrackerOp H → ChainPair H SeenShare
  | .add hash previous bits maxBits seen =>
    { t with chain := t.chain.add (freshShare hash previous bits maxBits seen) }
  | .verify hash seen => attemptVerify t hash seen
  | .remove order hash => t.step (.remove order hash)
  | .removeVerified order hash => t.step (.removeVerified order hash)
  | .query .chain q => { t with chain := t.chain.ask q }
  | .query .verified q => { t with verified := t.verified.ask q }
  | .lookup through draw start n => t.step (.lookup through draw start n)
  | .scoreHeads draw order bestTail =>
    (decorateHeads draw (order.list (row t.verified.forest.tails bestTail)) t).2

/-- An added share is new and carries the previous hash that its own hash stands for, and no chain
outgrows the walk of `get_last`; a share leaves the verified chain before the main one, and a lookup
stays within the height of its start. -/
def TrackerAllowed (E : H → H → Prop) (prev : H → H) (t : ChainPair H SeenShare) :
    TrackerOp H → Prop
  | .add hash previous bits maxBits seen =>
    ShallowShares E t.chain (.add (freshShare hash previous bits maxBits seen)) ∧
      previous = prev hash
  | .remove _ hash => hash ∉ t.verified.forest.shares
  | .lookup through _ start n => n ≤ (t.forest through).getHeight start
  | .verify .. | .removeVerified .. | .query .. | .scoreHeads .. => True

/-- The chains are scoreable, and no share is punished. -/
structure Clean (E : H → H → Prop) (prev : H → H) (t : ChainPair H SeenShare) : Prop where
  scoreable : Scoreable E prev t
  chainView : ViewInvariant E t.chain
  unpunished : ∀ x data, t.chain.forest.shares.lookup x = some data → data.share.naughty = 0

theorem empty_clean : Clean E prev (ChainPair.empty : ChainPair H SeenShare) where
  scoreable := ⟨ChainPair.empty_navInvariant prev, empty_viewInvariant⟩
  chainView := empty_viewInvariant
  unpunished x data hx := by simp [ChainPair.empty, ShareChain.empty, Forest.empty] at hx

theorem lookup_add {c : Forest H SeenShare} {data other : ChainData H SeenShare} {x : H}
    (hx : (c.add data).shares.lookup x = some other) :
    other = data ∨ c.shares.lookup x = some other := by
  have hx' : (c.shares.insert data.index.head data).lookup x = some other := hx
  rw [lookup_insert_ite] at hx'
  split at hx'
  · exact Or.inl (Option.some.inj hx').symm
  · exact Or.inr hx'

/-- Nothing is propagated where no parent is punished. -/
theorem propagateNaughty_eq (h : ∀ x data, c.shares.lookup x = some data → data.share.naughty = 0)
    (hash : H) : propagateNaughty c hash = c := by
  unfold propagateNaughty
  cases hdata : c.shares.lookup hash with
  | none => rfl
  | some data =>
    cases hparent : c.shares.lookup data.index.tail with
    | none => simp [hparent]
    | some parent =>
      simp [hparent, h _ parent hparent]

theorem Clean.add (hE : ∀ x, ¬ TransGen E x x) (h : Clean E prev t) {hash previous : H}
    {bits maxBits : BitVec 32} {seen : Int}
    (hop : TrackerAllowed E prev t (.add hash previous bits maxBits seen)) :
    Clean E prev (trackerStep t (.add hash previous bits maxBits seen)) := by
  obtain ⟨hshare, htail⟩ := hop
  have hnav := ChainPair.step_navInvariant t
    (.add (freshShare hash previous bits maxBits seen)) h.scoreable.nav htail
  refine ⟨⟨hnav, h.scoreable.view⟩, step_viewInvariant hE t.chain _ h.chainView hshare, ?_⟩
  intro x data hx
  rcases lookup_add hx with rfl | hx
  · rfl
  · exact h.unpunished x data hx

theorem Clean.verify (hE : ∀ x, ¬ TransGen E x x) (h : Clean E prev t) (hash : H) (seen : Int) :
    Clean E prev (attemptVerify t hash seen) := by
  unfold attemptVerify
  cases hdata : t.chain.forest.shares.lookup hash with
  | none => exact h
  | some data =>
    dsimp only
    rw [propagateNaughty_eq h.unpunished]
    by_cases hheld : hash ∈ t.verified.forest.shares
    · rw [if_pos hheld]
      exact h
    rw [if_neg hheld]
    obtain ⟨hhead, htail⟩ := h.scoreable.nav.chain hash data hdata
    have hparent := Forest.parent_of_lookup hdata
    have hnav : ChainPair.NavInvariant prev
        { t with verified := t.verified.add { data with share := ⟨seen, 0⟩ } } := by
      refine ⟨h.scoreable.nav.chain, h.scoreable.nav.verified.add (hhead ▸ htail), ?_,
        h.scoreable.nav.truthful⟩
      intro x hx
      rcases Finmap.mem_insert.mp hx with hx | hx
      · rw [hx, hhead]
        exact Finmap.mem_of_lookup_eq_some hdata
      · exact h.scoreable.nav.subset x hx
    have hshallow : (t.verified.forest.add { data with share := ⟨seen, 0⟩ }).Shallow := by
      apply h.chainView.shallow.of_subforest h.chainView.consistent.acyclic
      intro x y hxy
      obtain ⟨d, hd, rfl⟩ := Option.map_eq_some_iff.mp hxy
      obtain ⟨d', hd'⟩ := Finmap.mem_iff.mp (hnav.subset x (Finmap.mem_of_lookup_eq_some hd))
      rw [Forest.parent_of_lookup hd', (hnav.chain x d' hd').2, (hnav.verified x d hd).2]
    have hview : ViewInvariant E (t.verified.add { data with share := ⟨seen, 0⟩ }) := by
      refine h.scoreable.view.add hE ?_ ?_ ?_ hshallow
      · intro hnull
        rw [hhead.symm.trans hnull, h.chainView.consistent.nullFree] at hparent
        cases hparent
      · exact hhead.symm ▸ hheld
      · exact h.chainView.edges _ _ (hhead.symm ▸ hparent)
    exact ⟨⟨hnav, hview⟩, h.chainView, h.unpunished⟩

theorem Clean.remove (hE : ∀ x, ¬ TransGen E x x) (h : Clean E prev t) (order : IterationOrder H)
    {hash : H} (hop : hash ∉ t.verified.forest.shares) :
    Clean E prev (t.step (.remove order hash)) where
  scoreable := ⟨ChainPair.step_navInvariant t (.remove order hash) h.scoreable.nav hop,
    h.scoreable.view⟩
  chainView := h.chainView.remove hE order hash
  unpunished x data hx := h.unpunished x data (ChainPair.lookup_remove hx)

theorem Clean.removeVerified (hE : ∀ x, ¬ TransGen E x x) (h : Clean E prev t)
    (order : IterationOrder H) (hash : H) : Clean E prev (t.step (.removeVerified order hash)) where
  scoreable := ⟨ChainPair.step_navInvariant t (.removeVerified order hash) h.scoreable.nav trivial,
    h.scoreable.view.remove hE order hash⟩
  chainView := h.chainView
  unpunished := h.unpunished

theorem Clean.query (h : Clean E prev t) (through : Through) (q : ViewQuery H) :
    Clean E prev (trackerStep t (.query through q)) := by
  obtain ⟨⟨hnav, hview⟩, hchain, hclean⟩ := h
  cases through with
  | chain =>
    have hforest := ask_forest t.chain q
    have hskips := ask_skipList t.chain q
    exact ⟨⟨⟨hforest ▸ hnav.chain, hnav.verified, hforest ▸ hnav.subset, hskips ▸ hnav.truthful⟩,
      hview⟩, hchain.ask q, hforest ▸ hclean⟩
  | verified =>
    have hforest := ask_forest t.verified q
    exact ⟨⟨⟨hnav.chain, hforest ▸ hnav.verified, hforest ▸ hnav.subset, hnav.truthful⟩,
      hview.ask q⟩, hchain, hclean⟩

theorem Clean.of_scoreable {t' : ChainPair H SeenShare} (h : Clean E prev t)
    (h' : Scoreable E prev t') (hforest : t'.chain.forest = t.chain.forest)
    (hview : t'.chain.view = t.chain.view) : Clean E prev t' where
  scoreable := h'
  chainView := by
    refine ⟨?_, ?_, ?_, hview ▸ h.chainView.refs, ?_⟩
    · exact hforest ▸ h.chainView.consistent
    · exact hforest ▸ h.chainView.shallow
    · exact hforest ▸ h.chainView.edges
    · rw [hforest, hview]
      exact h.chainView.values
  unpunished := hforest ▸ h.unpunished

theorem trackerStep_clean (hE : ∀ x, ¬ TransGen E x x) (t : ChainPair H SeenShare)
    (op : TrackerOp H) (h : Clean E prev t) (hop : TrackerAllowed E prev t op) :
    Clean E prev (trackerStep t op) := by
  cases op with
  | add hash previous bits maxBits seen => exact h.add hE hop
  | verify hash seen => exact h.verify hE hash seen
  | remove order hash => exact h.remove hE order hop
  | removeVerified order hash => exact h.removeVerified hE order hash
  | query through q => exact h.query through q
  | lookup through draw start n =>
    have hnav := ChainPair.step_navInvariant t (.lookup through draw start n) h.scoreable.nav hop
    have hsame : (t.step (.lookup through draw start n)).chain.forest = t.chain.forest ∧
        (t.step (.lookup through draw start n)).chain.view = t.chain.view ∧
        (t.step (.lookup through draw start n)).verified = t.verified := by
      cases through <;> exact ⟨rfl, rfl, rfl⟩
    exact h.of_scoreable ⟨hnav, hsame.2.2 ▸ h.scoreable.view⟩ hsame.1 hsame.2.1
  | scoreHeads draw order bestTail =>
    obtain ⟨t', hheads, h', hforest, hview⟩ := decorateHeads_eq draw _ h.scoreable
      (held_of_mem_row h.scoreable order bestTail)
    have hstep : trackerStep t (.scoreHeads draw order bestTail) = t' := congrArg Prod.snd hheads
    rw [hstep]
    exact h.of_scoreable h' hforest hview

/-- `naughty` starts at zero and is only handed on by a parent that has it, so no run punishes a
share. -/
theorem run_clean (hE : ∀ x, ¬ TransGen E x x) (ops : List (TrackerOp H))
    (hops : Run.Admissible trackerStep (TrackerAllowed E prev) ChainPair.empty ops) :
    Clean E prev (Run.run trackerStep ChainPair.empty ops) :=
  Run.run_invariant (trackerStep_clean hE) empty_clean hops

theorem Clean.reasonOf_eq (h : Clean E prev t) (hh : H) : reasonOf t.chain.forest hh = 0 := by
  unfold reasonOf
  cases hdata : t.chain.forest.shares.lookup hh with
  | none => rfl
  | some data => simp [h.unpunished hh data hdata]

theorem Clean.chargedWork_eq (h : Clean E prev t) (hh : H) : chargedWork t.chain.forest hh = 0 := by
  unfold chargedWork
  cases hdata : t.chain.forest.shares.lookup hh with
  | none => rfl
  | some data => simp [h.unpunished hh data hdata]

/-- Without a charge the score and the key compare the same numbers. -/
theorem Clean.less_iff_key (h : Clean E prev t) (a b : H) :
    (chargedScore t a).less (chargedScore t b) = true ↔ (signedKey t a).Less (signedKey t b) := by
  rw [less_iff]
  unfold SignedKey.Less
  simp only [chargedScore, signedKey, h.chargedWork_eq, BitVec.ofNat_eq_ofNat, BitVec.sub_zero,
    BitVec.toNat_zero, Nat.cast_zero, sub_zero, Nat.cast_lt, Nat.cast_inj]

/-- After every run, sorting by score orders the heads above the best tail as the signed keys do,
and never puts a punished head above an unpunished one with as much ancestor work. -/
theorem run_heads_ordered (hE : ∀ x, ¬ TransGen E x x) (ops : List (TrackerOp H))
    (hops : Run.Admissible trackerStep (TrackerAllowed E prev) ChainPair.empty ops)
    (draw : H → Nat) (order : IterationOrder H) (bestTail : H) :
    let t := Run.run trackerStep ChainPair.empty ops
    (∀ a ∈ decoratedHeads draw order t bestTail, ∀ b ∈ decoratedHeads draw order t bestTail,
        a.score.less b.score = true ↔ (signedKey t a.hash).Less (signedKey t b.hash)) ∧
      ∀ a ∈ decoratedHeads draw order t bestTail, ∀ b ∈ decoratedHeads draw order t bestTail,
        0 < reasonOf t.chain.forest a.hash → reasonOf t.chain.forest b.hash = 0 →
        ancestorWork t.verified.forest a.hash ≤ ancestorWork t.verified.forest b.hash →
        b.score.less a.score = false := by
  intro t
  have hclean : Clean E prev t := run_clean hE ops hops
  have hmem := mem_decoratedHeads_iff hclean.scoreable draw order bestTail
  constructor
  · intro a ha b hb
    obtain ⟨x, -, rfl⟩ := (hmem a).mp ha
    obtain ⟨y, -, rfl⟩ := (hmem b).mp hb
    exact hclean.less_iff_key x y
  · intro a _ b _ hpunished
    rw [hclean.reasonOf_eq] at hpunished
    exact absurd hpunished (lt_irrefl _)

/-- Two verified heads over one share; the second was seen later. -/
def twinOps : List (TrackerOp Nat) :=
  [.add 1 0 0x1e0fffff 0x1e0fffff 10, .add 2 1 0x1e0fffff 0x1e0fffff 20,
    .add 3 1 0x1e0fffff 0x1e0fffff 30, .verify 1 11, .verify 2 21, .verify 3 31,
    .lookup .verified (fun _ => 2) 3 2]

theorem twinOps_admissible :
    Run.Admissible trackerStep (TrackerAllowed (fun x y => y < x) fun x => if x = 1 then 0 else 1)
      ChainPair.empty twinOps := by
  have hshallow : ∀ c : Forest Nat SeenShare,
      (∀ x ∈ c.shares.keys, (c.parent x).all (· < x) = true) → c.size ≤ 3 → c.Shallow := by
    intro c hc hsize
    refine shallow_of_size_le (acyclic_of_edges lt_acyclic fun x y hxy => ?_) (by omega)
    obtain ⟨data, hdata, -⟩ := Option.map_eq_some_iff.mp hxy
    have hx := hc x (Finmap.mem_keys.mpr (Finmap.mem_of_lookup_eq_some hdata))
    rw [hxy] at hx
    simpa using hx
  refine ⟨⟨⟨⟨by decide, by decide, by decide⟩, hshallow _ (by decide) (by decide)⟩, rfl⟩,
    ⟨⟨⟨by decide, by decide, by decide⟩, hshallow _ (by decide) (by decide)⟩, rfl⟩,
    ⟨⟨⟨by decide, by decide, by decide⟩, hshallow _ (by decide) (by decide)⟩, rfl⟩,
    trivial, trivial, trivial, (by change 2 ≤ Forest.getHeight _ 3; decide +kernel), trivial⟩

/-- Both twins are scored, and the one that was seen first ranks above the other. -/
theorem run_heads_ordered_twinOps :
    let t := Run.run trackerStep ChainPair.empty twinOps
    ⟨chargedScore t 3, 3⟩ ∈ decoratedHeads (fun _ => 1) sortedOrder t 0 ∧
      ⟨chargedScore t 2, 2⟩ ∈ decoratedHeads (fun _ => 1) sortedOrder t 0 ∧
      (chargedScore t 3).less (chargedScore t 2) = true := by
  intro t
  have hmem := mem_decoratedHeads_iff (run_clean lt_acyclic twinOps twinOps_admissible).scoreable
    (fun _ => 1) sortedOrder 0
  have hlate := (hmem ⟨chargedScore t 3, 3⟩).mpr ⟨3, by decide +kernel, rfl⟩
  have hearly := (hmem ⟨chargedScore t 2, 2⟩).mpr ⟨2, by decide +kernel, rfl⟩
  refine ⟨hlate, hearly, ?_⟩
  have hordered := (run_heads_ordered lt_acyclic twinOps twinOps_admissible (fun _ => 1) sortedOrder
    0).1 _ hlate _ hearly
  exact hordered.mpr
    (Or.inr ⟨by decide +kernel, Or.inr ⟨by decide +kernel, by decide +kernel⟩⟩)

end C2Pool.Ltc
