import C2Pool.V37.OwedBook

/-! # Coinbase proposals

`propose_coinbase` and `propose_coinbase_salted`: the keys that are owed are paid in turn, oldest
age first, until the slots or the reward run out. The walks are compared with the direct algorithm,
which sorts the eligible keys.
-/

namespace C2Pool.V37

open List

structure ProposedOut where
  key : Bytes32
  pay : ScriptRef
  amount : Nat
deriving DecidableEq

/-- A proposal in the making: what is left of the reward, and the outputs so far. -/
structure Walk where
  budget : Nat
  outs : List ProposedOut := []
deriving DecidableEq

structure ProposalArgs where
  blockReward : U64
  slotBudget : Nat
  payOf : Bytes32 → ScriptRef
  hMinOf : Byte → U64

namespace OwedLedger

variable (rules : OwedLedgerRules) (l : OwedLedger) (args : ProposalArgs) {k : Bytes32}
  {tie : Bytes32 → Bytes32} {ks : List Bytes32} {k' : Bytes32} {cohort : List (Bytes32 ×ₗ Bytes32)}
  {pass : Nat}

def turn (w : Walk) (k : Bytes32) : Walk × Bool :=
  if args.slotBudget ≠ 0 ∧ args.slotBudget ≤ w.outs.length then (w, false)
  else if w.budget = 0 then (w, false)
  else if l.index.value k ≤ 0 then (w, true)
  else if 0 < rules.armFloor ∧ l.firstEligible.lookup k = none then (w, true)
  else
    let take := min (l.index.value k).toNat w.budget
    if take < (args.hMinOf (args.payOf k).kind).val then (w, true)
    else (⟨w.budget - take, w.outs ++ [⟨k, args.payOf k, take⟩]⟩, true)

/-- The keys paid in a block that is still pending. -/
def recent : List Bytes32 :=
  l.pending.entries.flatMap fun e => (e.2.payout.entries.filter fun r => 0 < r.2).map Prod.fst

def forEachInTurn {σ : Type} (fn : σ → Bytes32 → Nat → σ × Bool) (s : σ) : σ :=
  if rules.rotateOnPayment then
    let first := Run.visit (fun s k => if k ∈ l.recent then (s, true) else fn s k 0) s
      l.index.eligible
    if first.2 = false ∨ l.recent = [] then first.1
    else
      (Run.visit (fun s k => if k ∉ l.recent then (s, true) else fn s k 1) first.1
        l.index.eligible).1
  else (Run.visit (fun s k => fn s k 0) s l.index.eligible).1

def proposeCoinbase : List ProposedOut :=
  (forEachInTurn rules l (fun w k _ => l.turn rules args w k) ⟨args.blockReward.val, []⟩).outs

/-- A salted proposal in the making: the walk, and the cohort of one age that is not walked
yet. -/
structure CohortWalk where
  walk : Walk
  stop : Bool := false
  cohort : List (Bytes32 ×ₗ Bytes32) := []
  fe : U64 := 0
  pass : Nat := 0

def salted (sha : List Byte → Bytes32) (salt k : Bytes32) : Bytes32 :=
  sha (putTag "V37T" ++ salt.toBytes ++ k.toBytes)

/-- `flush`: the cohort is walked in the order of its salted hashes. -/
def flush (st : CohortWalk) : CohortWalk :=
  let r := Run.visit (fun w x => l.turn rules args w (ofLex x).2) st.walk
    (st.cohort.insertionSort (· ≤ ·))
  { st with walk := r.1, stop := !r.2, cohort := [] }

def gather (sha : List Byte → Bytes32) (salt : Bytes32) (st : CohortWalk) (k : Bytes32)
    (pass : Nat) : CohortWalk :=
  { st with
    fe := l.feAt k
    pass := pass
    cohort := st.cohort ++ [toLex (salted sha salt k, k)] }

def saltedTurn (sha : List Byte → Bytes32) (salt : Bytes32) (st : CohortWalk) (k : Bytes32)
    (pass : Nat) : CohortWalk × Bool :=
  if st.cohort ≠ [] ∧ (l.feAt k ≠ st.fe ∨ pass ≠ st.pass) then
    if (flush rules l args st).stop then (flush rules l args st, false)
    else (gather l sha salt (flush rules l args st) k pass, true)
  else (gather l sha salt st k pass, true)

def proposeCoinbaseSalted (sha : List Byte → Bytes32) (salt : Bytes32) : List ProposedOut :=
  let st := forEachInTurn rules l (saltedTurn rules l args sha salt)
    { walk := ⟨args.blockReward.val, []⟩ }
  (if st.stop = false ∧ st.cohort ≠ [] then flush rules l args st else st).walk.outs

def touched : List Bytes32 :=
  (l.finalW.keys ++ l.pending.entries.flatMap fun e => e.2.payout.keys).dedup

/-- The keys that may be paid: owed by definition, and of an age when a floor is set. -/
def Payable (k : Bytes32) : Prop :=
  0 < l.directOwed k ∧ (0 < rules.armFloor → l.firstEligible.lookup k ≠ none)

instance (k : Bytes32) : Decidable (Payable rules l k) := inferInstanceAs (Decidable (_ ∧ _))

/-- 1 for a key paid in a pending block, under the rotation rule. -/
def passOf (k : Bytes32) : Nat := if rules.rotateOnPayment ∧ k ∈ l.recent then 1 else 0

def rank (tie : Bytes32 → Bytes32) (k : Bytes32) : ℕ ×ₗ U64 ×ₗ Bytes32 ×ₗ Bytes32 :=
  toLex (passOf rules l k, toLex (l.feAt k, toLex (tie k, k)))

def queue (tie : Bytes32 → Bytes32) : List Bytes32 :=
  (l.touched.filter fun k => Payable rules l k).insertionSort
    fun k k' => rank rules l tie k ≤ rank rules l tie k'

def payInTurn : Nat → Nat → List Bytes32 → List ProposedOut
  | _, _, [] => []
  | budget, used, k :: ks =>
    if (args.slotBudget ≠ 0 ∧ args.slotBudget ≤ used) ∨ budget = 0 then []
    else
      let take := min (l.directOwed k).toNat budget
      if take < (args.hMinOf (args.payOf k).kind).val then payInTurn budget used ks
      else ⟨k, args.payOf k, take⟩ :: payInTurn (budget - take) (used + 1) ks

def directProposal (tie : Bytes32 → Bytes32) : List ProposedOut :=
  payInTurn l args args.blockReward.val 0 (queue rules l tie)

variable {rules l args}

/-- The slots or the reward have run out. -/
def Spent (args : ProposalArgs) (w : Walk) : Prop :=
  (args.slotBudget ≠ 0 ∧ args.slotBudget ≤ w.outs.length) ∨ w.budget = 0

theorem turn_of_spent {w : Walk} (hw : Spent args w) (k : Bytes32) :
    l.turn rules args w k = (w, false) := by
  unfold turn
  by_cases hslots : args.slotBudget ≠ 0 ∧ args.slotBudget ≤ w.outs.length
  · rw [if_pos hslots]
  · rw [if_neg hslots, if_pos (hw.resolve_left hslots)]

/-- Once a stop condition holds, it holds for every later key. -/
theorem latches_turn : Run.Latches (l.turn rules args) := by
  intro w a hstop b
  apply turn_of_spent
  by_contra hgo
  unfold Spent at hgo
  rw [not_or] at hgo
  unfold turn at hstop
  rw [if_neg hgo.1, if_neg hgo.2] at hstop
  split at hstop
  · cases hstop
  split at hstop
  · cases hstop
  · dsimp only at hstop
    split at hstop <;> cases hstop

theorem turn_of_payable (h : l.Indexed) (hk : Payable rules l k) {w : Walk} (hw : ¬ Spent args w) :
    (l.turn rules args w k).1 =
      if min (l.directOwed k).toNat w.budget < (args.hMinOf (args.payOf k).kind).val then w
      else ⟨w.budget - min (l.directOwed k).toNat w.budget,
        w.outs ++ [⟨k, args.payOf k, min (l.directOwed k).toNat w.budget⟩]⟩ := by
  unfold Spent at hw
  rw [not_or] at hw
  have howed := hk.1
  unfold turn
  rw [if_neg hw.1, if_neg hw.2, h.value, if_neg (by omega),
    if_neg (fun hfloor => hk.2 hfloor.1 hfloor.2)]
  dsimp only
  split <;> rfl

variable (rules l) in
/-- The keys of a walk with their passes, in order. -/
def turnList : List (Bytes32 × Nat) :=
  if rules.rotateOnPayment then
    ((l.index.eligible.filter fun k => k ∉ l.recent).map fun k => (k, 0)) ++
      (l.index.eligible.filter fun k => k ∈ l.recent).map fun k => (k, 1)
  else l.index.eligible.map fun k => (k, 0)

/-- `for_each_in_turn` is one loop over the keys with their passes. -/
theorem forEachInTurn_eq {σ : Type} (fn : σ → Bytes32 → Nat → σ × Bool) (s : σ) :
    forEachInTurn rules l fn s = (Run.visit (fun s x => fn s x.1 x.2) s (turnList rules l)).1 := by
  unfold forEachInTurn turnList
  split
  · have hfirst := Run.visit_skip (fun s x => fn s x.1 x.2) (fun k : Bytes32 => (k, 0))
    have hsecond := fun s => Run.visit_skip (fun s x => fn s x.1 x.2)
      (fun k : Bytes32 => (k, 1)) (fun k => k ∉ l.recent) s l.index.eligible
    simp only [not_not] at hsecond
    rw [Run.visit_append]
    simp only [hfirst, hsecond]
    split
    · rename_i hend
      obtain hstop | hnone := hend
      · rw [if_neg (by rw [hstop]; simp)]
      simp only [hnone, not_mem_nil, not_false_eq_true, decide_true, decide_false,
        filter_false, map_nil, Run.visit]
      split <;> rfl
    rename_i hgo
    rw [not_or, Bool.not_eq_false] at hgo
    rw [if_pos hgo.1]
  have hskip := Run.visit_skip (fun s x => fn s x.1 x.2) (fun k : Bytes32 => (k, 0))
    (fun _ => False) s l.index.eligible
  exact congrArg Prod.fst (by simpa using hskip)

theorem proposeCoinbase_eq : proposeCoinbase rules l args =
    (((turnList rules l).map Prod.fst).foldl (fun w k => (l.turn rules args w k).1)
      ⟨args.blockReward.val, []⟩).outs := by
  unfold proposeCoinbase
  rw [forEachInTurn_eq, foldl_map]
  have hlatch : Run.Latches fun (w : Walk) (x : Bytes32 × Nat) => l.turn rules args w x.1 :=
    fun w a h b => latches_turn w a.1 h b.1
  rw [(hlatch.visit _ _).1]

theorem turn_of_not_payable (h : l.Indexed) (hk : ¬ Payable rules l k) (w : Walk) :
    (l.turn rules args w k).1 = w := by
  unfold turn
  split
  · rfl
  split
  · rfl
  split
  · rfl
  rename_i hpos
  rw [if_pos]
  by_contra harmed
  apply hk
  rw [h.value k] at hpos
  refine ⟨by omega, fun hfloor hnone => harmed ⟨hfloor, hnone⟩⟩

theorem foldl_turn_filter (h : l.Indexed) (ks : List Bytes32) (w : Walk) :
    ks.foldl (fun w k => (l.turn rules args w k).1) w =
      (ks.filter fun k => Payable rules l k).foldl (fun w k => (l.turn rules args w k).1) w := by
  induction ks generalizing w with
  | nil => rfl
  | cons k ks ih =>
    by_cases hk : Payable rules l k
    · rw [filter_cons_of_pos (by simpa using hk), foldl_cons, foldl_cons, ih]
    · rw [filter_cons_of_neg (by simpa using hk), foldl_cons, turn_of_not_payable h hk, ih]

theorem outs_foldl_turn (h : l.Indexed) (hks : ∀ k ∈ ks, Payable rules l k) (w : Walk) :
    (ks.foldl (fun w k => (l.turn rules args w k).1) w).outs =
      w.outs ++ payInTurn l args w.budget w.outs.length ks := by
  induction ks generalizing w with
  | nil => simp [payInTurn]
  | cons k ks ih =>
    have hrest := fun w => ih (fun k' hk' => hks k' (mem_cons_of_mem k hk')) w
    rw [foldl_cons, payInTurn]
    by_cases hspent : Spent args w
    · rw [turn_of_spent hspent, Run.Latches.foldl_eq (turn_of_spent hspent)]
      unfold Spent at hspent
      rw [if_pos hspent, append_nil]
    rw [turn_of_payable h (hks k mem_cons_self) hspent]
    unfold Spent at hspent
    dsimp only
    split
    · exact hrest w
    · rw [hrest, length_append, length_singleton, append_assoc, singleton_append]

/-! ## The order of the walk -/

theorem mem_turnList (h : l.Indexed) :
    k ∈ (turnList rules l).map Prod.fst ↔ 0 < l.directOwed k := by
  rw [← h.value, ← h.ordered.mem_eligible]
  unfold turnList
  split
  · simp only [map_append, map_map, mem_append, mem_map, mem_filter,
      Function.comp_apply, decide_eq_true_eq, exists_eq_right]
    tauto
  · simp

theorem mem_touched {k : Bytes32} (hk : 0 < l.directOwed k) : k ∈ l.touched := by
  unfold touched
  rw [mem_dedup, mem_append]
  have hrow : ∀ {m : Amounts}, m.balance k ≠ 0 → k ∈ m.keys := by
    intro m hm
    cases hl : m.lookup k with
    | none => simp [Balances.balance, hl] at hm
    | some v =>
      exact mem_map.mpr ⟨(k, v), SortedMap.mem_entries_iff.mpr hl, rfl⟩
  by_cases hw : l.finalW.balance k = 0
  · right
    by_contra hnone
    have hzero : l.pendingPayout k = 0 := by
      unfold pendingPayout SortedMap.sumBy
      rw [sum_eq_zero]
      intro x hx
      obtain ⟨e, he, rfl⟩ := mem_map.mp hx
      by_contra hne
      exact hnone (mem_flatMap.mpr ⟨e, he, hrow hne⟩)
    unfold directOwed at hk
    omega
  · exact .inl (hrow hw)

theorem mem_queue : k ∈ queue rules l tie ↔ Payable rules l k := by
  unfold queue
  rw [mem_insertionSort, mem_filter, decide_eq_true_eq]
  exact ⟨And.right, fun hk => ⟨mem_touched hk.1, hk⟩⟩

theorem rank_injective (tie : Bytes32 → Bytes32) : Function.Injective (rank rules l tie) := by
  intro k k' heq
  exact congrArg (fun x => (ofLex (ofLex (ofLex x).2).2).2) heq

theorem eq_queue (hmem : ∀ k, k ∈ ks ↔ Payable rules l k) (hnodup : ks.Nodup)
    (hsorted : ks.Pairwise fun k k' => rank rules l tie k ≤ rank rules l tie k') :
    ks = queue rules l tie := by
  have hqueue : (queue rules l tie).Nodup :=
    (perm_insertionSort _ _).nodup_iff.mpr ((nodup_dedup _).filter _)
  apply List.Perm.eq_of_pairwise _ hsorted
  · exact pairwise_insertionSort _ _
  · apply (perm_ext_iff_of_nodup hnodup hqueue).mpr
    intro k
    rw [hmem, mem_queue]
  · intro k k' _ _ hle hge
    exact rank_injective tie (le_antisymm hle hge)

theorem rank_le_of_tie (hpass : passOf rules l k = passOf rules l k') (hfe : l.feAt k = l.feAt k')
    (htie : toLex (tie k, k) ≤ toLex (tie k', k')) :
    rank rules l tie k ≤ rank rules l tie k' := by
  unfold rank
  rw [hpass, hfe, Prod.Lex.toLex_le_toLex]
  right
  refine ⟨rfl, ?_⟩
  rw [Prod.Lex.toLex_le_toLex]
  exact .inr ⟨rfl, htie⟩

theorem rank_le_of_group
    (h : toLex (passOf rules l k, l.feAt k) < toLex (passOf rules l k', l.feAt k')) :
    rank rules l tie k ≤ rank rules l tie k' := by
  unfold rank
  rw [Prod.Lex.toLex_lt_toLex] at h
  rw [Prod.Lex.toLex_le_toLex]
  obtain hpass | ⟨hpass, hfe⟩ := h
  · exact .inl hpass
  right
  refine ⟨hpass, ?_⟩
  rw [Prod.Lex.toLex_le_toLex]
  exact .inl hfe

theorem passOf_of_mem {x : Bytes32 × Nat} (hx : x ∈ turnList rules l) :
    x.2 = passOf rules l x.1 := by
  unfold turnList at hx
  unfold passOf
  split at hx
  · rename_i hrotate
    rw [mem_append, mem_map, mem_map] at hx
    obtain ⟨k, hk, rfl⟩ | ⟨k, hk, rfl⟩ := hx
    · rw [mem_filter, decide_eq_true_eq] at hk
      simp [hk.2]
    · rw [mem_filter, decide_eq_true_eq] at hk
      simp [hrotate, hk.2]
  rename_i hrotate
  obtain ⟨k, -, rfl⟩ := mem_map.mp hx
  simp [hrotate]

theorem sorted_turnList (h : l.Indexed) : (turnList rules l).Pairwise fun x y =>
    toLex (x.2, toLex (l.feAt x.1, x.1)) < toLex (y.2, toLex (l.feAt y.1, y.1)) := by
  have hsame : ∀ (p : Nat) (ks : List Bytes32), ks.Pairwise (EffectiveOwedIndex.before l.feAt) →
      (ks.map fun k => (k, p)).Pairwise fun x y =>
        toLex (x.2, toLex (l.feAt x.1, x.1)) < toLex (y.2, toLex (l.feAt y.1, y.1)) := by
    intro p ks hks
    rw [pairwise_map]
    apply hks.imp
    intro k k' hlt
    rw [Prod.Lex.toLex_lt_toLex]
    exact .inr ⟨rfl, hlt⟩
  have hsorted := h.ordered.sorted_eligible
  unfold turnList
  split
  · rw [pairwise_append]
    refine ⟨hsame 0 _ (hsorted.filter _), hsame 1 _ (hsorted.filter _), fun x hx y hy => ?_⟩
    obtain ⟨k, -, rfl⟩ := mem_map.mp hx
    obtain ⟨k', -, rfl⟩ := mem_map.mp hy
    rw [Prod.Lex.toLex_lt_toLex]
    exact .inl Nat.zero_lt_one
  · exact hsame 0 _ hsorted

theorem nodup_turnList (h : l.Indexed) : ((turnList rules l).map Prod.fst).Nodup := by
  rw [List.Nodup, pairwise_map]
  apply (sorted_turnList h).imp_of_mem
  rintro x y hx hy hlt heq
  rw [passOf_of_mem hx, passOf_of_mem hy, heq] at hlt
  exact lt_irrefl _ hlt

/-- The walk of `propose_coinbase` is the walk over the queue. -/
theorem filter_turnList (h : l.Indexed) :
    ((turnList rules l).map Prod.fst).filter (fun k => Payable rules l k) = queue rules l id := by
  apply eq_queue
  · intro k
    rw [mem_filter, mem_turnList h, decide_eq_true_eq]
    exact ⟨And.right, fun hk => ⟨hk.1, hk⟩⟩
  · exact (nodup_turnList h).filter _
  · apply List.Pairwise.filter
    rw [pairwise_map]
    apply (sorted_turnList h).imp_of_mem
    intro x y hx hy hlt
    rw [passOf_of_mem hx, passOf_of_mem hy] at hlt
    rw [Prod.Lex.toLex_lt_toLex] at hlt
    obtain hpass | ⟨hpass, hlt⟩ := hlt
    · apply rank_le_of_group
      rw [Prod.Lex.toLex_lt_toLex]
      exact .inl hpass
    rw [Prod.Lex.toLex_lt_toLex] at hlt
    obtain hfe | ⟨hfe, hkey⟩ := hlt
    · apply rank_le_of_group
      rw [Prod.Lex.toLex_lt_toLex]
      exact .inr ⟨hpass, hfe⟩
    apply rank_le_of_tie hpass hfe
    rw [Prod.Lex.toLex_le_toLex]
    exact .inl hkey

/-! ## Cohorts -/

def cohortKeys (cohort : List (Bytes32 ×ₗ Bytes32)) : List Bytes32 :=
  (cohort.insertionSort (· ≤ ·)).map fun x => (ofLex x).2

variable (l) in
/-- The order in which the salted walk pays. -/
def arrange (tie : Bytes32 → Bytes32) :
    List (Bytes32 ×ₗ Bytes32) → U64 → Nat → List (Bytes32 × Nat) → List Bytes32
  | cohort, _, _, [] => cohortKeys cohort
  | cohort, fe, pass, x :: xs =>
    if cohort ≠ [] ∧ (l.feAt x.1 ≠ fe ∨ x.2 ≠ pass) then
      cohortKeys cohort ++ arrange tie [toLex (tie x.1, x.1)] (l.feAt x.1) x.2 xs
    else arrange tie (cohort ++ [toLex (tie x.1, x.1)]) (l.feAt x.1) x.2 xs

theorem flush_spec (st : CohortWalk) :
    (flush rules l args st).walk =
        (cohortKeys st.cohort).foldl (fun w k => (l.turn rules args w k).1) st.walk ∧
      ((flush rules l args st).stop = true → ∀ k,
        l.turn rules args (flush rules l args st).walk k =
          ((flush rules l args st).walk, false)) := by
  have hlatch : Run.Latches fun (w : Walk) (x : Bytes32 ×ₗ Bytes32) =>
      l.turn rules args w (ofLex x).2 :=
    fun w a h b => latches_turn w (ofLex a).2 h (ofLex b).2
  obtain ⟨hfold, hstop⟩ := hlatch.visit st.walk (st.cohort.insertionSort (· ≤ ·))
  constructor
  · rw [cohortKeys, foldl_map]
    exact hfold
  intro h k
  have hfalse : (Run.visit (fun (w : Walk) (x : Bytes32 ×ₗ Bytes32) =>
      l.turn rules args w (ofLex x).2) st.walk (st.cohort.insertionSort (· ≤ ·))).2 = false := by
    simpa [flush] using h
  exact hstop hfalse (toLex (k, k))

theorem walk_salted (sha : List Byte → Bytes32) (salt : Bytes32) (xs : List (Bytes32 × Nat))
    {st : CohortWalk} (hst : st.stop = false) :
    let r := (Run.visit (fun s x => saltedTurn rules l args sha salt s x.1 x.2) st xs).1
    (if r.stop = false ∧ r.cohort ≠ [] then flush rules l args r else r).walk =
      (arrange l (salted sha salt) st.cohort st.fe st.pass xs).foldl
        (fun w k => (l.turn rules args w k).1) st.walk := by
  induction xs generalizing st with
  | nil =>
    simp only [Run.visit, arrange, hst, true_and]
    split
    · exact (flush_spec st).1
    rename_i hnone
    rw [not_not] at hnone
    rw [hnone]
    rfl
  | cons x xs ih =>
    simp only [Run.visit, arrange, saltedTurn]
    split
    · rw [foldl_append, ← (flush_spec st).1]
      by_cases hstop : (flush rules l args st).stop = true
      · simp only [hstop, if_true]
        rw [Run.Latches.foldl_eq ((flush_spec st).2 hstop)]
        simp [hstop]
      simp only [hstop]
      rw [Bool.not_eq_true] at hstop
      exact @ih (gather l sha salt (flush rules l args st) x.1 x.2) hstop
    · exact @ih (gather l sha salt st x.1 x.2) hst

theorem perm_cohortKeys (cohort : List (Bytes32 ×ₗ Bytes32)) :
    (cohortKeys cohort).Perm (cohort.map fun x => (ofLex x).2) := (perm_insertionSort _ _).map _

theorem perm_arrange (tie : Bytes32 → Bytes32) (cohort : List (Bytes32 ×ₗ Bytes32)) (fe : U64)
    (pass : Nat) (xs : List (Bytes32 × Nat)) :
    (arrange l tie cohort fe pass xs).Perm
      ((cohort.map fun x => (ofLex x).2) ++ xs.map Prod.fst) := by
  induction xs generalizing cohort fe pass with
  | nil =>
    rw [map_nil, append_nil]
    exact perm_cohortKeys cohort
  | cons x xs ih =>
    simp only [arrange]
    split
    · exact (perm_cohortKeys cohort).append (ih [toLex (tie x.1, x.1)] _ _)
    have hih := ih (cohort ++ [toLex (tie x.1, x.1)]) (l.feAt x.1) x.2
    rw [map_append, append_assoc] at hih
    exact hih

def Uniform (rules : OwedLedgerRules) (l : OwedLedger) (tie : Bytes32 → Bytes32)
    (cohort : List (Bytes32 ×ₗ Bytes32)) (fe : U64) (pass : Nat) : Prop :=
  ∀ c ∈ cohort, c = toLex (tie (ofLex c).2, (ofLex c).2) ∧ passOf rules l (ofLex c).2 = pass ∧
    l.feAt (ofLex c).2 = fe

theorem Uniform.sorted {fe : U64} (h : Uniform rules l tie cohort fe pass) :
    (cohortKeys cohort).Pairwise fun k k' => rank rules l tie k ≤ rank rules l tie k' := by
  unfold cohortKeys
  rw [pairwise_map]
  apply (pairwise_insertionSort (· ≤ ·) cohort).imp_of_mem
  intro c c' hc hc' hle
  rw [mem_insertionSort] at hc hc'
  obtain ⟨heq, hpass, hfe⟩ := h c hc
  obtain ⟨heq', hpass', hfe'⟩ := h c' hc'
  apply rank_le_of_tie (hpass.trans hpass'.symm) (hfe.trans hfe'.symm)
  rw [← heq, ← heq']
  exact hle

theorem sorted_arrange (tie : Bytes32 → Bytes32) {xs : List (Bytes32 × Nat)}
    (hpass : ∀ x ∈ xs, x.2 = passOf rules l x.1)
    (hsorted : xs.Pairwise fun x y => toLex (x.2, l.feAt x.1) ≤ toLex (y.2, l.feAt y.1)) {fe : U64}
    (hcohort : Uniform rules l tie cohort fe pass)
    (hahead : cohort ≠ [] → ∀ x ∈ xs, toLex (pass, fe) ≤ toLex (x.2, l.feAt x.1)) :
    (arrange l tie cohort fe pass xs).Pairwise fun k k' =>
      rank rules l tie k ≤ rank rules l tie k' := by
  induction xs generalizing cohort fe pass with
  | nil => exact hcohort.sorted
  | cons x xs ih =>
    obtain ⟨hfirst, hrest⟩ := pairwise_cons.mp hsorted
    have hpass' : ∀ y ∈ xs, y.2 = passOf rules l y.1 := fun y hy => hpass y (mem_cons_of_mem x hy)
    have hx := hpass x mem_cons_self
    have hone : Uniform rules l tie [toLex (tie x.1, x.1)] (l.feAt x.1) x.2 := by
      intro c hc
      rw [mem_singleton] at hc
      subst hc
      exact ⟨rfl, hx.symm, rfl⟩
    simp only [arrange]
    split
    · rename_i hnext
      rw [pairwise_append]
      refine ⟨hcohort.sorted, ih hpass' hrest hone fun _ => hfirst, fun k hk k' hk' => ?_⟩
      -- the cohort is strictly earlier than whatever comes after it
      have hlt : toLex (pass, fe) < toLex (x.2, l.feAt x.1) := by
        apply lt_of_le_of_ne (hahead hnext.1 x mem_cons_self)
        intro heq
        have hpair : (pass, fe) = (x.2, l.feAt x.1) := toLex.injective heq
        rw [Prod.mk.injEq] at hpair
        exact hnext.2.elim (fun h => h hpair.2.symm) (fun h => h hpair.1.symm)
      obtain ⟨c, hc, rfl⟩ := mem_map.mp ((perm_cohortKeys cohort).mem_iff.mp hk)
      obtain ⟨-, hcpass, hcfe⟩ := hcohort c hc
      have hlater : toLex (x.2, l.feAt x.1) ≤ toLex (passOf rules l k', l.feAt k') := by
        have hmem := (perm_arrange tie [toLex (tie x.1, x.1)] (l.feAt x.1) x.2 xs).mem_iff.mp hk'
        rw [map_singleton, singleton_append, mem_cons] at hmem
        obtain rfl | hmem := hmem
        · rw [hx]
          exact le_refl _
        obtain ⟨y, hy, rfl⟩ := mem_map.mp hmem
        rw [← hpass' y hy]
        exact hfirst y hy
      apply rank_le_of_group
      rw [hcpass, hcfe]
      exact lt_of_lt_of_le hlt hlater
    rename_i hsame
    apply ih hpass' hrest _ fun _ => hfirst
    intro c hc
    rw [mem_append] at hc
    obtain hc | hc := hc
    · -- the key joins a cohort of its own pass and age
      have hne : cohort ≠ [] := ne_nil_of_mem hc
      rw [not_and, not_or, not_not, not_not] at hsame
      obtain ⟨hfe, hp⟩ := hsame hne
      rw [hfe, hp]
      exact hcohort c hc
    · exact hone c hc

theorem filter_arrange (h : l.Indexed) (tie : Bytes32 → Bytes32) (fe : U64) (pass : Nat) :
    (arrange l tie [] fe pass (turnList rules l)).filter (fun k => Payable rules l k) =
      queue rules l tie := by
  have hperm := @perm_arrange l tie [] fe pass (turnList rules l)
  rw [map_nil, nil_append] at hperm
  apply eq_queue
  · intro k
    rw [mem_filter, hperm.mem_iff, mem_turnList h, decide_eq_true_eq]
    exact ⟨And.right, fun hk => ⟨hk.1, hk⟩⟩
  · exact (hperm.nodup_iff.mpr (nodup_turnList h)).filter _
  · apply List.Pairwise.filter
    apply sorted_arrange tie (fun x hx => passOf_of_mem hx)
    · apply (sorted_turnList h).imp
      intro x y hlt
      rw [Prod.Lex.toLex_lt_toLex, Prod.Lex.toLex_lt_toLex] at hlt
      rw [Prod.Lex.toLex_le_toLex]
      obtain hpass | ⟨hpass, hfe | ⟨hfe, -⟩⟩ := hlt
      · exact .inl hpass
      · exact .inr ⟨hpass, hfe.le⟩
      · exact .inr ⟨hpass, hfe.le⟩
    · intro c hc
      exact (not_mem_nil hc).elim
    · intro hne
      exact absurd rfl hne

theorem proposeCoinbase_eq_direct (h : l.Indexed) :
    proposeCoinbase rules l args = directProposal rules l args id := by
  rw [proposeCoinbase_eq, foldl_turn_filter h, filter_turnList h,
    outs_foldl_turn h (fun k hk => mem_queue.mp hk)]
  rfl

theorem proposeCoinbaseSalted_eq_direct (h : l.Indexed) (sha : List Byte → Bytes32)
    (salt : Bytes32) : proposeCoinbaseSalted rules l args sha salt =
      directProposal rules l args (salted sha salt) := by
  have hwalk := @walk_salted rules l args sha salt (turnList rules l)
    { walk := ⟨args.blockReward.val, []⟩ } rfl
  unfold proposeCoinbaseSalted
  rw [forEachInTurn_eq]
  dsimp only at hwalk ⊢
  rw [hwalk, foldl_turn_filter h, filter_arrange h, outs_foldl_turn h (fun k hk => mem_queue.mp hk)]
  rfl

/-- After every list of calls, the index serves the effective balance as it is defined, and the
proposals are those of the direct algorithm. -/
theorem after_serves_direct (sha : List Byte → Bytes32) (rules : OwedLedgerRules)
    (calls : List LedgerCall) :
    (∀ k, (after sha rules calls).effectiveOwed k =
        (after sha rules calls).finalW.balance k -
          (after sha rules calls).pendingPayout k) ∧
      ∀ args : ProposalArgs,
        proposeCoinbase rules (after sha rules calls) args =
            directProposal rules (after sha rules calls) args id ∧
          ∀ salt, proposeCoinbaseSalted rules (after sha rules calls) args sha salt =
            directProposal rules (after sha rules calls) args (salted sha salt) := by
  have h : (after sha rules calls).Indexed := indexed_after calls
  exact ⟨h.value, fun args =>
    ⟨proposeCoinbase_eq_direct h, fun salt => proposeCoinbaseSalted_eq_direct h sha salt⟩⟩

end OwedLedger

end C2Pool.V37
