import C2Pool.V37.OwedDigest
import C2Pool.V37.OwedLeaves
import C2Pool.V37.Sha256

/-! # What the event log binds

Two ledgers with the same number of events and the same root of the event log
went through the same events: the root determines the leaves, and the leaves
determine the calls that left a trace.  The one argument of a found block that
no leaf carries is its cut.
-/

namespace C2Pool.V37

open List C2Pool.SortedMap

section Log

variable (sha : List Byte → Bytes32)

def RecordLog.ofPayloads (payloads : List (List Byte)) : RecordLog :=
  payloads.foldl (RecordLog.append sha) {}

def hashedBy (payloads : List (List Byte)) : List (List Byte) :=
  (payloads.map fun p => 0x00 :: p) ++
    (Mmr.mergedPairs (interiorHash sha) (payloads.map (leafHash sha))).map fun p =>
      0x01 :: (p.1.toBytes ++ p.2.toBytes)

def CollisionFree (inputs : List (List Byte)) : Prop :=
  ∀ x ∈ inputs, ∀ y ∈ inputs, sha x = sha y → x = y

instance (inputs : List (List Byte)) : Decidable (CollisionFree sha inputs) :=
  inferInstanceAs (Decidable (∀ x ∈ inputs, ∀ y ∈ inputs, _))

variable {sha}

theorem peaks_foldl_append (payloads : List (List Byte)) (log : RecordLog) :
    (payloads.foldl (RecordLog.append sha) log).peaks.peaks.reverse =
        Mmr.appendAll (interiorHash sha) log.peaks.leafCount log.peaks.peaks.reverse
          (payloads.map (leafHash sha)) ∧
      (payloads.foldl (RecordLog.append sha) log).leafCount = log.leafCount + payloads.length := by
  induction payloads generalizing log with
  | nil => exact ⟨rfl, rfl⟩
  | cons p payloads ih =>
    obtain ⟨hpeaks, hcount⟩ := ih (log.append sha p)
    rw [foldl_cons]
    constructor
    · rw [hpeaks]
      simp only [RecordLog.append, mmrAppend, reverse_reverse, map_cons,
        Mmr.appendAll, length_reverse]
    rw [hcount]
    simp only [RecordLog.append, RecordLog.leafCount, mmrAppend, length_cons]
    omega

theorem leafCount_ofPayloads (payloads : List (List Byte)) :
    (RecordLog.ofPayloads sha payloads).leafCount = payloads.length := by
  have h := (@peaks_foldl_append sha payloads {}).2
  rw [RecordLog.ofPayloads, h]
  exact Nat.zero_add _

theorem root_ofPayloads (payloads : List (List Byte)) :
    (RecordLog.ofPayloads sha payloads).root sha =
      (Mmr.bag (interiorHash sha) (Mmr.appendAll (interiorHash sha) 0 []
        (payloads.map (leafHash sha)))).getD 0 := by
  have h : (payloads.foldl (RecordLog.append sha) {}).peaks.peaks.reverse =
      Mmr.appendAll (interiorHash sha) 0 [] (payloads.map (leafHash sha)) :=
    (peaks_foldl_append payloads {}).1
  rw [RecordLog.ofPayloads, RecordLog.root, mmrBag, h]
  cases Mmr.appendAll (interiorHash sha) 0 [] (payloads.map (leafHash sha)) <;> rfl

theorem payloads_eq_of_root_eq {ps ps' : List (List Byte)}
    (hfree : CollisionFree sha (hashedBy sha ps ++ hashedBy sha ps'))
    (hcount : (RecordLog.ofPayloads sha ps).leafCount = (RecordLog.ofPayloads sha ps').leafCount)
    (hroot : (RecordLog.ofPayloads sha ps).root sha = (RecordLog.ofPayloads sha ps').root sha) :
    ps = ps' := by
  have hin : ∀ {qs : List (List Byte)} {p : List Byte}, p ∈ qs →
      (0x00 :: p : List Byte) ∈ hashedBy sha qs :=
    fun h => mem_append_left _ (mem_map_of_mem h)
  have hpair : ∀ {qs : List (List Byte)} {p : Bytes32 × Bytes32},
      p ∈ Mmr.mergedPairs (interiorHash sha) (qs.map (leafHash sha)) →
      (0x01 :: (p.1.toBytes ++ p.2.toBytes) : List Byte) ∈ hashedBy sha qs :=
    fun h => mem_append_right _ (mem_map_of_mem h)
  rw [leafCount_ofPayloads, leafCount_ofPayloads] at hcount
  rw [root_ofPayloads, root_ofPayloads] at hroot
  have hleaves : ps.map (leafHash sha) = ps'.map (leafHash sha) := by
    apply Mmr.eq_of_getD_root_eq 0 (by rw [length_map, length_map, hcount]) _ hroot
    intro p hp p' hp' heq
    have hbytes := hfree _ (mem_append_left _ (hpair hp)) _ (mem_append_right _ (hpair hp')) heq
    rw [List.cons.injEq] at hbytes
    obtain ⟨hfst, hsnd⟩ := delimits_toBytes _ _ _ _ trivial trivial hbytes.2
    exact Prod.ext hfst (toBytes_injective hsnd)
  apply eq_of_map_eq _ hleaves
  intro p hp p' hp' heq
  have hbytes := hfree _ (mem_append_left _ (hin hp)) _ (mem_append_right _ (hin hp')) heq
  exact (List.cons.inj hbytes).2

end Log

def LedgerCall.head : LedgerCall → EvKind × Bid × U64
  | .found bid _ => (.found, bid, 0)
  | .finalized bid binHeight => (.finalize, bid, binHeight)
  | .orphaned bid _ => (.orphan, bid, 0)

namespace OwedLedger

variable (sha : List Byte → Bytes32) (rules : OwedLedgerRules) {l : OwedLedger} {c : LedgerCall}
  {x : List Byte} {bk : Book Bid FoundArgs U64} {l' : OwedLedger} {c' : LedgerCall} {bid : Bid}
  {bk' : Book Bid FoundArgs U64} {calls : List LedgerCall} {xs : List (List Byte)}

def leafOf (l : OwedLedger) : LedgerCall → Option (List Byte)
  | .found bid args =>
    if l.pending.lookup bid ≠ none ∨ bid ∈ l.settled then none
    else some ((Pending.ofFound rules args).leaf bid)
  | .finalized bid binHeight =>
    (l.pending.lookup bid).map fun p => l.finalizeLeaf rules bid p binHeight
  | .orphaned bid settledPayout =>
    match l.pending.lookup bid with
    | some _ => some (orphanPrePayload bid)
    | none => if bid ∈ l.settled then some (orphanSettledPayload bid settledPayout) else none

def payloads : OwedLedger → List LedgerCall → List (List Byte)
  | _, [] => []
  | l, c :: calls => (l.leafOf rules c).toList ++ payloads (l.call sha rules c) calls

variable {sha rules}

theorem evlog_call (l : OwedLedger) (c : LedgerCall) :
    (l.call sha rules c).evlog =
      (l.leafOf rules c).toList.foldl (RecordLog.append sha) l.evlog := by
  cases c with
  | found bid args =>
    simp only [call, onBlockFound, leafOf]
    split <;> rfl
  | finalized bid binHeight =>
    simp only [call, onBlockFinalized, leafOf]
    cases l.pending.lookup bid <;> rfl
  | orphaned bid settledPayout =>
    simp only [call, onBlockOrphaned, leafOf]
    cases l.pending.lookup bid with
    | some p => rfl
    | none =>
      dsimp only
      split
      · unfold noteResidual
        split <;> rfl
      · rfl

theorem evlog_run (l : OwedLedger) (calls : List LedgerCall) :
    (Run.run (call sha rules) l calls).evlog =
      (payloads sha rules l calls).foldl (RecordLog.append sha) l.evlog := by
  induction calls generalizing l with
  | nil => rfl
  | cons c calls ih => rw [Run.run_cons, ih, payloads, foldl_append, evlog_call]

theorem evlog_after (calls : List LedgerCall) :
    (after sha rules calls).evlog =
      RecordLog.ofPayloads sha (payloads sha rules {} calls) := evlog_run {} calls

theorem finalizeLeaf_eq (l : OwedLedger) (bid : Bid) (p : Pending) (binHeight : U64) :
    l.finalizeLeaf rules bid p binHeight =
      leafPayload .finalize bid binHeight ∅ ∅ (l.writtenOff rules p binHeight) := by
  unfold finalizeLeaf
  split
  · rename_i hnone
    rw [hnone]
    rfl
  · rfl

theorem leafOf_head (h : l.leafOf rules c = some x) : ∃ credit payout settled tail,
      x = leafPayload c.head.1 c.head.2.1 c.head.2.2 credit payout settled ++ tail := by
  cases c with
  | found bid args =>
    simp only [leafOf] at h
    split at h
    · cases h
    cases h
    rw [Pending.leaf_eq]
    exact ⟨_, _, _, _, rfl⟩
  | finalized bid binHeight =>
    simp only [leafOf, Option.map_eq_some_iff] at h
    obtain ⟨p, -, rfl⟩ := h
    rw [finalizeLeaf_eq, ← append_nil (leafPayload _ _ _ _ _ _)]
    exact ⟨_, _, _, _, rfl⟩
  | orphaned bid settledPayout =>
    simp only [leafOf] at h
    split at h
    · cases h
      rw [orphanPrePayload, ← append_nil (leafPayload _ _ _ _ _ _)]
      exact ⟨_, _, _, _, rfl⟩
    split at h
    · cases h
      rw [orphanSettledPayload, ← append_nil (leafPayload _ _ _ _ _ _)]
      exact ⟨_, _, _, _, rfl⟩
    · cases h

def Encodes (rules : OwedLedgerRules) (c : LedgerCall) : Prop :=
  c.head.2.1.length < 2 ^ 32 ∧ ∀ bid args, c = .found bid args → (Pending.ofFound rules args).Fits

theorem head_eq_of_leaf_eq (hc : Encodes rules c) (hc' : Encodes rules c')
    (h : l.leafOf rules c = some x) (h' : l'.leafOf rules c' = some x) : c.head = c'.head := by
  obtain ⟨_, _, _, _, hx⟩ := leafOf_head h
  obtain ⟨_, _, _, _, hx'⟩ := leafOf_head h'
  obtain ⟨hkind, hbid, hbin, -⟩ := leafPayload_delimits hc.1 hc'.1 (hx.symm.trans hx')
  exact Prod.ext hkind (Prod.ext hbid hbin)

/-! ## Runs with the same leaves -/

/-- Books that differ at most in the cuts of their blocks. -/
structure Alike (rules : OwedLedgerRules) (bk bk' : Book Bid FoundArgs U64) : Prop where
  pending : (bk.pending.mapValues fun _ args => (Pending.ofFound rules args).core) =
    bk'.pending.mapValues fun _ args => (Pending.ofFound rules args).core
  history : (bk.history.map fun e => (e.1, (Pending.ofFound rules e.2.1).core, e.2.2)) =
    bk'.history.map fun e => (e.1, (Pending.ofFound rules e.2.1).core, e.2.2)

theorem step_of_leafOf_none (hkeeps : Keeps rules l bk) (h : l.leafOf rules c = none) :
    bk.step c.event = bk := by
  cases c with
  | found bid args =>
    simp only [leafOf, hkeeps.lookup, hkeeps.settled, ne_eq, Option.map_eq_none_iff] at h
    split at h
    · rename_i hknown
      exact if_pos hknown
    · cases h
  | finalized bid binHeight =>
    simp only [leafOf, hkeeps.lookup, Option.map_eq_none_iff] at h
    simp only [LedgerCall.event, Book.step, h]
  | orphaned bid settledPayout =>
    simp only [leafOf] at h
    split at h
    · cases h
    rename_i hnone
    rw [hkeeps.lookup, Option.map_eq_none_iff] at hnone
    simp only [LedgerCall.event, Book.step, erase_of_lookup_none hnone]

theorem call_of_leafOf_none (h : l.leafOf rules c = none) : l.call sha rules c = l := by
  cases c with
  | found bid args =>
    simp only [leafOf] at h
    split at h
    · rename_i hknown
      exact if_pos hknown
    · cases h
  | finalized bid binHeight =>
    simp only [leafOf, Option.map_eq_none_iff] at h
    simp only [call, onBlockFinalized, h]
  | orphaned bid settledPayout =>
    simp only [leafOf] at h
    simp only [call, onBlockOrphaned]
    cases hp : l.pending.lookup bid with
    | some p =>
      rw [hp] at h
      cases h
    | none =>
      rw [hp] at h
      dsimp only at h ⊢
      split at h
      · cases h
      · rename_i hset
        exact if_neg hset

theorem leafOf_found (hkeeps : Keeps rules l bk) {args : FoundArgs}
    (h : l.leafOf rules (.found bid args) = some x) :
    x = (Pending.ofFound rules args).leaf bid ∧
      bk.step (LedgerCall.found bid args).event =
        { bk with pending := bk.pending.insert bid args } := by
  simp only [leafOf, hkeeps.lookup, hkeeps.settled, ne_eq, Option.map_eq_none_iff] at h
  split at h
  · cases h
  rename_i hnew
  cases h
  exact ⟨rfl, if_neg hnew⟩

theorem leafOf_finalized (hkeeps : Keeps rules l bk) {binHeight : U64}
    (h : l.leafOf rules (.finalized bid binHeight) = some x) :
    ∃ args, bk.pending.lookup bid = some args ∧
      bk.step (LedgerCall.finalized bid binHeight).event =
        ⟨bk.pending.erase bid, bk.history ++ [(bid, args, binHeight)]⟩ := by
  simp only [leafOf, hkeeps.lookup, Option.map_eq_some_iff] at h
  obtain ⟨p, ⟨args, hargs, -⟩, -⟩ := h
  exact ⟨args, hargs, by simp only [LedgerCall.event, Book.step, hargs]⟩

theorem Alike.lookup (h : Alike rules bk bk') (bid : Bid) :
    ((bk.pending.lookup bid).map fun args => (Pending.ofFound rules args).core) =
      (bk'.pending.lookup bid).map fun args => (Pending.ofFound rules args).core := by
  have := congrArg (fun m => SortedMap.lookup m bid) h.pending
  simpa only [lookup_mapValues] using this

theorem Alike.step (h : Alike rules bk bk') (hkeeps : Keeps rules l bk)
    (hkeeps' : Keeps rules l' bk') (hc : Encodes rules c) (hc' : Encodes rules c')
    (hx : l.leafOf rules c = some x) (hx' : l'.leafOf rules c' = some x) :
    Alike rules (bk.step c.event) (bk'.step c'.event) := by
  have hhead := head_eq_of_leaf_eq hc hc' hx hx'
  cases c with
  | found bid args =>
    cases c' with
    | found bid' args' =>
      obtain ⟨hleaf, hstep⟩ := leafOf_found hkeeps hx
      obtain ⟨hleaf', hstep'⟩ := leafOf_found hkeeps' hx'
      have hbid : bid = bid' := congrArg (fun e => e.2.1) hhead
      have hcore := (Pending.leaf_injective hc.1 hc'.1 (hc.2 _ _ rfl) (hc'.2 _ _ rfl)
        (Pending.normal_ofFound rules args) (Pending.normal_ofFound rules args')
        (hleaf.symm.trans hleaf')).2
      rw [hstep, hstep', hbid]
      refine ⟨?_, h.history⟩
      rw [mapValues_insert, mapValues_insert, h.pending, hcore]
    | finalized bid' binHeight' => cases congrArg Prod.fst hhead
    | orphaned bid' settledPayout' => cases congrArg Prod.fst hhead
  | finalized bid binHeight =>
    cases c' with
    | found bid' args' => cases congrArg Prod.fst hhead
    | finalized bid' binHeight' =>
      cases hhead
      obtain ⟨args, hargs, hstep⟩ := leafOf_finalized hkeeps hx
      obtain ⟨args', hargs', hstep'⟩ := leafOf_finalized hkeeps' hx'
      have hcore := h.lookup bid
      rw [hargs, hargs', Option.map_some, Option.map_some, Option.some.injEq] at hcore
      rw [hstep, hstep']
      constructor
      · dsimp only
        rw [mapValues_erase, mapValues_erase, h.pending]
      · dsimp only
        rw [map_append, map_append, h.history, map_cons, map_cons, hcore]
    | orphaned bid' settledPayout' => cases congrArg Prod.fst hhead
  | orphaned bid settledPayout =>
    cases c' with
    | found bid' args' => cases congrArg Prod.fst hhead
    | finalized bid' binHeight' => cases congrArg Prod.fst hhead
    | orphaned bid' settledPayout' =>
      have hbid : bid = bid' := congrArg (fun e => e.2.1) hhead
      refine ⟨?_, h.history⟩
      simp only [LedgerCall.event, Book.step]
      rw [mapValues_erase, mapValues_erase, h.pending, hbid]

theorem run_of_payloads_nil (hkeeps : Keeps rules l bk) (h : payloads sha rules l calls = []) :
    Run.run Book.step bk (calls.map LedgerCall.event) = bk := by
  induction calls with
  | nil => rfl
  | cons c calls ih =>
    rw [payloads, append_eq_nil_iff] at h
    have hnone : l.leafOf rules c = none := by
      cases hl : l.leafOf rules c with
      | none => rfl
      | some x =>
        rw [hl] at h
        cases h.1
    rw [call_of_leafOf_none hnone] at h
    rw [map_cons, Run.run_cons, step_of_leafOf_none hkeeps hnone]
    exact ih h.2

theorem run_of_payloads_cons (hkeeps : Keeps rules l bk)
    (h : payloads sha rules l calls = x :: xs) :
    ∃ c ∈ calls, ∃ rest ⊆ calls, l.leafOf rules c = some x ∧
      payloads sha rules (l.call sha rules c) rest = xs ∧
      Run.run Book.step bk (calls.map LedgerCall.event) =
        Run.run Book.step (bk.step c.event) (rest.map LedgerCall.event) := by
  induction calls with
  | nil => cases h
  | cons c calls ih =>
    rw [payloads] at h
    cases hl : l.leafOf rules c with
    | some y =>
      rw [hl, Option.toList_some, singleton_append, List.cons.injEq] at h
      refine ⟨c, mem_cons_self, calls, subset_cons_self _ _, ?_, h.2, rfl⟩
      rw [hl, h.1]
    | none =>
      rw [hl, Option.toList_none, nil_append, call_of_leafOf_none hl] at h
      obtain ⟨c', hc', rest, hrest, hleaf, hxs, hrun⟩ := ih h
      refine ⟨c', mem_cons_of_mem _ hc', rest, fun _ hm => mem_cons_of_mem _ (hrest hm),
        hleaf, hxs, ?_⟩
      rw [map_cons, Run.run_cons, step_of_leafOf_none hkeeps hl]
      exact hrun

theorem Alike.run {l l' : OwedLedger} {bk bk' : Book Bid FoundArgs U64} (h : Alike rules bk bk')
    (hkeeps : Keeps rules l bk) (hkeeps' : Keeps rules l' bk') {calls calls' : List LedgerCall}
    (hc : ∀ c ∈ calls, Encodes rules c) (hc' : ∀ c ∈ calls', Encodes rules c)
    (hx : payloads sha rules l calls = xs) (hx' : payloads sha rules l' calls' = xs) :
    Alike rules (Run.run Book.step bk (calls.map LedgerCall.event))
      (Run.run Book.step bk' (calls'.map LedgerCall.event)) := by
  -- the induction is on the leaves, since either run may have calls that leave none
  induction xs generalizing l l' bk bk' calls calls' with
  | nil =>
    rw [run_of_payloads_nil hkeeps hx, run_of_payloads_nil hkeeps' hx']
    exact h
  | cons x xs ih =>
    obtain ⟨c, hmem, rest, hrest, hleaf, hxs, hrun⟩ := run_of_payloads_cons hkeeps hx
    obtain ⟨c', hmem', rest', hrest', hleaf', hxs', hrun'⟩ := run_of_payloads_cons hkeeps' hx'
    rw [hrun, hrun']
    exact ih (h.step hkeeps hkeeps' (hc c hmem) (hc' c' hmem') hleaf hleaf') (hkeeps.call c)
      (hkeeps'.call c') (fun d hd => hc d (hrest hd)) (fun d hd => hc' d (hrest' hd)) hxs hxs'

theorem ofFound_eq_of_core {args args' : FoundArgs}
    (hcore : (Pending.ofFound rules args).core = (Pending.ofFound rules args').core)
    (hcut : rules.anchorCut = true → args.cut = args'.cut) :
    Pending.ofFound rules args = Pending.ofFound rules args' := by
  have hsame : (Pending.ofFound rules args).cut = (Pending.ofFound rules args').cut := by
    unfold Pending.ofFound
    split
    · rename_i hon
      exact hcut hon
    · rfl
  have hrow : ∀ p : Pending, p = { p.core with cut := p.cut } := fun _ => rfl
  rw [hrow (Pending.ofFound rules args), hrow (Pending.ofFound rules args'), hcore, hsame]

theorem ofHistory_eq {hs hs' : List (Bid × FoundArgs × U64)}
    (hcore : (hs.map fun e => (e.1, (Pending.ofFound rules e.2.1).core, e.2.2)) =
      hs'.map fun e => (e.1, (Pending.ofFound rules e.2.1).core, e.2.2))
    (hcut : rules.anchorCut = true → (hs.map fun e => e.2.1.cut) = hs'.map fun e => e.2.1.cut)
    (fin : Finalized) :
    hs.foldl (fun fin e => fin.settle rules (Pending.ofFound rules e.2.1) e.2.2) fin =
      hs'.foldl (fun fin e => fin.settle rules (Pending.ofFound rules e.2.1) e.2.2) fin := by
  induction hs generalizing hs' fin with
  | nil =>
    cases hs' with
    | nil => rfl
    | cons e' hs' => cases hcore
  | cons e hs ih =>
    cases hs' with
    | nil => cases hcore
    | cons e' hs' =>
      simp only [map_cons, List.cons.injEq, Prod.mk.injEq] at hcore hcut
      obtain ⟨⟨-, hrow, hheight⟩, htail⟩ := hcore
      rw [foldl_cons, foldl_cons, hheight, ofFound_eq_of_core hrow fun hon => (hcut hon).1]
      exact ih htail (fun hon => (hcut hon).2) _

theorem pendingPayout_eq (hkeeps : Keeps rules l bk) (k : Bytes32) :
    l.pendingPayout k = (bk.pending.mapValues fun _ args =>
      (Pending.ofFound rules args).core).sumBy fun p => p.payout.balance k := by
  unfold pendingPayout SortedMap.sumBy
  rw [hkeeps.pending, entries_mapValues, entries_mapValues, map_map, map_map]
  rfl

/-- **The log binds the ledger**, up to the cuts: two runs with the same number of leaves and the
same root, whose settled blocks were found with the same cuts, end with the same digest and the
same effective balances. -/
theorem log_binds_ledger (sha : List Byte → Bytes32) (rules : OwedLedgerRules)
    {calls calls' : List LedgerCall} (hc : ∀ c ∈ calls, Encodes rules c)
    (hc' : ∀ c ∈ calls', Encodes rules c)
    (hfree : CollisionFree sha (hashedBy sha (payloads sha rules {} calls) ++
      hashedBy sha (payloads sha rules {} calls')))
    (hcut : rules.anchorCut = true → ((bookOf calls).history.map fun e => e.2.1.cut) =
      (bookOf calls').history.map fun e => e.2.1.cut)
    (hcount : (after sha rules calls).evlog.leafCount = (after sha rules calls').evlog.leafCount)
    (hroot : (after sha rules calls).evlog.root sha = (after sha rules calls').evlog.root sha) :
    (after sha rules calls).digest sha rules =
        (after sha rules calls').digest sha rules ∧
      ∀ k, (after sha rules calls).effectiveOwed k = (after sha rules calls').effectiveOwed k := by
  rw [evlog_after, evlog_after] at hcount hroot
  have hkeeps := @keeps_after sha rules calls
  have hkeeps' := @keeps_after sha rules calls'
  have halike : Alike rules (bookOf calls) (bookOf calls') :=
    Alike.run ⟨rfl, rfl⟩ (@keeps_after sha rules []) (@keeps_after sha rules []) hc hc'
      (payloads_eq_of_root_eq hfree hcount hroot) rfl
  have hfin : (after sha rules calls).toFinalized = (after sha rules calls').toFinalized := by
    rw [hkeeps.finalized, hkeeps'.finalized]
    exact ofHistory_eq halike.history hcut {}
  refine ⟨by rw [hfin], fun k => ?_⟩
  have hvalue := (@indexed_after sha rules calls).value k
  have hvalue' := (@indexed_after sha rules calls').value k
  unfold effectiveOwed
  rw [hvalue, hvalue', directOwed, directOwed, hfin, pendingPayout_eq hkeeps,
    pendingPayout_eq hkeeps', halike.pending]

def cutRules : OwedLedgerRules := { anchorCut := true }

def cutBlock (nextPos : U64) : List LedgerCall :=
  [.found [1] { credit := SortedMap.insert ∅ 7 5, cut := some ⟨nextPos, 0⟩ }, .finalized [1] 3]

theorem fits_cutBlock (nextPos : U64) : (Pending.ofFound cutRules
    { credit := SortedMap.insert ∅ 7 5, cut := some ⟨nextPos, 0⟩ }).Fits := by
  have hempty : FitsAmap ∅ := ⟨by decide, fun e he => by cases he⟩
  have hone : 1 < 2 ^ 32 := by decide
  have hzero : 0 < 2 ^ 64 := by decide
  refine ⟨⟨hone, ?_⟩, hempty, hempty, hempty, ⟨hzero, fun e he => by cases he⟩,
    ⟨hzero, fun e he => by cases he⟩, hzero⟩
  intro e he
  rw [mem_singleton.mp he]
  exact ⟨by decide, by decide⟩

theorem encodes_cutBlock (nextPos : U64) : ∀ c ∈ cutBlock nextPos, Encodes cutRules c := by
  have hone : 1 < 2 ^ 32 := by decide
  intro c hc
  rcases mem_cons.mp hc with rfl | hc
  · refine ⟨hone, fun bid args heq => ?_⟩
    cases heq
    exact fits_cutBlock nextPos
  · rw [mem_singleton.mp hc]
    exact ⟨hone, fun bid args heq => by cases heq⟩

def digestBytes (rules : OwedLedgerRules) (l : OwedLedger) : List Byte :=
  putTag "V37Q" ++ l.rows.flatMap Finalized.rowBytes ++ l.restBytes rules

theorem log_misses_cut :
    (∀ c ∈ cutBlock 5 ++ cutBlock 6, Encodes cutRules c) ∧
      CollisionFree Sha256.sha256d
        (hashedBy Sha256.sha256d (payloads Sha256.sha256d cutRules {} (cutBlock 5)) ++
          hashedBy Sha256.sha256d (payloads Sha256.sha256d cutRules {} (cutBlock 6)) ++
          [digestBytes cutRules (after Sha256.sha256d cutRules (cutBlock 5)),
            digestBytes cutRules (after Sha256.sha256d cutRules (cutBlock 6))]) ∧
      (after Sha256.sha256d cutRules (cutBlock 5)).evlog.leafCount =
        (after Sha256.sha256d cutRules (cutBlock 6)).evlog.leafCount ∧
      (after Sha256.sha256d cutRules (cutBlock 5)).evlog.root Sha256.sha256d =
        (after Sha256.sha256d cutRules (cutBlock 6)).evlog.root Sha256.sha256d ∧
      (after Sha256.sha256d cutRules (cutBlock 5)).digest Sha256.sha256d cutRules ≠
        (after Sha256.sha256d cutRules (cutBlock 6)).digest Sha256.sha256d cutRules := by
  refine ⟨fun c hc => ?_, by decide +kernel, by decide +kernel, by decide +kernel,
    by decide +kernel⟩
  rcases mem_append.mp hc with hc | hc
  · exact encodes_cutBlock 5 c hc
  · exact encodes_cutBlock 6 c hc

theorem log_binds_ledger_cutBlock :
    (after Sha256.sha256d cutRules (cutBlock 5)).effectiveOwed 7 = 5 ∧
      (after Sha256.sha256d cutRules (cutBlock 5)).digest Sha256.sha256d cutRules =
        (after Sha256.sha256d cutRules (cutBlock 5 ++ cutBlock 6)).digest Sha256.sha256d
          cutRules := by
  refine ⟨by decide +kernel, (log_binds_ledger Sha256.sha256d cutRules (encodes_cutBlock 5) ?_
    (by decide +kernel) (fun _ => by decide +kernel) (by decide +kernel)
    (by decide +kernel)).1⟩
  intro c hc
  rcases mem_append.mp hc with hc | hc
  · exact encodes_cutBlock 5 c hc
  · exact encodes_cutBlock 6 c hc

end OwedLedger

end C2Pool.V37
