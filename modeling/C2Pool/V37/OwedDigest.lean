import C2Pool.V37.OwedBook

/-! # The owed digest

`owed_digest`: the commitment to the finalized part of the ledger, flat or as a Merkle root over the
balances, remembered under the sequence number it was computed at. It is a function of the settled
blocks alone.
-/

namespace C2Pool.V37

open OwedLedger

section Digest

variable (sha : List Byte → Bytes32) (rules : OwedLedgerRules)

namespace Finalized

def rows (fin : Finalized) : List (Bytes32 × Int × U64) :=
  (fin.finalW.entries.filter fun e => e.2 ≠ 0).map fun e => (e.1, e.2, fin.feAt e.1)

def rowBytes (r : Bytes32 × Int × U64) : List Byte :=
  r.1.toBytes ++ putI64 r.2.1 ++ putU64 r.2.2.val

def owedLeaf (r : Bytes32 × Int × U64) : Bytes32 := sha (putTag "V37L" ++ rowBytes r)

def owedNode (l r : Bytes32) : Bytes32 := sha (putTag "V37M" ++ l.toBytes ++ r.toBytes)

/-- `owed_merkle_root`; an odd last node is carried up. -/
def owedMerkleRoot (leaves : List Bytes32) : Bytes32 :=
  (PairTree.promoteAll (owedNode sha) leaves.length leaves).headD 0

/-- The dust clocks, in key order. -/
def decayBytes (fin : Finalized) : List Byte :=
  fin.goneSince.entries.flatMap fun e =>
    e.1.toBytes ++ putU64 e.2.val ++ putU64 ((fin.decaySteps.lookup e.1).getD 0).val

/-- `append_rest`. -/
def restBytes (fin : Finalized) : List Byte :=
  (if rules.decayOn then putTag "V37K" ++ fin.decayBytes else []) ++
    (if rules.dropsDue then
      putTag "V37U" ++ putU64 fin.due.entries.length ++
        fin.due.entries.flatMap fun e => e.1.toBytes ++ putI64 e.2
    else []) ++
    (if rules.raindropEnrol then putTag "V37G" ++ putEnrolRecords fin.enrol else []) ++
    (if rules.dropsWindow.on then putTag "V37W" ++ putDropsWindow fin.dwin else []) ++
    (if rules.anchorCut then
      putTag "V37A" ++
        match fin.anchor with
        | some cut => 1 :: (putU64 cut.nextPos.val ++ cut.spine.toBytes)
        | none => [0]
    else []) ++
    if rules.laneHeight then putTag "V37Z" ++ putU64 fin.lastSettledLaneHeight.val else []

def restDigest (fin : Finalized) : Bytes32 := sha (putTag "V37X" ++ fin.restBytes rules)

def owedDigestOf (count : Nat) (root rest : Bytes32) : Bytes32 :=
  sha (putTag "V37Y" ++ putU64 count ++ root.toBytes ++ rest.toBytes)

def digest (fin : Finalized) : Bytes32 :=
  if rules.merkleRows then
    owedDigestOf sha fin.rows.length
      (owedMerkleRoot sha (fin.rows.map (owedLeaf sha))) (fin.restDigest sha rules)
  else sha (putTag "V37Q" ++ fin.rows.flatMap rowBytes ++ fin.restBytes rules)

end Finalized

/-- A ledger with its `DigestMemo`: the digest and the sequence number it was computed at. -/
structure MemoLedger where
  ledger : OwedLedger := {}
  memo : Option (Nat × Bytes32) := none

/-- The uses of a ledger: the calls that change it, and digest queries. -/
inductive LedgerUse where
  | call (c : LedgerCall)
  | digest

namespace MemoLedger

/-- `owed_digest`: the remembered digest of this sequence number, or a new one. -/
def owedDigest (m : MemoLedger) : Bytes32 × MemoLedger :=
  match m.memo with
  | some (seq, d) =>
    if seq = m.ledger.seq then (d, m)
    else
      (m.ledger.digest sha rules, { m with memo := some (m.ledger.seq, m.ledger.digest sha rules) })
  | none =>
    (m.ledger.digest sha rules, { m with memo := some (m.ledger.seq, m.ledger.digest sha rules) })

def use (m : MemoLedger) : LedgerUse → MemoLedger
  | .call c => { m with ledger := m.ledger.call sha rules c }
  | .digest => (m.owedDigest sha rules).2

def after (uses : List LedgerUse) : MemoLedger := Run.run (use sha rules) {} uses

end MemoLedger

def callsOf (uses : List LedgerUse) : List LedgerCall :=
  uses.filterMap fun
    | .call c => some c
    | .digest => none

end Digest

variable {sha : List Byte → Bytes32} {rules : OwedLedgerRules}

theorem OwedLedger.call_eq_or_seq (l : OwedLedger) (c : LedgerCall) :
    l.call sha rules c = l ∨ (l.call sha rules c).seq = l.seq + 1 := by
  obtain heq | ⟨_, _, _, _, _, heq⟩ | ⟨_, _, _, _, _, heq⟩ | ⟨_, _, _, _, _, heq⟩ |
      ⟨_, _, _, _, _, heq⟩ := @call_cases sha rules l c
  · exact .inl heq
  · exact .inr (by rw [heq]; rfl)
  · exact .inr (by rw [heq]; rfl)
  · exact .inr (by rw [heq]; rfl)
  · right
    rw [heq]
    show (OwedLedger.noteResidual _ _ _).seq + 1 = _
    unfold OwedLedger.noteResidual
    split <;> rfl

namespace MemoLedger

def Remembers (sha : List Byte → Bytes32) (rules : OwedLedgerRules) (m : MemoLedger) : Prop :=
  ∀ seq d, m.memo = some (seq, d) →
    seq ≤ m.ledger.seq ∧ (seq = m.ledger.seq → d = m.ledger.digest sha rules)

theorem Remembers.owedDigest {m : MemoLedger} (h : m.Remembers sha rules) :
    (m.owedDigest sha rules).1 = m.ledger.digest sha rules ∧
      (m.owedDigest sha rules).2.Remembers sha rules := by
  have hfresh : MemoLedger.Remembers sha rules
      { m with memo := some (m.ledger.seq, m.ledger.digest sha rules) } := by
    intro seq d heq
    cases heq
    exact ⟨le_refl _, fun _ => rfl⟩
  unfold MemoLedger.owedDigest
  split
  · rename_i seq d hmemo
    split
    · rename_i hseq
      exact ⟨(h seq d hmemo).2 hseq, h⟩
    · exact ⟨rfl, hfresh⟩
  · exact ⟨rfl, hfresh⟩

theorem Remembers.use {m : MemoLedger} (h : m.Remembers sha rules) (u : LedgerUse) :
    (m.use sha rules u).Remembers sha rules := by
  cases u with
  | digest => exact h.owedDigest.2
  | call c =>
    intro seq d hmemo
    obtain ⟨hle, hval⟩ := h seq d hmemo
    obtain heq | hseq := @call_eq_or_seq sha rules m.ledger c
    · simp only [MemoLedger.use, heq]
      exact ⟨hle, hval⟩
    · simp only [MemoLedger.use, hseq]
      exact ⟨by omega, fun h => by omega⟩

theorem remembers_after (uses : List LedgerUse) : (after sha rules uses).Remembers sha rules := by
  have hrun : ∀ m : MemoLedger, m.Remembers sha rules →
      (Run.run (use sha rules) m uses).Remembers sha rules := by
    induction uses with
    | nil => exact fun m h => h
    | cons u uses ih => exact fun m h => ih _ (h.use u)
  exact hrun {} fun _ _ h => (nomatch h)

theorem ledger_after (uses : List LedgerUse) :
    (after sha rules uses).ledger = OwedLedger.after sha rules (callsOf uses) := by
  have hrun : ∀ m : MemoLedger, (Run.run (use sha rules) m uses).ledger =
      Run.run (OwedLedger.call sha rules) m.ledger (callsOf uses) := by
    induction uses with
    | nil => exact fun m => rfl
    | cons u uses ih =>
      intro m
      rw [Run.run_cons, ih]
      cases u with
      | call c => rfl
      | digest =>
        have hsame : (m.use sha rules .digest).ledger = m.ledger := by
          simp only [use, owedDigest]
          split
          · split <;> rfl
          · rfl
        rw [hsame]
        rfl
  exact hrun {}

theorem owedDigest_after (uses : List LedgerUse) :
    ((after sha rules uses).owedDigest sha rules).1 =
      (Finalized.ofHistory rules (bookOf (callsOf uses)).history).digest sha rules := by
  rw [(remembers_after uses).owedDigest.1, ledger_after, (keeps_after _).finalized]

/-- Two runs that settle the same blocks at the same heights in the same order have the same
digest, whatever else they found, orphaned or asked. -/
theorem owedDigest_eq_of_history (sha : List Byte → Bytes32) (rules : OwedLedgerRules)
    {uses uses' : List LedgerUse}
    (h : (bookOf (callsOf uses)).history = (bookOf (callsOf uses')).history) :
    ((after sha rules uses).owedDigest sha rules).1 =
      ((after sha rules uses').owedDigest sha rules).1 := by
  rw [owedDigest_after, owedDigest_after, h]

/-- A run that settles one block, and one that also queries, orphans and leaves a block
pending. -/
theorem owedDigest_eq_of_history_busy :
    ((after (fun b => Fin.ofNat _ b.length) {}
        [.call (.found [1] { credit := SortedMap.insert ∅ 7 5 }),
          .call (.finalized [1] 3)]).owedDigest (fun b => Fin.ofNat _ b.length) {}).1 =
      ((after (fun b => Fin.ofNat _ b.length) {}
        [.call (.found [2] { payout := SortedMap.insert ∅ 7 1 }), .digest,
          .call (.found [1] { credit := SortedMap.insert ∅ 7 5 }),
          .call (.orphaned [2] ∅), .call (.finalized [2] 1), .call (.finalized [1] 3), .digest,
          .call (.found [4] { payout := SortedMap.insert ∅ 7 5 })]).owedDigest
        (fun b => Fin.ofNat _ b.length) {}).1 := owedDigest_eq_of_history _ _ (by decide +kernel)

end MemoLedger

end C2Pool.V37
