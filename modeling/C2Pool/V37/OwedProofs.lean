import C2Pool.V37.Inclusion

/-! # Proofs of owed balances

`prove_owed` and `owed_digest_from_proof` (`w4_settlement.hpp`): a row of the
finalized balances with the siblings on its way to the root.  An odd last node
is carried up and has no sibling, so the path depends on the index and on the
number of rows, which the digest commits beside the root.
-/

namespace C2Pool.V37

open List

theorem collisionFree_inits {sha : List Byte → Bytes32} {xs ys : List (List Byte)}
    {x y : List Byte} (h : CollisionFree sha (xs ++ [x] ++ (ys ++ [y]))) :
    CollisionFree sha (xs ++ ys) :=
  h.mono (append_subset.mpr ⟨fun _ hz => mem_append_left _ (mem_append_left _ hz),
    fun _ hz => mem_append_right _ (mem_append_left _ hz)⟩)

structure OwedProof where
  key : Bytes32 := 0
  finalW : Int := 0
  firstEligible : U64 := 0
  index : U64 := 0
  rows : U64 := 0
  path : List Bytes32 := []
  rest : Bytes32 := 0
deriving DecidableEq

def OwedProof.row (p : OwedProof) : Bytes32 × Int × U64 := (p.key, p.finalW, p.firstEligible)

namespace Finalized

section Proof

variable (sha : List Byte → Bytes32) (rules : OwedLedgerRules) {level : List Bytes32}
  {x y : Bytes32} {i n : Nat} {fin fin' : Finalized}

/-- The loop of `owed_digest_from_proof`: the hash it ends with, and what is left of the path.  The
number of nodes is rounded up on 64 bits. -/
def owedClimb : Nat → Nat → Nat → Bytes32 → List Bytes32 → Option (Bytes32 × List Bytes32)
  | 0, _, _, h, path => some (h, path)
  | n + 1, m, i, h, path =>
    if m ≤ 1 then some (h, path)
    else if i % 2 = 1 ∨ i + 1 < m then
      match path with
      | [] => none
      | sib :: path =>
        owedClimb n ((m + 1) % 2 ^ 64 / 2) (i / 2)
          (if i % 2 = 1 then owedNode sha sib h else owedNode sha h sib) path
    else owedClimb n ((m + 1) % 2 ^ 64 / 2) (i / 2) h path

def owedDigestFromProof (p : OwedProof) : Option Bytes32 :=
  if p.rows = 0 ∨ p.rows ≤ p.index ∨ p.finalW = 0 then none
  else
    match owedClimb sha p.rows.val p.rows.val p.index.val (owedLeaf sha p.row) p.path with
    | some (h, []) => some (owedDigestOf sha p.rows.val h p.rest)
    | _ => none

/-- The second loop of `prove_owed`. -/
def owedPath : Nat → List Bytes32 → Nat → List Bytes32
  | 0, _, _ => []
  | n + 1, level, i =>
    if level.length ≤ 1 then []
    else if i % 2 = 1 ∨ i + 1 < level.length then
      level.getD (if i % 2 = 1 then i - 1 else i + 1) 0 ::
        owedPath n (PairTree.promote (owedNode sha) level) (i / 2)
    else owedPath n (PairTree.promote (owedNode sha) level) (i / 2)

def proofAt (fin : Finalized) (i : Nat) : OwedProof :=
  let r := fin.rows.getD i (0, 0, 0)
  { key := r.1
    finalW := r.2.1
    firstEligible := r.2.2
    index := Fin.ofNat (2 ^ 64) i
    rows := Fin.ofNat (2 ^ 64) fin.rows.length
    path := owedPath sha fin.rows.length (fin.rows.map (owedLeaf sha)) i
    rest := fin.restDigest sha rules }

def proveOwed (fin : Finalized) (k : Bytes32) : Option OwedProof :=
  if rules.merkleRows then
    (fin.rows.findIdx? fun r => r.1 = k).map (fin.proofAt sha rules)
  else none

def leafBytes (r : Bytes32 × Int × U64) : List Byte := putTag "V37L" ++ rowBytes r

def nodeBytes (l r : Bytes32) : List Byte := putTag "V37M" ++ l.toBytes ++ r.toBytes

def digestBytes (count : Nat) (root rest : Bytes32) : List Byte :=
  putTag "V37Y" ++ putU64 count ++ root.toBytes ++ rest.toBytes

/-- What the loop of `owed_digest_from_proof` hashes. -/
def owedInputs : Nat → Nat → Nat → Bytes32 → List Bytes32 → List (List Byte)
  | 0, _, _, _, _ => []
  | n + 1, m, i, h, path =>
    if m ≤ 1 then []
    else if i % 2 = 1 ∨ i + 1 < m then
      match path with
      | [] => []
      | sib :: path =>
        (if i % 2 = 1 then nodeBytes sib h else nodeBytes h sib) ::
          owedInputs n ((m + 1) % 2 ^ 64 / 2) (i / 2)
            (if i % 2 = 1 then owedNode sha sib h else owedNode sha h sib) path
    else owedInputs n ((m + 1) % 2 ^ 64 / 2) (i / 2) h path

/-- What `owed_digest_from_proof` hashes. -/
def proofInputs (p : OwedProof) : List (List Byte) :=
  leafBytes p.row ::
    owedInputs sha p.rows.val p.rows.val p.index.val (owedLeaf sha p.row) p.path ++
  match owedClimb sha p.rows.val p.rows.val p.index.val (owedLeaf sha p.row) p.path with
  | none => []
  | some (h, _) => [digestBytes p.rows.val h p.rest]

def rowInputs (fin : Finalized) (i : Nat) : List (List Byte) :=
  let r := fin.rows.getD i (0, 0, 0)
  let leaves := fin.rows.map (owedLeaf sha)
  leafBytes r :: owedInputs sha fin.rows.length fin.rows.length i (owedLeaf sha r)
    (owedPath sha fin.rows.length leaves i) ++
    [digestBytes fin.rows.length (owedMerkleRoot sha leaves) (fin.restDigest sha rules)]

/-- What the digest and the proofs of the first `n` rows hash. -/
def hashedRows (fin : Finalized) (n : Nat) : List (List Byte) :=
  (range n).flatMap fun i => proofInputs sha (fin.proofAt sha rules i) ++ fin.rowInputs sha rules i

variable {sha}

theorem owedClimb_owedPath (hn : level.length ≤ n + 1) (hfew : level.length + 1 < 2 ^ 64)
    (hx : level[i]? = some x) :
    owedClimb sha n level.length i x (owedPath sha n level i) =
      some ((PairTree.promoteAll (owedNode sha) n level).headD 0, []) := by
  induction n generalizing level i x with
  | zero => rw [owedClimb, owedPath, PairTree.headD_promoteAll_of_short hx hn]
  | succ n ih =>
    obtain ⟨hi, -⟩ := List.getElem?_eq_some_iff.mp hx
    have hlength := PairTree.length_promote (owedNode sha) level
    have hsize : (level.length + 1) % 2 ^ 64 / 2 =
        (PairTree.promote (owedNode sha) level).length := by
      rw [hlength, Nat.mod_eq_of_lt hfew]
    unfold owedClimb owedPath
    rw [hsize]
    by_cases hshort : level.length ≤ 1
    · rw [if_pos hshort, if_pos hshort, PairTree.headD_promoteAll_of_short hx hshort]
    rw [if_neg hshort, if_neg hshort, PairTree.promoteAll_succ hshort]
    have hnext := ih (by omega) (by omega) (PairTree.getElem?_promote (owedNode sha) hx 0)
    rcases Nat.mod_two_eq_zero_or_one i with heven | hodd
    · rw [if_neg (by omega)] at hnext
      by_cases hpair : i + 1 < level.length
      · rw [if_pos hpair] at hnext
        rw [if_pos (Or.inr hpair), if_pos (Or.inr hpair), if_neg (by omega)]
        dsimp only
        rwa [if_neg (by omega)]
      · rw [if_neg hpair] at hnext
        rwa [if_neg (by omega), if_neg (by omega)]
    · rw [if_pos hodd] at hnext
      rw [if_pos (Or.inl hodd), if_pos (Or.inl hodd), if_pos hodd]
      dsimp only
      rwa [if_pos hodd]

theorem nodeBytes_injective {l r l' r' : Bytes32} (h : nodeBytes l r = nodeBytes l' r') :
    l = l' ∧ r = r' := by
  unfold nodeBytes at h
  rw [append_assoc, append_assoc] at h
  obtain ⟨hfst, hsnd⟩ := delimits_toBytes _ _ _ _ trivial trivial (append_cancel_left h)
  exact ⟨hfst, toBytes_injective hsnd⟩

theorem owedClimb_unique {m : Nat} {r x y : Bytes32} {path path' : List Bytes32}
    (hfree : CollisionFree sha (owedInputs sha n m i x path ++ owedInputs sha n m i y path'))
    (hx : owedClimb sha n m i x path = some (r, []))
    (hy : owedClimb sha n m i y path' = some (r, [])) : x = y := by
  induction n generalizing m i x y path path' with
  | zero =>
    cases hx
    cases hy
    rfl
  | succ n ih =>
    unfold owedClimb at hx hy
    unfold owedInputs at hfree
    by_cases hshort : m ≤ 1
    · rw [if_pos hshort] at hx hy
      cases hx
      cases hy
      rfl
    rw [if_neg hshort] at hx hy
    rw [if_neg hshort, if_neg hshort] at hfree
    by_cases hpair : i % 2 = 1 ∨ i + 1 < m
    · rw [if_pos hpair] at hx hy
      rw [if_pos hpair, if_pos hpair] at hfree
      cases path with
      | nil => cases hx
      | cons sib path =>
        cases path' with
        | nil => cases hy
        | cons sib' path' =>
          have hnode := ih hfree.tails hx hy
          by_cases hodd : i % 2 = 1
          · simp only [if_pos hodd] at hnode hfree
            exact (nodeBytes_injective (hfree _ (by simp) _ (by simp) hnode)).2
          · simp only [if_neg hodd] at hnode hfree
            exact (nodeBytes_injective (hfree _ (by simp) _ (by simp) hnode)).1
    rw [if_neg hpair] at hx hy
    rw [if_neg hpair, if_neg hpair] at hfree
    exact ih hfree hx hy

theorem rowBytes_injective {r r' : Bytes32 × Int × U64} (hr : InRange r.2.1)
    (hr' : InRange r'.2.1) (h : rowBytes r = rowBytes r') : r = r' := by
  unfold rowBytes at h
  rw [append_assoc, append_assoc] at h
  obtain ⟨hkey, h⟩ := delimits_toBytes _ _ _ _ trivial trivial h
  obtain ⟨hw, h⟩ := delimits_putI64 _ _ _ _ hr hr' h
  rw [← append_nil (putU64 _), ← append_nil (putU64 r'.2.2.val)] at h
  obtain ⟨hfe, -⟩ := delimits_u64 _ _ _ _ trivial trivial h
  exact Prod.ext hkey (Prod.ext hw hfe)

theorem digestBytes_injective {count count' : Nat} {root root' rest rest' : Bytes32}
    (hcount : count < 2 ^ 64) (hcount' : count' < 2 ^ 64)
    (h : digestBytes count root rest = digestBytes count' root' rest') :
    count = count' ∧ root = root' := by
  unfold digestBytes at h
  simp only [append_assoc] at h
  obtain ⟨hcounts, h⟩ := delimits_putU64 _ _ _ _ hcount hcount' (append_cancel_left h)
  exact ⟨hcounts, (delimits_toBytes _ _ _ _ trivial trivial h).1⟩

theorem mem_rows {r : Bytes32 × Int × U64} (hr : r ∈ fin.rows) :
    r.2.1 ≠ 0 ∧ fin.finalW.balance r.1 = r.2.1 ∧ fin.feAt r.1 = r.2.2 := by
  obtain ⟨e, he, rfl⟩ := mem_map.mp hr
  obtain ⟨hmem, hne⟩ := mem_filter.mp he
  refine ⟨by simpa using hne, ?_, rfl⟩
  exact Balances.balance_of_lookup (SortedMap.mem_entries_iff.mp hmem)

theorem exists_row {k : Bytes32} (hk : fin.finalW.balance k ≠ 0) : ∃ r ∈ fin.rows, r.1 = k := by
  cases hrow : fin.finalW.lookup k with
  | none =>
    rw [Balances.balance, hrow] at hk
    exact absurd rfl hk
  | some w =>
    rw [Balances.balance_of_lookup hrow] at hk
    refine ⟨(k, w, fin.feAt k), mem_map.mpr ⟨(k, w), mem_filter.mpr ⟨?_, ?_⟩, rfl⟩, rfl⟩
    · exact SortedMap.mem_entries_iff.mpr hrow
    · simpa using hk

theorem getD_mem_rows (hi : i < fin.rows.length) : fin.rows.getD i (0, 0, 0) ∈ fin.rows := by
  simp [getD_eq_getElem?_getD, getElem?_eq_getElem hi]

theorem owedClimb_row (hfew : fin.rows.length + 1 < 2 ^ 64) (hi : i < fin.rows.length) :
    owedClimb sha fin.rows.length fin.rows.length i
      (owedLeaf sha (fin.rows.getD i (0, 0, 0)))
      (owedPath sha fin.rows.length (fin.rows.map (owedLeaf sha)) i) =
      some (owedMerkleRoot sha (fin.rows.map (owedLeaf sha)), []) := by
  have hleaf : (fin.rows.map (owedLeaf sha))[i]? =
      some (owedLeaf sha (fin.rows.getD i (0, 0, 0))) := by
    simp [hi]
  have hclimb := @owedClimb_owedPath sha _ _ i fin.rows.length (by rw [length_map]; omega)
    (by rwa [length_map]) hleaf
  rw [length_map] at hclimb
  rw [hclimb, owedMerkleRoot, length_map]

theorem row_mem_of_digest {p : OwedProof} (hon : rules.merkleRows = true)
    (hfits : ∀ r ∈ fin.rows, InRange r.2.1) (hfew : fin.rows.length + 1 < 2 ^ 64)
    (hw : InRange p.finalW)
    (hfree : CollisionFree sha (proofInputs sha p ++ fin.rowInputs sha rules p.index.val))
    (hp : owedDigestFromProof sha p = some (fin.digest sha rules)) : p.row ∈ fin.rows := by
  unfold owedDigestFromProof at hp
  unfold proofInputs rowInputs at hfree
  split at hp
  · cases hp
  rename_i hshape
  split at hp
  · rename_i h hclimb
    simp only [hclimb] at hfree
    rw [digest, if_pos hon, Option.some_inj] at hp
    have hlast := hfree (digestBytes p.rows.val h p.rest) (by simp)
      (digestBytes fin.rows.length _ (fin.restDigest sha rules))
      (mem_append_right _ (mem_append_right _ (mem_singleton_self _))) hp
    obtain ⟨hcount, hroot⟩ := digestBytes_injective p.rows.isLt (Nat.lt_of_succ_lt hfew) hlast
    have hi : p.index.val < fin.rows.length := by
      rw [← hcount]
      have := not_or.mp (not_or.mp hshape).2
      exact Fin.lt_def.mp (not_le.mp this.1)
    rw [hcount, hroot] at hclimb
    rw [hcount] at hfree
    have hleaf := owedClimb_unique (collisionFree_inits hfree).tails hclimb (owedClimb_row hfew hi)
    have hmem := getD_mem_rows hi
    have hbytes := hfree _ (mem_append_left _ mem_cons_self) _
      (mem_append_right _ mem_cons_self) hleaf
    rw [rowBytes_injective hw (hfits _ hmem) (append_cancel_left hbytes)]
    exact hmem
  · cases hp

theorem digest_proofAt (hon : rules.merkleRows = true) (hfew : fin.rows.length + 1 < 2 ^ 64)
    (hi : i < fin.rows.length) :
    owedDigestFromProof sha (fin.proofAt sha rules i) = some (fin.digest sha rules) := by
  have hrows : (Fin.ofNat (2 ^ 64) fin.rows.length).val = fin.rows.length :=
    Nat.mod_eq_of_lt (Nat.lt_of_succ_lt hfew)
  have hindex : (Fin.ofNat (2 ^ 64) i).val = i := Nat.mod_eq_of_lt (by omega)
  unfold owedDigestFromProof proofAt
  rw [if_neg]
  · simp only [OwedProof.row, hrows, hindex, owedClimb_row hfew hi]
    rw [digest, if_pos hon]
  · rw [not_or, not_or, not_le, Fin.lt_def, Fin.ext_iff, hrows, hindex]
    exact ⟨Nat.ne_of_gt (Nat.zero_lt_of_lt hi), hi, (mem_rows (getD_mem_rows hi)).1⟩

theorem isSome_proveOwed (hon : rules.merkleRows = true) (k : Bytes32) :
    (fin.proveOwed sha rules k).isSome = true ↔ fin.finalW.balance k ≠ 0 := by
  rw [proveOwed, if_pos hon, Option.isSome_map, findIdx?_isSome, any_eq_true]
  constructor
  · rintro ⟨r, hr, hkey⟩
    rw [← of_decide_eq_true hkey, (mem_rows hr).2.1]
    exact (mem_rows hr).1
  intro hk
  obtain ⟨r, hr, hkey⟩ := exists_row hk
  exact ⟨r, hr, decide_eq_true hkey⟩

theorem digest_proveOwed (hon : rules.merkleRows = true) (hfew : fin.rows.length + 1 < 2 ^ 64)
    {k : Bytes32} {p : OwedProof} (hp : fin.proveOwed sha rules k = some p) :
    p.key = k ∧ owedDigestFromProof sha p = some (fin.digest sha rules) := by
  rw [proveOwed, if_pos hon, Option.map_eq_some_iff] at hp
  obtain ⟨i, hfind, rfl⟩ := hp
  obtain ⟨hi, hkey, -⟩ := findIdx?_eq_some_iff_getElem.mp hfind
  refine ⟨?_, digest_proofAt rules hon hfew hi⟩
  have hrow : fin.rows.getD i (0, 0, 0) = fin.rows[i] := by
    simp [getD_eq_getElem?_getD, getElem?_eq_getElem hi]
  rw [proofAt, hrow]
  exact of_decide_eq_true hkey

theorem rows_subset_of_digest (hon : rules.merkleRows = true)
    (hfits : ∀ r ∈ fin.rows ++ fin'.rows, InRange r.2.1) (hfew : fin.rows.length + 1 < 2 ^ 64)
    (hfew' : fin'.rows.length + 1 < 2 ^ 64) (hn : fin.rows.length ≤ n)
    (hfree : CollisionFree sha (fin.hashedRows sha rules n ++ fin'.hashedRows sha rules n))
    (hdigest : fin.digest sha rules = fin'.digest sha rules) : fin.rows ⊆ fin'.rows := by
  intro r hr
  obtain ⟨i, hi, rfl⟩ := mem_iff_getElem.mp hr
  have hrow : (fin.proofAt sha rules i).row = fin.rows[i] := by
    simp [proofAt, OwedProof.row, hi]
  have hindex : (fin.proofAt sha rules i).index.val = i := Nat.mod_eq_of_lt (by omega)
  rw [← hrow]
  apply row_mem_of_digest rules hon (fun r hr => hfits r (mem_append_right _ hr)) hfew'
  · exact hfits _ (mem_append_left _ (getD_mem_rows hi))
  · apply hfree.mono
    have hmem : i ∈ range n := mem_range.mpr (by omega)
    rw [hindex]
    intro x hx
    rcases mem_append.mp hx with hx | hx
    · exact mem_append_left _ (mem_flatMap.mpr ⟨i, hmem, mem_append_left _ hx⟩)
    · exact mem_append_right _ (mem_flatMap.mpr ⟨i, hmem, mem_append_right _ hx⟩)
  · rw [← hdigest]
    exact digest_proofAt rules hon hfew hi

theorem owed_of_subset (h : fin.rows ⊆ fin'.rows) {k : Bytes32} (hk : fin.finalW.balance k ≠ 0) :
    fin'.finalW.balance k = fin.finalW.balance k ∧ fin'.feAt k = fin.feAt k := by
  obtain ⟨r, hr, rfl⟩ := exists_row hk
  have hrow := (mem_rows hr).2
  have hrow' := (mem_rows (h hr)).2
  exact ⟨hrow'.1.trans hrow.1.symm, hrow'.2.trans hrow.2.symm⟩

end Proof

end Finalized

/-- **Owed proofs are complete and sound.**  At every ledger a run reaches, the keys with a balance
are those with a proof, each proof gives the digest, and a proof that gives the digest, whatever it
claims, states the balance and the age of its key, unless two of the inputs hashed on either side
collide. -/
theorem owed_proofs_complete_sound (sha : List Byte → Bytes32) (rules : OwedLedgerRules)
    (uses : List LedgerUse) (hon : rules.merkleRows = true)
    (hfits : ∀ r ∈ (MemoLedger.after sha rules uses).ledger.rows, InRange r.2.1)
    (hfew : (MemoLedger.after sha rules uses).ledger.rows.length + 1 < 2 ^ 64) :
    let m := MemoLedger.after sha rules uses
    let fin := m.ledger.toFinalized
    (∀ k, (fin.proveOwed sha rules k).isSome = true ↔ fin.finalW.balance k ≠ 0) ∧
      (∀ k p, fin.proveOwed sha rules k = some p → p.key = k ∧
        Finalized.owedDigestFromProof sha p = some (m.owedDigest sha rules).1) ∧
      ∀ p : OwedProof, InRange p.finalW →
        CollisionFree sha
          (Finalized.proofInputs sha p ++ fin.rowInputs sha rules p.index.val) →
        Finalized.owedDigestFromProof sha p = some (m.owedDigest sha rules).1 →
        fin.finalW.balance p.key = p.finalW ∧ fin.feAt p.key = p.firstEligible := by
  intro m fin
  have hdigest : (m.owedDigest sha rules).1 = fin.digest sha rules :=
    (MemoLedger.remembers_after uses).owedDigest.1
  rw [hdigest]
  refine ⟨Finalized.isSome_proveOwed rules hon,
    fun k p hp => Finalized.digest_proveOwed rules hon hfew hp, fun p hw hfree hp => ?_⟩
  exact (Finalized.mem_rows (Finalized.row_mem_of_digest rules hon hfits hfew hw hfree hp)).2

def owedUses : List LedgerUse :=
  [.call (.found [1] { credit := ((SortedMap.insert ∅ 7 5).insert 8 6).insert 9 4 }),
    .call (.finalized [1] 3), .digest]

/-- The last row, which is carried up, has a proof with one sibling, and a proof that claims more
for its key is not accepted. -/
theorem owed_proofs_complete_sound_three :
    let m := MemoLedger.after Sha256.sha256d { merkleRows := true } owedUses
    let p := m.ledger.proofAt Sha256.sha256d { merkleRows := true } 2
    (p.key, p.finalW, p.path.length) = (9, 4, 1) ∧
      (m.ledger.proveOwed Sha256.sha256d { merkleRows := true } 9).isSome = true ∧
      Finalized.owedDigestFromProof Sha256.sha256d { p with finalW := 5 } ≠
        some (m.owedDigest Sha256.sha256d { merkleRows := true }).1 := by
  obtain ⟨hcomplete, -, hsound⟩ := owed_proofs_complete_sound Sha256.sha256d
    { merkleRows := true } owedUses rfl (by decide +kernel) (by decide +kernel)
  refine ⟨by decide +kernel, (hcomplete 9).mpr (by decide +kernel), fun hp => ?_⟩
  exact absurd (hsound _ (by decide +kernel) (by decide +kernel) hp).1 (by decide +kernel)

/-- **The digest commits to the ledger.**  Two nodes whose runs end in the same digest owe every key
the same, and each owed key has the same age, unless two of the inputs that they hash collide. -/
theorem same_digest_same_ledger (sha : List Byte → Bytes32) (rules : OwedLedgerRules)
    (uses uses' : List LedgerUse) (hon : rules.merkleRows = true) {n : Nat}
    (hfits : ∀ r ∈ (MemoLedger.after sha rules uses).ledger.rows ++
      (MemoLedger.after sha rules uses').ledger.rows, InRange r.2.1)
    (hfew : ∀ l ∈ [uses, uses'], (MemoLedger.after sha rules l).ledger.rows.length ≤ n)
    (hn : n + 1 < 2 ^ 64)
    (hfree : CollisionFree sha ([uses, uses'].flatMap fun l =>
      (MemoLedger.after sha rules l).ledger.hashedRows sha rules n))
    (hdigest : ((MemoLedger.after sha rules uses).owedDigest sha rules).1 =
      ((MemoLedger.after sha rules uses').owedDigest sha rules).1) (k : Bytes32) :
    let fin := (MemoLedger.after sha rules uses).ledger.toFinalized
    let fin' := (MemoLedger.after sha rules uses').ledger.toFinalized
    fin.finalW.balance k = fin'.finalW.balance k ∧
      (fin.finalW.balance k ≠ 0 → fin.feAt k = fin'.feAt k) := by
  intro fin fin'
  rw [(MemoLedger.remembers_after uses).owedDigest.1,
    (MemoLedger.remembers_after uses').owedDigest.1] at hdigest
  have hlen : fin.rows.length ≤ n := hfew uses (by simp)
  have hlen' : fin'.rows.length ≤ n := hfew uses' (by simp)
  simp only [flatMap_cons, flatMap_nil, append_nil] at hfree
  have hsub : fin.rows ⊆ fin'.rows :=
    Finalized.rows_subset_of_digest rules hon hfits (by omega) (by omega) hlen hfree hdigest
  have hsub' : fin'.rows ⊆ fin.rows :=
    Finalized.rows_subset_of_digest rules hon (fun r hr => hfits r (perm_append_comm.subset hr))
      (by omega) (by omega) hlen' (hfree.mono perm_append_comm.subset) hdigest.symm
  by_cases hk : fin.finalW.balance k = 0
  · refine ⟨hk.trans ?_, fun hne => absurd hk hne⟩
    by_contra hk'
    exact hk' ((Finalized.owed_of_subset hsub' (Ne.symm hk')).1.symm.trans hk).symm
  · have howed := Finalized.owed_of_subset hsub hk
    exact ⟨howed.1.symm, fun _ => howed.2.symm⟩

def owedOnce : List LedgerUse :=
  [.call (.found [1] { credit := SortedMap.insert ∅ 7 5 }), .call (.finalized [1] 3)]

def owedTwice : List LedgerUse :=
  [.call (.found [1] { credit := SortedMap.insert ∅ 7 1 }),
    .call (.found [2] { credit := SortedMap.insert ∅ 7 4 }), .digest,
    .call (.finalized [2] 3), .call (.finalized [1] 3)]

theorem same_digest_same_ledger_twice :
    (MemoLedger.after Sha256.sha256d { merkleRows := true } owedOnce).ledger.finalW.balance 7 =
      (MemoLedger.after Sha256.sha256d { merkleRows := true } owedTwice).ledger.finalW.balance 7 :=
  (same_digest_same_ledger _ { merkleRows := true } owedOnce owedTwice rfl (by decide +kernel)
    (by decide +kernel) (by decide : 1 + 1 < 2 ^ 64) (by decide +kernel) (by decide +kernel) 7).1

end C2Pool.V37
