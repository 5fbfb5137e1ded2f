import C2Pool.Xmr.WindowPayees

/-! # The check of a sealed bucket

`bucket_check` holds the fields of a sealed bucket against its rows.  A bucket
that `seal_from_entries` made passes it, because its rows are grouped by a sorted
map and no weight is lost in the floors of the shares.
-/

namespace C2Pool.Xmr.PathB

open Wide List
open C2Pool.V37 (Byte Bytes32 putU256)

def rowKeyLess (a b : BucketRow) : Bool :=
  if a.miner ≠ b.miner then a.miner < b.miner else a.owner < b.owner

def bucketRowBytes (r : BucketRow) : List Byte :=
  Bytes32.toBytes r.miner ++ Bytes32.toBytes r.owner ++ putU256 r.wMiner.toNat ++
    putU256 r.wOwner.toNat ++ putU256 r.wAuthor.toNat

def minerCountOf (rows : List BucketRow) : U64 :=
  Fin.ofNat (2 ^ 64) (rows.map BucketRow.miner).toFinset.card

def rowsWeightSum (rows : List BucketRow) : Work :=
  rows.foldl (fun sum r => sum + (r.wMiner + r.wOwner + r.wAuthor)) 0

inductive BucketFault where
  | none
  | binRange
  | rowOrder
  | compRoot
  | rawSum
  | minerCount
  | empty
  | rowBound
deriving DecidableEq

/-- `L1Bucket` with its commitments. -/
structure SealedBucket extends L1Bucket where
  minerCount : U64
  compRootV : Hash
deriving DecidableEq

section Commitments

variable (sha : List Byte → Bytes32) (sortRows : List BucketRow → List BucketRow)

def rowLeaf (r : BucketRow) : Hash := sha (0x04 :: bucketRowBytes r)

def compNode (l r : Hash) : Hash := sha (0x05 :: (Bytes32.toBytes l ++ Bytes32.toBytes r))

-- `std::sort` by `row_key_less`; it leaves open how rows of one key end up
/-- `comp_root`: adjacent nodes are joined, a lone one is promoted. -/
def compRoot (rows : List BucketRow) : Hash :=
  if rows.isEmpty then 0
  else
    let leaves := (sortRows rows).map (rowLeaf sha)
    (PairTree.promoteAll (compNode sha) leaves.length leaves).head?.getD 0

/-- `seal_from_entries`, with the commitments. -/
def sealCommitted (bin : U64) (entries : List WinEntry) : SealedBucket where
  toL1Bucket := sealFromEntries bin entries
  minerCount := minerCountOf (rowsOf entries)
  compRootV := compRoot sha sortRows (rowsOf entries)

def bucketCheck (b : SealedBucket) : BucketFault :=
  if b.binLo ≠ b.binHi then .binRange
  else if ¬ b.rows.IsChain fun a c => rowKeyLess a c = true then .rowOrder
  else if b.compRootV ≠ compRoot sha sortRows b.rows then .compRoot
  else if b.rawSum ≠ rowsWeightSum b.rows then .rawSum
  else if b.minerCount ≠ minerCountOf b.rows then .minerCount
  else if decide (b.rawSum = 0) ≠ b.rows.isEmpty ∨ decide (b.dMin = 0) ≠ b.rows.isEmpty ∨
      decide (b.minerCount = 0) ≠ b.rows.isEmpty then .empty
  else if !b.rows.isEmpty && Limbs.less (mulU256U64 b.rawSum 1)
      (mulU256U64 (ofU64 b.dMin) (Fin.ofNat (2 ^ 64) b.rows.length)) then .rowBound
  else .none

def bucketConsistent (b : SealedBucket) : Bool := bucketCheck sha sortRows b = .none

end Commitments

/-! ## Rows of entries -/

theorem groupRows_chain (rows : List BucketRow) :
    (groupRows rows).IsChain fun a b => rowKeyLess a b = true := by
  apply List.Pairwise.isChain
  unfold groupRows
  rw [pairwise_map]
  apply (SortedMap.sorted _).imp
  intro a b hlt
  unfold rowKeyLess
  rcases Prod.Lex.lt_iff.mp hlt with hminer | ⟨hminer, howner⟩
  · simp [ne_of_lt hminer, hminer]
  · simp [hminer, howner]

theorem length_groupRows_le (rows : List BucketRow) : (groupRows rows).length ≤ rows.length := by
  unfold groupRows
  rw [length_map]
  have h := SortedMap.length_accrueAll_le (∅ : SortedMap (Hash ×ₗ Hash) RowWeights)
    (rows.map fun r => (toLex (r.miner, r.owner), (r.wMiner, r.wOwner, r.wAuthor)))
  rw [length_map] at h
  exact h.trans (Nat.le_of_eq (Nat.zero_add rows.length))

section Entries

variable {entries : List WinEntry}

theorem rowsWeightSum_rowsOf (hvalid : ∀ e ∈ entries, e.Valid) :
    rowsWeightSum (rowsOf entries) = rawSum entries := by
  have hsum : ∀ rows, rowsWeightSum rows = (rows.map BucketRow.sum).sum := by
    intro rows
    unfold rowsWeightSum
    rw [← foldl_map, foldl_add_eq_sum, zero_add]
    simp only [add_assoc]
    rfl
  rw [hsum, rowsOf, measure_sum.groupRows, map_map, rawSum_eq]
  congr 1
  apply map_congr_left
  intro e he
  exact (hvalid e he).sum_rowOf

theorem exists_smallestWork (h : entries ≠ []) : ∃ e ∈ entries, smallestWork entries = e.work := by
  have hfold : ∀ (es : List WinEntry) (d : Option U64), es.foldl minWork d = d ∨
      ∃ e ∈ es, es.foldl minWork d = some e.work := by
    intro es
    induction es with
    | nil => exact fun d => Or.inl rfl
    | cons e es ih =>
      intro d
      rw [foldl_cons]
      rcases ih (minWork d e) with hsame | ⟨e', he', hlast⟩
      · rw [hsame]
        by_cases hd : minWork d e = d
        · exact Or.inl hd
        refine Or.inr ⟨e, mem_cons_self, ?_⟩
        unfold minWork lowerOf at hd ⊢
        cases d with
        | none => rfl
        | some n =>
          by_cases hlt : e.work < n
          · simp [hlt]
          · simp [hlt] at hd
      · exact Or.inr ⟨e', mem_cons_of_mem _ he', hlast⟩
  cases entries with
  | nil => exact absurd rfl h
  | cons e es =>
    rcases hfold es (minWork none e) with hfirst | ⟨e', he', hlast⟩
    · refine ⟨e, mem_cons_self, ?_⟩
      rw [smallestWork, foldl_cons, hfirst]
      rfl
    refine ⟨e', mem_cons_of_mem _ he', ?_⟩
    rw [smallestWork, foldl_cons, hlast]
    rfl

theorem length_mul_smallestWork_le :
    entries.length * (smallestWork entries).val ≤ workSum entries := by
  have h := card_nsmul_le_sum (entries.map fun e => e.work.val) (smallestWork entries).val
  rw [length_map] at h
  apply h
  intro w hw
  obtain ⟨e, he, rfl⟩ := mem_map.mp hw
  obtain ⟨m, hm, hle⟩ := below_smallestWork entries e he
  rw [Option.some.inj hm]
  exact hle

theorem workSum_lt (hcount : entries.length < 2 ^ 64) : workSum entries < 2 ^ 128 := by
  have hle : workSum entries ≤ entries.length * 2 ^ 64 := by
    have h := sum_le_card_nsmul (entries.map fun e => e.work.val) (2 ^ 64)
    rw [length_map] at h
    apply h
    intro w hw
    obtain ⟨e, -, rfl⟩ := mem_map.mp hw
    exact e.work.isLt.le
  omega

theorem workSum_pos (hvalid : ∀ e ∈ entries, e.Valid) (h : entries ≠ []) : 0 < workSum entries := by
  obtain ⟨e, he⟩ := exists_mem_of_ne_nil entries h
  have hle : e.work.val ≤ workSum entries :=
    single_le_sum (fun _ _ => Nat.zero_le _) _ (mem_map_of_mem he)
  have hpos : 0 < e.work.val := (hvalid e he).work_pos
  omega

end Entries

section Sealed

variable {entries : List WinEntry}

theorem sealed_zero_iff (hvalid : ∀ e ∈ entries, e.Valid) (hcount : entries.length < 2 ^ 64) :
    (rawSum entries = 0 ↔ entries = []) ∧ (smallestWork entries = 0 ↔ entries = []) ∧
      (minerCountOf (rowsOf entries) = 0 ↔ entries = []) := by
  by_cases hnone : entries = []
  · subst hnone
    exact ⟨by decide, by decide, by simp [minerCountOf, rowsOf, groupRows_eq_nil.mpr]⟩
  have hsum := workSum_lt hcount
  have hpos := workSum_pos hvalid hnone
  refine ⟨iff_of_false ?_ hnone, iff_of_false ?_ hnone, iff_of_false ?_ hnone⟩
  · intro hzero
    have hraw : (rawSum entries).toNat = workSum entries := toNat_rawSum (by omega)
    rw [hzero] at hraw
    exact absurd hraw (ne_of_lt hpos)
  · obtain ⟨e, he, hsmallest⟩ := exists_smallestWork hnone
    rw [hsmallest]
    exact (hvalid e he).work_pos.ne'
  · intro hzero
    have hrows : rowsOf entries ≠ [] := by
      intro hempty
      rw [rowsOf, groupRows_eq_nil, List.map_eq_nil_iff] at hempty
      exact hnone hempty
    have hlow : 0 < ((rowsOf entries).map BucketRow.miner).toFinset.card := by
      obtain ⟨r, hr⟩ := exists_mem_of_ne_nil _ hrows
      exact Finset.card_pos.mpr ⟨r.miner, mem_toFinset.mpr (mem_map_of_mem hr)⟩
    have hhigh : ((rowsOf entries).map BucketRow.miner).toFinset.card ≤ entries.length := by
      apply (toFinset_card_le _).trans
      rw [length_map, rowsOf]
      exact (length_groupRows_le _).trans (by simp)
    have hval := congrArg Fin.val hzero
    rw [minerCountOf, Fin.val_ofNat, Nat.mod_eq_of_lt (by omega), Fin.val_zero] at hval
    omega

theorem bucketConsistent_sealCommitted (sha : List Byte → Bytes32)
    (sortRows : List BucketRow → List BucketRow) (bin : U64)
    (hvalid : ∀ e ∈ entries, e.Valid) (hcount : entries.length < 2 ^ 64) :
    bucketConsistent sha sortRows (sealCommitted sha sortRows bin entries) = true := by
  obtain ⟨hraw, hmin, hminers⟩ := sealed_zero_iff hvalid hcount
  have hempty : (rowsOf entries).isEmpty = decide (entries = []) := by
    rw [Bool.eq_iff_iff, List.isEmpty_iff, rowsOf, groupRows_eq_nil, List.map_eq_nil_iff,
      decide_eq_true_iff]
  have hlength : (rowsOf entries).length ≤ entries.length :=
    (length_groupRows_le _).trans (by simp)
  have hbound : Limbs.less (mulU256U64 (rawSum entries) 1) (mulU256U64
      (ofU64 (smallestWork entries)) (Fin.ofNat (2 ^ 64) (rowsOf entries).length)) = false := by
    have hsum := workSum_lt hcount
    have hrow : (rowsOf entries).length * (smallestWork entries).val ≤ workSum entries :=
      (Nat.mul_le_mul_right _ hlength).trans length_mul_smallestWork_le
    rw [Bool.eq_false_iff, ne_eq,
      less_mul (bounded_mulU256U64 _ _) (bounded_mulU256U64 _ _) (by simp), value_mulU256U64,
      value_mulU256U64, toNat_rawSum (by omega), toNat_ofU64, Fin.val_ofNat,
      Nat.mod_eq_of_lt (by omega), Nat.mul_comm (smallestWork entries).val]
    simp
    omega
  unfold bucketConsistent bucketCheck sealCommitted
  simp only [sealFromEntries, rowsWeightSum_rowsOf hvalid, hempty, hraw, hmin, hminers, hbound]
  simp [rowsOf, groupRows_chain]

end Sealed

end C2Pool.Xmr.PathB
