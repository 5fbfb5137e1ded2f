import C2Pool.Xmr.Window

/-! # Merge-back moves weight and loses none

What each row pays to whom is fixed by which owners, and whether the author, are
below the floor.  The weights of a window are the sums of these credits, so they
add up to the raw work of the entries.
-/

namespace C2Pool.Xmr.PathB

open List Wide SortedMap Tally Function

/-! ## What a row pays -/

def credits (merging : List Hash) (authorBack : Bool) (author : Hash) (r : BucketRow) :
    List (Hash × Work) :=
  [(r.miner, r.wMiner), (if r.owner ∈ merging then r.miner else r.owner, r.wOwner),
    (if authorBack then r.miner else author, r.wAuthor)]

theorem ownersMerging_nodup (rows : List BucketRow) (W : Work) (B fSpend : U64) (author : Hash) :
    (ownersMerging rows W B fSpend author).Nodup := (keys_nodup _).filter _

variable {merging : List Hash} {N : Type} {g : BucketRow → N}

theorem flatMap_owners_perm (rows : List BucketRow) (h : merging.Nodup) :
    (merging.flatMap fun o => rows.filter fun r => r.owner = o).Perm
      (rows.filter fun r => r.owner ∈ merging) := by
  induction merging with
  | nil => simp
  | cons o merging ih =>
    obtain ⟨ho, hrest⟩ := nodup_cons.mp h
    have hsplit := filter_append_perm (fun r : BucketRow => decide (r.owner = o))
      (rows.filter fun r => r.owner ∈ o :: merging)
    rw [filter_filter, filter_filter] at hsplit
    have hthis : (rows.filter fun r => decide (r.owner = o) && decide (r.owner ∈ o :: merging)) =
        rows.filter fun r => r.owner = o := by
      apply filter_congr
      intro r _
      by_cases hr : r.owner = o
      · simp [hr]
      · simp [hr]
    have hother : (rows.filter fun r =>
        !decide (r.owner = o) && decide (r.owner ∈ o :: merging)) =
        rows.filter fun r => r.owner ∈ merging := by
      apply filter_congr
      intro r _
      by_cases hr : r.owner = o
      · simp [hr, ho]
      · simp [hr]
    rw [hthis, hother] at hsplit
    exact ((ih hrest).append_left _).trans hsplit

theorem amount_nonZero (m : SortedMap Hash Work) (x : Hash) :
    Tally.amount (nonZero m) x = m.amountAt x := by
  rw [← tally_entries]
  unfold nonZero
  induction m.entries with
  | nil => rfl
  | cons e es ih =>
    by_cases he : e.2 = 0
    · rw [filter_cons_of_neg (by simp [he]), ih, amount_cons, he]
      simp
    · rw [filter_cons_of_pos (by simpa using he), amount_cons, amount_cons, ih]

theorem amountAt_foldl_insert_zero (m : SortedMap Hash Work) (os : List Hash) (x : Hash) :
    (os.foldl (fun m o => m.insert o 0) m).amountAt x = if x ∈ os then 0 else m.amountAt x := by
  induction os generalizing m with
  | nil => simp
  | cons o os ih =>
    rw [foldl_cons, ih, amountAt_insert]
    by_cases hx : x ∈ os
    · simp [hx]
    by_cases ho : x = o
    · simp [ho]
    · simp [hx, ho]

theorem foldl_add_eq_sum (l : List Work) (a : Work) : l.foldl (· + ·) a = a + l.sum := by
  induction l generalizing a with
  | nil => simp
  | cons b l ih => rw [foldl_cons, ih, sum_cons, add_assoc]

section

variable (rows : List BucketRow)
include rows

theorem authorWeight_eq : authorWeight rows = (rows.map BucketRow.wAuthor).sum := by
  unfold authorWeight
  rw [foldl_add_eq_sum, zero_add]

theorem sum_filter_rows (keep : BucketRow → Prop) [DecidablePred keep] (f : BucketRow → Work) :
    ((rows.filter fun r => keep r).map f).sum =
      (rows.map fun r => if keep r then f r else 0).sum := by
  induction rows with
  | nil => rfl
  | cons r rows ih =>
    by_cases hr : keep r
    · rw [filter_cons_of_pos (by simpa using hr), map_cons, sum_cons, ih]
      simp [hr]
    · rw [filter_cons_of_neg (by simpa using hr), ih]
      simp [hr]

theorem amountAt_minerWeights (x : Hash) :
    (minerWeights rows).amountAt x =
      (rows.map fun r => if r.miner = x then r.wMiner else 0).sum := by
  unfold minerWeights
  rw [amountAt_accrueAll, amountAt_empty, zero_add, Tally.amount, map_map]
  rfl

theorem amountAt_ownerWeights (x : Hash) :
    (ownerWeights rows).amountAt x =
      (rows.map fun r => if r.owner ≠ 0 then (if r.owner = x then r.wOwner else 0) else 0).sum := by
  unfold ownerWeights
  rw [amountAt_accrueAll, amountAt_empty, zero_add, Tally.amount, map_map]
  exact sum_filter_rows rows (fun r => r.owner ≠ 0) fun r => if r.owner = x then r.wOwner else 0

theorem amount_returned (h : merging.Nodup) (x : Hash) :
    Tally.amount (merging.flatMap fun o =>
        (rows.filter fun r => r.owner = o).map fun r => (r.miner, r.wOwner)) x =
      (rows.map fun r => if r.owner ∈ merging then (if r.miner = x then r.wOwner else 0)
        else 0).sum := by
  rw [← map_flatMap, Tally.amount, map_map, (((flatMap_owners_perm rows h).map _).sum_eq)]
  exact sum_filter_rows rows (fun r => r.owner ∈ merging) fun r =>
    if r.miner = x then r.wOwner else 0

theorem amount_credits (merging : List Hash) (authorBack : Bool) (author x : Hash) :
    Tally.amount (rows.flatMap (credits merging authorBack author)) x =
      (rows.map fun r => (if r.miner = x then r.wMiner else 0) +
        ((if (if r.owner ∈ merging then r.miner else r.owner) = x then r.wOwner else 0) +
          (if (if authorBack then r.miner else author) = x then r.wAuthor else 0))).sum := by
  induction rows with
  | nil => rfl
  | cons r rows ih =>
    rw [flatMap_cons, map_cons, sum_cons, ← ih]
    simp only [credits, cons_append, nil_append, amount_cons]
    ac_rfl

end

variable {rows : List BucketRow} {e : WinEntry}

theorem amountAt_weight (hzero : ∀ r ∈ rows, r.owner = 0 → r.wOwner = 0)
    (W : Work) (B fSpend : U64) (author x : Hash) :
    (resolveRows rows W B fSpend author).weight.amountAt x =
      Tally.amount (rows.flatMap (credits (ownersMerging rows W B fSpend author)
        (authorMerges rows W B fSpend author) author)) x := by
  have hnodup := ownersMerging_nodup rows W B fSpend author
  unfold resolveRows
  generalize ownersMerging rows W B fSpend author = merging at hnodup
  have hback : authorMerges rows W B fSpend author = false → authorWeight rows ≠ 0 := by
    intro hback hw
    simp [authorMerges, hw] at hback
  generalize authorMerges rows W B fSpend author = authorBack at hback
  -- the owners' weights that stay, row by row
  have howners : (merging.foldl (fun m o => m.insert o 0) (ownerWeights rows)).amountAt x =
      (rows.map fun r => if r.owner ∈ merging then 0
        else if r.owner = x then r.wOwner else 0).sum := by
    rw [amountAt_foldl_insert_zero, amountAt_ownerWeights]
    by_cases hx : x ∈ merging
    · rw [if_pos hx]
      symm
      apply sum_eq_zero
      intro v hv
      obtain ⟨r, -, rfl⟩ := mem_map.mp hv
      by_cases hr : r.owner = x
      · simp [hr, hx]
      · simp [hr]
    rw [if_neg hx]
    congr 1
    apply map_congr_left
    intro r hr
    by_cases hrx : r.owner = x
    · by_cases hr0 : r.owner = 0
      · simp [hr0, hzero r hr hr0]
      · simp [hrx, hx, hrx ▸ hr0]
    · simp [hrx]
  have hreturned := amount_returned rows hnodup x
  have hminers := amountAt_minerWeights rows x
  rw [amount_credits]
  cases authorBack with
  | true =>
    simp only [if_true, Bool.not_true, Bool.false_and, Bool.false_eq_true, if_false]
    rw [amountAt_accrueAll, amountAt_accrueAll, amount_nonZero, amount_nonZero, amountAt_accrueAll,
      amountAt_accrueAll, howners, hreturned, hminers, amountAt_empty, zero_add, Tally.amount,
      map_map, ← sum_map_add, ← sum_map_add, ← sum_map_add]
    congr 1
    apply map_congr_left
    intro r _
    by_cases hr : r.owner ∈ merging
    · simp only [hr, if_true, comp_apply]
      ac_rfl
    · simp only [hr, if_false, comp_apply, add_zero]
      ac_rfl
  | false =>
    have hauthor := hback rfl
    simp only [Bool.false_eq_true, if_false, Bool.not_false, Bool.true_and]
    rw [if_pos (by simpa using hauthor), amountAt_accrue,
      amountAt_accrueAll, amountAt_accrueAll, amount_nonZero,
      amount_nonZero, amountAt_accrueAll, howners, hreturned, hminers, amountAt_empty, zero_add]
    have hpart : (if author = x then authorWeight rows else 0) =
        (rows.map fun r => if author = x then r.wAuthor else 0).sum := by
      by_cases hx : author = x
      · simp only [hx, if_true]
        exact authorWeight_eq rows
      · simp [hx]
    rw [hpart, ← sum_map_add, ← sum_map_add, ← sum_map_add]
    congr 1
    apply map_congr_left
    intro r _
    by_cases hr : r.owner ∈ merging
    · simp only [hr, if_true]
      ac_rfl
    · simp only [hr, if_false, add_zero]
      ac_rfl

namespace BucketRow

def sum (r : BucketRow) : Work := r.wMiner + (r.wOwner + r.wAuthor)

def size (r : BucketRow) : Nat := r.wMiner.toNat + (r.wOwner.toNat + r.wAuthor.toNat)

end BucketRow

theorem toNat_add_le (a b : Work) : (a + b).toNat ≤ a.toNat + b.toNat := by
  exact Nat.mod_le _ _

/-- The credits of the rows of a window, as `resolve_rows` decides them. -/
def allCredits (rows : List BucketRow) (W : Work) (B fSpend : U64) (author : Hash) :
    List (Hash × Work) :=
  rows.flatMap (credits (ownersMerging rows W B fSpend author)
    (authorMerges rows W B fSpend author) author)

theorem sum_weight_eq [AddCommMonoid N] {g : Work → N} (hg : g 0 = 0)
    (hzero : ∀ r ∈ rows, r.owner = 0 → r.wOwner = 0) (W : Work) (B fSpend : U64) (author : Hash) :
    ((resolveRows rows W B fSpend author).weight.entries.map fun e => g e.2).sum =
      ((SortedMap.accrueAll ∅ (allCredits rows W B fSpend author)).entries.map
        fun e => g e.2).sum := by
  apply sum_entries_congr (g := fun _ v => g v) (fun _ => hg)
  intro k
  rw [amountAt_weight hzero, amountAt_accrueAll, amountAt_empty, zero_add, allCredits]

theorem sum_flatMap_credits [AddCommMonoid N] (g : Work → N) (rows : List BucketRow)
    (W : Work) (B fSpend : U64) (author : Hash) :
    ((allCredits rows W B fSpend author).map fun e => g e.2).sum =
      (rows.map fun r => g r.wMiner + (g r.wOwner + g r.wAuthor)).sum := by
  unfold allCredits
  generalize ownersMerging rows W B fSpend author = merging
  generalize authorMerges rows W B fSpend author = authorBack
  induction rows with
  | nil => rfl
  | cons r rows ih => simp [credits, ih, add_assoc]

theorem sum_weight (hzero : ∀ r ∈ rows, r.owner = 0 → r.wOwner = 0)
    (W : Work) (B fSpend : U64) (author : Hash) :
    ((resolveRows rows W B fSpend author).weight.entries.map Prod.snd).sum =
      (rows.map BucketRow.sum).sum := by
  have hall := sum_weight_eq (g := fun v => v) rfl hzero W B fSpend author
  have hadded := sum_accrueAll (g := fun (_ : Hash) (v : Work) => v) (fun _ => rfl)
    (fun _ _ _ => rfl) ∅ (allCredits rows W B fSpend author)
  rw [show (∅ : SortedMap Hash Work).entries = [] from rfl, map_nil, sum_nil, zero_add] at hadded
  exact hall.trans (hadded.trans (sum_flatMap_credits (fun v => v) rows W B fSpend author))

theorem sum_toNat_weight_le
    (hzero : ∀ r ∈ rows, r.owner = 0 → r.wOwner = 0) (W : Work) (B fSpend : U64) (author : Hash) :
    ((resolveRows rows W B fSpend author).weight.entries.map fun e => e.2.toNat).sum ≤
      (rows.map BucketRow.size).sum := by
  have hadded := sum_accrueAll_le (g := fun (_ : Hash) (v : Work) => v.toNat)
    (fun _ => rfl) (fun _ => toNat_add_le) ∅ (allCredits rows W B fSpend author)
  rw [show (∅ : SortedMap Hash Work).entries = [] from rfl, map_nil, sum_nil, zero_add,
    sum_flatMap_credits BitVec.toNat] at hadded
  rw [sum_weight_eq (g := BitVec.toNat) rfl hzero]
  exact hadded

/-! ## Rows -/

def pairSum (f : BucketRow → Work) (rows : List BucketRow) (miner owner : Hash) : Work :=
  (rows.map fun r => if r.miner = miner ∧ r.owner = owner then f r else 0).sum

theorem pairSum_cons (f : BucketRow → Work) (r : BucketRow) (rows : List BucketRow)
    (miner owner : Hash) :
    pairSum f (r :: rows) miner owner =
      (if r.miner = miner ∧ r.owner = owner then f r else 0) + pairSum f rows miner owner := by
  simp [pairSum]

theorem amount_pairs (rows : List BucketRow) (k : Hash ×ₗ Hash) :
    Tally.amount (rows.map fun r =>
        (toLex (r.miner, r.owner), ((r.wMiner, r.wOwner, r.wAuthor) : RowWeights))) k =
      (pairSum BucketRow.wMiner rows (ofLex k).1 (ofLex k).2,
        pairSum BucketRow.wOwner rows (ofLex k).1 (ofLex k).2,
        pairSum BucketRow.wAuthor rows (ofLex k).1 (ofLex k).2) := by
  induction rows with
  | nil => rfl
  | cons r rows ih =>
    have hpair : toLex (r.miner, r.owner) = k ↔ r.miner = (ofLex k).1 ∧ r.owner = (ofLex k).2 := by
      rw [← toLex_ofLex k, toLex_inj, Prod.ext_iff]
      rfl
    rw [map_cons, amount_cons, ih, pairSum_cons, pairSum_cons, pairSum_cons]
    by_cases hk : toLex (r.miner, r.owner) = k
    · simp [hpair.mp hk]
    · have hno : ¬ (r.miner = (ofLex k).1 ∧ r.owner = (ofLex k).2) := fun h => hk (hpair.mpr h)
      simp [hk, hno]

theorem mem_groupRows {r : BucketRow} (h : r ∈ groupRows rows) :
    (∃ r' ∈ rows, r'.miner = r.miner ∧ r'.owner = r.owner) ∧
      r.wMiner = pairSum BucketRow.wMiner rows r.miner r.owner ∧
      r.wOwner = pairSum BucketRow.wOwner rows r.miner r.owner ∧
      r.wAuthor = pairSum BucketRow.wAuthor rows r.miner r.owner := by
  obtain ⟨e, he, rfl⟩ := mem_map.mp h
  have hkey : e.1 ∈ (SortedMap.accrueAll ∅ (rows.map fun r =>
      (toLex (r.miner, r.owner), ((r.wMiner, r.wOwner, r.wAuthor) : RowWeights)))).keys :=
    mem_map_of_mem he
  have hamount := amountAt_of_mem he
  rw [amountAt_accrueAll, amountAt_empty, zero_add, amount_pairs] at hamount
  constructor
  · rw [mem_keys_accrueAll] at hkey
    rcases hkey with hkey | hkey
    · cases hkey
    rw [map_map] at hkey
    obtain ⟨r', hr', heq⟩ := mem_map.mp hkey
    refine ⟨r', hr', ?_, ?_⟩
    · rw [← heq]
      rfl
    · rw [← heq]
      rfl
  · rw [← hamount]
    exact ⟨rfl, rfl, rfl⟩

/-- A measure of rows that only depends on the pair and is additive in the
weights. -/
structure Measure (N : Type) [AddCommMonoid N] (g : BucketRow → N) : Prop where
  zero : ∀ miner owner, g ⟨miner, owner, 0, 0, 0⟩ = 0
  add : ∀ miner owner a b c a' b' c', g ⟨miner, owner, a + a', b + b', c + c'⟩ =
    g ⟨miner, owner, a, b, c⟩ + g ⟨miner, owner, a', b', c'⟩

theorem Measure.groupRows [AddCommMonoid N] (h : Measure N g)
    (rows : List BucketRow) : ((groupRows rows).map g).sum = (rows.map g).sum := by
  have hsum := sum_accrueAll
    (g := fun (k : Hash ×ₗ Hash) (v : RowWeights) =>
      g ⟨(ofLex k).1, (ofLex k).2, v.1, v.2.1, v.2.2⟩)
    (fun k => h.zero _ _) (fun k a b => h.add _ _ _ _ _ _ _ _) ∅
    (rows.map fun r => (toLex (r.miner, r.owner), ((r.wMiner, r.wOwner, r.wAuthor) : RowWeights)))
  rw [show (∅ : SortedMap (Hash ×ₗ Hash) RowWeights).entries = [] from rfl, map_nil,
    sum_nil, zero_add, map_map] at hsum
  unfold PathB.groupRows
  rw [map_map]
  exact hsum

theorem measure_sum : Measure Work BucketRow.sum where
  zero _ _ := by simp [BucketRow.sum]
  add _ _ a b c a' b' c' := by
    simp only [BucketRow.sum]
    ac_rfl

theorem size_groupRows_le (rows : List BucketRow) :
    ((groupRows rows).map BucketRow.size).sum ≤ (rows.map BucketRow.size).sum := by
  have h := sum_accrueAll_le (g := fun (_ : Hash ×ₗ Hash) (v : RowWeights) =>
    v.1.toNat + (v.2.1.toNat + v.2.2.toNat)) (fun _ => by simp) (fun _ a b => by
      simp only [Prod.fst_add, Prod.snd_add]
      have h1 := toNat_add_le a.1 b.1
      have h2 := toNat_add_le a.2.1 b.2.1
      have h3 := toNat_add_le a.2.2 b.2.2
      omega) ∅
    (rows.map fun r => (toLex (r.miner, r.owner), ((r.wMiner, r.wOwner, r.wAuthor) : RowWeights)))
  rw [show (∅ : SortedMap (Hash ×ₗ Hash) RowWeights).entries = [] from rfl, map_nil,
    sum_nil, zero_add, map_map] at h
  unfold groupRows
  rw [map_map]
  exact h

theorem groupRows_unowned (h : ∀ r ∈ rows, r.owner = 0 → r.wOwner = 0) :
    ∀ r ∈ groupRows rows, r.owner = 0 → r.wOwner = 0 := by
  intro r hr howner
  obtain ⟨-, -, hpart, -⟩ := mem_groupRows hr
  rw [hpart, pairSum]
  apply sum_eq_zero
  intro v hv
  obtain ⟨r', hr', rfl⟩ := mem_map.mp hv
  by_cases hsame : r'.miner = r.miner ∧ r'.owner = r.owner
  · rw [if_pos hsame]
    exact h r' hr' (hsame.2.trans howner)
  · rw [if_neg hsame]

/-- What admission promises of a live receipt: it has work, its rates are shares
of a whole, and it names an owner exactly when it pays one. -/
structure WinEntry.Valid (e : WinEntry) : Prop where
  work_pos : 0 < e.work
  rates : e.p.val + e.giveAuthorBp.val ≤ 10000
  owner : e.owner = 0 ↔ e.p = 0

/-- The bin stands for the entries: open it holds them, sealed it holds the bucket
made from them. -/
def Backed (b : WinBin) (entries : List WinEntry) : Prop :=
  (b.bucket = none ∧ b.entries = entries) ∨
    (∃ bin, b.bucket = some (sealFromEntries bin entries)) ∧ b.entries = []

def workSum (entries : List WinEntry) : Nat := (entries.map fun e => e.work.val).sum

theorem WinEntry.Valid.shares (h : e.Valid) :
    (sharesOf e.work e.p e.giveAuthorBp).wMiner.val +
      ((sharesOf e.work e.p e.giveAuthorBp).wOwner.val +
        (sharesOf e.work e.p e.giveAuthorBp).wAuthor.val) = e.work.val := by
  have hrates := h.rates
  have hboth : e.work.val * e.p.val / 10000 + e.work.val * e.giveAuthorBp.val / 10000 ≤
      e.work.val := by
    have hsum : e.work.val * e.p.val + e.work.val * e.giveAuthorBp.val ≤ e.work.val * 10000 := by
      rw [← Nat.mul_add]
      exact Nat.mul_le_mul_left _ hrates
    omega
  have howner : (shareFloor e.work e.p).val = e.work.val * e.p.val / 10000 :=
    Nat.mod_eq_of_lt (by omega)
  have hauthor : (shareFloor e.work e.giveAuthorBp).val =
      e.work.val * e.giveAuthorBp.val / 10000 := Nat.mod_eq_of_lt (by omega)
  have htaken : (shareFloor e.work e.p + shareFloor e.work e.giveAuthorBp).val =
      e.work.val * e.p.val / 10000 + e.work.val * e.giveAuthorBp.val / 10000 := by
    rw [Fin.val_add, howner, hauthor]
    exact Nat.mod_eq_of_lt (by omega)
  have hle : shareFloor e.work e.p + shareFloor e.work e.giveAuthorBp ≤ e.work := by
    rw [Fin.le_def, htaken]
    exact hboth
  simp only [sharesOf]
  rw [if_pos hle, Fin.sub_val_of_le hle, htaken, howner, hauthor]
  omega

theorem WinEntry.Valid.sum_rowOf (h : e.Valid) : (rowOf e).sum = ofU64 e.work := by
  have hshares := h.shares
  unfold BucketRow.sum rowOf ofU64
  simp only [← BitVec.ofNat_add]
  rw [hshares]

theorem WinEntry.Valid.size_rowOf (h : e.Valid) : (rowOf e).size = e.work.val := by
  unfold BucketRow.size rowOf
  simp only [toNat_ofU64]
  exact h.shares

theorem WinEntry.Valid.unowned (h : e.Valid) (howner : (rowOf e).owner = 0) :
    (rowOf e).wOwner = 0 := by
  have hp : e.p = 0 := h.owner.mp howner
  simp [rowOf, sharesOf, hp, shareFloor, ofU64]

theorem rawSum_eq (entries : List WinEntry) :
    rawSum entries = (entries.map fun e => ofU64 e.work).sum := by
  unfold rawSum
  rw [← foldl_map, foldl_add_eq_sum, zero_add]

theorem toNat_sum {l : List Work} (h : (l.map BitVec.toNat).sum < 2 ^ 256) :
    l.sum.toNat = (l.map BitVec.toNat).sum := by
  induction l with
  | nil => rfl
  | cons a l ih =>
    rw [map_cons, sum_cons] at h
    rw [sum_cons, map_cons, sum_cons, BitVec.toNat_add, ih (by omega)]
    exact Nat.mod_eq_of_lt h

theorem toNat_rawSum {entries : List WinEntry} (h : workSum entries < 2 ^ 256) :
    (rawSum entries).toNat = workSum entries := by
  have hnat : ((entries.map fun e => ofU64 e.work).map BitVec.toNat).sum = workSum entries := by
    rw [map_map, workSum]
    simp only [comp_def, toNat_ofU64]
  rw [rawSum_eq, toNat_sum (by omega), hnat]

section Bins

variable {b : WinBin} {entries : List WinEntry}

theorem Backed.raw (h : Backed b entries) : b.raw = rawSum entries := by
  rcases h with ⟨hopen, hentries⟩ | ⟨⟨bin, hsealed⟩, -⟩
  · simp [WinBin.raw, hopen, hentries]
  · simp [WinBin.raw, hsealed, sealFromEntries]

theorem Backed.dMin (h : Backed b entries) : b.dMin = smallestWork entries := by
  rcases h with ⟨hopen, hentries⟩ | ⟨⟨bin, hsealed⟩, -⟩
  · simp [WinBin.dMin, hopen, hentries]
  · simp [WinBin.dMin, hsealed, sealFromEntries]

theorem Backed.sum_sourceRows [AddCommMonoid N] (hg : Measure N g) (h : Backed b entries) :
    (b.sourceRows.map g).sum = (entries.map fun e => g (rowOf e)).sum := by
  rcases h with ⟨hopen, hentries⟩ | ⟨⟨bin, hsealed⟩, -⟩
  · simp only [WinBin.sourceRows, hopen, hentries, map_map]
    rfl
  simp only [WinBin.sourceRows, hsealed, sealFromEntries, rowsOf]
  rw [hg.groupRows, map_map]
  rfl

theorem Backed.size_sourceRows_le (h : Backed b entries) (hvalid : ∀ e ∈ entries, e.Valid) :
    (b.sourceRows.map BucketRow.size).sum ≤ workSum entries := by
  have hrows : ((entries.map rowOf).map BucketRow.size).sum = workSum entries := by
    rw [workSum, map_map]
    congr 1
    apply map_congr_left
    intro e he
    exact (hvalid e he).size_rowOf
  rcases h with ⟨hopen, hentries⟩ | ⟨⟨bin, hsealed⟩, -⟩
  · simp only [WinBin.sourceRows, hopen, hentries]
    exact hrows.le
  · simp only [WinBin.sourceRows, hsealed, sealFromEntries, rowsOf]
    exact (size_groupRows_le _).trans hrows.le

theorem Backed.unowned (h : Backed b entries) (hvalid : ∀ e ∈ entries, e.Valid) :
    ∀ r ∈ b.sourceRows, r.owner = 0 → r.wOwner = 0 := by
  have hrows : ∀ r ∈ entries.map rowOf, r.owner = 0 → r.wOwner = 0 := by
    intro r hr howner
    obtain ⟨e, he, rfl⟩ := mem_map.mp hr
    exact (hvalid e he).unowned howner
  rcases h with ⟨hopen, hentries⟩ | ⟨⟨bin, hsealed⟩, -⟩
  · simp only [WinBin.sourceRows, hopen, hentries]
    exact hrows
  · simp only [WinBin.sourceRows, hsealed, sealFromEntries, rowsOf]
    exact groupRows_unowned hrows

end Bins

section Windows

variable {bins : List WinBin} {lived : List (List WinEntry)}

theorem workSum_append (es es' : List WinEntry) :
    workSum (es ++ es') = workSum es + workSum es' := by
  simp [workSum]

theorem rawSum_append (es es' : List WinEntry) : rawSum (es ++ es') = rawSum es + rawSum es' := by
  simp [rawSum_eq]

theorem workOfBins_eq (h : List.Forall₂ Backed bins lived) :
    workOfBins bins = rawSum lived.flatten := by
  have hfold : workOfBins bins = (bins.map WinBin.raw).sum := by
    unfold workOfBins
    rw [← foldl_map, foldl_add_eq_sum, zero_add]
  rw [hfold]
  clear hfold
  induction h with
  | nil => rfl
  | cons hb _ ih =>
    rw [map_cons, sum_cons, ih, hb.raw, flatten_cons, rawSum_append]

theorem Measure.rowsOfBins [AddCommMonoid N] (hg : Measure N g)
    (h : List.Forall₂ Backed bins lived) :
    ((rowsOfBins bins).map g).sum = (lived.flatten.map fun e => g (rowOf e)).sum := by
  unfold PathB.rowsOfBins
  rw [hg.groupRows]
  induction h with
  | nil => rfl
  | cons hb _ ih =>
    rw [flatMap_cons, map_append, sum_append, ih, hb.sum_sourceRows hg,
      flatten_cons, map_append, sum_append]

section

variable (h : List.Forall₂ Backed bins lived) (hvalid : ∀ es ∈ lived, ∀ e ∈ es, e.Valid)
include h hvalid

theorem sum_rowsOfBins : ((rowsOfBins bins).map BucketRow.sum).sum = rawSum lived.flatten := by
  rw [measure_sum.rowsOfBins h, rawSum_eq]
  congr 1
  apply map_congr_left
  intro e he
  obtain ⟨es, hes, he'⟩ := mem_flatten.mp he
  exact (hvalid es hes e he').sum_rowOf

theorem size_rowsOfBins_le :
    ((rowsOfBins bins).map BucketRow.size).sum ≤ workSum lived.flatten := by
  refine (size_groupRows_le _).trans ?_
  induction h with
  | nil => simp
  | cons hb _ ih =>
    have hrest := ih fun es hes => hvalid es (mem_cons_of_mem _ hes)
    have hone := hb.size_sourceRows_le (hvalid _ mem_cons_self)
    rw [flatMap_cons, map_append, sum_append, flatten_cons, workSum_append]
    omega

theorem rowsOfBins_unowned : ∀ r ∈ rowsOfBins bins, r.owner = 0 → r.wOwner = 0 := by
  apply groupRows_unowned
  induction h with
  | nil => simp
  | cons hb _ ih =>
    intro r hr
    rw [flatMap_cons, mem_append] at hr
    rcases hr with hr | hr
    · exact hb.unowned (hvalid _ mem_cons_self) r hr
    · exact ih (fun es hes => hvalid es (mem_cons_of_mem _ hes)) r hr

theorem resolveBins_conserves (hsum : workSum lived.flatten < 2 ^ 256)
    (B fSpend : U64) (author : Hash) :
    (resolveBins bins B fSpend author).total.toNat = workSum lived.flatten ∧
      ((resolveBins bins B fSpend author).weight.entries.map Prod.snd).sum =
        (resolveBins bins B fSpend author).total ∧
      ((resolveBins bins B fSpend author).weight.entries.map fun e => e.2.toNat).sum =
        workSum lived.flatten := by
  have hunowned := rowsOfBins_unowned h hvalid
  have htotal : (resolveBins bins B fSpend author).total = rawSum lived.flatten := workOfBins_eq h
  have hweights : ((resolveBins bins B fSpend author).weight.entries.map Prod.snd).sum =
      rawSum lived.flatten :=
    (sum_weight hunowned _ B fSpend author).trans (sum_rowsOfBins h hvalid)
  have hle : ((resolveBins bins B fSpend author).weight.entries.map fun e => e.2.toNat).sum ≤
      workSum lived.flatten :=
    (sum_toNat_weight_le hunowned _ B fSpend author).trans (size_rowsOfBins_le h hvalid)
  refine ⟨by rw [htotal, toNat_rawSum hsum], by rw [hweights, htotal], ?_⟩
  have hexact := congrArg BitVec.toNat hweights
  rw [toNat_rawSum hsum, toNat_sum, map_map] at hexact
  · exact hexact
  · rw [map_map]
    exact lt_of_le_of_lt hle hsum

end

end Windows

end C2Pool.Xmr.PathB
