import C2Pool.Xmr.WindowSelect

/-! # How many payees a window has

The N rule counts the identities that hold weight after shares, before merge-back, which takes the
payees away whose whole weight goes back to others and brings in the miners that held nothing and
get a share back.
-/

namespace C2Pool.Xmr.PathB

open List Wide SortedMap

theorem eq_zero_of_toNat {a : Work} (h : a.toNat = 0) : a = 0 :=
  BitVec.eq_of_toNat_eq h

theorem ofU64_ne_zero (x : U64) : ofU64 x ≠ 0 ↔ 0 < x := by
  rw [Fin.lt_def, Fin.val_zero, ← toNat_ofU64 x, pos_iff_ne_zero]
  constructor
  · intro h hzero
    exact h (eq_zero_of_toNat hzero)
  intro h hzero
  apply h
  rw [hzero]
  rfl

theorem addEntry_eq (author : Hash) (ids : Finset Hash) (e : WinEntry) :
    addEntry author ids e = addRow author ids (rowOf e) := by
  unfold addEntry addRow rowOf
  simp only [ofU64_ne_zero]

theorem addBin_eq (author : Hash) (ids : Finset Hash) (b : WinBin) :
    addBin author ids b = b.sourceRows.foldl (addRow author) ids := by
  unfold addBin WinBin.sourceRows
  cases b.bucket with
  | some s => rfl
  | none =>
    simp only [foldl_map]
    congr 1
    funext ids e
    exact addEntry_eq author ids e

theorem foldl_addBin (author : Hash) (bins : List WinBin) (ids : Finset Hash) :
    bins.foldl (addBin author) ids =
      (bins.flatMap WinBin.sourceRows).foldl (addRow author) ids := by
  induction bins generalizing ids with
  | nil => rfl
  | cons b bins ih => rw [foldl_cons, ih, addBin_eq, flatMap_cons, foldl_append]

def Counts (author : Hash) (r : BucketRow) (x : Hash) : Prop :=
  (r.wMiner ≠ 0 ∧ x = r.miner) ∨ ((r.owner ≠ 0 ∧ r.wOwner ≠ 0) ∧ x = r.owner) ∨
    ((author ≠ 0 ∧ r.wAuthor ≠ 0) ∧ x = author)

theorem mem_insert_if (p : Prop) [Decidable p] (s : Finset Hash) (a x : Hash) :
    x ∈ (if p then insert a s else s) ↔ p ∧ x = a ∨ x ∈ s := by
  by_cases hp : p
  · simp [hp]
  · simp [hp]

theorem mem_addRow {author x : Hash} {ids : Finset Hash} {r : BucketRow} :
    x ∈ addRow author ids r ↔ Counts author r x ∨ x ∈ ids := by
  unfold addRow Counts
  simp only [mem_insert_if]
  tauto

theorem mem_foldl_addRow {author x : Hash} {ids : Finset Hash} {rows : List BucketRow} :
    x ∈ rows.foldl (addRow author) ids ↔ (∃ r ∈ rows, Counts author r x) ∨ x ∈ ids := by
  induction rows generalizing ids with
  | nil => simp
  | cons r rows ih =>
    rw [foldl_cons, ih, mem_addRow, exists_mem_cons_iff, ← or_assoc,
      or_comm (a := ∃ r ∈ rows, Counts author r x)]

theorem binsWithin_card (author : Hash) (N : U64) {ids : Finset Hash}
    (hids : ids.card ≤ N.val) (bins : List WinBin) :
    ((bins.take (binsWithin author N ids bins)).foldl (addBin author) ids).card ≤ N.val := by
  induction bins generalizing ids with
  | nil => simpa [binsWithin] using hids
  | cons b bins ih =>
    unfold binsWithin
    by_cases hover : N.val < (addBin author ids b).card
    · simpa [hover] using hids
    · simp only [hover, if_false, take_succ_cons, foldl_cons]
      exact ih (Nat.le_of_not_lt hover)

theorem keepPayees_card (author : Hash) (N : U64) {ids : Finset Hash} (hids : ids.card ≤ N.val)
    (es : List WinEntry) :
    ((keepPayees author N ids es).foldl (addEntry author) ids).card ≤ N.val := by
  induction es generalizing ids with
  | nil => simpa [keepPayees] using hids
  | cons e es ih =>
    unfold keepPayees
    by_cases hover : N.val < (addEntry author ids e).card
    · simpa [hover] using hids
    · simp only [hover, if_false, foldl_cons]
      exact ih (Nat.le_of_not_lt hover)

theorem nRule_card {sort : List WinEntry → List WinEntry} {author : Hash} {N : U64} (hN : N ≠ 0)
    {selected : List WinBin} (hok : (nRule sort author N selected).status = .ok) :
    ((nRule sort author N selected).bins.foldl (addBin author) ∅).card ≤ N.val := by
  have hnone : (∅ : Finset Hash).card ≤ N.val := by simp
  cases selected with
  | nil => simp [nRule]
  | cons newest older =>
    have hwithin := binsWithin_card author N hnone (newest :: older)
    unfold nRule at hok ⊢
    simp only [hN, if_false] at hok ⊢
    cases hk : binsWithin author N ∅ (newest :: older) with
    | zero =>
      simp only [hk] at hok ⊢
      unfold cutPayees at hok ⊢
      cases hb : newest.bucket with
      | some s => simp [hb] at hok
      | none =>
        exact keepPayees_card author N hnone _
    | succ k =>
      rw [hk] at hwithin
      exact hwithin

/-! ## Rows that stand for receipts -/

/-- The rows carry the weights of the receipts, grouped in whatever way. -/
structure StandFor (rows : List BucketRow) (es : List WinEntry) : Prop where
  sums : ∀ g : BucketRow → Work, Measure Work g →
    (rows.map g).sum = (es.map fun e => g (rowOf e)).sum
  size_le : (rows.map BucketRow.size).sum ≤ workSum es

theorem StandFor.append {rows rows' : List BucketRow} {es es' : List WinEntry}
    (h : StandFor rows es) (h' : StandFor rows' es') : StandFor (rows ++ rows') (es ++ es') where
  sums g hg := by rw [map_append, map_append, sum_append, sum_append, h.sums g hg, h'.sums g hg]
  size_le := by
    rw [map_append, sum_append, workSum_append]
    exact add_le_add h.size_le h'.size_le

theorem standFor_rowOf {es : List WinEntry} (hvalid : ∀ e ∈ es, e.Valid) :
    StandFor (es.map rowOf) es := by
  have hopen : Backed { bin := 0, entries := es } es := Or.inl ⟨rfl, rfl⟩
  exact ⟨fun g hg => hopen.sum_sourceRows hg, hopen.size_sourceRows_le hvalid⟩

theorem Backed.standFor {b : WinBin} {es : List WinEntry} (h : Backed b es)
    (hvalid : ∀ e ∈ es, e.Valid) : StandFor b.sourceRows es :=
  ⟨fun _ hg => h.sum_sourceRows hg, h.size_sourceRows_le hvalid⟩

theorem standFor_sourceRows {bins : List WinBin} {lived : List (List WinEntry)}
    (h : List.Forall₂ Backed bins lived) (hvalid : ∀ es ∈ lived, ∀ e ∈ es, e.Valid) :
    StandFor (bins.flatMap WinBin.sourceRows) lived.flatten := by
  induction h with
  | nil => exact ⟨fun _ _ => rfl, le_refl _⟩
  | cons hb _ ih =>
    rw [flatMap_cons, flatten_cons]
    exact (hb.standFor (hvalid _ mem_cons_self)).append
      (ih fun es hes => hvalid es (mem_cons_of_mem _ hes))

theorem standFor_rowsOfBins {bins : List WinBin} {lived : List (List WinEntry)}
    (h : List.Forall₂ Backed bins lived) (hvalid : ∀ es ∈ lived, ∀ e ∈ es, e.Valid) :
    StandFor (rowsOfBins bins) lived.flatten :=
  ⟨fun _ hg => hg.rowsOfBins h, size_rowsOfBins_le h hvalid⟩

theorem exists_ne_zero_of_sum {α : Type} {l : List α} {f : α → Work} (h : (l.map f).sum ≠ 0) :
    ∃ a ∈ l, f a ≠ 0 := by
  by_contra hnone
  apply h
  apply sum_eq_zero
  intro v hv
  obtain ⟨a, ha, rfl⟩ := mem_map.mp hv
  by_contra hne
  exact hnone ⟨a, ha, hne⟩

/-- A sum that does not wrap is zero only where every term is. -/
theorem sum_ne_zero_iff {α : Type} {l : List α} {f : α → Work}
    (h : (l.map fun a => (f a).toNat).sum < 2 ^ 256) : (l.map f).sum ≠ 0 ↔ ∃ a ∈ l, f a ≠ 0 := by
  refine ⟨exists_ne_zero_of_sum, ?_⟩
  rintro ⟨a, ha, hne⟩ hzero
  apply hne
  apply eq_zero_of_toNat
  have hmap : ((l.map f).map BitVec.toNat) = l.map fun a => (f a).toNat := map_map
  have hle : (f a).toNat ≤ (l.map fun a => (f a).toNat).sum :=
    single_le_sum (fun _ _ => Nat.zero_le _) _ (mem_map.mpr ⟨a, ha, rfl⟩)
  rw [← hmap, ← toNat_sum (hmap ▸ h), hzero] at hle
  exact Nat.le_zero.mp hle

/-- One of the three weights of a row. -/
def IsPart (f : BucketRow → Work) : Prop :=
  f = BucketRow.wMiner ∨ f = BucketRow.wOwner ∨ f = BucketRow.wAuthor

theorem IsPart.le_size {f : BucketRow → Work} (hf : IsPart f) (r : BucketRow) :
    (f r).toNat ≤ r.size := by
  unfold BucketRow.size
  rcases hf with rfl | rfl | rfl
  · omega
  · omega
  · omega

theorem IsPart.measure {f : BucketRow → Work} (hf : IsPart f) (p : Hash → Hash → Prop)
    [DecidableRel p] : Measure Work fun r => if p r.miner r.owner then f r else 0 := by
  rcases hf with rfl | rfl | rfl <;>
    exact ⟨fun _ _ => ite_self _, fun miner owner a b c a' b' c' => by
      by_cases hp : p miner owner <;> simp [hp]⟩

theorem IsPart.sum_ne_zero_iff {f : BucketRow → Work} (hf : IsPart f) {rows : List BucketRow}
    (hrows : (rows.map BucketRow.size).sum < 2 ^ 256) (p : Hash → Hash → Prop) [DecidableRel p] :
    (rows.map fun r => if p r.miner r.owner then f r else 0).sum ≠ 0 ↔
      ∃ r ∈ rows, p r.miner r.owner ∧ f r ≠ 0 := by
  rw [PathB.sum_ne_zero_iff]
  · apply exists_congr
    intro r
    by_cases hp : p r.miner r.owner
    · simp [hp]
    · simp [hp]
  refine lt_of_le_of_lt (sum_le_sum fun r _ => ?_) hrows
  by_cases hp : p r.miner r.owner
  · simpa [hp] using hf.le_size r
  · simp [hp]

/-- A weight reaches a row of some kind if and only if a receipt of that kind has it. -/
theorem StandFor.exists_iff {rows : List BucketRow} {es : List WinEntry} (h : StandFor rows es)
    (hvalid : ∀ e ∈ es, e.Valid) (hsum : workSum es < 2 ^ 256) {f : BucketRow → Work}
    (hf : IsPart f) (p : Hash → Hash → Prop) [DecidableRel p] :
    (∃ r ∈ rows, p r.miner r.owner ∧ f r ≠ 0) ↔
      ∃ r ∈ es.map rowOf, p r.miner r.owner ∧ f r ≠ 0 := by
  rw [← hf.sum_ne_zero_iff (lt_of_le_of_lt h.size_le hsum),
    ← hf.sum_ne_zero_iff (lt_of_le_of_lt (standFor_rowOf hvalid).size_le hsum),
    h.sums _ (hf.measure p), (standFor_rowOf hvalid).sums _ (hf.measure p)]

theorem StandFor.counts_iff {rows : List BucketRow} {es : List WinEntry} (h : StandFor rows es)
    (hvalid : ∀ e ∈ es, e.Valid) (hsum : workSum es < 2 ^ 256) (author x : Hash) :
    (∃ r ∈ rows, Counts author r x) ↔ ∃ r ∈ es.map rowOf, Counts author r x := by
  have hsplit : ∀ l : List BucketRow, (∃ r ∈ l, Counts author r x) ↔
      (∃ r ∈ l, x = r.miner ∧ r.wMiner ≠ 0) ∨ (∃ r ∈ l, (r.owner ≠ 0 ∧ x = r.owner) ∧
        r.wOwner ≠ 0) ∨ ∃ r ∈ l, (author ≠ 0 ∧ x = author) ∧ r.wAuthor ≠ 0 := by
    intro l
    rw [← exists_or, ← exists_or]
    apply exists_congr
    intro r
    unfold Counts
    tauto
  rw [hsplit, hsplit, h.exists_iff hvalid hsum (Or.inl rfl) fun m _ => x = m,
    h.exists_iff hvalid hsum (Or.inr (Or.inl rfl)) fun _ o => o ≠ 0 ∧ x = o,
    h.exists_iff hvalid hsum (Or.inr (Or.inr rfl)) fun _ _ => author ≠ 0 ∧ x = author]

/-- The identities that the N rule counts in the receipts. -/
def countedPayees (author : Hash) (es : List WinEntry) : Finset Hash :=
  es.foldl (addEntry author) ∅

theorem mem_countedPayees {author x : Hash} {es : List WinEntry} :
    x ∈ countedPayees author es ↔ ∃ r ∈ es.map rowOf, Counts author r x := by
  have hrows : countedPayees author es = (es.map rowOf).foldl (addRow author) ∅ := by
    unfold countedPayees
    rw [foldl_map]
    congr 1
    funext ids e
    exact addEntry_eq author ids e
  rw [hrows, mem_foldl_addRow]
  exact or_iff_left (Finset.notMem_empty x)

theorem foldl_addBin_eq {bins : List WinBin} {lived : List (List WinEntry)}
    (h : List.Forall₂ Backed bins lived) (hvalid : ∀ es ∈ lived, ∀ e ∈ es, e.Valid)
    (hsum : workSum lived.flatten < 2 ^ 256) (author : Hash) :
    bins.foldl (addBin author) ∅ = countedPayees author lived.flatten := by
  have hall : ∀ e ∈ lived.flatten, e.Valid := by
    intro e he
    obtain ⟨es, hes, he'⟩ := mem_flatten.mp he
    exact hvalid es hes e he'
  ext x
  rw [foldl_addBin, mem_foldl_addRow, mem_countedPayees,
    (standFor_sourceRows h hvalid).counts_iff hall hsum]
  exact or_iff_left (Finset.notMem_empty x)

/-! ## Who is paid -/

/-- What the miners hold after merge-back. -/
def minersAfter (rows : List BucketRow) (W : Work) (B fSpend : U64) (author : Hash) :
    SortedMap Hash Work :=
  let miners := (minerWeights rows).accrueAll
    ((ownersMerging rows W B fSpend author).flatMap fun o =>
      (rows.filter fun r => r.owner = o).map fun r => (r.miner, r.wOwner))
  if authorMerges rows W B fSpend author then
    miners.accrueAll (rows.map fun r => (r.miner, r.wAuthor))
  else miners

/-- What the owners hold after merge-back. -/
def ownersAfter (rows : List BucketRow) (W : Work) (B fSpend : U64) (author : Hash) :
    SortedMap Hash Work :=
  (ownersMerging rows W B fSpend author).foldl (fun m o => m.insert o 0) (ownerWeights rows)

/-- The row pays `x` once it is settled who merges back. -/
def Pays (merging : List Hash) (authorBack : Bool) (author : Hash) (r : BucketRow) (x : Hash) :
    Prop :=
  ∃ c ∈ credits merging authorBack author r, c.1 = x ∧ c.2 ≠ 0

theorem pays_iff {merging : List Hash} {authorBack : Bool} {author x : Hash} {r : BucketRow} :
    Pays merging authorBack author r x ↔ (r.miner = x ∧ r.wMiner ≠ 0) ∨
      ((if r.owner ∈ merging then r.miner else r.owner) = x ∧ r.wOwner ≠ 0) ∨
      ((if authorBack then r.miner else author) = x ∧ r.wAuthor ≠ 0) := by
  unfold Pays credits
  simp only [exists_mem_cons_iff, not_mem_nil, false_and, exists_false, or_false]

section Payees

variable {rows : List BucketRow} {W : Work} {B fSpend : U64} {author x : Hash}

theorem weight_eq :
    (resolveRows rows W B fSpend author).weight =
      if !authorMerges rows W B fSpend author && authorWeight rows ≠ 0 then
        ((SortedMap.accrueAll ∅ (nonZero (minersAfter rows W B fSpend author))).accrueAll
          (nonZero (ownersAfter rows W B fSpend author))).accrue author (authorWeight rows)
      else (SortedMap.accrueAll ∅ (nonZero (minersAfter rows W B fSpend author))).accrueAll
        (nonZero (ownersAfter rows W B fSpend author)) := rfl

theorem pays_of_minersAfter (h : (minersAfter rows W B fSpend author).amountAt x ≠ 0) :
    ∃ r ∈ rows, Pays (ownersMerging rows W B fSpend author)
      (authorMerges rows W B fSpend author) author r x := by
  have hterm : ∀ f : BucketRow → Work, (rows.map fun r => if r.miner = x then f r else 0).sum ≠ 0 →
      ∃ r ∈ rows, r.miner = x ∧ f r ≠ 0 := by
    intro f hsum
    obtain ⟨r, hr, hne⟩ := exists_ne_zero_of_sum hsum
    by_cases hrx : r.miner = x
    · rw [if_pos hrx] at hne
      exact ⟨r, hr, hrx, hne⟩
    · rw [if_neg hrx] at hne
      exact absurd rfl hne
  have hreturned := amount_returned rows (ownersMerging_nodup rows W B fSpend author) x
  have hfirst : ∀ {m : SortedMap Hash Work} {es : List (Hash × Work)},
      (m.accrueAll es).amountAt x ≠ 0 → m.amountAt x ≠ 0 ∨ Tally.amount es x ≠ 0 := by
    intro m es hne
    rw [amountAt_accrueAll] at hne
    by_cases hm : m.amountAt x = 0
    · rw [hm, zero_add] at hne
      exact Or.inr hne
    · exact Or.inl hm
  have howners : ((minerWeights rows).accrueAll
      ((ownersMerging rows W B fSpend author).flatMap fun o =>
        (rows.filter fun r => r.owner = o).map fun r => (r.miner, r.wOwner))).amountAt x ≠ 0 →
      ∃ r ∈ rows, Pays (ownersMerging rows W B fSpend author)
        (authorMerges rows W B fSpend author) author r x := by
    intro hne
    rcases hfirst hne with hne | hne
    · rw [amountAt_minerWeights] at hne
      obtain ⟨r, hr, hrx, hw⟩ := hterm _ hne
      exact ⟨r, hr, pays_iff.mpr (Or.inl ⟨hrx, hw⟩)⟩
    rw [hreturned] at hne
    obtain ⟨r, hr, hw⟩ := exists_ne_zero_of_sum hne
    by_cases hmem : r.owner ∈ ownersMerging rows W B fSpend author
    · by_cases hrx : r.miner = x
      · rw [if_pos hmem, if_pos hrx] at hw
        exact ⟨r, hr, pays_iff.mpr (Or.inr (Or.inl ⟨by rw [if_pos hmem, hrx], hw⟩))⟩
      · simp [hrx] at hw
    · simp [hmem] at hw
  unfold minersAfter at h
  by_cases hback : authorMerges rows W B fSpend author = true
  · rw [if_pos hback] at h
    rcases hfirst h with h | h
    · exact howners h
    rw [Tally.amount, map_map] at h
    obtain ⟨r, hr, hrx, hw⟩ := hterm BucketRow.wAuthor h
    exact ⟨r, hr, pays_iff.mpr (Or.inr (Or.inr ⟨by rw [if_pos hback, hrx], hw⟩))⟩
  · rw [if_neg hback] at h
    exact howners h

theorem mem_nonZero {m : SortedMap Hash Work} (h : x ∈ (nonZero m).map Prod.fst) :
    m.amountAt x ≠ 0 := by
  obtain ⟨e, he, rfl⟩ := mem_map.mp h
  rw [amountAt_of_mem (mem_of_mem_filter he)]
  simpa using of_mem_filter he

theorem pays_of_ownersAfter (h : (ownersAfter rows W B fSpend author).amountAt x ≠ 0) :
    ∃ r ∈ rows, Pays (ownersMerging rows W B fSpend author)
      (authorMerges rows W B fSpend author) author r x := by
  unfold ownersAfter at h
  rw [amountAt_foldl_insert_zero, amountAt_ownerWeights] at h
  by_cases hmem : x ∈ ownersMerging rows W B fSpend author
  · rw [if_pos hmem] at h
    exact absurd rfl h
  rw [if_neg hmem] at h
  obtain ⟨r, hr, hterm⟩ := exists_ne_zero_of_sum h
  by_cases hr0 : r.owner = 0
  · simp [hr0] at hterm
  by_cases hrx : r.owner = x
  · rw [if_pos hr0, if_pos hrx] at hterm
    rw [← hrx] at hmem
    exact ⟨r, hr, pays_iff.mpr (Or.inr (Or.inl ⟨by rw [if_neg hmem, hrx], hterm⟩))⟩
  · simp [hrx] at hterm

theorem pays_of_mem_keys (h : x ∈ (resolveRows rows W B fSpend author).weight.keys) :
    ∃ r ∈ rows, Pays (ownersMerging rows W B fSpend author)
      (authorMerges rows W B fSpend author) author r x := by
  have hrest : x ∈ ((SortedMap.accrueAll ∅ (nonZero (minersAfter rows W B fSpend
      author))).accrueAll (nonZero (ownersAfter rows W B fSpend author))).keys →
      ∃ r ∈ rows, Pays (ownersMerging rows W B fSpend author)
        (authorMerges rows W B fSpend author) author r x := by
    intro hx
    rcases mem_keys_accrueAll.mp hx with hx | hx
    · rcases mem_keys_accrueAll.mp hx with hx | hx
      · cases hx
      · exact pays_of_minersAfter (mem_nonZero hx)
    · exact pays_of_ownersAfter (mem_nonZero hx)
  rw [weight_eq] at h
  by_cases hauthor : (!authorMerges rows W B fSpend author && authorWeight rows ≠ 0) = true
  · rw [if_pos hauthor] at h
    simp only [Bool.and_eq_true, Bool.not_eq_true', decide_eq_true_eq] at hauthor
    obtain ⟨hstays, hweight⟩ := hauthor
    rcases mem_keys_accrue.mp h with hx | hx
    · rw [authorWeight_eq] at hweight
      obtain ⟨r, hr, hw⟩ := exists_ne_zero_of_sum hweight
      exact ⟨r, hr, pays_iff.mpr (Or.inr (Or.inr ⟨by simp [hstays, hx], hw⟩))⟩
    · exact hrest hx
  · rw [if_neg hauthor] at h
    exact hrest h

theorem mem_keys_weight (hunowned : ∀ r ∈ rows, r.owner = 0 → r.wOwner = 0)
    (hsize : (rows.map BucketRow.size).sum < 2 ^ 256) :
    x ∈ (resolveRows rows W B fSpend author).weight.keys ↔
      ∃ r ∈ rows, Pays (ownersMerging rows W B fSpend author)
        (authorMerges rows W B fSpend author) author r x := by
  refine ⟨pays_of_mem_keys, ?_⟩
  rintro ⟨r, hr, c, hc, hx, hw⟩
  by_contra hnot
  have hnone : (resolveRows rows W B fSpend author).weight.amountAt x = 0 := by
    unfold amountAt
    cases hlookup : (resolveRows rows W B fSpend author).weight.lookup x with
    | none => rfl
    | some v => exact absurd (mem_keys_iff.mpr ⟨v, hlookup⟩) hnot
  have hzero := amountAt_weight hunowned W B fSpend author x
  rw [hnone, Tally.amount, eq_comm] at hzero
  revert hzero
  change _ ≠ _
  rw [sum_ne_zero_iff]
  · refine ⟨c, mem_flatMap.mpr ⟨r, hr, hc⟩, ?_⟩
    rwa [if_pos hx]
  refine lt_of_le_of_lt ?_ hsize
  rw [show (rows.map BucketRow.size).sum = _ from
    (sum_flatMap_credits BitVec.toNat rows W B fSpend author).symm]
  refine sum_le_sum fun c _ => ?_
  by_cases hcx : c.1 = x
  · simp [hcx]
  · simp [hcx]

end Payees

/-! ## Whom the floor spares -/

/-- The weight that the receipt has for `x`. -/
def WinEntry.weightFor (author x : Hash) (e : WinEntry) : Nat :=
  let s := sharesOf e.work e.p e.giveAuthorBp
  (if e.miner = x then s.wMiner.val else 0) +
    ((if e.owner = x then s.wOwner.val else 0) + (if author = x then s.wAuthor.val else 0))

/-- `below_floor` of the weight that the receipts have for `x`. -/
def UnderFloor (B fSpend : U64) (author : Hash) (es : List WinEntry) (x : Hash) : Prop :=
  (es.map (WinEntry.weightFor author x)).sum * B.val < workSum es * fSpend.val

instance (B fSpend : U64) (author : Hash) (es : List WinEntry) (x : Hash) :
    Decidable (UnderFloor B fSpend author es x) := inferInstanceAs (Decidable (_ < _))

/-- The owner's or the author's share of the receipt goes back to its miner. -/
def WinEntry.Returns (B fSpend : U64) (author : Hash) (es : List WinEntry) (e : WinEntry) : Prop :=
  let s := sharesOf e.work e.p e.giveAuthorBp
  0 < s.wOwner ∧ UnderFloor B fSpend author es e.owner ∨
    0 < s.wAuthor ∧ (author = 0 ∨ UnderFloor B fSpend author es author)

instance (B fSpend : U64) (author : Hash) (es : List WinEntry) :
    DecidablePred (WinEntry.Returns B fSpend author es) := fun _ => by
  unfold WinEntry.Returns
  infer_instance

/-- The miners that hold nothing of their own, as miner, owner or author, and get a share back. -/
def newcomers (B fSpend : U64) (author : Hash) (es : List WinEntry) : Finset Hash :=
  (es.map WinEntry.miner).toFinset.filter fun x =>
    x ∉ countedPayees author es ∧ ∃ e ∈ es, e.miner = x ∧ e.Returns B fSpend author es

/-- The identities under the floor that are no miner with a share of its own or one back. -/
def leavers (B fSpend : U64) (author : Hash) (es : List WinEntry) : Finset Hash :=
  (countedPayees author es).filter fun x => UnderFloor B fSpend author es x ∧
    ∀ e ∈ es, e.miner = x →
      (sharesOf e.work e.p e.giveAuthorBp).wMiner = 0 ∧ ¬ e.Returns B fSpend author es

def partOf (author x : Hash) (r : BucketRow) : Work :=
  (if r.miner = x then r.wMiner else 0) +
    ((if r.owner = x then r.wOwner else 0) + (if author = x then r.wAuthor else 0))

theorem measure_partOf (author x : Hash) : Measure Work (partOf author x) where
  zero _ _ := by simp [partOf]
  add miner owner a b c a' b' c' := by
    have hpart : ∀ (p : Prop) [Decidable p] (u v : Work), (if p then u + v else 0) =
        (if p then u else 0) + (if p then v else 0) := by
      intro p _ u v
      by_cases hp : p
      · simp [hp]
      · simp [hp]
    simp only [partOf, hpart]
    ac_rfl

theorem totalOf_eq (rows : List BucketRow) {author x : Hash} (hx : x ≠ 0) :
    totalOf rows author x = (rows.map (partOf author x)).sum := by
  have hauthor : (if author ≠ 0 ∧ x = author then authorWeight rows else 0) =
      (rows.map fun r => if author = x then r.wAuthor else 0).sum := by
    by_cases hsame : author = x
    · rw [if_pos ⟨hsame ▸ hx, hsame.symm⟩, authorWeight_eq]
      simp [hsame]
    · rw [if_neg fun h => hsame h.2.symm]
      simp [hsame]
  have howner : (rows.map fun r => if r.owner ≠ 0 then (if r.owner = x then r.wOwner else 0)
      else 0) = rows.map fun r => if r.owner = x then r.wOwner else 0 := by
    apply map_congr_left
    intro r _
    by_cases hr : r.owner = x
    · simp [hr, hx]
    · simp [hr]
  unfold totalOf
  rw [amountAt_minerWeights, amountAt_ownerWeights, howner, hauthor, ← sum_map_add, ← sum_map_add]
  congr 1
  apply map_congr_left
  intro r _
  exact add_assoc _ _ _

theorem WinEntry.weightFor_le {e : WinEntry} (h : e.Valid) (author x : Hash) :
    e.weightFor author x ≤ e.work.val := by
  have hshares := h.shares
  unfold WinEntry.weightFor
  dsimp only
  split_ifs <;> omega

theorem WinEntry.toNat_partOf {e : WinEntry} (h : e.Valid) (author x : Hash) :
    (partOf author x (rowOf e)).toNat = e.weightFor author x := by
  have hle := e.weightFor_le h author x
  have hwork := e.work.isLt
  have hif : ∀ (p : Prop) [Decidable p] (u : U64),
      (if p then ofU64 u else 0) = BitVec.ofNat 256 (if p then u.val else 0) := by
    intro p _ u
    by_cases hp : p
    · simp [hp, ofU64]
    · simp [hp]
  unfold WinEntry.weightFor at hle ⊢
  unfold partOf rowOf
  simp only [hif, ← BitVec.ofNat_add, BitVec.toNat_ofNat] at hle ⊢
  exact Nat.mod_eq_of_lt (by omega)

section Floor

variable {es : List WinEntry} {B fSpend : U64} {author x : Hash}

theorem toNat_totalOf {rows : List BucketRow} (h : StandFor rows es)
    (hvalid : ∀ e ∈ es, e.Valid) (hsum : workSum es < 2 ^ 256) (hx : x ≠ 0) :
    (totalOf rows author x).toNat = (es.map (WinEntry.weightFor author x)).sum := by
  have hnat : ((es.map fun e => partOf author x (rowOf e)).map BitVec.toNat) =
      es.map (WinEntry.weightFor author x) := by
    rw [map_map]
    apply map_congr_left
    intro e he
    exact e.toNat_partOf (hvalid e he) author x
  have hle : (es.map (WinEntry.weightFor author x)).sum ≤ workSum es :=
    sum_le_sum fun e he => e.weightFor_le (hvalid e he) author x
  rw [totalOf_eq rows hx, h.sums _ (measure_partOf author x), toNat_sum, hnat]
  rw [hnat]
  exact lt_of_le_of_lt hle hsum

theorem belowFloor_iff {rows : List BucketRow} (h : StandFor rows es)
    (hvalid : ∀ e ∈ es, e.Valid) (hsum : workSum es < 2 ^ 256) (hx : x ≠ 0) :
    belowFloor (totalOf rows author x) B (rawSum es) fSpend = true ↔
      UnderFloor B fSpend author es x := by
  unfold belowFloor UnderFloor
  rw [less_mul (bounded_mulU256U64 _ _) (bounded_mulU256U64 _ _) (by simp), value_mulU256U64,
    value_mulU256U64, decide_eq_true_eq, toNat_totalOf h hvalid hsum hx, toNat_rawSum hsum]

theorem mem_ownersMerging_iff {rows : List BucketRow} (h : StandFor rows es)
    (hvalid : ∀ e ∈ es, e.Valid) (hsum : workSum es < 2 ^ 256) {e : WinEntry} (he : e ∈ es)
    (hw : (rowOf e).wOwner ≠ 0) :
    e.owner ∈ ownersMerging rows (rawSum es) B fSpend author ↔
      UnderFloor B fSpend author es e.owner := by
  have hne : e.owner ≠ 0 := fun hzero => hw ((hvalid e he).unowned hzero)
  obtain ⟨r, hr, howner, -⟩ :=
    (h.exists_iff hvalid hsum (Or.inr (Or.inl rfl)) fun _ o => o = e.owner).mpr
      ⟨rowOf e, mem_map_of_mem he, rfl, hw⟩
  have hkey : e.owner ∈ (ownerWeights rows).keys := by
    unfold ownerWeights
    rw [mem_keys_accrueAll, map_map]
    exact Or.inr (mem_map.mpr ⟨r, mem_filter.mpr ⟨hr, by simp [howner, hne]⟩, howner⟩)
  rw [ownersMerging, mem_filter, belowFloor_iff h hvalid hsum hne]
  exact and_iff_right hkey

theorem authorMerges_iff {rows : List BucketRow} (h : StandFor rows es) (hvalid : ∀ e ∈ es, e.Valid)
    (hsum : workSum es < 2 ^ 256) {e : WinEntry} (he : e ∈ es) (hw : (rowOf e).wAuthor ≠ 0) :
    authorMerges rows (rawSum es) B fSpend author = true ↔
      author = 0 ∨ UnderFloor B fSpend author es author := by
  have hweight : authorWeight rows ≠ 0 := by
    have hsome := (IsPart.sum_ne_zero_iff (Or.inr (Or.inr rfl))
      (lt_of_le_of_lt h.size_le hsum) fun _ _ => True).mpr
        ((h.exists_iff hvalid hsum (Or.inr (Or.inr rfl)) fun _ _ => True).mpr
          ⟨rowOf e, mem_map_of_mem he, trivial, hw⟩)
    rw [authorWeight_eq]
    simpa using hsome
  by_cases hzero : author = 0
  · simp [authorMerges, hzero]
  · rw [authorMerges, Bool.or_eq_true, Bool.or_eq_true, decide_eq_true_eq, decide_eq_true_eq,
      belowFloor_iff h hvalid hsum hzero, or_iff_left hweight]

/-- A share that goes back to the miner if its holder is low, and else stays. -/
theorem ite_paid_iff {miner holder : Hash} {back w : Prop} [Decidable back] {q : Hash → Prop}
    (h : w → (back ↔ q holder)) :
    ((if back then miner else holder) = x ∧ w) ↔
      (miner = x ∧ w ∧ q holder) ∨ (holder = x ∧ w ∧ ¬ q x) := by
  by_cases hback : back
  · rw [if_pos hback]
    constructor
    · exact fun hx => Or.inl ⟨hx.1, hx.2, (h hx.2).mp hback⟩
    · rintro (hx | ⟨rfl, hw, hstays⟩)
      · exact ⟨hx.1, hx.2.1⟩
      · exact absurd ((h hw).mp hback) hstays
  · rw [if_neg hback]
    constructor
    · rintro ⟨rfl, hw⟩
      exact Or.inr ⟨rfl, hw, fun hlow => hback ((h hw).mpr hlow)⟩
    · rintro (hx | hx)
      · exact absurd ((h hx.2.1).mpr hx.2.2) hback
      · exact ⟨hx.1, hx.2.1⟩

/-- The payees are the miners with a share of their own or one back, and the owners and the author
above the floor. -/
theorem mem_payees_iff {bins : List WinBin} {lived : List (List WinEntry)}
    (hbins : List.Forall₂ Backed bins lived) (hvalid : ∀ es ∈ lived, ∀ e ∈ es, e.Valid)
    (hsum : workSum lived.flatten < 2 ^ 256) :
    x ∈ (resolveBins bins B fSpend author).weight.keys ↔ ∃ e ∈ lived.flatten,
      (e.miner = x ∧ (0 < (sharesOf e.work e.p e.giveAuthorBp).wMiner ∨
        e.Returns B fSpend author lived.flatten)) ∨
      (e.owner = x ∧ 0 < (sharesOf e.work e.p e.giveAuthorBp).wOwner ∧
        ¬ UnderFloor B fSpend author lived.flatten x) ∨
      (author = x ∧ 0 < (sharesOf e.work e.p e.giveAuthorBp).wAuthor ∧
        ¬ (x = 0 ∨ UnderFloor B fSpend author lived.flatten x)) := by
  have hall : ∀ e ∈ lived.flatten, e.Valid := by
    intro e he
    obtain ⟨es, hes, he'⟩ := mem_flatten.mp he
    exact hvalid es hes e he'
  have hstand := standFor_rowsOfBins hbins hvalid
  unfold resolveBins
  rw [workOfBins_eq hbins, mem_keys_weight (rowsOfBins_unowned hbins hvalid)
    (lt_of_le_of_lt hstand.size_le hsum)]
  generalize hm : ownersMerging (rowsOfBins bins) (rawSum lived.flatten) B fSpend author = merging
  generalize hb : authorMerges (rowsOfBins bins) (rawSum lived.flatten) B fSpend author = back
  have hsplit : ∀ l : List BucketRow, (∃ r ∈ l, Pays merging back author r x) ↔
      (∃ r ∈ l, r.miner = x ∧ r.wMiner ≠ 0) ∨
      (∃ r ∈ l, (if r.owner ∈ merging then r.miner else r.owner) = x ∧ r.wOwner ≠ 0) ∨
      ∃ r ∈ l, (if back then r.miner else author) = x ∧ r.wAuthor ≠ 0 := by
    intro l
    rw [← exists_or, ← exists_or]
    apply exists_congr
    intro r
    rw [pays_iff]
    tauto
  rw [hsplit, hstand.exists_iff hall hsum (Or.inl rfl) fun m _ => m = x,
    hstand.exists_iff hall hsum (Or.inr (Or.inl rfl)) fun m o =>
      (if o ∈ merging then m else o) = x,
    hstand.exists_iff hall hsum (Or.inr (Or.inr rfl)) fun m _ => (if back then m else author) = x,
    ← hsplit]
  simp only [mem_map, exists_exists_and_eq_and]
  apply exists_congr
  intro e
  apply and_congr_right
  intro he
  rw [pays_iff]
  change (e.miner = x ∧ _) ∨ ((if e.owner ∈ merging then e.miner else e.owner) = x ∧ _) ∨
    ((if back then e.miner else author) = x ∧ _) ↔ _
  rw [ite_paid_iff fun hw => hm ▸ mem_ownersMerging_iff hstand hall hsum he hw,
    ite_paid_iff (q := fun y => y = 0 ∨ UnderFloor B fSpend author lived.flatten y)
      fun hw => hb ▸ authorMerges_iff hstand hall hsum he hw, or_or_or_comm, ← or_assoc,
    ← and_or_left, ← and_or_left]
  unfold rowOf WinEntry.Returns
  simp only [ofU64_ne_zero]

end Floor

/-! ## The bound -/

section Bound

variable {bins : List WinBin} {lived : List (List WinEntry)}

theorem payees_eq (hbins : List.Forall₂ Backed bins lived)
    (hvalid : ∀ es ∈ lived, ∀ e ∈ es, e.Valid) (hsum : workSum lived.flatten < 2 ^ 256)
    (B fSpend : U64) (author : Hash) :
    (resolveBins bins B fSpend author).weight.keys.toFinset =
      (countedPayees author lived.flatten \ leavers B fSpend author lived.flatten) ∪
        newcomers B fSpend author lived.flatten := by
  have hcounts : ∀ e ∈ lived.flatten, ∀ x, Counts author (rowOf e) x →
      x ∈ countedPayees author lived.flatten := fun e he x h =>
    mem_countedPayees.mpr ⟨rowOf e, mem_map_of_mem he, h⟩
  ext x
  rw [mem_toFinset, mem_payees_iff hbins hvalid hsum, Finset.mem_union, Finset.mem_sdiff]
  constructor
  · rintro ⟨e, he, ⟨rfl, hpays⟩ | ⟨rfl, hw, hstays⟩ | ⟨rfl, hw, hstays⟩⟩
    · have hleaves : e.miner ∉ leavers B fSpend author lived.flatten := by
        intro hmem
        obtain ⟨hnone, hkeeps⟩ := (Finset.mem_filter.mp hmem).2.2 e he rfl
        rcases hpays with hown | hback
        · rw [hnone] at hown
          exact absurd hown (lt_irrefl 0)
        · exact hkeeps hback
      by_cases hcounted : e.miner ∈ countedPayees author lived.flatten
      · exact Or.inl ⟨hcounted, hleaves⟩
      rcases hpays with hown | hback
      · exact absurd (hcounts e he _ (Or.inl ⟨(ofU64_ne_zero _).mpr hown, rfl⟩)) hcounted
      · refine Or.inr (Finset.mem_filter.mpr ⟨?_, hcounted, e, he, rfl, hback⟩)
        exact mem_toFinset.mpr (mem_map_of_mem he)
    · obtain ⟨es, hes, he'⟩ := mem_flatten.mp he
      have hpart := (ofU64_ne_zero _).mpr hw
      have hne : e.owner ≠ 0 := fun hzero => hpart ((hvalid es hes e he').unowned hzero)
      exact Or.inl ⟨hcounts e he _ (Or.inr (Or.inl ⟨⟨hne, hpart⟩, rfl⟩)),
        fun hmem => hstays (Finset.mem_filter.mp hmem).2.1⟩
    · push Not at hstays
      exact Or.inl ⟨hcounts e he _ (Or.inr (Or.inr ⟨⟨hstays.1, (ofU64_ne_zero _).mpr hw⟩, rfl⟩)),
        fun hmem => hstays.2 (Finset.mem_filter.mp hmem).2.1⟩
  rintro (⟨hcounted, hleaves⟩ | hnew)
  · by_cases hlow : UnderFloor B fSpend author lived.flatten x
    · by_contra hnone
      push Not at hnone
      refine hleaves (Finset.mem_filter.mpr ⟨hcounted, hlow, fun e he hx => ?_⟩)
      have hpays := (hnone e he).1 hx
      exact ⟨le_antisymm hpays.1 (Fin.zero_le _), hpays.2⟩
    obtain ⟨r, hr, hcount⟩ := mem_countedPayees.mp hcounted
    obtain ⟨e, he, rfl⟩ := mem_map.mp hr
    refine ⟨e, he, ?_⟩
    rcases hcount with ⟨hw, hx⟩ | ⟨⟨-, hw⟩, hx⟩ | ⟨⟨hne, hw⟩, hx⟩
    · exact Or.inl ⟨hx.symm, Or.inl ((ofU64_ne_zero _).mp hw)⟩
    · exact Or.inr (Or.inl ⟨hx.symm, (ofU64_ne_zero _).mp hw, hlow⟩)
    · refine Or.inr (Or.inr ⟨hx.symm, (ofU64_ne_zero _).mp hw, ?_⟩)
      rintro (hzero | h)
      · exact hne (hx ▸ hzero)
      · exact hlow h
  · obtain ⟨-, -, e, he, hx, hback⟩ := Finset.mem_filter.mp hnew
    exact ⟨e, he, Or.inl ⟨hx, Or.inr hback⟩⟩

/-- Merge-back takes the leavers away and brings the newcomers in. -/
theorem payees_card (hbins : List.Forall₂ Backed bins lived)
    (hvalid : ∀ es ∈ lived, ∀ e ∈ es, e.Valid) (hsum : workSum lived.flatten < 2 ^ 256)
    (B fSpend : U64) (author : Hash) :
    (resolveBins bins B fSpend author).weight.entries.length +
        (leavers B fSpend author lived.flatten).card =
      (countedPayees author lived.flatten).card +
        (newcomers B fSpend author lived.flatten).card := by
  have hlength : (resolveBins bins B fSpend author).weight.entries.length =
      (resolveBins bins B fSpend author).weight.keys.toFinset.card := by
    rw [toFinset_card_of_nodup (keys_nodup _), SortedMap.keys, length_map]
  have hdisjoint : Disjoint
      (countedPayees author lived.flatten \ leavers B fSpend author lived.flatten)
      (newcomers B fSpend author lived.flatten) := by
    rw [Finset.disjoint_left]
    intro x hx hnew
    exact (Finset.mem_filter.mp hnew).2.1 (Finset.mem_sdiff.mp hx).1
  have hsub : leavers B fSpend author lived.flatten ⊆ countedPayees author lived.flatten :=
    Finset.filter_subset _ _
  have hcard := Finset.card_sdiff_add_card_eq_card hsub
  rw [hlength, payees_eq hbins hvalid hsum B fSpend author, Finset.card_union_of_disjoint hdisjoint]
  omega

end Bound

/-- The N rule leaves at most `N` identities in the kept receipts, and the window that is resolved
from them has at most `N` payees if and only if the newcomers are no more than the free places and
the leavers together. -/
theorem window_payees_le_iff {sort : List WinEntry → List WinEntry} (hsort : Sorts sort)
    {bins : List WinBin} {lived : List (List WinEntry)} (hbins : List.Forall₂ Backed bins lived)
    (hvalid : ∀ es ∈ lived, ∀ e ∈ es, e.Valid) (hsum : workSum lived.flatten < 2 ^ 256)
    (dNet : BitVec 128) (B fSpend N : U64) (hN : 1 ≤ N) (author : Hash)
    (hok : (windowFrom sort (bins.map .bin) dNet B fSpend N author).status = .ok) :
    ∃ kept, List.Forall₂ Backed (keptBins sort (bins.map .bin) dNet B fSpend N author) kept ∧
      NewestPrefix lived kept.flatten ∧ (countedPayees author kept.flatten).card ≤ N.val ∧
      ((windowFrom sort (bins.map .bin) dNet B fSpend N author).window.weight.entries.length ≤
          N.val ↔
        (newcomers B fSpend author kept.flatten).card ≤
          (N.val - (countedPayees author kept.flatten).card) +
            (leavers B fSpend author kept.flatten).card) := by
  obtain ⟨kept, hwindow, hrule, hkept, hfront, -⟩ := windowFrom_kept hsort hbins hsum hok
  have hsub := hfront.subperm
  have hkeptValid : ∀ es ∈ kept, ∀ e ∈ es, e.Valid := by
    intro es hes e he
    obtain ⟨es', hes', he'⟩ := mem_flatten.mp (hsub.subset (mem_flatten.mpr ⟨es, hes, he⟩))
    exact hvalid es' hes' e he'
  have hkeptSum : workSum kept.flatten < 2 ^ 256 := lt_of_le_of_lt (workSum_le_of_subperm hsub) hsum
  have hcounted : (countedPayees author kept.flatten).card ≤ N.val := by
    rw [← foldl_addBin_eq hkept hkeptValid hkeptSum author]
    refine nRule_card ?_ hrule
    rintro rfl
    exact absurd hN (by decide)
  have hcard := payees_card hkept hkeptValid hkeptSum B fSpend author
  refine ⟨kept, hkept, hfront, hcounted, ?_⟩
  rw [hwindow]
  change (resolveBins _ B fSpend author).weight.entries.length ≤ _ ↔ _
  have hleavers : (leavers B fSpend author kept.flatten).card ≤
      (countedPayees author kept.flatten).card := Finset.card_filter_le _ _
  omega

/-- A receipt of 20,000 with one tenth for the owner and the rest for the author. -/
def tithed (miner id : Hash) : WinEntry :=
  { miner := miner, owner := 7, work := 20000, p := 1000, giveAuthorBp := 9000, id := id }

theorem tithed_valid (miner id : Hash) : (tithed miner id).Valid :=
  ⟨(by decide : (0 : U64) < 20000), (by decide : (1000 : U16).val + (9000 : U16).val ≤ 10000),
    iff_of_false (by decide +kernel : (7 : Hash) ≠ 0) (by decide : (1000 : U16) ≠ 0)⟩

/-- With three places the owner, who leaves, makes room for the second of the two miners. -/
theorem window_payees_le_iff_tithed :
    (windowFrom sortNewestFirst [.bin { bin := 5, entries := [tithed 1 11, tithed 2 12] }]
      1000000 600000 300000 3 9).window.weight.entries.length ≤ 3 := by
  have hbacked : List.Forall₂ Backed [{ bin := 5, entries := [tithed 1 11, tithed 2 12] }]
      [[tithed 1 11, tithed 2 12]] :=
    List.Forall₂.cons (Or.inl ⟨rfl, rfl⟩) List.Forall₂.nil
  have hall : ∀ es ∈ [[tithed 1 11, tithed 2 12]], ∀ e ∈ es, e.Valid := by
    simp [tithed_valid]
  obtain ⟨kept, hkept, -, -, hiff⟩ := window_payees_le_iff sorts_sortNewestFirst hbacked hall
    (by decide +kernel) 1000000 600000 300000 3 (by decide) 9 (by decide +kernel)
  have hbins : keptBins sortNewestFirst
      [.bin { bin := 5, entries := [tithed 1 11, tithed 2 12] }] 1000000 600000 300000 3 9 =
      [{ bin := 5, entries := [tithed 1 11, tithed 2 12] }] := by
    decide +kernel
  rw [List.map_singleton, hbins] at hkept
  obtain ⟨es, hes, rfl⟩ : ∃ es, es = [tithed 1 11, tithed 2 12] ∧ kept = [es] := by
    cases hkept with
    | cons hb hrest =>
      cases hrest with
      | nil =>
        rcases hb with ⟨-, hentries⟩ | ⟨⟨bin, hsealed⟩, -⟩
        · exact ⟨_, hentries.symm, rfl⟩
        · cases hsealed
  subst hes
  exact hiff.mpr (by decide +kernel)

/-- Two miners that keep nothing of their receipts are not counted, but the owner's
share comes back to both: three payees where two were counted and allowed. -/
theorem merge_back_exceeds_N :
    (tithed 1 11).Valid ∧ (tithed 2 12).Valid ∧
      (windowFrom sortNewestFirst [.bin { bin := 5, entries := [tithed 1 11, tithed 2 12] }]
        1000000 600000 300000 2 9).status = .ok ∧
      (windowFrom sortNewestFirst [.bin { bin := 5, entries := [tithed 1 11, tithed 2 12] }]
        1000000 600000 300000 2 9).window.weight.entries = [(1, 2000), (2, 2000), (9, 36000)] ∧
      (2 : U64).val < (windowFrom sortNewestFirst
        [.bin { bin := 5, entries := [tithed 1 11, tithed 2 12] }]
        1000000 600000 300000 2 9).window.weight.entries.length := by
  refine ⟨⟨by decide +kernel, by decide +kernel, by decide +kernel⟩,
    ⟨by decide +kernel, by decide +kernel, by decide +kernel⟩, by decide +kernel, ?_, ?_⟩
  · decide +kernel
  · decide +kernel

end C2Pool.Xmr.PathB
