import C2Pool.Xmr.WindowBuckets

/-! # Sealed and open bins give one window

A sealed bin shows the rows of its entries in place of the entries. Grouping the rows once more
gives the rows that the entries give, so that the selection, the N rule and the merge-back do not
see which bins are sealed. Only a cut inside a bin asks for its entries.
-/

namespace C2Pool.Xmr.PathB

open Wide SortedMap List
open C2Pool.V37 (Byte Bytes32)

def WinBin.seal (b : WinBin) : WinBin :=
  { bin := b.bin, bucket := some (sealFromEntries b.bin b.entries) }

def shown (b : WinBin × Bool) : WinBin := if b.2 then b.1.seal else b.1

@[simp] theorem bin_shown (b : WinBin × Bool) : (shown b).bin = b.1.bin := by
  unfold shown WinBin.seal
  split
  · rfl
  · rfl

variable {b : WinBin × Bool}

theorem backed_open (h : b.1.bucket = none) : Backed b.1 b.1.entries :=
  Or.inl ⟨h, rfl⟩

theorem backed_shown (h : b.1.bucket = none) : Backed (shown b) b.1.entries := by
  unfold shown
  by_cases hmark : b.2 = true
  · rw [if_pos hmark]
    exact Or.inr ⟨⟨b.1.bin, rfl⟩, rfl⟩
  · rw [if_neg hmark]
    exact backed_open h

theorem forall₂_backed {bins : List (WinBin × Bool)} (hopen : ∀ b ∈ bins, b.1.bucket = none) :
    List.Forall₂ Backed (bins.map Prod.fst) (bins.map fun b => b.1.entries) ∧
      List.Forall₂ Backed (bins.map shown) (bins.map fun b => b.1.entries) := by
  rw [List.forall₂_map_left_iff, List.forall₂_map_right_iff, List.forall₂_same,
    List.forall₂_map_left_iff, List.forall₂_map_right_iff, List.forall₂_same]
  exact ⟨fun b hb => backed_open (hopen b hb), fun b hb => backed_shown (hopen b hb)⟩

def rowPair (r : BucketRow) : (Hash ×ₗ Hash) × RowWeights :=
  (toLex (r.miner, r.owner), (r.wMiner, r.wOwner, r.wAuthor))

structure SameRows (rows rows' : List BucketRow) : Prop where
  keys : ∀ k, k ∈ (rows.map rowPair).map Prod.fst ↔ k ∈ (rows'.map rowPair).map Prod.fst
  amounts : ∀ k, Tally.amount (rows.map rowPair) k = Tally.amount (rows'.map rowPair) k

theorem SameRows.append {rows rows' more more' : List BucketRow} (h : SameRows rows rows')
    (hmore : SameRows more more') : SameRows (rows ++ more) (rows' ++ more') where
  keys k := by
    simp only [List.map_append, mem_append]
    rw [h.keys, hmore.keys]
  amounts k := by
    have hrows := h.amounts k
    have hadded := hmore.amounts k
    unfold Tally.amount at hrows hadded ⊢
    simp only [List.map_append, sum_append, hrows, hadded]

theorem SameRows.groupRows_eq {rows rows' : List BucketRow} (h : SameRows rows rows') :
    groupRows rows = groupRows rows' := by
  have hmap := accrueAll_congr ∅ h.keys h.amounts
  exact congrArg (fun m : SortedMap _ _ => m.entries.map _) hmap

theorem sameRows_groupRows (rows : List BucketRow) : SameRows (groupRows rows) rows := by
  have hentries : (groupRows rows).map rowPair =
      (SortedMap.accrueAll ∅ (rows.map rowPair)).entries := by
    unfold groupRows
    rw [map_map]
    exact map_id _
  constructor
  · intro k
    have hkeys := @mem_keys_accrueAll _ _ _ _ ∅ (rows.map rowPair) k
    rw [hentries]
    exact hkeys.trans (or_iff_right not_mem_nil)
  · intro k
    rw [hentries, tally_entries, amountAt_accrueAll, amountAt_empty, zero_add]

theorem Backed.sameRows {b : WinBin} {entries : List WinEntry} (h : Backed b entries) :
    SameRows b.sourceRows (entries.map rowOf) := by
  rcases h with ⟨hopen, hentries⟩ | ⟨⟨bin, hsealed⟩, -⟩
  · rw [WinBin.sourceRows, hopen, hentries]
    exact ⟨fun k => Iff.rfl, fun k => rfl⟩
  · rw [WinBin.sourceRows, hsealed]
    exact sameRows_groupRows _

section

variable {bins : List WinBin} {lived : List (List WinEntry)} (h : List.Forall₂ Backed bins lived)
include h

theorem rowsOfBins_eq : rowsOfBins bins = rowsOf lived.flatten := by
  have hsame : SameRows (bins.flatMap WinBin.sourceRows) (lived.flatten.map rowOf) := by
    induction h with
    | nil => exact ⟨fun k => Iff.rfl, fun k => rfl⟩
    | cons hb _ ih =>
      rw [flatMap_cons, flatten_cons, List.map_append]
      exact hb.sameRows.append ih
  exact hsame.groupRows_eq

theorem resolveBins_eq (B fSpend : U64) (author : Hash) :
    resolveBins bins B fSpend author =
      resolveRows (rowsOf lived.flatten) (rawSum lived.flatten) B fSpend author := by
  rw [resolveBins, rowsOfBins_eq h, workOfBins_eq h]

end

section Payees

variable {author : Hash} {N : U64} {entries : List WinEntry} {bins : List (WinBin × Bool)}

theorem Backed.addBin_eq {b : WinBin} (h : Backed b entries) (hvalid : ∀ e ∈ entries, e.Valid)
    (hsum : workSum entries < 2 ^ 256) (ids : Finset Hash) :
    addBin author ids b = (entries.map rowOf).foldl (addRow author) ids := by
  ext x
  rw [PathB.addBin_eq, mem_foldl_addRow, mem_foldl_addRow,
    (h.standFor hvalid).counts_iff hvalid hsum]

/-- What the code promises of the bins: they are open, their receipts are valid and
fit in a vector. -/
structure OpenBins (bins : List (WinBin × Bool)) : Prop where
  isOpen : ∀ b ∈ bins, b.1.bucket = none
  valid : ∀ b ∈ bins, ∀ e ∈ b.1.entries, e.Valid
  count : ∀ b ∈ bins, b.1.entries.length < 2 ^ 64

theorem OpenBins.subset {bins' : List (WinBin × Bool)} (h : OpenBins bins) (hsub : bins' ⊆ bins) :
    OpenBins bins' where
  isOpen b hb := h.isOpen b (hsub hb)
  valid b hb := h.valid b (hsub hb)
  count b hb := h.count b (hsub hb)

theorem OpenBins.addBin_shown (h : OpenBins bins) (hb : b ∈ bins)
    (ids : Finset Hash) : addBin author ids (shown b) = addBin author ids b.1 := by
  have hsum := workSum_lt (h.count b hb)
  rw [(backed_shown (h.isOpen b hb)).addBin_eq (h.valid b hb) (by omega),
    (backed_open (h.isOpen b hb)).addBin_eq (h.valid b hb) (by omega)]

theorem OpenBins.binsWithin_shown (h : OpenBins bins) (ids : Finset Hash) :
    binsWithin author N ids (bins.map shown) = binsWithin author N ids (bins.map Prod.fst) := by
  induction bins generalizing ids with
  | nil => rfl
  | cons b bins ih =>
    rw [List.map_cons, List.map_cons]
    unfold binsWithin
    simp only [h.addBin_shown List.mem_cons_self, ih (h.subset (subset_cons_self b bins))]

end Payees

section Source

variable {sort : List WinEntry → List WinEntry} {coverage : Work} {B fSpend N : U64} {author : Hash}
  {bins taken : List (WinBin × Bool)} {b : WinBin × Bool} {o s : WinSelect} {selected : List WinBin}
  {pulls : List BinPull} {dNet : BitVec 128} {newest : WinBin × Bool} {read : Nat}

/-- The newest non-empty bin is marked, and alone it exceeds `W_max`. -/
structure Exceeds (B fSpend : U64) (bins : List (WinBin × Bool)) (newest : WinBin × Bool) :
    Prop where
  split : ∃ empties older, bins = empties ++ newest :: older ∧ ∀ b ∈ empties, b.1.entries = []
  marked : newest.2 = true
  nonempty : newest.1.entries ≠ []
  exceeds : withinWMax (rawSum newest.1.entries) (smallestWork newest.1.entries) B fSpend = false

/-- How a selection over the shown bins relates to the one over the open bins: it
takes the same bins, it cuts the same open bin, or it refuses to cut a sealed one. -/
inductive Alike (sort : List WinEntry → List WinEntry) (B fSpend : U64)
    (bins taken : List (WinBin × Bool)) : WinSelect → WinSelect → Prop
  | whole (n read : Nat) : Alike sort B fSpend bins taken
      { bins := (taken ++ (bins.take n).filter fun b => b.1.entries ≠ []).map Prod.fst,
        read := read }
      { bins := (taken ++ (bins.take n).filter fun b => b.1.entries ≠ []).map shown, read := read }
  | cut (s : WinSelect) : Alike sort B fSpend bins taken s s
  | refused (newest : WinBin × Bool) (read : Nat) (s : WinSelect) (h : taken = [])
      (hstatus : s.status = .sealedCut) (hexceeds : Exceeds B fSpend bins newest) :
      Alike sort B fSpend bins taken (cutNewest sort B fSpend newest.1 read) s

theorem Alike.skip (h : Alike sort B fSpend bins taken o s)
    (hempty : b.1.entries = []) : Alike sort B fSpend (b :: bins) taken o s := by
  cases h with
  | whole n read =>
    have hsame : (((b :: bins).take (n + 1)).filter fun b => b.1.entries ≠ []) =
        (bins.take n).filter fun b => b.1.entries ≠ [] := by
      rw [take_succ_cons, filter_cons_of_neg (by simpa using hempty)]
    rw [← hsame]
    exact .whole (n + 1) read
  | cut => exact .cut o
  | refused newest read s hnone hstatus hexceeds =>
    obtain ⟨empties, older, hsplit, hall⟩ := hexceeds.split
    refine .refused newest read s hnone hstatus { hexceeds with split := ?_ }
    exact ⟨b :: empties, older, by rw [hsplit]; rfl, forall_mem_cons.mpr ⟨hempty, hall⟩⟩

theorem Alike.take (h : Alike sort B fSpend bins (taken ++ [b]) o s) (hne : b.1.entries ≠ []) :
    Alike sort B fSpend (b :: bins) taken o s := by
  cases h with
  | whole n read =>
    have hsame : taken ++ [b] ++ ((bins.take n).filter fun b => b.1.entries ≠ []) =
        taken ++ ((b :: bins).take (n + 1)).filter fun b => b.1.entries ≠ [] := by
      rw [take_succ_cons, filter_cons_of_pos (by simpa using hne), append_assoc]
      rfl
    rw [hsame]
    exact .whole (n + 1) read
  | cut => exact .cut o
  | refused newest read s hnone => simp at hnone

theorem Alike.stop (read : Nat) : Alike sort B fSpend bins taken
    { bins := taken.map Prod.fst, read := read } { bins := taken.map shown, read := read } := by
  have h : Alike sort B fSpend bins taken _ _ := .whole 0 read
  simpa using h

theorem selectFrom_alike (hopen : ∀ b ∈ bins, b.1.bucket = none) {cum : Work} {d : Option U64}
    (hfirst : taken = [] → cum = 0 ∧ d = none) (read : Nat) :
    Alike sort B fSpend bins taken
      (selectFrom sort coverage B fSpend (bins.map fun b => .bin b.1) cum d
        (taken.map Prod.fst) read)
      (selectFrom sort coverage B fSpend (bins.map fun b => .bin (shown b)) cum d (taken.map shown)
        read) := by
  induction bins generalizing cum d taken read with
  | nil => exact .stop read
  | cons b bins ih =>
    have hb := hopen b List.mem_cons_self
    have hrest : ∀ b ∈ bins, b.1.bucket = none := fun b hb => hopen b (List.mem_cons_of_mem _ hb)
    rw [List.map_cons, List.map_cons]
    unfold selectFrom
    by_cases hcovered : ¬ cum < coverage
    · rw [if_pos hcovered, if_pos hcovered]
      exact .stop read
    rw [if_neg hcovered, if_neg hcovered]
    dsimp only
    by_cases hempty : b.1.entries = []
    -- both pass over an empty bin
    · rw [if_pos ((backed_open hb).isEmpty.mpr hempty),
        if_pos ((backed_shown hb).isEmpty.mpr hempty)]
      exact (ih hrest hfirst (read + 1)).skip hempty
    rw [if_neg (mt (backed_open hb).isEmpty.mp hempty),
      if_neg (mt (backed_shown hb).isEmpty.mp hempty), (backed_open hb).raw,
      (backed_shown hb).raw, (backed_open hb).dMin, (backed_shown hb).dMin]
    by_cases hwithin : withinWMax (cum + rawSum b.1.entries)
        (lowerOf d (smallestWork b.1.entries)) B fSpend = true
    · simp only [hwithin, Bool.not_true, Bool.false_eq_true, if_false]
      have hmore : taken ++ [b] = [] → cum + rawSum b.1.entries = 0 ∧
          some (lowerOf d (smallestWork b.1.entries)) = none := by simp
      have h := ih hrest hmore (read + 1)
      rw [List.map_append, List.map_append] at h
      exact h.take hempty
    rw [Bool.not_eq_true] at hwithin
    simp only [hwithin, Bool.not_false, if_true]
    by_cases htaken : taken = []
    · obtain ⟨rfl, rfl⟩ := hfirst htaken
      subst htaken
      rw [zero_add] at hwithin
      by_cases hmark : b.2 = true
      -- the sealed bin would have to be cut
      · have hsealed : (shown b).bucket = some (sealFromEntries b.1.bin b.1.entries) := by
          rw [shown, if_pos hmark]
          rfl
        refine .refused b (read + 1) _ rfl ?_ ⟨⟨[], bins, rfl, by simp⟩, hmark, hempty, hwithin⟩
        simp [cutNewest, hsealed]
      have hsame : shown b = b.1 := if_neg hmark
      simp only [hsame]
      exact .cut _
    · simp only [List.isEmpty_map, List.isEmpty_iff, htaken, if_false]
      exact .stop (read + 1)

/-! ## Cuts -/

/-- The window is made of the first receipts, in the cut order, of the newest
non-empty bin, not of all of them, and that bin is marked. -/
def CutsMarked (bins : List (WinBin × Bool)) (eval : WinEval) : Prop :=
  ∃ empties newest older order kept, bins = empties ++ newest :: older ∧
    (∀ b ∈ empties, b.1.entries = []) ∧ newest.2 = true ∧ order.Perm newest.1.entries ∧
    order.Pairwise NewerFirst ∧ kept <+: order ∧ kept.length < order.length ∧
    eval.status = .ok ∧ eval.window.rows = rowsOf kept ∧ eval.window.total = rawSum kept

theorem nRule_ok (h : ∀ b ∈ selected, b.bucket = none) :
    (nRule sort author N selected).status = .ok := by
  unfold nRule
  cases selected with
  | nil => rfl
  | cons newest older =>
    dsimp only
    split
    · rfl
    split
    · simp [cutPayees, h newest List.mem_cons_self]
    · rfl

theorem windowFrom_of_kept {kept : List (List WinEntry)}
    (hselect : selectWindowBinsFrom sort pulls dNet B fSpend = { bins := selected, read := read })
    (hrule : (nRule sort author N selected).status = .ok)
    (hkept : List.Forall₂ Backed (nRule sort author N selected).bins kept) :
    (windowFrom sort pulls dNet B fSpend N author).status = .ok ∧
      (windowFrom sort pulls dNet B fSpend N author).window.rows = rowsOf kept.flatten ∧
      (windowFrom sort pulls dNet B fSpend N author).window.total = rawSum kept.flatten := by
  unfold windowFrom
  simp only [hselect, hrule, ne_eq, not_true_eq_false, if_false, resolveBins_eq hkept]
  exact ⟨trivial, rfl, rfl⟩

/-- A bin that does not fit `W_max` does not come through whole. -/
theorem Exceeds.not_fits (h : Exceeds B fSpend bins newest)
    (hcount : newest.1.entries.length < 2 ^ 64) : ¬ Fits B fSpend newest.1.entries := by
  intro hfits
  obtain ⟨e, he, hsmallest⟩ := exists_smallestWork h.nonempty
  have hsum := workSum_lt hcount
  have hwithin : withinWMax (rawSum newest.1.entries) (smallestWork newest.1.entries) B fSpend =
      true := by
    rw [withinWMax_iff, hsmallest, toNat_rawSum (by omega)]
    exact hfits e he
  rw [h.exceeds] at hwithin
  cases hwithin

theorem Exceeds.cuts (h : Exceeds B fSpend bins newest) (hsort : Sorts sort) (hbins : OpenBins bins)
    (hselect : selectWindowBinsFrom sort pulls dNet B fSpend =
      cutNewest sort B fSpend newest.1 read) :
    CutsMarked bins (windowFrom sort pulls dNet B fSpend N author) := by
  obtain ⟨empties, older, hsplit, hempties⟩ := h.split
  have hmem : newest ∈ bins := by
    rw [hsplit]
    simp
  have hopen := hbins.isOpen newest hmem
  have hsum := workSum_lt (hbins.count newest hmem)
  have hcut : cutNewest sort B fSpend newest.1 read =
      { bins := (cutNewest sort B fSpend newest.1 read).bins, read := read } := by
    simp [cutNewest, hopen]
  have hok : (cutNewest sort B fSpend newest.1 read).status = .ok := by rw [hcut]
  obtain ⟨selected, order, kept, hsel, hperm, hordered, hkept, hfits, hwhich⟩ :=
    cutNewest_spec hsort (backed_open hopen) (by omega) hok
  have hstrict : kept.length < order.length := by
    by_contra hnot
    have hall : kept = order := hkept.eq_of_length_le (by omega)
    rw [hall] at hfits
    exact h.not_fits (hbins.count newest hmem) (hfits.subperm hperm.symm.subperm)
  have hrule : (nRule sort author N (cutNewest sort B fSpend newest.1 read).bins).status = .ok := by
    apply nRule_ok
    intro b hb
    simp only [cutNewest, hopen] at hb
    split at hb
    · cases hb
    · rw [mem_singleton.mp hb]
  obtain ⟨parts, hparts, hpart⟩ := nRule_spec hsort hsel hrule
  obtain ⟨hstatus, hrows, htotal⟩ := windowFrom_of_kept (hselect.trans hcut) hrule hparts
  have hfinal : ∃ final, final.Perm newest.1.entries ∧ final.Pairwise NewerFirst ∧
      parts.flatten <+: final ∧ parts.flatten.length < final.length := by
    have hpos : 0 < order.length := by omega
    rcases hwhich with ⟨rfl, rfl⟩ | rfl
    · rcases hpart with ⟨n, rfl⟩ | ⟨_, _, _, _, ⟨⟩, -⟩
      exact ⟨order, hperm, hordered, by simp, by simpa using hpos⟩
    rcases hpart with ⟨n, rfl⟩ | ⟨whole, rest, order', part, hcons, hperm', hordered', hpart, rfl⟩
    · cases n with
      | zero => exact ⟨order, hperm, hordered, by simp, by simpa using hpos⟩
      | succ n => exact ⟨order, hperm, hordered, by simpa using hkept, by simpa using hstrict⟩
    obtain ⟨rfl, rfl⟩ := List.cons.inj hcons
    obtain ⟨final, hfinal, hsorted, hprefix⟩ :=
      prefix_of_recut hperm hordered hkept hperm' hordered' hpart
    have hle := hpart.length_le
    have hlength := hfinal.length_eq.trans hperm.length_eq.symm
    have hlength' := hperm'.length_eq
    exact ⟨final, hfinal, hsorted, by simpa using hprefix, by simp; omega⟩
  obtain ⟨final, hfinal, hsorted, hprefix, hshort⟩ := hfinal
  exact ⟨empties, newest, older, final, _, hsplit, hempties, h.marked, hfinal, hsorted, hprefix,
    hshort, hstatus, hrows, htotal⟩

theorem nRule_alike {selected : List (WinBin × Bool)} (h : OpenBins selected) (hN : N ≠ 0) :
    (∃ (kept : List (WinBin × Bool)) (dropped : Bool), kept ⊆ selected ∧
      nRule sort author N (selected.map Prod.fst) =
        { bins := kept.map Prod.fst, droppedBins := dropped } ∧
      nRule sort author N (selected.map shown) =
        { bins := kept.map shown, droppedBins := dropped }) ∨
    nRule sort author N (selected.map shown) = nRule sort author N (selected.map Prod.fst) ∨
    (nRule sort author N (selected.map shown)).status = .sealedCut ∧
      ∃ newest older dropped, selected = newest :: older ∧ newest.2 = true ∧
        N.val < (addBin author ∅ newest.1).card ∧
        nRule sort author N (selected.map Prod.fst) = cutPayees sort author N newest.1 dropped := by
  cases selected with
  | nil => exact Or.inr (Or.inl rfl)
  | cons newest older =>
    have hwithin := @OpenBins.binsWithin_shown author N _ h ∅
    have hnone : (older.map shown).isEmpty = (older.map Prod.fst).isEmpty := by simp
    simp only [List.map_cons, nRule, if_neg hN] at hwithin ⊢
    rw [hwithin]
    cases hk : binsWithin author N ∅ (newest.1 :: older.map Prod.fst) with
    | zero =>
      rw [hnone]
      by_cases hmark : newest.2 = true
      · have hsealed : (shown newest).bucket =
            some (sealFromEntries newest.1.bin newest.1.entries) := by
          rw [shown, if_pos hmark]
          rfl
        refine Or.inr (Or.inr ⟨by simp [cutPayees, hsealed], newest, older, _, rfl, hmark, ?_, rfl⟩)
        by_contra hnot
        simp [binsWithin, hnot] at hk
      · rw [shown, if_neg hmark]
        exact Or.inr (Or.inl rfl)
    | succ k =>
      refine Or.inl ⟨newest :: older.take k, decide (k < older.length), ?_, ?_, ?_⟩
      · exact cons_subset_cons _ (take_subset k older)
      · simp
      · simp

theorem cutPayees_cuts (hsort : Sorts sort) (hbins : OpenBins bins)
    {empties older : List (WinBin × Bool)} (hsplit : bins = empties ++ newest :: older)
    (hempties : ∀ b ∈ empties, b.1.entries = []) (hmark : newest.2 = true)
    (hover : N.val < (addBin author ∅ newest.1).card)
    (hselect : selectWindowBinsFrom sort pulls dNet B fSpend = { bins := selected, read := read })
    {dropped : Bool}
    (hrule : nRule sort author N selected = cutPayees sort author N newest.1 dropped) :
    CutsMarked bins (windowFrom sort pulls dNet B fSpend N author) := by
  have hmem : newest ∈ bins := by
    rw [hsplit]
    simp
  have hopen := hbins.isOpen newest hmem
  obtain ⟨hperm, hordered⟩ := hsort newest.1.entries
  have hprefix := keepPayees_prefix author N ∅ (sort newest.1.entries)
  have hstrict : (keepPayees author N ∅ (sort newest.1.entries)).length <
      (sort newest.1.entries).length := by
    by_contra hnot
    have hall := hprefix.eq_of_length_le (by omega)
    have hcard := @keepPayees_card author N ∅ (by simp) (sort newest.1.entries)
    have hsame : addBin author ∅ { bin := 0, entries := sort newest.1.entries } =
        addBin author ∅ newest.1 := by
      ext x
      simp only [addBin_eq, mem_foldl_addRow, WinBin.sourceRows, hopen, (hperm.map rowOf).mem_iff]
    rw [hall] at hcard
    exact absurd hover (Nat.not_lt.mpr (hsame ▸ hcard))
  have hkept : List.Forall₂ Backed (nRule sort author N selected).bins
      [keepPayees author N ∅ (sort newest.1.entries)] := by
    rw [hrule, cutPayees, hopen]
    exact List.Forall₂.cons (Or.inl ⟨rfl, rfl⟩) List.Forall₂.nil
  have hok : (nRule sort author N selected).status = .ok := by
    rw [hrule, cutPayees, hopen]
  obtain ⟨hstatus, hrows, htotal⟩ := windowFrom_of_kept hselect hok hkept
  rw [flatten_singleton] at hrows htotal
  exact ⟨empties, newest, older, _, _, hsplit, hempties, hmark, hperm, hordered, hprefix, hstrict,
    hstatus, hrows, htotal⟩

theorem oldest_shown (kept : List (WinBin × Bool)) :
    ((kept.map shown).getLast?.map WinBin.bin).getD 0 =
      ((kept.map Prod.fst).getLast?.map WinBin.bin).getD 0 := by
  simp [getLast?_map, Function.comp_def]

/-- Sealed bins and the open bins they were sealed from give the same window, and so
the same root, unless the newest non-empty bin has to be cut and is sealed; and
every sealed bucket is consistent. -/
theorem sealed_window_agrees (hsort : Sorts sort) (hbins : OpenBins bins) (dNet : BitVec 128)
    (B fSpend N : U64) (hN : 1 ≤ N) (author : Hash) (sha : List Byte → Bytes32)
    (sortRows : List BucketRow → List BucketRow) :
    (windowFrom sort (bins.map fun b => .bin (shown b)) dNet B fSpend N author =
        windowFrom sort (bins.map fun b => .bin b.1) dNet B fSpend N author ∨
      (windowFrom sort (bins.map fun b => .bin (shown b)) dNet B fSpend N author).status =
          .sealedCut ∧
        CutsMarked bins (windowFrom sort (bins.map fun b => .bin b.1) dNet B fSpend N author)) ∧
    ∀ b ∈ bins, bucketConsistent sha sortRows
      (sealCommitted sha sortRows b.1.bin b.1.entries) = true := by
  have hne : N ≠ 0 := by
    rintro rfl
    exact absurd hN (by decide)
  refine ⟨?_, fun b hb => bucketConsistent_sealCommitted sha sortRows b.1.bin (hbins.valid b hb)
    (hbins.count b hb)⟩
  have halike : Alike sort B fSpend bins []
      (selectWindowBinsFrom sort (bins.map fun b => .bin b.1) dNet B fSpend)
      (selectWindowBinsFrom sort (bins.map fun b => .bin (shown b)) dNet B fSpend) :=
    selectFrom_alike hbins.isOpen (fun _ => ⟨rfl, rfl⟩) 0
  generalize hopened : selectWindowBinsFrom sort (bins.map fun b => .bin b.1) dNet B fSpend = opened
    at halike
  generalize hshown : selectWindowBinsFrom sort (bins.map fun b => .bin (shown b)) dNet B fSpend =
    seen at halike
  cases halike with
  | whole n read =>
    rw [nil_append] at hopened hshown
    have hsub : ((bins.take n).filter fun b => b.1.entries ≠ []) ⊆ bins :=
      List.Subset.trans filter_sublist.subset (take_subset n bins)
    rcases @nRule_alike sort N author _ (hbins.subset hsub) hne with ⟨kept, dropped, hkept, hrule,
      hrule'⟩ | hsame | ⟨hstatus, newest, rest, dropped, hhead, hmark, hover, hrule⟩
    · have hbacked := forall₂_backed (hbins.subset (List.Subset.trans hkept hsub)).isOpen
      left
      unfold windowFrom
      simp only [hopened, hshown, hrule, hrule', resolveBins_eq hbacked.1,
        resolveBins_eq hbacked.2, oldest_shown]
    · left
      unfold windowFrom
      simp only [hopened, hshown, hsame]
    · right
      obtain ⟨empties, older, htake, hempties, -, -⟩ := filter_eq_cons_iff.mp hhead
      have hsplit : bins = empties ++ newest :: (older ++ bins.drop n) := by
        rw [← cons_append, ← append_assoc, ← htake, take_append_drop]
      have hnone : ∀ b ∈ empties, b.1.entries = [] := by
        intro b hb
        simpa using hempties b hb
      refine ⟨?_, cutPayees_cuts hsort hbins hsplit hnone hmark hover hopened hrule⟩
      unfold windowFrom
      simp only [hshown, hstatus, ne_eq, not_true_eq_false, reduceCtorEq, not_false_eq_true,
        if_true, if_false]
  | cut =>
    left
    unfold windowFrom
    rw [hopened, hshown]
  | refused newest read s _ hstatus hexceeds =>
    right
    refine ⟨?_, hexceeds.cuts hsort hbins hopened⟩
    unfold windowFrom
    simp [hshown, hstatus]

end Source

/-- Receipts of 20,000 that keep, give to their owner and give to the author. -/
def settledEntries : List WinEntry :=
  [{ miner := 1, owner := 7, work := 20000, p := 1000, giveAuthorBp := 1000, id := 11 },
    { miner := 2, owner := 8, work := 20000, p := 10000, id := 12 },
    { miner := 3, work := 20000, giveAuthorBp := 10000, id := 13 }]

/-- The receipts of `settledEntries` twice, the older bin sealed. -/
def halfSealed : List (WinBin × Bool) :=
  [({ bin := 6, entries := settledEntries }, false),
    ({ bin := 5, entries := settledEntries }, true)]

theorem sealed_window_agrees_halfSealed :
    (windowFrom sortNewestFirst (halfSealed.map fun b => .bin (shown b)) 60000 (10 ^ 12) 1 9
        4).status = .ok ∧
      windowFrom sortNewestFirst (halfSealed.map fun b => .bin (shown b)) 60000 (10 ^ 12) 1 9 4 =
        windowFrom sortNewestFirst (halfSealed.map fun b => .bin b.1) 60000 (10 ^ 12) 1 9 4 := by
  have hok : (windowFrom sortNewestFirst (halfSealed.map fun b => .bin (shown b)) 60000 (10 ^ 12) 1
      9 4).status = .ok := by decide +kernel
  refine ⟨hok, ?_⟩
  have hvalid : ∀ b ∈ halfSealed, ∀ e ∈ b.1.entries,
      0 < e.work ∧ e.p.val + e.giveAuthorBp.val ≤ 10000 ∧ (e.owner = 0 ↔ e.p = 0) := by
    decide +kernel
  have hbins : OpenBins halfSealed :=
    ⟨by decide, fun b hb e he => ⟨(hvalid b hb e he).1, (hvalid b hb e he).2.1,
      (hvalid b hb e he).2.2⟩, by decide⟩
  rcases (sealed_window_agrees sorts_sortNewestFirst hbins 60000 (10 ^ 12) 1 9 (by decide) 4
    (fun _ => 0) id).1 with hsame | ⟨hcut, -⟩
  · exact hsame
  · rw [hok] at hcut
    cases hcut

end C2Pool.Xmr.PathB
