import C2Pool.Xmr.WindowWeights

/-! # What a window selects

The bins of a window are the newest ones, whole, or the newest bin alone cut in
its in-bin order; either way their work stays within `W_max` of each entry.
-/

namespace C2Pool.Xmr.PathB

open List Wide

/-- What `std::sort` promises of the in-bin cut. -/
def Sorts (sort : List WinEntry → List WinEntry) : Prop :=
  ∀ entries, (sort entries).Perm entries ∧ (sort entries).Pairwise NewerFirst

/-- `sort_newest_first`, as one sort that keeps the promise. -/
def sortNewestFirst (entries : List WinEntry) : List WinEntry := entries.insertionSort NewerFirst

theorem sorts_sortNewestFirst : Sorts sortNewestFirst := by
  have htotal : Std.Total NewerFirst := ⟨by
    intro a b
    rcases lt_trichotomy a.position b.position with hlt | heq | hgt
    · exact Or.inr (Or.inl hlt)
    · rcases le_total a.id b.id with hid | hid
      · exact Or.inl (Or.inr ⟨heq.symm, hid⟩)
      · exact Or.inr (Or.inr ⟨heq, hid⟩)
    · exact Or.inl (Or.inl hgt)⟩
  have htrans : IsTrans WinEntry NewerFirst := ⟨by
    intro a b c hab hbc
    rcases hab with hab | ⟨hab, hid⟩
    · rcases hbc with hbc | ⟨hbc, -⟩
      · exact Or.inl (hbc.trans hab)
      · exact Or.inl (hbc ▸ hab)
    rcases hbc with hbc | ⟨hbc, hid'⟩
    · exact Or.inl (hab ▸ hbc)
    · exact Or.inr ⟨hbc.trans hab, hid.trans hid'⟩⟩
  intro entries
  exact ⟨perm_insertionSort NewerFirst entries, pairwise_insertionSort NewerFirst entries⟩

/-- `W_max` for each of the entries: all their work together, at the spend floor,
is at most the base reward per unit of its work. -/
def Fits (B fSpend : U64) (entries : List WinEntry) : Prop :=
  ∀ e ∈ entries, workSum entries * fSpend.val ≤ B.val * e.work.val

/-- The entries form a newest-first prefix of the bins' entries: whole bins, or a
part of the newest non-empty bin from the front of its in-bin order. -/
def NewestPrefix (lived : List (List WinEntry)) (entries : List WinEntry) : Prop :=
  (∃ n, entries = (lived.take n).flatten) ∨
    ∃ empties newest older order, lived = empties ++ newest :: older ∧ (∀ es ∈ empties, es = []) ∧
      order.Perm newest ∧ order.Pairwise NewerFirst ∧ entries <+: order

theorem withinWMax_iff (W : Work) (dMin B fSpend : U64) :
    withinWMax W dMin B fSpend = true ↔ W.toNat * fSpend.val ≤ B.val * dMin.val := by
  unfold withinWMax
  rw [less_mul (bounded_mulU64U64 _ _) (bounded_mulU256U64 _ _) (by simp [mulU64U64]),
    value_mulU64U64, value_mulU256U64]
  simp

/-- `d` is a lower bound of the works of the entries. -/
def Below (d : Option U64) (entries : List WinEntry) : Prop :=
  ∀ e ∈ entries, ∃ m, d = some m ∧ m ≤ e.work

variable {d : Option U64} {es es' : List WinEntry} {m B fSpend : U64} {entries : List WinEntry}
  {b : WinBin}

theorem Below.append (h : Below d es) (h' : Below d es') : Below d (es ++ es') := by
  intro e he
  rcases mem_append.mp he with he | he
  · exact h e he
  · exact h' e he

theorem Below.mono {m' : U64} (h : Below (some m) es) (hle : m' ≤ m) : Below (some m') es := by
  intro e he
  obtain ⟨n, hn, hne⟩ := h e he
  cases hn
  exact ⟨m', rfl, hle.trans hne⟩

theorem Below.lower (h : Below d es)
    (h' : Below (some m) es') : Below (some (lowerOf d m)) (es ++ es') := by
  cases d with
  | none =>
    have hnil : es = [] := by
      apply eq_nil_iff_forall_not_mem.mpr
      intro x hx
      obtain ⟨n, hn, -⟩ := h x hx
      cases hn
    simpa [hnil, lowerOf] using h'
  | some n =>
    unfold lowerOf
    by_cases hlt : m < n
    · simp only [hlt, if_true]
      exact (h.mono hlt.le).append h'
    · simp only [hlt, if_false]
      exact h.append (h'.mono (not_lt.mp hlt))

theorem Below.minWork (h : Below d es) (e : WinEntry) : Below (PathB.minWork d e) (es ++ [e]) := by
  apply h.lower
  intro x hx
  rw [mem_singleton.mp hx]
  exact ⟨e.work, rfl, le_rfl⟩

theorem Below.foldl (h : Below d es)
    (es' : List WinEntry) : Below (es'.foldl PathB.minWork d) (es ++ es') := by
  induction es' generalizing d es with
  | nil => simpa using h
  | cons e es' ih =>
    have hstep := ih (h.minWork e)
    rwa [append_assoc] at hstep

theorem below_smallestWork (es : List WinEntry) : Below (some (smallestWork es)) es := by
  have hempty : Below none [] := by
    intro e he
    cases he
  have h := hempty.foldl es
  intro e he
  obtain ⟨m, hm, hle⟩ := h e he
  exact ⟨m, by rw [smallestWork, hm]; rfl, hle⟩

theorem fits_of_within (hbelow : Below (some m) es) (hsum : workSum es < 2 ^ 256)
    (hwithin : withinWMax (rawSum es) m B fSpend = true) : Fits B fSpend es := by
  intro e he
  obtain ⟨n, hn, hle⟩ := hbelow e he
  cases hn
  rw [withinWMax_iff, toNat_rawSum hsum] at hwithin
  exact hwithin.trans (Nat.mul_le_mul_left _ hle)

theorem workSum_le_of_subperm (h : es.Subperm es') : workSum es ≤ workSum es' := by
  obtain ⟨l, hperm, hsub⟩ := h
  have hsame : workSum es = workSum l := (hperm.symm.map _).sum_eq
  rw [hsame]
  exact (hsub.map _).sum_le_sum fun _ _ => Nat.zero_le _

theorem Fits.subperm (h : Fits B fSpend es') (hsub : es.Subperm es') : Fits B fSpend es := by
  intro e he
  have hle := h e (hsub.subset he)
  exact (Nat.mul_le_mul_right _ (workSum_le_of_subperm hsub)).trans hle

theorem keepWMax_spec {pre : List WinEntry}
    (hbelow : Below d pre) (hfits : Fits B fSpend pre) (hsum : workSum (pre ++ es) < 2 ^ 256) :
    keepWMax B fSpend es (rawSum pre) d <+: es ∧
      Fits B fSpend (pre ++ keepWMax B fSpend es (rawSum pre) d) := by
  induction es generalizing pre d with
  | nil => simpa [keepWMax] using hfits
  | cons e es ih =>
    unfold keepWMax
    have hraw : rawSum pre + ofU64 e.work = rawSum (pre ++ [e]) := by
      simp [rawSum]
    have hnext := hbelow.minWork e
    have hsum' : workSum (pre ++ [e] ++ es) < 2 ^ 256 := by
      rw [append_assoc]
      exact hsum
    rw [hraw]
    by_cases hwithin :
        withinWMax (rawSum (pre ++ [e])) ((minWork d e).getD 0) B fSpend = true
    · have hmin : minWork d e = some ((minWork d e).getD 0) := by
        rfl
      have hone : Fits B fSpend (pre ++ [e]) := by
        apply fits_of_within (hmin ▸ hnext) _ hwithin
        rw [workSum_append] at hsum'
        omega
      obtain ⟨hfront, hfit⟩ := ih hnext hone hsum'
      simp only [hwithin, if_true]
      refine ⟨?_, ?_⟩
      · exact (prefix_cons_inj e).mpr hfront
      · rw [append_assoc] at hfit
        exact hfit
    · simp only [hwithin]
      simpa using hfits

/-! ## Selecting bins -/

theorem groupRows_eq_nil {rows : List BucketRow} : groupRows rows = [] ↔ rows = [] := by
  constructor
  · intro h
    cases rows with
    | nil => rfl
    | cons r rows =>
      unfold groupRows at h
      rw [map_eq_nil_iff, SortedMap.entries_eq_nil] at h
      have hkey : toLex (r.miner, r.owner) ∈ (SortedMap.accrueAll ∅ ((r :: rows).map fun r =>
          (toLex (r.miner, r.owner), ((r.wMiner, r.wOwner, r.wAuthor) : RowWeights)))).keys := by
        rw [SortedMap.mem_keys_accrueAll]
        simp
      rw [h] at hkey
      cases hkey
  intro h
  rw [h]
  rfl

theorem Backed.isEmpty (h : Backed b entries) : b.isEmpty = true ↔ entries = [] := by
  rcases h with ⟨hopen, hentries⟩ | ⟨⟨bin, hsealed⟩, -⟩
  · simp [WinBin.isEmpty, hopen, hentries]
  · simp [WinBin.isEmpty, hsealed, sealFromEntries, rowsOf, groupRows_eq_nil]

/-- What is selected of the bins' entries, bin by bin: the non-empty ones of the
newest bins, or a cut of the newest non-empty one. -/
def Selects (lived selected : List (List WinEntry)) : Prop :=
  (∃ n, selected = (lived.take n).filter (· ≠ [])) ∨
    ∃ empties newest older order kept, lived = empties ++ newest :: older ∧
      (∀ es ∈ empties, es = []) ∧ order.Perm newest ∧ order.Pairwise NewerFirst ∧
      kept <+: order ∧ selected = [kept]

section Source

variable {sort : List WinEntry → List WinEntry} {bins : List WinBin}
  {selected lived kept : List (List WinEntry)} {author : Hash} {N : U64}

theorem cutNewest_spec {B fSpend : U64} (hsort : Sorts sort) {es : List WinEntry} (hb : Backed b es)
    (hsum : workSum es < 2 ^ 256) {read : Nat}
    (hok : (cutNewest sort B fSpend b read).status = .ok) :
    ∃ selected order kept, List.Forall₂ Backed (cutNewest sort B fSpend b read).bins selected ∧
      order.Perm es ∧ order.Pairwise NewerFirst ∧ kept <+: order ∧ Fits B fSpend kept ∧
      (selected = [] ∧ kept = [] ∨ selected = [kept]) := by
  obtain ⟨hperm, hordered⟩ := hsort es
  unfold cutNewest at hok ⊢
  rcases hb with ⟨hopen, hentries⟩ | ⟨⟨bin, hsealed⟩, -⟩
  · simp only [hopen, hentries] at hok ⊢
    have hempty : Below none [] := by
      intro e he
      cases he
    have hnone : Fits B fSpend [] := by
      intro e he
      cases he
    have hsame : workSum (sort es) = workSum es := (hperm.map _).sum_eq
    have hsorted : workSum ([] ++ sort es) < 2 ^ 256 := by
      rw [nil_append, hsame]
      exact hsum
    obtain ⟨hfront, hfits⟩ := keepWMax_spec hempty hnone hsorted
    by_cases hkept : keepWMax B fSpend (sort es) 0 none = []
    · refine ⟨[], sort es, [], ?_, hperm, hordered, by simp, hnone, Or.inl ⟨rfl, rfl⟩⟩
      rw [if_pos (by simpa using hkept)]
      exact List.Forall₂.nil
    refine ⟨[keepWMax B fSpend (sort es) 0 none], sort es, _, ?_, hperm, hordered, hfront,
      hfits, Or.inr rfl⟩
    rw [if_neg (by simpa using hkept)]
    exact List.Forall₂.cons (Or.inl ⟨rfl, rfl⟩) List.Forall₂.nil
  · simp [hsealed] at hok

theorem selectFrom_spec {B fSpend : U64} (hsort : Sorts sort) {coverage : Work} {bins : List WinBin}
    {lived : List (List WinEntry)} (hbins : List.Forall₂ Backed bins lived) {taken : List WinBin}
    {before : List (List WinEntry)} (htaken : List.Forall₂ Backed taken before) {d : Option U64}
    (hbelow : Below d before.flatten) (hfits : Fits B fSpend before.flatten)
    (hsum : workSum (before.flatten ++ lived.flatten) < 2 ^ 256) {read : Nat}
    (hok : (selectFrom sort coverage B fSpend (bins.map .bin) (rawSum before.flatten) d taken
      read).status = .ok) :
    ∃ selected, List.Forall₂ Backed (selectFrom sort coverage B fSpend (bins.map .bin)
        (rawSum before.flatten) d taken read).bins (before ++ selected) ∧
      Fits B fSpend (before ++ selected).flatten ∧
      ((∃ n, selected = (lived.take n).filter (· ≠ [])) ∨ before = [] ∧
        Selects lived selected) := by
  induction hbins generalizing taken before d read with
  | nil =>
    refine ⟨[], ?_, ?_, Or.inl ⟨0, rfl⟩⟩
    · simpa [selectFrom] using htaken
    · simpa using hfits
  | @cons b es bins lived hb hbins ih =>
    have hstop : ∃ selected, List.Forall₂ Backed taken (before ++ selected) ∧
        Fits B fSpend (before ++ selected).flatten ∧
        ((∃ n, selected = ((es :: lived).take n).filter (· ≠ [])) ∨
          before = [] ∧ Selects (es :: lived) selected) :=
      ⟨[], by simpa using htaken, by simpa using hfits, Or.inl ⟨0, rfl⟩⟩
    rw [map_cons] at hok ⊢
    unfold selectFrom at hok ⊢
    by_cases hcovered : ¬ rawSum before.flatten < coverage
    · rw [if_pos hcovered]
      exact hstop
    rw [if_neg hcovered] at hok ⊢
    rw [flatten_cons] at hsum
    simp only at hok ⊢
    by_cases hempty : b.isEmpty = true
    -- an empty bin is passed over
    · have hes : es = [] := hb.isEmpty.mp hempty
      rw [if_pos hempty] at hok ⊢
      obtain ⟨selected, hsel, hfit, hwhich⟩ := ih htaken hbelow hfits (by
        rw [hes, nil_append] at hsum
        exact hsum) hok
      refine ⟨selected, hsel, hfit, ?_⟩
      rcases hwhich with ⟨n, hn⟩ | ⟨hbefore, hcut⟩
      · exact Or.inl ⟨n + 1, by simp [hes, hn]⟩
      refine Or.inr ⟨hbefore, ?_⟩
      rcases hcut with ⟨n, hn⟩ | ⟨empties, newest, older, order, kept, hsplit, hall, hrest⟩
      · exact Or.inl ⟨n + 1, by simp [hes, hn]⟩
      refine Or.inr ⟨es :: empties, newest, older, order, kept, by simp [hsplit], ?_, hrest⟩
      intro x hx
      rcases mem_cons.mp hx with hx | hx
      · rw [hx, hes]
      · exact hall x hx
    have hne : es ≠ [] := fun hes => hempty (hb.isEmpty.mpr hes)
    have hraw : rawSum before.flatten + b.raw = rawSum (before ++ [es]).flatten := by
      rw [hb.raw, flatten_append, rawSum_append]
      simp
    have hboth : workSum (before ++ [es]).flatten < 2 ^ 256 := by
      rw [workSum_append, workSum_append] at hsum
      rw [flatten_append, workSum_append]
      simp
      omega
    have hbelow' := hbelow.lower (below_smallestWork es)
    rw [← hb.dMin] at hbelow'
    rw [if_neg hempty, hraw] at hok ⊢
    by_cases hwithin : withinWMax (rawSum (before ++ [es]).flatten) (lowerOf d b.dMin)
        B fSpend = true
    -- the bin is taken
    · have hfits' : Fits B fSpend (before ++ [es]).flatten := by
        apply fits_of_within _ hboth hwithin
        simpa using hbelow'
      have hgo : ¬ (!withinWMax (rawSum (before ++ [es]).flatten) (lowerOf d b.dMin) B
          fSpend) = true := by
        rw [hwithin]
        decide
      rw [if_neg hgo] at hok ⊢
      obtain ⟨selected, hsel, hfit, hwhich⟩ :=
        ih (rel_append htaken (List.Forall₂.cons hb List.Forall₂.nil)) (by simpa using hbelow')
          hfits' (by simpa using hsum) hok
      refine ⟨es :: selected, by simpa using hsel, by simpa using hfit, Or.inl ?_⟩
      rcases hwhich with ⟨n, hn⟩ | ⟨hbefore, -⟩
      · exact ⟨n + 1, by simp [hne, hn]⟩
      · simp at hbefore
    rw [if_pos (by simpa using hwithin)] at hok ⊢
    by_cases hfirst : taken.isEmpty = true
    -- the newest bin is cut
    · have hnil : taken = [] := by simpa using hfirst
      have hbefore : before = [] := by
        rw [hnil] at htaken
        exact List.forall₂_nil_left_iff.mp htaken
      rw [if_pos hfirst] at hok ⊢
      obtain ⟨selected, order, kept, hsel, hperm, hordered, hfront, hfit, hwhich⟩ :=
        cutNewest_spec hsort hb (by
          rw [workSum_append, workSum_append] at hsum
          omega) hok
      refine ⟨selected, by simpa [hbefore] using hsel, ?_, ?_⟩
      · rcases hwhich with ⟨hsel, hkept⟩ | hsel
        · simpa [hbefore, hsel, hkept] using hfit
        · simpa [hbefore, hsel] using hfit
      rcases hwhich with ⟨hsel, -⟩ | hsel
      · exact Or.inl ⟨0, by simpa using hsel⟩
      · exact Or.inr ⟨hbefore, Or.inr ⟨[], es, lived, order, kept, rfl, by simp, hperm,
          hordered, hfront, hsel⟩⟩
    · rw [if_neg hfirst]
      exact hstop

theorem keepPayees_prefix (author : Hash) (N : U64) (ids : Finset Hash) (es : List WinEntry) :
    keepPayees author N ids es <+: es := by
  induction es generalizing ids with
  | nil => simp [keepPayees]
  | cons e es ih =>
    unfold keepPayees
    by_cases hover : N.val < (addEntry author ids e).card
    · simp [hover]
    · simp only [hover, if_false]
      exact (prefix_cons_inj e).mpr (ih _)

theorem nRule_spec (hsort : Sorts sort) (hbins : List.Forall₂ Backed bins selected)
    (hok : (nRule sort author N bins).status = .ok) :
    ∃ kept, List.Forall₂ Backed (nRule sort author N bins).bins kept ∧
      ((∃ n, kept = selected.take n) ∨ ∃ newest older order part, selected = newest :: older ∧
        order.Perm newest ∧ order.Pairwise NewerFirst ∧ part <+: order ∧ kept = [part]) := by
  cases hbins with
  | nil => exact ⟨[], List.Forall₂.nil, Or.inl ⟨0, rfl⟩⟩
  | @cons newest es older rest hnewest holder =>
    unfold nRule at hok ⊢
    by_cases hN : N = 0
    · simp only [hN, if_true]
      exact ⟨es :: rest, List.Forall₂.cons hnewest holder, Or.inl ⟨rest.length + 1, by simp⟩⟩
    simp only [hN, if_false] at hok ⊢
    cases hk : binsWithin author N ∅ (newest :: older) with
    | zero =>
      simp only [hk] at hok ⊢
      unfold cutPayees at hok ⊢
      rcases hnewest with ⟨hopen, hentries⟩ | ⟨⟨bin, hsealed⟩, -⟩
      · obtain ⟨hperm, hordered⟩ := hsort es
        simp only [hopen, hentries]
        refine ⟨[keepPayees author N ∅ (sort es)],
          List.Forall₂.cons (Or.inl ⟨rfl, rfl⟩) List.Forall₂.nil, Or.inr ?_⟩
        exact ⟨es, rest, sort es, _, rfl, hperm, hordered, keepPayees_prefix _ _ _ _, rfl⟩
      · simp [hsealed] at hok
    | succ k =>
      exact ⟨es :: rest.take k, List.Forall₂.cons hnewest (List.forall₂_take k holder),
        Or.inl ⟨k + 1, by simp⟩⟩

theorem take_filter {α : Type} (p : α → Bool) (l : List α) (j : Nat) :
    ∃ n, (l.filter p).take j = (l.take n).filter p := by
  induction l generalizing j with
  | nil => exact ⟨0, by simp⟩
  | cons a l ih =>
    by_cases ha : p a = true
    · cases j with
      | zero => exact ⟨0, by simp⟩
      | succ j =>
        obtain ⟨n, hn⟩ := ih j
        exact ⟨n + 1, by simp [ha, hn]⟩
    · obtain ⟨n, hn⟩ := ih j
      exact ⟨n + 1, by simp [ha, hn]⟩

theorem flatten_filter_ne_nil (l : List (List WinEntry)) :
    (l.filter (· ≠ [])).flatten = l.flatten := by
  induction l with
  | nil => rfl
  | cons es l ih =>
    by_cases hes : es = []
    · simp [hes, ← ih]
    · simp [hes, ← ih]

theorem prefix_of_recut {newest order kept order' part : List WinEntry}
    (hperm : order.Perm newest) (hordered : order.Pairwise NewerFirst) (hkept : kept <+: order)
    (hperm' : order'.Perm kept) (hordered' : order'.Pairwise NewerFirst) (hpart : part <+: order') :
    ∃ final, final.Perm newest ∧ final.Pairwise NewerFirst ∧ part <+: final := by
  obtain ⟨rest, rfl⟩ := hkept
  refine ⟨order' ++ rest, (hperm'.append_right rest).trans hperm, ?_,
    hpart.trans (prefix_append order' rest)⟩
  obtain ⟨-, hrest, hcross⟩ := pairwise_append.mp hordered
  refine pairwise_append.mpr ⟨hordered', hrest, ?_⟩
  intro a ha b hb
  exact hcross a (hperm'.subset ha) b hb

theorem newestPrefix_of_kept (hselected : Selects lived selected)
    (hkept : (∃ n, kept = selected.take n) ∨ ∃ newest older order part,
      selected = newest :: older ∧ order.Perm newest ∧ order.Pairwise NewerFirst ∧
        part <+: order ∧ kept = [part]) :
    NewestPrefix lived kept.flatten := by
  rcases hselected with ⟨n, rfl⟩ | ⟨empties, newest, older, order, cut, hlived, hempties, hperm,
    hordered, hcut, rfl⟩
  · rcases hkept with ⟨j, rfl⟩ | ⟨newest, older, order, part, hfirst, hperm, hordered, hpart, rfl⟩
    · obtain ⟨m, hm⟩ := take_filter (fun es : List WinEntry => decide (es ≠ [])) (lived.take n) j
      refine Or.inl ⟨min m n, ?_⟩
      rw [hm, flatten_filter_ne_nil, take_take]
    obtain ⟨empties, older', hsplit, hempties, -, -⟩ := filter_eq_cons_iff.mp hfirst
    refine Or.inr ⟨empties, newest, older' ++ lived.drop n, order, ?_, ?_, hperm, hordered, ?_⟩
    · rw [← cons_append, ← append_assoc, ← hsplit, take_append_drop]
    · intro es hes
      simpa using hempties es hes
    · simpa using hpart
  rcases hkept with ⟨j, rfl⟩ | ⟨newest', older', order', part, hfirst, hperm', hordered',
    hpart, rfl⟩
  · refine Or.inr ⟨empties, newest, older, order, hlived, hempties, hperm, hordered, ?_⟩
    cases j with
    | zero => simp
    | succ j => simpa using hcut
  have hsame : newest' = cut := (List.cons.inj hfirst).1.symm
  rw [hsame] at hperm'
  obtain ⟨final, hfinal, hsorted, hfront⟩ :=
    prefix_of_recut hperm hordered hcut hperm' hordered' hpart
  exact Or.inr ⟨empties, newest, older, final, hlived, hempties, hfinal, hsorted, by
    simpa using hfront⟩

theorem NewestPrefix.subperm (h : NewestPrefix lived entries) : entries.Subperm lived.flatten := by
  rcases h with ⟨n, rfl⟩ | ⟨empties, newest, older, order, rfl, -, hperm, -, hfront⟩
  · exact ((take_sublist n lived).flatten).subperm
  have hnewest : entries.Subperm newest := (hfront.sublist.subperm).trans hperm.subperm
  refine hnewest.trans (List.Sublist.subperm ?_)
  rw [flatten_append, flatten_cons]
  exact (sublist_append_left newest _).trans (sublist_append_right _ _)

theorem kept_subperm (hkept : (∃ n, kept = selected.take n) ∨ ∃ newest older order part,
      selected = newest :: older ∧ order.Perm newest ∧ order.Pairwise NewerFirst ∧
        part <+: order ∧ kept = [part]) : kept.flatten.Subperm selected.flatten := by
  rcases hkept with ⟨n, rfl⟩ | ⟨newest, older, order, part, rfl, hperm, -, hpart, rfl⟩
  · exact ((take_sublist n selected).flatten).subperm
  have hnewest : part.Subperm newest := (hpart.sublist.subperm).trans hperm.subperm
  refine (by simpa using hnewest : [part].flatten.Subperm newest).trans ?_
  exact (sublist_append_left newest _).subperm

/-- The bins that `window_from` resolves. -/
def keptBins (sort : List WinEntry → List WinEntry) (pulls : List BinPull) (dNet : BitVec 128)
    (B fSpend N : U64) (author : Hash) : List WinBin :=
  (nRule sort author N (selectWindowBinsFrom sort pulls dNet B fSpend).bins).bins

/-- The window that `window_from` resolves is over kept bins whose entries form a
newest-first prefix of the input within `W_max`. -/
theorem windowFrom_kept {B fSpend : U64} (hsort : Sorts sort)
    (hbins : List.Forall₂ Backed bins lived) (hsum : workSum lived.flatten < 2 ^ 256)
    {dNet : BitVec 128}
    (hok : (windowFrom sort (bins.map .bin) dNet B fSpend N author).status = .ok) :
    ∃ kept, (windowFrom sort (bins.map .bin) dNet B fSpend N author).window =
        { resolveBins (keptBins sort (bins.map .bin) dNet B fSpend N author) B fSpend author with
          emptyFinderOnly := (resolveBins (keptBins sort (bins.map .bin) dNet B fSpend N author)
            B fSpend author).weight.entries.isEmpty } ∧
      (nRule sort author N
        (selectWindowBinsFrom sort (bins.map .bin) dNet B fSpend).bins).status = .ok ∧
      List.Forall₂ Backed (keptBins sort (bins.map .bin) dNet B fSpend N author) kept ∧
      NewestPrefix lived kept.flatten ∧ Fits B fSpend kept.flatten := by
  unfold windowFrom at hok ⊢
  by_cases hselect : (selectWindowBinsFrom sort (bins.map .bin) dNet B fSpend).status = .ok
  · simp only [hselect, ne_eq, not_true_eq_false, if_false] at hok ⊢
    by_cases hrule : (nRule sort author N
        (selectWindowBinsFrom sort (bins.map .bin) dNet B fSpend).bins).status = .ok
    · simp only [hrule, not_true_eq_false, if_false]
      have hnone : Fits B fSpend [] := by
        intro e he
        cases he
      have hempty : Below none [] := by
        intro e he
        cases he
      obtain ⟨selected, hsel, hfit, hwhich⟩ :=
        @selectFrom_spec sort B fSpend hsort _ bins lived hbins [] [] List.Forall₂.nil none hempty
          hnone (by simpa using hsum) 0 hselect
      have hselects : Selects lived selected := by
        rcases hwhich with hwhole | ⟨-, hcut⟩
        · exact Or.inl hwhole
        · exact hcut
      obtain ⟨kept, hkept, hcut⟩ := nRule_spec hsort hsel hrule
      refine ⟨kept, rfl, trivial, hkept, newestPrefix_of_kept hselects hcut,
        hfit.subperm (kept_subperm hcut)⟩
    · simp only [hrule, not_false_eq_true, if_true] at hok
  · simp only [ne_eq, hselect, not_false_eq_true, if_true] at hok

end Source

end C2Pool.Xmr.PathB
