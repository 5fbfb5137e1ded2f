import C2Pool.Xmr.WindowSelect

/-! # The window pays out the reward

The split of a window gives each payee the floor of its exact share or one unit
more, and all of the reward; the root's sum is the work of the window.
-/

namespace C2Pool.Xmr.PathB

open Wide Apportion List
open C2Pool.V37 (Byte Bytes32)

theorem sum_promote (op : Hash × Work → Hash × Work → Hash)
    (level : List (Hash × Work)) :
    ((PairTree.promote (fun l r => (op l r, l.2 + r.2)) level).map Prod.snd).sum =
      (level.map Prod.snd).sum := by
  induction level using PairTree.pairUp.induct with
  | case1 l r rest ih => simp [PairTree.promote, ih, add_assoc]
  | case2 => rfl
  | case3 => rfl

theorem windowRoot_sum (sha : List Byte → Bytes32) (w : Window) :
    (windowRoot sha w).2 = (w.weight.entries.map Prod.snd).sum := by
  unfold windowRoot
  generalize hleaves : (w.weight.entries.map fun e => (windowSumLeaf sha e.1 e.2, e.2)) = leaves
  have hsum : (leaves.map Prod.snd).sum = (w.weight.entries.map Prod.snd).sum := by
    rw [← hleaves, List.map_map]
    rfl
  by_cases hne : leaves = []
  · rw [← hsum, hne]
    rfl
  obtain ⟨node, hnode, hroot⟩ := PairTree.promoteAll_spec
    (P := fun level => (level.map Prod.snd).sum = (leaves.map Prod.snd).sum)
    (fun level hlevel => (sum_promote (windowSumNode sha) level).trans hlevel) hne
    (Nat.le_succ leaves.length) rfl
  simp only [hnode, head?_cons, Option.getD_some]
  rw [← hsum, ← hroot]
  simp

/-! ## The split -/

def Window.floorOf (R : U64) (w : Window) (payee : Hash) : Nat :=
  R.val * (w.weight.amountAt payee).toNat / w.total.toNat

def Window.remainderOf (R : U64) (w : Window) (payee : Hash) : Nat :=
  R.val * (w.weight.amountAt payee).toNat % w.total.toNat

/-- The outputs pay out `R` by largest remainders: the payees in ascending order,
each its floor or one unit more, the extra units to the largest remainders with
ties to the lower identity, and nothing left over. -/
structure PaysOut (R : U64) (w : Window) (out : List SplitOutput) : Prop where
  payees : out.map SplitOutput.payee = w.weight.keys
  ascending : (out.map SplitOutput.payee).Pairwise (· < ·)
  total : (out.map fun o => o.amount.val).sum = R.val
  shares : ∃ extra : Finset Hash,
    (∀ o ∈ out, o.amount.val = w.floorOf R o.payee + if o.payee ∈ extra then 1 else 0) ∧
      ∀ x ∈ w.weight.keys, ∀ y ∈ w.weight.keys, x ∈ extra → y ∉ extra →
        w.remainderOf R y < w.remainderOf R x ∨ w.remainderOf R y = w.remainderOf R x ∧ x < y

section Split

variable {R : U64} {w : Window} {rows : List SplitRow} {r : SplitRow} {order : List Nat}
  {deficit : Nat}

theorem splitRows_eq (hpos : 0 < w.total.toNat)
    (hsum : (w.weight.entries.map fun e => e.2.toNat).sum = w.total.toNat) {r : SplitRow}
    (hr : r ∈ splitRows R w) :
    r.q.val = w.floorOf R r.payee ∧ r.rem.toNat = w.remainderOf R r.payee := by
  obtain ⟨e, he, rfl⟩ := List.mem_map.mp hr
  have hamount : w.weight.amountAt e.1 = e.2 := SortedMap.amountAt_of_mem he
  have hle : e.2.toNat ≤ w.total.toNat := by
    rw [← hsum]
    exact single_le_sum (fun _ _ => Nat.zero_le _) _ (mem_map_of_mem he)
  have hfits : Limbs.value 64 (mulU256U64 e.2 R) / w.total.toNat < 2 ^ 64 := by
    rw [value_mulU256U64]
    refine lt_of_le_of_lt (Nat.div_le_of_le_mul ?_) R.isLt
    exact Nat.mul_le_mul_right _ hle
  obtain ⟨hq, hrem⟩ := divmodU320U256_eq (bounded_mulU256U64 e.2 R) hpos hfits
  rw [value_mulU256U64, Nat.mul_comm] at hq hrem
  simp only [Window.floorOf, Window.remainderOf, hamount]
  exact ⟨hq, hrem⟩

theorem splitRows_payees : (splitRows R w).map SplitRow.payee = w.weight.keys := by
  unfold splitRows SortedMap.keys
  rw [List.map_map]
  rfl

theorem splitRows_floors (hpos : 0 < w.total.toNat)
    (hsum : (w.weight.entries.map fun e => e.2.toNat).sum = w.total.toNat) :
    ((splitRows R w).map fun r => r.q.val) =
      (w.weight.entries.map fun e => e.2.toNat).map fun n => R.val * n / w.total.toNat := by
  have h : ((splitRows R w).map fun r => r.q.val) =
      ((splitRows R w).map SplitRow.payee).map fun x => w.floorOf R x := by
    rw [List.map_map]
    apply map_congr_left
    intro r hr
    exact (splitRows_eq hpos hsum hr).1
  rw [h, splitRows_payees, SortedMap.keys, List.map_map, List.map_map]
  apply map_congr_left
  intro e he
  simp [Window.floorOf, SortedMap.amountAt_of_mem he]

theorem foldl_q_val (rows : List SplitRow) (a : U64)
    (h : a.val + (rows.map fun r => r.q.val).sum < 2 ^ 64) :
    (rows.foldl (fun sum r => sum + r.q) a).val = a.val + (rows.map fun r => r.q.val).sum := by
  induction rows generalizing a with
  | nil => simp
  | cons r rows ih =>
    rw [map_cons, sum_cons] at h
    have hstep : (a + r.q).val = a.val + r.q.val := by
      rw [Fin.val_add]
      exact Nat.mod_eq_of_lt (by omega)
    rw [foldl_cons, ih (a + r.q) (by omega), hstep, map_cons, sum_cons]
    omega

/-- The units that the floors leave over are as many as the loop hands out. -/
theorem deficit_eq (hpos : 0 < w.total.toNat)
    (hsum : (w.weight.entries.map fun e => e.2.toNat).sum = w.total.toNat) :
    ((splitRows R w).map fun r => r.q.val).sum +
        (R - (splitRows R w).foldl (fun sum r => sum + r.q) 0).val = R.val ∧
      (R - (splitRows R w).foldl (fun sum r => sum + r.q) 0).val < (splitRows R w).length := by
  obtain ⟨hle, hlt⟩ := floors_deficit (R := R.val) hsum hpos
  rw [← splitRows_floors hpos hsum] at hle hlt
  have hassigned := foldl_q_val (splitRows R w) 0 (by
    simp only [Fin.val_zero]
    omega)
  rw [Fin.val_zero, Nat.zero_add] at hassigned
  have hsub : (R - (splitRows R w).foldl (fun sum r => sum + r.q) 0).val =
      R.val - ((splitRows R w).map fun r => r.q.val).sum := by
    rw [Fin.sub_val_of_le (by rw [Fin.le_def, hassigned]; exact hle), hassigned]
  have hlength : (splitRows R w).length = (w.weight.entries.map fun e => e.2.toNat).length := by
    simp [splitRows]
  omega

def payeesAt (rows : List SplitRow) (chosen : List Nat) : Finset Hash :=
  (chosen.filterMap fun i => rows[i]?.map SplitRow.payee).toFinset

theorem mem_payeesAt (hnodup : (rows.map SplitRow.payee).Nodup) {chosen : List Nat} {i : Nat}
    (hi : rows[i]? = some r) : r.payee ∈ payeesAt rows chosen ↔ i ∈ chosen := by
  have hpayee : (rows.map SplitRow.payee)[i]? = some r.payee := by
    rw [getElem?_map, hi]
    rfl
  unfold payeesAt
  rw [mem_toFinset, mem_filterMap]
  constructor
  · rintro ⟨j, hj, heq⟩
    rw [← getElem?_map] at heq
    have hlt := (List.getElem?_eq_some_iff.mp hpayee).1
    rwa [(List.getElem?_inj hlt hnodup).mp (hpayee.trans heq.symm)]
  · intro hmem
    exact ⟨i, hmem, by rw [hi]; rfl⟩

/-- The rows after the extra units of `split`, by the position of their payees. -/
def bump (rows : List SplitRow) (order : List Nat) (deficit : Nat) : List SplitRow :=
  Apportion.bumpFirst (fun r => { r with q := r.q + 1 }) rows order deficit

theorem bump_payees (rows : List SplitRow) (hnodup : order.Nodup)
    (deficit : Nat) : (bump rows order deficit).map SplitRow.payee = rows.map SplitRow.payee := by
  apply ext_getElem?
  intro i
  rw [getElem?_map, getElem?_map, bump, Apportion.getElem?_bumpFirst _ _ hnodup]
  split
  · cases rows[i]? with
    | none => rfl
    | some r => rfl
  · rfl

theorem bump_room (hdeficit : (rows.map fun r => r.q.val).sum + deficit < 2 ^ 64)
    (hpos : 0 < deficit) (hr : r ∈ rows) : (r.q + 1).val = r.q.val + 1 := by
  have hle : r.q.val ≤ (rows.map fun r => r.q.val).sum :=
    single_le_sum (fun _ _ => Nat.zero_le _) _ (mem_map_of_mem hr)
  rw [Fin.val_add, Fin.val_one']
  exact Nat.mod_eq_of_lt (by omega)

theorem bump_total (hnodup : order.Nodup) (hlt : ∀ j ∈ order, j < rows.length)
    (hk : deficit ≤ order.length) (hdeficit : (rows.map fun r => r.q.val).sum + deficit < 2 ^ 64) :
    ((bump rows order deficit).map fun r => r.q.val).sum =
      (rows.map fun r => r.q.val).sum + deficit := by
  apply sum_bumpFirst _ _ _ hnodup hk
  intro j hj
  have hjlt := hlt j (mem_of_mem_take hj)
  refine ⟨rows[j], getElem?_eq_getElem hjlt, bump_room hdeficit ?_ (getElem_mem hjlt)⟩
  by_contra hzero
  have hd : deficit = 0 := by omega
  simp [hd] at hj

theorem bump_amount (hpayees : (rows.map SplitRow.payee).Nodup) (hnodup : order.Nodup)
    (hdeficit : (rows.map fun r => r.q.val).sum + deficit < 2 ^ 64)
    (hr : r ∈ bump rows order deficit) :
    ∃ s ∈ rows, s.payee = r.payee ∧ r.q.val =
      s.q.val + if r.payee ∈ payeesAt rows (order.take deficit) then 1 else 0 := by
  obtain ⟨i, hi⟩ := mem_iff_getElem?.mp hr
  rw [bump, Apportion.getElem?_bumpFirst _ _ hnodup] at hi
  by_cases hmem : i ∈ order.take deficit
  · rw [if_pos hmem] at hi
    obtain ⟨s, hs, rfl⟩ := Option.map_eq_some_iff.mp hi
    have hpos : 0 < deficit := by
      by_contra hzero
      have hd : deficit = 0 := by omega
      simp [hd] at hmem
    refine ⟨s, mem_of_getElem? hs, rfl, ?_⟩
    rw [if_pos ((mem_payeesAt hpayees hs).mpr hmem)]
    exact bump_room hdeficit hpos (mem_of_getElem? hs)
  rw [if_neg hmem] at hi
  refine ⟨r, mem_of_getElem? hi, rfl, ?_⟩
  rw [if_neg fun h => hmem ((mem_payeesAt hpayees hi).mp h), Nat.add_zero]

theorem chosen_ahead (hsorted : (rows.map SplitRow.payee).Pairwise (· < ·)) {s : SplitRow}
    (hr : r ∈ rows) (hs : s ∈ rows) (hin : r.payee ∈ payeesAt rows ((rankRows rows).take deficit))
    (hout : s.payee ∉ payeesAt rows ((rankRows rows).take deficit)) :
    s.rem.toNat < r.rem.toNat ∨ s.rem.toNat = r.rem.toNat ∧ r.payee < s.payee := by
  have hpayees : (rows.map SplitRow.payee).Nodup := hsorted.imp fun h => ne_of_lt h
  obtain ⟨i, hi⟩ := List.mem_iff_getElem?.mp hr
  obtain ⟨j, hj⟩ := List.mem_iff_getElem?.mp hs
  have hjlt : j < rows.length := (List.getElem?_eq_some_iff.mp hj).1
  have hahead := ahead_of_chosen ((mem_payeesAt hpayees hi).mp hin)
    (fun h => hout ((mem_payeesAt hpayees hj).mpr h)) hjlt
  simp only [Apportion.Ahead, hi, hj, Option.map_some, Option.getD_some] at hahead
  rcases hahead with hlt | ⟨heq, hij⟩
  · exact Or.inl hlt
  refine Or.inr ⟨heq, ?_⟩
  rw [List.pairwise_map] at hsorted
  have hpair := pairwise_iff_getElem.mp hsorted i j (List.getElem?_eq_some_iff.mp hi).1 hjlt hij
  rwa [(List.getElem?_eq_some_iff.mp hi).2, (List.getElem?_eq_some_iff.mp hj).2] at hpair

theorem split_eq (hne : w.weight.entries ≠ [])
    (hwork : (w.weight.entries.map Prod.snd).sum = w.total) :
    split R w = (bump (splitRows R w) (rankRows (splitRows R w))
      (R - (splitRows R w).foldl (fun sum r => sum + r.q) 0).val).map fun r =>
        { payee := r.payee, amount := r.q } := by
  have hguard : (w.weight.entries.isEmpty || !weightsSumToW w) = false := by
    have hfold : w.weight.entries.foldl (fun sum e => sum + e.2) 0 = w.total := by
      rw [← foldl_map, foldl_add_eq_sum, zero_add]
      exact hwork
    simpa [hne, weightsSumToW] using hfold
  unfold split
  simp only [hguard, Bool.false_eq_true, if_false]
  rfl

theorem split_paysOut (hpos : 0 < w.total.toNat) (hwork : (w.weight.entries.map Prod.snd).sum =
      w.total) (hsum : (w.weight.entries.map fun e => e.2.toNat).sum = w.total.toNat) :
    PaysOut R w (split R w) := by
  have hne : w.weight.entries ≠ [] := by
    intro hnil
    rw [hnil, List.map_nil, List.sum_nil] at hsum
    omega
  obtain ⟨hdeficit, hlt⟩ := deficit_eq (R := R) hpos hsum
  have hrow := @splitRows_eq R w hpos hsum
  have hpayees := @splitRows_payees R w
  have hkeys : w.weight.keys.Pairwise (· < ·) := by
    unfold SortedMap.keys
    rw [List.pairwise_map]
    exact w.weight.sorted
  rw [split_eq hne hwork]
  generalize (R - (splitRows R w).foldl (fun sum r => sum + r.q) 0).val = deficit at hdeficit hlt
  generalize splitRows R w = rows at *
  have hsorted : (rows.map SplitRow.payee).Pairwise (· < ·) := hpayees ▸ hkeys
  have hfit : (rows.map fun r => r.q.val).sum + deficit < 2 ^ 64 := hdeficit ▸ R.isLt
  have hnodup : (rankRows rows).Nodup := ranking_nodup _ _
  have hout := bump_payees rows hnodup deficit
  constructor
  · rw [List.map_map]
    exact hout.trans hpayees
  · rw [List.map_map]
    exact hout.symm ▸ hsorted
  · rw [List.map_map]
    exact (bump_total hnodup (fun j hj => mem_ranking.mp hj)
      (by simpa [rankRows] using hlt.le) hfit).trans hdeficit
  · refine ⟨payeesAt rows ((rankRows rows).take deficit), ?_, ?_⟩
    · intro o ho
      obtain ⟨r, hr, rfl⟩ := List.mem_map.mp ho
      obtain ⟨s, hs, hpayee, hamount⟩ :=
        bump_amount (hsorted.imp fun h => ne_of_lt h) hnodup hfit hr
      rw [← hpayee, ← (hrow hs).1, hpayee]
      exact hamount
    intro x hx y hy hin hnot
    rw [← hpayees] at hx hy
    obtain ⟨r, hr, rfl⟩ := List.mem_map.mp hx
    obtain ⟨s, hs, rfl⟩ := List.mem_map.mp hy
    rw [← (hrow hr).2, ← (hrow hs).2]
    exact chosen_ahead hsorted hr hs hin hnot

end Split

theorem Backed.sourceRows_nil {b : WinBin} (h : Backed b []) : b.sourceRows = [] := by
  rcases h with ⟨hopen, hentries⟩ | ⟨⟨bin, hsealed⟩, -⟩
  · simp [WinBin.sourceRows, hopen, hentries]
  · simp [WinBin.sourceRows, hsealed, sealFromEntries, rowsOf, groupRows_eq_nil]

theorem weight_nil_of_no_entries {bins : List WinBin} {lived : List (List WinEntry)}
    (hbins : List.Forall₂ Backed bins lived) (hnone : lived.flatten = []) (B fSpend : U64)
    (author : Hash) : (resolveBins bins B fSpend author).weight.entries = [] := by
  have hrows : bins.flatMap WinBin.sourceRows = [] := by
    induction hbins with
    | nil => rfl
    | cons hb _ ih =>
      rw [flatten_cons, append_eq_nil_iff] at hnone
      rw [hnone.1] at hb
      rw [flatMap_cons, hb.sourceRows_nil, ih hnone.2, nil_append]
  have hgroup : rowsOfBins bins = [] := by
    rw [rowsOfBins, groupRows_eq_nil]
    exact hrows
  have hmerges : authorMerges [] (workOfBins bins) B fSpend author = true := by
    simp [authorMerges, authorWeight]
  unfold resolveBins
  rw [hgroup]
  unfold resolveRows
  rw [hmerges]
  rfl

/-- Whenever a window is evaluated, its entries are a newest-first prefix of the
input within `W_max`, its weights and the sum of its root are the work of these
entries, and the split pays out exactly the reward. -/
theorem window_pays_reward {sort : List WinEntry → List WinEntry} (hsort : Sorts sort)
    (sha : List Byte → Bytes32) {bins : List WinBin} {lived : List (List WinEntry)}
    (hbins : List.Forall₂ Backed bins lived) (hvalid : ∀ es ∈ lived, ∀ e ∈ es, e.Valid)
    (hsum : workSum lived.flatten < 2 ^ 255) (dNet : BitVec 128) (B fSpend N : U64) (author : Hash)
    (R : U64) (hok : (windowFrom sort (bins.map .bin) dNet B fSpend N author).status = .ok) :
    let w := (windowFrom sort (bins.map .bin) dNet B fSpend N author).window
    ∃ kept entries, List.Forall₂ Backed kept entries ∧
      w = { resolveBins kept B fSpend author with emptyFinderOnly := w.weight.entries.isEmpty } ∧
      NewestPrefix lived entries.flatten ∧
      (∀ e ∈ entries.flatten, w.total.toNat * fSpend.val ≤ B.val * e.work.val) ∧
      w.total.toNat = workSum entries.flatten ∧
      (w.weight.entries.map fun e => e.2.toNat).sum = w.total.toNat ∧
      (windowRoot sha w).2 = w.total ∧
      (w.weight.entries ≠ [] → PaysOut R w (split R w)) := by
  obtain ⟨entries, hwindow, -, hkept, hfront, hfits⟩ :=
    windowFrom_kept hsort hbins (lt_trans hsum (by decide)) hok
  have hsub := hfront.subperm
  have hkeptSum : workSum entries.flatten < 2 ^ 256 :=
    lt_of_le_of_lt (workSum_le_of_subperm hsub) (lt_trans hsum (by decide))
  have hkeptValid : ∀ es ∈ entries, ∀ e ∈ es, e.Valid := by
    intro es hes e he
    obtain ⟨es', hes', he'⟩ := mem_flatten.mp (hsub.subset (mem_flatten.mpr ⟨es, hes, he⟩))
    exact hvalid es' hes' e he'
  obtain ⟨htotal, hwork, hweights⟩ :=
    resolveBins_conserves hkept hkeptValid hkeptSum B fSpend author
  intro w
  have hw : w = { resolveBins (keptBins sort (bins.map .bin) dNet B fSpend N author) B fSpend author
      with
      emptyFinderOnly := (resolveBins (keptBins sort (bins.map .bin) dNet B fSpend N author) B
        fSpend author).weight.entries.isEmpty } := hwindow
  have hwTotal : w.total.toNat = workSum entries.flatten := by
    rw [hw]
    exact htotal
  have hwWork : (w.weight.entries.map Prod.snd).sum = w.total := by
    rw [hw]
    exact hwork
  have hwWeights : (w.weight.entries.map fun e => e.2.toNat).sum = w.total.toNat := by
    rw [hw]
    exact hweights.trans htotal.symm
  refine ⟨_, entries, hkept, ?_, hfront, ?_, hwTotal, hwWeights, ?_, ?_⟩
  · rw [hw]
  · intro e he
    rw [hwTotal]
    exact hfits e he
  · rw [windowRoot_sum, hwWork]
  · intro hne
    apply split_paysOut _ hwWork hwWeights
    by_contra hzero
    apply hne
    rw [hw]
    apply weight_nil_of_no_entries hkept
    apply eq_nil_iff_forall_not_mem.mpr
    intro e he
    obtain ⟨es, hes, he'⟩ := mem_flatten.mp he
    have hpos := (hkeptValid es hes e he').work_pos
    have hle : e.work.val ≤ workSum entries.flatten :=
      single_le_sum (fun _ _ => Nat.zero_le _) _ (mem_map_of_mem he)
    rw [Fin.lt_def, Fin.val_zero] at hpos
    omega

def sampleEntries : List (List WinEntry) :=
  [[{ miner := 1, owner := 7, work := 30000, p := 500, giveAuthorBp := 100, position := 3,
      id := 4 },
    { miner := 2, work := 20000, position := 4, id := 5 }],
   [{ miner := 7, work := 25000, position := 1, id := 6 }]]

def sampleBins : List WinBin :=
  [{ bin := 12, entries := sampleEntries.getD 0 [] },
   { bin := 11, bucket := some (sealFromEntries 11 (sampleEntries.getD 1 [])) }]

theorem window_pays_reward_sample :
    ∃ kept entries, List.Forall₂ Backed kept entries ∧
      NewestPrefix sampleEntries entries.flatten ∧
      (windowFrom sortNewestFirst (sampleBins.map .bin) 50000 600000 120000 10
        9).window.total.toNat =
        workSum entries.flatten ∧
      PaysOut 1000003
        (windowFrom sortNewestFirst (sampleBins.map .bin) 50000 600000 120000 10 9).window
        (split 1000003
          (windowFrom sortNewestFirst (sampleBins.map .bin) 50000 600000 120000 10 9).window) := by
  have hbacked : List.Forall₂ Backed sampleBins sampleEntries := by
    refine List.Forall₂.cons (Or.inl ⟨rfl, rfl⟩) (List.Forall₂.cons (Or.inr ⟨⟨11, rfl⟩, rfl⟩) ?_)
    exact List.Forall₂.nil
  have hvalid : ∀ es ∈ sampleEntries, ∀ e ∈ es, e.Valid := by
    have hall : ∀ es ∈ sampleEntries, ∀ e ∈ es,
        0 < e.work ∧ e.p.val + e.giveAuthorBp.val ≤ 10000 ∧ (e.owner = 0 ↔ e.p = 0) := by
      decide +kernel
    intro es hes e he
    exact ⟨(hall es hes e he).1, (hall es hes e he).2.1, (hall es hes e he).2.2⟩
  obtain ⟨kept, entries, hkept, -, hfront, -, htotal, -, -, hpays⟩ :=
    window_pays_reward sorts_sortNewestFirst (fun _ => 0) hbacked hvalid (by decide +kernel)
      50000 600000 120000 10 9 1000003 (by decide +kernel)
  exact ⟨kept, entries, hkept, hfront, htotal, hpays (by decide +kernel)⟩

end C2Pool.Xmr.PathB
