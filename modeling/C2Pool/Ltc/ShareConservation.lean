import C2Pool.Ltc.MergedConservation
import C2Pool.Ltc.ShareAmounts

/-! # A share's coinbase pays out its subsidy

The floors and the finder's fee stay below the subsidy, the donation takes the rest,
and only the cut to 4000 outputs and a payout to the P2PK donation script lose value.
-/

namespace C2Pool.Ltc

open Sharechain FiniteMap AmountMap Finset Nat

def totalOfWeights (weights : FiniteMap Script UInt288) : Nat :=
  ∑ s ∈ weights.keys, ((weights.lookup s).getD 0).toNat

theorem weight_le_totalOfWeights (weights : FiniteMap Script UInt288) (s : Script) :
    ((weights.lookup s).getD 0).toNat ≤ totalOfWeights weights := amount_le_total weights s

variable {totalWeight : UInt288} {weights : FiniteMap Script UInt288}

theorem toNat_shareAmount_le (v36 : Bool) (subsidy : BitVec 64) (weight : UInt288)
    (hbound : totalWeight.toNat < 2 ^ 216) (hweight : weight.toNat ≤ totalWeight.toNat) :
    (shareAmount v36 subsidy totalWeight weight).toNat ≤
      if v36 then subsidy.toNat * weight.toNat / totalWeight.toNat
      else subsidy.toNat * (weight.toNat * 199) / (totalWeight.toNat * 200) := by
  cases v36 with
  | true => exact toNat_quotient_le subsidy weight totalWeight
  | false =>
    have h199 : (weight * 199).toNat = weight.toNat * 199 := by
      exact mod_eq_of_lt (by simp; omega)
    have h200 : (totalWeight * 200).toNat = totalWeight.toNat * 200 := by
      exact mod_eq_of_lt (by simp; omega)
    have hle := toNat_quotient_le subsidy (weight * 199) (totalWeight * 200)
    rw [h199, h200] at hle
    exact hle

theorem foldl_insert_total {f : Script → BitVec 64} {keys : List Script} (hnodup : keys.Nodup)
    {acc : Payouts} (hnew : ∀ s ∈ keys, amount acc s = 0) :
    total (keys.foldl (fun amounts s => if 0 < f s then amounts.insert s (f s) else amounts) acc) =
      total acc + (keys.map fun s => (f s).toNat).sum := by
  induction keys generalizing acc with
  | nil => simp
  | cons s keys ih =>
    obtain ⟨hs, hnodup'⟩ := List.nodup_cons.mp hnodup
    have hzero := hnew s (by simp)
    rw [List.foldl_cons, List.map_cons, List.sum_cons]
    by_cases hpos : 0 < f s
    · rw [if_pos hpos, ih hnodup']
      · have hinsert := total_insert acc s (f s)
        omega
      intro s' hs'
      have hne : s' ≠ s := fun heq => hs (by rw [← heq]; exact hs')
      rw [amount_insert, if_neg hne]
      exact hnew s' (by simp [hs'])
    have hnat : (f s).toNat = 0 := by
      by_contra hne
      exact hpos (pos_of_ne_zero hne)
    rw [if_neg hpos, ih hnodup' fun s' hs' => hnew s' (by simp [hs']), hnat, zero_add]

theorem total_weighAmounts_le (v36 : Bool) (subsidy : BitVec 64)
    (hbound : totalWeight.toNat < 2 ^ 216)
    (hweights : totalOfWeights weights ≤ totalWeight.toNat) :
    if v36 then total (weighAmounts v36 subsidy totalWeight weights) ≤ subsidy.toNat
    else 200 * total (weighAmounts v36 subsidy totalWeight weights) ≤ 199 * subsidy.toNat := by
  have hempty : ∀ s ∈ weights.keys.sort, amount (∅ : Payouts) s = 0 := fun s _ => amount_empty s
  by_cases hzero : totalWeight = 0
  · have hnone : total (weighAmounts v36 subsidy totalWeight weights) = 0 := by
      unfold weighAmounts
      rw [if_pos hzero, total_empty]
    rw [hnone]
    cases v36 <;> simp
  have hsum : total (weighAmounts v36 subsidy totalWeight weights) =
      (weights.keys.sort.map fun s =>
        (shareAmount v36 subsidy totalWeight ((weights.lookup s).getD 0)).toNat).sum := by
    unfold weighAmounts
    rw [if_neg hzero]
    rw [foldl_insert_total (sort_nodup _ _) hempty, total_empty, zero_add]
  have hpos : 0 < totalWeight.toNat := by
    apply pos_of_ne_zero
    intro h
    exact hzero (BitVec.eq_of_toNat_eq (by simpa using h))
  have hfloors : (weights.keys.sort.map fun s =>
        (shareAmount v36 subsidy totalWeight ((weights.lookup s).getD 0)).toNat).sum ≤
      (weights.keys.sort.map fun s =>
        if v36 then subsidy.toNat * ((weights.lookup s).getD 0).toNat / totalWeight.toNat
        else subsidy.toNat * (((weights.lookup s).getD 0).toNat * 199) /
          (totalWeight.toNat * 200)).sum := by
    apply List.sum_le_sum
    intro s _
    exact toNat_shareAmount_le v36 subsidy _ hbound
      (le_trans (weight_le_totalOfWeights weights s) hweights)
  rw [hsum]
  cases v36 with
  | true =>
    have hle := sum_floor_le subsidy.toNat totalWeight.toNat
      (le_trans (le_of_eq (sum_map_sort weights.keys fun s =>
        ((weights.lookup s).getD 0).toNat)) hweights)
    rw [List.map_map] at hle
    exact le_trans hfloors hle
  | false =>
    have hmul := mul_sum_floor_le subsidy.toNat (totalWeight.toNat * 200)
      (weights.keys.sort.map fun s => ((weights.lookup s).getD 0).toNat * 199)
    rw [List.map_map, sum_map_sort weights.keys fun s => ((weights.lookup s).getD 0).toNat * 199,
      ← sum_mul] at hmul
    have hscaled : totalWeight.toNat * (200 * (weights.keys.sort.map fun s =>
        subsidy.toNat * (((weights.lookup s).getD 0).toNat * 199) /
          (totalWeight.toNat * 200)).sum) ≤ totalWeight.toNat * (199 * subsidy.toNat) := by
      rw [← mul_assoc]
      refine le_trans hmul ?_
      calc subsidy.toNat * (totalOfWeights weights * 199)
          ≤ subsidy.toNat * (totalWeight.toNat * 199) :=
            Nat.mul_le_mul_left _ (mul_le_mul_right _ hweights)
        _ = totalWeight.toNat * (199 * subsidy.toNat) := by
            rw [mul_comm subsidy.toNat, mul_assoc]
    have hcut := Nat.le_of_mul_le_mul_left hscaled hpos
    exact le_trans (Nat.mul_le_mul_left 200 hfloors) hcut

theorem total_payAmounts_le (v36 : Bool) (subsidy : BitVec 64) (finderScript : Script)
    (hbound : totalWeight.toNat < 2 ^ 216)
    (hweights : totalOfWeights weights ≤ totalWeight.toNat) :
    total (payAmounts v36 subsidy totalWeight weights finderScript) ≤ subsidy.toNat := by
  have hle := total_weighAmounts_le v36 subsidy hbound hweights
  unfold payAmounts
  cases v36 with
  | true => exact hle
  | false =>
    simp only [Bool.false_eq_true, if_false] at hle ⊢
    have hfee : (subsidy / 200).toNat = subsidy.toNat / 200 := by
      rfl
    have hone := amount_le_total (weighAmounts false subsidy totalWeight weights) finderScript
    rw [total_add (by rw [hfee]; omega), hfee]
    omega

theorem toNat_sumAmounts {amounts : Payouts} (h : total amounts < 2 ^ 64) :
    (sumAmounts amounts).toNat = total amounts := by
  have hsum : ∀ keys : List Script,
      ((keys.map fun s => (amounts.lookup s).getD 0).sum).toNat =
        (keys.map (amount amounts)).sum % 2 ^ 64 := by
    intro keys
    induction keys with
    | nil => rfl
    | cons s keys ih =>
      rw [List.map_cons, List.sum_cons, BitVec.toNat_add, ih, toNat_lookup, List.map_cons,
        List.sum_cons, Nat.add_mod_mod]
  unfold sumAmounts
  rw [hsum, sum_map_sort]
  exact mod_eq_of_lt h

theorem takeDonation_total {v36 : Bool} {subsidy : BitVec 64} {amounts : Payouts}
    (hle : total amounts ≤ subsidy.toNat) (hpos : 0 < subsidy.toNat) :
    total (takeDonation v36 subsidy amounts).1 + (takeDonation v36 subsidy amounts).2.toNat =
        subsidy.toNat ∧
      (v36 = true → 1 ≤ (takeDonation v36 subsidy amounts).2.toNat) := by
  have hsum := @toNat_sumAmounts amounts (by omega)
  have hrest : (if sumAmounts amounts < subsidy then subsidy - sumAmounts amounts else 0).toNat =
      subsidy.toNat - total amounts := by
    by_cases hlt : sumAmounts amounts < subsidy
    · rw [if_pos hlt, BitVec.toNat_sub_of_le
      (show sumAmounts amounts ≤ subsidy from Nat.le_of_lt hlt),
        hsum]
    have hge : subsidy.toNat ≤ total amounts := by
      rw [← hsum]
      exact Nat.le_of_not_lt hlt
    rw [if_neg hlt]
    simp only [BitVec.ofNat_eq_ofNat, BitVec.toNat_ofNat, zero_mod]
    omega
  unfold takeDonation
  simp only
  generalize hdonation : (if sumAmounts amounts < subsidy then subsidy - sumAmounts amounts
    else 0) = donation at hrest ⊢
  by_cases hrule : v36 = true ∧ donation < 1 ∧ 0 < subsidy
  · have hnone : donation.toNat = 0 := lt_one_iff.mp hrule.2.1
    obtain ⟨s, hlargest, hamount⟩ := @largestPayout_some amounts (by omega)
    rw [if_pos hrule, hlargest]
    simp only
    rw [if_pos (show 0 < (ofLex (toLex (amount amounts s, s))).1 from hamount)]
    simp only [ofLex_toLex]
    have hone : ((amounts.lookup s).getD 0 - 1).toNat = amount amounts s - 1 :=
      BitVec.toNat_sub_of_le hamount
    have hinsert := total_insert amounts s ((amounts.lookup s).getD 0 - 1)
    have hless : (sumAmounts amounts - 1).toNat = total amounts - 1 := by
      rw [BitVec.toNat_sub_of_le (show 1 ≤ (sumAmounts amounts).toNat by omega), hsum]
      rfl
    have hdonated : (subsidy - (sumAmounts amounts - 1)).toNat =
        subsidy.toNat - (total amounts - 1) := by
      rw [BitVec.toNat_sub_of_le (show (sumAmounts amounts - 1).toNat ≤ subsidy.toNat by omega),
        hless]
    exact ⟨by omega, fun _ => by omega⟩
  rw [if_neg hrule]
  refine ⟨by simp only; omega, ?_⟩
  intro hv36
  by_contra hzero
  refine hrule ⟨hv36, ?_, hpos⟩
  exact Nat.lt_of_not_le hzero

def payoutSum (payouts : List (Script × BitVec 64)) : Nat := (payouts.map fun e => e.2.toNat).sum

theorem payoutSum_keepLargest_le (payouts : List (Script × BitVec 64)) :
    payoutSum (keepLargest payouts) ≤ payoutSum payouts := by
  unfold payoutSum keepLargest
  have hperm := (List.mergeSort_perm payouts fun a b => !payoutLess b a).map
    fun e : Script × BitVec 64 => e.2.toNat
  rw [← hperm.sum_eq]
  exact ((List.drop_sublist _ _).map _).sum_le_sum fun _ _ => zero_le _

theorem payoutSum_keepLargest {payouts : List (Script × BitVec 64)}
    (h : payouts.length ≤ maxOutputs) : payoutSum (keepLargest payouts) = payoutSum payouts := by
  unfold payoutSum keepLargest
  simp only
  have hperm := (List.mergeSort_perm payouts fun a b => !payoutLess b a).map
    fun e : Script × BitVec 64 => e.2.toNat
  rw [List.length_mergeSort, Nat.sub_eq_zero_of_le h, List.drop_zero, hperm.sum_eq]

theorem total_split (amounts : Payouts) (combined p2pk : Script) :
    payoutSum (((amounts.keys.erase combined).erase p2pk).sort.map fun s =>
        (s, (amounts.lookup s).getD 0)) + amount amounts combined +
      (if p2pk = combined then 0 else amount amounts p2pk) = total amounts := by
  have hsum : payoutSum (((amounts.keys.erase combined).erase p2pk).sort.map fun s =>
      (s, (amounts.lookup s).getD 0)) =
        ∑ s ∈ (amounts.keys.erase combined).erase p2pk, amount amounts s := by
    unfold payoutSum
    rw [List.map_map, ← sum_map_sort]
    rfl
  have herase : ∀ (keys : Finset Script) (s : Script), (s ∉ keys → amount amounts s = 0) →
      ∑ k ∈ keys.erase s, amount amounts k + amount amounts s = ∑ k ∈ keys, amount amounts k := by
    intro keys s hs
    by_cases hmem : s ∈ keys
    · exact sum_erase_add _ _ hmem
    · rw [erase_eq_of_notMem hmem, hs hmem, add_zero]
  have hcombined := herase amounts.keys combined amount_of_notMem
  rw [hsum]
  by_cases hsame : p2pk = combined
  · subst hsame
    rw [erase_idem, if_pos rfl]
    unfold total
    omega
  have hp2pk := herase (amounts.keys.erase combined) p2pk fun h => amount_of_notMem fun hmem =>
    h (mem_erase.mpr ⟨hsame, hmem⟩)
  rw [if_neg hsame]
  unfold total
  omega

theorem ShareTerms.outputs_eq (share : ShareTerms) (v36Active : Bool) (totalWeight : UInt288)
    (weights : FiniteMap Script UInt288) :
    share.outputs v36Active totalWeight weights =
      { payouts := keepLargest (((((share.amounts v36Active totalWeight weights).1.keys.erase
          share.combinedDonationScript).erase share.p2pkDonationScript).sort.map fun s =>
            (s, ((share.amounts v36Active totalWeight weights).1.lookup s).getD 0)))
        donation := (share.amounts v36Active totalWeight weights).2 +
          ((share.amounts v36Active totalWeight weights).1.lookup
            share.combinedDonationScript).getD 0 } := by
  simp only [ShareTerms.outputs, buildPayoutOutputsExcludingDonation]

/-- The coinbase of a share never pays more than the subsidy; it pays exactly the subsidy
when at most 4000 destinations are paid and none of them is the P2PK donation script; and
a V36 share donates at least one satoshi. -/
theorem share_amounts_conserve (share : ShareTerms) (v36Active : Bool)
    (weights : FiniteMap Script UInt288) (totalWeight donationWeight : UInt288)
    (hweights : totalOfWeights weights + donationWeight.toNat ≤ totalWeight.toNat)
    (hbound : totalWeight.toNat < 2 ^ 216) (hsubsidy : 0 < share.subsidy.toNat) :
    let amounts := (share.amounts v36Active totalWeight weights).1
    let out := share.outputs v36Active totalWeight weights
    payoutSum out.payouts + out.donation.toNat ≤ share.subsidy.toNat ∧
      (((amounts.keys.erase share.combinedDonationScript).erase share.p2pkDonationScript).card ≤
          4000 → share.p2pkDonationScript ∉ amounts →
        payoutSum out.payouts + out.donation.toNat = share.subsidy.toNat) ∧
      (36 ≤ share.version → 1 ≤ out.donation.toNat) := by
  have hle := total_payAmounts_le (share.useV36 v36Active) share.subsidy share.finderScript hbound
    (show totalOfWeights weights ≤ totalWeight.toNat by omega)
  have hpaid : total (share.amounts v36Active totalWeight weights).1 +
        (share.amounts v36Active totalWeight weights).2.toNat = share.subsidy.toNat ∧
      (share.useV36 v36Active = true →
        1 ≤ (share.amounts v36Active totalWeight weights).2.toNat) :=
    takeDonation_total hle hsubsidy
  simp only [share.outputs_eq]
  generalize share.amounts v36Active totalWeight weights = paid at hpaid ⊢
  obtain ⟨htotal, hone⟩ := hpaid
  have hsplit := total_split paid.1 share.combinedDonationScript share.p2pkDonationScript
  have hdonation : (paid.2 + (paid.1.lookup share.combinedDonationScript).getD 0).toNat =
      paid.2.toNat + amount paid.1 share.combinedDonationScript := by
    rw [BitVec.toNat_add, toNat_lookup]
    exact mod_eq_of_lt (by omega)
  have hcut := payoutSum_keepLargest_le (((paid.1.keys.erase
    share.combinedDonationScript).erase share.p2pkDonationScript).sort.map fun s =>
      (s, (paid.1.lookup s).getD 0))
  refine ⟨by omega, ?_, ?_⟩
  · intro hcard hp2pk
    have hnone : amount paid.1 share.p2pkDonationScript = 0 :=
      amount_of_notMem (by rwa [Finmap.mem_keys])
    rw [payoutSum_keepLargest (by rw [List.length_map, length_sort]; exact hcard)]
    rw [hnone, ite_self] at hsplit
    omega
  intro hversion
  have hatLeast := hone (by simp [ShareTerms.useV36, hversion])
  omega

/-- A V36 share whose only miner would take everything still donates. -/
theorem share_amounts_conserve_sole_miner :
    let share : ShareTerms :=
      { version := 36, subsidy := 50, finderScript := [1], combinedDonationScript := [2]
        p2pkDonationScript := [3] }
    1 ≤ (share.outputs false 7 (Finmap.singleton [1] 7)).donation.toNat := (share_amounts_conserve
    { version := 36, subsidy := 50, finderScript := [1], combinedDonationScript := [2]
      p2pkDonationScript := [3] } false (Finmap.singleton [1] 7) 7 0
    (by decide +kernel) (by decide +kernel) (by decide)).2.2 (by decide)

end C2Pool.Ltc
