import C2Pool.Lib.AmountMap
import C2Pool.Ltc.MergedPayouts

/-! # Merged payouts add up

The floors, the rounding remainder and the one-satoshi rule of
`merged_payouts_from_weights` leave the whole subsidy paid out.
-/

namespace C2Pool.Ltc

open Sharechain FiniteMap AmountMap Finset BitVec

/-- `merged_payout_outputs`: scripts are distinct, so sorting by script and amount is
sorting by script. -/
def mergedPayoutOutputs (w : MergedPayoutWeights) (subsidy : BitVec 64) (donationScript : Script) :
    List (Script × BitVec 64) :=
  let result := mergedPayoutsFromWeights w subsidy donationScript
  ((result.keys.filter fun s => 1 ≤ ((result.lookup s).getD 0).toNat).sort).map fun s =>
    (s, (result.lookup s).getD 0)

def donationCut (w : MergedPayoutWeights) (subsidy : BitVec 64) : BitVec 64 :=
  if w.donationWeight = 0 then 0
  else (subsidy.setWidth 288 * w.donationWeight / w.totalWeight).setWidth 64

def minersPaid (w : MergedPayoutWeights) (subsidy : BitVec 64) : Payouts × BitVec 64 :=
  w.resolved.foldl (payOne (subsidy - donationCut w subsidy) w.acceptedTotal) (∅, 0)

variable {w : MergedPayoutWeights} {subsidy : BitVec 64} {result : Payouts}

theorem mergedPayoutsFromWeights_eq
    (htotal : w.totalWeight ≠ 0) (hsubsidy : subsidy ≠ 0) (donationScript : Script) :
    mergedPayoutsFromWeights w subsidy donationScript =
      settleDonation subsidy (donationCut w subsidy) donationScript (minersPaid w subsidy) := by
  unfold mergedPayoutsFromWeights
  rw [if_neg (fun h => h.elim htotal hsubsidy)]
  rfl

theorem toNat_quotient_le (x : BitVec 64) (weight d : UInt288) :
    ((x.setWidth 288 * weight / d).setWidth 64).toNat ≤ x.toNat * weight.toNat / d.toNat := by
  exact le_trans (Nat.mod_le _ _) (Nat.div_le_div_right (Nat.mod_le _ _))

theorem toNat_payAmount_le (reward : BitVec 64) (accepted weight : UInt288) :
    (payAmount reward accepted weight).toNat ≤ reward.toNat * weight.toNat / accepted.toNat := by
  unfold payAmount
  split
  · exact Nat.zero_le _
  · exact toNat_quotient_le reward weight accepted

theorem toNat_donationCut_le (h : w.donationWeight ≤ w.totalWeight)
    (subsidy : BitVec 64) : (donationCut w subsidy).toNat ≤ subsidy.toNat := by
  unfold donationCut
  split
  · exact Nat.zero_le _
  refine le_trans (toNat_quotient_le subsidy w.donationWeight w.totalWeight) ?_
  apply Nat.div_le_of_le_mul
  rw [Nat.mul_comm]
  exact Nat.mul_le_mul_right _ h

theorem foldl_payOne_sums {reward : BitVec 64} {accepted : UInt288} {entries : Tally Script UInt288}
    {acc : Payouts × BitVec 64} (hsum : total acc.1 = acc.2.toNat)
    (hroom : acc.2.toNat + (entries.map fun e => (payAmount reward accepted e.2).toNat).sum <
      2 ^ 64) :
    total (entries.foldl (payOne reward accepted) acc).1 =
        (entries.foldl (payOne reward accepted) acc).2.toNat ∧
      (entries.foldl (payOne reward accepted) acc).2.toNat =
        acc.2.toNat + (entries.map fun e => (payAmount reward accepted e.2).toNat).sum := by
  induction entries generalizing acc with
  | nil => exact ⟨hsum, by simp⟩
  | cons e entries ih =>
    rw [List.map_cons, List.sum_cons] at hroom
    rw [List.foldl_cons, List.map_cons, List.sum_cons]
    by_cases hzero : payAmount reward accepted e.2 = 0
    · have hstep : payOne reward accepted acc e = acc := by
        unfold payOne
        rw [if_pos hzero]
      have hnat : (payAmount reward accepted e.2).toNat = 0 := by rw [hzero]; rfl
      rw [hstep, hnat, Nat.zero_add]
      exact ih hsum (by omega)
    have hpaid : (acc.2 + payAmount reward accepted e.2).toNat =
        acc.2.toNat + (payAmount reward accepted e.2).toNat := by
      exact Nat.mod_eq_of_lt (by omega)
    have hstep : payOne reward accepted acc e =
        (acc.1.insert e.1 ((acc.1.lookup e.1).getD 0 + payAmount reward accepted e.2),
          acc.2 + payAmount reward accepted e.2) := by
      unfold payOne
      rw [if_neg hzero]
    have hle := amount_le_total acc.1 e.1
    have htotal : total (acc.1.insert e.1
        ((acc.1.lookup e.1).getD 0 + payAmount reward accepted e.2)) =
        (acc.2 + payAmount reward accepted e.2).toNat := by
      rw [total_add (by omega), hpaid, hsum]
    rw [hstep]
    have hrest : (acc.2 + payAmount reward accepted e.2).toNat +
        (entries.map fun e => (payAmount reward accepted e.2).toNat).sum < 2 ^ 64 := by
      omega
    obtain ⟨hfirst, hsecond⟩ := @ih
      (acc.1.insert e.1 ((acc.1.lookup e.1).getD 0 + payAmount reward accepted e.2),
        acc.2 + payAmount reward accepted e.2) htotal hrest
    exact ⟨hfirst, by rw [hsecond, hpaid]; omega⟩

theorem minersPaid_sums
    (hresolved : (w.resolved.map fun e => e.2.toNat).sum = w.acceptedTotal.toNat)
    (subsidy : BitVec 64) :
    total (minersPaid w subsidy).1 = (minersPaid w subsidy).2.toNat ∧
      (minersPaid w subsidy).2.toNat ≤ (subsidy - donationCut w subsidy).toNat := by
  have hreward := (subsidy - donationCut w subsidy).isLt
  have hfloors : (w.resolved.map fun e => (payAmount (subsidy - donationCut w subsidy)
      w.acceptedTotal e.2).toNat).sum ≤ (subsidy - donationCut w subsidy).toNat := by
    refine le_trans (List.sum_le_sum fun e _ => toNat_payAmount_le _ _ _) ?_
    have hle := sum_floor_le (subsidy - donationCut w subsidy).toNat w.acceptedTotal.toNat
      (le_of_eq hresolved)
    rw [List.map_map] at hle
    exact hle
  have hsums := @foldl_payOne_sums (subsidy - donationCut w subsidy) w.acceptedTotal w.resolved
    (∅, 0) (by simp) (by simpa using lt_of_le_of_lt hfloors hreward)
  refine ⟨hsums.1, ?_⟩
  unfold minersPaid
  rw [hsums.2]
  simpa using hfloors

theorem largestPayout_some (h : 0 < total result) :
    ∃ s, largestPayout result = some (toLex (amount result s, s)) ∧ 1 ≤ amount result s := by
  have hpos : ∃ k ∈ result.keys, 0 < amount result k := by
    by_contra hnone
    have hzero : total result = 0 := by
      apply sum_eq_zero
      intro k hk
      by_contra hne
      exact hnone ⟨k, hk, Nat.pos_of_ne_zero hne⟩
    omega
  obtain ⟨k, hk, hamount⟩ := hpos
  obtain ⟨s, hs, hsup⟩ := exists_mem_eq_sup result.keys ⟨k, hk⟩ fun s =>
    ((toLex (((result.lookup s).getD 0).toNat, s) : Nat ×ₗ Script) : WithBot (Nat ×ₗ Script))
  refine ⟨s, hsup, ?_⟩
  have hle := le_sup hk (f := fun s =>
    ((toLex (((result.lookup s).getD 0).toNat, s) : Nat ×ₗ Script) : WithBot (Nat ×ₗ Script)))
  rw [hsup, WithBot.coe_le_coe, Prod.Lex.toLex_le_toLex] at hle
  have hmax : amount result k ≤ amount result s := by
    cases hle with
    | inl hlt => exact le_of_lt hlt
    | inr heq => exact le_of_eq heq.1
  omega

theorem enforceDonation_total {donation : BitVec 64} (hpos : 0 < subsidy.toNat)
    (hrange : subsidy.toNat < 2 ^ 63) (hsum : total result + donation.toNat = subsidy.toNat) :
    total (enforceDonation subsidy result donation).1 +
        (enforceDonation subsidy result donation).2.toNat = subsidy.toNat ∧
      1 ≤ (enforceDonation subsidy result donation).2.toNat := by
  unfold enforceDonation
  by_cases hzero : donation = 0
  · have hnat : donation.toNat = 0 := by rw [hzero]; rfl
    obtain ⟨s, hlargest, hamount⟩ := @largestPayout_some result (by omega)
    rw [if_pos ⟨hzero, hrange⟩, hlargest]
    simp only [ofLex_toLex]
    have hone : ((result.lookup s).getD 0 - 1).toNat = amount result s - 1 := by
      rw [toNat_sub_of_le]
      · rfl
      · exact hamount
    have hinsert := total_insert result s ((result.lookup s).getD 0 - 1)
    have hdonation : (donation + 1).toNat = 1 := by rw [hzero]; rfl
    rw [hdonation]
    exact ⟨by omega, le_refl _⟩
  rw [if_neg (fun h => hzero h.1)]
  refine ⟨hsum, ?_⟩
  have hne : donation.toNat ≠ 0 := fun h => hzero (eq_of_toNat_eq (by simpa using h))
  exact Nat.pos_of_ne_zero hne

theorem sum_outputs (w : MergedPayoutWeights) (subsidy : BitVec 64) (donationScript : Script) :
    ((mergedPayoutOutputs w subsidy donationScript).map fun out => out.2.toNat).sum =
      total (mergedPayoutsFromWeights w subsidy donationScript) := by
  unfold mergedPayoutOutputs
  generalize mergedPayoutsFromWeights w subsidy donationScript = result
  rw [List.map_map]
  change (List.map (amount result) _).sum = _
  rw [sum_map_sort]
  rw [sum_filter]
  apply sum_congr rfl
  intro s _
  split
  · rfl
  rename_i hsmall
  unfold amount
  omega

/-- The payouts of a merged block add up to its subsidy, the donation script gets at least
one satoshi, the miners never get more than their reward, and the outputs drop nothing. -/
theorem merged_payouts_conserve {w : MergedPayoutWeights} {subsidy : BitVec 64}
    (donationScript : Script) (hdonation : w.donationWeight ≤ w.totalWeight)
    (htotal : 0 < w.totalWeight.toNat)
    (hresolved : (w.resolved.map fun e => e.2.toNat).sum = w.acceptedTotal.toNat)
    (hpos : 1 ≤ subsidy.toNat) (hrange : subsidy.toNat < 2 ^ 63) :
    total (mergedPayoutsFromWeights w subsidy donationScript) = subsidy.toNat ∧
      1 ≤ amount (mergedPayoutsFromWeights w subsidy donationScript) donationScript ∧
      (minersPaid w subsidy).2 ≤ subsidy - donationCut w subsidy ∧
      ((mergedPayoutOutputs w subsidy donationScript).map fun out => out.2.toNat).sum =
        subsidy.toNat := by
  have hcut := toNat_donationCut_le hdonation subsidy
  obtain ⟨hsum, hminers⟩ := minersPaid_sums hresolved subsidy
  have hreward : (subsidy - donationCut w subsidy).toNat =
      subsidy.toNat - (donationCut w subsidy).toNat := toNat_sub_of_le hcut
  have hguard : (minersPaid w subsidy).2 ≤ subsidy - donationCut w subsidy := hminers
  have hremainder : (subsidy - donationCut w subsidy - (minersPaid w subsidy).2).toNat =
      subsidy.toNat - (donationCut w subsidy).toNat - (minersPaid w subsidy).2.toNat := by
    rw [toNat_sub_of_le hguard, hreward]
  have hdonated : (donationCut w subsidy +
      (subsidy - donationCut w subsidy - (minersPaid w subsidy).2)).toNat =
      subsidy.toNat - (minersPaid w subsidy).2.toNat := by
    rw [toNat_add, hremainder]
    omega
  have hresult : mergedPayoutsFromWeights w subsidy donationScript =
      settleDonation subsidy (donationCut w subsidy) donationScript (minersPaid w subsidy) := by
    refine mergedPayoutsFromWeights_eq ?_ ?_ donationScript
    · intro hzero
      rw [hzero] at htotal
      exact absurd htotal (by simp)
    intro hzero
    rw [hzero] at hpos
    exact absurd hpos (by simp)
  obtain ⟨henforced, hone⟩ := @enforceDonation_total subsidy (minersPaid w subsidy).1
    (donationCut w subsidy + (subsidy - donationCut w subsidy - (minersPaid w subsidy).2))
    hpos hrange (by omega)
  have hadd := amount_le_total (enforceDonation subsidy (minersPaid w subsidy).1 (donationCut w
    subsidy + (subsidy - donationCut w subsidy - (minersPaid w subsidy).2))).1 donationScript
  have hsettle : mergedPayoutsFromWeights w subsidy donationScript =
      let final := enforceDonation subsidy (minersPaid w subsidy).1
        (donationCut w subsidy + (subsidy - donationCut w subsidy - (minersPaid w subsidy).2))
      final.1.insert donationScript ((final.1.lookup donationScript).getD 0 + final.2) := by
    rw [hresult]
    unfold settleDonation
    simp only [if_pos hguard]
  have htotals : total (mergedPayoutsFromWeights w subsidy donationScript) = subsidy.toNat := by
    rw [hsettle, total_add (by omega), henforced]
  refine ⟨htotals, ?_, hguard, by rw [sum_outputs, htotals]⟩
  rw [hsettle, amount_insert, if_pos rfl, toNat_add, toNat_lookup, Nat.mod_eq_of_lt]
  · omega
  · omega

/-- Two miners share a subsidy of seven by their weights, without a donation cut; the
donation script is the larger miner's own. -/
def collidingWeights : MergedPayoutWeights :=
  { totalWeight := 7, donationWeight := 0, resolved := [([1], 3), ([2], 4)], acceptedTotal := 7 }

theorem merged_payouts_conserve_colliding :
    total (mergedPayoutsFromWeights collidingWeights 7 [2]) = 7 ∧
      1 ≤ amount (mergedPayoutsFromWeights collidingWeights 7 [2]) [2] := by
  obtain ⟨htotal, hdonation, -⟩ := @merged_payouts_conserve collidingWeights 7 [2]
    (by decide +kernel) (by decide +kernel) (by decide +kernel) (by decide) (by decide)
  exact ⟨htotal, hdonation⟩

end C2Pool.Ltc
