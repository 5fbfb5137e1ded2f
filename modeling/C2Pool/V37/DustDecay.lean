import C2Pool.V37.OwedDigest

/-! # Dust decay

The halvings of a balance below the floor are applied at whatever FINALIZE comes
next.  What is left of it, and its row in the digest, depend on the bin of the last
FINALIZE alone.
-/

namespace C2Pool.V37

open List SortedMap Balances

namespace Finalized

variable {rules : OwedLedgerRules} {fin : Finalized} {p : Pending} {k : Bytes32} {w : Int}
  {g b : U64} {n : Nat}

/-- The halvings due at bin `b` for a clock set at bin `g`. -/
def dueAt (rules : OwedLedgerRules) (g b : U64) : Nat :=
  if b.val < g.val + rules.decayHorizon.val then 0
  else 1 + (b.val - g.val - rules.decayHorizon.val) / rules.decayHalfLife.val

def dustAt (fin : Finalized) (k : Bytes32) : Option Int × Option U64 × Option U64 :=
  (fin.finalW.lookup k, fin.goneSince.lookup k, fin.decaySteps.lookup k)

/-- A balance of `w` after `n` halvings; the clock leaves with the last unit. -/
inductive FadedTo (w : Int) (g : U64) (n : Nat) : Option Int × Option U64 × Option U64 → Prop
  | gone {row : Option Int} (hzero : w / 2 ^ n = 0) (hrow : row.getD 0 = 0) :
      FadedTo w g n (row, none, none)
  | left {steps : Option U64} (hleft : w / 2 ^ n ≠ 0) (hsteps : (steps.getD 0).val = n) :
      FadedTo w g n (some (w / 2 ^ n), some g, steps)

/-- A block that neither credits nor pays a key, nor lists it. -/
structure PassesBy (k : Bytes32) (p : Pending) : Prop where
  credit : p.credit.lookup k = none
  payout : p.payout.lookup k = none
  gross : p.gross.lookup k = none

instance (k : Bytes32) (p : Pending) : Decidable (PassesBy k p) :=
  decidable_of_iff (p.credit.lookup k = none ∧ p.payout.lookup k = none ∧ p.gross.lookup k = none)
    ⟨fun h => ⟨h.1, h.2.1, h.2.2⟩, fun h => ⟨h.credit, h.payout, h.gross⟩⟩

/-! ## The stages of a FINALIZE, at one key -/

theorem dueAt_mono {b' : U64} (h : b ≤ b') : dueAt rules g b ≤ dueAt rules g b' := by
  unfold dueAt
  have hle : b.val ≤ b'.val := h
  split
  · exact Nat.zero_le _
  · rw [if_neg (by omega)]
    exact Nat.add_le_add_left (Nat.div_le_div_right (by omega)) 1

theorem PassesBy.not_mem_creditedBy (h : PassesBy k p) : k ∉ creditedBy rules p := by
  unfold creditedBy
  intro hmem
  split at hmem
  · obtain ⟨e, he, rfl⟩ := mem_map.mp hmem
    have hrow := mem_entries_iff.mp he
    rw [h.gross] at hrow
    cases hrow
  obtain ⟨e, he, rfl⟩ := mem_map.mp hmem
  have hrow := mem_entries_iff.mp (mem_filter.mp he).1
  rw [h.credit] at hrow
  cases hrow

theorem PassesBy.lookup_book (h : PassesBy k p) :
    (fin.book p).finalW.lookup k = fin.finalW.lookup k := by
  unfold book addAll subAll combine
  dsimp only
  rw [lookup_merge, h.payout]
  dsimp only
  rw [lookup_merge, h.credit]

theorem PassesBy.dustAt_runClock (h : PassesBy k p)
    (hclock : fin.goneSince.lookup k = none → fin.finalW.balance k ≤ 0) :
    (fin.runClock rules p b).dustAt k = fin.dustAt k := by
  have hcredited : k ∉ creditedBy rules p := h.not_mem_creditedBy
  unfold runClock
  split
  · have hgone : ((fin.goneSince.filterMap fun k g =>
        if k ∈ creditedBy rules p then none else some g).lookup k) = fin.goneSince.lookup k := by
      rw [lookup_filterMap]
      simp only [if_neg hcredited]
      cases fin.goneSince.lookup k <;> rfl
    have hsteps : ((fin.decaySteps.filterMap fun k n =>
        if k ∈ creditedBy rules p then none else some n).lookup k) = fin.decaySteps.lookup k := by
      rw [lookup_filterMap]
      simp only [if_neg hcredited]
      cases fin.decaySteps.lookup k <;> rfl
    dsimp only
    split
    · simp only [dustAt, hgone, hsteps]
    simp only [dustAt, hsteps]
    obtain ⟨s, hs, hread⟩ := foldl_at_key (k := k) (fun (g : SortedMap Bytes32 U64) e =>
        if 0 < e.2 ∧ e.2 < rules.armFloor ∧ g.lookup e.1 = none ∧ e.1 ∉ creditedBy rules p then
          g.insert e.1 b
        else g) (fun g => g.lookup k)
      (fun g e hne => by
        split
        · rw [lookup_insert, if_neg (Ne.symm hne)]
        · rfl) fin.finalW
      (fin.goneSince.filterMap fun k g => if k ∈ creditedBy rules p then none else some g)
    dsimp only at hs hread
    rw [hread, hgone]
    rw [hgone] at hs
    cases hrow : fin.finalW.lookup k with
    | none => rfl
    | some v =>
      dsimp only
      rw [if_neg, hs]
      intro hstart
      have hle := hclock (hs ▸ hstart.2.2.1)
      rw [balance_of_lookup hrow] at hle
      omega
  · rfl

theorem PassesBy.dustAt_absorb (h : PassesBy k p)
    (hclock : fin.goneSince.lookup k = none → fin.finalW.balance k ≤ 0) :
    (fin.absorb rules p b).dustAt k = fin.dustAt k := by
  have hnoted : ((fin.book p).noteHeight rules p).dustAt k = fin.dustAt k := by
    have hbook : (fin.book p).finalW.lookup k = fin.finalW.lookup k := h.lookup_book
    unfold noteHeight dustAt
    split <;> rw [← hbook] <;> rfl
  have hrun : (((fin.book p).noteHeight rules p).runClock rules p b).dustAt k = fin.dustAt k := by
    rw [← hnoted]
    apply h.dustAt_runClock
    obtain ⟨hrow, hgone⟩ := Prod.mk.inj hnoted
    rw [(Prod.mk.inj hgone).1, balance, hrow]
    exact hclock
  rw [← hrun]
  unfold absorb
  generalize ((fin.book p).noteHeight rules p).runClock rules p b = x
  have hanchor : (x.moveAnchor rules p).dustAt k = x.dustAt k := by
    unfold moveAnchor
    split
    · split <;> rfl
    · rfl
  rw [← hanchor]
  unfold slideWindow joinRegistry settleDue
  split <;> split <;> split <;> rfl

theorem shift_shift {m : Nat} (h : n ≤ m) (hw : 0 ≤ w) (hlt : w < 2 ^ 63) :
    (if 63 ≤ m - n then 0 else w / 2 ^ n / 2 ^ (m - n)) = w / 2 ^ m := by
  split
  · have hpow : (2 : Int) ^ 63 ≤ 2 ^ m := by
      exact_mod_cast Nat.pow_le_pow_right (by decide) (by omega)
    exact (Int.ediv_eq_zero_of_lt hw (by omega)).symm
  · rw [Int.ediv_ediv_of_nonneg (Int.pow_nonneg (by decide)), ← pow_add, Nat.add_sub_cancel' h]

theorem val_halvingsDue (hhorizon : 0 < rules.decayHorizon)
    (hdue : g.val + rules.decayHorizon.val ≤ b.val) :
    (halvingsDue rules b g).val =
      1 + (b.val - g.val - rules.decayHorizon.val) / rules.decayHalfLife.val := by
  have hpos : 0 < rules.decayHorizon.val := hhorizon
  have hle := Nat.div_le_self (b.val - g.val - rules.decayHorizon.val) rules.decayHalfLife.val
  have hsub : (b - g).val = b.val - g.val := Fin.sub_val_of_le (by show g.val ≤ b.val; omega)
  have hsub' : (b - g - rules.decayHorizon).val = b.val - g.val - rules.decayHorizon.val := by
    rw [Fin.sub_val_of_le (by show _ ≤ (b - g).val; omega), hsub]
  show (1 + (b - g - rules.decayHorizon).val / rules.decayHalfLife.val) % 2 ^ 64 = _
  rw [hsub', Nat.mod_eq_of_lt]
  omega

theorem dustAt_decayDust (hon : rules.decayOn) : (fin.decayDust rules b).dustAt k =
    match fin.finalW.lookup k with
    | none => fin.dustAt k
    | some v => (some (v - ((dustOff rules fin b k v).map Prod.fst).getD 0), fin.goneSince.lookup k,
        if dustRead rules fin b k v then
          some (((dustOff rules fin b k v).map Prod.snd).getD ((fin.decaySteps.lookup k).getD 0))
        else fin.decaySteps.lookup k) := by
  unfold decayDust decayed
  simp only [if_pos hon, dustAt, subAll, combine, lookup_merge, lookup_filterMap]
  cases fin.finalW.lookup k with
  | none => rfl
  | some v =>
    simp only [Option.bind_some]
    refine Prod.ext ?_ (Prod.ext rfl ?_)
    · cases dustOff rules fin b k v <;> simp
    · by_cases hread : dustRead rules fin b k v <;> simp only [hread, if_true, if_false]

theorem dustAt_rearm_prune {v : Int} (paid : List Bytes32) (hrow : fin.finalW.lookup k = some v)
    (hlow : v < armingFloor rules) :
    ((fin.rearmFirstEligible rules b paid).pruneFinalizedZeroRows).dustAt k =
      if v = 0 then (none, none, none) else fin.dustAt k := by
  have hold : (fin.rearmFirstEligible rules b paid).firstEligible.lookup k = none := by
    obtain ⟨fe, -, hread⟩ := foldl_at_key (k := k)
      (fun (fe : SortedMap Bytes32 U64) e => rearmed rules b fe e.1 e.2) (fun fe => fe.lookup k)
      (fun fe e hne => by
        unfold rearmed
        split
        · split
          · rfl
          · rw [lookup_insert, if_neg (Ne.symm hne)]
        · rw [lookup_erase, if_neg (Ne.symm hne)]) fin.finalW fin.firstEligible
    rw [hrow] at hread
    dsimp only at hread
    rw [rearmed, if_neg (by omega), lookup_erase, if_pos rfl] at hread
    unfold rearmFirstEligible
    dsimp only
    revert hread
    generalize fin.finalW.entries.foldl _ _ = fe'
    induction paid generalizing fe' with
    | nil => exact id
    | cons x paid ih =>
      intro hnone
      apply ih
      dsimp only
      split
      · rename_i hsome
        rw [lookup_insert, if_neg]
        · exact hnone
        rintro rfl
        rw [hnone] at hsome
        cases hsome
      · exact hnone
  have hidle : (fin.rearmFirstEligible rules b paid).Idle k ↔ v = 0 := by
    unfold Idle
    rw [hold, finalW_rearmFirstEligible, hrow]
    simp
  unfold pruneFinalizedZeroRows
  simp only [dustAt, lookup_filterMap, hidle]
  split
  · simp
  · simp [rearmFirstEligible]

section

variable (hon : rules.decayOn) (hw : 0 < w) (hlt : w < rules.armFloor)
  (hfloor : rules.armFloor < 2 ^ 63) (hover : g.val + rules.decayHorizon.val < 2 ^ 64)

include hon hw hlt hfloor hover

theorem FadedTo.decayDust (hn : n ≤ dueAt rules g b) (hleft : w / 2 ^ n ≠ 0) {steps : Option U64}
    (hsteps : (steps.getD 0).val = n) (h : fin.dustAt k = (some (w / 2 ^ n), some g, steps)) :
    ∃ steps : Option U64, (steps.getD 0).val = dueAt rules g b ∧
      (fin.decayDust rules b).dustAt k = (some (w / 2 ^ dueAt rules g b), some g, steps) := by
  simp only [dustAt, Prod.mk.injEq] at h
  obtain ⟨hrow, hgone, hdone⟩ := h
  have hpos : 0 < w / 2 ^ n := lt_of_le_of_ne
    (Int.ediv_nonneg (by omega) (Int.pow_nonneg (by decide))) (Ne.symm hleft)
  have hle : w / 2 ^ n ≤ w := Int.ediv_le_self _ (by omega)
  rw [dustAt_decayDust hon, hrow]
  dsimp only
  rw [hgone, hdone]
  by_cases hsoon : b.val < g.val + rules.decayHorizon.val
  · have hnone : b < g + rules.decayHorizon := by
      show b.val < (g + rules.decayHorizon).val
      omega
    have hzero : dueAt rules g b = 0 := if_pos hsoon
    have hfirst : n = 0 := by omega
    subst hfirst
    refine ⟨steps, by rw [hsteps, hzero], ?_⟩
    have hoff : dustOff rules fin b k (w / 2 ^ 0) = none := by
      rw [dustOff, hgone]
      simp [hnone]
    rw [hoff, if_neg (by simp [dustRead, hgone, hnone]), hzero]
    simp
  have hsome : ¬ b < g + rules.decayHorizon := by
    show ¬ b.val < (g + rules.decayHorizon).val
    omega
  have hdue : (halvingsDue rules b g).val = dueAt rules g b := by
    rw [val_halvingsDue hon.2.1 (by omega), dueAt, if_neg hsoon]
  have hread : dustRead rules fin b k (w / 2 ^ n) := ⟨hpos, by omega, g, by simp [hgone], hsome⟩
  rw [if_pos hread]
  have hoff : dustOff rules fin b k (w / 2 ^ n) =
      if halvingsDue rules b g ≤ steps.getD 0 then none
      else some (w / 2 ^ n - w / 2 ^ dueAt rules g b, halvingsDue rules b g) := by
    rw [dustOff, hgone]
    dsimp only
    rw [if_neg (by omega), if_neg hsome, hdone]
    split
    · rfl
    rename_i hmore
    have hval : (halvingsDue rules b g - steps.getD 0).val = dueAt rules g b - n := by
      rw [Fin.sub_val_of_le (le_of_not_ge hmore), hdue, hsteps]
    rw [hval, shift_shift hn (by omega) (by omega)]
  rw [hoff]
  split
  · rename_i hall
    have hall' : (halvingsDue rules b g).val ≤ (steps.getD 0).val := hall
    have hsame : n = dueAt rules g b := by omega
    exact ⟨some (steps.getD 0), by simp [hsteps, hsame], by simp [← hsame]⟩
  · exact ⟨some (halvingsDue rules b g), hdue, by simp⟩

theorem FadedTo.settle (hn : n ≤ dueAt rules g b) (hpass : PassesBy k p)
    (h : FadedTo w g n (fin.dustAt k)) :
    FadedTo w g (dueAt rules g b) ((fin.settle rules p b).dustAt k) := by
  unfold Finalized.settle
  generalize hrow : fin.dustAt k = row at h
  cases h with
  | @gone row hzero hnil =>
    have hdone : w / 2 ^ dueAt rules g b = 0 := by
      rw [← Nat.add_sub_cancel' hn, pow_add,
        ← Int.ediv_ediv_of_nonneg (Int.pow_nonneg (by decide)), hzero, Int.zero_ediv]
    have hsame : (fin.absorb rules p b).dustAt k = fin.dustAt k :=
      hpass.dustAt_absorb fun _ => by rw [balance, (Prod.mk.inj hrow).1, hnil]
    rw [← hsame] at hrow
    obtain ⟨hkept, hgone, hsteps⟩ := by simpa only [dustAt, Prod.mk.injEq] using hrow
    have hdust : ((fin.absorb rules p b).decayDust rules b).dustAt k = (row, none, none) := by
      rw [dustAt_decayDust hon, hkept]
      cases row with
      | none => exact hrow
      | some v => simp [dustOff, dustRead, hgone, hsteps]
    cases row with
    | none =>
      have hnone : ((((fin.absorb rules p b).decayDust rules b).rearmFirstEligible rules b
          (paidKeys rules p)).pruneFinalizedZeroRows).dustAt k = (none, none, none) := by
        obtain ⟨hrow, hgone, hsteps⟩ := by simpa only [dustAt, Prod.mk.injEq] using hdust
        simp [dustAt, pruneFinalizedZeroRows, rearmFirstEligible, lookup_filterMap, hrow, hgone,
          hsteps]
      rw [hnone]
      exact .gone hdone rfl
    | some v =>
      have hv : v = 0 := hnil
      rw [dustAt_rearm_prune _ (Prod.mk.inj hdust).1 (by unfold armingFloor; split <;> omega),
        if_pos hv]
      exact .gone hdone rfl
  | left hleft hsteps =>
    have hclock : fin.goneSince.lookup k = some g := by
      simp only [dustAt, Prod.mk.injEq] at hrow
      exact hrow.2.1
    have hsame : (fin.absorb rules p b).dustAt k = fin.dustAt k :=
      hpass.dustAt_absorb (by simp [hclock])
    rw [← hsame] at hrow
    obtain ⟨steps, hdone, hdust⟩ := FadedTo.decayDust hon hw hlt hfloor hover hn hleft hsteps hrow
    have hle : w / 2 ^ dueAt rules g b ≤ w := Int.ediv_le_self _ (by omega)
    rw [dustAt_rearm_prune _ (Prod.mk.inj hdust).1 (by unfold armingFloor; split <;> omega)]
    split
    · rename_i hzero
      exact .gone hzero rfl
    rename_i hnonzero
    rw [hdust]
    exact .left hnonzero hdone

theorem FadedTo.settleAll {blocks : List (Pending × U64)}
    (hbins : (b :: blocks.map Prod.snd).IsChain (· ≤ ·))
    (hpass : ∀ e ∈ blocks, PassesBy k e.1) (h : FadedTo w g (dueAt rules g b) (fin.dustAt k)) :
    FadedTo w g (dueAt rules g ((blocks.map Prod.snd).getLastD b))
      ((blocks.foldl (fun fin e => fin.settle rules e.1 e.2) fin).dustAt k) := by
  induction blocks generalizing fin b with
  | nil => exact h
  | cons e blocks ih =>
    obtain ⟨hle, hrest⟩ := isChain_cons_cons.mp hbins
    rw [map_cons, getLastD_cons]
    exact ih hrest (fun e' he' => hpass e' (mem_cons_of_mem e he'))
      (h.settle hon hw hlt hfloor hover (dueAt_mono hle) (hpass e mem_cons_self))

end

def decayRow (fin : Finalized) (k : Bytes32) : List Byte :=
  match fin.goneSince.lookup k with
  | none => []
  | some g => k.toBytes ++ putU64 g.val ++ putU64 ((fin.decaySteps.lookup k).getD 0).val

theorem FadedTo.read (h : FadedTo w g n (fin.dustAt k)) : fin.finalW.balance k = w / 2 ^ n ∧
    fin.decayRow k = if w / 2 ^ n = 0 then [] else k.toBytes ++ putU64 g.val ++ putU64 n := by
  generalize hrow : fin.dustAt k = row at h
  cases h with
  | gone hzero hnil =>
    obtain ⟨hrow, hgone, -⟩ := by simpa only [dustAt, Prod.mk.injEq] using hrow
    rw [balance, decayRow, hrow, hgone, hzero]
    exact ⟨hnil, rfl⟩
  | left hleft hsteps =>
    obtain ⟨hrow, hgone, hdone⟩ := by simpa only [dustAt, Prod.mk.injEq] using hrow
    rw [balance, decayRow, hrow, hgone, hdone, if_neg hleft]
    dsimp only
    rw [hsteps]
    exact ⟨rfl, rfl⟩

end Finalized

namespace OwedLedger

open Finalized

variable {sha : List Byte → Bytes32} {rules : OwedLedgerRules} {k : Bytes32} {w : Int}
  {g h : U64}

def finalizedBy (l : OwedLedger) : LedgerCall → List (Pending × U64)
  | .finalized bid b => (l.pending.lookup bid).toList.map fun p => (p, b)
  | _ => []

def finalizes (sha : List Byte → Bytes32) (rules : OwedLedgerRules) :
    OwedLedger → List LedgerCall → List (Pending × U64)
  | _, [] => []
  | l, c :: calls => l.finalizedBy c ++ finalizes sha rules (l.call sha rules c) calls

theorem toFinalized_run (l : OwedLedger) (calls : List LedgerCall) :
    (Run.run (call sha rules) l calls).toFinalized =
      (finalizes sha rules l calls).foldl (fun fin e => fin.settle rules e.1 e.2)
        l.toFinalized := by
  induction calls generalizing l with
  | nil => rfl
  | cons c calls ih =>
    rw [Run.run_cons, ih, finalizes, foldl_append]
    congr 1
    cases c with
    | found bid args =>
      simp only [call, onBlockFound]
      split <;> rfl
    | finalized bid b =>
      simp only [call, onBlockFinalized, finalizedBy]
      cases l.pending.lookup bid <;> rfl
    | orphaned bid settledPayout =>
      simp only [call, onBlockOrphaned]
      split
      · rfl
      split
      · exact toFinalized_noteResidual l bid _
      · rfl

/-- A continuation that ends with a FINALIZE at bin `h`, in which no finalized block credits, pays
or lists `k`. -/
structure Fades (sha : List Byte → Bytes32) (rules : OwedLedgerRules) (k : Bytes32) (g h : U64)
    (l : OwedLedger) (calls : List LedgerCall) : Prop where
  passes : ∀ e ∈ finalizes sha rules l calls, PassesBy k e.1
  bins : (g :: (finalizes sha rules l calls).map Prod.snd).IsChain (· ≤ ·)
  last : ((finalizes sha rules l calls).map Prod.snd).getLast? = some h

theorem Fades.fadedTo {l : OwedLedger} {calls : List LedgerCall}
    (hf : Fades sha rules k g h l calls) (hon : rules.decayOn)
    (hfloor : rules.armFloor < 2 ^ 63) (hover : h.val + rules.decayHorizon.val < 2 ^ 64)
    (hw : l.finalW.balance k = w) (hpos : 0 < w) (hlt : w < rules.armFloor)
    (hclock : l.goneSince.lookup k = some g) (hsteps : (l.decaySteps.lookup k).getD 0 = 0) :
    FadedTo w g (dueAt rules g h)
      ((Run.run (call sha rules) l calls).dustAt k) := by
  have hbins := isChain_iff_pairwise.mp hf.bins
  have hgh : g.val ≤ h.val := rel_of_pairwise_cons hbins (mem_of_getLast? hf.last)
  have hstart : dueAt rules g g = 0 := if_pos (Nat.lt_add_of_pos_right hon.2.1)
  have hrow : l.finalW.lookup k = some w := by
    cases hrow : l.finalW.lookup k with
    | none =>
      rw [balance, hrow, Option.getD_none] at hw
      omega
    | some v => rw [← hw, balance_of_lookup hrow]
  have hfresh : FadedTo w g (dueAt rules g g) (l.dustAt k) := by
    have hleft : FadedTo w g 0 (some (w / 2 ^ 0), some g, l.decaySteps.lookup k) :=
      .left (by simpa using hpos.ne') (by rw [hsteps]; rfl)
    rw [hstart]
    simpa [dustAt, hrow, hclock] using hleft
  have hfaded := hfresh.settleAll hon hpos hlt hfloor (by omega) hf.bins hf.passes
  rw [getLastD_eq_getLast?, hf.last, ← toFinalized_run] at hfaded
  exact hfaded

theorem decay_of_last_bin (hon : rules.decayOn) (hfloor : rules.armFloor < 2 ^ 63)
    {l : OwedLedger} (hw : l.finalW.balance k = w) (hpos : 0 < w) (hlt : w < rules.armFloor)
    (hclock : l.goneSince.lookup k = some g) (hsteps : (l.decaySteps.lookup k).getD 0 = 0)
    (hover : h.val + rules.decayHorizon.val < 2 ^ 64) {calls calls' : List LedgerCall}
    (hf : Fades sha rules k g h l calls) (hf' : Fades sha rules k g h l calls') :
    let shift := if h.val < g.val + rules.decayHorizon.val then 0
      else 1 + (h.val - g.val - rules.decayHorizon.val) / rules.decayHalfLife.val
    let end₁ := (Run.run (call sha rules) l calls).toFinalized
    let end₂ := (Run.run (call sha rules) l calls').toFinalized
    end₁.finalW.balance k = (if 63 ≤ shift then 0 else w / 2 ^ shift) ∧
      end₂.finalW.balance k = (if 63 ≤ shift then 0 else w / 2 ^ shift) ∧
      end₁.decayRow k = end₂.decayRow k := by
  intro shift end₁ end₂
  obtain ⟨hleft, hrow⟩ := (hf.fadedTo hon hfloor hover hw hpos hlt hclock hsteps).read
  obtain ⟨hleft', hrow'⟩ := (hf'.fadedTo hon hfloor hover hw hpos hlt hclock hsteps).read
  have hshift : (if 63 ≤ shift then 0 else w / 2 ^ shift) = w / 2 ^ dueAt rules g h := by
    have hall := shift_shift (Nat.zero_le shift) hpos.le (by omega)
    rwa [Nat.sub_zero, pow_zero, Int.ediv_one] at hall
  exact ⟨hleft.trans hshift.symm, hleft'.trans hshift.symm, hrow.trans hrow'.symm⟩

/-- A floor of 100, a horizon of 10 bins and a half life of 5. -/
def fadeRules : OwedLedgerRules := { armFloor := 100, decayHorizon := 10, decayHalfLife := 5 }

def fading : OwedLedger :=
  after (fun b => Fin.ofNat _ b.length) fadeRules
    [.found [1] { credit := SortedMap.insert ∅ 7 50 }, .finalized [1] 1,
      .found [2] { credit := SortedMap.insert ∅ 8 9 }, .finalized [2] 2]

theorem decay_of_last_bin_twice :
    let one : List LedgerCall :=
      [.found [3] { credit := SortedMap.insert ∅ 8 1 }, .finalized [3] 30]
    let two : List LedgerCall :=
      [.found [3] {}, .found [4] { payout := SortedMap.insert ∅ 8 1 }, .finalized [4] 14,
        .orphaned [5] ∅, .finalized [3] 30]
    let run := Run.run (call (fun b => Fin.ofNat _ b.length) fadeRules) fading
    (run one).finalW.balance 7 = 3 ∧ (run two).finalW.balance 7 = 3 ∧
      (run one).decayRow 7 = (run two).decayRow 7 :=
  decay_of_last_bin (l := fading) (g := 2) (h := 30) (w := 50)
    (by decide) (by decide) (by decide +kernel) (by decide) (by decide) (by decide +kernel)
    (by decide +kernel) (by decide) ⟨by decide +kernel, by decide +kernel, by decide +kernel⟩
    ⟨by decide +kernel, by decide +kernel, by decide +kernel⟩

end OwedLedger

end C2Pool.V37
