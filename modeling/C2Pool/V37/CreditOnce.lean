import C2Pool.Lib.SeenWindow
import C2Pool.V37.Admission
import C2Pool.V37.Sha256

/-! # Credit once

Every admitted event enters the window, so it is credited again only after the window has dropped
it. The window drops an event when a carrier comes in whose bin is more than the retention above the
bin of the carrier that brought the event.
-/

namespace C2Pool.V37

open List C2Pool.SortedMap Option

def Disposition.Credits (d : Disposition) : Prop := d = .ok ∨ d = .okSubtargetDrop

instance (d : Disposition) : Decidable d.Credits := inferInstanceAs (Decidable (_ ∨ _))

def creditedReceipts (sha : List Byte → Bytes32) (receipts : List WorkEvent)
    (disps : List (String × Disposition)) : List Bytes32 :=
  ((receipts.zip disps).filter fun e => e.2.2.Credits).map fun e => e.1.hash sha

def AdmitResult.credited (sha : List Byte → Bytes32) (out : AdmitResult) (carrier : WorkEvent)
    (receipts : List WorkEvent) : List Bytes32 :=
  if out.carrierStatus = .ok then
    carrier.hash sha :: creditedReceipts sha receipts out.receipts
  else []

/-- The calls on an admitter: `admit` with the tip it meets, and `set_drop_harvest`. -/
inductive AdmitterCall where
  | admitCarrier (tip : U64) (carrier : WorkEvent) (receipts : List WorkEvent)
  | setDropHarvest (enabled : Bool)

namespace ReceiptAdmitter

section Calls

variable {T : Type} (sha : List Byte → Bytes32) (tracker : ShareTracker T)
  (active : Bytes32 → Option U64)
def call (a : ReceiptAdmitter T) : AdmitterCall → ReceiptAdmitter T
  | .admitCarrier tip carrier receipts =>
    (a.admitCarrier sha tracker (liveHeightOf active tip) carrier receipts).1
  | .setDropHarvest enabled => a.setDropHarvest enabled

def creditedBy (a : ReceiptAdmitter T) : AdmitterCall → List Bytes32
  | .admitCarrier tip carrier receipts =>
    (a.admitCarrier sha tracker (liveHeightOf active tip) carrier receipts).2.credited sha
      carrier receipts
  | .setDropHarvest _ => []

def creditedIn : ReceiptAdmitter T → List AdmitterCall → List Bytes32
  | _, [] => []
  | a, c :: calls =>
    a.creditedBy sha tracker active c ++ creditedIn (a.call sha tracker active c) calls

/-- The bin of a call's carrier, where it passes the checks, and the hashes that the call
presents. -/
def offer (chain : U32) : AdmitterCall → SeenWindow.Offer Bytes32
  | .admitCarrier tip carrier receipts =>
    ⟨(checkedBin sha (liveHeightOf active tip) chain carrier receipts).map Fin.val,
      (carrier :: receipts).map (WorkEvent.hash sha)⟩
  | .setDropHarvest _ => ⟨none, []⟩

end Calls

variable {T : Type} {sha : List Byte → Bytes32} {tracker : ShareTracker T}

def seen (w : DedupWindow) : SeenWindow.Window Bytes32 := fun h => (w.lookup h).map Fin.val

theorem seen_prune (w : DedupWindow) (bin : U64) :
    seen (DedupWindow.prune w bin) = (seen w).prune dedupRetention bin.val := by
  funext h
  unfold seen DedupWindow.prune SeenWindow.Window.prune
  rw [lookup_filterMap]
  dsimp only
  cases w.lookup h with
  | none => rfl
  | some b =>
    have hcut : b.val < (if dedupRetention ≤ bin.val then bin.val - dedupRetention else 0) ↔
        ¬ bin.val ≤ b.val + dedupRetention := by
      split <;> omega
    simp only [bind_some, map_some, filter_some, hcut, decide_eq_true_eq]
    by_cases hkeep : bin.val ≤ b.val + dedupRetention
    · rw [if_neg (not_not.mpr hkeep), if_pos hkeep, map_some]
    · rw [if_pos hkeep, if_neg hkeep, map_none]

section Loop

variable {heightOf : Bytes32 → Option U64} {carrier : WorkEvent} {bin : U64}

theorem lookup_of_credits {a : ReceiptAdmitter T} {r : WorkEvent}
    (h : (a.validateReceipt sha tracker heightOf r carrier bin).Credits) :
    a.window.lookup (r.hash sha) = none := by
  by_contra hin
  revert h
  unfold validateReceipt
  split
  · simp [Disposition.Credits]
  split
  · simp [Disposition.Credits]
  split
  · simp [Disposition.Credits]
  split
  · simp [Disposition.Credits]
  split
  · simp [Disposition.Credits]
  split
  · simp [Disposition.Credits]
  · simp [Disposition.Credits]

theorem admitReceipt_spec (s : ReceiptAdmitter T × AdmitResult) (r : WorkEvent) :
    ∃ disp, (admitReceipt sha tracker heightOf carrier bin s r).2.receipts =
        s.2.receipts ++ [(r.tag, disp)] ∧
      (admitReceipt sha tracker heightOf carrier bin s r).2.carrierStatus = s.2.carrierStatus ∧
      (disp.Credits → s.1.window.lookup (r.hash sha) = none) ∧
      (admitReceipt sha tracker heightOf carrier bin s r).1.window =
        (if disp.Credits then s.1.window.insert (r.hash sha) bin else s.1.window) ∧
      (admitReceipt sha tracker heightOf carrier bin s r).2.pushes.length +
          (admitReceipt sha tracker heightOf carrier bin s r).2.drops =
        s.2.pushes.length + s.2.drops + if disp.Credits then 1 else 0 := by
  refine ⟨s.1.validateReceipt sha tracker heightOf r carrier bin, ?_, ?_, lookup_of_credits, ?_, ?_⟩
  all_goals
    unfold admitReceipt
    cases s.1.validateReceipt sha tracker heightOf r carrier bin
  all_goals simp [Disposition.Credits, emit, account]
  all_goals omega

theorem receipts_spec (rs : List WorkEvent) (s : ReceiptAdmitter T × AdmitResult) :
    ∃ disps, (rs.foldl (admitReceipt sha tracker heightOf carrier bin) s).2.receipts =
        s.2.receipts ++ disps ∧
      (rs.foldl (admitReceipt sha tracker heightOf carrier bin) s).2.carrierStatus =
        s.2.carrierStatus ∧
      (creditedReceipts sha rs disps).Nodup ∧
      (∀ h ∈ creditedReceipts sha rs disps, s.1.window.lookup h = none) ∧
      (∀ h, (rs.foldl (admitReceipt sha tracker heightOf carrier bin) s).1.window.lookup h =
        if h ∈ creditedReceipts sha rs disps then some bin else s.1.window.lookup h) ∧
      (rs.foldl (admitReceipt sha tracker heightOf carrier bin) s).2.pushes.length +
          (rs.foldl (admitReceipt sha tracker heightOf carrier bin) s).2.drops =
        s.2.pushes.length + s.2.drops + (creditedReceipts sha rs disps).length := by
  induction rs generalizing s with
  | nil => exact ⟨[], by simp [creditedReceipts]⟩
  | cons r rs ih =>
    obtain ⟨disp, hdisp, hstatus, hnew, hwindow, hcount⟩ :=
      @admitReceipt_spec T sha tracker heightOf carrier bin s r
    obtain ⟨disps, hdisps, hstatus', hnodup, hnone, hlookup, hcount'⟩ :=
      ih (admitReceipt sha tracker heightOf carrier bin s r)
    have hcons : creditedReceipts sha (r :: rs) ((r.tag, disp) :: disps) =
        (if disp.Credits then [r.hash sha] else []) ++ creditedReceipts sha rs disps := by
      unfold creditedReceipts
      by_cases hcr : disp.Credits <;> simp [hcr]
    refine ⟨(r.tag, disp) :: disps, ?_, hstatus'.trans hstatus, ?_⟩
    · rw [foldl_cons, hdisps, hdisp, append_assoc, singleton_append]
    rw [hcons]
    by_cases hcr : disp.Credits
    · simp only [hcr, if_true, singleton_append] at hwindow hcount ⊢
      have hentered : (admitReceipt sha tracker heightOf carrier bin s r).1.window.lookup
          (r.hash sha) = some bin := by
        rw [hwindow, lookup_insert, if_pos rfl]
      have hother : r.hash sha ∉ creditedReceipts sha rs disps := by
        intro hmem
        rw [hnone _ hmem] at hentered
        cases hentered
      refine ⟨nodup_cons.mpr ⟨hother, hnodup⟩, ?_, ?_, ?_⟩
      · intro h hmem
        rcases mem_cons.mp hmem with rfl | hmem
        · exact hnew hcr
        have hout := hnone h hmem
        rw [hwindow, lookup_insert] at hout
        split at hout
        · cases hout
        · exact hout
      · intro h
        rw [foldl_cons, hlookup, hwindow, lookup_insert]
        by_cases heq : h = r.hash sha
        · simp [heq]
        · simp [heq]
      · rw [foldl_cons, hcount', hcount, length_cons]
        omega
    simp only [hcr, if_false, nil_append, Nat.add_zero] at hwindow hcount ⊢
    rw [hwindow] at hnone hlookup
    rw [foldl_cons]
    exact ⟨hnodup, hnone, hlookup, by rw [hcount', hcount]⟩

end Loop

/-! ## Runs -/

theorem receipts_taken {w : DedupWindow} {heightOf : Bytes32 → Option U64} {carrier : WorkEvent}
    {receipts : List WorkEvent} {bin : U64} {s : ReceiptAdmitter T × AdmitResult}
    (hwindow : s.1.window = (DedupWindow.prune w bin).insert (carrier.hash sha) bin)
    (hnew : (DedupWindow.prune w bin).lookup (carrier.hash sha) = none)
    (hreceipts : s.2.receipts = []) (hok : s.2.carrierStatus = .ok) :
    SeenWindow.Step dedupRetention (seen w)
      ⟨some bin.val, (carrier :: receipts).map (WorkEvent.hash sha)⟩
      (seen (receipts.foldl (admitReceipt sha tracker heightOf carrier bin) s).1.window)
      ((receipts.foldl (admitReceipt sha tracker heightOf carrier bin) s).2.credited sha
        carrier receipts) := by
  obtain ⟨disps, hdisps, hstatus, hnodup, hnone, hlookup, -⟩ :=
    @receipts_spec T sha tracker heightOf carrier bin receipts s
  have hcredited : (receipts.foldl (admitReceipt sha tracker heightOf carrier bin) s).2.credited
      sha carrier receipts = carrier.hash sha :: creditedReceipts sha receipts disps := by
    unfold AdmitResult.credited
    rw [hstatus, if_pos hok, hdisps, hreceipts, nil_append]
  rw [hwindow] at hnone hlookup
  have hother : carrier.hash sha ∉ creditedReceipts sha receipts disps := by
    intro hmem
    have hout := hnone _ hmem
    rw [lookup_insert, if_pos rfl] at hout
    cases hout
  rw [hcredited]
  apply SeenWindow.Step.taken
  · rw [map_cons]
    apply cons_subset_cons
    intro h hmem
    obtain ⟨e, he, rfl⟩ := mem_map.mp hmem
    exact mem_map_of_mem (of_mem_zip (mem_filter.mp he).1).1
  · exact nodup_cons.mpr ⟨hother, hnodup⟩
  · intro h hmem
    rw [← seen_prune]
    unfold seen
    rcases mem_cons.mp hmem with rfl | hmem
    · rw [hnew, map_none]
    have hout := hnone h hmem
    rw [lookup_insert] at hout
    split at hout
    · cases hout
    · rw [hout, map_none]
  · intro h hmem
    unfold seen
    rw [hlookup]
    rcases mem_cons.mp hmem with rfl | hmem
    · rw [if_neg hother, lookup_insert, if_pos rfl, map_some]
    · rw [if_pos hmem, map_some]
  · intro h hmem
    rw [mem_cons, not_or] at hmem
    rw [← seen_prune]
    unfold seen
    rw [hlookup, if_neg hmem.2, lookup_insert, if_neg hmem.1]

theorem admit_step (a : ReceiptAdmitter T) (heightOf : Bytes32 → Option U64)
    (carrier : WorkEvent) (receipts : List WorkEvent) :
    SeenWindow.Step dedupRetention (seen a.window)
      ⟨(checkedBin sha heightOf a.chain carrier receipts).map Fin.val,
        (carrier :: receipts).map (WorkEvent.hash sha)⟩
      (seen (a.admitCarrier sha tracker heightOf carrier receipts).1.window)
      ((a.admitCarrier sha tracker heightOf carrier receipts).2.credited sha carrier receipts) := by
  unfold admitCarrier
  cases checkedBin sha heightOf a.chain carrier receipts with
  | none =>
    have hnone : AdmitResult.credited sha
        { carrierStatus := if rMax < receipts.length then .rejectRmax else .rejectPow } carrier
        receipts = [] := by
      unfold AdmitResult.credited
      split <;> rfl
    rw [hnone]
    exact SeenWindow.Step.refused
  | some bin =>
    dsimp only
    by_cases hdup : (DedupWindow.prune a.window bin).lookup (carrier.hash sha) ≠ none
    · rw [if_pos hdup]
      apply SeenWindow.Step.taken (nil_subset _) nodup_nil
      · exact fun k hk => (not_mem_nil hk).elim
      · exact fun k hk => (not_mem_nil hk).elim
      · exact fun k _ => congrFun (seen_prune a.window bin) k
    rw [if_neg hdup]
    rw [not_not] at hdup
    exact receipts_taken rfl hdup rfl rfl

theorem chain_admit (a : ReceiptAdmitter T) (heightOf : Bytes32 → Option U64)
    (carrier : WorkEvent) (receipts : List WorkEvent) :
    (a.admitCarrier sha tracker heightOf carrier receipts).1.chain = a.chain := by
  have hround : ∀ (bin : U64) (s : ReceiptAdmitter T × AdmitResult) (r : WorkEvent),
      (admitReceipt sha tracker heightOf carrier bin s r).1.chain = s.1.chain := by
    intro bin s r
    unfold admitReceipt
    cases s.1.validateReceipt sha tracker heightOf r carrier bin <;> rfl
  have hloop : ∀ (bin : U64) (rs : List WorkEvent) (s : ReceiptAdmitter T × AdmitResult),
      (rs.foldl (admitReceipt sha tracker heightOf carrier bin) s).1.chain = s.1.chain := by
    intro bin rs
    induction rs with
    | nil => exact fun _ => rfl
    | cons r rs ih => exact fun s => (ih _).trans (hround bin s r)
  unfold admitCarrier
  cases checkedBin sha heightOf a.chain carrier receipts with
  | none => rfl
  | some bin =>
    dsimp only
    split
    · rfl
    · exact hloop bin receipts _

theorem creditedIn_runs {active : Bytes32 → Option U64} (a : ReceiptAdmitter T)
    (calls : List AdmitterCall) :
    SeenWindow.Runs dedupRetention (seen a.window) (calls.map (offer sha active a.chain))
      (a.creditedIn sha tracker active calls) := by
  induction calls generalizing a with
  | nil => exact SeenWindow.Runs.nil _
  | cons c calls ih =>
    cases c with
    | admitCarrier tip carrier receipts =>
      have hrest := ih (a.call sha tracker active (.admitCarrier tip carrier receipts))
      have hchain : (a.call sha tracker active (.admitCarrier tip carrier receipts)).chain =
          a.chain := chain_admit a _ carrier receipts
      rw [hchain] at hrest
      exact SeenWindow.Runs.cons (admit_step a _ carrier receipts) hrest
    | setDropHarvest enabled =>
      exact SeenWindow.Runs.cons SeenWindow.Step.refused (ih (a.setDropHarvest enabled))

/-- **Credit once**: in a run that presents no event again after a carrier more than the retention
above the bin it was brought at, every hash is pushed or harvested at most once. -/
theorem creditedIn_nodup {active : Bytes32 → Option U64} (tracker : ShareTracker T)
    (a : ReceiptAdmitter T) {calls : List AdmitterCall}
    (hin : SeenWindow.InTime dedupRetention (calls.map (offer sha active a.chain))) :
    (a.creditedIn sha tracker active calls).Nodup := (creditedIn_runs a calls).nodup hin

/-- The active chain, as far as the events below look at it. -/
def someHeights (h : Bytes32) : Option U64 :=
  ([10, 12, 15] : List U64).find? fun n => mainchainHash Sha256.sha256d n = h

def carrierAt (height nonce : U64) : AdmitterCall :=
  .admitCarrier 20
    { prevBlockHash := mainchainHash Sha256.sha256d height, lzBits := 8, nonce := nonce } []

/-- A carrier at bin 10, one at bin 15, and the first one again; the tip stays at 20. -/
def replay : List AdmitterCall := [carrierAt 10 579, carrierAt 15 105, carrierAt 10 579]

theorem replay_credited_twice : ¬ (creditedIn Sha256.sha256d memShareTracker someHeights
    { chain := 0, tracker := ∅ } replay).Nodup := by
  decide +kernel

def replayInTime : List AdmitterCall := [carrierAt 10 579, carrierAt 12 325, carrierAt 10 579]

theorem creditedIn_nodup_replayInTime :
    (creditedIn Sha256.sha256d memShareTracker someHeights { chain := 0, tracker := ∅ }
      replayInTime).length = 2 ∧
    (creditedIn Sha256.sha256d memShareTracker someHeights { chain := 0, tracker := ∅ }
      replayInTime).Nodup := by
  have hoffers : replayInTime.map (offer Sha256.sha256d someHeights 0) =
      [⟨some 10, [0x00b2b0d787318e392fd3f1cb79d8883a51189f9a7ac43f33a12c3223486e8401]⟩,
        ⟨some 12, [0x00946651cf6dea3123a78efaaf509279955c2d42595c36672dc005b31fa186af]⟩,
        ⟨some 10, [0x00b2b0d787318e392fd3f1cb79d8883a51189f9a7ac43f33a12c3223486e8401]⟩] := by
    decide +kernel
  refine ⟨by decide +kernel, creditedIn_nodup memShareTracker _ ?_⟩
  rw [hoffers]
  exact SeenWindow.inTime_of_close (by decide)

end ReceiptAdmitter

end C2Pool.V37
