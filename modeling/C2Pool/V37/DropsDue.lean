import Mathlib.Algebra.Order.Group.Abs
import C2Pool.V37.OwedConservation

/-! # Drops due

A block deposits its drops when it is found; they become due when it is finalized. A canonical block
claims all that is available, which is what is due less the claims of the pending blocks.
-/

namespace C2Pool.V37

open List SortedMap Balances

/-- The range of `long long`. -/
def InRange (x : Int) : Prop := -2 ^ 63 ≤ x ∧ x ≤ 2 ^ 63 - 1

instance (x : Int) : Decidable (InRange x) := inferInstanceAs (Decidable (_ ∧ _))

theorem dropsSatAdd_eq {a b : Int} (h : InRange (a + b)) : dropsSatAdd a b = a + b := by
  obtain ⟨hlo, hhi⟩ := h
  unfold dropsSatAdd
  rw [min_eq_right hhi, max_eq_right hlo]

/-- The loop body of `apply_drops_due`, on the credit and on what is written off. -/
def foldDrop (s : Amounts × Amounts) (e : Bytes32 × Int) : Amounts × Amounts :=
  if e.2 = 0 then s
  else
    let v := dropsSatAdd (s.1.balance e.1) e.2
    if 0 < v then (s.1.insert e.1 v, s.2)
    else (s.1.erase e.1, if v < 0 then s.2.insert e.1 v else s.2)

/-- `apply_drops_due`: the credit with the available drops folded in, clamped at zero, and what
is written off. -/
def applyDropsDue (credit avail writeoff : Amounts) : Amounts × Amounts :=
  avail.entries.foldl foldDrop (credit, writeoff)

variable {k : Bytes32}

theorem foldDrop_of_ne (s : Amounts × Amounts) (e : Bytes32 × Int) (hne : e.1 ≠ k) :
    ((foldDrop s e).1.balance k, (foldDrop s e).2.balance k) = (s.1.balance k, s.2.balance k) := by
  unfold foldDrop
  split
  · rfl
  dsimp only
  split
  · rw [balance_insert, if_neg hne.symm]
  rw [balance_erase, if_neg hne.symm]
  split
  · rw [balance_insert, if_neg hne.symm]
  · rfl

theorem applyDropsDue_conserves {credit avail writeoff : Amounts} (hnone : writeoff.balance k = 0)
    (ha : avail.balance k ≠ 0) (hfits : InRange (credit.balance k + avail.balance k)) :
    (applyDropsDue credit avail writeoff).1.balance k +
        (applyDropsDue credit avail writeoff).2.balance k = credit.balance k + avail.balance k ∧
    0 ≤ (applyDropsDue credit avail writeoff).1.balance k := by
  obtain ⟨s, hs, hread⟩ := foldl_at_key foldDrop
    (fun s => (s.1.balance k, s.2.balance k)) foldDrop_of_ne avail (credit, writeoff)
  cases hrow : avail.lookup k with
  | none => simp [Balances.balance, hrow] at ha
  | some v =>
    rw [balance_of_lookup hrow] at ha hfits ⊢
    rw [hrow] at hread
    simp only [Prod.mk.injEq] at hs hread
    obtain ⟨hcredit, hoff⟩ := hread
    unfold applyDropsDue
    rw [hcredit, hoff, ← hs.1]
    rw [← hs.1] at hfits
    unfold foldDrop
    rw [if_neg ha]
    dsimp only
    rw [dropsSatAdd_eq hfits]
    split
    · rw [balance_insert, if_pos rfl]
      dsimp only
      omega
    rw [balance_erase, if_pos rfl]
    dsimp only
    split
    · rw [balance_insert, if_pos rfl]
      omega
    · omega

namespace OwedLedger

variable {rules : OwedLedgerRules}

def claims (rows : List (Bid × Pending)) (k : Bytes32) : Int :=
  (rows.map fun e => e.2.claimed.balance k).sum

/-- No sum that `drops_available` forms leaves the range. -/
def AvailableFits (l : OwedLedger) : Prop :=
  ∀ k n, InRange (l.due.balance k - claims (l.pending.entries.take n) k)

def SettlesInRange (l : OwedLedger) : LedgerCall → Prop
  | .finalized bid _ => ∀ p, l.pending.lookup bid = some p → ∀ k,
      InRange (l.due.balance k - p.claimed.balance k) ∧
        InRange (l.due.balance k - p.claimed.balance k + p.deposit.balance k)
  | _ => True

def ClaimsAvailable (rules : OwedLedgerRules) (l : OwedLedger) : LedgerCall → Prop
  | .found _ args => ∀ d, args.drops = some d → d.claim = true →
      d.claimed = l.dropsAvailable rules
  | _ => True

def Claiming (rules : OwedLedgerRules) (l : OwedLedger) (c : LedgerCall) : Prop :=
  l.AvailableFits ∧ l.SettlesInRange c ∧ l.ClaimsAvailable rules c

theorem balance_satAll (op : Int → Int) (m d : Amounts) (k : Bytes32) (hzero : op 0 = 0)
    (hfits : InRange (m.balance k + op (d.balance k))) :
    Balances.balance (m.combine (fun x v => dropsSatAdd x (op v)) d) k =
      m.balance k + op (d.balance k) := by
  rw [balance_combine]
  cases hrow : d.lookup k with
  | none =>
    rw [Balances.balance, Balances.balance, hrow, Option.getD_none, hzero, add_zero]
  | some v =>
    rw [balance_of_lookup hrow] at hfits
    dsimp only
    rw [dropsSatAdd_eq hfits, balance_of_lookup hrow]

/-- The loop of `drops_available`, when no partial sum saturates. -/
theorem balance_foldl_claims (rows : List (Bid × Pending)) (m : Amounts) (k : Bytes32)
    (hfits : ∀ n, InRange (m.balance k - claims (rows.take n) k)) :
    Balances.balance (rows.foldl
      (fun a e => a.combine (fun x v => dropsSatAdd x (-v)) e.2.claimed) m) k =
      m.balance k - claims rows k := by
  induction rows generalizing m with
  | nil => simp [claims]
  | cons e rows ih =>
    have hstep : Balances.balance
        (m.combine (fun x v => dropsSatAdd x (-v)) e.2.claimed) k =
        m.balance k - e.2.claimed.balance k := by
      have hone := hfits 1
      simp only [claims, take_succ_cons, take_zero, map_cons, map_nil,
        sum_cons, sum_nil, add_zero] at hone
      exact balance_satAll (fun v => -v) m e.2.claimed k rfl hone
    rw [foldl_cons, ih, hstep]
    · simp [claims]
      omega
    intro n
    rw [hstep]
    have := hfits (n + 1)
    rwa [sub_sub]

theorem balance_dropsAvailable (hdue : rules.dropsDue = true) {l : OwedLedger}
    (hfits : l.AvailableFits) (k : Bytes32) :
    (l.dropsAvailable rules).balance k =
      l.due.balance k - l.pending.sumBy fun p => p.claimed.balance k := by
  unfold dropsAvailable
  rw [if_pos hdue, balance_nonzero, balance_foldl_claims _ _ _ (hfits k)]
  rfl

end OwedLedger

namespace Finalized

variable (rules : OwedLedgerRules) (fin : Finalized) (p : Pending) (binHeight : U64)

theorem due_settle : (fin.settle rules p binHeight).due = (fin.settleDue rules p).due := by
  have hclock : ∀ f : Finalized, (f.runClock rules p binHeight).due = f.due := by
    intro f
    unfold runClock
    split
    · dsimp only
      split <;> rfl
    · rfl
  have hanchor : ∀ f : Finalized, (f.moveAnchor rules p).due = f.due := by
    intro f
    unfold moveAnchor
    split
    · split <;> rfl
    · rfl
  have hheight : ∀ f : Finalized, (f.noteHeight rules p).due = f.due := by
    intro f
    unfold noteHeight
    split <;> rfl
  have hjoin : ∀ f : Finalized, (f.joinRegistry rules p).due = f.due := by
    intro f
    unfold joinRegistry
    split <;> rfl
  have hslide : ∀ f : Finalized, (f.slideWindow rules p).due = f.due := by
    intro f
    unfold slideWindow
    split <;> rfl
  have hdust : ∀ f : Finalized, (f.decayDust rules binHeight).due = f.due := by
    intro f
    unfold decayDust
    split <;> rfl
  have hsettle : ∀ f g : Finalized, f.due = g.due →
      (f.settleDue rules p).due = (g.settleDue rules p).due := by
    intro f g hfg
    unfold settleDue
    split
    · simp only [hfg]
    · exact hfg
  show (decayDust rules (fin.absorb rules p binHeight) binHeight).due = _
  unfold absorb
  rw [hdust, hslide, hjoin]
  apply hsettle
  rw [hanchor, hclock, hheight]
  rfl

theorem balance_due_settle (hdue : rules.dropsDue = true) {k : Bytes32}
    (hclaim : InRange (fin.due.balance k - p.claimed.balance k))
    (hdeposit : InRange (fin.due.balance k - p.claimed.balance k + p.deposit.balance k)) :
    (fin.settle rules p binHeight).due.balance k =
      fin.due.balance k - p.claimed.balance k + p.deposit.balance k := by
  have hgone := OwedLedger.balance_satAll (fun v => -v) fin.due p.claimed k rfl hclaim
  rw [due_settle]
  unfold settleDue
  rw [if_pos hdue]
  rw [balance_nonzero]
  have hcome := OwedLedger.balance_satAll id
    (fin.due.combine (fun x v => dropsSatAdd x (-v)) p.claimed) p.deposit k rfl
    (by rw [hgone]; exact hdeposit)
  rw [hgone] at hcome
  exact hcome

end Finalized

namespace OwedLedger

variable {sha : List Byte → Bytes32} {rules : OwedLedgerRules} {l : OwedLedger}
  {bk : Book Bid FoundArgs U64} {c : LedgerCall} {calls : List LedgerCall} {args : FoundArgs}

def depositOf (rules : OwedLedgerRules) (k : Bytes32) (args : FoundArgs) : Int :=
  (Pending.ofFound rules args).deposit.balance k

def claimOf (rules : OwedLedgerRules) (k : Bytes32) (args : FoundArgs) : Int :=
  (Pending.ofFound rules args).claimed.balance k

def DueBanked (rules : OwedLedgerRules) (l : OwedLedger) (bk : Book Bid FoundArgs U64) : Prop :=
  ∀ k, l.due.balance k = bk.settledSum (depositOf rules k) - bk.settledSum (claimOf rules k)

theorem DueBanked.call (hdue : rules.dropsDue = true) (hkeeps : Keeps rules l bk)
    (h : DueBanked rules l bk) (hc : Claiming rules l c) :
    DueBanked rules (l.call sha rules c) (bk.step c.event) := by
  cases c with
  | found bid args =>
    simp only [OwedLedger.call, onBlockFound, LedgerCall.event, Book.step]
    intro k
    split <;> split <;> exact h k
  | finalized bid binHeight =>
    have hrow := hkeeps.lookup bid
    simp only [OwedLedger.call, onBlockFinalized, LedgerCall.event, Book.step]
    cases hr : bk.pending.lookup bid with
    | none =>
      rw [hr, Option.map_none] at hrow
      rw [hrow]
      exact h
    | some args =>
      rw [hr, Option.map_some] at hrow
      rw [hrow]
      intro k
      obtain ⟨hclaim, hdeposit⟩ := hc.2.1 _ hrow k
      show (l.settle rules (Pending.ofFound rules args) binHeight).due.balance k = _
      rw [Finalized.balance_due_settle _ _ _ _ hdue hclaim hdeposit, h k]
      simp only [Book.settledSum, map_append, map_cons, map_nil,
        sum_append, sum_cons, sum_nil, depositOf, claimOf]
      omega
  | orphaned bid settledPayout =>
    intro k
    have hsame : (l.call sha rules (.orphaned bid settledPayout)).toFinalized = l.toFinalized := by
      simp only [OwedLedger.call, onBlockOrphaned]
      split
      · rfl
      split
      · exact toFinalized_noteResidual l bid settledPayout.total
      · rfl
    rw [hsame]
    exact h k

theorem dueBanked_run (hdue : rules.dropsDue = true) (hkeeps : Keeps rules l bk)
    (h : DueBanked rules l bk) (hcalls : Run.Admissible (call sha rules) (Claiming rules) l calls) :
    DueBanked rules (Run.run (call sha rules) l calls)
      (Run.run Book.step bk (calls.map LedgerCall.event)) := by
  induction calls generalizing l bk with
  | nil => exact h
  | cons c calls ih =>
    exact ih (hkeeps.call c) (h.call hdue hkeeps hcalls.1) hcalls.2

/-! ## Nothing is claimed twice -/

/-- Every pending claim is reserved: no claim and no deposit is negative, and the claims do not
exceed what is due. -/
structure Reserved (l : OwedLedger) : Prop where
  rows : ∀ bid p, l.pending.lookup bid = some p →
    ∀ k, 0 ≤ p.claimed.balance k ∧ 0 ≤ p.deposit.balance k
  spare : ∀ k, 0 ≤ l.due.balance k - l.pending.sumBy fun p => p.claimed.balance k

def DepositsNonneg : LedgerCall → Prop
  | .found _ args => ∀ d, args.drops = some d → ∀ k, 0 ≤ d.deposit.balance k
  | _ => True

theorem claim_ofFound (hdue : rules.dropsDue = true) {bid : Bid}
    (hc : Claiming rules l (.found bid args)) (k : Bytes32) :
    (Pending.ofFound rules args).claimed.balance k = 0 ∨
      (Pending.ofFound rules args).claimed.balance k =
        l.due.balance k - l.pending.sumBy fun p => p.claimed.balance k := by
  unfold Pending.ofFound
  cases hd : args.drops with
  | none => exact .inl rfl
  | some d =>
    dsimp only
    split
    · rename_i hclaim
      right
      rw [balance_nonzero, hc.2.2 d hd hclaim.2, balance_dropsAvailable hdue hc.1]
    · exact .inl rfl

theorem deposit_ofFound (h : ∀ d, args.drops = some d → ∀ k, 0 ≤ d.deposit.balance k)
    (k : Bytes32) : 0 ≤ (Pending.ofFound rules args).deposit.balance k := by
  unfold Pending.ofFound
  cases hd : args.drops with
  | none => exact le_refl 0
  | some d =>
    dsimp only
    split
    · rw [balance_nonzero]
      exact h d hd k
    · exact le_refl 0

theorem Reserved.call (hdue : rules.dropsDue = true) (h : l.Reserved) (hc : Claiming rules l c)
    (hdeposit : DepositsNonneg c) : (l.call sha rules c).Reserved := by
  obtain heq | ⟨bid, args, rfl, hnone, hnew, heq⟩ | ⟨bid, binHeight, p, rfl, hp, heq⟩ |
      ⟨bid, settledPayout, p, rfl, hp, heq⟩ | ⟨bid, settledPayout, rfl, hnone, hset, heq⟩ :=
    @call_cases sha rules l c <;> rw [heq]
  · exact h
  · constructor
    · intro x p hp k
      simp only [bump] at hp
      rw [lookup_insert] at hp
      split at hp
      · cases hp
        refine ⟨?_, deposit_ofFound hdeposit k⟩
        obtain hzero | hall := claim_ofFound hdue hc k
        · rw [hzero]
        · rw [hall]
          exact h.spare k
      · exact h.rows x p hp k
    intro k
    show 0 ≤ l.due.balance k -
      (l.pending.insert bid (Pending.ofFound rules args)).sumBy fun p => p.claimed.balance k
    rw [sumBy_insert hnone]
    have hspare := h.spare k
    obtain hzero | hall := claim_ofFound hdue hc k
    · rw [hzero]
      omega
    · rw [hall]
      omega
  · constructor
    · exact forall_lookup_erase h.rows bid
    intro k
    obtain ⟨hclaim, hdep⟩ := hc.2.1 p hp k
    show 0 ≤ (l.settle rules p binHeight).due.balance k -
      (l.pending.erase bid).sumBy fun p => p.claimed.balance k
    rw [Finalized.balance_due_settle _ _ _ _ hdue hclaim hdep]
    have hspare := h.spare k
    have hrow := (h.rows bid p hp k).2
    have hsum := sumBy_of_lookup hp fun p => p.claimed.balance k
    omega
  · constructor
    · exact forall_lookup_erase h.rows bid
    intro k
    show 0 ≤ l.due.balance k - (l.pending.erase bid).sumBy fun p => p.claimed.balance k
    have hspare := h.spare k
    have hrow := (h.rows bid p hp k).1
    have hsum := sumBy_of_lookup hp fun p => p.claimed.balance k
    omega
  · constructor
    · simpa [bump] using h.rows
    · intro k
      simpa [bump] using h.spare k

theorem reserved_run (hdue : rules.dropsDue = true) (h : l.Reserved)
    (hcalls : Run.Admissible (call sha rules) (Claiming rules) l calls)
    (hdeposits : ∀ c ∈ calls, DepositsNonneg c) : (Run.run (call sha rules) l calls).Reserved := by
  induction calls generalizing l with
  | nil => exact h
  | cons c calls ih =>
    exact ih (h.call hdue hcalls.1 (hdeposits c mem_cons_self)) hcalls.2
      fun c' hc' => hdeposits c' (mem_cons_of_mem c hc')

/-- Conservation of the drops due: what the settled blocks deposited is what was claimed and what
is available; without negative deposits nothing is claimed twice; and folding the drops into an
entitlement loses nothing. -/
theorem after_due_conserves (sha : List Byte → Bytes32) {rules : OwedLedgerRules}
    (hdue : rules.dropsDue = true) {calls : List LedgerCall}
    (hcalls : Run.Admissible (call sha rules) (Claiming rules) {} calls)
    (hfits : (after sha rules calls).AvailableFits) :
    (∀ k, (bookOf calls).settledSum (depositOf rules k) =
        (bookOf calls).settledSum (claimOf rules k) + (bookOf calls).pendingSum (claimOf rules k) +
          ((after sha rules calls).dropsAvailable rules).balance k) ∧
      ((∀ c ∈ calls, DepositsNonneg c) →
        ∀ k, 0 ≤ ((after sha rules calls).dropsAvailable rules).balance k) ∧
      ∀ (credit avail writeoff : Amounts) (k : Bytes32), writeoff.balance k = 0 →
        avail.balance k ≠ 0 → InRange (credit.balance k + avail.balance k) →
        (applyDropsDue credit avail writeoff).1.balance k +
            (applyDropsDue credit avail writeoff).2.balance k = credit.balance k + avail.balance k ∧
        0 ≤ (applyDropsDue credit avail writeoff).1.balance k := by
  have hkeeps : Keeps rules (after sha rules calls) (bookOf calls) := keeps_after calls
  have hstart : Keeps rules {} ({} : Book Bid FoundArgs U64) :=
    ⟨rfl, fun bid => by simp [Book.settled], rfl⟩
  have hbanked : DueBanked rules (after sha rules calls) (bookOf calls) :=
    dueBanked_run hdue hstart (fun _ => rfl) hcalls
  have havail := balance_dropsAvailable hdue hfits
  refine ⟨fun k => ?_, fun hdeposits k => ?_, fun _ _ _ _ => applyDropsDue_conserves⟩
  · have hpending : (after sha rules calls).pending.sumBy (fun p => p.claimed.balance k) =
        (bookOf calls).pendingSum (claimOf rules k) := by
      rw [hkeeps.pending, SortedMap.sumBy, entries_mapValues, map_map]
      rfl
    rw [havail, hbanked, hpending]
    omega
  have hreserved : (after sha rules calls).Reserved :=
    reserved_run hdue ⟨fun _ _ h => (by cases h), fun _ => le_refl 0⟩ hcalls hdeposits
  rw [havail]
  exact hreserved.spare k

/-- Every row at most 2^40, and at most 2^20 pending blocks. -/
def Small (l : OwedLedger) : Prop :=
  (∀ e ∈ l.due.entries, |e.2| ≤ 2 ^ 40) ∧ l.pending.entries.length ≤ 2 ^ 20 ∧
    ∀ e ∈ l.pending.entries, (∀ r ∈ e.2.claimed.entries, |r.2| ≤ 2 ^ 40) ∧
      ∀ r ∈ e.2.deposit.entries, |r.2| ≤ 2 ^ 40

instance (l : OwedLedger) : Decidable l.Small := inferInstanceAs (Decidable (_ ∧ _ ∧ _))

theorem abs_balance_le {m : Amounts} (h : ∀ e ∈ m.entries, |e.2| ≤ 2 ^ 40) (k : Bytes32) :
    |m.balance k| ≤ 2 ^ 40 := by
  cases hk : m.lookup k with
  | none => simp [Balances.balance, hk]
  | some v =>
    rw [balance_of_lookup hk]
    exact h (k, v) (mem_entries_iff.mpr hk)

theorem abs_claims_le {rows : List (Bid × Pending)}
    (h : ∀ e ∈ rows, ∀ r ∈ e.2.claimed.entries, |r.2| ≤ 2 ^ 40) (k : Bytes32) :
    |claims rows k| ≤ rows.length * 2 ^ 40 := by
  induction rows with
  | nil => simp [claims]
  | cons e rows ih =>
    have hrest := ih fun e' he' => h e' (mem_cons_of_mem e he')
    have hfirst := abs_balance_le (h e mem_cons_self) k
    have hsum : claims (e :: rows) k = e.2.claimed.balance k + claims rows k := by
      simp [claims]
    rw [hsum, length_cons]
    rw [abs_le] at hrest hfirst ⊢
    omega

theorem Small.availableFits (h : l.Small) : l.AvailableFits := by
  intro k n
  have hdue := abs_balance_le h.1 k
  have hclaims := @abs_claims_le (l.pending.entries.take n)
    (fun e he => (h.2.2 e (mem_of_mem_take he)).1) k
  have hlen : (l.pending.entries.take n).length ≤ 2 ^ 20 := le_trans (length_take_le' n _) h.2.1
  rw [abs_le] at hdue hclaims
  constructor <;> omega

theorem Small.settlesInRange (h : l.Small) (c : LedgerCall) : l.SettlesInRange c := by
  cases c with
  | found bid args => trivial
  | orphaned bid settledPayout => trivial
  | finalized bid binHeight =>
    intro p hp k
    obtain ⟨hclaimed, hdeposited⟩ := h.2.2 (bid, p) (mem_entries_iff.mpr hp)
    have hdue := abs_balance_le h.1 k
    have hclaim : |p.claimed.balance k| ≤ 2 ^ 40 := abs_balance_le hclaimed k
    have hdeposit : |p.deposit.balance k| ≤ 2 ^ 40 := abs_balance_le hdeposited k
    rw [abs_le] at hdue hclaim hdeposit
    constructor <;> constructor <;> omega

def claimTwice : List LedgerCall :=
  [.found [1] { drops := some { deposit := SortedMap.insert ∅ 1 10 } }, .finalized [1] 5,
    .found [2] { drops := some { claim := true, claimed := SortedMap.insert ∅ 1 10 } },
    .orphaned [2] ∅,
    .found [3] { drops := some { claim := true, claimed := SortedMap.insert ∅ 1 10 } }]

theorem claimTwice_claiming :
    Run.Admissible (call (fun _ => 0) { dropsDue := true }) (Claiming { dropsDue := true }) {}
      claimTwice := by
  have hsmall : ∀ {l : OwedLedger} {c : LedgerCall}, l.Small →
      l.ClaimsAvailable { dropsDue := true } c → Claiming { dropsDue := true } l c :=
    fun h hc => ⟨h.availableFits, h.settlesInRange _, hc⟩
  refine ⟨hsmall (by decide +kernel) ?_, hsmall (by decide +kernel) trivial,
    hsmall (by decide +kernel) ?_, hsmall (by decide +kernel) trivial,
    hsmall (by decide +kernel) ?_, trivial⟩
  · intro d hd hclaim
    cases hd
    cases hclaim
  · intro d hd _
    cases hd
    decide +kernel
  · intro d hd _
    cases hd
    decide +kernel

theorem after_due_conserves_claimTwice :
    (bookOf claimTwice).settledSum (depositOf { dropsDue := true } 1) = 10 ∧
      (bookOf claimTwice).settledSum (depositOf { dropsDue := true } 1) =
        (bookOf claimTwice).settledSum (claimOf { dropsDue := true } 1) +
          (bookOf claimTwice).pendingSum (claimOf { dropsDue := true } 1) +
          ((after (fun _ => 0) { dropsDue := true } claimTwice).dropsAvailable
            { dropsDue := true }).balance 1 :=
  ⟨by decide +kernel, (after_due_conserves (fun _ => 0) rfl claimTwice_claiming
    (Small.availableFits (by decide +kernel))).1 1⟩

end OwedLedger

end C2Pool.V37
