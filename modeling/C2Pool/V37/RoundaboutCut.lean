import C2Pool.V37.Merkle

/-! # The cut over the roundabout legs

`rb_checkpoint.hpp`: `read_cut_k` reads every leg, the ledger, and every leg again.
Other parties change the legs and the ledger between any two reads.  The clock
counts the reads, and the state is what each of them finds.
-/

namespace C2Pool.V37.Roundabout

open List

structure CutLeg where
  rbIndex : Nat := 0
  incarnation : U64 := 0
  version : U64 := 0
  nextPos : U64 := 0
  spineDigest : Bytes32 := 0
deriving DecidableEq

structure LedgerLeg where
  ledgerSeq : U64 := 0
  owedDigest : Bytes32 := 0
deriving DecidableEq

structure CutTokenK where
  legs : List CutLeg
  ledger : LedgerLeg
  lanesRoot : Bytes32
deriving DecidableEq

section Merkle

variable (hashBytes : List Byte → Bytes32)

def merkleLf (leaf : Bytes32) : Bytes32 := hashBytes (putTag "V37RBL" ++ leaf.toBytes)

def merkleNd (l r : Bytes32) : Bytes32 :=
  hashBytes (putTag "V37RBN" ++ l.toBytes ++ r.toBytes)

/-- `merkle_root` of the checkpoint; an odd node is promoted, and no leaves give zero. -/
def cutMerkleRoot (leaves : List Bytes32) : Bytes32 :=
  (PairTree.promoteAll (merkleNd hashBytes) leaves.length
    (leaves.map (merkleLf hashBytes))).headD 0

end Merkle

/-- What the legs and the ledger hold at one moment; a leg that the ring misses holds nothing. -/
structure Registers where
  leg : Nat → Option CutLeg
  ledger : LedgerLeg

section Read

variable (hashBytes : List Byte → Bytes32) (world : Nat → Registers)

/-- The first pass: legs `i` to `i + n`, one read each. -/
def readLegs (i : Nat) : Nat → Nat → Option (List CutLeg) × Nat
  | 0, clock => (some [], clock)
  | n + 1, clock =>
    match (world clock).leg i with
    | none => (none, clock + 1)
    | some l =>
      let rest := readLegs (i + 1) n (clock + 1)
      (rest.1.map (l :: ·), rest.2)

def legsHeld (i : Nat) : List CutLeg → Nat → Bool × Nat
  | [], clock => (true, clock)
  | l :: legs, clock =>
    if (world clock).leg i = some l then legsHeld (i + 1) legs (clock + 1)
    else (false, clock + 1)

structure CutRead where
  token : Option CutTokenK := none
  attemptsUsed : Nat
  clock : Nat

/-- `read_cut_k` from attempt `attempt` on. -/
def readCutFrom (k attempt : Nat) : Nat → Nat → CutRead
  | 0, clock => { attemptsUsed := attempt, clock := clock }
  | budget + 1, clock =>
    match readLegs world 0 k clock with
    | (none, clock) => { attemptsUsed := attempt + 1, clock := clock }
    | (some a, clock) =>
      let ledger := (world clock).ledger
      match legsHeld world 0 a (clock + 1) with
      | (false, clock) => readCutFrom k (attempt + 1) budget clock
      | (true, clock) =>
        if (world clock).ledger = ledger then
          { token := some
              { legs := a
                ledger := ledger
                lanesRoot := cutMerkleRoot hashBytes (a.map CutLeg.spineDigest) }
            attemptsUsed := attempt + 1
            clock := clock + 1 }
        else readCutFrom k (attempt + 1) budget (clock + 1)

def readCutK (k retryBudget clock : Nat) : CutRead :=
  readCutFrom hashBytes world k 0 retryBudget clock

end Read

/-- A value that a register has left is not held again. -/
def NeverReturns {α : Type} (reg : Nat → α) (v : α) : Prop :=
  ∀ s t u, s ≤ t → t ≤ u → reg s = v → reg u = v → reg t = v

variable {k : Nat} {a : List CutLeg} {token : CutTokenK}

theorem readLegs_spec {world : Nat → Registers} {n i clock : Nat} {clock' : Nat}
    (h : readLegs world i n clock = (some a, clock')) :
    a.length = n ∧ clock ≤ clock' ∧
      ∀ j l, a[j]? = some l → ∃ t, t < clock' ∧ (world t).leg (i + j) = some l := by
  induction n generalizing i clock a with
  | zero =>
    cases h
    exact ⟨rfl, le_rfl, fun j l hl => by simp at hl⟩
  | succ n ih =>
    rw [readLegs] at h
    split at h
    · cases h
    rename_i first hfirst
    obtain ⟨rest, hrest, rfl⟩ := Option.map_eq_some_iff.mp (Prod.mk.inj h).1
    obtain ⟨hlen, hle, hheld⟩ := ih (Prod.ext hrest (Prod.mk.inj h).2)
    refine ⟨by rw [length_cons, hlen], by omega, ?_⟩
    intro j l hl
    cases j with
    | zero =>
      rw [getElem?_cons_zero] at hl
      exact ⟨clock, by omega, hl ▸ hfirst⟩
    | succ j =>
      obtain ⟨t, ht, hleg⟩ := hheld j l (by rwa [getElem?_cons_succ] at hl)
      exact ⟨t, ht, by rw [show i + (j + 1) = i + 1 + j by omega]; exact hleg⟩

theorem clock_le_legsHeld (world : Nat → Registers) (i : Nat) (a : List CutLeg) (clock : Nat) :
    clock ≤ (legsHeld world i a clock).2 := by
  induction a generalizing i clock with
  | nil => exact le_rfl
  | cons l a ih =>
    rw [legsHeld]
    split
    · exact (Nat.le_succ clock).trans (ih (i + 1) (clock + 1))
    · exact Nat.le_succ clock

theorem legsHeld_spec {world : Nat → Registers} {i clock clock' : Nat}
    (h : legsHeld world i a clock = (true, clock')) :
    ∀ j l, a[j]? = some l → ∃ t, clock ≤ t ∧ (world t).leg (i + j) = some l := by
  induction a generalizing i clock with
  | nil => exact fun j l hl => by simp at hl
  | cons first a ih =>
    rw [legsHeld] at h
    split at h
    · rename_i hfirst
      intro j l hl
      cases j with
      | zero =>
        rw [getElem?_cons_zero] at hl
        exact ⟨clock, le_rfl, hl ▸ hfirst⟩
      | succ j =>
        obtain ⟨t, ht, hleg⟩ := ih h j l (by rwa [getElem?_cons_succ] at hl)
        exact ⟨t, by omega, by rw [show i + (j + 1) = i + 1 + j by omega]; exact hleg⟩
    · cases h

def CutTokenK.HoldsAt (token : CutTokenK) (world : Nat → Registers) (k t : Nat) : Prop :=
  token.legs.length = k ∧ (world t).ledger = token.ledger ∧
    ∀ i < k, (world t).leg i = token.legs[i]?

theorem readCutFrom_spec {hashBytes : List Byte → Bytes32} {world : Nat → Registers}
    (hleg : ∀ i l, NeverReturns (fun t => (world t).leg i) (some l)) {attempt budget clock : Nat}
    (h : (readCutFrom hashBytes world k attempt budget clock).token = some token) :
    (∃ t, clock ≤ t ∧ t < (readCutFrom hashBytes world k attempt budget clock).clock ∧
        token.HoldsAt world k t) ∧
      token.lanesRoot = cutMerkleRoot hashBytes (token.legs.map CutLeg.spineDigest) := by
  induction budget generalizing attempt clock with
  | zero => cases h
  | succ budget ih =>
    rw [readCutFrom] at h ⊢
    split at h
    · cases h
    rename_i a clockL hread
    obtain ⟨hlen, hle, hbefore⟩ := readLegs_spec hread
    dsimp only at h ⊢
    split at h
    · rename_i clock' hheld
      have hmoved := clock_le_legsHeld world 0 a (clockL + 1)
      rw [hheld] at hmoved
      dsimp only at hmoved
      obtain ⟨⟨t, hstart, hend, hcut⟩, hroot⟩ := ih h
      exact ⟨⟨t, by omega, hend, hcut⟩, hroot⟩
    rename_i clock' hheld
    have hafter := legsHeld_spec hheld
    have hmoved := clock_le_legsHeld world 0 a (clockL + 1)
    rw [hheld] at hmoved
    dsimp only at h hmoved ⊢
    split at h
    · rename_i hsame
      rw [if_pos hsame]
      cases h
      refine ⟨⟨clockL, hle, ?_, hlen, rfl, ?_⟩, rfl⟩
      · show clockL < clock' + 1
        omega
      intro i hi
      obtain ⟨l, hl⟩ : ∃ l, a[i]? = some l := ⟨_, getElem?_eq_getElem (by omega)⟩
      obtain ⟨s, hs, hfirst⟩ := hbefore i l hl
      obtain ⟨u, hu, hsecond⟩ := hafter i l hl
      rw [Nat.zero_add] at hfirst hsecond
      show (world clockL).leg i = a[i]?
      rw [hl]
      exact hleg i l s clockL u hs.le (by omega) hfirst hsecond
    rename_i hdiff
    rw [if_neg hdiff]
    obtain ⟨⟨t, hstart, hend, hcut⟩, hroot⟩ := ih h
    exact ⟨⟨t, by omega, hend, hcut⟩, hroot⟩

/-- Every token is a cut: at one moment of the call every leg and the ledger held exactly what it
says. -/
theorem readCutK_holds (hashBytes : List Byte → Bytes32) (world : Nat → Registers)
    (hleg : ∀ i l, NeverReturns (fun t => (world t).leg i) (some l)) (k retryBudget clock : Nat)
    (h : (readCutK hashBytes world k retryBudget clock).token = some token) :
    (∃ t, clock ≤ t ∧ t < (readCutK hashBytes world k retryBudget clock).clock ∧
        token.HoldsAt world k t) ∧
      token.lanesRoot = cutMerkleRoot hashBytes (token.legs.map CutLeg.spineDigest) :=
  readCutFrom_spec hleg h

def busyLegs (clock : Nat) : Registers where
  leg i := some { rbIndex := i, version := if i = 1 ∧ 2 ≤ clock then 1 else 0 }
  ledger := {}

theorem readCutK_holds_busyLegs :
    let out := readCutK (fun b => Fin.ofNat _ b.length) busyLegs 2 4 0
    out.attemptsUsed = 2 ∧ ∃ token, out.token = some token ∧
      ∃ t, t < out.clock ∧ token.HoldsAt busyLegs 2 t := by
  intro out
  obtain ⟨token, htoken⟩ : ∃ token, out.token = some token := ⟨_, rfl⟩
  have hleg : ∀ i l, NeverReturns (fun t => (busyLegs t).leg i) (some l) := by
    intro i l s t u hst htu hs hu
    dsimp only [busyLegs] at hs hu ⊢
    rw [← hs] at hu
    rw [← hs]
    by_cases hi : i = 1
    · by_cases hs2 : 2 ≤ s
      · simp [hi, hs2, show 2 ≤ t by omega]
      by_cases hu2 : 2 ≤ u
      · simp [hi, hs2, hu2] at hu
      · simp [hi, hs2, show ¬ 2 ≤ t by omega]
    · simp [hi]
  obtain ⟨⟨t, -, hlt, hcut⟩, -⟩ :=
    readCutK_holds (fun b => Fin.ofNat _ b.length) busyLegs hleg 2 4 0 htoken
  exact ⟨rfl, token, htoken, t, hlt, hcut⟩

end C2Pool.V37.Roundabout
