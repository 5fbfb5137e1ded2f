import C2Pool.Lib.MmrProof
import C2Pool.V37.OwedEvents

/-! # Inclusion proofs of the permanence range

`mmr_proof` and `mmr_verify` (`v37_lane.hpp`): the proof of a leaf is built from
the whole log of leaves and holds every peak; the verifier climbs to the peak
that the index falls in and bags the peaks again.
-/

namespace C2Pool.V37

open Mmr List Nat

structure MmrProof where
  leafCount : Nat := 0
  index : Nat := 0
  path : List Bytes32 := []
  peaks : List Bytes32 := []
deriving DecidableEq

/-- The loop of `popcount64`, which clears the lowest bit each time. -/
def popcountLoop : Nat → Nat → Nat
  | 0, _ => 0
  | rounds + 1, x => if x = 0 then 0 else popcountLoop rounds (x &&& (x - 1)) + 1

def popcount64 (x : Nat) : Nat := popcountLoop 64 x

section Hash

variable (sha : List Byte → Bytes32)

def perfectRoot (level : List Bytes32) : Bytes32 :=
  Mmr.root (interiorHash sha) 0 level.length level

/-- The loop of `mmr_proof` over the bits, from bit `h - 1` down. -/
def mmrProofFrom (leaves : List Bytes32) : Nat → Nat → MmrProof → MmrProof
  | 0, _, p => p
  | h + 1, offset, p =>
    if p.leafCount.testBit h then
      let level := (leaves.drop offset).take (2 ^ h)
      let p :=
        if offset ≤ p.index ∧ p.index < offset + 2 ^ h then
          { p with
            path := p.path ++ Mmr.siblings (interiorHash sha) 0 level.length level
              (p.index - offset) }
        else p
      mmrProofFrom leaves h (offset + 2 ^ h)
        { p with peaks := p.peaks ++ [perfectRoot sha level] }
    else mmrProofFrom leaves h offset p

def mmrProof (leaves : List Bytes32) (idx : Nat) : MmrProof :=
  if leaves.length ≤ idx then { leafCount := leaves.length, index := idx }
  else mmrProofFrom sha leaves 64 0 { leafCount := leaves.length, index := idx }

/-- The loop of `mmr_verify` that finds the height, the offset and the number of the peak. -/
def mmrFindPeak (n idx : Nat) : Nat → Nat → Nat → Option (Nat × Nat × Nat)
  | 0, _, _ => none
  | h + 1, offset, peakIdx =>
    if n.testBit h then
      if offset ≤ idx ∧ idx < offset + 2 ^ h then some (h, offset, peakIdx)
      else mmrFindPeak n idx h (offset + 2 ^ h) (peakIdx + 1)
    else mmrFindPeak n idx h offset peakIdx

def mmrVerify (baggedRoot leaf : Bytes32) (p : MmrProof) : Bool :=
  if p.leafCount = 0 ∨ p.leafCount ≤ p.index then false
  else if p.peaks.length ≠ popcount64 p.leafCount then false
  else
    match mmrFindPeak p.leafCount p.index 64 0 0 with
    | none => false
    | some (height, offset, peakIdx) =>
      if p.path.length ≠ height then false
      else if Mmr.climb (interiorHash sha) p.path (p.index - offset) leaf ≠
          p.peaks.getD peakIdx 0 then false
      else mmrBag sha ⟨p.peaks, p.leafCount⟩ = baggedRoot

end Hash

theorem ones_clear {k x : Nat} (hx : x ≠ 0) (hlt : x < 2 ^ k) :
    Mmr.ones k (x &&& (x - 1)) + 1 = Mmr.ones k x := by
  induction k generalizing x with
  | zero =>
    omega
  | succ k ih =>
    have hlow : (x &&& (x - 1)) % 2 = 0 := by
      rcases mod_two_eq_zero_or_one (x &&& (x - 1)) with h | h
      · exact h
      · rw [and_mod_two_eq_one] at h
        omega
    unfold Mmr.ones
    rw [hlow, and_div_two]
    rcases mod_two_eq_zero_or_one x with heven | hodd
    · have hhalf : (x - 1) / 2 = x / 2 - 1 := by omega
      have hrest := ih (x := x / 2) (by omega) (by omega)
      rw [hhalf]
      omega
    have hhalf : (x - 1) / 2 = x / 2 := by omega
    rw [hhalf, Nat.and_self]
    omega

theorem popcountLoop_eq_ones {k : Nat} (rounds : Nat) {x : Nat} (hlt : x < 2 ^ k)
    (hrounds : Mmr.ones k x ≤ rounds) : popcountLoop rounds x = Mmr.ones k x := by
  induction rounds generalizing x with
  | zero => exact (le_zero.mp hrounds).symm
  | succ rounds ih =>
    unfold popcountLoop
    by_cases hx : x = 0
    · rw [if_pos hx, hx, ones_zero]
    have hclear := ones_clear hx hlt
    have hless : x &&& (x - 1) < 2 ^ k := and_lt_two_pow x (by omega)
    rw [if_neg hx, ih hless (by omega)]
    exact hclear

theorem popcount64_eq_ones {x : Nat} (hlt : x < 2 ^ 64) : popcount64 x = Mmr.ones 64 x :=
  popcountLoop_eq_ones 64 hlt (ones_le 64 x)

/-! ## What a proof holds -/

section Proof

variable {sha : List Byte → Bytes32} {h n offset : Nat} {leaves : List Bytes32}
  {bs : List (List Bytes32)}

def rootsOf (sha : List Byte → Bytes32) (bs : List (List Bytes32)) : List Bytes32 :=
  Mmr.roots (interiorHash sha) 0 bs

theorem bit_clear {N : Nat} (hmod : N % 2 ^ (h + 1) = n) (hn : n < 2 ^ h) :
    N.testBit h = false ∧ N % 2 ^ h = n := by
  rw [mod_pow_succ] at hmod
  rw [testBit_eq_decide_div_mod_eq]
  rcases mod_two_eq_zero_or_one (N / 2 ^ h) with hq | hq
  · rw [hq] at hmod ⊢
    exact ⟨rfl, by omega⟩
  · rw [hq] at hmod
    omega

theorem bit_set {N : Nat} (hmod : N % 2 ^ (h + 1) = 2 ^ h + n) :
    N.testBit h = true ∧ N % 2 ^ h = n := by
  rw [mod_pow_succ] at hmod
  rw [testBit_eq_decide_div_mod_eq]
  rcases mod_two_eq_zero_or_one (N / 2 ^ h) with hq | hq
  · rw [hq] at hmod
    omega
  · rw [hq] at hmod ⊢
    exact ⟨rfl, by omega⟩

theorem take_drop_of_flatten {b : List Bytes32}
    (hleaves : leaves.drop offset = (b :: bs).flatten) (hb : b.length = 2 ^ h) :
    (leaves.drop offset).take (2 ^ h) = b ∧ leaves.drop (offset + 2 ^ h) = bs.flatten := by
  rw [flatten_cons] at hleaves
  constructor
  · rw [hleaves, ← hb, take_left]
  · rw [← drop_drop, hleaves, ← hb, drop_left]

section

variable (hd : Mmr.Down 0 h n bs) {p : MmrProof} (hmod : p.leafCount % 2 ^ h = n)
  (hleaves : leaves.drop offset = bs.flatten)
include hd hmod hleaves

theorem mmrProofFrom_passed (hpassed : p.index < offset) :
    mmrProofFrom sha leaves h offset p = { p with peaks := p.peaks ++ rootsOf sha bs } := by
  induction hd generalizing offset p with
  | nil => simp [mmrProofFrom, rootsOf, Mmr.roots]
  | @skip h n bs hd ih =>
    obtain ⟨hbit, hrest⟩ := bit_clear hmod hd.lt
    rw [mmrProofFrom, hbit, if_neg (by decide)]
    exact ih hrest hleaves hpassed
  | @take h n b bs hb hd ih =>
    rw [zero_add] at hb
    obtain ⟨hbit, hrest⟩ := bit_set hmod
    obtain ⟨hblock, hafter⟩ := take_drop_of_flatten hleaves hb
    rw [mmrProofFrom, hbit, if_pos rfl]
    dsimp only
    rw [if_neg (by omega), hblock,
      ih (p := { p with peaks := p.peaks ++ [perfectRoot sha b] }) hrest hafter
        (Nat.lt_add_right _ hpassed)]
    simp [rootsOf, Mmr.roots, perfectRoot]

theorem mmrProofFrom_found (hbefore : offset ≤ p.index)
    (hwithin : p.index < offset + n) (peakIdx : Nat) :
    ∃ height start k b, b.length = 2 ^ height ∧ start ≤ p.index ∧ p.index < start + 2 ^ height ∧
      (leaves.drop start).take (2 ^ height) = b ∧ bs[k]? = some b ∧
      mmrFindPeak p.leafCount p.index h offset peakIdx = some (height, start, peakIdx + k) ∧
      mmrProofFrom sha leaves h offset p =
        { p with
          path := p.path ++ Mmr.siblings (interiorHash sha) 0 b.length b (p.index - start)
          peaks := p.peaks ++ rootsOf sha bs } := by
  induction hd generalizing offset p peakIdx with
  | nil => omega
  | @skip h n bs hd ih =>
    obtain ⟨hbit, hrest⟩ := bit_clear hmod hd.lt
    rw [mmrProofFrom, mmrFindPeak, hbit, if_neg (by decide), if_neg (by decide)]
    exact ih hrest hleaves hbefore hwithin peakIdx
  | @take h n b bs hb hd ih =>
    rw [zero_add] at hb
    obtain ⟨hbit, hrest⟩ := bit_set hmod
    obtain ⟨hblock, hafter⟩ := take_drop_of_flatten hleaves hb
    rw [mmrProofFrom, mmrFindPeak, hbit, if_pos rfl, if_pos rfl]
    dsimp only
    by_cases hhere : p.index < offset + 2 ^ h
    · refine ⟨h, offset, 0, b, hb, hbefore, hhere, hblock, rfl, by simp [hbefore, hhere], ?_⟩
      rw [if_pos ⟨hbefore, hhere⟩, hblock]
      rw [mmrProofFrom_passed (p := { p with
          path := p.path ++ Mmr.siblings (interiorHash sha) 0 b.length b (p.index - offset)
          peaks := p.peaks ++ [perfectRoot sha b] }) hd hrest hafter hhere]
      simp [rootsOf, Mmr.roots, perfectRoot]
    rw [if_neg (by omega), if_neg (by omega), hblock]
    obtain ⟨height, start, k, b', hb', hstart, hend, htake, hget, hfind, hproof⟩ :=
      ih (p := { p with peaks := p.peaks ++ [perfectRoot sha b] }) hrest hafter
        (by dsimp only; omega) (by dsimp only; omega) (peakIdx + 1)
    refine ⟨height, start, k + 1, b', hb', hstart, hend, htake, by simpa using hget, ?_, ?_⟩
    · rw [hfind]
      congr 3
      omega
    · rw [hproof]
      simp [rootsOf, Mmr.roots, perfectRoot]

end

def peaksOf (sha : List Byte → Bytes32) (leaves : List Bytes32) : PeakSet :=
  leaves.foldl (mmrAppend sha) PeakSet.empty

theorem peaksOf_concat (leaves : List Bytes32) (x : Bytes32) :
    peaksOf sha (leaves ++ [x]) = mmrAppend sha (peaksOf sha leaves) x := by
  simp [peaksOf]

theorem peaks_peaksOf (leaves : List Bytes32) :
    (peaksOf sha leaves).peaks.reverse = Mmr.appendAll (interiorHash sha) 0 [] leaves := by
  have hall : ∀ (leaves : List Bytes32) (ps : PeakSet),
      (leaves.foldl (mmrAppend sha) ps).peaks.reverse =
        Mmr.appendAll (interiorHash sha) ps.leafCount ps.peaks.reverse leaves := by
    intro leaves
    induction leaves with
    | nil => exact fun ps => rfl
    | cons x leaves ih =>
      intro ps
      rw [foldl_cons, ih, Mmr.appendAll]
      simp only [mmrAppend, reverse_reverse, length_reverse]
  exact hall leaves PeakSet.empty

theorem mmrVerify_mmrProof (hfew : leaves.length < 2 ^ 64) {idx : Nat}
    {leaf : Bytes32} (hleaf : leaves[idx]? = some leaf) :
    mmrVerify sha (mmrBag sha (peaksOf sha leaves)) leaf (mmrProof sha leaves idx) = true := by
  have hidx : idx < leaves.length := (List.getElem?_eq_some_iff.mp hleaf).1
  obtain ⟨bs, hblocks, hflat, hpeaks⟩ := exists_blocks (interiorHash sha) 0 leaves
  have hcount := hblocks.length_eq_ones hfew
  obtain ⟨height, start, k, b, hb, hstart, hend, htake, hget, hfind, hproof⟩ :=
    @mmrProofFrom_found sha 64 leaves.length 0 leaves bs.reverse (hblocks.down hfew)
      { leafCount := leaves.length, index := idx } (mod_eq_of_lt hfew) (by rw [hflat]; rfl)
      (zero_le idx) (by simpa using hidx) 0
  have hbag : mmrBag sha ⟨rootsOf sha bs.reverse, leaves.length⟩ =
      mmrBag sha (peaksOf sha leaves) := by
    have hsame : (peaksOf sha leaves).peaks = rootsOf sha bs.reverse := by
      rw [← reverse_inj, peaks_peaksOf, hpeaks]
      simp [rootsOf, Mmr.roots]
    unfold mmrBag
    rw [hsame]
  dsimp only at hstart hend
  have hj : idx - start < 2 ^ height := by omega
  have hat : b[idx - start]? = some leaf := by
    have hindex : start + (idx - start) = idx := by omega
    rw [← htake, getElem?_take_of_lt hj, getElem?_drop, hindex, hleaf]
  have hclimb := @climb_siblings Bytes32 b height b.length (interiorHash sha) 0 b.length hb
    (by rw [hb]; exact le_two_pow height) (by rw [hb]; exact le_two_pow height)
    (idx - start) leaf hat
  have hpeak : (rootsOf sha bs.reverse).getD k 0 = Mmr.root (interiorHash sha) 0 b.length b := by
    rw [getD_eq_getElem?_getD, rootsOf, Mmr.roots, getElem?_map, hget]
    rfl
  unfold mmrProof
  rw [if_neg (by omega), hproof]
  unfold mmrVerify
  dsimp only at hfind ⊢
  rw [if_neg (by omega), nil_append, nil_append, if_neg, hfind]
  · dsimp only
    rw [zero_add, hclimb.1, hclimb.2, hpeak, hbag]
    simp
  · rw [popcount64_eq_ones hfew, ← hcount]
    simp [rootsOf, Mmr.roots]

end Proof

end C2Pool.V37
