import C2Pool.V37.MmrProof
import C2Pool.V37.OwedBinding

/-! # What inclusion proofs prove

The proofs of the permanence range bind the leaf at their index, and those of the
lane digest (`make_proof`, `verify_proof`) bind some leaf of it whatever shape they
claim, as long as no two of the inputs hashed on either side collide.
-/

namespace C2Pool.V37

open List Nat

section Hash

variable (sha : List Byte → Bytes32) {inputs inputs' : List (List Byte)}

/-- What `interior_hash` hashes. -/
def pairBytes (l r : Bytes32) : List Byte := 0x01 :: (l.toBytes ++ r.toBytes)

def climbInputs : List Bytes32 → Nat → Bytes32 → List (List Byte)
  | [], _, _ => []
  | sib :: path, j, x =>
    (if j % 2 = 1 then pairBytes sib x else pairBytes x sib) ::
      climbInputs path (j / 2)
        (if j % 2 = 1 then interiorHash sha sib x else interiorHash sha x sib)

def bagInputs : List Bytes32 → Bytes32 → List (List Byte)
  | [], _ => []
  | peak :: rest, r => pairBytes peak r :: bagInputs rest (interiorHash sha peak r)

def baggedInputs (peaks : List Bytes32) : List (List Byte) :=
  match peaks.reverse with
  | [] => []
  | last :: rest => bagInputs sha rest last

/-- What `mmr_verify` hashes. -/
def mmrInputs (leaf : Bytes32) (p : MmrProof) : List (List Byte) :=
  (match mmrFindPeak p.leafCount p.index 64 0 0 with
    | none => []
    | some (_, offset, _) => climbInputs sha p.path (p.index - offset) leaf) ++
  (match p.peaks.reverse with
    | [] => []
    | last :: rest => bagInputs sha rest last)

variable {sha}

theorem pairBytes_injective {l r l' r' : Bytes32} (h : pairBytes l r = pairBytes l' r') :
    l = l' ∧ r = r' := by
  unfold pairBytes at h
  rw [List.cons.injEq] at h
  obtain ⟨hfst, hsnd⟩ := delimits_toBytes _ _ _ _ trivial trivial h.2
  exact ⟨hfst, toBytes_injective hsnd⟩

theorem CollisionFree.pair (h : CollisionFree sha inputs) {l r l' r' : Bytes32}
    (hmem : pairBytes l r ∈ inputs) (hmem' : pairBytes l' r' ∈ inputs)
    (heq : interiorHash sha l r = interiorHash sha l' r') : l = l' ∧ r = r' :=
  pairBytes_injective (h _ hmem _ hmem' heq)

theorem CollisionFree.mono (h : CollisionFree sha inputs) (hsub : inputs' ⊆ inputs) :
    CollisionFree sha inputs' :=
  fun x hx y hy => h x (hsub hx) y (hsub hy)

theorem CollisionFree.tails {x y : List Byte}
    (h : CollisionFree sha (x :: inputs ++ y :: inputs')) :
    CollisionFree sha (inputs ++ inputs') := by
  apply h.mono
  intro z hz
  rcases mem_append.mp hz with hz | hz
  · exact mem_append_left _ (mem_cons_of_mem _ hz)
  · exact mem_append_right _ (mem_cons_of_mem _ hz)

/-! ## The permanence range -/

theorem climb_injective {path path' : List Bytes32} (hlength : path.length = path'.length) {j : Nat}
    {x y : Bytes32}
    (hfree : CollisionFree sha (climbInputs sha path j x ++ climbInputs sha path' j y))
    (heq : Mmr.climb (interiorHash sha) path j x = Mmr.climb (interiorHash sha) path' j y) :
    x = y := by
  induction path generalizing path' j x y with
  | nil =>
    rw [length_eq_zero_iff.mp hlength.symm] at heq
    exact heq
  | cons sib path ih =>
    cases path' with
    | nil => simp at hlength
    | cons sib' path' =>
      simp only [climbInputs, Mmr.climb] at hfree heq
      have hnext := ih (by simpa using hlength) hfree.tails heq
      split at hnext
      · rename_i hodd
        exact (hfree.pair (by simp [hodd]) (by simp [hodd]) hnext).2
      · rename_i heven
        exact (hfree.pair (by simp [heven]) (by simp [heven]) hnext).1

theorem bag_injective {rest rest' : List Bytes32} (hlength : rest.length = rest'.length)
    {r r' : Bytes32} (hfree : CollisionFree sha (bagInputs sha rest r ++ bagInputs sha rest' r'))
    (heq : rest.foldl (fun r peak => interiorHash sha peak r) r =
      rest'.foldl (fun r peak => interiorHash sha peak r) r') : r = r' ∧ rest = rest' := by
  induction rest generalizing rest' r r' with
  | nil =>
    rw [length_eq_zero_iff.mp hlength.symm] at heq ⊢
    exact ⟨heq, rfl⟩
  | cons peak rest ih =>
    cases rest' with
    | nil => simp at hlength
    | cons peak' rest' =>
      simp only [bagInputs, foldl_cons] at hfree heq
      obtain ⟨hnext, hrest⟩ := ih (by simpa using hlength) hfree.tails heq
      obtain ⟨hpeak, hr⟩ := hfree.pair (by simp) (by simp) hnext
      exact ⟨hr, by rw [hpeak, hrest]⟩

theorem peaks_eq_of_mmrBag_eq {ps qs : PeakSet} (hlength : ps.peaks.length = qs.peaks.length)
    (hfree : CollisionFree sha (baggedInputs sha ps.peaks ++ baggedInputs sha qs.peaks))
    (hbag : mmrBag sha ps = mmrBag sha qs) : ps.peaks = qs.peaks := by
  rw [← length_reverse, ← @length_reverse _ qs.peaks] at hlength
  rw [← reverse_inj]
  unfold baggedInputs at hfree
  unfold mmrBag at hbag
  cases hrev : ps.peaks.reverse with
  | nil =>
    rw [hrev] at hlength
    exact (length_eq_zero_iff.mp hlength.symm).symm
  | cons last rest =>
    cases hrev' : qs.peaks.reverse with
    | nil => simp [hrev, hrev'] at hlength
    | cons last' rest' =>
      rw [hrev, hrev'] at hlength
      simp only [hrev, hrev'] at hbag hfree
      obtain ⟨hlast, hrest⟩ := bag_injective (by simpa using hlength) hfree hbag
      rw [hlast, hrest]

theorem mmrVerify_cases {root leaf : Bytes32} {p : MmrProof}
    (h : mmrVerify sha root leaf p = true) :
    p.peaks.length = popcount64 p.leafCount ∧ ∃ height offset k,
      mmrFindPeak p.leafCount p.index 64 0 0 = some (height, offset, k) ∧
        p.path.length = height ∧
        Mmr.climb (interiorHash sha) p.path (p.index - offset) leaf = p.peaks.getD k 0 ∧
        mmrBag sha { p with } = root := by
  unfold mmrVerify at h
  split at h
  · cases h
  split at h
  · cases h
  rename_i hpeaks
  split at h
  · cases h
  rename_i height offset k hfind
  split at h
  · cases h
  split at h
  · cases h
  rename_i hpath hclimb
  exact ⟨not_not.mp hpeaks, height, offset, k, hfind, not_not.mp hpath,
    not_not.mp hclimb, of_decide_eq_true h⟩

theorem mmrVerify_unique {root x y : Bytes32} {p q : MmrProof} (hcount : p.leafCount = q.leafCount)
    (hindex : p.index = q.index)
    (hfree : CollisionFree sha (mmrInputs sha x p ++ mmrInputs sha y q))
    (hp : mmrVerify sha root x p = true) (hq : mmrVerify sha root y q = true) : x = y := by
  obtain ⟨hpeaks, height, offset, k, hfind, hpath, hclimb, hbag⟩ := mmrVerify_cases hp
  obtain ⟨hpeaks', height', offset', k', hfind', hpath', hclimb', hbag'⟩ := mmrVerify_cases hq
  rw [← hcount, ← hindex, hfind, Option.some_inj, Prod.mk.injEq, Prod.mk.injEq] at hfind'
  obtain ⟨rfl, rfl, rfl⟩ := hfind'
  have hsame : p.peaks = q.peaks := by
    refine @peaks_eq_of_mmrBag_eq sha ⟨p.peaks, _⟩ ⟨q.peaks, _⟩ ?_ ?_ (hbag.trans hbag'.symm)
    · rw [hpeaks, hpeaks', hcount]
    unfold mmrInputs at hfree
    unfold baggedInputs
    exact hfree.mono (by intro; simp; tauto)
  rw [hsame, ← hclimb', ← hindex] at hclimb
  refine climb_injective (hpath.trans hpath'.symm) (hfree.mono ?_) hclimb
  unfold mmrInputs
  rw [← hcount, ← hindex, hfind]
  intro
  simp
  tauto

theorem peaksOf_spec {leaves : List Bytes32} (hfew : leaves.length < 2 ^ 64) :
    (peaksOf sha leaves).leafCount = leaves.length ∧
      (peaksOf sha leaves).peaks.length = popcount64 leaves.length ∧
      ∀ i < leaves.length, (mmrProof sha leaves i).leafCount = leaves.length ∧
        (mmrProof sha leaves i).index = i ∧
        (mmrProof sha leaves i).peaks = (peaksOf sha leaves).peaks := by
  have hcount : ∀ (leaves : List Bytes32) (ps : PeakSet),
      (leaves.foldl (mmrAppend sha) ps).leafCount = ps.leafCount + leaves.length := by
    intro leaves
    induction leaves with
    | nil => exact fun ps => rfl
    | cons x leaves ih =>
      intro ps
      rw [foldl_cons, ih, length_cons]
      simp only [mmrAppend]
      omega
  obtain ⟨bs, hblocks, hflat, hpeaks⟩ := Mmr.exists_blocks (interiorHash sha) 0 leaves
  have hsame : (peaksOf sha leaves).peaks = rootsOf sha bs.reverse := by
    rw [← reverse_inj, peaks_peaksOf, hpeaks]
    simp [rootsOf, Mmr.roots]
  refine ⟨(hcount leaves PeakSet.empty).trans (zero_add _), ?_, ?_⟩
  · rw [hsame, popcount64_eq_ones hfew, ← hblocks.length_eq_ones hfew]
    simp [rootsOf, Mmr.roots]
  intro i hi
  obtain ⟨height, start, k, b, -, -, -, -, -, -, hproof⟩ :=
    @mmrProofFrom_found sha 64 leaves.length 0 leaves bs.reverse (hblocks.down hfew)
      { leafCount := leaves.length, index := i } (mod_eq_of_lt hfew) (by rw [hflat]; rfl)
      (zero_le i) (by simpa using hi) 0
  unfold mmrProof
  rw [if_neg (by omega), hproof, hsame]
  exact ⟨rfl, rfl, rfl⟩

/-- **Proofs of the range are complete and sound.**  Its peaks, counted by the ones of its length,
are those of every proof; every leaf has an accepted proof; and what is accepted at an index is the
leaf there, unless two inputs that the two verifications hash collide. -/
theorem mmr_complete_sound (sha : List Byte → Bytes32) (leaves : List Bytes32)
    (hfew : leaves.length < 2 ^ 64) :
    (peaksOf sha leaves).leafCount = leaves.length ∧
      (peaksOf sha leaves).peaks.length = popcount64 leaves.length ∧
      ∀ i leaf, leaves[i]? = some leaf →
        (mmrProof sha leaves i).peaks = (peaksOf sha leaves).peaks ∧
        mmrVerify sha (mmrBag sha (peaksOf sha leaves)) leaf
          (mmrProof sha leaves i) = true ∧
        ∀ x p, p.leafCount = leaves.length → p.index = i →
          CollisionFree sha
            (mmrInputs sha x p ++ mmrInputs sha leaf (mmrProof sha leaves i)) →
          mmrVerify sha (mmrBag sha (peaksOf sha leaves)) x p = true → x = leaf := by
  obtain ⟨hcount, hpopcount, hproofs⟩ := @peaksOf_spec sha leaves hfew
  refine ⟨hcount, hpopcount, fun i leaf hleaf => ?_⟩
  obtain ⟨hleaves, hindex, hpeaks⟩ := hproofs i (List.getElem?_eq_some_iff.mp hleaf).1
  have hcomplete := @mmrVerify_mmrProof sha leaves hfew i leaf hleaf
  refine ⟨hpeaks, hcomplete, fun x p hp hi hfree hverify => ?_⟩
  exact mmrVerify_unique (hp.trans hleaves.symm) (hi.trans hindex.symm) hfree hverify hcomplete

/-- Three leaves under the hash of the code: the second has a proof, and another leaf is not
accepted with it. -/
theorem mmr_complete_sound_three :
    mmrVerify Sha256.sha256d (mmrBag Sha256.sha256d (peaksOf Sha256.sha256d [1, 2, 3])) 2
        (mmrProof Sha256.sha256d [1, 2, 3] 1) = true ∧
      mmrVerify Sha256.sha256d (mmrBag Sha256.sha256d (peaksOf Sha256.sha256d [1, 2, 3])) 4
        (mmrProof Sha256.sha256d [1, 2, 3] 1) ≠ true := by
  obtain ⟨-, hcomplete, hsound⟩ :=
    (mmr_complete_sound Sha256.sha256d [1, 2, 3] (by decide)).2.2 1 2 rfl
  refine ⟨hcomplete, fun hverify => ?_⟩
  exact absurd (hsound 4 (mmrProof Sha256.sha256d [1, 2, 3] 1) (by decide +kernel)
    (by decide +kernel) (by decide +kernel) hverify) (by decide)

end Hash

/-! ## The lane digest -/

structure MerkleProof where
  leafCount : Nat := 0
  index : Nat := 0
  path : List Bytes32 := []
deriving DecidableEq

section Digest

variable (sha : List Byte → Bytes32) {level : List Bytes32} {x : Bytes32} {i n : Nat}
  {payloads inputs : List (List Byte)}

/-- The loop of `make_proof`; an odd last node has no sibling. -/
def merklePath : Nat → List Bytes32 → Nat → List Bytes32
  | 0, _, _ => []
  | rounds + 1, level, idx =>
    if level.length ≤ 1 then []
    else if level.length % 2 = 1 ∧ idx = level.length - 1 then
      merklePath rounds (PairTree.promote (interiorHash sha) level) (idx / 2)
    else
      level.getD (if idx % 2 = 0 then idx + 1 else idx - 1) 0 ::
        merklePath rounds (PairTree.promote (interiorHash sha) level) (idx / 2)

def makeProof (leaves : List Bytes32) (idx : Nat) : MerkleProof where
  leafCount := leaves.length
  index := idx
  path := merklePath sha leaves.length leaves idx

/-- The loop of `verify_proof`: the hash it ends with, and what is left of the path.  The size is
rounded up on 64 bits. -/
def verifyLoop : Nat → Nat → Nat → Bytes32 → List Bytes32 → Option (Bytes32 × List Bytes32)
  | 0, _, _, h, path => some (h, path)
  | rounds + 1, size, idx, h, path =>
    if size ≤ 1 then some (h, path)
    else if size % 2 = 1 ∧ idx = size - 1 then
      verifyLoop rounds ((size + 1) % 2 ^ 64 / 2) (idx / 2) h path
    else
      match path with
      | [] => none
      | sib :: path =>
        verifyLoop rounds ((size + 1) % 2 ^ 64 / 2) (idx / 2)
          (if idx % 2 = 1 then interiorHash sha sib h else interiorHash sha h sib) path

def verifyProof (root leaf : Bytes32) (p : MerkleProof) : Bool :=
  if p.leafCount ≤ p.index ∨ p.leafCount = 0 then false
  else
    match verifyLoop sha p.leafCount p.leafCount p.index leaf p.path with
    | none => false
    | some (h, rest) => rest = [] ∧ h = root

/-- What the loop of `verify_proof` hashes. -/
def verifyInputs : Nat → Nat → Nat → Bytes32 → List Bytes32 → List (List Byte)
  | 0, _, _, _, _ => []
  | rounds + 1, size, idx, h, path =>
    if size ≤ 1 then []
    else if size % 2 = 1 ∧ idx = size - 1 then
      verifyInputs rounds ((size + 1) % 2 ^ 64 / 2) (idx / 2) h path
    else
      match path with
      | [] => []
      | sib :: path =>
        (if idx % 2 = 1 then pairBytes sib h else pairBytes h sib) ::
          verifyInputs rounds ((size + 1) % 2 ^ 64 / 2) (idx / 2)
            (if idx % 2 = 1 then interiorHash sha sib h else interiorHash sha h sib)
            path

/-- The pairs that `merkle_root` hashes at one level. -/
def levelPairs : List Bytes32 → List (Bytes32 × Bytes32)
  | l :: r :: rest => (l, r) :: levelPairs rest
  | _ => []

def merklePairs : Nat → List Bytes32 → List (Bytes32 × Bytes32)
  | 0, _ => []
  | rounds + 1, level => levelPairs level ++
    merklePairs rounds (PairTree.promote (interiorHash sha) level)

def digestInputs (payloads : List (List Byte)) : List (List Byte) :=
  (payloads.map fun p => 0x00 :: p) ++
    (merklePairs sha payloads.length (payloads.map (leafHash sha))).map fun q =>
      pairBytes q.1 q.2

/-- What `verify_proof` hashes for the hash of a payload. -/
def proofInputs (payload : List Byte) (p : MerkleProof) : List (List Byte) :=
  (0x00 :: payload) ::
    verifyInputs sha p.leafCount p.leafCount p.index (leafHash sha payload) p.path

variable {sha}

theorem verifyLoop_merklePath (hn : level.length ≤ n + 1) (hfew : level.length + 1 < 2 ^ 64)
    (hx : level[i]? = some x) :
    verifyLoop sha n level.length i x (merklePath sha n level i) =
      some ((PairTree.promoteAll (interiorHash sha) n level).headD 0, []) := by
  induction n generalizing level i x with
  | zero => rw [verifyLoop, merklePath, PairTree.headD_promoteAll_of_short hx hn]
  | succ n ih =>
    obtain ⟨hi, -⟩ := List.getElem?_eq_some_iff.mp hx
    have hlength := PairTree.length_promote (interiorHash sha) level
    have hsize : (level.length + 1) % 2 ^ 64 / 2 =
        (PairTree.promote (interiorHash sha) level).length := by
      rw [hlength, mod_eq_of_lt hfew]
    unfold verifyLoop merklePath
    rw [hsize]
    by_cases hshort : level.length ≤ 1
    · rw [if_pos hshort, if_pos hshort, PairTree.headD_promoteAll_of_short hx hshort]
    rw [if_neg hshort, if_neg hshort, PairTree.promoteAll_succ hshort]
    have hnext := ih (by omega) (by omega)
      (PairTree.getElem?_promote (interiorHash sha) hx 0)
    -- the sibling of an even index stands after it, that of an odd one before it
    rcases mod_two_eq_zero_or_one i with heven | hodd
    · rw [if_neg (by omega)] at hnext
      by_cases hpair : i + 1 < level.length
      · rw [if_pos hpair] at hnext
        rw [if_neg (by omega), if_neg (by omega), if_pos heven]
        dsimp only
        rwa [if_neg (by omega)]
      · rw [if_neg hpair] at hnext
        rwa [if_pos (by omega), if_pos (by omega)]
    · rw [if_pos hodd] at hnext
      rw [if_neg (by omega), if_neg (by omega), if_neg (by omega)]
      dsimp only
      rwa [if_pos hodd]

theorem verifyProof_makeProof (hfew : level.length + 1 < 2 ^ 64) (hx : level[i]? = some x) :
    verifyProof sha (merkleRoot sha level) x (makeProof sha level i) = true := by
  obtain ⟨hi, -⟩ := List.getElem?_eq_some_iff.mp hx
  unfold verifyProof makeProof merkleRoot
  dsimp only
  rw [if_neg (by omega), verifyLoop_merklePath (by omega) hfew hx]
  simp

/-! ### Soundness -/

theorem mem_levelPairs {q : Bytes32 × Bytes32} (hq : q ∈ levelPairs level) :
    q.1 ∈ level ∧ q.2 ∈ level := by
  induction level using levelPairs.induct with
  | case1 l r rest ih =>
    rcases mem_cons.mp hq with rfl | hq
    · simp
    · obtain ⟨hl, hr⟩ := ih hq
      simp [hl, hr]
  | case2 level h =>
    rw [levelPairs.eq_def] at hq
    split at hq
    · exact absurd rfl (h _ _ _)
    · cases hq

theorem mem_promote (hx : x ∈ PairTree.promote (interiorHash sha) level) :
    x ∈ level ∨ ∃ q ∈ levelPairs level, x = interiorHash sha q.1 q.2 := by
  induction level using PairTree.pairUp.induct with
  | case1 l r rest ih =>
    rcases mem_cons.mp hx with rfl | hx
    · exact Or.inr ⟨(l, r), mem_cons_self, rfl⟩
    rcases ih hx with hmem | ⟨q, hq, heq⟩
    · exact Or.inl (by simp [hmem])
    · exact Or.inr ⟨q, mem_cons_of_mem _ hq, heq⟩
  | case2 z => exact Or.inl hx
  | case3 => cases hx

theorem merklePairs_closed {S : Bytes32 → Prop} (hlevel : ∀ x ∈ level, S x)
    (hpair : ∀ q ∈ merklePairs sha n level, S (interiorHash sha q.1 q.2)) :
    (∀ q ∈ merklePairs sha n level, S q.1 ∧ S q.2) ∧
      (level ≠ [] → S ((PairTree.promoteAll (interiorHash sha) n level).headD 0)) := by
  induction n generalizing level with
  | zero =>
    refine ⟨fun q hq => absurd hq not_mem_nil, fun hne => ?_⟩
    obtain ⟨z, rest, rfl⟩ := exists_cons_of_ne_nil hne
    exact hlevel z mem_cons_self
  | succ n ih =>
    simp only [merklePairs, mem_append] at hpair ⊢
    have hnext : ∀ x ∈ PairTree.promote (interiorHash sha) level, S x := by
      intro x hx
      rcases mem_promote hx with hmem | ⟨q, hq, rfl⟩
      · exact hlevel x hmem
      · exact hpair q (Or.inl hq)
    obtain ⟨hpairs, hroot⟩ := ih hnext fun q hq => hpair q (Or.inr hq)
    constructor
    · rintro q (hq | hq)
      · exact ⟨hlevel _ (mem_levelPairs hq).1, hlevel _ (mem_levelPairs hq).2⟩
      · exact hpairs q hq
    intro hne
    match level, hne with
    | [z], _ => exact hlevel z mem_cons_self
    | l :: r :: rest, _ => exact hroot (cons_ne_nil _ _)

def DigestNode (sha : List Byte → Bytes32) (payloads : List (List Byte)) (x : Bytes32) : Prop :=
  x ∈ payloads.map (leafHash sha) ∨
    ∃ q ∈ merklePairs sha payloads.length (payloads.map (leafHash sha)),
      x = interiorHash sha q.1 q.2

theorem DigestNode.below {y : Bytes32} (hfree : CollisionFree sha inputs)
    (hdigest : digestInputs sha payloads ⊆ inputs) (hmem : pairBytes x y ∈ inputs)
    (h : DigestNode sha payloads (interiorHash sha x y)) :
    DigestNode sha payloads x ∧ DigestNode sha payloads y := by
  rcases h with hleaf | ⟨q, hq, heq⟩
  · obtain ⟨p, hp, heq⟩ := mem_map.mp hleaf
    have hbytes := hfree _ (hdigest (mem_append_left _ (mem_map_of_mem hp))) _ hmem heq
    cases hbytes
  obtain ⟨rfl, rfl⟩ := hfree.pair hmem (hdigest (mem_append_right _ (mem_map_of_mem hq))) heq
  exact (merklePairs_closed (S := DigestNode sha payloads) (fun z hz => Or.inl hz)
    (fun q hq => Or.inr ⟨q, hq, rfl⟩)).1 q hq

theorem DigestNode.of_verifyLoop {size idx : Nat} {h root : Bytes32} {path rest : List Bytes32}
    (hfree : CollisionFree sha inputs) (hdigest : digestInputs sha payloads ⊆ inputs)
    (hinputs : verifyInputs sha n size idx h path ⊆ inputs)
    (hloop : verifyLoop sha n size idx h path = some (root, rest))
    (hroot : DigestNode sha payloads root) : DigestNode sha payloads h := by
  induction n generalizing size idx h path with
  | zero =>
    cases hloop
    exact hroot
  | succ n ih =>
    unfold verifyLoop at hloop
    unfold verifyInputs at hinputs
    split at hloop
    · cases hloop
      exact hroot
    rename_i hlong
    rw [if_neg hlong] at hinputs
    split at hloop
    · rename_i hlast
      rw [if_pos hlast] at hinputs
      exact ih hinputs hloop
    rename_i hlast
    rw [if_neg hlast] at hinputs
    cases path with
    | nil => cases hloop
    | cons sib path =>
      obtain ⟨hhere, hnext⟩ := cons_subset.mp hinputs
      have habove := ih hnext hloop
      split at habove
      · rename_i hodd
        rw [if_pos hodd] at hhere
        exact (habove.below hfree hdigest hhere).2
      rename_i heven
      rw [if_neg heven] at hhere
      exact (habove.below hfree hdigest hhere).1

/-- **Proofs of the digest are complete and sound.** Every leaf has an accepted proof; and a proof
that is accepted for the hash of a payload, whatever count, index and path it claims, is about one
of the leaves, unless two of the inputs hashed on either side collide. -/
theorem digest_proofs_complete_sound (sha : List Byte → Bytes32)
    (payloads : List (List Byte)) (hfew : payloads.length + 1 < 2 ^ 64) :
    (∀ i payload, payloads[i]? = some payload →
      verifyProof sha (merkleRoot sha (payloads.map (leafHash sha)))
        (leafHash sha payload)
        (makeProof sha (payloads.map (leafHash sha)) i) = true) ∧
      ∀ payload p, payloads ≠ [] →
        CollisionFree sha (digestInputs sha payloads ++ proofInputs sha payload p) →
        verifyProof sha (merkleRoot sha (payloads.map (leafHash sha)))
          (leafHash sha payload) p = true →
        leafHash sha payload ∈ payloads.map (leafHash sha) := by
  constructor
  · intro i payload hpayload
    apply verifyProof_makeProof (by rwa [length_map])
    rw [getElem?_map, hpayload]
    rfl
  intro payload p hne hfree hverify
  have hdigest : digestInputs sha payloads ⊆
      digestInputs sha payloads ++ proofInputs sha payload p := subset_append_left _ _
  have hproof : proofInputs sha payload p ⊆
      digestInputs sha payloads ++ proofInputs sha payload p := subset_append_right _ _
  have hroot : DigestNode sha payloads (merkleRoot sha (payloads.map (leafHash sha))) := by
    unfold merkleRoot
    rw [length_map]
    exact (merklePairs_closed (S := DigestNode sha payloads) (fun z hz => Or.inl hz)
      (fun q hq => Or.inr ⟨q, hq, rfl⟩)).2 (by simpa using hne)
  unfold verifyProof at hverify
  split at hverify
  · cases hverify
  split at hverify
  · cases hverify
  rename_i h rest hloop
  obtain ⟨-, rfl⟩ := of_decide_eq_true hverify
  have hstart := DigestNode.of_verifyLoop hfree hdigest
    (fun z hz => hproof (mem_cons_of_mem _ hz)) hloop hroot
  rcases hstart with hleaf | ⟨q, hq, heq⟩
  · exact hleaf
  have hbytes := hfree _ (hproof mem_cons_self) _
    (hdigest (mem_append_right _ (mem_map_of_mem hq))) heq
  cases hbytes

/-- Three payloads under the hash of the code: the last, which is promoted, has a proof, and one
with a claimed count of two is not accepted for another payload. -/
theorem digest_proofs_complete_sound_three :
    (makeProof Sha256.sha256d ([[1], [2], [3]].map (leafHash Sha256.sha256d)) 2).path.length = 1 ∧
      verifyProof Sha256.sha256d
        (merkleRoot Sha256.sha256d ([[1], [2], [3]].map (leafHash Sha256.sha256d)))
        (leafHash Sha256.sha256d [3])
        (makeProof Sha256.sha256d ([[1], [2], [3]].map (leafHash Sha256.sha256d)) 2) = true ∧
      verifyProof Sha256.sha256d
        (merkleRoot Sha256.sha256d ([[1], [2], [3]].map (leafHash Sha256.sha256d)))
        (leafHash Sha256.sha256d [4]) ⟨2, 1, [5]⟩ ≠ true := by
  obtain ⟨hcomplete, hsound⟩ :=
    digest_proofs_complete_sound Sha256.sha256d [[1], [2], [3]] (by decide)
  refine ⟨by decide +kernel, hcomplete 2 [3] rfl, fun hverify => ?_⟩
  exact absurd (hsound [4] ⟨2, 1, [5]⟩ (by decide) (by decide +kernel) hverify)
    (by decide +kernel)

end Digest

end C2Pool.V37
