import C2Pool.V37.Sha256
import C2Pool.Xmr.OutputSet

/-! # The output set over runs of block events

Whatever the blocks that came and went, the set is the one that the surviving blocks alone give.
-/

namespace C2Pool.Xmr

open C2Pool.V37 (Byte Bytes32 PeakSet MmrProof leafHash mmrAppend mmrBag mmrProof mmrVerify peaksOf)
open List

open Finset

theorem resize_append {α : Type} (xs ys : List α) (fill : α) :
    resize (xs ++ ys) xs.length fill = xs := by
  simp [resize]

theorem foldl_erase (s : Finset Hash) (kis : List Hash) :
    kis.foldl Finset.erase s = s \ kis.toFinset := by
  induction kis generalizing s with
  | nil => simp
  | cons ki kis ih =>
    rw [List.foldl_cons, ih]
    ext x
    simp only [mem_sdiff, mem_erase, List.mem_toFinset, List.mem_cons]
    tauto

theorem insertKeyImages_sdiff (snap : List Hash) (spent : Finset Hash) (kis : List Hash) :
    (insertKeyImages snap spent kis).1 \ (insertKeyImages snap spent kis).2.1.toFinset = spent := by
  induction kis generalizing spent with
  | nil => simp [insertKeyImages]
  | cons ki kis ih =>
    unfold insertKeyImages
    split
    · rename_i hnew
      simp only [toFinset_cons]
      rw [sdiff_insert, ih, erase_insert hnew.2]
    · exact ih spent

namespace ChainOutputSet

section Run

variable (zeroCommit : U64 → Hash) (sha : List Byte → Bytes32) {s : ChainOutputSet}
  {ev : BlockTxEvent} {i base : U64} {chain : List BlockTxEvent}

/-- The leaf logs have one entry for each leaf that their peaks count. -/
structure Tidy (s : ChainOutputSet) : Prop where
  outLeaves : s.outLeaves.length = s.outPeaks.leafCount
  outLeafFirst : s.outLeafFirst.length = s.outPeaks.leafCount
  kiLeaves : s.kiLeaves.length = s.kiPeaks.leafCount

variable {zeroCommit sha}

theorem Tidy.appended (h : s.Tidy) (ev : BlockTxEvent) : (s.appended zeroCommit sha ev).Tidy where
  outLeaves := by simp [ChainOutputSet.appended, mmrAppend, h.outLeaves]
  outLeafFirst := by simp [ChainOutputSet.appended, mmrAppend, h.outLeafFirst]
  kiLeaves := by simp [ChainOutputSet.appended, mmrAppend, h.kiLeaves]

theorem onBlockDisconnected_appended (h : s.Tidy) {d : BlockTxEvent}
    (hheight : d.height = ev.height) :
    (s.appended zeroCommit sha ev).onBlockDisconnected d = some s := by
  have hspent : (insertKeyImages s.snapKeyImages s.spent ev.keyImages).2.1.foldl Finset.erase
      (insertKeyImages s.snapKeyImages s.spent ev.keyImages).1 = s.spent := by
    rw [foldl_erase, insertKeyImages_sdiff]
  unfold onBlockDisconnected ChainOutputSet.appended
  simp only [hheight, ne_eq, not_true_eq_false, if_false, hspent]
  rw [← h.outLeaves, resize_append, h.outLeaves, ← h.outLeafFirst, resize_append, ← h.kiLeaves,
    resize_append]
  simp

/-! ## Runs -/

/-- A block event, by the call that takes it. -/
inductive Feed where
  | connected (ev : BlockTxEvent)
  | disconnected (ev : BlockTxEvent)

variable (zeroCommit sha) {feeds : List Feed}

def feed (s : ChainOutputSet) : Feed → ChainOutputSet
  | .connected ev => (s.onBlockConnected zeroCommit sha ev).getD s
  | .disconnected ev => (s.onBlockDisconnected ev).getD s

/-- Events in order, on a set made with `base`. -/
def run (base : U64) (feeds : List Feed) : ChainOutputSet :=
  feeds.foldl (feed zeroCommit sha) { base := base }

def built (base : U64) (chain : List BlockTxEvent) : ChainOutputSet :=
  chain.foldl (appended zeroCommit sha) { base := base }

variable {zeroCommit sha}

def outputCount (chain : List BlockTxEvent) : Nat :=
  (chain.map BlockTxEvent.outputCount).sum

def survive (chain : List BlockTxEvent) : Feed → List BlockTxEvent
  | .connected ev => chain ++ [ev]
  | .disconnected _ => chain.dropLast

def survivors (feeds : List Feed) : List BlockTxEvent := feeds.foldl survive []

/-- An event that the chain may emit: a block numbered from the frontier, or the loss of the tip
block. -/
def Emits (base : U64) (chain : List BlockTxEvent) : Feed → Prop
  | .connected ev =>
    ev.kind = .connected ∧ ev.firstOutputIndex.val = base.val + outputCount chain
  | .disconnected ev =>
    ∃ tip, chain.getLast? = some tip ∧ ev.height = tip.height ∧ ev.blockId = tip.blockId

def EmitsAll (base : U64) : List BlockTxEvent → List Feed → Prop
  | _, [] => True
  | chain, e :: feeds => Emits base chain e ∧ EmitsAll base (survive chain e) feeds

inductive Numbered (base : U64) : List BlockTxEvent → Prop
  | nil : Numbered base []
  | concat {chain : List BlockTxEvent} {ev : BlockTxEvent} (h : Numbered base chain)
      (hkind : ev.kind = .connected)
      (hfirst : ev.firstOutputIndex.val = base.val + outputCount chain) :
      Numbered base (chain ++ [ev])

@[simp] theorem outputCount_nil : outputCount [] = 0 := rfl

@[simp] theorem outputCount_concat (chain : List BlockTxEvent) (ev : BlockTxEvent) :
    outputCount (chain ++ [ev]) = outputCount chain + ev.outputCount := by
  simp [outputCount]

theorem built_concat (base : U64) (chain : List BlockTxEvent) (ev : BlockTxEvent) :
    built zeroCommit sha base (chain ++ [ev]) =
      (built zeroCommit sha base chain).appended zeroCommit sha ev := by
  simp [built]

theorem tidy_built (base : U64) (chain : List BlockTxEvent) :
    (built zeroCommit sha base chain).Tidy := by
  induction chain using List.reverseRecOn with
  | nil => exact ⟨rfl, rfl, rfl⟩
  | append_singleton chain ev ih =>
    rw [built_concat]
    exact ih.appended ev

theorem built_spec (base : U64) (chain : List BlockTxEvent) :
    (built zeroCommit sha base chain).base = base ∧
      (built zeroCommit sha base chain).totalOutputs = outputCount chain ∧
      (built zeroCommit sha base chain).outLeaves = chain.map (·.outputLeaf zeroCommit sha) ∧
      (built zeroCommit sha base chain).outLeafFirst = chain.map (·.firstOutputIndex) ∧
      (built zeroCommit sha base chain).outPeaks =
        peaksOf sha (chain.map (·.outputLeaf zeroCommit sha)) := by
  induction chain using List.reverseRecOn with
  | nil => exact ⟨rfl, rfl, rfl, rfl, rfl⟩
  | append_singleton chain ev ih =>
    obtain ⟨hbase, htotal, hleaves, hfirst, hpeaks⟩ := ih
    simp only [built_concat, List.map_append, List.map_cons, List.map_nil, V37.peaksOf_concat,
      outputCount_concat]
    unfold totalOutputs at htotal ⊢
    unfold appended
    simp only [List.length_append, BlockTxEvent.length_blockOuts, hbase, hleaves, hfirst, hpeaks,
      and_true, true_and]
    omega

theorem frontier_built (base : U64) (chain : List BlockTxEvent) :
    (built zeroCommit sha base chain).frontier =
      Fin.ofNat (2 ^ 64) (base.val + outputCount chain) := by
  obtain ⟨hbase, htotal, -⟩ := @built_spec zeroCommit sha base chain
  unfold frontier
  rw [hbase, htotal]

theorem onBlockConnected_built (h : Emits base chain (.connected ev)) :
    (built zeroCommit sha base chain).onBlockConnected zeroCommit sha ev =
      some (built zeroCommit sha base (chain ++ [ev])) := by
  obtain ⟨hkind, hfirst⟩ := h
  have hfrontier : ev.firstOutputIndex = (built zeroCommit sha base chain).frontier := by
    rw [frontier_built, ← hfirst]
    exact (Fin.ofNat_val_eq_self _).symm
  unfold onBlockConnected
  rw [if_neg (by simp [hkind]), if_neg (fun hskip => hskip.2 hfrontier), built_concat]

theorem feed_built {e : Feed} (hchain : Numbered base chain) (he : Emits base chain e) :
    feed zeroCommit sha (built zeroCommit sha base chain) e =
        built zeroCommit sha base (survive chain e) ∧
      Numbered base (survive chain e) := by
  cases e with
  | connected ev =>
    simp only [feed, survive, onBlockConnected_built he, Option.getD_some, true_and]
    exact hchain.concat he.1 he.2
  | disconnected ev =>
    obtain ⟨tip, htip, hheight, -⟩ := he
    cases hchain with
    | nil => simp at htip
    | concat h hkind hfirst =>
      simp only [getLast?_append, getLast?_singleton, Option.some_or, Option.some.injEq] at htip
      subst htip
      simp only [feed, survive, dropLast_concat, built_concat,
        onBlockDisconnected_appended (tidy_built base _) hheight, Option.getD_some, true_and]
      exact h

theorem foldl_feed_built (hchain : Numbered base chain) (hfeeds : EmitsAll base chain feeds) :
    feeds.foldl (feed zeroCommit sha) (built zeroCommit sha base chain) =
        built zeroCommit sha base (feeds.foldl survive chain) ∧
      Numbered base (feeds.foldl survive chain) := by
  induction feeds generalizing chain with
  | nil => exact ⟨rfl, hchain⟩
  | cons e feeds ih =>
    obtain ⟨he, hrest⟩ := hfeeds
    obtain ⟨hstep, hnumbered⟩ := @feed_built zeroCommit sha _ _ _ hchain he
    rw [List.foldl_cons, List.foldl_cons, hstep]
    exact ih hnumbered hrest

theorem run_eq_built (hfeeds : EmitsAll base [] feeds) :
    run zeroCommit sha base feeds = built zeroCommit sha base (survivors feeds) ∧
      Numbered base (survivors feeds) := foldl_feed_built Numbered.nil hfeeds

theorem run_connected (h : Numbered base chain) :
    run zeroCommit sha base (chain.map .connected) = built zeroCommit sha base chain := by
  induction h with
  | nil => rfl
  | concat _ hkind hfirst ih =>
    unfold run at ih ⊢
    rw [List.map_append, foldl_append, ih]
    simp only [List.map_cons, List.map_nil, List.foldl_cons, List.foldl_nil, feed,
      onBlockConnected_built ⟨hkind, hfirst⟩, Option.getD_some]

/-! ## Finding the block of an output -/

theorem Numbered.first_le (h : Numbered base chain) (hev : ev ∈ chain) :
    ev.firstOutputIndex.val ≤ base.val + outputCount chain := by
  induction h with
  | nil => simp at hev
  | concat _ _ hfirst ih =>
    rw [outputCount_concat]
    rcases mem_append.mp hev with hold | hlast
    · have := ih hold
      omega
    · rw [List.mem_singleton.mp hlast, hfirst]
      omega

theorem Numbered.takeWhile_first
    (h : Numbered base chain) (hbase : base.val ≤ i.val) (hne : chain ≠ []) :
    ∃ pre ev post, chain = pre ++ ev :: post ∧
      (chain.takeWhile fun ev => ev.firstOutputIndex ≤ i).length = pre.length + 1 ∧
      base.val + outputCount pre ≤ i.val ∧
      (i.val < base.val + outputCount chain →
        i.val < base.val + outputCount pre + ev.outputCount) := by
  induction h with
  | nil => exact absurd rfl hne
  | @concat chain ev hchain _ hfirst ih =>
    rw [outputCount_concat]
    by_cases hlast : ev.firstOutputIndex ≤ i
    · -- every block starts at or below the index, and the last one is found
      refine ⟨chain, ev, [], rfl, ?_, ?_, fun hi => by omega⟩
      · rw [takeWhile_eq_self_iff.mpr ?_]
        · simp
        intro ev' hev'
        have hle : ev'.firstOutputIndex.val ≤ ev.firstOutputIndex.val := by
          rcases mem_append.mp hev' with hold | hlast'
          · rw [hfirst]
            exact hchain.first_le hold
          · rw [List.mem_singleton.mp hlast']
        exact decide_eq_true (Fin.le_def.mpr (hle.trans (Fin.le_def.mp hlast)))
      · rw [← hfirst]
        exact hlast
    have hbefore : i.val < base.val + outputCount chain := by
      rw [← hfirst]
      exact Nat.lt_of_not_le hlast
    have hne' : chain ≠ [] := by
      intro hnil
      simp only [hnil, outputCount_nil] at hbefore
      omega
    obtain ⟨pre, ev', post, hsplit, hlength, hpre, hin⟩ := ih hne'
    refine ⟨pre, ev', post ++ [ev], by simp [hsplit], ?_, hpre, fun _ => hin hbefore⟩
    rw [takeWhile_append]
    split
    · simp only [takeWhile_cons, hlast, decide_false, Bool.false_eq_true, if_false, append_nil]
      omega
    · exact hlength

theorem proveOutput_built (h : Numbered base chain)
    (hne : chain ≠ []) {i : U64} (hbase : base.val ≤ i.val) :
    ∃ pre ev post, chain = pre ++ ev :: post ∧
      (built zeroCommit sha base chain).proveOutput sha i =
        some (ev.outputLeaf zeroCommit sha,
          mmrProof sha (chain.map (·.outputLeaf zeroCommit sha)) pre.length) ∧
      base.val + outputCount pre ≤ i.val ∧
      (i.val < base.val + outputCount chain →
        i.val < base.val + outputCount pre + ev.outputCount) := by
  obtain ⟨hb, -, hleaves, hfirst, -⟩ := @built_spec zeroCommit sha base chain
  obtain ⟨pre, ev, post, hsplit, hlength, hpre, hin⟩ := h.takeWhile_first hbase hne
  refine ⟨pre, ev, post, hsplit, ?_, hpre, hin⟩
  have hit : (((built zeroCommit sha base chain).outLeafFirst).takeWhile
      fun first => first ≤ i).length = pre.length + 1 := by
    rw [hfirst, takeWhile_map, length_map]
    exact hlength
  have hleaf : (chain.map (·.outputLeaf zeroCommit sha))[pre.length]? =
      some (ev.outputLeaf zeroCommit sha) := by
    rw [hsplit]
    simp
  unfold proveOutput
  rw [if_neg (by rw [hb]; exact Nat.not_lt.mpr hbase)]
  simp only [hit, hleaves, Nat.add_one_sub_one, hleaf, Nat.succ_ne_zero, if_false]

/-- `ev` is the block that created output `i`. -/
def Creates (base : U64) (chain : List BlockTxEvent) (i : U64) (ev : BlockTxEvent) : Prop :=
  ∃ pre post, chain = pre ++ ev :: post ∧ base.val + outputCount pre ≤ i.val ∧
    i.val < base.val + outputCount pre + ev.outputCount

variable (zeroCommit sha)

/-- No question tells the two sets apart. -/
structure SameAnswers (s s' : ChainOutputSet) : Prop where
  outputRoot : s.outputRoot sha = s'.outputRoot sha
  spentRoot : s.spentRoot sha = s'.spentRoot sha
  outputLeafCount : s.outputLeafCount = s'.outputLeafCount
  spentLeafCount : s.spentLeafCount = s'.spentLeafCount
  setDigest : s.setDigest sha = s'.setDigest sha
  resolve : ∀ amount offsets, s.resolve amount offsets = s'.resolve amount offsets
  isSpent : ∀ ki, s.isSpent ki = s'.isSpent ki

/-- `prove_output` proves output `i` exactly when the set has it, with the leaf of the block that
created it and a proof that `mmr_verify` takes. -/
structure ProvesExactly (s : ChainOutputSet) (chain : List BlockTxEvent) (i : U64) : Prop where
  succeeds : (s.proveOutput sha i).isSome ↔ s.base ≤ i ∧ i.val < s.base.val + s.totalOutputs
  leaf : ∀ leaf proof, s.proveOutput sha i = some (leaf, proof) →
    ∃ ev, Creates s.base chain i ev ∧ leaf = ev.outputLeaf zeroCommit sha ∧
      mmrVerify sha (s.outputRoot sha) leaf proof = true

variable {zeroCommit sha}

theorem provesExactly_built_nil (base i : U64) :
    ProvesExactly zeroCommit sha (built zeroCommit sha base []) [] i := by
  have hnone : (built zeroCommit sha base []).proveOutput sha i = none := by
    simp [proveOutput, built]
  constructor
  · rw [hnone]
    have : (built zeroCommit sha base []).totalOutputs = 0 := rfl
    simp only [Option.isSome_none, Bool.false_eq_true, false_iff, not_and, this]
    intro hle
    have := Fin.le_def.mp hle
    omega
  intro leaf proof h
  rw [hnone] at h
  simp at h

theorem provesExactly_built (h : Numbered base chain)
    (hfew : chain.length < 2 ^ 64) (hi : i.val < base.val + outputCount chain) :
    ProvesExactly zeroCommit sha (built zeroCommit sha base chain) chain i := by
  obtain ⟨hb, htotal, hleaves, -, hpeaks⟩ := @built_spec zeroCommit sha base chain
  by_cases hbase : base.val ≤ i.val
  · have hne : chain ≠ [] := by
      intro hnil
      simp only [hnil, outputCount_nil] at hi
      omega
    obtain ⟨pre, ev, post, hsplit, hproof, hpre, hin⟩ :=
      @proveOutput_built zeroCommit sha _ _ h hne _ hbase
    constructor
    · rw [hproof, hb, htotal]
      simp only [Option.isSome_some, true_iff]
      exact ⟨Fin.le_def.mpr hbase, hi⟩
    intro leaf proof heq
    rw [hproof] at heq
    simp only [Option.some.injEq, Prod.mk.injEq] at heq
    refine ⟨ev, ?_, heq.1.symm, ?_⟩
    · rw [hb]
      exact ⟨pre, post, hsplit, hpre, hin hi⟩
    rw [← heq.1, ← heq.2]
    unfold outputRoot
    rw [hpeaks]
    apply V37.mmrVerify_mmrProof
    · simpa using hfew
    · rw [hsplit]
      simp
  have hnone : (built zeroCommit sha base chain).proveOutput sha i = none := by
    unfold proveOutput
    rw [hb, if_pos (Fin.lt_def.mpr (by omega))]
  constructor
  · rw [hnone, hb]
    simp only [Option.isSome_none, Bool.false_eq_true, false_iff, not_and]
    intro hle
    exact absurd hle hbase
  intro leaf proof heq
  rw [hnone] at heq
  simp at heq

/-- The output set follows the chain for every index that a block has reached, and only while no
block is connected for any other. -/
theorem run_follows_iff {base : U64} {feeds : List Feed} (hfeeds : EmitsAll base [] feeds)
    (hfew : (survivors feeds).length < 2 ^ 64) (i : U64) :
    SameAnswers sha (run zeroCommit sha base feeds)
          (run zeroCommit sha base ((survivors feeds).map .connected)) ∧
        ProvesExactly zeroCommit sha (run zeroCommit sha base feeds)
          (survivors feeds) i ↔
      survivors feeds = [] ∨ i.val < base.val + outputCount (survivors feeds) := by
  obtain ⟨hrun, hnumbered⟩ := @run_eq_built zeroCommit sha _ _ hfeeds
  rw [run_connected hnumbered, hrun]
  constructor
  · intro h
    by_contra hcond
    obtain ⟨hne, hpast⟩ := not_or.mp hcond
    obtain ⟨hb, htotal, -⟩ := @built_spec zeroCommit sha base (survivors feeds)
    obtain ⟨pre, ev, post, -, hproof, -⟩ :=
      @proveOutput_built zeroCommit sha _ _ hnumbered hne i (by omega)
    have hreached := h.2.succeeds.mp (by rw [hproof]; rfl)
    rw [hb, htotal] at hreached
    exact hpast hreached.2
  intro hcond
  refine ⟨⟨rfl, rfl, rfl, rfl, rfl, fun _ _ => rfl, fun _ => rfl⟩, ?_⟩
  rcases hcond with hnil | hreached
  · rw [hnil]
    exact provesExactly_built_nil base i
  · exact provesExactly_built hnumbered hfew hreached

end Run

def oneOutput (height : U64) (first : U64) : BlockTxEvent where
  height := height
  keyImages := [Fin.castLE (by decide) height]
  outputs := [{ pubkey := 5, commitment := 6, unlockTime := 0, height := height }]
  firstOutputIndex := first

def replacedTip : List Feed :=
  [.connected (oneOutput 7 100), .connected (oneOutput 8 101), .disconnected (oneOutput 8 101),
    .connected (oneOutput 8 101)]

theorem emitsAll_replacedTip : EmitsAll 100 [] replacedTip :=
  ⟨⟨rfl, rfl⟩, ⟨rfl, rfl⟩, ⟨_, rfl, rfl, rfl⟩, ⟨rfl, rfl⟩, trivial⟩

theorem run_follows_replacedTip :
    EmitsAll 100 [] replacedTip ∧
      SameAnswers V37.Sha256.sha256d (run (fun _ => 0) V37.Sha256.sha256d 100 replacedTip)
        (run (fun _ => 0) V37.Sha256.sha256d 100 ((survivors replacedTip).map .connected)) ∧
      ProvesExactly (fun _ => 0) V37.Sha256.sha256d
        (run (fun _ => 0) V37.Sha256.sha256d 100 replacedTip) (survivors replacedTip) 101 :=
  ⟨emitsAll_replacedTip,
    (run_follows_iff emitsAll_replacedTip (by decide) 101).mpr (.inr (by decide))⟩

/-- One block with one output, and a proof for the index after it. -/
theorem proveOutput_past_frontier :
    EmitsAll 0 [] [.connected (oneOutput 1 0)] ∧
      ¬ ProvesExactly (fun _ => 0) V37.Sha256.sha256d
        (run (fun _ => 0) V37.Sha256.sha256d 0 [.connected (oneOutput 1 0)])
        (survivors [.connected (oneOutput 1 0)]) 1 := by
  refine ⟨⟨⟨rfl, rfl⟩, trivial⟩, fun h => ?_⟩
  have hsome : ((run (fun _ => 0) V37.Sha256.sha256d 0
      [.connected (oneOutput 1 0)]).proveOutput V37.Sha256.sha256d 1).isSome := by
    decide +kernel
  have hreached := (h.succeeds.mp hsome).2
  revert hreached
  decide +kernel

end ChainOutputSet

end C2Pool.Xmr
