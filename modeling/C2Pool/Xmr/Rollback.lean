import C2Pool.Xmr.ConsensusState

/-! # Rollback

A list of blocks connected in turn is taken back by the undo records in
reverse.  Rows older than the retention are gone for good, but nothing that a
later block is judged by reads them: two states that agree in their windows,
their emission and their tip accept the same blocks and write the same rows.
-/

namespace C2Pool.Xmr.ConsensusState

open List SlidingWindow

variable (retarget : Retarget) {t : ConsensusState} {block : BlockConnectInput} {now : U64}
  {written : ChainRow × ConnectUndo} {n : Nat} {row : ChainRow} {fuse : HfFuse} {s : ConsensusState}
  {j : Judged} {s' : ConsensusState} {outs : List (ChainRow × ConnectUndo)}
  {blocks : List (BlockConnectInput × U64)}

/-! ## States a later block cannot tell apart -/

/-- The states agree in everything a later block is judged by. -/
structure Alike (s t : ConsensusState) : Prop where
  net : t.net = s.net
  difficulty : t.difficulty = s.difficulty
  weights : t.weights = s.weights
  timestamps : t.timestamps = s.timestamps
  agc : t.agc = s.agc
  tip : t.tip = s.tip
  anchorHeight : t.anchorHeight = s.anchorHeight
  rowRetention : t.rowRetention = s.rowRetention

/-- Two judgements that differ at most in the fuse. -/
structure Judged.Alike (j j' : Judged) : Prop where
  verdict : j'.verdict = j.verdict
  why : j'.why = j.why
  coinbase : j'.coinbase = j.coinbase

theorem rows_ne_nil_iff : s.rows ≠ [] ↔ s.tip ≠ none := by
  simp [tip]

theorem Alike.rows_ne_nil (h : Alike s t) : t.rows ≠ [] ↔ s.rows ≠ [] := by
  rw [rows_ne_nil_iff, rows_ne_nil_iff, h.tip]

theorem Alike.height (h : Alike s t) : t.height = s.height := by
  simp [ConsensusState.height, h.tip]

theorem Alike.nextMajorVersion (h : Alike s t) : t.nextMajorVersion = s.nextMajorVersion := by
  simp [ConsensusState.nextMajorVersion, h.net, h.height, h.tip]

theorem Alike.judge (h : Alike s t)
    (hj : s.judge block now = .ok j) : ∃ j', t.judge block now = .ok j' ∧ Judged.Alike j j' := by
  unfold ConsensusState.judge at hj ⊢
  simp only [h.rows_ne_nil, h.tip, h.height, h.net, h.anchorHeight, h.timestamps, h.weights,
    h.agc] at hj ⊢
  obtain ⟨hverdict, hwhy⟩ := hfPolicyCheckBlock_fuse s.net (s.height + 1) (toU8 block.majorVersion)
    (toU8 block.minorVersion) s.fuse t.fuse
  rcases hprobe : hfPolicyCheckBlock s.net (s.height + 1) (toU8 block.majorVersion)
    (toU8 block.minorVersion) s.fuse with ⟨verdict, fuse, why⟩
  rcases hprobe' : hfPolicyCheckBlock s.net (s.height + 1) (toU8 block.majorVersion)
    (toU8 block.minorVersion) t.fuse with ⟨verdict', fuse', why'⟩
  simp only [hprobe, hprobe'] at hverdict hwhy hj ⊢
  subst hverdict hwhy
  split at hj
  · cases hj
  next hprev =>
  split at hj
  · cases hj
  next habove =>
  rw [if_neg hprev, if_neg habove]
  split at hj
  · cases hj
  next haccepts =>
  split at hj
  · cases hj
  next hcoinbaseHeight =>
  split at hj
  · cases hj
  next houtputs =>
  rw [if_neg haccepts, if_neg hcoinbaseHeight, if_neg houtputs]
  split at hj
  · cases hj
  · cases hj
  split at hj
  · cases hj
  next hbodies =>
  rw [if_neg hbodies]
  split at hj
  · cases hj
  split at hj
  · cases hj
  next hpays =>
  rw [if_neg hpays]
  cases hj
  exact ⟨_, rfl, ⟨rfl, rfl, rfl⟩⟩

theorem Alike.rowOf (h : Alike s t) (block : BlockConnectInput) {j' : Judged}
    (hj : Judged.Alike j j') : t.rowOf retarget block j' = s.rowOf retarget block j := by
  simp [ConsensusState.rowOf, h.height, h.difficulty, h.weights, h.tip, h.agc, hj.coinbase,
    hj.verdict]

theorem Alike.undoOf (h : Alike s t) (row : ChainRow) : t.undoOf row = s.undoOf row := by
  simp [ConsensusState.undoOf, h.weights, h.difficulty, h.timestamps, h.agc]

theorem Alike.templateInputsPartial (h : Alike s t) :
    t.templateInputsPartial retarget =
      { s.templateInputsPartial retarget with epochSeq := t.epochSeq } := by
  simp [ConsensusState.templateInputsPartial, h.nextMajorVersion, h.height, h.tip, h.difficulty,
    h.weights, h.timestamps, h.agc]

@[simp] theorem accept_rows (s : ConsensusState) (fuse : HfFuse) (row : ChainRow) :
    (s.accept fuse row).rows = SlidingWindow.newest s.rowRetention (s.rows ++ [row]) := rfl

theorem accept_tip (hretention : s.rowRetention ≠ 0) (fuse : HfFuse) (row : ChainRow) :
    (s.accept fuse row).tip = some row := by
  unfold tip
  rw [accept_rows, SlidingWindow.getLast?_newest hretention]
  simp

theorem Alike.accept (h : Alike s t) (fuse fuse' : HfFuse) (row : ChainRow) :
    Alike (s.accept fuse row) (t.accept fuse' row) where
  net := h.net
  difficulty := by simp [ConsensusState.accept, trimRows, h.difficulty]
  weights := by simp [ConsensusState.accept, trimRows, h.weights]
  timestamps := by simp [ConsensusState.accept, trimRows, h.timestamps]
  agc := rfl
  tip := by
    by_cases hretention : s.rowRetention = 0
    · simp [ConsensusState.tip, h.rowRetention, hretention, SlidingWindow.newest]
    · have hretention' : t.rowRetention ≠ 0 := by rwa [h.rowRetention]
      rw [accept_tip hretention, accept_tip hretention']
  anchorHeight := h.anchorHeight
  rowRetention := h.rowRetention

/-- Connect the blocks in turn, each against its own reading of the clock.  `none` when one of
them is refused. -/
def connectAll : ConsensusState → List (BlockConnectInput × U64) →
    Option (ConsensusState × List (ChainRow × ConnectUndo))
  | s, [] => some (s, [])
  | s, (block, now) :: rest =>
    match (s.connect retarget block now).out with
    | none => none
    | some written =>
      (connectAll (s.connect retarget block now).state rest).map fun r =>
        (r.1, written :: r.2)

def disconnectAll (s : ConsensusState) (undos : List ConnectUndo) : Option ConsensusState :=
  undos.foldlM disconnect s

theorem connect_eq_some (h : (s.connect retarget block now).out = some written) :
    ∃ j, s.judge block now = .ok j ∧
      (s.connect retarget block now).state = s.accept j.fuse written.1 ∧
      written.1 = s.rowOf retarget block j ∧ written.2 = s.undoOf written.1 := by
  rcases connect_cases retarget s block now with ⟨-, -, hnone⟩ | ⟨-, j, hj, hstate, hout⟩
  · rw [hnone] at h
    cases h
  rw [hout] at h
  cases h
  exact ⟨j, hj, hstate, rfl, rfl⟩

theorem Alike.connect (h : Alike s t) (hs : (s.connect retarget block now).out = some written) :
    (t.connect retarget block now).out = some written ∧
      Alike (s.connect retarget block now).state (t.connect retarget block now).state := by
  obtain ⟨j, hj, hstate, hrow, hundo⟩ := connect_eq_some retarget hs
  obtain ⟨j', hj', halike⟩ := h.judge hj
  have hrow' : t.rowOf retarget block j' = written.1 := by
    rw [h.rowOf retarget block halike, hrow]
  have hout : (t.connect retarget block now).out = some written := by
    simp only [ConsensusState.connect, hj', hrow', h.undoOf, ← hundo]
  refine ⟨hout, ?_⟩
  rw [hstate]
  simp only [ConsensusState.connect, hj', hrow']
  exact h.accept j.fuse j'.fuse written.1

theorem Alike.connectAll (h : Alike s t) {blocks : List (BlockConnectInput × U64)}
    {s' : ConsensusState} {outs : List (ChainRow × ConnectUndo)}
    (hs : connectAll retarget s blocks = some (s', outs)) :
    ∃ t', connectAll retarget t blocks = some (t', outs) ∧ Alike s' t' := by
  induction blocks generalizing s t s' outs with
  | nil =>
    cases hs
    exact ⟨t, rfl, h⟩
  | cons head rest ih =>
    obtain ⟨block, now⟩ := head
    simp only [ConsensusState.connectAll] at hs ⊢
    split at hs
    · cases hs
    next written hwritten =>
    obtain ⟨hout, halike⟩ := h.connect retarget hwritten
    obtain ⟨⟨s₁, outs₁⟩, hrest, heq⟩ := Option.map_eq_some_iff.mp hs
    cases heq
    obtain ⟨t', ht', halike'⟩ := ih halike hrest
    rw [hout]
    dsimp only
    rw [ht']
    exact ⟨t', rfl, halike'⟩

/-! ## Taking blocks back -/

/-- `t` still holds the newest `n` rows of `s`, and no row that `s` does not have. -/
def Kept (n : Nat) (s t : ConsensusState) : Prop :=
  ∃ m, n ≤ m ∧ t.rows = SlidingWindow.newest m s.rows

theorem Kept.refl (n : Nat) (s : ConsensusState) : Kept n s s :=
  ⟨max n s.rows.length, le_max_left _ _, (newest_eq_self (le_max_right _ _)).symm⟩

theorem Kept.dropLast
    (h : Kept (n + 1) (s.accept fuse row) t) (hretention : n + 1 ≤ s.rowRetention) :
    ∃ m, n ≤ m ∧ t.rows = SlidingWindow.newest m s.rows ++ [row] := by
  obtain ⟨m, hm, hrows⟩ := h
  rw [accept_rows, newest_newest] at hrows
  obtain ⟨l, hl⟩ : ∃ l, min m s.rowRetention = l + 1 := ⟨min m s.rowRetention - 1, by omega⟩
  refine ⟨l, by omega, ?_⟩
  rw [hrows, hl, newest_concat]

/-- One step of the rollback: `t` is the state after the block, up to older rows the retention
has dropped meanwhile. -/
theorem disconnect_accept
    (halike : Alike (s.accept fuse row) t) (hkept : Kept (n + 1) (s.accept fuse row) t)
    (hn : n ≠ 0) (hretention : n + 1 ≤ s.rowRetention) (hheight : s.anchorHeight < row.height) :
    ∃ u, t.disconnect (s.undoOf row) = some u ∧ Alike s u ∧ Kept n s u := by
  obtain ⟨m, hm, hrows⟩ := hkept.dropLast hretention
  have htip : t.tip = some row := by
    rw [halike.tip, accept_tip (by omega)]
  have habove : ¬ row.height ≤ t.anchorHeight := by
    rw [halike.anchorHeight]
    exact not_le.mpr hheight
  have hdropped : t.rows.dropLast = SlidingWindow.newest m s.rows := by
    rw [hrows, dropLast_concat]
  have hdifficulty : t.difficulty.pop (s.undoOf row).difficulty = s.difficulty := by
    rw [halike.difficulty]
    exact DifficultyWindow.pop_push _ _ _
  have hweights : t.weights.pop (s.undoOf row).weight = s.weights := by
    rw [halike.weights]
    exact WeightState.pop_push _ _ _
  have htimestamps : t.timestamps.pop (s.undoOf row).timestamp = s.timestamps := by
    rw [halike.timestamps]
    exact TimestampWindow.pop_push _ _
  unfold disconnect
  rw [htip]
  dsimp only
  rw [if_neg habove, hdropped, hdifficulty, hweights, htimestamps]
  refine ⟨_, rfl, ?_, m, hm, rfl⟩
  exact
    { net := halike.net
      difficulty := rfl
      weights := rfl
      timestamps := rfl
      agc := rfl
      tip := SlidingWindow.getLast?_newest (by omega) s.rows
      anchorHeight := halike.anchorHeight
      rowRetention := halike.rowRetention }

theorem disconnectAll_concat (s : ConsensusState) (undos : List ConnectUndo) (undo : ConnectUndo) :
    disconnectAll s (undos ++ [undo]) =
      (disconnectAll s undos).bind fun t => t.disconnect undo := by
  unfold disconnectAll
  rw [foldlM_append]
  cases undos.foldlM disconnect s with
  | none => rfl
  | some t => simp

theorem connectAll_cons {rest : List (BlockConnectInput × U64)}
    (hs : connectAll retarget s ((block, now) :: rest) = some (s', outs)) :
    ∃ j row outs', s.judge block now = .ok j ∧ row.height = s.height + 1 ∧
      connectAll retarget (s.accept j.fuse row) rest = some (s', outs') ∧
      outs = (row, s.undoOf row) :: outs' := by
  simp only [ConsensusState.connectAll] at hs
  split at hs
  · cases hs
  next written hwritten =>
  obtain ⟨⟨s₁, outs'⟩, hrest, heq⟩ := Option.map_eq_some_iff.mp hs
  cases heq
  obtain ⟨j, hj, hstate, hrow, hundo⟩ := connect_eq_some retarget hwritten
  rw [hstate] at hrest
  refine ⟨j, written.1, outs', hj, ?_, hrest, ?_⟩
  · rw [hrow]
    rfl
  · rw [← hundo]

theorem accept_retains (fuse : HfFuse) (row : ChainRow) {n : Nat} (hk : n + 1 < s.rowRetention) :
    (s.accept fuse row).rows ≠ [] ∧ n < (s.accept fuse row).rowRetention := by
  constructor
  · rw [rows_ne_nil_iff, accept_tip (by omega)]
    simp
  · show n < s.rowRetention
    omega

section

variable (hs : connectAll retarget s blocks = some (s', outs)) (hk : blocks.length < s.rowRetention)
include hs hk

theorem disconnectAll_connectAll (htakes : s.rows ≠ [] ∨ s.anchorHeight = 0) :
    ∃ t, disconnectAll s' (outs.map Prod.snd).reverse = some t ∧ Alike s t ∧
      Kept (s.rowRetention - blocks.length) s t := by
  induction blocks generalizing s outs with
  | nil =>
    cases hs
    exact ⟨s', rfl, ⟨rfl, rfl, rfl, rfl, rfl, rfl, rfl, rfl⟩, Kept.refl _ s'⟩
  | cons head rest ih =>
    obtain ⟨j, row, outs', hj, hrowHeight, hrest, rfl⟩ := connectAll_cons retarget hs
    rw [length_cons] at hk
    obtain ⟨hne, hk₁⟩ := accept_retains j.fuse row hk
    obtain ⟨t, ht, halike, hkept⟩ := ih hrest hk₁ (Or.inl hne)
    have hkept' : Kept (s.rowRetention - (rest.length + 1) + 1) (s.accept j.fuse row) t := by
      have hcount : s.rowRetention - (rest.length + 1) + 1 =
          (s.accept j.fuse row).rowRetention - rest.length := by
        show _ = s.rowRetention - rest.length
        omega
      rw [hcount]
      exact hkept
    have hheight : s.anchorHeight < row.height := by
      rw [hrowHeight]
      by_cases hrows : s.rows = []
      · have hzero : s.anchorHeight = 0 := by simpa [hrows] using htakes
        have hbase : s.height = 0 := by simp [height, tip, hrows]
        rw [hzero, hbase]
        decide
      · exact judge_height hj hrows
    obtain ⟨u, hu, halike', hkept''⟩ :=
      disconnect_accept halike hkept' (by omega) (by omega) hheight
    refine ⟨u, ?_, halike', hkept''⟩
    rw [map_cons, reverse_cons, disconnectAll_concat, ht]
    exact hu

theorem disconnectAll_eq_none (hblocks : blocks ≠ []) (hrows : s.rows = [])
    (hanchor : s.anchorHeight ≠ 0) : disconnectAll s' (outs.map Prod.snd).reverse = none := by
  obtain ⟨⟨block, now⟩, rest, rfl⟩ := exists_cons_of_ne_nil hblocks
  obtain ⟨j, row, outs', hj, hrowHeight, hrest, rfl⟩ := connectAll_cons retarget hs
  rw [length_cons] at hk
  obtain ⟨hne, hk₁⟩ := accept_retains j.fuse row hk
  obtain ⟨t, ht, halike, -⟩ := disconnectAll_connectAll retarget hrest hk₁ (Or.inl hne)
  have htip : t.tip = some row := by
    rw [halike.tip, accept_tip (by omega)]
  have hbelow : row.height ≤ t.anchorHeight := by
    have hbase : s.height = 0 := by simp [height, tip, hrows]
    rw [halike.anchorHeight, hrowHeight, hbase]
    show (0 : U64) + 1 ≤ s.anchorHeight
    exact Fin.one_le_of_ne_zero hanchor
  rw [map_cons, reverse_cons, disconnectAll_concat, ht]
  simp only [Option.bind_some, disconnect, htip, if_pos hbelow]

end

/-- What the rollback of `blocks` has to restore.  The weights are compared with their windows
whole, medians included. -/
structure Restored (s : ConsensusState) (blocks : List (BlockConnectInput × U64))
    (outs : List (ChainRow × ConnectUndo)) (t : ConsensusState) : Prop where
  difficulty : t.difficulty = s.difficulty
  weights : t.weights = s.weights
  timestamps : t.timestamps = s.timestamps
  alreadyGeneratedCoins : t.agc = s.agc
  tip : t.tip = s.tip
  template : t.templateInputsPartial retarget =
    { s.templateInputsPartial retarget with epochSeq := t.epochSeq }
  reconnects : ∃ t', connectAll retarget t blocks = some (t', outs)

/-- Rollback is exact: fewer blocks than the retention, accepted in turn on any state, are all
taken back by their records, whatever their versions, weights, timestamps and flags, as long as the
state has a tip row or its anchor is the genesis.  A refused block changes nothing. -/
theorem rollback_restores_iff (s : ConsensusState) {blocks : List (BlockConnectInput × U64)}
    {s' : ConsensusState} {outs : List (ChainRow × ConnectUndo)}
    (haccepted : connectAll retarget s blocks = some (s', outs))
    (hk : blocks.length < s.rowRetention) :
    ((∃ t, disconnectAll s' (outs.map Prod.snd).reverse = some t ∧
        Restored retarget s blocks outs t) ↔ (blocks = [] ∨ s.rows ≠ [] ∨ s.anchorHeight = 0)) ∧
    ∀ (block : BlockConnectInput) (now : U64), (s.connect retarget block now).status ≠ .ok →
      (s.connect retarget block now).state = s := by
  refine ⟨⟨?_, ?_⟩, ?_⟩
  · rintro ⟨t, ht, -⟩
    by_contra hnot
    push Not at hnot
    obtain ⟨hblocks, hrows, hanchor⟩ := hnot
    rw [disconnectAll_eq_none retarget haccepted hk hblocks hrows hanchor] at ht
    cases ht
  · intro hcond
    have hrolls : ∃ t, disconnectAll s' (outs.map Prod.snd).reverse = some t ∧ Alike s t := by
      rcases hcond with rfl | htakes
      · cases haccepted
        exact ⟨_, rfl, ⟨rfl, rfl, rfl, rfl, rfl, rfl, rfl, rfl⟩⟩
      · obtain ⟨t, ht, halike, -⟩ := disconnectAll_connectAll retarget haccepted hk htakes
        exact ⟨t, ht, halike⟩
    obtain ⟨t, ht, halike⟩ := hrolls
    obtain ⟨t', ht', -⟩ := halike.connectAll retarget haccepted
    refine ⟨t, ht, ?_⟩
    exact
      { difficulty := halike.difficulty
        weights := halike.weights
        timestamps := halike.timestamps
        alreadyGeneratedCoins := halike.agc
        tip := halike.tip
        template := halike.templateInputsPartial retarget
        reconnects := ⟨t', ht'⟩ }
  · intro block now hrefused
    rcases connect_cases retarget s block now with ⟨-, hsame, -⟩ | ⟨hok, -⟩
    · exact hsame
    · exact absurd hok hrefused

def flatRetarget : Retarget := fun _ _ _ => { lo := 1 }

def firstBlock : BlockConnectInput :=
  { majorVersion := 16
    minorVersion := 16
    id := 1
    coinbaseHeight := 1
    coinbaseOutputSum := 35184372088831
    bodiesComplete := true }

/-- The next block on top of a state, without transactions. -/
def ownBlock (s : ConsensusState) : BlockConnectInput :=
  { majorVersion := 16
    minorVersion := 16
    prevId := (s.tip.map (·.id)).getD 0
    id := (s.tip.map (·.id)).getD 0 + 1
    coinbaseHeight := s.height + 1
    coinbaseOutputSum := emissionBaseReward s.agc 16
    bodiesComplete := true }

def oneMined : ConsensusState :=
  ((seedEmpty { net := .regtest } 0).connect flatRetarget firstBlock 0).state

def twoMore : List (BlockConnectInput × U64) :=
  [(oneMined.ownBlock, 0), ((oneMined.connect flatRetarget oneMined.ownBlock 0).state.ownBlock, 0)]

theorem rollback_restores_twoMore :
    ∃ s' outs, connectAll flatRetarget oneMined twoMore = some (s', outs) ∧
      ∃ t, disconnectAll s' (outs.map Prod.snd).reverse = some t ∧
        Restored flatRetarget oneMined twoMore outs t := by
  have haccepted : (connectAll flatRetarget oneMined twoMore).isSome := by decide +kernel
  obtain ⟨⟨s', outs⟩, hs⟩ := Option.isSome_iff_exists.mp haccepted
  refine ⟨s', outs, hs, ?_⟩
  exact (rollback_restores_iff flatRetarget _ hs (by decide +kernel)).1.mpr
    (Or.inr (Or.inl (by decide +kernel)))

/-- Seeded empty under an anchor at height 1, the state connects that block and cannot take it
back. -/
theorem rollback_stuck_below_anchor :
    ∃ s' outs, connectAll flatRetarget (seedEmpty { net := .regtest } 1) [(firstBlock, 0)] =
        some (s', outs) ∧
      [(firstBlock, (0 : U64))].length < (seedEmpty { net := .regtest } 1).rowRetention ∧
      disconnectAll s' (outs.map Prod.snd).reverse = none := by
  have haccepted : (connectAll flatRetarget (seedEmpty { net := .regtest } 1)
      [(firstBlock, 0)]).isSome := by decide +kernel
  obtain ⟨⟨s', outs⟩, hs⟩ := Option.isSome_iff_exists.mp haccepted
  refine ⟨s', outs, hs, by decide, ?_⟩
  exact disconnectAll_eq_none flatRetarget hs (by decide) (by simp) rfl (by decide)

theorem Alike.symm (h : Alike s t) : Alike t s :=
  ⟨h.net.symm, h.difficulty.symm, h.weights.symm, h.timestamps.symm, h.agc.symm, h.tip.symm,
    h.anchorHeight.symm, h.rowRetention.symm⟩

theorem rows_connectAll (h : Alike s t) (blocks : List (BlockConnectInput × U64)) :
    (connectAll retarget t blocks).map Prod.snd = (connectAll retarget s blocks).map Prod.snd := by
  cases hs : connectAll retarget s blocks with
  | some r =>
    obtain ⟨t', ht', -⟩ := h.connectAll retarget hs
    rw [ht']
    rfl
  | none =>
    cases ht : connectAll retarget t blocks with
    | none => rfl
    | some r =>
      obtain ⟨s', hs', -⟩ := h.symm.connectAll retarget ht
      rw [hs] at hs'
      cases hs'

/-- **A reorganisation leaves no trace.**  After a branch has been connected and taken back, every
other branch is accepted or refused as on a state that never saw the first one, with the same rows
and undo records, and the template on top of it is the same up to its sequence number. -/
theorem reorg_leaves_no_trace {stale : List (BlockConnectInput × U64)}
    (hstale : connectAll retarget s stale = some (s', outs)) (hk : stale.length < s.rowRetention)
    (htakes : s.rows ≠ [] ∨ s.anchorHeight = 0) :
    ∃ t, disconnectAll s' (outs.map Prod.snd).reverse = some t ∧
      ∀ blocks, (connectAll retarget t blocks).map Prod.snd =
          (connectAll retarget s blocks).map Prod.snd ∧
        ∀ s₁ t₁ rows rows₁, connectAll retarget s blocks = some (s₁, rows) →
          connectAll retarget t blocks = some (t₁, rows₁) →
          t₁.templateInputsPartial retarget =
            { s₁.templateInputsPartial retarget with epochSeq := t₁.epochSeq } := by
  obtain ⟨t, ht, halike, -⟩ := disconnectAll_connectAll retarget hstale hk htakes
  refine ⟨t, ht, fun blocks => ⟨rows_connectAll retarget halike blocks, ?_⟩⟩
  intro s₁ t₁ rows rows₁ hs₁ ht₁
  obtain ⟨t₂, ht₂, hafter⟩ := halike.connectAll retarget hs₁
  rw [ht₁] at ht₂
  cases ht₂
  exact hafter.templateInputsPartial retarget

theorem reorg_leaves_no_trace_firstBlock :
    ∃ s' outs t, connectAll flatRetarget (seedEmpty { net := .regtest } 0) [(firstBlock, 0)] =
        some (s', outs) ∧ disconnectAll s' (outs.map Prod.snd).reverse = some t ∧
      (connectAll flatRetarget t [({ firstBlock with id := 2 }, 0)]).isSome = true := by
  have haccepted : (connectAll flatRetarget (seedEmpty { net := .regtest } 0)
      [(firstBlock, 0)]).isSome := by decide +kernel
  obtain ⟨⟨s', outs⟩, hs⟩ := Option.isSome_iff_exists.mp haccepted
  obtain ⟨t, ht, hsame⟩ := reorg_leaves_no_trace flatRetarget hs (by decide) (Or.inr rfl)
  refine ⟨s', outs, t, hs, ht, ?_⟩
  rw [← Option.isSome_map, (hsame _).1]
  decide +kernel

theorem val_moneySupply_sub (agc : U64) :
    (moneySupply - agc).val = 18446744073709551615 - agc.val := by
  have hle : agc ≤ moneySupply := Nat.le_sub_one_of_lt agc.isLt
  exact Fin.sub_val_of_le hle

theorem val_accumulateGeneratedCoins (agc base : U64) :
    (accumulateGeneratedCoins agc base).val = min 18446744073709551615 (agc.val + base.val) := by
  have hleft := val_moneySupply_sub agc
  have hbound := agc.isLt
  unfold accumulateGeneratedCoins
  split
  · rename_i hlt
    rw [Fin.lt_def, hleft] at hlt
    rw [Fin.val_add_eq_of_add_lt (by omega)]
    omega
  · rename_i hlt
    rw [Fin.lt_def, hleft] at hlt
    show 18446744073709551615 = _
    omega

theorem emissionBaseReward_anti {a b : U64} (h : a ≤ b) (version : U8) :
    emissionBaseReward b version ≤ emissionBaseReward a version := by
  have hmax {tail x y : U64} (hxy : x ≤ y) :
      (if x < tail then tail else x) ≤ if y < tail then tail else y := by
    split
    · split
      · exact le_rfl
      · exact not_lt.mp ‹_›
    · split
      · exact hxy.trans (le_of_lt ‹_›)
      · exact hxy
  unfold emissionBaseReward
  apply hmax
  rw [Fin.le_def, Fin.div_val, Fin.div_val, val_moneySupply_sub, val_moneySupply_sub]
  exact Nat.div_le_div_right (Nat.sub_le_sub_left (Fin.le_def.mp h) _)

theorem agc_accept (s : ConsensusState) (fuse : HfFuse) (row : ChainRow) :
    (s.accept fuse row).agc = row.alreadyGeneratedCoins := by
  unfold accept trimRows
  dsimp only

theorem emission_accounted (hs : connectAll retarget s blocks = some (s', outs)) :
    s'.agc.val = min moneySupply.val (s.agc.val + (outs.map fun out => out.1.baseReward.val).sum) ∧
      ∀ version, emissionBaseReward s'.agc version ≤ emissionBaseReward s.agc version := by
  have hagc : s'.agc.val = min 18446744073709551615
      (s.agc.val + (outs.map fun out => out.1.baseReward.val).sum) := by
    induction blocks generalizing s outs with
    | nil =>
      cases hs
      exact (min_eq_right (Nat.le_sub_one_of_lt s'.agc.isLt)).symm
    | cons head rest ih =>
      simp only [connectAll] at hs
      split at hs
      · cases hs
      next written hwritten =>
      obtain ⟨⟨s₁, outs'⟩, hrest, heq⟩ := Option.map_eq_some_iff.mp hs
      cases heq
      obtain ⟨j, -, hstate, hrow, -⟩ := connect_eq_some retarget hwritten
      have hone := val_accumulateGeneratedCoins s.agc written.1.baseReward
      have hnext : (s.connect retarget head.1 head.2).state.agc =
          accumulateGeneratedCoins s.agc written.1.baseReward := by
        rw [hstate, agc_accept, hrow]
        simp only [rowOf]
      rw [ih hrest, hnext, hone, map_cons, sum_cons]
      dsimp only
      omega
  refine ⟨hagc, fun version => emissionBaseReward_anti ?_ version⟩
  have hbound := s.agc.isLt
  rw [Fin.le_def, hagc]
  omega

theorem emission_accounted_firstBlock :
    ∃ s' outs, connectAll flatRetarget (seedEmpty { net := .regtest } 0) [(firstBlock, 0)] =
      some (s', outs) ∧ emissionBaseReward s'.agc 16 ≤ emissionBaseReward 0 16 := by
  have haccepted : (connectAll flatRetarget (seedEmpty { net := .regtest } 0)
      [(firstBlock, 0)]).isSome := by decide +kernel
  obtain ⟨⟨s', outs⟩, hs⟩ := Option.isSome_iff_exists.mp haccepted
  exact ⟨s', outs, hs, (emission_accounted flatRetarget hs).2 16⟩

end C2Pool.Xmr.ConsensusState
