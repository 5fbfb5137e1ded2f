import C2Pool.Dash.FoldRoot

/-! # Penalties of a reference list

`DmlFoldEngine` does not know the penalties of the masternodes it is seeded with:
it keeps a lower and an upper bound of each.  The reference list keeps the penalty
itself, in `nPoSePenalty`, and is told everything that the engine is told.
-/

namespace C2Pool.Dash

open DmlFoldEngine

/-- A masternode list with the penalties as they are. -/
structure ReferenceList where
  entries : ReplayEntries := ∅
  collateralIndex : SortedMap TxPrevOut Uint256 := ∅

namespace ReferenceList

def maxPenalty (ref : ReferenceList) : Int := calcMaxPosePenalty ref.entries.entries.length

def remove (ref : ReferenceList) (k : Uint256) : ReferenceList :=
  match ref.entries.lookup k with
  | none => ref
  | some rs =>
    { entries := ref.entries.erase k
      collateralIndex := ref.collateralIndex.erase rs.collateralOutpoint }

def spend (ref : ReferenceList) (c : TxPrevOut) : ReferenceList :=
  match ref.collateralIndex.lookup c with
  | none => ref
  | some k => ref.remove k

def punished (H maxPenalty : Int) (rs : ReplayMNState) : ReplayMNState :=
  let p := min maxPenalty (rs.nPoSePenalty + 66 * maxPenalty / 100)
  if maxPenalty ≤ p then { rs with nPoSePenalty := p }.banIfNotBanned H
  else { rs with nPoSePenalty := p }

def punish (H : Int) (ref : ReferenceList) (members : List (Uint256 × Bool)) : ReferenceList :=
  members.foldl (fun ref m =>
    match ref.entries.lookup m.1 with
    | none => ref
    | some rs =>
      if m.2 then ref
      else { ref with entries := ref.entries.insert m.1 (punished H ref.maxPenalty rs) }) ref

def change (ref : ReferenceList) (k : Uint256) (f : ReplayMNState → ReplayMNState) :
    ReferenceList :=
  match ref.entries.lookup k with
  | none => ref
  | some rs => { ref with entries := ref.entries.insert k (f rs) }

section Txs

variable {P : Type} (code : FoldCode P) (H : Int)

def register (ref : ReferenceList) (tx : Tx P) (p : ProRegTx) : ReferenceList :=
  let k := code.computeTxHash tx
  let rs := registered code H {} k p
  let ref := ref.spend rs.collateralOutpoint
  { entries := ref.entries.insert k rs
    collateralIndex := ref.collateralIndex.insert rs.collateralOutpoint k }

def updateService (p : ProUpServTx) (rs : ReplayMNState) : ReplayMNState :=
  if Revivable (updatedService p rs) then (updatedService p rs).revive H else updatedService p rs

def updateRegistrar (p : ProUpRegTx) (rs : ReplayMNState) : ReplayMNState :=
  let new :=
    if code.opkeyPointEq rs.pubKeyOperator false p.pubKeyOperator (p.nVersion < basicBls) then rs
    else changedOperator code H p rs
  { new with keyIDVoting := p.keyIDVoting, scriptPayout := p.scriptPayout }

def revoke (p : ProUpRevTx) (rs : ReplayMNState) : ReplayMNState :=
  { rs.resetOperatorFields.banIfNotBanned H with nRevocationReason := p.nReason }

def commitmentMembers (membersFn : Option (Fin (2 ^ 8) → Uint256 → Option (List Uint256)))
    (tx : Tx P) : List (Uint256 × Bool) :=
  match code.parseQfcommit tx.extraPayload with
  | .error _ => []
  | .ok c =>
    if commitmentIsNull c then []
    else
      match membersFn.bind fun resolve => resolve c.llmqType c.quorumHash with
      | none => []
      | some members => members.zip c.validMembers

def applyTx (membersFn : Option (Fin (2 ^ 8) → Uint256 → Option (List Uint256)))
    (ref : ReferenceList) (tx : Tx P) : ReferenceList :=
  if ¬ txHasExtraPayload tx.version tx.type then ref
  else
    match tx.type.val with
    | 1 =>
      match code.parseProReg tx.extraPayload with
      | none => ref
      | some p => ref.register code H tx p
    | 2 =>
      match code.parseProUpServ tx.extraPayload with
      | none => ref
      | some p => ref.change p.proTxHash (updateService H p)
    | 3 =>
      match code.parseProUpReg tx.extraPayload with
      | none => ref
      | some p => ref.change p.proTxHash (updateRegistrar code H p)
    | 4 =>
      match code.parseProUpRev tx.extraPayload with
      | none => ref
      | some p => ref.change p.proTxHash (revoke H p)
    | 6 => ref.punish H (commitmentMembers code membersFn tx)
    | _ => ref

/-- The list before the transactions of a block: masternodes are confirmed, and the penalty of
those that are not banned decays. -/
def beginBlock (gates : FoldGates) (prevHash : Uint256) (ref : ReferenceList) : ReferenceList :=
  { ref with
    entries := (ref.entries.mapValues fun k rs =>
      if ConfirmationDue gates H rs then rs.updateConfirmedHash code k prevHash else rs).mapValues
      fun _ rs =>
        if rs.isBanned then rs else { rs with nPoSePenalty := max 0 (rs.nPoSePenalty - 1) } }

def applyBlock (gates : FoldGates)
    (membersFn : Option (Fin (2 ^ 8) → Uint256 → Option (List Uint256))) (block : Block P)
    (ref : ReferenceList) : ReferenceList :=
  let ref := block.txs.tail.foldl (applyTx code H membersFn)
    (ref.beginBlock code H gates block.previousBlock)
  (block.txs.tail.flatMap fun tx => tx.vin.map TxIn.prevout).foldl spend ref

end Txs

end ReferenceList

/-! ## Bounds -/

/-- An entry without its penalties, its ban and its place in the payment queue. -/
def ReplayMNState.core (st : ReplayMNState) : ReplayMNState :=
  { st with
    internalId := 0
    nLastPaidHeight := 0
    nConsecutivePayments := 0
    nPoSePenalty := 0
    nPoSePenaltyHi := 0
    nPoSeRevivedHeight := never
    nPoSeBanHeight := never }

/-- What the engine knows of a masternode in the middle of a block at height `H`.  `exact` says
that its bounds met before the block, `mx` is the maximum at its last punish in the block, and
`outgrown` that a punish of the block left its upper bound below a maximum that had grown. -/
structure Bounded (H : Int) (exact outgrown : Prop) (mx : Option Int) (st rs : ReplayMNState) :
    Prop where
  core : st.core = rs.core
  nonneg : 0 ≤ rs.nPoSePenalty
  lower : st.nPoSePenalty ≤ rs.nPoSePenalty
  upper : rs.nPoSePenalty ≤ st.nPoSePenaltyHi
  capped : st.isBanned = false → ∀ x, mx = some x → st.nPoSePenaltyHi ≤ x
  bans : (st.nPoSeBanHeight = rs.nPoSeBanHeight ∧
      (st.isBanned = false → ∀ x, mx = some x → rs.nPoSePenalty < x)) ∨
    (st.isBanned = false ∧ rs.nPoSeBanHeight = H ∧ rs.nPoSePenalty = st.nPoSePenaltyHi ∧
      (outgrown ∨ ∃ x, mx = some x ∧ x ≤ st.nPoSePenaltyHi))
  exact : exact → st.nPoSePenalty = st.nPoSePenaltyHi ∧ st.nPoSeBanHeight = rs.nPoSeBanHeight ∧
    (st.isBanned = false → ∀ x, mx = some x → st.nPoSePenaltyHi < x)

section Entries

variable {H : Int} {exact outgrown : Prop} {mx : Option Int} {st rs : ReplayMNState} {m : Int}
  {st' rs' : ReplayMNState} {outgrown' : Prop}

/-- A masternode after the block: bounds that hold, and the ban of the reference. -/
structure Agreed (exact : Prop) (st rs : ReplayMNState) : Prop where
  core : st.core = rs.core
  nonneg : 0 ≤ rs.nPoSePenalty
  lower : st.nPoSePenalty ≤ rs.nPoSePenalty
  upper : rs.nPoSePenalty ≤ st.nPoSePenaltyHi
  bans : st.nPoSeBanHeight = rs.nPoSeBanHeight
  exact : exact → st.nPoSePenalty = st.nPoSePenaltyHi

theorem calcMaxPosePenalty_ge (n : Nat) : 100 ≤ calcMaxPosePenalty n := le_max_left _ _

theorem calcPenalty_eq (h : 100 ≤ m) : calcPenalty m 66 = 66 * m / 100 := by
  unfold calcPenalty
  rw [Int.tdiv_eq_ediv_of_nonneg (by omega), mul_comm]

theorem isBanned_iff : st.isBanned = true ↔ st.nPoSeBanHeight ≠ never := by
  exact decide_eq_true_iff

theorem isBanned_eq_false_iff : st.isBanned = false ↔ st.nPoSeBanHeight = never := by
  unfold ReplayMNState.isBanned
  rw [decide_eq_false_iff_not, not_not]

theorem isBanned_congr (h : st.nPoSeBanHeight = rs.nPoSeBanHeight) : st.isBanned = rs.isBanned := by
  unfold ReplayMNState.isBanned
  rw [h]

theorem core_banIfNotBanned (st : ReplayMNState) : (st.banIfNotBanned H).core = st.core := by
  unfold ReplayMNState.banIfNotBanned
  split <;> rfl

theorem nPoSePenalty_banIfNotBanned (st : ReplayMNState) :
    (st.banIfNotBanned H).nPoSePenalty = st.nPoSePenalty ∧
      (st.banIfNotBanned H).nPoSePenaltyHi = st.nPoSePenaltyHi := by
  unfold ReplayMNState.banIfNotBanned
  split <;> exact ⟨rfl, rfl⟩

theorem nPoSeBanHeight_banIfNotBanned (st : ReplayMNState) :
    (st.banIfNotBanned H).nPoSeBanHeight = if st.isBanned then st.nPoSeBanHeight else H := by
  unfold ReplayMNState.banIfNotBanned
  split <;> rfl

theorem isBanned_banIfNotBanned (hH : H ≠ never) (st : ReplayMNState) :
    (st.banIfNotBanned H).isBanned = true := by
  rw [isBanned_iff, nPoSeBanHeight_banIfNotBanned]
  split
  · rename_i h
    exact isBanned_iff.mp h
  · exact hH

theorem bounded_of_zero (hcore : st.core = rs.core) (hban : st.nPoSeBanHeight = rs.nPoSeBanHeight)
    (hst : st.nPoSePenalty = 0 ∧ st.nPoSePenaltyHi = 0) (hrs : rs.nPoSePenalty = 0)
    (hmx : ∀ x, mx = some x → 0 < x) : Bounded H exact outgrown mx st rs := by
  refine ⟨hcore, by omega, by omega, by omega, ?_, Or.inl ⟨hban, ?_⟩, ?_⟩
  · intro _ x hx
    have hpos := hmx x hx
    omega
  · intro _ x hx
    have hpos := hmx x hx
    omega
  · intro _
    refine ⟨by omega, hban, ?_⟩
    intro _ x hx
    have hpos := hmx x hx
    omega

theorem Bounded.congr (h : Bounded H exact outgrown mx st rs) (hcore : st'.core = rs'.core)
    (hst : st'.nPoSePenalty = st.nPoSePenalty ∧ st'.nPoSePenaltyHi = st.nPoSePenaltyHi ∧
      st'.nPoSeBanHeight = st.nPoSeBanHeight)
    (hrs : rs'.nPoSePenalty = rs.nPoSePenalty ∧ rs'.nPoSeBanHeight = rs.nPoSeBanHeight) :
    Bounded H exact outgrown mx st' rs' := by
  obtain ⟨hlo, hhi, hban⟩ := hst
  obtain ⟨hp, hrban⟩ := hrs
  have hbanned : st'.isBanned = st.isBanned := isBanned_congr hban
  refine ⟨hcore, ?_, ?_, ?_, ?_, ?_, ?_⟩
  · rw [hp]
    exact h.nonneg
  · rw [hlo, hp]
    exact h.lower
  · rw [hhi, hp]
    exact h.upper
  · rw [hbanned, hhi]
    exact h.capped
  · rw [hbanned, hhi, hp, hban, hrban]
    exact h.bans
  · rw [hbanned, hlo, hhi, hban, hrban]
    exact h.exact

theorem Bounded.mono (h : Bounded H exact outgrown mx st rs)
    (hmono : outgrown → outgrown') : Bounded H exact outgrown' mx st rs := by
  refine { h with bans := ?_ }
  rcases h.bans with hsynced | ⟨hfree, hban, hpenalty, hreach⟩
  · exact Or.inl hsynced
  · exact Or.inr ⟨hfree, hban, hpenalty, hreach.imp_left hmono⟩

theorem Bounded.of_banned (hcore : st.core = rs.core) (hnonneg : 0 ≤ rs.nPoSePenalty)
    (hbounds : st.nPoSePenalty ≤ rs.nPoSePenalty ∧ rs.nPoSePenalty ≤ st.nPoSePenaltyHi)
    (hbanned : st.isBanned = true) (hsame : st.nPoSeBanHeight = rs.nPoSeBanHeight)
    (hexact : exact → st.nPoSePenalty = st.nPoSePenaltyHi) :
    Bounded H exact outgrown mx st rs := by
  have hvacuous : ∀ {q : Prop}, st.isBanned = false → q := by
    intro q hfree
    rw [hbanned] at hfree
    cases hfree
  exact ⟨hcore, hnonneg, hbounds.1, hbounds.2, fun hfree => hvacuous hfree,
    Or.inl ⟨hsame, fun hfree => hvacuous hfree⟩,
    fun he => ⟨hexact he, hsame, fun hfree => hvacuous hfree⟩⟩

theorem Bounded.ban (h : Bounded H exact outgrown mx st rs) (hH : H ≠ never)
    (hcore : st'.core = rs'.core)
    (hst : st'.nPoSePenalty = st.nPoSePenalty ∧ st'.nPoSePenaltyHi = st.nPoSePenaltyHi ∧
      st'.nPoSeBanHeight = if st.isBanned then st.nPoSeBanHeight else H)
    (hrs : rs'.nPoSePenalty = rs.nPoSePenalty ∧
      rs'.nPoSeBanHeight = if rs.isBanned then rs.nPoSeBanHeight else H) :
    Bounded H exact outgrown mx st' rs' := by
  obtain ⟨hlo, hhi, hban⟩ := hst
  obtain ⟨hp, hrban⟩ := hrs
  have hbanned : st'.isBanned = true := by
    rw [isBanned_iff, hban]
    split
    · rename_i hb
      exact isBanned_iff.mp hb
    · exact hH
  have hsame : st'.nPoSeBanHeight = rs'.nPoSeBanHeight := by
    rw [hban, hrban]
    rcases h.bans with ⟨hsynced, -⟩ | ⟨hfree, hopen, -, -⟩
    · rw [isBanned_congr hsynced, hsynced]
    have hrbanned : rs.isBanned = true := by
      rw [isBanned_iff, hopen]
      exact hH
    rw [hfree, hrbanned, hopen]
    rfl
  refine .of_banned hcore ?_ ?_ hbanned hsame ?_
  · rw [hp]
    exact h.nonneg
  · rw [hlo, hhi, hp]
    exact ⟨h.lower, h.upper⟩
  · intro he
    rw [hlo, hhi]
    exact (h.exact he).1

/-- What a punish at the maximum `m` makes of an entry of the engine. -/
def punishedEntry (H m : Int) (st : ReplayMNState) : ReplayMNState :=
  let st' :=
    { st with
      nPoSePenalty := punished st.nPoSePenalty (calcPenalty m 66) m
      nPoSePenaltyHi := punished st.nPoSePenaltyHi (calcPenalty m 66) m }
  if punishBans st.isBanned st'.nPoSePenalty m then st'.banIfNotBanned H else st'

theorem punishedEntry_of_banned (h : st.isBanned = true) :
    punishedEntry H m st =
      { st with
        nPoSePenalty := punished st.nPoSePenalty (calcPenalty m 66) m
        nPoSePenaltyHi := punished st.nPoSePenaltyHi (calcPenalty m 66) m } := by
  unfold punishedEntry punishBans
  rw [h]
  rfl

theorem punishedEntry_of_free (h : st.isBanned = false) :
    punishedEntry H m st =
      { st with
        nPoSePenalty := punished st.nPoSePenalty (calcPenalty m 66) m
        nPoSePenaltyHi := punished st.nPoSePenaltyHi (calcPenalty m 66) m
        nPoSeBanHeight :=
          if m ≤ punished st.nPoSePenalty (calcPenalty m 66) m then H else st.nPoSeBanHeight } := by
  unfold punishedEntry punishBans
  by_cases hreach : m ≤ punished st.nPoSePenalty (calcPenalty m 66) m
  · rw [if_pos (decide_eq_true ⟨by rw [h]; exact Bool.false_ne_true, hreach⟩), if_pos hreach]
    unfold ReplayMNState.banIfNotBanned
    rw [if_neg]
    rw [show ({ st with
      nPoSePenalty := punished st.nPoSePenalty (calcPenalty m 66) m
      nPoSePenaltyHi := punished st.nPoSePenaltyHi (calcPenalty m 66) m } :
        ReplayMNState).isBanned =
        st.isBanned from rfl, h]
    exact Bool.false_ne_true
  · rw [if_neg (by simp [hreach]), if_neg hreach]

theorem ReferenceList.punished_of_banned (h : rs.isBanned = true) :
    ReferenceList.punished H m rs =
      { rs with nPoSePenalty := min m (rs.nPoSePenalty + 66 * m / 100) } := by
  unfold ReferenceList.punished
  dsimp only
  split
  · unfold ReplayMNState.banIfNotBanned
    rw [if_pos]
    exact h
  · rfl

theorem ReferenceList.punished_of_free (h : rs.isBanned = false) :
    ReferenceList.punished H m rs =
      { rs with
        nPoSePenalty := min m (rs.nPoSePenalty + 66 * m / 100)
        nPoSeBanHeight :=
          if m ≤ min m (rs.nPoSePenalty + 66 * m / 100) then H else rs.nPoSeBanHeight } := by
  unfold ReferenceList.punished
  dsimp only
  split
  · rename_i hreach
    unfold ReplayMNState.banIfNotBanned
    rw [if_neg]
    rw [show ({ rs with
      nPoSePenalty := min m (rs.nPoSePenalty + 66 * m / 100) } : ReplayMNState).isBanned =
        rs.isBanned from rfl, h]
    exact Bool.false_ne_true
  · rfl

section Punish

variable (h : Bounded H exact outgrown mx st rs) (hm : 100 ≤ m)
include h hm

/-- What a punish adds keeps the bounds. -/
theorem Bounded.punish_bounds :
    0 ≤ min m (rs.nPoSePenalty + 66 * m / 100) ∧
      min m (st.nPoSePenalty + 66 * m / 100) ≤ min m (rs.nPoSePenalty + 66 * m / 100) ∧
      min m (rs.nPoSePenalty + 66 * m / 100) ≤ min m (st.nPoSePenaltyHi + 66 * m / 100) := by
  have hlower := h.lower
  have hupper := h.upper
  have hnonneg := h.nonneg
  omega

theorem Bounded.punish_of_banned (hbanned : st.isBanned = true) :
    Bounded H exact outgrown' mx (punishedEntry H m st) (ReferenceList.punished H m rs) := by
  obtain ⟨hnonneg, hbounds⟩ := h.punish_bounds hm
  have hsynced : st.nPoSeBanHeight = rs.nPoSeBanHeight := by
    rcases h.bans with ⟨hsynced, -⟩ | ⟨hfree, -, -, -⟩
    · exact hsynced
    · rw [hbanned] at hfree
      cases hfree
  have hrbanned : rs.isBanned = true := (isBanned_congr hsynced).symm.trans hbanned
  rw [punishedEntry_of_banned hbanned, ReferenceList.punished_of_banned hrbanned, calcPenalty_eq hm]
  refine .of_banned h.core hnonneg hbounds hbanned hsynced ?_
  intro he
  dsimp only
  rw [(h.exact he).1]

/-- The lower bound reaches the maximum, and so does the penalty. -/
theorem Bounded.punish_of_reached (hH : H ≠ never) (hfree : st.isBanned = false)
    (hreach : m ≤ min m (st.nPoSePenalty + 66 * m / 100)) :
    Bounded H exact outgrown' (some m) (punishedEntry H m st) (ReferenceList.punished H m rs) := by
  obtain ⟨hnonneg, hbounds⟩ := h.punish_bounds hm
  have hban : (ReferenceList.punished H m rs).nPoSeBanHeight = H ∧
      (ReferenceList.punished H m rs).nPoSePenalty = min m (rs.nPoSePenalty + 66 * m / 100) ∧
      (ReferenceList.punished H m rs).core = rs.core := by
    rcases h.bans with ⟨hsynced, -⟩ | ⟨-, hopen, -, -⟩
    · have hrfree : rs.isBanned = false := (isBanned_congr hsynced).symm.trans hfree
      rw [ReferenceList.punished_of_free hrfree, if_pos (hreach.trans hbounds.1)]
      exact ⟨rfl, rfl, rfl⟩
    have hrbanned : rs.isBanned = true := by
      rw [isBanned_iff, hopen]
      exact hH
    rw [ReferenceList.punished_of_banned hrbanned]
    exact ⟨hopen, rfl, rfl⟩
  obtain ⟨hrban, hp, hcore⟩ := hban
  rw [punishedEntry_of_free hfree, calcPenalty_eq hm]
  unfold punished
  rw [if_pos hreach]
  refine .of_banned (h.core.trans hcore.symm) ?_ ?_ (isBanned_iff.mpr hH) hrban.symm ?_
  · rw [hp]
    exact hnonneg
  · rw [hp]
    exact hbounds
  · intro he
    dsimp only
    rw [(h.exact he).1]

/-- The ban of the reference is known, and the lower bound stays below the maximum. -/
theorem Bounded.punish_of_synced (hfree : st.isBanned = false)
    (hsynced : st.nPoSeBanHeight = rs.nPoSeBanHeight)
    (hbelow : ¬ m ≤ min m (st.nPoSePenalty + 66 * m / 100)) :
    Bounded H exact outgrown' (some m) (punishedEntry H m st) (ReferenceList.punished H m rs) := by
  obtain ⟨hnonneg, hlower, hupper⟩ := h.punish_bounds hm
  have hrfree : rs.isBanned = false := (isBanned_congr hsynced).symm.trans hfree
  rw [punishedEntry_of_free hfree, calcPenalty_eq hm, ReferenceList.punished_of_free hrfree]
  unfold punished
  rw [if_neg hbelow]
  refine ⟨h.core, hnonneg, hlower, hupper, ?_, ?_, ?_⟩
  · intro _ x hx
    cases hx
    exact min_le_left _ _
  · by_cases hban : m ≤ min m (rs.nPoSePenalty + 66 * m / 100)
    · rw [if_pos hban]
      exact Or.inr ⟨hfree, rfl, by dsimp only; omega, Or.inr ⟨m, rfl, hban.trans hupper⟩⟩
    rw [if_neg hban]
    refine Or.inl ⟨hsynced, ?_⟩
    intro _ x hx
    cases hx
    exact not_le.mp hban
  · intro he
    obtain ⟨hmeet, -, -⟩ := h.exact he
    have hban : ¬ m ≤ min m (rs.nPoSePenalty + 66 * m / 100) := by
      have hpenalty := h.upper
      omega
    rw [if_neg hban]
    refine ⟨by dsimp only; rw [hmeet], hsynced, ?_⟩
    intro _ x hx
    cases hx
    dsimp only
    omega

/-- The reference has banned in this block, and the engine has not seen it. -/
theorem Bounded.punish_of_open (hH : H ≠ never) (hfree : st.isBanned = false)
    (hopen : rs.nPoSeBanHeight = H) (hpenalty : rs.nPoSePenalty = st.nPoSePenaltyHi)
    (hreached : outgrown' ∨ m ≤ st.nPoSePenaltyHi + 66 * m / 100)
    (hbelow : ¬ m ≤ min m (st.nPoSePenalty + 66 * m / 100)) :
    Bounded H exact outgrown' (some m) (punishedEntry H m st) (ReferenceList.punished H m rs) := by
  obtain ⟨hnonneg, hlower, hupper⟩ := h.punish_bounds hm
  have hrbanned : rs.isBanned = true := by
    rw [isBanned_iff, hopen]
    exact hH
  rw [punishedEntry_of_free hfree, calcPenalty_eq hm, ReferenceList.punished_of_banned hrbanned]
  unfold punished
  rw [if_neg hbelow]
  refine ⟨h.core, hnonneg, hlower, hupper, ?_, Or.inr ⟨hfree, hopen, ?_, ?_⟩, ?_⟩
  · intro _ x hx
    cases hx
    exact min_le_left _ _
  · dsimp only
    rw [hpenalty]
  · exact hreached.imp_right fun hle => ⟨m, rfl, le_min (le_refl m) hle⟩
  · intro he
    have hsame := (h.exact he).2.1
    rw [isBanned_eq_false_iff.mp hfree, hopen] at hsame
    exact absurd hsame.symm hH

theorem Bounded.punish (hH : H ≠ never) (hmono : outgrown → outgrown')
    (hgrown : st.isBanned = false → ∀ x, mx = some x → x ≤ st.nPoSePenaltyHi →
      st.nPoSePenaltyHi + calcPenalty m 66 < m → outgrown') :
    Bounded H exact outgrown' (if st.isBanned then mx else some m) (punishedEntry H m st)
      (ReferenceList.punished H m rs) := by
  cases hbanned : st.isBanned with
  | true => exact h.punish_of_banned hm hbanned
  | false =>
    by_cases hreach : m ≤ min m (st.nPoSePenalty + 66 * m / 100)
    · exact h.punish_of_reached hm hH hbanned hreach
    rcases h.bans with ⟨hsynced, -⟩ | ⟨-, hopen, hpenalty, hreached⟩
    · exact h.punish_of_synced hm hbanned hsynced hreach
    refine h.punish_of_open hm hH hbanned hopen hpenalty ?_ hreach
    rcases hreached with hout | ⟨x, hx, hle⟩
    · exact Or.inl (hmono hout)
    rw [calcPenalty_eq hm] at hgrown
    exact or_iff_not_imp_right.mpr fun hlow => hgrown hbanned x hx hle (not_le.mp hlow)

end Punish

/-- The lower bound that a service update leaves of a masternode whose ban may be open. -/
def widenedEntry (mx : Option Int) (st : ReplayMNState) : ReplayMNState :=
  if ¬ st.isBanned ∧ (∃ x ∈ mx, x ≤ st.nPoSePenaltyHi) ∧ 0 < st.nPoSePenalty then
    { st with nPoSePenalty := 0 }
  else st

def serviceEntry (H : Int) (mx : Option Int) (p : ProUpServTx) (st : ReplayMNState) :
    ReplayMNState :=
  let st := widenedEntry mx (updatedService p st)
  if Revivable st then st.revive H else st

theorem isBanned_widenedEntry (mx : Option Int) (st : ReplayMNState) :
    (widenedEntry mx st).isBanned = st.isBanned := by
  unfold widenedEntry
  split <;> rfl

theorem widenedEntry_of_banned (h : st.isBanned = true) : widenedEntry mx st = st := by
  unfold widenedEntry
  rw [if_neg (fun hw => hw.1 h)]

theorem core_updatedService (p : ProUpServTx) (h : st.core = rs.core) :
    (updatedService p st).core = (updatedService p rs).core := by
  have hfactor : ∀ e : ReplayMNState, (updatedService p e).core =
      { e.core with
        netInfo := p.netInfo.canonical
        scriptOperatorPayout := p.scriptOperatorPayout
        platformNodeID := if p.nType = mnEvo then p.platformNodeID else e.core.platformNodeID
        platformP2PPort := if p.nType = mnEvo then p.platformP2PPort else e.core.platformP2PPort
        platformHTTPPort :=
          if p.nType = mnEvo then p.platformHTTPPort else e.core.platformHTTPPort } :=
    fun _ => rfl
  rw [hfactor, hfactor, h]

theorem field_of_core {α : Type} {f : ReplayMNState → α} (hf : ∀ e : ReplayMNState, f e.core = f e)
    (h : st.core = rs.core) : f st = f rs := by
  rw [← hf st, h, hf rs]

theorem revivable_congr (hcore : st.core = rs.core) (hban : st.nPoSeBanHeight = rs.nPoSeBanHeight) :
    Revivable st ↔ Revivable rs := by
  have hoperator : st.pubKeyOperator = rs.pubKeyOperator := field_of_core (fun _ => rfl) hcore
  have hvoting : st.keyIDVoting = rs.keyIDVoting := field_of_core (fun _ => rfl) hcore
  have howner : st.keyIDOwner = rs.keyIDOwner := field_of_core (fun _ => rfl) hcore
  unfold Revivable
  rw [isBanned_congr hban, hoperator, hvoting, howner]

theorem Bounded.widen (h : Bounded H exact outgrown mx st rs) (hfree : st.isBanned = false)
    (hreach : ∃ x ∈ mx, x ≤ st.nPoSePenaltyHi) :
    Bounded H exact outgrown mx { st with nPoSePenalty := 0 } rs := by
  refine ⟨h.core, h.nonneg, h.nonneg, h.upper, h.capped, h.bans, ?_⟩
  intro he
  obtain ⟨x, hx, hle⟩ := hreach
  have hlt := (h.exact he).2.2 hfree x hx
  omega

theorem Bounded.updateService (h : Bounded H exact outgrown mx st rs) (hH : H ≠ never)
    (hout : ¬ outgrown) (hmx : ∀ x, mx = some x → 0 < x) (p : ProUpServTx) :
    Bounded H exact outgrown mx (serviceEntry H mx p st)
      (ReferenceList.updateService H p rs) := by
  have hcore := core_updatedService p h.core
  have hservice : Bounded H exact outgrown mx (updatedService p st) (updatedService p rs) :=
    h.congr hcore ⟨rfl, rfl, rfl⟩ ⟨rfl, rfl⟩
  unfold serviceEntry ReferenceList.updateService
  generalize updatedService p st = st₁ at *
  generalize updatedService p rs = rs₁ at *
  rcases hservice.bans with ⟨hsynced, hbelow⟩ | ⟨hfree, hopen, hpenalty, hreach⟩
  · by_cases hbanned : st₁.isBanned = true
    · rw [widenedEntry_of_banned hbanned]
      by_cases hrevivable : Revivable rs₁
      · rw [if_pos ((revivable_congr hcore hsynced).mpr hrevivable), if_pos hrevivable]
        exact bounded_of_zero hcore rfl ⟨rfl, rfl⟩ rfl hmx
      rw [if_neg (fun hr => hrevivable ((revivable_congr hcore hsynced).mp hr)), if_neg hrevivable]
      exact hservice
    have hnot : ¬ Revivable (widenedEntry mx st₁) := by
      rintro ⟨hwbanned, -⟩
      rw [isBanned_widenedEntry] at hwbanned
      exact hbanned hwbanned
    have hnot' : ¬ Revivable rs₁ := by
      rintro ⟨hrbanned, -⟩
      rw [← isBanned_congr hsynced] at hrbanned
      exact hbanned hrbanned
    rw [if_neg hnot, if_neg hnot']
    unfold widenedEntry
    split
    · rename_i hwiden
      exact hservice.widen (Bool.eq_false_iff.mpr hbanned) hwiden.2.1
    · exact hservice
  obtain ⟨x, hx, hle⟩ := hreach.resolve_left hout
  have hnot : ¬ Revivable (widenedEntry mx st₁) := by
    rintro ⟨hbanned, -⟩
    rw [isBanned_widenedEntry, hfree] at hbanned
    cases hbanned
  have hinexact : ¬ exact := by
    intro he
    have hsame := (hservice.exact he).2.1
    rw [isBanned_eq_false_iff.mp hfree, hopen] at hsame
    exact hH hsame.symm
  -- the engine drops its lower bound, and the reference may have revived
  have hwidened : ∃ lo, lo ≤ 0 ∧ widenedEntry mx st₁ = { st₁ with nPoSePenalty := lo } := by
    unfold widenedEntry
    split
    · exact ⟨0, le_refl 0, rfl⟩
    rename_i hkept
    refine ⟨st₁.nPoSePenalty, ?_, rfl⟩
    by_contra hlo
    refine hkept ⟨?_, ⟨x, hx, hle⟩, not_le.mp hlo⟩
    rw [hfree]
    exact Bool.false_ne_true
  obtain ⟨lo, hlo, hst⟩ := hwidened
  rw [if_neg hnot, hst]
  have hnonneg := hservice.nonneg
  split
  · refine ⟨hcore, le_refl 0, hlo, ?_, hservice.capped, Or.inl ⟨?_, ?_⟩,
      fun he => absurd he hinexact⟩
    · change (0 : Int) ≤ st₁.nPoSePenaltyHi
      omega
    · exact isBanned_eq_false_iff.mp hfree
    · intro _ y hy
      exact hmx y hy
  · exact ⟨hcore, hnonneg, le_trans hlo hnonneg, hservice.upper, hservice.capped,
      Or.inr ⟨hfree, hopen, hpenalty, hreach⟩, fun he => absurd he hinexact⟩

end Entries

end C2Pool.Dash
