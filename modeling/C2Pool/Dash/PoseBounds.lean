import C2Pool.Dash.PoseFold
import C2Pool.Dash.FoldSimulation

/-! # Penalty bounds over a run

Before and after a block the bounds of every masternode hold, and its ban is the
ban of the reference: a ban that the bounds leave open is read off the committed
root, or the block is not accepted.
-/

namespace C2Pool.Dash

open List DmlFoldEngine SortedMap

structure Shadows (exact : Uint256 → Prop) (eng : DmlFoldEngine) (ref : ReferenceList) : Prop where
  entries : ∀ k, Option.Rel (Agreed (exact k)) (eng.entries.lookup k) (ref.entries.lookup k)
  collateralIndex : eng.collateralIndex = ref.collateralIndex

section Start

variable {P : Type} {code : FoldCode P} {H : Int} {exact : Prop} {st rs : ReplayMNState}

def startedEntry (code : FoldCode P) (gates : FoldGates) (H : Int) (prevHash k : Uint256)
    (st : ReplayMNState) : ReplayMNState :=
  if ConfirmationDue gates H st then st.updateConfirmedHash code k prevHash else st

theorem core_startedEntry {gates : FoldGates} {prevHash k : Uint256} (hcore : st.core = rs.core) :
    (startedEntry code gates H prevHash k st).core =
      (startedEntry code gates H prevHash k rs).core := by
  have hfactor : ∀ e : ReplayMNState, (startedEntry code gates H prevHash k e).core =
      if ConfirmationDue gates H e.core then e.core.updateConfirmedHash code k prevHash
      else e.core := by
    intro e
    unfold startedEntry
    by_cases hdue : ConfirmationDue gates H e
    · rw [if_pos hdue, if_pos (show ConfirmationDue gates H e.core from hdue)]
      rfl
    · rw [if_neg hdue, if_neg (show ¬ ConfirmationDue gates H e.core from hdue)]
  rw [hfactor, hfactor, hcore]

theorem startedEntry_frame (gates : FoldGates) (prevHash k : Uint256) (st : ReplayMNState) :
    (startedEntry code gates H prevHash k st).nPoSePenalty = st.nPoSePenalty ∧
      (startedEntry code gates H prevHash k st).nPoSePenaltyHi = st.nPoSePenaltyHi ∧
      (startedEntry code gates H prevHash k st).nPoSeBanHeight = st.nPoSeBanHeight := by
  unfold startedEntry
  split <;> exact ⟨rfl, rfl, rfl⟩

theorem Agreed.decay (h : Agreed exact st rs) {outgrown : Prop} :
    Bounded H exact outgrown none
      (if st.isBanned then st
        else { st with
          nPoSePenalty := decayed st.nPoSePenalty
          nPoSePenaltyHi := decayed st.nPoSePenaltyHi })
      (if rs.isBanned then rs else { rs with nPoSePenalty := max 0 (rs.nPoSePenalty - 1) }) := by
  have hlower := h.lower
  have hupper := h.upper
  have hnonneg := h.nonneg
  rw [isBanned_congr h.bans]
  split
  · exact ⟨h.core, hnonneg, hlower, hupper, fun _ _ => nofun, Or.inl ⟨h.bans, fun _ _ => nofun⟩,
      fun he => ⟨h.exact he, h.bans, fun _ _ => nofun⟩⟩
  unfold decayed
  refine ⟨h.core, ?_, ?_, ?_, fun _ _ => nofun, Or.inl ⟨h.bans, fun _ _ => nofun⟩,
    fun he => ⟨?_, h.bans, fun _ _ => nofun⟩⟩
  · exact le_max_left _ _
  · dsimp only
    split <;> omega
  · dsimp only
    split <;> omega
  · dsimp only
    rw [h.exact he]

theorem Agreed.started (h : Agreed exact st rs) (gates : FoldGates) (prevHash k : Uint256) :
    Agreed exact (startedEntry code gates H prevHash k st)
      (startedEntry code gates H prevHash k rs) := by
  obtain ⟨hlo, hhi, hban⟩ := @startedEntry_frame P code H gates prevHash k st
  obtain ⟨hp, -, hrban⟩ := @startedEntry_frame P code H gates prevHash k rs
  refine ⟨core_startedEntry h.core, ?_, ?_, ?_, ?_, ?_⟩
  · rw [hp]
    exact h.nonneg
  · rw [hlo, hp]
    exact h.lower
  · rw [hhi, hp]
    exact h.upper
  · rw [hban, hrban]
    exact h.bans
  · rw [hlo, hhi]
    exact h.exact

end Start

variable {mx : Option Int} {e e' : ReplayEntries} {k : Uint256}

section Block

variable {P : Type} {code : FoldCode P} {exact : Uint256 → Prop} {eng : DmlFoldEngine}
  {ref : ReferenceList} {block : Block P} {height : U32} {H : Int}
  {membersFn : Option (Fin (2 ^ 8) → Uint256 → Option (List Uint256))} {outgrown : List Uint256}
  {t : Folding} {root : Uint256} {st rs : ReplayMNState}

theorem Shadows.startTxs (h : Shadows exact eng ref) (root : Uint256) :
    Tracks (toInt32 height) exact eng.membersFn [] (startTxs code eng block height root)
      (ref.beginBlock code (toInt32 height) eng.cfg.gates block.previousBlock) := by
  refine ⟨?_, h.collateralIndex, ?_, rfl⟩
  · intro k
    have hentries : (Dash.startTxs code eng block height root).1.entries =
        (eng.entries.mapValues fun k st =>
          startedEntry code eng.cfg.gates (toInt32 height) block.previousBlock k st).mapValues
          fun _ st =>
            if st.isBanned then st
            else { st with
              nPoSePenalty := decayed st.nPoSePenalty
              nPoSePenaltyHi := decayed st.nPoSePenaltyHi } := rfl
    have hpunished : (Dash.startTxs code eng block height root).1.blockPunished.lookup k = none :=
      lookup_empty k
    unfold ReferenceList.beginBlock
    rw [hentries, hpunished, lookup_mapValues, lookup_mapValues, lookup_mapValues, lookup_mapValues]
    have hrel := h.entries k
    generalize eng.entries.lookup k = held at hrel
    generalize ref.entries.lookup k = kept at hrel
    cases hrel with
    | none => exact Option.Rel.none
    | some hagreed =>
      exact Option.Rel.some (hagreed.started eng.cfg.gates block.previousBlock k).decay
  intro k x hx
  have hpunished : (Dash.startTxs code eng block height root).1.blockPunished.lookup k = none :=
    lookup_empty k
  rw [hpunished] at hx
  cases hx

theorem Tracks.foldSpends (h : Tracks H exact membersFn outgrown t ref) (txs : List (Tx P)) :
    Tracks H exact membersFn outgrown (foldSpends t txs)
      ((txs.flatMap fun tx => tx.vin.map TxIn.prevout).foldl ReferenceList.spend ref) := by
  unfold DmlFoldEngine.foldSpends
  generalize (txs.flatMap fun tx => tx.vin.map TxIn.prevout) = spent
  induction spent generalizing t ref with
  | nil => exact h
  | cons c spent ih =>
    rw [foldl_cons, foldl_cons]
    refine ih ?_
    obtain ⟨hholder, hfree⟩ := h.spend c
    unfold DmlFoldEngine.foldSpend
    split
    · rename_i hnone
      rw [hfree hnone]
      exact h
    · rename_i owner howner
      exact hholder owner howner _

theorem rel_of_rel {α β : Type} {R T : α → β → Prop} {S : α → α → Prop} {a a' : Option α}
    {b : Option β} (h : Option.Rel R a b) (h' : Option.Rel S a a')
    (himp : ∀ x y x', R x y → S x x' → T x' y) : Option.Rel T a' b := by
  cases h with
  | none =>
    cases h'
    exact Option.Rel.none
  | some hxy =>
    cases h' with
    | some hxx => exact Option.Rel.some (himp _ _ _ hxy hxx)

/-- The fields of an entry that paying it leaves alone. -/
def SameScore (st st' : ReplayMNState) : Prop :=
  st'.core = st.core ∧ st'.nPoSePenalty = st.nPoSePenalty ∧
    st'.nPoSePenaltyHi = st.nPoSePenaltyHi ∧ st'.nPoSeBanHeight = st.nPoSeBanHeight

theorem lookup_payeeBookkeeping (payee : Option Uint256) (t : Folding) (k : Uint256) :
    Option.Rel SameScore (t.1.entries.lookup k)
      ((payeeBookkeeping H payee t).1.entries.lookup k) := by
  have hmarked : Option.Rel SameScore (t.1.entries.lookup k)
      ((markPayee H payee t).1.entries.lookup k) := by
    have hsame : Option.Rel SameScore (t.1.entries.lookup k) (t.1.entries.lookup k) := by
      cases t.1.entries.lookup k with
      | none => exact Option.Rel.none
      | some st => exact Option.Rel.some ⟨rfl, rfl, rfl, rfl⟩
    unfold markPayee
    split
    · exact hsame
    rename_i protx
    split
    · exact hsame
    rename_i st hst
    rw [lookup_insert]
    by_cases heq : k = protx
    · subst heq
      rw [if_pos rfl, hst]
      exact Option.Rel.some ⟨rfl, rfl, rfl, rfl⟩
    · rw [if_neg heq]
      exact hsame
  unfold DmlFoldEngine.payeeBookkeeping
  rw [lookup_mapValues]
  generalize t.1.entries.lookup k = held at hmarked ⊢
  generalize (markPayee H payee t).1.entries.lookup k = marked at hmarked ⊢
  cases hmarked with
  | none => exact Option.Rel.none
  | some h =>
    refine Option.Rel.some ?_
    dsimp only
    split
    · exact h
    · split <;> exact h

theorem Tracks.payeeBookkeeping (h : Tracks H exact membersFn outgrown t ref)
    (payee : Option Uint256) :
    Tracks H exact membersFn outgrown (payeeBookkeeping H payee t) ref := by
  have hframe :
      (DmlFoldEngine.payeeBookkeeping H payee t).1.collateralIndex = t.1.collateralIndex ∧
        (DmlFoldEngine.payeeBookkeeping H payee t).1.blockPunished = t.1.blockPunished ∧
        (DmlFoldEngine.payeeBookkeeping H payee t).1.membersFn = t.1.membersFn := by
    unfold DmlFoldEngine.payeeBookkeeping markPayee
    dsimp only
    split
    · exact ⟨rfl, rfl, rfl⟩
    · split <;> exact ⟨rfl, rfl, rfl⟩
  obtain ⟨hindex, hpunished, hmembers⟩ := hframe
  refine ⟨?_, hindex.trans h.collateralIndex, ?_, hmembers.trans h.membersFn⟩
  · intro k
    rw [hpunished]
    refine rel_of_rel (h.entries k) (lookup_payeeBookkeeping payee t k) ?_
    rintro st rs st' hb ⟨hcore, hpenalties⟩
    exact hb.congr (hcore.trans hb.core) hpenalties ⟨rfl, rfl⟩
  · rw [hpunished]
    exact h.maxima

theorem Shadows.foldPasses (h : Shadows exact eng ref) (hH : toInt32 height ≠ never)
    (htame : Tame code (toInt32 height) (Dash.startTxs code eng block height root) []
      block.txs.tail) (hstep : foldPasses code block height (eng.projectPayee (toInt32 height))
      (eng, startResult eng height root) = .ok t) :
    ∃ outgrown, Tracks (toInt32 height) exact eng.membersFn outgrown t
      (ref.applyBlock code (toInt32 height) eng.cfg.gates eng.membersFn block) := by
  unfold DmlFoldEngine.foldPasses at hstep
  dsimp only at hstep
  split at hstep
  · cases hstep
  rename_i t₁ htxs
  cases hstep
  rw [← map_fst_drop_zipIdx] at htame
  obtain ⟨outgrown, htracks⟩ := (h.startTxs root).foldTxs _ hH htame htxs
  rw [map_fst_drop_zipIdx] at htracks
  exact ⟨outgrown, (htracks.foldSpends block.txs.tail).payeeBookkeeping _⟩

/-! ## The root -/

def adoptedEntry (H : Int) (mask : Nat) (a : (Uint256 × Int) × Nat) (st : ReplayMNState) :
    ReplayMNState :=
  if mask.testBit a.2 then
    { st.banIfNotBanned H with nPoSePenalty := a.1.2, nPoSePenaltyHi := a.1.2 }
  else { st with nPoSePenaltyHi := min st.nPoSePenaltyHi (a.1.2 - 1) }

theorem lookup_adoptBan (mask : Nat) (s : Folding) (a : (Uint256 × Int) × Nat) (k : Uint256) :
    (adoptBan H mask s a).1.entries.lookup k =
      if k = a.1.1 then (s.1.entries.lookup k).map (adoptedEntry H mask a)
      else s.1.entries.lookup k := by
  unfold adoptBan adoptedEntry touchEntry
  split
  · rename_i hnone
    split
    · rename_i heq
      rw [heq, hnone]
      rfl
    · rfl
  rename_i st hst
  split
  · rw [lookup_insert]
    split
    · rename_i heq
      rw [heq, hst]
      rfl
    · rfl
  rw [lookup_insert]
  split
  · rename_i heq
    rw [heq, hst]
    rfl
  · rfl

theorem frame_adoptBan (mask : Nat) (s : Folding) (a : (Uint256 × Int) × Nat) :
    (adoptBan H mask s a).1.collateralIndex = s.1.collateralIndex := by
  unfold adoptBan touchEntry
  split
  · rfl
  · split <;> rfl

theorem lookup_adoptBans (mask : Nat) (bans : List ((Uint256 × Int) × Nat)) (s : Folding)
    (hnodup : (bans.map fun a => a.1.1).Nodup) (k : Uint256) :
    (bans.foldl (adoptBan H mask) s).1.entries.lookup k = s.1.entries.lookup k ∨
      ∃ a ∈ bans, a.1.1 = k ∧ (bans.foldl (adoptBan H mask) s).1.entries.lookup k =
        (s.1.entries.lookup k).map (adoptedEntry H mask a) := by
  induction bans generalizing s with
  | nil => exact Or.inl rfl
  | cons a bans ih =>
    rw [map_cons, nodup_cons] at hnodup
    rw [foldl_cons]
    have hone := @lookup_adoptBan H mask s a k
    by_cases heq : k = a.1.1
    · rw [if_pos heq] at hone
      right
      refine ⟨a, mem_cons_self, heq.symm, ?_⟩
      rcases ih (adoptBan H mask s a) hnodup.2 with hsame | ⟨a', ha', hkey, -⟩
      · rw [hsame, hone]
      refine absurd ?_ hnodup.1
      rw [← heq, ← hkey]
      exact mem_map_of_mem ha'
    rw [if_neg heq] at hone
    rcases ih (adoptBan H mask s a) hnodup.2 with hsame | ⟨a', ha', hkey, hadopted⟩
    · exact Or.inl (hsame.trans hone)
    · rw [hone] at hadopted
      exact Or.inr ⟨a', mem_cons_of_mem a ha', hkey, hadopted⟩

theorem mem_ambiguous {e : Uint256 × Int} (h : e ∈ eng.ambiguous) :
    eng.blockPunished.lookup e.1 = some e.2 ∧
      ∃ st, eng.entries.lookup e.1 = some st ∧ st.isBanned = false ∧ e.2 ≤ st.nPoSePenaltyHi := by
  obtain ⟨hmem, hopen⟩ := mem_filter.mp h
  refine ⟨mem_entries_iff.mp hmem, ?_⟩
  rw [Bool.and_eq_true] at hopen
  obtain ⟨-, hopen⟩ := hopen
  cases hst : eng.entries.lookup e.1 with
  | none =>
    rw [hst] at hopen
    cases hopen
  | some st =>
    rw [hst] at hopen
    obtain ⟨hfree, hle⟩ := of_decide_eq_true hopen
    exact ⟨st, rfl, Bool.eq_false_iff.mpr hfree, hle⟩

theorem nodup_ambiguous (eng : DmlFoldEngine) :
    (eng.ambiguous.zipIdx.map fun a => a.1.1).Nodup := by
  have hkeys : (eng.ambiguous.zipIdx.map fun a => a.1.1) = eng.ambiguous.map Prod.fst := by
    rw [← zipIdx_map_fst 0 eng.ambiguous, map_map, zipIdx_map_fst]
    rfl
  rw [hkeys]
  have hsorted : (eng.ambiguous.map Prod.fst).Pairwise (· < ·) :=
    pairwise_map.mpr (eng.blockPunished.sorted.filter _)
  exact hsorted.imp fun hlt => ne_of_lt hlt

theorem checkRoot_cases (t : Folding) :
    ((checkRoot code H t).1.entries = t.1.entries ∧
        (checkRoot code H t).1.collateralIndex = t.1.collateralIndex) ∨
      ∃ mask s, (checkRoot code H t).1.entries =
          (t.1.ambiguous.zipIdx.foldl (adoptBan H mask) s).1.entries ∧
        (checkRoot code H t).1.collateralIndex =
          (t.1.ambiguous.zipIdx.foldl (adoptBan H mask) s).1.collateralIndex ∧
        s.1.entries = t.1.entries ∧ s.1.collateralIndex = t.1.collateralIndex := by
  unfold checkRoot resolveAmbiguousBansFromRoot
  dsimp only
  split
  · split
    · rename_i out hout
      split at hout
      · cases hout
      split at hout
      · rename_i mask _
        split at hout
        · cases hout
        · cases hout
          exact Or.inr ⟨mask, _, rfl, rfl, rfl, rfl⟩
      · cases hout
    rename_i out hout
    split at hout
    · cases hout
      exact Or.inl ⟨rfl, rfl⟩
    split at hout
    · rename_i mask _
      split at hout
      · cases hout
        exact Or.inr ⟨mask, _, rfl, rfl, rfl, rfl⟩
      · cases hout
    · cases hout
      exact Or.inl ⟨rfl, rfl⟩
  · exact Or.inl ⟨rfl, rfl⟩

theorem lookup_checkRoot (t : Folding) (k : Uint256) :
    (checkRoot code H t).1.entries.lookup k = t.1.entries.lookup k ∨
      ∃ mask st a, t.1.entries.lookup k = some st ∧ st.isBanned = false ∧
        t.1.blockPunished.lookup k = some a.1.2 ∧ a.1.2 ≤ st.nPoSePenaltyHi ∧
        (checkRoot code H t).1.entries.lookup k = some (adoptedEntry H mask a st) := by
  rcases @checkRoot_cases _ code H t with ⟨hsame, -⟩ | ⟨mask, s, hadopted, -, hentries, -⟩
  · exact Or.inl (by rw [hsame])
  rw [hadopted, ← hentries]
  rcases @lookup_adoptBans H mask t.1.ambiguous.zipIdx s (nodup_ambiguous t.1) k with
    hsame | ⟨a, ha, hkey, hadopted⟩
  · exact Or.inl hsame
  subst hkey
  obtain ⟨hpunished, st, hst, hfree, hle⟩ := mem_ambiguous (fst_mem_of_mem_zipIdx ha)
  rw [hentries, hst] at hadopted
  exact Or.inr ⟨mask, st, a, hentries ▸ hst, hfree, hpunished, hle, hadopted⟩

theorem collateralIndex_checkRoot (t : Folding) :
    (checkRoot code H t).1.collateralIndex = t.1.collateralIndex := by
  rcases @checkRoot_cases _ code H t with ⟨-, hsame⟩ | ⟨mask, s, -, hadopted, -, hindex⟩
  · exact hsame
  rw [hadopted, ← hindex]
  clear hadopted hindex
  generalize t.1.ambiguous.zipIdx = bans
  induction bans generalizing s with
  | nil => rfl
  | cons a bans ih =>
    rw [foldl_cons, ih, frame_adoptBan]

/-- An entry whose ban turns out to be the ban of the reference. -/
theorem Bounded.agreed {exact outgrown : Prop} (h : Bounded H exact outgrown mx st rs)
    (hH : H ≠ never) (hsame : st.isBanned = rs.isBanned) : Agreed exact st rs := by
  have hbans : st.nPoSeBanHeight = rs.nPoSeBanHeight := by
    rcases h.bans with ⟨hsynced, -⟩ | ⟨hfree, hopen, -, -⟩
    · exact hsynced
    rw [hfree] at hsame
    have hnever := isBanned_eq_false_iff.mp hsame.symm
    exact absurd (hopen.symm.trans hnever) hH
  exact { h with bans := hbans, exact := fun he => (h.exact he).1 }

theorem core_adoptedEntry (mask : Nat) (a : (Uint256 × Int) × Nat) (st : ReplayMNState) :
    (adoptedEntry H mask a st).core = st.core := by
  unfold adoptedEntry
  split
  · exact core_banIfNotBanned st
  · rfl

theorem Bounded.adopted {exact outgrown : Prop}
    (h : Bounded H exact outgrown mx st rs) (hH : H ≠ never) (hfree : st.isBanned = false)
    {a : (Uint256 × Int) × Nat} (hmx : mx = some a.1.2) (hopen : a.1.2 ≤ st.nPoSePenaltyHi)
    {mask : Nat} (hsame : (adoptedEntry H mask a st).isBanned = rs.isBanned) :
    Agreed exact (adoptedEntry H mask a st) rs := by
  have hlower := h.lower
  have hcapped := h.capped hfree _ hmx
  have hinexact : ¬ exact := by
    intro he
    have hlt := (h.exact he).2.2 hfree _ hmx
    omega
  have hcore := (core_adoptedEntry (H := H) mask a st).trans h.core
  revert hsame hcore
  unfold adoptedEntry
  split
  · intro hsame hcore
    have hbanned : ({ st.banIfNotBanned H with
        nPoSePenalty := a.1.2, nPoSePenaltyHi := a.1.2 } : ReplayMNState).isBanned = true :=
      isBanned_banIfNotBanned hH st
    have hban : (st.banIfNotBanned H).nPoSeBanHeight = H := by
      rw [nPoSeBanHeight_banIfNotBanned, hfree]
      rfl
    rw [hbanned] at hsame
    rcases h.bans with ⟨hsynced, -⟩ | ⟨-, hheight, hpenalty, -⟩
    · rw [← isBanned_congr hsynced, hfree] at hsame
      cases hsame
    refine ⟨hcore, h.nonneg, ?_, ?_, hban.trans hheight.symm, fun he => absurd he hinexact⟩
    · change a.1.2 ≤ rs.nPoSePenalty
      omega
    · change rs.nPoSePenalty ≤ a.1.2
      omega
  intro hsame hcore
  have hrfree : rs.isBanned = false := hsame.symm.trans hfree
  rcases h.bans with ⟨hsynced, hbelow⟩ | ⟨-, hheight, -, -⟩
  · have hlt := hbelow hfree _ hmx
    refine ⟨hcore, h.nonneg, hlower, ?_, hsynced, fun he => absurd he hinexact⟩
    change rs.nPoSePenalty ≤ min st.nPoSePenaltyHi (a.1.2 - 1)
    omega
  · have hnever := isBanned_eq_false_iff.mp hrfree
    exact absurd (hheight.symm.trans hnever) hH

/-- Two lists of the same masternodes and the same leaves have the same bans. -/
theorem isBanned_of_smlOf_eq (hkeys : ∀ k, (e.lookup k).isSome = (e'.lookup k).isSome)
    (h : smlOf code e = smlOf code e')
    (hst : e.lookup k = some st) (hrs : e'.lookup k = some rs) : st.isBanned = rs.isBanned := by
  rw [smlOf_eq, smlOf_eq] at h
  have hkeys' : smlKeys e = smlKeys e' := by
    unfold smlKeys
    rw [keys_eq_of_isSome hkeys]
  rw [hkeys'] at h
  have hmem : k ∈ smlKeys e' := by
    unfold smlKeys SortedMap.keys
    rw [mem_insertionSort]
    exact mem_map.mpr ⟨(k, rs), mem_entries_iff.mpr hrs, rfl⟩
  have hleaf := map_inj_left.mp h k hmem
  unfold smlEntryAt at hleaf
  rw [hst, hrs] at hleaf
  have hvalid := congrArg SmlEntry.isValid hleaf
  unfold ReplayMNState.toSmlEntry at hvalid
  cases hb : st.isBanned <;> cases hb' : rs.isBanned <;> simp_all

/-- What is asked of a block that the engine accepts: it commits to the list of the reference,
the root of the list that the engine then holds does not collide with it, and no service update
is of a masternode whose open ban has been outgrown. -/
structure PoseBlock (code : FoldCode P) (eng : DmlFoldEngine) (ref : ReferenceList)
    (block : Block P) (height : U32) : Prop where
  gates : 0 ≤ eng.cfg.gates.dip0003Height
  committed : ∀ coinbase txs root, block.txs = coinbase :: txs →
    code.parseCbtx coinbase.extraPayload = some root →
    root = calcMerkleRoot code.sml (smlOf code (ref.applyBlock code (toInt32 height)
      eng.cfg.gates eng.membersFn block).entries)
  collisionFree :
    calcMerkleRoot code.sml (smlOf code (eng.foldBlock code block height).1.entries) =
      calcMerkleRoot code.sml (smlOf code (ref.applyBlock code (toInt32 height)
        eng.cfg.gates eng.membersFn block).entries) →
    smlOf code (eng.foldBlock code block height).1.entries =
      smlOf code (ref.applyBlock code (toInt32 height) eng.cfg.gates eng.membersFn block).entries
  tame : ∀ root, checkBeforeFold code eng block height = .ok root →
    Tame code (toInt32 height) (Dash.startTxs code eng block height root) [] block.txs.tail

theorem dip0003Height_le (h : checkBeforeFold code eng block height = .ok root) :
    eng.cfg.gates.dip0003Height ≤ toInt32 height := by
  unfold checkBeforeFold at h
  iterate 3 (split at h; cases h)
  split at h
  · cases h
  · rename_i hheight
    exact not_lt.mp hheight

theorem Shadows.foldBlock (h : Shadows exact eng ref)
    (hcache : CacheOf code eng.smlCache eng.entries)
    (hok : (eng.foldBlock code block height).2.ok = true)
    (hb : PoseBlock code eng ref block height) :
    Shadows exact (eng.foldBlock code block height).1
      (ref.applyBlock code (toInt32 height) eng.cfg.gates eng.membersFn block) := by
  obtain ⟨root, t, hcheck, hpasses, hfold⟩ := foldBlock_accepted hok
  have hH : toInt32 height ≠ never := by
    have hgates := hb.gates
    have hheight := dip0003Height_le hcheck
    unfold never
    omega
  obtain ⟨outgrown, htracks⟩ := h.foldPasses hH (hb.tame root hcheck) hpasses
  -- the list that is held after the block has the committed root
  have hfresh : Fresh code eng := Or.inr hcache
  obtain ⟨hroot, hcommitted, coinbase, txs, htxs, hcbtx⟩ := (hfresh.foldBlock block height).2 hok
  have hsml := hb.collisionFree
    (hroot.symm.trans (hcommitted.trans (hb.committed coinbase txs _ htxs hcbtx)))
  have hunmarked : (checkRoot code (toInt32 height) t).2.ok = false :=
    (ok_checkRoot t).trans (ok_of_foldPasses hpasses)
  have hpaid := hfold ▸ hok
  obtain ⟨hengine, -, -⟩ := checkPayee_accepted hunmarked hpaid
  have hentries : (eng.foldBlock code block height).1.entries =
      (checkRoot code (toInt32 height) t).1.entries := by
    rw [hfold, hengine]
  have hindex : (eng.foldBlock code block height).1.collateralIndex = t.1.collateralIndex := by
    rw [hfold, hengine]
    exact collateralIndex_checkRoot t
  rw [hentries] at hsml
  generalize ref.applyBlock code (toInt32 height) eng.cfg.gates eng.membersFn block = ref' at *
  have hkeys : ∀ k, ((checkRoot code (toInt32 height) t).1.entries.lookup k).isSome =
      (ref'.entries.lookup k).isSome := by
    intro k
    rcases @lookup_checkRoot P code (toInt32 height) t k with
      hsame | ⟨mask, st, a, hst, -, -, -, hadopted⟩
    · rw [hsame]
      rcases htracks.cases k with ⟨hst, hrs⟩ | ⟨st, rs, hst, hrs, -⟩
      · rw [hst, hrs]
      · rw [hst, hrs]
        rfl
    obtain ⟨rs, hrs, -⟩ := htracks.exists_bounded hst
    rw [hadopted, hrs]
    rfl
  refine ⟨?_, hindex.trans htracks.collateralIndex⟩
  intro k
  rw [hentries]
  rcases @lookup_checkRoot P code (toInt32 height) t k with
    hsame | ⟨mask, st, a, hst, hfree, hpunished, hopen, hadopted⟩
  · rcases htracks.cases k with ⟨hst, hrs⟩ | ⟨st, rs, hst, hrs, hbounded⟩
    · rw [hsame, hst, hrs]
      exact Option.Rel.none
    have hban := isBanned_of_smlOf_eq hkeys hsml (hsame.trans hst) hrs
    rw [hsame, hst, hrs]
    exact Option.Rel.some (hbounded.agreed hH hban)
  obtain ⟨rs, hrs, hbounded⟩ := htracks.exists_bounded hst
  have hban := isBanned_of_smlOf_eq hkeys hsml hadopted hrs
  rw [hadopted, hrs]
  exact Option.Rel.some (hbounded.adopted hH hfree hpunished hopen hban)

theorem foldPasses_of_foldTxs {payee : Option Uint256} {s : Folding}
    (h : DmlFoldEngine.foldTxs code (toInt32 height) height
      (decreaseScores (confirmPass code (toInt32 height) block.previousBlock (beginBlock s)))
      (block.txs.zipIdx.drop 1) = .ok t) :
    DmlFoldEngine.foldPasses code block height payee s =
      .ok (payeeBookkeeping (toInt32 height) payee (foldSpends t block.txs.tail)) := by
  unfold DmlFoldEngine.foldPasses
  dsimp only
  rw [h]

theorem foldBlock_of_foldPasses (hcheck : checkBeforeFold code eng block height = .ok root)
    (hpayee : ∀ protx, eng.projectPayee (toInt32 height) = some protx →
      eng.entries.lookup protx ≠ none)
    (hscript : payeeScript eng height = []) (hcache : CacheOf code eng.smlCache eng.entries)
    (hpasses : DmlFoldEngine.foldPasses code block height (eng.projectPayee (toInt32 height))
      (eng, startResult eng height root) = .ok t)
    (hroot : calcMerkleRoot code.sml (smlOf code t.1.entries) = root) :
    (eng.foldBlock code block height).2.ok = true ∧
      (eng.foldBlock code block height).2.committedRoot = root ∧
      (eng.foldBlock code block height).1.entries = t.1.entries := by
  have hmarked := Marked.foldPasses hpasses
  have hcommitted : t.2.committedRoot = root := hmarked.committed
  have hown : (t.1.computeSmlRootIncremental code).2 = root := by
    have hrooted := hmarked.rooted hcache (r := t.2) rfl
    exact hrooted.computeSmlRoot.trans hroot
  have hchecked : checkRoot code (toInt32 height) t =
      ((t.1.computeSmlRootIncremental code).1, { t.2 with computedRoot := root }) := by
    unfold checkRoot
    dsimp only
    rw [hown, if_neg (fun hne => hne hcommitted.symm)]
  have hfold : eng.foldBlock code block height = checkPayee code block height []
      ((t.1.computeSmlRootIncremental code).1, { t.2 with computedRoot := root }) := by
    rcases foldBlock_of_checked hcheck with ⟨protx, why, hprotx, hmissing, -⟩ | hfold
    · exact absurd hmissing (hpayee protx hprotx)
    rw [hfold, hpasses, hscript]
    unfold finishFold
    dsimp only
    rw [hchecked, if_neg (fun hne => hne hcommitted.symm)]
  obtain ⟨hentries, -, -, hroots⟩ := @checkPayee_spec P code block height []
    ((t.1.computeSmlRootIncremental code).1, { t.2 with computedRoot := root })
  rw [hfold]
  refine ⟨?_, hroots.trans hcommitted, hentries⟩
  unfold checkPayee
  rw [if_neg (fun hasked => hasked.1.2 rfl), if_neg (fun hasked => hasked.2 rfl)]

end Block

variable {ref : ReferenceList}

section Runs

variable {P : Type}

def stepReference (code : FoldCode P) (s : DmlFoldEngine × ReferenceList) (b : Block P × U32) :
    DmlFoldEngine × ReferenceList :=
  ((s.1.foldBlock code b.1 b.2).1,
    if (s.1.foldBlock code b.1 b.2).2.ok then
      s.2.applyBlock code (toInt32 b.2) s.1.cfg.gates s.1.membersFn b.1
    else s.2)

def PoseBlockAt (code : FoldCode P) (s : DmlFoldEngine × ReferenceList)
    (b : Block P × U32) : Prop :=
  (s.1.foldBlock code b.1 b.2).2.ok = true → PoseBlock code s.1 s.2 b.1 b.2

/-- What holds between two blocks of a run. -/
def PoseInv (code : FoldCode P) (s : DmlFoldEngine × ReferenceList) : Prop :=
  s.1.poisoned = true ∨ (CacheOf code s.1.smlCache s.1.entries ∧ Shadows (fun _ => False) s.1 s.2)

theorem agreed_of_rel {exact : Prop} {held kept : Option ReplayMNState}
    (h : Option.Rel (Agreed exact) held kept) :
    held.isSome = kept.isSome ∧
      ∀ st rs, held = some st → kept = some rs → Agreed exact st rs := by
  cases h with
  | none =>
    refine ⟨rfl, ?_⟩
    intro st rs hst
    cases hst
  | some ha =>
    refine ⟨rfl, ?_⟩
    intro st rs hst hrs
    rw [Option.some.injEq] at hst hrs
    rw [← hst, ← hrs]
    exact ha

def Meets (eng : DmlFoldEngine) (k : Uint256) : Prop :=
  ∀ st, eng.entries.lookup k = some st → st.nPoSePenalty = st.nPoSePenaltyHi

theorem Shadows.meets {eng : DmlFoldEngine}
    (h : Shadows (fun _ => False) eng ref) : Shadows (Meets eng) eng ref := by
  refine ⟨?_, h.collateralIndex⟩
  intro k
  unfold Meets
  have hrel := h.entries k
  generalize eng.entries.lookup k = held at hrel
  generalize ref.entries.lookup k = kept at hrel
  cases hrel with
  | none => exact Option.Rel.none
  | some ha =>
    exact Option.Rel.some { ha with exact := fun hmeet => hmeet _ rfl }

section

variable {code : FoldCode P} {s : DmlFoldEngine × ReferenceList} {b : Block P × U32}
  (h : PoseInv code s)
include h

theorem PoseInv.of_accepted (hok : (s.1.foldBlock code b.1 b.2).2.ok = true) :
    CacheOf code s.1.smlCache s.1.entries ∧ Shadows (fun _ => False) s.1 s.2 := by
  rcases h with hpoisoned | hinv
  · obtain ⟨root, t, hcheck, -, -⟩ := foldBlock_accepted hok
    have hbefore := @checkBeforeFold_spec P code s.1 b.1 b.2
    rw [hcheck, hpoisoned] at hbefore
    cases hbefore.1
  · exact hinv

theorem PoseInv.step (hb : PoseBlockAt code s b) : PoseInv code (stepReference code s b) := by
  unfold stepReference
  cases hok : (s.1.foldBlock code b.1 b.2).2.ok with
  | false =>
    rcases foldBlock_refused hok with hsame | hpoisoned
    · rw [hsame]
      exact h
    · exact Or.inl hpoisoned
  | true =>
    obtain ⟨hcache, hshadows⟩ := h.of_accepted hok
    have hfresh : Fresh code s.1 := Or.inr hcache
    rcases (hfresh.foldBlock b.1 b.2).1 with hpoisoned | hcache'
    · exact Or.inl hpoisoned
    · exact Or.inr ⟨hcache', hshadows.foldBlock hcache hok (hb hok)⟩

end

/-- Over every run from a seed, after every accepted block, every masternode has the ban of the
reference and a penalty within its bounds, and bounds that met before the block meet after it. -/
theorem penalty_bounds_sound (code : FoldCode P) (eng₀ : DmlFoldEngine)
    (entries : List (Uint256 × ReplayMNState)) (total : U64) (height : U32) (blockHash : Uint256)
    (network : String) (penalties : SeedPenalties) (ref : ReferenceList)
    (hseed : Shadows (fun _ => False)
      (eng₀.seed entries total height blockHash network penalties) ref)
    (blocks : List (Block P × U32))
    (hblocks : Run.Admissible (stepReference code) (PoseBlockAt code)
      (eng₀.seed entries total height blockHash network penalties, ref) blocks)
    (before : List (Block P × U32)) (b : Block P × U32) (after : List (Block P × U32))
    (hsplit : blocks = before ++ b :: after) :
    let s := Run.run (stepReference code)
      (eng₀.seed entries total height blockHash network penalties, ref) before
    let s' := stepReference code s b
    (s.1.foldBlock code b.1 b.2).2.ok = true →
      ∀ k, (s'.1.entries.lookup k).isSome = (s'.2.entries.lookup k).isSome ∧
        ∀ st rs, s'.1.entries.lookup k = some st → s'.2.entries.lookup k = some rs →
          st.nPoSeBanHeight = rs.nPoSeBanHeight ∧ st.isBanned = rs.isBanned ∧
            st.nPoSePenalty ≤ rs.nPoSePenalty ∧ rs.nPoSePenalty ≤ st.nPoSePenaltyHi ∧
            ∀ st₀, s.1.entries.lookup k = some st₀ → st₀.nPoSePenalty = st₀.nPoSePenaltyHi →
              st.nPoSePenalty = st.nPoSePenaltyHi := by
  intro s s' hok k
  subst hsplit
  obtain ⟨hbefore, hrest⟩ := Run.admissible_append.mp hblocks
  have hstart : PoseInv code
      (eng₀.seed entries total height blockHash network penalties, ref) :=
    Or.inr ⟨Or.inr ⟨rfl, rfl⟩, hseed⟩
  have hinv : PoseInv code s := Run.run_invariant (fun _ _ h hb => h.step hb) hstart hbefore
  obtain ⟨hcache, hshadows⟩ := hinv.of_accepted hok
  have hafter := (hshadows.meets.foldBlock hcache hok (hrest.1 hok)).entries k
  have href : s'.2 = s.2.applyBlock code (toInt32 b.2) s.1.cfg.gates s.1.membersFn b.1 := if_pos hok
  rw [← href] at hafter
  obtain ⟨hkeys, hagreed⟩ := agreed_of_rel hafter
  refine ⟨hkeys, ?_⟩
  intro st rs hst hrs
  have ha := hagreed st rs hst hrs
  refine ⟨ha.bans, isBanned_congr ha.bans, ha.lower, ha.upper, ?_⟩
  intro st₀ hst₀ hmeet
  refine ha.exact ?_
  intro st₁ hst₁
  rw [hst₀] at hst₁
  cases hst₁
  exact hmeet

end Runs

/-! ## A block that outgrows an open ban -/

section Outgrown

inductive PosePayload where
  | cbtx (root : Uint256)
  | registers (i : Nat)
  | commits
  | serves

def punishedMn : Uint256 := 1000

def registrationOf (i : Nat) : ProRegTx where
  keyIDOwner := Fin.ofNat _ i
  pubKeyOperator := Fin.ofNat _ i
  keyIDVoting := Fin.ofNat _ i

def poseCode : FoldCode PosePayload :=
  { plainFoldCode with
    parseProReg := fun
      | .registers i => some (registrationOf i)
      | _ => none
    parseProUpServ := fun
      | .serves => some { proTxHash := punishedMn }
      | _ => none
    computeTxHash := fun tx =>
      match tx.extraPayload with
      | .registers i => Fin.ofNat _ i
      | _ => 0
    sml :=
      { calcHash := fun e => e.proRegTxHash + e.confirmedHash + if e.isValid then 1 else 0
        merklePairHash := fun a b => a + 2 * b }
    parseCbtx := fun
      | .cbtx root => some root
      | _ => none
    parseQfcommit := fun
      | .commits =>
        .ok { llmqType := 1, quorumHash := 5, validMembers := [false], quorumPublicKey := 1 }
      | _ => .error "" }

def poseEntry : ReplayMNState where
  nVersion := basicBls
  collateralOutpoint := toLex (1000, 0)
  keyIDOwner := 1000
  pubKeyOperator := 1000
  keyIDVoting := 1000
  nRegisteredHeight := 3

def poseEngine : DmlFoldEngine where
  cfg := { enabled := true, gates := { dip0003Height := 0 } }
  membersFn := some fun _ _ => some [punishedMn]

def poseSeed : DmlFoldEngine :=
  poseEngine.seed [(punishedMn, poseEntry)] 1 15 7 "mainnet" .unknown

/-- The penalty of the masternode is 50. -/
def poseReference : ReferenceList where
  entries := SortedMap.empty.insert punishedMn { poseEntry with nPoSePenalty := 50 }
  collateralIndex := SortedMap.empty.insert (toLex (1000, 0)) punishedMn

theorem shadows_poseSeed (exact : Uint256 → Prop) (hexact : ¬ exact punishedMn) :
    Shadows exact poseSeed poseReference := by
  refine ⟨?_, rfl⟩
  intro k
  have heng : poseSeed.entries.lookup k =
      if punishedMn = k then some { poseEntry with nPoSePenaltyHi := 200 } else none := rfl
  have href : poseReference.entries.lookup k =
      if punishedMn = k then some { poseEntry with nPoSePenalty := 50 } else none := rfl
  rw [heng, href]
  split
  · rename_i hk
    subst hk
    exact Option.Rel.some ⟨rfl, by decide, by decide, by decide, rfl, fun he => absurd he hexact⟩
  · exact Option.Rel.none

def spareMn : Uint256 := 2000

def spareEntry : ReplayMNState where
  nVersion := basicBls
  collateralOutpoint := toLex (2000, 0)
  keyIDOwner := 2000
  pubKeyOperator := 2000
  keyIDVoting := 2000

def twoSeed : DmlFoldEngine :=
  poseEngine.seed [(punishedMn, poseEntry), (spareMn, spareEntry)] 1 15 7 "mainnet" .unknown

def twoReference : ReferenceList where
  entries := poseReference.entries.insert spareMn { spareEntry with nPoSePenalty := 7 }
  collateralIndex := poseReference.collateralIndex.insert (toLex (2000, 0)) spareMn

theorem shadows_twoSeed : Shadows (fun _ => False) twoSeed twoReference := by
  refine ⟨?_, rfl⟩
  intro k
  have heng : twoSeed.entries.lookup k =
      if punishedMn = k then some { poseEntry with nPoSePenaltyHi := 200 }
      else if spareMn = k then some { spareEntry with nPoSePenaltyHi := 200 } else none := rfl
  have href : twoReference.entries.lookup k =
      if punishedMn = k then some { poseEntry with nPoSePenalty := 50 }
      else if spareMn = k then some { spareEntry with nPoSePenalty := 7 } else none := rfl
  rw [heng, href]
  split
  · exact Option.Rel.some ⟨rfl, by decide, by decide, by decide, rfl, nofun⟩
  split
  · exact Option.Rel.some ⟨rfl, by decide, by decide, by decide, rfl, nofun⟩
  · exact Option.Rel.none

def commitment : Tx PosePayload where
  version := 3
  type := 6
  extraPayload := .commits

def punishingBlock : Block PosePayload where
  previousBlock := 7
  txs := [{ version := 3, type := 5, extraPayload := .cbtx 4008 }, commitment]

/-- The punish of the one masternode reaches the maximum, which the engine reads off the root; the
bounds of the other move apart from its penalty. -/
theorem penalty_bounds_sound_read_off :
    let s := (twoSeed, twoReference)
    let s' := stepReference poseCode s (punishingBlock, 16)
    (s'.1.entries.lookup punishedMn).map ReplayMNState.nPoSePenalty = some 100 ∧
      (s'.1.entries.lookup punishedMn).map ReplayMNState.isBanned = some true ∧
      (s'.1.entries.lookup spareMn).map ReplayMNState.nPoSePenaltyHi = some 199 ∧
      (s'.2.entries.lookup spareMn).map ReplayMNState.nPoSePenalty = some 6 ∧
      ∀ k, (s'.1.entries.lookup k).isSome = (s'.2.entries.lookup k).isSome ∧
        ∀ st rs, s'.1.entries.lookup k = some st → s'.2.entries.lookup k = some rs →
          st.nPoSeBanHeight = rs.nPoSeBanHeight ∧ st.isBanned = rs.isBanned ∧
            st.nPoSePenalty ≤ rs.nPoSePenalty ∧ rs.nPoSePenalty ≤ st.nPoSePenaltyHi ∧
            ∀ st₀, s.1.entries.lookup k = some st₀ → st₀.nPoSePenalty = st₀.nPoSePenaltyHi →
              st.nPoSePenalty = st.nPoSePenaltyHi := by
  refine ⟨by decide +kernel, by decide +kernel, by decide +kernel, by decide +kernel, ?_⟩
  refine penalty_bounds_sound poseCode poseEngine [(punishedMn, poseEntry), (spareMn, spareEntry)]
    1 15 7 "mainnet" .unknown twoReference shadows_twoSeed [(punishingBlock, 16)] ⟨?_, trivial⟩ []
    (punishingBlock, 16) [] rfl (by decide +kernel)
  intro _
  refine ⟨by decide, ?_, ?_, ?_⟩
  · intro coinbase txs root htxs hroot
    cases htxs
    cases hroot
    decide +kernel
  · intro _
    decide +kernel
  · intro root hcheck
    refine ⟨?_, ?_⟩
    · rintro ⟨-, htype, -⟩
      cases htype
    · split <;> trivial

def registration (i : Nat) : Tx PosePayload where
  version := 3
  type := 1
  extraPayload := .registers i

def registrations : Nat → List (Tx PosePayload)
  | 0 => []
  | n + 1 => registration (n + 1) :: registrations n

/-- Both lists before the registrations of `n`, `n - 1` and so on: the masternode that is
punished has the entries `a` and `r`, and nobody holds a key or a collateral up to `n`. -/
structure Growing (n : Nat) (mx : Option Int) (size : Nat) (a r : ReplayMNState) (t : Folding)
    (ref : ReferenceList) : Prop where
  tracks : ∃ outgrown, Tracks 16 (fun k => k ≠ punishedMn) poseEngine.membersFn outgrown t ref
  entries : ∀ x st, t.1.entries.lookup x = some st →
    n < x.val ∧ n < st.keyIDOwner.val ∧ n < st.pubKeyOperator.val ∧ st.nType = mnRegular ∧
      st.nVersion = basicBls
  collaterals : ∀ c x, t.1.collateralIndex.lookup c = some x → n < (ofLex c).1.val
  entry : t.1.entries.lookup punishedMn = some a
  reference : ref.entries.lookup punishedMn = some r
  punished : t.1.blockPunished.lookup punishedMn = mx
  size : t.1.entries.entries.length = size

section Steps

variable {n size : Nat} {a r : ReplayMNState} {t : Folding}

theorem length_insert_of_fresh {e : ReplayEntries} (h : e.lookup k = none)
    (st : ReplayMNState) : (e.insert k st).entries.length = e.entries.length + 1 := by
  have hlookup : (e.insert k st).lookup k = some st := by
    rw [lookup_insert, if_pos rfl]
  have hperm := (entries_perm hlookup).length_eq
  rw [erase_insert, erase_of_lookup_none h] at hperm
  exact hperm

theorem registered_registrationOf (eng : DmlFoldEngine) (i : Nat) :
    (registered poseCode 16 eng (Fin.ofNat _ i) (registrationOf i)).keyIDOwner = Fin.ofNat _ i ∧
      (registered poseCode 16 eng (Fin.ofNat _ i) (registrationOf i)).pubKeyOperator =
        Fin.ofNat _ i ∧
      (registered poseCode 16 eng (Fin.ofNat _ i) (registrationOf i)).nType = mnRegular ∧
      (registered poseCode 16 eng (Fin.ofNat _ i) (registrationOf i)).nVersion = basicBls ∧
      (registered poseCode 16 eng (Fin.ofNat _ i) (registrationOf i)).collateralOutpoint =
        toLex (Fin.ofNat _ i, 0) := by
  have hnull : (ofLex (registrationOf i).collateralOutpoint).1 = 0 := rfl
  unfold registered ReplayMNState.banIfNotBanned
  dsimp only
  split
  · split <;> exact ⟨rfl, rfl, rfl, rfl, rfl⟩
  · exact ⟨rfl, rfl, rfl, rfl, rfl⟩

theorem val_ofNat_of_lt {i w : Nat} (h : i < 1000) (hw : 10 ≤ w) :
    (Fin.ofNat (2 ^ w) i).val = i := by
  have hwidth : 2 ^ 10 ≤ 2 ^ w := Nat.pow_le_pow_right (by omega) hw
  exact Nat.mod_eq_of_lt (by omega)

theorem Growing.foldProReg {mx : Option Int} {ref : ReferenceList}
    (h : Growing (n + 1) mx size a r t ref) (hn : n + 1 < 1000) :
    t.1.collateralIndex.lookup (toLex (Fin.ofNat _ (n + 1), 0)) = none ∧
      t.1.entries.lookup (Fin.ofNat _ (n + 1)) = none ∧
      ∃ result, DmlFoldEngine.foldProReg poseCode 16 t (registration (n + 1)) =
        .ok ({ t.1 with
            collateralIndex := t.1.collateralIndex.insert (toLex (Fin.ofNat _ (n + 1), 0))
              (Fin.ofNat _ (n + 1))
            entries := t.1.entries.insert (Fin.ofNat _ (n + 1))
              (registered poseCode 16 t.1 (Fin.ofNat _ (n + 1)) (registrationOf (n + 1)))
            smlStructural := true
            totalRegisteredCount := t.1.totalRegisteredCount + 1 }, result) := by
  have hfree : t.1.collateralIndex.lookup (toLex (Fin.ofNat _ (n + 1), 0)) = none := by
    cases hc : t.1.collateralIndex.lookup (toLex (Fin.ofNat _ (n + 1), 0)) with
    | none => rfl
    | some x =>
      have hlt : n + 1 < (Fin.ofNat (2 ^ 256) (n + 1)).val := h.collaterals _ x hc
      rw [val_ofNat_of_lt hn (by omega)] at hlt
      omega
  have hfresh : t.1.entries.lookup (Fin.ofNat _ (n + 1)) = none := by
    cases hst : t.1.entries.lookup (Fin.ofNat _ (n + 1)) with
    | none => rfl
    | some st =>
      have hlt : n + 1 < (Fin.ofNat (2 ^ 256) (n + 1)).val := (h.entries _ st hst).1
      rw [val_ofNat_of_lt hn (by omega)] at hlt
      omega
  have howner : idHolder t.1.entries (registrationOf (n + 1)).keyIDOwner (Fin.ofNat _ (n + 1)) =
      none := by
    unfold idHolder
    split
    · rfl
    rw [Option.map_eq_none_iff, find?_eq_none]
    intro e he
    obtain ⟨-, hkey, -, htype, -⟩ := h.entries e.1 e.2 (mem_entries_iff.mp he)
    rw [decide_eq_true_iff]
    rintro ⟨-, heq | ⟨hevo, -⟩⟩
    · have hval : e.2.keyIDOwner.val = n + 1 := by
        rw [heq]
        exact val_ofNat_of_lt hn (by omega)
      omega
    · rw [htype] at hevo
      cases hevo
  have hoperator : opkeyHolder poseCode t.1.entries (registrationOf (n + 1)).pubKeyOperator
      (Fin.ofNat _ (n + 1)) = none := by
    unfold opkeyHolder
    split
    · rfl
    rw [Option.map_eq_none_iff, find?_eq_none]
    intro e he
    obtain ⟨-, -, hkey, -, hversion⟩ := h.entries e.1 e.2 (mem_entries_iff.mp he)
    rw [decide_eq_true_iff]
    rintro ⟨-, -, hwire⟩
    rw [hversion, if_neg (lt_irrefl _)] at hwire
    have hval : e.2.pubKeyOperator.val = n + 1 := by
      rw [hwire]
      exact val_ofNat_of_lt hn (by omega)
    omega
  refine ⟨hfree, hfresh, ?_⟩
  obtain ⟨-, -, -, -, hcollateral⟩ := registered_registrationOf t.1 (n + 1)
  have hhash : poseCode.computeTxHash (registration (n + 1)) = Fin.ofNat _ (n + 1) := rfl
  have hparse : poseCode.parseProReg (registration (n + 1)).extraPayload =
      some (registrationOf (n + 1)) := rfl
  have hversion : ¬ extAddr ≤ (registrationOf (n + 1)).nVersion :=
      show ¬ extAddr ≤ basicBls by decide
  unfold DmlFoldEngine.foldProReg replaceCollateral
  rw [hparse]
  dsimp only
  rw [if_neg hversion, hhash, hcollateral, hfree]
  rw [howner]
  rw [hoperator]
  exact ⟨_, rfl⟩

theorem Growing.register {mx : Option Int} {ref : ReferenceList}
    (h : Growing (n + 1) mx size a r t ref) (hn : n + 1 < 1000) :
    ∃ t', foldTx poseCode 16 t (registration (n + 1)) = .ok t' ∧
      Growing n mx (size + 1) a r t'
        (ref.applyTx poseCode 16 poseEngine.membersFn (registration (n + 1))) := by
  obtain ⟨hfree, hfresh, result, hstep⟩ := h.foldProReg hn
  obtain ⟨outgrown, htracks⟩ := h.tracks
  obtain ⟨howner, hoperator, htype, hversion, -⟩ := registered_registrationOf t.1 (n + 1)
  have hfold : foldTx poseCode 16 t (registration (n + 1)) =
      DmlFoldEngine.foldProReg poseCode 16 t (registration (n + 1)) := rfl
  rw [hstep] at hfold
  have hserves : ¬ ServesOutgrown poseCode outgrown (registration (n + 1)) := by
    rintro ⟨-, htype, -⟩
    cases htype
  have hnew : punishedMn ≠ Fin.ofNat _ (n + 1) := by
    intro heq
    have hval := congrArg Fin.val heq
    rw [val_ofNat_of_lt hn (by omega)] at hval
    have hpunished : punishedMn.val = 1000 := rfl
    omega
  refine ⟨_, hfold, ⟨_, htracks.foldTx (by decide) hserves hfold⟩, ?_, ?_, ?_, ?_, h.punished, ?_⟩
  · intro x st hst
    rw [lookup_insert] at hst
    split at hst
    · rename_i hx
      rw [Option.some.injEq] at hst
      rw [← hst, hx, howner, hoperator, htype, hversion, val_ofNat_of_lt hn (by omega),
        val_ofNat_of_lt hn (by omega), val_ofNat_of_lt hn (by omega)]
      exact ⟨by omega, by omega, by omega, rfl, rfl⟩
    · obtain ⟨hx, hkey, hkey', hrest⟩ := h.entries x st hst
      exact ⟨by omega, by omega, by omega, hrest⟩
  · intro c x hc
    rw [lookup_insert] at hc
    split at hc
    · rename_i heq
      rw [heq]
      change n < (Fin.ofNat (2 ^ 256) (n + 1)).val
      rw [val_ofNat_of_lt hn (by omega)]
      omega
    · have hlt := h.collaterals c x hc
      omega
  · dsimp only
    rw [lookup_insert, if_neg hnew]
    exact h.entry
  · have hregister : ref.applyTx poseCode 16 poseEngine.membersFn (registration (n + 1)) =
        ref.register poseCode 16 (registration (n + 1)) (registrationOf (n + 1)) := rfl
    have hspend : ref.spend (toLex (Fin.ofNat _ (n + 1), 0)) = ref :=
      (htracks.spend (toLex (Fin.ofNat _ (n + 1), 0))).2 hfree
    obtain ⟨-, -, -, -, hcollateral⟩ := registered_registrationOf {} (n + 1)
    have hhash : poseCode.computeTxHash (registration (n + 1)) = Fin.ofNat _ (n + 1) := rfl
    rw [hregister]
    unfold ReferenceList.register
    dsimp only
    rw [hhash, hcollateral, hspend, lookup_insert, if_neg hnew]
    exact h.reference
  · dsimp only
    rw [length_insert_of_fresh hfresh, h.size]

theorem Growing.registrations {mx : Option Int} {ref : ReferenceList} (hn : n < 1000)
    (h : Growing n mx size a r t ref) :
    ∃ t', (registrations n).foldlM (foldTx poseCode 16) t = .ok t' ∧
      Growing 0 mx (size + n) a r t' ((registrations n).foldl
        (ReferenceList.applyTx poseCode 16 poseEngine.membersFn) ref) := by
  induction n generalizing size t ref with
  | zero => exact ⟨t, rfl, h⟩
  | succ n ih =>
    obtain ⟨t₁, hone, hnext⟩ := h.register hn
    obtain ⟨t₂, hrest, hlast⟩ := ih (by omega) hnext
    refine ⟨t₂, ?_, ?_⟩
    · unfold Dash.registrations
      rw [foldlM_cons, hone]
      exact hrest
    have hsize : size + (n + 1) = size + 1 + n := by omega
    rw [hsize]
    exact hlast

theorem Growing.punish {mx : Option Int} {ref : ReferenceList} (h : Growing n mx size a r t ref)
    (hfree : a.isBanned = false) :
    ∃ t', foldTx poseCode 16 t commitment = .ok t' ∧
      Growing n (some (calcMaxPosePenalty size)) size
        (punishedEntry 16 (calcMaxPosePenalty size) a)
        (ReferenceList.punished 16 (calcMaxPosePenalty size) r) t'
        (ref.applyTx poseCode 16 poseEngine.membersFn commitment) := by
  obtain ⟨outgrown, htracks⟩ := h.tracks
  have hmax : t.1.maxPosePenalty = calcMaxPosePenalty size := by
    unfold maxPosePenalty
    rw [h.size]
  have hfold : foldTx poseCode 16 t commitment =
      .ok (posePunish 16 t punishedMn a (calcPenalty t.1.maxPosePenalty 66)) := by
    have hcommit : foldTx poseCode 16 t commitment =
        DmlFoldEngine.foldQfcommit poseCode 16 t commitment := rfl
    have hparse : poseCode.parseQfcommit commitment.extraPayload = .ok
        { llmqType := 1, quorumHash := 5, validMembers := [false], quorumPublicKey := 1 } := rfl
    rw [hcommit]
    unfold DmlFoldEngine.foldQfcommit
    rw [hparse, htracks.membersFn]
    change Except.ok (DmlFoldEngine.punishMembers 16 t [(punishedMn, false)]) = _
    unfold DmlFoldEngine.punishMembers
    rw [foldl_cons, h.entry]
    rfl
  have hserves : ¬ ServesOutgrown poseCode outgrown commitment := by
    rintro ⟨-, htype, -⟩
    cases htype
  obtain ⟨hentries, hindex, hpunished, -⟩ := @posePunish_spec 16 t punishedMn a
  have htracks' := htracks.foldTx (by decide) hserves hfold
  generalize posePunish 16 t punishedMn a (calcPenalty t.1.maxPosePenalty 66) = t' at *
  rw [hmax] at hentries hpunished
  refine ⟨t', hfold, ⟨_, htracks'⟩, ?_, ?_, ?_, ?_, ?_, ?_⟩
  · intro x st hst
    rw [hentries, lookup_insert] at hst
    split at hst
    · rename_i hx
      rw [Option.some.injEq] at hst
      have hbefore := h.entries punishedMn a h.entry
      rw [← hst, hx, punishedEntry_of_free hfree]
      exact hbefore
    · exact h.entries x st hst
  · rw [hindex]
    exact h.collaterals
  · rw [hentries, lookup_insert, if_pos rfl]
  · have hpunish : ref.applyTx poseCode 16 poseEngine.membersFn commitment =
        ref.punish 16 [(punishedMn, false)] := rfl
    rw [hpunish]
    unfold ReferenceList.punish
    rw [foldl_cons, h.reference, foldl_nil]
    dsimp only
    rw [if_neg Bool.false_ne_true, lookup_insert, if_pos rfl, htracks.maxPenalty_eq, hmax]
  · rw [hpunished, hfree, if_neg Bool.false_ne_true, lookup_insert, if_pos rfl]
  · have hkeys : t'.1.entries.keys = t.1.entries.keys := by
      apply keys_eq_of_isSome
      intro x
      rw [hentries]
      exact lookup_isSome_insert h.entry _ x
    have hlength := congrArg List.length hkeys
    unfold SortedMap.keys at hlength
    rw [length_map, length_map, h.size] at hlength
    exact hlength

end Steps

def reviving : Tx PosePayload where
  version := 3
  type := 2
  extraPayload := .serves

/-- The masternode is punished at the maximum 100, the list grows to 295 masternodes, and it is
punished again and updated. -/
def outgrowingTxs : List (Tx PosePayload) :=
  commitment :: registrations 294 ++ [commitment, reviving]

def outgrowingBlock (root : Uint256) : Block PosePayload where
  previousBlock := 7
  txs := { version := 3, type := 5, extraPayload := .cbtx root } :: outgrowingTxs

def outgrownReference : ReferenceList :=
  outgrowingTxs.foldl (ReferenceList.applyTx poseCode 16 poseEngine.membersFn)
    (poseReference.beginBlock poseCode 16 poseSeed.cfg.gates 7)

def outgrownBlock : Block PosePayload :=
  outgrowingBlock (calcMerkleRoot poseCode.sml (smlOf poseCode outgrownReference.entries))

theorem foldTxs_eq_ok_iff {P : Type} {code : FoldCode P} {H : Int} {height : U32}
    (txs : List (Tx P × Nat)) (t t' : Folding) :
    DmlFoldEngine.foldTxs code H height t txs = .ok t' ↔
      (txs.map Prod.fst).foldlM (foldTx code H) t = .ok t' := by
  induction txs generalizing t with
  | nil => exact Iff.rfl
  | cons tx txs ih =>
    unfold DmlFoldEngine.foldTxs
    rw [foldlM_cons, map_cons, foldlM_cons]
    cases hone : DmlFoldEngine.foldTx code H t tx.1 with
    | error e =>
      constructor
      · intro h
        cases h
      · intro h
        cases h
    | ok t₁ => exact ih t₁

theorem forall_outgrowingTxs {p : Tx PosePayload → Prop} (hcommits : p commitment)
    (hregisters : ∀ i, p (registration i)) (hrevives : p reviving) :
    ∀ tx ∈ outgrowingTxs, p tx := by
  have hregistrations : ∀ n, ∀ tx ∈ registrations n, p tx := by
    intro n
    induction n with
    | zero => nofun
    | succ n ih =>
      intro tx htx
      rcases mem_cons.mp htx with rfl | htx
      · exact hregisters (n + 1)
      · exact ih tx htx
  intro tx htx
  rcases mem_append.mp htx with hmem | hmem
  · rcases mem_cons.mp hmem with rfl | hmem
    · exact hcommits
    · exact hregistrations 294 tx hmem
  rcases mem_cons.mp hmem with rfl | hmem
  · exact hcommits
  · rw [mem_singleton.mp hmem]
    exact hrevives

/-- A list of transactions that any index finds well formed. -/
theorem checkBeforeFold_outgrowing (root : Uint256) :
    checkBeforeFold poseCode poseSeed (outgrowingBlock root) 16 = .ok root := by
  have hcontextual : ((outgrowingBlock root).txs.zipIdx.findSome? fun t =>
      (contextualTxCheck t.1 (t.2 = 0)).map fun why => (t.2, why)) = none := by
    rw [findSome?_eq_none_iff]
    intro t ht
    rw [Option.map_eq_none_iff]
    unfold outgrowingBlock at ht
    dsimp only at ht
    rw [zipIdx_cons] at ht
    rcases mem_cons.mp ht with rfl | ht
    · rfl
    have hindex : ¬ t.2 = 0 := by
      have hle := le_snd_of_mem_zipIdx ht
      omega
    rw [decide_eq_false hindex]
    have hcheck : ∀ tx ∈ outgrowingTxs, contextualTxCheck tx false = none :=
      forall_outgrowingTxs rfl (fun _ => rfl) rfl
    exact hcheck t.1 (fst_mem_of_mem_zipIdx ht)
  unfold checkBeforeFold
  dsimp only
  rw [hcontextual]
  rfl

def decayedEntry : ReplayMNState := { poseEntry with nPoSePenaltyHi := 199 }

theorem growing_startTxs (root : Uint256) :
    Growing 294 none 1 decayedEntry { poseEntry with nPoSePenalty := 49 }
      (startTxs poseCode poseSeed (outgrowingBlock root) 16 root)
      (poseReference.beginBlock poseCode 16 poseSeed.cfg.gates 7) := by
  have hlookup : ∀ k, (startTxs poseCode poseSeed (outgrowingBlock root) 16 root).1.entries.lookup
      k =
      if punishedMn = k then some decayedEntry else none := fun _ => rfl
  have hindex : ∀ c,
      (startTxs poseCode poseSeed (outgrowingBlock root) 16 root).1.collateralIndex.lookup c =
        if toLex (1000, 0) = c then some punishedMn else none := fun _ => rfl
  have hshadows := shadows_poseSeed (fun k => k ≠ punishedMn) fun hne => hne rfl
  have hstart : Tracks 16 (fun k => k ≠ punishedMn) poseEngine.membersFn []
      (startTxs poseCode poseSeed (outgrowingBlock root) 16 root)
      (poseReference.beginBlock poseCode 16 poseSeed.cfg.gates 7) :=
    @Shadows.startTxs PosePayload poseCode _ _ _ (outgrowingBlock root) 16 hshadows root
  refine ⟨⟨[], hstart⟩, ?_, ?_, rfl, rfl, rfl, rfl⟩
  · intro x st hst
    rw [hlookup] at hst
    split at hst
    · rename_i hx
      cases hst
      rw [← hx]
      exact ⟨by decide, by decide, by decide, rfl, rfl⟩
    · cases hst
  intro c x hc
  rw [hindex] at hc
  split at hc
  · rename_i heq
    rw [← heq]
    decide
  · cases hc

theorem Growing.serve {n size : Nat} {a r : ReplayMNState} {t : Folding}
    (h : Growing n mx size a r t ref) :
    ∃ t', foldTx poseCode 16 t reviving = .ok t' ∧
      t'.1.entries = t.1.entries.insert punishedMn
        (serviceEntry 16 mx { proTxHash := punishedMn } a) ∧
      (ref.applyTx poseCode 16 poseEngine.membersFn reviving).entries =
        ref.entries.insert punishedMn
          (ReferenceList.updateService 16 { proTxHash := punishedMn } r) := by
  have hparse : poseCode.parseProUpServ reviving.extraPayload =
      some { proTxHash := punishedMn } := rfl
  have hserve : foldTx poseCode 16 t reviving =
      DmlFoldEngine.foldProUpServ poseCode 16 t reviving := rfl
  have hfold : ∃ t', DmlFoldEngine.foldProUpServ poseCode 16 t reviving = .ok t' := by
    have htype := (h.entries punishedMn a h.entry).2.2.2.1
    unfold DmlFoldEngine.foldProUpServ
    rw [hparse]
    dsimp only
    rw [if_neg (by decide), if_neg (by decide), h.entry]
    dsimp only
    rw [if_neg (fun hne => hne htype.symm), if_neg (by decide)]
    dsimp only
    split
    · exact ⟨_, rfl⟩
    · exact ⟨_, rfl⟩
  obtain ⟨t', hfold⟩ := hfold
  obtain ⟨st, hst, hentries, -⟩ := foldProUpServ_ok hparse hfold
  rw [h.entry] at hst
  cases hst
  rw [h.punished] at hentries
  refine ⟨t', hserve.trans hfold, hentries, ?_⟩
  have hchange : ref.applyTx poseCode 16 poseEngine.membersFn reviving =
      ref.change punishedMn (ReferenceList.updateService 16 { proTxHash := punishedMn }) := rfl
  rw [hchange]
  unfold ReferenceList.change
  rw [h.reference]

def SameLeaf (st rs : ReplayMNState) : Prop := st.core = rs.core ∧ st.isBanned = rs.isBanned

theorem smlOf_congr (h : ∀ k, Option.Rel SameLeaf (e.lookup k) (e'.lookup k)) :
    smlOf poseCode e = smlOf poseCode e' := by
  have hkeys : smlKeys e = smlKeys e' := by
    unfold smlKeys
    rw [keys_eq_of_isSome]
    intro k
    have hk := h k
    generalize e.lookup k = held at hk
    generalize e'.lookup k = kept at hk
    cases hk <;> rfl
  rw [smlOf_eq, smlOf_eq, hkeys]
  apply map_congr_left
  intro k _
  unfold smlEntryAt
  have hk := h k
  generalize e.lookup k = held at hk
  generalize e'.lookup k = kept at hk
  cases hk with
  | none => rfl
  | some hsame =>
    obtain ⟨hcore, hbanned⟩ := hsame
    have hfactor : ∀ st : ReplayMNState, st.toSmlEntry poseCode k =
        { st.core.toSmlEntry poseCode k with isValid := ¬ st.isBanned } := fun _ => rfl
    dsimp only
    refine (hfactor _).trans (Eq.trans ?_ (hfactor _).symm)
    rw [hcore, hbanned]

theorem foldlM_outgrowing (root : Uint256) :
    ∃ t st rs, outgrowingTxs.foldlM (foldTx poseCode 16)
        (startTxs poseCode poseSeed (outgrowingBlock root) 16 root) = .ok t ∧
      t.1.entries.lookup punishedMn = some st ∧ st.nPoSePenalty = 260 ∧
      outgrownReference.entries.lookup punishedMn = some rs ∧ rs.nPoSePenalty = 0 ∧
      ∀ k, Option.Rel SameLeaf (t.1.entries.lookup k) (outgrownReference.entries.lookup k) := by
  obtain ⟨t₁, hone, hpunished⟩ := (growing_startTxs root).punish rfl
  obtain ⟨t₂, htwo, hgrown⟩ := hpunished.registrations (by omega)
  obtain ⟨t₃, hthree, hagain⟩ := hgrown.punish rfl
  obtain ⟨t₄, hfour, hentries, hentries'⟩ := hagain.serve
  unfold outgrownReference outgrowingTxs
  rw [foldl_append, foldl_cons, foldl_cons, foldl_cons, foldl_nil]
  refine ⟨t₄, serviceEntry 16 (some (calcMaxPosePenalty 295)) { proTxHash := punishedMn }
      (punishedEntry 16 (calcMaxPosePenalty 295)
        (punishedEntry 16 (calcMaxPosePenalty 1) decayedEntry)),
    ReferenceList.updateService 16 { proTxHash := punishedMn }
      (ReferenceList.punished 16 (calcMaxPosePenalty 295)
        (ReferenceList.punished 16 (calcMaxPosePenalty 1)
          { poseEntry with nPoSePenalty := 49 })), ?_, ?_, by decide +kernel, ?_, by decide +kernel,
            ?_⟩
  · rw [foldlM_append, foldlM_cons, hone]
    change (registrations 294).foldlM (foldTx poseCode 16) t₁ >>= _ = _
    rw [htwo]
    change [commitment, reviving].foldlM (foldTx poseCode 16) t₂ = _
    rw [foldlM_cons, hthree]
    change [reviving].foldlM (foldTx poseCode 16) t₃ = _
    rw [foldlM_cons, hfour]
    rfl
  · rw [hentries, lookup_insert, if_pos rfl]
  · rw [hentries', lookup_insert, if_pos rfl]
  · intro k
    obtain ⟨outgrown, htracks⟩ := hagain.tracks
    rw [hentries, hentries', lookup_insert, lookup_insert]
    by_cases hk : k = punishedMn
    · rw [if_pos hk, if_pos hk]
      exact Option.Rel.some (by constructor <;> decide +kernel)
    rw [if_neg hk, if_neg hk]
    rcases htracks.cases k with ⟨hst, hrs⟩ | ⟨st, rs, hst, hrs, hb⟩
    · rw [hst, hrs]
      exact Option.Rel.none
    · rw [hst, hrs]
      exact Option.Rel.some ⟨hb.core, isBanned_congr (hb.exact hk).2.1⟩

theorem spends_outgrowing : (outgrowingTxs.flatMap fun tx => tx.vin.map TxIn.prevout) = [] := by
  have hvin : ∀ tx ∈ outgrowingTxs, tx.vin = [] := forall_outgrowingTxs rfl (fun _ => rfl) rfl
  rw [flatMap_eq_nil_iff]
  intro tx htx
  rw [hvin tx htx]
  rfl

/-- The engine accepts the block with the root of the reference, and holds its list, but the
penalty of the masternode is below its lower bound. -/
theorem penalty_bounds_outgrown :
    Shadows (fun _ => False) poseSeed poseReference ∧
      (poseSeed.foldBlock poseCode outgrownBlock 16).2.ok = true ∧
      poseReference.applyBlock poseCode 16 poseSeed.cfg.gates poseSeed.membersFn outgrownBlock =
        outgrownReference ∧
      (poseSeed.foldBlock poseCode outgrownBlock 16).2.committedRoot =
        calcMerkleRoot poseCode.sml (smlOf poseCode outgrownReference.entries) ∧
      smlOf poseCode (poseSeed.foldBlock poseCode outgrownBlock 16).1.entries =
        smlOf poseCode outgrownReference.entries ∧
      ∃ st rs, (poseSeed.foldBlock poseCode outgrownBlock 16).1.entries.lookup punishedMn =
          some st ∧
        outgrownReference.entries.lookup punishedMn = some rs ∧
        st.nPoSePenalty = 260 ∧ rs.nPoSePenalty = 0 := by
  unfold outgrownBlock
  generalize hroot : calcMerkleRoot poseCode.sml (smlOf poseCode outgrownReference.entries) = root
  obtain ⟨t, st, rs, htxs, hst, hlo, hrs, hp, hleaves⟩ := foldlM_outgrowing root
  have hreference : poseReference.applyBlock poseCode 16 poseSeed.cfg.gates poseSeed.membersFn
      (outgrowingBlock root) = outgrownReference := by
    have htail : (outgrowingBlock root).txs.tail = outgrowingTxs := rfl
    have hprev : (outgrowingBlock root).previousBlock = 7 := rfl
    have hmembers : poseSeed.membersFn = poseEngine.membersFn := rfl
    unfold ReferenceList.applyBlock outgrownReference
    rw [htail, hprev, hmembers]
    dsimp only
    rw [spends_outgrowing, foldl_nil]
  have hcheck := checkBeforeFold_outgrowing root
  have hpayee : poseSeed.projectPayee 16 = some punishedMn := by decide +kernel
  have hscript : payeeScript poseSeed 16 = [] := by decide +kernel
  have hfold : DmlFoldEngine.foldTxs poseCode (toInt32 16) 16
      (startTxs poseCode poseSeed (outgrowingBlock root) 16 root)
      ((outgrowingBlock root).txs.zipIdx.drop 1) = .ok t := by
    rw [foldTxs_eq_ok_iff, map_fst_drop_zipIdx]
    exact htxs
  have hspends : foldSpends t (outgrowingBlock root).txs.tail = t := by
    have htail : (outgrowingBlock root).txs.tail = outgrowingTxs := rfl
    unfold foldSpends
    rw [htail, spends_outgrowing, foldl_nil]
  have hpasses := @foldPasses_of_foldTxs PosePayload poseCode (outgrowingBlock root) 16 t
    (poseSeed.projectPayee (toInt32 16)) (poseSeed, startResult poseSeed 16 root) hfold
  rw [hspends] at hpasses
  have hpaid := fun k => @lookup_payeeBookkeeping (toInt32 16)
    (poseSeed.projectPayee (toInt32 16)) t k
  generalize payeeBookkeeping (toInt32 16) (poseSeed.projectPayee (toInt32 16)) t = t' at *
  have hsml : smlOf poseCode t'.1.entries = smlOf poseCode outgrownReference.entries := by
    apply smlOf_congr
    intro k
    refine rel_of_rel (hleaves k) (hpaid k) ?_
    rintro st rs st' hleaf ⟨hcore, -, -, hban⟩
    exact ⟨hcore.trans hleaf.1, (isBanned_congr hban).trans hleaf.2⟩
  have hheld : poseSeed.entries.lookup punishedMn ≠ none := by decide +kernel
  obtain ⟨hok, hcommitted, hentries⟩ := foldBlock_of_foldPasses hcheck
    (fun protx hprotx => Option.some.inj (hpayee.symm.trans hprotx) ▸ hheld) hscript
    (Or.inr ⟨rfl, rfl⟩) hpasses (by rw [hsml, hroot])
  rw [hreference, hentries, hcommitted]
  refine ⟨shadows_poseSeed _ id, hok, rfl, rfl, hsml, ?_⟩
  have hsame := hpaid punishedMn
  rw [hst] at hsame
  generalize t'.1.entries.lookup punishedMn = after at hsame
  cases hsame with
  | some hsame => exact ⟨_, rs, rfl, hrs, hsame.2.1.trans hlo, hp⟩

end Outgrown

end C2Pool.Dash
