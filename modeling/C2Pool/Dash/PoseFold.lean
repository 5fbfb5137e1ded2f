import C2Pool.Dash.PoseReference

/-! # The fold beside the reference list

In the middle of a block the engine's bounds hold of every masternode, and a ban
that the engine has not made is one that it can still find.
-/

namespace C2Pool.Dash

open List DmlFoldEngine SortedMap

/-- The engine in the middle of a block at height `H` beside the reference list. -/
structure Tracks (H : Int) (exact : Uint256 → Prop)
    (membersFn : Option (Fin (2 ^ 8) → Uint256 → Option (List Uint256)))
    (outgrown : List Uint256) (t : Folding) (ref : ReferenceList) : Prop where
  entries : ∀ k, Option.Rel
    (Bounded H (exact k) (k ∈ outgrown) (t.1.blockPunished.lookup k))
    (t.1.entries.lookup k) (ref.entries.lookup k)
  collateralIndex : t.1.collateralIndex = ref.collateralIndex
  maxima : ∀ k x, t.1.blockPunished.lookup k = some x → 100 ≤ x
  membersFn : t.1.membersFn = membersFn

variable {st rs : ReplayMNState} {k : Uint256}

namespace Tracks

variable {H : Int} {exact : Uint256 → Prop}
  {membersFn : Option (Fin (2 ^ 8) → Uint256 → Option (List Uint256))}
  {outgrown : List Uint256} {t : Folding} {ref : ReferenceList}

section

variable (h : Tracks H exact membersFn outgrown t ref) {outgrown' : List Uint256}
include h

theorem cases (k : Uint256) :
    (t.1.entries.lookup k = none ∧ ref.entries.lookup k = none) ∨
      ∃ st rs, t.1.entries.lookup k = some st ∧ ref.entries.lookup k = some rs ∧
        Bounded H (exact k) (k ∈ outgrown) (t.1.blockPunished.lookup k) st rs := by
  have hrel := h.entries k
  cases heng : t.1.entries.lookup k with
  | none =>
    cases href : ref.entries.lookup k with
    | none => exact Or.inl ⟨rfl, rfl⟩
    | some rs =>
      rw [heng, href] at hrel
      cases hrel
  | some st =>
    cases href : ref.entries.lookup k with
    | none =>
      rw [heng, href] at hrel
      cases hrel
    | some rs =>
      rw [heng, href] at hrel
      cases hrel with
      | some hb => exact Or.inr ⟨st, rs, rfl, rfl, hb⟩

theorem exists_bounded {st : ReplayMNState} (hst : t.1.entries.lookup k = some st) :
    ∃ rs, ref.entries.lookup k = some rs ∧
      Bounded H (exact k) (k ∈ outgrown) (t.1.blockPunished.lookup k) st rs := by
  rcases h.cases k with ⟨hnone, -⟩ | ⟨st', rs, hst', hrs, hb⟩
  · rw [hnone] at hst
    cases hst
  rw [hst'] at hst
  cases hst
  exact ⟨rs, hrs, hb⟩

theorem maxPenalty_eq : ref.maxPenalty = t.1.maxPosePenalty := by
  have hkeys : t.1.entries.keys = ref.entries.keys := by
    apply keys_eq_of_isSome
    intro k
    rcases h.cases k with ⟨hst, hrs⟩ | ⟨st, rs, hst, hrs, -⟩
    · rw [hst, hrs]
    · rw [hst, hrs]
      rfl
  have hlength : ∀ e : ReplayEntries, e.entries.length = e.keys.length := by
    intro e
    unfold SortedMap.keys
    rw [length_map]
  unfold ReferenceList.maxPenalty maxPosePenalty
  rw [hlength, hlength, hkeys]

theorem insert {eng : DmlFoldEngine} {r : FoldResult} {ref' : ReferenceList}
    (hentries : eng.entries = t.1.entries.insert k st)
    (hentries' : ref'.entries = ref.entries.insert k rs)
    (hindex : eng.collateralIndex = ref'.collateralIndex)
    (hothers : ∀ x, x ≠ k → eng.blockPunished.lookup x = t.1.blockPunished.lookup x)
    (hmax : ∀ x, eng.blockPunished.lookup k = some x → 100 ≤ x)
    (hmembers : eng.membersFn = t.1.membersFn) (hmono : outgrown ⊆ outgrown')
    (hb : Bounded H (exact k) (k ∈ outgrown') (eng.blockPunished.lookup k) st rs) :
    Tracks H exact membersFn outgrown' (eng, r) ref' := by
  refine ⟨?_, hindex, ?_, hmembers.trans h.membersFn⟩
  · intro x
    rw [hentries, hentries', lookup_insert, lookup_insert]
    by_cases heq : x = k
    · subst heq
      rw [if_pos rfl, if_pos rfl]
      exact Option.Rel.some hb
    rw [if_neg heq, if_neg heq, hothers x heq]
    rcases h.cases x with ⟨hst, hrs⟩ | ⟨st', rs', hst, hrs, hb'⟩
    · rw [hst, hrs]
      exact Option.Rel.none
    · rw [hst, hrs]
      exact Option.Rel.some (hb'.mono fun hmem => hmono hmem)
  intro x y hy
  by_cases heq : x = k
  · subst heq
    exact hmax y hy
  dsimp only at hy
  rw [hothers x heq] at hy
  exact h.maxima x y hy

theorem removeMn (k : Uint256) (r : FoldResult) :
    Tracks H exact membersFn outgrown (t.1.removeMn k, r) (ref.remove k) := by
  unfold DmlFoldEngine.removeMn ReferenceList.remove
  rcases h.cases k with ⟨hst, hrs⟩ | ⟨st, rs, hst, hrs, hb⟩
  · rw [hst, hrs]
    exact { h with }
  rw [hst, hrs]
  have hcollateral : st.collateralOutpoint = rs.collateralOutpoint :=
    field_of_core (fun _ => rfl) hb.core
  refine ⟨?_, ?_, h.maxima, h.membersFn⟩
  · intro x
    dsimp only
    rw [lookup_erase, lookup_erase]
    split
    · exact Option.Rel.none
    · exact h.entries x
  · dsimp only
    rw [h.collateralIndex, hcollateral]

theorem spend (c : TxPrevOut) :
    (∀ k, t.1.collateralIndex.lookup c = some k →
        ∀ r, Tracks H exact membersFn outgrown (t.1.removeMn k, r) (ref.spend c)) ∧
      (t.1.collateralIndex.lookup c = none → ref.spend c = ref) := by
  unfold ReferenceList.spend
  rw [← h.collateralIndex]
  constructor
  · intro k hk r
    rw [hk]
    exact h.removeMn k r
  · intro hnone
    rw [hnone]

theorem mono (hmono : outgrown ⊆ outgrown') : Tracks H exact membersFn outgrown' t ref := by
  refine { h with entries := ?_ }
  intro k
  rcases h.cases k with ⟨hst, hrs⟩ | ⟨st, rs, hst, hrs, hb⟩
  · rw [hst, hrs]
    exact Option.Rel.none
  · rw [hst, hrs]
    exact Option.Rel.some (hb.mono fun hmem => hmono hmem)

end

end Tracks

/-! ## Special transactions -/

section Txs

variable {P : Type} {code : FoldCode P} {H : Int} {exact : Uint256 → Prop}
  {membersFn : Option (Fin (2 ^ 8) → Uint256 → Option (List Uint256))} {outgrown : List Uint256}
  {t t' : Folding} {ref : ReferenceList} {tx : Tx P} {p : ProUpServTx}

theorem registered_eq (eng : DmlFoldEngine) (k : Uint256) (p : ProRegTx) :
    (registered code H eng k p).core = (registered code H {} k p).core ∧
      (registered code H eng k p).nPoSeBanHeight = (registered code H {} k p).nPoSeBanHeight ∧
      (registered code H eng k p).collateralOutpoint =
        (registered code H {} k p).collateralOutpoint ∧
      (registered code H eng k p).nPoSePenalty = 0 ∧
      (registered code H eng k p).nPoSePenaltyHi = 0 := by
  unfold registered ReplayMNState.banIfNotBanned
  dsimp only
  split
  · split <;> exact ⟨rfl, rfl, rfl, rfl, rfl⟩
  · exact ⟨rfl, rfl, rfl, rfl, rfl⟩

theorem Tracks.foldProReg (h : Tracks H exact membersFn outgrown t ref) {p : ProRegTx}
    (hp : code.parseProReg tx.extraPayload = some p) (hstep : foldProReg code H t tx = .ok t') :
    Tracks H exact membersFn outgrown t' (ref.register code H tx p) := by
  unfold DmlFoldEngine.foldProReg at hstep
  unfold ReferenceList.register
  rw [hp] at hstep
  dsimp only at hstep ⊢
  split at hstep
  · cases hstep
  obtain ⟨hcore, hban, hcollateral, hlo, hhi⟩ :=
    @registered_eq P code H t.1 (code.computeTxHash tx) p
  obtain ⟨-, -, -, hzero, -⟩ := @registered_eq P code H {} (code.computeTxHash tx) p
  generalize registered code H t.1 (code.computeTxHash tx) p = st at *
  generalize registered code H {} (code.computeTxHash tx) p = rs at *
  have hreplaced : Tracks H exact membersFn outgrown
      (replaceCollateral t st.collateralOutpoint) (ref.spend rs.collateralOutpoint) := by
    obtain ⟨hholder, hfree⟩ := h.spend rs.collateralOutpoint
    unfold replaceCollateral
    rw [hcollateral]
    split
    · rename_i hnone
      rw [hfree hnone]
      exact h
    · rename_i old hold
      exact hholder old hold _
  split at hstep
  · cases hstep
  split at hstep
  · cases hstep
  split at hstep
  · cases hstep
  cases hstep
  refine hreplaced.insert rfl rfl ?_ (fun _ _ => rfl)
    (hreplaced.maxima (code.computeTxHash tx)) rfl (fun _ hx => hx) ?_
  · dsimp only
    rw [hreplaced.collateralIndex, hcollateral]
  refine bounded_of_zero hcore hban ⟨hlo, hhi⟩ hzero ?_
  intro x hx
  have hge := hreplaced.maxima _ x hx
  omega

theorem foldProUpServ_ok (hp : code.parseProUpServ tx.extraPayload = some p)
    (hstep : foldProUpServ code H t tx = .ok t') :
    ∃ st, t.1.entries.lookup p.proTxHash = some st ∧
      t'.1.entries = t.1.entries.insert p.proTxHash
        (serviceEntry H (t.1.blockPunished.lookup p.proTxHash) p st) ∧
      t'.1.collateralIndex = t.1.collateralIndex ∧
      t'.1.blockPunished = t.1.blockPunished ∧ t'.1.membersFn = t.1.membersFn := by
  unfold foldProUpServ at hstep
  rw [hp] at hstep
  dsimp only at hstep
  split at hstep
  · cases hstep
  split at hstep
  · cases hstep
  split at hstep
  · cases hstep
  rename_i st hst
  refine ⟨st, hst, ?_⟩
  split at hstep
  · cases hstep
  split at hstep
  · cases hstep
  have hwidened : (widenRevived t.1 p.proTxHash (updatedService p st)).2 =
      widenedEntry (t.1.blockPunished.lookup p.proTxHash) (updatedService p st) ∧
      (widenRevived t.1 p.proTxHash (updatedService p st)).1.entries = t.1.entries ∧
      (widenRevived t.1 p.proTxHash (updatedService p st)).1.collateralIndex = t.1.collateralIndex ∧
      (widenRevived t.1 p.proTxHash (updatedService p st)).1.blockPunished = t.1.blockPunished ∧
      (widenRevived t.1 p.proTxHash (updatedService p st)).1.membersFn = t.1.membersFn := by
    unfold widenRevived widenedEntry
    by_cases hopen : PunishedOpen t.1 p.proTxHash (updatedService p st)
    · rw [if_pos hopen, if_pos ⟨hopen.1, hopen.2.1, hopen.2.2⟩]
      exact ⟨rfl, rfl, rfl, rfl, rfl⟩
    · rw [if_neg hopen, if_neg (fun hw => hopen ⟨hw.1, hw.2.1, hw.2.2⟩)]
      exact ⟨rfl, rfl, rfl, rfl, rfl⟩
  obtain ⟨hentry, hentries, hindex, hpunished, hmembers⟩ := hwidened
  unfold serviceEntry
  rw [← hentry]
  split at hstep
  · cases hstep
    rename_i hrevivable
    rw [if_pos hrevivable]
    unfold touchEntry
    exact ⟨by rw [hentries], hindex, hpunished, hmembers⟩
  cases hstep
  rename_i hrevivable
  rw [if_neg hrevivable]
  unfold touchEntry
  exact ⟨by rw [hentries], hindex, hpunished, hmembers⟩

theorem Tracks.foldProUpServ (h : Tracks H exact membersFn outgrown t ref) (hH : H ≠ never)
    (hp : code.parseProUpServ tx.extraPayload = some p)
    (hin : p.proTxHash ∉ outgrown) (hstep : foldProUpServ code H t tx = .ok t') :
    Tracks H exact membersFn outgrown t'
      (ref.change p.proTxHash (ReferenceList.updateService H p)) := by
  obtain ⟨st, hst, hentries, hindex, hpunished, hmembers⟩ := foldProUpServ_ok hp hstep
  obtain ⟨rs, hrs, hb⟩ := h.exists_bounded hst
  unfold ReferenceList.change
  rw [hrs]
  refine h.insert hentries rfl (hindex.trans h.collateralIndex)
    (fun _ _ => by rw [hpunished]) ?_ hmembers (fun _ hx => hx) ?_
  · rw [hpunished]
    exact h.maxima p.proTxHash
  rw [hpunished]
  refine hb.updateService hH hin ?_ p
  intro x hx
  have hge := h.maxima p.proTxHash x hx
  omega

theorem core_resetOperatorFields (hcore : st.core = rs.core) :
    st.resetOperatorFields.core = rs.resetOperatorFields.core := by
  have hfactor : ∀ e : ReplayMNState, e.resetOperatorFields.core =
      { e.core with
        nVersion := legacyBls
        pubKeyOperator := 0
        netInfo := {}
        scriptOperatorPayout := []
        nRevocationReason := 0
        platformNodeID := 0 } := fun _ => rfl
  rw [hfactor, hfactor, hcore]

theorem Bounded.dropOperator {outgrown : Prop} {exact : Prop} {mx : Option Int}
    (h : Bounded H exact outgrown mx st rs) (hH : H ≠ never)
    {st' rs' : ReplayMNState} (hcore : st'.core = rs'.core)
    (hst : st'.nPoSePenalty = (st.resetOperatorFields.banIfNotBanned H).nPoSePenalty ∧
      st'.nPoSePenaltyHi = (st.resetOperatorFields.banIfNotBanned H).nPoSePenaltyHi ∧
      st'.nPoSeBanHeight = (st.resetOperatorFields.banIfNotBanned H).nPoSeBanHeight)
    (hrs : rs'.nPoSePenalty = (rs.resetOperatorFields.banIfNotBanned H).nPoSePenalty ∧
      rs'.nPoSeBanHeight = (rs.resetOperatorFields.banIfNotBanned H).nPoSeBanHeight) :
    Bounded H exact outgrown mx st' rs' := by
  obtain ⟨hlo, hhi, hban⟩ := hst
  obtain ⟨hp, hrban⟩ := hrs
  obtain ⟨hpenalty, hpenaltyHi⟩ := @nPoSePenalty_banIfNotBanned H st.resetOperatorFields
  obtain ⟨hrpenalty, -⟩ := @nPoSePenalty_banIfNotBanned H rs.resetOperatorFields
  refine h.ban hH hcore ⟨hlo.trans hpenalty, hhi.trans hpenaltyHi, ?_⟩ ⟨hp.trans hrpenalty, ?_⟩
  · rw [hban, nPoSeBanHeight_banIfNotBanned]
    rfl
  · rw [hrban, nPoSeBanHeight_banIfNotBanned]
    rfl

theorem core_dropOperator (hcore : st.core = rs.core) :
    (st.resetOperatorFields.banIfNotBanned H).core =
      (rs.resetOperatorFields.banIfNotBanned H).core := by
  rw [core_banIfNotBanned, core_banIfNotBanned, core_resetOperatorFields hcore]

theorem Tracks.foldProUpReg (h : Tracks H exact membersFn outgrown t ref) (hH : H ≠ never)
    {p : ProUpRegTx} (hp : code.parseProUpReg tx.extraPayload = some p)
    (hstep : foldProUpReg code H t tx = .ok t') :
    Tracks H exact membersFn outgrown t'
      (ref.change p.proTxHash (ReferenceList.updateRegistrar code H p)) := by
  unfold DmlFoldEngine.foldProUpReg at hstep
  unfold ReferenceList.change
  rw [hp] at hstep
  dsimp only at hstep
  split at hstep
  · cases hstep
  rename_i st hst
  obtain ⟨rs, hrs, hb⟩ := h.exists_bounded hst
  rw [hrs]
  split at hstep
  · cases hstep
  cases hstep
  refine h.insert rfl rfl h.collateralIndex (fun _ _ => rfl) (h.maxima p.proTxHash) rfl
    (fun _ hx => hx) ?_
  have hkey : st.pubKeyOperator = rs.pubKeyOperator := field_of_core (fun _ => rfl) hb.core
  unfold ReferenceList.updateRegistrar
  rw [hkey]
  dsimp only
  split
  · refine hb.congr ?_ ⟨rfl, rfl, rfl⟩ ⟨rfl, rfl⟩
    have hfactor : ∀ e : ReplayMNState,
        ReplayMNState.core { e with keyIDVoting := p.keyIDVoting, scriptPayout := p.scriptPayout } =
          { e.core with keyIDVoting := p.keyIDVoting, scriptPayout := p.scriptPayout } :=
      fun _ => rfl
    rw [hfactor, hfactor, hb.core]
  refine hb.dropOperator hH ?_ ⟨rfl, rfl, rfl⟩ ⟨rfl, rfl⟩
  have hfactor : ∀ e : ReplayMNState,
      ReplayMNState.core { changedOperator code H p e with
          keyIDVoting := p.keyIDVoting, scriptPayout := p.scriptPayout } =
        { (e.resetOperatorFields.banIfNotBanned H).core with
          nVersion :=
            if basicBls < (e.resetOperatorFields.banIfNotBanned H).core.nVersion then
              (e.resetOperatorFields.banIfNotBanned H).core.nVersion
            else p.nVersion
          pubKeyOperator := code.opkeyToBasic p.pubKeyOperator (p.nVersion < basicBls)
          keyIDVoting := p.keyIDVoting
          scriptPayout := p.scriptPayout } := fun _ => rfl
  rw [hfactor, hfactor, core_dropOperator hb.core]

theorem Tracks.foldProUpRev (h : Tracks H exact membersFn outgrown t ref) (hH : H ≠ never)
    {p : ProUpRevTx} (hp : code.parseProUpRev tx.extraPayload = some p)
    (hstep : foldProUpRev code H t tx = .ok t') :
    Tracks H exact membersFn outgrown t'
      (ref.change p.proTxHash (ReferenceList.revoke H p)) := by
  unfold DmlFoldEngine.foldProUpRev at hstep
  unfold ReferenceList.change
  rw [hp] at hstep
  dsimp only at hstep
  split at hstep
  · cases hstep
  rename_i st hst
  obtain ⟨rs, hrs, hb⟩ := h.exists_bounded hst
  rw [hrs]
  cases hstep
  refine h.insert rfl rfl h.collateralIndex (fun _ _ => rfl) (h.maxima p.proTxHash) rfl
    (fun _ hx => hx) ?_
  refine hb.dropOperator hH ?_ ⟨rfl, rfl, rfl⟩ ⟨rfl, rfl⟩
  have hfactor : ∀ e : ReplayMNState,
      ReplayMNState.core { e.resetOperatorFields.banIfNotBanned H with
          nRevocationReason := p.nReason } =
        { (e.resetOperatorFields.banIfNotBanned H).core with nRevocationReason := p.nReason } :=
    fun _ => rfl
  refine (hfactor st).trans (Eq.trans ?_ (hfactor rs).symm)
  rw [core_dropOperator hb.core]

/-! ## Commitments -/

/-- The ban of a masternode is open, and a punish would now leave its upper bound below the
maximum, which has grown since the last one. -/
def Outgrows (eng : DmlFoldEngine) (k : Uint256) : Prop :=
  ∃ st ∈ eng.entries.lookup k, st.isBanned = false ∧
    ∃ x ∈ eng.blockPunished.lookup k, x ≤ st.nPoSePenaltyHi ∧
      st.nPoSePenaltyHi + calcPenalty eng.maxPosePenalty 66 < eng.maxPosePenalty

instance (eng : DmlFoldEngine) (k : Uint256) : Decidable (Outgrows eng k) :=
  inferInstanceAs (Decidable (∃ _ ∈ _, _))

def outgrownMembers (eng : DmlFoldEngine) (members : List (Uint256 × Bool)) : List Uint256 :=
  (members.filter fun m : Uint256 × Bool => !m.2 && decide (Outgrows eng m.1)).map Prod.fst

theorem posePunish_spec (t : Folding) (k : Uint256) (st : ReplayMNState) :
    (posePunish H t k st (calcPenalty t.1.maxPosePenalty 66)).1.entries =
        t.1.entries.insert k (punishedEntry H t.1.maxPosePenalty st) ∧
      (posePunish H t k st (calcPenalty t.1.maxPosePenalty 66)).1.collateralIndex =
        t.1.collateralIndex ∧
      (posePunish H t k st (calcPenalty t.1.maxPosePenalty 66)).1.blockPunished =
        (if st.isBanned then t.1.blockPunished
          else t.1.blockPunished.insert k t.1.maxPosePenalty) ∧
      (posePunish H t k st (calcPenalty t.1.maxPosePenalty 66)).1.membersFn = t.1.membersFn := by
  unfold posePunish punishedEntry touchEntry
  dsimp only
  split
  · split
    · exact ⟨rfl, rfl, rfl, rfl⟩
    · exact ⟨rfl, rfl, rfl, rfl⟩
  split
  · exact ⟨rfl, rfl, rfl, rfl⟩
  · exact ⟨rfl, rfl, rfl, rfl⟩

theorem maxPosePenalty_insert {eng eng' : DmlFoldEngine} {st new : ReplayMNState}
    (hst : eng.entries.lookup k = some st) (hentries : eng'.entries = eng.entries.insert k new) :
    eng'.maxPosePenalty = eng.maxPosePenalty := by
  have hkeys : eng'.entries.keys = eng.entries.keys := by
    apply keys_eq_of_isSome
    intro x
    rw [hentries]
    exact lookup_isSome_insert hst new x
  have hlength : ∀ e : ReplayEntries, e.entries.length = e.keys.length := by
    intro e
    unfold SortedMap.keys
    rw [length_map]
  unfold maxPosePenalty
  rw [hlength, hlength, hkeys]

theorem Tracks.punishMembers (members : List (Uint256 × Bool)) (hH : H ≠ never)
    {before : DmlFoldEngine} (h : Tracks H exact membersFn outgrown t ref)
    (hM : t.1.maxPosePenalty = before.maxPosePenalty)
    (hlast : ∀ k, (t.1.entries.lookup k = before.entries.lookup k ∧
        t.1.blockPunished.lookup k = before.blockPunished.lookup k) ∨
      t.1.blockPunished.lookup k = some before.maxPosePenalty ∨
      ∀ st ∈ t.1.entries.lookup k, st.isBanned = true)
    (hgrown : ∀ m ∈ members, m.2 = false → Outgrows before m.1 → m.1 ∈ outgrown) :
    Tracks H exact membersFn outgrown (punishMembers H t members) (ref.punish H members) := by
  induction members generalizing t ref with
  | nil => exact h
  | cons m members ih =>
    unfold DmlFoldEngine.punishMembers ReferenceList.punish
    rw [foldl_cons, foldl_cons]
    have hrest : ∀ m' ∈ members, m'.2 = false → Outgrows before m'.1 → m'.1 ∈ outgrown :=
      fun m' hm' => hgrown m' (mem_cons_of_mem m hm')
    rcases h.cases m.1 with ⟨hst, hrs⟩ | ⟨st, rs, hst, hrs, hb⟩
    · rw [hst, hrs]
      exact ih h hM hlast hrest
    rw [hst, hrs]
    dsimp only
    cases hbit : m.2 with
    | true => exact ih h hM hlast hrest
    | false =>
      rw [if_neg Bool.false_ne_true, if_neg Bool.false_ne_true]
      have hmax : 100 ≤ t.1.maxPosePenalty := calcMaxPosePenalty_ge _
      obtain ⟨hentries, hindex, hpunished, hmembers⟩ := @posePunish_spec H t m.1 st
      have hlookup : ∀ x,
          (posePunish H t m.1 st (calcPenalty t.1.maxPosePenalty 66)).1.blockPunished.lookup x =
            if x = m.1 ∧ st.isBanned = false then some before.maxPosePenalty
            else t.1.blockPunished.lookup x := by
        intro x
        rw [hpunished]
        cases hbanned : st.isBanned with
        | true =>
          rw [if_pos rfl, if_neg (fun hx => Bool.false_ne_true hx.2.symm)]
        | false =>
          rw [if_neg Bool.false_ne_true, lookup_insert, hM]
          by_cases heq : x = m.1
          · rw [if_pos heq, if_pos ⟨heq, rfl⟩]
          · rw [if_neg heq, if_neg (fun hx => heq hx.1)]
      generalize posePunish H t m.1 st (calcPenalty t.1.maxPosePenalty 66) = t₁ at *
      refine ih ?_ ((maxPosePenalty_insert hst hentries).trans hM) ?_ hrest
      · refine h.insert hentries rfl (hindex.trans h.collateralIndex) ?_ ?_ hmembers
          (fun _ hx => hx) ?_
        · intro x hx
          rw [hlookup, if_neg (fun hx' => hx hx'.1)]
        · intro x hx
          rw [hlookup] at hx
          split at hx
          · cases hx
            omega
          · exact h.maxima m.1 x hx
        · have hmax' : ref.maxPenalty = t.1.maxPosePenalty := h.maxPenalty_eq
          have hmx : t₁.1.blockPunished.lookup m.1 =
              if st.isBanned then t.1.blockPunished.lookup m.1
              else some t.1.maxPosePenalty := by
            rw [hlookup, hM]
            cases st.isBanned <;> simp
          rw [hmx, hmax']
          refine hb.punish hmax hH id ?_
          intro hfree x hx hopen hgrow
          have hpenalty := calcPenalty_eq hmax
          rcases hlast m.1 with ⟨hsame, hbefore⟩ | hnow | hbanned
          · refine hgrown m mem_cons_self hbit ⟨st, ?_, hfree, x, ?_, hopen, ?_⟩
            · rw [← hsame]
              exact hst
            · rw [← hbefore]
              exact hx
            · rw [← hM]
              exact hgrow
          · rw [hnow] at hx
            cases hx
            omega
          · rw [hbanned st hst] at hfree
            cases hfree
      · intro k
        rw [hlookup, hentries, lookup_insert]
        by_cases heq : k = m.1
        · subst heq
          cases hbanned : st.isBanned with
          | false =>
            right
            left
            rw [if_pos ⟨rfl, rfl⟩]
          | true =>
            right
            right
            intro st' hst'
            rw [if_pos rfl] at hst'
            cases hst'
            rw [punishedEntry_of_banned hbanned]
            exact hbanned
        · rw [if_neg heq, if_neg (fun hk => heq hk.1)]
          exact hlast k

theorem punish_of_valid {members : List (Uint256 × Bool)} (hvalid : ∀ m ∈ members, m.2 = true)
    (ref : ReferenceList) : ref.punish H members = ref := by
  unfold ReferenceList.punish
  induction members with
  | nil => rfl
  | cons m members ih =>
    rw [foldl_cons]
    have hrest := ih fun m' hm' => hvalid m' (mem_cons_of_mem m hm')
    cases ref.entries.lookup m.1 with
    | none => exact hrest
    | some rs =>
      dsimp only
      rw [if_pos (hvalid m mem_cons_self)]
      exact hrest

theorem Tracks.foldQfcommit (h : Tracks H exact membersFn outgrown t ref) (hH : H ≠ never)
    (hstep : foldQfcommit code H t tx = .ok t') :
    Tracks H exact membersFn
      (outgrown ++ outgrownMembers t.1 (ReferenceList.commitmentMembers code membersFn tx)) t'
      (ref.punish H (ReferenceList.commitmentMembers code membersFn tx)) := by
  have hall := h.mono (subset_append_left outgrown
    (outgrownMembers t.1 (ReferenceList.commitmentMembers code membersFn tx)))
  unfold DmlFoldEngine.foldQfcommit at hstep
  split at hstep
  · cases hstep
  rename_i c hc
  split at hstep
  · rename_i hnull
    cases hstep
    have hmembers : ReferenceList.commitmentMembers code membersFn tx = [] := by
      unfold ReferenceList.commitmentMembers
      rw [hc]
      exact if_pos hnull
    rw [hmembers] at hall ⊢
    exact hall
  rename_i hnull
  split at hstep
  · rename_i hcount
    cases hstep
    rw [punish_of_valid]
    · exact hall
    intro m hm
    unfold ReferenceList.commitmentMembers at hm
    rw [hc] at hm
    dsimp only at hm
    rw [if_neg hnull] at hm
    split at hm
    · cases hm
    · have hbit := (of_mem_zip hm).2
      exact (count_eq_length.mp hcount m.2 hbit).symm
  split at hstep
  · cases hstep
  rename_i resolve hresolve
  split at hstep
  · cases hstep
  rename_i members hmembers
  split at hstep
  · cases hstep
  cases hstep
  have heq : ReferenceList.commitmentMembers code membersFn tx = members.zip c.validMembers := by
    unfold ReferenceList.commitmentMembers
    rw [hc, ← h.membersFn, hresolve]
    dsimp only
    rw [if_neg hnull, Option.bind_some, hmembers]
  rw [heq] at hall ⊢
  refine hall.punishMembers _ hH rfl (fun _ => Or.inl ⟨rfl, rfl⟩) ?_
  intro m hm hbit hgrows
  refine mem_append_right _ (mem_map.mpr ⟨m, ?_, rfl⟩)
  rw [mem_filter, hbit]
  exact ⟨hm, decide_eq_true hgrows⟩

def outgrownBy (code : FoldCode P) (t : Folding) (tx : Tx P) : List Uint256 :=
  if txHasExtraPayload tx.version tx.type ∧ tx.type.val = 6 then
    outgrownMembers t.1 (ReferenceList.commitmentMembers code t.1.membersFn tx)
  else []

def ServesOutgrown (code : FoldCode P) (outgrown : List Uint256) (tx : Tx P) : Prop :=
  txHasExtraPayload tx.version tx.type ∧ tx.type.val = 2 ∧
    ∃ p ∈ code.parseProUpServ tx.extraPayload, p.proTxHash ∈ outgrown

def Tame (code : FoldCode P) (H : Int) : Folding → List Uint256 → List (Tx P) → Prop
  | _, _, [] => True
  | t, outgrown, tx :: txs =>
    ¬ ServesOutgrown code outgrown tx ∧
      match foldTx code H t tx with
      | .error _ => True
      | .ok t' => Tame code H t' (outgrown ++ outgrownBy code t tx) txs

theorem Tracks.foldTx (h : Tracks H exact membersFn outgrown t ref) (hH : H ≠ never)
    (htame : ¬ ServesOutgrown code outgrown tx) (hstep : foldTx code H t tx = .ok t') :
    Tracks H exact membersFn (outgrown ++ outgrownBy code t tx) t'
      (ref.applyTx code H membersFn tx) := by
  unfold DmlFoldEngine.foldTx at hstep
  split at hstep
  · rename_i hplain
    cases hstep
    unfold ReferenceList.applyTx
    rw [if_pos hplain]
    exact h.mono (subset_append_left _ _)
  rename_i hpayload
  have hspecial : txHasExtraPayload tx.version tx.type := not_not.mp hpayload
  unfold outgrownBy
  split at hstep
  · rename_i htype
    unfold ReferenceList.applyTx
    rw [if_neg hpayload, htype]
    cases hp : code.parseProReg tx.extraPayload with
    | none =>
      unfold DmlFoldEngine.foldProReg at hstep
      rw [hp] at hstep
      cases hstep
    | some p => exact (h.foldProReg hp hstep).mono (subset_append_left _ _)
  · rename_i htype
    unfold ReferenceList.applyTx
    rw [if_neg hpayload, htype]
    cases hp : code.parseProUpServ tx.extraPayload with
    | none =>
      unfold DmlFoldEngine.foldProUpServ at hstep
      rw [hp] at hstep
      cases hstep
    | some p =>
      refine (h.foldProUpServ hH hp ?_ hstep).mono (subset_append_left _ _)
      intro hmem
      exact htame ⟨hspecial, htype, p, hp, hmem⟩
  · rename_i htype
    unfold ReferenceList.applyTx
    rw [if_neg hpayload, htype]
    cases hp : code.parseProUpReg tx.extraPayload with
    | none =>
      unfold DmlFoldEngine.foldProUpReg at hstep
      rw [hp] at hstep
      cases hstep
    | some p => exact (h.foldProUpReg hH hp hstep).mono (subset_append_left _ _)
  · rename_i htype
    unfold ReferenceList.applyTx
    rw [if_neg hpayload, htype]
    cases hp : code.parseProUpRev tx.extraPayload with
    | none =>
      unfold DmlFoldEngine.foldProUpRev at hstep
      rw [hp] at hstep
      cases hstep
    | some p => exact (h.foldProUpRev hH hp hstep).mono (subset_append_left _ _)
  · rename_i htype
    unfold ReferenceList.applyTx
    rw [if_neg hpayload, htype, if_pos ⟨hspecial, rfl⟩, h.membersFn]
    exact h.foldQfcommit hH hstep
  · rename_i hreg hserv hupreg hrev hcommit
    cases hstep
    unfold ReferenceList.applyTx
    rw [if_neg hpayload, if_neg (fun hspecial => hcommit hspecial.2)]
    split
    · exact absurd ‹_› hreg
    · exact absurd ‹_› hserv
    · exact absurd ‹_› hupreg
    · exact absurd ‹_› hrev
    · exact absurd ‹_› hcommit
    · exact h.mono (subset_append_left _ _)

theorem Tracks.foldTxs {height : U32} (txs : List (Tx P × Nat)) (hH : H ≠ never)
    (h : Tracks H exact membersFn outgrown t ref)
    (htame : Tame code H t outgrown (txs.map Prod.fst))
    (hstep : DmlFoldEngine.foldTxs code H height t txs = .ok t') :
    ∃ outgrown', Tracks H exact membersFn outgrown' t'
      ((txs.map Prod.fst).foldl (ReferenceList.applyTx code H membersFn) ref) := by
  induction txs generalizing t ref outgrown with
  | nil =>
    cases hstep
    exact ⟨outgrown, h⟩
  | cons tx txs ih =>
    unfold DmlFoldEngine.foldTxs at hstep
    rw [foldlM_cons] at hstep
    obtain ⟨hserves, hrest⟩ := htame
    cases hone : DmlFoldEngine.foldTx code H t tx.1 with
    | error e =>
      rw [hone] at hstep
      cases hstep
    | ok t₁ =>
      rw [hone] at hstep hrest
      exact ih (h.foldTx hH hserves hone) hrest hstep

end Txs

end C2Pool.Dash
