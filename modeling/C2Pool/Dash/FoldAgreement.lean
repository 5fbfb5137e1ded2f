import C2Pool.Dash.FoldRoot
import C2Pool.Dash.PayeeQueue

/-! # The two list machines

`MnStateMachine` and `DmlFoldEngine` fold the same blocks independently.  They are
kept in one relation over the special transactions, the spends and the payment of
every block that the fold accepts.
-/

namespace C2Pool.Dash

open List DmlFoldEngine SortedMap

/-- A height of the fold, `NEVER` when there is none, and of the state machine, 0 when there is
none. -/
def SameHeight (replay : Int) (held : U32) : Prop :=
  replay = never ∧ held = 0 ∨ 0 < replay ∧ replay = held.val ∧ held.val < 2 ^ 31

/-- What the two machines hold of one masternode. -/
structure SameEntry (st : MNState) (rs : ReplayMNState) : Prop where
  nType : st.nType = Fin.ofNat (2 ^ 8) rs.nType.val
  collateralOutpoint : st.collateralOutpoint = rs.collateralOutpoint
  keyIDOwner : st.keyIDOwner = rs.keyIDOwner
  pubKeyOperator : st.pubKeyOperator = rs.pubKeyOperator
  keyIDVoting : st.keyIDVoting = rs.keyIDVoting
  nOperatorReward : st.nOperatorReward = rs.nOperatorReward
  scriptPayout : st.scriptPayout = rs.scriptPayout
  scriptOperatorPayout : st.scriptOperatorPayout = rs.scriptOperatorPayout
  nRegisteredHeight : SameHeight rs.nRegisteredHeight st.nRegisteredHeight
  nLastPaidHeight : rs.nLastPaidHeight = st.nLastPaidHeight.val ∧ st.nLastPaidHeight.val < 2 ^ 31
  nPoSeRevivedHeight : SameHeight rs.nPoSeRevivedHeight st.nPoSeRevivedHeight
  isValid : st.isValid = !rs.isBanned
  nPoSeBanHeight : st.nPoSeBanHeight = 0 ↔ rs.isBanned = false

/-- The two lists and their collateral indexes; `reg` is the collateral and the type that the
registration with a hash has. -/
structure SameLists (reg : Uint256 → TxPrevOut × U16) (m : MnStateMachine) (eng : DmlFoldEngine) :
    Prop where
  entries : ∀ h, Option.Rel SameEntry (m.entries.lookup h) (eng.entries.lookup h)
  registered : ∀ h rs, eng.entries.lookup h = some rs → (rs.collateralOutpoint, rs.nType) = reg h
  indexed : ∀ c h, eng.collateralIndex.lookup c = some h ↔
    ∃ rs, eng.entries.lookup h = some rs ∧ rs.collateralOutpoint = c
  collateralIndex : m.collateralIndex = eng.collateralIndex

section Entries

variable {height : U32}

theorem toInt32_of_pos (h : 0 < toInt32 height) :
    toInt32 height = height.val ∧ height.val < 2 ^ 31 := by
  unfold toInt32 at h ⊢
  split at h
  · rename_i hsmall
    rw [if_pos hsmall]
    exact ⟨rfl, hsmall⟩
  · omega

theorem sameHeight_toInt32 (h : 0 < toInt32 height) : SameHeight (toInt32 height) height := by
  obtain ⟨heq, hlt⟩ := toInt32_of_pos h
  exact Or.inr ⟨h, heq, hlt⟩

theorem ne_zero_of_pos (h : 0 < toInt32 height) : height ≠ 0 := by
  rintro rfl
  exact absurd h (by decide)

theorem never_ne_of_pos {H : Int} (h : 0 < H) : H ≠ never := by
  unfold never
  omega

theorem SameEntry.firstPayoutScript {st : MNState} {rs : ReplayMNState} (h : SameEntry st rs) :
    st.firstPayoutScript = rs.firstPayoutScript := by
  unfold MNState.firstPayoutScript ReplayMNState.firstPayoutScript
  rw [h.nOperatorReward, h.scriptOperatorPayout, h.scriptPayout]

theorem SameEntry.eligible_iff {st : MNState} {rs : ReplayMNState} (h : SameEntry st rs) :
    st.Eligible ↔ rs.isBanned = false := by
  unfold MNState.Eligible
  rw [h.isValid]
  constructor
  · rintro ⟨hvalid, -⟩
    simpa using hvalid
  intro hfree
  rw [h.nPoSeBanHeight.mpr hfree, hfree]
  exact ⟨rfl, by decide⟩

theorem SameEntry.payeeScore {st : MNState} {rs : ReplayMNState} (h : SameEntry st rs) :
    rs.compareByLastPaidHeight = never ∧ st.payeeScore = 0 ∨
      0 < rs.compareByLastPaidHeight ∧ rs.compareByLastPaidHeight = st.payeeScore := by
  have hsmall : ∀ v : U32, v.val < 2 ^ 31 → saneHeight v = v ∧ toInt32 v = v.val := by
    intro v hv
    unfold saneHeight toInt32
    rw [if_neg (by omega), if_pos hv]
    exact ⟨rfl, rfl⟩
  have hheight : ∀ {replay : Int} {held : U32}, SameHeight replay held → held.val < 2 ^ 31 := by
    rintro replay held (⟨-, rfl⟩ | ⟨-, -, hlt⟩)
    · decide
    · exact hlt
  obtain ⟨hpaid, hpaidlt⟩ := h.nLastPaidHeight
  obtain ⟨hpaidsane, hpaidint⟩ := hsmall _ hpaidlt
  obtain ⟨hrevsane, hrevint⟩ := hsmall _ (hheight h.nPoSeRevivedHeight)
  obtain ⟨-, hregint⟩ := hsmall _ (hheight h.nRegisteredHeight)
  have hval : ∀ {replay : Int} {held : U32}, SameHeight replay held →
      replay = -1 ∧ held.val = 0 ∨ 0 < replay ∧ replay = held.val := by
    rintro replay held (⟨hnever, rfl⟩ | ⟨hpos, heq, -⟩)
    · exact Or.inl ⟨hnever, rfl⟩
    · exact Or.inr ⟨hpos, heq⟩
  have hrev := hval h.nPoSeRevivedHeight
  have hreg := hval h.nRegisteredHeight
  have hne : st.nPoSeRevivedHeight ≠ 0 ↔ st.nPoSeRevivedHeight.val ≠ 0 := not_congr Fin.ext_iff
  unfold MNState.payeeScore ReplayMNState.compareByLastPaidHeight never
  simp only [hpaidsane, hpaidint, hrevsane, hrevint, hregint, hpaid, hne]
  split_ifs <;> omega

end Entries

/-! ## Changes to both lists -/

variable {st st' : MNState} {rs rs' : ReplayMNState} {H : Int}

namespace SameLists

variable {reg : Uint256 → TxPrevOut × U16} {m m' : MnStateMachine} {eng eng' : DmlFoldEngine}

section

variable (h : SameLists reg m eng) {k : Uint256}
include h

theorem cases (k : Uint256) :
    (m.entries.lookup k = none ∧ eng.entries.lookup k = none) ∨
      ∃ st rs, m.entries.lookup k = some st ∧ eng.entries.lookup k = some rs ∧ SameEntry st rs := by
  have hrel := h.entries k
  cases hm : m.entries.lookup k with
  | none =>
    cases heng : eng.entries.lookup k with
    | none => exact Or.inl ⟨rfl, rfl⟩
    | some rs =>
      rw [hm, heng] at hrel
      cases hrel
  | some st =>
    cases heng : eng.entries.lookup k with
    | none =>
      rw [hm, heng] at hrel
      cases hrel
    | some rs =>
      rw [hm, heng] at hrel
      cases hrel with
      | some hsame => exact Or.inr ⟨st, rs, rfl, rfl, hsame⟩

theorem exists_same (hrs : eng.entries.lookup k = some rs) :
    ∃ st, m.entries.lookup k = some st ∧ SameEntry st rs := by
  rcases h.cases k with ⟨-, hnone⟩ | ⟨st, rs', hst, hrs', hsame⟩
  · rw [hnone] at hrs
    cases hrs
  rw [hrs'] at hrs
  cases hrs
  exact ⟨st, hst, hsame⟩

theorem congr (hentries : m'.entries = m.entries)
    (hindex : m'.collateralIndex = m.collateralIndex) (hentries' : eng'.entries = eng.entries)
    (hindex' : eng'.collateralIndex = eng.collateralIndex) : SameLists reg m' eng' := by
  refine ⟨?_, ?_, ?_, ?_⟩
  · rw [hentries, hentries']
    exact h.entries
  · rw [hentries']
    exact h.registered
  · rw [hentries', hindex']
    exact h.indexed
  · rw [hindex, hindex']
    exact h.collateralIndex

theorem update (hrs : eng.entries.lookup k = some rs) (hsame : SameEntry st' rs')
    (hcollateral : rs'.collateralOutpoint = rs.collateralOutpoint)
    (htype : rs'.nType = rs.nType) (hentries : m'.entries = m.entries.insert k st')
    (hindex : m'.collateralIndex = m.collateralIndex)
    (hentries' : eng'.entries = eng.entries.insert k rs')
    (hindex' : eng'.collateralIndex = eng.collateralIndex) : SameLists reg m' eng' := by
  have hlookup : ∀ x, eng'.entries.lookup x = if x = k then some rs' else eng.entries.lookup x := by
    intro x
    rw [hentries', lookup_insert]
  refine ⟨?_, ?_, ?_, ?_⟩
  · intro x
    rw [hlookup, hentries, lookup_insert]
    split
    · exact Option.Rel.some hsame
    · exact h.entries x
  · intro x r hr
    rw [hlookup] at hr
    split at hr
    · rename_i heq
      cases hr
      rw [hcollateral, htype, heq]
      exact h.registered k rs hrs
    · exact h.registered x r hr
  · intro c x
    rw [hindex', h.indexed c x, hlookup]
    by_cases heq : x = k
    · subst heq
      rw [if_pos rfl, hrs]
      constructor
      · rintro ⟨r, hr, hc⟩
        cases hr
        exact ⟨rs', rfl, hcollateral.trans hc⟩
      rintro ⟨r, hr, hc⟩
      cases hr
      exact ⟨rs, rfl, hcollateral.symm.trans hc⟩
    · rw [if_neg heq]
  · rw [hindex, hindex']
    exact h.collateralIndex

theorem remove {k : Uint256} {c : TxPrevOut}
    (hholder : eng.collateralIndex.lookup c = some k) (hentries : m'.entries = m.entries.erase k)
    (hindex : m'.collateralIndex = m.collateralIndex.erase c) :
    SameLists reg m' (eng.removeMn k) := by
  obtain ⟨rs, hrs, hc⟩ := (h.indexed c k).mp hholder
  have hremoved : eng.removeMn k =
      { eng with
        collateralIndex := eng.collateralIndex.erase c
        entries := eng.entries.erase k
        smlStructural := true } := by
    unfold removeMn
    rw [hrs]
    dsimp only
    rw [hc]
  rw [hremoved]
  refine ⟨?_, ?_, ?_, ?_⟩
  · intro x
    rw [hentries, lookup_erase, lookup_erase]
    split
    · exact Option.Rel.none
    · exact h.entries x
  · intro x r hr
    rw [lookup_erase] at hr
    split at hr
    · cases hr
    · exact h.registered x r hr
  · intro c' x
    rw [lookup_erase, lookup_erase]
    by_cases hsame : c' = c
    · subst hsame
      rw [if_pos rfl]
      constructor
      · intro hnone
        cases hnone
      rintro ⟨r, hr, hrc⟩
      split at hr
      · cases hr
      rename_i hne
      have hx := (h.indexed c' x).mpr ⟨r, hr, hrc⟩
      rw [hholder] at hx
      cases hx
      exact absurd rfl hne
    rw [if_neg hsame, h.indexed c' x]
    by_cases heq : x = k
    · subst heq
      rw [if_pos rfl, hrs]
      constructor
      · rintro ⟨r, hr, hrc⟩
        cases hr
        exact absurd (hrc.symm.trans hc) hsame
      · rintro ⟨r, hr, -⟩
        cases hr
    · rw [if_neg heq]
  · rw [hindex, h.collateralIndex]

theorem register (hfree : eng.collateralIndex.lookup rs.collateralOutpoint = none)
    (hreg : reg k = (rs.collateralOutpoint, rs.nType)) (hsame : SameEntry st rs)
    (hentries : m'.entries = Dash.emplace m.entries k st)
    (hindex : m'.collateralIndex = m.collateralIndex.insert rs.collateralOutpoint k)
    (hentries' : eng'.entries = eng.entries.insert k rs)
    (hindex' : eng'.collateralIndex = eng.collateralIndex.insert rs.collateralOutpoint k) :
    SameLists reg m' eng' := by
  have hnew : eng.entries.lookup k = none := by
    cases hk : eng.entries.lookup k with
    | none => rfl
    | some r =>
      have hr := h.registered k r hk
      rw [hreg, Prod.mk.injEq] at hr
      have hindexed := (h.indexed rs.collateralOutpoint k).mpr ⟨r, hk, hr.1⟩
      rw [hfree] at hindexed
      cases hindexed
  have hnew' : m.entries.lookup k = none := by
    rcases h.cases k with ⟨hnone, -⟩ | ⟨st', rs', -, hrs', -⟩
    · exact hnone
    · rw [hnew] at hrs'
      cases hrs'
  have hemplace : Dash.emplace m.entries k st = m.entries.insert k st := by
    unfold Dash.emplace
    rw [hnew']
  have hlookup : ∀ x, eng'.entries.lookup x = if x = k then some rs else eng.entries.lookup x := by
    intro x
    rw [hentries', lookup_insert]
  refine ⟨?_, ?_, ?_, ?_⟩
  · intro x
    rw [hlookup, hentries, hemplace, lookup_insert]
    split
    · exact Option.Rel.some hsame
    · exact h.entries x
  · intro x r hr
    rw [hlookup] at hr
    split at hr
    · rename_i heq
      cases hr
      rw [heq, hreg]
    · exact h.registered x r hr
  · intro c x
    rw [hindex', lookup_insert, hlookup]
    by_cases hc : c = rs.collateralOutpoint
    · rw [if_pos hc]
      constructor
      · intro hx
        cases hx
        exact ⟨rs, by rw [if_pos rfl], hc.symm⟩
      rintro ⟨r, hr, hrc⟩
      split at hr
      · rename_i heq
        rw [heq]
      have hx := (h.indexed c x).mpr ⟨r, hr, hrc⟩
      rw [hc, hfree] at hx
      cases hx
    rw [if_neg hc, h.indexed c x]
    by_cases heq : x = k
    · subst heq
      rw [if_pos rfl, hnew]
      constructor
      · rintro ⟨r, hr, -⟩
        cases hr
      rintro ⟨r, hr, hrc⟩
      cases hr
      exact absurd hrc.symm hc
    · rw [if_neg heq]
  · rw [hindex, hindex', h.collateralIndex]

/-- The fold rewrites what the state machine does not hold. -/
theorem mapValues {f : Uint256 → ReplayMNState → ReplayMNState}
    (hentries : eng'.entries = eng.entries.mapValues f)
    (hindex : eng'.collateralIndex = eng.collateralIndex)
    (hsame : ∀ k st rs, SameEntry st rs → SameEntry st (f k rs))
    (hcollateral : ∀ k rs, (f k rs).collateralOutpoint = rs.collateralOutpoint)
    (htype : ∀ k rs, (f k rs).nType = rs.nType) : SameLists reg m eng' := by
  have hlookup : ∀ x, eng'.entries.lookup x = (eng.entries.lookup x).map (f x) := by
    intro x
    rw [hentries, lookup_mapValues]
  refine ⟨?_, ?_, ?_, ?_⟩
  · intro x
    rw [hlookup]
    rcases h.cases x with ⟨hm, heng⟩ | ⟨st, rs, hm, heng, hrel⟩
    · rw [hm, heng]
      exact Option.Rel.none
    · rw [hm, heng]
      exact Option.Rel.some (hsame x st rs hrel)
  · intro x r hr
    rw [hlookup] at hr
    obtain ⟨rs, hrs, rfl⟩ := Option.map_eq_some_iff.mp hr
    rw [hcollateral, htype]
    exact h.registered x rs hrs
  · intro c x
    rw [hindex, h.indexed c x, hlookup]
    constructor
    · rintro ⟨r, hr, hc⟩
      exact ⟨f x r, by rw [hr]; rfl, (hcollateral x r).trans hc⟩
    rintro ⟨r, hr, hc⟩
    obtain ⟨rs, hrs, rfl⟩ := Option.map_eq_some_iff.mp hr
    exact ⟨rs, hrs, (hcollateral x rs).symm.trans hc⟩
  · rw [hindex]
    exact h.collateralIndex

end

end SameLists

/-! ## Special transactions -/

def collateralOf (proTxHash : Uint256) (p : ProRegTx) : TxPrevOut :=
  if (ofLex p.collateralOutpoint).1 = 0 then toLex (proTxHash, (ofLex p.collateralOutpoint).2)
  else p.collateralOutpoint

/-- Both machines after the same transactions: the fold has punished nobody and keeps its
configuration and the payee of the block. -/
structure Folds (reg : Uint256 → TxPrevOut × U16) (cfg : FoldConfig) (payee : Option Uint256)
    (s : Applying) (t : Folding) : Prop where
  lists : SameLists reg s.1 t.1
  unpunished : t.1.blockPunished = ∅
  cfg : t.1.cfg = cfg
  payee : t.2.payee = payee

section Txs

variable {P : Type} {code : FoldCode P} {height : U32} {reg : Uint256 → TxPrevOut × U16}
  {cfg : FoldConfig} {payee : Option Uint256} {s : Applying} {t t' : Folding} {tx : Tx P}

theorem isEmpty_canonical (s : LegacyNetService) : s.canonical.IsEmpty ↔ s.IsEmpty := by
  unfold LegacyNetService.canonical
  split
  · rename_i h
    exact ⟨fun _ => h, fun _ => by decide⟩
  · exact Iff.rfl

theorem banIfNotBanned_of_free (h : rs.isBanned = false) :
    rs.banIfNotBanned H = { rs with nPoSeBanHeight := H } := by
  unfold ReplayMNState.banIfNotBanned
  rw [h]
  rfl

theorem sameEntry_registered (hheight : 0 < toInt32 height) (eng : DmlFoldEngine)
    (proTxHash : Uint256) (p : ProRegTx) :
    SameEntry (MNState.register code.toProTxCode height proTxHash p)
      (registered code (toInt32 height) eng proTxHash p) := by
  have hregistered := sameHeight_toInt32 hheight
  have hpaid : (0 : Int) = ((0 : U32).val : Int) ∧ (0 : U32).val < 2 ^ 31 := by decide
  have hrevived : SameHeight never (0 : U32) := Or.inl ⟨rfl, rfl⟩
  unfold MNState.register registered
  by_cases hempty : p.netInfo.IsEmpty
  · rw [if_pos ((isEmpty_canonical p.netInfo).mpr hempty), banIfNotBanned_of_free rfl]
    have hbanned : decide (toInt32 height ≠ never) = true :=
      decide_eq_true (never_ne_of_pos hheight)
    refine ⟨rfl, rfl, rfl, rfl, rfl, rfl, rfl, rfl, hregistered, hpaid, hrevived, ?_, ?_⟩
    · dsimp only
      unfold ReplayMNState.isBanned
      rw [if_pos hempty, hbanned]
      rfl
    dsimp only
    unfold ReplayMNState.isBanned
    rw [if_pos hempty, hbanned]
    exact ⟨fun h => absurd h (ne_zero_of_pos hheight), nofun⟩
  rw [if_neg (fun h => hempty ((isEmpty_canonical p.netInfo).mp h))]
  refine ⟨rfl, rfl, rfl, rfl, rfl, rfl, rfl, rfl, hregistered, hpaid, hrevived, ?_, ?_⟩
  · dsimp only
    rw [if_neg hempty]
    rfl
  dsimp only
  rw [if_neg hempty]
  exact ⟨fun _ => rfl, fun _ => rfl⟩

theorem collateralOutpoint_registered (H : Int) (eng : DmlFoldEngine) (proTxHash : Uint256)
    (p : ProRegTx) :
    (registered code H eng proTxHash p).collateralOutpoint = collateralOf proTxHash p ∧
      (registered code H eng proTxHash p).nType = p.nType := by
  unfold registered ReplayMNState.banIfNotBanned collateralOf
  dsimp only
  split_ifs <;> exact ⟨rfl, rfl⟩

theorem removeMn_frame (eng : DmlFoldEngine) (k : Uint256) :
    (eng.removeMn k).blockPunished = eng.blockPunished ∧ (eng.removeMn k).cfg = eng.cfg := by
  unfold removeMn
  split <;> exact ⟨rfl, rfl⟩

theorem SameLists.replaceCollateral {m : MnStateMachine} (h : SameLists reg m t.1) (c : TxPrevOut) :
    SameLists reg
        { m with entries := dropHolder m c, collateralIndex := m.collateralIndex.erase c }
        (replaceCollateral t c).1 ∧
      (DmlFoldEngine.replaceCollateral t c).1.collateralIndex.lookup c = none := by
  unfold DmlFoldEngine.replaceCollateral dropHolder
  rw [h.collateralIndex]
  cases hc : t.1.collateralIndex.lookup c with
  | none =>
    dsimp only
    refine ⟨h.congr rfl ?_ rfl rfl, hc⟩
    rw [h.collateralIndex]
    exact erase_of_lookup_none hc
  | some old =>
    have hremoved := @SameLists.remove reg m
      { m with
        entries := m.entries.erase old
        collateralIndex := m.collateralIndex.erase c } t.1 h old c hc rfl rfl
    refine ⟨hremoved.congr rfl ?_ rfl rfl, ?_⟩
    · rw [h.collateralIndex]
    rw [← hremoved.collateralIndex]
    dsimp only
    rw [lookup_erase, if_pos rfl]

theorem Folds.foldProReg (h : Folds reg cfg payee s t) (hheight : 0 < toInt32 height)
    (hreg : ∀ p, code.parseProReg tx.extraPayload = some p →
      reg (code.computeTxHash tx) = (collateralOf (code.computeTxHash tx) p, p.nType))
    (hstep : foldProReg code (toInt32 height) t tx = .ok t') :
    Folds reg cfg payee (applyProReg code.toProTxCode height s tx) t' := by
  unfold DmlFoldEngine.foldProReg at hstep
  split at hstep
  · cases hstep
  rename_i p hp
  have hregistered := hreg p hp
  unfold applyProReg
  rw [hp]
  split at hstep
  · cases hstep
  dsimp only at hstep ⊢
  obtain ⟨hcollateral, htype⟩ :=
    @collateralOutpoint_registered P code (toInt32 height) t.1 (code.computeTxHash tx) p
  have hsame := @sameEntry_registered P code height hheight t.1 (code.computeTxHash tx) p
  generalize registered code (toInt32 height) t.1 (code.computeTxHash tx) p = rs at *
  generalize MNState.register code.toProTxCode height (code.computeTxHash tx) p = st at *
  rw [← hcollateral, ← htype] at hregistered
  obtain ⟨hdropped, hfree⟩ := h.lists.replaceCollateral rs.collateralOutpoint
  have hframe : (replaceCollateral t rs.collateralOutpoint).1.blockPunished = ∅ ∧
      (replaceCollateral t rs.collateralOutpoint).1.cfg = cfg ∧
      (replaceCollateral t rs.collateralOutpoint).2.payee = payee := by
    unfold DmlFoldEngine.replaceCollateral
    split
    · exact ⟨h.unpunished, h.cfg, h.payee⟩
    rename_i old _
    obtain ⟨hpunished, hcfg⟩ := removeMn_frame t.1 old
    exact ⟨hpunished.trans h.unpunished, hcfg.trans h.cfg, h.payee⟩
  split at hstep
  · cases hstep
  split at hstep
  · cases hstep
  split at hstep
  · cases hstep
  cases hstep
  refine ⟨?_, hframe.1, hframe.2.1, hframe.2.2⟩
  refine hdropped.register hfree hregistered hsame ?_ ?_ rfl rfl
  · rw [hsame.collateralOutpoint]
  dsimp only
  rw [hsame.collateralOutpoint]
  ext1 c
  rw [lookup_insert, lookup_insert, lookup_erase]
  split <;> rfl

theorem sameEntry_revive (h : SameEntry st rs) (hheight : 0 < toInt32 height) :
    SameEntry (st.revive height) (rs.revive (toInt32 height)) :=
  { h with
    nPoSeRevivedHeight := sameHeight_toInt32 hheight
    isValid := rfl
    nPoSeBanHeight := ⟨fun _ => rfl, fun _ => rfl⟩ }

theorem sameEntry_updateService (h : SameEntry st rs)
    (p : ProUpServTx) : SameEntry (st.updateService p) (updatedService p rs) :=
  { h with scriptOperatorPayout := rfl }

/-- The keys without which the fold does not revive. -/
def Keyed (rs : ReplayMNState) : Prop :=
  rs.pubKeyOperator ≠ 0 ∧ rs.keyIDVoting ≠ 0 ∧ rs.keyIDOwner ≠ 0

instance (rs : ReplayMNState) : Decidable (Keyed rs) := inferInstanceAs (Decidable (_ ∧ _ ∧ _))

theorem Folds.foldProUpServ (h : Folds reg cfg payee s t) (hheight : 0 < toInt32 height)
    (hkeyed : ∀ p rs, code.parseProUpServ tx.extraPayload = some p →
      t.1.entries.lookup p.proTxHash = some rs → rs.isBanned = true → Keyed rs)
    (hstep : foldProUpServ code (toInt32 height) t tx = .ok t') :
    Folds reg cfg payee (applyProUpServ code.toProTxCode height s tx) t' := by
  unfold DmlFoldEngine.foldProUpServ at hstep
  split at hstep
  · cases hstep
  rename_i p hp
  unfold applyProUpServ
  rw [hp]
  split at hstep
  · cases hstep
  split at hstep
  · cases hstep
  split at hstep
  · cases hstep
  rename_i rs hrs
  obtain ⟨st, hst, hsame⟩ := h.lists.exists_same hrs
  dsimp only
  rw [hst]
  split at hstep
  · cases hstep
  split at hstep
  · cases hstep
  have hclosed : widenRevived t.1 p.proTxHash (updatedService p rs) =
      (t.1, updatedService p rs) := by
    unfold widenRevived
    rw [if_neg]
    rintro ⟨-, ⟨mx, hmx, -⟩, -⟩
    rw [h.unpunished] at hmx
    cases hmx
  rw [hclosed] at hstep
  dsimp only at hstep ⊢
  have hupdated := sameEntry_updateService hsame p
  cases hbanned : rs.isBanned with
  | true =>
    have hkeys := hkeyed p rs hp hrs hbanned
    have hrevivable : Revivable (updatedService p rs) := ⟨hbanned, hkeys.1, hkeys.2.1, hkeys.2.2⟩
    have hban : (st.updateService p).nPoSeBanHeight ≠ 0 := by
      intro hzero
      have hfree := hupdated.nPoSeBanHeight.mp hzero
      exact absurd (hfree.symm.trans hbanned) Bool.false_ne_true
    rw [if_pos hrevivable] at hstep
    rw [if_pos hban]
    cases hstep
    exact ⟨h.lists.update hrs (sameEntry_revive hupdated hheight) rfl rfl rfl rfl
      rfl rfl, h.unpunished, h.cfg, h.payee⟩
  | false =>
    have hnot : ¬ Revivable (updatedService p rs) := by
      rintro ⟨hb, -⟩
      exact absurd (hbanned.symm.trans hb) Bool.false_ne_true
    have hban : ¬ (st.updateService p).nPoSeBanHeight ≠ 0 := by
      rw [not_not]
      exact hupdated.nPoSeBanHeight.mpr hbanned
    rw [if_neg hnot] at hstep
    rw [if_neg hban]
    cases hstep
    split
    · exact { h with lists := h.lists.update hrs hupdated rfl rfl rfl rfl rfl rfl }
    · exact { h with lists := h.lists.update hrs hupdated rfl rfl rfl rfl rfl rfl }

theorem banIfNotBanned_eq (hpos : 0 < H) (rs : ReplayMNState) :
    ∃ ban, ban ≠ never ∧ rs.banIfNotBanned H = { rs with nPoSeBanHeight := ban } := by
  cases hbanned : rs.isBanned with
  | true =>
    refine ⟨rs.nPoSeBanHeight, of_decide_eq_true hbanned, ?_⟩
    unfold ReplayMNState.banIfNotBanned
    rw [hbanned]
    rfl
  | false => exact ⟨H, never_ne_of_pos hpos, banIfNotBanned_of_free hbanned⟩

/-- An operator who is dropped, with the ban that goes with it; `key`, `voting` and `payout` are
what the update sets. -/
theorem sameEntry_dropOperator (h : SameEntry st rs) (hheight : 0 < toInt32 height) {ban : Int}
    (hban : ban ≠ never) {rs' : ReplayMNState} (hst : st'.nType = st.nType ∧
      st'.collateralOutpoint = st.collateralOutpoint ∧ st'.keyIDOwner = st.keyIDOwner ∧
      st'.nOperatorReward = st.nOperatorReward ∧ st'.nRegisteredHeight = st.nRegisteredHeight ∧
      st'.nLastPaidHeight = st.nLastPaidHeight ∧
      st'.nPoSeRevivedHeight = st.nPoSeRevivedHeight ∧ st'.isValid = false ∧
      st'.nPoSeBanHeight = height) (hrs : rs'.nType = rs.nType ∧
      rs'.collateralOutpoint = rs.collateralOutpoint ∧ rs'.keyIDOwner = rs.keyIDOwner ∧
      rs'.nOperatorReward = rs.nOperatorReward ∧ rs'.nRegisteredHeight = rs.nRegisteredHeight ∧
      rs'.nLastPaidHeight = rs.nLastPaidHeight ∧
      rs'.nPoSeRevivedHeight = rs.nPoSeRevivedHeight ∧ rs'.nPoSeBanHeight = ban)
    (hset : st'.pubKeyOperator = rs'.pubKeyOperator ∧ st'.keyIDVoting = rs'.keyIDVoting ∧
      st'.scriptPayout = rs'.scriptPayout ∧
      st'.scriptOperatorPayout = rs'.scriptOperatorPayout) : SameEntry st' rs' := by
  obtain ⟨ht, hc, ho, hr, hg, hp, hv, hvalid, hstban⟩ := hst
  obtain ⟨ht', hc', ho', hr', hg', hp', hv', hrsban⟩ := hrs
  obtain ⟨hkey, hvoting, hpayout, hoperator⟩ := hset
  have hbanned : rs'.isBanned = true := by
    unfold ReplayMNState.isBanned
    rw [hrsban]
    exact decide_eq_true hban
  refine ⟨?_, ?_, ?_, hkey, hvoting, ?_, hpayout, hoperator, ?_, ?_, ?_, ?_, ?_⟩
  · rw [ht, ht', h.nType]
  · rw [hc, hc', h.collateralOutpoint]
  · rw [ho, ho', h.keyIDOwner]
  · rw [hr, hr', h.nOperatorReward]
  · rw [hg, hg']
    exact h.nRegisteredHeight
  · rw [hp, hp']
    exact h.nLastPaidHeight
  · rw [hv, hv']
    exact h.nPoSeRevivedHeight
  · rw [hvalid, hbanned]
    rfl
  · rw [hstban, hbanned]
    exact ⟨fun hzero => absurd hzero (ne_zero_of_pos hheight), nofun⟩

theorem Folds.foldProUpReg (h : Folds reg cfg payee s t) (hheight : 0 < toInt32 height)
    (hcompare : ∀ p rs, code.parseProUpReg tx.extraPayload = some p →
      t.1.entries.lookup p.proTxHash = some rs →
      (code.opkeyPointEq rs.pubKeyOperator false p.pubKeyOperator (p.nVersion < basicBls) = true ↔
        rs.pubKeyOperator = code.opkeyToBasic p.pubKeyOperator (p.nVersion < basicBls)))
    (hstep : foldProUpReg code (toInt32 height) t tx = .ok t') :
    Folds reg cfg payee (applyProUpReg code.toProTxCode height s tx) t' := by
  unfold DmlFoldEngine.foldProUpReg at hstep
  split at hstep
  · cases hstep
  rename_i p hp
  unfold applyProUpReg
  rw [hp]
  split at hstep
  · cases hstep
  rename_i rs hrs
  obtain ⟨st, hst, hsame⟩ := h.lists.exists_same hrs
  have hkeys := hcompare p rs hp hrs
  dsimp only
  rw [hst]
  split at hstep
  · cases hstep
  dsimp only at hstep ⊢
  cases hstep
  unfold MNState.updateRegistrar
  dsimp only
  rw [hsame.pubKeyOperator]
  by_cases hkey : rs.pubKeyOperator = code.opkeyToBasic p.pubKeyOperator (p.nVersion < basicBls)
  · rw [if_pos hkey, if_pos (hkeys.mpr hkey)]
    refine { h with lists := h.lists.update hrs ?_ ?_ ?_ rfl rfl rfl rfl }
    · exact { hsame with pubKeyOperator := hkey.symm, keyIDVoting := rfl, scriptPayout := rfl }
    · rfl
    · rfl
  rw [if_neg hkey, if_neg (fun h => hkey (hkeys.mp h))]
  unfold changedOperator
  obtain ⟨ban, hban, hbanned⟩ := banIfNotBanned_eq hheight rs.resetOperatorFields
  rw [hbanned]
  refine { h with lists := h.lists.update hrs ?_ ?_ ?_ rfl rfl rfl rfl }
  · exact sameEntry_dropOperator hsame hheight hban ⟨rfl, rfl, rfl, rfl, rfl, rfl, rfl, rfl, rfl⟩
      ⟨rfl, rfl, rfl, rfl, rfl, rfl, rfl, rfl⟩ ⟨rfl, rfl, rfl, rfl⟩
  · rfl
  · rfl

theorem Folds.foldProUpRev (h : Folds reg cfg payee s t) (hheight : 0 < toInt32 height)
    (hstep : foldProUpRev code (toInt32 height) t tx = .ok t') :
    Folds reg cfg payee (applyProUpRev code.toProTxCode height s tx) t' := by
  unfold DmlFoldEngine.foldProUpRev at hstep
  split at hstep
  · cases hstep
  rename_i p hp
  unfold applyProUpRev
  rw [hp]
  split at hstep
  · cases hstep
  rename_i rs hrs
  obtain ⟨st, hst, hsame⟩ := h.lists.exists_same hrs
  dsimp only
  rw [hst]
  obtain ⟨ban, hban, hbanned⟩ := banIfNotBanned_eq hheight rs.resetOperatorFields
  rw [hbanned] at hstep
  cases hstep
  refine { h with lists := h.lists.update hrs ?_ ?_ ?_ rfl rfl rfl rfl }
  · exact sameEntry_dropOperator hsame hheight hban ⟨rfl, rfl, rfl, rfl, rfl, rfl, rfl, rfl, rfl⟩
      ⟨rfl, rfl, rfl, rfl, rfl, rfl, rfl, rfl⟩ ⟨rfl, hsame.keyIDVoting, hsame.scriptPayout, rfl⟩
  · rfl
  · rfl

def PunishesNone (eng : DmlFoldEngine) (c : FinalCommitment) : Prop :=
  commitmentIsNull c = false → ∀ resolve, eng.membersFn = some resolve →
    ∀ members, resolve c.llmqType c.quorumHash = some members →
      ∀ member ∈ members.zip c.validMembers, member.2 = false → eng.entries.lookup member.1 = none

theorem punishMembers_of_unlisted (members : List (Uint256 × Bool))
    (hunlisted : ∀ member ∈ members, member.2 = false → t.1.entries.lookup member.1 = none) :
    punishMembers H t members = t := by
  unfold punishMembers
  induction members with
  | nil => rfl
  | cons member members ih =>
    rw [foldl_cons]
    refine Eq.trans ?_ (ih fun m hm => hunlisted m (mem_cons_of_mem member hm))
    cases hbit : member.2 with
    | true => split <;> rfl
    | false => rw [hunlisted member (by simp) hbit]

theorem foldQfcommit_eq
    (hnone : ∀ c, code.parseQfcommit tx.extraPayload = .ok c → PunishesNone t.1 c)
    (hstep : foldQfcommit code H t tx = .ok t') : t' = t := by
  unfold foldQfcommit at hstep
  split at hstep
  · cases hstep
  rename_i c hc
  split at hstep
  · cases hstep
    rfl
  rename_i hnull
  split at hstep
  · cases hstep
    rfl
  split at hstep
  · cases hstep
  rename_i resolve hresolve
  split at hstep
  · cases hstep
  rename_i members hmembers
  split at hstep
  · cases hstep
  cases hstep
  exact punishMembers_of_unlisted _
    (hnone c hc (by simpa using hnull) resolve hresolve members hmembers)

/-- What a transaction is of which both machines make the same: a service update of a banned
masternode finds all its keys, a registrar update compares keys as their canonical bytes compare,
and a commitment punishes nobody on the list. -/
def PlainTx (code : FoldCode P) (t : Folding) (tx : Tx P) : Prop :=
  (tx.type = 2 → ∀ p rs, code.parseProUpServ tx.extraPayload = some p →
    t.1.entries.lookup p.proTxHash = some rs → rs.isBanned = true → Keyed rs) ∧
  (tx.type = 3 → ∀ p rs, code.parseProUpReg tx.extraPayload = some p →
    t.1.entries.lookup p.proTxHash = some rs →
    (code.opkeyPointEq rs.pubKeyOperator false p.pubKeyOperator (p.nVersion < basicBls) = true ↔
      rs.pubKeyOperator = code.opkeyToBasic p.pubKeyOperator (p.nVersion < basicBls))) ∧
  (tx.type = 6 → ∀ c, code.parseQfcommit tx.extraPayload = .ok c → PunishesNone t.1 c)

/-- The registration with a hash is the one that `reg` names. -/
def RegistersAs (code : FoldCode P) (reg : Uint256 → TxPrevOut × U16) (tx : Tx P) : Prop :=
  tx.type = 1 → ∀ p, code.parseProReg tx.extraPayload = some p →
    reg (code.computeTxHash tx) = (collateralOf (code.computeTxHash tx) p, p.nType)

theorem type_eq_zero_of_contextual {isCoinbase : Bool}
    (hcheck : contextualTxCheck tx isCoinbase = none)
    (hpayload : txHasExtraPayload tx.version tx.type = false) : tx.type = 0 := by
  by_contra htype
  unfold txHasExtraPayload at hpayload
  have hversion : txIsSpecialVersion tx.version = false := by
    simpa [htype] using hpayload
  unfold contextualTxCheck at hcheck
  rw [hversion, if_neg Bool.false_ne_true, if_pos htype] at hcheck
  cases hcheck

theorem Folds.foldTx (h : Folds reg cfg payee s t) (hheight : 0 < toInt32 height)
    (hcheck : contextualTxCheck tx false = none) (hreg : RegistersAs code reg tx)
    (hplain : PlainTx code t tx) (hstep : foldTx code (toInt32 height) t tx = .ok t') :
    Folds reg cfg payee (applySpecialTx code.toProTxCode height s tx) t' := by
  unfold DmlFoldEngine.foldTx at hstep
  unfold applySpecialTx
  obtain ⟨hserv, hregistrar, hcommit⟩ := hplain
  split at hstep
  · rename_i hpayload
    have htype := type_eq_zero_of_contextual hcheck (by simpa using hpayload)
    cases hstep
    rw [htype]
    exact h
  split at hstep
  · rename_i htype
    rw [htype]
    exact h.foldProReg hheight (hreg (Fin.ext htype)) hstep
  · rename_i htype
    rw [htype]
    exact h.foldProUpServ hheight (hserv (Fin.ext htype)) hstep
  · rename_i htype
    rw [htype]
    exact h.foldProUpReg hheight (hregistrar (Fin.ext htype)) hstep
  · rename_i htype
    rw [htype]
    exact h.foldProUpRev hheight hstep
  · rename_i htype
    rw [htype, foldQfcommit_eq (hcommit (Fin.ext htype)) hstep]
    exact h
  · rename_i h1 h2 h3 h4 h6
    cases hstep
    split
    · exact absurd ‹_› h1
    · exact absurd ‹_› h2
    · exact absurd ‹_› h3
    · exact absurd ‹_› h4
    · exact h

theorem foldProUpServ_types {H : Int} (hstep : DmlFoldEngine.foldProUpServ code H t tx = .ok t')
    {p : ProUpServTx} (hp : code.parseProUpServ tx.extraPayload = some p) :
    (p.nType = mnRegular ∨ p.nType = mnEvo) ∧
      ∃ rs, t.1.entries.lookup p.proTxHash = some rs ∧ rs.nType = p.nType := by
  unfold DmlFoldEngine.foldProUpServ at hstep
  rw [hp] at hstep
  dsimp only at hstep
  split at hstep
  · cases hstep
  split at hstep
  · cases hstep
  rename_i hkind
  split at hstep
  · cases hstep
  rename_i rs hrs
  split at hstep
  · cases hstep
  rename_i htype
  refine ⟨?_, rs, hrs, (not_not.mp htype).symm⟩
  by_contra hother
  exact hkind (not_or.mp hother)

/-- A service update names the type of the masternode that it is for. -/
def ServesAs (code : FoldCode P) (reg : Uint256 → TxPrevOut × U16) (tx : Tx P) : Prop :=
  tx.type = 2 → ∀ p, code.parseProUpServ tx.extraPayload = some p →
    (p.nType = mnRegular ∨ p.nType = mnEvo) ∧ (reg p.proTxHash).2 = p.nType

theorem Folds.servesAs (h : Folds reg cfg payee s t) (hcheck : contextualTxCheck tx false = none)
    {H : Int} (hstep : DmlFoldEngine.foldTx code H t tx = .ok t') : ServesAs code reg tx := by
  intro htype p hp
  have hserv : DmlFoldEngine.foldProUpServ code H t tx = .ok t' := by
    unfold DmlFoldEngine.foldTx at hstep
    split at hstep
    · rename_i hpayload
      have hzero := type_eq_zero_of_contextual hcheck (by simpa using hpayload)
      rw [htype] at hzero
      exact absurd hzero (by decide)
    · rw [htype] at hstep
      exact hstep
  obtain ⟨hkind, rs, hrs, heq⟩ := foldProUpServ_types hserv hp
  refine ⟨hkind, ?_⟩
  rw [← h.lists.registered p.proTxHash rs hrs]
  exact heq

def PlainTxs (code : FoldCode P) (H : Int) : Folding → List (Tx P) → Prop
  | _, [] => True
  | t, tx :: txs =>
    PlainTx code t tx ∧ ∀ t', DmlFoldEngine.foldTx code H t tx = .ok t' → PlainTxs code H t' txs

theorem Folds.foldTxs (txs : List (Tx P × Nat)) (h : Folds reg cfg payee s t)
    (hheight : 0 < toInt32 height) (hcheck : ∀ tx ∈ txs, contextualTxCheck tx.1 false = none)
    (hreg : ∀ tx ∈ txs, RegistersAs code reg tx.1)
    (hplain : PlainTxs code (toInt32 height) t (txs.map Prod.fst))
    (hstep : DmlFoldEngine.foldTxs code (toInt32 height) height t txs = .ok t') :
    Folds reg cfg payee (specialTxs code.toProTxCode height s (txs.map Prod.fst)) t' ∧
      ∀ tx ∈ txs, ServesAs code reg tx.1 := by
  unfold DmlFoldEngine.foldTxs at hstep
  unfold specialTxs
  induction txs generalizing s t with
  | nil =>
    cases hstep
    exact ⟨h, nofun⟩
  | cons tx txs ih =>
    rw [foldlM_cons] at hstep
    obtain ⟨hfirst, hrest⟩ := hplain
    cases htx : DmlFoldEngine.foldTx code (toInt32 height) t tx.1 with
    | error e =>
      rw [htx] at hstep
      cases hstep
    | ok t₁ =>
      rw [htx] at hstep
      have hnext := h.foldTx hheight (hcheck tx (by simp)) (hreg tx (by simp)) hfirst htx
      obtain ⟨hfolds, hserve⟩ := ih hnext (fun x hx => hcheck x (mem_cons_of_mem tx hx))
        (fun x hx => hreg x (mem_cons_of_mem tx hx)) (hrest t₁ htx) hstep
      exact ⟨hfolds, forall_mem_cons.mpr ⟨h.servesAs (hcheck tx (by simp)) htx, hserve⟩⟩

theorem Folds.foldSpends (txs : List (Tx P)) (h : Folds reg cfg payee s t) :
    Folds reg cfg payee (collateralSpends s txs) (foldSpends t txs) := by
  unfold collateralSpends DmlFoldEngine.foldSpends
  induction txs.flatMap fun tx => tx.vin.map TxIn.prevout generalizing s t with
  | nil => exact h
  | cons prevout prevouts ih =>
    rw [foldl_cons, foldl_cons]
    apply ih
    unfold spendCollateral foldSpend
    rw [h.lists.collateralIndex]
    cases hc : t.1.collateralIndex.lookup prevout with
    | none => exact h
    | some owner =>
      obtain ⟨hpunished, hcfg⟩ := removeMn_frame t.1 owner
      refine ⟨h.lists.remove hc rfl ?_, hpunished.trans h.unpunished, hcfg.trans h.cfg, h.payee⟩
      dsimp only
      rw [h.lists.collateralIndex]

theorem Folds.confirmPass (h : Folds reg cfg payee s t) (H : Int) (prevHash : Uint256) :
    Folds reg cfg payee s (confirmPass code H prevHash t) := by
  have hentries : (DmlFoldEngine.confirmPass code H prevHash t).1.entries =
      t.1.entries.mapValues fun protx st =>
        if ConfirmationDue t.1.cfg.gates H st then st.updateConfirmedHash code protx prevHash
        else st := rfl
  refine { h with lists := ?_ }
  refine h.lists.mapValues hentries rfl ?_ ?_ ?_
  · intro k st rs hsame
    split
    · exact { hsame with }
    · exact hsame
  · intro k rs
    split <;> rfl
  · intro k rs
    split <;> rfl

theorem Folds.decreaseScores (h : Folds reg cfg payee s t) :
    Folds reg cfg payee s (decreaseScores t) := by
  have hentries : (DmlFoldEngine.decreaseScores t).1.entries =
      t.1.entries.mapValues fun _ st =>
        if st.isBanned then st
        else
          { st with
            nPoSePenalty := decayed st.nPoSePenalty
            nPoSePenaltyHi := decayed st.nPoSePenaltyHi } := rfl
  refine { h with lists := ?_ }
  refine h.lists.mapValues hentries rfl ?_ ?_ ?_
  · intro k st rs hsame
    split
    · exact hsame
    · exact { hsame with }
  · intro k rs
    split <;> rfl
  · intro k rs
    split <;> rfl

end Txs

/-! ## The payee -/

section Payee

def replayCandidate (e : Uint256 × ReplayMNState) : Int × Uint256 :=
  (e.2.compareByLastPaidHeight, e.1)

/-- One round of the loop of `project_payee`. -/
def betterPayee (best : Option (Int × Uint256)) (e : Uint256 × ReplayMNState) :
    Option (Int × Uint256) :=
  if e.2.isBanned then best
  else
    match best with
    | none => some (replayCandidate e)
    | some held => if payeeBefore (replayCandidate e) held then some (replayCandidate e) else best

theorem bestPayee_eq (entries : List (Uint256 × ReplayMNState)) :
    bestPayee entries = entries.foldl betterPayee none := rfl

theorem payeeBefore_iff (a b : Int × Uint256) :
    payeeBefore a b = true ↔ payeeKey a < payeeKey b := payeeOrderBefore_iff a b

def BestOf (best : Option (Int × Uint256)) (entries : List (Uint256 × ReplayMNState)) :
    Option (Int × Uint256) → Prop
  | none => best = none ∧ ∀ e ∈ entries, e.2.isBanned = true
  | some c =>
    (best = some c ∨ ∃ e ∈ entries, e.2.isBanned = false ∧ c = replayCandidate e) ∧
      (∀ b, best = some b → payeeKey c ≤ payeeKey b) ∧
      ∀ e ∈ entries, e.2.isBanned = false → payeeKey c ≤ payeeKey (replayCandidate e)

theorem bestOf_betterPayee (best : Option (Int × Uint256)) (e : Uint256 × ReplayMNState) :
    BestOf best [e] (betterPayee best e) := by
  have hsome : ∀ b, best = some b → BestOf best [] (some b) := by
    rintro b rfl
    refine ⟨Or.inl rfl, ?_, fun e he => absurd he not_mem_nil⟩
    intro b' hb'
    cases hb'
    exact le_refl _
  unfold betterPayee
  cases hbanned : e.2.isBanned with
  | true =>
    have hvacuous : ∀ e' ∈ [e], e'.2.isBanned = false →
        ∀ c, payeeKey c ≤ payeeKey (replayCandidate e') := by
      intro e' he' hfree
      rw [mem_singleton.mp he', hbanned] at hfree
      cases hfree
    cases best with
    | none =>
      refine ⟨rfl, ?_⟩
      intro e' he'
      rw [mem_singleton.mp he']
      exact hbanned
    | some b =>
      obtain ⟨hmem, hle, -⟩ := hsome b rfl
      exact ⟨Or.inl rfl, hle, fun e' he' hfree => hvacuous e' he' hfree b⟩
  | false =>
    rw [if_neg Bool.false_ne_true]
    have hself : ∀ c, payeeKey c ≤ payeeKey (replayCandidate e) →
        ∀ e' ∈ [e], e'.2.isBanned = false → payeeKey c ≤ payeeKey (replayCandidate e') := by
      intro c hc e' he' _
      rw [mem_singleton.mp he']
      exact hc
    have hcandidate : ∃ e' ∈ [e], e'.2.isBanned = false ∧
        replayCandidate e = replayCandidate e' := ⟨e, by simp, hbanned, rfl⟩
    cases best with
    | none => exact ⟨Or.inr hcandidate, nofun, hself _ (le_refl _)⟩
    | some b =>
      dsimp only
      split
      · rename_i hbefore
        refine ⟨Or.inr hcandidate, ?_, hself _ (le_refl _)⟩
        intro b' hb'
        cases hb'
        exact le_of_lt ((payeeBefore_iff _ _).mp hbefore)
      rename_i hbefore
      obtain ⟨hmem, hle, -⟩ := hsome b rfl
      refine ⟨Or.inl rfl, hle, hself _ ?_⟩
      exact not_lt.mp fun hlt => hbefore ((payeeBefore_iff _ _).mpr hlt)

theorem BestOf.trans {best mid last : Option (Int × Uint256)} {e : Uint256 × ReplayMNState}
    {entries : List (Uint256 × ReplayMNState)} (h : BestOf best [e] mid)
    (h' : BestOf mid entries last) : BestOf best (e :: entries) last := by
  cases last with
  | none =>
    obtain ⟨rfl, hall⟩ := h'
    obtain ⟨hbest, hfirst⟩ := h
    exact ⟨hbest, forall_mem_cons.mpr ⟨hfirst e (by simp), hall⟩⟩
  | some c =>
    obtain ⟨hfrom, hle, hleast⟩ := h'
    cases mid with
    | none =>
      obtain ⟨hbest, hfirst⟩ := h
      refine ⟨Or.inr ?_, ?_, ?_⟩
      · obtain ⟨e', he', hfree, hc⟩ := hfrom.resolve_left nofun
        exact ⟨e', mem_cons_of_mem e he', hfree, hc⟩
      · intro b hb
        rw [hbest] at hb
        cases hb
      · refine forall_mem_cons.mpr ⟨?_, hleast⟩
        intro hfree
        rw [hfirst e (by simp)] at hfree
        cases hfree
    | some c₁ =>
      obtain ⟨hfrom₁, hle₁, hleast₁⟩ := h
      have hc : payeeKey c ≤ payeeKey c₁ := hle c₁ rfl
      refine ⟨?_, ?_, ?_⟩
      · rcases hfrom with heq | ⟨e', he', hfree, hce⟩
        · cases heq
          rcases hfrom₁ with hbest | ⟨e', he', hfree, hce⟩
          · exact Or.inl hbest
          · exact Or.inr ⟨e', mem_cons.mpr (Or.inl (mem_singleton.mp he')), hfree, hce⟩
        · exact Or.inr ⟨e', mem_cons_of_mem e he', hfree, hce⟩
      · intro b hb
        exact hc.trans (hle₁ b hb)
      · refine forall_mem_cons.mpr ⟨?_, hleast⟩
        intro hfree
        exact hc.trans (hleast₁ e (by simp) hfree)

theorem bestOf_foldl (entries : List (Uint256 × ReplayMNState)) (best : Option (Int × Uint256)) :
    BestOf best entries (entries.foldl betterPayee best) := by
  induction entries generalizing best with
  | nil =>
    cases best with
    | none => exact ⟨rfl, fun e he => absurd he not_mem_nil⟩
    | some c =>
      refine ⟨Or.inl rfl, ?_, fun e he => absurd he not_mem_nil⟩
      intro b hb
      cases hb
      exact le_refl _
  | cons e entries ih => exact (bestOf_betterPayee best e).trans (ih (betterPayee best e))

theorem payeeKey_le_of_same {st st' : MNState} (h : SameEntry st rs)
    (h' : SameEntry st' rs') {a b : Uint256}
    (hle : payeeKey (replayCandidate (a, rs)) ≤ payeeKey (replayCandidate (b, rs'))) :
    payeeKey (st.payeeScore, a) ≤ payeeKey (st'.payeeScore, b) := by
  have hscore := h.payeeScore
  have hscore' := h'.payeeScore
  unfold payeeKey replayCandidate never at *
  rw [Prod.Lex.le_iff] at hle ⊢
  simp only [ofLex_toLex] at hle ⊢
  rcases hle with hlt | ⟨heq, hbytes⟩
  · left
    omega
  · right
    exact ⟨by omega, hbytes⟩

theorem SameLists.head?_queueBefore {reg : Uint256 → TxPrevOut × U16} {m : MnStateMachine}
    {eng : DmlFoldEngine} (h : SameLists reg m eng) (hrr : eng.cfg.gates.mnRrHeight ≤ H) :
    (queueBefore m).head? = eng.projectPayee H := by
  have hproject : eng.projectPayee H =
      (eng.entries.entries.foldl betterPayee none).map Prod.snd := by
    unfold projectPayee
    dsimp only
    rw [if_neg (fun h => h.2 hrr), ← bestPayee_eq]
  have hqueue : (queueBefore m).head? =
      (sortedCandidates (payeeCandidates m.entries)).head?.map Prod.snd := by
    unfold queueBefore rankPayeeCandidates kPayeeCandidates
    rw [payeeQueue_eq, head?_take, if_neg (by decide), head?_map]
  have hbest := bestOf_foldl eng.entries.entries none
  rw [hproject, hqueue]
  have hmem : ∀ c, c ∈ sortedCandidates (payeeCandidates m.entries) ↔
      c ∈ payeeCandidates m.entries := fun c => mem_insertionSort ByLastPaid
  have hcandidate : ∀ k rs st, eng.entries.lookup k = some rs → m.entries.lookup k = some st →
      SameEntry st rs → rs.isBanned = false →
      (st.payeeScore, k) ∈ sortedCandidates (payeeCandidates m.entries) := by
    intro k rs st hrs hst hsame hfree
    rw [hmem]
    refine mem_map.mpr ⟨(k, st), mem_filter.mpr ⟨?_, ?_⟩, rfl⟩
    · exact mem_entries_iff.mpr hst
    · exact decide_eq_true (hsame.eligible_iff.mpr hfree)
  have hfrom : ∀ c ∈ sortedCandidates (payeeCandidates m.entries), ∃ st rs,
      m.entries.lookup c.2 = some st ∧ eng.entries.lookup c.2 = some rs ∧ SameEntry st rs ∧
        rs.isBanned = false ∧ c = (st.payeeScore, c.2) := by
    intro c hc
    rw [hmem] at hc
    obtain ⟨e, he, rfl⟩ := mem_map.mp hc
    obtain ⟨hentry, heligible⟩ := mem_filter.mp he
    have hst : m.entries.lookup e.1 = some e.2 := mem_entries_iff.mp hentry
    rcases h.cases e.1 with ⟨hnone, -⟩ | ⟨st, rs, hst', hrs, hsame⟩
    · rw [hst] at hnone
      cases hnone
    rw [hst] at hst'
    cases hst'
    exact ⟨e.2, rs, hst, hrs, hsame, hsame.eligible_iff.mp (of_decide_eq_true heligible), rfl⟩
  cases hfold : eng.entries.entries.foldl betterPayee none with
  | none =>
    rw [hfold] at hbest
    have hnil : sortedCandidates (payeeCandidates m.entries) = [] := by
      rw [eq_nil_iff_forall_not_mem]
      intro c hc
      obtain ⟨st, rs, -, hrs, -, hfree, -⟩ := hfrom c hc
      have hbanned := hbest.2 (c.2, rs) (mem_entries_iff.mpr hrs)
      exact absurd (hfree.symm.trans hbanned) Bool.false_ne_true
    rw [hnil]
    rfl
  | some c =>
    rw [hfold] at hbest
    obtain ⟨hc, -, hleast⟩ := hbest
    obtain ⟨e, he, hfree, rfl⟩ := hc.resolve_left nofun
    have hrs : eng.entries.lookup e.1 = some e.2 := mem_entries_iff.mp he
    obtain ⟨st, hst, hsame⟩ := h.exists_same hrs
    have hin := hcandidate e.1 e.2 st hrs hst hsame hfree
    have hsorted : (sortedCandidates (payeeCandidates m.entries)).Pairwise ByLastPaid :=
      pairwise_insertionSort ByLastPaid _
    cases hlist : sortedCandidates (payeeCandidates m.entries) with
    | nil =>
      rw [hlist] at hin
      cases hin
    | cons first rest =>
      have hfirst : first ∈ sortedCandidates (payeeCandidates m.entries) := by
        rw [hlist]
        exact mem_cons_self
      obtain ⟨st', rs', -, hrs', hsame', hfree', heq⟩ := hfrom first hfirst
      have hle : payeeKey first ≤ payeeKey (st.payeeScore, e.1) := by
        rw [hlist] at hin hsorted
        rcases mem_cons.mp hin with hhead | htail
        · rw [hhead]
        · exact (byLastPaid_iff _ _).mp (rel_of_pairwise_cons hsorted htail)
      have hge : payeeKey (st.payeeScore, e.1) ≤ payeeKey first := by
        rw [heq]
        exact payeeKey_le_of_same hsame hsame'
          (hleast (first.2, rs') (mem_entries_iff.mpr hrs') hfree')
      rw [← payeeKey_injective (le_antisymm hge hle)]
      rfl

end Payee

end C2Pool.Dash
