import C2Pool.Dash.StateMachine

/-! # What transactions do to a list, whoever is banned

Which masternodes a block leaves on the list, their types, operator keys and
registration heights depend on none of the fields that say who is banned, who
was revived and who was paid.  Two machines that agree on the former still agree
after the transactions of a block.
-/

namespace C2Pool.Dash

open SortedMap

def MNState.txPart (st : MNState) : Fin (2 ^ 8) × OpKey × U32 :=
  (st.nType, st.pubKeyOperator, st.nRegisteredHeight)

def SameParts (e e' : Entries) : Prop :=
  ∀ k, (e.lookup k).map MNState.txPart = (e'.lookup k).map MNState.txPart

namespace SameParts

variable {e e' : Entries}

section

variable (h : SameParts e e') (k : Uint256)
include h k

theorem cases :
    (e.lookup k = none ∧ e'.lookup k = none) ∨
      ∃ st st', e.lookup k = some st ∧ e'.lookup k = some st' ∧ st.txPart = st'.txPart := by
  have hk := h k
  cases he : e.lookup k with
  | none =>
    rw [he, Option.map_none, eq_comm, Option.map_eq_none_iff] at hk
    exact .inl ⟨rfl, hk⟩
  | some st =>
    rw [he, Option.map_some, eq_comm, Option.map_eq_some_iff] at hk
    obtain ⟨st', hst', hpart⟩ := hk
    exact .inr ⟨st, st', rfl, hst', hpart.symm⟩

theorem isSome_eq : (e.lookup k).isSome = (e'.lookup k).isSome := by
  rcases h.cases k with ⟨hn, hn'⟩ | ⟨st, st', hs, hs', -⟩
  · rw [hn, hn']
  · rw [hs, hs']
    rfl

theorem insert {st st' : MNState}
    (hpart : st.txPart = st'.txPart) : SameParts (e.insert k st) (e'.insert k st') := by
  intro x
  rw [lookup_insert, lookup_insert]
  split
  · simp [hpart]
  · exact h x

theorem erase : SameParts (e.erase k) (e'.erase k) := by
  intro x
  rw [lookup_erase, lookup_erase]
  split
  · rfl
  · exact h x

theorem emplace (st : MNState) : SameParts (emplace e k st) (Dash.emplace e' k st) := by
  unfold Dash.emplace
  rcases h.cases k with ⟨hn, hn'⟩ | ⟨old, old', hs, hs', -⟩
  · rw [hn, hn']
    exact h.insert k rfl
  · rw [hs, hs']
    exact h

end

end SameParts

structure SameList (m m' : MnStateMachine) : Prop where
  parts : SameParts m.entries m'.entries
  collateralIndex : m.collateralIndex = m'.collateralIndex
  dip0003Height : m.dip0003Height = m'.dip0003Height

namespace SameList

variable {P : Type} {code : ProTxCode P} {height : U32} {s s' : Applying} {m m' : MnStateMachine}

theorem dropHolder {m m' : MnStateMachine} (h : SameList m m') (outpoint : TxPrevOut) :
    SameParts (dropHolder m outpoint) (Dash.dropHolder m' outpoint) := by
  unfold Dash.dropHolder
  rw [h.collateralIndex]
  split
  · exact h.parts.erase _
  · exact h.parts

section

variable (h : SameList s.1 s'.1)
include h

theorem applyProReg (tx : Tx P) :
    SameList (applyProReg code height s tx).1 (Dash.applyProReg code height s' tx).1 := by
  unfold Dash.applyProReg
  split
  · exact h
  · exact ⟨(h.dropHolder _).emplace _ _, by simp only [h.collateralIndex], h.dip0003Height⟩

theorem applyProUpServ (tx : Tx P) :
    SameList (applyProUpServ code height s tx).1 (Dash.applyProUpServ code height s' tx).1 := by
  unfold Dash.applyProUpServ
  split
  · exact h
  rename_i ptx _
  rcases h.parts.cases ptx.proTxHash with ⟨hn, hn'⟩ | ⟨st, st', hs, hs', hpart⟩
  · simp only [hn, hn']
    exact h
  simp only [hs, hs']
  have hserv : ∀ st : MNState, (st.updateService ptx).txPart = st.txPart := fun _ => rfl
  have hrevive : ∀ st : MNState, (st.revive height).txPart = st.txPart := fun _ => rfl
  split <;> split <;> (try split) <;> (try split)
  all_goals
    refine { h with parts := ?_ }
    apply h.parts.insert
    simp only [hserv, hrevive, hpart]

theorem applyProUpReg (tx : Tx P) :
    SameList (applyProUpReg code height s tx).1 (Dash.applyProUpReg code height s' tx).1 := by
  unfold Dash.applyProUpReg
  split
  · exact h
  rename_i ptx _
  rcases h.parts.cases ptx.proTxHash with ⟨hn, hn'⟩ | ⟨st, st', hs, hs', hpart⟩
  · simp only [hn, hn']
    exact h
  simp only [hs, hs']
  refine { h with parts := h.parts.insert _ ?_ }
  have hreg : ∀ st : MNState, (st.updateRegistrar code height ptx).txPart =
      (st.nType, code.opkeyToBasic ptx.pubKeyOperator (ptx.nVersion < basicBls),
        st.nRegisteredHeight) := by
    intro st
    unfold MNState.updateRegistrar
    by_cases hkey : st.pubKeyOperator =
        code.opkeyToBasic ptx.pubKeyOperator (ptx.nVersion < basicBls)
    · rw [if_pos hkey]
      rfl
    · rw [if_neg hkey]
      rfl
  simp only [MNState.txPart, Prod.mk.injEq] at hpart
  rw [hreg, hreg, hpart.1, hpart.2.2]

theorem applyProUpRev (tx : Tx P) :
    SameList (applyProUpRev code height s tx).1 (Dash.applyProUpRev code height s' tx).1 := by
  unfold Dash.applyProUpRev
  split
  · exact h
  rename_i ptx _
  rcases h.parts.cases ptx.proTxHash with ⟨hn, hn'⟩ | ⟨st, st', hs, hs', hpart⟩
  · simp only [hn, hn']
    exact h
  simp only [hs, hs']
  refine { h with parts := h.parts.insert _ ?_ }
  simp only [MNState.txPart, Prod.mk.injEq] at hpart
  simp only [MNState.txPart, MNState.revoke, hpart.1, hpart.2.2]

theorem applySpecialTx (tx : Tx P) :
    SameList (applySpecialTx code height s tx).1 (Dash.applySpecialTx code height s' tx).1 := by
  unfold Dash.applySpecialTx
  split
  · exact h.applyProReg tx
  · exact h.applyProUpServ tx
  · exact h.applyProUpReg tx
  · exact h.applyProUpRev tx
  · exact h

theorem specialTxs (txs : List (Tx P)) :
    SameList (specialTxs code height s txs).1 (Dash.specialTxs code height s' txs).1 := by
  induction txs generalizing s s' with
  | nil => exact h
  | cons tx txs ih => exact ih (h.applySpecialTx tx)

theorem spendCollateral (prevout : TxPrevOut) :
    SameList (spendCollateral s prevout).1 (Dash.spendCollateral s' prevout).1 := by
  unfold Dash.spendCollateral
  rw [h.collateralIndex]
  split
  · exact h
  · exact ⟨h.parts.erase _, rfl, h.dip0003Height⟩

theorem collateralSpends (txs : List (Tx P)) :
    SameList (collateralSpends s txs).1 (Dash.collateralSpends s' txs).1 := by
  unfold Dash.collateralSpends
  induction txs.flatMap fun tx => tx.vin.map TxIn.prevout generalizing s s' with
  | nil => exact h
  | cons prevout rest ih => exact ih (h.spendCollateral prevout)

theorem foldTxs (block : Block P) :
    SameList (foldTxs code height block s).1 (Dash.foldTxs code height block s').1 :=
  (h.specialTxs _).collateralSpends _

end

theorem proUpServRefusal (h : SameList m m') (tx : Tx P) :
    proUpServRefusal code m.entries tx = Dash.proUpServRefusal code m'.entries tx := by
  unfold Dash.proUpServRefusal
  split
  · rfl
  split
  · rfl
  split
  · rfl
  rename_i ptx _ _
  rcases h.parts.cases ptx.proTxHash with ⟨hn, hn'⟩ | ⟨st, st', hs, hs', hpart⟩
  · rw [hn, hn']
  · simp only [MNState.txPart, Prod.mk.injEq] at hpart
    simp only [hs, hs', hpart.1]

theorem consensusRefusal (h : SameList m m') (block : Block P) :
    consensusRefusal code m block height = Dash.consensusRefusal code m' block height := by
  unfold Dash.consensusRefusal txRefusal
  simp only [h.dip0003Height, h.proUpServRefusal]

end SameList

end C2Pool.Dash
