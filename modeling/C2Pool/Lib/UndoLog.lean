import C2Pool.Lib.Words

/-! # Undo logs

A log of records, newest first, that leads back from the states of one condition
to the states of another.  Conditions are about what is seen of a state, and what
is seen does not hold the log itself.  An undo that is not total can fail instead.
-/

namespace C2Pool.UndoLog

variable {σ τ ι ε : Type} (view : σ → τ) (undo : σ → ι → Except ε σ) (total : Prop)
  {P Q M : τ → Prop}

/-- Undoing `op` at a state that is seen in `P` leads to a state seen in `Q`. -/
def Undoes (op : ι) (P Q : τ → Prop) : Prop :=
  ∀ s, P (view s) → (∃ s', undo s op = .ok s' ∧ Q (view s')) ∨ ¬ total ∧ ∃ e, undo s op = .error e

/-- Undoing the records of a log leads from `P` back to `Q`. -/
def Leads : List ι → (τ → Prop) → (τ → Prop) → Prop
  | [], P, Q => ∀ x, P x → Q x
  | op :: ops, P, Q => ∃ M, Undoes view undo total op P M ∧ Leads ops M Q

variable {view undo total}

theorem Undoes.of_ok {op : ι} (h : ∀ s, P (view s) → ∃ s', undo s op = .ok s' ∧ Q (view s')) :
    Undoes view undo total op P Q :=
  fun s hs => .inl (h s hs)

theorem Undoes.leads {op : ι} (h : Undoes view undo total op P Q) :
    Leads view undo total [op] P Q := ⟨Q, h, fun _ hx => hx⟩

theorem Leads.of_imp {P' : τ → Prop} {ops : List ι} (h : Leads view undo total ops P Q)
    (hP : ∀ x, P' x → P x) :
    Leads view undo total ops P' Q := by
  cases ops with
  | nil => exact fun x hx => h x (hP x hx)
  | cons op ops =>
    obtain ⟨M, hop, hrest⟩ := h
    exact ⟨M, fun s hs => hop s (hP _ hs), hrest⟩

theorem Leads.append {ops ops' : List ι} (h : Leads view undo total ops P M)
    (h' : Leads view undo total ops' M Q) : Leads view undo total (ops ++ ops') P Q := by
  induction ops generalizing P with
  | nil => exact h'.of_imp h
  | cons op ops ih =>
    obtain ⟨R, hop, hrest⟩ := h
    exact ⟨R, hop, ih hrest⟩

theorem Leads.split {ops ops' : List ι} (h : Leads view undo total (ops ++ ops') P Q) :
    ∃ M, Leads view undo total ops P M ∧ Leads view undo total ops' M Q := by
  induction ops generalizing P with
  | nil => exact ⟨P, fun _ hx => hx, h⟩
  | cons op ops ih =>
    obtain ⟨R, hop, hrest⟩ := h
    obtain ⟨M, hmid, hlast⟩ := ih hrest
    exact ⟨M, ⟨R, hop, hmid⟩, hlast⟩

theorem Leads.and_kept {ops : List ι} {I : τ → Prop}
    (hkept : ∀ op ∈ ops, ∀ s s', I (view s) → undo s op = .ok s' → I (view s'))
    (h : Leads view undo total ops P Q) :
    Leads view undo total ops (fun x => P x ∧ I x) (fun x => Q x ∧ I x) := by
  induction ops generalizing P with
  | nil => exact fun x hx => ⟨h x hx.1, hx.2⟩
  | cons op ops ih =>
    obtain ⟨M, hop, hrest⟩ := h
    refine ⟨fun x => M x ∧ I x, ?_,
      ih (fun op' hop' => hkept op' (List.mem_cons_of_mem _ hop')) hrest⟩
    rintro s ⟨hs, hI⟩
    rcases hop s hs with ⟨s', hundo, hM⟩ | hfails
    · exact .inl ⟨s', hundo, hM, hkept op List.mem_cons_self s s' hI hundo⟩
    · exact .inr hfails

end C2Pool.UndoLog
