import C2Pool.Lib.Run
import C2Pool.Xmr.ChainIndex

/-! # The calls an operation is made of

Every operation of the index moves the best chain one block at a time.  The
loops of a switch and of an abandonment come down to four calls, and what each
call keeps is kept by every operation.
-/

namespace C2Pool.Xmr.ChainIndex

open Run

/-- One move of the best chain by one block. -/
inductive Call where
  /-- A block is connected and everything follows. -/
  | push (block : BlockConnectInput) (powOk : Bool) (powHash : Hash) (ownMined : Bool) (now : U64)
  /-- A block is connected to the view and taken back, for its difficulty disagreed. -/
  | probe (block : BlockConnectInput) (powOk : Bool) (now : U64)
  /-- The tip is disconnected; where the view refuses, nothing happens. -/
  | pop
  /-- An applied block is taken back; the answer of the view is not looked at. -/
  | unpush

variable (retarget : Retarget)

def call (x : ChainIndex) : Call → ChainIndex
  | .push block powOk powHash ownMined now =>
    x.connectToTip retarget block powOk powHash ownMined now
  | .probe block powOk now =>
    match x.view.connect retarget block powOk now with
    | none => x
    | some (_, view) => { x with view := view.disconnectTip.getD view }
  | .pop =>
    match x.view.disconnectTip with
    | none => x
    | some view => x.unfollow view
  | .unpush => x.unfollow (x.view.disconnectTip.getD x.view)

/-! ## The calls of the loops -/

/-- The calls of `unwind`. -/
def unwindCalls (forkHeight : U64) : Nat → ChainIndex → List Call
  | 0, _ => []
  | n + 1, x =>
    match x.rows.byHeight (forkHeight + Fin.ofNat (2 ^ 64) (n + 1)) with
    | none => []
    | some _ =>
      match x.view.disconnectTip with
      | none => []
      | some view => .pop :: unwindCalls forkHeight n (x.unfollow view)

/-- The calls of `applyBranch`. -/
def applyCalls (clock : Nat → U64) : List AltBlock → ChainIndex → Nat → List Call
  | [], _, _ => []
  | b :: branch, x, applied =>
    match b.block with
    | none => []
    | some block =>
      match x.view.connect retarget block b.powVerified (clock applied) with
      | none => []
      | some (row, view) =>
        if u128Less row.difficulty b.difficulty || u128Less b.difficulty row.difficulty then
          [.probe block b.powVerified (clock applied)]
        else
          .push block b.powVerified 0 b.ownMined (clock applied) ::
            applyCalls clock branch (x.follow row view b.ownMined 0) (applied + 1)

/-- The calls of `reapply`. -/
def reapplyCalls (clock : Nat → U64) :
    List (RowRecord × Option BlockConnectInput) → ChainIndex → Nat → List Call
  | [], _, _ => []
  | (_, none) :: _, _, _ => []
  | (rr, some block) :: rest, x, n =>
    match x.view.connect retarget block rr.row.powVerified (clock n) with
    | none => []
    | some (row, view) =>
      .push block rr.row.powVerified rr.powHash rr.ownMined (clock n) ::
        reapplyCalls clock rest (x.follow row view rr.ownMined rr.powHash) (n + 1)

def opCalls (x : ChainIndex) : Op → List Call
  | .connect block powOk powHash ownMined now => [.push block powOk powHash ownMined now]
  | .switch w =>
    match x.judgeSwitch w with
    | none => []
    | some forkHeight =>
      let unwound := unwind w.bodies forkHeight (x.depthAbove forkHeight) x []
      let applied := applyBranch retarget w.applyClock w.branch unwound.1 0
      unwindCalls forkHeight (x.depthAbove forkHeight) x ++
        (applyCalls retarget w.applyClock w.branch unwound.1 0 ++
          if applied.2.2 then []
          else List.replicate applied.2.1 .unpush ++
            reapplyCalls retarget w.restoreClock unwound.2 (unapply applied.2.1 applied.1) 0)
  | .abandon baseHeight =>
    match x.judgeAbandon baseHeight with
    | none => []
    | some forkHeight => unwindCalls forkHeight (x.depthAbove forkHeight) x

def runCalls : ChainIndex → List Op → List Call
  | _, [] => []
  | x, op :: ops => opCalls retarget x op ++ runCalls (x.step retarget op) ops

variable {retarget}

theorem run_unwindCalls (bodies : Hash → Option BlockConnectInput) (forkHeight : U64) (n : Nat)
    (x : ChainIndex) (unwound : List (RowRecord × Option BlockConnectInput)) :
    run (call retarget) x (unwindCalls forkHeight n x) =
      (unwind bodies forkHeight n x unwound).1 := by
  induction n generalizing x unwound with
  | zero => rfl
  | succ n ih =>
    cases hrow : x.rows.byHeight (forkHeight + Fin.ofNat (2 ^ 64) (n + 1)) with
    | none => simp only [unwindCalls, unwind, hrow, run_nil]
    | some rr =>
      cases hview : x.view.disconnectTip with
      | none => simp only [unwindCalls, unwind, hrow, hview, run_nil]
      | some view =>
        have hcall : call retarget x .pop = x.unfollow view := by simp [call, hview]
        simp only [unwindCalls, unwind, hrow, hview, run_cons, hcall]
        exact ih (x.unfollow view) _

theorem call_push {x : ChainIndex} {block : BlockConnectInput} {powOk ownMined : Bool}
    {powHash : Hash} {now : U64} {row : ChainRow} {view : ChainStateView}
    (hview : x.view.connect retarget block powOk now = some (row, view)) :
    call retarget x (.push block powOk powHash ownMined now) =
      x.follow row view ownMined powHash := by
  simp [call, connectToTip, hview]

theorem run_applyCalls (clock : Nat → U64) (branch : List AltBlock) (x : ChainIndex)
    (applied : Nat) :
    run (call retarget) x (applyCalls retarget clock branch x applied) =
      (applyBranch retarget clock branch x applied).1 := by
  induction branch generalizing x applied with
  | nil => rfl
  | cons b branch ih =>
    cases hblock : b.block with
    | none => simp [applyCalls, applyBranch, hblock]
    | some block =>
      cases hview : x.view.connect retarget block b.powVerified (clock applied) with
      | none => simp [applyCalls, applyBranch, hblock, hview]
      | some connected =>
        obtain ⟨row, view⟩ := connected
        simp only [applyCalls, applyBranch, hblock, hview]
        split
        · simp [call, hview]
        · rw [run_cons, call_push hview]
          exact ih _ _

theorem run_unpush (n : Nat) (x : ChainIndex) :
    run (call retarget) x (List.replicate n .unpush) = unapply n x := by
  induction n generalizing x with
  | zero => rfl
  | succ n ih =>
    exact ih _

theorem run_reapplyCalls (clock : Nat → U64)
    (unwound : List (RowRecord × Option BlockConnectInput)) (x : ChainIndex) (n : Nat) :
    run (call retarget) x (reapplyCalls retarget clock unwound x n) =
      reapply retarget clock unwound x n := by
  induction unwound generalizing x n with
  | nil => rfl
  | cons head rest ih =>
    obtain ⟨rr, body⟩ := head
    cases body with
    | none => rfl
    | some block =>
      cases hview : x.view.connect retarget block rr.row.powVerified (clock n) with
      | none => simp [reapplyCalls, reapply, hview]
      | some connected =>
        obtain ⟨row, view⟩ := connected
        simp only [reapplyCalls, reapply, Option.bind_some, hview, run_cons, call_push hview]
        exact ih _ _

theorem run_opCalls (x : ChainIndex) (op : Op) :
    run (call retarget) x (opCalls retarget x op) = x.step retarget op := by
  cases op with
  | connect block powOk powHash ownMined now => rfl
  | abandon baseHeight =>
    cases hjudged : x.judgeAbandon baseHeight with
    | none => simp [opCalls, step, abandonOwnFork, hjudged]
    | some forkHeight =>
      simp only [opCalls, step, abandonOwnFork, hjudged]
      exact run_unwindCalls _ _ _ _ _
  | switch w =>
    cases hjudged : x.judgeSwitch w with
    | none => simp [opCalls, step, maybeSwitch, hjudged]
    | some forkHeight =>
      simp only [opCalls, step, maybeSwitch, hjudged]
      rw [run_append, run_unwindCalls w.bodies _ _ _ [], run_append, run_applyCalls]
      split
      · rfl
      · rw [run_append, run_unpush, run_reapplyCalls]

theorem run_runCalls (x : ChainIndex) (ops : List Op) :
    run (call retarget) x (runCalls retarget x ops) = run (step retarget) x ops := by
  induction ops generalizing x with
  | nil => rfl
  | cons op ops ih =>
    rw [runCalls, run_append, run_opCalls, ih]
    rfl

end C2Pool.Xmr.ChainIndex
