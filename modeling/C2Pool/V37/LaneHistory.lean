import C2Pool.V37.LaneSame

/-! # Histories

The journal of a lane is made of the records of its last pushes, one group a
push, and each group leads back to the lane before that push.  Trimming keeps
whole groups, and `rewind` undoes whole groups.
-/

namespace C2Pool.V37

open List UndoLog PartialRun

namespace Op

variable {op : Op}

theorem isPush_kind (h : op.isPush = true) : op.isPreOp = false ∧ op.isBoundary = false := by
  cases op <;> first | exact ⟨rfl, rfl⟩ | cases h

theorem isPostOp_kind (h : op.isPostOp = true) :
    op.isPreOp = false ∧ op.isBoundary = false ∧ op.isPush = false := by
  cases op <;> first | exact ⟨rfl, rfl, rfl⟩ | cases h

theorem isPreOp_kind (h : op.isPreOp = true) : op.isBoundary = false ∧ op.isPush = false := by
  cases op <;> first | exact ⟨rfl, rfl⟩ | cases h

end Op

namespace Lane

/-- The records of one push, newest first: evictions or the migration, the push
record, and the records before it. -/
structure Group where
  posts : List Op
  push : Op
  pres : List Op
  posts_kind : ∀ op ∈ posts, op.isPostOp = true
  push_kind : push.isPush = true
  pres_kind : ∀ op ∈ pres, op.isPreOp = true

def Group.ops (g : Group) : List Op := g.posts ++ g.push :: g.pres

/-- The journal `journal` of a lane with the lanes before its recorded pushes,
newest first.  The push that triggered a rebuild is recorded but cannot be
undone. -/
inductive History (env : Env) (total : Prop) : List Op → Lane → List Lane → Prop where
  | fresh (lane : Lane) : History env total [] lane []
  | rebuilt (lane : Lane) (g : Group) : History env total (g.ops ++ [.rebuildBoundary]) lane []
  | push {before after : Lane} {g : Group} {journal : List Op} {earlier : List Lane}
      (leads : LaneLeads env total g.ops (Like env after) (Like env before))
      (rest : History env total journal before earlier) :
      History env total (g.ops ++ journal) after (before :: earlier)

variable {env : Env} {total : Prop} {pres : List Op} {lane' settled : Lane} {d : Nat}
  {resolver : Option Resolver} {rest : List Op} {push : Op} {a : WorkAtom} {P : Lane → Prop}

theorem Like.of_equiv {x y s : Lane} (h : Like env x s) (hxy : x ≈ y) : Like env y s :=
  ⟨Setoid.trans h.1 hxy, h.2⟩

variable {journal pending : List Op} {lane before : Lane} {earlier : List Lane}

theorem History.of_equiv (h : History env total journal lane earlier) (hlane : lane' ≈ lane) :
    History env total journal lane' earlier := by
  cases h with
  | fresh => exact .fresh lane'
  | rebuilt _ g => exact .rebuilt lane' g
  | push leads rest => exact .push (leads.of_imp fun _ hs => hs.of_equiv hlane) rest

variable {op : Op}

namespace Group

variable (g : Group) (tail : List Op)

theorem kind_of_mem (h : op ∈ g.ops) : op.isBoundary = false := by
  rcases mem_append.mp h with h | h
  · exact (Op.isPostOp_kind (g.posts_kind op h)).2.1
  rcases mem_cons.mp h with h | h
  · exact h ▸ (Op.isPush_kind g.push_kind).2
  · exact (Op.isPreOp_kind (g.pres_kind op h)).1

theorem pushes_append : pushes (g.ops ++ tail) = pushes tail + 1 := by
  have hposts : g.posts.countP (fun op => op.isPush) = 0 :=
    countP_eq_zero.mpr fun op hop => by
      simp [(Op.isPostOp_kind (g.posts_kind op hop)).2.2]
  have hpres : g.pres.countP (fun op => op.isPush) = 0 :=
    countP_eq_zero.mpr fun op hop => by
      simp [(Op.isPreOp_kind (g.pres_kind op hop)).2]
  unfold pushes ops
  rw [countP_append, countP_append, countP_cons, if_pos g.push_kind, hposts, hpres]
  omega

theorem boundary_append :
    (∃ op ∈ g.ops ++ tail, op.isBoundary = true) ↔ ∃ op ∈ tail, op.isBoundary = true := by
  constructor
  · rintro ⟨op, hop, hboundary⟩
    rcases mem_append.mp hop with hop | hop
    · rw [g.kind_of_mem hop] at hboundary
      cases hboundary
    · exact ⟨op, hop, hboundary⟩
  · rintro ⟨op, hop, hboundary⟩
    exact ⟨op, mem_append_right _ hop, hboundary⟩

theorem head (h : g.ops ++ tail = op :: rest) : op.isPreOp = false ∧ op.isBoundary = false := by
  unfold ops at h
  cases hposts : g.posts with
  | nil =>
    rw [hposts] at h
    cases h
    exact Op.isPush_kind g.push_kind
  | cons newest posts =>
    rw [hposts] at h
    cases h
    have hkind := Op.isPostOp_kind (g.posts_kind op (hposts ▸ mem_cons_self))
    exact ⟨hkind.1, hkind.2.1⟩

end Group

namespace History

theorem head {earlier : List Lane} {lane : Lane} (h : History env total (op :: rest) lane earlier) :
    op.isPreOp = false ∧ op.isBoundary = false := by
  generalize hjournal : op :: rest = journal at h
  cases h with
  | fresh => cases hjournal
  | rebuilt _ g => exact g.head _ hjournal.symm
  | push leads older => exact Group.head _ _ hjournal.symm

theorem count {earlier : List Lane} {lane : Lane} {journal : List Op}
    (h : History env total journal lane earlier) :
    (¬ (∃ op ∈ journal, op.isBoundary = true) ∧ pushes journal = earlier.length) ∨
      ((∃ op ∈ journal, op.isBoundary = true) ∧ pushes journal = earlier.length + 1) := by
  induction h with
  | fresh lane => exact .inl ⟨by simp, rfl⟩
  | rebuilt lane g =>
    refine .inr ⟨⟨.rebuildBoundary, by simp, rfl⟩, ?_⟩
    rw [g.pushes_append]
    rfl
  | @push _ _ g journal earlier leads rest ih =>
    rw [g.pushes_append, g.boundary_append, length_cons]
    rcases ih with ⟨hnone, hcount⟩ | ⟨hsome, hcount⟩
    · exact .inl ⟨hnone, by omega⟩
    · exact .inr ⟨hsome, by omega⟩

end History

theorem cut_cons (d : Nat) (op : Op) (ops : List Op) :
    cut d (op :: ops) =
      if op.isPush then
        if d = 1 then some ([op], ops)
        else (cut (d - 1) ops).map fun parts => (op :: parts.1, parts.2)
      else (cut d ops).map fun parts => (op :: parts.1, parts.2) := rfl

theorem cut_zero (ops : List Op) : cut 0 ops = none := by
  induction ops with
  | nil => rfl
  | cons op ops ih =>
    rw [cut_cons]
    simp [ih]

theorem cut_skip {ops : List Op} (h : ∀ op ∈ ops, op.isPush = false) (d : Nat) (rest : List Op) :
    cut d (ops ++ rest) = (cut d rest).map fun parts => (ops ++ parts.1, parts.2) := by
  induction ops with
  | nil => simp
  | cons op ops ih =>
    rw [cons_append, cut_cons, h op mem_cons_self,
      ih fun op' hop' => h op' (mem_cons_of_mem _ hop'), if_neg (by simp), Option.map_map]
    rfl

theorem cut_group_one (g : Group) (tail : List Op) :
    cut 1 (g.ops ++ tail) = some (g.posts ++ [g.push], g.pres ++ tail) := by
  have hposts : ∀ op ∈ g.posts, op.isPush = false :=
    fun op hop => (Op.isPostOp_kind (g.posts_kind op hop)).2.2
  unfold Group.ops
  rw [append_assoc, cut_skip hposts, cons_append, cut_cons, if_pos g.push_kind]
  rfl

theorem cut_group (hd : d ≠ 0) (g : Group) (tail : List Op) :
    cut (d + 1) (g.ops ++ tail) = (cut d tail).map fun parts => (g.ops ++ parts.1, parts.2) := by
  have hposts : ∀ op ∈ g.posts, op.isPush = false :=
    fun op hop => (Op.isPostOp_kind (g.posts_kind op hop)).2.2
  have hpres : ∀ op ∈ g.pres, op.isPush = false :=
    fun op hop => (Op.isPreOp_kind (g.pres_kind op hop)).2
  unfold Group.ops
  rw [append_assoc, cut_skip hposts, cons_append, cut_cons, if_pos g.push_kind,
    if_neg (by omega), Nat.add_sub_cancel, cut_skip hpres]
  cases cut d tail with
  | none => rfl
  | some parts => simp

/-- What a trim keeps in front of the push it cuts at. -/
def isKept (op : Op) : Bool := op.isPreOp || op.isBoundary

theorem takeWhile_pres (h : ∀ op ∈ pres, op.isPreOp = true) (tail : List Op) :
    (pres ++ tail).takeWhile isKept = pres ++ tail.takeWhile isKept := by
  apply takeWhile_append_of_pos
  intro op hop
  simp [isKept, h op hop]

section

variable (h : History env total journal lane earlier)
include h

theorem History.takeWhile_eq_nil : journal.takeWhile isKept = [] := by
  cases journal with
  | nil => rfl
  | cons op rest =>
    obtain ⟨hpre, hboundary⟩ := h.head
    simp [isKept, hpre, hboundary]

theorem History.cut (hd : d ≠ 0) :
    (Lane.cut d journal = none ∧ earlier.length < d) ∨
      ∃ kept rest, Lane.cut d journal = some (kept, rest) ∧
        History env total (kept ++ rest.takeWhile isKept) lane (earlier.take d) := by
  induction h generalizing d with
  | fresh lane => exact .inl ⟨rfl, by simpa using Nat.pos_of_ne_zero hd⟩
  | rebuilt lane g =>
    obtain ⟨d, rfl⟩ := Nat.exists_eq_succ_of_ne_zero hd
    by_cases hone : d = 0
    · subst hone
      refine .inr ⟨_, _, cut_group_one g _, ?_⟩
      have htail : [Op.rebuildBoundary].takeWhile isKept = [.rebuildBoundary] := rfl
      rw [takeWhile_pres g.pres_kind, htail, append_assoc, singleton_append, take_nil]
      have hsame : History env total _ lane [] := .rebuilt lane g
      unfold Group.ops at hsame
      rwa [append_assoc, cons_append] at hsame
    refine .inl ⟨?_, Nat.succ_pos d⟩
    rw [cut_group hone, cut_cons]
    simp [Op.isPush, Lane.cut]
  | @push before after g journal earlier leads rest ih =>
    obtain ⟨d, rfl⟩ := Nat.exists_eq_succ_of_ne_zero hd
    by_cases hone : d = 0
    · subst hone
      refine .inr ⟨_, _, cut_group_one g _, ?_⟩
      rw [takeWhile_pres g.pres_kind, rest.takeWhile_eq_nil, append_nil,
        append_assoc, singleton_append, take_succ_cons, take_zero]
      have hsame : History env total _ after [before] := .push leads (.fresh before)
      rwa [append_nil] at hsame
    rcases ih hone with ⟨hnone, hlen⟩ | ⟨kept, behind, hsome, hkept⟩
    · refine .inl ⟨?_, by rw [length_cons]; omega⟩
      rw [cut_group hone, hnone]
      rfl
    refine .inr ⟨g.ops ++ kept, behind, ?_, ?_⟩
    · rw [cut_group hone, hsome]
      rfl
    · rw [append_assoc, take_succ_cons]
      exact .push leads hkept

theorem History.trim (hd : d ≠ 0) :
    History env total (Lane.trim d journal) lane (earlier.take d) := by
  unfold Lane.trim
  rcases h.cut hd with ⟨hnone, hlen⟩ | ⟨kept, rest, hsome, hkept⟩
  · rw [hnone, take_of_length_le (by omega)]
    exact h
  · rw [hsome]
    exact hkept

end

theorem trim_zero (journal : List Op) : trim 0 journal = journal := by
  unfold trim
  rw [cut_zero]

theorem trim_ne_nil (d : Nat) (op : Op) (ops : List Op) : trim d (op :: ops) ≠ [] := by
  unfold trim
  split
  · exact cons_ne_nil op ops
  rename_i kept rest hcut
  rw [cut_cons] at hcut
  split at hcut
  · split at hcut
    · cases hcut
      simp
    obtain ⟨parts, -, hparts⟩ := Option.map_eq_some_iff.mp hcut
    cases hparts
    simp
  obtain ⟨parts, -, hparts⟩ := Option.map_eq_some_iff.mp hcut
  cases hparts
  simp

/-! ## Pushes -/

theorem History.pushed {after : Lane} {M : Lane → Prop}
    (h : History env total journal before earlier) (hpush : push.isPush = true)
    (hpres : ∀ op ∈ pres, op.isPreOp = true) (hleads : LaneLeads env total pres M (Like env before))
    (hundoes : LaneUndoes env total push (Like env after) M) (d : Nat) :
    ∃ earlier', earlier' <+: before :: earlier ∧
      (d ≠ 0 → earlier' = (before :: earlier).take d) ∧
      History env total (Lane.trim d (push :: (pres ++ journal))) after earlier' := by
  let g : Group := ⟨[], push, pres, by simp, hpush, hpres⟩
  have hgroup : History env total (g.ops ++ journal) after (before :: earlier) :=
    .push ⟨M, hundoes, hleads⟩ h
  by_cases hd : d = 0
  · subst hd
    refine ⟨before :: earlier, prefix_rfl, fun hne => absurd rfl hne, ?_⟩
    rw [trim_zero]
    exact hgroup
  · exact ⟨(before :: earlier).take d, take_prefix _ _, fun _ => rfl, hgroup.trim hd⟩

theorem History.restarted (hpush : push.isPush = true)
    (hpres : ∀ op ∈ pres, op.isPreOp = true) (d : Nat) (lane : Lane) :
    History env total (Lane.trim d (push :: (pres ++ [.rebuildBoundary]))) lane [] := by
  let g : Group := ⟨[], push, pres, by simp, hpush, hpres⟩
  have hgroup : History env total (g.ops ++ [.rebuildBoundary]) lane [] := .rebuilt lane g
  by_cases hd : d = 0
  · subst hd
    rw [trim_zero]
    exact hgroup
  · have htrim := hgroup.trim hd
    rwa [take_nil] at htrim

theorem History.posts (h : History env total lane.journal lane earlier) (hne : lane.journal ≠ [])
    (hposts : Recorded env total Op.isPostOp lane lane') :
    History env total lane'.journal lane' earlier := by
  obtain ⟨ops, hjournal, hkind, hleads⟩ := hposts
  have hjoin : ∀ g : Group, ∃ g' : Group, g'.ops = ops ++ g.ops := by
    intro g
    refine ⟨{ g with posts := ops ++ g.posts, posts_kind := ?_ }, ?_⟩
    · intro op hop
      exact (mem_append.mp hop).elim (hkind op) (g.posts_kind op)
    · simp [Group.ops]
  rw [hjournal]
  generalize lane.journal = journal at h hne
  cases h with
  | fresh => exact absurd rfl hne
  | rebuilt _ g =>
    obtain ⟨g', hg'⟩ := hjoin g
    rw [← append_assoc, ← hg']
    exact .rebuilt lane' g'
  | @push _ _ g _ _ leads rest =>
    obtain ⟨g', hg'⟩ := hjoin g
    rw [← append_assoc, ← hg']
    exact .push (hg' ▸ hleads.append leads) rest

theorem settle_eq_ok (h : lane.settle = .ok settled) :
    ∃ start, lane.rebuildIfDue = .ok start ∧ Recorded env total Op.isPreOp start settled := by
  obtain ⟨start, hstart, h⟩ := bind_eq_ok.mp h
  obtain ⟨folded, hfolded, h⟩ := bind_eq_ok.mp h
  cases h
  refine ⟨start, hstart, ?_⟩
  have hfold : Recorded env total Op.isPreOp start folded := by
    unfold foldIfFull at hfolded
    split at hfolded
    · obtain ⟨op, hjournal, hkind, hundoes⟩ := foldL0_undoes hfolded
      exact .of_undoes hjournal hkind hundoes
    · cases hfolded
      exact .refl _ _
  exact hfold.trans (cascadeFolds_recorded folded)

theorem epochRebuild_eq_ok {rebuilt : Lane} (h : lane.epochRebuild = .ok rebuilt) :
    rebuilt.journal = [.rebuildBoundary] ∧ rebuilt.params = lane.params := by
  unfold epochRebuild at h
  split at h
  · cases h
  · cases h
    exact ⟨rfl, rfl⟩

theorem foldLevel_params (lane : Lane) (k : Nat) : (lane.foldLevel k).params = lane.params := by
  unfold foldLevel
  split <;> rfl

theorem cascadeFolds_params (lane : Lane) : lane.cascadeFolds.params = lane.params := by
  unfold cascadeFolds
  induction List.range (lane.numLevels - 1) generalizing lane with
  | nil => rfl
  | cons k ks ih => exact (ih (lane.foldLevel k)).trans (foldLevel_params lane k)

theorem settle_params (h : lane.settle = .ok settled) : settled.params = lane.params := by
  obtain ⟨start, hstart, h⟩ := bind_eq_ok.mp h
  obtain ⟨folded, hfolded, h⟩ := bind_eq_ok.mp h
  cases h
  rw [cascadeFolds_params]
  have hstart : start.params = lane.params := by
    unfold rebuildIfDue at hstart
    split at hstart
    · exact (epochRebuild_eq_ok hstart).2
    · cases hstart
      rfl
  have hfolded : folded.params = start.params := by
    unfold foldIfFull at hfolded
    split at hfolded
    · obtain ⟨scaled, raw, -, -, rfl⟩ := foldL0_eq_ok hfolded
      rfl
    · cases hfolded
      rfl
  exact hfolded.trans hstart

theorem pushPositional_history (h : History env total journal before earlier)
    (hjournal : lane.journal = pending ++ journal) (hpending : ∀ op ∈ pending, op.isPreOp = true)
    (hleads : LaneLeads env total pending (Like env lane) (Like env before))
    (hpush : lane.pushPositional env resolver a = .ok lane') :
    ∃ earlier', History env total lane'.journal lane' earlier' ∧ lane'.journal ≠ [] ∧
      earlier' <+: before :: earlier ∧
      (lane.nextPos - lane.base ≠ lane.params.epochLen → lane.params.journalDepth ≠ 0 →
        earlier' = (before :: earlier).take lane.params.journalDepth) := by
  obtain ⟨settled, hsettle, hevict⟩ := bind_eq_ok.mp hpush
  have hparams := settle_params hsettle
  obtain ⟨start, hstart, ops, hops, hkind, hback⟩ := settle_eq_ok hsettle
  obtain ⟨s, hinserted, hundoes⟩ := insertSlot_undoes env total settled a
  have hposts : Recorded env total _ _ _ := evictLoop_recorded hevict
  have hne : (settled.insertSlot a).journal ≠ [] := by
    exact trim_ne_nil _ _ _
  have hne' : lane'.journal ≠ [] := by
    obtain ⟨posts, hposts, -⟩ := hposts
    rw [hposts]
    simp [hne]
  unfold rebuildIfDue at hstart
  split at hstart
  · rename_i hdue
    refine ⟨[], ?_, hne', nil_prefix, fun hnot => absurd hdue hnot⟩
    apply History.posts _ hne hposts
    rw [hinserted, hops, (epochRebuild_eq_ok hstart).1]
    exact .restarted rfl hkind _ _
  cases hstart
  have hall : ∀ op ∈ ops ++ pending, op.isPreOp = true := by
    intro op hop
    exact (mem_append.mp hop).elim (hkind op) (hpending op)
  obtain ⟨earlier', hearlier, htake, hhistory⟩ :=
    h.pushed rfl hall (hback.append hleads) hundoes settled.params.journalDepth
  refine ⟨earlier', ?_, hne', hearlier, ?_⟩
  · apply History.posts _ hne hposts
    rw [hinserted, hops, hjournal, ← append_assoc]
    exact hhistory
  intro _ hdepth
  rw [← hparams] at hdepth ⊢
  exact htake hdepth

/-! ## Rewinds -/

theorem undoPushes_zero (journal : List Op) (lane : Lane) :
    undoPushes env journal 0 lane = .ok { lane with journal := journal } := by
  cases journal <;> rfl

theorem undoPushes_skip (hpres : ∀ op ∈ pres, op.isPush = false)
    (hbound : ∀ op ∈ pres, op.isBoundary = false) {P Q : Lane → Prop} (hlane : P lane.unlogged)
    (hleads : LaneLeads env total pres P Q) (d : Nat) (rest : List Op) :
    (∃ r, Q r.unlogged ∧
      undoPushes env (pres ++ rest) (d + 1) lane = undoPushes env rest (d + 1) r) ∨
      ¬ total ∧ ∃ e, undoPushes env (pres ++ rest) (d + 1) lane = .error e := by
  induction pres generalizing lane P with
  | nil => exact .inl ⟨lane, hleads _ hlane, rfl⟩
  | cons op pres ih =>
    obtain ⟨M, hop, hrest⟩ := hleads
    rcases hop { lane with journal := pres ++ rest } hlane with
      ⟨undone, hundone, hM⟩ | ⟨hfails, e, herr⟩
    · have hstep : undoPushes env (op :: pres ++ rest) (d + 1) lane =
          undoPushes env (pres ++ rest) (d + 1) undone := by
        rw [cons_append, undoPushes, hbound op mem_cons_self, hundone, hpres op mem_cons_self]
        rfl
      rw [hstep]
      exact ih (fun op' hop' => hpres op' (mem_cons_of_mem _ hop'))
        (fun op' hop' => hbound op' (mem_cons_of_mem _ hop')) hM hrest
    refine .inr ⟨hfails, e, ?_⟩
    rw [cons_append, undoPushes, hbound op mem_cons_self, herr]
    rfl

theorem undoPreOps_eq_ok (hpres : ∀ op ∈ pres, op.isPreOp = true) (hlane : P lane.unlogged)
    (hleads : LaneLeads env total pres P (Like env before))
    (hrest : History env total rest before earlier) :
    (∃ r, undoPreOps env (pres ++ rest) lane = .ok r ∧ Like env before r.unlogged ∧
      r.journal = rest) ∨
      ¬ total ∧ ∃ e, undoPreOps env (pres ++ rest) lane = .error e := by
  induction pres generalizing lane P with
  | nil =>
    refine .inl ⟨{ lane with journal := rest }, ?_, hleads _ hlane, rfl⟩
    rw [nil_append]
    cases rest with
    | nil => rfl
    | cons op rest =>
      rw [undoPreOps, hrest.head.1]
      rfl
  | cons op pres ih =>
    obtain ⟨M, hop, hleads⟩ := hleads
    rcases hop { lane with journal := pres ++ rest } hlane with
      ⟨undone, hundone, hM⟩ | ⟨hfails, e, herr⟩
    · have hstep : undoPreOps env (op :: pres ++ rest) lane =
          undoPreOps env (pres ++ rest) undone := by
        rw [cons_append, undoPreOps, if_pos (hpres op mem_cons_self), hundone]
        rfl
      rw [hstep]
      exact ih (fun op' hop' => hpres op' (mem_cons_of_mem _ hop')) hM hleads
    refine .inr ⟨hfails, e, ?_⟩
    rw [cons_append, undoPreOps, if_pos (hpres op mem_cons_self), herr]
    rfl

/-- Undoing `d + 1` pushes stops behind the push record of the last of them. -/
theorem History.undoPushes (h : History env total journal before earlier) (hd : d < earlier.length)
    (hpending : ∀ op ∈ pending, op.isPreOp = true) (hlane : P lane.unlogged)
    (hleads : LaneLeads env total pending P (Like env before)) :
    (∃ pres rest r M, Lane.undoPushes env (pending ++ journal) (d + 1) lane = .ok r ∧
      r.journal = pres ++ rest ∧ (∀ op ∈ pres, op.isPreOp = true) ∧ M r.unlogged ∧
      LaneLeads env total pres M (Like env earlier[d]) ∧
      History env total rest earlier[d] (earlier.drop (d + 1))) ∨
      ¬ total ∧ ∃ e, Lane.undoPushes env (pending ++ journal) (d + 1) lane = .error e := by
  induction h generalizing d pending lane P with
  | fresh _ => exact absurd hd (Nat.not_lt_zero d)
  | rebuilt _ _ => exact absurd hd (Nat.not_lt_zero d)
  | @push before after g journal earlier leads rest ih =>
    rcases undoPushes_skip (fun op hop => (Op.isPreOp_kind (hpending op hop)).2)
      (fun op hop => (Op.isPreOp_kind (hpending op hop)).1) hlane hleads d (g.ops ++ journal)
      with ⟨r, hr, hskip⟩ | herror
    swap
    · exact .inr herror
    obtain ⟨T, hposts, hpush⟩ := leads.split
    rcases undoPushes_skip (fun op hop => (Op.isPostOp_kind (g.posts_kind op hop)).2.2)
      (fun op hop => (Op.isPostOp_kind (g.posts_kind op hop)).2.1) hr hposts d
      (g.push :: g.pres ++ journal) with ⟨r', hr', hskip'⟩ | ⟨hfails, e, herr⟩
    swap
    · refine .inr ⟨hfails, e, ?_⟩
      rw [hskip, Group.ops, append_assoc]
      exact herr
    obtain ⟨M, hundoes, hpres⟩ := hpush
    have hmid : Lane.undoPushes env (pending ++ (g.ops ++ journal)) (d + 1) lane =
        Lane.undoPushes env (g.push :: g.pres ++ journal) (d + 1) r' := by
      rw [hskip, Group.ops, append_assoc, hskip']
    rcases hundoes { r' with journal := g.pres ++ journal } hr' with
      ⟨undone, hundone, hM⟩ | ⟨hfails, e, herr⟩
    swap
    · refine .inr ⟨hfails, e, ?_⟩
      rw [hmid, cons_append, Lane.undoPushes, (Op.isPush_kind g.push_kind).2, herr]
      rfl
    have hloop : Lane.undoPushes env (pending ++ (g.ops ++ journal)) (d + 1) lane =
        Lane.undoPushes env (g.pres ++ journal) d undone := by
      rw [hmid, cons_append, Lane.undoPushes, (Op.isPush_kind g.push_kind).2, hundone, g.push_kind]
      rfl
    cases d with
    | zero =>
      exact .inl ⟨g.pres, journal, { undone with journal := g.pres ++ journal }, M,
        hloop.trans (undoPushes_zero _ _), rfl, g.pres_kind, hM, hpres, rest⟩
    | succ d =>
      rw [hloop]
      exact ih (Nat.lt_of_succ_lt_succ hd) g.pres_kind hM hpres

theorem pushes_pending (hjournal : lane.journal = pending ++ journal)
    (hpending : ∀ op ∈ pending, op.isPreOp = true) : pushes lane.journal = pushes journal := by
  rw [hjournal]
  unfold pushes
  rw [countP_append, countP_eq_zero.mpr, Nat.zero_add]
  intro op hop
  simp [(Op.isPreOp_kind (hpending op hop)).2]

theorem boundary_pending (hjournal : lane.journal = pending ++ journal)
    (hpending : ∀ op ∈ pending, op.isPreOp = true)
    (h : ∃ op ∈ lane.journal, op.isBoundary = true) : ∃ op ∈ journal, op.isBoundary = true := by
  obtain ⟨op, hop, hbound⟩ := h
  rw [hjournal] at hop
  rcases mem_append.mp hop with hop | hop
  · rw [(Op.isPreOp_kind (hpending op hop)).1] at hbound
    cases hbound
  · exact ⟨op, hop, hbound⟩

section

variable (h : History env total journal before earlier)
  (hjournal : lane.journal = pending ++ journal) (hpending : ∀ op ∈ pending, op.isPreOp = true)
include h hjournal hpending

theorem History.rewind (hscaled : lane.Scaled env)
    (hleads : LaneLeads env total pending (Like env lane) (Like env before))
    (hd : d < earlier.length) :
    (∃ r, lane.rewind env (d + 1) = .ok (true, r) ∧ Like env earlier[d] r.unlogged ∧
      History env total r.journal r (earlier.drop (d + 1))) ∨
      ¬ total ∧ ∃ e, lane.rewind env (d + 1) = .error e := by
  have henough : d + 1 ≤ pushes journal ∧
      ¬ ((∃ op ∈ lane.journal, op.isBoundary = true) ∧ d + 1 = pushes journal) := by
    rcases h.count with ⟨hnone, hcount⟩ | ⟨-, hcount⟩
    · exact ⟨by omega, fun hboth => hnone (boundary_pending hjournal hpending hboth.1)⟩
    · exact ⟨by omega, fun hboth => by omega⟩
  have hserved : lane.rewind env (d + 1) =
      Lane.undoPushes env (pending ++ journal) (d + 1) lane >>= fun undone =>
        undoPreOps env undone.journal undone >>= fun restored => .ok (true, restored) := by
    unfold Lane.rewind
    rw [pushes_pending hjournal hpending, if_neg (by omega), if_neg henough.2, hjournal]
  rw [hserved]
  rcases h.undoPushes hd hpending (like_self hscaled) hleads with
    ⟨pres, rest, undone, M, hloop, hleft, hpres, hM, hback, holder⟩ | ⟨hfails, e, herr⟩
  swap
  · exact .inr ⟨hfails, e, by rw [herr]; rfl⟩
  rcases undoPreOps_eq_ok hpres hM hback holder with ⟨r, hpreOps, hr, hrest⟩ | ⟨hfails, e, herr⟩
  · refine .inl ⟨r, ?_, hr, ?_⟩
    · rw [hloop]
      show undoPreOps env undone.journal undone >>= _ = _
      rw [hleft, hpreOps]
      rfl
    · rw [hrest]
      exact holder.of_equiv (Setoid.trans (Setoid.symm r.unlogged_equiv) hr.1)
  refine .inr ⟨hfails, e, ?_⟩
  rw [hloop]
  show undoPreOps env undone.journal undone >>= _ = _
  rw [hleft, herr]
  rfl

theorem History.rewind_zero (hscaled : lane.Scaled env)
    (hleads : LaneLeads env total pending (Like env lane) (Like env before)) :
    (∃ r, lane.rewind env 0 = .ok (true, r) ∧ Like env before r.unlogged ∧
      r.journal = journal) ∨
      ¬ total ∧ ∃ e, lane.rewind env 0 = .error e := by
  have hserved : lane.rewind env 0 =
      undoPreOps env (pending ++ journal) { lane with journal := lane.journal } >>=
        fun restored => .ok (true, restored) := by
    unfold Lane.rewind
    rw [if_neg (Nat.not_lt_zero _), if_neg, undoPushes_zero, ← hjournal]
    · rfl
    rintro ⟨hbound, hlast⟩
    rcases h.count with ⟨hnone, -⟩ | ⟨-, hcount⟩
    · exact hnone (boundary_pending hjournal hpending hbound)
    · rw [pushes_pending hjournal hpending] at hlast
      omega
  rw [hserved]
  have hlane : Like env lane ({ lane with journal := lane.journal } : Lane).unlogged :=
    like_self hscaled
  rcases undoPreOps_eq_ok hpending hlane hleads h with ⟨r, hpreOps, hr⟩ | ⟨hfails, e, herr⟩
  · exact .inl ⟨r, by rw [hpreOps]; rfl, hr⟩
  · exact .inr ⟨hfails, e, by rw [herr]; rfl⟩

theorem History.rewind_refused (hd : earlier.length < d) :
    lane.rewind env d = .ok (false, lane) := by
  unfold Lane.rewind
  rw [pushes_pending hjournal hpending]
  rcases h.count with ⟨-, hcount⟩ | ⟨⟨op, hop, hbound⟩, hcount⟩
  · rw [if_pos (by omega)]
  by_cases hlast : d = pushes journal
  · rw [if_neg (by omega), if_pos]
    exact ⟨⟨op, hjournal ▸ mem_append_right _ hop, hbound⟩, hlast⟩
  · rw [if_pos (by omega)]

end

/-- The ridge and what goes with it are the same. -/
structure Beside (lane lane' : Lane) : Prop where
  ridge : lane'.ridge = lane.ridge
  nextPos : lane'.nextPos = lane.nextPos
  params : lane'.params = lane.params
  ckpts : lane'.ckpts = lane.ckpts

theorem Beside.refl (lane : Lane) : Beside lane lane := ⟨rfl, rfl, rfl, rfl⟩

theorem Beside.trans {mid last : Lane} (h : Beside lane mid) (h' : Beside mid last) :
    Beside lane last :=
  ⟨h'.ridge.trans h.ridge, h'.nextPos.trans h.nextPos, h'.params.trans h.params,
    h'.ckpts.trans h.ckpts⟩

theorem rebuildIfDue_ridge {start : Lane} (h : lane.rebuildIfDue = .ok start) :
    start.ridge = lane.ridge ∧ start.nextPos = lane.nextPos ∧ start.params = lane.params ∧
      (lane.ckpts.length ≤ lane.params.mrr.ckptRetain →
        start.ckpts.length ≤ lane.params.mrr.ckptRetain) := by
  unfold rebuildIfDue at h
  split at h
  · unfold epochRebuild at h
    split at h
    · cases h
    cases h
    refine ⟨rfl, rfl, rfl, ?_⟩
    intro hring
    split
    · split
      · unfold retained
        rw [length_drop]
        omega
      · exact hring
    · exact hring
  · cases h
    exact ⟨rfl, rfl, rfl, fun hring => hring⟩

theorem cascadeFolds_beside (lane : Lane) : Beside lane lane.cascadeFolds := by
  unfold cascadeFolds
  induction List.range (lane.numLevels - 1) generalizing lane with
  | nil => exact .refl lane
  | cons k ks ih =>
    have hfold : Beside lane (lane.foldLevel k) := by
      unfold foldLevel
      split
      · exact .refl lane
      · exact ⟨rfl, rfl, rfl, rfl⟩
    exact hfold.trans (ih (lane.foldLevel k))

theorem foldIfFull_beside {folded : Lane} (h : lane.foldIfFull = .ok folded) :
    Beside lane folded := by
  unfold foldIfFull at h
  split at h
  · obtain ⟨_, _, -, -, rfl⟩ := foldL0_eq_ok h
    exact ⟨rfl, rfl, rfl, rfl⟩
  · cases h
    exact .refl lane

theorem settle_beside (h : lane.settle = .ok settled) :
    ∃ start, lane.rebuildIfDue = .ok start ∧ Beside start settled := by
  obtain ⟨start, hstart, h⟩ := bind_eq_ok.mp h
  obtain ⟨folded, hfolded, h⟩ := bind_eq_ok.mp h
  cases h
  exact ⟨start, hstart, (foldIfFull_beside hfolded).trans (cascadeFolds_beside folded)⟩

theorem evictLoop_beside {rounds : Nat} {last : Lane}
    (h : evictLoop env resolver rounds lane = .ok last) : Beside lane last := by
  refine evictLoop_rec .refl ?_ h
  intro l k b rest next last _ hbucket hrest
  obtain ⟨_, _, _, _, -, -, -, -, -, hnext⟩ := evictBucket_eq_ok hbucket
  have hone : Beside l next := by
    rw [hnext]
    exact ⟨rfl, rfl, rfl, rfl⟩
  exact hone.trans hrest

theorem pushPositional_ridge {next : Lane} (h : lane.pushPositional env resolver a = .ok next) :
    next.ridge = lane.ridge ∧ next.nextPos = lane.nextPos + 1 ∧ next.params = lane.params ∧
      (lane.ckpts.length ≤ lane.params.mrr.ckptRetain →
        next.ckpts.length ≤ lane.params.mrr.ckptRetain) := by
  obtain ⟨settled, hsettle, h⟩ := bind_eq_ok.mp h
  obtain ⟨start, hstart, hbeside⟩ := settle_beside hsettle
  obtain ⟨hridge, hnext, hparams, hring⟩ := rebuildIfDue_ridge hstart
  have hevict := evictLoop_beside h
  have hinserted : (settled.insertSlot a).ridge = settled.ridge ∧
      (settled.insertSlot a).nextPos = settled.nextPos + 1 ∧
      (settled.insertSlot a).params = settled.params ∧
      (settled.insertSlot a).ckpts = settled.ckpts := ⟨rfl, rfl, rfl, rfl⟩
  refine ⟨?_, ?_, ?_, ?_⟩
  · rw [hevict.ridge, hinserted.1, hbeside.ridge, hridge]
  · rw [hevict.nextPos, hinserted.2.1, hbeside.nextPos, hnext]
  · rw [hevict.params, hinserted.2.2.1, hbeside.params, hparams]
  · intro hle
    rw [hevict.ckpts, hinserted.2.2.2, hbeside.ckpts]
    exact hring hle

end Lane

end C2Pool.V37
