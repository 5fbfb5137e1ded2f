import C2Pool.Lib.FiniteMap

/-! # Lazily built skip lists

A skip list over a linked structure whose higher levels are appended as a side effect of queries.
Each node owns a number of levels; a level is a target and the accumulated delta up to it. A query
walks towards the targets, tries the levels of each node from the longest jump down, and on the way
attaches to nodes already passed the levels they still lack.

The walk is generic in the delta. `Sound` states what a client has to know about one jump;
`loop_sound` turns it into the result of a whole query and shows that the table stays truthful for
later queries with other starts.
-/

namespace C2Pool.LazySkipList

open List FiniteMap

variable {H D Sol R : Type} [DecidableEq H] {sol : Sol} {levels : List (H × D)} {fuel : Nat}

/-- A node's level count and the levels built so far, nearest first. -/
structure Entry (H D : Type) where
  skipLength : Nat
  levels : List (H × D)
deriving DecidableEq

abbrev Table (H D : Type) := FiniteMap H (Entry H D)

/-- A level some passed node still lacks, with the delta gathered since. -/
structure Pending (H D : Type) where
  node : H
  delta : Option D

/-- Pending levels by level number. -/
abbrev Updates (H D : Type) := Nat → Option (Pending H D)

inductive Verdict (Sol R : Type) where
  | finish (result : R)
  | take (sol : Sol)
  | skip

/-- What a query is made of: the linked structure, the delta algebra, the
judgement of one jump, and the answers when the walk cannot go on. -/
structure Walker (H D Sol R : Type) where
  previous : H → H
  getDelta : H → D
  combine : D → D → D
  judge : Sol → H → D → Verdict Sol R
  stuck : Sol → R
  exhausted : Sol → R

/-- Give `pos` its first level unless it is known; `draw` is the random level
count. -/
def ensure (w : Walker H D Sol R) (draw : H → Nat) (t : Table H D) (pos : H) : Table H D :=
  if pos ∈ t then t
  else t.insert pos ⟨draw pos, [(w.previous pos, w.getDelta pos)]⟩

def entryAt (t : Table H D) (pos : H) : Entry H D :=
  (t.lookup pos).getD ⟨0, []⟩

def pushLevel (t : Table H D) (node : H) (i : Nat) (level : H × D) : Table H D :=
  match t.lookup node with
  | none => t
  | some e =>
    if e.levels.length = i then t.insert node { e with levels := e.levels ++ [level] } else t

def fillLevel [Inhabited D] (pos : H) (tu : Table H D × Updates H D) (i : Nat) :
    Table H D × Updates H D :=
  match tu.2 i with
  | none => tu
  | some p =>
    (pushLevel tu.1 p.node i (pos, p.delta.getD default), Function.update tu.2 i none)

/-- Attach the pending levels that `pos` is tall enough to end. -/
def fill [Inhabited D] (pos : H) (skipLength : Nat)
    (tu : Table H D × Updates H D) : Table H D × Updates H D :=
  (List.range skipLength).foldl (fillLevel pos) tu

/-- Ask for the levels `pos` still lacks. -/
def put (pos : H) (e : Entry H D) (u : Updates H D) : Updates H D :=
  fun i => if e.levels.length ≤ i ∧ i < e.skipLength then some ⟨pos, none⟩ else u i

def propagate (combine : D → D → D) (taken : D) (u : Updates H D) : Updates H D :=
  fun i => (u i).map fun p =>
    { p with delta := some (match p.delta with
      | none => taken
      | some d => combine d taken) }

inductive Choice (H D Sol R : Type) where
  | finish (result : R)
  | jump (target : H) (delta : D) (sol : Sol)

def tryLevels (judge : Sol → H → D → Verdict Sol R) (sol : Sol) :
    List (H × D) → Option (Choice H D Sol R)
  | [] => none
  | (target, delta) :: rest =>
    match judge sol target delta with
    | .finish result => some (.finish result)
    | .take sol' => some (.jump target delta sol')
    | .skip => tryLevels judge sol rest

/-- The query loop.  The levels of `pos` are read before the pending levels are
attached; a walk never meets a node twice, so none of those is a level of
`pos`. -/
def loop [Inhabited H] [Inhabited D] (w : Walker H D Sol R) (draw : H → Nat) :
    Nat → Table H D → Updates H D → H → Sol → R × Table H D
  | 0, t, _, _, sol => (w.exhausted sol, t)
  | fuel + 1, t, u, pos, sol =>
    if pos = default then (w.stuck sol, t)
    else
      let t := ensure w draw t pos
      let e := entryAt t pos
      let tu := fill pos e.skipLength (t, u)
      let u := put pos e tu.2
      match tryLevels w.judge sol e.levels.reverse with
      | none => (w.stuck sol, tu.1)
      | some (.finish result) => (result, tu.1)
      | some (.jump target delta sol') =>
        loop w draw fuel tu.1 (propagate w.combine delta u) target sol'

section Sound

variable (base : H → H × D) (Covers : H → H → D → Prop) {t : Table H D} {pos : H} {u : Updates H D}

def LevelsOk (x : H) (levels : List (H × D)) : Prop :=
  levels.head? = some (base x) ∧ ∀ l ∈ levels, Covers x l.1 l.2

def TableOk (t : Table H D) : Prop :=
  ∀ x e, t.lookup x = some e → LevelsOk base Covers x e.levels

def UpdatesOk (pos : H) (u : Updates H D) : Prop :=
  ∀ i p, u i = some p → ∃ d, p.delta = some d ∧ Covers p.node pos d

variable {base Covers}

theorem TableOk.empty : TableOk base Covers (∅ : Table H D) := by
  intro x e h
  simp at h

theorem TableOk.erase (ht : TableOk base Covers t) (x : H) : TableOk base Covers (t.erase x) := by
  intro y e h
  rw [lookup_erase_ite] at h
  split at h
  · cases h
  · exact ht y e h

theorem TableOk.insert (ht : TableOk base Covers t) {x : H} {e : Entry H D}
    (he : LevelsOk base Covers x e.levels) : TableOk base Covers (t.insert x e) := by
  intro y e' h
  rw [lookup_insert_ite] at h
  split at h
  · rename_i hy
    cases h
    exact hy ▸ he
  · exact ht y e' h

theorem TableOk.pushLevel (ht : TableOk base Covers t) {node : H} {d : D} (i : Nat)
    (hd : Covers node pos d) : TableOk base Covers (LazySkipList.pushLevel t node i (pos, d)) := by
  unfold LazySkipList.pushLevel
  cases hnode : t.lookup node with
  | none => exact ht
  | some e =>
    show TableOk base Covers (if e.levels.length = i then _ else t)
    split
    · have he := ht node e hnode
      refine ht.insert ⟨?_, ?_⟩
      · simp [head?_append, he.1]
      intro l hl
      rcases mem_append.mp hl with hl | hl
      · exact he.2 l hl
      · rw [mem_singleton.mp hl]
        exact hd
    · exact ht

theorem TableOk.fillLevel [Inhabited D]
    (ht : TableOk base Covers t) (hu : UpdatesOk Covers pos u) (i : Nat) :
    TableOk base Covers (LazySkipList.fillLevel pos (t, u) i).1 ∧
      UpdatesOk Covers pos (LazySkipList.fillLevel pos (t, u) i).2 := by
  unfold LazySkipList.fillLevel
  cases hi : u i with
  | none => simpa [hi] using ⟨ht, hu⟩
  | some p =>
    rcases hu i p hi with ⟨d, hpd, hcov⟩
    simp only [hi, hpd, Option.getD_some]
    refine ⟨ht.pushLevel i hcov, ?_⟩
    intro j q hj
    by_cases hji : j = i
    · subst hji
      simp at hj
    · rw [Function.update_of_ne hji] at hj
      exact hu j q hj

theorem TableOk.fill [Inhabited D]
    (ht : TableOk base Covers t) (hu : UpdatesOk Covers pos u) (skipLength : Nat) :
    TableOk base Covers (LazySkipList.fill pos skipLength (t, u)).1 ∧
      UpdatesOk Covers pos (LazySkipList.fill pos skipLength (t, u)).2 := by
  unfold LazySkipList.fill
  generalize List.range skipLength = levels
  induction levels generalizing t u with
  | nil => exact ⟨ht, hu⟩
  | cons i levels ih =>
    have hstep := ht.fillLevel hu i
    exact ih hstep.1 hstep.2

omit [DecidableEq H] in
theorem UpdatesOk.advance {target : H} {taken : D} {combine : D → D → D}
    (hcombine : ∀ x y z d d', Covers x y d → Covers y z d' → Covers x z (combine d d'))
    (hu : UpdatesOk Covers pos u) (htaken : Covers pos target taken) (e : Entry H D) :
    UpdatesOk Covers target (propagate combine taken (put pos e u)) := by
  intro i p hp
  unfold propagate put at hp
  rcases Option.map_eq_some_iff.mp hp with ⟨p', hp', rfl⟩
  split at hp'
  · cases hp'
    exact ⟨taken, rfl, htaken⟩
  · rcases hu i p' hp' with ⟨d, hd, hcov⟩
    exact ⟨combine d taken, by simp [hd], hcombine _ _ _ _ _ hcov htaken⟩

end Sound

/-! ## The query rule -/

/-- What a client shows about one visited position: it is a real node whose
single step is the recorded one, the single step is never refused, and every
jump that covers its way leads to a good answer or to a good position nearer
the goal. -/
structure Sound [Inhabited H] (w : Walker H D Sol R) (base : H → H × D) (Covers : H → H → D → Prop)
    (Inv : H → Sol → Prop) (Post : R → Prop) (distance : Sol → Nat) : Prop where
  combine : ∀ x y z d d', Covers x y d → Covers y z d' → Covers x z (w.combine d d')
  visit : ∀ pos sol, Inv pos sol →
    pos ≠ default ∧ base pos = (w.previous pos, w.getDelta pos) ∧
      Covers pos (base pos).1 (base pos).2
  step : ∀ pos sol, Inv pos sol → w.judge sol (base pos).1 (base pos).2 ≠ .skip
  finish : ∀ pos sol target d r, Inv pos sol → Covers pos target d →
    w.judge sol target d = .finish r → Post r
  take : ∀ pos sol target d sol', Inv pos sol → Covers pos target d →
    w.judge sol target d = .take sol' → Inv target sol' ∧ distance sol' < distance sol

def Choice.MadeAt (judge : Sol → H → D → Verdict Sol R) (sol : Sol) (l : H × D) :
    Choice H D Sol R → Prop
  | .finish r => judge sol l.1 l.2 = .finish r
  | .jump target d sol' => l = (target, d) ∧ judge sol l.1 l.2 = .take sol'

variable {judge : Sol → H → D → Verdict Sol R} {w : Walker H D Sol R}

omit [DecidableEq H] in
theorem tryLevels_mem {choice : Choice H D Sol R} (h : tryLevels judge sol levels = some choice) :
    ∃ l ∈ levels, choice.MadeAt judge sol l := by
  induction levels with
  | nil => cases h
  | cons l rest ih =>
    rcases l with ⟨target, d⟩
    unfold tryLevels at h
    cases hj : judge sol target d with
    | finish r =>
      simp only [hj, Option.some.injEq] at h
      subst h
      exact ⟨(target, d), mem_cons_self, hj⟩
    | take sol' =>
      simp only [hj, Option.some.injEq] at h
      subst h
      exact ⟨(target, d), mem_cons_self, rfl, hj⟩
    | skip =>
      simp only [hj] at h
      rcases ih h with ⟨l, hl, hchoice⟩
      exact ⟨l, mem_cons_of_mem _ hl, hchoice⟩

omit [DecidableEq H] in
theorem tryLevels_ne_none {l : H × D} (hl : l ∈ levels) (hj : judge sol l.1 l.2 ≠ .skip) :
    tryLevels judge sol levels ≠ none := by
  induction levels with
  | nil => cases hl
  | cons l' rest ih =>
    rcases l' with ⟨target, d⟩
    unfold tryLevels
    cases hjudge : judge sol target d with
    | finish r => simp
    | take sol' => simp
    | skip =>
      rcases mem_cons.mp hl with hl | hl
      · subst hl
        exact absurd hjudge hj
      · exact ih hl

omit [DecidableEq H] in
theorem tryLevels_eq_none (h : ∀ l ∈ levels, judge sol l.1 l.2 = .skip) :
    tryLevels judge sol levels = none := by
  induction levels with
  | nil => rfl
  | cons l rest ih =>
    rcases l with ⟨target, d⟩
    unfold tryLevels
    rw [h (target, d) mem_cons_self]
    exact ih fun l hl => h l (mem_cons_of_mem _ hl)

theorem loop_stuck {u : Updates H D} {t : Table H D} [Inhabited H] [Inhabited D] {draw : H → Nat}
    {pos : H} (hfuel : 1 ≤ fuel) (hpos : pos ≠ default)
    (hskip : ∀ l ∈ (entryAt (ensure w draw t pos) pos).levels, w.judge sol l.1 l.2 = .skip) :
    (loop w draw fuel t u pos sol).1 = w.stuck sol := by
  obtain ⟨k, rfl⟩ : ∃ k, fuel = k + 1 := ⟨fuel - 1, by omega⟩
  have hnone : tryLevels w.judge sol (entryAt (ensure w draw t pos) pos).levels.reverse = none :=
    tryLevels_eq_none fun l hl => hskip l (mem_reverse.mp hl)
  unfold loop
  rw [if_neg hpos]
  simp only [hnone]

theorem loop_sound {u : Updates H D} {t : Table H D} [Inhabited H] [Inhabited D] {base : H → H × D}
    {Covers : H → H → D → Prop} {Inv : H → Sol → Prop} {Post : R → Prop} {distance : Sol → Nat}
    (hw : Sound w base Covers Inv Post distance) (draw : H → Nat) {pos : H}
    (ht : TableOk base Covers t) (hu : UpdatesOk Covers pos u) (hinv : Inv pos sol)
    (hfuel : distance sol < fuel) :
    Post (loop w draw fuel t u pos sol).1 ∧
      TableOk base Covers (loop w draw fuel t u pos sol).2 := by
  induction fuel generalizing t u pos sol with
  | zero => omega
  | succ fuel ih =>
    rcases hw.visit pos sol hinv with ⟨hnull, hbase, hcov⟩
    have hone : LevelsOk base Covers pos [(w.previous pos, w.getDelta pos)] := by
      rw [← hbase]
      refine ⟨rfl, ?_⟩
      intro l hl
      rw [mem_singleton.mp hl]
      exact hcov
    have hensure : TableOk base Covers (ensure w draw t pos) := by
      unfold ensure
      split
      · exact ht
      · exact ht.insert hone
    have hentry : LevelsOk base Covers pos (entryAt (ensure w draw t pos) pos).levels := by
      unfold entryAt
      cases hpos : (ensure w draw t pos).lookup pos with
      | none =>
        unfold ensure at hpos
        split at hpos
        · rename_i hmem
          exact absurd hmem (Finmap.lookup_eq_none.mp hpos)
        · simp at hpos
      | some e => exact hensure pos e hpos
    unfold loop
    rw [if_neg hnull]
    have hfill := hensure.fill hu (entryAt (ensure w draw t pos) pos).skipLength
    cases hchoice : tryLevels w.judge sol
        (entryAt (ensure w draw t pos) pos).levels.reverse with
    | none =>
      have hmem : base pos ∈ (entryAt (ensure w draw t pos) pos).levels.reverse :=
        mem_reverse.mpr (mem_of_mem_head? hentry.1)
      exact absurd hchoice (tryLevels_ne_none hmem (hw.step pos sol hinv))
    | some choice =>
      rcases tryLevels_mem hchoice with ⟨l, hl, hjudge⟩
      have hl' := hentry.2 l (mem_reverse.mp hl)
      cases choice with
      | finish r =>
        simp only [hchoice]
        exact ⟨hw.finish pos sol l.1 l.2 r hinv hl' hjudge, hfill.1⟩
      | jump target d sol' =>
        rcases hjudge with ⟨rfl, hjudge⟩
        rcases hw.take pos sol target d sol' hinv hl' hjudge with ⟨hinv', hdist⟩
        simp only [hchoice]
        exact ih hfill.1 (hfill.2.advance hw.combine hl' _) hinv' (by omega)

end C2Pool.LazySkipList
