import C2Pool.Lib.Tally
import C2Pool.Sharechain.Chain

/-! # Dashboard statistics by skip list

`StatsSkipList` (`stats_skiplist.hpp`): counts over the shares below a start.
A query first builds the nodes of the shares it meets up to the first one that
is cached, and then walks over cached nodes only.  The floating-point sums
(`difficulty_sum`, `desired_version_weights`) are left out.
-/

namespace C2Pool.Sharechain

open List FiniteMap Finmap Function

structure StatsDelta where
  shareCount : Nat
  orphanCount : Nat
  deadCount : Nat
  versionCounts : Tally String Nat
  desiredVersionCounts : Tally String Nat
  minerCounts : Tally String Nat
deriving DecidableEq

namespace StatsDelta

def empty : StatsDelta := ⟨0, 0, 0, [], [], []⟩

/-- `combine_stats_deltas`; the walk adds a delta to its solution in the same
way. -/
def combine (a b : StatsDelta) : StatsDelta where
  shareCount := a.shareCount + b.shareCount
  orphanCount := a.orphanCount + b.orphanCount
  deadCount := a.deadCount + b.deadCount
  versionCounts := a.versionCounts.merge b.versionCounts
  desiredVersionCounts := a.desiredVersionCounts.merge b.desiredVersionCounts
  minerCounts := a.minerCounts.merge b.minerCounts

inductive Count where
  | shares
  | orphans
  | deads
  | version (v : String)
  | desiredVersion (v : String)
  | miner (m : String)

def get (d : StatsDelta) : Count → Nat
  | .shares => d.shareCount
  | .orphans => d.orphanCount
  | .deads => d.deadCount
  | .version v => d.versionCounts.amount v
  | .desiredVersion v => d.desiredVersionCounts.amount v
  | .miner m => d.minerCounts.amount m

@[simp] theorem get_empty (f : Count) : empty.get f = 0 := by
  cases f <;> rfl

@[simp] theorem get_combine (a b : StatsDelta) (f : Count) :
    (a.combine b).get f = a.get f + b.get f := by
  cases f <;> simp [get, combine]

end StatsDelta

/-- The levels of a node, nearest first: the hash a jump reaches and the counts
it passes. -/
abbrev StatsLevel (H : Type) := H × StatsDelta

/-- `m_nodes`. -/
abbrev StatsNodes (H : Type) := FiniteMap H (List (StatsLevel H))

namespace StatsNodes

variable {H : Type} [DecidableEq H] [Inhabited H] {l l' : StatsLevel H}
  {levels : List (StatsLevel H)} {prev : H → H} {delta : H → StatsDelta} {x : H}

/-- The loop of `build_node`: a level doubles the last one with the level of
the same height at its target, as long as that target has one. -/
def growLevels (nodes : StatsNodes H) : Nat → List (StatsLevel H) → List (StatsLevel H)
  | 0, levels => levels
  | more + 1, levels =>
    match levels.getLast? with
    | none => levels
    | some last =>
      if last.1 = default then levels
      else
        match nodes.lookup last.1 with
        | none => levels
        | some above =>
          match above[levels.length - 1]? with
          | none => levels
          | some next =>
            growLevels nodes more (levels ++ [(next.1, last.2.combine next.2)])

/-- `build_node`; `draw` is the random `skip_length`. -/
def buildNode (previous : H → H) (getDelta : H → StatsDelta) (draw : H → Nat)
    (nodes : StatsNodes H) (hash : H) : StatsNodes H :=
  if hash ∈ nodes then nodes
  else
    nodes.insert hash (growLevels nodes (draw hash - 1) [(previous hash, getDelta hash)])

def uncached (previous : H → H) (nodes : StatsNodes H) : Nat → H → List H
  | 0, _ => []
  | n + 1, pos =>
    if pos = default ∨ pos ∈ nodes then []
    else pos :: uncached previous nodes n (previous pos)

def phase1 (previous : H → H) (getDelta : H → StatsDelta) (draw : H → Nat)
    (nodes : StatsNodes H) (start : H) (maxShares : Nat) : StatsNodes H :=
  (uncached previous nodes maxShares start).foldr
    (fun hash built => buildNode previous getDelta draw built hash) nodes

def bestLevel (maxShares count : Nat) (levels : List (StatsLevel H)) : Option (StatsLevel H) :=
  levels.reverse.find? fun l => l.2.shareCount ≠ 0 ∧ count + l.2.shareCount ≤ maxShares

def walk (nodes : StatsNodes H) (maxShares : Nat) : Nat → H → StatsDelta → StatsDelta
  | 0, _, sol => sol
  | fuel + 1, pos, sol =>
    if pos = default ∨ maxShares ≤ sol.shareCount then sol
    else
      match nodes.lookup pos with
      | none => sol
      | some levels =>
        match bestLevel maxShares sol.shareCount levels with
        | none => sol
        | some l => walk nodes maxShares fuel l.1 (sol.combine l.2)

def query (previous : H → H) (getDelta : H → StatsDelta) (draw : H → Nat) (nodes : StatsNodes H)
    (start : H) (maxShares : Nat) : StatsDelta × StatsNodes H :=
  if start = default ∨ maxShares = 0 then (.empty, nodes)
  else
    let nodes := phase1 previous getDelta draw nodes start maxShares
    (walk nodes maxShares (maxShares + 32) start .empty, nodes)

def forget (nodes : StatsNodes H) (hash : H) : StatsNodes H :=
  nodes.erase hash

/-! ## What a node says -/

/-- The counts of the first `n` shares from `x`. -/
def CountsOf (prev : H → H) (delta : H → StatsDelta) (x : H) (n : Nat) (d : StatsDelta) : Prop :=
  ∀ f, d.get f = ∑ i ∈ Finset.range n, (delta (prev^[i] x)).get f

/-- A level counts the shares it says it counts, and leads to the one below
them or nowhere. -/
structure LevelOk (prev : H → H) (delta : H → StatsDelta) (x : H) (l : StatsLevel H) : Prop where
  counts : CountsOf prev delta x l.2.shareCount l.2
  target : l.1 = default ∨ l.1 = prev^[l.2.shareCount] x

structure NodeOk (prev : H → H) (delta : H → StatsDelta) (x : H) (levels : List (StatsLevel H)) :
    Prop where
  first : ∃ l, levels.head? = some l ∧ l.2.shareCount ≤ 1
  levels : ∀ l ∈ levels, LevelOk prev delta x l

def NodesOk (prev : H → H) (delta : H → StatsDelta) (nodes : StatsNodes H) : Prop :=
  ∀ x levels, nodes.lookup x = some levels → NodeOk prev delta x levels

omit [DecidableEq H] [Inhabited H] in
theorem CountsOf.combine {n m : Nat} {d d' : StatsDelta} (h : CountsOf prev delta x n d)
    (h' : CountsOf prev delta (prev^[n] x) m d') :
    CountsOf prev delta x (n + m) (d.combine d') := by
  intro f
  rw [StatsDelta.get_combine, h f, h' f, Finset.sum_range_add]
  congr 1
  apply Finset.sum_congr rfl
  intro i _
  rw [Nat.add_comm n i, iterate_add_apply]

omit [DecidableEq H] in
theorem LevelOk.combine (h : LevelOk prev delta x l) (hl : l.1 ≠ default)
    (h' : LevelOk prev delta l.1 l') : LevelOk prev delta x (l'.1, l.2.combine l'.2) := by
  have htarget := h.target.resolve_left hl
  constructor
  · apply h.counts.combine
    rw [← htarget]
    exact h'.counts
  have hcount : (l.2.combine l'.2).shareCount = l'.2.shareCount + l.2.shareCount := Nat.add_comm _ _
  rw [hcount, iterate_add_apply, ← htarget]
  exact h'.target

theorem growLevels_induction (nodes : StatsNodes H) {P : StatsLevel H → Prop}
    (hnext : ∀ l l' above, P l → l.1 ≠ default → nodes.lookup l.1 = some above → l' ∈ above →
      P (l'.1, l.2.combine l'.2)) (more : Nat) (hlevels : ∀ l ∈ levels, P l) :
    (∀ l ∈ growLevels nodes more levels, P l) ∧
      (levels ≠ [] → (growLevels nodes more levels).head? = levels.head?) := by
  induction more generalizing levels with
  | zero => exact ⟨hlevels, fun _ => rfl⟩
  | succ more ih =>
    unfold growLevels
    cases hlast : levels.getLast? with
    | none => exact ⟨hlevels, fun _ => rfl⟩
    | some last =>
      by_cases hnull : last.1 = default
      · simp only [if_pos hnull]
        exact ⟨hlevels, fun _ => trivial⟩
      simp only [if_neg hnull]
      cases habove : nodes.lookup last.1 with
      | none => exact ⟨hlevels, fun _ => rfl⟩
      | some above =>
        cases hget : above[levels.length - 1]? with
        | none =>
          simp only [hget]
          exact ⟨hlevels, fun _ => trivial⟩
        | some next =>
          simp only [hget]
          have hstep := hnext last next above (hlevels last (mem_of_getLast? hlast))
            hnull habove (mem_of_getElem? hget)
          have hmore : ∀ l ∈ levels ++ [(next.1, last.2.combine next.2)], P l := by
            intro l hl
            rcases mem_append.mp hl with hl | hl
            · exact hlevels l hl
            · rw [mem_singleton.mp hl]
              exact hstep
          refine ⟨(ih hmore).1, ?_⟩
          intro hne
          rw [(ih hmore).2 (by simp), head?_append_of_ne_nil _ hne]

/-- What the callbacks know of a hash: its share, or nothing. -/
def Readable (prev : H → H) (delta : H → StatsDelta) (previous : H → H)
    (getDelta : H → StatsDelta) (x : H) : Prop :=
  (previous x = prev x ∧ getDelta x = delta x) ∨ (previous x = default ∧ getDelta x = .empty)

section

variable {previous : H → H} {getDelta : H → StatsDelta}

omit [DecidableEq H] in
theorem Readable.levelOk
    (h : Readable prev delta previous getDelta x) (hone : (delta x).shareCount = 1) :
    LevelOk prev delta x (previous x, getDelta x) ∧ (getDelta x).shareCount ≤ 1 := by
  rcases h with ⟨hprev, hdelta⟩ | ⟨hprev, hdelta⟩
  · rw [hprev, hdelta]
    refine ⟨⟨?_, .inr ?_⟩, hone.le⟩
    · intro f
      simp [hone]
    · simp [hone]
  rw [hprev, hdelta]
  refine ⟨⟨?_, .inl rfl⟩, Nat.zero_le 1⟩
  intro f
  rw [StatsDelta.get_empty]
  rfl

section

variable {nodes : StatsNodes H} (h : NodesOk prev delta nodes)
  (hone : ∀ x, (delta x).shareCount = 1) (hread : ∀ x, Readable prev delta previous getDelta x)
  (draw : H → Nat)
include h hone hread draw

theorem NodesOk.buildNode (hash : H) :
    NodesOk prev delta (buildNode previous getDelta draw nodes hash) := by
  unfold StatsNodes.buildNode
  split
  · exact h
  obtain ⟨hbase, hfew⟩ := (hread hash).levelOk (hone hash)
  have hfirst : ∀ l ∈ [(previous hash, getDelta hash)], LevelOk prev delta hash l := by
    intro l hl
    rw [mem_singleton.mp hl]
    exact hbase
  have hgrow := growLevels_induction nodes (fun l l' above hl hnull habove hl' => hl.combine hnull
    ((h _ _ habove).levels l' hl')) (draw hash - 1) hfirst
  intro x levels hx
  rw [lookup_insert_ite] at hx
  split at hx
  · rename_i hxh
    cases hx
    rw [hxh]
    exact ⟨⟨_, hgrow.2 (by simp), hfew⟩, hgrow.1⟩
  · exact h x levels hx

theorem NodesOk.phase1 (start : H) (maxShares : Nat) :
    NodesOk prev delta (phase1 previous getDelta draw nodes start maxShares) := by
  unfold StatsNodes.phase1
  induction uncached previous nodes maxShares start with
  | nil => exact h
  | cons hash rest ih => exact ih.buildNode hone hread draw hash

end

end

/-! ## When the cache serves a query -/

def levelsAt (nodes : StatsNodes H) (x : H) : List (StatsLevel H) :=
  (nodes.lookup x).getD []

/-- A level of the `i`-th share of a window of `n` shares, of which `len` are
held: it counts something, and unless it is too long for the window it stays
within the held shares and leads on to the next one. -/
def LevelFits (n len i : Nat) (l : StatsLevel H) : Prop :=
  l.2.shareCount ≠ 0 ∧
    (i + l.2.shareCount ≤ n →
      i + l.2.shareCount ≤ len ∧ (i + l.2.shareCount < min n len → l.1 ≠ default))

instance (n len i : Nat) (l : StatsLevel H) : Decidable (LevelFits n len i l) :=
  inferInstanceAs (Decidable (_ ∧ _))

/-- The cache serves a query for `n` shares from a start with `len` held
shares, `s i` being the `i`-th hash of its chain: once a share of the window is
cached all later ones are, no cached level of the window is stale, and nothing
is cached for the hash at which the held shares end. -/
structure Serves (nodes : StatsNodes H) (s : Nat → H) (n len : Nat) : Prop where
  closed : ∀ i < min n len, ∀ j < min n len, i ≤ j → s i ∈ nodes → s j ∈ nodes
  fits : ∀ i < min n len, ∀ l ∈ levelsAt nodes (s i), LevelFits n len i l
  ended : len < n → ∀ l ∈ levelsAt nodes (s len), l.2.shareCount = 0

/-- The cache is filled for the window from its `j`-th share on. -/
structure FilledFrom (nodes : StatsNodes H) (s : Nat → H) (n len j : Nat) : Prop where
  cached : ∀ i < min n len, j ≤ i → s i ∈ nodes
  fits : ∀ i < min n len, j ≤ i → ∀ l ∈ levelsAt nodes (s i), LevelFits n len i l
  ended : len < n → ∀ l ∈ levelsAt nodes (s len), l.2.shareCount = 0

/-- The hashes `s 0, s 1, …` of a chain of `len` held shares, as the callbacks
see them. -/
structure Window (prev : H → H) (delta : H → StatsDelta) (previous : H → H)
    (getDelta : H → StatsDelta) (s : Nat → H) (len : Nat) : Prop where
  nonNull : ∀ i < len, s i ≠ default
  link : ∀ i < len, prev (s i) = s (i + 1)
  seen : ∀ i < len, previous (s i) = s (i + 1)
  read : ∀ i < len, getDelta (s i) = delta (s i)
  stops : previous (s len) = default ∧ getDelta (s len) = .empty
  inj : ∀ i ≤ len, ∀ j ≤ len, s i = s j → i = j

section Window

variable {previous : H → H} {getDelta : H → StatsDelta} {s : Nat → H} {n len : Nat}
  {nodes : StatsNodes H} {m j : Nat}

omit [DecidableEq H] in
theorem Window.iterate (w : Window prev delta previous getDelta s len) {i c : Nat}
    (h : i + c ≤ len) : prev^[c] (s i) = s (i + c) := by
  induction c with
  | zero => rfl
  | succ c ih =>
    rw [iterate_succ_apply', ih (by omega), w.link (i + c) (by omega)]
    rfl

omit [DecidableEq H] in
theorem LevelFits.target (w : Window prev delta previous getDelta s len) {i : Nat}
    {l : StatsLevel H} (h : LevelFits n len i l) (hok : LevelOk prev delta (s i) l)
    (hn : i + l.2.shareCount ≤ n) (hnull : l.1 ≠ default) : l.1 = s (i + l.2.shareCount) := by
  rw [hok.target.resolve_left hnull]
  exact w.iterate (h.2 hn).1

omit [Inhabited H] in
theorem levelsAt_insert (nodes : StatsNodes H) (x y : H) (levels : List (StatsLevel H)) :
    levelsAt (nodes.insert x levels) y = if y = x then levels else levelsAt nodes y := by
  unfold levelsAt
  rw [lookup_insert_ite]
  split <;> rfl

section

variable (w : Window prev delta previous getDelta s len)
include w

theorem FilledFrom.fits_combine {j : Nat} (h : FilledFrom nodes s n len (j + 1))
    {above : List (StatsLevel H)} (hok : LevelOk prev delta (s j) l) (hfits : LevelFits n len j l)
    (hnull : l.1 ≠ default) (habove : nodes.lookup l.1 = some above) (hl' : l' ∈ above) :
    LevelFits n len j (l'.1, l.2.combine l'.2) := by
  have hcount : (l.2.combine l'.2).shareCount = l.2.shareCount + l'.2.shareCount := rfl
  have hpos := hfits.1
  unfold LevelFits
  rw [hcount]
  refine ⟨by omega, ?_⟩
  intro hn
  have hle := (hfits.2 (by omega)).1
  have htarget := hfits.target w hok (by omega) hnull
  have hmem : l' ∈ levelsAt nodes (s (j + l.2.shareCount)) := by
    unfold levelsAt
    rw [← htarget, habove]
    exact hl'
  by_cases hinside : j + l.2.shareCount < min n len
  · have hnext := h.fits _ hinside (by omega) l' hmem
    obtain ⟨hlen, hgo⟩ := hnext.2 (by omega)
    exact ⟨by omega, fun hlt => hgo (by omega)⟩
  by_cases hend : len < n
  · have hlast : j + l.2.shareCount = len := by omega
    rw [hlast] at hmem
    have hzero := h.ended hend l' hmem
    exact ⟨by omega, fun hlt => by omega⟩
  · exact ⟨by omega, fun hlt => by omega⟩

theorem FilledFrom.buildNode (hone : ∀ x, (delta x).shareCount = 1) (hok : NodesOk prev delta nodes)
    (draw : H → Nat) {j : Nat} (hj : j < min n len) (h : FilledFrom nodes s n len (j + 1))
    (hnew : s j ∉ nodes) : FilledFrom (buildNode previous getDelta draw nodes (s j)) s n len j := by
  have hnext : LevelOk prev delta (s j) (s (j + 1), delta (s j)) := by
    constructor
    · intro f
      simp [hone]
    right
    show s (j + 1) = prev^[(delta (s j)).shareCount] (s j)
    rw [hone]
    exact (w.link j (by omega)).symm
  have hfits : LevelFits n len j (s (j + 1), delta (s j)) := by
    unfold LevelFits
    simp only [hone]
    exact ⟨by omega, fun hn => ⟨by omega, fun hlt => w.nonNull (j + 1) (by omega)⟩⟩
  have hfirst : ∀ l ∈ [(previous (s j), getDelta (s j))],
      LevelOk prev delta (s j) l ∧ LevelFits n len j l := by
    intro l hl
    rw [mem_singleton.mp hl, w.seen j (by omega), w.read j (by omega)]
    exact ⟨hnext, hfits⟩
  have hgrow := (growLevels_induction nodes
    (fun l l' above hl hnull habove hl' =>
      ⟨hl.1.combine hnull ((hok _ _ habove).levels l' hl'),
        h.fits_combine w hl.1 hl.2 hnull habove hl'⟩)
    (draw (s j) - 1) hfirst).1
  unfold StatsNodes.buildNode
  rw [if_neg hnew]
  refine ⟨?_, ?_, ?_⟩
  · intro i hi hji
    by_cases hij : i = j
    · rw [hij]
      exact mem_insert.mpr (.inl rfl)
    · exact mem_insert.mpr (.inr (h.cached i hi (by omega)))
  · intro i hi hji l hl
    rw [levelsAt_insert] at hl
    by_cases hij : i = j
    · rw [hij, if_pos rfl] at hl
      rw [hij]
      exact (hgrow l hl).2
    have hne : s i ≠ s j := fun hs => hij (w.inj i (by omega) j (by omega) hs)
    rw [if_neg hne] at hl
    exact h.fits i hi (by omega) l hl
  · intro hend l hl
    have hne : s len ≠ s j := by
      intro hs
      have := w.inj len le_rfl j (by omega) hs
      omega
    rw [levelsAt_insert, if_neg hne] at hl
    exact h.ended hend l hl

theorem Window.mem_uncached (hj : j ≤ len)
    (hx : x ∈ uncached previous nodes m (s j)) : ∃ i, j ≤ i ∧ i ≤ len ∧ x = s i := by
  induction m generalizing j with
  | zero => cases hx
  | succ m ih =>
    unfold uncached at hx
    split at hx
    · cases hx
    rcases mem_cons.mp hx with hx | hx
    · exact ⟨j, le_rfl, hj, hx⟩
    by_cases hlen : j < len
    · rw [w.seen j hlen] at hx
      obtain ⟨i, hi, hilen, hxi⟩ := ih hlen hx
      exact ⟨i, by omega, hilen, hxi⟩
    obtain rfl : j = len := by omega
    rw [w.stops.1] at hx
    cases m with
    | zero => cases hx
    | succ m => simp [uncached] at hx

end

theorem mem_phase1 {draw : H → Nat} {start x : H} {m : Nat}
    (hx : x ∈ phase1 previous getDelta draw nodes start m) :
    x ∈ nodes ∨ x ∈ uncached previous nodes m start := by
  unfold phase1 at hx
  generalize uncached previous nodes m start = hashes at hx ⊢
  induction hashes with
  | nil => exact .inl hx
  | cons hash rest ih =>
    rw [foldr_cons] at hx
    unfold StatsNodes.buildNode at hx
    split at hx
    · exact (ih hx).imp_right (mem_cons_of_mem _)
    rcases mem_insert.mp hx with hx | hx
    · exact .inr (hx ▸ mem_cons_self)
    · exact (ih hx).imp_right (mem_cons_of_mem _)

theorem Serves.filledFrom (w : Window prev delta previous getDelta s len)
    (hone : ∀ x, (delta x).shareCount = 1) (hread : ∀ x, Readable prev delta previous getDelta x)
    (hok : NodesOk prev delta nodes) (draw : H → Nat) (h : Serves nodes s n len) (hm : j + m = n)
    (hj : j ≤ len) : FilledFrom (phase1 previous getDelta draw nodes (s j) m) s n len j := by
  induction m generalizing j with
  | zero => exact ⟨fun i hi hji => by omega, fun i hi hji => by omega, h.ended⟩
  | succ m ih =>
    unfold StatsNodes.phase1 uncached
    by_cases hstop : s j = default ∨ s j ∈ nodes
    · rw [if_pos hstop]
      refine ⟨?_, fun i hi _ => h.fits i hi, h.ended⟩
      intro i hi hji
      rcases hstop with hnull | hcached
      · exact absurd hnull (w.nonNull j (by omega))
      · exact h.closed j (by omega) i hi hji hcached
    rw [if_neg hstop]
    push Not at hstop
    rw [foldr_cons]
    by_cases hlen : j < len
    · rw [w.seen j hlen]
      have hrest := ih (by omega) hlen
      have hnew : s j ∉ phase1 previous getDelta draw nodes (s (j + 1)) m := by
        intro hmem
        rcases mem_phase1 hmem with hmem | hmem
        · exact hstop.2 hmem
        obtain ⟨i, hi, hilen, his⟩ := w.mem_uncached hlen hmem
        have := w.inj j hj i hilen his
        omega
      exact hrest.buildNode w hone (hok.phase1 hone hread draw _ m) draw (by omega) hnew
    -- the hash at which the held shares end gets a node that counts nothing
    obtain rfl : j = len := by omega
    have hnone : uncached previous nodes m (previous (s j)) = [] := by
      rw [w.stops.1]
      cases m with
      | zero => rfl
      | succ m => simp [uncached]
    have hgrow : growLevels nodes (draw (s j) - 1) [(previous (s j), getDelta (s j))] =
        [(default, .empty)] := by
      rw [w.stops.1, w.stops.2]
      cases draw (s j) - 1 with
      | zero => rfl
      | succ more => simp [growLevels]
    rw [hnone, foldr_nil]
    refine ⟨fun i hi hji => by omega, fun i hi hji => by omega, ?_⟩
    intro _ l hl
    unfold StatsNodes.buildNode at hl
    rw [if_neg hstop.2, levelsAt_insert, if_pos rfl, hgrow] at hl
    rw [mem_singleton.mp hl]
    rfl

/-- Where the walk of phase 2 stands after `cnt` shares. -/
structure WalksAt (prev : H → H) (delta : H → StatsDelta) (s : Nat → H) (n len cnt : Nat) (pos : H)
    (sol : StatsDelta) : Prop where
  counts : CountsOf prev delta (s 0) cnt sol
  count : sol.shareCount = cnt
  inside : cnt < min n len → pos = s cnt
  atEnd : cnt = len → pos = default ∨ pos = s len

omit [DecidableEq H] [Inhabited H] in
theorem bestLevel_spec {cnt : Nat} {l : StatsLevel H} (h : bestLevel n cnt levels = some l) :
    l ∈ levels ∧ l.2.shareCount ≠ 0 ∧ cnt + l.2.shareCount ≤ n := by
  have hmem := mem_of_find?_eq_some h
  have hpred := find?_some h
  exact ⟨mem_reverse.mp hmem, of_decide_eq_true hpred⟩

theorem FilledFrom.walk (w : Window prev delta previous getDelta s len)
    (hok : NodesOk prev delta nodes) (h : FilledFrom nodes s n len 0) {fuel cnt : Nat} {pos : H}
    {sol : StatsDelta} (hat : WalksAt prev delta s n len cnt pos sol) (hcnt : cnt ≤ min n len)
    (hfuel : min n len - cnt < fuel) :
    CountsOf prev delta (s 0) (min n len) (walk nodes n fuel pos sol) := by
  induction fuel generalizing cnt pos sol with
  | zero => omega
  | succ fuel ih =>
    unfold StatsNodes.walk
    rw [hat.count]
    by_cases hinside : cnt < min n len
    · have hpos := hat.inside hinside
      have hgo : ¬ (pos = default ∨ n ≤ cnt) := by
        rw [hpos]
        intro hstop
        rcases hstop with hnull | hdone
        · exact w.nonNull cnt (by omega) hnull
        · omega
      obtain ⟨levels, hlevels⟩ := mem_iff.mp (h.cached cnt hinside (Nat.zero_le _))
      have hfits : ∀ l ∈ levels, LevelFits n len cnt l := by
        intro l hl
        apply h.fits cnt hinside (Nat.zero_le _)
        unfold levelsAt
        rw [hlevels]
        exact hl
      rw [if_neg hgo, hpos]
      simp only [hlevels]
      cases hbest : bestLevel n cnt levels with
      | none =>
        -- the first level is a single share, which always fits
        obtain ⟨first, hfirst, hone⟩ := (hok _ _ hlevels).first
        have hmem : first ∈ levels := mem_of_mem_head? hfirst
        have hpos := (hfits first hmem).1
        have hrefused := find?_eq_none.mp hbest first (mem_reverse.mpr hmem)
        rw [decide_eq_true_eq] at hrefused
        omega
      | some l =>
        obtain ⟨hmem, hpos, hle⟩ := bestLevel_spec hbest
        have hfit := hfits l hmem
        have hlevel := (hok _ _ hlevels).levels l hmem
        have hlen := (hfit.2 hle).1
        have hnext : WalksAt prev delta s n len (cnt + l.2.shareCount) l.1
            (sol.combine l.2) := by
          refine ⟨?_, ?_, ?_, ?_⟩
          · apply hat.counts.combine
            rw [w.iterate (by omega), Nat.zero_add]
            exact hlevel.counts
          · show sol.shareCount + l.2.shareCount = _
            rw [hat.count]
          · intro hlt
            exact hfit.target w hlevel hle ((hfit.2 hle).2 hlt)
          · intro hend
            by_cases hnull : l.1 = default
            · exact .inl hnull
            right
            rw [← hend]
            exact hfit.target w hlevel hle hnull
        exact ih hnext (by omega) (by omega)
    · have hdone : cnt = min n len := by omega
      rw [← hdone]
      split
      · exact hat.counts
      rename_i hgo
      push Not at hgo
      have hend : cnt = len ∧ len < n := by omega
      have hpos := (hat.atEnd hend.1).resolve_left hgo.1
      cases hlevels : nodes.lookup pos with
      | none => exact hat.counts
      | some levels =>
        have hbest : bestLevel n cnt levels = none := by
          apply find?_eq_none.mpr
          intro l hl
          have hzero := h.ended hend.2 l (by
            unfold levelsAt
            rw [← hpos, hlevels]
            exact mem_reverse.mp hl)
          simp [hzero]
        simp only [hbest]
        exact hat.counts

/-- A query that the cache serves returns the counts of the held shares among
the first `n`. -/
theorem Serves.query (w : Window prev delta previous getDelta s len)
    (hone : ∀ x, (delta x).shareCount = 1) (hread : ∀ x, Readable prev delta previous getDelta x)
    (hok : NodesOk prev delta nodes) (draw : H → Nat) (h : Serves nodes s n len) :
    CountsOf prev delta (s 0) (min n len) (query previous getDelta draw nodes (s 0) n).1 := by
  unfold StatsNodes.query
  split
  · rename_i hnothing
    have hzero : min n len = 0 := by
      rcases hnothing with hnull | hzero
      · by_contra hpos
        exact w.nonNull 0 (by omega) hnull
      · omega
    intro f
    rw [hzero, StatsDelta.get_empty]
    rfl
  have hfilled := h.filledFrom w hone hread hok draw (Nat.zero_add n) (Nat.zero_le len)
  refine hfilled.walk w (hok.phase1 hone hread draw _ n) ⟨?_, rfl, fun _ => rfl, ?_⟩
    (Nat.zero_le _) (by omega)
  · intro f
    rw [StatsDelta.get_empty]
    rfl
  intro hlen
  rw [← hlen]
  exact .inr rfl

end Window

end StatsNodes

end C2Pool.Sharechain
