import C2Pool.Ltc.PruningInvariant

/-! # Dropping tails around the converging challenger

While a competing segment is being verified, `clean_tracker` means to leave its bottom alone. The
exemption of step 3 asks whether the tail is held, and a key of `m_tails` never is.
-/

namespace C2Pool.Ltc

open List Sharechain ParentForest FiniteMap Forest

variable {H S : Type} [DecidableEq H] [Inhabited H]

/-- `SupersedeHint`, what `clean_tracker` reads of it. -/
structure SupersedeHint (H : Type) where
  active : Bool
  targetHead : H
  targetSegmentLast : H

namespace Tracker

def inSupersedeSegment (hint : SupersedeHint H) (t : Tracker H S) (tail : H) : Bool :=
  hint.active && decide (tail ∈ t.chain.shares) &&
    decide (t.chain.getLast tail = hint.targetSegmentLast)

def atIteration (order : IterationOrder H) (chainLength : Nat) (hint : SupersedeHint H)
    (t : Tracker H S) (iter : Nat) : Tracker H S :=
  dropTails order chainLength (inSupersedeSegment hint) iter t

/-- `to_remove` of an iteration. -/
def toRemove (order : IterationOrder H) (chainLength : Nat) (hint : SupersedeHint H)
    (t : Tracker H S) (iter : Nat) : List H :=
  afterTails order chainLength (inSupersedeSegment hint) (atIteration order chainLength hint t iter)

/-- The segment that ends at `last` has a head, and every one of its heads has the height at which
tails are dropped. -/
def LongSegment (c : Forest H S) (chainLength : Nat) (last : H) : Prop :=
  (∃ h ∈ c.heads, c.getLast h = last) ∧
    ∀ h ∈ c.heads, c.getLast h = last → 2 * chainLength + 10 ≤ c.getHeight h

variable {c : Forest H S} {t : Tracker H S} {n : Nat}

theorem getHeight_pos (hc : c.Consistent) {x : H} (hx : x ∈ c.shares) : 0 < c.getHeight x := by
  obtain ⟨t, n, hn⟩ := hc.exists_endsIn x
  rw [getHeight_of_endsAt hc.nullFree hc.acyclic hn]
  cases n with
  | zero =>
    have heq : x = t := Option.some.inj hn.1
    rw [← heq] at hn
    exact absurd hx (parent_eq_none_iff.mp hn.2)
  | succ n => exact Nat.succ_pos n

theorem le_minHeight_iff (hc : c.Consistent) {bound : Nat} (hbound : 0 < bound)
    (heads : List H) (hheld : ∀ h ∈ heads, h ∈ c.shares) :
    bound ≤ minHeight c heads ↔ heads ≠ [] ∧ ∀ h ∈ heads, bound ≤ c.getHeight h := by
  -- zero stands for no height so far, at the start and nowhere else
  have hloop : ∀ (l : List H) (least : Nat), (∀ h ∈ l, h ∈ c.shares) →
      (bound ≤ l.foldl (fun least h => if h ∉ c.shares then least
          else if least = 0 ∨ c.getHeight h < least then c.getHeight h else least) least ↔
        (least = 0 → l ≠ []) ∧ (least ≠ 0 → bound ≤ least) ∧ ∀ h ∈ l, bound ≤ c.getHeight h) := by
    intro l
    induction l with
    | nil =>
      intro least _
      by_cases hzero : least = 0
      · simp [hzero]
        omega
      · simp [hzero]
    | cons h l ih =>
      intro least hl
      have hh := hl h mem_cons_self
      have hpos := getHeight_pos hc hh
      rw [foldl_cons, if_neg (not_not_intro hh),
        ih _ fun x hx => hl x (mem_cons_of_mem h hx), forall_mem_cons]
      by_cases hless : least = 0 ∨ c.getHeight h < least
      · have hne : c.getHeight h ≠ 0 := by omega
        simp only [if_pos hless, hne, ne_eq, not_false_eq_true, forall_const, false_implies,
          true_and, reduceCtorEq, implies_true]
        constructor
        · intro hb
          exact ⟨fun _ => by omega, hb⟩
        · intro hb
          exact hb.2
      have hne : least ≠ 0 := by omega
      rw [if_neg hless]
      simp only [hne, ne_eq, not_false_eq_true, forall_const, false_implies, true_and]
      constructor
      · intro hb
        exact ⟨hb.1, by omega, hb.2⟩
      · intro hb
        exact ⟨hb.1, hb.2.2⟩
  have hzero := hloop heads 0 hheld
  simpa [minHeight] using hzero

theorem not_inSupersedeSegment (hc : t.chain.Consistent) {tail : H} (htail : tail ∈ t.chain.tails)
    (hint : SupersedeHint H) : inSupersedeSegment hint t tail = false := by
  have hfree : tail ∉ t.chain.shares := parent_eq_none_iff.mp (hc.mem_tails_iff_child.mp htail).1
  simp [inSupersedeSegment, hfree]

theorem mem_heads_getLast_iff (hc : c.Consistent) (hs : c.Shallow) {h last : H} :
    h ∈ c.heads ∧ c.getLast h = last ↔ h ∈ row c.tails last := by
  rw [hc.tables.tails_iff, hc.mem_heads_iff]
  constructor
  · intro hh
    obtain ⟨t, ht⟩ := hc.exists_endsIn h
    rw [hc.getLast_of_endsIn hs ht] at hh
    rw [← hh.2]
    exact ⟨hh.1, ht⟩
  · intro hh
    exact ⟨hh.1, hc.getLast_of_endsIn hs hh.2⟩

/-- A long segment is one whose row of `m_tails` passes the test of step 3. -/
theorem longSegment_iff (hc : c.Consistent) (hs : c.Shallow)
    (order : IterationOrder H) (chainLength : Nat) (last : H) :
    LongSegment c chainLength last ↔
      2 * chainLength + 10 ≤ minHeight c (order.list (row c.tails last)) := by
  have hrow : ∀ h, h ∈ order.list (row c.tails last) ↔ h ∈ c.heads ∧ c.getLast h = last := by
    intro h
    rw [order.mem_list, mem_heads_getLast_iff hc hs]
  have hheld : ∀ h ∈ order.list (row c.tails last), h ∈ c.shares := by
    intro h hh
    have hhead := hc.mem_heads_iff.mp ((hrow h).mp hh).1
    by_contra hnot
    exact hhead.1 (parent_eq_none_iff.mpr hnot)
  rw [le_minHeight_iff hc (by omega) _ hheld]
  constructor
  · intro hlong
    obtain ⟨h, hh, hlast⟩ := hlong.1
    exact ⟨ne_nil_of_mem ((hrow h).mpr ⟨hh, hlast⟩),
      fun x hx => hlong.2 x ((hrow x).mp hx).1 ((hrow x).mp hx).2⟩
  intro hlong
  obtain ⟨h, hh⟩ := exists_mem_of_ne_nil _ hlong.1
  exact ⟨⟨h, (hrow h).mp hh⟩, fun x hx hlast => hlong.2 x ((hrow x).mpr ⟨hx, hlast⟩)⟩

section

variable (hc : t.chain.Consistent) (hs : t.chain.Shallow) (order : IterationOrder H)
  (chainLength : Nat) (hint : SupersedeHint H)
include hc hs order chainLength hint

theorem mem_afterTails_iff (x : H) :
    x ∈ afterTails order chainLength (inSupersedeSegment hint) t ↔
      ∃ tail, LongSegment t.chain chainLength tail ∧ t.chain.parent x = some tail := by
  unfold afterTails
  rw [mem_flatMap]
  constructor
  · rintro ⟨tail, htail, hx⟩
    rw [order.mem_list, Finmap.mem_keys] at htail
    rw [not_inSupersedeSegment hc htail, if_neg Bool.false_ne_true] at hx
    split at hx
    · cases hx
    rename_i hheight
    rw [order.mem_list, hc.tables.reverse_iff] at hx
    have hlong := (longSegment_iff hc hs order chainLength tail).mpr (Nat.le_of_not_lt hheight)
    exact ⟨tail, hlong, hx⟩
  rintro ⟨tail, hlong, hx⟩
  obtain ⟨h, hh⟩ := hlong.1
  have htail : tail ∈ t.chain.tails := by
    rw [hc.mem_tails_iff]
    exact ⟨h, (hc.tables.tails_iff tail h).mp ((mem_heads_getLast_iff hc hs).mp hh)⟩
  have hheight := (longSegment_iff hc hs order chainLength tail).mp hlong
  refine ⟨tail, ?_, ?_⟩
  · rw [order.mem_list, Finmap.mem_keys]
    exact htail
  rw [not_inSupersedeSegment hc htail, if_neg Bool.false_ne_true, if_neg (by omega),
    order.mem_list, hc.tables.reverse_iff]
  exact hx

theorem exists_mem_afterTails_iff (last : H) :
    (∃ x ∈ afterTails order chainLength (inSupersedeSegment hint) t,
        EndsIn t.chain.parent x last) ↔ LongSegment t.chain chainLength last := by
  have hends : ∀ {x tail : H}, LongSegment t.chain chainLength tail →
      t.chain.parent x = some tail → EndsIn t.chain.parent x tail := by
    intro x tail hlong hx
    obtain ⟨h, hh⟩ := hlong.1
    have hfree := ((hc.tables.tails_iff tail h).mp ((mem_heads_getLast_iff hc hs).mp hh)).2.not_held
    exact ⟨1, (EndsAt.zero_of_none hfree).cons hx⟩
  constructor
  · rintro ⟨x, hx, hlast⟩
    obtain ⟨tail, hlong, hparent⟩ := (mem_afterTails_iff hc hs order chainLength hint x).mp hx
    rw [hlast.unique (hends hlong hparent)]
    exact hlong
  intro hlong
  obtain ⟨h, hh⟩ := hlong.1
  have htail : last ∈ t.chain.tails := by
    rw [hc.mem_tails_iff]
    exact ⟨h, (hc.tables.tails_iff last h).mp ((mem_heads_getLast_iff hc hs).mp hh)⟩
  obtain ⟨x, hx⟩ := (hc.mem_tails_iff_child.mp htail).2
  exact ⟨x, (mem_afterTails_iff hc hs order chainLength hint x).mpr ⟨last, hlong, hx⟩,
    hends hlong hx⟩

end

/-! ## The other segments' removals -/

/-- The shares whose chain ends at `last` keep their parents, and none is added to them. -/
structure SegmentKept (last : H) (c c' : Forest H S) : Prop where
  free : c.parent last = none
  sub : ∀ x y, c'.parent x = some y → c.parent x = some y
  keeps : ∀ x, EndsIn c.parent x last → c'.parent x = c.parent x

namespace SegmentKept

omit [Inhabited H] in
theorem refl {c : Forest H S} {last : H} (hfree : c.parent last = none) : SegmentKept last c c :=
  ⟨hfree, fun _ _ h => h, fun _ _ => rfl⟩

variable {c' : Forest H S} {last x : H}

omit [Inhabited H] in
theorem endsAt_iff {c : Forest H S} (hk : SegmentKept last c c') :
    EndsAt c.parent n x last ↔ EndsAt c'.parent n x last := by
  constructor
  · intro h
    have hpath : ancestor c'.parent n x = ancestor c.parent n x := by
      apply ancestor_congr
      intro m y _ hy
      exact hk.keeps y (EndsIn.drop ⟨n, h⟩ hy)
    have hlast := hk.keeps last ⟨0, EndsAt.zero_of_none hk.free⟩
    exact ⟨hpath.trans h.1, hlast.trans hk.free⟩
  · intro h
    exact ⟨ancestor_mono hk.sub h.1, hk.free⟩

omit [Inhabited H] in
theorem endsIn_iff {c : Forest H S} (hk : SegmentKept last c c') :
    EndsIn c.parent x last ↔ EndsIn c'.parent x last := exists_congr fun _ => hk.endsAt_iff

omit [Inhabited H] in
theorem trans {c : Forest H S} {c'' : Forest H S} (hk : SegmentKept last c c')
    (hk' : SegmentKept last c' c'') : SegmentKept last c c'' where
  free := hk.free
  sub x y h := hk.sub x y (hk'.sub x y h)
  keeps x hx := (hk'.keeps x (hk.endsIn_iff.mp hx)).trans (hk.keeps x hx)

omit [Inhabited H] in
theorem isHead_iff {c : Forest H S} (hk : SegmentKept last c c') (hx : EndsIn c.parent x last) :
    IsHead c.parent x ↔ IsHead c'.parent x := by
  have hchild : ∀ y, c.parent y = some x ↔ c'.parent y = some x := by
    intro y
    constructor
    · intro hy
      rw [hk.keeps y (EndsIn.prepend (ancestor_one y |>.trans hy) hx)]
      exact hy
    · exact hk.sub y x
  unfold IsHead
  rw [hk.keeps x hx]
  simp only [ne_eq, hchild]

theorem remove {c : Forest H S} {a : H} (hfree : c.parent last = none)
    (ha : ¬ EndsIn c.parent a last) : SegmentKept last c (c.remove a).2 where
  free := hfree
  sub x y hxy := by
    rcases Option.map_eq_some_iff.mp hxy with ⟨data, hdata, rfl⟩
    exact parent_of_lookup ((lookup_remove_iff _ _ _ _).mp hdata).1
  keeps x hx := by
    have hne : x ≠ a := by
      intro heq
      exact ha (heq ▸ hx)
    have hlookup : (c.remove a).2.shares.lookup x = c.shares.lookup x := by
      apply Option.ext
      intro data
      rw [lookup_remove_iff]
      simp [hne]
    unfold Forest.parent
    rw [hlookup]

theorem longSegment {chainLength : Nat} {c : Forest H S} (hk : SegmentKept last c c')
    (hc : c.Consistent) (hs : c.Shallow) (hc' : c'.Consistent) (hs' : c'.Shallow)
    (hlong : LongSegment c' chainLength last) :
    LongSegment c chainLength last := by
  have hmem : ∀ {h : H}, h ∈ c.heads ∧ c.getLast h = last ↔ h ∈ c'.heads ∧ c'.getLast h = last := by
    intro h
    rw [mem_heads_getLast_iff hc hs, mem_heads_getLast_iff hc' hs', hc.tables.tails_iff,
      hc'.tables.tails_iff, ← hk.endsIn_iff]
    exact and_congr_left fun hx => hk.isHead_iff hx
  obtain ⟨h, hh⟩ := hlong.1
  refine ⟨⟨h, hmem.mpr hh⟩, ?_⟩
  intro x hx hlast
  have hx' := hmem.mp ⟨hx, hlast⟩
  obtain ⟨n, hn⟩ := ((hc.tables.tails_iff last x).mp
    ((mem_heads_getLast_iff hc hs).mp ⟨hx, hlast⟩)).2
  have hheight := hlong.2 x hx'.1 hx'.2
  rw [getHeight_of_endsAt hc'.nullFree hc'.acyclic (hk.endsAt_iff.mp hn)] at hheight
  rw [getHeight_of_endsAt hc.nullFree hc.acyclic hn]
  exact hheight

end SegmentKept

/-- The chain of a tracker whose tails are being dropped, beside the chain before. -/
structure Dropping (last : H) (c : Forest H S) (t : Tracker H S) : Prop where
  consistent : t.chain.Consistent
  shallow : t.chain.Shallow
  kept : SegmentKept last c t.chain

theorem Dropping.dropAfterTail {last a : H}
    (hd : Dropping last c t) (ha : ¬ EndsIn c.parent a last) :
    Dropping last c (t.dropAfterTail a) := by
  unfold Tracker.dropAfterTail
  cases hdata : t.chain.shares.lookup a with
  | none => exact hd
  | some data =>
    dsimp only
    split
    · exact hd
    have hstep : SegmentKept last t.chain (t.removeShare a).chain :=
      SegmentKept.remove ((hd.kept.keeps last ⟨0, EndsAt.zero_of_none hd.kept.free⟩).trans
        hd.kept.free) (mt hd.kept.endsIn_iff.mpr ha)
    exact ⟨hd.consistent.remove hd.shallow a,
      hd.shallow.of_subforest hd.consistent.acyclic hstep.sub, hd.kept.trans hstep⟩

theorem Dropping.atIteration {t : Tracker H S} (hc : t.chain.Consistent) (hs : t.chain.Shallow)
    (order : IterationOrder H) (chainLength : Nat) (hint : SupersedeHint H) {last : H}
    (hfree : t.chain.parent last = none) (hshort : ¬ LongSegment t.chain chainLength last)
    (iter : Nat) : Dropping last t.chain (atIteration order chainLength hint t iter) := by
  have hloop : ∀ (rounds : Nat) (t' : Tracker H S), Dropping last t.chain t' →
      Dropping last t.chain (dropTails order chainLength (inSupersedeSegment hint) rounds t') := by
    intro rounds
    induction rounds with
    | zero =>
      intro t' hd
      exact hd
    | succ rounds ih =>
      intro t' hd
      unfold dropTails
      split
      · exact hd
      rename_i first rest hremove
      apply ih
      have houtside : ∀ a ∈ first :: rest, ¬ EndsIn t.chain.parent a last := by
        intro a ha hlast
        rw [← hremove] at ha
        have hlong := (exists_mem_afterTails_iff hd.consistent hd.shallow order chainLength hint
          last).mp ⟨a, ha, hd.kept.endsIn_iff.mp hlast⟩
        exact hshort (hd.kept.longSegment hc hs hd.consistent hd.shallow hlong)
      exact List.foldlRecOn _ _ hd fun t'' hd'' a ha => hd''.dropAfterTail (houtside a ha)
  exact hloop iter t ⟨hc, hs, .refl hfree⟩

/-- Whether the hint is active or not, no iteration of step 3 takes a share of the challenger's
segment if and only if that segment is not long when step 3 starts. -/
theorem challenger_spared_iff {t : Tracker H S} (hc : t.chain.Consistent) (hs : t.chain.Shallow)
    (order : IterationOrder H) (chainLength : Nat) (hint : SupersedeHint H)
    (htarget : hint.targetSegmentLast = t.chain.getLast hint.targetHead) :
    (∀ iter < 1000, ∀ x ∈ toRemove order chainLength hint t iter,
        ¬ EndsIn (atIteration order chainLength hint t iter).chain.parent x
          hint.targetSegmentLast) ↔ ¬ LongSegment t.chain chainLength hint.targetSegmentLast := by
  have hfree : t.chain.parent hint.targetSegmentLast = none := by
    obtain ⟨last, hlast⟩ := hc.exists_endsIn hint.targetHead
    rw [htarget, hc.getLast_of_endsIn hs hlast]
    exact hlast.not_held
  constructor
  · intro hspared hlong
    obtain ⟨x, hx, hends⟩ :=
      (exists_mem_afterTails_iff hc hs order chainLength hint hint.targetSegmentLast).mpr hlong
    exact hspared 0 (by omega) x hx hends
  intro hshort iter _ x hx hends
  have hd := Dropping.atIteration hc hs order chainLength hint hfree hshort iter
  have hlong := (exists_mem_afterTails_iff hd.consistent hd.shallow order chainLength hint
    hint.targetSegmentLast).mp ⟨x, hx, hends⟩
  exact hshort (hd.kept.longSegment hc hs hd.consistent hd.shallow hlong)

/-! ## A challenger of twice the window -/

/-- A chain of `n` shares from the start of the share chain, and one share of another segment. -/
def rivalForest (n : Nat) : Forest Nat Unit :=
  (linearForest n).add (Forest.plainShare (n + 2) (n + 1))

theorem rivalForest_parent (n x : Nat) :
    (rivalForest n).parent x =
      if x = n + 2 then some (n + 1) else if 1 ≤ x ∧ x ≤ n then some (x - 1) else none := by
  have hadd := parent_add (linearForest n) (Forest.plainShare (n + 2) (n + 1))
  change (rivalForest n).parent = extend (linearForest n).parent (n + 2) (n + 1) at hadd
  rw [hadd]
  by_cases hx : x = n + 2
  · simp [hx]
  · rw [extend_of_ne hx, linearForest_parent, if_neg hx]

theorem rivalForest_endsAt {n x : Nat} (hx : x ≤ n) : EndsAt (rivalForest n).parent x x 0 := by
  have hpath : ancestor (rivalForest n).parent x x = ancestor (linearForest n).parent x x := by
    apply ancestor_congr
    intro m y hm hy
    rw [linearForest_ancestor hx (by omega)] at hy
    have hle : y ≤ n := by
      rw [← Option.some.inj hy]
      omega
    rw [rivalForest_parent, if_neg (by omega), linearForest_parent]
  refine ⟨?_, ?_⟩
  · rw [hpath]
    exact (linearForest_endsAt hx).1
  · simp [rivalForest_parent]

theorem rivalForest_acyclic (n : Nat) : Acyclic (rivalForest n).parent := by
  apply acyclic_of_rank id
  intro x y hxy
  rw [rivalForest_parent] at hxy
  split at hxy
  · cases hxy
    simp_all
  split at hxy
  · cases hxy
    simp
    omega
  · cases hxy

theorem linearForest_shallow (hn : n ≤ 100001) : (linearForest n).Shallow := by
  intro m x t hm
  by_cases hx : x ≤ n
  · have hunique := hm.unique (linearForest_endsAt hx)
    omega
  have hnone : (linearForest n).parent x = none := by
    rw [linearForest_parent, if_neg (by omega)]
  have hunique := hm.unique (EndsAt.zero_of_none hnone)
  omega

theorem rivalForest_shallow (hn : n ≤ 100001) : (rivalForest n).Shallow := by
  intro m x t hm
  by_cases hx : x ≤ n
  · have hunique := hm.unique (rivalForest_endsAt hx)
    omega
  have hmissing : (rivalForest n).parent (n + 1) = none := by
    rw [rivalForest_parent, if_neg (by omega), if_neg (by omega)]
  by_cases hrival : x = n + 2
  · have hstep : (rivalForest n).parent x = some (n + 1) := by
      rw [rivalForest_parent, if_pos hrival]
    have hunique := hm.unique ((EndsAt.zero_of_none hmissing).cons hstep)
    omega
  have hnone : (rivalForest n).parent x = none := by
    rw [rivalForest_parent, if_neg hrival, if_neg (by omega)]
  have hunique := hm.unique (EndsAt.zero_of_none hnone)
  omega

theorem rivalForest_consistent (hn : n ≤ 100001) : (rivalForest n).Consistent := by
  apply (linearForest_consistent n).add (linearForest_shallow hn)
  · exact Nat.succ_ne_zero (n + 1)
  · rw [← parent_eq_none_iff, linearForest_parent, if_neg]
    simp [Forest.plainShare]
  · have hacyclic := rivalForest_acyclic n
    rwa [rivalForest, parent_add] at hacyclic

theorem rivalForest_longSegment {chainLength : Nat} (hn : n ≤ 100001)
    (hlong : 2 * chainLength + 10 ≤ n) : LongSegment (rivalForest n) chainLength 0 := by
  have hc := rivalForest_consistent hn
  have hs := rivalForest_shallow hn
  have htop : IsHead (rivalForest n).parent n := by
    constructor
    · rw [rivalForest_parent, if_neg (by omega), if_pos (by omega)]
      simp
    intro y hy
    rw [rivalForest_parent] at hy
    split at hy
    · cases hy
    split at hy
    · cases hy
      omega
    · cases hy
  refine ⟨⟨n, (mem_heads_getLast_iff hc hs).mpr
    ((hc.tables.tails_iff 0 n).mpr ⟨htop, n, rivalForest_endsAt (Nat.le_refl n)⟩)⟩, ?_⟩
  intro h hh hlast
  have hrow := (hc.tables.tails_iff 0 h).mp ((mem_heads_getLast_iff hc hs).mp ⟨hh, hlast⟩)
  -- below the top every share of the segment has a child
  have heq : h = n := by
    have hheld := hrow.1.1
    rw [rivalForest_parent] at hheld
    split at hheld
    · rename_i hrival
      have hstep : (rivalForest n).parent h = some (n + 1) := by
        rw [rivalForest_parent, if_pos hrival]
      have hmissing : (rivalForest n).parent (n + 1) = none := by
        rw [rivalForest_parent, if_neg (by omega), if_neg (by omega)]
      have := hrow.2.unique ⟨1, (EndsAt.zero_of_none hmissing).cons hstep⟩
      omega
    split at hheld
    · rename_i hbetween
      by_contra hne
      apply hrow.1.2 (h + 1)
      rw [rivalForest_parent, if_neg (by omega), if_pos (by omega), Nat.add_sub_cancel]
    · exact absurd rfl hheld
  rw [heq, getHeight_of_endsAt hc.nullFree hc.acyclic (rivalForest_endsAt (Nat.le_refl n))]
  exact hlong

/-- The rival share is verified; the segment below `n` is the challenger. -/
def rivalTracker (n : Nat) : Tracker Nat Unit :=
  ⟨rivalForest n, Forest.empty.add (Forest.plainShare (n + 2) (n + 1)), []⟩

def rivalHint (n : Nat) : SupersedeHint Nat := ⟨true, n, 0⟩

theorem rivalHint_target (hn : n ≤ 100001) :
    (rivalHint n).targetSegmentLast = (rivalTracker n).chain.getLast (rivalHint n).targetHead :=
  ((rivalForest_consistent hn).getLast_of_endsIn (rivalForest_shallow hn)
    ⟨n, rivalForest_endsAt (Nat.le_refl n)⟩).symm

theorem rival_taken {chainLength : Nat} (hn : n ≤ 100001) (hlong : 2 * chainLength + 10 ≤ n) :
    ∃ x ∈ toRemove sortedOrder chainLength (rivalHint n) (rivalTracker n) 0,
      EndsIn (atIteration sortedOrder chainLength (rivalHint n) (rivalTracker n) 0).chain.parent x
        (rivalHint n).targetSegmentLast :=
  (exists_mem_afterTails_iff (rivalForest_consistent hn) (rivalForest_shallow hn) sortedOrder
    chainLength (rivalHint n) 0).mpr (rivalForest_longSegment hn hlong)

/-- Under the main network's window, the challenger with 17290 shares loses its bottom share. -/
theorem challenger_dropped :
    (rivalTracker 17290).chain.Consistent ∧ (rivalTracker 17290).chain.Shallow ∧
      (rivalHint 17290).active = true ∧
      (rivalHint 17290).targetSegmentLast =
        (rivalTracker 17290).chain.getLast (rivalHint 17290).targetHead ∧
      ∃ iter < 1000, ∃ x ∈ toRemove sortedOrder 8640 (rivalHint 17290) (rivalTracker 17290) iter,
        EndsIn
          (atIteration sortedOrder 8640 (rivalHint 17290) (rivalTracker 17290) iter).chain.parent x
          (rivalHint 17290).targetSegmentLast := by
  have hn : 17290 ≤ 100001 := by omega
  exact ⟨rivalForest_consistent hn, rivalForest_shallow hn, rfl, rivalHint_target hn, 0, by omega,
    rival_taken hn (by omega)⟩

/-- A challenger of three shares is spared. -/
theorem challenger_spared_short : (rivalHint 3).active = true ∧
    ∀ iter < 1000, ∀ x ∈ toRemove sortedOrder 8640 (rivalHint 3) (rivalTracker 3) iter,
      ¬ EndsIn (atIteration sortedOrder 8640 (rivalHint 3) (rivalTracker 3) iter).chain.parent x
        (rivalHint 3).targetSegmentLast := by
  have hn : 3 ≤ 100001 := by omega
  refine ⟨rfl, ?_⟩
  apply (challenger_spared_iff (rivalForest_consistent hn) (rivalForest_shallow hn) sortedOrder 8640
    (rivalHint 3) (rivalHint_target hn)).mpr
  intro hlong
  have htop : 3 ∈ (rivalForest 3).heads := by decide
  have hheight : 2 * 8640 + 10 ≤ (rivalForest 3).getHeight 3 :=
    hlong.2 3 htop (rivalHint_target hn).symm
  rw [getHeight_of_endsAt (rivalForest_consistent hn).nullFree (rivalForest_acyclic 3)
    (rivalForest_endsAt (Nat.le_refl 3))] at hheight
  omega

end Tracker

end C2Pool.Ltc
