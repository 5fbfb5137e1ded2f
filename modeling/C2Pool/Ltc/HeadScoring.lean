import C2Pool.Sharechain.ChainNavigation
import C2Pool.Sharechain.ChainView
import C2Pool.Ltc.DecayedWeights

/-! # Scoring the heads of the best tail

Phase 4 of `think` ranks the verified heads above the best tail by the work of a recent ancestor,
less the work of the head itself when the head is punished. The difference is taken in unsigned
288-bit arithmetic, and on a short chain the ancestor is the missing end of the chain, whose work is
zero.
-/

namespace C2Pool.Ltc

open List Sharechain ParentForest FiniteMap

variable {H : Type} [DecidableEq H] [Inhabited H] {hh x : H} {S : Type} {c : Forest H S}
  {E : H → H → Prop} {prev : H → H}

/-- What phase 4 reads of a share's index besides its work. -/
structure SeenShare where
  timeSeen : Int
  naughty : Int
deriving DecidableEq

structure HeadScore where
  adjustedWork : UInt288
  negReason : Int
  negTimeSeen : Int
deriving DecidableEq

/-- The comparison of `std::tie(neg_reason, neg_time_seen)`. -/
def tieLess (reason seen reason' seen' : Int) : Prop :=
  reason < reason' ∨ reason = reason' ∧ seen < seen'

instance (reason seen reason' seen' : Int) : Decidable (tieLess reason seen reason' seen') :=
  inferInstanceAs (Decidable (_ ∨ _))

/-- `operator<` of `HeadScore`. -/
def HeadScore.less (a b : HeadScore) : Bool :=
  if a.adjustedWork < b.adjustedWork then true
  else if b.adjustedWork < a.adjustedWork then false
  else decide (tieLess a.negReason a.negTimeSeen b.negReason b.negTimeSeen)

/-- `DecoratedData<HeadScore>`. -/
structure DecoratedHead (H : Type) where
  score : HeadScore
  hash : H
deriving DecidableEq

/-- The score of a held head whose ancestor has work `workScore`. -/
def headScore (data : ChainData H SeenShare) (workScore : UInt288) : HeadScore :=
  let reason := if 0 < data.share.naughty then data.share.naughty else 0
  let adjustedWork := if 0 < reason then workScore - data.index.work else workScore
  ⟨adjustedWork, -reason, -data.share.timeSeen⟩

/-- The body of the loop over `head_hashes`; `none` is a head that is passed over, also through an
exception. -/
def scoreHead (draw : H → Nat) (t : ChainPair H SeenShare) (hh : H) :
    Option (DecoratedHead H) × ChainPair H SeenShare :=
  if hh ∉ t.verified.forest.shares then (none, t)
  else
    match t.verified.getAccHeight hh with
    | none => (none, t)
    | some (vHeight, verified) =>
      let t := { t with verified := verified }
      let out := t.getNthParentViaSkip .verified draw hh (min 5 vHeight).toNat
      match out.2.verified.getWork out.1 with
      | none => (none, out.2)
      | some (workScore, verified) =>
        let t := { out.2 with verified := verified }
        match t.chain.forest.shares.lookup hh with
        | none => (none, t)
        | some data => (some ⟨headScore data workScore, hh⟩, t)

/-- `decorated_heads` before it is sorted, and the chains with the caches the loop filled. -/
def decorateHeads (draw : H → Nat) :
    List H → ChainPair H SeenShare → List (DecoratedHead H) × ChainPair H SeenShare
  | [], t => ([], t)
  | hh :: rest, t =>
    let out := scoreHead draw t hh
    let others := decorateHeads draw rest out.2
    (out.1.toList ++ others.1, others.2)

def decoratedHeads (draw : H → Nat) (order : IterationOrder H) (t : ChainPair H SeenShare)
    (bestTail : H) : List (DecoratedHead H) :=
  (decorateHeads draw (order.list (row t.verified.forest.tails bestTail)) t).1

/-- The work of all held shares from `x` to the end of its chain. -/
def chainWork (c : Forest H SeenShare) (x : H) : UInt288 :=
  ((TrackerView.chainIndexes c (c.getHeight x) x).map fun index => index.work).sum

/-- The verified work of the parent `min(5, height)` steps below a head. -/
def ancestorWork (verified : Forest H SeenShare) (hh : H) : UInt288 :=
  match verified.getNthParentKey (min 5 (verified.getHeight hh)) hh with
  | some ancestor => chainWork verified ancestor
  | none => 0

def reasonOf (c : Forest H SeenShare) (hh : H) : Int :=
  match c.shares.lookup hh with
  | some data => if 0 < data.share.naughty then data.share.naughty else 0
  | none => 0

def chargedWork (c : Forest H SeenShare) (hh : H) : UInt288 :=
  match c.shares.lookup hh with
  | some data => if 0 < data.share.naughty then data.index.work else 0
  | none => 0

def timeSeenOf (c : Forest H SeenShare) (hh : H) : Int :=
  match c.shares.lookup hh with
  | some data => data.share.timeSeen
  | none => 0

/-- The key `(work - charged work, -reason, -time_seen)` over the integers. -/
structure SignedKey where
  work : Int
  negReason : Int
  negTimeSeen : Int

def SignedKey.Less (a b : SignedKey) : Prop :=
  a.work < b.work ∨ a.work = b.work ∧ tieLess a.negReason a.negTimeSeen b.negReason b.negTimeSeen

def signedKey (t : ChainPair H SeenShare) (hh : H) : SignedKey :=
  ⟨(ancestorWork t.verified.forest hh).toNat - (chargedWork t.chain.forest hh).toNat,
    -reasonOf t.chain.forest hh, -timeSeenOf t.chain.forest hh⟩

def chargedScore (t : ChainPair H SeenShare) (hh : H) : HeadScore :=
  ⟨ancestorWork t.verified.forest hh - chargedWork t.chain.forest hh,
    -reasonOf t.chain.forest hh, -timeSeenOf t.chain.forest hh⟩

variable {t : ChainPair H SeenShare}

theorem headScore_eq {data : ChainData H SeenShare}
    (hdata : t.chain.forest.shares.lookup hh = some data) :
    headScore data (ancestorWork t.verified.forest hh) = chargedScore t hh := by
  by_cases hnaughty : 0 < data.share.naughty
  · simp [headScore, chargedScore, chargedWork, reasonOf, timeSeenOf, hdata, hnaughty]
  · simp [headScore, chargedScore, chargedWork, reasonOf, timeSeenOf, hdata, hnaughty]

theorem targetToAverageAttempts_le (target : BitVec 256) :
    (targetToAverageAttempts target).toNat ≤ 2 ^ 256 := by
  unfold targetToAverageAttempts
  exact Nat.div_le_self _ _

theorem toNat_sum_le {bound : Nat} (works : List UInt288) (hworks : ∀ w ∈ works, w.toNat ≤ bound) :
    works.sum.toNat ≤ works.length * bound := by
  induction works with
  | nil => exact Nat.zero_le _
  | cons w works ih =>
    have hw := hworks w mem_cons_self
    have hrest := ih fun x hx => hworks x (mem_cons_of_mem w hx)
    have hadd : (w + works.sum).toNat ≤ w.toNat + works.sum.toNat := by
      exact Nat.mod_le _ _
    rw [sum_cons, length_cons, Nat.succ_mul]
    omega

omit [Inhabited H] in
theorem length_chainIndexes_le (c : Forest H S) (n : Nat) (x : H) :
    (TrackerView.chainIndexes c n x).length ≤ n := by
  induction n generalizing x with
  | zero => simp [TrackerView.chainIndexes]
  | succ n ih =>
    unfold TrackerView.chainIndexes
    cases hx : c.shares.lookup x with
    | none => simp
    | some data => simpa using ih data.index.tail

omit [Inhabited H] in
theorem mem_chainIndexes {n : Nat} {index : ShareIndex H}
    (hindex : index ∈ TrackerView.chainIndexes c n x) :
    ∃ y data, c.shares.lookup y = some data ∧ index = data.index := by
  induction n generalizing x with
  | zero => simp [TrackerView.chainIndexes] at hindex
  | succ n ih =>
    unfold TrackerView.chainIndexes at hindex
    cases hx : c.shares.lookup x with
    | none => simp [hx] at hindex
    | some data =>
      simp only [hx, mem_cons] at hindex
      rcases hindex with rfl | hindex
      · exact ⟨x, data, hx, rfl⟩
      · exact ih hindex

/-! ## What the loop computes -/

/-- The chains as the tracker keeps them: the navigation and the cached sums are right. -/
structure Scoreable (E : H → H → Prop) (prev : H → H) (t : ChainPair H SeenShare) : Prop where
  nav : ChainPair.NavInvariant prev t
  view : ShareChain.ViewInvariant E t.verified

theorem spans_of_isDeltaToLast (hc : c.Consistent) {d : AttributeDelta H}
    (hd : ShareChain.IsDeltaToLast c x d) : TrackerView.Spans c (c.getHeight x) x d := by
  obtain ⟨n, hn⟩ := hd.sums
  have hheight : c.getHeight x = n :=
    Forest.getHeight_of_endsAt hc.nullFree hc.acyclic ⟨hn.reaches, hd.missing⟩
  rw [hheight]
  exact hn

theorem getHeight_of_notMem (hx : x ∉ c.shares) : c.getHeight x = 0 := by
  have hnone : c.current x = none := by
    unfold Forest.current
    split
    · rfl
    · exact Finmap.lookup_eq_none.mpr hx
  simp [Forest.getHeight, Forest.getHeightLoop, hnone]

theorem getAttribute_eq {A S : Type} {c : ShareChain H S} (h : ShareChain.ViewInvariant E c)
    (field : AttributeDelta H → A) (neutral : A) (hx : x ∈ c.forest.shares) :
    ∃ d c', c.getAttribute field neutral x = some (field d, c') ∧
      ShareChain.IsDeltaToLast c.forest x d ∧ c'.forest = c.forest ∧
      ShareChain.ViewInvariant E c' := by
  obtain ⟨d, c', hd, hlast, hforest, h'⟩ := h.getDeltaToLast x
  refine ⟨d, c', ?_, hlast, hforest, h'⟩
  unfold ShareChain.getAttribute
  rw [if_pos hx, hd]
  rfl

theorem getAccHeight_eq {c : ShareChain H S} (h : ShareChain.ViewInvariant E c)
    (hx : x ∈ c.forest.shares) :
    ∃ c', c.getAccHeight x = some ((c.forest.getHeight x : Int), c') ∧ c'.forest = c.forest ∧
      ShareChain.ViewInvariant E c' := by
  obtain ⟨d, c', hget, hlast, hforest, h'⟩ := getAttribute_eq h (fun d => d.height) 0 hx
  refine ⟨c', ?_, hforest, h'⟩
  rw [← (spans_of_isDeltaToLast h.consistent hlast).height]
  exact hget

theorem getWork_eq {c : ShareChain H SeenShare} (h : ShareChain.ViewInvariant E c) (x : H) :
    ∃ c', c.getWork x = some (chainWork c.forest x, c') ∧ c'.forest = c.forest ∧
      ShareChain.ViewInvariant E c' := by
  by_cases hx : x ∈ c.forest.shares
  · obtain ⟨d, c', hget, hlast, hforest, h'⟩ := getAttribute_eq h (fun d => d.work) 0 hx
    refine ⟨c', ?_, hforest, h'⟩
    have hwork : chainWork c.forest x = d.work :=
      (spans_of_isDeltaToLast h.consistent hlast).work.symm
    rw [hwork]
    exact hget
  refine ⟨c, ?_, rfl, h⟩
  have hzero : chainWork c.forest x = 0 := by
    unfold chainWork
    rw [getHeight_of_notMem hx]
    rfl
  rw [hzero, ShareChain.getWork, ShareChain.getAttribute, if_neg hx]

theorem scoreHead_eq (h : Scoreable E prev t) (draw : H → Nat)
    (hh' : hh ∈ t.verified.forest.shares) :
    ∃ t', scoreHead draw t hh = (some ⟨chargedScore t hh, hh⟩, t') ∧ Scoreable E prev t' ∧
      t'.chain.forest = t.chain.forest ∧ t'.chain.view = t.chain.view ∧
      t'.verified.forest = t.verified.forest := by
  obtain ⟨v₁, hheight, hforest₁, hview₁⟩ := getAccHeight_eq h.view hh'
  -- the state after the height was asked for
  have hnav₁ : ChainPair.NavInvariant prev ⟨t.chain, v₁⟩ := by
    refine ⟨h.nav.chain, ?_, ?_, h.nav.truthful⟩
    · rw [hforest₁]
      exact h.nav.verified
    · rw [hforest₁]
      exact h.nav.subset
  have hsteps : (min 5 ((t.verified.forest.getHeight hh : Nat) : Int)).toNat =
      min 5 (t.verified.forest.getHeight hh) := by omega
  have hle : min 5 (t.verified.forest.getHeight hh) ≤
      ((⟨t.chain, v₁⟩ : ChainPair H SeenShare).forest .verified).getHeight hh := by
    change _ ≤ v₁.forest.getHeight hh
    rw [hforest₁]
    exact Nat.min_le_right _ _
  have hlookup := hnav₁.lookup .verified draw hle
  generalize hout : (⟨t.chain, v₁⟩ : ChainPair H SeenShare).getNthParentViaSkip .verified draw hh
    (min 5 (t.verified.forest.getHeight hh)) = out at hlookup
  have hsame : out.2.verified = v₁ ∧ out.2.chain.forest = t.chain.forest := by
    rw [← hout]
    exact ⟨rfl, rfl⟩
  have hcached : out.2.chain.view = t.chain.view := by
    rw [← hout]
    rfl
  have hview₂ : ShareChain.ViewInvariant E out.2.verified := by
    rw [hsame.1]
    exact hview₁
  obtain ⟨v₂, hwork, hforest₂, hview₃⟩ := getWork_eq hview₂ out.1
  have hkept : v₂.forest = t.verified.forest := by
    rw [hforest₂, hsame.1, hforest₁]
  have hancestor : ancestorWork t.verified.forest hh = chainWork out.2.verified.forest out.1 := by
    have hparent := hlookup.1
    change v₁.forest.getNthParentKey _ hh = _ at hparent
    rw [hforest₁] at hparent
    unfold ancestorWork
    rw [hparent, hsame.1, hforest₁]
  obtain ⟨data, hdata⟩ := Finmap.mem_iff.mp (h.nav.subset hh hh')
  refine ⟨⟨out.2.chain, v₂⟩, ?_, ⟨?_, hview₃⟩, hsame.2, hcached, hkept⟩
  · unfold scoreHead
    rw [if_neg (not_not_intro hh'), hheight]
    simp only [hsteps, hout, hwork, hsame.2, hdata, ← hancestor, headScore_eq hdata]
  · refine ⟨hlookup.2.chain, ?_, ?_, hlookup.2.truthful⟩
    · change Forest.Follows prev v₂.forest
      rw [hkept]
      exact h.nav.verified
    change ∀ x ∈ v₂.forest.shares, x ∈ out.2.chain.forest.shares
    rw [hkept, hsame.2]
    exact h.nav.subset

theorem decorateHeads_eq (draw : H → Nat) (heads : List H)
    (h : Scoreable E prev t) (hheld : ∀ hh ∈ heads, hh ∈ t.verified.forest.shares) :
    ∃ t', decorateHeads draw heads t = (heads.map fun hh => ⟨chargedScore t hh, hh⟩, t') ∧
      Scoreable E prev t' ∧ t'.chain.forest = t.chain.forest ∧ t'.chain.view = t.chain.view := by
  induction heads generalizing t with
  | nil => exact ⟨t, rfl, h, rfl, rfl⟩
  | cons hh rest ih =>
    obtain ⟨t₁, hscore, h₁, hchain, hview, hverified⟩ :=
      scoreHead_eq h draw (hheld hh mem_cons_self)
    obtain ⟨t', hrest, h', hchain', hview'⟩ := ih h₁ (by
      intro x hx
      rw [hverified]
      exact hheld x (mem_cons_of_mem hh hx))
    have hsame : (fun x => (⟨chargedScore t₁ x, x⟩ : DecoratedHead H)) =
        fun x => ⟨chargedScore t x, x⟩ := by
      unfold chargedScore
      rw [hchain, hverified]
    refine ⟨t', ?_, h', hchain'.trans hchain, hview'.trans hview⟩
    unfold decorateHeads
    simp only [hscore, hrest, hsame, Option.toList_some, singleton_append, map_cons]

theorem held_of_mem_row (h : Scoreable E prev t) (order : IterationOrder H) (bestTail : H) :
    ∀ hh ∈ order.list (row t.verified.forest.tails bestTail), hh ∈ t.verified.forest.shares := by
  intro hh hmem
  rw [order.mem_list, h.view.consistent.tables.tails_iff] at hmem
  by_contra hnot
  exact hmem.1.1 (Forest.parent_eq_none_iff.mpr hnot)

theorem mem_decoratedHeads_iff (h : Scoreable E prev t)
    (draw : H → Nat) (order : IterationOrder H) (bestTail : H) (e : DecoratedHead H) :
    e ∈ decoratedHeads draw order t bestTail ↔
      ∃ hh ∈ row t.verified.forest.tails bestTail, e = ⟨chargedScore t hh, hh⟩ := by
  obtain ⟨t', hheads, -⟩ := decorateHeads_eq draw _ h (held_of_mem_row h order bestTail)
  unfold decoratedHeads
  rw [hheads, mem_map]
  simp only [order.mem_list, eq_comm]

end C2Pool.Ltc
