import C2Pool.V37.Roundabout

/-! # Missing summaries

A roundabout without a summary carries its last work on and ages it: the work counts half per missed
period and not at all from the grace on. Splits hand halves down with their age.
-/

namespace C2Pool.V37.Roundabout

open List Nat

def PeriodInput.Silent (input : PeriodInput) : Prop :=
  ∀ i, input.workByRb.getD i none = none

def Map.decayState (mp : Map) : List (Work × Nat) := mp.lastW.zip mp.missed

/-- The decay state has an entry for each roundabout. -/
def Map.Shaped (mp : Map) : Prop := mp.lastW.length = mp.k ∧ mp.missed.length = mp.k

/-- A silent period ages a roundabout by one. -/
def aged (g : Gate) (c : Work × Nat) : Work × Nat := (c.1, min (c.2 + 1) g.missGrace)

def counts (g : Gate) (c : Work × Nat) : Nat := (decayedW c.1 c.2 g).val

def Agree (a b : Work × Nat) : Prop := (b.2 < a.2 → a.1 = 0) ∧ (a.2 < b.2 → b.1 = 0)

def PairsAgree : List (Work × Nat) → Prop
  | a :: b :: rest => Agree a b ∧ PairsAgree rest
  | _ => True

def KeepsAge (g : Gate) (mp : Map) (input : PeriodInput) : Prop :=
  trigger (hTotal mp input g) mp.m g = -1 → PairsAgree (carried mp input g)

variable {g : Gate} {cs : List (Work × Nat)} {n : Nat} {inputs : Nat → PeriodInput}
  {sha : List Byte → Bytes32} {mp : Map} {input : PeriodInput}

theorem counts_eq (g : Gate) (w : Work) (n : Nat) :
    counts g (w, n) = if n ≠ 0 ∧ g.missGrace ≤ n then 0 else w.val / 2 ^ n := by
  unfold counts decayedW
  by_cases hzero : n = 0
  · simp [hzero]
  by_cases hgrace : g.missGrace ≤ n
  · simp [hzero, hgrace]
  have hlt : w.val / 2 ^ n < 2 ^ 128 := (Nat.div_le_self _ _).trans_lt w.isLt
  rw [if_neg hzero, if_neg hgrace, if_neg (by omega)]
  exact mod_eq_of_lt hlt

theorem counts_le (g : Gate) (c : Work × Nat) : counts g c ≤ c.1.val := by
  rw [show c = (c.1, c.2) from rfl, counts_eq]
  split
  · exact zero_le _
  · exact Nat.div_le_self _ _

theorem counts_aged (hgrace : g.missGrace ≠ 0) (w : Work) (n : Nat) :
    counts g (aged g (w, n)) = if g.missGrace ≤ n + 1 then 0 else w.val / 2 ^ (n + 1) := by
  unfold aged
  rw [counts_eq]
  by_cases hreached : g.missGrace ≤ n + 1
  · rw [if_pos hreached, min_eq_right hreached, if_pos ⟨hgrace, le_rfl⟩]
  · rw [if_neg hreached, min_eq_left (by omega), if_neg (by omega)]

theorem counts_of_lt {w : Work} {n : Nat} (h : n < g.missGrace) :
    counts g (w, n) = w.val / 2 ^ n := by
  rw [counts_eq, if_neg (by omega)]

theorem div_pow_succ_le (w n : Nat) : w / 2 ^ (n + 1) ≤ w / 2 ^ n :=
  Nat.div_le_div_left (Nat.pow_le_pow_right (by decide) (Nat.le_succ n)) (Nat.two_pow_pos n)

theorem counts_aged_le (hgrace : g.missGrace ≠ 0) (c : Work × Nat) :
    counts g (aged g c) ≤ counts g c := by
  rw [counts_aged hgrace]
  split
  · exact zero_le _
  · rw [counts_of_lt (by omega)]
    exact div_pow_succ_le _ _

theorem counts_split_le (hgrace : g.missGrace ≠ 0) (c : Work × Nat) :
    counts g (aged g (c.1 - c.1 / 2, c.2)) + counts g (aged g (c.1 / 2, c.2)) ≤ counts g c := by
  obtain ⟨w, n⟩ := c
  rw [counts_aged hgrace, counts_aged hgrace]
  split
  · simp
  have hhalf : (w / 2).val = w.val / 2 := rfl
  have hle : w / 2 ≤ w := by
    exact Nat.div_le_self _ _
  have hsub : (w - w / 2).val = w.val - w.val / 2 := by
    rw [Fin.sub_val_of_le hle, hhalf]
  rw [counts_of_lt (by omega), hsub, hhalf]
  calc (w.val - w.val / 2) / 2 ^ (n + 1) + w.val / 2 / 2 ^ (n + 1)
      ≤ (w.val - w.val / 2 + w.val / 2) / 2 ^ (n + 1) := div_add_div_le_add_div
    _ = w.val / 2 ^ (n + 1) := by rw [Nat.sub_add_cancel (Nat.div_le_self _ _)]
    _ ≤ w.val / 2 ^ n := div_pow_succ_le _ _

theorem add_div_pow_succ_le (a b n : Nat) : (a + b) / 2 ^ (n + 1) ≤ a / 2 ^ n + b / 2 ^ n := by
  have hpos : 0 < 2 ^ n := Nat.two_pow_pos n
  have ha := Nat.lt_mul_div_succ a hpos
  have hb := Nat.lt_mul_div_succ b hpos
  have hsum : (a + b) / 2 ^ n < a / 2 ^ n + b / 2 ^ n + 2 := by
    rw [div_lt_iff_lt_mul hpos]
    calc a + b < 2 ^ n * (a / 2 ^ n + 1) + 2 ^ n * (b / 2 ^ n + 1) := Nat.add_lt_add ha hb
      _ = (a / 2 ^ n + b / 2 ^ n + 2) * 2 ^ n := by ring
  rw [Nat.pow_succ, ← Nat.div_div_eq_div_mul]
  generalize a / 2 ^ n + b / 2 ^ n = p at hsum ⊢
  omega

theorem counts_merge_le (hgrace : g.missGrace ≠ 0) {a b : Work × Nat} (h : Agree a b)
    (hroom : a.1.val + b.1.val < 2 ^ 128) :
    counts g (aged g (a.1 + b.1, min a.2 b.2)) ≤ counts g a + counts g b := by
  obtain ⟨w, n⟩ := a
  obtain ⟨v, l⟩ := b
  have hadd : (w + v).val = w.val + v.val := by
    exact mod_eq_of_lt hroom
  rw [counts_aged hgrace]
  split
  · exact zero_le _
  next hyoung =>
  rw [hadd]
  rcases lt_trichotomy n l with hlt | rfl | hlt
  · have hzero : v = 0 := h.2 hlt
    rw [min_eq_left hlt.le, counts_of_lt (by omega), hzero]
    exact (div_pow_succ_le _ _).trans (le_add_right _ _)
  · rw [min_self] at hyoung ⊢
    rw [counts_of_lt (by omega), counts_of_lt (by omega)]
    exact add_div_pow_succ_le _ _ _
  · have hzero : w = 0 := h.1 hlt
    rw [min_eq_right hlt.le, hzero]
    have hcounts : counts g (v, l) = v.val / 2 ^ l := counts_of_lt (by omega)
    rw [hcounts]
    simpa using (div_pow_succ_le v.val l).trans (le_add_left _ _)

/-! ## All roundabouts -/

def countsAll (g : Gate) (cs : List (Work × Nat)) : Nat := (cs.map (counts g)).sum

def workAll (cs : List (Work × Nat)) : Nat := (cs.map fun c => c.1.val).sum

@[simp] theorem countsAll_nil : countsAll g [] = 0 := rfl

@[simp] theorem countsAll_cons (c : Work × Nat) (cs : List (Work × Nat)) :
    countsAll g (c :: cs) = counts g c + countsAll g cs := by
  simp [countsAll]

@[simp] theorem workAll_nil : workAll [] = 0 := rfl

@[simp] theorem workAll_cons (c : Work × Nat) (cs : List (Work × Nat)) :
    workAll (c :: cs) = c.1.val + workAll cs := by
  simp [workAll]

theorem countsAll_le (g : Gate) (cs : List (Work × Nat)) : countsAll g cs ≤ workAll cs := by
  induction cs with
  | nil => simp
  | cons c cs ih =>
    exact Nat.add_le_add (counts_le g c) ih

theorem val_sum (ws : List Work) : ws.sum.val = (ws.map (·.val)).sum % 2 ^ 128 := by
  induction ws with
  | nil => rfl
  | cons w ws ih =>
    rw [sum_cons, map_cons, sum_cons, Fin.val_add, ih, add_mod_mod]

theorem hTotal_val_mod (g : Gate) (mp : Map) (input : PeriodInput) :
    (hTotal mp input g).val = countsAll g (carried mp input g) % 2 ^ 128 := by
  unfold hTotal
  rw [val_sum, map_map]
  rfl

theorem hTotal_val {mp : Map} {input : PeriodInput}
    (hroom : workAll (carried mp input g) < 2 ^ 128) :
    (hTotal mp input g).val = countsAll g (carried mp input g) := by
  rw [hTotal_val_mod]
  exact mod_eq_of_lt ((countsAll_le g _).trans_lt hroom)

theorem workAll_aged (g : Gate) (cs : List (Work × Nat)) :
    workAll (cs.map (aged g)) = workAll cs := by
  unfold workAll
  rw [map_map]
  rfl

theorem countsAll_aged_le (hgrace : g.missGrace ≠ 0) (cs : List (Work × Nat)) :
    countsAll g (cs.map (aged g)) ≤ countsAll g cs := by
  induction cs with
  | nil => simp
  | cons c cs ih =>
    exact Nat.add_le_add (counts_aged_le hgrace c) ih

theorem splitCarried_cons (c : Work × Nat) (cs : List (Work × Nat)) :
    splitCarried (c :: cs) = (c.1 - c.1 / 2, c.2) :: (c.1 / 2, c.2) :: splitCarried cs := rfl

theorem workAll_split (cs : List (Work × Nat)) : workAll (splitCarried cs) = workAll cs := by
  induction cs with
  | nil => rfl
  | cons c cs ih =>
    have hhalf : (c.1 / 2).val = c.1.val / 2 := rfl
    have hle : c.1 / 2 ≤ c.1 := by
      exact Nat.div_le_self _ _
    rw [splitCarried_cons, workAll_cons, workAll_cons, workAll_cons, ih]
    rw [Fin.sub_val_of_le hle, hhalf]
    omega

theorem countsAll_split_le (hgrace : g.missGrace ≠ 0) (cs : List (Work × Nat)) :
    countsAll g ((splitCarried cs).map (aged g)) ≤ countsAll g cs := by
  induction cs with
  | nil => simp [splitCarried]
  | cons c cs ih =>
    rw [splitCarried_cons, map_cons, map_cons, countsAll_cons, countsAll_cons,
      countsAll_cons, ← add_assoc]
    exact Nat.add_le_add (counts_split_le hgrace c) ih

theorem workAll_merge (hroom : workAll cs < 2 ^ 128) : workAll (mergeCarried cs) = workAll cs := by
  induction cs using mergeCarried.induct with
  | case1 a b rest ih =>
    rw [workAll_cons, workAll_cons] at hroom
    rw [mergeCarried, workAll_cons, workAll_cons, workAll_cons, ih (by omega)]
    have hadd : (a.1 + b.1).val = a.1.val + b.1.val := by
      rw [Fin.val_add]
      exact mod_eq_of_lt (by omega)
    rw [hadd]
    omega
  | case2 rest hshort =>
    rw [mergeCarried]
    exact hshort

theorem countsAll_merge_le (hgrace : g.missGrace ≠ 0)
    (hagree : PairsAgree cs) (hroom : workAll cs < 2 ^ 128) :
    countsAll g ((mergeCarried cs).map (aged g)) ≤ countsAll g cs := by
  induction cs using mergeCarried.induct with
  | case1 a b rest ih =>
    rw [workAll_cons, workAll_cons] at hroom
    rw [mergeCarried, map_cons, countsAll_cons, countsAll_cons, countsAll_cons, ← add_assoc]
    exact Nat.add_le_add (counts_merge_le hgrace hagree.1 (by omega)) (ih hagree.2 (by omega))
  | case2 rest hshort =>
    rw [mergeCarried]
    · exact countsAll_aged_le hgrace rest
    · exact hshort

theorem countsAll_next_le (hgrace : g.missGrace ≠ 0) {step : Int}
    (hagree : step < 0 → PairsAgree cs) (hroom : workAll cs < 2 ^ 128) :
    countsAll g ((nextCarried step cs).map (aged g)) ≤ countsAll g cs := by
  unfold nextCarried
  split
  · exact countsAll_split_le hgrace cs
  split
  next hmerge => exact countsAll_merge_le hgrace (hagree hmerge) hroom
  · exact countsAll_aged_le hgrace cs

theorem workAll_next (step : Int) (hroom : workAll cs < 2 ^ 128) :
    workAll (nextCarried step cs) = workAll cs := by
  unfold nextCarried
  split
  · exact workAll_split cs
  split
  · exact workAll_merge hroom
  · rfl

/-- Every roundabout has missed at least `n` periods, or the grace. -/
def AgedBy (g : Gate) (n : Nat) (cs : List (Work × Nat)) : Prop :=
  ∀ c ∈ cs, min n g.missGrace ≤ c.2

theorem AgedBy.aged {n : Nat} {cs : List (Work × Nat)} (h : AgedBy g n cs) :
    AgedBy g (n + 1) (cs.map (aged g)) := by
  intro c hc
  obtain ⟨a, ha, rfl⟩ := mem_map.mp hc
  have hage := h a ha
  unfold Roundabout.aged
  dsimp only
  omega

theorem AgedBy.merge (h : AgedBy g n cs) : AgedBy g n (mergeCarried cs) := by
  induction cs using mergeCarried.induct with
  | case1 a b rest ih =>
    intro c hc
    rcases mem_cons.mp hc with rfl | hc
    · exact le_min (h a (by simp)) (h b (by simp))
    · exact ih (fun c hc => h c (by simp [hc])) c hc
  | case2 rest hshort =>
    rw [mergeCarried]
    · exact h
    · exact hshort

theorem AgedBy.next (h : AgedBy g n cs) (step : Int) : AgedBy g n (nextCarried step cs) := by
  unfold nextCarried
  split
  · intro c hc
    obtain ⟨a, ha, hmem⟩ := mem_flatMap.mp hc
    have hage := h a ha
    rcases mem_cons.mp hmem with rfl | hmem
    · exact hage
    · rw [mem_singleton.mp hmem]
      exact hage
  split
  · exact h.merge
  · exact h

theorem AgedBy.countsAll_eq_zero (h : AgedBy g n cs)
    (hgrace : g.missGrace ≠ 0) (hn : g.missGrace ≤ n) : countsAll g cs = 0 := by
  induction cs with
  | nil => rfl
  | cons c cs ih =>
    have hage := h c (by simp)
    rw [min_eq_right hn] at hage
    have hzero : counts g c = 0 := by
      rw [show c = (c.1, c.2) from rfl, counts_eq, if_pos ⟨by omega, hage⟩]
    rw [countsAll_cons, hzero, ih (fun c hc => h c (by simp [hc]))]

/-! ## Maps -/

theorem length_split (cs : List (Work × Nat)) : (splitCarried cs).length = 2 * cs.length := by
  induction cs with
  | nil => rfl
  | cons c cs ih =>
    rw [splitCarried_cons, length_cons, length_cons, length_cons, ih]
    omega

theorem length_merge (cs : List (Work × Nat)) : (mergeCarried cs).length = (cs.length + 1) / 2 := by
  induction cs using mergeCarried.induct with
  | case1 a b rest ih =>
    rw [mergeCarried, length_cons, length_cons, length_cons, ih]
    omega
  | case2 rest hshort =>
    rw [mergeCarried]
    · match rest, hshort with
      | [], _ => rfl
      | [_], _ => simp
      | a :: b :: rest, hshort => exact absurd rfl (hshort a b rest)
    · exact hshort

theorem trigger_cases (h : Work) (m : Nat) (g : Gate) :
    trigger h m g = 1 ∨ (trigger h m g = -1 ∧ 0 < m) ∨ trigger h m g = 0 := by
  unfold trigger
  dsimp only
  split
  · exact Or.inl rfl
  split
  next hmerge => exact Or.inr (Or.inl ⟨rfl, hmerge.1⟩)
  · exact Or.inr (Or.inr rfl)

theorem length_next (mp : Map) (input : PeriodInput) (g : Gate) :
    (nextCarried (trigger (hTotal mp input g) mp.m g) (carried mp input g)).length =
      2 ^ ((mp.m : Int) + trigger (hTotal mp input g) mp.m g).toNat := by
  have hlength : (carried mp input g).length = 2 ^ mp.m := by simp [carried, Map.k]
  rcases trigger_cases (hTotal mp input g) mp.m g with hstep | ⟨hstep, hm⟩ | hstep
  · rw [hstep]
    show (splitCarried _).length = 2 ^ (mp.m + 1)
    rw [length_split, hlength, Nat.pow_succ]
    omega
  · rw [hstep]
    obtain ⟨l, hl⟩ : ∃ l, mp.m = l + 1 := ⟨mp.m - 1, by omega⟩
    have hexp : ((mp.m : Int) + -1).toNat = l := by omega
    show (mergeCarried _).length = _
    rw [length_merge, hlength, hexp, hl, Nat.pow_succ]
    omega
  · rw [hstep]
    show (carried mp input g).length = 2 ^ ((mp.m : Int) + 0).toNat
    congr 1

theorem Derived.shaped (h : Derived sha mp) : mp.Shaped := by
  induction h with
  | genesis chain => exact ⟨rfl, rfl⟩
  | step input g _ _ =>
    unfold deriveMap
    split
    · exact ⟨rfl, rfl⟩
    · exact ⟨(length_map _).trans (length_next _ _ _), (length_map _).trans (length_next _ _ _)⟩

theorem zip_map_fst_snd (cs : List (Work × Nat)) :
    (cs.map Prod.fst).zip (cs.map Prod.snd) = cs := by
  induction cs with
  | nil => rfl
  | cons c cs ih => simp [ih]

theorem carried_silent (hshaped : mp.Shaped) (hsilent : input.Silent) :
    carried mp input g = mp.decayState.map (aged g) := by
  apply ext_getElem
  · simp [carried, Map.decayState, hshaped.1, hshaped.2]
  intro i hi hi'
  have hlast : i < mp.lastW.length := by
    rw [hshaped.1]
    simpa [carried] using hi
  have hmissed : i < mp.missed.length := by
    rw [hshaped.2]
    simpa [carried] using hi
  have hat : carriedAt mp input g i = aged g (mp.lastW.getD i 0, mp.missed.getD i 0) := by
    unfold carriedAt
    rw [hsilent i]
    rfl
  simp [carried, hat, Map.decayState, hlast, hmissed]

theorem decayState_deriveMap (hlive : g.live) :
    (deriveMap sha mp input g).1.decayState =
      nextCarried (trigger (hTotal mp input g) mp.m g) (carried mp input g) := by
  unfold deriveMap
  rw [if_neg (by simpa using hlive)]
  exact zip_map_fst_snd _

theorem report_hTotal (hlive : g.live) :
    (deriveMap sha mp input g).2.hTotal = hTotal mp input g := by
  unfold deriveMap
  rw [if_neg (by simpa using hlive)]

/-- The map after `j` further periods. -/
def mapAt (sha : List Byte → Bytes32) (g : Gate) (mp : Map) (inputs : Nat → PeriodInput) :
    Nat → Map
  | 0 => mp
  | j + 1 => (deriveMap sha (mapAt sha g mp inputs j) (inputs j) g).1

/-- The effective work the `j + 1`-st of them computes. -/
def hTotalAt (sha : List Byte → Bytes32) (g : Gate) (mp : Map) (inputs : Nat → PeriodInput)
    (j : Nat) : Work :=
  (deriveMap sha (mapAt sha g mp inputs j) (inputs j) g).2.hTotal

theorem Derived.mapAt (h : Derived sha mp) (g : Gate) (inputs : Nat → PeriodInput) (j : Nat) :
    Derived sha (mapAt sha g mp inputs j) := by
  induction j with
  | zero => exact h
  | succ j ih => exact Derived.step (inputs j) g ih

theorem missGrace_ne_zero (hlive : g.live) : g.missGrace ≠ 0 := by
  intro hzero
  simp [Gate.live, Gate.wellFormed, hzero] at hlive

theorem decayState_mapAt (hlive : g.live) (hderived : Derived sha mp)
    (hsilent : ∀ j, (inputs j).Silent) (j : Nat) :
    AgedBy g j (mapAt sha g mp inputs j).decayState ∧
      (workAll mp.decayState < 2 ^ 128 →
        workAll (mapAt sha g mp inputs j).decayState = workAll mp.decayState) := by
  induction j with
  | zero =>
    refine ⟨fun c _ => ?_, fun _ => rfl⟩
    exact zero_le _
  | succ j ih =>
    have hcarried := carried_silent (g := g) (hderived.mapAt g inputs j).shaped (hsilent j)
    rw [mapAt, decayState_deriveMap hlive, hcarried]
    refine ⟨ih.1.aged.next _, fun hroom => ?_⟩
    have hwork := ih.2 hroom
    rw [workAll_next _ (by rw [workAll_aged, hwork]; exact hroom), workAll_aged, hwork]

theorem carried_mapAt (hderived : Derived sha mp) (hsilent : ∀ j, (inputs j).Silent) (j : Nat) :
    carried (mapAt sha g mp inputs j) (inputs j) g =
      (mapAt sha g mp inputs j).decayState.map (aged g) :=
  carried_silent (hderived.mapAt g inputs j).shaped (hsilent j)

theorem hTotalAt_eq_zero (hlive : g.live) (hderived : Derived sha mp)
    (hsilent : ∀ j, (inputs j).Silent) {j : Nat}
    (hj : g.missGrace ≤ j + 1) : hTotalAt sha g mp inputs j = 0 := by
  have haged := (decayState_mapAt hlive hderived hsilent j).1.aged
  rw [← carried_mapAt hderived hsilent j] at haged
  have hzero := haged.countsAll_eq_zero (missGrace_ne_zero hlive) hj
  unfold hTotalAt
  rw [report_hTotal hlive]
  apply Fin.ext
  rw [hTotal_val_mod, hzero]
  rfl

theorem hTotalAt_succ_le (hlive : g.live) (hderived : Derived sha mp)
    (hsilent : ∀ j, (inputs j).Silent) (hroom : workAll mp.decayState < 2 ^ 128) {j : Nat}
    (hkeeps : KeepsAge g (mapAt sha g mp inputs j) (inputs j)) :
    hTotalAt sha g mp inputs (j + 1) ≤ hTotalAt sha g mp inputs j := by
  have hcarried (i : Nat) := carried_mapAt (g := g) hderived hsilent i
  have hrooms (i : Nat) :
      workAll (carried (mapAt sha g mp inputs i) (inputs i) g) < 2 ^ 128 := by
    rw [hcarried, workAll_aged, (decayState_mapAt hlive hderived hsilent i).2 hroom]
    exact hroom
  have hagree : trigger (hTotal (mapAt sha g mp inputs j) (inputs j) g)
      (mapAt sha g mp inputs j).m g < 0 →
      PairsAgree (carried (mapAt sha g mp inputs j) (inputs j) g) := by
    intro hneg
    rcases trigger_cases (hTotal (mapAt sha g mp inputs j) (inputs j) g)
      (mapAt sha g mp inputs j).m g with hstep | ⟨hstep, _⟩ | hstep
    · omega
    · exact hkeeps hstep
    · omega
  have hnext : carried (mapAt sha g mp inputs (j + 1)) (inputs (j + 1)) g =
      (nextCarried (trigger (hTotal (mapAt sha g mp inputs j) (inputs j) g)
        (mapAt sha g mp inputs j).m g)
        (carried (mapAt sha g mp inputs j) (inputs j) g)).map (aged g) := by
    rw [hcarried (j + 1), mapAt, decayState_deriveMap hlive]
  unfold hTotalAt
  rw [report_hTotal hlive, report_hTotal hlive, Fin.le_def, hTotal_val (hrooms (j + 1)),
    hTotal_val (hrooms j), hnext]
  exact countsAll_next_le (missGrace_ne_zero hlive) hagree (hrooms j)

/-- Silent periods fade: the effective work is nothing from the grace on, and it never rises
over a period that joins only siblings that agree. -/
theorem silent_fades (hlive : g.live) (hderived : Derived sha mp)
    (inputs : Nat → PeriodInput) (hsilent : ∀ j, (inputs j).Silent) :
    (∀ j, g.missGrace ≤ j + 1 → hTotalAt sha g mp inputs j = 0) ∧
      (workAll mp.decayState < 2 ^ 128 →
        ∀ j, KeepsAge g (mapAt sha g mp inputs j) (inputs j) →
          hTotalAt sha g mp inputs (j + 1) ≤ hTotalAt sha g mp inputs j) :=
  ⟨fun _ hj => hTotalAt_eq_zero hlive hderived hsilent hj,
    fun hroom _ hkeeps => hTotalAt_succ_le hlive hderived hsilent hroom hkeeps⟩

def unitGate (kMax : Nat) : Gate :=
  { version := 1, hRefPerS := 1, binSeconds := 1, eMapBins := 1, ckptBins := 1, kMax }

def afterSummaries (g : Gate) (rows : List (List (Option Work))) : Map :=
  rows.foldl (fun mp row => (deriveMap (fun _ => 0) mp { workByRb := row } g).1) (genesisMap 0)

theorem derived_afterSummaries (g : Gate) (rows : List (List (Option Work))) :
    Derived (fun _ => 0) (afterSummaries g rows) := by
  unfold afterSummaries
  have hstart : Derived (fun _ => 0) (genesisMap 0) := Derived.genesis 0
  generalize genesisMap 0 = mp at hstart
  induction rows generalizing mp with
  | nil => exact hstart
  | cons row rows ih => exact ih _ (Derived.step _ _ hstart)

def silence : Nat → PeriodInput := fun _ => {}

theorem silent_silence (j : Nat) : (silence j).Silent := by
  intro i
  rfl

def evenSiblings : Map := afterSummaries (unitGate 2) [[some 64], [some 8, some 8]]

theorem silent_fades_evenSiblings :
    hTotalAt (fun _ => 0) (unitGate 2) evenSiblings silence 1 ≤
        hTotalAt (fun _ => 0) (unitGate 2) evenSiblings silence 0 ∧
      hTotalAt (fun _ => 0) (unitGate 2) evenSiblings silence 3 = 0 :=
  have hfades := silent_fades (g := unitGate 2) (by decide)
    (derived_afterSummaries (unitGate 2) [[some 64], [some 8, some 8]]) silence silent_silence
  ⟨hfades.2 (by decide +kernel) 0 (fun hmerge => absurd hmerge (by decide +kernel)),
    hfades.1 3 (by decide)⟩

def staleSibling : Map :=
  afterSummaries (unitGate 2) [[some 64], [some 8, some 0], [none, some 0], [none, some 0]]

def wideSums : Map :=
  afterSummaries (unitGate 4)
    [[some 64], [some 64, some 64], [some (2 ^ 128 - 1), some (2 ^ 128 - 1), some 16]]

/-- A merge at the younger of two ages doubles what is left; a sum past 128 bits wraps. -/
theorem hTotalAt_rises :
    ((unitGate 2).live ∧ Derived (fun _ => 0) staleSibling ∧
        hTotalAt (fun _ => 0) (unitGate 2) staleSibling silence 0 <
          hTotalAt (fun _ => 0) (unitGate 2) staleSibling silence 1) ∧
      (unitGate 4).live ∧ Derived (fun _ => 0) wideSums ∧
        hTotalAt (fun _ => 0) (unitGate 4) wideSums silence 0 <
          hTotalAt (fun _ => 0) (unitGate 4) wideSums silence 1 := by
  refine ⟨⟨by decide, derived_afterSummaries _ _, ?_⟩, by decide, derived_afterSummaries _ _, ?_⟩
  · decide +kernel
  · decide +kernel

end C2Pool.V37.Roundabout
