import C2Pool.Lib.BoundedLoad
import C2Pool.V37.Records
import C2Pool.V37.RoundaboutFade

/-! # Placement

Every stripe goes to the first roundabout with room on its probe sequence, or
to a least loaded one.  The map stores only the stripes off their home, and
reads the others back from their keys.
-/

namespace C2Pool.V37.Roundabout

open BoundedLoad SortedMap Finset

variable {m : Nat} {h : Work} {n : Nat} {ids ids' : List (Bytes32 × Work)} {x : Bytes32 × Work}
  {sha : List Byte → Bytes32} {g : Gate} {mp : Map} {input : PeriodInput} {chain : Nat}

theorem Gate.live_bounds {g : Gate} (hlive : g.live) :
    0 < g.s ∧ g.s ≤ 65536 ∧ g.kMax ≤ 65536 ∧ 0 < g.epsDen ∧ g.epsDen ≤ 65536 ∧
      g.epsNum ≤ 65536 := by
  simp only [Gate.live, Gate.wellFormed, isPow2, Bool.and_eq_true, Bool.or_eq_true,
    Bool.not_eq_true', decide_eq_true_eq] at hlive
  grind

theorem two_pow_le_iff_m_le (h : 2 ^ m ≤ 65536) : m ≤ 16 :=
  (Nat.pow_le_pow_iff_right (by decide : 1 < 2)).mp h

theorem m_next_le {g : Gate} (hlive : g.live) (hm : m ≤ 16) :
    ((m : Int) + trigger h m g).toNat ≤ 16 := by
  obtain ⟨_, _, hmax, _⟩ := Gate.live_bounds hlive
  by_cases hsplit : trigger h m g = 1
  · have hroom : 2 * 2 ^ m ≤ g.kMax := by
      unfold trigger at hsplit
      dsimp only at hsplit
      split at hsplit
      next hcan => exact hcan.1
      · split at hsplit <;> omega
    have := two_pow_le_iff_m_le (m := m + 1) (by rw [Nat.pow_succ]; omega)
    omega
  rcases trigger_cases h m g with hstep | ⟨hstep, _⟩ | hstep
  · exact absurd hstep hsplit
  · omega
  · omega

theorem Derived.m_le {sha : List Byte → Bytes32} {mp : Map} (h : Derived sha mp) : mp.m ≤ 16 := by
  induction h with
  | genesis chain => exact Nat.zero_le 16
  | step input g _ ih =>
    unfold deriveMap
    split
    · exact Nat.zero_le 16
    next hlive => exact m_next_le (by simpa using hlive) ih

theorem rbHome_lt (key : Bytes32) (hm : m ≤ 16) : rbHome key m < 2 ^ m := by
  unfold rbHome
  rw [Nat.div_lt_iff_lt_mul (Nat.two_pow_pos _), ← Nat.pow_add, Nat.add_sub_cancel' (by omega)]
  exact key.isLt

theorem probe_spec (loads : List Work) (cap load : Work) (home : Nat) (ts : List Nat) (best : Nat) :
    ((probe loads cap load home ts best).1 = best ∨
        ∃ t ∈ ts, (probe loads cap load home ts best).1 = home ^^^ t) ∧
      if (probe loads cap load home ts best).2 then
        loads.getD (probe loads cap load home ts best).1 0 + load ≤ cap
      else
        loads.getD (probe loads cap load home ts best).1 0 ≤ loads.getD best 0 ∧
          ∀ t ∈ ts, loads.getD (probe loads cap load home ts best).1 0 ≤
            loads.getD (home ^^^ t) 0 := by
  induction ts generalizing best with
  | nil => simp [probe]
  | cons t ts ih =>
    rw [probe]
    by_cases hfit : loads.getD (home ^^^ t) 0 + load ≤ cap
    · rw [if_pos hfit]
      exact ⟨Or.inr ⟨t, List.mem_cons_self, rfl⟩, by simpa using hfit⟩
    rw [if_neg hfit]
    obtain ⟨hmem, hspec⟩ :=
      ih (if loads.getD (home ^^^ t) 0 < loads.getD best 0 then home ^^^ t else best)
    generalize probe loads cap load home ts
      (if loads.getD (home ^^^ t) 0 < loads.getD best 0 then home ^^^ t else best) = picked
      at hmem hspec
    constructor
    · rcases hmem with hbest | ⟨u, hu, hpicked⟩
      · rw [hbest]
        split
        · exact Or.inr ⟨t, List.mem_cons_self, rfl⟩
        · exact Or.inl rfl
      · exact Or.inr ⟨u, List.mem_cons_of_mem _ hu, hpicked⟩
    split at hspec
    next hfits => rw [if_pos hfits]; exact hspec
    next hfits =>
    rw [if_neg hfits]
    obtain ⟨hle, hall⟩ := hspec
    split at hle
    next hless =>
      refine ⟨hle.trans hless.le, fun u hu => ?_⟩
      rcases List.mem_cons.mp hu with rfl | hu
      · exact hle
      · exact hall u hu
    next hless =>
      refine ⟨hle, fun u hu => ?_⟩
      rcases List.mem_cons.mp hu with rfl | hu
      · exact hle.trans (not_lt.mp hless)
      · exact hall u hu

/-- The roundabout a stripe gets: one with room, or one no other is below. -/
theorem probe_picks (loads : List Work) (cap load : Work) {home m : Nat} (hhome : home < 2 ^ m) :
    (probe loads cap load home (List.range (2 ^ m)) home).1 < 2 ^ m ∧
      (loads.getD (probe loads cap load home (List.range (2 ^ m)) home).1 0 + load ≤ cap ∨
        ∀ r < 2 ^ m, loads.getD (probe loads cap load home (List.range (2 ^ m)) home).1 0 ≤
          loads.getD r 0) := by
  obtain ⟨hmem, hspec⟩ := probe_spec loads cap load home (List.range (2 ^ m)) home
  constructor
  · rcases hmem with hbest | ⟨t, ht, hpicked⟩
    · omega
    · rw [hpicked]
      exact Nat.xor_lt_two_pow hhome (List.mem_range.mp ht)
  split at hspec
  · exact Or.inl hspec
  refine Or.inr fun r hr => ?_
  -- the probe reaches `r` at the distance of `r` from home
  have hreach := hspec.2 (home ^^^ r) (List.mem_range.mpr (Nat.xor_lt_two_pow hhome hr))
  rwa [← Nat.xor_assoc, Nat.xor_self, Nat.zero_xor] at hreach

/-- What the entries of an identity add up to. -/
def workOf (ids : List (Bytes32 × Work)) (id : Bytes32) : Nat :=
  (ids.map fun w => if w.1 = id then w.2.val else 0).sum

def totalWork (ids : List (Bytes32 × Work)) : Nat := (ids.map fun w => w.2.val).sum

def identities (ids : List (Bytes32 × Work)) : Finset Bytes32 := (ids.map Prod.fst).toFinset

def saturated (n : Nat) : Option Work := if n = 0 then none else some (work (min n (2 ^ 128 - 1)))

theorem val_work {n : Nat} (h : n < 2 ^ 128) : (work n).val = n := Nat.mod_eq_of_lt h

theorem saturate_add (hpos : h ≠ 0) :
    some ((saturated n).getD 0 +
        if work (2 ^ 128 - 1) - (saturated n).getD 0 < h then
          work (2 ^ 128 - 1) - (saturated n).getD 0 else h) = saturated (n + h.val) := by
  have hval : h.val ≠ 0 := fun hzero => hpos (Fin.ext hzero)
  have ha : ((saturated n).getD 0).val = min n (2 ^ 128 - 1) := by
    unfold saturated
    split
    next hzero => rw [hzero]; rfl
    next => exact val_work (by omega)
  have hroom : (work (2 ^ 128 - 1) - (saturated n).getD 0).val =
      2 ^ 128 - 1 - min n (2 ^ 128 - 1) := by
    rw [Fin.sub_val_of_le, ha, val_work (by omega)]
    rw [Fin.le_def, ha, val_work (by omega)]
    omega
  have hsum : saturated (n + h.val) = some (work (min (n + h.val) (2 ^ 128 - 1))) := by
    unfold saturated
    rw [if_neg (by omega)]
  rw [hsum, Option.some_inj]
  apply Fin.ext
  rw [Fin.val_add, ha, val_work (by omega)]
  split
  next hlt =>
    rw [Fin.lt_def, hroom] at hlt
    omega
  next hlt =>
    rw [Fin.lt_def, hroom] at hlt
    omega

theorem lookup_aggregate (ids : List (Bytes32 × Work)) (id : Bytes32) :
    (aggregate ids).lookup id = saturated (workOf ids id) := by
  have hgen : ∀ (agg : SortedMap Bytes32 Work) (n : Nat), agg.lookup id = saturated n →
      (ids.foldl (fun agg w =>
        if w.2 = 0 then agg
        else
          let a := (agg.lookup w.1).getD 0
          let room := work (2 ^ 128 - 1) - a
          agg.insert w.1 (a + if room < w.2 then room else w.2)) agg).lookup id =
        saturated (n + workOf ids id) := by
    induction ids with
    | nil => intro agg n h; simpa [workOf] using h
    | cons w ids ih =>
      intro agg n h
      have hsplit : n + workOf (w :: ids) id =
          n + (if w.1 = id then w.2.val else 0) + workOf ids id := by
        simp [workOf, Nat.add_assoc]
      rw [List.foldl_cons, hsplit]
      apply ih
      by_cases hzero : w.2 = 0
      · simp [hzero, h]
      rw [if_neg hzero]
      rw [lookup_insert]
      by_cases hid : w.1 = id
      · subst hid
        rw [if_pos rfl, if_pos rfl, h]
        exact saturate_add hzero
      · rw [if_neg (Ne.symm hid), if_neg hid]
        exact h
  have h := hgen ∅ 0 rfl
  rwa [Nat.zero_add] at h

theorem aggregate_congr (h : ∀ id, workOf ids id = workOf ids' id) :
    aggregate ids = aggregate ids' := by
  apply ext_lookup
  intro id
  rw [lookup_aggregate, lookup_aggregate, h]

theorem workOf_append (ids ids' : List (Bytes32 × Work)) (id : Bytes32) :
    workOf (ids ++ ids') id = workOf ids id + workOf ids' id := by
  simp [workOf]

theorem workOf_cons (w : Bytes32 × Work) (ids : List (Bytes32 × Work)) (id : Bytes32) :
    workOf (w :: ids) id = (if w.1 = id then w.2.val else 0) + workOf ids id := by
  simp [workOf]

theorem workOf_perm (h : ids.Perm ids') (id : Bytes32) :
    workOf ids id = workOf ids' id := (h.map _).sum_eq

theorem workOf_parts (id : Bytes32) (parts : List Work) (x : Bytes32) :
    workOf (parts.map fun h => (id, h)) x =
      if id = x then (parts.map fun h => h.val).sum else 0 := by
  induction parts with
  | nil => simp [workOf]
  | cons h parts ih =>
    rw [List.map_cons, workOf_cons, ih]
    by_cases hx : id = x
    · simp [hx]
    · simp [hx]

theorem workOf_le (ids : List (Bytes32 × Work)) (id : Bytes32) : workOf ids id ≤ totalWork ids := by
  apply List.sum_le_sum
  intro w _
  split
  · exact le_rfl
  · exact Nat.zero_le _

theorem sum_workOf (ids : List (Bytes32 × Work)) :
    ∑ id ∈ identities ids, workOf ids id = totalWork ids := by
  show ∑ id ∈ identities ids, loadAt Prod.fst (fun w => w.2.val) ids id = _
  apply sum_loadAt
  intro w hw
  exact List.mem_toFinset.mpr (List.mem_map_of_mem hw)

theorem nOf_bounds {g : Gate} (hlive : g.live) (h : Work) : 1 ≤ nOf h g ∧ nOf h g ≤ 65536 := by
  obtain ⟨hs, hs', _⟩ := Gate.live_bounds hlive
  unfold nOf
  rw [if_neg (by simpa using hlive)]
  split
  · omega
  split
  · omega
  dsimp only
  generalize hfind : List.find? _ _ = found
  cases found with
  | none => exact ⟨hs, hs'⟩
  | some p =>
    have hmem := List.mem_of_find?_eq_some hfind
    have hsat := List.find?_some hfind
    obtain ⟨e, _, rfl⟩ := List.mem_map.mp hmem
    have hlt : 2 ^ e < g.s := by
      rw [Bool.and_eq_true, decide_eq_true_eq] at hsat
      exact hsat.1
    have hpos := Nat.two_pow_pos e
    show 1 ≤ 2 ^ e ∧ 2 ^ e ≤ 65536
    omega

theorem nOf_zero (g : Gate) : nOf 0 g = 1 := by
  unfold nOf
  split
  · rfl
  · rw [if_pos rfl]

theorem val_stripeLoad (hroom : h.val + 1 < 2 ^ 128) (hn : n ≠ 0) (s : Nat) :
    (stripeLoad h n s).val = h.val / n + if s < h.val % n then 1 else 0 := by
  have hdiv := Nat.div_le_self h.val n
  unfold stripeLoad
  rw [if_neg hn, Fin.val_add, val_work (by omega)]
  split
  · exact Nat.mod_eq_of_lt (by show h.val / n + 1 < _; omega)
  · exact Nat.mod_eq_of_lt (by show h.val / n + 0 < _; omega)

theorem sum_stripeLoad (hroom : h.val + 1 < 2 ^ 128) (hn : n ≠ 0) :
    ∑ s ∈ Finset.range n, (stripeLoad h n s).val = h.val := by
  have hrem : h.val % n < n := Nat.mod_lt _ (Nat.pos_of_ne_zero hn)
  have hones : ∑ s ∈ Finset.range n, (if s < h.val % n then 1 else 0) = h.val % n := by
    have hfilter : (Finset.range n).filter (· < h.val % n) = Finset.range (h.val % n) := by
      ext s
      simp only [mem_filter, mem_range]
      omega
    rw [← card_filter, hfilter, card_range]
  have hshares : ∑ _s ∈ Finset.range n, h.val / n = n * (h.val / n) := by
    rw [sum_const_nat fun _ _ => rfl, card_range]
  calc ∑ s ∈ Finset.range n, (stripeLoad h n s).val
      = ∑ s ∈ Finset.range n, (h.val / n + if s < h.val % n then 1 else 0) :=
        sum_congr rfl fun s _ => val_stripeLoad hroom hn s
    _ = n * (h.val / n) + h.val % n := by
        rw [sum_add_distrib, hones, hshares]
    _ = h.val := Nat.div_add_mod _ _

/-- `⌈(1 + eps) · total / k⌉`. -/
def capOf (total k : Nat) (g : Gate) : Nat :=
  (total * (g.epsDen + g.epsNum) + (k * g.epsDen - 1)) / (k * g.epsDen)

theorem ceil_div (x : Nat) {d : Nat} (hd : 0 < d) :
    (x + (d - 1)) / d = x / d + if x % d = 0 then 0 else 1 := by
  have hlt := Nat.mod_lt x hd
  have hx : x + (d - 1) = d * (x / d) + (x % d + (d - 1)) := by
    rw [← Nat.add_assoc, Nat.div_add_mod]
  rw [hx, Nat.mul_add_div hd]
  split
  next hzero =>
    have hsmall : (d - 1) / d = 0 := Nat.div_eq_of_lt (by omega)
    rw [hzero, Nat.zero_add, hsmall]
  next hpos =>
    have hrest : x % d + (d - 1) = d * 1 + (x % d - 1) := by omega
    have hsmall : (x % d - 1) / d = 0 := Nat.div_eq_of_lt (by omega)
    rw [hrest, Nat.mul_add_div hd, hsmall]

theorem ceil_div_split (t n : Nat) {d : Nat} (hd : 0 < d) :
    (t * n + (d - 1)) / d = t / d * n + t % d * n / d + if t % d * n % d = 0 then 0 else 1 := by
  have hsplit : t * n = d * (t / d * n) + t % d * n := by
    conv_lhs => rw [← Nat.div_add_mod t d]
    ring
  rw [hsplit, Nat.add_assoc, Nat.mul_add_div hd, ceil_div _ hd, Nat.add_assoc]

theorem val_loadCap {g : Gate} (hlive : g.live) {total : Work} (htotal : total.val < 2 ^ 110)
    (hm : m ≤ 16) : (loadCap total (2 ^ m) g).val = capOf total.val (2 ^ m) g := by
  obtain ⟨_, _, _, hpos, hden, hnum⟩ := Gate.live_bounds hlive
  have hk : 2 ^ m ≤ 2 ^ 16 := Nat.pow_le_pow_right (by decide) hm
  have hkpos := Nat.two_pow_pos m
  have hd : 0 < 2 ^ m * g.epsDen := Nat.mul_pos hkpos hpos
  have hd' : 2 ^ m * g.epsDen ≤ 2 ^ 32 := (Nat.mul_le_mul hk hden).trans (by decide)
  unfold loadCap capOf
  rw [ceil_div_split _ _ hd]
  have hdval : (work (2 ^ m * g.epsDen)).val = 2 ^ m * g.epsDen := val_work (by omega)
  have hnval : (work (g.epsDen + g.epsNum)).val = g.epsDen + g.epsNum := val_work (by omega)
  have hn : g.epsDen + g.epsNum ≤ 2 ^ 17 := by omega
  generalize work (2 ^ m * g.epsDen) = den at *
  generalize work (g.epsDen + g.epsNum) = mul at *
  generalize 2 ^ m * g.epsDen = d at *
  generalize g.epsDen + g.epsNum = n at *
  have hwhole : total.val / d * n < 2 ^ 127 :=
    (Nat.mul_le_mul (Nat.div_le_self _ _) hn).trans_lt (by omega)
  have hpart : total.val % d * n ≤ 2 ^ 49 :=
    (Nat.mul_le_mul ((Nat.mod_lt _ hd).le.trans hd') hn).trans (by decide)
  have hrp : (total % den * mul).val = total.val % d * n := by
    rw [Fin.val_mul, Fin.mod_val, hdval, hnval, Nat.mod_eq_of_lt (by omega)]
  have hq : (total / den * mul).val = total.val / d * n := by
    rw [Fin.val_mul, Fin.div_val, hdval, hnval, Nat.mod_eq_of_lt (by omega)]
  have hone : (if total % den * mul % den = 0 then (0 : Work) else 1).val =
      if total.val % d * n % d = 0 then 0 else 1 := by
    have hiff : total % den * mul % den = 0 ↔ total.val % d * n % d = 0 := by
      rw [Fin.ext_iff, Fin.mod_val, hrp, hdval]
      rfl
    simp only [hiff]
    split <;> rfl
  have hdiv := Nat.div_le_self (total.val % d * n) d
  rw [Fin.val_add, Fin.val_add, hq, Fin.div_val, hrp, hdval, hone, Nat.mod_add_mod]
  apply Nat.mod_eq_of_lt
  split <;> omega

/-! ## The placement loop -/

def spot (m : Nat) (overrides : SortedMap Bytes32 Nat) (key : Bytes32) : Nat :=
  (overrides.lookup key).getD (rbHome key m)

/-- The loads of the stripes so far are those the overrides give back, and are bounded. -/
structure Placed (m : Nat) (cap : Work) (total largest : Nat) (done : List (Bytes32 × Work))
    (p : Placing) : Prop where
  length : p.loads.length = 2 ^ m
  keys : ∀ key, p.overrides.lookup key ≠ none → key ∈ done.map Prod.fst
  inside : ∀ x ∈ done, spot m p.overrides x.1 < 2 ^ m
  loads : ∀ r < 2 ^ m, (p.loads.getD r 0).val =
    loadAt (fun x => spot m p.overrides x.1) (fun x => x.2.val) done r
  bound : ∀ r < 2 ^ m, (p.loads.getD r 0).val ≤ max cap.val (total / 2 ^ m + largest)

section Loop

variable {total largest : Nat} {cap : Work} {done : List (Bytes32 × Work)} {p : Placing}

theorem placed_start {m : Nat} :
    Placed m cap total largest []
      { loads := List.replicate (2 ^ m) 0, loadHome := List.replicate (2 ^ m) 0 } where
  length := by simp
  keys := by simp
  inside := by simp
  loads := by
    intro r hr
    simp [hr, loadAt]
  bound := by
    intro r hr
    simp [hr]

theorem Placed.sum_loads {m : Nat} (h : Placed m cap total largest done p) :
    ∑ r ∈ Finset.range (2 ^ m), (p.loads.getD r 0).val = (done.map fun x => x.2.val).sum := by
  have hinside : ∀ x ∈ done, spot m p.overrides x.1 ∈ Finset.range (2 ^ m) := fun x hx =>
    mem_range.mpr (h.inside x hx)
  rw [← sum_loadAt hinside]
  apply sum_congr rfl
  intro r hr
  exact h.loads r (mem_range.mp hr)

theorem spot_place {m : Nat} (h : Placed m cap total largest done p)
    (hfresh : x.1 ∉ done.map Prod.fst) (key : Bytes32) :
    spot m (place m cap p x).overrides key =
      if key = x.1 then (probe p.loads cap x.2 (rbHome x.1 m) (List.range (2 ^ m)) (rbHome x.1 m)).1
      else spot m p.overrides key := by
  have hnone : p.overrides.lookup x.1 = none := by
    by_contra hsome
    exact hfresh (h.keys x.1 hsome)
  unfold place spot
  dsimp only
  generalize (probe p.loads cap x.2 (rbHome x.1 m) (List.range (2 ^ m)) (rbHome x.1 m)).1 = pick
  by_cases hhome : pick = rbHome x.1 m
  · rw [if_pos hhome]
    by_cases hkey : key = x.1
    · rw [if_pos hkey, hkey, hnone, hhome]
      rfl
    · rw [if_neg hkey]
  rw [if_neg hhome, lookup_insert]
  by_cases hkey : key = x.1
  · rw [if_pos hkey, if_pos hkey]
    rfl
  · rw [if_neg hkey, if_neg hkey]

theorem Placed.place {m : Nat} (h : Placed m cap total largest done p) {x : Bytes32 × Work}
    (hm : m ≤ 16) (hfresh : x.1 ∉ done.map Prod.fst) (hlargest : x.2.val ≤ largest)
    (htotal : (done.map fun y => y.2.val).sum + x.2.val ≤ total) (hroom : total < 2 ^ 128) :
    Placed m cap total largest (done ++ [x]) (place m cap p x) := by
  have hspot := spot_place h hfresh
  obtain ⟨hinside, hfit⟩ := probe_picks p.loads cap x.2 (rbHome_lt x.1 hm)
  have hloads : (Roundabout.place m cap p x).loads = addLoad p.loads
      (probe p.loads cap x.2 (rbHome x.1 m) (List.range (2 ^ m)) (rbHome x.1 m)).1 x.2 := rfl
  have hkeys : ∀ key, (Roundabout.place m cap p x).overrides.lookup key ≠ none →
      key = x.1 ∨ p.overrides.lookup key ≠ none := by
    intro key hkey
    by_cases hx : key = x.1
    · exact Or.inl hx
    refine Or.inr fun hnone => hkey ?_
    unfold Roundabout.place
    dsimp only
    split
    · exact hnone
    · rw [lookup_insert, if_neg hx]
      exact hnone
  generalize (probe p.loads cap x.2 (rbHome x.1 m) (List.range (2 ^ m)) (rbHome x.1 m)).1 = pick
    at hspot hinside hfit hloads
  have hdone : ∀ y ∈ done, spot m (Roundabout.place m cap p x).overrides y.1 =
      spot m p.overrides y.1 := by
    intro y hy
    rw [hspot, if_neg]
    rintro hyx
    exact hfresh (hyx ▸ List.mem_map_of_mem hy)
  have hsum : ∑ r ∈ Finset.range (2 ^ m), (p.loads.getD r 0).val ≤ total := by
    rw [h.sum_loads]
    omega
  have hone : (p.loads.getD pick 0).val ≤ (done.map fun y => y.2.val).sum := by
    rw [← h.sum_loads]
    exact single_le_sum (f := fun r => (p.loads.getD r 0).val) (fun r _ => Nat.zero_le _)
      (mem_range.mpr hinside)
  have hadd : (p.loads.getD pick 0 + x.2).val = (p.loads.getD pick 0).val + x.2.val := by
    rw [Fin.val_add]
    exact Nat.mod_eq_of_lt (by omega)
  have hget (r : Nat) : ((Roundabout.place m cap p x).loads.getD r 0).val =
      (p.loads.getD r 0).val + if pick = r then x.2.val else 0 := by
    rw [hloads]
    unfold addLoad
    by_cases hr : pick = r
    · rw [if_pos hr, ← hr, ← hadd, List.getD_eq_getElem?_getD, List.getElem?_set_self]
      · rfl
      · rw [h.length]
        exact hinside
    · rw [if_neg hr, List.getD_eq_getElem?_getD, List.getElem?_set_ne hr,
        ← List.getD_eq_getElem?_getD, Nat.add_zero]
  constructor
  · rw [hloads, addLoad, List.length_set, h.length]
  · intro key hkey
    rw [List.map_append, List.mem_append]
    rcases hkeys key hkey with rfl | hold
    · exact Or.inr List.mem_cons_self
    · exact Or.inl (h.keys key hold)
  · intro y hy
    rcases List.mem_append.mp hy with hy | hy
    · rw [hdone y hy]
      exact h.inside y hy
    · rw [List.mem_singleton.mp hy, hspot, if_pos rfl]
      exact hinside
  · intro r hr
    rw [hget, h.loads r hr, loadAt_concat, hspot, if_pos rfl]
    rw [loadAt_congr (fun y hy => (hdone y hy).symm)]
  · intro r hr
    rw [hget]
    by_cases hpick : pick = r
    · rw [if_pos hpick, ← hpick]
      have hrule := place_le (fun r => (p.loads.getD r 0).val) cap.val
        (mem_range.mpr hinside) hlargest hsum
      rw [card_range] at hrule
      apply hrule
      rcases hfit with hfit | hleast
      · rw [Fin.le_def, hadd] at hfit
        exact Or.inl hfit
      · exact Or.inr fun r' hr' => hleast r' (mem_range.mp hr')
    · rw [if_neg hpick, Nat.add_zero]
      exact h.bound r hr

theorem Placed.foldl {m : Nat} {xs : List (Bytes32 × Work)} (h : Placed m cap total largest done p)
    (hm : m ≤ 16) (hnodup : ((done ++ xs).map Prod.fst).Nodup)
    (hlargest : ∀ x ∈ xs, x.2.val ≤ largest)
    (htotal : ((done ++ xs).map fun y => y.2.val).sum ≤ total) (hroom : total < 2 ^ 128) :
    Placed m cap total largest (done ++ xs) (xs.foldl (Roundabout.place m cap) p) := by
  induction xs generalizing done p with
  | nil => simpa using h
  | cons x xs ih =>
    have hsplit : done ++ x :: xs = done ++ [x] ++ xs := by simp
    rw [hsplit] at hnodup htotal ⊢
    apply ih _ hnodup (fun y hy => hlargest y (List.mem_cons_of_mem _ hy)) htotal
    apply h.place hm _ (hlargest x List.mem_cons_self) _ hroom
    · rw [List.map_append, List.map_append, List.append_assoc, List.nodup_append] at hnodup
      intro hmem
      exact hnodup.2.2 x.1 hmem x.1 (by simp) rfl
    rw [List.map_append, List.map_append, List.sum_append, List.sum_append] at htotal
    simp only [List.map_cons, List.map_nil, List.sum_cons, List.sum_nil] at htotal
    omega

end Loop

/-! ## The stripes of a period -/

/-- No two stripes of the period's identities share their key. -/
def KeysDistinct (sha : List Byte → Bytes32) (chain : Nat) (ids : List (Bytes32 × Work)) : Prop :=
  ∀ id ∈ identities ids, ∀ id' ∈ identities ids, ∀ s < 65536, ∀ s' < 65536,
    stripeKey sha chain id s = stripeKey sha chain id' s' → id = id' ∧ s = s'

theorem sum_flatMap {α β : Type} (l : List α) (f : α → List β) (w : β → Nat) :
    ((l.flatMap f).map w).sum = (l.map fun a => ((f a).map w).sum).sum := by
  induction l with
  | nil => rfl
  | cons a l ih => simp [ih]

theorem mem_identities_of_workOf {id : Bytes32} (h : workOf ids id ≠ 0) : id ∈ identities ids := by
  by_contra hnot
  apply h
  apply List.sum_eq_zero
  intro n hn
  obtain ⟨w, hw, rfl⟩ := List.mem_map.mp hn
  rw [if_neg]
  intro hid
  exact hnot (List.mem_toFinset.mpr (hid ▸ List.mem_map_of_mem hw))

theorem lookup_aggregate_of_lt (hsum : totalWork ids < 2 ^ 110) (id : Bytes32) :
    (aggregate ids).lookup id =
      if workOf ids id = 0 then none else some (work (workOf ids id)) := by
  have hle := workOf_le ids id
  rw [lookup_aggregate, saturated, min_eq_left (by omega)]

theorem mem_aggregate (hsum : totalWork ids < 2 ^ 110) {e : Bytes32 × Work}
    (he : e ∈ (aggregate ids).entries) : e.1 ∈ identities ids ∧ e.2 = work (workOf ids e.1) := by
  have hfound := mem_entries_iff.mp (show (e.1, e.2) ∈ _ from he)
  rw [lookup_aggregate_of_lt hsum] at hfound
  split at hfound
  · cases hfound
  next hne => exact ⟨mem_identities_of_workOf hne, (Option.some_inj.mp hfound).symm⟩

theorem sum_aggregate (hsum : totalWork ids < 2 ^ 110)
    (F : Bytes32 → Work → Nat) (hzero : ∀ id, F id 0 = 0) :
    ((aggregate ids).entries.map fun e => F e.1 e.2).sum =
      ∑ id ∈ identities ids, F id (work (workOf ids id)) := by
  have hnodup : ((aggregate ids).entries.map Prod.fst).Nodup := by
    rw [List.nodup_iff_pairwise_ne, List.pairwise_map]
    exact (aggregate ids).sorted.imp fun hlt => hlt.ne
  calc ((aggregate ids).entries.map fun e => F e.1 e.2).sum
      = (((aggregate ids).entries.map Prod.fst).map fun id => F id (work (workOf ids id))).sum := by
        rw [List.map_map]
        congr 1
        apply List.map_congr_left
        intro e he
        rw [(mem_aggregate hsum he).2]
        rfl
    _ = ∑ id ∈ ((aggregate ids).entries.map Prod.fst).toFinset, F id (work (workOf ids id)) :=
        (List.sum_toFinset _ hnodup).symm
    _ = ∑ id ∈ identities ids, F id (work (workOf ids id)) := by
        apply sum_subset
        · intro id hid
          obtain ⟨e, he, rfl⟩ := List.mem_map.mp (List.mem_toFinset.mp hid)
          exact (mem_aggregate hsum he).1
        intro id _ hid
        have hidle : workOf ids id = 0 := by
          by_contra hne
          apply hid
          rw [List.mem_toFinset]
          have hfound := lookup_aggregate_of_lt hsum id
          rw [if_neg hne] at hfound
          exact List.mem_map_of_mem (mem_entries_iff.mpr hfound)
        rw [hidle]
        exact hzero id

theorem sum_stripesOf (hsum : totalWork input.ids < 2 ^ 110) (chain : Nat)
    (f : Bytes32 → Work → Nat) (hzero : ∀ key, f key 0 = 0) :
    ((stripesOf sha chain g (aggregate input.ids)).map fun x => f x.1 x.2).sum =
      ∑ id ∈ identities input.ids, ∑ s ∈ Finset.range (nOf (work (workOf input.ids id)) g),
        f (stripeKey sha chain id s)
          (stripeLoad (work (workOf input.ids id)) (nOf (work (workOf input.ids id)) g) s) := by
  rw [← sum_aggregate hsum (fun id h => ∑ s ∈ Finset.range (nOf h g),
    f (stripeKey sha chain id s) (stripeLoad h (nOf h g) s))]
  · unfold stripesOf
    rw [((List.perm_insertionSort _ _).map _).sum_eq, sum_flatMap]
    congr 1
    apply List.map_congr_left
    intro e _
    rw [List.map_map]
    rfl
  intro id
  apply sum_eq_zero
  intro s hs
  rw [nOf_zero, mem_range] at hs
  rw [nOf_zero, show s = 0 by omega]
  exact hzero _

theorem nodup_stripesOf (hlive : g.live) (hsum : totalWork input.ids < 2 ^ 110)
    (hkeys : KeysDistinct sha chain input.ids) :
    ((stripesOf sha chain g (aggregate input.ids)).map Prod.fst).Nodup := by
  have hmem : ∀ e ∈ (aggregate input.ids).entries, e.1 ∈ identities input.ids :=
    fun e he => (mem_aggregate hsum he).1
  unfold stripesOf
  rw [((List.perm_insertionSort _ _).map _).nodup_iff, List.map_flatMap, List.nodup_flatMap]
  constructor
  · intro e he
    rw [List.map_map]
    apply List.Nodup.map_on _ List.nodup_range
    intro s hs s' hs' heq
    have hn := (nOf_bounds hlive e.2).2
    rw [List.mem_range] at hs hs'
    exact (hkeys e.1 (hmem e he) e.1 (hmem e he) s (by omega) s' (by omega) heq).2
  apply List.Pairwise.imp_of_mem _ (aggregate input.ids).sorted
  intro e e' he he' hlt key hkey hkey'
  dsimp only at hkey hkey'
  rw [List.map_map, List.mem_map] at hkey hkey'
  obtain ⟨s, hs, rfl⟩ := hkey
  obtain ⟨s', hs', heq⟩ := hkey'
  have hn := (nOf_bounds hlive e.2).2
  have hn' := (nOf_bounds hlive e'.2).2
  rw [List.mem_range] at hs hs'
  have hid := (hkeys e'.1 (hmem e' he') e.1 (hmem e he) s' (by omega) s (by omega) heq).1
  exact hlt.ne hid.symm

theorem mem_stripesOf (hsum : totalWork input.ids < 2 ^ 110)
    (hx : x ∈ stripesOf sha chain g (aggregate input.ids)) :
    ∃ id ∈ identities input.ids, ∃ s < nOf (work (workOf input.ids id)) g,
      x.2 = stripeLoad (work (workOf input.ids id)) (nOf (work (workOf input.ids id)) g) s := by
  unfold stripesOf at hx
  rw [(List.perm_insertionSort _ _).mem_iff, List.mem_flatMap] at hx
  obtain ⟨e, he, hx⟩ := hx
  obtain ⟨s, hs, rfl⟩ := List.mem_map.mp hx
  obtain ⟨hid, hwork⟩ := mem_aggregate hsum he
  rw [hwork, List.mem_range] at hs
  exact ⟨e.1, hid, s, hs, by rw [hwork]⟩

theorem sum_stripes (hlive : g.live) (hsum : totalWork input.ids < 2 ^ 110) (chain : Nat) :
    ((stripesOf sha chain g (aggregate input.ids)).map fun x => x.2.val).sum =
      totalWork input.ids := by
  rw [sum_stripesOf hsum chain (fun _ h => h.val) fun _ => rfl, ← sum_workOf]
  apply sum_congr rfl
  intro id _
  have hle := workOf_le input.ids id
  have hval : (work (workOf input.ids id)).val = workOf input.ids id := val_work (by omega)
  have hn := (nOf_bounds hlive (work (workOf input.ids id))).1
  rw [sum_stripeLoad (by omega) (by omega), hval]

/-! ## The derived map -/

def loadOf (mp : Map) (ids : List (Bytes32 × Work)) (id : Bytes32) (s : Nat) : Nat :=
  (stripeLoad (work (workOf ids id)) (mp.nOf id) s).val

/-- What the stripes a map assigns to `r` weigh together. -/
def assignedLoad (sha : List Byte → Bytes32) (mp : Map) (ids : List (Bytes32 × Work))
    (r : Nat) : Nat :=
  ∑ id ∈ identities ids, ∑ s ∈ Finset.range (mp.nOf id),
    if mp.assign sha id s = r then loadOf mp ids id s else 0

def largestLoad (mp : Map) (ids : List (Bytes32 × Work)) : Nat :=
  (identities ids).sup fun id => (Finset.range (mp.nOf id)).sup (loadOf mp ids id)

def placing (sha : List Byte → Bytes32) (prev : Map) (input : PeriodInput) (g : Gate)
    (m : Nat) : Placing :=
  (stripesOf sha prev.chain g (aggregate input.ids)).foldl
    (place m (loadCap
      ((stripesOf sha prev.chain g (aggregate input.ids)).map Prod.snd).sum (2 ^ m) g))
    { loads := List.replicate (2 ^ m) 0, loadHome := List.replicate (2 ^ m) 0 }

theorem overrides_deriveMap (hlive : g.live) :
    (deriveMap sha mp input g).1.overrides =
      (placing sha mp input g (deriveMap sha mp input g).1.m).overrides := by
  unfold deriveMap
  rw [if_neg (by simpa using hlive)]
  rfl

theorem loadFinal_deriveMap (hlive : g.live) :
    (deriveMap sha mp input g).2.loadFinal =
      (placing sha mp input g (deriveMap sha mp input g).1.m).loads := by
  unfold deriveMap
  rw [if_neg (by simpa using hlive)]
  rfl

theorem chain_deriveMap (hlive : g.live) : (deriveMap sha mp input g).1.chain = mp.chain := by
  unfold deriveMap
  rw [if_neg (by simpa using hlive)]

theorem nOf_deriveMap (hlive : g.live) (hsum : totalWork input.ids < 2 ^ 110) (id : Bytes32) :
    (deriveMap sha mp input g).1.nOf id = nOf (work (workOf input.ids id)) g := by
  have hn : (deriveMap sha mp input g).1.n =
      (aggregate input.ids).filterMap fun _ h => if 1 < nOf h g then some (nOf h g) else none := by
    unfold deriveMap
    rw [if_neg (by simpa using hlive)]
  unfold Map.nOf
  rw [hn, lookup_filterMap, lookup_aggregate_of_lt hsum]
  split
  next hzero => rw [hzero]; exact (nOf_zero g).symm
  next =>
    have hbounds := nOf_bounds hlive (work (workOf input.ids id))
    rw [Option.bind_some]
    split
    · rfl
    · show 1 = _
      omega

theorem deriveMap_congr (h : ∀ id, workOf ids id = workOf input.ids id) :
    deriveMap sha mp { input with ids := ids } g = deriveMap sha mp input g := by
  have hagg : aggregate ids = aggregate input.ids := aggregate_congr h
  unfold deriveMap
  rw [show aggregate ({ input with ids := ids } : PeriodInput).ids = aggregate input.ids from hagg]
  rfl

theorem placed_deriveMap (hlive : g.live) (hderived : Derived sha mp)
    (hkeys : KeysDistinct sha mp.chain input.ids) (hsum : totalWork input.ids < 2 ^ 110) :
    Placed (deriveMap sha mp input g).1.m
      (loadCap ((stripesOf sha mp.chain g (aggregate input.ids)).map Prod.snd).sum
        (2 ^ (deriveMap sha mp input g).1.m) g)
      (totalWork input.ids) (largestLoad (deriveMap sha mp input g).1 input.ids)
      (stripesOf sha mp.chain g (aggregate input.ids))
      (placing sha mp input g (deriveMap sha mp input g).1.m) := by
  have htotal : ((stripesOf sha mp.chain g (aggregate input.ids)).map fun x => x.2.val).sum =
      totalWork input.ids := sum_stripes hlive hsum mp.chain
  have hn (id : Bytes32) : (deriveMap sha mp input g).1.nOf id =
      nOf (work (workOf input.ids id)) g := nOf_deriveMap hlive hsum id
  have hm := (Derived.step input g hderived).m_le
  refine Placed.foldl placed_start hm (nodup_stripesOf hlive hsum hkeys) ?_ htotal.le (by omega)
  intro x hx
  obtain ⟨id, hid, s, hs, hload⟩ := mem_stripesOf hsum hx
  rw [← hn] at hs hload
  rw [hload]
  refine le_trans ?_ (le_sup (f := fun id => (Finset.range _).sup (loadOf _ _ id)) hid)
  exact le_sup (f := loadOf (deriveMap sha mp input g).1 input.ids id) (mem_range.mpr hs)

theorem val_totalLoad (hlive : g.live) (hsum : totalWork input.ids < 2 ^ 110) (chain : Nat) :
    ((stripesOf sha chain g (aggregate input.ids)).map Prod.snd).sum.val = totalWork input.ids := by
  rw [val_sum, List.map_map]
  show ((stripesOf sha chain g (aggregate input.ids)).map fun x => x.2.val).sum % _ = _
  rw [sum_stripes hlive hsum]
  exact Nat.mod_eq_of_lt (by omega)

theorem loadFinal_eq (hlive : g.live) (hderived : Derived sha mp)
    (hkeys : KeysDistinct sha mp.chain input.ids) (hsum : totalWork input.ids < 2 ^ 110)
    {r : Nat} (hr : r < (deriveMap sha mp input g).1.k) :
    ((deriveMap sha mp input g).2.loadFinal.getD r 0).val =
      assignedLoad sha (deriveMap sha mp input g).1 input.ids r := by
  have hplaced := placed_deriveMap hlive hderived hkeys hsum
  rw [loadFinal_deriveMap hlive, hplaced.loads r hr]
  unfold loadAt assignedLoad loadOf Map.assign Map.assignKey
  rw [chain_deriveMap hlive, overrides_deriveMap hlive]
  simp only [nOf_deriveMap hlive hsum]
  refine (sum_stripesOf hsum mp.chain (fun key h => if spot _ _ key = r then h.val else 0) ?_)
  intro key
  split <;> rfl

/-- The loads of the derived map: the stripes its assignment sends to each roundabout, all the
work, and none far above the average; and only the work of each identity decides the map. -/
theorem placement_balanced (hlive : g.live) (hderived : Derived sha mp)
    (hkeys : KeysDistinct sha mp.chain input.ids) (hsum : totalWork input.ids < 2 ^ 110) :
    let mp' := (deriveMap sha mp input g).1
    let loadFinal := (deriveMap sha mp input g).2.loadFinal
    (loadFinal.length = mp'.k ∧
        ∀ r < mp'.k, (loadFinal.getD r 0).val = assignedLoad sha mp' input.ids r) ∧
      ∑ r ∈ Finset.range mp'.k, (loadFinal.getD r 0).val = totalWork input.ids ∧
      (∀ r < mp'.k, (loadFinal.getD r 0).val ≤
        max (capOf (totalWork input.ids) mp'.k g)
          (totalWork input.ids / mp'.k + largestLoad mp' input.ids)) ∧
      (∀ ids, ids.Perm input.ids → (deriveMap sha mp { input with ids := ids } g).1 = mp') ∧
      ∀ (before after : List (Bytes32 × Work)) (id : Bytes32) (h : Work) (parts : List Work),
        input.ids = before ++ (id, h) :: after → (parts.map fun w => w.val).sum = h.val →
        (deriveMap sha mp { input with ids := before ++ parts.map (id, ·) ++ after } g).1 =
          mp' := by
  intro mp' loadFinal
  have hplaced := placed_deriveMap hlive hderived hkeys hsum
  have hfinal : loadFinal = (placing sha mp input g mp'.m).loads := loadFinal_deriveMap hlive
  have hm : mp'.m ≤ 16 := (Derived.step input g hderived).m_le
  have hlength : loadFinal.length = mp'.k := by
    rw [hfinal]
    exact hplaced.length
  refine ⟨⟨hlength, fun r hr => loadFinal_eq hlive hderived hkeys hsum hr⟩, ?_, ?_, ?_, ?_⟩
  · rw [hfinal]
    exact hplaced.sum_loads.trans (sum_stripes hlive hsum mp.chain)
  · intro r hr
    have hbound := hplaced.bound r hr
    have htotal : ((stripesOf sha mp.chain g (aggregate input.ids)).map Prod.snd).sum.val =
        totalWork input.ids := val_totalLoad hlive hsum mp.chain
    rw [val_loadCap hlive (by omega) hm, htotal] at hbound
    rw [hfinal]
    exact hbound
  · intro ids hperm
    rw [deriveMap_congr (workOf_perm hperm)]
  · intro before after id h parts hids hparts
    rw [deriveMap_congr]
    intro x
    rw [hids, workOf_append, workOf_append, workOf_append, workOf_cons, workOf_parts, hparts]
    dsimp only
    omega

def stripeHash (bs : List Byte) : Bytes32 := Fin.ofNat (2 ^ 256) (valLE (bs.drop 41))

theorem val_stripeKey_stripeHash (chain : Nat) (id : Bytes32) {s : Nat} (hs : s < 65536) :
    (stripeKey stripeHash chain id s).val = s := by
  have hlength : (putTag "V37RB" ++ bytesLE 4 chain ++ id.toBytes).length = 41 := by
    rfl
  unfold stripeKey stripeHash
  rw [List.drop_left' hlength, valLE_bytesLE (by omega)]
  exact Nat.mod_eq_of_lt (by omega)

def twoEntries : PeriodInput := { workByRb := [some 64], ids := [(7, 5), (7, 3)] }

theorem keysDistinct_twoEntries : KeysDistinct stripeHash (genesisMap 0).chain twoEntries.ids := by
  have hid : ∀ id ∈ identities twoEntries.ids, id = 7 := by
    simp [identities, twoEntries]
  intro id hmem id' hmem' s hs s' hs' heq
  have hval := congrArg Fin.val heq
  rw [val_stripeKey_stripeHash _ _ hs, val_stripeKey_stripeHash _ _ hs'] at hval
  exact ⟨(hid id hmem).trans (hid id' hmem').symm, hval⟩

theorem totalWork_twoEntries : totalWork twoEntries.ids = 8 := by decide

theorem placement_balanced_twoEntries :
    let mp' := (deriveMap stripeHash (genesisMap 0) twoEntries (unitGate 2)).1
    let loadFinal := (deriveMap stripeHash (genesisMap 0) twoEntries (unitGate 2)).2.loadFinal
    ∑ r ∈ Finset.range mp'.k, (loadFinal.getD r 0).val = 8 ∧
      ∀ r < mp'.k, (loadFinal.getD r 0).val ≤
        max (capOf 8 mp'.k (unitGate 2)) (8 / mp'.k + largestLoad mp' twoEntries.ids) := by
  have hsum : totalWork twoEntries.ids < 2 ^ 110 := by rw [totalWork_twoEntries]; decide
  have hbalanced := @placement_balanced stripeHash (unitGate 2) (genesisMap 0) twoEntries
    (by decide) (Derived.genesis 0) keysDistinct_twoEntries hsum
  rw [totalWork_twoEntries] at hbalanced
  exact ⟨hbalanced.2.1, hbalanced.2.2.1⟩

end C2Pool.V37.Roundabout
