import C2Pool.Lib.Run
import C2Pool.Lib.SortedMap
import C2Pool.V37.Merkle

/-! # The roundabout map

`rb_gate.hpp`, `rb_stripe.hpp` and `rb_map.hpp`: the map of a period is derived from the map before
it and the finalized summary of the period that closed. Work is 128 bits wide and wraps; the
products of the trigger are 256 bits wide and those of `n_of` fit in 128, so both are plain products
here.
-/

namespace C2Pool.V37.Roundabout

/-- `u128`. -/
abbrev Work := Fin (2 ^ 128)

/-- A number cut down to 128 bits. -/
def work (n : Nat) : Work := Fin.ofNat (2 ^ 128) n

/-- `RoundaboutGate`. -/
structure Gate where
  version : Nat := 0
  hRefPerS : Nat := 0
  binSeconds : Nat := 0
  s : Nat := 256
  epsNum : Nat := 1
  epsDen : Nat := 4
  deltaNum : Nat := 1
  deltaDen : Nat := 8
  eMapBins : Nat := 0
  ckptBins : Nat := 0
  kMax : Nat := 1
  missGrace : Nat := 4
deriving DecidableEq

/-- `is_pow2_u64`. -/
def isPow2 (x : Nat) : Bool := x ≠ 0 && x &&& (x - 1) = 0

namespace Gate

def enabled (g : Gate) : Bool := g.version ≠ 0 && 1 < g.kMax

/-- `RoundaboutGate::well_formed`.  The reference work is 64 bits wide. -/
def wellFormed (g : Gate) : Bool :=
  !g.enabled ||
    (isPow2 g.s && g.s ≤ 65536 && isPow2 g.kMax && g.kMax ≤ g.s &&
      g.epsDen ≠ 0 && g.deltaDen ≠ 0 &&
      g.epsDen ≤ 65536 && g.epsNum ≤ 65536 && g.deltaDen ≤ 65536 && g.deltaNum < g.deltaDen &&
      g.hRefPerS ≠ 0 && g.hRefPerS < 2 ^ 64 && g.binSeconds ≠ 0 && g.binSeconds ≤ 2 ^ 20 &&
      g.eMapBins ≠ 0 && g.eMapBins ≤ 2 ^ 24 && g.ckptBins ≠ 0 && g.ckptBins ≤ g.eMapBins &&
      g.missGrace ≠ 0 && g.missGrace ≤ 63)

def live (g : Gate) : Bool := g.enabled && g.wellFormed

def refWorkPerPeriod (g : Gate) : Nat := g.hRefPerS * (g.eMapBins * g.binSeconds)

end Gate

def stripeKey (sha : List Byte → Bytes32) (chain : Nat) (id : Bytes32) (s : Nat) : Bytes32 :=
  sha (putTag "V37RB" ++ bytesLE 4 chain ++ id.toBytes ++ bytesLE 2 s)

/-- `rb_home`: the top `m` bits. -/
def rbHome (key : Bytes32) (m : Nat) : Nat := key.val / 2 ^ (256 - m)

/-- `n_of`: the smallest power of two whose stripes carry the work, at most `S`. -/
def nOf (h : Work) (g : Gate) : Nat :=
  if !g.live then 1
  else if h = 0 then 1
  else if (2 ^ 128 - 1) / g.s < h.val then g.s
  else
    let need := h.val * g.s
    (((List.range 17).map (2 ^ ·)).find? fun p => p < g.s && need ≤ p * g.refWorkPerPeriod).getD g.s

def stripeLoad (h : Work) (n s : Nat) : Work :=
  if n = 0 then 0
  else work (h.val / n) + (if s < h.val % n then 1 else 0)

structure PeriodInput where
  workByRb : List (Option Work) := []
  ids : List (Bytes32 × Work) := []

structure Map where
  chain : Nat
  epoch : Nat
  m : Nat
  n : SortedMap Bytes32 Nat := ∅
  overrides : SortedMap Bytes32 Nat := ∅
  lastW : List Work
  missed : List Nat

namespace Map

def k (mp : Map) : Nat := 2 ^ mp.m

def nOf (mp : Map) (id : Bytes32) : Nat := (mp.n.lookup id).getD 1

def assignKey (mp : Map) (skey : Bytes32) : Nat :=
  (mp.overrides.lookup skey).getD (rbHome skey mp.m)

def assign (sha : List Byte → Bytes32) (mp : Map) (id : Bytes32) (s : Nat) : Nat :=
  mp.assignKey (stripeKey sha mp.chain id s)

end Map

def genesisMap (chain : Nat) : Map :=
  { chain, epoch := 0, m := 0, lastW := [0], missed := [0] }

structure DeriveReport where
  hTotal : Work := 0
  step : Int := 0
  totalLoad : Work := 0
  cap : Work := 0
  loadHome : List Work := []
  loadFinal : List Work := []
  stripes : Nat := 0
  overridden : Nat := 0
  unfit : Nat := 0

def loadCap (total : Work) (k : Nat) (g : Gate) : Work :=
  let den := work (k * g.epsDen)
  let mul := work (g.epsDen + g.epsNum)
  let rp := total % den * mul
  total / den * mul + rp / den + (if rp % den = 0 then 0 else 1)

def trigger (hTotal : Work) (m : Nat) (g : Gate) : Int :=
  let k := 2 ^ m
  let lhs := hTotal.val * g.deltaDen
  let splitRhs := g.refWorkPerPeriod * (2 * k) * (g.deltaDen + g.deltaNum)
  let mergeRhs := g.refWorkPerPeriod * k * (g.deltaDen - g.deltaNum)
  if 2 * k ≤ g.kMax ∧ ¬ lhs < splitRhs then 1
  else if 0 < m ∧ lhs < mergeRhs then -1
  else 0

def decayedW (last : Work) (missed : Nat) (g : Gate) : Work :=
  if missed = 0 then last
  else if g.missGrace ≤ missed then 0
  else work (last.val / 2 ^ missed)

def carriedAt (prev : Map) (input : PeriodInput) (g : Gate) (i : Nat) : Work × Nat :=
  match input.workByRb.getD i none with
  | some w => (w, 0)
  | none => (prev.lastW.getD i 0, min (prev.missed.getD i 0 + 1) g.missGrace)

def carried (prev : Map) (input : PeriodInput) (g : Gate) : List (Work × Nat) :=
  (List.range prev.k).map (carriedAt prev input g)

def hTotal (prev : Map) (input : PeriodInput) (g : Gate) : Work :=
  ((carried prev input g).map fun c => decayedW c.1 c.2 g).sum

def splitCarried (cs : List (Work × Nat)) : List (Work × Nat) :=
  cs.flatMap fun c => [(c.1 - c.1 / 2, c.2), (c.1 / 2, c.2)]

def mergeCarried : List (Work × Nat) → List (Work × Nat)
  | a :: b :: rest => (a.1 + b.1, min a.2 b.2) :: mergeCarried rest
  | rest => rest

def nextCarried (step : Int) (cs : List (Work × Nat)) : List (Work × Nat) :=
  if 0 < step then splitCarried cs else if step < 0 then mergeCarried cs else cs

def aggregate (ids : List (Bytes32 × Work)) : SortedMap Bytes32 Work :=
  ids.foldl (fun agg w =>
    if w.2 = 0 then agg
    else
      let a := (agg.lookup w.1).getD 0
      let room := work (2 ^ 128 - 1) - a
      agg.insert w.1 (a + if room < w.2 then room else w.2)) ∅

def stripesOf (sha : List Byte → Bytes32) (chain : Nat) (g : Gate)
    (agg : SortedMap Bytes32 Work) : List (Bytes32 × Work) :=
  (agg.entries.flatMap fun e =>
    (List.range (nOf e.2 g)).map fun s =>
      (stripeKey sha chain e.1 s, stripeLoad e.2 (nOf e.2 g) s)).insertionSort
    fun a b => a.1 ≤ b.1

def probe (loads : List Work) (cap load : Work) (home : Nat) : List Nat → Nat → Nat × Bool
  | [], best => (best, false)
  | t :: ts, best =>
    let r := home ^^^ t
    if loads.getD r 0 + load ≤ cap then (r, true)
    else probe loads cap load home ts (if loads.getD r 0 < loads.getD best 0 then r else best)

/-- What the placement loop carries along. -/
structure Placing where
  loads : List Work
  loadHome : List Work
  overrides : SortedMap Bytes32 Nat := ∅
  overridden : Nat := 0
  unfit : Nat := 0

def addLoad (loads : List Work) (r : Nat) (load : Work) : List Work :=
  loads.set r (loads.getD r 0 + load)

def place (m : Nat) (cap : Work) (p : Placing) (x : Bytes32 × Work) : Placing :=
  let home := rbHome x.1 m
  let picked := probe p.loads cap x.2 home (List.range (2 ^ m)) home
  { loads := addLoad p.loads picked.1 x.2
    loadHome := addLoad p.loadHome home x.2
    overrides := if picked.1 = home then p.overrides else p.overrides.insert x.1 picked.1
    overridden := if picked.1 = home then p.overridden else p.overridden + 1
    unfit := if picked.2 then p.unfit else p.unfit + 1 }

/-- `derive_map`, with its report. -/
def deriveMap (sha : List Byte → Bytes32) (prev : Map) (input : PeriodInput) (g : Gate) :
    Map × DeriveReport :=
  if !g.live then
    ({ chain := prev.chain, epoch := prev.epoch + 1, m := 0, lastW := [0], missed := [0] }, {})
  else
    let total := hTotal prev input g
    let step := trigger total prev.m g
    let m := ((prev.m : Int) + step).toNat
    let next := nextCarried step (carried prev input g)
    let agg := aggregate input.ids
    let stripes := stripesOf sha prev.chain g agg
    let totalLoad := (stripes.map Prod.snd).sum
    let cap := loadCap totalLoad (2 ^ m) g
    let placed := stripes.foldl (place m cap)
      { loads := List.replicate (2 ^ m) 0, loadHome := List.replicate (2 ^ m) 0 }
    ({ chain := prev.chain
       epoch := prev.epoch + 1
       m := m
       n := agg.filterMap fun _ h => if 1 < nOf h g then some (nOf h g) else none
       overrides := placed.overrides
       lastW := next.map Prod.fst
       missed := next.map Prod.snd },
      { hTotal := total
        step := step
        totalLoad := totalLoad
        cap := cap
        loadHome := placed.loadHome
        loadFinal := placed.loads
        stripes := stripes.length
        overridden := placed.overridden
        unfit := placed.unfit })

/-- The maps the derivation reaches from genesis, under any gates and inputs. -/
inductive Derived (sha : List Byte → Bytes32) : Map → Prop where
  | genesis (chain : Nat) : Derived sha (genesisMap chain)
  | step {mp : Map} (input : PeriodInput) (g : Gate) :
      Derived sha mp → Derived sha (deriveMap sha mp input g).1

end C2Pool.V37.Roundabout
