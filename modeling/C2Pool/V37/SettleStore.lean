import C2Pool.V37.Records

/-! # The settlement store

`ISettleStore` (`w6_persistence.hpp`): byte strings under the keys `v37s:meta` and
`v37s:<tag>:<chain>[:<id>]`, kept here by chain and tag. Ids are printed with a fixed width, so the
order of the keys is the order of the ids. Batches are applied as a whole or not at all.
-/

namespace C2Pool.V37

open List SortedMap

/-- The keys of one chain. -/
inductive RecKey where
  | hw
  | lhead
  | lmmr
  | levt (seq : U64)
  | blk (bid : Bid)
  | intent (shareHash : Bytes32)
  | carrier (shareHash : Bytes32)
  | tip
  | genesis
deriving DecidableEq

inductive StoreKey where
  | metaRec
  | chain (c : U32) (k : RecKey)
deriving DecidableEq

structure ChainRecords where
  hw : Option (List Byte) := none
  lhead : Option (List Byte) := none
  lmmr : Option (List Byte) := none
  levt : SortedMap U64 (List Byte) := ∅
  blk : SortedMap Bid (List Byte) := ∅
  intent : SortedMap Bytes32 (List Byte) := ∅
  carrier : SortedMap Bytes32 (List Byte) := ∅
  tip : Option (List Byte) := none
  genesis : Option (List Byte) := none
deriving DecidableEq

def SortedMap.set {K V : Type} [LinearOrder K] (m : SortedMap K V) (k : K) : Option V →
    SortedMap K V
  | some v => m.insert k v
  | none => m.erase k

def ChainRecords.set (r : ChainRecords) (v : Option (List Byte)) : RecKey → ChainRecords
  | .hw => { r with hw := v }
  | .lhead => { r with lhead := v }
  | .lmmr => { r with lmmr := v }
  | .levt seq => { r with levt := SortedMap.set r.levt seq v }
  | .blk bid => { r with blk := SortedMap.set r.blk bid v }
  | .intent h => { r with intent := SortedMap.set r.intent h v }
  | .carrier h => { r with carrier := SortedMap.set r.carrier h v }
  | .tip => { r with tip := v }
  | .genesis => { r with genesis := v }

structure SettleStore where
  metaRec : Option (List Byte) := none
  chains : SortedMap U32 ChainRecords := ∅
deriving DecidableEq

/-- An entry of a batch: `put` with a value, `remove` without. -/
abbrev BatchOp := StoreKey × Option (List Byte)

namespace SettleStore

def chain (s : SettleStore) (c : U32) : ChainRecords := (s.chains.lookup c).getD {}

def apply (s : SettleStore) (op : BatchOp) : SettleStore :=
  match op.1 with
  | .metaRec => { s with metaRec := op.2 }
  | .chain c k => { s with chains := s.chains.insert c ((s.chain c).set op.2 k) }

def commit (s : SettleStore) (ops : List BatchOp) : SettleStore := ops.foldl apply s

/-- `commit_sync`: the whole batch, or nothing. -/
def commitSync (s : SettleStore) (ok : Bool) (ops : List BatchOp) : SettleStore :=
  if ok then s.commit ops else s

def unionChains (s : SettleStore) : List U32 :=
  (s.chains.entries.filter fun e => e.2 ≠ {}).map Prod.fst

end SettleStore

def onChain (c : U32) (ops : List (RecKey × Option (List Byte))) : List BatchOp :=
  ops.map fun op => (.chain c op.1, op.2)

variable {s : SettleStore}

namespace SettleStore

theorem chain_insert (s : SettleStore) (c c' : U32) (r : ChainRecords) :
    ({ s with chains := s.chains.insert c r } : SettleStore).chain c' =
      if c' = c then r else s.chain c' := by
  unfold chain
  rw [lookup_insert]
  split <;> rfl

theorem chain_commit_onChain (s : SettleStore) (c c' : U32)
    (ops : List (RecKey × Option (List Byte))) :
    (s.commit (onChain c ops)).chain c' =
      if c' = c then ops.foldl (fun r op => r.set op.2 op.1) (s.chain c) else s.chain c' := by
  unfold commit onChain
  induction ops generalizing s with
  | nil =>
    rw [map_nil, foldl_nil, foldl_nil]
    split
    · rename_i heq
      rw [heq]
    · rfl
  | cons op ops ih =>
    rw [map_cons, foldl_cons, foldl_cons, ih]
    simp only [apply, chain_insert]
    split <;> rfl

theorem metaRec_commit_onChain (s : SettleStore) (c : U32)
    (ops : List (RecKey × Option (List Byte))) :
    (s.commit (onChain c ops)).metaRec = s.metaRec := by
  unfold commit onChain
  induction ops generalizing s with
  | nil => rfl
  | cons op ops ih =>
    rw [map_cons, foldl_cons, ih]
    rfl

theorem mem_unionChains {c : U32} : c ∈ s.unionChains ↔ s.chain c ≠ {} := by
  unfold unionChains chain
  rw [mem_map]
  constructor
  · rintro ⟨⟨c', r⟩, hmem, rfl⟩
    obtain ⟨he, hne⟩ := mem_filter.mp hmem
    rw [mem_entries_iff.mp he]
    simpa using hne
  intro hne
  cases hr : s.chains.lookup c with
  | none =>
    rw [hr] at hne
    exact (hne rfl).elim
  | some r =>
    rw [hr] at hne
    refine ⟨(c, r), mem_filter.mpr ⟨mem_entries_iff.mpr hr, ?_⟩, rfl⟩
    simpa using hne

end SettleStore

/-! ## The census -/

/-- What `census_open` complains about. -/
inductive CensusError where
  | corrupt (key : StoreKey)
  | missingHw (c : U32)
  | hwLhead (c : U32) (hwSeq lheadSeq : U64)
  | levtCount (c : U32) (count : Nat) (lheadSeq : U64)
  | missingLevt (c : U32) (seq : Nat)
  | levtWithoutLhead (c : U32) (count : Nat)
deriving DecidableEq

namespace Census

def corruptOne {α : Type} (decode : List Byte → Option α) (key : StoreKey) :
    Option (List Byte) → List CensusError
  | none => []
  | some v => if (decode v).isNone then [.corrupt key] else []

def corruptMany {K α : Type} [LinearOrder K] (decode : List Byte → Option α) (key : K → StoreKey)
    (m : SortedMap K (List Byte)) : List CensusError :=
  (m.entries.filter fun e => (decode e.2).isNone).map fun e => .corrupt (key e.1)

def corrupt (s : SettleStore) : List CensusError :=
  (s.chains.entries.flatMap fun e =>
    corruptMany decodeBlk (fun bid => .chain e.1 (.blk bid)) e.2.blk) ++
  (s.chains.entries.flatMap fun e =>
    corruptMany decodeCarrier (fun h => .chain e.1 (.carrier h)) e.2.carrier) ++
  (s.chains.entries.flatMap fun e => corruptOne decodeGenesis (.chain e.1 .genesis) e.2.genesis) ++
  (s.chains.entries.flatMap fun e => corruptOne decodeHw (.chain e.1 .hw) e.2.hw) ++
  (s.chains.entries.flatMap fun e =>
    corruptMany decodeIntent (fun h => .chain e.1 (.intent h)) e.2.intent) ++
  (s.chains.entries.flatMap fun e =>
    corruptMany decodeEvent (fun seq => .chain e.1 (.levt seq)) e.2.levt) ++
  (s.chains.entries.flatMap fun e => corruptOne decodeLhead (.chain e.1 .lhead) e.2.lhead) ++
  (s.chains.entries.flatMap fun e => corruptOne decodeLmmr (.chain e.1 .lmmr) e.2.lmmr) ++
  corruptOne decodeMeta .metaRec s.metaRec ++
  s.chains.entries.flatMap fun e => corruptOne decodeTip (.chain e.1 .tip) e.2.tip

def hwSeq (r : ChainRecords) : Option U64 := (r.hw.bind decodeHw).map fun h => h.hw.ledgerSeq

def lheadSeq (r : ChainRecords) : Option U64 := (r.lhead.bind decodeLhead).map LheadRec.ledgerSeq

/-- The sequence numbers of the events that decode. -/
def levtSeqs (r : ChainRecords) : List U64 :=
  r.levt.entries.filterMap fun e => (decodeEvent e.2).map EventRec.seq

def heads (c : U32) (r : ChainRecords) : List CensusError :=
  match lheadSeq r with
  | some l =>
    (match hwSeq r with
      | some h => if h ≠ l then [.hwLhead c h l] else []
      | none => []) ++
    (if (levtSeqs r).length ≠ l.val then [.levtCount c (levtSeqs r).length l] else []) ++
    ((List.range l.val).filter fun i => (levtSeqs r).all fun s => s.val ≠ i + 1).map
      fun i => .missingLevt c (i + 1)
  | none =>
    if levtSeqs r ≠ [] then [.levtWithoutLhead c (levtSeqs r).length] else []

end Census

/-- `census_open`: the list of its errors. -/
def censusOpen (s : SettleStore) : List CensusError :=
  Census.corrupt s ++
    ((s.unionChains.filter fun c => (Census.hwSeq (s.chain c)).isNone).map CensusError.missingHw) ++
    s.unionChains.flatMap fun c => Census.heads c (s.chain c)

structure Census.Decodes (r : ChainRecords) : Prop where
  hw : ∀ v, r.hw = some v → (decodeHw v).isSome
  lhead : ∀ v, r.lhead = some v → (decodeLhead v).isSome
  lmmr : ∀ v, r.lmmr = some v → (decodeLmmr v).isSome
  levt : ∀ e ∈ r.levt.entries, (decodeEvent e.2).isSome
  blk : ∀ e ∈ r.blk.entries, (decodeBlk e.2).isSome
  intent : ∀ e ∈ r.intent.entries, (decodeIntent e.2).isSome
  carrier : ∀ e ∈ r.carrier.entries, (decodeCarrier e.2).isSome
  tip : ∀ v, r.tip = some v → (decodeTip v).isSome
  genesis : ∀ v, r.genesis = some v → (decodeGenesis v).isSome

namespace Census

theorem corruptOne_eq_nil {α : Type} {decode : List Byte → Option α} {key : StoreKey}
    {v : Option (List Byte)} (h : ∀ x, v = some x → (decode x).isSome) :
    corruptOne decode key v = [] := by
  cases v with
  | none => rfl
  | some x =>
    obtain ⟨a, ha⟩ := Option.isSome_iff_exists.mp (h x rfl)
    simp [corruptOne, ha]

theorem corruptMany_eq_nil {K α : Type} [LinearOrder K] {decode : List Byte → Option α}
    {key : K → StoreKey} {m : SortedMap K (List Byte)}
    (h : ∀ e ∈ m.entries, (decode e.2).isSome) : corruptMany decode key m = [] := by
  unfold corruptMany
  rw [map_eq_nil_iff, filter_eq_nil_iff]
  intro e he
  obtain ⟨a, ha⟩ := Option.isSome_iff_exists.mp (h e he)
  simp [ha]

theorem corrupt_eq_nil (hmeta : s.metaRec = none) (h : ∀ c, Decodes (s.chain c)) :
    corrupt s = [] := by
  have hdec : ∀ e ∈ s.chains.entries, Decodes e.2 := by
    intro e he
    have hchain : s.chain e.1 = e.2 := by
      unfold SettleStore.chain
      rw [mem_entries_iff.mp he]
      rfl
    rw [← hchain]
    exact h e.1
  unfold corrupt
  simp only [append_eq_nil_iff, flatMap_eq_nil_iff]
  refine ⟨⟨⟨⟨⟨⟨⟨⟨⟨?_, ?_⟩, ?_⟩, ?_⟩, ?_⟩, ?_⟩, ?_⟩, ?_⟩, ?_⟩, ?_⟩
  · exact fun e he => corruptMany_eq_nil (hdec e he).blk
  · exact fun e he => corruptMany_eq_nil (hdec e he).carrier
  · exact fun e he => corruptOne_eq_nil (hdec e he).genesis
  · exact fun e he => corruptOne_eq_nil (hdec e he).hw
  · exact fun e he => corruptMany_eq_nil (hdec e he).intent
  · exact fun e he => corruptMany_eq_nil (hdec e he).levt
  · exact fun e he => corruptOne_eq_nil (hdec e he).lhead
  · exact fun e he => corruptOne_eq_nil (hdec e he).lmmr
  · rw [hmeta]
    rfl
  · exact fun e he => corruptOne_eq_nil (hdec e he).tip

end Census

theorem censusOpen_eq_nil (hmeta : s.metaRec = none) (hdec : ∀ c, Census.Decodes (s.chain c))
    (hhw : ∀ c, s.chain c ≠ {} → (s.chain c).hw ≠ none)
    (hheads : ∀ c, s.chain c ≠ {} → Census.heads c (s.chain c) = []) : censusOpen s = [] := by
  have hmissing : s.unionChains.filter (fun c => (Census.hwSeq (s.chain c)).isNone) = [] := by
    rw [filter_eq_nil_iff]
    intro c hc
    obtain ⟨v, hv⟩ := Option.ne_none_iff_exists'.mp (hhw c (SettleStore.mem_unionChains.mp hc))
    obtain ⟨x, hx⟩ := Option.isSome_iff_exists.mp ((hdec c).hw v hv)
    simp [Census.hwSeq, hv, hx]
  have hall : (s.unionChains.flatMap fun c => Census.heads c (s.chain c)) = [] := by
    rw [flatMap_eq_nil_iff]
    intro c hc
    exact hheads c (SettleStore.mem_unionChains.mp hc)
  unfold censusOpen
  rw [Census.corrupt_eq_nil hmeta hdec, hmissing, hall]
  rfl

end C2Pool.V37
