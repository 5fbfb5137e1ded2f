import C2Pool.V37.BtcDriver

/-! # The event log of the Bitcoin family

What a store holds after some commits, and what is read back from it: the image
on disk is the map after the commits up to the last flush that succeeded, its
events are the first ones of the log, and the recovery replays exactly these.
-/

namespace C2Pool.V37.Btc

open List Reader

/-! ## What commits leave -/

def kvAfter (chain : U32) (commits : List Commit) : Kv :=
  commits.foldl (fun kv c => SortedMap.set kv (c.key.bytes chain) c.value) ∅

def held (commits : List Commit) (k : Key) : Option (List Byte) :=
  commits.foldl (fun v c => if c.key = k then c.value else v) none

def eventsOf (commits : List Commit) : List (U64 × SettleEvent × Option U64) :=
  commits.filterMap fun
    | .event seq e stepped => some (seq, e, stepped)
    | _ => none

def lastCursor (commits : List Commit) : U64 :=
  commits.foldl (fun v c => match c with | .cursor h => h | _ => v) 0

def lastHw (commits : List Commit) : SettleHW :=
  commits.foldl (fun v c => match c with | .hw w => w | _ => v) {}

def storeAfter (chain : U32) (oks : Nat → Bool) (commits : List Commit) : FileSettleStore :=
  commits.zipIdx.foldl (fun st c => st.commitSync (oks c.2) (c.1.key.bytes chain) c.1.value) {}

section Concat

variable (chain : U32) (commits : List Commit) (c : Commit)

theorem kvAfter_concat :
    kvAfter chain (commits ++ [c]) =
      SortedMap.set (kvAfter chain commits) (c.key.bytes chain) c.value := by
  simp [kvAfter]

theorem held_concat (k : Key) :
    held (commits ++ [c]) k = if c.key = k then c.value else held commits k := by
  simp [held]

theorem eventsOf_append (commits' : List Commit) :
    eventsOf (commits ++ commits') = eventsOf commits ++ eventsOf commits' := by
  simp [eventsOf]

theorem eventsOf_concat_other {c : Commit} (hc : ∀ seq e stepped, c ≠ .event seq e stepped) :
    eventsOf (commits ++ [c]) = eventsOf commits := by
  rw [eventsOf_append]
  cases c with
  | event seq e stepped => exact absurd rfl (hc seq e stepped)
  | _ => exact append_nil _

theorem lastCursor_concat :
    lastCursor (commits ++ [c]) = match c with | .cursor h => h | _ => lastCursor commits := by
  simp [lastCursor]

theorem lastHw_concat :
    lastHw (commits ++ [c]) = match c with | .hw w => w | _ => lastHw commits := by
  simp [lastHw]

theorem storeAfter_concat (oks : Nat → Bool) :
    storeAfter chain oks (commits ++ [c]) =
      (storeAfter chain oks commits).commitSync (oks commits.length) (c.key.bytes chain)
        c.value := by
  simp [storeAfter, zipIdx_append]

end Concat

theorem lookup_set {K V : Type} [LinearOrder K] (m : SortedMap K V) (k : K) (v : Option V) (x : K) :
    (SortedMap.set m k v).lookup x = if x = k then v else m.lookup x := by
  cases v with
  | some v => exact SortedMap.lookup_insert m k v x
  | none => exact SortedMap.lookup_erase m k x

theorem lookup_kvAfter (chain : U32) (commits : List Commit) (k : Key) :
    (kvAfter chain commits).lookup (k.bytes chain) = held commits k := by
  induction commits using List.reverseRecOn with
  | nil => rfl
  | append_singleton commits c ih =>
    rw [kvAfter_concat, held_concat, lookup_set, ih]
    by_cases hk : c.key = k
    · rw [if_pos hk, hk, if_pos rfl]
    rw [if_neg hk, if_neg]
    intro hbytes
    exact hk (bytes_injective chain hbytes).symm

variable {commits : List Commit} {chain : U32} {oks : Nat → Bool}

theorem exists_key_of_lookup {key : List Byte}
    (h : (kvAfter chain commits).lookup key ≠ none) : ∃ k : Key, key = k.bytes chain := by
  induction commits using List.reverseRecOn with
  | nil => exact absurd rfl h
  | append_singleton commits c ih =>
    rw [kvAfter_concat, lookup_set] at h
    by_cases hkey : key = c.key.bytes chain
    · exact ⟨c.key, hkey⟩
    · rw [if_neg hkey] at h
      exact ih h

theorem kv_storeAfter (chain : U32) (oks : Nat → Bool) (commits : List Commit) :
    (storeAfter chain oks commits).kv = kvAfter chain commits := by
  induction commits using List.reverseRecOn with
  | nil => rfl
  | append_singleton commits c ih =>
    rw [storeAfter_concat, kvAfter_concat, ← ih]
    rfl

theorem exists_flushed (chain : U32) (oks : Nat → Bool) (commits : List Commit) :
    ∃ j ≤ commits.length,
      (storeAfter chain oks commits).img = some (image (kvAfter chain (commits.take j))) ∨
        j = 0 ∧ (storeAfter chain oks commits).img = none := by
  induction commits using List.reverseRecOn with
  | nil => exact ⟨0, le_rfl, Or.inr ⟨rfl, rfl⟩⟩
  | append_singleton commits c ih =>
    rw [storeAfter_concat]
    unfold FileSettleStore.commitSync
    dsimp only
    by_cases hok : oks commits.length = true
    · refine ⟨(commits ++ [c]).length, le_rfl, Or.inl ?_⟩
      rw [if_pos hok, take_length, kvAfter_concat, kv_storeAfter]
    obtain ⟨j, hj, himg⟩ := ih
    refine ⟨j, by rw [length_append]; omega, ?_⟩
    rw [if_neg hok, take_append_of_le_length hj]
    exact himg

theorem img_storeAfter_flushed (hne : commits ≠ []) (hok : oks (commits.length - 1) = true) :
    (storeAfter chain oks commits).img = some (image (kvAfter chain commits)) := by
  induction commits using List.reverseRecOn with
  | nil => exact absurd rfl hne
  | append_singleton commits c _ =>
    rw [length_append, length_singleton, Nat.add_sub_cancel] at hok
    rw [storeAfter_concat, kvAfter_concat]
    unfold FileSettleStore.commitSync
    dsimp only
    rw [if_pos hok, kv_storeAfter]

theorem img_storeAfter_failed (more : List Commit) (h : ∀ i, commits.length ≤ i → oks i = false) :
    (storeAfter chain oks (commits ++ more)).img = (storeAfter chain oks commits).img := by
  induction more using List.reverseRecOn with
  | nil => rw [append_nil]
  | append_singleton more c ih =>
    rw [← append_assoc, storeAfter_concat]
    unfold FileSettleStore.commitSync
    rw [h _ (by rw [length_append]; omega), ih]
    rfl

theorem held_eq_none {k : Key} (h : ∀ c ∈ commits, c.key ≠ k) : held commits k = none := by
  induction commits using List.reverseRecOn with
  | nil => rfl
  | append_singleton commits c ih =>
    rw [held_concat, if_neg (h c (by simp)), ih fun c hc => h c (by simp [hc])]

def Commit.Sized (chain : U32) (c : Commit) : Prop :=
  (c.key.bytes chain).length < 2 ^ 64 ∧ ∀ v, c.value = some v → v.length < 2 ^ 64

theorem length_decFmt (w n : Nat) : (decFmt w n).length = w := by
  induction w generalizing n with
  | zero => rfl
  | succ w ih => rw [decFmt, length_cons, ih]

theorem sized_event (chain : U32) (seq : U64) {e : SettleEvent} (he : e.Fits)
    (stepped : Option U64) : (Commit.event seq e stepped).Sized chain := by
  constructor
  · simp [Commit.key, Key.bytes, kEvtPrefix, putTag, length_decFmt]
  intro v hv
  rw [← Option.some_inj.mp hv]
  exact he.size

theorem sized_cursor (chain : U32) (h : U64) : (Commit.cursor h).Sized chain := by
  constructor
  · simp [Commit.key, Key.bytes, putTag, length_decFmt]
  intro v hv
  rw [← Option.some_inj.mp hv, putU64, length_bytesLE]
  decide

theorem sized_hw (chain : U32) (hw : SettleHW) : (Commit.hw hw).Sized chain := by
  constructor
  · simp [Commit.key, Key.bytes, putTag, length_decFmt]
  intro v hv
  rw [← Option.some_inj.mp hv, length_serialize]
  decide

theorem kvFits_kvAfter (h : ∀ c ∈ commits, c.Sized chain) : KvFits (kvAfter chain commits) := by
  induction commits using List.reverseRecOn with
  | nil => intro e he; cases he
  | append_singleton commits c ih =>
    rintro ⟨key, v⟩ he
    rw [kvAfter_concat, SortedMap.mem_entries_iff, lookup_set] at he
    split at he
    next hkey =>
      have hc := h c (by simp)
      rw [hkey]
      exact ⟨hc.1, hc.2 v he⟩
    · exact ih (fun c hc => h c (by simp [hc])) (key, v) (SortedMap.mem_entries_iff.mpr he)

/-! ## A log -/

def StepsAfter (a b : Commit) : Prop :=
  ∀ c seq e h, a = .cursor c → b = .event seq e (some h) → c < h

def Rises (a b : Commit) : Prop := ∀ c c', a = .cursor c → b = .cursor c' → c ≤ c'

/-- The events are numbered from one on, fit their records, and are logged before the cursor
passes the height that was being stepped. -/
structure Logged (commits : List Commit) : Prop where
  numbered : ∀ i x, (eventsOf commits)[i]? = some x → x.1.val = i + 1
  fits : ∀ x ∈ eventsOf commits, x.2.1.Fits
  positive : ∀ x ∈ eventsOf commits, ∀ h, x.2.2 = some h → 0 < h
  stepped : commits.Pairwise StepsAfter
  rising : commits.Pairwise Rises

theorem logged_nil : Logged [] where
  numbered := by simp [eventsOf]
  fits := by simp [eventsOf]
  positive := by simp [eventsOf]
  stepped := List.Pairwise.nil
  rising := List.Pairwise.nil

theorem eventsOf_take_isPrefix (commits : List Commit) (j : Nat) :
    eventsOf (commits.take j) <+: eventsOf commits := by
  conv_rhs => rw [← take_append_drop j commits]
  rw [eventsOf_append]
  exact prefix_append _ _

theorem eventsOf_take (commits : List Commit) (j : Nat) :
    eventsOf (commits.take j) = (eventsOf commits).take (eventsOf (commits.take j)).length :=
  (prefix_iff_eq_take.mp (eventsOf_take_isPrefix commits j))

namespace Logged

variable {commits : List Commit}

section

variable (h : Logged commits)
include h

theorem take (j : Nat) : Logged (commits.take j) where
  numbered := by
    intro i x hx
    rw [eventsOf_take, getElem?_take] at hx
    split at hx
    · exact h.numbered i x hx
    · cases hx
  fits := fun x hx => h.fits x ((eventsOf_take_isPrefix commits j).subset hx)
  positive := fun x hx => h.positive x ((eventsOf_take_isPrefix commits j).subset hx)
  stepped := h.stepped.sublist (take_sublist j commits)
  rising := h.rising.sublist (take_sublist j commits)

theorem concat_other {c : Commit} (hc : ∀ seq e stepped, c ≠ .event seq e stepped)
    (hrises : ∀ x y, .cursor x ∈ commits → c = .cursor y → x ≤ y) : Logged (commits ++ [c]) := by
  have hevents := eventsOf_concat_other commits hc
  constructor
  · rw [hevents]
    exact h.numbered
  · rw [hevents]
    exact h.fits
  · rw [hevents]
    exact h.positive
  · rw [pairwise_append]
    refine ⟨h.stepped, pairwise_singleton _ _, ?_⟩
    intro a _ b hb x seq e height _ hevent
    rw [mem_singleton.mp hb] at hevent
    exact absurd hevent (hc seq e (some height))
  · rw [pairwise_append]
    refine ⟨h.rising, pairwise_singleton _ _, ?_⟩
    intro a ha b hb x y hx hy
    rw [mem_singleton.mp hb] at hy
    exact hrises x y (hx ▸ ha) hy

theorem mem_seq {x : U64 × SettleEvent × Option U64}
    (hx : x ∈ eventsOf commits) : x.1.val ≤ (eventsOf commits).length ∧ 0 < x.1.val := by
  obtain ⟨i, hi, hget⟩ := mem_iff_getElem.mp hx
  have hseq := h.numbered i x (by rw [getElem?_eq_getElem hi, hget])
  omega

theorem pairwise_seq : (eventsOf commits).Pairwise fun a b => a.1 < b.1 := by
  rw [pairwise_iff_getElem]
  intro i j hi hj hij
  have ha := h.numbered i _ (getElem?_eq_getElem hi)
  have hb := h.numbered j _ (getElem?_eq_getElem hj)
  rw [Fin.lt_def]
  omega

theorem held_evt (seq : U64) (v : List Byte) :
    held commits (.evt seq) = some v ↔
      ∃ e stepped, (seq, e, stepped) ∈ eventsOf commits ∧ v = e.serialize := by
  induction commits using List.reverseRecOn with
  | nil => simp [held, eventsOf]
  | append_singleton commits c ih =>
    have hpre : Logged commits := by
      have htake := h.take commits.length
      rwa [take_left] at htake
    rw [held_concat, eventsOf_append]
    by_cases hkey : c.key = .evt seq
    · rw [if_pos hkey]
      cases c with
      | event seq' e stepped =>
        have heq : seq' = seq := by simpa [Commit.key] using hkey
        subst heq
        have hlast : eventsOf [Commit.event seq' e stepped] = [(seq', e, stepped)] := rfl
        constructor
        · intro hv
          exact ⟨e, stepped, by simp [hlast], (Option.some_inj.mp hv).symm⟩
        rintro ⟨e', stepped', hmem, rfl⟩
        rw [hlast, mem_append, mem_singleton] at hmem
        rcases hmem with hmem | heq
        · -- an earlier event has an earlier number
          have hbefore := (hpre.mem_seq hmem).1
          have hnumber := h.numbered (eventsOf commits).length (seq', e, stepped)
            (by rw [eventsOf_append, hlast]; simp)
          dsimp only at hbefore hnumber
          omega
        · cases heq
          rfl
      | _ => simp [Commit.key] at hkey
    rw [if_neg hkey, ih hpre]
    have hother : ∀ e stepped, (seq, e, stepped) ∉ eventsOf [c] := by
      intro e stepped hmem
      cases c with
      | event seq' e' stepped' =>
        have heq : (seq, e, stepped) = (seq', e', stepped') := by simpa [eventsOf] using hmem
        cases heq
        exact hkey rfl
      | _ => simp [eventsOf] at hmem
    simp [hother]

theorem withPrefix_kvAfter (chain : U32) :
    withPrefix (kEvtPrefix chain) (kvAfter chain commits) =
      (eventsOf commits).map fun x => ((Key.evt x.1).bytes chain, x.2.1.serialize) := by
  have hsorted : ((eventsOf commits).map fun x =>
      ((Key.evt x.1).bytes chain, x.2.1.serialize)).Pairwise fun a b => a.1 < b.1 := by
    rw [pairwise_map]
    exact h.pairwise_seq.imp fun hlt => kEvt_lt hlt
  have hfiltered : (withPrefix (kEvtPrefix chain) (kvAfter chain commits)).Pairwise
      fun a b => a.1 < b.1 := (kvAfter chain commits).sorted.filter _
  have hmem : ∀ a : List Byte × List Byte,
      a ∈ withPrefix (kEvtPrefix chain) (kvAfter chain commits) ↔
        a ∈ (eventsOf commits).map fun x => ((Key.evt x.1).bytes chain, x.2.1.serialize) := by
    rintro ⟨key, v⟩
    unfold withPrefix
    rw [mem_filter, SortedMap.mem_entries_iff, isPrefixOf_iff_prefix, mem_map]
    constructor
    · rintro ⟨hlookup, hpre⟩
      obtain ⟨k, rfl⟩ := exists_key_of_lookup (by rw [hlookup]; simp)
      obtain ⟨seq, rfl⟩ := (kEvtPrefix_prefix_iff chain k).mp hpre
      rw [lookup_kvAfter, h.held_evt] at hlookup
      obtain ⟨e, stepped, hx, rfl⟩ := hlookup
      exact ⟨_, hx, rfl⟩
    rintro ⟨⟨seq, e, stepped⟩, hx, heq⟩
    cases heq
    refine ⟨?_, (kEvtPrefix_prefix_iff chain _).mpr ⟨seq, rfl⟩⟩
    rw [lookup_kvAfter, h.held_evt]
    exact ⟨e, stepped, hx, rfl⟩
  exact SortedMap.sorted_eq_of_mem_iff hfiltered hsorted hmem

end

end Logged

def replay (sha : List Byte → Bytes32) (rules : OwedLedgerRules)
    (events : List (U64 × SettleEvent × Option U64)) : OwedLedger :=
  events.foldl (fun l x => replayCall sha rules l x.2.1) {}

theorem held_cursor (commits : List Commit) :
    held commits .cursor = none ∧ lastCursor commits = 0 ∨
      held commits .cursor = some (putU64 (lastCursor commits).val) := by
  induction commits using List.reverseRecOn with
  | nil => exact Or.inl ⟨rfl, rfl⟩
  | append_singleton commits c ih =>
    rw [held_concat, lastCursor_concat]
    cases c with
    | cursor h => exact Or.inr rfl
    | _ => exact ih

theorem held_hw (commits : List Commit) :
    held commits .hw = none ∧ lastHw commits = {} ∨
      held commits .hw = some (lastHw commits).serialize := by
  induction commits using List.reverseRecOn with
  | nil => exact Or.inl ⟨rfl, rfl⟩
  | append_singleton commits c ih =>
    rw [held_concat, lastHw_concat]
    cases c with
    | hw w => exact Or.inr rfl
    | _ => exact ih

section Recover

variable {sha : List Byte → Bytes32} {rules : OwedLedgerRules} {chain : U32}
  {commits : List Commit}

theorem recoverCursor_kvAfter (chain : U32) (commits : List Commit) :
    recoverCursor chain (kvAfter chain commits) = some (lastCursor commits) := by
  unfold recoverCursor
  rw [lookup_kvAfter]
  rcases held_cursor commits with ⟨hnone, hzero⟩ | hsome
  · rw [hnone, hzero]
  rw [hsome]
  have hread := Read.reads_u64 (lastCursor commits) []
  rw [append_nil] at hread
  dsimp only
  rw [hread]
  rfl

theorem recoverHw_kvAfter (chain : U32) (commits : List Commit) :
    recoverHw chain (kvAfter chain commits) = some (lastHw commits) := by
  unfold recoverHw
  rw [lookup_kvAfter]
  rcases held_hw commits with ⟨hnone, hzero⟩ | hsome
  · rw [hnone, hzero]
  rw [hsome]
  have hread := reads_settleHW (lastHw commits) []
  rw [append_nil] at hread
  dsimp only
  rw [length_serialize, if_pos (by decide), hread]
  rfl

theorem replayEvents_map (events : List (U64 × SettleEvent × Option U64))
    (hfits : ∀ x ∈ events, x.2.1.Fits) (n : U64) (l : OwedLedger) :
    replayEvents sha rules
        (events.map fun x => ((Key.evt x.1).bytes chain, x.2.1.serialize)) (n, l) =
      some (Fin.ofNat (2 ^ 64) (n.val + events.length),
        events.foldl (fun l x => replayCall sha rules l x.2.1) l) := by
  unfold replayEvents
  induction events generalizing n l with
  | nil =>
    have hcount : Fin.ofNat (2 ^ 64) (n.val + 0) = n := Fin.ext (Nat.mod_eq_of_lt n.isLt)
    rw [length_nil, hcount]
    rfl
  | cons x events ih =>
    have hx := deserialize_serialize (hfits x mem_cons_self)
    have hcount : Fin.ofNat (2 ^ 64) ((n + 1).val + events.length) =
        Fin.ofNat (2 ^ 64) (n.val + (events.length + 1)) := by
      apply Fin.ext
      show ((n.val + 1) % 2 ^ 64 + events.length) % 2 ^ 64 = (n.val + (events.length + 1)) % 2 ^ 64
      omega
    rw [map_cons, foldlM_cons]
    rw [hx, Option.map_some, Option.bind_eq_bind, Option.bind_some,
      ih (fun y hy => hfits y (mem_cons_of_mem _ hy)), foldl_cons, hcount, length_cons]

theorem recover_kvAfter (h : Logged commits) :
    ∃ st, recover sha rules chain (kvAfter chain commits) =
        some (st, replay sha rules (eventsOf commits)) ∧
      st.hw = lastHw commits ∧ st.finalizeCursorHeight = lastCursor commits ∧
      st.maxEventSeq = Fin.ofNat (2 ^ 64) (eventsOf commits).length := by
  unfold recover
  rw [recoverHw_kvAfter, recoverCursor_kvAfter, h.withPrefix_kvAfter,
    replayEvents_map _ h.fits, Option.bind_some, Option.bind_some, Option.map_some]
  refine ⟨_, rfl, rfl, rfl, ?_⟩
  rw [Fin.val_zero, Nat.zero_add]

theorem lastCursor_mem (commits : List Commit) :
    lastCursor commits = 0 ∨ .cursor (lastCursor commits) ∈ commits := by
  induction commits using List.reverseRecOn with
  | nil => exact Or.inl rfl
  | append_singleton commits c ih =>
    rw [lastCursor_concat]
    cases c with
    | cursor h => exact Or.inr (by simp)
    | _ =>
      rcases ih with hzero | hmem
      · exact Or.inl hzero
      · exact Or.inr (mem_append_left _ hmem)

theorem Logged.le_lastCursor (h : Logged commits) {c : U64} (hc : .cursor c ∈ commits) :
    c ≤ lastCursor commits := by
  induction commits using List.reverseRecOn with
  | nil => cases hc
  | append_singleton commits x ih =>
    have hpre : Logged commits := by
      have htake := h.take commits.length
      rwa [take_left] at htake
    have hpair := (pairwise_append.mp h.rising).2.2
    rw [lastCursor_concat]
    rcases mem_append.mp hc with hmem | hmem
    · cases x with
      | cursor y => exact hpair _ hmem (.cursor y) (by simp) c y rfl rfl
      | _ => exact ih hpre hmem
    · cases mem_singleton.mp hmem
      exact le_rfl

/-- What is on disk replays to a prefix of the log: the events 1 to `m` and no others, a recovery
that succeeds on them, and a cursor below every height whose events are missing. -/
def ReplaysPrefix (sha : List Byte → Bytes32) (rules : OwedLedgerRules) (chain : U32)
    (commits : List Commit) (img : Option (List Byte)) : Prop :=
  ∃ kv m st, load img = some kv ∧ m ≤ (eventsOf commits).length ∧
    ((withPrefix (kEvtPrefix chain) kv).map Prod.fst =
      (List.range m).map fun i => (Key.evt (Fin.ofNat (2 ^ 64) (i + 1))).bytes chain) ∧
    recover sha rules chain kv = some (st, replay sha rules ((eventsOf commits).take m)) ∧
    st.maxEventSeq.val = m ∧
    ∀ x ∈ eventsOf commits, ∀ h, x.2.2 = some h → h ≤ st.finalizeCursorHeight → x.1.val ≤ m

theorem Logged.keys (h : Logged commits) :
    (eventsOf commits).map (fun x => (Key.evt x.1).bytes chain) =
      (List.range (eventsOf commits).length).map fun i =>
        (Key.evt (Fin.ofNat (2 ^ 64) (i + 1))).bytes chain := by
  apply ext_getElem
  · simp
  intro i hi hi'
  have hlt : i < (eventsOf commits).length := by simpa using hi
  have hseq := h.numbered i _ (getElem?_eq_getElem hlt)
  have hfin : (eventsOf commits)[i].1 = Fin.ofNat (2 ^ 64) (i + 1) := by
    apply Fin.ext
    show _ = (i + 1) % 2 ^ 64
    omega
  simp [hfin]

theorem Logged.length_lt (h : Logged commits) : (eventsOf commits).length < 2 ^ 64 := by
  rcases Nat.eq_zero_or_pos (eventsOf commits).length with hzero | hpos
  · omega
  have hlast : (eventsOf commits).length - 1 < (eventsOf commits).length := by omega
  have hseq := h.numbered _ _ (getElem?_eq_getElem hlast)
  omega

theorem Logged.replaysPrefix (h : Logged commits) (hsized : ∀ c ∈ commits, c.Sized chain)
    (oks : Nat → Bool) :
    ReplaysPrefix sha rules chain commits (storeAfter chain oks commits).img := by
  obtain ⟨j, hj, himg⟩ := exists_flushed chain oks commits
  have hload : load (storeAfter chain oks commits).img = some (kvAfter chain (commits.take j)) := by
    rcases himg with himg | ⟨rfl, himg⟩
    · rw [himg]
      exact load_image (kvFits_kvAfter fun c hc => hsized c (mem_of_mem_take hc))
    · rw [himg]
      rfl
  have hlog := h.take j
  obtain ⟨st, hrecover, -, hcursor, hseq⟩ := @recover_kvAfter sha rules chain _ hlog
  refine ⟨_, (eventsOf (commits.take j)).length, st, hload,
    (eventsOf_take_isPrefix commits j).length_le, ?_, ?_, ?_, ?_⟩
  · rw [hlog.withPrefix_kvAfter, map_map]
    exact hlog.keys
  · rw [← eventsOf_take]
    exact hrecover
  · rw [hseq]
    exact Nat.mod_eq_of_lt hlog.length_lt
  · intro x hx height hstepped hle
    have hsplit : x ∈ eventsOf (commits.take j) ++ eventsOf (commits.drop j) := by
      rw [← eventsOf_append, take_append_drop]
      exact hx
    rcases mem_append.mp hsplit with hbefore | hafter
    · exact (hlog.mem_seq hbefore).1
    -- the cursor on disk was committed before the event, and is below its height
    rw [hcursor] at hle
    obtain ⟨seq, e, stepped⟩ := x
    have hevent : Commit.event seq e stepped ∈ commits.drop j := by
      obtain ⟨c, hc, heq⟩ := mem_filterMap.mp hafter
      cases c with
      | event seq' e' stepped' => cases heq; exact hc
      | _ => cases heq
    rcases lastCursor_mem (commits.take j) with hzero | hmem
    · have hpos := h.positive _ hx height hstepped
      rw [hzero] at hle
      exact absurd hpos (not_lt.mpr hle)
    have hpair := h.stepped
    rw [← take_append_drop j commits, pairwise_append] at hpair
    have hlt := hpair.2.2 _ hmem _ hevent _ seq e height rfl (by rw [← hstepped])
    exact absurd hlt (not_lt.mpr hle)

end Recover

end C2Pool.V37.Btc
