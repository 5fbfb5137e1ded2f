import C2Pool.V37.Recovery

/-! # Event logs and their replay

A log holds the events of a chain under their sequence numbers, from 1 on.
Replaying it calls the ledger with the logged arguments, so a log of the calls
that moved a ledger brings the same ledger back, heads included.
-/

namespace C2Pool.V37

open List

variable {sha : List Byte → Bytes32} {evs : List EventRec} {levt : SortedMap U64 (List Byte)}

namespace OwedLedger

/-- The record log has a leaf for each step of the sequence, and a peak for each bit of their
number. -/
structure Counted (l : OwedLedger) : Prop where
  leaves : l.evlog.leafCount = l.seq
  peaks : l.seq < 2 ^ 64 → l.evlog.peaks.peaks.length = Mmr.ones 64 l.seq

variable {l : OwedLedger} {rules : OwedLedgerRules} {bid : Bid} {calls : List LedgerCall}

theorem Counted.of_append {l' : OwedLedger} (h : l.Counted) {leaf : List Byte}
    (hlog : l'.evlog = l.evlog.append sha leaf) (hseq : l'.seq = l.seq + 1) : l'.Counted := by
  constructor
  · rw [hlog, hseq]
    exact congrArg (· + 1) h.leaves
  intro hlt
  have hlen := h.peaks (by omega)
  have hcount : l.evlog.peaks.leafCount = l.seq := h.leaves
  rw [hlog]
  show (Mmr.mergeUp (interiorHash sha) _ _ _ _).reverse.length = _
  have hrounds : l.evlog.peaks.peaks.length = l.evlog.peaks.peaks.reverse.length :=
    length_reverse.symm
  rw [hrounds] at hlen
  rw [length_reverse, hcount, hrounds, Mmr.length_mergeUp _ hlen (by omega), hseq]

theorem Counted.call (h : l.Counted) (c : LedgerCall) : (l.call sha rules c).Counted := by
  obtain heq | ⟨_, _, _, _, _, heq⟩ | ⟨_, _, _, _, _, heq⟩ | ⟨_, _, _, _, _, heq⟩ |
      ⟨bid, settledPayout, _, _, _, heq⟩ := @call_cases sha rules l c
  · rw [heq]
    exact h
  · rw [heq]
    exact h.of_append rfl rfl
  · rw [heq]
    exact h.of_append rfl rfl
  · rw [heq]
    exact h.of_append rfl rfl
  · rw [heq]
    apply h.of_append
    · unfold noteResidual
      split <;> rfl
    show (noteResidual _ _ _).seq + 1 = _
    unfold noteResidual
    split <;> rfl

theorem counted_run (h : l.Counted)
    (calls : List LedgerCall) : (Run.run (call sha rules) l calls).Counted := by
  induction calls generalizing l with
  | nil => exact h
  | cons c calls ih => exact ih (h.call c)

theorem counted_empty : ({} : OwedLedger).Counted := by
  constructor
  · rfl
  intro _
  show 0 = Mmr.ones 64 0
  rw [Mmr.ones_zero]

theorem counted_after (rules : OwedLedgerRules) (calls : List LedgerCall) :
    (after sha rules calls).Counted := counted_run counted_empty calls

def Knows (l : OwedLedger) (bid : Bid) : Prop := l.pending.lookup bid ≠ none ∨ bid ∈ l.settled

theorem knows_iff : l.Knows bid ↔ l.isPending bid = true ∨ l.isSettled bid = true := by
  unfold Knows isPending isSettled
  rw [Option.isSome_iff_ne_none, decide_eq_true_eq]

theorem Knows.of_call {c : LedgerCall}
    (h : (l.call sha rules c).Knows bid) : l.Knows bid ∨ ∃ args, c = .found bid args := by
  obtain heq | ⟨b, args, hc, _, _, heq⟩ | ⟨b, binHeight, p, hc, hp, heq⟩ |
      ⟨b, settledPayout, p, hc, hp, heq⟩ | ⟨b, settledPayout, _, _, _, heq⟩ :=
    @call_cases sha rules l c
  · rw [heq] at h
    exact .inl h
  · rw [heq] at h
    by_cases hb : bid = b
    · exact .inr ⟨args, by rw [hc, hb]⟩
    left
    rcases h with h | h
    · left
      simpa only [bump, SortedMap.lookup_insert, if_neg hb] using h
    · exact .inr h
  · rw [heq] at h
    left
    rcases h with h | h
    · left
      simp only [bump, SortedMap.lookup_erase] at h
      split at h
      · exact (h rfl).elim
      · exact h
    rcases Finset.mem_insert.mp h with rfl | h
    · left
      rw [hp]
      simp
    · exact .inr h
  · rw [heq] at h
    left
    rcases h with h | h
    · left
      simp only [bump, SortedMap.lookup_erase] at h
      split at h
      · exact (h rfl).elim
      · exact h
    · exact .inr h
  · rw [heq] at h
    left
    unfold noteResidual at h
    split at h <;> exact h

theorem knows_run (h : (Run.run (call sha rules) l calls).Knows bid) :
    l.Knows bid ∨ ∃ args, LedgerCall.found bid args ∈ calls := by
  induction calls generalizing l with
  | nil => exact .inl h
  | cons c calls ih =>
    rcases ih h with hl | ⟨args, hmem⟩
    · rcases hl.of_call with hl | ⟨args, rfl⟩
      · exact .inl hl
      · exact .inr ⟨args, mem_cons_self⟩
    · exact .inr ⟨args, mem_cons_of_mem c hmem⟩

theorem knows_after
    (h : (after sha rules calls).Knows bid) : ∃ args, LedgerCall.found bid args ∈ calls := by
  rcases knows_run h with h | h
  · rcases h with h | h
    · exact (h rfl).elim
    · cases h
  · exact h

end OwedLedger

/-- The stored events decode to a list of events under their own numbers, from 1 on. -/
structure Logs (levt : SortedMap U64 (List Byte)) (evs : List EventRec) : Prop where
  decoded : (levt.entries.map fun e => (e.1, decodeEvent e.2)) = evs.map fun e => (e.seq, some e)
  numbered : (evs.map fun e => e.seq.val) = List.range' 1 evs.length

def replayed (sha : List Byte → Bytes32) (evs : List EventRec) : OwedLedger :=
  OwedLedger.after sha {} (evs.map EventRec.toCall)

def foundPayouts (evs : List EventRec) : SortedMap Bid Amounts :=
  evs.foldl (fun m e => if e.evkind = .found then m.insert e.bid e.payout else m) ∅

theorem Logs.empty : Logs ∅ [] := ⟨rfl, rfl⟩

theorem Logs.insert (h : Logs levt evs) {e : EventRec} (hseq : e.seq.val = evs.length + 1)
    {v : List Byte} (hv : decodeEvent v = some e) : Logs (levt.insert e.seq v) (evs ++ [e]) := by
  have hlast : ∀ x ∈ levt.entries, x.1 < e.seq := by
    intro x hx
    have hmem : (x.1, decodeEvent x.2) ∈ evs.map fun e => (e.seq, some e) := by
      rw [← h.decoded]
      exact mem_map_of_mem hx
    obtain ⟨e', he', heq⟩ := mem_map.mp hmem
    have hnum : e'.seq.val ∈ List.range' 1 evs.length := by
      rw [← h.numbered]
      exact mem_map_of_mem he'
    rw [mem_range'_1] at hnum
    have hkey : e'.seq = x.1 := congrArg Prod.fst heq
    rw [← hkey, Fin.lt_def, hseq]
    omega
  constructor
  · rw [SortedMap.entries_insert_of_last hlast, map_append, h.decoded, map_append,
      map_singleton, map_singleton, hv]
  · rw [map_append, h.numbered, map_singleton, hseq, length_append,
      length_singleton, List.range'_concat, Nat.add_comm 1, Nat.one_mul]

theorem replayEvents_eq {c : U32} {entries : List (U64 × List Byte)} {evs : List EventRec}
    (hdec : (entries.map fun e => (e.1, decodeEvent e.2)) = evs.map fun e => (e.seq, some e))
    {n : Nat} (hnum : (evs.map fun e => e.seq.val) = List.range' (n + 1) evs.length)
    (s : OwedLedger × SortedMap Bid Amounts) :
    replayEvents sha c entries n s = .ok (n + evs.length,
      Run.run (OwedLedger.call sha {}) s.1 (evs.map EventRec.toCall),
      evs.foldl (fun m e => if e.evkind = .found then m.insert e.bid e.payout else m) s.2) := by
  induction evs generalizing entries n s with
  | nil =>
    rw [map_nil, map_eq_nil_iff] at hdec
    rw [hdec]
    rfl
  | cons e evs ih =>
    cases entries with
    | nil => cases hdec
    | cons entry entries =>
      simp only [map_cons, List.cons.injEq, Prod.mk.injEq] at hdec
      simp only [map_cons, length_cons, List.range'_succ, List.cons.injEq] at hnum
      unfold replayEvents
      simp only [hdec.1.2]
      rw [if_neg (not_not.mpr hnum.1), ih hdec.2 hnum.2]
      simp only [map_cons, Run.run_cons, foldl_cons, length_cons]
      congr 2
      omega

theorem Logs.replayEvents_eq {evs : List EventRec}
    (h : Logs levt evs) (c : U32) : replayEvents sha c levt.entries 0 ({}, ∅) =
      .ok (evs.length, replayed sha evs, foundPayouts evs) := by
  have heq := @V37.replayEvents_eq sha c levt.entries evs h.decoded 0 h.numbered ({}, ∅)
  rwa [Nat.zero_add] at heq

theorem replayed_append (evs : List EventRec) (e : EventRec) :
    replayed sha (evs ++ [e]) = (replayed sha evs).call sha {} e.toCall := by
  unfold replayed OwedLedger.after
  rw [map_append, Run.run_append]
  rfl

theorem exists_found_of_knows {bid : Bid}
    (h : (replayed sha evs).Knows bid) : ∃ e ∈ evs, e.evkind = .found ∧ e.bid = bid := by
  obtain ⟨args, hmem⟩ := OwedLedger.knows_after h
  obtain ⟨e, he, heq⟩ := mem_map.mp hmem
  refine ⟨e, he, ?_⟩
  unfold EventRec.toCall at heq
  cases hkind : e.evkind with
  | found =>
    rw [hkind] at heq
    exact ⟨rfl, (LedgerCall.found.inj heq).1⟩
  | finalize =>
    rw [hkind] at heq
    cases heq
  | orphan =>
    rw [hkind] at heq
    cases heq

theorem counted_replayed (evs : List EventRec) : (replayed sha evs).Counted :=
  OwedLedger.counted_after {} _

theorem decodeLmmr_lmmrOf {l : OwedLedger} (h : l.Counted) (hlt : l.seq < 2 ^ 64) (bootId : U64) :
    decodeLmmr (encodeLmmr (lmmrOf sha l bootId)) = some (lmmrOf sha l bootId) := by
  apply decodeLmmr_encodeLmmr
  unfold lmmrOf popcount
  rw [h.peaks hlt, h.leaves]
  simp only [Fin.ofNat]
  rw [Nat.mod_eq_of_lt hlt]

end C2Pool.V37
