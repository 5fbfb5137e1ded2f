import C2Pool.Lib.SortedMap
import C2Pool.V37.Merkle

/-! # The frame vault

`frame_vault.hpp`: the frames that a node keeps, found by the hash of their carrier and served in
chunks under a budget of frames and of bytes. A chunk says how far it came, and the next one is
asked for from there.
-/

namespace C2Pool.V37

open List

structure FrameVault.Entry where
  hash : Bytes32
  frame : List Byte

/-- `FrameVault` for the serving of frames: `m_opt.enabled`, the queue, the slot of its front and
the slots by hash.  A vault that is off holds nothing. -/
structure FrameVault where
  enabled : Bool := true
  q : List FrameVault.Entry := []
  base : Nat := 0
  byHash : SortedMap Bytes32 Nat := ∅
  off_empty : enabled = false → q = [] := by simp

structure VaultServeChunk where
  cursor : Nat := 0
  truncated : Bool := false
  unservable : List Bytes32 := []

namespace FrameVault

/-- `entry_locked`. -/
def entryLocked (v : FrameVault) (slot : Nat) : Option Entry :=
  if slot < v.base then none else v.q[slot - v.base]?

def held (v : FrameVault) (id : Bytes32) : Option (List Byte) :=
  (v.byHash.lookup id).bind fun slot => (v.entryLocked slot).map Entry.frame

/-- The loop of `serve_frames_chunk`: the answer, the bytes and the frames so far. -/
structure Serving where
  r : VaultServeChunk := {}
  acc : Nat := 0
  out : List (Bytes32 × List Byte) := []

variable (v : FrameVault) (maxFrames maxBytes : Nat) {ids : List Bytes32}

def serveFrom : List Bytes32 → Serving → Serving
  | [], s => s
  | id :: ids, s =>
    if maxFrames ≤ s.out.length then { s with r := { s.r with truncated := true } }
    else
      match v.held id with
      | none => serveFrom ids { s with r := { s.r with cursor := s.r.cursor + 1 } }
      | some frame =>
        if maxBytes < frame.length then
          serveFrom ids
            { s with
              r := { s.r with
                unservable := s.r.unservable ++ [id], cursor := s.r.cursor + 1 } }
        else if maxBytes < s.acc + frame.length then
          { s with r := { s.r with truncated := true } }
        else
          serveFrom ids
            { r := { s.r with cursor := s.r.cursor + 1 }
              acc := s.acc + frame.length
              out := s.out ++ [(id, frame)] }

def serveFramesChunk (ids : List Bytes32) : VaultServeChunk × List (Bytes32 × List Byte) :=
  if v.enabled then
    let s := serveFrom v maxFrames maxBytes ids {}
    (if ids.length ≤ s.r.cursor then { s.r with truncated := false } else s.r, s.out)
  else ({ cursor := ids.length }, [])

/-- A client that asks for the rest of its list until nothing is left, for at most `n` calls; with
what is left then. -/
def fetch : Nat → List Bytes32 →
    List (VaultServeChunk × List (Bytes32 × List Byte)) × List Bytes32
  | 0, ids => ([], ids)
  | _ + 1, [] => ([], [])
  | n + 1, id :: ids =>
    let chunk := serveFramesChunk v maxFrames maxBytes (id :: ids)
    let rest := fetch n ((id :: ids).drop chunk.1.cursor)
    (chunk :: rest.1, rest.2)

def servable (ids : List Bytes32) : List (Bytes32 × List Byte) :=
  ids.filterMap fun id => (v.held id).bind fun frame =>
    if frame.length ≤ maxBytes then some (id, frame) else none

def oversized (ids : List Bytes32) : List Bytes32 :=
  ids.filter fun id => (v.held id).any fun frame => maxBytes < frame.length

variable {v maxFrames maxBytes}

/-- A chunk within its budgets. -/
structure Serving.Within (maxFrames maxBytes : Nat) (s : Serving) : Prop where
  frames : s.out.length ≤ maxFrames
  bytes : s.acc ≤ maxBytes
  sum : (s.out.map fun e => e.2.length).sum = s.acc

/-- From `s` to `s'` exactly the ids `pre` are passed, each with what it has to give. -/
structure Served (v : FrameVault) (maxBytes : Nat) (pre : List Bytes32) (s s' : Serving) :
    Prop where
  cursor : s'.r.cursor = s.r.cursor + pre.length
  out : s'.out = s.out ++ servable v maxBytes pre
  unservable : s'.r.unservable = s.r.unservable ++ oversized v maxBytes pre

theorem Served.nil {s s' : Serving} (hcursor : s'.r.cursor = s.r.cursor) (hout : s'.out = s.out)
    (hunservable : s'.r.unservable = s.r.unservable) : Served v maxBytes [] s s' :=
  ⟨hcursor, hout.trans (append_nil _).symm, hunservable.trans (append_nil _).symm⟩

theorem Served.cons {id : Bytes32} {pre : List Bytes32} {s s₁ s' : Serving}
    (h : Served v maxBytes [id] s s₁) (h' : Served v maxBytes pre s₁ s') :
    Served v maxBytes (id :: pre) s s' := by
  refine ⟨?_, ?_, ?_⟩
  · rw [h'.cursor, h.cursor, length_singleton, length_cons]
    omega
  · rw [h'.out, h.out, append_assoc, servable, servable, servable, ← filterMap_append,
      singleton_append]
  · rw [h'.unservable, h.unservable, append_assoc, oversized, oversized, oversized,
      ← filter_append, singleton_append]

theorem serveFrom_spec {s : Serving} (h : s.Within maxFrames maxBytes) :
    (serveFrom v maxFrames maxBytes ids s).Within maxFrames maxBytes ∧
      ∃ pre, pre <+: ids ∧ Served v maxBytes pre s (serveFrom v maxFrames maxBytes ids s) ∧
        (ids ≠ [] → s.out = [] → 0 < maxFrames → pre ≠ []) := by
  induction ids generalizing s with
  | nil => exact ⟨h, [], nil_prefix, Served.nil rfl rfl rfl, fun hne => absurd rfl hne⟩
  | cons id ids ih =>
    have hpass : ∀ {s₁ : Serving}, s₁.Within maxFrames maxBytes → Served v maxBytes [id] s s₁ →
        (serveFrom v maxFrames maxBytes ids s₁).Within maxFrames maxBytes ∧
          ∃ pre, pre <+: id :: ids ∧
            Served v maxBytes pre s (serveFrom v maxFrames maxBytes ids s₁) ∧
            (id :: ids ≠ [] → s.out = [] → 0 < maxFrames → pre ≠ []) := by
      intro s₁ hwithin hserved
      obtain ⟨hwithin', pre, hpre, hrest, -⟩ := ih hwithin
      exact ⟨hwithin', id :: pre, (cons_prefix_cons).mpr ⟨rfl, hpre⟩, hserved.cons hrest,
        fun _ _ _ => cons_ne_nil id pre⟩
    rw [serveFrom]
    split
    · rename_i hfull
      refine ⟨{ h with }, [], nil_prefix, Served.nil rfl rfl rfl, ?_⟩
      intro _ hnil hpos
      rw [hnil, length_nil] at hfull
      omega
    rename_i hroom
    split
    · rename_i hnone
      apply hpass
      · exact { h with }
      · exact ⟨rfl, by simp [servable, hnone], by simp [oversized, hnone]⟩
    rename_i frame hsome
    split
    · rename_i hover
      apply hpass
      · exact { h with }
      · exact ⟨rfl, by simp [servable, hsome, hover], by simp [oversized, hsome, hover]⟩
    rename_i hfits
    have hle := Nat.le_of_not_lt hfits
    split
    · rename_i hlong
      refine ⟨{ h with }, [], nil_prefix, Served.nil rfl rfl rfl, ?_⟩
      intro _ hnil _
      have hzero := h.sum
      rw [hnil] at hzero
      simp only [map_nil, sum_nil] at hzero
      omega
    rename_i hshort
    apply hpass
    · refine ⟨?_, Nat.le_of_not_lt hshort, ?_⟩
      · rw [length_append, length_singleton]
        omega
      · simp [h.sum]
    · exact ⟨rfl, by simp [servable, hsome, hle], by simp [oversized, hsome, hle]⟩

theorem serveFramesChunk_spec (hne : ids ≠ []) (hframes : 0 < maxFrames) :
    let chunk := serveFramesChunk v maxFrames maxBytes ids
    chunk.2.length ≤ maxFrames ∧ (chunk.2.map fun e => e.2.length).sum ≤ maxBytes ∧
      0 < chunk.1.cursor ∧ chunk.2 = servable v maxBytes (ids.take chunk.1.cursor) ∧
      chunk.1.unservable = oversized v maxBytes (ids.take chunk.1.cursor) := by
  intro chunk
  by_cases henabled : v.enabled = true
  · obtain ⟨hwithin, pre, hpre, hserved, hsome⟩ :=
      @serveFrom_spec v maxFrames maxBytes ids {} ⟨Nat.zero_le _, Nat.zero_le _, rfl⟩
    have hchunk : chunk.2 = (serveFrom v maxFrames maxBytes ids {}).out ∧
        chunk.1.cursor = pre.length ∧
        chunk.1.unservable = (serveFrom v maxFrames maxBytes ids {}).r.unservable := by
      have hcursor : (serveFrom v maxFrames maxBytes ids {}).r.cursor = pre.length := by
        rw [hserved.cursor]
        exact Nat.zero_add _
      dsimp only [chunk]
      rw [serveFramesChunk, if_pos henabled]
      dsimp only
      split <;> exact ⟨rfl, hcursor, rfl⟩
    have htake : ids.take pre.length = pre := (prefix_iff_eq_take.mp hpre).symm
    obtain ⟨hout, hcursor, hunservable⟩ := hchunk
    rw [hout, hcursor, hunservable, htake]
    exact ⟨hwithin.frames, hwithin.sum.trans_le hwithin.bytes,
      length_pos_iff.mpr (hsome hne rfl hframes), hserved.out, hserved.unservable⟩
  have hnone : ∀ id, v.held id = none := by
    intro id
    have hq := v.off_empty (Bool.eq_false_iff.mpr henabled)
    cases hslot : v.byHash.lookup id with
    | none => simp [held, hslot]
    | some slot => simp [held, hslot, entryLocked, hq]
  have hchunk : chunk = ({ cursor := ids.length }, []) := if_neg henabled
  rw [hchunk]
  exact ⟨Nat.zero_le _, Nat.zero_le _, length_pos_iff.mpr hne,
    by simp [servable, hnone], by simp [oversized, hnone]⟩

/-- A fetch of `ids` that is done: within as many calls as there are ids and within the budgets of
each call, every frame that the budget can carry, in the order of the list, and every oversized
one named. -/
structure Fetched (v : FrameVault) (maxFrames maxBytes : Nat) (ids : List Bytes32)
    (res : List (VaultServeChunk × List (Bytes32 × List Byte)) × List Bytes32) : Prop where
  done : res.2 = []
  calls : res.1.length ≤ ids.length
  budgets : ∀ c ∈ res.1, c.2.length ≤ maxFrames ∧ (c.2.map fun e => e.2.length).sum ≤ maxBytes
  frames : res.1.flatMap Prod.snd = servable v maxBytes ids
  unservable : res.1.flatMap (fun c => c.1.unservable) = oversized v maxBytes ids

theorem fetched_nil : Fetched v maxFrames maxBytes [] ([], []) :=
  ⟨rfl, le_rfl, fun _ hc => absurd hc not_mem_nil, rfl, rfl⟩

theorem fetched_fetch (hframes : 1 ≤ maxFrames) {n : Nat} (hlen : ids.length ≤ n) :
    Fetched v maxFrames maxBytes ids (fetch v maxFrames maxBytes n ids) := by
  induction n generalizing ids with
  | zero =>
    rw [length_eq_zero_iff.mp (Nat.le_zero.mp hlen)]
    exact fetched_nil
  | succ n ih =>
    cases ids with
    | nil => exact fetched_nil
    | cons id ids =>
      obtain ⟨hcount, hbytes, hpos, hout, hlarge⟩ :=
        @serveFramesChunk_spec v maxFrames maxBytes _ (cons_ne_nil id ids) hframes
      rw [fetch]
      generalize serveFramesChunk v maxFrames maxBytes (id :: ids) = chunk at *
      have hshort : ((id :: ids).drop chunk.1.cursor).length < (id :: ids).length := by
        rw [length_drop, length_cons]
        omega
      have hrest := @ih ((id :: ids).drop chunk.1.cursor) (by omega)
      refine ⟨hrest.done, (Nat.succ_le_succ hrest.calls).trans hshort, ?_, ?_, ?_⟩
      · intro c hc
        rcases mem_cons.mp hc with rfl | hc
        · exact ⟨hcount, hbytes⟩
        · exact hrest.budgets c hc
      · rw [flatMap_cons, hrest.frames, hout, servable, servable, ← filterMap_append,
          take_append_drop, servable]
      · rw [flatMap_cons, hrest.unservable, hlarge, oversized, oversized, ← filter_append,
          take_append_drop, oversized]

/-- Whatever the vault holds, a client that asks for the rest of its list until nothing is left
is done after at most as many calls as the list has ids. -/
theorem fetch_complete (v : FrameVault) {maxFrames : Nat} (hframes : 1 ≤ maxFrames) (maxBytes : Nat)
    (ids : List Bytes32) :
    Fetched v maxFrames maxBytes ids (fetch v maxFrames maxBytes ids.length ids) :=
  fetched_fetch hframes le_rfl

def twoFrames : FrameVault where
  q := [⟨1, [0, 0]⟩, ⟨2, [0, 0, 0, 0]⟩]
  byHash := (SortedMap.insert ∅ 1 0).insert 2 1

theorem fetch_complete_twoFrames :
    let res := fetch twoFrames 1 3 4 [1, 2, 3, 1]
    res.1.length = 2 ∧ res.1.flatMap Prod.snd = [(1, [0, 0]), (1, [0, 0])] ∧
      res.1.flatMap (fun c => c.1.unservable) = [2] := by
  have h := fetch_complete twoFrames (le_refl 1) 3 [1, 2, 3, 1]
  exact ⟨by decide +kernel, h.frames.trans (by decide +kernel),
    h.unservable.trans (by decide +kernel)⟩

end FrameVault

end C2Pool.V37
