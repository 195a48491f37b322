import Mathlib.Data.List.Forall2
import Sunrise.Relay.Log

/-!
# The ring beside the log

Beside the durable log every channel has a ring of its recent frames in memory, with
watermarks of its own for what fell out of it. The ring filters a subscriber's replay by the
sequences of the batch, the log by the signed columns it stored them in, and the two read an
absent cursor differently. Dropping the same frames they answer alike for the batches whose
sequences run from one to the last signed number, and for no others.

## Main results

* `relay_log_mirrors_iff` — no run loses an op in silence, and the ring mirrors the log
  throughout exactly when every batch is in range.
-/

namespace Sunrise

open Watermarks RelayStore

/-! ### The ring -/

/-- Bounds for a channel's retained-frame ring. -/
structure RingCaps where
  maxFrames : ℕ
  maxBytes : ℕ
deriving DecidableEq

/-- One frame as the hub routes it. -/
structure RelayFrame where
  bytes : Bytes
  nOps : ℕ
  heads : List FrameHead
deriving DecidableEq

namespace RelayFrame

/-- The heads, as the watermarks are raised by them. -/
def marks (f : RelayFrame) : List (Bytes × ℕ) := f.heads.map fun h => (h.deviceId, h.maxSeq)

/-- Every device head in the frame is already covered; a device without a cursor is at 0. -/
def coveredBy (f : RelayFrame) (cs : Cursors) : Bool :=
  !f.heads.isEmpty && f.heads.all fun h => decide (h.maxSeq ≤ cs.seqOf h.deviceId)

end RelayFrame

/-- A channel's ring, and what has fallen out of it. -/
structure RingChannel where
  retained : List RelayFrame
  retainedBytes : ℕ
  evictedThrough : Watermarks

namespace RingChannel

def empty : RingChannel := ⟨[], 0, ∅⟩

/-- Drop the oldest frames until the rest is within the caps. -/
def trim (caps : RingCaps) : List RelayFrame → ℕ → Watermarks → RingChannel
  | [], n, marks => ⟨[], n, marks⟩
  | f :: rest, n, marks =>
    if caps.maxFrames < (f :: rest).length ∨ caps.maxBytes < n ∧ 1 < (f :: rest).length then
      trim caps rest (n - f.bytes.length) (raiseAll marks f.marks)
    else ⟨f :: rest, n, marks⟩

/-- Append a frame, then evict oldest until within the caps. -/
def pushRetained (ch : RingChannel) (f : RelayFrame) (caps : RingCaps) : RingChannel :=
  trim caps (ch.retained ++ [f]) (ch.retainedBytes + f.bytes.length) ch.evictedThrough

/-- The retained frames a subscriber's cursors do not cover, and its gaps. -/
def subscribe (ch : RingChannel) (cs : Cursors) : List RelayFrame × List CursorGap :=
  (ch.retained.filter fun f => !f.coveredBy cs, gapsFor ch.evictedThrough cs)

theorem trim_spec (caps : RingCaps) (fs : List RelayFrame) (n : ℕ) (marks : Watermarks) :
    ∃ k ≤ fs.length, (trim caps fs n marks).retained = fs.drop k ∧
      (trim caps fs n marks).evictedThrough =
        raiseAll marks ((fs.take k).flatMap RelayFrame.marks) := by
  induction fs generalizing n marks with
  | nil => exact ⟨0, le_rfl, rfl, rfl⟩
  | cons f rest ih =>
    rw [trim]
    split
    · obtain ⟨k, hk, hret, hmarks⟩ := ih (n - f.bytes.length) (raiseAll marks f.marks)
      refine ⟨k + 1, Nat.succ_le_succ hk, hret, ?_⟩
      rw [hmarks, List.take_succ_cons, List.flatMap_cons, raiseAll_append]
    · exact ⟨0, Nat.zero_le _, rfl, rfl⟩

theorem evictedThrough_of_drop {ch : RingChannel} {f : RelayFrame} {caps : RingCaps} {k : ℕ}
    (hk : k ≤ (ch.retained ++ [f]).length)
    (h : (ch.pushRetained f caps).retained = (ch.retained ++ [f]).drop k) :
    (ch.pushRetained f caps).evictedThrough =
      raiseAll ch.evictedThrough
        (((ch.retained ++ [f]).take k).flatMap RelayFrame.marks) := by
  obtain ⟨k', hk', hret, hmarks⟩ := trim_spec caps (ch.retained ++ [f])
    (ch.retainedBytes + f.bytes.length) ch.evictedThrough
  have hlen := congrArg List.length (hret.symm.trans h)
  rw [List.length_drop, List.length_drop] at hlen
  have hkk : k' = k := by omega
  rw [pushRetained, hmarks, hkk]

end RingChannel

/-! ### The server -/

/-- The relay: the durable log, the rings beside it, and what it has acked, oldest first. -/
structure Relay (H : Type) where
  log : RelayStore H
  rings : StreamKey → RingChannel
  acks : List (Publish × Appended)

open Relay

section
variable {H : Type} (c : RelayCodec H)

/-- The frame a fresh batch is fanned out as. -/
def Publish.ringFrame (p : Publish) : RelayFrame where
  bytes := p.frame c
  nOps := p.batch.ops.length
  heads := frameHeads c p.batch

/-- Publish one batch: durable first, and only a fresh batch is fanned out. -/
def Relay.publish [DecidableEq H] (σ : Relay H) (p : Publish) (ring : RingCaps) : Relay H where
  log := (σ.log.publish c p).1
  rings :=
    match (σ.log.publish c p).2 with
    | .fresh _ _ =>
      Function.update σ.rings p.key ((σ.rings p.key).pushRetained (p.ringFrame c) ring)
    | .duplicate _ => σ.rings
  acks := σ.acks ++ [(p, (σ.log.publish c p).2)]

/-- A server that has seen nothing. -/
def Relay.init : Relay H := ⟨RelayStore.empty, fun _ => RingChannel.empty, []⟩

/-- A run: any batches for any channels, under any retention and ring bounds. -/
def Relay.run [DecidableEq H] (ps : List (Publish × RingCaps)) : Relay H :=
  ps.foldl (fun σ p => σ.publish c p.1 p.2) init

theorem Relay.run_concat [DecidableEq H] (ps : List (Publish × RingCaps))
    (p : Publish × RingCaps) :
    Relay.run c (ps ++ [p]) = (Relay.run c ps).publish c p.1 p.2 := by
  rw [run, List.foldl_concat]
  rfl

end

/-- The batch was stored. -/
def Appended.isFresh : Appended → Bool
  | .fresh _ _ => true
  | .duplicate _ => false

/-- The last batch a channel stored. -/
def Relay.newest {H : Type} (σ : Relay H) (key : StreamKey) : Option Publish :=
  ((σ.acks.filter fun a => decide (a.1.key = key) && a.2.isFresh).getLast?).map (·.1)

/-! ### What a state is asked for -/

section
variable {H : Type} (c : RelayCodec H)

/-- Each op beyond the subscriber's cursor is in a frame it is sent, or in a gap it is told of. -/
def Complete (σ : Relay H) : Prop :=
  ∀ a ∈ σ.acks, ∀ op ∈ a.1.batch.ops, ∀ d n, c.header op = some (d, n) → n < 2 ^ 63 →
    ∀ cs : Cursors, cs.seqOf d < n →
      (∃ f ∈ (σ.log.relayReplayAfter a.1.key 0 cs).1, ∃ b ∈ σ.acks, b.1.key = a.1.key ∧
        op ∈ b.1.batch.ops ∧ f.bytes = b.1.frame c) ∨
      ∃ g ∈ (σ.log.relayReplayAfter a.1.key 0 cs).2, g.deviceId = d ∧ n ≤ g.evictedThrough

/-- A channel keeps the last frame it stored. -/
def NewestKept (σ : Relay H) : Prop :=
  ∀ key p, σ.newest key = some p →
    ∃ f, (σ.log.channel key).getLast? = some f ∧ f.bytes = p.frame c

/-- A channel's bytes are within the cap, or one frame exceeds it on its own. -/
def WithinCap (σ : Relay H) : Prop :=
  ∀ key p, σ.newest key = some p →
    ((σ.log.channel key).map (·.bytes.length)).sum ≤ p.caps.maxBytes ∨
      ∃ f, σ.log.channel key = [f] ∧ p.caps.maxBytes < f.bytes.length

/-- The ring gives every subscriber the frames and the gaps the log gives. -/
def Mirrors (σ : Relay H) : Prop :=
  ∀ key (cs : Cursors),
    ((σ.log.relayReplayAfter key 0 cs).1.map fun f => (f.bytes, f.nOps)) =
        (((σ.rings key).subscribe cs).1.map fun f => (f.bytes, f.nOps)) ∧
      (σ.log.relayReplayAfter key 0 cs).2 = ((σ.rings key).subscribe cs).2

/-- Storing a batch, the log and the ring drop equally many of the channel's oldest frames. -/
def SameStep [DecidableEq H] (σ : Relay H) (p : Publish × RingCaps) : Prop :=
  (σ.log.publish c p.1).2.isFresh = true →
    ∃ k ≤ (σ.log.channel p.1.key).length + 1,
      (σ.publish c p.1 p.2).log.channel p.1.key =
          ((σ.log.insert c p.1).channel p.1.key).drop k ∧
      ((σ.publish c p.1 p.2).rings p.1.key).retained =
          ((σ.rings p.1.key).retained ++ [p.1.ringFrame c]).drop k

/-- The log and the rings drop the same frames throughout the run. -/
def SameEvictions [DecidableEq H] (ps : List (Publish × RingCaps)) : Prop :=
  ∀ qs p, qs ++ [p] <+: ps → SameStep c (Relay.run c qs) p

/-- Every readable op of the batch is numbered from one to the last signed number. -/
def Publish.InRange (p : Publish) : Prop :=
  ∀ h ∈ frameHeads c p.batch, 1 ≤ h.maxSeq ∧ h.maxSeq < 2 ^ 63

instance (p : Publish) : Decidable (p.InRange c) :=
  inferInstanceAs (Decidable (∀ h ∈ frameHeads c p.batch, 1 ≤ h.maxSeq ∧ h.maxSeq < 2 ^ 63))

end

/-! ### One frame -/

variable {acks : List (Publish × Appended)} {fs : List RelayFrame} {s : RelayStore H} {σ : Relay H}
  {p : Publish} {through : Watermarks}

section
variable {H : Type} {c : RelayCodec H} {acks : List (Publish × Appended)}
  {fs : List RelayFrame} {s : RelayStore H} {σ : Relay H}

theorem mem_frameHeads {b : OpBatch} {h : FrameHead} :
    h ∈ frameHeads c b ↔
      (raiseAll ∅ (routes c b.ops)).find h.deviceId = some h.maxSeq := by
  constructor
  · intro hh
    obtain ⟨r, hr, rfl⟩ := List.mem_map.mp hh
    exact Table.mem_rows.mp hr
  · intro hh
    exact List.mem_map.mpr ⟨(h.deviceId, h.maxSeq), Table.mem_rows.mpr hh, rfl⟩

theorem maxSeq_lt {b : OpBatch} {h : FrameHead} (hh : h ∈ frameHeads c b) :
    h.maxSeq < 2 ^ 64 := by
  cases mem_of_find_raiseAll (mem_frameHeads.mp hh) with
  | inl hroute =>
    obtain ⟨op, _, hop⟩ := List.mem_filterMap.mp hroute
    exact c.seq_lt op _ _ hop
  | inr hempty => cases hempty

theorem row_heads_rows (p : Publish) (id : ℕ) :
    (p.row c id).heads.rows =
      (frameHeads c p.batch).map fun h => (h.deviceId, i64Of h.maxSeq) := by
  rw [Publish.row_heads, frameHeads, List.map_map]
  rfl

theorem covered_row (p : Publish) (id : ℕ) (cs : Cursors) :
    covered (p.row c id).heads.rows cs = true ↔ frameHeads c p.batch ≠ [] ∧
      ∀ h ∈ frameHeads c p.batch, ∃ n, cs.get h.deviceId = some n ∧ i64Of h.maxSeq ≤ n := by
  rw [covered_iff, row_heads_rows]
  simp

theorem coveredBy_ringFrame (p : Publish) (cs : Cursors) :
    (p.ringFrame c).coveredBy cs = true ↔ frameHeads c p.batch ≠ [] ∧
      ∀ h ∈ frameHeads c p.batch, h.maxSeq ≤ cs.seqOf h.deviceId := by
  unfold RelayFrame.coveredBy
  rw [Bool.and_eq_true, List.all_eq_true, Bool.not_eq_true', List.isEmpty_eq_false_iff]
  simp [Publish.ringFrame]

/-- A subscriber past everything but one device, where it says `n` or nothing. -/
def Cursors.past (d : Bytes) (n : Option ℕ) (hn : ∀ m, n = some m → m < 2 ^ 64) : Cursors where
  get e := if e = d then n else some (2 ^ 64 - 1)
  lt e m h := by
    split at h
    · exact hn m h
    · rw [← Option.some.inj h]
      decide

open Cursors

theorem Cursors.get_past_of_ne {d e : Bytes} {n : Option ℕ}
    {hn : ∀ m, n = some m → m < 2 ^ 64} (h : e ≠ d) :
    (past d n hn).get e = some (2 ^ 64 - 1) := if_neg h

section

variable {d : Bytes} {n : Option ℕ} {hn : ∀ m, n = some m → m < 2 ^ 64}

theorem Cursors.get_past_self :
    (past d n hn).get d = n := if_pos rfl

theorem Cursors.seqOf_past_self : (past d n hn).seqOf d = n.getD 0 := by
  rw [seqOf, get_past_self]

end

theorem eq_of_deviceId {b : OpBatch} {g h : FrameHead} (hg : g ∈ frameHeads c b)
    (hh : h ∈ frameHeads c b) (hd : g.deviceId = h.deviceId) : g = h := by
  have hfind := mem_frameHeads.mp hg
  rw [hd, mem_frameHeads.mp hh] at hfind
  obtain ⟨d, m⟩ := g
  obtain ⟨e, n⟩ := h
  simp only at hd hfind
  rw [hd, Option.some.inj hfind]

/-- **One frame is filtered alike for every subscriber exactly when it is in range.** A head of
0 is covered for the ring by no cursor at all; a head beyond the signed numbers is covered for
the log by the last of them. -/
theorem covered_agree_iff (p : Publish) (id : ℕ) :
    (∀ cs, covered (p.row c id).heads.rows cs = (p.ringFrame c).coveredBy cs) ↔
      p.InRange c := by
  constructor
  · intro hagree h hh
    have hne : frameHeads c p.batch ≠ [] := List.ne_nil_of_mem hh
    by_contra hbad
    rw [not_and_or, Nat.not_le, Nat.not_lt] at hbad
    cases hbad with
    | inl hzero =>
      let cs := past h.deviceId none (by simp)
      have hring : (p.ringFrame c).coveredBy cs = true := by
        refine (coveredBy_ringFrame p cs).mpr ⟨hne, fun g hg => ?_⟩
        by_cases hd : g.deviceId = h.deviceId
        · rw [eq_of_deviceId hg hh hd]
          omega
        · rw [seqOf, get_past_of_ne hd]
          exact Nat.le_sub_one_of_lt (maxSeq_lt hg)
      rw [← hagree cs] at hring
      obtain ⟨n, hn, _⟩ := ((covered_row p id cs).mp hring).2 h hh
      rw [get_past_self] at hn
      cases hn
    | inr hbig =>
      let cs := past h.deviceId (some storeMax) (by simp [storeMax])
      have hlog : covered (p.row c id).heads.rows cs = true := by
        refine (covered_row p id cs).mpr ⟨hne, fun g hg => ?_⟩
        by_cases hd : g.deviceId = h.deviceId
        · rw [hd]
          exact ⟨storeMax, get_past_self, i64Of_le _⟩
        · exact ⟨_, get_past_of_ne hd,
            le_trans (min_le_left _ _) (Nat.le_sub_one_of_lt (maxSeq_lt hg))⟩
      rw [hagree cs] at hlog
      have hle := ((coveredBy_ringFrame p cs).mp hlog).2 h hh
      have hat : cs.seqOf h.deviceId = storeMax := seqOf_past_self
      rw [hat, storeMax] at hle
      omega
  · intro hrange cs
    rw [Bool.eq_iff_iff, covered_row, coveredBy_ringFrame]
    refine and_congr_right fun _ => forall₂_congr fun h hh => ?_
    obtain ⟨hpos, hlt⟩ := hrange h hh
    have hclamp : i64Of h.maxSeq = h.maxSeq := i64Of_eq_self.mpr (by unfold storeMax; omega)
    rw [hclamp, seqOf]
    cases cs.get h.deviceId with
    | none => simp; omega
    | some n => simp

/-! ### The pair -/

/-- What the log and the ring of a channel hold of the same batches: the log's rows and
watermarks, and the ring's. -/
structure Paired (c : RelayCodec H) (acks : List (Publish × Appended)) (rows : List FrameRow)
    (marks : Watermarks) (fs : List RelayFrame) (through : Watermarks) : Prop where
  frames : List.Forall₂ (fun f g => ∃ a ∈ acks, f = a.1.row c f.id ∧ g = a.1.ringFrame c)
    rows fs
  marks : marks = through.mapValues fun _ n => i64Of n
  source : ∀ d n, through.find d = some n →
    ∃ a ∈ acks, (⟨d, n⟩ : FrameHead) ∈ frameHeads c a.1.batch

theorem Paired.mono {acks acks' : List (Publish × Appended)} {rows : List FrameRow}
    {marks : Watermarks}
    (h : Paired c acks rows marks fs through) (hsub : acks ⊆ acks') :
    Paired c acks' rows marks fs through where
  frames := h.frames.imp fun _ _ ⟨a, ha, hrest⟩ => ⟨a, hsub ha, hrest⟩
  marks := h.marks
  source := fun d n hd => by
    obtain ⟨a, ha, hmem⟩ := h.source d n hd
    exact ⟨a, hsub ha, hmem⟩

theorem Watermarks.mapValues_raise (t : Watermarks) (d : Bytes) (n : ℕ) :
    (raise t d n).mapValues (fun _ n => i64Of n) =
      raise (t.mapValues fun _ n => i64Of n) d (i64Of n) := by
  apply Table.ext_find
  intro e
  rw [Table.find_mapValues, find_raise, find_raise, Table.find_mapValues, Table.find_mapValues]
  by_cases he : e = d
  · rw [if_pos he, if_pos he]
    cases t.find d with
    | none => simp [i64Of]
    | some m => simp [i64Of, min_max_distrib_right]
  · rw [if_neg he, if_neg he]

theorem Watermarks.mapValues_raiseAll (t : Watermarks) (hs : List (Bytes × ℕ)) :
    (raiseAll t hs).mapValues (fun _ n => i64Of n) =
      raiseAll (t.mapValues fun _ n => i64Of n)
        (hs.map fun h => (h.1, i64Of h.2)) := by
  induction hs generalizing t with
  | nil => rfl
  | cons x hs ih => rw [raiseAll_cons, ih, mapValues_raise, List.map_cons, raiseAll_cons]

section

variable {rows : List FrameRow}
  (h : List.Forall₂ (fun f g => ∃ a ∈ acks, f = a.1.row c f.id ∧ g = a.1.ringFrame c) rows fs)
include h

theorem flatMap_heads :
    (rows.flatMap fun f => f.heads.rows) =
      (fs.flatMap RelayFrame.marks).map fun r => (r.1, i64Of r.2) := by
  induction h with
  | nil => rfl
  | cons hfg _ ih =>
    obtain ⟨a, _, hrow, hframe⟩ := hfg
    rw [List.flatMap_cons, List.flatMap_cons, List.map_append, ih]
    congr 1
    rw [hrow, row_heads_rows, hframe, RelayFrame.marks, Publish.ringFrame, List.map_map]
    rfl

theorem ringFrame_of_mem {g : RelayFrame} (hg : g ∈ fs) : ∃ a ∈ acks, g = a.1.ringFrame c := by
  induction h with
  | nil => cases hg
  | cons hfg _ ih =>
    cases List.mem_cons.mp hg with
    | inr hg => exact ih hg
    | inl heq =>
      obtain ⟨a, ha, _, hframe⟩ := hfg
      exact ⟨a, ha, heq.trans hframe⟩

end

theorem Paired.drop {rows : List FrameRow}
    {marks : Watermarks}
    (h : Paired c acks rows marks fs through) (k : ℕ) :
    Paired c acks (rows.drop k)
      (raiseAll marks ((rows.take k).flatMap fun f => f.heads.rows)) (fs.drop k)
      (raiseAll through ((fs.take k).flatMap RelayFrame.marks)) where
  frames := List.forall₂_drop k h.frames
  marks := by
    rw [mapValues_raiseAll, h.marks, flatMap_heads (List.forall₂_take k h.frames)]
  source := fun d n hd => by
    cases mem_of_find_raiseAll hd with
    | inr hold => exact h.source d n hold
    | inl hnew =>
      obtain ⟨g, hg, hmem⟩ := List.mem_flatMap.mp hnew
      obtain ⟨a, ha, rfl⟩ := ringFrame_of_mem h.frames (List.mem_of_mem_take hg)
      obtain ⟨x, hx, heq⟩ := List.mem_map.mp hmem
      obtain ⟨rfl, rfl⟩ := Prod.mk.inj heq
      exact ⟨a, ha, hx⟩

theorem Paired.mirrors {rows : List FrameRow}
    (h : List.Forall₂ (fun f g => ∃ a ∈ acks, f = a.1.row c f.id ∧ g = a.1.ringFrame c)
      rows fs) (hrange : ∀ a ∈ acks, a.1.InRange c) (cs : Cursors) :
    ((rows.filter fun f => !covered f.heads.rows cs).map fun f => (f.bytes, f.nOps)) =
      (fs.filter fun f => !f.coveredBy cs).map fun f => (f.bytes, f.nOps) := by
  induction h with
  | nil => rfl
  | @cons f g rows fs hfg _ ih =>
    obtain ⟨a, ha, hrow, hframe⟩ := hfg
    have hcov : covered f.heads.rows cs = g.coveredBy cs := by
      rw [hrow, hframe]
      exact (covered_agree_iff a.1 f.id).mpr (hrange a ha) cs
    have hsame : (f.bytes, f.nOps) = (g.bytes, g.nOps) := by
      have hops : i64Of a.1.batch.ops.length = a.1.batch.ops.length :=
        i64Of_eq_self.mpr (Nat.le_sub_one_of_lt a.1.batch.length_lt)
      rw [hrow, hframe]
      exact congrArg (Prod.mk _) hops
    rw [List.filter_cons, List.filter_cons, hcov]
    cases g.coveredBy cs with
    | true => simpa using ih
    | false =>
      simp only [Bool.not_false, if_true, List.map_cons]
      rw [ih, hsame]

theorem Paired.marks_eq {rows : List FrameRow}
    {marks : Watermarks}
    (h : Paired c acks rows marks fs through) (hrange : ∀ a ∈ acks, a.1.InRange c) :
    marks = through := by
  rw [h.marks]
  apply Table.ext_find
  intro d
  rw [Table.find_mapValues]
  cases hd : through.find d with
  | none => rfl
  | some n =>
    obtain ⟨a, ha, hmem⟩ := h.source d n hd
    have hlt := (hrange a ha _ hmem).2
    exact congrArg some (i64Of_eq_self.mpr (Nat.le_sub_one_of_lt hlt))

/-! ### Runs -/

/-- What holds of every state a run reaches. -/
structure Relay.Inv (c : RelayCodec H) (σ : Relay H) : Prop where
  retains : Retains c (σ.acks.map (·.1)) σ.log
  newest : NewestKept c σ
  withinCap : WithinCap σ

variable [DecidableEq H]

theorem Relay.newest_publish (σ : Relay H) (p : Publish) (ring : RingCaps) (key : StreamKey) :
    (σ.publish c p ring).newest key =
      if p.key = key ∧ (σ.log.publish c p).2.isFresh = true then some p else σ.newest key := by
  unfold newest publish
  rw [List.filter_append]
  by_cases h : p.key = key ∧ (σ.log.publish c p).2.isFresh = true
  · simp [h]
  · have hsingle : [(p, (σ.log.publish c p).2)].filter
        (fun a => decide (a.1.key = key) && a.2.isFresh) = [] := by
      simpa using h
    rw [if_neg h, hsingle, List.append_nil]

theorem RelayStore.publish_of_not_fresh
    (h : (s.publish c p).2.isFresh = false) : (s.publish c p).1 = s := by
  cases publish_cases c s p with
  | inl hdup =>
    obtain ⟨b, _, _, _, heq⟩ := hdup
    rw [heq]
  | inr hfresh =>
    rw [hfresh] at h
    cases h

theorem RelayStore.publish_of_fresh
    (h : (s.publish c p).2.isFresh = true) :
    ∃ nowMs evicted, s.publish c p = ((s.publish c p).1, .fresh nowMs evicted) := by
  cases hp : s.publish c p with
  | mk s' a =>
    rw [hp] at h
    cases a with
    | fresh nowMs evicted => exact ⟨nowMs, evicted, rfl⟩
    | duplicate _ => cases h

omit [DecidableEq H] in
theorem Retains.nBytes_eq {acks : List Publish} (h : Retains c acks s)
    {f : FrameRow} (hf : f ∈ s.frames) : f.nBytes = f.bytes.length := by
  obtain ⟨p, _, hrow⟩ := h.origin f hf
  rw [hrow]
  exact i64Of_eq_self.mpr (Nat.le_sub_one_of_lt (c.frame_lt _ _))

theorem Retains.channel_publish {acks : List Publish}
    (h : Retains c acks s) {key : StreamKey}
    (hne : ¬(p.key = key ∧ (s.publish c p).2.isFresh = true)) :
    (s.publish c p).1.channel key = s.channel key := by
  by_cases hkey : p.key = key
  · have hdup : (s.publish c p).2.isFresh = false := by simpa [hkey] using hne
    rw [publish_of_not_fresh hdup]
  · exact h.channel_of_ne p (Ne.symm hkey)

theorem Relay.Inv.publish (hc : Function.Injective c.blake3) (h : σ.Inv c)
    (p : Publish) (ring : RingCaps) : (σ.publish c p ring).Inv c := by
  have hretains : Retains c ((σ.publish c p ring).acks.map (·.1)) (σ.publish c p ring).log := by
    show Retains c ((σ.acks ++ [_]).map _) _
    rw [List.map_append]
    exact h.retains.publish hc p
  refine ⟨hretains, fun key q hq => ?_, fun key q hq => ?_⟩
  · rw [newest_publish] at hq
    show ∃ f, ((σ.log.publish c p).1.channel key).getLast? = some f ∧ f.bytes = q.frame c
    split at hq
    · next hstored =>
      obtain ⟨rfl, hfresh⟩ := hstored
      obtain ⟨nowMs, evicted, heq⟩ := publish_of_fresh hfresh
      rw [← Option.some.inj hq]
      exact ⟨_, h.retains.newest_kept heq, rfl⟩
    · next hne =>
      rw [h.retains.channel_publish hne]
      exact h.newest key q hq
  · rw [newest_publish] at hq
    show (((σ.log.publish c p).1.channel key).map (·.bytes.length)).sum ≤ q.caps.maxBytes ∨
      ∃ f, (σ.log.publish c p).1.channel key = [f] ∧ q.caps.maxBytes < f.bytes.length
    split at hq
    · next hstored =>
      obtain ⟨rfl, hfresh⟩ := hstored
      obtain ⟨nowMs, evicted, heq⟩ := publish_of_fresh hfresh
      rw [← Option.some.inj hq]
      have hsizes : ((σ.log.publish c p).1.channel p.key).map (·.nBytes) =
          ((σ.log.publish c p).1.channel p.key).map (·.bytes.length) :=
        List.map_congr_left fun f hf => hretains.nBytes_eq (RelayStore.mem_channel.mp hf).1
      cases h.retains.bounded heq with
      | inl hsum =>
        rw [hsizes] at hsum
        exact Or.inl hsum
      | inr hone =>
        by_cases hle : (p.row c (σ.log.lastId + 1)).bytes.length ≤ p.caps.maxBytes
        · left
          rw [hone]
          simpa using hle
        · exact Or.inr ⟨_, hone, Nat.lt_of_not_le hle⟩
    · next hne =>
      rw [h.retains.channel_publish hne]
      exact h.withinCap key q hq

omit [DecidableEq H] in
theorem Relay.Inv.init : (init : Relay H).Inv c where
  retains := Retains.empty
  newest := fun key p hp => by cases hp
  withinCap := fun key p hp => by cases hp

theorem Relay.Inv.run (hc : Function.Injective c.blake3) (ps : List (Publish × RingCaps)) :
    (Relay.run c ps).Inv c := by
  induction ps using List.reverseRecOn with
  | nil => exact Relay.Inv.init
  | append_singleton ps p ih =>
    rw [run_concat]
    exact ih.publish hc p.1 p.2

omit [DecidableEq H] in
theorem Relay.Inv.complete (h : σ.Inv c) : Complete c σ := by
  intro a ha op hop d n hread hn cs hcs
  have hmem : a.1 ∈ σ.acks.map (·.1) := List.mem_map_of_mem ha
  refine (h.retains.replay_complete hmem hop hread (Nat.le_sub_one_of_lt hn) hcs).imp_left ?_
  rintro ⟨f, hf, p', hp', hrest⟩
  obtain ⟨b, hb, rfl⟩ := List.mem_map.mp hp'
  exact ⟨f, hf, b, hb, hrest⟩

/-- The log and the ring of each channel hold the same batches. -/
def Relay.Pair (c : RelayCodec H) (σ : Relay H) : Prop :=
  ∀ key, Paired c σ.acks (σ.log.channel key) (σ.log.evicted key) (σ.rings key).retained
    (σ.rings key).evictedThrough

omit [DecidableEq H] in
theorem Relay.Pair.init : (init : Relay H).Pair c := fun key =>
  { frames := List.Forall₂.nil
    marks := rfl
    source := fun d n hd => by cases hd }

theorem Relay.rings_of_fresh {ring : RingCaps}
    (h : (σ.log.publish c p).2.isFresh = true) :
    (σ.publish c p ring).rings p.key =
      (σ.rings p.key).pushRetained (p.ringFrame c) ring := by
  obtain ⟨nowMs, evicted, heq⟩ := publish_of_fresh h
  unfold publish
  rw [heq]
  exact Function.update_self _ _ _

theorem Relay.rings_publish {ring : RingCaps} {key : StreamKey}
    (h : ¬(p.key = key ∧ (σ.log.publish c p).2.isFresh = true)) :
    (σ.publish c p ring).rings key = σ.rings key := by
  unfold publish
  cases hp : (σ.log.publish c p).2 with
  | duplicate _ => rfl
  | fresh nowMs evicted =>
    have hkey : key ≠ p.key := fun hkey => h ⟨hkey.symm, by rw [hp]; rfl⟩
    exact Function.update_of_ne hkey _ _

theorem RelayStore.evicted_publish {key : StreamKey}
    (h : ¬(p.key = key ∧ (s.publish c p).2.isFresh = true)) :
    (s.publish c p).1.evicted key = s.evicted key := by
  by_cases hkey : p.key = key
  · have hdup : (s.publish c p).2.isFresh = false := by simpa [hkey] using h
    rw [publish_of_not_fresh hdup]
  · exact evicted_of_ne c s p (Ne.symm hkey)

omit [DecidableEq H] in
theorem Paired.store {rows : List FrameRow}
    {marks : Watermarks}
    (h : Paired c acks rows marks fs through) {a : Publish × Appended} (ha : a ∈ acks)
    (id : ℕ) :
    Paired c acks (rows ++ [a.1.row c id]) marks (fs ++ [a.1.ringFrame c]) through where
  frames := List.rel_append h.frames (.cons ⟨a, ha, rfl, rfl⟩ .nil)
  marks := h.marks
  source := h.source

theorem Relay.Pair.publish (h : σ.Inv c) (hpair : σ.Pair c)
    {p : Publish × RingCaps} (hstep : SameStep c σ p) : (σ.publish c p.1 p.2).Pair c := by
  intro key
  have hsub : σ.acks ⊆ (σ.publish c p.1 p.2).acks := List.subset_append_left _ _
  by_cases hstored : p.1.key = key ∧ (σ.log.publish c p.1).2.isFresh = true
  · obtain ⟨rfl, hfresh⟩ := hstored
    obtain ⟨nowMs, evicted, heq⟩ := publish_of_fresh hfresh
    obtain ⟨k, hk, hlog, hring⟩ := hstep hfresh
    have hself : (p.1, (σ.log.publish c p.1).2) ∈ (σ.publish c p.1 p.2).acks :=
      List.mem_append_right _ (List.mem_singleton.mpr rfl)
    have hstore := (((hpair p.1.key).mono hsub).store hself (σ.log.lastId + 1)).drop k
    have hlen : k ≤ ((σ.rings p.1.key).retained ++ [p.1.ringFrame c]).length := by
      rw [List.length_append, ← (hpair p.1.key).frames.length_eq]
      exact hk
    have hmarks : (σ.publish c p.1 p.2).log.evicted p.1.key = _ :=
      h.retains.evicted_of_drop heq hlog
    rw [rings_of_fresh hfresh] at hring
    rw [hlog, hmarks, rings_of_fresh hfresh, hring,
      RingChannel.evictedThrough_of_drop hlen hring, channel_insert, if_pos rfl]
    exact hstore
  · have hchan : (σ.publish c p.1 p.2).log.channel key = σ.log.channel key :=
      h.retains.channel_publish hstored
    have hmarks : (σ.publish c p.1 p.2).log.evicted key = σ.log.evicted key :=
      evicted_publish hstored
    rw [hchan, hmarks, rings_publish hstored]
    exact (hpair key).mono hsub

theorem sameEvictions_concat (ps : List (Publish × RingCaps)) (p : Publish × RingCaps) :
    SameEvictions c (ps ++ [p]) ↔ SameEvictions c ps ∧ SameStep c (Relay.run c ps) p := by
  constructor
  · exact fun h => ⟨fun qs q hq => h qs q (hq.trans (List.prefix_append _ _)),
      h ps p List.prefix_rfl⟩
  · rintro ⟨h, hstep⟩ qs q hq
    cases List.prefix_concat_iff.mp hq with
    | inr hq => exact h qs q hq
    | inl heq =>
      obtain ⟨rfl, hpq⟩ := List.append_inj' heq rfl
      rwa [List.singleton_inj.mp hpq]

theorem Relay.Pair.run (hc : Function.Injective c.blake3) {ps : List (Publish × RingCaps)}
    (hsame : SameEvictions c ps) : (Relay.run c ps).Pair c := by
  induction ps using List.reverseRecOn with
  | nil => exact Relay.Pair.init
  | append_singleton ps p ih =>
    rw [run_concat]
    exact (ih ((sameEvictions_concat ps p).mp hsame).1).publish (Relay.Inv.run hc ps)
      ((sameEvictions_concat ps p).mp hsame).2

theorem Relay.acks_run (ps : List (Publish × RingCaps)) :
    (Relay.run c ps).acks.map (·.1) = ps.map (·.1) := by
  induction ps using List.reverseRecOn with
  | nil => rfl
  | append_singleton ps p ih =>
    rw [run_concat, List.map_append, ← ih]
    show ((Relay.run c ps).acks ++ [_]).map _ = _
    rw [List.map_append]
    rfl

omit [DecidableEq H] in
theorem Relay.Pair.mirrors (hpair : σ.Pair c)
    (hrange : ∀ a ∈ σ.acks, a.1.InRange c) : Mirrors σ := by
  intro key cs
  constructor
  · show (((σ.log.channel key).filter fun f => !covered f.heads.rows cs).map _).map _ = _
    rw [List.map_map]
    exact (Paired.mirrors (hpair key).frames hrange cs)
  · show gapsFor (σ.log.evicted key) cs = gapsFor (σ.rings key).evictedThrough cs
    rw [(hpair key).marks_eq hrange]

theorem Relay.Pair.inRange (h : σ.Inv c) (hpair : σ.Pair c)
    (hrange : ∀ a ∈ σ.acks, a.1.InRange c) {p : Publish × RingCaps}
    (hfresh : (σ.log.publish c p.1).2.isFresh = true) (hstep : SameStep c σ p)
    (hmirrors : Mirrors (σ.publish c p.1 p.2)) : p.1.InRange c := by
  obtain ⟨nowMs, evicted, heq⟩ := publish_of_fresh hfresh
  obtain ⟨k, hk, hlog, hring⟩ := hstep hfresh
  have hlen := (hpair p.1.key).frames.length_eq
  rw [channel_insert, if_pos rfl] at hlog
  -- the newest frame is the last on both sides, so not everything was dropped
  have hk' : k ≤ (σ.log.channel p.1.key).length := by
    by_contra hlt
    have hnew := h.retains.newest_kept heq
    have hnil : (σ.log.publish c p.1).1.channel p.1.key = [] := by
      refine hlog.trans (List.drop_eq_nil_of_le ?_)
      rw [List.length_append, List.length_singleton]
      omega
    rw [hnil] at hnew
    cases hnew
  rw [List.drop_append_of_le_length hk'] at hlog
  rw [List.drop_append_of_le_length (hlen ▸ hk')] at hring
  refine (covered_agree_iff p.1 (σ.log.lastId + 1)).mp fun cs => ?_
  have holder := Paired.mirrors (List.forall₂_drop k (hpair p.1.key).frames) hrange cs
  have hboth : (((σ.publish c p.1 p.2).log.channel p.1.key).filter
        fun f => !covered f.heads.rows cs).map (fun f => (f.bytes, f.nOps)) =
      (((σ.publish c p.1 p.2).rings p.1.key).retained.filter
        fun f => !f.coveredBy cs).map fun f => (f.bytes, f.nOps) := by
    have hframes := (hmirrors p.1.key cs).1
    rw [relayReplayAfter, List.map_map] at hframes
    exact hframes
  rw [hlog, hring, List.filter_append, List.filter_append, List.map_append, List.map_append,
    holder] at hboth
  have hlast := congrArg List.length (List.append_cancel_left hboth)
  rw [List.length_map, List.length_map, List.filter_singleton, List.filter_singleton] at hlast
  cases hrow : covered (p.1.row c (σ.log.lastId + 1)).heads.rows cs <;>
    cases hframe : (p.1.ringFrame c).coveredBy cs <;> simp [hrow, hframe] at hlast ⊢

theorem Retains.inRange_of_duplicate (hc : Function.Injective c.blake3) {acks : List Publish}
    (h : Retains c acks s) (hrange : ∀ q ∈ acks, q.InRange c)
    (hdup : (s.publish c p).2.isFresh = false) : p.InRange c := by
  cases publish_cases c s p with
  | inr hfresh =>
    rw [hfresh] at hdup
    cases hdup
  | inl hseen =>
    obtain ⟨b, hb, _, hopsH, _⟩ := hseen
    obtain ⟨f, _, _, q, hq, _, _, hhash⟩ := h.batch b hb
    have hops := batchOpsHash_injective hc hhash hopsH
    have hheads : frameHeads c p.batch = frameHeads c q.batch := by
      unfold frameHeads
      rw [hops]
    unfold Publish.InRange
    rw [hheads]
    exact hrange q hq

/-- **A run loses no op in silence**: each op beyond a subscriber's cursor is replayed or
reported, the newest frame of a channel is kept, and a channel is within its cap. Where the
ring drops the frames the log drops, it mirrors the log throughout the run exactly when every
batch is in range. -/
theorem relay_log_mirrors_iff (c : RelayCodec H) (hc : Function.Injective c.blake3)
    (ps : List (Publish × RingCaps)) :
    (Complete c (Relay.run c ps) ∧ NewestKept c (Relay.run c ps) ∧
      WithinCap (Relay.run c ps)) ∧
    (SameEvictions c ps →
      ((∀ qs, qs <+: ps → Mirrors (Relay.run c qs)) ↔ ∀ p ∈ ps, p.1.InRange c)) := by
  have hinv := Relay.Inv.run hc ps
  refine ⟨⟨hinv.complete, hinv.newest, hinv.withinCap⟩, fun hsame => ⟨fun hmirrors => ?_, ?_⟩⟩
  · induction ps using List.reverseRecOn with
    | nil => simp
    | append_singleton ps p ih =>
      obtain ⟨hsame, hstep⟩ := (sameEvictions_concat ps p).mp hsame
      have hbefore := ih (Relay.Inv.run hc ps) hsame
        fun qs hqs => hmirrors qs (hqs.trans (List.prefix_append _ _))
      have hacks : ∀ q ∈ (Relay.run c ps).acks.map (·.1), q.InRange c := by
        rw [acks_run]
        intro q hq
        obtain ⟨a, ha, rfl⟩ := List.mem_map.mp hq
        exact hbefore a ha
      have hnew : p.1.InRange c := by
        cases hfresh : ((Relay.run c ps).log.publish c p.1).2.isFresh with
        | false => exact (Relay.Inv.run hc ps).retains.inRange_of_duplicate hc hacks hfresh
        | true =>
          have hlast := hmirrors (ps ++ [p]) List.prefix_rfl
          rw [run_concat] at hlast
          exact (Relay.Pair.run hc hsame).inRange (Relay.Inv.run hc ps)
            (fun a ha => hacks _ (List.mem_map_of_mem ha)) hfresh hstep hlast
      intro q hq
      cases List.mem_append.mp hq with
      | inl hq => exact hbefore q hq
      | inr hq => rwa [List.mem_singleton.mp hq]
  · intro hrange qs hqs
    have hsameq : SameEvictions c qs := fun rs r hr => hsame rs r (hr.trans hqs)
    refine (Relay.Pair.run hc hsameq).mirrors fun a ha => ?_
    have hmem : a.1 ∈ qs.map (·.1) := by
      rw [← acks_run (c := c)]
      exact List.mem_map_of_mem ha
    obtain ⟨q, hq, hqa⟩ := List.mem_map.mp hmem
    rw [← hqa]
    exact hrange q (hqs.subset hq)

end

/-! ### A run -/

namespace Relay.Sample

/-- An op is a device and a sequence, and a frame the stream and the ops. -/
def codec : RelayCodec Bytes where
  header
    | [d, n] => if n < 2 ^ 64 then some ([d], n) else none
    | _ => none
  seq_lt op d n h := by
    split at h
    · split at h
      · next hlt =>
        obtain ⟨-, rfl⟩ := Prod.mk.inj (Option.some.inj h)
        exact hlt
      · cases h
    · cases h
  frame stream b := (stream ++ b.ops.flatten).take 4096
  frame_lt stream b := lt_of_le_of_lt (List.length_take_le _ _) (by decide)
  blake3 := id

theorem one_op_lt (n : ℕ) : [[7, n]].length < 2 ^ 63 := by simp

theorem short_op_lt (n : ℕ) : ∀ op ∈ [[7, n]], op.length < 2 ^ 63 := by simp

/-- One op of device `7`, numbered `n`. -/
def op (n : ℕ) : Publish × RingCaps where
  fst :=
    { key := ([1], [2])
      batch := ⟨[[7, n]], 0, one_op_lt n, short_op_lt n⟩
      nowMs := 1000
      caps := ⟨3, 60⟩ }
  snd := ⟨1, 4096⟩

end Relay.Sample

open Relay.Sample in
/-- The second of two ops drops the first from a channel that has room for one, and both
sides say so. -/
theorem relay_log_mirrors_iff_two :
    Complete codec (Relay.run codec [op 1, op 2]) ∧ Mirrors (Relay.run codec [op 1, op 2]) := by
  have hsame : SameEvictions codec [op 1, op 2] := by
    refine (sameEvictions_concat [op 1] (op 2)).mpr ⟨(sameEvictions_concat [] (op 1)).mpr
      ⟨fun qs q hq => ?_, fun _ => ⟨0, ?_⟩⟩, fun _ => ⟨1, ?_⟩⟩
    · simp at hq
    · decide
    · decide
  have hrange : ∀ p ∈ [op 1, op 2], p.1.InRange codec := by
    decide
  have h := relay_log_mirrors_iff codec Function.injective_id [op 1, op 2]
  exact ⟨h.1.1, (h.2 hsame).mpr hrange _ List.prefix_rfl⟩

open Relay.Sample in
/-- A first op numbered 0: the log replays it to a subscriber that has nothing, and the ring
takes it for applied. -/
theorem not_mirrors_zero :
    ¬ ∀ ps, SameEvictions codec ps → Mirrors (Relay.run codec ps) := by
  intro h
  have hsame : SameEvictions codec [op 0] := by
    refine (sameEvictions_concat [] (op 0)).mpr ⟨fun qs q hq => ?_, fun _ => ⟨0, ?_⟩⟩
    · simp at hq
    · decide
  have hframes := (h _ hsame ([1], [2]) ⟨fun _ => none, by simp⟩).1
  revert hframes
  decide

end Sunrise
