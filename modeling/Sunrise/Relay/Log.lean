import Mathlib.Algebra.Order.BigOperators.Group.List
import Mathlib.Data.List.Nodup
import Mathlib.Logic.Function.Basic
import Sunrise.Lib.Table
import Sunrise.Log.OpLog

/-!
# The relay's durable log

The relay stores each batch it acks as one frame of its channel, with the highest sequence
the batch carries for each device, and keeps a channel within an age and a size. A client
names how far it got with each device and is sent the frames it may be missing, and told of
the devices whose ops were deleted beyond that point. A batch whose ops the channel still
holds is acked again and not stored twice.

## Main results

* `Retains.replay_complete` — an op beyond the cursor is replayed or is inside a reported gap.
-/

namespace Sunrise

/-! ### Watermarks -/

/-- The highest number seen under each device. -/
abbrev Watermarks := Table Bytes ℕ

namespace Watermarks

/-- The mark of a device, no lower than `n`. -/
def raise (t : Watermarks) (d : Bytes) (n : ℕ) : Watermarks :=
  t.upsert d (max ((t.find d).getD 0) n)

theorem find_raise (t : Watermarks) (d e : Bytes) (n : ℕ) :
    (raise t d n).find e = if e = d then some (max ((t.find d).getD 0) n) else t.find e := by
  rw [raise, Table.find_upsert]
  congr

theorem raise_comm (t : Watermarks) (d e : Bytes) (m n : ℕ) :
    raise (raise t d m) e n = raise (raise t e n) d m := by
  apply Table.ext_find
  intro x
  simp only [find_raise]
  by_cases hd : x = d <;> by_cases he : x = e <;> by_cases hde : d = e
  all_goals first | subst hd | skip
  all_goals first | subst he | skip
  all_goals simp_all [max_comm, max_left_comm]

/-- The marks, no lower than any of `hs`. -/
def raiseAll (t : Watermarks) (hs : List (Bytes × ℕ)) : Watermarks :=
  hs.foldl (fun t h => raise t h.1 h.2) t

@[simp] theorem raiseAll_cons (t : Watermarks) (h : Bytes × ℕ) (hs : List (Bytes × ℕ)) :
    raiseAll t (h :: hs) = raiseAll (raise t h.1 h.2) hs := rfl

theorem raiseAll_append (t : Watermarks) (hs gs : List (Bytes × ℕ)) :
    raiseAll t (hs ++ gs) = raiseAll (raiseAll t hs) gs := List.foldl_append

theorem raiseAll_perm (t : Watermarks) {hs gs : List (Bytes × ℕ)} (h : hs.Perm gs) :
    raiseAll t hs = raiseAll t gs :=
  h.foldl_eq' (fun x _ y _ t => raise_comm t x.1 y.1 x.2 y.2) t

theorem le_raise {t : Watermarks} {d : Bytes} {n : ℕ} {e : Bytes} {m : ℕ}
    (h : ∃ k, t.find e = some k ∧ m ≤ k) : ∃ k, (raise t d n).find e = some k ∧ m ≤ k := by
  obtain ⟨k, hk, hm⟩ := h
  rw [find_raise]
  by_cases hed : e = d
  · subst hed
    rw [if_pos rfl, hk]
    exact ⟨_, rfl, le_trans hm (le_max_left _ _)⟩
  · rw [if_neg hed]
    exact ⟨k, hk, hm⟩

section

variable {t : Watermarks} {hs : List (Bytes × ℕ)}

theorem le_raiseAll {e : Bytes} {m : ℕ}
    (h : ∃ k, t.find e = some k ∧ m ≤ k) : ∃ k, (raiseAll t hs).find e = some k ∧ m ≤ k := by
  induction hs generalizing t with
  | nil => exact h
  | cons x hs ih => exact ih (le_raise h)

theorem mem_of_find_raiseAll {d : Bytes} {n : ℕ}
    (h : (raiseAll t hs).find d = some n) : (d, n) ∈ hs ∨ t.find d = some n := by
  induction hs generalizing t with
  | nil => exact Or.inr h
  | cons x hs ih =>
    cases ih h with
    | inl hmem => exact Or.inl (List.mem_cons_of_mem _ hmem)
    | inr hraise =>
      rw [find_raise] at hraise
      split at hraise
      · next hd =>
        have hn : max ((t.find x.1).getD 0) x.2 = n := Option.some.inj hraise
        rcases max_choice ((t.find x.1).getD 0) x.2 with hold | hnew
        · cases hfind : t.find x.1 with
          | none =>
            left
            rw [hfind, Option.getD_none, Nat.zero_max] at hn
            rw [hd, ← hn]
            exact List.mem_cons_self
          | some m =>
            right
            rw [hd, hfind, ← hn, hold, hfind]
            rfl
        · left
          rw [hd, ← hn, hnew]
          exact List.mem_cons_self
      · exact Or.inr hraise

theorem le_raiseAll_of_mem {h : Bytes × ℕ}
    (hmem : h ∈ hs) : ∃ k, (raiseAll t hs).find h.1 = some k ∧ h.2 ≤ k := by
  induction hs generalizing t with
  | nil => cases hmem
  | cons x hs ih =>
    cases hmem with
    | head =>
      have hraised : ∃ k, (raise t h.1 h.2).find h.1 = some k ∧ h.2 ≤ k :=
        ⟨_, by rw [find_raise, if_pos rfl], le_max_right _ _⟩
      rw [raiseAll_cons]
      exact le_raiseAll hraised
    | tail _ hmem => exact ih hmem

end

end Watermarks

/-! ### Batches -/

/-- A channel: an account's namespace, and one of its streams. -/
abbrev StreamKey := Bytes × Bytes

/-- The ops of one request. What memory can hold bounds their number and their lengths. -/
structure OpBatch where
  ops : List Bytes
  batchId : ℕ
  length_lt : ops.length < 2 ^ 63
  lengths_lt : ∀ op ∈ ops, op.length < 2 ^ 63

/-- What the relay calls to read an envelope, to encode a frame and to hash. -/
structure RelayCodec (H : Type) where
  /-- `decode_envelope_header`: the device and the sequence of an envelope it can read. -/
  header : Bytes → Option (Bytes × ℕ)
  seq_lt : ∀ op d n, header op = some (d, n) → n < 2 ^ 64
  frame : Bytes → OpBatch → Bytes
  frame_lt : ∀ stream b, (frame stream b).length < 2 ^ 63
  blake3 : Bytes → H

/-- The highest `seq` one frame carries for one originating device. -/
structure FrameHead where
  deviceId : Bytes
  maxSeq : ℕ
deriving DecidableEq

section
variable {H : Type} (c : RelayCodec H)

/-- Each op's sequence under its device, for the ops whose header can be read. -/
def routes (ops : List Bytes) : List (Bytes × ℕ) := ops.filterMap c.header

/-- The per-device high-water marks a batch carries, sorted by device. -/
def frameHeads (b : OpBatch) : List FrameHead :=
  (Watermarks.raiseAll ∅ (routes c b.ops)).rows.map fun r => ⟨r.1, r.2⟩

/-- The eight bytes of a number, least significant first. -/
def leBytes (n : ℕ) : Bytes := (List.range 8).map fun i => n / 256 ^ i % 256

/-- `sunrise.relay.batch.v1`. -/
def batchDomain : Bytes :=
  [115, 117, 110, 114, 105, 115, 101, 46, 114, 101, 108, 97, 121, 46, 98, 97, 116, 99, 104,
    46, 118, 49]

/-- The bytes a batch's key is the hash of: the count of the ops, then each op's length
before its bytes. -/
def batchBytes (ops : List Bytes) : Bytes :=
  batchDomain ++ leBytes ops.length ++ ops.flatMap fun op => leBytes op.length ++ op

/-- Domain-separated content hash of a batch's ops, or `none` for an empty one: there is no
content to be the same as. -/
def batchOpsHash (b : OpBatch) : Option H :=
  if b.ops = [] then none else some (c.blake3 (batchBytes b.ops))

end

@[simp] theorem length_leBytes (n : ℕ) : (leBytes n).length = 8 := by simp [leBytes]

theorem leBytes_injective {m n : ℕ} (hm : m < 2 ^ 63) (hn : n < 2 ^ 63)
    (h : leBytes m = leBytes n) : m = n := by
  simp only [leBytes, List.range, List.range.loop, List.map_cons, List.map_nil,
    List.cons.injEq] at h
  omega

theorem flatMap_leBytes_injective {xs ys : List Bytes} (hx : ∀ x ∈ xs, x.length < 2 ^ 63)
    (hy : ∀ y ∈ ys, y.length < 2 ^ 63) (hlen : xs.length = ys.length)
    (h : xs.flatMap (fun op => leBytes op.length ++ op) =
      ys.flatMap fun op => leBytes op.length ++ op) : xs = ys := by
  induction xs generalizing ys with
  | nil => exact (List.length_eq_zero_iff.mp hlen.symm).symm
  | cons x xs ih =>
    cases ys with
    | nil => cases hlen
    | cons y ys =>
      simp only [List.flatMap_cons, List.append_assoc] at h
      obtain ⟨hlens, h⟩ := List.append_inj h (by simp)
      have hxy : x.length = y.length :=
        leBytes_injective (hx x (by simp)) (hy y (by simp)) hlens
      obtain ⟨rfl, hrest⟩ := List.append_inj h hxy
      rw [ih (fun z hz => hx z (by simp [hz])) (fun z hz => hy z (by simp [hz]))
        (by simpa using hlen) (List.append_cancel_left h)]

/-- Where the hash collides on nothing, **equal keys are equal ops**: no other partition of
the same bytes shares one. -/
theorem batchOpsHash_injective {H : Type} {c : RelayCodec H}
    (hc : Function.Injective c.blake3) {b b' : OpBatch} {h : H}
    (hb : batchOpsHash c b = some h) (hb' : batchOpsHash c b' = some h) : b.ops = b'.ops := by
  unfold batchOpsHash at hb hb'
  split at hb
  · cases hb
  split at hb'
  · cases hb'
  have hbytes : batchBytes b.ops = batchBytes b'.ops :=
    hc ((Option.some.inj hb).trans (Option.some.inj hb').symm)
  unfold batchBytes at hbytes
  obtain ⟨hcount, hops⟩ := List.append_inj hbytes (by simp)
  have hlen : b.ops.length = b'.ops.length :=
    leBytes_injective b.length_lt b'.length_lt (List.append_cancel_left hcount)
  exact flatMap_leBytes_injective b.lengths_lt b'.lengths_lt hlen hops

/-! ### The store -/

/-- A row of `relay_frames`, with its rows of `relay_frame_heads`, which the foreign key
deletes with it. -/
structure FrameRow where
  id : ℕ
  key : StreamKey
  bytes : Bytes
  nBytes : ℕ
  createdMs : ℕ
  nOps : ℕ
  heads : Watermarks
deriving DecidableEq

/-- A row of `relay_batches`, which the foreign key deletes with its frame. -/
structure BatchRow (H : Type) where
  key : StreamKey
  opsH : H
  frameId : ℕ
  batchId : ℕ
  firstSeenMs : ℕ
deriving DecidableEq

/-- The relay log's tables. -/
structure RelayStore (H : Type) where
  /-- `relay_frames`, in the order of their ids. -/
  frames : List FrameRow
  /-- The last id given out; `AUTOINCREMENT` gives none twice. -/
  lastId : ℕ
  /-- `relay_evicted`, by channel. -/
  evicted : StreamKey → Watermarks
  /-- `relay_batches`. -/
  batches : List (BatchRow H)

open RelayStore

/-- Retention bounds for the durable log. -/
structure DurableCaps where
  maxBytes : ℕ
  maxAgeMs : ℕ
deriving DecidableEq

/-- What `relay_append` did with a batch. -/
inductive Appended where
  /-- The batch was not in the window; it is now stored. -/
  | fresh (firstSeenMs evicted : ℕ)
  /-- The batch is already stored, and nothing was written. -/
  | duplicate (firstSeenMs : ℕ)
deriving DecidableEq

namespace RelayStore
variable {H : Type}

def empty : RelayStore H := ⟨[], 0, fun _ => ∅, []⟩

def channel (s : RelayStore H) (key : StreamKey) : List FrameRow :=
  s.frames.filter (·.key = key)

/-- The batch a channel holds under a content key. -/
def seen [DecidableEq H] (s : RelayStore H) (key : StreamKey) (opsH : H) :
    Option (BatchRow H) :=
  s.batches.find? fun b => b.key = key ∧ b.opsH = opsH

/-- The row of a frame that was stored under `id`; the columns are signed. -/
def row (id : ℕ) (key : StreamKey) (bytes : Bytes) (heads : List FrameHead) (nOps nowMs : ℕ) :
    FrameRow where
  id := id
  key := key
  bytes := bytes
  nBytes := i64Of bytes.length
  createdMs := i64Of nowMs
  nOps := i64Of nOps
  heads := heads.foldl (fun t h => t.upsert h.deviceId (i64Of h.maxSeq)) ∅

def insertFrame (s : RelayStore H) (key : StreamKey) (bytes : Bytes) (heads : List FrameHead)
    (nOps : ℕ) (opsH : Option H) (batchId nowMs : ℕ) : RelayStore H where
  frames := s.frames ++ [row (s.lastId + 1) key bytes heads nOps nowMs]
  lastId := s.lastId + 1
  evicted := s.evicted
  batches := s.batches ++ (opsH.map fun h =>
    (⟨key, h, s.lastId + 1, i64Of batchId, i64Of nowMs⟩ : BatchRow H)).toList

/-- The frames of a channel the age bound deletes; a cutoff beyond the signed range is none. -/
def aged (s : RelayStore H) (key : StreamKey) (nowMs : ℕ) (caps : DurableCaps) : List ℕ :=
  let cutoff := if nowMs - caps.maxAgeMs ≤ storeMax then nowMs - caps.maxAgeMs else 0
  ((s.channel key).filter (·.createdMs < cutoff)).map (·.id)

/-- The size bound's scan: oldest first until the rest is under budget, and never the newest. -/
def oversize (maxBytes : ℕ) : List FrameRow → ℕ → ℕ → List ℕ → List ℕ
  | [], _, _, doomed => doomed
  | f :: rows, total, remaining, doomed =>
    if total ≤ maxBytes ∨ remaining ≤ 1 then doomed
    else
      oversize maxBytes rows (total - f.nBytes) (remaining - 1)
        (if f.id ∈ doomed then doomed else doomed ++ [f.id])

/-- What retention deletes from a channel. The sizes of a channel's frames add up to far less
than the counter holds. -/
def doomed (s : RelayStore H) (key : StreamKey) (nowMs : ℕ) (caps : DurableCaps) : List ℕ :=
  oversize caps.maxBytes (s.channel key) ((s.channel key).map (·.nBytes)).sum
    (s.channel key).length (s.aged key nowMs caps)

def headsOf (s : RelayStore H) (id : ℕ) : List (Bytes × ℕ) :=
  ((s.frames.find? (·.id = id)).map (·.heads.rows)).getD []

/-- Delete one frame of a channel, its devices' watermarks first. -/
def deleteFrame (key : StreamKey) (s : RelayStore H) (id : ℕ) : RelayStore H where
  frames := s.frames.filter (·.id ≠ id)
  lastId := s.lastId
  evicted := Function.update s.evicted key
    (Watermarks.raiseAll (s.evicted key) (s.headsOf id))
  batches := s.batches.filter (·.frameId ≠ id)

/-- Enforce both retention bounds for one channel, and say how many frames went. -/
def evict (s : RelayStore H) (key : StreamKey) (nowMs : ℕ) (caps : DurableCaps) :
    RelayStore H × ℕ :=
  ((s.doomed key nowMs caps).foldl (deleteFrame key) s, (s.doomed key nowMs caps).length)

/-- Append one relayed frame and enforce retention for its channel, unless the batch is one
this channel already holds. -/
def relayAppend [DecidableEq H] (s : RelayStore H) (key : StreamKey) (bytes : Bytes)
    (heads : List FrameHead) (nOps : ℕ) (opsH : Option H) (batchId nowMs : ℕ)
    (caps : DurableCaps) : RelayStore H × Appended :=
  match opsH.bind (s.seen key) with
  | some b => (s, .duplicate b.firstSeenMs)
  | none =>
    let r := (s.insertFrame key bytes heads nOps opsH batchId nowMs).evict key nowMs caps
    (r.1, .fresh nowMs r.2)

end RelayStore

/-! ### Replay -/

/-- The highest sequence a client has applied of each device it names. -/
structure Cursors where
  get : Bytes → Option ℕ
  lt : ∀ d n, get d = some n → n < 2 ^ 64

/-- Where the client is with a device; one it does not name has sent it nothing. -/
def Cursors.seqOf (cs : Cursors) (d : Bytes) : ℕ := (cs.get d).getD 0

structure ReplayFrame where
  id : ℕ
  bytes : Bytes
  nOps : ℕ
deriving DecidableEq

/-- One device for which a subscriber's cursor predates what is still held. -/
structure CursorGap where
  deviceId : Bytes
  cursor : ℕ
  evictedThrough : ℕ
deriving DecidableEq

/-- Every head of the frame is at or below a cursor the subscriber named. -/
def covered (heads : List (Bytes × ℕ)) (cs : Cursors) : Bool :=
  !heads.isEmpty && heads.all fun h =>
    match cs.get h.1 with
    | some n => decide (h.2 ≤ n)
    | none => false

/-- The devices a subscriber is behind on beyond what was deleted. -/
def gapsFor (marks : Watermarks) (cs : Cursors) : List CursorGap :=
  marks.rows.filterMap fun r =>
    if cs.seqOf r.1 < r.2 then some ⟨r.1, cs.seqOf r.1, r.2⟩ else none

namespace RelayStore
variable {H : Type}

/-- Every retained frame the subscriber has not already received, in arrival order, and the
gaps. A non-zero `afterId` says where a reconnect got to, and is taken over the cursors. -/
def relayReplayAfter (s : RelayStore H) (key : StreamKey) (afterId : ℕ) (cs : Cursors) :
    List ReplayFrame × List CursorGap :=
  let sent := (s.channel key).filter fun f =>
    if afterId > 0 then decide (afterId < f.id) else !covered f.heads.rows cs
  (sent.map fun f => ⟨f.id, f.bytes, f.nOps⟩, gapsFor (s.evicted key) cs)

end RelayStore

/-! ### Publishing -/

/-- One publish as it reaches the store: a batch for a channel, the server's clock, and the
retention bounds in force. -/
structure Publish where
  key : StreamKey
  batch : OpBatch
  nowMs : ℕ
  caps : DurableCaps

section
variable {H : Type} (c : RelayCodec H)

def Publish.frame (p : Publish) : Bytes := c.frame p.key.2 p.batch

def Publish.row (p : Publish) (id : ℕ) : FrameRow :=
  RelayStore.row id p.key (p.frame c) (frameHeads c p.batch) p.batch.ops.length p.nowMs

/-- The durable append of one batch. -/
def RelayStore.publish [DecidableEq H] (s : RelayStore H) (p : Publish) :
    RelayStore H × Appended :=
  s.relayAppend p.key (p.frame c) (frameHeads c p.batch) p.batch.ops.length
    (batchOpsHash c p.batch) p.batch.batchId p.nowMs p.caps

def RelayStore.insert (s : RelayStore H) (p : Publish) : RelayStore H :=
  s.insertFrame p.key (p.frame c) (frameHeads c p.batch) p.batch.ops.length
    (batchOpsHash c p.batch) p.batch.batchId p.nowMs

@[simp] theorem Publish.row_id (p : Publish) (id : ℕ) : (p.row c id).id = id := rfl

@[simp] theorem Publish.row_key (p : Publish) (id : ℕ) : (p.row c id).key = p.key := rfl

@[simp] theorem Publish.row_bytes (p : Publish) (id : ℕ) : (p.row c id).bytes = p.frame c := rfl

theorem Publish.row_heads (p : Publish) (id : ℕ) :
    (p.row c id).heads =
      (Watermarks.raiseAll ∅ (routes c p.batch.ops)).mapValues fun _ n => i64Of n := by
  apply Table.ext_find
  intro d
  show ((((Watermarks.raiseAll ∅ (routes c p.batch.ops)).rows.map
    fun r => (⟨r.1, r.2⟩ : FrameHead)).foldl
      (fun t h => t.upsert h.deviceId (i64Of h.maxSeq)) (∅ : Watermarks))).find d = _
  rw [List.foldl_map, Table.find_mapValues]
  cases hd : (Watermarks.raiseAll ∅ (routes c p.batch.ops)).find d with
  | none =>
    rw [Table.find_foldl_upsert_of_not_mem (fun r : Bytes × ℕ => r.1) fun r => i64Of r.2]
    · rfl
    · exact Table.find_eq_none.mp hd
  | some n =>
    have hmem : (d, n) ∈ (Watermarks.raiseAll ∅ (routes c p.batch.ops)).rows :=
      Table.mem_rows.mpr hd
    refine Table.find_foldl_upsert_of_mem (fun r : Bytes × ℕ => r.1) (fun r => i64Of r.2)
      hmem fun r hr hrd => ?_
    have hfind := Table.mem_rows.mp hr
    rw [show r.1 = d from hrd, hd] at hfind
    rw [Option.some.inj hfind]

theorem Publish.le_row_heads {p : Publish} (id : ℕ) {r : Bytes × ℕ}
    (hr : r ∈ routes c p.batch.ops) :
    ∃ n, (r.1, n) ∈ (p.row c id).heads.rows ∧ i64Of r.2 ≤ n := by
  obtain ⟨n, hn, hle⟩ := Watermarks.le_raiseAll_of_mem (t := ∅) hr
  refine ⟨i64Of n, Table.mem_rows.mpr ?_, min_le_min_right _ hle⟩
  rw [Publish.row_heads, Table.find_mapValues, hn]
  rfl

end

/-! ### What retention deletes -/

namespace RelayStore
variable {H : Type}

/-- The size bound deletes a proper run of the oldest frames beyond what was doomed already,
and what it leaves is within the budget or a single frame. -/
theorem oversize_spec (maxBytes : ℕ) (rows : List FrameRow) (gone : List ℕ) :
    ∃ k, (rows = [] ∨ k < rows.length) ∧
      (∀ id, id ∈ oversize maxBytes rows (rows.map (·.nBytes)).sum rows.length gone ↔
        id ∈ gone ∨ id ∈ (rows.take k).map (·.id)) ∧
      (((rows.drop k).map (·.nBytes)).sum ≤ maxBytes ∨ (rows.drop k).length ≤ 1) := by
  induction rows generalizing gone with
  | nil => exact ⟨0, Or.inl rfl, by simp [oversize], by simp⟩
  | cons f rows ih =>
    rw [oversize]
    by_cases hstop : ((f :: rows).map (·.nBytes)).sum ≤ maxBytes ∨ (f :: rows).length ≤ 1
    · rw [if_pos hstop]
      exact ⟨0, Or.inr (by simp), by simp, by simpa using hstop⟩
    · rw [if_neg hstop]
      push Not at hstop
      obtain ⟨k, hk, hmem, hrest⟩ := ih (if f.id ∈ gone then gone else gone ++ [f.id])
      have hsum : ((f :: rows).map (·.nBytes)).sum - f.nBytes = (rows.map (·.nBytes)).sum := by
        simp
      refine ⟨k + 1, Or.inr ?_, fun id => ?_, by simpa using hrest⟩
      · cases hk with
        | inl hnil => simp [hnil] at hstop
        | inr hk => simpa using hk
      · rw [hsum, show (f :: rows).length - 1 = rows.length from rfl, hmem]
        by_cases hf : f.id ∈ gone
        · simp only [if_pos hf, List.take_succ_cons, List.map_cons, List.mem_cons]
          constructor
          · exact Or.imp_right Or.inr
          · rintro (h | rfl | h)
            · exact Or.inl h
            · exact Or.inl hf
            · exact Or.inr h
        · simp only [if_neg hf, List.take_succ_cons, List.map_cons, List.mem_cons,
            List.mem_append, List.mem_nil_iff, or_false, or_assoc]

theorem oversize_nodup {maxBytes : ℕ} {rows : List FrameRow} {total remaining : ℕ}
    {gone : List ℕ} (h : gone.Nodup) : (oversize maxBytes rows total remaining gone).Nodup := by
  induction rows generalizing total remaining gone with
  | nil => exact h
  | cons f rows ih =>
    rw [oversize]
    split
    · exact h
    · apply ih
      split
      · exact h
      · next hf => simpa [List.nodup_append] using ⟨h, fun a ha hfa => hf (hfa ▸ ha)⟩

theorem mem_channel {s : RelayStore H} {key : StreamKey} {f : FrameRow} :
    f ∈ s.channel key ↔ f ∈ s.frames ∧ f.key = key := by
  simp [channel]

end RelayStore

/-! ### The invariant -/

section
variable {H : Type} (c : RelayCodec H)

/-- What a store says of the batches acked so far: each is in a frame still held, or its ops
are under the watermarks of its channel. -/
structure Retains (acks : List Publish) (s : RelayStore H) : Prop where
  sorted : s.frames.Pairwise fun f g => f.id < g.id
  le_lastId : ∀ f ∈ s.frames, f.id ≤ s.lastId
  origin : ∀ f ∈ s.frames, ∃ p ∈ acks, f = p.row c f.id
  /-- A batch is remembered no longer than the frame that holds it. -/
  batch : ∀ b ∈ s.batches, ∃ f ∈ s.frames, f.id = b.frameId ∧ ∃ p ∈ acks, f = p.row c f.id ∧
    p.key = b.key ∧ batchOpsHash c p.batch = some b.opsH
  held : ∀ p ∈ acks,
    (∃ f ∈ s.frames, ∃ p' ∈ acks, f = p'.row c f.id ∧ p'.key = p.key ∧
      p'.batch.ops = p.batch.ops) ∨
    ∀ r ∈ routes c p.batch.ops, ∃ n, (s.evicted p.key).find r.1 = some n ∧ i64Of r.2 ≤ n

end

section
variable {H : Type} {c : RelayCodec H} {acks : List Publish} {s : RelayStore H}

theorem Retains.empty : Retains c [] (RelayStore.empty : RelayStore H) where
  sorted := List.Pairwise.nil
  le_lastId := by simp [RelayStore.empty]
  origin := by simp [RelayStore.empty]
  batch := by simp [RelayStore.empty]
  held := by simp

section

variable (hs : s.frames.Pairwise fun f g => f.id < g.id)
include hs

theorem RelayStore.nodup_ids :
    (s.frames.map (·.id)).Nodup :=
  List.pairwise_map.mpr (hs.imp fun h => h.ne)

theorem RelayStore.eq_of_id {f g : FrameRow}
    (hf : f ∈ s.frames) (hg : g ∈ s.frames) (h : f.id = g.id) : f = g :=
  List.inj_on_of_nodup_map (nodup_ids hs) hf hg h

theorem RelayStore.headsOf_eq {f : FrameRow}
    (hf : f ∈ s.frames) : s.headsOf f.id = f.heads.rows := by
  unfold headsOf
  cases hfind : s.frames.find? (·.id = f.id) with
  | none => simpa using List.find?_eq_none.mp hfind f hf
  | some g =>
    have hid : g.id = f.id := by simpa using List.find?_some hfind
    rw [eq_of_id hs (List.mem_of_find?_eq_some hfind) hf hid]
    rfl

end

theorem Retains.deleteFrame (h : Retains c acks s) {key : StreamKey} {id : ℕ}
    (hkey : ∀ f ∈ s.frames, f.id = id → f.key = key) :
    Retains c acks (RelayStore.deleteFrame key s id) where
  sorted := h.sorted.filter _
  le_lastId := fun f hf => h.le_lastId f (List.mem_filter.mp hf).1
  origin := fun f hf => h.origin f (List.mem_filter.mp hf).1
  batch := fun b hb => by
    obtain ⟨hb, hne⟩ := List.mem_filter.mp hb
    obtain ⟨f, hf, hid, hrest⟩ := h.batch b hb
    exact ⟨f, List.mem_filter.mpr ⟨hf, by simpa [hid] using hne⟩, hid, hrest⟩
  held := fun p hp => by
    have hraise : ∀ {r : Bytes × ℕ},
        (∃ n, (s.evicted p.key).find r.1 = some n ∧ i64Of r.2 ≤ n) →
        ∃ n, ((RelayStore.deleteFrame key s id).evicted p.key).find r.1 = some n ∧
          i64Of r.2 ≤ n := by
      intro r hr
      show ∃ n, (Function.update s.evicted key _ p.key).find r.1 = some n ∧ _
      by_cases hpk : p.key = key
      · rw [hpk, Function.update_self]
        exact Watermarks.le_raiseAll (hpk ▸ hr)
      · rwa [Function.update_of_ne hpk]
    cases h.held p hp with
    | inr hmarks => exact Or.inr fun r hr => hraise (hmarks r hr)
    | inl hframe =>
      obtain ⟨f, hf, p', hp', hrow, hpk, hops⟩ := hframe
      by_cases hid : f.id = id
      · -- the frame goes, and its heads are what the watermarks are raised by
        right
        intro r hr
        have hfk : p.key = key := by
          rw [← hpk, ← hkey f hf hid, hrow]
          rfl
        obtain ⟨n, hn, hle⟩ := Publish.le_row_heads c f.id (hops ▸ hr)
        rw [← hrow] at hn
        show ∃ n, (Function.update s.evicted key _ p.key).find r.1 = some n ∧ _
        rw [hfk, Function.update_self, ← hid, RelayStore.headsOf_eq h.sorted hf]
        obtain ⟨m, hm, hnm⟩ := Watermarks.le_raiseAll_of_mem (t := s.evicted key) hn
        exact ⟨m, hm, le_trans hle hnm⟩
      · left
        exact ⟨f, List.mem_filter.mpr ⟨hf, by simpa using hid⟩, p', hp', hrow, hpk, hops⟩

theorem Retains.deleteFrames (h : Retains c acks s) {key : StreamKey} {gone : List ℕ}
    (hkey : ∀ id ∈ gone, ∀ f ∈ s.frames, f.id = id → f.key = key) :
    Retains c acks (gone.foldl (RelayStore.deleteFrame key) s) := by
  induction gone generalizing s with
  | nil => exact h
  | cons id gone ih =>
    refine ih (h.deleteFrame (hkey id (by simp))) fun i hi f hf => ?_
    exact hkey i (by simp [hi]) f (List.mem_filter.mp hf).1

theorem Retains.insert (h : Retains c acks s) (p : Publish) :
    Retains c (acks ++ [p]) (s.insert c p) where
  sorted := List.pairwise_append.mpr ⟨h.sorted, List.pairwise_singleton _ _, fun f hf g hg => by
    rw [List.mem_singleton.mp hg]
    exact Nat.lt_succ_of_le (h.le_lastId f hf)⟩
  le_lastId := fun f hf => by
    cases List.mem_append.mp hf with
    | inl hf => exact Nat.le_succ_of_le (h.le_lastId f hf)
    | inr hf => rw [List.mem_singleton.mp hf]; exact le_rfl
  origin := fun f hf => by
    cases List.mem_append.mp hf with
    | inl hf =>
      obtain ⟨q, hq, hrow⟩ := h.origin f hf
      exact ⟨q, List.mem_append_left _ hq, hrow⟩
    | inr hf =>
      rw [List.mem_singleton.mp hf]
      exact ⟨p, by simp, rfl⟩
  batch := fun b hb => by
    cases List.mem_append.mp hb with
    | inl hb =>
      obtain ⟨f, hf, hid, q, hq, hrest⟩ := h.batch b hb
      exact ⟨f, List.mem_append_left _ hf, hid, q, List.mem_append_left _ hq, hrest⟩
    | inr hb =>
      obtain ⟨opsH, hopsH, rfl⟩ := Option.map_eq_some_iff.mp (Option.mem_toList.mp hb)
      exact ⟨p.row c (s.lastId + 1), by simp [RelayStore.insert, RelayStore.insertFrame,
        Publish.row], rfl, p, by simp, rfl, rfl, hopsH⟩
  held := fun q hq => by
    cases List.mem_append.mp hq with
    | inl hq =>
      refine (h.held q hq).imp_left ?_
      rintro ⟨f, hf, p', hp', hrest⟩
      exact ⟨f, List.mem_append_left _ hf, p', List.mem_append_left _ hp', hrest⟩
    | inr hq =>
      rw [List.mem_singleton.mp hq]
      exact Or.inl ⟨p.row c (s.lastId + 1), by simp [RelayStore.insert, RelayStore.insertFrame,
        Publish.row], p, by simp, rfl, rfl, rfl⟩

theorem RelayStore.mem_doomed {key : StreamKey} {nowMs : ℕ} {caps : DurableCaps} {id : ℕ}
    (hid : id ∈ s.doomed key nowMs caps) : ∃ f ∈ s.channel key, f.id = id := by
  obtain ⟨k, _, hmem, _⟩ := oversize_spec caps.maxBytes (s.channel key)
    (s.aged key nowMs caps)
  have hrow : id ∈ (s.channel key).map (·.id) := by
    cases (hmem id).mp hid with
    | inl haged =>
      obtain ⟨f, hf, hfid⟩ := List.mem_map.mp haged
      exact List.mem_map.mpr ⟨f, (List.mem_filter.mp hf).1, hfid⟩
    | inr htake => exact List.map_subset _ (List.take_subset _ _) htake
  simpa using hrow

theorem Retains.key_of_doomed (h : Retains c acks s) {key : StreamKey} {nowMs : ℕ}
    {caps : DurableCaps} {id : ℕ} (hid : id ∈ s.doomed key nowMs caps) :
    ∀ f ∈ s.frames, f.id = id → f.key = key := by
  intro f hf hfid
  obtain ⟨g, hg, hgid⟩ := mem_doomed hid
  obtain ⟨hg, hgk⟩ := RelayStore.mem_channel.mp hg
  rw [eq_of_id h.sorted hf hg (hfid.trans hgid.symm), hgk]

theorem RelayStore.publish_cases [DecidableEq H] (c : RelayCodec H) (s : RelayStore H)
    (p : Publish) :
    (∃ b ∈ s.batches, b.key = p.key ∧ batchOpsHash c p.batch = some b.opsH ∧
      s.publish c p = (s, .duplicate b.firstSeenMs)) ∨
    s.publish c p = (((s.insert c p).doomed p.key p.nowMs p.caps).foldl
      (deleteFrame p.key) (s.insert c p),
        .fresh p.nowMs ((s.insert c p).doomed p.key p.nowMs p.caps).length) := by
  unfold publish relayAppend
  cases hseen : (batchOpsHash c p.batch).bind (s.seen p.key) with
  | none => exact Or.inr rfl
  | some b =>
    left
    obtain ⟨opsH, hopsH, hb⟩ := Option.bind_eq_some_iff.mp hseen
    have hbk := List.find?_some hb
    simp only [Bool.decide_and, Bool.and_eq_true, decide_eq_true_eq] at hbk
    refine ⟨b, List.mem_of_find?_eq_some hb, hbk.1, ?_, rfl⟩
    rw [hopsH, hbk.2]

/-- **An append keeps the invariant**, whatever it stores and whatever retention deletes. -/
theorem Retains.publish [DecidableEq H] (hc : Function.Injective c.blake3)
    (h : Retains c acks s) (p : Publish) : Retains c (acks ++ [p]) (s.publish c p).1 := by
  cases publish_cases c s p with
  | inr hfresh =>
    rw [hfresh]
    exact (h.insert p).deleteFrames fun id hid => (h.insert p).key_of_doomed hid
  | inl hdup =>
    obtain ⟨b, hb, hbk, hopsH, heq⟩ := hdup
    rw [heq]
    refine ⟨h.sorted, h.le_lastId, fun f hf => ?_, fun x hx => ?_, fun q hq => ?_⟩
    · obtain ⟨q, hq, hrow⟩ := h.origin f hf
      exact ⟨q, List.mem_append_left _ hq, hrow⟩
    · obtain ⟨f, hf, hid, q, hq, hrest⟩ := h.batch x hx
      exact ⟨f, hf, hid, q, List.mem_append_left _ hq, hrest⟩
    · cases List.mem_append.mp hq with
      | inl hq =>
        refine (h.held q hq).imp_left ?_
        rintro ⟨f, hf, p', hp', hrest⟩
        exact ⟨f, hf, p', List.mem_append_left _ hp', hrest⟩
      | inr hq =>
        -- the ops are those of the first copy, and its frame is still held
        rw [List.mem_singleton.mp hq]
        obtain ⟨f, hf, -, p', hp', hrow, hkey, hhash⟩ := h.batch b hb
        exact Or.inl ⟨f, hf, p', List.mem_append_left _ hp', hrow, hkey.trans hbk,
          batchOpsHash_injective hc hhash hopsH⟩

/-! ### The two bounds -/

theorem RelayStore.frames_deleteFrames (key : StreamKey) (gone : List ℕ) (s : RelayStore H) :
    (gone.foldl (deleteFrame key) s).frames = s.frames.filter (·.id ∉ gone) := by
  induction gone generalizing s with
  | nil => simp
  | cons id gone ih =>
    rw [List.foldl_cons, ih, deleteFrame, List.filter_filter]
    refine List.filter_congr fun f _ => ?_
    by_cases hf : f.id = id <;> simp [hf]

theorem RelayStore.channel_deleteFrames (key key' : StreamKey) (gone : List ℕ)
    (s : RelayStore H) : (gone.foldl (deleteFrame key) s).channel key' =
      (s.channel key').filter (·.id ∉ gone) := by
  rw [channel, frames_deleteFrames, channel, List.filter_filter,
    List.filter_filter]
  simp only [Bool.and_comm]

theorem RelayStore.channel_insert (c : RelayCodec H) (s : RelayStore H) (p : Publish)
    (key : StreamKey) : (s.insert c p).channel key =
      s.channel key ++ if p.key = key then [p.row c (s.lastId + 1)] else [] := by
  show ((s.frames ++ [p.row c (s.lastId + 1)]).filter (·.key = key)) = _
  rw [List.filter_append, List.filter_singleton]
  congr 1
  by_cases hkey : p.key = key <;> simp [hkey]

theorem Retains.channel_of_ne [DecidableEq H] (h : Retains c acks s) (p : Publish)
    {key : StreamKey} (hkey : key ≠ p.key) : (s.publish c p).1.channel key = s.channel key := by
  cases publish_cases c s p with
  | inl hdup =>
    obtain ⟨b, _, _, _, heq⟩ := hdup
    rw [heq]
  | inr hfresh =>
    rw [hfresh, channel_deleteFrames, channel_insert, if_neg hkey.symm,
      List.append_nil, List.filter_eq_self]
    intro f hf
    obtain ⟨hf, hfk⟩ := RelayStore.mem_channel.mp hf
    have hins : f ∈ (s.insert c p).frames := List.mem_append_left _ hf
    simp only [decide_eq_true_eq]
    intro hid
    exact hkey (hfk.symm.trans ((h.insert p).key_of_doomed hid f hins rfl))

theorem RelayStore.not_aged (c : RelayCodec H) {s : RelayStore H}
    (hs : s.frames.Pairwise fun f g => f.id < g.id) {p : Publish} {id : ℕ}
    (hrow : p.row c id ∈ s.frames) : id ∉ s.aged p.key p.nowMs p.caps := by
  intro hid
  obtain ⟨f, hf, hfid⟩ := List.mem_map.mp hid
  obtain ⟨hf, hold⟩ := List.mem_filter.mp hf
  have hfrow : f = p.row c id :=
    eq_of_id hs (RelayStore.mem_channel.mp hf).1 hrow hfid
  have hcreated : f.createdMs = i64Of p.nowMs := by rw [hfrow]; rfl
  have hbound : i64Of p.nowMs = min p.nowMs storeMax := rfl
  simp only [decide_eq_true_eq] at hold
  rw [hcreated, hbound] at hold
  split at hold <;> omega

theorem RelayStore.eq_of_fresh [DecidableEq H] {p : Publish} {s' : RelayStore H}
    {nowMs evicted : ℕ} (hp : s.publish c p = (s', .fresh nowMs evicted)) :
    s' = ((s.insert c p).doomed p.key p.nowMs p.caps).foldl
      (deleteFrame p.key) (s.insert c p) := by
  cases publish_cases c s p with
  | inl hdup =>
    obtain ⟨b, _, _, _, heq⟩ := hdup
    rw [heq] at hp
    cases hp
  | inr hfresh =>
    rw [hfresh] at hp
    exact (congrArg Prod.fst hp).symm

theorem Retains.not_doomed (h : Retains c acks s) (p : Publish) :
    s.lastId + 1 ∉ (s.insert c p).doomed p.key p.nowMs p.caps := by
  have hins := h.insert p
  obtain ⟨k, hk, hmem, -⟩ := oversize_spec p.caps.maxBytes
    ((s.insert c p).channel p.key) ((s.insert c p).aged p.key p.nowMs p.caps)
  intro hid
  cases (hmem _).mp hid with
  | inl haged =>
    have hrow : p.row c (s.lastId + 1) ∈ (s.insert c p).frames :=
      List.mem_append_right _ (List.mem_singleton.mpr rfl)
    exact not_aged c hins.sorted hrow haged
  | inr htake =>
    -- the scan stops short of the last row, and the rows before it are older
    rw [channel_insert, if_pos rfl] at hk htake
    have hk' : k ≤ (s.channel p.key).length := by
      cases hk with
      | inl hnil => simp at hnil
      | inr hk => simpa [Nat.lt_succ_iff] using hk
    rw [List.take_append_of_le_length hk'] at htake
    obtain ⟨f, hf, hfid⟩ := List.mem_map.mp htake
    have hold := h.le_lastId f (RelayStore.mem_channel.mp (List.mem_of_mem_take hf)).1
    omega

section

variable [DecidableEq H] (h : Retains c acks s) {p : Publish} {s' : RelayStore H}
  {nowMs evicted : ℕ}
include h

/-- **The newest frame is kept.** -/
theorem Retains.newest_kept (hp : s.publish c p = (s', .fresh nowMs evicted)) :
    (s'.channel p.key).getLast? = some (p.row c (s.lastId + 1)) := by
  rw [eq_of_fresh hp, channel_deleteFrames, channel_insert,
    if_pos rfl, List.filter_append, List.filter_singleton]
  simp [h.not_doomed p]

/-- **A channel is within its size**, or the frame just stored is all that is left. -/
theorem Retains.bounded (hp : s.publish c p = (s', .fresh nowMs evicted)) :
    ((s'.channel p.key).map (·.nBytes)).sum ≤ p.caps.maxBytes ∨
      s'.channel p.key = [p.row c (s.lastId + 1)] := by
  obtain ⟨k, -, hmem, hrest⟩ := oversize_spec p.caps.maxBytes
    ((s.insert c p).channel p.key) ((s.insert c p).aged p.key p.nowMs p.caps)
  have hsub : (s'.channel p.key).Sublist (((s.insert c p).channel p.key).drop k) := by
    rw [eq_of_fresh hp, channel_deleteFrames]
    rw [← List.take_append_drop k ((s.insert c p).channel p.key), List.filter_append,
      List.take_append_drop]
    have hgone : (((s.insert c p).channel p.key).take k).filter
        (·.id ∉ (s.insert c p).doomed p.key p.nowMs p.caps) = [] := by
      refine List.filter_eq_nil_iff.mpr fun f hf => ?_
      have hdoomed : f.id ∈ (s.insert c p).doomed p.key p.nowMs p.caps :=
        (hmem f.id).mpr (Or.inr (List.mem_map_of_mem hf))
      simpa using hdoomed
    rw [hgone, List.nil_append]
    exact List.filter_sublist
  refine hrest.imp (fun hsum => ?_) fun hone => ?_
  · exact le_trans ((hsub.map _).sum_le_sum fun _ _ => Nat.zero_le _) hsum
  · have hlast := h.newest_kept hp
    have hlen : (s'.channel p.key).length ≤ 1 := le_trans hsub.length_le hone
    match hrows : s'.channel p.key with
    | [] => simp [hrows] at hlast
    | [f] => simpa [hrows] using hlast
    | f :: g :: l => simp [hrows] at hlen

end

/-! ### The watermarks a trim leaves -/

theorem RelayStore.headsOf_deleteFrame {key : StreamKey} {id id' : ℕ} (h : id' ≠ id) :
    (deleteFrame key s id).headsOf id' = s.headsOf id' := by
  unfold headsOf deleteFrame
  rw [List.find?_filter]
  congr 3
  funext f
  by_cases hf : f.id = id'
  · simp [hf, h]
  · simp [hf]

theorem RelayStore.evicted_deleteFrames {key : StreamKey} {gone : List ℕ} (h : gone.Nodup) :
    (gone.foldl (RelayStore.deleteFrame key) s).evicted key =
      Watermarks.raiseAll (s.evicted key) (gone.flatMap s.headsOf) := by
  induction gone generalizing s with
  | nil => rfl
  | cons id gone ih =>
    obtain ⟨hid, hgone⟩ := List.nodup_cons.mp h
    have hheads : gone.flatMap (RelayStore.deleteFrame key s id).headsOf =
        gone.flatMap s.headsOf := by
      refine List.flatMap_congr fun id' hid' => RelayStore.headsOf_deleteFrame fun heq => ?_
      exact hid (heq ▸ hid')
    rw [List.foldl_cons, ih hgone, hheads, List.flatMap_cons, Watermarks.raiseAll_append]
    congr 1
    exact Function.update_self _ _ _

theorem RelayStore.evicted_of_ne [DecidableEq H] (c : RelayCodec H) (s : RelayStore H)
    (p : Publish) {key : StreamKey} (hkey : key ≠ p.key) :
    (s.publish c p).1.evicted key = s.evicted key := by
  have hfold : ∀ (gone : List ℕ) (t : RelayStore H),
      (gone.foldl (deleteFrame p.key) t).evicted key = t.evicted key := by
    intro gone
    induction gone with
    | nil => exact fun _ => rfl
    | cons id gone ih =>
      intro t
      rw [List.foldl_cons, ih]
      exact Function.update_of_ne hkey _ _
  cases publish_cases c s p with
  | inl hdup =>
    obtain ⟨b, _, _, _, heq⟩ := hdup
    rw [heq]
  | inr hfresh =>
    rw [hfresh, hfold]
    rfl

theorem Retains.evicted_of_drop [DecidableEq H] (h : Retains c acks s) {p : Publish}
    {s' : RelayStore H} {nowMs evicted k : ℕ}
    (hp : s.publish c p = (s', .fresh nowMs evicted))
    (hk : s'.channel p.key = ((s.insert c p).channel p.key).drop k) :
    s'.evicted p.key = Watermarks.raiseAll (s.evicted p.key)
      ((((s.insert c p).channel p.key).take k).flatMap fun f => f.heads.rows) := by
  have hins := h.insert p
  set rows := (s.insert c p).channel p.key with hrows
  set gone := (s.insert c p).doomed p.key p.nowMs p.caps with hgone
  have hids : (rows.map (·.id)).Nodup :=
    (RelayStore.nodup_ids hins.sorted).sublist (List.filter_sublist.map _)
  have hnodup : gone.Nodup := by
    refine RelayStore.oversize_nodup (List.Nodup.sublist ?_ hids)
    exact List.filter_sublist.map _
  have hleft : rows.filter (·.id ∉ gone) = rows.drop k := by
    rw [← hk, RelayStore.eq_of_fresh hp, RelayStore.channel_deleteFrames]
  have hperm : gone.Perm ((rows.take k).map (·.id)) := by
    refine (List.perm_ext_iff_of_nodup hnodup
      (hids.sublist ((List.take_sublist _ _).map _))).mpr fun id => ⟨fun hid => ?_, fun hid => ?_⟩
    · obtain ⟨f, hf, rfl⟩ := RelayStore.mem_doomed hid
      rw [← hrows, ← List.take_append_drop k rows] at hf
      cases List.mem_append.mp hf with
      | inl hf => exact List.mem_map_of_mem hf
      | inr hf =>
        rw [← hleft] at hf
        exact absurd hid (by simpa using (List.mem_filter.mp hf).2)
    · obtain ⟨f, hf, rfl⟩ := List.mem_map.mp hid
      by_contra hne
      have hf' : f ∈ rows.drop k := by
        rw [← hleft]
        exact List.mem_filter.mpr ⟨List.mem_of_mem_take hf, by simpa using hne⟩
      exact List.disjoint_take_drop hids.of_map le_rfl hf hf'
  rw [RelayStore.eq_of_fresh hp, RelayStore.evicted_deleteFrames hnodup,
    Watermarks.raiseAll_perm _ (hperm.flatMap_right _), List.flatMap_map]
  refine congrArg _ (List.flatMap_congr fun f hf => ?_)
  exact RelayStore.headsOf_eq hins.sorted
    (RelayStore.mem_channel.mp (List.mem_of_mem_take hf)).1

/-! ### Completeness -/

theorem covered_iff {heads : List (Bytes × ℕ)} {cs : Cursors} :
    covered heads cs = true ↔
      heads ≠ [] ∧ ∀ h ∈ heads, ∃ n, cs.get h.1 = some n ∧ h.2 ≤ n := by
  unfold covered
  rw [Bool.and_eq_true, List.all_eq_true, Bool.not_eq_true', List.isEmpty_eq_false_iff]
  refine and_congr_right fun _ => forall₂_congr fun h _ => ?_
  cases cs.get h.1 with
  | none => simp
  | some n => simp

/-- **Replay is complete**: an op of an acked batch that is beyond the subscriber's cursor is
in a frame it is sent, or inside a gap it is told of. -/
theorem Retains.replay_complete (h : Retains c acks s) {p : Publish} (hp : p ∈ acks)
    {op d : Bytes} {n : ℕ} (hop : op ∈ p.batch.ops) (hread : c.header op = some (d, n))
    (hn : n ≤ storeMax) {cs : Cursors} (hcs : cs.seqOf d < n) :
    (∃ f ∈ (s.relayReplayAfter p.key 0 cs).1, ∃ p' ∈ acks, p'.key = p.key ∧
      op ∈ p'.batch.ops ∧ f.bytes = p'.frame c) ∨
    ∃ g ∈ (s.relayReplayAfter p.key 0 cs).2, g.deviceId = d ∧ n ≤ g.evictedThrough := by
  have hroute : (d, n) ∈ routes c p.batch.ops := List.mem_filterMap.mpr ⟨op, hop, hread⟩
  cases h.held p hp with
  | inl hframe =>
    left
    obtain ⟨f, hf, p', hp', hrow, hkey, hops⟩ := hframe
    obtain ⟨m, hm, hle⟩ := Publish.le_row_heads c f.id (hops ▸ hroute)
    rw [← hrow] at hm
    have hchan : f ∈ s.channel p.key := by
      refine RelayStore.mem_channel.mpr ⟨hf, ?_⟩
      rw [hrow]
      exact hkey
    have hsent : covered f.heads.rows cs = false := by
      rw [Bool.eq_false_iff]
      intro hcov
      obtain ⟨k, hk, hmk⟩ := (covered_iff.mp hcov).2 _ hm
      have hat : cs.seqOf d = k := by rw [Cursors.seqOf, hk]; rfl
      rw [i64Of_eq_self.mpr hn] at hle
      rw [hat] at hcs
      exact absurd (le_trans hle hmk) (Nat.not_le.mpr hcs)
    refine ⟨⟨f.id, f.bytes, f.nOps⟩, ?_, p', hp', hkey, hops ▸ hop, ?_⟩
    · exact List.mem_map.mpr ⟨f, List.mem_filter.mpr ⟨hchan, by simp [hsent]⟩, rfl⟩
    · rw [hrow]
      rfl
  | inr hmarks =>
    right
    obtain ⟨m, hm, hle⟩ := hmarks (d, n) hroute
    rw [i64Of_eq_self.mpr hn] at hle
    refine ⟨⟨d, cs.seqOf d, m⟩, ?_, rfl, hle⟩
    refine List.mem_filterMap.mpr ⟨(d, m), Table.mem_rows.mpr hm, ?_⟩
    rw [if_pos (lt_of_lt_of_le hcs hle)]

end

end Sunrise
