import Mathlib.Algebra.BigOperators.Group.List.Basic
import Mathlib.Data.Finset.Sort
import Sunrise.Lib.Table
import Sunrise.Sync.Frame

/-!
# The outbox and its batches

Every op a device seals has a row in its outbox until the relay has acked it. A session
drains the outbox: the unacked ops that are not in flight are grouped by stream, in the order
the streams are first met, and each group is sent as one batch. A batch is not cut, so a
stream's backlog is sent while it fits in one frame, and once it does not the drain fails and
with it the session.

## Main results

* `canSend_iff` — **everything is sent exactly when each stream's backlog fits a frame**.
* `not_canSend_backlog` — two edits that cannot be sent together.
-/

namespace Sunrise

open Cbor

/-! ### The outbox -/

/-- An op's id: sixteen bytes, read as a number. -/
abbrev OpId := ℕ

/-- A row of `outbox`, under its op's id. -/
structure OutboxRow where
  streamId : StreamId
  enqueuedAtMs : ℕ
  ackedAtMs : Option ℕ
deriving DecidableEq

structure OutboxEntry where
  opId : OpId
  streamId : StreamId
  enqueuedAtMs : ℕ
deriving DecidableEq

/-- An op with its sealed envelope. -/
abbrev OutboxOp := OpId × Bytes

abbrev OutboxGroup := StreamId × List OutboxOp

/-- What a drain reads of the vault. -/
structure SyncCore where
  /-- `outbox`. -/
  outbox : Table OpId OutboxRow
  envelope : OpId → Option Bytes
  /-- The streams the tables name, with their cursors. -/
  entries : List SubscribeEntry

namespace SyncCore

variable (core : SyncCore)

def enqueue (id : OpId) (streamId : StreamId) (enqueuedAtMs : ℕ) : SyncCore :=
  { core with outbox := core.outbox.insertOrIgnore id ⟨streamId, enqueuedAtMs, none⟩ }

def markAcked (id : OpId) (ackedAtMs : ℕ) : SyncCore :=
  match core.outbox.find id with
  | some row => { core with outbox := core.outbox.upsert id { row with ackedAtMs := ackedAtMs } }
  | none => core

def listUnacked : List OutboxEntry :=
  ((core.outbox.rows.filter fun r => r.2.ackedAtMs.isNone).map fun r =>
    (⟨r.1, r.2.streamId, r.2.enqueuedAtMs⟩ : OutboxEntry)).insertionSort fun a b =>
      a.enqueuedAtMs < b.enqueuedAtMs ∨ a.enqueuedAtMs = b.enqueuedAtMs ∧ a.opId ≤ b.opId

end SyncCore

/-- Add an op to its stream's group, or to a new one at the end. -/
def pushOp : List OutboxGroup → StreamId → OutboxOp → List OutboxGroup
  | [], s, op => [(s, [op])]
  | g :: groups, s, op =>
    if g.1 = s then (g.1, g.2 ++ [op]) :: groups else g :: pushOp groups s op

/-- Ops grouped by their streams, in the order the streams are first met. -/
def groupOps (ops : List (StreamId × OutboxOp)) : List OutboxGroup :=
  ops.foldl (fun groups x => pushOp groups x.1 x.2) []

/-- The unacked ops that are not to be skipped, with their envelopes. -/
def SyncCore.sendable (core : SyncCore) (skip : Finset OpId) : List (StreamId × OutboxOp) :=
  core.listUnacked.filterMap fun e =>
    if e.opId ∈ skip then none
    else (core.envelope e.opId).map fun env => (e.streamId, e.opId, env)

/-- The unacked ops that are not to be skipped, by stream. -/
def SyncCore.outboxGrouped (core : SyncCore) (skip : Finset OpId) : List OutboxGroup :=
  groupOps (core.sendable skip)

/-! ### The session's batches -/

/-- A batch that is not acked yet. -/
structure InflightBatch where
  opIds : List OpId
  payload : OpBatchPayload
  frame : Bytes
deriving DecidableEq

/-- What is to be sent next. -/
inductive Outgoing where
  | frame (bytes : Bytes)
  | batch (batchId : ℕ)
deriving DecidableEq

/-- What a session keeps of its batches. A session makes far fewer batches than the counter
has numbers. -/
structure Pump where
  subscribed : Finset StreamId
  inflightOps : Finset OpId
  inflight : Table ℕ InflightBatch
  batchCounter : ℕ
  pendingSends : List Outgoing

/-- A session that has sent nothing. -/
def Pump.new (subscribed : Finset StreamId) : Pump := ⟨subscribed, ∅, ∅, 0, []⟩

/-- The subscription of a session: what the tables name, and the rest of its streams. -/
def SyncCore.subscribeSession (core : SyncCore) (subscribed : Finset StreamId) :
    SubscribePayload where
  streams := core.entries ++
    ((subscribed.filter fun s => s ∉ core.entries.map (·.streamId)).sort (· ≤ ·)).map fun s =>
      ⟨[], s⟩

section

variable (cbor : Cbor.Codec) (z : Zstd)

def Pump.push (st : Pump) (g : OutboxGroup) (frame : Bytes) : Pump :=
  { st with
    inflightOps := st.inflightOps ∪ (g.2.map (·.1)).toFinset
    inflight := st.inflight.upsert (st.batchCounter + 1)
      ⟨g.2.map (·.1), ⟨g.2.map (·.2), st.batchCounter + 1, g.1⟩, frame⟩
    batchCounter := st.batchCounter + 1
    pendingSends := st.pendingSends ++ [.batch (st.batchCounter + 1)] }

/-- Put a group in flight as one batch. -/
def sendGroup (st : Pump) (g : OutboxGroup) : Option Pump :=
  if g.2 = [] then some st
  else
    match encodeFrame z .opBatch false
        ((⟨g.2.map (·.2), st.batchCounter + 1, g.1⟩ : OpBatchPayload).encode cbor) with
    | .error _ => none
    | .ok frame => some (st.push g frame)

/-- The streams of a session with those of some groups. -/
def growSubscribed (subscribed : Finset StreamId) (groups : List OutboxGroup) :
    Finset StreamId :=
  groups.foldl (fun s g => if g.2 = [] then s else insert g.1 s) subscribed

/-- Drain the outbox: one subscription for the streams that are new, and a batch for each
stream. Nothing where a frame is too large. -/
def buildOutboxFrames (core : SyncCore) (st : Pump) : Option Pump :=
  let groups := core.outboxGrouped st.inflightOps
  let subscribed := growSubscribed st.subscribed groups
  let announced :=
    if subscribed = st.subscribed then some st
    else
      match encodeFrame z .subscribe false ((core.subscribeSession subscribed).encode cbor) with
      | .error _ => none
      | .ok frame =>
        some { st with subscribed, pendingSends := st.pendingSends ++ [.frame frame] }
  announced.bind fun st => groups.foldlM (sendGroup cbor z) st

end

/-! ### Groups -/

def firstSeen (streams : List StreamId) : List StreamId :=
  streams.foldl (fun seen s => if s ∈ seen then seen else seen ++ [s]) []

theorem firstSeen_concat (streams : List StreamId) (s : StreamId) :
    firstSeen (streams ++ [s]) =
      if s ∈ firstSeen streams then firstSeen streams else firstSeen streams ++ [s] := by
  unfold firstSeen
  rw [List.foldl_append]
  rfl

theorem mem_firstSeen {streams : List StreamId} {s : StreamId} :
    s ∈ firstSeen streams ↔ s ∈ streams := by
  induction streams using List.reverseRecOn with
  | nil => simp [firstSeen]
  | append_singleton streams t ih =>
    rw [firstSeen_concat, List.mem_append, List.mem_singleton]
    split
    next ht =>
      rw [ih]
      constructor
      · exact .inl
      · rintro (h | rfl)
        · exact h
        · exact ih.mp ht
    next => rw [List.mem_append, List.mem_singleton, ih]

theorem nodup_firstSeen (streams : List StreamId) : (firstSeen streams).Nodup := by
  induction streams using List.reverseRecOn with
  | nil => exact List.nodup_nil
  | append_singleton streams t ih =>
    rw [firstSeen_concat]
    split
    next => exact ih
    next ht => exact List.Nodup.append ih (List.nodup_singleton t) (by simpa using ht)

theorem pushOp_map {streams : List StreamId} (h : streams.Nodup)
    (f : StreamId → List OutboxOp) (s : StreamId) (op : OutboxOp) :
    pushOp (streams.map fun t => (t, f t)) s op =
      if s ∈ streams then streams.map fun t => (t, if t = s then f t ++ [op] else f t)
      else streams.map (fun t => (t, f t)) ++ [(s, [op])] := by
  induction streams with
  | nil => rfl
  | cons t streams ih =>
    obtain ⟨ht, h⟩ := List.nodup_cons.mp h
    rw [List.map_cons, pushOp]
    by_cases hts : t = s
    · subst hts
      rw [if_pos rfl, if_pos List.mem_cons_self, List.map_cons, if_pos rfl]
      congr 1
      apply List.map_congr_left
      intro u hu
      rw [if_neg]
      rintro rfl
      exact ht hu
    · rw [if_neg hts, ih h]
      by_cases hs : s ∈ streams
      · rw [if_pos hs, if_pos (List.mem_cons_of_mem _ hs), List.map_cons, if_neg hts]
      · rw [if_neg hs, if_neg]
        · rfl
        intro hmem
        rcases List.mem_cons.mp hmem with rfl | hmem
        · exact hts rfl
        · exact hs hmem

/-- **The groups are the streams in the order they are first met, each with its ops.** -/
theorem groupOps_eq (ops : List (StreamId × OutboxOp)) :
    groupOps ops = (firstSeen (ops.map (·.1))).map fun s =>
      (s, (ops.filter fun x => x.1 = s).map (·.2)) := by
  induction ops using List.reverseRecOn with
  | nil => rfl
  | append_singleton ops x ih =>
    have hpush : groupOps (ops ++ [x]) = pushOp (groupOps ops) x.1 x.2 := by
      unfold groupOps
      rw [List.foldl_append]
      rfl
    have hfilter : ∀ s, ((ops ++ [x]).filter fun y => y.1 = s).map (·.2) =
        if s = x.1 then ((ops.filter fun y => y.1 = s).map (·.2)) ++ [x.2]
        else (ops.filter fun y => y.1 = s).map (·.2) := by
      intro s
      rw [List.filter_append, List.map_append]
      by_cases hs : s = x.1
      · subst hs
        simp
      · have hx : ([x].filter fun y => y.1 = s) = [] := by
          rw [List.filter_eq_nil_iff]
          intro y hy heq
          rw [List.mem_singleton.mp hy] at heq
          exact hs (of_decide_eq_true heq).symm
        rw [if_neg hs, hx, List.map_nil, List.append_nil]
    rw [hpush, ih, pushOp_map (nodup_firstSeen _), List.map_append, List.map_cons, List.map_nil,
      firstSeen_concat]
    split
    next hx =>
      apply List.map_congr_left
      intro s _
      rw [hfilter]
    next hx =>
      rw [List.map_append]
      congr 1
      · apply List.map_congr_left
        intro s hs
        rw [hfilter, if_neg]
        rintro rfl
        exact hx hs
      · rw [List.map_singleton, hfilter, if_pos rfl]
        congr 2
        have hnone : (ops.filter fun y => y.1 = x.1) = [] := by
          rw [List.filter_eq_nil_iff]
          intro y hy heq
          apply hx
          rw [mem_firstSeen, ← of_decide_eq_true heq]
          exact List.mem_map_of_mem hy
        rw [hnone]
        rfl

section

variable {ops : List (StreamId × OutboxOp)}

theorem mem_of_mem_groupOps {g : OutboxGroup}
    (hg : g ∈ groupOps ops) : g.2 ≠ [] ∧ ∀ op ∈ g.2, (g.1, op) ∈ ops := by
  rw [groupOps_eq] at hg
  obtain ⟨s, hs, rfl⟩ := List.mem_map.mp hg
  obtain ⟨x, hx, rfl⟩ := List.mem_map.mp (mem_firstSeen.mp hs)
  constructor
  · intro hnil
    have hmem := List.filter_eq_nil_iff.mp (List.map_eq_nil_iff.mp hnil) x hx
    simp at hmem
  · intro op hop
    obtain ⟨y, hy, rfl⟩ := List.mem_map.mp hop
    obtain ⟨hy, heq⟩ := List.mem_filter.mp hy
    rw [← of_decide_eq_true heq]
    exact hy

theorem exists_mem_groupOps {x : StreamId × OutboxOp}
    (hx : x ∈ ops) : ∃ g ∈ groupOps ops, x.2 ∈ g.2 := by
  rw [groupOps_eq]
  refine ⟨_, List.mem_map_of_mem (mem_firstSeen.mpr (List.mem_map_of_mem hx)), ?_⟩
  exact List.mem_map_of_mem (List.mem_filter.mpr ⟨hx, by simp⟩)

theorem pairwise_groupOps (h : (ops.map fun x => x.2.1).Nodup) :
    (groupOps ops).Pairwise fun g g' => ∀ op ∈ g.2, ∀ op' ∈ g'.2, op.1 ≠ op'.1 := by
  rw [groupOps_eq, List.pairwise_map]
  apply (nodup_firstSeen _).imp
  intro s t hst op hop op' hop' heq
  obtain ⟨x, hx, rfl⟩ := List.mem_map.mp hop
  obtain ⟨y, hy, rfl⟩ := List.mem_map.mp hop'
  obtain ⟨hx, hxs⟩ := List.mem_filter.mp hx
  obtain ⟨hy, hyt⟩ := List.mem_filter.mp hy
  have hxy : x = y := List.inj_on_of_nodup_map h hx hy heq
  apply hst
  rw [← of_decide_eq_true hxs, ← of_decide_eq_true hyt, hxy]

end

/-! ### What the outbox lists -/

namespace SyncCore

variable {core : SyncCore} {skip : Finset OpId}

theorem mem_listUnacked {e : OutboxEntry} :
    e ∈ core.listUnacked ↔
      core.outbox.find e.opId = some ⟨e.streamId, e.enqueuedAtMs, none⟩ := by
  unfold listUnacked
  rw [List.mem_insertionSort, List.mem_map]
  constructor
  · rintro ⟨⟨id, row⟩, hr, rfl⟩
    obtain ⟨hr, hacked⟩ := List.mem_filter.mp hr
    obtain ⟨s, ms, acked⟩ := row
    obtain rfl : acked = none := Option.isNone_iff_eq_none.mp hacked
    exact Table.mem_rows.mp hr
  · intro h
    exact ⟨(e.opId, _), List.mem_filter.mpr ⟨Table.mem_rows.mpr h, rfl⟩, rfl⟩

theorem nodup_listUnacked : (core.listUnacked.map (·.opId)).Nodup := by
  have hperm := (List.perm_insertionSort (fun a b : OutboxEntry =>
    a.enqueuedAtMs < b.enqueuedAtMs ∨ a.enqueuedAtMs = b.enqueuedAtMs ∧ a.opId ≤ b.opId)
    ((core.outbox.rows.filter fun r => r.2.ackedAtMs.isNone).map fun r =>
      (⟨r.1, r.2.streamId, r.2.enqueuedAtMs⟩ : OutboxEntry))).map (·.opId)
  apply hperm.nodup_iff.mpr
  rw [List.map_map]
  have hrows : (core.outbox.rows.map (·.1)).Nodup :=
    List.pairwise_map.mpr (core.outbox.sorted.imp fun h => h.ne)
  exact hrows.sublist (List.filter_sublist.map _)

theorem mem_sendable {x : StreamId × OutboxOp} :
    x ∈ core.sendable skip ↔ x.2.1 ∉ skip ∧ core.envelope x.2.1 = some x.2.2 ∧
      ∃ ms, core.outbox.find x.2.1 = some ⟨x.1, ms, none⟩ := by
  unfold sendable
  rw [List.mem_filterMap]
  constructor
  · rintro ⟨e, he, hx⟩
    split at hx
    · simp at hx
    next hskip =>
      obtain ⟨env, henv, rfl⟩ := Option.map_eq_some_iff.mp hx
      exact ⟨hskip, henv, e.enqueuedAtMs, mem_listUnacked.mp he⟩
  · rintro ⟨hskip, henv, ms, hrow⟩
    refine ⟨⟨x.2.1, x.1, ms⟩, mem_listUnacked.mpr hrow, ?_⟩
    rw [if_neg hskip, henv]
    rfl

theorem nodup_sendable : ((core.sendable skip).map fun x => x.2.1).Nodup := by
  have hids : ∀ l : List OutboxEntry, ((l.filterMap fun e =>
      if e.opId ∈ skip then none
      else (core.envelope e.opId).map fun env => (e.streamId, e.opId, env)).map
        fun x => x.2.1).Sublist (l.map (·.opId)) := by
    intro l
    induction l with
    | nil => exact List.Sublist.refl _
    | cons e l ih =>
      rw [List.filterMap_cons, List.map_cons]
      split
      next => exact ih.cons _
      next x hx =>
        have hid : x.2.1 = e.opId := by
          split at hx
          · simp at hx
          · obtain ⟨env, -, rfl⟩ := Option.map_eq_some_iff.mp hx
            rfl
        rw [List.map_cons, hid]
        exact ih.cons_cons _
  exact nodup_listUnacked.sublist (hids _)

end SyncCore

/-! ### What a session keeps -/

/-- What holds of a session's batches: the ops in flight are theirs, no op is in two, none
has a number above the last, and each has the frame of what it carries. -/
structure Pump.Sound (cbor : Cbor.Codec) (z : Zstd) (st : Pump) : Prop where
  ops : ∀ id, id ∈ st.inflightOps ↔ ∃ n b, st.inflight.find n = some b ∧ id ∈ b.opIds
  disjoint : ∀ m n b b' id, st.inflight.find m = some b → st.inflight.find n = some b' →
    id ∈ b.opIds → id ∈ b'.opIds → m = n
  le_counter : ∀ n b, st.inflight.find n = some b → n ≤ st.batchCounter
  numbered : ∀ n b, st.inflight.find n = some b → b.payload.batchId = n
  framed : ∀ n b, st.inflight.find n = some b →
    encodeFrame z .opBatch false (b.payload.encode cbor) = .ok b.frame

section

variable {cbor : Cbor.Codec} {z : Zstd} {st st' : Pump} {g : OutboxGroup} {frame : Bytes}
  {groups : List OutboxGroup}

theorem Pump.sound_new (subscribed : Finset StreamId) : (Pump.new subscribed).Sound cbor z where
  ops := by simp [Pump.new]
  disjoint := by simp [Pump.new]
  le_counter := by simp [Pump.new]
  numbered := by simp [Pump.new]
  framed := by simp [Pump.new]

theorem sendGroup_eq_some (hne : g.2 ≠ []) :
    sendGroup cbor z st g = some st' ↔ ∃ frame,
      encodeFrame z .opBatch false
        ((⟨g.2.map (·.2), st.batchCounter + 1, g.1⟩ : OpBatchPayload).encode cbor) = .ok frame ∧
      st' = st.push g frame := by
  unfold sendGroup
  rw [if_neg hne]
  split
  next e he => simp [he]
  next frame he =>
    rw [he]
    constructor
    · intro h
      exact ⟨frame, rfl, (Option.some.inj h).symm⟩
    · rintro ⟨frame', heq, rfl⟩
      rw [Except.ok.inj heq]

/-- **A batch of ops that are not in flight keeps the invariant.** -/
theorem Pump.Sound.push (h : st.Sound cbor z) (hnew : ∀ op ∈ g.2, op.1 ∉ st.inflightOps)
    (hframe : encodeFrame z .opBatch false
      ((⟨g.2.map (·.2), st.batchCounter + 1, g.1⟩ : OpBatchPayload).encode cbor) = .ok frame) :
    (st.push g frame).Sound cbor z := by
  have hfind : ∀ n b, (st.push g frame).inflight.find n = some b ↔
      n = st.batchCounter + 1 ∧
        b = ⟨g.2.map (·.1), ⟨g.2.map (·.2), st.batchCounter + 1, g.1⟩, frame⟩ ∨
      n ≠ st.batchCounter + 1 ∧ st.inflight.find n = some b := by
    intro n b
    show (st.inflight.upsert _ _).find n = some b ↔ _
    by_cases hn : n = st.batchCounter + 1
    · rw [hn, Table.find_upsert_self, Option.some.injEq, eq_comm]
      simp
    · rw [Table.find_upsert_of_ne _ _ hn]
      simp [hn]
  have hin : ∀ n b id, st.inflight.find n = some b → id ∈ b.opIds → id ∈ st.inflightOps :=
    fun n b id hb hid => (h.ops id).mpr ⟨n, b, hb, hid⟩
  have hnot : ∀ id ∈ g.2.map (·.1), id ∉ st.inflightOps := by
    intro id hid
    obtain ⟨op, hop, rfl⟩ := List.mem_map.mp hid
    exact hnew op hop
  constructor
  · intro id
    show id ∈ st.inflightOps ∪ (g.2.map (·.1)).toFinset ↔ _
    rw [Finset.mem_union, List.mem_toFinset, h.ops]
    constructor
    · rintro (⟨n, b, hb, hid⟩ | hid)
      · have hle := h.le_counter n b hb
        exact ⟨n, b, (hfind n b).mpr (.inr ⟨by omega, hb⟩), hid⟩
      · exact ⟨_, _, (hfind _ _).mpr (.inl ⟨rfl, rfl⟩), hid⟩
    · rintro ⟨n, b, hb, hid⟩
      rcases (hfind n b).mp hb with ⟨-, rfl⟩ | ⟨-, hb⟩
      · exact .inr hid
      · exact .inl ⟨n, b, hb, hid⟩
  · intro m n b b' id hb hb' hid hid'
    rcases (hfind m b).mp hb with ⟨rfl, rfl⟩ | ⟨-, hb⟩ <;>
      rcases (hfind n b').mp hb' with ⟨rfl, rfl⟩ | ⟨-, hb'⟩
    · rfl
    · exact absurd (hin n b' id hb' hid') (hnot id hid)
    · exact absurd (hin m b id hb hid) (hnot id hid')
    · exact h.disjoint m n b b' id hb hb' hid hid'
  · intro n b hb
    show n ≤ st.batchCounter + 1
    rcases (hfind n b).mp hb with ⟨rfl, -⟩ | ⟨-, hb⟩
    · exact le_rfl
    · exact (h.le_counter n b hb).trans (Nat.le_succ _)
  · intro n b hb
    rcases (hfind n b).mp hb with ⟨rfl, rfl⟩ | ⟨-, hb⟩
    · rfl
    · exact h.numbered n b hb
  · intro n b hb
    rcases (hfind n b).mp hb with ⟨rfl, rfl⟩ | ⟨-, hb⟩
    · exact hframe
    · exact h.framed n b hb

/-- What sending some groups leaves. -/
structure Pump.Sent (st st' : Pump) (groups : List OutboxGroup) : Prop where
  kept : ∀ n b, st.inflight.find n = some b → st'.inflight.find n = some b
  sent : ∀ g ∈ groups, ∀ op ∈ g.2, op.1 ∈ st'.inflightOps
  fresh : ∀ n b, st'.inflight.find n = some b → st.inflight.find n = some b ∨
    st.batchCounter < n ∧ ∃ g ∈ groups, b.opIds = g.2.map (·.1) ∧
      b.payload.ops = g.2.map (·.2) ∧ b.payload.streamId = g.1
  le : st.batchCounter ≤ st'.batchCounter

theorem Pump.Sound.sendGroups (h : st.Sound cbor z) (hne : ∀ g ∈ groups, g.2 ≠ [])
    (hnew : ∀ g ∈ groups, ∀ op ∈ g.2, op.1 ∉ st.inflightOps)
    (hdis : groups.Pairwise fun g g' => ∀ op ∈ g.2, ∀ op' ∈ g'.2, op.1 ≠ op'.1)
    (hsend : groups.foldlM (sendGroup cbor z) st = some st') :
    st'.Sound cbor z ∧ st.Sent st' groups := by
  induction groups generalizing st with
  | nil =>
    obtain rfl := Option.some.inj hsend
    exact ⟨h, ⟨fun _ _ hb => hb, by simp, fun _ _ hb => .inl hb, le_rfl⟩⟩
  | cons g groups ih =>
    rw [List.foldlM_cons] at hsend
    obtain ⟨mid, hmid, hsend⟩ := Option.bind_eq_some_iff.mp hsend
    obtain ⟨frame, hframe, rfl⟩ := (sendGroup_eq_some (hne g List.mem_cons_self)).mp hmid
    obtain ⟨hhead, hdis⟩ := List.pairwise_cons.mp hdis
    have hpush := h.push (hnew g List.mem_cons_self) hframe
    have hnew' : ∀ g' ∈ groups, ∀ op ∈ g'.2, op.1 ∉ (st.push g frame).inflightOps := by
      intro g' hg' op hop hmem
      rcases Finset.mem_union.mp hmem with hold | hgroup
      · exact hnew g' (List.mem_cons_of_mem _ hg') op hop hold
      · obtain ⟨op', hop', heq⟩ := List.mem_map.mp (List.mem_toFinset.mp hgroup)
        exact hhead g' hg' op' hop' op hop heq
    obtain ⟨hsound, hsent⟩ := ih hpush (fun g' hg' => hne g' (List.mem_cons_of_mem _ hg')) hnew'
      hdis hsend
    have hcounter : (st.push g frame).batchCounter = st.batchCounter + 1 := rfl
    refine ⟨hsound, ⟨?_, ?_, ?_, ?_⟩⟩
    · intro n b hb
      apply hsent.kept
      have hle := h.le_counter n b hb
      exact (Table.find_upsert_of_ne _ _ (by omega)).trans hb
    · intro g' hg' op hop
      rcases List.mem_cons.mp hg' with rfl | hg'
      · -- its batch is kept while the other groups are sent
        refine (hsound.ops _).mpr ⟨_, _, hsent.kept _ _ (Table.find_upsert_self ..), ?_⟩
        exact List.mem_map_of_mem hop
      · exact hsent.sent g' hg' op hop
    · intro n b hb
      rcases hsent.fresh n b hb with hmid | ⟨hlt, g', hg', hrest⟩
      · by_cases hn : n = st.batchCounter + 1
        · have hself : (st.push g frame).inflight.find n =
              some ⟨g.2.map (·.1), ⟨g.2.map (·.2), st.batchCounter + 1, g.1⟩, frame⟩ := by
            rw [hn]
            exact Table.find_upsert_self ..
          rw [hself] at hmid
          obtain rfl := Option.some.inj hmid
          exact .inr ⟨by omega, g, List.mem_cons_self, rfl, rfl, rfl⟩
        · exact .inl ((Table.find_upsert_of_ne _ _ hn).symm.trans hmid)
      · exact .inr ⟨by omega, g', List.mem_cons_of_mem _ hg', hrest⟩
    · have hle := hsent.le
      omega

theorem isSome_sendGroups (hne : ∀ g ∈ groups, g.2 ≠ []) :
    (groups.foldlM (sendGroup cbor z) st).isSome ↔ ∀ i g, groups[i]? = some g →
      frameHeaderLen + ((⟨g.2.map (·.2), st.batchCounter + i + 1, g.1⟩ :
        OpBatchPayload).encode cbor).length ≤ maxFrameBytes := by
  induction groups generalizing st with
  | nil => simp
  | cons g groups ih =>
    rw [List.foldlM_cons]
    have hrest := fun mid : Pump => @ih mid fun g' hg' => hne g' (List.mem_cons_of_mem _ hg')
    constructor
    · intro hsome i g' hg'
      obtain ⟨last, hlast⟩ := Option.isSome_iff_exists.mp hsome
      obtain ⟨mid, hmid, hlast⟩ := Option.bind_eq_some_iff.mp hlast
      obtain ⟨frame, hframe, rfl⟩ := (sendGroup_eq_some (hne g List.mem_cons_self)).mp hmid
      cases i with
      | zero =>
        obtain rfl : g = g' := by simpa using hg'
        exact (encodeFrame_eq_ok.mp hframe).1
      | succ i =>
        have hfits := (hrest _).mp (Option.isSome_of_mem hlast) i g' (by simpa using hg')
        rw [show st.batchCounter + (i + 1) + 1 = (st.push g frame).batchCounter + i + 1 from by
          show _ = st.batchCounter + 1 + i + 1
          omega]
        exact hfits
    · intro hfits
      have hframe := (@encodeFrame_eq_ok z .opBatch _ _).mpr ⟨hfits 0 g rfl, rfl⟩
      have hsend := (@sendGroup_eq_some cbor z _ _ _ (hne g List.mem_cons_self)).mpr
        ⟨_, hframe, rfl⟩
      rw [hsend]
      refine (hrest _).mpr fun i g' hg' => ?_
      have hi := hfits (i + 1) g' (by simpa using hg')
      rw [show st.batchCounter + (i + 1) + 1 = st.batchCounter + 1 + i + 1 from by omega] at hi
      exact hi

theorem mem_growSubscribed {subscribed : Finset StreamId} {s : StreamId} :
    s ∈ growSubscribed subscribed groups ↔
      s ∈ subscribed ∨ ∃ g ∈ groups, g.2 ≠ [] ∧ g.1 = s := by
  unfold growSubscribed
  induction groups generalizing subscribed with
  | nil => simp
  | cons g groups ih =>
    rw [List.foldl_cons, ih]
    by_cases hg : g.2 = []
    · simp [hg]
    · rw [if_neg hg, Finset.mem_insert]
      constructor
      · rintro ((rfl | hs) | ⟨g', hg', hrest⟩)
        · exact .inr ⟨g, List.mem_cons_self, hg, rfl⟩
        · exact .inl hs
        · exact .inr ⟨g', List.mem_cons_of_mem _ hg', hrest⟩
      · rintro (hs | ⟨g', hg', hne, rfl⟩)
        · exact .inl (.inr hs)
        · rcases List.mem_cons.mp hg' with rfl | hg'
          · exact .inl (.inl rfl)
          · exact .inr ⟨g', hg', hne, rfl⟩

theorem SyncCore.groups_spec (core : SyncCore) (skip : Finset OpId) :
    (∀ g ∈ core.outboxGrouped skip, g.2 ≠ []) ∧
      (∀ g ∈ core.outboxGrouped skip, ∀ op ∈ g.2, op.1 ∉ skip) ∧
      (core.outboxGrouped skip).Pairwise fun g g' => ∀ op ∈ g.2, ∀ op' ∈ g'.2, op.1 ≠ op'.1 := by
  refine ⟨fun g hg => (mem_of_mem_groupOps hg).1, fun g hg op hop => ?_,
    pairwise_groupOps SyncCore.nodup_sendable⟩
  exact (SyncCore.mem_sendable.mp ((mem_of_mem_groupOps hg).2 op hop)).1

theorem buildOutboxFrames_eq_some {core : SyncCore}
    (h : buildOutboxFrames cbor z core st = some st') :
    ∃ mid : Pump, mid.inflightOps = st.inflightOps ∧ mid.inflight = st.inflight ∧
      mid.batchCounter = st.batchCounter ∧
      (core.outboxGrouped st.inflightOps).foldlM (sendGroup cbor z) mid = some st' := by
  unfold buildOutboxFrames at h
  obtain ⟨mid, hmid, hsend⟩ := Option.bind_eq_some_iff.mp h
  refine ⟨mid, ?_⟩
  split at hmid
  · obtain rfl := Option.some.inj hmid
    exact ⟨rfl, rfl, rfl, hsend⟩
  · split at hmid
    · simp at hmid
    · obtain rfl := Option.some.inj hmid
      exact ⟨rfl, rfl, rfl, hsend⟩

theorem Pump.Sound.congr (h : st.Sound cbor z) (hops : st'.inflightOps = st.inflightOps)
    (hinflight : st'.inflight = st.inflight) (hcounter : st'.batchCounter = st.batchCounter) :
    st'.Sound cbor z := by
  constructor
  · rw [hops, hinflight]
    exact h.ops
  · rw [hinflight]
    exact h.disjoint
  · rw [hinflight, hcounter]
    exact h.le_counter
  · rw [hinflight]
    exact h.numbered
  · rw [hinflight]
    exact h.framed

/-- **A drain keeps the invariant**, and puts every group in flight. -/
theorem Pump.Sound.buildOutboxFrames {core : SyncCore} (h : st.Sound cbor z)
    (hbuild : buildOutboxFrames cbor z core st = some st') :
    st'.Sound cbor z ∧ st.Sent st' (core.outboxGrouped st.inflightOps) := by
  obtain ⟨mid, hops, hinflight, hcounter, hsend⟩ := buildOutboxFrames_eq_some hbuild
  obtain ⟨hne, hnew, hdis⟩ := core.groups_spec st.inflightOps
  have hmid := h.congr hops hinflight hcounter
  obtain ⟨hsound, hkept, hsent, hfresh, hle⟩ := hmid.sendGroups hne (hops ▸ hnew) hdis hsend
  rw [hinflight] at hkept hfresh
  rw [hcounter] at hfresh hle
  exact ⟨hsound, hkept, hsent, hfresh, hle⟩

end

/-! ### What is sent -/

namespace SyncCore

variable (core : SyncCore) (skip : Finset OpId)

/-- The unacked ops that are not to be skipped, oldest first. -/
def waiting : List OutboxEntry := core.listUnacked.filter fun e => e.opId ∉ skip

/-- Their streams, in the order they are first met. -/
def waitingStreams : List StreamId := firstSeen ((core.waiting skip).map (·.streamId))

def backlog (s : StreamId) (batchId : ℕ) : OpBatchPayload where
  ops := ((core.waiting skip).filter fun e => e.streamId = s).filterMap fun e =>
    core.envelope e.opId
  batchId := batchId
  streamId := s

end SyncCore

section

variable (cbor : Cbor.Codec) (z : Zstd) (core : SyncCore) (st : Pump)

/-- The drain succeeds, every waiting op is then in one batch, and every batch's frame is
within the limit and can be read. -/
def CanSend : Prop :=
  ∃ st', buildOutboxFrames cbor z core st = some st' ∧
    (∀ e ∈ core.waiting st.inflightOps, ∃! n, ∃ b, st'.inflight.find n = some b ∧
      e.opId ∈ b.opIds) ∧
    ∀ n b, st'.inflight.find n = some b → b.frame.length ≤ maxFrameBytes ∧
      ∃ header payload, decodeFrame z b.frame = .ok (header, payload)

/-- Each stream's backlog fits a frame, and so does the subscription a new stream needs. -/
structure OutboxFits : Prop where
  batches : ∀ i s, (core.waitingStreams st.inflightOps)[i]? = some s →
    frameHeaderLen + ((core.backlog st.inflightOps s (st.batchCounter + i + 1)).encode
      cbor).length ≤ maxFrameBytes
  subscription : (∃ s ∈ core.waitingStreams st.inflightOps, s ∉ st.subscribed) →
    frameHeaderLen + ((core.subscribeSession
      (st.subscribed ∪ (core.waitingStreams st.inflightOps).toFinset)).encode cbor).length ≤
        maxFrameBytes

end

section

variable {cbor : Cbor.Codec} {z : Zstd} {core : SyncCore} {st : Pump}

theorem SyncCore.outboxGrouped_eq {skip : Finset OpId}
    (henv : ∀ e ∈ core.listUnacked, (core.envelope e.opId).isSome) :
    (core.outboxGrouped skip).map (·.1) = core.waitingStreams skip ∧
      ∀ g ∈ core.outboxGrouped skip, ∀ n,
        (⟨g.2.map (·.2), n, g.1⟩ : OpBatchPayload) = core.backlog skip g.1 n := by
  have hsendable : core.sendable skip = (core.waiting skip).filterMap fun e =>
      (core.envelope e.opId).map fun env => (e.streamId, e.opId, env) := by
    unfold SyncCore.sendable SyncCore.waiting
    rw [List.filterMap_filter]
    apply List.filterMap_congr
    intro e _
    by_cases he : e.opId ∈ skip <;> simp [he]
  have hsome : ∀ e ∈ core.waiting skip, (core.envelope e.opId).isSome := fun e he =>
    henv e (List.mem_filter.mp he).1
  have hstreams : ∀ l : List OutboxEntry, (∀ e ∈ l, (core.envelope e.opId).isSome) →
      (l.filterMap fun e => (core.envelope e.opId).map fun env =>
        (e.streamId, e.opId, env)).map (·.1) = l.map (·.streamId) := by
    intro l hl
    induction l with
    | nil => rfl
    | cons e l ih =>
      obtain ⟨env, henv⟩ := Option.isSome_iff_exists.mp (hl e List.mem_cons_self)
      rw [List.filterMap_cons, henv, Option.map_some, List.map_cons, List.map_cons,
        ih fun e' he' => hl e' (List.mem_cons_of_mem _ he')]
  have hops : ∀ (s : StreamId) (l : List OutboxEntry),
      ((l.filterMap fun e => (core.envelope e.opId).map fun env =>
        (e.streamId, e.opId, env)).filter fun x => x.1 = s).map (fun x => x.2.2) =
      (l.filter fun e => e.streamId = s).filterMap fun e => core.envelope e.opId := by
    intro s l
    induction l with
    | nil => rfl
    | cons e l ih =>
      cases henv : core.envelope e.opId with
      | none =>
        rw [List.filterMap_cons_none (by rw [henv, Option.map_none]), ih, List.filter_cons]
        split
        · rw [List.filterMap_cons, henv]
        · rfl
      | some env =>
        rw [List.filterMap_cons_some (by rw [henv, Option.map_some]), List.filter_cons,
          List.filter_cons]
        split
        · rw [List.map_cons, ih, List.filterMap_cons, henv]
        · exact ih
  unfold SyncCore.outboxGrouped
  rw [groupOps_eq, hsendable, hstreams _ hsome]
  constructor
  · rw [List.map_map]
    exact List.map_id' _
  · intro g hg n
    obtain ⟨s, -, rfl⟩ := List.mem_map.mp hg
    unfold SyncCore.backlog
    dsimp only
    rw [List.map_map, ← hops]
    rfl

/-- **Everything is sent exactly when each stream's backlog fits a frame**, and the
subscription that new streams need does. -/
theorem canSend_iff (hst : st.Sound cbor z)
    (henv : ∀ e ∈ core.listUnacked, (core.envelope e.opId).isSome) :
    CanSend cbor z core st ↔ OutboxFits cbor core st := by
  obtain ⟨hne, hnew, hdis⟩ := core.groups_spec st.inflightOps
  obtain ⟨hstreams, hbacklog⟩ := @SyncCore.outboxGrouped_eq core st.inflightOps henv
  -- each group is its stream's backlog
  have hbatches : ∀ mid : Pump, mid.batchCounter = st.batchCounter →
      (((core.outboxGrouped st.inflightOps).foldlM (sendGroup cbor z) mid).isSome ↔
        ∀ i s, (core.waitingStreams st.inflightOps)[i]? = some s →
          frameHeaderLen + ((core.backlog st.inflightOps s
            (st.batchCounter + i + 1)).encode cbor).length ≤ maxFrameBytes) := by
    intro mid hcounter
    rw [isSome_sendGroups hne, hcounter, ← hstreams]
    constructor
    · intro h i s hs
      rw [List.getElem?_map, Option.map_eq_some_iff] at hs
      obtain ⟨g, hg, rfl⟩ := hs
      rw [← hbacklog g (List.mem_of_getElem? hg)]
      exact h i g hg
    · intro h i g hg
      rw [hbacklog g (List.mem_of_getElem? hg)]
      exact h i g.1 (by rw [List.getElem?_map, hg, Option.map_some])
  have hmem : ∀ s, s ∈ growSubscribed st.subscribed (core.outboxGrouped st.inflightOps) ↔
      s ∈ st.subscribed ∨ s ∈ core.waitingStreams st.inflightOps := by
    intro s
    rw [mem_growSubscribed, ← hstreams, List.mem_map]
    constructor
    · rintro (hs | ⟨g, hg, -, hs⟩)
      · exact .inl hs
      · exact .inr ⟨g, hg, hs⟩
    · rintro (hs | ⟨g, hg, hs⟩)
      · exact .inl hs
      · exact .inr ⟨g, hg, hne g hg, hs⟩
  have hgrown : growSubscribed st.subscribed (core.outboxGrouped st.inflightOps) =
      st.subscribed ∪ (core.waitingStreams st.inflightOps).toFinset := by
    ext s
    rw [hmem, Finset.mem_union, List.mem_toFinset]
  have hgrew : growSubscribed st.subscribed (core.outboxGrouped st.inflightOps) = st.subscribed ↔
      ¬ ∃ s ∈ core.waitingStreams st.inflightOps, s ∉ st.subscribed := by
    constructor
    · rintro heq ⟨s, hs, hnot⟩
      exact hnot (heq ▸ (hmem s).mpr (.inr hs))
    · intro hno
      ext s
      rw [hmem]
      constructor
      · rintro (hs | hs)
        · exact hs
        · by_contra hnot
          exact hno ⟨s, hs, hnot⟩
      · exact .inl
  constructor
  · rintro ⟨st', hbuild, -, -⟩
    obtain ⟨mid, -, -, hcounter, hsend⟩ := buildOutboxFrames_eq_some hbuild
    refine ⟨(hbatches mid hcounter).mp (Option.isSome_of_mem hsend), fun hsub => ?_⟩
    unfold buildOutboxFrames at hbuild
    obtain ⟨mid, hmid, -⟩ := Option.bind_eq_some_iff.mp hbuild
    rw [if_neg fun h => hgrew.mp h hsub] at hmid
    split at hmid
    · simp at hmid
    next frame hframe =>
      rw [← hgrown]
      exact (encodeFrame_eq_ok.mp hframe).1
  · intro hfits
    have hbuild : (buildOutboxFrames cbor z core st).isSome := by
      unfold buildOutboxFrames
      dsimp only
      split
      · exact (hbatches st rfl).mpr hfits.batches
      next hsub =>
        have hsub := not_not.mp fun h => hsub (hgrew.mpr h)
        have hframe := (@encodeFrame_eq_ok z .subscribe _ _).mpr
          ⟨hfits.subscription hsub, rfl⟩
        rw [hgrown, hframe]
        dsimp only
        rw [Option.bind_some]
        refine (hbatches _ ?_).mpr hfits.batches
        rfl
    obtain ⟨st', hbuild⟩ := Option.isSome_iff_exists.mp hbuild
    obtain ⟨hsound, hsent⟩ := hst.buildOutboxFrames hbuild
    refine ⟨st', hbuild, fun e he => ?_, fun n b hb => ?_⟩
    · obtain ⟨hunacked, hskip⟩ := List.mem_filter.mp he
      obtain ⟨env, hread⟩ := Option.isSome_iff_exists.mp (henv e hunacked)
      have hsendable : (e.streamId, e.opId, env) ∈ core.sendable st.inflightOps :=
        SyncCore.mem_sendable.mpr ⟨of_decide_eq_true hskip, hread, e.enqueuedAtMs,
          SyncCore.mem_listUnacked.mp hunacked⟩
      obtain ⟨g, hg, hop⟩ := exists_mem_groupOps hsendable
      obtain ⟨n, b, hb, hid⟩ := (hsound.ops e.opId).mp (hsent.sent g hg _ hop)
      refine ⟨n, ⟨b, hb, hid⟩, ?_⟩
      rintro m ⟨b', hb', hid'⟩
      exact hsound.disjoint m n b' b e.opId hb' hb hid' hid
    · have hframe := hsound.framed n b hb
      exact ⟨(length_of_encodeFrame hframe).2, _, _, decodeFrame_of_encodeFrame hframe⟩

end

/-! ### How long a batch is -/

theorem one_le_length_head (major n : ℕ) : 1 ≤ (Cbor.head major n).length := by
  unfold Cbor.head
  split_ifs <;> simp

theorem length_head_le (major n : ℕ) : (Cbor.head major n).length ≤ 9 := by
  unfold Cbor.head
  split_ifs <;> simp

theorem OpBatchPayload.length_encode (p : OpBatchPayload) :
    let ops := (p.ops.map fun op => (Cbor.head 2 op.length).length + op.length).sum
    ops ≤ (p.encode codec).length ∧ (p.encode codec).length ≤ ops + 80 := by
  intro ops
  have hperm : ∀ entries : List (Cbor.Item × Cbor.Item),
      (Cbor.write (.map (sortEntries codec entries))).length =
        (Cbor.head 5 entries.length).length + (entries.map fun e =>
          (Cbor.write e.1).length + (Cbor.write e.2).length).sum := by
    intro entries
    have hsorted : (sortEntries codec entries).Perm entries := perm_sortBy
    rw [Cbor.write, List.length_append, hsorted.length_eq, writeEntries_eq,
      List.length_flatten, List.map_map, (hsorted.map _).sum_eq]
    congr 2
    apply List.map_congr_left
    rintro ⟨k, v⟩ _
    exact List.length_append
  have harray : (Cbor.write (.array (p.ops.map fun op => .scalar (.bytes op)))).length =
      (Cbor.head 4 p.ops.length).length + ops := by
    rw [Cbor.write, List.length_append, List.length_map, writeItems_eq, List.length_flatten,
      List.map_map, List.map_map]
    congr 2
    apply List.map_congr_left
    intro op _
    exact List.length_append
  unfold OpBatchPayload.encode encodeCanonical OpBatchPayload.item
  rw [canonicalize, canonicalizeEntries_eq]
  show _ ≤ (Cbor.write _).length ∧ (Cbor.write _).length ≤ _
  rw [hperm]
  have hcanonical : canonicalize codec (.array (p.ops.map fun op => .scalar (.bytes op))) =
      .array (p.ops.map fun op => .scalar (.bytes op)) := by
    rw [canonicalize, canonicalizeItems_eq, List.map_map]
    rfl
  have hscalar : ∀ s, canonicalize codec (.scalar s) = .scalar s := fun _ => rfl
  simp only [List.map_cons, List.map_nil, List.sum_cons, List.sum_nil, idItem, textItem, hscalar,
    hcanonical, harray]
  have hid : (Cbor.write (.scalar (.bytes (bigEndian 16 p.streamId)))).length = 17 := by
    simp [Cbor.write, writeScalar, Cbor.head]
  have hnumber : (Cbor.write (.scalar (.integer p.batchId))).length ≤ 9 := by
    rw [Cbor.write, writeScalar, if_pos (by simp)]
    exact length_head_le _ _
  have hmap := length_head_le 5 (0 + 1 + 1 + 1)
  have hlist := length_head_le 4 p.ops.length
  have hops : (Cbor.write (.scalar (.text "ops"))).length = 4 := by decide
  have hbatch : (Cbor.write (.scalar (.text "batch_id"))).length = 9 := by decide
  have hstream : (Cbor.write (.scalar (.text "stream_id"))).length = 10 := by decide
  rw [hid, hops, hbatch, hstream]
  dsimp only [List.length_cons, List.length_nil]
  omega

/-! ### A backlog -/

/-- Two ops of one stream, with the same envelope. -/
def backlogCore (env : Bytes) : SyncCore where
  outbox := ((∅ : Table OpId OutboxRow).upsert 1 ⟨7, 1, none⟩).upsert 2 ⟨7, 2, none⟩
  envelope := fun id => if id = 1 ∨ id = 2 then some env else none
  entries := []

/-- No compression. -/
def Zstd.plain : Zstd := ⟨some, some⟩

theorem outboxGrouped_backlogCore (env : Bytes) :
    (backlogCore env).outboxGrouped ∅ = [(7, [(1, env), (2, env)])] := rfl

theorem listUnacked_backlogCore (env : Bytes) :
    (backlogCore env).listUnacked = [⟨1, 7, 1⟩, ⟨2, 7, 2⟩] := rfl

theorem canSend_iff_two :
    (CanSend codec .plain (backlogCore [1, 2, 3]) (.new {7}) ↔
      OutboxFits codec (backlogCore [1, 2, 3]) (.new {7})) ∧
    OutboxFits codec (backlogCore [1, 2, 3]) (.new {7}) := by
  refine ⟨canSend_iff (Pump.sound_new {7}) (by decide), ⟨?_, ?_⟩⟩
  · have hstreams : (backlogCore [1, 2, 3]).waitingStreams (Pump.new {7}).inflightOps = [7] := rfl
    intro i s hs
    rw [hstreams] at hs
    obtain rfl := List.mem_singleton.mp (List.mem_of_getElem? hs)
    have hlen := (((backlogCore [1, 2, 3]).backlog (Pump.new {7}).inflightOps 7
      ((Pump.new {7}).batchCounter + i + 1)).length_encode).2
    refine le_trans (Nat.add_le_add_left hlen _) ?_
    show frameHeaderLen + (([[1, 2, 3], [1, 2, 3]].map fun op : Bytes =>
      (Cbor.head 2 op.length).length + op.length).sum + 80) ≤ maxFrameBytes
    decide
  · rintro ⟨s, hs, hnot⟩
    refine absurd ?_ hnot
    have hstreams : (backlogCore [1, 2, 3]).waitingStreams (Pump.new {7}).inflightOps = [7] := rfl
    rw [hstreams, List.mem_singleton] at hs
    rw [hs]
    decide

/-- **Two edits that cannot be sent together**: each has an envelope of 2.5 MiB, which a
frame of its own would hold. -/
theorem not_canSend_backlog :
    (Pump.new {7}).Sound codec .plain ∧
    (∀ e ∈ (backlogCore (List.replicate 2621440 0)).listUnacked,
      ∃ env, (backlogCore (List.replicate 2621440 0)).envelope e.opId = some env ∧
        frameHeaderLen + ((⟨[env], 1, e.streamId⟩ : OpBatchPayload).encode
          codec).length ≤ maxFrameBytes) ∧
    ¬ CanSend codec .plain (backlogCore (List.replicate 2621440 0)) (.new {7}) := by
  have hlength : (List.replicate 2621440 0 : Bytes).length = 2621440 := List.length_replicate
  generalize (List.replicate 2621440 0 : Bytes) = env at hlength ⊢
  refine ⟨Pump.sound_new {7}, ?_, ?_⟩
  · intro e he
    have hread : (backlogCore env).envelope e.opId = some env := by
      rw [listUnacked_backlogCore, List.mem_cons, List.mem_singleton] at he
      rcases he with rfl | rfl <;> rfl
    refine ⟨env, hread, ?_⟩
    have hlen := ((⟨[env], 1, e.streamId⟩ : OpBatchPayload).length_encode).2
    have hhead := length_head_le 2 env.length
    simp only [List.map_cons, List.map_nil, List.sum_cons, List.sum_nil, hlength] at hlen hhead
    unfold frameHeaderLen maxFrameBytes
    omega
  · rintro ⟨st', hbuild, -, -⟩
    obtain ⟨mid, -, -, -, hsend⟩ := buildOutboxFrames_eq_some hbuild
    obtain ⟨hne, -, -⟩ := (backlogCore env).groups_spec ∅
    have hfits := (isSome_sendGroups hne).mp (Option.isSome_of_mem hsend) 0 _
      (by rw [outboxGrouped_backlogCore]; rfl)
    have hlen := ((⟨[env, env], mid.batchCounter + 0 + 1, 7⟩ : OpBatchPayload).length_encode).1
    have hhead := one_le_length_head 2 env.length
    simp only [List.map_cons, List.map_nil, List.sum_cons, List.sum_nil, hlength]
      at hlen hhead hfits
    unfold frameHeaderLen maxFrameBytes at hfits
    omega

end Sunrise
