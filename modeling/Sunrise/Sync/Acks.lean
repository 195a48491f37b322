import Sunrise.Relay.Ring
import Sunrise.Sync.Outbox

/-!
# Acks

A device publishes its batches over a link that loses, repeats and delays what it carries.
The relay stores a batch, or finds that it has it, and only then acks it, by the number the
session gave it. Numbers start again in each session, so an ack is good in its session only;
there a number names one batch, and an ack that comes twice finds it gone.

* `SyncLink.Inv` — the invariant; `SyncLink.Inv.step` is the step lemma.

## Main results

* `acks_sound` — **an op is acked only when the relay has it**.
* `acked_replays` — **an acked op is replayed, or its loss is told**.
-/

namespace Sunrise

open Cbor (bigEndian)

/-! ### The relay has a batch -/

/-- A frame of the channel carries the ops of a batch. -/
def RelayStore.Holds {H : Type} (c : RelayCodec H) (s : RelayStore H) (p : Publish) : Prop :=
  ∃ f ∈ s.frames, ∃ p' : Publish, f = p'.row c f.id ∧ p'.key = p.key ∧ p'.batch.ops = p.batch.ops

/-- **What the relay answers for, it has**: a fresh batch is stored and survives its own
trim, and a duplicate is in a frame still held. -/
theorem Retains.holds_publish {H : Type} {c : RelayCodec H} [DecidableEq H] {s : RelayStore H}
    {acks : List Publish} (hc : Function.Injective c.blake3) (h : Retains c acks s)
    (p : Publish) : (s.publish c p).1.Holds c p := by
  rcases RelayStore.publish_cases c s p with ⟨b, hb, hkey, hhash, heq⟩ | hfresh
  · rw [heq]
    obtain ⟨f, hf, -, p', -, hrow, hkey', hhash'⟩ := h.batch b hb
    exact ⟨f, hf, p', hrow, hkey'.trans hkey, batchOpsHash_injective hc hhash' hhash⟩
  · have hrow := List.mem_of_getLast? (h.newest_kept hfresh)
    rw [hfresh]
    exact ⟨_, (RelayStore.mem_channel.mp hrow).1, p, rfl, rfl, rfl⟩

/-! ### A device and the relay -/

/-- A batch on its way to the relay. -/
structure BatchRequest where
  session : ℕ
  payload : OpBatchPayload

structure AckPayload where
  batchId : ℕ
  streamId : StreamId
  serverFirstSeenMs : ℕ

/-- What the relay did with a batch. -/
structure RelayAnswer (H : Type) where
  session : ℕ
  publish : Publish
  store : RelayStore H

structure MadeBatch where
  session : ℕ
  opIds : List OpId
  payload : OpBatchPayload

/-- One device, the relay and what is between them. -/
structure SyncLink (H : Type) where
  core : SyncCore
  relay : RelayStore H
  session : ℕ
  pump : Option Pump
  /-- The batches that were sent; one stays here, to arrive late or more than once. -/
  requests : List BatchRequest
  /-- The acks that were sent, each with its session; one stays here too. -/
  acks : List (ℕ × AckPayload)
  submitted : List (OpId × StreamId × Bytes)
  acked : List OpId
  answered : List (RelayAnswer H)
  made : List MadeBatch

/-- Nothing has happened. -/
def SyncLink.new (H : Type) : SyncLink H where
  core := ⟨∅, fun _ => none, []⟩
  relay := .empty
  session := 0
  pump := none
  requests := []
  acks := []
  submitted := []
  acked := []
  answered := []
  made := []

/-- Log an op and enqueue it, unless its id is logged. -/
def SyncLink.submit {H : Type} (l : SyncLink H) (id : OpId) (streamId : StreamId) (env : Bytes)
    (nowMs : ℕ) : SyncLink H :=
  if (l.core.envelope id).isSome then l
  else
    { l with
      core := { l.core.enqueue id streamId nowMs with
        envelope := Function.update l.core.envelope id (some env) }
      submitted := l.submitted ++ [(id, streamId, env)] }

/-- Delete logged ops, with their rows of the outbox. One that is not acked stays. -/
def SyncCore.compact (core : SyncCore) (gone : Finset OpId) : SyncCore :=
  let gone := gone.filter fun id => (core.outbox.find id).all fun row => row.ackedAtMs.isSome
  { core with
    outbox := core.outbox.filter fun id _ => decide (id ∉ gone)
    envelope := fun id => if id ∈ gone then none else core.envelope id }

def Pump.made (session : ℕ) (st : Pump) : List MadeBatch :=
  st.inflight.rows.map fun r => ⟨session, r.2.opIds, r.2.payload⟩

/-- A session after an ack: the batch with its number is no longer in flight. -/
def Pump.settle (st : Pump) (batchId : ℕ) (batch : InflightBatch) : Pump :=
  { st with
    inflight := st.inflight.erase batchId
    inflightOps := st.inflightOps \ batch.opIds.toFinset }

/-- The time an append's ack tells. -/
def Appended.firstSeenMs : Appended → ℕ
  | .fresh firstSeenMs _ => firstSeenMs
  | .duplicate firstSeenMs => firstSeenMs

section

variable {H : Type} [DecidableEq H] (c : RelayCodec H) (cbor : Cbor.Codec) (z : Zstd)
  (account : Bytes)

/-- The append a batch asks for. -/
def OpBatchPayload.publish (p : OpBatchPayload) (b : OpBatch) (nowMs : ℕ) (caps : DurableCaps) :
    Publish :=
  ⟨(account, bigEndian 16 p.streamId), b, nowMs, caps⟩

/-- The relay appends a batch and acks it. -/
def SyncLink.answer (l : SyncLink H) (r : BatchRequest) (b : OpBatch) (nowMs : ℕ)
    (caps : DurableCaps) : SyncLink H :=
  let p := r.payload.publish account b nowMs caps
  { l with
    relay := (l.relay.publish c p).1
    acks := l.acks ++ [(r.session, ⟨b.batchId, r.payload.streamId,
      (l.relay.publish c p).2.firstSeenMs⟩)]
    answered := l.answered ++ [⟨r.session, p, (l.relay.publish c p).1⟩] }

def SyncLink.ack (l : SyncLink H) (st : Pump) (batchId : ℕ) (batch : InflightBatch) (nowMs : ℕ) :
    SyncLink H :=
  { l with
    core := batch.opIds.foldl (fun core id => core.markAcked id nowMs) l.core
    pump := some (st.settle batchId batch)
    acked := l.acked ++ batch.opIds }

/-- A step of the device, the relay or the link. -/
inductive SyncLinkStep : SyncLink H → SyncLink H → Prop where
  | submit (l : SyncLink H) (id : OpId) (streamId : StreamId) (env : Bytes) (nowMs : ℕ) :
      SyncLinkStep l (l.submit id streamId env nowMs)
  | compact (l : SyncLink H) (gone : Finset OpId) :
      SyncLinkStep l { l with core := l.core.compact gone }
  | connect (l : SyncLink H) (subscribed : Finset StreamId) (st : Pump)
      (hbuild : buildOutboxFrames cbor z l.core (.new subscribed) = some st) :
      SyncLinkStep l { l with
        session := l.session + 1
        pump := some st
        made := l.made ++ st.made (l.session + 1) }
  | drain (l : SyncLink H) (st st' : Pump) (hpump : l.pump = some st)
      (hbuild : buildOutboxFrames cbor z l.core st = some st') :
      SyncLinkStep l { l with pump := some st', made := l.made ++ st'.made l.session }
  /-- The batches in flight are left alone: another subscription, other frames. -/
  | other (l : SyncLink H) (st : Pump) (hpump : l.pump = some st) (subscribed : Finset StreamId)
      (pendingSends : List Outgoing) :
      SyncLinkStep l { l with pump := some { st with subscribed, pendingSends } }
  /-- A batch in flight is sent, for the first time or again. -/
  | send (l : SyncLink H) (st : Pump) (hpump : l.pump = some st) (batchId : ℕ)
      (batch : InflightBatch) (hbatch : st.inflight.find batchId = some batch) :
      SyncLinkStep l { l with requests := l.requests ++ [⟨l.session, batch.payload⟩] }
  | answer (l : SyncLink H) (r : BatchRequest) (hr : r ∈ l.requests) (b : OpBatch)
      (hops : b.ops = r.payload.ops) (hid : b.batchId = r.payload.batchId) (nowMs : ℕ)
      (caps : DurableCaps) : SyncLinkStep l (l.answer c account r b nowMs caps)
  | foreign (l : SyncLink H) (p : Publish) :
      SyncLinkStep l { l with relay := (l.relay.publish c p).1 }
  /-- An ack of this session arrives for a batch in flight. -/
  | ack (l : SyncLink H) (st : Pump) (hpump : l.pump = some st) (a : AckPayload)
      (ha : (l.session, a) ∈ l.acks) (batch : InflightBatch)
      (hbatch : st.inflight.find a.batchId = some batch) (nowMs : ℕ) :
      SyncLinkStep l (l.ack st a.batchId batch nowMs)
  /-- An ack of this session arrives for no batch in flight. -/
  | ackAgain (l : SyncLink H) (st : Pump) (hpump : l.pump = some st) (a : AckPayload)
      (ha : (l.session, a) ∈ l.acks) (hnone : st.inflight.find a.batchId = none) : SyncLinkStep l l
  | disconnect (l : SyncLink H) : SyncLinkStep l { l with pump := none }

/-- What a run leads to. -/
inductive SyncLink.Reachable : SyncLink H → Prop where
  | new : SyncLink.Reachable (.new H)
  | step {l l' : SyncLink H} (h : SyncLink.Reachable l)
      (hstep : SyncLinkStep c cbor z account l l') : SyncLink.Reachable l'

/-! ### The invariant -/

/-- The relay had the ops of a batch of the session when it answered for it. -/
def SyncLink.Stored (l : SyncLink H) (batch : MadeBatch) : Prop :=
  ∃ a ∈ l.answered, a.session = batch.session ∧
    a.publish.key = (account, bigEndian 16 batch.payload.streamId) ∧
    a.publish.batch.ops = batch.payload.ops ∧ a.store.Holds c a.publish

/-- What holds between a device and the relay. -/
structure SyncLink.Inv (l : SyncLink H) : Prop where
  relay : ∃ appends, Retains c appends l.relay
  /-- An enqueued op was submitted, and its envelope is the one in the log. -/
  rows : ∀ id row, l.core.outbox.find id = some row →
    ∃ env, l.core.envelope id = some env ∧ (id, row.streamId, env) ∈ l.submitted
  marked : ∀ id row, l.core.outbox.find id = some row → row.ackedAtMs.isSome → id ∈ l.acked
  kept : ∀ x ∈ l.submitted, x.1 ∈ l.acked ∨ ∃ row, l.core.outbox.find x.1 = some row
  pump : ∀ st, l.pump = some st → st.Sound cbor z
  inflight : ∀ st, l.pump = some st → ∀ n b, st.inflight.find n = some b →
    (⟨l.session, b.opIds, b.payload⟩ : MadeBatch) ∈ l.made
  le : ∀ b ∈ l.made, b.session ≤ l.session ∧
    ∀ st, l.pump = some st → b.session = l.session → b.payload.batchId ≤ st.batchCounter
  unique : ∀ b ∈ l.made, ∀ b' ∈ l.made, b.session = b'.session →
    b.payload.batchId = b'.payload.batchId → b = b'
  carries : ∀ b ∈ l.made, ∀ id ∈ b.opIds, ∃ env ∈ b.payload.ops,
    (id, b.payload.streamId, env) ∈ l.submitted
  requests : ∀ r ∈ l.requests, ∃ b ∈ l.made, b.session = r.session ∧ b.payload = r.payload
  acks : ∀ a ∈ l.acks, ∃ b ∈ l.made, b.session = a.1 ∧ b.payload.batchId = a.2.batchId ∧
    l.Stored c account b
  acked : ∀ id ∈ l.acked, ∃ b ∈ l.made, id ∈ b.opIds ∧ l.Stored c account b

end

/-! ### Marking and settling -/

theorem SyncCore.find_markAcked (core : SyncCore) (id id' : OpId) (nowMs : ℕ) :
    (core.markAcked id nowMs).outbox.find id' =
      if id' = id then (core.outbox.find id').map fun row => { row with ackedAtMs := nowMs }
      else core.outbox.find id' := by
  unfold markAcked
  by_cases hid : id' = id
  · subst hid
    rw [if_pos rfl]
    cases hrow : core.outbox.find id' with
    | none => simpa using hrow
    | some row => exact Table.find_upsert_self ..
  · rw [if_neg hid]
    split
    · exact Table.find_upsert_of_ne _ _ hid
    · rfl

theorem SyncCore.envelope_markAcked (core : SyncCore) (id : OpId) (nowMs : ℕ) :
    (core.markAcked id nowMs).envelope = core.envelope := by
  unfold markAcked
  split <;> rfl

theorem SyncCore.foldl_markAcked (core : SyncCore) (ids : List OpId) (nowMs : ℕ) :
    (ids.foldl (fun core id => core.markAcked id nowMs) core).envelope = core.envelope ∧
      (∀ id, (core.outbox.find id).isSome → ((ids.foldl (fun core id => core.markAcked id nowMs)
        core).outbox.find id).isSome) ∧
      ∀ id row, (ids.foldl (fun core id => core.markAcked id nowMs) core).outbox.find id =
        some row → ∃ row', core.outbox.find id = some row' ∧ row'.streamId = row.streamId ∧
          (row' = row ∨ id ∈ ids) := by
  induction ids generalizing core with
  | nil => exact ⟨rfl, fun _ h => h, fun id row h => ⟨row, h, rfl, .inl rfl⟩⟩
  | cons id' ids ih =>
    obtain ⟨henv, hsome, hrow⟩ := ih (core.markAcked id' nowMs)
    rw [List.foldl_cons]
    refine ⟨henv.trans (core.envelope_markAcked id' nowMs), fun id h => ?_, fun id row h => ?_⟩
    · apply hsome
      rw [core.find_markAcked]
      split
      · rw [Option.isSome_map]
        exact h
      · exact h
    · obtain ⟨row', hfind, hstream, hor⟩ := hrow id row h
      rw [core.find_markAcked] at hfind
      split at hfind
      next hid =>
        obtain ⟨row'', hfind', rfl⟩ := Option.map_eq_some_iff.mp hfind
        exact ⟨row'', hfind', hstream, .inr (by rw [hid]; exact List.mem_cons_self)⟩
      next =>
        refine ⟨row', hfind, hstream, ?_⟩
        rcases hor with heq | hmem
        · exact .inl heq
        · exact .inr (List.mem_cons_of_mem _ hmem)

section

variable {cbor : Cbor.Codec} {z : Zstd} {st st' : Pump}

theorem Pump.find_settle {n batchId : ℕ} {b batch : InflightBatch} :
    (st.settle batchId batch).inflight.find n = some b ↔
      n ≠ batchId ∧ st.inflight.find n = some b := by
  show (st.inflight.erase batchId).find n = some b ↔ _
  rw [Table.find_erase]
  by_cases hn : n = batchId <;> simp [hn]

/-- **An ack keeps the invariant**: its batch's ops are in no other batch. -/
theorem Pump.Sound.settle (h : st.Sound cbor z) {batchId : ℕ} {batch : InflightBatch}
    (hbatch : st.inflight.find batchId = some batch) : (st.settle batchId batch).Sound cbor z := by
  constructor
  · intro id
    show id ∈ st.inflightOps \ batch.opIds.toFinset ↔ _
    rw [Finset.mem_sdiff, List.mem_toFinset, h.ops]
    constructor
    · rintro ⟨⟨n, b, hb, hid⟩, hnot⟩
      refine ⟨n, b, Pump.find_settle.mpr ⟨?_, hb⟩, hid⟩
      rintro rfl
      rw [hbatch] at hb
      obtain rfl := Option.some.inj hb
      exact hnot hid
    · rintro ⟨n, b, hb, hid⟩
      obtain ⟨hne, hb⟩ := Pump.find_settle.mp hb
      exact ⟨⟨n, b, hb, hid⟩, fun hid' => hne (h.disjoint n batchId b batch id hb hbatch hid hid')⟩
  · intro m n b b' id hb hb'
    exact h.disjoint m n b b' id (Pump.find_settle.mp hb).2 (Pump.find_settle.mp hb').2
  · intro n b hb
    exact h.le_counter n b (Pump.find_settle.mp hb).2
  · intro n b hb
    exact h.numbered n b (Pump.find_settle.mp hb).2
  · intro n b hb
    exact h.framed n b (Pump.find_settle.mp hb).2

theorem Pump.mem_made {session : ℕ} {b : MadeBatch} :
    b ∈ st.made session ↔ ∃ n batch, st.inflight.find n = some batch ∧
      b = ⟨session, batch.opIds, batch.payload⟩ := by
  unfold made
  rw [List.mem_map]
  constructor
  · rintro ⟨⟨n, batch⟩, hr, rfl⟩
    exact ⟨n, batch, Table.mem_rows.mp hr, rfl⟩
  · rintro ⟨n, batch, hr, rfl⟩
    exact ⟨(n, batch), Table.mem_rows.mpr hr, rfl⟩

end

/-! ### Steps -/

section

variable {H : Type} {c : RelayCodec H} {cbor : Cbor.Codec} {z : Zstd} {account : Bytes}
  {l l' : SyncLink H}

theorem SyncLink.Stored.mono {batch : MadeBatch} (h : l.Stored c account batch)
    (hanswered : ∀ a ∈ l.answered, a ∈ l'.answered) : l'.Stored c account batch := by
  obtain ⟨a, ha, hrest⟩ := h
  exact ⟨a, hanswered a ha, hrest⟩

theorem SyncLink.inv_new : (SyncLink.new H).Inv c cbor z account where
  relay := ⟨[], Retains.empty⟩
  rows := by simp [SyncLink.new]
  marked := by simp [SyncLink.new]
  kept := by simp [SyncLink.new]
  pump := by simp [SyncLink.new]
  inflight := by simp [SyncLink.new]
  le := by simp [SyncLink.new]
  unique := by simp [SyncLink.new]
  carries := by simp [SyncLink.new]
  requests := by simp [SyncLink.new]
  acks := by simp [SyncLink.new]
  acked := by simp [SyncLink.new]

section

variable (h : l.Inv c cbor z account)
include h

theorem SyncLink.Inv.submit (id : OpId) (streamId : StreamId)
    (env : Bytes) (nowMs : ℕ) : (l.submit id streamId env nowMs).Inv c cbor z account := by
  unfold SyncLink.submit
  split
  · exact h
  next hlogged =>
    have hnone : l.core.outbox.find id = none := by
      by_contra hsome
      obtain ⟨row, hrow⟩ := Option.ne_none_iff_exists'.mp hsome
      obtain ⟨env', henv, -⟩ := h.rows id row hrow
      rw [henv] at hlogged
      exact hlogged rfl
    have hfind : ∀ id' row, (l.core.enqueue id streamId nowMs).outbox.find id' = some row ↔
        id' = id ∧ row = ⟨streamId, nowMs, none⟩ ∨ l.core.outbox.find id' = some row := by
      intro id' row
      unfold SyncCore.enqueue
      rw [Table.find_insertOrIgnore]
      by_cases hid : id' = id
      · subst hid
        simp [hnone, eq_comm]
      · simp [hid]
    refine { h with rows := ?_, marked := ?_, kept := ?_, carries := ?_ }
    · intro id' row hrow
      rcases (hfind id' row).mp hrow with ⟨rfl, rfl⟩ | hold
      · exact ⟨env, Function.update_self .., List.mem_append_right _ (List.mem_singleton.mpr rfl)⟩
      · obtain ⟨env', henv, hmem⟩ := h.rows id' row hold
        have hne : id' ≠ id := by
          rintro rfl
          exact Option.some_ne_none row (hold.symm.trans hnone)
        exact ⟨env', (Function.update_of_ne hne _ _).trans henv, List.mem_append_left _ hmem⟩
    · intro id' row hrow hacked
      rcases (hfind id' row).mp hrow with ⟨rfl, rfl⟩ | hrow
      · simp at hacked
      · exact h.marked id' row hrow hacked
    · intro x hx
      rcases List.mem_append.mp hx with hx | hx
      · rcases h.kept x hx with hacked | ⟨row, hrow⟩
        · exact .inl hacked
        · exact .inr ⟨row, (hfind _ _).mpr (.inr hrow)⟩
      · rw [List.mem_singleton.mp hx]
        exact .inr ⟨_, (hfind _ _).mpr (.inl ⟨rfl, rfl⟩)⟩
    · intro b hb id' hid'
      obtain ⟨env', henv, hmem⟩ := h.carries b hb id' hid'
      exact ⟨env', henv, List.mem_append_left _ hmem⟩

theorem SyncLink.Inv.compact (gone : Finset OpId) :
    SyncLink.Inv c cbor z account { l with core := l.core.compact gone } := by
  have hfind : ∀ id row, (l.core.compact gone).outbox.find id = some row ↔
      l.core.outbox.find id = some row ∧ ¬ (id ∈ gone ∧ row.ackedAtMs.isSome) := by
    intro id row
    unfold SyncCore.compact
    dsimp only
    rw [Table.find_filter_eq_some, decide_eq_true_iff, Finset.mem_filter]
    refine and_congr_right fun hrow => ?_
    rw [hrow]
    rfl
  refine { h with rows := ?_, marked := ?_, kept := ?_ }
  · intro id row hrow
    obtain ⟨hrow, hkept⟩ := (hfind id row).mp hrow
    obtain ⟨env, henv, hmem⟩ := h.rows id row hrow
    refine ⟨env, ?_, hmem⟩
    unfold SyncCore.compact
    dsimp only
    rw [if_neg, henv]
    rw [Finset.mem_filter, hrow]
    exact hkept
  · intro id row hrow hacked
    exact h.marked id row ((hfind id row).mp hrow).1 hacked
  · intro x hx
    rcases h.kept x hx with hacked | ⟨row, hrow⟩
    · exact .inl hacked
    · by_cases hgone : x.1 ∈ gone ∧ row.ackedAtMs.isSome
      · -- only an acked row goes
        exact .inl (h.marked x.1 row hrow hgone.2)
      · exact .inr ⟨row, (hfind _ _).mpr ⟨hrow, hgone⟩⟩

theorem SyncLink.Inv.start (subscribed : Finset StreamId) :
    SyncLink.Inv c cbor z account
      { l with session := l.session + 1, pump := some (.new subscribed) } := by
  refine { h with pump := ?_, inflight := ?_, le := ?_ }
  · intro st hst
    obtain rfl := Option.some.inj hst
    exact Pump.sound_new subscribed
  · intro st hst n b hb
    obtain rfl := Option.some.inj hst
    simp [Pump.new] at hb
  · intro b hb
    have hle := (h.le b hb).1
    refine ⟨by dsimp only; omega, fun st hst hsession => ?_⟩
    dsimp only at hsession
    omega

/-- **A drain keeps the invariant**: a new batch has a number above all others of the
session, and carries ops that were submitted. -/
theorem SyncLink.Inv.drain {st st' : Pump} (hpump : l.pump = some st)
    (hbuild : buildOutboxFrames cbor z l.core st = some st') :
    SyncLink.Inv c cbor z account
      { l with pump := some st', made := l.made ++ st'.made l.session } := by
  obtain ⟨hsound, hsent⟩ := (h.pump st hpump).buildOutboxFrames hbuild
  -- what is in flight was made before, or is new
  have hmade : ∀ b ∈ st'.made l.session, b ∈ l.made ∨
      st.batchCounter < b.payload.batchId ∧ ∀ id ∈ b.opIds, ∃ env ∈ b.payload.ops,
        (id, b.payload.streamId, env) ∈ l.submitted := by
    intro b hb
    obtain ⟨n, batch, hbatch, rfl⟩ := Pump.mem_made.mp hb
    rcases hsent.fresh n batch hbatch with hold | ⟨hlt, g, hg, hids, hops, hstream⟩
    · exact .inl (h.inflight st hpump n batch hold)
    · refine .inr ⟨by dsimp only; rw [hsound.numbered n batch hbatch]; exact hlt, ?_⟩
      intro id hid
      dsimp only at hid ⊢
      rw [hids] at hid
      rw [hops, hstream]
      obtain ⟨op, hop, rfl⟩ := List.mem_map.mp hid
      obtain ⟨-, henv, ms, hrow⟩ :=
        SyncCore.mem_sendable.mp ((mem_of_mem_groupOps hg).2 op hop)
      obtain ⟨env, henv', hmem⟩ := h.rows _ _ hrow
      rw [henv] at henv'
      obtain rfl := Option.some.inj henv'
      exact ⟨op.2, List.mem_map_of_mem hop, hmem⟩
  have hsession : ∀ b ∈ st'.made l.session, b.session = l.session ∧
      b.payload.batchId ≤ st'.batchCounter := by
    intro b hb
    obtain ⟨n, batch, hbatch, rfl⟩ := Pump.mem_made.mp hb
    refine ⟨rfl, ?_⟩
    dsimp only
    rw [hsound.numbered n batch hbatch]
    exact hsound.le_counter n batch hbatch
  have hsame : ∀ b ∈ st'.made l.session, ∀ b' ∈ st'.made l.session,
      b.payload.batchId = b'.payload.batchId → b = b' := by
    intro b hb b' hb' heq
    obtain ⟨n, batch, hbatch, rfl⟩ := Pump.mem_made.mp hb
    obtain ⟨n', batch', hbatch', rfl⟩ := Pump.mem_made.mp hb'
    dsimp only at heq
    rw [hsound.numbered n batch hbatch, hsound.numbered n' batch' hbatch'] at heq
    subst heq
    rw [hbatch] at hbatch'
    rw [Option.some.inj hbatch']
  refine { h with
    pump := ?_
    inflight := ?_
    le := ?_
    unique := ?_
    carries := ?_
    requests := ?_
    acks := ?_
    acked := ?_ }
  · intro x hx
    obtain rfl := Option.some.inj hx
    exact hsound
  · intro x hx n b hb
    obtain rfl := Option.some.inj hx
    exact List.mem_append_right _ (Pump.mem_made.mpr ⟨n, b, hb, rfl⟩)
  · intro b hb
    rcases List.mem_append.mp hb with hb | hb
    · obtain ⟨hle, hcounter⟩ := h.le b hb
      refine ⟨hle, fun x hx heq => ?_⟩
      obtain rfl := Option.some.inj hx
      exact (hcounter st hpump heq).trans hsent.le
    · obtain ⟨heq, hle⟩ := hsession b hb
      refine ⟨heq.le, fun x hx _ => ?_⟩
      obtain rfl := Option.some.inj hx
      exact hle
  · -- an older batch of the session has a number at most the counter's before
    have hcross : ∀ b ∈ l.made, ∀ b' ∈ st'.made l.session, b.session = b'.session →
        b.payload.batchId = b'.payload.batchId → b = b' := by
      intro b hb b' hb' hs hid
      rcases hmade b' hb' with hold | ⟨hlt, -⟩
      · exact h.unique b hb b' hold hs hid
      · have hle := (h.le b hb).2 st hpump (hs.trans (hsession b' hb').1)
        omega
    intro b hb b' hb' hs hid
    rcases List.mem_append.mp hb with hb | hb <;> rcases List.mem_append.mp hb' with hb' | hb'
    · exact h.unique b hb b' hb' hs hid
    · exact hcross b hb b' hb' hs hid
    · exact (hcross b' hb' b hb hs.symm hid.symm).symm
    · exact hsame b hb b' hb' hid
  · intro b hb
    rcases List.mem_append.mp hb with hb | hb
    · exact h.carries b hb
    · rcases hmade b hb with hold | ⟨-, hcarries⟩
      · exact h.carries b hold
      · exact hcarries
  · intro r hr
    obtain ⟨b, hb, hrest⟩ := h.requests r hr
    exact ⟨b, List.mem_append_left _ hb, hrest⟩
  · intro a ha
    obtain ⟨b, hb, hrest⟩ := h.acks a ha
    exact ⟨b, List.mem_append_left _ hb, hrest⟩
  · intro id hid
    obtain ⟨b, hb, hrest⟩ := h.acked id hid
    exact ⟨b, List.mem_append_left _ hb, hrest⟩

/-- **An ack keeps the invariant**: in its session its number names the one batch. -/
theorem SyncLink.Inv.ack {st : Pump} (hpump : l.pump = some st)
    {a : AckPayload} (ha : (l.session, a) ∈ l.acks) {batch : InflightBatch}
    (hbatch : st.inflight.find a.batchId = some batch) (nowMs : ℕ) :
    (l.ack st a.batchId batch nowMs).Inv c cbor z account := by
  obtain ⟨henv, hsome, hrow⟩ := l.core.foldl_markAcked batch.opIds nowMs
  have hstored : l.Stored c account ⟨l.session, batch.opIds, batch.payload⟩ := by
    obtain ⟨b, hb, hsession, hnumber, hstored⟩ := h.acks _ ha
    have hmade := h.inflight st hpump _ _ hbatch
    rw [← h.unique b hb _ hmade hsession
      (hnumber.trans ((h.pump st hpump).numbered _ _ hbatch).symm)]
    exact hstored
  refine { h with
    rows := ?_
    marked := ?_
    kept := ?_
    pump := ?_
    inflight := ?_
    le := ?_
    acked := ?_ }
  · intro id row hfind
    obtain ⟨row', hfind', hstream, -⟩ := hrow id row hfind
    obtain ⟨env, hread, hmem⟩ := h.rows id row' hfind'
    exact ⟨env, (congrFun henv id).trans hread, hstream ▸ hmem⟩
  · intro id row hfind hacked
    obtain ⟨row', hfind', -, rfl | hid⟩ := hrow id row hfind
    · exact List.mem_append_left _ (h.marked id row' hfind' hacked)
    · exact List.mem_append_right _ hid
  · intro x hx
    rcases h.kept x hx with hacked | ⟨row, hfind⟩
    · exact .inl (List.mem_append_left _ hacked)
    · exact .inr (Option.isSome_iff_exists.mp (hsome x.1 (by rw [hfind]; rfl)))
  · intro x hx
    obtain rfl := Option.some.inj hx
    exact (h.pump st hpump).settle hbatch
  · intro x hx n b hb
    obtain rfl := Option.some.inj hx
    exact h.inflight st hpump n b (Pump.find_settle.mp hb).2
  · intro b hb
    obtain ⟨hle, hcounter⟩ := h.le b hb
    refine ⟨hle, fun x hx heq => ?_⟩
    obtain rfl := Option.some.inj hx
    exact hcounter st hpump heq
  · intro id hid
    rcases List.mem_append.mp hid with hid | hid
    · exact h.acked id hid
    · exact ⟨_, h.inflight st hpump _ _ hbatch, hid, hstored⟩

end

variable [DecidableEq H]

/-- **An answer keeps the invariant**: the relay acks what it has. -/
theorem SyncLink.Inv.answer (hc : Function.Injective c.blake3) (h : l.Inv c cbor z account)
    {r : BatchRequest} (hr : r ∈ l.requests) {b : OpBatch} (hops : b.ops = r.payload.ops)
    (hid : b.batchId = r.payload.batchId) (nowMs : ℕ) (caps : DurableCaps) :
    (l.answer c account r b nowMs caps).Inv c cbor z account := by
  obtain ⟨appends, hrelay⟩ := h.relay
  have hmono : ∀ a ∈ l.answered, a ∈ (l.answer c account r b nowMs caps).answered :=
    fun a ha => List.mem_append_left _ ha
  refine { h with relay := ?_, acks := ?_, acked := ?_ }
  · exact ⟨_, hrelay.publish hc (r.payload.publish account b nowMs caps)⟩
  · intro a ha
    rcases List.mem_append.mp ha with ha | ha
    · obtain ⟨batch, hbatch, hsession, hnumber, hstored⟩ := h.acks a ha
      exact ⟨batch, hbatch, hsession, hnumber, hstored.mono hmono⟩
    · rw [List.mem_singleton.mp ha]
      obtain ⟨batch, hbatch, hsession, hpayload⟩ := h.requests r hr
      refine ⟨batch, hbatch, hsession, by rw [hpayload]; exact hid.symm, ?_⟩
      refine ⟨⟨r.session, r.payload.publish account b nowMs caps, _⟩,
        List.mem_append_right _ (List.mem_singleton.mpr rfl), hsession.symm, ?_, ?_, ?_⟩
      · rw [hpayload]
        rfl
      · rw [hpayload]
        exact hops
      · exact hrelay.holds_publish hc _
  · intro id hid
    obtain ⟨batch, hbatch, hmem, hstored⟩ := h.acked id hid
    exact ⟨batch, hbatch, hmem, hstored.mono hmono⟩

/-- **Every step keeps the invariant.** -/
theorem SyncLink.Inv.step (hc : Function.Injective c.blake3) (h : l.Inv c cbor z account)
    (hstep : SyncLinkStep c cbor z account l l') : l'.Inv c cbor z account := by
  cases hstep with
  | submit id streamId env nowMs => exact h.submit id streamId env nowMs
  | compact gone => exact h.compact gone
  | connect subscribed st hbuild => exact (h.start subscribed).drain rfl hbuild
  | drain st st' hpump hbuild => exact h.drain hpump hbuild
  | other st hpump subscribed pendingSends =>
    refine { h with pump := ?_, inflight := ?_, le := ?_ }
    · intro x hx
      obtain rfl := Option.some.inj hx
      exact (h.pump st hpump).congr rfl rfl rfl
    · intro x hx n b hb
      obtain rfl := Option.some.inj hx
      exact h.inflight st hpump n b hb
    · intro b hb
      obtain ⟨hle, hcounter⟩ := h.le b hb
      refine ⟨hle, fun x hx heq => ?_⟩
      obtain rfl := Option.some.inj hx
      exact hcounter st hpump heq
  | send st hpump batchId batch hbatch =>
    refine { h with requests := ?_ }
    intro r hr
    rcases List.mem_append.mp hr with hr | hr
    · exact h.requests r hr
    · rw [List.mem_singleton.mp hr]
      exact ⟨_, h.inflight st hpump batchId batch hbatch, rfl, rfl⟩
  | answer r hr b hops hid nowMs caps => exact h.answer hc hr hops hid nowMs caps
  | foreign p =>
    obtain ⟨appends, hrelay⟩ := h.relay
    exact { h with relay := ⟨_, hrelay.publish hc p⟩ }
  | ack st hpump a ha batch hbatch nowMs => exact h.ack hpump ha hbatch nowMs
  | ackAgain st hpump a ha hnone => exact h
  | disconnect =>
    refine { h with pump := ?_, inflight := ?_, le := ?_ }
    · intro st hst
      simp at hst
    · intro st hst
      simp at hst
    · intro b hb
      refine ⟨(h.le b hb).1, fun st hst => ?_⟩
      simp at hst

theorem SyncLink.Reachable.inv (hc : Function.Injective c.blake3)
    (h : SyncLink.Reachable c cbor z account l) : l.Inv c cbor z account := by
  induction h with
  | new => exact SyncLink.inv_new
  | step h hstep ih => exact ih.step hc hstep

/-- **An op is acked only when the relay has it.** In every state a run leads to: an op that
was marked acked is in a batch of a session for which the relay answered that session with
the batch's ops in its tables, and the batch carries the op's envelope; the ops in flight are
those of the batches in flight, and no op is in two of these; a number names one batch of a
session; and every op that was submitted was marked acked or is listed as unacked. -/
theorem acks_sound (hc : Function.Injective c.blake3) (h : SyncLink.Reachable c cbor z account l) :
    (∀ id ∈ l.acked, ∃ batch ∈ l.made, id ∈ batch.opIds ∧
      (∃ env ∈ batch.payload.ops, (id, batch.payload.streamId, env) ∈ l.submitted) ∧
      ∃ a ∈ l.answered, a.session = batch.session ∧
        a.publish.key = (account, bigEndian 16 batch.payload.streamId) ∧
        a.publish.batch.ops = batch.payload.ops ∧ a.store.Holds c a.publish) ∧
    (∀ st, l.pump = some st →
      (∀ id, id ∈ st.inflightOps ↔ ∃ n b, st.inflight.find n = some b ∧ id ∈ b.opIds) ∧
      ∀ m n b b' id, st.inflight.find m = some b → st.inflight.find n = some b' →
        id ∈ b.opIds → id ∈ b'.opIds → m = n) ∧
    (∀ b ∈ l.made, ∀ b' ∈ l.made, b.session = b'.session →
      b.payload.batchId = b'.payload.batchId → b = b') ∧
    ∀ x ∈ l.submitted, x.1 ∈ l.acked ∨ ∃ e ∈ l.core.listUnacked, e.opId = x.1 := by
  have hinv := h.inv hc
  refine ⟨fun id hid => ?_, fun st hst => ?_, hinv.unique, fun x hx => ?_⟩
  · obtain ⟨batch, hbatch, hmem, hstored⟩ := hinv.acked id hid
    exact ⟨batch, hbatch, hmem, hinv.carries batch hbatch id hmem, hstored⟩
  · exact ⟨(hinv.pump st hst).ops, (hinv.pump st hst).disjoint⟩
  · rcases hinv.kept x hx with hacked | ⟨row, hrow⟩
    · exact .inl hacked
    · obtain ⟨streamId, ms, acked⟩ := row
      cases acked with
      | none => exact .inr ⟨⟨x.1, streamId, ms⟩, SyncCore.mem_listUnacked.mpr hrow, rfl⟩
      | some at_ => exact .inl (hinv.marked x.1 _ hrow rfl)

end

open Relay.Sample in
/-- An op is submitted, sent, answered and acked. -/
theorem exists_reachable_acked :
    ∃ l : SyncLink Bytes,
      SyncLink.Reachable codec Cbor.codec .plain [1] l ∧ l.acked = [1] := by
  let l₁ := (SyncLink.new Bytes).submit 1 7 [7, 1] 1000
  obtain ⟨st, hbuild, batch, hbatch, hops, hids⟩ : ∃ st,
      buildOutboxFrames Cbor.codec .plain l₁.core (.new {7}) = some st ∧
      ∃ batch, st.inflight.find 1 = some batch ∧ batch.payload = ⟨[[7, 1]], 1, 7⟩ ∧
        batch.opIds = [1] :=
    ⟨_, rfl, _, rfl, rfl, rfl⟩
  have h₁ : SyncLink.Reachable codec Cbor.codec .plain [1] l₁ := .step .new (.submit ..)
  have h₂ := h₁.step (.connect l₁ {7} st hbuild)
  have h₃ := h₂.step (.send _ st rfl 1 batch hbatch)
  have h₄ := h₃.step (.answer _ _ (List.mem_singleton.mpr rfl)
    ⟨[[7, 1]], 1, one_op_lt 1, short_op_lt 1⟩
    (congrArg (·.ops) hops).symm (congrArg (·.batchId) hops).symm 1001 ⟨3, 60⟩)
  exact ⟨_, h₄.step (.ack _ st rfl _ (List.mem_singleton.mpr rfl) batch hbatch 1002), hids⟩

open Relay.Sample in
theorem acks_sound_one :
    ∃ l : SyncLink Bytes, SyncLink.Reachable codec Cbor.codec .plain [1] l ∧ l.acked = [1] ∧
      ∃ batch ∈ l.made, 1 ∈ batch.opIds ∧ ∃ a ∈ l.answered,
        a.publish.batch.ops = batch.payload.ops ∧ a.store.Holds codec a.publish := by
  obtain ⟨l, hl, hids⟩ := exists_reachable_acked
  obtain ⟨b, hb, hid, -, a, ha, -, -, hsame, hholds⟩ := (acks_sound Function.injective_id hl).1 1 <|
    (congrArg (1 ∈ ·) hids).mpr (List.mem_singleton.mpr rfl)
  exact ⟨l, hl, hids, b, hb, hid, a, ha, hsame, hholds⟩

/-! ### Acked ops -/

section

variable {H : Type} {c : RelayCodec H} {cbor : Cbor.Codec} {z : Zstd} {account : Bytes}
  {l : SyncLink H} [DecidableEq H]

theorem SyncLink.Reachable.retains (hc : Function.Injective c.blake3)
    (h : SyncLink.Reachable c cbor z account l) :
    ∃ appends, Retains c appends l.relay ∧ ∀ a ∈ l.answered, a.publish ∈ appends := by
  induction h with
  | new => exact ⟨[], .empty, by simp [SyncLink.new]⟩
  | step _ hstep ih =>
    obtain ⟨appends, hrelay, hmem⟩ := ih
    cases hstep with
    | submit id streamId env nowMs =>
      unfold SyncLink.submit
      split <;> exact ⟨appends, hrelay, hmem⟩
    | answer r hr b hops hid nowMs caps =>
      refine ⟨_, hrelay.publish hc _, fun a ha => ?_⟩
      rcases List.mem_append.mp ha with ha | ha
      · exact List.mem_append_left _ (hmem a ha)
      · rw [List.mem_singleton.mp ha]
        exact List.mem_append_right _ (List.mem_singleton.mpr rfl)
    | foreign p => exact ⟨_, hrelay.publish hc p, fun a ha => List.mem_append_left _ (hmem a ha)⟩
    | _ => exact ⟨appends, hrelay, hmem⟩

/-- A subscriber that is behind an op of the channel is sent it, or told of a gap it is in. -/
def RelayStore.Replays (c : RelayCodec H) (s : RelayStore H) (key : StreamKey) (op : Bytes) :
    Prop :=
  ∀ d n, c.header op = some (d, n) → n ≤ storeMax → ∀ cs : Cursors, cs.seqOf d < n →
    (∃ f ∈ (s.relayReplayAfter key 0 cs).1, ∃ p : Publish, p.key = key ∧ op ∈ p.batch.ops ∧
      f.bytes = p.frame c) ∨
    ∃ g ∈ (s.relayReplayAfter key 0 cs).2, g.deviceId = d ∧ n ≤ g.evictedThrough

/-- **An acked op is not lost silently**, whatever is appended and deleted after it. -/
theorem acked_replays (hc : Function.Injective c.blake3)
    (h : SyncLink.Reachable c cbor z account l) {id : OpId} (hid : id ∈ l.acked) :
    ∃ streamId env, (id, streamId, env) ∈ l.submitted ∧
      l.relay.Replays c (account, bigEndian 16 streamId) env := by
  have hinv := h.inv hc
  obtain ⟨appends, hrelay, hmem⟩ := h.retains hc
  obtain ⟨b, hb, hid, a, ha, -, hkey, hops, -⟩ := hinv.acked id hid
  obtain ⟨env, henv, hsubmitted⟩ := hinv.carries b hb id hid
  refine ⟨_, env, hsubmitted, fun d n hread hn cs hcs => ?_⟩
  rw [← hkey]
  rcases hrelay.replay_complete (hmem a ha) (hops ▸ henv) hread hn hcs with hsent | hgap
  · obtain ⟨f, hf, p, -, hp⟩ := hsent
    exact .inl ⟨f, hf, p, hp⟩
  · exact .inr hgap

end

open Relay.Sample in
theorem acked_replays_one :
    ∃ l : SyncLink Bytes, SyncLink.Reachable codec Cbor.codec .plain [1] l ∧ l.acked = [1] ∧
      ∃ streamId env, (1, streamId, env) ∈ l.submitted ∧
        l.relay.Replays codec ([1], bigEndian 16 streamId) env := by
  obtain ⟨l, hl, hids⟩ := exists_reachable_acked
  exact ⟨l, hl, hids, acked_replays Function.injective_id hl
    ((congrArg (1 ∈ ·) hids).mpr (List.mem_singleton.mpr rfl))⟩

end Sunrise
