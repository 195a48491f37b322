import Sunrise.Lib.Broadcast
import Sunrise.Relay.Ring

/-!
# The event stream

A session receives on a set of channels. A stream it opens takes, channel by channel, a live
receiver and then what the durable log holds for it, and says that the channel is caught up;
when all are, it goes on with what is published. Every event passes a bounded queue on its way
to the client. A client that comes back may name the last event id it received, and the log
is then read from that id on. Frames are stored first and broadcast after.
-/

namespace Sunrise

/-! ### Events -/

/-- The capacity of a channel's live broadcast buffer. -/
def channelCapacity : ℕ := 256

/-- How many events may queue for a slow reader. -/
def streamBuffer : ℕ := 256

/-- The id of a connection, its session's own. -/
abbrev ConnId := ℕ

/-- A frame as it is broadcast. -/
structure LiveFrame where
  conn : ConnId
  frame : RelayFrame

inductive CloseCode where
  | relayStorageUnavailable
  | syncNetworkUnavailable
  | authTokenExpired
  | authDeviceRevoked
deriving DecidableEq

/-- Why a server ends a stream. -/
inductive StreamEnd where
  | replayFailed
  | draining
  | sessionStoreUnavailable
  | tokenExpired
  | deviceStoreUnavailable
  | deviceRevoked
deriving DecidableEq

/-- One event on the sync stream. A frame is sent in base64 and the gaps as a text. -/
inductive SyncEvent where
  | ops (streamId frame : Bytes)
  | backlog (streamId : Bytes) (ops : ℕ)
  | caughtUp (streamId : Bytes)
  /-- The subscriber's cursors predate what retention still holds. -/
  | gap (streamId : Bytes) (gaps : List CursorGap)
  | closed (code : CloseCode) (reason : String)
deriving DecidableEq

def StreamEnd.closed : StreamEnd → SyncEvent
  | .replayFailed => .closed .relayStorageUnavailable "relay could not read its op log"
  | .draining => .closed .syncNetworkUnavailable "relay is shutting down"
  | .sessionStoreUnavailable =>
    .closed .relayStorageUnavailable "relay could not read its session store"
  | .tokenExpired => .closed .authTokenExpired "access token expired"
  | .deviceStoreUnavailable =>
    .closed .relayStorageUnavailable "relay could not read its device store"
  | .deviceRevoked => .closed .authDeviceRevoked "device revoked"

/-- A channel to receive on, with the subscriber's cursors. -/
structure Subscribed where
  streamId : Bytes
  cursors : Cursors

/-- Where an event comes from, which the wire does not say. -/
inductive Source where
  /-- From the log, read with these cursors when `upTo` was the last id given out. -/
  | replay (cursors : Cursors) (upTo : ℕ)
  /-- Number `n` of its channel's broadcasts, read by a receiver. -/
  | live (receiver n : ℕ)
  | notice

/-- An event the stream sends, with its `id:` field. -/
structure Posted where
  event : SyncEvent
  id : Option ℕ
  source : Source

/-! ### Replay -/

/-- The retained frames, with the `backlog` statement after the first. -/
def sendReplay (streamId : Bytes) : List ReplayFrame → List (SyncEvent × Option ℕ)
  | [] => []
  | f :: rest =>
    (.ops streamId f.bytes, some f.id) :: (.backlog streamId (rest.map (·.nOps)).sum, none) ::
      rest.map fun g => (.ops streamId g.bytes, some g.id)

/-- The events of one channel's replay: the gap goes out before the frames and before
`caught_up`. -/
def replayEvents (streamId : Bytes) (frames : List ReplayFrame) (gaps : List CursorGap) :
    List (SyncEvent × Option ℕ) :=
  (if gaps = [] then [] else [(.gap streamId gaps, none)]) ++ sendReplay streamId frames ++
    [(.caughtUp streamId, none)]

theorem mem_sendReplay {streamId : Bytes} {frames : List ReplayFrame} {f : ReplayFrame}
    (hf : f ∈ frames) : (.ops streamId f.bytes, some f.id) ∈ sendReplay streamId frames := by
  cases frames with
  | nil => cases hf
  | cons g rest =>
    cases List.mem_cons.mp hf with
    | inl heq =>
      subst heq
      exact List.mem_cons_self
    | inr hrest =>
      apply List.mem_cons_of_mem
      apply List.mem_cons_of_mem
      exact List.mem_map.mpr ⟨f, hrest, rfl⟩

theorem ne_caughtUp_of_mem_sendReplay {streamId : Bytes} {frames : List ReplayFrame}
    {x : SyncEvent × Option ℕ} (hx : x ∈ sendReplay streamId frames) (sid : Bytes) :
    x.1 ≠ .caughtUp sid := by
  cases frames with
  | nil => cases hx
  | cons g rest =>
    rcases List.mem_cons.mp hx with rfl | hx
    · intro h
      cases h
    rcases List.mem_cons.mp hx with rfl | hx
    · intro h
      cases h
    · obtain ⟨f, -, rfl⟩ := List.mem_map.mp hx
      intro h
      cases h

/-! ### Streams -/

structure LiveReceiver where
  streamId : Bytes
  /-- How many frames the channel had broadcast when it was taken. -/
  takenAt : ℕ
  next : ℕ

/-- An open stream. -/
structure EventStream where
  after : ℕ
  todo : List Subscribed
  /-- The receivers it has taken, in the session's order. -/
  receivers : List LiveReceiver
  posted : List Posted
  sent : ℕ
  taken : ℕ
  /-- The receive arm is off until the ticker's next turn. -/
  asleep : Bool
  ended : Bool

open EventStream

namespace EventStream

/-- A stream just opened. -/
def start (after : ℕ) (streams : List Subscribed) : EventStream :=
  ⟨after, streams, [], [], 0, 0, false, false⟩

/-- The task is not waiting in a send. -/
def idle (st : EventStream) : Bool := st.sent == st.posted.length && !st.ended

def received (st : EventStream) : List Posted := st.posted.take st.taken

/-- Put the next event into the queue, which has to have room. -/
def send (st : EventStream) : Option EventStream :=
  if st.sent < st.posted.length ∧ st.sent - st.taken < streamBuffer then
    some { st with sent := st.sent + 1 }
  else none

/-- The client takes an event out of the queue. -/
def receive (st : EventStream) : Option EventStream :=
  if st.taken < st.sent then some { st with taken := st.taken + 1 } else none

/-- The next channel: its receiver first, then the durable read. -/
def read {H : Type} (log : RelayStore H) (hub : StreamKey → List LiveFrame) (account : Bytes)
    (st : EventStream) : Option EventStream :=
  match st.todo with
  | [] => none
  | e :: rest =>
    let key : StreamKey := (account, e.streamId)
    let r := log.relayReplayAfter key st.after e.cursors
    let events := (replayEvents e.streamId r.1 r.2).map fun x =>
      (⟨x.1, x.2, .replay e.cursors log.lastId⟩ : Posted)
    if st.idle then
      some { st with
        todo := rest
        receivers := st.receivers ++ [⟨e.streamId, (hub key).length, (hub key).length⟩]
        posted := st.posted ++ events }
    else none

/-- The first receiver with something to read. -/
def recvFirst (hub : StreamKey → List LiveFrame) (account : Bytes)
    (receivers : List LiveReceiver) : Option ℕ :=
  receivers.findIdx? fun r => Broadcast.ready (hub (account, r.streamId)) r.next

/-- What the live loop makes of what receiver `i` was told. A frame of the session's own is not
echoed back to it; a lag is no frame, which turns the receive arm off for this turn. -/
def hand (conn : ConnId) (st : EventStream) (i : ℕ) (r : LiveReceiver) :
    Broadcast.Received LiveFrame × ℕ → EventStream
  | (.value f, next) =>
    { st with
      receivers := st.receivers.set i { r with next := next }
      posted := st.posted ++
        if f.conn = conn then []
        else [⟨.ops r.streamId f.frame.bytes, none, .live i r.next⟩] }
  | (.lagged _, next) =>
    { st with
      receivers := st.receivers.set i { r with next := next }
      asleep := true }
  | (.empty, _) => st

/-- The receive arm of the live loop. -/
def recv (hub : StreamKey → List LiveFrame) (account : Bytes) (conn : ConnId)
    (st : EventStream) : Option EventStream :=
  if st.idle = true ∧ st.todo.isEmpty = true ∧ st.asleep = false then
    (recvFirst hub account st.receivers).bind fun i =>
      (st.receivers[i]?).map fun r =>
        st.hand conn i r
          (Broadcast.recv channelCapacity (hub (account, r.streamId)) r.next)
  else none

/-- The ticker's arm, where the session and its device are still good. -/
def tick (st : EventStream) : Option EventStream :=
  if st.idle = true ∧ st.todo.isEmpty = true then some { st with asleep := false } else none

/-- The task says why it ends, and ends. A log that cannot be read is found out while there
are channels to read, everything else after. -/
def close (why : StreamEnd) (st : EventStream) : Option EventStream :=
  if st.idle = true ∧ (st.todo.isEmpty = true ↔ why ≠ .replayFailed) then
    some { st with posted := st.posted ++ [⟨why.closed, none, .notice⟩], ended := true }
  else none

end EventStream

/-! ### Sessions -/

/-- A session of one account, beside the server's log and its hub. -/
structure RelaySession (H : Type) where
  account : Bytes
  conn : ConnId
  log : RelayStore H
  /-- The frames that are stored and not broadcast yet. -/
  inFlight : List (StreamKey × LiveFrame)
  /-- All that was broadcast on each channel, oldest first. -/
  hub : StreamKey → List LiveFrame
  streams : List Subscribed
  /-- A subscribe replaced the set and no stream has served it yet. -/
  subscribeUnserved : Bool
  stream : Option EventStream
  past : List Posted
  stored : List FrameRow

/-- What can happen to a session. -/
inductive StreamAct where
  | append (conn : ConnId) (p : Publish)
  | fanOut (k : ℕ)
  | subscribe (streams : List Subscribed)
  /-- The client opens a stream, with the last event id it received or without one. -/
  | openStream (resume : Bool)
  | read
  | send
  | receive
  | recv
  | tick
  | close (why : StreamEnd)
  | cut

def lastEventId (xs : List Posted) : Option ℕ := (xs.filterMap (·.id)).getLast?

namespace RelaySession
variable {H : Type}

/-- A session just established, on a server that has stored nothing. -/
def init (account : Bytes) (conn : ConnId) : RelaySession H where
  account := account
  conn := conn
  log := RelayStore.empty
  inFlight := []
  hub := fun _ => []
  streams := []
  subscribeUnserved := false
  stream := none
  past := []
  stored := []

/-- The client received this on some stream of the session, in this order. -/
def delivered (σ : RelaySession H) : List Posted :=
  σ.past ++ (σ.stream.map received).getD []

/-- All that was posted on the streams, less what a cut took. -/
def sentEvents (σ : RelaySession H) : List Posted :=
  σ.past ++ (σ.stream.map posted).getD []

def turn (σ : RelaySession H) (f : EventStream → Option EventStream) :
    Option (RelaySession H) :=
  (σ.stream.bind f).map fun st => { σ with stream := some st }

/-- The frame of a batch is stored, and is to be broadcast; that of a batch the channel holds
is neither. -/
def append [DecidableEq H] (c : RelayCodec H) (σ : RelaySession H) (conn : ConnId)
    (p : Publish) : RelaySession H :=
  match (σ.log.publish c p).2 with
  | .fresh _ _ =>
    { σ with
      log := (σ.log.publish c p).1
      inFlight := σ.inFlight ++ [(p.key, ⟨conn, p.ringFrame c⟩)]
      stored := σ.stored ++ [p.row c (σ.log.lastId + 1)] }
  | .duplicate _ => σ

/-- A frame reaches the hub. -/
def fanOut (σ : RelaySession H) (k : ℕ) : Option (RelaySession H) :=
  (σ.inFlight[k]?).map fun x =>
    { σ with
      inFlight := σ.inFlight.eraseIdx k
      hub := Function.update σ.hub x.1 (σ.hub x.1 ++ [x.2]) }

/-- Open a stream. An id presented on the first stream after a subscribe is refused; a zero is
no resume point. -/
def openStream (σ : RelaySession H) (resume : Bool) : Option (RelaySession H) :=
  let after := if resume then (lastEventId σ.delivered).filter (0 < ·) else none
  if σ.stream.isSome ∨ after.isSome ∧ σ.subscribeUnserved then none
  else
    some { σ with
      subscribeUnserved := false
      stream := some (start (after.getD 0) σ.streams) }

/-- The effect of an action, where it can happen. -/
def perform [DecidableEq H] (c : RelayCodec H) (σ : RelaySession H) :
    StreamAct → Option (RelaySession H)
  | .append conn p => some (σ.append c conn p)
  | .fanOut k => σ.fanOut k
  | .subscribe streams => some { σ with streams := streams, subscribeUnserved := true }
  | .openStream resume => σ.openStream resume
  | .read => σ.turn (EventStream.read σ.log σ.hub σ.account)
  | .send => σ.turn send
  | .receive => σ.turn receive
  | .recv => σ.turn (recv σ.hub σ.account σ.conn)
  | .tick => σ.turn tick
  | .close why => σ.turn (close why)
  | .cut =>
    if σ.stream.isSome then some { σ with stream := none, past := σ.delivered } else none

end RelaySession

/-! ### Runs -/

section
variable {H : Type} [DecidableEq H] (c : RelayCodec H)

/-- The states of a session's runs in which every action meets the condition `P` where it is
taken. -/
inductive StreamRun (P : RelaySession H → StreamAct → Prop) (account : Bytes) (conn : ConnId) :
    RelaySession H → Prop where
  | init : StreamRun P account conn (RelaySession.init account conn)
  | step {σ σ' : RelaySession H} (a : StreamAct) (hrun : StreamRun P account conn σ)
      (hmeets : P σ a) (hstep : σ.perform c a = some σ') : StreamRun P account conn σ'

/-- Perform the actions in turn, each where it meets the condition. -/
def performAll (P : RelaySession H → StreamAct → Prop) [∀ σ a, Decidable (P σ a)] :
    RelaySession H → List StreamAct → Option (RelaySession H)
  | σ, [] => some σ
  | σ, a :: as => if P σ a then (σ.perform c a).bind fun σ' => performAll P σ' as else none

theorem StreamRun.of_performAll {P : RelaySession H → StreamAct → Prop}
    [∀ σ a, Decidable (P σ a)] {account : Bytes} {conn : ConnId} {σ σ' : RelaySession H}
    {as : List StreamAct} (hrun : StreamRun c P account conn σ)
    (h : performAll c P σ as = some σ') : StreamRun c P account conn σ' := by
  induction as generalizing σ with
  | nil =>
    rw [← Option.some.inj h]
    exact hrun
  | cons a as ih =>
    rw [performAll] at h
    split at h
    · next hmeets =>
      obtain ⟨τ, hstep, hrest⟩ := Option.bind_eq_some_iff.mp h
      exact ih (hrun.step a hmeets hstep) hrest
    · cases h

end

/-! ### What was stored -/

/-- Each frame that was ever stored is held, or its heads are under the watermarks of its
channel. -/
structure StoredFrames {H : Type} (stored : List FrameRow) (s : RelayStore H) : Prop where
  sorted : s.frames.Pairwise fun f g => f.id < g.id
  le_lastId : ∀ f ∈ stored, f.id ≤ s.lastId
  of_mem : ∀ f ∈ s.frames, f ∈ stored
  held : ∀ f ∈ stored, f ∈ s.frames ∨
    ∀ h ∈ f.heads.rows, ∃ n, (s.evicted f.key).find h.1 = some n ∧ h.2 ≤ n

namespace StoredFrames
variable {H : Type} {stored : List FrameRow} {s : RelayStore H}

theorem empty : StoredFrames [] (RelayStore.empty : RelayStore H) where
  sorted := List.Pairwise.nil
  le_lastId := by simp
  of_mem := by simp [RelayStore.empty]
  held := by simp

theorem deleteFrame (h : StoredFrames stored s) {key : StreamKey} {id : ℕ}
    (hkey : ∀ f ∈ s.frames, f.id = id → f.key = key) :
    StoredFrames stored (RelayStore.deleteFrame key s id) where
  sorted := h.sorted.filter _
  le_lastId := h.le_lastId
  of_mem := fun f hf => h.of_mem f (List.mem_filter.mp hf).1
  held := by
    intro f hf
    have hraise : ∀ {d : Bytes} {m : ℕ}, (∃ n, (s.evicted f.key).find d = some n ∧ m ≤ n) →
        ∃ n, ((RelayStore.deleteFrame key s id).evicted f.key).find d = some n ∧ m ≤ n := by
      intro d m hd
      show ∃ n, (Function.update s.evicted key _ f.key).find d = some n ∧ _
      by_cases hfk : f.key = key
      · rw [hfk, Function.update_self]
        exact Watermarks.le_raiseAll (hfk ▸ hd)
      · rwa [Function.update_of_ne hfk]
    cases h.held f hf with
    | inr hmarks => exact Or.inr fun x hx => hraise (hmarks x hx)
    | inl hmem =>
      by_cases hid : f.id = id
      · right
        intro x hx
        have hfk : f.key = key := hkey f hmem hid
        show ∃ n, (Function.update s.evicted key _ f.key).find x.1 = some n ∧ _
        rw [hfk, Function.update_self, ← hid, RelayStore.headsOf_eq h.sorted hmem]
        exact Watermarks.le_raiseAll_of_mem hx
      · left
        exact List.mem_filter.mpr ⟨hmem, by simpa using hid⟩

theorem deleteFrames (h : StoredFrames stored s) {key : StreamKey} {gone : List ℕ}
    (hkey : ∀ id ∈ gone, ∀ f ∈ s.frames, f.id = id → f.key = key) :
    StoredFrames stored (gone.foldl (RelayStore.deleteFrame key) s) := by
  induction gone generalizing s with
  | nil => exact h
  | cons id gone ih =>
    apply ih (h.deleteFrame (hkey id List.mem_cons_self))
    intro i hi f hf
    exact hkey i (List.mem_cons_of_mem _ hi) f (List.mem_filter.mp hf).1

theorem insert (h : StoredFrames stored s) (c : RelayCodec H) (p : Publish) :
    StoredFrames (stored ++ [p.row c (s.lastId + 1)]) (s.insert c p) where
  sorted := by
    refine List.pairwise_append.mpr ⟨h.sorted, List.pairwise_singleton _ _, ?_⟩
    intro f hf g hg
    rw [List.mem_singleton.mp hg]
    exact Nat.lt_succ_of_le (h.le_lastId f (h.of_mem f hf))
  le_lastId := by
    intro f hf
    cases List.mem_append.mp hf with
    | inl hf => exact Nat.le_succ_of_le (h.le_lastId f hf)
    | inr hf =>
      rw [List.mem_singleton.mp hf]
      exact le_rfl
  of_mem := by
    intro f hf
    cases List.mem_append.mp hf with
    | inl hf => exact List.mem_append_left _ (h.of_mem f hf)
    | inr hf => exact List.mem_append_right _ hf
  held := by
    intro f hf
    cases List.mem_append.mp hf with
    | inl hf => exact (h.held f hf).imp_left fun hmem => List.mem_append_left _ hmem
    | inr hf => exact Or.inl (List.mem_append_right _ hf)

theorem publish [DecidableEq H] (h : StoredFrames stored s) {c : RelayCodec H} {p : Publish}
    {s' : RelayStore H} {nowMs evicted : ℕ} (hp : s.publish c p = (s', .fresh nowMs evicted)) :
    StoredFrames (stored ++ [p.row c (s.lastId + 1)]) s' := by
  rw [RelayStore.eq_of_fresh hp]
  apply (h.insert c p).deleteFrames
  intro id hid f hf hfid
  obtain ⟨g, hg, hgid⟩ := RelayStore.mem_doomed hid
  obtain ⟨hg, hgk⟩ := RelayStore.mem_channel.mp hg
  rw [RelayStore.eq_of_id (h.insert c p).sorted hf hg (hfid.trans hgid.symm), hgk]

end StoredFrames

theorem RelayStore.lastId_publish {H : Type} [DecidableEq H] {c : RelayCodec H}
    {s s' : RelayStore H} {p : Publish} {nowMs evicted : ℕ}
    (hp : s.publish c p = (s', .fresh nowMs evicted)) : s'.lastId = s.lastId + 1 := by
  rw [RelayStore.eq_of_fresh hp]
  have hfold : ∀ (gone : List ℕ) (t : RelayStore H),
      (gone.foldl (RelayStore.deleteFrame p.key) t).lastId = t.lastId := by
    intro gone
    induction gone with
    | nil => exact fun _ => rfl
    | cons id gone ih => exact fun t => ih _
  rw [hfold]
  rfl

/-! ### What a replay says -/

section
variable {H : Type} {s : RelayStore H} {account streamId : Bytes} {after : ℕ} {cs : Cursors}

theorem mem_sendReplay_of_sent {f : FrameRow} (hf : f ∈ s.channel (account, streamId))
    (hsent : if after > 0 then after < f.id else covered f.heads.rows cs = false) :
    (.ops streamId f.bytes, some f.id) ∈ sendReplay streamId
      (s.relayReplayAfter (account, streamId) after cs).1 := by
  have hmem : (⟨f.id, f.bytes, f.nOps⟩ : ReplayFrame) ∈
      (s.relayReplayAfter (account, streamId) after cs).1 := by
    refine List.mem_map.mpr ⟨f, List.mem_filter.mpr ⟨hf, ?_⟩, rfl⟩
    split at hsent
    · next hpos => simpa [hpos] using hsent
    · next hzero => simp [hzero, hsent]
  exact mem_sendReplay hmem

theorem mem_gaps_of_lt {d : Bytes} {n : ℕ}
    (hmark : (s.evicted (account, streamId)).find d = some n) (hlt : cs.seqOf d < n) :
    (⟨d, cs.seqOf d, n⟩ : CursorGap) ∈
      (s.relayReplayAfter (account, streamId) after cs).2 := by
  refine List.mem_filterMap.mpr ⟨(d, n), Table.mem_rows.mpr hmark, ?_⟩
  rw [if_pos hlt]

end

end Sunrise
