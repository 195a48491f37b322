import Sunrise.Relay.Stream

/-!
# Resuming an event stream

The ids a client resumes on are drawn from one counter for all channels, and the channels of a
stream are replayed one after the other. A client cut off between two channels names an id of
the first, and the second is then read from that id on, past frames it was never sent: it is
told it is caught up with a hole. Where every frame so passed had been sent before, nothing is
lost, whatever is published and wherever the stream is cut.

## Main results

* `StreamRun.resumes` — a session whose reads pass over nothing loses nothing.
* `StreamRun.not_resumes` — a cut between two channels, and a resume on the id of the first.
-/

namespace Sunrise

/-! ### What a client has to be told -/

/-- The frame is among the events, or in a gap one of them reports: beyond the cursor, and not
beyond what was evicted. -/
def Accounted (xs : List Posted) (streamId : Bytes) (f : FrameRow) : Prop :=
  (∃ x ∈ xs, x.event = .ops streamId f.bytes) ∨
    ∃ x ∈ xs, ∃ gaps, x.event = .gap streamId gaps ∧ ∃ g ∈ gaps, ∃ h ∈ f.heads.rows,
      h.1 = g.deviceId ∧ g.cursor < h.2 ∧ h.2 ≤ g.evictedThrough

/-- Before a channel is said to be caught up, each of its frames is accounted for that was
stored when the log was read for it and that the declared cursors do not cover. -/
def NothingLost (account : Bytes) (stored : List FrameRow) (xs : List Posted) : Prop :=
  ∀ before x rest, xs = before ++ x :: rest → ∀ streamId cs upTo,
    x.event = .caughtUp streamId → x.source = .replay cs upTo →
      ∀ f ∈ stored, f.key = (account, streamId) → f.id ≤ upTo →
        covered f.heads.rows cs = false → Accounted before streamId f

namespace NothingLost
variable {account : Bytes} {stored : List FrameRow} {xs ys : List Posted}

theorem nil : NothingLost account stored [] := by
  intro before x rest h
  exact absurd h (by simp)

theorem of_isPrefix (h : NothingLost account stored ys) (hpre : xs <+: ys) :
    NothingLost account stored xs := by
  obtain ⟨zs, rfl⟩ := hpre
  intro before x rest hsplit
  apply h before x (rest ++ zs)
  rw [hsplit, List.append_assoc, List.cons_append]

theorem concat (h : NothingLost account stored xs) {y : Posted}
    (hy : ∀ streamId cs upTo, y.event = .caughtUp streamId → y.source = .replay cs upTo →
      ∀ f ∈ stored, f.key = (account, streamId) → f.id ≤ upTo →
        covered f.heads.rows cs = false → Accounted xs streamId f) :
    NothingLost account stored (xs ++ [y]) := by
  intro before x rest hsplit
  rcases List.append_eq_append_iff.mp hsplit with ⟨zs, hbefore, hrest⟩ | ⟨zs, hxs, hrest⟩
  · -- the split is at the new event
    cases zs with
    | nil =>
      obtain ⟨rfl, -⟩ := List.cons.inj hrest
      rw [hbefore, List.append_nil]
      exact hy
    | cons z zs => exact absurd (congrArg List.length hrest) (by simp)
  · cases zs with
    | nil =>
      obtain ⟨rfl, -⟩ := List.cons.inj hrest
      rw [List.append_nil] at hxs
      rw [← hxs]
      exact hy
    | cons z zs =>
      obtain ⟨rfl, -⟩ := List.cons.inj hrest
      exact h before x zs hxs

theorem append (h : NothingLost account stored xs)
    (hys : ∀ y ∈ ys, ∀ streamId, y.event ≠ .caughtUp streamId) :
    NothingLost account stored (xs ++ ys) := by
  induction ys generalizing xs with
  | nil =>
    rw [List.append_nil]
    exact h
  | cons y ys ih =>
    rw [List.append_cons]
    apply ih
    · apply h.concat
      intro streamId _ _ hevent
      exact absurd hevent (hys y List.mem_cons_self streamId)
    · intro z hz
      exact hys z (List.mem_cons_of_mem _ hz)

theorem store (h : NothingLost account stored xs) {n : ℕ} {f : FrameRow} (hf : n < f.id)
    (hupTo : ∀ x ∈ xs, ∀ cs m, x.source = .replay cs m → m ≤ n) :
    NothingLost account (stored ++ [f]) xs := by
  intro before x rest hsplit streamId cs upTo hevent hsource g hg hkey hle hcov
  cases List.mem_append.mp hg with
  | inl hg => exact h before x rest hsplit streamId cs upTo hevent hsource g hg hkey hle hcov
  | inr hg =>
    have hx : x ∈ xs := by
      rw [hsplit]
      exact List.mem_append_right _ List.mem_cons_self
    have hlow := hupTo x hx cs upTo hsource
    rw [List.mem_singleton.mp hg] at hle
    omega

end NothingLost

/-! ### Reads that pass over nothing -/

namespace RelaySession
variable {H : Type}

/-- A read of a channel leaves out nothing the client needs: what is held under the id it
resumes on or less, and is not covered, was sent before; and what retention deleted, and is not
covered, has a number beyond the cursor to report it by. -/
def PassesNothing (σ : RelaySession H) (after : ℕ) (e : Subscribed) : Prop :=
  (0 < after → ∀ f ∈ σ.log.channel (σ.account, e.streamId), f.id ≤ after →
    covered f.heads.rows e.cursors = false →
      ∃ x ∈ σ.sentEvents, x.event = .ops e.streamId f.bytes) ∧
  ∀ f ∈ σ.stored, f.key = (σ.account, e.streamId) → f ∉ σ.log.frames →
    covered f.heads.rows e.cursors = false → ∃ h ∈ f.heads.rows, e.cursors.seqOf h.1 < h.2

instance (σ : RelaySession H) (after : ℕ) (e : Subscribed) :
    Decidable (σ.PassesNothing after e) :=
  inferInstanceAs (Decidable ((_ → _) ∧ _))

def nextRead (σ : RelaySession H) : Option (ℕ × Subscribed) :=
  σ.stream.bind fun st => (st.todo.head?).map fun e => (st.after, e)

/-- The condition on an action: a read passes over nothing. -/
def Resumes (σ : RelaySession H) : StreamAct → Prop
  | .read => ∀ r ∈ σ.nextRead, σ.PassesNothing r.1 r.2
  | _ => True

instance (σ : RelaySession H) (a : StreamAct) : Decidable (σ.Resumes a) :=
  match a with
  | .read => inferInstanceAs (Decidable (∀ r ∈ σ.nextRead, σ.PassesNothing r.1 r.2))
  | .append _ _ | .fanOut _ | .subscribe _ | .openStream _ | .send | .receive | .recv | .tick
  | .close _ | .cut => inferInstanceAs (Decidable True)

end RelaySession

/-! ### What a turn posts -/

/-- A turn of the stream that reads no channel: what it posts is no replay. -/
def EventStream.Adds (st st' : EventStream) : Prop :=
  ∃ ys, st'.posted = st.posted ++ ys ∧ ∀ y ∈ ys,
    (∀ streamId, y.event ≠ .caughtUp streamId) ∧ ∀ cs n, y.source ≠ .replay cs n

namespace EventStream
variable {st st' : EventStream}

theorem Adds.of_eq (h : st'.posted = st.posted) : st.Adds st' :=
  ⟨[], by rw [h, List.append_nil], by simp⟩

theorem adds_send (h : st.send = some st') : st.Adds st' := by
  rw [send] at h
  split at h
  · rw [← Option.some.inj h]
    exact Adds.of_eq rfl
  · cases h

theorem adds_receive (h : st.receive = some st') : st.Adds st' := by
  rw [receive] at h
  split at h
  · rw [← Option.some.inj h]
    exact Adds.of_eq rfl
  · cases h

theorem adds_tick (h : st.tick = some st') : st.Adds st' := by
  rw [tick] at h
  split at h
  · rw [← Option.some.inj h]
    exact Adds.of_eq rfl
  · cases h

theorem adds_close {why : StreamEnd} (h : st.close why = some st') : st.Adds st' := by
  rw [close] at h
  split at h
  · rw [← Option.some.inj h]
    refine ⟨_, rfl, ?_⟩
    intro y hy
    rw [List.mem_singleton.mp hy]
    refine ⟨fun streamId hclosed => ?_, fun cs n hnotice => ?_⟩
    · cases why <;> cases hclosed
    · cases hnotice
  · cases h

theorem adds_hand (conn : ConnId) (st : EventStream) (i : ℕ) (r : LiveReceiver)
    (x : Broadcast.Received LiveFrame × ℕ) : st.Adds (st.hand conn i r x) := by
  obtain ⟨told, next⟩ := x
  cases told with
  | lagged missed => exact Adds.of_eq rfl
  | empty => exact Adds.of_eq rfl
  | value f =>
    refine ⟨_, rfl, ?_⟩
    intro y hy
    split at hy
    · cases hy
    · rw [List.mem_singleton.mp hy]
      refine ⟨fun streamId hops => ?_, fun cs n hlive => ?_⟩
      · cases hops
      · cases hlive

theorem adds_recv {hub : StreamKey → List LiveFrame} {account : Bytes} {conn : ConnId}
    (h : st.recv hub account conn = some st') : st.Adds st' := by
  rw [recv] at h
  split at h
  · obtain ⟨i, -, hi⟩ := Option.bind_eq_some_iff.mp h
    obtain ⟨r, -, rfl⟩ := Option.map_eq_some_iff.mp hi
    exact adds_hand conn st i r _
  · cases h

end EventStream

/-! ### The invariant -/

namespace RelaySession
variable {H : Type}

theorem turn_eq_some {σ σ' : RelaySession H} {f : EventStream → Option EventStream} :
    σ.turn f = some σ' ↔ ∃ st st', σ.stream = some st ∧ f st = some st' ∧
      { σ with stream := some st' } = σ' := by
  unfold turn
  constructor
  · intro h
    obtain ⟨st', hst', hσ'⟩ := Option.map_eq_some_iff.mp h
    obtain ⟨st, hst, hf⟩ := Option.bind_eq_some_iff.mp hst'
    exact ⟨st, st', hst, hf, hσ'⟩
  · rintro ⟨st, st', hst, hf, rfl⟩
    rw [hst, Option.bind_some, hf]
    rfl

theorem openStream_eq_some {σ σ' : RelaySession H} {resume : Bool}
    (h : σ.openStream resume = some σ') : σ.stream = none ∧ ∃ after,
      { σ with
        subscribeUnserved := false
        stream := some (EventStream.start after σ.streams) } = σ' := by
  unfold openStream at h
  obtain ⟨hopen, hσ'⟩ := Option.ite_none_left_eq_some.mp h
  refine ⟨?_, _, Option.some.inj hσ'⟩
  cases hst : σ.stream with
  | none => rfl
  | some st => exact absurd (Or.inl (by rw [hst]; rfl)) hopen

theorem sentEvents_of_some {σ : RelaySession H} {st : EventStream} (h : σ.stream = some st) :
    σ.sentEvents = σ.past ++ st.posted := by
  rw [sentEvents, h]
  rfl

theorem delivered_of_some {σ : RelaySession H} {st : EventStream} (h : σ.stream = some st) :
    σ.delivered = σ.past ++ st.received := by
  rw [delivered, h]
  rfl

theorem delivered_isPrefix (σ : RelaySession H) : σ.delivered <+: σ.sentEvents := by
  cases h : σ.stream with
  | none =>
    rw [delivered, sentEvents, h]
    exact List.prefix_rfl
  | some st =>
    rw [delivered_of_some h, sentEvents_of_some h]
    exact (List.prefix_append_right_inj _).mpr (List.take_prefix _ _)

/-- The session has lost nothing so far, the events on their way counted. -/
structure KeepsAll (σ : RelaySession H) : Prop where
  frames : StoredFrames σ.stored σ.log
  upTo : ∀ x ∈ σ.sentEvents, ∀ cs n, x.source = .replay cs n → n ≤ σ.log.lastId
  lost : NothingLost σ.account σ.stored σ.sentEvents

namespace KeepsAll
variable {σ σ' : RelaySession H}

theorem init (account : Bytes) (conn : ConnId) :
    KeepsAll (RelaySession.init account conn : RelaySession H) where
  frames := StoredFrames.empty
  upTo := by
    intro x hx
    cases hx
  lost := NothingLost.nil

theorem of_eq (h : KeepsAll σ) (haccount : σ'.account = σ.account) (hlog : σ'.log = σ.log)
    (hstored : σ'.stored = σ.stored) (hevents : σ'.sentEvents = σ.sentEvents) :
    KeepsAll σ' where
  frames := by
    rw [hstored, hlog]
    exact h.frames
  upTo := by
    rw [hevents, hlog]
    exact h.upTo
  lost := by
    rw [haccount, hstored, hevents]
    exact h.lost

theorem append [DecidableEq H] (c : RelayCodec H) (h : KeepsAll σ) (conn : ConnId)
    (p : Publish) : KeepsAll (σ.append c conn p) := by
  unfold RelaySession.append
  split
  · next nowMs evicted hfresh =>
    have hp : σ.log.publish c p = ((σ.log.publish c p).1, .fresh nowMs evicted) := by
      rw [← hfresh]
    have hlast : σ.log.lastId ≤ (σ.log.publish c p).1.lastId := by
      rw [RelayStore.lastId_publish hp]
      exact Nat.le_succ _
    refine ⟨h.frames.publish hp, fun x hx cs n hsource => ?_, ?_⟩
    · exact le_trans (h.upTo x hx cs n hsource) hlast
    · exact h.lost.store (Nat.lt_succ_self _) h.upTo
  · exact h

theorem adds (h : KeepsAll σ) {st st' : EventStream} (hst : σ.stream = some st)
    (hadds : st.Adds st') : KeepsAll { σ with stream := some st' } := by
  obtain ⟨ys, hposted, hys⟩ := hadds
  have hevents : ({ σ with stream := some st' } : RelaySession H).sentEvents =
      σ.sentEvents ++ ys := by
    rw [sentEvents_of_some rfl, hposted, sentEvents_of_some hst, List.append_assoc]
  refine ⟨h.frames, fun x hx cs n hsource => ?_, ?_⟩
  · rw [hevents] at hx
    cases List.mem_append.mp hx with
    | inl hx => exact h.upTo x hx cs n hsource
    | inr hx => exact absurd hsource ((hys x hx).2 cs n)
  · rw [hevents]
    exact h.lost.append fun y hy => (hys y hy).1

/-- A frame of the channel that is read, and not covered, is accounted for: it is among the
frames sent, or was sent before, or the gap names it. -/
theorem accounted (h : KeepsAll σ) {after : ℕ} {e : Subscribed}
    (hmeets : σ.PassesNothing after e) {events : List Posted}
    (hevents : ∀ x, x ∈ replayEvents e.streamId
        (σ.log.relayReplayAfter (σ.account, e.streamId) after e.cursors).1
        (σ.log.relayReplayAfter (σ.account, e.streamId) after e.cursors).2 →
      (∀ sid, x.1 ≠ .caughtUp sid) → ∃ y ∈ events, y.event = x.1)
    {f : FrameRow} (hf : f ∈ σ.stored) (hkey : f.key = (σ.account, e.streamId))
    (hcov : covered f.heads.rows e.cursors = false) :
    Accounted (σ.sentEvents ++ events) e.streamId f := by
  by_cases hheld : f ∈ σ.log.frames
  · -- the frame is still held, and the read sends it, or it lies under the resume id
    left
    have hchan : f ∈ σ.log.channel (σ.account, e.streamId) :=
      RelayStore.mem_channel.mpr ⟨hheld, hkey⟩
    by_cases hunder : 0 < after ∧ f.id ≤ after
    · obtain ⟨x, hx, hops⟩ := hmeets.1 hunder.1 f hchan hunder.2 hcov
      exact ⟨x, List.mem_append_left _ hx, hops⟩
    · have hsent : if after > 0 then after < f.id
          else covered f.heads.rows e.cursors = false := by
        split
        · next hpos =>
          by_contra hle
          exact hunder ⟨hpos, Nat.not_lt.mp hle⟩
        · exact hcov
      have hmem : (SyncEvent.ops e.streamId f.bytes, some f.id) ∈ replayEvents e.streamId
          (σ.log.relayReplayAfter (σ.account, e.streamId) after e.cursors).1
          (σ.log.relayReplayAfter (σ.account, e.streamId) after e.cursors).2 := by
        apply List.mem_append_left
        apply List.mem_append_right
        exact mem_sendReplay_of_sent hchan hsent
      obtain ⟨y, hy, hevent⟩ := hevents _ hmem fun sid hne => by cases hne
      exact ⟨y, List.mem_append_right _ hy, hevent⟩
  · -- retention deleted it, and its number beyond the cursor is under the watermark
    right
    obtain ⟨x, hx, hlt⟩ := hmeets.2 f hf hkey hheld hcov
    rcases h.frames.held f hf with hmem | hmarks
    · exact absurd hmem hheld
    obtain ⟨n, hn, hle⟩ := hmarks x hx
    rw [hkey] at hn
    have hgap := @mem_gaps_of_lt _ _ _ _ after _ _ _ hn (lt_of_lt_of_le hlt hle)
    have hne : (σ.log.relayReplayAfter (σ.account, e.streamId) after e.cursors).2 ≠ [] :=
      List.ne_nil_of_mem hgap
    have hmem : (SyncEvent.gap e.streamId
        (σ.log.relayReplayAfter (σ.account, e.streamId) after e.cursors).2, none) ∈
        replayEvents e.streamId
          (σ.log.relayReplayAfter (σ.account, e.streamId) after e.cursors).1
          (σ.log.relayReplayAfter (σ.account, e.streamId) after e.cursors).2 := by
      apply List.mem_append_left
      apply List.mem_append_left
      rw [if_neg hne]
      exact List.mem_singleton.mpr rfl
    obtain ⟨y, hy, hevent⟩ := hevents _ hmem fun sid hne => by cases hne
    exact ⟨y, List.mem_append_right _ hy, _, hevent, _, hgap, x, hx, rfl, hlt, hle⟩

theorem read_eq_some {log : RelayStore H} {hub : StreamKey → List LiveFrame} {account : Bytes}
    {st st' : EventStream} (h : st.read log hub account = some st') :
    ∃ e rest, st.todo = e :: rest ∧ st'.posted = st.posted ++
      (replayEvents e.streamId (log.relayReplayAfter (account, e.streamId) st.after e.cursors).1
        (log.relayReplayAfter (account, e.streamId) st.after e.cursors).2).map fun x =>
          (⟨x.1, x.2, .replay e.cursors log.lastId⟩ : Posted) := by
  rw [EventStream.read] at h
  split at h
  · cases h
  · next e rest htodo =>
    split at h
    · rw [← Option.some.inj h]
      exact ⟨e, rest, htodo, rfl⟩
    · cases h

theorem read (h : KeepsAll σ) {st st' : EventStream} (hst : σ.stream = some st)
    (hread : st.read σ.log σ.hub σ.account = some st') (hmeets : σ.Resumes .read) :
    KeepsAll { σ with stream := some st' } := by
  obtain ⟨e, rest, htodo, hposted⟩ := read_eq_some hread
  have hpass : σ.PassesNothing st.after e := by
    apply hmeets (st.after, e)
    rw [nextRead, hst, Option.bind_some, htodo]
    rfl
  set frames := (σ.log.relayReplayAfter (σ.account, e.streamId) st.after e.cursors).1
  set gaps := (σ.log.relayReplayAfter (σ.account, e.streamId) st.after e.cursors).2
  let post := fun x : SyncEvent × Option ℕ =>
    (⟨x.1, x.2, .replay e.cursors σ.log.lastId⟩ : Posted)
  let said := (if gaps = [] then [] else [(SyncEvent.gap e.streamId gaps, none)]) ++
    sendReplay e.streamId frames
  have hevents : ({ σ with stream := some st' } : RelaySession H).sentEvents =
      σ.sentEvents ++ said.map post ++ [post (.caughtUp e.streamId, none)] := by
    rw [sentEvents_of_some rfl, hposted, sentEvents_of_some hst, replayEvents, List.map_append,
      ← List.append_assoc, ← List.append_assoc]
    rfl
  have hsource : ∀ x ∈ ({ σ with stream := some st' } : RelaySession H).sentEvents,
      ∀ cs n, x.source = .replay cs n → n ≤ σ.log.lastId := by
    intro x hx cs n hxs
    rw [hevents, List.append_assoc, List.mem_append] at hx
    cases hx with
    | inl hx => exact h.upTo x hx cs n hxs
    | inr hx =>
      have hxs' : x.source = .replay e.cursors σ.log.lastId := by
        cases List.mem_append.mp hx with
        | inl hx =>
          obtain ⟨y, -, rfl⟩ := List.mem_map.mp hx
          rfl
        | inr hx =>
          rw [List.mem_singleton.mp hx]
      rw [hxs'] at hxs
      cases hxs
      exact le_rfl
  refine ⟨h.frames, hsource, ?_⟩
  rw [hevents]
  apply NothingLost.concat
  · -- neither the gap nor a frame says that the channel is caught up
    apply h.lost.append
    intro y hy streamId
    obtain ⟨x, hx, rfl⟩ := List.mem_map.mp hy
    cases List.mem_append.mp hx with
    | inl hx =>
      split at hx
      · cases hx
      · rw [List.mem_singleton.mp hx]
        intro hgap
        cases hgap
    | inr hx => exact ne_caughtUp_of_mem_sendReplay hx streamId
  · intro streamId cs upTo hcaught hreplay f hf hkey _ hcov
    cases hcaught
    cases hreplay
    apply h.accounted hpass _ hf hkey hcov
    intro x hx hne
    cases List.mem_append.mp hx with
    | inl hx => exact ⟨post x, List.mem_map_of_mem hx, rfl⟩
    | inr hx =>
      rw [List.mem_singleton.mp hx] at hne
      exact absurd rfl (hne e.streamId)

/-- **What an action does** where a read passes over nothing: nothing is lost by it. -/
theorem perform [DecidableEq H] (c : RelayCodec H) (h : KeepsAll σ) {a : StreamAct}
    (hmeets : σ.Resumes a) (hstep : σ.perform c a = some σ') : KeepsAll σ' := by
  cases a with
  | append conn p =>
    rw [← Option.some.inj hstep]
    exact h.append c conn p
  | fanOut k =>
    obtain ⟨x, -, rfl⟩ := Option.map_eq_some_iff.mp hstep
    exact h.of_eq rfl rfl rfl rfl
  | subscribe streams =>
    rw [← Option.some.inj hstep]
    exact h.of_eq rfl rfl rfl rfl
  | openStream resume =>
    -- no stream was open, and the new one has posted nothing
    obtain ⟨hst, after, rfl⟩ := openStream_eq_some hstep
    refine h.of_eq rfl rfl rfl ?_
    rw [sentEvents_of_some rfl, sentEvents, hst]
    rfl
  | read =>
    obtain ⟨st, st', hst, hread, rfl⟩ := turn_eq_some.mp hstep
    exact h.read hst hread hmeets
  | send =>
    obtain ⟨st, st', hst, hturn, rfl⟩ := turn_eq_some.mp hstep
    exact h.adds hst (EventStream.adds_send hturn)
  | receive =>
    obtain ⟨st, st', hst, hturn, rfl⟩ := turn_eq_some.mp hstep
    exact h.adds hst (EventStream.adds_receive hturn)
  | recv =>
    obtain ⟨st, st', hst, hturn, rfl⟩ := turn_eq_some.mp hstep
    exact h.adds hst (EventStream.adds_recv hturn)
  | tick =>
    obtain ⟨st, st', hst, hturn, rfl⟩ := turn_eq_some.mp hstep
    exact h.adds hst (EventStream.adds_tick hturn)
  | close why =>
    obtain ⟨st, st', hst, hturn, rfl⟩ := turn_eq_some.mp hstep
    exact h.adds hst (EventStream.adds_close hturn)
  | cut =>
    rw [RelaySession.perform] at hstep
    split at hstep
    · rw [← Option.some.inj hstep]
      have hsent : ({ σ with stream := none, past := σ.delivered } :
          RelaySession H).sentEvents = σ.delivered := by
        rw [sentEvents]
        exact List.append_nil _
      refine ⟨h.frames, fun x hx => ?_, ?_⟩
      · rw [hsent] at hx
        exact h.upTo x (σ.delivered_isPrefix.subset hx)
      · rw [hsent]
        exact h.lost.of_isPrefix σ.delivered_isPrefix
    · cases hstep

end KeepsAll

end RelaySession

/-! ### The result -/

/-- **A session whose reads pass over nothing loses nothing**: whatever is published, wherever
its streams are cut and whichever id it resumes on, the client of a channel that is caught up
was sent each frame its cursors do not cover, or told of the gap. -/
theorem StreamRun.resumes {H : Type} [DecidableEq H] {c : RelayCodec H} {account : Bytes}
    {conn : ConnId} {σ : RelaySession H}
    (hrun : StreamRun c RelaySession.Resumes account conn σ) :
    NothingLost σ.account σ.stored σ.delivered := by
  have hkeeps : σ.KeepsAll := by
    induction hrun with
    | init => exact .init account conn
    | step a _ hmeets hstep ih => exact ih.perform c hmeets hstep
  exact hkeeps.lost.of_isPrefix σ.delivered_isPrefix

namespace Relay.Sample

/-- One op of device `7`, numbered `n`, for a stream of the account `1`. -/
def batch (streamId : Bytes) (n : ℕ) : Publish where
  key := ([1], streamId)
  batch := ⟨[[7, n]], 0, one_op_lt n, short_op_lt n⟩
  nowMs := 1000
  caps := ⟨3, 60⟩

def fromNothing (streamId : Bytes) : Subscribed := ⟨streamId, ⟨fun _ => none, by simp⟩⟩

/-- One channel: a stream that is read to its end and cut, a second batch, and a stream that
resumes on the first one's id. -/
def resumed : List StreamAct :=
  [.append 9 (batch [2] 1), .subscribe [fromNothing [2]], .openStream false, .read,
    .send, .send, .send, .receive, .receive, .receive, .cut, .append 9 (batch [2] 2),
    .openStream true, .read, .send, .send, .send, .send, .receive, .receive, .receive, .receive]

/-- Two channels, the second with the older batch: the stream is cut after the first one's
frame, and the next resumes on that frame's id. -/
def cutBetween : List StreamAct :=
  [.append 9 (batch [3] 1), .append 9 (batch [2] 1),
    .subscribe [fromNothing [2], fromNothing [3]], .openStream false, .read, .send, .receive,
    .cut, .openStream true, .read, .send, .receive, .read, .send, .receive]

end Relay.Sample

open Relay.Sample in
/-- The second stream brings a gap over the first batch, which was deleted, and the second. -/
theorem StreamRun.resumes_resumed :
    ∃ σ, performAll codec RelaySession.Resumes (RelaySession.init [1] 0) resumed = some σ ∧
      NothingLost σ.account σ.stored σ.delivered ∧
        σ.delivered.map (·.id) = [some 1, none, none, none, some 2, none, none] := by
  have hids : (performAll codec RelaySession.Resumes (RelaySession.init [1] 0) resumed).map
      (fun σ => σ.delivered.map (·.id)) = some [some 1, none, none, none, some 2, none, none] := by
    decide +kernel
  obtain ⟨σ, hσ, hid⟩ := Option.map_eq_some_iff.mp hids
  exact ⟨σ, hσ, StreamRun.resumes (StreamRun.of_performAll codec StreamRun.init hσ), hid⟩

open Relay.Sample in
/-- The client of the two channels is told that both are caught up, and is never sent the
older batch. -/
theorem StreamRun.not_resumes :
    ¬ ∀ (account : Bytes) (conn : ConnId) (σ : RelaySession Bytes),
      StreamRun codec (fun _ _ => True) account conn σ →
        NothingLost σ.account σ.stored σ.delivered := by
  intro h
  let cs := (fromNothing [3]).cursors
  have hends : (performAll codec (fun _ _ => True) (RelaySession.init [1] 0) cutBetween).map
      (fun σ => (σ.account, σ.stored, σ.delivered)) =
    some ([1], [(batch [3] 1).row codec 1, (batch [2] 1).row codec 2],
      [⟨.ops [2] [2, 7, 1], some 2, .replay (fromNothing [2]).cursors 2⟩,
        ⟨.caughtUp [2], none, .replay (fromNothing [2]).cursors 2⟩,
        ⟨.caughtUp [3], none, .replay cs 2⟩]) := rfl
  obtain ⟨σ, hσ, hend⟩ := Option.map_eq_some_iff.mp hends
  have hrun := h [1] 0 σ (StreamRun.of_performAll codec StreamRun.init hσ)
  obtain ⟨haccount, hend⟩ := Prod.mk.inj hend
  obtain ⟨hstored, hdelivered⟩ := Prod.mk.inj hend
  rw [haccount, hstored, hdelivered] at hrun
  -- the older batch is neither among the events before the last nor in a gap
  rcases hrun [_, _] _ [] rfl [3] cs 2 rfl rfl _ List.mem_cons_self rfl (by decide)
    (by decide) with ⟨x, hx, hops⟩ | ⟨x, hx, gaps, hgap, -⟩
  · rcases List.mem_cons.mp hx with rfl | hx
    · cases hops
    · rw [List.mem_singleton.mp hx] at hops
      cases hops
  · rcases List.mem_cons.mp hx with rfl | hx
    · cases hgap
    · rw [List.mem_singleton.mp hx] at hgap
      cases hgap

end Sunrise
