import Sunrise.Relay.Resume

/-!
# Live fan-out

After its replay a stream reads its receivers together, the first with something to read
first. A receiver more than a buffer behind is told so, once; the loop takes this for no frame,
turns its receive arm off until the ticker's next turn, and goes on with the oldest frame that
is kept. Nothing tells the client. Where the frames dropped ahead of every receiver that is
read are the session's own, which are not echoed to it anyway, no frame is handed over before
an earlier one of its channel.

## Main results

* `StreamRun.fans_out` — a session whose reads drop none has no hole in any stream.
* `StreamRun.not_fans_out` — 257 frames between two reads, and the first is passed over.
-/

namespace Sunrise

open EventStream

/-! ### What a stream has to hand over -/

/-- Number `n` of receiver `i` is among the events, with its frame. -/
def HandedOver (xs : List Posted) (i n : ℕ) (streamId frame : Bytes) : Prop :=
  ∃ x ∈ xs, x.source = .live i n ∧ x.event = .ops streamId frame

def ReportsGap (xs : List Posted) (streamId : Bytes) : Prop :=
  ∃ x ∈ xs, x.source = .notice ∧ ∃ gaps, x.event = .gap streamId gaps

/-- What a stream of the connection `conn` has handed over, in the order the client takes it,
against what each channel broadcast after the stream took its receiver. -/
structure FansOut (conn : ConnId) (hub : Bytes → List LiveFrame) (st : EventStream) :
    Prop where
  real : ∀ x ∈ st.posted, ∀ i n, x.source = .live i n → ∃ r f, st.receivers[i]? = some r ∧
    r.takenAt ≤ n ∧ (hub r.streamId)[n]? = some f ∧ x.event = .ops r.streamId f.frame.bytes
  inOrder : st.posted.Pairwise fun x y =>
    ∀ i m n, x.source = .live i m → y.source = .live i n → m < n
  /-- Before a frame is handed over, each earlier one of another connection was, or a gap of
  the channel was reported. -/
  noHole : ∀ before x rest, st.posted = before ++ x :: rest → ∀ i n, x.source = .live i n →
    ∀ r, st.receivers[i]? = some r → ∀ m f, r.takenAt ≤ m → m < n →
      (hub r.streamId)[m]? = some f → f.conn ≠ conn →
        HandedOver before i m r.streamId f.frame.bytes ∨ ReportsGap before r.streamId
  /-- Where no receiver has anything to read, every frame was handed over. -/
  all : (st.receivers.findIdx? fun r => Broadcast.ready (hub r.streamId) r.next) = none →
    ∀ i r, st.receivers[i]? = some r → ∀ m f, r.takenAt ≤ m → (hub r.streamId)[m]? = some f →
      f.conn ≠ conn →
        HandedOver st.posted i m r.streamId f.frame.bytes ∨ ReportsGap st.posted r.streamId

/-! ### Reads that drop none -/

namespace RelaySession
variable {H : Type}

/-- The receiver that is read next, of the stream's. -/
def nextRecv (σ : RelaySession H) : Option LiveReceiver :=
  σ.stream.bind fun st =>
    (recvFirst σ.hub σ.account st.receivers).bind fun i => st.receivers[i]?

/-- The condition on an action: of the frames the buffer dropped ahead of the receiver that is
read, none is another connection's. -/
def DropsNone (σ : RelaySession H) : StreamAct → Prop
  | .recv => ∀ r ∈ σ.nextRecv, ∀ f ∈ ((σ.hub (σ.account, r.streamId)).take
      ((σ.hub (σ.account, r.streamId)).length - channelCapacity)).drop r.next, f.conn = σ.conn
  | _ => True

instance (σ : RelaySession H) (a : StreamAct) : Decidable (σ.DropsNone a) :=
  match a with
  | .recv => inferInstanceAs (Decidable (∀ r ∈ σ.nextRecv, ∀ f ∈
      ((σ.hub (σ.account, r.streamId)).take ((σ.hub (σ.account, r.streamId)).length -
        channelCapacity)).drop r.next, f.conn = σ.conn))
  | .append _ _ | .fanOut _ | .subscribe _ | .openStream _ | .read | .send | .receive | .tick
  | .close _ | .cut => inferInstanceAs (Decidable True)

end RelaySession

/-! ### The invariant of a stream -/

/-- Each receiver has heard what it passed, and what was posted of it is what it heard. -/
structure Heard (conn : ConnId) (hub : Bytes → List LiveFrame) (st : EventStream) : Prop where
  hears : ∀ i r, st.receivers[i]? = some r →
    Broadcast.Hears (fun f => decide (f.conn ≠ conn)) (hub r.streamId) r.takenAt r.next
      fun n => ∃ x ∈ st.posted, x.source = .live i n
  real : ∀ x ∈ st.posted, ∀ i n, x.source = .live i n → ∃ r f, st.receivers[i]? = some r ∧
    r.takenAt ≤ n ∧ n < r.next ∧ (hub r.streamId)[n]? = some f ∧
      x.event = .ops r.streamId f.frame.bytes
  inOrder : st.posted.Pairwise fun x y =>
    ∀ i m n, x.source = .live i m → y.source = .live i n → m < n

namespace Heard
variable {conn : ConnId} {hub : Bytes → List LiveFrame} {st : EventStream}

theorem start (after : ℕ) (streams : List Subscribed) :
    Heard conn hub (start after streams) where
  hears := by
    intro i r hr
    cases hr
  real := by
    intro x hx
    cases hx
  inOrder := List.Pairwise.nil

section

variable (h : Heard conn hub st)
include h

theorem handedOver {xs : List Posted} (hsub : xs ⊆ st.posted)
    {i n : ℕ} {r : LiveReceiver} {f : LiveFrame} (hr : st.receivers[i]? = some r)
    (hf : (hub r.streamId)[n]? = some f) (hx : ∃ x ∈ xs, x.source = .live i n) :
    HandedOver xs i n r.streamId f.frame.bytes := by
  obtain ⟨x, hx, hsource⟩ := hx
  obtain ⟨r', f', hr', -, -, hf', hevent⟩ := h.real x (hsub hx) i n hsource
  rw [hr] at hr'
  cases hr'
  rw [hf] at hf'
  cases hf'
  exact ⟨x, hx, hsource, hevent⟩

/-- **What the invariant says of the stream.** -/
theorem fansOut : FansOut conn hub st where
  real := by
    intro x hx i n hsource
    obtain ⟨r, f, hr, hn, -, hf, hevent⟩ := h.real x hx i n hsource
    exact ⟨r, f, hr, hn, hf, hevent⟩
  inOrder := h.inOrder
  noHole := by
    intro before x rest hsplit i n hsource r hr m f hm hmn hf hconn
    left
    have hxmem : x ∈ st.posted := by
      rw [hsplit]
      exact List.mem_append_right _ List.mem_cons_self
    obtain ⟨r', -, hr', -, hnext, -, -⟩ := h.real x hxmem i n hsource
    rw [hr] at hr'
    cases hr'
    obtain ⟨y, hy, hysource⟩ := (h.hears i r hr).heard_of m f hm (lt_trans hmn hnext) hf
      (by simpa using hconn)
    have hsub : before ⊆ st.posted := by
      rw [hsplit]
      exact List.subset_append_left _ _
    refine h.handedOver hsub hr hf ⟨y, ?_, hysource⟩
    -- a lower number stands earlier
    have horder := h.inOrder
    rw [hsplit] at hy horder
    obtain ⟨-, hafter, -⟩ := List.pairwise_append.mp horder
    rcases List.mem_append.mp hy with hy | hy
    · exact hy
    exfalso
    rcases List.mem_cons.mp hy with rfl | hy
    · rw [hsource] at hysource
      cases hysource
      exact lt_irrefl _ hmn
    · have hlt := (List.pairwise_cons.mp hafter).1 y hy i n m hsource hysource
      omega
  all := by
    intro hnone i r hr m f hm hf hconn
    left
    have hready : Broadcast.ready (hub r.streamId) r.next = false := by
      have hmem : r ∈ st.receivers := List.mem_of_getElem? hr
      simpa using List.findIdx?_eq_none_iff.mp hnone r hmem
    have hheard := (h.hears i r hr).of_not_ready hready hm hf (by simpa using hconn)
    exact h.handedOver (List.Subset.refl _) hr hf hheard

theorem broadcast {hub' : Bytes → List LiveFrame}
    (hhub : ∀ sid, hub' sid = hub sid ∨ ∃ f, hub' sid = hub sid ++ [f]) :
    Heard conn hub' st where
  hears := by
    intro i r hr
    rcases hhub r.streamId with heq | ⟨f, heq⟩
    · rw [heq]
      exact h.hears i r hr
    · rw [heq]
      exact (h.hears i r hr).send f
  real := by
    intro x hx i n hsource
    obtain ⟨r, f, hr, hn, hnext, hf, hevent⟩ := h.real x hx i n hsource
    refine ⟨r, f, hr, hn, hnext, ?_, hevent⟩
    rcases hhub r.streamId with heq | ⟨g, heq⟩
    · rw [heq]
      exact hf
    · rw [heq, List.getElem?_append_left (List.getElem?_eq_some_iff.mp hf).1]
      exact hf
  inOrder := h.inOrder

theorem of_eq {st' : EventStream}
    (hreceivers : st'.receivers = st.receivers) (hposted : st'.posted = st.posted) :
    Heard conn hub st' where
  hears := by
    rw [hreceivers, hposted]
    exact h.hears
  real := by
    rw [hreceivers, hposted]
    exact h.real
  inOrder := by
    rw [hposted]
    exact h.inOrder

theorem post {st' : EventStream} {taken : List LiveReceiver}
    {ys : List Posted} (hreceivers : st'.receivers = st.receivers ++ taken)
    (hposted : st'.posted = st.posted ++ ys)
    (htaken : ∀ r ∈ taken, r.takenAt = (hub r.streamId).length ∧ r.next = r.takenAt)
    (hys : ∀ y ∈ ys, ∀ i n, y.source ≠ .live i n) : Heard conn hub st' where
  hears := by
    intro i r hr
    rw [hreceivers] at hr
    rw [hposted]
    by_cases hi : i < st.receivers.length
    · rw [List.getElem?_append_left hi] at hr
      apply (h.hears i r hr).mono
      rintro n ⟨x, hx, hsource⟩
      exact ⟨x, List.mem_append_left _ hx, hsource⟩
    · rw [List.getElem?_append_right (Nat.not_lt.mp hi)] at hr
      obtain ⟨htakenAt, hnext⟩ := htaken r (List.mem_of_getElem? hr)
      rw [hnext, htakenAt]
      exact Broadcast.Hears.taken
  real := by
    intro x hx i n hsource
    rw [hposted] at hx
    rcases List.mem_append.mp hx with hx | hx
    · obtain ⟨r, f, hr, hrest⟩ := h.real x hx i n hsource
      refine ⟨r, f, ?_, hrest⟩
      rw [hreceivers, List.getElem?_append_left (List.getElem?_eq_some_iff.mp hr).1]
      exact hr
    · exact absurd hsource (hys x hx i n)
  inOrder := by
    rw [hposted, List.pairwise_append]
    refine ⟨h.inOrder, ?_, ?_⟩
    · refine List.Pairwise.imp_of_mem ?_ (List.pairwise_of_forall (fun _ _ => trivial))
      intro x y hx _ _ i m n hsource
      exact absurd hsource (hys x hx i m)
    · intro x _ y hy i m n _ hsource
      exact absurd hsource (hys y hy i n)

/-- Receiver `i` goes on to `next`, and what is posted with it is its own next frame or
nothing. -/
theorem advance {i : ℕ} {r : LiveReceiver}
    (hr : st.receivers[i]? = some r) {st' : EventStream} {next : ℕ} {ys : List Posted}
    (hreceivers : st'.receivers = st.receivers.set i { r with next := next })
    (hposted : st'.posted = st.posted ++ ys) (hnext : r.next ≤ next)
    (hys : ∀ y ∈ ys, ∃ f, (hub r.streamId)[r.next]? = some f ∧ r.next < next ∧
      y.source = .live i r.next ∧ y.event = .ops r.streamId f.frame.bytes)
    (hone : ys.length ≤ 1)
    (hhears : Broadcast.Hears (fun f => decide (f.conn ≠ conn)) (hub r.streamId) r.takenAt next
      fun n => ∃ x ∈ st'.posted, x.source = .live i n) : Heard conn hub st' where
  hears := by
    intro j r' hr'
    rw [hreceivers] at hr'
    by_cases hij : i = j
    · subst hij
      rw [List.getElem?_set_self (List.getElem?_eq_some_iff.mp hr).1] at hr'
      cases hr'
      exact hhears
    · rw [List.getElem?_set_ne hij] at hr'
      apply (h.hears j r' hr').mono
      rintro n ⟨x, hx, hsource⟩
      rw [hposted]
      exact ⟨x, List.mem_append_left _ hx, hsource⟩
  real := by
    have hself : st'.receivers[i]? = some { r with next := next } := by
      rw [hreceivers, List.getElem?_set_self (List.getElem?_eq_some_iff.mp hr).1]
    intro x hx j n hsource
    rw [hposted] at hx
    rcases List.mem_append.mp hx with hx | hx
    · obtain ⟨r', f, hr', hn, hlt, hf, hevent⟩ := h.real x hx j n hsource
      by_cases hij : i = j
      · subst hij
        rw [hr] at hr'
        cases hr'
        exact ⟨_, f, hself, hn, lt_of_lt_of_le hlt hnext, hf, hevent⟩
      · refine ⟨r', f, ?_, hn, hlt, hf, hevent⟩
        rw [hreceivers, List.getElem?_set_ne hij]
        exact hr'
    · obtain ⟨f, hf, hlt, hlive, hevent⟩ := hys x hx
      rw [hlive] at hsource
      cases hsource
      exact ⟨_, f, hself, (h.hears i r hr).start_le, hlt, hf, hevent⟩
  inOrder := by
    rw [hposted, List.pairwise_append]
    refine ⟨h.inOrder, ?_, ?_⟩
    · match ys, hone with
      | [], _ => exact List.Pairwise.nil
      | [y], _ => exact List.pairwise_singleton _ y
    · intro x hx y hy j m n hxsource hysource
      obtain ⟨f, -, -, hlive, -⟩ := hys y hy
      rw [hlive] at hysource
      cases hysource
      obtain ⟨r', f', hr', -, hlt, -⟩ := h.real x hx i m hxsource
      rw [hr] at hr'
      cases hr'
      exact hlt

theorem recv {i : ℕ} {r : LiveReceiver}
    (hr : st.receivers[i]? = some r)
    (hready : Broadcast.ready (hub r.streamId) r.next = true)
    (hdrop : ∀ f ∈ ((hub r.streamId).take ((hub r.streamId).length - channelCapacity)).drop
      r.next, f.conn = conn) :
    Heard conn hub (st.hand conn i r
      (Broadcast.recv channelCapacity (hub r.streamId) r.next)) := by
  rcases @Broadcast.recv_of_ready _ channelCapacity _ _ hready with
    ⟨f, hf, -, hrecv⟩ | ⟨hlag, hrecv⟩
  · rw [hrecv]
    refine h.advance hr rfl rfl (Nat.le_succ _) ?_ ?_ ?_
    · intro y hy
      split at hy
      · cases hy
      · rw [List.mem_singleton.mp hy]
        exact ⟨f, hf, Nat.lt_succ_self _, rfl, rfl⟩
    · split
      · exact Nat.zero_le _
      · exact le_rfl
    · -- the frame is posted, unless it is the session's own
      refine ((h.hears i r hr).mono ?_).value hf ?_
      · rintro n ⟨x, hx, hsource⟩
        exact ⟨x, List.mem_append_left _ hx, hsource⟩
      · intro hkeep
        have hconn : f.conn ≠ conn := of_decide_eq_true hkeep
        refine ⟨⟨.ops r.streamId f.frame.bytes, none, .live i r.next⟩,
          List.mem_append_right _ ?_, rfl⟩
        rw [if_neg hconn]
        exact List.mem_singleton.mpr rfl
  · rw [hrecv]
    refine @Heard.advance _ _ _ h _ _ hr _ _ [] rfl (List.append_nil _).symm ?_ ?_ ?_ ?_
    · omega
    · intro y hy
      cases hy
    · exact Nat.zero_le _
    · -- what the buffer dropped is the session's own
      refine (h.hears i r hr).lagged hlag ?_
      intro n f hn hlt hf
      have hmem : f ∈ ((hub r.streamId).take
          ((hub r.streamId).length - channelCapacity)).drop r.next := by
        apply List.mem_of_getElem? (i := n - r.next)
        rw [List.getElem?_drop, Nat.add_sub_cancel' hn, List.getElem?_take_of_lt hlt]
        exact hf
      rw [hdrop f hmem]
      simp

end

end Heard

/-! ### Runs -/

namespace RelaySession
variable {H : Type}

/-- The open stream has heard what it passed. -/
def HearsAll (σ : RelaySession H) : Prop :=
  ∀ st, σ.stream = some st → Heard σ.conn (fun sid => σ.hub (σ.account, sid)) st

namespace HearsAll
variable {σ σ' : RelaySession H}

theorem of_eq (h : HearsAll σ) (hconn : σ'.conn = σ.conn) (haccount : σ'.account = σ.account)
    (hhub : σ'.hub = σ.hub) (hstream : σ'.stream = σ.stream) : HearsAll σ' := by
  intro st hst
  rw [hconn, haccount, hhub]
  rw [hstream] at hst
  exact h st hst

theorem turn {st' : EventStream}
    (h : Heard σ.conn (fun sid => σ.hub (σ.account, sid)) st') :
    HearsAll { σ with stream := some st' } := by
  intro st hst
  cases hst
  exact h

theorem recv (h : HearsAll σ) {st st' : EventStream} (hst : σ.stream = some st)
    (hrecv : st.recv σ.hub σ.account σ.conn = some st') (hmeets : σ.DropsNone .recv) :
    HearsAll { σ with stream := some st' } := by
  rw [EventStream.recv] at hrecv
  split at hrecv
  · obtain ⟨i, hi, hrest⟩ := Option.bind_eq_some_iff.mp hrecv
    obtain ⟨r, hr, rfl⟩ := Option.map_eq_some_iff.mp hrest
    obtain ⟨hlt, hready, -⟩ := List.findIdx?_eq_some_iff_getElem.mp hi
    rw [(List.getElem?_eq_some_iff.mp hr).2] at hready
    apply turn
    refine (h st hst).recv hr hready ?_
    apply hmeets r
    rw [nextRecv, hst, Option.bind_some, hi, Option.bind_some]
    exact hr
  · cases hrecv

/-- **What an action does** where a read drops none: every receiver has heard what it passed. -/
theorem perform [DecidableEq H] (c : RelayCodec H) (h : HearsAll σ) {a : StreamAct}
    (hmeets : σ.DropsNone a) (hstep : σ.perform c a = some σ') : HearsAll σ' := by
  cases a with
  | append conn p =>
    rw [← Option.some.inj hstep]
    unfold RelaySession.append
    split
    · exact h.of_eq rfl rfl rfl rfl
    · exact h
  | fanOut k =>
    obtain ⟨x, -, rfl⟩ := Option.map_eq_some_iff.mp hstep
    intro st hst
    apply (h st hst).broadcast
    intro sid
    by_cases hkey : (σ.account, sid) = x.1
    · right
      exact ⟨x.2, by rw [hkey]; exact Function.update_self _ _ _⟩
    · left
      exact Function.update_of_ne hkey _ _
  | subscribe streams =>
    rw [← Option.some.inj hstep]
    exact h.of_eq rfl rfl rfl rfl
  | openStream resume =>
    obtain ⟨-, after, rfl⟩ := openStream_eq_some hstep
    intro st hst
    cases hst
    exact Heard.start after σ.streams
  | read =>
    obtain ⟨st, st', hst, hread, rfl⟩ := turn_eq_some.mp hstep
    rw [EventStream.read] at hread
    split at hread
    · cases hread
    · split at hread
      · rw [← Option.some.inj hread]
        apply turn
        refine (h st hst).post rfl rfl ?_ ?_
        · intro r hr
          rw [List.mem_singleton.mp hr]
          exact ⟨rfl, rfl⟩
        · intro y hy i n
          obtain ⟨x, -, rfl⟩ := List.mem_map.mp hy
          intro hlive
          cases hlive
      · cases hread
  | send =>
    obtain ⟨st, st', hst, hsend, rfl⟩ := turn_eq_some.mp hstep
    rw [send] at hsend
    split at hsend
    · rw [← Option.some.inj hsend]
      exact turn ((h st hst).of_eq rfl rfl)
    · cases hsend
  | receive =>
    obtain ⟨st, st', hst, hreceive, rfl⟩ := turn_eq_some.mp hstep
    rw [receive] at hreceive
    split at hreceive
    · rw [← Option.some.inj hreceive]
      exact turn ((h st hst).of_eq rfl rfl)
    · cases hreceive
  | recv =>
    obtain ⟨st, st', hst, hrecv, rfl⟩ := turn_eq_some.mp hstep
    exact h.recv hst hrecv hmeets
  | tick =>
    obtain ⟨st, st', hst, htick, rfl⟩ := turn_eq_some.mp hstep
    rw [tick] at htick
    split at htick
    · rw [← Option.some.inj htick]
      exact turn ((h st hst).of_eq rfl rfl)
    · cases htick
  | close why =>
    obtain ⟨st, st', hst, hclose, rfl⟩ := turn_eq_some.mp hstep
    rw [close] at hclose
    split at hclose
    · rw [← Option.some.inj hclose]
      apply turn
      refine (h st hst).post (List.append_nil _).symm rfl ?_ ?_
      · intro r hr
        cases hr
      · intro y hy i n
        rw [List.mem_singleton.mp hy]
        intro hlive
        cases hlive
    · cases hclose
  | cut =>
    rw [RelaySession.perform] at hstep
    split at hstep
    · rw [← Option.some.inj hstep]
      intro st hst
      cases hst
    · cases hstep

end HearsAll

end RelaySession

/-! ### The result -/

/-- **No hole in any stream of a session whose reads drop none**: in every state of every run,
whatever is published and however slow the client, the open stream has handed over the frames
of other connections in the order they were broadcast, and none before an earlier one. -/
theorem StreamRun.fans_out {H : Type} [DecidableEq H] {c : RelayCodec H} {account : Bytes}
    {conn : ConnId} {σ : RelaySession H}
    (hrun : StreamRun c RelaySession.DropsNone account conn σ) {st : EventStream}
    (hst : σ.stream = some st) : FansOut σ.conn (fun sid => σ.hub (σ.account, sid)) st := by
  have hears : σ.HearsAll := by
    clear hst
    induction hrun with
    | init =>
      intro st hst
      cases hst
    | step a _ hmeets hstep ih => exact ih.perform c hmeets hstep
  exact (hears st hst).fansOut

namespace Relay.Sample

def caughtUp : List StreamAct := [.subscribe [fromNothing [2]], .openStream false, .read, .send]

/-- Another connection's batch, stored and broadcast. -/
def published (n : ℕ) : List StreamAct := [.append 9 (batch [2] n), .fanOut 0]

/-- As many batches as the buffer holds and one more, the two receives after them, and the
ticker's turn between. -/
def burst : List StreamAct :=
  caughtUp ++ (List.range 257).flatMap published ++ [.recv, .tick, .recv]

end Relay.Sample

open Relay.Sample in
/-- The stream that is caught up is handed another connection's batch as it is broadcast. -/
theorem StreamRun.fans_out_published :
    ∃ σ, performAll codec RelaySession.DropsNone (RelaySession.init [1] 0)
        (caughtUp ++ published 1 ++ [.recv]) = some σ ∧
      ∃ st, σ.stream = some st ∧ FansOut σ.conn (fun sid => σ.hub (σ.account, sid)) st ∧
        st.posted.map (·.event) = [.caughtUp [2], .ops [2] [2, 7, 1]] := by
  have hevents : (performAll codec RelaySession.DropsNone (RelaySession.init [1] 0)
      (caughtUp ++ published 1 ++ [.recv])).bind (fun σ => σ.stream.map fun st =>
        st.posted.map (·.event)) = some [.caughtUp [2], .ops [2] [2, 7, 1]] := by
    decide +kernel
  obtain ⟨σ, hσ, hst⟩ := Option.bind_eq_some_iff.mp hevents
  obtain ⟨st, hst, hposted⟩ := Option.map_eq_some_iff.mp hst
  exact ⟨σ, hσ, st, hst,
    StreamRun.fans_out (StreamRun.of_performAll codec StreamRun.init hσ) hst, hposted⟩

/-- Number 0 of the channel is another connection's, and number 1 is handed over first. -/
def Skips (σ : RelaySession Bytes) (st : EventStream) : Prop :=
  σ.conn = 0 ∧ ((σ.hub (σ.account, [2]))[0]?).map (·.conn) = some 9 ∧
    (st.receivers.map fun r => (r.streamId, r.takenAt)) = [([2], 0)] ∧
    (st.posted.map (·.event)) = [.caughtUp [2], .ops [2] [2, 7, 1]] ∧
    (st.posted.map fun x => match x.source with
      | .live i n => some (i, n)
      | _ => none) = [none, some (0, 1)]

instance (σ : RelaySession Bytes) (st : EventStream) : Decidable (Skips σ st) :=
  inferInstanceAs (Decidable (_ ∧ _))

open Relay.Sample in
/-- A stream that is 257 batches behind goes on with the second, and says nothing of the first. -/
theorem StreamRun.not_fans_out :
    ¬ ∀ (account : Bytes) (conn : ConnId) (σ : RelaySession Bytes),
      StreamRun codec (fun _ _ => True) account conn σ → ∀ st, σ.stream = some st →
        FansOut σ.conn (fun sid => σ.hub (σ.account, sid)) st := by
  intro h
  have hends : ((performAll codec (fun _ _ => True) (RelaySession.init [1] 0) burst).bind
      fun σ => σ.stream.bind fun st => if Skips σ st then some () else none) = some () := by
    decide +kernel
  obtain ⟨σ, hσ, hends⟩ := Option.bind_eq_some_iff.mp hends
  obtain ⟨st, hst, hends⟩ := Option.bind_eq_some_iff.mp hends
  obtain ⟨hconn, hhub, hreceivers, hevents, hsources⟩ : Skips σ st := by
    by_contra hnot
    rw [if_neg hnot] at hends
    cases hends
  obtain ⟨f, hf, hfconn⟩ := Option.map_eq_some_iff.mp hhub
  obtain ⟨r, rs, hrs, hr, -⟩ := List.map_eq_cons_iff.mp hreceivers
  obtain ⟨hsid, htaken⟩ := Prod.mk.inj hr
  -- two events: that the channel is caught up, and its second frame
  obtain ⟨x, xs, hposted, hx, hxs⟩ := List.map_eq_cons_iff.mp hevents
  obtain ⟨y, ys, rfl, -, hys⟩ := List.map_eq_cons_iff.mp hxs
  obtain rfl := List.map_eq_nil_iff.mp hys
  rw [hposted, List.map_cons, List.map_cons] at hsources
  obtain ⟨hxsource, hsources⟩ := List.cons.inj hsources
  have hysource : y.source = .live 0 1 := by
    obtain ⟨hysource, -⟩ := List.cons.inj hsources
    split at hysource
    next i n hlive =>
      obtain ⟨rfl, rfl⟩ := Prod.mk.inj (Option.some.inj hysource)
      exact hlive
    next => cases hysource
  have hget : st.receivers[0]? = some r := by
    rw [hrs]
    rfl
  have hfans := (h [1] 0 σ (StreamRun.of_performAll codec StreamRun.init hσ) st hst).noHole
    [x] y [] hposted 0 1 hysource r hget 0 f (by omega) (by omega) (by rw [hsid]; exact hf)
    (by rw [hfconn, hconn]; decide)
  rcases hfans with ⟨z, hz, hlive, -⟩ | ⟨z, hz, -, gaps, hgap⟩
  · rw [List.mem_singleton.mp hz] at hlive
    rw [hlive] at hxsource
    cases hxsource
  · rw [List.mem_singleton.mp hz, hx] at hgap
    cases hgap

end Sunrise
