import Mathlib.Data.Finset.Sort
import Mathlib.Data.Finset.Card
import Sunrise.Lib.Trace
import Sunrise.Stamp

/-!
# Gaps in a session

A relay that can no longer replay a stream says so, and the device catches the stream up from its
snapshot record before it reads the next frame. A record may have to wait for what another stream's
record carries, so what is waiting is tried again whenever a record was applied. A session with a
gap says that it is degraded.

What the relay and the vault answer, and the order a set is drained in, are parameters. What
happened is kept in a trace, which the code has not.

* `Session.turn`, `Session.run` — what a frame does to a session, and a run of frames.
* `run_sound_honest` — **every session is sound, and honest if no turn is blind:** no gap that names
  a stream comes after one that names none, unless a stream has failed or this one does.
* `not_honest_of_blind` — **a blind turn is not honest, when the relay has every record.**
-/

namespace Sunrise

namespace Gaps

open Trace

/-! ### The state of a session -/

/-- What a client is told about the connection. -/
inductive SyncState where
  | disconnected
  | catchingUp
  | live
  | degraded
  | stopped
deriving DecidableEq, Repr

/-- What catching one stream up from its record came to. -/
inductive Recovery where
  | applied
  | deferred (reason : String)
  | failed (reason : String)
deriving DecidableEq, Repr

/-- What catching streams up came to in one session. -/
structure GapRecovery where
  applied : Finset StreamId
  /-- The record could not be applied yet. -/
  deferred : Finset StreamId
  failed : Finset StreamId
  keyBundleTried : Bool

/-- What happens in a session. -/
inductive Event where
  | reported (stream : Option StreamId)
  | applied (stream : StreamId)
  | deferred (stream : StreamId)
  | failed (stream : StreamId)
  | moved (old new : SyncState)
deriving DecidableEq, Repr

structure Session where
  state : SyncState
  recovery : GapRecovery
  subscribed : Finset StreamId
  caughtUp : Finset StreamId
  trace : List Event

open Session

def Session.log (s : Session) (e : Event) : Session := { s with trace := s.trace ++ [e] }

def Session.setState (s : Session) (new : SyncState) : Session :=
  if s.state = new then s else { s with state := new }.log (.moved s.state new)

/-- The relay cannot supply what is missing. -/
def Session.markDegraded (s : Session) : Session := s.setState .degraded

def Session.recovering (s : Session) (r : GapRecovery) : Session := { s with recovery := r }

/-! ### The work list -/

/-- What is answered while a stream is caught up. -/
structure Answer where
  outcome : Recovery
  holdsIdentityKey : Bool
  /-- How many keys the bundle brought, if it could be absorbed. -/
  absorbed : Option ℕ

/-- What a call meets: the answers, one for each stream taken off the work list, the order each set
is drained in, and the vault's streams afterwards. -/
structure World where
  answer : ℕ → Answer
  drain : ℕ → Finset StreamId → List StreamId
  /-- The streams to subscribe to, if the vault can be read. -/
  entries : Option (Finset StreamId)
  encodes : Bool
  drain_perm : ∀ n set, (drain n set).Perm (set.sort (· ≤ ·))

theorem World.mem_drain (w : World) {n : ℕ} {set : Finset StreamId} {x : StreamId} :
    x ∈ w.drain n set ↔ x ∈ set := by
  rw [(w.drain_perm n set).mem_iff, Finset.mem_sort]

theorem World.nodup_drain (w : World) (n : ℕ) (set : Finset StreamId) : (w.drain n set).Nodup :=
  (w.drain_perm n set).nodup_iff.mpr (set.sort_nodup _)

/-- What a stream comes to. A record was applied for it already, or it has failed, or the relay is
asked. -/
def outcomeOf (w : World) (n : ℕ) (r : GapRecovery) (stream : StreamId) : Option Recovery :=
  if stream ∈ r.applied then some (.failed "below_snapshot")
  else if stream ∈ r.failed then none
  else some (w.answer n).outcome

/-- Whether the account's key bundle may have what a record needs. -/
def wantsKeyBundle (w : World) (n : ℕ) (r : GapRecovery) (reason : String) : Bool :=
  (reason = "no_key" || reason = "pending") && !r.keyBundleTried && (w.answer n).holdsIdentityKey

/-- One stream off the work list: the session after it, and what goes on the list. -/
def recoverOne (w : World) (n : ℕ) (stream : StreamId) (s : Session) :
    Session × List StreamId :=
  let r := s.recovery
  match outcomeOf w n r stream with
  | none => (s.markDegraded, [])
  | some .applied =>
    -- what the record carried may be what a deferred stream was waiting for
    ((s.recovering { r with applied := insert stream r.applied, deferred := ∅ }).log
      (.applied stream), w.drain n (r.deferred.erase stream))
  | some (.deferred reason) =>
    let r := { r with deferred := insert stream r.deferred }
    let s := ((s.recovering r).log (.deferred stream)).markDegraded
    if wantsKeyBundle w n r reason then
      if (w.answer n).absorbed.any (0 < ·) then
        (s.recovering { r with deferred := ∅, keyBundleTried := true }, w.drain n r.deferred)
      else (s.recovering { r with keyBundleTried := true }, [])
    else (s, [])
  | some (.failed _) =>
    (((s.recovering { r with failed := insert stream r.failed }).log
      (.failed stream)).markDegraded, [])

/-! ### The loop -/

def unapplied (gaps : List StreamId) (r : GapRecovery) : Finset StreamId :=
  (gaps.toFinset ∪ r.deferred) \ r.applied

@[simp] theorem recovery_log (s : Session) (e : Event) : (s.log e).recovery = s.recovery := rfl

@[simp] theorem recovery_setState (s : Session) (new : SyncState) :
    (s.setState new).recovery = s.recovery := by
  unfold setState
  split <;> rfl

@[simp] theorem recovery_markDegraded (s : Session) : s.markDegraded.recovery = s.recovery :=
  recovery_setState s .degraded

@[simp] theorem state_markDegraded (s : Session) : s.markDegraded.state = .degraded := by
  unfold markDegraded setState
  split
  next h => exact h
  next => rfl

theorem markDegraded_recovering (s : Session) (r : GapRecovery) :
    s.markDegraded.recovering r = (s.recovering r).markDegraded := by
  unfold markDegraded setState
  by_cases h : s.state = .degraded
  · rw [if_pos h, if_pos (show (s.recovering r).state = .degraded from h)]
  · rw [if_neg h, if_neg (show (s.recovering r).state ≠ .degraded from h)]
    rfl

inductive Recovers (stream : StreamId) (s : Session) : Session → List StreamId → Prop where
  | skipped (hfailed : stream ∈ s.recovery.failed) : Recovers stream s s.markDegraded []
  | applied {more : List StreamId} (hnew : stream ∉ s.recovery.applied)
      (hmem : ∀ x, x ∈ more ↔ x ∈ s.recovery.deferred.erase stream) (hmore : more.Nodup) :
      Recovers stream s ((s.recovering { s.recovery with
        applied := insert stream s.recovery.applied, deferred := ∅ }).log (.applied stream)) more
  | deferred (tried : Bool) (hnew : stream ∉ s.recovery.applied)
      (htried : s.recovery.keyBundleTried = true → tried = true) :
      Recovers stream s ((s.recovering { s.recovery with
        deferred := insert stream s.recovery.deferred
        keyBundleTried := tried }).log (.deferred stream)).markDegraded []
  /-- The bundle brought keys, and every stream that waits is tried again. -/
  | absorbed {more : List StreamId} (hnew : stream ∉ s.recovery.applied)
      (htried : s.recovery.keyBundleTried = false)
      (hmem : ∀ x, x ∈ more ↔ x ∈ insert stream s.recovery.deferred) (hmore : more.Nodup) :
      Recovers stream s ((s.recovering { s.recovery with
        deferred := ∅, keyBundleTried := true }).log (.deferred stream)).markDegraded more
  | failed : Recovers stream s ((s.recovering { s.recovery with
      failed := insert stream s.recovery.failed }).log (.failed stream)).markDegraded []

theorem notMem_applied_of_outcomeOf {w : World} {n : ℕ} {r : GapRecovery} {stream : StreamId}
    {outcome : Recovery} (hout : outcomeOf w n r stream = some outcome)
    (hfailed : ∀ reason, outcome ≠ .failed reason) : stream ∉ r.applied := by
  intro h
  rw [outcomeOf, if_pos h] at hout
  exact hfailed _ (Option.some.inj hout).symm

theorem recovers_recoverOne (w : World) (n : ℕ) (stream : StreamId) (s : Session) :
    Recovers stream s (recoverOne w n stream s).1 (recoverOne w n stream s).2 := by
  cases hout : outcomeOf w n s.recovery stream with
  | none =>
    have hfailed : stream ∈ s.recovery.failed := by
      unfold outcomeOf at hout
      split_ifs at hout with _ h
      exact h
    rw [recoverOne, hout]
    exact .skipped hfailed
  | some outcome =>
    cases outcome with
    | applied =>
      have hnew := notMem_applied_of_outcomeOf hout nofun
      rw [recoverOne, hout]
      exact .applied hnew (fun x => w.mem_drain) (w.nodup_drain ..)
    | deferred reason =>
      have hnew := notMem_applied_of_outcomeOf hout nofun
      rw [recoverOne, hout]
      dsimp only
      split
      next hwants =>
        have htried : s.recovery.keyBundleTried = false := by
          unfold wantsKeyBundle at hwants
          simp only [Bool.and_eq_true, Bool.not_eq_true'] at hwants
          exact hwants.1.2
        split
        · rw [markDegraded_recovering]
          exact .absorbed hnew htried (fun x => w.mem_drain) (w.nodup_drain ..)
        · rw [markDegraded_recovering]
          exact .deferred true hnew fun _ => rfl
      next => exact .deferred s.recovery.keyBundleTried hnew id
    | failed reason =>
      rw [recoverOne, hout]
      exact .failed

theorem mem_unapplied {gaps : List StreamId} {r : GapRecovery} {x : StreamId} :
    x ∈ unapplied gaps r ↔ (x ∈ gaps ∨ x ∈ r.deferred) ∧ x ∉ r.applied := by
  rw [unapplied, Finset.mem_sdiff, Finset.mem_union, List.mem_toFinset]

theorem Recovers.unapplied_subset {stream : StreamId} {s s' : Session} {more : List StreamId}
    (h : Recovers stream s s' more) (gaps : List StreamId) :
    unapplied (more ++ gaps) s'.recovery ⊆ unapplied (stream :: gaps) s.recovery := by
  intro x hx
  rw [mem_unapplied, List.mem_append] at hx
  rw [mem_unapplied, List.mem_cons]
  cases h with
  | skipped hfailed => grind [recovery_markDegraded]
  | applied hnew hmem hmore =>
    simp only [recovery_log, recovering, Finset.mem_insert, hmem, Finset.mem_erase,
      Finset.notMem_empty] at hx
    tauto
  | deferred tried hnew htried =>
    simp only [recovery_markDegraded, recovery_log, recovering, Finset.mem_insert,
      List.not_mem_nil] at hx
    tauto
  | absorbed hnew htried hmem hmore =>
    simp only [recovery_markDegraded, recovery_log, recovering, hmem, Finset.mem_insert,
      Finset.notMem_empty] at hx
    tauto
  | failed =>
    simp only [recovery_markDegraded, recovery_log, recovering, List.not_mem_nil] at hx
    tauto

/-- No stream is recovered without end: a record is applied, the bundle is fetched, or the list is
shorter. -/
theorem Recovers.decreases {stream : StreamId} {s s' : Session} {gaps more : List StreamId}
    (h : Recovers stream s s' more) :
    Prod.Lex (· < ·) (Prod.Lex (· < ·) (· < ·))
      ((unapplied (more ++ gaps) s'.recovery).card, (!s'.recovery.keyBundleTried).toNat,
        (more ++ gaps).length)
      ((unapplied (stream :: gaps) s.recovery).card, (!s.recovery.keyBundleTried).toNat,
        (stream :: gaps).length) := by
  have hsub := h.unapplied_subset gaps
  rcases (Finset.card_le_card hsub).lt_or_eq with hlt | heq
  · exact .left _ _ hlt
  · rw [heq]
    refine .right _ ?_
    cases h with
    | skipped hfailed => exact recovery_markDegraded s ▸ .right _ (Nat.lt_succ_self _)
    | applied hnew hmem hmore =>
      -- the stream was not applied before, and is now
      have hmem := Finset.eq_of_subset_of_card_le hsub heq.ge ▸
        mem_unapplied.mpr ⟨.inl List.mem_cons_self, hnew⟩
      exact absurd (Finset.mem_insert_self stream _) (mem_unapplied.mp hmem).2
    | deferred tried hnew htried =>
      simp only [recovery_markDegraded, recovery_log, recovering]
      cases htried' : s.recovery.keyBundleTried with
      | true => rw [htried htried']; exact .right _ (Nat.lt_succ_self _)
      | false =>
        cases tried with
        | true => exact .left _ _ Nat.one_pos
        | false => exact .right _ (Nat.lt_succ_self _)
    | absorbed hnew htried hmem hmore =>
      simp only [recovery_markDegraded, recovery_log, recovering, htried]
      exact .left _ _ Nat.one_pos
    | failed =>
      simp only [recovery_markDegraded, recovery_log, recovering]
      exact .right _ (Nat.lt_succ_self _)

/-- Streams caught up one after another, until none is left: the session, and whether a record was
applied. The end of the list of the source is the head of this one. -/
def recoverLoop (w : World) (n : ℕ) (gaps : List StreamId) (s : Session) (resubscribe : Bool) :
    Session × Bool :=
  match gaps with
  | [] => (s, resubscribe)
  | stream :: gaps =>
    recoverLoop w (n + 1) ((recoverOne w n stream s).2 ++ gaps) (recoverOne w n stream s).1
      (resubscribe || outcomeOf w n s.recovery stream == some .applied)
termination_by ((unapplied gaps s.recovery).card, (!s.recovery.keyBundleTried).toNat, gaps.length)
decreasing_by exact (recovers_recoverOne w n stream s).decreases

/-- Every gapped stream of the session has been recovered. -/
def Session.reopen (s : Session) : Session :=
  if s.recovery.failed = ∅ ∧ s.recovery.deferred = ∅ ∧ s.state = .degraded then
    s.setState .catchingUp
  else s

/-- Every stream, with the cursors the records raised. -/
def Session.resubscribe (w : World) (s : Session) : Session :=
  let s := { s with subscribed := s.subscribed ∪ w.entries.getD ∅ }
  if w.encodes then s else s.markDegraded

/-- Each stream is caught up from its record, and the device subscribes again if one was. -/
def recoverGaps (w : World) (gaps : List StreamId) (s : Session) : Session :=
  let r := recoverLoop w 0 gaps s false
  if r.2 then (r.1.reopen).resubscribe w else r.1

/-! ### The session -/

/-- What a frame tells a session. -/
inductive Frame where
  /-- The relay cannot replay, and may name the stream. -/
  | cursorGap (stream : Option StreamId)
  | caughtUp (stream : StreamId)
  | opBatch (created : Finset StreamId)
  /-- Acks, pings, other errors, and frames that do not decode. -/
  | other

/-- A gap is handed on if it names its stream. -/
def onError (stream : Option StreamId) (s : Session) : Session × List StreamId :=
  match stream with
  | some stream => (s.log (.reported (some stream)), [stream])
  | none => ((s.log (.reported none)).markDegraded, [])

/-- A frame read: the session after it, and the gaps to recover. -/
def handleFrame (frame : Frame) (s : Session) : Session × List StreamId :=
  match frame with
  | .cursorGap stream => onError stream s
  | .caughtUp stream => ({ s with caughtUp := insert stream s.caughtUp }, [])
  | .opBatch created => ({ s with subscribed := s.subscribed ∪ created }, [])
  | .other => (s, [])

/-- Live, once every subscribed stream is caught up and the outbox is empty. -/
def Session.maybeLive (pending : Option ℕ) (wantsKeyBundle : Bool) (s : Session) : Session :=
  if s.state = .catchingUp ∧ pending.getD 0 = 0 ∧ s.subscribed ⊆ s.caughtUp then
    let tried := s.recovery.keyBundleTried || wantsKeyBundle
    (s.recovering { s.recovery with keyBundleTried := tried }).setState .live
  else s

/-- What a session takes in. -/
inductive Input where
  | submit (streams : Finset StreamId)
  /-- A frame, with what its recovery meets and what the vault says after it. -/
  | recv (frame : Frame) (w : World) (pending : Option ℕ) (wantsKeyBundle : Bool)

def Session.turn (s : Session) : Input → Session
  | .submit streams => { s with subscribed := s.subscribed ∪ streams }
  | .recv frame w pending wantsKeyBundle =>
    let (s, gaps) := handleFrame frame s
    let s := if gaps = [] then s else recoverGaps w gaps s
    s.maybeLive pending wantsKeyBundle

def Session.start (subscribed : Finset StreamId) : Session where
  state := .catchingUp
  recovery := ⟨∅, ∅, ∅, false⟩
  subscribed := subscribed
  caughtUp := ∅
  trace := []

/-- A run of a session. The vault may be caught up before the first frame. -/
def Session.run (subscribed : Finset StreamId) (pending : Option ℕ) (wantsKeyBundle : Bool)
    (inputs : List Input) : Session :=
  inputs.foldl turn ((start subscribed).maybeLive pending wantsKeyBundle)

theorem Session.run_concat (subscribed : Finset StreamId) (pending : Option ℕ)
    (wantsKeyBundle : Bool) (inputs : List Input) (i : Input) :
    Session.run subscribed pending wantsKeyBundle (inputs ++ [i]) =
      (Session.run subscribed pending wantsKeyBundle inputs).turn i :=
  List.foldl_concat ..

/-! ### What a trace says -/

/-- A record is applied to a stream once, and a stream it was applied to fails only when a gap was
reported on it since. -/
def fair (t : List Event) (e : Event) : Prop :=
  (∀ x, e = .applied x → .applied x ∉ t) ∧
    ∀ x, e = .failed x → ¬ Since (.applied x) (.reported (some x)) t

/-- Every gap the relay has reported was recovered after it. -/
def AllRecovered (t : List Event) : Prop :=
  .reported none ∉ t ∧ ∀ x, ¬ Since (.reported (some x)) (.applied x) t

/-- A session stops being degraded only when every gap was recovered. -/
def honest (t : List Event) (e : Event) : Prop :=
  e = .moved .degraded .catchingUp ∨ e = .moved .degraded .live → AllRecovered t

/-- What holds of the work list, the recovery and the trace, whatever the relay answers. -/
structure Inv (gaps : List StreamId) (r : GapRecovery) (t : List Event) : Prop where
  nodup : gaps.Nodup
  apart : ∀ x ∈ gaps.tail, x ∉ r.deferred
  waiting : ∀ x ∈ r.deferred, x ∉ r.applied
  mem_applied : ∀ x, x ∈ r.applied ↔ .applied x ∈ t
  mem_failed : ∀ x, x ∈ r.failed ↔ .failed x ∈ t
  owed : ∀ x, Since (.reported (some x)) (.applied x) t →
    x ∈ gaps ∨ x ∈ r.deferred ∨ x ∈ r.failed
  covered : ∀ x, Since (.applied x) (.reported (some x)) t → x ∉ gaps ∧ x ∉ r.deferred
  fair : Always fair t

theorem since_reported_concat {t : List Event} {e : Event} {x : StreamId} :
    Since (.reported (some x)) (.applied x) (t ++ [e]) ↔
      e = .reported (some x) ∨ (e ≠ .applied x ∧ Since (.reported (some x)) (.applied x) t) :=
  since_concat nofun

theorem since_applied_concat {t : List Event} {e : Event} {x : StreamId} :
    Since (.applied x) (.reported (some x)) (t ++ [e]) ↔
      e = .applied x ∨ (e ≠ .reported (some x) ∧ Since (.applied x) (.reported (some x)) t) :=
  since_concat nofun

/-- What an event has to do with the streams. -/
def Event.quiet (e : Event) : Prop :=
  ∀ x, e ≠ .reported (some x) ∧ e ≠ .applied x ∧ e ≠ .failed x

theorem Inv.quiet {gaps : List StreamId} {r : GapRecovery} {t : List Event} {e : Event}
    (h : Inv gaps r t) (he : e.quiet) : Inv gaps r (t ++ [e]) where
  nodup := h.nodup
  apart := h.apart
  waiting := h.waiting
  mem_applied x := by
    rw [h.mem_applied, List.mem_append, List.mem_singleton, or_iff_left (he x).2.1.symm]
  mem_failed x := by
    rw [h.mem_failed, List.mem_append, List.mem_singleton, or_iff_left (he x).2.2.symm]
  owed x hx := by
    rcases since_reported_concat.mp hx with rfl | ⟨-, hx⟩
    · exact absurd rfl (he x).1
    · exact h.owed x hx
  covered x hx := by
    rcases since_applied_concat.mp hx with rfl | ⟨-, hx⟩
    · exact absurd rfl (he x).2.1
    · exact h.covered x hx
  fair := always_concat.mpr ⟨h.fair, fun x hx => absurd hx (he x).2.1,
    fun x hx => absurd hx (he x).2.2⟩

theorem Inv.setState {gaps : List StreamId} {s : Session} (new : SyncState)
    (h : Inv gaps s.recovery s.trace) :
    Inv gaps (s.setState new).recovery (s.setState new).trace := by
  rw [recovery_setState]
  unfold Session.setState
  split
  · exact h
  · exact h.quiet fun x => ⟨nofun, nofun, nofun⟩

variable {stream : StreamId} {gaps more : List StreamId} {r : GapRecovery} {t : List Event}
  {s s' : Session}

section

variable (h : Inv (stream :: gaps) r t)
include h

theorem Inv.skip (hfailed : stream ∈ r.failed) : Inv gaps r t where
  nodup := h.nodup.of_cons
  apart x hx := h.apart x (List.mem_of_mem_tail hx)
  waiting := h.waiting
  mem_applied := h.mem_applied
  mem_failed := h.mem_failed
  owed x hx := by
    rcases h.owed x hx with hx | hx
    · rcases List.mem_cons.mp hx with rfl | hx
      · exact .inr (.inr hfailed)
      · exact .inl hx
    · exact .inr hx
  covered x hx := ⟨fun hmem => (h.covered x hx).1 (List.mem_cons_of_mem _ hmem),
    (h.covered x hx).2⟩
  fair := h.fair

theorem Inv.applied (hnew : stream ∉ r.applied)
    (hmem : ∀ x, x ∈ more ↔ x ∈ r.deferred.erase stream) (hmore : more.Nodup) :
    Inv (more ++ gaps) { r with applied := insert stream r.applied, deferred := ∅ }
      (t ++ [.applied stream]) where
  nodup := List.nodup_append'.mpr ⟨hmore, h.nodup.of_cons, fun x hx hx' =>
    h.apart x hx' (Finset.mem_of_mem_erase ((hmem x).mp hx))⟩
  apart x _ := Finset.notMem_empty x
  waiting x hx := absurd hx (Finset.notMem_empty x)
  mem_applied x := by
    rw [Finset.mem_insert, h.mem_applied, List.mem_append, List.mem_singleton, Event.applied.injEq,
      or_comm]
  mem_failed x := by
    rw [h.mem_failed, List.mem_append, List.mem_singleton, or_iff_left nofun]
  owed x hx := by
    rcases since_reported_concat.mp hx with hx | ⟨hne, hx⟩
    · cases hx
    · have hne : x ≠ stream := fun heq => hne (heq ▸ rfl)
      rw [List.mem_append, hmem, Finset.mem_erase]
      have := h.owed x hx
      rw [List.mem_cons] at this
      tauto
  covered x hx := by
    refine ⟨?_, Finset.notMem_empty x⟩
    rw [List.mem_append, hmem, Finset.mem_erase]
    rcases since_applied_concat.mp hx with hx | ⟨-, hx⟩
    · cases hx
      have := (List.nodup_cons.mp h.nodup).1
      tauto
    · have := h.covered x hx
      rw [List.mem_cons] at this
      tauto
  fair := always_concat.mpr ⟨h.fair, fun x hx => by
    cases hx
    exact fun hmem => hnew ((h.mem_applied _).mpr hmem), nofun⟩

theorem Inv.deferred (hnew : stream ∉ r.applied) (tried : Bool) :
    Inv gaps { r with deferred := insert stream r.deferred, keyBundleTried := tried } t where
  nodup := h.nodup.of_cons
  apart x hx := by
    have hx := List.mem_of_mem_tail hx
    rw [Finset.mem_insert, not_or]
    exact ⟨fun heq => (List.nodup_cons.mp h.nodup).1 (heq ▸ hx), h.apart x hx⟩
  waiting x hx := by
    rcases Finset.mem_insert.mp hx with rfl | hx
    · exact hnew
    · exact h.waiting x hx
  mem_applied := h.mem_applied
  mem_failed := h.mem_failed
  owed x hx := by
    have := h.owed x hx
    rw [List.mem_cons] at this
    rw [Finset.mem_insert]
    tauto
  covered x hx := by
    have := h.covered x hx
    rw [List.mem_cons] at this
    rw [Finset.mem_insert]
    tauto
  fair := h.fair

theorem Inv.failed :
    Inv gaps { r with failed := insert stream r.failed } (t ++ [.failed stream]) where
  nodup := h.nodup.of_cons
  apart x hx := h.apart x (List.mem_of_mem_tail hx)
  waiting := h.waiting
  mem_applied x := by
    rw [h.mem_applied, List.mem_append, List.mem_singleton, or_iff_left nofun]
  mem_failed x := by
    rw [Finset.mem_insert, h.mem_failed, List.mem_append, List.mem_singleton, Event.failed.injEq,
      or_comm]
  owed x hx := by
    rcases since_reported_concat.mp hx with hx | ⟨-, hx⟩
    · cases hx
    · have := h.owed x hx
      rw [List.mem_cons] at this
      rw [Finset.mem_insert]
      tauto
  covered x hx := by
    rcases since_applied_concat.mp hx with hx | ⟨-, hx⟩
    · cases hx
    · have := h.covered x hx
      rw [List.mem_cons] at this
      tauto
  fair := always_concat.mpr ⟨h.fair, nofun, fun x hx => by
    cases hx
    exact fun hsince => (h.covered _ hsince).1 List.mem_cons_self⟩

theorem Inv.absorbed (hmem : ∀ x, x ∈ more ↔ x ∈ insert stream r.deferred) (hmore : more.Nodup) :
    Inv (more ++ gaps) { r with deferred := ∅, keyBundleTried := true } t where
  nodup := by
    refine List.nodup_append'.mpr ⟨hmore, h.nodup.of_cons, fun x hx hx' => ?_⟩
    rcases Finset.mem_insert.mp ((hmem x).mp hx) with rfl | hx
    · exact (List.nodup_cons.mp h.nodup).1 hx'
    · exact h.apart x hx' hx
  apart x _ := Finset.notMem_empty x
  waiting x hx := absurd hx (Finset.notMem_empty x)
  mem_applied := h.mem_applied
  mem_failed := h.mem_failed
  owed x hx := by
    have := h.owed x hx
    rw [List.mem_cons] at this
    rw [List.mem_append, hmem, Finset.mem_insert]
    tauto
  covered x hx := by
    have := h.covered x hx
    rw [List.mem_cons] at this
    rw [List.mem_append, hmem, Finset.mem_insert]
    exact ⟨by tauto, Finset.notMem_empty x⟩
  fair := h.fair

end

theorem Recovers.inv (h : Recovers stream s s' more)
    (hi : Inv (stream :: gaps) s.recovery s.trace) :
    Inv (more ++ gaps) s'.recovery s'.trace := by
  have hquiet : (Event.deferred stream).quiet := fun x => ⟨nofun, nofun, nofun⟩
  cases h with
  | skipped hfailed => exact (hi.skip hfailed).setState _
  | applied hnew hmem hmore => exact hi.applied hnew hmem hmore
  | deferred tried hnew htried => exact ((hi.quiet hquiet).deferred hnew tried).setState _
  | absorbed hnew htried hmem hmore => exact ((hi.quiet hquiet).absorbed hmem hmore).setState _
  | failed => exact hi.failed.setState _

theorem inv_recoverLoop (w : World) (n : ℕ) (gaps : List StreamId) (s : Session)
    (resubscribe : Bool) (hi : Inv gaps s.recovery s.trace) :
    Inv [] (recoverLoop w n gaps s resubscribe).1.recovery
      (recoverLoop w n gaps s resubscribe).1.trace := by
  fun_induction recoverLoop w n gaps s resubscribe with
  | case1 n s resubscribe => exact hi
  | case2 n s resubscribe stream gaps ih => exact ih ((recovers_recoverOne w n stream s).inv hi)

theorem inv_reopen (hi : Inv gaps s.recovery s.trace) :
    Inv gaps s.reopen.recovery s.reopen.trace := by
  unfold reopen
  split
  · exact hi.setState _
  · exact hi

theorem inv_resubscribe (w : World) (hi : Inv gaps s.recovery s.trace) :
    Inv gaps (s.resubscribe w).recovery (s.resubscribe w).trace := by
  unfold resubscribe
  dsimp only
  split
  · exact hi
  · exact Inv.setState (s := { s with subscribed := _ }) _ hi

theorem inv_recoverGaps (w : World) (hi : Inv gaps s.recovery s.trace) :
    Inv [] (recoverGaps w gaps s).recovery (recoverGaps w gaps s).trace := by
  have hloop := inv_recoverLoop w 0 gaps s false hi
  unfold recoverGaps
  dsimp only
  split
  · exact inv_resubscribe w (inv_reopen hloop)
  · exact hloop

theorem inv_handleFrame (frame : Frame) (hi : Inv [] s.recovery s.trace) :
    Inv (handleFrame frame s).2 (handleFrame frame s).1.recovery
      (handleFrame frame s).1.trace := by
  cases frame with
  | cursorGap stream =>
    cases stream with
    | none => exact (hi.quiet (e := .reported none) fun x => ⟨nofun, nofun, nofun⟩).setState _
    | some stream =>
      exact {
        nodup := List.nodup_singleton stream
        apart := fun x hx => absurd hx List.not_mem_nil
        waiting := hi.waiting
        mem_applied := fun x => by
          rw [handleFrame, onError, recovery_log, hi.mem_applied, Session.log, List.mem_append,
            List.mem_singleton, or_iff_left nofun]
        mem_failed := fun x => by
          rw [handleFrame, onError, recovery_log, hi.mem_failed, Session.log, List.mem_append,
            List.mem_singleton, or_iff_left nofun]
        owed := fun x hx => by
          rcases since_reported_concat.mp hx with hx | ⟨-, hx⟩
          · cases hx
            exact .inl List.mem_cons_self
          · exact .inr ((hi.owed x hx).resolve_left List.not_mem_nil)
        covered := fun x hx => by
          rcases since_applied_concat.mp hx with hx | ⟨hne, hx⟩
          · cases hx
          · refine ⟨fun hmem => hne ?_, (hi.covered x hx).2⟩
            rw [List.mem_singleton.mp hmem]
        fair := always_concat.mpr ⟨hi.fair, nofun, nofun⟩ }
  | caughtUp stream => exact hi
  | opBatch created => exact hi
  | other => exact hi

theorem inv_maybeLive (pending : Option ℕ) (wantsKeyBundle : Bool)
    (hi : Inv [] s.recovery s.trace) :
    Inv [] (s.maybeLive pending wantsKeyBundle).recovery
      (s.maybeLive pending wantsKeyBundle).trace := by
  unfold maybeLive
  split_ifs
  · exact Inv.setState _ ⟨hi.nodup, hi.apart, hi.waiting, hi.mem_applied, hi.mem_failed, hi.owed,
      hi.covered, hi.fair⟩
  · exact hi

theorem inv_turn (i : Input) (hi : Inv [] s.recovery s.trace) :
    Inv [] (s.turn i).recovery (s.turn i).trace := by
  cases i with
  | submit streams => exact hi
  | recv frame w pending wantsKeyBundle =>
    have hframe := inv_handleFrame frame hi
    unfold turn
    dsimp only
    split_ifs with hgaps
    · rw [hgaps] at hframe
      exact inv_maybeLive pending wantsKeyBundle hframe
    · exact inv_maybeLive pending wantsKeyBundle (inv_recoverGaps w hframe)

theorem inv_start (subscribed : Finset StreamId) :
    Inv [] (start subscribed).recovery (start subscribed).trace where
  nodup := List.nodup_nil
  apart _ hx := absurd hx List.not_mem_nil
  waiting _ hx := absurd hx (Finset.notMem_empty _)
  mem_applied _ := iff_of_false (Finset.notMem_empty _) List.not_mem_nil
  mem_failed _ := iff_of_false (Finset.notMem_empty _) List.not_mem_nil
  owed _ hx := absurd hx not_since_nil
  covered _ hx := absurd hx not_since_nil
  fair := always_nil

theorem inv_run (subscribed : Finset StreamId) (pending : Option ℕ) (wantsKeyBundle : Bool)
    (inputs : List Input) :
    Inv [] (Session.run subscribed pending wantsKeyBundle inputs).recovery
      (Session.run subscribed pending wantsKeyBundle inputs).trace := by
  induction inputs using List.reverseRecOn with
  | nil => exact inv_maybeLive pending wantsKeyBundle (inv_start subscribed)
  | append_singleton inputs i ih =>
    rw [run_concat]
    exact inv_turn i ih

/-! ### What is told of a session -/

/-- What a call keeps until it has been through its list: what has failed, what was reported, and
the state, which it can only make worse. -/
structure Kept (s s' : Session) : Prop where
  failed : s.recovery.failed ⊆ s'.recovery.failed
  reported : ∀ gap, .reported gap ∈ s'.trace ↔ .reported gap ∈ s.trace
  state : s'.state = s.state ∨ s'.state = .degraded
  honest : Always honest s.trace → Always honest s'.trace

theorem Kept.refl (s : Session) : Kept s s :=
  ⟨Finset.Subset.refl _, fun _ => Iff.rfl, .inl rfl, id⟩

theorem Kept.trans {s₁ s₂ s₃ : Session} (h : Kept s₁ s₂) (h' : Kept s₂ s₃) : Kept s₁ s₃ where
  failed := h.failed.trans h'.failed
  reported gap := (h'.reported gap).trans (h.reported gap)
  state := h'.state.elim (fun heq => heq ▸ h.state) .inr
  honest := h'.honest ∘ h.honest

theorem Kept.markDegraded (s : Session) : Kept s s.markDegraded where
  failed := (recovery_markDegraded s).symm ▸ Finset.Subset.refl _
  reported gap := by
    unfold Session.markDegraded Session.setState
    split
    · exact Iff.rfl
    · rw [Session.log, List.mem_append, List.mem_singleton, or_iff_left nofun]
  state := .inr (state_markDegraded s)
  honest h := by
    unfold Session.markDegraded Session.setState
    split
    · exact h
    · refine always_concat.mpr ⟨h, fun heq => ?_⟩
      rcases heq with heq | heq <;> cases (Event.moved.inj heq).2

theorem Kept.degrade (h : Kept s s') : Kept s s'.markDegraded := h.trans (.markDegraded s')

theorem Kept.log {r : GapRecovery} {e : Event} (hfailed : s.recovery.failed ⊆ r.failed)
    (he : ∀ gap, e ≠ .reported gap) (he' : ∀ old new, e ≠ .moved old new) :
    Kept s ((s.recovering r).log e) where
  failed := hfailed
  reported gap := by
    rw [Session.log, List.mem_append, List.mem_singleton, or_iff_left (he gap).symm]
    exact Iff.rfl
  state := .inl rfl
  honest h := always_concat.mpr ⟨h, fun heq =>
    absurd heq (not_or.mpr ⟨he' _ _, he' _ _⟩)⟩

theorem Recovers.kept (h : Recovers stream s s' more) : Kept s s' := by
  cases h with
  | skipped hfailed => exact .markDegraded s
  | applied hnew hmem hmore => exact .log (Finset.Subset.refl _) nofun nofun
  | deferred tried hnew htried =>
    apply Kept.degrade
    exact .log (Finset.Subset.refl _) nofun nofun
  | absorbed hnew htried hmem hmore =>
    apply Kept.degrade
    exact .log (Finset.Subset.refl _) nofun nofun
  | failed =>
    apply Kept.degrade
    exact .log (Finset.subset_insert _ _) nofun nofun

theorem kept_recoverLoop (w : World) (n : ℕ) (gaps : List StreamId) (s : Session)
    (resubscribe : Bool) : Kept s (recoverLoop w n gaps s resubscribe).1 := by
  fun_induction recoverLoop w n gaps s resubscribe with
  | case1 n s resubscribe => exact .refl s
  | case2 n s resubscribe stream gaps ih => exact (recovers_recoverOne w n stream s).kept.trans ih

theorem Recovers.mem_failed (h : Recovers stream s s' more) (hold : stream ∈ s.recovery.applied) :
    stream ∈ s'.recovery.failed := by
  cases h with
  | skipped hfailed => exact (recovery_markDegraded s).symm ▸ hfailed
  | applied hnew hmem hmore => exact absurd hold hnew
  | deferred tried hnew htried => exact absurd hold hnew
  | absorbed hnew htried hmem hmore => exact absurd hold hnew
  | failed =>
    rw [recovery_markDegraded]
    exact Finset.mem_insert_self stream _

theorem mem_failed_recoverLoop (w : World) (n : ℕ) (gaps : List StreamId) (resubscribe : Bool)
    (hold : stream ∈ s.recovery.applied) :
    stream ∈ (recoverLoop w n (stream :: gaps) s resubscribe).1.recovery.failed := by
  rw [recoverLoop]
  exact (kept_recoverLoop ..).failed ((recovers_recoverOne w n stream s).mem_failed hold)

/-- A gap that names no stream leaves the session degraded. -/
structure Latched (s : Session) : Prop where
  latch : .reported none ∈ s.trace → s.state = .degraded
  honest : Always honest s.trace

theorem Latched.kept (h : Latched s) (hkept : Kept s s') : Latched s' where
  latch hmem := by
    have hstate := h.latch ((hkept.reported none).mp hmem)
    exact hkept.state.elim (fun heq => heq.trans hstate) id
  honest := hkept.honest h.honest

theorem Latched.setState {new : SyncState} (h : Latched s) (hnone : .reported none ∉ s.trace)
    (hmoved : Gaps.honest s.trace (.moved s.state new)) : Latched (s.setState new) := by
  unfold Session.setState
  split
  · exact h
  · refine ⟨fun hmem => ?_, always_concat.mpr ⟨h.honest, hmoved⟩⟩
    rw [Session.log, List.mem_append, List.mem_singleton, or_iff_left nofun] at hmem
    exact absurd hmem hnone

theorem latched_maybeLive (pending : Option ℕ) (wantsKeyBundle : Bool) (h : Latched s) :
    Latched (s.maybeLive pending wantsKeyBundle) := by
  unfold maybeLive
  split
  next hlive =>
    have hnone : .reported none ∉ s.trace := fun hmem => by
      cases (h.latch hmem).symm.trans hlive.1
    refine Latched.setState ⟨h.latch, h.honest⟩ hnone fun heq => ?_
    -- only a session that was catching up goes live
    rcases heq with heq | heq <;> cases hlive.1.symm.trans (Event.moved.inj heq).1
  next => exact h

theorem kept_resubscribe (w : World) (s : Session) : Kept s (s.resubscribe w) := by
  have hkept : Kept s { s with subscribed := s.subscribed ∪ w.entries.getD ∅ } :=
    ⟨Finset.Subset.refl _, fun _ => Iff.rfl, .inl rfl, id⟩
  unfold resubscribe
  dsimp only
  split
  · exact hkept
  · exact hkept.degrade

/-- When no stream waits or has failed, every gap that named one was recovered. -/
theorem latched_reopen (hi : Inv [] s.recovery s.trace) (h : Latched s)
    (hnone : s.recovery.failed = ∅ → .reported none ∉ s.trace) : Latched s.reopen := by
  unfold reopen
  split
  next hclear =>
    obtain ⟨hfailed, hdeferred, -⟩ := hclear
    refine h.setState (hnone hfailed) fun _ => ⟨hnone hfailed, fun x hx => ?_⟩
    have howed := hi.owed x hx
    rw [hfailed, hdeferred] at howed
    exact howed.elim List.not_mem_nil (Or.rec (Finset.notMem_empty x) (Finset.notMem_empty x))
  next => exact h

theorem latched_recoverGaps (w : World) (hi : Inv [stream] s.recovery s.trace) (h : Latched s)
    (hnone : .reported none ∈ s.trace →
      s.recovery.failed ≠ ∅ ∨ stream ∈ s.recovery.applied) :
    Latched (recoverGaps w [stream] s) := by
  have hkept := kept_recoverLoop w 0 [stream] s false
  unfold recoverGaps
  dsimp only
  split
  · refine Latched.kept (latched_reopen (inv_recoverLoop w 0 _ s false hi) (h.kept hkept) ?_)
      (kept_resubscribe w _)
    intro hfailed hmem
    rcases hnone ((hkept.reported none).mp hmem) with hne | hold
    · exact hne (Finset.subset_empty.mp (hfailed ▸ hkept.failed))
    · exact Finset.notMem_empty stream (hfailed ▸ mem_failed_recoverLoop w 0 [] false hold)
  · exact h.kept hkept

def Input.names : Input → Option StreamId
  | .recv (.cursorGap stream) _ _ _ => stream
  | _ => none

/-- A gap no record was applied for yet, after one that named no stream, while none has failed. -/
def Blind (s : Session) (i : Input) : Prop :=
  .reported none ∈ s.trace ∧ s.recovery.failed = ∅ ∧
    ∃ stream, i.names = some stream ∧ stream ∉ s.recovery.applied

/-- A gap that names no stream makes the session degraded, whatever it was. -/
theorem latched_nameless (h : Latched s) : Latched (s.log (.reported none)).markDegraded where
  latch _ := state_markDegraded _
  honest := (Kept.markDegraded _).honest <|
    always_concat.mpr ⟨h.honest, fun heq => by rcases heq with heq | heq <;> cases heq⟩

theorem latched_named (h : Latched s) (stream : StreamId) :
    Latched (s.log (.reported (some stream))) where
  latch hmem := by
    rw [Session.log, List.mem_append, List.mem_singleton, or_iff_left nofun] at hmem
    exact h.latch hmem
  honest := always_concat.mpr ⟨h.honest, fun heq => by rcases heq with heq | heq <;> cases heq⟩

theorem latched_turn {i : Input} (hi : Inv [] s.recovery s.trace) (h : Latched s)
    (hblind : ¬ Blind s i) : Latched (s.turn i) := by
  cases i with
  | submit streams => exact ⟨h.latch, h.honest⟩
  | recv frame w pending wantsKeyBundle =>
    apply latched_maybeLive
    cases frame with
    | cursorGap stream =>
      cases stream with
      | none => exact latched_nameless h
      | some stream =>
        refine latched_recoverGaps w (inv_handleFrame (.cursorGap (some stream)) hi)
          (latched_named h stream) fun hmem => ?_
        have hmem := (List.mem_append.mp hmem).resolve_right fun h => by
          cases List.mem_singleton.mp h
        rw [or_iff_not_imp_left, not_not]
        exact fun hfailed => by_contra fun hnew => hblind ⟨hmem, hfailed, stream, rfl, hnew⟩
    | caughtUp stream => exact ⟨h.latch, h.honest⟩
    | opBatch created => exact ⟨h.latch, h.honest⟩
    | other => exact h

/-! ### Every run -/

/-- The sets say what happened, no record is applied to a stream twice, a stream caught up fails
only by a later gap, and every stream with a gap is in one of the sets. -/
structure Session.Sound (s : Session) : Prop where
  mem_applied : ∀ x, x ∈ s.recovery.applied ↔ .applied x ∈ s.trace
  mem_failed : ∀ x, x ∈ s.recovery.failed ↔ .failed x ∈ s.trace
  fair : Always fair s.trace
  accounted : ∀ x, .reported (some x) ∈ s.trace →
    x ∈ s.recovery.applied ∨ x ∈ s.recovery.deferred ∨ x ∈ s.recovery.failed

/-- The session stopped being degraded only when every gap reported was recovered. -/
def Session.Honest (s : Session) : Prop := Always honest s.trace

/-- **Every session is sound.** -/
theorem sound_run (subscribed : Finset StreamId) (pending : Option ℕ) (wantsKeyBundle : Bool)
    (inputs : List Input) : (Session.run subscribed pending wantsKeyBundle inputs).Sound := by
  have hi := inv_run subscribed pending wantsKeyBundle inputs
  refine ⟨hi.mem_applied, hi.mem_failed, hi.fair, fun x hx => ?_⟩
  rcases since_or_mem (b := .applied x) hx with hsince | happlied
  · exact .inr ((hi.owed x hsince).resolve_left List.not_mem_nil)
  · exact .inl ((hi.mem_applied x).mpr happlied)

theorem latched_run (subscribed : Finset StreamId) (pending : Option ℕ) (wantsKeyBundle : Bool)
    (inputs : List Input)
    (hblind : ∀ before i after, inputs = before ++ i :: after →
      ¬ Blind (Session.run subscribed pending wantsKeyBundle before) i) :
    Latched (Session.run subscribed pending wantsKeyBundle inputs) := by
  induction inputs using List.reverseRecOn with
  | nil => exact latched_maybeLive pending wantsKeyBundle ⟨nofun, always_nil⟩
  | append_singleton inputs i ih =>
    rw [run_concat]
    refine latched_turn (inv_run ..) (ih fun before j after hsplit => ?_) (hblind inputs i [] rfl)
    refine hblind before j (after ++ [i]) ?_
    rw [hsplit, List.append_assoc, List.cons_append]

/-- **Every session is sound, and honest if no turn is blind.** -/
theorem run_sound_honest (subscribed : Finset StreamId) (pending : Option ℕ)
    (wantsKeyBundle : Bool) (inputs : List Input) :
    (Session.run subscribed pending wantsKeyBundle inputs).Sound ∧
      ((∀ before i after, inputs = before ++ i :: after →
          ¬ Blind (Session.run subscribed pending wantsKeyBundle before) i) →
        (Session.run subscribed pending wantsKeyBundle inputs).Honest) :=
  ⟨sound_run .., fun hblind => (latched_run _ _ _ inputs hblind).honest⟩

/-- A relay that has every record. -/
def supplying : World where
  answer _ := ⟨.applied, false, none⟩
  drain _ set := set.sort (· ≤ ·)
  drain_perm _ _ := .refl _
  entries := none
  encodes := true

theorem run_sound_honest_named : (Session.run ∅ (some 1) false
    [.recv (.cursorGap (some 1)) supplying (some 1) false,
      .recv (.cursorGap none) supplying (some 1) false]).Honest := by
  refine (run_sound_honest _ _ _ _).2 fun before i after hsplit hblind => ?_
  cases before with
  | nil => exact absurd hblind.1 (by simp [Session.run, maybeLive, start])
  | cons first before =>
    -- the second gap names no stream
    have hsecond := (List.cons.inj hsplit).2
    cases before with
    | nil =>
      obtain ⟨-, -, stream, hnames, -⟩ := hblind
      rw [← (List.cons.inj hsecond).1] at hnames
      cases hnames
    | cons second before => cases before <;> cases (List.cons.inj hsecond).2

/-- A gap that names no stream is forgotten when the record of another is applied. -/
theorem not_run_honest_nameless : ¬ (Session.run ∅ (some 1) false
    [.recv (.cursorGap none) supplying (some 1) false,
      .recv (.cursorGap (some 1)) supplying (some 1) false]).Honest := by
  intro h
  have htrace : (Session.run ∅ (some 1) false
      [.recv (.cursorGap none) supplying (some 1) false,
        .recv (.cursorGap (some 1)) supplying (some 1) false]).trace =
      [.reported none, .moved .catchingUp .degraded, .reported (some 1), .applied 1] ++
        .moved .degraded .catchingUp :: [] := by
    simp [Session.run, turn, handleFrame, onError, maybeLive, start,
      Session.log, markDegraded, setState, recoverGaps, recoverLoop, recoverOne,
      outcomeOf, supplying, recovering, reopen, resubscribe]
  exact (h _ _ _ htrace (.inl rfl)).1 (by simp)

/-! ### A blind turn -/

/-- With a record for every stream, nothing waits and nothing fails. -/
theorem recoverLoop_supplied {w : World} (hw : ∀ n, (w.answer n).outcome = .applied) (n : ℕ)
    (gaps : List StreamId) (s : Session) (resubscribe : Bool)
    (hi : Inv gaps s.recovery s.trace) (hnew : ∀ x ∈ gaps, x ∉ s.recovery.applied)
    (hfailed : s.recovery.failed = ∅)
    (hdone : gaps = [] → s.recovery.deferred = ∅ ∧ resubscribe = true) :
    (recoverLoop w n gaps s resubscribe).2 = true ∧
      (recoverLoop w n gaps s resubscribe).1.recovery.failed = ∅ ∧
      (recoverLoop w n gaps s resubscribe).1.recovery.deferred = ∅ := by
  fun_induction recoverLoop w n gaps s resubscribe with
  | case1 n s resubscribe => exact ⟨(hdone rfl).2, hfailed, (hdone rfl).1⟩
  | case2 n s resubscribe stream gaps ih =>
    have hout : outcomeOf w n s.recovery stream = some .applied := by
      rw [outcomeOf, if_neg (hnew stream List.mem_cons_self), hfailed,
        if_neg (Finset.notMem_empty stream), hw]
    have hone : recoverOne w n stream s = ((s.recovering { s.recovery with
        applied := insert stream s.recovery.applied, deferred := ∅ }).log (.applied stream),
        w.drain n (s.recovery.deferred.erase stream)) := by
      rw [recoverOne, hout]
    have hinv := (recovers_recoverOne w n stream s).inv hi
    rw [hone] at ih hinv ⊢
    have happlied : (resubscribe || outcomeOf w n s.recovery stream == some .applied) = true := by
      rw [hout, beq_self_eq_true, Bool.or_true]
    refine ih hinv (fun x hx => ?_) hfailed fun _ => ⟨rfl, happlied⟩
    rw [recovery_log, Session.recovering, Finset.mem_insert, not_or]
    rcases List.mem_append.mp hx with hx | hx
    · rw [w.mem_drain, Finset.mem_erase] at hx
      exact ⟨hx.1, hi.waiting x hx.2⟩
    · exact ⟨fun heq => (List.nodup_cons.mp hi.nodup).1 (heq ▸ hx),
        hnew x (List.mem_cons_of_mem _ hx)⟩

theorem prefix_setState (s : Session) (new : SyncState) :
    s.trace <+: (s.setState new).trace := by
  unfold setState
  split
  · exact List.prefix_rfl
  · exact List.prefix_append _ _

theorem prefix_resubscribe (w : World) (s : Session) :
    s.trace <+: (s.resubscribe w).trace := by
  unfold resubscribe
  dsimp only
  split
  · exact List.prefix_rfl
  · exact prefix_setState { s with subscribed := s.subscribed ∪ w.entries.getD ∅ } .degraded

theorem prefix_maybeLive (pending : Option ℕ) (wantsKeyBundle : Bool) (s : Session) :
    s.trace <+: (s.maybeLive pending wantsKeyBundle).trace := by
  unfold maybeLive
  split
  · exact prefix_setState (s.recovering { s.recovery with
      keyBundleTried := s.recovery.keyBundleTried || wantsKeyBundle }) .live
  · exact List.prefix_rfl

/-- **In a session that was honest so far, a blind turn is not, if the relay has every record.** -/
theorem not_honest_of_blind {w : World} {pending : Option ℕ} {wantsKeyBundle : Bool}
    (hw : ∀ n, (w.answer n).outcome = .applied) (hi : Inv [] s.recovery s.trace) (h : Latched s)
    (hblind : Blind s (.recv (.cursorGap (some stream)) w pending wantsKeyBundle)) :
    ¬ (s.turn (.recv (.cursorGap (some stream)) w pending wantsKeyBundle)).Honest := by
  obtain ⟨hnone, hfailed, x, hnames, hnew⟩ := hblind
  obtain rfl : stream = x := Option.some.inj hnames
  set s₁ := s.log (.reported (some stream)) with hs₁
  set s₂ := recoverLoop w 0 [stream] s₁ false with hs₂
  have hkept : Kept s₁ s₂.1 := kept_recoverLoop ..
  obtain ⟨happlied, hfailed, hdeferred⟩ := recoverLoop_supplied hw 0 [stream] s₁ false
    (inv_handleFrame (.cursorGap (some stream)) hi)
    (fun y hy => (List.mem_singleton.mp hy) ▸ hnew) hfailed nofun
  have hnone : .reported none ∈ s₁.trace := List.mem_append_left _ hnone
  have hstate : s₂.1.state = .degraded :=
    hkept.state.elim (fun heq => heq.trans ((latched_named h stream).latch hnone)) id
  have hreopen : s₂.1.reopen.trace = s₂.1.trace ++ [.moved .degraded .catchingUp] := by
    rw [Session.reopen, if_pos ⟨hfailed, hdeferred, hstate⟩, Session.setState, hstate,
      if_neg nofun, Session.log]
  have hturn : s.turn (.recv (.cursorGap (some stream)) w pending wantsKeyBundle) =
      ((s₂.1.reopen).resubscribe w).maybeLive pending wantsKeyBundle := by
    simp only [Session.turn, handleFrame, onError, recoverGaps, ← hs₁, ← hs₂, List.cons_ne_nil,
      if_false]
    rw [if_pos (show s₂.2 = true from happlied)]
  intro hhonest
  rw [hturn] at hhonest
  have hreopened := hhonest.of_prefix ((prefix_resubscribe w _).trans (prefix_maybeLive ..))
  rw [hreopen] at hreopened
  exact ((always_concat.mp hreopened).2 (.inl rfl)).1 ((hkept.reported none).mpr hnone)

end Gaps

end Sunrise
