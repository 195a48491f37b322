import Sunrise.Log.Forks
import Mathlib.Data.List.MinMax

/-!
# The hybrid logical clock

A device stamps its ops from a hybrid logical clock, which is not stored: at an open it is
rebuilt from the greatest stamp the log still holds. That is the greatest of the stamps of
the rows of `ops` and of the stamps the compaction floors keep. A floor keeps one stamp
only, that of the op at its position, and it stands for every op the floor covers.

The counter of a reading saturates, and the clock's state changes with every op sent and
with every stamp taken in. A stamp too far ahead of the wall clock is refused, and with it
the op that carries it. The readings of the wall clock are inputs.

* `ClockedLog.primeHlc` — the clock as an open restores it.
* `ClockedLog.handle`, `ClockedLog.run` — the writes, and runs of them.
-/

namespace Sunrise

open OpLog DeviceLog

open OpLog (Delivery SnapshotEntry CompactionView)

/-! ### Readings -/

/-- The greatest counter a reading holds. -/
def u32Max : ℕ := 2 ^ 32 - 1

/-- The greatest time a reading holds. -/
def u64Max : ℕ := 2 ^ 64 - 1

/-- How far ahead of the wall clock a received stamp may be. -/
def maxDriftMs : ℕ := 5 * 60 * 1000

/-- The latest time a received stamp may have. The sum saturates. -/
def driftLimit (now : ℕ) : ℕ :=
  if u64Max - maxDriftMs < now then u64Max else now + maxDriftMs

/-- The counter after this one. It saturates. -/
def saturatingSucc (n : ℕ) : ℕ := if n < u32Max then n + 1 else n

theorem le_saturatingSucc (n : ℕ) : n ≤ saturatingSucc n := by
  unfold saturatingSucc
  split <;> omega

theorem lt_saturatingSucc {n : ℕ} (h : saturatingSucc n < u32Max) : n < saturatingSucc n := by
  unfold saturatingSucc at h ⊢
  split
  · omega
  next hn =>
    rw [if_neg hn] at h
    exact absurd h hn

namespace Hlc

/-- A reading as a lexicographic pair. -/
def key (h : Hlc) : ℕ ×ₗ ℕ := toLex (h.physicalMs, h.logical)

theorem key_injective : Function.Injective key := by
  intro a b h
  cases a
  cases b
  simpa [key] using h

instance : LinearOrder Hlc := LinearOrder.lift' key key_injective

theorem le_iff {a b : Hlc} :
    a ≤ b ↔ a.physicalMs < b.physicalMs ∨ a.physicalMs = b.physicalMs ∧ a.logical ≤ b.logical :=
  Prod.Lex.toLex_le_toLex (x := (a.physicalMs, a.logical)) (y := (b.physicalMs, b.logical))

theorem lt_iff {a b : Hlc} :
    a < b ↔ a.physicalMs < b.physicalMs ∨ a.physicalMs = b.physicalMs ∧ a.logical < b.logical :=
  Prod.Lex.toLex_lt_toLex (x := (a.physicalMs, a.logical)) (y := (b.physicalMs, b.logical))

/-- The zero reading a clock starts from. -/
def zero : Hlc := ⟨0, 0⟩

/-- The reading the next op is stamped with. -/
def send (h : Hlc) (now : ℕ) : Hlc :=
  if h.physicalMs < now then ⟨now, 0⟩ else ⟨h.physicalMs, saturatingSucc h.logical⟩

/-- The clock after a stamp is taken in, or nothing where the stamp is refused. -/
def receive (h received : Hlc) (now : ℕ) : Option Hlc :=
  if driftLimit now < received.physicalMs then none
  else
    let physical := max (max h.physicalMs received.physicalMs) now
    -- the counter continues from whichever inputs are already at that time
    some ⟨physical,
      if physical = h.physicalMs ∧ physical = received.physicalMs then
        saturatingSucc (max h.logical received.logical)
      else if physical = h.physicalMs then saturatingSucc h.logical
      else if physical = received.physicalMs then saturatingSucc received.logical
      else 0⟩

/-- **A send is strictly above the reading before it**, unless the counter is saturated. -/
theorem lt_send {h : Hlc} {now : ℕ} (hl : (h.send now).logical < u32Max) : h < h.send now := by
  unfold send at hl ⊢
  rw [lt_iff]
  split
  next hn => exact .inl hn
  next hn =>
    rw [if_neg hn] at hl
    exact .inr ⟨rfl, lt_saturatingSucc hl⟩

theorem le_send (h : Hlc) (now : ℕ) : h ≤ h.send now := by
  unfold send
  rw [le_iff]
  split
  next hn => exact .inl hn
  next => exact .inr ⟨rfl, le_saturatingSucc _⟩

theorem physicalMs_send (h : Hlc) (now : ℕ) : (h.send now).physicalMs = max h.physicalMs now := by
  unfold send
  split
  next hn => exact (max_eq_right hn.le).symm
  next hn => exact (max_eq_left (not_lt.mp hn)).symm

theorem receive_spec {h received h' : Hlc} {now : ℕ} (hr : h.receive received now = some h') :
    h ≤ h' ∧ received ≤ h' ∧
      h'.physicalMs = max (max h.physicalMs received.physicalMs) now := by
  unfold receive at hr
  split at hr
  · simp at hr
  · obtain rfl := Option.some.inj hr
    refine ⟨?_, ?_, rfl⟩
    · rw [le_iff]
      dsimp only
      have hle := le_saturatingSucc h.logical
      have hmax := le_saturatingSucc (max h.logical received.logical)
      split
      next heq => exact .inr ⟨heq.1.symm, by omega⟩
      next =>
        split
        next heq => exact .inr ⟨heq.symm, hle⟩
        next => exact .inl (by omega)
    · rw [le_iff]
      dsimp only
      have hle := le_saturatingSucc received.logical
      have hmax := le_saturatingSucc (max h.logical received.logical)
      split
      next heq => exact .inr ⟨heq.2.symm, by omega⟩
      next hne =>
        split
        next heq => exact .inl (by omega)
        next =>
          split
          next heq => exact .inr ⟨heq.symm, hle⟩
          next => exact .inl (by omega)

theorem receive_eq_none {h received : Hlc} {now : ℕ} :
    h.receive received now = none ↔ driftLimit now < received.physicalMs := by
  unfold receive
  split <;> simp_all

/-- A reading as the columns of a floor keep it. -/
def stored (h : Hlc) : Hlc := { h with physicalMs := i64Of h.physicalMs }

theorem stored_eq_self {h : Hlc} (hh : h.physicalMs ≤ storeMax) : h.stored = h := by
  unfold stored
  rw [i64Of_eq_self.mpr hh]

end Hlc

/-! ### The log with its clock -/

/-- The log of one device and the clock it stamps its ops from. -/
structure ClockedLog where
  log : OpLog
  /-- The stamp each row of `compaction_floor` keeps. -/
  floorHlc : StreamId → Device → Option Hlc
  /-- The streams and devices the tables have rows of, which a scan of them visits. -/
  devices : List (StreamId × Device)
  hlc : Hlc

/-- One device's entry of a snapshot's frontier, with the stamp of the op at its floor. -/
structure StampedEntry where
  entry : SnapshotEntry
  hlc : Hlc

namespace ClockedLog

def empty : ClockedLog := ⟨∅, fun _ _ => none, [], .zero⟩

instance : EmptyCollection ClockedLog := ⟨empty⟩

/-- Take in a stamp, or refuse it. -/
def observe (v : ClockedLog) (received : Hlc) (now : ℕ) : Option ClockedLog :=
  (v.hlc.receive received now).map fun hlc => { v with hlc }

/-- Raise the clock to a reading. -/
def prime (v : ClockedLog) (observed : Hlc) : ClockedLog :=
  if v.hlc < observed then { v with hlc := observed } else v

/-- The op a draft is sealed into: stamped, and numbered next in its stream. -/
def sealed (v : ClockedLog) (now : ℕ) (draft : Envelope) : Envelope :=
  { draft with
    hlc := v.hlc.send now
    ref := { draft.ref with
      seq := (v.log.devs draft.ref.stream draft.ref.device).nextSeq } }

/-- Log a local op. The clock stays where it was sent to if the op cannot be logged. -/
def append (c : ChainHash) (v : ClockedLog) (now : ℕ) (draft : Envelope) : ClockedLog where
  log := v.log.append c { draft with hlc := v.hlc.send now }
  floorHlc := v.floorHlc
  devices := (draft.ref.stream, draft.ref.device) :: v.devices
  hlc := v.hlc.send now

/-- Take a delivery. Its stamp is taken in before its row is written, whether it is
applied or parked. -/
def deliver (c : ChainHash) (v : ClockedLog) (now : ℕ) (dl : Delivery) : ClockedLog :=
  match v.observe dl.env.hlc now with
  | none => v
  | some v =>
    { v with
      log := v.log.deliver c dl
      devices := (dl.env.ref.stream, dl.env.ref.device) :: v.devices }

theorem deliver_of_none {c : ChainHash} {v : ClockedLog} {now : ℕ} {dl : Delivery}
    (h : v.observe dl.env.hlc now = none) : v.deliver c now dl = v := by
  simp only [deliver, h]

theorem deliver_of_some {c : ChainHash} {v w : ClockedLog} {now : ℕ} {dl : Delivery}
    (h : v.observe dl.env.hlc now = some w) :
    v.deliver c now dl = { w with
      log := w.log.deliver c dl
      devices := (dl.env.ref.stream, dl.env.ref.device) :: w.devices } := by
  simp only [deliver, h]

/-- The stamp a device's floor keeps after a compaction: where it rose, that of the op it
rose to. -/
def compactedHlc (v : ClockedLog) (log : OpLog) (s : StreamId) (dev : Device) : Option Hlc :=
  let target := (log.devs s dev).floorSeq
  if (v.log.devs s dev).floorSeq < target then
    (v.log.heldAt ⟨s, dev, target⟩).map (·.hlc.stored)
  else v.floorHlc s dev

/-- Fold one stream below its floors. -/
def compactStream (c : ChainHash) (v : ClockedLog) (view : CompactionView)
    (s : StreamId) : ClockedLog :=
  let log := v.log.compactStream c view s
  { v with log, floorHlc := v.compactedHlc log }

/-- Receive the ops a snapshot retains, each at its own reading of the wall clock, up to
the first whose stamp is refused. Whether none was comes with the result. -/
def receiveRetained (c : ChainHash) : ClockedLog → List (ℕ × Delivery) → ClockedLog × Bool
  | v, [] => (v, true)
  | v, (now, dl) :: retained =>
    if (v.observe dl.env.hlc now).isSome then receiveRetained c (v.deliver c now dl) retained
    else (v, false)

theorem receiveRetained_cons (c : ChainHash) (v : ClockedLog) (now : ℕ) (dl : Delivery)
    (retained : List (ℕ × Delivery)) :
    v.receiveRetained c ((now, dl) :: retained) =
      if (v.observe dl.env.hlc now).isSome then (v.deliver c now dl).receiveRetained c retained
      else (v, false) := rfl

def adopt (c : ChainHash) (s : StreamId) (v : ClockedLog) (e : StampedEntry) : ClockedLog where
  log := OpLog.adopt c s v.log e.entry
  floorHlc s' dev :=
    if s' = s ∧ dev = e.entry.device ∧
        (v.log.devs s e.entry.device).floorSeq < e.entry.floor.seq then some e.hlc.stored
    else v.floorHlc s' dev
  devices := (s, e.entry.device) :: v.devices
  hlc := v.hlc

/-- Take in the greatest stamp of a snapshot's frontier. -/
def observeEntries (v : ClockedLog) (entries : List StampedEntry) (now : ℕ) :
    Option ClockedLog :=
  match (entries.map (·.hlc)).max? with
  | none => some v
  | some greatest => v.observe greatest now

/-- Apply a snapshot of the stream: check its frontier, take in the stamp that bounds it,
receive the ops it retains, and once they are all here adopt its frontier as floors. -/
def applySnapshot (c : ChainHash) (v : ClockedLog) (now : ℕ) (s : StreamId)
    (entries : List StampedEntry) (retained : List (ℕ × Delivery)) : ClockedLog :=
  if ¬ entries.Pairwise (fun a b => a.entry.device < b.entry.device) then v
  else match checkEntries c s (entries.map (·.entry)) v.log false with
    | none => v
    | some (log, false) => { v with log }
    | some (log, true) =>
      match { v with log }.observeEntries entries now with
      | none => { v with log }
      | some v =>
        match v.receiveRetained c retained with
        | (v, false) => v
        | (v, true) =>
          if retained.all fun dl => (v.log.rowAt dl.2.env.ref).isSome ||
              decide (dl.2.env.ref.seq ≤
                (v.log.devs dl.2.env.ref.stream dl.2.env.ref.device).floorSeq) then
            entries.foldl (adopt c s) v
          else v

/-! ### Opening -/

def envelopes (v : ClockedLog) : List Envelope :=
  v.devices.flatMap fun d => (v.log.devs d.1 d.2).rows.rows.map fun row => row.2.env

/-- The greatest stamp a floor keeps. -/
def maxFloorHlc (v : ClockedLog) : Option Hlc :=
  (v.devices.filterMap fun d => v.floorHlc d.1 d.2).max?

/-- The greatest time a row is filed under. -/
def maxTsMs (v : ClockedLog) : Option ℕ :=
  (v.envelopes.map fun env => i64Of env.hlc.physicalMs).max?

/-- The greatest counter among the ops of one millisecond. -/
def maxLogical (v : ClockedLog) (ms : ℕ) : ℕ :=
  ((v.envelopes.filter fun env => env.hlc.physicalMs = ms).map (·.hlc.logical)).max?.getD 0

def primeFloors (v : ClockedLog) : ClockedLog :=
  match v.maxFloorHlc with
  | some floor => v.prime floor
  | none => v

def primeHlc (v : ClockedLog) : ClockedLog :=
  let v := v.primeFloors
  match v.maxTsMs with
  | none => v
  | some ms => v.prime ⟨ms, v.maxLogical ms⟩

/-- Open the log after the process ended. -/
def reopen (v : ClockedLog) : ClockedLog := { v with hlc := .zero }.primeHlc

/-! ### Runs -/

/-- What happens to the log and its clock. The wall clock reads `now`. -/
inductive Event where
  | append (now : ℕ) (draft : Envelope)
  | rollback (now : ℕ)
  | deliver (now : ℕ) (dl : Delivery)
  /-- A delivery whose transaction fails after its stamp was taken in. -/
  | fail (now : ℕ) (received : Hlc)
  | compact (view : CompactionView) (s : StreamId)
  | snapshot (now : ℕ) (s : StreamId) (entries : List StampedEntry)
    (retained : List (ℕ × Delivery))
  | restart

/-- Make a write. -/
def handle (c : ChainHash) (v : ClockedLog) : Event → ClockedLog
  | .append now draft => v.append c now draft
  | .rollback now => { v with hlc := v.hlc.send now }
  | .deliver now dl => v.deliver c now dl
  | .fail now received => (v.observe received now).getD v
  | .compact view s => v.compactStream c view s
  | .snapshot now s entries retained => v.applySnapshot c now s entries retained
  | .restart => v.reopen

def run (c : ChainHash) (v : ClockedLog) (events : List Event) : ClockedLog :=
  events.foldl (handle c) v

@[simp] theorem run_nil (c : ChainHash) (v : ClockedLog) : v.run c [] = v := rfl

theorem run_append (c : ChainHash) (v : ClockedLog) (es es' : List Event) :
    v.run c (es ++ es') = (v.run c es).run c es' := List.foldl_append

/-! ### What the log bounds -/

/-- The stamps of the rows and of the floors. -/
inductive Holds (v : ClockedLog) : Hlc → Prop where
  | row (r : OpRef) (env : Envelope) (hr : r.seq ≤ storeMax) (h : v.log.heldAt r = some env) :
    v.Holds env.hlc
  | floor (s : StreamId) (dev : Device) (h : Hlc) (hf : v.floorHlc s dev = some h) : v.Holds h

/-- A stamp at or below one the log holds. -/
def Bounds (v : ClockedLog) (h : Hlc) : Prop := ∃ h', v.Holds h' ∧ h ≤ h'

/-- Whatever the one log bounds, the other does. -/
def Rises (v w : ClockedLog) : Prop := ∀ h, v.Holds h → w.Bounds h

theorem Holds.bounds {v : ClockedLog} {h : Hlc} (hh : v.Holds h) : v.Bounds h := ⟨h, hh, le_rfl⟩

theorem Rises.bounds {v w : ClockedLog} (hr : v.Rises w) {h : Hlc} (hh : v.Bounds h) :
    w.Bounds h := by
  obtain ⟨h', hholds, hle⟩ := hh
  obtain ⟨h'', hholds', hle'⟩ := hr h' hholds
  exact ⟨h'', hholds', hle.trans hle'⟩

theorem Rises.refl (v : ClockedLog) : v.Rises v := fun _ h => h.bounds

theorem Rises.trans {v w x : ClockedLog} (h : v.Rises w) (h' : w.Rises x) : v.Rises x :=
  fun _ hh => h'.bounds (h _ hh)

/-- The invariant of the log and its clock: the clock has reached every stamp held. -/
structure Ahead (v : ClockedLog) : Prop where
  settled : v.log.Settled
  le_hlc : ∀ h, v.Holds h → h ≤ v.hlc
  fits : v.hlc.physicalMs ≤ storeMax
  mem_of_held : ∀ r, r.seq ≤ storeMax → (v.log.heldAt r).isSome →
    (r.stream, r.device) ∈ v.devices
  mem_of_floor : ∀ s dev, (v.floorHlc s dev).isSome → (s, dev) ∈ v.devices

variable {c : ChainHash} {v w : ClockedLog}

theorem Ahead.fits_of_holds (ha : v.Ahead) {h : Hlc} (hh : v.Holds h) :
    h.physicalMs ≤ storeMax := by
  have hle := Hlc.le_iff.mp (ha.le_hlc h hh)
  have hfits := ha.fits
  omega

theorem Ahead.of_bounds (ha : v.Ahead) {h : Hlc} (hh : v.Bounds h) : h ≤ v.hlc := by
  obtain ⟨h', hholds, hle⟩ := hh
  exact hle.trans (ha.le_hlc h' hholds)

theorem ahead_empty : (∅ : ClockedLog).Ahead where
  settled := fun _ _ => settled_empty
  le_hlc h hh := by
    cases hh with
    | row r env _ h => simp [EmptyCollection.emptyCollection, empty, heldAt, rowAt,
        OpLog.empty, DeviceLog.empty, Table.find, Table.empty] at h
    | floor s dev h hf => simp [EmptyCollection.emptyCollection, empty] at hf
  fits := Nat.zero_le _
  mem_of_held r _ h := by
    simp [EmptyCollection.emptyCollection, empty, heldAt, rowAt, OpLog.empty,
      DeviceLog.empty, Table.find, Table.empty] at h
  mem_of_floor s dev h := by simp [EmptyCollection.emptyCollection, empty] at h

/-! ### One write at a time -/

theorem holds_of_frame {log : OpLog} (h : log.frame = v.log.frame) (devices hlc) {x : Hlc} :
    Holds ⟨log, v.floorHlc, devices, hlc⟩ x ↔ v.Holds x := by
  constructor
  · intro hx
    cases hx with
    | row r env hr hh => exact .row r env hr (by rw [← heldAt_of_frame h]; exact hh)
    | floor s dev h hf => exact .floor s dev _ hf
  · intro hx
    cases hx with
    | row r env hr hh => exact .row r env hr (by rw [heldAt_of_frame h]; exact hh)
    | floor s dev h hf => exact .floor s dev _ hf

theorem Ahead.raise (ha : v.Ahead) {hlc : Hlc} (hle : v.hlc ≤ hlc)
    (hf : hlc.physicalMs ≤ storeMax) :
    ({ v with hlc } : ClockedLog).Ahead ∧ v.Rises { v with hlc } := by
  refine ⟨⟨ha.settled, fun h hh => ?_, hf, ha.mem_of_held, ha.mem_of_floor⟩, fun h hh => ?_⟩
  · exact (ha.le_hlc h ((holds_of_frame rfl _ _).mp hh)).trans hle
  · exact ((holds_of_frame rfl _ _).mpr hh).bounds

theorem Ahead.of_frame (ha : v.Ahead) {log : OpLog} (hs : log.Settled)
    (h : log.frame = v.log.frame) :
    ({ v with log } : ClockedLog).Ahead ∧ v.Rises { v with log } := by
  refine ⟨⟨hs, fun x hx => ?_, ha.fits, fun r hr hheld => ?_, ha.mem_of_floor⟩, fun x hx => ?_⟩
  · exact ha.le_hlc x ((holds_of_frame h _ _).mp hx)
  · exact ha.mem_of_held r hr (by rwa [← heldAt_of_frame h])
  · exact ((holds_of_frame h _ _).mpr hx).bounds

theorem Ahead.insert (ha : v.Ahead) {log : OpLog} {env : Envelope} {row : LogRow}
    (hs : log.Settled) (h : log.frame = (v.log.insertRow env row).frame)
    (hrow : row.env.hlc ≤ v.hlc)
    (hfree : ∀ held, v.log.heldAt env.ref = some held → held = row.env) :
    let v' : ClockedLog := { v with log, devices := (env.ref.stream, env.ref.device) :: v.devices }
    v'.Ahead ∧ v.Rises v' := by
  have hheld : ∀ r : OpRef, r.seq ≤ storeMax →
      log.heldAt r = if r = env.ref then some row.env else v.log.heldAt r := by
    intro r hr
    rw [heldAt_of_frame h, heldAt_insertRow row hr]
  refine ⟨⟨hs, fun x hx => ?_, ha.fits, fun r hr hr' => ?_, fun s dev hf => ?_⟩, fun x hx => ?_⟩
  · cases hx with
    | row r e hr hh =>
      have hh' : log.heldAt r = some e := hh
      rw [hheld r hr] at hh'
      split at hh'
      · rwa [← Option.some.inj hh']
      · exact ha.le_hlc _ (.row r e hr hh')
    | floor s dev h hf => exact ha.le_hlc _ (.floor s dev _ hf)
  · have hr'' : (log.heldAt r).isSome := hr'
    rw [hheld r hr] at hr''
    split at hr''
    next heq => rw [heq]; exact List.mem_cons_self
    next => exact List.mem_cons_of_mem _ (ha.mem_of_held r hr hr'')
  · exact List.mem_cons_of_mem _ (ha.mem_of_floor s dev hf)
  · cases hx with
    | row r e hr hh =>
      refine (Holds.row r e hr ?_).bounds
      show log.heldAt r = some e
      rw [hheld r hr]
      split
      next heq => rw [hfree e (heq ▸ hh)]
      next => exact hh
    | floor s dev h hf => exact ⟨x, .floor s dev x hf, le_rfl⟩

theorem Ahead.cons_devices (ha : v.Ahead) (d : StreamId × Device) :
    ({ v with devices := d :: v.devices } : ClockedLog).Ahead ∧
      v.Rises { v with devices := d :: v.devices } := by
  refine ⟨⟨ha.settled, fun h hh => ?_, ha.fits, fun r hr hh => ?_, fun s dev hf => ?_⟩,
    fun h hh => ?_⟩
  · exact ha.le_hlc h ((holds_of_frame rfl _ _).mp hh)
  · exact List.mem_cons_of_mem _ (ha.mem_of_held r hr hh)
  · exact List.mem_cons_of_mem _ (ha.mem_of_floor s dev hf)
  · exact ((holds_of_frame rfl _ _).mpr hh).bounds

theorem append_sealed (c : ChainHash) (v : ClockedLog) (now : ℕ) (draft : Envelope) :
    storeMax < (v.sealed now draft).ref.seq ∧
        v.append c now draft = { v with
          devices := (draft.ref.stream, draft.ref.device) :: v.devices
          hlc := v.hlc.send now } ∨
      (v.sealed now draft).ref.seq ≤ storeMax ∧
        ∃ row : LogRow, row.env = v.sealed now draft ∧
          (v.append c now draft).log.frame = (v.log.insertRow (v.sealed now draft) row).frame := by
  set env := v.sealed now draft with henv
  have happ : (v.append c now draft).log =
      if env.ref.seq ≤ storeMax then
        (v.log.insertRow env ⟨env, env.inner.kind, true, false, none⟩).advance c env
      else v.log := rfl
  by_cases hn : env.ref.seq ≤ storeMax
  · refine .inr ⟨hn, ⟨env, env.inner.kind, true, false, none⟩, rfl, ?_⟩
    rw [happ, if_pos hn]
    exact frame_advance ..
  · refine .inl ⟨not_le.mp hn, ?_⟩
    rw [if_neg hn] at happ
    show ClockedLog.mk (v.append c now draft).log _ _ _ = _
    rw [happ]

theorem heldAt_sealed (v : ClockedLog) (now : ℕ) (draft : Envelope)
    (hn : (v.sealed now draft).ref.seq ≤ storeMax) :
    v.log.heldAt (v.sealed now draft).ref = none := by
  rw [← Option.not_isSome_iff_eq_none, ← isSome_rowAt]
  unfold rowAt
  rw [i64Of_eq_self.mpr hn]
  intro h
  exact absurd (lt_nextSeq _ h) (lt_irrefl _)

theorem Ahead.append (ha : v.Ahead) (c : ChainHash) {now : ℕ} (hnow : now ≤ storeMax)
    (draft : Envelope) : (v.append c now draft).Ahead ∧ v.Rises (v.append c now draft) := by
  have hfits : (v.hlc.send now).physicalMs ≤ storeMax := by
    rw [Hlc.physicalMs_send]
    exact max_le ha.fits hnow
  obtain ⟨hb, hrise⟩ := ha.raise (v.hlc.le_send now) hfits
  have hset := (ha.settled.append c { draft with hlc := v.hlc.send now }).1
  rcases append_sealed c v now draft with ⟨-, heq⟩ | ⟨hn, row, hrow, hframe⟩
  · obtain ⟨hb', hrise'⟩ := hb.cons_devices (draft.ref.stream, draft.ref.device)
    rw [heq]
    exact ⟨hb', hrise.trans hrise'⟩
  · obtain ⟨hb', hrise'⟩ := hb.insert hset hframe (by rw [hrow]; exact le_rfl) fun held hh => by
      rw [show ({ v with hlc := v.hlc.send now } : ClockedLog).log = v.log from rfl,
        heldAt_sealed v now draft hn] at hh
      simp at hh
    exact ⟨hb', hrise.trans hrise'⟩

theorem observe_eq_some {received : Hlc} {now : ℕ} (h : v.observe received now = some w) :
    ∃ hlc, v.hlc.receive received now = some hlc ∧ w = { v with hlc } := by
  obtain ⟨hlc, hr, rfl⟩ := Option.map_eq_some_iff.mp h
  exact ⟨hlc, hr, rfl⟩

theorem observe_eq_none {received : Hlc} {now : ℕ} :
    v.observe received now = none ↔ v.hlc.receive received now = none := Option.map_eq_none_iff

theorem Ahead.observe (ha : v.Ahead) {received : Hlc} {now : ℕ} (hnow : now ≤ storeMax)
    (hrec : received.physicalMs ≤ storeMax) (h : v.observe received now = some w) :
    w.Ahead ∧ v.Rises w ∧ received ≤ w.hlc ∧ w.log = v.log ∧ w.floorHlc = v.floorHlc := by
  obtain ⟨hlc, hr, rfl⟩ := observe_eq_some h
  obtain ⟨hle, hrec', hms⟩ := Hlc.receive_spec hr
  have hfits : hlc.physicalMs ≤ storeMax := by
    rw [hms]
    exact max_le (max_le ha.fits hrec) hnow
  exact ⟨(ha.raise hle hfits).1, (ha.raise hle hfits).2, hrec', rfl, rfl⟩

theorem Ahead.deliver (ha : v.Ahead) (c : ChainHash) {now : ℕ} (hnow : now ≤ storeMax)
    {dl : Delivery} (hdl : dl.env.hlc.physicalMs ≤ storeMax) :
    (v.deliver c now dl).Ahead ∧ v.Rises (v.deliver c now dl) ∧
      (v.deliver c now dl).floorHlc = v.floorHlc := by
  cases hw : v.observe dl.env.hlc now with
  | none =>
    rw [deliver_of_none hw]
    exact ⟨ha, .refl v, rfl⟩
  | some w =>
    rw [deliver_of_some hw]
    obtain ⟨hb, hrise, hrec, hlog, hfl⟩ := ha.observe hnow hdl hw
    have hset := (hb.settled.deliver c dl).1
    rcases deliver_cases c w.log dl with ⟨hcore, -⟩ | ⟨row, hmax, hrow, hframe, -⟩
    · obtain ⟨hb', hrise'⟩ := hb.of_frame hset
        (frame_of_skeleton (skeleton_of_core hcore))
      obtain ⟨hb'', hrise''⟩ := hb'.cons_devices (dl.env.ref.stream, dl.env.ref.device)
      exact ⟨hb'', hrise.trans (hrise'.trans hrise''), hfl⟩
    · have hle : row.env.hlc ≤ w.hlc := by
        rcases hrow with ⟨-, heq⟩ | hheld
        · rw [heq]
          exact hrec
        · exact hb.le_hlc _ (.row _ _ hmax hheld)
      obtain ⟨hb', hrise'⟩ := hb.insert hset hframe hle fun held hh => by
        rcases hrow with ⟨hacc, -⟩ | hheld
        · rw [heldAt, hacc.2.2] at hh
          simp at hh
        · exact Option.some.inj (hh.symm.trans hheld)
      exact ⟨hb', hrise.trans hrise', hfl⟩

theorem Ahead.receiveRetained (ha : v.Ahead) (c : ChainHash) {retained : List (ℕ × Delivery)}
    (hret : ∀ dl ∈ retained, dl.1 ≤ storeMax ∧ dl.2.env.hlc.physicalMs ≤ storeMax) :
    (v.receiveRetained c retained).1.Ahead ∧ v.Rises (v.receiveRetained c retained).1 ∧
      (v.receiveRetained c retained).1.floorHlc = v.floorHlc := by
  induction retained generalizing v with
  | nil => exact ⟨ha, .refl v, rfl⟩
  | cons x retained ih =>
    obtain ⟨now, dl⟩ := x
    rw [receiveRetained_cons]
    by_cases hobs : (v.observe dl.env.hlc now).isSome
    · rw [if_pos hobs]
      obtain ⟨hnow, hdl⟩ := hret _ List.mem_cons_self
      obtain ⟨hb, hrise, hfl⟩ := ha.deliver c hnow hdl
      obtain ⟨hb', hrise', hfl'⟩ := ih hb fun dl hdl => hret dl (List.mem_cons_of_mem _ hdl)
      exact ⟨hb', hrise.trans hrise', hfl'.trans hfl⟩
    · rw [if_neg hobs]
      exact ⟨ha, .refl v, rfl⟩

/-! ### Compactions -/

/-- The stamps a compaction of a device to `target` drops: those of the rows it deletes,
and that of the floor it writes over. -/
inductive Drops (v : ClockedLog) (view : CompactionView) (s : StreamId) (dev : Device)
    (target : ℕ) : Hlc → Prop where
  | row (n : ℕ) (row : LogRow) (h : (v.log.devs s dev).rows.find n = some row)
    (hd : v.log.deletable view s dev target n row = true) : v.Drops view s dev target row.env.hlc
  | floor (h : Hlc) (hf : v.floorHlc s dev = some h) : v.Drops view s dev target h

/-- Every floor a compaction raises, it raises to an op stamped at or above what it drops
there. -/
def CompactsRising (v : ClockedLog) (view : CompactionView) (s : StreamId) : Prop :=
  ∀ dev target row,
    compactionTarget (v.log.devs s dev) (view.acknowledged dev) view.cutoff = some target →
    (v.log.devs s dev).rows.find target = some row →
    ∀ h, v.Drops view s dev target h → h ≤ row.env.hlc

theorem find_compactDevice (c : ChainHash) {log : OpLog} (view : CompactionView) {s : StreamId}
    {dev : Device} (hs : (log.devs s dev).Sound) :
    (log.compactDevice c view s dev).frame = (log.devs s dev).frame ∨
      ∃ target top, compactionTarget (log.devs s dev) (view.acknowledged dev) view.cutoff =
          some target ∧
        (log.devs s dev).rows.find target = some top ∧
        (log.devs s dev).floorSeq < target ∧
        (log.compactDevice c view s dev).floorSeq = target ∧
        ∀ n, ((log.compactDevice c view s dev).rows.find n).map (·.env) =
          ((log.devs s dev).rows.find n).bind fun row =>
            if log.deletable view s dev target n row then none else some row.env := by
  rcases compactDevice_cases c view hs with h | ⟨target, top, root, hlt, htop, hfloor, hrows⟩
  · exact .inl h
  have hseq : (log.compactDevice c view s dev).floorSeq = target := by
    unfold floorSeq
    rw [hfloor]
    rfl
  refine .inr ⟨target, top, ?_, htop, hlt, hseq, fun n => ?_⟩
  · rcases log.compactDevice_spec c view s dev with hskel | ⟨target', opHash, root', ht, -, -, heq⟩
    · rw [floorSeq_of_skeleton hskel] at hseq
      omega
    · obtain ⟨hlt', -, -, top', htop', -⟩ := compactionTarget_spec ht
      have hmax : target' ≤ storeMax := hs.bounded target' (by simp [htop'])
      have hseq' : (log.compactDevice c view s dev).floorSeq = target' := by
        rw [heq]
        show (raiseFloor _ _).floorSeq = _
        rw [floorSeq_raiseFloor,
          floorSeq_of_skeleton (skeleton_foldChain ..),
          if_neg (Nat.not_le.mpr hlt'), i64Of_eq_self]
        exact hmax
      rw [ht, ← hseq', hseq]
  · have h := congrArg (Option.map LogRow.env) (hrows n)
    rw [Option.map_map] at h
    refine h.trans ?_
    cases (log.devs s dev).rows.find n with
    | none => rfl
    | some row =>
      simp only [Option.bind_some]
      split <;> rfl

theorem devs_compact (c : ChainHash) (log : OpLog) (view : CompactionView) (s s' : StreamId)
    (dev : Device) :
    (log.compactStream c view s).devs s' dev = log.devs s' dev ∨
      s' = s ∧ (log.compactStream c view s).devs s' dev = log.compactDevice c view s dev := by
  unfold OpLog.compactStream
  dsimp only
  split
  next h => exact .inr ⟨h.1, rfl⟩
  next => exact .inl rfl

theorem find_of_heldAt {log : OpLog} {r : OpRef} {env : Envelope} (hr : r.seq ≤ storeMax)
    (h : log.heldAt r = some env) :
    ∃ row, (log.devs r.stream r.device).rows.find r.seq = some row ∧ row.env = env := by
  unfold heldAt rowAt at h
  rw [i64Of_eq_self.mpr hr] at h
  exact Option.map_eq_some_iff.mp h

theorem heldAt_of_find {log : OpLog} {s : StreamId} {dev : Device} {n : ℕ} {row : LogRow}
    (hn : n ≤ storeMax) (h : (log.devs s dev).rows.find n = some row) :
    log.heldAt ⟨s, dev, n⟩ = some row.env := by
  unfold heldAt rowAt
  dsimp only
  rw [i64Of_eq_self.mpr hn, h]
  rfl

theorem Ahead.compactedHlc (ha : v.Ahead) (c : ChainHash) (view : CompactionView)
    (s s' : StreamId) (dev : Device) :
    (∀ n, n ≤ storeMax → (v.log.compactStream c view s).heldAt ⟨s', dev, n⟩ =
        v.log.heldAt ⟨s', dev, n⟩) ∧
      v.compactedHlc (v.log.compactStream c view s) s' dev = v.floorHlc s' dev ∨
    ∃ target top, s' = s ∧ OpLog.compactionTarget (v.log.devs s dev) (view.acknowledged dev)
          view.cutoff = some target ∧
        (v.log.devs s dev).rows.find target = some top ∧ target ≤ storeMax ∧
        v.compactedHlc (v.log.compactStream c view s) s' dev = some top.env.hlc ∧
        ∀ n, n ≤ storeMax → (v.log.compactStream c view s).heldAt ⟨s', dev, n⟩ =
          ((v.log.devs s dev).rows.find n).bind fun row =>
            if v.log.deletable view s dev target n row then none else some row.env := by
  have hsame : ∀ d : DeviceLog, (v.log.compactStream c view s).devs s' dev = d →
      d.frame = (v.log.devs s' dev).frame →
      (∀ n, n ≤ storeMax → (v.log.compactStream c view s).heldAt ⟨s', dev, n⟩ =
        v.log.heldAt ⟨s', dev, n⟩) ∧
      v.compactedHlc (v.log.compactStream c view s) s' dev = v.floorHlc s' dev := by
    intro d hd hframe
    constructor
    · intro n hn
      have h := congrFun (congrArg Prod.fst hframe) (i64Of n)
      have h' := congrArg (Option.map LogRow.env) h
      simp only [DeviceLog.frame, Option.map_map] at h'
      unfold OpLog.heldAt OpLog.rowAt
      dsimp only
      rw [hd]
      exact h'
    · have hfl : d.floorSeq = (v.log.devs s' dev).floorSeq := by
        unfold DeviceLog.floorSeq
        rw [show d.floor = (v.log.devs s' dev).floor from congrArg Prod.snd hframe]
      unfold ClockedLog.compactedHlc
      dsimp only
      rw [hd, hfl, if_neg (lt_irrefl _)]
  rcases devs_compact c v.log view s s' dev with hdev | ⟨rfl, hdev⟩
  · exact .inl (hsame _ hdev rfl)
  rcases find_compactDevice c view (ha.settled s' dev).toSound with
    hframe | ⟨target, top, htarget, htop, hlt, hseq, hrows⟩
  · exact .inl (hsame _ hdev hframe)
  have hmax : target ≤ storeMax := (ha.settled s' dev).bounded target (by simp [htop])
  refine .inr ⟨target, top, rfl, htarget, htop, hmax, ?_, fun n hn => ?_⟩
  · unfold ClockedLog.compactedHlc
    dsimp only
    rw [hdev, hseq, if_pos hlt, heldAt_of_find hmax htop, Option.map_some,
      Hlc.stored_eq_self (ha.fits_of_holds (.row _ _ hmax (heldAt_of_find hmax htop)))]
  · rw [← hrows n]
    unfold OpLog.heldAt OpLog.rowAt
    dsimp only
    rw [hdev, i64Of_eq_self.mpr hn]

theorem Ahead.compactStream (ha : v.Ahead) (c : ChainHash) (view : CompactionView)
    (s : StreamId) :
    (v.compactStream c view s).Ahead ∧
      (v.CompactsRising view s → v.Rises (v.compactStream c view s)) := by
  have hsub : ∀ r env, r.seq ≤ storeMax →
      (v.log.compactStream c view s).heldAt r = some env → v.log.heldAt r = some env := by
    intro r env hr hh
    rcases ha.compactedHlc c view s r.stream r.device with ⟨hrows, -⟩ |
        ⟨target, top, hs, -, -, -, -, hrows⟩
    · rw [← hrows r.seq hr]
      exact hh
    · rw [hrows r.seq hr] at hh
      obtain ⟨row, hrow, hif⟩ := Option.bind_eq_some_iff.mp hh
      split at hif
      · simp at hif
      · rw [← Option.some.inj hif, ← heldAt_of_find hr hrow, ← hs]
  have hfloors : ∀ s' dev h, v.compactedHlc (v.log.compactStream c view s) s' dev = some h →
      v.Holds h ∧ (s', dev) ∈ v.devices := by
    intro s' dev h hh
    rcases ha.compactedHlc c view s s' dev with ⟨-, heq⟩ |
        ⟨target, top, rfl, -, htop, hmax, heq, -⟩
    · rw [heq] at hh
      exact ⟨.floor s' dev h hh, ha.mem_of_floor s' dev (by rw [hh]; rfl)⟩
    · rw [heq] at hh
      have hheld := heldAt_of_find hmax htop
      exact ⟨Option.some.inj hh ▸ .row _ _ hmax hheld,
        ha.mem_of_held ⟨s', dev, target⟩ hmax (by rw [hheld]; rfl)⟩
  refine ⟨⟨(ha.settled.compactStream c view s).1, fun h hh => ?_, ha.fits, fun r hr hh => ?_,
    fun s' dev hh => ?_⟩, fun hrising h hh => ?_⟩
  · cases hh with
    | row r env hr hheld => exact ha.le_hlc _ (.row r env hr (hsub r env hr hheld))
    | floor s' dev h hf => exact ha.le_hlc _ (hfloors s' dev h hf).1
  · obtain ⟨env, henv⟩ := Option.isSome_iff_exists.mp hh
    exact ha.mem_of_held r hr (by rw [hsub r env hr henv]; rfl)
  · obtain ⟨h, hh⟩ := Option.isSome_iff_exists.mp hh
    exact (hfloors s' dev h hh).2
  · cases hh with
    | row r env hr hheld =>
      rcases ha.compactedHlc c view s r.stream r.device with ⟨hrows, -⟩ |
          ⟨target, top, hs, htarget, htop, -, hfl, hrows⟩
      · exact (Holds.row r env hr (by rw [← hheld]; exact hrows r.seq hr)).bounds
      · obtain ⟨row, hrow, rfl⟩ := find_of_heldAt hr hheld
        rw [hs] at hrow
        cases hdel : v.log.deletable view s r.device target r.seq row with
        | true =>
          -- the floor now stands for the row
          exact ⟨_, .floor r.stream r.device _ hfl,
            hrising r.device target top htarget htop _ (.row r.seq row hrow hdel)⟩
        | false =>
          refine (Holds.row r row.env hr ?_).bounds
          show (v.log.compactStream c view s).heldAt r = _
          refine (hrows r.seq hr).trans ?_
          rw [hrow, Option.bind_some, hdel]
          rfl
    | floor s' dev h hf =>
      rcases ha.compactedHlc c view s s' dev with ⟨-, hfl⟩ |
          ⟨target, top, rfl, htarget, htop, -, hfl, -⟩
      · exact ⟨h, .floor s' dev h (hfl.trans hf), le_rfl⟩
      · exact ⟨_, .floor s' dev _ hfl,
          hrising dev target top htarget htop h (.floor h hf)⟩

end ClockedLog

end Sunrise
