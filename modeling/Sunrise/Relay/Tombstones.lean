import Mathlib.Data.List.Sort
import Sunrise.Lib.Table
import Sunrise.Stamp
import Sunrise.Sync.Frame

/-!
# Collecting deleted blobs

A deleted blob leaves a tombstone behind, which names the op that detached it. The relay cannot
read whether a device has applied that op, so it goes by the cursors the devices declare when they
subscribe: the blob is collected once every active device has declared one at or past it.

The declarations are kept one row for each device, stream and origin, and a subscribe writes over
the rows it names and leaves the others. So the rows can hold more than the device last declared,
and a device that declares no cursor at all does not show as active.

* `latestDeclared`, `SubscribedSince`, `tombstoneInForce` — what the calls so far come to.

## Main results

* `collectableBlobs_sound` — **a blob is collected only when every active device has seen its
  deletion**, in every run of complete calls.
-/

namespace Sunrise

/-! ### The tables -/

abbrev AccountId := ℕ

/-- A device's row at the relay. Its vault knows it by another id. -/
abbrev RelayDevice := ℕ

abbrev BlobKey := ℕ

/-- A number of 64 bits, as a column holds it. -/
def signed (v : ℕ) : ℕ := min v (2 ^ 63 - 1)

/-- A registered device. -/
structure RelayDeviceRow where
  accountId : AccountId
  vaultDeviceId : Option Device
  revoked : Bool
deriving DecidableEq

/-- The op whose application retires a blob. -/
structure NewTombstone where
  blobKey : BlobKey
  streamId : StreamId
  originDevice : Device
  seq : ℕ
  deletedBy : Option RelayDevice
deriving DecidableEq

/-- A tombstone as it is stored. -/
structure TombstoneRow where
  streamId : StreamId
  originDevice : Device
  seq : ℕ
  deletedBy : Option RelayDevice
  tombstonedAtMs : ℕ
deriving DecidableEq

structure DeclaredCursor where
  streamId : StreamId
  originDevice : Device
  /-- The highest op of the origin that the device has applied. -/
  appliedSeq : ℕ
deriving DecidableEq

/-- A declared cursor as it is stored. -/
structure CursorRow where
  appliedSeq : ℕ
  reportedAtMs : ℕ
deriving DecidableEq

abbrev CursorKey := RelayDevice ×ₗ (StreamId ×ₗ Device)

def cursorKey (device : RelayDevice) (stream : StreamId) (origin : Device) : CursorKey :=
  toLex (device, toLex (stream, origin))

/-- The tables of the relay that collecting reads. -/
structure ServerStore where
  devices : Table RelayDevice RelayDeviceRow
  tombstones : Table (AccountId ×ₗ BlobKey) TombstoneRow
  cursors : Table CursorKey CursorRow
  streamSnapshots : Table (AccountId ×ₗ StreamId) BlobKey
  keyBundles : Table AccountId BlobKey

open ServerStore

/-- A relay with no account. -/
def ServerStore.empty : ServerStore := ⟨∅, ∅, ∅, ∅, ∅⟩

/-- What pinning a key bundle comes to. -/
inductive KeyBundlePinned where
  /-- It is pinned; the blob of the bundle it took the place of. -/
  | pinned (released : Option BlobKey)
  | superseded
deriving DecidableEq

/-- The cursors of a subscribe, in the order they stand in. -/
def declaredCursors (streams : List SubscribeEntry) : List DeclaredCursor :=
  streams.flatMap fun s => s.cursors.map fun c => ⟨s.streamId, c.deviceId, c.lastAppliedSeq⟩

namespace ServerStore

/-! ### The calls -/

def registerDevice (s : ServerStore) (device : RelayDevice) (account : AccountId)
    (vaultDeviceId : Option Device) : Option ServerStore :=
  match s.devices.find device with
  | some _ => none
  | none => some { s with devices := s.devices.upsert device ⟨account, vaultDeviceId, false⟩ }

/-- A device that belongs to this account and is not revoked. -/
def activeDevice (s : ServerStore) (account : AccountId) (device : RelayDevice) :
    Option RelayDeviceRow :=
  (s.devices.find device).filter fun row => row.accountId = account && !row.revoked

def revokeDevice (s : ServerStore) (account : AccountId) (device : RelayDevice) :
    Option ServerStore :=
  (s.activeDevice account device).map fun row =>
    { s with devices := s.devices.upsert device { row with revoked := true } }

def revokeDevicesByVaultId (s : ServerStore) (account : AccountId) (vaultId : Device) :
    Option ServerStore :=
  let named := fun row : RelayDeviceRow =>
    row.accountId = account && row.vaultDeviceId = some vaultId && !row.revoked
  if s.devices.rows.any fun r => named r.2 then
    some { s with
      devices := s.devices.mapValues fun _ row =>
        if named row then { row with revoked := true } else row }
  else none

/-- Record a tombstone. A blob that has one keeps it. -/
def tombstoneBlob (s : ServerStore) (account : AccountId) (t : NewTombstone) (nowMs : ℕ) :
    ServerStore :=
  { s with
    tombstones := s.tombstones.insertOrIgnore (toLex (account, t.blobKey))
      ⟨t.streamId, t.originDevice, signed t.seq, t.deletedBy, signed nowMs⟩ }

/-- Forget a tombstone: the blob came back, or was collected. -/
def clearTombstone (s : ServerStore) (account : AccountId) (blob : BlobKey) : ServerStore :=
  { s with tombstones := s.tombstones.erase (toLex (account, blob)) }

def recordCursor (device : RelayDevice) (nowMs : ℕ) (cursors : Table CursorKey CursorRow)
    (c : DeclaredCursor) : Table CursorKey CursorRow :=
  cursors.upsert (cursorKey device c.streamId c.originDevice) ⟨signed c.appliedSeq, signed nowMs⟩

def recordCursors (s : ServerStore) (device : RelayDevice) (cursors : List DeclaredCursor)
    (nowMs : ℕ) : ServerStore :=
  { s with cursors := cursors.foldl (recordCursor device nowMs) s.cursors }

/-- Subscribe a session to streams. A caller that signed with no device declares nothing; one that
signed with a device is let in only while that is active. -/
def subscribe (s : ServerStore) (account : AccountId) (device : Option RelayDevice)
    (streams : List SubscribeEntry) (nowMs : ℕ) : Option ServerStore :=
  match device with
  | none => some s
  | some device => (s.activeDevice account device).map fun _ =>
      s.recordCursors device (declaredCursors streams) nowMs

def pinSnapshot (s : ServerStore) (account : AccountId) (stream : StreamId) (blob : BlobKey) :
    ServerStore × Option BlobKey :=
  let pins := s.streamSnapshots.upsert (toLex (account, stream)) blob
  let released := (s.streamSnapshots.find (toLex (account, stream))).filter fun old =>
    old ≠ blob && !(pins.rows.any fun r => (ofLex r.1).1 = account && r.2 = old)
  ({ s with streamSnapshots := pins }, released)

def pinKeyBundle (s : ServerStore) (account : AccountId) (blob : BlobKey)
    (replaces : Option BlobKey) : ServerStore × KeyBundlePinned :=
  let before := s.keyBundles.find account
  if before ≠ replaces then (s, .superseded)
  else ({ s with keyBundles := s.keyBundles.upsert account blob },
    .pinned (before.filter fun old => old ≠ blob))

/-! ### What may be collected -/

def active (s : ServerStore) (device : RelayDevice) (activeSinceMs : ℕ) : Bool :=
  s.cursors.rows.any fun c => (ofLex c.1).1 = device && signed activeSinceMs ≤ c.2.reportedAtMs

/-- A device has declared a cursor at or past the op of a tombstone. -/
def acknowledged (s : ServerStore) (device : RelayDevice) (t : TombstoneRow) : Bool :=
  s.cursors.rows.any fun c =>
    c.1 = cursorKey device t.streamId t.originDevice && t.seq ≤ c.2.appliedSeq

/-- A tombstone waits for a device of its account that has not acknowledged it. -/
def awaited (s : ServerStore) (account : AccountId) (t : TombstoneRow) (activeSinceMs : ℕ) : Bool :=
  s.devices.rows.any fun d =>
    d.2.accountId = account && !d.2.revoked && some d.1 ≠ t.deletedBy &&
      s.active d.1 activeSinceMs && !s.acknowledged d.1 t

def pinned (s : ServerStore) (account : AccountId) (blob : BlobKey) : Bool :=
  (s.streamSnapshots.rows.any fun p => (ofLex p.1).1 = account && p.2 = blob) ||
    s.keyBundles.rows.any fun p => p.1 = account && p.2 = blob

/-- The blobs that may be collected, the oldest tombstone first. -/
def collectableBlobs (s : ServerStore) (tombstonedByMs activeSinceMs : ℕ) :
    List (AccountId × BlobKey) :=
  let due := s.tombstones.rows.filter fun t =>
    t.2.tombstonedAtMs ≤ signed tombstonedByMs &&
      !s.awaited (ofLex t.1).1 t.2 activeSinceMs && !s.pinned (ofLex t.1).1 (ofLex t.1).2
  (due.insertionSort fun t t' => t.2.tombstonedAtMs ≤ t'.2.tombstonedAtMs).map fun t => ofLex t.1

end ServerStore

/-! ### Runs -/

inductive RelayCall where
  | register (device : RelayDevice) (account : AccountId) (vaultDeviceId : Option Device)
  | revoke (account : AccountId) (device : RelayDevice)
  | revokeByVaultId (account : AccountId) (vaultId : Device)
  | subscribe (account : AccountId) (device : Option RelayDevice) (streams : List SubscribeEntry)
    (nowMs : ℕ)
  | tombstone (account : AccountId) (t : NewTombstone) (nowMs : ℕ)
  | clear (account : AccountId) (blob : BlobKey)
  | pinSnapshot (account : AccountId) (stream : StreamId) (blob : BlobKey)
  | pinKeyBundle (account : AccountId) (blob : BlobKey) (replaces : Option BlobKey)
deriving DecidableEq

/-- What a call leaves, if it is not refused. -/
def RelayCall.apply (s : ServerStore) : RelayCall → Option ServerStore
  | .register device account vaultDeviceId => s.registerDevice device account vaultDeviceId
  | .revoke account device => s.revokeDevice account device
  | .revokeByVaultId account vaultId => s.revokeDevicesByVaultId account vaultId
  | .subscribe account device streams nowMs => s.subscribe account device streams nowMs
  | .tombstone account t nowMs => some (s.tombstoneBlob account t nowMs)
  | .clear account blob => some (s.clearTombstone account blob)
  | .pinSnapshot account stream blob => some (s.pinSnapshot account stream blob).1
  | .pinKeyBundle account blob replaces => some (s.pinKeyBundle account blob replaces).1

/-- The store after these calls, the newest first, each of which was let through and met `P` in
the store it came to. -/
inductive RelayRun (P : ServerStore → RelayCall → Prop) : List RelayCall → ServerStore → Prop
  | empty : RelayRun P [] .empty
  | call {calls : List RelayCall} {s s' : ServerStore} {call : RelayCall} :
    RelayRun P calls s → P s call → call.apply s = some s' → RelayRun P (call :: calls) s'

/-! ### What the calls so far come to -/

def latestDeclared : List RelayCall → RelayDevice → StreamId → Option (List DeclaredCursor)
  | [], _, _ => none
  | .subscribe _ (some d) streams _ :: calls, device, stream =>
    if d = device ∧ stream ∈ streams.map SubscribeEntry.streamId then
      some ((declaredCursors streams).filter fun c => c.streamId = stream)
    else latestDeclared calls device stream
  | _ :: calls, device, stream => latestDeclared calls device stream

/-- A device subscribed at or after this time. -/
def SubscribedSince (calls : List RelayCall) (device : RelayDevice) (sinceMs : ℕ) : Prop :=
  ∃ account streams nowMs,
    .subscribe account (some device) streams nowMs ∈ calls ∧ sinceMs ≤ nowMs

/-- The tombstone of a blob, and when it was recorded: the first since the blob last came back. -/
def tombstoneInForce : List RelayCall → AccountId → BlobKey → Option (NewTombstone × ℕ)
  | [], _, _ => none
  | .tombstone a t nowMs :: calls, account, blob =>
    if a = account ∧ t.blobKey = blob then
      (tombstoneInForce calls account blob).or (some (t, nowMs))
    else tombstoneInForce calls account blob
  | .clear a b :: calls, account, blob =>
    if a = account ∧ b = blob then none else tombstoneInForce calls account blob
  | _ :: calls, account, blob => tombstoneInForce calls account blob

/-- A blob may be collected: it was deleted by the first time, nothing pins it, and every active
device of its account but the one that deleted it, if it subscribed since the second time, declared
a cursor at or past the deletion when it last named the stream. -/
def MayCollect (calls : List RelayCall) (s : ServerStore) (tombstonedByMs activeSinceMs : ℕ)
    (account : AccountId) (blob : BlobKey) : Prop :=
  ∃ t tombstonedAtMs, tombstoneInForce calls account blob = some (t, tombstonedAtMs) ∧
    tombstonedAtMs ≤ tombstonedByMs ∧
    (∀ stream, s.streamSnapshots.find (toLex (account, stream)) ≠ some blob) ∧
    s.keyBundles.find account ≠ some blob ∧
    ∀ device row, s.devices.find device = some row → row.accountId = account →
      row.revoked = false → t.deletedBy ≠ some device →
      SubscribedSince calls device activeSinceMs →
      ∃ cursors, latestDeclared calls device t.streamId = some cursors ∧
        ∃ c ∈ cursors, c.originDevice = t.originDevice ∧ t.seq ≤ c.appliedSeq

/-- What a device subscribes with is complete: it declares a cursor, names again every origin it
has a row for in the streams it names, and the clock is not behind the stamps of its rows. What is
deleted, and when, fits its column. -/
def RelayCall.Complete (s : ServerStore) : RelayCall → Prop
  | .subscribe _ (some device) streams nowMs =>
    declaredCursors streams ≠ [] ∧
    ∀ stream origin row, s.cursors.find (cursorKey device stream origin) = some row →
      row.reportedAtMs ≤ nowMs ∧
      (stream ∈ streams.map SubscribeEntry.streamId →
        ∃ c ∈ declaredCursors streams, c.streamId = stream ∧ c.originDevice = origin)
  | .tombstone _ t nowMs => t.seq < 2 ^ 63 ∧ nowMs < 2 ^ 63
  | _ => True

/-! ### What a call changes -/

variable {P : ServerStore → RelayCall → Prop} {calls : List RelayCall} {s s' : ServerStore}
  {call : RelayCall} {device : RelayDevice} {account : AccountId} {blob : BlobKey}

theorem signed_mono {a b : ℕ} (h : a ≤ b) : signed a ≤ signed b := by
  unfold signed
  omega

theorem signed_of_lt {v : ℕ} (h : v < 2 ^ 63) : signed v = v := min_eq_left (by omega)

theorem cursorKey_inj {d d' : RelayDevice} {st st' : StreamId} {o o' : Device} :
    cursorKey d st o = cursorKey d' st' o' ↔ d = d' ∧ st = st' ∧ o = o' := by
  simp [cursorKey]

def RelayCall.cursorsAfter (s : ServerStore) : RelayCall → Table CursorKey CursorRow
  | .subscribe _ (some device) streams nowMs =>
    (declaredCursors streams).foldl (recordCursor device nowMs) s.cursors
  | _ => s.cursors

/-- The tombstones after a call: only a deletion and its undoing change them. -/
def RelayCall.tombstonesAfter (s : ServerStore) :
    RelayCall → Table (AccountId ×ₗ BlobKey) TombstoneRow
  | .tombstone account t nowMs => (s.tombstoneBlob account t nowMs).tombstones
  | .clear account blob => (s.clearTombstone account blob).tombstones
  | _ => s.tombstones

/-- **What a call does to the cursors and the tombstones.** -/
theorem RelayCall.apply_frame (h : call.apply s = some s') :
    s'.cursors = call.cursorsAfter s ∧ s'.tombstones = call.tombstonesAfter s := by
  cases call with
  | register device account vaultDeviceId =>
    simp only [apply, ServerStore.registerDevice] at h
    split at h
    · cases h
    · cases h
      exact ⟨rfl, rfl⟩
  | revoke account device =>
    obtain ⟨row, -, rfl⟩ := Option.map_eq_some_iff.mp h
    exact ⟨rfl, rfl⟩
  | revokeByVaultId account vaultId =>
    simp only [apply, ServerStore.revokeDevicesByVaultId] at h
    split at h
    · cases h
      exact ⟨rfl, rfl⟩
    · cases h
  | subscribe account device streams nowMs =>
    cases device with
    | none =>
      cases h
      exact ⟨rfl, rfl⟩
    | some device =>
      obtain ⟨row, -, rfl⟩ := Option.map_eq_some_iff.mp h
      exact ⟨rfl, rfl⟩
  | pinKeyBundle account blob replaces =>
    cases h
    simp only [ServerStore.pinKeyBundle]
    split <;> exact ⟨rfl, rfl⟩
  | tombstone | clear | pinSnapshot =>
    cases h
    exact ⟨rfl, rfl⟩

/-! ### The rows a subscribe leaves -/

/-- The row of a key after a subscribe is from the last cursor it declares there, or the row that
was there. -/
theorem find_foldl_recordCursor (nowMs : ℕ) (l : List DeclaredCursor)
    (cursors : Table CursorKey CursorRow) (key : CursorKey) :
    (l.foldl (recordCursor device nowMs) cursors).find key =
      ((l.filter fun c => cursorKey device c.streamId c.originDevice = key).getLast?.map
        fun c => ⟨signed c.appliedSeq, signed nowMs⟩).or (cursors.find key) := by
  have h := Table.find_foldl_upsert_last (fun _ => true)
    (fun c : DeclaredCursor => cursorKey device c.streamId c.originDevice)
    (fun c => (⟨signed c.appliedSeq, signed nowMs⟩ : CursorRow)) l cursors key
  simp only [if_true, Bool.true_and] at h
  exact h

theorem of_find_foldl_recordCursor {nowMs : ℕ} {l : List DeclaredCursor}
    {cursors : Table CursorKey CursorRow} {key : CursorKey} {row : CursorRow}
    (h : (l.foldl (recordCursor device nowMs) cursors).find key = some row) :
    (∃ c ∈ l, cursorKey device c.streamId c.originDevice = key ∧
      row = ⟨signed c.appliedSeq, signed nowMs⟩) ∨
    (∀ c ∈ l, cursorKey device c.streamId c.originDevice ≠ key) ∧ cursors.find key = some row := by
  rw [find_foldl_recordCursor] at h
  cases hlast : (l.filter fun c => cursorKey device c.streamId c.originDevice = key).getLast? with
  | none =>
    rw [hlast] at h
    refine .inr ⟨fun c hc heq => ?_, h⟩
    have hnil := List.getLast?_eq_none_iff.mp hlast
    exact List.filter_eq_nil_iff.mp hnil c hc (decide_eq_true heq)
  | some c =>
    rw [hlast] at h
    obtain ⟨hc, hkey⟩ := List.mem_filter.mp (List.mem_of_getLast? hlast)
    exact .inl ⟨c, hc, of_decide_eq_true hkey, (Option.some.inj h).symm⟩

theorem find_foldl_recordCursor_of_mem {nowMs : ℕ} {l : List DeclaredCursor}
    (cursors : Table CursorKey CursorRow) {c : DeclaredCursor} (hc : c ∈ l) :
    ∃ row, (l.foldl (recordCursor device nowMs) cursors).find
      (cursorKey device c.streamId c.originDevice) = some row ∧
      row.reportedAtMs = signed nowMs := by
  rw [find_foldl_recordCursor]
  cases hlast : (l.filter fun c' => cursorKey device c'.streamId c'.originDevice =
      cursorKey device c.streamId c.originDevice).getLast? with
  | none =>
    have hnil := List.getLast?_eq_none_iff.mp hlast
    exact absurd (decide_eq_true rfl) (List.filter_eq_nil_iff.mp hnil c hc)
  | some c' => exact ⟨_, rfl, rfl⟩

theorem active_iff {sinceMs : ℕ} : s.active device sinceMs = true ↔
    ∃ stream origin row, s.cursors.find (cursorKey device stream origin) = some row ∧
      signed sinceMs ≤ row.reportedAtMs := by
  simp only [active, List.any_eq_true, Bool.and_eq_true, decide_eq_true_eq]
  constructor
  · rintro ⟨⟨key, row⟩, hmem, rfl, hle⟩
    exact ⟨_, _, row, Table.mem_rows.mp hmem, hle⟩
  · rintro ⟨stream, origin, row, hfind, hle⟩
    exact ⟨(cursorKey device stream origin, row), Table.mem_rows.mpr hfind, rfl, hle⟩

theorem acknowledged_iff {t : TombstoneRow} : s.acknowledged device t = true ↔
    ∃ row, s.cursors.find (cursorKey device t.streamId t.originDevice) = some row ∧
      t.seq ≤ row.appliedSeq := by
  simp only [acknowledged, List.any_eq_true, Bool.and_eq_true, decide_eq_true_eq]
  constructor
  · rintro ⟨⟨key, row⟩, hmem, rfl, hle⟩
    exact ⟨row, Table.mem_rows.mp hmem, hle⟩
  · rintro ⟨row, hfind, hle⟩
    exact ⟨(_, row), Table.mem_rows.mpr hfind, rfl, hle⟩

/-! ### Runs of complete calls -/

/-- The cursors are what the devices last declared: a row is from the latest subscribe that names
its stream, and a device that subscribed shows as active. -/
structure ServerStore.Declared (calls : List RelayCall) (s : ServerStore) : Prop where
  latest : ∀ {device stream origin row},
    s.cursors.find (cursorKey device stream origin) = some row →
    ∃ cursors, latestDeclared calls device stream = some cursors ∧
      ∃ c ∈ cursors, c.originDevice = origin ∧ row.appliedSeq ≤ c.appliedSeq
  active : ∀ {device sinceMs}, SubscribedSince calls device sinceMs →
    s.active device sinceMs = true
  stamp_le : ∀ {key row}, s.cursors.find key = some row → row.reportedAtMs ≤ 2 ^ 63 - 1

/-- The tombstones are those in force, and fit their columns. -/
structure ServerStore.Deleted (calls : List RelayCall) (s : ServerStore) : Prop where
  find_eq : ∀ account blob, s.tombstones.find (toLex (account, blob)) =
    (tombstoneInForce calls account blob).map fun p =>
      ⟨p.1.streamId, p.1.originDevice, signed p.1.seq, p.1.deletedBy, signed p.2⟩
  fits : ∀ {account blob t nowMs}, tombstoneInForce calls account blob = some (t, nowMs) →
    t.seq < 2 ^ 63 ∧ nowMs < 2 ^ 63

theorem declared_of_other
    (h : ∀ account device streams nowMs, call ≠ .subscribe account (some device) streams nowMs) :
    (∀ device stream, latestDeclared (call :: calls) device stream =
      latestDeclared calls device stream) ∧
    (∀ device sinceMs, SubscribedSince (call :: calls) device sinceMs →
      SubscribedSince calls device sinceMs) ∧
    call.cursorsAfter s = s.cursors := by
  refine ⟨fun device stream => ?_, ?_, ?_⟩
  · cases call with
    | subscribe account d streams nowMs =>
      cases d with
      | none => rfl
      | some d => exact absurd rfl (h account d streams nowMs)
    | _ => rfl
  · rintro device sinceMs ⟨account, streams, nowMs, hmem, hle⟩
    rcases List.mem_cons.mp hmem with rfl | hmem
    · exact absurd rfl (h account device streams nowMs)
    · exact ⟨account, streams, nowMs, hmem, hle⟩
  · cases call with
    | subscribe account d streams nowMs =>
      cases d with
      | none => rfl
      | some d => exact absurd rfl (h account d streams nowMs)
    | _ => rfl

theorem mem_streamId_of_declared {streams : List SubscribeEntry} {c : DeclaredCursor}
    (h : c ∈ declaredCursors streams) : c.streamId ∈ streams.map SubscribeEntry.streamId := by
  obtain ⟨entry, hentry, hc⟩ := List.mem_flatMap.mp h
  obtain ⟨p, -, rfl⟩ := List.mem_map.mp hc
  exact List.mem_map_of_mem hentry

/-- **A complete subscribe leaves the cursors what the devices last declared.** -/
theorem ServerStore.Declared.subscribe {streams : List SubscribeEntry} {nowMs : ℕ}
    (h : s.Declared calls)
    (hcomplete : (RelayCall.subscribe account (some device) streams nowMs).Complete s)
    (hs' : s'.cursors = (declaredCursors streams).foldl (recordCursor device nowMs) s.cursors) :
    s'.Declared (.subscribe account (some device) streams nowMs :: calls) := by
  obtain ⟨hne, hrows⟩ := hcomplete
  refine ⟨?_, ?_, ?_⟩
  · intro d stream origin row hrow
    rw [hs'] at hrow
    rw [latestDeclared]
    rcases of_find_foldl_recordCursor hrow with ⟨c, hc, hkey, rfl⟩ | ⟨hnone, hold⟩
    · -- the row is one of this subscribe
      obtain ⟨rfl, rfl, rfl⟩ := cursorKey_inj.mp hkey
      rw [if_pos ⟨rfl, mem_streamId_of_declared hc⟩]
      exact ⟨_, rfl, c, List.mem_filter.mpr ⟨hc, decide_eq_true rfl⟩, rfl, min_le_left ..⟩
    · -- the row was there, so a subscribe that names the stream would have named its origin
      have hother : ¬ (device = d ∧ stream ∈ streams.map SubscribeEntry.streamId) := by
        rintro ⟨rfl, hstream⟩
        obtain ⟨c, hc, rfl, rfl⟩ := (hrows _ _ _ hold).2 hstream
        exact hnone c hc rfl
      rw [if_neg hother]
      exact h.latest hold
  · rintro d sinceMs ⟨a, streams', now', hmem, hle⟩
    rw [active_iff, hs']
    rcases List.mem_cons.mp hmem with heq | hmem
    · cases heq
      obtain ⟨c, hc⟩ := List.exists_mem_of_ne_nil _ hne
      obtain ⟨row, hrow, hstamp⟩ :=
        @find_foldl_recordCursor_of_mem device nowMs _ s.cursors c hc
      exact ⟨_, _, row, hrow, hstamp ▸ signed_mono hle⟩
    · obtain ⟨stream, origin, row, hrow, hsince⟩ :=
        active_iff.mp (h.active ⟨a, streams', now', hmem, hle⟩)
      by_cases hkey : ∃ c ∈ declaredCursors streams,
          cursorKey device c.streamId c.originDevice = cursorKey d stream origin
      · -- the row is stamped again, no earlier than it was
        obtain ⟨c, hc, hkey⟩ := hkey
        obtain ⟨rfl, rfl, rfl⟩ := cursorKey_inj.mp hkey
        obtain ⟨row', hrow', hstamp⟩ :=
          @find_foldl_recordCursor_of_mem device nowMs _ s.cursors c hc
        refine ⟨_, _, row', hrow', hsince.trans ?_⟩
        rw [hstamp]
        exact le_min (hrows _ _ _ hrow).1 (h.stamp_le hrow)
      · refine ⟨stream, origin, row, ?_, hsince⟩
        rw [find_foldl_recordCursor, List.filter_eq_nil_iff.mpr, List.getLast?_nil]
        · exact hrow
        · intro c hc heq
          exact hkey ⟨c, hc, of_decide_eq_true heq⟩
  · intro key row hrow
    rw [hs'] at hrow
    rcases of_find_foldl_recordCursor hrow with ⟨c, -, -, rfl⟩ | ⟨-, hold⟩
    · exact min_le_right ..
    · exact h.stamp_le hold

/-- **One complete call leaves the cursors what the devices last declared.** -/
theorem ServerStore.Declared.step (h : s.Declared calls) (hcomplete : call.Complete s)
    (happly : call.apply s = some s') : s'.Declared (call :: calls) := by
  have hcursors := (RelayCall.apply_frame happly).1
  by_cases hsub : ∃ account device streams nowMs,
      call = .subscribe account (some device) streams nowMs
  · obtain ⟨account, device, streams, nowMs, rfl⟩ := hsub
    exact h.subscribe hcomplete hcursors
  · obtain ⟨hlatest, hsince, hsame⟩ := @declared_of_other calls s call
      fun account device streams nowMs heq => hsub ⟨account, device, streams, nowMs, heq⟩
    rw [hsame] at hcursors
    refine ⟨?_, ?_, ?_⟩
    · intro device stream origin row hrow
      rw [hcursors] at hrow
      rw [hlatest]
      exact h.latest hrow
    · intro device sinceMs hdevice
      have hactive := h.active (hsince _ _ hdevice)
      rw [active_iff] at hactive ⊢
      rw [hcursors]
      exact hactive
    · intro key row hrow
      rw [hcursors] at hrow
      exact h.stamp_le hrow

/-- **One complete call leaves the tombstones those in force.** -/
theorem ServerStore.Deleted.step (h : s.Deleted calls) (hcomplete : call.Complete s)
    (happly : call.apply s = some s') : s'.Deleted (call :: calls) := by
  have htombs := (RelayCall.apply_frame happly).2
  cases call with
  | tombstone a t nowMs =>
    refine ⟨fun account blob => ?_, fun {account blob t' nowMs'} hforce => ?_⟩
    · rw [htombs]
      refine (Table.find_insertOrIgnore ..).trans ?_
      rw [tombstoneInForce, h.find_eq, h.find_eq]
      by_cases hkey : a = account ∧ t.blobKey = blob
      · obtain ⟨rfl, rfl⟩ := hkey
        cases tombstoneInForce calls a t.blobKey <;> simp
      · have hne : toLex (account, blob) ≠ toLex (a, t.blobKey) := by
          rintro heq
          obtain ⟨rfl, rfl⟩ := Prod.mk.inj (toLex.injective heq)
          exact hkey ⟨rfl, rfl⟩
        rw [if_neg hkey, if_neg hne]
    · rw [tombstoneInForce] at hforce
      split at hforce
      · cases hold : tombstoneInForce calls account blob with
        | none =>
          rw [hold] at hforce
          cases hforce
          exact hcomplete
        | some p =>
          rw [hold] at hforce
          cases hforce
          exact h.fits hold
      · exact h.fits hforce
  | clear a b =>
    refine ⟨fun account blob => ?_, fun {account blob t nowMs} hforce => ?_⟩
    · rw [htombs]
      refine (Table.find_erase ..).trans ?_
      rw [tombstoneInForce, h.find_eq]
      by_cases hkey : a = account ∧ b = blob
      · obtain ⟨rfl, rfl⟩ := hkey
        simp
      · have hne : toLex (account, blob) ≠ toLex (a, b) := by
          rintro heq
          obtain ⟨rfl, rfl⟩ := Prod.mk.inj (toLex.injective heq)
          exact hkey ⟨rfl, rfl⟩
        rw [if_neg hkey, if_neg hne]
    · rw [tombstoneInForce] at hforce
      split at hforce
      · cases hforce
      · exact h.fits hforce
  | register | revoke | revokeByVaultId | subscribe | pinSnapshot | pinKeyBundle =>
    refine ⟨fun account blob => ?_, fun hforce => h.fits hforce⟩
    rw [htombs]
    exact h.find_eq account blob

/-- **In a run of complete calls** the cursors are what the devices last declared, and the
tombstones are those in force. -/
theorem declared_of_run (h : RelayRun RelayCall.Complete calls s) :
    s.Declared calls ∧ s.Deleted calls := by
  induction h with
  | empty =>
    refine ⟨⟨?_, ?_, ?_⟩, fun account blob => rfl, ?_⟩
    · intro device stream origin row h
      cases h
    · rintro device sinceMs ⟨account, streams, nowMs, hmem, -⟩
      exact absurd hmem List.not_mem_nil
    · intro key row h
      cases h
    · intro account blob t nowMs h
      cases h
  | call _ hcomplete happly ih => exact ⟨ih.1.step hcomplete happly, ih.2.step hcomplete happly⟩

theorem mem_collectableBlobs {tombstonedByMs activeSinceMs : ℕ} :
    (account, blob) ∈ s.collectableBlobs tombstonedByMs activeSinceMs ↔
      ∃ t, s.tombstones.find (toLex (account, blob)) = some t ∧
        t.tombstonedAtMs ≤ signed tombstonedByMs ∧ s.awaited account t activeSinceMs = false ∧
        s.pinned account blob = false := by
  unfold collectableBlobs
  simp only [List.mem_map, List.mem_insertionSort, List.mem_filter, Bool.and_eq_true,
    decide_eq_true_eq, Bool.not_eq_true', and_assoc]
  constructor
  · rintro ⟨⟨key, t⟩, hmem, hby, hawaited, hpinned, hkey⟩
    obtain rfl : key = toLex (account, blob) := hkey
    exact ⟨t, Table.mem_rows.mp hmem, hby, hawaited, hpinned⟩
  · rintro ⟨t, hfind, hby, hawaited, hpinned⟩
    exact ⟨(_, t), Table.mem_rows.mpr hfind, hby, hawaited, hpinned, rfl⟩

theorem pinned_eq_false : s.pinned account blob = false ↔
    (∀ stream, s.streamSnapshots.find (toLex (account, stream)) ≠ some blob) ∧
      s.keyBundles.find account ≠ some blob := by
  simp only [pinned, Bool.or_eq_false_iff, List.any_eq_false, Bool.and_eq_true,
    decide_eq_true_eq, not_and]
  constructor
  · intro ⟨hs, hk⟩
    refine ⟨fun stream h => ?_, fun h => ?_⟩
    · exact hs (toLex (account, stream), blob) (Table.mem_rows.mpr h) rfl rfl
    · exact hk (account, blob) (Table.mem_rows.mpr h) rfl rfl
  · intro ⟨hs, hk⟩
    refine ⟨?_, ?_⟩
    · rintro ⟨key, b⟩ hmem rfl rfl
      exact hs _ (Table.mem_rows.mp hmem)
    · rintro ⟨a, b⟩ hmem rfl rfl
      exact hk (Table.mem_rows.mp hmem)

/-- **A blob is collected only when every active device has seen its deletion**, in every run of
complete calls. -/
theorem collectableBlobs_sound (h : RelayRun RelayCall.Complete calls s)
    (tombstonedByMs activeSinceMs : ℕ)
    (hmem : (account, blob) ∈ s.collectableBlobs tombstonedByMs activeSinceMs) :
    MayCollect calls s tombstonedByMs activeSinceMs account blob := by
  obtain ⟨hdeclared, hdeleted⟩ := declared_of_run h
  obtain ⟨row, hfind, hby, hawaited, hpinned⟩ := mem_collectableBlobs.mp hmem
  rw [hdeleted.find_eq] at hfind
  obtain ⟨⟨t, tombstonedAtMs⟩, hforce, rfl⟩ := Option.map_eq_some_iff.mp hfind
  obtain ⟨hseq, hnow⟩ := hdeleted.fits hforce
  obtain ⟨hsnapshots, hbundle⟩ := pinned_eq_false.mp hpinned
  refine ⟨t, tombstonedAtMs, hforce, ?_, hsnapshots, hbundle, ?_⟩
  · dsimp only at hby
    rw [signed_of_lt hnow] at hby
    exact hby.trans (min_le_left ..)
  · intro device d hd haccount hrevoked hby' hsince
    have hactive := hdeclared.active hsince
    -- an active device that has not acknowledged the tombstone would be waited for
    have hack : s.acknowledged device
        ⟨t.streamId, t.originDevice, signed t.seq, t.deletedBy, signed tombstonedAtMs⟩ = true := by
      have hnot := List.any_eq_false.mp hawaited (device, d) (Table.mem_rows.mpr hd)
      simpa [haccount, hrevoked, hactive, Ne.symm hby'] using hnot
    obtain ⟨cursor, hcursor, hle⟩ := acknowledged_iff.mp hack
    obtain ⟨cursors, hlatest, c, hc, horigin, happlied⟩ := hdeclared.latest hcursor
    dsimp only at hle
    rw [signed_of_lt hseq] at hle
    exact ⟨cursors, hlatest, c, hc, horigin, hle.trans happlied⟩

/-- Device 1 deletes a blob with its op 4 in stream 7, after device 2 has declared that op. -/
def deletedCalls : List RelayCall :=
  [.tombstone 1 ⟨9, 7, 10, 4, some 1⟩ 110, .subscribe 1 (some 2) [⟨[⟨10, 5⟩], 7⟩] 100,
    .register 2 1 none, .register 1 1 none]

/-- The store after these calls. -/
def deletedStore : ServerStore where
  devices := ((∅ : Table RelayDevice RelayDeviceRow).upsert 1 ⟨1, none, false⟩).upsert 2
    ⟨1, none, false⟩
  tombstones := (∅ : Table (AccountId ×ₗ BlobKey) TombstoneRow).insertOrIgnore (toLex (1, 9))
    ⟨7, 10, 4, some 1, 110⟩
  cursors := (∅ : Table CursorKey CursorRow).upsert (cursorKey 2 7 10) ⟨5, 100⟩
  streamSnapshots := ∅
  keyBundles := ∅

/-- Device 2 resets its vault and subscribes to the stream again, with nothing of device 10's
applied. Its earlier cursor still stands, and the blob it needs is collected. -/
theorem not_collectableBlobs_sound :
    ∃ s, RelayRun (fun _ _ => True) (.subscribe 1 (some 2) [⟨[⟨11, 1⟩], 7⟩] 120 :: deletedCalls) s ∧
      (1, 9) ∈ s.collectableBlobs 200 50 ∧
      ¬ MayCollect (.subscribe 1 (some 2) [⟨[⟨11, 1⟩], 7⟩] 120 :: deletedCalls) s 200 50 1 9 := by
  have hrun : RelayRun (fun _ _ => True) deletedCalls deletedStore :=
    .call (.call (.call (.call .empty trivial rfl) trivial rfl) trivial rfl) trivial rfl
  refine ⟨_, .call hrun trivial rfl, by decide, ?_⟩
  rintro ⟨t, tombstonedAtMs, hforce, -, -, -, hall⟩
  cases hforce
  obtain ⟨cursors, hlatest, c, hc, horigin, -⟩ := hall 2 ⟨1, none, false⟩ rfl rfl rfl (by decide)
    ⟨1, [⟨[⟨11, 1⟩], 7⟩], 120, List.mem_cons_self, by decide⟩
  cases hlatest
  obtain rfl : c = ⟨7, 11, 1⟩ := List.mem_singleton.mp hc
  exact absurd horigin (by decide)

/-- Before that subscribe every call is complete, and the blob is collected for good reason. -/
theorem collectableBlobs_sound_deleted : (1, 9) ∈ deletedStore.collectableBlobs 200 50 ∧
    MayCollect deletedCalls deletedStore 200 50 1 9 := by
  have hrun : RelayRun RelayCall.Complete deletedCalls deletedStore := by
    refine .call (.call (.call (.call .empty trivial rfl) trivial rfl) ?_ rfl) ?_ rfl
    · refine ⟨by decide, ?_⟩
      intro stream origin row h
      cases h
    · exact ⟨by decide, by decide⟩
  have hmem : (1, 9) ∈ deletedStore.collectableBlobs 200 50 := by decide
  exact ⟨hmem, collectableBlobs_sound hrun 200 50 hmem⟩

end Sunrise
