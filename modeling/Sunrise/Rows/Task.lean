import Mathlib.Data.Finset.Basic
import Mathlib.Data.Finset.Image
import Sunrise.Lib.CborBytes
import Sunrise.Rows.Constraint
import Sunrise.Stamp

/-!
# The row of a task

A task is kept in one row of some forty columns and two side tables, for its contexts and
for the tasks it waits for. The columns are listed three times: where the row is inserted,
where it is overwritten, and where it is read. Every full-state write of a task starts from
what was read, so what a column loses the next write takes from every device.

Nothing is kept of the assignee. The estimate is kept in minutes. A reference is kept as its
id, and reads as one of the kind the column is for.

## Main definitions

* `Task`, `TaskRow`, `TaskTables` — a task, its columns, and the tables they are in.
* `insertTaskRow`, `updateTaskRow`, `writeTask` — the writers.
* `readTask` — the reader.

## Main results

* `readTask_writeTask` — **what is read after a write.**
* `keepsRow_iff` — **every field comes back exactly for a task with no assignee, an estimate
  in whole minutes and references of the kinds their columns are for.**
-/

namespace Sunrise

namespace Rows

open Cbor (Item)

/-! ### Tasks -/

/-- The kinds of what a reference can name. -/
inductive RefKind where
  | task | stream | context | routine | block | note | attachment | person | device | identity
  | focusSession | reviewSnapshot | preferences | savedView
deriving DecidableEq

/-- A reference: a kind and an id. -/
structure Ref where
  kind : RefKind
  id : Id
deriving DecidableEq

/-- How far a task is. -/
inductive KnownTaskState where
  | todo | inProgress | done | cancelled
deriving DecidableEq

instance : Spelled KnownTaskState where
  spelling
    | .todo => "todo" | .inProgress => "in_progress" | .done => "done"
    | .cancelled => "cancelled"
  ofSpelling
    | "todo" => some .todo | "in_progress" => some .inProgress | "done" => some .done
    | "cancelled" => some .cancelled
    | _ => none
  ofSpelling_spelling a := by cases a <;> rfl

/-- How much a task asks for. -/
inductive KnownEnergy where
  | low | med | high
deriving DecidableEq

instance : Spelled KnownEnergy where
  spelling
    | .low => "low" | .med => "med" | .high => "high"
  ofSpelling
    | "low" => some .low | "med" => some .med | "high" => some .high
    | _ => none
  ofSpelling_spelling a := by cases a <;> rfl

structure Task (J : Jiff) where
  id : Ref
  createdAt : Timestamp
  updatedAt : Timestamp
  title : String
  body : Option Bytes
  streamId : Option Ref
  contexts : Finset Ref
  state : Lossy KnownTaskState
  priority : Option UInt8
  energy : Option (Lossy KnownEnergy)
  estimatedDurationS : Option UInt64
  plannedAt : Option (SunriseTime J)
  targetAt : Option (SunriseTime J)
  hardDueAt : Option (SunriseTime J)
  schedulingConstraints : List (ScheduleConstraint J)
  completedAt : Option (SunriseTime J)
  /-- How often it was deferred. -/
  deferredCount : ℤ
  /-- The blocks it is scheduled in, which no op of a task writes. -/
  blocks : Finset Ref
  blockedBy : Finset Ref
  assignee : Option Ref
  routineId : Option Ref
  routineOccurrence : Option Timestamp
  hardConstraintViolated : Bool
  /-- How long before its plan it reminds, in seconds. -/
  reminderLeadS : Option UInt32
  sortOrder : Option String
  triagedAt : Option Timestamp
  cancelReason : Option String
  lateAcknowledgedAt : Option Timestamp
  archived : Bool
  deleted : Bool
  unknown : Unknowns []

/-! ### The tables -/

/-- The stamp of the write a row's values come from. -/
structure LwwStamp where
  hlc : Hlc
  device : Device
  seq : ℕ
deriving DecidableEq

/-- The columns of a task. -/
structure TaskRow where
  streamId : Option Id
  title : String
  state : String
  priority : Option ℤ
  energy : Option String
  estimatedMin : Option ℤ
  plannedAt : TimeColumns
  hardDueAt : TimeColumns
  completedAt : TimeColumns
  targetAt : TimeColumns
  deferredCount : ℤ
  routineId : Option Id
  routineOccurrence : Option ℤ
  reminderLeadS : Option ℤ
  archived : ℤ
  deleted : ℤ
  body : Option Bytes
  schedulingConstraints : Option Bytes
  extra : Option Bytes
  createdAtMs : ℤ
  updatedAtMs : ℤ
  lww : LwwStamp
  sortOrder : Option String
  triagedAtMs : Option ℤ
  cancelReason : Option String
  lateAcknowledgedAtMs : Option ℤ
  hardConstraintViolated : ℤ
deriving DecidableEq

structure TaskTables where
  tasks : Table Id TaskRow
  taskContexts : Finset (Id × Id)
  taskBlockers : Finset (Id × Id)
  /-- Tasks and the live blocks they are scheduled in. -/
  blockTasks : Finset (Id × Id)
  contextsOfRows : ∀ p ∈ taskContexts, (tasks.find p.1).isSome

/-! ### The columns of a task -/

variable {J : Jiff} (cbor : Cbor.Codec)

/-- The minutes an estimate is kept as. -/
def estimatedMin (s : UInt64) : Option ℤ :=
  let m := s.toNat / 60
  if m < 2 ^ 63 then some m else none

/-- The seconds of an estimate kept in minutes. -/
def estimatedDuration (m : ℤ) : Option UInt64 :=
  let secs := m * 60
  if -2 ^ 63 ≤ secs ∧ secs < 2 ^ 63 then
    if 0 ≤ secs ∧ secs < 2 ^ 64 then some (.ofNat secs.toNat) else none
  else none

/-- The column of the unknown keys, null for none. -/
def encodeUnknowns (u : Unknowns []) : Option Bytes :=
  if u.table.rows.isEmpty then none else some (u.bytes cbor)

/-- The unknown keys of a column, none for bytes this build cannot read. -/
def decodeUnknowns (blob : Option Bytes) : Unknowns [] :=
  (blob.bind fun b => (decodeLenient cbor b).bind readUnknowns).getD .empty

/-- The column to write over one that held `prior`: bytes this build cannot read are kept
where it has nothing to write. -/
def extraOverOpaque (prior new : Option Bytes) : Option Bytes :=
  if new.isSome then new
  else prior.filter fun b => ((decodeLenient cbor b).bind readUnknowns).isNone

def taskRow (t : Task J) (lww : LwwStamp) : TaskRow where
  streamId := t.streamId.map Ref.id
  title := t.title
  state := t.state.asStr
  priority := t.priority.map fun p => (p.toNat : ℤ)
  energy := t.energy.map Lossy.asStr
  estimatedMin := t.estimatedDurationS.bind estimatedMin
  plannedAt := timeToParts cbor t.plannedAt
  hardDueAt := timeToParts cbor t.hardDueAt
  completedAt := timeToParts cbor t.completedAt
  targetAt := timeToParts cbor t.targetAt
  deferredCount := t.deferredCount
  routineId := t.routineId.map Ref.id
  routineOccurrence := t.routineOccurrence.map Timestamp.asMillisecond
  reminderLeadS := t.reminderLeadS.map fun s => (s.toNat : ℤ)
  archived := t.archived.toNat
  deleted := t.deleted.toNat
  body := t.body
  schedulingConstraints := encodeConstraints cbor t.schedulingConstraints
  extra := encodeUnknowns cbor t.unknown
  createdAtMs := t.createdAt.asMillisecond
  updatedAtMs := t.updatedAt.asMillisecond
  lww
  sortOrder := t.sortOrder
  triagedAtMs := t.triagedAt.map Timestamp.asMillisecond
  cancelReason := t.cancelReason
  lateAcknowledgedAtMs := t.lateAcknowledgedAt.map Timestamp.asMillisecond
  hardConstraintViolated := t.hardConstraintViolated.toNat

/-! ### The writers -/

def TaskTables.setRow (db : TaskTables) (id : Id) (row : TaskRow) : TaskTables :=
  { db with
    tasks := db.tasks.upsert id row
    contextsOfRows := fun p hp => by
      rw [Table.find_upsert]
      split
      next => rfl
      next => exact db.contextsOfRows p hp }

def insertTaskRow (db : TaskTables) (t : Task J) (lww : LwwStamp) : TaskTables :=
  db.setRow t.id.id (taskRow cbor t lww)

/-- Overwrite the row of a task. The column of its creation is none of those written, and
its unknown keys go over what the row holds. -/
def updateTaskRow (db : TaskTables) (t : Task J) (lww : LwwStamp) : TaskTables :=
  match db.tasks.find t.id.id with
  | none => db
  | some prior => db.setRow t.id.id { taskRow cbor t lww with
      extra := extraOverOpaque cbor prior.extra (encodeUnknowns cbor t.unknown)
      createdAtMs := prior.createdAtMs }

def insertTaskContexts (db : TaskTables) (t : Task J) : TaskTables :=
  if h : (db.tasks.find t.id.id).isSome then
    { db with
      taskContexts := db.taskContexts ∪ t.contexts.image fun c => (t.id.id, c.id)
      contextsOfRows := fun p hp => by
        rcases Finset.mem_union.mp hp with hp | hp
        · exact db.contextsOfRows p hp
        · obtain ⟨c, -, rfl⟩ := Finset.mem_image.mp hp
          exact h }
  else db

def replaceTaskContexts (db : TaskTables) (t : Task J) : TaskTables :=
  insertTaskContexts
    { db with
      taskContexts := db.taskContexts.filter fun p => p.1 ≠ t.id.id
      contextsOfRows := fun p hp => db.contextsOfRows p (Finset.mem_filter.mp hp).1 } t

def replaceTaskBlockers (db : TaskTables) (t : Task J) : TaskTables :=
  { db with
    taskBlockers := (db.taskBlockers.filter fun p => p.1 ≠ t.id.id) ∪
      t.blockedBy.image fun b => (t.id.id, b.id) }

/-- Write the creation of a task, which no update of its row writes. -/
def storeCreatedAt (db : TaskTables) (t : Task J) : TaskTables :=
  match db.tasks.find t.id.id with
  | none => db
  | some row => db.setRow t.id.id { row with createdAtMs := t.createdAt.asMillisecond }

/-- Write the row and the contexts of a task, over the row it has or as a new one. -/
def writeRow (db : TaskTables) (t : Task J) (lww : LwwStamp) : TaskTables :=
  if (db.tasks.find t.id.id).isSome then replaceTaskContexts (updateTaskRow cbor db t lww) t
  else insertTaskContexts (insertTaskRow cbor db t lww) t

def writeTask (db : TaskTables) (t : Task J) (lww : LwwStamp) : TaskTables :=
  storeCreatedAt (replaceTaskBlockers (writeRow cbor db t lww) t) t

/-! ### The reader -/

/-- Why a row is not read. -/
inductive RowError where
  | outOfRange
  | constraints (e : CanonicalError)
deriving DecidableEq

/-- A column of unsigned 32 bits. -/
def u32Column : Option ℤ → Except RowError (Option UInt32)
  | none => .ok none
  | some v => if 0 ≤ v ∧ v < 2 ^ 32 then .ok (some (.ofNat v.toNat)) else .error .outOfRange

/-- A number of eight bits, if it is one. -/
def u8Of (v : ℤ) : Option UInt8 := if 0 ≤ v ∧ v < 2 ^ 8 then some (.ofNat v.toNat) else none

def taskOfRow (db : TaskTables) (id : Id) (row : TaskRow) (reminderLeadS : Option UInt32)
    (schedulingConstraints : List (ScheduleConstraint J)) : Task J where
  id := ⟨.task, id⟩
  createdAt := msToTs (max row.createdAtMs 0)
  updatedAt := msToTs (max row.updatedAtMs 0)
  title := row.title
  body := row.body
  streamId := row.streamId.map (⟨.stream, ·⟩)
  contexts := (db.taskContexts.filter fun p => p.1 = id).image fun p => ⟨.context, p.2⟩
  state := .fromRaw row.state
  priority := row.priority.bind u8Of
  energy := row.energy.map .fromRaw
  estimatedDurationS := row.estimatedMin.bind estimatedDuration
  plannedAt := timeFromParts J cbor row.plannedAt
  targetAt := timeFromParts J cbor row.targetAt
  hardDueAt := timeFromParts J cbor row.hardDueAt
  schedulingConstraints
  completedAt := timeFromParts J cbor row.completedAt
  deferredCount := row.deferredCount
  blocks := (db.blockTasks.filter fun p => p.1 = id).image fun p => ⟨.block, p.2⟩
  blockedBy := (db.taskBlockers.filter fun p => p.1 = id).image fun p => ⟨.task, p.2⟩
  assignee := none
  routineId := row.routineId.map (⟨.routine, ·⟩)
  routineOccurrence := row.routineOccurrence.map fun ms => msToTs (max ms 0)
  hardConstraintViolated := row.hardConstraintViolated != 0
  reminderLeadS
  sortOrder := row.sortOrder
  triagedAt := row.triagedAtMs.map msToTs
  cancelReason := row.cancelReason
  lateAcknowledgedAt := row.lateAcknowledgedAtMs.map msToTs
  archived := row.archived != 0
  deleted := row.deleted != 0
  unknown := decodeUnknowns cbor row.extra

variable (J) in
def readTask (db : TaskTables) (id : Id) : Except RowError (Option (Task J)) :=
  match db.tasks.find id with
  | none => .ok none
  | some row =>
    (u32Column row.reminderLeadS).bind fun reminderLeadS =>
      ((decodeConstraints J cbor row.schedulingConstraints).mapError .constraints).map
        fun schedulingConstraints =>
          some (taskOfRow cbor db id row reminderLeadS schedulingConstraints)

/-! ### What a write leaves -/

section

variable {cbor} {db : TaskTables} {t : Task J} {lww : LwwStamp}

@[simp] theorem setRow_find (id : Id) (row : TaskRow) :
    (db.setRow id row).tasks.find id = some row := Table.find_upsert_self _ _ _

@[simp] theorem setRow_taskContexts (id : Id) (row : TaskRow) :
    (db.setRow id row).taskContexts = db.taskContexts := rfl

@[simp] theorem replaceTaskBlockers_tasks : (replaceTaskBlockers db t).tasks = db.tasks := rfl

@[simp] theorem replaceTaskBlockers_taskContexts :
    (replaceTaskBlockers db t).taskContexts = db.taskContexts := rfl

@[simp] theorem insertTaskContexts_tasks : (insertTaskContexts db t).tasks = db.tasks := by
  unfold insertTaskContexts
  split <;> rfl

@[simp] theorem replaceTaskContexts_tasks : (replaceTaskContexts db t).tasks = db.tasks := by
  unfold replaceTaskContexts
  rw [insertTaskContexts_tasks]

theorem insertTaskContexts_taskContexts (h : (db.tasks.find t.id.id).isSome) :
    (insertTaskContexts db t).taskContexts =
      db.taskContexts ∪ t.contexts.image fun c => (t.id.id, c.id) := by
  unfold insertTaskContexts
  rw [dif_pos h]

theorem storeCreatedAt_taskContexts : (storeCreatedAt db t).taskContexts = db.taskContexts := by
  unfold storeCreatedAt
  split <;> rfl

theorem storeCreatedAt_taskBlockers : (storeCreatedAt db t).taskBlockers = db.taskBlockers := by
  unfold storeCreatedAt
  split <;> rfl

/-- The tables after the row and the contexts of a task are written: the row holds the
columns of the task but for the two that an update leaves to others, and the contexts are
the task's. -/
theorem writeRow_spec :
    (∃ extra createdAtMs, (writeRow cbor db t lww).tasks.find t.id.id =
      some { taskRow cbor t lww with extra, createdAtMs }) ∧
    (writeRow cbor db t lww).taskContexts.filter (fun p => p.1 = t.id.id) =
      t.contexts.image fun c => (t.id.id, c.id) := by
  have hown : (t.contexts.image fun c => (t.id.id, c.id)).filter (fun p => p.1 = t.id.id) =
      t.contexts.image fun c => (t.id.id, c.id) := by
    refine Finset.filter_true_of_mem fun p hp => ?_
    obtain ⟨c, -, rfl⟩ := Finset.mem_image.mp hp
    rfl
  cases hprior : db.tasks.find t.id.id with
  | some prior =>
    have h : writeRow cbor db t lww = replaceTaskContexts (updateTaskRow cbor db t lww) t := by
      rw [writeRow, hprior, Option.isSome_some, if_pos rfl]
    have hrow : (updateTaskRow cbor db t lww).tasks.find t.id.id = some { taskRow cbor t lww with
        extra := extraOverOpaque cbor prior.extra (encodeUnknowns cbor t.unknown)
        createdAtMs := prior.createdAtMs } := by
      unfold updateTaskRow
      rw [hprior]
      exact setRow_find _ _
    refine ⟨⟨_, _, by rw [h, replaceTaskContexts_tasks]; exact hrow⟩, ?_⟩
    rw [h, replaceTaskContexts, insertTaskContexts_taskContexts (by rw [hrow]; rfl),
      Finset.filter_union, hown, Finset.filter_filter]
    simp
  | none =>
    have h : writeRow cbor db t lww = insertTaskContexts (insertTaskRow cbor db t lww) t := by
      rw [writeRow, hprior, Option.isSome_none, if_neg Bool.false_ne_true]
    refine ⟨⟨_, _, by rw [h, insertTaskContexts_tasks]; exact setRow_find _ _⟩, ?_⟩
    -- a context is of a task with a row, so none is there
    have hnone : db.taskContexts.filter (fun p => p.1 = t.id.id) = ∅ := by
      refine Finset.filter_false_of_mem fun p hp hid => ?_
      have hrow := db.contextsOfRows p hp
      rw [hid, hprior] at hrow
      cases hrow
    have hhas : ((insertTaskRow cbor db t lww).tasks.find t.id.id).isSome := by
      rw [insertTaskRow, setRow_find]
      rfl
    rw [h, insertTaskContexts_taskContexts hhas, Finset.filter_union, hown, insertTaskRow,
      setRow_taskContexts, hnone, Finset.empty_union]

theorem find_writeTask : ∃ extra, (writeTask cbor db t lww).tasks.find t.id.id =
    some { taskRow cbor t lww with extra } := by
  obtain ⟨⟨extra, createdAtMs, hrow⟩, -⟩ := @writeRow_spec J cbor db t lww
  refine ⟨extra, ?_⟩
  unfold writeTask storeCreatedAt
  rw [replaceTaskBlockers_tasks, hrow]
  exact setRow_find _ _

theorem taskContexts_writeTask :
    (writeTask cbor db t lww).taskContexts.filter (fun p => p.1 = t.id.id) =
      t.contexts.image fun c => (t.id.id, c.id) := by
  unfold writeTask
  rw [storeCreatedAt_taskContexts, replaceTaskBlockers_taskContexts]
  exact writeRow_spec.2

theorem taskBlockers_writeTask :
    (writeTask cbor db t lww).taskBlockers.filter (fun p => p.1 = t.id.id) =
      t.blockedBy.image fun b => (t.id.id, b.id) := by
  have hfield : (writeTask cbor db t lww).taskBlockers =
      ((writeRow cbor db t lww).taskBlockers.filter fun p => p.1 ≠ t.id.id) ∪
        t.blockedBy.image fun b => (t.id.id, b.id) := storeCreatedAt_taskBlockers
  rw [hfield, Finset.filter_union, Finset.filter_filter]
  have hown : (t.blockedBy.image fun b => (t.id.id, b.id)).filter (fun p => p.1 = t.id.id) =
      t.blockedBy.image fun b => (t.id.id, b.id) := by
    refine Finset.filter_true_of_mem fun p hp => ?_
    obtain ⟨b, -, rfl⟩ := Finset.mem_image.mp hp
    rfl
  rw [hown]
  simp

/-! ### What is read after a write -/

/-- A time of an op: to the millisecond, and from the epoch on. -/
def Timestamp.Carried (at_ : Timestamp) : Prop := at_.ToMillisecond ∧ 0 ≤ at_.ns

theorem Timestamp.Carried.read {at_ : Timestamp} (h : at_.Carried) :
    msToTs (max at_.asMillisecond 0) = at_ := by
  rw [max_eq_left (Timestamp.asMillisecond_nonneg h.2), msToTs_asMillisecond h.1]

/-- A task as a checked op carries it. Its times are to the millisecond and from the epoch
on; what it keeps of what this build does not know came out of a decoder. -/
structure Task.Carried (cbor : Cbor.Codec) (t : Task J) : Prop where
  kind : t.id.kind = .task
  createdAt : t.createdAt.Carried
  updatedAt : t.updatedAt.Carried
  routineOccurrence : ∀ at_, t.routineOccurrence = some at_ → at_.Carried
  triagedAt : ∀ at_, t.triagedAt = some at_ → at_.Carried
  lateAcknowledgedAt : ∀ at_, t.lateAcknowledgedAt = some at_ → at_.Carried
  plannedAt : ∀ time, t.plannedAt = some time → time.Carried cbor
  targetAt : ∀ time, t.targetAt = some time → time.Carried cbor
  hardDueAt : ∀ time, t.hardDueAt = some time → time.Carried cbor
  completedAt : ∀ time, t.completedAt = some time → time.Carried cbor
  constraints : ∀ c ∈ t.schedulingConstraints, c.Kept cbor
  constraintsRegular : (constraintsItem t.schedulingConstraints).Regular
  constraintsDepth : (constraintsItem t.schedulingConstraints).depth ≤ maxDocDepth

/-- What is read of a task after a write, `blocks` and `unknown` as the tables have them. -/
def Task.readBack (t : Task J) (blocks : Finset Ref) (unknown : Unknowns []) : Task J :=
  { t with
    id := ⟨.task, t.id.id⟩
    streamId := t.streamId.map fun r => ⟨.stream, r.id⟩
    contexts := t.contexts.image fun c => ⟨.context, c.id⟩
    estimatedDurationS := (t.estimatedDurationS.bind estimatedMin).bind estimatedDuration
    blocks
    blockedBy := t.blockedBy.image fun b => ⟨.task, b.id⟩
    assignee := none
    routineId := t.routineId.map fun r => ⟨.routine, r.id⟩
    unknown }

theorem u8Of_toNat (p : UInt8) : u8Of p.toNat = some p := by
  have hp := p.toNat_lt
  have hin : 0 ≤ (p.toNat : ℤ) ∧ (p.toNat : ℤ) < 2 ^ 8 := ⟨by omega, by omega⟩
  rw [u8Of, if_pos hin, Int.toNat_natCast, UInt8.ofNat_toNat]

theorem u32Column_map (o : Option UInt32) : u32Column (o.map fun s => (s.toNat : ℤ)) = .ok o := by
  cases o with
  | none => rfl
  | some s =>
    have hs := s.toNat_lt
    have hin : 0 ≤ (s.toNat : ℤ) ∧ (s.toNat : ℤ) < 2 ^ 32 := ⟨by omega, by omega⟩
    rw [Option.map_some, u32Column, if_pos hin, Int.toNat_natCast, UInt32.ofNat_toNat]

theorem map_bind_some {α β : Type} {f : α → β} {g : β → Option α} (h : ∀ a, g (f a) = some a)
    (o : Option α) : (o.map f).bind g = o := by
  cases o with
  | none => rfl
  | some a => exact h a

theorem map_map_of_eq {α β : Type} {f : α → β} {g : β → α} {o : Option α}
    (h : ∀ a, o = some a → g (f a) = a) : (o.map f).map g = o := by
  cases o with
  | none => rfl
  | some a => exact congrArg some (h a rfl)

theorem toNat_bne_zero (b : Bool) : ((b.toNat : ℤ) != 0) = b := by
  cases b <;> rfl

theorem times_map {o : Option Timestamp} (h : ∀ at_, o = some at_ → at_.Carried) :
    (o.map Timestamp.asMillisecond).map msToTs = o :=
  map_map_of_eq fun at_ hat => msToTs_asMillisecond (h at_ hat).1

theorem taskOfRow_taskRow (hc : cbor.Lawful) (hb : cbor.WritesBytes) (hJ : J.Spells)
    (ht : t.Carried cbor) (extra : Option Bytes)
    (hcontexts : db.taskContexts.filter (fun p => p.1 = t.id.id) =
      t.contexts.image fun c => (t.id.id, c.id))
    (hblockers : db.taskBlockers.filter (fun p => p.1 = t.id.id) =
      t.blockedBy.image fun b => (t.id.id, b.id)) :
    ∃ blocks, taskOfRow cbor db t.id.id { taskRow cbor t lww with extra } t.reminderLeadS
      t.schedulingConstraints = t.readBack blocks (decodeUnknowns cbor extra) := by
  have hoccurrence : (t.routineOccurrence.map Timestamp.asMillisecond).map
      (fun ms => msToTs (max ms 0)) = t.routineOccurrence :=
    map_map_of_eq fun at_ hat => (ht.routineOccurrence at_ hat).read
  have henergy : (t.energy.map Lossy.asStr).map Lossy.fromRaw = t.energy :=
    map_map_of_eq fun e _ => e.fromRaw_asStr
  have hstream : (t.streamId.map Ref.id).map (Ref.mk .stream) =
      t.streamId.map fun r => ⟨.stream, r.id⟩ := Option.map_map ..
  have hroutine : (t.routineId.map Ref.id).map (Ref.mk .routine) =
      t.routineId.map fun r => ⟨.routine, r.id⟩ := Option.map_map ..
  have hcontexts' : (t.contexts.image fun c => (t.id.id, c.id)).image
      (fun p => Ref.mk .context p.2) = t.contexts.image fun c => ⟨.context, c.id⟩ :=
    Finset.image_image
  have hblockers' : (t.blockedBy.image fun b => (t.id.id, b.id)).image
      (fun p => Ref.mk .task p.2) = t.blockedBy.image fun b => ⟨.task, b.id⟩ :=
    Finset.image_image
  refine ⟨(db.blockTasks.filter fun p => p.1 = t.id.id).image fun p => ⟨.block, p.2⟩, ?_⟩
  simp only [taskOfRow, taskRow, hcontexts, hblockers, hoccurrence, henergy, hstream, hroutine,
    hcontexts', hblockers', map_bind_some u8Of_toNat, toNat_bne_zero, Lossy.fromRaw_asStr,
    timeFromParts_timeToParts hc hb hJ ht.plannedAt, timeFromParts_timeToParts hc hb hJ ht.targetAt,
    timeFromParts_timeToParts hc hb hJ ht.hardDueAt,
    timeFromParts_timeToParts hc hb hJ ht.completedAt, ht.createdAt.read, ht.updatedAt.read,
    times_map ht.triagedAt, times_map ht.lateAcknowledgedAt]
  rfl

/-- **What is read after a write.** -/
theorem readTask_writeTask (hc : cbor.Lawful) (hb : cbor.WritesBytes) (hJ : J.Spells)
    (ht : t.Carried cbor) : ∃ blocks unknown,
    readTask J cbor (writeTask cbor db t lww) t.id.id = .ok (some (t.readBack blocks unknown)) := by
  obtain ⟨extra, hrow⟩ := @find_writeTask J cbor db t lww
  obtain ⟨blocks, htask⟩ := taskOfRow_taskRow hc hb hJ ht extra
    (@taskContexts_writeTask J cbor db t lww) taskBlockers_writeTask
  have hlist : decodeConstraints J cbor (taskRow cbor t lww).schedulingConstraints =
      .ok t.schedulingConstraints :=
    decodeConstraints_encodeConstraints hc hJ ht.constraints ht.constraintsRegular
      ht.constraintsDepth
  have hlead : u32Column (taskRow cbor t lww).reminderLeadS = .ok t.reminderLeadS :=
    u32Column_map _
  refine ⟨blocks, decodeUnknowns cbor extra, ?_⟩
  unfold readTask
  rw [hrow]
  show (u32Column (taskRow cbor t lww).reminderLeadS).bind _ = _
  rw [hlead]
  show ((decodeConstraints J cbor (taskRow cbor t lww).schedulingConstraints).mapError _).map _ = _
  rw [hlist]
  exact congrArg (fun task => Except.ok (some task)) htask

end

/-! ### The fields that come back -/

/-- The registered fields of a task that an op writes. -/
inductive StoredField where
  | id | createdAt | updatedAt | title | body | streamId | contexts | state | priority | energy
  | estimatedDurationS | plannedAt | targetAt | hardDueAt | schedulingConstraints | completedAt
  | deferredCount | blockedBy | assignee | routineId | routineOccurrence | hardConstraintViolated
  | reminderLeadS | sortOrder | triagedAt | cancelReason | lateAcknowledgedAt | archived | deleted
deriving DecidableEq

def StoredField.Value (J : Jiff) : StoredField → Type
  | .id => Ref
  | .createdAt | .updatedAt => Timestamp
  | .title => String
  | .body => Option Bytes
  | .streamId | .assignee | .routineId => Option Ref
  | .contexts | .blockedBy => Finset Ref
  | .state => Lossy KnownTaskState
  | .priority => Option UInt8
  | .energy => Option (Lossy KnownEnergy)
  | .estimatedDurationS => Option UInt64
  | .plannedAt | .targetAt | .hardDueAt | .completedAt => Option (SunriseTime J)
  | .schedulingConstraints => List (ScheduleConstraint J)
  | .deferredCount => ℤ
  | .routineOccurrence | .triagedAt | .lateAcknowledgedAt => Option Timestamp
  | .hardConstraintViolated | .archived | .deleted => Bool
  | .reminderLeadS => Option UInt32
  | .sortOrder | .cancelReason => Option String

def Task.get (t : Task J) : (f : StoredField) → f.Value J
  | .id => t.id
  | .createdAt => t.createdAt
  | .updatedAt => t.updatedAt
  | .title => t.title
  | .body => t.body
  | .streamId => t.streamId
  | .contexts => t.contexts
  | .state => t.state
  | .priority => t.priority
  | .energy => t.energy
  | .estimatedDurationS => t.estimatedDurationS
  | .plannedAt => t.plannedAt
  | .targetAt => t.targetAt
  | .hardDueAt => t.hardDueAt
  | .schedulingConstraints => t.schedulingConstraints
  | .completedAt => t.completedAt
  | .deferredCount => t.deferredCount
  | .blockedBy => t.blockedBy
  | .assignee => t.assignee
  | .routineId => t.routineId
  | .routineOccurrence => t.routineOccurrence
  | .hardConstraintViolated => t.hardConstraintViolated
  | .reminderLeadS => t.reminderLeadS
  | .sortOrder => t.sortOrder
  | .triagedAt => t.triagedAt
  | .cancelReason => t.cancelReason
  | .lateAcknowledgedAt => t.lateAcknowledgedAt
  | .archived => t.archived
  | .deleted => t.deleted

/-- A task written over the tables is read back with every field as it was. -/
def KeepsRow (db : TaskTables) (t : Task J) (lww : LwwStamp) : Prop :=
  ∃ t', readTask J cbor (writeTask cbor db t lww) t.id.id = .ok (some t') ∧
    ∀ f, t'.get f = t.get f

def EditsOnly (edit : Task J → Task J) (f : StoredField) : Prop :=
  ∀ t g, g ≠ f → (edit t).get g = t.get g

/-- What a full-state edit of one field of a task writes has every other field as the task
was written with: the edit starts from the task as it is read. -/
def KeepsOthers (db : TaskTables) (t : Task J) (lww : LwwStamp) : Prop :=
  ∀ f edit, EditsOnly edit f →
    ∃ t', readTask J cbor (writeTask cbor db t lww) t.id.id = .ok (some t') ∧
      ∀ g, g ≠ f → (edit t').get g = t.get g

/-- A task its row has room for: it has no assignee, an estimate in whole minutes that in
seconds fits a signed number, and references of the kinds their columns are for. -/
structure Task.Fits (t : Task J) : Prop where
  assignee : t.assignee = none
  estimate : ∀ s, t.estimatedDurationS = some s → s.toNat % 60 = 0 ∧ s.toNat < 2 ^ 63
  stream : ∀ r, t.streamId = some r → r.kind = .stream
  contexts : ∀ r ∈ t.contexts, r.kind = .context
  blockedBy : ∀ r ∈ t.blockedBy, r.kind = .task
  routine : ∀ r, t.routineId = some r → r.kind = .routine

section

variable {cbor} {db : TaskTables} {t : Task J} {lww : LwwStamp}

theorem bind_estimatedMin (s : UInt64) : (estimatedMin s).bind estimatedDuration =
    if s.toNat / 60 * 60 < 2 ^ 63 then some (.ofNat (s.toNat / 60 * 60)) else none := by
  have hs := s.toNat_lt
  have hm : s.toNat / 60 < 2 ^ 63 := by omega
  rw [estimatedMin, if_pos hm, Option.bind_some, estimatedDuration]
  have hcast : ((s.toNat / 60 : ℕ) : ℤ) * 60 = ((s.toNat / 60 * 60 : ℕ) : ℤ) := by push_cast; rfl
  rw [hcast]
  by_cases hfit : s.toNat / 60 * 60 < 2 ^ 63
  · rw [if_pos ⟨by omega, by omega⟩, if_pos ⟨by omega, by omega⟩, if_pos hfit, Int.toNat_natCast]
  · rw [if_neg (by omega), if_neg hfit]

theorem bind_estimatedMin_eq_some (s : UInt64) :
    (estimatedMin s).bind estimatedDuration = some s ↔ s.toNat % 60 = 0 ∧ s.toNat < 2 ^ 63 := by
  have hs := s.toNat_lt
  rw [bind_estimatedMin]
  constructor
  · intro h
    split at h
    next hfit =>
      have heq := congrArg UInt64.toNat (Option.some.inj h)
      rw [UInt64.toNat_ofNat_of_lt' (by show _ < 2 ^ 64; omega)] at heq
      omega
    next => cases h
  · intro ⟨hmod, hlt⟩
    have heq : s.toNat / 60 * 60 = s.toNat := by omega
    rw [heq, if_pos hlt, UInt64.ofNat_toNat]

theorem map_kind_eq {o : Option Ref} {k : RefKind} :
    (o.map fun r => (⟨k, r.id⟩ : Ref)) = o ↔ ∀ r, o = some r → r.kind = k := by
  cases o with
  | none => simp
  | some r =>
    cases r
    simp [eq_comm]

theorem image_kind_eq {s : Finset Ref} {k : RefKind} :
    (s.image fun r => (⟨k, r.id⟩ : Ref)) = s ↔ ∀ r ∈ s, r.kind = k := by
  constructor
  · intro h r hr
    rw [← h] at hr
    obtain ⟨q, -, rfl⟩ := Finset.mem_image.mp hr
    rfl
  · intro h
    have hid : Set.EqOn (fun r : Ref => (⟨k, r.id⟩ : Ref)) id s := fun r hr => by
      show (⟨k, r.id⟩ : Ref) = r
      rw [← h r hr]
    rw [Finset.image_congr hid, Finset.image_id]

theorem get_readBack_iff (ht : t.Carried cbor) (blocks : Finset Ref) (unknown : Unknowns []) :
    (∀ f, (t.readBack blocks unknown).get f = t.get f) ↔ t.Fits := by
  constructor
  · intro h
    have hassignee : none = t.assignee := h .assignee
    have hestimate : (t.estimatedDurationS.bind estimatedMin).bind estimatedDuration =
        t.estimatedDurationS := h .estimatedDurationS
    have hstream : (t.streamId.map fun r => (⟨.stream, r.id⟩ : Ref)) = t.streamId := h .streamId
    have hcontexts : (t.contexts.image fun c => (⟨.context, c.id⟩ : Ref)) = t.contexts :=
      h .contexts
    have hblocked : (t.blockedBy.image fun b => (⟨.task, b.id⟩ : Ref)) = t.blockedBy :=
      h .blockedBy
    have hroutine : (t.routineId.map fun r => (⟨.routine, r.id⟩ : Ref)) = t.routineId :=
      h .routineId
    refine ⟨hassignee.symm, ?_, map_kind_eq.mp hstream, image_kind_eq.mp hcontexts,
      image_kind_eq.mp hblocked, map_kind_eq.mp hroutine⟩
    intro s hs
    rw [hs] at hestimate
    exact (bind_estimatedMin_eq_some s).mp hestimate
  · intro h f
    have hid : (⟨.task, t.id.id⟩ : Ref) = t.id := by rw [← ht.kind]
    have hestimate : (t.estimatedDurationS.bind estimatedMin).bind estimatedDuration =
        t.estimatedDurationS := by
      cases hs : t.estimatedDurationS with
      | none => rfl
      | some s => exact (bind_estimatedMin_eq_some s).mpr (h.estimate s hs)
    cases f with
    | id => exact hid
    | estimatedDurationS => exact hestimate
    | streamId => exact map_kind_eq.mpr h.stream
    | contexts => exact image_kind_eq.mpr h.contexts
    | blockedBy => exact image_kind_eq.mpr h.blockedBy
    | assignee => exact h.assignee.symm
    | routineId => exact map_kind_eq.mpr h.routine
    | _ => rfl

theorem keepsRow_iff_fits (hc : cbor.Lawful) (hb : cbor.WritesBytes) (hJ : J.Spells)
    (ht : t.Carried cbor) : KeepsRow cbor db t lww ↔ t.Fits := by
  obtain ⟨blocks, unknown, hread⟩ := @readTask_writeTask J cbor db t lww hc hb hJ ht
  rw [← get_readBack_iff ht blocks unknown]
  constructor
  · intro ⟨t', ht', hget⟩
    rw [hread] at ht'
    cases ht'
    exact hget
  · intro hget
    exact ⟨_, hread, hget⟩

theorem KeepsRow.keepsOthers (h : KeepsRow cbor db t lww) : KeepsOthers cbor db t lww := by
  obtain ⟨t', hread, hget⟩ := h
  intro f edit hedit
  exact ⟨t', hread, fun g hg => (hedit t' g hg).trans (hget g)⟩

/-- **Every field of a task comes back, and an edit of one leaves the others, exactly for a
task its row has room for.** -/
theorem keepsRow_iff (hc : cbor.Lawful) (hb : cbor.WritesBytes) (hJ : J.Spells)
    (ht : t.Carried cbor) :
    KeepsRow cbor db t lww ∧ KeepsOthers cbor db t lww ↔ t.Fits := by
  rw [← @keepsRow_iff_fits J cbor db t lww hc hb hJ ht]
  exact ⟨fun h => h.1, fun h => ⟨h, h.keepsOthers⟩⟩

end

/-! ### A task of an hour and a half, and one of a minute and a half -/

/-- A calendar whose civil values are their own spellings, with no zone but UTC. -/
def Jiff.sample : Jiff where
  Date := String
  Time := String
  DateTime := String
  Zone := Unit
  zoneOf _ := none
  utc := ()
  timestampIn _ _ := none
  dateTimeIn _ _ := "1970-01-01T00:00:00"
  midnight d := d ++ "T00:00:00"
  dateOf t := (t.take 10).toString
  year _ := 1970
  showDate d := d
  showTime t := t
  showDateTime t := t
  dateFrom := some
  timeFrom := some
  dateTimeFrom := some
  timestampFrom _ := none

theorem Jiff.sample_spells : Jiff.sample.Spells := ⟨fun _ => rfl, fun _ => rfl, fun _ => rfl⟩

def estimatedTask (seconds : UInt64) : Task Jiff.sample where
  id := ⟨.task, 1⟩
  createdAt := .unixEpoch
  updatedAt := .unixEpoch
  title := "Write the report"
  body := none
  streamId := none
  contexts := ∅
  state := .known .todo
  priority := none
  energy := none
  estimatedDurationS := some seconds
  plannedAt := none
  targetAt := none
  hardDueAt := none
  schedulingConstraints := []
  completedAt := none
  deferredCount := 0
  blocks := ∅
  blockedBy := ∅
  assignee := none
  routineId := none
  routineOccurrence := none
  hardConstraintViolated := false
  reminderLeadS := none
  sortOrder := none
  triagedAt := none
  cancelReason := none
  lateAcknowledgedAt := none
  archived := false
  deleted := false
  unknown := .empty

def TaskTables.empty : TaskTables := ⟨∅, ∅, ∅, ∅, by simp⟩

def LwwStamp.first : LwwStamp := ⟨⟨0, 0⟩, 1, 1⟩

theorem unixEpoch_carried : Timestamp.unixEpoch.Carried := ⟨by decide, by decide⟩

theorem estimatedTask_carried (seconds : UInt64) : (estimatedTask seconds).Carried Cbor.codec where
  kind := rfl
  createdAt := unixEpoch_carried
  updatedAt := unixEpoch_carried
  routineOccurrence _ h := by cases h
  triagedAt _ h := by cases h
  lateAcknowledgedAt _ h := by cases h
  plannedAt _ h := by cases h
  targetAt _ h := by cases h
  hardDueAt _ h := by cases h
  completedAt _ h := by cases h
  constraints _ h := by cases h
  constraintsRegular := Cbor.forall_nodes_array.mpr ⟨Nat.two_pow_pos 64, fun _ h => by cases h⟩
  constraintsDepth := by
    show 1 ≤ 32
    decide

/-- A task of a stream, in two contexts, that waits for another and says when it is to be done. -/
def plannedTask : Task Jiff.sample :=
  { estimatedTask 5400 with
    streamId := some ⟨.stream, 2⟩
    contexts := {⟨.context, 3⟩, ⟨.context, 4⟩}
    blockedBy := {⟨.task, 5⟩}
    plannedAt := some (.zoned "2026-03-08T09:00:00" "America/New_York")
    targetAt := some (.allDay "2026-03-09")
    hardDueAt := some (.instant (msToTs 1773100800000)) }

theorem plannedTask_carried : plannedTask.Carried Cbor.codec :=
  { estimatedTask_carried 5400 with
    plannedAt := by rintro _ ⟨⟩; trivial
    targetAt := by rintro _ ⟨⟩; trivial
    hardDueAt := by rintro _ ⟨⟩; exact (by decide : (msToTs 1773100800000).ToMillisecond) }

theorem keepsRow_iff_report :
    KeepsRow Cbor.codec .empty plannedTask .first ∧
      KeepsOthers Cbor.codec .empty plannedTask .first := by
  refine (keepsRow_iff Cbor.codec_lawful Cbor.codec_writesBytes Jiff.sample_spells
    plannedTask_carried).mpr ⟨rfl, ?_, ?_, ?_, ?_, ?_⟩
  · rintro _ ⟨⟩
    decide
  · rintro _ ⟨⟩
    rfl
  · decide
  · decide
  · rintro _ ⟨⟩

theorem not_keepsRow_report : ¬ ∀ (J : Jiff) (cbor : Cbor.Codec) (db : TaskTables) (t : Task J)
    (lww : LwwStamp), cbor.Lawful → cbor.WritesBytes → J.Spells → t.Carried cbor →
    KeepsRow cbor db t lww ∧ KeepsOthers cbor db t lww := by
  intro h
  have hkeeps := (h _ _ .empty (estimatedTask 90) .first Cbor.codec_lawful
    Cbor.codec_writesBytes Jiff.sample_spells (estimatedTask_carried 90)).1
  have hfits := (keepsRow_iff_fits Cbor.codec_lawful Cbor.codec_writesBytes Jiff.sample_spells
    (estimatedTask_carried 90)).mp hkeeps
  exact absurd (hfits.estimate 90 rfl).1 (by decide)

end Rows

end Sunrise
