import Sunrise.Value

/-!
# The entity registry

What the merge reads of the registry: for each entity kind whose ops merge field
by field, its records, and for each field of a record its name on the wire, the
CRDT type it merges by, the conflict class that decides between its concurrent
writes, and the value it reads as when nothing wrote it.

The kinds that no `Patch` and no full-state op writes (notes, people, devices,
identities, focus sessions and review snapshots) never reach the merge and are
not listed.

* `EntitySpec.field?`, `EntitySpec.nestedRecord`, `EntitySpec.registeredField`
  — the lookups.
-/

namespace Sunrise

/-- The entity kinds that merge field by field. -/
inductive EntityKind where
  | task | stream | context | routine | block | attachment | preferences | savedView
deriving DecidableEq, Repr, Inhabited

/-- How a field merges. -/
inductive Crdt where
  | register | map | orSet | counter | nested | derived
deriving DecidableEq, Repr

/-- What a field's concurrent writes come to. -/
inductive Conflict where
  | merge | quiet | tracked | state | tombstone
deriving DecidableEq, Repr

/-- The `state` spellings that beat every other one. -/
def terminalStates : List String := ["done", "cancelled"]

/-- One field of a record. -/
structure FieldSpec where
  name : String
  crdt : Crdt
  conflict : Conflict
  valueType : String := ""
  /-- What it reads as when no op wrote it, where its decoder has no default. -/
  fieldDefault : Option Value := none

/-- One record type an entity's ops write. -/
structure RecordSpec where
  name : String
  fields : List FieldSpec

/-- One registered entity kind. The source keeps a list of records whose first is
the entity's own; no merged kind has an empty one. -/
structure EntitySpec where
  tag : String
  own : RecordSpec
  others : List RecordSpec := []

/-! ### The table -/

private def reg (name : String) (c : Conflict) : FieldSpec := ⟨name, .register, c, "", none⟩

private def regOr (name : String) (c : Conflict) (v : String) : FieldSpec :=
  ⟨name, .register, c, "", some (.text v)⟩

private def orSet (name : String) : FieldSpec := ⟨name, .orSet, .merge, "", none⟩

private def derived (name : String) : FieldSpec := ⟨name, .derived, .merge, "", none⟩

private def identity : List FieldSpec :=
  [reg "id" .quiet, reg "created_at" .quiet, reg "updated_at" .quiet]

private def taskRecord : RecordSpec where
  name := "Task"
  fields := identity ++
    [regOr "title" .tracked "", reg "body" .tracked,
      regOr "stream_id" .tracked "str_0000076XBEE9MQ6S9ED5Q64VVR", orSet "contexts",
      regOr "state" .state "todo", reg "priority" .quiet, reg "energy" .quiet,
      reg "estimated_duration_s" .quiet, reg "scheduled_at" .tracked, reg "target_at" .tracked,
      reg "due_at" .tracked, reg "scheduling_constraints" .tracked, reg "completed_at" .quiet,
      ⟨"deferred_count", .counter, .merge, "", none⟩, derived "blocks", orSet "blocked_by",
      reg "assignee" .tracked, reg "routine_id" .quiet, reg "routine_occurrence" .quiet,
      reg "hard_constraint_violated" .quiet, reg "reminder_lead_s" .quiet,
      reg "sort_order" .quiet, reg "triaged_at" .quiet, reg "cancel_reason" .quiet,
      reg "late_acknowledged_at" .quiet, reg "archived" .quiet, reg "deleted" .tombstone]

private def streamRecord : RecordSpec where
  name := "Stream"
  fields := identity ++
    [reg "name" .tracked, reg "description" .tracked, reg "color" .quiet, reg "icon" .quiet,
      reg "parent_id" .tracked, reg "sort_order" .quiet, reg "archived" .quiet,
      reg "paused" .quiet, reg "paused_until" .tracked, reg "review_cadence" .quiet,
      reg "default_context" .quiet, reg "reminder_lead_s" .quiet, reg "deleted" .tombstone,
      reg "rehomed_to" .tracked]

private def contextRecord : RecordSpec where
  name := "Context"
  fields := identity ++
    [regOr "name" .tracked "", reg "description" .tracked, reg "archived" .quiet,
      reg "deleted" .tombstone]

private def routineRecord : RecordSpec where
  name := "Routine"
  fields := identity ++
    [⟨"template", .nested, .merge, "TaskTemplate", none⟩, reg "rrule" .tracked,
      reg "timezone" .tracked, reg "starts_at" .tracked, reg "ends_at" .tracked,
      reg "scheduling_constraints" .tracked, reg "skip_dates" .tracked, orSet "skipped_keys",
      reg "catchup_policy" .quiet, derived "streak_counter", derived "last_completed_at",
      reg "grace_window_s" .quiet, reg "forgiveness_enabled" .quiet,
      derived "streak_started_at", derived "forgivenesses_in_window", orSet "streak_keys",
      reg "paused" .quiet, reg "paused_until" .tracked, reg "archived" .quiet,
      reg "deleted" .tombstone, reg "split_from" .quiet]

private def taskTemplateRecord : RecordSpec where
  name := "TaskTemplate"
  fields :=
    [reg "title" .tracked, reg "stream_id" .tracked, reg "contexts" .tracked,
      reg "energy" .tracked, reg "priority" .tracked, reg "estimated_duration_s" .tracked,
      reg "body" .tracked]

private def blockRecord : RecordSpec where
  name := "Block"
  fields := identity ++
    [reg "stream_id" .tracked, reg "starts_at" .tracked, reg "ends_at" .tracked,
      reg "title" .tracked, reg "title_track_task" .quiet, orSet "tasks",
      reg "deleted" .tombstone]

private def attachmentRecord : RecordSpec where
  name := "Attachment"
  fields := identity ++
    [reg "parent" .quiet, reg "filename" .quiet, reg "mime_type" .quiet, reg "size_bytes" .quiet,
      reg "blob_key" .quiet, reg "blob_id" .quiet, reg "chunk_count" .quiet,
      reg "content_hash" .quiet, reg "ciphertext_hash" .quiet, reg "width" .quiet,
      reg "height" .quiet, reg "thumbnail_blob_id" .quiet, reg "thumbnail_blob_key" .quiet,
      reg "thumbnail_mime" .quiet, reg "thumbnail_size_bytes" .quiet,
      reg "thumbnail_content_hash" .quiet, reg "thumbnail_ciphertext_hash" .quiet,
      reg "deleted" .tombstone]

private def preferencesRecord : RecordSpec where
  name := "Preferences"
  fields := identity ++ [⟨"values", .map, .merge, "", none⟩]

private def savedViewRecord : RecordSpec where
  name := "SavedView"
  fields := identity ++
    [reg "name" .tracked, reg "view" .tracked, reg "filter" .tracked, reg "sort" .quiet,
      reg "sort_order" .quiet, reg "deleted" .tombstone]

/-- The registry's entry for a kind. -/
def EntityKind.spec : EntityKind → EntitySpec
  | .task => { tag := "task", own := taskRecord }
  | .stream => { tag := "stream", own := streamRecord }
  | .context => { tag := "context", own := contextRecord }
  | .routine => { tag := "routine", own := routineRecord, others := [taskTemplateRecord] }
  | .block => { tag := "block", own := blockRecord }
  | .attachment => { tag := "attachment", own := attachmentRecord }
  | .preferences => { tag := "preferences", own := preferencesRecord }
  | .savedView => { tag := "saved_view", own := savedViewRecord }

/-! ### Lookups -/

def RecordSpec.field? (r : RecordSpec) (name : String) : Option FieldSpec :=
  r.fields.find? fun f => f.name == name

namespace EntitySpec

def record (spec : EntitySpec) (name : String) : Option RecordSpec :=
  (spec.own :: spec.others).find? fun r => r.name == name

/-- The CRDT type of a field of the entity's own record. -/
def crdtOf (spec : EntitySpec) (name : String) : Option Crdt :=
  (spec.own.field? name).map (·.crdt)

def nestedRecord (spec : EntitySpec) (parent : String) : Option RecordSpec :=
  (spec.own.fields.find? fun f => f.name == parent && f.crdt == .nested).bind
    fun f => spec.record f.valueType

end EntitySpec

def splitDot : List Char → Option (List Char × List Char)
  | [] => none
  | c :: cs => if c = '.' then some ([], cs) else (splitDot cs).map fun p => (c :: p.1, p.2)

/-- The two sides of a name's first dot. -/
def splitOnce (name : String) : Option (String × String) :=
  (splitDot name.toList).map fun p => (String.ofList p.1, String.ofList p.2)

namespace EntitySpec

/-- The registered field a name names: a field of the entity's own record, or
`parent.child` under a nested one. -/
def registeredField (spec : EntitySpec) (name : String) : Option FieldSpec :=
  match spec.own.field? name with
  | some f => some f
  | none =>
    (splitOnce name).bind fun p => (spec.nestedRecord p.1).bind fun r => r.field? p.2

/-- The conflict class a register folds by: `quiet` for a field this build does
not know. -/
def classOf (spec : EntitySpec) (field : String) : Conflict :=
  ((spec.registeredField field).map (·.conflict)).getD .quiet

end EntitySpec

example : EntityKind.task.spec.classOf "state" = .state := by decide

example : EntityKind.routine.spec.classOf "template.title" = .tracked := by decide

example : EntityKind.task.spec.classOf "template.title" = .quiet := by decide

end Sunrise
