import Sunrise.Merge.Convergence
import Sunrise.Merge.Project

/-!
# The fields of a projected entity

`project` puts an entity's map together table by table: the registers, the OR-sets over
them, then the counters, the maps, the id and the timestamps, the registered defaults and a
routine's streak. Each step writes some names and leaves the others, so a field can be
followed through them by its name.

## Main definitions

* `Project.shownAt` — what the tables show under a name.
* `Records`, `checkField`, `Op.Checked` — the check of a `Patch`.

## Main results

* `Project.exists_project_find` — what an entity's map holds under a name.
* `Op.Checked.fieldOpFits` — a checked op writes a field as its registered class.
-/

namespace Sunrise

open Table

theorem getEntry_textEntries (t : Table String Value) (name : String) :
    getEntry (textEntries t) name = t.find name := by
  unfold getEntry textEntries Table.find
  induction t.rows with
  | nil => rfl
  | cons r rows ih =>
    obtain ⟨k, v⟩ := r
    rw [List.map_cons, lookup_cons, List.find?_cons]
    by_cases hk : name = k
    · subst hk
      simp [Value.asText]
    · have hne : ((Value.text k).asText == some name) = false := by
        simp [Value.asText, Ne.symm hk]
      rw [hne, if_neg hk]
      exact ih

namespace Project

variable {spec : EntitySpec} {legacy : Option Stamp} {k : String} {e : Entity}

/-! ### The steps after the registers -/

theorem find_foldl_names {V : Type} (v : String → V) (names : List String) (k : String) :
    (names.foldl (fun t name => t.upsert name (v name)) (∅ : Table String V)).find k =
      if k ∈ names then some (v k) else none := by
  split
  next h => exact find_foldl_upsert_of_mem id v h fun b _ hb => congrArg v hb
  next h =>
    refine find_foldl_upsert_of_not_mem id v fun b hb heq => h ?_
    exact (show b = k from heq) ▸ hb

theorem find_counters_eq_none {regs : Read} (h : k ∉ fieldsOf spec .counter)
    (hrows : ∀ r ∈ e.deltas.rows, (ofLex r.1).1 ≠ k) :
    (counters spec legacy regs e).find k = none := by
  unfold counters
  rw [find_foldl_of_find, find_foldl_names, if_neg h]
  intro r hr t
  dsimp only
  split
  · exact find_upsert_of_ne _ _ (hrows r hr).symm
  · exact find_upsert_of_ne _ _ (hrows r hr).symm

theorem find_maps_eq_none (c : Codec) (h : k ∉ fieldsOf spec .map)
    (hrows : ∀ r ∈ e.maps.rows, (ofLex r.1).1 ≠ k) :
    (Project.maps c spec legacy e).find k = none := by
  unfold Project.maps
  rw [find_foldl_of_find, find_foldl_names (fun _ => []), if_neg h]
  intro r hr t
  dsimp only
  split
  · exact find_upsert_of_ne _ _ (hrows r hr).symm
  · exact find_upsert_of_ne _ _ (hrows r hr).symm

end Project

/-- The fields a `Patch` never writes. -/
def unwritable : List String := ["id", "created_at", "updated_at"]

/-- The value a field of the entity's own record reads as when nothing wrote it. -/
def EntitySpec.defaultOf (spec : EntitySpec) (name : String) : Option Value :=
  spec.own.fields.findSome? fun f => if f.name = name then f.fieldDefault else none

namespace Project

variable {spec : EntitySpec} {legacy : Option Stamp} {k : String} {e : Entity} {s : Serde}

theorem find_stampFields {kind : EntityKind} {id : Id} {m : Bookkeeping}
    {top : Table String Value} (hk : k ∉ unwritable) :
    (stampFields s kind id m top).find k = top.find k := by
  have hne : ∀ name ∈ unwritable, ∀ (t : Table String Value) v,
      (t.upsert name v).find k = t.find k := by
    intro name hname t v
    apply find_upsert_of_ne
    rintro rfl
    exact hk hname
  have hid := hne "id" (by decide)
  have hcreated := hne "created_at" (by decide)
  have hupdated := hne "updated_at" (by decide)
  -- the id and the creation first
  have htop : ∀ v, (if ((top.upsert "id" v).find "created_at").isSome then top.upsert "id" v
      else (top.upsert "id" v).upsert "created_at" (s.writeTime (s.msToTs
        (min ((((m.create.map fun c => c.hlc.physicalMs).getD 0 : ℕ)) : ℤ) i64Max)))).find k =
        top.find k := by
    intro v
    split
    · exact hid _ _
    · rw [hcreated, hid]
  unfold stampFields
  dsimp only
  split
  · rw [hupdated, htop]
  · split
    · rw [hupdated, htop]
    · exact htop _

theorem find_fillDefaults (spec : EntitySpec) (top : Table String Value) :
    (fillDefaults spec top).find k = (top.find k).or (spec.defaultOf k) := by
  unfold fillDefaults EntitySpec.defaultOf
  induction spec.own.fields generalizing top with
  | nil => simp
  | cons f fields ih =>
    rw [List.foldl_cons, ih, List.findSome?_cons]
    cases hf : f.fieldDefault with
    | none => simp
    | some v =>
      dsimp only
      by_cases hk : f.name = k
      · subst hk
        rw [if_pos rfl]
        cases htop : top.find f.name with
        | none => simp
        | some w => simp [htop]
      · rw [if_neg hk]
        congr 1
        split
        · rfl
        · exact find_upsert_of_ne _ _ (Ne.symm hk)

theorem find_deriveStreak {top : Table String Value} (hk : k ∉ streakFields) :
    (deriveStreak s top).find k = top.find k := by
  unfold deriveStreak
  split
  · rfl
  · apply find_foldl_of_find
    intro name hname t
    have hne : k ≠ name := by
      rintro rfl
      exact hk hname
    split
    · exact find_upsert_of_ne _ _ hne
    · rw [find_erase, if_neg hne]

/-- What the tables come to at a name: a map's entries over a counter, over a set, over a
register. -/
def shownAt (c : Codec) (spec : EntitySpec) (legacy : Option Stamp) (e : Entity) (k : String) :
    Option Value :=
  (((Project.maps c spec legacy e).find k).bind
    (mapOverWhole (wholeWrite spec legacy (registers c e) k))).or
  ((((counters spec legacy (registers c e) e).find k).map .integer).or
  ((((sets spec legacy e).find k).map (setValue c)).or
  ((placeRegisters spec legacy (registers c e)).find k)))

/-- **A name shows what the tables come to there**, or its default: the last steps leave it. -/
theorem exists_project_find (c : Codec) (s : Serde) (kind : EntityKind) (id : Id) {m : Bookkeeping}
    (hm : m.created = true) (e : Entity) :
    ∃ top : Table String Value, project c s kind id m e = some (.map (textEntries top)) ∧
      ∀ k, k ∉ unwritable → (kind = .routine → k ∉ streakFields) →
        top.find k = (shownAt c kind.spec m.legacy e k).or (kind.spec.defaultOf k) := by
  unfold project
  rw [hm, if_neg (by decide)]
  dsimp only
  refine ⟨_, rfl, fun k hk hstreak => ?_⟩
  have hfilled : ∀ top : Table String Value,
      (if kind = .routine ∧ keysWrittenByAPatch e m.legacy then deriveStreak s top
        else top).find k = top.find k := by
    intro top
    split
    next h => exact find_deriveStreak (hstreak h.1)
    next => rfl
  rw [hfilled, find_fillDefaults, find_stampFields hk]
  congr 1
  unfold shownAt
  generalize Project.maps c kind.spec m.legacy e = maps
  generalize counters kind.spec m.legacy (registers c e) e = counters
  generalize sets kind.spec m.legacy e = sets
  rw [← find_foldl_upsert_map (setValue c), ← find_foldl_upsert_map Value.integer]
  generalize counters.rows.foldl _ _ = top
  have h := find_foldl_upsert_some
    (fun k => mapOverWhole (wholeWrite kind.spec m.legacy (registers c e) k)) maps.sorted top k
  refine Eq.trans (congrArg (fun step => (maps.rows.foldl step top).find k) ?_) h
  funext t r
  cases mapOverWhole (wholeWrite kind.spec m.legacy (registers c e) r.1) r.2 with
  | none => rfl
  | some v => rfl

end Project

/-! ### The check of a `Patch` -/

/-- What the check and the commands ask of the record types. -/
structure Records where
  /-- Whether a value, set at a field of a sample entity, leaves a map that decodes. -/
  fits : EntityKind → String → Value → Bool
  /-- A map decoded as its kind's record and encoded again. -/
  reread : EntityKind → List (Value × Value) → Option (List (Value × Value))

/-- A type's name in an error. -/
def Crdt.debug : Crdt → String
  | .register => "Register"
  | .map => "Map"
  | .orSet => "OrSet"
  | .counter => "Counter"
  | .nested => "Nested"
  | .derived => "Derived"

/-- Whether the values of a field op are of the field's type. Nothing where the op is not
of the type's form. -/
def fieldOpFits (r : Records) (kind : EntityKind) (name : String) : Crdt → FieldOp → Option Bool
  | .register, .set v => some (r.fits kind name v)
  | .orSet, .edit add remove =>
    some ((add ++ remove.map (·.1)).all fun e => r.fits kind name (.array [e]))
  | .counter, .inc _ => some true
  | .map, .map entries =>
    some (entries.all fun e => e.2.isNull || r.fits kind name (.map [(.text e.1, e.2)]))
  | _, _ => none

def checkField (r : Records) (kind : EntityKind) (name : String) (op : FieldOp) :
    Except String Unit :=
  let quoted := "`" ++ name ++ "`"
  if name ∈ unwritable then .error (quoted ++ " is not written by a patch")
  else
    match kind.spec.registeredField name with
    -- a field this build does not know merges by the kind its op names
    | none => .ok ()
    | some f =>
      match fieldOpFits r kind name f.crdt op with
      | some true => .ok ()
      | some false => .error (quoted ++ " cannot hold the value written to it")
      | none =>
        if f.crdt = .nested ∨ f.crdt = .derived then
          .error (quoted ++ " is " ++ f.crdt.debug ++ ", not written by a patch")
        else .error (quoted ++ " is a " ++ f.crdt.debug ++ ", and the op is not")

/-- The check of the field ops of an op: a full-state op carries a record. -/
def Op.Checked (r : Records) (op : Op) : Prop :=
  match op.body with
  | .patch _ _ _ _ fields => ∀ f ∈ fields, checkField r op.target.kind f.1 f.2 = .ok ()
  | .legacy .. => True

theorem checkField_eq_ok {r : Records} {kind : EntityKind} {name : String} {op : FieldOp} :
    checkField r kind name op = .ok () ↔ name ∉ unwritable ∧
      ∀ f, kind.spec.registeredField name = some f →
        fieldOpFits r kind name f.crdt op = some true := by
  unfold checkField
  dsimp only
  split
  next h => simp [h]
  next h =>
    rw [and_iff_right h]
    cases kind.spec.registeredField name with
    | none => simp
    | some f =>
      simp only [Option.some.injEq, forall_eq']
      split
      next heq => simp [heq]
      next heq => simp [heq]
      next heq =>
        rw [heq]
        split <;> simp

/-! ### What the ops of an entity write a field as -/

def Write.field : Write → String
  | .offer field _ | .add field _ | .remove field _ _ | .delta field _ | .entry field _ _ => field

theorem EntityKind.own_fields (kind : EntityKind) :
    (kind.spec.own.fields.map (·.name)).Nodup ∧
      ∀ f ∈ kind.spec.own.fields, splitOnce f.name = none := by
  cases kind <;> decide

theorem field?_of_mem {kind : EntityKind} {f : FieldSpec} (hf : f ∈ kind.spec.own.fields) :
    kind.spec.own.field? f.name = some f := by
  have hnodup := kind.own_fields.1
  unfold RecordSpec.field?
  generalize kind.spec.own.fields = fields at hf hnodup
  induction fields with
  | nil => simp at hf
  | cons g fields ih =>
    rw [List.map_cons, List.nodup_cons] at hnodup
    rw [List.find?_cons]
    rcases List.mem_cons.mp hf with rfl | hf
    · simp
    · have hne : (g.name == f.name) = false := by
        rw [beq_eq_false_iff_ne]
        intro heq
        exact hnodup.1 (List.mem_map.mpr ⟨f, hf, heq.symm⟩)
      rw [hne]
      exact ih hf hnodup.2

theorem registeredField_of_mem {kind : EntityKind} {f : FieldSpec}
    (hf : f ∈ kind.spec.own.fields) : kind.spec.registeredField f.name = some f := by
  unfold EntitySpec.registeredField
  rw [field?_of_mem hf]

theorem mem_legacyWrites {spec : EntitySpec} {state : List (Value × Value)} {w : Write}
    (hw : w ∈ legacyWrites spec state) :
    (∃ f ∈ spec.own.fields, f.crdt = .orSet ∧ ∃ e, w = .add f.name e) ∨
      (∃ f ∈ spec.own.fields, f.crdt = .map ∧ ∃ k v, w = .entry f.name k v) ∨
      ∃ v, w = .offer w.field v ∧
        ((∃ f ∈ spec.own.fields, f.crdt ≠ .nested ∧ w.field = f.name) ∨
          (∃ f ∈ spec.own.fields, ∃ child, w.field = f.name ++ "." ++ child) ∨
          ∀ f ∈ spec.own.fields, f.name ≠ w.field) := by
  unfold legacyWrites at hw
  rcases List.mem_append.mp hw with hw | hw
  · obtain ⟨f, hf, hw⟩ := List.mem_flatMap.mp hw
    unfold legacyFieldWrites at hw
    dsimp only at hw
    cases hc : f.crdt with
    | register | derived | counter =>
      rw [hc] at hw
      rw [List.mem_singleton.mp hw]
      exact .inr (.inr ⟨_, rfl, .inl ⟨f, hf, by rw [hc]; decide, rfl⟩⟩)
    | orSet =>
      rw [hc] at hw
      obtain ⟨e, -, rfl⟩ := List.mem_map.mp hw
      exact .inl ⟨f, hf, hc, e, rfl⟩
    | map =>
      rw [hc] at hw
      obtain ⟨e, -, he⟩ := List.mem_filterMap.mp hw
      obtain ⟨k, -, rfl⟩ := Option.map_eq_some_iff.mp he
      exact .inr (.inl ⟨f, hf, hc, k, e.2, rfl⟩)
    | nested =>
      rw [hc] at hw
      rcases List.mem_append.mp hw with hw | hw
      · obtain ⟨g, -, rfl⟩ := List.mem_map.mp hw
        exact .inr (.inr ⟨_, rfl, .inr (.inl ⟨f, hf, g.name, rfl⟩)⟩)
      · obtain ⟨e, -, he⟩ := List.mem_filterMap.mp hw
        obtain ⟨k, -, hk⟩ := Option.bind_eq_some_iff.mp he
        split at hk
        · simp at hk
        · obtain rfl := Option.some.inj hk
          exact .inr (.inr ⟨_, rfl, .inr (.inl ⟨f, hf, k, rfl⟩)⟩)
  · obtain ⟨e, -, he⟩ := List.mem_filterMap.mp hw
    obtain ⟨k, -, hk⟩ := Option.bind_eq_some_iff.mp he
    split at hk
    · simp at hk
    next hnot =>
      obtain rfl := Option.some.inj hk
      refine .inr (.inr ⟨_, rfl, .inr (.inr fun f hf heq => hnot ?_)⟩)
      have hname : f.name = k := heq
      simp only [Bool.or_eq_true, List.any_eq_true]
      exact .inr ⟨f, hf, by simp [hname]⟩

theorem field_of_mem_fieldOpWrites {name : String} {op : FieldOp} {w : Write}
    (hw : w ∈ fieldOpWrites name op) : w.field = name := by
  cases op with
  | set v =>
    rw [List.mem_singleton.mp hw]
    rfl
  | edit add remove =>
    rcases List.mem_append.mp hw with hw | hw
    · obtain ⟨e, -, rfl⟩ := List.mem_map.mp hw
      rfl
    · obtain ⟨x, -, hw⟩ := List.mem_flatMap.mp hw
      obtain ⟨tag, -, rfl⟩ := List.mem_map.mp hw
      rfl
  | inc n =>
    rw [List.mem_singleton.mp hw]
    rfl
  | map entries =>
    obtain ⟨e, -, rfl⟩ := List.mem_map.mp hw
    rfl

section

variable {r : Records} {op : Op}

theorem Op.Checked.fieldOpFits (h : op.Checked r) {create generated : Bool}
    {parents : Option (List OpRef)} {group : Option (Id × ℕ)} {fields : List (String × FieldOp)}
    (hbody : op.body = .patch create generated parents group fields) {w : Write}
    (hw : w ∈ op.writes) : ∃ fop, w ∈ fieldOpWrites w.field fop ∧
      ∀ f, op.target.kind.spec.registeredField w.field = some f →
        Sunrise.fieldOpFits r op.target.kind w.field f.crdt fop = some true := by
  unfold Op.writes at hw
  unfold Op.Checked at h
  rw [hbody] at hw h
  obtain ⟨⟨name, fop⟩, hmem, hw⟩ := List.mem_flatMap.mp hw
  obtain rfl := field_of_mem_fieldOpWrites hw
  exact ⟨fop, hw, (checkField_eq_ok.mp (h _ hmem)).2⟩

end

/-! ### The ops behind the rows -/

section

variable {c : Codec} {kind : EntityKind} {ops : List Op} {e : Entity}

theorem exists_delta_of_row (h : e.Sound c kind (.ofOps c {o | o ∈ ops}))
    {r : (String ×ₗ OpRef) × DeltaRow} (hr : r ∈ e.deltas.rows) :
    ∃ o ∈ ops, ∃ n, Write.delta (ofLex r.1).1 n ∈ o.writes := by
  obtain ⟨key, row⟩ := r
  obtain ⟨o, ho, -, hd⟩ := Share.mem_deltas_ofOps.mp (h.deltas _ _ (Table.mem_rows.mp hr)).1
  obtain ⟨n, hn, -⟩ := Option.map_eq_some_iff.mp hd
  obtain ⟨w, hw, hadd⟩ := List.exists_of_findSome?_eq_some hn
  cases w with
  | delta field m =>
    rw [Op.added, Option.ite_none_right_eq_some] at hadd
    exact ⟨o, ho, m, hadd.1 ▸ hw⟩
  | _ => simp [Op.added] at hadd

theorem exists_entry_of_row (h : e.Sound c kind (.ofOps c {o | o ∈ ops}))
    {r : (String ×ₗ String) × MapRow} (hr : r ∈ e.maps.rows) :
    ∃ o ∈ ops, ∃ key v, Write.entry (ofLex r.1).1 key v ∈ o.writes := by
  obtain ⟨key, row⟩ := r
  obtain ⟨o, ho, he⟩ := Share.mem_entries_ofOps.mp (h.maps _ _ (Table.mem_rows.mp hr))
  obtain ⟨n, hn, -⟩ := Option.map_eq_some_iff.mp he
  obtain ⟨w, hw, hput⟩ := List.exists_of_findSome?_eq_some hn
  cases w with
  | entry field name v =>
    rw [Op.put, Option.ite_none_right_eq_some] at hput
    obtain ⟨rfl, -⟩ := hput
    exact ⟨o, ho, name, v, List.mem_reverse.mp hw⟩
  | _ => simp [Op.put] at hput

theorem streakFields_derived : ∀ k ∈ Project.streakFields,
    (EntityKind.routine.spec.registeredField k).map (·.crdt) = some .derived := by decide

end

end Sunrise
