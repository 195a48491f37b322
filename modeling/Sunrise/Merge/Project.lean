import Sunrise.Merge.State
import Mathlib.Data.List.Sort
import Mathlib.Order.Lex

/-!
# Reading the merge state back as an entity

`project` is the source's function of the same name: from the rows of one entity to
its CBOR map, or nothing while the entity is not created. It applies the legacy floor
to every table once more, drops the removed tags from the OR-sets, adds the deltas to
a counter's base, lays a map's entries over a whole write of the same field, and fills
in the id, the two timestamps, the registered defaults and a routine's streak.

Three things it calls are parameters (`Serde`): how an entity ref and a timestamp are
written as values, and the streak a routine's keys add up to. A `BTreeMap` is a `Table`.
-/

namespace Sunrise

/-- What the projection asks of the domain types. -/
structure Serde where
  ref : EntityKind → Id → Value
  /-- The instant of a number of milliseconds, the epoch when there is none. -/
  msToTs : ℤ → ℤ
  writeTime : ℤ → Value
  readTime : Value → Option ℤ
  /-- A routine's map read as a routine, its streak derived from its keys, and written
  back; `none` when it does not decode. -/
  streak : List (Value × Value) → Option (List (Value × Value))

def i64Max : ℤ := 2 ^ 63 - 1

/-- A number as an `i64`, when it is one. -/
def toI64 (n : ℤ) : Option ℤ := if -2 ^ 63 ≤ n ∧ n ≤ i64Max then some n else none

/-- `i64` addition that stops at the bounds. -/
def saturatingAdd (a b : ℤ) : ℤ := max (-2 ^ 63) (min i64Max (a + b))

/-- Below the legacy floor: written before the greatest legacy op, which rewrote the
whole entity. -/
def superseded (stamp : Stamp) (legacy : Option Stamp) : Bool := belowFloor legacy stamp

/-- The order a merged set's elements are written in: text by its string, anything else
after it by its canonical bytes. -/
def elementOrder (c : Codec) (element : Bytes) : ℕ ×ₗ Bytes :=
  match c.dec element with
  | .text s => toLex (0, s.toUTF8.toList.map (·.toNat))
  | _ => toLex (1, element)

def textEntries (t : Table String Value) : List (Value × Value) :=
  t.rows.map fun r => (.text r.1, r.2)

namespace Project

/-- The register rows, values decoded. -/
abbrev Read := Table String (Option Value × Stamp)

def registers (c : Codec) (e : Entity) : Read :=
  e.regs.registers.mapValues fun _ m => (m.value.map c.dec, m.stamp)

/-- Put one register's value under its field, or under the child of its record. -/
def placeRegister (spec : EntitySpec) (legacy : Option Stamp)
    (acc : Table String Value × Table String (Table String Value))
    (row : String × (Option Value × Stamp)) :
    Table String Value × Table String (Table String Value) :=
  if superseded row.2.2 legacy || spec.crdtOf row.1 == some .counter then acc
  else
    match row.2.1 with
    | none => acc
    | some value =>
      match splitOnce row.1 with
      | some (parent, child) =>
        if (spec.nestedRecord parent).isSome then
          (acc.1, acc.2.upsert parent (((acc.2.find parent).getD ∅).upsert child value))
        else (acc.1.upsert row.1 value, acc.2)
      | none => (acc.1.upsert row.1 value, acc.2)

/-- The register values, nested records put together. -/
def placeRegisters (spec : EntitySpec) (legacy : Option Stamp) (regs : Read) :
    Table String Value :=
  let placed := regs.rows.foldl (placeRegister spec legacy) (∅, ∅)
  placed.2.rows.foldl (fun top r => top.upsert r.1 (.map (textEntries r.2))) placed.1

/-- The names of the entity's own fields of one type. -/
def fieldsOf (spec : EntitySpec) (crdt : Crdt) : List String :=
  (spec.own.fields.filter fun f => f.crdt == crdt).map (·.name)

/-- The live elements of every OR-set. -/
def sets (spec : EntitySpec) (legacy : Option Stamp) (e : Entity) :
    Table String (Table Bytes Unit) :=
  e.adds.rows.foldl
    (fun sets r =>
      let field := (ofLex r.1).1
      let element := (ofLex (ofLex r.1).2).1
      let entry := (sets.find field).getD ∅
      if superseded ((TagKey.tag r.1).stamp r.2) legacy || (e.removes.find r.1).isSome then
        sets.upsert field entry
      else sets.upsert field (entry.upsert element ()))
    ((fieldsOf spec .orSet).foldl (fun sets name => sets.upsert name ∅) ∅)

def setValue (c : Codec) (elements : Table Bytes Unit) : Value :=
  let elements := elements.rows.map (·.1)
  let sorted := elements.insertionSort fun a b => elementOrder c a ≤ elementOrder c b
  .array (sorted.map c.dec)

/-- The integer the register of a counter holds, its base. -/
def counterBase (legacy : Option Stamp) (regs : Read) (field : String) : ℤ :=
  match regs.find field with
  | some (value, s) =>
    if superseded s legacy then 0 else ((value.bind Value.asInteger).bind toI64).getD 0
  | none => 0

/-- The counters: the legacy base, plus every delta after it. -/
def counters (spec : EntitySpec) (legacy : Option Stamp) (regs : Read) (e : Entity) :
    Table String ℤ :=
  e.deltas.rows.foldl
    (fun counters r =>
      let field := (ofLex r.1).1
      let entry := (counters.find field).getD (counterBase legacy regs field)
      if Entity.atOrBelowFloor legacy ((ofLex r.1).2.stamp r.2.hlc) then
        counters.upsert field entry
      else counters.upsert field (saturatingAdd entry r.2.delta))
    ((fieldsOf spec .counter).foldl
      (fun counters name => counters.upsert name (counterBase legacy regs name)) ∅)

/-- The entries of every map field at or above the floor. -/
def maps (c : Codec) (spec : EntitySpec) (legacy : Option Stamp) (e : Entity) :
    Table String (List (String × Value × Stamp)) :=
  e.maps.rows.foldl
    (fun maps r =>
      let field := (ofLex r.1).1
      let entry := (maps.find field).getD []
      if superseded r.2.stamp legacy then maps.upsert field entry
      else maps.upsert field (entry ++ [((ofLex r.1).2, c.dec r.2.value, r.2.stamp)]))
    ((fieldsOf spec .map).foldl (fun maps name => maps.upsert name []) ∅)

/-- A map field's value from its entries and from the register a write of the whole
field left: an entry stamped before the whole write is superseded, a later one is
applied on top. -/
def mapOverWhole (whole : Option (Value × Stamp)) (entries : List (String × Value × Stamp)) :
    Option Value :=
  match whole with
  | none =>
    some (.map ((entries.filter fun e => !e.2.1.isNull).map fun e => (.text e.1, e.2.1)))
  | some (value, stamp) =>
    let newer := entries.filter fun e => decide (stamp < e.2.2)
    let base? := match value with
      | .map base => some base
      | _ => if newer.isEmpty then none else some []
    base?.map fun base => .map (newer.foldl
      (fun base e =>
        let base := base.filter fun kv => kv.1.asText != some e.1
        if e.2.1.isNull then base else base ++ [(.text e.1, e.2.1)])
      base)

def wholeWrite (spec : EntitySpec) (legacy : Option Stamp) (regs : Read) (field : String) :
    Option (Value × Stamp) :=
  match regs.find field with
  | some (some value, s) =>
    if !superseded s legacy && (spec.crdtOf field).isNone then some (value, s) else none
  | _ => none

/-- The id and the two timestamps. -/
def stampFields (s : Serde) (kind : EntityKind) (id : Id) (m : Bookkeeping)
    (top : Table String Value) : Table String Value :=
  let ms := fun n : ℕ => s.msToTs (min (n : ℤ) i64Max)
  let top := top.upsert "id" (s.ref kind id)
  let top := if (top.find "created_at").isSome then top
    else top.upsert "created_at"
      (s.writeTime (ms ((m.create.map fun c => c.hlc.physicalMs).getD 0)))
  let written := (top.find "updated_at").bind s.readTime
  let patched := m.patchMs.map ms
  let updated := match written, patched with
    | some w, some p => some (max w p)
    | w, p => w <|> p
  match updated with
  | some u => top.upsert "updated_at" (s.writeTime u)
  | none =>
    match top.find "created_at" with
    | some created => top.upsert "updated_at" created
    | none => top

def fillDefaults (spec : EntitySpec) (top : Table String Value) : Table String Value :=
  spec.own.fields.foldl
    (fun top f =>
      match f.fieldDefault with
      | some v => if (top.find f.name).isSome then top else top.upsert f.name v
      | none => top) top

def streakFields : List String :=
  ["streak_counter", "last_completed_at", "streak_started_at", "forgivenesses_in_window"]

/-- Whether a `Patch` above the legacy floor wrote a routine's keys. -/
def keysWrittenByAPatch (e : Entity) (legacy : Option Stamp) : Bool :=
  e.dag.versions.rows.any fun r =>
    decide (r.2.kind = .patch) && !Entity.atOrBelowFloor legacy (rowStamp r) &&
      (decide ("streak_keys" ∈ r.2.fields) || decide ("skipped_keys" ∈ r.2.fields))

/-- Replace a routine's streak fields with the ones its keys add up to. -/
def deriveStreak (s : Serde) (top : Table String Value) : Table String Value :=
  match s.streak (textEntries top) with
  | none => top
  | some written =>
    streakFields.foldl
      (fun top name =>
        match getEntry written name with
        | some v => top.upsert name v
        | none => top.erase name) top

end Project

open Project in
/-- The merged entity as a CBOR map, or `none` while it is not created. -/
def project (c : Codec) (s : Serde) (kind : EntityKind) (id : Id) (m : Bookkeeping) (e : Entity) :
    Option Value :=
  if !m.created then none
  else
    let spec := kind.spec
    let legacy := m.legacy
    let regs := registers c e
    let top := placeRegisters spec legacy regs
    let top := (sets spec legacy e).rows.foldl
      (fun top r => top.upsert r.1 (setValue c r.2)) top
    let top := (counters spec legacy regs e).rows.foldl
      (fun top r => top.upsert r.1 (.integer r.2)) top
    let top := (maps c spec legacy e).rows.foldl
      (fun top r =>
        match mapOverWhole (wholeWrite spec legacy regs r.1) r.2 with
        | some value => top.upsert r.1 value
        | none => top) top
    let top := fillDefaults spec (stampFields s kind id m top)
    let top := if kind = .routine ∧ keysWrittenByAPatch e legacy then deriveStreak s top else top
    some (.map (textEntries top))

/-- What the store projects under an id: the entity its bookkeeping row names. -/
def projection (c : Codec) (s : Serde) (store : Store) (id : Id) : Option Value :=
  (store id).book.bind fun b => project c s b.1 id b.2 (store id)

end Sunrise
