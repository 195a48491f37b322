import Sunrise.Merge.State

/-!
# Folding one op

An entity op is a `Patch`, which names the fields it writes, or a legacy
full-state op, which writes every field its kind registers and every key it
carries. Either comes down to a list of small writes that depends on the op
alone (`Op.writes`), made at the op's stamp:

* `legacyWrites` — a registered field the payload leaves out is written as absent,
  an OR-set's elements are added, a map's entries and a nested record's fields
  written one by one, and an unknown key becomes a register of its own;
* `patchWrites` — the field ops in order.

`mergeEntity` is the source's `merge_op_inner` on the rows of the op's entity:
admit the version, load the registers and filter them again if a late version
moved the frontiers, raise the floor for a full-state op, make the writes, flush.
`mergeOp` is the same on the store. A `Patch` is given here by its parsed field
ops, as its check accepted them.
-/

namespace Sunrise

inductive FieldOp where
  | set (v : Value)
  /-- An OR-set edit: elements added, and elements removed with their observed tags. -/
  | edit (add : List Value) (remove : List (Value × List OpRef))
  | inc (n : ℤ)
  | map (entries : List (String × Value))

/-- A full-state op's effect on its entity. -/
inductive OpClass where
  | create | update | delete
deriving DecidableEq

/-- An entity's kind and id. -/
structure EntityRef where
  kind : EntityKind
  id : Id
deriving DecidableEq

/-- What an entity op carries. -/
inductive Body where
  /-- A checked `Patch`. -/
  | patch (create generated : Bool) (parents : Option (List OpRef)) (group : Option (Id × ℕ))
      (fields : List (String × FieldOp))
  | legacy (cls : OpClass) (state : List (Value × Value)) (group : Option (Id × ℕ))

/-- One entity op. -/
structure Op where
  target : EntityRef
  stamp : Stamp
  body : Body

def fullStateGroupKey : String := "op_group"

/-! ### What an op writes -/

/-- One small write of an op. -/
inductive Write where
  | offer (field : String) (value : Option Value)
  | add (field : String) (element : Value)
  | remove (field : String) (element : Value) (tag : OpRef)
  | delta (field : String) (n : ℤ)
  | entry (field key : String) (value : Value)

/-- The writes one registered field of a full-state payload makes. -/
def legacyFieldWrites (spec : EntitySpec) (state : List (Value × Value)) (f : FieldSpec) :
    List Write :=
  let value := getEntry state f.name
  match f.crdt with
  | .register | .derived | .counter => [.offer f.name value]
  | .orSet => ((value.bind Value.asArray).getD []).map (.add f.name)
  | .map =>
    ((value.bind Value.asMap).getD []).filterMap fun e =>
      e.1.asText.map fun k => .entry f.name k e.2
  | .nested =>
    let inner := (value.bind Value.asMap).getD []
    let sub := ((spec.record f.valueType).map (·.fields)).getD []
    sub.map (fun g => .offer (f.name ++ "." ++ g.name) (getEntry inner g.name)) ++
      inner.filterMap fun e => e.1.asText.bind fun k =>
        if sub.any fun g => g.name == k then none
        else some (.offer (f.name ++ "." ++ k) (some e.2))

def legacyWrites (spec : EntitySpec) (state : List (Value × Value)) : List Write :=
  spec.own.fields.flatMap (legacyFieldWrites spec state) ++
    -- every key a newer build wrote, as a register; a group's mark is the op's
    state.filterMap fun e => e.1.asText.bind fun k =>
      if k == fullStateGroupKey || spec.own.fields.any (fun f => f.name == k) then none
      else some (.offer k (some e.2))

def fieldOpWrites (field : String) : FieldOp → List Write
  | .set v => [.offer field (some v)]
  | .edit add remove =>
    add.map (.add field) ++ remove.flatMap fun r => r.2.map fun tag => .remove field r.1 tag
  | .inc n => [.delta field n]
  | .map entries => entries.map fun e => .entry field e.1 e.2

def patchWrites (fields : List (String × FieldOp)) : List Write :=
  fields.flatMap fun f => fieldOpWrites f.1 f.2

namespace Op

def spec (op : Op) : EntitySpec := op.target.kind.spec

def writes (op : Op) : List Write :=
  match op.body with
  | .patch _ _ _ _ fields => patchWrites fields
  | .legacy _ state _ => legacyWrites op.spec state

/-- The origin of a full-state op: a user's, except the routine engine's own
occurrence creates. -/
def legacyOrigin (kind : EntityKind) (cls : OpClass) (state : List (Value × Value)) : Origin :=
  let namesRoutine := state.any fun e => e.1.asText == some "routine_id" && !e.2.isNull
  if kind = .task ∧ cls = .create ∧ namesRoutine then .generated else .user

def origin (op : Op) : Origin :=
  match op.body with
  | .patch _ generated _ _ _ => if generated then .generated else .user
  | .legacy cls state _ => legacyOrigin op.target.kind cls state

def isLegacy (op : Op) : Bool :=
  match op.body with
  | .patch .. => false
  | .legacy .. => true

/-- Whether the op creates its entity as far as the projection goes: a `Patch`
with `create`, or any full-state op, since each wrote a whole row. -/
def creates (op : Op) : Bool :=
  match op.body with
  | .patch create .. => create
  | .legacy .. => true

/-- The fields a full-state op writes: every registered one, and every other key it
carries. -/
def legacyFields (spec : EntitySpec) (state : List (Value × Value)) : Finset String :=
  (spec.own.fields.map (·.name)).toFinset ∪
    ((state.filterMap fun e => e.1.asText).filter fun k => k ≠ fullStateGroupKey).toFinset

def version (op : Op) : Version :=
  match op.body with
  | .patch create _ parents group fields =>
    { stamp := op.stamp, kind := .patch, origin := op.origin, create := create
      parents := parents, group := group, fields := (fields.map (·.1)).toFinset }
  | .legacy cls state group =>
    { stamp := op.stamp, kind := .legacy, origin := op.origin, create := decide (cls = .create)
      parents := none, group := group, fields := legacyFields op.spec state }

end Op

/-! ### The fold -/

/-- Make one write of the op `op`: registers in memory, the rest in the rows. -/
def applyWrite (c : Codec) (op : Op) (floor : Option Stamp) (w : Entity × Registers) :
    Write → Entity × Registers
  | .offer field value =>
    (w.1, w.2.offer w.1.dag field ⟨op.stamp, value.map c.enc, op.origin⟩)
  | .add field element => (w.1.addElement field (c.enc element) op.stamp floor, w.2)
  | .remove field element tag => (w.1.removeElement field (c.enc element) tag, w.2)
  | .delta field n => (w.1.addDelta field n op.stamp floor, w.2)
  | .entry field key value =>
    (w.1.writeMapEntry field key ⟨c.enc value, op.stamp, op.origin⟩, w.2)

/-- The entity's registers, loaded after its newest version was admitted. -/
def registersAfter (e : Entity) (floor : Option Stamp) (admitted : Admission) : Registers :=
  let regs := Registers.load e.regs floor
  if admitted.refined then regs.refilter e.dag else regs

/-- Fold a full-state op: note it, raise the floor to it if it is the greatest, and
make its writes. -/
def foldLegacy (c : Codec) (op : Op) (e : Entity) (m : Bookkeeping) (regs : Registers) :
    Entity × Bookkeeping × Registers :=
  let m := (m.note op.stamp).noteCreate op.stamp
  let raises := match m.legacy with
    | some l => decide (l < op.stamp)
    | none => true
  let m := if raises then { m with legacy := some op.stamp } else m
  let e := if raises then e.pruneBelowFloor op.stamp else e
  let regs := if raises then regs.raiseFloor op.stamp else regs
  let w := op.writes.foldl (applyWrite c op m.legacy) (e, regs)
  (w.1, m, w.2)

/-- Fold a `Patch`: note it and make its writes. -/
def foldPatch (c : Codec) (op : Op) (create : Bool) (e : Entity) (m : Bookkeeping)
    (regs : Registers) : Entity × Bookkeeping × Registers :=
  let m := m.note op.stamp
  let m := if create then m.noteCreate op.stamp else m
  let m := m.notePatch op.stamp
  let w := op.writes.foldl (applyWrite c op m.legacy) (e, regs)
  (w.1, m, w.2)

def mergeEntity (c : Codec) (op : Op) (e : Entity) : Entity :=
  let m := (e.book.map (·.2)).getD (Bookkeeping.fresh op.stamp)
  let admitted := e.dag.admitVersion op.version
  let e := { e with dag := admitted.1 }
  let regs := registersAfter e m.legacy admitted.2
  let folded :=
    match op.body with
    | .patch create .. => foldPatch c op create e m regs
    | .legacy .. => foldLegacy c op e m regs
  { folded.1 with
    regs := folded.2.2.flush c op.spec e.regs
    -- the `kind` column keeps what the first write gave it
    book := some ((e.book.map (·.1)).getD op.target.kind, folded.2.1) }

/-- Fold one op into the merge tables. -/
def mergeOp (c : Codec) (s : Store) (op : Op) : Store :=
  Function.update s op.target.id (mergeEntity c op (s op.target.id))

/-- Fold ops one after another. -/
def mergeOps (c : Codec) (s : Store) (ops : List Op) : Store := ops.foldl (mergeOp c) s

end Sunrise
