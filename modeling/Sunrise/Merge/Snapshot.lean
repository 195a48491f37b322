import Sunrise.Merge.Fold

/-!
# The merge state as a snapshot

`dump` writes the merge state out: for each entity that a row in scope belongs to, its
bookkeeping whole and the rows the scope selects. `joinStreamState` folds such a
document into a replica's state through the writes an op carrying the rows would have
used.

A row is attributed by the op-ref in its own stamp; an OR-set add and remove by their
tag. Two scopes use this: the rows of one stream's ops (a snapshot's `doc_state`), and
the rows of ops a compaction floor covers (the base a rebuild starts from), where every
remove is kept.

The document is modelled as read: the CBOR around it, which names each stamp by an index
into a list, is left out, and so are the names of pruned group members, which no merge
table holds.

* `dumpEntity`, `dump`, `dumpStreamState` — writing it.
* `joinVersions`, `joinMeta`, `joinEntity`, `joinStreamState` — joining it.
-/

namespace Sunrise

/-- Which state rows a dump carries. -/
inductive Scope where
  | stream (s : StreamId)
  /-- The rows written by ops a compaction floor covers, in every stream. -/
  | compacted (floors : Table (StreamId ×ₗ Device) ℕ)

namespace Scope

def writtenBy : Scope → OpRef → Bool
  | stream s, r => r.stream == s
  | compacted floors, r =>
    match floors.find (toLex (r.stream, r.device)) with
    | some seq => decide (r.seq ≤ seq)
    | none => false

/-- The removes of a tag are in scope. A remove holds no stamp of its own, only the tag
it removes, so a rebuild's base keeps every one. -/
def removes : Scope → OpRef → Bool
  | stream s, tag => tag.stream == s
  | compacted _, _ => true

/-- An entity with this bookkeeping is carried even when none of its field rows is. -/
def bookkeeping (scope : Scope) (m : Bookkeeping) : Bool :=
  m.create.any (fun s => scope.writtenBy s.opRef) ||
    m.legacy.any (fun s => scope.writtenBy s.opRef) || scope.writtenBy m.head.opRef

end Scope

/-- One entity as a document carries it. -/
structure DocEntity where
  kind : EntityKind
  book : Bookkeeping
  registers : List (String × Member)
  losers : List (String × Member)
  maps : List ((String ×ₗ String) × MapRow)
  adds : List (TagKey × Hlc)
  removes : List TagKey
  deltas : List ((String ×ₗ OpRef) × DeltaRow)
  versions : List (OpRef × VersionRow)
  /-- What the frontiers of the versions reach: the version, a device, a stamp. -/
  frontier : List (OpRef × Device × Stamp)

/-- A document. -/
abbrev Doc := Id → Option DocEntity

/-! ### Dump -/

def dumpRegisters (scope : Scope) (t : RegisterTables) : List (String × Member) :=
  t.registers.rows.filter fun r => scope.writtenBy r.2.stamp.opRef

def dumpLosers (scope : Scope) (t : RegisterTables) : List (String × Member) :=
  ((t.losers.rows.filter fun r => scope.writtenBy (ofLex r.1).2).map fun r =>
      ((ofLex r.1).1, r.2.member (ofLex r.1).2)).insertionSort
    fun a b => (toLex (a.1, a.2.stamp) : String ×ₗ Stamp) ≤ toLex (b.1, b.2.stamp)

def dumpFrontier (scope : Scope) (d : Dag) : List (OpRef × Device × Stamp) :=
  (d.frontier.rows.filter fun r => scope.writtenBy r.1).flatMap fun r =>
    r.2.rows.map fun x => (r.1, x.1, x.2)

def dumpRows (scope : Scope) (kind : EntityKind) (m : Bookkeeping) (e : Entity) : DocEntity :=
  let versions := e.dag.inStampOrder.filter fun r => scope.writtenBy r.1
  { kind := kind
    book := m
    registers := dumpRegisters scope e.regs
    losers := dumpLosers scope e.regs
    maps := e.maps.rows.filter fun r => scope.writtenBy r.2.stamp.opRef
    adds := e.adds.rows.filter fun r => scope.writtenBy (TagKey.tag r.1)
    removes := (e.removes.rows.map (·.1)).filter fun k => scope.removes (TagKey.tag k)
    deltas := e.deltas.rows.filter fun r => scope.writtenBy (ofLex r.1).2
    versions := versions
    -- a row that names no version of the dump is left out
    frontier := (dumpFrontier scope e.dag).filter fun f => versions.any fun v => v.1 == f.1 }

def hasRows (scope : Scope) (doc : DocEntity) (e : Entity) : Bool :=
  !(doc.registers.isEmpty && doc.losers.isEmpty && doc.maps.isEmpty && doc.adds.isEmpty &&
    doc.removes.isEmpty && doc.deltas.isEmpty && doc.versions.isEmpty &&
    (dumpFrontier scope e.dag).isEmpty)

def dumpEntity (scope : Scope) (e : Entity) : Option DocEntity :=
  match e.book with
  | none => none
  | some (kind, m) =>
    let doc := dumpRows scope kind m e
    if hasRows scope doc e || scope.bookkeeping m then some doc else none

/-- The document of the rows in scope. -/
def dump (scope : Scope) (s : Store) : Doc := fun id => dumpEntity scope (s id)

def dumpStreamState (stream : StreamId) (s : Store) : Doc := dump (.stream stream) s

/-! ### Join -/

/-- The greater of a held and a joined frontier entry. -/
def joinFrontierRow (t : Table OpRef (Frontier Device Stamp)) (f : OpRef × Device × Stamp) :
    Table OpRef (Frontier Device Stamp) :=
  t.upsert f.1 (((t.find f.1).getD ∅).join (Frontier.single f.2.1 f.2.2))

/-- The version rows and frontier rows of a document beside the held ones. -/
def recordVersions (d : Dag) (versions : List (OpRef × VersionRow))
    (frontier : List (OpRef × Device × Stamp)) : Dag where
  versions := versions.foldl (fun t v => t.insertOrIgnore v.1 v.2) d.versions
  frontier := frontier.foldl joinFrontierRow d.frontier

/-- Join versions and frontiers, then recompute frontiers and heads, keeping what was
joined as their floor. Returns whether any version was joined. -/
def joinVersions (d : Dag) (versions : List (OpRef × VersionRow))
    (frontier : List (OpRef × Device × Stamp)) : Dag × Bool :=
  let d := recordVersions d versions frontier
  if versions.isEmpty then (d, false) else (d.recompute, true)

/-- The bookkeeping of the union of the ops `local` and `snap` cover. -/
def joinMeta (held : Option Bookkeeping) (snap : Bookkeeping) : Bookkeeping :=
  match held with
  | none => snap
  | some m => m.join snap

/-- A stored value, decoded and encoded again. -/
def Codec.restore (c : Codec) (b : Bytes) : Bytes := c.enc (c.dec b)

/-- The floor a join raises the entity to, if it does. -/
def raisedFloor (before after : Option Stamp) : Option Stamp :=
  after.filter fun l =>
    match before with
    | some b => decide (b < l)
    | none => true

def joinEntity (c : Codec) (doc : DocEntity) (e : Entity) : Entity :=
  -- the DAG first: the registers below read the order through it
  let joined := joinVersions e.dag doc.versions doc.frontier
  let before := e.book.bind (·.2.legacy)
  let m := joinMeta (e.book.map (·.2)) doc.book
  let regs := Registers.load e.regs before
  let regs := if joined.2 then regs.refilter joined.1 else regs
  let w : Entity × Registers :=
    match raisedFloor before m.legacy with
    | some floor => (Entity.pruneBelowFloor { e with dag := joined.1 } floor, regs.raiseFloor floor)
    | none => ({ e with dag := joined.1 }, regs)
  let regs := (doc.registers ++ doc.losers).foldl
    (fun r x => r.offer joined.1 x.1 ⟨x.2.stamp, x.2.value.map c.restore, x.2.origin⟩) w.2
  let e₁ := { w.1 with regs := regs.flush c doc.kind.spec e.regs }
  let e₂ := doc.maps.foldl
    (fun e x => e.writeMapEntry (ofLex x.1).1 (ofLex x.1).2
      ⟨c.restore x.2.value, x.2.stamp, x.2.origin⟩) e₁
  let e₃ := doc.adds.foldl
    (fun e x => e.addElement (ofLex x.1).1 (c.restore (ofLex (ofLex x.1).2).1)
      ((TagKey.tag x.1).stamp x.2) m.legacy) e₂
  let e₄ := doc.removes.foldl
    (fun e k => e.removeElement (ofLex k).1 (c.restore (ofLex (ofLex k).2).1) (TagKey.tag k)) e₃
  let e₅ := doc.deltas.foldl
    (fun e x => e.addDelta (ofLex x.1).1 x.2.delta ((ofLex x.1).2.stamp x.2.hlc) m.legacy) e₄
  { e₅ with book := some ((e.book.map (·.1)).getD doc.kind, m) }

def joinStreamState (c : Codec) (s : Store) (doc : Doc) : Store := fun id =>
  match doc id with
  | some d => joinEntity c d (s id)
  | none => s id

end Sunrise
