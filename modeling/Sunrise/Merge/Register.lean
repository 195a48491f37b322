import Mathlib.Data.List.MinMax
import Mathlib.Data.String.Basic
import Sunrise.Lib.Antichain
import Sunrise.Merge.Versions
import Sunrise.Registry

/-!
# The register fold

A register holds the set of its concurrent writes: those no other write's version
follows. Its winner is the member of greatest rank (origin first, then the rule of
the field's conflict class, then the stamp) and stands in `merge_registers`; the
rest stand in `register_losers`.

`Registers` is the fold's working copy of one entity's registers: loaded once,
changed in memory by `offer`, `raiseFloor` and `refilter`, and written back by
`flush`, which touches only the fields whose members may have changed.

* `rank`, `winner` — how a member is picked.
* `Dag.registerPrecedes` — the order the fold reads off the stored frontiers.
* `Registers.load`, `Registers.offer`, `Registers.raiseFloor`,
  `Registers.refilter`, `Registers.flush` — the fold.
-/

namespace Sunrise

/-- One write a register keeps. -/
structure Member where
  /-- The writing version's stamp, which also names it. -/
  stamp : Stamp
  /-- The value's canonical bytes, or `none` for a write of absent. -/
  value : Option Bytes
  origin : Origin
deriving DecidableEq

/-- A row of `register_losers`, under its field and op-ref. -/
structure LoserRow where
  hlc : Hlc
  value : Option Bytes
  origin : Origin
  legacy : Bool
deriving DecidableEq

/-- The register rows of one entity. -/
structure RegisterTables where
  /-- `merge_registers`: each register's winner. -/
  registers : Table String Member
  /-- `register_losers`: the rest of its antichain. -/
  losers : Table (String ×ₗ OpRef) LoserRow
deriving DecidableEq

instance : EmptyCollection RegisterTables := ⟨⟨∅, ∅⟩⟩

/-! ### Rank and winner -/

/-- The class rule's part of a rank. -/
def rankKey (c : Codec) (cls : Conflict) (m : Member) : Bool :=
  match cls with
  | .state =>
    match m.value.map c.dec with
    | some (.text s) => terminalStates.contains s
    | _ => false
  | .tombstone =>
    match m.value.map c.dec with
    | some (.bool b) => b
    | _ => false
  | .merge | .quiet | .tracked => false

/-- A member's rank among its antichain: origin, then the class rule, then the
stamp. -/
def rank (c : Codec) (cls : Conflict) (m : Member) : Bool ×ₗ Bool ×ₗ Stamp :=
  toLex (decide (m.origin ≠ .generated), toLex (rankKey c cls m, m.stamp))

/-- The winner of an antichain: the last member of greatest rank. -/
def winner (c : Codec) (cls : Conflict) (members : List Member) : Option Member :=
  members.reverse.argmax (rank c cls)

/-! ### The order the fold reads -/

namespace Dag

/-- The frontier of the version stamped `s`. A register with no version row behind
it reaches itself and nothing else. -/
def registerFrontier (d : Dag) (s : Stamp) : Frontier Device Stamp :=
  let f := d.frontierOf s.opRef
  match f.find s.device with
  | some _ => f
  | none => f.upsert s.device s

def registerPrecedes (d : Dag) (a b : Stamp) : Bool :=
  decide (a ≠ b) && reachedBy a (d.registerFrontier b)

end Dag

/-! ### The fold -/

/-- What a register held when it was loaded. -/
structure Held where
  /-- Its row of `merge_registers`. -/
  winner : Option Member
  /-- Its rows of `register_losers`. -/
  losers : List Member

instance : Inhabited Held := ⟨⟨none, []⟩⟩

/-- Every register of one entity, as the fold of one op reads and writes them. -/
structure Registers where
  /-- The legacy floor: no member is stamped below it. -/
  floor : Option Stamp
  held : Table String Held
  /-- Each register's antichain, as the fold leaves it. -/
  fields : Table String (List Member)
  /-- The registers whose antichain may differ from what was loaded. -/
  dirty : Table String Unit

def LoserRow.member (op : OpRef) (r : LoserRow) : Member := ⟨op.stamp r.hlc, r.value, r.origin⟩

def belowFloor (floor : Option Stamp) (s : Stamp) : Bool :=
  match floor with
  | some l => decide (s < l)
  | none => false

namespace Registers

/-- Load every register of an entity whose legacy floor is `floor`. -/
def load (t : RegisterTables) (floor : Option Stamp) : Registers :=
  let held := t.registers.rows.foldl
    (fun h r => h.upsert r.1 { (h.find r.1).getD default with winner := some r.2 }) ∅
  let held := t.losers.rows.foldl
    (fun h r =>
      let field := (ofLex r.1).1
      let before := (h.find field).getD default
      h.upsert field { before with losers := before.losers ++ [r.2.member (ofLex r.1).2] })
    held
  { floor := floor, held := held
    fields := held.mapValues fun _ h => h.winner.toList ++ h.losers, dirty := ∅ }

def members (r : Registers) (field : String) : List Member := (r.fields.find field).getD []

/-- Fold one write into an antichain. -/
def offerMember (d : Dag) (floor : Option Stamp) (ms : List Member) (m : Member) : List Member :=
  if belowFloor floor m.stamp then ms
  else if ms.any fun n => n.stamp = m.stamp then ms
  else Antichain.insert (fun a b => d.registerPrecedes a.stamp b.stamp) ms m

/-- Fold one write of `field`. The same write folded again changes nothing. -/
def offer (d : Dag) (r : Registers) (field : String) (m : Member) : Registers :=
  if belowFloor r.floor m.stamp then r
  else
    let ms := r.members field
    if ms.any fun n => n.stamp = m.stamp then r
    else if ms.any fun n => d.registerPrecedes m.stamp n.stamp then r
    else
      let kept := ms.filter fun n => !d.registerPrecedes n.stamp m.stamp
      { r with fields := r.fields.upsert field (kept ++ [m]), dirty := r.dirty.upsert field () }

/-- Replace every antichain by `f` of it, noting the ones that lost a member. -/
def shrink (f : List Member → List Member) (r : Registers) : Registers :=
  { r with
    fields := r.fields.mapValues fun _ ms => f ms
    dirty := r.fields.rows.foldl
      (fun dirty row =>
        if (f row.2).length ≠ row.2.length then dirty.upsert row.1 () else dirty) r.dirty }

/-- Raise the legacy floor: every write below it leaves its antichain. -/
def raiseFloor (r : Registers) (floor : Stamp) : Registers :=
  { r.shrink (fun ms => ms.filter fun m => floor ≤ m.stamp) with
    floor := some (match r.floor with
      | some l => max l floor
      | none => floor) }

/-- Apply the antichain rule again to every register. -/
def refilter (d : Dag) (r : Registers) : Registers :=
  r.shrink (Antichain.prune fun a b => d.registerPrecedes a.stamp b.stamp)

/-- Write one register back. -/
def flushField (c : Codec) (cls : Conflict) (floor : Option Stamp) (held : Held)
    (members : List Member) (field : String) (t : RegisterTables) : RegisterTables :=
  let won := winner c cls members
  let registers :=
    match won with
    | some w => if held.winner = some w then t.registers else t.registers.upsert field w
    | none => if held.winner.isSome then t.registers.erase field else t.registers
  let losers := members.filter fun m => decide (some m ≠ won)
  let gone := held.losers.filter fun m => m ∉ losers
  let new := losers.filter fun m => m ∉ held.losers
  let table := gone.foldl (fun t m => t.erase (toLex (field, m.stamp.opRef))) t.losers
  -- every member is at or above the floor, and the floor is the greatest legacy
  -- stamp, so the floor's own op is the only legacy member there can be
  let table := new.foldl
    (fun t m => t.upsert (toLex (field, m.stamp.opRef))
      ⟨m.stamp.hlc, m.value, m.origin, decide (floor = some m.stamp)⟩) table
  ⟨registers, table⟩

/-- Write every register whose antichain changed back to the tables. -/
def flush (c : Codec) (spec : EntitySpec) (r : Registers) (t : RegisterTables) : RegisterTables :=
  r.dirty.rows.foldl
    (fun t row => flushField c (spec.classOf row.1) r.floor ((r.held.find row.1).getD default)
      (r.members row.1) row.1 t) t

end Registers

end Sunrise
