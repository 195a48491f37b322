import Sunrise.Merge.Register

/-!
# The merge state of one entity

The merge tables are keyed by entity id first and every operation of the fold
reads and writes the rows of one id, so the state is modelled entity by entity:
an `Entity` holds the rows of all of them, a `Store` is the map from ids.

The small writes of the fold are here, each idempotent: a map entry keeps the
greater stamp, an OR-set add or remove and a counter delta are keyed by the op
that made them, and the legacy floor refuses and deletes what it makes unreadable.

* `Bookkeeping` — the row of `merge_entities`.
* `Entity`, `Store` — the state.
* `Entity.writeMapEntry`, `Entity.addElement`, `Entity.removeElement`,
  `Entity.addDelta`, `Entity.pruneBelowFloor` — the writes.
-/

namespace Sunrise

/-- The per-entity bookkeeping, the source's `Meta`. -/
structure Bookkeeping where
  created : Bool
  create : Option Stamp
  /-- The greatest stamp among the legacy full-state ops applied. -/
  legacy : Option Stamp
  /-- The greatest physical time among the `Patch` ops applied. -/
  patchMs : Option ℕ
  head : Stamp
deriving DecidableEq

namespace Bookkeeping

/-- The bookkeeping of an entity whose first op is stamped `s`. -/
def fresh (s : Stamp) : Bookkeeping := ⟨false, none, none, none, s⟩

def note (m : Bookkeeping) (s : Stamp) : Bookkeeping := { m with head := max m.head s }

def noteCreate (m : Bookkeeping) (s : Stamp) : Bookkeeping :=
  { m with
    created := true
    create := some (match m.create with
      | some c => min c s
      | none => s) }

def notePatch (m : Bookkeeping) (s : Stamp) : Bookkeeping :=
  { m with
    patchMs := some (match m.patchMs with
      | some ms => max ms s.hlc.physicalMs
      | none => s.hlc.physicalMs) }

/-- The bookkeeping of the union of the ops two rows cover. -/
def join (m snap : Bookkeeping) : Bookkeeping where
  created := m.created || snap.created
  create := Option.merge min m.create snap.create
  legacy := Option.merge max m.legacy snap.legacy
  patchMs := Option.merge max m.patchMs snap.patchMs
  head := max m.head snap.head

end Bookkeeping

/-- A row of `merge_map_entries`, under its field and key. -/
structure MapRow where
  value : Bytes
  stamp : Stamp
  origin : Origin
deriving DecidableEq

/-- A row of `merge_counter_deltas`, under its field and op-ref. -/
structure DeltaRow where
  hlc : Hlc
  delta : ℤ
deriving DecidableEq

/-- A field, an element and a tag: the key of the OR-set tables. -/
abbrev TagKey := String ×ₗ Bytes ×ₗ OpRef

def tagKey (field : String) (element : Bytes) (tag : OpRef) : TagKey :=
  toLex (field, toLex (element, tag))

def TagKey.tag (k : TagKey) : OpRef := (ofLex (ofLex k).2).2

/-- The rows of one entity in the merge tables. -/
structure Entity where
  /-- Its row of `merge_entities`, with the `kind` it was first written under. -/
  book : Option (EntityKind × Bookkeeping)
  /-- `merge_registers` and `register_losers`. -/
  regs : RegisterTables
  /-- `merge_map_entries`. -/
  maps : Table (String ×ₗ String) MapRow
  /-- `merge_orset_adds`: the tag's clock reading. -/
  adds : Table TagKey Hlc
  /-- `merge_orset_removes`. -/
  removes : Table TagKey Unit
  /-- `merge_counter_deltas`. -/
  deltas : Table (String ×ₗ OpRef) DeltaRow
  /-- `entity_versions` and `entity_frontier`. -/
  dag : Dag
deriving DecidableEq

/-- No rows. -/
def Entity.empty : Entity := ⟨none, ∅, ∅, ∅, ∅, ∅, ∅⟩

instance : EmptyCollection Entity := ⟨Entity.empty⟩

/-- The merge tables. -/
abbrev Store := Id → Entity

/-! ### Map entries -/

/-- The register rule over `(hlc, device, seq)`. -/
def lwwWins (incoming row : Stamp) : Bool :=
  if incoming.hlc ≠ row.hlc then
    decide (row.hlc.physicalMs < incoming.hlc.physicalMs ∨
      row.hlc.physicalMs = incoming.hlc.physicalMs ∧ row.hlc.logical < incoming.hlc.logical)
  else if row.device ≠ incoming.device then decide (row.device < incoming.device)
  else decide (row.seq ≤ incoming.seq)

/-- Whether a write stamped `s` replaces the one a map entry holds: the register
rule, with the stream breaking a tie. -/
def replaces (s held : Stamp) : Bool :=
  if s.hlc = held.hlc ∧ s.device = held.device ∧ s.seq = held.seq then
    decide (held.stream ≤ s.stream)
  else lwwWins s held

theorem Stamp.le_iff {s t : Stamp} :
    s ≤ t ↔ s.hlc.physicalMs < t.hlc.physicalMs ∨ s.hlc.physicalMs = t.hlc.physicalMs ∧
      (s.hlc.logical < t.hlc.logical ∨ s.hlc.logical = t.hlc.logical ∧
        (s.device < t.device ∨ s.device = t.device ∧
          (s.seq < t.seq ∨ s.seq = t.seq ∧ s.stream ≤ t.stream))) := by
  show s.key ≤ t.key ↔ _
  unfold Stamp.key
  simp only [Prod.Lex.toLex_le_toLex]

theorem replaces_iff {s held : Stamp} : replaces s held = true ↔ held ≤ s := by
  rw [Stamp.le_iff]
  obtain ⟨⟨p, l⟩, dev, n, st⟩ := s
  obtain ⟨⟨p', l'⟩, dev', n', st'⟩ := held
  unfold replaces lwwWins
  simp only [Hlc.mk.injEq, ne_eq]
  split
  next h =>
    obtain ⟨⟨rfl, rfl⟩, rfl, rfl⟩ := h
    simp
  next h =>
    split
    next hh =>
      simp only [decide_eq_true_eq]
      omega
    next hh =>
      obtain ⟨rfl, rfl⟩ := not_not.mp hh
      split
      next hd => simp [hd]
      next hd =>
        obtain rfl := not_not.mp hd
        have hn : n ≠ n' := fun hn => h ⟨⟨rfl, rfl⟩, rfl, hn⟩
        simp [hn.symm, hn.symm.le_iff_lt]

namespace Entity

/-- Write one map entry, unless the entry holds a greater stamp. -/
def writeMapEntry (e : Entity) (field key : String) (row : MapRow) : Entity :=
  match e.maps.find (toLex (field, key)) with
  | some held =>
    if replaces row.stamp held.stamp then
      { e with maps := e.maps.upsert (toLex (field, key)) row }
    else e
  | none => { e with maps := e.maps.upsert (toLex (field, key)) row }

/-! ### OR-sets and counters -/

/-- Add an element under the tag of `s`, unless `s` is below the legacy floor. -/
def addElement (e : Entity) (field : String) (element : Bytes) (s : Stamp)
    (floor : Option Stamp) : Entity :=
  if belowFloor floor s then e
  else { e with adds := e.adds.insertOrIgnore (tagKey field element s.opRef) s.hlc }

/-- Remove an element's add under `tag`. -/
def removeElement (e : Entity) (field : String) (element : Bytes) (tag : OpRef) : Entity :=
  { e with removes := e.removes.insertOrIgnore (tagKey field element tag) () }

def atOrBelowFloor (floor : Option Stamp) (s : Stamp) : Bool :=
  match floor with
  | some l => decide (s ≤ l)
  | none => false

/-- Record one increment, unless `s` is at or below the legacy floor, whose base
already counts it. -/
def addDelta (e : Entity) (field : String) (delta : ℤ) (s : Stamp) (floor : Option Stamp) :
    Entity :=
  if atOrBelowFloor floor s then e
  else { e with deltas := e.deltas.insertOrIgnore (toLex (field, s.opRef)) ⟨s.hlc, delta⟩ }

/-- Delete the adds and deltas the legacy floor has made unreadable. The removes
stay: what they name can still arrive. -/
def pruneBelowFloor (e : Entity) (floor : Stamp) : Entity :=
  { e with
    adds := e.adds.filter fun k hlc => decide (floor ≤ (TagKey.tag k).stamp hlc)
    deltas := e.deltas.filter fun k row => decide (floor < (ofLex k).2.stamp row.hlc) }

end Entity

end Sunrise
