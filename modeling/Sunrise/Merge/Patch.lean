import Sunrise.Lib.Result
import Sunrise.Merge.Fields

/-!
# Checking a `Patch`

A `Patch` arrives with its field ops as CBOR maps, in the order of the field names. The check reads
them one after another, and then holds each against the registry. An op of a kind this build does
not know is a newer build's: the `Patch` is parked, to be read again after an upgrade. Anything
malformed is refused for good.

The first field op that does not read decides which of the two it is. So a `Patch` that no build of
today can read in full is still refused when a malformed op stands before the unknown one.

## Main definitions

* `parseFieldOp`, `checkPatch` — the check.
* `FieldOp.Written`, `Waits`, `Unknown` — how a field op is written, one that waits for an upgrade,
  and one that names a kind this build does not know.

## Main results

* `checkPatch_spec` — **a `Patch` is parked if its first unreadable field op waits, and accepted
  only if it reads in full and fits the registry.**
-/

namespace Sunrise

open Table

/-! ### The payload -/

/-- How an entity kind is merged. -/
inductive MergeRule where
  | lww
  | appendOnly
  | control
  | unsynced
deriving DecidableEq, Repr

/-- The kind of entity a `Patch` names: one that merges field by field, or another. -/
inductive TargetKind where
  | merged (kind : EntityKind)
  | note | person | device | identity | focusSession | reviewSnapshot
deriving DecidableEq

namespace TargetKind

def merge : TargetKind → MergeRule
  | merged _ => .lww
  | note | person => .unsynced
  | device | identity => .control
  | focusSession | reviewSnapshot => .appendOnly

/-- The op-log name of the kind. -/
def tag : TargetKind → String
  | merged kind => kind.spec.tag
  | note => "note"
  | person => "person"
  | device => "device"
  | identity => "identity"
  | focusSession => "focus_session"
  | reviewSnapshot => "review_snapshot"

end TargetKind

/-- A `Patch` as it is decoded, what its check reads of it. -/
structure PatchPayload where
  target : TargetKind
  /-- The entity's heads as the writer had applied them. -/
  parents : Option (List OpRef)
  /-- The commit it is one member of, and how many members that has. -/
  group : Option (Id × ℕ)
  /-- Its field ops, under the names of their fields. -/
  fields : Table String Value

/-- Why a `Patch` cannot be applied as it stands. -/
inductive PatchProblem where
  /-- A newer build may apply it: it is kept under this kind until then. -/
  | park (kind : String)
  | invalid (why : String)
deriving DecidableEq, Repr

def checkParents (seen : List OpRef) : List OpRef → Except String Unit
  | [] => .ok ()
  | parent :: rest =>
    -- seq 0 is no op's, and the log stores a signed number
    if parent.seq = 0 ∨ toI64 parent.seq = none then
      .error "a malformed op-ref: seq is not an op's"
    else if parent ∈ seen then .error "a parent named twice"
    else checkParents (parent :: seen) rest

def checkCausalKeys (p : PatchPayload) : Except String Unit := do
  checkParents [] (p.parents.getD [])
  match p.group with
  | some g => if g.2 < 2 then .error "a group has fewer than two members" else .ok ()
  | none => .ok ()

/-! ### Field ops -/

def patchKind : String := "Patch"

def fieldOpKinds : List String := ["set", "add", "remove", "inc", "map"]

/-- A field op that is malformed. -/
def invalid {α : Type} (why : String) : Except PatchProblem α :=
  .error (.invalid ("field op: " ++ why))

/-- A text key with its value, as an entry of a map. -/
def named (row : String × Value) : Value × Value := (.text row.1, row.2)

theorem named_injective : Function.Injective named := by
  rintro ⟨k, v⟩ ⟨k', v'⟩ h
  simpa [named] using h

/-- The keys of a field op, added to those read before. -/
def readKeys (keys : Table String Value) :
    List (Value × Value) → Except PatchProblem (Table String Value)
  | [] => .ok keys
  | (k, v) :: rest =>
    match k.asText with
    | none => invalid "a key that is not text"
    | some k =>
      if (keys.find k).isSome then invalid "a repeated key" else readKeys (keys.upsert k v) rest

def countKinds (keys : Table String Value) : ℕ :=
  (keys.find "set").isSome.toNat +
    ((keys.find "add").isSome || (keys.find "remove").isSome).toNat +
    (keys.find "inc").isSome.toNat + (keys.find "map").isSome.toNat

def opKeys (raw : Value) : Except PatchProblem (Table String Value) :=
  match raw.asMap with
  | none => invalid "not a map"
  | some entries =>
    match readKeys ∅ entries with
    | .error problem => .error problem
    | .ok keys =>
      -- a newer kind of field op, which only a newer build can merge
      match keys.rows.find? fun r => decide (r.1 ∉ fieldOpKinds) with
      | some r => .error (.park (patchKind ++ "." ++ r.1))
      | none =>
        if countKinds keys = 1 then .ok keys
        else invalid "exactly one of set, add/remove, inc and map"

/-- Sixteen bytes, as a number. -/
def bytes16 : Value → Option ℕ
  | .bytes b => if b.length = 16 then some (b.foldl (fun n byte => 256 * n + byte) 0) else none
  | _ => none

def OpRef.fromValue : Value → Option OpRef
  | .array [stream, device, seq] => do
    let stream ← bytes16 stream
    let device ← bytes16 device
    let n ← seq.asInteger
    if 0 ≤ n ∧ n < 2 ^ 64 then some ⟨stream, device, n.toNat⟩ else none
  | _ => none

/-- An increment. -/
def parseInc (v : Value) : Except PatchProblem FieldOp :=
  match (v.asInteger.bind toI64).filter (· ≠ 0) with
  | some n => .ok (.inc n)
  | none => invalid "inc is a non-zero integer"

def parseAdd : Option Value → Except PatchProblem (List Value)
  | none => .ok []
  | some v =>
    match v.asArray with
    | none => invalid "add is an array"
    | some [] => invalid "add is not empty"
    | some items => .ok items

/-- One element an edit removes, with its tags. -/
def parseRemoved (item : Value) : Except PatchProblem (Value × List OpRef) :=
  match item.asArray with
  | some [element, tags] =>
    match tags.asArray.filter (· ≠ []) with
    | none => invalid "a remove names its observed tags"
    | some tags => do
      let tags ← tags.mapM fun t => ((OpRef.fromValue t).map .ok).getD
        (invalid "a malformed op-ref")
      .ok (element, tags)
  | _ => invalid "a remove is a pair"

def parseRemove : Option Value → Except PatchProblem (List (Value × List OpRef))
  | none => .ok []
  | some v =>
    match v.asArray with
    | none => invalid "remove is an array"
    | some [] => invalid "remove is not empty"
    | some items => items.mapM parseRemoved

def parseEdit (keys : Table String Value) : Except PatchProblem FieldOp := do
  let add ← parseAdd (keys.find "add")
  let remove ← parseRemove (keys.find "remove")
  .ok (.edit add remove)

/-! ### The keys -/

variable {v : Value}

theorem Value.asText_eq_some {s : String} : v.asText = some s ↔ v = .text s := by
  cases v <;> simp [Value.asText]

theorem Value.asArray_eq_some {items : List Value} :
    v.asArray = some items ↔ v = .array items := by
  cases v <;> simp [Value.asArray]

theorem Value.asMap_eq_some {entries : List (Value × Value)} :
    v.asMap = some entries ↔ v = .map entries := by
  cases v <;> simp [Value.asMap]

theorem Value.asInteger_eq_some {n : ℤ} : v.asInteger = some n ↔ v = .integer n := by
  cases v <;> simp [Value.asInteger]

theorem readKeys_eq_ok_iff {keys acc : Table String Value} {entries : List (Value × Value)} :
    readKeys acc entries = .ok keys ↔
      ∃ rows : List (String × Value), entries = rows.map named ∧
        (acc.rows ++ rows).Perm keys.rows := by
  induction entries generalizing acc with
  | nil =>
    constructor
    · rintro ⟨⟩
      exact ⟨[], rfl, by rw [List.append_nil]⟩
    · rintro ⟨rows, hrows, hperm⟩
      rw [List.map_eq_nil_iff.mp hrows.symm, List.append_nil] at hperm
      exact congrArg Except.ok (ext_perm hperm)
  | cons e entries ih =>
    obtain ⟨k, v⟩ := e
    rw [readKeys]
    split
    next hk =>
      refine ⟨nofun, ?_⟩
      rintro ⟨_ | ⟨r, rows⟩, hrows, -⟩
      · cases hrows
      · obtain ⟨⟨⟩, -⟩ := List.cons.inj hrows
        cases hk
    next name hk =>
      obtain rfl := Value.asText_eq_some.mp hk
      split
      next hheld =>
        refine ⟨nofun, ?_⟩
        rintro ⟨_ | ⟨r, rows⟩, hrows, hperm⟩
        · cases hrows
        · obtain ⟨⟨⟩, -⟩ := List.cons.inj hrows
          obtain ⟨w, hw⟩ := Option.isSome_iff_exists.mp hheld
          -- the key would stand twice in the table
          have hnodup := (hperm.map Prod.fst).nodup_iff.mpr keys.nodup_keys
          rw [List.map_append, List.nodup_append] at hnodup
          have hmem : (r.1, w) ∈ acc.rows := Table.mem_rows.mpr hw
          exact absurd rfl (hnodup.2.2 _ (List.mem_map_of_mem hmem) _ List.mem_cons_self)
      next hfree =>
        have hfree : acc.find name = none := by simpa using hfree
        have hstep : ∀ rows, ((acc.upsert name v).rows ++ rows).Perm
            (acc.rows ++ (name, v) :: rows) := fun rows =>
          ((rows_upsert_perm hfree).append_right rows).trans List.perm_middle.symm
        rw [ih]
        constructor
        · rintro ⟨rows, rfl, hperm⟩
          exact ⟨(name, v) :: rows, rfl, (hstep rows).symm.trans hperm⟩
        · rintro ⟨_ | ⟨r, rows⟩, hrows, hperm⟩
          · cases hrows
          · obtain ⟨⟨⟩, hrest⟩ := List.cons.inj hrows
            exact ⟨rows, hrest, (hstep rows).trans hperm⟩

variable {raw : Value}

theorem opKeys_eq_ok_iff {keys : Table String Value} :
    opKeys raw = .ok keys ↔ (∃ rows : List (String × Value), raw = .map (rows.map named) ∧
      rows.Perm keys.rows) ∧ (∀ r ∈ keys.rows, r.1 ∈ fieldOpKinds) ∧ countKinds keys = 1 := by
  unfold opKeys
  cases hraw : raw.asMap with
  | none =>
    refine ⟨nofun, ?_⟩
    rintro ⟨⟨rows, rfl, -⟩, -⟩
    cases hraw
  | some entries =>
    obtain rfl := Value.asMap_eq_some.mp hraw
    have hiff : (∃ rows : List (String × Value), Value.map entries = .map (rows.map named) ∧
        rows.Perm keys.rows) ↔ readKeys ∅ entries = .ok keys := by
      rw [readKeys_eq_ok_iff]
      simp
    rw [hiff]
    dsimp only
    cases hread : readKeys ∅ entries with
    | error problem => simp
    | ok found =>
      dsimp only
      rw [Except.ok.injEq]
      split
      next r hr =>
        refine ⟨nofun, ?_⟩
        rintro ⟨rfl, hknown, -⟩
        exact absurd (hknown r (List.mem_of_find?_eq_some hr)) (by simpa using List.find?_some hr)
      next hnone =>
        have hknown : ∀ r ∈ found.rows, r.1 ∈ fieldOpKinds := by simpa using hnone
        split
        next hone =>
          rw [Except.ok.injEq]
          refine ⟨?_, And.left⟩
          rintro rfl
          exact ⟨rfl, hknown, hone⟩
        next hone =>
          refine ⟨nofun, ?_⟩
          rintro ⟨rfl, -, h⟩
          exact absurd h hone

theorem find_keys_sizeOf {raw v : Value} {keys : Table String Value} {k : String}
    (hkeys : opKeys raw = .ok keys) (hv : keys.find k = some v) : sizeOf v < sizeOf raw := by
  obtain ⟨⟨rows, rfl, hperm⟩, -⟩ := opKeys_eq_ok_iff.mp hkeys
  have hmem : named (k, v) ∈ rows.map named :=
    List.mem_map_of_mem (hperm.mem_iff.mpr (Table.mem_rows.mpr hv))
  have hsize := List.sizeOf_lt_of_mem hmem
  simp only [named, Prod.mk.sizeOf_spec] at hsize
  simp only [Value.map.sizeOf_spec]
  omega

/-! ### The parser -/

mutual

def parseFieldOp (raw : Value) : Except PatchProblem FieldOp :=
  match _hkeys : opKeys raw with
  | .error problem => .error problem
  | .ok keys =>
    match keys.find "set" with
    | some v => .ok (.set v)
    | none =>
      match keys.find "inc" with
      | some v => parseInc v
      | none =>
        match _hmap : keys.find "map" with
        | some (.map entries) =>
          match parseEntries entries with
          | .error problem => .error problem
          | .ok [] => invalid "map writes no key"
          | .ok out => .ok (.map out)
        | some _ => invalid "map is a map"
        | none => parseEdit keys
termination_by sizeOf raw
decreasing_by
  have := find_keys_sizeOf _hkeys _hmap
  simp at this
  omega

/-- Read the entries of a map's field op: each a write of its key. -/
def parseEntries (entries : List (Value × Value)) : Except PatchProblem (List (String × Value)) :=
  match entries with
  | [] => .ok []
  | (k, op) :: rest =>
    match k.asText with
    | none => invalid "a map key is text"
    | some k =>
      match parseFieldOp op with
      | .error problem => .error problem
      | .ok (.set v) =>
        match parseEntries rest with
        | .error problem => .error problem
        | .ok out => .ok ((k, v) :: out)
      | .ok _ => invalid "a map entry is a set"
termination_by sizeOf entries

end

/-! ### What is read -/

/-- Elements as an array, left out when there are none. -/
def arrayOf : List Value → Option Value
  | [] => none
  | items => some (.array items)

/-- Elements under a key of an edit. -/
def listed (k : String) (items : List Value) : List (String × Value) :=
  ((arrayOf items).map fun v => (k, v)).toList

theorem mem_listed {k : String} {items : List Value} {r : String × Value} :
    r ∈ listed k items ↔ r.1 = k ∧ arrayOf items = some r.2 := by
  obtain ⟨k', v⟩ := r
  unfold listed
  cases arrayOf items with
  | none => simp
  | some w => simp [eq_comm]

theorem nodup_listed (k k' : String) (hk : k ≠ k') (items items' : List Value) :
    ((listed k items ++ listed k' items').map Prod.fst).Nodup := by
  unfold listed
  cases arrayOf items <;> cases arrayOf items' <;> simp [hk]

/-- How an edit writes an element it removes: with the tags its writer had observed. -/
def WrittenRemoved (item : Value) (removed : Value × List OpRef) : Prop :=
  ∃ tags, tags ≠ [] ∧ item = .array [removed.1, .array tags] ∧
    List.Forall₂ (fun t r => OpRef.fromValue t = some r) tags removed.2

/-- An entry of a map's field op: a write of its key. -/
def setEntry (e : String × Value) : Value × Value := named (e.1, .map [named ("set", e.2)])

def FieldOp.Written (raw : Value) : FieldOp → Prop
  | .set v => raw = .map [named ("set", v)]
  | .inc n => n ≠ 0 ∧ toI64 n = some n ∧ raw = .map [named ("inc", .integer n)]
  | .map out => out ≠ [] ∧ raw = .map [named ("map", .map (out.map setEntry))]
  | .edit add remove => ∃ removed rows, List.Forall₂ WrittenRemoved removed remove ∧
    raw = .map (rows.map named) ∧ rows ≠ [] ∧
    rows.Perm (listed "add" add ++ listed "remove" removed)

/-- A field op that waits for an upgrade: its keys are texts, each once, and one of them is a kind
this build does not know; or it is a map's, and the first entry that is not a write is such an
op. -/
inductive Waits : Value → Prop where
  | kind {rows : List (String × Value)} {r : String × Value} (hkeys : (rows.map Prod.fst).Nodup)
      (hr : r ∈ rows) (hunknown : r.1 ∉ fieldOpKinds) : Waits (.map (rows.map named))
  | entry {pre : List (String × Value)} {k : String} {op : Value} {post : List (Value × Value)}
      (hop : Waits op) :
      Waits (.map [named ("map", .map (pre.map setEntry ++ named (k, op) :: post))])

/-- A field op that names a kind this build does not know, itself or in an entry of its map. -/
inductive Unknown : Value → Prop where
  | kind {entries : List (Value × Value)} {k : String} {v : Value} (hk : (.text k, v) ∈ entries)
      (hunknown : k ∉ fieldOpKinds) : Unknown (.map entries)
  | entry {entries inner : List (Value × Value)} {e : Value × Value}
      (hmap : named ("map", .map inner) ∈ entries) (he : e ∈ inner) (hop : Unknown e.2) :
      Unknown (.map entries)

structure EditKeys (raw : Value) (keys : Table String Value) : Prop where
  raw : ∃ rows : List (String × Value), raw = .map (rows.map named) ∧ rows.Perm keys.rows
  edits : ∀ r ∈ keys.rows, r.1 = "add" ∨ r.1 = "remove"
  ne : keys.rows ≠ []

theorem rows_eq_singleton {keys : Table String Value} {k : String}
    (hv : keys.find k = some v) (hkeys : ∀ r ∈ keys.rows, r.1 = k) : keys.rows = [(k, v)] := by
  have hkeys : keys = (∅ : Table String Value).upsert k v := by
    apply ext_find
    intro k'
    rw [find_upsert]
    split
    next h => rw [h, hv]
    next h => exact Table.find_eq_none.mpr fun r hr => hkeys r hr ▸ Ne.symm h
  rw [hkeys]
  rfl

theorem opKeys_cases {keys : Table String Value} (h : opKeys raw = .ok keys) :
    (∃ k v, (k = "set" ∨ k = "inc" ∨ k = "map") ∧ raw = .map [named (k, v)] ∧
      keys.rows = [(k, v)]) ∨ EditKeys raw keys := by
  obtain ⟨⟨rows, rfl, hperm⟩, hknown, hone⟩ := opKeys_eq_ok_iff.mp h
  have hsome : ∀ r ∈ keys.rows, (keys.find r.1).isSome = true := fun r hr => by
    rw [Table.mem_rows.mp hr, Option.isSome_some]
  unfold countKinds at hone
  by_cases hlone : ∃ k v, (k = "set" ∨ k = "inc" ∨ k = "map") ∧ keys.find k = some v
  · obtain ⟨k, v, hk, hv⟩ := hlone
    have hkeys : keys.rows = [(k, v)] := by
      apply rows_eq_singleton hv
      -- another key would be of another kind
      intro r hr
      have hin := hsome r hr
      have hkn := hknown r hr
      have hk' : (keys.find k).isSome = true := by rw [hv, Option.isSome_some]
      simp only [fieldOpKinds, List.mem_cons, List.not_mem_nil, or_false] at hkn
      rcases hk with rfl | rfl | rfl <;>
        rcases hkn with h | h | h | h | h <;>
        simp_all <;> omega
    rw [hkeys] at hperm
    obtain rfl := List.perm_singleton.mp hperm
    exact .inl ⟨k, v, hk, rfl, hkeys⟩
  · refine .inr ⟨⟨rows, rfl, hperm⟩, fun r hr => ?_, ?_⟩
    · have hnot : ¬(r.1 = "set" ∨ r.1 = "inc" ∨ r.1 = "map") :=
        fun hk => hlone ⟨r.1, r.2, hk, Table.mem_rows.mp hr⟩
      have hkn := hknown r hr
      simp only [fieldOpKinds, List.mem_cons, List.not_mem_nil, or_false] at hkn
      tauto
    · intro hnil
      have hnone : ∀ k, keys.find k = none := fun k =>
        Table.find_eq_none.mpr (by simp [hnil])
      simp [hnone] at hone

theorem opKeys_single {k : String} (hk : k = "set" ∨ k = "inc" ∨ k = "map") :
    opKeys (.map [named (k, v)]) = .ok ((∅ : Table String Value).upsert k v) := by
  refine opKeys_eq_ok_iff.mpr ⟨⟨[(k, v)], rfl, .refl _⟩, ?_, ?_⟩
  · intro r hr
    obtain rfl := List.mem_singleton.mp hr
    rcases hk with rfl | rfl | rfl <;> simp [fieldOpKinds]
  · unfold countKinds
    simp only [find_upsert, find_empty]
    rcases hk with rfl | rfl | rfl <;> simp

theorem EditKeys.find_eq_none {raw : Value} {keys : Table String Value} (h : EditKeys raw keys)
    {k : String} (ha : k ≠ "add") (hr : k ≠ "remove") : keys.find k = none := by
  rw [Table.find_eq_none]
  intro r hmem heq
  rcases h.edits r hmem with hk | hk
  · exact ha (heq ▸ hk)
  · exact hr (heq ▸ hk)

theorem EditKeys.opKeys {keys : Table String Value} (h : EditKeys raw keys) :
    opKeys raw = .ok keys := by
  refine opKeys_eq_ok_iff.mpr ⟨h.raw, fun r hr => ?_, ?_⟩
  · rcases h.edits r hr with hk | hk <;> rw [hk] <;> decide
  · have hsome : (keys.find "add").isSome = true ∨ (keys.find "remove").isSome = true := by
      obtain ⟨r, hr⟩ := List.exists_mem_of_ne_nil _ h.ne
      have hfind := Table.mem_rows.mp hr
      rcases h.edits r hr with hk | hk
      · exact .inl (by rw [← hk, hfind, Option.isSome_some])
      · exact .inr (by rw [← hk, hfind, Option.isSome_some])
    unfold countKinds
    rw [@find_eq_none _ _ h "set" (by decide) (by decide),
      @find_eq_none _ _ h "inc" (by decide) (by decide),
      @find_eq_none _ _ h "map" (by decide) (by decide), Bool.or_eq_true _ _ |>.mpr hsome]
    rfl

/-! ### What the parser does with each -/

theorem parseFieldOp_of_error {problem : PatchProblem}
    (h : opKeys raw = .error problem) : parseFieldOp raw = .error problem := by
  rw [parseFieldOp]
  split
  next problem' h' =>
    rw [h] at h'
    cases h'
    rfl
  next keys h' =>
    rw [h] at h'
    cases h'

def parseMap : Value → Except PatchProblem FieldOp
  | .map entries =>
    match parseEntries entries with
    | .error problem => .error problem
    | .ok [] => invalid "map writes no key"
    | .ok out => .ok (.map out)
  | _ => invalid "map is a map"

theorem parseFieldOp_of_ok {keys : Table String Value} (h : opKeys raw = .ok keys) :
    parseFieldOp raw =
      match keys.find "set" with
      | some v => .ok (.set v)
      | none =>
        match keys.find "inc" with
        | some v => parseInc v
        | none =>
          match keys.find "map" with
          | some v => parseMap v
          | none => parseEdit keys := by
  rw [parseFieldOp]
  split
  next problem h' =>
    rw [h] at h'
    cases h'
  next keys' h' =>
    rw [h] at h'
    cases h'
    cases keys.find "set" with
    | some v => rfl
    | none =>
      cases keys.find "inc" with
      | some v => rfl
      | none =>
        dsimp only
        split
        next entries hmap =>
          rw [hmap]
          rfl
        next v hne hmap =>
          rw [hmap]
          cases v with
          | map entries => exact absurd rfl (hne entries)
          | _ => rfl
        next hmap => rw [hmap]

theorem parseFieldOp_set (v : Value) : parseFieldOp (.map [named ("set", v)]) = .ok (.set v) := by
  rw [parseFieldOp_of_ok (opKeys_single (.inl rfl)), find_upsert_self]

theorem parseFieldOp_inc (v : Value) : parseFieldOp (.map [named ("inc", v)]) = parseInc v := by
  rw [parseFieldOp_of_ok (opKeys_single (.inr (.inl rfl))), find_upsert_self]
  simp [find_upsert]

theorem parseFieldOp_map (v : Value) : parseFieldOp (.map [named ("map", v)]) = parseMap v := by
  rw [parseFieldOp_of_ok (opKeys_single (.inr (.inr rfl))), find_upsert_self]
  simp [find_upsert]

theorem parseFieldOp_edit {keys : Table String Value} (h : EditKeys raw keys) :
    parseFieldOp raw = parseEdit keys := by
  rw [parseFieldOp_of_ok h.opKeys, h.find_eq_none (by decide) (by decide),
    h.find_eq_none (by decide) (by decide), h.find_eq_none (by decide) (by decide)]

theorem toI64_eq_some {n m : ℤ} (h : toI64 n = some m) : n = m := by
  unfold toI64 at h
  split at h
  · exact Option.some.inj h
  · cases h

theorem parseInc_eq_ok_iff {op : FieldOp} :
    parseInc v = .ok op ↔ ∃ n, op = .inc n ∧ n ≠ 0 ∧ toI64 n = some n ∧ v = .integer n := by
  unfold parseInc
  split
  next n hn =>
    obtain ⟨hn, hne⟩ := Option.filter_eq_some_iff.mp hn
    obtain ⟨m, hm, hi64⟩ := Option.bind_eq_some_iff.mp hn
    obtain rfl := toI64_eq_some hi64
    rw [Value.asInteger_eq_some.mp hm]
    simp only [Except.ok.injEq, Value.integer.injEq]
    constructor
    · rintro rfl
      exact ⟨m, rfl, by simpa using hne, hi64, rfl⟩
    · rintro ⟨_, rfl, -, -, rfl⟩
      rfl
  next hnone =>
    refine ⟨nofun, ?_⟩
    rintro ⟨n, rfl, hne, hi64, rfl⟩
    have hsome : ((Value.integer n).asInteger.bind toI64).filter (· ≠ 0) = some n := by
      simp [Value.asInteger, hi64, hne]
    rw [hnone] at hsome
    cases hsome

theorem parseAdd_eq_ok_iff {x : Option Value} {add : List Value} :
    parseAdd x = .ok add ↔ x = arrayOf add := by
  unfold parseAdd arrayOf
  cases x with
  | none => cases add <;> simp
  | some v =>
    dsimp only
    split
    next h =>
      refine ⟨nofun, fun h' => ?_⟩
      cases add with
      | nil => cases h'
      | cons a add =>
        cases h'
        cases h
    next h =>
      obtain rfl := Value.asArray_eq_some.mp h
      cases add <;> simp [invalid]
    next items hne h =>
      obtain rfl := Value.asArray_eq_some.mp h
      rw [Except.ok.injEq]
      cases add with
      | nil => simpa using hne
      | cons a add => simp

theorem parseRemoved_eq_ok_iff {item : Value} {removed : Value × List OpRef} :
    parseRemoved item = .ok removed ↔ WrittenRemoved item removed := by
  unfold parseRemoved WrittenRemoved
  split
  next element tags h =>
    obtain rfl := Value.asArray_eq_some.mp h
    split
    next hnone =>
      refine ⟨nofun, ?_⟩
      rintro ⟨tags', hne, heq, -⟩
      cases heq
      simp [Value.asArray, hne] at hnone
    next tags' htags =>
      obtain ⟨htags, hne⟩ := Option.filter_eq_some_iff.mp htags
      obtain rfl := Value.asArray_eq_some.mp htags
      have hread : ∀ t r, ((OpRef.fromValue t).map Except.ok).getD
          (invalid "a malformed op-ref") = .ok r ↔ OpRef.fromValue t = some r := by
        intro t r
        cases OpRef.fromValue t <;> simp [invalid]
      simp only [Result.bind_eq_ok_iff, Result.mapM_eq_ok_iff, hread, Except.ok.injEq]
      constructor
      · rintro ⟨refs, hrefs, rfl⟩
        exact ⟨tags', by simpa using hne, rfl, hrefs⟩
      · rintro ⟨_, -, heq, hrefs⟩
        cases heq
        exact ⟨_, hrefs, rfl⟩
  next hne =>
    refine ⟨nofun, ?_⟩
    rintro ⟨tags, -, rfl, -⟩
    exact absurd rfl (hne _ _)

theorem parseRemove_eq_ok_iff {x : Option Value} {remove : List (Value × List OpRef)} :
    parseRemove x = .ok remove ↔
      ∃ removed, List.Forall₂ WrittenRemoved removed remove ∧ x = arrayOf removed := by
  unfold parseRemove
  cases x with
  | none =>
    dsimp only
    rw [Except.ok.injEq]
    constructor
    · rintro rfl
      exact ⟨[], .nil, rfl⟩
    · rintro ⟨_ | ⟨a, removed⟩, hremoved, h⟩
      · exact (List.forall₂_nil_left_iff.mp hremoved).symm
      · cases h
  | some v =>
    dsimp only
    split
    next h =>
      refine ⟨nofun, ?_⟩
      rintro ⟨_ | ⟨a, removed⟩, -, h'⟩
      · cases h'
      · cases h'
        cases h
    next h =>
      obtain rfl := Value.asArray_eq_some.mp h
      refine ⟨nofun, ?_⟩
      rintro ⟨_ | ⟨a, removed⟩, -, h'⟩ <;> cases h'
    next items hne h =>
      obtain rfl := Value.asArray_eq_some.mp h
      simp only [Result.mapM_eq_ok_iff, parseRemoved_eq_ok_iff]
      constructor
      · intro hremove
        refine ⟨items, hremove, ?_⟩
        cases items with
        | nil => exact absurd rfl hne
        | cons a items => rfl
      · rintro ⟨_ | ⟨a, removed⟩, hremoved, h'⟩
        · cases h'
        · cases h'
          exact hremoved

theorem perm_listed_iff {keys : Table String Value} {add removed : List Value}
    (hedits : ∀ r ∈ keys.rows, r.1 = "add" ∨ r.1 = "remove") :
    keys.rows.Perm (listed "add" add ++ listed "remove" removed) ↔
      keys.find "add" = arrayOf add ∧ keys.find "remove" = arrayOf removed := by
  rw [List.perm_ext_iff_of_nodup keys.nodup_keys.of_map
    (nodup_listed _ _ (by decide) _ _).of_map]
  simp only [List.mem_append, mem_listed, mem_rows]
  constructor
  · intro h
    refine ⟨Option.ext fun v => ?_, Option.ext fun v => ?_⟩
    · simpa using h ("add", v)
    · simpa using h ("remove", v)
  · rintro ⟨hadd, hremove⟩ r
    constructor
    · intro hr
      rcases hedits r (Table.mem_rows.mpr hr) with hk | hk
      · exact .inl ⟨hk, by rw [← hadd, ← hk, hr]⟩
      · exact .inr ⟨hk, by rw [← hremove, ← hk, hr]⟩
    · rintro (⟨hk, hr⟩ | ⟨hk, hr⟩)
      · rw [hk, hadd, hr]
      · rw [hk, hremove, hr]

theorem parseEdit_eq_ok_iff {keys : Table String Value} {op : FieldOp}
    (h : EditKeys raw keys) : parseEdit keys = .ok op ↔ op.Written raw ∧
      ∃ add remove, op = .edit add remove := by
  obtain ⟨⟨rows, rfl, hperm⟩, hedits, hne⟩ := h
  unfold parseEdit
  simp only [Result.bind_eq_ok_iff, parseAdd_eq_ok_iff, parseRemove_eq_ok_iff, Except.ok.injEq]
  constructor
  · rintro ⟨add, hadd, remove, ⟨removed, hremoved, hremove⟩, rfl⟩
    refine ⟨⟨removed, rows, hremoved, rfl, ?_, ?_⟩, add, remove, rfl⟩
    · rintro rfl
      exact hne hperm.symm.eq_nil
    · exact hperm.trans ((perm_listed_iff hedits).mpr ⟨hadd, hremove⟩)
  · rintro ⟨hwritten, add, remove, rfl⟩
    obtain ⟨removed, rows', hremoved, hraw, -, hlisted⟩ := hwritten
    obtain rfl := List.map_injective_iff.mpr named_injective (Value.map.inj hraw)
    obtain ⟨hadd, hremove⟩ := (perm_listed_iff hedits).mp (hperm.symm.trans hlisted)
    exact ⟨add, hadd, remove, ⟨removed, hremoved, hremove⟩, rfl⟩

theorem FieldOp.Written.editKeys {add : List Value}
    {remove : List (Value × List OpRef)} (h : (FieldOp.edit add remove).Written raw) :
    ∃ keys, EditKeys raw keys := by
  obtain ⟨removed, rows, -, rfl, hne, hperm⟩ := h
  have hnodup := (hperm.map Prod.fst).nodup_iff.mpr (nodup_listed _ _ (by decide) _ _)
  obtain ⟨keys, hkeys⟩ := exists_rows_perm hnodup
  refine ⟨keys, ⟨rows, rfl, hkeys.symm⟩, fun r hr => ?_, fun hnil => ?_⟩
  · rcases List.mem_append.mp ((hkeys.trans hperm).subset hr) with h | h
    · exact .inl (mem_listed.mp h).1
    · exact .inr (mem_listed.mp h).1
  · rw [hnil] at hkeys
    exact hne hkeys.symm.eq_nil

theorem parseFieldOp_eq_set_iff {raw v : Value} :
    parseFieldOp raw = .ok (.set v) ↔ raw = .map [named ("set", v)] := by
  constructor
  · intro h
    cases hkeys : opKeys raw with
    | error problem =>
      rw [parseFieldOp_of_error hkeys] at h
      cases h
    | ok keys =>
      rcases opKeys_cases hkeys with ⟨k, w, rfl | rfl | rfl, rfl, -⟩ | hedit
      · rw [parseFieldOp_set] at h
        cases h
        rfl
      · rw [parseFieldOp_inc] at h
        obtain ⟨_, heq, -⟩ := parseInc_eq_ok_iff.mp h
        cases heq
      · rw [parseFieldOp_map] at h
        unfold parseMap at h
        split at h
        · split at h <;> cases h
        · cases h
      · rw [parseFieldOp_edit hedit] at h
        obtain ⟨-, _, _, heq⟩ := (parseEdit_eq_ok_iff hedit).mp h
        cases heq
  · rintro rfl
    exact parseFieldOp_set v

theorem setEntry_injective : Function.Injective setEntry := by
  rintro ⟨k, v⟩ ⟨k', v'⟩ h
  simpa [setEntry, named] using h

theorem parseEntries_eq_ok_iff {entries : List (Value × Value)} {out : List (String × Value)} :
    parseEntries entries = .ok out ↔ entries = out.map setEntry := by
  induction entries generalizing out with
  | nil =>
    rw [parseEntries, Except.ok.injEq]
    exact ⟨fun h => h ▸ rfl, fun h => (List.map_eq_nil_iff.mp h.symm).symm⟩
  | cons e entries ih =>
    obtain ⟨k, op⟩ := e
    rw [parseEntries]
    split
    next hk =>
      refine ⟨nofun, ?_⟩
      cases out with
      | nil => nofun
      | cons o out =>
        rintro h
        obtain ⟨⟨⟩, -⟩ := List.cons.inj h
        cases hk
    next name hk =>
      obtain rfl := Value.asText_eq_some.mp hk
      -- where the entry is a write, its op reads as one
      have hset : ∀ o out', (Value.text name, op) :: entries = List.map setEntry (o :: out') →
          parseFieldOp op = .ok (.set o.2) := by
        intro o out' h
        obtain ⟨⟨⟩, -⟩ := List.cons.inj h
        exact parseFieldOp_set _
      split
      next problem hop =>
        refine ⟨nofun, fun h => ?_⟩
        cases out with
        | nil => cases h
        | cons o out =>
          rw [hset o out h] at hop
          cases hop
      next v hop =>
        obtain rfl := parseFieldOp_eq_set_iff.mp hop
        cases hrest : parseEntries entries with
        | error problem =>
          refine ⟨nofun, fun h => ?_⟩
          cases out with
          | nil => cases h
          | cons o out =>
            rw [ih.mpr (List.cons.inj h).2] at hrest
            cases hrest
        | ok rest =>
          rw [ih.mp hrest, Except.ok.injEq]
          exact (List.map_injective_iff.mpr setEntry_injective).eq_iff.symm
      next fop hne hop =>
        refine ⟨nofun, fun h => ?_⟩
        cases out with
        | nil => cases h
        | cons o out =>
          rw [hset o out h] at hop
          cases hop
          exact absurd rfl (hne _)

theorem parseMap_eq_ok_iff {op : FieldOp} :
    parseMap v = .ok op ↔
      ∃ out, op = .map out ∧ out ≠ [] ∧ v = .map (out.map setEntry) := by
  unfold parseMap
  split
  next entries =>
    split
    next problem hentries =>
      refine ⟨nofun, ?_⟩
      rintro ⟨out, -, -, hmap⟩
      rw [parseEntries_eq_ok_iff.mpr (Value.map.inj hmap)] at hentries
      cases hentries
    next hentries =>
      refine ⟨nofun, ?_⟩
      rintro ⟨out, -, hne, hmap⟩
      rw [parseEntries_eq_ok_iff.mpr (Value.map.inj hmap)] at hentries
      exact absurd (Except.ok.inj hentries) hne
    next out hne hentries =>
      rw [parseEntries_eq_ok_iff.mp hentries, Except.ok.injEq]
      constructor
      · rintro rfl
        exact ⟨out, rfl, hne, rfl⟩
      · rintro ⟨out', rfl, -, hmap⟩
        rw [List.map_injective_iff.mpr setEntry_injective (Value.map.inj hmap)]
  next hne =>
    refine ⟨nofun, ?_⟩
    rintro ⟨out, -, -, rfl⟩
    exact absurd rfl (hne _)

/-- **What the parser reads.** -/
theorem parseFieldOp_eq_ok_iff {op : FieldOp} :
    parseFieldOp raw = .ok op ↔ op.Written raw := by
  constructor
  · intro h
    cases hkeys : opKeys raw with
    | error problem =>
      rw [parseFieldOp_of_error hkeys] at h
      cases h
    | ok keys =>
      rcases opKeys_cases hkeys with ⟨k, w, rfl | rfl | rfl, rfl, -⟩ | hedit
      · rw [parseFieldOp_set] at h
        cases h
        rfl
      · rw [parseFieldOp_inc] at h
        obtain ⟨n, rfl, hne, hi64, rfl⟩ := parseInc_eq_ok_iff.mp h
        exact ⟨hne, hi64, rfl⟩
      · rw [parseFieldOp_map] at h
        obtain ⟨out, rfl, hne, rfl⟩ := parseMap_eq_ok_iff.mp h
        exact ⟨hne, rfl⟩
      · rw [parseFieldOp_edit hedit] at h
        exact ((parseEdit_eq_ok_iff hedit).mp h).1
  · intro h
    cases op with
    | set v =>
      obtain rfl : raw = _ := h
      exact parseFieldOp_set v
    | inc n =>
      obtain ⟨hne, hi64, rfl⟩ := h
      rw [parseFieldOp_inc]
      exact parseInc_eq_ok_iff.mpr ⟨n, rfl, hne, hi64, rfl⟩
    | map out =>
      obtain ⟨hne, rfl⟩ := h
      rw [parseFieldOp_map]
      exact parseMap_eq_ok_iff.mpr ⟨out, rfl, hne, rfl⟩
    | edit add remove =>
      obtain ⟨keys, hkeys⟩ := h.editKeys
      rw [parseFieldOp_edit hkeys]
      exact (parseEdit_eq_ok_iff hkeys).mpr ⟨h, add, remove, rfl⟩

/-! ### What is parked -/

/-- The `Patch` is to be kept for a newer build. -/
def Parks {α : Type} (x : Except PatchProblem α) : Prop := ∃ kind, x = .error (.park kind)

@[simp] theorem not_parks_invalid {α : Type} (why : String) :
    ¬Parks (invalid why : Except PatchProblem α) := by
  rintro ⟨kind, ⟨⟩⟩

@[simp] theorem not_parks_ok {α : Type} (a : α) : ¬Parks (.ok a : Except PatchProblem α) := by
  rintro ⟨kind, ⟨⟩⟩

theorem parks_bind_iff {α β : Type} {x : Except PatchProblem α} {f : α → Except PatchProblem β} :
    Parks (x >>= f) ↔ Parks x ∨ ∃ a, x = .ok a ∧ Parks (f a) := by
  unfold Parks
  simp only [Result.bind_eq_error_iff]
  constructor
  · rintro ⟨kind, h | ⟨a, ha, h⟩⟩
    · exact .inl ⟨kind, h⟩
    · exact .inr ⟨a, ha, kind, h⟩
  · rintro (⟨kind, h⟩ | ⟨a, ha, kind, h⟩)
    · exact ⟨kind, .inl h⟩
    · exact ⟨kind, .inr ⟨a, ha, h⟩⟩

theorem parks_mapM_iff {α β : Type} {f : α → Except PatchProblem β} {l : List α} :
    Parks (l.mapM f) ↔ ∃ pre a post, l = pre ++ a :: post ∧ (∀ b ∈ pre, ∃ c, f b = .ok c) ∧
      Parks (f a) := by
  unfold Parks
  simp only [Result.mapM_eq_error_iff]
  constructor
  · rintro ⟨kind, pre, a, post, hl, hpre, ha⟩
    exact ⟨pre, a, post, hl, hpre, kind, ha⟩
  · rintro ⟨pre, a, post, hl, hpre, kind, ha⟩
    exact ⟨kind, pre, a, post, hl, hpre, ha⟩

theorem not_parks_forM {α : Type} {f : α → Except PatchProblem Unit} (h : ∀ a, ¬Parks (f a))
    (l : List α) : ¬Parks (l.forM f) := by
  induction l with
  | nil => exact not_parks_ok ()
  | cons a l ih =>
    show ¬Parks (f a >>= fun _ => l.forM f)
    rw [parks_bind_iff]
    rintro (ha | ⟨_, -, hl⟩)
    · exact h a ha
    · exact ih hl

theorem not_parks_parseInc (v : Value) : ¬Parks (parseInc v) := by
  unfold parseInc
  split <;> simp

theorem not_parks_parseAdd (x : Option Value) : ¬Parks (parseAdd x) := by
  unfold parseAdd
  split
  · simp
  · split <;> simp

theorem not_parks_parseRemoved (item : Value) : ¬Parks (parseRemoved item) := by
  unfold parseRemoved
  split
  · split
    · simp
    · rw [parks_bind_iff, parks_mapM_iff]
      rintro (⟨pre, t, post, -, -, h⟩ | ⟨refs, -, h⟩)
      · cases hread : OpRef.fromValue t <;> simp [hread] at h
      · simp at h
  · simp

theorem not_parks_parseRemove (x : Option Value) : ¬Parks (parseRemove x) := by
  unfold parseRemove
  split
  · simp
  · split
    · simp
    · simp
    · rw [parks_mapM_iff]
      rintro ⟨pre, item, post, -, -, h⟩
      exact not_parks_parseRemoved item h

theorem not_parks_parseEdit (keys : Table String Value) : ¬Parks (parseEdit keys) := by
  unfold parseEdit
  simp only [parks_bind_iff]
  rintro (h | ⟨add, -, h | ⟨remove, -, h⟩⟩)
  · exact not_parks_parseAdd _ h
  · exact not_parks_parseRemove _ h
  · simp at h

theorem not_parks_readKeys (acc : Table String Value) (entries : List (Value × Value)) :
    ¬Parks (readKeys acc entries) := by
  induction entries generalizing acc with
  | nil => simp [readKeys]
  | cons e entries ih =>
    obtain ⟨k, v⟩ := e
    rw [readKeys]
    split
    · simp
    · split
      · simp
      · exact ih _

theorem parks_opKeys_iff : Parks (opKeys raw) ↔
    ∃ (rows : List (String × Value)) (r : String × Value), raw = .map (rows.map named) ∧
      (rows.map Prod.fst).Nodup ∧ r ∈ rows ∧ r.1 ∉ fieldOpKinds := by
  unfold opKeys
  split
  next hraw =>
    refine ⟨fun h => absurd h (not_parks_invalid _), ?_⟩
    rintro ⟨rows, r, rfl, -⟩
    cases hraw
  next entries hraw =>
    obtain rfl := Value.asMap_eq_some.mp hraw
    split
    next problem hread =>
      have hnot : ¬Parks (.error problem : Except PatchProblem (Table String Value)) :=
        hread ▸ not_parks_readKeys ∅ entries
      refine ⟨fun h => absurd h hnot, ?_⟩
      rintro ⟨rows, r, heq, hnodup, -, -⟩
      obtain ⟨keys, hkeys⟩ := exists_rows_perm hnodup
      have hok : readKeys ∅ entries = .ok keys :=
        readKeys_eq_ok_iff.mpr ⟨rows, Value.map.inj heq, by simpa using hkeys.symm⟩
      rw [hread] at hok
      cases hok
    next keys hread =>
      obtain ⟨rows, rfl, hperm⟩ := readKeys_eq_ok_iff.mp hread
      have hperm : rows.Perm keys.rows := by simpa using hperm
      have hnodup := (hperm.map Prod.fst).nodup_iff.mpr keys.nodup_keys
      split
      next r hr =>
        refine ⟨fun _ => ⟨rows, r, rfl, hnodup, hperm.mem_iff.mpr (List.mem_of_find?_eq_some hr),
          by simpa using List.find?_some hr⟩, fun _ => ⟨_, rfl⟩⟩
      next hnone =>
        constructor
        · intro h
          split at h <;> simp at h
        · rintro ⟨rows', r, heq, -, hr, hunknown⟩
          obtain rfl := List.map_injective_iff.mpr named_injective (Value.map.inj heq)
          have hknown := List.find?_eq_none.mp hnone r (hperm.mem_iff.mp hr)
          exact absurd hunknown (by simpa using hknown)

theorem parks_parseEntries_iff {entries : List (Value × Value)} : Parks (parseEntries entries) ↔
    ∃ (pre : List (String × Value)) (k : String) (op : Value) (post : List (Value × Value)),
      entries = pre.map setEntry ++ named (k, op) :: post ∧ Parks (parseFieldOp op) := by
  induction entries with
  | nil =>
    rw [parseEntries]
    refine ⟨fun h => absurd h (not_parks_ok _), ?_⟩
    rintro ⟨pre, k, op, post, h, -⟩
    exact absurd h.symm (List.append_ne_nil_of_right_ne_nil _ (List.cons_ne_nil _ _))
  | cons e entries ih =>
    obtain ⟨k, op⟩ := e
    rw [parseEntries]
    -- what stands first decides, unless it is a write
    have hhead : (∃ (pre : List (String × Value)) (k' : String) (op' : Value)
        (post : List (Value × Value)), (k, op) :: entries =
          pre.map setEntry ++ named (k', op') :: post ∧ Parks (parseFieldOp op')) ↔
        ((∃ name, k = .text name) ∧ Parks (parseFieldOp op)) ∨
          ((∃ o, (k, op) = setEntry o) ∧ Parks (parseEntries entries)) := by
      rw [ih]
      constructor
      · rintro ⟨_ | ⟨o, pre⟩, k', op', post, h, hop⟩
        · obtain ⟨⟨⟩, -⟩ := List.cons.inj h
          exact .inl ⟨⟨k', rfl⟩, hop⟩
        · obtain ⟨ho, h⟩ := List.cons.inj h
          exact .inr ⟨⟨o, ho⟩, pre, k', op', post, h, hop⟩
      · rintro (⟨⟨name, rfl⟩, hop⟩ | ⟨⟨o, ho⟩, pre, k', op', post, rfl, hop⟩)
        · exact ⟨[], name, op, entries, rfl, hop⟩
        · exact ⟨o :: pre, k', op', post, by rw [ho]; rfl, hop⟩
    rw [hhead]
    split
    next hk =>
      refine ⟨fun h => absurd h (not_parks_invalid _), ?_⟩
      rintro (⟨⟨name, rfl⟩, -⟩ | ⟨⟨o, ho⟩, -⟩)
      · cases hk
      · obtain ⟨rfl, -⟩ := Prod.mk.inj ho
        cases hk
    next name hk =>
      obtain rfl := Value.asText_eq_some.mp hk
      have hwrite : (∃ o, (Value.text name, op) = setEntry o) ↔
          ∃ v, parseFieldOp op = .ok (.set v) := by
        simp only [parseFieldOp_eq_set_iff]
        constructor
        · rintro ⟨o, ho⟩
          exact ⟨o.2, (Prod.mk.inj ho).2⟩
        · rintro ⟨v, rfl⟩
          exact ⟨(name, v), rfl⟩
      rw [hwrite]
      cases hop : parseFieldOp op with
      | error problem =>
        dsimp only
        constructor
        · rintro ⟨kind, h⟩
          cases h
          exact .inl ⟨⟨name, rfl⟩, kind, rfl⟩
        · rintro (⟨-, kind, h⟩ | ⟨⟨v, h⟩, -⟩)
          · cases h
            exact ⟨kind, rfl⟩
          · cases h
      | ok fop =>
        cases fop with
        | set v =>
          dsimp only
          constructor
          · intro h
            refine .inr ⟨⟨v, rfl⟩, ?_⟩
            split at h
            next problem hrest =>
              obtain ⟨kind, h⟩ := h
              cases h
              exact ⟨kind, hrest⟩
            next => exact absurd h (not_parks_ok _)
          · rintro (⟨-, h⟩ | ⟨-, kind, h⟩)
            · exact absurd h (not_parks_ok _)
            · rw [h]
              exact ⟨kind, rfl⟩
        | _ =>
          refine ⟨fun h => absurd h (not_parks_invalid _), ?_⟩
          rintro (⟨-, h⟩ | ⟨⟨v, h⟩, -⟩)
          · exact absurd h (not_parks_ok _)
          · cases h

theorem parks_parseMap_iff : Parks (parseMap v) ↔
    ∃ entries, v = .map entries ∧ Parks (parseEntries entries) := by
  unfold parseMap
  split
  next entries =>
    simp only [Value.map.injEq, exists_eq_left']
    split
    next problem hentries =>
      rw [hentries]
      constructor
      · rintro ⟨kind, h⟩
        cases h
        exact ⟨kind, rfl⟩
      · rintro ⟨kind, h⟩
        cases h
        exact ⟨kind, rfl⟩
    next hentries =>
      rw [hentries]
      simp
    next out _ hentries =>
      rw [hentries]
      simp
  next hne =>
    refine ⟨fun h => absurd h (not_parks_invalid _), ?_⟩
    rintro ⟨entries, rfl, -⟩
    exact absurd rfl (hne _)

/-- **What the parser parks.** -/
theorem parseFieldOp_parks_iff : Parks (parseFieldOp raw) ↔ Waits raw := by
  constructor
  · -- an entry's op is smaller than its map
    induction h : sizeOf raw using Nat.strong_induction_on generalizing raw with
    | _ n ih =>
      subst h
      intro h
      cases hkeys : opKeys raw with
      | error problem =>
        rw [parseFieldOp_of_error hkeys] at h
        obtain ⟨kind, h⟩ := h
        cases h
        obtain ⟨rows, r, rfl, hnodup, hr, hunknown⟩ := parks_opKeys_iff.mp ⟨kind, hkeys⟩
        exact .kind hnodup hr hunknown
      | ok keys =>
        rcases opKeys_cases hkeys with ⟨k, w, rfl | rfl | rfl, rfl, -⟩ | hedit
        · rw [parseFieldOp_set] at h
          exact absurd h (not_parks_ok _)
        · rw [parseFieldOp_inc] at h
          exact absurd h (not_parks_parseInc _)
        · rw [parseFieldOp_map, parks_parseMap_iff] at h
          obtain ⟨entries, rfl, h⟩ := h
          obtain ⟨pre, k, op, post, rfl, hop⟩ := parks_parseEntries_iff.mp h
          refine .entry (ih _ ?_ rfl hop)
          have hmem : named (k, op) ∈ pre.map setEntry ++ named (k, op) :: post := by simp
          have hsize := List.sizeOf_lt_of_mem hmem
          simp only [named, Prod.mk.sizeOf_spec, Value.map.sizeOf_spec, List.cons.sizeOf_spec]
            at hsize ⊢
          omega
        · rw [parseFieldOp_edit hedit] at h
          exact absurd h (not_parks_parseEdit _)
  · intro h
    induction h with
    | kind hkeys hr hunknown =>
      obtain ⟨kind, h⟩ := parks_opKeys_iff.mpr ⟨_, _, rfl, hkeys, hr, hunknown⟩
      exact ⟨kind, parseFieldOp_of_error h⟩
    | entry hop ih =>
      rw [parseFieldOp_map, parks_parseMap_iff]
      exact ⟨_, rfl, parks_parseEntries_iff.mpr ⟨_, _, _, _, rfl, ih⟩⟩

/-! ### The check -/

def checkPatch (r : Records) (p : PatchPayload) :
    Except PatchProblem (List (String × FieldOp)) :=
  match p.target with
  | .merged kind => do
    (checkCausalKeys p).mapError .invalid
    if p.fields.rows = [] then .error (.invalid "a patch writes no field")
    else
      -- every op is read before any is checked: an unknown kind parks them all
      let out ← p.fields.rows.mapM fun f => (parseFieldOp f.2).map fun op => (f.1, op)
      out.forM fun f => (checkField r kind f.1 f.2).mapError .invalid
      .ok out
  | target =>
    match target.merge with
    | .unsynced => .error (.park patchKind)
    | _ => .error (.invalid ("a " ++ target.tag ++ " is not written by field ops"))

/-- The causal keys are well formed: each parent can be an op and none is named twice, and a group
has two members at least. -/
structure PatchPayload.CausalKeys (p : PatchPayload) : Prop where
  seqs : ∀ r ∈ p.parents.getD [], 0 < r.seq ∧ r.seq < 2 ^ 63
  nodup : (p.parents.getD []).Nodup
  group : ∀ g, p.group = some g → 2 ≤ g.2

def FieldOp.Fits (r : Records) (kind : EntityKind) (name : String) (op : FieldOp) : Prop :=
  name ∉ unwritable ∧ ∀ f, kind.spec.registeredField name = some f →
    fieldOpFits r kind name f.crdt op = some true

/-- The first field op that does not read waits for an upgrade. -/
def PatchPayload.FirstWaits (p : PatchPayload) : Prop :=
  ∃ pre f post, p.fields.rows = pre ++ f :: post ∧
    (∀ g ∈ pre, ∃ op : FieldOp, op.Written g.2) ∧ Waits f.2

theorem Waits.unknown (h : Waits raw) : Unknown raw := by
  induction h with
  | kind _ hr hunknown => exact .kind (List.mem_map_of_mem hr) hunknown
  | entry _ ih =>
    exact .entry List.mem_cons_self (List.mem_append_right _ List.mem_cons_self) ih

theorem toI64_eq_none_iff (n : ℕ) : toI64 n = none ↔ 2 ^ 63 ≤ n := by
  unfold toI64 i64Max
  split
  · simp only [reduceCtorEq, false_iff]
    omega
  · simp only [true_iff]
    omega

theorem checkParents_eq_ok_iff {seen l : List OpRef} : checkParents seen l = .ok () ↔
    (∀ r ∈ l, 0 < r.seq ∧ r.seq < 2 ^ 63) ∧ (∀ r ∈ l, r ∉ seen) ∧ l.Nodup := by
  induction l generalizing seen with
  | nil => simp [checkParents]
  | cons r l ih =>
    rw [checkParents]
    simp only [toI64_eq_none_iff]
    split
    next h =>
      refine ⟨nofun, fun ⟨hseqs, _⟩ => ?_⟩
      have := hseqs r List.mem_cons_self
      omega
    next h =>
      split
      next hseen =>
        refine ⟨nofun, fun ⟨_, hfree, _⟩ => ?_⟩
        exact absurd hseen (hfree r List.mem_cons_self)
      next hseen =>
        rw [ih, List.nodup_cons]
        simp only [List.forall_mem_cons]
        simp only [List.mem_cons, not_or]
        have hseq : 0 < r.seq ∧ r.seq < 2 ^ 63 := by omega
        constructor
        · rintro ⟨hseqs, hfree, hnodup⟩
          exact ⟨⟨hseq, hseqs⟩, ⟨hseen, fun r' hr' => (hfree r' hr').2⟩,
            fun hr => (hfree r hr).1 rfl, hnodup⟩
        · rintro ⟨⟨-, hseqs⟩, ⟨-, hfree⟩, hr, hnodup⟩
          exact ⟨hseqs, fun r' hr' => ⟨fun heq => hr (heq ▸ hr'), hfree r' hr'⟩, hnodup⟩

theorem checkCausalKeys_eq_ok_iff {p : PatchPayload} :
    checkCausalKeys p = .ok () ↔ p.CausalKeys := by
  have hgroup : (match p.group with
      | some g => if g.2 < 2 then .error "a group has fewer than two members" else .ok ()
      | none => .ok () : Except String Unit) = .ok () ↔ ∀ g, p.group = some g → 2 ≤ g.2 := by
    cases p.group with
    | none => simp
    | some g =>
      dsimp only
      split
      next h => simp [h]
      next h =>
        refine iff_of_true rfl fun g' hg' => ?_
        obtain rfl := Option.some.inj hg'
        exact not_lt.mp h
  unfold checkCausalKeys
  rw [Result.bind_eq_ok_iff]
  simp only [hgroup]
  constructor
  · rintro ⟨⟨⟩, hparents, hgroup⟩
    obtain ⟨hseqs, -, hnodup⟩ := checkParents_eq_ok_iff.mp hparents
    exact ⟨hseqs, hnodup, hgroup⟩
  · rintro ⟨hseqs, hnodup, hgroup⟩
    exact ⟨(), checkParents_eq_ok_iff.mpr ⟨hseqs, by simp, hnodup⟩, hgroup⟩

theorem mapError_eq_ok_iff {x : Except String Unit} :
    (x.mapError PatchProblem.invalid) = .ok () ↔ x = .ok () := by
  cases x <;> simp [Except.mapError]

theorem not_parks_mapError (x : Except String Unit) : ¬Parks (x.mapError .invalid) := by
  rintro ⟨kind, h⟩
  cases x <;> cases h

theorem parseFieldOps_eq_ok_iff {fields : List (String × Value)}
    {out : List (String × FieldOp)} :
    (fields.mapM fun f => (parseFieldOp f.2).map fun op => (f.1, op)) = .ok out ↔
      List.Forall₂ (fun f o => o.1 = f.1 ∧ o.2.Written f.2) fields out := by
  rw [Result.mapM_eq_ok_iff]
  have hread : ∀ (f : String × Value) (o : String × FieldOp),
      (parseFieldOp f.2).map (fun op => (f.1, op)) = .ok o ↔ o.1 = f.1 ∧ o.2.Written f.2 := by
    rintro f ⟨name, op⟩
    rw [← parseFieldOp_eq_ok_iff]
    cases parseFieldOp f.2 <;> simp [Except.map, eq_comm]
  simp only [hread]

theorem parseFieldOps_parks_iff {fields : List (String × Value)} :
    Parks (fields.mapM fun f => (parseFieldOp f.2).map fun op => (f.1, op)) ↔
      ∃ pre f post, fields = pre ++ f :: post ∧
        (∀ g ∈ pre, ∃ op : FieldOp, op.Written g.2) ∧ Waits f.2 := by
  rw [parks_mapM_iff]
  have hread : ∀ f : String × Value,
      (∃ o, (parseFieldOp f.2).map (fun op => (f.1, op)) = .ok o) ↔
        ∃ op : FieldOp, op.Written f.2 := by
    intro f
    simp only [← parseFieldOp_eq_ok_iff]
    cases parseFieldOp f.2 <;> simp [Except.map]
  have hparks : ∀ f : String × Value,
      Parks ((parseFieldOp f.2).map fun op => (f.1, op)) ↔ Waits f.2 := by
    intro f
    rw [← parseFieldOp_parks_iff]
    cases parseFieldOp f.2 <;> simp [Parks, Except.map]
  simp only [hread, hparks]

theorem checkPatch_parks_iff {r : Records} {p : PatchPayload} {kind : EntityKind}
    (htarget : p.target = .merged kind) (hcausal : p.CausalKeys) :
    Parks (checkPatch r p) ↔ p.FirstWaits := by
  unfold checkPatch
  rw [htarget]
  dsimp only
  rw [checkCausalKeys_eq_ok_iff.mpr hcausal]
  show Parks (if p.fields.rows = [] then _ else _) ↔ _
  split
  next hnil =>
    refine ⟨nofun, ?_⟩
    rintro ⟨pre, f, post, hrows, -⟩
    rw [hnil] at hrows
    exact absurd hrows.symm (List.append_ne_nil_of_right_ne_nil _ (List.cons_ne_nil _ _))
  next hne =>
    rw [parks_bind_iff, parseFieldOps_parks_iff]
    refine ⟨?_, .inl⟩
    rintro (h | ⟨out, -, h⟩)
    · exact h
    · -- the checks park nothing
      rcases parks_bind_iff.mp h with h | ⟨_, -, h⟩
      · exact absurd h (not_parks_forM (fun f => not_parks_mapError _) out)
      · exact absurd h (not_parks_ok _)

theorem checkPatch_eq_ok {r : Records} {p : PatchPayload} {out : List (String × FieldOp)}
    (h : checkPatch r p = .ok out) : ∃ kind, p.target = .merged kind ∧
      List.Forall₂ (fun f o => o.1 = f.1 ∧ o.2.Written f.2) p.fields.rows out ∧
      ∀ o ∈ out, o.2.Fits r kind o.1 := by
  unfold checkPatch at h
  split at h
  next kind htarget =>
    refine ⟨kind, htarget, ?_⟩
    obtain ⟨⟨⟩, -, h⟩ := Result.bind_eq_ok_iff.mp h
    split at h
    · cases h
    · obtain ⟨out', hout, h⟩ := Result.bind_eq_ok_iff.mp h
      obtain ⟨⟨⟩, hchecks, ⟨⟩⟩ := Result.bind_eq_ok_iff.mp h
      refine ⟨parseFieldOps_eq_ok_iff.mp hout, fun o ho => ?_⟩
      have hcheck := mapError_eq_ok_iff.mp (Result.forM_eq_ok_iff.mp hchecks o ho)
      exact checkField_eq_ok.mp hcheck
  next target hne =>
    split at h <;> cases h

/-- **What the check parks, and what it accepts.** A `Patch` of an entity that merges field by
field is parked if its first field op that does not read waits for an upgrade. An accepted `Patch`
reads in full, and each of its field ops fits its field. -/
theorem checkPatch_spec (r : Records) (p : PatchPayload) :
    (∀ kind, p.target = .merged kind → p.CausalKeys →
      (Parks (checkPatch r p) ↔ p.FirstWaits)) ∧
    ∀ out, checkPatch r p = .ok out → ∃ kind, p.target = .merged kind ∧
      List.Forall₂ (fun f o => o.1 = f.1 ∧ o.2.Written f.2) p.fields.rows out ∧
      ∀ o ∈ out, o.2.Fits r kind o.1 :=
  ⟨fun _ htarget hcausal => checkPatch_parks_iff htarget hcausal, fun _ h => checkPatch_eq_ok h⟩

/-- A task's title edited by a kind of field op of a newer build, and its body by a malformed
one. -/
private def maskedPatch : PatchPayload where
  target := .merged .task
  parents := none
  group := none
  fields := ((∅ : Table String Value).upsert "title" (.map [named ("splice", .null)])).upsert
    "body" (.map [named ("inc", .integer 0)])

/-- The same without the body. -/
private def waitingPatch : PatchPayload :=
  { maskedPatch with fields :=
      (∅ : Table String Value).upsert "title" (.map [named ("splice", .null)]) }

theorem causalKeys_of_none {p : PatchPayload} (hp : p.parents = none) (hg : p.group = none) :
    p.CausalKeys where
  seqs := by simp [hp]
  nodup := by simp [hp]
  group := by simp [hg]

theorem waits_splice : Waits (.map [named ("splice", .null)]) :=
  @Waits.kind [("splice", .null)] ("splice", .null) (by simp) List.mem_cons_self
    (by simp [fieldOpKinds])

/-- A malformed field op before the unknown one has the `Patch` refused. -/
theorem not_checkPatch_parks : ¬∀ (r : Records) (p : PatchPayload) kind, p.target = .merged kind →
    p.CausalKeys → (∃ f ∈ p.fields.rows, Unknown f.2) → Parks (checkPatch r p) := by
  intro h
  have hunknown : ∃ f ∈ maskedPatch.fields.rows, Unknown f.2 :=
    ⟨("title", .map [named ("splice", .null)]), Table.mem_rows.mpr (by
      unfold maskedPatch
      rw [find_upsert_of_ne _ _ (by decide), find_upsert_self]), waits_splice.unknown⟩
  have hcausal : maskedPatch.CausalKeys := causalKeys_of_none rfl rfl
  obtain ⟨pre, f, post, hrows, hpre, hf⟩ := (checkPatch_parks_iff rfl hcausal).mp
    (h ⟨fun _ _ _ => true, fun _ es => some es⟩ maskedPatch .task rfl hcausal hunknown)
  -- the body comes first, and is neither read nor parked
  cases pre with
  | nil =>
    obtain ⟨rfl, -⟩ := List.cons.inj hrows
    rw [← parseFieldOp_parks_iff, parseFieldOp_inc] at hf
    exact not_parks_parseInc _ hf
  | cons g pre =>
    obtain ⟨rfl, -⟩ := List.cons.inj hrows
    obtain ⟨op, hop⟩ := hpre _ List.mem_cons_self
    rw [← parseFieldOp_eq_ok_iff, parseFieldOp_inc] at hop
    obtain ⟨n, -, hne, -, hn⟩ := parseInc_eq_ok_iff.mp hop
    exact hne (Value.integer.inj hn).symm

theorem checkPatch_spec_waiting :
    Parks (checkPatch ⟨fun _ _ _ => true, fun _ es => some es⟩ waitingPatch) :=
  ((checkPatch_spec _ waitingPatch).1 .task rfl (causalKeys_of_none rfl rfl)).mpr
    ⟨[], ("title", .map [named ("splice", .null)]), [], rfl, by simp, waits_splice⟩

end Sunrise
