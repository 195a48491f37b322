import Sunrise.Merge.Fields

/-!
# OR-sets, counters and maps read back

What a projected set, counter or map holds is read off the ops that were folded, whatever order they
came in. An element is in a set if some op that added it is at or above the floor and none removed
it under that op's tag. A counter is the number the floor's own op gave it, and every increment
after that op. A key of a map has the value of its latest write.

* `projection_reads` — **sets, counters and maps show what the ops say.**
-/

namespace Sunrise

open Project Op

open Causal

/-! ### The tables, by field -/

namespace Project

variable {spec : EntitySpec} {legacy : Option Stamp} {e : Entity} {k : String}

theorem find_foldl_live {α : Type} (dead : α → Bool) (element : α → Bytes) (l : List α)
    (t : Table Bytes Unit) (b : Bytes) :
    (l.foldl (fun t r => if dead r then t else t.upsert (element r) ()) t).find b = some () ↔
      t.find b = some () ∨ ∃ r ∈ l, element r = b ∧ dead r = false := by
  induction l generalizing t with
  | nil => simp
  | cons r l ih =>
    rw [List.foldl_cons, ih]
    simp only [List.mem_cons, exists_eq_or_imp]
    cases hd : dead r with
    | true => simp
    | false =>
      rw [if_neg (by decide), Table.find_upsert]
      by_cases hb : b = element r
      · simp [hb]
      · simp [hb, Ne.symm hb]

variable (spec legacy) in
/-- **A set's table** holds the elements of its live adds. -/
theorem find_sets (h : k ∈ fieldsOf spec .orSet ∨ ∃ r ∈ e.adds.rows, (ofLex r.1).1 = k) :
    ∃ t, (sets spec legacy e).find k = some t ∧ ∀ b, t.find b = some () ↔
      ∃ tag hlc, e.adds.find (tagKey k b tag) = some hlc ∧
        superseded (tag.stamp hlc) legacy = false ∧ e.removes.find (tagKey k b tag) = none := by
  let field : TagKey × Hlc → String := fun r => (ofLex r.1).1
  let element : TagKey × Hlc → Bytes := fun r => (ofLex (ofLex r.1).2).1
  let dead : TagKey × Hlc → Bool := fun r =>
    superseded ((TagKey.tag r.1).stamp r.2) legacy || (e.removes.find r.1).isSome
  let start := (fieldsOf spec .orSet).foldl (fun t name => t.upsert name ∅)
    (∅ : Table String (Table Bytes Unit))
  have hsets : sets spec legacy e = e.adds.rows.foldl (fun t r => t.upsert (field r)
      ((fun s r => if dead r then s else s.upsert (element r) ())
        ((t.find (field r)).getD ∅) r)) start := by
    unfold sets
    congr 1
    funext t r
    exact (apply_ite (t.upsert (field r)) _ _ _).symm
  have hstart : start.find k = if k ∈ fieldsOf spec .orSet then some ∅ else none :=
    find_foldl_names (fun _ => ∅) _ k
  have hempty : (start.find k).getD ∅ = ∅ := by
    rw [hstart]
    split <;> rfl
  have hgather := Table.find_foldl_gather field (fun _ => ∅)
    (fun s r => if dead r then s else s.upsert (element r) ()) (l := e.adds.rows) (t := start)
    (k := k) (h.imp_left fun hk => by rw [hstart, if_pos hk]; rfl)
  rw [hempty] at hgather
  refine ⟨_, hsets ▸ hgather, fun b => ?_⟩
  rw [find_foldl_live, Table.find_empty]
  simp only [reduceCtorEq, false_or, List.mem_filter, decide_eq_true_eq]
  constructor
  · rintro ⟨⟨key, hlc⟩, ⟨hr, hfield⟩, helement, hdead⟩
    have hkey : key = tagKey k b (TagKey.tag key) := by rw [← hfield, ← helement]; rfl
    obtain ⟨habove, hremoved⟩ := Bool.or_eq_false_iff.mp hdead
    refine ⟨TagKey.tag key, hlc, ?_, habove, ?_⟩
    · rw [← hkey]
      exact Table.mem_rows.mp hr
    · rw [← hkey]
      exact Option.isSome_eq_false_iff.mp hremoved |> Option.isNone_iff_eq_none.mp
  · rintro ⟨tag, hlc, hadd, habove, hremoved⟩
    refine ⟨(tagKey k b tag, hlc), ⟨Table.mem_rows.mpr hadd, rfl⟩, rfl, ?_⟩
    exact Bool.or_eq_false_iff.mpr ⟨habove, by rw [hremoved]; rfl⟩

theorem exists_setValue (c : Codec) (t : Table Bytes Unit) :
    ∃ elements : List Bytes, setValue c t = .array (elements.map c.dec) ∧ elements.Nodup ∧
      ∀ b, b ∈ elements ↔ t.find b = some () := by
  have hperm := List.perm_insertionSort (fun a b => elementOrder c a ≤ elementOrder c b)
    (t.rows.map (·.1))
  refine ⟨_, rfl, hperm.nodup_iff.mpr t.nodup_keys, fun b => ?_⟩
  rw [hperm.mem_iff, List.mem_map]
  constructor
  · rintro ⟨⟨b', u⟩, hr, rfl⟩
    exact Table.mem_rows.mp hr
  · intro hb
    exact ⟨(b, ()), Table.mem_rows.mpr hb, rfl⟩

variable (spec legacy) in
/-- **A counter's table** holds its base and its deltas. -/
theorem find_counters (regs : Read)
    (h : k ∈ fieldsOf spec .counter ∨ ∃ r ∈ e.deltas.rows, (ofLex r.1).1 = k) :
    (counters spec legacy regs e).find k =
      some ((e.deltas.rows.filter fun r => decide ((ofLex r.1).1 = k)).foldl
        (fun n r => if Entity.atOrBelowFloor legacy (deltaStamp r.1 r.2) then n
          else saturatingAdd n r.2.delta) (counterBase legacy regs k)) := by
  let field : (String ×ₗ OpRef) × DeltaRow → String := fun r => (ofLex r.1).1
  let start := (fieldsOf spec .counter).foldl
    (fun t name => t.upsert name (counterBase legacy regs name)) (∅ : Table String ℤ)
  have hcounters : counters spec legacy regs e = e.deltas.rows.foldl (fun t r => t.upsert (field r)
      ((fun n r => if Entity.atOrBelowFloor legacy (deltaStamp r.1 r.2) then n
        else saturatingAdd n r.2.delta)
        ((t.find (field r)).getD (counterBase legacy regs (field r))) r)) start := by
    unfold counters
    congr 1
    funext t r
    exact (apply_ite (t.upsert (field r)) _ _ _).symm
  have hstart : start.find k =
      if k ∈ fieldsOf spec .counter then some (counterBase legacy regs k) else none :=
    find_foldl_names _ _ k
  have hbase : (start.find k).getD (counterBase legacy regs k) = counterBase legacy regs k := by
    rw [hstart]
    split <;> rfl
  have hgather := Table.find_foldl_gather field (counterBase legacy regs)
    (fun n r => if Entity.atOrBelowFloor legacy (deltaStamp r.1 r.2) then n
      else saturatingAdd n r.2.delta) (l := e.deltas.rows) (t := start) (k := k)
    (h.imp_left fun hk => by rw [hstart, if_pos hk]; rfl)
  rw [hbase] at hgather
  exact hcounters ▸ hgather

variable (spec legacy) in
/-- **A map's table** holds its entries at or above the floor. -/
theorem find_maps (c : Codec)
    (h : k ∈ fieldsOf spec .map ∨ ∃ r ∈ e.maps.rows, (ofLex r.1).1 = k) :
    ∃ entries, (maps c spec legacy e).find k = some entries ∧ ∀ x, x ∈ entries ↔
      ∃ row, e.maps.find (toLex (k, x.1)) = some row ∧ superseded row.stamp legacy = false ∧
        x.2 = (c.dec row.value, row.stamp) := by
  let field : (String ×ₗ String) × MapRow → String := fun r => (ofLex r.1).1
  let entry : (String ×ₗ String) × MapRow → String × Value × Stamp := fun r =>
    ((ofLex r.1).2, c.dec r.2.value, r.2.stamp)
  let start := (fieldsOf spec .map).foldl (fun t name => t.upsert name [])
    (∅ : Table String (List (String × Value × Stamp)))
  have hmaps : maps c spec legacy e = e.maps.rows.foldl (fun t r => t.upsert (field r)
      ((fun s r => if superseded r.2.stamp legacy then s else s ++ [entry r])
        ((t.find (field r)).getD []) r)) start := by
    unfold maps
    congr 1
    funext t r
    exact (apply_ite (t.upsert (field r)) _ _ _).symm
  have hstart : start.find k = if k ∈ fieldsOf spec .map then some [] else none :=
    find_foldl_names (fun _ => []) _ k
  have hempty : (start.find k).getD [] = [] := by
    rw [hstart]
    split <;> rfl
  have hgather := Table.find_foldl_gather field (fun _ => [])
    (fun s r => if superseded r.2.stamp legacy then s else s ++ [entry r]) (l := e.maps.rows)
    (t := start) (k := k) (h.imp_left fun hk => by rw [hstart, if_pos hk]; rfl)
  rw [hempty] at hgather
  have hfold : ∀ (l : List ((String ×ₗ String) × MapRow)) (s : List (String × Value × Stamp)) x,
      x ∈ l.foldl (fun s r => if superseded r.2.stamp legacy then s else s ++ [entry r]) s ↔
        x ∈ s ∨ ∃ r ∈ l, superseded r.2.stamp legacy = false ∧ x = entry r := by
    intro l
    induction l with
    | nil => simp
    | cons r l ih =>
      intro s x
      rw [List.foldl_cons, ih]
      cases hr : superseded r.2.stamp legacy with
      | true => simp [hr]
      | false => simp [hr, or_assoc]
  refine ⟨_, hmaps ▸ hgather, fun x => ?_⟩
  rw [hfold]
  simp only [List.not_mem_nil, false_or, List.mem_filter, decide_eq_true_eq]
  constructor
  · rintro ⟨⟨key, row⟩, ⟨hr, hfield⟩, habove, rfl⟩
    refine ⟨row, ?_, habove, rfl⟩
    have hkey : key = toLex (k, (ofLex key).2) := by rw [← hfield]; rfl
    rw [← hkey]
    exact Table.mem_rows.mp hr
  · rintro ⟨row, hrow, habove, hx⟩
    exact ⟨(toLex (k, x.1), row), ⟨Table.mem_rows.mpr hrow, rfl⟩, habove, Prod.ext rfl hx⟩

end Project

/-! ### What the ops say -/

section

variable (c : Codec) (ops : List Op) (k : String)

/-- **An element is in a set**, by its bytes: some op at or above the floor added it, and no op
removed it under that op's tag. -/
def InSet (b : Bytes) : Prop :=
  ∃ o ∈ ops, o.Adds c (tagKey k b o.stamp.opRef) ∧ belowFloor (legacyFloor ops) o.stamp = false ∧
    ∀ o' ∈ ops, ¬ o'.Removes c (tagKey k b o.stamp.opRef)

def floorOp : Option Op := (legacyFloor ops).bind fun l => ops.find? fun o => decide (o.stamp = l)

/-- The number a register's write gives a counter. -/
def Member.baseOf (m : Option Member) : ℤ :=
  (((m.bind fun m => m.value.map c.dec).bind Value.asInteger).bind toI64).getD 0

/-- **A counter's base**: the number the floor's op gave it. -/
def floorBase : ℤ := Member.baseOf c ((floorOp ops).bind fun o => o.member c k)

/-- The ops whose increments of a counter count, each once, in the order of their op-refs: those
above the floor. -/
structure Increments (l : List Op) : Prop where
  mem : ∀ o, o ∈ l ↔
    o ∈ ops ∧ (o.delta k).isSome ∧ Entity.atOrBelowFloor (legacyFloor ops) o.stamp = false
  sorted : l.Pairwise fun o o' => o.stamp.opRef < o'.stamp.opRef

/-- **A key of a map has a value**: the latest write of it is at or above the floor, and is of that
value, not null. -/
def Holds (key : String) (v : Value) : Prop :=
  ∃ o ∈ ops, ∃ row, o.entry c (toLex (k, key)) = some row ∧
    belowFloor (legacyFloor ops) o.stamp = false ∧
    (∀ o' ∈ ops, (o'.entry c (toLex (k, key))).isSome → o'.stamp ≤ o.stamp) ∧
    v = c.dec row.value ∧ v.isNull = false

end

/-- Whether an `i64` has a number. -/
def InI64 (n : ℤ) : Prop := -2 ^ 63 ≤ n ∧ n ≤ i64Max

/-- A write of a field of a type. -/
def Write.isOf : Crdt → Write → Bool
  | .orSet, .add .. => true
  | .orSet, .remove .. => true
  | .counter, .delta .. => true
  | .map, .entry .. => true
  | _, _ => false

/-- Some write of a set, a counter or a map is kept. -/
def Kept (ops : List Op) (k : String) : Crdt → Prop
  | .orSet => ∃ o ∈ ops, ∃ v, Write.add k v ∈ o.writes ∧
      belowFloor (legacyFloor ops) o.stamp = false
  | .counter => ∃ o ∈ ops, ∃ n, Write.delta k n ∈ o.writes ∧
      Entity.atOrBelowFloor (legacyFloor ops) o.stamp = false
  | .map => ∃ o ∈ ops, ∃ key v, Write.entry k key v ∈ o.writes
  | _ => False

/-- A name the kind does not register, which the ops write as a field of a type, and, where that is
not a map, as the register a full-state op makes of a name it does not know. -/
structure Unregistered (kind : EntityKind) (ops : List Op) (crdt : Crdt) (k : String) : Prop where
  unknown : kind.spec.registeredField k = none
  kept : Kept ops k crdt
  only : ∀ o ∈ ops, ∀ w ∈ o.writes, w.field = k → w.isOf crdt = true ∨
    crdt ≠ .map ∧ o.isLegacy = true ∧ ∃ v, w = .offer k v

/-- **A name is of a type**: the kind registers it as a field of that type, or does not register it
and the ops write it as one. -/
def IsField (kind : EntityKind) (ops : List Op) (crdt : Crdt) (k : String) : Prop :=
  kind.spec.crdtOf k = some crdt ∨ Unregistered kind ops crdt k

/-- A type other than a register's. -/
def Crdt.IsCollection (crdt : Crdt) : Prop := crdt = .orSet ∨ crdt = .counter ∨ crdt = .map

section Fields

variable {c : Codec} {r : Records} {kind : EntityKind} {ops : List Op} {crdt : Crdt} {k : String}

theorem exists_of_crdtOf (h : kind.spec.crdtOf k = some crdt) :
    ∃ f ∈ kind.spec.own.fields, f.name = k ∧ f.crdt = crdt ∧
      kind.spec.registeredField k = some f := by
  obtain ⟨f, hf, hcrdt⟩ := Option.map_eq_some_iff.mp h
  have hmem := List.mem_of_find?_eq_some hf
  have hname : f.name = k := by simpa using List.find?_some hf
  exact ⟨f, hmem, hname, hcrdt, hname ▸ registeredField_of_mem hmem⟩

/-- **The ops write a field of a type as that**, or as the register of a full-state op. -/
theorem IsField.only (h : IsField kind ops crdt k) (hcrdt : crdt.IsCollection)
    (hkind : ∀ o ∈ ops, o.target.kind = kind) (hchecked : ∀ o ∈ ops, o.Checked r) :
    ∀ o ∈ ops, ∀ w ∈ o.writes, w.field = k →
      w.isOf crdt = true ∨ o.isLegacy = true ∧ ∃ v, w = .offer k v := by
  rintro o ho w hw rfl
  rcases h with hreg | hun
  · obtain ⟨f, hf, hname, hfcrdt, hfield⟩ := exists_of_crdtOf hreg
    cases hbody : o.body with
    | patch create generated parents group fields =>
      obtain ⟨fop, hmem, hfits⟩ := (hchecked o ho).fieldOpFits hbody hw
      rw [hkind o ho] at hfits
      have hfit := hfits f hfield
      rw [hfcrdt] at hfit
      left
      rcases hcrdt with rfl | rfl | rfl
      · cases fop with
        | edit add remove =>
          rcases List.mem_append.mp hmem with hmem | hmem
          · obtain ⟨v, -, hv⟩ := List.mem_map.mp hmem
            rw [← hv]
            rfl
          · obtain ⟨x, -, hx⟩ := List.mem_flatMap.mp hmem
            obtain ⟨tag, -, htag⟩ := List.mem_map.mp hx
            rw [← htag]
            rfl
        | set | inc | map => simp [fieldOpFits] at hfit
      · cases fop with
        | inc n =>
          rw [List.mem_singleton.mp hmem]
          rfl
        | set | edit | map => simp [fieldOpFits] at hfit
      · cases fop with
        | map entries =>
          obtain ⟨x, -, hx⟩ := List.mem_map.mp hmem
          rw [← hx]
          rfl
        | set | edit | inc => simp [fieldOpFits] at hfit
    | legacy cls state group =>
      have hsame : ∀ g ∈ kind.spec.own.fields, g.name = w.field → g.crdt = crdt := by
        intro g hg hgname
        have := registeredField_of_mem hg
        rw [hgname, hfield] at this
        rw [← Option.some.inj this, hfcrdt]
      unfold writes spec at hw
      rw [hbody, hkind o ho] at hw
      rcases mem_legacyWrites hw with ⟨g, hg, hgcrdt, v, rfl⟩ | ⟨g, hg, hgcrdt, key, v, rfl⟩ |
        ⟨v, hoffer, -⟩
      · left
        rw [← hsame g hg rfl, hgcrdt]
        rfl
      · left
        rw [← hsame g hg rfl, hgcrdt]
        rfl
      · exact .inr ⟨by unfold isLegacy; rw [hbody], v, hoffer⟩
  · exact (hun.only o ho w hw rfl).imp_right fun h => h.2

theorem IsField.not_mem_fieldsOf (h : IsField kind ops crdt k) {other : Crdt} (hne : other ≠ crdt) :
    k ∉ fieldsOf kind.spec other := by
  intro hmem
  obtain ⟨f, hf, hname⟩ := List.mem_map.mp hmem
  obtain ⟨hfield, hcrdt⟩ := List.mem_filter.mp hf
  have hcrdt : f.crdt = other := by simpa using hcrdt
  have hreg := registeredField_of_mem hfield
  rw [hname] at hreg
  rcases h with h | h
  · obtain ⟨g, -, -, hgcrdt, hgreg⟩ := exists_of_crdtOf h
    rw [hreg] at hgreg
    rw [Option.some.inj hgreg, hgcrdt] at hcrdt
    exact hne hcrdt.symm
  · have hunknown := h.unknown
    rw [hreg] at hunknown
    cases hunknown

theorem mem_fieldsOf (h : kind.spec.crdtOf k = some crdt) :
    k ∈ fieldsOf kind.spec crdt := by
  obtain ⟨f, hf, hname, hcrdt, -⟩ := exists_of_crdtOf h
  exact List.mem_map.mpr
    ⟨f, List.mem_filter.mpr ⟨hf, by rw [hcrdt]; exact beq_self_eq_true _⟩, hname⟩

theorem collection_frame {f : FieldSpec} (hf : f ∈ kind.spec.own.fields)
    (hc : f.crdt.IsCollection) : f.name ∉ unwritable ∧ f.name ∉ streakFields := by
  have : ∀ f ∈ kind.spec.own.fields, f.crdt = .orSet ∨ f.crdt = .counter ∨ f.crdt = .map →
      f.name ∉ unwritable ∧ f.name ∉ streakFields := by
    cases kind <;> decide
  exact this f hf hc

theorem Op.Checked.field_writable {op : Op} (h : op.Checked r) {create generated : Bool}
    {parents : Option (List OpRef)} {group : Option (Id × ℕ)} {fields : List (String × FieldOp)}
    (hbody : op.body = .patch create generated parents group fields) {w : Write}
    (hw : w ∈ op.writes) : w.field ∉ unwritable := by
  unfold writes at hw
  unfold Op.Checked at h
  rw [hbody] at hw h
  obtain ⟨⟨name, fop⟩, hmem, hw⟩ := List.mem_flatMap.mp hw
  rw [field_of_mem_fieldOpWrites hw]
  exact (checkField_eq_ok.mp (h _ hmem)).1

theorem Kept.exists_write (h : Kept ops k crdt) :
    ∃ o ∈ ops, ∃ w ∈ o.writes, w.field = k ∧ w.isOf crdt = true := by
  cases crdt with
  | orSet =>
    obtain ⟨o, ho, v, hw, -⟩ := h
    exact ⟨o, ho, _, hw, rfl, rfl⟩
  | counter =>
    obtain ⟨o, ho, n, hw, -⟩ := h
    exact ⟨o, ho, _, hw, rfl, rfl⟩
  | map =>
    obtain ⟨o, ho, key, v, hw⟩ := h
    exact ⟨o, ho, _, hw, rfl, rfl⟩
  | register | nested | derived => cases h

theorem IsField.frame (h : IsField kind ops crdt k) (hcrdt : crdt.IsCollection)
    (hkind : ∀ o ∈ ops, o.target.kind = kind) (hchecked : ∀ o ∈ ops, o.Checked r) :
    k ∉ unwritable ∧ (kind = .routine → k ∉ streakFields) := by
  rcases h with h | h
  · obtain ⟨f, hf, hname, hfcrdt, -⟩ := exists_of_crdtOf h
    obtain ⟨h₁, h₂⟩ := collection_frame hf (hfcrdt ▸ hcrdt)
    exact hname ▸ ⟨h₁, fun _ => h₂⟩
  · refine ⟨?_, ?_⟩
    · obtain ⟨o, ho, w, hw, rfl, hof⟩ := h.kept.exists_write
      cases hbody : o.body with
      | patch create generated parents group fields =>
        exact (hchecked o ho).field_writable hbody hw
      | legacy cls state group =>
        -- a full-state op writes only registered fields as anything but a register
        unfold writes spec at hw
        rw [hbody, hkind o ho] at hw
        have hno : ∀ g ∈ kind.spec.own.fields, g.name ≠ w.field := by
          intro g hg hgname
          have := registeredField_of_mem hg
          rw [hgname, h.unknown] at this
          cases this
        rcases mem_legacyWrites hw with ⟨g, hg, -, v, rfl⟩ | ⟨g, hg, -, key, v, rfl⟩ | ⟨v, hv, -⟩
        · exact absurd rfl (hno g hg)
        · exact absurd rfl (hno g hg)
        · rw [hv] at hof
          cases crdt <;> cases hof
    · rintro rfl hmem
      obtain ⟨f, hf, -⟩ := Option.map_eq_some_iff.mp (streakFields_derived k hmem)
      rw [h.unknown] at hf
      cases hf

end Fields

/-! ### The rows of an entity, and what its ops say -/

namespace Entity

variable {c : Codec} {kind : EntityKind} {ops : List Op} {e : Entity} {k : String}
  (hS : DistinctOps {o | o ∈ ops}) (h : e.Sound c kind (.ofOps c {o | o ∈ ops}))
  (hc : e.Covered (.ofOps c {o | o ∈ ops}) (.ofOps c {o | o ∈ ops}))

include h hc

/-- **The live adds of an element**, in the rows and by the ops. -/
theorem Sound.inSet_iff (b : Bytes) :
    (∃ tag hlc, e.adds.find (tagKey k b tag) = some hlc ∧
      superseded (tag.stamp hlc) (legacyFloor ops) = false ∧
      e.removes.find (tagKey k b tag) = none) ↔ InSet c ops k b := by
  have hfloor := h.floor_eq hc.toCoveredButRemoves
  have hremoved : ∀ key, e.removes.find key = none ↔ ∀ o ∈ ops, ¬ o.Removes c key := by
    intro key
    have hiff := h.removes_find_iff hc.removes key
    rw [Share.mem_removes_ofOps] at hiff
    constructor
    · intro hnone o ho hr
      rw [hiff.mpr ⟨o, ho, hr⟩] at hnone
      cases hnone
    · intro hno
      cases hfind : e.removes.find key with
      | none => rfl
      | some u =>
        obtain ⟨o, ho, hr⟩ := hiff.mp hfind
        exact absurd hr (hno o ho)
  constructor
  · rintro ⟨tag, hlc, hadd, habove, hnone⟩
    obtain ⟨o, ho, hadds, rfl⟩ := Share.mem_adds_ofOps.mp (h.adds _ _ hadd).1
    obtain rfl : tag = o.stamp.opRef := tag_of_adds hadds
    exact ⟨o, ho, hadds, habove, (hremoved _).mp hnone⟩
  · rintro ⟨o, ho, hadds, habove, hno⟩
    refine ⟨o.stamp.opRef, o.stamp.hlc, ?_, habove, (hremoved _).mpr hno⟩
    refine (h.adds_find_iff hc.toCoveredButRemoves _ _).mpr
      ⟨Share.mem_adds_ofOps.mpr ⟨o, ho, hadds, rfl⟩, ?_⟩
    rw [hfloor, addStamp_of_adds hadds]
    exact habove

/-- **The deltas of a counter** are those of the ops that count. -/
theorem Sound.deltas_eq {l : List Op} (hl : Increments ops k l) :
    e.deltas.rows.filter (fun r => decide ((ofLex r.1).1 = k)) =
      l.map fun o => (toLex (k, o.stamp.opRef), ⟨o.stamp.hlc, (o.delta k).getD 0⟩) := by
  have hfloor := h.floor_eq hc.toCoveredButRemoves
  refine List.Pairwise.eq_of_mem_iff (r := fun a b => a.1 < b.1) (e.deltas.sorted.filter _) ?_ ?_
  · refine List.pairwise_map.mpr (hl.sorted.imp fun hlt => ?_)
    exact Prod.Lex.toLex_lt_toLex.mpr (.inr ⟨rfl, hlt⟩)
  · rintro ⟨key, row⟩
    rw [List.mem_filter, Table.mem_rows, h.deltas_find_iff hc.toCoveredButRemoves,
      Share.mem_deltas_ofOps, List.mem_map, hfloor, decide_eq_true_eq]
    constructor
    · rintro ⟨⟨⟨o, ho, href, hrow⟩, habove⟩, rfl⟩
      obtain ⟨n, hn, rfl⟩ := Option.map_eq_some_iff.mp hrow
      have hstamp : deltaStamp key ⟨o.stamp.hlc, n⟩ = o.stamp := by
        unfold deltaStamp
        rw [href]
        rfl
      rw [hstamp] at habove
      refine ⟨o, (hl.mem o).mpr ⟨ho, by rw [hn]; rfl, habove⟩, ?_⟩
      rw [hn, ← href]
      rfl
    · rintro ⟨o, ho, heq⟩
      obtain ⟨rfl, rfl⟩ := Prod.mk.inj heq
      obtain ⟨hmem, hsome, habove⟩ := (hl.mem o).mp ho
      obtain ⟨n, hn⟩ := Option.isSome_iff_exists.mp hsome
      refine ⟨⟨⟨o, hmem, rfl, ?_⟩, habove⟩, rfl⟩
      show (o.delta k).map _ = _
      rw [hn]
      rfl

/-- **The entries of a map** are the latest writes of its keys, at or above the floor. -/
theorem Sound.holds_iff (hS : DistinctOps {o | o ∈ ops}) (key : String) (v : Value) :
    (∃ row, e.maps.find (toLex (k, key)) = some row ∧
      superseded row.stamp (legacyFloor ops) = false ∧ v = c.dec row.value ∧ v.isNull = false) ↔
      Holds c ops k key v := by
  have hU : (Share.ofOps c {o | o ∈ ops}).Ordered := Share.ordered_ofOps hS ops.finite_toSet
  have hfind := h.maps_find_iff hU.toWellFormed hc.toCoveredButRemoves (toLex (k, key))
  constructor
  · rintro ⟨row, hrow, habove, hv⟩
    obtain ⟨hentry, hmax⟩ := (hfind row).mp hrow
    obtain ⟨o, ho, hentry⟩ := Share.mem_entries_ofOps.mp hentry
    have hstamp := stamp_of_entry hentry
    refine ⟨o, ho, row, hentry, hstamp ▸ habove, fun o' ho' hsome => ?_, hv⟩
    obtain ⟨row', hrow'⟩ := Option.isSome_iff_exists.mp hsome
    rw [← hstamp, ← stamp_of_entry hrow']
    exact hmax row' (Share.mem_entries_ofOps.mpr ⟨o', ho', hrow'⟩)
  · rintro ⟨o, ho, row, hentry, habove, hmax, hv⟩
    have hstamp := stamp_of_entry hentry
    refine ⟨row, (hfind row).mpr ⟨Share.mem_entries_ofOps.mpr ⟨o, ho, hentry⟩, ?_⟩, ?_, hv⟩
    · intro row' hrow'
      obtain ⟨o', ho', hentry'⟩ := Share.mem_entries_ofOps.mp hrow'
      rw [hstamp, stamp_of_entry hentry']
      exact hmax o' ho' (by rw [hentry']; rfl)
    · rw [hstamp]
      exact habove

/-- **The register of a name only full-state ops offer** holds the floor's own write. -/
theorem Sound.find_register (hS : DistinctOps {o | o ∈ ops})
    (hoffer : ∀ o ∈ ops, (o.member c k).isSome → o.isLegacy = true) :
    e.regs.registers.find k = (floorOp ops).bind fun o => o.member c k := by
  have hU : (Share.ofOps c {o | o ∈ ops}).Ordered := Share.ordered_ofOps hS ops.finite_toSet
  have hmembers := h.mem_members_iff hU hc.toCoveredButRemoves k
  have hfloor := h.floor_eq hc.toCoveredButRemoves
  rw [hfloor] at hmembers
  -- no full-state op is above the floor
  have hle : ∀ o ∈ ops, o.isLegacy = true → ∃ l, legacyFloor ops = some l ∧ o.stamp ≤ l := by
    intro o ho hlegacy
    have hmem : o.stamp ∈ (ops.filter fun o => o.isLegacy).map (·.stamp) :=
      List.mem_map_of_mem (List.mem_filter.mpr ⟨ho, hlegacy⟩)
    cases hmax : legacyFloor ops with
    | none =>
      rw [legacyFloor, List.max?_eq_none_iff] at hmax
      rw [hmax] at hmem
      cases hmem
    | some l => exact ⟨l, rfl, (List.max?_eq_some_iff.mp hmax).2 _ hmem⟩
  -- the members are the write of the floor's op
  have hfloorOp : ∀ m, m ∈ e.regs.members k ↔
      (floorOp ops).bind (fun o => o.member c k) = some m := by
    intro m
    rw [hmembers, Share.mem_members_ofOps]
    constructor
    · rintro ⟨⟨o, ho, hm⟩, habove, -⟩
      obtain ⟨l, hl, hol⟩ := hle o ho (hoffer o ho (by rw [hm]; rfl))
      rw [stamp_of_member hm, hl] at habove
      have hstamp : o.stamp = l := le_antisymm hol (not_lt.mp (of_decide_eq_false habove))
      have hfind : floorOp ops = some o := by
        unfold floorOp
        rw [hl, Option.bind_some]
        cases hf : ops.find? fun o => decide (o.stamp = l) with
        | none =>
          have := List.find?_eq_none.mp hf o ho
          simp [hstamp] at this
        | some o' =>
          have hstamp' : o'.stamp = l := by simpa using List.find?_some hf
          rw [hS o' (List.mem_of_find?_eq_some hf) o ho (by rw [hstamp', hstamp])]
      rw [hfind]
      exact hm
    · intro hbind
      obtain ⟨o, hop, hm⟩ := Option.bind_eq_some_iff.mp hbind
      obtain ⟨l, hl, hfind⟩ := Option.bind_eq_some_iff.mp hop
      have ho := List.mem_of_find?_eq_some hfind
      have hstamp : o.stamp = l := by simpa using List.find?_some hfind
      refine ⟨⟨o, ho, hm⟩, ?_, ?_⟩
      · rw [stamp_of_member hm, hl, hstamp]
        exact decide_eq_false (lt_irrefl l)
      · rintro m' hm' hp
        obtain ⟨o', ho', hmember⟩ := Share.mem_members_ofOps.mp hm'
        have hstamps : ∀ o ∈ ops, o.stamp ∈ stampsOf (Share.ofOps c {o | o ∈ ops}).toHistory :=
          fun o ho => ⟨o.version, Share.mem_versions_ofOps.mpr ⟨o, ho, rfl⟩, stamp_version o⟩
        rw [stamp_of_member hm, stamp_of_member hmember] at hp
        have hlt := hU.history.order.lt (hstamps o ho) (hstamps o' ho') hp
        obtain ⟨l', hl', hle'⟩ := hle o' ho' (hoffer o' ho' (by rw [hmember]; rfl))
        rw [hl] at hl'
        rw [hstamp] at hlt
        exact absurd ((Option.some.inj hl') ▸ hle') (not_le.mpr hlt)
  have hone : OneEach (e.regs.members k) := h.regs.oneEach hU.toWellFormed k
  rw [(h.normal k).winner]
  cases hbind : (floorOp ops).bind fun o => o.member c k with
  | none =>
    refine winner_eq_none.mpr (List.eq_nil_iff_forall_not_mem.mpr fun m hm => ?_)
    rw [(hfloorOp m).mp hm] at hbind
    cases hbind
  | some w =>
    refine (winner_eq_some_iff hone).mpr ⟨(hfloorOp w).mpr hbind, fun m hm => ?_⟩
    rw [(hfloorOp m).mp hm] at hbind
    rw [Option.some.inj hbind]

/-- **The base of a counter** is the number the floor's op gave it. -/
theorem Sound.counterBase_eq (hS : DistinctOps {o | o ∈ ops})
    (hoffer : ∀ o ∈ ops, (o.member c k).isSome → o.isLegacy = true) :
    counterBase (legacyFloor ops) (registers c e) k = floorBase c ops k := by
  have hregister := h.find_register hc hS hoffer
  unfold counterBase registers floorBase Member.baseOf
  rw [Table.find_mapValues, hregister]
  cases hbind : (floorOp ops).bind fun o => o.member c k with
  | none => rfl
  | some w =>
    -- the floor's op is not below the floor
    obtain ⟨o, hop, hm⟩ := Option.bind_eq_some_iff.mp hbind
    obtain ⟨l, hl, hfind⟩ := Option.bind_eq_some_iff.mp hop
    have hstamp : o.stamp = l := by simpa using List.find?_some hfind
    have habove : superseded w.stamp (legacyFloor ops) = false := by
      rw [stamp_of_member hm, hl, hstamp]
      exact decide_eq_false (lt_irrefl l)
    dsimp only [Option.map_some]
    rw [habove]
    rfl

end Entity

open Classical in
/-- The increments that count can be listed. -/
theorem exists_increments {ops : List Op} (hS : DistinctOps {o | o ∈ ops}) (k : String) :
    ∃ l, Increments ops k l := by
  let counts := ops.filter fun o => decide ((o.delta k).isSome ∧
    Entity.atOrBelowFloor (legacyFloor ops) o.stamp = false)
  let le : Op → Op → Prop := fun o o' => o.stamp.opRef ≤ o'.stamp.opRef
  have : Std.Total le := ⟨fun o o' => le_total o.stamp.opRef o'.stamp.opRef⟩
  have : IsTrans Op le := ⟨fun _ _ _ => le_trans (α := OpRef)⟩
  have hperm := List.perm_insertionSort le counts.dedup
  have hmem : ∀ o, o ∈ counts.dedup.insertionSort le ↔ o ∈ ops ∧ (o.delta k).isSome ∧
      Entity.atOrBelowFloor (legacyFloor ops) o.stamp = false := by
    intro o
    rw [hperm.mem_iff, List.mem_dedup, List.mem_filter, decide_eq_true_iff]
  refine ⟨counts.dedup.insertionSort le, hmem, ?_⟩
  have hnodup : (counts.dedup.insertionSort le).Nodup := hperm.nodup_iff.mpr counts.nodup_dedup
  refine ((List.pairwise_insertionSort le counts.dedup).and hnodup).imp_of_mem ?_
  rintro o o' ho ho' ⟨hle, hne⟩
  refine lt_of_le_of_ne hle fun heq => hne ?_
  exact hS o ((hmem o).mp ho).1 o' ((hmem o').mp ho').1 heq

theorem foldl_saturatingAdd (l : List ℤ) (b : ℤ) (h : ∀ l', l' <+: l → InI64 (b + l'.sum)) :
    l.foldl saturatingAdd b = b + l.sum := by
  induction l generalizing b with
  | nil => simp
  | cons n l ih =>
    have hstep : saturatingAdd b n = b + n := by
      have := h [n] (by simp)
      unfold InI64 at this
      rw [List.sum_singleton] at this
      unfold saturatingAdd
      omega
    rw [List.foldl_cons, hstep, List.sum_cons, ih, Int.add_assoc]
    intro l' hl'
    have := h (n :: l') (List.cons_prefix_cons.mpr ⟨rfl, hl'⟩)
    rwa [List.sum_cons, ← Int.add_assoc] at this

theorem foldl_deltas {floor : Option Stamp} {k : String} (l : List Op) (n : ℤ)
    (h : ∀ o ∈ l, Entity.atOrBelowFloor floor o.stamp = false) :
    (l.map fun o => ((toLex (k, o.stamp.opRef), ⟨o.stamp.hlc, (o.delta k).getD 0⟩) :
      (String ×ₗ OpRef) × DeltaRow)).foldl
      (fun n r => if Entity.atOrBelowFloor floor (deltaStamp r.1 r.2) then n
        else saturatingAdd n r.2.delta) n =
      (l.map fun o => (o.delta k).getD 0).foldl saturatingAdd n := by
  induction l generalizing n with
  | nil => rfl
  | cons o l ih =>
    obtain ⟨ho, hl⟩ := List.forall_mem_cons.mp h
    have hstep : Entity.atOrBelowFloor floor
        (deltaStamp (toLex (k, o.stamp.opRef)) ⟨o.stamp.hlc, (o.delta k).getD 0⟩) = false := ho
    rw [List.map_cons, List.foldl_cons, List.map_cons, List.foldl_cons, ih _ hl, hstep,
      if_neg (by decide)]

/-! ### Sets, counters and maps of a projected entity -/

section

variable {c : Codec} {s : Serde} {r : Records} {kind : EntityKind} {ops : List Op} {crdt : Crdt}
  {e : Entity} {k : String} {legacy : Option Stamp}

theorem exists_offer {o : Op} (h : (o.member c k).isSome) : ∃ v, Write.offer k v ∈ o.writes := by
  obtain ⟨m, hm⟩ := Option.isSome_iff_exists.mp h
  obtain ⟨v, hv, -⟩ := Option.map_eq_some_iff.mp hm
  obtain ⟨w, hw, hoffer⟩ := List.exists_of_findSome?_eq_some hv
  cases w with
  | offer field value =>
    rw [offered, Option.ite_none_right_eq_some] at hoffer
    exact ⟨value, hoffer.1 ▸ hw⟩
  | _ => simp [offered] at hoffer

section Tables

variable (hk : IsField kind ops crdt k) (hcrdt : crdt.IsCollection)
  (hkind : ∀ o ∈ ops, o.target.kind = kind) (hchecked : ∀ o ∈ ops, o.Checked r)
  (h : e.Sound c kind (.ofOps c {o | o ∈ ops}))

include hk hcrdt hkind hchecked

theorem IsField.isLegacy_of_member {o : Op} (ho : o ∈ ops) (hm : (o.member c k).isSome) :
    o.isLegacy = true := by
  obtain ⟨v, hw⟩ := exists_offer hm
  rcases hk.only hcrdt hkind hchecked o ho _ hw rfl with hof | ⟨hlegacy, -⟩
  · cases crdt <;> cases hof
  · exact hlegacy

include h

theorem IsField.find_counters {regs : Project.Read} (hne : crdt ≠ .counter) :
    (counters kind.spec legacy regs e).find k = none := by
  refine find_counters_eq_none (hk.not_mem_fieldsOf (Ne.symm hne)) ?_
  rintro r hr rfl
  obtain ⟨o, ho, n, hw⟩ := exists_delta_of_row h hr
  rcases hk.only hcrdt hkind hchecked o ho _ hw rfl with hof | ⟨-, v', hv⟩
  · cases crdt with
    | counter => exact hne rfl
    | _ => cases hof
  · cases hv

theorem IsField.find_maps (hne : crdt ≠ .map) :
    (maps c kind.spec legacy e).find k = none := by
  refine find_maps_eq_none c (hk.not_mem_fieldsOf (Ne.symm hne)) ?_
  rintro r hr rfl
  obtain ⟨o, ho, key, v, hw⟩ := exists_entry_of_row h hr
  rcases hk.only hcrdt hkind hchecked o ho _ hw rfl with hof | ⟨-, v', hv⟩
  · cases crdt with
    | map => exact hne rfl
    | _ => cases hof
  · cases hv

end Tables

section Kept

variable (h : e.Sound c kind (.ofOps c {o | o ∈ ops}))
  (hc : e.Covered (.ofOps c {o | o ∈ ops}) (.ofOps c {o | o ∈ ops}))

include h hc

theorem IsField.exists_add (hk : IsField kind ops .orSet k) :
    k ∈ fieldsOf kind.spec .orSet ∨ ∃ r ∈ e.adds.rows, (ofLex r.1).1 = k := by
  refine hk.imp mem_fieldsOf fun hun => ?_
  obtain ⟨o, ho, v, hw, habove⟩ := hun.kept
  have hadds : o.Adds c (tagKey k (c.enc v) o.stamp.opRef) := ⟨k, v, hw, rfl⟩
  refine ⟨(tagKey k (c.enc v) o.stamp.opRef, o.stamp.hlc), Table.mem_rows.mpr ?_, rfl⟩
  refine (h.adds_find_iff hc.toCoveredButRemoves _ _).mpr
    ⟨Share.mem_adds_ofOps.mpr ⟨o, ho, hadds, rfl⟩, ?_⟩
  rw [h.floor_eq hc.toCoveredButRemoves, addStamp_of_adds hadds]
  exact habove

theorem IsField.exists_delta (hk : IsField kind ops .counter k) :
    k ∈ fieldsOf kind.spec .counter ∨ ∃ r ∈ e.deltas.rows, (ofLex r.1).1 = k := by
  refine hk.imp mem_fieldsOf fun hun => ?_
  obtain ⟨o, ho, n, hw, habove⟩ := hun.kept
  obtain ⟨d, hd⟩ : ∃ d, o.delta k = some d := by
    refine Option.isSome_iff_exists.mp (List.findSome?_isSome_iff.mpr ⟨_, hw, ?_⟩)
    rw [show added k (.delta k n) = some n from if_pos rfl]
    rfl
  refine ⟨(toLex (k, o.stamp.opRef), ⟨o.stamp.hlc, d⟩), Table.mem_rows.mpr ?_, rfl⟩
  refine (h.deltas_find_iff hc.toCoveredButRemoves _ _).mpr
    ⟨Share.mem_deltas_ofOps.mpr ⟨o, ho, rfl, congrArg (Option.map _) hd⟩, ?_⟩
  rw [h.floor_eq hc.toCoveredButRemoves]
  exact habove

omit h in
theorem IsField.exists_entry (hk : IsField kind ops .map k) :
    k ∈ fieldsOf kind.spec .map ∨ ∃ r ∈ e.maps.rows, (ofLex r.1).1 = k := by
  refine hk.imp mem_fieldsOf fun hun => ?_
  obtain ⟨o, ho, key, v, hw⟩ := hun.kept
  obtain ⟨row, hrow⟩ : ∃ row, o.entry c (toLex (k, key)) = some row := by
    unfold entry
    rw [← Option.isSome_iff_exists, Option.isSome_map]
    refine List.findSome?_isSome_iff.mpr ⟨_, List.mem_reverse.mpr hw, ?_⟩
    rw [show Op.put (toLex (k, key)) (.entry k key v) = some v from if_pos rfl]
    rfl
  obtain ⟨row', hrow', -⟩ := hc.maps _ row (Share.mem_entries_ofOps.mpr ⟨o, ho, hrow⟩)
  exact ⟨(toLex (k, key), row'), Table.mem_rows.mpr hrow', rfl⟩

theorem IsField.wholeWrite (hk : IsField kind ops .map k) (hS : DistinctOps {o | o ∈ ops}) :
    Project.wholeWrite kind.spec legacy (Project.registers c e) k = none := by
  rcases hk with hreg | hun
  · unfold Project.wholeWrite
    rw [hreg]
    split
    · rw [if_neg (by simp)]
    · rfl
  · have hno : ∀ o ∈ ops, o.member c k = none := by
      intro o ho
      by_contra hne
      obtain ⟨v, hw⟩ := exists_offer (Option.isSome_iff_ne_none.mpr hne)
      rcases hun.only o ho _ hw rfl with hof | ⟨hne, -⟩
      · cases hof
      · exact hne rfl
    have hregister := h.find_register hc hS (k := k) fun o ho hm => by
      rw [hno o ho] at hm
      cases hm
    have hnone : e.regs.registers.find k = none := by
      rw [hregister, Option.bind_eq_none_iff]
      intro o ho
      obtain ⟨l, -, hfind⟩ := Option.bind_eq_some_iff.mp ho
      exact hno o (List.mem_of_find?_eq_some hfind)
    unfold Project.wholeWrite Project.registers
    rw [Table.find_mapValues, hnone]
    rfl

end Kept

section Shown

variable (hS : DistinctOps {o | o ∈ ops}) (hkind : ∀ o ∈ ops, o.target.kind = kind)
  (hchecked : ∀ o ∈ ops, o.Checked r) (h : e.Sound c kind (.ofOps c {o | o ∈ ops}))
  (hc : e.Covered (.ofOps c {o | o ∈ ops}) (.ofOps c {o | o ∈ ops}))

include hkind hchecked h hc

/-- **A set shows the elements that are in it**, each once. -/
theorem IsField.shownAt_set (hk : IsField kind ops .orSet k) : ∃ elements : List Bytes,
    shownAt c kind.spec (legacyFloor ops) e k = some (.array (elements.map c.dec)) ∧
      elements.Nodup ∧ ∀ b, b ∈ elements ↔ InSet c ops k b := by
  have hset : Crdt.orSet.IsCollection := .inl rfl
  obtain ⟨t, ht, hlive⟩ := find_sets kind.spec (legacyFloor ops) (hk.exists_add h hc)
  obtain ⟨elements, hvalue, hnodup, helements⟩ := exists_setValue c t
  refine ⟨elements, ?_, hnodup, fun b => ?_⟩
  · unfold shownAt
    rw [ht, hk.find_maps hset hkind hchecked h (by decide),
      hk.find_counters hset hkind hchecked h (by decide), ← hvalue]
    rfl
  · rw [helements, hlive]
    exact h.inSet_iff hc b

include hS

/-- **A counter shows its base and every increment that counts.** -/
theorem IsField.shownAt_counter (hk : IsField kind ops .counter k) {l : List Op}
    (hl : Increments ops k l) (hsums : ∀ l', l' <+: l →
      InI64 (floorBase c ops k + (l'.map fun o => (o.delta k).getD 0).sum)) :
    Project.shownAt c kind.spec (legacyFloor ops) e k =
      some (.integer (floorBase c ops k + (l.map fun o => (o.delta k).getD 0).sum)) := by
  have hcounter : Crdt.counter.IsCollection := .inr (.inl rfl)
  have hbase := h.counterBase_eq hc (k := k) hS fun o ho hm =>
    hk.isLegacy_of_member hcounter hkind hchecked ho hm
  have hfind := Project.find_counters kind.spec (legacyFloor ops) (Project.registers c e)
    (hk.exists_delta h hc)
  rw [h.deltas_eq hc hl, foldl_deltas l _ fun o ho => ((hl.mem o).mp ho).2.2, hbase,
    foldl_saturatingAdd] at hfind
  · unfold Project.shownAt
    rw [hfind, hk.find_maps hcounter hkind hchecked h (by decide)]
    rfl
  · intro l' hl'
    obtain ⟨l'', hl'', rfl⟩ := List.prefix_map_iff.mp hl'
    exact hsums l'' hl''

omit hkind hchecked in
/-- **A map shows the keys that have a value**, with it. -/
theorem IsField.shownAt_map (hk : IsField kind ops .map k) : ∃ kvs,
    Project.shownAt c kind.spec (legacyFloor ops) e k = some (.map kvs) ∧
      ∀ kv, kv ∈ kvs ↔ ∃ key v, kv = (.text key, v) ∧ Holds c ops k key v := by
  obtain ⟨entries, hentries, hrows⟩ := Project.find_maps kind.spec (legacyFloor ops) c
    (hk.exists_entry hc)
  refine ⟨(entries.filter fun e => !e.2.1.isNull).map fun e => (.text e.1, e.2.1), ?_, fun kv => ?_⟩
  · unfold Project.shownAt
    rw [hentries, Option.bind_some, hk.wholeWrite h hc hS]
    rfl
  · rw [List.mem_map]
    constructor
    · rintro ⟨⟨key, v, stamp⟩, hmem, rfl⟩
      obtain ⟨hentry, hnull⟩ := List.mem_filter.mp hmem
      obtain ⟨row, hrow, habove, heq⟩ := (hrows _).mp hentry
      obtain ⟨rfl, -⟩ := Prod.mk.inj heq
      exact ⟨key, _, rfl, (h.holds_iff hc hS key _).mp
        ⟨row, hrow, habove, rfl, by simpa using hnull⟩⟩
    · rintro ⟨key, v, rfl, hholds⟩
      obtain ⟨row, hrow, habove, rfl, hnull⟩ := (h.holds_iff hc hS key v).mpr hholds
      refine ⟨(key, c.dec row.value, row.stamp), List.mem_filter.mpr ⟨?_, by simpa using hnull⟩,
        rfl⟩
      exact (hrows _).mpr ⟨row, hrow, habove, rfl⟩

end Shown

end

/-- **Sets, counters and maps show what the ops say.** After any run over the ops of an entity, in
whatever order and with whatever redeliveries, the created entity has, under each name of one of the
three types: as a set, the elements that are in it, each once; as a counter, its base and every
increment that counts, as long as their sums stay in range; as a map, the keys that have a value,
with it. -/
theorem projection_reads (c : Codec) (s : Serde) {r : Records} (kind : EntityKind)
    (ops ops' : List Op) (id : Id) (hU : DistinctOps {o | o ∈ ops})
    (hmem : ∀ o, o ∈ ops ↔ o ∈ ops') (hkind : ∀ o ∈ opsOf id ops, o.target.kind = kind)
    (hchecked : ∀ o ∈ opsOf id ops, o.Checked r) (hcreated : ∃ o ∈ opsOf id ops, o.creates) :
    ∃ entries, projection c s (mergeOps c (fun _ => ∅) ops') id = some (.map entries) ∧
      (∀ k, IsField kind (opsOf id ops) .orSet k → ∃ elements : List Bytes,
        getEntry entries k = some (.array (elements.map c.dec)) ∧ elements.Nodup ∧
          ∀ b, b ∈ elements ↔ InSet c (opsOf id ops) k b) ∧
      (∀ k, IsField kind (opsOf id ops) .counter k → ∀ l, Increments (opsOf id ops) k l →
        (∀ l', l' <+: l → InI64 (floorBase c (opsOf id ops) k +
          (l'.map fun o => (o.delta k).getD 0).sum)) →
        getEntry entries k = some (.integer (floorBase c (opsOf id ops) k +
          (l.map fun o => (o.delta k).getD 0).sum))) ∧
      ∀ k, IsField kind (opsOf id ops) .map k → ∃ kvs, getEntry entries k = some (.map kvs) ∧
        ∀ kv, kv ∈ kvs ↔ ∃ key v, kv = (.text key, v) ∧ Holds c (opsOf id ops) k key v := by
  obtain ⟨h, hcov⟩ := sound_mergeOps (c := c) hU hmem hkind
  have hS := hU.folded id
  generalize he : mergeOps c (fun _ => ∅) ops' id = e at h hcov ⊢
  -- the entity is created, and its floor is the greatest full-state op's stamp
  obtain ⟨o, ho, hcreates⟩ := hcreated
  obtain ⟨kind', m, hbook, hm⟩ := hcov.book o.book (Share.mem_books_ofOps.mpr ⟨o, ho, rfl⟩)
  obtain rfl := (h.book kind' m hbook).1
  have hlegacy : m.legacy = legacyFloor (opsOf id ops) := by
    rw [← h.floor_eq hcov.toCoveredButRemoves, Entity.floor, hbook]
    rfl
  obtain ⟨top, hproject, htop⟩ := exists_project_find c s kind' id (hm.created hcreates) e
  rw [hlegacy] at htop
  have hfind : ∀ {k crdt} {v : Value}, crdt.IsCollection → IsField kind' (opsOf id ops) crdt k →
      shownAt c kind'.spec (legacyFloor (opsOf id ops)) e k = some v →
      getEntry (textEntries top) k = some v := by
    intro k crdt v hcrdt hk hv
    obtain ⟨hwritable, hstreak⟩ := hk.frame hcrdt hkind hchecked
    rw [getEntry_textEntries, htop k hwritable hstreak, hv]
    rfl
  refine ⟨textEntries top, ?_, fun k hk => ?_, fun k hk l hl hsums => ?_, fun k hk => ?_⟩
  · unfold projection
    rw [he, hbook]
    exact hproject
  · obtain ⟨elements, hv, helements⟩ := hk.shownAt_set hkind hchecked h hcov
    exact ⟨elements, hfind (.inl rfl) hk hv, helements⟩
  · exact hfind (.inr (.inl rfl)) hk (hk.shownAt_counter hS hkind hchecked h hcov hl hsums)
  · obtain ⟨kvs, hv, hkvs⟩ := hk.shownAt_map hS h hcov
    exact ⟨kvs, hfind (.inr (.inr rfl)) hk hv, hkvs⟩

/-- Device 2 defers the task and puts it in a context. -/
def taskDefer : Op where
  target := ⟨.task, 1⟩
  stamp := ⟨⟨2, 0⟩, 2, 1, 7⟩
  body := .patch false false (some [taskCreate.stamp.opRef]) none
    [("contexts", .edit [.text "home"] []), ("deferred_count", .inc 1)]

theorem increments_defer :
    Increments (opsOf 1 [taskCreate, taskDefer]) "deferred_count" [taskDefer] where
  mem := by
    intro o
    constructor
    · intro ho
      rw [List.mem_singleton.mp ho]
      exact ⟨List.mem_cons_of_mem _ List.mem_cons_self, by decide, by decide⟩
    · rintro ⟨ho, hsome, -⟩
      rcases List.mem_cons.mp ho with rfl | ho
      · exact absurd hsome (by decide)
      · exact ho
  sorted := List.pairwise_singleton _ _

theorem projection_reads_defer : ∃ entries,
    projection .short .sample (mergeOps .short (fun _ => ∅) [taskDefer, taskCreate, taskDefer]) 1 =
      some (.map entries) ∧
    getEntry entries "deferred_count" = some (.integer 1) ∧
    ∃ elements : List Bytes,
      getEntry entries "contexts" = some (.array (elements.map Codec.short.dec)) ∧
      ∀ b, b ∈ elements ↔ InSet .short (opsOf 1 [taskCreate, taskDefer]) "contexts" b := by
  have hchecked : ∀ o ∈ opsOf 1 [taskCreate, taskDefer],
      o.Checked ⟨fun _ _ _ => true, fun _ _ => none⟩ := by
    intro o ho
    rcases List.mem_cons.mp ho with rfl | ho
    · intro f hf
      rw [List.mem_singleton.mp hf]
      decide
    · rw [List.mem_singleton.mp ho]
      intro f hf
      rcases List.mem_cons.mp hf with rfl | hf
      · decide
      · rw [List.mem_singleton.mp hf]
        decide
  obtain ⟨entries, hproject, hset, hcounter, -⟩ := projection_reads .short .sample .task
    [taskCreate, taskDefer] [taskDefer, taskCreate, taskDefer] 1 (distinctOps_of_nodup (by decide))
    (by intro o; simp only [List.mem_cons, List.not_mem_nil]; tauto) (by decide) hchecked
    ⟨taskCreate, List.mem_cons_self, rfl⟩
  refine ⟨entries, hproject, ?_, ?_⟩
  · refine hcounter "deferred_count" (.inl (by decide)) [taskDefer] increments_defer ?_
    rintro l' ⟨t, ht⟩
    cases l' with
    | nil => exact ⟨by decide, by decide⟩
    | cons o l' =>
      obtain ⟨rfl, hnil⟩ := List.cons.inj ht
      obtain ⟨rfl, -⟩ := List.append_eq_nil_iff.mp hnil
      exact ⟨by decide, by decide⟩
  · obtain ⟨elements, hv, -, hmem⟩ := hset "contexts" (.inl (by decide))
    exact ⟨elements, hv, hmem⟩

end Sunrise
