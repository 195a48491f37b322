import Mathlib.Data.Prod.Lex
import Sunrise.Keys.Distribution
import Sunrise.Lib.StableSort
import Sunrise.Log.Members
import Sunrise.Rows.Task
import Sunrise.Streams.SortOrder

/-!
# Manual task order

A list in manual order shows the tasks that have a key first, by key and then by id, and the others
after them in the order the list had. A drag in such a list is one move: the tasks to place, in
order, and the two rows they land between. The rows a drag moves are not only those that are
dragged. What is dropped below a row without a key can only land there if that row is given one too,
with every such row above it; and a row below that does not have a greater key than the one above
leaves no room between the two, so it is moved along.

## Main definitions

* `sortManually` — the order of a list.
* `moveWrites`, `moveTasks` — what a move writes, and how it is logged.

## Main results

* `planMoveIn_lands` — **a drag lands where it was dropped.**
-/

namespace Sunrise

namespace Rows

namespace TaskOrder

open Engine (privateDomain)
open Members (Tx Writer)

/-! ### The order of a list -/

/-- How references compare: by kind, and then by id. -/
def cmpRef (a b : Ref) : Ordering :=
  (compare a.kind.ctorIdx b.kind.ctorIdx).then (compare a.id b.id)

section

variable {J : Jiff}

/-- How two tasks compare that both have a key. Nothing if one has none. -/
def cmpPlaced (a b : Task J) : Option Ordering :=
  match a.sortOrder, b.sortOrder with
  | some x, some y => some ((compare x y).then (cmpRef a.id b.id))
  | _, _ => none

/-- How two tasks compare. -/
def cmpManually (a b : Task J) : Ordering :=
  match a.sortOrder, b.sortOrder with
  | some _, some _ => (cmpPlaced a b).getD .eq
  | some _, none => .lt
  | none, some _ => .gt
  | none, none => .eq

def sortManually (tasks : List (Task J)) : List (Task J) :=
  tasks.mergeSort fun a b => (cmpManually a b).isLE

end

/-! ### The move of a drop -/

/-- A row of a list as it is shown. -/
structure OrderedRow where
  id : Ref
  sortOrder : Option String
deriving DecidableEq

def OrderedRow.ofTask {J : Jiff} (t : Task J) : OrderedRow := ⟨t.id, t.sortOrder⟩

/-- Where a drag lands. -/
inductive Drop where
  | before (row : Ref)
  | after (row : Ref)
  | top
  | bottom

structure TaskMove where
  /-- The tasks to place, in the order they will be in. -/
  ids : List Ref
  after : Option Ref
  /-- The row they land above. Nothing for the bottom. -/
  before : Option Ref
deriving DecidableEq

def dragged {α : Type} (id : α → Ref) (list : List α) (moved : List Ref) : List α :=
  list.filter fun r => moved.contains (id r)

def resting {α : Type} (id : α → Ref) (list : List α) (moved : List Ref) : List α :=
  list.filter fun r => !moved.contains (id r)

/-- How many of the resting rows are above a drop. Nothing if it names none of them. -/
def dropAt {α : Type} (id : α → Ref) (rest : List α) : Drop → Option ℕ
  | .top => some 0
  | .bottom => some rest.length
  | .before t => rest.findIdx? fun r => decide (id r = t)
  | .after t => (rest.findIdx? fun r => decide (id r = t)).map (· + 1)

/-- The rows directly below a drop that have no greater key than the one above, and the first that
has. A row without a key is not passed. -/
def joining (floor : Option String) : List OrderedRow → List Ref × Option Ref
  | [] => ([], none)
  | row :: rows =>
    match row.sortOrder with
    | none => ([], none)
    | some k =>
      if floor.all fun f => decide (f < k) then ([], some row.id)
      else (row.id :: (joining floor rows).1, (joining floor rows).2)

/-- The move a drop makes in a list as it is shown. Nothing if it changes nothing. -/
def planMove (list : List OrderedRow) (moved : List Ref) (drop : Drop) : Option TaskMove :=
  let moving := dragged OrderedRow.id list moved
  if moving = [] then none
  else
    let rest := resting OrderedRow.id list moved
    match dropAt OrderedRow.id rest drop with
    | none => none
    | some at_ =>
      let above := rest.take at_
      let below := rest.drop at_
      if (above ++ moving ++ below).map OrderedRow.id = list.map OrderedRow.id then none
      else
        -- The rows from the first without a key on join the move, ahead of the dragged ones.
        let firstUnplaced :=
          (above.findIdx? fun r => decide (r.sortOrder = none)).getD above.length
        let anchored := above.take firstUnplaced
        let lead := above.drop firstUnplaced
        let after := anchored.getLast?
        let joined := if lead = [] then joining (after.bind OrderedRow.sortOrder) below
          else ([], none)
        some ⟨(lead ++ moving).map OrderedRow.id ++ joined.1, after.map OrderedRow.id, joined.2⟩

def planMoveIn {J : Jiff} (tasks : List (Task J)) (moved : List Ref) (drop : Drop) :
    Option TaskMove :=
  planMove (tasks.map OrderedRow.ofTask) moved drop

/-! ### What a move writes -/

/-- Why a move is refused. -/
inductive MoveError where
  | empty
  | wrongKind (got : RefKind)
  | twice (id : Ref)
  | besideItself (id : Ref)
  /-- "the two anchors are not in increasing manual order; move the later one too" -/
  | notIncreasing
  /-- "… has no place in manual order yet; move it with the others" -/
  | unplaced (id : Ref)
  | notFound (id : Ref)
  | deleted (id : Ref)
  | wroteNothing
  | row (e : RowError)
  | storage (why : String)
  | panic

/-- Refuse what is no task. -/
def requireTask (id : Ref) : Except MoveError Unit :=
  if id.kind = .task then .ok () else .error (.wrongKind id.kind)

/-- Refuse what is no task or was `seen`. -/
def checkIds : List Ref → List Ref → Except MoveError Unit
  | _, [] => .ok ()
  | seen, id :: ids => do
    requireTask id
    if id ∈ seen then .error (.twice id) else checkIds (id :: seen) ids

/-- Refuse an anchor that is no task or is moved. -/
def checkAnchor (ids : List Ref) : Option Ref → Except MoveError Unit
  | none => .ok ()
  | some anchor => do
    requireTask anchor
    if anchor ∈ ids then .error (.besideItself anchor) else .ok ()

section

variable (J : Jiff) (cbor : Cbor.Codec)

/-- A task this replica holds and has not deleted. -/
def liveTask (db : TaskTables) (id : Ref) : Except MoveError (Task J) :=
  match readTask J cbor db id.id with
  | .error e => .error (.row e)
  | .ok none => .error (.notFound id)
  | .ok (some task) => if task.deleted then .error (.deleted id) else .ok task

def anchorKey (db : TaskTables) (id : Ref) : Except MoveError String := do
  let task ← liveTask J cbor db id
  match task.sortOrder with
  | some key => .ok key
  | none => .error (.unplaced id)

def anchorKey? (db : TaskTables) : Option Ref → Except MoveError (Option String)
  | none => .ok none
  | some id => (anchorKey J cbor db id).map some

def spreadKeys (lo hi : Option String) (n : ℕ) : Except MoveError (List String) :=
  match SortOrder.spread lo hi n with
  | .ok keys => .ok keys
  | .error (.error _) => .error .notIncreasing
  | .error .panic => .error .panic

def moveWrites (db : TaskTables) (ids : List Ref) (after before : Option Ref) (now : Timestamp) :
    Except MoveError (List (Task J)) := do
  if ids = [] then .error .empty else
    checkIds [] ids
    checkAnchor ids after
    checkAnchor ids before
    let lo ← anchorKey? J cbor db after
    let hi ← anchorKey? J cbor db before
    let keys ← spreadKeys lo hi ids.length
    (ids.zip keys).mapM fun p => do
      let task ← liveTask J cbor db p.1
      .ok { task with sortOrder := some p.2, updatedAt := now }

end

/-- The domain a task is logged in: its stream's, or the private one, which two ids spell. -/
def domainBytes : Option Ref → StreamId
  | some r =>
    if r.kind = .stream ∧ r.id ≠ privateDomain ∧ r.id ≠ metaStream then r.id else privateDomain
  | none => privateDomain

section

variable {J : Jiff} {σ : Type}

/-- The op that writes a task, by how its `fields` are written, and the domain it is logged in. -/
def updateOp (fields : Task J → List (Value × Value)) (task : Task J) : Members.Member :=
  ⟨.entity ⟨.task, task.id.id⟩ (.legacy .update (fields task) none),
    domainBytes task.streamId⟩

/-- Log the writes of a move: one alone, several as a group. -/
def logWrites (w : Writer σ) (tx : Tx σ) : List Members.Member →
    Except String (List Members.Appended × Tx σ)
  | [write] => do
    let (done, tx) ← w.appendAndFold tx write.inner write.stream
    .ok ([done], tx)
  | writes => w.appendMembers tx writes true

/-- What a move answers: the first of its tasks, and what was logged first. -/
def moveAnswer (writes : List (Task J)) (done : List Members.Appended) :
    Except MoveError (Task J × Members.Appended) :=
  match writes.head?, done.head? with
  | some write, some done => .ok (write, done)
  | _, _ => .error .wroteNothing

/-- Place tasks between two others. -/
def moveTasks (cbor : Cbor.Codec) (w : Writer σ) (fields : Task J → List (Value × Value))
    (db : TaskTables) (tx : Tx σ) (ids : List Ref) (after before : Option Ref) (now : Timestamp) :
    Except MoveError ((Task J × Members.Appended) × Tx σ) := do
  let writes ← moveWrites J cbor db ids after before now
  match logWrites w tx (writes.map (updateOp fields)) with
  | .error why => .error (.storage why)
  | .ok (done, tx) => do
    let answer ← moveAnswer writes done
    .ok (answer, tx)

end

/-! ### Ranks -/

section

variable {J : Jiff} {a b t : Task J} {tasks : List (Task J)}

theorem isLE_compare_then {α : Type} [LinearOrder α] (x y : α) (o : Ordering) :
    ((compare x y).then o).isLE = true ↔ x < y ∨ x = y ∧ o.isLE = true := by
  rcases lt_trichotomy x y with h | rfl | h
  · simp [compare_lt_iff_lt.mpr h, h]
  · simp
  · simp [compare_gt_iff_gt.mpr h, h.ne', h.not_gt]

/-- The place of a task in manual order: its key and its reference, or after them all. -/
def rank (t : Task J) : WithTop (String ×ₗ (ℕ ×ₗ Id)) :=
  match t.sortOrder with
  | some key => ((toLex (key, toLex (t.id.kind.ctorIdx, t.id.id)) : String ×ₗ (ℕ ×ₗ Id)) :
      WithTop (String ×ₗ (ℕ ×ₗ Id)))
  | none => ⊤

theorem rank_of_some {key : String} (h : t.sortOrder = some key) :
    rank t = ((toLex (key, toLex (t.id.kind.ctorIdx, t.id.id)) : String ×ₗ (ℕ ×ₗ Id)) :
      WithTop (String ×ₗ (ℕ ×ₗ Id))) := by
  rw [rank, h]

theorem rank_eq_top_iff : rank t = ⊤ ↔ t.sortOrder = none := by
  cases h : t.sortOrder with
  | some key => simp [rank_of_some h]
  | none => simp [rank, h]

theorem cmpManually_isLE : (cmpManually a b).isLE = true ↔ rank a ≤ rank b := by
  cases ha : a.sortOrder with
  | none =>
    cases hb : b.sortOrder with
    | none => simp [cmpManually, rank, ha, hb]
    | some y => simp [cmpManually, rank, ha, hb]
  | some x =>
    cases hb : b.sortOrder with
    | none => simp [cmpManually, rank, ha, hb]
    | some y =>
      rw [rank_of_some ha, rank_of_some hb, WithTop.coe_le_coe, Prod.Lex.toLex_le_toLex,
        Prod.Lex.toLex_le_toLex]
      have hid : (compare a.id.id b.id.id).isLE = true ↔ a.id.id ≤ b.id.id := by
        rw [← Ordering.ne_gt_iff_isLE]
        exact compare_le_iff_le
      simp only [cmpManually, cmpPlaced, ha, hb, Option.getD_some, cmpRef, isLE_compare_then, hid]

theorem rank_lt_of_key_lt {x y : String} (ha : a.sortOrder = some x) (hb : b.sortOrder = some y)
    (h : x < y) : rank a < rank b := by
  rw [rank_of_some ha, rank_of_some hb, WithTop.coe_lt_coe, Prod.Lex.toLex_lt_toLex]
  exact .inl h

theorem key_le_of_rank_le {x y : String} (ha : a.sortOrder = some x) (hb : b.sortOrder = some y)
    (h : rank a ≤ rank b) : x ≤ y := by
  rw [rank_of_some ha, rank_of_some hb, WithTop.coe_le_coe, Prod.Lex.toLex_le_toLex] at h
  exact h.elim le_of_lt fun h => h.1.le

theorem isPreorder_manually :
    StableSort.IsPreorder fun a b : Task J => (cmpManually a b).isLE where
  trans a b c hab hbc := by
    rw [cmpManually_isLE] at *
    exact hab.trans hbc
  total a b := by
    rw [Bool.or_eq_true, cmpManually_isLE, cmpManually_isLE]
    exact le_total _ _

theorem sortManually_eq_iff {l : List (Task J)} :
    sortManually tasks = l ↔ (l.Pairwise fun a b => rank a ≤ rank b) ∧
      ∀ a : Task J, l.filter (fun b => decide (rank a = rank b)) =
        tasks.filter fun b => decide (rank a = rank b) := by
  have htied : ∀ a : Task J, StableSort.tied (fun a b : Task J => (cmpManually a b).isLE) a =
      fun b => decide (rank a = rank b) := by
    intro a
    funext b
    rw [Bool.eq_iff_iff, StableSort.tied, Bool.and_eq_true, cmpManually_isLE, cmpManually_isLE,
      decide_eq_true_iff, le_antisymm_iff]
  rw [sortManually, StableSort.mergeSort_eq_iff isPreorder_manually]
  simp only [htied, cmpManually_isLE]

end

/-! ### Placing tasks -/

section

variable {J : Jiff} {t : Task J} {tasks writes list : List (Task J)} {now : Timestamp}

/-- A task as a move writes it. -/
def withKey (now : Timestamp) (t : Task J) (key : String) : Task J :=
  { t with sortOrder := some key, updatedAt := now }

def place (writes : List (Task J)) (t : Task J) : Task J :=
  (writes.find? fun w => decide (w.id = t.id)).getD t

theorem place_of_notMem (h : t.id ∉ writes.map Task.id) : place writes t = t := by
  have hnone : writes.find? (fun w => decide (w.id = t.id)) = none := by
    rw [List.find?_eq_none]
    intro w hw heq
    exact h (List.mem_map.mpr ⟨w, hw, by simpa using heq⟩)
  rw [place, hnone, Option.getD_none]

theorem place_mem (h : t.id ∈ writes.map Task.id) : place writes t ∈ writes := by
  obtain ⟨w, hw, heq⟩ := List.mem_map.mp h
  have hsome : (writes.find? fun w => decide (w.id = t.id)).isSome :=
    List.find?_isSome.mpr ⟨w, hw, decide_eq_true heq⟩
  obtain ⟨v, hv⟩ := Option.isSome_iff_exists.mp hsome
  rw [place, hv]
  exact List.mem_of_find?_eq_some hv

@[simp] theorem place_id : (place writes t).id = t.id := by
  unfold place
  cases h : writes.find? fun w => decide (w.id = t.id) with
  | none => rfl
  | some w => simpa using List.find?_some h

theorem map_place_id : (tasks.map (place writes)).map Task.id = tasks.map Task.id := by
  rw [List.map_map]
  exact List.map_congr_left fun t _ => place_id

theorem map_place_zipWith (keys : List String) (hlen : keys.length = list.length)
    (hids : (list.map Task.id).Nodup) :
    list.map (place (List.zipWith (withKey now) list keys)) =
      List.zipWith (withKey now) list keys := by
  induction list generalizing keys with
  | nil => rfl
  | cons t list ih =>
    cases keys with
    | nil => cases hlen
    | cons key keys =>
      rw [List.map_cons, List.nodup_cons] at hids
      have hhead : place (withKey now t key :: List.zipWith (withKey now) list keys) t =
          withKey now t key := by simp [place, withKey]
      have htail : ∀ u ∈ list, place (withKey now t key :: List.zipWith (withKey now) list keys) u =
          place (List.zipWith (withKey now) list keys) u := by
        intro u hu
        have hne : t.id ≠ u.id := fun h => hids.1 (h ▸ List.mem_map_of_mem hu)
        simp [place, withKey, hne]
      rw [List.zipWith_cons_cons, List.map_cons, hhead, List.map_congr_left htail,
        ih keys (by simpa using hlen) hids.2]

theorem map_id_zipWith (now : Timestamp) (keys : List String) (hlen : keys.length = list.length) :
    (List.zipWith (withKey now) list keys).map Task.id = list.map Task.id := by
  induction list generalizing keys with
  | nil => rfl
  | cons t list ih =>
    cases keys with
    | nil => cases hlen
    | cons key keys =>
      rw [List.zipWith_cons_cons, List.map_cons, List.map_cons, ih keys (by simpa using hlen)]
      rfl

theorem mem_zipWith_withKey {keys : List String} {w : Task J}
    (h : w ∈ List.zipWith (withKey now) list keys) :
    ∃ t ∈ list, ∃ key ∈ keys, w = withKey now t key := by
  induction list generalizing keys with
  | nil => simp at h
  | cons t list ih =>
    cases keys with
    | nil => simp at h
    | cons key keys =>
      rw [List.zipWith_cons_cons, List.mem_cons] at h
      rcases h with rfl | h
      · exact ⟨t, by simp, key, by simp, rfl⟩
      · obtain ⟨u, hu, k, hk, rfl⟩ := ih h
        exact ⟨u, by simp [hu], k, by simp [hk], rfl⟩

theorem pairwise_zipWith_withKey {keys : List String} (h : keys.Pairwise (· < ·)) :
    (List.zipWith (withKey now) list keys).Pairwise fun a b => rank a ≤ rank b := by
  induction list generalizing keys with
  | nil => simp
  | cons t list ih =>
    cases keys with
    | nil => simp
    | cons key keys =>
      rw [List.pairwise_cons] at h
      rw [List.zipWith_cons_cons, List.pairwise_cons]
      refine ⟨fun w hw => ?_, ih h.2⟩
      obtain ⟨u, -, k, hk, rfl⟩ := mem_zipWith_withKey hw
      exact (rank_lt_of_key_lt rfl rfl (h.1 k hk)).le

end

/-! ### The list after a move -/

section

variable {J : Jiff} {a b : Task J} {tasks anchored mid low : List (Task J)} {keys : List String}
  {now : Timestamp}

theorem id_eq_of_rank_eq (ha : a.id.kind = .task) (hb : b.id.kind = .task) (h : rank a = rank b)
    (hne : rank a ≠ ⊤) : a.id = b.id := by
  obtain ⟨x, hx⟩ := Option.ne_none_iff_exists'.mp (mt rank_eq_top_iff.mpr hne)
  obtain ⟨y, hy⟩ := Option.ne_none_iff_exists'.mp (mt rank_eq_top_iff.mpr (h ▸ hne))
  rw [rank_of_some hx, rank_of_some hy, WithTop.coe_inj, toLex_inj, Prod.mk.injEq, toLex_inj,
    Prod.mk.injEq] at h
  cases hai : a.id
  cases hbi : b.id
  simp_all

theorem filter_eq_of_perm {α : Type} {p : α → Bool} {l l' : List α} (h : l.Perm l') (hl : l.Nodup)
    (hp : ∀ x ∈ l, ∀ y ∈ l, p x = true → p y = true → x = y) : l.filter p = l'.filter p := by
  have hperm := h.filter p
  rcases hf : l.filter p with _ | ⟨x, _ | ⟨y, r⟩⟩
  · rw [hf] at hperm
    exact hperm.nil_eq
  · rw [hf] at hperm
    exact (List.perm_singleton.mp hperm.symm).symm
  · have hnodup := hl.filter p
    have hx := List.mem_filter.mp (hf ▸ List.mem_cons_self : x ∈ l.filter p)
    have hy := List.mem_filter.mp (hf ▸ by simp : y ∈ l.filter p)
    rw [hf] at hnodup
    simp [hp x hx.1 y hy.1 hx.2 hy.2] at hnodup

/-- The list after the writes of a move, if the keys are in order, above those of what rests above
and below those of what rests below. -/
theorem sortManually_place (hids : (tasks.map Task.id).Nodup)
    (hkind : ∀ t ∈ tasks, t.id.kind = .task)
    (hperm : (anchored ++ mid ++ low).Perm tasks)
    (horder : tasks.filter (fun t => decide (t.id ∉ mid.map Task.id)) = anchored ++ low)
    (hrest : (anchored ++ low).Pairwise fun a b => rank a ≤ rank b)
    (hlen : keys.length = mid.length) (hkeys : keys.Pairwise (· < ·))
    (habove : ∀ t ∈ anchored, ∀ key ∈ keys, ∃ f, t.sortOrder = some f ∧ f < key)
    (hbelow : ∀ t ∈ low, ∀ key ∈ keys, ∀ g, t.sortOrder = some g → key < g) :
    sortManually (tasks.map (place (List.zipWith (withKey now) mid keys))) =
      anchored ++ List.zipWith (withKey now) mid keys ++ low := by
  generalize hw : List.zipWith (withKey now) mid keys = writes
  have hwids : writes.map Task.id = mid.map Task.id := hw ▸ map_id_zipWith now keys hlen
  have hnodup : ((anchored ++ mid ++ low).map Task.id).Nodup := (hperm.map _).nodup_iff.mpr hids
  have hmid : mid.map (place writes) = writes := by
    rw [← hw]
    refine map_place_zipWith keys hlen ?_
    rw [List.map_append, List.map_append] at hnodup
    exact (List.nodup_append.mp (List.nodup_append.mp hnodup).1).2.1
  have hother : ∀ t ∈ anchored ++ low, place writes t = t := by
    intro t ht
    refine place_of_notMem ?_
    rw [hwids]
    rw [← horder, List.mem_filter] at ht
    simpa using ht.2
  have hmap : (anchored ++ mid ++ low).map (place writes) = anchored ++ writes ++ low := by
    rw [List.map_append, List.map_append, hmid,
      (List.map_congr_left fun t ht => hother t (List.mem_append_left _ ht)).trans (List.map_id _),
      (List.map_congr_left fun t ht => hother t (List.mem_append_right _ ht)).trans (List.map_id _)]
  have hperm' : (anchored ++ writes ++ low).Perm (tasks.map (place writes)) :=
    hmap ▸ hperm.map (place writes)
  have hwrites : ∀ w ∈ writes, ∃ t ∈ mid, ∃ key ∈ keys, w = withKey now t key := by
    intro w hmem
    exact mem_zipWith_withKey (hw ▸ hmem)
  rw [sortManually_eq_iff]
  constructor
  · rw [List.pairwise_append] at hrest
    refine List.pairwise_append.mpr ⟨List.pairwise_append.mpr ⟨hrest.1, ?_, ?_⟩, hrest.2.1, ?_⟩
    · exact hw ▸ pairwise_zipWith_withKey hkeys
    · intro t ht w hmem
      obtain ⟨u, -, key, hkey, rfl⟩ := hwrites w hmem
      obtain ⟨f, hf, hlt⟩ := habove t ht key hkey
      exact (rank_lt_of_key_lt hf rfl hlt).le
    · intro t ht u hu
      rcases List.mem_append.mp ht with ht | ht
      · exact hrest.2.2 t ht u hu
      · obtain ⟨v, -, key, hkey, rfl⟩ := hwrites t ht
        cases hg : u.sortOrder with
        | none => exact rank_eq_top_iff.mpr hg ▸ le_top
        | some g => exact (rank_lt_of_key_lt rfl hg (hbelow u hu key hkey g hg)).le
  · intro a
    by_cases hatop : rank a = ⊤
    · -- The tasks without a key are those of the list that were moved nowhere, in its order.
      have hq : tasks.filter (fun t => decide (rank a = rank (place writes t))) =
          (anchored ++ low).filter fun t => decide (rank a = rank t) := by
        have hsub : tasks.filter (fun t => decide (rank a = rank (place writes t))) =
            (tasks.filter fun t => decide (t.id ∉ mid.map Task.id)).filter fun t =>
              decide (rank a = rank (place writes t)) := by
          rw [List.filter_filter]
          refine List.filter_congr fun t ht => ?_
          by_cases ht' : t.id ∈ mid.map Task.id
          · obtain ⟨v, -, key, -, hv⟩ := hwrites _ (place_mem (hwids ▸ ht'))
            have hne : rank (place writes t) ≠ ⊤ := fun h => by
              rw [hv] at h
              cases rank_eq_top_iff.mp h
            simp [hatop, hne.symm]
          · simp [ht']
        rw [hsub, horder]
        exact List.filter_congr fun t ht => by rw [hother t ht]
      have hnone : writes.filter (fun t => decide (rank a = rank t)) = [] := by
        rw [List.filter_eq_nil_iff]
        intro w hmem heq
        obtain ⟨v, -, key, -, rfl⟩ := hwrites w hmem
        rw [hatop] at heq
        cases rank_eq_top_iff.mp (of_decide_eq_true heq).symm
      rw [List.filter_append, List.filter_append, hnone, List.append_nil, ← List.filter_append,
        List.filter_map]
      change _ = (tasks.filter fun t => decide (rank a = rank (place writes t))).map (place writes)
      rw [hq]
      refine ((List.map_congr_left fun t ht => ?_).trans (List.map_id _)).symm
      exact hother t (List.mem_of_mem_filter ht)
    · have hids' : ((anchored ++ writes ++ low).map Task.id).Nodup := by
        rw [← hmap, map_place_id]
        exact hnodup
      refine filter_eq_of_perm hperm' hids'.of_map fun x hx y hy hpx hpy => ?_
      have htask : ∀ z ∈ anchored ++ writes ++ low, z.id.kind = .task := by
        intro z hz
        obtain ⟨t, ht, rfl⟩ := List.mem_map.mp (hperm'.mem_iff.mp hz)
        rw [place_id]
        exact hkind t ht
      have hrank : rank x = rank y := (of_decide_eq_true hpx).symm.trans (of_decide_eq_true hpy)
      refine List.inj_on_of_nodup_map hids' hx hy
        (id_eq_of_rank_eq (htask x hx) (htask y hy) hrank ?_)
      rwa [← of_decide_eq_true hpx]

end

/-! ### What a move holds -/

/-- The list a drop asks for: the rows above it, the dragged ones, and the rows below. Nothing if it
names no row that rests. -/
def arranged {J : Jiff} (tasks : List (Task J)) (moved : List Ref) (drop : Drop) :
    Option (List (Task J)) :=
  let rest := resting Task.id tasks moved
  (dropAt Task.id rest drop).map fun at_ =>
    rest.take at_ ++ dragged Task.id tasks moved ++ rest.drop at_

/-- Where the rows that join a move end: before a row without a key or the end of the list, or
before a row with a key above the floor. -/
inductive Stops {J : Jiff} (floor : Option String) : List (Task J) → Option Ref → Prop where
  | unbounded {low : List (Task J)} (h : ∀ t ∈ low.head?, t.sortOrder = none) : Stops floor low none
  | bounded {t : Task J} {low : List (Task J)} {key : String} (h : t.sortOrder = some key)
      (hfloor : ∀ f, floor = some f → f < key) : Stops floor (t :: low) (some t.id)

/-- What a move holds: rows that rest, `anchored` above it and `low` below, and between them the
rows that are moved, the dragged ones with those that join them. -/
structure Planned {J : Jiff} (tasks : List (Task J)) (moved : List Ref) (drop : Drop)
    (move : TaskMove) (anchored lead joined low : List (Task J)) : Prop where
  dragged_ne_nil : dragged Task.id tasks moved ≠ []
  resting_eq : resting Task.id tasks moved = anchored ++ lead ++ joined ++ low
  arranged_eq : arranged tasks moved drop =
    some (anchored ++ (lead ++ dragged Task.id tasks moved ++ joined) ++ low)
  changes : (anchored ++ (lead ++ dragged Task.id tasks moved ++ joined) ++ low).map Task.id ≠
    tasks.map Task.id
  ids_eq : move.ids = (lead ++ dragged Task.id tasks moved ++ joined).map Task.id
  after_eq : move.after = anchored.getLast?.map Task.id
  placed : ∀ t ∈ anchored, t.sortOrder ≠ none
  unplaced : ∀ t ∈ lead.head?, t.sortOrder = none
  before_eq : lead ≠ [] ∧ joined = [] ∧ move.before = none ∨
    lead = [] ∧ Stops (anchored.getLast?.bind Task.sortOrder) low move.before

section

variable {J : Jiff} {tasks : List (Task J)} {moved : List Ref} {drop : Drop} {move : TaskMove}

theorem dragged_map :
    dragged OrderedRow.id (tasks.map OrderedRow.ofTask) moved =
      (dragged Task.id tasks moved).map OrderedRow.ofTask := List.filter_map ..

theorem resting_map :
    resting OrderedRow.id (tasks.map OrderedRow.ofTask) moved =
      (resting Task.id tasks moved).map OrderedRow.ofTask := List.filter_map ..

theorem dropAt_map : dropAt OrderedRow.id (tasks.map OrderedRow.ofTask) drop =
    dropAt Task.id tasks drop := by
  cases drop with
  | before t => exact List.findIdx?_map ..
  | after t => exact congrArg (Option.map (· + 1)) (List.findIdx?_map ..)
  | top => rfl
  | bottom => exact congrArg some (List.length_map ..)

theorem arranged_eq_none (h : arranged tasks moved drop = none) :
    ∃ row, (drop = .before row ∨ drop = .after row) ∧
      row ∉ (resting Task.id tasks moved).map Task.id := by
  have hat : dropAt Task.id (resting Task.id tasks moved) drop = none := Option.map_eq_none_iff.mp h
  have hnone {row : Ref} (h : (resting Task.id tasks moved).findIdx?
      (fun t => decide (t.id = row)) = none) : row ∉ (resting Task.id tasks moved).map Task.id := by
    rw [List.findIdx?_eq_none_iff] at h
    intro hmem
    obtain ⟨t, ht, heq⟩ := List.mem_map.mp hmem
    exact absurd heq (of_decide_eq_false (h t ht))
  cases drop with
  | before row => exact ⟨row, .inl rfl, hnone hat⟩
  | after row => exact ⟨row, .inr rfl, hnone (Option.map_eq_none_iff.mp hat)⟩
  | top => cases hat
  | bottom => cases hat

theorem joining_spec (floor : Option String) (below : List (Task J)) :
    ∃ joined low, below = joined ++ low ∧
      (joining floor (below.map OrderedRow.ofTask)).1 = joined.map Task.id ∧
      Stops floor low (joining floor (below.map OrderedRow.ofTask)).2 := by
  induction below with
  | nil => exact ⟨[], [], rfl, rfl, .unbounded (by simp)⟩
  | cons t below ih =>
    rw [List.map_cons, joining]
    cases hkey : t.sortOrder with
    | none =>
      have hrow : (OrderedRow.ofTask t).sortOrder = none := hkey
      rw [hrow]
      exact ⟨[], t :: below, rfl, rfl, .unbounded fun u hu => Option.some.inj hu ▸ hkey⟩
    | some key =>
      have hrow : (OrderedRow.ofTask t).sortOrder = some key := hkey
      rw [hrow]
      dsimp only
      split
      next h =>
        refine ⟨[], t :: below, rfl, rfl, .bounded hkey ?_⟩
        rintro f rfl
        simpa using h
      next =>
        obtain ⟨joined, low, rfl, h1, h2⟩ := ih
        exact ⟨t :: joined, low, rfl, by rw [h1]; rfl, h2⟩

theorem exists_lead (above : List (Task J)) :
    let n := (above.findIdx? fun t => decide (t.sortOrder = none)).getD above.length
    (∀ t ∈ above.take n, t.sortOrder ≠ none) ∧ ∀ t ∈ (above.drop n).head?, t.sortOrder = none := by
  cases h : above.findIdx? fun t => decide (t.sortOrder = none) with
  | none =>
    rw [List.findIdx?_eq_none_iff] at h
    simp only [Option.getD_none, List.take_length, List.drop_length]
    exact ⟨fun t ht => by simpa using h t ht, by simp⟩
  | some n =>
    obtain ⟨hn, ht, hlt⟩ := List.findIdx?_eq_some_iff_getElem.mp h
    simp only [Option.getD_some]
    constructor
    · intro t hmem
      obtain ⟨i, hi, rfl⟩ := List.getElem_of_mem hmem
      rw [List.length_take] at hi
      rw [List.getElem_take]
      simpa using hlt i (by omega)
    · intro t hmem
      rw [List.head?_drop, List.getElem?_eq_getElem hn, Option.mem_some_iff] at hmem
      exact hmem ▸ of_decide_eq_true ht

theorem planMoveIn_eq :
    planMoveIn tasks moved drop =
      if dragged Task.id tasks moved = [] then none
      else
        match dropAt Task.id (resting Task.id tasks moved) drop with
        | none => none
        | some at_ =>
          let above := (resting Task.id tasks moved).take at_
          let below := (resting Task.id tasks moved).drop at_
          if (above ++ dragged Task.id tasks moved ++ below).map Task.id = tasks.map Task.id then
            none
          else
            let n := (above.findIdx? fun t => decide (t.sortOrder = none)).getD above.length
            let after := (above.take n).getLast?
            let joined := if above.drop n = [] then
              joining (after.bind Task.sortOrder) (below.map OrderedRow.ofTask) else ([], none)
            some ⟨(above.drop n ++ dragged Task.id tasks moved).map Task.id ++ joined.1,
              after.map Task.id, joined.2⟩ := by
  have hid : OrderedRow.id ∘ OrderedRow.ofTask = (Task.id : Task J → Ref) := rfl
  have hkey : OrderedRow.sortOrder ∘ OrderedRow.ofTask = (Task.sortOrder : Task J → _) := rfl
  simp only [planMoveIn, planMove, dragged_map, resting_map, dropAt_map, List.map_eq_nil_iff,
    ← List.map_take, ← List.map_drop, ← List.map_append, List.map_map, List.findIdx?_map,
    List.getLast?_map, List.length_map, Option.map_map, Option.bind_map, hid, hkey]
  rfl

theorem planMoveIn_eq_some (h : planMoveIn tasks moved drop = some move) :
    ∃ anchored lead joined low, Planned tasks moved drop move anchored lead joined low := by
  rw [planMoveIn_eq] at h
  split_ifs at h with hne
  cases hat : dropAt Task.id (resting Task.id tasks moved) drop with
  | none => rw [hat] at h; cases h
  | some at_ =>
    rw [hat] at h
    dsimp only at h
    generalize hn : ((((resting Task.id tasks moved).take at_).findIdx? fun t =>
      decide (t.sortOrder = none)).getD ((resting Task.id tasks moved).take at_).length) = n at h
    obtain ⟨hplaced, hunplaced⟩ := exists_lead ((resting Task.id tasks moved).take at_)
    rw [hn] at hplaced hunplaced
    have harranged : arranged tasks moved drop = some ((resting Task.id tasks moved).take at_ ++
        dragged Task.id tasks moved ++ (resting Task.id tasks moved).drop at_) := by
      rw [arranged, hat]
      rfl
    have hrest := List.take_append_drop at_ (resting Task.id tasks moved)
    generalize (resting Task.id tasks moved).take at_ = above at *
    generalize (resting Task.id tasks moved).drop at_ = below at *
    have habove := List.take_append_drop n above
    generalize above.take n = anchored at *
    generalize above.drop n = lead at *
    subst habove
    split_ifs at h with hsame hlead
    · subst hlead
      obtain ⟨joined, low, rfl, hids, hstop⟩ :=
        joining_spec (anchored.getLast?.bind Task.sortOrder) below
      cases h
      refine ⟨anchored, [], joined, low, hne, ?_, ?_, ?_, ?_, rfl, hplaced, hunplaced,
        .inr ⟨rfl, hstop⟩⟩
      · simp [← hrest]
      · simp [harranged]
      · simpa using hsame
      · rw [hids, ← List.map_append]
    · cases h
      refine ⟨anchored, lead, [], below, hne, ?_, ?_, ?_, ?_, rfl, hplaced, hunplaced,
        .inl ⟨hlead, rfl, rfl⟩⟩
      · simp [← hrest]
      · simp [harranged]
      · simpa using hsame
      · simp

theorem planMoveIn_eq_none (h : planMoveIn tasks moved drop = none) :
    dragged Task.id tasks moved = [] ∨ arranged tasks moved drop = none ∨
      (arranged tasks moved drop).map (List.map Task.id) = some (tasks.map Task.id) := by
  rw [planMoveIn_eq] at h
  split_ifs at h with hne
  · exact .inl hne
  · refine .inr ?_
    unfold arranged
    dsimp only
    cases hat : dropAt Task.id (resting Task.id tasks moved) drop with
    | none => exact .inl rfl
    | some at_ =>
      rw [hat] at h
      dsimp only at h
      split_ifs at h with hsame
      exact .inr (congrArg some hsame)

end

/-! ### Where a drag lands -/

/-- A list in manual order, of tasks that a replica holds and has not deleted. -/
structure Shown {J : Jiff} (cbor : Cbor.Codec) (db : TaskTables) (tasks : List (Task J)) :
    Prop where
  nodup : (tasks.map Task.id).Nodup
  keys : ∀ t ∈ tasks, ∀ key, t.sortOrder = some key → SortOrder.isValid key = true
  sorted : sortManually tasks = tasks
  kind : ∀ t ∈ tasks, t.id.kind = .task
  held : ∀ t ∈ tasks, readTask J cbor db t.id.id = .ok (some t)
  live : ∀ t ∈ tasks, t.deleted = false

section

variable {J : Jiff} {cbor : Cbor.Codec} {db : TaskTables}
  {tasks anchored lead joined low : List (Task J)} {moved : List Ref} {drop : Drop}
  {move : TaskMove} {now : Timestamp} {t : Task J}

theorem Shown.liveTask_eq (h : Shown cbor db tasks) (ht : t ∈ tasks) :
    liveTask J cbor db t.id = .ok t := by
  rw [liveTask, h.held t ht]
  simp [h.live t ht]

theorem Shown.pairwise (h : Shown cbor db tasks) : tasks.Pairwise fun a b => rank a ≤ rank b :=
  (sortManually_eq_iff.mp h.sorted).1

theorem Shown.anchorKey_eq (h : Shown cbor db tasks) (ht : t ∈ tasks) {key : String}
    (hkey : t.sortOrder = some key) : anchorKey J cbor db t.id = .ok key := by
  rw [anchorKey, h.liveTask_eq ht]
  show (match t.sortOrder with | some key => _ | none => _) = _
  rw [hkey]

theorem checkIds_eq_ok {seen ids : List Ref} (hkind : ∀ id ∈ ids, id.kind = .task)
    (hnodup : ids.Nodup) (hseen : ∀ id ∈ ids, id ∉ seen) : checkIds seen ids = .ok () := by
  induction ids generalizing seen with
  | nil => rfl
  | cons id ids ih =>
    rw [List.nodup_cons] at hnodup
    rw [checkIds, requireTask, if_pos (hkind id (by simp))]
    refine Result.bind_eq_ok_iff.mpr ⟨(), rfl, ?_⟩
    rw [if_neg (hseen id (by simp))]
    refine ih (fun i hi => hkind i (by simp [hi])) hnodup.2 fun i hi => ?_
    rw [List.mem_cons, not_or]
    exact ⟨fun heq => hnodup.1 (heq ▸ hi), hseen i (by simp [hi])⟩

theorem checkAnchor_eq_ok {ids : List Ref} {anchor : Option Ref}
    (h : ∀ id, anchor = some id → id.kind = .task ∧ id ∉ ids) :
    checkAnchor ids anchor = .ok () := by
  cases anchor with
  | none => rfl
  | some id =>
    rw [checkAnchor, requireTask, if_pos (h id rfl).1]
    refine Result.bind_eq_ok_iff.mpr ⟨(), rfl, ?_⟩
    rw [if_neg (h id rfl).2]

theorem Shown.mapM_eq (h : Shown cbor db tasks) {list : List (Task J)}
    (hlist : ∀ t ∈ list, t ∈ tasks) (keys : List String) :
    (((list.map Task.id).zip keys).mapM fun p => do
      let task ← liveTask J cbor db p.1
      Except.ok { task with sortOrder := some p.2, updatedAt := now }) =
      (.ok (List.zipWith (withKey now) list keys) : Except MoveError (List (Task J))) := by
  induction list generalizing keys with
  | nil => rfl
  | cons t list ih =>
    cases keys with
    | nil => rfl
    | cons key keys =>
      rw [List.map_cons, List.zip_cons_cons, List.mapM_cons, h.liveTask_eq (hlist t (by simp)),
        ih (fun u hu => hlist u (by simp [hu]))]
      rfl

end

section

variable {J : Jiff} {cbor : Cbor.Codec} {db : TaskTables}
  {tasks anchored lead joined low : List (Task J)} {moved : List Ref} {drop : Drop}
  {move : TaskMove} {now : Timestamp} {t : Task J}

theorem unplaced_of_head {l : List (Task J)} (hsorted : l.Pairwise fun a b => rank a ≤ rank b)
    (hhead : ∀ t ∈ l.head?, t.sortOrder = none) : ∀ t ∈ l, t.sortOrder = none := by
  cases l with
  | nil => simp
  | cons u l =>
    have hu : rank u = ⊤ := rank_eq_top_iff.mpr (hhead u rfl)
    intro t ht
    rcases List.mem_cons.mp ht with rfl | ht
    · exact hhead t rfl
    · have hle := (List.pairwise_cons.mp hsorted).1 t ht
      rw [hu, top_le_iff] at hle
      exact rank_eq_top_iff.mp hle

namespace Planned

variable (p : Planned tasks moved drop move anchored lead joined low)

include p

theorem perm : (anchored ++ (lead ++ dragged Task.id tasks moved ++ joined) ++ low).Perm tasks := by
  have hperm : (dragged Task.id tasks moved ++ resting Task.id tasks moved).Perm tasks :=
    List.filter_append_perm ..
  refine List.Perm.trans ?_ hperm
  rw [p.resting_eq]
  classical
  rw [List.perm_iff_count]
  intro x
  simp only [List.count_append]
  omega

theorem mem_tasks (h : t ∈ anchored ++ (lead ++ dragged Task.id tasks moved ++ joined) ++ low) :
    t ∈ tasks := p.perm.mem_iff.mp h

section

variable (h : Shown cbor db tasks)
include h

theorem nodup :
    ((anchored ++ (lead ++ dragged Task.id tasks moved ++ joined) ++ low).map Task.id).Nodup :=
  (p.perm.map _).nodup_iff.mpr h.nodup

theorem pairwise :
    (anchored ++ lead ++ joined ++ low).Pairwise fun a b => rank a ≤ rank b := by
  rw [← p.resting_eq]
  exact h.pairwise.sublist List.filter_sublist

theorem filter_eq :
    tasks.filter (fun t => decide (t.id ∉
      (lead ++ dragged Task.id tasks moved ++ joined).map Task.id)) = anchored ++ low := by
  have hnodup := p.nodup h
  have hrest : tasks.filter (fun t => decide (t.id ∉
      (lead ++ dragged Task.id tasks moved ++ joined).map Task.id)) =
      (resting Task.id tasks moved).filter fun t => decide (t.id ∉
        (lead ++ dragged Task.id tasks moved ++ joined).map Task.id) := by
    rw [resting, List.filter_filter]
    refine List.filter_congr fun t ht => ?_
    by_cases hmoved : moved.contains t.id = true
    · have hmem : t ∈ dragged Task.id tasks moved := List.mem_filter.mpr ⟨ht, hmoved⟩
      have hin : t.id ∈ (lead ++ dragged Task.id tasks moved ++ joined).map Task.id :=
        List.mem_map_of_mem (by simp [hmem])
      simp only [hin, not_true_eq_false, decide_false, Bool.false_and]
    · simp only [hmoved, Bool.not_false, Bool.and_true]
  rw [hrest, p.resting_eq]
  generalize hmid : lead ++ dragged Task.id tasks moved ++ joined = mid at *
  have hlead : ∀ t ∈ lead, t.id ∈ mid.map Task.id := fun t ht =>
    List.mem_map_of_mem (hmid ▸ by simp [ht])
  have hjoined : ∀ t ∈ joined, t.id ∈ mid.map Task.id := fun t ht =>
    List.mem_map_of_mem (hmid ▸ by simp [ht])
  rw [List.map_append, List.map_append, List.nodup_append, List.nodup_append] at hnodup
  have hanchored : ∀ t ∈ anchored, t.id ∉ mid.map Task.id := fun t ht hin =>
    hnodup.1.2.2 _ (List.mem_map_of_mem ht) _ hin rfl
  have hlow : ∀ t ∈ low, t.id ∉ mid.map Task.id := fun t ht hin =>
    hnodup.2.2 _ (List.mem_append_right _ hin) _ (List.mem_map_of_mem ht) rfl
  rw [List.filter_append, List.filter_append, List.filter_append,
    List.filter_eq_self.mpr fun t ht => decide_eq_true (hanchored t ht),
    List.filter_eq_nil_iff.mpr fun t ht => by simpa using hlead t ht,
    List.filter_eq_nil_iff.mpr fun t ht => by simpa using hjoined t ht,
    List.filter_eq_self.mpr fun t ht => decide_eq_true (hlow t ht)]
  simp

theorem key_le_floor (ht : t ∈ anchored) :
    ∃ f g, t.sortOrder = some f ∧ anchored.getLast?.bind Task.sortOrder = some g ∧ f ≤ g := by
  obtain ⟨init, last, rfl⟩ := anchored.eq_nil_or_concat'.resolve_left (List.ne_nil_of_mem ht)
  obtain ⟨f, hf⟩ := Option.ne_none_iff_exists'.mp (p.placed t ht)
  obtain ⟨g, hg⟩ := Option.ne_none_iff_exists'.mp (p.placed last (by simp))
  refine ⟨f, g, hf, by simp [hg], ?_⟩
  have hpw := p.pairwise h
  rw [List.append_assoc, List.append_assoc, List.pairwise_append, List.pairwise_append] at hpw
  rcases List.mem_append.mp ht with ht | ht
  · exact key_le_of_rank_le hf hg (hpw.1.2.2 t ht last (by simp))
  · rw [List.mem_singleton] at ht
    subst ht
    rw [hf] at hg
    exact (Option.some.inj hg).le

theorem exists_bound :
    ∃ hi : Option String,
      (hi = none ∧ move.before = none ∨
        ∃ t ∈ low, ∃ k, t.sortOrder = some k ∧ hi = some k ∧ move.before = some t.id) ∧
      (∀ f k, anchored.getLast?.bind Task.sortOrder = some f → hi = some k → f < k) ∧
      ∀ u ∈ low, ∀ g, u.sortOrder = some g → ∃ k, hi = some k ∧ k ≤ g := by
  have hpw := p.pairwise h
  rcases p.before_eq with ⟨hlead, rfl, hbefore⟩ | ⟨-, hstop⟩
  · -- Below a row without a key there is none.
    refine ⟨none, .inl ⟨rfl, hbefore⟩, by simp, fun u hu g hg => ?_⟩
    rw [List.append_assoc, List.append_assoc, List.nil_append, List.pairwise_append] at hpw
    have hhead : ∀ t ∈ (lead ++ low).head?, t.sortOrder = none := by
      rw [List.head?_append_of_ne_nil _ hlead]
      exact p.unplaced
    rw [unplaced_of_head hpw.2.1 hhead u (List.mem_append_right _ hu)] at hg
    cases hg
  · have hlow : low.Pairwise fun a b => rank a ≤ rank b := (List.pairwise_append.mp hpw).2.1
    generalize move.before = before at hstop ⊢
    cases hstop with
    | unbounded hhead =>
      refine ⟨none, .inl ⟨rfl, rfl⟩, by simp, fun u hu g hg => ?_⟩
      rw [unplaced_of_head hlow hhead u hu] at hg
      cases hg
    | @bounded t low k hk hfloor =>
      refine ⟨some k, .inr ⟨t, List.mem_cons_self, k, hk, rfl, rfl⟩, ?_, fun u hu g hg => ?_⟩
      · rintro f _ hf ⟨⟩
        exact hfloor f hf
      · refine ⟨k, rfl, ?_⟩
        rcases List.mem_cons.mp hu with rfl | hu
        · rw [hk] at hg
          exact (Option.some.inj hg).le
        · exact key_le_of_rank_le hk hg ((List.pairwise_cons.mp hlow).1 u hu)

theorem moveWrites_eq (now : Timestamp) :
    ∃ keys : List String,
      keys.length = (lead ++ dragged Task.id tasks moved ++ joined).length ∧
      moveWrites J cbor db move.ids move.after move.before now = .ok
        (List.zipWith (withKey now) (lead ++ dragged Task.id tasks moved ++ joined) keys) ∧
      sortManually (tasks.map (place (List.zipWith (withKey now)
        (lead ++ dragged Task.id tasks moved ++ joined) keys))) =
        anchored ++
          List.zipWith (withKey now) (lead ++ dragged Task.id tasks moved ++ joined) keys ++
            low := by
  obtain ⟨hi, hbefore, hfloor, hlow⟩ := p.exists_bound h
  have hnodup := p.nodup h
  have hmem := fun {t} => @mem_tasks J tasks anchored lead joined low moved drop move t p
  generalize hlo : anchored.getLast?.bind Task.sortOrder = lo at hfloor
  -- The bounds, and keys between them.
  have hlomem : ∀ f, lo = some f →
      ∃ t ∈ anchored, t.sortOrder = some f ∧ move.after = some t.id := by
    rintro f rfl
    obtain ⟨t, ht, hf⟩ := Option.bind_eq_some_iff.mp hlo
    exact ⟨t, List.mem_of_getLast? ht, hf, by rw [p.after_eq, ht]; rfl⟩
  have hvalid : ∀ k, hi = some k → SortOrder.isValid k = true := by
    rintro k rfl
    obtain ⟨⟨⟩, -⟩ | ⟨t, ht, k', hk, ⟨⟩, -⟩ := hbefore
    exact h.keys t (hmem (by simp [ht])) _ hk
  have hwell : SortOrder.wellFormed (lo.getD "") = true := by
    cases lo with
    | none => rfl
    | some f =>
      obtain ⟨t, ht, hf, -⟩ := hlomem f rfl
      exact SortOrder.wellFormed_of_isValid (h.keys t (hmem (by simp [ht])) _ hf)
  have hincreasing : SortOrder.Increasing lo hi := by
    cases hi with
    | none => exact fun _ heq => by cases heq
    | some k =>
      refine SortOrder.increasing_of_lt hwell (hvalid k rfl) ?_
      cases lo with
      | none =>
        have hk := hvalid k rfl
        rw [Option.getD_none, String.lt_iff_toList_lt]
        cases hlist : k.toList with
        | nil => simp [SortOrder.isValid, hlist] at hk
        | cons c l => exact List.nil_lt_cons c l
      | some f => exact hfloor f k rfl rfl
  obtain ⟨keys, hspread, hlen, hpw, hlies⟩ := SortOrder.spread_of_increasing move.ids.length hwell
    (fun k hk => SortOrder.wellFormed_of_isValid (hvalid k hk)) hincreasing
  rw [p.ids_eq, List.length_map] at hlen
  refine ⟨keys, hlen, ?_, ?_⟩
  · have hids : move.ids ≠ [] := by
      rw [p.ids_eq]
      simp [p.dragged_ne_nil]
    have hkind : ∀ id ∈ move.ids, id.kind = .task := by
      rw [p.ids_eq]
      rintro id hid
      obtain ⟨t, ht, rfl⟩ := List.mem_map.mp hid
      exact h.kind t (hmem (List.mem_append_left _ (List.mem_append_right _ ht)))
    rw [List.map_append, List.map_append, ← p.ids_eq, List.nodup_append,
      List.nodup_append] at hnodup
    have hafter : ∀ id, move.after = some id → id.kind = .task ∧ id ∉ move.ids := by
      rw [p.after_eq]
      intro id heq
      obtain ⟨t, ht, rfl⟩ := Option.map_eq_some_iff.mp heq
      have ht := List.mem_of_getLast? ht
      exact ⟨h.kind t (hmem (by simp [ht])), fun hin =>
        hnodup.1.2.2 _ (List.mem_map_of_mem ht) _ hin rfl⟩
    have hbefore' : ∀ id, move.before = some id → id.kind = .task ∧ id ∉ move.ids := by
      intro id heq
      obtain ⟨-, hnone⟩ | ⟨t, ht, k, hk, -, hb⟩ := hbefore
      · rw [hnone] at heq
        cases heq
      · rw [hb] at heq
        cases heq
        exact ⟨h.kind t (hmem (by simp [ht])), fun hin =>
          hnodup.2.2 _ (List.mem_append_right _ hin) _ (List.mem_map_of_mem ht) rfl⟩
    have hloKey : anchorKey? J cbor db move.after = .ok lo := by
      cases lo with
      | none =>
        have : anchored.getLast? = none := by
          by_contra hne
          obtain ⟨t, ht⟩ := Option.ne_none_iff_exists'.mp hne
          rw [ht, Option.bind_some] at hlo
          exact p.placed t (List.mem_of_getLast? ht) hlo
        rw [p.after_eq, this]
        rfl
      | some f =>
        obtain ⟨t, ht, hf, hafter⟩ := hlomem f rfl
        rw [hafter, anchorKey?, h.anchorKey_eq (hmem (by simp [ht])) hf]
        rfl
    have hhiKey : anchorKey? J cbor db move.before = .ok hi := by
      obtain ⟨rfl, hnone⟩ | ⟨t, ht, k, hk, rfl, hb⟩ := hbefore
      · rw [hnone]
        rfl
      · rw [hb, anchorKey?, h.anchorKey_eq (hmem (by simp [ht])) hk]
        rfl
    have hkeys : spreadKeys lo hi move.ids.length = .ok keys := by
      rw [spreadKeys, hspread]
    rw [moveWrites, if_neg hids]
    refine Result.bind_eq_ok_iff.mpr ⟨(), checkIds_eq_ok hkind hnodup.1.2.1 (by simp), ?_⟩
    refine Result.bind_eq_ok_iff.mpr ⟨(), checkAnchor_eq_ok hafter, ?_⟩
    refine Result.bind_eq_ok_iff.mpr ⟨(), checkAnchor_eq_ok hbefore', ?_⟩
    refine Result.bind_eq_ok_iff.mpr ⟨_, hloKey, ?_⟩
    refine Result.bind_eq_ok_iff.mpr ⟨_, hhiKey, ?_⟩
    refine Result.bind_eq_ok_iff.mpr ⟨_, hkeys, ?_⟩
    rw [p.ids_eq]
    exact h.mapM_eq (fun t ht => hmem (List.mem_append_left _ (List.mem_append_right _ ht))) keys
  · refine sortManually_place h.nodup h.kind p.perm (p.filter_eq h) ?_ hlen hpw ?_ ?_
    · refine (p.pairwise h).sublist ?_
      rw [List.append_assoc, List.append_assoc]
      exact (List.Sublist.refl _).append
        ((List.sublist_append_right joined low).trans (List.sublist_append_right lead _))
    · intro t ht key hkey
      obtain ⟨f, g, hf, hg, hle⟩ := p.key_le_floor h ht
      refine ⟨f, hf, lt_of_le_of_lt hle ?_⟩
      have := (hlies key hkey).aboveText
      rw [hlo] at hg
      rwa [hg] at this
    · intro u hu key hkey g hg
      obtain ⟨k, hk, hle⟩ := hlow u hu g hg
      exact lt_of_lt_of_le ((hlies key hkey).belowText k hk) hle

theorem exists_changed {keys : List String}
    (hlen : keys.length = (lead ++ dragged Task.id tasks moved ++ joined).length)
    (hsort : sortManually (tasks.map (place (List.zipWith (withKey now)
      (lead ++ dragged Task.id tasks moved ++ joined) keys))) =
      anchored ++ List.zipWith (withKey now) (lead ++ dragged Task.id tasks moved ++ joined) keys ++
        low) :
    ∃ t ∈ tasks, ∃ key, t.sortOrder ≠ some key ∧ withKey now t key ∈ List.zipWith (withKey now)
      (lead ++ dragged Task.id tasks moved ++ joined) keys := by
  by_contra hnone
  push Not at hnone
  have hids := map_id_zipWith now keys hlen
  have hmem := fun {t} ht =>
    p.mem_tasks (t := t) (List.mem_append_left _ (List.mem_append_right _ ht))
  have hchanges := p.changes
  generalize hmid : lead ++ dragged Task.id tasks moved ++ joined = mid at *
  -- Then every task keeps its rank, and the list its order.
  have hrank : ∀ t ∈ tasks, rank (place (List.zipWith (withKey now) mid keys) t) = rank t := by
    intro t ht
    by_cases hin : t.id ∈ (List.zipWith (withKey now) mid keys).map Task.id
    · have hplace := place_mem hin
      obtain ⟨u, hu, key, hkey, heq⟩ := mem_zipWith_withKey hplace
      have hid : u.id = t.id := by
        rw [← @place_id J t (List.zipWith (withKey now) mid keys), heq]
        rfl
      have hut : u = t := List.inj_on_of_nodup_map h.nodup (hmem hu) ht hid
      subst hut
      have hsame : u.sortOrder = some key := by
        by_contra hne
        exact hnone u ht key hne (heq ▸ hplace)
      rw [heq, rank_of_some hsame, rank_of_some (t := withKey now u key) rfl]
      rfl
    · rw [place_of_notMem hin]
  have hself : sortManually (tasks.map (place (List.zipWith (withKey now) mid keys))) =
      tasks.map (place (List.zipWith (withKey now) mid keys)) := by
    refine sortManually_eq_iff.mpr ⟨?_, fun _ => rfl⟩
    rw [List.pairwise_map]
    refine h.pairwise.imp_of_mem fun ha hb hab => ?_
    rwa [hrank _ ha, hrank _ hb]
  refine hchanges ?_
  calc (anchored ++ mid ++ low).map Task.id
      = (anchored ++ List.zipWith (withKey now) mid keys ++ low).map Task.id := by
        rw [List.map_append, List.map_append, List.map_append, List.map_append, hids]
    _ = (tasks.map (place (List.zipWith (withKey now) mid keys))).map Task.id := by
        rw [← hsort, hself]
    _ = tasks.map Task.id := map_place_id

end

end Planned

/-- The log writes a task whose key changes. -/
def Heeds {σ : Type} (w : Writer σ) (fields : Task J → List (Value × Value)) (tx : Tx σ)
    (tasks : List (Task J)) (now : Timestamp) : Prop :=
  ∀ mode tx₁, w.modeFor tx true = .ok (mode, tx₁) → ∀ t ∈ tasks, ∀ key,
    w.writtenAs mode tx₁.rest (updateOp fields (withKey now t key)).inner = .ok none →
      t.sortOrder = some key

theorem moveAnswer_ok {σ : Type} {w : Writer σ} {fields : Task J → List (Value × Value)}
    {tx tx' : Tx σ} {writes : List (Task J)} {done : List Members.Appended} {key : String}
    (hheeds : Heeds w fields tx tasks now) (ht : t ∈ tasks) (hkey : t.sortOrder ≠ some key)
    (hmem : withKey now t key ∈ writes)
    (hlog : logWrites w tx (writes.map (updateOp fields)) = .ok (done, tx')) :
    ∃ answer, moveAnswer writes done = .ok answer := by
  have hne : done ≠ [] := by
    rintro rfl
    unfold logWrites at hlog
    split at hlog
    next =>
      obtain ⟨_, -, heq⟩ := Result.bind_eq_ok_iff.mp hlog
      cases heq
    next =>
      obtain ⟨mode, tx₁, hmode, hall⟩ := Members.Writer.writtenAs_of_appendMembers_nil hlog
      have hany : ((writes.map (updateOp fields)).any fun m =>
          Members.isVersionedWrite m.inner) = true :=
        List.any_eq_true.mpr ⟨_, List.mem_map_of_mem hmem, rfl⟩
      rw [hany] at hmode
      exact hkey (hheeds mode tx₁ hmode t ht key (hall _ (List.mem_map_of_mem hmem)))
  obtain ⟨d, done, rfl⟩ := List.exists_cons_of_ne_nil hne
  obtain ⟨write, writes, rfl⟩ := List.exists_cons_of_ne_nil (List.ne_nil_of_mem hmem)
  exact ⟨_, rfl⟩

/-- **A drag lands where it was dropped.** A drop is no move only if it drags nothing, names no row
that rests, or asks for the list as it is. A move is accepted and changes the keys of the tasks it
names only, and the list in manual order is then the one the drop asks for. -/
theorem planMoveIn_lands (h : Shown cbor db tasks) (moved : List Ref) (drop : Drop)
    (now : Timestamp) :
    (planMoveIn tasks moved drop = none →
      (∀ t ∈ tasks, t.id ∉ moved) ∨
      (∃ row, (drop = .before row ∨ drop = .after row) ∧
        row ∉ (resting Task.id tasks moved).map Task.id) ∨
      (arranged tasks moved drop).map (List.map Task.id) = some (tasks.map Task.id)) ∧
    ∀ move, planMoveIn tasks moved drop = some move →
      ∃ writes list, moveWrites J cbor db move.ids move.after move.before now = .ok writes ∧
        writes.map Task.id = move.ids ∧ (∀ t ∈ tasks, t.id ∉ move.ids → place writes t = t) ∧
        arranged tasks moved drop = some list ∧
        (sortManually (tasks.map (place writes))).map Task.id = list.map Task.id ∧
        ∀ {σ : Type} (w : Writer σ) (fields : Task J → List (Value × Value)) (tx tx' : Tx σ)
          (done : List Members.Appended), Heeds w fields tx tasks now →
          logWrites w tx (writes.map (updateOp fields)) = .ok (done, tx') →
          ∃ answer, moveTasks cbor w fields db tx move.ids move.after move.before now =
            .ok (answer, tx') := by
  constructor
  · intro hnone
    rcases planMoveIn_eq_none hnone with hd | ha | ha
    · exact .inl fun t ht hmoved => by
        have := List.filter_eq_nil_iff.mp hd t ht
        simp [hmoved] at this
    · exact .inr (.inl (arranged_eq_none ha))
    · exact .inr (.inr ha)
  · intro move hmove
    obtain ⟨anchored, lead, joined, low, p⟩ := planMoveIn_eq_some hmove
    obtain ⟨keys, hlen, hwrites, hsort⟩ := p.moveWrites_eq h now
    obtain ⟨t, ht, key, hkey, hmem⟩ := p.exists_changed h hlen hsort
    have hids := map_id_zipWith now keys hlen
    refine ⟨_, _, hwrites, hids.trans p.ids_eq.symm, fun u hu hnot => ?_, p.arranged_eq, ?_,
      fun w fields tx tx' done hheeds hlog => ?_⟩
    · refine place_of_notMem ?_
      rwa [hids, ← p.ids_eq]
    · rw [hsort]
      simp only [List.map_append] at hids ⊢
      rw [hids]
    · obtain ⟨answer, hanswer⟩ := moveAnswer_ok hheeds ht hkey hmem hlog
      refine ⟨answer, Result.bind_eq_ok_iff.mpr ⟨_, hwrites, ?_⟩⟩
      rw [hlog]
      exact Result.bind_eq_ok_iff.mpr ⟨_, hanswer, rfl⟩

end

/-! ### Drags of equal keys and of rows without a key -/

def keyedRow (key : Option String) : TaskRow :=
  { taskRow Cbor.codec (estimatedTask 60) .first with
    sortOrder := key
    schedulingConstraints := none }

/-- A replica that holds four tasks, two of them with one key and two without. -/
def fourTasks : TaskTables :=
  ⟨⟨[(1, keyedRow (some "N")), (2, keyedRow (some "N")), (3, keyedRow none), (4, keyedRow none)],
    by simp⟩, ∅, ∅, ∅, by simp⟩

def keyedTask (id : Id) (key : Option String) : Task Jiff.sample :=
  taskOfRow Cbor.codec fourTasks id (keyedRow key) none []

def fourRows : List (Task Jiff.sample) :=
  [keyedTask 1 (some "N"), keyedTask 2 (some "N"), keyedTask 3 none, keyedTask 4 none]

theorem forall_mem_fourRows {P : Task Jiff.sample → Prop} : (∀ t ∈ fourRows, P t) ↔
    P (keyedTask 1 (some "N")) ∧ P (keyedTask 2 (some "N")) ∧ P (keyedTask 3 none) ∧
      P (keyedTask 4 none) := by
  simp [fourRows]

theorem fourRows_shown : Shown Cbor.codec fourTasks fourRows where
  nodup := by decide
  keys := by
    refine forall_mem_fourRows.mpr ⟨?_, ?_, nofun, nofun⟩ <;>
    · rintro _ ⟨⟩
      decide
  sorted := by
    have hle : fourRows.Pairwise fun a b => (cmpManually a b).isLE := by decide
    exact sortManually_eq_iff.mpr ⟨hle.imp cmpManually_isLE.mp, fun _ => rfl⟩
  kind := forall_mem_fourRows.mpr ⟨rfl, rfl, rfl, rfl⟩
  held := forall_mem_fourRows.mpr ⟨rfl, rfl, rfl, rfl⟩
  live := forall_mem_fourRows.mpr ⟨rfl, rfl, rfl, rfl⟩

/-- The last row dropped below the first, which the second joins; and the first dropped below all
others, where those without a key go with it. -/
theorem planMoveIn_lands_four :
    (∃ writes list,
      moveWrites Jiff.sample Cbor.codec fourTasks [⟨.task, 4⟩, ⟨.task, 2⟩] (some ⟨.task, 1⟩) none
        .unixEpoch = .ok writes ∧
      arranged fourRows [⟨.task, 4⟩] (.after ⟨.task, 1⟩) = some list ∧
      (sortManually (fourRows.map (place writes))).map Task.id = list.map Task.id) ∧
    ∃ writes list,
      moveWrites Jiff.sample Cbor.codec fourTasks [⟨.task, 3⟩, ⟨.task, 4⟩, ⟨.task, 1⟩]
        (some ⟨.task, 2⟩) none .unixEpoch = .ok writes ∧
      arranged fourRows [⟨.task, 1⟩] .bottom = some list ∧
      (sortManually (fourRows.map (place writes))).map Task.id = list.map Task.id := by
  obtain ⟨writes, list, hwrites, -, -, hlist, hsort, -⟩ :=
    (planMoveIn_lands fourRows_shown [⟨.task, 4⟩] (.after ⟨.task, 1⟩) .unixEpoch).2 _ rfl
  obtain ⟨writes', list', hwrites', -, -, hlist', hsort', -⟩ :=
    (planMoveIn_lands fourRows_shown [⟨.task, 1⟩] .bottom .unixEpoch).2 _ rfl
  exact ⟨⟨writes, list, hwrites, hlist, hsort⟩, writes', list', hwrites', hlist', hsort'⟩

end TaskOrder

end Rows

end Sunrise
