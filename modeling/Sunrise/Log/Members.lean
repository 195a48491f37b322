import Sunrise.Keys.Keychain
import Sunrise.Lib.Result
import Sunrise.Log.OpLog

/-!
# The writes of a command

A command describes its writes as the entities it leaves behind. In a vault that requires field ops
each is written as the `Patch` of the fields it changed, and one that changed none writes nothing.
Several writes that are only correct together are logged as one group, whose members carry its id
and its size.

What a command reports is what each of its writes logged, in the order of the writes. The source
fills a list of places, one up to the last write that logged an op, so a write that logged nothing
has its place only if a later one did. A command of which no write changed anything has no place at
all, and its caller takes that for a failure.

## Main definitions

* `Writer.appendMembers`, `Writer.appendAndFold` — several writes, and one.

## Main results

* `Writer.appendMembers_reports_iff` — **every write is reported if the last logged an op.**
-/

namespace Sunrise

namespace Members

/-- How a vault's entity writes reach its log. -/
inductive WriteMode where
  /-- Each as a `Patch` of the fields it changed. -/
  | patch
  | legacy
deriving DecidableEq, Repr

/-- A commit of several ops. -/
structure Group where
  id : Id
  size : ℕ
deriving DecidableEq, Repr

/-- What one write appended. -/
structure Appended where
  /-- The op's id in `ops`. -/
  opId : ℕ
  seq : ℕ
deriving DecidableEq, Repr

/-- Nothing. No logged op is numbered zero. -/
def Appended.nothing : Appended := ⟨0, 0⟩

/-- A write: an op, and the stream it is sealed in. -/
structure Member where
  inner : Inner
  stream : StreamId

/-- A row of `ops`. -/
structure OpRow where
  id : ℕ
  ref : OpRef
  hlc : Hlc
  inner : Inner

/-- What a write that logged the row reports. -/
def OpRow.appended (row : OpRow) : Appended := ⟨row.id, row.ref.seq⟩

/-- A transaction: the rows of `ops` in the order they were inserted, the seqs this device's floors
cover, and the rest of the vault. -/
structure Tx (σ : Type) where
  ops : List OpRow
  floor : StreamId → ℕ
  rest : σ

/-- A `Patch` as a full-state op is rewritten. -/
structure PatchForm where
  create : Bool
  generated : Bool
  parents : Option (List OpRef)
  fields : List (String × FieldOp)

/-- The op a rewritten `Patch` is. -/
def PatchForm.inner (target : EntityRef) (p : PatchForm) : Inner :=
  .entity target (.patch p.create p.generated p.parents none p.fields)

/-- What an append asks of the rest of the engine, over the rest `σ` of the vault's state. -/
structure Writer (σ : Type) where
  device : Device
  /-- The vault's write mode, and how many control ops deciding it emits. -/
  writeMode : σ → Except String (WriteMode × ℕ × σ)
  requiresFieldOps : σ → Bool
  /-- The `Patch` of the fields in which an entity differs from what the replica holds. Nothing if
  it differs in none. -/
  asPatch : σ → EntityRef → OpClass → List (Value × Value) → Except String (Option PatchForm)
  parentsOf : σ → Id → List OpRef
  /-- The live epoch of a stream, and how many control ops sharing a new one emits. -/
  ensureEpoch : σ → StreamId → Except String (ℕ × σ)
  stamp : σ → Hlc × σ
  draw : σ → ℕ × σ
  refuses : Inner → Option String
  fold : σ → Op → Except String σ
  recordLocal : σ → Group → OpRef → Hlc → Except String σ

/-! ### One write -/

def hasOps : EntityKind → Bool
  | .preferences | .savedView => false
  | _ => true

def isVersionedWrite : Inner → Bool
  | .entity target (.patch ..) => hasOps target.kind
  | .entity _ (.legacy ..) => true
  | _ => false

/-- The group an op is a member of. -/
def groupOf : Inner → Option (Id × ℕ)
  | .entity _ (.patch _ _ _ group _) => group.filter fun g => decide (2 ≤ g.2)
  | .entity _ (.legacy _ _ group) => group.filter fun g => decide (2 ≤ g.2)
  | _ => none

/-- Mark an op as a member of a group. Only entity ops have a place for the mark. -/
def mark (group : Group) : Inner → Inner
  | .entity target (.patch create generated parents _ fields) =>
    .entity target (.patch create generated parents (some (group.id, group.size)) fields)
  | .entity target (.legacy cls state _) =>
    .entity target (.legacy cls state (some (group.id, group.size)))
  | inner => inner

/-- The next seq of this device in a stream: past every row it holds and past its floor. -/
def Tx.nextSeq {σ : Type} (tx : Tx σ) (device : Device) (stream : StreamId) : ℕ :=
  let held := (tx.ops.filter fun r => r.ref.stream = stream ∧ r.ref.device = device).map (·.ref.seq)
  max (held.foldl max 0) (tx.floor stream) + 1

namespace Writer

variable {σ : Type} (w : Writer σ)

def insert (tx : Tx σ) (inner : Inner) (stream : StreamId) : OpRow × Tx σ :=
  let seq := tx.nextSeq w.device stream
  let (hlc, rest) := w.stamp tx.rest
  let (id, rest) := w.draw rest
  let row := ⟨id, ⟨stream, w.device, seq⟩, hlc, inner⟩
  (row, { tx with ops := tx.ops ++ [row], rest })

/-- Emit control ops into the vault's own stream. -/
def emitControl (tx : Tx σ) : ℕ → Tx σ
  | 0 => tx
  | n + 1 => emitControl (w.insert tx .control metaStream).2 n

/-- Resolve a stream's epoch, which may mint a key and share it. What comes after takes its seq
after what that emitted. -/
def logSlot (tx : Tx σ) (stream : StreamId) : Except String (Tx σ) := do
  let (emitted, rest) ← w.ensureEpoch tx.rest stream
  .ok (w.emitControl { tx with rest } emitted)

def sealAt (tx : Tx σ) (inner : Inner) (stream : StreamId) : Except String (OpRow × Tx σ) :=
  match w.refuses inner with
  | some why => .error why
  | none =>
    if storeMax < tx.nextSeq w.device stream then .error "the seq does not fit the store"
    else .ok (w.insert tx inner stream)

def foldRow (tx : Tx σ) (row : OpRow) : Except String (Tx σ) :=
  match row.inner with
  | .entity target body => do
    let rest ← w.fold tx.rest ⟨target, row.ref.stamp row.hlc, body⟩
    .ok { tx with rest }
  | _ => .ok tx

/-- The op `inner` is written as. Nothing if it writes nothing. -/
def writtenAs (mode : WriteMode) (s : σ) (inner : Inner) : Except String (Option Inner) :=
  match mode, inner with
  | .legacy, _ => .ok (some inner)
  | .patch, .entity target (.patch create generated none group fields) =>
    let parents := w.parentsOf s target.id
    .ok (some (.entity target (.patch create generated
      (if parents = [] then none else some parents) group fields)))
  | .patch, .entity target (.legacy cls state _) => do
    let patch ← w.asPatch s target cls state
    .ok (patch.map (PatchForm.inner target))
  | .patch, _ => .ok (some inner)

/-- Decide the mode of writes, inside the transaction: `versioned` if field ops cover one of
them. -/
def modeFor (tx : Tx σ) (versioned : Bool) : Except String (WriteMode × Tx σ) :=
  if versioned then do
    let (mode, emitted, rest) ← w.writeMode tx.rest
    .ok (mode, w.emitControl { tx with rest } emitted)
  else .ok (.legacy, tx)

def append (tx : Tx σ) (inner : Inner) (stream : StreamId) : Except String (OpRow × Tx σ) := do
  let tx ← w.logSlot tx stream
  w.sealAt tx inner stream

def appendAndFold (tx : Tx σ) (inner : Inner) (stream : StreamId) :
    Except String (Appended × Tx σ) := do
  let (mode, tx) ←
    if isVersionedWrite inner then w.modeFor tx true
    else
      match inner with
      -- a `Patch` of an entity with no full-state op requires nothing
      | .entity _ (.patch ..) =>
        .ok (if w.requiresFieldOps tx.rest then .patch else .legacy, tx)
      | _ => .ok (.legacy, tx)
  match ← w.writtenAs mode tx.rest inner with
  | none => .ok (.nothing, tx)
  | some inner =>
    let (row, tx) ← w.append tx inner stream
    let tx ← w.foldRow tx row
    .ok (row.appended, tx)

/-! ### Several writes -/

/-- Each write as it is written. Every one is rewritten before any is sealed. -/
def rewrite (mode : WriteMode) (s : σ) (members : List Member) :
    Except String (List (Option Member)) :=
  members.mapM fun m => do
    let inner ← w.writtenAs mode s m.inner
    .ok (inner.map fun inner => ⟨inner, m.stream⟩)

/-- Append and fold each write in turn, filling in its place. -/
def appendEach (tx : Tx σ) (out : List Appended) :
    List (ℕ × Member) → Except String (List Appended × Tx σ)
  | [] => .ok (out, tx)
  | (i, m) :: written => do
    let (row, tx) ← w.append tx m.inner m.stream
    let tx ← w.foldRow tx row
    appendEach tx (out.set i row.appended) written

def sealGroup (group : Group) (tx : Tx σ) :
    List (ℕ × Member) → Except String (List (ℕ × OpRow) × Tx σ)
  | [] => .ok ([], tx)
  | (i, m) :: written => do
    let (row, tx) ← w.append tx (mark group m.inner) m.stream
    let rest ← w.recordLocal tx.rest group row.ref row.hlc
    let (logged, tx) ← sealGroup group { tx with rest } written
    .ok ((i, row) :: logged, tx)

/-- Fold the members of a group, filling in their places. -/
def foldGroup (tx : Tx σ) (out : List Appended) :
    List (ℕ × OpRow) → Except String (List Appended × Tx σ)
  | [] => .ok (out, tx)
  | (i, row) :: logged => do
    let tx ← w.foldRow tx row
    foldGroup tx (out.set i row.appended) logged

end Writer

/-- The writes that log an op, each with its place. -/
def placed (i : ℕ) : List (Option Member) → List (ℕ × Member)
  | [] => []
  | none :: rest => placed (i + 1) rest
  | some m :: rest => (i, m) :: placed (i + 1) rest

/-- A place for each write up to the last that logs an op. -/
def places (written : List (ℕ × Member)) : List Appended :=
  List.replicate ((written.getLast?.map fun p => p.1 + 1).getD 0) .nothing

/-- Several writes are a group, unless older devices are to see each alone. -/
def isGrouped (mode : WriteMode) (legacyGroup : Bool) (written : List (ℕ × Member)) : Bool :=
  decide (2 ≤ written.length) && (decide (mode = .patch) || legacyGroup)

namespace Writer

variable {σ : Type} (w : Writer σ)

def appendWritten (mode : WriteMode) (legacyGroup : Bool) (tx : Tx σ)
    (written : List (ℕ × Member)) : Except String (List Appended × Tx σ) :=
  let out := places written
  if isGrouped mode legacyGroup written then do
    let (id, rest) := w.draw tx.rest
    let (logged, tx) ← w.sealGroup ⟨id, written.length⟩ { tx with rest } written
    w.foldGroup tx out logged
  else w.appendEach tx out written

/-- Append and fold the writes of a command. -/
def appendMembers (tx : Tx σ) (members : List Member) (legacyGroup : Bool) :
    Except String (List Appended × Tx σ) := do
  let (mode, tx) ← w.modeFor tx (members.any fun m => isVersionedWrite m.inner)
  let rewritten ← w.rewrite mode tx.rest members
  w.appendWritten mode legacyGroup tx (placed 0 rewritten)

end Writer

/-- What a command answers from what its writes appended: what the first did. -/
def bulkAnswer (done : List Appended) : Except String Appended :=
  match done.head? with
  | some first => .ok first
  | none => .error "a bulk command wrote nothing"

/-! ### What a run of appends adds -/

/-- The rows `rows` were added to the log in order, with control ops among them. -/
def Adds {σ : Type} (tx tx' : Tx σ) (rows : List OpRow) : Prop :=
  ∃ new, tx'.ops = tx.ops ++ new ∧ rows.Sublist new ∧ ∀ r ∈ new, r ∈ rows ∨ r.inner = .control

section

variable {σ : Type} {tx tx' tx'' : Tx σ} {rows rows' : List OpRow}

theorem Adds.of_ops_eq (h : tx'.ops = tx.ops) : Adds tx tx' [] :=
  ⟨[], by rw [h, List.append_nil], List.Sublist.refl _, nofun⟩

theorem Adds.trans (h : Adds tx tx' rows) (h' : Adds tx' tx'' rows') :
    Adds tx tx'' (rows ++ rows') := by
  obtain ⟨new, hops, hsub, hnew⟩ := h
  obtain ⟨new', hops', hsub', hnew'⟩ := h'
  refine ⟨new ++ new', by rw [hops', hops, List.append_assoc], hsub.append hsub', fun r hr => ?_⟩
  rw [List.mem_append]
  rcases List.mem_append.mp hr with hr | hr
  · exact (hnew r hr).imp_left .inl
  · exact (hnew' r hr).imp_left .inr

end

/-- The op of a write in the group it is a member of, if any. -/
def marked (group : Option Group) (inner : Inner) : Inner :=
  (group.map fun group => mark group inner).getD inner

namespace Writer

variable {σ : Type} {w : Writer σ} {tx tx' : Tx σ} {inner : Inner} {stream : StreamId}

structure Logs (w : Writer σ) (group : Option Group) (m : Member) (row : OpRow) : Prop where
  inner : row.inner = marked group m.inner
  stream : row.ref.stream = m.stream
  device : row.ref.device = w.device
  seq : row.ref.seq ≠ 0

theorem adds_emitControl (w : Writer σ) (tx : Tx σ) (n : ℕ) : Adds tx (w.emitControl tx n) [] := by
  induction n generalizing tx with
  | zero => exact .of_ops_eq rfl
  | succ n ih =>
    have hone : Adds tx (w.insert tx .control metaStream).2 [] := by
      refine ⟨[(w.insert tx .control metaStream).1], rfl, List.nil_sublist _, fun r hr => ?_⟩
      rw [List.mem_singleton.mp hr]
      exact .inr rfl
    exact hone.trans (ih _)

theorem adds_logSlot (h : w.logSlot tx stream = .ok tx') : Adds tx tx' [] := by
  obtain ⟨⟨emitted, rest⟩, -, h⟩ := Result.bind_eq_ok_iff.mp h
  obtain rfl := Except.ok.inj h
  have hrest : Adds tx { tx with rest } [] := .of_ops_eq rfl
  exact hrest.trans (adds_emitControl w _ _)

theorem append_eq_ok {row : OpRow} (h : w.append tx inner stream = .ok (row, tx')) :
    Adds tx tx' [row] ∧ Logs w none ⟨inner, stream⟩ row := by
  obtain ⟨tx₁, hslot, h⟩ := Result.bind_eq_ok_iff.mp h
  unfold sealAt at h
  split at h
  · cases h
  · split at h
    · cases h
    · obtain ⟨rfl, rfl⟩ := Prod.mk.inj (Except.ok.inj h)
      refine ⟨(adds_logSlot hslot).trans ⟨[_], rfl, List.Sublist.refl _, fun r hr => .inl hr⟩,
        rfl, rfl, rfl, Nat.succ_ne_zero _⟩

theorem adds_foldRow {row : OpRow} (h : w.foldRow tx row = .ok tx') : Adds tx tx' [] := by
  unfold foldRow at h
  split at h
  · obtain ⟨rest, -, h⟩ := Result.bind_eq_ok_iff.mp h
    obtain rfl := Except.ok.inj h
    exact .of_ops_eq rfl
  · obtain rfl := Except.ok.inj h
    exact .of_ops_eq rfl

/-- Fill in the places of logged writes. -/
def fill (out : List Appended) (logged : List (ℕ × OpRow)) : List Appended :=
  logged.foldl (fun out l => out.set l.1 l.2.appended) out

def LogsAll (w : Writer σ) (group : Option Group) (written : List (ℕ × Member))
    (logged : List (ℕ × OpRow)) : Prop :=
  List.Forall₂ (fun p l => l.1 = p.1 ∧ Logs w group p.2 l.2) written logged

theorem appendEach_eq_ok {out out' : List Appended} {written : List (ℕ × Member)}
    (h : w.appendEach tx out written = .ok (out', tx')) :
    ∃ logged, LogsAll w none written logged ∧ Adds tx tx' (logged.map Prod.snd) ∧
      out' = fill out logged := by
  induction written generalizing tx out with
  | nil =>
    obtain ⟨rfl, rfl⟩ := Prod.mk.inj (Except.ok.inj h)
    exact ⟨[], .nil, .of_ops_eq rfl, rfl⟩
  | cons p written ih =>
    obtain ⟨i, m⟩ := p
    obtain ⟨⟨row, tx₁⟩, happend, h⟩ := Result.bind_eq_ok_iff.mp h
    obtain ⟨tx₂, hfold, h⟩ := Result.bind_eq_ok_iff.mp h
    obtain ⟨logged, hlogged, hadds, rfl⟩ := ih h
    obtain ⟨hadd, hlog⟩ := append_eq_ok happend
    exact ⟨(i, row) :: logged, .cons ⟨rfl, hlog⟩ hlogged,
      (hadd.trans (adds_foldRow hfold)).trans hadds, rfl⟩

theorem sealGroup_eq_ok {group : Group} {written : List (ℕ × Member)}
    {logged : List (ℕ × OpRow)} (h : w.sealGroup group tx written = .ok (logged, tx')) :
    LogsAll w (some group) written logged ∧ Adds tx tx' (logged.map Prod.snd) := by
  induction written generalizing tx logged with
  | nil =>
    obtain ⟨rfl, rfl⟩ := Prod.mk.inj (Except.ok.inj h)
    exact ⟨.nil, .of_ops_eq rfl⟩
  | cons p written ih =>
    obtain ⟨i, m⟩ := p
    obtain ⟨⟨row, tx₁⟩, happend, h⟩ := Result.bind_eq_ok_iff.mp h
    obtain ⟨rest, -, h⟩ := Result.bind_eq_ok_iff.mp h
    obtain ⟨⟨logged', tx₂⟩, hseal, h⟩ := Result.bind_eq_ok_iff.mp h
    obtain ⟨rfl, rfl⟩ := Prod.mk.inj (Except.ok.inj h)
    obtain ⟨hlogged, hadds⟩ := ih hseal
    obtain ⟨hadd, hlog⟩ := append_eq_ok happend
    have hrest : Adds tx₁ { tx₁ with rest } [] := .of_ops_eq rfl
    exact ⟨.cons ⟨rfl, hlog.inner, hlog.stream, hlog.device, hlog.seq⟩ hlogged,
      (hadd.trans hrest).trans hadds⟩

theorem foldGroup_eq_ok {out out' : List Appended} {logged : List (ℕ × OpRow)}
    (h : w.foldGroup tx out logged = .ok (out', tx')) :
    Adds tx tx' [] ∧ out' = fill out logged := by
  induction logged generalizing tx out with
  | nil =>
    obtain ⟨rfl, rfl⟩ := Prod.mk.inj (Except.ok.inj h)
    exact ⟨.of_ops_eq rfl, rfl⟩
  | cons l logged ih =>
    obtain ⟨i, row⟩ := l
    obtain ⟨tx₁, hfold, h⟩ := Result.bind_eq_ok_iff.mp h
    obtain ⟨hadds, rfl⟩ := ih h
    exact ⟨(adds_foldRow hfold).trans hadds, rfl⟩

theorem appendWritten_eq_ok {mode : WriteMode} {legacyGroup : Bool} {out : List Appended}
    {written : List (ℕ × Member)}
    (h : w.appendWritten mode legacyGroup tx written = .ok (out, tx')) :
    ∃ group logged, (∀ g, group = some g → g.size = written.length) ∧
      (group.isSome = isGrouped mode legacyGroup written) ∧ LogsAll w group written logged ∧
      Adds tx tx' (logged.map Prod.snd) ∧ out = fill (places written) logged := by
  unfold appendWritten at h
  dsimp only at h
  split at h
  next hgroup =>
    obtain ⟨⟨logged, tx₁⟩, hseal, h⟩ := Result.bind_eq_ok_iff.mp h
    obtain ⟨hlogged, hadds⟩ := sealGroup_eq_ok hseal
    obtain ⟨hfolds, rfl⟩ := foldGroup_eq_ok h
    have hrest : Adds tx { tx with rest := (w.draw tx.rest).2 } [] := .of_ops_eq rfl
    refine ⟨some ⟨(w.draw tx.rest).1, written.length⟩, logged, ?_, hgroup.symm, hlogged, ?_, rfl⟩
    · rintro g ⟨⟩
      rfl
    · simpa using (hrest.trans hadds).trans hfolds
  next hgroup =>
    obtain ⟨logged, hlogged, hadds, rfl⟩ := appendEach_eq_ok h
    exact ⟨none, logged, nofun, by simpa using hgroup, hlogged, hadds, rfl⟩

end Writer

/-! ### The places -/

/-- What each write reports, `rows` those that the writes which log an op logged. -/
def report : List (Option Member) → List OpRow → List Appended
  | [], _ => []
  | none :: rest, rows => .nothing :: report rest rows
  | some _ :: rest, row :: rows => row.appended :: report rest rows
  | some _ :: rest, [] => .nothing :: report rest []

/-- How many writes there are up to the last that logs an op. -/
def lastWritten : List (Option Member) → ℕ
  | [] => 0
  | none :: rest => if lastWritten rest = 0 then 0 else lastWritten rest + 1
  | some _ :: rest => lastWritten rest + 1

@[simp] theorem length_report (rewritten : List (Option Member)) (rows : List OpRow) :
    (report rewritten rows).length = rewritten.length := by
  induction rewritten generalizing rows with
  | nil => rfl
  | cons m rewritten ih =>
    cases m with
    | none => exact congrArg (· + 1) (ih rows)
    | some m =>
      cases rows with
      | nil => exact congrArg (· + 1) (ih [])
      | cons row rows => exact congrArg (· + 1) (ih rows)

theorem lastWritten_le (rewritten : List (Option Member)) :
    lastWritten rewritten ≤ rewritten.length := by
  induction rewritten with
  | nil => exact le_refl _
  | cons m rewritten ih =>
    cases m with
    | none =>
      rw [lastWritten, List.length_cons]
      split <;> omega
    | some m =>
      rw [lastWritten, List.length_cons]
      omega

theorem lastWritten_eq_zero_iff {rewritten : List (Option Member)} :
    lastWritten rewritten = 0 ↔ ∀ m ∈ rewritten, m = none := by
  induction rewritten with
  | nil => simp [lastWritten]
  | cons m rewritten ih =>
    cases m with
    | none => simp [lastWritten, ih]
    | some m => simp [lastWritten]

theorem lastWritten_eq_length_iff {rewritten : List (Option Member)} :
    lastWritten rewritten = rewritten.length ↔ rewritten.getLast? ≠ some none := by
  induction rewritten with
  | nil => simp [lastWritten]
  | cons m rewritten ih =>
    have hle := lastWritten_le rewritten
    cases m with
    | none =>
      rw [lastWritten, List.length_cons]
      cases rewritten with
      | nil => simp [lastWritten]
      | cons m' rewritten =>
        rw [List.getLast?_cons_cons, ← ih]
        rw [List.length_cons] at hle ⊢
        split <;> omega
    | some m =>
      rw [lastWritten, List.length_cons]
      cases rewritten with
      | nil => simp [lastWritten]
      | cons m' rewritten =>
        rw [List.getLast?_cons_cons, ← ih]
        omega

theorem placed_eq_nil_iff {i : ℕ} {rewritten : List (Option Member)} :
    placed i rewritten = [] ↔ lastWritten rewritten = 0 := by
  induction rewritten generalizing i with
  | nil => simp [placed, lastWritten]
  | cons m rewritten ih =>
    cases m with
    | none =>
      rw [placed, lastWritten, ih]
      split <;> simp_all
    | some m => simp [placed, lastWritten]

theorem getLast?_placed (i : ℕ) (rewritten : List (Option Member)) :
    ((placed i rewritten).getLast?.map fun p => p.1 + 1) =
      if lastWritten rewritten = 0 then none else some (i + lastWritten rewritten) := by
  induction rewritten generalizing i with
  | nil => rfl
  | cons m rewritten ih =>
    cases m with
    | none =>
      rw [placed, lastWritten, ih]
      by_cases hzero : lastWritten rewritten = 0
      · rw [if_pos hzero, if_pos hzero, if_pos rfl]
      · rw [if_neg hzero, if_neg hzero, if_neg (Nat.succ_ne_zero _), Nat.add_right_comm,
          Nat.add_assoc]
    | some m =>
      rw [placed, lastWritten, List.getLast?_cons, if_neg (Nat.succ_ne_zero _)]
      have hrest := ih (i + 1)
      cases hlast : (placed (i + 1) rewritten).getLast? with
      | none =>
        rw [hlast] at hrest
        split at hrest
        next hzero => simp [hzero]
        next => cases hrest
      | some p =>
        rw [hlast] at hrest
        split at hrest
        next => cases hrest
        next =>
          have hp : p.1 + 1 = i + 1 + lastWritten rewritten := Option.some.inj hrest
          simp only [Option.getD_some, Option.map_some, Option.some.injEq]
          omega

theorem places_placed (rewritten : List (Option Member)) :
    places (placed 0 rewritten) = List.replicate (lastWritten rewritten) .nothing := by
  unfold places
  rw [getLast?_placed]
  split
  next hzero => simp [hzero]
  next => simp

theorem fill_placed {pre : List Appended} {rewritten : List (Option Member)}
    {logged : List (ℕ × OpRow)}
    (h : List.Forall₂ (fun p l => l.1 = p.1) (placed pre.length rewritten) logged) :
    Writer.fill (pre ++ List.replicate (lastWritten rewritten) .nothing) logged =
      pre ++ (report rewritten (logged.map Prod.snd)).take (lastWritten rewritten) := by
  induction rewritten generalizing pre logged with
  | nil =>
    obtain rfl := List.forall₂_nil_left_iff.mp h
    simp [Writer.fill, lastWritten]
  | cons m rewritten ih =>
    cases m with
    | none =>
      rw [placed] at h
      rw [lastWritten, report]
      split
      next hzero =>
        rw [placed_eq_nil_iff.mpr hzero] at h
        obtain rfl := List.forall₂_nil_left_iff.mp h
        simp [Writer.fill]
      next =>
        have hlen : (pre ++ [Appended.nothing]).length = pre.length + 1 := by simp
        have hih := @ih (pre ++ [.nothing]) logged (by rw [hlen]; exact h)
        rw [List.replicate_succ, List.take_succ_cons]
        simpa using hih
    | some m =>
      rw [placed] at h
      obtain ⟨⟨i, row⟩, logged, rfl, hrest, rfl⟩ := List.forall₂_cons_left_iff.mp h
      have hlen : (pre ++ [row.appended]).length = pre.length + 1 := by simp
      have hih := @ih (pre ++ [row.appended]) logged (by rw [hlen]; exact hrest)
      -- the place of the write comes right after those before it
      have hset : (pre ++ List.replicate (lastWritten (some m :: rewritten)) Appended.nothing).set
          pre.length row.appended =
          pre ++ [row.appended] ++ List.replicate (lastWritten rewritten) .nothing := by
        rw [lastWritten, List.replicate_succ, List.set_append_right _ _ (le_refl _), Nat.sub_self]
        simp
      unfold Writer.fill at hih ⊢
      rw [List.foldl_cons, hset, hih, List.map_cons, report, lastWritten, List.take_succ_cons]
      simp

/-! ### The report -/

/-- An op with a place for the mark of a group. -/
def Markable (inner : Inner) : Prop := ∃ target body, inner = .entity target body

/-- **What a command's writes should come to.** The rows of the writes that log an op are added to
the log in the order of the writes, with the control ops those bring among them, and are the members
of one group where there are several in a grouped write. What is returned has an entry for each
write: nothing for one that logs no op, and else the id and the seq of its row. If no write logs an
op, the command still has an answer. -/
structure Reported {σ : Type} (w : Writer σ) (tx tx' : Tx σ) (grouped : Bool)
    (rewritten : List (Option Member)) (out : List Appended) : Prop where
  exists_rows : ∃ (group : Option Group) (rows : List OpRow),
    Adds tx tx' rows ∧ List.Forall₂ (w.Logs group) rewritten.reduceOption rows ∧
    (group.isSome = grouped) ∧
    (∀ g, group = some g → ∀ row ∈ rows, groupOf row.inner = some (g.id, rows.length)) ∧
    out = report rewritten rows
  answer : rewritten ≠ [] → (∀ m ∈ rewritten, m = none) → bulkAnswer out = .ok .nothing

namespace Writer

variable {σ : Type} {w : Writer σ} {tx tx₁ tx' : Tx σ} {mode : WriteMode} {legacyGroup : Bool}
  {members : List Member} {rewritten : List (Option Member)} {out : List Appended}

theorem placed_snd (i : ℕ) (rewritten : List (Option Member)) :
    (placed i rewritten).map Prod.snd = rewritten.reduceOption := by
  induction rewritten generalizing i with
  | nil => rfl
  | cons m rewritten ih =>
    cases m with
    | none => exact ih _
    | some m => exact congrArg (m :: ·) (ih _)

theorem markable_of_groupOf {group : Group} {inner : Inner} {g : Id × ℕ}
    (h : groupOf (mark group inner) = some g) : Markable inner := by
  cases inner with
  | entity target body => exact ⟨target, body, rfl⟩
  | _ => cases h

theorem groupOf_mark {group : Group} {inner : Inner} (hsize : 2 ≤ group.size)
    (h : Markable inner) : groupOf (mark group inner) = some (group.id, group.size) := by
  obtain ⟨target, body, rfl⟩ := h
  cases body <;> simp [mark, groupOf, Option.filter, hsize]

theorem getLast?_rewrite (h : w.rewrite mode tx₁.rest members = .ok rewritten) :
    rewritten.getLast? ≠ some none ↔
      ∀ m, members.getLast? = some m → w.writtenAs mode tx₁.rest m.inner ≠ .ok none := by
  have hall := Result.mapM_eq_ok_iff.mp h
  clear h
  induction hall with
  | nil => simp
  | @cons m r members rewritten hm hall ih =>
    cases hall with
    | nil =>
      obtain ⟨inner, hinner, hr⟩ := Result.bind_eq_ok_iff.mp hm
      cases hr
      cases inner <;> simp [hinner]
    | cons hm' hall' =>
      rw [List.getLast?_cons_cons, List.getLast?_cons_cons]
      exact ih

theorem appendMembers_eq_ok
    (hmode : w.modeFor tx (members.any fun m => isVersionedWrite m.inner) = .ok (mode, tx₁))
    (hrewrite : w.rewrite mode tx₁.rest members = .ok rewritten)
    (h : w.appendMembers tx members legacyGroup = .ok (out, tx')) :
    ∃ group rows, (∀ g : Group, group = some g → g.size = rows.length) ∧
      (group.isSome = isGrouped mode legacyGroup (placed 0 rewritten)) ∧ Adds tx tx' rows ∧
      List.Forall₂ (w.Logs group) rewritten.reduceOption rows ∧
      out = (report rewritten rows).take (lastWritten rewritten) := by
  unfold appendMembers at h
  rw [hmode] at h
  obtain ⟨_, heq, h⟩ := Result.bind_eq_ok_iff.mp h
  cases heq
  obtain ⟨_, heq, h⟩ := Result.bind_eq_ok_iff.mp h
  rw [hrewrite] at heq
  cases heq
  obtain ⟨group, logged, hsize, hgroup, hlogged, hadds, rfl⟩ := appendWritten_eq_ok h
  have hmodeAdds : Adds tx tx₁ [] := by
    unfold modeFor at hmode
    split at hmode
    · obtain ⟨⟨mode', emitted, rest⟩, -, hmode⟩ := Result.bind_eq_ok_iff.mp hmode
      cases hmode
      have hrest : Adds tx { tx with rest } [] := .of_ops_eq rfl
      exact hrest.trans (adds_emitControl w _ _)
    · cases hmode
      exact .of_ops_eq rfl
  have hlen : (placed 0 rewritten).length = (logged.map Prod.snd).length := by
    rw [List.length_map]
    exact hlogged.length_eq
  refine ⟨group, logged.map Prod.snd, fun g hg => (hsize g hg).trans hlen, hgroup,
    hmodeAdds.trans hadds, ?_, ?_⟩
  · rw [← placed_snd 0, List.forall₂_map_left_iff, List.forall₂_map_right_iff]
    exact hlogged.imp fun _ _ hp => hp.2
  · rw [places_placed]
    exact @fill_placed [] rewritten logged (hlogged.imp fun _ _ hp => hp.1)

theorem writtenAs_of_appendMembers_nil
    (h : w.appendMembers tx members legacyGroup = .ok ([], tx')) :
    ∃ mode tx₁, w.modeFor tx (members.any fun m => isVersionedWrite m.inner) = .ok (mode, tx₁) ∧
      ∀ m ∈ members, w.writtenAs mode tx₁.rest m.inner = .ok none := by
  obtain ⟨⟨mode, tx₁⟩, hmode, h'⟩ := Result.bind_eq_ok_iff.mp h
  obtain ⟨rewritten, hrewrite, -⟩ := Result.bind_eq_ok_iff.mp h'
  obtain ⟨-, rows, -, -, -, -, hout⟩ := appendMembers_eq_ok hmode hrewrite h
  have hnone : ∀ r ∈ rewritten, r = none := by
    rcases List.take_eq_nil_iff.mp hout.symm with h0 | h0
    · exact lastWritten_eq_zero_iff.mp h0
    · have hlen := length_report rewritten rows
      rw [h0, List.length_nil] at hlen
      rw [List.eq_nil_of_length_eq_zero hlen.symm]
      exact fun r hr => absurd hr List.not_mem_nil
  refine ⟨mode, tx₁, hmode, fun m hm => ?_⟩
  obtain ⟨r, hr, hmr⟩ := Result.exists_of_mem_left (Result.mapM_eq_ok_iff.mp hrewrite) hm
  obtain ⟨inner, hinner, hmap⟩ := Result.bind_eq_ok_iff.mp hmr
  cases hmap
  rw [hinner]
  cases inner with
  | none => rfl
  | some inner => exact absurd (hnone _ hr) (by simp)

/-- **A command's writes are reported if the last logs an op.** It is then that every write has a
place. In a group, every op that is logged must also have a place for the mark. -/
theorem appendMembers_reports_iff
    (hmode : w.modeFor tx (members.any fun m => isVersionedWrite m.inner) = .ok (mode, tx₁))
    (hrewrite : w.rewrite mode tx₁.rest members = .ok rewritten)
    (h : w.appendMembers tx members legacyGroup = .ok (out, tx')) :
    Reported w tx tx' (isGrouped mode legacyGroup (placed 0 rewritten)) rewritten out ↔
      (∀ m, members.getLast? = some m → w.writtenAs mode tx₁.rest m.inner ≠ .ok none) ∧
      (isGrouped mode legacyGroup (placed 0 rewritten) = true →
        ∀ m ∈ rewritten.reduceOption, Markable m.inner) := by
  rw [← getLast?_rewrite hrewrite]
  obtain ⟨group, rows, hsize, hgroup, hadds, hlogs, hout⟩ := appendMembers_eq_ok hmode hrewrite h
  constructor
  · rintro ⟨⟨group', rows', -, hlogs', hgroup', hmark, hreport⟩, -⟩
    refine ⟨lastWritten_eq_length_iff.mp ?_, fun hgrouped m hm => ?_⟩
    · -- an entry for each write is a place for each
      have hlen := congrArg List.length (hout.symm.trans hreport)
      rw [List.length_take, length_report, length_report] at hlen
      have hle := lastWritten_le rewritten
      omega
    · obtain ⟨g, rfl⟩ := Option.isSome_iff_exists.mp (hgroup'.trans hgrouped)
      obtain ⟨row, hrow, hlog⟩ := Result.exists_of_mem_left hlogs' hm
      have hmarked : row.inner = mark g m.inner := hlog.inner
      exact markable_of_groupOf (hmarked ▸ hmark g rfl row hrow)
  · rintro ⟨hlast, hmarkable⟩
    have hlen := lastWritten_eq_length_iff.mpr hlast
    refine ⟨⟨group, rows, hadds, hlogs, hgroup, ?_, ?_⟩, fun hne hnone => ?_⟩
    · rintro g rfl row hrow
      have hgrouped : isGrouped mode legacyGroup (placed 0 rewritten) = true := hgroup.symm
      obtain ⟨m, hm, hlog⟩ := Result.exists_of_mem_right hlogs hrow
      have htwo : 2 ≤ g.size := by
        have hcount : (placed 0 rewritten).length = rows.length := by
          rw [← hlogs.length_eq, ← placed_snd 0, List.length_map]
        rw [hsize g rfl, ← hcount]
        exact of_decide_eq_true (Bool.and_eq_true_iff.mp hgrouped).1
      have hmarked : row.inner = mark g m.inner := hlog.inner
      rw [hmarked, groupOf_mark htwo (hmarkable hgrouped m hm), hsize g rfl]
    · rw [hout, hlen, List.take_of_length_le (length_report _ _).le]
    · obtain ⟨m, hm⟩ := Option.ne_none_iff_exists'.mp (mt List.getLast?_eq_none_iff.mp hne)
      exact absurd (hm.trans (congrArg some (hnone m (List.mem_of_getLast? hm)))) hlast

/-- A vault of field ops with one task, whose title is `milk`. -/
private def milk : Writer Unit where
  device := 1
  writeMode _ := .ok (.patch, 0, ())
  requiresFieldOps _ := true
  asPatch _ _ _ state := .ok <|
    match getEntry state "title" with
    | some (.text "milk") => none
    | some title => some ⟨false, false, none, [("title", .set title)]⟩
    | none => none
  parentsOf _ _ := []
  ensureEpoch _ _ := .ok (0, ())
  stamp _ := (⟨1, 0⟩, ())
  draw _ := (7, ())
  refuses _ := none
  fold _ _ := .ok ()
  recordLocal _ _ _ _ := .ok ()

/-- A write of the task with a title. -/
private def titled (title : String) : Member :=
  ⟨.entity ⟨.task, 5⟩ (.legacy .update [(.text "title", .text title)] none), 2⟩

/-- Writes that change nothing have no place, and a command of them fails. -/
theorem not_appendMembers_reports : ¬∀ (w : Writer Unit) (tx tx₁ tx' : Tx Unit) (mode : WriteMode)
    (legacyGroup : Bool) (members : List Member) (rewritten : List (Option Member))
    (out : List Appended),
    w.modeFor tx (members.any fun m => isVersionedWrite m.inner) = .ok (mode, tx₁) →
    w.rewrite mode tx₁.rest members = .ok rewritten →
    w.appendMembers tx members legacyGroup = .ok (out, tx') →
    Reported w tx tx' (isGrouped mode legacyGroup (placed 0 rewritten)) rewritten out := by
  intro h
  have hreported := h milk ⟨[], fun _ => 0, ()⟩ ⟨[], fun _ => 0, ()⟩ ⟨[], fun _ => 0, ()⟩ .patch
    true [titled "milk", titled "milk"] [none, none] [] rfl rfl rfl
  have hanswer := hreported.answer (by simp) (by simp)
  cases hanswer

theorem appendMembers_reports_iff_milk : ∃ out tx',
    milk.appendMembers ⟨[], fun _ => 0, ()⟩ [titled "milk", titled "bread"] true = .ok (out, tx') ∧
    Reported milk ⟨[], fun _ => 0, ()⟩ tx' false
      [none, some ⟨.entity ⟨.task, 5⟩ (.patch false false none none
        [("title", .set (.text "bread"))]), 2⟩] out := by
  refine ⟨_, _, rfl, (@appendMembers_reports_iff Unit milk ⟨[], fun _ => 0, ()⟩
    ⟨[], fun _ => 0, ()⟩ _ .patch true [titled "milk", titled "bread"]
    [none, some ⟨.entity ⟨.task, 5⟩ (.patch false false none none
      [("title", .set (.text "bread"))]), 2⟩] _ rfl rfl rfl).mpr ⟨?_, nofun⟩⟩
  rintro m ⟨⟩
  nofun

end Writer

end Members

end Sunrise
