import Mathlib.Algebra.BigOperators.Ring.Finset
import Sunrise.Rows.BlockMerge

/-!
# Trends by the week

The log of tasks is folded into weekly counts, of the whole vault and of each stream. A completion
is counted once, when a task goes over to done, and where it was counted is kept with the task, so
that reopening the task takes it back there.

* `foldTrends` — the counts, or nothing where one overflows.
* `counts_iff` — **every finished task is counted once, exactly if no week's defers overflow.**
-/

namespace Sunrise.Trends

open Rows

variable {J : Jiff}

structure WeekGrid (J : Jiff) where
  starts : List ℕ
  endMs : ℕ
  zone : J.Zone
  ascending : starts.Pairwise (· < ·)

/-- The week a time falls in. -/
def WeekGrid.indexOf (grid : WeekGrid J) (atMs : ℕ) : Option ℕ :=
  if grid.endMs ≤ atMs then none
  else
    match (grid.starts.takeWhile fun s => decide (s ≤ atMs)).length with
    | 0 => none
    | n + 1 => some n

/-- What a week counts. -/
inductive Count where
  | completed | deferred | created
deriving DecidableEq

structure WeekBucket where
  weekStartMs : ℕ
  completed : ℤ
  deferred : ℤ
  created : ℤ
deriving DecidableEq

namespace WeekBucket

def empty (weekStartMs : ℕ) : WeekBucket := ⟨weekStartMs, 0, 0, 0⟩

def get (b : WeekBucket) : Count → ℤ
  | .completed => b.completed
  | .deferred => b.deferred
  | .created => b.created

def add (b : WeekBucket) (n : ℤ) : Count → WeekBucket
  | .completed => { b with completed := b.completed + n }
  | .deferred => { b with deferred := b.deferred + n }
  | .created => { b with created := b.created + n }

/-- No count has overflowed an `i64`. -/
def Fits (b : WeekBucket) : Prop := ∀ c, -2 ^ 63 ≤ b.get c ∧ b.get c < 2 ^ 63

end WeekBucket

/-- The lines of the vault and of each stream, a bucket for each week. -/
structure Lines where
  overall : List WeekBucket
  perStream : Table Ref (List WeekBucket)

def WeekGrid.line (grid : WeekGrid J) : List WeekBucket := grid.starts.map .empty

/-- Add to a week of the whole vault and of a stream, whose line is made on first use. -/
def bump (grid : WeekGrid J) (l : Lines) (stream : Ref) (idx : ℕ) (c : Count) (n : ℤ) : Lines where
  overall := l.overall.modify idx (·.add n c)
  perStream := l.perStream.upsert stream
    (((l.perStream.find stream).getD grid.line).modify idx (·.add n c))

/-- An addition to the week of a time. -/
structure Bump where
  atMs : ℕ
  stream : Ref
  count : Count
  n : ℤ

def Bump.apply (grid : WeekGrid J) (l : Lines) (b : Bump) : Lines :=
  match grid.indexOf b.atMs with
  | some idx => bump grid l b.stream idx b.count b.n
  | none => l

/-- What is remembered of a task between two records of it. -/
structure TaskTrace where
  state : Lossy KnownTaskState
  deferredCount : ℤ
  /-- When and in which stream its completion was counted. -/
  counted : Option (ℕ × Ref)

inductive OpPayload (J : Jiff) where
  | taskCreated (task : Task J)
  | taskUpdated (task : Task J)
  /-- What the trends do not read. -/
  | other

structure OpRecord (J : Jiff) where
  atMs : ℕ
  payload : OpPayload J

/-- A record of a task. -/
structure TaskRecord (J : Jiff) where
  atMs : ℕ
  task : Task J
  created : Bool

def OpRecord.taskRecord (op : OpRecord J) : Option (TaskRecord J) :=
  match op.payload with
  | .taskCreated t => some ⟨op.atMs, t, true⟩
  | .taskUpdated t => some ⟨op.atMs, t, false⟩
  | .other => none

/-- The id of the private domain, and of the vault's own. -/
def privateDomain : Id := 0x00000073756e726973652e696e626f78

def metaDomain : Id := 0

def streamKey (stream : Option Ref) : Ref :=
  (stream.filter fun r => r.id ≠ privateDomain ∧ r.id ≠ metaDomain).getD ⟨.stream, privateDomain⟩

namespace TaskRecord

variable (r : TaskRecord J)

def stream : Ref := streamKey r.task.streamId

def done : Bool := r.task.state == .known .done

/-- When the task was done: as the record has it, or else when it was made. -/
def doneAt (grid : WeekGrid J) : ℕ :=
  ((r.task.completedAt.bind (·.resolveIn grid.zone)).bind fun t =>
    if 0 ≤ t.asMillisecond then some t.asMillisecond.toNat else none).getD r.atMs

/-- How many defers it adds to a count, as `i64::saturating_sub` has it. -/
def deferredSince (before : ℤ) : ℤ :=
  max (-2 ^ 63) (min (2 ^ 63 - 1) (r.task.deferredCount - before))

end TaskRecord

def createdBumps (r : TaskRecord J) : List Bump :=
  if r.created then [⟨r.atMs, r.stream, .created, 1⟩] else []

def completedBumps (grid : WeekGrid J) (prev : Option TaskTrace) (r : TaskRecord J) : List Bump :=
  let wasDone := prev.any (·.state == .known .done)
  if r.done && !wasDone && (prev.isSome || r.created) then
    [⟨r.doneAt grid, r.stream, .completed, 1⟩]
  else if wasDone && !r.done then
    ((prev.bind (·.counted)).map fun (at_, stream) => ⟨at_, stream, .completed, -1⟩).toList
  else []

def deferredBumps (prev : Option TaskTrace) (r : TaskRecord J) : List Bump :=
  prev.elim [] fun p =>
    if 0 < r.deferredSince p.deferredCount then
      [⟨r.atMs, r.stream, .deferred, r.deferredSince p.deferredCount⟩]
    else []

/-- What a record adds to the lines, after what is remembered of its task. -/
def bumps (grid : WeekGrid J) (prev : Option TaskTrace) (r : TaskRecord J) : List Bump :=
  createdBumps r ++ completedBumps grid prev r ++ deferredBumps prev r

def traceAfter (grid : WeekGrid J) (prev : Option TaskTrace) (r : TaskRecord J) : TaskTrace :=
  let wasDone := prev.any (·.state == .known .done)
  { state := r.task.state, deferredCount := r.task.deferredCount
    counted :=
      if r.done && !wasDone && (prev.isSome || r.created) then some (r.doneAt grid, r.stream)
      else if wasDone && !r.done then none
      else prev.bind (·.counted) }

structure Fold extends Lines where
  trace : Table Ref TaskTrace

def step (grid : WeekGrid J) (s : Fold) (r : TaskRecord J) : Fold where
  toLines := (bumps grid (s.trace.find r.task.id) r).foldl (Bump.apply grid) s.toLines
  trace := s.trace.upsert r.task.id (traceAfter grid (s.trace.find r.task.id) r)

def init (grid : WeekGrid J) : Fold := ⟨⟨grid.line, ∅⟩, ∅⟩

def Lines.Fits (l : Lines) : Prop :=
  (∀ b ∈ l.overall, b.Fits) ∧ ∀ row ∈ l.perStream.rows, ∀ b ∈ row.2, b.Fits

instance : DecidablePred WeekBucket.Fits := fun b =>
  decidable_of_iff ((-2 ^ 63 ≤ b.completed ∧ b.completed < 2 ^ 63) ∧
    (-2 ^ 63 ≤ b.deferred ∧ b.deferred < 2 ^ 63) ∧ -2 ^ 63 ≤ b.created ∧ b.created < 2 ^ 63)
    ⟨fun h c => by cases c <;> simp only [WeekBucket.get] <;> omega,
      fun h => ⟨h .completed, h .deferred, h .created⟩⟩

instance (l : Lines) : Decidable l.Fits := inferInstanceAs (Decidable (_ ∧ _))

/-- The records are gone through as long as no sum overflows, which ends the program. A record adds
to a count of a bucket once at most, so it is enough to look after each. -/
def run (grid : WeekGrid J) (s : Fold) (rs : List (TaskRecord J)) : Option Fold :=
  rs.foldlM (fun s r => if (step grid s r).Fits then some (step grid s r) else none) s

def foldTrends (ops : List (OpRecord J)) (grid : WeekGrid J) : Option Lines :=
  (run grid (init grid) (ops.filterMap OpRecord.taskRecord)).map Fold.toLines

/-! ### What the records come to -/

section

variable (grid : WeekGrid J)

def lastRecord (h : List (TaskRecord J)) (id : Ref) : Option (TaskRecord J) :=
  h.find? fun r => r.task.id = id

/-- A record takes its task over to done, and shows that it was not done before. -/
def Observed (h : List (TaskRecord J)) (r : TaskRecord J) : Bool :=
  r.done && !(lastRecord h r.task.id).any (·.done) &&
    ((lastRecord h r.task.id).isSome || r.created)

def latestTransition : List (TaskRecord J) → Ref → Option (TaskRecord J)
  | [], _ => none
  | r :: h, id => if r.task.id = id ∧ Observed h r then some r else latestTransition h id

/-- When and in which stream a task that is done was last seen to go over to done. -/
def credit (h : List (TaskRecord J)) (id : Ref) : Option (ℕ × Ref) :=
  if (lastRecord h id).any (·.done) then
    (latestTransition h id).map fun r => (r.doneAt grid, r.stream)
  else none

/-- It is in a week, and in a stream if one is asked for. -/
def Hits (k : Option Ref) (i : ℕ) (c : ℕ × Ref) : Bool :=
  k.all (· == c.2) && grid.indexOf c.1 == some i

/-- How many finished tasks are credited to a week, in a stream or in all. -/
def finished (h : List (TaskRecord J)) (k : Option Ref) (i : ℕ) : ℕ :=
  ((h.map fun r => r.task.id).toFinset.filter fun id => (credit grid h id).any (Hits grid k i)).card

/-- How many defers the records add in a week, in a stream or in all. -/
def deferrals : List (TaskRecord J) → Option Ref → ℕ → ℤ
  | [], _, _ => 0
  | r :: h, k, i => deferrals h k i + (lastRecord h r.task.id).elim 0 fun p =>
      if Hits grid k i (r.atMs, r.stream) then max 0 (r.deferredSince p.task.deferredCount) else 0

def creations (h : List (TaskRecord J)) (k : Option Ref) (i : ℕ) : ℕ :=
  h.countP fun r => r.created && Hits grid k i (r.atMs, r.stream)

end

/-! ### Lines -/

def countAt (weeks : List WeekBucket) (i : ℕ) (c : Count) : ℤ := weeks[i]?.elim 0 (·.get c)

/-- A count of a week in a stream, or of the whole vault. -/
def Lines.value (l : Lines) (k : Option Ref) (i : ℕ) (c : Count) : ℤ :=
  countAt (k.elim l.overall fun stream => (l.perStream.find stream).getD []) i c

/-- Every line has the width of the grid, and the lines of the streams add up to the vault's. -/
structure Lines.Balanced (grid : WeekGrid J) (l : Lines) : Prop where
  overall : l.overall.length = grid.starts.length
  wide : ∀ stream line, l.perStream.find stream = some line → line.length = grid.starts.length
  sum : ∀ i c, l.value none i c = (l.perStream.rows.map fun r => countAt r.2 i c).sum

def added (grid : WeekGrid J) (k : Option Ref) (i : ℕ) (c : Count) (bs : List Bump) : ℤ :=
  (bs.map fun b => if Hits grid k i (b.atMs, b.stream) ∧ b.count = c then b.n else 0).sum

variable {grid : WeekGrid J} {l : Lines} {h : List (TaskRecord J)} {r : TaskRecord J}

theorem WeekGrid.indexOf_lt {t i : ℕ} (hi : grid.indexOf t = some i) : i < grid.starts.length := by
  unfold indexOf at hi
  have hle := (List.takeWhile_prefix (l := grid.starts) fun s => decide (s ≤ t)).length_le
  split at hi
  · cases hi
  · split at hi
    · cases hi
    · cases hi
      omega

theorem countAt_line (i : ℕ) (c : Count) : countAt grid.line i c = 0 := by
  unfold countAt WeekGrid.line
  rw [List.getElem?_map]
  cases grid.starts[i]? <;> cases c <;> rfl

theorem countAt_modify {line : List WeekBucket} {idx : ℕ} (hidx : idx < line.length) (n : ℤ)
    (c c' : Count) (i : ℕ) : countAt (line.modify idx (·.add n c)) i c' =
      countAt line i c' + if idx = i ∧ c = c' then n else 0 := by
  unfold countAt
  rw [List.getElem?_modify]
  by_cases hi : idx = i
  · subst hi
    rw [List.getElem?_eq_getElem hidx]
    cases c <;> cases c' <;> simp [WeekBucket.add, WeekBucket.get]
  · simp [hi]

theorem Lines.Balanced.apply (hl : l.Balanced grid) (b : Bump) : (b.apply grid l).Balanced grid ∧
    ∀ k i c, (b.apply grid l).value k i c =
      l.value k i c + if Hits grid k i (b.atMs, b.stream) ∧ b.count = c then b.n else 0 := by
  unfold Bump.apply
  split
  next idx hidx =>
    have hlt := WeekGrid.indexOf_lt hidx
    set old := (l.perStream.find b.stream).getD grid.line with hold
    have hlen : old.length = grid.starts.length := by
      cases hf : l.perStream.find b.stream with
      | none => rw [hold, hf, Option.getD_none, WeekGrid.line, List.length_map]
      | some line => rw [hold, hf, Option.getD_some, hl.wide _ _ hf]
    have hoverall := countAt_modify (hl.overall ▸ hlt) b.n b.count
    have hline := countAt_modify (hlen ▸ hlt) b.n b.count
    have holdAt (i : ℕ) (c : Count) : countAt old i c = l.value (some b.stream) i c := by
      rw [Lines.value, Option.elim_some, hold]
      cases l.perStream.find b.stream with
      | none => exact countAt_line i c
      | some line => rfl
    have hvalue (k : Option Ref) (i : ℕ) (c : Count) :
        (bump grid l b.stream idx b.count b.n).value k i c =
          l.value k i c + if Hits grid k i (b.atMs, b.stream) ∧ b.count = c then b.n else 0 := by
      cases k with
      | none =>
        refine (hoverall c i).trans ?_
        simp [Hits, hidx, Lines.value]
      | some stream =>
        by_cases hs : stream = b.stream
        · subst hs
          rw [← holdAt]
          refine Eq.trans ?_ ((hline c i).trans ?_)
          · simp [Lines.value, bump, hold]
          · simp [Hits, hidx]
        · simp [Lines.value, bump, Table.find_upsert_of_ne, hs, Hits]
    refine ⟨⟨?_, fun stream line hf => ?_, fun i c => ?_⟩, hvalue⟩
    · rw [← hl.overall]
      exact List.length_modify ..
    · rw [bump, Table.find_upsert] at hf
      split at hf
      · cases hf
        rw [List.length_modify, hlen]
      · exact hl.wide _ _ hf
    · rw [hvalue, hl.sum, bump, Table.sum_upsert]
      have hgone :
          (l.perStream.find b.stream).elim 0 (fun w => countAt w i c) = countAt old i c := by
        rw [hold]
        cases l.perStream.find b.stream with
        | none => exact (countAt_line i c).symm
        | some line => rfl
      rw [hgone, ← hold, hline]
      simp [Hits, hidx]
      ring
  next hnone => exact ⟨hl, fun k i c => by simp [Hits, hnone]⟩

theorem added_append (k : Option Ref) (i : ℕ) (c : Count) (bs bs' : List Bump) :
    added grid k i c (bs ++ bs') = added grid k i c bs + added grid k i c bs' := by
  simp [added]

theorem added_eq_zero {k : Option Ref} {i : ℕ} {c : Count} {bs : List Bump}
    (hbs : ∀ b ∈ bs, b.count ≠ c) : added grid k i c bs = 0 :=
  List.sum_eq_zero fun n hn => by
    obtain ⟨b, hb, rfl⟩ := List.mem_map.mp hn
    exact if_neg fun hc => hbs b hb hc.2

theorem Lines.Balanced.foldl (hl : l.Balanced grid) (bs : List Bump) :
    (bs.foldl (Bump.apply grid) l).Balanced grid ∧ ∀ k i c,
      (bs.foldl (Bump.apply grid) l).value k i c = l.value k i c + added grid k i c bs := by
  induction bs generalizing l with
  | nil => exact ⟨hl, fun k i c => by simp [added]⟩
  | cons b bs ih =>
    obtain ⟨happly, hvalue⟩ := hl.apply b
    obtain ⟨hbalanced, hsum⟩ := ih happly
    refine ⟨hbalanced, fun k i c => ?_⟩
    rw [List.foldl_cons, hsum, hvalue, added, added, List.map_cons, List.sum_cons, add_assoc]

/-! ### What is remembered of a task -/

variable (grid) in
/-- What the records of a task leave to be remembered. -/
def traceOf (h : List (TaskRecord J)) (id : Ref) : Option TaskTrace :=
  (lastRecord h id).map fun r => ⟨r.task.state, r.task.deferredCount, credit grid h id⟩

theorem wasDone_traceOf (h : List (TaskRecord J)) (id : Ref) :
    (traceOf grid h id).any (·.state == .known .done) = (lastRecord h id).any (·.done) := by
  unfold traceOf
  cases lastRecord h id <;> rfl

theorem latestTransition_eq_none {id : Ref} (hnone : lastRecord h id = none) :
    latestTransition h id = none := by
  induction h with
  | nil => rfl
  | cons r h ih =>
    unfold lastRecord at hnone
    rw [List.find?_cons] at hnone
    split at hnone
    · cases hnone
    next hid =>
      rw [latestTransition, if_neg (fun hr => by simp [hr.1] at hid), ih hnone]

theorem counted_traceOf (h : List (TaskRecord J)) (id : Ref) :
    (traceOf grid h id).bind (·.counted) = credit grid h id := by
  unfold traceOf
  cases hlast : lastRecord h id with
  | none => simp [credit, hlast]
  | some r => rfl

theorem traceOf_cons (h : List (TaskRecord J)) (r : TaskRecord J) (id : Ref) :
    traceOf grid (r :: h) id = if r.task.id = id then
      some (traceAfter grid (traceOf grid h r.task.id) r) else traceOf grid h id := by
  by_cases hid : r.task.id = id
  · subst hid
    have hlast : lastRecord (r :: h) r.task.id = some r := by simp [lastRecord]
    have hsome : (traceOf grid h r.task.id).isSome = (lastRecord h r.task.id).isSome :=
      Option.isSome_map
    rw [if_pos rfl, traceOf, hlast, Option.map_some, traceAfter, wasDone_traceOf, counted_traceOf,
      hsome]
    congr 2
    rw [credit, hlast, Option.any_some, latestTransition]
    cases hdone : r.done with
    | false => cases hwas : (lastRecord h r.task.id).any (·.done) <;> simp [credit, hwas]
    | true =>
      cases hwas : (lastRecord h r.task.id).any (·.done) with
      | true => simp [Observed, hdone, hwas, credit]
      | false =>
        cases hseen : (lastRecord h r.task.id).isSome || r.created with
        | true => simp [Observed, hdone, hwas, hseen]
        | false =>
          -- An update with nothing before it shows no transition.
          have hnone : lastRecord h r.task.id = none := by
            simpa using (Bool.or_eq_false_iff.mp hseen).1
          simp [Observed, hdone, hwas, hseen, credit, latestTransition_eq_none hnone]
  · have hlast : lastRecord (r :: h) id = lastRecord h id := by simp [lastRecord, hid]
    have htransition : latestTransition (r :: h) id = latestTransition h id :=
      if_neg fun hr => hid hr.1
    rw [if_neg hid, traceOf, traceOf, hlast, credit, credit, hlast, htransition]

variable (grid) in
/-- One, if it is in the week and the stream. -/
def hit (k : Option Ref) (i : ℕ) (c : Option (ℕ × Ref)) : ℤ :=
  if c.any (Hits grid k i) then 1 else 0

theorem finished_cons (h : List (TaskRecord J)) (r : TaskRecord J) (k : Option Ref) (i : ℕ) :
    (finished grid (r :: h) k i : ℤ) = finished grid h k i +
      hit grid k i (credit grid (r :: h) r.task.id) - hit grid k i (credit grid h r.task.id) := by
  have hsplit (ids : Finset Ref) (p : Ref → Bool) (hp : p r.task.id → r.task.id ∈ ids) :
      ((ids.filter fun id => p id).card : ℤ) =
        ((ids.erase r.task.id).filter fun id => p id).card + if p r.task.id then 1 else 0 := by
    by_cases hx : r.task.id ∈ ids
    · rw [Finset.card_filter, Finset.card_filter, ← Finset.add_sum_erase _ _ hx]
      push_cast
      omega
    · rw [Finset.erase_eq_of_notMem hx, if_neg (mt hp hx), add_zero]
  have hknown (h : List (TaskRecord J)) : (credit grid h r.task.id).any (Hits grid k i) = true →
      r.task.id ∈ (h.map fun r => r.task.id).toFinset := by
    intro hany
    by_contra hnot
    have hnone : lastRecord h r.task.id = none := by
      refine List.find?_eq_none.mpr fun r' hr' => ?_
      simp only [List.mem_toFinset, List.mem_map, not_exists, not_and] at hnot
      simpa using hnot r' hr'
    simp [credit, hnone] at hany
  have hafter := hsplit _ (fun id => (credit grid (r :: h) id).any (Hits grid k i))
    (hknown (r :: h))
  have hbefore := hsplit _ (fun id => (credit grid h id).any (Hits grid k i)) (hknown h)
  rw [List.map_cons, List.toFinset_cons, Finset.erase_insert_eq_erase] at hafter
  unfold finished hit
  rw [List.map_cons, List.toFinset_cons, hafter, hbefore]
  have hsame : ((h.map fun r => r.task.id).toFinset.erase r.task.id).filter
      (fun id => (credit grid (r :: h) id).any (Hits grid k i) = true) =
      ((h.map fun r => r.task.id).toFinset.erase r.task.id).filter
        fun id => (credit grid h id).any (Hits grid k i) = true := by
    refine Finset.filter_congr fun id hid => ?_
    rw [← counted_traceOf, traceOf_cons, if_neg (Finset.ne_of_mem_erase hid).symm, counted_traceOf]
  rw [hsame]
  ring

theorem added_bumps (prev : Option TaskTrace) (r : TaskRecord J) (k : Option Ref) (i : ℕ)
    (c : Count) : added grid k i c (bumps grid prev r) = match c with
      | .created => added grid k i c (createdBumps r)
      | .completed => added grid k i c (completedBumps grid prev r)
      | .deferred => added grid k i c (deferredBumps prev r) := by
  have hcreated : ∀ b ∈ createdBumps r, b.count = .created := by
    intro b hb
    unfold createdBumps at hb
    split at hb <;> simp_all
  have hcompleted : ∀ b ∈ completedBumps grid prev r, b.count = .completed := by
    intro b hb
    simp only [completedBumps] at hb
    split at hb
    · simp_all
    · split at hb
      · cases hc : prev.bind (·.counted) <;> simp_all
      · cases hb
  have hdeferred : ∀ b ∈ deferredBumps prev r, b.count = .deferred := by
    intro b hb
    cases prev with
    | none => cases hb
    | some p =>
      rw [deferredBumps, Option.elim_some] at hb
      split at hb <;> simp_all
  have hzero {bs : List Bump} {c' : Count} (hbs : ∀ b ∈ bs, b.count = c') (hc : c' ≠ c) :
      added grid k i c bs = 0 := added_eq_zero fun b hb => (hbs b hb).symm ▸ hc
  rw [bumps, added_append, added_append]
  cases c with
  | completed => rw [hzero hcreated nofun, hzero hdeferred nofun, zero_add, add_zero]
  | deferred => rw [hzero hcreated nofun, hzero hcompleted nofun, zero_add, zero_add]
  | created => rw [hzero hcompleted nofun, hzero hdeferred nofun, add_zero, add_zero]

theorem added_completed (h : List (TaskRecord J)) (r : TaskRecord J) (k : Option Ref) (i : ℕ) :
    added grid k i .completed (bumps grid (traceOf grid h r.task.id) r) =
      hit grid k i (credit grid (r :: h) r.task.id) - hit grid k i (credit grid h r.task.id) := by
  have hcredit : credit grid (r :: h) r.task.id =
      (traceAfter grid (traceOf grid h r.task.id) r).counted := by
    rw [← counted_traceOf, traceOf_cons, if_pos rfl, Option.bind_some]
  have hopen : (lastRecord h r.task.id).any (·.done) = false → credit grid h r.task.id = none := by
    intro hnot
    rw [credit, hnot]
    rfl
  rw [added_bumps, hcredit, traceAfter, completedBumps, wasDone_traceOf, counted_traceOf]
  cases hdone : r.done with
  | false =>
    cases hwas : (lastRecord h r.task.id).any (·.done) with
    | false => simp [added]
    | true => cases credit grid h r.task.id <;> simp [added, hit, apply_ite]
  | true =>
    cases hwas : (lastRecord h r.task.id).any (·.done) with
    | false =>
      rw [hopen hwas]
      cases (traceOf grid h r.task.id).isSome || r.created <;> simp [added, hit]
    | true => simp [added]

theorem added_deferred (h : List (TaskRecord J)) (r : TaskRecord J) (k : Option Ref) (i : ℕ) :
    added grid k i .deferred (bumps grid (traceOf grid h r.task.id) r) =
      deferrals grid (r :: h) k i - deferrals grid h k i := by
  rw [added_bumps, deferrals, add_sub_cancel_left, traceOf]
  cases lastRecord h r.task.id with
  | none => rfl
  | some p =>
    simp only [deferredBumps, Option.map_some, Option.elim_some]
    split
    next hpos => simp [added, max_eq_right hpos.le]
    next hneg => simp [added, max_eq_left (not_lt.mp hneg)]

/-! ### The state after any records -/

/-- The lines count what the records come to, and each task's trace is what they leave of it. -/
structure Shows (grid : WeekGrid J) (h : List (TaskRecord J)) (s : Fold) : Prop where
  balanced : s.toLines.Balanced grid
  trace : ∀ id, s.trace.find id = traceOf grid h id
  completed : ∀ k i, s.value k i .completed = finished grid h k i
  deferred : ∀ k i, s.value k i .deferred = deferrals grid h k i
  created : ∀ k i, s.value k i .created = creations grid h k i

theorem shows_init (grid : WeekGrid J) : Shows grid [] (init grid) := by
  have hzero (k : Option Ref) (i : ℕ) (c : Count) : (init grid).value k i c = 0 := by
    cases k with
    | none => exact countAt_line i c
    | some stream => rfl
  exact ⟨⟨List.length_map _, nofun, fun i c => hzero none i c⟩, fun id => rfl,
    fun k i => hzero k i _, fun k i => hzero k i _, fun k i => hzero k i _⟩

theorem Shows.step {s : Fold} (hs : Shows grid h s) (r : TaskRecord J) :
    Shows grid (r :: h) (step grid s r) := by
  obtain ⟨hbalanced, hvalue⟩ := hs.balanced.foldl (bumps grid (traceOf grid h r.task.id) r)
  rw [← hs.trace] at hbalanced hvalue
  refine ⟨hbalanced, fun id => ?_, fun k i => ?_, fun k i => ?_, fun k i => ?_⟩
  · rw [Trends.step, Table.find_upsert, traceOf_cons, hs.trace, hs.trace]
    by_cases hid : id = r.task.id
    · rw [hid, if_pos rfl, if_pos rfl]
    · rw [if_neg hid, if_neg (Ne.symm hid)]
  · rw [Trends.step, hvalue, hs.trace, added_completed, hs.completed, finished_cons]
    ring
  · rw [Trends.step, hvalue, hs.trace, added_deferred, hs.deferred]
    ring
  · rw [Trends.step, hvalue, hs.trace, added_bumps, hs.created, creations, creations,
      List.countP_cons, createdBumps]
    cases r.created <;> simp [added]

/-! ### No overflow -/

theorem deferrals_le_cons (h : List (TaskRecord J)) (r : TaskRecord J) (k : Option Ref) (i : ℕ) :
    deferrals grid h k i ≤ deferrals grid (r :: h) k i := by
  refine le_add_of_nonneg_right ?_
  cases lastRecord h r.task.id with
  | none => exact le_rfl
  | some p =>
    rw [Option.elim_some]
    split
    · exact le_max_left ..
    · exact le_rfl

theorem deferrals_le_append (h' h : List (TaskRecord J)) (k : Option Ref) (i : ℕ) :
    deferrals grid h k i ≤ deferrals grid (h' ++ h) k i := by
  induction h' with
  | nil => exact le_rfl
  | cons r h' ih => exact ih.trans (deferrals_le_cons ..)

theorem deferrals_nonneg (h : List (TaskRecord J)) (k : Option Ref) (i : ℕ) :
    0 ≤ deferrals grid h k i :=
  (deferrals_le_append h [] k i).trans_eq (by rw [List.append_nil])

theorem hits_none {k : Option Ref} {i : ℕ} {c : ℕ × Ref} (hk : Hits grid k i c = true) :
    Hits grid none i c = true := by
  simp only [Hits, Bool.and_eq_true, Option.all_none, true_and] at hk ⊢
  exact hk.2

theorem deferrals_le_overall (h : List (TaskRecord J)) (k : Option Ref) (i : ℕ) :
    deferrals grid h k i ≤ deferrals grid h none i := by
  induction h with
  | nil => exact le_rfl
  | cons r h ih =>
    refine add_le_add ih ?_
    cases lastRecord h r.task.id with
    | none => exact le_rfl
    | some p =>
      rw [Option.elim_some, Option.elim_some]
      split
      next hk => rw [if_pos (hits_none hk)]
      next => split <;> simp

theorem finished_le (h : List (TaskRecord J)) (k : Option Ref) (i : ℕ) :
    finished grid h k i ≤ h.length :=
  (Finset.card_filter_le ..).trans ((List.toFinset_card_le _).trans (List.length_map _).le)

theorem fits_line {weeks : List WeekBucket} : (∀ b ∈ weeks, b.Fits) ↔
    ∀ i c, -2 ^ 63 ≤ countAt weeks i c ∧ countAt weeks i c < 2 ^ 63 := by
  constructor
  · intro hfits i c
    unfold countAt
    cases hb : weeks[i]? with
    | none => simp
    | some b => exact hfits b (List.mem_of_getElem? hb) c
  · intro hfits b hb c
    obtain ⟨i, hi⟩ := List.mem_iff_getElem?.mp hb
    simpa [countAt, hi] using hfits i c

theorem Lines.fits_iff {l : Lines} :
    l.Fits ↔ ∀ k i c, -2 ^ 63 ≤ l.value k i c ∧ l.value k i c < 2 ^ 63 := by
  unfold Lines.Fits
  simp only [fits_line]
  constructor
  · rintro ⟨hoverall, hstreams⟩ (_ | stream)
    · exact hoverall
    · unfold Lines.value
      rw [Option.elim_some]
      cases hline : l.perStream.find stream with
      | none => exact fits_line.mp nofun
      | some line => exact hstreams (stream, line) (Table.mem_rows.mpr hline)
  · refine fun hfits => ⟨hfits none, fun row hrow i c => ?_⟩
    simpa [Lines.value, Table.mem_rows.mp hrow] using hfits (some row.1) i c

namespace Shows

variable {s : Fold} (hs : Shows grid h s)
include hs

theorem nonneg (k : Option Ref) (i : ℕ) : ∀ c, 0 ≤ s.value k i c
  | .completed => hs.completed k i ▸ Int.natCast_nonneg _
  | .deferred => hs.deferred k i ▸ deferrals_nonneg ..
  | .created => hs.created k i ▸ Int.natCast_nonneg _

theorem fits_iff (hlen : h.length < 2 ^ 63) :
    s.Fits ↔ ∀ i, deferrals grid h none i < 2 ^ 63 := by
  refine Lines.fits_iff.trans ⟨fun hfits i => hs.deferred none i ▸ (hfits none i .deferred).2,
    fun hfew k i c => ⟨(by norm_num : (-2 ^ 63 : ℤ) ≤ 0).trans (hs.nonneg k i c), ?_⟩⟩
  cases c with
  | completed =>
    rw [hs.completed]
    exact_mod_cast (finished_le h k i).trans_lt hlen
  | deferred => exact hs.deferred k i ▸ (deferrals_le_overall h k i).trans_lt (hfew i)
  | created =>
    rw [hs.created]
    exact_mod_cast List.countP_le_length.trans_lt hlen

end Shows

theorem run_cons (s : Fold) (r : TaskRecord J) (rs : List (TaskRecord J)) :
    run grid s (r :: rs) = if (step grid s r).Fits then run grid (step grid s r) rs else none := by
  rw [run, List.foldlM_cons]
  split <;> rfl

theorem run_iff (rs : List (TaskRecord J)) (hlen : rs.length + h.length < 2 ^ 63) {s : Fold}
    (hs : Shows grid h s) (hfew : ∀ i, deferrals grid h none i < 2 ^ 63) :
    ((∃ t, run grid s rs = some t) ↔ ∀ i, deferrals grid (rs.reverse ++ h) none i < 2 ^ 63) ∧
      ∀ t, run grid s rs = some t → Shows grid (rs.reverse ++ h) t := by
  induction rs generalizing h s with
  | nil => exact ⟨⟨fun _ => hfew, fun _ => ⟨s, rfl⟩⟩, fun t ht => Option.some.inj ht ▸ hs⟩
  | cons r rs ih =>
    rw [List.length_cons] at hlen
    have hnext := (hs.step r).fits_iff (by rw [List.length_cons]; omega)
    rw [run_cons, List.reverse_cons, List.append_assoc, List.singleton_append]
    by_cases hok : (step grid s r).Fits
    · rw [if_pos hok]
      exact ih (by rw [List.length_cons]; omega) (hs.step r) (hnext.mp hok)
    · rw [if_neg hok]
      refine ⟨⟨nofun, fun hfew => absurd (hnext.mpr fun i => ?_) hok⟩, nofun⟩
      exact (deferrals_le_append rs.reverse ..).trans_lt (hfew i)

/-- The records of a log, the last one first. -/
def history (ops : List (OpRecord J)) : List (TaskRecord J) :=
  (ops.filterMap OpRecord.taskRecord).reverse

theorem foldTrends_iff {ops : List (OpRecord J)} (hlen : ops.length < 2 ^ 63) :
    ((∃ t, foldTrends ops grid = some t) ↔ ∀ i, deferrals grid (history ops) none i < 2 ^ 63) ∧
      ∀ t, foldTrends ops grid = some t → ∃ s, Shows grid (history ops) s ∧ s.toLines = t := by
  have hle := List.length_filterMap_le OpRecord.taskRecord ops
  obtain ⟨hruns, hshows⟩ := run_iff (ops.filterMap OpRecord.taskRecord)
    (by rw [List.length_nil]; omega) (shows_init grid) fun i => (by norm_num : (0 : ℤ) < 2 ^ 63)
  rw [List.append_nil] at hruns hshows
  unfold foldTrends
  refine ⟨⟨fun ⟨t, ht⟩ => ?_, fun hfew => ?_⟩, fun t ht => ?_⟩
  · obtain ⟨s, hs, -⟩ := Option.map_eq_some_iff.mp ht
    exact hruns.mp ⟨s, hs⟩
  · obtain ⟨s, hs⟩ := hruns.mpr hfew
    exact ⟨s.toLines, by rw [hs, Option.map_some]⟩
  · obtain ⟨s, hs, hst⟩ := Option.map_eq_some_iff.mp ht
    exact ⟨s, hshows s hs, hst⟩

/-! ### Every finished task is counted once -/

/-- The lines tell the finished tasks of each week, in each stream and in all; nothing is below
zero, and the streams add up to the whole. -/
structure Tells (grid : WeekGrid J) (ops : List (OpRecord J)) (t : Lines) : Prop where
  completed : ∀ k i, t.value k i .completed = finished grid (history ops) k i
  nonneg : ∀ k i c, 0 ≤ t.value k i c
  balanced : t.Balanced grid

/-- Completing a task puts one on the week and the stream it is dated in, and reopening it takes one
off where its last completion was put. -/
structure Follows (grid : WeekGrid J) (h : List (TaskRecord J)) (r : TaskRecord J)
    (before after : Lines) : Prop where
  completing : Observed h r = true → ∀ k i, after.value k i .completed =
    before.value k i .completed + hit grid k i (some (r.doneAt grid, r.stream))
  reopening : (lastRecord h r.task.id).any (·.done) = true → r.done = false → ∀ k i,
    after.value k i .completed = before.value k i .completed -
      hit grid k i ((latestTransition h r.task.id).map fun r => (r.doneAt grid, r.stream))

/-- The trends of a log are there, and tell it; at each record they follow from those before. -/
structure Counts (grid : WeekGrid J) (ops : List (OpRecord J)) : Prop where
  tells : ∃ t, foldTrends ops grid = some t ∧ Tells grid ops t
  follows : ∀ pre op r, pre ++ [op] <+: ops → op.taskRecord = some r →
    ∃ before after, foldTrends pre grid = some before ∧ foldTrends (pre ++ [op]) grid = some after ∧
      Follows grid (history pre) r before after

theorem Shows.follows {s s' : Fold} (hs : Shows grid h s) (hs' : Shows grid (r :: h) s') :
    Follows grid h r s.toLines s'.toLines := by
  have hlast : lastRecord (r :: h) r.task.id = some r := by simp [lastRecord]
  constructor
  · intro hseen k i
    obtain ⟨⟨hdone, hopen⟩, -⟩ : (r.done ∧ (lastRecord h r.task.id).any (·.done) = false) ∧ _ := by
      simpa only [Observed, Bool.and_eq_true, Bool.not_eq_true'] using hseen
    have hbefore : credit grid h r.task.id = none := by
      rw [credit, if_neg (ne_true_of_eq_false hopen)]
    have hafter : credit grid (r :: h) r.task.id = some (r.doneAt grid, r.stream) := by
      rw [credit, hlast, Option.any_some, if_pos hdone, latestTransition, if_pos ⟨rfl, hseen⟩,
        Option.map_some]
    rw [hs.completed, hs'.completed, finished_cons, hbefore, hafter]
    simp [hit]
  · intro hwas hopen k i
    have hbefore : credit grid h r.task.id =
        (latestTransition h r.task.id).map fun r => (r.doneAt grid, r.stream) := if_pos hwas
    have hafter : credit grid (r :: h) r.task.id = none := by
      rw [credit, hlast, Option.any_some, if_neg (ne_true_of_eq_false hopen)]
    rw [hs.completed, hs'.completed, finished_cons, hbefore, hafter]
    simp [hit]

theorem history_append (ops ops' : List (OpRecord J)) :
    history (ops ++ ops') = history ops' ++ history ops := by
  rw [history, List.filterMap_append, List.reverse_append, history, history]

/-- **Every finished task is counted once, in the week and the stream of its last completion,
exactly if in no week the defers overflow.** -/
theorem counts_iff (grid : WeekGrid J) (ops : List (OpRecord J)) (hlen : ops.length < 2 ^ 63) :
    Counts grid ops ↔ ∀ i, deferrals grid (history ops) none i < 2 ^ 63 := by
  refine ⟨fun hcounts => (foldTrends_iff hlen).1.mp (hcounts.tells.imp fun _ => And.left),
    fun hfew => ?_⟩
  have hshown (pre : List (OpRecord J)) (hpre : pre <+: ops) :
      ∃ s, foldTrends pre grid = some s.toLines ∧ Shows grid (history pre) s := by
    have hle : pre.length < 2 ^ 63 := hpre.length_le.trans_lt hlen
    obtain ⟨post, rfl⟩ := hpre
    obtain ⟨t, ht⟩ := (foldTrends_iff hle).1.mpr fun i =>
      (deferrals_le_append (history post) ..).trans_lt (history_append pre post ▸ hfew i)
    obtain ⟨s, hs, rfl⟩ := (foldTrends_iff hle).2 t ht
    exact ⟨s, ht, hs⟩
  constructor
  · obtain ⟨s, ht, hs⟩ := hshown ops List.prefix_rfl
    exact ⟨s.toLines, ht, hs.completed, hs.nonneg, hs.balanced⟩
  · intro pre op r hpre hop
    obtain ⟨s, ht, hs⟩ := hshown pre ((List.prefix_append ..).trans hpre)
    obtain ⟨s', ht', hs'⟩ := hshown (pre ++ [op]) hpre
    rw [history_append, history, List.filterMap_cons_some hop, List.filterMap_nil] at hs'
    exact ⟨s.toLines, s'.toLines, ht, ht', hs.follows hs'⟩

def twoWeeks : WeekGrid Jiff.sample :=
  ⟨[0, 604800000], 1209600000, (), List.pairwise_pair.mpr (by decide)⟩

/-- A task of a stream is seen in a state, with a count of defers. -/
def seenIn (atMs : ℕ) (state : KnownTaskState) (n : ℤ) : OpRecord Jiff.sample :=
  ⟨atMs, .taskUpdated { estimatedTask 0 with
    streamId := some ⟨.stream, 5⟩, state := .known state, deferredCount := n }⟩

/-- A task that is put off, completed, reopened, and completed again a week on. -/
def doneTwice : List (OpRecord Jiff.sample) :=
  [seenIn 0 .todo 0, seenIn 1 .todo 2, seenIn 2 .done 2, seenIn 3 .todo 2, seenIn 604800001 .done 3]

theorem counts_iff_reopened : Counts twoWeeks doneTwice ∧
    (List.range 2).map (finished twoWeeks (history doneTwice) (some ⟨.stream, 5⟩)) = [0, 1] := by
  refine ⟨(counts_iff twoWeeks doneTwice (by decide)).mpr fun i => ?_, by decide +kernel⟩
  rcases i with _ | _ | i
  · decide +kernel
  · decide +kernel
  · have hzero : deferrals twoWeeks (history doneTwice) none (i + 2) = 0 := rfl
    rw [hzero]
    norm_num

def oneWeek : WeekGrid Jiff.sample := ⟨[0], 1, (), List.pairwise_singleton ..⟩

/-- A task is seen with a count of defers. -/
def deferredTo (id : Id) (n : ℤ) : OpRecord Jiff.sample :=
  ⟨0, .taskUpdated { estimatedTask 0 with id := ⟨.task, id⟩, deferredCount := n }⟩

/-- Two tasks deferred as often as can be, in one week. -/
theorem not_counts_twice_most : ¬ Counts oneWeek [deferredTo 1 0, deferredTo 1 (2 ^ 63 - 1),
    deferredTo 2 0, deferredTo 2 (2 ^ 63 - 1)] := by
  intro hcounts
  obtain ⟨t, ht, -⟩ := hcounts.tells
  have hfew := (foldTrends_iff (by decide)).1.mp ⟨t, ht⟩ 0
  exact absurd hfew (by decide +kernel)

end Sunrise.Trends
