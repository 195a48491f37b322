import Sunrise.Capture.Lossless
import Sunrise.Rows.Task

/-!
# Editing by typing

The sigils of capture, typed at a task that there is already. What a line says becomes a patch, in
which a dash clears. No word is left over: what is not read is an error.

* `TaskEdit`, `parse` — what a line says, and a line read.
* `agrees_of_captured` — **a line that capture reads to its end is the same edit**, but for names
  behind a dash and starred targets. A duration that a list shows is read by both.
-/

namespace Sunrise

open Capture

namespace Annotate

open Capture (Env NamedRef Plain ReadsDates Reads TaskDraft Turn turn u64 walk)
open Casing (toLowercase)
open Numeral (padded showNat unsigned)
open Rows (KnownEnergy KnownTaskState Jiff Lossy ScheduleConstraint SunriseTime Timestamp)
open Text (IsWord spaced trim words stripPrefix stripSuffix)

/-! ### Edits -/

/-- What becomes of a field that is touched. -/
inductive Setting (T : Type) where
  | to_ (value : T)
  | clear

def Setting.value {T : Type} : Setting T → Option T
  | .to_ v => some v
  | .clear => none

/-- Why a word was not applied. -/
inductive EditError where
  | unknownStream (typed : Text)
  | unknownContext (typed : Text)
  | badPriority (typed : Text)
  | badEnergy (typed : Text)
  | badDuration (typed : Text)
  | badDate (typed : Text)
  | notAToken (typed : Text)
deriving DecidableEq

/-- The fields that a line touches. -/
structure TaskEdit (E T : Type) where
  stream : Option E
  addContexts : List E
  removeContexts : List E
  clearContexts : Bool
  priority : Option (Setting ℕ)
  energy : Option (Setting (Lossy KnownEnergy))
  durationS : Option (Setting ℕ)
  scheduled : Option (Setting T)
  target : Option (Setting T)
  due : Option (Setting T)
  errors : List EditError

def TaskEdit.default {E T : Type} : TaskEdit E T :=
  ⟨none, [], [], false, none, none, none, none, none, none, []⟩

def TaskEdit.refuse {E T : Type} (edit : TaskEdit E T) (e : EditError) : TaskEdit E T :=
  { edit with errors := edit.errors ++ [e] }

/-- An update of a task: a field that is absent stays, and one that is present is set, or cleared
if it is set to nothing. -/
structure TaskPatch (E : Type) (J : Jiff) where
  title : Option String
  body : Option (Option Bytes)
  streamId : Option (Option E)
  contexts : Option (List E)
  state : Option (Lossy KnownTaskState)
  priority : Option (Option ℕ)
  energy : Option (Option (Lossy KnownEnergy))
  estimatedDurationS : Option (Option ℕ)
  plannedAt : Option (Option (SunriseTime J))
  targetAt : Option (Option (SunriseTime J))
  hardDueAt : Option (Option (SunriseTime J))
  schedulingConstraints : Option (List (ScheduleConstraint J))
  blockedBy : Option (List E)
  assignee : Option (Option E)
  reminderLeadS : Option (Option UInt32)
  archived : Option Bool
  sortOrder : Option (Option String)
  lateAcknowledgedAt : Option (Option Timestamp)

def TaskPatch.default {E : Type} {J : Jiff} : TaskPatch E J :=
  ⟨none, none, none, none, none, none, none, none, none, none, none, none, none, none, none, none,
    none, none⟩

/-- The patch of a task that has these contexts, which are replaced as a whole. -/
def TaskEdit.patchFor {E : Type} [DecidableEq E] {J : Jiff} (edit : TaskEdit E (SunriseTime J))
    (current : List E) : TaskPatch E J :=
  { TaskPatch.default with
    priority := edit.priority.map Setting.value
    energy := edit.energy.map Setting.value
    estimatedDurationS := edit.durationS.map Setting.value
    plannedAt := edit.scheduled.map Setting.value
    targetAt := edit.target.map Setting.value
    hardDueAt := edit.due.map Setting.value
    contexts :=
      if edit.clearContexts then some []
      else if edit.addContexts ≠ [] ∨ edit.removeContexts ≠ [] then
        some (edit.addContexts.foldl (fun next c => if c ∈ next then next else next ++ [c])
          (current.filter (· ∉ edit.removeContexts)))
      else none }

/-! ### Durations -/

/-- The rest of a duration: what there is so far, and the digits since. -/
def durationFrom (total : ℕ) (digits : Text) : Text → Option (ℕ × Text)
  | [] => some (total, digits)
  | c :: s =>
    if c.isDigit then durationFrom total (digits ++ [c]) s
    else do
      let n ← unsigned (2 ^ 64) digits
      let secs ← (unitSeconds c).bind fun unit => u64 (n * unit)
      durationFrom (← u64 (total + secs)) [] s

/-- `30m`, `2h`, `1h30m`, and `90` as minutes. -/
def parseDurationS (s : Text) : Option ℕ :=
  let t := Text.lower (trim s)
  if t = [] then none
  else
    match unsigned (2 ^ 64) t with
    | some mins => u64 (mins * 60)
    | none => do
      let (total, digits) ← durationFrom 0 [] t
      if digits = [] ∧ 0 < total then some total else none

/-- A duration in hours and minutes. -/
def shortDuration (secs : ℕ) : Text :=
  match secs / 3600, secs % 3600 / 60 with
  | 0, m => showNat m ++ ['m']
  | h, 0 => showNat h ++ ['h']
  | h, m => showNat h ++ 'h' :: (padded 2 m ++ ['m'])

/-! ### Words -/

/-- What stands behind `due:`, starred or not. -/
def stripDue (w : Text) : Option Text :=
  (((stripPrefix "*due:".toList w).bind (stripSuffix ['*'])).or
    (stripPrefix "due:".toList w)).filter (· ≠ [])

def stripTarget (w : Text) : Option Text := (stripPrefix "target:".toList w).filter (· ≠ [])

def setOrClear {T : Type} (body : Text) (f : Text → Option T) : Option (Setting T) :=
  if body = ['-'] then some .clear else (f body).map .to_

section

variable {E : Type} (env : Env E)

def parseEnergy (s : Text) : Option (Lossy KnownEnergy) :=
  let s := toLowercase env.u (trim s)
  if s = "low".toList then some (.known .low)
  else if s = "med".toList ∨ s = "medium".toList then some (.known .med)
  else if s = "high".toList then some (.known .high)
  else none

/-- A name whatever its case: the first that is the same, or else the only one it starts. -/
def resolve (typed : Text) (candidates : List (NamedRef E)) : Option E :=
  let lower := toLowercase env.u typed
  let rows := candidates.map fun c => (c.id, toLowercase env.u c.name)
  match rows.find? fun row => row.2 = lower with
  | some (id, _) => some id
  | none =>
    match rows.filter fun row => lower <+: row.2 with
    | [(id, _)] => some id
    | _ => none

def maxDateWords : ℕ := 3

/-- The longest phrase of fewer than so many words more that is read, and how many more it has. -/
def takeDateWithin (head : Text) (rest : List Text) : ℕ → ℕ × Option (Setting env.When)
  | 0 => (0, none)
  | extra + 1 =>
    match env.when (spaced (head :: rest.take extra)) with
    | some t => (extra, some (.to_ t))
    | none => takeDateWithin head rest extra

def takeDate (head : Text) (rest : List Text) : ℕ × Option (Setting env.When) :=
  if head = ['-'] then (0, some .clear)
  else takeDateWithin env head rest (min rest.length (maxDateWords - 1) + 1)

/-- A context to add or to remove, or all to clear. -/
def parseContextToken (edit : TaskEdit E env.When) (body : Text) : TaskEdit E env.When :=
  match stripPrefix ['-'] body with
  | some [] => { edit with clearContexts := true }
  | some name =>
    match resolve env name env.contexts with
    | some id => { edit with removeContexts := edit.removeContexts ++ [id] }
    | none => edit.refuse (.unknownContext name)
  | none =>
    match resolve env body env.contexts with
    | some id => { edit with addContexts := edit.addContexts ++ [id] }
    | none => edit.refuse (.unknownContext body)

/-- A date for a field, and how many words of it follow. -/
def dated (edit : TaskEdit E env.When) (body : Text) (rest : List Text)
    (set : Setting env.When → TaskEdit E env.When) : ℕ × TaskEdit E env.When :=
  match takeDate env body rest with
  | (consumed, some v) => (consumed, set v)
  | (consumed, none) => (consumed, edit.refuse (.badDate body))

def dateToken (edit : TaskEdit E env.When) (w : Text) (rest : List Text) :
    ℕ × TaskEdit E env.When :=
  match stripTarget w with
  | some body => dated env edit body rest fun v => { edit with target := some v }
  | none =>
    match stripDue w with
    | some body => dated env edit body rest fun v => { edit with due := some v }
    | none =>
      match stripPrefix ['^'] w with
      | some body => dated env edit body rest fun v => { edit with scheduled := some v }
      | none => (0, edit.refuse (.notAToken w))

/-- A word with the words after it: how many of them it takes, and the edit with it. -/
def token (edit : TaskEdit E env.When) : Text → List Text → ℕ × TaskEdit E env.When
  | '#' :: body, _ =>
    (0, match resolve env body env.streams with
      | some id => { edit with stream := some id }
      | none => edit.refuse (.unknownStream body))
  | '@' :: body, _ => (0, parseContextToken env edit body)
  | '!' :: body, _ =>
    (0, match setOrClear body fun b => (unsigned 256 b).filter fun p => 1 ≤ p ∧ p ≤ 5 with
      | some v => { edit with priority := some v }
      | none => edit.refuse (.badPriority body))
  | '%' :: body, _ =>
    (0, match setOrClear body (parseEnergy env) with
      | some v => { edit with energy := some v }
      | none => edit.refuse (.badEnergy body))
  | '~' :: body, _ =>
    (0, match setOrClear body parseDurationS with
      | some v => { edit with durationS := some v }
      | none => edit.refuse (.badDuration body))
  | w, rest => dateToken env edit w rest

/-- The rest of a line, of which so many words were taken with those before. -/
def parseFrom (edit : TaskEdit E env.When) : ℕ → List Text → TaskEdit E env.When
  | _, [] => edit
  | taken + 1, _ :: rest => parseFrom edit taken rest
  | 0, w :: rest =>
    let (consumed, edit) := token env edit w rest
    parseFrom edit consumed rest

def parse (input : Text) : TaskEdit E env.When := parseFrom env .default 0 (words input)

end

/-! ### What both say -/

/-- A line that capture reads to its end. -/
def Captured (env : Env E) (input : Text) : Prop :=
  (Capture.parse env input).1.title = [] ∧ (Capture.parse env input).2 = []

/-- A patch sets the fields of a draft, the contexts as a set, and no others. -/
def TaskPatch.Sets {J : Jiff} (patch : TaskPatch E J) (draft : TaskDraft E (SunriseTime J)) :
    Prop :=
  (∀ id, id ∈ patch.contexts.getD [] ↔ id ∈ draft.contexts) ∧
    (patch.contexts = none ↔ draft.contexts = []) ∧
    patch = { TaskPatch.default with
      contexts := patch.contexts
      priority := draft.priority.map some
      estimatedDurationS := draft.estimatedDurationS.map some
      plannedAt := draft.plannedAt.map some
      targetAt := draft.targetAt.map some
      hardDueAt := draft.hardDueAt.map some }

/-- A line is the same as an edit of a task without contexts, and as a draft. -/
def Agrees [DecidableEq E] (env : Env E) (input : Text) : Prop :=
  (parse env input).errors = [] ∧ (parse env input).stream = (Capture.parse env input).1.streamId ∧
    ((parse env input).patchFor []).Sets (Capture.parse env input).1

def editOf {T : Type} (d : TaskDraft E T) : TaskEdit E T :=
  { (TaskEdit.default : TaskEdit E T) with
    stream := d.streamId
    addContexts := d.contexts
    priority := d.priority.map .to_
    durationS := d.estimatedDurationS.map .to_
    scheduled := d.plannedAt.map .to_
    target := d.targetAt.map .to_
    due := d.hardDueAt.map .to_ }

section

variable {E : Type} {env : Env E} {w head body : Text} {rest ws : List Text} {s : Text}

theorem mem_foldl_union [DecidableEq E] {id : E} (l acc : List E) :
    id ∈ l.foldl (fun next c => if c ∈ next then next else next ++ [c]) acc ↔
      id ∈ acc ∨ id ∈ l := by
  induction l generalizing acc with
  | nil => simp
  | cons c l ih =>
    rw [List.foldl_cons, ih, List.mem_cons]
    split
    next hmem =>
      constructor
      · exact fun h => h.imp_right .inr
      · rintro (h | rfl | h)
        exacts [.inl h, .inl hmem, .inr h]
    next => rw [List.mem_append, List.mem_singleton, or_assoc]

theorem map_value {T : Type} (o : Option T) :
    (o.map Setting.to_).map Setting.value = o.map some := by
  cases o <;> rfl

theorem sets_editOf [DecidableEq E] {J : Jiff} (d : TaskDraft E (SunriseTime J)) :
    ((editOf d).patchFor []).Sets d := by
  have hcontexts : ((editOf d).patchFor []).contexts = if d.contexts = [] then none else
      some (d.contexts.foldl (fun next c => if c ∈ next then next else next ++ [c]) []) := by
    by_cases h : d.contexts = [] <;>
      simp [h, TaskEdit.patchFor, TaskPatch.default, editOf, TaskEdit.default]
  refine ⟨fun id => ?_, ?_, ?_⟩
  · rw [hcontexts]
    split
    next h => rw [h]; rfl
    next => rw [Option.getD_some, mem_foldl_union, or_iff_right List.not_mem_nil]
  · rw [hcontexts]
    split <;> simp_all
  · unfold TaskEdit.patchFor editOf
    simp only [map_value]
    rfl

/-! ### One word -/

theorem resolve_of_named {typed : Text} {candidates : List (NamedRef E)} {kind : Capture.NameKind}
    {id : E} (h : resolveNamed env typed candidates kind = .ok id) :
    resolve env typed candidates = some id := by
  unfold resolveNamed at h
  unfold resolve
  simp only [List.find?_map, List.filter_map, Function.comp_def] at h ⊢
  split at h
  next found hfound =>
    rw [hfound, ← Except.ok.inj h]
    rfl
  next hnone =>
    rw [hnone]
    split at h
    next only honly =>
      rw [honly, ← Except.ok.inj h]
      rfl
    · cases h
    · cases h

theorem durationFrom_eq (total : ℕ) (digits : Text) (sawUnit : Bool) (s : Text) :
    durationFrom total digits s =
      (Capture.durationFrom total digits sawUnit s).map fun x => (x.1, x.2.1) := by
  induction s generalizing total digits sawUnit with
  | nil => rfl
  | cons c s ih =>
    rw [durationFrom, Capture.durationFrom]
    split
    · exact ih ..
    · simp only [Option.bind_eq_bind, Option.map_bind, Function.comp_def, ← ih]

theorem plain_of_durationFrom {total : ℕ} {digits : Text} {sawUnit : Bool} {x : ℕ × Text × Bool}
    (h : Capture.durationFrom total digits sawUnit s = some x) :
    ∀ c ∈ s, c.isDigit ∨ c ∈ ['h', 'm', 'd'] := by
  induction s generalizing total digits sawUnit with
  | nil => exact nofun
  | cons c s ih =>
    rw [Capture.durationFrom] at h
    split at h
    next hc => exact List.forall_mem_cons.mpr ⟨.inl hc, ih h⟩
    next =>
      obtain ⟨n, -, h⟩ := Option.bind_eq_some_iff.mp h
      obtain ⟨secs, hsecs, h⟩ := Option.bind_eq_some_iff.mp h
      obtain ⟨sum, -, h⟩ := Option.bind_eq_some_iff.mp h
      refine List.forall_mem_cons.mpr ⟨.inr ?_, ih h⟩
      obtain ⟨unit, hunit, -⟩ := Option.bind_eq_some_iff.mp hsecs
      unfold Capture.unitSeconds at hunit
      split_ifs at hunit with hh hm hd
      · simp [hh]
      · simp [hm]
      · simp [hd]

theorem plain_of_unsigned {bound n : ℕ} (h : unsigned bound s = some n) :
    ∀ c ∈ s, c.isDigit ∨ c = '+' := by
  have hdigits := (Numeral.digits_eq_some (Option.filter_eq_some_iff.mp h).1).2
  unfold Numeral.stripPlus at hdigits
  split at hdigits
  · exact List.forall_mem_cons.mpr ⟨.inr rfl, fun c hc => .inl (hdigits c hc)⟩
  · exact fun c hc => .inl (hdigits c hc)

theorem isAscii_of_isDigit {c : Char} (h : c.isDigit) : Casing.IsAscii c ∧ c ≠ 'i' ∧ c ≠ 'k' := by
  have hle : c.toNat ≤ 57 := by
    rw [Char.isDigit, Bool.and_eq_true, decide_eq_true_eq, decide_eq_true_eq] at h
    exact h.2
  exact ⟨hle.trans_lt (by decide), fun heq => absurd (heq ▸ hle) (by decide),
    fun heq => absurd (heq ▸ hle) (by decide)⟩

theorem parseDurationS_of_capture {secs : ℕ} (h : Capture.parseDurationS env s = some secs) :
    parseDurationS s = some secs := by
  unfold Capture.parseDurationS at h
  have hplain : ∀ c ∈ toLowercase env.u (trim s), c.isDigit ∨ c ∈ ['+', 'h', 'm', 'd'] := by
    dsimp only at h
    split at h
    · cases h
    · split at h
      next mins hmins =>
        exact fun c hc => (plain_of_unsigned hmins c hc).imp_right fun h => by simp [h]
      next =>
        obtain ⟨x, hx, -⟩ := Option.bind_eq_some_iff.mp h
        exact fun c hc => (plain_of_durationFrom hx c hc).imp_right (List.mem_cons_of_mem '+')
  have hlower : toLowercase env.u (trim s) = Text.lower (trim s) := by
    refine Casing.toLowercase_eq_lower fun c hc => ?_
    rcases hplain c hc with hdigit | hunit
    · exact isAscii_of_isDigit hdigit
    · have hall : ∀ d ∈ ['+', 'h', 'm', 'd'], Casing.IsAscii d ∧ d ≠ 'i' ∧ d ≠ 'k' :=
        Text.forall_of_all (by decide)
      exact hall c hunit
  rw [hlower] at h
  unfold parseDurationS
  dsimp only at h ⊢
  split at h
  · cases h
  next hne =>
    rw [if_neg hne]
    cases hmins : unsigned (2 ^ 64) s.trim.lower with
    | some mins =>
      rw [hmins] at h
      exact h
    | none =>
      rw [hmins] at h
      obtain ⟨⟨total, digits, sawUnit⟩, hx, h⟩ := Option.bind_eq_some_iff.mp h
      obtain ⟨⟨-, hdigits, hpos⟩, hsecs⟩ := Option.ite_none_right_eq_some.mp h
      dsimp only
      rw [durationFrom_eq 0 [] false, hx]
      exact (if_pos ⟨hdigits, hpos⟩).trans hsecs

theorem takeDateWithin_eq (head : Text) (rest : List Text) (n : ℕ) :
    takeDateWithin env head rest n = ((Capture.takeDateWithin env head rest n).1 - 1,
      (Capture.takeDateWithin env head rest n).2.map .to_) := by
  induction n with
  | zero => rfl
  | succ n ih =>
    rw [takeDateWithin, Capture.takeDateWithin, Capture.when_trim]
    cases env.when (spaced (head :: rest.take n)) with
    | some t => rfl
    | none => exact ih

theorem takeDate_of_capture (hL : ReadsDates env.L) (hrest : ∀ v ∈ rest, IsWord v) {m : ℕ}
    {t : env.When} (h : Capture.takeDate env head rest = (m + 1, some t)) :
    takeDate env head rest = (m, some (.to_ t)) := by
  rw [Capture.takeDate] at h
  have hdash : head ≠ ['-'] := by
    rintro rfl
    obtain ⟨k, t', -, -, hread, -⟩ | ⟨hnone, -⟩ := Capture.takeDateWithin_spec env ['-'] rest
      (min Capture.maxDateWords (rest.length + 1))
    · have hnone := @Capture.parseWhenTime_dash env.L env.u env.now env.tz (rest.take k) hL
        fun v hv => hrest v (List.mem_of_mem_take hv)
      exact absurd (hnone.symm.trans hread) (Option.some_ne_none _).symm
    · rw [h] at hnone
      cases (Prod.mk.inj hnone).2
  have hspan : min rest.length (maxDateWords - 1) + 1 =
      min Capture.maxDateWords (rest.length + 1) := by
    unfold maxDateWords Capture.maxDateWords
    omega
  rw [takeDate, if_neg hdash, hspan, takeDateWithin_eq, h]
  rfl

theorem takeDate_of_when (hL : ReadsDates env.L) (hrest : ∀ v ∈ rest, IsWord v)
    (hbody : IsWord body) {t : env.When} (h : env.when body = some t)
    (hnext : ∀ v vs, rest = v :: vs → ¬Plain v) : takeDate env body rest = (0, some (.to_ t)) := by
  refine takeDate_of_capture hL hrest ?_
  rw [Capture.takeDate]
  have hpos : 0 < min Capture.maxDateWords (rest.length + 1) :=
    lt_min (by decide) (Nat.succ_pos _)
  rw [← Text.spaced_singleton body] at h
  obtain ⟨m, t', hm, htake, hread, -⟩ | ⟨-, hnone⟩ := Capture.takeDateWithin_spec env body rest
    (min Capture.maxDateWords (rest.length + 1))
  · cases m with
    | zero => rw [htake, ← Option.some.inj (h.symm.trans hread)]
    | succ m =>
      -- a longer phrase has the next word in it
      cases rest with
      | nil => exact absurd (lt_min_iff.mp hm).2 (by simp)
      | cons v vs =>
        rw [List.take_succ_cons] at hread
        have hplain := Capture.plain_of_when hL hread (.inr hbody)
          fun v' hv => hrest v' ((List.take_sublist (m + 1) (v :: vs)).subset hv)
        exact absurd (hplain v List.mem_cons_self) (hnext v vs rfl)
  · exact absurd (h.symm.trans (hnone 0 hpos)) (Option.some_ne_none _)

theorem token_of_reads (hL : ReadsDates env.L) (hw : IsWord w) (hrest : ∀ v ∈ rest, IsWord v)
    (hdash : ¬['@', '-'] <+: w) (htarget : Capture.stripTarget w = none) {m : ℕ}
    {a : Turn E env.When} (hturn : turn env w rest = (m + 1, a)) (hm : m ≤ rest.length)
    (hread : Reads env (w :: rest.take m) a) (hnext : ∀ v vs, rest.drop m = v :: vs → ¬Plain v)
    (d : TaskDraft E env.When) :
    token env (editOf d) w rest = (m, editOf (d.take a)) := by
  generalize htail : rest.take m = tail at hread
  have hone (hnil : tail = []) : m = 0 := by
    have hlen := congrArg List.length (htail.trans hnil)
    rw [List.length_take, min_eq_left hm] at hlen
    exact hlen
  cases hread with
  | stream hb hres =>
    obtain rfl := hone rfl
    rw [token, resolve_of_named hres]
    rfl
  | @context body id hb hres =>
    obtain rfl := hone rfl
    have hnone : stripPrefix ['-'] body = none :=
      if_neg fun hpre => hdash ((List.prefix_cons_inj '@').mpr hpre)
    rw [token, parseContextToken, hnone, resolve_of_named hres]
    rfl
  | @priority body p hb hp hlo hhi =>
    obtain rfl := hone rfl
    have hne : body ≠ ['-'] := by
      rintro rfl
      cases hp
    rw [token, setOrClear, if_neg hne, hp, Option.filter_some, if_pos (by simp [hlo, hhi])]
    rfl
  | @estimate body secs hb hsecs =>
    obtain rfl := hone rfl
    have hsecs := parseDurationS_of_capture hsecs
    have hne : body ≠ ['-'] := by
      rintro rfl
      cases hsecs
    rw [token, setOrClear, if_neg hne, hsecs]
    rfl
  | @planned head tail t hlen ht =>
    have htake : Capture.takeDate env head rest = (m + 1, some t) := by
      rcases htd : Capture.takeDate env head rest with ⟨n, _ | t'⟩
      · simp [turn, splitTag, htd] at hturn
      · have hplan : turn env ('^' :: head) rest = (n, .planned t') := by
          simp [turn, splitTag, htd]
        obtain ⟨rfl, hplanned⟩ := Prod.mk.inj (hplan.symm.trans hturn)
        rw [Turn.planned.inj hplanned]
    show dated env (editOf d) head rest _ = _
    rw [dated, takeDate_of_capture hL hrest htake]
    rfl
  | target hw' ht => rw [htarget] at hw'; cases hw'
  | @due w body t hdue ht =>
    obtain rfl := hone rfl
    obtain ⟨hbind, hne⟩ := Option.filter_eq_some_iff.mp hdue
    have heq := Capture.stripStarred_eq hdue
    have hbody : IsWord body := by
      refine ⟨by simpa using hne, fun c hc => hw.2 c ?_⟩
      rw [heq]
      exact List.mem_append_right _ (List.mem_append_left _ hc)
    have hskip : token env (editOf d) w rest = dateToken env (editOf d) w rest := by
      rw [heq]
      rfl
    have hnone : stripTarget w = none := by
      rw [heq]
      rfl
    have hdue' : stripDue w = some body := by
      rw [stripDue, hbind]
      exact Option.filter_eq_some_iff.mpr ⟨rfl, hne⟩
    rw [hskip, dateToken, hnone, hdue']
    dsimp only
    rw [dated, takeDate_of_when hL hrest hbody ht hnext]
    rfl

/-! ### A line -/

theorem not_plain_of_walk {v : Text} {vs : List Text} (h : (walk env 0 (v :: vs)).1 = []) :
    ¬Plain v := by
  obtain ⟨entry, hturn, -⟩ | ⟨m, t, -, -, hread⟩ := turn_spec env v vs
  · rw [walk_kept hturn] at h
    cases h
  · exact not_plain_of_reads hread

theorem parseFrom_editOf (hL : ReadsDates env.L) {taken : ℕ} (hws : ∀ v ∈ ws, IsWord v)
    (hclean : ∀ v ∈ ws, ¬['@', '-'] <+: v ∧ Capture.stripTarget v = none)
    (hnone : (walk env taken ws).1 = []) (d : TaskDraft E env.When) :
    parseFrom env (editOf d) taken ws =
      editOf ((walk env taken ws).2.foldl TaskDraft.take d) := by
  induction ws generalizing taken d with
  | nil => rfl
  | cons w rest ih =>
    obtain ⟨hw, hrest⟩ := List.forall_mem_cons.mp hws
    obtain ⟨⟨hdash, htarget⟩, hclean⟩ := List.forall_mem_cons.mp hclean
    cases taken with
    | succ taken => exact ih hrest hclean hnone d
    | zero =>
      obtain ⟨entry, hturn, -⟩ | ⟨m, a, hturn, hm, hread⟩ := Capture.turn_spec env w rest
      · rw [Capture.walk_kept hturn] at hnone
        cases hnone
      · rw [Capture.walk_said hturn hread.said] at hnone ⊢
        have hnext : ∀ v vs, rest.drop m = v :: vs → ¬Plain v := by
          intro v vs hdrop
          refine @not_plain_of_walk _ env v vs ?_
          have happend := @Capture.walk_append _ env (rest.take m) (rest.drop m) 0
          rw [List.length_take, min_eq_left hm, Nat.add_zero, List.take_append_drop] at happend
          rw [← hdrop, ← happend]
          exact hnone
        rw [parseFrom, token_of_reads hL hw hrest hdash htarget hturn hm hread hnext d]
        exact ih hrest hclean hnone (d.take a)

theorem walk_of_captured {input : Text} (h : Captured env input) :
    (walk env 0 (words input)).1 = [] := by
  obtain ⟨-, htitle, -⟩ := @parseFrom_spec _ env ⟨.default, [], []⟩ 0 (words input)
  have hsplit := @splits_walk _ env (words input) 0 (Nat.zero_le _)
  have hwords : ∀ k ∈ (walk env 0 (words input)).1, IsWord k := fun k hk =>
    Text.isWord_of_mem_words (hsplit.mem k hk)
  have hspaced : spaced (walk env 0 (words input)).1 = [] := by
    have h1 := h.1
    rw [Capture.parse] at h1
    dsimp only at h1
    rwa [htitle] at h1
  rw [← Text.words_spaced_self hwords, hspaced]
  rfl

theorem parse_eq_editOf (hL : ReadsDates env.L) {input : Text} (h : Captured env input)
    (hclean : ∀ v ∈ words input, ¬['@', '-'] <+: v ∧ Capture.stripTarget v = none) :
    parse env input = editOf (Capture.parse env input).1 := by
  obtain ⟨hdraft, -, -⟩ := @Capture.parseFrom_spec _ env ⟨.default, [], []⟩ 0 (words input)
  have hrun := parseFrom_editOf hL (fun v => Text.isWord_of_mem_words) hclean
    (walk_of_captured h) TaskDraft.default
  rw [parse, Capture.parse]
  dsimp only at hdraft ⊢
  rw [hdraft]
  exact hrun

theorem agrees_of_clean [DecidableEq E] (hL : ReadsDates env.L) {input : Text}
    (h : Captured env input)
    (hclean : ∀ v ∈ words input, ¬['@', '-'] <+: v ∧ Capture.stripTarget v = none) :
    Agrees env input := by
  rw [Agrees, parse_eq_editOf hL h hclean]
  exact ⟨rfl, rfl, sets_editOf _⟩

/-! ### A duration that is shown -/

theorem durationFrom_digits {total : ℕ} {sawUnit : Bool} {num ds : Text}
    (hds : ∀ c ∈ ds, c.isDigit) : Capture.durationFrom total num sawUnit (ds ++ s) =
      Capture.durationFrom total (num ++ ds) sawUnit s := by
  induction ds generalizing num with
  | nil => rw [List.nil_append, List.append_nil]
  | cons c ds ih =>
    obtain ⟨hc, hds⟩ := List.forall_mem_cons.mp hds
    rw [List.cons_append, Capture.durationFrom, if_pos hc, ih hds, List.append_assoc]
    rfl

theorem durationFrom_unit {total n k : ℕ} {sawUnit : Bool} {ds : Text} {c : Char}
    (hds : Numeral.digits ds = some n) (hc : c.isDigit = false)
    (hk : Capture.unitSeconds c = some k) (hpos : 0 < k) (hfit : total + n * k < 2 ^ 64) :
    Capture.durationFrom total [] sawUnit (ds ++ c :: s) =
      Capture.durationFrom (total + n * k) [] true s := by
  have hn : n < 2 ^ 64 := (Nat.le_mul_of_pos_right n hpos).trans_lt (by omega)
  rw [durationFrom_digits (Numeral.digits_eq_some hds).2, Capture.durationFrom, hc,
    if_neg Bool.false_ne_true, List.nil_append, Numeral.unsigned_of_digits hds hn, hk]
  have hmul : u64 (n * k) = some (n * k) := if_pos (by omega)
  have hsum : u64 (total + n * k) = some (total + n * k) := if_pos hfit
  simp only [Option.bind_eq_bind, Option.bind_some, hmul, hsum]

theorem shortDuration_spec (m : ℕ) (hpos : 0 < m) (hfit : 60 * m < 2 ^ 64) :
    Capture.durationFrom 0 [] false (shortDuration (60 * m)) = some (60 * m, [], true) ∧
      (∀ c ∈ shortDuration (60 * m), c.isDigit ∨ c = 'h' ∨ c = 'm') ∧
      ∃ c ∈ shortDuration (60 * m), c = 'h' ∨ c = 'm' := by
  have hhours : 60 * m / 3600 = m / 60 := by omega
  have hmins : 60 * m % 3600 / 60 = m % 60 := by omega
  have hshow (n : ℕ) (c : Char) (hc : c ∈ showNat n) : c.isDigit ∨ c = 'h' ∨ c = 'm' :=
    .inl (Numeral.isDigit_of_mem_showNat hc)
  have hpad (n : ℕ) (c : Char) (hc : c ∈ padded 2 n) : c.isDigit ∨ c = 'h' ∨ c = 'm' :=
    .inl (Numeral.isDigit_of_mem_padded hc)
  unfold shortDuration
  rw [hhours, hmins]
  split
  next r hzero =>
    have hm : m % 60 = m := by omega
    rw [hm]
    refine ⟨?_, ?_, 'm', by simp, .inr rfl⟩
    · rw [durationFrom_unit (Numeral.digits_showNat m) rfl rfl (by decide) (by omega)]
      exact congrArg (fun n => some (n, [], true)) (by omega)
    · exact List.forall_mem_append.mpr
        ⟨hshow m, List.forall_mem_singleton.mpr (.inr (.inr rfl))⟩
  next h hne hzero =>
    refine ⟨?_, ?_, 'h', by simp, .inl rfl⟩
    · rw [durationFrom_unit (Numeral.digits_showNat (m / 60)) rfl rfl (by decide) (by omega)]
      exact congrArg (fun n => some (n, [], true)) (by omega)
    · exact List.forall_mem_append.mpr
        ⟨hshow _, List.forall_mem_singleton.mpr (.inr (.inl rfl))⟩
  next h r hne hne' =>
    refine ⟨?_, ?_, 'h', by simp, .inl rfl⟩
    · rw [durationFrom_unit (Numeral.digits_showNat (m / 60)) rfl rfl (by decide) (by omega),
        durationFrom_unit (Numeral.digits_padded 2 (m % 60)) rfl rfl (by decide) (by omega)]
      exact congrArg (fun n => some (n, [], true)) (by omega)
    · refine List.forall_mem_append.mpr ⟨hshow _, List.forall_mem_cons.mpr ⟨.inr (.inl rfl), ?_⟩⟩
      exact List.forall_mem_append.mpr
        ⟨hpad _, List.forall_mem_singleton.mpr (.inr (.inr rfl))⟩

theorem plain_of_shown {c : Char} (h : c.isDigit ∨ c = 'h' ∨ c = 'm') :
    Casing.IsAscii c ∧ c.toLower = c ∧ Text.isSpace c = false := by
  rcases h with h | rfl | rfl
  · exact ⟨(isAscii_of_isDigit h).1, Text.toLower_of_isDigit h, Text.isSpace_of_isDigit h⟩
  · decide
  · decide

theorem parseDurationS_shortDuration {m : ℕ} (hpos : 0 < m) (hfit : 60 * m < 2 ^ 64) :
    Capture.parseDurationS env (shortDuration (60 * m)) = some (60 * m) := by
  obtain ⟨hread, hchars, c, hc, hunit⟩ := shortDuration_spec m hpos hfit
  generalize shortDuration (60 * m) = s at hread hchars hc
  have htrim : trim s = s := Text.trim_eq_self fun c hc => (plain_of_shown (hchars c hc)).2.2
  have hlower : toLowercase env.u s = s := by
    rw [Casing.toLowercase_ascii fun c hc => (plain_of_shown (hchars c hc)).1]
    exact Text.lower_eq_self fun c hc => (plain_of_shown (hchars c hc)).2.1
  have hnone : unsigned (2 ^ 64) s = none := by
    by_contra hsome
    obtain ⟨n, hn⟩ := Option.ne_none_iff_exists'.mp hsome
    rcases hunit with rfl | rfl
    · exact absurd (plain_of_unsigned hn 'h' hc) (by decide)
    · exact absurd (plain_of_unsigned hn 'm' hc) (by decide)
  unfold Capture.parseDurationS
  dsimp only
  rw [htrim, hlower, if_neg (List.ne_nil_of_mem hc), hnone]
  dsimp only
  rw [hread]
  exact if_pos ⟨rfl, rfl, by omega⟩

variable (env) in
theorem captured_shortDuration {m : ℕ} (hpos : 0 < m) (hfit : 60 * m < 2 ^ 64) :
    words ('~' :: shortDuration (60 * m)) = ['~' :: shortDuration (60 * m)] ∧
      Captured env ('~' :: shortDuration (60 * m)) ∧
      (Capture.parse env ('~' :: shortDuration (60 * m))).1 =
        { TaskDraft.default with estimatedDurationS := some (60 * m) } := by
  obtain ⟨-, hchars, c, hc, -⟩ := shortDuration_spec m hpos hfit
  have hword : IsWord ('~' :: shortDuration (60 * m)) := ⟨List.cons_ne_nil _ _,
    List.forall_mem_cons.mpr ⟨by decide, fun c hc => (plain_of_shown (hchars c hc)).2.2⟩⟩
  have hwords : words ('~' :: shortDuration (60 * m)) = ['~' :: shortDuration (60 * m)] := by
    have h := Text.words_spaced_self (List.forall_mem_singleton.mpr hword)
    rwa [Text.spaced_singleton] at h
  have hturn : turn env ('~' :: shortDuration (60 * m)) [] = (1, .estimate (60 * m)) := by
    simp [turn, Capture.splitTag, List.ne_nil_of_mem hc, parseDurationS_shortDuration hpos hfit]
  have hparse : Capture.parse env ('~' :: shortDuration (60 * m)) =
      ({ TaskDraft.default with estimatedDurationS := some (60 * m) }, []) := by
    rw [Capture.parse, hwords, Capture.parseFrom, hturn]
    rfl
  exact ⟨hwords, ⟨by rw [hparse]; rfl, by rw [hparse]⟩, by rw [hparse]⟩

end

/-- **A line that capture reads to its end is the same edit**, if no word of it is a name behind a
dash, which an edit removes, or a starred target. A duration that a list shows is read by both. -/
theorem agrees_of_captured {E : Type} [DecidableEq E] (env : Env E) (hL : ReadsDates env.L) :
    (∀ input, Captured env input →
      (∀ v ∈ words input, ¬['@', '-'] <+: v ∧ Capture.stripTarget v = none) → Agrees env input) ∧
    ∀ m, 0 < m → 60 * m < 2 ^ 64 →
      Captured env ('~' :: shortDuration (60 * m)) ∧
      (Capture.parse env ('~' :: shortDuration (60 * m))).1.estimatedDurationS = some (60 * m) ∧
      (parse env ('~' :: shortDuration (60 * m))).errors = [] ∧
      (parse env ('~' :: shortDuration (60 * m))).durationS = some (.to_ (60 * m)) := by
  refine ⟨fun input => agrees_of_clean hL, fun m hpos hfit => ?_⟩
  obtain ⟨hwords, hcaptured, hdraft⟩ := captured_shortDuration env hpos hfit
  have hclean : ∀ v ∈ words ('~' :: shortDuration (60 * m)),
      ¬['@', '-'] <+: v ∧ Capture.stripTarget v = none := by
    rw [hwords, List.forall_mem_singleton]
    exact ⟨fun hpre => absurd (List.cons_prefix_cons.mp hpre).1 (by decide), rfl⟩
  have hedit := parse_eq_editOf hL hcaptured hclean
  rw [hdraft] at hedit
  refine ⟨hcaptured, by rw [hdraft], ?_, ?_⟩
  · rw [hedit]
    rfl
  · rw [hedit]
    rfl

/-- At the epoch in UTC, with a context whose name starts with a dash. -/
def dashEnv : Env ℕ := { plainEnv with
  streams := [⟨1, "inbox".toList⟩]
  contexts := [⟨7, "-home".toList⟩, ⟨8, "work".toList⟩] }

theorem agrees_of_captured_work : Agrees dashEnv "#inb @work ^1970-01-02 9am !2 ~1h30m".toList :=
  (agrees_of_captured dashEnv readsDates_plainEnv).1 _ ⟨by rfl, by rfl⟩ (by decide)

theorem not_agrees_dash : Captured dashEnv "@-home".toList ∧
    (Capture.parse dashEnv "@-home".toList).1.contexts = [7] ∧
    (parse dashEnv "@-home".toList).errors = [.unknownContext "home".toList] ∧
    Captured dashEnv "*target:tomorrow*".toList ∧
    (parse dashEnv "*target:tomorrow*".toList).errors = [.notAToken "*target:tomorrow*".toList] ∧
    ¬∀ input, Captured dashEnv input → Agrees dashEnv input := by
  refine ⟨⟨by rfl, by rfl⟩, by rfl, by rfl, ⟨by rfl, by rfl⟩, by rfl, fun h => ?_⟩
  have herrors := (h "@-home".toList ⟨by rfl, by rfl⟩).1
  cases herrors

end Annotate

end Sunrise
