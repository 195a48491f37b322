import Sunrise.Capture.When

/-!
# Capture

One line of what a user types becomes the draft of a task. A word that starts with a sigil is an
annotation, of a date the words after it too as far as they are read; what no annotation is read
from stays in the title, and is reported if it looked like one.

* `parseDurationS`, `takeDate` — what else stands behind a sigil.
-/

namespace Sunrise

namespace Capture

open Casing (Ucd toLowercase)
open Numeral (unsigned)
open Routine (Library)
open Rows (SunriseTime Timestamp)
open Text (IsWord spaced trim words stripPrefix stripSuffix)

/-! ### Names -/

/-- A stream or a context that a name can be resolved to. -/
structure NamedRef (E : Type) where
  id : E
  name : Text

/-- The sigil a name was typed behind. -/
inductive NameKind where
  | stream
  | context

/-- Why an annotation was not applied. -/
inductive Unresolved where
  | unknownStream (typed : Text)
  | ambiguousStream (typed : Text) (candidates : List Text)
  | unknownContext (typed : Text)
  | ambiguousContext (typed : Text) (candidates : List Text)
  | unparseableDate (text : Text)
  | priorityOutOfRange (text : Text)
  | unparseableDuration (text : Text)

def Unresolved.text : Unresolved → Text
  | .unknownStream typed | .ambiguousStream typed _ | .unknownContext typed
  | .ambiguousContext typed _ => typed
  | .unparseableDate text | .priorityOutOfRange text | .unparseableDuration text => text

/-- What a line is read with: the library, the time and its zone, and the names there are. -/
structure Env (E : Type) where
  L : Library
  u : Ucd
  now : Timestamp
  tz : L.Zone
  streams : List (NamedRef E)
  contexts : List (NamedRef E)

section

variable {E : Type} (env : Env E)

abbrev Env.When : Type := SunriseTime env.L.jiff

/-- A date phrase. -/
def Env.when (s : Text) : Option env.When := parseWhenTime env.L env.u s env.now env.tz

/-- A name whatever its case: the first that is the same, or else the only one it starts. -/
def resolveNamed (typed : Text) (candidates : List (NamedRef E)) (kind : NameKind) :
    Except Unresolved E :=
  let lower := toLowercase env.u typed
  match candidates.find? fun c => toLowercase env.u c.name = lower with
  | some found => .ok found.id
  | none =>
    match candidates.filter fun c => lower <+: toLowercase env.u c.name with
    | [only] => .ok only.id
    | [] => .error (match kind with
      | .stream => .unknownStream typed
      | .context => .unknownContext typed)
    | prefixed => .error (match kind with
      | .stream => .ambiguousStream typed (prefixed.map (·.name))
      | .context => .ambiguousContext typed (prefixed.map (·.name)))

/-! ### Durations -/

/-- A number of 64 bits. -/
def u64 (n : ℕ) : Option ℕ := if n < 2 ^ 64 then some n else none

def unitSeconds (c : Char) : Option ℕ :=
  if c = 'h' then some 3600 else if c = 'm' then some 60 else if c = 'd' then some 86400 else none

/-- The rest of a duration: what there is so far, the digits since, and whether a unit was seen. -/
def durationFrom (total : ℕ) (num : Text) (sawUnit : Bool) : Text → Option (ℕ × Text × Bool)
  | [] => some (total, num, sawUnit)
  | c :: s =>
    if c.isDigit then durationFrom total (num ++ [c]) sawUnit s
    else do
      let n ← unsigned (2 ^ 64) num
      let secs ← (unitSeconds c).bind fun k => u64 (n * k)
      durationFrom (← u64 (total + secs)) [] true s

/-- `30m`, `2h`, `90` as minutes, `1h30m`. -/
def parseDurationS (s : Text) : Option ℕ :=
  let s := toLowercase env.u (trim s)
  if s = [] then none
  else
    match unsigned (2 ^ 64) s with
    | some mins => u64 (mins * 60)
    | none => do
      let (total, num, sawUnit) ← durationFrom 0 [] false s
      if sawUnit ∧ num = [] ∧ 0 < total then some total else none

/-! ### Dates -/

def maxDateWords : ℕ := 3

/-- The longest phrase of at most so many words that is read. -/
def takeDateWithin (head : Text) (rest : List Text) : ℕ → ℕ × Option env.When
  | 0 => (1, none)
  | span + 1 =>
    let phrase := trim (spaced (head :: rest.take span))
    match if phrase = [] then none else env.when phrase with
    | some t => (span + 1, some t)
    | none => takeDateWithin head rest span

def takeDate (head : Text) (rest : List Text) : ℕ × Option env.When :=
  takeDateWithin env head rest (min maxDateWords (rest.length + 1))

/-! ### Lines -/

/-- The draft of a task, as far as a line says it. -/
structure TaskDraft (E T : Type) where
  title : Text
  streamId : Option E
  contexts : List E
  priority : Option ℕ
  estimatedDurationS : Option ℕ
  plannedAt : Option T
  targetAt : Option T
  hardDueAt : Option T

def TaskDraft.default {E T : Type} : TaskDraft E T := ⟨[], none, [], none, none, none, none, none⟩

/-- What the words at the front of a line are. -/
inductive Turn (E T : Type) where
  | stream (id : E)
  | context (id : E)
  | priority (p : ℕ)
  | estimate (secs : ℕ)
  | planned (at_ : T)
  | target (at_ : T)
  | due (at_ : T)
  | kept (entry : Option Unresolved)

def splitTag : Text → Option Char × Text
  | [] => (none, [])
  | c :: rest => if c ∈ ['#', '@', '!', '~', '^'] then (some c, rest) else (none, c :: rest)

/-- What stands between a name and a star, if anything does. -/
def stripStarred (name w : Text) : Option Text :=
  ((stripPrefix name w).bind (stripSuffix ['*'])).filter (· ≠ [])

def stripDue : Text → Option Text := stripStarred "*due:".toList

def stripTarget : Text → Option Text := stripStarred "*target:".toList

/-- What the words at the front of a line are, and how many. -/
def turn (w : Text) (rest : List Text) : ℕ × Turn E env.When :=
  let (tag, body) := splitTag w
  if tag = some '#' ∧ body ≠ [] then
    (1, match resolveNamed env body env.streams .stream with
      | .ok id => .stream id
      | .error e => .kept (some e))
  else if tag = some '@' ∧ body ≠ [] then
    (1, match resolveNamed env body env.contexts .context with
      | .ok id => .context id
      | .error e => .kept (some e))
  else if tag = some '!' ∧ body ≠ [] then
    (1, match (unsigned 256 body).filter fun p => 1 ≤ p ∧ p ≤ 5 with
      | some p => .priority p
      | none => .kept (some (.priorityOutOfRange body)))
  else if tag = some '~' ∧ body ≠ [] then
    (1, match parseDurationS env body with
      | some secs => .estimate secs
      | none => .kept (some (.unparseableDuration body)))
  else if tag = some '^' then
    match takeDate env body rest with
    | (consumed, some t) => (consumed, .planned t)
    | (consumed, none) =>
      (consumed, .kept (some (.unparseableDate (spaced ((w :: rest).take consumed)))))
  else
    match stripDue w with
    | some body =>
      (1, match env.when body with
        | some t => .due t
        | none => .kept (some (.unparseableDate body)))
    | none =>
      match stripTarget w with
      | some body =>
        (1, match env.when body with
          | some t => .target t
          | none => .kept (some (.unparseableDate body)))
      | none => (1, .kept none)

/-- A line so far: the draft, what was not applied, and the words of the title. -/
structure State (E T : Type) where
  draft : TaskDraft E T
  unresolved : List Unresolved
  titleWords : List Text

variable {T : Type}

def TaskDraft.take (d : TaskDraft E T) : Turn E T → TaskDraft E T
  | .stream id => { d with streamId := some id }
  | .context id => { d with contexts := d.contexts ++ [id] }
  | .priority p => { d with priority := some p }
  | .estimate secs => { d with estimatedDurationS := some secs }
  | .planned t => { d with plannedAt := some t }
  | .target t => { d with targetAt := some t }
  | .due t => { d with hardDueAt := some t }
  | .kept _ => d

def State.take (st : State E T) (ws : List Text) : Turn E T → State E T
  | .kept entry => ⟨st.draft, st.unresolved ++ entry.toList, st.titleWords ++ ws⟩
  | t => { st with draft := st.draft.take t }

/-- The rest of a line, of which so many words were taken with those before. -/
def parseFrom (st : State E env.When) : ℕ → List Text → State E env.When
  | _, [] => st
  | taken + 1, _ :: rest => parseFrom st taken rest
  | 0, w :: rest =>
    let (consumed, t) := turn env w rest
    parseFrom (st.take ((w :: rest).take consumed) t) (consumed - 1) rest

/-- A line as a draft, and what of it was not applied. -/
def parse (input : Text) : TaskDraft E env.When × List Unresolved :=
  let st := parseFrom env ⟨.default, [], []⟩ 0 (words input)
  ({ st.draft with title := spaced st.titleWords }, st.unresolved)

end

end Capture

end Sunrise
