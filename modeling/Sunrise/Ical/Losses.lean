import Sunrise.Ical.Document

/-!
# What reading a document loses

A reader keeps one event at a time, closes components without looking at their names, and
lets the last of two lines for one property stand. What it loses is read off a history that
goes along with it: which line each event was begun by, which events a report names, and what
became of each property of an event. Whether anything is lost without a report is then a
question about the shape of the document alone.

* `Line`, `lineOf` — the lines of a document by what they do.
* `nothingLost_iff` — they are the only ones.
-/

namespace Sunrise

variable {ls : List Line} {i : ℕ}

namespace Ical

open Text

/-! ### Lines -/

inductive Line where
  | blank
  /-- A `BEGIN`. -/
  | opening (comp : Text)
  /-- An `END`. -/
  | closing (comp : Text)
  | property (name params value : Text)
deriving DecidableEq, Repr

def lineOf (raw : Text) : Line :=
  let line := trimEnd raw
  if line = [] then .blank
  else
    let parts := splitProperty line
    let name := upper parts.1
    if name = "BEGIN".toList then .opening (upper (trim parts.2.2))
    else if name = "END".toList then .closing (upper (trim parts.2.2))
    else .property name parts.2.1 parts.2.2

def linesOf (input : Text) : List Line := (unfoldLines input).map lineOf

variable {J : Jiff}

def Reader.follow (r : Reader J) : Line → Reader J
  | .blank => r
  | .opening comp => r.beginComponent comp
  | .closing comp => r.endComponent comp
  | .property name params value => r.property name params value

open Reader

theorem readLine_eq_follow (r : Reader J) (raw : Text) : r.readLine raw = r.follow
    (lineOf raw) := by
  unfold readLine lineOf
  dsimp only
  split
  · rfl
  · split
    · rfl
    · split
      · rfl
      · rfl

def readerOf (J : Jiff) (ls : List Line) : Reader J := ls.foldl follow {}

theorem out_of_parse {input : Text} {cal : Calendar J} (h : parse J input = .ok cal) :
    (readerOf J (linesOf input)).out = cal := by
  have hfold : (unfoldLines input).foldl readLine ({} : Reader J) =
      readerOf J (linesOf input) := by
    unfold readerOf linesOf
    rw [List.foldl_map]
    exact congrArg (fun f => (unfoldLines input).foldl f ({} : Reader J))
      (funext fun r => funext fun raw => readLine_eq_follow r raw)
  unfold parse at h
  dsimp only at h
  rw [hfold] at h
  split at h
  · exact Except.ok.inj h
  · simp at h

/-! ### The shape of a document -/

/-- What is open after some lines of a document. -/
structure Shape where
  lines : ℕ := 0
  /-- The components that are open, each with the line it began at, the innermost first. -/
  stack : List (Text × ℕ) := []
  slot : Option ℕ := none
  /-- The lines of the events that are in no component that is not read. -/
  begun : List ℕ := []

/-- The names of the open components. -/
def Shape.names (s : Shape) : List Text := s.stack.map Prod.fst

section

local instance lawfulBEq_text : LawfulBEq Text := inferInstance

/-- One line more. An event is read where it stands directly in a calendar, up to the next
line that ends an event. -/
def Shape.step (s : Shape) : Line → Shape
  | .opening comp =>
    ⟨s.lines + 1, (comp, s.lines) :: s.stack,
      if comp = "VEVENT".toList ∧ s.names.head? = some "VCALENDAR".toList then some s.lines
      else s.slot,
      if comp = "VEVENT".toList ∧ ∀ c ∈ s.names, c ∈ readComponents then s.begun ++ [s.lines]
      else s.begun⟩
  | .closing comp =>
    ⟨s.lines + 1, s.stack.tail, if comp = "VEVENT".toList then none else s.slot, s.begun⟩
  | _ => { s with lines := s.lines + 1 }

end

def shapeOf (ls : List Line) : Shape := ls.foldl Shape.step {}

/-- The event whose component is the innermost one, where it is in no component that is not
read. -/
def Shape.innermost (s : Shape) : Option ℕ :=
  match s.stack with
  | (comp, i) :: _ => if comp = "VEVENT".toList ∧ i ∈ s.begun then some i else none
  | [] => none

def Shape.reads (s : Shape) (i : ℕ) : Line → List (Text × Text × Text)
  | .property name params value =>
    if s.slot = some i ∧ insideUnread s.names = false then [(name, params, value)] else []
  | _ => []

/-- The properties that are read into the event of a line. -/
def readFrom (i : ℕ) : Shape → List Line → List (Text × Text × Text)
  | _, [] => []
  | s, l :: ls => s.reads i l ++ readFrom i (s.step l) ls

/-- The properties of a document that are read into the event of a line. -/
def readInto (ls : List Line) (i : ℕ) : List (Text × Text × Text) := readFrom i {} ls

/-- The event of a line ends. -/
def Closed (ls : List Line) (i : ℕ) : Prop :=
  ∃ pre rest, ls = pre ++ .closing "VEVENT".toList :: rest ∧ (shapeOf pre).slot = some i

/-! ### What a property says -/

/-- The properties an event carries. -/
inductive Carried where
  | uid | summary | description | location | duration | rrule | dtstart | dtend
deriving DecidableEq, Repr

def carriedOf (name : Text) : Option Carried :=
  if name = "UID".toList then some .uid
  else if name = "SUMMARY".toList then some .summary
  else if name = "DESCRIPTION".toList then some .description
  else if name = "LOCATION".toList then some .location
  else if name = "DURATION".toList then some .duration
  else if name = "RRULE".toList then some .rrule
  else if name = "DTSTART".toList then some .dtstart
  else if name = "DTEND".toList then some .dtend
  else none

/-- The value of a property. -/
inductive Said (J : Jiff) where
  | text (t : Text)
  | time (t : ICalTime J)

/-- What a line says its property is. -/
def Carried.tells (J : Jiff) (f : Carried) (params value : Text) : Option (Said J) :=
  match f with
  | .uid | .summary | .description | .location => some (.text (unescape value))
  | .duration | .rrule => some (.text (trim value))
  | .dtstart | .dtend => (parseTime J params value).toOption.map fun t => .time t.1

def ICalEvent.field (ev : ICalEvent J) : Carried → Option (Said J)
  | .uid => some (.text ev.uid)
  | .summary => ev.summary.map .text
  | .description => ev.description.map .text
  | .location => ev.location.map .text
  | .duration => ev.duration.map .text
  | .rrule => ev.rrule.map .text
  | .dtstart => ev.dtstart.map .time
  | .dtend => ev.dtend.map .time

/-- What the last of some lines says a property is. -/
def lastSaid (J : Jiff) (f : Carried) (read : List (Text × Text × Text)) : Option (Said J) :=
  (read.filterMap fun p => if carriedOf p.1 = some f then f.tells J p.2.1 p.2.2 else none).getLast?

def reports (J : Jiff) (name params value : Text) : Bool :=
  !((({} : ICalEvent J).readProperty name params value).2).isEmpty

/-! ### What became of it -/

/-- A property that was met in the component of an event. -/
structure Met where
  vevent : ℕ
  name : Text
  params : Text
  value : Text
  reported : Bool

structure History (J : Jiff) where
  reader : Reader J := {}
  shape : Shape := {}
  /-- The events it made, each with the line it was begun at. -/
  made : List (ℕ × ICalEvent J) := []
  /-- The lines of the events a report was made for as they ended. -/
  named : List ℕ := []
  /-- The properties it met in the components of events. -/
  met : List Met := []

/-- One line more: what the reader made of it belongs to the event that was being read, and a
property to the event it stands in. -/
def History.step (h : History J) (l : Line) : History J :=
  let after := h.reader.follow l
  let reported := decide (h.reader.out.notices.length < after.out.notices.length)
  { reader := after
    shape := h.shape.step l
    made := match l, h.shape.slot with
      | .closing _, some i =>
        h.made ++ (after.out.events.drop h.reader.out.events.length).map fun ev => (i, ev)
      | _, _ => h.made
    named := match l, h.shape.slot with
      | .closing _, some i => if reported then h.named ++ [i] else h.named
      | _, _ => h.named
    met := match l, h.shape.innermost with
      | .property name params value, some i => h.met ++ [⟨i, name, params, value, reported⟩]
      | _, _ => h.met }

def historyOf (J : Jiff) (ls : List Line) : History J := ls.foldl History.step {}

def ICalEvent.Carries (ev : ICalEvent J) (name params value : Text) : Prop :=
  ∃ f x, carriedOf name = some f ∧ f.tells J params value = some x ∧ ev.field f = some x

/-- Nothing was lost without a report: every event that is in no component that was skipped is
an event of the result or was named by a report, and so each of its properties but the
bookkeeping ones is carried by its event or was reported. -/
def NothingLost (cal : Calendar J) (h : History J) : Prop :=
  (∀ i ∈ h.shape.begun, (∃ ev ∈ cal.events, (i, ev) ∈ h.made) ∨ i ∈ h.named) ∧
    ∀ m ∈ h.met, m.name ∉ bookkeeping →
      (∃ ev ∈ cal.events, (m.vevent, ev) ∈ h.made ∧ ev.Carries m.name m.params m.value) ∨
        m.reported ∨ m.vevent ∈ h.named

/-- The properties that were read give an identifier. -/
def Identified (J : Jiff) (read : List (Text × Text × Text)) : Prop :=
  ∃ uid, lastSaid J .uid read = some (.text uid) ∧ uid ≠ []

/-- The shape of documents of which nothing is lost. Every event ends before another begins.
Each of its properties, where it has an identifier, says what the last line for that property
says that is read into it, or is of a kind that is reported and stands where an event is being
read. -/
def WellShaped (J : Jiff) (ls : List Line) : Prop :=
  (∀ i ∈ (shapeOf ls).begun, Closed ls i) ∧
    ∀ pre name params value rest i, ls = pre ++ .property name params value :: rest →
      (shapeOf pre).innermost = some i → name ∉ bookkeeping → Identified J (readInto ls i) →
      (∃ f x, carriedOf name = some f ∧ f.tells J params value = some x ∧
          lastSaid J f (readInto ls i) = some x) ∨
        (reports J name params value ∧ (shapeOf pre).slot.isSome)

/-! ### One line more -/

@[simp] theorem shapeOf_concat (ls : List Line) (l : Line) :
    shapeOf (ls ++ [l]) = (shapeOf ls).step l := List.foldl_append

@[simp] theorem readerOf_concat (ls : List Line) (l : Line) :
    readerOf J (ls ++ [l]) = (readerOf J ls).follow l := List.foldl_append

@[simp] theorem historyOf_concat (ls : List Line) (l : Line) :
    historyOf J (ls ++ [l]) = (historyOf J ls).step l := List.foldl_append

theorem exists_split_concat {α : Type*} {ls : List α} {l x : α} {P : List α → Prop} :
    (∃ pre rest, ls ++ [l] = pre ++ x :: rest ∧ P pre) ↔
      (∃ pre rest, ls = pre ++ x :: rest ∧ P pre) ∨ (l = x ∧ P ls) := by
  constructor
  · rintro ⟨pre, rest, heq, hP⟩
    rcases List.eq_nil_or_concat' rest with rfl | ⟨rest', y, rfl⟩
    · obtain ⟨rfl, hx⟩ := List.append_inj' heq rfl
      exact .inr ⟨(List.cons.inj hx).1, hP⟩
    · rw [← List.cons_append, ← List.append_assoc] at heq
      obtain ⟨rfl, -⟩ := List.append_inj' heq rfl
      exact .inl ⟨pre, rest', rfl, hP⟩
  · rintro (⟨pre, rest, rfl, hP⟩ | ⟨rfl, hP⟩)
    · exact ⟨pre, rest ++ [l], by rw [List.append_assoc, List.cons_append], hP⟩
    · exact ⟨ls, [], rfl, hP⟩

theorem closed_concat {l : Line} :
    Closed (ls ++ [l]) i ↔
      Closed ls i ∨ (l = .closing "VEVENT".toList ∧ (shapeOf ls).slot = some i) :=
  exists_split_concat (P := fun pre => (shapeOf pre).slot = some i)

theorem readInto_concat (ls : List Line) (l : Line) (i : ℕ) :
    readInto (ls ++ [l]) i = readInto ls i ++ (shapeOf ls).reads i l := by
  have key : ∀ (ls : List Line) (s : Shape),
      readFrom i s (ls ++ [l]) = readFrom i s ls ++ (ls.foldl Shape.step s).reads i l := by
    intro ls
    induction ls with
    | nil => simp [readFrom]
    | cons l' ls ih =>
      intro s
      rw [List.cons_append, readFrom, readFrom, ih, List.append_assoc]
      rfl
  exact key ls {}

theorem reads_eq_nil {s : Shape} (h : s.slot ≠ some i) (l : Line) : s.reads i l = [] := by
  unfold Shape.reads
  split
  · exact if_neg fun hc => h hc.1
  · rfl

@[simp] theorem lines_shapeOf (ls : List Line) : (shapeOf ls).lines = ls.length := by
  induction ls using List.reverseRecOn with
  | nil => rfl
  | append_singleton ls l ih =>
    rw [shapeOf_concat, List.length_append, List.length_singleton, ← ih]
    cases l <;> rfl

theorem slot_lt (h : (shapeOf ls).slot = some i) : i < ls.length := by
  induction ls using List.reverseRecOn with
  | nil => simp [shapeOf] at h
  | append_singleton ls l ih =>
    rw [shapeOf_concat] at h
    rw [List.length_append, List.length_singleton]
    cases l with
    | opening comp =>
      simp only [Shape.step] at h
      split at h
      · rw [← Option.some.inj h, lines_shapeOf]
        omega
      · have := ih h
        omega
    | closing comp =>
      simp only [Shape.step] at h
      split at h
      · simp at h
      · have := ih h
        omega
    | blank =>
      have := ih h
      omega
    | property name params value =>
      have := ih h
      omega

theorem slot_ne_of_closed (h : Closed ls i) :
    i < ls.length ∧ (shapeOf ls).slot ≠ some i := by
  induction ls using List.reverseRecOn with
  | nil =>
    obtain ⟨pre, rest, heq, -⟩ := h
    simp at heq
  | append_singleton ls l ih =>
    rw [shapeOf_concat, List.length_append, List.length_singleton]
    rcases closed_concat.mp h with h | ⟨rfl, hslot⟩
    · obtain ⟨hlt, hne⟩ := ih h
      refine ⟨by omega, ?_⟩
      cases l with
      | opening comp =>
        simp only [Shape.step]
        split
        · rw [lines_shapeOf]
          intro heq
          have := Option.some.inj heq
          omega
        · exact hne
      | closing comp =>
        simp only [Shape.step]
        split
        · simp
        · exact hne
      | blank => exact hne
      | property name params value => exact hne
    · have := slot_lt hslot
      exact ⟨by omega, by simp [Shape.step]⟩

theorem readInto_closed (h : Closed ls i) (l : Line) :
    readInto (ls ++ [l]) i = readInto ls i := by
  rw [readInto_concat, reads_eq_nil (slot_ne_of_closed h).2, List.append_nil]

theorem readInto_eq_nil (h : ls.length ≤ i) : readInto ls i = [] := by
  induction ls using List.reverseRecOn with
  | nil => rfl
  | append_singleton ls l ih =>
    rw [List.length_append, List.length_singleton] at h
    rw [readInto_concat, ih (by omega), reads_eq_nil, List.append_nil]
    intro hs
    have := slot_lt hs
    omega

/-! ### What the reader does at a line -/

namespace Reader

theorem beginComponent_spec (r : Reader J) (comp : Text) :
    (r.beginComponent comp).stack = comp :: r.stack ∧
      (r.beginComponent comp).out.events = r.out.events ∧
      (r.beginComponent comp).current =
        if comp = "VEVENT".toList ∧ r.stack.head? = some "VCALENDAR".toList then some {}
        else r.current := by
  unfold beginComponent
  dsimp only
  have hsaw : ∀ q : Reader J, q.stack = r.stack → q.out = r.out → q.current = r.current →
      (let opened :=
        if comp = "VEVENT".toList ∧ q.stack.head? = some "VCALENDAR".toList then
          { q with current := some {} }
        else if comp ∉ readComponents ∧ insideUnread q.stack = false then
          q.report [⟨.unsupportedComponent, q.current.bind (·.named), unsupported comp⟩]
        else q
       comp :: opened.stack = comp :: r.stack ∧ opened.out.events = r.out.events ∧
        opened.current = if comp = "VEVENT".toList ∧ r.stack.head? = some "VCALENDAR".toList then
          some {} else r.current) := by
    intro q hs ho hc
    dsimp only
    rw [hs]
    split
    · exact ⟨rfl, congrArg Calendar.events ho, rfl⟩
    · have hevents : q.out.events = r.out.events := by rw [ho]
      split
      · exact ⟨congrArg (comp :: ·) hs, hevents, hc⟩
      · exact ⟨congrArg (comp :: ·) hs, hevents, hc⟩
  split
  · exact hsaw { r with sawCalendar := true } rfl rfl rfl
  · exact hsaw r rfl rfl rfl

theorem endComponent_spec (r : Reader J) (comp : Text) :
    (r.endComponent comp).stack = r.stack.tail ∧
      (r.endComponent comp).current = if comp = "VEVENT".toList then none else r.current := by
  unfold endComponent
  dsimp only
  split
  · split
    · split
      · exact ⟨rfl, rfl⟩
      · exact ⟨rfl, rfl⟩
    next h => exact ⟨rfl, h⟩
  · exact ⟨rfl, rfl⟩

theorem out_endComponent (r : Reader J) (comp : Text) :
    (r.endComponent comp).out =
      match (if comp = "VEVENT".toList then r.current else none) with
      | some ev =>
        if ev.uid = [] then { r.out with notices := r.out.notices ++ [⟨.skipped, none, noUid⟩] }
        else { r.out with events := r.out.events ++ [ev] }
      | none => r.out := by
  unfold endComponent
  dsimp only
  split
  · cases r.current with
    | none => rfl
    | some ev =>
      dsimp only
      split
      · rfl
      · rfl
  · rfl

theorem property_spec (r : Reader J) (name params value : Text) :
    (r.property name params value).stack = r.stack ∧
      (r.property name params value).out.events = r.out.events ∧
      (r.property name params value).current =
        (if insideUnread r.stack then r.current
        else r.current.map fun ev => (ev.readProperty name params value).1) ∧
      (r.property name params value).out.notices = r.out.notices ++
        (if insideUnread r.stack then []
        else (r.current.map fun ev => (ev.readProperty name params value).2).getD []) := by
  unfold property
  split
  · exact ⟨rfl, rfl, rfl, (List.append_nil _).symm⟩
  · cases hc : r.current with
    | none => exact ⟨rfl, rfl, hc, (List.append_nil _).symm⟩
    | some ev => exact ⟨rfl, rfl, rfl, rfl⟩

end Reader

/-! ### The reader and the shape -/

def eventOf (J : Jiff) (read : List (Text × Text × Text)) : ICalEvent J :=
  read.foldl (fun ev p => (ev.readProperty p.1 p.2.1 p.2.2).1) {}

theorem stack_readerOf (ls : List Line) : (readerOf J ls).stack = (shapeOf ls).names := by
  induction ls using List.reverseRecOn with
  | nil => rfl
  | append_singleton ls l ih =>
    rw [readerOf_concat, shapeOf_concat]
    cases l with
    | blank => exact ih
    | opening comp =>
      rw [follow, (beginComponent_spec _ _).1, ih]
      rfl
    | closing comp =>
      rw [follow, (endComponent_spec _ _).1, ih]
      exact (List.map_tail).symm
    | property name params value =>
      rw [follow, (property_spec _ _ _ _).1]
      exact ih

/-- **The reader reads the event of the shape**, and has read into it what stands there. -/
theorem current_readerOf (ls : List Line) :
    (readerOf J ls).current = (shapeOf ls).slot.map fun i => eventOf J (readInto ls i) := by
  induction ls using List.reverseRecOn with
  | nil => rfl
  | append_singleton ls l ih =>
    have hkeep : (∀ i, (shapeOf ls).reads i l = []) →
        (shapeOf ls).slot.map (fun i => eventOf J (readInto (ls ++ [l]) i)) =
          (readerOf J ls).current := by
      intro h
      rw [ih]
      exact congrArg (fun f => (shapeOf ls).slot.map f) (funext fun i => by
        rw [readInto_concat, h, List.append_nil])
    rw [readerOf_concat, shapeOf_concat]
    cases l with
    | blank => exact (hkeep fun i => rfl).symm
    | opening comp =>
      rw [follow, (beginComponent_spec _ _).2.2, stack_readerOf]
      simp only [Shape.step]
      split
      · rw [Option.map_some, lines_shapeOf, readInto_concat, readInto_eq_nil le_rfl]
        rfl
      · exact (hkeep fun i => rfl).symm
    | closing comp =>
      rw [follow, (endComponent_spec _ _).2]
      simp only [Shape.step]
      split
      · rfl
      · exact (hkeep fun i => rfl).symm
    | property name params value =>
      rw [follow, (property_spec _ _ _ _).2.2.1, stack_readerOf]
      split
      next hin =>
        exact (hkeep fun i => if_neg fun h => by simp [hin] at h).symm
      next hin =>
        rw [ih, Option.map_map]
        show _ = (shapeOf ls).slot.map _
        cases hs : (shapeOf ls).slot with
        | none => rfl
        | some i =>
          have hreads : (shapeOf ls).reads i (.property name params value) =
              [(name, params, value)] := if_pos ⟨hs, by simpa using hin⟩
          rw [Option.map_some, Option.map_some, readInto_concat, hreads]
          unfold eventOf
          rw [List.foldl_append]
          rfl

/-! ### The history -/

theorem shape_historyOf (ls : List Line) : (historyOf J ls).shape = shapeOf ls := by
  induction ls using List.reverseRecOn with
  | nil => rfl
  | append_singleton ls l ih =>
    rw [historyOf_concat, shapeOf_concat, ← ih]
    rfl

theorem reader_historyOf (ls : List Line) : (historyOf J ls).reader = readerOf J ls := by
  induction ls using List.reverseRecOn with
  | nil => rfl
  | append_singleton ls l ih =>
    rw [historyOf_concat, readerOf_concat, ← ih]
    rfl

def ending (ls : List Line) (l : Line) : Option ℕ :=
  if l = .closing "VEVENT".toList then (shapeOf ls).slot else none

theorem closed_concat_iff {l : Line} :
    Closed (ls ++ [l]) i ↔ Closed ls i ∨ ending ls l = some i := by
  rw [closed_concat]
  unfold ending
  split
  next h => exact or_congr_right ⟨fun h' => h'.2, fun h' => ⟨h, h'⟩⟩
  next h => exact or_congr_right ⟨fun h' => absurd h'.1 h, fun h' => by simp at h'⟩

theorem ending_eq_some {l : Line} (h : ending ls l = some i) :
    l = .closing "VEVENT".toList ∧ (shapeOf ls).slot = some i := by
  unfold ending at h
  split at h
  next hl => exact ⟨hl, h⟩
  next => simp at h

theorem readInto_ending {l : Line} (h : ending ls l = some i) :
    readInto (ls ++ [l]) i = readInto ls i := by
  rw [readInto_concat, (ending_eq_some h).1]
  exact List.append_nil _

def madeAt (J : Jiff) (ls : List Line) (l : Line) : List (ℕ × ICalEvent J) :=
  match ending ls l with
  | some i =>
    if (eventOf J (readInto ls i)).uid = [] then [] else [(i, eventOf J (readInto ls i))]
  | none => []

theorem mem_madeAt {l : Line} {ev : ICalEvent J} :
    (i, ev) ∈ madeAt J ls l ↔
      ending ls l = some i ∧ ev = eventOf J (readInto ls i) ∧ ev.uid ≠ [] := by
  unfold madeAt
  cases ending ls l with
  | none => simp
  | some j =>
    dsimp only
    split
    next hu =>
      constructor
      · intro h
        simp at h
      · rintro ⟨hj, rfl, hne⟩
        rw [Option.some.inj hj] at hu
        exact absurd hu hne
    next hu =>
      rw [List.mem_singleton, Prod.mk.injEq]
      constructor
      · rintro ⟨rfl, rfl⟩
        exact ⟨rfl, rfl, hu⟩
      · rintro ⟨hj, rfl, -⟩
        rw [Option.some.inj hj]
        exact ⟨rfl, rfl⟩

theorem out_closing (ls : List Line) (comp : Text) :
    ((readerOf J ls).follow (.closing comp)).out =
      match ending ls (.closing comp) with
      | some i =>
        if (eventOf J (readInto ls i)).uid = [] then
          { (readerOf J ls).out with
            notices := (readerOf J ls).out.notices ++ [⟨.skipped, none, noUid⟩] }
        else
          { (readerOf J ls).out with
            events := (readerOf J ls).out.events ++ [eventOf J (readInto ls i)] }
      | none => (readerOf J ls).out := by
  rw [follow, out_endComponent, current_readerOf]
  unfold ending
  by_cases hcomp : comp = "VEVENT".toList
  · rw [if_pos hcomp, if_pos (by rw [hcomp])]
    cases (shapeOf ls).slot with
    | none => rfl
    | some i => rfl
  · rw [if_neg hcomp, if_neg fun h => hcomp (Line.closing.inj h)]

theorem events_follow (ls : List Line) (l : Line) :
    ((readerOf J ls).follow l).out.events =
      (readerOf J ls).out.events ++ (madeAt J ls l).map Prod.snd := by
  cases l with
  | blank => exact (List.append_nil _).symm
  | opening comp =>
    rw [follow, (beginComponent_spec _ _).2.1]
    exact (List.append_nil _).symm
  | property name params value =>
    rw [follow, (property_spec _ _ _ _).2.1]
    exact (List.append_nil _).symm
  | closing comp =>
    rw [out_closing]
    unfold madeAt
    cases ending ls (.closing comp) with
    | none => exact (List.append_nil _).symm
    | some i =>
      dsimp only
      split
      · exact (List.append_nil _).symm
      · rfl

theorem made_concat (ls : List Line) (l : Line) :
    (historyOf J (ls ++ [l])).made = (historyOf J ls).made ++ madeAt J ls l := by
  rw [historyOf_concat]
  unfold History.step
  rw [reader_historyOf, shape_historyOf]
  dsimp only
  rw [events_follow, List.drop_left]
  cases l with
  | closing comp =>
    cases hend : ending ls (.closing comp) with
    | none =>
      have hnil : madeAt J ls (.closing comp) = [] := by
        unfold madeAt
        rw [hend]
      rw [hnil]
      cases (shapeOf ls).slot <;> simp
    | some i =>
      rw [(ending_eq_some hend).2]
      unfold madeAt
      rw [hend]
      dsimp only
      split
      · rfl
      · rfl
  | _ => exact (List.append_nil _).symm

theorem map_snd_made (ls : List Line) :
    (historyOf J ls).made.map Prod.snd = (readerOf J ls).out.events := by
  induction ls using List.reverseRecOn with
  | nil => rfl
  | append_singleton ls l ih =>
    rw [made_concat, readerOf_concat, events_follow, List.map_append, ih]

theorem mem_iff_closed {α : Type*} {a : α} {P : List (Text × Text × Text) → Prop}
    {f : List Line → List α} {g : List Line → Line → List α} (hnil : f [] = [])
    (hconcat : ∀ ls l, f (ls ++ [l]) = f ls ++ g ls l)
    (hg : ∀ ls l, a ∈ g ls l ↔ ending ls l = some i ∧ P (readInto ls i)) (ls : List Line) :
    a ∈ f ls ↔ Closed ls i ∧ P (readInto ls i) := by
  induction ls using List.reverseRecOn with
  | nil =>
    constructor
    · intro h
      simp [hnil] at h
    · rintro ⟨⟨pre, rest, heq, -⟩, -⟩
      simp at heq
  | append_singleton ls l ih =>
    rw [hconcat, List.mem_append, ih, closed_concat_iff, or_and_right, hg]
    refine or_congr (and_congr_right fun h => ?_) (and_congr_right fun h => ?_)
    · rw [readInto_closed h]
    · rw [readInto_ending h]

/-- **The events that are made are those that end with an identifier.** -/
theorem mem_made (ls : List Line) (i : ℕ) (ev : ICalEvent J) :
    (i, ev) ∈ (historyOf J ls).made ↔
      Closed ls i ∧ ev = eventOf J (readInto ls i) ∧ ev.uid ≠ [] :=
  mem_iff_closed (f := fun ls => (historyOf J ls).made)
    (P := fun read => ev = eventOf J read ∧ ev.uid ≠ []) rfl made_concat (fun _ _ => mem_madeAt) ls

def namedAt (J : Jiff) (ls : List Line) (l : Line) : List ℕ :=
  match ending ls l with
  | some i => if (eventOf J (readInto ls i)).uid = [] then [i] else []
  | none => []

theorem named_concat (ls : List Line) (l : Line) :
    (historyOf J (ls ++ [l])).named = (historyOf J ls).named ++ namedAt J ls l := by
  rw [historyOf_concat]
  unfold History.step
  rw [reader_historyOf, shape_historyOf]
  dsimp only
  cases l with
  | closing comp =>
    rw [out_closing]
    unfold namedAt
    cases hend : ending ls (.closing comp) with
    | none => cases (shapeOf ls).slot <;> simp
    | some i =>
      rw [(ending_eq_some hend).2]
      by_cases hu : (eventOf J (readInto ls i)).uid = []
      · simp [hu]
      · simp [hu]
  | _ => exact (List.append_nil _).symm

theorem mem_namedAt {l : Line} :
    i ∈ namedAt J ls l ↔ ending ls l = some i ∧ (eventOf J (readInto ls i)).uid = [] := by
  unfold namedAt
  cases ending ls l with
  | none => simp
  | some j =>
    dsimp only
    split
    next hu =>
      rw [List.mem_singleton]
      constructor
      · rintro rfl
        exact ⟨rfl, hu⟩
      · exact fun h => (Option.some.inj h.1).symm
    next hu =>
      constructor
      · intro h
        simp at h
      · rintro ⟨hj, hu'⟩
        rw [← Option.some.inj hj] at hu'
        exact absurd hu' hu

theorem mem_named (ls : List Line) (i : ℕ) :
    i ∈ (historyOf J ls).named ↔ Closed ls i ∧ (eventOf J (readInto ls i)).uid = [] :=
  mem_iff_closed (f := fun ls => (historyOf J ls).named)
    (P := fun read => (eventOf J read).uid = []) rfl named_concat (fun _ _ => mem_namedAt) ls

/-! ### Properties -/

theorem isEmpty_readTime (ev ev' : ICalEvent J) (name params value : Text)
    (set set' : ICalTime J → ICalEvent J) :
    (ev.readTime name params value set).2.isEmpty =
      (ev'.readTime name params value set').2.isEmpty := by
  unfold ICalEvent.readTime
  cases parseTime J params value with
  | error why => rfl
  | ok x =>
    obtain ⟨t, zone⟩ := x
    cases zone with
    | none => rfl
    | some zone => rfl

theorem isEmpty_readProperty (ev : ICalEvent J) (name params value : Text) :
    (ev.readProperty name params value).2.isEmpty = !reports J name params value := by
  unfold reports
  rw [Bool.not_not]
  unfold ICalEvent.readProperty
  -- a time is the only property that may or may not be reported
  split_ifs <;> first
    | exact isEmpty_readTime _ _ _ _ _ _ _
    | rfl

theorem innermost_eq_some {s : Shape} (h : s.innermost = some i) :
    insideUnread s.names = false ∧ i ∈ s.begun := by
  unfold Shape.innermost at h
  split at h
  next comp j rest hs =>
    split at h
    next hc =>
      refine ⟨?_, Option.some.inj h ▸ hc.2⟩
      unfold Shape.names
      rw [hs, hc.1]
      simp [insideUnread, readComponents]
    next => simp at h
  next => simp at h

theorem reported_property (h : (shapeOf ls).innermost = some i)
    (name params value : Text) :
    decide ((readerOf J ls).out.notices.length <
        ((readerOf J ls).follow (.property name params value)).out.notices.length) =
      (reports J name params value && (shapeOf ls).slot.isSome) := by
  rw [follow, (property_spec _ _ _ _).2.2.2, stack_readerOf, current_readerOf,
    if_neg (by rw [(innermost_eq_some h).1]; decide), List.length_append]
  cases (shapeOf ls).slot with
  | none => simp
  | some j =>
    have hempty := isEmpty_readProperty (eventOf J (readInto ls j)) name params value
    rw [Option.map_some, Option.map_some, Option.getD_some, Option.isSome_some, Bool.and_true]
    cases hn : ((eventOf J (readInto ls j)).readProperty name params value).2 with
    | nil =>
      rw [hn] at hempty
      simpa using hempty
    | cons n ns =>
      rw [hn] at hempty
      simpa using hempty

/-- **A property of an event is met at its line**, with a report where it is of a kind that is
reported and an event is being read. -/
theorem mem_met (ls : List Line) (m : Met) :
    m ∈ (historyOf J ls).met ↔ ∃ pre rest,
      ls = pre ++ .property m.name m.params m.value :: rest ∧
        ((shapeOf pre).innermost = some m.vevent ∧
          m.reported = (reports J m.name m.params m.value && (shapeOf pre).slot.isSome)) := by
  induction ls using List.reverseRecOn with
  | nil =>
    constructor
    · intro h
      simp [historyOf] at h
    · rintro ⟨pre, rest, heq, -⟩
      simp at heq
  | append_singleton ls l ih =>
    rw [exists_split_concat (P := fun pre => (shapeOf pre).innermost = some m.vevent ∧
      m.reported = (reports J m.name m.params m.value && (shapeOf pre).slot.isSome)), ← ih,
      historyOf_concat]
    unfold History.step
    rw [reader_historyOf, shape_historyOf]
    dsimp only
    cases l with
    | property name params value =>
      cases hi : (shapeOf ls).innermost with
      | none => simp
      | some i =>
        dsimp only
        rw [reported_property hi, List.mem_append, List.mem_singleton]
        refine or_congr_right ⟨?_, ?_⟩
        · rintro rfl
          exact ⟨rfl, rfl, rfl⟩
        · rintro ⟨hl, hv, hr⟩
          obtain ⟨vevent, name', params', value', reported⟩ := m
          obtain ⟨rfl, rfl, rfl⟩ := Line.property.inj hl
          rw [Option.some.inj hv]
          congr
    | _ => simp

/-! ### Fields -/

theorem field_readTime (ev : ICalEvent J) (name : Text) {params value : Text}
    {set : ICalTime J → ICalEvent J} {g : Carried}
    (hset : ∀ t f, (set t).field f = if some g = some f then some (.time t) else ev.field f)
    (htold : g.tells J params value = (parseTime J params value).toOption.map fun t => .time t.1)
    (f : Carried) : (ev.readTime name params value set).1.field f =
      if some g = some f then (f.tells J params value).or (ev.field f) else ev.field f := by
  by_cases hg : g = f
  · subst hg
    unfold ICalEvent.readTime
    rw [if_pos rfl, htold]
    cases parseTime J params value with
    | error why => rfl
    | ok t =>
      show (set t.1).field g = _
      rw [hset, if_pos rfl]
      rfl
  · have hne : ¬ some g = some f := fun h => hg (Option.some.inj h)
    unfold ICalEvent.readTime
    rw [if_neg hne]
    cases parseTime J params value with
    | error why => rfl
    | ok t =>
      show (set t.1).field f = _
      rw [hset, if_neg hne]

theorem field_readProperty (ev : ICalEvent J) (name params value : Text) (f : Carried) :
    (ev.readProperty name params value).1.field f =
      if carriedOf name = some f then (f.tells J params value).or (ev.field f) else ev.field f := by
  unfold ICalEvent.readProperty carriedOf
  by_cases huid : name = "UID".toList
  · rw [if_pos huid, if_pos huid]
    cases f <;> rfl
  rw [if_neg huid, if_neg huid]
  by_cases hsummary : name = "SUMMARY".toList
  · rw [if_pos hsummary, if_pos hsummary]
    cases f <;> rfl
  rw [if_neg hsummary, if_neg hsummary]
  by_cases hdescription : name = "DESCRIPTION".toList
  · rw [if_pos hdescription, if_pos hdescription]
    cases f <;> rfl
  rw [if_neg hdescription, if_neg hdescription]
  by_cases hlocation : name = "LOCATION".toList
  · rw [if_pos hlocation, if_pos hlocation]
    cases f <;> rfl
  rw [if_neg hlocation, if_neg hlocation]
  by_cases hduration : name = "DURATION".toList
  · rw [if_pos hduration, if_pos hduration]
    cases f <;> rfl
  rw [if_neg hduration, if_neg hduration]
  by_cases hrrule : name = "RRULE".toList
  · rw [if_pos hrrule, if_pos hrrule]
    cases f <;> rfl
  rw [if_neg hrrule, if_neg hrrule]
  by_cases hdtstart : name = "DTSTART".toList
  · rw [if_pos hdtstart, if_pos hdtstart]
    exact field_readTime ev name (fun t f => by cases f <;> rfl) rfl f
  rw [if_neg hdtstart, if_neg hdtstart]
  by_cases hdtend : name = "DTEND".toList
  · rw [if_pos hdtend, if_pos hdtend]
    exact field_readTime ev name (fun t f => by cases f <;> rfl) rfl f
  rw [if_neg hdtend, if_neg hdtend]
  rw [if_neg (show ¬ none = some f from nofun)]
  split
  · rfl
  · rfl

theorem lastSaid_concat (f : Carried) (read : List (Text × Text × Text))
    (p : Text × Text × Text) :
    lastSaid J f (read ++ [p]) =
      if carriedOf p.1 = some f then (f.tells J p.2.1 p.2.2).or (lastSaid J f read)
      else lastSaid J f read := by
  unfold lastSaid
  rw [List.filterMap_append]
  split
  next h =>
    cases hs : f.tells J p.2.1 p.2.2 with
    | none => simp [h, hs]
    | some x => simp [h, hs]
  next h => simp [h]

theorem field_eventOf (read : List (Text × Text × Text)) (f : Carried) :
    (eventOf J read).field f = (lastSaid J f read).or (({} : ICalEvent J).field f) := by
  induction read using List.reverseRecOn with
  | nil => rfl
  | append_singleton read p ih =>
    have heq : eventOf J (read ++ [p]) =
        ((eventOf J read).readProperty p.1 p.2.1 p.2.2).1 := List.foldl_append
    rw [heq, field_readProperty, lastSaid_concat, ih]
    split
    · exact (Option.or_assoc).symm
    · rfl

theorem uid_eventOf (read : List (Text × Text × Text)) :
    (eventOf J read).uid ≠ [] ↔ Identified J read := by
  have hfield := field_eventOf (J := J) read .uid
  unfold Identified
  cases hl : lastSaid J .uid read with
  | none =>
    rw [hl] at hfield
    have huid : (eventOf J read).uid = [] := Said.text.inj (Option.some.inj hfield)
    simp [huid]
  | some x =>
    rw [hl] at hfield
    have huid : Said.text (eventOf J read).uid = x := Option.some.inj hfield
    rw [← huid]
    simp

theorem carries_eventOf {read : List (Text × Text × Text)} (hu : (eventOf J read).uid ≠ [])
    (name params value : Text) :
    (eventOf J read).Carries name params value ↔
      ∃ f x, carriedOf name = some f ∧ f.tells J params value = some x ∧
        lastSaid J f read = some x := by
  unfold ICalEvent.Carries
  refine exists_congr fun f => exists_congr fun x => and_congr_right fun _ =>
    and_congr_right fun _ => ?_
  rw [field_eventOf]
  cases hl : lastSaid J f read with
  | some y => rfl
  | none =>
    -- only the identifier has a value that no line says, and the event has one
    cases f with
    | uid =>
      obtain ⟨uid, hsaid, -⟩ := (uid_eventOf read).mp hu
      rw [hl] at hsaid
      simp at hsaid
    | _ => rfl

/-! ### The result -/

theorem begun_subset (pre rest : List Line) (h : i ∈ (shapeOf pre).begun) :
    i ∈ (shapeOf (pre ++ rest)).begun := by
  induction rest using List.reverseRecOn with
  | nil => rwa [List.append_nil]
  | append_singleton rest l ih =>
    rw [← List.append_assoc, shapeOf_concat]
    cases l with
    | opening comp =>
      simp only [Shape.step]
      split
      · exact List.mem_append_left _ ih
      · exact ih
    | _ => exact ih

theorem made_or_named {input : Text} {cal : Calendar J} (h : parse J input = .ok cal)
    (hc : Closed (linesOf input) i) :
    if (eventOf J (readInto (linesOf input) i)).uid = [] then
      i ∈ (historyOf J (linesOf input)).named
    else eventOf J (readInto (linesOf input) i) ∈ cal.events ∧
      (i, eventOf J (readInto (linesOf input) i)) ∈ (historyOf J (linesOf input)).made := by
  split
  next hu => exact (mem_named _ _).mpr ⟨hc, hu⟩
  next hu =>
    have hmade := (mem_made (J := J) _ _ _).mpr ⟨hc, rfl, hu⟩
    refine ⟨?_, hmade⟩
    rw [← out_of_parse h, ← map_snd_made]
    exact List.mem_map_of_mem hmade

/-- **Nothing of a document is lost without a report exactly where it is well shaped.** -/
theorem nothingLost_iff {input : Text} {cal : Calendar J} (h : parse J input = .ok cal) :
    NothingLost cal (historyOf J (linesOf input)) ↔ WellShaped J (linesOf input) := by
  constructor
  · rintro ⟨hbegun, hmet⟩
    refine ⟨fun i hi => ?_, fun pre name params value rest i hls hin hname hid => ?_⟩
    · rw [← shape_historyOf (J := J)] at hi
      rcases hbegun i hi with ⟨ev, -, hmade⟩ | hnamed
      · exact ((mem_made _ _ _).mp hmade).1
      · exact ((mem_named _ _).mp hnamed).1
    · have hmem := (mem_met (J := J) (linesOf input)
        ⟨i, name, params, value, reports J name params value && (shapeOf pre).slot.isSome⟩).mpr
        ⟨pre, rest, hls, hin, rfl⟩
      rcases hmet _ hmem hname with ⟨ev, -, hmade, hcarries⟩ | hreported | hnamed
      · obtain ⟨-, rfl, hu⟩ := (mem_made _ _ _).mp hmade
        exact .inl ((carries_eventOf hu name params value).mp hcarries)
      · exact .inr (by simpa using hreported)
      · exact absurd ((mem_named _ _).mp hnamed).2 ((uid_eventOf _).mpr hid)
  · rintro ⟨hclosed, hsaid⟩
    refine ⟨fun i hi => ?_, fun m hm hname => ?_⟩
    · rw [shape_historyOf] at hi
      have hend := made_or_named h (hclosed i hi)
      split at hend
      · exact .inr hend
      · exact .inl ⟨_, hend.1, hend.2⟩
    · obtain ⟨pre, rest, hls, hin, hreported⟩ := (mem_met _ _).mp hm
      have hi := begun_subset pre (.property m.name m.params m.value :: rest)
        (innermost_eq_some hin).2
      rw [← hls] at hi
      have hend := made_or_named h (hclosed _ hi)
      split at hend
      · exact .inr (.inr hend)
      next hu =>
        rcases hsaid pre _ _ _ rest _ hls hin hname ((uid_eventOf _).mp hu) with htold | hrep
        · exact .inl ⟨_, hend.1, hend.2, (carries_eventOf hu _ _ _).mpr htold⟩
        · exact .inr (.inl (by rw [hreported]; simpa using hrep))

/-- A document whose event says when it is and ends before the document does. -/
def wholeDocument : Text :=
  "BEGIN:VCALENDAR\nBEGIN:VEVENT\nUID:a\nSUMMARY:b\nEND:VEVENT\nEND:VCALENDAR\n".toList

theorem linesOf_wholeDocument : linesOf wholeDocument = [.opening "VCALENDAR".toList,
    .opening "VEVENT".toList, .property "UID".toList [] "a".toList,
    .property "SUMMARY".toList [] "b".toList, .closing "VEVENT".toList,
    .closing "VCALENDAR".toList] := by decide

theorem wellShaped_wholeDocument : WellShaped Jiff.sample (linesOf wholeDocument) := by
  rw [linesOf_wholeDocument]
  refine ⟨fun i hi => ?_, fun pre name params value rest i hls hin _ _ => .inl ?_⟩
  · obtain rfl : i = 1 := List.mem_singleton.mp hi
    exact ⟨[_, _, _, _], [_], rfl, rfl⟩
  · -- only the third line and the fourth are properties
    rcases pre with _ | ⟨_, _ | ⟨_, _ | ⟨_, _ | ⟨_, _ | ⟨_, _ | ⟨_, pre⟩⟩⟩⟩⟩⟩ <;>
      simp only [List.nil_append, List.cons_append, List.cons.injEq, Line.property.injEq,
        reduceCtorEq, false_and, and_false, List.nil_eq, List.append_eq_nil_iff] at hls
    · obtain ⟨rfl, rfl, ⟨rfl, rfl, rfl⟩, -⟩ := hls
      obtain rfl : 1 = i := Option.some.inj hin
      exact ⟨.uid, _, rfl, rfl, rfl⟩
    · obtain ⟨rfl, rfl, rfl, ⟨rfl, rfl, rfl⟩, -⟩ := hls
      obtain rfl : 1 = i := Option.some.inj hin
      exact ⟨.summary, _, rfl, rfl, rfl⟩

def cutDocument : Text := "BEGIN:VCALENDAR\nBEGIN:VEVENT\nUID:a\n".toList

theorem nothingLost_iff_whole :
    (∃ cal, parse Jiff.sample wholeDocument = .ok cal ∧
      WellShaped Jiff.sample (linesOf wholeDocument) ∧
      NothingLost cal (historyOf Jiff.sample (linesOf wholeDocument))) ∧
    ∃ cal, parse Jiff.sample cutDocument = .ok cal ∧
      (NothingLost cal (historyOf Jiff.sample (linesOf cutDocument)) ↔
        WellShaped Jiff.sample (linesOf cutDocument)) := by
  have hwhole : parse Jiff.sample wholeDocument =
      .ok { events := [{ uid := "a".toList, summary := some "b".toList }] } := rfl
  have hcut : parse Jiff.sample cutDocument = .ok {} := rfl
  have hshape := wellShaped_wholeDocument
  exact ⟨⟨_, hwhole, hshape, (nothingLost_iff hwhole).mpr hshape⟩, ⟨{}, hcut, nothingLost_iff hcut⟩⟩

/-- The event of a document that was cut off is lost without a report. -/
theorem not_nothingLost_cut : ∃ cal, parse Jiff.sample cutDocument = .ok cal ∧
    ¬ NothingLost cal (historyOf Jiff.sample (linesOf cutDocument)) := by
  refine ⟨{}, rfl, fun h => ?_⟩
  have hlines : linesOf cutDocument = [.opening "VCALENDAR".toList, .opening "VEVENT".toList,
      .property "UID".toList [] "a".toList] := by decide
  have hnamed : (historyOf Jiff.sample (linesOf cutDocument)).named = [] := by
    rw [hlines]
    rfl
  have hbegun : 1 ∈ (historyOf Jiff.sample (linesOf cutDocument)).shape.begun := by
    rw [shape_historyOf, hlines]
    decide
  rcases h.1 1 hbegun with ⟨ev, hev, -⟩ | hn
  · simp at hev
  · rw [hnamed] at hn
    simp at hn

end Ical

end Sunrise
