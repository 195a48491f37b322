import Sunrise.Ical.Time

/-!
# iCalendar documents

Reading a document goes over its lines once, with the stack of the components that are open
and the event that is being read. What the reader does not carry it reports. Writing goes
over the events.

Names of components and properties are compared in upper case, a property belongs to the
event being read whatever component closed last, and a component is closed by any `END`.

* `Reader.readLine`, `parse` — one line, and a document.
* `eventLines`, `write` — one event, and a document.
* `ICalEvent.Read`, `read_of_parse` — what an event that was read is like.
* `write_parse_write` — writing is a fixed point over reading.
-/

namespace Sunrise

namespace Ical

open Text

/-- One `VEVENT`. -/
structure ICalEvent (J : Jiff) where
  /-- `UID`. An event without one is skipped. -/
  uid : Text := []
  /-- `SUMMARY`. -/
  summary : Option Text := none
  /-- `DTSTART`. -/
  dtstart : Option (ICalTime J) := none
  /-- `DTEND`. -/
  dtend : Option (ICalTime J) := none
  /-- `DURATION`, as it stands. -/
  duration : Option Text := none
  /-- `DESCRIPTION`. -/
  description : Option Text := none
  /-- `LOCATION`. -/
  location : Option Text := none
  /-- `RRULE`, as it stands. -/
  rrule : Option Text := none

/-- Why something was not carried. -/
inductive NoticeCode where
  | unsupportedComponent
  | unmappedProperty
  | unknownTimezone
  | badValue
  | skipped
deriving DecidableEq, Repr

/-- One report. -/
structure ICalNotice where
  code : NoticeCode
  uid : Option Text
  detail : Text
deriving DecidableEq, Repr

/-- What was read of a document. -/
structure Calendar (J : Jiff) where
  events : List (ICalEvent J) := []
  notices : List ICalNotice := []

/-- The properties that are left out without a report. -/
def bookkeeping : List Text :=
  ["DTSTAMP".toList, "SEQUENCE".toList, "CREATED".toList, "LAST-MODIFIED".toList,
    "TRANSP".toList, "CLASS".toList, "STATUS".toList]

def readComponents : List Text := ["VCALENDAR".toList, "VEVENT".toList]

/-- Where a reader is in a document. -/
structure Reader (J : Jiff) where
  out : Calendar J := {}
  sawCalendar : Bool := false
  /-- The components that are open, the innermost first. -/
  stack : List Text := []
  current : Option (ICalEvent J) := none

open Reader

def insideUnread (stack : List Text) : Bool := stack.head?.any fun c => c ∉ readComponents

def ICalEvent.named {J : Jiff} (ev : ICalEvent J) : Option Text :=
  if ev.uid = [] then none else some ev.uid

/-- The report of a component that is not read. -/
def unsupported (comp : Text) : Text := comp ++ " is not modelled and was skipped".toList

/-- The report of an event without an identifier. -/
def noUid : Text := "a VEVENT with no UID has no stable identity and was skipped".toList

/-- The report of a zone that was given up. -/
def readAsUtc (name zone : Text) : Text :=
  name ++ " names TZID=".toList ++ zone ++
    ", which is not in the IANA database; read as UTC".toList

/-- The report of a value of the wrong type. -/
def didNotParse (name value why : Text) : Text :=
  name ++ ':' :: value ++ " did not parse (".toList ++ why ++ [')']

/-- The report of a property that is not carried. -/
def notCarried (name : Text) : Text := name ++ " is not carried by a Block and was dropped".toList

variable {J : Jiff}

/-- Read a time property, and report what it does not say. -/
def ICalEvent.readTime (ev : ICalEvent J) (name params value : Text)
    (set : ICalTime J → ICalEvent J) : ICalEvent J × List ICalNotice :=
  match parseTime J params value with
  | .ok (t, zone) =>
    (set t, match zone with
      | some zone => [⟨.unknownTimezone, ev.named, readAsUtc name zone⟩]
      | none => [])
  | .error why => (ev, [⟨.badValue, ev.named, didNotParse name value why⟩])

/-- Read one property of an event, or report why not. The name is in upper case. -/
def ICalEvent.readProperty (ev : ICalEvent J) (name params value : Text) :
    ICalEvent J × List ICalNotice :=
  if name = "UID".toList then ({ ev with uid := unescape value }, [])
  else if name = "SUMMARY".toList then ({ ev with summary := some (unescape value) }, [])
  else if name = "DESCRIPTION".toList then ({ ev with description := some (unescape value) }, [])
  else if name = "LOCATION".toList then ({ ev with location := some (unescape value) }, [])
  else if name = "DURATION".toList then ({ ev with duration := some (trim value) }, [])
  else if name = "RRULE".toList then ({ ev with rrule := some (trim value) }, [])
  else if name = "DTSTART".toList then
    ev.readTime name params value fun t => { ev with dtstart := some t }
  else if name = "DTEND".toList then
    ev.readTime name params value fun t => { ev with dtend := some t }
  else if name ∈ bookkeeping then (ev, [])
  else (ev, [⟨.unmappedProperty, ev.named, notCarried name⟩])

namespace Reader

def report (r : Reader J) (notices : List ICalNotice) : Reader J :=
  { r with out := { r.out with notices := r.out.notices ++ notices } }

/-- A `BEGIN`. An event begins directly in a calendar; a component that is not read is
reported where it is not inside another. -/
def beginComponent (r : Reader J) (comp : Text) : Reader J :=
  let r := if comp = "VCALENDAR".toList then { r with sawCalendar := true } else r
  let opened :=
    if comp = "VEVENT".toList ∧ r.stack.head? = some "VCALENDAR".toList then
      { r with current := some {} }
    else if comp ∉ readComponents ∧ insideUnread r.stack = false then
      r.report [⟨.unsupportedComponent, r.current.bind (·.named), unsupported comp⟩]
    else r
  { opened with stack := comp :: opened.stack }

/-- An `END`. That of an event ends the one being read, and any closes the innermost
component. -/
def endComponent (r : Reader J) (comp : Text) : Reader J :=
  let closed :=
    if comp = "VEVENT".toList then
      match r.current with
      | some ev =>
        if ev.uid = [] then { r with current := none }.report [⟨.skipped, none, noUid⟩]
        else { r with current := none, out := { r.out with events := r.out.events ++ [ev] } }
      | none => r
    else r
  { closed with stack := closed.stack.tail }

/-- A property. Inside a component that is not read, and outside events, there is nothing to
carry. -/
def property (r : Reader J) (name params value : Text) : Reader J :=
  if insideUnread r.stack then r
  else match r.current with
    | none => r
    | some ev =>
      { r with current := some (ev.readProperty name params value).1 }.report
        (ev.readProperty name params value).2

def readLine (r : Reader J) (raw : Text) : Reader J :=
  let line := trimEnd raw
  if line = [] then r
  else
    let parts := splitProperty line
    let name := upper parts.1
    if name = "BEGIN".toList then r.beginComponent (upper (trim parts.2.2))
    else if name = "END".toList then r.endComponent (upper (trim parts.2.2))
    else r.property name parts.2.1 parts.2.2

end Reader

/-- Why a document is refused. -/
def notACalendar : Text := "no BEGIN:VCALENDAR — this is not an iCalendar document".toList

/-- Read a document. -/
def parse (J : Jiff) (input : Text) : Except Text (Calendar J) :=
  let r := (unfoldLines input).foldl readLine ({} : Reader J)
  if r.sawCalendar then .ok r.out else .error notACalendar

/-! ### Writing -/

def eventLines (e : ICalEvent J) : List Text :=
  [contentLine "BEGIN".toList [] "VEVENT".toList,
    contentLine "UID".toList [] (escape e.uid)] ++
  (e.summary.map fun s => contentLine "SUMMARY".toList [] (escape s)).toList ++
  (e.dtstart.map fun t => contentLine "DTSTART".toList (writeTime t).1 (writeTime t).2).toList ++
  (e.dtend.map fun t => contentLine "DTEND".toList (writeTime t).1 (writeTime t).2).toList ++
  (e.duration.map fun d => contentLine "DURATION".toList [] d).toList ++
  (e.description.map fun s => contentLine "DESCRIPTION".toList [] (escape s)).toList ++
  (e.location.map fun s => contentLine "LOCATION".toList [] (escape s)).toList ++
  (e.rrule.map fun r => contentLine "RRULE".toList [] r).toList ++
  [contentLine "END".toList [] "VEVENT".toList]

def documentLines (events : List (ICalEvent J)) : List Text :=
  [contentLine "BEGIN".toList [] "VCALENDAR".toList,
    contentLine "VERSION".toList [] "2.0".toList,
    contentLine "PRODID".toList [] "-//Sunrise//Sunrise v1//EN".toList,
    contentLine "CALSCALE".toList [] "GREGORIAN".toList] ++
  events.flatMap eventLines ++ [contentLine "END".toList [] "VCALENDAR".toList]

def write (events : List (ICalEvent J)) : Text := (documentLines events).flatMap pushLine

/-! ### Events that can be written -/

/-- A text without white space at its end once it is escaped. -/
def Tidy (s : Text) : Prop := trimEnd (escape s) = escape s

/-- A value that stands as it is: without white space at its ends or line feeds. -/
def Plain (s : Text) : Prop := trim s = s ∧ '\n' ∉ s

/-- An event that is written so that it is read: its texts do not end in white space that is
not escaped, its values are trimmed, and its times are of years that can be spelled. -/
structure ICalEvent.Writable (ev : ICalEvent J) : Prop where
  uid : Tidy ev.uid
  uid_written : ev.uid ≠ [] → escape ev.uid ≠ []
  summary : ∀ s ∈ ev.summary, Tidy s
  dtstart : ∀ t ∈ ev.dtstart, t.Expressible
  dtend : ∀ t ∈ ev.dtend, t.Expressible
  duration : ∀ d ∈ ev.duration, Plain d
  description : ∀ s ∈ ev.description, Tidy s
  location : ∀ s ∈ ev.location, Tidy s
  rrule : ∀ r ∈ ev.rrule, Plain r

/-- What an event is like that was read: it can be written, and its times have no fraction
of a second. -/
structure ICalEvent.Read (ev : ICalEvent J) : Prop extends ev.Writable where
  dtstart_second : ∀ t ∈ ev.dtstart, t.second = t
  dtend_second : ∀ t ∈ ev.dtend, t.second = t

/-- An event as it is read again: without carriage returns and fractions of a second. -/
def ICalEvent.reread (ev : ICalEvent J) : ICalEvent J where
  uid := clean ev.uid
  summary := ev.summary.map clean
  dtstart := ev.dtstart.map (·.second)
  dtend := ev.dtend.map (·.second)
  duration := ev.duration
  description := ev.description.map clean
  location := ev.location.map clean
  rrule := ev.rrule

/-! ### Reading what was written -/

namespace Reader

/-- The letters of a property's name. -/
def isName (name : Text) : Bool :=
  name ≠ [] && upper name == name && name.all fun c => c.isUpper

theorem isName_spec {name : Text} (h : isName name) :
    upper name = name ∧ ∀ c ∈ name, c ≠ ':' ∧ c ≠ '"' ∧ c ≠ ';' := by
  unfold isName at h
  simp only [Bool.and_eq_true, beq_iff_eq, List.all_eq_true] at h
  refine ⟨h.1.2, fun c hc => ⟨?_, ?_, ?_⟩⟩
  all_goals
    intro heq
    subst heq
    exact absurd (h.2 _ hc) (by decide)

theorem readLine_content (r : Reader J) {name params value : Text} (hname : isName name)
    (hp : ∀ c ∈ params, c ≠ ':' ∧ c ≠ '"')
    (hps : params = [] ∨ ∃ rest, params = ';' :: rest) (hv : trimEnd value = value) :
    r.readLine (contentLine name params value) =
      if name = "BEGIN".toList then r.beginComponent (upper (trim value))
      else if name = "END".toList then r.endComponent (upper (trim value))
      else r.property name params value := by
  obtain ⟨hupper, hchars⟩ := isName_spec hname
  have hline : trimEnd (contentLine name params value) = contentLine name params value := by
    unfold contentLine
    refine trimEnd_append (by simp) ?_
    by_cases hnil : value = []
    · subst hnil
      decide
    · exact trimEnd_append (s := [':']) hnil hv
  have hne : contentLine name params value ≠ [] := by simp [contentLine]
  have hparts := @splitProperty_written name params value
    (fun c hc => ⟨(hchars c hc).1, (hchars c hc).2.1⟩)
    (fun hc => (hchars _ hc).2.2 rfl) hp hps
  unfold readLine
  dsimp only
  rw [hline, if_neg hne, hparts]
  dsimp only
  rw [hupper]

def reading (r : Reader J) (ev : ICalEvent J) : Reader J :=
  { r with stack := "VEVENT".toList :: r.stack, current := some ev }

@[simp] theorem report_nil (r : Reader J) : r.report [] = r := by
  unfold report
  rw [List.append_nil]

theorem readLine_reading (r : Reader J) {ev ev' : ICalEvent J} {name params value : Text}
    (hname : isName name) (hb : name ≠ "BEGIN".toList) (he : name ≠ "END".toList)
    (hp : ∀ c ∈ params, c ≠ ':' ∧ c ≠ '"')
    (hps : params = [] ∨ ∃ rest, params = ';' :: rest) (hv : trimEnd value = value)
    (h : ev.readProperty name params value = (ev', [])) :
    (r.reading ev).readLine (contentLine name params value) = r.reading ev' := by
  rw [readLine_content _ hname hp hps hv, if_neg hb, if_neg he]
  unfold property
  rw [if_neg (by simp [reading, insideUnread, readComponents])]
  show ({ r.reading ev with current := some (ev.readProperty name params value).1 } :
    Reader J).report (ev.readProperty name params value).2 = _
  rw [h, report_nil]
  rfl

theorem foldl_option {α : Type} (r : Reader J) {line : α → Text} {back : α → α}
    (put : Option α → ICalEvent J) (o : Option α)
    (h : ∀ a ∈ o, (r.reading (put none)).readLine (line a) = r.reading (put (some (back a)))) :
    (o.map line).toList.foldl readLine (r.reading (put none)) = r.reading (put (o.map back)) := by
  cases o with
  | none => rfl
  | some a => exact h a rfl

end Reader

theorem trimEnd_of_plain {s : Text} (h : Plain s) : trimEnd s = s := by
  have := trimEnd_trim s
  rwa [h.1] at this

theorem clean_ne_nil {s : Text} (h : escape s ≠ []) : clean s ≠ [] := by
  intro hnil
  rw [← escape_clean, hnil] at h
  exact h rfl

namespace Reader

/-- **The lines of an event are read back as the event.** -/
theorem foldl_eventLines (hJ : J.Spells) {r : Reader J} (hr : r.current = none)
    (hs : r.stack.head? = some "VCALENDAR".toList) {e : ICalEvent J} (he : e.Writable)
    (hu : e.uid ≠ []) :
    (eventLines e).foldl readLine r =
      { r with out := { r.out with events := r.out.events ++ [e.reread] } } := by
  have hnil : ∀ c ∈ ([] : Text), c ≠ ':' ∧ c ≠ '"' := by simp
  have htext (put : Text → ICalEvent J) (ev : ICalEvent J) (name s : Text)
      (hname : isName name ∧ name ≠ "BEGIN".toList ∧ name ≠ "END".toList) (htidy : Tidy s)
      (h : ∀ v, ev.readProperty name [] v = (put (unescape v), [])) :
      (r.reading ev).readLine (contentLine name [] (escape s)) = r.reading (put (clean s)) := by
    rw [r.readLine_reading hname.1 hname.2.1 hname.2.2 hnil (.inl rfl) htidy (h _),
      unescape_escape]
  -- each line that may be there sets its field
  have htexts (put : Option Text → ICalEvent J) (name : Text) (o : Option Text)
      (hname : isName name ∧ name ≠ "BEGIN".toList ∧ name ≠ "END".toList) (ho : ∀ s ∈ o, Tidy s)
      (h : ∀ v, (put none).readProperty name [] v = (put (some (unescape v)), [])) :
      (o.map fun s => contentLine name [] (escape s)).toList.foldl readLine
        (r.reading (put none)) = r.reading (put (o.map clean)) :=
    r.foldl_option put o fun s hs => htext (fun s => put (some s)) _ name s hname (ho s hs) h
  have hplain (put : Option Text → ICalEvent J) (name : Text) (o : Option Text)
      (hname : isName name ∧ name ≠ "BEGIN".toList ∧ name ≠ "END".toList) (ho : ∀ s ∈ o, Plain s)
      (h : ∀ v, (put none).readProperty name [] v = (put (some (trim v)), [])) :
      (o.map fun s => contentLine name [] s).toList.foldl readLine
        (r.reading (put none)) = r.reading (put o) := by
    cases o with
    | none => rfl
    | some s =>
      refine (r.readLine_reading hname.1 hname.2.1 hname.2.2 hnil (.inl rfl)
        (trimEnd_of_plain (ho s rfl)) (h _)).trans ?_
      rw [(ho s rfl).1]
  have htime (put : Option (ICalTime J) → ICalEvent J) (name : Text) (o : Option (ICalTime J))
      (hname : isName name ∧ name ≠ "BEGIN".toList ∧ name ≠ "END".toList)
      (ho : ∀ t ∈ o, t.Expressible)
      (h : ∀ p v, (put none).readProperty name p v =
        (put none).readTime name p v fun t => put (some t)) :
      (o.map fun t => contentLine name (writeTime t).1 (writeTime t).2).toList.foldl readLine
        (r.reading (put none)) = r.reading (put (o.map ICalTime.second)) := by
    refine r.foldl_option put o fun t ht => ?_
    obtain ⟨hp, hps, hvne, hv⟩ := writeTime_spec hJ (ho t ht)
    refine r.readLine_reading hname.1 hname.2.1 hname.2.2
      (fun c hc => ⟨(hp c hc).1, (hp c hc).2.1⟩) hps
      (trimEnd_eq_self.mpr fun c hc => hv c (List.mem_of_getLast? hc)) ?_
    rw [h]
    unfold ICalEvent.readTime
    rw [parseTime_writeTime hJ (ho t ht)]
  -- the event opens
  have hbegin : r.readLine (contentLine "BEGIN".toList [] "VEVENT".toList) = r.reading {} := by
    rw [readLine_content r (by decide) hnil (.inl rfl) (by decide), if_pos rfl]
    have hname : upper (trim "VEVENT".toList) = "VEVENT".toList := by decide
    rw [hname]
    unfold beginComponent
    dsimp only
    rw [if_neg (show ¬ "VEVENT".toList = "VCALENDAR".toList by decide), if_pos ⟨rfl, hs⟩]
    rfl
  have hend : ∀ ev : ICalEvent J, ev.uid ≠ [] →
      (r.reading ev).readLine (contentLine "END".toList [] "VEVENT".toList) =
        { r with out := { r.out with events := r.out.events ++ [ev] } } := by
    intro ev hne
    rw [readLine_content _ (by decide) hnil (.inl rfl) (by decide),
      if_neg (by decide), if_pos rfl]
    have hname : upper (trim "VEVENT".toList) = "VEVENT".toList := by decide
    rw [hname]
    unfold endComponent reading
    dsimp only
    rw [if_pos rfl, if_neg hne]
    dsimp only [List.tail_cons]
    rw [hr]
  unfold eventLines
  simp only [List.foldl_append, List.foldl_cons, List.foldl_nil]
  set u := clean e.uid
  set s := e.summary.map clean
  set t := e.dtstart.map ICalTime.second
  set t' := e.dtend.map ICalTime.second
  set d := e.description.map clean
  set l := e.location.map clean
  rw [hbegin, htext (fun a => ⟨a, none, none, none, none, none, none, none⟩) {} "UID".toList e.uid
      (by decide) he.uid fun v => rfl,
    htexts (fun o => ⟨u, o, none, none, none, none, none, none⟩) "SUMMARY".toList e.summary
      (by decide) he.summary fun v => rfl,
    htime (fun o => ⟨u, s, o, none, none, none, none, none⟩) "DTSTART".toList e.dtstart
      (by decide) he.dtstart fun p v => rfl,
    htime (fun o => ⟨u, s, t, o, none, none, none, none⟩) "DTEND".toList e.dtend
      (by decide) he.dtend fun p v => rfl,
    hplain (fun o => ⟨u, s, t, t', o, none, none, none⟩) "DURATION".toList e.duration
      (by decide) he.duration fun v => rfl,
    htexts (fun o => ⟨u, s, t, t', e.duration, o, none, none⟩) "DESCRIPTION".toList e.description
      (by decide) he.description fun v => rfl,
    htexts (fun o => ⟨u, s, t, t', e.duration, d, o, none⟩) "LOCATION".toList e.location
      (by decide) he.location fun v => rfl,
    hplain (fun o => ⟨u, s, t, t', e.duration, d, l, o⟩) "RRULE".toList e.rrule
      (by decide) he.rrule fun v => rfl]
  exact hend e.reread (clean_ne_nil (he.uid_written hu))

end Reader

/-! ### What a reader has read can be written -/

theorem read_empty : ({} : ICalEvent J).Read where
  uid := rfl
  uid_written h := absurd rfl h
  summary s h := by simp at h
  dtstart t h := by simp at h
  dtend t h := by simp at h
  duration d h := by simp at h
  description s h := by simp at h
  location s h := by simp at h
  rrule r h := by simp at h
  dtstart_second t h := by simp at h
  dtend_second t h := by simp at h

theorem tidy_unescape {value : Text} (h : trimEnd value = value) : Tidy (unescape value) :=
  (trimEnd_escape_unescape h).1

theorem plain_trim {value : Text} (h : '\n' ∉ value) : Plain (trim value) :=
  ⟨trim_trim value, fun hm => h (mem_of_mem_trim hm)⟩

theorem ICalEvent.Read.readTime (hJ : J.Spells) {ev : ICalEvent J} (he : ev.Read)
    {set : ICalTime J → ICalEvent J}
    (hset : ∀ t, t.Expressible → t.second = t → (set t).Read) (name params value : Text) :
    (ev.readTime name params value set).1.Read := by
  unfold ICalEvent.readTime
  cases ht : parseTime J params value with
  | error why => exact he
  | ok tz =>
    obtain ⟨t, zone⟩ := tz
    obtain ⟨hexpr, hsecond⟩ := expressible_of_parseTime hJ ht
    exact hset t hexpr hsecond

theorem ICalEvent.Read.readProperty (hJ : J.Spells) {ev : ICalEvent J} (he : ev.Read)
    {name params value : Text} (hv : trimEnd value = value) (hn : '\n' ∉ value) :
    (ev.readProperty name params value).1.Read := by
  have hsome : ∀ {α : Type} {a b : α}, b ∈ some a → b = a := fun h => (Option.some.inj h).symm
  unfold ICalEvent.readProperty
  split
  · refine { he with uid := tidy_unescape hv, uid_written := fun hne => ?_ }
    refine (trimEnd_escape_unescape hv).2 fun hnil => hne ?_
    show unescape value = []
    rw [hnil]
    rfl
  · split
    · exact { he with summary := fun s hs => hsome hs ▸ tidy_unescape hv }
    · split
      · exact { he with description := fun s hs => hsome hs ▸ tidy_unescape hv }
      · split
        · exact { he with location := fun s hs => hsome hs ▸ tidy_unescape hv }
        · split
          · exact { he with duration := fun d hd => hsome hd ▸ plain_trim hn }
          · split
            · exact { he with rrule := fun d hd => hsome hd ▸ plain_trim hn }
            · split
              · refine he.readTime hJ (fun t ht hsecond => ?_) name params value
                exact { he with
                  dtstart := fun u (hu : u ∈ some t) => hsome hu ▸ ht
                  dtstart_second := fun u (hu : u ∈ some t) => hsome hu ▸ hsecond }
              · split
                · refine he.readTime hJ (fun t ht hsecond => ?_) name params value
                  exact { he with
                    dtend := fun u (hu : u ∈ some t) => hsome hu ▸ ht
                    dtend_second := fun u (hu : u ∈ some t) => hsome hu ▸ hsecond }
                · split <;> exact he

namespace Reader

/-- What a reader has read can be written. -/
structure Sound (r : Reader J) : Prop where
  events : ∀ e ∈ r.out.events, e.Read ∧ e.uid ≠ []
  current : ∀ e ∈ r.current, e.Read

theorem Sound.report {r : Reader J} (h : r.Sound) (notices : List ICalNotice) :
    (r.report notices).Sound := ⟨h.events, h.current⟩

theorem Sound.beginComponent {r : Reader J} (h : r.Sound) (comp : Text) :
    (r.beginComponent comp).Sound := by
  have key : ∀ r : Reader J, r.Sound →
      (if comp = "VEVENT".toList ∧ r.stack.head? = some "VCALENDAR".toList then
        { r with current := some {} }
      else if comp ∉ readComponents ∧ insideUnread r.stack = false then
        r.report [⟨.unsupportedComponent, r.current.bind (·.named), unsupported comp⟩]
      else r : Reader J).Sound := by
    intro r h
    split
    · exact ⟨h.events, fun e he => (Option.some.inj he) ▸ read_empty⟩
    · split
      · exact h.report _
      · exact h
  unfold Reader.beginComponent
  dsimp only
  have hr := key (if comp = "VCALENDAR".toList then { r with sawCalendar := true } else r)
    (by
      split
      · exact ⟨h.events, h.current⟩
      · exact h)
  exact ⟨hr.events, hr.current⟩

theorem Sound.endComponent {r : Reader J} (h : r.Sound) (comp : Text) :
    (r.endComponent comp).Sound := by
  have hnone : ∀ out : Calendar J, (∀ e ∈ out.events, e.Read ∧ e.uid ≠ []) →
      ({ r with current := none, out } : Reader J).Sound := fun out hout =>
    ⟨hout, fun e he => by simp at he⟩
  unfold Reader.endComponent
  dsimp only
  split
  · cases hc : r.current with
    | none => exact ⟨h.events, fun e he => by simp [hc] at he⟩
    | some ev =>
      dsimp only
      split
      · exact ⟨h.events, fun e he => by simp [Reader.report] at he⟩
      next hne =>
        have hout := hnone { r.out with events := r.out.events ++ [ev] } fun e he => by
          rcases List.mem_append.mp he with he | he
          · exact h.events e he
          · rw [List.mem_singleton.mp he]
            exact ⟨h.current ev hc, hne⟩
        exact ⟨hout.events, hout.current⟩
  · exact ⟨h.events, h.current⟩

theorem Sound.readLine (hJ : J.Spells) {r : Reader J} (h : r.Sound) {raw : Text}
    (hn : '\n' ∉ raw) : (r.readLine raw).Sound := by
  unfold Reader.readLine
  dsimp only
  split
  · exact h
  · split
    · exact h.beginComponent _
    · split
      · exact h.endComponent _
      · unfold Reader.property
        split
        · exact h
        · split
          · exact h
          next ev hev =>
            refine ⟨h.events, fun e he => ?_⟩
            rw [← Option.some.inj he]
            exact (h.current ev hev).readProperty hJ (trimEnd_value (trimEnd_trimEnd raw))
              fun hm => hn (mem_of_mem_trimEnd (mem_of_mem_value hm))

end Reader

/-- **The events of a document that was read can be written.** -/
theorem read_of_parse (hJ : J.Spells) {input : Text} {cal : Calendar J}
    (h : parse J input = .ok cal) : ∀ e ∈ cal.events, e.Read ∧ e.uid ≠ [] := by
  unfold parse at h
  dsimp only at h
  have hsound : ((unfoldLines input).foldl readLine ({} : Reader J)).Sound :=
    List.foldlRecOn (motive := fun r : Reader J => r.Sound) _ _
      ⟨fun e he => by simp at he, fun e he => by simp at he⟩
      fun r hr raw hraw => hr.readLine hJ (not_mem_unfoldLines hraw)
  split at h
  · exact Except.ok.inj h ▸ hsound.events
  · simp at h

/-! ### Documents -/

theorem eventLines_spec (hJ : J.Spells) {e : ICalEvent J} (he : e.Writable) :
    ∀ l ∈ eventLines e, '\n' ∉ l ∧ ∀ c, l.head? = some c → c ≠ ' ' ∧ c ≠ '\t' := by
  have hline : ∀ {name params value : Text}, isName name → '\n' ∉ params → '\n' ∉ value →
      '\n' ∉ contentLine name params value ∧
        ∀ c, (contentLine name params value).head? = some c → c ≠ ' ' ∧ c ≠ '\t' := by
    intro name params value hname hp hv
    have hupper : ∀ c ∈ name, c.isUpper := by
      unfold isName at hname
      simp only [Bool.and_eq_true, List.all_eq_true] at hname
      exact hname.2
    have hchar : ∀ d : Char, d.isUpper = false → d ∉ name := fun d hd hm => by
      rw [hupper d hm] at hd
      simp at hd
    constructor
    · intro hm
      unfold contentLine at hm
      rcases List.mem_append.mp hm with hm | hm
      · rcases List.mem_append.mp hm with hm | hm
        · exact hchar '\n' (by decide) hm
        · exact hp hm
      · rcases List.mem_cons.mp hm with hm | hm
        · exact absurd hm (by decide)
        · exact hv hm
    · intro c hc
      cases name with
      | nil => simp [isName] at hname
      | cons d name =>
        have hd : d = c := Option.some.inj hc
        subst hd
        constructor
        · rintro rfl
          exact hchar ' ' (by decide) List.mem_cons_self
        · rintro rfl
          exact hchar '\t' (by decide) List.mem_cons_self
  have hnil : '\n' ∉ ([] : Text) := by simp
  have hopt : ∀ {α : Type} {f : α → Text} {o : Option α},
      (∀ a ∈ o, '\n' ∉ f a ∧ ∀ c, (f a).head? = some c → c ≠ ' ' ∧ c ≠ '\t') →
      ∀ l ∈ (o.map f).toList, '\n' ∉ l ∧ ∀ c, l.head? = some c → c ≠ ' ' ∧ c ≠ '\t' := by
    intro α f o h l hl
    cases o with
    | none => simp at hl
    | some a =>
      rw [Option.map_some, Option.toList_some, List.mem_singleton] at hl
      exact hl ▸ h a rfl
  have htime : ∀ t : ICalTime J, t.Expressible →
      '\n' ∉ (writeTime t).1 ∧ '\n' ∉ (writeTime t).2 := by
    intro t ht
    obtain ⟨hp, -, -, hv⟩ := writeTime_spec hJ ht
    refine ⟨fun hm => (hp _ hm).2.2 rfl, fun hm => ?_⟩
    exact absurd (hv _ hm) (by decide)
  intro l hl
  unfold eventLines at hl
  simp only [List.mem_append, List.mem_cons, List.not_mem_nil, or_false] at hl
  rcases hl with (((((((((rfl | rfl) | h) | h) | h) | h) | h) | h) | h) | rfl)
  · exact hline (by decide) hnil (by decide)
  · exact hline (by decide) hnil (not_mem_escape _)
  · exact hopt (fun s _ => hline (by decide) hnil (not_mem_escape s)) l h
  · exact hopt (fun t ht => hline (by decide) (htime t (he.dtstart t ht)).1
      (htime t (he.dtstart t ht)).2) l h
  · exact hopt (fun t ht => hline (by decide) (htime t (he.dtend t ht)).1
      (htime t (he.dtend t ht)).2) l h
  · exact hopt (fun d hd => hline (by decide) hnil (he.duration d hd).2) l h
  · exact hopt (fun s _ => hline (by decide) hnil (not_mem_escape s)) l h
  · exact hopt (fun s _ => hline (by decide) hnil (not_mem_escape s)) l h
  · exact hopt (fun d hd => hline (by decide) hnil (he.rrule d hd).2) l h
  · exact hline (by decide) hnil (by decide)

theorem documentLines_spec (hJ : J.Spells) {events : List (ICalEvent J)}
    (he : ∀ e ∈ events, e.Writable) :
    ∀ l ∈ documentLines events, '\n' ∉ l ∧ ∀ c, l.head? = some c → c ≠ ' ' ∧ c ≠ '\t' := by
  have hfixed : ∀ l ∈ [contentLine "BEGIN".toList [] "VCALENDAR".toList,
      contentLine "VERSION".toList [] "2.0".toList,
      contentLine "PRODID".toList [] "-//Sunrise//Sunrise v1//EN".toList,
      contentLine "CALSCALE".toList [] "GREGORIAN".toList,
      contentLine "END".toList [] "VCALENDAR".toList],
      '\n' ∉ l ∧ l.head? ≠ some ' ' ∧ l.head? ≠ some '\t' := by
    decide
  have hfixed' : ∀ l : Text, ('\n' ∉ l ∧ l.head? ≠ some ' ' ∧ l.head? ≠ some '\t') →
      '\n' ∉ l ∧ ∀ c, l.head? = some c → c ≠ ' ' ∧ c ≠ '\t' := by
    intro l hl
    refine ⟨hl.1, fun c hc => ⟨?_, ?_⟩⟩
    · rintro rfl
      exact hl.2.1 hc
    · rintro rfl
      exact hl.2.2 hc
  intro l hl
  unfold documentLines at hl
  rcases List.mem_append.mp hl with hl | hl
  · rcases List.mem_append.mp hl with hl | hl
    · exact hfixed' l (hfixed l (List.mem_append_left [contentLine "END".toList []
        "VCALENDAR".toList] hl))
    · obtain ⟨e, hmem, hl⟩ := List.mem_flatMap.mp hl
      exact eventLines_spec hJ (he e hmem) l hl
  · exact hfixed' l (hfixed l (List.mem_append_right [contentLine "BEGIN".toList []
      "VCALENDAR".toList, contentLine "VERSION".toList [] "2.0".toList,
      contentLine "PRODID".toList [] "-//Sunrise//Sunrise v1//EN".toList,
      contentLine "CALSCALE".toList [] "GREGORIAN".toList] hl))

/-- **What is written is read back**, every event in its place, without a report. -/
theorem parse_write (hJ : J.Spells) {events : List (ICalEvent J)}
    (he : ∀ e ∈ events, e.Writable ∧ e.uid ≠ []) :
    parse J (write events) = .ok ⟨events.map (·.reread), []⟩ := by
  have hspec := documentLines_spec hJ fun e hmem => (he e hmem).1
  have hunfold : unfoldLines (write events) = documentLines events :=
    unfoldLines_written (fun l hl => (hspec l hl).1) fun l hl => (hspec l hl).2
  have hhead : ([contentLine "BEGIN".toList [] "VCALENDAR".toList,
      contentLine "VERSION".toList [] "2.0".toList,
      contentLine "PRODID".toList [] "-//Sunrise//Sunrise v1//EN".toList,
      contentLine "CALSCALE".toList [] "GREGORIAN".toList]).foldl readLine ({} : Reader J) =
      ⟨{}, true, ["VCALENDAR".toList], none⟩ := by
    rfl
  have hevents : ∀ (events out : List (ICalEvent J)),
      (∀ e ∈ events, e.Writable ∧ e.uid ≠ []) →
      (events.flatMap eventLines).foldl readLine
          (⟨⟨out, []⟩, true, ["VCALENDAR".toList], none⟩ : Reader J) =
        ⟨⟨out ++ events.map (·.reread), []⟩, true, ["VCALENDAR".toList], none⟩ := by
    intro events
    induction events with
    | nil => simp
    | cons e events ih =>
      intro out he
      obtain ⟨hw, hu⟩ := he e List.mem_cons_self
      rw [List.flatMap_cons, List.foldl_append, foldl_eventLines hJ rfl rfl hw hu,
        ih _ fun e' he' => he e' (List.mem_cons_of_mem _ he'), List.map_cons, List.append_assoc]
      rfl
  unfold parse
  rw [hunfold]
  unfold documentLines
  rw [List.foldl_append, List.foldl_append, hhead, hevents events [] he]
  rfl

theorem eventLines_reread {e : ICalEvent J} (he : e.Read) :
    eventLines e.reread = eventLines e := by
  have hopt : ∀ {α : Type} {f : α → Text} {g : α → α} {o : Option α},
      (∀ a ∈ o, f (g a) = f a) → ((o.map g).map f).toList = (o.map f).toList := by
    intro α f g o h
    cases o with
    | none => rfl
    | some a => simp [h a rfl]
  have htext : ∀ (name : Text) (o : Option Text),
      ((o.map clean).map fun s => contentLine name [] (escape s)).toList =
        (o.map fun s => contentLine name [] (escape s)).toList := fun name o =>
    hopt fun s _ => by rw [escape_clean]
  have htime : ∀ (name : Text) (o : Option (ICalTime J)), (∀ t ∈ o, t.second = t) →
      ((o.map (·.second)).map fun t => contentLine name (writeTime t).1 (writeTime t).2).toList =
        (o.map fun t => contentLine name (writeTime t).1 (writeTime t).2).toList :=
    fun name o h => hopt fun t ht => by rw [h t ht]
  unfold eventLines ICalEvent.reread
  dsimp only
  rw [htext, htext, htext, htime _ _ he.dtstart_second, htime _ _ he.dtend_second, escape_clean]

/-- **Writing is a fixed point over reading.** What was read of a document is written as a
document that is read without a report, one event for each in the same order, and written
again it is the same text. Whatever the events hold, every physical line of what is written
is a text of at most seventy-five octets. -/
theorem write_parse_write (hJ : J.Spells) {input : Text} {cal : Calendar J}
    (h : parse J input = .ok cal) :
    (∃ again : Calendar J, parse J (write cal.events) = .ok again ∧ again.notices = [] ∧
        again.events = cal.events.map (·.reread) ∧ write again.events = write cal.events) ∧
      ∀ events : List (ICalEvent J), ∃ physical : List Text,
        write events = physical.flatMap (· ++ crlf) ∧ ∀ p ∈ physical, octets p ≤ foldAt := by
  have hread := read_of_parse hJ h
  refine ⟨⟨_, parse_write hJ fun e he => ⟨(hread e he).1.toWritable, (hread e he).2⟩, rfl, rfl,
    ?_⟩, fun events => ⟨(documentLines events).flatMap foldLine, flatMap_pushLine _, ?_⟩⟩
  · have hlines : (cal.events.map (·.reread)).flatMap eventLines =
        cal.events.flatMap eventLines := by
      rw [List.flatMap_map]
      exact List.flatMap_congr fun e he => eventLines_reread (hread e he).1
    unfold write documentLines
    rw [hlines]
  · intro p hp
    obtain ⟨line, -, hp⟩ := List.mem_flatMap.mp hp
    exact octets_foldLine line p hp

/-- A document of one event, without its last line, with a line folded in the middle. -/
def lunchDocument : Text :=
  ("BEGIN:VCALENDAR\r\nBEGIN:VEVENT\r\nUID:lunch\r\nSUMMARY:Plan\\, then\r\n  lunch \\\r\n" ++
    "DTSTART;TZID=\"UTC\":20260301T090000\r\nX-ROOM:3\r\nEND:VEVENT\r\n").toList

set_option maxRecDepth 20000 in
theorem write_parse_write_lunch : ∃ cal again : Calendar Jiff.sample,
    parse Jiff.sample lunchDocument = .ok cal ∧ cal.events.length = 1 ∧
      parse Jiff.sample (write cal.events) = .ok again ∧ write again.events = write cal.events := by
  obtain ⟨cal, h, hlen⟩ : ∃ cal, parse Jiff.sample lunchDocument = .ok cal ∧
      cal.events.length = 1 := ⟨_, rfl, rfl⟩
  obtain ⟨⟨again, hagain, -, -, hwrite⟩, -⟩ := write_parse_write Jiff.sample_spells h
  exact ⟨cal, again, h, hlen, hagain, hwrite⟩

end Ical

end Sunrise
