import Sunrise.Ical.Lex

/-!
# Times of an event

The value of a `DTSTART` or a `DTEND`: an instant, a time in a named zone, a time with no
zone, or a date. Its grammar is checked here, digit by digit; what the digits mean, and how
a time is spelled, is the calendar library's business, which the model takes as a parameter.
-/

namespace Sunrise

variable {v : Text}

namespace Ical

open Text

/-- The calendar library. -/
structure Jiff where
  Date : Type
  DateTime : Type
  Timestamp : Type
  Zone : Type
  Span : Type
  /-- Read a date spelled `%Y%m%d`. -/
  dateFrom : Text → Except Text Date
  /-- Read a date and time spelled `%Y%m%dT%H%M%S`. -/
  dateTimeFrom : Text → Except Text DateTime
  dateText : Date → Text
  dateTimeText : DateTime → Text
  /-- Spell an instant as a date and time in UTC, with a `Z`. -/
  timestampText : Timestamp → Text
  spanFrom : Text → Except Text Span
  /-- The zone of a name, where the database has one. -/
  zoneOf : Text → Option Zone
  utc : Zone
  timestampIn : Zone → DateTime → Except Text Timestamp
  midnight : Date → DateTime
  /-- Whether a date and time is the start of its date. -/
  isMidnight : DateTime → Bool
  dateOf : DateTime → Date
  tomorrow : Date → Except Text Date
  dateTimeAdd : DateTime → Span → Except Text DateTime
  /-- The instant a length of time later, counted in UTC. -/
  timestampAdd : Timestamp → Span → Except Text Timestamp
  unanchored : Timestamp
  notAfter : Timestamp → Timestamp → Bool
  dateYear : Date → ℤ
  dateTimeYear : DateTime → ℤ
  timestampYear : Timestamp → ℤ
  /-- A date and time without its fraction of a second. -/
  dateTimeSecond : DateTime → DateTime
  timestampSecond : Timestamp → Timestamp
  showDate : Date → Text
  showDateTime : DateTime → Text
  showTimestamp : Timestamp → Text

def isIcalDate (value : Text) : Bool := value.length == 8 && value.all Char.isDigit

/-- `date-time` without its UTC designator: a date, a `T` and six digits. -/
def isIcalDateTime (value : Text) : Bool :=
  'T' ∈ value && isIcalDate (value.takeWhile (· ≠ 'T')) &&
    (value.dropWhile (· ≠ 'T')).tail.length == 6 &&
    (value.dropWhile (· ≠ 'T')).tail.all Char.isDigit

/-- A year iCalendar can express. -/
def InYears (year : ℤ) : Prop := 0 ≤ year ∧ year ≤ 9999

/-- A character of a zone's name. -/
def zoneChar (c : Char) : Bool := c.isAlphanum || c ∈ ['/', '_', '-', '+']

/-- What the library documents, for the years iCalendar can express: reading gives such a
year at a whole second, writing gives the digits the grammar asks for, and reading what was
written gives the time to the second. The names of zones are letters, digits, slashes,
underscores and signs. -/
structure Jiff.Spells (J : Jiff) : Prop where
  date_read : ∀ v d, isIcalDate v → J.dateFrom v = .ok d → InYears (J.dateYear d)
  date_written : ∀ d, InYears (J.dateYear d) →
    isIcalDate (J.dateText d) ∧ J.dateFrom (J.dateText d) = .ok d
  dateTime_read : ∀ v t, isIcalDateTime v → J.dateTimeFrom v = .ok t →
    InYears (J.dateTimeYear t) ∧ J.dateTimeSecond t = t
  dateTime_written : ∀ t, InYears (J.dateTimeYear t) →
    isIcalDateTime (J.dateTimeText t) ∧ J.dateTimeFrom (J.dateTimeText t) = .ok (J.dateTimeSecond t)
  timestamp_read : ∀ t at_, InYears (J.dateTimeYear t) → J.dateTimeSecond t = t →
    J.timestampIn J.utc t = .ok at_ →
    InYears (J.timestampYear at_) ∧ J.timestampSecond at_ = at_
  timestamp_written : ∀ at_, InYears (J.timestampYear at_) → ∃ v t,
    J.timestampText at_ = v ++ ['Z'] ∧ isIcalDateTime v ∧ J.dateTimeFrom v = .ok t ∧
      J.timestampIn J.utc t = .ok (J.timestampSecond at_)
  zone_name : ∀ tz, (J.zoneOf tz).isSome → tz ≠ [] ∧ ∀ c ∈ tz, zoneChar c

/-- The value of a `DTSTART` or a `DTEND`. -/
inductive ICalTime (J : Jiff) where
  | utc (at_ : J.Timestamp)
  | zoned (civil : J.DateTime) (tz : Text)
  | floating (civil : J.DateTime)
  | date (date : J.Date)

/-- Why a value is not a date. -/
def notADate : Text := "not a DATE; RFC 5545 §3.3.4 wants YYYYMMDD".toList

/-- Why a value is not a date and time. -/
def notADateTime : Text :=
  "not a DATE-TIME; RFC 5545 §3.3.5 wants YYYYMMDDTHHMMSS with an optional Z".toList

/-- Read a date and time without its UTC designator. The name of a zone that had to be
given up comes with it. -/
def parseDateTime (J : Jiff) (params naked : Text) (utc : Bool) :
    Except Text (ICalTime J × Option Text) :=
  if !isIcalDateTime naked then .error notADateTime
  else (J.dateTimeFrom naked).bind fun t =>
    if utc then (J.timestampIn J.utc t).map fun at_ => (.utc at_, none)
    else match param params "TZID".toList with
      | some tz =>
        if (J.zoneOf tz).isSome then .ok (.zoned t tz, none)
        -- a zone the database does not have: read as UTC, and say so
        else (J.timestampIn J.utc t).map fun at_ => (.utc at_, some tz)
      | none => .ok (.floating t, none)

/-- Read a time in the light of its parameters. -/
def parseTime (J : Jiff) (params value : Text) : Except Text (ICalTime J × Option Text) :=
  let value := trim value
  if (param params "VALUE".toList).any (sameName · "DATE".toList) || isIcalDate value then
    if !isIcalDate value then .error notADate
    else (J.dateFrom value).map fun d => (.date d, none)
  else if value.getLast? = some 'Z' ∨ value.getLast? = some 'z' then
    parseDateTime J params value.dropLast true
  else parseDateTime J params value false

/-- The parameters and the value a time is written as. -/
def writeTime {J : Jiff} : ICalTime J → Text × Text
  | .utc at_ => ([], J.timestampText at_)
  | .zoned civil tz => (";TZID=".toList ++ tz, J.dateTimeText civil)
  | .floating civil => ([], J.dateTimeText civil)
  | .date d => (";VALUE=DATE".toList, J.dateText d)

variable {J : Jiff}

def ICalTime.second : ICalTime J → ICalTime J
  | .utc at_ => .utc (J.timestampSecond at_)
  | .zoned civil tz => .zoned (J.dateTimeSecond civil) tz
  | .floating civil => .floating (J.dateTimeSecond civil)
  | .date d => .date d

/-- A time iCalendar can express to the second: its year has four digits and its zone a
name. -/
def ICalTime.Expressible : ICalTime J → Prop
  | .utc at_ => InYears (J.timestampYear at_)
  | .zoned civil tz => InYears (J.dateTimeYear civil) ∧ (J.zoneOf tz).isSome
  | .floating civil => InYears (J.dateTimeYear civil)
  | .date d => InYears (J.dateYear d)

/-! ### The grammar -/

theorem isSpace_of_isIcalDate (h : isIcalDate v) : ∀ c ∈ v, isSpace c = false := by
  unfold isIcalDate at h
  rw [Bool.and_eq_true, List.all_eq_true] at h
  exact fun c hc => isSpace_of_isDigit (h.2 c hc)

theorem isIcalDateTime_spec (h : isIcalDateTime v) :
    ∃ date time, v = date ++ 'T' :: time ∧ isIcalDate date ∧ time.length = 6 ∧
      time.all Char.isDigit := by
  unfold isIcalDateTime at h
  simp only [Bool.and_eq_true, decide_eq_true_eq, beq_iff_eq] at h
  obtain ⟨⟨⟨hT, hdate⟩, hlen⟩, htime⟩ := h
  refine ⟨_, _, ?_, hdate, hlen, htime⟩
  have hsplit := List.takeWhile_append_dropWhile (p := fun c => decide (c ≠ 'T')) (l := v)
  cases hd : v.dropWhile fun c => decide (c ≠ 'T') with
  | nil =>
    exfalso
    have hall := List.dropWhile_eq_nil_iff.mp hd
    simpa using hall 'T' hT
  | cons c rest =>
    have hhead := List.head?_dropWhile_not (fun c => decide (c ≠ 'T')) v
    rw [hd] at hhead
    have hc : c = 'T' := by simpa using hhead
    rw [hd, hc] at hsplit
    rw [hc]
    exact hsplit.symm

theorem mem_isIcalDateTime (h : isIcalDateTime v) :
    ∀ c ∈ v, c.isDigit ∨ c = 'T' := by
  obtain ⟨date, time, rfl, hdate, -, htime⟩ := isIcalDateTime_spec h
  unfold isIcalDate at hdate
  rw [Bool.and_eq_true, List.all_eq_true] at hdate
  rw [List.all_eq_true] at htime
  intro c hc
  rcases List.mem_append.mp hc with hc | hc
  · exact .inl (hdate.2 c hc)
  · rcases List.mem_cons.mp hc with hc | hc
    · exact .inr hc
    · exact .inl (htime c hc)

theorem isSpace_of_isIcalDateTime (h : isIcalDateTime v) :
    ∀ c ∈ v, isSpace c = false := by
  intro c hc
  rcases mem_isIcalDateTime h c hc with hd | rfl
  · exact isSpace_of_isDigit hd
  · decide

theorem length_of_isIcalDateTime (h : isIcalDateTime v) : v.length = 15 := by
  obtain ⟨date, time, rfl, hdate, hlen, -⟩ := isIcalDateTime_spec h
  unfold isIcalDate at hdate
  rw [Bool.and_eq_true, beq_iff_eq] at hdate
  rw [List.length_append, List.length_cons, hdate.1, hlen]

theorem not_isIcalDate_of_length (h : v.length ≠ 8) : isIcalDate v = false := by
  unfold isIcalDate
  rw [Bool.and_eq_false_iff]
  exact .inl (beq_eq_false_iff_ne.mpr h)

theorem getLast?_isIcalDateTime (h : isIcalDateTime v) :
    v.getLast? ≠ some 'Z' ∧ v.getLast? ≠ some 'z' := by
  constructor
  · intro hl
    rcases mem_isIcalDateTime h _ (List.mem_of_getLast? hl) with hd | hd
    · exact absurd hd (by decide)
    · exact absurd hd (by decide)
  · intro hl
    rcases mem_isIcalDateTime h _ (List.mem_of_getLast? hl) with hd | hd
    · exact absurd hd (by decide)
    · exact absurd hd (by decide)

/-! ### Reading what was written -/

theorem zoneChar_spec {c : Char} (h : zoneChar c) :
    isSpace c = false ∧ c ≠ ';' ∧ c ≠ ':' ∧ c ≠ '"' ∧ c ≠ '\n' ∧ c ≠ '\r' := by
  unfold zoneChar at h
  rw [Bool.or_eq_true, decide_eq_true_eq] at h
  have hne : ∀ d : Char, d.isAlphanum = false → d ∉ ['/', '_', '-', '+'] → c ≠ d := by
    intro d hd hm heq
    subst heq
    rcases h with h | h
    · rw [hd] at h
      exact Bool.false_ne_true h
    · exact hm h
  refine ⟨?_, hne _ (by decide) (by decide), hne _ (by decide) (by decide),
    hne _ (by decide) (by decide), hne _ (by decide) (by decide), hne _ (by decide) (by decide)⟩
  rcases h with h | h
  · exact isSpace_of_isAlphanum h
  · simp only [List.mem_cons, List.not_mem_nil, or_false] at h
    rcases h with rfl | rfl | rfl | rfl <;> decide

theorem param_tzid {tz : Text} (h : ∀ c ∈ tz, zoneChar c) (want : Text) :
    param (";TZID=".toList ++ tz) want =
      if sameName "TZID".toList want then some tz else none := by
  have hv : ';' ∉ tz := fun hm => (zoneChar_spec (h _ hm)).2.1 rfl
  have hq : '"' ∉ tz := fun hm => (zoneChar_spec (h _ hm)).2.2.2.1 rfl
  have hs : trim tz = tz := trim_eq_self fun c hc => (zoneChar_spec (h c hc)).1
  have hp := @param_single "TZID".toList tz want (forall_of_all (by decide)) hv
  rw [hs, trimQuotes_eq_self hq] at hp
  exact hp

theorem parseTime_dateTime {v params : Text} (hv : isIcalDateTime v)
    (hp : (param params "VALUE".toList).any (sameName · "DATE".toList) = false) :
    parseTime J params v = parseDateTime J params v false := by
  have htrim : trim v = v := trim_eq_self (isSpace_of_isIcalDateTime hv)
  have hdate : isIcalDate v = false := not_isIcalDate_of_length (by
    rw [length_of_isIcalDateTime hv]
    decide)
  obtain ⟨h₁, h₂⟩ := getLast?_isIcalDateTime hv
  unfold parseTime
  dsimp only
  rw [htrim, hp, hdate, if_neg (by decide), if_neg (by rw [not_or]; exact ⟨h₁, h₂⟩)]

theorem parseTime_utc (hv : isIcalDateTime v) :
    parseTime J [] (v ++ ['Z']) = parseDateTime J [] v true := by
  have hspace : ∀ c ∈ v ++ ['Z'], isSpace c = false := by
    intro c hc
    rcases List.mem_append.mp hc with hc | hc
    · exact isSpace_of_isIcalDateTime hv c hc
    · rw [List.mem_singleton.mp hc]
      decide
  have hdate : isIcalDate (v ++ ['Z']) = false := not_isIcalDate_of_length (by
    rw [List.length_append, length_of_isIcalDateTime hv]
    decide)
  unfold parseTime
  dsimp only
  rw [trim_eq_self hspace, hdate, param_nil, if_neg (by decide),
    if_pos (.inl List.getLast?_concat), List.dropLast_concat]

theorem parseDateTime_ok {v params : Text} {t : J.DateTime} {utc : Bool}
    (hv : isIcalDateTime v) (ht : J.dateTimeFrom v = .ok t) :
    parseDateTime J params v utc =
      if utc then (J.timestampIn J.utc t).map fun at_ => (.utc at_, none)
      else match param params "TZID".toList with
        | some tz =>
          if (J.zoneOf tz).isSome then .ok (.zoned t tz, none)
          else (J.timestampIn J.utc t).map fun at_ => (.utc at_, some tz)
        | none => .ok (.floating t, none) := by
  unfold parseDateTime
  rw [hv, if_neg (by decide), ht]
  rfl

/-- **A time that is written is read back to the second**, and no zone is given up. -/
theorem parseTime_writeTime (hJ : J.Spells) {t : ICalTime J} (ht : t.Expressible) :
    parseTime J (writeTime t).1 (writeTime t).2 = .ok (t.second, none) := by
  cases t with
  | utc at_ =>
    obtain ⟨v, t, htext, hv, hread, hat⟩ := hJ.timestamp_written at_ ht
    show parseTime J [] (J.timestampText at_) = _
    rw [htext, parseTime_utc hv, parseDateTime_ok hv hread, if_pos rfl, hat]
    rfl
  | zoned civil tz =>
    obtain ⟨hyear, hzone⟩ := ht
    obtain ⟨hv, hread⟩ := hJ.dateTime_written civil hyear
    have hname := (hJ.zone_name tz hzone).2
    show parseTime J (";TZID=".toList ++ tz) (J.dateTimeText civil) = _
    rw [parseTime_dateTime hv (by rw [param_tzid hname]; rfl), parseDateTime_ok hv hread,
      if_neg (by decide), param_tzid hname, if_pos (by decide)]
    dsimp only
    rw [if_pos hzone]
    rfl
  | floating civil =>
    obtain ⟨hv, hread⟩ := hJ.dateTime_written civil ht
    show parseTime J [] (J.dateTimeText civil) = _
    rw [parseTime_dateTime hv rfl, parseDateTime_ok hv hread, if_neg (by decide), param_nil]
    rfl
  | date d =>
    obtain ⟨hv, hread⟩ := hJ.date_written d ht
    show parseTime J ";VALUE=DATE".toList (J.dateText d) = _
    unfold parseTime
    dsimp only
    rw [trim_eq_self (isSpace_of_isIcalDate hv), hv, Bool.or_true, if_pos rfl,
      if_neg (by decide), hread]
    rfl

theorem expressible_of_timestampIn (hJ : J.Spells) {t : J.DateTime} {u : ICalTime J}
    {z zone : Option Text} (hyear : InYears (J.dateTimeYear t)) (hsecond : J.dateTimeSecond t = t)
    (h : (J.timestampIn J.utc t).map (fun at_ => ((.utc at_, z) : ICalTime J × Option Text)) =
      .ok (u, zone)) : u.Expressible ∧ u.second = u := by
  cases hat : J.timestampIn J.utc t with
  | error e =>
    rw [hat] at h
    simp [Except.map] at h
  | ok at_ =>
    rw [hat] at h
    obtain ⟨rfl, -⟩ := Prod.mk.inj (Except.ok.inj h)
    obtain ⟨hyear', hsecond'⟩ := hJ.timestamp_read t at_ hyear hsecond hat
    exact ⟨hyear', congrArg ICalTime.utc hsecond'⟩

theorem expressible_of_parseDateTime (hJ : J.Spells) {params naked : Text} {utc : Bool}
    {t : ICalTime J} {zone : Option Text} (h : parseDateTime J params naked utc = .ok (t, zone)) :
    t.Expressible ∧ t.second = t := by
  cases hv : isIcalDateTime naked with
  | false =>
    unfold parseDateTime at h
    rw [hv, if_pos (by decide)] at h
    simp at h
  | true =>
    cases ht : J.dateTimeFrom naked with
    | error e =>
      unfold parseDateTime at h
      rw [hv, if_neg (by decide), ht] at h
      simp [Except.bind] at h
    | ok t' =>
      obtain ⟨hyear, hsecond⟩ := hJ.dateTime_read naked t' hv ht
      rw [parseDateTime_ok hv ht] at h
      split at h
      · exact expressible_of_timestampIn hJ hyear hsecond h
      · split at h
        · split at h
          next hzone =>
            obtain ⟨rfl, -⟩ := Prod.mk.inj (Except.ok.inj h)
            exact ⟨⟨hyear, hzone⟩, by rw [ICalTime.second, hsecond]⟩
          next => exact expressible_of_timestampIn hJ hyear hsecond h
        · obtain ⟨rfl, -⟩ := Prod.mk.inj (Except.ok.inj h)
          exact ⟨hyear, by rw [ICalTime.second, hsecond]⟩

/-- **A time that was read can be written**, and has no fraction of a second. -/
theorem expressible_of_parseTime (hJ : J.Spells) {params value : Text} {t : ICalTime J}
    {zone : Option Text} (h : parseTime J params value = .ok (t, zone)) :
    t.Expressible ∧ t.second = t := by
  unfold parseTime at h
  dsimp only at h
  split at h
  · split at h
    · simp at h
    next hdate =>
      cases hd : J.dateFrom (trim value) with
      | error e =>
        rw [hd] at h
        simp [Except.map] at h
      | ok d =>
        rw [hd] at h
        obtain ⟨rfl, -⟩ := Prod.mk.inj (Except.ok.inj h)
        exact ⟨hJ.date_read _ d (by simpa using hdate) hd, rfl⟩
  · split at h
    · exact expressible_of_parseDateTime hJ h
    · exact expressible_of_parseDateTime hJ h

theorem writeTime_spec (hJ : J.Spells) {t : ICalTime J} (ht : t.Expressible) :
    (∀ c ∈ (writeTime t).1, c ≠ ':' ∧ c ≠ '"' ∧ c ≠ '\n') ∧
      ((writeTime t).1 = [] ∨ ∃ rest, (writeTime t).1 = ';' :: rest) ∧
      (writeTime t).2 ≠ [] ∧ ∀ c ∈ (writeTime t).2, isSpace c = false := by
  have hlen : ∀ {v : Text}, isIcalDateTime v → v ≠ [] := by
    intro v hv hnil
    have := length_of_isIcalDateTime hv
    rw [hnil] at this
    simp at this
  cases t with
  | utc at_ =>
    obtain ⟨v, t, htext, hv, -⟩ := hJ.timestamp_written at_ ht
    refine ⟨List.forall_mem_nil _, .inl rfl, ?_, ?_⟩
    · show J.timestampText at_ ≠ []
      rw [htext]
      simp
    · show ∀ c ∈ J.timestampText at_, isSpace c = false
      rw [htext]
      intro c hc
      rcases List.mem_append.mp hc with hc | hc
      · exact isSpace_of_isIcalDateTime hv c hc
      · rw [List.mem_singleton.mp hc]
        decide
  | zoned civil tz =>
    obtain ⟨hv, -⟩ := hJ.dateTime_written civil ht.1
    refine ⟨?_, .inr ⟨"TZID=".toList ++ tz, rfl⟩, hlen hv, isSpace_of_isIcalDateTime hv⟩
    intro c hc
    rcases List.mem_append.mp hc with hc | hc
    · have hlit : ∀ c ∈ ";TZID=".toList, c ≠ ':' ∧ c ≠ '"' ∧ c ≠ '\n' :=
        forall_of_all (by decide)
      exact hlit c hc
    · obtain ⟨-, -, h₁, h₂, h₃, -⟩ := zoneChar_spec ((hJ.zone_name tz ht.2).2 c hc)
      exact ⟨h₁, h₂, h₃⟩
  | floating civil =>
    obtain ⟨hv, -⟩ := hJ.dateTime_written civil ht
    exact ⟨List.forall_mem_nil _, .inl rfl, hlen hv, isSpace_of_isIcalDateTime hv⟩
  | date d =>
    obtain ⟨hv, -⟩ := hJ.date_written d ht
    refine ⟨?_, .inr ⟨"VALUE=DATE".toList, rfl⟩, ?_, isSpace_of_isIcalDate hv⟩
    · show ∀ c ∈ ";VALUE=DATE".toList, _
      exact forall_of_all (by decide)
    · intro hnil
      have hnil' : J.dateText d = [] := hnil
      rw [hnil'] at hv
      simp [isIcalDate] at hv

/-! ### A library of whole seconds -/

theorem isIcalDateTime_midnight (h : isIcalDate v) :
    isIcalDateTime (v ++ "T000000".toList) := by
  have hT : 'T' ∉ v := by
    intro hm
    unfold isIcalDate at h
    rw [Bool.and_eq_true, List.all_eq_true] at h
    exact absurd (h.2 _ hm) (by decide)
  have hne : ∀ c ∈ v, decide (c ≠ 'T') = true := fun c hc =>
    decide_eq_true fun heq => hT (heq ▸ hc)
  unfold isIcalDateTime
  rw [List.takeWhile_append_of_pos hne, List.dropWhile_append_of_pos hne]
  simp [h]

theorem isIcalDate_take (h : isIcalDateTime v) : isIcalDate (v.take 8) := by
  obtain ⟨date, time, rfl, hdate, -, -⟩ := isIcalDateTime_spec h
  have hlen : date.length = 8 := by
    unfold isIcalDate at hdate
    rw [Bool.and_eq_true, beq_iff_eq] at hdate
    exact hdate.1
  rw [← hlen, List.take_left]
  exact hdate

/-- The number four digits spell. -/
def yearOf (v : Text) : ℤ :=
  ((v.take 4).foldl (fun n c => 10 * n + (c.toNat - '0'.toNat)) 0 : ℕ)

/-- A library of whole seconds in UTC: its dates and times are the digits they are spelled
with. It has no lengths of time. -/
def Jiff.sample : Jiff where
  Date := { v : Text // isIcalDate v }
  DateTime := { v : Text // isIcalDateTime v }
  Timestamp := { v : Text // isIcalDateTime v }
  Zone := Unit
  Span := Empty
  dateFrom v := if h : isIcalDate v then .ok ⟨v, h⟩ else .error []
  dateTimeFrom v := if h : isIcalDateTime v then .ok ⟨v, h⟩ else .error []
  dateText d := d.1
  dateTimeText t := t.1
  timestampText t := t.1 ++ ['Z']
  spanFrom _ := .error []
  zoneOf tz := if tz = "UTC".toList then some () else none
  utc := ()
  timestampIn _ t := .ok t
  midnight d := ⟨d.1 ++ "T000000".toList, isIcalDateTime_midnight d.2⟩
  isMidnight t := t.1.drop 9 == "000000".toList
  dateOf t := ⟨t.1.take 8, isIcalDate_take t.2⟩
  tomorrow _ := .error []
  dateTimeAdd _ span := nomatch span
  timestampAdd _ span := nomatch span
  unanchored := ⟨"99990101T000000".toList, by decide⟩
  notAfter a b := decide (a.1 ≤ b.1)
  dateYear d := yearOf d.1
  dateTimeYear t := yearOf t.1
  timestampYear t := yearOf t.1
  dateTimeSecond t := t
  timestampSecond t := t
  showDate d := d.1
  showDateTime t := t.1
  showTimestamp t := t.1 ++ ['Z']

theorem inYears_yearOf (h : isIcalDate v) : InYears (yearOf v) := by
  unfold isIcalDate at h
  rw [Bool.and_eq_true, beq_iff_eq, List.all_eq_true] at h
  obtain ⟨hlen, hdigit⟩ := h
  obtain _ | ⟨a, _ | ⟨b, _ | ⟨c, _ | ⟨d, rest⟩⟩⟩⟩ := v
  case cons.cons.cons.cons =>
    have ha := digit_le (hdigit a (by simp))
    have hb := digit_le (hdigit b (by simp))
    have hc := digit_le (hdigit c (by simp))
    have hd := digit_le (hdigit d (by simp))
    unfold InYears yearOf
    simp only [List.take_succ_cons, List.take_zero, List.foldl_cons, List.foldl_nil]
    omega
  all_goals simp at hlen

theorem inYears_yearOf_dateTime (h : isIcalDateTime v) : InYears (yearOf v) := by
  have := inYears_yearOf (isIcalDate_take h)
  unfold yearOf at this ⊢
  rwa [List.take_take] at this

theorem Jiff.sample_spells : Jiff.sample.Spells where
  date_read _ d _ _ := inYears_yearOf d.2
  date_written d _ := ⟨d.2, dif_pos d.2⟩
  dateTime_read _ t _ _ := ⟨inYears_yearOf_dateTime t.2, rfl⟩
  dateTime_written t _ := ⟨t.2, dif_pos t.2⟩
  timestamp_read _ at_ _ _ _ := ⟨inYears_yearOf_dateTime at_.2, rfl⟩
  timestamp_written at_ _ := ⟨at_.1, at_, rfl, at_.2, dif_pos at_.2, rfl⟩
  zone_name tz h := by
    have htz : tz = "UTC".toList := by
      by_contra hne
      simp only [Jiff.sample, if_neg hne, Option.isSome_none, Bool.false_eq_true] at h
    rw [htz]
    exact ⟨by decide, forall_of_all (by decide)⟩

end Ical

end Sunrise
