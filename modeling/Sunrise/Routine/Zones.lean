import Sunrise.Lib.Calendar
import Sunrise.Rows.Time

/-!
# Zones

What the calendar library says of zones: which instant a civil time is at, and which civil time an
instant is. A civil time that a zone skips is moved forward, and of the two instants of one that it
has twice the earlier is taken.

* `Transitions`, `transitionsLibrary` — zones of finitely many transitions.
-/

namespace Sunrise

open Rows Calendar

namespace Routine

open Calendar (Date DateTime Time)
open Rows (Timestamp SunriseTime)

/-! ### The calendar library -/

/-- The calendar library. -/
structure Library where
  Zone : Type
  /-- The zone of a name, where the database has one. -/
  zoneOf : String → Option Zone
  utc : Zone
  eqZone : Zone → Zone → Bool
  /-- The instant a civil time is at in a zone: moved forward out of a gap, the earlier of two. -/
  timestamp : Zone → DateTime → Option Timestamp
  civil : Zone → Timestamp → DateTime
  /-- The offset of a zone at an instant, in seconds. -/
  toOffset : Zone → Timestamp → ℤ
  /-- When the offset of a zone changes after an instant, and what it is from then on. -/
  following : Zone → Timestamp → List (Timestamp × ℤ)
  maxMonths : ℤ
  showDate : Date → String
  showTime : Time → String
  showDateTime : DateTime → String
  dateFrom : String → Option Date
  timeFrom : String → Option Time
  dateTimeFrom : String → Option DateTime
  timestampFrom : String → Option Timestamp

/-- The library as times are kept with it. -/
def Library.jiff (L : Library) : Rows.Jiff where
  Date := Date
  Time := Time
  DateTime := DateTime
  Zone := L.Zone
  zoneOf := L.zoneOf
  utc := L.utc
  timestampIn := L.timestamp
  dateTimeIn := L.civil
  midnight := fun d => ⟨d, .midnight⟩
  dateOf := DateTime.date
  year := Date.year
  showDate := L.showDate
  showTime := L.showTime
  showDateTime := L.showDateTime
  dateFrom := L.dateFrom
  timeFrom := L.timeFrom
  dateTimeFrom := L.dateTimeFrom
  timestampFrom := L.timestampFrom

/-- The seconds either side of an instant for which two zones are compared. -/
def sameZoneSpanSecs : ℤ := 20 * 366 * 24 * 60 * 60

/-- The instant so many seconds later, or the end of the calendar on that side. -/
def saturatingAdd (t : Timestamp) (secs : ℤ) : Timestamp :=
  ⟨max minNanosecond (min maxNanosecond (t.ns + secs * 10 ^ 9)), by
    have : minNanosecond ≤ maxNanosecond := by decide
    omega⟩

/-- Whether two zones place every civil time alike for years around an instant. -/
def sameZone (L : Library) (a b : L.Zone) (around : Timestamp) : Bool :=
  let from_ := saturatingAdd around (-sameZoneSpanSecs)
  let until_ := saturatingAdd around sameZoneSpanSecs
  let within := fun t : Timestamp × ℤ => decide (t.1 ≤ until_)
  L.eqZone a b ||
    (decide (L.toOffset a from_ = L.toOffset b from_) &&
      decide ((L.following a from_).takeWhile within = (L.following b from_).takeWhile within))

/-! ### UTC -/

/-- The epoch, in nanoseconds from the start of the year 1. -/
def utcEpoch : ℤ := 719162 * (86400 * 10 ^ 9)

def utcTimestamp (a : DateTime) : Option Timestamp :=
  if h : minNanosecond ≤ a.ns - utcEpoch ∧ a.ns - utcEpoch ≤ maxNanosecond then
    some ⟨a.ns - utcEpoch, h⟩
  else none

def utcCivil (i : Timestamp) : DateTime where
  date := ⟨(i.ns + utcEpoch) / (86400 * 10 ^ 9), by
    have := i.inRange
    unfold minNanosecond maxNanosecond at this
    unfold minDay maxDay yearStart utcEpoch
    omega⟩
  time := ⟨((i.ns + utcEpoch) % (86400 * 10 ^ 9)).toNat, by omega⟩

theorem ns_utcCivil (i : Timestamp) : (utcCivil i).ns = i.ns + utcEpoch := by
  unfold DateTime.ns utcCivil
  dsimp only
  omega

theorem utcTimestamp_eq_some {a : DateTime} {i : Timestamp} :
    utcTimestamp a = some i ↔ i.ns = a.ns - utcEpoch := by
  unfold utcTimestamp
  split
  next h =>
    rw [Option.some.injEq]
    constructor
    · rintro rfl
      rfl
    · intro heq
      cases i
      cases heq
      rfl
  next h =>
    refine ⟨fun heq => (nomatch heq), fun heq => ?_⟩
    exact absurd (heq ▸ i.inRange) h

/-- A library that knows UTC, and no texts. -/
def utcLibrary : Library where
  Zone := Unit
  zoneOf := fun name => if name = "UTC" then some () else none
  utc := ()
  eqZone := fun _ _ => true
  timestamp := fun _ => utcTimestamp
  civil := fun _ => utcCivil
  toOffset := fun _ _ => 0
  following := fun _ _ => []
  maxMonths := 120000
  showDate := fun _ => ""
  showTime := fun _ => ""
  showDateTime := fun _ => ""
  dateFrom := fun _ => none
  timeFrom := fun _ => none
  dateTimeFrom := fun _ => none
  timestampFrom := fun _ => none

/-! ### Zones of transitions -/

/-- What a zone is off UTC by, in seconds: less than 26 hours. -/
structure Offset where
  secs : ℤ
  lt : -93599 ≤ secs ∧ secs ≤ 93599

theorem Offset.zero_lt : -93599 ≤ (0 : ℤ) ∧ (0 : ℤ) ≤ 93599 := by decide

theorem Offset.sorted_nil : ([] : List (Timestamp × Offset)).Pairwise fun a b => a.1 < b.1 := .nil

/-- A zone of finitely many transitions: its offset before them, and from each on. -/
structure Transitions where
  first : Offset
  /-- When the offset changes, and what it is from then on. -/
  changes : List (Timestamp × Offset)
  sorted : changes.Pairwise fun a b => a.1 < b.1

namespace Transitions

def offset (z : Transitions) (i : Timestamp) : Offset :=
  z.changes.foldl (fun o c => if c.1 ≤ i then c.2 else o) z.first

/-- The instant a civil time is at, in nanoseconds: the first at which the clock shows it, or, if
the clock is set forward past it, that at which it would have shown it. -/
def place (civil : ℤ) : Offset → List (Timestamp × Offset) → ℤ
  | o, [] => civil - o.secs * 10 ^ 9
  | o, c :: changes =>
    if civil - o.secs * 10 ^ 9 < c.1.ns ∨ civil - c.2.secs * 10 ^ 9 < c.1.ns then
      civil - o.secs * 10 ^ 9
    else place civil c.2 changes

/-- The instant a civil time is at. -/
def timestamp (z : Transitions) (a : DateTime) : Option Timestamp :=
  let ns := place (a.ns - utcEpoch) z.first z.changes
  if h : minNanosecond ≤ ns ∧ ns ≤ maxNanosecond then some ⟨ns, h⟩ else none

def civil (z : Transitions) (i : Timestamp) : DateTime where
  date := ⟨(i.ns + (z.offset i).secs * 10 ^ 9 + utcEpoch) / (86400 * 10 ^ 9), by
    have ns := i.inRange
    have secs := (z.offset i).lt
    unfold minNanosecond maxNanosecond at ns
    unfold minDay maxDay yearStart utcEpoch
    omega⟩
  time := ⟨((i.ns + (z.offset i).secs * 10 ^ 9 + utcEpoch) % (86400 * 10 ^ 9)).toNat, by omega⟩

theorem place_eq (civil : ℤ) (o : Offset) (changes : List (Timestamp × Offset)) :
    ∃ o' : Offset, place civil o changes = civil - o'.secs * 10 ^ 9 := by
  induction changes generalizing o with
  | nil => exact ⟨o, rfl⟩
  | cons c changes ih =>
    unfold place
    split
    · exact ⟨o, rfl⟩
    · exact ih c.2

theorem exists_timestamp (z : Transitions) {a : DateTime} (h : minDay + 3 ≤ a.date.num)
    (h' : a.date.num ≤ maxDay - 3) : ∃ i, z.timestamp a = some i := by
  obtain ⟨o, ho⟩ := place_eq (a.ns - utcEpoch) z.first z.changes
  have hsecs := o.lt
  have htime := a.time.lt
  unfold minDay yearStart at h
  unfold maxDay yearStart at h'
  have hns : minNanosecond ≤ place (a.ns - utcEpoch) z.first z.changes ∧
      place (a.ns - utcEpoch) z.first z.changes ≤ maxNanosecond := by
    rw [ho]
    unfold DateTime.ns utcEpoch minNanosecond maxNanosecond
    omega
  exact ⟨⟨_, hns⟩, dif_pos hns⟩

theorem offset_of_fixed {z : Transitions} (h : z.changes = []) (i : Timestamp) :
    z.offset i = z.first := by
  unfold offset
  rw [h]
  rfl

theorem ns_of_timestamp {z : Transitions} {a : DateTime} {i : Timestamp}
    (hi : z.timestamp a = some i) : i.ns = place (a.ns - utcEpoch) z.first z.changes := by
  unfold timestamp at hi
  dsimp only at hi
  split at hi
  · exact (Option.some.inj hi) ▸ rfl
  · cases hi

theorem ns_of_fixed {z : Transitions} (h : z.changes = []) {a : DateTime} {i : Timestamp}
    (hi : z.timestamp a = some i) : i.ns = a.ns - utcEpoch - z.first.secs * 10 ^ 9 := by
  rw [ns_of_timestamp hi, h]
  rfl

end Transitions

def transitionsLibrary : Library where
  Zone := Transitions
  zoneOf := fun _ => none
  utc := ⟨⟨0, Offset.zero_lt⟩, [], Offset.sorted_nil⟩
  eqZone := fun _ _ => false
  timestamp := Transitions.timestamp
  civil := Transitions.civil
  toOffset := fun z i => (z.offset i).secs
  following := fun z i => (z.changes.filter fun c => i < c.1).map fun c => (c.1, c.2.secs)
  maxMonths := 120000
  showDate := fun _ => ""
  showTime := fun _ => ""
  showDateTime := fun _ => ""
  dateFrom := fun _ => none
  timeFrom := fun _ => none
  dateTimeFrom := fun _ => none
  timestampFrom := fun _ => none

end Routine

end Sunrise
