import Sunrise.Lib.Result
import Sunrise.Routine.Zones

/-!
# The planner day

A day of the planner runs from when the reader's day starts, its wake time or else midnight, and not
before the end of the day before it, to when the next one starts. It may be longer than a civil day,
and where a zone skips a date it is empty. The planner day of an instant is the last of the few
dates up to its own that has started.

* `boundary`, `dayBounds`, `plannerDate` — planner days.
* `lastStarted_eq_ok` — **what the search for the planner day of an instant has seen.**
-/

namespace Sunrise

namespace Planner

open Calendar (Date DateTime Time)
open Routine (Library utcEpoch)
open Rows (Timestamp)

/-! ### Schedules -/

/-- A wake and a sleep time, which differ. -/
structure DayWindow where
  wake : Time
  sleep : Time
  ne : wake ≠ sleep

/-- The sleep time is on the next date. -/
def DayWindow.crossesMidnight (w : DayWindow) : Bool := decide (w.sleep.ns ≤ w.wake.ns)

/-- What the schedule says of a date of its own. -/
inductive DayOverride where
  | window (w : DayWindow)
  | none

/-- When a reader wakes and sleeps. -/
structure DaySchedule where
  weekday : Calendar.Weekday → Option DayWindow
  monthDay : ℤ → Option DayWindow
  date : Date → Option DayOverride

/-- No schedule: every planner day is a civil day. -/
def DaySchedule.empty : DaySchedule := ⟨fun _ => none, fun _ => none, fun _ => none⟩

/-- The window of a date: its own, that of the day of the month, that of the day of the week. -/
def DaySchedule.windowFor (s : DaySchedule) (date : Date) : Option DayWindow :=
  match s.date date with
  | some (.window w) => some w
  | some .none => none
  | none =>
    match s.monthDay date.day with
    | some w => some w
    | none =>
      if date.day = date.daysInMonth then (s.monthDay (-1)).or (s.weekday date.weekday)
      else s.weekday date.weekday

/-! ### Planner days -/

structure OutOfCalendar where
  date : Date
deriving DecidableEq

section Days

variable {L : Library} (s : DaySchedule) (tz : L.Zone)

def at_ (date : Date) (time : Time) : Except OutOfCalendar Timestamp :=
  match L.timestamp tz ⟨date, time⟩ with
  | some i => .ok i
  | none => .error ⟨date⟩

def next (date : Date) : Except OutOfCalendar Date :=
  match date.tomorrow with
  | some d => .ok d
  | none => .error ⟨date⟩

def prev (date : Date) : Except OutOfCalendar Date :=
  match date.addDays (-1) with
  | some d => .ok d
  | none => .error ⟨date⟩

def exists_ (date : Date) : Except OutOfCalendar Bool := do
  let start ← at_ tz date .midnight
  return decide ((L.civil tz start).date = date)

/-- When a date starts: its wake time, or else its midnight. -/
def nominalStart (date : Date) : Except OutOfCalendar Timestamp :=
  match s.windowFor date with
  | some w => at_ tz date w.wake
  | none => at_ tz date .midnight

/-- When a date ends: its sleep time, or else the next midnight. -/
def end_ (date : Date) : Except OutOfCalendar Timestamp :=
  match s.windowFor date with
  | some w =>
    if w.crossesMidnight then do at_ tz (← next date) w.sleep
    else at_ tz date w.sleep
  | none => do at_ tz (← next date) .midnight

def lastExisting : ℕ → Date → Except OutOfCalendar Date
  | 0, d => .ok d
  | n + 1, d => do
    if ← exists_ tz d then return d
    lastExisting n (← prev d)

def prevExisting (date : Date) : Except OutOfCalendar Date := do
  lastExisting tz 2 (← prev date)

/-- The first date from `d` on that a zone has, of the first so many. -/
def firstExisting : ℕ → Date → Except OutOfCalendar Date
  | 0, d => .ok d
  | n + 1, d => do
    if ← exists_ tz d then return d
    firstExisting n (← next d)

/-- When the planner day of a date starts that the zone has. -/
def boundaryAt (d : Date) : Except OutOfCalendar Timestamp := do
  let before ← end_ s tz (← prevExisting tz d)
  return max (← nominalStart s tz d) before

/-- When the planner day of a date starts. -/
def boundary (date : Date) : Except OutOfCalendar Timestamp := do
  boundaryAt s tz (← firstExisting tz 2 date)

def dayBounds (date : Date) : Except OutOfCalendar (Timestamp × Timestamp) := do
  let start ← boundary s tz date
  return (start, ← boundary s tz (← next date))

/-- The last date up to `d` that has started at an instant, of the last so many. -/
def lastStarted (instant : Timestamp) : ℕ → Date → Except OutOfCalendar Date
  | 0, d => .ok d
  | n + 1, d => do
    if (← boundary s tz d) ≤ instant then return d
    lastStarted instant n (← prev d)

def plannerDate (instant : Timestamp) : Except OutOfCalendar Date :=
  lastStarted s tz instant 3 (L.civil tz instant).date

end Days

/-! ### The bounds of a day -/

def hours (n : ℤ) : ℤ := n * (3600 * 10 ^ 9)

def midnightNs (d : Date) : ℤ := d.num * (86400 * 10 ^ 9)

section Bounds

variable {L : Library} {s : DaySchedule} {tz : L.Zone} {d e b : Date} {t : Time} {i f : Timestamp}

theorem ns_mem (d : Date) (t : Time) : midnightNs d ≤ (⟨d, t⟩ : DateTime).ns ∧
    (⟨d, t⟩ : DateTime).ns < midnightNs d + hours 24 := by
  have := t.lt
  unfold midnightNs DateTime.ns hours
  dsimp only
  omega

theorem at_eq_ok : at_ tz d t = .ok i ↔ L.timestamp tz ⟨d, t⟩ = some i := by
  unfold at_
  cases L.timestamp tz ⟨d, t⟩ <;> simp

theorem next_eq_ok : next d = .ok e ↔ e.num = d.num + 1 := by
  unfold next Date.tomorrow
  rw [← Date.addDays_eq_some]
  cases d.addDays 1 <;> simp

theorem prev_eq_ok : prev d = .ok e ↔ e.num = d.num - 1 := by
  unfold prev
  rw [Int.sub_eq_add_neg, ← Date.addDays_eq_some]
  cases d.addDays (-1) <;> simp

theorem nominalStart_eq_ok (h : nominalStart s tz d = .ok i) : ∃ t, at_ tz d t = .ok i := by
  unfold nominalStart at h
  split at h
  · exact ⟨_, h⟩
  · exact ⟨_, h⟩

theorem end_eq_ok (h : end_ s tz d = .ok i) :
    ∃ e t, d.num ≤ e.num ∧ e.num ≤ d.num + 1 ∧ at_ tz e t = .ok i := by
  unfold end_ at h
  split at h
  · split at h
    · obtain ⟨e, he, hat⟩ := Result.bind_eq_ok_iff.mp h
      have := next_eq_ok.mp he
      exact ⟨e, _, by omega, by omega, hat⟩
    · exact ⟨d, _, by omega, by omega, h⟩
  · obtain ⟨e, he, hat⟩ := Result.bind_eq_ok_iff.mp h
    have := next_eq_ok.mp he
    exact ⟨e, _, by omega, by omega, hat⟩

theorem boundary_eq_ok : boundary s tz d = .ok i ↔
    ∃ b, firstExisting tz 2 d = .ok b ∧ boundaryAt s tz b = .ok i :=
  Result.bind_eq_ok_iff

/-- What the search for the planner day of an instant has seen: the dates after it have not started,
and it has, or it is the last one searched. -/
theorem lastStarted_eq_ok {n : ℕ} (h : lastStarted s tz i n d = .ok e) :
    e.num ≤ d.num ∧ d.num ≤ e.num + n ∧
      (∀ b, e < b → b ≤ d → ∃ f, boundary s tz b = .ok f ∧ i < f) ∧
      (d.num < e.num + n → ∃ f, boundary s tz e = .ok f ∧ f ≤ i) := by
  induction n generalizing d with
  | zero =>
    obtain rfl := Except.ok.inj h
    exact ⟨le_rfl, by omega, fun b hb hb' => absurd hb (not_lt.mpr hb'), fun hlt => by omega⟩
  | succ n ih =>
    obtain ⟨f, hf, h⟩ := Result.bind_eq_ok_iff.mp h
    split at h
    next hle =>
      obtain rfl := Except.ok.inj h
      exact ⟨le_rfl, by omega, fun b hb hb' => absurd hb (not_lt.mpr hb'), fun _ => ⟨f, hf, hle⟩⟩
    next hnot =>
      obtain ⟨c, hc, h⟩ := Result.bind_eq_ok_iff.mp h
      have hcnum := prev_eq_ok.mp hc
      obtain ⟨hle, hge, hlate, hstart⟩ := ih h
      refine ⟨by omega, by omega, fun b hb hb' => ?_, fun hlt => hstart (by omega)⟩
      rcases hb'.lt_or_eq with hlt | rfl
      · refine hlate b hb ?_
        rw [Date.le_def]
        rw [Date.lt_def] at hlt
        omega
      · exact ⟨f, hf, not_le.mp hnot⟩

end Bounds

end Planner

end Sunrise
