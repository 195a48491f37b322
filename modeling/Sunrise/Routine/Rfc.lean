import Sunrise.Routine.Windows

/-!
# The recurrence set of a rule

What RFC 5545 says a rule recurs on, in its own terms: a date recurs if it lies in every so manyth
period from the anchor's, each part of the rule it has allows it, what the rule leaves open is as
for the anchor, it stands at one of the positions in its period, it is not past the rule's last
time, and fewer than the rule's count recur before it. Dates the calendar has no instant for are
ignored and not counted.

The scan gives the dates of another reading of the rule: a yearly rule that says which days and not
which months is read as one of the anchor's month.

* `Rfc.Candidate`, `Rfc.Instance`, `Rfc.InSet` — **the recurrence set.**
* `mem_out` — **what is given is the set of the rule as it is read.**
-/

namespace Sunrise

open Calendar

variable {d : Date}

namespace Routine

open Ascending
open Calendar (Date DateTime Time)
open Rows (Timestamp SunriseTime)

/-! ### The recurrence set -/

namespace Rfc

section Set

variable {L : Library} (rrule : RRule L) (anchor : DateTime) (tz : L.Zone)

/-- A date lies so many periods after the anchor. -/
def InPeriod (k : ℤ) (d : Date) : Prop :=
  match rrule.freq with
  | .daily => d.num = anchor.date.num + k
  | .weekly => weekStartOf rrule.weekStartDay d.num =
      weekStartOf rrule.weekStartDay anchor.date.num + 7 * k
  | .monthly => d.monthIndex = anchor.date.monthIndex + k
  | .yearly => d.year = anchor.date.year + k
  | .unknown _ => False

def ByMonth (d : Date) : Prop := rrule.byMonth ≠ [] → d.month ∈ rrule.byMonth

def ByDay (d : Date) : Prop :=
  rrule.byDay ≠ [] → ∃ w ∈ rrule.byDay, w.toJiff = some d.weekday

/-- Its days of the month do, those from the end included. -/
def ByMonthDay (d : Date) : Prop :=
  rrule.byMonthDay ≠ [] →
    ∃ v ∈ rrule.byMonthDay, (d.day : ℤ) = v ∨ (d.day : ℤ) = d.daysInMonth + 1 + v

/-- What a rule leaves open is as for the anchor: the day of the week of a weekly rule with no days,
the day of the month of a monthly or yearly one, and the month of a yearly one that has no part
for days and none for months. -/
def FromAnchor (d : Date) : Prop :=
  match rrule.freq with
  | .daily => True
  | .weekly => rrule.byDay = [] → d.weekday = anchor.date.weekday
  | .monthly => rrule.byDay = [] → rrule.byMonthDay = [] → d.day = anchor.date.day
  | .yearly => rrule.byDay = [] → rrule.byMonthDay = [] →
      d.day = anchor.date.day ∧ (rrule.byMonth = [] → d.month = anchor.date.month)
  | .unknown _ => False

@[mk_iff]
structure Candidate (k : ℕ) (d : Date) : Prop where
  inPeriod : InPeriod rrule anchor (k * rrule.step) d
  byMonth : ByMonth rrule d
  byDay : ByDay rrule d
  byMonthDay : ByMonthDay rrule d
  fromAnchor : FromAnchor rrule anchor d

/-- A date stands at one of the rule's positions in its period, from its start or its end. -/
def BySetPos (k : ℕ) (d : Date) : Prop :=
  rrule.bySetPos = [] ∨ ∃ pos ∈ rrule.bySetPos,
    (({e | Candidate rrule anchor k e ∧ e < d}.ncard : ℤ) + 1 = pos ∨
      ({e | Candidate rrule anchor k e ∧ d < e}.ncard : ℤ) + 1 = -pos)

/-- A recurrence. -/
@[mk_iff]
structure Instance (d : Date) : Prop where
  fromStart : anchor.date ≤ d
  placed : ∃ i, L.timestamp tz ⟨d, anchor.time⟩ = some i
  recurs : ∃ k, Candidate rrule anchor k d ∧ BySetPos rrule anchor k d

/-- A date is not past the last time of a rule, where this is a civil one. -/
def BeforeUntil (d : Date) : Prop :=
  match rrule.until_ with
  | some (.floating c) | some (.zoned c _) => (⟨d, anchor.time⟩ : DateTime) ≤ (c : DateTime)
  | some (.allDay date) => d ≤ (date : Date)
  | _ => True

/-- **The recurrence set.** -/
@[mk_iff]
structure InSet (d : Date) : Prop where
  recurs : Instance rrule anchor tz d
  before : BeforeUntil rrule anchor d
  counted : ∀ c, rrule.count = some c → {e | Instance rrule anchor tz e ∧ e < d}.ncard < c

end Set

def InWindow {L : Library} (anchor : DateTime) (tz : L.Zone) (window : Timestamp × Timestamp)
    (d : Date) : Prop :=
  ∃ i, L.timestamp tz ⟨d, anchor.time⟩ = some i ∧ window.1 ≤ i ∧ i < window.2

end Rfc

/-! ### The rule as it is read -/

section Reading

variable {L : Library} (rrule : RRule L) (anchor : DateTime) (tz : L.Zone)

/-- A yearly rule that says which days and not which months. -/
def DaysOfTheYear : Prop :=
  rrule.freq = .yearly ∧ rrule.byMonth = [] ∧ (rrule.byDay ≠ [] ∨ rrule.byMonthDay ≠ [])

instance : Decidable (DaysOfTheYear rrule) :=
  inferInstanceAs (Decidable (rrule.freq = .yearly ∧ rrule.byMonth = [] ∧
    (rrule.byDay ≠ [] ∨ rrule.byMonthDay ≠ [])))

/-- The first week of a weekly rule starts in the calendar. -/
def WeekInCalendar : Prop :=
  rrule.freq = .weekly →
    minDay ≤ weekStartOf rrule.weekStartDay anchor.date.num

instance : Decidable (WeekInCalendar rrule anchor) :=
  inferInstanceAs (Decidable (_ → minDay ≤ _))

/-- A day of the week, named. -/
def Weekday.ofJiff (w : Calendar.Weekday) : Weekday :=
  match w with
  | 0 => .mo
  | 1 => .tu
  | 2 => .we
  | 3 => .th
  | 4 => .fr
  | 5 => .sa
  | 6 => .su

theorem Weekday.toJiff_ofJiff (w : Calendar.Weekday) : (Weekday.ofJiff w).toJiff = some w := by
  revert w
  decide

/-- The rule the scan gives the dates of. -/
def asScanned : RRule L :=
  { rrule with
    byMonth := if DaysOfTheYear rrule then [anchor.date.month] else rrule.byMonth
    wkst := if WeekInCalendar rrule anchor then rrule.wkst
      else some (.ofJiff anchor.date.weekday) }

/-- A date a span of months can reach. -/
def Reached (d : Date) : Prop :=
  rrule.freq = .monthly → d.monthIndex - anchor.date.monthIndex ≤ L.maxMonths

theorem num_weekStart (wk : Calendar.Weekday) (d : Date) : (weekStart d wk).num =
    if minDay ≤ weekStartOf wk d.num then weekStartOf wk d.num
    else d.num := by
  have htmod : ∀ c < 7, ∀ w < 7, (((c : ℕ) - (w : ℕ) : ℤ).tmod 7 + 7).tmod 7 =
      ((c : ℕ) - (w : ℕ) : ℤ) % 7 := by decide
  have hval : ((d.weekday.val : ℕ) : ℤ) = d.num % 7 := by
    unfold Date.weekday weekdayOf
    dsimp only
    omega
  have hback : (((d.weekday.val : ℕ) - (wk.val : ℕ) : ℤ).tmod 7 + 7).tmod 7 =
      (d.num - wk.val) % 7 := by
    rw [htmod _ d.weekday.isLt _ wk.isLt, hval]
    omega
  have hd := d.inRange
  unfold weekStart
  dsimp only
  rw [hback]
  unfold weekStartOf
  unfold Date.addDays Date.ofNum
  split
  next h =>
    rw [if_pos (by omega)]
    rw [Option.getD_some]
    dsimp only
    omega
  next h =>
    rw [if_neg (by omega)]
    rfl

theorem weekStartDay_asScanned : (asScanned rrule anchor).weekStartDay =
    if WeekInCalendar rrule anchor then rrule.weekStartDay else anchor.date.weekday := by
  unfold asScanned RRule.weekStartDay
  dsimp only
  split
  · rfl
  · rw [Option.bind_some, Weekday.toJiff_ofJiff, Option.getD_some]

theorem weekStart_asScanned (hf : rrule.freq = .weekly) :
    (weekStart anchor.date rrule.weekStartDay).num =
      weekStartOf (asScanned rrule anchor).weekStartDay anchor.date.num := by
  rw [num_weekStart, weekStartDay_asScanned]
  split
  next h => rw [if_pos (show WeekInCalendar rrule anchor from fun _ => h)]
  next h =>
    rw [if_neg (show ¬ WeekInCalendar rrule anchor from fun hw => h (hw hf))]
    unfold weekStartOf Date.weekday weekdayOf
    dsimp only
    omega

variable {rrule anchor tz}

theorem matchesBymonth_iff : matchesBymonth rrule d ↔ Rfc.ByMonth rrule d := by
  unfold matchesBymonth Rfc.ByMonth
  cases rrule.byMonth <;> simp

theorem matchesByday_iff : matchesByday rrule d ↔ Rfc.ByDay rrule d := by
  unfold matchesByday Rfc.ByDay
  cases rrule.byDay <;> simp

theorem matchesBymonthday_iff :
    matchesBymonthday rrule d ↔ Rfc.ByMonthDay rrule d := by
  have hd := d.month_spec.2.2
  have hv : ∀ v : ℤ, (if 0 < v then decide ((d.day : ℤ) = v)
      else if v < 0 then decide ((d.day : ℤ) = d.daysInMonth + 1 + v) else false) ↔
        (d.day : ℤ) = v ∨ (d.day : ℤ) = d.daysInMonth + 1 + v := by
    intro v
    split
    next h =>
      rw [decide_eq_true_iff]
      omega
    next h =>
      split
      next h' =>
        rw [decide_eq_true_iff]
        omega
      next h' =>
        simp only [Bool.false_eq_true, false_iff]
        omega
  unfold matchesBymonthday Rfc.ByMonthDay
  dsimp only
  rw [Bool.or_eq_true, List.isEmpty_iff, List.any_eq_true]
  simp only [hv]
  by_cases hnil : rrule.byMonthDay = [] <;> simp [hnil]

theorem passes_asScanned : Passes rrule anchor.date d ↔
    Rfc.ByMonth (asScanned rrule anchor) d ∧ Rfc.ByDay (asScanned rrule anchor) d ∧
      Rfc.ByMonthDay (asScanned rrule anchor) d ∧
        Rfc.FromAnchor (asScanned rrule anchor) anchor d := by
  have hday : Rfc.ByDay (asScanned rrule anchor) d ↔ Rfc.ByDay rrule d := Iff.rfl
  have hmonthday : Rfc.ByMonthDay (asScanned rrule anchor) d ↔ Rfc.ByMonthDay rrule d := Iff.rfl
  rw [passes_iff, matchesBymonth_iff, matchesByday_iff, matchesBymonthday_iff, hday, hmonthday]
  have himp : Rfc.ByMonth rrule d ∧ Implied rrule anchor.date d ↔
      Rfc.ByMonth (asScanned rrule anchor) d ∧
        Rfc.FromAnchor (asScanned rrule anchor) anchor d := by
    by_cases hread : DaysOfTheYear rrule
    · have hmonths : (asScanned rrule anchor).byMonth = [anchor.date.month] := if_pos hread
      have hfreq : (asScanned rrule anchor).freq = .yearly := hread.1
      obtain ⟨hf, hm, hdays⟩ := hread
      unfold Rfc.ByMonth Implied Rfc.FromAnchor
      rw [hmonths, hfreq, hf, hm]
      have hbd : (asScanned rrule anchor).byDay = rrule.byDay := rfl
      have hbmd : (asScanned rrule anchor).byMonthDay = rrule.byMonthDay := rfl
      rw [hbd, hbmd]
      simp only [ne_eq, not_true_eq_false, false_implies, true_and, reduceCtorEq,
        not_false_eq_true, List.mem_singleton, true_implies]
      tauto
    · have hmonths : (asScanned rrule anchor).byMonth = rrule.byMonth := if_neg hread
      unfold Rfc.ByMonth Implied Rfc.FromAnchor
      rw [hmonths]
      have hfreq : (asScanned rrule anchor).freq = rrule.freq := rfl
      have hbd : (asScanned rrule anchor).byDay = rrule.byDay := rfl
      have hbmd : (asScanned rrule anchor).byMonthDay = rrule.byMonthDay := rfl
      rw [hfreq, hbd, hbmd]
      unfold DaysOfTheYear at hread
      cases hf : rrule.freq with
      | yearly =>
        rw [hf] at hread
        dsimp only
        tauto
      | daily => exact Iff.rfl
      | weekly => exact Iff.rfl
      | monthly => exact Iff.rfl
      | unknown raw => exact Iff.rfl
  tauto

/-- **A period of the scan** is one of the rule as it is read. -/
theorem slot_asScanned {p : ℕ} (hknown : ∀ raw, rrule.freq ≠ .unknown raw) :
    slot rrule anchor.date d = slot0 rrule anchor.date + p * rrule.step ↔
      Rfc.InPeriod (asScanned rrule anchor) anchor (p * rrule.step) d := by
  unfold slot slot0 Rfc.InPeriod
  have hfreq : (asScanned rrule anchor).freq = rrule.freq := rfl
  rw [hfreq]
  cases hf : rrule.freq with
  | daily => exact Iff.rfl
  | weekly =>
    have hws := weekStart_asScanned rrule anchor hf
    dsimp only
    rw [hws]
    unfold weekStartOf
    omega
  | monthly => exact Iff.rfl
  | yearly => exact Iff.rfl
  | unknown raw => exact absurd hf (hknown raw)

theorem exists_start_iff {p : ℕ}
    (h : slot rrule anchor.date d = slot0 rrule anchor.date + p * rrule.step)
    (hknown : ∀ raw, rrule.freq ≠ .unknown raw) :
    (∃ ps, periodStartDate rrule anchor.date rrule.weekStartDay p rrule.step = some ps) ↔
      Reached rrule anchor d := by
  have hstep : 0 ≤ (p : ℤ) * rrule.step := Int.mul_nonneg (by omega) rrule.step_pos.le
  have hd := d.inRange
  have ha := anchor.date.inRange
  have hcalendar : maxDay - minDay ≤ 7304484 := by decide
  unfold slot slot0 at h
  unfold periodStartDate Reached
  cases hf : rrule.freq with
  | daily =>
    rw [hf] at h
    dsimp only at h ⊢
    simp only [reduceCtorEq, false_implies, iff_true]
    refine ⟨d, spanOf_bind_eq_some.mpr ⟨?_, Date.addDays_eq_some.mpr h⟩⟩
    show -7304484 ≤ _ ∧ _ ≤ (7304484 : ℤ)
    omega
  | weekly =>
    rw [hf] at h
    have hws := (weekStart anchor.date rrule.weekStartDay).inRange
    dsimp only at h ⊢
    simp only [reduceCtorEq, false_implies, iff_true]
    refine ⟨⟨(weekStart anchor.date rrule.weekStartDay).num + 7 * (p * rrule.step), by omega⟩,
      spanOf_bind_eq_some.mpr ⟨?_, Date.addDays_eq_some.mpr rfl⟩⟩
    show -1043497 ≤ _ ∧ _ ≤ (1043497 : ℤ)
    omega
  | monthly =>
    rw [hf] at h
    dsimp only at h ⊢
    simp only [true_implies, h]
    have hfirst := Date.addMonths_eq_some (e := d.firstOfMonth) (n := p * rrule.step)
      anchor.date.day_firstOfMonth
    rw [anchor.date.monthIndex_firstOfMonth, d.monthIndex_firstOfMonth] at hfirst
    constructor
    · rintro ⟨ps, hps⟩
      have hcap : _ ∧ p * rrule.step ≤ L.maxMonths := (spanOf_bind_eq_some.mp hps).1
      omega
    · intro hcap
      refine ⟨d.firstOfMonth, spanOf_bind_eq_some.mpr ⟨?_, hfirst.mpr ⟨h, d.day_firstOfMonth⟩⟩⟩
      show -L.maxMonths ≤ _ ∧ _ ≤ L.maxMonths
      omega
  | yearly =>
    rw [hf] at h
    dsimp only at h ⊢
    simp only [reduceCtorEq, false_implies, iff_true]
    have hyear := d.year_range
    obtain ⟨ps, hps⟩ := Date.exists_new (y := d.year) (m := 1) (k := 1) hyear.1 hyear.2
      (by omega) (by omega) (by omega) (by simp [daysInMonth])
    rw [← h]
    exact ⟨ps, Option.bind_eq_some_iff.mpr ⟨d.year, if_pos (by omega), hps⟩⟩
  | unknown raw => exact absurd hf (hknown raw)

/-- **The dates of a period of the scan** are those of the rule as it is read. -/
theorem mem_candidates {p : ℕ} (hknown : ∀ raw, rrule.freq ≠ .unknown raw) :
    d ∈ periodCandidates rrule anchor.date rrule.weekStartDay p rrule.step ↔
      Rfc.Candidate (asScanned rrule anchor) anchor p d ∧ Reached rrule anchor d := by
  have hstep : (asScanned rrule anchor).step = rrule.step := rfl
  rw [mem_periodCandidates, passes_asScanned, Rfc.candidate_iff, hstep]
  constructor
  · rintro ⟨hstart, hslot, hpass⟩
    exact ⟨⟨(slot_asScanned hknown).mp hslot, hpass⟩, (exists_start_iff hslot hknown).mp hstart⟩
  · rintro ⟨⟨hperiod, hpass⟩, hreach⟩
    have hslot := (slot_asScanned hknown).mpr hperiod
    exact ⟨(exists_start_iff hslot hknown).mpr hreach, hslot, hpass⟩

theorem Reached.of_slot {d e : Date} (h : Reached rrule anchor d)
    (hle : slot rrule anchor.date e ≤ slot rrule anchor.date d) : Reached rrule anchor e := by
  intro hf
  have hd := h hf
  unfold slot at hle
  rw [hf] at hle
  dsimp only at hle
  omega

/-- **The dates a scan picks in a period** stand at the rule's positions among those of the rule as
it is read. -/
theorem mem_selected_iff {p : ℕ} (hknown : ∀ raw, rrule.freq ≠ .unknown raw) :
    d ∈ selected rrule anchor.date p ↔
      Rfc.Candidate (asScanned rrule anchor) anchor p d ∧
        Rfc.BySetPos (asScanned rrule anchor) anchor p d ∧ Reached rrule anchor d := by
  set cand := OrdSet.ofList
    (periodCandidates rrule anchor.date rrule.weekStartDay p rrule.step) with hcand
  have hmem : ∀ e, e ∈ cand.elems ↔
      Rfc.Candidate (asScanned rrule anchor) anchor p e ∧ Reached rrule anchor e := by
    intro e
    rw [← OrdSet.mem_def, hcand, OrdSet.mem_ofList, mem_candidates hknown]
  have hperiod : ∀ {e}, Rfc.Candidate (asScanned rrule anchor) anchor p e →
      slot rrule anchor.date e = slot0 rrule anchor.date + p * rrule.step := fun he =>
    (slot_asScanned hknown).mpr he.inPeriod
  rw [mem_selected, mem_candidates hknown, ← hcand, and_assoc]
  refine and_congr_right fun hd => ?_
  rw [and_comm]
  refine and_congr_left fun hreach => ?_
  -- the other dates of the period are reached too
  have hsame : ∀ e, e ∈ cand.elems ↔ Rfc.Candidate (asScanned rrule anchor) anchor p e := by
    intro e
    rw [hmem]
    exact ⟨And.left, fun he => ⟨he, hreach.of_slot ((hperiod he).trans (hperiod hd).symm).le⟩⟩
  have hbefore : {e | Rfc.Candidate (asScanned rrule anchor) anchor p e ∧ e < d}.ncard =
      before id cand.elems d := by
    simp only [← hsame]
    exact ncard_setOf_mem cand.nodup (· < d)
  have hafter : {e | Rfc.Candidate (asScanned rrule anchor) anchor p e ∧ d < e}.ncard =
      after cand.elems d := by
    simp only [← hsame]
    exact ncard_setOf_mem cand.nodup (d < ·)
  unfold AtPosition Rfc.BySetPos
  rw [hbefore, hafter]
  rfl

/-! ### What is given -/

/-- The last time of a rule is a civil one, in the zone of the expansion if in any. -/
def CivilUntil (rrule : RRule L) (tz : L.Zone) : Prop :=
  ∀ bound, rrule.until_ = some bound →
    match bound with
    | .floating _ | .allDay _ => True
    | .zoned _ name => ∃ z, L.zoneOf name = some z ∧ L.eqZone z tz
    | _ => False

theorem CivilUntil.untilUnknown_eq (h : CivilUntil rrule tz) : rrule.untilUnknown = false := by
  unfold RRule.untilUnknown
  cases hu : rrule.until_ with
  | none => rfl
  | some bound =>
    have := h bound hu
    cases bound with
    | unknown kind raw => exact this.elim
    | _ => rfl

theorem CivilUntil.withinUntil_iff (h : CivilUntil rrule tz) {o : Occurrence}
    (ho : occurrenceOn anchor tz d = some o) :
    withinUntil rrule tz o ↔ Rfc.BeforeUntil rrule anchor d := by
  obtain ⟨-, hcivil, -, -⟩ := occurrenceOn_eq_some.mp ho
  unfold withinUntil beforeUntil Rfc.BeforeUntil
  cases hu : rrule.until_ with
  | none => simp
  | some bound =>
    have hb := h bound hu
    rw [Option.all_some, hcivil]
    unfold withinBound
    cases bound with
    | floating c =>
      rw [Option.getD_some, decide_eq_true_iff]
      exact Iff.rfl
    | allDay date =>
      rw [Option.getD_some, decide_eq_true_iff]
      exact Iff.rfl
    | zoned c name =>
      obtain ⟨z, hz, heq⟩ := hb
      have hsame : (L.zoneOf name).any (fun z => sameZone L z tz o.at_) = true := by
        rw [hz, Option.any_some, sameZone, heq, Bool.true_or]
      dsimp only
      rw [if_pos hsame, Option.getD_some, decide_eq_true_iff]
      exact Iff.rfl
    | instant at_ => exact hb.elim
    | unknown kind raw => exact hb.elim

theorem Rfc.BeforeUntil.mono {d e : Date} (h : Rfc.BeforeUntil rrule anchor d) (hle : e ≤ d) :
    Rfc.BeforeUntil rrule anchor e := by
  have hcivil : (⟨e, anchor.time⟩ : DateTime) ≤ ⟨d, anchor.time⟩ := DateTime.mk_le_mk.mpr hle
  unfold Rfc.BeforeUntil at h ⊢
  split at h
  next c hc => exact hcivil.trans h
  next c name hc => exact hcivil.trans h
  next date hdate => exact hle.trans h
  next => trivial

def Occurrence.date (o : Occurrence) : Date := o.civil.date

theorem date_occurrenceOn {o : Occurrence} (h : occurrenceOn anchor tz d = some o) :
    o.date = d := by
  unfold Occurrence.date
  rw [(occurrenceOn_eq_some.mp h).2.1]

theorem placed_dates_sorted (n : ℕ) :
    (placed rrule anchor tz 0 n).Pairwise fun o o' => o.date < o'.date := by
  refine (placed_sorted 0 n).imp_of_mem fun ho ho' hlt => ?_
  obtain ⟨-, -, -, d, -, hd⟩ := mem_placed.mp ho
  obtain ⟨-, -, -, e, -, he⟩ := mem_placed.mp ho'
  rw [(occurrenceOn_eq_some.mp hd).2.1, (occurrenceOn_eq_some.mp he).2.1] at hlt
  rw [date_occurrenceOn hd, date_occurrenceOn he]
  exact DateTime.mk_lt_mk.mp hlt

theorem mem_takeIn (h : CivilUntil rrule tz) {n : ℕ} {o : Occurrence} :
    o ∈ takeIn rrule tz 0 (placed rrule anchor tz 0 n) ↔
      o ∈ placed rrule anchor tz 0 n ∧ withinUntil rrule tz o ∧
        ∀ c, rrule.count = some c →
          before Occurrence.date (placed rrule anchor tz 0 n) o < c := by
  have hsorted : (placed rrule anchor tz 0 n).Pairwise fun o o' => o.date < o'.date :=
    placed_dates_sorted n
  have hdown : ∀ x ∈ placed rrule anchor tz 0 n, ∀ y ∈ placed rrule anchor tz 0 n,
      x.date < y.date → withinUntil rrule tz y → withinUntil rrule tz x := by
    intro x hx y hy hlt huntil
    obtain ⟨-, -, -, d, -, hd⟩ := mem_placed.mp hx
    obtain ⟨-, -, -, e, -, he⟩ := mem_placed.mp hy
    rw [date_occurrenceOn hd, date_occurrenceOn he] at hlt
    exact (h.withinUntil_iff hd).mpr (((h.withinUntil_iff he).mp huntil).mono hlt.le)
  have hfilter : (placed rrule anchor tz 0 n).takeWhile (withinUntil rrule tz) =
      (placed rrule anchor tz 0 n).filter (withinUntil rrule tz) :=
    takeWhile_eq_filter (hsorted.imp_of_mem fun {x y} hx hy hlt => hdown x hx y hy hlt)
  rw [takeIn_eq, hfilter]
  cases hc : rrule.count with
  | none => simp
  | some c =>
    rw [Option.elim_some, Nat.sub_zero, mem_take_iff (hsorted.sublist List.filter_sublist),
      List.mem_filter, and_assoc]
    refine and_congr_right fun hmem => and_congr_right fun huntil => ?_
    have hbefore : before Occurrence.date
        ((placed rrule anchor tz 0 n).filter (withinUntil rrule tz)) o =
          before Occurrence.date (placed rrule anchor tz 0 n) o := by
      unfold before
      rw [List.countP_filter]
      refine List.countP_congr fun x hx => ?_
      rw [Bool.and_eq_true, decide_eq_true_iff]
      exact and_iff_left_of_imp fun hlt => hdown x hx o hmem hlt huntil
    rw [hbefore]
    simp

variable {window : Timestamp × Timestamp}

theorem freq_ne_unknown (h : rrule.isUnderstood) (raw : String) :
    rrule.freq ≠ .unknown raw := by
  intro hf
  simp [RRule.isUnderstood, RRule.firstUnknown, hf] at h

theorem mem_placed_dates (hknown : ∀ raw, rrule.freq ≠ .unknown raw) {n q : ℕ}
    (hd : d ∈ selected rrule anchor.date q) (hq : q < n) {e : Date} (hle : e ≤ d) :
    e ∈ (placed rrule anchor tz 0 n).map Occurrence.date ↔
      Rfc.Instance (asScanned rrule anchor) anchor tz e := by
  rw [List.mem_map]
  constructor
  · rintro ⟨o, ho, rfl⟩
    obtain ⟨p, -, -, e', he', hocc⟩ := mem_placed.mp ho
    obtain ⟨hfrom, hcivil, -, hinst⟩ := occurrenceOn_eq_some.mp hocc
    rw [date_occurrenceOn hocc]
    obtain ⟨hcand, hpos, -⟩ := (mem_selected_iff hknown).mp he'
    exact ⟨hfrom, ⟨_, hinst⟩, p, hcand, hpos⟩
  · rintro ⟨hfrom, ⟨i, hi⟩, p, hcand, hpos⟩
    have hreach : Reached rrule anchor e :=
      ((mem_selected_iff hknown).mp hd).2.2.of_slot (slot_mono rrule anchor.date hle)
    have he : e ∈ selected rrule anchor.date p :=
      (mem_selected_iff hknown).mpr ⟨hcand, hpos, hreach⟩
    have hpq : p ≤ q := by
      by_contra hlt
      exact not_lt.mpr hle (lt_of_mem_selected (not_le.mp hlt) hd he)
    have hocc : occurrenceOn anchor tz e =
        some ⟨formatKey e anchor.time, ⟨e, anchor.time⟩, i⟩ :=
      occurrenceOn_eq_some.mpr ⟨hfrom, rfl, rfl, hi⟩
    exact ⟨_, mem_placed.mpr ⟨p, p.zero_le, by omega, e, he, hocc⟩, rfl⟩

/-- **What is given is the set of the rule as it is read**, as far as spans reach. -/
theorem mem_out (hz : ZoneLaws L tz) (hu : rrule.isUnderstood) (hcivil : CivilUntil rrule tz)
    {out : List Occurrence} (h : expand rrule anchor tz window = .ok out) :
    d ∈ out.map Occurrence.date ↔ Rfc.InSet (asScanned rrule anchor) anchor tz d ∧
      Reached rrule anchor d ∧ Rfc.InWindow anchor tz window d := by
  have hknown := freq_ne_unknown hu
  have hout : ∀ n, maxPeriods ≤ n → out =
      (takeIn rrule tz 0 (placed rrule anchor tz 0 n)).filter
        (inWindow Occurrence.at_ window.1 window.2) := by
    intro n hn
    unfold expand at h
    rw [hu, hcivil.untilUnknown_eq, if_neg (by simp)] at h
    exact (scan_eq hz rfl hn h).trans (List.nil_append _)
  -- what stands before an occurrence is what recurs before its date
  have hbefore : ∀ {n q : ℕ} {o : Occurrence}, q < n → d ∈ selected rrule anchor.date q →
      occurrenceOn anchor tz d = some o →
        before Occurrence.date (placed rrule anchor tz 0 n) o =
          {e | Rfc.Instance (asScanned rrule anchor) anchor tz e ∧ e < d}.ncard := by
    intro n q o hq hd ho
    have hsorted : (placed rrule anchor tz 0 n).Pairwise fun o o' => o.date < o'.date :=
      placed_dates_sorted n
    have hset : {e | Rfc.Instance (asScanned rrule anchor) anchor tz e ∧ e < d} =
        {e | e ∈ (placed rrule anchor tz 0 n).map Occurrence.date ∧ e < d} := by
      ext e
      exact and_congr_left fun hlt => (mem_placed_dates hknown hd hq hlt.le).symm
    have hnodup : ((placed rrule anchor tz 0 n).map Occurrence.date).Nodup :=
      (List.pairwise_map.mpr hsorted).imp ne_of_lt
    rw [hset, ncard_setOf_mem hnodup (· < d), List.countP_map, before, date_occurrenceOn ho]
    rfl
  rw [List.mem_map]
  constructor
  · rintro ⟨o, ho, rfl⟩
    rw [hout maxPeriods le_rfl, List.mem_filter, mem_takeIn hcivil, inWindow_iff] at ho
    obtain ⟨⟨hplaced, huntil, hcount⟩, hwin⟩ := ho
    obtain ⟨q, -, hq, d, hd, hocc⟩ := mem_placed.mp hplaced
    obtain rfl := date_occurrenceOn hocc
    rw [Nat.zero_add] at hq
    obtain ⟨-, -, -, hinst⟩ := occurrenceOn_eq_some.mp hocc
    refine ⟨⟨?_, (hcivil.withinUntil_iff hocc).mp huntil, fun c hc => ?_⟩,
      ((mem_selected_iff hknown).mp hd).2.2, o.at_, hinst, hwin⟩
    · exact (mem_placed_dates hknown hd hq le_rfl).mp (List.mem_map_of_mem hplaced)
    · rw [← hbefore hq hd hocc]
      exact hcount c hc
  · rintro ⟨⟨⟨hfrom, -, q, hcand, hpos⟩, huntil, hcount⟩, hreach, i, hi, hwin⟩
    have hd : d ∈ selected rrule anchor.date q :=
      (mem_selected_iff hknown).mpr ⟨hcand, hpos, hreach⟩
    have hocc : occurrenceOn anchor tz d =
        some ⟨formatKey d anchor.time, ⟨d, anchor.time⟩, i⟩ :=
      occurrenceOn_eq_some.mpr ⟨hfrom, rfl, rfl, hi⟩
    have hq : q < max maxPeriods (q + 1) := by omega
    refine ⟨_, ?_, date_occurrenceOn hocc⟩
    rw [hout (max maxPeriods (q + 1)) (le_max_left _ _), List.mem_filter, mem_takeIn hcivil,
      inWindow_iff]
    refine ⟨⟨mem_placed.mpr ⟨q, q.zero_le, by omega, d, hd, hocc⟩,
      (hcivil.withinUntil_iff hocc).mpr huntil, fun c hc => ?_⟩, hwin⟩
    rw [hbefore hq hd hocc]
    exact hcount c hc

theorem asScanned_eq (hread : ¬ DaysOfTheYear rrule) (hweek : WeekInCalendar rrule anchor) :
    asScanned rrule anchor = rrule := by
  unfold asScanned
  rw [if_neg hread, if_pos hweek]

/-- The dates of a rule that says which days of the year, as it is read, are those of the anchor's
month. -/
theorem candidate_asScanned (hread : DaysOfTheYear rrule) {k : ℕ} :
    Rfc.Candidate (asScanned rrule anchor) anchor k d ↔
      Rfc.Candidate rrule anchor k d ∧ d.month = anchor.date.month := by
  have hmonths : (asScanned rrule anchor).byMonth = [anchor.date.month] := if_pos hread
  obtain ⟨hf, hm, hdays⟩ := hread
  have hperiod : Rfc.InPeriod (asScanned rrule anchor) anchor
      (k * (asScanned rrule anchor).step) d ↔ Rfc.InPeriod rrule anchor (k * rrule.step) d := by
    have hfreq : (asScanned rrule anchor).freq = .yearly := hf
    unfold Rfc.InPeriod
    rw [hfreq, hf]
    exact Iff.rfl
  have hfrom : Rfc.FromAnchor rrule anchor d := by
    unfold Rfc.FromAnchor
    rw [hf]
    exact fun hd hmd => absurd hdays (by tauto)
  have hfrom' : Rfc.FromAnchor (asScanned rrule anchor) anchor d := by
    have hfreq : (asScanned rrule anchor).freq = .yearly := hf
    unfold Rfc.FromAnchor
    rw [hfreq]
    exact fun hd hmd => absurd hdays (by
      have hd' : rrule.byDay = [] := hd
      have hmd' : rrule.byMonthDay = [] := hmd
      tauto)
  have hday : Rfc.ByDay (asScanned rrule anchor) d ↔ Rfc.ByDay rrule d := Iff.rfl
  have hmonthday : Rfc.ByMonthDay (asScanned rrule anchor) d ↔ Rfc.ByMonthDay rrule d := Iff.rfl
  have hmonth : Rfc.ByMonth rrule d := fun h => absurd hm h
  have hmonth' : Rfc.ByMonth (asScanned rrule anchor) d ↔ d.month = anchor.date.month := by
    unfold Rfc.ByMonth
    rw [hmonths]
    simp
  rw [Rfc.candidate_iff, Rfc.candidate_iff, hperiod, hday, hmonthday, hmonth']
  tauto

end Reading

/-! ### Against the recurrence set -/

/-- What is given has the dates of the recurrence set that fall in the window, and no others. -/
def FollowsRfc {L : Library} (rrule : RRule L) (anchor : DateTime) (tz : L.Zone)
    (window : Timestamp × Timestamp) (out : List Occurrence) : Prop :=
  ∀ d, d ∈ out.map Occurrence.date ↔
    Rfc.InSet rrule anchor tz d ∧ Rfc.InWindow anchor tz window d

/-- **An expansion gives the recurrence set** exactly where it makes no difference in the window
that a yearly rule which says its days and not its months is read as one of the anchor's month, that
the first week of the calendar may be cut short, and that a span of months has a longest. The first
makes none if the rule is not such a one; and if it is, and has neither positions nor a count, it
makes none where all of its dates in the window lie in the anchor's month. -/
theorem expand_rfc {L : Library} {tz : L.Zone} (hz : ZoneLaws L tz) {rrule : RRule L}
    (hu : rrule.isUnderstood) (hcivil : CivilUntil rrule tz) {anchor : DateTime}
    {window : Timestamp × Timestamp} {out : List Occurrence}
    (h : expand rrule anchor tz window = .ok out) :
    (FollowsRfc rrule anchor tz window out ↔ ∀ d, Rfc.InWindow anchor tz window d →
      (Rfc.InSet rrule anchor tz d ↔
        Rfc.InSet (asScanned rrule anchor) anchor tz d ∧ Reached rrule anchor d)) ∧
    (¬ DaysOfTheYear rrule → WeekInCalendar rrule anchor →
      (∀ d, Rfc.InWindow anchor tz window d → Reached rrule anchor d) →
        FollowsRfc rrule anchor tz window out) ∧
    (DaysOfTheYear rrule → rrule.bySetPos = [] → rrule.count = none →
      (FollowsRfc rrule anchor tz window out ↔ ∀ d, Rfc.InSet rrule anchor tz d →
        Rfc.InWindow anchor tz window d → d.month = anchor.date.month)) := by
  have hiff : FollowsRfc rrule anchor tz window out ↔ ∀ d, Rfc.InWindow anchor tz window d →
      (Rfc.InSet rrule anchor tz d ↔
        Rfc.InSet (asScanned rrule anchor) anchor tz d ∧ Reached rrule anchor d) := by
    unfold FollowsRfc
    refine forall_congr' fun d => ?_
    rw [mem_out hz hu hcivil h]
    tauto
  refine ⟨hiff, fun hread hweek hreach => hiff.mpr fun d hd => ?_, fun hread hpos hcount => ?_⟩
  · rw [asScanned_eq hread hweek]
    exact (and_iff_left (hreach d hd)).symm
  · have hreach : ∀ d, Reached rrule anchor d := by
      intro d hf
      rw [hread.1] at hf
      cases hf
    have hset : ∀ d, Rfc.InSet (asScanned rrule anchor) anchor tz d ↔
        Rfc.InSet rrule anchor tz d ∧ d.month = anchor.date.month := by
      intro d
      have hposition : ∀ k, Rfc.BySetPos rrule anchor k d := fun k => .inl hpos
      have hposition' : ∀ k, Rfc.BySetPos (asScanned rrule anchor) anchor k d :=
        fun k => .inl hpos
      have huntil : Rfc.BeforeUntil (asScanned rrule anchor) anchor d ↔
          Rfc.BeforeUntil rrule anchor d := Iff.rfl
      have hcount' : (asScanned rrule anchor).count = none := hcount
      rw [Rfc.inSet_iff, Rfc.inSet_iff, Rfc.instance_iff, Rfc.instance_iff, huntil, hcount,
        hcount']
      simp only [hposition, hposition', and_true, candidate_asScanned hread, exists_and_right]
      tauto
    rw [hiff]
    refine forall_congr' fun d => ?_
    rw [hset d]
    have := hreach d
    tauto

theorem expand_rfc_daily : ∃ out, newYearDaily 0 3 (by decide) (by decide) = .ok out ∧
    FollowsRfc (.every .daily) (nineOnNewYear 1970 (by decide)) ()
      (startOfDay 0 (by decide), startOfDay 3 (by decide)) out := by
  obtain ⟨out, hout⟩ := exists_of_isOk (e := newYearDaily 0 3 (by decide) (by decide))
    (by decide +kernel)
  have hcivil : CivilUntil (RRule.every .daily) () := fun bound hbound => by cases hbound
  refine ⟨out, hout, (expand_rfc zoneLaws_utc (by decide) hcivil hout).2.1 (by decide)
    (by decide) fun d _ hf => ?_⟩
  cases hf

def RRule.firstOfMonths : RRule utcLibrary := { RRule.every .yearly with byMonthDay := [1] }

/-- A yearly rule for the first of every month gives the first of January alone. -/
theorem not_expand_rfc :
    ¬ ∀ {L : Library} {tz : L.Zone}, ZoneLaws L tz → ∀ (rrule : RRule L), rrule.isUnderstood →
      CivilUntil rrule tz → ∀ anchor : DateTime, Rfc.InSet rrule anchor tz anchor.date →
        ∀ (window : Timestamp × Timestamp) (out : List Occurrence),
          expand rrule anchor tz window = .ok out → FollowsRfc rrule anchor tz window out := by
  intro h
  have hcivil : CivilUntil RRule.firstOfMonths () := fun bound hbound => by cases hbound
  have hset : ∀ d : Date, d.year = 1970 → d.day = 1 →
      (nineOnNewYear 1970 (by decide)).date ≤ d →
      (∃ i, utcLibrary.timestamp () ⟨d, (nineOnNewYear 1970 (by decide)).time⟩ = some i) →
        Rfc.InSet RRule.firstOfMonths (nineOnNewYear 1970 (by decide)) () d := by
    intro d hyear hday hle hplaced
    refine ⟨⟨hle, hplaced, 0, ⟨?_, fun hne => absurd rfl hne, fun hne => absurd rfl hne,
      fun _ => ⟨1, List.mem_singleton_self 1, .inl (by rw [hday]; rfl)⟩,
      fun _ hmd => by cases hmd⟩, .inl rfl⟩, trivial, fun c hc => by cases hc⟩
    have hanchor : (nineOnNewYear 1970 (by decide)).date.year = 1970 := by decide +kernel
    show d.year = (nineOnNewYear 1970 (by decide)).date.year + (0 : ℕ) * _
    rw [hyear, hanchor]
    simp
  have hplaced : ∀ (d : Date) (i : Timestamp), i.ns = DateTime.ns
      ⟨d, (nineOnNewYear 1970 (by decide)).time⟩ - utcEpoch →
        utcLibrary.timestamp () ⟨d, (nineOnNewYear 1970 (by decide)).time⟩ = some i :=
    fun d i hi => utcTimestamp_eq_some.mpr hi
  obtain ⟨out, hout⟩ := exists_of_isOk (e := expand RRule.firstOfMonths
    (nineOnNewYear 1970 (by decide)) () (startOfDay 0 (by decide), startOfDay 60 (by decide)))
    (by decide +kernel)
  have hdates : (expand RRule.firstOfMonths (nineOnNewYear 1970 (by decide)) ()
      (startOfDay 0 (by decide), startOfDay 60 (by decide))).toOption.map
        (List.map Occurrence.date) = some [(nineOnNewYear 1970 (by decide)).date] := by
    decide +kernel
  rw [hout] at hdates
  have hdates' : out.map Occurrence.date = [(nineOnNewYear 1970 (by decide)).date] :=
    Option.some.inj hdates
  have hfollows := h zoneLaws_utc RRule.firstOfMonths (by decide) hcivil _
    (hset _ (by decide +kernel) (by decide +kernel) le_rfl
      ⟨_, hplaced _ ⟨32400 * 10 ^ 9, by decide⟩ (by decide +kernel)⟩) _ out hout
  -- the first of February
  have hfebruary := hplaced ⟨719193, by decide⟩
    ⟨31 * (86400 * 10 ^ 9) + 32400 * 10 ^ 9, by decide⟩ (by decide +kernel)
  have hmem := (hfollows ⟨719193, by decide⟩).mpr
    ⟨hset _ (by decide +kernel) (by decide +kernel) (by decide +kernel) ⟨_, hfebruary⟩,
      _, hfebruary, by decide +kernel, by decide +kernel⟩
  rw [hdates', List.mem_singleton] at hmem
  exact absurd hmem (by decide +kernel)

end Routine

end Sunrise
