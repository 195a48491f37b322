import Sunrise.Lib.Ascending
import Sunrise.Lib.OrdSet
import Sunrise.Routine.Zones
import Sunrise.Search.Date

/-!
# Expanding a recurrence rule

A rule says which civil times recur after an anchor. They are found period by period: the dates of
a day, a week, a month or a year that the rule's parts leave, of which positions may pick some. A
zone places each on the timeline; a count and a bound stop the scan, which is made from the anchor
whatever window is asked for, and those in the window are what it gives.

* `periodStartDate`, `periodCandidates`, `applySetpos` — the dates of a period.
* `expand` — **the occurrences of a rule in a window.**
-/

namespace Sunrise

namespace Routine

open Calendar (Date DateTime Time)
open Rows (Timestamp SunriseTime)

/-! ### Rules -/

/-- How often a rule recurs. -/
inductive Frequency where
  | daily
  | weekly
  | monthly
  | yearly
  | unknown (raw : String)
deriving DecidableEq

/-- A day of the week, as a rule names it. -/
inductive Weekday where
  | su
  | mo
  | tu
  | we
  | th
  | fr
  | sa
  | unknown (raw : String)
deriving DecidableEq

/-- The day of the week a name stands for. -/
def Weekday.toJiff : Weekday → Option Calendar.Weekday
  | .mo => some 0
  | .tu => some 1
  | .we => some 2
  | .th => some 3
  | .fr => some 4
  | .sa => some 5
  | .su => some 6
  | .unknown _ => none

/-- A recurrence rule. -/
structure RRule (L : Library) where
  freq : Frequency
  interval : ℕ
  byDay : List Weekday
  /-- The days of the month, from its end where negative. -/
  byMonthDay : List ℤ
  byMonth : List ℕ
  /-- The positions in a period, from its end where negative. -/
  bySetPos : List ℤ
  count : Option ℕ
  until_ : Option (SunriseTime L.jiff)
  wkst : Option Weekday

section Rules

variable {L : Library} (rrule : RRule L)

/-- The first value of a rule this build does not know, and the part it stands in. -/
def RRule.firstUnknown : Option (String × String) :=
  match rrule.freq with
  | .unknown raw => some ("FREQ", raw)
  | _ =>
    match rrule.byDay.findSome? fun w => match w with | .unknown raw => some raw | _ => none with
    | some raw => some ("BYDAY", raw)
    | none =>
      match rrule.wkst with
      | some (.unknown raw) => some ("WKST", raw)
      | _ => none

/-- A rule this build can expand. -/
def RRule.isUnderstood : Bool := rrule.firstUnknown.isNone

/-- The day a week starts on, Monday if the rule has none. -/
def RRule.weekStartDay : Calendar.Weekday := (rrule.wkst.bind Weekday.toJiff).getD 0

/-- How many periods it goes on at a time. -/
def RRule.step : ℤ := (max rrule.interval 1 : ℕ)

theorem RRule.step_pos : 0 < rrule.step := by
  unfold RRule.step
  omega

def matchesBymonth (date : Date) : Bool :=
  rrule.byMonth.isEmpty || rrule.byMonth.contains date.month

def matchesByday (date : Date) : Bool :=
  rrule.byDay.isEmpty || rrule.byDay.any fun w => decide (w.toJiff = some date.weekday)

def matchesBymonthday (date : Date) : Bool :=
  let dim : ℤ := date.daysInMonth
  let day : ℤ := date.day
  rrule.byMonthDay.isEmpty || rrule.byMonthDay.any fun v =>
    if 0 < v then decide (day = v) else if v < 0 then decide (day = dim + 1 + v) else false

end Rules

/-! ### Spans -/

inductive SpanUnit where
  | days
  | weeks
  | months
deriving DecidableEq

/-- A length of time on the calendar. -/
structure Span where
  unit : SpanUnit
  n : ℤ
deriving DecidableEq

def Library.maxSpan (L : Library) : SpanUnit → ℤ
  | .days => 7304484
  | .weeks => 1043497
  | .months => L.maxMonths

/-- A span of a unit, if the library can express one that long. -/
def spanOf (L : Library) (unit : SpanUnit) (n : ℤ) : Option Span :=
  if -L.maxSpan unit ≤ n ∧ n ≤ L.maxSpan unit then some ⟨unit, n⟩ else none

/-- The date a span later, if the calendar has it. -/
def checkedAdd (d : Date) (s : Span) : Option Date :=
  match s.unit with
  | .days => d.addDays s.n
  | .weeks => d.addDays (7 * s.n)
  | .months => d.addMonths s.n

/-! ### The dates of a period -/

/-- The day a week starts that begins on `wkst`, or the date where the calendar has none. -/
def weekStart (date : Date) (wkst : Calendar.Weekday) : Date :=
  let cur : ℤ := date.weekday.val
  let start : ℤ := wkst.val
  let back := ((cur - start).tmod 7 + 7).tmod 7
  (date.addDays (-back)).getD date

section Periods

variable {L : Library} (rrule : RRule L) (anchor : Date)

/-- A year of the width the library keeps one in. -/
def asI16 (y : ℤ) : Option ℤ := if -32768 ≤ y ∧ y ≤ 32767 then some y else none

def periodStartDate (wkst : Calendar.Weekday) (p interval : ℤ) : Option Date :=
  match rrule.freq with
  | .daily => (spanOf L .days (p * interval)).bind (checkedAdd anchor)
  | .weekly => (spanOf L .weeks (p * interval)).bind (checkedAdd (weekStart anchor wkst))
  | .monthly => (spanOf L .months (p * interval)).bind (checkedAdd anchor.firstOfMonth)
  | .yearly => (asI16 (anchor.year + p * interval)).bind fun y => Date.new y 1 1
  | .unknown _ => none

def monthCandidates (first : Date) : List Date :=
  let dim := first.daysInMonth
  if rrule.byMonthDay.isEmpty && rrule.byDay.isEmpty then
    -- the anchor's day of the month, which a short month does not have
    if anchor.day ≤ dim then
      ((Date.new first.year first.month anchor.day).filter (matchesBymonth rrule)).toList
    else []
  else
    ((List.range dim).filterMap fun i => Date.new first.year first.month (i + 1)).filter fun d =>
      let mdOk := matchesBymonthday rrule d
      let wdOk := matchesByday rrule d
      let ok := match rrule.byMonthDay.isEmpty, rrule.byDay.isEmpty with
        | false, false => mdOk && wdOk
        | false, true => mdOk
        | true, false => wdOk
        | true, true => true
      ok && matchesBymonth rrule d

def periodCandidates (wkst : Calendar.Weekday) (p interval : ℤ) : List Date :=
  match rrule.freq with
  | .daily =>
    match (spanOf L .days (p * interval)).bind (checkedAdd anchor) with
    | none => []
    | some d =>
      if matchesBymonth rrule d && matchesByday rrule d && matchesBymonthday rrule d then [d]
      else []
  | .weekly =>
    match (spanOf L .weeks (p * interval)).bind (checkedAdd (weekStart anchor wkst)) with
    | none => []
    | some ws =>
      ((List.range 7).filterMap fun i => ws.addDays (i : ℕ)).filter fun d =>
        let dayOk := if rrule.byDay.isEmpty then decide (d.weekday = anchor.weekday)
          else matchesByday rrule d
        dayOk && matchesBymonth rrule d && matchesBymonthday rrule d
  | .monthly =>
    match (spanOf L .months (p * interval)).bind (checkedAdd anchor.firstOfMonth) with
    | none => []
    | some first => monthCandidates rrule anchor first
  | .yearly =>
    match asI16 (anchor.year + p * interval) with
    | none => []
    | some year =>
      -- without months in the rule, the anchor's
      let months := if rrule.byMonth.isEmpty then [anchor.month]
        else rrule.byMonth.filter (· ≤ 127)
      (months.filterMap fun m => Date.new year m 1).flatMap (monthCandidates rrule anchor)
  | .unknown _ => []

/-- The dates at some positions of an ascending list, all of them without positions. -/
def applySetpos (dates : List Date) (setpos : List ℤ) : List Date :=
  if setpos.isEmpty then dates
  else
    let n : ℤ := dates.length
    (OrdSet.ofList (setpos.filterMap fun pos =>
      if pos = 0 then none
      else
        let idx := if 0 < pos then pos - 1 else n + pos
        if 0 ≤ idx ∧ idx < n then dates[idx.toNat]? else none)).elems

def selected (p : ℕ) : List Date :=
  let cand := periodCandidates rrule anchor rrule.weekStartDay p rrule.step
  applySetpos (OrdSet.ofList cand).elems rrule.bySetPos

end Periods

/-! ### Where a period lies -/

section Slots

variable {L : Library} (rrule : RRule L) (anchor : Date)

/-- The periods of the calendar, counted on: the one a date lies in. -/
def slot (d : Date) : ℤ :=
  match rrule.freq with
  | .daily => d.num
  | .weekly => (d.num - (weekStart anchor rrule.weekStartDay).num) / 7
  | .monthly => d.monthIndex
  | .yearly => d.year
  | .unknown _ => 0

/-- The period the scan starts with. -/
def slot0 : ℤ :=
  match rrule.freq with
  | .daily => anchor.num
  | .weekly => 0
  | .monthly => anchor.monthIndex
  | .yearly => anchor.year
  | .unknown _ => 0

/-- What the anchor says where the rule does not. -/
def Implied (d : Date) : Prop :=
  match rrule.freq with
  | .daily => True
  | .weekly => rrule.byDay = [] → d.weekday = anchor.weekday
  | .monthly => rrule.byDay = [] → rrule.byMonthDay = [] → d.day = anchor.day
  | .yearly => (rrule.byDay = [] → rrule.byMonthDay = [] → d.day = anchor.day) ∧
      (rrule.byMonth = [] → d.month = anchor.month)
  | .unknown _ => False

/-- A date the parts of a rule leave. -/
@[mk_iff]
structure Passes (d : Date) : Prop where
  month : matchesBymonth rrule d
  weekday : matchesByday rrule d
  monthday : matchesBymonthday rrule d
  implied : Implied rrule anchor d

theorem slot_mono {a b : Date} (h : a ≤ b) : slot rrule anchor a ≤ slot rrule anchor b := by
  unfold slot
  cases rrule.freq with
  | daily => exact h
  | weekly =>
    have := Date.le_def.mp h
    dsimp only
    omega
  | monthly => exact Date.monthIndex_mono h
  | yearly => exact Date.year_mono h
  | unknown raw => exact le_rfl

theorem spanOf_bind_eq_some {unit : SpanUnit} {n : ℤ} {a d : Date} :
    (spanOf L unit n).bind (checkedAdd a) = some d ↔
      (-L.maxSpan unit ≤ n ∧ n ≤ L.maxSpan unit) ∧ checkedAdd a ⟨unit, n⟩ = some d := by
  unfold spanOf
  split
  next h => simp [h]
  next h => simp [h]

variable {rrule anchor} {p : ℤ} {ps d : Date}

theorem periodStartDate_spec (h : periodStartDate rrule anchor rrule.weekStartDay p rrule.step =
    some ps) : slot rrule anchor ps = slot0 rrule anchor + p * rrule.step ∧
      ∀ d, slot rrule anchor d = slot0 rrule anchor + p * rrule.step → ps ≤ d := by
  unfold periodStartDate at h
  unfold slot slot0
  cases hf : rrule.freq with
  | daily =>
    rw [hf] at h
    have hnum := Date.addDays_eq_some.mp (spanOf_bind_eq_some.mp h).2
    exact ⟨hnum, fun d hd => Date.le_def.mpr (hnum.trans hd.symm).le⟩
  | weekly =>
    rw [hf] at h
    have hnum := Date.addDays_eq_some.mp (spanOf_bind_eq_some.mp h).2
    dsimp only at hnum ⊢
    refine ⟨by omega, fun d hd => Date.le_def.mpr ?_⟩
    omega
  | monthly =>
    rw [hf] at h
    obtain ⟨hindex, hday⟩ := (Date.addMonths_eq_some anchor.day_firstOfMonth).mp
      (spanOf_bind_eq_some.mp h).2
    rw [anchor.monthIndex_firstOfMonth] at hindex
    exact ⟨hindex, fun d hd => Date.le_of_day_eq_one (hindex.trans hd.symm) hday⟩
  | yearly =>
    rw [hf] at h
    obtain ⟨y, hy, hnew⟩ := Option.bind_eq_some_iff.mp h
    obtain ⟨hyear, hmonth, hday⟩ := Date.new_eq_some.mp hnew
    have hy' : anchor.year + p * rrule.step = y := by
      unfold asI16 at hy
      split at hy
      · exact Option.some.inj hy
      · cases hy
    dsimp only
    refine ⟨hyear.trans hy'.symm, fun d hd => ?_⟩
    by_contra hlt
    have hspec := d.month_spec
    rcases Date.name_lt (not_le.mp hlt) with h' | ⟨h', h'' | ⟨-, h''⟩⟩ <;> omega
  | unknown raw =>
    rw [hf] at h
    cases h

theorem periodStartDate_earlier {q : ℤ} (hq : 0 ≤ q) (hqp : q ≤ p)
    (h : periodStartDate rrule anchor rrule.weekStartDay p rrule.step = some ps) :
    ∃ qs, periodStartDate rrule anchor rrule.weekStartDay q rrule.step = some qs := by
  have hpos := rrule.step_pos
  have hq0 : 0 ≤ q * rrule.step := Int.mul_nonneg hq hpos.le
  have hle : q * rrule.step ≤ p * rrule.step := Int.mul_le_mul_of_nonneg_right hqp hpos.le
  unfold periodStartDate at h ⊢
  cases hf : rrule.freq with
  | daily =>
    rw [hf] at h
    obtain ⟨hcap, hadd⟩ := spanOf_bind_eq_some.mp h
    have hnum := Date.addDays_eq_some.mp hadd
    have hanchor := anchor.inRange
    have hps := ps.inRange
    dsimp only at hnum
    exact ⟨⟨anchor.num + q * rrule.step, by omega⟩,
      spanOf_bind_eq_some.mpr ⟨by omega, Date.addDays_eq_some.mpr rfl⟩⟩
  | weekly =>
    rw [hf] at h
    obtain ⟨hcap, hadd⟩ := spanOf_bind_eq_some.mp h
    have hnum := Date.addDays_eq_some.mp hadd
    have hws := (weekStart anchor rrule.weekStartDay).inRange
    have hps := ps.inRange
    dsimp only at hnum
    exact ⟨⟨(weekStart anchor rrule.weekStartDay).num + 7 * (q * rrule.step), by omega⟩,
      spanOf_bind_eq_some.mpr ⟨by omega, Date.addDays_eq_some.mpr rfl⟩⟩
  | monthly =>
    rw [hf] at h
    obtain ⟨hcap, hadd⟩ := spanOf_bind_eq_some.mp h
    obtain ⟨hindex, -⟩ := (Date.addMonths_eq_some anchor.day_firstOfMonth).mp hadd
    obtain ⟨qs, hqs, hday⟩ := Date.exists_month (d := anchor.firstOfMonth) (e := ps)
      (n := q * rrule.step) hq0 (by rw [hindex]; dsimp only; omega)
    exact ⟨qs, spanOf_bind_eq_some.mpr
      ⟨by omega, (Date.addMonths_eq_some anchor.day_firstOfMonth).mpr ⟨hqs, hday⟩⟩⟩
  | yearly =>
    rw [hf] at h
    obtain ⟨y, hy, hnew⟩ := Option.bind_eq_some_iff.mp h
    obtain ⟨hyear, -⟩ := Date.new_eq_some.mp hnew
    unfold asI16 at hy ⊢
    split at hy
    next hin =>
      obtain rfl := Option.some.inj hy
      have hlo := anchor.year_range.1
      have hhi := ps.year_range.2
      obtain ⟨qs, hqs⟩ := Date.exists_new (y := anchor.year + q * rrule.step) (m := 1) (k := 1)
        (by omega) (by omega) (by omega) (by omega) (by omega) (by simp [Calendar.daysInMonth])
      refine ⟨qs, Option.bind_eq_some_iff.mpr ⟨_, if_pos ?_, hqs⟩⟩
      omega
    next => cases hy
  | unknown raw =>
    rw [hf] at h
    cases h

theorem mem_monthCandidates {first : Date} : d ∈ monthCandidates rrule anchor first ↔
    d.monthIndex = first.monthIndex ∧ matchesBymonth rrule d ∧ matchesByday rrule d ∧
      matchesBymonthday rrule d ∧
        (rrule.byDay = [] → rrule.byMonthDay = [] → d.day = anchor.day) := by
  have hdim : d.monthIndex = first.monthIndex → d.day ≤ first.daysInMonth := by
    intro h
    obtain ⟨hy, hm⟩ := Date.monthIndex_eq_iff.mp h
    have := d.month_spec.2.2.2
    unfold Date.daysInMonth at this ⊢
    rwa [hy, hm] at this
  have hday := d.month_spec.2.2.1
  unfold monthCandidates
  dsimp only
  split
  next hempty =>
    obtain ⟨hmd, hd⟩ := Bool.and_eq_true_iff.mp hempty
    rw [List.isEmpty_iff] at hmd hd
    have hby : matchesByday rrule d := by simp [matchesByday, hd]
    have hbm : matchesBymonthday rrule d := by simp [matchesBymonthday, hmd]
    have hnew : Date.new first.year first.month anchor.day = some d ↔
        d.monthIndex = first.monthIndex ∧ d.day = anchor.day := by
      rw [Date.new_eq_some, Date.monthIndex_eq_iff, and_assoc]
    split
    next hle =>
      rw [Option.mem_toList, Option.filter_eq_some_iff, hnew]
      simp only [hd, hmd, hby, hbm, true_and, forall_const]
      tauto
    next hgt =>
      simp only [List.not_mem_nil, false_iff]
      rintro ⟨hindex, -, -, -, himp⟩
      have := hdim hindex
      rw [himp hd hmd] at this
      exact hgt this
  next hempty =>
    have himp : ¬ (rrule.byDay = [] ∧ rrule.byMonthDay = []) := by
      rintro ⟨h, h'⟩
      simp [h, h'] at hempty
    have hok : (match rrule.byMonthDay.isEmpty, rrule.byDay.isEmpty with
        | false, false => matchesBymonthday rrule d && matchesByday rrule d
        | false, true => matchesBymonthday rrule d
        | true, false => matchesByday rrule d
        | true, true => true) = (matchesBymonthday rrule d && matchesByday rrule d) := by
      cases hmd : rrule.byMonthDay.isEmpty <;> cases hd : rrule.byDay.isEmpty <;>
        simp [matchesBymonthday, matchesByday, hmd, hd]
    rw [List.mem_filter, List.mem_filterMap, hok]
    have hnew : (∃ i ∈ List.range first.daysInMonth,
        Date.new first.year first.month (i + 1) = some d) ↔ d.monthIndex = first.monthIndex := by
      rw [Date.monthIndex_eq_iff]
      constructor
      · rintro ⟨i, -, hi⟩
        obtain ⟨hy, hm, -⟩ := Date.new_eq_some.mp hi
        exact ⟨hy, hm⟩
      · rintro ⟨hy, hm⟩
        have := hdim (Date.monthIndex_eq_iff.mpr ⟨hy, hm⟩)
        refine ⟨d.day - 1, List.mem_range.mpr (by omega), Date.new_eq_some.mpr ⟨hy, hm, by omega⟩⟩
    rw [hnew, Bool.and_eq_true, Bool.and_eq_true]
    tauto

/-- The dates of a period are those of its slot that pass, if the period has a start. -/
def HasCandidates (rrule : RRule L) (anchor d : Date) (p : ℤ) : Prop :=
  d ∈ periodCandidates rrule anchor rrule.weekStartDay p rrule.step ↔
    (∃ ps, periodStartDate rrule anchor rrule.weekStartDay p rrule.step = some ps) ∧
      slot rrule anchor d = slot0 rrule anchor + p * rrule.step ∧ Passes rrule anchor d

theorem mem_daily (hf : rrule.freq = .daily) : HasCandidates rrule anchor d p := by
  unfold HasCandidates periodCandidates periodStartDate slot slot0
  rw [passes_iff]
  unfold Implied
  rw [hf]
  dsimp only
  cases he : (spanOf L .days (p * rrule.step)).bind (checkedAdd anchor) with
  | none => simp
  | some e =>
    have hnum := Date.addDays_eq_some.mp (spanOf_bind_eq_some.mp he).2
    have heq : d = e ↔ d.num = anchor.num + p * rrule.step :=
      ⟨fun h => h ▸ hnum, fun h => Date.ext_num (h.trans hnum.symm)⟩
    have hmem : d ∈ (if matchesBymonth rrule e && matchesByday rrule e &&
        matchesBymonthday rrule e then [e] else []) ↔
          d = e ∧ matchesBymonth rrule d ∧ matchesByday rrule d ∧ matchesBymonthday rrule d := by
      split
      next hok =>
        rw [Bool.and_eq_true, Bool.and_eq_true, and_assoc] at hok
        rw [List.mem_singleton]
        exact ⟨fun h => ⟨h, h ▸ hok⟩, fun h => h.1⟩
      next hok =>
        rw [Bool.and_eq_true, Bool.and_eq_true, and_assoc] at hok
        simp only [List.not_mem_nil, false_iff]
        rintro ⟨rfl, h⟩
        exact hok h
    rw [hmem, heq]
    simp

theorem mem_weekly (hf : rrule.freq = .weekly) : HasCandidates rrule anchor d p := by
  unfold HasCandidates periodCandidates periodStartDate slot slot0
  rw [passes_iff]
  unfold Implied
  rw [hf]
  dsimp only
  cases he : (spanOf L .weeks (p * rrule.step)).bind
      (checkedAdd (weekStart anchor rrule.weekStartDay)) with
  | none => simp
  | some ws =>
    have hnum := Date.addDays_eq_some.mp (spanOf_bind_eq_some.mp he).2
    dsimp only at hnum
    have hweek : (∃ i ∈ List.range 7, ws.addDays (i : ℕ) = some d) ↔
        (d.num - (weekStart anchor rrule.weekStartDay).num) / 7 = 0 + p * rrule.step := by
      constructor
      · rintro ⟨i, hi, hadd⟩
        have hd := Date.addDays_eq_some.mp hadd
        have := List.mem_range.mp hi
        omega
      · intro h
        exact ⟨(d.num - ws.num).toNat, List.mem_range.mpr (by omega),
          Date.addDays_eq_some.mpr (by omega)⟩
    have hday : (if rrule.byDay.isEmpty then decide (d.weekday = anchor.weekday)
        else matchesByday rrule d) ↔
          matchesByday rrule d ∧ (rrule.byDay = [] → d.weekday = anchor.weekday) := by
      cases hd : rrule.byDay <;> simp [matchesByday, hd]
    rw [List.mem_filter, List.mem_filterMap, hweek, Bool.and_eq_true, Bool.and_eq_true, hday]
    simp only [Option.some.injEq, exists_eq', true_and]
    tauto

theorem mem_monthly (hf : rrule.freq = .monthly) : HasCandidates rrule anchor d p := by
  unfold HasCandidates periodCandidates periodStartDate slot slot0
  rw [passes_iff]
  unfold Implied
  rw [hf]
  dsimp only
  cases he : (spanOf L .months (p * rrule.step)).bind (checkedAdd anchor.firstOfMonth) with
  | none => simp
  | some first =>
    obtain ⟨hindex, -⟩ := (Date.addMonths_eq_some anchor.day_firstOfMonth).mp
      (spanOf_bind_eq_some.mp he).2
    rw [anchor.monthIndex_firstOfMonth] at hindex
    dsimp only at hindex ⊢
    rw [mem_monthCandidates, hindex]
    simp

theorem mem_yearly (hf : rrule.freq = .yearly) : HasCandidates rrule anchor d p := by
  unfold HasCandidates periodCandidates periodStartDate slot slot0
  rw [passes_iff]
  unfold Implied
  rw [hf]
  dsimp only
  cases hy : asI16 (anchor.year + p * rrule.step) with
  | none => simp
  | some year =>
    have hyear : anchor.year + p * rrule.step = year := by
      unfold asI16 at hy
      split at hy
      · exact Option.some.inj hy
      · cases hy
    rw [hyear, Option.bind_some]
    have hspec := d.month_spec
    -- a year with a date has its first of January
    have hstart : d.year = year → ∃ ps, Date.new year 1 1 = some ps := by
      rintro rfl
      exact Date.exists_new d.year_range.1 d.year_range.2 le_rfl (by omega) le_rfl
        (by simp [Calendar.daysInMonth])
    have hmonth : d.month ∈ (if rrule.byMonth.isEmpty then [anchor.month]
        else rrule.byMonth.filter (· ≤ 127)) ↔
          matchesBymonth rrule d ∧ (rrule.byMonth = [] → d.month = anchor.month) := by
      have h127 : d.month ≤ 127 := by omega
      cases hm : rrule.byMonth <;> simp [matchesBymonth, hm, h127]
    have hfirst : ∀ first, first ∈ (if rrule.byMonth.isEmpty then [anchor.month]
        else rrule.byMonth.filter (· ≤ 127)).filterMap (fun m => Date.new year m 1) →
          d.monthIndex = first.monthIndex → d.year = year := by
      intro first hmem hindex
      obtain ⟨m, -, hnew⟩ := List.mem_filterMap.mp hmem
      exact (Date.monthIndex_eq_iff.mp hindex).1.trans (Date.new_eq_some.mp hnew).1
    rw [List.mem_flatMap]
    constructor
    · rintro ⟨first, hmem, hd⟩
      obtain ⟨hindex, hbm, hbd, hbmd, himp⟩ := mem_monthCandidates.mp hd
      have hdy := hfirst first hmem hindex
      obtain ⟨m, hm, hnew⟩ := List.mem_filterMap.mp hmem
      have hdm : d.month = m :=
        (Date.monthIndex_eq_iff.mp hindex).2.trans (Date.new_eq_some.mp hnew).2.1
      exact ⟨hstart hdy, hdy, hbm, hbd, hbmd, himp, (hmonth.mp (hdm ▸ hm)).2⟩
    · rintro ⟨-, rfl, hbm, hbd, hbmd, himp, hmon⟩
      exact ⟨d.firstOfMonth, List.mem_filterMap.mpr ⟨d.month, hmonth.mpr ⟨hbm, hmon⟩,
        d.new_firstOfMonth⟩, mem_monthCandidates.mpr
          ⟨d.monthIndex_firstOfMonth.symm, hbm, hbd, hbmd, himp⟩⟩

/-- **The dates of a period** are those of the calendar that lie in it and that the rule's parts
leave. -/
theorem mem_periodCandidates :
    d ∈ periodCandidates rrule anchor rrule.weekStartDay p rrule.step ↔
      (∃ ps, periodStartDate rrule anchor rrule.weekStartDay p rrule.step = some ps) ∧
        slot rrule anchor d = slot0 rrule anchor + p * rrule.step ∧ Passes rrule anchor d := by
  cases hf : rrule.freq with
  | daily => exact mem_daily hf
  | weekly => exact mem_weekly hf
  | monthly => exact mem_monthly hf
  | yearly => exact mem_yearly hf
  | unknown raw => simp [periodCandidates, periodStartDate, hf]

end Slots

/-! ### Positions -/

section Positions

open Ascending

/-- How many elements stand after one. -/
def after (dates : List Date) (d : Date) : ℕ := dates.countP fun e => decide (d < e)

def AtPosition (dates : List Date) (setpos : List ℤ) (d : Date) : Prop :=
  setpos = [] ∨ ∃ pos ∈ setpos, (before id dates d + 1 : ℤ) = pos ∨ (after dates d + 1 : ℤ) = -pos

theorem mem_applySetpos {dates : List Date} (h : dates.Pairwise (· < ·)) {setpos : List ℤ}
    {d : Date} : d ∈ applySetpos dates setpos ↔ d ∈ dates ∧ AtPosition dates setpos d := by
  unfold applySetpos AtPosition
  split
  next hempty => simp [List.isEmpty_iff.mp hempty]
  next hempty =>
    have hne : setpos ≠ [] := fun h => hempty (List.isEmpty_iff.mpr h)
    have hat : ∀ idx : ℤ, (if 0 ≤ idx ∧ idx < (dates.length : ℤ) then dates[idx.toNat]? else none) =
        some d ↔ d ∈ dates ∧ (before id dates d : ℤ) = idx := by
      intro idx
      split
      next hin =>
        rw [getElem?_eq_some_iff (f := id) h]
        exact and_congr_right fun _ => by omega
      next hout =>
        simp only [reduceCtorEq, false_iff]
        rintro ⟨hmem, rfl⟩
        have := before_add (f := id) h hmem
        omega
    rw [← OrdSet.mem_def, OrdSet.mem_ofList, List.mem_filterMap]
    simp only [hne, false_or]
    constructor
    · rintro ⟨pos, hpos, hd⟩
      split at hd
      next => cases hd
      next hzero =>
        obtain ⟨hmem, hidx⟩ := (hat _).mp hd
        refine ⟨hmem, pos, hpos, ?_⟩
        have hall : before id dates d + after dates d + 1 = dates.length :=
          before_add (f := id) h hmem
        split at hidx
        next hgt => exact .inl (by omega)
        next hle => exact .inr (by omega)
    · rintro ⟨hmem, pos, hpos, hidx⟩
      have hall : before id dates d + after dates d + 1 = dates.length :=
        before_add (f := id) h hmem
      refine ⟨pos, hpos, ?_⟩
      rw [if_neg (by omega), hat]
      refine ⟨hmem, ?_⟩
      split
      next hgt => omega
      next hle => omega

theorem applySetpos_sorted {dates : List Date} (h : dates.Pairwise (· < ·)) (setpos : List ℤ) :
    (applySetpos dates setpos).Pairwise (· < ·) := by
  unfold applySetpos
  split
  · exact h
  · exact OrdSet.sorted _

variable {L : Library} {rrule : RRule L} {anchor d : Date} {p : ℕ}

theorem mem_selected : d ∈ selected rrule anchor p ↔
    d ∈ periodCandidates rrule anchor rrule.weekStartDay p rrule.step ∧
      AtPosition (OrdSet.ofList (periodCandidates rrule anchor rrule.weekStartDay p
        rrule.step)).elems rrule.bySetPos d := by
  unfold selected
  rw [mem_applySetpos (OrdSet.sorted _), ← OrdSet.mem_def, OrdSet.mem_ofList]

theorem selected_sorted : (selected rrule anchor p).Pairwise (· < ·) :=
  applySetpos_sorted (OrdSet.sorted _) _

theorem slot_of_mem_selected (h : d ∈ selected rrule anchor p) :
    slot rrule anchor d = slot0 rrule anchor + p * rrule.step :=
  (mem_periodCandidates.mp (mem_selected.mp h).1).2.1

theorem lt_of_mem_selected {q : ℕ} {e : Date} (hpq : p < q) (hd : d ∈ selected rrule anchor p)
    (he : e ∈ selected rrule anchor q) : d < e := by
  by_contra hle
  have hslot := slot_mono rrule anchor (not_lt.mp hle)
  rw [slot_of_mem_selected hd, slot_of_mem_selected he] at hslot
  have hpos := rrule.step_pos
  have hlt : (p : ℤ) * rrule.step < q * rrule.step :=
    Int.mul_lt_mul_of_pos_right (by omega) hpos
  omega

theorem start_le_of_mem_selected {q : ℕ} {ps : Date}
    (h : periodStartDate rrule anchor rrule.weekStartDay p rrule.step = some ps) (hpq : p ≤ q)
    (hd : d ∈ selected rrule anchor q) : ps ≤ d := by
  obtain ⟨⟨qs, hqs⟩, hslot, -⟩ := mem_periodCandidates.mp (mem_selected.mp hd).1
  refine le_trans ?_ ((periodStartDate_spec hqs).2 d hslot)
  obtain ⟨hps, hfirst⟩ := periodStartDate_spec h
  rcases Nat.eq_or_lt_of_le hpq with rfl | hlt
  · rw [h] at hqs
    exact (Option.some.inj hqs).le
  · by_contra hgt
    have hmono := slot_mono rrule anchor (not_le.mp hgt).le
    rw [hps, (periodStartDate_spec hqs).1] at hmono
    have hpos := rrule.step_pos
    have hmul : (p : ℤ) * rrule.step < q * rrule.step :=
      Int.mul_lt_mul_of_pos_right (by omega) hpos
    omega

theorem selected_eq_nil {q : ℕ} (hpq : p ≤ q)
    (h : periodStartDate rrule anchor rrule.weekStartDay p rrule.step = none) :
    selected rrule anchor q = [] := by
  refine List.eq_nil_iff_forall_not_mem.mpr fun d hd => ?_
  obtain ⟨⟨qs, hqs⟩, -⟩ := mem_periodCandidates.mp (mem_selected.mp hd).1
  obtain ⟨ps, hps⟩ := periodStartDate_earlier (q := (p : ℤ)) (by omega) (by omega) hqs
  rw [h] at hps
  cases hps

end Positions

/-! ### The scan -/

/-- An occurrence of a rule. -/
structure Occurrence where
  key : String
  civil : DateTime
  at_ : Timestamp
deriving DecidableEq

/-- What stops an expansion. -/
inductive ExpandError where
  /-- The window is too many periods from the anchor. -/
  | windowTooLarge
deriving DecidableEq

/-- A year, in four places. -/
def formatYear (y : ℤ) : Text :=
  if 0 ≤ y then Search.padded 4 y.toNat else '-' :: Search.padded 3 (-y).toNat

def formatKey (date : Date) (tod : Time) : String :=
  String.ofList (formatYear date.year ++ '-' :: (Search.padded 2 date.month ++ '-' ::
    (Search.padded 2 date.day ++ 'T' ::
      (Search.padded 2 tod.hour ++ ':' :: Search.padded 2 tod.minute))))

/-- Whether an occurrence is within a bound, where the bound can be placed. -/
def withinBound (L : Library) (bound : SunriseTime L.jiff) (civil : DateTime) (at_ : Timestamp)
    (tz : L.Zone) : Option Bool :=
  let onTimeline := (bound.toInstant (J := L.jiff) tz).map fun b => decide (at_ ≤ b)
  match bound with
  | .floating c => some (decide (civil.ns ≤ DateTime.ns c))
  | .allDay date => some (decide (civil.date.num ≤ Date.num date))
  | .zoned c name =>
    if (L.zoneOf name).any fun z => sameZone L z tz at_ then
      some (decide (civil.ns ≤ DateTime.ns c))
    else onTimeline
  | _ => onTimeline

/-- What a scan has found. -/
structure Scan where
  out : List Occurrence
  countSeen : ℕ
  done : Bool

/-- The periods a scan goes through at most. -/
def maxPeriods : ℕ := 100000

section Scans

variable {L : Library} (rrule : RRule L) (anchor : DateTime) (tz : L.Zone)
  (window : Timestamp × Timestamp)

/-- Whether an occurrence is within the rule's last time. -/
def beforeUntil (civil : DateTime) (at_ : Timestamp) : Bool :=
  rrule.until_.all fun bound => (withinBound L bound civil at_ tz).getD false

/-- Go through the dates of a period. -/
def visit : List Date → Scan → Scan
  | [], s => s
  | d :: ds, s =>
    if d < anchor.date then visit ds s
    else
      match L.timestamp tz ⟨d, anchor.time⟩ with
      | none => visit ds s
      | some inst =>
        if !beforeUntil rrule tz ⟨d, anchor.time⟩ inst then { s with done := true }
        else if rrule.count.any (· ≤ s.countSeen) then { s with done := true }
        else
          visit ds { s with
            countSeen := s.countSeen + 1
            out := if window.1 ≤ inst ∧ inst < window.2 then
              s.out ++ [⟨formatKey d anchor.time, ⟨d, anchor.time⟩, inst⟩] else s.out }

/-- The last date on which a period may start that has an occurrence in the window. -/
def winEndDate (tz : L.Zone) (winEnd : Timestamp) : Date :=
  (L.civil tz winEnd).date.tomorrow.getD .last

/-- Go through the periods from `p` on. -/
def scan : ℕ → ℕ → Scan → Except ExpandError (List Occurrence)
  | 0, _, _ => .error .windowTooLarge
  | fuel + 1, p, s =>
    match periodStartDate rrule anchor.date rrule.weekStartDay p rrule.step with
    | none => .ok s.out
    | some ps =>
      if winEndDate tz window.2 < ps then .ok s.out
      else
        let s' := visit rrule anchor tz window (selected rrule anchor.date p) s
        if s'.done then .ok s'.out else scan fuel (p + 1) s'

/-- Whether the last time of a rule is of a kind this build does not know. -/
def RRule.untilUnknown : Bool :=
  rrule.until_.any fun t => match t with | .unknown _ _ => true | _ => false

/-- The occurrences of a rule in a window. -/
def expand : Except ExpandError (List Occurrence) :=
  if !rrule.isUnderstood || rrule.untilUnknown then .ok []
  else scan rrule anchor tz window maxPeriods 0 ⟨[], 0, false⟩

end Scans

end Routine

end Sunrise
