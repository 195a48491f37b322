import Mathlib.Algebra.Ring.Int.Defs
import Mathlib.Algebra.Ring.Nat
import Mathlib.Data.Int.Notation
import Mathlib.Data.Nat.Notation
import Mathlib.Order.Basic
import Mathlib.Order.Lattice

/-!
# The civil calendar

Days of the proleptic Gregorian calendar, years −9999 to 9999. A day is its number, counted from
the first of January of the year 1, so the order of days and the distance between two are those of
the numbers; its year, its month and its day of the month are read off the number, and a year, a
month and a day of the month that go together give the number back.

## Main definitions

* `yearStart`, `monthStart` — the days before a year, and before a month of one.
* `yearOf`, `monthOf`, `dayOf` — what the calendar calls a day.
* `Date`, `Date.new`, `Date.addDays` — the days there are.
* `Date.addMonths`, `Date.firstOfMonth` — months on, and the first of a month.
* `Weekday`, `Date.weekday`, `weekStartOf` — days of the week.
* `Time`, `DateTime` — a day with a time.

## Main results

* `ofYmd_eq`, `yearOf_ofYmd`, `monthOf_ofYmd`, `dayOf_ofYmd` — **a day is its
  names.**
* `Date.new_eq_some` — the day of a name.
-/

namespace Calendar

/-! ### Years -/

/-- The days before a year, from the first of January of the year 1. -/
def yearStart (y : ℤ) : ℤ := 365 * (y - 1) + (y - 1) / 4 - (y - 1) / 100 + (y - 1) / 400

/-- Every fourth year, but for three of four centuries. -/
def isLeap (y : ℤ) : Bool := decide (y % 4 = 0) && (decide (y % 100 ≠ 0) || decide (y % 400 = 0))

theorem isLeap_iff {y : ℤ} : isLeap y ↔ y % 4 = 0 ∧ (y % 100 ≠ 0 ∨ y % 400 = 0) := by
  simp [isLeap]

theorem yearStart_succ (y : ℤ) :
    yearStart (y + 1) = yearStart y + if isLeap y then 366 else 365 := by
  unfold yearStart
  split
  next h =>
    obtain ⟨h4, h100⟩ := isLeap_iff.mp h
    omega
  next h =>
    rw [isLeap_iff, not_and_or, not_or, not_not] at h
    omega

theorem yearStart_add (y : ℤ) (k : ℕ) : yearStart y + 365 * k ≤ yearStart (y + k) := by
  unfold yearStart
  omega

theorem yearStart_mono {y z : ℤ} (h : y ≤ z) : yearStart y ≤ yearStart z := by
  have := yearStart_add y (z - y).toNat
  rw [show y + ((z - y).toNat : ℤ) = z by omega] at this
  omega

/-- The year a day lies in. A cycle of 400 years has 146097 days. -/
def yearOf (n : ℤ) : ℤ :=
  let y := 400 * n / 146097 + 1
  if n < yearStart y then y - 1 else if yearStart (y + 1) ≤ n then y + 1 else y

theorem yearOf_spec (n : ℤ) : yearStart (yearOf n) ≤ n ∧ n < yearStart (yearOf n + 1) := by
  have hlo : yearStart (400 * n / 146097 + 1 - 1) ≤ n := by
    unfold yearStart
    omega
  have hhi : n < yearStart (400 * n / 146097 + 1 + 1 + 1) := by
    unfold yearStart
    omega
  unfold yearOf
  dsimp only
  split
  next h => exact ⟨hlo, by rwa [Int.sub_add_cancel]⟩
  next h =>
    split
    next h' => exact ⟨h', hhi⟩
    next h' => exact ⟨not_lt.mp h, not_le.mp h'⟩

theorem yearOf_eq {n y : ℤ} (h : yearStart y ≤ n) (h' : n < yearStart (y + 1)) : yearOf n = y := by
  obtain ⟨hs, hs'⟩ := yearOf_spec n
  rcases lt_trichotomy (yearOf n) y with hlt | heq | hgt
  · have := yearStart_mono (show yearOf n + 1 ≤ y by omega)
    omega
  · exact heq
  · have := yearStart_mono (show y + 1 ≤ yearOf n by omega)
    omega

/-! ### Months -/

def daysInMonth (leap : Bool) : ℕ → ℕ
  | 2 => if leap then 29 else 28
  | 4 | 6 | 9 | 11 => 30
  | _ => 31

theorem daysInMonth_le (leap : Bool) (m : ℕ) : daysInMonth leap m ≤ 31 := by
  unfold daysInMonth
  repeat' split
  all_goals decide

/-- The days of a year before a month. -/
def monthStart (leap : Bool) (m : ℕ) : ℕ :=
  (m - 1) * 30 + (m + (if 8 < m then 1 else 0)) / 2 -
    if 2 < m then (if leap then 1 else 2) else 0

/-- The month of a day of the year. -/
def monthIn (leap : Bool) (doy : ℕ) : ℕ :=
  ((List.range 12).filter fun m => decide (monthStart leap (m + 1) ≤ doy)).length

theorem monthStart_succ : ∀ (leap : Bool), ∀ m ≤ 12, 1 ≤ m →
    monthStart leap (m + 1) = monthStart leap m + daysInMonth leap m := by
  decide

theorem monthStart_last (leap : Bool) : monthStart leap 13 = if leap then 366 else 365 := by
  revert leap
  decide

theorem monthIn_spec : ∀ (leap : Bool), ∀ doy < 366, doy < monthStart leap 13 →
    1 ≤ monthIn leap doy ∧ monthIn leap doy ≤ 12 ∧ monthStart leap (monthIn leap doy) ≤ doy ∧
      doy < monthStart leap (monthIn leap doy + 1) := by
  decide +kernel

def dayOfYear (n : ℤ) : ℕ := (n - yearStart (yearOf n)).toNat

def monthOf (n : ℤ) : ℕ := monthIn (isLeap (yearOf n)) (dayOfYear n)

def dayOf (n : ℤ) : ℕ := dayOfYear n - monthStart (isLeap (yearOf n)) (monthOf n) + 1

def ofYmd (y : ℤ) (m d : ℕ) : ℤ := yearStart y + monthStart (isLeap y) m + (d - 1 : ℕ)

theorem dayOfYear_spec (n : ℤ) : n = yearStart (yearOf n) + dayOfYear n ∧
    dayOfYear n < monthStart (isLeap (yearOf n)) 13 ∧ dayOfYear n < 366 := by
  obtain ⟨hlo, hhi⟩ := yearOf_spec n
  rw [yearStart_succ] at hhi
  rw [monthStart_last]
  unfold dayOfYear
  split at hhi
  next h =>
    rw [if_pos h]
    omega
  next h =>
    rw [if_neg h]
    omega

theorem monthOf_spec (n : ℤ) : 1 ≤ monthOf n ∧ monthOf n ≤ 12 ∧ 1 ≤ dayOf n ∧
    dayOf n ≤ daysInMonth (isLeap (yearOf n)) (monthOf n) := by
  obtain ⟨-, hlt, hlt'⟩ := dayOfYear_spec n
  obtain ⟨h1, h12, hlo, hhi⟩ := monthIn_spec _ _ hlt' hlt
  rw [monthStart_succ _ _ h12 h1] at hhi
  unfold dayOf monthOf
  omega

/-- **A day is that of its names.** -/
theorem ofYmd_eq (n : ℤ) : ofYmd (yearOf n) (monthOf n) (dayOf n) = n := by
  obtain ⟨heq, hlt, hlt'⟩ := dayOfYear_spec n
  obtain ⟨-, -, hlo, -⟩ := monthIn_spec _ _ hlt' hlt
  unfold ofYmd dayOf monthOf at *
  omega

section OfYmd

variable {y : ℤ} {m d : ℕ} (hm : 1 ≤ m) (hm' : m ≤ 12) (hd : 1 ≤ d)
  (hd' : d ≤ daysInMonth (isLeap y) m)

include hm hm' hd hd'

theorem monthStart_add_lt : monthStart (isLeap y) m + (d - 1) < monthStart (isLeap y) (m + 1) := by
  rw [monthStart_succ _ _ hm' hm]
  omega

/-- **The names of a day are those it was made of**: its year. -/
theorem yearOf_ofYmd : yearOf (ofYmd y m d) = y := by
  have hlt := monthStart_add_lt hm hm' hd hd'
  have hmono : ∀ (leap : Bool), ∀ m ≤ 12, monthStart leap (m + 1) ≤ monthStart leap 13 := by decide
  have hle := hmono (isLeap y) m hm'
  rw [monthStart_last] at hle
  apply yearOf_eq
  · unfold ofYmd
    omega
  · rw [yearStart_succ]
    unfold ofYmd
    split
    next h =>
      rw [if_pos h] at hle
      omega
    next h =>
      rw [if_neg h] at hle
      omega

theorem dayOfYear_ofYmd : dayOfYear (ofYmd y m d) = monthStart (isLeap y) m + (d - 1) := by
  unfold dayOfYear
  rw [yearOf_ofYmd hm hm' hd hd']
  unfold ofYmd
  omega

theorem monthOf_ofYmd : monthOf (ofYmd y m d) = m := by
  have hlt := monthStart_add_lt hm hm' hd hd'
  obtain ⟨-, hlt', hlt''⟩ := dayOfYear_spec (ofYmd y m d)
  rw [dayOfYear_ofYmd hm hm' hd hd'] at hlt' hlt''
  rw [yearOf_ofYmd hm hm' hd hd'] at hlt'
  obtain ⟨h1, h12, hlo, hhi⟩ := monthIn_spec _ _ hlt'' hlt'
  have hmono : ∀ (leap : Bool), ∀ a ≤ 12, ∀ b ≤ 12, a < b →
      monthStart leap (a + 1) ≤ monthStart leap b := by decide
  unfold monthOf
  rw [yearOf_ofYmd hm hm' hd hd', dayOfYear_ofYmd hm hm' hd hd']
  rcases lt_trichotomy (monthIn (isLeap y) (monthStart (isLeap y) m + (d - 1))) m with h | h | h
  · have := hmono (isLeap y) _ h12 _ hm' h
    omega
  · exact h
  · have := hmono (isLeap y) _ hm' _ h12 h
    omega

theorem dayOf_ofYmd : dayOf (ofYmd y m d) = d := by
  unfold dayOf
  rw [dayOfYear_ofYmd hm hm' hd hd', monthOf_ofYmd hm hm' hd hd', yearOf_ofYmd hm hm' hd hd']
  omega

end OfYmd

/-! ### Days of the week -/

/-- A day of the week, Monday being 0. -/
abbrev Weekday := Fin 7

/-- The day of the week. The first of January of the year 1 was a Monday. -/
def weekdayOf (n : ℤ) : Weekday := ⟨(n % 7).toNat, by omega⟩

/-- The day a week starts that begins on `wkst`. -/
def weekStartOf (wkst : Weekday) (n : ℤ) : ℤ := n - (n - wkst.val) % 7

/-! ### The days there are -/

def minDay : ℤ := yearStart (-9999)

def maxDay : ℤ := yearStart 10000 - 1

/-- A day of the calendar. -/
structure Date where
  num : ℤ
  inRange : minDay ≤ num ∧ num ≤ maxDay
deriving DecidableEq

variable {a b : Date}

namespace Date

theorem ext_num (h : a.num = b.num) : a = b := by
  cases a
  cases b
  cases h
  rfl

instance : LinearOrder Date := LinearOrder.lift' Date.num fun _ _ => ext_num

theorem le_def : a ≤ b ↔ a.num ≤ b.num := Iff.rfl

theorem lt_def : a < b ↔ a.num < b.num := Iff.rfl

/-- The day of a number, if the calendar has it. -/
def ofNum (n : ℤ) : Option Date :=
  if h : minDay ≤ n ∧ n ≤ maxDay then some ⟨n, h⟩ else none

theorem ofNum_eq_some {n : ℤ} {d : Date} : ofNum n = some d ↔ d.num = n := by
  unfold ofNum
  split
  next h =>
    rw [Option.some.injEq]
    exact ⟨fun heq => heq ▸ rfl, fun heq => (ext_num heq).symm⟩
  next h =>
    refine ⟨fun heq => by simp at heq, fun heq => ?_⟩
    exact absurd (heq ▸ d.inRange) h

def last : Date := ⟨maxDay, by decide⟩

theorem le_last (d : Date) : d ≤ last := d.inRange.2

def addDays (d : Date) (n : ℤ) : Option Date := ofNum (d.num + n)

def tomorrow (d : Date) : Option Date := d.addDays 1

def year (d : Date) : ℤ := yearOf d.num

def month (d : Date) : ℕ := monthOf d.num

def day (d : Date) : ℕ := dayOf d.num

def daysInMonth (d : Date) : ℕ := Calendar.daysInMonth (isLeap d.year) d.month

def weekday (d : Date) : Weekday := weekdayOf d.num

/-- The day of a name. -/
def new (y : ℤ) (m d : ℕ) : Option Date :=
  if 1 ≤ m ∧ m ≤ 12 ∧ 1 ≤ d ∧ d ≤ Calendar.daysInMonth (isLeap y) m then ofNum (ofYmd y m d)
  else none

theorem month_spec (d : Date) : 1 ≤ d.month ∧ d.month ≤ 12 ∧ 1 ≤ d.day ∧ d.day ≤ d.daysInMonth :=
  monthOf_spec d.num

theorem day_le (d : Date) : d.day ≤ 31 := d.month_spec.2.2.2.trans (daysInMonth_le _ _)

/-- **A name is that of one day.** -/
theorem new_eq_some {y : ℤ} {m k : ℕ} {d : Date} :
    new y m k = some d ↔ d.year = y ∧ d.month = m ∧ d.day = k := by
  unfold new
  split
  next h =>
    obtain ⟨hm, hm', hd, hd'⟩ := h
    rw [ofNum_eq_some]
    constructor
    · intro heq
      unfold year month day
      rw [heq]
      exact ⟨yearOf_ofYmd hm hm' hd hd', monthOf_ofYmd hm hm' hd hd', dayOf_ofYmd hm hm' hd hd'⟩
    · rintro ⟨rfl, rfl, rfl⟩
      exact (ofYmd_eq d.num).symm
  next h =>
    refine ⟨fun heq => by simp at heq, ?_⟩
    rintro ⟨rfl, rfl, rfl⟩
    exact absurd d.month_spec h

theorem year_range (d : Date) : -9999 ≤ d.year ∧ d.year ≤ 9999 := by
  obtain ⟨hlo, hhi⟩ := yearOf_spec d.num
  obtain ⟨hmin, hmax⟩ := d.inRange
  unfold minDay at hmin
  unfold maxDay at hmax
  unfold year
  constructor
  · by_contra hlt
    have := yearStart_mono (show yearOf d.num + 1 ≤ -9999 by omega)
    omega
  · by_contra hlt
    have := yearStart_mono (show 10000 ≤ yearOf d.num by omega)
    omega

theorem exists_new {y : ℤ} {m k : ℕ} (hy : -9999 ≤ y) (hy' : y ≤ 9999) (hm : 1 ≤ m)
    (hm' : m ≤ 12) (hd : 1 ≤ k) (hd' : k ≤ Calendar.daysInMonth (isLeap y) m) :
    ∃ d, new y m k = some d := by
  have hlo := yearStart_mono hy
  have hhi := yearStart_mono (show y + 1 ≤ 10000 by omega)
  have hspec := yearOf_spec (ofYmd y m k)
  rw [yearOf_ofYmd hm hm' hd hd'] at hspec
  unfold new
  rw [if_pos ⟨hm, hm', hd, hd'⟩]
  refine ⟨⟨ofYmd y m k, ?_⟩, ofNum_eq_some.mpr rfl⟩
  unfold minDay maxDay
  omega

theorem name_lt (h : a < b) : a.year < b.year ∨
    a.year = b.year ∧ (a.month < b.month ∨ a.month = b.month ∧ a.day < b.day) := by
  have hlt : a.num < b.num := h
  have hyear : a.year ≤ b.year := by
    by_contra hgt
    have hmono := yearStart_mono (show b.year + 1 ≤ a.year by omega)
    have hb := (yearOf_spec b.num).2
    have ha := (yearOf_spec a.num).1
    unfold year at hmono
    omega
  rcases hyear.lt_or_eq with hyear | hyear
  · exact .inl hyear
  refine .inr ⟨hyear, ?_⟩
  have hanum := ofYmd_eq a.num
  have hbnum := ofYmd_eq b.num
  have hb := monthOf_spec b.num
  have ha := monthOf_spec a.num
  unfold month day
  unfold year at hyear
  unfold ofYmd at hanum hbnum
  have hstart := monthStart_succ (isLeap (yearOf b.num)) (monthOf b.num) hb.2.1 hb.1
  have hstart' := monthStart_succ (isLeap (yearOf b.num)) (monthOf a.num) ha.2.1 ha.1
  have hmono : ∀ (leap : Bool), ∀ x ≤ 12, ∀ y ≤ 12, x < y →
      monthStart leap (x + 1) ≤ monthStart leap y := by decide
  rw [hyear] at hanum ha
  rcases lt_trichotomy (monthOf a.num) (monthOf b.num) with hm | hm | hm
  · exact .inl hm
  · refine .inr ⟨hm, ?_⟩
    rw [hm] at hanum
    omega
  · have := hmono (isLeap (yearOf b.num)) _ hb.2.1 _ ha.2.1 hm
    omega

/-- The months of the calendar, counted on. -/
def monthIndex (d : Date) : ℤ := 12 * d.year + d.month

theorem year_mono (h : a ≤ b) : a.year ≤ b.year := by
  rcases h.lt_or_eq with h | rfl
  · rcases name_lt h with h | ⟨h, -⟩
    · exact h.le
    · exact h.le
  · exact le_rfl

theorem monthIndex_mono (h : a ≤ b) : a.monthIndex ≤ b.monthIndex := by
  unfold monthIndex
  rcases h.lt_or_eq with h | rfl
  · have ha := a.month_spec
    have hb := b.month_spec
    rcases name_lt h with h | ⟨h, h' | ⟨h', -⟩⟩ <;> omega
  · exact le_rfl

theorem addDays_eq_some {d e : Date} {n : ℤ} : d.addDays n = some e ↔ e.num = d.num + n :=
  ofNum_eq_some

def firstOfMonth (d : Date) : Date :=
  ⟨ofYmd d.year d.month 1, by
    obtain ⟨hm, hm', hd, hd'⟩ := d.month_spec
    obtain ⟨e, he⟩ := exists_new d.year_range.1 d.year_range.2 hm hm' le_rfl (hd.trans hd')
    unfold new at he
    split at he
    · exact ofNum_eq_some.mp he ▸ e.inRange
    · cases he⟩

theorem new_firstOfMonth (d : Date) : new d.year d.month 1 = some d.firstOfMonth := by
  obtain ⟨hm, hm', hd, hd'⟩ := d.month_spec
  unfold new
  rw [if_pos ⟨hm, hm', le_rfl, hd.trans hd'⟩, ofNum_eq_some]
  rfl

theorem day_firstOfMonth (d : Date) : d.firstOfMonth.day = 1 :=
  (new_eq_some.mp d.new_firstOfMonth).2.2

theorem monthIndex_firstOfMonth (d : Date) : d.firstOfMonth.monthIndex = d.monthIndex := by
  obtain ⟨hy, hm, -⟩ := new_eq_some.mp d.new_firstOfMonth
  unfold monthIndex
  rw [hy, hm]

theorem le_of_day_eq_one (h : a.monthIndex = b.monthIndex) (hday : a.day = 1) :
    a ≤ b := by
  by_contra hlt
  have ha := a.month_spec
  have hb := b.month_spec
  unfold monthIndex at h
  rcases name_lt (not_le.mp hlt) with h' | ⟨h', h'' | ⟨-, h''⟩⟩ <;> omega

theorem monthIndex_eq_iff :
    a.monthIndex = b.monthIndex ↔ a.year = b.year ∧ a.month = b.month := by
  have ha := a.month_spec
  have hb := b.month_spec
  unfold monthIndex
  omega

/-- The day so many months later, the last of its month where that has no such day. -/
def addMonths (d : Date) (n : ℤ) : Option Date :=
  let m := d.monthIndex - 1 + n
  let month := (m % 12).toNat + 1
  new (m / 12) month (min d.day (Calendar.daysInMonth (isLeap (m / 12)) month))

theorem addMonths_eq_some {d e : Date} {n : ℤ} (hday : d.day = 1) :
    d.addMonths n = some e ↔ e.monthIndex = d.monthIndex + n ∧ e.day = 1 := by
  have hdim : ∀ (leap : Bool), ∀ m ≤ 12, 1 ≤ m → 1 ≤ Calendar.daysInMonth leap m := by decide
  have he := e.month_spec
  unfold addMonths
  dsimp only
  rw [new_eq_some, hday, min_eq_left (hdim _ _ (by omega) (by omega))]
  unfold monthIndex
  omega

theorem exists_month {d e : Date} {n : ℤ} (hn : 0 ≤ n) (h : d.monthIndex + n ≤ e.monthIndex) :
    ∃ f : Date, f.monthIndex = d.monthIndex + n ∧ f.day = 1 := by
  have hdim : ∀ (leap : Bool), ∀ m ≤ 12, 1 ≤ m → 1 ≤ Calendar.daysInMonth leap m := by decide
  have hd := d.month_spec
  have he := e.month_spec
  have hlo := d.year_range.1
  have hhi := e.year_range.2
  unfold monthIndex at h ⊢
  obtain ⟨f, hf⟩ := exists_new (y := (12 * d.year + d.month - 1 + n) / 12)
    (m := ((12 * d.year + d.month - 1 + n) % 12).toNat + 1) (k := 1) (by omega) (by omega)
    (by omega) (by omega) le_rfl (hdim _ _ (by omega) (by omega))
  obtain ⟨hy, hm, hday⟩ := new_eq_some.mp hf
  exact ⟨f, by rw [hy, hm]; omega, hday⟩

end Date

/-! ### Times -/

/-- A time of day. -/
structure Time where
  ns : ℕ
  lt : ns < 86400 * 10 ^ 9
deriving DecidableEq

def Time.midnight : Time := ⟨0, by decide⟩

def Time.hour (t : Time) : ℕ := t.ns / (3600 * 10 ^ 9)

def Time.minute (t : Time) : ℕ := t.ns / (60 * 10 ^ 9) % 60

/-- A day with a time, in no zone. -/
structure DateTime where
  date : Date
  time : Time
deriving DecidableEq

/-- Nanoseconds from the start of the year 1. -/
def DateTime.ns (t : DateTime) : ℤ := t.date.num * (86400 * 10 ^ 9) + t.time.ns

namespace DateTime

theorem ext_ns {a b : DateTime} (h : a.ns = b.ns) : a = b := by
  obtain ⟨⟨n, hn⟩, ⟨s, hs⟩⟩ := a
  obtain ⟨⟨m, hm⟩, ⟨r, hr⟩⟩ := b
  unfold ns at h
  obtain rfl : n = m := by
    dsimp only at h
    omega
  obtain rfl : s = r := by
    dsimp only at h
    omega
  rfl

instance : LinearOrder DateTime := LinearOrder.lift' DateTime.ns fun _ _ => ext_ns

theorem le_def {a b : DateTime} : a ≤ b ↔ a.ns ≤ b.ns := Iff.rfl

theorem lt_def {a b : DateTime} : a < b ↔ a.ns < b.ns := Iff.rfl

theorem date_mono {a b : DateTime} (h : a ≤ b) : a.date ≤ b.date := by
  rw [le_def] at h
  rw [Date.le_def]
  have ha := a.time.lt
  have hb := b.time.lt
  unfold ns at h
  omega

theorem mk_lt_mk {d e : Date} {t : Time} : (⟨d, t⟩ : DateTime) < ⟨e, t⟩ ↔ d < e := by
  rw [lt_def, Date.lt_def]
  unfold ns
  dsimp only
  omega

theorem mk_le_mk {d e : Date} {t : Time} : (⟨d, t⟩ : DateTime) ≤ ⟨e, t⟩ ↔ d ≤ e := by
  rw [le_def, Date.le_def]
  unfold ns
  dsimp only
  omega

end DateTime

end Calendar
