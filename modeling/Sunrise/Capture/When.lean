import Sunrise.Lib.Casing
import Sunrise.Lib.Numeral
import Sunrise.Routine.Expand

/-!
# Dates as they are typed

A date is typed as a word for a day, a day of the week or of the calendar, a time of day after one
of these or alone, or a distance from now. Anything else is refused, not guessed at.

* `parseTime`, `parseRelative`, `parseWeekday` — the parts of a phrase.
* `plain_of_parseWhenTime` — **no word of a phrase that is read starts with a sigil.**
-/

namespace Sunrise

open Text

namespace Capture

open Calendar (Date DateTime Time Weekday)
open Casing (Ucd toLowercase)
open Numeral (signed)
open Routine (Library)
open Rows (SunriseTime Timestamp)
open Text (IsWord forall_of_all isSpace spaced trim trimStart words stripPrefix stripSuffix)

/-! ### Times of day -/

/-- An hour and a minute. -/
def timeNew (h m : ℤ) : Option Time :=
  if hr : (0 ≤ h ∧ h ≤ 23) ∧ 0 ≤ m ∧ m ≤ 59 then
    some ⟨(h.toNat * 60 + m.toNat) * (60 * 10 ^ 9), by omega⟩
  else none

/-- A time without its half of the day, and whether that is the second. -/
def splitHalf (s : Text) : Text × Option Bool :=
  match stripSuffix "am".toList s with
  | some b => (b, some false)
  | none =>
    match stripSuffix "pm".toList s with
    | some b => (b, some true)
    | none => (s, none)

/-- The hour and the minute that a time spells. -/
def clockNumbers (body : Text) : Option (ℤ × ℤ) :=
  match Text.splitOnce ':' body with
  | some (h, m) => (signed 128 h).bind fun h => (signed 128 m).map (h, ·)
  | none => (signed 128 body).map (·, 0)

def hourOf (ampm : Option Bool) (h : ℤ) : Option ℤ :=
  match ampm with
  | some true => if h = 12 then some 12 else if h + 12 < 128 then some (h + 12) else none
  | some false => some (if h = 12 then 0 else h)
  | none => some h

/-- `9am`, `9pm`, `9:30`, `09:30`, `14:00`, `9:30pm`. -/
def parseTime (s : Text) : Option Time :=
  let (body, ampm) := splitHalf (trim s)
  let body := trim body
  if body = [] then none
  else (clockNumbers body).bind fun (h, m) => (hourOf ampm h).bind (timeNew · m)

/-! ### Distances -/

section

variable (L : Library) (u : Ucd)

/-- An instant so many nanoseconds from another. -/
def addNanos (now : Timestamp) (ns : ℤ) : Option Timestamp :=
  if h : Rows.minNanosecond ≤ now.ns + ns ∧ now.ns + ns ≤ Rows.maxNanosecond then some ⟨_, h⟩
  else none

/-- An instant so many days or weeks from another, at the same time of day. -/
def addDates (now : Timestamp) (tz : L.Zone) (span : Routine.Span) : Option Timestamp :=
  if span.n = 0 then some now
  else do
    let civil := L.civil tz now
    let date ← Routine.checkedAdd civil.date span
    L.timestamp tz ⟨date, civil.time⟩

/-- A distance from now: a number, and its unit. -/
def parseRelative (rest : Text) (now : Timestamp) (tz : L.Zone) : Option Timestamp := do
  let unit ← rest.getLast?
  let n ← signed (2 ^ 63) rest.dropLast
  if unit = 'd' then (Routine.spanOf L .days n).bind (addDates L now tz)
  else if unit = 'w' then (Routine.spanOf L .weeks n).bind (addDates L now tz)
  else if unit = 'h' then
    if -175307616 ≤ n ∧ n ≤ 175307616 then addNanos now (n * (3600 * 10 ^ 9)) else none
  else if unit = 'm' then
    if -10518456960 ≤ n ∧ n ≤ 10518456960 then addNanos now (n * (60 * 10 ^ 9)) else none
  else none

/-! ### Days -/

section

/-- A week has a first day. -/
local instance neZero_week : NeZero 7 := ⟨by decide⟩

def weekdayNames : List (List String × Weekday) :=
  [(["mon", "monday"], 0), (["tue", "tues", "tuesday"], 1), (["wed", "weds", "wednesday"], 2),
    (["thu", "thur", "thurs", "thursday"], 3), (["fri", "friday"], 4), (["sat", "saturday"], 5),
    (["sun", "sunday"], 6)]

end

def parseWeekday (s : Text) : Option Weekday :=
  (weekdayNames.find? fun p => String.ofList s ∈ p.1).map (·.2)

/-- The next such day after a date, or the one a week later. -/
def nextWeekday (from_ : Date) (wd : Weekday) (nextWeek : Bool) : Date :=
  let delta : ℤ := wd.val - from_.weekday.val
  let delta := if delta ≤ 0 then delta + 7 else delta
  let delta := if nextWeek then delta + 7 else delta
  (from_.addDays delta).getD from_

/-- A date phrase, with the time of day it carries by itself. -/
def parseDate (today : Date) (s : Text) : Option (Date × Option Time) :=
  if s = "today".toList then some (today, none)
  else if s = "tonight".toList then (timeNew 20 0).map fun t => (today, some t)
  else if s = "tomorrow".toList then today.tomorrow.map (·, none)
  else
    match L.dateFrom (String.ofList s) with
    | some d => some (d, none)
    | none =>
      let (name, nextWeek) :=
        match stripPrefix "next ".toList s with
        | some r => (trim r, true)
        | none => (s, false)
      (parseWeekday name).map fun wd => (nextWeekday today wd nextWeek, none)

/-- A phrase without the time of day behind it: nothing, a time of day, or a date. -/
def parsePhrase (today : Date) (time : Option Time) (s : Text) : Option (SunriseTime L.jiff) :=
  if s = [] then time.map fun t => .floating (J := L.jiff) ⟨today, t⟩
  else
    match parseTime s with
    | some t => some (.floating (J := L.jiff) ⟨today, t⟩)
    | none =>
      (parseDate L today s).map fun (date, ownTime) =>
        match time.or ownTime with
        | some t => .floating (J := L.jiff) ⟨date, t⟩
        | none => .allDay (J := L.jiff) date

/-- Words, of which the last may be a time of day. -/
def parseParts (today : Date) (parts : List Text) : Option (SunriseTime L.jiff) :=
  let time := if 1 < parts.length then parts.getLast?.bind parseTime else none
  parsePhrase L today time (spaced (if time.isSome then parts.dropLast else parts))

/-- A phrase as the kind of time it means: a date is a day, a time of day a civil time, and a
distance an instant. -/
def parseWhenTime (s : Text) (now : Timestamp) (tz : L.Zone) : Option (SunriseTime L.jiff) :=
  let s := toLowercase u (trim s)
  if s = [] then none
  else
    match stripPrefix ['+'] s with
    | some rest => (parseRelative L rest now tz).map .instant
    | none => parseParts L (L.civil tz now).date (words s)

end

/-! ### The words of a phrase -/

/-- The characters that annotations start with. -/
def sigils : Text := ['#', '@', '!', '~', '^', '*']

/-- A text that starts with none of them. -/
def Plain (s : Text) : Prop := ∀ c, s.head? = some c → c ∉ sigils

/-- A text that holds none of them. -/
def NoSigil (s : Text) : Prop := ∀ c ∈ s, c ∉ sigils

/-- A digit, a sign before it or not, and anything after it. -/
def Numeric (s : Text) : Prop :=
  ∃ c t, c.isDigit = true ∧ (s = c :: t ∨ s = '+' :: c :: t ∨ s = '-' :: c :: t)

/-- What is asked of the reader of calendar dates: of a date that is read each word starts with a
number. -/
def ReadsDates (L : Library) : Prop :=
  ∀ s d, L.dateFrom s = some d → ∀ w ∈ words s.toList, Numeric w

variable {s t : Text} {c : Char}

theorem NoSigil.plain (h : NoSigil s) : Plain s := fun c hc => h c (List.mem_of_head? hc)

theorem not_mem_sigils_of_isDigit (h : c.isDigit = true) : c ∉ sigils := by
  intro hmem
  have hall : ∀ d ∈ sigils, d.isDigit = false := forall_of_all (by decide)
  rw [hall c hmem] at h
  cases h

theorem not_mem_sigils_of_isSpace (h : isSpace c = true) : c ∉ sigils := by
  intro hmem
  have hall : ∀ d ∈ sigils, isSpace d = false := forall_of_all (by decide)
  rw [hall c hmem] at h
  cases h

theorem Numeric.plain (h : Numeric s) : Plain s := by
  obtain ⟨c, t, hc, rfl | rfl | rfl⟩ := h
  · rintro _ ⟨⟩
    exact not_mem_sigils_of_isDigit hc
  · rintro _ ⟨⟩
    decide
  · rintro _ ⟨⟩
    decide

theorem noSigil_append : NoSigil (s ++ t) ↔ NoSigil s ∧ NoSigil t := List.forall_mem_append

theorem noSigil_cons : NoSigil (c :: s) ↔ c ∉ sigils ∧ NoSigil s := List.forall_mem_cons

theorem noSigil_of_trim (h : NoSigil (trim s)) : NoSigil s := fun c hc =>
  (mem_trim_or hc).elim (h c) not_mem_sigils_of_isSpace

theorem noSigil_of_digits {n : ℕ} (h : Numeral.digits s = some n) : NoSigil s := fun c hc =>
  not_mem_sigils_of_isDigit ((Numeral.digits_eq_some h).2 c hc)

theorem noSigil_of_signed {half : ℕ} {n : ℤ} (h : signed half s = some n) : NoSigil s := by
  unfold signed at h
  split at h
  · obtain ⟨k, hk, -⟩ := Option.map_eq_some_iff.mp h
    exact noSigil_cons.mpr ⟨by decide, noSigil_of_digits (Option.filter_eq_some_iff.mp hk).1⟩
  · obtain ⟨k, hk, -⟩ := Option.map_eq_some_iff.mp h
    have hdigits := noSigil_of_digits (Option.filter_eq_some_iff.mp hk).1
    unfold Numeral.stripPlus at hdigits
    split at hdigits
    · exact noSigil_cons.mpr ⟨by decide, hdigits⟩
    · exact hdigits

theorem splitHalf_eq {b : Text} {ampm : Option Bool} (h : splitHalf s = (b, ampm)) :
    s = b ++ "am".toList ∨ s = b ++ "pm".toList ∨ s = b := by
  unfold splitHalf at h
  split at h
  next hb => exact .inl ((Prod.mk.inj h).1 ▸ Text.stripSuffix_eq_some.mp hb)
  next =>
    split at h
    next hb => exact .inr (.inl ((Prod.mk.inj h).1 ▸ Text.stripSuffix_eq_some.mp hb))
    next => exact .inr (.inr (Prod.mk.inj h).1)

theorem noSigil_of_clockNumbers {x : ℤ × ℤ} (h : clockNumbers s = some x) : NoSigil s := by
  unfold clockNumbers at h
  split at h
  next l r hcut =>
    obtain ⟨m, hm, h⟩ := Option.bind_eq_some_iff.mp h
    obtain ⟨n, hn, -⟩ := Option.map_eq_some_iff.mp h
    rw [(Text.splitOnce_eq_some hcut).2]
    exact noSigil_append.mpr ⟨noSigil_of_signed hm,
      noSigil_cons.mpr ⟨by decide, noSigil_of_signed hn⟩⟩
  next =>
    obtain ⟨n, hn, -⟩ := Option.map_eq_some_iff.mp h
    exact noSigil_of_signed hn

theorem exists_clockNumbers {x : Time} (h : parseTime s = some x) :
    ∃ b ampm y, splitHalf (trim s) = (b, ampm) ∧ trim b ≠ [] ∧ clockNumbers (trim b) = some y := by
  unfold parseTime at h
  rcases hsplit : splitHalf (trim s) with ⟨b, ampm⟩
  rw [hsplit] at h
  dsimp only at h
  split at h
  · cases h
  next hne =>
    obtain ⟨y, hy, -⟩ := Option.bind_eq_some_iff.mp h
    exact ⟨b, ampm, y, rfl, hne, hy⟩

theorem noSigil_of_parseTime {x : Time} (h : parseTime s = some x) : NoSigil s := by
  obtain ⟨b, ampm, y, hsplit, -, hnum⟩ := exists_clockNumbers h
  have hb : NoSigil b := noSigil_of_trim (noSigil_of_clockNumbers hnum)
  refine noSigil_of_trim ?_
  obtain heq | heq | heq := splitHalf_eq hsplit
  · exact heq ▸ noSigil_append.mpr ⟨hb, forall_of_all (by decide)⟩
  · exact heq ▸ noSigil_append.mpr ⟨hb, forall_of_all (by decide)⟩
  · exact heq ▸ hb

theorem exists_of_parseWeekday {wd : Weekday} (h : parseWeekday s = some wd) :
    ∃ p ∈ weekdayNames, ∃ name ∈ p.1, s = name.toList := by
  obtain ⟨p, hp, -⟩ := Option.map_eq_some_iff.mp h
  refine ⟨p, List.mem_of_find?_eq_some hp, String.ofList s, ?_, String.toList_ofList.symm⟩
  simpa using List.find?_some hp

theorem noSigil_of_parseWeekday {wd : Weekday} (h : parseWeekday s = some wd) : NoSigil s := by
  have hall : ∀ p ∈ weekdayNames, ∀ name ∈ p.1, name.toList.all (fun c => decide (c ∉ sigils)) := by
    decide
  obtain ⟨p, hp, name, hname, rfl⟩ := exists_of_parseWeekday h
  exact forall_of_all (hall p hp name hname)

section

variable {L : Library} {u : Ucd} {now : Timestamp} {tz : L.Zone} {ws : List Text}

theorem noSigil_of_parseRelative {x : Timestamp} (h : parseRelative L s now tz = some x) :
    NoSigil s := by
  unfold parseRelative at h
  obtain ⟨unit, hunit, h⟩ := Option.bind_eq_some_iff.mp h
  obtain ⟨n, hn, h⟩ := Option.bind_eq_some_iff.mp h
  have hu : unit ∉ sigils := by
    split at h
    next hu => exact hu ▸ by decide
    next =>
      split at h
      next hu => exact hu ▸ by decide
      next =>
        split at h
        next hu => exact hu ▸ by decide
        next =>
          split at h
          next hu => exact hu ▸ by decide
          next => cases h
  rw [← List.dropLast_append_getLast? unit hunit]
  exact noSigil_append.mpr ⟨noSigil_of_signed hn, noSigil_cons.mpr ⟨hu, nofun⟩⟩

theorem noSigil_of_parseDate {today : Date} {x : Date × Option Time}
    (h : parseDate L today s = some x) : NoSigil s ∨ ∃ d, L.dateFrom
    (String.ofList s) = some d := by
  unfold parseDate at h
  split at h
  next heq => exact .inl (heq ▸ forall_of_all (by decide))
  next =>
    split at h
    next heq => exact .inl (heq ▸ forall_of_all (by decide))
    next =>
      split at h
      next heq => exact .inl (heq ▸ forall_of_all (by decide))
      next =>
        split at h
        next d hd => exact .inr ⟨d, hd⟩
        next =>
          refine .inl ?_
          obtain ⟨wd, hwd, -⟩ := Option.map_eq_some_iff.mp h
          split at hwd
          next r hr =>
            rw [Text.stripPrefix_eq_some.mp hr]
            exact noSigil_append.mpr ⟨forall_of_all (by decide),
              noSigil_of_trim (noSigil_of_parseWeekday hwd)⟩
          next => exact noSigil_of_parseWeekday hwd

theorem parts_of_parseParts {today : Date} {ls : List Text} {x : SunriseTime L.jiff}
    (h : parseParts L today ls = some x) (hls : ∀ w ∈ ls, IsWord w) :
    ∃ front back, ls = front ++ back ∧ front ≠ [] ∧ (∀ w ∈ back, ∃ y, parseTime w = some y) ∧
      ((∃ y, parseTime (spaced front) = some y) ∨
        ∃ y, parseDate L today (spaced front) = some y) := by
  have hphrase {time : Option Time} {front : List Text} (hne : front ≠ []) (hsub : front ⊆ ls)
      (h : parsePhrase L today time (spaced front) = some x) :
      (∃ y, parseTime (spaced front) = some y) ∨
        ∃ y, parseDate L today (spaced front) = some y := by
    have hspaced : spaced front ≠ [] := by
      intro hnil
      have hfront := words_spaced_self fun w hw => hls w (hsub hw)
      rw [hnil] at hfront
      exact hne hfront.symm
    unfold parsePhrase at h
    rw [if_neg hspaced] at h
    split at h
    next t ht => exact .inl ⟨t, ht⟩
    next =>
      obtain ⟨y, hy, -⟩ := Option.map_eq_some_iff.mp h
      exact .inr ⟨y, hy⟩
  unfold parseParts at h
  dsimp only at h
  by_cases htime : (if 1 < ls.length then ls.getLast?.bind parseTime else none).isSome
  · rw [if_pos htime] at h
    obtain ⟨t, ht⟩ := Option.isSome_iff_exists.mp htime
    obtain ⟨hlen, hlast⟩ := Option.ite_none_right_eq_some.mp ht
    obtain ⟨w, hw, hwt⟩ := Option.bind_eq_some_iff.mp hlast
    have hne : ls.dropLast ≠ [] := by
      rw [← List.length_pos_iff, List.length_dropLast]
      omega
    exact ⟨_, [w], (List.dropLast_append_getLast? w hw).symm, hne,
      List.forall_mem_singleton.mpr ⟨t, hwt⟩, hphrase hne (List.dropLast_subset ls) h⟩
  · rw [if_neg htime] at h
    have hne : ls ≠ [] := by
      rintro rfl
      cases h
    exact ⟨ls, [], (List.append_nil ls).symm, hne, nofun, hphrase hne (List.Subset.refl ls) h⟩

theorem plain_of_parseWhenTime (hL : ReadsDates L) (hws : ∀ w ∈ ws, IsWord w)
    {x : SunriseTime L.jiff} (h : parseWhenTime L u (spaced ws) now tz = some x) :
    ∀ w ∈ ws, Plain w := by
  have hls : ∀ w ∈ ws.map (toLowercase u), IsWord w :=
    List.forall_mem_map.mpr fun w hw => Casing.isWord_toLowercase (hws w hw)
  have hmem {front : List Text} (hwords : ∀ w ∈ front, IsWord w) (hno : NoSigil (spaced front)) :
      ∀ w ∈ front, Plain w := by
    intro w hw
    rw [← words_spaced_self hwords] at hw
    exact NoSigil.plain fun c hc => hno c (mem_of_mem_words hw hc)
  have hplain : ∀ w ∈ ws.map (toLowercase u), Plain w := by
    unfold parseWhenTime at h
    rw [trim_spaced hws, Casing.toLowercase_spaced] at h
    dsimp only at h
    split at h
    · cases h
    · split at h
      next rest hrest =>
        obtain ⟨y, hy, -⟩ := Option.map_eq_some_iff.mp h
        refine hmem hls ?_
        rw [Text.stripPrefix_eq_some.mp hrest]
        exact noSigil_cons.mpr ⟨by decide, noSigil_of_parseRelative hy⟩
      next =>
        rw [words_spaced_self hls] at h
        obtain ⟨front, back, heq, -, hback, hfront⟩ := parts_of_parseParts h hls
        rw [heq] at hls ⊢
        refine List.forall_mem_append.mpr ⟨?_, fun w hw => ?_⟩
        · have hwords : ∀ w ∈ front, IsWord w := (List.forall_mem_append.mp hls).1
          obtain ⟨y, hy⟩ | ⟨y, hy⟩ := hfront
          · exact hmem hwords (noSigil_of_parseTime hy)
          · obtain hno | ⟨d, hd⟩ := noSigil_of_parseDate hy
            · exact hmem hwords hno
            · intro w hw
              refine (hL _ d hd w ?_).plain
              rwa [String.toList_ofList, words_spaced_self hwords]
        · obtain ⟨y, hy⟩ := hback w hw
          exact (noSigil_of_parseTime hy).plain
  intro w hw c hc hsigil
  obtain ⟨d, s, rfl⟩ := List.exists_cons_of_ne_nil (hws w hw).1
  obtain rfl : d = c := Option.some.inj hc
  have hlower : ∀ e ∈ sigils, Casing.IsAscii e ∧ e.toLower = e := forall_of_all (by decide)
  obtain ⟨t, ht⟩ := @Casing.toLowercase_cons u d (hlower d hsigil).1 s
  rw [(hlower d hsigil).2] at ht
  exact hplain _ (List.mem_map_of_mem hw) d (by rw [ht, List.head?_cons]) hsigil

/-! ### A dash alone -/

/-- A dash, and nothing or a space behind it. -/
def Dashed (s : Text) : Prop := ∃ t, s = '-' :: t ∧ ∀ c, t.head? = some c → c = ' '

theorem Dashed.of_append (h : Dashed (s ++ t)) (hne : s ≠ []) : Dashed s := by
  obtain ⟨c, s, rfl⟩ := List.exists_cons_of_ne_nil hne
  obtain ⟨r, hr, hspace⟩ := h
  rw [List.cons_append, List.cons.injEq] at hr
  refine ⟨s, by rw [hr.1], fun d hd => hspace d ?_⟩
  rw [← hr.2, List.head?_append, hd]
  rfl

theorem Dashed.signed {half : ℕ} (h : Dashed s) : Numeral.signed half s = none := by
  obtain ⟨t, rfl, hspace⟩ := h
  have hnone : Numeral.digits t = none := by
    refine if_neg fun ⟨hne, hdigit⟩ => ?_
    obtain ⟨c, t, rfl⟩ := List.exists_cons_of_ne_nil hne
    have hc := List.all_eq_true.mp hdigit c List.mem_cons_self
    rw [hspace c rfl] at hc
    cases hc
  rw [Numeral.signed, hnone]
  rfl

theorem Dashed.trim (h : Dashed s) : Dashed (Text.trim s) := by
  have hhead : s.head? = some '-' := by
    obtain ⟨t, rfl, -⟩ := h
    rfl
  have hstart : trimStart s = s := Text.trimStart_eq_self fun c hc => by
    rw [← Option.some.inj (hhead.symm.trans hc)]
    decide
  have hmem : '-' ∈ Text.trim s :=
    (Text.mem_trim_or (List.mem_of_head? hhead)).resolve_right (by decide)
  obtain ⟨r, hr⟩ : Text.trim s <+: s := by
    rw [Text.trim, hstart]
    exact List.rdropWhile_prefix _ _
  rw [← hr] at h
  exact h.of_append (List.ne_nil_of_mem hmem)

theorem Dashed.parseTime (h : Dashed s) : parseTime s = none := by
  by_contra hsome
  obtain ⟨x, hx⟩ := Option.ne_none_iff_exists'.mp hsome
  obtain ⟨b, ampm, y, hsplit, hne, hnum⟩ := exists_clockNumbers hx
  have hbne : b ≠ [] := by
    rintro rfl
    exact hne rfl
  have hb : Dashed (Text.trim b) := by
    have htrim := h.trim
    obtain heq | heq | heq := splitHalf_eq hsplit
    · exact ((heq ▸ htrim).of_append hbne).trim
    · exact ((heq ▸ htrim).of_append hbne).trim
    · exact (heq ▸ htrim).trim
  unfold clockNumbers at hnum
  split at hnum
  next l r hcut =>
    obtain ⟨m, hm, -⟩ := Option.bind_eq_some_iff.mp hnum
    rw [(Text.splitOnce_eq_some hcut).2] at hb
    have hl : l ≠ [] := by
      rintro rfl
      obtain ⟨t, ht, -⟩ := hb
      cases ht
    rw [(hb.of_append hl).signed] at hm
    cases hm
  next =>
    rw [hb.signed] at hnum
    cases hnum

theorem Dashed.parseDate (hL : ReadsDates L) {today : Date} {front : List Text}
    (h : ∀ w ∈ front, IsWord w) (hdash : Dashed (spaced (['-'] :: front))) :
    parseDate L today (spaced (['-'] :: front)) = none := by
  obtain ⟨t, ht, -⟩ := hdash
  have hwords : ∀ w ∈ ['-'] :: front, IsWord w :=
    List.forall_mem_cons.mpr ⟨⟨List.cons_ne_nil _ _, forall_of_all (by decide)⟩, h⟩
  have hdate : L.dateFrom (String.ofList (spaced (['-'] :: front))) = none := by
    by_contra hsome
    obtain ⟨d, hd⟩ := Option.ne_none_iff_exists'.mp hsome
    obtain ⟨c, r, hc, heq | heq | heq⟩ := hL _ d hd ['-'] (by
      rw [String.toList_ofList, words_spaced_self hwords]
      exact List.mem_cons_self)
    · rw [← (List.cons.inj heq).1] at hc
      cases hc
    · cases heq
    · cases heq
  have hnext : stripPrefix "next ".toList (spaced (['-'] :: front)) = none := by
    rw [ht]
    exact if_neg fun hpre => absurd (List.prefix_cons_iff.mp hpre) (by simp)
  have hday : parseWeekday (spaced (['-'] :: front)) = none := by
    have hall : ∀ p ∈ weekdayNames, ∀ name ∈ p.1, name.toList.head? ≠ some '-' := by decide
    by_contra hsome
    obtain ⟨wd, hwd⟩ := Option.ne_none_iff_exists'.mp hsome
    obtain ⟨p, hp, name, hname, heq⟩ := exists_of_parseWeekday hwd
    exact hall p hp name hname (by rw [← heq, ht]; rfl)
  unfold Capture.parseDate
  rw [hdate, hnext]
  dsimp only
  rw [hday, ht, if_neg (by simp), if_neg (by simp), if_neg (by simp)]
  rfl

theorem parseWhenTime_dash (hL : ReadsDates L) (hws : ∀ w ∈ ws, IsWord w) :
    parseWhenTime L u (spaced (['-'] :: ws)) now tz = none := by
  have hdashed (front : List Text) : Dashed (spaced (['-'] :: front)) := by
    cases front with
    | nil => exact ⟨[], rfl, nofun⟩
    | cons w ws =>
      rw [spaced_cons_cons]
      exact ⟨_, rfl, fun c hc => (Option.some.inj hc).symm⟩
  have hdash : IsWord ['-'] := ⟨List.cons_ne_nil _ _, forall_of_all (by decide)⟩
  have hlower : toLowercase u ['-'] = ['-'] := Casing.toLowercase_ascii (forall_of_all (by decide))
  set ls := ws.map (toLowercase u)
  have hls : ∀ w ∈ ls, IsWord w :=
    List.forall_mem_map.mpr fun w hw => Casing.isWord_toLowercase (hws w hw)
  have hall : ∀ w ∈ ['-'] :: ls, IsWord w := List.forall_mem_cons.mpr ⟨hdash, hls⟩
  have hplus : stripPrefix ['+'] (spaced (['-'] :: ls)) = none := by
    obtain ⟨t, ht, -⟩ := hdashed ls
    rw [ht]
    exact if_neg fun hpre => absurd (List.prefix_cons_iff.mp hpre) (by simp)
  unfold parseWhenTime
  rw [trim_spaced (List.forall_mem_cons.mpr ⟨hdash, hws⟩), Casing.toLowercase_spaced,
    List.map_cons, hlower]
  dsimp only
  rw [hplus, words_spaced_self hall, ite_eq_left_iff]
  intro _
  by_contra hsome
  obtain ⟨x, hx⟩ := Option.ne_none_iff_exists'.mp hsome
  obtain ⟨front, back, heq, hne, -, hfront⟩ := parts_of_parseParts hx hall
  obtain ⟨w, front, rfl⟩ := List.exists_cons_of_ne_nil hne
  obtain ⟨rfl, htail⟩ := List.cons.inj ((List.cons_append ..) ▸ heq)
  have hwords : ∀ w ∈ front, IsWord w := fun w hw =>
    hls w (htail ▸ List.mem_append_left back hw)
  rw [(hdashed front).parseTime, (hdashed front).parseDate hL hwords] at hfront
  obtain ⟨y, hy⟩ | ⟨y, hy⟩ := hfront <;> cases hy

end

end Capture

end Sunrise
