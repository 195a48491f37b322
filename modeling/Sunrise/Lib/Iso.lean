import Sunrise.Lib.Calendar
import Sunrise.Lib.Numeral

/-!
# ISO 8601 texts

Dates and times of day as a calendar library spells them: four digits for a year, six after a minus
sign, two each for what is below it, and a fraction of a second without the zeros at its end. A
reader takes what it can from the head of a text and leaves the rest.

* `showDate`, `showTime`, `showDateTime` — the spellings.
* `readDate_append`, `readTime_append`, `readDateTime_append` — **each is read from the head of a
  text.**
-/

namespace Iso

open Calendar (Date DateTime Time)
open Numeral (padded takeDigits takeDigits_padded isDigit_of_mem_padded)

/-- A text without the character it starts with. -/
def expect (c : Char) : Text → Option Text
  | [] => none
  | d :: s => if d = c then some s else none

@[simp] theorem expect_cons (c : Char) (s : Text) : expect c (c :: s) = some s := if_pos rfl

/-! ### Dates -/

def showYear (y : ℤ) : Text :=
  if y < 0 then '-' :: padded 6 y.natAbs else padded 4 y.natAbs

def showDate (d : Date) : Text :=
  showYear d.year ++ '-' :: padded 2 d.month ++ '-' :: padded 2 d.day

def readYear : Text → Option (ℤ × Text)
  | '-' :: s => (takeDigits 6 s).map fun p => (-(p.1 : ℤ), p.2)
  | s => (takeDigits 4 s).map fun p => ((p.1 : ℤ), p.2)

def readDate (s : Text) : Option (Date × Text) := do
  let (y, s) ← readYear s
  let s ← expect '-' s
  let (m, s) ← takeDigits 2 s
  let s ← expect '-' s
  let (d, s) ← takeDigits 2 s
  let date ← Date.new y m d
  return (date, s)

theorem readYear_append {y : ℤ} (h : -9999 ≤ y) (h' : y ≤ 9999) (s : Text) :
    readYear (showYear y ++ s) = some (y, s) := by
  unfold showYear
  split
  next hneg =>
    show (takeDigits 6 (padded 6 y.natAbs ++ s)).map _ = _
    rw [takeDigits_padded (by decide) (by omega), Option.map_some]
    exact congrArg (fun y => some (y, s)) (by omega : -(y.natAbs : ℤ) = y)
  next hnonneg =>
    have hlt : y.natAbs < 10 ^ 4 := by omega
    have hread := takeDigits_padded (by decide) hlt s
    have hfour : readYear (padded 4 y.natAbs ++ s) =
        (takeDigits 4 (padded 4 y.natAbs ++ s)).map fun p => ((p.1 : ℤ), p.2) := by
      unfold readYear
      split
      next rest heq =>
        have hhead : '-' ∈ padded 4 y.natAbs := by
          have hlen := Numeral.length_padded (by decide) hlt
          cases hp : padded 4 y.natAbs with
          | nil => rw [hp] at hlen; cases hlen
          | cons c cs =>
            rw [hp, List.cons_append] at heq
            rw [(List.cons.inj heq).1]
            exact List.mem_cons_self
        exact absurd (isDigit_of_mem_padded hhead) (by decide)
      next => rfl
    rw [hfour, hread, Option.map_some]
    exact congrArg (fun y => some (y, s)) (by omega : (y.natAbs : ℤ) = y)

/-- **A date is read from the head of a text.** -/
theorem readDate_append (d : Date) (s : Text) : readDate (showDate d ++ s) = some (d, s) := by
  obtain ⟨hlo, hhi⟩ := d.year_range
  have hm := d.month_spec.2.1
  have hd := d.day_le
  have hnew : Date.new d.year d.month d.day = some d := Date.new_eq_some.mpr ⟨rfl, rfl, rfl⟩
  unfold readDate showDate
  simp only [List.append_assoc, List.cons_append, readYear_append hlo hhi, expect_cons,
    takeDigits_padded (by decide : 0 < 2) (by omega : d.month < 10 ^ 2),
    takeDigits_padded (by decide : 0 < 2) (by omega : d.day < 10 ^ 2), hnew, Option.bind_eq_bind,
    Option.bind_some]
  rfl

/-! ### Times of day -/

def second (t : Time) : ℕ := t.ns / 10 ^ 9 % 60

/-- The nanoseconds of a second. -/
def subsec (t : Time) : ℕ := t.ns % 10 ^ 9

def showFraction (ns : ℕ) : Text :=
  if ns = 0 then [] else '.' :: (padded 9 ns).rdropWhile (· == '0')

def showTime (t : Time) : Text :=
  padded 2 t.hour ++ ':' :: padded 2 t.minute ++ ':' :: padded 2 (second t) ++
    showFraction (subsec t)

/-- The fraction at the head of a text, in nanoseconds. -/
def readFraction : Text → Option (ℕ × Text)
  | '.' :: s =>
    let digits := s.takeWhile Char.isDigit
    if digits = [] ∨ 9 < digits.length then none
    else some (Nat.ofDigitChars 10 (digits ++ List.replicate (9 - digits.length) '0') 0,
      s.dropWhile Char.isDigit)
  | s => some (0, s)

/-- The time of day of its parts. -/
def timeOf (h m s ns : ℕ) : Option Time :=
  if hin : h < 24 ∧ m < 60 ∧ s < 60 ∧ ns < 10 ^ 9 then
    some ⟨((h * 60 + m) * 60 + s) * 10 ^ 9 + ns, by omega⟩
  else none

/-- The time of day at the head of a text. -/
def readTime (s : Text) : Option (Time × Text) := do
  let (h, s) ← takeDigits 2 s
  let s ← expect ':' s
  let (m, s) ← takeDigits 2 s
  let s ← expect ':' s
  let (sec, s) ← takeDigits 2 s
  let (ns, s) ← readFraction s
  let time ← timeOf h m sec ns
  return (time, s)

def EndsTime (s : Text) : Prop := ∀ c, s.head? = some c → c ≠ '.' ∧ c.isDigit = false

theorem readFraction_append {ns : ℕ} (h : ns < 10 ^ 9) {s : Text} (hs : EndsTime s) :
    readFraction (showFraction ns ++ s) = some (ns, s) := by
  unfold showFraction
  split
  next h0 =>
    rw [List.nil_append, h0]
    unfold readFraction
    split
    next rest => exact absurd rfl (hs '.' rfl).1
    next => rfl
  next h0 =>
    have hfill := Numeral.rdropWhile_append_zeros (padded 9 ns)
    have hdigit : ∀ c ∈ (padded 9 ns).rdropWhile (· == '0'), c.isDigit = true := fun c hc =>
      isDigit_of_mem_padded ((List.rdropWhile_prefix _ _).subset hc)
    have hle := (List.rdropWhile_prefix (p := (· == '0')) (l := padded 9 ns)).length_le
    rw [Numeral.length_padded (by decide) h] at hfill hle
    generalize (padded 9 ns).rdropWhile (· == '0') = digits at hfill hdigit hle
    have hne : digits ≠ [] := by
      rintro rfl
      have hnumber := Numeral.ofDigitChars_padded 9 ns
      rw [← hfill, List.nil_append, Nat.ofDigitChars_replicate_zero, Nat.mul_zero] at hnumber
      exact h0 hnumber.symm
    have hstop : s.takeWhile Char.isDigit = [] ∧ s.dropWhile Char.isDigit = s := by
      cases s with
      | nil => exact ⟨rfl, rfl⟩
      | cons c s =>
        have hc := (hs c rfl).2
        exact ⟨List.takeWhile_cons_of_neg (by simp [hc]),
          List.dropWhile_cons_of_neg (by simp [hc])⟩
    have htake : (digits ++ s).takeWhile Char.isDigit = digits := by
      rw [List.takeWhile_append_of_pos hdigit, hstop.1, List.append_nil]
    have hdrop : (digits ++ s).dropWhile Char.isDigit = s := by
      rw [List.dropWhile_append_of_pos hdigit, hstop.2]
    rw [List.cons_append, readFraction, htake, hdrop, if_neg (by simp [hne]; omega), hfill,
      Numeral.ofDigitChars_padded]

theorem timeOf_parts (t : Time) : timeOf t.hour t.minute (second t) (subsec t) = some t := by
  have hlt := t.lt
  unfold timeOf Time.hour Time.minute second subsec
  rw [dif_pos (by omega)]
  refine congrArg some ?_
  cases t
  simp only [Time.mk.injEq]
  omega

/-- **A time of day is read from the head of a text.** -/
theorem readTime_append (t : Time) {s : Text} (hs : EndsTime s) :
    readTime (showTime t ++ s) = some (t, s) := by
  have hlt := t.lt
  have hh : t.hour < 10 ^ 2 := by unfold Time.hour; omega
  have hm : t.minute < 10 ^ 2 := by unfold Time.minute; omega
  have hsec : second t < 10 ^ 2 := by unfold second; omega
  have hns : subsec t < 10 ^ 9 := Nat.mod_lt _ (by decide)
  unfold readTime showTime
  simp only [List.append_assoc, List.cons_append, expect_cons,
    takeDigits_padded (by decide : 0 < 2) hh, takeDigits_padded (by decide : 0 < 2) hm,
    takeDigits_padded (by decide : 0 < 2) hsec, readFraction_append hns hs, timeOf_parts,
    Option.bind_eq_bind, Option.bind_some]
  rfl

/-! ### Both -/

def showDateTime (t : DateTime) : Text := showDate t.date ++ 'T' :: showTime t.time

def readDateTime (s : Text) : Option (DateTime × Text) := do
  let (date, s) ← readDate s
  let s ← expect 'T' s
  let (time, s) ← readTime s
  return (⟨date, time⟩, s)

/-- **A date with a time of day is read from the head of a text.** -/
theorem readDateTime_append (t : DateTime) {s : Text} (hs : EndsTime s) :
    readDateTime (showDateTime t ++ s) = some (t, s) := by
  unfold readDateTime showDateTime
  simp only [List.append_assoc, List.cons_append, readDate_append, expect_cons,
    readTime_append _ hs, Option.bind_eq_bind, Option.bind_some]
  rfl

theorem endsTime_nil : EndsTime [] := nofun

def whole {α : Type} (read : Text → Option (α × Text)) (s : Text) : Option α :=
  (read s).bind fun p => if p.2 = [] then some p.1 else none

theorem whole_showDate (d : Date) : whole readDate (showDate d) = some d := by
  have h := readDate_append d []
  rw [List.append_nil] at h
  rw [whole, h]
  rfl

theorem whole_showTime (t : Time) : whole readTime (showTime t) = some t := by
  have h := readTime_append t endsTime_nil
  rw [List.append_nil] at h
  rw [whole, h]
  rfl

theorem whole_showDateTime (t : DateTime) : whole readDateTime (showDateTime t) = some t := by
  have h := readDateTime_append t endsTime_nil
  rw [List.append_nil] at h
  rw [whole, h]
  rfl

/-! ### Characters -/

theorem mem_showDate {d : Date} {c : Char} (h : c ∈ showDate d) : c = '-' ∨ c.isDigit := by
  have hyear (hc : c ∈ showYear d.year) : c = '-' ∨ c.isDigit := by
    unfold showYear at hc
    split at hc
    · exact (List.mem_cons.mp hc).imp_right isDigit_of_mem_padded
    · exact .inr (isDigit_of_mem_padded hc)
  simp only [showDate, List.mem_append, List.mem_cons] at h
  rcases h with (h | h | h) | h | h
  · exact hyear h
  · exact .inl h
  · exact .inr (isDigit_of_mem_padded h)
  · exact .inl h
  · exact .inr (isDigit_of_mem_padded h)

theorem mem_showTime {t : Time} {c : Char} (h : c ∈ showTime t) :
    c = ':' ∨ c = '.' ∨ c.isDigit := by
  have hfraction (hc : c ∈ showFraction (subsec t)) : c = '.' ∨ c.isDigit := by
    unfold showFraction at hc
    split at hc
    · cases hc
    · exact (List.mem_cons.mp hc).imp_right fun hc =>
        isDigit_of_mem_padded ((List.rdropWhile_prefix _ _).subset hc)
  simp only [showTime, List.mem_append, List.mem_cons] at h
  rcases h with ((h | h | h) | h | h) | h
  · exact .inr (.inr (isDigit_of_mem_padded h))
  · exact .inl h
  · exact .inr (.inr (isDigit_of_mem_padded h))
  · exact .inl h
  · exact .inr (.inr (isDigit_of_mem_padded h))
  · exact .inr (hfraction h)

end Iso
