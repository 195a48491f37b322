import Sunrise.Lib.Text

/-!
# Dates of a query

A date in a query is a word, an offset from today, a day or a month. It is read whatever the
case of its letters and shown in one spelling, which is read as the same date.

* `DateValue.parse`, `DateValue.display` — reading a date, and showing it.
-/

namespace Sunrise

namespace Search

open Text

/-! ### Numbers -/

/-- A number, with zeros before it up to a width. -/
def padded (width n : ℕ) : Text :=
  List.replicate (width - (Nat.toDigits 10 n).length) '0' ++ Nat.toDigits 10 n

def number (digits : Text) : ℕ := Nat.ofDigitChars 10 digits 0

theorem isDigit_of_mem_toDigits {n : ℕ} {c : Char} (h : c ∈ Nat.toDigits 10 n) : c.isDigit :=
  Nat.isDigit_of_mem_toDigits (by decide) (by decide) h

theorem isDigit_of_mem_padded {width n : ℕ} {c : Char} (h : c ∈ padded width n) : c.isDigit := by
  unfold padded at h
  rcases List.mem_append.mp h with h | h
  · rw [List.eq_of_mem_replicate h]
    decide
  · exact isDigit_of_mem_toDigits h

theorem number_toDigits (n : ℕ) : number (Nat.toDigits 10 n) = n := Nat.ofDigitChars_ten_toDigits

theorem number_padded (width n : ℕ) : number (padded width n) = n := by
  unfold number padded
  rw [Nat.ofDigitChars_append, Nat.ofDigitChars_replicate_zero, Nat.mul_zero]
  exact number_toDigits n

theorem length_padded {width n : ℕ} (hw : 0 < width) (hn : n < 10 ^ width) :
    (padded width n).length = width := by
  have := (Nat.length_toDigits_le_iff (b := 10) (by decide) hw).mpr hn
  unfold padded
  rw [List.length_append, List.length_replicate]
  omega

theorem number_lt {digits : Text} (h : ∀ c ∈ digits, c.isDigit) :
    number digits < 10 ^ digits.length := by
  unfold number
  induction digits with
  | nil => decide
  | cons c digits ih =>
    have hc := digit_le (h c List.mem_cons_self)
    have hrest := ih fun d hd => h d (List.mem_cons_of_mem _ hd)
    rw [Nat.ofDigitChars_cons, Nat.ofDigitChars_eq_ofDigitChars_zero, List.length_cons,
      Nat.pow_succ, Nat.mul_zero, Nat.zero_add]
    have := Nat.mul_le_mul_left (10 ^ digits.length) hc
    omega

/-! ### Days -/

/-- A day of the calendar, in a year of four digits. -/
structure Date where
  year : ℕ
  month : ℕ
  day : ℕ
deriving DecidableEq, Repr

def isLeap (year : ℕ) : Bool := year % 4 == 0 && (year % 100 != 0 || year % 400 == 0)

def daysIn (year month : ℕ) : ℕ :=
  if month = 2 then if isLeap year then 29 else 28
  else if month ∈ [4, 6, 9, 11] then 30 else 31

def Date.new (year month day : ℕ) : Option Date :=
  if (1 ≤ month ∧ month ≤ 12) ∧ 1 ≤ day ∧ day ≤ daysIn year month then some ⟨year, month, day⟩
  else none

/-- How a day is shown. -/
def Date.display (d : Date) : Text :=
  padded 4 d.year ++ '-' :: (padded 2 d.month ++ '-' :: padded 2 d.day)

/-! ### Values -/

inductive OffsetUnit where
  | days | weeks | months
deriving DecidableEq, Repr

inductive DayOfWeek where
  | mon | tue | wed | thu | fri | sat | sun
deriving DecidableEq, Repr

/-- A date, as it is typed. -/
inductive DateValue where
  | today | tomorrow | yesterday
  | weekday (day : DayOfWeek)
  | thisWeek | nextWeek | lastWeek
  | thisMonth | nextMonth | lastMonth
  | offset (n : ℤ) (unit : OffsetUnit)
  | day (date : Date)
  | month (year month : ℕ)
deriving DecidableEq, Repr

def fixedValues : List (Text × DateValue) :=
  [("today".toList, .today), ("tomorrow".toList, .tomorrow), ("yesterday".toList, .yesterday),
    ("this-week".toList, .thisWeek), ("next-week".toList, .nextWeek),
    ("last-week".toList, .lastWeek), ("this-month".toList, .thisMonth),
    ("next-month".toList, .nextMonth), ("last-month".toList, .lastMonth)]

def DayOfWeek.all : List (DayOfWeek × Text × Text) :=
  [(.mon, "mon".toList, "monday".toList), (.tue, "tue".toList, "tuesday".toList),
    (.wed, "wed".toList, "wednesday".toList), (.thu, "thu".toList, "thursday".toList),
    (.fri, "fri".toList, "friday".toList), (.sat, "sat".toList, "saturday".toList),
    (.sun, "sun".toList, "sunday".toList)]

def OffsetUnit.letter : OffsetUnit → Char
  | .days => 'd'
  | .weeks => 'w'
  | .months => 'm'

def OffsetUnit.ofLetter : Char → Option OffsetUnit
  | 'd' => some .days
  | 'w' => some .weeks
  | 'm' => some .months
  | _ => none

/-- An offset: a sign, one to three digits and a unit. -/
def parseOffset (s : Text) : Option DateValue :=
  let signed : Option (ℤ × Text) := match s with
    | '+' :: rest => some (1, rest)
    | '-' :: rest => some (-1, rest)
    | _ => none
  signed.bind fun (sign, rest) =>
    (rest.getLast?.bind OffsetUnit.ofLetter).bind fun unit =>
      let digits := rest.dropLast
      if digits = [] ∨ 3 < digits.length ∨ digits.all Char.isDigit = false then none
      else some (.offset (sign * number digits) unit)

/-- A number of so many digits. -/
def num (len : ℕ) (p : Text) : Option ℕ :=
  if p.length = len ∧ p.all Char.isDigit then some (number p) else none

/-- A day or a month, in digits. -/
def parseAbsolute (s : Text) : Option DateValue :=
  match s.splitOn '-' with
  | [y, m] => (num 4 y).bind fun year => (num 2 m).bind fun month =>
    (Date.new year month 1).map fun _ => .month year month
  | [y, m, d] => (num 4 y).bind fun year => (num 2 m).bind fun month => (num 2 d).bind fun day =>
    (Date.new year month day).map .day
  | _ => none

def DateValue.parse (s : Text) : Option DateValue :=
  let lower := lower s
  (((fixedValues.find? fun p => p.1 == lower).map Prod.snd).or
    ((DayOfWeek.all.find? fun p => p.2.1 == lower || p.2.2 == lower).map
      fun p => .weekday p.1)).or ((parseOffset lower).or (parseAbsolute lower))

def DateValue.display : DateValue → Text
  | .today => "today".toList
  | .tomorrow => "tomorrow".toList
  | .yesterday => "yesterday".toList
  | .weekday d => ((DayOfWeek.all.find? fun p => p.1 == d).map fun p => p.2.1).getD "mon".toList
  | .thisWeek => "this-week".toList
  | .nextWeek => "next-week".toList
  | .lastWeek => "last-week".toList
  | .thisMonth => "this-month".toList
  | .nextMonth => "next-month".toList
  | .lastMonth => "last-month".toList
  | .offset n unit =>
    (if n < 0 then '-' else '+') :: Nat.toDigits 10 n.natAbs ++ [unit.letter]
  | .day d => d.display
  | .month year m => padded 4 year ++ '-' :: padded 2 m

def DateValue.Wf : DateValue → Prop
  | .offset n _ => n.natAbs ≤ 999
  | .day d => Date.new d.year d.month d.day = some d ∧ d.year ≤ 9999
  | .month year m => (Date.new year m 1).isSome ∧ year ≤ 9999
  | _ => True

/-! ### Reading what is shown -/

theorem num_padded {width n : ℕ} (hw : 0 < width) (hn : n < 10 ^ width) :
    num width (padded width n) = some n := by
  unfold num
  rw [if_pos ⟨length_padded hw hn, List.all_eq_true.mpr fun c hc => isDigit_of_mem_padded hc⟩,
    number_padded]

theorem num_spec {len n : ℕ} {p : Text} (h : num len p = some n) : n < 10 ^ len := by
  unfold num at h
  split at h
  next hp =>
    rw [← Option.some.inj h, ← hp.1]
    exact number_lt (List.all_eq_true.mp hp.2)
  next => simp at h

theorem Date.new_spec {year month day : ℕ} {d : Date} (h : Date.new year month day = some d) :
    d = ⟨year, month, day⟩ ∧ month ≤ 12 ∧ day ≤ 31 := by
  unfold Date.new at h
  split at h
  next hd =>
    refine ⟨(Option.some.inj h).symm, hd.1.2, hd.2.2.trans ?_⟩
    unfold daysIn
    split
    · split <;> omega
    · split <;> omega
  next => simp at h

theorem parse_of_head {c : Char} {s : Text} (hl : lower (c :: s) = c :: s)
    (hc : c.isDigit ∨ c = '+' ∨ c = '-') :
    DateValue.parse (c :: s) = (parseOffset (c :: s)).or (parseAbsolute (c :: s)) := by
  have hne : ∀ w : Text, w.head?.any (fun d => !decide (d.isDigit ∨ d = '+' ∨ d = '-')) →
      (w == c :: s) = false := by
    intro w hw
    rw [beq_eq_false_iff_ne]
    rintro rfl
    rw [List.head?_cons, Option.any_some, decide_eq_true hc] at hw
    exact Bool.false_ne_true hw
  have hfixed : (fixedValues.find? fun p => p.1 == c :: s) = none := by
    rw [List.find?_eq_none]
    have : ∀ p ∈ fixedValues,
        p.1.head?.any (fun d => !decide (d.isDigit ∨ d = '+' ∨ d = '-')) = true := by decide
    intro p hp
    rw [hne _ (this p hp)]
    decide
  have hdays : (DayOfWeek.all.find? fun p => p.2.1 == c :: s || p.2.2 == c :: s) = none := by
    rw [List.find?_eq_none]
    have : ∀ p ∈ DayOfWeek.all,
        p.2.1.head?.any (fun d => !decide (d.isDigit ∨ d = '+' ∨ d = '-')) = true ∧
        p.2.2.head?.any (fun d => !decide (d.isDigit ∨ d = '+' ∨ d = '-')) = true := by decide
    intro p hp
    rw [hne _ (this p hp).1, hne _ (this p hp).2]
    decide
  unfold DateValue.parse
  dsimp only
  rw [hl, hfixed, hdays]
  rfl

theorem OffsetUnit.ofLetter_letter (unit : OffsetUnit) :
    OffsetUnit.ofLetter unit.letter = some unit := by
  cases unit <;> rfl

theorem parseOffset_display {n : ℤ} (hn : n.natAbs ≤ 999) (unit : OffsetUnit) :
    parseOffset ((if n < 0 then '-' else '+') :: Nat.toDigits 10 n.natAbs ++ [unit.letter]) =
      some (.offset n unit) := by
  have hlen : (Nat.toDigits 10 n.natAbs).length ≤ 3 :=
    (Nat.length_toDigits_le_iff (by decide) (by decide)).mpr (by omega)
  have hdigits : ¬ (Nat.toDigits 10 n.natAbs = [] ∨ 3 < (Nat.toDigits 10 n.natAbs).length ∨
      (Nat.toDigits 10 n.natAbs).all Char.isDigit = false) := by
    rintro (h | h | h)
    · exact Nat.toDigits_ne_nil h
    · omega
    · rw [List.all_eq_true.mpr fun c hc => isDigit_of_mem_toDigits hc] at h
      exact Bool.false_ne_true h.symm
  have hrest : ∀ sign : ℤ, sign * (n.natAbs : ℤ) = n →
      ((((Nat.toDigits 10 n.natAbs ++ [unit.letter]).getLast?.bind OffsetUnit.ofLetter).bind
        fun unit' =>
          let digits := (Nat.toDigits 10 n.natAbs ++ [unit.letter]).dropLast
          if digits = [] ∨ 3 < digits.length ∨ digits.all Char.isDigit = false then none
          else some (DateValue.offset (sign * number digits) unit')) =
        some (.offset n unit)) := by
    intro sign hsign
    rw [List.getLast?_concat, Option.bind_some, OffsetUnit.ofLetter_letter, Option.bind_some,
      List.dropLast_concat]
    dsimp only
    rw [if_neg hdigits, number_toDigits, hsign]
  by_cases hneg : n < 0
  · rw [if_pos hneg]
    exact hrest (-1) (by omega)
  · rw [if_neg hneg]
    exact hrest 1 (by omega)

theorem not_mem_padded (width n : ℕ) : '-' ∉ padded width n := fun h =>
  absurd (isDigit_of_mem_padded h) (by decide)

theorem parseOffset_of_isDigit {c : Char} {s : Text} (hc : c.isDigit) :
    parseOffset (c :: s) = none := by
  have hp : c ≠ '+' := fun h => absurd (h ▸ hc) (by decide)
  have hm : c ≠ '-' := fun h => absurd (h ▸ hc) (by decide)
  unfold parseOffset
  simp [hp, hm]

theorem padded_eq_cons (width n : ℕ) : ∃ c s, padded width n = c :: s ∧ c.isDigit := by
  cases h : padded width n with
  | nil =>
    unfold padded at h
    exact absurd (List.append_eq_nil_iff.mp h).2 Nat.toDigits_ne_nil
  | cons c s => exact ⟨c, s, rfl, isDigit_of_mem_padded (h ▸ List.mem_cons_self)⟩

theorem parse_of_digits {width n : ℕ} {s : Text}
    (h : ∀ c ∈ padded width n ++ s, c.isDigit ∨ c = '-') :
    DateValue.parse (padded width n ++ s) = parseAbsolute (padded width n ++ s) := by
  have hlower : lower (padded width n ++ s) = padded width n ++ s := by
    refine lower_eq_self fun c hc => ?_
    rcases h c hc with hd | rfl
    · exact toLower_of_isDigit hd
    · decide
  obtain ⟨c, t, heq, hc⟩ := padded_eq_cons width n
  rw [heq, List.cons_append] at hlower ⊢
  rw [parse_of_head hlower (.inl hc), parseOffset_of_isDigit hc]
  rfl

theorem mem_dashed {s t : Text} (hs : ∀ c ∈ s, c.isDigit ∨ c = '-')
    (ht : ∀ c ∈ t, c.isDigit ∨ c = '-') : ∀ c ∈ s ++ '-' :: t, c.isDigit ∨ c = '-' := by
  intro c hc
  rcases List.mem_append.mp hc with hc | hc
  · exact hs c hc
  · rcases List.mem_cons.mp hc with rfl | hc
    · exact .inr rfl
    · exact ht c hc

theorem display_chars (d : Date) : ∀ c ∈ d.display, c.isDigit ∨ c = '-' :=
  mem_dashed (fun _ hc => .inl (isDigit_of_mem_padded hc))
    (mem_dashed (fun _ hc => .inl (isDigit_of_mem_padded hc))
      fun _ hc => .inl (isDigit_of_mem_padded hc))

/-- **A date that is shown is read again.** -/
theorem DateValue.parse_display {v : DateValue} (h : v.Wf) : parse v.display = some v := by
  cases v with
  | offset n unit =>
    have hlower : lower (DateValue.offset n unit).display = (DateValue.offset n unit).display := by
      refine lower_eq_self fun c hc => ?_
      rcases List.mem_cons.mp hc with rfl | hc
      · split <;> decide
      · rcases List.mem_append.mp hc with hc | hc
        · exact toLower_of_isDigit (isDigit_of_mem_toDigits hc)
        · rw [List.mem_singleton.mp hc]
          cases unit <;> decide
    have hsign : (if n < 0 then '-' else '+').isDigit ∨ (if n < 0 then '-' else '+') = '+' ∨
        (if n < 0 then '-' else '+') = '-' := by
      split <;> decide
    have hparse := parse_of_head hlower hsign
    rw [show parse (DateValue.offset n unit).display = _ from hparse]
    show (parseOffset ((if n < 0 then '-' else '+') :: Nat.toDigits 10 n.natAbs ++
      [unit.letter])).or _ = _
    rw [parseOffset_display h]
    rfl
  | day d =>
    obtain ⟨hd, hyear⟩ := h
    obtain ⟨-, hmonth, hday⟩ := Date.new_spec hd
    have hsplit : d.display.splitOn '-' = [padded 4 d.year, padded 2 d.month, padded 2 d.day] := by
      unfold Date.display
      rw [List.splitOn_append_cons_self, List.splitOn_append_cons_self,
        List.splitOn_eq_singleton (not_mem_padded _ _),
        List.splitOn_eq_singleton (not_mem_padded _ _),
        List.splitOn_eq_singleton (not_mem_padded _ _)]
      rfl
    show parse d.display = _
    unfold Date.display at hsplit ⊢
    rw [parse_of_digits]
    · unfold parseAbsolute
      rw [hsplit]
      dsimp only
      rw [num_padded (by decide) (by omega), num_padded (by decide) (by omega),
        num_padded (by decide) (by omega)]
      simp only [Option.bind_some, hd, Option.map_some]
    · exact display_chars d
  | month year m =>
    obtain ⟨hd, hyear⟩ := h
    obtain ⟨d, hd⟩ := Option.isSome_iff_exists.mp hd
    obtain ⟨-, hmonth, -⟩ := Date.new_spec hd
    have hsplit : (padded 4 year ++ '-' :: padded 2 m).splitOn '-' =
        [padded 4 year, padded 2 m] := by
      rw [List.splitOn_append_cons_self, List.splitOn_eq_singleton (not_mem_padded _ _),
        List.splitOn_eq_singleton (not_mem_padded _ _)]
      rfl
    show parse (padded 4 year ++ '-' :: padded 2 m) = _
    rw [parse_of_digits]
    · unfold parseAbsolute
      rw [hsplit]
      dsimp only
      rw [num_padded (by decide) (by omega), num_padded (by decide) (by omega)]
      simp only [Option.bind_some, hd, Option.map_some]
    · exact mem_dashed (fun c hc => .inl (isDigit_of_mem_padded hc))
        fun c hc => .inl (isDigit_of_mem_padded hc)
  | weekday d => cases d <;> rfl
  | _ => rfl

theorem wf_of_parseOffset {s : Text} {v : DateValue} (h : parseOffset s = some v) : v.Wf := by
  unfold parseOffset at h
  dsimp only at h
  obtain ⟨⟨sign, rest⟩, hs, h⟩ := Option.bind_eq_some_iff.mp h
  have hsign : sign = 1 ∨ sign = -1 := by
    split at hs
    · exact .inl (Prod.mk.inj (Option.some.inj hs)).1.symm
    · exact .inr (Prod.mk.inj (Option.some.inj hs)).1.symm
    · simp at hs
  obtain ⟨unit, -, h⟩ := Option.bind_eq_some_iff.mp h
  dsimp only at h
  split at h
  · simp at h
  next hd =>
    rw [not_or, not_or] at hd
    obtain ⟨-, hlen, hall⟩ := hd
    have hlt := number_lt (List.all_eq_true.mp (by simpa using hall))
    have hle : number rest.dropLast < 10 ^ 3 :=
      hlt.trans_le (Nat.pow_le_pow_right (by decide) (by omega))
    rw [← Option.some.inj h]
    show (sign * (number rest.dropLast : ℤ)).natAbs ≤ 999
    rcases hsign with rfl | rfl <;> omega

theorem wf_of_parseAbsolute {s : Text} {v : DateValue} (h : parseAbsolute s = some v) : v.Wf := by
  unfold parseAbsolute at h
  split at h
  · obtain ⟨year, hy, h⟩ := Option.bind_eq_some_iff.mp h
    obtain ⟨month, hm, h⟩ := Option.bind_eq_some_iff.mp h
    obtain ⟨d, hd, rfl⟩ := Option.map_eq_some_iff.mp h
    have := num_spec hy
    exact ⟨Option.isSome_iff_exists.mpr ⟨d, hd⟩, by omega⟩
  · obtain ⟨year, hy, h⟩ := Option.bind_eq_some_iff.mp h
    obtain ⟨month, hm, h⟩ := Option.bind_eq_some_iff.mp h
    obtain ⟨day, hd, h⟩ := Option.bind_eq_some_iff.mp h
    obtain ⟨d, hnew, rfl⟩ := Option.map_eq_some_iff.mp h
    have := num_spec hy
    obtain ⟨rfl, -⟩ := Date.new_spec hnew
    refine ⟨hnew, ?_⟩
    show year ≤ 9999
    omega
  · simp at h

theorem wf_of_fixed : ∀ p ∈ fixedValues, p.2.Wf := by
  intro p hp
  simp only [fixedValues, List.mem_cons, List.not_mem_nil, or_false] at hp
  rcases hp with rfl | rfl | rfl | rfl | rfl | rfl | rfl | rfl | rfl <;> trivial

theorem wf_of_parse {s : Text} {v : DateValue} (h : DateValue.parse s = some v) : v.Wf := by
  unfold DateValue.parse at h
  dsimp only at h
  rw [Option.or_eq_some_iff] at h
  rcases h with h | ⟨-, h⟩
  · rw [Option.or_eq_some_iff] at h
    rcases h with h | ⟨-, h⟩
    · obtain ⟨p, hp, rfl⟩ := Option.map_eq_some_iff.mp h
      exact wf_of_fixed p (List.mem_of_find?_eq_some hp)
    · obtain ⟨p, -, rfl⟩ := Option.map_eq_some_iff.mp h
      trivial
  · rw [Option.or_eq_some_iff] at h
    rcases h with h | ⟨-, h⟩
    · exact wf_of_parseOffset h
    · exact wf_of_parseAbsolute h

def dateChar (c : Char) : Bool := c.isAlphanum || c ∈ ['-', '+']

theorem dateChar_of_isDigit {c : Char} (h : c.isDigit) : dateChar c := by
  unfold dateChar Char.isAlphanum
  rw [h, Bool.or_true, Bool.true_or]

theorem DateValue.dateChar_display (v : DateValue) : ∀ c ∈ v.display, dateChar c := by
  have hdashed : ∀ c : Char, c.isDigit ∨ c = '-' → dateChar c := by
    rintro c (hc | rfl)
    · exact dateChar_of_isDigit hc
    · decide
  cases v with
  | offset n unit =>
    intro c hc
    rcases List.mem_cons.mp hc with rfl | hc
    · split <;> decide
    · rcases List.mem_append.mp hc with hc | hc
      · exact dateChar_of_isDigit (isDigit_of_mem_toDigits hc)
      · rw [List.mem_singleton.mp hc]
        cases unit <;> decide
  | day d => exact fun c hc => hdashed c (display_chars d c hc)
  | month year m =>
    exact fun c hc => hdashed c (mem_dashed (fun c hc => .inl (isDigit_of_mem_padded hc))
      (fun c hc => .inl (isDigit_of_mem_padded hc)) c hc)
  | weekday d => cases d <;> exact forall_of_all (by decide)
  | _ => exact forall_of_all (by decide)

/-! ### Ranges -/

/-- One date, or all from one to another. -/
inductive DateSpan where
  | one (v : DateValue)
  | range (a b : DateValue)
deriving DecidableEq, Repr

/-- A text around the first two dots in it. -/
def splitDots : Text → Option (Text × Text)
  | '.' :: '.' :: rest => some ([], rest)
  | c :: rest => (splitDots rest).map fun p => (c :: p.1, p.2)
  | [] => none

/-- How a range is shown. -/
def DateSpan.display : DateSpan → Text
  | .one v => v.display
  | .range a b => a.display ++ '.' :: '.' :: b.display

/-- The ranges that are read. -/
def DateSpan.Wf : DateSpan → Prop
  | .one v => v.Wf
  | .range a b => a.Wf ∧ b.Wf

theorem splitDots_cons {c : Char} (hc : c ≠ '.') (s : Text) :
    splitDots (c :: s) = (splitDots s).map fun p => (c :: p.1, p.2) := by
  rw [splitDots]
  rintro rest rfl
  exact (hc rfl).elim

theorem splitDots_eq_none {s : Text} (h : '.' ∉ s) : splitDots s = none := by
  induction s with
  | nil => rfl
  | cons c s ih =>
    rw [List.mem_cons, not_or] at h
    rw [splitDots_cons (Ne.symm h.1), ih h.2]
    rfl

theorem splitDots_append {a : Text} (b : Text) (h : '.' ∉ a) :
    splitDots (a ++ '.' :: '.' :: b) = some (a, b) := by
  induction a with
  | nil => rfl
  | cons c a ih =>
    rw [List.mem_cons, not_or] at h
    rw [List.cons_append, splitDots_cons (Ne.symm h.1), ih h.2]
    rfl

theorem not_mem_display (v : DateValue) : '.' ∉ v.display := fun h =>
  absurd (v.dateChar_display _ h) (by decide)

theorem DateSpan.display_chars (span : DateSpan) : ∀ c ∈ span.display, dateChar c ∨ c = '.' := by
  cases span with
  | one v => exact fun c hc => .inl (v.dateChar_display c hc)
  | range a b =>
    intro c hc
    rcases List.mem_append.mp hc with hc | hc
    · exact .inl (a.dateChar_display c hc)
    · rcases List.mem_cons.mp hc with rfl | hc
      · exact .inr rfl
      · rcases List.mem_cons.mp hc with rfl | hc
        · exact .inr rfl
        · exact .inl (b.dateChar_display c hc)

end Search

end Sunrise
