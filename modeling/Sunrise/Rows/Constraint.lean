import Sunrise.Rows.Time

/-!
# Scheduling constraints in their column

A constraint restricts when a task may be planned: to times of day, to days of the week, to
a range of dates. A task keeps its list of them in one column, as canonical bytes. What this
build does not know is kept at every level: a key of a record, a spelling of a severity, a
token for a day.

* `decodeConstraints_encodeConstraints` — **a list is read back from its column.**
-/

namespace Sunrise

namespace Rows

open Cbor (Item)

/-! ### Enumerations that keep what they do not know -/

/-- An enumeration with a spelling for each of its values. -/
class Spelled (α : Type) where
  spelling : α → String
  ofSpelling : String → Option α
  ofSpelling_spelling : ∀ a, ofSpelling (spelling a) = some a

/-- The spellings that are of no value. -/
abbrev UnknownVariant (α : Type) [Spelled α] :=
  { s : String // Spelled.ofSpelling (α := α) s = none }

/-- A value of an enumeration, or a spelling that is of none. -/
inductive Lossy (α : Type) [Spelled α] where
  | known (a : α)
  | unknown (raw : UnknownVariant α)
deriving DecidableEq

namespace Lossy

variable {α : Type} [Spelled α]

def asStr : Lossy α → String
  | known a => Spelled.spelling a
  | unknown raw => raw.1

/-- The value of a spelling. -/
def fromRaw (s : String) : Lossy α :=
  match h : Spelled.ofSpelling (α := α) s with
  | some a => known a
  | none => unknown ⟨s, h⟩

@[simp] theorem fromRaw_asStr (x : Lossy α) : fromRaw x.asStr = x := by
  cases x with
  | known a =>
    unfold fromRaw asStr
    split
    next b hb =>
      have hab := (Spelled.ofSpelling_spelling a).symm.trans hb
      exact congrArg known (Option.some.inj hab).symm
    next hb => exact absurd ((Spelled.ofSpelling_spelling a).symm.trans hb) (by simp)
  | unknown raw =>
    unfold fromRaw asStr
    split
    next b hb => exact absurd (raw.2.symm.trans hb) (by simp)
    next => rfl

end Lossy

/-- The days of the week. -/
inductive KnownWeekday where
  | su | mo | tu | we | th | fr | sa
deriving DecidableEq

instance : Spelled KnownWeekday where
  spelling
    | .su => "SU" | .mo => "MO" | .tu => "TU" | .we => "WE" | .th => "TH" | .fr => "FR"
    | .sa => "SA"
  ofSpelling
    | "SU" => some .su | "MO" => some .mo | "TU" => some .tu | "WE" => some .we
    | "TH" => some .th | "FR" => some .fr | "SA" => some .sa
    | _ => none
  ofSpelling_spelling a := by cases a <;> rfl

/-- How much a constraint weighs. -/
inductive KnownSeverity where
  | hard | soft
deriving DecidableEq

instance : Spelled KnownSeverity where
  spelling
    | .hard => "hard" | .soft => "soft"
  ofSpelling
    | "hard" => some .hard | "soft" => some .soft
    | _ => none
  ofSpelling_spelling a := by cases a <;> rfl

/-! ### Sets of days -/

/-- A set of days, and the tokens for days this build does not know, each once, in the order
they came. -/
structure WeekdaySet where
  mask : KnownWeekday → Bool
  unknown : List (UnknownVariant KnownWeekday)
  nodup : unknown.Nodup

theorem nodup_append_one {α : Type*} {l : List α} {a : α} (h : a ∉ l) (hl : l.Nodup) :
    (l ++ [a]).Nodup := by
  rw [← List.concat_eq_append]
  exact hl.concat h

namespace WeekdaySet

/-- The order days are written in. -/
def weekdayOrder : List KnownWeekday := [.mo, .tu, .we, .th, .fr, .sa, .su]

theorem mem_weekdayOrder (d : KnownWeekday) : d ∈ weekdayOrder := by cases d <;> decide

/-- No day. -/
def empty : WeekdaySet := ⟨fun _ => false, [], List.nodup_nil⟩

theorem ext {s t : WeekdaySet} (hmask : s.mask = t.mask) (hunknown : s.unknown = t.unknown) :
    s = t := by
  cases s
  cases t
  cases hmask
  cases hunknown
  rfl

def isEmpty (s : WeekdaySet) : Bool := !weekdayOrder.any s.mask && s.unknown.isEmpty

/-- Put a day into the set. -/
def insert (s : WeekdaySet) : Lossy KnownWeekday → WeekdaySet
  | .known d => { s with mask := fun d' => s.mask d' || d' == d }
  | .unknown raw =>
    if h : raw ∈ s.unknown then s
    else { s with unknown := s.unknown ++ [raw], nodup := nodup_append_one h s.nodup }

/-- The members, the known days in their order and then the unknown tokens. -/
def iter (s : WeekdaySet) : List (Lossy KnownWeekday) :=
  (weekdayOrder.filter s.mask).map .known ++ s.unknown.map .unknown

/-- The wire form of a set of days. -/
def item (s : WeekdaySet) : Item := .array (s.iter.map fun d => textItem d.asStr)

def ofItem : Item → Option WeekdaySet
  | .array items =>
    (items.mapM fun v => (itemText v).map Lossy.fromRaw).map fun ds => ds.foldl insert empty
  | _ => none

theorem foldl_insert_known (ds : List KnownWeekday) (s : WeekdaySet) :
    (ds.map Lossy.known).foldl insert s = { s with mask := fun d => s.mask d || d ∈ ds } := by
  induction ds generalizing s with
  | nil => exact ext (funext fun d => by simp) rfl
  | cons d ds ih =>
    rw [List.map_cons, List.foldl_cons, ih]
    refine ext (funext fun d' => ?_) rfl
    show (s.mask d' || d' == d || decide (d' ∈ ds)) = (s.mask d' || decide (d' ∈ d :: ds))
    by_cases hd : d' = d
    · simp [hd]
    · have hbeq : (d' == d) = false := beq_eq_false_iff_ne.mpr hd
      simp [hd, hbeq]

theorem foldl_insert_unknown {us : List (UnknownVariant KnownWeekday)} {s : WeekdaySet}
    (h : (s.unknown ++ us).Nodup) :
    (us.map Lossy.unknown).foldl insert s = { s with unknown := s.unknown ++ us, nodup := h } := by
  induction us generalizing s with
  | nil => exact ext rfl (List.append_nil _).symm
  | cons u us ih =>
    have hu : u ∉ s.unknown := fun hmem =>
      (List.nodup_append.mp h).2.2 u hmem u List.mem_cons_self rfl
    have hins : s.insert (.unknown u) = { s with
        unknown := s.unknown ++ [u], nodup := nodup_append_one hu s.nodup } := dif_neg hu
    have h' : (s.unknown ++ [u] ++ us).Nodup := by rwa [List.append_assoc, List.singleton_append]
    rw [List.map_cons, List.foldl_cons, hins, ih h']
    exact ext rfl (by simp)

theorem foldl_insert_iter (s : WeekdaySet) : s.iter.foldl insert empty = s := by
  have hnodup : (([] : List (UnknownVariant KnownWeekday)) ++ s.unknown).Nodup := s.nodup
  rw [iter, List.foldl_append, foldl_insert_known, foldl_insert_unknown hnodup]
  refine ext (funext fun d => ?_) rfl
  show (false || decide (d ∈ weekdayOrder.filter s.mask)) = s.mask d
  simp [List.mem_filter, mem_weekdayOrder d]

theorem ofItem_item (s : WeekdaySet) : ofItem s.item = some s := by
  have hread : (s.iter.map fun d => textItem d.asStr).mapM
      (fun v => (itemText v).map (Lossy.fromRaw (α := KnownWeekday))) = some s.iter := by
    refine Text.mapM_eq_some_iff.mpr (List.forall₂_map_left_iff.mpr ?_)
    exact List.forall₂_same.mpr fun d _ => congrArg some d.fromRaw_asStr
  show Option.map _ _ = _
  rw [hread, Option.map_some, foldl_insert_iter]

theorem eq_empty_of_isEmpty {s : WeekdaySet} (h : s.isEmpty) : s = empty := by
  unfold isEmpty at h
  rw [Bool.and_eq_true, Bool.not_eq_true', List.any_eq_false, List.isEmpty_iff] at h
  refine ext (funext fun d => ?_) h.2
  show s.mask d = false
  simpa using h.1 d (mem_weekdayOrder d)

end WeekdaySet

/-! ### Constraints -/

def fieldText (v : Option Item) : Option String := v.bind itemText

/-- A field that may be absent or null. -/
def optionalField {α : Type} (read : Item → Option α) : Option Item → Option (Option α)
  | none => some none
  | some (.scalar .null) => some none
  | some v => (read v).map some

theorem optionalField_map {α : Type} {read : Item → Option α} {write : α → Item} {o : Option α}
    (hnull : read (.scalar .null) = none) (h : ∀ x, o = some x → read (write x) = some x) :
    optionalField read (o.map write) = some o := by
  cases o with
  | none => rfl
  | some x =>
    have hx := h x rfl
    show optionalField read (some (write x)) = _
    unfold optionalField
    split
    next heq => cases heq
    next heq =>
      rw [Option.some.inj heq, hnull] at hx
      cases hx
    next heq => rw [← Option.some.inj heq, hx, Option.map_some]

variable {J : Jiff}

/-- A window of the day, its end left out. -/
structure TimeOfDayRange (J : Jiff) where
  start : J.Time
  end_ : J.Time
  unknown : Unknowns ["start", "end"]

/-- The wire form of a window. -/
def TimeOfDayRange.item (r : TimeOfDayRange J) : Item :=
  record [("start", some (textItem (J.showTime r.start))),
    ("end", some (textItem (J.showTime r.end_)))] r.unknown

/-- The window of a wire form. -/
def TimeOfDayRange.ofItem (v : Item) : Option (TimeOfDayRange J) :=
  (readRecord ["start", "end"] v).bind fun f =>
    ((fieldText (f.field "start")).bind J.timeFrom).bind fun start =>
      ((fieldText (f.field "end")).bind J.timeFrom).map fun end_ => ⟨start, end_, f.unknown⟩

/-- A range of dates, its end in it; without an end it is open. -/
structure DateRange (J : Jiff) where
  start : J.Date
  end_ : Option J.Date
  unknown : Unknowns ["start", "end"]

def DateRange.item (r : DateRange J) : Item :=
  record [("start", some (textItem (J.showDate r.start))),
    ("end", r.end_.map fun d => textItem (J.showDate d))] r.unknown

def DateRange.ofItem (v : Item) : Option (DateRange J) :=
  (readRecord ["start", "end"] v).bind fun f =>
    ((fieldText (f.field "start")).bind J.dateFrom).bind fun start =>
      (optionalField (fun v => (itemText v).bind J.dateFrom) (f.field "end")).map fun end_ =>
        ⟨start, end_, f.unknown⟩

structure ScheduleConstraint (J : Jiff) where
  timeOfDay : Option (TimeOfDayRange J)
  /-- The days it allows, all of them when there is none. -/
  daysOfWeek : WeekdaySet
  dateRange : Option (DateRange J)
  severity : Lossy KnownSeverity
  unknown : Unknowns ["time_of_day", "days_of_week", "date_range", "severity"]

/-- The wire form of a constraint. A set without a day is left out. -/
def ScheduleConstraint.item (c : ScheduleConstraint J) : Item :=
  record [("time_of_day", c.timeOfDay.map TimeOfDayRange.item),
    ("days_of_week", if c.daysOfWeek.isEmpty then none else some c.daysOfWeek.item),
    ("date_range", c.dateRange.map DateRange.item),
    ("severity", some (textItem c.severity.asStr))] c.unknown

def daysField : Option Item → Option WeekdaySet
  | none => some .empty
  | some v => WeekdaySet.ofItem v

def ScheduleConstraint.ofItem (v : Item) : Option (ScheduleConstraint J) :=
  (readRecord ["time_of_day", "days_of_week", "date_range", "severity"] v).bind fun f =>
    (optionalField TimeOfDayRange.ofItem (f.field "time_of_day")).bind fun timeOfDay =>
      (daysField (f.field "days_of_week")).bind fun daysOfWeek =>
        (optionalField DateRange.ofItem (f.field "date_range")).bind fun dateRange =>
          (fieldText (f.field "severity")).map fun severity =>
            ⟨timeOfDay, daysOfWeek, dateRange, .fromRaw severity, f.unknown⟩

variable {cbor : Cbor.Codec}

theorem TimeOfDayRange.ofItem_item {r : TimeOfDayRange J} (hJ : J.Spells)
    (h : r.unknown.Kept cbor) : ofItem (canonicalize cbor r.item) = some r := by
  obtain ⟨f, hf, hunknown, hfield⟩ := readRecord_canonicalize
    [("start", some (textItem (J.showTime r.start))),
      ("end", some (textItem (J.showTime r.end_)))] h rfl (by decide)
  have hstart : f.field "start" = some (textItem (J.showTime r.start)) :=
    hfield ("start", some (textItem (J.showTime r.start))) (by simp)
  have hend : f.field "end" = some (textItem (J.showTime r.end_)) :=
    hfield ("end", some (textItem (J.showTime r.end_))) (by simp)
  unfold ofItem item
  rw [hf, Option.bind_some, hstart, hend]
  simp [fieldText, hJ.time, hunknown]

theorem DateRange.ofItem_item {r : DateRange J} (hJ : J.Spells) (h : r.unknown.Kept cbor) :
    ofItem (canonicalize cbor r.item) = some r := by
  obtain ⟨f, hf, hunknown, hfield⟩ := readRecord_canonicalize
    [("start", some (textItem (J.showDate r.start))),
      ("end", r.end_.map fun d => textItem (J.showDate d))] h rfl (by decide)
  have hstart : f.field "start" = some (textItem (J.showDate r.start)) :=
    hfield ("start", some (textItem (J.showDate r.start))) (by simp)
  have hend : f.field "end" = r.end_.map fun d => textItem (J.showDate d) := by
    rw [hfield ("end", r.end_.map fun d => textItem (J.showDate d)) (by simp), Option.map_map]
    rfl
  have hopt : optionalField (fun v => (itemText v).bind J.dateFrom) (f.field "end") =
      some r.end_ := by
    rw [hend]
    refine optionalField_map rfl fun d _ => ?_
    rw [itemText_textItem, Option.bind_some, hJ.date]
  unfold ofItem item
  rw [hf, Option.bind_some, hstart, hopt]
  simp [fieldText, hJ.date, hunknown]

theorem WeekdaySet.canonicalize_item (s : WeekdaySet) : canonicalize cbor s.item = s.item := by
  unfold item
  rw [canonicalize, canonicalizeItems_eq, List.map_map]
  rfl

/-- A constraint as a reader of records keeps it. -/
structure ScheduleConstraint.Kept (cbor : Cbor.Codec) (c : ScheduleConstraint J) : Prop where
  timeOfDay : ∀ r, c.timeOfDay = some r → r.unknown.Kept cbor
  dateRange : ∀ r, c.dateRange = some r → r.unknown.Kept cbor
  unknown : c.unknown.Kept cbor

theorem ScheduleConstraint.ofItem_item {c : ScheduleConstraint J} (hJ : J.Spells)
    (h : c.Kept cbor) : ofItem (canonicalize cbor c.item) = some c := by
  obtain ⟨f, hf, hunknown, hfield⟩ := readRecord_canonicalize
    [("time_of_day", c.timeOfDay.map TimeOfDayRange.item),
      ("days_of_week", if c.daysOfWeek.isEmpty then none else some c.daysOfWeek.item),
      ("date_range", c.dateRange.map DateRange.item),
      ("severity", some (textItem c.severity.asStr))] h.unknown rfl (by decide)
  have htime : optionalField TimeOfDayRange.ofItem (f.field "time_of_day") =
      some c.timeOfDay := by
    rw [hfield ("time_of_day", c.timeOfDay.map TimeOfDayRange.item) (by simp), Option.map_map]
    exact optionalField_map rfl fun r hr => TimeOfDayRange.ofItem_item hJ (h.timeOfDay r hr)
  have hdays : daysField (f.field "days_of_week") = some c.daysOfWeek := by
    rw [hfield ("days_of_week", if c.daysOfWeek.isEmpty then none else some c.daysOfWeek.item)
      (by simp)]
    by_cases hempty : c.daysOfWeek.isEmpty
    · rw [if_pos hempty, WeekdaySet.eq_empty_of_isEmpty hempty]
      rfl
    · rw [if_neg hempty, Option.map_some, WeekdaySet.canonicalize_item]
      exact WeekdaySet.ofItem_item _
  have hdate : optionalField DateRange.ofItem (f.field "date_range") = some c.dateRange := by
    rw [hfield ("date_range", c.dateRange.map DateRange.item) (by simp), Option.map_map]
    exact optionalField_map rfl fun r hr => DateRange.ofItem_item hJ (h.dateRange r hr)
  have hseverity : f.field "severity" = some (textItem c.severity.asStr) :=
    hfield ("severity", some (textItem c.severity.asStr)) (by simp)
  unfold ofItem item
  rw [hf, Option.bind_some, htime, Option.bind_some, hdays, Option.bind_some, hdate,
    Option.bind_some, hseverity]
  simp [fieldText, hunknown]

/-! ### The column -/

def constraintsItem (list : List (ScheduleConstraint J)) : Item :=
  .array (list.map ScheduleConstraint.item)

def constraintsOf : Item → Option (List (ScheduleConstraint J))
  | .array items => items.mapM ScheduleConstraint.ofItem
  | _ => none

variable (cbor)

/-- The column of a list of constraints, null for none. -/
def encodeConstraints (list : List (ScheduleConstraint J)) : Option Bytes :=
  if list.isEmpty then none else some (encodeCanonical cbor (constraintsItem list))

variable (J) in
/-- The list a column holds, whose bytes must be canonical. -/
def decodeConstraints : Option Bytes → Except CanonicalError (List (ScheduleConstraint J))
  | none => .ok []
  | some bytes =>
    match cbor.read maxDocDepth bytes with
    | .error .tooDeep => .error .tooDeep
    | .error .malformed => .error .decode
    | .ok (v, _) =>
      match constraintsOf v with
      | none => .error .decode
      | some list =>
        let reencoded := encodeCanonical cbor (constraintsItem list)
        if reencoded = bytes then .ok list
        else .error (.nonCanonical bytes.length reencoded.length)

variable {cbor}

/-- **A list of constraints is read back from its column.** -/
theorem decodeConstraints_encodeConstraints {list : List (ScheduleConstraint J)}
    (hc : cbor.Lawful) (hJ : J.Spells) (hkept : ∀ c ∈ list, c.Kept cbor)
    (hreg : (constraintsItem list).Regular) (hdepth : (constraintsItem list).depth ≤ maxDocDepth) :
    decodeConstraints J cbor (encodeConstraints cbor list) = .ok list := by
  cases list with
  | nil => rfl
  | cons c cs =>
    have hread := hc.read_write _ ((@shuffle_canonicalize cbor _).regular hreg)
      maxDocDepth []
    rw [List.append_nil, (shuffle_canonicalize _).depth_eq, if_pos hdepth] at hread
    have hof : constraintsOf (canonicalize cbor (constraintsItem (c :: cs))) = some (c :: cs) := by
      unfold constraintsItem
      rw [canonicalize, canonicalizeItems_eq, List.map_map]
      refine Text.mapM_eq_some_iff.mpr (List.forall₂_map_left_iff.mpr ?_)
      exact List.forall₂_same.mpr fun d hd => ScheduleConstraint.ofItem_item hJ (hkept d hd)
    show decodeConstraints J cbor (some (encodeCanonical cbor (constraintsItem (c :: cs)))) = _
    simp only [decodeConstraints, encodeCanonical, hread, hof, if_true]

end Rows

end Sunrise
