import Sunrise.Lib.Iso
import Sunrise.Lib.Result
import Sunrise.Routine.Expand

/-!
# The text of a recurrence rule

A rule is stored as text: parts with semicolons between them, each a name and a value. Parts come in
any order, some of them hold lists, and what is at its default is not written. A value this build
does not know is kept as it is.

* `parse_toRfc5545_of_printable` — **what is read is read again.**
-/

namespace Sunrise

open Iso

namespace Routine

open Rows (Timestamp SunriseTime)

/-! ### Names -/

def Frequency.fromRaw : String → Frequency
  | "DAILY" => .daily
  | "WEEKLY" => .weekly
  | "MONTHLY" => .monthly
  | "YEARLY" => .yearly
  | other => .unknown other

def Frequency.asStr : Frequency → String
  | .daily => "DAILY"
  | .weekly => "WEEKLY"
  | .monthly => "MONTHLY"
  | .yearly => "YEARLY"
  | .unknown raw => raw

@[simp] theorem Frequency.asStr_fromRaw (s : String) : (fromRaw s).asStr = s := by
  unfold fromRaw
  split <;> rfl

/-- The day of a name. -/
def Weekday.fromRaw : String → Weekday
  | "SU" => .su
  | "MO" => .mo
  | "TU" => .tu
  | "WE" => .we
  | "TH" => .th
  | "FR" => .fr
  | "SA" => .sa
  | other => .unknown other

/-- The name of a day. -/
def Weekday.asStr : Weekday → String
  | .su => "SU"
  | .mo => "MO"
  | .tu => "TU"
  | .we => "WE"
  | .th => "TH"
  | .fr => "FR"
  | .sa => "SA"
  | .unknown raw => raw

@[simp] theorem Weekday.asStr_fromRaw (s : String) : (fromRaw s).asStr = s := by
  unfold fromRaw
  split <;> rfl

/-! ### Reading -/

/-- Why a rule could not be read. -/
inductive RRuleParseError where
  | missingFreq
  | unknownPart (part : String)
  | badValue (part : String) (value : String)
deriving DecidableEq, Repr

variable {L : Library}

def parseUntil (L : Library) (v : Text) : Option (SunriseTime L.jiff) :=
  match L.timestampFrom (.ofList v) with
  | some at_ => some (.instant at_)
  | none =>
    match Text.splitOnce '[' v with
    | some (civil, rest) =>
      if rest.getLast? = some ']' then
        (L.dateTimeFrom (.ofList civil)).map fun c => .zoned c (.ofList rest.dropLast)
      else none
    | none =>
      if 'T' ∈ v then (L.dateTimeFrom (.ofList v)).map fun c => .floating c
      else (L.dateFrom (.ofList v)).map fun d => .allDay d

/-- A rule with nothing in it, which `RRule.parse` starts from. -/
def RRule.initial (L : Library) : RRule L where
  freq := .daily
  interval := 1
  byDay := []
  byMonthDay := []
  byMonth := []
  bySetPos := []
  count := none
  until_ := none
  wkst := none

def readList {α : Type} (part : String) (read : Text → Option α) (v : Text) :
    Except RRuleParseError (List α) :=
  (v.splitOn ',').mapM fun tok => (read tok).elim (.error (.badValue part (.ofList tok))) .ok

/-- One part, added to those before it: the frequency, if there was one, and the rest. -/
def readPart (st : Option Frequency × RRule L) (part : Text) :
    Except RRuleParseError (Option Frequency × RRule L) :=
  match Text.splitOnce '=' part with
  | none => .error (.unknownPart (.ofList part))
  | some (k, v) =>
    match String.ofList k with
    | "FREQ" => .ok (some (.fromRaw (.ofList v)), st.2)
    | "INTERVAL" =>
      match Numeral.unsigned (2 ^ 32) v with
      | some n =>
        if n = 0 then .error (.badValue "INTERVAL" (.ofList v))
        else .ok (st.1, { st.2 with interval := n })
      | none => .error (.badValue "INTERVAL" (.ofList v))
    | "BYDAY" =>
      .ok (st.1, { st.2 with
        byDay := st.2.byDay ++ (v.splitOn ',').map fun tok => .fromRaw (.ofList tok) })
    | "BYMONTHDAY" => do
      let days ← readList "BYMONTHDAY" (Numeral.signed (2 ^ 31)) v
      .ok (st.1, { st.2 with byMonthDay := st.2.byMonthDay ++ days })
    | "BYMONTH" => do
      let months ← readList "BYMONTH" (Numeral.unsigned (2 ^ 32)) v
      .ok (st.1, { st.2 with byMonth := st.2.byMonth ++ months })
    | "BYSETPOS" => do
      let positions ← readList "BYSETPOS" (Numeral.signed (2 ^ 31)) v
      .ok (st.1, { st.2 with bySetPos := st.2.bySetPos ++ positions })
    | "COUNT" =>
      match Numeral.unsigned (2 ^ 32) v with
      | some n => .ok (st.1, { st.2 with count := some n })
      | none => .error (.badValue "COUNT" (.ofList v))
    | "UNTIL" =>
      match parseUntil L v with
      | some t => .ok (st.1, { st.2 with until_ := some t })
      | none => .error (.badValue "UNTIL" (.ofList v))
    | "WKST" => .ok (st.1, { st.2 with wkst := some (.fromRaw (.ofList v)) })
    | "BYYEARDAY" | "BYWEEKNO" =>
      .error (.unknownPart (String.ofList k ++ " not in the supported subset"))
    | other => .error (.unknownPart other)

/-- A rule read from its text. -/
def RRule.parse (L : Library) (body : String) : Except RRuleParseError (RRule L) := do
  let parts := (body.toList.splitOn ';').filter (· ≠ [])
  let (freq, out) ← parts.foldlM readPart (none, RRule.initial L)
  match freq with
  | some freq => .ok { out with freq }
  | none => .error .missingFreq

/-! ### Writing -/

/-- Values with commas between them. -/
def commas (vs : List Text) : Text := [','].intercalate vs

def part (name : String) (v : Text) : Text := name.toList ++ '=' :: v

def listPart {α : Type} (name : String) (spell : α → Text) (vs : List α) : List Text :=
  if vs.isEmpty then [] else [part name (commas (vs.map spell))]

def untilText (showTimestamp : Timestamp → String) : SunriseTime L.jiff → Option Text
  | .instant at_ => some (showTimestamp at_).toList
  | .zoned civil tz => some ((L.showDateTime civil).toList ++ '[' :: tz.toList ++ [']'])
  | .floating civil => some (L.showDateTime civil).toList
  | .allDay date => some (L.showDate date).toList
  | .unknown _ _ => none

/-- The parts of a rule that are not at their defaults. -/
def RRule.parts (showTimestamp : Timestamp → String) (r : RRule L) : List Text :=
  [part "FREQ" r.freq.asStr.toList] ++
  (if r.interval ≠ 1 then [part "INTERVAL" (Numeral.showNat r.interval)] else []) ++
  listPart "BYDAY" (fun w => w.asStr.toList) r.byDay ++
  listPart "BYMONTHDAY" Numeral.showInt r.byMonthDay ++
  listPart "BYMONTH" Numeral.showNat r.byMonth ++
  listPart "BYSETPOS" Numeral.showInt r.bySetPos ++
  (r.count.toList.map fun c => part "COUNT" (Numeral.showNat c)) ++
  ((r.until_.bind (untilText showTimestamp)).toList.map (part "UNTIL")) ++
  (r.wkst.toList.map fun w => part "WKST" w.asStr.toList)

/-- The text of a rule. -/
def RRule.toRfc5545 (showTimestamp : Timestamp → String) (r : RRule L) : String :=
  .ofList ([';'].intercalate (r.parts showTimestamp))

/-! ### What is read -/

/-- What the library documents of its texts: printers and parsers invert each other; a civil time is
shown with a `T` between date and time, a date without; and an instant is read only from a text that
has an offset. -/
structure Library.ShowsTimes (L : Library) (showTimestamp : Timestamp → String) : Prop where
  spells : L.jiff.Spells
  timestamp : ∀ t, L.timestampFrom (showTimestamp t) = some t
  timestamp_text : ∀ t, ';' ∉ (showTimestamp t).toList
  dateTime_text : ∀ c, 'T' ∈ (L.showDateTime c).toList ∧ '[' ∉ (L.showDateTime c).toList ∧
    ';' ∉ (L.showDateTime c).toList
  date_text : ∀ d, 'T' ∉ (L.showDate d).toList ∧ '[' ∉ (L.showDate d).toList ∧
    ';' ∉ (L.showDate d).toList
  offset_dateTime : ∀ c, L.timestampFrom (L.showDateTime c) = none
  offset_zoned : ∀ c zone, L.timestampFrom (L.showDateTime c ++ "[" ++ zone) = none
  offset_date : ∀ d, L.timestampFrom (L.showDate d) = none

variable {showTimestamp : Timestamp → String}

section

variable (hL : L.ShowsTimes showTimestamp)
include hL

theorem parseUntil_instant (at_ : Timestamp) :
    parseUntil L (showTimestamp at_).toList = some (.instant at_) := by
  rw [parseUntil, String.ofList_toList, hL.timestamp]

theorem parseUntil_zoned (c : Calendar.DateTime) (tz : Text) :
    parseUntil L ((L.showDateTime c).toList ++ '[' :: tz ++ [']']) =
      some (.zoned c (.ofList tz)) := by
  have htext : String.ofList ((L.showDateTime c).toList ++ '[' :: tz ++ [']']) =
      L.showDateTime c ++ "[" ++ .ofList (tz ++ [']']) := by
    rw [← String.toList_inj]
    simp
  have hread : L.dateTimeFrom (L.showDateTime c) = some c := hL.spells.dateTime c
  rw [parseUntil, htext, hL.offset_zoned]
  dsimp only
  rw [List.append_assoc, List.cons_append, Text.splitOnce_append (hL.dateTime_text c).2.1]
  dsimp only
  rw [List.getLast?_concat, if_pos rfl, List.dropLast_concat, String.ofList_toList, hread]
  rfl

theorem parseUntil_floating (c : Calendar.DateTime) :
    parseUntil L (L.showDateTime c).toList = some (.floating c) := by
  obtain ⟨hT, hopen, -⟩ := hL.dateTime_text c
  have hread : L.dateTimeFrom (L.showDateTime c) = some c := hL.spells.dateTime c
  rw [parseUntil, String.ofList_toList, hL.offset_dateTime, Text.splitOnce_eq_none hopen]
  dsimp only
  rw [if_pos hT, hread]
  rfl

theorem parseUntil_allDay (d : Calendar.Date) :
    parseUntil L (L.showDate d).toList = some (.allDay d) := by
  obtain ⟨hT, hopen, -⟩ := hL.date_text d
  have hread : L.dateFrom (L.showDate d) = some d := hL.spells.date d
  rw [parseUntil, String.ofList_toList, hL.offset_date, Text.splitOnce_eq_none hopen]
  dsimp only
  rw [if_neg hT, hread]
  rfl

end

/-- A time that its text is read back as. -/
def UntilPrintable (showTimestamp : Timestamp → String) (t : SunriseTime L.jiff) : Prop :=
  ∃ v, untilText showTimestamp t = some v ∧ ';' ∉ v ∧ parseUntil L v = some t

/-- **A last time that is read is printed as a text that it is read from.** -/
theorem untilPrintable_of_parseUntil (hL : L.ShowsTimes showTimestamp) {v : Text}
    {t : SunriseTime L.jiff} (hv : ';' ∉ v) (h : parseUntil L v = some t) :
    UntilPrintable showTimestamp t := by
  unfold parseUntil at h
  split at h
  next at_ _ =>
    obtain rfl := Option.some.inj h
    exact ⟨_, rfl, hL.timestamp_text at_, parseUntil_instant hL at_⟩
  next =>
    split at h
    next civil rest hsplit =>
      split at h
      next hlast =>
        obtain ⟨c, -, rfl⟩ := Option.map_eq_some_iff.mp h
        obtain ⟨-, rfl⟩ := Text.splitOnce_eq_some hsplit
        have hrest : ';' ∉ rest.dropLast := fun hmem => hv
          (List.mem_append_right _ (List.mem_cons_of_mem _ (List.mem_of_mem_dropLast hmem)))
        have hzoned := parseUntil_zoned hL c rest.dropLast
        refine ⟨(L.showDateTime c).toList ++ '[' :: rest.dropLast ++ [']'], ?_, ?_, hzoned⟩
        · rw [untilText, String.toList_ofList]
        · simp only [List.mem_append, List.mem_cons, List.not_mem_nil, or_false, not_or]
          exact ⟨⟨(hL.dateTime_text c).2.2, by decide, hrest⟩, by decide⟩
      next => cases h
    next =>
      split at h
      next =>
        obtain ⟨c, -, rfl⟩ := Option.map_eq_some_iff.mp h
        exact ⟨_, rfl, (hL.dateTime_text c).2.2, parseUntil_floating hL c⟩
      next =>
        obtain ⟨d, -, rfl⟩ := Option.map_eq_some_iff.mp h
        exact ⟨_, rfl, (hL.date_text d).2.2, parseUntil_allDay hL d⟩

/-- A rule whose parts are read back from their texts. -/
structure RRule.Printable (showTimestamp : Timestamp → String) (r : RRule L) : Prop where
  freq : Frequency.fromRaw r.freq.asStr = r.freq ∧ ';' ∉ r.freq.asStr.toList
  interval : r.interval ≠ 0 ∧ r.interval < 2 ^ 32
  byDay : ∀ w ∈ r.byDay, Weekday.fromRaw w.asStr = w ∧ ';' ∉ w.asStr.toList ∧
    ',' ∉ w.asStr.toList
  byMonthDay : ∀ n ∈ r.byMonthDay, -2 ^ 31 ≤ n ∧ n < 2 ^ 31
  byMonth : ∀ n ∈ r.byMonth, n < 2 ^ 32
  bySetPos : ∀ n ∈ r.bySetPos, -2 ^ 31 ≤ n ∧ n < 2 ^ 31
  count : ∀ n, r.count = some n → n < 2 ^ 32
  until_ : ∀ t, r.until_ = some t → UntilPrintable showTimestamp t
  wkst : ∀ w, r.wkst = some w → Weekday.fromRaw w.asStr = w ∧ ';' ∉ w.asStr.toList

theorem RRule.printable_initial (L : Library) :
    (RRule.initial L).Printable showTimestamp where
  freq := ⟨rfl, (by decide : ';' ∉ "DAILY".toList)⟩
  interval := ⟨one_ne_zero, Nat.one_lt_two_pow (by decide)⟩
  byDay _ h := absurd h List.not_mem_nil
  byMonthDay _ h := absurd h List.not_mem_nil
  byMonth _ h := absurd h List.not_mem_nil
  bySetPos _ h := absurd h List.not_mem_nil
  count _ h := nomatch h
  until_ _ h := nomatch h
  wkst _ h := nomatch h

def ReadSoFar (showTimestamp : Timestamp → String) (st : Option Frequency × RRule L) : Prop :=
  (∀ f, st.1 = some f → Frequency.fromRaw f.asStr = f ∧ ';' ∉ f.asStr.toList) ∧
    st.2.Printable showTimestamp

theorem forall_of_readList {α : Type} {name : String} {read : Text → Option α} {v : Text}
    {vs : List α} {P : α → Prop} (h : readList name read v = .ok vs)
    (hP : ∀ tok a, read tok = some a → P a) : ∀ a ∈ vs, P a := by
  intro a ha
  obtain ⟨tok, -, htok⟩ := Result.exists_of_mem_right (Result.mapM_eq_ok_iff.mp h) ha
  cases hread : read tok with
  | none =>
    rw [hread] at htok
    cases htok
  | some b =>
    rw [hread] at htok
    exact Except.ok.inj htok ▸ hP tok b hread

theorem readSoFar_readPart (hL : L.ShowsTimes showTimestamp) {st st' : Option Frequency × RRule L}
    {part : Text} (hst : ReadSoFar showTimestamp st) (hpart : ';' ∉ part)
    (h : readPart st part = .ok st') : ReadSoFar showTimestamp st' := by
  obtain ⟨hf, hr⟩ := hst
  unfold readPart at h
  split at h
  next => cases h
  next k v hsplit =>
    obtain ⟨-, rfl⟩ := Text.splitOnce_eq_some hsplit
    have hv : ';' ∉ v := fun hmem => hpart
      (List.mem_append_right _ (List.mem_cons_of_mem _ hmem))
    split at h
    next =>
      obtain rfl := Except.ok.inj h
      refine ⟨fun f heq => ?_, hr⟩
      obtain rfl := Option.some.inj heq
      simpa using hv
    -- INTERVAL
    next =>
      split at h
      next n hread =>
        split at h
        next => cases h
        next hne =>
          obtain rfl := Except.ok.inj h
          exact ⟨hf, { hr with interval := ⟨hne, Numeral.lt_of_unsigned hread⟩ }⟩
      next => cases h
    -- BYDAY
    next =>
      obtain rfl := Except.ok.inj h
      refine ⟨hf, { hr with byDay := fun w hw => ?_ }⟩
      rcases List.mem_append.mp hw with hw | hw
      · exact hr.byDay w hw
      · obtain ⟨tok, htok, rfl⟩ := List.mem_map.mp hw
        obtain ⟨hcomma, hmem⟩ := Text.mem_splitOn htok
        rw [Weekday.asStr_fromRaw, String.toList_ofList]
        exact ⟨rfl, fun hsemi => hv (hmem _ hsemi), hcomma⟩
    -- BYMONTHDAY
    next =>
      obtain ⟨days, hdays, h⟩ := Result.bind_eq_ok_iff.mp h
      obtain rfl := Except.ok.inj h
      exact ⟨hf, { hr with byMonthDay := List.forall_mem_append.mpr ⟨hr.byMonthDay,
        forall_of_readList hdays fun _ _ => Numeral.range_of_signed (by decide)⟩ }⟩
    -- BYMONTH
    next =>
      obtain ⟨months, hmonths, h⟩ := Result.bind_eq_ok_iff.mp h
      obtain rfl := Except.ok.inj h
      exact ⟨hf, { hr with byMonth := List.forall_mem_append.mpr ⟨hr.byMonth,
        forall_of_readList hmonths fun _ _ => Numeral.lt_of_unsigned⟩ }⟩
    -- BYSETPOS
    next =>
      obtain ⟨positions, hpositions, h⟩ := Result.bind_eq_ok_iff.mp h
      obtain rfl := Except.ok.inj h
      exact ⟨hf, { hr with bySetPos := List.forall_mem_append.mpr ⟨hr.bySetPos,
        forall_of_readList hpositions fun _ _ => Numeral.range_of_signed (by decide)⟩ }⟩
    -- COUNT
    next =>
      split at h
      next n hread =>
        obtain rfl := Except.ok.inj h
        refine ⟨hf, { hr with count := fun c heq => ?_ }⟩
        exact Option.some.inj heq ▸ Numeral.lt_of_unsigned hread
      next => cases h
    -- UNTIL
    next =>
      split at h
      next t hread =>
        obtain rfl := Except.ok.inj h
        refine ⟨hf, { hr with until_ := fun u heq => ?_ }⟩
        exact Option.some.inj heq ▸ untilPrintable_of_parseUntil hL hv hread
      next => cases h
    -- WKST
    next =>
      obtain rfl := Except.ok.inj h
      refine ⟨hf, { hr with wkst := fun w heq => ?_ }⟩
      obtain rfl := Option.some.inj heq
      simpa using hv
    -- parts outside the subset
    all_goals cases h

/-- **A rule that is read is printable.** -/
theorem RRule.printable_of_parse (hL : L.ShowsTimes showTimestamp) {body : String} {r : RRule L}
    (h : RRule.parse L body = .ok r) : r.Printable showTimestamp := by
  have hrun (parts : List Text) (hparts : ∀ p ∈ parts, ';' ∉ p)
      (st st' : Option Frequency × RRule L) (hst : ReadSoFar showTimestamp st)
      (hread : parts.foldlM readPart st = .ok st') : ReadSoFar showTimestamp st' := by
    induction parts generalizing st with
    | nil => exact Except.ok.inj hread ▸ hst
    | cons p parts ih =>
      rw [List.foldlM_cons] at hread
      obtain ⟨st₁, hp, hread⟩ := Result.bind_eq_ok_iff.mp hread
      obtain ⟨hclean, hparts⟩ := List.forall_mem_cons.mp hparts
      exact ih hparts st₁ (readSoFar_readPart hL hst hclean hp) hread
  unfold RRule.parse at h
  obtain ⟨⟨freq, out⟩, hread, h⟩ := Result.bind_eq_ok_iff.mp h
  obtain ⟨hf, hout⟩ := hrun _ (fun p hp => (Text.mem_splitOn (List.mem_of_mem_filter hp)).1)
    (none, RRule.initial L) (freq, out) ⟨nofun, RRule.printable_initial L⟩ hread
  cases freq with
  | none => cases h
  | some freq => exact Except.ok.inj h ▸ { hout with freq := hf freq rfl }

/-! ### What is written -/

theorem readList_commas {α : Type} {name : String} {read : Text → Option α} {spell : α → Text}
    {vs : List α} (hne : vs ≠ []) (hread : ∀ a ∈ vs, read (spell a) = some a)
    (hclean : ∀ a ∈ vs, ',' ∉ spell a) : readList name read (commas (vs.map spell)) = .ok vs := by
  have hsplit : (commas (vs.map spell)).splitOn ',' = vs.map spell :=
    List.splitOn_intercalate ',' (List.forall_mem_map.mpr hclean) (by simpa using hne)
  rw [readList, hsplit, Result.mapM_eq_ok_iff, List.forall₂_map_left_iff]
  refine List.forall₂_same.mpr fun a ha => ?_
  rw [hread a ha]
  rfl

theorem splitOnce_part {name : String} (h : '=' ∉ name.toList) (v : Text) :
    Text.splitOnce '=' (part name v) = some (name.toList, v) := Text.splitOnce_append h v

section Segments

variable {f : Option Frequency} {o : RRule L}

theorem read_freq {freq : Frequency} (h : Frequency.fromRaw freq.asStr = freq) :
    readPart (f, o) (part "FREQ" freq.asStr.toList) = .ok (some freq, o) := by
  rw [readPart, splitOnce_part (by decide)]
  simp [h]

theorem read_interval {n : ℕ} (h0 : n ≠ 0) (h : n < 2 ^ 32) (ho : o.interval = 1) :
    (if n ≠ 1 then [part "INTERVAL" (Numeral.showNat n)] else []).foldlM readPart (f, o) =
      .ok (f, { o with interval := n }) := by
  split
  next hne =>
    rw [List.foldlM_cons, readPart, splitOnce_part (by decide)]
    simp only [String.ofList_toList, Numeral.unsigned_showNat h, if_neg h0]
    rfl
  next heq =>
    rw [not_not.mp heq, ← ho]
    rfl

theorem read_listPart {α : Type} {name : String} {spell : α → Text} {vs : List α}
    {st st' : Option Frequency × RRule L} (hnil : vs = [] → st' = st)
    (hcons : vs ≠ [] → readPart st (part name (commas (vs.map spell))) = .ok st') :
    (listPart name spell vs).foldlM readPart st = .ok st' := by
  cases vs with
  | nil => rw [hnil rfl]; rfl
  | cons a vs =>
    have hread := hcons (List.cons_ne_nil a vs)
    show (readPart st (part name (commas ((a :: vs).map spell))) >>= pure) = _
    rw [hread]
    rfl

theorem read_byDay {ws : List Weekday} (h : ∀ w ∈ ws, Weekday.fromRaw w.asStr = w ∧
    ',' ∉ w.asStr.toList) (ho : o.byDay = []) :
    (listPart "BYDAY" (fun w : Weekday => w.asStr.toList) ws).foldlM readPart (f, o) =
      .ok (f, { o with byDay := ws }) := by
  refine read_listPart (fun hnil => by rw [hnil, ← ho]) fun hne => ?_
  have hsplit : (commas (ws.map fun w => w.asStr.toList)).splitOn ',' =
      ws.map fun w => w.asStr.toList :=
    List.splitOn_intercalate ',' (List.forall_mem_map.mpr fun w hw => (h w hw).2)
      (by simpa using hne)
  have hback : (ws.map fun w => w.asStr.toList).map
      (fun tok => Weekday.fromRaw (String.ofList tok)) = ws := by
    rw [List.map_map]
    refine (List.map_congr_left fun w hw => ?_).trans (List.map_id ws)
    rw [Function.comp_apply, String.ofList_toList]
    exact (h w hw).1
  rw [readPart, splitOnce_part (by decide)]
  simp only [String.ofList_toList]
  rw [hsplit, hback, ho, List.nil_append]

theorem read_byMonthDay {ns : List ℤ} (h : ∀ n ∈ ns, -2 ^ 31 ≤ n ∧ n < 2 ^ 31)
    (ho : o.byMonthDay = []) :
    (listPart "BYMONTHDAY" Numeral.showInt ns).foldlM readPart (f, o) =
      .ok (f, { o with byMonthDay := ns }) := by
  refine read_listPart (fun hnil => by rw [hnil, ← ho]) fun hne => ?_
  rw [readPart, splitOnce_part (by decide)]
  simp only [String.ofList_toList]
  rw [readList_commas hne (fun n hn => Numeral.signed_showInt (h n hn).1 (h n hn).2)
    fun n _ => Numeral.not_mem_showInt rfl (by decide) n, ho]
  rfl

theorem read_byMonth {ns : List ℕ} (h : ∀ n ∈ ns, n < 2 ^ 32) (ho : o.byMonth = []) :
    (listPart "BYMONTH" Numeral.showNat ns).foldlM readPart (f, o) =
      .ok (f, { o with byMonth := ns }) := by
  refine read_listPart (fun hnil => by rw [hnil, ← ho]) fun hne => ?_
  rw [readPart, splitOnce_part (by decide)]
  simp only [String.ofList_toList]
  rw [readList_commas hne (fun n hn => Numeral.unsigned_showNat (h n hn))
    fun n _ => Numeral.not_mem_showNat rfl n, ho]
  rfl

theorem read_bySetPos {ns : List ℤ} (h : ∀ n ∈ ns, -2 ^ 31 ≤ n ∧ n < 2 ^ 31)
    (ho : o.bySetPos = []) :
    (listPart "BYSETPOS" Numeral.showInt ns).foldlM readPart (f, o) =
      .ok (f, { o with bySetPos := ns }) := by
  refine read_listPart (fun hnil => by rw [hnil, ← ho]) fun hne => ?_
  rw [readPart, splitOnce_part (by decide)]
  simp only [String.ofList_toList]
  rw [readList_commas hne (fun n hn => Numeral.signed_showInt (h n hn).1 (h n hn).2)
    fun n _ => Numeral.not_mem_showInt rfl (by decide) n, ho]
  rfl

theorem read_count {c : Option ℕ} (h : ∀ n, c = some n → n < 2 ^ 32) (ho : o.count = none) :
    (c.toList.map fun c => part "COUNT" (Numeral.showNat c)).foldlM readPart (f, o) =
      .ok (f, { o with count := c }) := by
  cases c with
  | none => exact congrArg (fun v => Except.ok (f, { o with count := v })) ho
  | some n =>
    show (readPart (f, o) (part "COUNT" (Numeral.showNat n)) >>= pure) = _
    rw [readPart, splitOnce_part (by decide)]
    simp only [String.ofList_toList, Numeral.unsigned_showNat (h n rfl)]
    rfl

theorem read_until {t : Option (SunriseTime L.jiff)}
    (h : ∀ u, t = some u → UntilPrintable showTimestamp u) (ho : o.until_ = none) :
    ((t.bind (untilText showTimestamp)).toList.map (part "UNTIL")).foldlM readPart (f, o) =
      .ok (f, { o with until_ := t }) := by
  cases t with
  | none => exact congrArg (fun v => Except.ok (f, { o with until_ := v })) ho
  | some u =>
    obtain ⟨v, hv, -, hread⟩ := h u rfl
    rw [Option.bind_some, hv]
    show (readPart (f, o) (part "UNTIL" v) >>= pure) = _
    rw [readPart, splitOnce_part (by decide)]
    simp only [String.ofList_toList, hread]
    rfl

theorem read_wkst {w : Option Weekday} (h : ∀ v, w = some v → Weekday.fromRaw v.asStr = v)
    (ho : o.wkst = none) :
    (w.toList.map fun w => part "WKST" w.asStr.toList).foldlM readPart (f, o) =
      .ok (f, { o with wkst := w }) := by
  cases w with
  | none => exact congrArg (fun v => Except.ok (f, { o with wkst := v })) ho
  | some v =>
    show (readPart (f, o) (part "WKST" v.asStr.toList) >>= pure) = _
    rw [readPart, splitOnce_part (by decide)]
    simp only [String.ofList_toList, h v rfl]
    rfl

end Segments

variable {r : RRule L}

theorem foldlM_append_of {σ : Type} {step : σ → Text → Except RRuleParseError σ} {a b : σ}
    {ps : List Text} (h : ps.foldlM step a = .ok b) (ps' : List Text) :
    (ps ++ ps').foldlM step a = ps'.foldlM step b := by
  rw [List.foldlM_append, h]
  rfl

theorem foldlM_parts (hr : r.Printable showTimestamp) :
    (r.parts showTimestamp).foldlM readPart (none, RRule.initial L) =
      .ok (some r.freq, { r with freq := .daily }) := by
  have hfreq : [part "FREQ" r.freq.asStr.toList].foldlM readPart (none, RRule.initial L) =
      .ok (some r.freq, RRule.initial L) := by
    rw [List.foldlM_cons, read_freq hr.freq.1]
    rfl
  unfold RRule.parts
  simp only [List.append_assoc]
  rw [foldlM_append_of hfreq, foldlM_append_of (read_interval hr.interval.1 hr.interval.2 ?_),
    foldlM_append_of (read_byDay (fun w hw => ⟨(hr.byDay w hw).1, (hr.byDay w hw).2.2⟩) ?_),
    foldlM_append_of (read_byMonthDay hr.byMonthDay ?_),
    foldlM_append_of (read_byMonth hr.byMonth ?_),
    foldlM_append_of (read_bySetPos hr.bySetPos ?_), foldlM_append_of (read_count hr.count ?_),
    foldlM_append_of (read_until hr.until_ ?_), read_wkst (fun w hw => (hr.wkst w hw).1) ?_]
  all_goals rfl

theorem not_mem_part {name : String} (hname : ';' ∉ name.toList) {v : Text} (hv : ';' ∉ v) :
    ';' ∉ part name v := by
  simp only [part, List.mem_append, List.mem_cons, not_or]
  exact ⟨hname, by decide, hv⟩

theorem part_ne_nil (name : String) (v : Text) : part name v ≠ [] :=
  List.append_ne_nil_of_right_ne_nil _ (List.cons_ne_nil _ _)

theorem not_mem_commas {vs : List Text} (h : ∀ v ∈ vs, ';' ∉ v) : ';' ∉ commas vs := by
  intro hmem
  rcases Text.mem_of_mem_intercalate hmem with heq | ⟨v, hv, hc⟩
  · exact absurd heq (by decide)
  · exact h v hv hc

theorem clean_of_mem_parts (hr : r.Printable showTimestamp) {p : Text}
    (hp : p ∈ r.parts showTimestamp) : ';' ∉ p ∧ p ≠ [] := by
  have hlist {α : Type} {name : String} (hname : ';' ∉ name.toList) {spell : α → Text}
      {vs : List α} (h : ∀ a ∈ vs, ';' ∉ spell a) (hp : p ∈ listPart name spell vs) :
      ';' ∉ p ∧ p ≠ [] := by
    unfold listPart at hp
    split at hp
    · cases hp
    · rw [List.mem_singleton.mp hp]
      exact ⟨not_mem_part hname (not_mem_commas (List.forall_mem_map.mpr h)), part_ne_nil _ _⟩
  simp only [RRule.parts, List.mem_append] at hp
  obtain ((((((((hp | hp) | hp) | hp) | hp) | hp) | hp) | hp) | hp) := hp
  · rw [List.mem_singleton.mp hp]
    exact ⟨not_mem_part (by decide) hr.freq.2, part_ne_nil _ _⟩
  · split at hp
    · rw [List.mem_singleton.mp hp]
      exact ⟨not_mem_part (by decide) (Numeral.not_mem_showNat rfl _), part_ne_nil _ _⟩
    · cases hp
  · exact hlist (by decide) (fun w hw => (hr.byDay w hw).2.1) hp
  · exact hlist (by decide) (fun n _ => Numeral.not_mem_showInt rfl (by decide) n) hp
  · exact hlist (by decide) (fun n _ => Numeral.not_mem_showNat rfl n) hp
  · exact hlist (by decide) (fun n _ => Numeral.not_mem_showInt rfl (by decide) n) hp
  · obtain ⟨c, -, rfl⟩ := List.mem_map.mp hp
    exact ⟨not_mem_part (by decide) (Numeral.not_mem_showNat rfl _), part_ne_nil _ _⟩
  · obtain ⟨v, hv, rfl⟩ := List.mem_map.mp hp
    obtain ⟨t, ht, hvt⟩ := Option.bind_eq_some_iff.mp (Option.mem_toList.mp hv)
    obtain ⟨v', hv', hclean, -⟩ := hr.until_ t ht
    obtain rfl := Option.some.inj (hv'.symm.trans hvt)
    exact ⟨not_mem_part (by decide) hclean, part_ne_nil _ _⟩
  · obtain ⟨w, hw, rfl⟩ := List.mem_map.mp hp
    exact ⟨not_mem_part (by decide) (hr.wkst w (Option.mem_toList.mp hw)).2, part_ne_nil _ _⟩

/-- **A printable rule is read from its text.** -/
theorem parse_toRfc5545_of_printable (hr : r.Printable showTimestamp) :
    RRule.parse L (r.toRfc5545 showTimestamp) = .ok r := by
  have hsplit : (r.toRfc5545 showTimestamp).toList.splitOn ';' = r.parts showTimestamp := by
    rw [RRule.toRfc5545, String.toList_ofList]
    exact List.splitOn_intercalate ';' (fun p hp => (clean_of_mem_parts hr hp).1) (by
      unfold RRule.parts
      simp)
  have hfilter : (r.parts showTimestamp).filter (· ≠ []) = r.parts showTimestamp :=
    List.filter_eq_self.mpr fun p hp => decide_eq_true (clean_of_mem_parts hr hp).2
  unfold RRule.parse
  dsimp only
  rw [hsplit, hfilter, foldlM_parts hr]
  rfl

/-! ### Storing a rule -/

def RRule.stored (showTimestamp : Timestamp → String) (r : RRule L) :
    ℕ → Except RRuleParseError (RRule L)
  | 0 => .ok r
  | n + 1 => do
    let again ← RRule.parse L (r.toRfc5545 showTimestamp)
    again.stored showTimestamp n

theorem RRule.stored_eq (hr : r.Printable showTimestamp) (n : ℕ) :
    r.stored showTimestamp n = .ok r := by
  induction n with
  | zero => rfl
  | succ n ih =>
    rw [RRule.stored, parse_toRfc5545_of_printable hr]
    exact ih

/-- **A rule that is read is read again from its text**, and so it is however often it is stored;
devices that stored it differently often give the same occurrences. -/
theorem RRule.parse_toRfc5545 (hL : L.ShowsTimes showTimestamp) {s : String} {r : RRule L}
    (h : RRule.parse L s = .ok r) :
    RRule.parse L (r.toRfc5545 showTimestamp) = .ok r ∧
      (∀ n, r.stored showTimestamp n = .ok r) ∧
      ∀ m n r₁ r₂, r.stored showTimestamp m = .ok r₁ → r.stored showTimestamp n = .ok r₂ →
        ∀ anchor tz window, expand r₁ anchor tz window = expand r₂ anchor tz window := by
  have hr := RRule.printable_of_parse hL h
  refine ⟨parse_toRfc5545_of_printable hr, RRule.stored_eq hr, fun m n r₁ r₂ h₁ h₂ => ?_⟩
  rw [RRule.stored_eq hr] at h₁ h₂
  rw [← Except.ok.inj h₁, ← Except.ok.inj h₂]
  exact fun _ _ _ => rfl

/-! ### A library that spells its times -/

theorem Library.spells_of_reads (hdate : ∀ d, L.dateFrom (L.showDate d) = some d)
    (htime : ∀ t, L.timeFrom (L.showTime t) = some t)
    (hdateTime : ∀ c, L.dateTimeFrom (L.showDateTime c) = some c) : L.jiff.Spells :=
  ⟨hdate, htime, hdateTime⟩

/-- Zones of transitions, with the texts of ISO 8601. -/
def isoLibrary : Library where
  __ := transitionsLibrary
  showDate d := .ofList (Iso.showDate d)
  showTime t := .ofList (Iso.showTime t)
  showDateTime t := .ofList (Iso.showDateTime t)
  dateFrom s := Iso.whole Iso.readDate s.toList
  timeFrom s := Iso.whole Iso.readTime s.toList
  dateTimeFrom s := Iso.whole Iso.readDateTime s.toList
  timestampFrom s :=
    if s.toList.getLast? = some 'Z' then
      (Iso.whole Iso.readDateTime s.toList.dropLast).bind utcTimestamp
    else none

def isoTimestamp (t : Timestamp) : String := .ofList (showDateTime (utcCivil t) ++ ['Z'])

section Spelled

variable (d : Calendar.Date) (t : Calendar.Time) (c : Calendar.DateTime)

theorem toList_showDate : (isoLibrary.showDate d).toList = showDate d := String.toList_ofList

theorem toList_showDateTime : (isoLibrary.showDateTime c).toList = showDateTime c :=
  String.toList_ofList

theorem toList_showTime : (isoLibrary.showTime t).toList = showTime t := String.toList_ofList

theorem dateFrom_eq (s : String) : isoLibrary.dateFrom s = whole readDate s.toList := rfl

theorem timeFrom_eq (s : String) : isoLibrary.timeFrom s = whole readTime s.toList := rfl

theorem dateTimeFrom_eq (s : String) :
    isoLibrary.dateTimeFrom s = whole readDateTime s.toList := rfl

theorem dateFrom_showDate : isoLibrary.dateFrom (isoLibrary.showDate d) = some d := by
  rw [dateFrom_eq, toList_showDate, whole_showDate]

theorem timeFrom_showTime : isoLibrary.timeFrom (isoLibrary.showTime t) = some t := by
  rw [timeFrom_eq, toList_showTime, whole_showTime]

theorem dateTimeFrom_showDateTime :
    isoLibrary.dateTimeFrom (isoLibrary.showDateTime c) = some c := by
  rw [dateTimeFrom_eq, toList_showDateTime, whole_showDateTime]

end Spelled

theorem mem_showDateTime {t : Calendar.DateTime} {c : Char} (h : c ∈ showDateTime t) :
    c = '-' ∨ c = ':' ∨ c = '.' ∨ c = 'T' ∨ c.isDigit := by
  rcases List.mem_append.mp h with h | h
  · rcases mem_showDate h with h | h <;> simp [h]
  · rcases List.mem_cons.mp h with h | h
    · simp [h]
    · rcases mem_showTime h with h | h | h <;> simp [h]

theorem timestampFrom_of_not_mem {s : Text} (h : 'Z' ∉ s) :
    isoLibrary.timestampFrom (.ofList s) = none := by
  refine if_neg fun hlast => h ?_
  rw [String.toList_ofList] at hlast
  exact List.mem_of_getLast? hlast

theorem timestampFrom_zoned (c : Calendar.DateTime) (zone : String) :
    isoLibrary.timestampFrom (isoLibrary.showDateTime c ++ "[" ++ zone) = none := by
  have htext : (isoLibrary.showDateTime c ++ "[" ++ zone).toList =
      showDateTime c ++ '[' :: zone.toList := by
    simp [toList_showDateTime]
  have hread : isoLibrary.timestampFrom (isoLibrary.showDateTime c ++ "[" ++ zone) =
      if (isoLibrary.showDateTime c ++ "[" ++ zone).toList.getLast? = some 'Z' then
        (whole readDateTime
          (isoLibrary.showDateTime c ++ "[" ++ zone).toList.dropLast).bind utcTimestamp
      else none := rfl
  rw [hread, htext]
  split
  next hlast =>
    cases hzone : zone.toList with
    | nil =>
      rw [hzone, List.getLast?_concat] at hlast
      cases hlast
    | cons d ds =>
      have hdrop : (showDateTime c ++ '[' :: d :: ds).dropLast =
          showDateTime c ++ '[' :: (d :: ds).dropLast := by simp
      have hends : Iso.EndsTime ('[' :: (d :: ds).dropLast) := fun e he =>
        Option.some.inj he ▸ ⟨by decide, by decide⟩
      rw [hdrop, whole, readDateTime_append c hends]
      rfl
  next => rfl

theorem timestampFrom_isoTimestamp (t : Timestamp) :
    isoLibrary.timestampFrom (isoTimestamp t) = some t := by
  have hread : isoLibrary.timestampFrom (isoTimestamp t) =
      if (isoTimestamp t).toList.getLast? = some 'Z' then
        (whole readDateTime (isoTimestamp t).toList.dropLast).bind utcTimestamp
      else none := rfl
  rw [hread, isoTimestamp, String.toList_ofList, List.getLast?_concat, if_pos rfl,
    List.dropLast_concat, whole_showDateTime, Option.bind_some, utcTimestamp_eq_some,
    ns_utcCivil]
  omega

theorem isoLibrary_showsTimes : isoLibrary.ShowsTimes isoTimestamp where
  spells :=
    Library.spells_of_reads dateFrom_showDate timeFrom_showTime dateTimeFrom_showDateTime
  timestamp := timestampFrom_isoTimestamp
  timestamp_text t := by
    rw [isoTimestamp, String.toList_ofList, List.mem_append]
    rintro (h | h)
    · rcases mem_showDateTime h with h | h | h | h | h <;> exact absurd h (by decide)
    · exact absurd h (by decide)
  dateTime_text c := by
    rw [toList_showDateTime]
    refine ⟨List.mem_append_right _ List.mem_cons_self, fun h => ?_, fun h => ?_⟩
    all_goals rcases mem_showDateTime h with h | h | h | h | h <;> exact absurd h (by decide)
  date_text d := by
    rw [toList_showDate]
    refine ⟨fun h => ?_, fun h => ?_, fun h => ?_⟩
    all_goals rcases mem_showDate h with h | h <;> exact absurd h (by decide)
  offset_dateTime c := timestampFrom_of_not_mem fun h => by
    rcases mem_showDateTime h with h | h | h | h | h <;> exact absurd h (by decide)
  offset_zoned := timestampFrom_zoned
  offset_date d := timestampFrom_of_not_mem fun h => by
    rcases mem_showDate h with h | h <;> exact absurd h (by decide)

theorem RRule.parse_toRfc5545_weekly : ∃ r,
    RRule.parse isoLibrary "BYDAY=MO,XX;FREQ=FORTNIGHTLY;INTERVAL=+2" = .ok r ∧
      r.toRfc5545 isoTimestamp = "FREQ=FORTNIGHTLY;INTERVAL=2;BYDAY=MO,XX" ∧
      RRule.parse isoLibrary (r.toRfc5545 isoTimestamp) = .ok r := by
  obtain ⟨r, hr, htext⟩ : ∃ r,
      RRule.parse isoLibrary "BYDAY=MO,XX;FREQ=FORTNIGHTLY;INTERVAL=+2" = .ok r ∧
        r.toRfc5545 isoTimestamp = "FREQ=FORTNIGHTLY;INTERVAL=2;BYDAY=MO,XX" :=
    ⟨_, rfl, by rfl⟩
  exact ⟨r, hr, htext, (RRule.parse_toRfc5545 isoLibrary_showsTimes hr).1⟩

end Routine

end Sunrise
