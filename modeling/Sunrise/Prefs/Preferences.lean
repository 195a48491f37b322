import Sunrise.Cbor.Record
import Sunrise.Routine.Rrule

/-!
# Preferences

A key has a type, a default and a scope. A value is checked as it is written, kept as a CBOR item in
the synced entity or in the device's overlay, and read back from there through checks of its own;
what does not pass them reads as the default.

* `preferenceKeys`, `prefSpec` — the key table.
* `PrefValue.encode`, `PrefType.decode`, `PrefType.fits` — values and the items they are kept as.
* `checkWrite`, `resolve` — a write checked, and a key read.
* `decode_encode` — **what is read back is the value with its civil times to the second.**
-/

namespace Sunrise

open Routine

namespace Prefs

open Calendar (Time)
open Cbor (Item)
open Routine (Library Weekday)

/-! ### The key table -/

/-- Where a key's value may live. -/
inductive PrefScope where
  | vault
  | vaultOverridable
  | device
deriving DecidableEq

/-- Which store a write goes to. -/
inductive PrefTarget where
  | vault
  | device
deriving DecidableEq

/-- Whether a write may name a target for a key of a scope. -/
def PrefScope.permits : PrefScope → PrefTarget → Bool
  | .vault, .vault | .vaultOverridable, .vault => true
  | .device, .device | .vaultOverridable, .device => true
  | _, _ => false

/-- Where a resolved value came from. -/
inductive PrefSource where
  | overlay
  | vault
  | default
deriving DecidableEq

/-- The device classes a default may differ by. -/
inductive DeviceClass where
  | desktop
  | handheld
deriving DecidableEq

/-- The kinds of entity a key's value may name. -/
inductive RefKind where
  | stream
  | device
deriving DecidableEq

def RefKind.label : RefKind → Text
  | .stream => "str_".toList
  | .device => "dev_".toList

/-- A key's value type, with its range. -/
inductive PrefType where
  | bool
  | uint (min max : UInt64)
  | uintOneOf (allowed : List UInt64)
  | int (min max : Int64)
  | oneOf (allowed : List String)
  | url
  | text
  | timeZone
  | languageTag
  | ref (kind : RefKind)
  | weekday
  | cadence
  | timeWindow
  | dayWindow
  | dayOverride
deriving DecidableEq

inductive PrefValue where
  | bool (b : Bool)
  | uint (n : UInt64)
  | int (n : Int64)
  | text (s : String)
  | weekday (d : Weekday)
  | cadence (day : Weekday) (at_ : Time)
  | timeWindow (start end_ : Time)
  | dayWindow (wake sleep : Time)
  | noSchedule
deriving DecidableEq

open PrefValue

/-- A key's default. -/
inductive PrefDefault where
  | absent
  | bool (b : Bool)
  | uint (n : UInt64)
  | int (n : Int64)
  | text (s : String)
  | weekday (d : String)
  | cadence (d at_ : String)
  | uintByClass (desktop handheld : UInt64)
deriving DecidableEq

/-- What follows the prefix of a map-valued key. -/
inductive PrefEntries where
  | weekday
  | monthDay
  | date
deriving DecidableEq

/-- One key of the table. -/
structure PrefSpec where
  key : String
  ty : PrefType
  default : PrefDefault
  scope : PrefScope
  /-- Needed before the vault unlocks, so kept elsewhere. -/
  bootstrap : Bool
  /-- For a map-valued key, whose `key` is a prefix, the entries it holds. -/
  entries : Option PrefEntries
deriving DecidableEq

def key (key : String) (ty : PrefType) (default : PrefDefault) (scope : PrefScope) : PrefSpec :=
  ⟨key, ty, default, scope, false, none⟩

/-- A map of the vault whose entries each hold a `ty`. -/
def entries (label : String) (ty : PrefType) (entries : PrefEntries) : PrefSpec :=
  ⟨label, ty, .absent, .vault, false, some entries⟩

def bootstrap (key : String) (ty : PrefType) : PrefSpec :=
  ⟨key, ty, .absent, .device, true, none⟩

def enabled (kind : String) (on : Bool) (scope : PrefScope) : PrefSpec :=
  key kind .bool (.bool on) scope

def leadS : PrefType := .uint 0 4294967295

/-- An offset either way. -/
def offsetS : PrefType := .int (-86400) 86400

def preferenceKeys : List PrefSpec := [
  key "week_start" .weekday (.weekday "SU") .vault,
  key "home_timezone" .timeZone .absent .vault,
  key "time_format" (.oneOf ["locale", "h12", "h24"]) (.text "locale") .vaultOverridable,
  entries "day_schedule.weekday" .dayWindow .weekday,
  entries "day_schedule.month_day" .dayWindow .monthDay,
  entries "day_schedule.date" .dayOverride .date,
  key "stale_after_days" (.uint 0 365) (.uint 14) .vault,
  key "capture_default_stream" (.ref .stream) .absent .vault,
  key "review.cadence" .cadence (.cadence "FR" "16:00:00") .vault,
  key "planner.snap_s" (.uint 60 3600) (.uint 900) .vault,
  key "planner.default_task_duration_s" (.uint 60 86400) (.uint 1800) .vault,
  key "planner.min_gap_s" (.uint 0 3600) (.uint 0) .vault,
  key "views.upcoming.span_days" (.uintOneOf [7, 14, 30]) (.uint 7) .device,
  key "search.content_language" .languageTag .absent .vault,
  enabled "notifications.task_reminder.enabled" true .vaultOverridable,
  key "notifications.task_reminder.lead_s" leadS (.uint 0) .vaultOverridable,
  enabled "notifications.deadline.enabled" true .vaultOverridable,
  key "notifications.deadline.lead_s" leadS (.uint 3600) .vault,
  enabled "notifications.routine_due.enabled" true .vaultOverridable,
  enabled "notifications.block_start.enabled" true .vaultOverridable,
  key "notifications.block_start.lead_s" leadS (.uint 900) .vault,
  enabled "notifications.morning_brief.enabled" true .vaultOverridable,
  key "notifications.morning_brief.offset_s" offsetS (.int 900) .vault,
  enabled "notifications.triage_nudge.enabled" true .vaultOverridable,
  enabled "notifications.evening_plan.enabled" true .vaultOverridable,
  key "notifications.evening_plan.offset_s" offsetS (.int 7200) .vault,
  enabled "notifications.wind_down.enabled" true .vaultOverridable,
  key "notifications.wind_down.lead_s" (.uint 0 14400) (.uint 3600) .vault,
  enabled "notifications.focus_end.enabled" true .vaultOverridable,
  enabled "notifications.timezone_changed.enabled" false .vaultOverridable,
  enabled "notifications.weekly_review.enabled" true .vaultOverridable,
  enabled "notifications.sync_stalled.enabled" true .device,
  enabled "notifications.calendar_reconnect.enabled" true .vaultOverridable,
  enabled "notifications.shared_change.enabled" true .vaultOverridable,
  enabled "notifications.place_arrival.enabled" false .device,
  enabled "notifications.enabled" true .device,
  key "notifications.primary_device" (.ref .device) .absent .vault,
  key "notifications.quiet_hours.window" .timeWindow .absent .vaultOverridable,
  key "notifications.quiet_hours.policy" (.oneOf ["queue", "drop"]) (.text "queue")
    .vaultOverridable,
  bootstrap "sync.relay_url" .url,
  bootstrap "auth.oidc_issuer" .url,
  bootstrap "auth.oidc_client_id" .text,
  key "attachments.auto_fetch_on_cellular" .bool (.bool false) .device,
  key "attachments.cache_limit_bytes" (.uint 100000000 50000000000)
    (.uintByClass 1000000000 200000000) .device,
  key "keyboard.vim_mode" .bool (.bool false) .device]

/-! ### Texts -/

def isControl (c : Char) : Bool := c.toNat < 0x20 || (0x7F ≤ c.toNat && c.toNat ≤ 0x9F)

/-- An absolute URL of a scheme the client speaks. -/
def isUrl (s : Text) : Bool :=
  let rest := ["https://", "http://", "wss://", "ws://"].findSome? fun scheme =>
    if scheme.toList <+: s then some (s.drop scheme.toList.length) else none
  rest.any (fun r => r ≠ [] && r.head? ≠ some '/') &&
    !s.any fun c => Text.isSpace c || isControl c

def isLanguageTag (s : Text) : Bool :=
  match s.splitOn '-' with
  | [] => false
  | primary :: parts =>
    (2 ≤ Text.octets primary && Text.octets primary ≤ 8) && primary.all Char.isAlpha &&
      parts.all fun p => (1 ≤ Text.octets p && Text.octets p ≤ 8) && p.all Char.isAlphanum

/-- A letter or digit of the base-32 alphabet, which leaves out `I`, `L`, `O` and `U`. -/
def isCrockford (c : Char) : Bool :=
  c.isDigit || (c.isUpper && c ≠ 'I' && c ≠ 'L' && c ≠ 'O' && c ≠ 'U')

/-- The text of a reference to an entity of a kind: its prefix, and 128 bits in base 32, of whose
first letter two are padding. -/
def isRef (kind : RefKind) (s : Text) : Bool :=
  Text.octets s = 30 && kind.label <+: s && (s.drop 4).all isCrockford &&
    (s.drop 4).head?.any fun c => '0' ≤ c && c ≤ '7'

/-! ### Values -/

variable (L : Library)

/-- The text a civil time is kept as: hours, minutes and seconds. -/
def clock (t : Time) : Text :=
  Numeral.padded 2 t.hour ++ ':' :: Numeral.padded 2 t.minute ++ ':' ::
    Numeral.padded 2 (Iso.second t)

def civilText (t : Time) : Item := textItem (.ofList (clock t))

def mapGet (entries : List (Item × Item)) (key : String) : Option Item :=
  (entries.find? fun e => itemText e.1 = some key).map Prod.snd

def readCivil (v : Item) : Option Time := (itemText v).bind L.timeFrom

def readDayWindow (m : List (Item × Item)) : Option PrefValue := do
  let wake ← readCivil L (← mapGet m "wake")
  let sleep ← readCivil L (← mapGet m "sleep")
  return .dayWindow wake sleep

/-- Whether a day is one this build knows. -/
def isUnknown : Weekday → Bool
  | .unknown _ => true
  | _ => false

def readWeekday (v : Item) : Option Weekday :=
  ((itemText v).map Weekday.fromRaw).filter fun d => !isUnknown d

def asMap : Item → Option (List (Item × Item))
  | .map entries => some entries
  | _ => none

/-- A truth value. -/
def asBool : Item → Option Bool
  | .scalar (.bool b) => some b
  | _ => none

/-- A whole number. -/
def asInteger : Item → Option ℤ
  | .scalar (.integer n) => some n
  | _ => none

def PrefValue.encode : PrefValue → Item
  | .bool b => .scalar (.bool b)
  | .uint n => .scalar (.integer n.toNat)
  | .int n => .scalar (.integer n.toInt)
  | .text s => textItem s
  | .weekday d => textItem d.asStr
  | .cadence day at_ =>
    .map [(textItem "at", civilText at_), (textItem "day", textItem day.asStr)]
  | .timeWindow start end_ =>
    .map [(textItem "end", civilText end_), (textItem "start", civilText start)]
  | .dayWindow wake sleep =>
    .map [(textItem "wake", civilText wake), (textItem "sleep", civilText sleep)]
  | .noSchedule => .map [(textItem "none", .scalar (.bool true))]

def PrefType.fits : PrefType → PrefValue → Bool
  | .bool, .bool _ => true
  | .dayOverride, .noSchedule => true
  | .uint min max, .uint n => min ≤ n && n ≤ max
  | .uintOneOf allowed, .uint n => allowed.contains n
  | .int min max, .int n => min ≤ n && n ≤ max
  | .oneOf allowed, .text s => allowed.contains s
  | .url, .text s => isUrl s.toList
  | .text, .text s => s.toList ≠ [] && Text.trim s.toList = s.toList
  | .timeZone, .text s => (L.zoneOf s).isSome
  | .languageTag, .text s => isLanguageTag s.toList
  | .ref kind, .text s => isRef kind s.toList
  | .weekday, .weekday d => !isUnknown d
  | .cadence, .cadence day _ => !isUnknown day
  | .timeWindow, .timeWindow start end_ => start ≠ end_
  | .dayWindow, .dayWindow wake sleep => wake ≠ sleep
  | .dayOverride, .dayWindow wake sleep => wake ≠ sleep
  | _, _ => false

/-- A stored item read as a type, before its range is looked at. -/
def PrefType.read (ty : PrefType) (v : Item) : Option PrefValue :=
  match ty with
  | .bool => (asBool v).map .bool
  | .uint _ _ | .uintOneOf _ =>
    (asInteger v).bind fun n =>
      if 0 ≤ n ∧ n < 2 ^ 64 then some (.uint (.ofNat n.toNat)) else none
  | .int _ _ =>
    (asInteger v).bind fun n =>
      if -2 ^ 63 ≤ n ∧ n < 2 ^ 63 then some (.int (.ofInt n)) else none
  | .oneOf _ | .url | .text | .timeZone | .languageTag | .ref _ => (itemText v).map .text
  | .weekday => (readWeekday v).map .weekday
  | .cadence => do
    let m ← asMap v
    let day ← readWeekday (← mapGet m "day")
    let at_ ← readCivil L (← mapGet m "at")
    return .cadence day at_
  | .timeWindow => do
    let m ← asMap v
    let start ← readCivil L (← mapGet m "start")
    let end_ ← readCivil L (← mapGet m "end")
    return .timeWindow start end_
  | .dayWindow => do readDayWindow L (← asMap v)
  | .dayOverride => do
    let m ← asMap v
    match mapGet m "none" with
    | some none_ => if ← asBool none_ then return .noSchedule else none
    | none => readDayWindow L m

def PrefType.decode (ty : PrefType) (v : Item) : Option PrefValue :=
  (ty.read L v).filter (ty.fits L)

def PrefDefault.value (d : PrefDefault) (deviceClass : DeviceClass) : Option PrefValue :=
  match d with
  | .absent => none
  | .bool b => some (.bool b)
  | .uint n => some (.uint n)
  | .int n => some (.int n)
  | .text s => some (.text s)
  | .weekday d => some (.weekday (.fromRaw d))
  | .cadence d at_ => (L.timeFrom at_).map (.cadence (.fromRaw d))
  | .uintByClass desktop handheld =>
    some (.uint (match deviceClass with | .desktop => desktop | .handheld => handheld))

/-! ### Keys -/

/-- The two sides of the last dot. -/
def rsplitOnce (key : Text) : Option (Text × Text) :=
  (Text.splitOnce '.' key.reverse).map fun p => (p.2.reverse, p.1.reverse)

/-- Whether a key names an entry of the day schedule: a day of the week, a day of the month or a
date, spelled as it is written. -/
def isDayScheduleEntry (key : String) : Bool :=
  (rsplitOnce key.toList).any fun (label, tail) =>
    if String.ofList label = "day_schedule.weekday" then
      !isUnknown (.fromRaw (.ofList tail))
    else if String.ofList label = "day_schedule.month_day" then
      (Numeral.signed 128 tail).any fun n =>
        (n = -1 ∨ 1 ≤ n ∧ n ≤ 31) && Numeral.showInt n = tail
    else if String.ofList label = "day_schedule.date" then
      (L.dateFrom (.ofList tail)).any fun d => L.showDate d = .ofList tail
    else false

def prefSpec (key : String) : Option PrefSpec :=
  match preferenceKeys.find? fun s => s.entries.isNone && s.key = key with
  | some s => some s
  | none => do
    let (label, _) ← rsplitOnce key.toList
    if isDayScheduleEntry L key then
      preferenceKeys.find? fun s => s.entries.isSome && s.key = .ofList label
    else none

/-- Why a write is refused. -/
inductive ValidationError where
  | field (field constraint : String)
  | preferenceScope
deriving DecidableEq

/-- Check a local write before anything is stored. -/
def checkWrite (key : String) (value : Option PrefValue) (target : PrefTarget) :
    Except ValidationError PrefSpec :=
  match prefSpec L key with
  | none => .error (.field "preference.key" "unknown")
  | some spec =>
    if spec.bootstrap then .error (.field "preference.key" "bootstrap")
    else if !spec.scope.permits target then .error .preferenceScope
    else if value.any fun v => !spec.ty.fits L v then .error (.field "preference.value" "type")
    else .ok spec

structure ResolvedPref where
  key : String
  scope : PrefScope
  value : Option PrefValue
  source : PrefSource
  vaultSet : Bool
deriving DecidableEq

def resolve (spec : PrefSpec) (overlay vault : Option Item) (deviceClass : DeviceClass) :
    ResolvedPref :=
  let read (v : Option Item) := v.bind (spec.ty.decode L)
  let (value, source) := match spec.scope with
    | .device => (read overlay, PrefSource.overlay)
    | .vault => (read vault, PrefSource.vault)
    | .vaultOverridable =>
      match read overlay with
      | some v => (some v, .overlay)
      | none => (read vault, .vault)
  let (value, source) := match value with
    | some v => (some v, source)
    | none => (spec.default.value L deviceClass, .default)
  { key := spec.key
    scope := spec.scope
    value
    source
    vaultSet := decide (spec.scope ≠ .device) && vault.isSome }

/-! ### Stores -/

/-- What a device holds: its overlay, and the values of the vault's entity. -/
structure Stores where
  overlay : Table String Item
  vault : Table String Item

def Stores.write (s : Stores) (target : PrefTarget) (key : String) (v : PrefValue) : Stores :=
  match target with
  | .device => { s with overlay := s.overlay.upsert key v.encode }
  | .vault => { s with vault := s.vault.upsert key v.encode }

def Stores.resolve (s : Stores) (spec : PrefSpec) (key : String) (deviceClass : DeviceClass) :
    ResolvedPref :=
  Prefs.resolve L spec (s.overlay.find key) (s.vault.find key) deviceClass

/-- Where a value written to a target is read from. -/
def PrefTarget.source : PrefTarget → PrefSource
  | .vault => .vault
  | .device => .overlay

/-! ### Civil times to the second -/

/-- A civil time without its fraction of a second. -/
def wholeSeconds (t : Time) : Time := ⟨t.ns / 10 ^ 9 * 10 ^ 9, by have := t.lt; omega⟩

theorem wholeSeconds_eq_self {t : Time} : wholeSeconds t = t ↔ Iso.subsec t = 0 := by
  rcases t with ⟨ns, h⟩
  rw [wholeSeconds, Time.mk.injEq, Iso.subsec]
  change ns / 10 ^ 9 * 10 ^ 9 = ns ↔ ns % 10 ^ 9 = 0
  omega

/-- What the text of a civil time is read back as: `%H:%M:%S` leaves the fraction out. -/
def ReadsClock : Prop := ∀ t, L.timeFrom (.ofList (clock t)) = some (wholeSeconds t)

/-- A value without the fractions of its civil times. -/
def PrefValue.whole : PrefValue → PrefValue
  | .cadence day at_ => .cadence day (wholeSeconds at_)
  | .timeWindow start end_ => .timeWindow (wholeSeconds start) (wholeSeconds end_)
  | .dayWindow wake sleep => .dayWindow (wholeSeconds wake) (wholeSeconds sleep)
  | v => v

def PrefValue.times : PrefValue → List Time
  | .cadence _ at_ => [at_]
  | .timeWindow start end_ => [start, end_]
  | .dayWindow wake sleep => [wake, sleep]
  | _ => []

def PrefValue.OnSeconds (v : PrefValue) : Prop := ∀ t ∈ v.times, Iso.subsec t = 0

theorem PrefValue.whole_eq_self {v : PrefValue} : v.whole = v ↔ v.OnSeconds := by
  cases v <;> simp [whole, PrefValue.OnSeconds, times, wholeSeconds_eq_self]

/-! ### What is written reads back -/

variable {L}

theorem readCivil_civilText (hL : ReadsClock L) (t : Time) :
    readCivil L (civilText t) = some (wholeSeconds t) := by
  rw [readCivil, civilText, itemText_textItem, Option.bind_some, hL]

theorem Weekday.fromRaw_asStr {d : Weekday} (h : isUnknown d = false) :
    Weekday.fromRaw d.asStr = d := by
  cases d with
  | unknown => exact absurd h Bool.noConfusion
  | _ => rfl

theorem readWeekday_textItem {d : Weekday} (h : isUnknown d = false) :
    readWeekday (textItem d.asStr) = some d := by
  rw [readWeekday, itemText_textItem, Option.map_some, Weekday.fromRaw_asStr h,
    Option.filter_some_pos]
  rw [h]; rfl

theorem readDayWindow_encode (hL : ReadsClock L) (wake sleep : Time) :
    readDayWindow L [(textItem "wake", civilText wake), (textItem "sleep", civilText sleep)] =
      some (.dayWindow (wholeSeconds wake) (wholeSeconds sleep)) := by
  simp [readDayWindow, mapGet, readCivil_civilText hL]

section

variable (hL : ReadsClock L) {ty : PrefType} {v : PrefValue} (h : ty.fits L v)
include hL h

theorem PrefType.read_encode : ty.read L v.encode = some v.whole := by
  have hno (b : Bool) : (!b) = true → b = false := by cases b <;> simp
  cases ty with
  | bool => cases v <;> first | rfl | exact absurd h Bool.noConfusion
  | uint | uintOneOf =>
    cases v with
    | uint n =>
      have hn : 0 ≤ (n.toNat : ℤ) ∧ (n.toNat : ℤ) < 2 ^ 64 := ⟨by omega, by
        exact_mod_cast n.toNat_lt⟩
      rw [PrefType.read, PrefValue.encode, asInteger, Option.bind_some, if_pos hn,
        Int.toNat_natCast, UInt64.ofNat_toNat, whole]
      all_goals exact nofun
    | _ => exact absurd h Bool.noConfusion
  | int =>
    cases v with
    | int n =>
      rw [PrefType.read, PrefValue.encode, asInteger, Option.bind_some,
        if_pos ⟨n.le_toInt, n.toInt_lt⟩, Int64.ofInt_toInt, whole]
      all_goals exact nofun
    | _ => exact absurd h Bool.noConfusion
  | oneOf | url | text | timeZone | languageTag | ref =>
    cases v <;> first | rfl | exact absurd h Bool.noConfusion
  | weekday =>
    cases v with
    | weekday d => rw [PrefType.read, PrefValue.encode, readWeekday_textItem (hno _ h)]; rfl
    | _ => exact absurd h Bool.noConfusion
  | cadence =>
    cases v with
    | cadence day at_ =>
      simp [PrefType.read, PrefValue.encode, asMap, mapGet, readWeekday_textItem (hno _ h),
        readCivil_civilText hL, whole]
    | _ => exact absurd h Bool.noConfusion
  | timeWindow =>
    cases v with
    | timeWindow start end_ =>
      simp [PrefType.read, PrefValue.encode, asMap, mapGet, readCivil_civilText hL,
        whole]
    | _ => exact absurd h Bool.noConfusion
  | dayWindow =>
    cases v with
    | dayWindow wake sleep => exact readDayWindow_encode hL wake sleep
    | _ => exact absurd h Bool.noConfusion
  | dayOverride =>
    cases v with
    | noSchedule => rfl
    | dayWindow wake sleep =>
      simp [PrefType.read, PrefValue.encode, asMap, mapGet, readDayWindow_encode hL,
        whole]
    | _ => exact absurd h Bool.noConfusion

/-- **What is read back is the value with its civil times to the second**, where that still fits. -/
theorem PrefType.decode_encode :
    ty.decode L v.encode = if ty.fits L v.whole then some v.whole else none := by
  rw [PrefType.decode, PrefType.read_encode hL h, Option.filter_some]

theorem PrefType.decode_encode_eq_some_iff : ty.decode L v.encode = some v ↔ v.OnSeconds := by
  rw [PrefType.decode_encode hL h, ← whole_eq_self]
  constructor
  · intro hv
    split at hv
    · exact Option.some.inj hv
    · exact absurd hv nofun
  · intro hv
    rw [hv, if_pos h]

end

section Resolved

variable {k : String} {v : PrefValue} {spec : PrefSpec} {target : PrefTarget}

theorem of_checkWrite (h : checkWrite L k (some v) target = .ok spec) :
    prefSpec L k = some spec ∧ spec.bootstrap = false ∧ spec.scope.permits target ∧
      spec.ty.fits L v := by
  rw [checkWrite] at h
  split at h
  · exact absurd h nofun
  · next spec' hspec =>
    split_ifs at h with hboot hscope hfits
    injection h with h
    subst h
    refine ⟨hspec, by simpa using hboot, by simpa using hscope, ?_⟩
    simpa using hfits

/-- Whether a device's overlay holds a value that is read before the vault's. -/
def Stores.overlaid (L : Library) (s : Stores) (spec : PrefSpec) (k : String) : Bool :=
  spec.scope = .vaultOverridable && ((s.overlay.find k).bind (spec.ty.decode L)).isSome

theorem Stores.resolve_write {s : Stores} (deviceClass : DeviceClass)
    (hscope : spec.scope.permits target)
    (hover : target = .vault → s.overlaid L spec k = false) :
    let r := (s.write target k v).resolve L spec k deviceClass
    (∀ w, spec.ty.decode L v.encode = some w → r.value = some w ∧ r.source = target.source) ∧
      (spec.ty.decode L v.encode = none → r.source ≠ target.source) := by
  cases target with
  | device =>
    cases hs : spec.scope with
    | vault => rw [hs] at hscope; exact absurd hscope Bool.noConfusion
    | device =>
      cases hw : spec.ty.decode L v.encode with
      | _ => simp [Stores.write, Stores.resolve, Prefs.resolve, hs, hw, PrefTarget.source]
    | vaultOverridable =>
      cases hv : (s.vault.find k).bind (spec.ty.decode L) with
      | _ =>
        cases hw : spec.ty.decode L v.encode with
        | _ => simp [Stores.write, Stores.resolve, Prefs.resolve, hs, hw, hv, PrefTarget.source]
  | vault =>
    cases hs : spec.scope with
    | device => rw [hs] at hscope; exact absurd hscope Bool.noConfusion
    | vault =>
      cases hw : spec.ty.decode L v.encode with
      | _ => simp [Stores.write, Stores.resolve, Prefs.resolve, hs, hw, PrefTarget.source]
    | vaultOverridable =>
      have hnone : (s.overlay.find k).bind (spec.ty.decode L) = none := by
        simpa [Stores.overlaid, hs] using hover rfl
      cases hw : spec.ty.decode L v.encode with
      | _ => simp [Stores.write, Stores.resolve, Prefs.resolve, hs, hw, hnone, PrefTarget.source]

/-- **An accepted preference reads back, from the store it was written to, exactly where its civil
times fall on whole seconds.** -/
theorem resolve_write_iff (hL : ReadsClock L) (h : checkWrite L k (some v) target = .ok spec)
    (s : Stores) (hover : target = .vault → s.overlaid L spec k = false)
    (deviceClass : DeviceClass) :
    ((s.write target k v).resolve L spec k deviceClass).value = some v ∧
        ((s.write target k v).resolve L spec k deviceClass).source = target.source ↔
      v.OnSeconds := by
  obtain ⟨-, -, hscope, hfits⟩ := of_checkWrite h
  rw [← PrefType.decode_encode_eq_some_iff hL hfits]
  cases hw : spec.ty.decode L v.encode with
  | none =>
    have hsource := (Stores.resolve_write deviceClass hscope hover).2 hw
    exact ⟨fun hr => absurd hr.2 hsource, nofun⟩
  | some w =>
    obtain ⟨hvalue, hsource⟩ := (Stores.resolve_write deviceClass hscope hover).1 w hw
    rw [hvalue, and_iff_left hsource]

end Resolved

/-! ### A library that reads a clock -/

theorem isoLibrary_readsClock : ReadsClock isoLibrary := by
  intro t
  have hns : (wholeSeconds t).ns = t.ns / 10 ^ 9 * 10 ^ 9 := rfl
  have hh : t.ns / 10 ^ 9 * 10 ^ 9 / (3600 * 10 ^ 9) = t.ns / (3600 * 10 ^ 9) := by omega
  have hm : t.ns / 10 ^ 9 * 10 ^ 9 / (60 * 10 ^ 9) = t.ns / (60 * 10 ^ 9) := by omega
  have hclock : clock t = Iso.showTime (wholeSeconds t) := by
    rw [Iso.showTime, Iso.subsec, Iso.second, Time.hour, Time.minute, hns, Nat.mul_mod_left,
      Nat.mul_div_cancel _ (by decide), hh, hm, Iso.showFraction, if_pos rfl, List.append_nil]
    rfl
  rw [timeFrom_eq, String.toList_ofList, hclock, Iso.whole_showTime]

/-- A device that holds nothing. -/
def Stores.empty : Stores := ⟨∅, ∅⟩

/-- Fridays at four in the afternoon, and half a second. -/
def fridayCadence : PrefValue := .cadence .fr ⟨57600 * 10 ^ 9 + 500000000, by decide⟩

/-- A second of the morning, from its first half to its last. -/
def shortWindow : PrefValue :=
  .timeWindow ⟨32400 * 10 ^ 9 + 200000000, by decide⟩ ⟨32400 * 10 ^ 9 + 700000000, by decide⟩

/-- Two writes that are accepted: one reads back as another value, one as the default. -/
theorem resolve_write_fraction :
    (∃ spec, checkWrite isoLibrary "review.cadence" (some fridayCadence) .vault =
        .ok spec ∧
      let r := (Stores.empty.write .vault "review.cadence" fridayCadence).resolve
        isoLibrary spec "review.cadence" .desktop
      r.value = some (.cadence .fr ⟨57600 * 10 ^ 9, by decide⟩) ∧ r.source = .vault) ∧
    ∃ spec, checkWrite isoLibrary "notifications.quiet_hours.window" (some shortWindow)
        .device = .ok spec ∧
      let r := (Stores.empty.write .device "notifications.quiet_hours.window" shortWindow).resolve
        isoLibrary spec "notifications.quiet_hours.window" .desktop
      r.value = none ∧ r.source = .default := by
  constructor
  · refine ⟨key "review.cadence" .cadence (.cadence "FR" "16:00:00") .vault, rfl, ?_⟩
    exact (Stores.resolve_write .desktop rfl fun _ => rfl).1 _
      (PrefType.decode_encode isoLibrary_readsClock rfl)
  · refine ⟨key "notifications.quiet_hours.window" .timeWindow .absent .vaultOverridable, rfl, ?_⟩
    have hw : PrefType.timeWindow.decode isoLibrary shortWindow.encode = none :=
      PrefType.decode_encode isoLibrary_readsClock rfl
    have hread : ((Stores.empty.write .device "notifications.quiet_hours.window"
        shortWindow).overlay.find "notifications.quiet_hours.window") = some shortWindow.encode :=
      Table.find_upsert_self _ _ _
    have hvault : ((Stores.empty.write .device "notifications.quiet_hours.window"
        shortWindow).vault.find "notifications.quiet_hours.window") = none := rfl
    rw [Stores.resolve, hread, hvault]
    simp only [Prefs.resolve, key, Option.bind_some, hw, Option.bind_none]
    exact ⟨rfl, trivial⟩

theorem resolve_write_dayWindow :
    let v : PrefValue := .dayWindow ⟨25200 * 10 ^ 9, by decide⟩ ⟨82800 * 10 ^ 9, by decide⟩
    ∃ spec, checkWrite isoLibrary "day_schedule.weekday.MO" (some v) .vault = .ok spec ∧
      let r := (Stores.empty.write .vault "day_schedule.weekday.MO" v).resolve
        isoLibrary spec "day_schedule.weekday.MO" .handheld
      r.value = some v ∧ r.source = .vault := by
  intro v
  have h : checkWrite isoLibrary "day_schedule.weekday.MO" (some v) .vault =
      .ok (entries "day_schedule.weekday" .dayWindow .weekday) := rfl
  refine ⟨_, h, (resolve_write_iff isoLibrary_readsClock h .empty (fun _ => rfl) .handheld).2 ?_⟩
  simp [v, PrefValue.OnSeconds, times, Iso.subsec]

end Prefs

end Sunrise
