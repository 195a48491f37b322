import Sunrise.Cbor.Record

/-!
# Times in their columns

A time is one of four kinds, or of a kind this build does not know, and the table keeps it
in four columns: a number to order rows by, the name of the kind, and two texts. The number
is not enough for a civil time, which has no instant until a zone is chosen; its text is
what it is read back from. A kind this build does not know is kept as the bytes of the rest
of its value, in hexadecimal.

* `SunriseTime`, `timeToParts`, `timeFromParts` — times, and the columns they are kept in.
* `timeFromParts_timeToParts` — **a time to the millisecond is read back from its columns.**
-/

namespace Sunrise

namespace Rows

/-! ### Instants -/

/-- The first nanosecond of the calendar, counted from the epoch. -/
def minNanosecond : ℤ := -377705023201 * 10 ^ 9

/-- The last nanosecond of the calendar. -/
def maxNanosecond : ℤ := 253402207200 * 10 ^ 9 + 999999999

/-- An instant of the calendar, in nanoseconds from the epoch. -/
structure Timestamp where
  ns : ℤ
  inRange : minNanosecond ≤ ns ∧ ns ≤ maxNanosecond
deriving DecidableEq

instance : LinearOrder Timestamp :=
  LinearOrder.lift' Timestamp.ns fun a b h => by
    cases a
    cases b
    cases h
    rfl

def Timestamp.unixEpoch : Timestamp := ⟨0, by decide⟩

/-- The milliseconds from the epoch, without what is left of one. -/
def Timestamp.asMillisecond (t : Timestamp) : ℤ := t.ns.tdiv (10 ^ 6)

/-- The instant so many milliseconds from the epoch, if the calendar has it. -/
def Timestamp.fromMillisecond (ms : ℤ) : Option Timestamp :=
  if h : minNanosecond ≤ ms * 10 ^ 6 ∧ ms * 10 ^ 6 ≤ maxNanosecond then some ⟨ms * 10 ^ 6, h⟩
  else none

/-- An instant on a whole millisecond. -/
def Timestamp.ToMillisecond (t : Timestamp) : Prop := (10 ^ 6 : ℤ) ∣ t.ns

instance (t : Timestamp) : Decidable t.ToMillisecond :=
  inferInstanceAs (Decidable ((10 ^ 6 : ℤ) ∣ t.ns))

theorem Timestamp.fromMillisecond_asMillisecond {t : Timestamp} (h : t.ToMillisecond) :
    fromMillisecond t.asMillisecond = some t := by
  have hns : t.asMillisecond * 10 ^ 6 = t.ns := Int.tdiv_mul_cancel h
  have hin : minNanosecond ≤ t.asMillisecond * 10 ^ 6 ∧
      t.asMillisecond * 10 ^ 6 ≤ maxNanosecond := hns.symm ▸ t.inRange
  unfold fromMillisecond
  rw [dif_pos hin]
  cases t
  exact congrArg some (Timestamp.mk.injEq .. ▸ hns)

/-- The instant so many milliseconds from the epoch, and the epoch for what the calendar
does not have. -/
def msToTs (ms : ℤ) : Timestamp := (Timestamp.fromMillisecond ms).getD .unixEpoch

theorem msToTs_asMillisecond {t : Timestamp} (h : t.ToMillisecond) :
    msToTs t.asMillisecond = t := by
  rw [msToTs, Timestamp.fromMillisecond_asMillisecond h]
  rfl

theorem Timestamp.asMillisecond_nonneg {t : Timestamp} (h : 0 ≤ t.ns) : 0 ≤ t.asMillisecond :=
  Int.tdiv_nonneg h (by decide)

/-! ### Times -/

/-- The calendar library. -/
structure Jiff where
  Date : Type
  Time : Type
  DateTime : Type
  Zone : Type
  /-- The zone of a name, where the database has one. -/
  zoneOf : String → Option Zone
  utc : Zone
  timestampIn : Zone → DateTime → Option Timestamp
  dateTimeIn : Zone → Timestamp → DateTime
  midnight : Date → DateTime
  dateOf : DateTime → Date
  year : Date → ℤ
  showDate : Date → String
  showTime : Time → String
  showDateTime : DateTime → String
  dateFrom : String → Option Date
  timeFrom : String → Option Time
  dateTimeFrom : String → Option DateTime
  timestampFrom : String → Option Timestamp

/-- What the library documents: the spelling of a date, of a time of day and of both is read
back as what was spelled. -/
structure Jiff.Spells (J : Jiff) : Prop where
  date : ∀ d, J.dateFrom (J.showDate d) = some d
  time : ∀ t, J.timeFrom (J.showTime t) = some t
  dateTime : ∀ t, J.dateTimeFrom (J.showDateTime t) = some t

/-- A time, which knows what kind of time it is. -/
inductive SunriseTime (J : Jiff) where
  | instant (at_ : Timestamp)
  | zoned (civil : J.DateTime) (tz : String)
  | floating (civil : J.DateTime)
  | allDay (date : J.Date)
  /-- A kind this build does not know, with the other fields of the value. -/
  | unknown (kind : String) (raw : Unknowns [])

open SunriseTime

/-- The names of the kinds this build knows. -/
def knownKinds : List String := ["instant", "zoned", "floating", "all_day"]

variable {J : Jiff}

def SunriseTime.kindStr : SunriseTime J → String
  | .instant _ => "instant"
  | .zoned _ _ => "zoned"
  | .floating _ => "floating"
  | .allDay _ => "all_day"
  | .unknown kind _ => kind

/-! ### The number rows are ordered by -/

/-- Where a value that cannot be placed is put. -/
def unanchoredMs : ℤ := 253370764800000

/-- The instant an unknown kind carries under `at`. -/
def unknownAnchor (J : Jiff) (raw : Unknowns []) : Option Timestamp :=
  ((raw.table.find "at").bind itemText).bind J.timestampFrom

/-- The instant of a time, its own zone or else `tz` deciding a civil one. -/
def SunriseTime.toInstant (tz : J.Zone) : SunriseTime J → Option Timestamp
  | .unknown _ raw => unknownAnchor J raw
  | .instant at_ => some at_
  | .zoned civil name => J.timestampIn ((J.zoneOf name).getD tz) civil
  | .floating civil => J.timestampIn tz civil
  | .allDay date => J.timestampIn tz (J.midnight date)

/-- The end of the calendar nearer to a date with no instant. -/
def edgeMs (date : J.Date) : ℤ := (if 0 < J.year date then maxNanosecond else minNanosecond).tdiv
  (10 ^ 6)

def SunriseTime.indexMs : SunriseTime J → ℤ
  | .instant at_ => at_.asMillisecond
  | .unknown _ raw => (unknownAnchor J raw).elim unanchoredMs Timestamp.asMillisecond
  | t@(.zoned civil _) | t@(.floating civil) =>
    (t.toInstant J.utc).elim (edgeMs (J.dateOf civil)) Timestamp.asMillisecond
  | t@(.allDay date) => (t.toInstant J.utc).elim (edgeMs date) Timestamp.asMillisecond

/-! ### The text of an unknown kind -/

def hexBytes (bytes : Bytes) : List Char :=
  bytes.flatMap fun b => [Nat.digitChar (b / 16), Nat.digitChar (b % 16)]

/-- The number of a digit. -/
def nibble (c : Char) : Option ℕ :=
  if '0' ≤ c ∧ c ≤ '9' then some (c.toNat - '0'.toNat)
  else if 'a' ≤ c ∧ c ≤ 'f' then some (c.toNat - 'a'.toNat + 10)
  else none

/-- The bytes of two digits each. -/
def bytesOfHex : List Char → Option Bytes
  | [] => some []
  | [_] => none
  | a :: b :: cs =>
    (nibble a).bind fun hi => (nibble b).bind fun lo => (bytesOfHex cs).map ((hi * 16 + lo) :: ·)

theorem nibble_digitChar {n : ℕ} (h : n < 16) : nibble (Nat.digitChar n) = some n := by
  have hall : ∀ n < 16, nibble (Nat.digitChar n) = some n := by decide
  exact hall n h

theorem bytesOfHex_hexBytes {bytes : Bytes} (h : ∀ b ∈ bytes, b < 256) :
    bytesOfHex (hexBytes bytes) = some bytes := by
  induction bytes with
  | nil => rfl
  | cons b bytes ih =>
    have hb : b < 256 := h b List.mem_cons_self
    have hhi : nibble (Nat.digitChar (b / 16)) = some (b / 16) := nibble_digitChar (by omega)
    have hlo : nibble (Nat.digitChar (b % 16)) = some (b % 16) := nibble_digitChar (by omega)
    have hsum : b / 16 * 16 + b % 16 = b := by omega
    show bytesOfHex (_ :: _ :: hexBytes bytes) = _
    rw [bytesOfHex, hhi, Option.bind_some, hlo, Option.bind_some,
      ih fun c hc => h c (List.mem_cons_of_mem _ hc), hsum]
    rfl

variable (cbor : Cbor.Codec)

/-- The text the other fields of an unknown kind are kept as. -/
def encodeRawSidecar (raw : Unknowns []) : String :=
  String.ofList ("cbor:".toList ++ hexBytes (raw.bytes cbor))

/-- The other fields of an unknown kind, from the text they are kept as. -/
def decodeRawSidecar (s : String) : Option (Unknowns []) :=
  if "cbor:".toList <+: s.toList then
    (bytesOfHex (s.toList.drop 5)).bind fun bytes =>
      if bytes = [] then some .empty else (decodeLenient cbor bytes).bind readUnknowns
  else none

variable {cbor}

theorem decodeRawSidecar_encodeRawSidecar {raw : Unknowns []} (hc : cbor.Lawful)
    (hb : cbor.WritesBytes) (h : raw.Decoded cbor) :
    decodeRawSidecar cbor (encodeRawSidecar cbor raw) = some raw := by
  have hreg := (@shuffle_canonicalize cbor _).regular h.regular
  have hlt : ∀ b ∈ raw.bytes cbor, b < 256 := hb _ hreg
  have hne : raw.bytes cbor ≠ [] := hc.write_ne_nil hreg
  have htext : (encodeRawSidecar cbor raw).toList = "cbor:".toList ++ hexBytes (raw.bytes cbor) :=
    String.toList_ofList
  have hdrop : ("cbor:".toList ++ hexBytes (raw.bytes cbor)).drop 5 = hexBytes (raw.bytes cbor) :=
    rfl
  unfold decodeRawSidecar
  rw [htext, if_pos (List.prefix_append ..), hdrop, bytesOfHex_hexBytes hlt, Option.bind_some,
    if_neg hne, h.read_bytes hc]

/-! ### The columns -/

structure TimeColumns where
  ms : Option ℤ
  kind : Option String
  /-- Its zone, or the other fields of an unknown kind. -/
  tz : Option String
  civil : Option String
deriving DecidableEq

variable (cbor)

def SunriseTime.tzPart : SunriseTime J → Option String
  | .zoned _ tz => some tz
  | .unknown _ raw => some (encodeRawSidecar cbor raw)
  | _ => none

def SunriseTime.civilPart : SunriseTime J → Option String
  | .zoned civil _ | .floating civil => some (J.showDateTime civil)
  | .allDay date => some (J.showDate date)
  | _ => none

def timeToParts (t : Option (SunriseTime J)) : TimeColumns where
  ms := t.map indexMs
  kind := t.map kindStr
  tz := t.bind (tzPart cbor)
  civil := t.bind civilPart

variable (J) in
/-- The time whose columns these are. -/
def fromParts (indexMs : ℤ) (kind : String) (tz civil : Option String) : SunriseTime J :=
  let at_ := msToTs indexMs
  let utcCivil := J.dateTimeIn J.utc at_
  let storedCivil := civil.bind J.dateTimeFrom
  if kind = "zoned" then
    let name := tz.getD "UTC"
    -- a row older than the civil column is read in its own zone
    .zoned (storedCivil.getD (J.dateTimeIn ((J.zoneOf name).getD J.utc) at_)) name
  else if kind = "floating" then .floating (storedCivil.getD utcCivil)
  else if kind = "all_day" then
    .allDay (((civil.bind J.dateFrom).or (storedCivil.map J.dateOf)).getD (J.dateOf utcCivil))
  else if kind = "instant" then .instant at_
  else
    match tz.bind (decodeRawSidecar cbor) with
    | some raw => .unknown kind raw
    -- nothing to rebuild the value from
    | none => .instant at_

variable (J) in
def timeFromParts (c : TimeColumns) : Option (SunriseTime J) :=
  c.ms.map fun ms => fromParts J cbor ms (c.kind.getD "instant") c.tz c.civil

/-- A time as an op carries it: an instant lies on a whole millisecond, and an unknown kind
is none this build knows and came out of a decoder. -/
def SunriseTime.Carried : SunriseTime J → Prop
  | .instant at_ => at_.ToMillisecond
  | .unknown kind raw => kind ∉ knownKinds ∧ raw.Decoded cbor
  | _ => True

variable {cbor}

/-- **A time is read back from its columns**, whatever its kind. -/
theorem timeFromParts_timeToParts {o : Option (SunriseTime J)} (hc : cbor.Lawful)
    (hb : cbor.WritesBytes) (hJ : J.Spells) (ho : ∀ t, o = some t → t.Carried cbor) :
    timeFromParts J cbor (timeToParts cbor o) = o := by
  cases o with
  | none => rfl
  | some t =>
    have ht := ho t rfl
    refine congrArg some ?_
    cases t with
    | instant at_ => exact congrArg instant (msToTs_asMillisecond ht)
    | zoned civil tz =>
      show zoned (((J.dateTimeFrom (J.showDateTime civil))).getD _) tz = _
      rw [hJ.dateTime, Option.getD_some]
    | floating civil =>
      show floating (((J.dateTimeFrom (J.showDateTime civil))).getD _) = _
      rw [hJ.dateTime, Option.getD_some]
    | allDay date =>
      show allDay (((J.dateFrom (J.showDate date)).or _).getD _) = _
      rw [hJ.date, Option.some_or, Option.getD_some]
    | unknown kind raw =>
      obtain ⟨hkind, hraw⟩ := ht
      have hne : kind ≠ "zoned" ∧ kind ≠ "floating" ∧ kind ≠ "all_day" ∧ kind ≠ "instant" := by
        refine ⟨?_, ?_, ?_, ?_⟩ <;> intro h <;> exact hkind (h ▸ by decide)
      show fromParts J cbor _ kind (some (encodeRawSidecar cbor raw)) none = _
      unfold fromParts
      simp only [if_neg hne.1, if_neg hne.2.1, if_neg hne.2.2.1, if_neg hne.2.2.2,
        Option.bind_some, decodeRawSidecar_encodeRawSidecar hc hb hraw]

end Rows

end Sunrise
