import Sunrise.Ical.Document
import Sunrise.Merge.Fold

/-!
# Blocks as events

A block is a range of time with a title, and an event of a calendar is what it is exported
as. The four kinds of time of the two sides correspond one to one. An import refuses an event
whose end is not after its start where that order is the same for every reader, and leaves
the others to the vault, which judges them in the reader's zone.

* `validateRange` — the check a block's range passes in a zone.
* `kept_iff` — which lists of blocks are kept.
-/

namespace Sunrise

namespace Ical

open Text

/-- A time of the domain. -/
inductive SunriseTime (J : Jiff) where
  | instant (at_ : J.Timestamp)
  | zoned (civil : J.DateTime) (tz : Text)
  | floating (civil : J.DateTime)
  | allDay (date : J.Date)
  /-- A kind this build does not know, with the instant it carries. -/
  | unknown (kind : Text) (anchor : Option J.Timestamp)

variable {J : Jiff}

namespace SunriseTime

def kindStr : SunriseTime J → Text
  | instant _ => "instant".toList
  | zoned _ _ => "zoned".toList
  | floating _ => "floating".toList
  | allDay _ => "all_day".toList
  | unknown kind _ => kind

/-- Whether a time is of a kind this build knows. -/
def known : SunriseTime J → Bool
  | unknown _ _ => false
  | _ => true

/-- The instant a time is at for a reader in a zone. A zone the database does not have is
read as the reader's. -/
def toInstant (tz : J.Zone) : SunriseTime J → Except Text J.Timestamp
  | instant at_ => .ok at_
  | zoned civil name => J.timestampIn ((J.zoneOf name).getD tz) civil
  | floating civil => J.timestampIn tz civil
  | allDay date => J.timestampIn tz (J.midnight date)
  | unknown kind anchor => match anchor with
    | some at_ => .ok at_
    | none => .error kind

def resolveIn (tz : J.Zone) (t : SunriseTime J) : Option J.Timestamp := (t.toInstant tz).toOption

def instantOrLast (tz : J.Zone) (t : SunriseTime J) : J.Timestamp :=
  (t.resolveIn tz).getD J.unanchored

def display : SunriseTime J → Text
  | instant at_ => J.showTimestamp at_
  | zoned civil tz => J.showDateTime civil ++ '[' :: tz ++ [']']
  | floating civil => J.showDateTime civil
  | allDay date => J.showDate date
  | unknown kind anchor => match anchor with
    | some at_ => J.showTimestamp at_ ++ "[unknown kind ".toList ++ kind ++ [']']
    | none => "[unknown kind ".toList ++ kind ++ [']']

end SunriseTime

def inverted (tz : J.Zone) (startsAt endsAt : SunriseTime J) : Bool :=
  match endsAt.resolveIn tz, startsAt.resolveIn tz with
  | some e, some s => J.notAfter e s
  | _, _ => false

/-- Why a value is refused. -/
structure FieldError where
  field : Text
  constraint : Text
deriving DecidableEq, Repr

def validateRange (tz : J.Zone) (startsAt endsAt : SunriseTime J) : Except FieldError Unit :=
  if inverted tz startsAt endsAt then
    .error ⟨"block.ends_at".toList, "after_starts_at".toList⟩
  else .ok ()

/-- A block, as far as an export reads it. -/
structure Block (J : Jiff) where
  id : EntityRef
  startsAt : SunriseTime J
  endsAt : SunriseTime J
  title : Option Text

/-- A block to be written. -/
structure BlockDraft (J : Jiff) where
  stream : Option EntityRef
  startsAt : SunriseTime J
  endsAt : SunriseTime J
  title : Option Text
  titleTrackTask : Bool
  tasks : List EntityRef

/-- An event read as a block. -/
structure MappedEvent (J : Jiff) where
  uid : Text
  draft : BlockDraft J
  notices : List ICalNotice

/-! ### Identifiers -/

/-- The letters of an identifier. -/
def alphabet : Text := "0123456789ABCDEFGHJKMNPQRSTVWXYZ".toList

/-- Sixteen bytes as twenty-six letters, the top ones first. -/
def encodeBytes (payload : ℕ) : Text :=
  (List.range 26).map fun i => alphabet.getD (payload / 2 ^ (125 - 5 * i) % 32) '0'

/-- What the identifiers of a kind begin with. -/
def idPrefix : EntityKind → Text
  | .task => "tsk_".toList
  | .stream => "str_".toList
  | .context => "ctx_".toList
  | .routine => "rtn_".toList
  | .block => "blk_".toList
  | .attachment => "att_".toList
  | .preferences => "prf_".toList
  | .savedView => "svw_".toList

/-- The host of the identifiers an export writes. -/
def sunriseUidHost : Text := "sunrise.invalid".toList

/-- The identifier a block is exported under. -/
def blockUid (block : EntityRef) : Text :=
  idPrefix block.kind ++ encodeBytes block.id ++ '@' :: sunriseUidHost

/-! ### A block as an event -/

/-- A time of an event in the domain. -/
def toSunrise : ICalTime J → SunriseTime J
  | .utc at_ => .instant at_
  | .zoned civil tz => .zoned civil tz
  | .floating civil => .floating civil
  | .date d => .allDay d

/-- A time of the domain in an event. A kind that is not known goes out as the instant it
sorts at. -/
def fromSunrise : SunriseTime J → ICalTime J
  | .instant at_ => .utc at_
  | .zoned civil tz => .zoned civil tz
  | .floating civil => .floating civil
  | .allDay d => .date d
  | t@(.unknown _ _) => .utc (t.instantOrLast J.utc)

/-- The event a block is exported as, under the title its readers see. -/
def blockToEvent (block : Block J) (title : Option Text) : ICalEvent J where
  uid := blockUid block.id
  summary := title
  dtstart := some (fromSunrise block.startsAt)
  dtend := some (fromSunrise block.endsAt)

/-! ### An event as a block -/

/-- A time a length of time later, of the same kind. A date stays one where it comes to a
midnight. -/
def addSpan (span : J.Span) : ICalTime J → Except Text (ICalTime J)
  | .utc at_ => (J.timestampAdd at_ span).map .utc
  | .zoned civil tz => (J.dateTimeAdd civil span).map (.zoned · tz)
  | .floating civil => (J.dateTimeAdd civil span).map .floating
  | .date d => (J.dateTimeAdd (J.midnight d) span).map fun moved =>
    if J.isMidnight moved then .date (J.dateOf moved) else .floating moved

/-- The report of an event with both ends. -/
def durationIgnored : Text :=
  "DTEND and DURATION were both present; DURATION was ignored".toList

/-- Why an event of no length is refused. -/
def zeroLength : Text :=
  "no DTEND and no DURATION: RFC 5545 gives this event zero length, which is not a time block".toList

def resolveEnd (start : ICalTime J) (ev : ICalEvent J) :
    Except Text (ICalTime J × List ICalNotice) :=
  match ev.dtend with
  | some end_ =>
    .ok (end_, if ev.duration.isSome then [⟨.unmappedProperty, some ev.uid, durationIgnored⟩]
      else [])
  | none => match ev.duration with
    | some raw => match J.spanFrom raw with
      | .error e =>
        .error ("DURATION:".toList ++ raw ++ " did not parse (".toList ++ e ++ [')'])
      | .ok span => match addSpan span start with
        | .error e =>
          .error ("DTSTART + DURATION:".toList ++ raw ++ " (".toList ++ e ++ [')'])
        | .ok end_ => .ok (end_, [])
    | none => match start with
      | .date d => match J.tomorrow d with
        | .error e => .error ("DTSTART + 1 day (".toList ++ e ++ [')'])
        | .ok next => .ok (.date next, [])
      | _ => .error zeroLength

/-- Whether a time is at the same instant for every reader. -/
def anchored : SunriseTime J → Bool
  | .instant _ => true
  | .zoned _ tz => (J.zoneOf tz).isSome
  | _ => false

def sameKind : SunriseTime J → SunriseTime J → Bool
  | .zoned _ a, .zoned _ b => a == b
  | a, b => a.kindStr == b.kindStr

/-- Whether the order of two times is taken to be the same for every reader. -/
def readerFree (startsAt endsAt : SunriseTime J) : Bool :=
  sameKind startsAt endsAt || (anchored startsAt && anchored endsAt)

/-- Why an event without a start is refused. -/
def noStart : Text := "no DTSTART: an event with no start is not a Block".toList

/-- Why an event that does not end after it starts is refused. -/
def notAfterStart (startsAt endsAt : SunriseTime J) : Text :=
  "DTEND is not after DTSTART (".toList ++ startsAt.display ++ " .. ".toList ++ endsAt.display ++
    [')']

/-- The report of a property a block does not have. -/
def dropped (name why : Text) : Text := name ++ " was dropped: ".toList ++ why

/-- Why a description is dropped. -/
def noNotes : Text := "a Block has no notes field in this schema".toList

/-- Why a location is dropped. -/
def noLocation : Text := "a Block has no location field in this schema".toList

/-- Why a rule is dropped. -/
def noRecurrence : Text :=
  "recurring Blocks are not modelled; only the first occurrence was imported".toList

/-- What an event has that a block does not. -/
def ICalEvent.unheld (ev : ICalEvent J) : List ICalNotice :=
  [(ev.description, "DESCRIPTION".toList, noNotes), (ev.location, "LOCATION".toList, noLocation),
    (ev.rrule, "RRULE".toList, noRecurrence)].flatMap fun p =>
      if p.1.isSome then [⟨.unmappedProperty, some ev.uid, dropped p.2.1 p.2.2⟩] else []

/-- The title of a block without one. -/
def untitled : Text := "(untitled event)".toList

def ICalEvent.title (ev : ICalEvent J) : Text :=
  ((ev.summary.map trim).filter (· ≠ [])).getD untitled

/-- The block of an event, or why it has none. -/
def eventToBlock (ev : ICalEvent J) (stream : Option EntityRef) :
    Except ICalNotice (MappedEvent J) :=
  let skip detail : ICalNotice := ⟨.skipped, some ev.uid, detail⟩
  match ev.dtstart with
  | none => .error (skip noStart)
  | some start => match resolveEnd start ev with
    | .error why => .error (skip why)
    | .ok (end_, notices) =>
      let startsAt := toSunrise start
      let endsAt := toSunrise end_
      if readerFree startsAt endsAt && inverted J.utc startsAt endsAt then
        .error (skip (notAfterStart startsAt endsAt))
      else .ok ⟨ev.uid, ⟨stream, startsAt, endsAt, some ev.title, false, []⟩, notices ++ ev.unheld⟩

/-! ### What is kept -/

/-- A block as an export meets it: its range is valid for a reader in a zone, its times can be
spelled, and it has a title. -/
structure Block.Exportable (b : Block J) (tz : J.Zone) : Prop where
  range : validateRange tz b.startsAt b.endsAt = .ok ()
  starts : b.startsAt.known
  ends : b.endsAt.known
  starts_expressible : (fromSunrise b.startsAt).Expressible
  ends_expressible : (fromSunrise b.endsAt).Expressible
  title : ∃ t, b.title = some t ∧ t ≠ []

def Block.Back (b : Block J) (stream : Option EntityRef) (ev : ICalEvent J) : Prop :=
  ev.uid = blockUid b.id ∧ ∃ m, eventToBlock ev stream = .ok m ∧ m.notices = [] ∧
    m.draft.startsAt = b.startsAt ∧ m.draft.endsAt = b.endsAt ∧ m.draft.title = b.title

/-- Every block of a list comes back from its export, in its place. -/
def Kept (stream : Option EntityRef) (blocks : List (Block J)) : Prop :=
  ∃ cal, parse J (write (blocks.map fun b => blockToEvent b b.title)) = .ok cal ∧
    List.Forall₂ (fun ev b => b.Back stream ev) cal.events blocks

/-- Both times are in the reader's zone, or both are dates. -/
def bothFloat : SunriseTime J → SunriseTime J → Bool
  | .floating _, .floating _ => true
  | .allDay _, .allDay _ => true
  | _, _ => false

/-- A block iCalendar spells in full: its times are at whole seconds, its title has no white
space at its ends and no carriage returns, and its range, where it is in no zone, is in order
in UTC. -/
structure Block.Spelled (b : Block J) : Prop where
  starts : (fromSunrise b.startsAt).second = fromSunrise b.startsAt
  ends : (fromSunrise b.endsAt).second = fromSunrise b.endsAt
  title : ∀ t ∈ b.title, trim t = t ∧ '\r' ∉ t
  order : bothFloat b.startsAt b.endsAt → inverted J.utc b.startsAt b.endsAt = false

/-! ### Times -/

theorem toSunrise_fromSunrise {t : SunriseTime J} (h : t.known) :
    toSunrise (fromSunrise t) = t := by
  cases t with
  | unknown kind anchor => exact absurd h (by simp [SunriseTime.known])
  | _ => rfl

theorem fromSunrise_toSunrise (t : ICalTime J) : fromSunrise (toSunrise t) = t := by
  cases t <;> rfl

theorem resolveIn_of_anchored {t : SunriseTime J} (h : anchored t) (tz tz' : J.Zone) :
    t.resolveIn tz = t.resolveIn tz' := by
  cases t with
  | instant at_ => rfl
  | zoned civil name =>
    obtain ⟨zone, hzone⟩ := Option.isSome_iff_exists.mp h
    show (J.timestampIn ((J.zoneOf name).getD tz) civil).toOption =
      (J.timestampIn ((J.zoneOf name).getD tz') civil).toOption
    rw [hzone]
    rfl
  | _ => exact absurd h (by simp [anchored])

theorem inverted_of_anchored {s e : SunriseTime J} (hs : anchored s) (he : anchored e)
    (tz tz' : J.Zone) : inverted tz s e = inverted tz' s e := by
  unfold inverted
  rw [resolveIn_of_anchored hs tz tz', resolveIn_of_anchored he tz tz']

def alike : SunriseTime J → SunriseTime J → Bool
  | .instant _, .instant _ => true
  | .zoned _ a, .zoned _ b => a == b
  | .floating _, .floating _ => true
  | .allDay _, .allDay _ => true
  | _, _ => false

theorem sameKind_eq_alike {s e : SunriseTime J} (hs : s.known) (he : e.known) :
    sameKind s e = alike s e := by
  cases s with
  | unknown kind anchor => exact absurd hs (by simp [SunriseTime.known])
  | _ =>
    cases e with
    | unknown kind anchor => exact absurd he (by simp [SunriseTime.known])
    | _ => rfl

theorem readerFree_iff {s e : SunriseTime J} (hs : s.known) (he : e.known)
    (hse : (fromSunrise s).Expressible) (hee : (fromSunrise e).Expressible) :
    readerFree s e ↔ (anchored s ∧ anchored e) ∨ bothFloat s e := by
  unfold readerFree
  rw [sameKind_eq_alike hs he, Bool.or_eq_true, Bool.and_eq_true]
  cases s with
  | unknown kind anchor => exact absurd hs (by simp [SunriseTime.known])
  | zoned civil tz =>
    have hzone : (J.zoneOf tz).isSome := hse.2
    cases e with
    | zoned civil' tz' =>
      have hzone' : (J.zoneOf tz').isSome := hee.2
      simp [alike, anchored, bothFloat, hzone, hzone']
    | _ => simp [alike, anchored, bothFloat]
  | _ =>
    cases e with
    | zoned civil' tz' =>
      have hzone' : (J.zoneOf tz').isSome := hee.2
      simp [alike, anchored, bothFloat]
    | _ => simp [alike, anchored, bothFloat]

/-- **Of a valid range the import refuses only one in no zone that is not in order in UTC.** -/
theorem refused_iff {b : Block J} {tz : J.Zone} (h : b.Exportable tz) :
    (readerFree b.startsAt b.endsAt && inverted J.utc b.startsAt b.endsAt) = true ↔
      bothFloat b.startsAt b.endsAt ∧ inverted J.utc b.startsAt b.endsAt := by
  rw [Bool.and_eq_true, readerFree_iff h.starts h.ends h.starts_expressible h.ends_expressible]
  constructor
  · rintro ⟨⟨hs, he⟩ | hfloat, hinv⟩
    · exfalso
      have hrange := h.range
      unfold validateRange at hrange
      rw [inverted_of_anchored hs he tz J.utc, if_pos hinv] at hrange
      simp at hrange
    · exact ⟨hfloat, hinv⟩
  · exact fun ⟨hfloat, hinv⟩ => ⟨.inr hfloat, hinv⟩

/-! ### Texts -/

theorem tidy_of_trimEnd {t : Text} (h : trimEnd t = t) : Tidy t := by
  unfold Tidy
  rcases List.eq_nil_or_concat' t with rfl | ⟨init, c, rfl⟩
  · rfl
  · have hc : isSpace c = false := trimEnd_eq_self.mp h c List.getLast?_concat
    obtain ⟨hne, htrim⟩ := trimEnd_escapeChar hc
    rw [escape_append, escape_singleton]
    exact trimEnd_append hne htrim

theorem clean_eq_self {t : Text} : clean t = t ↔ '\r' ∉ t := by
  unfold clean
  rw [List.filter_eq_self]
  constructor
  · intro h hm
    exact absurd (h _ hm) (by decide)
  · exact fun h c hc => decide_eq_true fun heq => h (heq ▸ hc)

theorem trim_title (ev : ICalEvent J) : trim ev.title = ev.title := by
  unfold ICalEvent.title
  cases hs : (ev.summary.map trim).filter (· ≠ []) with
  | none => decide
  | some t =>
    obtain ⟨ht, -⟩ := Option.filter_eq_some_iff.mp hs
    obtain ⟨s, -, rfl⟩ := Option.map_eq_some_iff.mp ht
    exact trim_trim s

theorem mem_title {ev : ICalEvent J} {c : Char} (h : c ∈ ev.title) :
    (∃ s ∈ ev.summary, c ∈ s) ∨ c ∈ untitled := by
  unfold ICalEvent.title at h
  cases hs : (ev.summary.map trim).filter (· ≠ []) with
  | none =>
    rw [hs] at h
    exact .inr h
  | some t =>
    rw [hs] at h
    obtain ⟨ht, -⟩ := Option.filter_eq_some_iff.mp hs
    obtain ⟨s, hsummary, rfl⟩ := Option.map_eq_some_iff.mp ht
    exact .inl ⟨s, hsummary, mem_of_mem_trim h⟩

theorem title_some {t : Text} {ev : ICalEvent J} (hs : ev.summary = some t) (ht : trim t = t)
    (hne : t ≠ []) : ev.title = t := by
  unfold ICalEvent.title
  rw [hs, Option.map_some, ht, Option.filter_some_pos (by simpa using hne), Option.getD_some]

theorem mem_encodeBytes {payload : ℕ} {c : Char} (h : c ∈ encodeBytes payload) :
    c ∈ alphabet := by
  unfold encodeBytes at h
  obtain ⟨i, -, rfl⟩ := List.mem_map.mp h
  have hlt : payload / 2 ^ (125 - 5 * i) % 32 < alphabet.length :=
    Nat.mod_lt _ (by decide)
  rw [List.getD_eq_getElem?_getD, List.getElem?_eq_getElem hlt, Option.getD_some]
  exact List.getElem_mem hlt

theorem blockUid_spec (block : EntityRef) :
    Tidy (blockUid block) ∧ blockUid block ≠ [] ∧ clean (blockUid block) = blockUid block := by
  have hhost : trimEnd ('@' :: sunriseUidHost) = '@' :: sunriseUidHost := by decide
  refine ⟨tidy_of_trimEnd (trimEnd_append (by simp) hhost), by simp [blockUid], ?_⟩
  rw [clean_eq_self]
  unfold blockUid
  rw [List.mem_append, List.mem_append]
  rintro ((h | h) | h)
  · revert h
    cases block.kind <;> decide
  · exact absurd (mem_encodeBytes h) (by decide)
  · revert h
    decide

theorem trimEnd_of_trim {t : Text} (h : trim t = t) : trimEnd t = t := by
  have := trimEnd_trim t
  rwa [h] at this

/-! ### The round trip -/

def Block.reread (b : Block J) : ICalEvent J := (blockToEvent b b.title).reread

theorem writable_blockToEvent {b : Block J} {tz : J.Zone} (h : b.Exportable tz)
    (ht : ∀ t ∈ b.title, trim t = t) : (blockToEvent b b.title).Writable where
  uid := (blockUid_spec b.id).1
  uid_written hne hnil := by
    have hread := unescape_escape (blockUid b.id)
    rw [(blockUid_spec b.id).2.2] at hread
    rw [show escape (blockUid b.id) = [] from hnil] at hread
    exact hne hread.symm
  summary t hmem := tidy_of_trimEnd (trimEnd_of_trim (ht t hmem))
  dtstart t hmem := (Option.some.inj hmem) ▸ h.starts_expressible
  dtend t hmem := (Option.some.inj hmem) ▸ h.ends_expressible
  duration d hmem := by simp [blockToEvent] at hmem
  description d hmem := by simp [blockToEvent] at hmem
  location d hmem := by simp [blockToEvent] at hmem
  rrule d hmem := by simp [blockToEvent] at hmem

theorem title_of_eventToBlock {ev : ICalEvent J} {stream : Option EntityRef} {m : MappedEvent J}
    (h : eventToBlock ev stream = .ok m) : m.draft.title = some ev.title := by
  unfold eventToBlock at h
  split at h
  · simp at h
  · split at h
    · simp at h
    · dsimp only at h
      split at h
      · simp at h
      · rw [← Except.ok.inj h]

theorem exists_of_forall₂ {α β : Type*} {r : α → β → Prop} {l : List α} {l' : List β}
    (h : List.Forall₂ r l l') {b : β} (hb : b ∈ l') : ∃ a, r a b := by
  induction h with
  | nil => simp at hb
  | cons hr _ ih =>
    rcases List.mem_cons.mp hb with rfl | hb
    · exact ⟨_, hr⟩
    · exact ih hb

theorem resolveEnd_dtend {start end_ : ICalTime J} {ev : ICalEvent J} (h : ev.dtend = some end_)
    (hd : ev.duration = none) : resolveEnd start ev = .ok (end_, []) := by
  unfold resolveEnd
  rw [h, hd]
  rfl

theorem eventToBlock_reread (b : Block J) (stream : Option EntityRef) :
    eventToBlock b.reread stream =
      if readerFree (toSunrise (fromSunrise b.startsAt).second)
            (toSunrise (fromSunrise b.endsAt).second) &&
          inverted J.utc (toSunrise (fromSunrise b.startsAt).second)
            (toSunrise (fromSunrise b.endsAt).second) then
        .error ⟨.skipped, some b.reread.uid,
          notAfterStart (toSunrise (fromSunrise b.startsAt).second)
            (toSunrise (fromSunrise b.endsAt).second)⟩
      else .ok ⟨b.reread.uid, ⟨stream, toSunrise (fromSunrise b.startsAt).second,
        toSunrise (fromSunrise b.endsAt).second, some b.reread.title, false, []⟩, []⟩ := by
  have hstart : b.reread.dtstart = some (fromSunrise b.startsAt).second := rfl
  have hend : resolveEnd (fromSunrise b.startsAt).second b.reread =
      .ok ((fromSunrise b.endsAt).second, []) := resolveEnd_dtend rfl rfl
  have hunheld : b.reread.unheld = [] := rfl
  unfold eventToBlock
  rw [hstart]
  dsimp only
  rw [hend]
  dsimp only
  rw [hunheld]
  rfl

theorem back_of_spelled {b : Block J} {tz : J.Zone} (h : b.Exportable tz) (hs : b.Spelled)
    (stream : Option EntityRef) : b.Back stream b.reread := by
  obtain ⟨t, ht, hne⟩ := h.title
  obtain ⟨htrim, hcr⟩ := hs.title t ht
  refine ⟨(blockUid_spec b.id).2.2,
    ⟨b.reread.uid, ⟨stream, b.startsAt, b.endsAt, some b.reread.title, false, []⟩, []⟩, ?_, ?_⟩
  · rw [eventToBlock_reread, hs.starts, hs.ends, toSunrise_fromSunrise h.starts,
      toSunrise_fromSunrise h.ends, if_neg]
    rw [refused_iff h]
    rintro ⟨hfloat, hinv⟩
    rw [hs.order hfloat] at hinv
    exact Bool.false_ne_true hinv
  · refine ⟨rfl, rfl, rfl, ?_⟩
    have hsummary : b.reread.summary = some t := by
      show b.title.map clean = some t
      rw [ht, Option.map_some, clean_eq_self.mpr hcr]
    show some b.reread.title = b.title
    rw [title_some hsummary htrim hne, ht]

theorem spelled_of_back {b : Block J} {tz : J.Zone} (h : b.Exportable tz)
    {stream : Option EntityRef} (hb : b.Back stream b.reread) : b.Spelled := by
  obtain ⟨-, m, hm, -, hstarts, hends, htitle⟩ := hb
  rw [eventToBlock_reread] at hm
  split at hm
  · simp at hm
  next hinv =>
    obtain rfl := Except.ok.inj hm
    have hstarts' : toSunrise (fromSunrise b.startsAt).second = b.startsAt := hstarts
    have hends' : toSunrise (fromSunrise b.endsAt).second = b.endsAt := hends
    rw [hstarts', hends', refused_iff h] at hinv
    refine ⟨?_, ?_, ?_, ?_⟩
    · have := congrArg fromSunrise hstarts'
      rwa [fromSunrise_toSunrise] at this
    · have := congrArg fromSunrise hends'
      rwa [fromSunrise_toSunrise] at this
    · intro t ht
      have hback : b.reread.title = t := Option.some.inj (htitle.trans ht)
      refine ⟨hback ▸ trim_title _, fun hcr => ?_⟩
      rw [← hback] at hcr
      rcases mem_title hcr with ⟨s, hs, hmem⟩ | hmem
      · obtain ⟨t', -, rfl⟩ := Option.map_eq_some_iff.mp hs
        exact absurd (List.of_mem_filter hmem) (by decide)
      · exact absurd hmem (by decide)
    · intro hfloat
      by_contra hne
      exact hinv ⟨hfloat, by simpa using hne⟩

section

variable (hJ : J.Spells) {tz : J.Zone} {blocks : List (Block J)} (h : ∀ b ∈ blocks, b.Exportable tz)
include hJ h

theorem parse_export (ht : ∀ b ∈ blocks, ∀ t ∈ b.title, trim t = t) :
    parse J (write (blocks.map fun b => blockToEvent b b.title)) =
      .ok ⟨blocks.map Block.reread, []⟩ := by
  rw [parse_write hJ, List.map_map]
  · rfl
  · intro e he
    obtain ⟨b, hb, rfl⟩ := List.mem_map.mp he
    exact ⟨writable_blockToEvent (h b hb) (ht b hb), (blockUid_spec b.id).2.1⟩

theorem spelled_of_kept {stream : Option EntityRef} (hk : Kept stream blocks) :
    ∀ b ∈ blocks, b.Spelled := by
  obtain ⟨cal, hcal, hback⟩ := hk
  -- whatever was read, the title of a draft is trimmed
  have ht : ∀ b ∈ blocks, ∀ t ∈ b.title, trim t = t := by
    intro b hb t ht
    obtain ⟨ev, -, m, hm, -, -, -, htitle⟩ := exists_of_forall₂ hback hb
    rw [title_of_eventToBlock hm] at htitle
    rw [← Option.some.inj (htitle.trans ht), trim_title]
  rw [parse_export hJ h ht] at hcal
  obtain rfl := Except.ok.inj hcal
  intro b hb
  rw [List.forall₂_map_left_iff, List.forall₂_same] at hback
  exact spelled_of_back (h b hb) (hback b hb)

end

/-- **An export of blocks comes back as the blocks exactly where every block is spelled in
full.** -/
theorem kept_iff (hJ : J.Spells) {tz : J.Zone} {blocks : List (Block J)}
    (h : ∀ b ∈ blocks, b.Exportable tz) (stream : Option EntityRef) :
    Kept stream blocks ↔ ∀ b ∈ blocks, b.Spelled := by
  constructor
  · exact spelled_of_kept hJ h
  · intro hs
    refine ⟨_, parse_export hJ h fun b hb t ht => ((hs b hb).title t ht).1, ?_⟩
    rw [List.forall₂_map_left_iff, List.forall₂_same]
    exact fun b hb => back_of_spelled (h b hb) (hs b hb) stream

def hourBlock (title : Text) : Block Jiff.sample where
  id := ⟨.block, 1⟩
  startsAt := .floating ⟨"20260304T090000".toList, by decide⟩
  endsAt := .zoned ⟨"20260304T100000".toList, by decide⟩ "UTC".toList
  title := some title

theorem exportable_hourBlock {title : Text} (h : title ≠ []) :
    (hourBlock title).Exportable () where
  range := rfl
  starts := rfl
  ends := rfl
  starts_expressible := inYears_yearOf_dateTime (by decide)
  ends_expressible := ⟨inYears_yearOf_dateTime (by decide), rfl⟩
  title := ⟨title, rfl, h⟩

theorem kept_iff_hourBlock : Kept none [hourBlock "Stand, up".toList] := by
  refine (@kept_iff _ Jiff.sample_spells () _ ?_ none).mpr ?_
  · intro b hb
    rw [List.mem_singleton.mp hb]
    exact exportable_hourBlock (by decide)
  · intro b hb
    rw [List.mem_singleton.mp hb]
    refine ⟨rfl, rfl, ?_, fun hfloat => ?_⟩
    · rintro t ht
      rw [← Option.some.inj ht]
      decide
    · exact absurd hfloat (by decide)

/-- A title that was valid with a carriage return in it comes back without it. -/
theorem not_kept_carriage_return :
    (∀ b ∈ [hourBlock "Stand\rup".toList], b.Exportable ()) ∧
      ¬ Kept none [hourBlock "Stand\rup".toList] := by
  have h : ∀ b ∈ [hourBlock "Stand\rup".toList], b.Exportable () := by
    intro b hb
    rw [List.mem_singleton.mp hb]
    exact exportable_hourBlock (by decide)
  refine ⟨h, fun hk => ?_⟩
  have hs := spelled_of_kept Jiff.sample_spells h hk _ (List.mem_singleton_self _)
  exact absurd (hs.title _ rfl).2 (by decide)

end Ical

end Sunrise
