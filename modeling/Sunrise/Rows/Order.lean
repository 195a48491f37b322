import Mathlib.Data.Int.ConditionallyCompleteOrder
import Mathlib.Data.Prod.Lex
import Mathlib.Data.Set.Insert
import Mathlib.Data.String.Basic
import Mathlib.Order.WithBot
import Sunrise.Lib.CborBytes
import Sunrise.Rows.Time

/-!
# The orders on times

Times are ordered in two ways. Storage orders them by the key they are indexed under, the name of
their kind, and then by what tells two values of one kind apart: the zone of two zoned times, the
stored bytes of two values of an unknown kind. A reader orders them by the instant they come to in
the reader's zone, a whole day before a time of it, and then as storage does. Both are meant to
compare two values as equal only if they are: they do where the key, the kind and that last
comparison tell the values apart, and a key of whole milliseconds does not always.

* `SunriseTime.cmp`, `SunriseTime.cmpIn` — the two orders.

## Main results

* `orders_three_iff` — **three values are ordered by both exactly when no two of them collide.**
-/

namespace Sunrise

namespace Rows

/-! ### The laws of an order -/

/-- On the values of `S` the comparison is antisymmetric and transitive, and equal values are
those that compare equal. -/
structure Orders {α : Type*} (cmp : α → α → Ordering) (S : Set α) : Prop where
  antisymm : ∀ a ∈ S, ∀ b ∈ S, cmp b a = (cmp a b).swap
  trans : ∀ a ∈ S, ∀ b ∈ S, ∀ c ∈ S, (cmp a b).isLE → (cmp b c).isLE → (cmp a c).isLE
  eq_iff : ∀ a ∈ S, ∀ b ∈ S, cmp a b = .eq ↔ a = b

/-- **Comparing by a key that tells the values apart has the laws.** -/
theorem orders_of_key {α κ : Type*} [LinearOrder κ] {cmp : α → α → Ordering} {S : Set α}
    (key : α → κ) (hcmp : ∀ a ∈ S, ∀ b ∈ S, cmp a b = compare (key a) (key b))
    (hinj : ∀ a ∈ S, ∀ b ∈ S, key a = key b → a = b) : Orders cmp S where
  antisymm a ha b hb := by
    rw [hcmp a ha b hb, hcmp b hb a ha]
    exact (Std.OrientedOrd.eq_swap : compare (key b) (key a) = _)
  trans a ha b hb c hc hab hbc := by
    rw [hcmp a ha b hb] at hab
    rw [hcmp b hb c hc] at hbc
    rw [hcmp a ha c hc]
    exact Std.TransOrd.isLE_trans hab hbc
  eq_iff a ha b hb := by
    rw [hcmp a ha b hb, compare_eq_iff_eq]
    exact ⟨hinj a ha b hb, fun h => h ▸ rfl⟩

/-! ### The two orders -/

section Orders

variable {J : Jiff} (cbor : Cbor.Codec)

/-- Whether it denotes a whole day. -/
def SunriseTime.isAllDay : SunriseTime J → Bool
  | .allDay _ => true
  | _ => false

open SunriseTime

/-- The last comparison of the storage order. Values of an unknown kind with the same other
fields have the same text for them, so these are compared by the text alone. -/
def SunriseTime.cmpTie : SunriseTime J → SunriseTime J → Ordering
  | .zoned _ x, .zoned _ y => compare x y
  | .unknown _ x, .unknown _ y => compare (encodeRawSidecar cbor x) (encodeRawSidecar cbor y)
  | _, _ => .eq

def SunriseTime.cmp (a b : SunriseTime J) : Ordering :=
  (compare a.indexMs b.indexMs).then ((compare a.kindStr b.kindStr).then (a.cmpTie cbor b))

/-- The instant a reader in `tz` compares it at. -/
def SunriseTime.resolveIn (tz : J.Zone) (t : SunriseTime J) : Option Timestamp := t.toInstant tz

/-- Two resolved instants; a value without one comes after every value with one. -/
def comparePlaced : Option Timestamp → Option Timestamp → Ordering
  | some a, some b => compare a.ns b.ns
  | some _, none => .lt
  | none, some _ => .gt
  | none, none => .eq

/-- The order a reader in `tz` sees. -/
def SunriseTime.cmpIn (tz : J.Zone) (a b : SunriseTime J) : Ordering :=
  (comparePlaced (a.resolveIn tz) (b.resolveIn tz)).then <|
    (compare b.isAllDay a.isAllDay).then (a.cmp cbor b)

/-! ### Keys for them -/

/-- What tells apart two values of one kind. -/
def SunriseTime.tiebreak : SunriseTime J → String
  | .zoned _ tz => tz
  | .unknown _ raw => encodeRawSidecar cbor raw
  | _ => ""

/-- The last comparison tells nothing apart: two zoned times have one zone, two values of an
unknown kind are stored as the same bytes, and any other two are not compared. -/
def SunriseTime.SameTie : SunriseTime J → SunriseTime J → Prop
  | .zoned _ x, .zoned _ y => x = y
  | .unknown _ x, .unknown _ y => encodeRawSidecar cbor x = encodeRawSidecar cbor y
  | _, _ => True

/-- **The two values share** the key they are indexed under, the kind, and what tells two values
of the kind apart. -/
def SunriseTime.Collides (a b : SunriseTime J) : Prop :=
  a.indexMs = b.indexMs ∧ a.kindStr = b.kindStr ∧ a.SameTie cbor b

def SunriseTime.storageKey (t : SunriseTime J) : ℤ ×ₗ (String ×ₗ String) :=
  toLex (t.indexMs, toLex (t.kindStr, t.tiebreak cbor))

def SunriseTime.readerKey (tz : J.Zone) (t : SunriseTime J) :
    WithTop ℤ ×ₗ (Bool ×ₗ (ℤ ×ₗ (String ×ₗ String))) :=
  toLex ((t.resolveIn tz).elim ⊤ fun at_ => (at_.ns : WithTop ℤ),
    toLex (!t.isAllDay, t.storageKey cbor))

variable {cbor} {a b : SunriseTime J} {S : Set (SunriseTime J)} {tz : J.Zone}

theorem cmpTie_eq_iff : a.cmpTie cbor b = .eq ↔ a.SameTie cbor b := by
  cases a <;> cases b <;> simp [cmpTie, SunriseTime.SameTie]

theorem cmp_eq_iff : a.cmp cbor b = .eq ↔ a.Collides cbor b := by
  unfold SunriseTime.cmp SunriseTime.Collides
  rw [Ordering.then_eq_eq, Ordering.then_eq_eq, compare_eq_iff_eq, compare_eq_iff_eq,
    cmpTie_eq_iff]

theorem compare_storageKey :
    compare (a.storageKey cbor) (b.storageKey cbor) = (compare a.indexMs b.indexMs).then
      ((compare a.kindStr b.kindStr).then (compare (a.tiebreak cbor) (b.tiebreak cbor))) := by
  simp only [Prod.Lex.compare_def, compareLex, compareOn]
  rfl

theorem storageKey_eq (h : a.storageKey cbor = b.storageKey cbor) :
    a.indexMs = b.indexMs ∧ a.kindStr = b.kindStr ∧ a.tiebreak cbor = b.tiebreak cbor := by
  have h' := toLex.injective h
  have h'' := toLex.injective (Prod.ext_iff.mp h').2
  exact ⟨(Prod.ext_iff.mp h').1, (Prod.ext_iff.mp h'').1, (Prod.ext_iff.mp h'').2⟩

theorem cmpTie_eq (h : a.Collides cbor b → a = b) (hi : a.indexMs = b.indexMs)
    (hk : a.kindStr = b.kindStr) :
    a.cmpTie cbor b = compare (a.tiebreak cbor) (b.tiebreak cbor) := by
  by_cases hs : a.SameTie cbor b
  · obtain rfl := h ⟨hi, hk, hs⟩
    rw [cmpTie_eq_iff.mpr hs, compare_eq_iff_eq.mpr rfl]
  · -- only two zoned times and two values of an unknown kind are compared at all
    cases a <;> cases b <;> first | rfl | exact absurd trivial hs

theorem cmp_eq_compare (h : a.Collides cbor b → a = b) :
    a.cmp cbor b = compare (a.storageKey cbor) (b.storageKey cbor) := by
  rw [compare_storageKey, SunriseTime.cmp]
  by_cases hi : a.indexMs = b.indexMs
  · by_cases hk : a.kindStr = b.kindStr
    · rw [cmpTie_eq h hi hk]
    · have hne : compare a.kindStr b.kindStr ≠ .eq := fun he => hk (compare_eq_iff_eq.mp he)
      revert hne
      cases compare a.kindStr b.kindStr <;> simp
  · have hne : compare a.indexMs b.indexMs ≠ .eq := fun he => hi (compare_eq_iff_eq.mp he)
    revert hne
    cases compare a.indexMs b.indexMs <;> simp

theorem comparePlaced_eq (x y : Option Timestamp) :
    comparePlaced x y = compare (x.elim ⊤ fun at_ => (at_.ns : WithTop ℤ))
      (y.elim ⊤ fun at_ => (at_.ns : WithTop ℤ)) := by
  cases x with
  | none =>
    cases y with
    | none => exact (compare_eq_iff_eq.mpr rfl).symm
    | some b => exact (compare_gt_iff_gt.mpr (WithTop.coe_lt_top b.ns)).symm
  | some a =>
    cases y with
    | none => exact (compare_lt_iff_lt.mpr (WithTop.coe_lt_top a.ns)).symm
    | some b =>
      simp only [comparePlaced, Option.elim_some]
      rcases lt_trichotomy a.ns b.ns with h | h | h
      · rw [compare_lt_iff_lt.mpr h, compare_lt_iff_lt.mpr (WithTop.coe_lt_coe.mpr h)]
      · rw [h, compare_eq_iff_eq.mpr rfl, compare_eq_iff_eq.mpr rfl]
      · rw [compare_gt_iff_gt.mpr h, compare_gt_iff_gt.mpr (WithTop.coe_lt_coe.mpr h)]

theorem cmpIn_eq_compare (h : a.Collides cbor b → a = b) :
    a.cmpIn cbor tz b = compare (a.readerKey cbor tz) (b.readerKey cbor tz) := by
  have hkey : compare (a.readerKey cbor tz) (b.readerKey cbor tz) =
      (compare ((a.resolveIn tz).elim ⊤ fun at_ => (at_.ns : WithTop ℤ))
        ((b.resolveIn tz).elim ⊤ fun at_ => (at_.ns : WithTop ℤ))).then
      ((compare (!a.isAllDay) (!b.isAllDay)).then
        (compare (a.storageKey cbor) (b.storageKey cbor))) := by
    simp only [Prod.Lex.compare_def, compareLex, compareOn]
    rfl
  have hday : compare b.isAllDay a.isAllDay = compare (!a.isAllDay) (!b.isAllDay) := by
    cases a.isAllDay <;> cases b.isAllDay <;> rfl
  rw [hkey, cmpIn, comparePlaced_eq, cmp_eq_compare h, hday]

theorem collides_of_storageKey (h : a.storageKey cbor = b.storageKey cbor) :
    a.Collides cbor b := by
  obtain ⟨hi, hk, ht⟩ := storageKey_eq h
  refine ⟨hi, hk, ?_⟩
  cases a <;> cases b <;> first | exact trivial | exact ht

/-! ### Where the orders have the laws -/

/-- **The orders have the laws exactly where no two values collide.** -/
theorem orders_iff :
    (Orders (SunriseTime.cmp cbor) S ∧ Orders (cmpIn cbor tz) S) ↔
      ∀ a ∈ S, ∀ b ∈ S, a.Collides cbor b → a = b := by
  constructor
  · rintro ⟨h, -⟩ a ha b hb hab
    exact (h.eq_iff a ha b hb).mp (cmp_eq_iff.mpr hab)
  · intro h
    refine ⟨orders_of_key (storageKey cbor) ?_ ?_,
      orders_of_key (readerKey cbor tz) ?_ ?_⟩
    · intro a ha b hb
      exact cmp_eq_compare (h a ha b hb)
    · intro a ha b hb hkey
      exact h a ha b hb (collides_of_storageKey hkey)
    · intro a ha b hb
      exact cmpIn_eq_compare (h a ha b hb)
    · intro a ha b hb hkey
      have hrest := (Prod.ext_iff.mp (toLex.injective hkey)).2
      exact h a ha b hb (collides_of_storageKey (Prod.ext_iff.mp (toLex.injective hrest)).2)

theorem unknown_collides {kind kind' : String} {raw raw' : Unknowns []} (hc : cbor.Lawful)
    (hb : cbor.WritesBytes) (h : raw.Decoded cbor) (h' : raw'.Decoded cbor)
    (hcol : (unknown (J := J) kind raw).Collides cbor (.unknown kind' raw')) :
    unknown (J := J) kind raw = .unknown kind' raw' := by
  have hread := decodeRawSidecar_encodeRawSidecar hc hb h
  have htext : encodeRawSidecar cbor raw = encodeRawSidecar cbor raw' := hcol.2.2
  rw [htext, decodeRawSidecar_encodeRawSidecar hc hb h'] at hread
  rw [show kind = kind' from hcol.2.1, Option.some.inj hread]

/-- **Three values are ordered by both** exactly when no two of them are different and share
the index key, the kind and what tells two values of the kind apart. -/
theorem orders_three_iff (x y z : SunriseTime J) (tz : J.Zone) :
    (Orders (SunriseTime.cmp cbor) {x, y, z} ∧ Orders (cmpIn cbor tz) {x, y, z}) ↔
      ∀ a ∈ ({x, y, z} : Set (SunriseTime J)), ∀ b ∈ ({x, y, z} : Set (SunriseTime J)),
        a.Collides cbor b → a = b :=
  orders_iff

end Orders

/-! ### Two civil times of one instant -/

/-- The start of the hour New York skips in March 2026, as seconds of civil time. -/
def springForward : ℤ := 1772935200

/-- A library of whole seconds with New York, around that hour, and UTC: a time in the hour
skipped moves forward by an hour. -/
def Jiff.newYork : Jiff where
  Date := ℤ
  Time := ℤ
  DateTime := ℤ
  Zone := Bool
  zoneOf name := if name = "America/New_York" then some true
    else if name = "UTC" then some false else none
  utc := false
  timestampIn newYork civil :=
    let offset := if newYork then (if civil < springForward + 3600 then 18000 else 14400) else 0
    Timestamp.fromMillisecond (1000 * (civil + offset))
  dateTimeIn newYork at_ :=
    let utc := at_.ns / 10 ^ 9
    utc - if newYork then (if utc < springForward + 18000 then 18000 else 14400) else 0
  midnight d := 86400 * d
  dateOf civil := civil / 86400
  year d := 1970 + d / 365
  showDate := toString
  showTime := toString
  showDateTime := toString
  dateFrom := String.toInt?
  timeFrom := String.toInt?
  dateTimeFrom := String.toInt?
  timestampFrom _ := none

def halfPastTwo : SunriseTime Jiff.newYork := .zoned (springForward + 1800) "America/New_York"

def halfPastThree : SunriseTime Jiff.newYork := .zoned (springForward + 5400) "America/New_York"

theorem halfPastTwo_collides : halfPastTwo.Collides Cbor.codec halfPastThree :=
  ⟨by decide, rfl, rfl⟩

theorem halfPast_resolveIn :
    halfPastTwo.resolveIn Jiff.newYork.utc = halfPastThree.resolveIn Jiff.newYork.utc := by
  decide

theorem halfPastTwo_ne : halfPastTwo ≠ halfPastThree := by
  intro h
  injection h with h
  have hne : springForward + 1800 ≠ springForward + 5400 := by decide
  exact hne h

/-- **Neither order has the laws** on a time of the hour skipped, the time an hour later, and any
third. -/
theorem not_orders_three :
    ¬ Orders (SunriseTime.cmp Cbor.codec)
        {halfPastTwo, halfPastThree, .instant .unixEpoch} ∧
      ¬ Orders (SunriseTime.cmpIn Cbor.codec Jiff.newYork.utc)
        {halfPastTwo, halfPastThree, .instant .unixEpoch} := by
  have hcmp := cmp_eq_iff.mpr halfPastTwo_collides
  constructor
  · intro h
    exact halfPastTwo_ne ((h.eq_iff _ (by simp) _ (by simp)).mp hcmp)
  · intro h
    refine halfPastTwo_ne ((h.eq_iff _ (by simp) _ (by simp)).mp ?_)
    rw [SunriseTime.cmpIn, halfPast_resolveIn, hcmp]
    decide

end Rows

end Sunrise
