import Sunrise.Routine.Expand

/-!
# An expansion in windows

The scan of a rule is made from the anchor, whatever window is asked for, and stops early: at a
period that starts past the window. What it gives is then a stretch of one series, which no window
has a part in: the occurrences of all the periods a scan may go through, up to the rule's last time,
and of them the first `count`. Two windows side by side give two stretches side by side, and an
occurrence has one key and one place in the series.

The zone has a part in it, since a period that starts past the window's end by the calendar could
hold an occurrence before it on the timeline: not if the clock is set back by no more than a day.

* `expand_eq` — **an expansion is a stretch of the series.**
* `expand_windows` — **what it gives does not depend on the window**, and its keys are in order
  exactly if the years are.
-/

namespace Sunrise

namespace Routine

open Ascending
open Calendar (Date DateTime Time)
open Rows (Timestamp SunriseTime)

/-! ### Zones -/

/-- What a zone promises. -/
structure ZoneLaws (L : Library) (tz : L.Zone) : Prop where
  mono : ∀ {d e t i j}, d ≤ e → L.timestamp tz ⟨d, t⟩ = some i → L.timestamp tz ⟨e, t⟩ = some j →
    i ≤ j
  /-- A civil time in a gap is moved forward, and one outside is that of its instant. -/
  forward : ∀ {a i}, L.timestamp tz a = some i → a ≤ L.civil tz i
  back : ∀ {i j}, i ≤ j → (L.civil tz i).date.num ≤ (L.civil tz j).date.num + 1

theorem ZoneLaws.le_winEndDate {L : Library} {tz : L.Zone} (hz : ZoneLaws L tz) {a : DateTime}
    {i winEnd : Timestamp} (ha : L.timestamp tz a = some i) (hlt : i < winEnd) :
    a.date ≤ winEndDate tz winEnd := by
  have hfwd := Date.le_def.mp (DateTime.date_mono (hz.forward ha))
  have hback := hz.back hlt.le
  unfold winEndDate
  cases htom : (L.civil tz winEnd).date.tomorrow with
  | none => exact Date.le_last _
  | some t =>
    have hnum := Date.addDays_eq_some.mp htom
    rw [Option.getD_some, Date.le_def]
    omega

/-! ### Keys -/

theorem append_lt_append {s t u v : Text} (hlen : s.length = t.length)
    (h : s < t ∨ s = t ∧ u < v) : s ++ u < t ++ v := by
  induction s generalizing t with
  | nil =>
    obtain rfl := List.length_eq_zero_iff.mp hlen.symm
    exact h.elim (fun h => absurd h (lt_irrefl _)) And.right
  | cons a s ih =>
    cases t with
    | nil => cases hlen
    | cons b t =>
      rw [List.cons_append, List.cons_append, List.cons_lt_cons_iff]
      rcases h with h | ⟨h, huv⟩
      · rcases List.cons_lt_cons_iff.mp h with hab | ⟨hab, hst⟩
        · exact .inl hab
        · exact .inr ⟨hab, ih (Nat.succ.inj hlen) (.inl hst)⟩
      · obtain ⟨rfl, rfl⟩ := List.cons.inj h
        exact .inr ⟨rfl, ih rfl (.inr ⟨rfl, huv⟩)⟩

theorem number_cons (c : Char) (s : Text) :
    Search.number (c :: s) = (c.toNat - '0'.toNat) * 10 ^ s.length + Search.number s := by
  unfold Search.number
  rw [Nat.ofDigitChars_cons, Nat.ofDigitChars_eq_ofDigitChars_zero]
  ring

theorem digit_lt_digit {a b : Char} (ha : a.isDigit) (h : a < b) :
    a.toNat - '0'.toNat + 1 ≤ b.toNat - '0'.toNat := by
  rw [Char.isDigit, Bool.and_eq_true, decide_eq_true_eq, decide_eq_true_eq] at ha
  have hzero : '0'.toNat ≤ a.toNat := ha.1
  have hlt : a.toNat < b.toNat := h
  omega

theorem lt_of_number_lt {s t : Text} (hlen : s.length = t.length) (hs : ∀ c ∈ s, c.isDigit)
    (ht : ∀ c ∈ t, c.isDigit) (h : Search.number s < Search.number t) : s < t := by
  induction s generalizing t with
  | nil =>
    obtain rfl := List.length_eq_zero_iff.mp hlen.symm
    exact absurd h (lt_irrefl _)
  | cons a s ih =>
    cases t with
    | nil => cases hlen
    | cons b t =>
      have hlen' : s.length = t.length := Nat.succ.inj hlen
      rw [number_cons, number_cons, hlen'] at h
      have hsn := Search.number_lt fun c hc => hs c (List.mem_cons_of_mem _ hc)
      have htn := Search.number_lt fun c hc => ht c (List.mem_cons_of_mem _ hc)
      have hb := ht b List.mem_cons_self
      rw [List.cons_lt_cons_iff]
      rcases lt_trichotomy a b with hab | rfl | hab
      · exact .inl hab
      · refine .inr ⟨rfl, ih hlen' (fun c hc => hs c (List.mem_cons_of_mem _ hc))
          (fun c hc => ht c (List.mem_cons_of_mem _ hc)) (by omega)⟩
      · have hmul := Nat.mul_le_mul_right (10 ^ t.length) (digit_lt_digit hb hab)
        rw [Nat.add_mul, Nat.one_mul] at hmul
        omega

theorem padded_lt {w m n : ℕ} (hw : 0 < w) (h : m < n) (hn : n < 10 ^ w) :
    Search.padded w m < Search.padded w n := by
  refine lt_of_number_lt ?_ (fun c => Search.isDigit_of_mem_padded)
    (fun c => Search.isDigit_of_mem_padded) ?_
  · rw [Search.length_padded hw (h.trans hn), Search.length_padded hw hn]
  · rwa [Search.number_padded, Search.number_padded]

theorem cons_lt_cons {c : Char} {s t : Text} (h : s < t) : c :: s < c :: t :=
  List.cons_lt_cons_iff.mpr (.inr ⟨rfl, h⟩)

/-- Before a separator that comes before their characters, texts are in order as they are
alone. -/
theorem append_sep_lt_iff {c : Char} {s t u v : Text} (hs : ∀ a ∈ s, c < a) (ht : ∀ a ∈ t, c < a)
    (hne : s ≠ t) : s ++ c :: u < t ++ c :: v ↔ s < t := by
  induction s generalizing t with
  | nil =>
    cases t with
    | nil => exact absurd rfl hne
    | cons b t =>
      exact iff_of_true (List.cons_lt_cons_iff.mpr (.inl (ht b List.mem_cons_self)))
        (List.nil_lt_cons b t)
  | cons a s ih =>
    have ha := hs a List.mem_cons_self
    cases t with
    | nil =>
      refine iff_of_false (fun h => ?_) (List.not_lt_nil _)
      rcases List.cons_lt_cons_iff.mp h with h | ⟨rfl, -⟩
      · exact lt_asymm h ha
      · exact lt_irrefl _ ha
    | cons b t =>
      rw [List.cons_append, List.cons_append, List.cons_lt_cons_iff, List.cons_lt_cons_iff]
      refine or_congr_right (and_congr_right fun hab => ?_)
      exact ih (fun a ha => hs a (List.mem_cons_of_mem _ ha))
        (fun a ha => ht a (List.mem_cons_of_mem _ ha)) fun h => hne (by rw [hab, h])

theorem dash_lt_of_mem_padded {w n : ℕ} {a : Char} (h : a ∈ Search.padded w n) : '-' < a := by
  have hdigit := Search.isDigit_of_mem_padded h
  rw [Char.isDigit, Bool.and_eq_true, decide_eq_true_eq] at hdigit
  exact lt_of_lt_of_le (by decide) hdigit.1

theorem padded_ne {w m n : ℕ} (h : m ≠ n) : Search.padded w m ≠ Search.padded w n := fun heq =>
  h (by rw [← Search.number_padded w m, heq, Search.number_padded])

/-- With the rest of a key behind them, the texts of two years are in order as they are alone. -/
theorem formatYear_append_lt_iff {y z : ℤ} (h : y < z) (u v : Text) :
    formatYear y ++ '-' :: u < formatYear z ++ '-' :: v ↔ formatYear y < formatYear z := by
  have hdash {w n : ℕ} : ∀ a ∈ Search.padded w n, '-' < a := fun a => dash_lt_of_mem_padded
  unfold formatYear
  by_cases hy : 0 ≤ y
  · rw [if_pos hy, if_pos (hy.trans h.le)]
    exact append_sep_lt_iff hdash hdash (padded_ne (by omega))
  rw [if_neg hy]
  by_cases hz : 0 ≤ z
  · -- a sign comes before a digit
    rw [if_pos hz]
    cases hp : Search.padded 4 z.toNat with
    | nil => exact absurd (List.append_eq_nil_iff.mp hp).2 Nat.toDigits_ne_nil
    | cons a s =>
      have ha : '-' < a := dash_lt_of_mem_padded (hp ▸ List.mem_cons_self)
      exact iff_of_true (List.cons_lt_cons_iff.mpr (.inl ha)) (List.cons_lt_cons_iff.mpr (.inl ha))
  · rw [if_neg hz, List.cons_append, List.cons_append, List.cons_lt_cons_iff,
      List.cons_lt_cons_iff]
    refine or_congr_right (and_congr_right fun _ => ?_)
    exact append_sep_lt_iff hdash hdash (padded_ne (by omega))

theorem formatYear_lt {y z : ℤ} (hy : 0 ≤ y) (h : y < z) (hz : z ≤ 9999) :
    formatYear y < formatYear z := by
  unfold formatYear
  rw [if_pos hy, if_pos (hy.trans h.le)]
  exact padded_lt (by decide) (by omega) (by omega)

/-- **The key of a later date is later**, if the text of a later year is. -/
theorem formatKey_lt_iff {d e : Date} (tod : Time) (h : d < e) : formatKey d tod < formatKey e tod ↔
    (d.year < e.year → formatYear d.year < formatYear e.year) := by
  have hd := d.month_spec
  have he := e.month_spec
  have hday := e.day_le
  unfold formatKey
  rw [String.lt_iff_toList_lt, String.toList_ofList, String.toList_ofList]
  rcases Date.name_lt h with hlt | ⟨heq, hlt⟩
  · rw [formatYear_append_lt_iff hlt]
    exact ⟨fun h _ => h, fun h => h hlt⟩
  refine iff_of_true ?_ fun hyear => absurd hyear (by omega)
  refine append_lt_append (by rw [heq]) (.inr ⟨by rw [heq], cons_lt_cons (append_lt_append ?_ ?_)⟩)
  · rw [Search.length_padded (by decide) (by omega), Search.length_padded (by decide) (by omega)]
  rcases hlt with hlt | ⟨heq, hlt⟩
  · exact .inl (padded_lt (by decide) hlt (by omega))
  refine .inr ⟨by rw [heq], cons_lt_cons (append_lt_append ?_ (.inl ?_))⟩
  · rw [Search.length_padded (by decide) (by omega), Search.length_padded (by decide) (by omega)]
  · exact padded_lt (by decide) hlt (by omega)

section Series

variable {L : Library} (rrule : RRule L) (anchor : DateTime) (tz : L.Zone)

/-! ### The series -/

/-- The occurrence on a date, if the anchor is no later and the calendar has an instant for it. -/
def occurrenceOn (d : Date) : Option Occurrence :=
  if d < anchor.date then none
  else (L.timestamp tz ⟨d, anchor.time⟩).map fun inst =>
    ⟨formatKey d anchor.time, ⟨d, anchor.time⟩, inst⟩

/-- The dates of some periods, one after another. -/
def datesOf (p n : ℕ) : List Date := (List.range' p n).flatMap (selected rrule anchor.date)

def placed (p n : ℕ) : List Occurrence :=
  (datesOf rrule anchor p n).filterMap (occurrenceOn anchor tz)

/-- Whether an occurrence is within the rule's last time. -/
def withinUntil (o : Occurrence) : Bool := beforeUntil rrule tz o.civil o.at_

/-- The occurrences of a rule, before they are counted. -/
def series : List Occurrence :=
  if !rrule.isUnderstood || rrule.untilUnknown then []
  else (placed rrule anchor tz 0 maxPeriods).takeWhile (withinUntil rrule tz)

/-- Of the rule's occurrences in a window, a later year has a later text. -/
def YearsInOrder (window : Timestamp × Timestamp) : Prop :=
  ((rrule.count.elim (series rrule anchor tz) (series rrule anchor tz).take).filter
    (inWindow Occurrence.at_ window.1 window.2)).Pairwise fun o o' =>
      o.civil.date.year < o'.civil.date.year →
        formatYear o.civil.date.year < formatYear o'.civil.date.year

/-- The occurrences a scan takes in that has taken in so many. -/
def takeIn : ℕ → List Occurrence → List Occurrence
  | _, [] => []
  | seen, o :: os =>
    if withinUntil rrule tz o && !rrule.count.any (· ≤ seen) then o :: takeIn (seen + 1) os else []

variable {rrule anchor tz}

theorem takeIn_cons {seen : ℕ} {o : Occurrence} {os : List Occurrence} :
    takeIn rrule tz seen (o :: os) =
      if withinUntil rrule tz o && !rrule.count.any (· ≤ seen) then
        o :: takeIn rrule tz (seen + 1) os
      else [] := rfl

theorem takeIn_subset {seen : ℕ} {os : List Occurrence} : takeIn rrule tz seen os ⊆ os := by
  induction os generalizing seen with
  | nil => exact List.Subset.refl _
  | cons o os ih =>
    unfold takeIn
    split
    · exact List.cons_subset_cons _ ih
    · exact List.nil_subset _

theorem length_takeIn_le {seen : ℕ} {os : List Occurrence} :
    (takeIn rrule tz seen os).length ≤ os.length := by
  induction os generalizing seen with
  | nil => exact le_rfl
  | cons o os ih =>
    unfold takeIn
    split
    · exact Nat.succ_le_succ ih
    · exact Nat.zero_le _

theorem takeIn_append {seen : ℕ} {os os' : List Occurrence} :
    takeIn rrule tz seen (os ++ os') =
      if (takeIn rrule tz seen os).length < os.length then takeIn rrule tz seen os
      else takeIn rrule tz seen os ++ takeIn rrule tz (seen + os.length) os' := by
  induction os generalizing seen with
  | nil => rfl
  | cons o os ih =>
    rw [List.cons_append, takeIn_cons, takeIn_cons]
    split
    · rw [ih, List.length_cons, List.length_cons,
        show seen + (os.length + 1) = seen + 1 + os.length by omega]
      simp only [Nat.add_lt_add_iff_right]
      split <;> rfl
    · simp

/-- **The last time and the count** leave a first part. -/
theorem takeIn_eq {seen : ℕ} {os : List Occurrence} :
    takeIn rrule tz seen os = rrule.count.elim (os.takeWhile (withinUntil rrule tz)) fun c =>
      (os.takeWhile (withinUntil rrule tz)).take (c - seen) := by
  induction os generalizing seen with
  | nil => cases rrule.count <;> simp [takeIn]
  | cons o os ih =>
    unfold takeIn
    cases hu : withinUntil rrule tz o with
    | false =>
      rw [List.takeWhile_cons_of_neg (by simp [hu])]
      cases rrule.count <;> simp
    | true =>
      rw [List.takeWhile_cons_of_pos hu, ih]
      cases hc : rrule.count with
      | none => simp
      | some c =>
        simp only [Option.any_some, Option.elim_some, Bool.true_and, Bool.not_eq_true',
          decide_eq_false_iff_not, not_le]
        split
        next hlt =>
          rw [show c - seen = c - (seen + 1) + 1 by omega, List.take_succ_cons]
        next hge => rw [show c - seen = 0 by omega, List.take_zero]

/-! ### The scan -/

variable {window : Timestamp × Timestamp}

/-- **Going through the dates of a period.** -/
theorem visit_eq {ds : List Date} {s : Scan} (hs : s.done = false) :
    let os := ds.filterMap (occurrenceOn anchor tz)
    let taken := takeIn rrule tz s.countSeen os
    visit rrule anchor tz window ds s =
      ⟨s.out ++ taken.filter (inWindow Occurrence.at_ window.1 window.2),
        s.countSeen + taken.length, decide (taken.length < os.length)⟩ := by
  induction ds generalizing s with
  | nil =>
    cases s
    simp_all [visit, takeIn]
  | cons d ds ih =>
    dsimp only at ih ⊢
    unfold visit
    split
    next hlt =>
      have hnone : occurrenceOn anchor tz d = none := if_pos hlt
      rw [ih hs, List.filterMap_cons_none hnone]
    next hge =>
      cases hinst : L.timestamp tz ⟨d, anchor.time⟩ with
      | none =>
        have hnone : occurrenceOn anchor tz d = none := by
          rw [occurrenceOn, if_neg hge, hinst]
          rfl
        rw [List.filterMap_cons_none hnone]
        exact ih hs
      | some inst =>
        have hsome : occurrenceOn anchor tz d =
            some ⟨formatKey d anchor.time, ⟨d, anchor.time⟩, inst⟩ := by
          rw [occurrenceOn, if_neg hge, hinst]
          rfl
        rw [List.filterMap_cons_some hsome]
        unfold takeIn withinUntil
        dsimp only
        cases hu : beforeUntil rrule tz ⟨d, anchor.time⟩ inst with
        | false => simp
        | true =>
          cases hc : rrule.count.any (· ≤ s.countSeen) with
          | true => simp
          | false =>
            simp only [Bool.not_true, Bool.false_eq_true, if_false, Bool.not_false, Bool.and_true,
              if_true]
            rw [ih (by simpa using hs), List.length_cons, List.length_cons]
            have hw : inWindow Occurrence.at_ window.1 window.2
                ⟨formatKey d anchor.time, ⟨d, anchor.time⟩, inst⟩ ↔
                  window.1 ≤ inst ∧ inst < window.2 := inWindow_iff
            have hcount : ∀ n, s.countSeen + 1 + n = s.countSeen + (n + 1) := by omega
            simp only [hcount, Nat.add_lt_add_iff_right, List.filter_cons, hw]
            split <;> simp

theorem placed_succ (p n : ℕ) : placed rrule anchor tz p (n + 1) =
    (selected rrule anchor.date p).filterMap (occurrenceOn anchor tz) ++
      placed rrule anchor tz (p + 1) n := by
  unfold placed datesOf
  rw [List.range'_succ, List.flatMap_cons, List.filterMap_append]

theorem mem_placed {p n : ℕ} {o : Occurrence} : o ∈ placed rrule anchor tz p n ↔
    ∃ q, p ≤ q ∧ q < p + n ∧ ∃ d ∈ selected rrule anchor.date q,
      occurrenceOn anchor tz d = some o := by
  unfold placed datesOf
  simp only [List.mem_filterMap, List.mem_flatMap, List.mem_range'_1]
  constructor
  · rintro ⟨d, ⟨q, ⟨hpq, hq⟩, hd⟩, ho⟩
    exact ⟨q, hpq, hq, d, hd, ho⟩
  · rintro ⟨q, hpq, hq, d, hd, ho⟩
    exact ⟨d, ⟨q, ⟨hpq, hq⟩, hd⟩, ho⟩

theorem occurrenceOn_eq_some {d : Date} {o : Occurrence} : occurrenceOn anchor tz d = some o ↔
    anchor.date ≤ d ∧ o.civil = ⟨d, anchor.time⟩ ∧ o.key = formatKey d anchor.time ∧
      L.timestamp tz ⟨d, anchor.time⟩ = some o.at_ := by
  unfold occurrenceOn
  split
  next hlt => simp [hlt]
  next hge =>
    rw [Option.map_eq_some_iff]
    constructor
    · rintro ⟨inst, hinst, rfl⟩
      exact ⟨not_lt.mp hge, rfl, rfl, hinst⟩
    · rintro ⟨-, hcivil, hkey, hinst⟩
      refine ⟨o.at_, hinst, ?_⟩
      cases o
      cases hcivil
      cases hkey
      rfl

/-- **A scan** gives what a window has of the occurrences of its periods, and of any more. -/
theorem scan_eq (hz : ZoneLaws L tz) {fuel p n : ℕ} {s : Scan} {out : List Occurrence}
    (hs : s.done = false) (hn : fuel ≤ n) (h : scan rrule anchor tz window fuel p s = .ok out) :
    out = s.out ++ (takeIn rrule tz s.countSeen (placed rrule anchor tz p n)).filter
      (inWindow Occurrence.at_ window.1 window.2) := by
  induction fuel generalizing p n s with
  | zero => cases h
  | succ fuel ih =>
    unfold scan at h
    split at h
    next hnone =>
      -- no period of the calendar is left
      have hnil : placed rrule anchor tz p n = [] := by
        refine List.eq_nil_iff_forall_not_mem.mpr fun o ho => ?_
        obtain ⟨q, hpq, -, d, hd, -⟩ := mem_placed.mp ho
        rw [selected_eq_nil hpq hnone] at hd
        cases hd
      rw [hnil]
      simpa [takeIn] using (Except.ok.inj h).symm
    next ps hps =>
      split at h
      next hlate =>
        -- what is left lies past the window
        have hnil : (takeIn rrule tz s.countSeen (placed rrule anchor tz p n)).filter
            (inWindow Occurrence.at_ window.1 window.2) = [] := by
          refine filter_window_eq_nil fun o ho => ?_
          obtain ⟨q, hpq, -, d, hd, hocc⟩ := mem_placed.mp (takeIn_subset ho)
          obtain ⟨-, -, -, hinst⟩ := occurrenceOn_eq_some.mp hocc
          by_contra hlt
          have hle := hz.le_winEndDate hinst (not_le.mp hlt)
          exact not_lt.mpr ((start_le_of_mem_selected hps hpq hd).trans hle) hlate
        rw [hnil, List.append_nil]
        exact (Except.ok.inj h).symm
      next hin =>
        obtain ⟨n, rfl⟩ : ∃ m, n = m + 1 := ⟨n - 1, by omega⟩
        rw [visit_eq hs] at h
        rw [placed_succ, takeIn_append]
        dsimp only at h
        split at h
        next hstop =>
          rw [if_pos (of_decide_eq_true hstop)]
          exact (Except.ok.inj h).symm
        next hgo =>
          have hge := not_lt.mp (fun hlt => hgo (decide_eq_true hlt))
          rw [ih (n := n) (decide_eq_false (not_lt.mpr hge)) (by omega) h, if_neg (not_lt.mpr hge),
            List.filter_append, ← List.append_assoc, Nat.le_antisymm length_takeIn_le hge]

/-- **An expansion is a stretch of the series**, of as many occurrences as the rule counts. -/
theorem expand_eq (hz : ZoneLaws L tz) {out : List Occurrence}
    (h : expand rrule anchor tz window = .ok out) :
    out = (rrule.count.elim (series rrule anchor tz) (series rrule anchor tz).take).filter
      (inWindow Occurrence.at_ window.1 window.2) := by
  unfold expand at h
  unfold series
  split at h
  next hnot =>
    rw [if_pos hnot]
    cases rrule.count <;> simpa using (Except.ok.inj h).symm
  next hok =>
    rw [if_neg hok, scan_eq hz rfl le_rfl h, List.nil_append, takeIn_eq]
    cases rrule.count <;> rfl

/-! ### The order of a series -/

theorem datesOf_sorted (p n : ℕ) : (datesOf rrule anchor p n).Pairwise (· < ·) := by
  unfold datesOf
  rw [List.pairwise_flatMap]
  refine ⟨fun _ _ => selected_sorted, ?_⟩
  have hrange : (List.range' p n).Pairwise (· < ·) := List.pairwise_lt_range'
  exact hrange.imp fun hlt d hd e he => lt_of_mem_selected hlt hd he

theorem placed_sorted (p n : ℕ) :
    (placed rrule anchor tz p n).Pairwise fun o o' => o.civil < o'.civil := by
  unfold placed
  rw [List.pairwise_filterMap]
  refine (datesOf_sorted p n).imp fun hlt o ho o' ho' => ?_
  rw [(occurrenceOn_eq_some.mp ho).2.1, (occurrenceOn_eq_some.mp ho').2.1]
  exact DateTime.mk_lt_mk.mpr hlt

theorem series_sublist :
    (series rrule anchor tz).Sublist (placed rrule anchor tz 0 maxPeriods) := by
  unfold series
  split
  · exact List.nil_sublist _
  · exact (List.takeWhile_prefix _).sublist

theorem series_sorted : (series rrule anchor tz).Pairwise fun o o' => o.civil < o'.civil :=
  (placed_sorted 0 maxPeriods).sublist series_sublist

theorem mem_series {o : Occurrence} (h : o ∈ series rrule anchor tz) :
    ∃ d, occurrenceOn anchor tz d = some o := by
  obtain ⟨-, -, -, d, -, ho⟩ := mem_placed.mp (series_sublist.subset h)
  exact ⟨d, ho⟩

theorem series_mono (hz : ZoneLaws L tz) :
    (series rrule anchor tz).Pairwise fun o o' => o.at_ ≤ o'.at_ := by
  refine series_sorted.imp_of_mem fun ho ho' hlt => ?_
  obtain ⟨d, hd⟩ := mem_series ho
  obtain ⟨d', hd'⟩ := mem_series ho'
  obtain ⟨-, hcivil, -, hinst⟩ := occurrenceOn_eq_some.mp hd
  obtain ⟨-, hcivil', -, hinst'⟩ := occurrenceOn_eq_some.mp hd'
  rw [hcivil, hcivil', DateTime.mk_lt_mk] at hlt
  exact hz.mono hlt.le hinst hinst'

/-- Two occurrences of a series have their keys in order exactly if their years have. -/
theorem key_lt_iff {o o' : Occurrence} (ho : o ∈ series rrule anchor tz)
    (ho' : o' ∈ series rrule anchor tz) (hlt : o.civil < o'.civil) : o.key < o'.key ↔
      (o.civil.date.year < o'.civil.date.year →
        formatYear o.civil.date.year < formatYear o'.civil.date.year) := by
  obtain ⟨d, hd⟩ := mem_series ho
  obtain ⟨d', hd'⟩ := mem_series ho'
  obtain ⟨-, hcivil, hkey, -⟩ := occurrenceOn_eq_some.mp hd
  obtain ⟨-, hcivil', hkey', -⟩ := occurrenceOn_eq_some.mp hd'
  rw [hcivil, hcivil', DateTime.mk_lt_mk] at hlt
  rw [hkey, hkey', hcivil, hcivil']
  exact formatKey_lt_iff _ hlt

theorem year_nonneg (hy : 0 ≤ anchor.date.year) {o : Occurrence}
    (ho : o ∈ series rrule anchor tz) : 0 ≤ o.civil.date.year := by
  obtain ⟨d, hd⟩ := mem_series ho
  obtain ⟨hle, hcivil, -⟩ := occurrenceOn_eq_some.mp hd
  rw [hcivil]
  exact hy.trans (Date.year_mono hle)

theorem counted_sublist : (rrule.count.elim (series rrule anchor tz)
    (series rrule anchor tz).take).Sublist (series rrule anchor tz) := by
  cases rrule.count with
  | none => exact List.Sublist.refl _
  | some c => exact (List.take_prefix _ _).sublist

theorem expand_sublist (hz : ZoneLaws L tz) {out : List Occurrence}
    (h : expand rrule anchor tz window = .ok out) : out.Sublist (series rrule anchor tz) := by
  rw [expand_eq hz h]
  exact List.filter_sublist.trans counted_sublist

end Series

/-! ### In UTC -/

theorem zoneLaws_utc : ZoneLaws utcLibrary () where
  mono := by
    intro d e t i j hle hi hj
    have hi := utcTimestamp_eq_some.mp hi
    have hj := utcTimestamp_eq_some.mp hj
    have hle := DateTime.le_def.mp (DateTime.mk_le_mk (t := t).mpr hle)
    show i.ns ≤ j.ns
    omega
  forward := by
    intro a i hi
    have hi := utcTimestamp_eq_some.mp hi
    rw [DateTime.le_def]
    show a.ns ≤ (utcCivil i).ns
    rw [ns_utcCivil]
    omega
  back := by
    intro i j hle
    have hle : i.ns ≤ j.ns := hle
    show (utcCivil i).date.num ≤ (utcCivil j).date.num + 1
    unfold utcCivil
    dsimp only
    omega

/-- A rule of nothing but a frequency. -/
def RRule.every (freq : Frequency) : RRule utcLibrary where
  freq := freq
  interval := 1
  byDay := []
  byMonthDay := []
  byMonth := []
  bySetPos := []
  count := none
  until_ := none
  wkst := none

/-- Nine o'clock on the first of January of a year. -/
def nineOnNewYear (y : ℤ) (h : -9999 ≤ y ∧ y ≤ 9999) : DateTime where
  date := ⟨Calendar.yearStart y, by
    have hlo := Calendar.yearStart_mono h.1
    have hnext := Calendar.yearStart_add y 1
    rw [Int.natCast_one] at hnext
    have hhi := Calendar.yearStart_mono (show y + 1 ≤ 10000 by omega)
    unfold Calendar.minDay Calendar.maxDay
    omega⟩
  time := ⟨32400 * 10 ^ 9, by decide⟩

/-- The start of a day in UTC, counted from the epoch. -/
def startOfDay (n : ℤ) (h : -4000000 ≤ n ∧ n ≤ 2000000) : Timestamp :=
  ⟨n * (86400 * 10 ^ 9), by
    unfold Rows.minNanosecond Rows.maxNanosecond
    omega⟩

/-! ### Windows -/

/-- **An expansion does not depend on its window.** Of two windows side by side the second goes on
where the first ends, and both together are their window; what is given is in the order of its civil
times, and of its keys, which are those of the civil times, exactly if the years' texts are in
order, as from the year 0 on; and whether an occurrence is given depends on its place in the series,
its instant and the count alone. -/
theorem expand_windows {L : Library} {tz : L.Zone} (hz : ZoneLaws L tz) (rrule : RRule L)
    (anchor : DateTime) :
    (∀ {a b c : Timestamp} {ab bc ac : List Occurrence}, a ≤ b → b ≤ c →
      expand rrule anchor tz (a, b) = .ok ab → expand rrule anchor tz (b, c) = .ok bc →
        expand rrule anchor tz (a, c) = .ok ac → ac = ab ++ bc) ∧
    (∀ {window : Timestamp × Timestamp} {out : List Occurrence},
      expand rrule anchor tz window = .ok out →
        out.Pairwise (fun o o' => o.civil < o'.civil) ∧
        (out.Pairwise (fun o o' => o.key < o'.key) ↔ YearsInOrder rrule anchor tz window) ∧
        (0 ≤ anchor.date.year → out.Pairwise fun o o' => o.key < o'.key) ∧
        ∀ o ∈ out, o.key = formatKey o.civil.date o.civil.time) ∧
    ∀ (count : Option ℕ) {window : Timestamp × Timestamp} {out : List Occurrence},
      expand { rrule with count := count } anchor tz window = .ok out →
        ∀ o, o ∈ out ↔ ∃ i, (series rrule anchor tz)[i]? = some o ∧ (∀ c, count = some c → i < c) ∧
          window.1 ≤ o.at_ ∧ o.at_ < window.2 := by
  refine ⟨?_, ?_, ?_⟩
  · intro a b c ab bc ac hab hbc h h' h''
    rw [expand_eq hz h, expand_eq hz h', expand_eq hz h'']
    exact filter_window ((series_mono hz).sublist counted_sublist) hab hbc
  · intro window out h
    have hsub := expand_sublist hz h
    have hsorted := series_sorted.sublist hsub
    have hkeys : out.Pairwise (fun o o' => o.key < o'.key) ↔
        YearsInOrder rrule anchor tz window := by
      rw [YearsInOrder, ← expand_eq hz h]
      constructor <;> intro hpairs
      · exact (hsorted.and hpairs).imp_of_mem fun ho ho' hlt =>
          (key_lt_iff (hsub.subset ho) (hsub.subset ho') hlt.1).mp hlt.2
      · exact (hsorted.and hpairs).imp_of_mem fun ho ho' hlt =>
          (key_lt_iff (hsub.subset ho) (hsub.subset ho') hlt.1).mpr hlt.2
    refine ⟨hsorted, hkeys, fun hy => hkeys.mpr ?_, fun o ho => ?_⟩
    · rw [YearsInOrder, ← expand_eq hz h]
      refine hsorted.imp_of_mem fun ho ho' _ hlt => ?_
      exact formatYear_lt (year_nonneg hy (hsub.subset ho)) hlt (Date.year_range _).2
    obtain ⟨d, hd⟩ := mem_series (hsub.subset ho)
    obtain ⟨-, hcivil, hkey, -⟩ := occurrenceOn_eq_some.mp hd
    rw [hkey, hcivil]
  · intro count window out h o
    have hseries : series { rrule with count := count } anchor tz = series rrule anchor tz := rfl
    rw [expand_eq hz h, hseries, List.mem_filter, inWindow_iff]
    cases count with
    | none => simp [List.mem_iff_getElem?]
    | some c =>
      simp only [Option.elim_some, List.mem_iff_getElem?, List.getElem?_take, Option.some.injEq,
        forall_eq']
      constructor
      · rintro ⟨⟨i, hi⟩, hw⟩
        split at hi
        next hlt => exact ⟨i, hi, hlt, hw⟩
        next => cases hi
      · rintro ⟨i, hi, hlt, hw⟩
        exact ⟨⟨i, by rwa [if_pos hlt]⟩, hw⟩

theorem exists_of_isOk {ε α : Type} {e : Except ε α} (h : e.isOk) : ∃ a, e = .ok a := by
  cases e with
  | error => cases h
  | ok a => exact ⟨a, rfl⟩

/-- What a daily rule from New Year 1970 on gives between two days. -/
def newYearDaily (a c : ℤ) (ha : -4000000 ≤ a ∧ a ≤ 2000000) (hc : -4000000 ≤ c ∧ c ≤ 2000000) :
    Except ExpandError (List Occurrence) :=
  expand (.every .daily) (nineOnNewYear 1970 (by decide)) () (startOfDay a ha, startOfDay c hc)

theorem expand_windows_daily :
    ∃ ab bc ac : List Occurrence, newYearDaily 0 1 (by decide) (by decide) = .ok ab ∧
      newYearDaily 1 3 (by decide) (by decide) = .ok bc ∧
      newYearDaily 0 3 (by decide) (by decide) = .ok ac ∧
      ac = ab ++ bc ∧ ac.Pairwise (fun o o' => o.key < o'.key) ∧
      ∀ o ∈ ab, ∃ i : ℕ,
        (series (RRule.every .daily) (nineOnNewYear 1970 (by decide)) ())[i]? = some o := by
  obtain ⟨ab, hab⟩ := exists_of_isOk (e := newYearDaily 0 1 (by decide) (by decide))
    (by decide +kernel)
  obtain ⟨bc, hbc⟩ := exists_of_isOk (e := newYearDaily 1 3 (by decide) (by decide))
    (by decide +kernel)
  obtain ⟨ac, hac⟩ := exists_of_isOk (e := newYearDaily 0 3 (by decide) (by decide))
    (by decide +kernel)
  obtain ⟨happend, hsorted, hplace⟩ :=
    expand_windows zoneLaws_utc (.every .daily) (nineOnNewYear 1970 (by decide))
  refine ⟨ab, bc, ac, hab, hbc, hac, happend (by decide) (by decide) hab hbc hac,
    (hsorted hac).2.2.1 (by decide +kernel), fun o ho => ?_⟩
  obtain ⟨i, hi, -⟩ := (hplace none hab o).mp ho
  exact ⟨i, hi⟩

/-- Before the year 0 a later key may be an earlier text: two years of a yearly rule. -/
theorem not_expand_windows :
    ¬ ∀ {L : Library} {tz : L.Zone}, ZoneLaws L tz → ∀ (rrule : RRule L) (anchor : DateTime)
      (window : Timestamp × Timestamp) (out : List Occurrence),
        expand rrule anchor tz window = .ok out → out.Pairwise fun o o' => o.key < o'.key := by
  intro h
  obtain ⟨out, hout⟩ := exists_of_isOk (e := expand (.every .yearly)
    (nineOnNewYear (-2) (by decide)) () (startOfDay (-720500) (by decide),
      startOfDay (-719600) (by decide))) (by decide +kernel)
  have hkeys : (expand (.every .yearly) (nineOnNewYear (-2) (by decide)) ()
      (startOfDay (-720500) (by decide), startOfDay (-719600) (by decide))).toOption.map
        (List.map Occurrence.key) = some ["-002-01-01T09:00", "-001-01-01T09:00"] := by
    decide +kernel
  have hlt := h zoneLaws_utc _ _ _ out hout
  rw [hout] at hkeys
  have hout' : out.map Occurrence.key = ["-002-01-01T09:00", "-001-01-01T09:00"] :=
    Option.some.inj hkeys
  rw [← List.pairwise_map (f := Occurrence.key) (R := (· < ·)), hout'] at hlt
  exact absurd hlt (by decide +kernel)

end Routine

end Sunrise
