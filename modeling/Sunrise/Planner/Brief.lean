import Sunrise.Planner.Partition

/-!
# The daily briefs

The morning brief of a date is so long after its wake time and the evening plan so long before its
sleep time, and a date without a schedule has both at hours of their own. The next brief is looked
for from the date before the planner day of now on, and the first of four dates whose brief is not
over is taken.

Dates need not have their briefs in their order: a window may start late in the evening, and what a
brief is moved by only moves those of dates with a schedule. Nor need the next brief be that of one
of the four dates. The brief found is then not the next one.

* `nextBrief` — the search for the next.
* `nextBrief_spec` — what the search finds.
* `nextBrief_inTurn` — **the brief found is the next one whenever it is looked for exactly if the
  briefs are in turn**, as far as no two dates have theirs at one instant.
-/

namespace Sunrise

open Calendar

namespace Planner

open Calendar (Date Time)
open Routine (Library utcEpoch)
open Rows (Timestamp)

/-! ### Briefs -/

/-- Which of the two daily briefs. -/
inductive Brief where
  | morning
  | evening
deriving DecidableEq

/-- When it is on a date without a schedule: at eight in the morning or in the evening. -/
def Brief.unscheduledTime : Brief → Time
  | .morning => ⟨8 * (3600 * 10 ^ 9), by decide⟩
  | .evening => ⟨20 * (3600 * 10 ^ 9), by decide⟩

/-- The instant so many seconds later, if the calendar has it. -/
def checkedAdd (i : Timestamp) (secs : ℤ) : Option Timestamp :=
  if h : Rows.minNanosecond ≤ i.ns + secs * 10 ^ 9 ∧ i.ns + secs * 10 ^ 9 ≤ Rows.maxNanosecond then
    some ⟨i.ns + secs * 10 ^ 9, h⟩
  else none

section Briefs

variable {L : Library} (s : DaySchedule) (tz : L.Zone) (which : Brief) (offset : ℤ)

def moved (date : Date) (i : Timestamp) (secs : ℤ) : Except OutOfCalendar (Option Timestamp) :=
  match checkedAdd i secs with
  | some i => .ok (some i)
  | none => .error ⟨date⟩

/-- When the brief of a date is, unless the zone skips the date. -/
def briefAt (date : Date) : Except OutOfCalendar (Option Timestamp) := do
  if ← exists_ tz date then
    match s.windowFor date, which with
    | none, _ => return some (← at_ tz date which.unscheduledTime)
    | some w, .morning => moved date (← at_ tz date w.wake) offset
    | some _, .evening => moved date (← end_ s tz date) (-offset)
  else return none

/-- The first of so many dates from one on whose brief is not over. -/
def nextBriefFrom (now : Timestamp) : ℕ → Date → Except OutOfCalendar (Option (Date × Timestamp))
  | 0, _ => .ok none
  | n + 1, d => do
    match ← briefAt s tz which offset d with
    | some i => if now ≤ i then return some (d, i) else nextBriefFrom now n (← next d)
    | none => nextBriefFrom now n (← next d)

def nextBrief (now : Timestamp) : Except OutOfCalendar (Option (Date × Timestamp)) := do
  nextBriefFrom s tz which offset now 4 (← prev (← plannerDate s tz now))

/-! ### What is searched -/

def Due (now : Timestamp) (d : Date) (i : Timestamp) : Prop :=
  briefAt s tz which offset d = .ok (some i) ∧ now ≤ i

/-- **The next brief**: that of a date, which is not over, and no date has one between. -/
structure IsNext (now : Timestamp) (d : Date) (i : Timestamp) : Prop where
  due : Due s tz which offset now d i
  first : ∀ {e j}, briefAt s tz which offset e = .ok (some j) → ¬ (now ≤ j ∧ j < i)

/-- Away from the ends of a range of dates the brief found is always the next. -/
def AlwaysNext (lo hi : Date) : Prop :=
  ∀ now, lo.num + 12 ≤ (L.civil tz now).date.num → (L.civil tz now).date.num + 12 ≤ hi.num →
    ∃ d i, nextBrief s tz which offset now = .ok (some (d, i)) ∧ IsNext s tz which offset now d i

/-- **The briefs are in turn**, from one date to another. -/
structure InTurn (lo hi : Date) : Prop where
  order : ∀ {d e i j}, lo ≤ d → d ≤ e → e ≤ hi → briefAt s tz which offset d = .ok (some i) →
    briefAt s tz which offset e = .ok (some j) → i ≤ j
  /-- A brief is before the second planner day after that of its date starts. -/
  past : ∀ {d e i f}, lo ≤ d → d.num + 2 ≤ e.num → e ≤ hi →
    briefAt s tz which offset d = .ok (some i) → boundary s tz e = .ok f → i < f
  /-- When a planner day ends, a date up to the second after it has its brief left. -/
  left : ∀ {p f g}, lo ≤ p → p ≤ hi → dayBounds s tz p = .ok (f, g) → f < g →
    ∃ d i, d.num ≤ p.num + 2 ∧ briefAt s tz which offset d = .ok (some i) ∧ g.ns ≤ i.ns + 1

/-- A zone whose clock is less than 26 hours off UTC. -/
structure NearUtc : Prop where
  civil : ∀ t, midnightNs (L.civil tz t).date - utcEpoch - hours 26 ≤ t.ns ∧
    t.ns < midnightNs (L.civil tz t).date - utcEpoch + hours 50
  placed : ∀ {d τ i}, at_ tz d τ = .ok i → midnightNs d - utcEpoch - hours 26 ≤ i.ns ∧
    i.ns < midnightNs d - utcEpoch + hours 50

end Briefs

section Search

variable {L : Library} {s : DaySchedule} {tz : L.Zone} {which : Brief} {offset : ℤ}
variable {now i f : Timestamp} {lo hi p d e : Date}

variable (s tz which offset now) in
/-- **What the search finds**: nothing, if no date searched has a brief to come, and else the first
that has. -/
theorem nextBriefFrom_spec {n : ℕ} (hle : d.num + n ≤ maxDay)
    (hbrief : ∀ {c : Date}, d.num ≤ c.num → c.num < d.num + n →
      ∃ o, briefAt s tz which offset c = .ok o) :
    (nextBriefFrom s tz which offset now n d = .ok none ∧
      ∀ {c k}, d.num ≤ c.num → c.num < d.num + n → ¬ Due s tz which offset now c k) ∨
    ∃ e i, nextBriefFrom s tz which offset now n d = .ok (some (e, i)) ∧ d.num ≤ e.num ∧
      e.num < d.num + n ∧ Due s tz which offset now e i ∧
      ∀ {c k}, d.num ≤ c.num → c < e → ¬ Due s tz which offset now c k := by
  induction n generalizing d with
  | zero => exact .inl ⟨rfl, fun hge hlt => by omega⟩
  | succ n ih =>
    obtain ⟨o, ho⟩ := hbrief (c := d) le_rfl (by omega)
    by_cases hdue : ∃ i, o = some i ∧ now ≤ i
    · obtain ⟨i, rfl, hi⟩ := hdue
      refine .inr ⟨d, i, Result.bind_eq_ok_iff.mpr ⟨some i, ho, if_pos hi⟩, le_rfl, by omega,
        ⟨ho, hi⟩, fun hge hlt => absurd hge ?_⟩
      rw [Date.lt_def] at hlt
      omega
    · -- the search goes on with the next date
      have hnot : ∀ {k}, ¬ Due s tz which offset now d k := by
        rintro k ⟨hk, hle⟩
        rw [ho] at hk
        exact hdue ⟨k, Except.ok.inj hk, hle⟩
      obtain ⟨c, hc⟩ : ∃ c : Date, c.num = d.num + 1 :=
        ⟨⟨d.num + 1, by have := d.inRange; omega⟩, rfl⟩
      have hstep : nextBriefFrom s tz which offset now (n + 1) d =
          nextBriefFrom s tz which offset now n c := by
        have hnext : next d = .ok c := next_eq_ok.mpr hc
        conv_lhs => unfold nextBriefFrom
        rw [ho, hnext]
        cases o with
        | none => rfl
        | some i => exact if_neg fun hi => hdue ⟨i, rfl, hi⟩
      have hdate : ∀ {b : Date}, d.num ≤ b.num → b = d ∨ c.num ≤ b.num := by
        intro b hb
        rcases hb.lt_or_eq with hlt | heq
        · exact .inr (by omega)
        · exact .inl (Date.ext_num heq.symm)
      rw [hstep]
      rcases ih (d := c) (by omega) (fun hge hlt => hbrief (by omega) (by omega)) with
        ⟨hok, hnone⟩ | ⟨e, i, hok, hge, hlt, hdue, hfirst⟩
      · refine .inl ⟨hok, fun {b k} hge hlt => ?_⟩
        rcases hdate hge with rfl | hge
        · exact hnot
        · exact hnone hge (by omega)
      · refine .inr ⟨e, i, hok, by omega, by omega, hdue, fun {b k} hge hlt => ?_⟩
        rcases hdate hge with rfl | hge
        · exact hnot
        · exact hfirst hge hlt

theorem exists_moved (hz : NearUtc tz) {τ : Time} (secs : ℤ)
    (hat : at_ tz e τ = .ok i) (hge : minDay + 5 ≤ e.num)
    (hle : e.num ≤ maxDay - 5) (hsecs : -86400 ≤ secs) (hsecs' : secs ≤ 86400) :
    ∃ j, moved d i secs = .ok (some j) := by
  have hmem := hz.placed hat
  unfold minDay yearStart at hge
  unfold maxDay yearStart at hle
  have hrange : Rows.minNanosecond ≤ i.ns + secs * 10 ^ 9 ∧
      i.ns + secs * 10 ^ 9 ≤ Rows.maxNanosecond := by
    unfold midnightNs hours utcEpoch at *
    unfold Rows.minNanosecond Rows.maxNanosecond
    omega
  refine ⟨⟨_, hrange⟩, ?_⟩
  unfold moved checkedAdd
  rw [dif_pos hrange]

theorem ns_moved {secs : ℤ} {o : Option Timestamp} (h : moved d i secs = .ok o) :
    ∃ j, o = some j ∧ j.ns = i.ns + secs * 10 ^ 9 := by
  unfold moved checkedAdd at h
  split at h
  next j hj =>
    split at hj
    · exact ⟨j, (Except.ok.inj h).symm, by rw [← Option.some.inj hj]⟩
    · cases hj
  · cases h

/-- A brief is that of a time of its date or the next, moved by no more than the offset. -/
theorem briefAt_eq_ok (h : briefAt s tz which offset d = .ok (some i)) :
    ∃ e τ k secs, d.num ≤ e.num ∧ e.num ≤ d.num + 1 ∧ at_ tz e τ = .ok k ∧
      i.ns = k.ns + secs * 10 ^ 9 ∧ |secs| ≤ |offset| := by
  obtain ⟨has, -, h⟩ := Result.bind_eq_ok_iff.mp h
  split at h
  · split at h
    · obtain ⟨k, hat, h⟩ := Result.bind_eq_ok_iff.mp h
      obtain rfl := Option.some.inj (Except.ok.inj h)
      exact ⟨d, _, k, 0, le_rfl, by omega, hat, by omega, by simp⟩
    · obtain ⟨k, hat, h⟩ := Result.bind_eq_ok_iff.mp h
      obtain ⟨j, hj, hns⟩ := ns_moved h
      obtain rfl := Option.some.inj hj
      exact ⟨d, _, k, offset, le_rfl, by omega, hat, hns, le_rfl⟩
    · obtain ⟨k, hend, h⟩ := Result.bind_eq_ok_iff.mp h
      obtain ⟨j, hj, hns⟩ := ns_moved h
      obtain rfl := Option.some.inj hj
      obtain ⟨e, τ, hde, hed, hat⟩ := end_eq_ok hend
      exact ⟨e, τ, k, -offset, hde, hed, hat, hns, (abs_neg offset).le⟩
  · cases h

/-- A brief is within a few days of its date. -/
theorem brief_mem (hz : NearUtc tz) (hoff : |offset| ≤ 86400)
    (h : briefAt s tz which offset d = .ok (some i)) :
    midnightNs d - utcEpoch - hours 50 ≤ i.ns ∧ i.ns < midnightNs d - utcEpoch + hours 98 := by
  obtain ⟨e, τ, k, secs, hde, hed, hat, hns, hsecs⟩ := briefAt_eq_ok h
  have hmem := hz.placed hat
  have habs := abs_le.mp (hsecs.trans hoff)
  unfold midnightNs hours at *
  omega

theorem exists_briefAt (hz : NearUtc tz) (h : Inland tz lo hi) (hoff : |offset| ≤ 86400)
    (hge : lo.num + 8 ≤ d.num) (hle : d.num + 8 ≤ hi.num) :
    ∃ o, briefAt s tz which offset d = .ok o := by
  have hlo := h.lo_ge
  have hhi := h.hi_le
  have habs := abs_le.mp hoff
  have hscheduled : ∀ x y : Except OutOfCalendar (Option Timestamp),
      (Except.ok true >>= fun has => if has = true then x else y) = x := fun _ _ => rfl
  unfold briefAt
  rcases h.exists_or (d := d) (by omega) (by omega) with hex | hex
  · rw [hex, hscheduled]
    cases s.windowFor d with
    | none =>
      obtain ⟨i, hat⟩ := h.exists_at (d := d) which.unscheduledTime (by omega) (by omega)
      exact ⟨some i, Result.bind_eq_ok_iff.mpr ⟨i, hat, rfl⟩⟩
    | some w =>
      cases which with
      | morning =>
        obtain ⟨i, hat⟩ := h.exists_at (d := d) w.wake (by omega) (by omega)
        obtain ⟨j, hj⟩ := exists_moved (d := d) hz offset hat (by omega) (by omega) habs.1 habs.2
        exact ⟨some j, Result.bind_eq_ok_iff.mpr ⟨i, hat, hj⟩⟩
      | evening =>
        obtain ⟨i, hend⟩ := h.exists_end (s := s) (d := d) (by omega) (by omega)
        obtain ⟨e, τ, hde, hed, hat⟩ := end_eq_ok hend
        obtain ⟨j, hj⟩ := exists_moved (d := d) hz (-offset) hat (by omega) (by omega) (by omega)
          (by omega)
        exact ⟨some j, Result.bind_eq_ok_iff.mpr ⟨i, hend, hj⟩⟩
  · rw [hex]
    exact ⟨none, rfl⟩

section Range

variable (hz : NearUtc tz) (h : Inland tz lo hi)
include hz h

variable (s which) in
/-- **What is searched**: the dates from the one before the planner day of now to the second after
it, for the first with a brief to come. -/
theorem nextBrief_spec (hoff : |offset| ≤ 86400) (hge : lo.num + 12 ≤ (L.civil tz now).date.num)
    (hle : (L.civil tz now).date.num + 12 ≤ hi.num) :
    ∃ p, plannerDate s tz now = .ok p ∧ p ≤ (L.civil tz now).date ∧
      (L.civil tz now).date.num ≤ p.num + 3 ∧
      ((nextBrief s tz which offset now = .ok none ∧
        ∀ {c k}, p.num - 1 ≤ c.num → c.num ≤ p.num + 2 →
          ¬ Due s tz which offset now c k) ∨
      ∃ e i, nextBrief s tz which offset now = .ok (some (e, i)) ∧
        p.num - 1 ≤ e.num ∧ e.num ≤ p.num + 2 ∧
        Due s tz which offset now e i ∧
        ∀ {c k}, p.num - 1 ≤ c.num → c < e →
          ¬ Due s tz which offset now c k) := by
  obtain ⟨p, hp, hple, hpge⟩ := h.exists_plannerDate (s := s) (t := now) (by omega)
    (Date.le_def.mpr (by omega))
  have hple' := Date.le_def.mp hple
  obtain ⟨q, hq, hqnum⟩ := h.exists_prev (d := p) (by omega) (by omega)
  have heq : nextBrief s tz which offset now =
      nextBriefFrom s tz which offset now 4 q := by
    unfold nextBrief
    rw [hp]
    show prev p >>= _ = _
    rw [hq]
    rfl
  have hhi := h.hi_le
  refine ⟨p, hp, hple, hpge, ?_⟩
  rw [heq, ← hqnum]
  rcases nextBriefFrom_spec s tz which offset now (n := 4) (d := q)
    (by omega) (fun hge hlt => exists_briefAt hz h hoff (by omega) (by omega)) with
    ⟨hok, hnone⟩ | ⟨e, i, hok, hge, hlt, hdue, hfirst⟩
  · exact .inl ⟨hok, fun hge hle => hnone hge (by omega)⟩
  · exact .inr ⟨e, i, hok, hge, by omega, hdue, hfirst⟩

/-- A planner day starts within a few days of its date. -/
theorem boundary_mem (hlo : lo ≤ d) (hhi : d ≤ hi)
    (hf : boundary s tz d = .ok f) :
    midnightNs d - utcEpoch - hours 50 ≤ f.ns ∧ f.ns < midnightNs d - utcEpoch + hours 98 := by
  rw [Date.le_def] at hlo hhi
  obtain ⟨e, he, hat⟩ := boundary_eq_ok.mp hf
  obtain ⟨e', he', hge, hle⟩ := h.exists_firstExisting (d := d) (by omega) (by omega)
  obtain rfl := Except.ok.inj (he.symm.trans he')
  obtain ⟨p, hp, hat⟩ := Result.bind_eq_ok_iff.mp hat
  obtain ⟨y, hy, hat⟩ := Result.bind_eq_ok_iff.mp hat
  obtain ⟨a, ha, hat⟩ := Result.bind_eq_ok_iff.mp hat
  rw [Date.le_def] at hge
  obtain ⟨p', hp', hplo, hphi⟩ := h.exists_prevExisting (d := e) (Date.le_def.mpr (by omega))
    (by omega)
  obtain rfl := Except.ok.inj (hp.symm.trans hp')
  obtain ⟨τ, haat⟩ := nominalStart_eq_ok ha
  obtain ⟨b, τ', hpb, hbp, hbat⟩ := end_eq_ok hy
  have hamem := hz.placed haat
  have hbmem := hz.placed hbat
  have hfmax : f = max a y := (Except.ok.inj hat).symm
  have hns : a.ns ≤ f.ns ∧ (f.ns = a.ns ∨ f.ns = y.ns) := by
    rw [hfmax]
    refine ⟨le_max_left a y, ?_⟩
    rcases max_choice a y with h | h
    · exact .inl (congrArg _ h)
    · exact .inr (congrArg _ h)
  unfold midnightNs hours at *
  omega

variable (hoff : |offset| ≤ 86400) (hs : Steady s tz lo hi) (hskips : SkipsOne tz)
include hoff hs hskips

/-- Where the briefs are in turn, the one found is the next. -/
theorem InTurn.alwaysNext (ht : InTurn s tz which offset lo hi) :
    AlwaysNext s tz which offset lo hi := by
  intro now hge hle
  obtain ⟨p, hp, hple, hpge, hfound⟩ := nextBrief_spec s which hz h hoff hge hle
  have hnow := hz.civil now
  rw [Date.le_def] at hple
  obtain ⟨f, g, hfg, hft, htg⟩ := hs.mem_dayBounds h hskips (by omega)
    (Date.lt_def.mpr (by omega)) hp
  have hf := (dayBounds_eq_ok.mp hfg).1
  have hplo : lo ≤ p := Date.le_def.mpr (by omega)
  have hphi : p ≤ hi := Date.le_def.mpr (by omega)
  -- no date before those searched has a brief to come
  have hearly : ∀ {c k}, Due s tz which offset now c k →
      p.num - 1 ≤ c.num := by
    rintro c k ⟨hk, hkle⟩
    by_contra hlt
    have hmem := brief_mem hz hoff hk
    have hkns : now.ns ≤ k.ns := hkle
    have hclo : lo ≤ c := by
      rw [Date.le_def]
      unfold midnightNs hours at *
      omega
    exact absurd ((ht.past hclo (by omega) hphi hk hf).trans_le hft) (not_lt.mpr hkle)
  rcases hfound with ⟨-, hnone⟩ | ⟨e, i, hok, hge', hle', hdue, hfirst⟩
  · obtain ⟨d, i, hd, hi, hgi⟩ := ht.left hplo hphi hfg (hft.trans_lt htg)
    have hdue : Due s tz which offset now d i := by
      refine ⟨hi, ?_⟩
      have htg' : now.ns < g.ns := htg
      show now.ns ≤ i.ns
      omega
    exact absurd hdue (hnone (hearly hdue) hd)
  · refine ⟨e, i, hok, hdue, fun {c j} hj hbetween => ?_⟩
    have hc := hearly ⟨hj, hbetween.1⟩
    have hec : e ≤ c := not_lt.mp fun hlt => hfirst hc hlt ⟨hj, hbetween.1⟩
    have hmem := brief_mem hz hoff hj
    have hmem' := brief_mem hz hoff hdue.1
    have hlt : j.ns < i.ns := hbetween.2
    have hchi : c ≤ hi := by
      rw [Date.le_def]
      unfold midnightNs hours at *
      omega
    exact absurd hbetween.2
      (not_lt.mpr (ht.order (Date.le_def.mpr (by omega)) hec hchi hdue.1 hj))

section Converse

variable (hnext : AlwaysNext s tz which offset lo hi)

include hnext

/-- The search at the instant of a brief starts no later than at its date, and passes no date with a
brief to come. -/
theorem AlwaysNext.found (hdistinct : ∀ {d e i}, briefAt s tz which offset d = .ok (some i) →
      briefAt s tz which offset e = .ok (some i) → d = e)
    (hlo : lo.num + 20 ≤ d.num) (hhi : d.num + 20 ≤ hi.num)
    (hi' : briefAt s tz which offset d = .ok (some i)) :
    ∃ p f g, lo ≤ p ∧ p.num + 1 ≤ hi.num ∧ dayBounds s tz p = .ok (f, g) ∧ f ≤ i ∧ i < g ∧
      p.num - 1 ≤ d.num ∧ ∀ {b j}, p.num - 1 ≤ b.num → b < d →
        ¬ Due s tz which offset i b j := by
  have hrange := h.hi_le
  have hmem := brief_mem hz hoff hi'
  have hcivil := hz.civil i
  have hge : lo.num + 12 ≤ (L.civil tz i).date.num := by
    unfold midnightNs hours at *
    omega
  have hle : (L.civil tz i).date.num + 12 ≤ hi.num := by
    unfold midnightNs hours at *
    omega
  obtain ⟨e, k, hok, hisNext⟩ := hnext _ hge hle
  -- the brief found at this instant is at it, and so this one
  have hki : k = i := le_antisymm (not_lt.mp fun hlt => hisNext.first hi' ⟨le_rfl, hlt⟩)
    hisNext.due.2
  obtain rfl := hdistinct (hki ▸ hisNext.due.1) hi'
  obtain ⟨p, hp, hple, hpge, hspec⟩ := nextBrief_spec s which hz h hoff hge hle
  rw [Date.le_def] at hple
  obtain ⟨f, g, hfg, hft, htg⟩ := hs.mem_dayBounds h hskips (by omega)
    (Date.lt_def.mpr (by omega)) hp
  rcases hspec with ⟨hnone, -⟩ | ⟨c, j, hok', hpc, -, -, hfirst⟩
  · cases hok.symm.trans hnone
  · obtain ⟨rfl, -⟩ := Prod.mk.inj (Option.some.inj (Except.ok.inj (hok.symm.trans hok')))
    exact ⟨p, f, g, Date.le_def.mpr (by omega), by omega, hfg, hft, htg, hpc, hfirst⟩

/-- At the last instant of a planner day a brief is left up to the second date after it. -/
theorem AlwaysNext.left {g : Timestamp} (hlo : lo.num + 20 ≤ p.num) (hhi : p.num + 20 ≤ hi.num)
    (hfg : dayBounds s tz p = .ok (f, g)) (hlt : f < g) :
    ∃ d i, d.num ≤ p.num + 2 ∧ briefAt s tz which offset d = .ok (some i) ∧ g.ns ≤ i.ns + 1 := by
  have hrange := h.hi_le
  have hlt' : f.ns < g.ns := hlt
  have hfge := f.inRange.1
  have hgle := g.inRange.2
  obtain ⟨now, hnow⟩ : ∃ now : Timestamp, now.ns = g.ns - 1 := ⟨⟨g.ns - 1, by omega⟩, rfl⟩
  obtain ⟨-, c, hc, hg⟩ := dayBounds_eq_ok.mp hfg
  have hcnum := next_eq_ok.mp hc
  have hmem := boundary_mem hz h (Date.le_def.mpr (by omega)) (Date.le_def.mpr (by omega)) hg
  have hcivil := hz.civil now
  have hge : lo.num + 12 ≤ (L.civil tz now).date.num := by
    unfold midnightNs hours at *
    omega
  have hle : (L.civil tz now).date.num + 12 ≤ hi.num := by
    unfold midnightNs hours at *
    omega
  have hday : plannerDate s tz now = .ok p := by
    refine ((hs.partitions h hskips).plannerDate_iff (by omega) (Date.lt_def.mpr (by omega))
      (Date.le_def.mpr (by omega)) (Date.lt_def.mpr (by omega))).mpr ⟨f, g, hfg, ?_, ?_⟩
    · show f.ns ≤ now.ns
      omega
    · show now.ns < g.ns
      omega
  obtain ⟨d, i, hok, hisNext⟩ := hnext _ hge hle
  obtain ⟨p', hp', -, -, hspec⟩ := nextBrief_spec s which hz h hoff hge hle
  obtain rfl := Except.ok.inj (hday.symm.trans hp')
  have hile : now.ns ≤ i.ns := hisNext.due.2
  rcases hspec with ⟨hnone, -⟩ | ⟨e, j, hok', -, hep, -⟩
  · cases hok.symm.trans hnone
  · obtain ⟨rfl, -⟩ := Prod.mk.inj (Option.some.inj (Except.ok.inj (hok.symm.trans hok')))
    exact ⟨d, i, hep, hisNext.due.1, by omega⟩

/-- Where the one found is always the next and no two dates have theirs at one instant, the briefs
are in turn. -/
theorem AlwaysNext.inTurn (hdistinct : ∀ {d e i}, briefAt s tz which offset d = .ok (some i) →
      briefAt s tz which offset e = .ok (some i) → d = e) {lo' hi' : Date}
    (hlo : lo.num + 20 ≤ lo'.num) (hhi : hi'.num + 20 ≤ hi.num) :
    InTurn s tz which offset lo' hi' := by
  have hpast : ∀ {d e i f}, lo' ≤ d → d ≤ hi' → d.num + 2 ≤ e.num → e ≤ hi →
      briefAt s tz which offset d = .ok (some i) → boundary s tz e = .ok f → i < f := by
    intro d e i f hdlo hdhi hde hehi hbrief hf
    rw [Date.le_def] at hdlo hdhi
    obtain ⟨p, f', g, hplo, -, hfg, -, hig, hpd, -⟩ :=
      hnext.found hz h hoff hs hskips hdistinct (by omega) (by omega) hbrief
    obtain ⟨-, c, hc, hg⟩ := dayBounds_eq_ok.mp hfg
    have hnum := next_eq_ok.mp hc
    rw [Date.le_def] at hplo
    exact hig.trans_le (hs.mono h hskips (Date.le_def.mpr (by omega)) (Date.le_def.mpr (by omega))
      hehi hg hf)
  refine ⟨fun {d e i j} hd hde he hdi hej => ?_, fun {d e i f} hd hde he => ?_,
    fun {p f g} hplo hphi => ?_⟩
  · by_contra hlt
    rw [not_le] at hlt
    have hlo' := Date.le_def.mp (hd.trans hde)
    have hhi' := Date.le_def.mp he
    obtain ⟨p, f, g, hplo, hphi, hfg, hfj, -, -, hfirst⟩ :=
      hnext.found hz h hoff hs hskips hdistinct (by omega) (by omega) hej
    have hne : d ≠ e := by
      rintro rfl
      rw [Option.some.inj (Except.ok.inj (hdi.symm.trans hej))] at hlt
      exact lt_irrefl _ hlt
    -- the earlier date is not searched, so its brief is over
    have hearly : ¬ p.num - 1 ≤ d.num := fun hge =>
      hfirst hge (lt_of_le_of_ne hde hne) ⟨hdi, hlt.le⟩
    have hif := hpast hd (hde.trans he) (by omega) (Date.le_def.mpr (by omega)) hdi
      (dayBounds_eq_ok.mp hfg).1
    exact lt_asymm hlt (hif.trans_le hfj)
  · have hehi : e ≤ hi := by rw [Date.le_def] at *; omega
    have hdhi : d ≤ hi' := by rw [Date.le_def] at *; omega
    exact hpast hd hdhi hde hehi
  · rw [Date.le_def] at hplo hphi
    exact hnext.left hz h hoff hs hskips (by omega) (by omega)

end Converse

end Range

end Search

/-! ### Zones of transitions -/

section Transitions

open Routine (Transitions transitionsLibrary)

variable {lo hi d e : Date} {i f : Timestamp}

theorem nearUtc_transitions (z : Transitions) : NearUtc (L := transitionsLibrary) z where
  civil := by
    intro t
    have hoff := (z.offset t).lt
    have hnum : (transitionsLibrary.civil z t).date.num =
        (t.ns + (z.offset t).secs * 10 ^ 9 + utcEpoch) / (86400 * 10 ^ 9) := rfl
    unfold midnightNs hours
    omega
  placed := by
    intro d τ i hat
    obtain ⟨o, ho⟩ := Transitions.place_eq ((⟨d, τ⟩ : Calendar.DateTime).ns - utcEpoch) z.first
      z.changes
    have hns := (Transitions.ns_of_timestamp (at_eq_ok.mp hat)).trans ho
    have hday := ns_mem d τ
    have hoff := o.lt
    unfold hours at *
    omega

theorem windowFor_nightOwl (d : Date) : nightOwl.windowFor d =
    some ⟨⟨7 * (3600 * 10 ^ 9), by decide⟩, ⟨3600 * 10 ^ 9, by decide⟩, by decide⟩ := by
  unfold DaySchedule.windowFor nightOwl
  dsimp only
  split
  · rfl
  · rfl

theorem ns_at_utc {τ : Time} (h : at_ (L := transitionsLibrary) utcZone e τ = .ok i) :
    i.ns = e.num * (86400 * 10 ^ 9) - utcEpoch + τ.ns := by
  rw [Transitions.ns_of_fixed rfl (at_eq_ok.mp h)]
  unfold Calendar.DateTime.ns utcZone
  dsimp only
  omega

theorem ns_briefAt_nightOwl {o : Option Timestamp}
    (h : briefAt (L := transitionsLibrary) nightOwl utcZone .morning 900 d = .ok o) :
    ∃ i, o = some i ∧ i.ns = d.num * (86400 * 10 ^ 9) - utcEpoch + 26100 * 10 ^ 9 := by
  obtain ⟨has, hex, h⟩ := Result.bind_eq_ok_iff.mp h
  rw [exists_of_fixed rfl hex, if_pos rfl, windowFor_nightOwl] at h
  obtain ⟨k, hat, h⟩ := Result.bind_eq_ok_iff.mp h
  obtain ⟨j, rfl, hj⟩ := ns_moved h
  refine ⟨j, rfl, ?_⟩
  rw [hj, ns_at_utc hat]
  dsimp only
  omega

theorem ns_boundary_nightOwl
    (h : boundary (L := transitionsLibrary) nightOwl utcZone d = .ok f) :
    f.ns = d.num * (86400 * 10 ^ 9) - utcEpoch + 25200 * 10 ^ 9 := by
  obtain ⟨e, he, hbound⟩ := boundary_eq_ok.mp h
  obtain ⟨has, hex, he⟩ := Result.bind_eq_ok_iff.mp he
  rw [exists_of_fixed rfl hex, if_pos rfl] at he
  obtain rfl := Except.ok.inj he
  obtain ⟨p, hp, hafter⟩ := Result.bind_eq_ok_iff.mp hbound
  obtain ⟨y, hy, hstart⟩ := Result.bind_eq_ok_iff.mp hafter
  obtain ⟨a, ha, hmax⟩ := Result.bind_eq_ok_iff.mp hstart
  obtain ⟨b, hb, hp⟩ := Result.bind_eq_ok_iff.mp hp
  obtain ⟨has', hex', hp⟩ := Result.bind_eq_ok_iff.mp hp
  rw [exists_of_fixed rfl hex', if_pos rfl] at hp
  obtain rfl := Except.ok.inj hp
  have hnum := prev_eq_ok.mp hb
  unfold end_ at hy
  rw [windowFor_nightOwl] at hy
  obtain ⟨c, hc, hy⟩ := Result.bind_eq_ok_iff.mp hy
  have hcnum := next_eq_ok.mp hc
  unfold nominalStart at ha
  rw [windowFor_nightOwl] at ha
  have hyns := ns_at_utc hy
  have hans := ns_at_utc ha
  dsimp only at hyns hans
  have hle : y ≤ a := by
    show y.ns ≤ a.ns
    omega
  rw [← Except.ok.inj hmax, max_eq_left hle, hans]
  omega

/-- The owl wakes at seven and has its brief a quarter of an hour later. -/
theorem inTurn_nightOwl (hlo : minDay + 40 ≤ lo.num) (hhi : hi.num + 40 ≤ maxDay) :
    InTurn (L := transitionsLibrary) nightOwl utcZone .morning 900 lo hi where
  order := by
    intro d e i j _ hle _ hdi hej
    obtain ⟨i', hi', hins⟩ := ns_briefAt_nightOwl hdi
    obtain ⟨j', hj', hjns⟩ := ns_briefAt_nightOwl hej
    obtain rfl := Option.some.inj hi'
    obtain rfl := Option.some.inj hj'
    rw [Calendar.Date.le_def] at hle
    show i.ns ≤ j.ns
    omega
  past := by
    intro d e i f _ hle _ hdi hf
    obtain ⟨i', hi', hins⟩ := ns_briefAt_nightOwl hdi
    obtain rfl := Option.some.inj hi'
    have hfns := ns_boundary_nightOwl hf
    show i.ns < f.ns
    omega
  left := by
    intro p f g hplo hphi hfg _
    rw [Calendar.Date.le_def] at hplo hphi
    obtain ⟨-, c, hc, hg⟩ := dayBounds_eq_ok.mp hfg
    have hcnum := next_eq_ok.mp hc
    have hgns := ns_boundary_nightOwl hg
    have hland : Inland (L := transitionsLibrary) utcZone ⟨c.num - 20, by omega⟩
        ⟨c.num + 20, by omega⟩ :=
      inland_transitions (by dsimp only; omega) (by dsimp only; omega)
    obtain ⟨o, ho⟩ : ∃ o, briefAt (L := transitionsLibrary) nightOwl utcZone .morning 900 c =
        .ok o :=
      exists_briefAt (nearUtc_transitions utcZone) hland (by decide) (by dsimp only; omega)
        (by dsimp only; omega)
    obtain ⟨i, rfl, hins⟩ := ns_briefAt_nightOwl ho
    exact ⟨c, i, by omega, ho, by omega⟩

/-- A night up from eight in the evening to two in the afternoon, and a day up from five to one. -/
def shifts : DaySchedule where
  weekday := fun _ => none
  monthDay := fun _ => none
  date := fun d =>
    if d.num = 738000 then
      some (.window ⟨⟨20 * (3600 * 10 ^ 9), by decide⟩, ⟨14 * (3600 * 10 ^ 9), by decide⟩,
        by decide⟩)
    else if d.num = 738001 then
      some (.window ⟨⟨5 * (3600 * 10 ^ 9), by decide⟩, ⟨13 * (3600 * 10 ^ 9), by decide⟩,
        by decide⟩)
    else none

end Transitions

end Planner

end Sunrise
