import Sunrise.Planner.Day
import Sunrise.Lib.Result

/-!
# Planner days partition time

The planner day of an instant is looked for among the dates up to its own, and the bounds of a
planner day are told from its date. The two are inverse if the schedule is steady in the zone:
whenever a date has opened and the one before it has closed, the same holds of the date before; at
no instant does that hold of a date after the one the clock shows, and always of that three dates
before it. Where the clock shows a date from its midnight on every schedule is steady; a clock that
is set back over midnight shows a date again that is over, and there the planner day of an instant
is not the one whose bounds it lies in.

* `partitions_iff` — **planner days partition time exactly if the schedule is steady.**
-/

namespace Sunrise

namespace Planner

open Calendar (Date DateTime Time)
open Routine (Library utcEpoch)
open Rows (Timestamp)

section Partition

variable {L : Library} {s : DaySchedule} {tz : L.Zone}

/-! ### Dates away from the edges of the calendar -/

/-- Dates away from the edges of the calendar: the times of those dates, and of the three on either
side, are all placed. -/
structure Inland (tz : L.Zone) (lo hi : Date) : Prop where
  lo_ge : Calendar.minDay ≤ lo.num - 3
  hi_le : hi.num + 3 ≤ Calendar.maxDay
  placed : ∀ {d : Date} (t : Time), lo.num - 3 ≤ d.num → d.num ≤ hi.num + 3 →
    ∃ i, L.timestamp tz ⟨d, t⟩ = some i

/-- The first date from a date on that the zone has. -/
structure FirstFrom (tz : L.Zone) (d e : Date) : Prop where
  le : d ≤ e
  has : exists_ tz e = .ok true
  skipped : ∀ {c}, d ≤ c → c < e → exists_ tz c = .ok false

theorem FirstFrom.unique {d e e' : Date} (h : FirstFrom tz d e) (h' : FirstFrom tz d e') :
    e = e' := by
  rcases lt_trichotomy e e' with hlt | heq | hlt
  · have := h'.skipped h.le hlt
    rw [h.has] at this
    cases this
  · exact heq
  · have := h.skipped h'.le hlt
    rw [h'.has] at this
    cases this

theorem FirstFrom.refl {d : Date} (h : exists_ tz d = .ok true) : FirstFrom tz d d :=
  ⟨le_rfl, h, fun hle hlt => absurd hlt (not_lt.mpr hle)⟩

theorem FirstFrom.cons {c d e : Date} (hd : d.num = c.num + 1) (h : exists_ tz c = .ok false)
    (hfirst : FirstFrom tz d e) : FirstFrom tz c e := by
  have hle := hfirst.le
  rw [Date.le_def] at hle
  refine ⟨Date.le_def.mpr (by omega), hfirst.has, fun {b} hb hlt => ?_⟩
  rcases hb.lt_or_eq with hlt' | rfl
  · exact hfirst.skipped (by rw [Date.le_def]; rw [Date.lt_def] at hlt'; omega) hlt
  · exact h

theorem FirstFrom.tail {c d e : Date} (hd : d.num = c.num + 1) (h : exists_ tz c = .ok false)
    (hfirst : FirstFrom tz c e) : FirstFrom tz d e := by
  have hne : c ≠ e := by
    rintro rfl
    have := hfirst.has
    rw [h] at this
    cases this
  have hlt := lt_of_le_of_ne hfirst.le hne
  rw [Date.lt_def] at hlt
  refine ⟨Date.le_def.mpr (by omega), hfirst.has, fun {b} hb hlt => hfirst.skipped ?_ hlt⟩
  rw [Date.le_def] at hb ⊢
  omega

def SkipsOne (tz : L.Zone) : Prop :=
  ∀ {d e : Date}, e.num = d.num + 1 → exists_ tz d = .ok false → exists_ tz e ≠ .ok false

namespace Inland

variable {lo hi d e : Date}

section

variable (h : Inland tz lo hi)
include h

theorem exists_date {n : ℤ} (hlo : lo.num - 3 ≤ n) (hhi : n ≤ hi.num + 3) :
    ∃ c : Date, c.num = n :=
  ⟨⟨n, by have := h.lo_ge; have := h.hi_le; omega⟩, rfl⟩

theorem exists_at (t : Time) (hlo : lo.num - 3 ≤ d.num)
    (hhi : d.num ≤ hi.num + 3) : ∃ i, at_ tz d t = .ok i := by
  obtain ⟨i, hi⟩ := h.placed t hlo hhi
  exact ⟨i, at_eq_ok.mpr hi⟩

theorem exists_next (hlo : lo.num - 4 ≤ d.num) (hhi : d.num ≤ hi.num + 2) :
    ∃ c, next d = .ok c ∧ c.num = d.num + 1 := by
  obtain ⟨c, hc⟩ := h.exists_date (n := d.num + 1) (by omega) (by omega)
  exact ⟨c, next_eq_ok.mpr hc, hc⟩

theorem exists_prev (hlo : lo.num - 2 ≤ d.num) (hhi : d.num ≤ hi.num + 4) :
    ∃ c, prev d = .ok c ∧ c.num = d.num - 1 := by
  obtain ⟨c, hc⟩ := h.exists_date (n := d.num - 1) (by omega) (by omega)
  exact ⟨c, prev_eq_ok.mpr hc, hc⟩

theorem exists_or (hlo : lo.num - 3 ≤ d.num) (hhi : d.num ≤ hi.num + 3) :
    exists_ tz d = .ok true ∨ exists_ tz d = .ok false := by
  obtain ⟨i, hat⟩ := h.exists_at .midnight hlo hhi
  have hok : exists_ tz d = .ok (decide ((L.civil tz i).date = d)) :=
    Result.bind_eq_ok_iff.mpr ⟨i, hat, rfl⟩
  rw [hok]
  by_cases heq : (L.civil tz i).date = d
  · exact .inl (by rw [decide_eq_true heq])
  · exact .inr (by rw [decide_eq_false heq])

theorem exists_firstFrom (hskips : SkipsOne tz) (hlo : lo.num - 3 ≤ d.num)
    (hhi : d.num ≤ hi.num + 2) : ∃ e, FirstFrom tz d e ∧ e.num ≤ d.num + 1 := by
  rcases h.exists_or hlo (by omega) with hd | hd
  · exact ⟨d, .refl hd, by omega⟩
  · obtain ⟨c, -, hc⟩ := h.exists_next (d := d) (by omega) hhi
    rcases h.exists_or (d := c) (by omega) (by omega) with hc' | hc'
    · exact ⟨c, .cons hc hd (.refl hc'), by omega⟩
    · exact absurd hc' (hskips hc hd)

theorem firstExisting_eq (hskips : SkipsOne tz) (hlo : lo.num - 3 ≤ d.num)
    (hhi : d.num ≤ hi.num + 2) (hfirst : FirstFrom tz d e) : firstExisting tz 2 d = .ok e := by
  rcases h.exists_or hlo (by omega) with hd | hd
  · obtain rfl := (FirstFrom.refl hd).unique hfirst
    exact Result.bind_eq_ok_iff.mpr ⟨true, hd, rfl⟩
  · obtain ⟨c, hc, hnum⟩ := h.exists_next (d := d) (by omega) hhi
    have htail := hfirst.tail hnum hd
    rcases h.exists_or (d := c) (by omega) (by omega) with hc' | hc'
    · obtain rfl := (FirstFrom.refl hc').unique htail
      exact Result.bind_eq_ok_iff.mpr ⟨false, hd, Result.bind_eq_ok_iff.mpr
        ⟨c, hc, Result.bind_eq_ok_iff.mpr ⟨true, hc', rfl⟩⟩⟩
    · exact absurd hc' (hskips hnum hd)

theorem exists_prevExisting (hlo : lo ≤ d) (hhi : d.num ≤ hi.num + 3) :
    ∃ p, prevExisting tz d = .ok p ∧ d.num - 3 ≤ p.num ∧ p.num < d.num := by
  rw [Date.le_def] at hlo
  obtain ⟨b, hb, hbnum⟩ := h.exists_prev (d := d) (by omega) (by omega)
  obtain ⟨c, hc, hcnum⟩ := h.exists_prev (d := b) (by omega) (by omega)
  obtain ⟨a, ha, hanum⟩ := h.exists_prev (d := c) (by omega) (by omega)
  have hsearch : ∀ {p}, lastExisting tz 2 b = .ok p → prevExisting tz d = .ok p :=
    fun hp => Result.bind_eq_ok_iff.mpr ⟨b, hb, hp⟩
  rcases h.exists_or (d := b) (by omega) (by omega) with hb' | hb'
  · exact ⟨b, hsearch (Result.bind_eq_ok_iff.mpr ⟨true, hb', rfl⟩), by omega, by omega⟩
  · have hsearch : ∀ {p}, lastExisting tz 1 c = .ok p → prevExisting tz d = .ok p := fun hp =>
      hsearch (Result.bind_eq_ok_iff.mpr ⟨false, hb', Result.bind_eq_ok_iff.mpr ⟨c, hc, hp⟩⟩)
    rcases h.exists_or (d := c) (by omega) (by omega) with hc' | hc'
    · exact ⟨c, hsearch (Result.bind_eq_ok_iff.mpr ⟨true, hc', rfl⟩), by omega, by omega⟩
    · exact ⟨a, hsearch (Result.bind_eq_ok_iff.mpr ⟨false, hc', Result.bind_eq_ok_iff.mpr
        ⟨a, ha, rfl⟩⟩), by omega, by omega⟩

theorem exists_nominalStart (hlo : lo.num - 3 ≤ d.num)
    (hhi : d.num ≤ hi.num + 3) : ∃ i, nominalStart s tz d = .ok i := by
  unfold nominalStart
  split
  · exact h.exists_at _ hlo hhi
  · exact h.exists_at _ hlo hhi

theorem exists_end (hlo : lo.num - 3 ≤ d.num) (hhi : d.num ≤ hi.num + 2) :
    ∃ i, end_ s tz d = .ok i := by
  obtain ⟨c, hc, hnum⟩ := h.exists_next (d := d) (by omega) hhi
  unfold end_
  split
  · split
    · obtain ⟨i, hat⟩ := h.exists_at (d := c) _ (by omega) (by omega)
      exact ⟨i, Result.bind_eq_ok_iff.mpr ⟨c, hc, hat⟩⟩
    · exact h.exists_at _ hlo (by omega)
  · obtain ⟨i, hat⟩ := h.exists_at (d := c) .midnight (by omega) (by omega)
    exact ⟨i, Result.bind_eq_ok_iff.mpr ⟨c, hc, hat⟩⟩

end

end Inland

/-! ### When a planner day starts -/

/-- **A date has opened** at an instant, and the one before it closed: its wake time or midnight has
come, and the sleep time of the one before, or the midnight after that. -/
def Opened (s : DaySchedule) (tz : L.Zone) (t : Timestamp) (d : Date) : Prop :=
  ∃ a p z, nominalStart s tz d = .ok a ∧ prevExisting tz d = .ok p ∧ end_ s tz p = .ok z ∧
    a ≤ t ∧ z ≤ t

theorem boundaryAt_le_iff {d : Date} {t f : Timestamp} (h : boundaryAt s tz d = .ok f) :
    f ≤ t ↔ Opened s tz t d := by
  obtain ⟨p, hp, h⟩ := Result.bind_eq_ok_iff.mp h
  obtain ⟨z, hz, h⟩ := Result.bind_eq_ok_iff.mp h
  obtain ⟨a, ha, h⟩ := Result.bind_eq_ok_iff.mp h
  obtain rfl := Except.ok.inj h
  constructor
  · intro hle
    exact ⟨a, p, z, ha, hp, hz, (le_max_left a z).trans hle, (le_max_right a z).trans hle⟩
  · rintro ⟨a', p', z', ha', hp', hz', hle, hle'⟩
    rw [ha] at ha'
    rw [hp] at hp'
    obtain rfl := Except.ok.inj ha'
    obtain rfl := Except.ok.inj hp'
    rw [hz] at hz'
    obtain rfl := Except.ok.inj hz'
    exact max_le hle hle'

namespace Inland

variable {lo hi d e : Date} {t f g : Timestamp}

theorem exists_firstExisting (h : Inland tz lo hi) (hlo : lo.num - 3 ≤ d.num)
    (hhi : d.num ≤ hi.num + 1) : ∃ e, firstExisting tz 2 d = .ok e ∧ d ≤ e ∧ e.num ≤ d.num + 2 := by
  obtain ⟨c, hc, hcnum⟩ := h.exists_next (d := d) (by omega) (by omega)
  obtain ⟨b, hb, hbnum⟩ := h.exists_next (d := c) (by omega) (by omega)
  rcases h.exists_or (d := d) hlo (by omega) with hd | hd
  · exact ⟨d, Result.bind_eq_ok_iff.mpr ⟨true, hd, rfl⟩, le_rfl, by omega⟩
  · have hsearch : ∀ {e}, firstExisting tz 1 c = .ok e → firstExisting tz 2 d = .ok e := fun he =>
      Result.bind_eq_ok_iff.mpr ⟨false, hd, Result.bind_eq_ok_iff.mpr ⟨c, hc, he⟩⟩
    rcases h.exists_or (d := c) (by omega) (by omega) with hc' | hc'
    · exact ⟨c, hsearch (Result.bind_eq_ok_iff.mpr ⟨true, hc', rfl⟩), Date.le_def.mpr (by omega),
        by omega⟩
    · exact ⟨b, hsearch (Result.bind_eq_ok_iff.mpr ⟨false, hc', Result.bind_eq_ok_iff.mpr
        ⟨b, hb, rfl⟩⟩), Date.le_def.mpr (by omega), by omega⟩

theorem exists_boundary (h : Inland tz lo hi) (hlo : lo ≤ d) (hhi : d ≤ hi) :
    ∃ f, boundary s tz d = .ok f := by
  rw [Date.le_def] at hlo hhi
  obtain ⟨e, he, hge, hle⟩ := h.exists_firstExisting (d := d) (by omega) (by omega)
  rw [Date.le_def] at hge
  obtain ⟨p, hp, hplo, hphi⟩ := h.exists_prevExisting (d := e) (Date.le_def.mpr (by omega))
    (by omega)
  obtain ⟨z, hz⟩ := h.exists_end (s := s) (d := p) (by omega) (by omega)
  obtain ⟨a, ha⟩ := h.exists_nominalStart (s := s) (d := e) (by omega) (by omega)
  exact ⟨max a z, Result.bind_eq_ok_iff.mpr ⟨e, he, Result.bind_eq_ok_iff.mpr ⟨p, hp,
    Result.bind_eq_ok_iff.mpr ⟨z, hz, Result.bind_eq_ok_iff.mpr ⟨a, ha, rfl⟩⟩⟩⟩⟩

theorem boundary_le_iff (h : Inland tz lo hi) (hskips : SkipsOne tz) (hlo : lo ≤ d) (hhi : d ≤ hi)
    (hfirst : FirstFrom tz d e) (hf : boundary s tz d = .ok f) : f ≤ t ↔ Opened s tz t e := by
  rw [Date.le_def] at hlo hhi
  obtain ⟨b, hb, hat⟩ := boundary_eq_ok.mp hf
  rw [h.firstExisting_eq hskips (by omega) (by omega) hfirst] at hb
  obtain rfl := Except.ok.inj hb
  exact boundaryAt_le_iff hat

end Inland

theorem exists_lastStarted {d : Date} {t : Timestamp} {n : ℕ}
    (hprev : ∀ {c : Date}, d.num - n < c.num → c.num ≤ d.num → ∃ b, prev c = .ok b)
    (hf : ∀ {c : Date}, d.num - n < c.num → c.num ≤ d.num → ∃ f, boundary s tz c = .ok f) :
    ∃ p, lastStarted s tz t n d = .ok p := by
  induction n generalizing d with
  | zero => exact ⟨d, rfl⟩
  | succ n ih =>
    obtain ⟨f, hd⟩ := hf (c := d) (by omega) le_rfl
    obtain ⟨b, hb⟩ := hprev (c := d) (by omega) le_rfl
    have hnum := prev_eq_ok.mp hb
    by_cases hle : f ≤ t
    · exact ⟨d, Result.bind_eq_ok_iff.mpr ⟨f, hd, if_pos hle⟩⟩
    · obtain ⟨p, hp⟩ := ih (d := b) (fun hlt hge => hprev (by omega) (by omega))
        (fun hlt hge => hf (by omega) (by omega))
      refine ⟨p, Result.bind_eq_ok_iff.mpr ⟨f, hd, ?_⟩⟩
      rw [if_neg hle]
      exact Result.bind_eq_ok_iff.mpr ⟨b, hb, hp⟩

/-! ### Planner days that partition time -/

/-- **Planner days partition time** from one date to another: they start in the order of their
dates, an instant lies in the bounds of its planner day and of no other. -/
structure Partitions (s : DaySchedule) (tz : L.Zone) (lo hi : Date) : Prop where
  mono : ∀ {d e f g}, lo ≤ d → d ≤ e → e ≤ hi → boundary s tz d = .ok f → boundary s tz e = .ok g →
    f ≤ g
  plannerDate_iff : ∀ {t d}, lo.num + 3 ≤ (L.civil tz t).date.num → (L.civil tz t).date < hi →
    lo ≤ d → d < hi →
    (plannerDate s tz t = .ok d ↔ ∃ f g, dayBounds s tz d = .ok (f, g) ∧ f ≤ t ∧ t < g)
  existsUnique : ∀ {t}, lo.num + 3 ≤ (L.civil tz t).date.num → (L.civil tz t).date < hi →
    ∃! d, lo ≤ d ∧ d < hi ∧ ∃ f g, dayBounds s tz d = .ok (f, g) ∧ f ≤ t ∧ t < g

/-- **A steady schedule** in a zone, from one date to another. -/
structure Steady (s : DaySchedule) (tz : L.Zone) (lo hi : Date) : Prop where
  /-- A date does not open and the one before close before the same holds of that one. -/
  order : ∀ {t d c e}, lo ≤ d → c ≤ hi → c.num = d.num + 1 → exists_ tz d = .ok true →
    FirstFrom tz c e → Opened s tz t e → Opened s tz t d
  /-- No date after the one the clock shows has opened with the one before it closed. -/
  ahead : ∀ {t c e}, lo.num + 3 ≤ (L.civil tz t).date.num → c ≤ hi →
    c.num = (L.civil tz t).date.num + 1 → FirstFrom tz c e → ¬ Opened s tz t e
  behind : ∀ {t b e}, lo ≤ b → (L.civil tz t).date < hi → (L.civil tz t).date.num = b.num + 3 →
    FirstFrom tz b e → Opened s tz t e

section Spans

variable {lo hi d e p : Date} {t f g : Timestamp}

theorem dayBounds_eq_ok : dayBounds s tz d = .ok (f, g) ↔
    boundary s tz d = .ok f ∧ ∃ e, next d = .ok e ∧ boundary s tz e = .ok g := by
  constructor
  · intro h
    obtain ⟨f', hf, h⟩ := Result.bind_eq_ok_iff.mp h
    obtain ⟨e, he, h⟩ := Result.bind_eq_ok_iff.mp h
    obtain ⟨g', hg, h⟩ := Result.bind_eq_ok_iff.mp h
    cases Except.ok.inj h
    exact ⟨hf, e, he, hg⟩
  · rintro ⟨hf, e, he, hg⟩
    exact Result.bind_eq_ok_iff.mpr ⟨f, hf, Result.bind_eq_ok_iff.mpr ⟨e, he,
      Result.bind_eq_ok_iff.mpr ⟨g, hg, rfl⟩⟩⟩

/-- Away from the edges of the calendar every instant has a planner day, its date or one of the
three before it. -/
theorem Inland.exists_plannerDate (h : Inland tz lo hi)
    (hlo : lo.num + 3 ≤ (L.civil tz t).date.num) (hhi : (L.civil tz t).date ≤ hi) :
    ∃ p, plannerDate s tz t = .ok p ∧ p ≤ (L.civil tz t).date ∧
      (L.civil tz t).date.num ≤ p.num + 3 := by
  rw [Date.le_def] at hhi
  obtain ⟨p, hp⟩ : ∃ p, plannerDate s tz t = .ok p := by
    refine exists_lastStarted (fun {c} hlt hle => ?_) fun {c} hlt hle => ?_
    · obtain ⟨b, hb, -⟩ := h.exists_prev (d := c) (by omega) (by omega)
      exact ⟨b, hb⟩
    · refine h.exists_boundary ?_ ?_
      · rw [Date.le_def]
        omega
      · rw [Date.le_def]
        omega
  obtain ⟨hle, hge, -, -⟩ := lastStarted_eq_ok hp
  exact ⟨p, hp, hle, hge⟩

theorem Steady.mono (hs : Steady s tz lo hi) (h : Inland tz lo hi) (hskips : SkipsOne tz)
    (hlo : lo ≤ d) (hle : d ≤ e) (hhi : e ≤ hi) (hf : boundary s tz d = .ok f)
    (hg : boundary s tz e = .ok g) : f ≤ g := by
  -- by induction on the number of dates between
  obtain ⟨n, hn⟩ : ∃ n : ℕ, e.num = d.num + n := ⟨(e.num - d.num).toNat, by
    rw [Date.le_def] at hle
    omega⟩
  induction n generalizing d f with
  | zero =>
    obtain rfl := Date.ext_num (show d.num = e.num by omega)
    rw [hf] at hg
    exact (Except.ok.inj hg).le
  | succ n ih =>
    rw [Date.le_def] at hlo hle hhi
    obtain ⟨c, hc⟩ := h.exists_date (n := d.num + 1) (by omega) (by omega)
    have hclo : lo ≤ c := Date.le_def.mpr (by omega)
    have hchi : c ≤ hi := Date.le_def.mpr (by omega)
    have hdhi : d ≤ hi := Date.le_def.mpr (by omega)
    obtain ⟨k, hk⟩ := h.exists_boundary (s := s) hclo hchi
    refine le_trans ?_ (ih hclo (Date.le_def.mpr (by omega)) hk (by omega))
    obtain ⟨b, hb, -⟩ := h.exists_firstFrom hskips (d := c) (by omega) (by omega)
    have hopen := (h.boundary_le_iff hskips hclo hchi hb hk).mp le_rfl
    rcases h.exists_or (d := d) (by omega) (by omega) with hd | hd
    · exact (h.boundary_le_iff hskips hlo hdhi (.refl hd) hf).mpr
        (hs.order hlo hchi hc hd hb hopen)
    · exact (h.boundary_le_iff hskips hlo hdhi (.cons hc hd hb) hf).mpr hopen

theorem Steady.mem_dayBounds (hs : Steady s tz lo hi) (h : Inland tz lo hi) (hskips : SkipsOne tz)
    (hlo : lo.num + 3 ≤ (L.civil tz t).date.num) (hhi : (L.civil tz t).date < hi)
    (hp : plannerDate s tz t = .ok p) :
    ∃ f g, dayBounds s tz p = .ok (f, g) ∧ f ≤ t ∧ t < g := by
  obtain ⟨hle, hge, hlate, hstarted⟩ := lastStarted_eq_ok hp
  have hhi' := hhi
  rw [Date.lt_def] at hhi'
  obtain ⟨c, hc, hnum⟩ := h.exists_next (d := p) (by omega) (by omega)
  have hplo : lo ≤ p := Date.le_def.mpr (by omega)
  have hphi : p ≤ hi := Date.le_def.mpr (by omega)
  have hchi : c ≤ hi := Date.le_def.mpr (by omega)
  have hclo : lo ≤ c := Date.le_def.mpr (by omega)
  obtain ⟨f, hf⟩ := h.exists_boundary (s := s) hplo hphi
  obtain ⟨g, hg⟩ := h.exists_boundary (s := s) hclo hchi
  refine ⟨f, g, dayBounds_eq_ok.mpr ⟨hf, c, hc, hg⟩, ?_, ?_⟩
  · rcases lt_or_eq_of_le hge with hnear | hfar
    · obtain ⟨f', hf', hle⟩ := hstarted hnear
      rw [hf] at hf'
      exact Except.ok.inj hf' ▸ hle
    · -- none of the dates searched had started
      obtain ⟨e, he, -⟩ := h.exists_firstFrom hskips (d := p) (by omega) (by omega)
      exact (h.boundary_le_iff hskips hplo hphi he hf).mpr (hs.behind hplo hhi hfar he)
  · rcases hle.lt_or_eq with hlt | heq
    · obtain ⟨g', hg', hlt'⟩ := hlate c (Date.lt_def.mpr (by omega)) (Date.le_def.mpr (by omega))
      rw [hg] at hg'
      exact Except.ok.inj hg' ▸ hlt'
    · obtain ⟨e, he, -⟩ := h.exists_firstFrom hskips (d := c) (by omega) (by omega)
      refine not_le.mp fun hle => hs.ahead hlo hchi (by rw [hnum, heq]) he ?_
      exact (h.boundary_le_iff hskips hclo hchi he hg).mp hle

theorem eq_of_mem_dayBounds {f' g' : Timestamp}
    (mono : ∀ {d e f g}, lo ≤ d → d ≤ e → e ≤ hi → boundary s tz d = .ok f →
      boundary s tz e = .ok g → f ≤ g)
    (hd : lo ≤ d) (hd' : d < hi) (he : lo ≤ e) (he' : e < hi)
    (hfg : dayBounds s tz d = .ok (f, g)) (hft : f ≤ t) (htg : t < g)
    (hfg' : dayBounds s tz e = .ok (f', g')) (hft' : f' ≤ t) (htg' : t < g') : d = e := by
  obtain ⟨hf, c, hc, hg⟩ := dayBounds_eq_ok.mp hfg
  obtain ⟨hf', c', hc', hg'⟩ := dayBounds_eq_ok.mp hfg'
  have hcnum := next_eq_ok.mp hc
  have hcnum' := next_eq_ok.mp hc'
  rw [Date.le_def] at hd he
  rw [Date.lt_def] at hd' he'
  rcases lt_trichotomy d e with hlt | heq | hlt
  · rw [Date.lt_def] at hlt
    have := mono (d := c) (e := e) (Date.le_def.mpr (by omega)) (Date.le_def.mpr (by omega))
      (Date.le_def.mpr (by omega)) hg hf'
    exact absurd (this.trans hft') (not_le.mpr htg)
  · exact heq
  · rw [Date.lt_def] at hlt
    have := mono (d := c') (e := d) (Date.le_def.mpr (by omega)) (Date.le_def.mpr (by omega))
      (Date.le_def.mpr (by omega)) hg' hf
    exact absurd (this.trans hft) (not_le.mpr htg')

theorem Steady.partitions (hs : Steady s tz lo hi) (h : Inland tz lo hi) (hskips : SkipsOne tz) :
    Partitions s tz lo hi := by
  have hmono : ∀ {d e f g}, lo ≤ d → d ≤ e → e ≤ hi → boundary s tz d = .ok f →
      boundary s tz e = .ok g → f ≤ g := fun hlo hle hhi hf hg => hs.mono h hskips hlo hle hhi hf hg
  refine ⟨hmono, fun {t d} hlo hhi hd hd' => ⟨hs.mem_dayBounds h hskips hlo hhi, ?_⟩,
    fun {t} hlo hhi => ?_⟩
  · rintro ⟨f, g, hfg, hft, htg⟩
    obtain ⟨p, hp, hle, hge⟩ := h.exists_plannerDate (s := s) hlo hhi.le
    obtain ⟨f', g', hfg', hft', htg'⟩ := hs.mem_dayBounds h hskips hlo hhi hp
    rw [hp, eq_of_mem_dayBounds hmono (Date.le_def.mpr (by omega)) (hle.trans_lt hhi) hd hd' hfg'
      hft' htg' hfg hft htg]
  · obtain ⟨p, hp, hle, hge⟩ := h.exists_plannerDate (s := s) hlo hhi.le
    have hmem := hs.mem_dayBounds h hskips hlo hhi hp
    refine ⟨p, ⟨Date.le_def.mpr (by omega), hle.trans_lt hhi, hmem⟩, ?_⟩
    rintro d ⟨hd, hd', f, g, hfg, hft, htg⟩
    obtain ⟨f', g', hfg', hft', htg'⟩ := hmem
    exact eq_of_mem_dayBounds hmono hd hd' (Date.le_def.mpr (by omega)) (hle.trans_lt hhi) hfg hft
      htg hfg' hft' htg'

theorem Partitions.steady (hpart : Partitions s tz lo hi) (h : Inland tz lo hi)
    (hskips : SkipsOne tz) : Steady s tz lo hi := by
  refine ⟨fun {t d c e} hlo hhi hc hd he hopen => ?_, fun {t c e} hlo hhi hc he hopen => ?_,
    fun {t b e} hlo hhi hb he => ?_⟩
  · have hclo : lo ≤ c := by rw [Date.le_def] at *; omega
    have hdhi : d ≤ hi := by rw [Date.le_def] at *; omega
    obtain ⟨f, hf⟩ := h.exists_boundary (s := s) hlo hdhi
    obtain ⟨g, hg⟩ := h.exists_boundary (s := s) hclo hhi
    refine (h.boundary_le_iff hskips hlo hdhi (.refl hd) hf).mp ?_
    exact (hpart.mono hlo (Date.le_def.mpr (by omega)) hhi hf hg).trans
      ((h.boundary_le_iff hskips hclo hhi he hg).mpr hopen)
  · -- the next planner day has started, and that of the instant is over
    have hclo : lo ≤ c := Date.le_def.mpr (by omega)
    have hdate : (L.civil tz t).date < hi := by
      rw [Date.le_def] at hhi
      rw [Date.lt_def]
      omega
    obtain ⟨k, hk⟩ := h.exists_boundary (s := s) hclo hhi
    have hkt := (h.boundary_le_iff hskips hclo hhi he hk).mpr hopen
    obtain ⟨p, hp, hle, hge⟩ := h.exists_plannerDate (s := s) hlo hdate.le
    have hplo : lo ≤ p := Date.le_def.mpr (by omega)
    obtain ⟨f, g, hfg, -, htg⟩ :=
      (hpart.plannerDate_iff hlo hdate hplo (hle.trans_lt hdate)).mp hp
    obtain ⟨-, c', hc', hg⟩ := dayBounds_eq_ok.mp hfg
    have hnum := next_eq_ok.mp hc'
    rw [Date.le_def] at hle
    have := hpart.mono (d := c') (e := c) (by rw [Date.le_def] at *; omega)
      (Date.le_def.mpr (by omega)) hhi hg hk
    exact absurd (this.trans hkt) (not_le.mpr htg)
  · -- the planner day of the instant is that of this date or a later one
    have hlo' : lo.num + 3 ≤ (L.civil tz t).date.num := by rw [Date.le_def] at hlo; omega
    have hbhi : b ≤ hi := by rw [Date.lt_def] at hhi; rw [Date.le_def]; omega
    obtain ⟨k, hk⟩ := h.exists_boundary (s := s) hlo hbhi
    refine (h.boundary_le_iff hskips hlo hbhi he hk).mp ?_
    obtain ⟨p, hp, hle, hge⟩ := h.exists_plannerDate (s := s) hlo' hhi.le
    have hbp : b ≤ p := Date.le_def.mpr (by omega)
    obtain ⟨f, g, hfg, hft, -⟩ :=
      (hpart.plannerDate_iff hlo' hhi (hlo.trans hbp) (hle.trans_lt hhi)).mp hp
    obtain ⟨hf, -⟩ := dayBounds_eq_ok.mp hfg
    exact (hpart.mono hlo hbp (hle.trans hhi.le) hk hf).trans hft

/-- **Planner days partition time** exactly if the schedule is steady. -/
theorem partitions_iff (h : Inland tz lo hi) (hskips : SkipsOne tz) :
    Partitions s tz lo hi ↔ Steady s tz lo hi :=
  ⟨fun hpart => hpart.steady h hskips, fun hs => hs.partitions h hskips⟩

end Spans

/-! ### Zones whose clocks are not set over midnight -/

/-- **A zone whose clock is not set over midnight**: it shows a date from its midnight on and no
earlier one again, and a time of a date is placed on it, or on the next the zone has. -/
structure Regular (tz : L.Zone) : Prop where
  midnight : ∀ {d i t}, at_ tz d .midnight = .ok i → (i ≤ t ↔ d ≤ (L.civil tz t).date)
  shows : ∀ {d e τ i}, FirstFrom tz d e → at_ tz d τ = .ok i → (L.civil tz i).date = e

section Regular

variable {lo hi d e : Date} {t i : Timestamp}

section

variable (hz : Regular tz) (h : Inland tz lo hi)
include hz h

theorem Regular.le_date (he : exists_ tz e = .ok true)
    (hlo : lo.num - 3 ≤ e.num) (hhi : e.num ≤ hi.num + 3) (hi : nominalStart s tz e = .ok i)
    (hle : i ≤ t) : e ≤ (L.civil tz t).date := by
  obtain ⟨m, hm⟩ := h.exists_at .midnight hlo hhi
  obtain ⟨τ, hat⟩ := nominalStart_eq_ok hi
  have hmi : m ≤ i := (hz.midnight hm).mpr (hz.shows (.refl he) hat).ge
  exact (hz.midnight hm).mp (hmi.trans hle)

theorem Regular.opened (hskips : SkipsOne tz)
    (he : exists_ tz e = .ok true) (hlo : lo ≤ e) (hhi : e.num ≤ hi.num + 2)
    (hlt : e < (L.civil tz t).date) : Opened s tz t e := by
  rw [Date.le_def] at hlo
  obtain ⟨c, -, hc⟩ := h.exists_next (d := e) (by omega) (by omega)
  obtain ⟨m, hm⟩ := h.exists_at (d := c) .midnight (by omega) (by omega)
  -- what shows no later date than this one is before the next midnight
  have hbefore : ∀ {i}, (L.civil tz i).date ≤ e → i ≤ t := by
    intro i hle
    have hmt : m ≤ t := (hz.midnight hm).mpr (by
      rw [Date.lt_def] at hlt
      rw [Date.le_def]
      omega)
    refine le_trans (le_of_not_ge fun hmi => ?_) hmt
    have := (hz.midnight hm).mp hmi
    rw [Date.le_def] at this hle
    omega
  obtain ⟨a, ha⟩ := h.exists_nominalStart (s := s) (d := e) (by omega) (by omega)
  obtain ⟨p, hp, hplo, hphi⟩ := h.exists_prevExisting (d := e) (Date.le_def.mpr hlo) (by omega)
  obtain ⟨z, hz'⟩ := h.exists_end (s := s) (d := p) (by omega) (by omega)
  refine ⟨a, p, z, ha, hp, hz', hbefore ?_, hbefore ?_⟩
  · obtain ⟨τ, hat⟩ := nominalStart_eq_ok ha
    exact (hz.shows (.refl he) hat).le
  · obtain ⟨b, τ, hpb, hbp, hat⟩ := end_eq_ok hz'
    obtain ⟨x, hx, -⟩ := h.exists_firstFrom hskips (d := b) (by omega) (by omega)
    rw [hz.shows hx hat]
    refine not_lt.mp fun hex => ?_
    have := hx.skipped (c := e) (Date.le_def.mpr (by omega)) hex
    rw [he] at this
    cases this

/-- **Every schedule is steady** in a zone whose clock is not set over midnight. -/
theorem Regular.steady (hskips : SkipsOne tz) :
    Steady s tz lo hi := by
  have hnext : ∀ {c e}, lo ≤ c → c ≤ hi → FirstFrom tz c e → e.num ≤ c.num + 1 := by
    intro c e hlo hhi he
    rw [Date.le_def] at hlo hhi
    obtain ⟨e', he', hle⟩ := h.exists_firstFrom hskips (d := c) (by omega) (by omega)
    obtain rfl := he.unique he'
    exact hle
  refine ⟨fun {t d c e} hlo hhi hc hd he hopen => ?_, fun {t c e} hlo hhi hc he hopen => ?_,
    fun {t b e} hlo hhi hb he => ?_⟩
  · obtain ⟨a, -, -, ha, -, -, hat, -⟩ := hopen
    have hge := he.le
    rw [Date.le_def] at hge hlo hhi
    have hle := hnext (Date.le_def.mpr (by omega)) (Date.le_def.mpr (by omega)) he
    have hdate := hz.le_date h he.has (by omega) (by omega) ha hat
    rw [Date.le_def] at hdate
    exact hz.opened h hskips hd hlo (by omega) (Date.lt_def.mpr (by omega))
  · obtain ⟨a, -, -, ha, -, -, hat, -⟩ := hopen
    have hge := he.le
    rw [Date.le_def] at hge hhi
    have hle := hnext (Date.le_def.mpr (by omega)) (Date.le_def.mpr (by omega)) he
    have hdate := hz.le_date h he.has (by omega) (by omega) ha hat
    rw [Date.le_def] at hdate
    omega
  · have hge := he.le
    rw [Date.lt_def] at hhi
    have hle := hnext hlo (Date.le_def.mpr (by omega)) he
    rw [Date.le_def] at hge hlo
    exact hz.opened h hskips he.has (Date.le_def.mpr (by omega)) (by omega)
      (Date.lt_def.mpr (by omega))

end

end Regular

end Partition

/-! ### Zones of transitions -/

section Transitions

open Routine (Transitions Offset transitionsLibrary)

variable {z : Transitions} {lo hi : Date}

theorem inland_transitions (hlo : Calendar.minDay + 6 ≤ lo.num)
    (hhi : hi.num ≤ Calendar.maxDay - 6) : Inland (L := transitionsLibrary) z lo hi where
  lo_ge := by omega
  hi_le := by omega
  placed := fun _ hge hle => z.exists_timestamp (by dsimp only; omega) (by dsimp only; omega)

theorem date_of_fixed (h : z.changes = []) {d : Date} {τ : Time} {i : Timestamp}
    (hat : at_ (L := transitionsLibrary) z d τ = .ok i) : (z.civil i).date = d := by
  have hns := Transitions.ns_of_fixed h (at_eq_ok.mp hat)
  have hday := ns_mem d τ
  apply Date.ext_num
  show (i.ns + (z.offset i).secs * 10 ^ 9 + utcEpoch) / (86400 * 10 ^ 9) = d.num
  rw [Transitions.offset_of_fixed h]
  unfold midnightNs hours at hday
  omega

theorem exists_of_fixed (h : z.changes = []) {d : Date} {b : Bool}
    (hb : exists_ (L := transitionsLibrary) z d = .ok b) : b = true := by
  obtain ⟨i, hat, hb⟩ := Result.bind_eq_ok_iff.mp hb
  rw [← Except.ok.inj hb]
  exact decide_eq_true (date_of_fixed h hat)

theorem skipsOne_of_fixed (h : z.changes = []) : SkipsOne (L := transitionsLibrary) z :=
  fun _ hd => nomatch exists_of_fixed h hd

theorem regular_of_fixed (h : z.changes = []) : Regular (L := transitionsLibrary) z where
  midnight := by
    intro d i t hat
    have hns := Transitions.ns_of_fixed h (at_eq_ok.mp hat)
    have hdate : ((z.civil t).date).num =
        (t.ns + z.first.secs * 10 ^ 9 + utcEpoch) / (86400 * 10 ^ 9) := by
      rw [← Transitions.offset_of_fixed h t]
      rfl
    show i.ns ≤ t.ns ↔ d.num ≤ ((z.civil t).date).num
    rw [hdate, hns]
    unfold DateTime.ns Time.midnight
    dsimp only
    omega
  shows := by
    intro d e τ i hfirst hat
    show (z.civil i).date = e
    rw [date_of_fixed h hat]
    refine hfirst.le.lt_or_eq.resolve_left fun hlt => ?_
    exact nomatch exists_of_fixed h (hfirst.skipped le_rfl hlt)

def utcZone : Transitions := ⟨⟨0, Offset.zero_lt⟩, [], Offset.sorted_nil⟩

/-- Up at seven and to bed at one, every day. -/
def nightOwl : DaySchedule :=
  ⟨fun _ => some ⟨⟨7 * (3600 * 10 ^ 9), by decide⟩, ⟨3600 * 10 ^ 9, by decide⟩, by decide⟩,
    fun _ => none, fun _ => none⟩

theorem partitions_iff_utc :
    Partitions (L := transitionsLibrary) nightOwl utcZone ⟨738000, by decide⟩
      ⟨739000, by decide⟩ := by
  have hland : Inland (L := transitionsLibrary) utcZone ⟨738000, by decide⟩ ⟨739000, by decide⟩ :=
    inland_transitions (by decide) (by decide)
  have hskips : SkipsOne (L := transitionsLibrary) utcZone := skipsOne_of_fixed rfl
  exact (partitions_iff hland hskips).mpr ((regular_of_fixed rfl).steady hland hskips)

/-- Newfoundland in 2010: on the seventh of November, at one minute past midnight, the clock was set
back by an hour. -/
def newfoundland : Transitions where
  first := ⟨-9000, by decide⟩
  changes := [(⟨14920 * (86400 * 10 ^ 9) + 9060 * 10 ^ 9, by decide⟩, ⟨-12600, by decide⟩)]
  sorted := List.pairwise_singleton _ _

theorem exists_newfoundland {d : Date} {b : Bool}
    (hb : exists_ (L := transitionsLibrary) newfoundland d = .ok b) : b = true := by
  obtain ⟨i, hat, hb⟩ := Result.bind_eq_ok_iff.mp hb
  rw [← Except.ok.inj hb]
  refine decide_eq_true (Date.ext_num ?_)
  show (i.ns + (newfoundland.offset i).secs * 10 ^ 9 + utcEpoch) / (86400 * 10 ^ 9) = d.num
  have hns : i.ns = Transitions.place (d.num * (86400 * 10 ^ 9) - utcEpoch) newfoundland.first
      newfoundland.changes := by
    rw [Transitions.ns_of_timestamp (at_eq_ok.mp hat)]
    unfold DateTime.ns Time.midnight
    simp only [Nat.cast_zero, add_zero]
  have hoffset : (newfoundland.offset i).secs =
      if (14920 * (86400 * 10 ^ 9) + 9060 * 10 ^ 9 : ℤ) ≤ i.ns then -12600 else -9000 :=
    apply_ite Offset.secs _ _ _
  rw [hoffset]
  unfold newfoundland Transitions.place Transitions.place utcEpoch at *
  dsimp only at hns
  split at hns
  · split
    · omega
    · omega
  · split
    · omega
    · omega

/-- Half an hour later it is half past eleven of the sixth again, whose planner day is over. -/
theorem not_partitions : ¬ ∀ (s : DaySchedule) (z : Transitions) (lo hi : Date),
    Inland (L := transitionsLibrary) z lo hi → SkipsOne (L := transitionsLibrary) z →
      Partitions (L := transitionsLibrary) s z lo hi := by
  intro h
  have hpart := h .empty newfoundland ⟨734000, by decide⟩ ⟨735000, by decide⟩
    (inland_transitions (by decide) (by decide)) fun _ hd => nomatch exists_newfoundland hd
  -- half past eleven
  have hday := hpart.plannerDate_iff (t := ⟨14920 * (86400 * 10 ^ 9) + 10800 * 10 ^ 9, by decide⟩)
    (d := ⟨734081, by decide⟩) (by decide) (by decide) (by decide) (by decide)
  obtain ⟨f, g, hbounds, -, hlt⟩ := hday.mp (by decide)
  have hover : dayBounds (L := transitionsLibrary) .empty newfoundland ⟨734081, by decide⟩ =
      .ok (⟨14919 * (86400 * 10 ^ 9) + 9000 * 10 ^ 9, by decide⟩,
        ⟨14920 * (86400 * 10 ^ 9) + 9000 * 10 ^ 9, by decide⟩) := by
    decide
  rw [hover] at hbounds
  cases hbounds
  exact absurd hlt (by decide)

end Transitions

end Planner

end Sunrise
