import Sunrise.Lib.Rolling

/-!
# Pairing attempts

The relay holds the pairing attempts of a key to so many in any rolling hour and, it may be, so many
in any rolling day. It logs the attempts it admits, forgets what is a day old, and drops a log in
which nothing else is left.

All that counts of a log is what it has of the last day. So it may stand for the whole history of
admissions, from which there is one time an attempt has to wait for.

* `tryAdmit`, `isIdle` — an attempt, and a log that may be dropped.
* `windows_exact` — **the limits hold over any span, and a refusal promises just what it costs.**
-/

namespace Sunrise.Attempts

open Rolling

def hourMs : ℕ := 60 * 60 * 1000

def dayMs : ℕ := 24 * hourMs

structure AttemptLimit where
  perHour : ℕ
  perDay : Option ℕ

/-- The attempts admitted, oldest first. -/
abbrev AttemptWindow := List ℕ

def forgetBefore (w : AttemptWindow) (horizonMs : ℕ) : AttemptWindow :=
  w.dropWhile fun t => decide (t ≤ horizonMs)

def fullUntil (w : AttemptWindow) (cap spanMs nowMs : ℕ) : Option ℕ :=
  let inside := beyond (nowMs - spanMs) w
  if inside.length < cap then none
  else some (max ((fromEnd cap inside + spanMs) % 2 ^ 64 - nowMs) 1)

def tryAdmit (limit : AttemptLimit) (w : AttemptWindow) (nowMs : ℕ) :
    Except ℕ Unit × AttemptWindow :=
  let w := forgetBefore w (nowMs - dayMs)
  let wait := (fullUntil w limit.perHour hourMs nowMs).elim 0 (max 0)
  let wait :=
    match limit.perDay with
    | some perDay => (fullUntil w perDay dayMs nowMs).elim wait (max wait)
    | none => wait
  if 0 < wait then (.error wait, w) else (.ok (), w ++ [nowMs])

def isIdle (w : AttemptWindow) (nowMs : ℕ) : Bool := w.all fun t => decide (t ≤ nowMs - dayMs)

/-- What comes to a log: an attempt, or a sweep that drops it where it may be. -/
inductive Event where
  | attempt (nowMs : ℕ)
  | sweep (nowMs : ℕ)

def Event.nowMs : Event → ℕ
  | .attempt nowMs => nowMs
  | .sweep nowMs => nowMs

def Event.isAttempt : Event → Bool
  | .attempt _ => true
  | .sweep _ => false

/-- The attempts with what came of them, and the log at the end. -/
def run (limit : AttemptLimit) : AttemptWindow → List Event →
    List (ℕ × Except ℕ Unit) × AttemptWindow
  | w, [] => ([], w)
  | w, .attempt nowMs :: es =>
    let r := tryAdmit limit w nowMs
    let rest := run limit r.2 es
    ((nowMs, r.1) :: rest.1, rest.2)
  | w, .sweep nowMs :: es => run limit (if isIdle w nowMs then [] else w) es

/-- The times of those admitted. -/
def admissions (outcomes : List (ℕ × Except ℕ Unit)) : List ℕ :=
  outcomes.filterMap fun o => if o.2.isOk then some o.1 else none

/-! ### What counts of a log -/

/-- The logs are one for the last day, now and later. -/
def Agree (nowMs : ℕ) (w v : AttemptWindow) : Prop :=
  beyond (nowMs - dayMs) w = beyond (nowMs - dayMs) v

variable {limit : AttemptLimit} {w v : AttemptWindow} {now now' : ℕ}

theorem Agree.beyond_eq (h : Agree now w v) {x : ℕ} (hx : now - dayMs ≤ x) :
    beyond x w = beyond x v := by
  rw [← beyond_beyond hx, h, beyond_beyond hx]

theorem Agree.later (h : Agree now w v) (hle : now ≤ now') : Agree now' w v :=
  h.beyond_eq (Nat.sub_le_sub_right hle _)

theorem Agree.forgetBefore (w : AttemptWindow) (now : ℕ) :
    Agree now (forgetBefore w (now - dayMs)) w :=
  beyond_dropWhile

theorem Agree.push (h : Agree now w v) : Agree now (w ++ [now]) (v ++ [now]) := by
  unfold Agree beyond at *
  rw [List.filter_append, List.filter_append, h]

theorem Agree.swept (h : isIdle w now = true) : Agree now [] w := by
  refine (List.filter_eq_nil_iff.mpr fun t ht => ?_).symm
  have hold := List.all_eq_true.mp h t ht
  simp only [decide_eq_true_iff] at hold ⊢
  omega

theorem Agree.fullUntil (h : Agree now w v) (cap : ℕ) {spanMs : ℕ} (hspan : spanMs ≤ dayMs) :
    fullUntil w cap spanMs now = fullUntil v cap spanMs now := by
  unfold Attempts.fullUntil
  rw [h.beyond_eq (Nat.sub_le_sub_left hspan now)]

theorem Agree.tryAdmit (h : Agree now w v) :
    (tryAdmit limit w now).1 = (tryAdmit limit v now).1 ∧
      Agree now (tryAdmit limit w now).2 (tryAdmit limit v now).2 := by
  have hagree : Agree now (Attempts.forgetBefore w (now - dayMs))
      (Attempts.forgetBefore v (now - dayMs)) :=
    (forgetBefore w now).trans (h.trans (forgetBefore v now).symm)
  have hhour := hagree.fullUntil limit.perHour (show hourMs ≤ dayMs by decide)
  have hday (cap : ℕ) := hagree.fullUntil cap le_rfl
  unfold Attempts.tryAdmit
  simp only [hhour, hday]
  split
  all_goals
    split
    · exact ⟨rfl, hagree⟩
    · exact ⟨rfl, hagree.push⟩

/-- **They go on admitting the same, swept or not.** -/
theorem Agree.run {es : List Event} (h : Agree now w v) (hle : ∀ e ∈ es, now ≤ e.nowMs)
    (hes : es.Pairwise fun a b => a.nowMs ≤ b.nowMs) :
    (run limit w es).1 = (run limit v (es.filter Event.isAttempt)).1 := by
  induction es generalizing w v now with
  | nil => rfl
  | cons e es ih =>
    obtain ⟨hnext, htail⟩ := List.pairwise_cons.mp hes
    have hnow := h.later (hle e List.mem_cons_self)
    cases e with
    | attempt t =>
      obtain ⟨hfst, hsnd⟩ : (Attempts.tryAdmit limit w t).1 = (Attempts.tryAdmit limit v t).1 ∧
          Agree t (Attempts.tryAdmit limit w t).2 (Attempts.tryAdmit limit v t).2 := hnow.tryAdmit
      rw [List.filter_cons_of_pos rfl, Attempts.run, Attempts.run]
      simp only [hfst]
      rw [ih hsnd hnext htail]
    | sweep t =>
      rw [List.filter_cons_of_neg Bool.false_ne_true, Attempts.run]
      refine ih ?_ hnext htail
      split
      next hidle => exact (Agree.swept hidle).trans hnow
      next => exact hnow

/-! ### The time to wait for -/

def opensAt (w : AttemptWindow) (cap spanMs : ℕ) : ℕ :=
  if cap ≤ w.length then fromEnd cap w + spanMs else 0

def AttemptLimit.caps (limit : AttemptLimit) : List (ℕ × ℕ) :=
  (limit.perHour, hourMs) :: limit.perDay.toList.map fun perDay => (perDay, dayMs)

/-- When all of them are. -/
def opens (limit : AttemptLimit) (w : AttemptWindow) : ℕ :=
  max (opensAt w limit.perHour hourMs) (limit.perDay.elim 0 fun perDay => opensAt w perDay dayMs)

/-- Times of a clock that is not at its ends, in order. -/
structure Timed (w : AttemptWindow) : Prop where
  sorted : w.Pairwise (· ≤ ·)
  pos : ∀ t ∈ w, 1 ≤ t
  lt : ∀ t ∈ w, t < 2 ^ 63

theorem lt_opensAt_iff (hw : Timed w) {cap spanMs : ℕ} (hcap : 1 ≤ cap) :
    now < opensAt w cap spanMs ↔ cap ≤ (beyond (now - spanMs) w).length := by
  rw [le_length_beyond_iff hw.sorted hcap, opensAt]
  split
  next hlen =>
    have hpos := hw.pos _ (fromEnd_mem hcap hlen)
    simp only [hlen, true_and]
    omega
  next hlen => simp [hlen]

theorem fullUntil_eq (hw : Timed w) {cap spanMs : ℕ} (hcap : 1 ≤ cap) (hspan : spanMs ≤ dayMs)
    (wait : ℕ) : (fullUntil w cap spanMs now).elim wait (max wait) =
      max wait (opensAt w cap spanMs - now) := by
  have hiff := @lt_opensAt_iff w now hw cap spanMs hcap
  unfold fullUntil
  simp only
  split
  next hfew =>
    have hopen : opensAt w cap spanMs ≤ now := not_lt.mp fun h => absurd (hiff.mp h) (by omega)
    rw [Nat.sub_eq_zero_of_le hopen, Option.elim_none, Nat.max_zero]
  next hfull =>
    have hlen := not_lt.mp hfull
    obtain ⟨hle, -⟩ := (le_length_beyond_iff hw.sorted hcap).mp hlen
    have hopens := hiff.mpr hlen
    rw [opensAt, if_pos hle] at hopens ⊢
    have hlt := hw.lt _ (fromEnd_mem hcap hle)
    have hday : dayMs < 2 ^ 63 := by decide
    rw [Option.elim_some, fromEnd_beyond hw.sorted hlen, Nat.mod_eq_of_lt (by omega)]
    congr 1
    omega

def AttemptLimit.Positive (limit : AttemptLimit) : Prop := ∀ c ∈ limit.caps, 1 ≤ c.1

/-- **An attempt waits for the time the windows open.** -/
theorem tryAdmit_fst (hlimit : limit.Positive) (hw : Timed w) (now : ℕ) :
    (tryAdmit limit w now).1 =
      if now < opens limit w then .error (opens limit w - now) else .ok () := by
  have hagree := Agree.forgetBefore w now
  have hhour := hagree.fullUntil limit.perHour (show hourMs ≤ dayMs by decide)
  have hwait : (tryAdmit limit w now).1 =
      if 0 < opens limit w - now then .error (opens limit w - now) else .ok () := by
    unfold tryAdmit opens
    simp only [hhour]
    rw [fullUntil_eq hw (hlimit _ List.mem_cons_self) (by decide), Nat.zero_max]
    cases hperDay : limit.perDay with
    | none =>
      simp only [Option.elim_none, Nat.max_zero]
      rw [apply_ite Prod.fst]
    | some perDay =>
      have hcap : 1 ≤ perDay := hlimit (perDay, dayMs) (by simp [AttemptLimit.caps, hperDay])
      simp only [hagree.fullUntil perDay le_rfl, Option.elim_some]
      rw [fullUntil_eq hw hcap le_rfl, Nat.sub_max_sub_right, apply_ite Prod.fst]
      rfl
  rw [hwait]
  simp only [Nat.sub_pos_iff_lt]

theorem lt_opens_iff : now < opens limit w ↔ ∃ c ∈ limit.caps, now < opensAt w c.1 c.2 := by
  unfold opens AttemptLimit.caps
  cases limit.perDay <;> simp

/-! ### Runs -/

def inSpan (x spanMs : ℕ) (w : List ℕ) : ℕ := w.countP fun t => decide (x < t ∧ t ≤ x + spanMs)

/-- The log stands for the history of what was admitted, which is within its caps. -/
structure Tracks (limit : AttemptLimit) (now : ℕ) (w history : AttemptWindow) : Prop where
  agree : Agree now w history
  timed : Timed history
  le : ∀ t ∈ history, t ≤ now
  capped : ∀ c ∈ limit.caps, ∀ x, inSpan x c.2 history ≤ c.1

theorem tryAdmit_cases (limit : AttemptLimit) (w : AttemptWindow) (now : ℕ) :
    (∃ wait, tryAdmit limit w now = (.error wait, forgetBefore w (now - dayMs))) ∨
      tryAdmit limit w now = (.ok (), forgetBefore w (now - dayMs) ++ [now]) := by
  have hcases (wait : ℕ) (v : AttemptWindow) :
      (∃ x, (if 0 < wait then (.error wait, v) else (.ok (), v ++ [now])) =
        ((.error x, v) : Except ℕ Unit × AttemptWindow)) ∨
      (if 0 < wait then (.error wait, v) else (.ok (), v ++ [now])) =
        ((.ok (), v ++ [now]) : Except ℕ Unit × AttemptWindow) := by
    split
    · exact .inl ⟨wait, rfl⟩
    · exact .inr rfl
  exact hcases _ _

namespace Tracks

variable {history : AttemptWindow}

section

variable (h : Tracks limit now w history)
include h

theorem later (hle : now ≤ now') : Tracks limit now' w history :=
  ⟨h.agree.later hle, h.timed, fun t ht => (h.le t ht).trans hle, h.capped⟩

theorem outcome (hlimit : limit.Positive) (hle : now ≤ now') :
    (tryAdmit limit w now').1 =
      if now' < opens limit history then .error (opens limit history - now') else .ok () := by
  rw [(h.agree.later hle).tryAdmit.1, tryAdmit_fst hlimit h.timed]

theorem inSpan_admitted (hlimit : limit.Positive)
    (hopen : ¬ now < opens limit history) {c : ℕ × ℕ} (hc : c ∈ limit.caps) {x : ℕ}
    (hx : now ≤ x + c.2) : inSpan x c.2 history < c.1 := by
  have hfew : ¬ c.1 ≤ (beyond (now - c.2) history).length := by
    rw [← lt_opensAt_iff h.timed (hlimit c hc)]
    exact fun hlt => hopen (lt_opens_iff.mpr ⟨c, hc, hlt⟩)
  rw [beyond, ← List.countP_eq_length_filter, not_le] at hfew
  refine (List.countP_mono_left fun t _ ht => ?_).trans_lt hfew
  rw [decide_eq_true_iff] at ht ⊢
  omega

theorem attempt (hlimit : limit.Positive) (hle : now ≤ now')
    (hpos : 1 ≤ now') (hlt : now' < 2 ^ 63) : Tracks limit now' (tryAdmit limit w now').2
      (history ++ admissions [(now', (tryAdmit limit w now').1)]) := by
  have hnow := h.later hle
  have hforget := (Agree.forgetBefore w now').trans hnow.agree
  have houtcome := hnow.outcome hlimit le_rfl
  rcases tryAdmit_cases limit w now' with ⟨wait, heq⟩ | heq
  · rw [heq, show admissions [(now', (.error wait : Except ℕ Unit))] = [] from rfl,
      List.append_nil]
    exact { hnow with agree := hforget }
  · have hopen : ¬ now' < opens limit history := by
      intro hclosed
      rw [heq, if_pos hclosed] at houtcome
      cases houtcome
    rw [heq, show admissions [(now', (.ok () : Except ℕ Unit))] = [now'] from rfl]
    refine ⟨Agree.push hforget, ⟨?_, ?_, ?_⟩, ?_, fun c hc x => ?_⟩
    · refine List.pairwise_append.mpr ⟨h.timed.sorted, List.pairwise_singleton _ _, ?_⟩
      simpa using hnow.le
    · simpa [or_imp, forall_and] using ⟨h.timed.pos, hpos⟩
    · simpa [or_imp, forall_and] using ⟨h.timed.lt, hlt⟩
    · simpa [or_imp, forall_and] using hnow.le
    · rw [inSpan, List.countP_append, List.countP_singleton]
      split
      next hin =>
        -- Those in a span with the attempt are in the span that ends at it.
        exact hnow.inSpan_admitted hlimit hopen hc (of_decide_eq_true hin).2
      next => exact h.capped c hc x

end

theorem run {ts : List ℕ} (h : Tracks limit now w history) (hlimit : limit.Positive)
    (hts : ts.Pairwise (· ≤ ·)) (hrange : ∀ t ∈ ts, 1 ≤ t ∧ t < 2 ^ 63) (hfrom : ∀ t ∈ ts, now ≤ t)
    (hto : ∀ t ∈ ts, t ≤ now') (hle : now ≤ now') :
    Tracks limit now' (run limit w (ts.map .attempt)).2
      (history ++ admissions (Attempts.run limit w (ts.map .attempt)).1) := by
  induction ts generalizing w history now with
  | nil => simpa [Attempts.run, admissions] using h.later hle
  | cons t ts ih =>
    obtain ⟨hnext, hts⟩ := List.pairwise_cons.mp hts
    obtain ⟨⟨hpos, hlt⟩, hrange⟩ := List.forall_mem_cons.mp hrange
    have hstep := h.attempt hlimit (hfrom t List.mem_cons_self) hpos hlt
    have hrest := ih hstep hts hrange hnext (fun u hu => hto u (List.mem_cons_of_mem _ hu))
      (hto t List.mem_cons_self)
    rw [List.append_assoc] at hrest
    have hsplit (o : ℕ × Except ℕ Unit) (l : List (ℕ × Except ℕ Unit)) :
        admissions (o :: l) = admissions [o] ++ admissions l := by
      rw [admissions, admissions, admissions, ← List.filterMap_append]
      rfl
    rw [List.map_cons, Attempts.run]
    simp only
    rwa [hsplit]

theorem empty (limit : AttemptLimit) : Tracks limit 0 [] [] :=
  ⟨rfl, ⟨.nil, by simp, by simp⟩, by simp, fun _ _ _ => Nat.zero_le _⟩

theorem lt_opens_iff_full (h : Tracks limit now w history) (hlimit : limit.Positive) :
    now < opens limit history ↔ ∃ c ∈ limit.caps,
      (history.countP fun t => decide (now < t + c.2 ∧ t ≤ now)) = c.1 := by
  rw [lt_opens_iff]
  refine exists_congr fun c => and_congr_right fun hc => ?_
  have hcount {p q : ℕ → Prop} [DecidablePred p] [DecidablePred q]
      (hpq : ∀ t, 1 ≤ t → t ≤ now → (p t ↔ q t)) :
      (history.countP fun t => decide (p t)) = history.countP fun t => decide (q t) := by
    refine List.countP_congr fun t ht => ?_
    rw [decide_eq_true_iff, decide_eq_true_iff]
    exact hpq t (h.timed.pos t ht) (h.le t ht)
  have hcap : (history.countP fun t => decide (now < t + c.2 ∧ t ≤ now)) ≤ c.1 := by
    refine le_of_eq_of_le (hcount fun t _ _ => ?_) (h.capped c hc (now - c.2))
    omega
  rw [lt_opensAt_iff h.timed (hlimit c hc), beyond, ← List.countP_eq_length_filter,
    hcount (q := fun t => now < t + c.2 ∧ t ≤ now) fun t _ _ => by omega]
  exact ⟨hcap.antisymm, fun heq => heq.ge⟩

theorem refused_iff (h : Tracks limit now w history) (hlimit : limit.Positive) (wait : ℕ) :
    (tryAdmit limit w now).1 = .error wait ↔
      now < opens limit history ∧ wait = opens limit history - now := by
  rw [h.outcome hlimit le_rfl]
  split
  next hclosed => simp [hclosed, eq_comm]
  next hopen => simp [hopen]

theorem refused (h : Tracks limit now w history) {wait : ℕ}
    (hwait : (tryAdmit limit w now).1 = .error wait) :
    Tracks limit now (tryAdmit limit w now).2 history := by
  rcases tryAdmit_cases limit w now with ⟨_, heq⟩ | heq
  · rw [heq]
    exact { h with agree := (Agree.forgetBefore w now).trans h.agree }
  · rw [heq] at hwait
    cases hwait

end Tracks

/-- The log after some attempts, and the times of those admitted. -/
def logAfter (limit : AttemptLimit) (ts : List ℕ) : AttemptWindow :=
  (run limit [] (ts.map .attempt)).2

def historyOf (limit : AttemptLimit) (ts : List ℕ) : List ℕ :=
  admissions (run limit [] (ts.map .attempt)).1

theorem tracks_logAfter (hlimit : limit.Positive) {ts : List ℕ} (hts : ts.Pairwise (· ≤ ·))
    (hrange : ∀ t ∈ ts, 1 ≤ t ∧ t < 2 ^ 63) (hle : ∀ t ∈ ts, t ≤ now) :
    Tracks limit now (logAfter limit ts) (historyOf limit ts) :=
  (Tracks.empty limit).run hlimit hts hrange (fun _ _ => Nat.zero_le _) hle (Nat.zero_le _)

/-- **The windows hold and promise exactly.** No span has more admissions than its cap, and only a
full span that ends at an attempt refuses it. A refusal changes nothing that follows, and its wait
is the least; sweeping changes nothing. -/
theorem windows_exact (limit : AttemptLimit) (hlimit : limit.Positive) (ts : List ℕ)
    (hts : ts.Pairwise (· ≤ ·)) (hrange : ∀ t ∈ ts, 1 ≤ t ∧ t < 2 ^ 63) :
    (∀ c ∈ limit.caps, ∀ x, inSpan x c.2 (historyOf limit ts) ≤ c.1) ∧
    (∀ before t rest, ts = before ++ t :: rest →
      ((∃ wait, (tryAdmit limit (logAfter limit before) t).1 = .error wait) ↔
        ∃ c ∈ limit.caps,
          ((historyOf limit before).countP fun a => decide (t < a + c.2 ∧ a ≤ t)) = c.1) ∧
      ∀ wait, (tryAdmit limit (logAfter limit before) t).1 = .error wait →
        (∀ es : List Event, (∀ e ∈ es, t ≤ e.nowMs) → es.Pairwise (fun a b => a.nowMs ≤ b.nowMs) →
          (run limit (tryAdmit limit (logAfter limit before) t).2 es).1 =
            (run limit (logAfter limit before) es).1) ∧
        1 ≤ wait ∧ ∀ later, (tryAdmit limit (tryAdmit limit (logAfter limit before) t).2
          (t + later)).1 = .ok () ↔ wait ≤ later) ∧
    (∀ es : List Event, es.Pairwise (fun a b => a.nowMs ≤ b.nowMs) →
      es.filter Event.isAttempt = ts.map .attempt →
      (run limit [] es).1 = (run limit [] (ts.map .attempt)).1) := by
  refine ⟨?_, ?_, fun es hes hattempts => ?_⟩
  · exact (tracks_logAfter hlimit hts hrange fun t ht => (hrange t ht).2.le).capped
  · rintro before t rest rfl
    obtain ⟨hbefore, -, hle⟩ := List.pairwise_append.mp hts
    have htracks := tracks_logAfter hlimit hbefore
      (fun u hu => hrange u (List.mem_append_left _ hu)) fun u hu => hle u hu t List.mem_cons_self
    refine ⟨?_, fun wait hwait => ⟨fun es hfrom hes => ?_, ?_⟩⟩
    · rw [← htracks.lt_opens_iff_full hlimit]
      simp only [htracks.refused_iff hlimit]
      exact ⟨fun ⟨_, h, _⟩ => h, fun h => ⟨_, h, rfl⟩⟩
    · have hagree := (htracks.refused hwait).agree.trans htracks.agree.symm
      rw [Agree.run hagree hfrom hes, Agree.run (Eq.refl (beyond (t - dayMs) _)) hfrom hes]
    · obtain ⟨hclosed, rfl⟩ := (htracks.refused_iff hlimit wait).mp hwait
      refine ⟨by omega, fun later => ?_⟩
      rw [(htracks.refused hwait).outcome hlimit (Nat.le_add_right t later)]
      split
      next h => exact iff_of_false (fun h => by cases h) (by omega)
      next h => exact iff_of_true rfl (by omega)
  · rw [Agree.run (Eq.refl (beyond (0 - dayMs) _)) (fun _ _ => Nat.zero_le _) hes, hattempts]

/-- Two an hour and three a day: the third attempt of an hour waits, the fourth of a day too. -/
theorem windows_exact_two :
    (run ⟨2, some 3⟩ [] ([5, 5, 3600000, 3600005, 3600006].map .attempt)).1.map Prod.snd =
      [.ok (), .ok (), .error 5, .ok (), .error 82799999] ∧
    ∀ c ∈ AttemptLimit.caps ⟨2, some 3⟩, ∀ x,
      inSpan x c.2 (historyOf ⟨2, some 3⟩ [5, 5, 3600000, 3600005, 3600006]) ≤ c.1 :=
  ⟨by decide +kernel, (windows_exact ⟨2, some 3⟩ (by unfold AttemptLimit.Positive; decide)
    [5, 5, 3600000, 3600005, 3600006] (by decide) (by decide)).1⟩

end Sunrise.Attempts
