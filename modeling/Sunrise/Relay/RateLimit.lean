import Sunrise.Lib.Gcra
import Sunrise.Lib.Table
import Mathlib.Algebra.BigOperators.Ring.List
import Mathlib.Algebra.Ring.Nat
import Mathlib.Data.Set.Basic
import Mathlib.Data.String.Basic
import Mathlib.Order.Bounds.Defs

/-!
# Rate limits

The relay limits how fast a client may call it by one bucket for each key, a rate of some units a
period with a burst of the same number. The bucket is kept by the generic cell rate algorithm, on a
clock whose ticks are so short that a unit is a whole number of them. A request that costs more
than a burst is admitted from a full bucket only, and is then charged in full.

The buckets are kept in a map that forgets those that are full again when it runs out of room. That
changes no answer: a full bucket has no past. The numbers of the source are unsigned ones of 64 and
128 bits. Here they are naturals, the sums those of runs in which none overflows, and the numbers
the source caps at the greatest of 64 bits are capped.

## Main definitions

* `admitted`, `outcomes` — runs of requests, and runs in which cells are forgotten.

## Main results

* `admitted_window` — what is admitted from one admission to another.
* `exists_wait_of_refused` — when a refused request is admitted.
* `outcomes_eq` — forgetting full buckets changes no outcome.
* `gcra_bounds` — **the three, for every run of requests.**
* `storeOutcomes_eq` — **the map answers as one bucket for each key.**
-/

namespace Sunrise

namespace RateLimit

/-- The greatest number of 64 bits. -/
def u64Max : ℕ := 2 ^ 64 - 1

/-- A rate, and the burst it allows. -/
structure Quota where
  limit : ℕ
  periodMs : ℕ
deriving DecidableEq, Repr

namespace Quota

/-- The limit as the bucket counts it: at least one unit. -/
def units (q : Quota) : ℕ := max q.limit 1

def ticks (q : Quota) (ms : ℕ) : ℕ := ms * q.units

/-- One unit, in ticks. -/
def interval (q : Quota) : ℕ := max q.periodMs 1

/-- A whole bucket, in ticks. -/
def burst (q : Quota) : ℕ := q.units * q.interval

/-- Ticks in milliseconds, rounded up. -/
def msCeil (q : Quota) (ticks : ℕ) : ℕ := min ((ticks + (q.units - 1)) / q.units) u64Max

end Quota

/-- One key's bucket. -/
structure Cell where
  tat : ℕ
  idleAtMs : ℕ
  refusing : Bool
deriving DecidableEq, Repr

/-- The bucket of a key that has none. -/
def Cell.default : Cell := ⟨0, 0, false⟩

/-- The bucket is not worth keeping. -/
def Cell.isIdle (c : Cell) (nowMs : ℕ) : Bool := Decidable.decide (c.idleAtMs ≤ nowMs)

/-- What a decision reports. -/
structure Outcome where
  allowed : Bool
  /-- How long until a refused request would be admitted. -/
  retryAfterMs : ℕ
  remaining : ℕ
  firstRefusal : Bool
deriving DecidableEq, Repr

/-- An admission that consulted nothing. -/
def Outcome.untracked (limit : ℕ) : Outcome := ⟨true, 0, limit, false⟩

/-- Decide a request of `cost` units, and the bucket after it. A cost of zero asks whether one unit
would be admitted. -/
def decide (q : Quota) (cell : Option Cell) (nowMs cost : ℕ) : Outcome × Cell :=
  let cell := cell.getD .default
  let now := q.ticks nowMs
  let base := max cell.tat now
  let need := min (max cost 1) q.units * q.interval
  let charge := cost * q.interval
  if base + need - now ≤ q.burst then
    let tat := base + charge
    (⟨true, 0, min ((q.burst - (tat - now)) / q.interval) u64Max, false⟩,
      ⟨tat, q.msCeil tat, false⟩)
  else
    (⟨false, q.msCeil (base + need - now - q.burst), 0, !cell.refusing⟩,
      { cell with refusing := true })

/-! ### Runs of requests -/

/-- A request of a key. -/
structure Request where
  nowMs : ℕ
  cost : ℕ
deriving DecidableEq, Repr

def admitted (q : Quota) : Option Cell → List Request → List Request
  | _, [] => []
  | cell, r :: rs =>
    let (outcome, next) := decide q cell r.nowMs r.cost
    if outcome.allowed then r :: admitted q (some next) rs else admitted q (some next) rs

def cellAfter (q : Quota) (rs : List Request) : Option Cell :=
  rs.foldl (fun cell r => some (decide q cell r.nowMs r.cost).2) none

/-- What happens to a key's bucket. -/
inductive Event where
  | request (r : Request)
  | forget (nowMs : ℕ)
deriving DecidableEq, Repr

def Event.nowMs : Event → ℕ
  | request r => r.nowMs
  | forget nowMs => nowMs

def Event.isRequest : Event → Bool
  | request _ => true
  | forget _ => false

/-- The outcomes of the requests of a run. -/
def outcomes (q : Quota) : Option Cell → List Event → List Outcome
  | _, [] => []
  | cell, .request r :: es =>
    let (outcome, next) := decide q cell r.nowMs r.cost
    outcome :: outcomes q (some next) es
  | cell, .forget nowMs :: es => outcomes q (cell.filter fun c => !c.isIdle nowMs) es

/-! ### One decision -/

/-- A request as an arrival at its bucket. -/
def Quota.arrival (q : Quota) (nowMs cost : ℕ) : Gcra.Arrival ℕ where
  now := q.ticks nowMs
  need := min (max cost 1) q.units * q.interval
  charge := cost * q.interval

/-- The arrival time of a bucket, of a full one where there is none. -/
def tatOf (cell : Option Cell) : ℕ := (cell.getD .default).tat

section

variable {q : Quota} {cell cell' : Option Cell} {nowMs nowMs' cost wait ticks : ℕ}

theorem Quota.units_pos (q : Quota) : 0 < q.units := Nat.lt_of_lt_of_le Nat.one_pos
    (le_max_right _ _)

theorem Quota.need_le_burst (q : Quota) (cost : ℕ) :
    min (max cost 1) q.units * q.interval ≤ q.burst :=
  Nat.mul_le_mul_right _ (min_le_right _ _)

theorem decide_allowed_iff : (decide q cell nowMs cost).1.allowed = true ↔
    Gcra.Admits q.burst (tatOf cell) (q.arrival nowMs cost) := by
  unfold decide Gcra.Admits Quota.arrival tatOf
  dsimp only
  have hbase : q.ticks nowMs ≤ max (cell.getD Cell.default).tat (q.ticks nowMs) := le_max_right _ _
  split
  next h =>
    simp only [true_iff]
    omega
  next h =>
    simp only [Bool.false_eq_true, false_iff]
    omega

theorem tatOf_decide_of_allowed (h : (decide q cell nowMs cost).1.allowed = true) :
    tatOf (some (decide q cell nowMs cost).2) =
      Gcra.next (tatOf cell) (q.arrival nowMs cost) := by
  unfold decide at h ⊢
  dsimp only at h ⊢
  split
  next => rfl
  next hnot =>
    rw [if_neg hnot] at h
    cases h

theorem tatOf_decide_of_refused (h : (decide q cell nowMs cost).1.allowed = false) :
    tatOf (some (decide q cell nowMs cost).2) = tatOf cell := by
  unfold decide at h ⊢
  dsimp only at h ⊢
  split
  next hyes =>
    rw [if_pos hyes] at h
    cases h
  next => rfl

theorem Quota.ceil_le_iff (q : Quota) : (ticks + (q.units - 1)) / q.units ≤ wait ↔
    ticks ≤ q.ticks wait := by
  have := q.units_pos
  unfold Quota.ticks
  rw [Nat.div_le_iff_le_mul_add_pred q.units_pos, Nat.mul_comm wait]
  omega

theorem retryAfterMs_of_refused (h : (decide q cell nowMs cost).1.allowed = false) :
    (decide q cell nowMs cost).1.retryAfterMs = q.msCeil (max (tatOf cell) (q.ticks nowMs) +
      min (max cost 1) q.units * q.interval - q.ticks nowMs - q.burst) := by
  unfold decide at h ⊢
  dsimp only at h ⊢
  split
  next hyes =>
    rw [if_pos hyes] at h
    cases h
  next => rfl

/-- **A refused request is admitted after a wait**, and not before. -/
theorem exists_wait_of_refused (h : (decide q cell nowMs cost).1.allowed = false) :
    ∃ wait, 0 < wait ∧
      (∀ w, (decide q (some (decide q cell nowMs cost).2) (nowMs + w) cost).1.allowed = true ↔
        wait ≤ w) ∧
      (decide q cell nowMs cost).1.retryAfterMs = min wait u64Max := by
  have hneed := q.need_le_burst cost
  -- the bucket is ahead of now, or the request would be admitted
  have hnot : ¬max (tatOf cell) (q.ticks nowMs) + min (max cost 1) q.units * q.interval ≤
      q.ticks nowMs + q.burst := fun hadmits => by
    rw [decide_allowed_iff.mpr hadmits] at h
    cases h
  refine ⟨_, Nat.pos_of_ne_zero fun hzero => ?_, fun w => ?_, retryAfterMs_of_refused h⟩
  · have hle := q.ceil_le_iff.mp hzero.le
    have hticks : q.ticks 0 = 0 := Nat.zero_mul _
    omega
  · rw [decide_allowed_iff, tatOf_decide_of_refused h, q.ceil_le_iff]
    have hticks : q.ticks (nowMs + w) = q.ticks nowMs + q.ticks w := Nat.add_mul _ _ _
    unfold Gcra.Admits Quota.arrival
    dsimp only
    rw [hticks]
    omega

theorem decide_idle (h : tatOf cell ≤ q.ticks nowMs) :
    decide q cell nowMs cost = decide q none nowMs cost := by
  have hneed := q.need_le_burst cost
  have hbase : max (cell.getD Cell.default).tat (q.ticks nowMs) = q.ticks nowMs := max_eq_right h
  have hnone : max ((none : Option Cell).getD Cell.default).tat (q.ticks nowMs) = q.ticks nowMs :=
    max_eq_right (Nat.zero_le _)
  unfold decide
  dsimp only
  rw [hbase, hnone, if_pos (by omega), if_pos (by omega)]

/-! ### What is admitted -/

theorem admits_of_admitted {rs pre post : List Request} {b : Request}
    (h : admitted q cell rs = pre ++ b :: post) :
    Gcra.Admits q.burst ((pre.map fun r => q.arrival r.nowMs r.cost).foldl Gcra.next (tatOf cell))
      (q.arrival b.nowMs b.cost) := by
  induction rs generalizing cell pre with
  | nil => exact absurd h.symm (List.append_ne_nil_of_right_ne_nil _ (List.cons_ne_nil _ _))
  | cons r rs ih =>
    rw [admitted] at h
    dsimp only at h
    split at h
    next hyes =>
      cases pre with
      | nil =>
        obtain ⟨rfl, -⟩ := List.cons.inj h
        exact decide_allowed_iff.mp hyes
      | cons a pre =>
        obtain ⟨rfl, hrest⟩ := List.cons.inj h
        rw [List.map_cons, List.foldl_cons, ← tatOf_decide_of_allowed hyes]
        exact ih hrest
    next hno =>
      rw [← tatOf_decide_of_refused (Bool.eq_false_iff.mpr hno)]
      exact ih h

theorem Quota.sum_charge (q : Quota) (rs : List Request) :
    ((rs.map fun r => q.arrival r.nowMs r.cost).map Gcra.Arrival.charge).sum =
      (rs.map Request.cost).sum * q.interval := by
  rw [List.map_map, ← List.sum_map_mul_right rs Request.cost q.interval]
  rfl

theorem admitted_window {rs pre w post : List Request} {a b : Request}
    (h : admitted q cell rs = pre ++ w ++ post) (ha : w.head? = some a) (hb : w.getLast? = some b) :
    (w.map Request.cost).sum * q.interval ≤ q.units * q.interval +
      q.units * (b.nowMs - a.nowMs) + (b.cost - q.units) * q.interval := by
  obtain ⟨l, rfl⟩ := List.getLast?_eq_some_iff.mp hb
  -- the last is charged its need and what it costs over a burst
  have hcharge : b.cost * q.interval ≤
      min (max b.cost 1) q.units * q.interval + (b.cost - q.units) * q.interval := by
    rw [← Nat.add_mul]
    exact Nat.mul_le_mul_right _ (by omega)
  rw [List.map_append, List.sum_append, Nat.add_mul]
  cases l with
  | nil =>
    have hneed := q.need_le_burst b.cost
    unfold Quota.burst at hneed
    simp only [List.map_nil, List.sum_nil, List.map_cons, Nat.zero_mul, List.sum_cons,
      Nat.add_zero, Nat.zero_add]
    omega
  | cons a' l =>
    obtain rfl : a' = a := Option.some.inj ha
    rw [show pre ++ (a' :: l ++ [b]) ++ post = (pre ++ a' :: l) ++ b :: post by simp] at h
    have hadmits := admits_of_admitted h
    rw [List.map_append, List.foldl_append, List.map_cons] at hadmits
    have hwindow := Gcra.window hadmits
    have hsum := q.sum_charge (a' :: l)
    rw [List.map_cons] at hsum
    rw [hsum] at hwindow
    have hticks : b.nowMs * q.units ≤ a'.nowMs * q.units + q.units * (b.nowMs - a'.nowMs) := by
      rw [Nat.mul_comm q.units, ← Nat.add_mul]
      exact Nat.mul_le_mul_right _ (by omega)
    simp only [Quota.arrival, Quota.ticks, Quota.burst] at hwindow
    simp only [List.map_cons, List.map_nil, List.sum_cons, List.sum_nil, Nat.add_zero] at hwindow ⊢
    omega

/-! ### What is forgotten -/

/-- Two buckets that answer alike from now on: the same one, or two that are full. -/
def Alike (q : Quota) (nowMs : ℕ) (cell cell' : Option Cell) : Prop :=
  cell = cell' ∨ tatOf cell ≤ q.ticks nowMs ∧ tatOf cell' ≤ q.ticks nowMs

/-- A bucket is idle when it is full. -/
def Sound (q : Quota) (cell : Option Cell) : Prop :=
  ∀ c, cell = some c → c.idleAtMs = q.msCeil c.tat

theorem Quota.ticks_le (q : Quota) (h : nowMs ≤ nowMs') : q.ticks nowMs ≤ q.ticks nowMs' :=
  Nat.mul_le_mul_right _ h

theorem Alike.mono (h : Alike q nowMs cell cell') (hle : nowMs ≤ nowMs') :
    Alike q nowMs' cell cell' :=
  h.imp_right fun ⟨hc, hc'⟩ => ⟨hc.trans (q.ticks_le hle), hc'.trans (q.ticks_le hle)⟩

theorem Alike.trans {cell'' : Option Cell} (h : Alike q nowMs cell cell')
    (h' : Alike q nowMs cell' cell'') : Alike q nowMs cell cell'' := by
  rcases h with rfl | ⟨hc, hc'⟩
  · exact h'
  · rcases h' with rfl | ⟨-, hc''⟩
    · exact .inr ⟨hc, hc'⟩
    · exact .inr ⟨hc, hc''⟩

theorem Alike.decide_eq (h : Alike q nowMs cell cell') :
    decide q cell nowMs cost = decide q cell' nowMs cost := by
  rcases h with rfl | ⟨hc, hc'⟩
  · rfl
  · rw [decide_idle hc, decide_idle hc']

theorem Sound.decide (h : Sound q cell) : Sound q (some (decide q cell nowMs cost).2) := by
  rintro c hc
  obtain rfl := Option.some.inj hc
  unfold RateLimit.decide
  dsimp only
  split
  · rfl
  · cases cell with
    | none =>
      simp [Cell.default, Quota.msCeil, Nat.div_eq_of_lt (Nat.sub_lt q.units_pos Nat.one_pos)]
    | some c => exact h c rfl

theorem Sound.tatOf_le (h : Sound q cell) {c : Cell} (hc : cell = some c)
    (hidle : c.isIdle nowMs = true) (hcap : nowMs < u64Max) : tatOf cell ≤ q.ticks nowMs := by
  have hle : q.msCeil c.tat ≤ nowMs := h c hc ▸ of_decide_eq_true hidle
  subst hc
  show c.tat ≤ _
  refine q.ceil_le_iff.mp ?_
  unfold Quota.msCeil at hle
  omega

theorem Sound.alike_forget (h : Sound q cell) (hcap : nowMs < u64Max) :
    Alike q nowMs (cell.filter fun c => !c.isIdle nowMs) cell := by
  cases hcell : cell with
  | none => exact .inl rfl
  | some c =>
    cases hidle : c.isIdle nowMs with
    | false => exact .inl (by simp [hidle])
    | true =>
      refine .inr ⟨?_, hcell ▸ h.tatOf_le hcell hidle hcap⟩
      rw [Option.filter, hidle]
      exact Nat.zero_le _

theorem Sound.forget (h : Sound q cell) : Sound q (cell.filter fun c => !c.isIdle nowMs) := by
  intro c hc
  exact h c (Option.filter_eq_some_iff.mp hc).1

theorem outcomes_eq {es : List Event} (hsound : Sound q cell) (halike : Alike q nowMs cell cell')
    (hstart : ∀ e ∈ es, nowMs ≤ e.nowMs) (hsorted : es.Pairwise fun e e' => e.nowMs ≤ e'.nowMs)
    (hcap : ∀ ms, .forget ms ∈ es → ms < u64Max) :
    outcomes q cell es = outcomes q cell' (es.filter Event.isRequest) := by
  induction es generalizing cell cell' nowMs with
  | nil => rfl
  | cons e es ih =>
    obtain ⟨hle, -⟩ := List.forall_mem_cons.mp hstart
    obtain ⟨hnext, hrest⟩ := List.pairwise_cons.mp hsorted
    have hcap' : ∀ ms, .forget ms ∈ es → ms < u64Max :=
      fun ms hms => hcap ms (List.mem_cons_of_mem _ hms)
    have hnow := halike.mono hle
    cases e with
    | request r =>
      have hsame : decide q cell r.nowMs r.cost = decide q cell' r.nowMs r.cost := hnow.decide_eq
      rw [List.filter_cons_of_pos rfl, outcomes, outcomes, ← hsame]
      exact congrArg _ (ih hsound.decide (.inl rfl) hnext hrest hcap')
    | forget ms =>
      rw [List.filter_cons_of_neg (by simp [Event.isRequest]), outcomes]
      exact ih hsound.forget ((hsound.alike_forget (hcap ms List.mem_cons_self)).trans hnow) hnext
        hrest hcap'

/-- **The bounds of the bucket.** What is admitted from one admission to another is at most a burst,
what the time between them refills, and what the later of them cost over a burst. A refused request
is admitted after a wait and not before, and is told that wait, capped at 64 bits. And forgetting
the bucket while it is idle changes no outcome, before the last instant of 64 bits. -/
theorem gcra_bounds (q : Quota) :
    (∀ rs pre w post a b, admitted q none rs = pre ++ w ++ post → w.head? = some a →
      w.getLast? = some b → (w.map Request.cost).sum * q.periodMs ≤
        q.units * q.periodMs + q.units * (b.nowMs - a.nowMs) + (b.cost - q.units) * q.periodMs) ∧
    (∀ rs r, (decide q (cellAfter q rs) r.nowMs r.cost).1.allowed = false →
      ∃ wait, 0 < wait ∧ (∀ w, (decide q (cellAfter q (rs ++ [r])) (r.nowMs + w) r.cost).1.allowed =
        true ↔ wait ≤ w) ∧
      (decide q (cellAfter q rs) r.nowMs r.cost).1.retryAfterMs = min wait u64Max) ∧
    ∀ es : List Event, es.Pairwise (fun e e' => e.nowMs ≤ e'.nowMs) →
      (∀ ms, .forget ms ∈ es → ms < u64Max) →
      outcomes q none es = outcomes q none (es.filter Event.isRequest) := by
  refine ⟨fun rs pre w post a b h ha hb => ?_, fun rs r h => ?_, fun es hsorted hcap => ?_⟩
  · have hwindow := admitted_window h ha hb
    rcases Nat.eq_zero_or_pos q.periodMs with hzero | hpos
    · simp [hzero]
    · have hinterval : q.interval = q.periodMs := max_eq_left hpos
      rwa [hinterval] at hwindow
  · have hafter : cellAfter q (rs ++ [r]) = some (decide q (cellAfter q rs) r.nowMs r.cost).2 := by
      simp [cellAfter]
    rw [hafter]
    exact exists_wait_of_refused h
  · exact @outcomes_eq q none none 0 es nofun (.inl rfl) (fun _ _ => Nat.zero_le _) hsorted hcap

/-- A limit of zero counts as one, and neither a wait nor an idle instant past 64 bits is told. -/
theorem not_gcra_bounds :
    (¬∀ (q : Quota) rs pre w post a b, admitted q none rs = pre ++ w ++ post → w.head? = some a →
      w.getLast? = some b → (w.map Request.cost).sum * q.periodMs ≤
        q.limit * q.periodMs + q.limit * (b.nowMs - a.nowMs) + (b.cost - q.limit) * q.periodMs) ∧
    (¬∀ (q : Quota) rs r, (decide q (cellAfter q rs) r.nowMs r.cost).1.allowed = false →
      IsLeast {w | (decide q (cellAfter q (rs ++ [r])) (r.nowMs + w) r.cost).1.allowed = true}
        (decide q (cellAfter q rs) r.nowMs r.cost).1.retryAfterMs) ∧
    ¬∀ (q : Quota) (es : List Event), es.Pairwise (fun e e' => e.nowMs ≤ e'.nowMs) →
      outcomes q none es = outcomes q none (es.filter Event.isRequest) := by
  refine ⟨fun h => ?_, fun h => ?_, fun h => ?_⟩
  · have hbound :=
      h ⟨0, 1⟩ [⟨0, 1⟩, ⟨1, 1⟩] [] [⟨0, 1⟩, ⟨1, 1⟩] [] ⟨0, 1⟩ ⟨1, 1⟩ (by decide) rfl rfl
    revert hbound
    decide
  · -- a debt of three periods of 64 bits
    have hleast := (h ⟨1, u64Max⟩ [⟨0, 3⟩] ⟨0, 1⟩ (by decide)).1
    revert hleast
    decide
  · have heq := h ⟨1, u64Max⟩ [.request ⟨0, 3⟩, .forget u64Max, .request ⟨u64Max, 1⟩] (by decide)
    revert heq
    decide

theorem gcra_bounds_burst :
    (2 * 10 ≤ 2 * 10 + 2 * (0 - 0) + (1 - 2) * 10) ∧
    (∃ wait, 0 < wait ∧ (∀ w, (decide ⟨2, 10⟩
        (cellAfter ⟨2, 10⟩ ([⟨0, 1⟩, ⟨0, 1⟩] ++ [⟨0, 1⟩])) (0 + w) 1).1.allowed = true ↔ wait ≤ w) ∧
      (decide ⟨2, 10⟩ (cellAfter ⟨2, 10⟩ [⟨0, 1⟩, ⟨0, 1⟩]) 0 1).1.retryAfterMs = min wait u64Max) ∧
    outcomes ⟨2, 10⟩ none [.request ⟨0, 1⟩, .forget 5, .request ⟨6, 1⟩] =
      outcomes ⟨2, 10⟩ none [.request ⟨0, 1⟩, .request ⟨6, 1⟩] :=
  ⟨(gcra_bounds ⟨2, 10⟩).1 [⟨0, 1⟩, ⟨0, 1⟩, ⟨0, 1⟩] [] [⟨0, 1⟩, ⟨0, 1⟩] [] ⟨0, 1⟩ ⟨0, 1⟩ (by decide)
      rfl rfl,
    (gcra_bounds ⟨2, 10⟩).2.1 [⟨0, 1⟩, ⟨0, 1⟩] ⟨0, 1⟩ (by decide),
    (gcra_bounds ⟨2, 10⟩).2.2 [.request ⟨0, 1⟩, .forget 5, .request ⟨6, 1⟩] (by decide) (by
      intro ms hms
      simp only [List.mem_cons, reduceCtorEq, Event.forget.injEq, List.not_mem_nil, or_false,
        false_or] at hms
      subst hms
      decide)⟩

end

/-! ### The store -/

/-- How many keys the store tracks before it starts forgetting. -/
def maxKeys : ℕ := 65536

/-- A request of a key: a cost of zero is a peek. -/
structure Call (K : Type) where
  key : K
  cost : ℕ
  nowMs : ℕ

section

variable {K : Type} [LinearOrder K]

/-- A new key in a store with no room evicts what is idle. -/
def evicted (cells : Table K Cell) (call : Call K) : Table K Cell :=
  if cells.find call.key = none ∧ maxKeys ≤ cells.rows.length then
    cells.filter fun _ cell => !cell.isIdle call.nowMs
  else cells

/-- Even then there is no room for the key. -/
def Crowded (cells : Table K Cell) (call : Call K) : Prop :=
  cells.find call.key = none ∧ maxKeys ≤ (evicted cells call).rows.length

instance (cells : Table K Cell) (call : Call K) : Decidable (Crowded cells call) :=
  inferInstanceAs (Decidable (_ ∧ _))

/-- One request at the store: a peek at a new key keeps nothing, and a key there is no room for is
admitted untracked. -/
def apply (q : Quota) (cells : Table K Cell) (call : Call K) : Outcome × Table K Cell :=
  if call.cost = 0 ∧ cells.find call.key = none then (.untracked q.limit, cells)
  else if Crowded cells call then (.untracked q.limit, evicted cells call)
  else
    let (outcome, next) := decide q (cells.find call.key) call.nowMs call.cost
    (outcome, (evicted cells call).upsert call.key next)

/-- The outcomes of a run of requests at the store. -/
def storeOutcomes (quota : K → Quota) : Table K Cell → List (Call K) → List Outcome
  | _, [] => []
  | cells, call :: calls =>
    let (outcome, next) := apply (quota call.key) cells call
    outcome :: storeOutcomes quota next calls

/-- The outcomes where every key has a bucket of its own and none is forgotten. -/
def keyOutcomes (quota : K → Quota) : (K → Option Cell) → List (Call K) → List Outcome
  | _, [] => []
  | cells, call :: calls =>
    let (outcome, next) := decide (quota call.key) (cells call.key) call.nowMs call.cost
    outcome :: keyOutcomes quota (Function.update cells call.key (some next)) calls

/-- The store has room for every request of the run that is charged. -/
def Roomy (quota : K → Quota) : Table K Cell → List (Call K) → Prop
  | _, [] => True
  | cells, call :: calls => (call.cost ≠ 0 → ¬Crowded cells call) ∧
    Roomy quota (apply (quota call.key) cells call).2 calls

variable {quota : K → Quota} {cells : Table K Cell} {held : K → Option Cell}
  {call : Call K} {calls : List (Call K)} {nowMs : ℕ}

/-- The store holds buckets that answer like the ones kept for good. -/
structure Stands (quota : K → Quota) (nowMs : ℕ) (cells : Table K Cell)
    (held : K → Option Cell) : Prop where
  sound : ∀ k, Sound (quota k) (cells.find k)
  alike : ∀ k, Alike (quota k) nowMs (cells.find k) (held k)

theorem find_evicted (cells : Table K Cell) (call : Call K) (k : K) :
    (evicted cells call).find k = cells.find k ∨
      (evicted cells call).find k = (cells.find k).filter fun c => !c.isIdle call.nowMs := by
  unfold evicted
  split
  · exact .inr (Table.find_filter _ _ _)
  · exact .inl rfl

theorem Stands.evicted (h : Stands quota call.nowMs cells held) (hcap : call.nowMs < u64Max) :
    Stands quota call.nowMs (evicted cells call) held where
  sound k := by
    rcases find_evicted cells call k with hk | hk
    · exact hk ▸ h.sound k
    · exact hk ▸ (h.sound k).forget
  alike k := by
    rcases find_evicted cells call k with hk | hk
    · exact hk ▸ h.alike k
    · exact hk ▸ ((h.sound k).alike_forget hcap).trans (h.alike k)

/-- A peek at a full bucket. -/
theorem decide_peek {q : Quota} {cell : Option Cell} (h : tatOf cell ≤ q.ticks nowMs)
    (hlimit : 1 ≤ q.limit) (hcap : q.limit ≤ u64Max) :
    (decide q cell nowMs 0).1 = .untracked q.limit ∧
      tatOf (some (decide q cell nowMs 0).2) ≤ q.ticks nowMs := by
  have hunits : q.units = q.limit := max_eq_left hlimit
  have hinterval : 0 < q.interval := Nat.lt_of_lt_of_le Nat.one_pos (le_max_right _ _)
  have hone : min (max 0 1) q.units * q.interval = q.interval := by
    rw [hunits, Nat.max_eq_right Nat.one_pos.le, min_eq_left hlimit, Nat.one_mul]
  have hburst : q.interval ≤ q.burst := Nat.le_mul_of_pos_left _ q.units_pos
  have hfull : q.burst / q.interval = q.limit := by
    rw [Quota.burst, Nat.mul_div_cancel _ hinterval, hunits]
  rw [decide_idle h]
  unfold decide tatOf Outcome.untracked
  dsimp only [Option.getD_none, Option.getD_some, Cell.default]
  rw [hone, Nat.zero_max, Nat.zero_mul, Nat.add_zero, Nat.add_sub_cancel_left, if_pos hburst,
    Nat.sub_self, Nat.sub_zero, hfull, min_eq_left hcap]
  exact ⟨rfl, le_refl _⟩

/-- One request at the store. -/
theorem Stands.apply (h : Stands quota nowMs cells held) (hle : nowMs ≤ call.nowMs)
    (hcap : call.nowMs < u64Max) (hlimit : 1 ≤ (quota call.key).limit)
    (hlimit' : (quota call.key).limit ≤ u64Max)
    (hroom : call.cost ≠ 0 → ¬Crowded cells call) :
    (apply (quota call.key) cells call).1 =
        (decide (quota call.key) (held call.key) call.nowMs call.cost).1 ∧
      Stands quota call.nowMs (RateLimit.apply (quota call.key) cells call).2
        (Function.update held call.key
          (some (decide (quota call.key) (held call.key) call.nowMs call.cost).2)) := by
  have hnow : Stands quota call.nowMs cells held := ⟨h.sound, fun k => (h.alike k).mono hle⟩
  have halike := hnow.alike call.key
  unfold RateLimit.apply
  split
  next hpeek =>
    obtain ⟨hzero, hnone⟩ := hpeek
    rw [hnone] at halike
    have hfull : tatOf (held call.key) ≤ (quota call.key).ticks call.nowMs := by
      rcases halike with hheld | ⟨-, hheld⟩
      · exact hheld ▸ Nat.zero_le _
      · exact hheld
    obtain ⟨hout, htat⟩ := decide_peek hfull hlimit hlimit'
    rw [hzero]
    refine ⟨hout.symm, h.sound, fun k => ?_⟩
    by_cases hk : k = call.key
    · subst hk
      rw [hnone, Function.update_self]
      exact .inr ⟨Nat.zero_le _, htat⟩
    · rw [Function.update_of_ne hk]
      exact hnow.alike k
  next hpeek =>
    have hroom : ¬Crowded cells call := fun hcrowded =>
      hroom (fun hzero => hpeek ⟨hzero, hcrowded.1⟩) hcrowded
    rw [if_neg hroom, halike.decide_eq]
    have hkept := hnow.evicted hcap
    refine ⟨rfl, fun k => ?_, fun k => ?_⟩
    · rw [Table.find_upsert]
      split
      next hk =>
        subst hk
        rw [← halike.decide_eq]
        exact (h.sound call.key).decide
      next => exact hkept.sound k
    · rw [Table.find_upsert]
      split
      next hk =>
        subst hk
        rw [Function.update_self]
        exact .inl rfl
      next hk =>
        rw [Function.update_of_ne hk]
        exact hkept.alike k

/-- **The store answers as one bucket for each key**, as long as it finds room for every key that
is charged. -/
theorem storeOutcomes_eq (h : Stands quota nowMs cells held)
    (hstart : ∀ call ∈ calls, nowMs ≤ call.nowMs)
    (hsorted : calls.Pairwise fun call call' => call.nowMs ≤ call'.nowMs)
    (hcap : ∀ call ∈ calls, call.nowMs < u64Max)
    (hlimit : ∀ k, 1 ≤ (quota k).limit ∧ (quota k).limit ≤ u64Max)
    (hroom : Roomy quota cells calls) :
    storeOutcomes quota cells calls = keyOutcomes quota held calls := by
  induction calls generalizing cells held nowMs with
  | nil => rfl
  | cons call calls ih =>
    obtain ⟨hle, -⟩ := List.forall_mem_cons.mp hstart
    obtain ⟨hnow, hcaps⟩ := List.forall_mem_cons.mp hcap
    obtain ⟨hnext, hrest⟩ := List.pairwise_cons.mp hsorted
    obtain ⟨hout, hstands⟩ := h.apply hle hnow (hlimit _).1 (hlimit _).2 hroom.1
    rw [storeOutcomes, keyOutcomes]
    dsimp only
    rw [hout, ih hstands hnext hrest hcaps hroom.2]

/-- **From an empty store**, whatever it forgets on the way. -/
theorem storeOutcomes_empty (hsorted : calls.Pairwise fun call call' => call.nowMs ≤ call'.nowMs)
    (hcap : ∀ call ∈ calls, call.nowMs < u64Max)
    (hlimit : ∀ k, 1 ≤ (quota k).limit ∧ (quota k).limit ≤ u64Max)
    (hroom : Roomy quota ∅ calls) :
    storeOutcomes quota ∅ calls = keyOutcomes quota (fun _ => none) calls :=
  storeOutcomes_eq ⟨fun _ => nofun, fun _ => .inl rfl⟩ (fun _ _ => Nat.zero_le _) hsorted hcap
    hlimit hroom

/-! ### A full store -/

/-- The store after a run of requests. -/
def storeAfter (quota : K → Quota) (cells : Table K Cell) (calls : List (Call K)) : Table K Cell :=
  calls.foldl (fun cells call => (apply (quota call.key) cells call).2) cells

theorem Roomy.append {calls' : List (Call K)} (h : Roomy quota cells calls)
    (h' : Roomy quota (storeAfter quota cells calls) calls') :
    Roomy quota cells (calls ++ calls') := by
  induction calls generalizing cells with
  | nil => exact h'
  | cons call calls ih => exact ⟨h.1, ih h.2 h'⟩

theorem storeAfter_append (quota : K → Quota) (cells : Table K Cell)
    (calls calls' : List (Call K)) :
    storeAfter quota cells (calls ++ calls') =
      storeAfter quota (storeAfter quota cells calls) calls' :=
  List.foldl_append

/-- One request a millisecond, for each key. -/
def eachMs : ℕ → Quota := fun _ => ⟨1, 1⟩

/-- The first `n` keys ask once each. -/
def firstCalls (n : ℕ) : List (Call ℕ) := (List.range n).map fun k => ⟨k, 1, 0⟩

/-- The buckets of the first `n` keys, idle in a millisecond. -/
structure Filled (n : ℕ) (cells : Table ℕ Cell) : Prop where
  find : ∀ k, cells.find k = if k < n then some ⟨1, 1, false⟩ else none
  length : cells.rows.length = n

theorem Filled.apply {n : ℕ} {cells : Table ℕ Cell} (h : Filled n cells) (hn : n < maxKeys) :
    ¬Crowded cells ⟨n, 1, 0⟩ ∧
      Filled (n + 1) (RateLimit.apply ⟨1, 1⟩ cells ⟨n, 1, 0⟩).2 := by
  have hnew : cells.find n = none := (h.find n).trans (if_neg (lt_irrefl n))
  have hkept : evicted cells ⟨n, 1, 0⟩ = cells :=
    if_neg fun hfull => absurd (h.length ▸ hfull.2) (by omega)
  have hroom : ¬Crowded cells ⟨n, 1, 0⟩ := by
    rintro ⟨-, hfull⟩
    rw [hkept, h.length] at hfull
    omega
  have happly : (RateLimit.apply ⟨1, 1⟩ cells ⟨n, 1, 0⟩).2 =
      cells.upsert n ⟨1, 1, false⟩ := by
    have hdecide : decide ⟨1, 1⟩ none 0 1 = (⟨true, 0, 0, false⟩, ⟨1, 1, false⟩) := by
      decide
    unfold RateLimit.apply
    rw [if_neg (by simp), if_neg hroom, hkept, hnew, hdecide]
  rw [happly]
  refine ⟨hroom, fun k => ?_, ?_⟩
  · rw [Table.find_upsert, h.find]
    grind
  · rw [(Table.rows_upsert_perm hnew).length_eq, List.length_cons, h.length]

theorem filled_storeAfter {n : ℕ} (hn : n ≤ maxKeys) :
    Roomy eachMs ∅ (firstCalls n) ∧ Filled n (storeAfter eachMs ∅ (firstCalls n)) := by
  induction n with
  | zero => exact ⟨trivial, fun _ => rfl, rfl⟩
  | succ n ih =>
    obtain ⟨hroom, hfilled⟩ := ih (by omega)
    have hsucc : firstCalls (n + 1) = firstCalls n ++ [⟨n, 1, 0⟩] := by
      rw [firstCalls, List.range_succ, List.map_append]
      rfl
    obtain ⟨hnot, hnext⟩ := hfilled.apply hn
    rw [hsucc]
    refine ⟨hroom.append ⟨fun _ => hnot, trivial⟩, ?_⟩
    rw [storeAfter_append]
    exact hnext

/-- At a key more than the store tracks, a millisecond later, all the others are forgotten. -/
theorem Filled.apply_full {cells : Table ℕ Cell} (h : Filled maxKeys cells) :
    ¬Crowded cells ⟨maxKeys, 1, 1⟩ ∧
      (RateLimit.apply ⟨1, 1⟩ cells ⟨maxKeys, 1, 1⟩).2 =
        (∅ : Table ℕ Cell).upsert maxKeys ⟨2, 2, false⟩ := by
  have hnew : cells.find maxKeys = none := (h.find maxKeys).trans (if_neg (lt_irrefl _))
  have hempty : evicted cells ⟨maxKeys, 1, 1⟩ = ∅ := by
    rw [evicted, if_pos ⟨hnew, h.length.ge⟩]
    refine Table.ext_find fun k => ?_
    rw [Table.find_filter, h.find]
    split
    · rfl
    · rfl
  have hroom : ¬Crowded cells ⟨maxKeys, 1, 1⟩ := by
    rintro ⟨-, hfull⟩
    rw [hempty] at hfull
    exact absurd hfull (by decide)
  have hdecide : decide ⟨1, 1⟩ none 1 1 = (⟨true, 0, 0, false⟩, ⟨2, 2, false⟩) := by
    decide
  refine ⟨hroom, ?_⟩
  unfold RateLimit.apply
  rw [if_neg (by simp), if_neg hroom, hempty, hnew, hdecide]

/-- Every key the store has place for asks once; a millisecond later another does, for which all of
them are forgotten, and then the first again. -/
theorem storeOutcomes_empty_full :
    (storeAfter eachMs ∅ (firstCalls maxKeys ++ [⟨maxKeys, 1, 1⟩, ⟨0, 1, 1⟩])).rows.map
        Prod.fst = [0, maxKeys] ∧
      storeOutcomes eachMs ∅ (firstCalls maxKeys ++ [⟨maxKeys, 1, 1⟩, ⟨0, 1, 1⟩]) =
        keyOutcomes eachMs (fun _ => none)
          (firstCalls maxKeys ++ [⟨maxKeys, 1, 1⟩, ⟨0, 1, 1⟩]) := by
  have hstart : ∀ call ∈ firstCalls maxKeys, call.nowMs = 0 := by
    intro call hcall
    obtain ⟨k, -, rfl⟩ := List.mem_map.mp hcall
    rfl
  have hfirst := filled_storeAfter (le_refl maxKeys)
  generalize firstCalls maxKeys = calls at hstart hfirst ⊢
  obtain ⟨hroom, hfilled⟩ := hfirst
  obtain ⟨hnot, happly⟩ := hfilled.apply_full
  refine ⟨?_, storeOutcomes_empty (List.pairwise_append.mpr ⟨?_, by decide, ?_⟩) ?_
    (fun _ => ⟨le_rfl, show 1 ≤ u64Max by decide⟩) (hroom.append ⟨fun _ => hnot, ?_⟩)⟩
  · rw [storeAfter_append, storeAfter, List.foldl_cons]
    rw [eachMs, happly]
    decide
  · exact List.pairwise_of_forall_mem_list fun a ha b hb => by rw [hstart a ha, hstart b hb]
  · exact fun a ha b _ => (hstart a ha).le.trans (Nat.zero_le _)
  · intro call hcall
    rcases List.mem_append.mp hcall with hcall | hcall
    · rw [hstart call hcall]
      decide
    · simp only [List.mem_cons, List.not_mem_nil, or_false] at hcall
      rcases hcall with rfl | rfl
      · decide
      · decide
  · rw [eachMs, happly]
    exact ⟨fun _ => by decide, trivial⟩

end

end RateLimit

end Sunrise
