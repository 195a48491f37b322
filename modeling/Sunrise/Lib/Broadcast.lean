import Mathlib.Data.List.Basic
import Mathlib.Order.Nat

/-!
# A bounded broadcast channel

Senders never wait. The channel keeps the last `cap` values, and every receiver reads them in
the order they were sent. A receiver that fell further behind is told once how many values it
missed, and goes on with the oldest value that is kept.

## Main definitions

* `Broadcast.recv` — what a receiver is told, and where it is then.
* `Broadcast.Hears` — of what a receiver has passed, it heard every value worth keeping.

## Main results

* `Hears.value`, `Hears.lagged` — a receive keeps this, a lag where all it skips is of no worth.
-/

namespace Broadcast
variable {α : Type*}

/-- What a receiver is told. -/
inductive Received (α : Type*) where
  | value (a : α)
  /-- So many values were dropped before it read them. -/
  | lagged (missed : ℕ)
  | empty

/-- A receiver has something to read. -/
def ready (sent : List α) (next : ℕ) : Bool := decide (next < sent.length)

/-- A receive by a receiver whose next value is number `next` of all that was `sent`. -/
def recv (cap : ℕ) (sent : List α) (next : ℕ) : Received α × ℕ :=
  if next + cap < sent.length then
    (.lagged (sent.length - cap - next), sent.length - cap)
  else
    match sent[next]? with
    | some a => (.value a, next + 1)
    | none => (.empty, next)

theorem recv_of_ready {cap : ℕ} {sent : List α} {next : ℕ} (h : ready sent next = true) :
    (∃ a, sent[next]? = some a ∧ next + cap ≥ sent.length ∧
        recv cap sent next = (.value a, next + 1)) ∨
      next + cap < sent.length ∧
        recv cap sent next = (.lagged (sent.length - cap - next), sent.length - cap) := by
  have hlt : next < sent.length := of_decide_eq_true h
  unfold recv
  by_cases hlag : next + cap < sent.length
  · right
    rw [if_pos hlag]
    exact ⟨hlag, rfl⟩
  · left
    have hget : sent[next]? = some sent[next] := List.getElem?_eq_getElem hlt
    refine ⟨sent[next], hget, Nat.not_lt.mp hlag, ?_⟩
    rw [if_neg hlag, hget]

/-- A receiver that took up at `start` and has come to `next`: each value between that is worth
keeping was heard. -/
structure Hears (keep : α → Bool) (sent : List α) (start next : ℕ) (heard : ℕ → Prop) :
    Prop where
  start_le : start ≤ next
  next_le : next ≤ sent.length
  heard_of : ∀ n a, start ≤ n → n < next → sent[n]? = some a → keep a = true → heard n

namespace Hears
variable {keep : α → Bool} {sent : List α} {start next : ℕ} {heard : ℕ → Prop}

theorem taken : Hears keep sent sent.length sent.length heard where
  start_le := le_rfl
  next_le := le_rfl
  heard_of := fun n _ h1 h2 _ _ => absurd h2 (Nat.not_lt.mpr h1)

section

variable (h : Hears keep sent start next heard)
include h

theorem send (b : α) :
    Hears keep (sent ++ [b]) start next heard where
  start_le := h.start_le
  next_le := by
    rw [List.length_append]
    exact le_trans h.next_le (Nat.le_add_right _ _)
  heard_of := by
    intro n a h1 h2 hget hkeep
    rw [List.getElem?_append_left (lt_of_lt_of_le h2 h.next_le)] at hget
    exact h.heard_of n a h1 h2 hget hkeep

theorem mono {heard' : ℕ → Prop}
    (hsub : ∀ n, heard n → heard' n) : Hears keep sent start next heard' where
  start_le := h.start_le
  next_le := h.next_le
  heard_of := fun n a h1 h2 hget hkeep => hsub n (h.heard_of n a h1 h2 hget hkeep)

theorem value {a : α} (hget : sent[next]? = some a)
    (hheard : keep a = true → heard next) : Hears keep sent start (next + 1) heard where
  start_le := le_trans h.start_le (Nat.le_succ _)
  next_le := by
    obtain ⟨hlt, -⟩ := List.getElem?_eq_some_iff.mp hget
    exact hlt
  heard_of := by
    intro n b h1 h2 hb hkeep
    rcases Nat.lt_succ_iff_lt_or_eq.mp h2 with hlt | rfl
    · exact h.heard_of n b h1 hlt hb hkeep
    · rw [hget] at hb
      rw [← Option.some.inj hb] at hkeep
      exact hheard hkeep

end

theorem lagged {cap : ℕ} (h : Hears keep sent start next heard)
    (hlag : next + cap < sent.length)
    (hlost : ∀ n a, next ≤ n → n < sent.length - cap → sent[n]? = some a → keep a = false) :
    Hears keep sent start (sent.length - cap) heard where
  start_le := by
    have hle := h.start_le
    omega
  next_le := Nat.sub_le _ _
  heard_of := by
    intro n a h1 h2 hget hkeep
    rcases Nat.lt_or_ge n next with hlt | hge
    · exact h.heard_of n a h1 hlt hget hkeep
    · rw [hlost n a hge h2 hget] at hkeep
      cases hkeep

theorem of_not_ready (h : Hears keep sent start next heard) (hready : ready sent next = false)
    {n : ℕ} {a : α} (hn : start ≤ n) (hget : sent[n]? = some a) (hkeep : keep a = true) :
    heard n := by
  obtain ⟨hlt, -⟩ := List.getElem?_eq_some_iff.mp hget
  have hnot : ¬ next < sent.length := of_decide_eq_false hready
  exact h.heard_of n a hn (lt_of_lt_of_le hlt (Nat.not_lt.mp hnot)) hget hkeep

end Hears

end Broadcast
