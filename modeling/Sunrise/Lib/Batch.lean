import Mathlib.Data.List.Basic
import Mathlib.Logic.Function.Iterate

/-!
# Batches off the head of a list

A list is worked off in rounds. A round looks at the first `k` entries and takes away those that are
served; the others stay where they are. So `k` entries that are never served hold up all that stand
behind them.

* `round`, `Stuck` — one round, and a list a round does nothing to.
* `behind` — what stands behind the first `k` entries that are not served.

## Main results

* `behind_round` — a round moves nothing behind them, or from there.
* `exists_stuck` — rounds come to an end.
* `stuck_iterate_round_iff` — **when they have, every served entry is gone if and only if none stood
  behind `k` that are not.**
-/

namespace Batch

variable {α : Type*} (k m : ℕ) (p : α → Bool) {l : List α}

/-- One round: of the first `k`, what is served is taken away. -/
def round (l : List α) : List α := (l.take k).filter (fun x => !p x) ++ l.drop k

/-- None of the first `k` is served. -/
def Stuck (l : List α) : Prop := ∀ x ∈ l.take k, p x = false

/-- What stands behind the first `k` entries that are not served. -/
def behind : ℕ → List α → List α
  | 0, l => l
  | _ + 1, [] => []
  | k + 1, x :: l => if p x then behind (k + 1) l else behind k l

variable {k m p}

theorem mem_behind {a : α} : a ∈ behind p k l ↔
    ∃ ahead rest, l = ahead ++ a :: rest ∧ k ≤ ahead.countP fun x => !p x := by
  fun_induction behind p k l with
  | case1 l =>
    refine ⟨fun h => ?_, ?_⟩
    · obtain ⟨ahead, rest, heq⟩ := List.append_of_mem h
      exact ⟨ahead, rest, heq, Nat.zero_le _⟩
    · rintro ⟨ahead, rest, rfl, -⟩
      exact List.mem_append_right _ List.mem_cons_self
  | case2 k =>
    refine iff_of_false List.not_mem_nil ?_
    rintro ⟨ahead, rest, heq, -⟩
    cases ahead <;> cases heq
  | case3 k x l hx ih =>
    rw [ih]
    constructor
    · rintro ⟨ahead, rest, rfl, hle⟩
      refine ⟨x :: ahead, rest, rfl, ?_⟩
      rw [List.countP_cons, hx]
      exact hle
    · rintro ⟨_ | ⟨y, ahead⟩, rest, heq, hle⟩
      · exact absurd hle (Nat.not_succ_le_zero k)
      · obtain ⟨rfl, rfl⟩ := List.cons.inj heq
        rw [List.countP_cons, hx] at hle
        exact ⟨ahead, rest, rfl, hle⟩
  | case4 k x l hx ih =>
    have hx : (!p x) = true := by
      rw [Bool.not_eq_true']
      exact eq_false_of_ne_true hx
    rw [ih]
    constructor
    · rintro ⟨ahead, rest, rfl, hle⟩
      refine ⟨x :: ahead, rest, rfl, ?_⟩
      rw [List.countP_cons, if_pos hx]
      exact Nat.succ_le_succ hle
    · rintro ⟨_ | ⟨y, ahead⟩, rest, heq, hle⟩
      · exact absurd hle (Nat.not_succ_le_zero k)
      · obtain ⟨rfl, rfl⟩ := List.cons.inj heq
        rw [List.countP_cons, if_pos hx] at hle
        exact ⟨ahead, rest, rfl, Nat.le_of_succ_le_succ hle⟩

theorem behind_round (hmk : m ≤ k) : behind p k (round m p l) = behind p k l := by
  induction l generalizing k m with
  | nil => cases m <;> rfl
  | cons x l ih =>
    cases m with
    | zero => rfl
    | succ m =>
      obtain ⟨k, rfl⟩ := Nat.exists_eq_add_of_le' (Nat.one_le_of_lt hmk)
      rw [round, List.take_succ_cons, List.drop_succ_cons, List.filter_cons]
      cases hx : p x with
      | true =>
        rw [behind, if_pos hx]
        exact ih (by omega)
      | false =>
        rw [Bool.not_false, if_pos rfl, List.cons_append, behind, behind, hx]
        exact ih (by omega)

theorem length_round_lt (h : ¬ Stuck k p l) : (round k p l).length < l.length := by
  have hsplit := congrArg List.length (List.take_append_drop k l)
  rw [List.length_append] at hsplit
  rw [round, List.length_append]
  have hlt : ((l.take k).filter fun x => !p x).length < (l.take k).length := by
    refine Nat.lt_of_le_of_ne (List.length_filter_le _ _) fun heq => h fun x hx => ?_
    have hkept := List.length_filter_eq_length_iff.mp heq x hx
    rwa [Bool.not_eq_true'] at hkept
  omega

theorem exists_stuck (l : List α) : ∃ n, Stuck k p ((round k p)^[n] l) := by
  induction hlength : l.length using Nat.strongRecOn generalizing l with
  | ind n ih =>
    by_cases hstuck : Stuck k p l
    · exact ⟨0, hstuck⟩
    · obtain ⟨n, hn⟩ := ih _ (hlength ▸ length_round_lt hstuck) _ rfl
      exact ⟨n + 1, hn⟩

theorem behind_iterate_round (n : ℕ) : behind p k ((round k p)^[n] l) = behind p k l := by
  induction n generalizing l with
  | zero => rfl
  | succ n ih =>
    rw [Function.iterate_succ_apply, ih]
    exact behind_round (Nat.le_refl k)

theorem mem_behind_of_stuck (h : Stuck k p l) {x : α} (hx : x ∈ l) (hserved : p x = true) :
    x ∈ behind p k l := by
  have hdrop : x ∈ l.drop k := by
    rw [← List.take_append_drop k l, List.mem_append] at hx
    refine hx.resolve_left fun htake => ?_
    rw [h x htake] at hserved
    cases hserved
  obtain ⟨ahead, rest, heq⟩ := List.append_of_mem hdrop
  refine mem_behind.mpr ⟨l.take k ++ ahead, rest, ?_, ?_⟩
  · rw [List.append_assoc, ← heq, List.take_append_drop]
  · have hall : (l.take k).countP (fun x => !p x) = (l.take k).length :=
      List.countP_eq_length.mpr fun y hy => by rw [h y hy, Bool.not_false]
    have hlength : (l.take k).length = k := by
      rw [List.length_take, Nat.min_eq_left]
      by_contra hlt
      rw [List.drop_eq_nil_of_le (by omega)] at hdrop
      cases hdrop
    rw [List.countP_append, hall, hlength]
    exact Nat.le_add_right k _

theorem subset_behind : behind p k l ⊆ l := fun x hx => by
  obtain ⟨ahead, rest, rfl, -⟩ := mem_behind.mp hx
  exact List.mem_append_right _ List.mem_cons_self

/-- **When rounds have come to an end, what is served is gone, unless it stood behind `k` entries
that are not.** -/
theorem stuck_iterate_round_iff {n : ℕ} (h : Stuck k p ((round k p)^[n] l)) :
    (∀ x ∈ (round k p)^[n] l, p x = false) ↔ ∀ x ∈ behind p k l, p x = false := by
  rw [← behind_iterate_round n]
  refine ⟨fun hall x hx => hall x (subset_behind hx), fun hall x hx => ?_⟩
  by_contra hserved
  rw [hall x (mem_behind_of_stuck h hx (eq_true_of_ne_false hserved))] at hserved
  exact hserved rfl

end Batch
