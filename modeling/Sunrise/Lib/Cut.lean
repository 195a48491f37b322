import Mathlib.Data.List.Flatten
import Mathlib.Tactic.Ring

/-!
# Cutting a list into pieces

A list is cut into a number of pieces of one length, and a last piece that is what remains.
The pieces put together are the list again, and a list of pieces of the right lengths is what
cutting it gives.

## Main definitions

* `List.cut` — some pieces of one length, and the rest.

## Main results

* `List.flatten_cut`, `List.map_length_cut` — what the pieces are.
-/

namespace List

variable {α : Type*}

/-- `k` pieces of length `n`, and the rest. -/
def cut (n : ℕ) : ℕ → List α → List (List α)
  | 0, l => [l]
  | k + 1, l => l.take n :: cut n k (l.drop n)

@[simp] theorem cut_zero (n : ℕ) (l : List α) : cut n 0 l = [l] := rfl

theorem cut_succ (n k : ℕ) (l : List α) :
    cut n (k + 1) l = l.take n :: cut n k (l.drop n) := rfl

@[simp] theorem flatten_cut (n k : ℕ) (l : List α) : (cut n k l).flatten = l := by
  induction k generalizing l with
  | zero => simp
  | succ k ih => rw [cut_succ, flatten_cons, ih, take_append_drop]

@[simp] theorem length_cut (n k : ℕ) (l : List α) : (cut n k l).length = k + 1 := by
  induction k generalizing l with
  | zero => rfl
  | succ k ih => rw [cut_succ, length_cons, ih]

theorem map_length_cut {n k : ℕ} {l : List α} (h : k * n ≤ l.length) :
    (cut n k l).map length = replicate k n ++ [l.length - k * n] := by
  induction k generalizing l with
  | zero => simp
  | succ k ih =>
    rw [Nat.succ_mul] at h
    rw [cut_succ, map_cons, length_take, min_eq_left (by omega), ih (by rw [length_drop]; omega),
      length_drop, replicate_succ, cons_append]
    congr 3
    rw [Nat.succ_mul]
    omega

section

variable {n k m : ℕ} {pieces : List (List α)} (h : pieces.map length = replicate k n ++ [m])
include h

/-- **Pieces of the right lengths are found again.** -/
theorem cut_flatten : cut n k pieces.flatten = pieces := by
  induction k generalizing pieces with
  | zero =>
    rw [replicate_zero, nil_append] at h
    obtain ⟨p, rfl, -⟩ := map_eq_singleton_iff.mp h
    simp
  | succ k ih =>
    rw [replicate_succ, cons_append] at h
    obtain ⟨p, rest, rfl, hp, hrest⟩ := map_eq_cons_iff.mp h
    rw [cut_succ, flatten_cons, take_left' hp, drop_left' hp, ih hrest]

theorem length_flatten_of_map_length : pieces.flatten.length = k * n + m := by
  rw [length_flatten, h, sum_append, sum_replicate_nat, sum_singleton]

end

end List
