import Mathlib.Algebra.Order.Field.Basic
import Mathlib.Algebra.Order.Field.Rat
import Mathlib.Data.List.GetD
import Mathlib.Tactic.FieldSimp
import Mathlib.Tactic.Linarith

/-!
# Fractions of digits

A list of digits is read as a fraction, its first digit counting the `b`-th parts, and past its end
as zeros. Two lists are in order as fractions where the first digits they differ in are, and a list
that is less so is less in the order of lists too; a list longer by zeros is the same fraction, but
another list.

* `value` — the fraction.
* `Less` — the order of the first digits that differ.
* `value_lt_iff` — **the two are one order.**
* `Less.lt` — **and that of the lists.**
-/

namespace Radix

/-- The digit at a place, zero past the end. -/
def digit (x : List ℕ) (i : ℕ) : ℕ := x.getD i 0

@[simp] theorem digit_nil (i : ℕ) : digit [] i = 0 := rfl

@[simp] theorem digit_cons_zero (d : ℕ) (x : List ℕ) : digit (d :: x) 0 = d := rfl

@[simp] theorem digit_cons_succ (d : ℕ) (x : List ℕ) (i : ℕ) :
    digit (d :: x) (i + 1) = digit x i := rfl

theorem digit_tail (x : List ℕ) (i : ℕ) : digit x.tail i = digit x (i + 1) := by
  cases x <;> rfl

theorem digit_of_length_le {x : List ℕ} {i : ℕ} (h : x.length ≤ i) : digit x i = 0 :=
  List.getD_eq_default _ _ h

theorem digit_append_left {x y : List ℕ} {i : ℕ} (h : i < x.length) :
    digit (x ++ y) i = digit x i :=
  List.getD_append _ _ _ _ h

theorem digit_append_right (x y : List ℕ) (i : ℕ) : digit (x ++ y) (x.length + i) = digit y i := by
  unfold digit
  rw [List.getD_append_right _ _ _ _ (Nat.le_add_right _ _), Nat.add_sub_cancel_left]

/-! ### The order of the first digits that differ -/

/-- The first digits that differ are in order. -/
def Less (x y : List ℕ) : Prop := ∃ i, (∀ j < i, digit x j = digit y j) ∧ digit x i < digit y i

variable {x y z : List ℕ}

theorem less_iff_head : Less x y ↔ digit x 0 < digit y 0 ∨
    digit x 0 = digit y 0 ∧ Less x.tail y.tail := by
  constructor
  · rintro ⟨i, heq, hlt⟩
    cases i with
    | zero => exact .inl hlt
    | succ i =>
      refine .inr ⟨heq 0 (Nat.succ_pos i), i, fun j hj => ?_, ?_⟩
      · rw [digit_tail, digit_tail]
        exact heq (j + 1) (Nat.succ_lt_succ hj)
      · rwa [digit_tail, digit_tail]
  · rintro (hlt | ⟨heq, i, htail, hlt⟩)
    · exact ⟨0, fun j hj => absurd hj (Nat.not_lt_zero j), hlt⟩
    · refine ⟨i + 1, fun j hj => ?_, ?_⟩
      · cases j with
        | zero => exact heq
        | succ j =>
          rw [← digit_tail, ← digit_tail]
          exact htail j (Nat.lt_of_succ_lt_succ hj)
      · rwa [← digit_tail, ← digit_tail]

theorem not_less_nil : ¬ Less x [] := by
  rintro ⟨i, -, hlt⟩
  exact Nat.not_lt_zero _ hlt

theorem Less.trans (hxy : Less x y) (hyz : Less y z) : Less x z := by
  obtain ⟨i, hi, hilt⟩ := hxy
  obtain ⟨j, hj, hjlt⟩ := hyz
  rcases lt_trichotomy i j with h | rfl | h
  · exact ⟨i, fun k hk => (hi k hk).trans (hj k (hk.trans h)), hj i h ▸ hilt⟩
  · exact ⟨i, fun k hk => (hi k hk).trans (hj k hk), hilt.trans hjlt⟩
  · exact ⟨j, fun k hk => (hi k (hk.trans h)).trans (hj k hk), (hi j h).symm ▸ hjlt⟩

theorem less_trichotomy (x y : List ℕ) :
    Less x y ∨ (∀ i, digit x i = digit y i) ∨ Less y x := by
  by_cases h : ∃ i, digit x i ≠ digit y i
  · have hfirst (j : ℕ) (hj : j < Nat.find h) : digit x j = digit y j :=
      not_not.mp (Nat.find_min h hj)
    rcases Nat.lt_or_gt_of_ne (Nat.find_spec h) with hlt | hlt
    · exact .inl ⟨_, hfirst, hlt⟩
    · exact .inr (.inr ⟨_, fun j hj => (hfirst j hj).symm, hlt⟩)
  · exact .inr (.inl fun i => not_not.mp fun hne => h ⟨i, hne⟩)

theorem Less.lt (h : Less x y) : x < y := by
  induction x generalizing y with
  | nil =>
    cases y with
    | nil => exact absurd h not_less_nil
    | cons e y => exact List.nil_lt_cons e y
  | cons d x ih =>
    cases y with
    | nil => exact absurd h not_less_nil
    | cons e y =>
      rw [List.cons_lt_cons_iff]
      exact (less_iff_head.mp h).imp_right fun ⟨heq, htail⟩ => ⟨heq, ih htail⟩

theorem less_of_lt (h : x < y) (hy : ∀ front d, y = front ++ [d] → 0 < d) : Less x y := by
  induction y generalizing x with
  | nil => exact absurd h (List.not_lt_nil _)
  | cons e y ih =>
    have hy' : ∀ front d, y = front ++ [d] → 0 < d := fun front d heq =>
      hy (e :: front) d (by rw [heq, List.cons_append])
    rw [less_iff_head]
    cases x with
    | nil =>
      cases y with
      | nil => exact .inl (hy [] e rfl)
      | cons e' y =>
        rcases Nat.eq_zero_or_pos e with rfl | he
        · exact .inr ⟨rfl, ih (List.nil_lt_cons e' y) hy'⟩
        · exact .inl he
    | cons d x =>
      rw [List.cons_lt_cons_iff] at h
      exact h.imp_right fun ⟨heq, htail⟩ => ⟨heq, ih htail hy'⟩

theorem not_less_self : ¬ Less x x := by
  rintro ⟨i, -, hlt⟩
  exact Nat.lt_irrefl _ hlt

theorem Less.asymm (h : Less x y) : ¬ Less y x := fun h' => not_less_self (h.trans h')

/-! ### The fraction -/

/-- The fraction of a list of digits in base `b`. -/
def value (b : ℕ) : List ℕ → ℚ
  | [] => 0
  | d :: x => (d + value b x) / b

variable {b : ℕ}

theorem value_eq_head (x : List ℕ) : value b x = (digit x 0 + value b x.tail) / b := by
  cases x with
  | nil => simp [value]
  | cons d x => rfl

section

variable (hb : 0 < b) (hx : ∀ d ∈ x, d < b)
include hb hx

theorem value_mem : 0 ≤ value b x ∧ value b x < 1 := by
  have hb' : (0 : ℚ) < b := by exact_mod_cast hb
  induction x with
  | nil => exact ⟨le_rfl, zero_lt_one⟩
  | cons d x ih =>
    obtain ⟨hlo, hhi⟩ := ih fun e he => hx e (List.mem_cons_of_mem _ he)
    have hd : (d : ℚ) + 1 ≤ b := by exact_mod_cast hx d List.mem_cons_self
    have hd0 : (0 : ℚ) ≤ d := Nat.cast_nonneg d
    unfold value
    rw [div_lt_one hb']
    exact ⟨div_nonneg (by linarith) hb'.le, by linarith⟩

theorem value_lt_iff_head (hy : ∀ d ∈ y, d < b) :
    value b x < value b y ↔ digit x 0 < digit y 0 ∨
      digit x 0 = digit y 0 ∧ value b x.tail < value b y.tail := by
  have hb' : (0 : ℚ) < b := by exact_mod_cast hb
  obtain ⟨hx0, hx1⟩ := value_mem hb fun d hd => hx d (List.mem_of_mem_tail hd)
  obtain ⟨hy0, hy1⟩ := value_mem hb fun d hd => hy d (List.mem_of_mem_tail hd)
  rw [value_eq_head x, value_eq_head y, div_lt_div_iff_of_pos_right hb']
  rcases lt_trichotomy (digit x 0) (digit y 0) with h | h | h
  · have hcast : (digit x 0 : ℚ) + 1 ≤ digit y 0 := by exact_mod_cast h
    exact iff_of_true (by linarith) (.inl h)
  · rw [h, add_lt_add_iff_left]
    simp
  · have hcast : (digit y 0 : ℚ) + 1 ≤ digit x 0 := by exact_mod_cast h
    refine iff_of_false (by linarith) ?_
    rintro (h' | ⟨h', -⟩)
    · exact lt_asymm h h'
    · exact h.ne' h'

/-- **Fractions are in the order of the first digits that differ.** -/
theorem value_lt_iff (hy : ∀ d ∈ y, d < b) :
    value b x < value b y ↔ Less x y := by
  induction y generalizing x with
  | nil =>
    have hnonneg := (value_mem hb hx).1
    exact iff_of_false (not_lt.mpr hnonneg) not_less_nil
  | cons e y ih =>
    rw [value_lt_iff_head hb hx hy, less_iff_head, List.tail_cons]
    rw [ih (fun d hd => hx d (List.mem_of_mem_tail hd))
      fun d hd => hy d (List.mem_cons_of_mem _ hd)]

end

end Radix
