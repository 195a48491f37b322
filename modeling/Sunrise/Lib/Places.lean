import Mathlib.Data.List.Basic
import Mathlib.Tactic.Linarith
import Mathlib.Tactic.Ring

/-!
# Places of a number

A number below `b ^ w` is `w` digits in base `b`, the greatest first. Digits of one width are in the
order of lists as their numbers are.

* `places`, `number` — the digits of a number, and the number of digits.
* `places_number`, `number_places` — **each is the other's inverse.**
* `number_lt_iff` — **and the two orders are one.**
-/

namespace Places

/-- The digits of `n` at the lowest `w` places. -/
def places (b : ℕ) : ℕ → ℕ → List ℕ
  | 0, _ => []
  | w + 1, n => n / b ^ w % b :: places b w n

/-- The number of digits, the greatest first. -/
def number (b : ℕ) : List ℕ → ℕ
  | [] => 0
  | d :: ds => d * b ^ ds.length + number b ds

variable {b w n d : ℕ} {ds es : List ℕ}

@[simp] theorem length_places : (places b w n).length = w := by
  induction w with
  | zero => rfl
  | succ w ih => rw [places, List.length_cons, ih]

theorem lt_of_mem_places (hb : 0 < b) (h : d ∈ places b w n) : d < b := by
  induction w with
  | zero => cases h
  | succ w ih =>
    rcases List.mem_cons.mp h with rfl | h
    · exact Nat.mod_lt _ hb
    · exact ih h

theorem places_eq_map : places b w n = (List.range w).map fun i => n / b ^ (w - 1 - i) % b := by
  induction w with
  | zero => rfl
  | succ w ih =>
    rw [places, List.range_succ_eq_map, List.map_cons, List.map_map, ih]
    refine congrArg (List.cons _) (List.map_congr_left fun i _ => ?_)
    rw [Function.comp, show w + 1 - 1 - i.succ = w - 1 - i by omega]

theorem places_succ_last : places b (w + 1) n = places b w (n / b) ++ [n % b] := by
  induction w with
  | zero => simp [places]
  | succ w ih =>
    rw [places, ih, places, List.cons_append, Nat.div_div_eq_div_mul, ← Nat.pow_succ']

theorem places_add_mul (m : ℕ) : places b w (m * b ^ w + n) = places b w n := by
  suffices h : ∀ v, v ≤ w → places b v (m * b ^ w + n) = places b v n from h w le_rfl
  intro v hv
  induction v with
  | zero => rfl
  | succ v ih =>
    obtain ⟨k, rfl⟩ := Nat.exists_eq_add_of_lt hv
    rw [places, places, ih (by omega)]
    rcases Nat.eq_zero_or_pos b with rfl | hb
    · simp
    · have hsplit : m * b ^ (v + k + 1) + n = n + b ^ v * (b * (m * b ^ k)) := by ring
      rw [hsplit, Nat.add_mul_div_left _ _ (Nat.pow_pos hb), Nat.add_mul_mod_self_left]

theorem number_concat : number b (ds ++ [d]) = number b ds * b + d := by
  induction ds with
  | nil => simp [number]
  | cons e ds ih =>
    rw [List.cons_append, number, number, ih, List.length_append, List.length_singleton]
    ring

theorem number_lt (h : ∀ d ∈ ds, d < b) : number b ds < b ^ ds.length := by
  induction ds with
  | nil => exact Nat.one_pos
  | cons d ds ih =>
    have hd : d + 1 ≤ b := h d List.mem_cons_self
    have hrest := ih fun e he => h e (List.mem_cons_of_mem _ he)
    calc number b (d :: ds) < (d + 1) * b ^ ds.length := by rw [number]; linarith
      _ ≤ b * b ^ ds.length := Nat.mul_le_mul_right _ hd
      _ = b ^ (d :: ds).length := by rw [List.length_cons, Nat.pow_succ']

theorem places_number (h : ∀ d ∈ ds, d < b) : places b ds.length (number b ds) = ds := by
  induction ds with
  | nil => rfl
  | cons d ds ih =>
    have htail : ∀ e ∈ ds, e < b := fun e he => h e (List.mem_cons_of_mem _ he)
    have hd := h d List.mem_cons_self
    rw [List.length_cons, places, number, places_add_mul, ih htail, Nat.mul_comm,
      Nat.mul_add_div (Nat.pow_pos (Nat.zero_lt_of_lt hd)), Nat.div_eq_of_lt (number_lt htail),
      Nat.add_zero, Nat.mod_eq_of_lt hd]

theorem number_places (h : n < b ^ w) : number b (places b w n) = n := by
  suffices hmod : ∀ w, number b (places b w n) = n % b ^ w by rw [hmod, Nat.mod_eq_of_lt h]
  intro w
  induction w with
  | zero => exact (Nat.mod_one n).symm
  | succ w ih => rw [places, number, length_places, ih, Nat.mod_pow_succ, Nat.mul_comm]; ring

/-- **Digits of one width are in the order of their numbers.** -/
theorem number_lt_iff (hlen : ds.length = es.length) (hd : ∀ d ∈ ds, d < b)
    (he : ∀ e ∈ es, e < b) : number b ds < number b es ↔ ds < es := by
  induction ds generalizing es with
  | nil =>
    obtain rfl := List.eq_nil_of_length_eq_zero hlen.symm
    simp
  | cons d ds ih =>
    obtain _ | ⟨e, es⟩ := es
    · cases hlen
    · have hd' : ∀ x ∈ ds, x < b := fun x hx => hd x (List.mem_cons_of_mem _ hx)
      have he' : ∀ x ∈ es, x < b := fun x hx => he x (List.mem_cons_of_mem _ hx)
      have hlen' : ds.length = es.length := Nat.succ.inj hlen
      have hds := number_lt hd'
      have hes := number_lt he'
      rw [List.cons_lt_cons_iff, ← ih hlen' hd' he', number, number, ← hlen']
      rw [← hlen'] at hes
      -- A greater first digit outweighs all that follow it.
      rcases lt_trichotomy d e with h | rfl | h
      · have hstep := Nat.mul_le_mul_right (b ^ ds.length) (Nat.succ_le_of_lt h)
        rw [Nat.succ_mul] at hstep
        exact iff_of_true (by omega) (.inl h)
      · simp
      · have hstep := Nat.mul_le_mul_right (b ^ ds.length) (Nat.succ_le_of_lt h)
        rw [Nat.succ_mul] at hstep
        refine iff_of_false (by omega) ?_
        rintro (h' | ⟨h', -⟩)
        · exact lt_asymm h h'
        · exact h.ne' h'

end Places
