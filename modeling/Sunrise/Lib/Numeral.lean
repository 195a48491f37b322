import Mathlib.Data.List.Induction
import Sunrise.Lib.Text

/-!
# Numerals

Whole numbers as a program spells and reads them: in base ten, no zeros before the first digit when
spelled, and a sign before it allowed when read. What a fixed width does not hold is not read.

* `unsigned`, `signed` — a numeral read.
* `showNat`, `showInt` — a number spelled.
* `unsigned_showNat`, `signed_showInt` — **what is spelled is read back.**
-/

namespace Numeral

def digits (s : Text) : Option ℕ :=
  if s ≠ [] ∧ s.all Char.isDigit then some (Nat.ofDigitChars 10 s 0) else none

/-- A numeral without its plus sign. -/
def stripPlus : Text → Text
  | '+' :: s => s
  | s => s

/-- A numeral less than a bound, a plus sign before it or not. -/
def unsigned (bound : ℕ) (s : Text) : Option ℕ := (digits (stripPlus s)).filter (· < bound)

/-- A numeral from `-half` on and less than `half`, a sign before it or not. -/
def signed (half : ℕ) : Text → Option ℤ
  | '-' :: s => ((digits s).filter (· ≤ half)).map fun n : ℕ => -(n : ℤ)
  | s => ((digits (stripPlus s)).filter (· < half)).map fun n : ℕ => (n : ℤ)

/-- A number spelled. -/
def showNat (n : ℕ) : Text := Nat.toDigits 10 n

/-- A number spelled, a minus sign before it if it is negative. -/
def showInt (n : ℤ) : Text := if n < 0 then '-' :: showNat n.natAbs else showNat n.natAbs

theorem isDigit_of_mem_showNat {n : ℕ} {c : Char} (h : c ∈ showNat n) : c.isDigit :=
  Nat.isDigit_of_mem_toDigits (by decide) (by decide) h

theorem showNat_ne_nil (n : ℕ) : showNat n ≠ [] := Nat.toDigits_ne_nil

theorem digits_showNat (n : ℕ) : digits (showNat n) = some n := by
  rw [digits, if_pos ⟨showNat_ne_nil n, List.all_eq_true.mpr fun c => isDigit_of_mem_showNat⟩]
  exact congrArg some Nat.ofDigitChars_ten_toDigits

theorem digits_eq_some {s : Text} {n : ℕ} (h : digits s = some n) :
    s ≠ [] ∧ ∀ c ∈ s, c.isDigit := by
  unfold digits at h
  split at h
  next hs => exact ⟨hs.1, List.all_eq_true.mp hs.2⟩
  next => cases h

theorem showNat_eq_cons (n : ℕ) : ∃ c s, showNat n = c :: s ∧ c.isDigit := by
  cases h : showNat n with
  | nil => exact absurd h (showNat_ne_nil n)
  | cons c s => exact ⟨c, s, rfl, isDigit_of_mem_showNat (h ▸ List.mem_cons_self)⟩

theorem stripPlus_of_digits {s : Text} {n : ℕ} (h : digits s = some n) : stripPlus s = s := by
  unfold stripPlus
  split
  next s' =>
    have hc := (digits_eq_some h).2 '+' List.mem_cons_self
    exact absurd hc (by decide)
  next => rfl

theorem unsigned_of_digits {bound n : ℕ} {s : Text} (h : digits s = some n) (hn : n < bound) :
    unsigned bound s = some n := by
  rw [unsigned, stripPlus_of_digits h, h, Option.filter_some, if_pos (by simpa using hn)]

theorem unsigned_showNat {bound n : ℕ} (h : n < bound) : unsigned bound (showNat n) = some n :=
  unsigned_of_digits (digits_showNat n) h

theorem lt_of_unsigned {bound n : ℕ} {s : Text} (h : unsigned bound s = some n) : n < bound := by
  simpa using (Option.filter_eq_some_iff.mp h).2

theorem signed_of_ne {half : ℕ} {c : Char} {s : Text} (h : c ≠ '-') : signed half (c :: s) =
    ((digits (stripPlus (c :: s))).filter (· < half)).map fun n : ℕ => (n : ℤ) := by
  unfold signed
  split
  next heq => exact absurd (List.cons.inj heq).1 h
  next => rfl

theorem signed_showInt {half : ℕ} {n : ℤ} (hlo : -(half : ℤ) ≤ n) (hhi : n < half) :
    signed half (showInt n) = some n := by
  unfold showInt
  split
  next hneg =>
    show ((digits (showNat n.natAbs)).filter _).map _ = _
    rw [digits_showNat, Option.filter_some, if_pos (decide_eq_true (by omega)), Option.map_some]
    exact congrArg some (by omega)
  next hnonneg =>
    obtain ⟨c, s, hs, hc⟩ := showNat_eq_cons n.natAbs
    have hne : c ≠ '-' := fun h => absurd (h ▸ hc) (by decide)
    rw [hs, signed_of_ne hne, ← hs, stripPlus_of_digits (digits_showNat _), digits_showNat,
      Option.filter_some,
      if_pos (decide_eq_true (by omega)), Option.map_some]
    exact congrArg some (by omega)

theorem range_of_signed {half : ℕ} (hpos : 0 < half) {s : Text} {n : ℤ}
    (h : signed half s = some n) : -(half : ℤ) ≤ n ∧ n < half := by
  unfold signed at h
  split at h
  · obtain ⟨k, hk, rfl⟩ := Option.map_eq_some_iff.mp h
    have hle := (Option.filter_eq_some_iff.mp hk).2
    simp only [decide_eq_true_eq] at hle
    omega
  · obtain ⟨k, hk, rfl⟩ := Option.map_eq_some_iff.mp h
    have hlt := (Option.filter_eq_some_iff.mp hk).2
    simp only [decide_eq_true_eq] at hlt
    omega

theorem not_mem_showNat {c : Char} (h : c.isDigit = false) (n : ℕ) : c ∉ showNat n :=
  fun hmem => absurd (isDigit_of_mem_showNat hmem) (by rw [h]; decide)

theorem not_mem_showInt {c : Char} (h : c.isDigit = false) (h' : c ≠ '-') (n : ℤ) :
    c ∉ showInt n := by
  unfold showInt
  split
  · exact List.not_mem_cons_of_ne_of_not_mem h' (not_mem_showNat h _)
  · exact not_mem_showNat h _

/-! ### A width -/

/-- A number spelled with zeros before it up to a width. -/
def padded (width n : ℕ) : Text := List.replicate (width - (showNat n).length) '0' ++ showNat n

theorem isDigit_of_mem_padded {width n : ℕ} {c : Char} (h : c ∈ padded width n) : c.isDigit := by
  rcases List.mem_append.mp h with h | h
  · rw [List.eq_of_mem_replicate h]
    decide
  · exact isDigit_of_mem_showNat h

theorem ofDigitChars_padded (width n : ℕ) : Nat.ofDigitChars 10 (padded width n) 0 = n := by
  rw [padded, Nat.ofDigitChars_append, Nat.ofDigitChars_replicate_zero, Nat.mul_zero]
  exact Nat.ofDigitChars_ten_toDigits

theorem digits_padded (width n : ℕ) : digits (padded width n) = some n := by
  have hne : padded width n ≠ [] := List.append_ne_nil_of_right_ne_nil _ (showNat_ne_nil n)
  rw [digits, if_pos ⟨hne, List.all_eq_true.mpr fun c => isDigit_of_mem_padded⟩,
    ofDigitChars_padded]

theorem length_padded {width n : ℕ} (hw : 0 < width) (hn : n < 10 ^ width) :
    (padded width n).length = width := by
  have hle : (showNat n).length ≤ width :=
    (Nat.length_toDigits_le_iff (b := 10) (by decide) hw).mpr hn
  rw [padded, List.length_append, List.length_replicate]
  omega

theorem rdropWhile_append_zeros (s : Text) : s.rdropWhile (· == '0') ++
    List.replicate (s.length - (s.rdropWhile (· == '0')).length) '0' = s := by
  induction s using List.reverseRecOn with
  | nil => rfl
  | append_singleton s c ih =>
    rw [List.rdropWhile_concat]
    split
    next hc =>
      have hle := (List.rdropWhile_prefix (p := (· == '0')) (l := s)).length_le
      rw [List.length_append, List.length_singleton, Nat.sub_add_comm hle, List.replicate_succ',
        ← List.append_assoc, ih, eq_of_beq hc]
    next => simp

/-- The number that so many digits at the head of a text are, and what is behind them. -/
def takeDigits (width : ℕ) (s : Text) : Option (ℕ × Text) :=
  if width ≤ s.length ∧ (s.take width).all Char.isDigit then
    some (Nat.ofDigitChars 10 (s.take width) 0, s.drop width)
  else none

theorem takeDigits_padded {width n : ℕ} (hw : 0 < width) (hn : n < 10 ^ width) (s : Text) :
    takeDigits width (padded width n ++ s) = some (n, s) := by
  have hlen := length_padded hw hn
  rw [takeDigits, List.take_left' hlen, List.drop_left' hlen, ofDigitChars_padded, if_pos]
  refine ⟨?_, List.all_eq_true.mpr fun c => isDigit_of_mem_padded⟩
  rw [List.length_append]
  omega

end Numeral
