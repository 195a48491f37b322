import Mathlib.Data.Nat.Notation
import Mathlib.Tactic.Linarith
import Mathlib.Tactic.SplitIfs

/-!
# Lossy UTF-8

The UTF-8 decoder that never fails: each longest prefix of a sequence that cannot be completed reads
as one replacement character. What it has read of a sequence is a `Sequence`, which carries the
range its next byte has to lie in, so an overlong form or a surrogate is refused at its second byte.

An ASCII byte is never part of a sequence. So the text of bytes cut at one is the text of what lies
before it, the character, and the text of what lies after.
-/

namespace Utf8

/-- The character that stands for bytes that are not UTF-8. -/
def replacement : Char := '\uFFFD'

/-- A sequence of which the first bytes are read. -/
structure Sequence where
  code : ℕ
  rest : ℕ
  lower : ℕ
  upper : ℕ
  le_lower : 128 ≤ lower
  le_code : 128 ≤ (code * 64 + (lower - 128)) * 64 ^ rest

/-- The sequence that begins with `E0` to `EF`. -/
def threeBytes (b : ℕ) (h : 0xE0 ≤ b) : Sequence where
  code := b - 0xE0
  rest := 1
  lower := if b = 0xE0 then 0xA0 else 0x80
  upper := if b = 0xED then 0x9F else 0xBF
  le_lower := by split_ifs <;> omega
  le_code := by split_ifs <;> omega

/-- The sequence that begins with `F0` to `F4`. -/
def fourBytes (b : ℕ) (h : 0xF0 ≤ b) : Sequence where
  code := b - 0xF0
  rest := 2
  lower := if b = 0xF0 then 0x90 else 0x80
  upper := if b = 0xF4 then 0x8F else 0xBF
  le_lower := by split_ifs <;> omega
  le_code := by split_ifs <;> omega

/-- What a byte is outside a sequence: a character, or the first of a sequence. -/
def lead (b : ℕ) : Char ⊕ Sequence :=
  if b ≤ 0x7F then .inl (Char.ofNat b)
  else if h : 0xC2 ≤ b ∧ b ≤ 0xDF then .inr
    { code := b - 0xC0, rest := 0, lower := 0x80, upper := 0xBF, le_lower := le_rfl
      le_code := by omega }
  else if h : 0xE0 ≤ b ∧ b ≤ 0xEF then .inr (threeBytes b h.1)
  else if h : 0xF0 ≤ b ∧ b ≤ 0xF4 then .inr (fourBytes b h.1)
  else .inl replacement

/-- The next byte of a sequence that may have it: a character, or a longer sequence. -/
def Sequence.next (q : Sequence) (b : ℕ) (h : q.lower ≤ b) : Char ⊕ Sequence :=
  match hr : q.rest with
  | 0 => .inl (Char.ofNat (q.code * 64 + (b - 128)))
  | k + 1 => .inr
    { code := q.code * 64 + (b - 128), rest := k, lower := 0x80, upper := 0xBF, le_lower := le_rfl
      le_code := by
        have hcode := q.le_code
        rw [hr, pow_succ, ← mul_assoc, mul_right_comm] at hcode
        refine hcode.trans (Nat.mul_le_mul_right _ ?_)
        omega }

/-- The text of bytes, of which those of `q` are read. -/
def decodeFrom : Option Sequence → List ℕ → List Char
  | none, [] => []
  | some _, [] => [replacement]
  | none, b :: r =>
    match lead b with
    | .inl c => c :: decodeFrom none r
    | .inr q => decodeFrom (some q) r
  | some q, b :: r =>
    if h : q.lower ≤ b ∧ b ≤ q.upper then
      match q.next b h.1 with
      | .inl c => c :: decodeFrom none r
      | .inr q => decodeFrom (some q) r
    else
      -- The byte is read again, outside the sequence.
      match lead b with
      | .inl c => replacement :: c :: decodeFrom none r
      | .inr q => replacement :: decodeFrom (some q) r

/-- The text of bytes. -/
def decode (l : List ℕ) : List Char := decodeFrom none l

/-- The byte order mark. -/
def bom : List ℕ := [0xEF, 0xBB, 0xBF]

/-- The text of a stream, of which a leading byte order mark is no part. -/
def decodeStream (l : List ℕ) : List Char := decode (if bom <+: l then l.drop 3 else l)

@[simp] theorem decode_nil : decode [] = [] := rfl

example : decode [0x61, 0xE2, 0x82, 0xAC, 0xE2, 0x82, 0x0A, 0xF0, 0x9F] =
    ['a', '€', replacement, '\n', replacement] := by decide

theorem lead_ascii {b : ℕ} (h : b < 128) : lead b = .inl (Char.ofNat b) :=
  if_pos (by omega)

theorem decodeFrom_cons_ascii (q : Option Sequence) {b : ℕ} (h : b < 128) (r : List ℕ) :
    decodeFrom q (b :: r) = decodeFrom q [] ++ Char.ofNat b :: decode r := by
  cases q with
  | none => simp [decodeFrom, lead_ascii h, decode]
  | some q =>
    have hq : ¬(q.lower ≤ b ∧ b ≤ q.upper) := fun hb => by
      have := q.le_lower
      omega
    simp [decodeFrom, hq, lead_ascii h, decode]

theorem decodeFrom_append_ascii (q : Option Sequence) (l : List ℕ) {b : ℕ} (h : b < 128)
    (r : List ℕ) :
    decodeFrom q (l ++ b :: r) = decodeFrom q l ++ Char.ofNat b :: decode r := by
  fun_induction decodeFrom q l with
  | case1 => exact decodeFrom_cons_ascii none h r
  | case2 q => exact decodeFrom_cons_ascii (some q) h r
  | case3 d l c hd ih | case4 d l q hd ih => simp [decodeFrom, hd, ih]
  | case5 q d l hq c hn ih | case6 q d l hq q' hn ih => simp [decodeFrom, hq, hn, ih]
  | case7 q d l hq c hd ih | case8 q d l hq q' hd ih => simp [decodeFrom, hq, hd, ih]

theorem decode_append_ascii (l : List ℕ) {b : ℕ} (h : b < 128) (r : List ℕ) :
    decode (l ++ b :: r) = decode l ++ Char.ofNat b :: decode r :=
  decodeFrom_append_ascii none l h r

theorem decodeFrom_some_ne_nil (q : Sequence) (l : List ℕ) : decodeFrom (some q) l ≠ [] := by
  induction l generalizing q with
  | nil => simp [decodeFrom]
  | cons b l ih =>
    rw [decodeFrom]
    split
    · split
      · exact List.cons_ne_nil _ _
      · exact ih _
    · split <;> exact List.cons_ne_nil _ _

@[simp] theorem decode_eq_nil {l : List ℕ} : decode l = [] ↔ l = [] := by
  refine ⟨fun h => ?_, fun h => h ▸ rfl⟩
  cases l with
  | nil => rfl
  | cons b l =>
    rw [decode, decodeFrom] at h
    split at h
    · exact absurd h (List.cons_ne_nil _ _)
    · exact absurd h (decodeFrom_some_ne_nil _ _)

/-! ### ASCII characters -/

theorem toNat_ofNat {n : ℕ} (h : n.isValidChar) : (Char.ofNat n).toNat = n := by
  rw [Char.ofNat, dif_pos h]
  rfl

theorem toNat_ofNat_or (n : ℕ) : (Char.ofNat n).toNat = n ∨ (Char.ofNat n).toNat = 0 := by
  by_cases h : n.isValidChar
  · exact .inl (toNat_ofNat h)
  · refine .inr ?_
    rw [Char.ofNat, dif_neg h]
    rfl

theorem replacement_not_ascii : ¬replacement.toNat < 128 := by decide

theorem lead_eq_inl {b : ℕ} {c : Char} (h : lead b = .inl c) (hc : c.toNat < 128) :
    c.toNat = b := by
  rw [lead] at h
  split_ifs at h with h1
  · cases h
    exact toNat_ofNat (.inl (by omega))
  · cases h
    exact absurd hc replacement_not_ascii

theorem Sequence.next_eq_inl {q : Sequence} {b : ℕ} {hb : q.lower ≤ b} {c : Char}
    (h : q.next b hb = .inl c) (hc : c.toNat < 128) : c.toNat = 0 := by
  rw [Sequence.next] at h
  split at h
  next hr =>
    rw [← Sum.inl.inj h] at hc ⊢
    have hcode := q.le_code
    rw [hr, pow_zero, mul_one] at hcode
    have := toNat_ofNat_or (q.code * 64 + (b - 128))
    omega
  next => cases h

theorem mem_of_mem_decodeFrom {q : Option Sequence} {l : List ℕ} {c : Char}
    (h : c ∈ decodeFrom q l) (hc : c.toNat < 128) (h0 : c.toNat ≠ 0) : c.toNat ∈ l := by
  have hr : c ≠ replacement := by
    rintro rfl
    exact replacement_not_ascii hc
  fun_induction decodeFrom q l with
  | case1 => simp at h
  | case2 => simp [hr] at h
  | case3 d l c' hd ih =>
    rcases List.mem_cons.mp h with rfl | h
    · exact List.mem_cons.mpr (.inl (lead_eq_inl hd hc))
    · exact List.mem_cons_of_mem _ (ih h)
  | case4 d l q hd ih => exact List.mem_cons_of_mem _ (ih h)
  | case5 q d l hq c' hn ih =>
    rcases List.mem_cons.mp h with rfl | h
    · exact absurd (Sequence.next_eq_inl hn hc) h0
    · exact List.mem_cons_of_mem _ (ih h)
  | case6 q d l hq q' hn ih => exact List.mem_cons_of_mem _ (ih h)
  | case7 q d l hq c' hd ih =>
    rcases List.mem_cons.mp ((List.mem_cons.mp h).resolve_left hr) with rfl | h
    · exact List.mem_cons.mpr (.inl (lead_eq_inl hd hc))
    · exact List.mem_cons_of_mem _ (ih h)
  | case8 q d l hq q' hd ih =>
    exact List.mem_cons_of_mem _ (ih ((List.mem_cons.mp h).resolve_left hr))

theorem mem_of_mem_decode {l : List ℕ} {c : Char} (h : c ∈ decode l) (hc : c.toNat < 128)
    (h0 : c.toNat ≠ 0) : c.toNat ∈ l :=
  mem_of_mem_decodeFrom h hc h0

end Utf8
