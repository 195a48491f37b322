import Mathlib.Data.String.Basic
import Sunrise.Lib.Radix

/-!
# Fractional index keys

A row of a list arranged by hand keeps a key, a text over the letters from `A` to `Z` that is read
as the digits of a fraction in base 26. Between two keys there is always another, so a row is moved
by writing its key alone. `A` is the digit zero, so a key with an `A` at its end is a fraction that
another text spells too; no key generated here has one, but the bounds may.

## Main results

* `between_spread` — **there are keys between two bounds exactly if these are in order.**
-/

namespace Sunrise

open Radix

namespace SortOrder

open Radix (digit value Less)

/-! ### Keys -/

/-- The number of digits. -/
def base : ℕ := 26

def zero : Char := 'A'

/-- The largest digit. -/
def last : ℕ := base - 1

def IsDigit (c : Char) : Prop := zero.toNat ≤ c.toNat ∧ c.toNat < zero.toNat + base

instance : DecidablePred IsDigit := fun _ => inferInstanceAs (Decidable (_ ∧ _))

def ofLetter (c : Char) : ℕ := c.toNat - zero.toNat

def letter (d : ℕ) : Char := Char.ofNat (zero.toNat + d)

def digits (key : String) : List ℕ := key.toList.map ofLetter

/-- Whether a text is made of digits. -/
def wellFormed (key : String) : Bool := key.toList.all fun c => decide (IsDigit c)

/-- Whether this build writes a key. -/
def isValid (key : String) : Bool :=
  !key.toList.isEmpty && wellFormed key && key.toList.getLast? != some zero

/-! ### Between two keys -/

/-- Why two bounds have no key between them. -/
inductive SortOrderError where
  | malformedBound
  | notIncreasing
deriving DecidableEq

/-- What else may happen: an assertion fails, or a subtraction goes below zero. -/
inductive Failure where
  | error (e : SortOrderError)
  | panic
deriving DecidableEq

/-- The shortest suffix above what a key has from a place on. -/
def aboveTail (lo : List ℕ) (i : ℕ) : List ℕ :=
  if digit lo i < last then [digit lo i + (base - digit lo i) / 2]
  else digit lo i :: aboveTail lo (i + 1)
termination_by lo.length - i
decreasing_by
  have : i < lo.length := by
    by_contra h
    have hzero := digit_of_length_le (not_lt.mp h)
    unfold last base at *
    omega
  omega

/-- The key of digits. -/
def finish (out : List ℕ) : String := String.ofList (out.map letter)

def afterKey (lo : List ℕ) : String := finish (aboveTail lo 0)

/-- The digits of a key between two, from a place on, up to which these agree. -/
def walk (lo hi : List ℕ) (width i : ℕ) (out : List ℕ) : Except Failure String :=
  let a := digit lo i
  let b := digit hi i
  if a ≠ b then
    if b < a then .error .panic
    else if 2 ≤ b - a then .ok (finish (out ++ [a + (b - a) / 2]))
    -- the digits are adjacent: below the upper bound, above what is left of the lower
    else .ok (finish (out ++ [a] ++ aboveTail lo (i + 1)))
  else if i < width then walk lo hi width (i + 1) (out ++ [a])
  else .error .panic
termination_by width - i

/-- A key between two, with none for the start and the end of the list. -/
def between (after before : Option String) : Except Failure String :=
  let lo := after.getD ""
  if !wellFormed lo then .error (.error .malformedBound)
  else
    match before with
    | none => .ok (afterKey (digits lo))
    | some hi =>
      if !wellFormed hi then .error (.error .malformedBound)
      else
        let width := max lo.length hi.length
        if (List.range width).all (fun i => digit (digits lo) i == digit (digits hi) i) ||
            hi < lo then
          .error (.error .notIncreasing)
        else walk (digits lo) (digits hi) width 0 []

/-- So many keys between two, in order, by bisection. -/
def bisect (after before : Option String) (n : ℕ) : Except Failure (List String) :=
  if n = 0 then .ok []
  else do
    let mid ← between after before
    let left ← bisect after (some mid) (n / 2)
    let right ← bisect (some mid) before (n - n / 2 - 1)
    return left ++ mid :: right
termination_by n

/-- So many keys between two, in order. -/
def spread (after before : Option String) (n : ℕ) : Except Failure (List String) :=
  if n = 0 then (between after before).map fun _ => []
  else bisect after before n

/-! ### Bounds -/

def fraction (key : String) : ℚ := value base (digits key)

/-- **The bounds are in order**, the lower below the upper as fractions. -/
def Increasing (after before : Option String) : Prop :=
  ∀ hi, before = some hi → fraction (after.getD "") < fraction hi

/-- **A key lies between bounds**, as a fraction and as a text. -/
structure Lies (after before : Option String) (key : String) : Prop where
  valid : isValid key = true
  above : fraction (after.getD "") < fraction key
  aboveText : after.getD "" < key
  below : ∀ hi, before = some hi → fraction key < fraction hi
  belowText : ∀ hi, before = some hi → key < hi

/-! ### Letters and digits -/

section Letters

variable {c : Char} {d : ℕ} {key x y : String} {out : List ℕ}

theorem isDigit_letter : ∀ d < base, IsDigit (letter d) ∧ ofLetter (letter d) = d := by
  decide

theorem letter_ofLetter (h : IsDigit c) : letter (ofLetter c) = c := by
  have hsum : zero.toNat + (c.toNat - zero.toNat) = c.toNat := Nat.add_sub_cancel' h.1
  unfold letter ofLetter
  rw [hsum, Char.ofNat_toNat]

theorem ofLetter_lt (h : IsDigit c) : ofLetter c < base := by
  obtain ⟨hlo, hhi⟩ := h
  unfold ofLetter
  omega

theorem wellFormed_iff : wellFormed key = true ↔ ∀ c ∈ key.toList, IsDigit c := by
  simp [wellFormed]

theorem length_digits (key : String) : (digits key).length = key.length := by
  unfold digits
  rw [List.length_map, String.length_toList]

theorem digits_lt (h : wellFormed key = true) : ∀ d ∈ digits key, d < base := by
  intro d hd
  obtain ⟨c, hc, rfl⟩ := List.mem_map.mp hd
  exact ofLetter_lt (wellFormed_iff.mp h c hc)

theorem digits_finish (h : ∀ d ∈ out, d < base) : digits (finish out) = out := by
  unfold digits finish
  rw [String.toList_ofList, List.map_map]
  refine (List.map_congr_left fun d hd => ?_).trans (List.map_id out)
  exact (isDigit_letter d (h d hd)).2

theorem wellFormed_finish (h : ∀ d ∈ out, d < base) : wellFormed (finish out) = true := by
  rw [wellFormed_iff]
  intro c hc
  unfold finish at hc
  rw [String.toList_ofList] at hc
  obtain ⟨d, hd, rfl⟩ := List.mem_map.mp hc
  exact (isDigit_letter d (h d hd)).1

theorem wellFormed_of_isValid (h : isValid key = true) : wellFormed key = true := by
  simp only [isValid, Bool.and_eq_true] at h
  exact h.1.2

section

variable {l m : List Char} (hl : ∀ c ∈ l, IsDigit c) (hm : ∀ c ∈ m, IsDigit c)
include hl hm

theorem lt_of_map_lt (h : l.map ofLetter < m.map ofLetter) : l < m := by
  induction l generalizing m with
  | nil =>
    cases m with
    | nil => exact absurd h (List.not_lt_nil _)
    | cons d m => exact List.nil_lt_cons d m
  | cons c l ih =>
    cases m with
    | nil => exact absurd h (List.not_lt_nil _)
    | cons d m =>
      have hc := hl c List.mem_cons_self
      have hd := hm d List.mem_cons_self
      rw [List.map_cons, List.map_cons, List.cons_lt_cons_iff] at h
      rw [List.cons_lt_cons_iff]
      rcases h with h | ⟨heq, h⟩
      · left
        have := hc.1
        unfold ofLetter at h
        show c.toNat < d.toNat
        omega
      · right
        refine ⟨?_, ih (fun e he => hl e (List.mem_cons_of_mem _ he))
          (fun e he => hm e (List.mem_cons_of_mem _ he)) h⟩
        rw [← letter_ofLetter hc, heq, letter_ofLetter hd]

theorem map_lt_of_lt (h : l < m) : l.map ofLetter < m.map ofLetter := by
  rcases lt_trichotomy (l.map ofLetter) (m.map ofLetter) with hlt | heq | hgt
  · exact hlt
  · have hback {k : List Char} (hk : ∀ c ∈ k, IsDigit c) : (k.map ofLetter).map letter = k := by
      rw [List.map_map]
      exact (List.map_congr_left fun c hc => letter_ofLetter (hk c hc)).trans (List.map_id k)
    rw [← hback hl, heq, hback hm] at h
    exact absurd h (lt_irrefl _)
  · exact absurd h (lt_asymm (lt_of_map_lt hm hl hgt))

end

theorem lt_of_less (hx : wellFormed x = true) (hy : wellFormed y = true)
    (h : Less (digits x) (digits y)) : x < y := by
  rw [String.lt_iff_toList_lt]
  exact lt_of_map_lt (wellFormed_iff.mp hx) (wellFormed_iff.mp hy) h.lt

theorem fraction_lt_iff (hx : wellFormed x = true) (hy : wellFormed y = true) :
    fraction x < fraction y ↔ Less (digits x) (digits y) :=
  value_lt_iff (by decide) (digits_lt hx) (digits_lt hy)

/-- The digits of a key: some, and not zero at the end. -/
def IsKey (out : List ℕ) : Prop :=
  (∀ d ∈ out, d < base) ∧ ∃ front d, out = front ++ [d] ∧ 0 < d

theorem IsKey.append {front : List ℕ} (h : IsKey out) (hf : ∀ d ∈ front, d < base) :
    IsKey (front ++ out) := by
  obtain ⟨hlt, tail, d, rfl, hd⟩ := h
  refine ⟨fun e he => (List.mem_append.mp he).elim (hf e) (hlt e), front ++ tail, d, ?_, hd⟩
  rw [List.append_assoc]

theorem isKey_singleton (h0 : 0 < d) (hd : d < base) : IsKey [d] := by
  refine ⟨fun e he => ?_, [], d, rfl, h0⟩
  rw [List.mem_singleton] at he
  exact he ▸ hd

theorem IsKey.isValid (h : IsKey out) : isValid (finish out) = true := by
  have hwell := wellFormed_finish h.1
  obtain ⟨hlt, front, d, rfl, hd⟩ := h
  have hdlt := hlt d (List.mem_append_right _ (List.mem_singleton_self d))
  have hletter : letter d ≠ zero := by
    intro heq
    have hzero : ofLetter (letter d) = ofLetter zero := congrArg ofLetter heq
    rw [(isDigit_letter d hdlt).2] at hzero
    exact hd.ne' hzero
  have hlist : (finish (front ++ [d])).toList = front.map letter ++ [letter d] := by
    unfold finish
    rw [String.toList_ofList, List.map_append, List.map_singleton]
  unfold SortOrder.isValid
  rw [hwell, hlist]
  simp [hletter]

end Letters

/-! ### The walks -/

section Walks

variable {lo hi out : List ℕ} {width i : ℕ}

theorem digit_lt (hlo : ∀ d ∈ lo, d < base) (i : ℕ) : digit lo i < base := by
  by_cases hi : i < lo.length
  · unfold digit
    rw [List.getD_eq_getElem _ _ hi]
    exact hlo _ (List.getElem_mem hi)
  · rw [digit_of_length_le (not_lt.mp hi)]
    decide

/-- **The suffix above what a key has from a place on**: it follows the key's digits, and then has
a greater one. -/
theorem aboveTail_spec (hlo : ∀ d ∈ lo, d < base) (i : ℕ) :
    IsKey (aboveTail lo i) ∧ ∃ m, (∀ j < m, digit (aboveTail lo i) j = digit lo (i + j)) ∧
      digit lo (i + m) < digit (aboveTail lo i) m := by
  induction i using aboveTail.induct lo with
  | case1 i hlt =>
    rw [aboveTail, if_pos hlt]
    unfold last base at hlt
    refine ⟨isKey_singleton (by unfold base; omega) (by unfold base; omega), 0,
      fun j hj => absurd hj (Nat.not_lt_zero j), ?_⟩
    rw [Nat.add_zero, digit_cons_zero]
    unfold base
    omega
  | case2 i hnot ih =>
    obtain ⟨hkey, m, heq, hlt⟩ := ih
    have hd := digit_lt hlo i
    have hhead : ∀ d ∈ [digit lo i], d < base := fun d hd' => List.mem_singleton.mp hd' ▸ hd
    rw [aboveTail, if_neg hnot]
    refine ⟨hkey.append hhead, m + 1, fun j hj => ?_, ?_⟩
    · cases j with
      | zero => rfl
      | succ j =>
        rw [digit_cons_succ, heq j (Nat.lt_of_succ_lt_succ hj), Nat.add_right_comm,
          Nat.add_assoc]
    · rw [digit_cons_succ]
      rwa [Nat.add_right_comm, Nat.add_assoc] at hlt

/-- The digits two bounds agree on. -/
structure Agrees (lo hi out : List ℕ) (i : ℕ) : Prop where
  length : out.length = i
  lower : ∀ j < i, digit out j = digit lo j
  upper : ∀ j < i, digit lo j = digit hi j
  lt : ∀ d ∈ out, d < base

theorem Agrees.less_above (h : Agrees lo hi out i) {rest : List ℕ}
    (hlt : digit lo i < digit rest 0) : Less lo (out ++ rest) := by
  refine ⟨i, fun j hj => ?_, ?_⟩
  · rw [digit_append_left (h.length.symm ▸ hj), h.lower j hj]
  · rw [← h.length, ← Nat.add_zero out.length, digit_append_right, Nat.add_zero, h.length]
    exact hlt

theorem Agrees.less_below (h : Agrees lo hi out i) {rest : List ℕ}
    (hlt : digit rest 0 < digit hi i) : Less (out ++ rest) hi := by
  refine ⟨i, fun j hj => ?_, ?_⟩
  · rw [digit_append_left (h.length.symm ▸ hj), h.lower j hj, h.upper j hj]
  · rw [← h.length, ← Nat.add_zero out.length, digit_append_right, Nat.add_zero, h.length]
    exact hlt

theorem Agrees.snoc (h : Agrees lo hi out i) (hlo : ∀ d ∈ lo, d < base) :
    (out ++ [digit lo i]).length = i + 1 ∧
      (∀ j < i + 1, digit (out ++ [digit lo i]) j = digit lo j) ∧
      ∀ d ∈ out ++ [digit lo i], d < base := by
  refine ⟨?_, fun j hj => ?_, fun d hd => ?_⟩
  · rw [List.length_append, h.length, List.length_singleton]
  · rcases Nat.lt_succ_iff_lt_or_eq.mp hj with hj | rfl
    · rw [digit_append_left (h.length.symm ▸ hj), h.lower j hj]
    · have hat := digit_append_right out [digit lo j] 0
      rwa [Nat.add_zero, h.length] at hat
  · rcases List.mem_append.mp hd with hd | hd
    · exact h.lt d hd
    · exact List.mem_singleton.mp hd ▸ digit_lt hlo i

theorem less_aboveTail (hlo : ∀ d ∈ lo, d < base) (hlength : out.length = i)
    (hlower : ∀ j < i, digit out j = digit lo j) : Less lo (out ++ aboveTail lo i) := by
  obtain ⟨-, m, heq, hlt⟩ := aboveTail_spec hlo i
  refine ⟨i + m, fun j hj => ?_, ?_⟩
  · by_cases hji : j < i
    · rw [digit_append_left (hlength.symm ▸ hji), hlower j hji]
    · obtain ⟨k, rfl⟩ := Nat.exists_eq_add_of_le (not_lt.mp hji)
      rw [← heq k (by omega), ← hlength, digit_append_right]
  · rw [← hlength] at hlt ⊢
    rwa [digit_append_right]

/-- **The walk between two bounds in order** ends in a key between them. -/
theorem walk_spec (hlo : ∀ d ∈ lo, d < base) (hhi : ∀ d ∈ hi, d < base) (hless : Less lo hi)
    (hw : hi.length ≤ width) (h : Agrees lo hi out i) :
    ∃ k, walk lo hi width i out = .ok (finish k) ∧ IsKey k ∧ Less lo k ∧ Less k hi := by
  induction i, out using walk.induct lo hi width with
  | case1 i out a b hne hlt =>
    -- the lower bound would be above
    have hgreater : Less hi lo := ⟨i, fun j hj => (h.upper j hj).symm, hlt⟩
    exact absurd hless hgreater.asymm
  | case2 i out a b hne hnot hroom =>
    have hlt : digit lo i < digit hi i := lt_of_le_of_ne (not_lt.mp hnot) hne
    have hb := digit_lt hhi i
    rw [walk, if_pos hne, if_neg hnot, if_pos hroom]
    refine ⟨_, rfl, IsKey.append (isKey_singleton ?_ ?_) h.lt, h.less_above ?_, h.less_below ?_⟩
    all_goals
      try rw [digit_cons_zero]
      omega
  | case3 i out a b hne hnot hnarrow =>
    have hlt : digit lo i < digit hi i := lt_of_le_of_ne (not_lt.mp hnot) hne
    obtain ⟨hlength, hlower, hdigits⟩ := h.snoc hlo
    rw [walk, if_pos hne, if_neg hnot, if_neg hnarrow]
    refine ⟨_, rfl, (aboveTail_spec hlo (i + 1)).1.append hdigits,
      less_aboveTail hlo hlength hlower, ?_⟩
    rw [List.append_assoc]
    exact h.less_below hlt
  | case4 i out a b heq hin ih =>
    have heq' : digit lo i = digit hi i := not_not.mp heq
    obtain ⟨hlength, hlower, hdigits⟩ := h.snoc hlo
    rw [walk, if_neg heq, if_pos hin]
    refine ih ⟨hlength, hlower, fun j hj => ?_, hdigits⟩
    rcases Nat.lt_succ_iff_lt_or_eq.mp hj with hj | rfl
    · exact h.upper j hj
    · exact heq'
  | case5 i out a b heq hout =>
    -- past both ends the bounds have no digits left to differ in
    obtain ⟨j, -, hlt⟩ := hless
    by_cases hj : j < i
    · rw [h.upper j hj] at hlt
      exact absurd hlt (Nat.lt_irrefl _)
    · rw [digit_of_length_le (show hi.length ≤ j by omega)] at hlt
      exact absurd hlt (Nat.not_lt_zero _)

end Walks

/-! ### Between two keys -/

section Between

variable {after before : Option String} {lo hi key mid : String}

theorem increasing_iff (hlo : wellFormed lo = true) (hhi : wellFormed hi = true) :
    ((List.range (max lo.length hi.length)).all
        (fun i => digit (digits lo) i == digit (digits hi) i) || decide (hi < lo)) = true ↔
      ¬ Less (digits lo) (digits hi) := by
  rw [Bool.or_eq_true, List.all_eq_true, decide_eq_true_iff]
  constructor
  · rintro (hall | hlt) hless
    · obtain ⟨i, -, hi'⟩ := hless
      by_cases hlen : i < max lo.length hi.length
      · have heq := beq_iff_eq.mp (hall i (List.mem_range.mpr hlen))
        exact absurd hi' (heq ▸ Nat.lt_irrefl _)
      · have hzero : digit (digits hi) i = 0 := by
          refine digit_of_length_le ?_
          rw [length_digits]
          omega
        rw [hzero] at hi'
        exact absurd hi' (Nat.not_lt_zero _)
    · exact absurd hlt (lt_asymm (lt_of_less hlo hhi hless))
  · intro hnot
    rcases less_trichotomy (digits lo) (digits hi) with h | h | h
    · exact absurd h hnot
    · exact .inl fun i _ => beq_iff_eq.mpr (h i)
    · exact .inr (lt_of_less hhi hlo h)

section

variable (ha : wellFormed (after.getD "") = true)
  (hb : ∀ hi, before = some hi → wellFormed hi = true)
include ha hb

/-- **Between two bounds in order there is a key.** -/
theorem between_of_increasing (h : Increasing after before) :
    ∃ key, between after before = .ok key ∧ Lies after before key := by
  have hlies {k : List ℕ} (hk : IsKey k) (hlo : Less (digits (after.getD "")) k)
      (hhi : ∀ hi, before = some hi → Less k (digits hi)) : Lies after before (finish k) := by
    have hwell := wellFormed_finish hk.1
    rw [← digits_finish hk.1] at hlo hhi
    exact ⟨hk.isValid, (fraction_lt_iff ha hwell).mpr hlo, lt_of_less ha hwell hlo,
      fun hi heq => (fraction_lt_iff hwell (hb hi heq)).mpr (hhi hi heq),
      fun hi heq => lt_of_less hwell (hb hi heq) (hhi hi heq)⟩
  unfold between
  dsimp only
  rw [ha, Bool.not_true, if_neg Bool.false_ne_true]
  cases before with
  | none =>
    have hlo := digits_lt ha
    have hless : Less (digits (after.getD "")) ([] ++ aboveTail (digits (after.getD "")) 0) :=
      less_aboveTail hlo rfl fun j hj => absurd hj (Nat.not_lt_zero j)
    exact ⟨_, rfl, hlies (aboveTail_spec hlo 0).1 hless fun hi heq => by cases heq⟩
  | some hi =>
    have hwell := hb hi rfl
    have hless := (fraction_lt_iff ha hwell).mp (h hi rfl)
    have hcheck := mt (increasing_iff ha hwell).mp (not_not.mpr hless)
    dsimp only
    rw [hwell, Bool.not_true, if_neg Bool.false_ne_true, if_neg hcheck]
    have hw : (digits hi).length ≤ max (after.getD "").length hi.length :=
      (length_digits _).le.trans (le_max_right _ _)
    have hagrees : Agrees (digits (after.getD "")) (digits hi) [] 0 :=
      ⟨rfl, fun j hj => absurd hj (Nat.not_lt_zero j), fun j hj => absurd hj (Nat.not_lt_zero j),
        fun d hd => absurd hd List.not_mem_nil⟩
    obtain ⟨k, hk, hkey, hlo, hhi⟩ :=
      walk_spec (digits_lt ha) (digits_lt hwell) hless hw hagrees
    refine ⟨_, hk, hlies hkey hlo ?_⟩
    rintro _ ⟨⟩
    exact hhi

theorem between_of_not_increasing (h : ¬ Increasing after before) :
    between after before = .error (.error .notIncreasing) := by
  unfold between
  dsimp only
  rw [ha, Bool.not_true, if_neg Bool.false_ne_true]
  cases before with
  | none => exact absurd (fun hi heq => by cases heq) h
  | some hi =>
    have hwell := hb hi rfl
    have hnot : ¬ Less (digits (after.getD "")) (digits hi) := by
      intro hless
      refine h ?_
      rintro _ ⟨⟩
      exact (fraction_lt_iff ha hwell).mpr hless
    dsimp only
    rw [hwell, Bool.not_true, if_neg Bool.false_ne_true,
      if_pos ((increasing_iff ha hwell).mpr hnot)]

end

theorem Lies.of_lower (h : Lies after before mid) (hk : Lies after (some mid) key) :
    Lies after before key :=
  ⟨hk.valid, hk.above, hk.aboveText, fun hi heq => (hk.below mid rfl).trans (h.below hi heq),
    fun hi heq => (hk.belowText mid rfl).trans (h.belowText hi heq)⟩

theorem Lies.of_upper (h : Lies after before mid) (hk : Lies (some mid) before key) :
    Lies after before key :=
  ⟨hk.valid, h.above.trans hk.above, h.aboveText.trans hk.aboveText, hk.below, hk.belowText⟩

section

variable (n : ℕ) (ha : wellFormed (after.getD "") = true)
  (hb : ∀ hi, before = some hi → wellFormed hi = true) (h : Increasing after before)
include n ha hb h

/-- **As many keys as are asked for**, each half of them between one that was found and a bound. -/
theorem bisect_spec :
    ∃ keys, bisect after before n = .ok keys ∧ keys.length = n ∧ keys.Pairwise (· < ·) ∧
      ∀ key ∈ keys, Lies after before key := by
  induction n using Nat.strong_induction_on generalizing after before with
  | _ n ih =>
    rw [bisect]
    split
    next h0 => exact ⟨[], rfl, h0.symm, .nil, fun key hkey => absurd hkey List.not_mem_nil⟩
    next h0 =>
      obtain ⟨mid, hmid, hlies⟩ := between_of_increasing ha hb h
      have hwell := wellFormed_of_isValid hlies.valid
      have hbelow : Increasing after (some mid) := fun hi heq => Option.some.inj heq ▸ hlies.above
      have habove : Increasing (some mid) before := hlies.below
      have hwell' : wellFormed ((some mid).getD "") = true := hwell
      obtain ⟨left, hleft, hllen, hlpw, hllies⟩ :=
        ih (n / 2) (by omega) ha (fun hi heq => Option.some.inj heq ▸ hwell) hbelow
      obtain ⟨right, hright, hrlen, hrpw, hrlies⟩ :=
        ih (n - n / 2 - 1) (by omega) hwell' hb habove
      refine ⟨left ++ mid :: right, ?_, ?_, ?_, fun key hkey => ?_⟩
      · rw [hmid]
        show (bisect after (some mid) (n / 2) >>= _) = _
        rw [hleft]
        show (bisect (some mid) before (n - n / 2 - 1) >>= _) = _
        rw [hright]
        rfl
      · rw [List.length_append, List.length_cons, hllen, hrlen]
        omega
      · refine List.pairwise_append.mpr ⟨hlpw, List.pairwise_cons.mpr ⟨?_, hrpw⟩, ?_⟩
        · exact fun key hkey => (hrlies key hkey).aboveText
        · intro key hkey key' hkey'
          have hmid' := (hllies key hkey).belowText mid rfl
          rcases List.mem_cons.mp hkey' with rfl | hkey'
          · exact hmid'
          · exact hmid'.trans (hrlies key' hkey').aboveText
      · rcases List.mem_append.mp hkey with hkey | hkey
        · exact hlies.of_lower (hllies key hkey)
        · rcases List.mem_cons.mp hkey with rfl | hkey
          · exact hlies
          · exact hlies.of_upper (hrlies key hkey)

theorem spread_of_increasing :
    ∃ keys, spread after before n = .ok keys ∧ keys.length = n ∧ keys.Pairwise (· < ·) ∧
      ∀ key ∈ keys, Lies after before key := by
  unfold spread
  split
  next h0 =>
    obtain ⟨key, hkey, -⟩ := between_of_increasing ha hb h
    rw [hkey]
    exact ⟨[], rfl, h0.symm, .nil, fun key hkey => absurd hkey List.not_mem_nil⟩
  next => exact bisect_spec n ha hb h

end

/-- Keys in order as texts are so as fractions, if no zero is at the end of the greater. -/
theorem increasing_of_lt (ha : wellFormed (after.getD "") = true) (hvalid : isValid hi = true)
    (h : after.getD "" < hi) : Increasing after (some hi) := by
  rintro _ ⟨⟩
  have hwell := wellFormed_of_isValid hvalid
  rw [fraction_lt_iff ha hwell]
  rw [String.lt_iff_toList_lt] at h
  refine less_of_lt (map_lt_of_lt (wellFormed_iff.mp ha) (wellFormed_iff.mp hwell) h) ?_
  intro front d heq
  have hempty : hi.toList ≠ [] := fun h0 => by simp [h0, isValid] at hvalid
  obtain ⟨l, c, hl⟩ := hi.toList.eq_nil_or_concat'.resolve_left hempty
  have hc : IsDigit c := wellFormed_iff.mp hwell c (by simp [hl])
  have hne : c ≠ zero := by simpa [isValid, hl, hwell] using hvalid
  have hd : d = ofLetter c := by
    rw [digits, hl, List.map_append] at heq
    exact (List.append_inj_right' heq rfl |> List.singleton_inj.mp).symm
  rw [hd, ofLetter]
  have hnat : c.toNat ≠ zero.toNat := fun h => hne (Char.toNat_inj.mp h)
  have := hc.1
  omega

/-- **There are keys between two bounds exactly if these are in order**: then one, and as many as
are asked for, each valid, between the bounds as a fraction and as a text, and in order. -/
theorem between_spread (after before : Option String)
    (ha : ∀ lo, after = some lo → wellFormed lo = true)
    (hb : ∀ hi, before = some hi → wellFormed hi = true) :
    ((∃ key, between after before = .ok key) ↔ Increasing after before) ∧
      (¬ Increasing after before → between after before = .error (.error .notIncreasing)) ∧
      (∀ key, between after before = .ok key → Lies after before key) ∧
      ∀ n, Increasing after before → ∃ keys, spread after before n = .ok keys ∧ keys.length = n ∧
        keys.Pairwise (· < ·) ∧ ∀ key ∈ keys, Lies after before key := by
  have ha' : wellFormed (after.getD "") = true := by
    cases after with
    | none => rfl
    | some lo => exact ha lo rfl
  have hnot := between_of_not_increasing ha' hb
  have hiff : (∃ key, between after before = .ok key) ↔ Increasing after before := by
    constructor
    · rintro ⟨key, hkey⟩
      by_contra h
      rw [hnot h] at hkey
      cases hkey
    · intro h
      obtain ⟨key, hkey, -⟩ := between_of_increasing ha' hb h
      exact ⟨key, hkey⟩
  refine ⟨hiff, hnot, fun key hkey => ?_, fun n h => ?_⟩
  · obtain ⟨key', hkey', hlies⟩ := between_of_increasing ha' hb (hiff.mp ⟨key, hkey⟩)
    rw [hkey] at hkey'
    cases hkey'
    exact hlies
  · exact spread_of_increasing n ha' hb h

theorem between_spread_prefix : ∃ keys, spread (some "B") (some "BAB") 3 = .ok keys ∧
    keys.length = 3 ∧ keys.Pairwise (· < ·) ∧ ∀ key ∈ keys, Lies (some "B") (some "BAB") key := by
  have h := between_spread (some "B") (some "BAB") (by rintro _ ⟨⟩; decide)
    (by rintro _ ⟨⟩; decide)
  refine h.2.2.2 3 ?_
  rintro _ ⟨⟩
  exact (fraction_lt_iff (by decide) (by decide)).mpr ⟨2, by decide, by decide⟩

end Between

end SortOrder

end Sunrise
