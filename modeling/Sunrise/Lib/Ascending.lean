import Mathlib.Data.List.Basic
import Mathlib.Data.Set.Card
import Mathlib.Order.Defs.LinearOrder

/-!
# Ascending lists

A list whose elements have ascending keys. A window of the keys cuts a stretch out of it, and two
windows side by side cut stretches that follow one another; the elements before one are those with
smaller keys, so where an element stands is how many of those there are; and a condition that holds
of everything below what it holds of is a first part of it.

* `filter_window` — **a window is its two halves, one after the other.**
* `takeWhile_eq_filter` — a downward closed condition.
-/

namespace Ascending

variable {α β : Type*}

/-! ### Windows -/

variable {l : List α}

section Window

variable [LinearOrder β] {f : α → β} {a b c : β}

/-- The keys from `a` on, before `c`. -/
def inWindow (f : α → β) (a c : β) (x : α) : Bool := decide (a ≤ f x) && decide (f x < c)

@[simp] theorem inWindow_iff {x : α} : inWindow f a c x ↔ a ≤ f x ∧ f x < c := by
  simp [inWindow]

theorem filter_window_of_le (h : ∀ x ∈ l, b ≤ f x) (hab : a ≤ b) :
    l.filter (inWindow f a c) = l.filter (inWindow f b c) := by
  refine List.filter_congr fun x hx => Bool.eq_iff_iff.mpr ?_
  simp only [inWindow_iff, h x hx, hab.trans (h x hx), true_and]

theorem filter_window_eq_nil (h : ∀ x ∈ l, b ≤ f x) :
    l.filter (inWindow f a b) = [] := by
  refine List.filter_eq_nil_iff.mpr fun x hx hw => ?_
  exact absurd (h x hx) (not_le.mpr (inWindow_iff.mp hw).2)

/-- **A window is its two halves, one after the other.** -/
theorem filter_window (h : l.Pairwise fun x y => f x ≤ f y) (hab : a ≤ b)
    (hbc : b ≤ c) : l.filter (inWindow f a c) =
      l.filter (inWindow f a b) ++ l.filter (inWindow f b c) := by
  induction l with
  | nil => rfl
  | cons x l ih =>
    obtain ⟨hx, hl⟩ := List.pairwise_cons.mp h
    rcases lt_or_ge (f x) b with hlt | hge
    · have hnot : ¬ inWindow f b c x := fun hw => not_le.mpr hlt (inWindow_iff.mp hw).1
      have hsame : inWindow f a c x = inWindow f a b x := by
        refine Bool.eq_iff_iff.mpr ?_
        simp only [inWindow_iff, hlt, hlt.trans_le hbc]
      rw [List.filter_cons_of_neg hnot]
      simp only [List.filter_cons, hsame, ih hl]
      split <;> rfl
    · have hall : ∀ y ∈ x :: l, b ≤ f y := by
        intro y hy
        rcases List.mem_cons.mp hy with rfl | hy
        · exact hge
        · exact hge.trans (hx y hy)
      rw [filter_window_of_le hall hab, filter_window_eq_nil hall, List.nil_append]

end Window

/-! ### First parts -/

theorem takeWhile_eq_filter {p : α → Bool}
    (h : l.Pairwise fun x y => p y → p x) : l.takeWhile p = l.filter p := by
  induction l with
  | nil => rfl
  | cons x l ih =>
    obtain ⟨hx, hl⟩ := List.pairwise_cons.mp h
    cases hp : p x with
    | true => rw [List.takeWhile_cons_of_pos hp, List.filter_cons_of_pos hp, ih hl]
    | false =>
      have hnil : l.filter p = [] :=
        List.filter_eq_nil_iff.mpr fun y hy hpy => by simp [hx y hy hpy] at hp
      rw [List.takeWhile_cons_of_neg (by simp [hp]), List.filter_cons_of_neg (by simp [hp]), hnil]

/-! ### Where an element stands -/

section Position

variable [LinearOrder β] {f : α → β}

/-- How many keys are smaller than an element's. -/
def before (f : α → β) (l : List α) (x : α) : ℕ := l.countP fun y => decide (f y < f x)

theorem before_cons {x y : α} :
    before f (y :: l) x = before f l x + if f y < f x then 1 else 0 := by
  unfold before
  rw [List.countP_cons]
  simp

theorem before_eq_zero {x : α} (h : ∀ y ∈ l, f x ≤ f y) : before f l x = 0 :=
  List.countP_eq_zero.mpr fun y hy hlt => absurd (of_decide_eq_true hlt) (not_lt.mpr (h y hy))

section

variable (h : l.Pairwise fun x y => f x < f y)
include h

/-- **An element stands where there are that many smaller ones.** -/
theorem getElem?_eq_some_iff {i : ℕ} {x : α} :
    l[i]? = some x ↔ x ∈ l ∧ before f l x = i := by
  induction l generalizing i with
  | nil => simp
  | cons y l ih =>
    obtain ⟨hy, hl⟩ := List.pairwise_cons.mp h
    rw [before_cons]
    cases i with
    | zero =>
      rw [List.getElem?_cons_zero, Option.some.injEq]
      constructor
      · rintro rfl
        refine ⟨List.mem_cons_self, ?_⟩
        rw [if_neg (lt_irrefl _), before_eq_zero fun z hz => (hy z hz).le]
      · rintro ⟨hmem, hzero⟩
        rcases List.mem_cons.mp hmem with rfl | hmem
        · rfl
        · rw [if_pos (hy x hmem)] at hzero
          omega
    | succ i =>
      rw [List.getElem?_cons_succ, ih hl]
      constructor
      · rintro ⟨hmem, rfl⟩
        rw [if_pos (hy x hmem)]
        exact ⟨List.mem_cons_of_mem _ hmem, rfl⟩
      · rintro ⟨hmem, hsucc⟩
        rcases List.mem_cons.mp hmem with rfl | hmem
        · rw [if_neg (lt_irrefl _), before_eq_zero fun z hz => (hy z hz).le] at hsucc
          omega
        · rw [if_pos (hy x hmem)] at hsucc
          exact ⟨hmem, by omega⟩

theorem mem_take_iff {n : ℕ} {x : α} :
    x ∈ l.take n ↔ x ∈ l ∧ before f l x < n := by
  rw [List.mem_iff_getElem?]
  constructor
  · rintro ⟨i, hi⟩
    rw [List.getElem?_take] at hi
    split at hi
    next hlt =>
      obtain ⟨hmem, rfl⟩ := (getElem?_eq_some_iff h).mp hi
      exact ⟨hmem, hlt⟩
    next => cases hi
  · rintro ⟨hmem, hlt⟩
    refine ⟨before f l x, ?_⟩
    rw [List.getElem?_take, if_pos hlt]
    exact (getElem?_eq_some_iff h).mpr ⟨hmem, rfl⟩

theorem before_add {x : α} (hx : x ∈ l) :
    before f l x + (l.countP fun y => decide (f x < f y)) + 1 = l.length := by
  induction l with
  | nil => simp at hx
  | cons y l ih =>
    obtain ⟨hy, hl⟩ := List.pairwise_cons.mp h
    rw [before_cons, List.countP_cons, List.length_cons]
    rcases List.mem_cons.mp hx with rfl | hmem
    · have hall : (l.countP fun z => decide (f x < f z)) = l.length :=
        List.countP_eq_length.mpr fun z hz => decide_eq_true (hy z hz)
      rw [before_eq_zero fun z hz => (hy z hz).le, hall]
      simp
    · have hlt := hy x hmem
      rw [← ih hl hmem, if_pos hlt, if_neg (by simp [hlt.le])]
      omega

end

end Position

/-! ### Binary search -/

section Search

variable [LinearOrder β]

/-- The place that halving leaves of `size` places from `base` on. -/
def narrow (l : List β) (x : β) (base size : ℕ) : ℕ :=
  if 1 < size then
    let half := size / 2
    let mid := base + half
    narrow l x (if ∃ y ∈ l[mid]?, x < y then base else mid) (size - half)
  else base
termination_by size

/-- Where an element stands, found by halving. -/
def binarySearch (l : List β) (x : β) : Option ℕ :=
  if l.length = 0 then none
  else
    let base := narrow l x 0 l.length
    if l[base]? = some x then some base else none

theorem narrow_eq {l : List β} (h : l.Pairwise (· < ·)) {x : β} {i base size : ℕ}
    (hi : l[i]? = some x) (hlen : base + size ≤ l.length) (hlo : base ≤ i)
    (hhi : i < base + size) : narrow l x base size = i := by
  obtain ⟨hil, hix⟩ := List.getElem?_eq_some_iff.mp hi
  induction base, size using narrow.induct l x with
  | case1 base size hsize half mid ih =>
    have hhalf : half = size / 2 := rfl
    have hmid : mid = base + half := rfl
    have hml : mid < l.length := by omega
    have hsucc : mid ≤ i ↔ ¬ ∃ y ∈ l[mid]?, x < y := by
      rw [List.getElem?_eq_getElem hml]
      simp only [Option.mem_def, Option.some.injEq, exists_eq_left', not_lt, ← hix]
      exact (h.sortedLT.strictMono_get.le_iff_le (a := ⟨mid, hml⟩) (b := ⟨i, hil⟩)).symm
    rw [narrow, if_pos hsize]
    by_cases hx : ∃ y ∈ l[mid]?, x < y
    · have hlt : i < mid := not_le.mp fun hle => hsucc.mp hle hx
      refine ih ?_ ?_ ?_ <;> rw [dif_pos hx] <;> omega
    · have hle : mid ≤ i := hsucc.mpr hx
      refine ih ?_ ?_ ?_ <;> rw [dif_neg hx] <;> omega
  | case2 base size hsize =>
    rw [narrow, if_neg hsize]
    omega

/-- **Binary search finds where an element of an ascending list stands.** -/
theorem binarySearch_eq_some_iff {l : List β} (h : l.Pairwise (· < ·)) {x : β} {i : ℕ} :
    binarySearch l x = some i ↔ l[i]? = some x := by
  unfold binarySearch
  constructor
  · intro hfound
    split at hfound
    · cases hfound
    · dsimp only at hfound
      split at hfound
      next hx => exact Option.some.inj hfound ▸ hx
      next => cases hfound
  · intro hi
    have hlt : i < l.length := (List.getElem?_eq_some_iff.mp hi).1
    rw [if_neg (by omega), narrow_eq h hi (by omega) (Nat.zero_le _) (by omega), if_pos hi]

end Search

/-! ### How many -/

theorem ncard_setOf_mem (h : l.Nodup) (p : α → Prop) [DecidablePred p] :
    {x | x ∈ l ∧ p x}.ncard = l.countP fun x => decide (p x) := by
  classical
  have hset : {x | x ∈ l ∧ p x} = ↑(l.filter fun x => decide (p x)).toFinset := by
    ext x
    simp
  rw [hset, Set.ncard_coe_finset, List.toFinset_card_of_nodup (h.filter _),
    List.countP_eq_length_filter]

end Ascending
