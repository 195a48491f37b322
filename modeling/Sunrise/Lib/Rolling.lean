import Mathlib.Algebra.Ring.Nat
import Mathlib.Data.List.GetD
import Mathlib.Order.Lattice

/-!
# Rolling windows

A list in order is split in two by any bound, and so the `k`-th from its end tells how many are over
the bound.

* `le_length_beyond_iff` — **at least `k` are over a bound where the `k`-th from the end is.**
-/

namespace Rolling

variable {l : List ℕ} {k x d : ℕ}

/-- Those over a bound, in order. -/
def beyond (x : ℕ) (l : List ℕ) : List ℕ := l.filter fun t => decide (x < t)

@[simp] theorem mem_beyond {t : ℕ} : t ∈ beyond x l ↔ t ∈ l ∧ x < t := by simp [beyond]

def fromEnd (k : ℕ) (l : List ℕ) : ℕ := l.getD (l.length - k) 0

theorem exists_eq_append_beyond (h : l.Pairwise (· ≤ ·)) :
    ∃ low, l = low ++ beyond x l ∧ ∀ t ∈ low, t ≤ x := by
  induction l with
  | nil => exact ⟨[], rfl, by simp⟩
  | cons a l ih =>
    obtain ⟨hle, hl⟩ := List.pairwise_cons.mp h
    obtain ⟨low, heq, hlow⟩ := ih hl
    by_cases ha : x < a
    · refine ⟨[], ?_, by simp⟩
      rw [beyond, List.nil_append, List.filter_eq_self.mpr]
      intro t ht
      rcases List.mem_cons.mp ht with rfl | ht
      · exact decide_eq_true ha
      · exact decide_eq_true (ha.trans_le (hle t ht))
    · refine ⟨a :: low, ?_, List.forall_mem_cons.mpr ⟨Nat.le_of_not_lt ha, hlow⟩⟩
      rw [beyond, List.filter_cons_of_neg (by simpa using ha), List.cons_append]
      exact congrArg (List.cons a) heq

theorem fromEnd_append {low high : List ℕ} (h : k ≤ high.length) :
    fromEnd k (low ++ high) = fromEnd k high := by
  unfold fromEnd
  rw [List.length_append, List.getD_append_right _ _ _ _ (by omega)]
  congr 1
  omega

theorem fromEnd_mem (hk : 0 < k) (h : k ≤ l.length) : fromEnd k l ∈ l := by
  unfold fromEnd
  rw [List.getD_eq_getElem _ _ (by omega)]
  exact List.getElem_mem _

theorem fromEnd_beyond (h : l.Pairwise (· ≤ ·)) (hlen : k ≤ (beyond x l).length) :
    fromEnd k (beyond x l) = fromEnd k l := by
  obtain ⟨low, heq, -⟩ := exists_eq_append_beyond (x := x) h
  have happ := @fromEnd_append _ low _ hlen
  rw [← heq] at happ
  exact happ.symm

/-- **At least `k` are over a bound where the `k`-th from the end is.** -/
theorem le_length_beyond_iff (h : l.Pairwise (· ≤ ·)) (hk : 0 < k) :
    k ≤ (beyond x l).length ↔ k ≤ l.length ∧ x < fromEnd k l := by
  constructor
  · intro hlen
    refine ⟨hlen.trans (List.length_filter_le _ _), ?_⟩
    rw [← fromEnd_beyond h hlen]
    exact (mem_beyond.mp (fromEnd_mem hk hlen)).2
  · rintro ⟨hlen, hlt⟩
    -- Were there fewer, the `k`-th would be among those not over it.
    by_contra hfew
    obtain ⟨low, heq, hlow⟩ := exists_eq_append_beyond (x := x) h
    have hlow' : fromEnd k l ∈ low := by
      have hsum : l.length = low.length + (beyond x l).length := by
        rw [← List.length_append, ← heq]
      have hplace : l.length - k < low.length := by omega
      unfold fromEnd
      rw [heq, List.getD_append _ _ _ _ (by rw [← heq]; exact hplace), ← heq,
        List.getD_eq_getElem _ _ hplace]
      exact List.getElem_mem _
    exact absurd hlt (Nat.not_lt.mpr (hlow _ hlow'))

theorem beyond_dropWhile : beyond x (l.dropWhile fun t => decide (t ≤ x)) = beyond x l := by
  induction l with
  | nil => rfl
  | cons a l ih =>
    by_cases ha : a ≤ x
    · rw [List.dropWhile_cons_of_pos (by simpa using ha), ih, beyond, beyond,
        List.filter_cons_of_neg (by simpa using ha)]
    · rw [List.dropWhile_cons_of_neg (by simpa using ha)]

theorem beyond_beyond {y : ℕ} (h : y ≤ x) : beyond x (beyond y l) = beyond x l := by
  unfold beyond
  rw [List.filter_filter]
  refine List.filter_congr fun t _ => ?_
  rw [Bool.eq_iff_iff, Bool.and_eq_true, decide_eq_true_iff, decide_eq_true_iff]
  omega

end Rolling
