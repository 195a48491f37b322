import Mathlib.Data.List.Basic

/-!
# Stable sorting

A stable sort leaves elements that the order does not tell apart in the order they came in. So what
a list is sorted to is known without the sort: it is in order, and has the same elements of each tie
in the same order.

## Main results

* `mergeSort_eq_iff` — what a list is sorted to.
-/

namespace StableSort

variable {α : Type*} (le : α → α → Bool)

/-- Neither of two elements is after the other. -/
def tied (a b : α) : Bool := le a b && le b a

/-- An order that may tie different elements. -/
structure IsPreorder : Prop where
  trans : ∀ a b c, le a b = true → le b c = true → le a c = true
  total : ∀ a b, (le a b || le b a) = true

variable {le}

theorem IsPreorder.refl (h : IsPreorder le) (a : α) : le a a = true := by
  simpa using h.total a a

theorem filter_tied_mergeSort (h : IsPreorder le) (l : List α) (a : α) :
    (l.mergeSort le).filter (tied le a) = l.filter (tied le a) := by
  have hsorted : (l.filter (tied le a)).Pairwise fun x y => le x y = true := by
    refine List.pairwise_of_forall_mem_list fun x hx y hy => ?_
    have hx' := (List.mem_filter.mp hx).2
    have hy' := (List.mem_filter.mp hy).2
    simp only [tied, Bool.and_eq_true] at hx' hy'
    exact h.trans x a y hx'.2 hy'.1
  have hsub : (l.filter (tied le a)).Sublist (l.mergeSort le) :=
    List.sublist_mergeSort h.trans h.total hsorted List.filter_sublist
  have hfilter := hsub.filter (tied le a)
  rw [List.filter_filter] at hfilter
  simp only [Bool.and_self] at hfilter
  refine (hfilter.eq_of_length ?_).symm
  exact ((List.mergeSort_perm l le).filter _).length_eq.symm

theorem eq_of_filter_tied (h : IsPreorder le) {s t : List α}
    (hs : s.Pairwise fun x y => le x y = true) (ht : t.Pairwise fun x y => le x y = true)
    (heq : ∀ a, s.filter (tied le a) = t.filter (tied le a)) : s = t := by
  have hself (a : α) : tied le a a = true := by simp [tied, h.refl a]
  induction s generalizing t with
  | nil =>
    cases t with
    | nil => rfl
    | cons y t =>
      have := heq y
      rw [List.filter_cons_of_pos (hself y)] at this
      cases this
  | cons x s ih =>
    cases t with
    | nil =>
      have := heq x
      rw [List.filter_cons_of_pos (hself x)] at this
      cases this
    | cons y t =>
      -- Each of the two heads is in the other list, so neither is after the other.
      have hx : x ∈ y :: t := by
        have : x ∈ (x :: s).filter (tied le x) := by simp [hself x]
        exact (List.mem_filter.mp (heq x ▸ this)).1
      have hy : y ∈ x :: s := by
        have : y ∈ (y :: t).filter (tied le y) := by simp [hself y]
        exact (List.mem_filter.mp (heq y ▸ this)).1
      have hyx : le y x = true := by
        rcases List.mem_cons.mp hx with rfl | hx
        · exact h.refl _
        · exact (List.pairwise_cons.mp ht).1 x hx
      have hxy : le x y = true := by
        rcases List.mem_cons.mp hy with rfl | hy
        · exact h.refl _
        · exact (List.pairwise_cons.mp hs).1 y hy
      have hhead := heq x
      rw [List.filter_cons_of_pos (hself x),
        List.filter_cons_of_pos (by simp [tied, hxy, hyx])] at hhead
      obtain ⟨rfl, -⟩ := List.cons.inj hhead
      congr 1
      refine ih (List.pairwise_cons.mp hs).2 (List.pairwise_cons.mp ht).2 fun a => ?_
      have ha := heq a
      rw [List.filter_cons, List.filter_cons] at ha
      split at ha
      · exact (List.cons.inj ha).2
      · exact ha

theorem mergeSort_eq_iff (h : IsPreorder le) {l t : List α} :
    l.mergeSort le = t ↔ (t.Pairwise fun x y => le x y = true) ∧
      ∀ a, t.filter (tied le a) = l.filter (tied le a) := by
  constructor
  · rintro rfl
    exact ⟨List.pairwise_mergeSort h.trans h.total l, filter_tied_mergeSort h l⟩
  · rintro ⟨ht, heq⟩
    refine eq_of_filter_tied h (List.pairwise_mergeSort h.trans h.total l) ht fun a => ?_
    rw [filter_tied_mergeSort h, heq]

end StableSort
