import Mathlib.Algebra.BigOperators.Group.List.Basic
import Mathlib.Algebra.Order.Monoid.Defs
import Mathlib.Order.MinMax

/-!
# The generic cell rate algorithm

A bucket is one number, its theoretical arrival time: when it would be full again if nothing else
came. An arrival finds the bucket at the later of that and now, and is admitted if what it needs
keeps it within a burst of now. It then moves the bucket forward by what it is charged.

The charges of admissions one after another pile up on the bucket, from the first of them on. So
the last of them, which found the bucket within a burst, bounds what they were charged together.

* `Gcra.Admits`, `Gcra.next` — one arrival.
* `Gcra.window` — **what any run of admissions was charged is bounded by its length.**
-/

namespace Gcra

variable {T : Type*} [AddCommMonoid T] [LinearOrder T] [IsOrderedCancelAddMonoid T]

/-- An arrival: when, what it must find in the bucket, and what it takes out. -/
structure Arrival (T : Type*) where
  now : T
  need : T
  charge : T

def Admits (burst tat : T) (a : Arrival T) : Prop := max tat a.now + a.need ≤ a.now + burst

/-- The bucket after it. -/
def next (tat : T) (a : Arrival T) : T := max tat a.now + a.charge

theorem tat_add_charge_le_next (tat : T) (a : Arrival T) : tat + a.charge ≤ next tat a :=
  add_le_add_left (le_max_left _ _) _

theorem now_add_charge_le_next (tat : T) (a : Arrival T) : a.now + a.charge ≤ next tat a :=
  add_le_add_left (le_max_right _ _) _

theorem tat_add_sum_le_foldl (tat : T) (l : List (Arrival T)) :
    tat + (l.map Arrival.charge).sum ≤ l.foldl next tat := by
  induction l generalizing tat with
  | nil => simp
  | cons a l ih =>
    rw [List.map_cons, List.sum_cons, List.foldl_cons, ← add_assoc]
    exact (add_le_add_left (tat_add_charge_le_next tat a) _).trans (ih _)

/-- **The charges from one admission to a later one** fit in a burst and the time between them,
except for what the later one was charged over its need. -/
theorem window {burst tat : T} {a b : Arrival T} {l : List (Arrival T)}
    (h : Admits burst ((a :: l).foldl next tat) b) :
    a.now + ((a :: l).map Arrival.charge).sum + b.need ≤ b.now + burst := by
  have hpile : a.now + ((a :: l).map Arrival.charge).sum ≤ (a :: l).foldl next tat := by
    rw [List.map_cons, List.sum_cons, List.foldl_cons, ← add_assoc]
    exact (add_le_add_left (now_add_charge_le_next tat a) _).trans (tat_add_sum_le_foldl _ _)
  calc a.now + ((a :: l).map Arrival.charge).sum + b.need
      ≤ max ((a :: l).foldl next tat) b.now + b.need :=
        add_le_add_left (hpile.trans (le_max_left _ _)) _
    _ ≤ b.now + burst := h

end Gcra
