import Mathlib.Data.List.Basic

/-!
# Keeping the undominated elements

A list of candidates under a relation `prec` that can grow: `insert` takes a new
element in unless a kept one follows it, and drops the kept ones it follows;
`prune` applies the rule again to what is kept, for when `prec` has gained pairs.

Either leaves an antichain (`antichain_insert`, `antichain_prune`) and leaves out
only what something offered follows (`mem_prune_or`). The second
half is the one that composes: an element is left out for a reason that stays a
reason, so after any run of offers whatever nothing follows is still there.
-/

namespace Antichain

variable {α : Type*} (prec : α → α → Bool)

def insert (ms : List α) (x : α) : List α :=
  if ms.any fun m => prec x m then ms else (ms.filter fun m => !prec m x) ++ [x]

/-- Drop what another kept element follows. -/
def prune (ms : List α) : List α := ms.filter fun m => !ms.any fun n => prec m n

/-- No element of the list is followed by another. -/
def IsAntichainOf (ms : List α) : Prop := ∀ m ∈ ms, ∀ n ∈ ms, prec m n = false

variable {prec} {ms : List α} {x m : α}

theorem mem_of_mem_insert (h : m ∈ insert prec ms x) : m ∈ ms ∨ m = x := by
  unfold insert at h
  split at h
  · exact .inl h
  · rcases List.mem_append.mp h with h | h
    · exact .inl (List.mem_filter.mp h).1
    · exact .inr (List.mem_singleton.mp h)

theorem antichain_insert (hx : prec x x = false) (h : IsAntichainOf prec ms) :
    IsAntichainOf prec (insert prec ms x) := by
  unfold insert
  split
  next => exact h
  next hc =>
    have hno : ∀ n ∈ ms, prec x n = false := fun n hn =>
      Bool.eq_false_iff.mpr fun hp => hc (List.any_eq_true.mpr ⟨n, hn, hp⟩)
    intro m hm n hn
    rcases List.mem_append.mp hm with hm | hm <;> rcases List.mem_append.mp hn with hn | hn
    · exact h m (List.mem_filter.mp hm).1 n (List.mem_filter.mp hn).1
    · obtain rfl := List.mem_singleton.mp hn
      simpa using (List.mem_filter.mp hm).2
    · obtain rfl := List.mem_singleton.mp hm
      exact hno n (List.mem_filter.mp hn).1
    · rw [List.mem_singleton.mp hm, List.mem_singleton.mp hn]
      exact hx

theorem mem_of_mem_prune (h : m ∈ prune prec ms) : m ∈ ms := (List.mem_filter.mp h).1

theorem mem_prune_or (h : m ∈ ms) : m ∈ prune prec ms ∨ ∃ n ∈ ms, prec m n = true := by
  by_cases hc : ∃ n ∈ ms, prec m n = true
  · exact .inr hc
  · refine .inl (List.mem_filter.mpr ⟨h, ?_⟩)
    simpa using hc

theorem antichain_prune : IsAntichainOf prec (prune prec ms) := by
  intro m hm n hn
  have hno := (List.mem_filter.mp hm).2
  rw [Bool.not_eq_true', List.any_eq_false] at hno
  simpa using hno n (mem_of_mem_prune hn)

theorem IsAntichainOf.subset {ns : List α} (h : IsAntichainOf prec ms) (hs : ∀ m ∈ ns, m ∈ ms) :
    IsAntichainOf prec ns :=
  fun m hm n hn => h m (hs m hm) n (hs n hn)

end Antichain
