import Mathlib.Data.List.Basic

/-!
# Traces

A trace is what happened so far, the last event last. Two things are said of it: that every event
had what it needs behind it, and that one event happened and another has not since. Both are
followed one event at a time.

* `Always`, `always_concat` — **every event of a trace follows what came before it.**
* `Since`, `since_concat` — **one event and not another since.**
-/

namespace Trace

variable {α : Type*} {P Q : List α → α → Prop} {t t₁ t₂ : List α} {a b e : α}

/-- Every event is as `P` asks of it, after the events before it. -/
def Always (P : List α → α → Prop) (t : List α) : Prop :=
  ∀ t₁ e t₂, t = t₁ ++ e :: t₂ → P t₁ e

/-- One event has happened, and another not since. -/
def Since (a b : α) (t : List α) : Prop := ∃ t₁ t₂, t = t₁ ++ a :: t₂ ∧ b ∉ t₂

theorem concat_eq_iff : t ++ [e] = t₁ ++ a :: t₂ ↔
    (t = t₁ ∧ e = a ∧ t₂ = []) ∨ ∃ t₃, t = t₁ ++ a :: t₃ ∧ t₂ = t₃ ++ [e] := by
  constructor
  · intro h
    rcases List.eq_nil_or_concat t₂ with rfl | ⟨t₃, e', rfl⟩
    · obtain ⟨ht, he⟩ := List.append_inj' h rfl
      exact .inl ⟨ht, (List.cons.inj he).1, rfl⟩
    · rw [List.concat_eq_append, ← List.cons_append, ← List.append_assoc] at h
      obtain ⟨ht, he⟩ := List.append_inj' h rfl
      rw [List.concat_eq_append, (List.cons.inj he).1]
      exact .inr ⟨t₃, ht, rfl⟩
  · rintro (⟨rfl, rfl, rfl⟩ | ⟨t₃, rfl, rfl⟩)
    · rfl
    · rw [List.append_assoc, List.cons_append]

@[simp] theorem always_nil : Always P ([] : List α) := fun t₁ e t₂ h => by
  cases t₁ <;> cases h

theorem always_concat : Always P (t ++ [e]) ↔ Always P t ∧ P t e := by
  constructor
  · refine fun h => ⟨fun t₁ a t₂ ht => h t₁ a (t₂ ++ [e]) ?_, h t e [] rfl⟩
    rw [ht, List.append_assoc, List.cons_append]
  · rintro ⟨h, he⟩ t₁ a t₂ ht
    rcases concat_eq_iff.mp ht with ⟨rfl, rfl, -⟩ | ⟨t₃, ht, -⟩
    · exact he
    · exact h t₁ a t₃ ht

theorem Always.of_prefix (h : Always P t) (hpre : t₁ <+: t) : Always P t₁ := by
  obtain ⟨t₂, rfl⟩ := hpre
  refine fun t₃ a t₄ ht => h t₃ a (t₄ ++ t₂) ?_
  rw [ht, List.append_assoc, List.cons_append]

@[simp] theorem not_since_nil : ¬ Since a b ([] : List α) := by
  rintro ⟨t₁, t₂, h, -⟩
  cases t₁ <;> cases h

theorem since_concat (hab : a ≠ b) : Since a b (t ++ [e]) ↔ e = a ∨ (e ≠ b ∧ Since a b t) := by
  constructor
  · rintro ⟨t₁, t₂, ht, hb⟩
    rcases concat_eq_iff.mp ht with ⟨-, rfl, -⟩ | ⟨t₃, ht', rfl⟩
    · exact .inl rfl
    · rw [List.mem_append, List.mem_singleton, not_or] at hb
      exact .inr ⟨Ne.symm hb.2, t₁, t₃, ht', hb.1⟩
  · rintro (rfl | ⟨he, t₁, t₂, rfl, hb⟩)
    · exact ⟨t, [], rfl, List.not_mem_nil⟩
    · refine ⟨t₁, t₂ ++ [e], by rw [List.append_assoc, List.cons_append], ?_⟩
      rw [List.mem_append, List.mem_singleton, not_or]
      exact ⟨hb, Ne.symm he⟩

theorem since_or_mem (ha : a ∈ t) : Since a b t ∨ b ∈ t := by
  obtain ⟨t₁, t₂, rfl⟩ := List.append_of_mem ha
  by_cases hb : b ∈ t₂
  · exact .inr (List.mem_append_right _ (List.mem_cons_of_mem _ hb))
  · exact .inl ⟨t₁, t₂, rfl, hb⟩

end Trace
