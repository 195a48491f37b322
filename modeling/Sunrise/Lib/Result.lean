import Mathlib.Data.List.Forall2

/-!
# Results

A function that may fail returns an `Except`, and its steps run until the first of them fails. What
a sequence of steps returned is told from what its steps returned: it succeeded if all of them did,
and it failed with the error of the first that did not.

* `Result.bind_eq_ok_iff`, `Result.bind_eq_error_iff` — two steps.
* `Result.mapM_eq_ok_iff`, `Result.mapM_eq_error_iff` — one step for each of a list.
-/

namespace Result

variable {ε α β : Type}

theorem bind_eq_ok_iff {x : Except ε α} {f : α → Except ε β} {b : β} :
    (x >>= f) = .ok b ↔ ∃ a, x = .ok a ∧ f a = .ok b := by
  cases x with
  | error e => simp [bind, Except.bind]
  | ok a => simp [bind, Except.bind]

theorem bind_eq_error_iff {x : Except ε α} {f : α → Except ε β} {e : ε} :
    (x >>= f) = .error e ↔ x = .error e ∨ ∃ a, x = .ok a ∧ f a = .error e := by
  cases x with
  | error e' => simp [bind, Except.bind]
  | ok a => simp [bind, Except.bind]

theorem mapM_eq_ok_iff {f : α → Except ε β} {l : List α} {out : List β} :
    l.mapM f = .ok out ↔ List.Forall₂ (fun a b => f a = .ok b) l out := by
  induction l generalizing out with
  | nil =>
    rw [List.forall₂_nil_left_iff, List.mapM_nil]
    exact ⟨fun h => (Except.ok.inj h).symm, fun h => h ▸ rfl⟩
  | cons a l ih =>
    rw [List.mapM_cons, List.forall₂_cons_left_iff]
    constructor
    · intro h
      obtain ⟨b, hb, h⟩ := bind_eq_ok_iff.mp h
      obtain ⟨bs, hbs, h⟩ := bind_eq_ok_iff.mp h
      exact ⟨b, bs, hb, ih.mp hbs, (Except.ok.inj h).symm⟩
    · rintro ⟨b, bs, hb, hbs, rfl⟩
      exact bind_eq_ok_iff.mpr ⟨b, hb, bind_eq_ok_iff.mpr ⟨bs, ih.mpr hbs, rfl⟩⟩

theorem mapM_eq_error_iff {f : α → Except ε β} {l : List α} {e : ε} :
    l.mapM f = .error e ↔ ∃ pre a post, l = pre ++ a :: post ∧ (∀ b ∈ pre, ∃ c, f b = .ok c) ∧
      f a = .error e := by
  induction l with
  | nil =>
    rw [List.mapM_nil]
    constructor
    · rintro ⟨⟩
    · rintro ⟨pre, a, post, h, -⟩
      exact absurd h.symm (List.append_ne_nil_of_right_ne_nil _ (List.cons_ne_nil _ _))
  | cons a l ih =>
    rw [List.mapM_cons, bind_eq_error_iff]
    constructor
    · rintro (h | ⟨b, hb, h⟩)
      · exact ⟨[], a, l, rfl, by simp, h⟩
      · rcases bind_eq_error_iff.mp h with h | ⟨bs, -, h⟩
        · obtain ⟨pre, c, post, rfl, hpre, hc⟩ := ih.mp h
          exact ⟨a :: pre, c, post, rfl, List.forall_mem_cons.mpr ⟨⟨b, hb⟩, hpre⟩, hc⟩
        · cases h
    · rintro ⟨pre, c, post, h, hpre, hc⟩
      cases pre with
      | nil =>
        obtain ⟨rfl, rfl⟩ := List.cons.inj h
        exact .inl hc
      | cons a' pre =>
        obtain ⟨rfl, rfl⟩ := List.cons.inj h
        obtain ⟨⟨b, hb⟩, hpre⟩ := List.forall_mem_cons.mp hpre
        exact .inr ⟨b, hb, bind_eq_error_iff.mpr (.inl (ih.mpr ⟨pre, c, post, rfl, hpre, hc⟩))⟩

section

variable {R : α → β → Prop} {l : List α} {out : List β} (h : List.Forall₂ R l out)
include h

theorem exists_of_mem_left {a : α} (ha : a ∈ l) : ∃ b ∈ out, R a b := by
  induction h with
  | nil => cases ha
  | cons hab _ ih =>
    rcases List.mem_cons.mp ha with rfl | ha
    · exact ⟨_, List.mem_cons_self, hab⟩
    · obtain ⟨b, hb, hab⟩ := ih ha
      exact ⟨b, List.mem_cons_of_mem _ hb, hab⟩

theorem exists_of_mem_right {b : β} (hb : b ∈ out) : ∃ a ∈ l, R a b :=
  exists_of_mem_left h.flip hb

end

theorem forM_eq_ok_iff {f : α → Except ε Unit} {l : List α} :
    l.forM f = .ok () ↔ ∀ a ∈ l, f a = .ok () := by
  induction l with
  | nil => simp [pure, Except.pure]
  | cons a l ih =>
    show (f a >>= fun _ => l.forM f) = _ ↔ _
    rw [bind_eq_ok_iff, List.forall_mem_cons, ← ih]
    constructor
    · rintro ⟨⟨⟩, h⟩
      exact h
    · intro h
      exact ⟨(), h⟩

end Result
