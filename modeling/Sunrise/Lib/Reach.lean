import Mathlib.Data.Finset.Card
import Mathlib.Data.Fintype.EquivFin
import Mathlib.Data.List.Chain
import Mathlib.Logic.Relation
import Mathlib.Order.WellFounded

/-!
# Searching a relation

What a search over the steps of a relation `r` rests on, whatever order it takes
them in. A set that holds its start and every step out of it holds all that is
reached (`mem_of_closed`); a walk that leaves a set does so over one step
(`exists_exit`); a finite set in which everything has a step within has a cycle
(`exists_cycle`), and a list in which every step leads to what stands further on
has none (`not_cycle_of_ranked`). One more step closes a cycle exactly where its
end led back to its start (`cyclic_insert_iff`).

`Chain r a p b` — `p` walks from `a` to `b` by steps of `r`, both ends included.
-/

namespace Reach

open Relation

variable {α : Type*} {r : α → α → Prop} {a b c : α}

/-! ### Closed sets -/

theorem mem_of_closed {S : α → Prop} (hS : ∀ x y, S x → r x y → S y) (ha : S a)
    (h : ReflTransGen r a b) : S b := by
  induction h with
  | refl => exact ha
  | tail _ hstep ih => exact hS _ _ ih hstep

theorem exists_exit {S : α → Prop} (h : ReflTransGen r a b) (ha : S a) (hb : ¬ S b) :
    ∃ x y, S x ∧ ¬ S y ∧ r x y ∧ ReflTransGen r y b := by
  induction h using ReflTransGen.head_induction_on with
  | refl => exact absurd ha hb
  | @head x y hstep hrest ih =>
    by_cases hy : S y
    · exact ih hy
    · exact ⟨x, y, ha, hy, hstep, hrest⟩

/-! ### Cycles -/

/-- Some chain of steps leads back to where it started. -/
def Cyclic (r : α → α → Prop) : Prop := ∃ x, TransGen r x x

variable {s : α → α → Prop}

theorem Cyclic.mono (hrs : ∀ x y, r x y → s x y) (h : Cyclic r) : Cyclic s := by
  obtain ⟨x, hx⟩ := h
  exact ⟨x, TransGen.mono hrs x x hx⟩

/-- **A finite set with a step within it from each of its elements has a cycle.** -/
theorem exists_cycle (S : Finset α) (hne : S.Nonempty) (h : ∀ x ∈ S, ∃ y ∈ S, r x y) :
    Cyclic r := by
  by_contra hac
  -- without one the steps within the set are well founded, and a least element has none
  let s : {x // x ∈ S} → {x // x ∈ S} → Prop := fun x y => TransGen r y.1 x.1
  have : IsTrans {x // x ∈ S} s := ⟨fun _ _ _ hxy hyz => hyz.trans hxy⟩
  have : Std.Irrefl s := ⟨fun x hx => hac ⟨x.1, hx⟩⟩
  have hwf : WellFounded s := Finite.wellFounded_of_trans_of_irrefl s
  obtain ⟨x, hx⟩ := hne
  obtain ⟨m, -, hm⟩ := hwf.has_min Set.univ ⟨⟨x, hx⟩, trivial⟩
  obtain ⟨y, hy, hmy⟩ := h m.1 m.2
  exact hm ⟨y, hy⟩ trivial (.single hmy)

/-- Every step from an element of the list leads to one that stands further on. -/
def Ranked (r : α → α → Prop) : List α → Prop
  | [] => True
  | x :: l => (∀ y, r x y → y ∈ l) ∧ Ranked r l

variable {l : List α}

theorem Ranked.closed (hl : Ranked r l) : ∀ x y, x ∈ l → r x y → y ∈ l := by
  induction l with
  | nil => intro x y hx; exact absurd hx List.not_mem_nil
  | cons a l ih =>
    intro x y hx hxy
    rcases List.mem_cons.mp hx with rfl | hx
    · exact List.mem_cons_of_mem _ (hl.1 y hxy)
    · exact List.mem_cons_of_mem _ (ih hl.2 x y hx hxy)

/-- **A ranked list is on no cycle.** -/
theorem not_cycle_of_ranked (hl : Ranked r l) (hnd : l.Nodup) :
    ∀ x ∈ l, ¬ TransGen r x x := by
  induction l with
  | nil => intro x hx; exact absurd hx List.not_mem_nil
  | cons a l ih =>
    intro x hx hcyc
    obtain ⟨hal, hnd⟩ := List.nodup_cons.mp hnd
    rcases List.mem_cons.mp hx with rfl | hx
    · -- the first step goes into the rest, which is closed and does not hold `x`
      obtain ⟨y, hxy, hyx⟩ := TransGen.head'_iff.mp hcyc
      exact hal (mem_of_closed hl.2.closed (hl.1 y hxy) hyx)
    · exact ih hl.2 hnd x hx hcyc

theorem reach_insert (hs : ∀ x y, s x y ↔ x = a ∧ y = b ∨ r x y) {x y : α}
    (h : ReflTransGen s x y) :
    ReflTransGen r x y ∨ ReflTransGen r x a ∧ ReflTransGen r b y := by
  induction h with
  | refl => exact .inl .refl
  | @tail m c _ hmc ih =>
    rcases (hs m c).mp hmc with ⟨rfl, rfl⟩ | hold
    · rcases ih with h | ⟨h, -⟩
      · exact .inr ⟨h, .refl⟩
      · exact .inr ⟨h, .refl⟩
    · exact ih.imp (fun h => h.tail hold) fun ⟨h₁, h₂⟩ => ⟨h₁, h₂.tail hold⟩

/-- **One more step closes a cycle** exactly where its end led back to its start. -/
theorem cyclic_insert_iff (hs : ∀ x y, s x y ↔ x = a ∧ y = b ∨ r x y) :
    Cyclic s ↔ Cyclic r ∨ ReflTransGen r b a := by
  constructor
  · rintro ⟨x, hx⟩
    obtain ⟨y, hxy, hyx⟩ := TransGen.head'_iff.mp hx
    rcases (hs x y).mp hxy with ⟨rfl, rfl⟩ | hold
    · exact .inr ((reach_insert hs hyx).elim id And.left)
    · rcases reach_insert hs hyx with h | ⟨hya, hbx⟩
      · exact .inl ⟨x, .head' hold h⟩
      · exact .inr (hbx.trans (.head hold hya))
  · rintro (h | h)
    · exact h.mono fun x y hxy => (hs x y).mpr (.inr hxy)
    · have hsub : ReflTransGen s b a :=
        ReflTransGen.mono (fun x y hxy => (hs x y).mpr (.inr hxy)) b a h
      exact ⟨a, .head' ((hs a b).mpr (.inl ⟨rfl, rfl⟩)) hsub⟩

/-! ### One step out of each -/

theorem reach_back (hr : Relator.RightUnique r) (h : TransGen r a a) (hab : ReflTransGen r a b) :
    ReflTransGen r b a := by
  induction hab with
  | refl => exact .refl
  | @tail b c _ hbc ih =>
    rcases ih.cases_head with rfl | ⟨d, hbd, hda⟩
    · obtain ⟨d, had, hda⟩ := TransGen.head'_iff.mp h
      exact hr had hbc ▸ hda
    · exact hr hbd hbc ▸ hda

theorem cycle_of_reach (hr : Relator.RightUnique r) (h : TransGen r a a)
    (hab : ReflTransGen r a b) : TransGen r b b :=
  (TransGen.trans_right (reach_back hr h hab) h).trans_left hab

theorem reach_end {x : α} (h : (l ++ [a]).IsChain r) (hx : x ∈ l) :
    TransGen r x a := by
  induction l generalizing x with
  | nil => cases hx
  | cons b l ih =>
    cases l with
    | nil =>
      rw [List.mem_singleton] at hx
      exact hx ▸ .single (List.isChain_cons_cons.mp h).1
    | cons c l =>
      obtain ⟨hbc, hrest⟩ := List.isChain_cons_cons.mp h
      rcases List.mem_cons.mp hx with rfl | hx
      · exact (ih hrest List.mem_cons_self).head hbc
      · exact ih hrest hx

theorem reach_of_head {x : α} (h : (a :: l).IsChain r) (hx : x ∈ a :: l) :
    ReflTransGen r a x := by
  induction l generalizing a with
  | nil => exact List.mem_singleton.mp hx ▸ .refl
  | cons b l ih =>
    obtain ⟨hab, hrest⟩ := List.isChain_cons_cons.mp h
    rcases List.mem_cons.mp hx with rfl | hx
    · exact .refl
    · exact (ih hrest hx).head hab

theorem exists_next {x : α} (h : (l ++ [a]).IsChain r) (hx : x ∈ l) :
    ∃ y, r x y ∧ (y ∈ l ∨ y = a) := by
  induction l with
  | nil => cases hx
  | cons b l ih =>
    cases l with
    | nil =>
      rw [List.mem_singleton] at hx
      exact ⟨a, hx ▸ (List.isChain_cons_cons.mp h).1, .inr rfl⟩
    | cons c l =>
      obtain ⟨hbc, hrest⟩ := List.isChain_cons_cons.mp h
      rcases List.mem_cons.mp hx with rfl | hx
      · exact ⟨c, hbc, .inl (List.mem_cons_of_mem _ List.mem_cons_self)⟩
      · obtain ⟨y, hxy, hy⟩ := ih hrest hx
        exact ⟨y, hxy, hy.imp_left (List.mem_cons_of_mem _)⟩

/-- **A walk that closes is a whole cycle**, where no two steps lead out of one place. -/
theorem mem_closed_walk (hr : Relator.RightUnique r)
    (h : (a :: l ++ [a]).IsChain r) {x : α} : x ∈ a :: l ↔ ReflTransGen r a x := by
  refine ⟨fun hx => reach_of_head h.left_of_append hx, fun hx => ?_⟩
  refine mem_of_closed (S := (· ∈ a :: l)) (fun x y hx hxy => ?_) List.mem_cons_self hx
  obtain ⟨z, hxz, hz⟩ := exists_next h hx
  rcases hz with hz | rfl
  · exact hr hxz hxy ▸ hz
  · exact hr hxz hxy ▸ List.mem_cons_self

theorem isChain_rotate {l p q : List α} (h : (a :: l ++ [a]).IsChain r)
    (heq : a :: l = p ++ b :: q) : (b :: q ++ p ++ [b]).IsChain r := by
  cases p with
  | nil =>
    obtain ⟨rfl, rfl⟩ := List.cons.inj heq
    rwa [List.append_nil]
  | cons c p =>
    obtain ⟨rfl, rfl⟩ := List.cons.inj heq
    have hsplit : ((a :: p) ++ b :: (q ++ [a])).IsChain r := by simpa using h
    obtain ⟨hp, hq⟩ := List.isChain_split.mp hsplit
    have hgoal : ((b :: q) ++ a :: (p ++ [b])).IsChain r := by
      refine List.isChain_split.mpr ⟨?_, ?_⟩
      · simpa using hq
      · simpa using hp
    simpa using hgoal

/-! ### Walks -/

/-- `p` goes from `a` to `b` by steps, with both ends in it. -/
inductive Chain (r : α → α → Prop) : α → List α → α → Prop
  | refl (a : α) : Chain r a [a] a
  | head {a b c : α} {p : List α} (hab : r a b) (hbc : Chain r b p c) : Chain r a (a :: p) c

theorem Chain.reach {p : List α} (h : Chain r a p b) : ReflTransGen r a b := by
  induction h with
  | refl => exact .refl
  | head hab _ ih => exact .head hab ih

theorem Chain.tail {p : List α} (h : Chain r a p b) (hbc : r b c) : Chain r a (p ++ [c]) c := by
  induction h with
  | refl => exact .head hbc (.refl c)
  | head hab _ ih => exact .head hab (ih hbc)

theorem Chain.mono {p : List α} (h : Chain r a p b)
    (hrs : ∀ x y, r x y → s x y) : Chain s a p b := by
  induction h with
  | refl => exact .refl _
  | head hab _ ih => exact .head (hrs _ _ hab) ih

end Reach
