import Mathlib.Data.List.Sort
import Mathlib.Order.Defs.LinearOrder

/-!
# Ordered sets

An `OrdSet K` is a finite set kept as the list of its elements, strictly
ascending: going through the elements is going through them in order, and two
sets with the same elements are equal as values (`OrdSet.ext`).

* `OrdSet`, `OrdSet.insert` — the sets, and taking one more element in.
* `OrdSet.mem_insert`, `OrdSet.nodup` — what an insertion holds; nothing twice.
-/

/-- A finite set, as the ascending list of its elements. -/
structure OrdSet (K : Type*) [LinearOrder K] where
  elems : List K
  sorted : elems.Pairwise (· < ·)
deriving DecidableEq

namespace OrdSet

variable {K : Type*} [LinearOrder K]

instance : EmptyCollection (OrdSet K) := ⟨⟨[], List.Pairwise.nil⟩⟩

instance : Inhabited (OrdSet K) := ⟨∅⟩

instance : Membership K (OrdSet K) := ⟨fun s k => k ∈ s.elems⟩

theorem mem_def {s : OrdSet K} {k : K} : k ∈ s ↔ k ∈ s.elems := Iff.rfl

@[simp] theorem elems_empty : (∅ : OrdSet K).elems = [] := rfl

@[simp] theorem not_mem_empty (k : K) : k ∉ (∅ : OrdSet K) := List.not_mem_nil

instance (s : OrdSet K) (k : K) : Decidable (k ∈ s) := inferInstanceAs (Decidable (k ∈ s.elems))

theorem nodup (s : OrdSet K) : s.elems.Nodup := s.sorted.imp ne_of_lt

/-- **A set is determined by its elements.** -/
@[ext] theorem ext {s t : OrdSet K} (h : ∀ k, k ∈ s ↔ k ∈ t) : s = t := by
  obtain ⟨l₁, h₁⟩ := s
  obtain ⟨l₂, h₂⟩ := t
  have hperm : l₁.Perm l₂ :=
    (List.perm_ext_iff_of_nodup (h₁.imp ne_of_lt) (h₂.imp ne_of_lt)).mpr h
  congr
  exact hperm.eq_of_pairwise (fun a b _ _ hab hba => absurd (lt_trans hab hba) (lt_irrefl _)) h₁ h₂

/-- Put an element into an ascending list, unless it is there. -/
def place (k : K) : List K → List K
  | [] => [k]
  | k' :: l => if k < k' then k :: k' :: l else if k = k' then k' :: l else k' :: place k l

theorem mem_place {k k' : K} {l : List K} : k' ∈ place k l ↔ k' = k ∨ k' ∈ l := by
  induction l with
  | nil => simp [place]
  | cons a l ih =>
    unfold place
    split
    · simp
    · split
      next heq => simp [heq]
      next => simp only [List.mem_cons, ih]; tauto

theorem place_sorted {k : K} {l : List K} (hl : l.Pairwise (· < ·)) :
    (place k l).Pairwise (· < ·) := by
  induction l with
  | nil => simp [place]
  | cons a l ih =>
    have hl' := List.pairwise_cons.mp hl
    unfold place
    split
    next hlt =>
      refine List.pairwise_cons.mpr ⟨fun b hb => ?_, hl⟩
      rcases List.mem_cons.mp hb with rfl | hb
      · exact hlt
      · exact lt_trans hlt (hl'.1 b hb)
    next hlt =>
      split
      · exact hl
      next hne =>
        refine List.pairwise_cons.mpr ⟨fun b hb => ?_, ih hl'.2⟩
        rcases mem_place.mp hb with rfl | hb
        · exact lt_of_le_of_ne (not_lt.mp hlt) (Ne.symm hne)
        · exact hl'.1 b hb

/-- Take an element in. -/
def insert (s : OrdSet K) (k : K) : OrdSet K := ⟨place k s.elems, place_sorted s.sorted⟩

@[simp] theorem mem_insert {s : OrdSet K} {k k' : K} : k' ∈ s.insert k ↔ k' = k ∨ k' ∈ s :=
  mem_place

def ofList (l : List K) : OrdSet K := l.foldl insert ∅

theorem mem_foldl_insert {l : List K} {s : OrdSet K} {k : K} :
    k ∈ l.foldl insert s ↔ k ∈ s ∨ k ∈ l := by
  induction l generalizing s with
  | nil => simp
  | cons a l ih =>
    rw [List.foldl_cons, ih, mem_insert, List.mem_cons]
    tauto

@[simp] theorem mem_ofList {l : List K} {k : K} : k ∈ ofList l ↔ k ∈ l := by
  simp [ofList, mem_foldl_insert]

theorem ofList_elems (s : OrdSet K) : ofList s.elems = s := ext fun _ => mem_ofList

end OrdSet
