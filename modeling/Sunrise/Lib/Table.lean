import Mathlib.Algebra.Ring.Int.Defs
import Mathlib.Algebra.Ring.Nat
import Mathlib.Data.List.Sort
import Mathlib.Data.Option.Basic
import Mathlib.Order.Lattice

/-!
# Tables with a primary key

A `Table K V` is a finite relation keyed by `K`: the rows are kept in a list
strictly ascending in the key, so two tables holding the same rows are equal as
values, and reading the rows in order is reading them in primary-key order.

The write operations are those of a relational store: `upsert` writes a row over
whatever its key held, `insertOrIgnore` writes it only where the key is free,
`filter` keeps the rows a predicate holds of, and `mergeWith` joins a second
table in, row by row. Each has one lemma saying what `find` reads afterwards, and
`Table.ext_find` turns agreement of `find` at every key into equality, so no
proof about a table has to look at the list behind it.

## Main definitions

* `Table`, `Table.find` — the rows, and the one under a key.
* `Table.upsert`, `Table.insertOrIgnore`, `Table.erase`, `Table.filter`,
  `Table.mapValues`, `Table.mergeWith` — the writes.

## Main results

* `Table.ext_find` — a table is determined by what `find` reads.
* `Table.find_upsert`, `Table.find_insertOrIgnore`, `Table.find_filter`,
  `Table.find_mergeWith` — what each write leaves under a key.
-/

/-- Rows keyed by `K`, in ascending order of the key. -/
structure Table (K V : Type*) [LinearOrder K] where
  rows : List (K × V)
  sorted : rows.Pairwise fun a b => a.1 < b.1
deriving DecidableEq

namespace Table

variable {K V : Type*} [LinearOrder K]

/-! ### Reading rows off a list -/

/-- The value of the first row of `l` keyed by `k`. -/
def lookup (k : K) : List (K × V) → Option V
  | [] => none
  | (k', v) :: l => if k = k' then some v else lookup k l

@[simp] theorem lookup_nil (k : K) : lookup k ([] : List (K × V)) = none := rfl

theorem lookup_cons (k k' : K) (v : V) (l : List (K × V)) :
    lookup k ((k', v) :: l) = if k = k' then some v else lookup k l := rfl

variable {l : List (K × V)} {k : K}

theorem lookup_eq_none :
    lookup k l = none ↔ ∀ r ∈ l, r.1 ≠ k := by
  induction l with
  | nil => simp
  | cons r l ih =>
    obtain ⟨k', v⟩ := r
    rw [lookup_cons]
    by_cases h : k = k'
    · subst h
      simp
    · simp [h, ih, Ne.symm h]

theorem mem_of_lookup {v : V} (h : lookup k l = some v) :
    (k, v) ∈ l := by
  induction l with
  | nil => simp at h
  | cons r l ih =>
    rw [lookup_cons] at h
    split at h
    next hk => exact List.mem_cons.mpr (.inl (by rw [hk, ← Option.some.inj h]))
    next => exact List.mem_cons_of_mem _ (ih h)

theorem lookup_eq_some {v : V}
    (hl : l.Pairwise fun a b => a.1 < b.1) : lookup k l = some v ↔ (k, v) ∈ l := by
  induction l with
  | nil => simp
  | cons r l ih =>
    obtain ⟨k', v'⟩ := r
    rw [List.pairwise_cons] at hl
    rw [lookup_cons, List.mem_cons]
    by_cases h : k = k'
    · subst h
      -- the key stands at the head only, since the rest is above it
      have hnot : (k, v) ∉ l := fun hm => lt_irrefl k (hl.1 _ hm)
      simp [hnot, eq_comm]
    · simp [h, ih hl.2]

theorem lookup_filter {p : K × V → Bool}
    (hl : l.Pairwise fun a b => a.1 < b.1) :
    lookup k (l.filter p) = (lookup k l).filter fun v => p (k, v) := by
  ext v
  rw [Option.filter_eq_some_iff, lookup_eq_some hl, lookup_eq_some (hl.filter p),
    List.mem_filter]

/-- Write a row into a list of ascending keys, over the row its key holds. -/
def place (k : K) (v : V) : List (K × V) → List (K × V)
  | [] => [(k, v)]
  | (k', v') :: l =>
    if k < k' then (k, v) :: (k', v') :: l
    else if k = k' then (k, v) :: l
    else (k', v') :: place k v l

theorem mem_place {v : V} {r : K × V} (hr : r ∈ place k v l) :
    r = (k, v) ∨ r ∈ l := by
  induction l with
  | nil => simpa [place] using hr
  | cons r' l ih =>
    obtain ⟨k', v'⟩ := r'
    unfold place at hr
    split at hr
    · simpa using hr
    · split at hr
      · rcases List.mem_cons.mp hr with h | h
        · exact .inl h
        · exact .inr (List.mem_cons_of_mem _ h)
      · rcases List.mem_cons.mp hr with h | h
        · exact .inr (h ▸ List.mem_cons_self)
        · exact (ih h).imp_right (List.mem_cons_of_mem _)

theorem place_sorted {v : V}
    (hl : l.Pairwise fun a b => a.1 < b.1) :
    (place k v l).Pairwise fun a b => a.1 < b.1 := by
  induction l with
  | nil => simp [place]
  | cons r l ih =>
    obtain ⟨k', v'⟩ := r
    have hl' := hl
    rw [List.pairwise_cons] at hl'
    unfold place
    split
    next hlt =>
      refine List.pairwise_cons.mpr ⟨fun r hr => ?_, hl⟩
      rcases List.mem_cons.mp hr with rfl | hr
      · exact hlt
      · exact lt_trans hlt (hl'.1 r hr)
    next hlt =>
      split
      next heq => exact List.pairwise_cons.mpr ⟨fun r hr => heq ▸ hl'.1 r hr, hl'.2⟩
      next hne =>
        refine List.pairwise_cons.mpr ⟨fun r hr => ?_, ih hl'.2⟩
        rcases mem_place hr with rfl | hr
        · exact lt_of_le_of_ne (not_lt.mp hlt) (Ne.symm hne)
        · exact hl'.1 r hr

theorem lookup_place (k k' : K) (v : V) (l : List (K × V)) :
    lookup k' (place k v l) = if k' = k then some v else lookup k' l := by
  induction l with
  | nil => rfl
  | cons r l ih =>
    obtain ⟨k₀, v₀⟩ := r
    unfold place
    split
    · rfl
    · split
      next heq =>
        subst heq
        rw [lookup_cons, lookup_cons]
        split <;> rfl
      next hne =>
        rw [lookup_cons, lookup_cons, ih]
        by_cases h : k' = k₀
        · subst h
          simp [Ne.symm hne]
        · simp [h]

theorem place_perm {v : V} (h : lookup k l = none) :
    (place k v l).Perm ((k, v) :: l) := by
  induction l with
  | nil => exact .refl _
  | cons r l ih =>
    obtain ⟨k', v'⟩ := r
    rw [lookup_cons] at h
    have hne : k ≠ k' := by
      rintro rfl
      simp at h
    rw [if_neg hne] at h
    unfold place
    rw [if_neg hne]
    split
    · exact .refl _
    · exact ((ih h).cons _).trans (.swap _ _ _)

theorem length_place {v : V} (h : lookup k l = none) :
    (place k v l).length = l.length + 1 :=
  (place_perm h).length_eq

theorem eq_of_lookup_eq {l₁ l₂ : List (K × V)} (h₁ : l₁.Pairwise fun a b => a.1 < b.1)
    (h₂ : l₂.Pairwise fun a b => a.1 < b.1) (h : ∀ k, lookup k l₁ = lookup k l₂) : l₁ = l₂ := by
  have hperm : l₁.Perm l₂ := by
    refine (List.perm_ext_iff_of_nodup ?_ ?_).mpr fun r => ?_
    · exact h₁.imp fun hlt => ne_of_apply_ne Prod.fst (ne_of_lt hlt)
    · exact h₂.imp fun hlt => ne_of_apply_ne Prod.fst (ne_of_lt hlt)
    · rw [← lookup_eq_some h₁, h r.1, lookup_eq_some h₂]
  exact hperm.eq_of_pairwise (fun a b _ _ hab hba => absurd (lt_trans hab hba) (lt_irrefl _)) h₁ h₂

/-! ### The table operations -/

/-- The row a key holds. -/
def find (t : Table K V) (k : K) : Option V := lookup k t.rows

/-- No rows. -/
def empty : Table K V := ⟨[], List.Pairwise.nil⟩

instance : EmptyCollection (Table K V) := ⟨empty⟩

instance : Inhabited (Table K V) := ⟨empty⟩

@[simp] theorem rows_empty : (∅ : Table K V).rows = [] := rfl

@[simp] theorem find_empty (k : K) : (∅ : Table K V).find k = none := rfl

/-- **A table is determined by what it holds under each key.** -/
theorem ext_find {s t : Table K V} (h : ∀ k, s.find k = t.find k) : s = t := by
  obtain ⟨l₁, h₁⟩ := s
  obtain ⟨l₂, h₂⟩ := t
  congr
  exact eq_of_lookup_eq h₁ h₂ h

theorem ext_some {s t : Table K V} (h : ∀ k v, s.find k = some v ↔ t.find k = some v) : s = t :=
  ext_find fun k => Option.ext fun v => h k v

theorem mem_rows {t : Table K V} {r : K × V} : r ∈ t.rows ↔ t.find r.1 = some r.2 :=
  (lookup_eq_some t.sorted).symm

theorem ext_perm {s t : Table K V} (h : s.rows.Perm t.rows) : s = t :=
  ext_some fun k v => by
    rw [← @mem_rows _ _ _ s (k, v), ← @mem_rows _ _ _ t (k, v)]
    exact h.mem_iff

theorem find_eq_none {t : Table K V} {k : K} : t.find k = none ↔ ∀ r ∈ t.rows, r.1 ≠ k :=
  lookup_eq_none

/-- Write a row, over the one its key holds. -/
def upsert (t : Table K V) (k : K) (v : V) : Table K V :=
  ⟨place k v t.rows, place_sorted t.sorted⟩

theorem find_upsert (t : Table K V) (k k' : K) (v : V) :
    (t.upsert k v).find k' = if k' = k then some v else t.find k' :=
  lookup_place k k' v t.rows

@[simp] theorem find_upsert_self (t : Table K V) (k : K) (v : V) :
    (t.upsert k v).find k = some v := by
  rw [find_upsert, if_pos rfl]

theorem find_upsert_of_ne (t : Table K V) {k k' : K} (v : V) (h : k' ≠ k) :
    (t.upsert k v).find k' = t.find k' := by
  rw [find_upsert, if_neg h]

variable {t : Table K V}

theorem rows_upsert_perm {v : V} (h : t.find k = none) :
    (t.upsert k v).rows.Perm ((k, v) :: t.rows) :=
  place_perm h

theorem sum_upsert (g : K × V → ℤ) (t : Table K V) (k : K) (v : V) :
    ((t.upsert k v).rows.map g).sum =
      (t.rows.map g).sum + g (k, v) - (t.find k).elim 0 fun w => g (k, w) := by
  obtain ⟨l, hl⟩ := t
  show ((place k v l).map g).sum = (l.map g).sum + g (k, v) - (lookup k l).elim 0 fun w => g (k, w)
  induction l with
  | nil => simp [place]
  | cons r l ih =>
    obtain ⟨k', v'⟩ := r
    have htail := ih (List.pairwise_cons.mp hl).2
    rw [place, lookup_cons]
    split
    next hlt =>
      have hnone : lookup k l = none := lookup_eq_none.mpr fun r hr heq =>
        absurd ((List.pairwise_cons.mp hl).1 r hr) (heq ▸ hlt.not_gt)
      rw [if_neg hlt.ne, hnone]
      simp only [List.map_cons, List.sum_cons, Option.elim_none]
      omega
    next =>
      split
      next heq =>
        subst heq
        simp only [List.map_cons, List.sum_cons, Option.elim_some]
        omega
      next =>
        simp only [List.map_cons, List.sum_cons, htail]
        omega

theorem nodup_keys (t : Table K V) : (t.rows.map Prod.fst).Nodup :=
  List.pairwise_map.mpr (t.sorted.imp ne_of_lt)

theorem exists_rows_perm (h : (l.map Prod.fst).Nodup) :
    ∃ t : Table K V, t.rows.Perm l := by
  induction l with
  | nil => exact ⟨∅, .refl _⟩
  | cons r l ih =>
    rw [List.map_cons, List.nodup_cons] at h
    obtain ⟨t, ht⟩ := ih h.2
    refine ⟨t.upsert r.1 r.2, (rows_upsert_perm ?_).trans (ht.cons r)⟩
    rw [find_eq_none]
    intro r' hr' hkey
    exact h.1 (hkey ▸ List.mem_map_of_mem (ht.subset hr'))

/-- Write a row unless its key holds one already. -/
def insertOrIgnore (t : Table K V) (k : K) (v : V) : Table K V :=
  match t.find k with
  | some _ => t
  | none => t.upsert k v

theorem find_insertOrIgnore (t : Table K V) (k k' : K) (v : V) :
    (t.insertOrIgnore k v).find k' = if k' = k then some ((t.find k).getD v) else t.find k' := by
  unfold insertOrIgnore
  split
  next w hw =>
    by_cases h : k' = k
    · subst h
      simp [hw]
    · simp [h]
  next hn => rw [find_upsert, hn, Option.getD_none]

theorem find_foldl_insertOrIgnore (l : List (K × V)) (t : Table K V) (k : K) :
    (l.foldl (fun t r => t.insertOrIgnore r.1 r.2) t).find k = (t.find k).or (lookup k l) := by
  induction l generalizing t with
  | nil => simp
  | cons r l ih =>
    rw [List.foldl_cons, ih, find_insertOrIgnore, lookup_cons]
    by_cases h : k = r.1
    · subst h
      cases t.find r.1 <;> simp
    · simp [h]

/-- Keep the rows `p` holds of. -/
def filter (p : K → V → Bool) (t : Table K V) : Table K V :=
  ⟨t.rows.filter fun r => p r.1 r.2, t.sorted.filter _⟩

theorem find_filter (p : K → V → Bool) (t : Table K V) (k : K) :
    (t.filter p).find k = (t.find k).filter (p k) :=
  lookup_filter t.sorted

theorem find_filter_eq_some {p : K → V → Bool} {v : V} :
    (t.filter p).find k = some v ↔ t.find k = some v ∧ p k v := by
  rw [find_filter, Option.filter_eq_some_iff]

/-- Delete the row a key holds. -/
def erase (t : Table K V) (k : K) : Table K V := t.filter fun k' _ => k' ≠ k

theorem find_erase (t : Table K V) (k k' : K) :
    (t.erase k).find k' = if k' = k then none else t.find k' := by
  unfold erase
  rw [find_filter]
  by_cases h : k' = k
  · subst h
    cases t.find k' <;> simp
  · cases t.find k' <;> simp [h]

theorem find_foldl_erase {α : Type*} (key : α → K) (l : List α) (t : Table K V) (k : K) :
    (l.foldl (fun t a => t.erase (key a)) t).find k =
      if ∃ a ∈ l, key a = k then none else t.find k := by
  induction l generalizing t with
  | nil => simp
  | cons a l ih =>
    rw [List.foldl_cons, ih, find_erase]
    by_cases hl : ∃ b ∈ l, key b = k
    · simp [hl]
    · by_cases ha : key a = k
      · simp [ha]
      · simp [hl, ha, Ne.symm ha]

theorem find_foldl_upsert_of_not_mem {α : Type*} (key : α → K) (val : α → V) {l : List α}
    (h : ∀ a ∈ l, key a ≠ k) :
    (l.foldl (fun t a => t.upsert (key a) (val a)) t).find k = t.find k := by
  induction l generalizing t with
  | nil => rfl
  | cons a l ih =>
    rw [List.foldl_cons, ih fun b hb => h b (List.mem_cons_of_mem _ hb)]
    exact find_upsert_of_ne _ _ (h a List.mem_cons_self).symm

theorem find_foldl_upsert_of_mem {α : Type*} (key : α → K) (val : α → V) {l : List α} {a : α}
    (ha : a ∈ l) (h : ∀ b ∈ l, key b = key a → val b = val a) :
    (l.foldl (fun t a => t.upsert (key a) (val a)) t).find (key a) = some (val a) := by
  induction l generalizing t a with
  | nil => simp at ha
  | cons b l ih =>
    rw [List.foldl_cons]
    by_cases hl : ∃ x ∈ l, key x = key a
    · obtain ⟨x, hx, hkey⟩ := hl
      have hval := h x (List.mem_cons_of_mem _ hx) hkey
      rw [← hkey, ← hval]
      refine ih hx fun y hy hyx => ?_
      rw [h y (List.mem_cons_of_mem _ hy) (hyx.trans hkey), hval]
    · have hl' : ∀ x ∈ l, key x ≠ key a := fun x hx hkey => hl ⟨x, hx, hkey⟩
      rw [find_foldl_upsert_of_not_mem key val hl']
      rcases List.mem_cons.mp ha with rfl | ha
      · exact find_upsert_self _ _ _
      · exact absurd rfl (hl' a ha)

theorem find_foldl_upsert_some {W : Type*} (g : K → V → Option W)
    (hl : l.Pairwise fun a b => a.1 < b.1) (t : Table K W) (k : K) :
    (l.foldl (fun t r => match g r.1 r.2 with
      | some w => t.upsert r.1 w
      | none => t) t).find k = ((lookup k l).bind (g k)).or (t.find k) := by
  induction l generalizing t with
  | nil => rfl
  | cons r l ih =>
    obtain ⟨k', v⟩ := r
    obtain ⟨hhead, hl⟩ := List.pairwise_cons.mp hl
    rw [List.foldl_cons, ih hl, lookup_cons]
    by_cases hk : k = k'
    · subst hk
      -- no later row has the key
      have hnone : lookup k l = none := by
        apply lookup_eq_none.mpr
        intro r hr heq
        exact (hhead r hr).ne heq.symm
      rw [hnone, if_pos rfl, Option.bind_some]
      dsimp only [Option.bind_none, Option.none_or]
      cases g k v with
      | none => rfl
      | some w => exact find_upsert_self ..
    · rw [if_neg hk]
      congr 1
      dsimp only
      split
      · exact find_upsert_of_ne _ _ hk
      · rfl

theorem find_foldl_upsert_map {W : Type*} (g : V → W) (s : Table K V) (t : Table K W) (k : K) :
    (s.rows.foldl (fun t r => t.upsert r.1 (g r.2)) t).find k =
      ((s.find k).map g).or (t.find k) := by
  have h := find_foldl_upsert_some (fun _ v => some (g v)) s.sorted t k
  refine h.trans ?_
  unfold find
  cases lookup k s.rows with
  | none => rfl
  | some v => rfl

theorem foldl_upsert_rows (t : Table K V) :
    t.rows.foldl (fun s r => s.upsert r.1 r.2) ∅ = t := by
  apply ext_find
  intro k
  have h := find_foldl_upsert_some (fun _ v => some v) t.sorted ∅ k
  rw [h]
  unfold find
  cases lookup k t.rows with
  | none => rfl
  | some v => rfl

theorem find_foldl_of_find {α : Type*} {f : Table K V → α → Table K V} {l : List α}
    (h : ∀ a ∈ l, ∀ t, (f t a).find k = t.find k) (t : Table K V) :
    (l.foldl f t).find k = t.find k := by
  induction l generalizing t with
  | nil => rfl
  | cons a l ih =>
    obtain ⟨ha, hl⟩ := List.forall_mem_cons.mp h
    rw [List.foldl_cons, ih hl, ha]

theorem find_foldl_gather {α : Type*} (key : α → K) (start : K → V) (g : V → α → V) {l : List α}
    (h : (t.find k).isSome ∨ ∃ a ∈ l, key a = k) :
    (l.foldl (fun t a => t.upsert (key a) (g ((t.find (key a)).getD (start (key a))) a)) t).find k =
      some ((l.filter fun a => decide (key a = k)).foldl g ((t.find k).getD (start k))) := by
  induction l generalizing t with
  | nil =>
    obtain ⟨v, hv⟩ := Option.isSome_iff_exists.mp (h.resolve_right (by simp))
    rw [List.foldl_nil, List.filter_nil, List.foldl_nil, hv]
    rfl
  | cons a l ih =>
    rw [List.foldl_cons]
    by_cases ha : key a = k
    · subst ha
      rw [ih (.inl (by rw [find_upsert_self]; rfl)), find_upsert_self,
        List.filter_cons_of_pos (by simp), List.foldl_cons]
      rfl
    · have hfind : ∀ v, (t.upsert (key a) v).find k = t.find k :=
        fun v => find_upsert_of_ne _ _ (Ne.symm ha)
      rw [ih, hfind, List.filter_cons_of_neg (by simpa using ha)]
      rw [hfind]
      refine h.imp_right ?_
      rintro ⟨b, hb, hkey⟩
      rcases List.mem_cons.mp hb with rfl | hb
      · exact absurd hkey ha
      · exact ⟨b, hb, hkey⟩

theorem find_foldl_upsert_last {α : Type*} (p : α → Bool) (key : α → K) (val : α → V)
    (l : List α) (t : Table K V) (k : K) :
    (l.foldl (fun t a => if p a then t.upsert (key a) (val a) else t) t).find k =
      ((l.filter fun a => p a && decide (key a = k)).getLast?.map val).or (t.find k) := by
  induction l generalizing t with
  | nil => rfl
  | cons a l ih =>
    rw [List.foldl_cons, ih, List.filter_cons]
    by_cases hp : p a
    · rw [if_pos hp, find_upsert]
      by_cases hk : k = key a
      · subst hk
        simp only [hp, decide_true, Bool.and_self, if_true, List.getLast?_cons, Option.map_some,
          Option.some_or]
        cases (l.filter fun b => p b && decide (key b = key a)).getLast? <;> rfl
      · simp [hp, hk, Ne.symm hk]
    · simp [hp]

theorem getLast?_filter_rows {p : K × V → Bool} {r : K × V} :
    (t.rows.filter p).getLast? = some r ↔
      r ∈ t.rows ∧ p r ∧ ∀ r' ∈ t.rows, p r' → r'.1 ≤ r.1 := by
  have hsorted := t.sorted.filter p
  have hmem : ∀ r', r' ∈ t.rows.filter p ↔ r' ∈ t.rows ∧ p r' := fun r' => List.mem_filter
  generalize t.rows.filter p = l at hsorted hmem
  rcases List.eq_nil_or_concat l with rfl | ⟨init, last, rfl⟩
  · constructor
    · intro h
      simp at h
    · rintro ⟨hr, hp, -⟩
      exact absurd ((hmem r).mpr ⟨hr, hp⟩) List.not_mem_nil
  · rw [List.concat_eq_append] at hsorted hmem ⊢
    have hle : ∀ r' ∈ init ++ [last], r'.1 ≤ last.1 := by
      intro r' hr'
      rcases List.mem_append.mp hr' with h | h
      · exact ((List.pairwise_append.mp hsorted).2.2 r' h last (List.mem_singleton.mpr rfl)).le
      · rw [List.mem_singleton.mp h]
    have hlast : last ∈ init ++ [last] := List.mem_append_right _ (List.mem_singleton.mpr rfl)
    rw [List.getLast?_concat, Option.some.injEq]
    constructor
    · rintro rfl
      exact ⟨((hmem _).mp hlast).1, ((hmem _).mp hlast).2,
        fun r' hr' hp => hle r' ((hmem r').mpr ⟨hr', hp⟩)⟩
    · rintro ⟨hr, hp, hmax⟩
      obtain ⟨hlr, hlp⟩ := (hmem last).mp hlast
      have hkey := le_antisymm (hmax last hlr hlp) (hle r ((hmem r).mpr ⟨hr, hp⟩))
      have h₁ := mem_rows.mp hlr
      rw [hkey, mem_rows.mp hr] at h₁
      exact Prod.ext hkey (Option.some.inj h₁).symm

/-- Rewrite every row in place. -/
def mapValues {W : Type*} (f : K → V → W) (t : Table K V) : Table K W :=
  ⟨t.rows.map fun r => (r.1, f r.1 r.2), List.pairwise_map.mpr t.sorted⟩

theorem find_mapValues {W : Type*} (f : K → V → W) (t : Table K V) (k : K) :
    (t.mapValues f).find k = (t.find k).map (f k) := by
  obtain ⟨l, hl⟩ := t
  show lookup k (l.map fun r => (r.1, f r.1 r.2)) = (lookup k l).map (f k)
  clear hl
  induction l with
  | nil => rfl
  | cons r l ih =>
    rw [List.map_cons, lookup_cons, ih]
    obtain ⟨k', v⟩ := r
    rw [lookup_cons]
    by_cases h : k = k'
    · simp [h]
    · simp [h]

/-- Join the rows of `s` into `t`: a key both hold keeps the two values
combined by `f`, a key only `s` holds its row. -/
def mergeWith (f : V → V → V) (t s : Table K V) : Table K V :=
  s.rows.foldl (fun t r => t.upsert r.1 (((t.find r.1).map fun held => f held r.2).getD r.2)) t

private theorem find_foldl_merge (f : V → V → V) (k : K) (l : List (K × V))
    (hl : l.Pairwise fun a b => a.1 < b.1) (t : Table K V) :
    (l.foldl (fun t r => t.upsert r.1 (((t.find r.1).map fun held => f held r.2).getD r.2))
      t).find k =
      match lookup k l with
      | some v => some (((t.find k).map fun held => f held v).getD v)
      | none => t.find k := by
  induction l generalizing t with
  | nil => rfl
  | cons r l ih =>
    obtain ⟨k', v'⟩ := r
    rw [List.pairwise_cons] at hl
    rw [List.foldl_cons, ih hl.2, lookup_cons]
    by_cases h : k = k'
    · subst h
      have hn : lookup k l = none :=
        lookup_eq_none.mpr fun r hr => ne_of_gt (hl.1 r hr)
      simp [hn]
    · simp only [find_upsert_of_ne _ _ h, if_neg h]

theorem find_mergeWith (f : V → V → V) (t s : Table K V) (k : K) :
    (t.mergeWith f s).find k =
      match s.find k with
      | some v => some (((t.find k).map fun held => f held v).getD v)
      | none => t.find k :=
  find_foldl_merge f k s.rows s.sorted t

end Table
