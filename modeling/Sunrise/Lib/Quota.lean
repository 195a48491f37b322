import Mathlib.Data.Finset.Card
import Mathlib.Data.Finset.Max
import Mathlib.Order.Lattice.Nat
import Mathlib.Data.Finset.Lattice.Fold

/-!
# Quotas

Rows come one at a time. Each belongs to an owner, names an item of that owner and
has a rank, and a store keeps of each owner's rows the top row of each item, and of
those only the top `n`. Dropping the rest as they come loses nothing: what is kept
of what was kept and one more row is what would be kept of everything, so the store
is a function of the rows it was given, not of their order.

## Main definitions

* `above owner item rank s x` — the items of `x`'s owner with a row of `s` over `x`.
* `quota owner item rank n s` — the rows of `s` that stay.

## Main results

* `quota_insert_quota` — dropping rows early changes nothing.
-/

namespace Quota

variable {R O I L : Type*} [DecidableEq O] [DecidableEq I] [LinearOrder L]
  (owner : R → O) (item : R → I) (rank : R → L)

def above (s : Finset R) (x : R) : Finset I :=
  (s.filter fun y => owner y = owner x ∧ rank x < rank y).image item

/-- The top row of each item, where fewer than `n` items of the owner are over it. -/
def quota (n : ℕ) (s : Finset R) : Finset R :=
  s.filter fun x => item x ∉ above owner item rank s x ∧ (above owner item rank s x).card < n

variable {owner item rank} {n : ℕ} {s t : Finset R} {x y : R} {i : I}

theorem mem_above : i ∈ above owner item rank s x ↔
    ∃ y ∈ s, owner y = owner x ∧ rank x < rank y ∧ item y = i := by
  simp only [above, Finset.mem_image, Finset.mem_filter, and_assoc]

theorem mem_quota : x ∈ quota owner item rank n s ↔ x ∈ s ∧
    item x ∉ above owner item rank s x ∧ (above owner item rank s x).card < n :=
  Finset.mem_filter

theorem quota_subset : quota owner item rank n s ⊆ s := Finset.filter_subset _ _

theorem above_mono (h : s ⊆ t) : above owner item rank s x ⊆ above owner item rank t x :=
  Finset.image_subset_image (Finset.filter_subset_filter _ h)

theorem above_subset_of_le (ho : owner x = owner y) (hr : rank x ≤ rank y) :
    above owner item rank s y ⊆ above owner item rank s x := by
  intro i hi
  obtain ⟨z, hz, hoz, hlt, hi⟩ := mem_above.mp hi
  exact mem_above.mpr ⟨z, hz, hoz.trans ho.symm, hr.trans_lt hlt, hi⟩

/-- `s` alone is enough to drop `x`. -/
def Spent (owner : R → O) (item : R → I) (rank : R → L) (n : ℕ) (s : Finset R) (x : R) : Prop :=
  item x ∈ above owner item rank s x ∨ n ≤ (above owner item rank s x).card

theorem Spent.mono (h : Spent owner item rank n s x) (hst : s ⊆ t) :
    Spent owner item rank n t x :=
  h.imp (fun h => above_mono hst h) fun h => h.trans (Finset.card_le_card (above_mono hst))

theorem mem_quota_iff : x ∈ quota owner item rank n s ↔
    x ∈ s ∧ ¬ Spent owner item rank n s x := by
  rw [mem_quota, Spent, not_or, not_le]

theorem above_eq_of_spent (hst : s ⊆ t)
    (h : ∀ y ∈ t, y ∉ s → Spent owner item rank n s y)
    (hx : (above owner item rank s x).card < n) :
    above owner item rank t x = above owner item rank s x := by
  refine Finset.Subset.antisymm (fun i hi => ?_) (above_mono hst)
  obtain ⟨y, hy, ho, hlt, rfl⟩ := mem_above.mp hi
  by_cases hys : y ∈ s
  · exact mem_above.mpr ⟨y, hys, ho, hlt, rfl⟩
  · rcases h y hy hys with hitem | hcard
    · exact above_subset_of_le ho.symm hlt.le hitem
    · have := hcard.trans (Finset.card_le_card (above_subset_of_le ho.symm hlt.le))
      omega

theorem quota_eq_of_spent (hst : s ⊆ t)
    (h : ∀ y ∈ t, y ∉ s → Spent owner item rank n s y) :
    quota owner item rank n s = quota owner item rank n t := by
  ext x
  constructor
  · intro hx
    obtain ⟨hxs, hitem, hcard⟩ := mem_quota.mp hx
    rw [mem_quota, above_eq_of_spent hst h hcard]
    exact ⟨hst hxs, hitem, hcard⟩
  · intro hx
    obtain ⟨hxt, hspent⟩ := mem_quota_iff.mp hx
    have hxs : x ∈ s := by
      by_contra hxs
      exact hspent ((h x hxt hxs).mono hst)
    exact mem_quota_iff.mpr ⟨hxs, fun hs => hspent (hs.mono hst)⟩

theorem spent_quota (hn : Spent owner item rank n s x) :
    Spent owner item rank n (quota owner item rank n s) x := by
  by_contra hcon
  obtain ⟨hitem, hcard⟩ := not_or.mp hcon
  -- a row over `x` whose item has no row over `x` that stays
  have hex : ∃ i ∈ above owner item rank s x,
      i ∉ above owner item rank (quota owner item rank n s) x := by
    by_contra hall
    push Not at hall
    rcases hn with hn | hn
    · exact hitem (hall _ hn)
    · exact hcard (hn.trans (Finset.card_le_card hall))
  have hne : (s.filter fun y => (owner y = owner x ∧ rank x < rank y) ∧
      item y ∉ above owner item rank (quota owner item rank n s) x).Nonempty := by
    obtain ⟨i, hi, hnot⟩ := hex
    obtain ⟨y, hy, ho, hlt, rfl⟩ := mem_above.mp hi
    exact ⟨y, Finset.mem_filter.mpr ⟨hy, ⟨ho, hlt⟩, hnot⟩⟩
  -- the highest such row has only items that stay over it, so it stays itself
  obtain ⟨y, hy, hmax⟩ := Finset.exists_max_image _ rank hne
  obtain ⟨hys, ⟨ho, hlt⟩, hnot⟩ := Finset.mem_filter.mp hy
  have hover : above owner item rank s y ⊆ above owner item rank (quota owner item rank n s) x := by
    intro i hi
    obtain ⟨z, hz, hoz, hltz, rfl⟩ := mem_above.mp hi
    by_contra hzn
    exact absurd (hmax z (Finset.mem_filter.mpr ⟨hz, ⟨hoz.trans ho, hlt.trans hltz⟩, hzn⟩))
      (not_le.mpr hltz)
  refine hnot (mem_above.mpr ⟨y, mem_quota.mpr ⟨hys, fun h => hnot (hover h), ?_⟩, ho, hlt, rfl⟩)
  exact (Finset.card_le_card hover).trans_lt (not_le.mp hcard)

/-- **Dropping rows early changes nothing**: what stays of what stayed and one more row
is what stays of all the rows. -/
theorem quota_insert_quota [DecidableEq R] :
    quota owner item rank n (insert x (quota owner item rank n s)) =
      quota owner item rank n (insert x s) := by
  refine quota_eq_of_spent (Finset.insert_subset_insert x quota_subset) fun y hy hnot => ?_
  obtain ⟨hne, hyq⟩ := not_or.mp (mt Finset.mem_insert.mpr hnot)
  have hys : y ∈ s := (Finset.mem_insert.mp hy).resolve_left hne
  have hspent : Spent owner item rank n s y := by
    by_contra hns
    exact hyq (mem_quota_iff.mpr ⟨hys, hns⟩)
  exact (spent_quota hspent).mono (Finset.subset_insert x _)

end Quota
