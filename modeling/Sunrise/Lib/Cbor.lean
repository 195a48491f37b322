import Mathlib.Algebra.Ring.Int.Defs
import Mathlib.Algebra.Ring.Nat
import Mathlib.Data.Int.Notation
import Mathlib.Data.List.Forall2
import Mathlib.Data.List.Lex
import Mathlib.Data.List.Sort
import Mathlib.Data.Multiset.AddSub
import Mathlib.Data.Nat.Notation

/-!
# CBOR items

The tree a CBOR decoder builds, and what it means to reorder its maps. A map is the list of
its entries, in the order they were written, keys repeated or not, and a key is an item like
any other, so it may hold maps of its own.

## Main definitions

* `Item`, `Item.nodes`, `Item.depth` — items, every item inside one, its levels of nesting.
* `Item.Regular` — the items whose bytes read back as themselves.
* `Shuffle` — the same item with the entries of its maps in other orders.
* `Item.Rigid` — no map inside has two different entries.
* `Codec`, `Codec.Lawful` — a writer and a reader, and what is asked of them.

## Main results

* `Shuffle.array_iff`, `Shuffle.map_iff` — what a shuffle does to a container.
* `rigid_iff` — **an item is rigid exactly when it has no shuffle but itself.**
* `filter_sortBy`, `sortBy_eq_of_perm` — a stable sort, and when the order sorted does not show.
-/

namespace Cbor

/-! ### Items -/

/-- An item that encloses no other. A float is its 64-bit pattern. -/
inductive Scalar where
  | integer (n : ℤ)
  | bytes (b : List ℕ)
  | text (s : String)
  | float (bits : ℕ)
  | bool (b : Bool)
  | null
deriving DecidableEq, Inhabited

/-- A CBOR item. -/
inductive Item where
  | scalar (s : Scalar)
  | tag (n : ℕ) (inner : Item)
  | array (items : List Item)
  | map (entries : List (Item × Item))
deriving Inhabited

open Item

variable {v w : Item} {items : List Item} {entries : List (Item × Item)}

/-- Induction on an item, with one hypothesis for each item directly inside. -/
@[induction_eliminator]
theorem Item.induction {motive : Item → Prop} (scalar : ∀ s, motive (.scalar s))
    (tag : ∀ n v, motive v → motive (.tag n v))
    (array : ∀ items, (∀ v ∈ items, motive v) → motive (.array items))
    (map : ∀ entries, (∀ e ∈ entries, motive e.1 ∧ motive e.2) → motive (.map entries)) :
    ∀ v, motive v := by
  intro v
  refine @Item.rec motive (fun items => ∀ v ∈ items, motive v)
    (fun entries => ∀ e ∈ entries, motive e.1 ∧ motive e.2) (fun e => motive e.1 ∧ motive e.2)
    scalar tag array map ?_ ?_ ?_ ?_ ?_ v
  · simp
  · intro v vs hv hvs u hu
    rcases List.mem_cons.mp hu with rfl | hu
    · exact hv
    · exact hvs u hu
  · simp
  · intro e es he hes f hf
    rcases List.mem_cons.mp hf with rfl | hf
    · exact he
    · exact hes f hf
  · intro k v hk hv
    exact ⟨hk, hv⟩

mutual

/-- The item itself and every item inside it, keys included. -/
def Item.nodes : Item → List Item
  | .scalar s => [.scalar s]
  | .tag n v => .tag n v :: Item.nodes v
  | .array items => .array items :: nodesOfItems items
  | .map entries => .map entries :: nodesOfEntries entries
termination_by structural v => v

def nodesOfItems : List Item → List Item
  | [] => []
  | v :: vs => Item.nodes v ++ nodesOfItems vs
termination_by structural vs => vs

def nodesOfEntries : List (Item × Item) → List Item
  | [] => []
  | e :: es => nodesOfEntry e ++ nodesOfEntries es
termination_by structural es => es

def nodesOfEntry : Item × Item → List Item
  | (k, v) => Item.nodes k ++ Item.nodes v
termination_by structural e => e

end

/-- Whether a tag around an item is a number: tag 2 or 3 around at most 16 bytes. -/
def isBignum (n : ℕ) : Item → Bool
  | .scalar (.bytes b) => (n == 2 || n == 3) && b.length ≤ 16
  | _ => false

mutual

/-- The arrays, maps and tags that enclose one another at the deepest place. A number is no
level. -/
def Item.depth : Item → ℕ
  | .scalar _ => 0
  | .tag n v => if isBignum n v then 0 else Item.depth v + 1
  | .array items => depthOfItems items + 1
  | .map entries => depthOfEntries entries + 1
termination_by structural v => v

def depthOfItems : List Item → ℕ
  | [] => 0
  | v :: vs => max (Item.depth v) (depthOfItems vs)
termination_by structural vs => vs

def depthOfEntries : List (Item × Item) → ℕ
  | [] => 0
  | e :: es => max (depthOfEntry e) (depthOfEntries es)
termination_by structural es => es

def depthOfEntry : Item × Item → ℕ
  | (k, v) => max (Item.depth k) (Item.depth v)
termination_by structural e => e

end

theorem mem_nodesOfItems : w ∈ nodesOfItems items ↔ ∃ v ∈ items, w ∈ v.nodes := by
  induction items with
  | nil => simp [nodesOfItems]
  | cons v vs ih => simp [nodesOfItems, ih]

theorem mem_nodesOfEntries :
    w ∈ nodesOfEntries entries ↔ ∃ e ∈ entries, w ∈ e.1.nodes ∨ w ∈ e.2.nodes := by
  induction entries with
  | nil => simp [nodesOfEntries]
  | cons e es ih =>
    cases e
    simp [nodesOfEntries, nodesOfEntry, ih, or_assoc]

theorem depthOfItems_le {n : ℕ} : depthOfItems items ≤ n ↔ ∀ v ∈ items, v.depth ≤ n := by
  induction items with
  | nil => simp [depthOfItems]
  | cons v vs ih => simp [depthOfItems, ih]

theorem depthOfEntries_le {n : ℕ} :
    depthOfEntries entries ≤ n ↔ ∀ e ∈ entries, e.1.depth ≤ n ∧ e.2.depth ≤ n := by
  induction entries with
  | nil => simp [depthOfEntries]
  | cons e es ih =>
    cases e
    simp [depthOfEntries, depthOfEntry, ih, and_assoc]

/-! A predicate of every node, by what encloses what. -/

section

variable {P : Item → Prop}

@[simp] theorem forall_nodes_scalar {s : Scalar} :
    (∀ w ∈ (scalar s).nodes, P w) ↔ P (.scalar s) := by
  simp [nodes]

@[simp] theorem forall_nodes_tag {n : ℕ} :
    (∀ w ∈ (Item.tag n v).nodes, P w) ↔ P (.tag n v) ∧ ∀ w ∈ v.nodes, P w := by
  simp [Item.nodes]

@[simp] theorem forall_nodes_array :
    (∀ w ∈ (array items).nodes, P w) ↔
      P (.array items) ∧ ∀ v ∈ items, ∀ w ∈ v.nodes, P w := by
  simp only [nodes, List.mem_cons, forall_eq_or_imp, mem_nodesOfItems]
  constructor
  · intro h
    exact ⟨h.1, fun v hv w hw => h.2 w ⟨v, hv, hw⟩⟩
  · intro h
    refine ⟨h.1, ?_⟩
    intro w ⟨v, hv, hw⟩
    exact h.2 v hv w hw

@[simp] theorem forall_nodes_map :
    (∀ w ∈ (Item.map entries).nodes, P w) ↔ P (.map entries) ∧
      ∀ e ∈ entries, (∀ w ∈ e.1.nodes, P w) ∧ ∀ w ∈ e.2.nodes, P w := by
  simp only [nodes, List.mem_cons, forall_eq_or_imp, mem_nodesOfEntries]
  constructor
  · intro h
    exact ⟨h.1, fun e he => ⟨fun w hw => h.2 w ⟨e, he, .inl hw⟩,
      fun w hw => h.2 w ⟨e, he, .inr hw⟩⟩⟩
  · intro h
    refine ⟨h.1, ?_⟩
    intro w ⟨e, he, hw⟩
    rcases hw with hw | hw
    · exact (h.2 e he).1 w hw
    · exact (h.2 e he).2 w hw

end

/-! ### Regular items -/

/-- The scalars the byte form has room for. -/
def Scalar.InRange : Scalar → Prop
  | .integer n => -2 ^ 64 ≤ n ∧ n < 2 ^ 64
  | .bytes b => (∀ x ∈ b, x < 256) ∧ b.length < 2 ^ 64
  | .text s => s.utf8ByteSize < 2 ^ 64
  | .float bits => bits < 2 ^ 64
  | _ => True

/-- Whether the bytes of a number are those of one that fits no integer of 64 bits and does
fit 128, with no zero in front. -/
def isLarge (n : ℕ) : Item → Bool
  | .scalar (.bytes b) => 9 ≤ b.length && b.head? != some 0 &&
      (n == 2 || b.length < 16 || b.head?.any (· < 128))
  | _ => false

/-- One node has a byte form, and if that is the form of a number then of a large one. -/
def Item.NodeRegular : Item → Prop
  | .scalar s => s.InRange
  | .tag n v => n < 2 ^ 64 ∧ (isBignum n v = true → isLarge n v = true)
  | .array items => items.length < 2 ^ 64
  | .map entries => entries.length < 2 ^ 64

/-- Every node has a byte form of its own. A reader gives the integer for a small number
written as a tag, so an item with one is not regular. -/
def Item.Regular (v : Item) : Prop := ∀ w ∈ v.nodes, w.NodeRegular

/-! ### Shuffles -/

/-- `w` is `v` with the entries of some of its maps, at any depth and inside keys too, in
another order. -/
inductive Shuffle : Item → Item → Prop
  | refl (v : Item) : Shuffle v v
  | trans {u v w : Item} : Shuffle u v → Shuffle v w → Shuffle u w
  | tag {v w : Item} (n : ℕ) : Shuffle v w → Shuffle (.tag n v) (.tag n w)
  | item {v w : Item} (l r : List Item) :
    Shuffle v w → Shuffle (.array (l ++ v :: r)) (.array (l ++ w :: r))
  | entry {k k' v v' : Item} (l r : List (Item × Item)) : Shuffle k k' → Shuffle v v' →
    Shuffle (.map (l ++ (k, v) :: r)) (.map (l ++ (k', v') :: r))
  | perm {es fs : List (Item × Item)} : es.Perm fs → Shuffle (.map es) (.map fs)

theorem Shuffle.symm (h : Shuffle v w) : Shuffle w v := by
  induction h with
  | refl v => exact .refl v
  | trans _ _ ihu ihv => exact ihv.trans ihu
  | tag n _ ih => exact ih.tag n
  | item l r _ ih => exact ih.item l r
  | entry l r _ _ ihk ihv => exact ihk.entry l r ihv
  | perm h => exact .perm h.symm

/-- One entry is another with its key and its value shuffled. -/
def ShuffleEntry (e f : Item × Item) : Prop := Shuffle e.1 f.1 ∧ Shuffle e.2 f.2

theorem ShuffleEntry.refl (e : Item × Item) : ShuffleEntry e e := ⟨.refl _, .refl _⟩

theorem ShuffleEntry.trans {e f g : Item × Item} (h : ShuffleEntry e f) (h' : ShuffleEntry f g) :
    ShuffleEntry e g :=
  ⟨h.1.trans h'.1, h.2.trans h'.2⟩

theorem forall₂_trans {α : Type*} {r : α → α → Prop} [IsTrans α r] {l m n : List α}
    (h : List.Forall₂ r l m) (h' : List.Forall₂ r m n) : List.Forall₂ r l n := by
  induction h generalizing n with
  | nil => exact h'
  | cons hab _ ih =>
    cases h' with
    | cons hbc h' => exact .cons (IsTrans.trans _ _ _ hab hbc) (ih h')

instance : Std.Refl Shuffle := ⟨Shuffle.refl⟩

instance : Std.Refl ShuffleEntry := ⟨ShuffleEntry.refl⟩

instance : IsTrans Item Shuffle := ⟨fun _ _ _ => Shuffle.trans⟩

instance : IsTrans (Item × Item) ShuffleEntry := ⟨fun _ _ _ => ShuffleEntry.trans⟩

theorem Shuffle.scalar_eq {s : Scalar} (h : Shuffle (.scalar s) w) : w = .scalar s := by
  generalize hv : scalar s = v at h
  induction h with
  | refl => rfl
  | trans _ _ ihu ihv =>
    have hu := ihu hv
    subst hu
    exact ihv hv
  | tag | item | entry | perm => cases hv

theorem Shuffle.tag_iff {n : ℕ} : Shuffle (.tag n v) w ↔ ∃ u, w = .tag n u ∧ Shuffle v u := by
  constructor
  · intro h
    generalize hx : Item.tag n v = x at h
    induction h generalizing v with
    | refl => exact ⟨v, hx.symm, .refl v⟩
    | trans _ _ ihu ihv =>
      obtain ⟨u, rfl, hu⟩ := ihu hx
      obtain ⟨u', rfl, hu'⟩ := ihv rfl
      exact ⟨u', rfl, hu.trans hu'⟩
    | tag m h =>
      cases hx
      exact ⟨_, rfl, h⟩
    | item | entry | perm => cases hx
  · intro ⟨u, hw, h⟩
    rw [hw]
    exact h.tag n

theorem Shuffle.array_iff :
    Shuffle (.array items) w ↔ ∃ js, w = .array js ∧ List.Forall₂ Shuffle items js := by
  constructor
  · intro h
    generalize hx : array items = x at h
    induction h generalizing items with
    | refl => exact ⟨items, hx.symm, List.forall₂_refl items⟩
    | trans _ _ ihu ihv =>
      obtain ⟨js, rfl, hjs⟩ := ihu hx
      obtain ⟨ls, rfl, hls⟩ := ihv rfl
      exact ⟨ls, rfl, forall₂_trans hjs hls⟩
    | item l r h =>
      cases hx
      exact ⟨_, rfl, List.rel_append (List.forall₂_refl l) (.cons h (List.forall₂_refl r))⟩
    | tag | entry | perm => cases hx
  · intro ⟨js, hw, h⟩
    subst hw
    -- the items before `l` are already shuffled
    suffices ∀ l, Shuffle (.array (l ++ items)) (.array (l ++ js)) from this []
    induction h with
    | nil => exact fun l => .refl _
    | @cons v u vs us hv _ ih =>
      intro l
      have htail := ih (l ++ [u])
      simp only [List.append_assoc, List.singleton_append] at htail
      exact (hv.item l vs).trans htail

theorem Shuffle.map_iff : Shuffle (.map entries) w ↔
    ∃ es fs, w = .map fs ∧ List.Forall₂ ShuffleEntry entries es ∧ es.Perm fs := by
  constructor
  · intro h
    generalize hx : Item.map entries = x at h
    induction h generalizing entries with
    | refl => exact ⟨entries, entries, hx.symm, List.forall₂_refl entries, .refl _⟩
    | trans _ _ ihu ihv =>
      obtain ⟨es, fs, rfl, hes, hfs⟩ := ihu hx
      obtain ⟨es', fs', rfl, hes', hfs'⟩ := ihv rfl
      obtain ⟨gs, hgs, hmid⟩ := List.perm_comp_forall₂ hfs hes'
      exact ⟨gs, fs', rfl, forall₂_trans hes hgs, hmid.trans hfs'⟩
    | entry l r hk hv =>
      cases hx
      exact ⟨_, _, rfl, List.rel_append (List.forall₂_refl l)
        (.cons ⟨hk, hv⟩ (List.forall₂_refl r)), .refl _⟩
    | perm h =>
      cases hx
      exact ⟨_, _, rfl, List.forall₂_refl _, h⟩
    | tag | item => cases hx
  · rintro ⟨es, fs, rfl, h, hp⟩
    refine Shuffle.trans ?_ (.perm hp)
    clear hp
    suffices ∀ l, Shuffle (.map (l ++ entries)) (.map (l ++ es)) from this []
    induction h with
    | nil => exact fun l => .refl _
    | @cons e f es' _ he _ ih =>
      intro l
      have htail := ih (l ++ [f])
      simp only [List.append_assoc, List.singleton_append] at htail
      exact (he.1.entry l es' he.2).trans htail

/-! What a shuffle keeps. -/

theorem Shuffle.scalar_or {α : Type*} {f : Item → α} {a : α} (h : Shuffle v w)
    (hf : ∀ u, (∀ s, u ≠ .scalar s) → f u = a) : f w = f v := by
  cases v with
  | scalar s => rw [h.scalar_eq]
  | tag =>
    obtain ⟨u, rfl, -⟩ := Shuffle.tag_iff.mp h
    rw [hf _ (by simp), hf _ (by simp)]
  | array =>
    obtain ⟨js, rfl, -⟩ := Shuffle.array_iff.mp h
    rw [hf _ (by simp), hf _ (by simp)]
  | map =>
    obtain ⟨es, fs, rfl, -⟩ := Shuffle.map_iff.mp h
    rw [hf _ (by simp), hf _ (by simp)]

theorem Shuffle.isBignum_eq {n : ℕ} (h : Shuffle v w) : isBignum n w = isBignum n v :=
  h.scalar_or (a := false) fun u hu => by
    cases u with
    | scalar s => exact absurd rfl (hu s)
    | _ => rfl

theorem Shuffle.isLarge_eq {n : ℕ} (h : Shuffle v w) : isLarge n w = isLarge n v :=
  h.scalar_or (a := false) fun u hu => by
    cases u with
    | scalar s => exact absurd rfl (hu s)
    | _ => rfl

theorem Shuffle.depth_le {n : ℕ} (h : Shuffle v w) (hv : v.depth ≤ n) : w.depth ≤ n := by
  induction h generalizing n with
  | refl => exact hv
  | trans _ _ ihu ihv => exact ihv (ihu hv)
  | tag m h ih =>
    simp only [depth, h.isBignum_eq] at hv ⊢
    split
    next => exact Nat.zero_le n
    next hbig =>
      rw [if_neg hbig] at hv
      have hle := @ih (n - 1) (by omega)
      omega
  | item l r _ ih =>
    cases n with
    | zero => simp [depth] at hv
    | succ n =>
      simp only [depth, Nat.add_le_add_iff_right, depthOfItems_le, List.forall_mem_append,
        List.forall_mem_cons] at hv ⊢
      exact ⟨hv.1, ih hv.2.1, hv.2.2⟩
  | entry l r _ _ ihk ihv =>
    cases n with
    | zero => simp [depth] at hv
    | succ n =>
      simp only [depth, Nat.add_le_add_iff_right, depthOfEntries_le, List.forall_mem_append,
        List.forall_mem_cons] at hv ⊢
      exact ⟨hv.1, ⟨ihk hv.2.1.1, ihv hv.2.1.2⟩, hv.2.2⟩
  | perm h =>
    cases n with
    | zero => simp [depth] at hv
    | succ n =>
      simp only [depth, Nat.add_le_add_iff_right, depthOfEntries_le] at hv ⊢
      exact fun e he => hv e (h.mem_iff.mpr he)

theorem Shuffle.depth_eq (h : Shuffle v w) : w.depth = v.depth :=
  le_antisymm (h.depth_le le_rfl) (h.symm.depth_le le_rfl)

theorem Shuffle.regular (h : Shuffle v w) (hv : v.Regular) : w.Regular := by
  unfold Item.Regular at hv ⊢
  induction h with
  | refl => exact hv
  | trans _ _ ihu ihv => exact ihv (ihu hv)
  | tag n h ih =>
    simp only [forall_nodes_tag, Item.NodeRegular] at hv ⊢
    exact ⟨⟨hv.1.1, by rw [h.isBignum_eq, h.isLarge_eq]; exact hv.1.2⟩, ih hv.2⟩
  | item l r _ ih =>
    simp only [forall_nodes_array, Item.NodeRegular, List.length_append, List.length_cons,
      List.forall_mem_append, List.forall_mem_cons] at hv ⊢
    exact ⟨hv.1, hv.2.1, ih hv.2.2.1, hv.2.2.2⟩
  | entry l r _ _ ihk ihv =>
    simp only [forall_nodes_map, Item.NodeRegular, List.length_append, List.length_cons,
      List.forall_mem_append, List.forall_mem_cons] at hv ⊢
    exact ⟨hv.1, hv.2.1, ⟨ihk hv.2.2.1.1, ihv hv.2.2.1.2⟩, hv.2.2.2⟩
  | perm h =>
    simp only [forall_nodes_map, Item.NodeRegular, ← h.length_eq] at hv ⊢
    exact ⟨hv.1, fun e he => hv.2 e (h.mem_iff.mpr he)⟩

/-! ### Rigid items -/

/-- The entries of a map are all the same entry. -/
def Item.Uniform : Item → Prop
  | .map entries => ∀ e ∈ entries, ∀ f ∈ entries, e = f
  | _ => True

/-- No map inside the item has two different entries. -/
def Item.Rigid (v : Item) : Prop := ∀ w ∈ v.nodes, w.Uniform

theorem map_eq_of_forall₂ {α β : Type*} {r : α → α → Prop} {f : α → β} {l m : List α}
    (h : List.Forall₂ r l m) (heq : ∀ a ∈ l, ∀ b, r a b → f b = f a) : m.map f = l.map f := by
  induction h with
  | nil => rfl
  | cons hab _ ih =>
    rw [List.map_cons, List.map_cons, heq _ List.mem_cons_self _ hab,
      ih fun a ha => heq a (List.mem_cons_of_mem _ ha)]

theorem forall₂_eq {α : Type*} {r : α → α → Prop} {l m : List α} (h : List.Forall₂ r l m)
    (heq : ∀ a ∈ l, ∀ b, r a b → b = a) : m = l := by
  have hmap := @map_eq_of_forall₂ α α r id l m h heq
  rwa [List.map_id, List.map_id] at hmap

theorem eq_of_perm_middle {α : Type*} {a b : α} {l r : List α}
    (h : (l ++ a :: r).Perm (l ++ b :: r)) : a = b := by
  have hcons : (a :: (l ++ r)).Perm (b :: (l ++ r)) :=
    List.perm_middle.symm.trans (h.trans List.perm_middle)
  exact Multiset.cons_inj_left (l ++ r : Multiset α) |>.mp (Multiset.coe_eq_coe.mpr hcons)

theorem exists_perm_cons_cons {α : Type*} {a b : α} {l : List α} (ha : a ∈ l) (hb : b ∈ l)
    (hne : a ≠ b) : ∃ r, l.Perm (a :: b :: r) := by
  obtain ⟨l₁, l₂, rfl⟩ := List.append_of_mem ha
  have hmem : b ∈ l₁ ++ l₂ := by
    rcases List.mem_append.mp hb with hb | hb
    · exact List.mem_append_left _ hb
    · exact List.mem_append_right _ ((List.mem_cons.mp hb).resolve_left hne.symm)
  obtain ⟨r₁, r₂, hr⟩ := List.append_of_mem hmem
  refine ⟨r₁ ++ r₂, List.perm_middle.trans ?_⟩
  rw [hr]
  exact List.perm_middle.cons a

theorem Item.Rigid.eq_of_shuffle (hv : v.Rigid) (h : Shuffle v w) : w = v := by
  unfold Item.Rigid at hv
  induction v generalizing w with
  | scalar s => exact h.scalar_eq
  | tag n v ih =>
    obtain ⟨u, rfl, hu⟩ := Shuffle.tag_iff.mp h
    rw [ih (forall_nodes_tag.mp hv).2 hu]
  | array items ih =>
    obtain ⟨js, rfl, hjs⟩ := Shuffle.array_iff.mp h
    rw [forall₂_eq hjs fun v hmem w hw => ih v hmem ((forall_nodes_array.mp hv).2 v hmem) hw]
  | map entries ih =>
    obtain ⟨hall, hmem⟩ := forall_nodes_map.mp hv
    obtain ⟨es, fs, rfl, hes, hfs⟩ := Shuffle.map_iff.mp h
    have hes : es = entries := forall₂_eq hes fun e he f hf =>
      Prod.ext ((ih e he).1 (hmem e he).1 hf.1) ((ih e he).2 (hmem e he).2 hf.2)
    subst hes
    -- a list of equal entries has one order
    have htriv : ∀ l : List (Item × Item), l.Pairwise fun _ _ => True :=
      fun l => List.pairwise_of_forall fun _ _ => trivial
    rw [hfs.eq_of_pairwise (fun e f he hf _ _ => hall e he f (hfs.mem_iff.mpr hf)) (htriv es)
      (htriv fs)]

/-- **An item is rigid exactly when it has no shuffle but itself.** -/
theorem rigid_iff : v.Rigid ↔ ∀ w, Shuffle v w → w = v := by
  constructor
  · exact fun hv w h => hv.eq_of_shuffle h
  · intro h
    unfold Item.Rigid
    induction v with
    | scalar s => simp [Item.Uniform]
    | tag n v ih =>
      refine forall_nodes_tag.mpr ⟨trivial, ih fun w hw => ?_⟩
      exact (Item.tag.inj (h _ (hw.tag n))).2
    | array items ih =>
      refine forall_nodes_array.mpr ⟨trivial, fun v hv => ih v hv fun w hw => ?_⟩
      obtain ⟨l, r, rfl⟩ := List.append_of_mem hv
      have heq := Item.array.inj (h _ (hw.item l r))
      exact (List.cons.inj (List.append_cancel_left heq)).1
    | map entries ih =>
      -- an entry with its key and its value shuffled is the entry it was
      have hentry : ∀ e ∈ entries, ∀ f, ShuffleEntry e f → f = e := by
        intro e he f hf
        obtain ⟨l, r, rfl⟩ := List.append_of_mem he
        have heq := Item.map.inj (h _ (hf.1.entry l r hf.2))
        exact (List.cons.inj (List.append_cancel_left heq)).1
      refine forall_nodes_map.mpr ⟨?_, fun e he => ⟨(ih e he).1 fun w hw => ?_,
        (ih e he).2 fun w hw => ?_⟩⟩
      · intro e he f hf
        by_contra hne
        obtain ⟨r, hr⟩ := exists_perm_cons_cons he hf hne
        have hef := Item.map.inj (h _ (.perm hr))
        have hfe := Item.map.inj (h _ (.perm (hr.trans (.swap f e r))))
        exact hne (List.cons.inj (hef.trans hfe.symm)).1
      · exact congrArg Prod.fst (hentry e he (w, e.2) ⟨hw, .refl _⟩)
      · exact congrArg Prod.snd (hentry e he (e.1, w) ⟨.refl _, hw⟩)

/-! ### Sorting by a key -/

section

variable {α β : Type*} [LinearOrder β] {key : α → β} {l m : List α}

/-- The list in the order of a key, entries of one key in the order they are in. -/
def sortBy (key : α → β) (l : List α) : List α := l.insertionSort fun x y => key x ≤ key y

theorem perm_sortBy : (sortBy key l).Perm l := List.perm_insertionSort _ l

theorem pairwise_sortBy : (sortBy key l).Pairwise fun x y => key x ≤ key y := by
  have htotal : Std.Total fun x y => key x ≤ key y := ⟨fun x y => le_total (key x) (key y)⟩
  have htrans : IsTrans α fun x y => key x ≤ key y := ⟨fun _ _ _ => le_trans⟩
  exact List.pairwise_insertionSort _ l

theorem sortBy_eq_self (h : l.Pairwise fun x y => key x ≤ key y) : sortBy key l = l :=
  h.insertionSort_eq

theorem filter_sortBy [DecidableEq β] (b : β) :
    (sortBy key l).filter (key · = b) = l.filter (key · = b) := by
  have hins : ∀ (a : α) (l : List α),
      (l.orderedInsert (fun x y => key x ≤ key y) a).filter (key · = b) =
        (a :: l).filter (key · = b) := by
    intro a l
    induction l with
    | nil => rfl
    | cons c l ih =>
      by_cases hle : key a ≤ key c
      · rw [List.orderedInsert_cons, if_pos hle]
      · -- `a` goes past `c`, and not both of them have the key
        rw [List.orderedInsert_cons, if_neg hle, List.filter_cons, ih]
        by_cases ha : key a = b
        · have hc : key c ≠ b := fun hc => hle (by rw [ha, hc])
          simp [ha, hc]
        · simp [ha, List.filter_cons]
  induction l with
  | nil => rfl
  | cons a l ih =>
    rw [sortBy] at ih ⊢
    rw [List.insertionSort_cons, hins, List.filter_cons, List.filter_cons, ih]

theorem sortBy_eq_of_perm (h : l.Perm m) (hinj : ∀ x ∈ l, ∀ y ∈ l, key x = key y → x = y) :
    sortBy key l = sortBy key m := by
  refine (perm_sortBy.trans (h.trans perm_sortBy.symm)).eq_of_pairwise ?_ pairwise_sortBy
    pairwise_sortBy
  intro x y hx hy hxy hyx
  rw [perm_sortBy.mem_iff] at hx hy
  exact hinj x hx y (h.mem_iff.mpr hy) (le_antisymm hxy hyx)

end

/-! ### Codecs -/

/-- Why a reader refuses. -/
inductive ReadError where
  /-- The item nests more arrays, maps and tags than allowed. -/
  | tooDeep
  | malformed
deriving DecidableEq

/-- A writer of items, and a reader of the item at the front of a byte string that allows
so many levels and gives back what follows the item. -/
structure Codec where
  write : Item → List ℕ
  read : ℕ → List ℕ → Except ReadError (Item × List ℕ)

/-- The reader inverts the writer on the regular items, and those within its levels are
all it gives. -/
structure Codec.Lawful (c : Codec) : Prop where
  read_write : ∀ v : Item, v.Regular → ∀ limit rest, c.read limit (c.write v ++ rest) =
    if v.depth ≤ limit then .ok (v, rest) else .error .tooDeep
  regular_of_read : ∀ limit bs v rest, c.read limit bs = .ok (v, rest) →
    v.Regular ∧ v.depth ≤ limit

def Codec.WritesBytes (c : Codec) : Prop := ∀ v : Item, v.Regular → ∀ b ∈ c.write v, b < 256

variable {c : Codec}

theorem Codec.Lawful.write_injective (hc : c.Lawful) (hv : v.Regular) (hw : w.Regular)
    (h : c.write v = c.write w) : v = w := by
  have hread := hc.read_write v hv (max v.depth w.depth) []
  rw [h, hc.read_write w hw, if_pos (le_max_right ..), if_pos (le_max_left ..)] at hread
  exact (congrArg Prod.fst (Except.ok.inj hread)).symm

theorem Codec.Lawful.write_ne_nil (hc : c.Lawful) (hv : v.Regular) : c.write v ≠ [] := by
  intro hnil
  -- with no byte of its own the item would be read in place of any other
  have hother : ∀ w : Item, w.Regular → w.depth = 0 → v = w := by
    intro w hw hdepth
    have hread := hc.read_write v hv v.depth (c.write w)
    have hread' := hc.read_write w hw v.depth []
    rw [hnil, List.nil_append, if_pos le_rfl] at hread
    rw [List.append_nil, if_pos (hdepth ▸ Nat.zero_le _), hread] at hread'
    exact congrArg Prod.fst (Except.ok.inj hread')
  have hreg : ∀ b, (scalar (.bool b)).Regular := fun b => forall_nodes_scalar.mpr trivial
  have htrue := hother (.scalar (.bool true)) (hreg true) rfl
  have hfalse := hother (.scalar (.bool false)) (hreg false) rfl
  cases htrue.symm.trans hfalse

end Cbor
