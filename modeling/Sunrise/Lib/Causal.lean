import Mathlib.Logic.Relation
import Mathlib.Order.Preorder.Finite
import Mathlib.Data.Set.Finite.Basic
import Sunrise.Lib.Table

/-!
# Causal histories and their frontiers

A history is a set `U` of versions of a linearly ordered type `σ` (the time a
version was made), each with an author, some naming others. A version reaches
what it names below itself and whatever its author made before it; `Reach` is the
reflexive transitive closure of that. Every edge points down in `σ`.

Beside its edges a version can come with a record of what it covered where it was
recorded first: `base v d a` says that it covers the version `a` of author `d`. What
a version covers (`Covers`) is what the versions it reaches bound, by themselves or
by their records, and `a` precedes `b` when `b` is another version that covers `a`.
With no records this is the order of the history; with records it is an order only
as far as they are complete (`Ordered`).

A `Frontier` summarises what one version covers: for each author, the greatest
version of theirs. `f.Reaches d a` says that `f` covers `a` as a version of `d`;
a frontier is determined by what it covers (`Frontier.ext_reaches`), joins are
unions (`Frontier.reaches_join`), and the whole theory of the frontiers kept
beside a set of versions comes down to two conditions:

* `Sound` — a frontier never covers more than its version does;
* `Closed` — it covers its own version, and all that an edge's target covers.

With the records taken in they make every frontier exact (`Closed.exact`), whatever
the order the versions were recorded in. The two are separate because a replica that
holds part of a history keeps frontiers that are closed over what it holds and sound
for the whole.
-/

/-! ### Frontiers -/

/-- For each author, the greatest version reached. -/
abbrev Frontier (δ σ : Type*) [LinearOrder δ] := Table δ σ

namespace Frontier

variable {δ σ : Type*} [LinearOrder δ] [LinearOrder σ]

def Reaches (f : Frontier δ σ) (d : δ) (a : σ) : Prop := ∃ r, f.find d = some r ∧ a ≤ r

instance (f : Frontier δ σ) (d : δ) (a : σ) : Decidable (f.Reaches d a) :=
  match h : f.find d with
  | none => isFalse fun ⟨_, hr, _⟩ => by simp [h] at hr
  | some r => decidable_of_iff (a ≤ r) ⟨fun ha => ⟨r, h, ha⟩, fun ⟨_, hr, ha⟩ => by
      rw [h, Option.some.injEq] at hr
      exact hr ▸ ha⟩

/-- The frontier of a version that reaches only itself. -/
def single (d : δ) (a : σ) : Frontier δ σ := (∅ : Table δ σ).upsert d a

/-- Keep the greater version of each author. -/
def join (f g : Frontier δ σ) : Frontier δ σ := f.mergeWith max g

@[simp] theorem not_reaches_empty (d : δ) (a : σ) : ¬ Reaches (∅ : Table δ σ) d a := by
  rintro ⟨r, hr, -⟩
  simp at hr

theorem reaches_of_find {f : Frontier δ σ} {d : δ} {r : σ} (h : f.find d = some r) :
    f.Reaches d r := ⟨r, h, le_rfl⟩

theorem Reaches.mono {f : Frontier δ σ} {d : δ} {a b : σ} (h : f.Reaches d b) (hab : a ≤ b) :
    f.Reaches d a := by
  obtain ⟨r, hr, hb⟩ := h
  exact ⟨r, hr, hab.trans hb⟩

theorem find_eq_some_iff {f : Frontier δ σ} {d : δ} {r : σ} :
    f.find d = some r ↔ f.Reaches d r ∧ ∀ a, f.Reaches d a → a ≤ r := by
  constructor
  · intro h
    refine ⟨reaches_of_find h, ?_⟩
    rintro a ⟨r', hr', ha⟩
    rw [h, Option.some.injEq] at hr'
    exact hr' ▸ ha
  · rintro ⟨⟨r', hr', hle⟩, hmax⟩
    rw [hr', le_antisymm (hmax r' (reaches_of_find hr')) hle]

/-- **A frontier is determined by what it covers.** -/
theorem ext_reaches {f g : Frontier δ σ} (h : ∀ d a, f.Reaches d a ↔ g.Reaches d a) : f = g := by
  refine Table.ext_some fun d r => ?_
  rw [find_eq_some_iff, find_eq_some_iff, h d r]
  simp only [h]

@[simp] theorem reaches_single {d d' : δ} {a b : σ} :
    (single d a).Reaches d' b ↔ d' = d ∧ b ≤ a := by
  unfold single Reaches
  rw [Table.find_upsert]
  by_cases h : d' = d
  · simp [h]
  · simp [h]

@[simp] theorem reaches_join {f g : Frontier δ σ} {d : δ} {a : σ} :
    (f.join g).Reaches d a ↔ f.Reaches d a ∨ g.Reaches d a := by
  unfold join Reaches
  rw [Table.find_mergeWith]
  cases hg : g.find d with
  | none => simp
  | some r =>
    cases hf : f.find d with
    | none => simp
    | some r' => simp

def Below (f g : Frontier δ σ) : Prop := ∀ d a, f.Reaches d a → g.Reaches d a

theorem Below.refl (f : Frontier δ σ) : f.Below f := fun _ _ h => h

theorem Below.trans {f g h : Frontier δ σ} (hfg : f.Below g) (hgh : g.Below h) : f.Below h :=
  fun d a ha => hgh d a (hfg d a ha)

end Frontier

/-! ### Histories -/

namespace Causal

variable {σ δ : Type*} [LinearOrder σ]

/-- What one version reaches in one step: an earlier version it names, or one its
author made before. -/
def Edge (author : σ → δ) (names : σ → σ → Prop) (U : Set σ) (v p : σ) : Prop :=
  v ∈ U ∧ p ∈ U ∧ p < v ∧ (names v p ∨ author p = author v)

/-- What a version reaches, itself included. -/
def Reach (author : σ → δ) (names : σ → σ → Prop) (U : Set σ) : σ → σ → Prop :=
  Relation.ReflTransGen (Edge author names U)

/-- What a version covers: what a version it reaches bounds, by itself or by its
record. -/
def Covers (author : σ → δ) (names : σ → σ → Prop) (U : Set σ) (base : σ → δ → σ → Prop)
    (v : σ) (d : δ) (a : σ) : Prop :=
  ∃ w, Reach author names U v w ∧ (author w = d ∧ a ≤ w ∨ base w d a)

/-- `b` is another version, and covers `a`. -/
def Precedes (author : σ → δ) (names : σ → σ → Prop) (U : Set σ) (base : σ → δ → σ → Prop)
    (a b : σ) : Prop :=
  a ≠ b ∧ Covers author names U base b (author a) a

/-- What the versions of a history cover of each other is an order. -/
structure Ordered (author : σ → δ) (names : σ → σ → Prop) (U : Set σ)
    (base : σ → δ → σ → Prop) : Prop where
  le : ∀ w ∈ U, ∀ a ∈ U, base w (author a) a → a ≤ w
  trans : ∀ a ∈ U, ∀ b ∈ U, ∀ c ∈ U, Covers author names U base c (author b) b →
    Covers author names U base b (author a) a → Covers author names U base c (author a) a

section

variable {author : σ → δ} {names : σ → σ → Prop} {U A : Set σ} {base : σ → δ → σ → Prop}
  {v w p a b c : σ}

theorem Edge.mono (hA : A ⊆ U) (h : Edge author names A v p) : Edge author names U v p :=
  ⟨hA h.1, hA h.2.1, h.2.2⟩

theorem Reach.le (h : Reach author names U v p) : p ≤ v := by
  induction h with
  | refl => exact le_rfl
  | tail _ he ih => exact he.2.2.1.le.trans ih

theorem Reach.mem (h : Reach author names U v p) (hv : v ∈ U) : p ∈ U := by
  induction h with
  | refl => exact hv
  | tail _ he _ => exact he.2.1

theorem Reach.trans (h : Reach author names U v w) (h' : Reach author names U w p) :
    Reach author names U v p :=
  Relation.ReflTransGen.trans h h'

theorem reach_of_author (hv : v ∈ U) (hp : p ∈ U) (hle : p ≤ v) (h : author p = author v) :
    Reach author names U v p := by
  rcases hle.lt_or_eq with hlt | rfl
  · exact Relation.ReflTransGen.single ⟨hv, hp, hlt, .inr h⟩
  · exact Relation.ReflTransGen.refl

theorem Covers.of_reach (h : Reach author names U v w) :
    Covers author names U base v (author w) w :=
  ⟨w, h, .inl ⟨rfl, le_rfl⟩⟩

theorem Covers.trans_reach {d : δ} (hv : Reach author names U v p)
    (h : Covers author names U base p d a) : Covers author names U base v d a := by
  obtain ⟨w, hw, hor⟩ := h
  exact ⟨w, hv.trans hw, hor⟩

theorem Covers.reach_or_base (h : Covers author names U base v (author a) a) (hv : v ∈ U)
    (ha : a ∈ U) :
    Reach author names U v a ∨ ∃ w, Reach author names U v w ∧ base w (author a) a := by
  obtain ⟨w, hw, ⟨hauthor, hle⟩ | hbase⟩ := h
  · exact .inl (hw.trans (reach_of_author (hw.mem hv) ha hle hauthor.symm))
  · exact .inr ⟨w, hw, hbase⟩

theorem ordered_of_no_base (h : ∀ w d a, ¬ base w d a) : Ordered author names U base where
  le := fun w _ a _ hb => absurd hb (h w _ a)
  trans := fun a ha b hb c hc hcb hba => by
    rcases hcb.reach_or_base hc hb with hreach | ⟨w, -, hw⟩
    · exact hba.trans_reach hreach
    · exact absurd hw (h w _ b)

namespace Ordered

variable (h : Ordered author names U base)

include h

theorem covers_le (hv : v ∈ U) (ha : a ∈ U) (hc : Covers author names U base v (author a) a) :
    a ≤ v := by
  obtain ⟨w, hw, ⟨-, hle⟩ | hbase⟩ := hc
  · exact hle.trans hw.le
  · exact (h.le w (hw.mem hv) a ha hbase).trans hw.le

theorem lt (ha : a ∈ U) (hb : b ∈ U) (hp : Precedes author names U base a b) : a < b :=
  lt_of_le_of_ne (h.covers_le hb ha hp.2) hp.1

theorem precedes_trans (ha : a ∈ U) (hb : b ∈ U) (hc : c ∈ U)
    (hab : Precedes author names U base a b) (hbc : Precedes author names U base b c) :
    Precedes author names U base a c :=
  ⟨ne_of_lt ((h.lt ha hb hab).trans (h.lt hb hc hbc)), h.trans a ha b hb c hc hbc.2 hab.2⟩

/-- Above every version of a finite set of writes stands one that no other of
them follows. -/
theorem exists_maximal_above {W : Set σ} (hW : W.Finite) (hWU : W ⊆ U) (ha : a ∈ W) :
    ∃ m ∈ W, (a = m ∨ Precedes author names U base a m) ∧
      ∀ n ∈ W, ¬ Precedes author names U base m n := by
  -- among the writes that follow `a`, the greatest in time
  let above : Set σ := {m | m ∈ W ∧ (a = m ∨ Precedes author names U base a m)}
  have hfin : above.Finite := hW.subset fun _ h => h.1
  obtain ⟨m, hm, hmax⟩ := hfin.exists_maximal ⟨a, ha, .inl rfl⟩
  refine ⟨m, hm.1, hm.2, fun n hn hmn => ?_⟩
  have hna : n ∈ above := by
    refine ⟨hn, .inr ?_⟩
    rcases hm.2 with rfl | ham
    · exact hmn
    · exact h.precedes_trans (hWU ha) (hWU hm.1) (hWU hn) ham hmn
  have hlt := h.lt (hWU hm.1) (hWU hn) hmn
  exact absurd (hmax hna hlt.le) (not_le_of_gt hlt)

end Ordered

theorem Precedes.total (ha : a ∈ U) (hb : b ∈ U) (h : author a = author b) (hne : a ≠ b) :
    Precedes author names U base a b ∨ Precedes author names U base b a := by
  rcases lt_or_gt_of_ne hne with hlt | hlt
  · exact .inl ⟨hne, .of_reach (reach_of_author hb ha hlt.le h)⟩
  · exact .inr ⟨hne.symm, .of_reach (reach_of_author ha hb hlt.le h.symm)⟩

theorem Reach.exists_last (h : Reach author names U v p) (hne : v ≠ p) :
    ∃ y, Reach author names U v y ∧ Edge author names U y p := by
  rcases Relation.ReflTransGen.cases_tail h with heq | ⟨y, hy, he⟩
  · exact absurd heq.symm hne
  · exact ⟨y, hy, he⟩

end

/-! ### Frontiers kept beside a history -/

section

variable [LinearOrder δ] {author : σ → δ} {names : σ → σ → Prop} {U A : Set σ}
  {base : σ → δ → σ → Prop} {G : σ → Frontier δ σ} {v w p a : σ}

/-- The frontier covers no more than `v` does. -/
def Sound (author : σ → δ) (names : σ → σ → Prop) (U : Set σ) (base : σ → δ → σ → Prop) (v : σ)
    (f : Frontier δ σ) : Prop :=
  ∀ d a, f.Reaches d a → Covers author names U base v d a

/-- Each version's frontier covers the version itself and all that what it reaches
in one step covers. -/
def Closed (author : σ → δ) (names : σ → σ → Prop) (A : Set σ) (G : σ → Frontier δ σ) : Prop :=
  ∀ v ∈ A, (G v).Reaches (author v) v ∧ ∀ p, Edge author names A v p → (G p).Below (G v)

theorem Sound.trans {f : Frontier δ σ} (h : Sound author names U base p f)
    (hv : Reach author names U v p) : Sound author names U base v f :=
  fun d a ha => (h d a ha).trans_reach hv

theorem sound_single {d : δ} (hv : author v = d) :
    Sound author names U base v (Frontier.single d v) := by
  intro d' a ha
  obtain ⟨rfl, hle⟩ := Frontier.reaches_single.mp ha
  exact ⟨v, Relation.ReflTransGen.refl, .inl ⟨hv, hle⟩⟩

theorem sound_empty : Sound author names U base v (∅ : Table δ σ) :=
  fun d a h => absurd h (Frontier.not_reaches_empty d a)

theorem sound_of_base {f : Frontier δ σ} (h : ∀ d a, f.Reaches d a → base v d a) :
    Sound author names U base v f :=
  fun d a ha => ⟨v, Relation.ReflTransGen.refl, .inr (h d a ha)⟩

theorem Sound.join {f g : Frontier δ σ} (hf : Sound author names U base v f)
    (hg : Sound author names U base v g) : Sound author names U base v (f.join g) := by
  intro d a ha
  rcases Frontier.reaches_join.mp ha with ha | ha
  · exact hf d a ha
  · exact hg d a ha

theorem Closed.below (h : Closed author names A G) (hr : Reach author names A v w) :
    (G w).Below (G v) := by
  induction hr with
  | refl => exact Frontier.Below.refl _
  | tail _ he ih => exact ((h _ he.1).2 _ he).trans ih

theorem Closed.reaches (h : Closed author names A G) (hv : v ∈ A)
    (hr : Reach author names A v w) : (G v).Reaches (author w) w :=
  h.below hr _ _ (h w (hr.mem hv)).1

/-- **Sound and closed frontiers that take the records in are exact.** -/
theorem Closed.exact (hc : Closed author names U G)
    (hs : ∀ v ∈ U, Sound author names U base v (G v))
    (hb : ∀ v ∈ U, ∀ d a, base v d a → (G v).Reaches d a) (hv : v ∈ U) (d : δ) (a : σ) :
    (G v).Reaches d a ↔ Covers author names U base v d a := by
  constructor
  · exact hs v hv d a
  · rintro ⟨w, hw, ⟨rfl, hle⟩ | hbase⟩
    · exact (hc.reaches hv hw).mono hle
    · exact hc.below hw d a (hb w (hw.mem hv) d a hbase)

theorem Closed.unique {H : σ → Frontier δ σ} (hG : Closed author names U G)
    (hGs : ∀ v ∈ U, Sound author names U base v (G v))
    (hGb : ∀ v ∈ U, ∀ d a, base v d a → (G v).Reaches d a) (hH : Closed author names U H)
    (hHs : ∀ v ∈ U, Sound author names U base v (H v))
    (hHb : ∀ v ∈ U, ∀ d a, base v d a → (H v).Reaches d a) (hv : v ∈ U) : G v = H v :=
  Frontier.ext_reaches fun d a => by rw [hG.exact hGs hGb hv, hH.exact hHs hHb hv]

end

end Causal
