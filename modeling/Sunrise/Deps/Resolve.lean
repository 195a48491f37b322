import Mathlib.Data.Finset.Max
import Mathlib.Order.Bounds.Basic
import Sunrise.Deps.Graph

/-!
# Resolving the cycles of merged edges

Two devices can each add an edge that closes no loop, and the merge of the two does. What is read
then is a graph made anew from the merged edges: the oldest first, and an edge that would close a
loop among the ones already taken is set aside, with the loop. An edge comes with the stamps of
all who added it; it counts from the least one.

## Main results

* `resolve_cycles_canonical` — **the reduction is canonical, acyclic, and sets aside exactly the
  edges that close a loop.**
-/

namespace Sunrise

open Relation Reach

/-! ### Edges with a stamp -/

section Edges

variable {E S : Type*}

/-- A `blocked_by` edge the cycle rule sets aside. -/
structure SuppressedEdge (E S : Type*) where
  /-- The task whose `blocked_by` names the edge. -/
  task : E
  blocker : E
  stamp : S
  /-- The cycle it would close: the task, the blocker, then the kept edges leading back. -/
  cycle : List E
deriving DecidableEq

/-- An edge in the order they are taken in: by stamp, then task, then blocker. -/
abbrev EdgeKey (E S : Type*) := S ×ₗ (E ×ₗ E)

def edgeKey (task blocker : E) (stamp : S) : EdgeKey E S := toLex (stamp, toLex (task, blocker))

namespace EdgeKey

def stamp (e : EdgeKey E S) : S := (ofLex e).1

/-- Its task and its blocker. -/
def edge (e : EdgeKey E S) : E ×ₗ E := (ofLex e).2

def task (e : EdgeKey E S) : E := (ofLex e.edge).1

def blocker (e : EdgeKey E S) : E := (ofLex e.edge).2

end EdgeKey

theorem edgeKey_surjective (e : EdgeKey E S) :
    ∃ t b s, edgeKey t b s = e :=
  ⟨(EdgeKey.task e), EdgeKey.blocker e, EdgeKey.stamp e, rfl⟩

end Edges

variable {E : Type*} [LinearOrder E]

namespace DependencyGraph

variable {g : DependencyGraph E} {src tgt : E}

/-! ### The breadth-first search -/

/-- The way back along `came_from`, from the start to a task found. -/
inductive Trail (g : DependencyGraph E) (cameFrom : Table E E) (src : E) : List E → E → Prop
  | start : Trail g cameFrom src [src] src
  | snoc {p : List E} {a b : E} (hp : Trail g cameFrom src p a) (hab : g.Edge a b)
      (hb : cameFrom.find b = some a) : Trail g cameFrom src (p ++ [b]) b

namespace Trail

variable {cameFrom : Table E E} {p : List E} {a b : E}

section

variable (h : Trail g cameFrom src p a)
include h

theorem chain : Chain g.Edge src p a := by
  induction h with
  | start => exact .refl src
  | snoc _ hab _ ih => exact ih.tail hab

theorem dropLast_append : p.dropLast ++ [a] = p := by
  cases h with
  | start => rfl
  | snoc => rw [List.dropLast_concat]

theorem upsert {x y : E} (hx : cameFrom.find x = none) :
    Trail g (cameFrom.upsert x y) src p a := by
  induction h with
  | start => exact .start
  | @snoc p a b _ hab hb ih =>
    refine .snoc ih hab ?_
    rw [Table.find_upsert_of_ne _ _ (fun h => ?_), hb]
    rw [h, hx] at hb
    cases hb

theorem walkBack_eq (hsrc : cameFrom.find src = none) {fuel : ℕ}
    (hfuel : p.length ≤ fuel + 1) (out : List E) :
    walkBack cameFrom fuel a out = p.dropLast ++ out := by
  induction h generalizing fuel out with
  | start =>
    cases fuel with
    | zero => rfl
    | succ fuel => simp [walkBack, hsrc]
  | @snoc p a b hp hab hb ih =>
    rw [List.length_append, List.length_singleton] at hfuel
    have hpos : 0 < p.length := by
      rw [← hp.dropLast_append, List.length_append]
      simp
    obtain ⟨fuel, rfl⟩ := Nat.exists_eq_succ_of_ne_zero (show fuel ≠ 0 by omega)
    have hstep : walkBack cameFrom (fuel + 1) b out = walkBack cameFrom fuel a (a :: out) := by
      simp [walkBack, hb]
    rw [List.dropLast_concat, hstep, ih (by omega)]
    conv_rhs => rw [← hp.dropLast_append]
    simp

end

end Trail

/-- What every turn of the search keeps, while the blockers `left` of `node` are still to be gone
through. -/
structure SearchInv (g : DependencyGraph E) (src tgt node : E) (left : List E) (s : Search E) :
    Prop where
  src_seen : src ∈ s.seen
  src_root : s.cameFrom.find src = none
  queue_seen : ∀ x ∈ s.queue, x ∈ s.seen
  tgt_queued : tgt ∈ s.seen → tgt ∈ s.queue
  closed : ∀ x y, x ∈ s.seen → g.Edge x y → y ∈ s.seen ∨ x ∈ s.queue ∨ x = node ∧ y ∈ left
  came_seen : ∀ x y, s.cameFrom.find x = some y → x ∈ s.seen
  trail : ∀ x ∈ s.seen, ∃ p, Trail g s.cameFrom src p x ∧ p.length ≤ s.cameFrom.rows.length + 1

theorem SearchInv.find {node next : E} {left : List E} {s : Search E}
    (h : SearchInv g src tgt node (next :: left) s) (hnode : node ∈ s.seen)
    (hedge : g.Edge node next) :
    SearchInv g src tgt node left (s.find node next) ∧ node ∈ (s.find node next).seen := by
  unfold Search.find
  split
  next hs =>
    refine ⟨{ h with closed := fun x y hx hxy => ?_ }, hnode⟩
    rcases h.closed x y hx hxy with hy | hq | ⟨rfl, hy⟩
    · exact .inl hy
    · exact .inr (.inl hq)
    · rcases List.mem_cons.mp hy with rfl | hy
      · exact .inl hs
      · exact .inr (.inr ⟨rfl, hy⟩)
  next hs =>
    have hnone : s.cameFrom.find next = none := by
      cases hc : s.cameFrom.find next with
      | none => rfl
      | some y => exact absurd (h.came_seen next y hc) hs
    have hlen : (s.cameFrom.upsert next node).rows.length = s.cameFrom.rows.length + 1 :=
      Table.length_place hnone
    refine ⟨⟨?_, ?_, fun x hx => ?_, fun ht => ?_, fun x y hx hxy => ?_, fun x y hxy => ?_,
      fun x hx => ?_⟩, OrdSet.mem_insert.mpr (.inr hnode)⟩
    · exact OrdSet.mem_insert.mpr (.inr h.src_seen)
    · have hne : src ≠ next := fun heq => hs (heq ▸ h.src_seen)
      rw [Table.find_upsert_of_ne _ _ hne]
      exact h.src_root
    · rcases List.mem_append.mp hx with hx | hx
      · exact OrdSet.mem_insert.mpr (.inr (h.queue_seen x hx))
      · exact OrdSet.mem_insert.mpr (.inl (List.mem_singleton.mp hx))
    · rcases OrdSet.mem_insert.mp ht with rfl | ht
      · exact List.mem_append_right _ (List.mem_singleton_self _)
      · exact List.mem_append_left _ (h.tgt_queued ht)
    · rcases OrdSet.mem_insert.mp hx with rfl | hx
      · exact .inr (.inl (List.mem_append_right _ (List.mem_singleton_self _)))
      · rcases h.closed x y hx hxy with hy | hq | ⟨rfl, hy⟩
        · exact .inl (OrdSet.mem_insert.mpr (.inr hy))
        · exact .inr (.inl (List.mem_append_left _ hq))
        · rcases List.mem_cons.mp hy with rfl | hy
          · exact .inl (OrdSet.mem_insert.mpr (.inl rfl))
          · exact .inr (.inr ⟨rfl, hy⟩)
    · rw [Table.find_upsert] at hxy
      split at hxy
      next heq => exact OrdSet.mem_insert.mpr (.inl heq)
      next => exact OrdSet.mem_insert.mpr (.inr (h.came_seen x y hxy))
    · rcases OrdSet.mem_insert.mp hx with rfl | hx
      · obtain ⟨p, hp, hpl⟩ := h.trail node hnode
        refine ⟨p ++ [x], .snoc (hp.upsert hnone) hedge (Table.find_upsert_self _ _ _), ?_⟩
        rw [hlen, List.length_append, List.length_singleton]
        omega
      · obtain ⟨p, hp, hpl⟩ := h.trail x hx
        refine ⟨p, hp.upsert hnone, hpl.trans ?_⟩
        rw [hlen]
        omega

theorem SearchInv.foldl {node : E} {left : List E} {s : Search E}
    (h : SearchInv g src tgt node left s) (hnode : node ∈ s.seen)
    (hedge : ∀ y ∈ left, g.Edge node y) :
    SearchInv g src tgt node [] (left.foldl (Search.find node) s) := by
  induction left generalizing s with
  | nil => exact h
  | cons next left ih =>
    obtain ⟨h', hnode'⟩ := h.find hnode (hedge next List.mem_cons_self)
    exact ih h' hnode' fun y hy => hedge y (List.mem_cons_of_mem _ hy)

/-- **One turn of the search** keeps the invariant. -/
theorem SearchInv.step {node node' : E} {queue : List E} {seen : OrdSet E} {cameFrom : Table E E}
    (h : SearchInv g src tgt node' [] ⟨node :: queue, seen, cameFrom⟩) (hne : node ≠ tgt) :
    SearchInv g src tgt node []
      ((g.blockersOf node).elems.foldl (Search.find node) ⟨queue, seen, cameFrom⟩) := by
  have hnode : node ∈ seen := h.queue_seen node List.mem_cons_self
  refine SearchInv.foldl (s := ⟨queue, seen, cameFrom⟩) ?_ hnode fun y hy => hy
  refine { h with
    queue_seen := fun x hx => h.queue_seen x (List.mem_cons_of_mem _ hx)
    tgt_queued := fun ht => ?_
    closed := fun x y hx hxy => ?_ }
  · exact (List.mem_cons.mp (h.tgt_queued ht)).resolve_left hne.symm
  · rcases h.closed x y hx hxy with hy | hq | ⟨-, hy⟩
    · exact .inl hy
    · rcases List.mem_cons.mp hq with rfl | hq
      · exact .inr (.inr ⟨rfl, hxy⟩)
      · exact .inr (.inl hq)
    · exact absurd hy List.not_mem_nil

theorem search_spec {node : E} {s : Search E} (h : SearchInv g src tgt node [] s) :
    match g.search tgt s with
    | some p => Chain g.Edge src p tgt
    | none => ¬ ReflTransGen g.Edge src tgt := by
  fun_induction search g tgt s generalizing node with
  | case1 seen cameFrom =>
    -- nothing is queued: what is seen is closed, and the target is not in it
    intro hr
    refine absurd (h.tgt_queued ?_) List.not_mem_nil
    refine mem_of_closed (S := fun x => x ∈ seen) (fun x y hx hxy => ?_) h.src_seen hr
    rcases h.closed x y hx hxy with hy | hq | ⟨-, hy⟩
    · exact hy
    · exact absurd hq List.not_mem_nil
    · exact absurd hy List.not_mem_nil
  | case2 queue seen cameFrom =>
    obtain ⟨p, hp, hpl⟩ := h.trail tgt (h.queue_seen tgt List.mem_cons_self)
    have hback := hp.walkBack_eq h.src_root hpl [tgt]
    rw [hp.dropLast_append] at hback
    rw [hback]
    exact hp.chain
  | case3 node' queue seen cameFrom hne ih => exact ih (h.step hne)

theorem searchInv_start : SearchInv g src tgt src [] ⟨[src], (∅ : OrdSet E).insert src, ∅⟩ where
  src_seen := by simp
  src_root := rfl
  queue_seen x hx := by simpa using hx
  tgt_queued ht := by simpa using ht
  closed x y hx _ := .inr (.inl (by simpa using hx))
  came_seen x y hxy := by simp at hxy
  trail x hx := by
    have hx : x = src := by simpa using hx
    exact ⟨[src], hx ▸ .start, by simp⟩

/-- **What `path` gives is a walk** from one end to the other. -/
theorem path_sound {p : List E} (h : g.path src tgt = some p) : Chain g.Edge src p tgt := by
  have hspec := search_spec (@searchInv_start E _ g src tgt)
  rw [show g.search tgt _ = some p from h] at hspec
  exact hspec

/-- **Where `path` gives none there is none.** -/
theorem path_complete (h : g.path src tgt = none) : ¬ ReflTransGen g.Edge src tgt := by
  have hspec := search_spec (@searchInv_start E _ g src tgt)
  rw [show g.search tgt _ = none from h] at hspec
  exact hspec

end DependencyGraph

/-! ### The reduction -/

section Reduction

variable {S : Type*}

/-- Each edge once, where it stands first. -/
def retainFirst : OrdSet (E ×ₗ E) → List (EdgeKey E S) → List (EdgeKey E S)
  | _, [] => []
  | seen, e :: es =>
    if EdgeKey.edge e ∈ seen then retainFirst seen es
    else e :: retainFirst (seen.insert (EdgeKey.edge e)) es

theorem retainFirst_sublist (seen : OrdSet (E ×ₗ E)) (l : List (EdgeKey E S)) :
    (retainFirst seen l).Sublist l := by
  induction l generalizing seen with
  | nil => exact .slnil
  | cons a l ih =>
    unfold retainFirst
    split
    · exact (ih _).cons _
    · exact (ih _).cons_cons _

/-- Take one edge: set it aside if the kept ones lead back, and keep it otherwise. -/
def judge (st : DependencyGraph E × List (SuppressedEdge E S)) (e : EdgeKey E S) :
    DependencyGraph E × List (SuppressedEdge E S) :=
  match st.1.path (EdgeKey.blocker e) (EdgeKey.task e) with
  | some back =>
    (st.1, st.2 ++ [⟨EdgeKey.task e, EdgeKey.blocker e, EdgeKey.stamp e, EdgeKey.task e :: back⟩])
  | none => (st.1.addEdge (EdgeKey.task e) (EdgeKey.blocker e), st.2)

theorem judge_edgeKey {st : DependencyGraph E × List (SuppressedEdge E S)} {t b : E} {s : S} :
    judge st (edgeKey t b s) =
      match st.1.path b t with
      | some back => (st.1, st.2 ++ [⟨t, b, s, t :: back⟩])
      | none => (st.1.addEdge t b, st.2) := rfl

variable [LinearOrder S]

/-- The edges in the order they are taken in, each with its least stamp. -/
def oldest (edges : List (E × E × S)) : List (EdgeKey E S) :=
  retainFirst ∅ ((edges.map fun e => edgeKey e.1 e.2.1 e.2.2).insertionSort (· ≤ ·))

/-- The graph the merged edges read as, and the edges set aside to make it acyclic. -/
def resolveCycles (edges : List (E × E × S)) :
    DependencyGraph E × List (SuppressedEdge E S) :=
  (oldest edges).foldl judge (.new, [])

/-! ### The edges in order -/

theorem mem_retainFirst {l : List (EdgeKey E S)} (hl : l.Pairwise (· ≤ ·))
    {seen : OrdSet (E ×ₗ E)} {e : EdgeKey E S} :
    e ∈ retainFirst seen l ↔ e ∈ l ∧ EdgeKey.edge e ∉ seen ∧
      ∀ e' ∈ l, EdgeKey.edge e' = EdgeKey.edge e → e ≤ e' := by
  induction l generalizing seen with
  | nil => simp [retainFirst]
  | cons a l ih =>
    obtain ⟨hal, hl⟩ := List.pairwise_cons.mp hl
    unfold retainFirst
    split
    next ha =>
      rw [ih hl]
      constructor
      · rintro ⟨he, hs, hmin⟩
        refine ⟨List.mem_cons_of_mem _ he, hs, fun e' he' heq => ?_⟩
        rcases List.mem_cons.mp he' with rfl | he'
        · exact absurd (heq ▸ ha) hs
        · exact hmin e' he' heq
      · rintro ⟨he, hs, hmin⟩
        refine ⟨?_, hs, fun e' he' => hmin e' (List.mem_cons_of_mem _ he')⟩
        rcases List.mem_cons.mp he with rfl | he
        · exact absurd ha hs
        · exact he
    next ha =>
      rw [List.mem_cons, ih hl, OrdSet.mem_insert, not_or]
      constructor
      · rintro (rfl | ⟨he, ⟨hne, hs⟩, hmin⟩)
        · refine ⟨List.mem_cons_self, ha, fun e' he' _ => ?_⟩
          rcases List.mem_cons.mp he' with rfl | he'
          · exact le_rfl
          · exact hal e' he'
        · refine ⟨List.mem_cons_of_mem _ he, hs, fun e' he' heq => ?_⟩
          rcases List.mem_cons.mp he' with rfl | he'
          · exact absurd heq.symm hne
          · exact hmin e' he' heq
      · rintro ⟨he, hs, hmin⟩
        rcases List.mem_cons.mp he with rfl | he
        · exact .inl rfl
        · by_cases heq : EdgeKey.edge e = EdgeKey.edge a
          · -- it stands after the first one of its edge, and is not above it
            exact .inl (le_antisymm (hmin a List.mem_cons_self heq.symm) (hal e he))
          · exact .inr ⟨he, ⟨heq, hs⟩, fun e' he' => hmin e' (List.mem_cons_of_mem _ he')⟩

theorem retainFirst_edges {l : List (EdgeKey E S)} (hl : l.Pairwise (· ≤ ·))
    (seen : OrdSet (E ×ₗ E)) :
    (retainFirst seen l).Pairwise fun a b => EdgeKey.edge a ≠ EdgeKey.edge b := by
  induction l generalizing seen with
  | nil => exact .nil
  | cons a l ih =>
    have hl' := (List.pairwise_cons.mp hl).2
    unfold retainFirst
    split
    · exact ih hl' _
    · refine List.pairwise_cons.mpr ⟨fun b hb heq => ?_, ih hl' _⟩
      exact ((mem_retainFirst hl').mp hb).2.1 (OrdSet.mem_insert.mpr (.inl heq.symm))

variable {edges : List (E × E × S)}

def edgeStamps (edges : List (E × E × S)) (task blocker : E) : Set S :=
  {s | (task, blocker, s) ∈ edges}

/-- **Each edge is taken with its least stamp.** -/
theorem mem_oldest {t b : E} {s : S} :
    edgeKey t b s ∈ oldest edges ↔ IsLeast (edgeStamps edges t b) s := by
  have hmem : ∀ {t b : E} {s : S},
      edgeKey t b s ∈ (edges.map fun e => edgeKey e.1 e.2.1 e.2.2).insertionSort (· ≤ ·) ↔
        (t, b, s) ∈ edges := by
    intro t b s
    rw [List.mem_insertionSort, List.mem_map]
    constructor
    · rintro ⟨⟨t', b', s'⟩, he, heq⟩
      cases heq
      exact he
    · intro he
      exact ⟨_, he, rfl⟩
  have hsorted := List.pairwise_insertionSort (· ≤ ·) (edges.map fun e => edgeKey e.1 e.2.1 e.2.2)
  rw [oldest, mem_retainFirst hsorted, hmem]
  refine and_congr_right fun _ => ⟨fun ⟨_, hmin⟩ s' hs' => ?_, fun hmin => ⟨?_, ?_⟩⟩
  · have hle := hmin (edgeKey t b s') (hmem.mpr hs') rfl
    exact (Prod.Lex.le_iff.mp hle).elim le_of_lt fun h => h.1.le
  · exact OrdSet.not_mem_empty _
  · intro e' he' heq
    obtain ⟨t', b', s', rfl⟩ := edgeKey_surjective e'
    cases heq
    refine Prod.Lex.le_iff.mpr ?_
    rcases lt_or_eq_of_le (hmin (hmem.mp he')) with hlt | rfl
    · exact .inl hlt
    · exact .inr ⟨rfl, le_rfl⟩

theorem oldest_sorted (edges : List (E × E × S)) : (oldest edges).Pairwise (· < ·) := by
  have hsorted := List.pairwise_insertionSort (· ≤ ·) (edges.map fun e => edgeKey e.1 e.2.1 e.2.2)
  have hle := hsorted.sublist (retainFirst_sublist ∅ _)
  refine (hle.and (retainFirst_edges hsorted ∅)).imp fun ⟨hab, hne⟩ => ?_
  exact lt_of_le_of_ne hab fun heq => hne (congrArg EdgeKey.edge heq)

/-- **What is taken depends on the set of edges alone.** -/
theorem oldest_congr {edges' : List (E × E × S)} (h : ∀ e, e ∈ edges' ↔ e ∈ edges) :
    oldest edges' = oldest edges := by
  have hsame : (⟨oldest edges', oldest_sorted edges'⟩ : OrdSet (EdgeKey E S)) =
      ⟨oldest edges, oldest_sorted edges⟩ := by
    refine OrdSet.ext fun e => ?_
    obtain ⟨t, b, s, rfl⟩ := edgeKey_surjective e
    have hst : edgeStamps edges' t b = edgeStamps edges t b := Set.ext fun s => h _
    have hleast : edgeKey t b s ∈ oldest edges' ↔ IsLeast (edgeStamps edges' t b) s := mem_oldest
    exact hleast.trans (hst ▸ mem_oldest.symm)
  exact congrArg OrdSet.elems hsame

/-! ### Taking them one by one -/

/-- Where a suppressed edge came in the order. -/
def SuppressedEdge.key {E S : Type*} (x : SuppressedEdge E S) : EdgeKey E S :=
  edgeKey x.task x.blocker x.stamp

/-- The kept edges that were taken, and before `e`. -/
def TakenBelow (g : DependencyGraph E) (taken : List (EdgeKey E S)) (e : EdgeKey E S) (x y : E) :
    Prop :=
  g.Edge x y ∧ ∃ s, edgeKey x y s ∈ taken ∧ edgeKey x y s < e

/-- What holds once the edges `taken` are taken. -/
structure Resolved (taken : List (EdgeKey E S)) (g : DependencyGraph E)
    (suppressed : List (SuppressedEdge E S)) : Prop where
  acyclic : ¬ Cyclic g.Edge
  edge_taken : ∀ t b, g.Edge t b → ∃ s, edgeKey t b s ∈ taken
  settled : ∀ t b s, edgeKey t b s ∈ taken → g.Edge t b ∨ ∃ x ∈ suppressed, x.key = edgeKey t b s
  taken_of : ∀ x ∈ suppressed, x.key ∈ taken
  not_kept : ∀ x ∈ suppressed, ¬ g.Edge x.task x.blocker
  cycle : ∀ x ∈ suppressed, ∃ p, x.cycle = x.task :: p ∧
    Chain (TakenBelow g taken x.key) x.blocker p x.task
  order : suppressed.Pairwise fun x y => x.key < y.key

theorem resolved_nil : Resolved ([] : List (EdgeKey E S)) .new [] where
  acyclic := fun ⟨_, hx⟩ => by
    obtain ⟨y, hxy, -⟩ := TransGen.head'_iff.mp hx
    exact DependencyGraph.not_edge_new _ _ hxy
  edge_taken t b h := absurd h (DependencyGraph.not_edge_new t b)
  settled _ _ _ h := absurd h List.not_mem_nil
  taken_of _ h := absurd h List.not_mem_nil
  not_kept _ h := absurd h List.not_mem_nil
  cycle _ h := absurd h List.not_mem_nil
  order := .nil

/-- **One more edge**, which comes after the ones taken and is none of them. -/
theorem Resolved.judge {taken : List (EdgeKey E S)} {g : DependencyGraph E}
    {suppressed : List (SuppressedEdge E S)} (h : Resolved taken g suppressed) {t b : E} {s : S}
    (hlt : ∀ e ∈ taken, e < edgeKey t b s) (hnew : ∀ s', edgeKey t b s' ∉ taken) :
    Resolved (taken ++ [edgeKey t b s]) (judge (g, suppressed) (edgeKey t b s)).1
      (judge (g, suppressed) (edgeKey t b s)).2 := by
  have hold : ∀ {x y : E} {s' : S}, edgeKey x y s' ∈ taken →
      edgeKey x y s' ∈ taken ++ [edgeKey t b s] := fun h => List.mem_append_left _ h
  have hmono : ∀ {g' : DependencyGraph E} {e : EdgeKey E S}, (∀ x y, g.Edge x y → g'.Edge x y) →
      ∀ x y, TakenBelow g taken e x y → TakenBelow g' (taken ++ [edgeKey t b s]) e x y :=
    fun hg x y ⟨hxy, s', hs', hse⟩ => ⟨hg x y hxy, s', hold hs', hse⟩
  rw [judge_edgeKey]
  split
  next back hpath =>
    have hchain := DependencyGraph.path_sound hpath
    -- every edge of the path was taken, so it comes before this one
    have hbelow : ∀ x y, g.Edge x y →
        TakenBelow g (taken ++ [edgeKey t b s]) (edgeKey t b s) x y := by
      intro x y hxy
      obtain ⟨s', hs'⟩ := h.edge_taken x y hxy
      exact ⟨hxy, s', hold hs', hlt _ hs'⟩
    refine ⟨h.acyclic, fun x y hxy => ?_, fun x y s' hs' => ?_, fun x hx => ?_, fun x hx => ?_,
      fun x hx => ?_, ?_⟩
    · obtain ⟨s', hs'⟩ := h.edge_taken x y hxy
      exact ⟨s', hold hs'⟩
    · rcases List.mem_append.mp hs' with hs' | hs'
      · rcases h.settled x y s' hs' with hk | ⟨z, hz, hzk⟩
        · exact .inl hk
        · exact .inr ⟨z, List.mem_append_left _ hz, hzk⟩
      · rw [List.mem_singleton.mp hs']
        exact .inr ⟨_, List.mem_append_right _ (List.mem_singleton_self _), rfl⟩
    · rcases List.mem_append.mp hx with hx | hx
      · exact List.mem_append_left _ (h.taken_of x hx)
      · rw [List.mem_singleton.mp hx]
        exact List.mem_append_right _ (List.mem_singleton_self _)
    · rcases List.mem_append.mp hx with hx | hx
      · exact h.not_kept x hx
      · rw [List.mem_singleton.mp hx]
        intro hk
        obtain ⟨s', hs'⟩ := h.edge_taken t b hk
        exact hnew s' hs'
    · rcases List.mem_append.mp hx with hx | hx
      · obtain ⟨p, hp, hc⟩ := h.cycle x hx
        exact ⟨p, hp, hc.mono (hmono fun _ _ hxy => hxy)⟩
      · rw [List.mem_singleton.mp hx]
        exact ⟨back, rfl, hchain.mono hbelow⟩
    · refine List.pairwise_append.mpr ⟨h.order, List.pairwise_singleton _ _, fun x hx y hy => ?_⟩
      rw [List.mem_singleton.mp hy]
      exact hlt _ (h.taken_of x hx)
  next hpath =>
    have hno := DependencyGraph.path_complete hpath
    have hadd : ∀ x y, (g.addEdge t b).Edge x y ↔ x = t ∧ y = b ∨ g.Edge x y :=
      fun _ _ => DependencyGraph.edge_addEdge
    refine ⟨fun hc => ?_, fun x y hxy => ?_, fun x y s' hs' => ?_, fun x hx => ?_, fun x hx => ?_,
      fun x hx => ?_, h.order⟩
    · exact ((cyclic_insert_iff hadd).mp hc).elim h.acyclic hno
    · rcases (hadd x y).mp hxy with ⟨rfl, rfl⟩ | hxy
      · exact ⟨s, List.mem_append_right _ (List.mem_singleton_self _)⟩
      · obtain ⟨s', hs'⟩ := h.edge_taken x y hxy
        exact ⟨s', hold hs'⟩
    · rcases List.mem_append.mp hs' with hs' | hs'
      · exact (h.settled x y s' hs').imp_left fun hk => (hadd x y).mpr (.inr hk)
      · cases List.mem_singleton.mp hs'
        exact .inl ((hadd t b).mpr (.inl ⟨rfl, rfl⟩))
    · exact List.mem_append_left _ (h.taken_of x hx)
    · intro hk
      rcases (hadd _ _).mp hk with ⟨ht, hb⟩ | hk
      · exact hnew x.stamp (ht ▸ hb ▸ h.taken_of x hx)
      · exact h.not_kept x hx hk
    · obtain ⟨p, hp, hc⟩ := h.cycle x hx
      exact ⟨p, hp, hc.mono (hmono fun _ _ hxy => (hadd _ _).mpr (.inr hxy))⟩

/-- **All of them**, from any point on. -/
theorem Resolved.foldl {taken rest : List (EdgeKey E S)} {g : DependencyGraph E}
    {suppressed : List (SuppressedEdge E S)} (h : Resolved taken g suppressed)
    (hlt : (taken ++ rest).Pairwise (· < ·))
    (hne : (taken ++ rest).Pairwise fun x y => EdgeKey.edge x ≠ EdgeKey.edge y) :
    Resolved (taken ++ rest) (rest.foldl Sunrise.judge (g, suppressed)).1
      (rest.foldl Sunrise.judge (g, suppressed)).2 := by
  induction rest generalizing taken g suppressed with
  | nil => simpa using h
  | cons e rest ih =>
    obtain ⟨t, b, s, rfl⟩ := edgeKey_surjective e
    rw [List.append_cons] at hlt hne ⊢
    have hhead := (List.pairwise_append.mp (List.pairwise_append.mp hlt).1).2.2
    have hhead' := (List.pairwise_append.mp (List.pairwise_append.mp hne).1).2.2
    refine ih (h.judge (fun x hx => ?_) (fun s' hs' => ?_)) hlt hne
    · exact hhead x hx _ (List.mem_singleton_self _)
    · exact hhead' _ hs' _ (List.mem_singleton_self _) rfl

theorem resolved_resolveCycles (edges : List (E × E × S)) :
    Resolved (oldest edges) (resolveCycles edges).1 (resolveCycles edges).2 := by
  have hsorted := List.pairwise_insertionSort (· ≤ ·) (edges.map fun e => edgeKey e.1 e.2.1 e.2.2)
  exact Resolved.foldl resolved_nil (oldest_sorted edges) (retainFirst_edges hsorted ∅)

/-! ### What the reduction is -/

/-- The kept edges which, with their least stamp, come before `e`. -/
def KeptBelow (edges : List (E × E × S)) (g : DependencyGraph E) (e : EdgeKey E S) (x y : E) :
    Prop :=
  g.Edge x y ∧ ∃ s, IsLeast (edgeStamps edges x y) s ∧ edgeKey x y s < e

theorem takenBelow_oldest {g : DependencyGraph E} {e : EdgeKey E S} {x y : E} :
    TakenBelow g (oldest edges) e x y ↔ KeptBelow edges g e x y := by
  simp only [TakenBelow, KeptBelow, mem_oldest]

theorem exists_isLeast {t b : E} {s : S} (h : (t, b, s) ∈ edges) :
    ∃ s', IsLeast (edgeStamps edges t b) s' := by
  let stamps : Finset S :=
    ((edges.filter fun e => e.1 = t ∧ e.2.1 = b).map fun e => e.2.2).toFinset
  have hmem : ∀ s', s' ∈ stamps ↔ s' ∈ edgeStamps edges t b := by
    intro s'
    simp [stamps, edgeStamps]
  have hne : stamps.Nonempty := ⟨s, (hmem s).mpr h⟩
  exact ⟨stamps.min' hne, (hmem _).mp (stamps.min'_mem hne),
    fun s' hs' => stamps.min'_le s' ((hmem s').mpr hs')⟩

/-- **The reduction is canonical and acyclic.** However the edges are given, it keeps the same
graph and sets the same edges aside. The graph is acyclic; every edge is kept or set aside and
not both, and set aside once, with its least stamp; it is set aside exactly when kept edges that
come before it lead from its blocker back to its task, and the cycle named is such a walk. -/
theorem resolve_cycles_canonical (edges : List (E × E × S)) :
    (∀ edges' : List (E × E × S), edges'.Perm edges →
      resolveCycles edges' = resolveCycles edges) ∧
    ¬ Cyclic (resolveCycles edges).1.Edge ∧
    (∀ t b, ((resolveCycles edges).1.Edge t b ∨
        ∃ x ∈ (resolveCycles edges).2, x.task = t ∧ x.blocker = b) ↔
      ∃ s, (t, b, s) ∈ edges) ∧
    (∀ x ∈ (resolveCycles edges).2, ¬ (resolveCycles edges).1.Edge x.task x.blocker ∧
      IsLeast (edgeStamps edges x.task x.blocker) x.stamp) ∧
    ((resolveCycles edges).2.map fun x => (x.task, x.blocker)).Nodup ∧
    (∀ t b s, IsLeast (edgeStamps edges t b) s →
      ((∃ x ∈ (resolveCycles edges).2, x.task = t ∧ x.blocker = b) ↔
        ∃ p, Chain (KeptBelow edges (resolveCycles edges).1 (edgeKey t b s)) b p t)) ∧
    (∀ x ∈ (resolveCycles edges).2, ∃ p, x.cycle = x.task :: p ∧
      Chain (KeptBelow edges (resolveCycles edges).1 x.key) x.blocker p x.task) := by
  have h := resolved_resolveCycles edges
  have hleast : ∀ x ∈ (resolveCycles edges).2,
      IsLeast (edgeStamps edges x.task x.blocker) x.stamp :=
    fun x hx => mem_oldest.mp (h.taken_of x hx)
  have hcycle : ∀ x ∈ (resolveCycles edges).2, ∃ p, x.cycle = x.task :: p ∧
      Chain (KeptBelow edges (resolveCycles edges).1 x.key) x.blocker p x.task := by
    intro x hx
    obtain ⟨p, hp, hc⟩ := h.cycle x hx
    exact ⟨p, hp, hc.mono fun _ _ hxy => takenBelow_oldest.mp hxy⟩
  -- an edge given is settled with its least stamp
  have hsettled : ∀ t b s, IsLeast (edgeStamps edges t b) s → (resolveCycles edges).1.Edge t b ∨
      ∃ x ∈ (resolveCycles edges).2, x.task = t ∧ x.blocker = b := by
    intro t b s hs
    rcases h.settled t b s (mem_oldest.mpr hs) with hk | ⟨x, hx, hkey⟩
    · exact .inl hk
    · refine .inr ⟨x, hx, ?_⟩
      cases x
      cases hkey
      exact ⟨rfl, rfl⟩
  refine ⟨fun edges' hperm => ?_, h.acyclic, fun t b => ⟨?_, fun ⟨s, hs⟩ => ?_⟩,
    fun x hx => ⟨h.not_kept x hx, hleast x hx⟩, ?_, fun t b s hs => ⟨?_, ?_⟩, hcycle⟩
  · rw [resolveCycles, oldest_congr fun e => hperm.mem_iff, resolveCycles]
  · rintro (hk | ⟨x, hx, rfl, rfl⟩)
    · obtain ⟨s, hs⟩ := h.edge_taken t b hk
      exact ⟨s, (mem_oldest.mp hs).1⟩
    · exact ⟨x.stamp, (hleast x hx).1⟩
  · obtain ⟨s', hs'⟩ := exists_isLeast hs
    exact hsettled t b s' hs'
  · refine List.pairwise_map.mpr ((h.order.imp_of_mem fun {x y} hx hy hlt heq => ?_))
    -- two entries of one edge would both have its least stamp
    obtain ⟨ht, hb⟩ := Prod.ext_iff.mp heq
    have hstamp : x.stamp = y.stamp := by
      have hy' := hleast y hy
      rw [← show x.task = y.task from ht, ← show x.blocker = y.blocker from hb] at hy'
      exact (hleast x hx).unique hy'
    have hkey : x.key = y.key := by
      unfold SuppressedEdge.key
      rw [show x.task = y.task from ht, show x.blocker = y.blocker from hb, hstamp]
    exact absurd hlt (hkey ▸ lt_irrefl _)
  · rintro ⟨x, hx, rfl, rfl⟩
    obtain ⟨p, -, hc⟩ := hcycle x hx
    rw [SuppressedEdge.key, (hleast x hx).unique hs] at hc
    exact ⟨p, hc⟩
  · rintro ⟨p, hc⟩
    refine (hsettled t b s hs).resolve_left fun hk => ?_
    -- a kept edge that kept edges lead back over would be a cycle
    exact h.acyclic ⟨t, .head' hk (hc.mono fun _ _ hxy => hxy.1).reach⟩

theorem resolve_cycles_canonical_swap :
    resolveCycles [((2 : ℕ), (1 : ℕ), (20 : ℕ)), (1, 2, 10)] =
      resolveCycles [(1, 2, 10), (2, 1, 20)] :=
  (resolve_cycles_canonical [(1, 2, 10), (2, 1, 20)]).1 _ (.swap _ _ [])

end Reduction

end Sunrise
