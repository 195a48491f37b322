import Mathlib.Data.Prod.Lex
import Sunrise.Lib.OrdSet
import Sunrise.Lib.Reach
import Sunrise.Lib.Table

/-!
# The dependency graph

Which tasks wait on which: a map from a task to its blockers and one from a blocker to the tasks
waiting on it, filled together, so that either is the other read backwards. On it the source runs
three searches: a walk with a stack from the blockers a task is about to be given, a breadth-first
search for a shortest path, and an elimination of tasks nothing holds back, which counts for each
task how many of its blockers are still there.
-/

namespace Sunrise

variable {E : Type*} [LinearOrder E]

/-! ### The two maps -/

/-- The set a key holds. -/
def setAt (m : Table E (OrdSet E)) (k : E) : OrdSet E := (m.find k).getD ∅

/-- Insert into the set a key holds. -/
def insertAt (m : Table E (OrdSet E)) (k v : E) : Table E (OrdSet E) :=
  m.upsert k ((setAt m k).insert v)

theorem mem_setAt_insertAt {m : Table E (OrdSet E)} {k v k' v' : E} :
    v' ∈ setAt (insertAt m k v) k' ↔ k' = k ∧ v' = v ∨ v' ∈ setAt m k' := by
  unfold setAt insertAt
  rw [Table.find_upsert]
  split
  next h =>
    subst h
    simp [setAt]
  next h => simp [h]

/-- Both directions of the `blocked_by` relation over a set of tasks. -/
structure DependencyGraph (E : Type*) [LinearOrder E] where
  forward : Table E (OrdSet E)
  reverse : Table E (OrdSet E)
  converse : ∀ task blocker, blocker ∈ setAt forward task ↔ task ∈ setAt reverse blocker

variable {g : DependencyGraph E}

namespace DependencyGraph

/-- No edges. -/
def new : DependencyGraph E := ⟨∅, ∅, fun _ _ => by simp [setAt]⟩

/-- Record that `task` waits on `blocker`. -/
def addEdge (g : DependencyGraph E) (task blocker : E) : DependencyGraph E where
  forward := insertAt g.forward task blocker
  reverse := insertAt g.reverse blocker task
  converse t b := by
    rw [mem_setAt_insertAt, mem_setAt_insertAt, g.converse]
    tauto

/-- Build from `(task, blocker)` edges. -/
def fromEdges (edges : List (E × E)) : DependencyGraph E :=
  edges.foldl (fun g e => g.addEdge e.1 e.2) new

def blockersOf (g : DependencyGraph E) (task : E) : OrdSet E := setAt g.forward task

def blocksOthers (g : DependencyGraph E) (task : E) : OrdSet E := setAt g.reverse task

def Edge (g : DependencyGraph E) (task blocker : E) : Prop := blocker ∈ g.blockersOf task

theorem edge_iff_blocksOthers {task blocker : E} :
    g.Edge task blocker ↔ task ∈ g.blocksOthers blocker :=
  g.converse task blocker

@[simp] theorem not_edge_new (task blocker : E) : ¬
    (new : DependencyGraph E).Edge task blocker := by
  simp [Edge, new, blockersOf, setAt]

@[simp] theorem edge_addEdge {t b task blocker : E} :
    (g.addEdge t b).Edge task blocker ↔ task = t ∧ blocker = b ∨ g.Edge task blocker :=
  mem_setAt_insertAt

theorem edge_foldl_addEdge {edges : List (E × E)} {task blocker : E} :
    (edges.foldl (fun g e => g.addEdge e.1 e.2) g).Edge task blocker ↔
      g.Edge task blocker ∨ (task, blocker) ∈ edges := by
  induction edges generalizing g with
  | nil => simp
  | cons e edges ih =>
    rw [List.foldl_cons, ih, edge_addEdge, List.mem_cons, Prod.ext_iff]
    tauto

/-- **The edges of a graph are the ones it was built from.** -/
theorem edge_fromEdges {edges : List (E × E)} {task blocker : E} :
    (fromEdges edges).Edge task blocker ↔ (task, blocker) ∈ edges := by
  simp [fromEdges, edge_foldl_addEdge]

theorem forward_of_edge {task blocker : E} (h : g.Edge task blocker) :
    (task, g.blockersOf task) ∈ g.forward.rows := by
  rw [Table.mem_rows]
  unfold Edge blockersOf setAt at *
  cases hf : g.forward.find task with
  | none => simp [hf] at h
  | some s => simp

theorem reverse_of_edge {task blocker : E} (h : g.Edge task blocker) :
    (blocker, g.blocksOthers blocker) ∈ g.reverse.rows := by
  have h' := edge_iff_blocksOthers.mp h
  rw [Table.mem_rows]
  unfold blocksOthers setAt at *
  cases hf : g.reverse.find blocker with
  | none => simp [hf] at h'
  | some s => simp

/-! ### Counting what a search has left

Both searches stop because every turn either shortens what waits to be looked at or takes a task
in that was not seen before. -/

/-- The edges, a task at a time. -/
def mentioned (g : DependencyGraph E) : List E := g.forward.rows.flatMap fun r => r.2.elems

theorem mem_mentioned {task blocker : E} (h : g.Edge task blocker) :
    blocker ∈ g.mentioned :=
  List.mem_flatMap.mpr ⟨_, forward_of_edge h, h⟩

/-- How many places of a list are not seen yet. -/
def unseen : List E → OrdSet E → ℕ
  | [], _ => 0
  | x :: l, seen => unseen l seen + if x ∈ seen then 0 else 1

theorem unseen_insert_le (l : List E) (seen : OrdSet E) (x : E) :
    unseen l (seen.insert x) ≤ unseen l seen := by
  induction l with
  | nil => exact le_rfl
  | cons y l ih =>
    simp only [unseen, OrdSet.mem_insert]
    by_cases hy : y ∈ seen
    · simpa [hy] using ih
    · split <;> simp <;> omega

theorem unseen_insert_lt {l : List E} {seen : OrdSet E} {x : E} (hx : x ∈ l) (hs : x ∉ seen) :
    unseen l (seen.insert x) < unseen l seen := by
  induction l with
  | nil => exact absurd hx List.not_mem_nil
  | cons y l ih =>
    have hle := unseen_insert_le l seen x
    simp only [unseen, OrdSet.mem_insert]
    rcases List.mem_cons.mp hx with rfl | hx
    · simp only [true_or, if_true, if_neg hs]
      omega
    · have hlt := ih hx
      by_cases hy : y ∈ seen
      · simpa [hy] using hlt
      · split <;> simp <;> omega

/-! ### The walk before a task's blockers are replaced -/

/-- The walk: `stack` waits to be looked at, its top first. -/
def walk (g : DependencyGraph E) (task : E) : List E → OrdSet E → Bool
  | [], _ => false
  | node :: stack, seen =>
    if node = task then true
    else if node ∈ seen then walk g task stack seen
    else
      let seen' := seen.insert node
      let nexts := (g.blockersOf node).elems.filter fun next => next ∉ seen'
      walk g task (nexts.reverse ++ stack) seen'
termination_by stack seen => (unseen (g.forward.rows.map Prod.fst) seen, stack.length)
decreasing_by
  · exact Prod.Lex.right _ (Nat.lt_succ_self _)
  · rename_i hseen
    by_cases hrow : node ∈ g.forward.rows.map Prod.fst
    · exact Prod.Lex.left _ _ (unseen_insert_lt hrow hseen)
    · -- no row, nothing to push: the stack is one shorter
      have hnil : (g.blockersOf node).elems = [] := by
        refine List.eq_nil_iff_forall_not_mem.mpr fun b hb => hrow ?_
        exact List.mem_map.mpr ⟨_, forward_of_edge hb, rfl⟩
      rw [Prod.lex_iff]
      have hle := unseen_insert_le (g.forward.rows.map Prod.fst) seen node
      simp only [hnil, List.filter_nil, List.reverse_nil, List.nil_append, List.length_cons]
      omega

/-- Would replacing `task`'s blockers create a cycle? -/
def wouldCycle (g : DependencyGraph E) (task : E) (newBlockers : OrdSet E) : Bool :=
  if task ∈ newBlockers then true else g.walk task newBlockers.elems.reverse ∅

/-! ### A shortest path -/

/-- What a breadth-first search has before it. -/
structure Search (E : Type*) [LinearOrder E] where
  queue : List E
  seen : OrdSet E
  cameFrom : Table E E

def Search.find (node : E) (s : Search E) (next : E) : Search E :=
  if next ∈ s.seen then s
  else
    { queue := s.queue ++ [next]
      seen := s.seen.insert next
      cameFrom := s.cameFrom.upsert next node }

def Search.size (g : DependencyGraph E) (s : Search E) : ℕ :=
  s.queue.length + unseen g.mentioned s.seen

theorem Search.size_foldl_find {node : E} {l : List E}
    (hl : ∀ x ∈ l, x ∈ g.mentioned) (s : Search E) :
    (l.foldl (Search.find node) s).size g ≤ s.size g := by
  induction l generalizing s with
  | nil => exact le_rfl
  | cons x l ih =>
    refine (ih (fun y hy => hl y (List.mem_cons_of_mem _ hy)) _).trans ?_
    unfold Search.find
    split
    · exact le_rfl
    next hx =>
      have hlt := unseen_insert_lt (hl x List.mem_cons_self) hx
      simp only [Search.size, List.length_append, List.length_singleton]
      omega

/-- Back along `came_from`, the path so far in front. There is one step for each row at most. -/
def walkBack (cameFrom : Table E E) : ℕ → E → List E → List E
  | 0, _, out => out
  | fuel + 1, node, out =>
    match cameFrom.find node with
    | none => out
    | some prev => walkBack cameFrom fuel prev (prev :: out)

def search (g : DependencyGraph E) (tgt : E) : Search E → Option (List E)
  | ⟨[], _, _⟩ => none
  | ⟨node :: queue, seen, cameFrom⟩ =>
    if node = tgt then some (walkBack cameFrom cameFrom.rows.length tgt [tgt])
    else
      search g tgt ((g.blockersOf node).elems.foldl (Search.find node) ⟨queue, seen, cameFrom⟩)
termination_by s => s.size g
decreasing_by
  refine lt_of_le_of_lt (Search.size_foldl_find (fun x hx => mem_mentioned hx) _) ?_
  simp [Search.size]

/-- A shortest path from `src` to `tgt`, both included. -/
def path (g : DependencyGraph E) (src tgt : E) : Option (List E) :=
  g.search tgt ⟨[src], (∅ : OrdSet E).insert src, ∅⟩

/-! ### Elimination -/

/-- What an elimination has before it. -/
structure Elim (E : Type*) [LinearOrder E] where
  waiting : Table E ℕ
  /-- The tasks that wait on none, the next one first. -/
  ready : List E

/-- One of the blockers `dependent` waits on is removed; `none` if it waits on none. -/
def Elim.release (s : Elim E) (dependent : E) : Option (Elim E) :=
  match s.waiting.find dependent with
  | none => some s
  | some 0 => none
  | some (n + 1) =>
    some
      { waiting := s.waiting.upsert dependent n
        ready := if n = 0 then dependent :: s.ready else s.ready }

/-- What is left to an elimination. -/
def Elim.size (s : Elim E) : ℕ := (s.waiting.rows.map Prod.snd).sum + s.ready.length

theorem sum_place {k : E} {n m : ℕ} {l : List (E × ℕ)}
    (hl : l.Pairwise fun a b => a.1 < b.1) (hk : Table.lookup k l = some n) :
    ((Table.place k m l).map Prod.snd).sum + n = (l.map Prod.snd).sum + m := by
  induction l with
  | nil => simp at hk
  | cons r l ih =>
    obtain ⟨k', v⟩ := r
    obtain ⟨hlt, hl⟩ := List.pairwise_cons.mp hl
    rw [Table.lookup_cons] at hk
    unfold Table.place
    by_cases heq : k = k'
    · subst heq
      rw [if_pos rfl] at hk
      cases hk
      rw [if_neg (lt_irrefl k), if_pos rfl]
      simp only [List.map_cons, List.sum_cons]
      omega
    · rw [if_neg heq] at hk
      have hnot : ¬ k < k' := not_lt.mpr (le_of_lt (hlt _ (Table.mem_of_lookup hk)))
      rw [if_neg hnot, if_neg heq]
      simp only [List.map_cons, List.sum_cons]
      have := ih hl hk
      omega

theorem Elim.size_release {s s' : Elim E} {d : E} (h : s.release d = some s') :
    s'.size ≤ s.size := by
  unfold Elim.release at h
  split at h
  next => cases h; exact le_rfl
  next => cases h
  next n hn =>
    cases h
    have hsum := sum_place (m := n) s.waiting.sorted hn
    simp only [Elim.size, Table.upsert]
    split
    · simp only [List.length_cons]
      omega
    · omega

theorem Elim.size_foldlM {l : List E} {s s' : Elim E} (h : l.foldlM Elim.release s = some s') :
    s'.size ≤ s.size := by
  induction l generalizing s with
  | nil => cases h; exact le_rfl
  | cons d l ih =>
    rw [List.foldlM_cons] at h
    obtain ⟨s₁, h₁, h₂⟩ := Option.bind_eq_some_iff.mp h
    exact (ih h₂).trans (Elim.size_release h₁)

/-- How many tasks the elimination removes, `removed` of them so far. -/
def eliminate (g : DependencyGraph E) : Elim E → ℕ → Option ℕ
  | ⟨_, []⟩, removed => some removed
  | ⟨waiting, node :: ready⟩, removed =>
    match hf : (g.blocksOthers node).elems.foldlM Elim.release ⟨waiting, ready⟩ with
    | none => none
    | some s => eliminate g s (removed + 1)
termination_by s => s.size
decreasing_by
  refine lt_of_le_of_lt (Elim.size_foldlM hf) ?_
  simp [Elim.size]

/-- Every task an edge names. -/
def nodes (g : DependencyGraph E) : OrdSet E :=
  OrdSet.ofList (g.forward.rows.map Prod.fst ++ g.reverse.rows.map Prod.fst)

def blockerCounts (g : DependencyGraph E) : Table E ℕ :=
  g.nodes.elems.foldl (fun t n => t.upsert n (g.blockersOf n).elems.length) ∅

/-- The tasks without a blocker are ready from the start. -/
def startElim (g : DependencyGraph E) : Elim E where
  waiting := g.blockerCounts
  ready := ((g.blockerCounts.rows.filter fun r => r.2 = 0).map Prod.fst).reverse

/-- Whether some chain of edges leads back to where it started. -/
def hasCycle (g : DependencyGraph E) : Option Bool :=
  (g.eliminate g.startElim 0).map fun removed => removed != g.nodes.elems.length

end DependencyGraph

end Sunrise
