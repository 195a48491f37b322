import Sunrise.Deps.Checks
import Sunrise.Deps.Resolve

/-!
# Dependencies as they are read

The edges a replica holds are those that the merged sets name, and edits of several devices may
have closed a loop in them. Each read resolves them, but looks at stamps only where there is a
loop. A local edit of a task's blockers is checked against what is read.

* `resolvedDependencies_eq` — **every read is what the cycle rule gives**, loop or none.
* `setAllBlockers_acyclic` — **edits that are checked close no loop**, however many there are.
-/

namespace Sunrise

open Relation Reach DependencyGraph

variable {E S : Type*} [LinearOrder E] [LinearOrder S] {rows rows' : List (E × E × S)} {task : E}

def storedGraph (rows : List (E × E × S)) : DependencyGraph E :=
  fromEdges (rows.map fun r => (r.1, r.2.1))

/-- The dependency graph with the cycle rule applied, and the edges it sets aside. -/
def resolvedDependencies (rows : List (E × E × S)) :
    Option (DependencyGraph E × List (SuppressedEdge E S)) :=
  (storedGraph rows).hasCycle.map fun cyclic =>
    if cyclic then resolveCycles rows else (storedGraph rows, [])

/-- Give a task new blockers, unless that closes a loop in what is read. -/
def setBlockers (rows : List (E × E × S)) (task : E) (blockedBy : OrdSet E) (stamp : E → S) :
    Option (List (E × E × S)) :=
  (resolvedDependencies rows).bind fun read =>
    if read.1.wouldCycle task blockedBy then none
    else some (rows.filter (·.1 ≠ task) ++ blockedBy.elems.map fun b => (task, b, stamp b))

omit [LinearOrder S] in
theorem edge_storedGraph {t b : E} : (storedGraph rows).Edge t b ↔ ∃ s, (t, b, s) ∈ rows := by
  rw [storedGraph, edge_fromEdges]
  simp

theorem edge_of_kept {t b : E} (h : (resolveCycles rows).1.Edge t b) :
    (storedGraph rows).Edge t b := by
  obtain ⟨s, hs⟩ := (resolved_resolveCycles rows).edge_taken t b h
  exact edge_storedGraph.mpr ⟨s, (mem_oldest.mp hs).1⟩

theorem suppressed_eq_nil (h : ¬ Cyclic (storedGraph rows).Edge) : (resolveCycles rows).2 = [] := by
  by_contra hne
  obtain ⟨x, hx⟩ := List.exists_mem_of_ne_nil _ hne
  have hres := resolved_resolveCycles rows
  obtain ⟨p, -, hc⟩ := hres.cycle x hx
  have hback := (hc.mono fun _ _ hxy => edge_of_kept hxy.1).reach
  have hedge : (x.task, x.blocker, x.stamp) ∈ rows := (mem_oldest.mp (hres.taken_of x hx)).1
  exact h ⟨x.task, .head' (edge_storedGraph.mpr ⟨_, hedge⟩) hback⟩

theorem resolvedDependencies_of_acyclic (h : ¬ Cyclic (storedGraph rows).Edge) :
    resolvedDependencies rows = some (storedGraph rows, []) := by
  obtain ⟨b, hb, hiff⟩ := hasCycle_exact (storedGraph rows)
  cases b with
  | true => exact absurd (hiff.mp rfl) h
  | false => simp [resolvedDependencies, hb]

/-- **A read is what the cycle rule gives**: it has the same edges, and sets the same ones aside. -/
theorem resolvedDependencies_eq (rows : List (E × E × S)) :
    ∃ graph, resolvedDependencies rows = some (graph, (resolveCycles rows).2) ∧
      ∀ t b, graph.Edge t b ↔ (resolveCycles rows).1.Edge t b := by
  by_cases h : Cyclic (storedGraph rows).Edge
  · obtain ⟨b, hb, hiff⟩ := hasCycle_exact (storedGraph rows)
    rw [hiff.mpr h] at hb
    exact ⟨_, by simp [resolvedDependencies, hb], fun _ _ => Iff.rfl⟩
  · have hnil := suppressed_eq_nil h
    refine ⟨_, hnil ▸ resolvedDependencies_of_acyclic h, fun t b => ⟨fun hedge => ?_, edge_of_kept⟩⟩
    obtain ⟨s, hs⟩ := edge_storedGraph.mp hedge
    obtain ⟨s', hs'⟩ := exists_isLeast hs
    refine ((resolved_resolveCycles rows).settled t b s' (mem_oldest.mpr hs')).resolve_right ?_
    simp [hnil]

theorem setBlockers_acyclic {blockedBy : OrdSet E} {stamp : E → S}
    (h : ¬ Cyclic (storedGraph rows).Edge)
    (hset : setBlockers rows task blockedBy stamp = some rows') :
    ¬ Cyclic (storedGraph rows').Edge := by
  simp only [setBlockers, resolvedDependencies_of_acyclic h, Option.bind_some] at hset
  split at hset
  next => cases hset
  next hfree =>
    obtain rfl := Option.some.inj hset
    rw [wouldCycle_iff, ← cyclic_replaced_iff h] at hfree
    have hedge : (storedGraph (rows.filter (·.1 ≠ task) ++
        blockedBy.elems.map fun b => (task, b, stamp b))).Edge =
        Replaced (storedGraph rows) task blockedBy := by
      ext t b
      rw [edge_storedGraph, Replaced, edge_storedGraph]
      split
      next ht => simp [ht, OrdSet.mem_def]
      next ht => simp [ht, Ne.symm ht]
    rwa [hedge]

/-- Edits of the blockers one after another. One that is refused changes nothing. -/
def setAllBlockers (rows : List (E × E × S)) (edits : List (E × OrdSet E × (E → S))) :
    List (E × E × S) :=
  edits.foldl (fun rows e => (setBlockers rows e.1 e.2.1 e.2.2).getD rows) rows

/-- **Checked edits close no loop**: what is read after any of them is what is stored. -/
theorem setAllBlockers_acyclic (h : ¬ Cyclic (storedGraph rows).Edge)
    (edits : List (E × OrdSet E × (E → S))) :
    ¬ Cyclic (storedGraph (setAllBlockers rows edits)).Edge ∧
      resolvedDependencies (setAllBlockers rows edits) =
        some (storedGraph (setAllBlockers rows edits), []) := by
  have hafter : ¬ Cyclic (storedGraph (setAllBlockers rows edits)).Edge := by
    refine List.foldlRecOn (motive := fun rows => ¬ Cyclic (storedGraph rows).Edge) edits _ h ?_
    intro rows hrows e _
    cases hset : setBlockers rows e.1 e.2.1 e.2.2 with
    | none => exact hrows
    | some rows' => exact setBlockers_acyclic hrows hset
  exact ⟨hafter, resolvedDependencies_of_acyclic hafter⟩

/-- Two tasks, the second edit refused. -/
theorem setAllBlockers_acyclic_two :
    let rows := setAllBlockers (S := ℕ) [] [(1, OrdSet.ofList [2], fun _ => 5),
      (2, OrdSet.ofList [1], fun _ => 6)]
    ¬ Cyclic (storedGraph rows).Edge ∧ resolvedDependencies rows = some (storedGraph rows, []) := by
  refine setAllBlockers_acyclic ?_ _
  rintro ⟨x, hx⟩
  obtain ⟨y, hxy, -⟩ := TransGen.head'_iff.mp hx
  simpa using edge_storedGraph.mp hxy

end Sunrise
