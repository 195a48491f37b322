import Sunrise.Deps.Graph

/-!
# The cycle checks

Both checks decide what they are there for. The elimination removes exactly the tasks from which
no cycle is reached, so what it leaves is a cycle or nothing; its counters stay above zero where
they are counted down, since a counter is the number of blockers still there. The walk before a
task's blockers are replaced goes through the old graph, the task's old blockers among it, but it
stops at the task, so it never takes one of the edges that are about to go.

## Main results

* `cycle_checks_exact` — **both checks are exact.**
-/

namespace Sunrise

open Relation Reach

namespace DependencyGraph

variable {E : Type*} [LinearOrder E] {g : DependencyGraph E} {task : E}

/-! ### The walk -/

/-- What every turn of the walk keeps: the task was not looked at, and what a seen task waits on
is seen or still to be looked at. -/
structure WalkInv (g : DependencyGraph E) (task : E) (stack : List E) (seen : OrdSet E) : Prop where
  task_not_seen : task ∉ seen
  closed : ∀ x y, x ∈ seen → g.Edge x y → y ∈ seen ∨ y ∈ stack

theorem WalkInv.exists_mem_stack {stack : List E} {seen : OrdSet E}
    (h : WalkInv g task stack seen) {x : E} (hx : x ∈ seen) (hr : ReflTransGen g.Edge x task) :
    ∃ y ∈ stack, y ∉ seen ∧ ReflTransGen g.Edge y task := by
  obtain ⟨a, b, ha, hb, hab, hrest⟩ := exists_exit (S := fun z => z ∈ seen) hr hx h.task_not_seen
  exact ⟨b, (h.closed a b ha hab).resolve_left hb, hb, hrest⟩

/-- **The walk is right** about what waits to be looked at. -/
theorem walk_iff {stack : List E} {seen : OrdSet E} (h : WalkInv g task stack seen) :
    g.walk task stack seen = true ↔ ∃ y ∈ stack, ReflTransGen g.Edge y task := by
  fun_induction walk g task stack seen with
  | case1 seen => simp
  | case2 stack seen => exact ⟨fun _ => ⟨task, List.mem_cons_self, .refl⟩, fun _ => rfl⟩
  | case3 node stack seen hne hseen ih =>
    have h' : WalkInv g task stack seen := by
      refine ⟨h.task_not_seen, fun x y hx hxy => ?_⟩
      rcases h.closed x y hx hxy with hy | hy
      · exact .inl hy
      · rcases List.mem_cons.mp hy with rfl | hy
        · exact .inl hseen
        · exact .inr hy
    rw [ih h']
    refine ⟨fun ⟨y, hy, hr⟩ => ⟨y, List.mem_cons_of_mem _ hy, hr⟩, fun ⟨y, hy, hr⟩ => ?_⟩
    rcases List.mem_cons.mp hy with rfl | hy
    · -- a seen node that leads to the task does so over something still on the stack
      obtain ⟨z, hz, -, hzr⟩ := h'.exists_mem_stack hseen hr
      exact ⟨z, hz, hzr⟩
    · exact ⟨y, hy, hr⟩
  | case4 node stack seen hne hseen seen' nexts ih =>
    have hnexts : ∀ {y}, g.Edge node y → y ∈ seen' ∨ y ∈ nexts := by
      intro y hy
      by_cases hs : y ∈ seen'
      · exact .inl hs
      · exact .inr (List.mem_filter.mpr ⟨hy, by simpa using hs⟩)
    have h' : WalkInv g task (nexts.reverse ++ stack) seen' := by
      refine ⟨?_, fun x y hx hxy => ?_⟩
      · rw [OrdSet.mem_insert]
        rintro (rfl | ht)
        · exact hne rfl
        · exact h.task_not_seen ht
      · rw [List.mem_append, List.mem_reverse]
        rcases OrdSet.mem_insert.mp hx with rfl | hx
        · exact (hnexts hxy).imp_right .inl
        · rcases h.closed x y hx hxy with hy | hy
          · exact .inl (OrdSet.mem_insert.mpr (.inr hy))
          · rcases List.mem_cons.mp hy with rfl | hy
            · exact .inl (OrdSet.mem_insert.mpr (.inl rfl))
            · exact .inr (.inr hy)
    rw [ih h']
    constructor
    · rintro ⟨y, hy, hr⟩
      rcases List.mem_append.mp hy with hy | hy
      · have hedge : g.Edge node y := (List.mem_filter.mp (List.mem_reverse.mp hy)).1
        exact ⟨node, List.mem_cons_self, .head hedge hr⟩
      · exact ⟨y, List.mem_cons_of_mem _ hy, hr⟩
    · rintro ⟨y, hy, hr⟩
      rcases List.mem_cons.mp hy with rfl | hy
      · obtain ⟨z, hz, -, hzr⟩ := h'.exists_mem_stack (OrdSet.mem_insert.mpr (.inl rfl)) hr
        exact ⟨z, hz, hzr⟩
      · exact ⟨y, List.mem_append_right _ hy, hr⟩

theorem wouldCycle_iff {newBlockers : OrdSet E} :
    g.wouldCycle task newBlockers = true ↔
      ∃ b ∈ newBlockers, ReflTransGen g.Edge b task := by
  unfold wouldCycle
  split
  next h => exact ⟨fun _ => ⟨task, h, .refl⟩, fun _ => rfl⟩
  next h =>
    have hinv : WalkInv g task newBlockers.elems.reverse ∅ :=
      ⟨OrdSet.not_mem_empty _, fun x y hx => absurd hx (OrdSet.not_mem_empty x)⟩
    rw [walk_iff hinv]
    simp only [List.mem_reverse, OrdSet.mem_def]

/-! ### Replacing the blockers of a task -/

/-- The edges once `task` waits on `newBlockers` and on nothing else. -/
def Replaced (g : DependencyGraph E) (task : E) (newBlockers : OrdSet E) (t b : E) : Prop :=
  if t = task then b ∈ newBlockers else g.Edge t b

section Replaced

variable {newBlockers : OrdSet E} {x y : E}

theorem replaced_of_ne (h : x ≠ task) : Replaced g task newBlockers x y ↔ g.Edge x y := by
  simp [Replaced, h]

theorem replaced_self : Replaced g task newBlockers task y ↔ y ∈ newBlockers := by
  simp [Replaced]

theorem reach_task_iff :
    ReflTransGen (Replaced g task newBlockers) x task ↔ ReflTransGen g.Edge x task := by
  constructor
  all_goals
    intro h
    induction h using ReflTransGen.head_induction_on with
    | refl => exact .refl
    | @head a c hstep hrest ih =>
      by_cases ha : a = task
      · subst ha
        exact .refl
      · first
        | exact .head ((replaced_of_ne ha).mp hstep) ih
        | exact .head ((replaced_of_ne ha).mpr hstep) ih

theorem old_or_through (h : TransGen (Replaced g task newBlockers) x y) :
    TransGen g.Edge x y ∨ ReflTransGen (Replaced g task newBlockers) x task ∧
      TransGen (Replaced g task newBlockers) task y := by
  induction h with
  | single hxy =>
    by_cases hx : x = task
    · subst hx
      exact .inr ⟨.refl, .single hxy⟩
    · exact .inl (.single ((replaced_of_ne hx).mp hxy))
  | @tail b c hxb hbc ih =>
    rcases ih with ih | ⟨hxt, htb⟩
    · by_cases hb : b = task
      · subst hb
        exact .inr ⟨hxb.to_reflTransGen, .single hbc⟩
      · exact .inl (ih.tail ((replaced_of_ne hb).mp hbc))
    · exact .inr ⟨hxt, htb.tail hbc⟩

/-- **A cycle after the replacement is one through the task**, if there was none before. -/
theorem cyclic_replaced_iff (hac : ¬ Cyclic g.Edge) :
    Cyclic (Replaced g task newBlockers) ↔ ∃ b ∈ newBlockers, ReflTransGen g.Edge b task := by
  constructor
  · rintro ⟨x, hx⟩
    rcases old_or_through hx with hold | ⟨hxt, htx⟩
    · exact absurd ⟨x, hold⟩ hac
    · -- the cycle seen from the task: its first step goes to a new blocker
      obtain ⟨b, htb, hbt⟩ := TransGen.head'_iff.mp (htx.trans_left hxt)
      exact ⟨b, replaced_self.mp htb, reach_task_iff.mp hbt⟩
  · rintro ⟨b, hb, hr⟩
    exact ⟨task, .head' (replaced_self.mpr hb) (reach_task_iff.mpr hr)⟩

end Replaced

/-! ### The elimination -/

section

/-- Tasks are compared as the order has it. -/
local instance lawfulBEq_task : LawfulBEq E := inferInstance

/-- How many blockers of a task are not removed. -/
def waits (g : DependencyGraph E) (removed : List E) (t : E) : ℕ :=
  (g.blockersOf t).elems.countP fun b => b ∉ removed

end

/-- What every turn of the elimination keeps, `removed` being what it removed, the last first. -/
structure ElimInv (g : DependencyGraph E) (s : Elim E) (removed : List E) : Prop where
  nodup : (s.ready ++ removed).Nodup
  nodes : ∀ x ∈ s.ready ++ removed, x ∈ g.nodes
  ranked : Ranked g.Edge removed
  waiting : ∀ x ∈ g.nodes, s.waiting.find x = some (waits g removed x)
  ready : ∀ x ∈ g.nodes, waits g removed x = 0 ↔ x ∈ s.ready ++ removed

theorem mem_nodes {x : E} : x ∈ g.nodes ↔ x ∈ g.forward.rows.map Prod.fst ∨
    x ∈ g.reverse.rows.map Prod.fst := by
  rw [nodes, OrdSet.mem_ofList, List.mem_append]

theorem Edge.left_mem {t b : E} (h : g.Edge t b) : t ∈ g.nodes :=
  mem_nodes.mpr (.inl (List.mem_map.mpr ⟨_, forward_of_edge h, rfl⟩))

theorem Edge.right_mem {t b : E} (h : g.Edge t b) : b ∈ g.nodes :=
  mem_nodes.mpr (.inr (List.mem_map.mpr ⟨_, reverse_of_edge h, rfl⟩))

theorem waits_pos {removed : List E} {t b : E} (h : g.Edge t b) (hb : b ∉ removed) :
    0 < waits g removed t :=
  List.countP_pos_iff.mpr ⟨b, h, by simpa using hb⟩

theorem waits_cons {removed : List E} {node : E} (hn : node ∉ removed) (t : E) :
    waits g (node :: removed) t + (if t ∈ g.blocksOthers node then 1 else 0) =
      waits g removed t := by
  have key : ∀ l : List E, l.Nodup →
      (l.countP fun b => b ∉ node :: removed) + (if node ∈ l then 1 else 0) =
        l.countP fun b => b ∉ removed := by
    intro l hl
    induction l with
    | nil => rfl
    | cons a l ih =>
      obtain ⟨hal, hl⟩ := List.nodup_cons.mp hl
      have ih := ih hl
      rw [List.countP_cons, List.countP_cons]
      by_cases ha : a = node
      · subst ha
        rw [if_neg hal] at ih
        simp only [List.mem_cons, true_or, not_true_eq_false, decide_false, Bool.false_eq_true,
          if_false, if_true, hn, not_false_eq_true, decide_true] at ih ⊢
        omega
      · have hna : node ≠ a := fun h => ha h.symm
        simp only [List.mem_cons, ha, hna, false_or] at ih ⊢
        omega
  have hmem : t ∈ g.blocksOthers node ↔ node ∈ (g.blockersOf t).elems :=
    edge_iff_blocksOthers.symm
  have := key _ (g.blockersOf t).nodup
  simp only [hmem]
  exact this

theorem foldlM_release {l : List E} (hnd : l.Nodup) (s : Elim E)
    (hl : ∀ d ∈ l, ∃ n, s.waiting.find d = some (n + 1)) :
    ∃ s', l.foldlM Elim.release s = some s' ∧
      (∀ d, s'.waiting.find d =
        if d ∈ l then (s.waiting.find d).map (· - 1) else s.waiting.find d) ∧
      s'.ready = (l.filter fun d => s.waiting.find d = some 1).reverse ++ s.ready := by
  induction l generalizing s with
  | nil => exact ⟨s, rfl, by simp, by simp⟩
  | cons d l ih =>
    obtain ⟨hdl, hnd⟩ := List.nodup_cons.mp hnd
    obtain ⟨n, hn⟩ := hl d List.mem_cons_self
    let s₁ : Elim E :=
      ⟨s.waiting.upsert d n, if n = 0 then d :: s.ready else s.ready⟩
    have hs₁ : s.release d = some s₁ := by simp [Elim.release, hn, s₁]
    have hsame : ∀ x ∈ l, s₁.waiting.find x = s.waiting.find x := by
      intro x hx
      exact Table.find_upsert_of_ne _ _ (fun h => hdl (h ▸ hx))
    obtain ⟨s', hs', hw, hr⟩ := ih hnd s₁ fun x hx => by
      rw [hsame x hx]
      exact hl x (List.mem_cons_of_mem _ hx)
    refine ⟨s', ?_, fun x => ?_, ?_⟩
    · rw [List.foldlM_cons, hs₁]
      exact hs'
    · rw [hw x]
      by_cases hx : x ∈ l
      · simp [hx, hsame x hx]
      · by_cases hxd : x = d
        · subst hxd
          simp [hx, s₁, hn]
        · simp [hx, hxd, s₁, Table.find_upsert]
    · rw [hr]
      have hfilter : (l.filter fun x => s₁.waiting.find x = some 1) =
          l.filter fun x => s.waiting.find x = some 1 :=
        List.filter_congr fun x hx => by rw [hsame x hx]
      rw [hfilter, List.filter_cons]
      by_cases h0 : n = 0
      · simp [s₁, hn, h0]
      · simp [s₁, hn, h0]

/-- **One turn of the elimination** goes through and keeps the invariant. -/
theorem ElimInv.step {waiting : Table E ℕ} {node : E} {ready removed : List E}
    (h : ElimInv g ⟨waiting, node :: ready⟩ removed) :
    ∃ s, (g.blocksOthers node).elems.foldlM Elim.release ⟨waiting, ready⟩ = some s ∧
      ElimInv g s (node :: removed) := by
  have hnode : node ∉ ready ++ removed := (List.nodup_cons.mp h.nodup).1
  have hnr : node ∉ removed := fun hm => hnode (List.mem_append_right _ hm)
  have hdep : ∀ d ∈ (g.blocksOthers node).elems, g.Edge d node :=
    fun d hd => edge_iff_blocksOthers.mpr hd
  -- every dependent waits on `node` at least
  have hpos : ∀ d ∈ (g.blocksOthers node).elems, ∃ n, waiting.find d = some (n + 1) := by
    intro d hd
    obtain ⟨n, hn⟩ := Nat.exists_eq_succ_of_ne_zero (waits_pos (hdep d hd) hnr).ne'
    exact ⟨n, by rw [h.waiting d (hdep d hd).left_mem, hn]⟩
  obtain ⟨s, hs, hw, hr⟩ := foldlM_release (g.blocksOthers node).nodup ⟨waiting, ready⟩ hpos
  refine ⟨s, hs, ?_⟩
  have hready : ∀ x, x ∈ s.ready ↔ x ∈ (g.blocksOthers node).elems ∧ waits g removed x = 1 ∨
      x ∈ ready := by
    intro x
    rw [hr, List.mem_append, List.mem_reverse, List.mem_filter, decide_eq_true_eq]
    refine or_congr_left (and_congr_right fun hx => ?_)
    rw [h.waiting x (hdep x hx).left_mem, Option.some_inj]
  -- what becomes ready now was not ready before
  have hfresh : ∀ x ∈ (g.blocksOthers node).elems, waits g removed x ≠ 0 ∧
      x ∉ node :: ready ++ removed := by
    intro x hx
    have hne := (waits_pos (hdep x hx) hnr).ne'
    exact ⟨hne, fun hm => hne ((h.ready x (hdep x hx).left_mem).mpr hm)⟩
  have hcons := waits_cons (g := g) hnr
  refine ⟨?_, fun x hx => ?_, ⟨fun y hy => ?_, h.ranked⟩, fun x hx => ?_, fun x hx => ?_⟩
  · rw [hr, List.append_assoc, List.nodup_append]
    refine ⟨List.nodup_reverse.mpr ((g.blocksOthers node).nodup.filter _), ?_, ?_⟩
    · exact (List.perm_middle.nodup_iff).mpr h.nodup
    · rintro x hx _ hy rfl
      have hxd := (List.mem_filter.mp (List.mem_reverse.mp hx)).1
      refine (hfresh x hxd).2 ?_
      exact (List.perm_middle.mem_iff).mp hy
  · rcases List.mem_append.mp hx with hx | hx
    · rcases (hready x).mp hx with ⟨hxd, -⟩ | hx
      · exact (hdep x hxd).left_mem
      · exact h.nodes x (List.mem_cons_of_mem _ (List.mem_append_left _ hx))
    · rcases List.mem_cons.mp hx with rfl | hx
      · exact h.nodes x List.mem_cons_self
      · exact h.nodes x (List.mem_cons_of_mem _ (List.mem_append_right _ hx))
  · -- `node` waits on nothing, so every blocker of it is removed
    by_contra hnot
    have h0 := (h.ready node (h.nodes node List.mem_cons_self)).mpr List.mem_cons_self
    exact (waits_pos hy hnot).ne' h0
  · rw [hw x, h.waiting x hx]
    have := hcons x
    by_cases hxd : x ∈ g.blocksOthers node
    · rw [if_pos hxd] at this
      rw [if_pos (OrdSet.mem_def.mp hxd), Option.map_some, ← this, Nat.add_sub_cancel]
    · rw [if_neg hxd, Nat.add_zero] at this
      rw [if_neg (fun h => hxd (OrdSet.mem_def.mpr h)), this]
  · have hold := h.ready x hx
    have := hcons x
    rw [List.mem_append, List.mem_cons, hready x]
    by_cases hxd : x ∈ g.blocksOthers node
    · rw [if_pos hxd] at this
      obtain ⟨hne, hnot⟩ := hfresh x hxd
      simp only [List.cons_append, List.mem_cons, List.mem_append, not_or] at hnot
      have hxd' := OrdSet.mem_def.mp hxd
      constructor
      · intro h0
        exact .inl (.inl ⟨hxd', by omega⟩)
      · rintro ((⟨-, h1⟩ | hx) | hx | hx)
        · omega
        · exact absurd hx hnot.2.1
        · exact absurd hx hnot.1
        · exact absurd hx hnot.2.2
    · rw [if_neg hxd, Nat.add_zero] at this
      rw [this, hold]
      have hxd' : x ∉ (g.blocksOthers node).elems := hxd
      simp only [List.cons_append, List.mem_cons, List.mem_append, hxd', false_and, false_or]
      tauto

/-- **A whole elimination** goes through; what it does not remove waits on something else it
does not remove. -/
theorem eliminate_spec {s : Elim E} {removed : List E} (h : ElimInv g s removed) :
    ∃ removed', g.eliminate s removed.length = some removed'.length ∧ removed'.Nodup ∧
      Ranked g.Edge removed' ∧ (∀ x ∈ removed', x ∈ g.nodes) ∧
      ∀ x ∈ g.nodes, x ∉ removed' → ∃ y, y ∉ removed' ∧ g.Edge x y := by
  induction hn : s.size using Nat.strong_induction_on generalizing s removed with
  | _ n ih =>
    obtain ⟨waiting, ready⟩ := s
    cases ready with
    | nil =>
      refine ⟨removed, by rw [eliminate], h.nodup, h.ranked, h.nodes, fun x hx hxr => ?_⟩
      -- nothing is ready, so what is left has a blocker that is left
      have hne : waits g removed x ≠ 0 := fun h0 => hxr ((h.ready x hx).mp h0)
      obtain ⟨y, hy, hyr⟩ := List.countP_pos_iff.mp (Nat.pos_of_ne_zero hne)
      exact ⟨y, by simpa using hyr, hy⟩
    | cons node ready =>
      obtain ⟨s', hs', hinv⟩ := h.step
      have hlt : s'.size < n := by
        refine lt_of_le_of_lt (Elim.size_foldlM hs') ?_
        rw [← hn]
        simp [Elim.size]
      obtain ⟨removed', hrun, hrest⟩ := ih _ hlt hinv rfl
      refine ⟨removed', ?_, hrest⟩
      rw [eliminate]
      split
      next hnone => rw [hs'] at hnone; cases hnone
      next s₂ hs₂ =>
        rw [hs'] at hs₂
        cases hs₂
        exact hrun

theorem find_blockerCounts (x : E) :
    g.blockerCounts.find x = if x ∈ g.nodes then some (waits g [] x) else none := by
  have hcount : waits g [] x = (g.blockersOf x).elems.length := by simp [waits]
  rw [hcount]
  split
  next hx =>
    exact Table.find_foldl_upsert_of_mem id (fun n => (g.blockersOf n).elems.length)
      (OrdSet.mem_def.mp hx) (fun b _ hb => by rw [show b = x from hb])
  next hx =>
    refine (Table.find_foldl_upsert_of_not_mem id (fun n => (g.blockersOf n).elems.length)
      fun a ha hax => hx ?_).trans (Table.find_empty x)
    exact (show a = x from hax) ▸ ha

theorem mem_startElim_ready {x : E} :
    x ∈ g.startElim.ready ↔ x ∈ g.nodes ∧ waits g [] x = 0 := by
  have hrow : x ∈ g.startElim.ready ↔ g.blockerCounts.find x = some 0 := by
    simp only [startElim, List.mem_reverse, List.mem_map, List.mem_filter, decide_eq_true_eq]
    constructor
    · rintro ⟨⟨k, n⟩, ⟨hr, h0⟩, rfl⟩
      rw [← show n = 0 from h0]
      exact Table.mem_rows.mp hr
    · intro h
      exact ⟨(x, 0), ⟨Table.mem_rows.mpr h, rfl⟩, rfl⟩
  rw [hrow, find_blockerCounts]
  split <;> simp_all

theorem elimInv_start : ElimInv g g.startElim [] where
  nodup := by
    rw [List.append_nil, startElim, List.nodup_reverse]
    refine ((g.blockerCounts.sorted.filter _).map Prod.fst ?_).imp ne_of_lt
    exact fun _ _ h => h
  nodes x hx := by
    rw [List.append_nil] at hx
    exact (mem_startElim_ready.mp hx).1
  ranked := trivial
  waiting x hx := by rw [startElim, find_blockerCounts, if_pos hx]
  ready x hx := by
    rw [List.append_nil, mem_startElim_ready]
    exact ⟨fun h => ⟨hx, h⟩, fun h => h.2⟩

/-- **`has_cycle` is right** about every graph, and no counter of it goes below zero. -/
theorem hasCycle_exact (g : DependencyGraph E) :
    ∃ b, g.hasCycle = some b ∧ (b = true ↔ Cyclic g.Edge) := by
  obtain ⟨removed, hrun, hnd, hranked, hnodes, hleft⟩ := eliminate_spec (elimInv_start (g := g))
  have hcount : g.hasCycle = some (removed.length != g.nodes.elems.length) := by
    rw [hasCycle, show (0 : ℕ) = ([] : List E).length from rfl, hrun, Option.map_some]
  refine ⟨_, hcount, ?_⟩
  have hsub : removed ⊆ g.nodes.elems := fun x hx => hnodes x hx
  rw [bne_iff_ne]
  constructor
  · intro hne
    -- some task is left, and from what is left an edge stays within it
    let left : Finset E := g.nodes.elems.toFinset.filter fun x => x ∉ removed
    have hmem : ∀ {x}, x ∈ left ↔ x ∈ g.nodes ∧ x ∉ removed := by
      intro x
      simp [left, OrdSet.mem_def]
    have hnonempty : left.Nonempty := by
      by_contra hall
      have hback : g.nodes.elems ⊆ removed := by
        intro x hx
        by_contra hxr
        exact hall ⟨x, hmem.mpr ⟨hx, hxr⟩⟩
      exact hne (le_antisymm (hnd.subperm hsub).length_le (g.nodes.nodup.subperm hback).length_le)
    refine exists_cycle left hnonempty fun x hx => ?_
    obtain ⟨hxn, hxr⟩ := hmem.mp hx
    obtain ⟨y, hyr, hxy⟩ := hleft x hxn hxr
    exact ⟨y, hmem.mpr ⟨hxy.right_mem, hyr⟩, hxy⟩
  · rintro ⟨x, hx⟩ heq
    obtain ⟨y, hxy, -⟩ := TransGen.head'_iff.mp hx
    have hperm := (hnd.subperm hsub).perm_of_length_le heq.ge
    have hmem : x ∈ removed := hperm.mem_iff.mpr hxy.left_mem
    exact not_cycle_of_ranked hranked hnd x hmem hx

/-- **Both checks are exact.** `has_cycle` holds exactly when some chain of edges leads from a
task back to itself; and where there is none, `would_cycle` holds exactly when there is one once
the task's blockers are replaced. -/
theorem cycle_checks_exact (edges : List (E × E)) :
    (∃ b, (fromEdges edges).hasCycle = some b ∧ (b = true ↔ Cyclic (fromEdges edges).Edge)) ∧
      ∀ g : DependencyGraph E, ¬ Cyclic g.Edge → ∀ (task : E) (newBlockers : OrdSet E),
        g.wouldCycle task newBlockers = true ↔ Cyclic (Replaced g task newBlockers) := by
  refine ⟨hasCycle_exact _, fun g hac task newBlockers => ?_⟩
  rw [wouldCycle_iff, cyclic_replaced_iff hac]

theorem cycle_checks_exact_backwards :
    (fromEdges [((2 : ℕ), (1 : ℕ))]).wouldCycle 1 (OrdSet.ofList [2]) = true := by
  have hedge : ∀ t b : ℕ, (fromEdges [((2 : ℕ), (1 : ℕ))]).Edge t b ↔ t = 2 ∧ b = 1 :=
    fun t b => edge_fromEdges.trans (by simp)
  have hac : ¬ Cyclic (fromEdges [((2 : ℕ), (1 : ℕ))]).Edge := by
    rintro ⟨x, hx⟩
    obtain ⟨y, hxy, hyx⟩ := TransGen.head'_iff.mp hx
    obtain ⟨rfl, rfl⟩ := (hedge x y).mp hxy
    obtain h | ⟨z, hz, -⟩ := ReflTransGen.cases_head hyx
    · exact absurd h (by decide)
    · exact absurd ((hedge _ _).mp hz).1 (by decide)
  refine ((cycle_checks_exact []).2 _ hac 1 (OrdSet.ofList [2])).mpr ⟨1, ?_⟩
  refine .head (b := 2) (replaced_self.mpr (by simp)) (.single ?_)
  exact (replaced_of_ne (by decide)).mpr ((hedge 2 1).mpr ⟨rfl, rfl⟩)

end DependencyGraph

end Sunrise
