import Mathlib.Data.List.MinMax
import Mathlib.Data.Prod.Lex
import Sunrise.Lib.Reach
import Sunrise.Lib.Table

/-!
# Parents that loop

A stream names the stream it is nested under in a register of its own, so two devices that each
nest one stream under the other leave a loop that neither wrote. Reading the streams, one of every
loop is a root: the one whose parent was written last. The source walks from each stream along the
parents until it meets a stream without one, one it has seen to the end of before, or one of the
walk itself, which closes a loop.

## Main results

* `resolve_parent_cycles` — **the parents kept are a forest that lacks one edge of each loop.**
* `readParent_forest` — **the streams as they are read are a forest.**
-/

namespace Sunrise

namespace Streams

open Relation Reach

section Model

variable {E S : Type*} [LinearOrder E]

/-! ### The walks -/

/-- A stream that is read as a root. -/
structure RootedStream (E S : Type*) where
  stream : E
  parent : E
  stamp : S
  /-- The loop, from the stream along the parents and back. -/
  cycle : List E
deriving DecidableEq

/-- What a walk leaves at a stream. -/
inductive Mark where
  | walking
  | done
deriving DecidableEq

/-- The parents and their stamps as a map, of two for one stream the later. -/
def parentMap (parents : List (E × E × S)) : Table E (E × S) :=
  parents.foldl (fun all t => all.upsert t.1 t.2) ∅

/-- What the walks so far have come to. -/
structure Resolving (E S : Type*) [LinearOrder E] where
  mark : Table E Mark
  kept : Table E E
  rooted : List (RootedStream E S)

/-- How many streams with a parent no walk has met. -/
def unmarked (all : Table E (E × S)) (mark : Table E Mark) : ℕ :=
  (all.rows.filter fun r => (mark.find r.1).isNone).length

theorem unmarked_upsert_lt {all : Table E (E × S)} {mark : Table E Mark} {at_ : E} {m : Mark}
    {r : E × S} (hr : all.find at_ = some r) (hm : mark.find at_ = none) :
    unmarked all (mark.upsert at_ m) < unmarked all mark := by
  have heq : (all.rows.filter fun r => ((mark.upsert at_ m).find r.1).isNone) =
      (all.rows.filter fun r => (mark.find r.1).isNone).filter fun r => r.1 ≠ at_ := by
    rw [List.filter_filter]
    refine List.filter_congr fun r _ => ?_
    rw [Table.find_upsert]
    by_cases h : r.1 = at_ <;> simp [h]
  unfold unmarked
  rw [heq, List.length_filter_lt_length_iff_exists]
  refine ⟨(at_, r), List.mem_filter.mpr ⟨Table.mem_rows.mpr hr, ?_⟩, by simp⟩
  show (mark.find at_).isNone = true
  rw [hm]
  rfl

/-- The walk along the parents: the marks and the streams walked over, and the one that closes a
loop. -/
def walkFrom (all : Table E (E × S)) (mark : Table E Mark) (walk : List E) (at_ : E) :
    Table E Mark × List E × Option E :=
  match _hm : mark.find at_ with
  | none =>
    match _hr : all.find at_ with
    | some (p, _) => walkFrom all (mark.upsert at_ .walking) (walk ++ [at_]) p
    | none => (mark.upsert at_ .walking, walk ++ [at_], none)
  | some .walking => (mark, walk, some at_)
  | some .done => (mark, walk, none)
termination_by unmarked all mark
decreasing_by exact unmarked_upsert_lt _hr _hm

variable [LinearOrder S]

/-- Where the walk met `at_` again, the loop is the walk from its first visit on. The stream of it
that was moved last keeps no parent. -/
def rootLoop (all : Table E (E × S)) (walk : List E) (at_ : E) (kept : Table E E)
    (rooted : List (RootedStream E S)) : Table E E × List (RootedStream E S) :=
  let members := walk.drop (walk.idxOf at_)
  -- every member names a parent
  let rows := members.filterMap fun n => (all.find n).map fun r => (n, r)
  match rows.argmax fun m => toLex (m.2.2, m.1) with
  | some (root, parent, stamp) =>
    let pos := members.idxOf root
    (kept.erase root,
      rooted ++ [⟨root, parent, stamp, members.drop pos ++ members.take pos ++ [root]⟩])
  | none => (kept, rooted)

/-- The walk from one stream. -/
def resolveStart (all : Table E (E × S)) (st : Resolving E S) (start : E) : Resolving E S :=
  let (mark, walk, closes) := walkFrom all st.mark [] start
  let (kept, rooted) := match closes with
    | some at_ => rootLoop all walk at_ st.kept st.rooted
    | none => (st.kept, st.rooted)
  ⟨walk.foldl (fun mark n => mark.upsert n .done) mark, kept, rooted⟩

/-- Every stream's parent, and the streams read as roots to make them a forest. -/
def resolveParentCycles (parents : List (E × E × S)) : Table E E × List (RootedStream E S) :=
  let all := parentMap parents
  let st := (all.rows.map Prod.fst).foldl (resolveStart all) ⟨∅, all.mapValues fun _ r => r.1, []⟩
  (st.kept, st.rooted.insertionSort fun a b => a.stream ≤ b.stream)

end Model

/-! ### Loops -/

section Loops

variable {E S : Type*} [LinearOrder E] {all : Table E (E × S)} {a b c : E}

/-- The stream is nested under the other. -/
def Names (all : Table E (E × S)) (c p : E) : Prop := ∃ stamp, all.find c = some (p, stamp)

theorem names_rightUnique : Relator.RightUnique (Names all) := by
  rintro c p q ⟨s, hp⟩ ⟨t, hq⟩
  rw [hp] at hq
  exact (Prod.ext_iff.mp (Option.some.inj hq)).1

/-- The parents of the stream lead back to it. -/
def OnLoop (all : Table E (E × S)) (c : E) : Prop := TransGen (Names all) c c

theorem OnLoop.exists_row (h : OnLoop all c) : ∃ p s, all.find c = some (p, s) := by
  obtain ⟨p, ⟨s, hs⟩, -⟩ := TransGen.head'_iff.mp h
  exact ⟨p, s, hs⟩

theorem OnLoop.of_reach (h : OnLoop all a) (hab : ReflTransGen (Names all) a b) : OnLoop all b :=
  cycle_of_reach names_rightUnique h hab

variable [LinearOrder S]

/-- **The newest move of a loop**: of the streams of the loop the one whose parent was written
last, of two written together the one of the greater id. -/
def Newest (all : Table E (E × S)) (c : E) : Prop :=
  OnLoop all c ∧ ∀ d p q s t, ReflTransGen (Names all) c d → all.find d = some (p, s) →
    all.find c = some (q, t) → toLex (s, d) ≤ toLex (t, c)

theorem Newest.unique (ha : Newest all a) (hb : Newest all b)
    (hab : ReflTransGen (Names all) a b) : a = b := by
  obtain ⟨p, s, hp⟩ := ha.1.exists_row
  obtain ⟨q, t, hq⟩ := hb.1.exists_row
  have hba := reach_back names_rightUnique ha.1 hab
  have hle := le_antisymm (ha.2 b q p t s hab hq hp) (hb.2 a p q s t hba hp hq)
  exact (Prod.ext_iff.mp (toLex.injective hle)).2.symm

/-- What is reported of a loop. -/
structure RootedStream.Closes (all : Table E (E × S)) (q : RootedStream E S) : Prop where
  newest : Newest all q.stream
  row : all.find q.stream = some (q.parent, q.stamp)
  chain : q.cycle.IsChain (Names all)
  /-- It goes from the stream back to it, and over no stream twice. -/
  ends : ∃ l, q.cycle = q.stream :: l ++ [q.stream] ∧ (q.stream :: l).Nodup
  mem : ∀ n, n ∈ q.cycle ↔ ReflTransGen (Names all) q.stream n

end Loops

/-! ### Where a walk ends -/

section Walks

variable {E S : Type*} [LinearOrder E] {all : Table E (E × S)} {mark : Table E Mark}
  {walk : List E} {a b c p at_ : E} {s : S}

theorem walkFrom_parent (hm : mark.find at_ = none) (hr : all.find at_ = some (p, s)) :
    walkFrom all mark walk at_ = walkFrom all (mark.upsert at_ .walking) (walk ++ [at_]) p := by
  rw [walkFrom]
  split
  next =>
    split
    next hr' =>
      rw [hr] at hr'
      cases hr'
      rfl
    next hr' => rw [hr] at hr'; cases hr'
  next hm' => rw [hm] at hm'; cases hm'
  next hm' => rw [hm] at hm'; cases hm'

theorem walkFrom_root (hm : mark.find at_ = none) (hr : all.find at_ = none) :
    walkFrom all mark walk at_ = (mark.upsert at_ .walking, walk ++ [at_], none) := by
  rw [walkFrom]
  split
  next =>
    split
    next hr' => rw [hr] at hr'; cases hr'
    next => rfl
  next hm' => rw [hm] at hm'; cases hm'
  next hm' => rw [hm] at hm'; cases hm'

theorem walkFrom_walking (hm : mark.find at_ = some .walking) :
    walkFrom all mark walk at_ = (mark, walk, some at_) := by
  rw [walkFrom]
  split
  next hm' => rw [hm] at hm'; cases hm'
  next => rfl
  next hm' => rw [hm] at hm'; cases hm'

theorem walkFrom_done (hm : mark.find at_ = some .done) :
    walkFrom all mark walk at_ = (mark, walk, none) := by
  rw [walkFrom]
  split
  next hm' => rw [hm] at hm'; cases hm'
  next hm' => rw [hm] at hm'; cases hm'
  next => rfl

/-- **What a walk comes to**, begun at `at_` with `walk` behind it. -/
structure Walked (all : Table E (E × S)) (mark : Table E Mark) (walk : List E) (at_ : E)
    (out : Table E Mark × List E × Option E) : Prop where
  walking : ∀ n, out.1.find n = some .walking ↔ n ∈ out.2.1
  done : ∀ n, out.1.find n = some .done ↔ mark.find n = some .done
  nodup : out.2.1.Nodup
  behind : ∀ n ∈ walk, n ∈ out.2.1
  start : at_ ∈ out.2.1 ∨ mark.find at_ = some .done
  next : ∀ n ∈ out.2.1, ∀ p, Names all n p → p ∈ out.2.1 ∨ mark.find p = some .done
  loop : ∀ a, out.2.2 = some a → a ∈ out.2.1 ∧ (out.2.1 ++ [a]).IsChain (Names all)
  /-- No loop is closed where the parents lead to a stream without one, or to one that is done. -/
  leads : out.2.2 = none → ∀ n ∈ out.2.1, ∃ z, ReflTransGen (Names all) n z ∧
    ((∀ p, ¬ Names all z p) ∨ mark.find z = some .done)

theorem find_upsert_walking (hwalk : ∀ n, mark.find n = some .walking ↔ n ∈ walk)
    (hnd : walk.Nodup) (hm : mark.find at_ = none) :
    (∀ n, (mark.upsert at_ .walking).find n = some .walking ↔ n ∈ walk ++ [at_]) ∧
      (∀ n, (mark.upsert at_ .walking).find n = some .done ↔ mark.find n = some .done) ∧
      (walk ++ [at_]).Nodup := by
  have hnot : at_ ∉ walk := fun hin => by
    rw [(hwalk at_).mpr hin] at hm
    cases hm
  refine ⟨fun n => ?_, fun n => ?_, ?_⟩
  · rw [Table.find_upsert, List.mem_append, List.mem_singleton, ← hwalk n]
    by_cases hn : n = at_ <;> simp [hn]
  · rw [Table.find_upsert]
    by_cases hn : n = at_ <;> simp [hn, hm]
  · rw [← List.concat_eq_append]
    exact hnd.concat hnot

/-- **Where a walk ends.** -/
theorem walkFrom_spec (hwalk : ∀ n, mark.find n = some .walking ↔ n ∈ walk) (hnd : walk.Nodup)
    (hchain : (walk ++ [at_]).IsChain (Names all)) :
    Walked all mark walk at_ (walkFrom all mark walk at_) := by
  induction mark, walk, at_ using walkFrom.induct all with
  | case1 mark walk at_ hm p s hr ih =>
    obtain ⟨hwalk', hdone, hnd'⟩ := find_upsert_walking hwalk hnd hm
    have hchain' : (walk ++ [at_] ++ [p]).IsChain (Names all) := by
      rw [List.append_assoc]
      exact List.isChain_split.mpr ⟨hchain, List.isChain_pair.mpr ⟨s, hr⟩⟩
    have hout := ih hwalk' hnd' hchain'
    rw [walkFrom_parent hm hr]
    refine ⟨hout.walking, fun n => (hout.done n).trans (hdone n), hout.nodup, ?_, ?_, ?_,
      hout.loop, ?_⟩
    · exact fun n hn => hout.behind n (List.mem_append_left _ hn)
    · exact .inl (hout.behind at_ (List.mem_append_right _ (List.mem_singleton_self _)))
    · exact fun n hn p hp => (hout.next n hn p hp).imp_right (hdone p).mp
    · intro hnone n hn
      obtain ⟨z, hnz, hz⟩ := hout.leads hnone n hn
      exact ⟨z, hnz, hz.imp_right (hdone z).mp⟩
  | case2 mark walk at_ hm hr =>
    obtain ⟨hwalk', hdone, hnd'⟩ := find_upsert_walking hwalk hnd hm
    have hroot (p : E) : ¬ Names all at_ p := by
      rintro ⟨s, hs⟩
      rw [hr] at hs
      cases hs
    rw [walkFrom_root hm hr]
    refine ⟨hwalk', hdone, hnd', fun n hn => List.mem_append_left _ hn,
      .inl (List.mem_append_right _ (List.mem_singleton_self _)), ?_, fun a ha => ?_, ?_⟩
    · intro n hn p hp
      rcases List.mem_append.mp hn with hn | hn
      · obtain ⟨y, hy, hin⟩ := exists_next hchain hn
        rw [names_rightUnique hp hy]
        exact .inl (List.mem_append.mpr (hin.imp_right List.mem_singleton.mpr))
      · rw [List.mem_singleton] at hn
        exact absurd (hn ▸ hp) (hroot p)
    · cases ha
    · intro _ n hn
      refine ⟨at_, ?_, .inl hroot⟩
      rcases List.mem_append.mp hn with hn | hn
      · exact (reach_end hchain hn).to_reflTransGen
      · rw [List.mem_singleton.mp hn]
  | case3 mark walk at_ hm =>
    rw [walkFrom_walking hm]
    have hin := (hwalk at_).mp hm
    refine ⟨hwalk, fun n => Iff.rfl, hnd, fun n hn => hn, .inl hin, ?_, ?_, fun h => by cases h⟩
    · intro n hn p hp
      obtain ⟨y, hy, hy'⟩ := exists_next hchain hn
      rw [names_rightUnique hp hy]
      exact .inl (hy'.elim id fun h => h ▸ hin)
    · rintro a ⟨⟩
      exact ⟨hin, hchain⟩
  | case4 mark walk at_ hm =>
    rw [walkFrom_done hm]
    refine ⟨hwalk, fun n => Iff.rfl, hnd, fun n hn => hn, .inr hm, ?_, fun a ha => ?_, ?_⟩
    · intro n hn p hp
      obtain ⟨y, hy, hy'⟩ := exists_next hchain hn
      rw [names_rightUnique hp hy]
      exact hy'.imp_right fun (h : y = at_) => h ▸ hm
    · cases ha
    · intro _ n hn
      exact ⟨at_, (reach_end hchain hn).to_reflTransGen, .inr hm⟩

end Walks

/-! ### Closing a loop -/

section Closing

variable {E S : Type*} [LinearOrder E] [LinearOrder S] {all : Table E (E × S)} {walk : List E}
  {a at_ : E}

theorem newest_of_argmax {l : List E} {rows : List (E × E × S)} {m : E × E × S}
    (hrows : ∀ n p s, (n, p, s) ∈ rows ↔ n ∈ a :: l ∧ all.find n = some (p, s))
    (hchain : (a :: l ++ [a]).IsChain (Names all))
    (hm : m ∈ rows.argmax fun m => toLex (m.2.2, m.1)) : Newest all m.1 := by
  obtain ⟨root, parent, stamp⟩ := m
  obtain ⟨hin, hrow⟩ := (hrows root parent stamp).mp (List.argmax_mem hm)
  have hloop : OnLoop all a := reach_end hchain List.mem_cons_self
  have hreach := (mem_closed_walk names_rightUnique hchain).mp hin
  refine ⟨hloop.of_reach hreach, fun d p q s t hd hp hq => ?_⟩
  have hmem := (mem_closed_walk names_rightUnique hchain).mpr (hreach.trans hd)
  rw [hrow] at hq
  cases hq
  exact List.le_of_mem_argmax (f := fun m : E × E × S => toLex (m.2.2, m.1))
    ((hrows d p s).mpr ⟨hmem, hp⟩) hm

/-- **Where a walk closes a loop**, the newest move of the loop keeps no parent, and is reported
with the loop. -/
theorem rootLoop_spec (kept : Table E E) (rooted : List (RootedStream E S)) (hnd : walk.Nodup)
    (hin : at_ ∈ walk)
    (hchain : (walk ++ [at_]).IsChain (Names all)) :
    ∃ q, q.Closes all ∧ q.stream ∈ walk ∧ ReflTransGen (Names all) at_ q.stream ∧
      rootLoop all walk at_ kept rooted = (kept.erase q.stream, rooted ++ [q]) := by
  obtain ⟨before, l, rfl, hbefore⟩ := List.eq_append_cons_of_mem hin
  have hmembers : (before ++ at_ :: l).drop ((before ++ at_ :: l).idxOf at_) = at_ :: l := by
    rw [List.idxOf_append_of_notMem hbefore, List.idxOf_cons_self, Nat.add_zero,
      List.drop_left]
  have hloop : (at_ :: l ++ [at_]).IsChain (Names all) := by
    rw [List.append_assoc] at hchain
    exact hchain.right_of_append
  have hndl : (at_ :: l).Nodup := (List.nodup_append.mp hnd).2.1
  let rows := (at_ :: l).filterMap fun n => (all.find n).map fun r => (n, r)
  have hrows (n p : E) (s : S) : (n, p, s) ∈ rows ↔ n ∈ at_ :: l ∧ all.find n = some (p, s) := by
    show (n, p, s) ∈ (at_ :: l).filterMap _ ↔ _
    rw [List.mem_filterMap]
    constructor
    · rintro ⟨n', hn', hr⟩
      obtain ⟨r, hr, heq⟩ := Option.map_eq_some_iff.mp hr
      cases heq
      exact ⟨hn', hr⟩
    · rintro ⟨hn, hr⟩
      exact ⟨n, hn, by rw [hr]; rfl⟩
  cases hmax : rows.argmax fun m => toLex (m.2.2, m.1) with
  | none =>
    -- the first of the loop has a row
    have hat : OnLoop all at_ := reach_end hloop List.mem_cons_self
    obtain ⟨p, s, hs⟩ := hat.exists_row
    have hmem := (hrows at_ p s).mpr ⟨List.mem_cons_self, hs⟩
    rw [List.argmax_eq_none.mp hmax] at hmem
    cases hmem
  | some m =>
    obtain ⟨root, parent, stamp⟩ := m
    have hnew := newest_of_argmax hrows hloop (Option.mem_def.mpr hmax)
    obtain ⟨hroot, hrow⟩ := (hrows root parent stamp).mp (List.argmax_mem hmax)
    obtain ⟨p, q, hpq, hp⟩ := List.eq_append_cons_of_mem hroot
    have hpos : (at_ :: l).idxOf root = p.length := by
      rw [hpq, List.idxOf_append_of_notMem hp, List.idxOf_cons_self, Nat.add_zero]
    have hperm : (root :: (q ++ p)).Perm (at_ :: l) := by
      rw [hpq]
      exact (List.perm_append_comm : (root :: q ++ p).Perm (p ++ root :: q))
    refine ⟨⟨root, parent, stamp, root :: (q ++ p) ++ [root]⟩, ⟨hnew, hrow, ?_, ?_, ?_⟩,
      List.mem_append_right _ hroot, ?_, ?_⟩
    · have hrotate := isChain_rotate hloop hpq
      simpa using hrotate
    · exact ⟨q ++ p, rfl, hperm.nodup_iff.mpr hndl⟩
    · intro n
      have hreach := (mem_closed_walk names_rightUnique hloop).mp hroot
      have hback := reach_back names_rightUnique (a := at_) (reach_end hloop List.mem_cons_self)
        hreach
      have hmem : n ∈ root :: (q ++ p) ++ [root] ↔ n ∈ at_ :: l := by
        rw [← hperm.mem_iff, List.mem_append, List.mem_singleton, List.mem_cons]
        tauto
      rw [hmem, mem_closed_walk names_rightUnique hloop]
      exact ⟨hback.trans, hreach.trans⟩
    · exact (mem_closed_walk names_rightUnique hloop).mp hroot
    · unfold rootLoop
      rw [hmembers]
      show (match rows.argmax fun m => toLex (m.2.2, m.1) with
        | some (root, parent, stamp) => _
        | none => _) = _
      rw [hmax]
      show (_, _ ++ [RootedStream.mk root parent stamp ((at_ :: l).drop ((at_ :: l).idxOf root) ++
        (at_ :: l).take ((at_ :: l).idxOf root) ++ [root])]) = _
      rw [hpos, hpq, List.drop_left, List.take_left]
      simp

end Closing

/-! ### The walks from every stream -/

section Resolve

variable {E S : Type*} [LinearOrder E] [LinearOrder S] {all : Table E (E × S)}
  {st : Resolving E S} {start c : E}

/-- The walk over a stream is over. -/
def Resolving.Done (st : Resolving E S) (c : E) : Prop := st.mark.find c = some .done

/-- **What the walks so far have come to**: among the streams done with, the newest move of every
loop keeps no parent and is reported, and no other. -/
structure Resolved (all : Table E (E × S)) (st : Resolving E S) : Prop where
  unwalked : ∀ n, st.mark.find n ≠ some .walking
  closed : ∀ c p, st.Done c → Names all c p → st.Done p
  kept : ∀ c p, st.kept.find c = some p ↔ Names all c p ∧ ¬ (st.Done c ∧ Newest all c)
  rooted : ∀ q ∈ st.rooted, st.Done q.stream ∧ q.Closes all
  complete : ∀ c, st.Done c → Newest all c → ∃ q ∈ st.rooted, q.stream = c
  nodup : (st.rooted.map RootedStream.stream).Nodup

theorem find_foldl_done (walk : List E) (mark : Table E Mark) (n : E) :
    (walk.foldl (fun mark n => mark.upsert n .done) mark).find n =
      if n ∈ walk then some .done else mark.find n := by
  induction walk generalizing mark with
  | nil => simp
  | cons m walk ih =>
    rw [List.foldl_cons, ih, Table.find_upsert]
    by_cases hn : n ∈ walk
    · simp [hn]
    · by_cases hm : n = m <;> simp [hn, hm]

theorem Resolved.done_of_reach (h : Resolved all st) {d : E} (hc : st.Done c)
    (hcd : ReflTransGen (Names all) c d) : st.Done d :=
  mem_of_closed (fun x y hx hxy => h.closed x y hx hxy) hc hcd

theorem Resolved.not_onLoop (h : Resolved all st) {walk : List E} {at_ : E}
    {out : Table E Mark × List E × Option E} (hout : Walked all st.mark walk at_ out)
    (hnone : out.2.2 = none) (hc : c ∈ out.2.1) : ¬ OnLoop all c := by
  intro hloop
  obtain ⟨z, hcz, hz⟩ := hout.leads hnone c hc
  rcases hz with hroot | hdone
  · obtain ⟨p, hp, -⟩ := TransGen.head'_iff.mp (hloop.of_reach hcz)
    exact hroot p hp
  · have hback := h.done_of_reach (c := z) hdone (reach_back names_rightUnique hloop hcz)
    have hwalking := (hout.walking c).mpr hc
    rw [(hout.done c).mpr hback] at hwalking
    cases hwalking

theorem done_resolveStart {out : Table E Mark × List E × Option E}
    (hout : walkFrom all st.mark [] start = out) (hspec : Walked all st.mark [] start out) :
    (resolveStart all st start).Done c ↔ c ∈ out.2.1 ∨ st.Done c := by
  have hmark : (resolveStart all st start).mark =
      out.2.1.foldl (fun mark n => mark.upsert n .done) out.1 := by
    unfold resolveStart
    rw [hout]
  unfold Resolving.Done
  rw [hmark, find_foldl_done, ← hspec.done c]
  by_cases hc : c ∈ out.2.1 <;> simp [hc]

/-- **The walk from one stream** keeps what the walks have come to, and is done with the stream. -/
theorem Resolved.step (h : Resolved all st) (start : E) :
    Resolved all (resolveStart all st start) ∧ (resolveStart all st start).Done start ∧
      ∀ c, st.Done c → (resolveStart all st start).Done c := by
  have hspec : Walked all st.mark [] start (walkFrom all st.mark [] start) := by
    refine walkFrom_spec (fun n => ?_) List.nodup_nil (List.isChain_singleton _)
    exact iff_of_false (h.unwalked n) List.not_mem_nil
  rcases hout : walkFrom all st.mark [] start with ⟨mark, walk, closes⟩
  rw [hout] at hspec
  have hdone (c : E) : (resolveStart all st start).Done c ↔ c ∈ walk ∨ st.Done c :=
    done_resolveStart hout hspec
  have hunwalked (n : E) : (resolveStart all st start).mark.find n ≠ some .walking := by
    have hmark : (resolveStart all st start).mark =
        walk.foldl (fun mark n => mark.upsert n .done) mark := by
      unfold resolveStart
      rw [hout]
    rw [hmark, find_foldl_done]
    by_cases hn : n ∈ walk
    · simp [hn]
    · rw [if_neg hn]
      exact fun hw => hn ((hspec.walking n).mp hw)
  have hclosed (c p : E) (hc : (resolveStart all st start).Done c) (hp : Names all c p) :
      (resolveStart all st start).Done p := by
    rw [hdone] at hc ⊢
    rcases hc with hc | hc
    · exact hspec.next c hc p hp
    · exact .inr (h.closed c p hc hp)
  have hdisjoint (c : E) (hc : c ∈ walk) : ¬ st.Done c := fun hd => by
    have hw := (hspec.walking c).mpr hc
    rw [(hspec.done c).mpr hd] at hw
    cases hw
  refine ⟨?_, (hdone start).mpr hspec.start, fun c hc => (hdone c).mpr (.inr hc)⟩
  cases closes with
  | none =>
    -- no loop: nothing is set aside
    have hnot (c : E) (hc : c ∈ walk) : ¬ Newest all c := fun hn =>
      h.not_onLoop hspec rfl hc hn.1
    have hkept : (resolveStart all st start).kept = st.kept := by
      unfold resolveStart
      rw [hout]
    have hrooted : (resolveStart all st start).rooted = st.rooted := by
      unfold resolveStart
      rw [hout]
    refine ⟨hunwalked, hclosed, fun c p => ?_, fun q hq => ?_, fun c hc hn => ?_, ?_⟩
    · rw [hkept, h.kept, hdone]
      have := hnot c
      tauto
    · rw [hrooted] at hq
      exact ⟨(hdone _).mpr (.inr (h.rooted q hq).1), (h.rooted q hq).2⟩
    · rw [hrooted]
      rcases (hdone c).mp hc with hc | hc
      · exact absurd hn (hnot c hc)
      · exact h.complete c hc hn
    · rw [hrooted]
      exact h.nodup
  | some at_ =>
    obtain ⟨hin, hchain⟩ := hspec.loop at_ rfl
    obtain ⟨q, hq, hqin, hatq, heq⟩ :=
      rootLoop_spec st.kept st.rooted hspec.nodup hin hchain
    have hkept : (resolveStart all st start).kept = st.kept.erase q.stream := by
      unfold resolveStart
      rw [hout]
      exact congrArg Prod.fst heq
    have hrooted : (resolveStart all st start).rooted = st.rooted ++ [q] := by
      unfold resolveStart
      rw [hout]
      exact congrArg Prod.snd heq
    -- of the streams walked over, the newest move of a loop is that of this one
    have hnewest (c : E) (hc : c ∈ walk) (hn : Newest all c) : c = q.stream := by
      have hcat := (reach_end hchain hc).to_reflTransGen
      exact hn.unique hq.newest (hcat.trans hatq)
    refine ⟨hunwalked, hclosed, fun c p => ?_, fun r hr => ?_, fun c hc hn => ?_, ?_⟩
    · rw [hkept, Table.find_erase, hdone]
      split
      next hcq =>
        subst hcq
        have := hq.newest
        simp [hqin, this]
      next hcq =>
        rw [h.kept]
        have := hnewest c
        tauto
    · rw [hrooted, List.mem_append, List.mem_singleton] at hr
      rcases hr with hr | rfl
      · exact ⟨(hdone _).mpr (.inr (h.rooted r hr).1), (h.rooted r hr).2⟩
      · exact ⟨(hdone _).mpr (.inl hqin), hq⟩
    · rw [hrooted]
      rcases (hdone c).mp hc with hc | hc
      · exact ⟨q, List.mem_append_right _ (List.mem_singleton_self _), (hnewest c hc hn).symm⟩
      · obtain ⟨r, hr, heq⟩ := h.complete c hc hn
        exact ⟨r, List.mem_append_left _ hr, heq⟩
    · rw [hrooted, List.map_append, List.map_singleton, ← List.concat_eq_append]
      refine h.nodup.concat fun hmem => ?_
      obtain ⟨r, hr, heq⟩ := List.mem_map.mp hmem
      exact hdisjoint _ hqin (heq ▸ (h.rooted r hr).1)

theorem Resolved.run (h : Resolved all st) (starts : List E) :
    Resolved all (starts.foldl (resolveStart all) st) ∧
      (∀ c ∈ starts, (starts.foldl (resolveStart all) st).Done c) ∧
      ∀ c, st.Done c → (starts.foldl (resolveStart all) st).Done c := by
  induction starts generalizing st with
  | nil => exact ⟨h, fun c hc => absurd hc List.not_mem_nil, fun c hc => hc⟩
  | cons start starts ih =>
    obtain ⟨hstep, hstart, hmono⟩ := h.step start
    obtain ⟨hrun, hstarts, hmono'⟩ := ih hstep
    refine ⟨hrun, fun c hc => ?_, fun c hc => hmono' c (hmono c hc)⟩
    rcases List.mem_cons.mp hc with rfl | hc
    · exact hmono' _ hstart
    · exact hstarts c hc

end Resolve

/-! ### Every loop -/

section Forest

variable {E S : Type*} [LinearOrder E] [LinearOrder S] {all : Table E (E × S)}
  {parents : List (E × E × S)} {c p : E} {s : S}

/-- The streams with their parents and stamps. -/
def entries (all : Table E (E × S)) : List (E × E × S) :=
  all.rows.map fun r => (r.1, r.2.1, r.2.2)

omit [LinearOrder S] in
theorem find_parentMap (hnd : (parents.map Prod.fst).Nodup) :
    (parentMap parents).find c = some (p, s) ↔ (c, p, s) ∈ parents := by
  have hrun (parents : List (E × E × S)) (hnd : (parents.map Prod.fst).Nodup)
      (t : Table E (E × S)) (ht : ∀ c ∈ parents.map Prod.fst, t.find c = none) :
      (parents.foldl (fun all t => all.upsert t.1 t.2) t).find c = some (p, s) ↔
        (c, p, s) ∈ parents ∨ t.find c = some (p, s) := by
    induction parents generalizing t with
    | nil => simp
    | cons e parents ih =>
      obtain ⟨hnot, hnd⟩ := List.nodup_cons.mp hnd
      rw [List.foldl_cons, ih hnd, Table.find_upsert, List.mem_cons]
      · split
        next hc =>
          have hnone := ht c (by simp [hc])
          rw [hnone]
          obtain ⟨c', r⟩ := e
          subst hc
          simp [eq_comm, or_comm]
        next hc =>
          have hne : (c, p, s) ≠ e := fun heq => hc (congrArg Prod.fst heq)
          simp [hne]
      · intro c' hc'
        have hne : c' ≠ e.1 := fun heq => hnot (heq ▸ hc')
        rw [Table.find_upsert_of_ne _ _ hne]
        exact ht c' (List.mem_cons_of_mem _ hc')
  rw [parentMap, hrun parents hnd ∅ fun c _ => rfl]
  simp

omit [LinearOrder S] in
theorem parentMap_eq (h : parents.Perm (entries all)) : parentMap parents = all := by
  have hkeys : (entries all).map Prod.fst = all.rows.map Prod.fst := by
    unfold entries
    rw [List.map_map]
    rfl
  have hnd : (parents.map Prod.fst).Nodup := by
    rw [(h.map Prod.fst).nodup_iff, hkeys]
    exact List.pairwise_map.mpr (all.sorted.imp ne_of_lt)
  refine Table.ext_some fun c ⟨p, s⟩ => ?_
  rw [find_parentMap hnd, h.mem_iff, ← Table.mem_rows (r := (c, p, s))]
  unfold entries
  rw [List.mem_map]
  constructor
  · rintro ⟨r, hr, heq⟩
    cases heq
    exact hr
  · exact fun hr => ⟨_, hr, rfl⟩

theorem OnLoop.exists_newest (h : OnLoop all c) :
    ∃ d, ReflTransGen (Names all) c d ∧ Newest all d := by
  classical
  let rows := all.rows.filter fun r => decide (ReflTransGen (Names all) c r.1)
  have hrows (d p : E) (s : S) : (d, p, s) ∈ rows ↔
      all.find d = some (p, s) ∧ ReflTransGen (Names all) c d := by
    rw [List.mem_filter, Table.mem_rows, decide_eq_true_iff]
  cases hmax : rows.argmax fun r => toLex (r.2.2, r.1) with
  | none =>
    obtain ⟨p, s, hs⟩ := h.exists_row
    have hmem := (hrows c p s).mpr ⟨hs, .refl⟩
    rw [List.argmax_eq_none.mp hmax] at hmem
    cases hmem
  | some r =>
    obtain ⟨d, p, s⟩ := r
    obtain ⟨hrow, hcd⟩ := (hrows d p s).mp (List.argmax_mem hmax)
    refine ⟨d, hcd, h.of_reach hcd, fun e p' q s' t hde hp hq => ?_⟩
    rw [hrow] at hq
    cases hq
    exact List.le_of_mem_argmax (f := fun r : E × E × S => toLex (r.2.2, r.1))
      ((hrows e p' s').mpr ⟨hp, hcd.trans hde⟩) hmax

theorem resolved_start : Resolved all ⟨∅, all.mapValues fun _ r => r.1, []⟩ where
  unwalked n h := by cases h
  closed c p h := by cases h
  kept c p := by
    have hdone : ¬ Resolving.Done (S := S) ⟨∅, all.mapValues fun _ r => r.1, []⟩ c := by
      intro h
      cases h
    rw [Table.find_mapValues, Option.map_eq_some_iff]
    constructor
    · rintro ⟨r, hr, rfl⟩
      exact ⟨⟨r.2, hr⟩, fun h => hdone h.1⟩
    · rintro ⟨⟨s, hs⟩, -⟩
      exact ⟨_, hs, rfl⟩
  rooted q hq := by cases hq
  complete c h := by cases h
  nodup := List.nodup_nil

section Done

variable {st : Resolving E S} (h : Resolved all st) (hdone : ∀ c, OnLoop all c → st.Done c)

include h hdone

theorem Resolved.find_kept_eq_some : st.kept.find c = some p ↔ Names all c p ∧ ¬ Newest all c := by
  rw [h.kept]
  have := fun hn : Newest all c => hdone c hn.1
  tauto

/-- A stream keeps its parent but where it is the newest move of a loop. -/
theorem Resolved.find_kept (hc : ¬ Newest all c) :
    st.kept.find c = (all.find c).map Prod.fst := by
  ext p
  rw [h.find_kept_eq_some hdone, Option.map_eq_some_iff]
  constructor
  · rintro ⟨⟨s, hs⟩, -⟩
    exact ⟨_, hs, rfl⟩
  · rintro ⟨r, hr, rfl⟩
    exact ⟨⟨r.2, hr⟩, hc⟩

theorem Resolved.find_kept_eq_none (hc : OnLoop all c) :
    st.kept.find c = none ↔ Newest all c := by
  constructor
  · intro hnone
    by_contra hn
    obtain ⟨p, s, hs⟩ := hc.exists_row
    rw [h.find_kept hdone hn, hs] at hnone
    cases hnone
  · intro hn
    rw [Option.eq_none_iff_forall_ne_some]
    exact fun p hp => ((h.find_kept_eq_some hdone).mp hp).2 hn

/-- **No loop is left**: it would be a whole loop of the parents, but the newest move of that keeps
none. -/
theorem Resolved.acyclic : ¬ Cyclic fun c p => st.kept.find c = some p := by
  rintro ⟨c, hc⟩
  have hsub (x y : E) (hxy : st.kept.find x = some y) : Names all x y :=
    ((h.find_kept_eq_some hdone).mp hxy).1
  have hloop : OnLoop all c := TransGen.mono hsub c c hc
  obtain ⟨d, hcd, hd⟩ := hloop.exists_newest
  have hclosed (x y : E) (hx : TransGen (fun c p => st.kept.find c = some p) x x)
      (hxy : Names all x y) : TransGen (fun c p => st.kept.find c = some p) y y := by
    obtain ⟨z, hxz, hzx⟩ := TransGen.head'_iff.mp hx
    rw [names_rightUnique hxy (hsub x z hxz)]
    exact TransGen.tail'_iff.mpr ⟨x, hzx, hxz⟩
  have hdd := mem_of_closed (S := fun x => TransGen (fun c p => st.kept.find c = some p) x x)
    hclosed hc hcd
  obtain ⟨z, hdz, -⟩ := TransGen.head'_iff.mp hdd
  exact ((h.find_kept_eq_some hdone).mp hdz).2 hd

end Done

theorem resolveParentCycles_eq (h : parents.Perm (entries all)) :
    ∃ st, Resolved all st ∧ (∀ c ∈ all.rows.map Prod.fst, st.Done c) ∧
      resolveParentCycles parents =
        (st.kept, st.rooted.insertionSort fun a b => a.stream ≤ b.stream) := by
  have hstart : Resolved all ⟨∅, all.mapValues fun _ r => r.1, []⟩ := resolved_start
  obtain ⟨hrun, hstarts, -⟩ := hstart.run (all.rows.map Prod.fst)
  refine ⟨_, hrun, hstarts, ?_⟩
  unfold resolveParentCycles
  rw [parentMap_eq h]

/-- **The parents kept are a forest**: no loop is left, every stream outside of one keeps its
parent, and of each loop the newest move alone does not. What is reported is each loop once. -/
theorem resolve_parent_cycles (h : parents.Perm (entries all)) :
    let out := resolveParentCycles parents
    ¬ Cyclic (fun c p => out.1.find c = some p) ∧
      (∀ c, ¬ OnLoop all c → out.1.find c = (all.find c).map Prod.fst) ∧
      (∀ c, OnLoop all c → (out.1.find c = none ↔ Newest all c) ∧
        (¬ Newest all c → out.1.find c = (all.find c).map Prod.fst) ∧
        ∃! d, ReflTransGen (Names all) c d ∧ Newest all d) ∧
      (out.2.map RootedStream.stream).Pairwise (· < ·) ∧
      (∀ c, c ∈ out.2.map RootedStream.stream ↔ Newest all c) ∧
      ∀ q ∈ out.2, q.Closes all := by
  obtain ⟨st, hrun, hstarts, heq⟩ := resolveParentCycles_eq h
  rw [heq]
  intro out
  have hdone (c : E) (hc : OnLoop all c) : st.Done c := by
    obtain ⟨p, s, hs⟩ := hc.exists_row
    exact hstarts c (List.mem_map.mpr ⟨(c, p, s), Table.mem_rows.mpr hs, rfl⟩)
  have hperm : out.2.Perm st.rooted :=
    List.perm_insertionSort (fun a b : RootedStream E S => a.stream ≤ b.stream) st.rooted
  have hstreams := hperm.map RootedStream.stream
  refine ⟨hrun.acyclic hdone, fun c hc => hrun.find_kept hdone fun hn => hc hn.1, fun c hc => ?_,
    ?_, fun c => ?_, fun q hq => (hrun.rooted q (hperm.mem_iff.mp hq)).2⟩
  · refine ⟨hrun.find_kept_eq_none hdone hc, hrun.find_kept hdone, ?_⟩
    obtain ⟨d, hcd, hd⟩ := hc.exists_newest
    refine ⟨d, ⟨hcd, hd⟩, fun e he => ?_⟩
    have hdc := reach_back names_rightUnique hc hcd
    exact (hd.unique he.2 (hdc.trans he.1)).symm
  · have hsorted : (out.2.map RootedStream.stream).Pairwise (· ≤ ·) := by
      rw [List.pairwise_map]
      exact List.pairwise_insertionSort _ _
    have hnd : (out.2.map RootedStream.stream).Nodup := hstreams.nodup_iff.mpr hrun.nodup
    exact (hsorted.and hnd).imp fun hlt => lt_of_le_of_ne hlt.1 hlt.2
  · rw [hstreams.mem_iff, List.mem_map]
    constructor
    · rintro ⟨q, hq, rfl⟩
      exact (hrun.rooted q hq).2.newest
    · exact fun hn => hrun.complete c (hdone c hn.1) hn

/-- Two streams nested under each other, and one under them. -/
def nestedTwice : Table ℕ (ℕ × ℕ) := ⟨[(1, 2, 5), (2, 1, 9), (3, 1, 1)], by decide⟩

theorem resolve_parent_cycles_nestedTwice :
    let out := resolveParentCycles [(2, 1, 9), (3, 1, 1), (1, 2, 5)]
    ¬ Cyclic (fun c p => out.1.find c = some p) ∧
      ∀ c, c ∈ out.2.map RootedStream.stream ↔ Newest nestedTwice c := by
  have h : [(2, 1, 9), (3, 1, 1), (1, 2, 5)].Perm (entries nestedTwice) := by decide
  obtain ⟨hacyclic, -, -, -, hrooted, -⟩ := resolve_parent_cycles h
  exact ⟨hacyclic, hrooted⟩

end Forest

/-! ### Streams as they are read -/

section Read

variable {E S : Type*} [LinearOrder E] [LinearOrder S] {all : Table E (E × S)}
  {parents : List (E × E × S)} {c : E}

/-- The streams that are read as roots. Without a loop no stamp is looked at. -/
def rootedStreams (parents : List (E × E × S)) : List (RootedStream E S) :=
  if (resolveParentCycles (parents.map fun r => (r.1, r.2.1, ()))).2.isEmpty then []
  else (resolveParentCycles parents).2

/-- The parent a stream is read with: none for a root, and none that is deleted. -/
def readParent (parents : List (E × E × S)) (deleted : E → Bool) (c : E) : Option E :=
  ((parentMap parents).find c).bind fun r =>
    if (rootedStreams parents).any fun q => q.stream = c then none
    else if deleted r.1 then none else some r.1

omit [LinearOrder S] in
theorem onLoop_unstamped : OnLoop (all.mapValues fun _ r => (r.1, ())) c ↔ OnLoop all c := by
  have hnames : Names (all.mapValues fun _ r => (r.1, ())) = Names all := by
    ext c p
    simp [Names, Table.find_mapValues]
  rw [OnLoop, hnames, OnLoop]

variable (h : parents.Perm (entries all))
include h

theorem exists_resolved : ∃ st, Resolved all st ∧ (∀ c, OnLoop all c → st.Done c) ∧
    (resolveParentCycles parents).2.Perm st.rooted := by
  obtain ⟨st, hrun, hstarts, heq⟩ := resolveParentCycles_eq h
  refine ⟨st, hrun, fun c hc => ?_, heq ▸ List.perm_insertionSort _ _⟩
  obtain ⟨p, s, hs⟩ := hc.exists_row
  exact hstarts c (List.mem_map.mpr ⟨(c, p, s), Table.mem_rows.mpr hs, rfl⟩)

theorem exists_rooted_iff :
    (∃ q ∈ (resolveParentCycles parents).2, q.stream = c) ↔ Newest all c := by
  obtain ⟨st, hrun, hdone, hperm⟩ := exists_resolved h
  simp only [hperm.mem_iff]
  constructor
  · rintro ⟨q, hq, rfl⟩
    exact (hrun.rooted q hq).2.newest
  · exact fun hn => hrun.complete c (hdone c hn.1) hn

theorem rooted_isEmpty_iff : (resolveParentCycles parents).2.isEmpty ↔ ∀ c, ¬ OnLoop all c := by
  rw [List.isEmpty_iff, List.eq_nil_iff_forall_not_mem]
  constructor
  · intro hnil c hc
    obtain ⟨d, -, hd⟩ := hc.exists_newest
    obtain ⟨q, hq, -⟩ := (exists_rooted_iff h).mpr hd
    exact hnil q hq
  · exact fun hloop q hq => hloop _ ((exists_rooted_iff h).mp ⟨q, hq, rfl⟩).1

theorem rootedStreams_eq : rootedStreams parents = (resolveParentCycles parents).2 := by
  have hperm : (parents.map fun r => (r.1, r.2.1, ())).Perm
      (entries (all.mapValues fun _ r => (r.1, ()))) := by
    refine (h.map _).trans (.of_eq ?_)
    simp [entries, Table.mapValues]
  unfold rootedStreams
  split
  next hnil =>
    rw [rooted_isEmpty_iff hperm] at hnil
    refine (List.isEmpty_iff.mp ((rooted_isEmpty_iff h).mpr fun c hc => ?_)).symm
    exact hnil c (onLoop_unstamped.mpr hc)
  next => rfl

/-- **The streams as they are read are a forest**, whatever the devices wrote: a stream has the
parent its row names, unless it is the newest move of a loop or the parent is deleted. -/
theorem readParent_forest (deleted : E → Bool) :
    ¬ Cyclic (fun c p => readParent parents deleted c = some p) ∧
      ∀ c p, readParent parents deleted c = some p ↔
        Names all c p ∧ ¬ Newest all c ∧ deleted p = false := by
  have hread (c p : E) : readParent parents deleted c = some p ↔
      Names all c p ∧ ¬ Newest all c ∧ deleted p = false := by
    rw [← exists_rooted_iff h, readParent, rootedStreams_eq h, parentMap_eq h, Names]
    cases all.find c with
    | none => simp
    | some r =>
      obtain ⟨p', s⟩ := r
      simp only [Option.bind_some, List.any_eq_true, decide_eq_true_eq]
      split
      next hroot => simp [hroot]
      next hroot => by_cases hp : p' = p <;> simp [hp, hroot]
  refine ⟨?_, hread⟩
  rintro ⟨c, hc⟩
  obtain ⟨st, hrun, hdone, -⟩ := exists_resolved h
  refine hrun.acyclic hdone ⟨c, TransGen.mono (fun x y hxy => ?_) c c hc⟩
  obtain ⟨hnames, hnew, -⟩ := (hread x y).mp hxy
  exact (hrun.find_kept_eq_some hdone).mpr ⟨hnames, hnew⟩

omit h

theorem readParent_forest_nestedTwice :
    ¬ Cyclic fun c p => readParent [(2, 1, 9), (3, 1, 1), (1, 2, 5)] (fun _ => false) c = some p :=
  (@readParent_forest _ _ _ _ nestedTwice _ (by decide) _).1

end Read

end Streams

end Sunrise
