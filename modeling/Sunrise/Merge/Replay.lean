import Sunrise.Merge.Convergence
import Sunrise.Merge.Dump

/-!
# Joining a stream's snapshot, then replaying the other streams

A replica that applied every op dumps one stream; another joins the dump and applies
the ops of the other streams. The joined state is sound for the same history, and
covers all of it but some OR-set removes: a dump attributes a remove by the tag it
removes, so the removes its own stream's ops made of other streams' tags are not in
it, and the other streams' ops do not make them either.

* `joinStreamState_eq_replay_iff` — the two replicas agree **just when** no remove is
  lost that way.
* `joinStreamState_ne_replay_of_moved` — a task that moved loses one.
-/

namespace Sunrise

open Causal

/-! ### Values an op can write -/

def Write.values : Write → List Value
  | .offer _ value => value.toList
  | .add _ element => [element]
  | .remove _ element _ => [element]
  | .delta _ _ => []
  | .entry _ _ value => [value]

/-- The values of the op are within the bound the decoder reads stored values under. -/
def Op.Readable (c : Codec) (op : Op) : Prop := ∀ w ∈ op.writes, ∀ v ∈ w.values, c.Reads v

theorem Share.stored_ofOps {c : Codec} {S : Set Op} (h : ∀ o ∈ S, o.Readable c) :
    (Share.ofOps c S).Stored c := by
  constructor
  · intro field m hm b hb
    obtain ⟨o, ho, hmem⟩ := mem_members_ofOps.mp hm
    obtain ⟨v, hv, rfl⟩ := Option.map_eq_some_iff.mp hmem
    obtain ⟨w, hw, hoff⟩ := List.exists_of_findSome?_eq_some hv
    obtain ⟨val, rfl, rfl⟩ := Option.map_eq_some_iff.mp hb
    cases w with
    | offer g value =>
      simp only [Op.offered] at hoff
      split at hoff
      · exact h o ho _ hw val (by simp [Write.values, Option.some.inj hoff])
      · simp at hoff
    | _ => simp [Op.offered] at hoff
  · intro k row hrow
    obtain ⟨o, ho, hent⟩ := mem_entries_ofOps.mp hrow
    obtain ⟨v, hv, rfl⟩ := Option.map_eq_some_iff.mp hent
    obtain ⟨w, hw, hput⟩ := List.exists_of_findSome?_eq_some hv
    cases w with
    | entry field key value =>
      simp only [Op.put] at hput
      split at hput
      · exact h o ho _ (List.mem_reverse.mp hw) v (by simp [Write.values, Option.some.inj hput])
      · simp at hput
    | _ => simp [Op.put] at hput
  · intro k hlc hk
    obtain ⟨o, ho, ⟨field, element, hw, rfl⟩, -⟩ := mem_adds_ofOps.mp hk
    exact h o ho _ hw element (by simp [Write.values])
  · intro k hk
    obtain ⟨o, ho, field, element, tag, hw, rfl⟩ := mem_removes_ofOps.mp hk
    exact h o ho _ hw element (by simp [Write.values])

/-! ### One entity -/

theorem Entity.CoveredButRemoves.rows_of_ops {c : Codec} {kind : EntityKind} {U : Share}
    {W : Set Op} {e f : Entity} {p : OpRef → Prop} (h : e.Sound c kind (.ofOps c W))
    (hcov : ∀ o ∈ W, p o.stamp.opRef → f.CoveredButRemoves U (o.share c)) :
    f.CoveredButRemoves U (e.rows p) := by
  refine ⟨fun b hb => hb.elim, ?_, fun s dev a hs => hs.elim, ?_, ?_, ?_, ?_⟩
  · rintro s ⟨v, ⟨hop, b, hv⟩, rfl⟩
    obtain ⟨v', hv', hop', hrow⟩ := h.dag.rows _ _ hv
    obtain ⟨o, ho, rfl⟩ := Share.mem_versions_ofOps.mp hv'
    have hstamp : o.version.stamp = v.stamp :=
      Stamp.eq_of_opRef_of_hlc hop' (congrArg VersionRow.hlc hrow).symm
    have hopo : p o.stamp.opRef := by
      rw [← Op.stamp_version, hop']
      exact hop
    exact (hcov o ho hopo).held ⟨o.version, rfl, hstamp⟩
  · rintro field m ⟨hop, hm⟩
    obtain ⟨o, ho, hmem⟩ := Share.mem_members_ofOps.mp (h.regs.written field m hm)
    exact (hcov o ho (Op.stamp_of_member hmem ▸ hop)).regs field m hmem
  · rintro k row ⟨hop, hr⟩
    obtain ⟨o, ho, hent⟩ := Share.mem_entries_ofOps.mp (h.maps k row hr)
    exact (hcov o ho (Op.stamp_of_entry hent ▸ hop)).maps k row hent
  · rintro k hlc ⟨hop, hk⟩
    obtain ⟨o, ho, hadds, rfl⟩ := Share.mem_adds_ofOps.mp (h.adds k hlc hk).1
    exact (hcov o ho (Op.tag_of_adds hadds ▸ hop)).adds k _ ⟨hadds, rfl⟩
  · rintro k row ⟨hop, hr⟩
    obtain ⟨o, ho, href, hn⟩ := Share.mem_deltas_ofOps.mp (h.deltas k row hr).1
    exact (hcov o ho (href ▸ hop)).deltas k row ⟨href, hn⟩

section

variable {c : Codec} {kind : EntityKind} {all rest : List Op} {S : StreamId} {e : Entity}
  (hW : DistinctOps {o | o ∈ all}) (hread : ∀ o ∈ all, o.Readable c)
  (hkind : ∀ o ∈ all, o.target.kind = kind)
  (hrest : ∀ o, o ∈ rest ↔ o ∈ all ∧ o.stamp.stream ≠ S)
  (h : e.Sound c kind (.ofOps c {o | o ∈ all}))

include hkind hrest

theorem kind_of_mem_rest : ∀ o ∈ rest, o.target.kind = kind :=
  fun o ho => hkind o ((hrest o).mp ho).1

omit hkind in
theorem share_le_of_mem_rest : ∀ o ∈ rest, o.share c ≤ .ofOps c {o | o ∈ all} :=
  fun o ho => Share.le_ofOps ((hrest o).mp ho).1

include hW hread h

theorem Entity.Covered.replay
    (hc : e.Covered (.ofOps c {o | o ∈ all}) (.ofOps c {o | o ∈ all})) :
    (Entity.foldOps c rest (Entity.joinDoc c (dumpEntity (.stream S) e) ∅)).CoveredButRemoves
      (.ofOps c {o | o ∈ all}) (.ofOps c {o | o ∈ all}) := by
  have hU : (Share.ofOps c {o | o ∈ all}).Ordered := Share.ordered_ofOps hW all.finite_toSet
  have hstored : (Share.ofOps c {o | o ∈ all}).Stored c := Share.stored_ofOps hread
  have hops := share_le_of_mem_rest (c := c) hrest
  have hkind' := kind_of_mem_rest hkind hrest
  have hstart : (Entity.joinDoc c (dumpEntity (.stream S) e) ∅).Sound c kind
      (.ofOps c {o | o ∈ all}) :=
    (sound_empty c kind _).joinDoc hU.toWellFormed hstored fun d hd => h.dump hd
  have hfold : ∀ o ∈ rest, _ := fun o ho =>
    (hstart.covered_foldOps hU.toWellFormed hops hkind' ho).toCoveredButRemoves
  refine CoveredButRemoves.sUnion ?_
  rintro P ⟨o, ho, rfl⟩
  by_cases hS : o.stamp.stream = S
  · -- an op of the stream: its version is in scope, so the entity is in the dump
    obtain ⟨k, m, hb, -⟩ := hc.book o.book (Share.mem_books_ofOps.mpr ⟨o, ho, rfl⟩)
    have hheld : o.stamp ∈ e.dag.held :=
      hc.held ⟨o.version, Share.mem_versions_ofOps.mpr ⟨o, ho, rfl⟩, Op.stamp_version o⟩
    obtain ⟨r, hr, -⟩ := Dag.mem_held_iff.mp hheld
    have hdump : dumpEntity (.stream S) e = some (dumpRows (.stream S) k m e) :=
      dumpEntity_of_version hb hr (by simpa [Scope.writtenBy] using hS)
    rw [hdump] at hstart hfold ⊢
    have hdoc := (((sound_empty c kind _).covered_join hU.toWellFormed hstored
      (h.dump hdump)).toCoveredButRemoves).foldOps hU.toWellFormed hstart hops hkind'
    refine CoveredButRemoves.trans h
      (hc.toCoveredButRemoves.mono (Share.le_ofOps (c := c) ho)) (hdoc.rows_of_dump ?_) ?_
      fun s dev a hs => hs.elim
    · refine CoveredButRemoves.rows_of_ops h fun o' ho' hscope => hfold o' ?_
      exact (hrest o').mpr ⟨ho', by simpa [Scope.writtenBy] using hscope⟩
    · intro k' m' hb'
      rw [hb] at hb'
      obtain ⟨-, rfl⟩ := Prod.mk.inj (Option.some.inj hb')
      exact hdoc.book m rfl
  · exact hfold o ((hrest o).mpr ⟨ho, hS⟩)

theorem Entity.Sound.removes_replay
    (hc : e.Covered (.ofOps c {o | o ∈ all}) (.ofOps c {o | o ∈ all})) (k : TagKey) :
    (Entity.foldOps c rest
      (Entity.joinDoc c (dumpEntity (.stream S) e) ∅)).removes.find k = some () ↔
      (TagKey.tag k).stream = S ∧ (∃ o ∈ all, o.Removes c k) ∨ ∃ o ∈ rest, o.Removes c k := by
  have hU : (Share.ofOps c {o | o ∈ all}).Ordered := Share.ordered_ofOps hW all.finite_toSet
  have hstored : (Share.ofOps c {o | o ∈ all}).Stored c := Share.stored_ofOps hread
  have hops := share_le_of_mem_rest (c := c) hrest
  have hkind' := kind_of_mem_rest hkind hrest
  constructor
  · -- the share of the document and the replayed ops has no other remove
    let V : Share := { Share.ofOps c {o | o ∈ all} with
      removes := {k | (TagKey.tag k).stream = S ∧ (∃ o ∈ all, o.Removes c k) ∨
        ∃ o ∈ rest, o.Removes c k} }
    have hV : V.WellFormed :=
      ⟨hU.valid, hU.held, hU.member, hU.finite, hU.entry, hU.add, hU.delta, hU.floor⟩
    have hVstored : V.Stored c := by
      refine ⟨hstored.members, hstored.entries, hstored.adds, fun k hk => ?_⟩
      refine hstored.removes k (Share.mem_removes_ofOps.mpr ?_)
      rcases hk with ⟨-, o, ho, hr⟩ | ⟨o, ho, hr⟩
      · exact ⟨o, ho, hr⟩
      · exact ⟨o, ((hrest o).mp ho).1, hr⟩
    have hVdoc : ∀ d, dumpEntity (.stream S) e = some d → d.Sound c kind V := by
      intro d hd
      have hsound := h.dump hd
      refine ⟨hsound.sameKind, hsound.book, hsound.versions, hsound.frontier, hsound.members,
        hsound.held, hsound.legacy, hsound.maps, hsound.adds, fun k hk => .inl ?_, hsound.deltas⟩
      refine ⟨?_, Share.mem_removes_ofOps.mp (hsound.removes k hk)⟩
      obtain ⟨k', m, -, rfl⟩ := dumpEntity_eq_some hd
      simpa [Scope.removes] using (mem_removes_dumpRows.mp hk).2
    have hVops : ∀ o ∈ rest, o.share c ≤ V := fun o ho =>
      ⟨(hops o ho).versions, (hops o ho).seen, (hops o ho).merged, (hops o ho).members,
        (hops o ho).entries, (hops o ho).adds, fun k hk => .inr ⟨o, ho, hk⟩, (hops o ho).deltas,
        (hops o ho).books⟩
    exact (((sound_empty c kind V).joinDoc hV hVstored hVdoc).foldOps hV hVops hkind').removes k
  · have hstart : (Entity.joinDoc c (dumpEntity (.stream S) e) ∅).Sound c kind
        (.ofOps c {o | o ∈ all}) :=
      (sound_empty c kind _).joinDoc hU.toWellFormed hstored fun d hd => h.dump hd
    rintro (⟨htag, o, ho, hr⟩ | ⟨o, ho, hr⟩)
    · -- the entity has the remove, so it is in the dump
      have hfind := hc.removes k (Share.mem_removes_ofOps.mpr ⟨o, ho, hr⟩)
      obtain ⟨kd, m, hb, -⟩ := hc.book o.book (Share.mem_books_ofOps.mpr ⟨o, ho, rfl⟩)
      have hmem : k ∈ (dumpRows (.stream S) kd m e).removes :=
        mem_removes_dumpRows.mpr ⟨hfind, by simpa [Scope.removes] using htag⟩
      have hdump : dumpEntity (.stream S) e = some (dumpRows (.stream S) kd m e) :=
        dumpEntity_of_remove hb hmem
      rw [hdump] at hstart ⊢
      exact (((sound_empty c kind _).covered_join hU.toWellFormed hstored (h.dump hdump)).foldOps
        hU.toWellFormed hstart hops hkind').removes k hmem
    · exact (hstart.covered_foldOps hU.toWellFormed hops hkind' ho).removes k hr

end

/-! ### The whole state -/

def joinThenReplay (c : Codec) (S : StreamId) (full : Store) (rest : List Op) : Store :=
  mergeOps c (joinStreamState c (fun _ => ∅) (dumpStreamState S full)) rest

theorem joinThenReplay_apply (c : Codec) (S : StreamId) (full : Store) (rest : List Op) (id : Id) :
    joinThenReplay c S full rest id = Entity.foldOps c (opsOf id rest)
      (Entity.joinDoc c (dumpEntity (.stream S) (full id)) ∅) := by
  rw [joinThenReplay, mergeOps_apply, joinStreamState_apply]
  rfl

/-- **Joining a stream's snapshot and replaying the rest is the full replay just when
the dump and the rest carry every remove**: each remove an op of the stream makes is of
a tag of the stream, or an op of another stream makes it of the same entity too. -/
theorem joinStreamState_eq_replay_iff (c : Codec) (s : Serde) (ops rest : List Op) (S : StreamId)
    (hU : DistinctOps {o | o ∈ ops}) (hkind : OneKind ops) (hread : ∀ o ∈ ops, o.Readable c)
    (hrest : ∀ o, o ∈ rest ↔ o ∈ ops ∧ o.stamp.stream ≠ S) :
    let full := mergeOps c (fun _ => ∅) ops
    let joined := joinThenReplay c S full rest
    (joined = full ∧ ∀ id, projection c s joined id = projection c s full id) ↔
      ∀ o ∈ ops, o.stamp.stream = S → ∀ k, o.Removes c k →
        (TagKey.tag k).stream = S ∨
          ∃ o' ∈ rest, o'.target.id = o.target.id ∧ o'.Removes c k := by
  intro full joined
  have happly : ∀ id, joined id = Entity.foldOps c (opsOf id rest)
      (Entity.joinDoc c (dumpEntity (.stream S) (full id)) ∅) :=
    joinThenReplay_apply c S full rest
  have hrestOf : ∀ id o, o ∈ opsOf id rest ↔ o ∈ opsOf id ops ∧ o.stamp.stream ≠ S := by
    intro id o
    rw [mem_opsOf, mem_opsOf, hrest, and_right_comm]
  have hreadOf : ∀ id, ∀ o ∈ opsOf id ops, o.Readable c := fun id o ho =>
    hread o (mem_opsOf.mp ho).1
  -- the removes of each entity, after the full replay and after the join
  have hfull : ∀ id k, (full id).removes.find k = some () ↔ ∃ o ∈ opsOf id ops, o.Removes c k := by
    intro id k
    obtain ⟨kind, hk⟩ := hkind.exists_kind id
    obtain ⟨h, hc⟩ := sound_mergeOps (c := c) hU (fun _ => Iff.rfl) hk
    rw [h.removes_find_iff hc.removes, Share.mem_removes_ofOps]
    rfl
  have hjoined : ∀ id k, (joined id).removes.find k = some () ↔
      (TagKey.tag k).stream = S ∧ (∃ o ∈ opsOf id ops, o.Removes c k) ∨
        ∃ o ∈ opsOf id rest, o.Removes c k := by
    intro id k
    obtain ⟨kind, hk⟩ := hkind.exists_kind id
    obtain ⟨h, hc⟩ := sound_mergeOps (c := c) hU (fun _ => Iff.rfl) hk
    rw [happly]
    exact h.removes_replay (hU.folded id) (hreadOf id) hk (hrestOf id) hc k
  constructor
  · rintro ⟨heq, -⟩ o ho hS k hr
    have hin : (joined o.target.id).removes.find k = some () := by
      rw [heq]
      exact (hfull _ k).mpr ⟨o, mem_opsOf.mpr ⟨ho, rfl⟩, hr⟩
    rcases (hjoined _ k).mp hin with ⟨htag, -⟩ | ⟨o', ho', hr'⟩
    · exact .inl htag
    · exact .inr ⟨o', (mem_opsOf.mp ho').1, (mem_opsOf.mp ho').2, hr'⟩
  · intro hremoves
    have heq : joined = full := by
      funext id
      obtain ⟨kind, hk⟩ := hkind.exists_kind id
      obtain ⟨h, hc⟩ := sound_mergeOps (c := c) hU (fun _ => Iff.rfl) hk
      have hord := ordered_folded hU c id
      have hops : ∀ o ∈ opsOf id rest, o.share c ≤ foldedShare c ops id := fun o ho =>
        Share.le_ofOps ((hrestOf id o).mp ho).1
      have hsound : (joined id).Sound c kind (foldedShare c ops id) := by
        rw [happly]
        exact ((Entity.sound_empty c kind _).joinDoc hord.toWellFormed
          (Share.stored_ofOps (hreadOf id)) fun d hd => h.dump hd).foldOps hord.toWellFormed hops
            fun o ho => hk o ((hrestOf id o).mp ho).1
      have hcov : (joined id).CoveredButRemoves (foldedShare c ops id) (foldedShare c ops id) := by
        rw [happly]
        exact Entity.Covered.replay (hU.folded id) (hreadOf id) hk (hrestOf id) h hc
      refine hsound.unique hord h ⟨hcov, fun k hk' => ?_⟩ hc
      obtain ⟨o, ho, hr⟩ := Share.mem_removes_ofOps.mp hk'
      rw [hjoined]
      by_cases hS : o.stamp.stream = S
      · rcases hremoves o (mem_opsOf.mp ho).1 hS k hr with htag | ⟨o', ho', hid, hr'⟩
        · exact .inl ⟨htag, o, ho, hr⟩
        · exact .inr ⟨o', mem_opsOf.mpr ⟨ho', hid.trans (mem_opsOf.mp ho).2⟩, hr'⟩
      · exact .inr ⟨o, (hrestOf id o).mpr ⟨ho, hS⟩, hr⟩
    exact ⟨heq, fun id => by rw [heq]⟩

/-- Device 1 creates a task in stream 7, in a context. -/
def taskInContext : Op where
  target := ⟨.task, 1⟩
  stamp := ⟨⟨1, 0⟩, 1, 1, 7⟩
  body := .patch true false (some []) none [("contexts", .edit [.text "home"] [])]

def taskRenameMoved : Op where
  target := ⟨.task, 1⟩
  stamp := ⟨⟨2, 0⟩, 1, 1, 8⟩
  body := .patch false false (some [taskInContext.stamp.opRef]) none
    [("title", .set (.text "b"))]

/-- It takes the task out of the context once it has moved to stream 8. -/
def taskLeaveContext : Op where
  target := ⟨.task, 1⟩
  stamp := ⟨⟨2, 0⟩, 1, 1, 8⟩
  body := .patch false false (some [taskInContext.stamp.opRef]) none
    [("contexts", .edit [] [(.text "home", [taskInContext.stamp.opRef])])]

theorem joinStreamState_eq_replay_of_rename :
    let full := mergeOps .short (fun _ => ∅) [taskInContext, taskRenameMoved]
    joinThenReplay .short 8 full [taskInContext] = full := by
  have h := joinStreamState_eq_replay_iff .short .sample [taskInContext, taskRenameMoved]
    [taskInContext] 8 (distinctOps_of_nodup (by decide)) (by unfold OneKind; decide)
    (by unfold Op.Readable; decide) (by
      intro o
      simp only [List.mem_cons, List.not_mem_nil, or_false]
      constructor
      · rintro rfl
        exact ⟨.inl rfl, by decide⟩
      · rintro ⟨rfl | rfl, hne⟩
        · rfl
        · exact absurd rfl hne)
  refine (h.mpr ?_).1
  rintro o ho - k ⟨field, element, tag, hw, -⟩
  rcases List.mem_cons.mp ho with rfl | ho
  · exact absurd hw (by simp [Op.writes, taskInContext, patchWrites, fieldOpWrites])
  · rw [List.mem_singleton.mp ho] at hw
    exact absurd hw (by simp [Op.writes, taskRenameMoved, patchWrites, fieldOpWrites])

/-- **A task that moved comes back into a context it left.** The remove is sealed in
stream 8 and its tag in stream 7: the dump of stream 8 leaves it out. -/
theorem joinStreamState_ne_replay_of_moved :
    let full := mergeOps .short (fun _ => ∅) [taskInContext, taskLeaveContext]
    ¬ (joinThenReplay .short 8 full [taskInContext] = full ∧
      ∀ id, projection .short .sample (joinThenReplay .short 8 full [taskInContext]) id =
        projection .short .sample full id) := by
  intro full heq
  have hfind := congrArg (fun s : Store => (s 1).removes.rows.length) heq.1
  revert hfind
  decide

end Sunrise
