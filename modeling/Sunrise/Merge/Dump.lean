import Sunrise.Merge.Join

/-!
# What a dump carries

The rows of a document, table by table: just those of the state whose op-ref is in
scope. A dump of a sound state is a sound document (`Entity.Sound.dump`), so what the
join keeps it keeps for dumps of any replicas of the same history.

* `mem_members_dumpRows` and the like — the rows of a dump.
* `dumpEntity_eq_some` — which entities it carries.
* `Entity.Sound.dump` — a dump is sound.
-/

namespace Sunrise

open Causal

section

variable {scope : Scope} {kind : EntityKind} {m : Bookkeeping} {e : Entity}

theorem mem_dumpRegisters {t : RegisterTables} {x : String × Member} :
    x ∈ dumpRegisters scope t ↔
      t.registers.find x.1 = some x.2 ∧ scope.writtenBy x.2.stamp.opRef = true := by
  rw [dumpRegisters, List.mem_filter, Table.mem_rows]

theorem mem_dumpLosers {t : RegisterTables} {x : String × Member} :
    x ∈ dumpLosers scope t ↔
      x.2 ∈ t.losersOf x.1 ∧ scope.writtenBy x.2.stamp.opRef = true := by
  unfold dumpLosers RegisterTables.losersOf
  rw [List.mem_insertionSort, List.mem_map, List.mem_map]
  constructor
  · rintro ⟨r, hr, rfl⟩
    rw [List.mem_filter] at hr
    exact ⟨⟨r, List.mem_filter.mpr ⟨hr.1, by simp⟩, rfl⟩, hr.2⟩
  · rintro ⟨⟨r, hr, hm⟩, hscope⟩
    rw [List.mem_filter, decide_eq_true_iff] at hr
    rw [← hm] at hscope
    exact ⟨r, List.mem_filter.mpr ⟨hr.1, hscope⟩, Prod.ext hr.2 hm⟩

theorem mem_members_dumpRows {x : String × Member} :
    x ∈ (dumpRows scope kind m e).members ↔
      x.2 ∈ e.regs.members x.1 ∧ scope.writtenBy x.2.stamp.opRef = true := by
  show x ∈ dumpRegisters scope e.regs ++ dumpLosers scope e.regs ↔ _
  rw [List.mem_append, mem_dumpRegisters, mem_dumpLosers, RegisterTables.mem_members, or_and_right]

theorem mem_maps_dumpRows {x : (String ×ₗ String) × MapRow} :
    x ∈ (dumpRows scope kind m e).maps ↔
      e.maps.find x.1 = some x.2 ∧ scope.writtenBy x.2.stamp.opRef = true := by
  rw [← Table.mem_rows]
  exact List.mem_filter

theorem mem_adds_dumpRows {x : TagKey × Hlc} :
    x ∈ (dumpRows scope kind m e).adds ↔
      e.adds.find x.1 = some x.2 ∧ scope.writtenBy (TagKey.tag x.1) = true := by
  rw [← Table.mem_rows]
  exact List.mem_filter

theorem mem_removes_dumpRows {k : TagKey} :
    k ∈ (dumpRows scope kind m e).removes ↔
      e.removes.find k = some () ∧ scope.removes (TagKey.tag k) = true := by
  show k ∈ (e.removes.rows.map (·.1)).filter _ ↔ _
  rw [List.mem_filter, List.mem_map]
  refine and_congr_left fun _ => ?_
  constructor
  · rintro ⟨r, hr, rfl⟩
    exact Table.mem_rows.mp hr
  · exact fun hk => ⟨(k, ()), Table.mem_rows.mpr hk, rfl⟩

theorem mem_deltas_dumpRows {x : (String ×ₗ OpRef) × DeltaRow} :
    x ∈ (dumpRows scope kind m e).deltas ↔
      e.deltas.find x.1 = some x.2 ∧ scope.writtenBy (ofLex x.1).2 = true := by
  rw [← Table.mem_rows]
  exact List.mem_filter

theorem mem_versions_dumpRows {x : OpRef × VersionRow} :
    x ∈ (dumpRows scope kind m e).versions ↔
      e.dag.versions.find x.1 = some x.2 ∧ scope.writtenBy x.1 = true := by
  show x ∈ e.dag.inStampOrder.filter _ ↔ _
  rw [List.mem_filter, Dag.mem_inStampOrder]

theorem mem_dumpFrontier {d : Dag} {f : OpRef × Device × Stamp} :
    f ∈ dumpFrontier scope d ↔
      (∃ g, d.frontier.find f.1 = some g ∧ g.find f.2.1 = some f.2.2) ∧
        scope.writtenBy f.1 = true := by
  unfold dumpFrontier
  rw [List.mem_flatMap]
  constructor
  · rintro ⟨r, hr, hf⟩
    rw [List.mem_filter] at hr
    obtain ⟨x, hx, rfl⟩ := List.mem_map.mp hf
    exact ⟨⟨r.2, Table.mem_rows.mp hr.1, Table.mem_rows.mp hx⟩, hr.2⟩
  · rintro ⟨⟨g, hg, hf⟩, hscope⟩
    exact ⟨(f.1, g), List.mem_filter.mpr ⟨Table.mem_rows.mpr hg, hscope⟩,
      List.mem_map.mpr ⟨(f.2.1, f.2.2), Table.mem_rows.mpr hf, rfl⟩⟩

theorem mem_frontier_dumpRows {f : OpRef × Device × Stamp} :
    f ∈ (dumpRows scope kind m e).frontier ↔
      (e.dag.frontierOf f.1).find f.2.1 = some f.2.2 ∧
        ∃ r, (f.1, r) ∈ (dumpRows scope kind m e).versions := by
  show f ∈ (dumpFrontier scope e.dag).filter
    (fun f => (dumpRows scope kind m e).versions.any fun v => v.1 == f.1) ↔ _
  rw [List.mem_filter, mem_dumpFrontier, List.any_eq_true]
  constructor
  · rintro ⟨⟨⟨g, hg, hf⟩, -⟩, ⟨op, r⟩, hr, heq⟩
    obtain rfl : op = f.1 := by simpa using heq
    exact ⟨by rw [Dag.frontierOf, hg, Option.getD_some, hf], r, hr⟩
  · rintro ⟨hf, r, hr⟩
    refine ⟨⟨?_, (mem_versions_dumpRows.mp hr).2⟩, (f.1, r), hr, by simp⟩
    unfold Dag.frontierOf at hf
    cases hg : e.dag.frontier.find f.1 with
    | none => simp [hg] at hf
    | some g => exact ⟨g, rfl, by simpa [hg] using hf⟩

theorem dumpEntity_eq_some {doc : DocEntity} (h : dumpEntity scope e = some doc) :
    ∃ kind m, e.book = some (kind, m) ∧ doc = dumpRows scope kind m e := by
  unfold dumpEntity at h
  cases hb : e.book with
  | none => simp [hb] at h
  | some p =>
    obtain ⟨kind, m⟩ := p
    simp only [hb] at h
    split at h
    · exact ⟨kind, m, rfl, (Option.some.inj h).symm⟩
    · simp at h

theorem dumpEntity_of_version {op : OpRef} {r : VersionRow} (hb : e.book = some (kind, m))
    (hr : e.dag.versions.find op = some r) (hscope : scope.writtenBy op = true) :
    dumpEntity scope e = some (dumpRows scope kind m e) := by
  have hmem : (op, r) ∈ (dumpRows scope kind m e).versions := mem_versions_dumpRows.mpr ⟨hr, hscope⟩
  have hne : (dumpRows scope kind m e).versions.isEmpty = false := by
    rw [Bool.eq_false_iff, Ne, List.isEmpty_iff]
    exact List.ne_nil_of_mem hmem
  unfold dumpEntity
  simp only [hb, hasRows, hne, Bool.and_false, Bool.false_and, Bool.not_false, Bool.true_or,
    if_true]

theorem dumpEntity_of_remove {k : TagKey} (hb : e.book = some (kind, m))
    (hk : k ∈ (dumpRows scope kind m e).removes) :
    dumpEntity scope e = some (dumpRows scope kind m e) := by
  have hne : (dumpRows scope kind m e).removes.isEmpty = false := by
    rw [Bool.eq_false_iff, Ne, List.isEmpty_iff]
    exact List.ne_nil_of_mem hk
  unfold dumpEntity
  simp only [hb, hasRows, hne, Bool.and_false, Bool.false_and, Bool.not_false, Bool.true_or,
    if_true]

end

/-- **A dump of a sound state is a sound document.** -/
theorem Entity.Sound.dump {c : Codec} {kind : EntityKind} {U : Share} {scope : Scope} {e : Entity}
    {doc : DocEntity} (h : e.Sound c kind U) (hdump : dumpEntity scope e = some doc) :
    doc.Sound c kind U := by
  obtain ⟨kind', m, hb, rfl⟩ := dumpEntity_eq_some hdump
  obtain ⟨rfl, hm⟩ := h.book _ _ hb
  have hfloor : e.floor = m.legacy := by rw [floor, hb]; rfl
  refine ⟨rfl, hm, fun x hx => ?_, fun f hf => ?_, fun x hx => ?_, fun x hx => ?_,
    fun x hx hleg => ?_, fun x hx => ?_, fun x hx => ?_, fun k hk => ?_, fun x hx => ?_⟩
  · exact h.dag.rows _ _ (mem_versions_dumpRows.mp hx).1
  · obtain ⟨hfind, r, hr⟩ := mem_frontier_dumpRows.mp hf
    refine ⟨r, hr, fun dev a ha => ?_⟩
    obtain ⟨rfl, hle⟩ := Frontier.reaches_single.mp ha
    have hheld : f.1.stamp r.hlc ∈ e.dag.held :=
      Dag.mem_held_of_find (mem_versions_dumpRows.mp hr).1
    exact h.dag.sound _ hheld _ _ ⟨_, hfind, hle⟩
  · exact h.regs.written _ _ (mem_members_dumpRows.mp hx).1
  · obtain ⟨hmem, hscope⟩ := mem_members_dumpRows.mp hx
    obtain ⟨r, hr, hhlc⟩ := Dag.mem_held_iff.mp (h.regs.held _ _ hmem)
    exact ⟨r, mem_versions_dumpRows.mpr ⟨hr, hscope⟩, hhlc⟩
  · exact hfloor.symm.trans (h.regs.legacy _ _ (mem_members_dumpRows.mp hx).1 hleg)
  · exact h.maps _ _ (mem_maps_dumpRows.mp hx).1
  · exact (h.adds _ _ (mem_adds_dumpRows.mp hx).1).1
  · exact h.removes k (mem_removes_dumpRows.mp hk).1
  · exact (h.deltas _ _ (mem_deltas_dumpRows.mp hx).1).1

/-! ### The rows of a state -/

namespace Entity

def rows (e : Entity) (p : OpRef → Prop) : Share where
  versions := {v | p v.stamp.opRef ∧ ∃ b, e.dag.versions.find v.stamp.opRef = some (v.row b)}
  seen := fun _ _ _ => False
  merged := ∅
  members := fun field => {m | p m.stamp.opRef ∧ m ∈ e.regs.members field}
  entries := fun k => {row | p row.stamp.opRef ∧ e.maps.find k = some row}
  adds := fun k => {hlc | p (TagKey.tag k) ∧ e.adds.find k = some hlc}
  removes := ∅
  deltas := fun k => {row | p (ofLex k).2 ∧ e.deltas.find k = some row}
  books := ∅

variable {c : Codec} {kind : EntityKind} {U P Q : Share} {e f : Entity}

theorem CoveredButRemoves.mono (hc : f.CoveredButRemoves U Q) (hle : P ≤ Q) :
    f.CoveredButRemoves U P where
  book := fun b hb => hc.book b (hle.books b hb)
  held := by
    rintro s ⟨v, hv, rfl⟩
    exact hc.held ⟨v, hle.versions v hv, rfl⟩
  recorded := fun s dev a hs => hc.recorded s dev a (hle.seen s dev a hs)
  regs := fun field m hm => hc.regs field m (hle.members field m hm)
  maps := fun k row hr => hc.maps k row (hle.entries k row hr)
  adds := fun k hlc hk => hc.adds k hlc (hle.adds k hlc hk)
  deltas := fun k row hr => hc.deltas k row (hle.deltas k row hr)

theorem CoveredButRemoves.rows_of_dump {scope : Scope} {m : Bookkeeping}
    (hdoc : f.CoveredButRemoves U (dumpRows scope kind m e).share)
    (hrest : f.CoveredButRemoves U (e.rows fun r => scope.writtenBy r = false)) :
    f.CoveredButRemoves U (e.rows fun _ => True) := by
  refine ⟨fun b hb => hb.elim, ?_, fun s dev a hs => hs.elim, fun field m hm => ?_,
    fun k row hr => ?_, fun k hlc hk => ?_, fun k row hr => ?_⟩
  · rintro s ⟨v, ⟨-, b, hv⟩, rfl⟩
    cases hscope : scope.writtenBy v.stamp.opRef with
    | true => exact hdoc.held ⟨v, ⟨b, mem_versions_dumpRows.mpr ⟨hv, hscope⟩⟩, rfl⟩
    | false => exact hrest.held ⟨v, ⟨hscope, b, hv⟩, rfl⟩
  · cases hscope : scope.writtenBy m.stamp.opRef with
    | true => exact hdoc.regs field m (mem_members_dumpRows.mpr ⟨hm.2, hscope⟩)
    | false => exact hrest.regs field m ⟨hscope, hm.2⟩
  · cases hscope : scope.writtenBy row.stamp.opRef with
    | true => exact hdoc.maps k row (mem_maps_dumpRows.mpr ⟨hr.2, hscope⟩)
    | false => exact hrest.maps k row ⟨hscope, hr.2⟩
  · cases hscope : scope.writtenBy (TagKey.tag k) with
    | true => exact hdoc.adds k hlc (mem_adds_dumpRows.mpr ⟨hk.2, hscope⟩)
    | false => exact hrest.adds k hlc ⟨hscope, hk.2⟩
  · cases hscope : scope.writtenBy (ofLex k).2 with
    | true => exact hdoc.deltas k row (mem_deltas_dumpRows.mpr ⟨hr.2, hscope⟩)
    | false => exact hrest.deltas k row ⟨hscope, hr.2⟩

/-- **Coverage is transitive**: a state that covers the rows and the bookkeeping of
another covers what that one covers, as far as it has taken the records in. -/
theorem CoveredButRemoves.trans (h : e.Sound c kind U) (hc : e.CoveredButRemoves U P)
    (hrows : f.CoveredButRemoves U (e.rows fun _ => True))
    (hbook : ∀ k m, e.book = some (k, m) → ∃ k' m', f.book = some (k', m') ∧ m.Covered m')
    (hseen : ∀ s dev a, P.seen s dev a → s ∈ f.dag.held ∧ (f.dag.frontierAt s).Reaches dev a) :
    f.CoveredButRemoves U P := by
  have hfloor : FloorLe e.floor f.floor := by
    intro l hl
    unfold floor at hl ⊢
    cases hb : e.book with
    | none => simp [hb] at hl
    | some p =>
      obtain ⟨k', m', hb', hm⟩ := hbook p.1 p.2 hb
      obtain ⟨l', hl', hle⟩ := hm.legacy l (by simpa [hb] using hl)
      exact ⟨l', by rw [hb']; exact hl', hle⟩
  refine ⟨fun b hb => ?_, fun s hs => ?_, hseen, fun field m hm => ?_, fun k row hr => ?_,
    fun k hlc hk => ?_, fun k row hr => ?_⟩
  · obtain ⟨k, m, hbe, hm⟩ := hc.book b hb
    obtain ⟨k', m', hbf, hm'⟩ := hbook k m hbe
    exact ⟨k', m', hbf, hm.trans hm'⟩
  · obtain ⟨r, hr, hhlc⟩ := Dag.mem_held_iff.mp (hc.held hs)
    obtain ⟨v, -, hop, hrv⟩ := h.dag.rows _ _ hr
    have hstamp : v.stamp = s := by
      refine Stamp.eq_of_opRef_of_hlc hop ?_
      rw [← hhlc, hrv]
      rfl
    exact hrows.held ⟨v, ⟨trivial, _, by rw [hop, hr, hrv]⟩, hstamp⟩
  · rcases hc.regs field m hm with hbelow | hmem | hfollow
    · exact .inl (hfloor.below hbelow)
    · exact hrows.regs field m ⟨trivial, hmem⟩
    · exact .inr (.inr hfollow)
  · obtain ⟨row', hr', hle⟩ := hc.maps k row hr
    obtain ⟨row'', hr'', hle'⟩ := hrows.maps k row' ⟨trivial, hr'⟩
    exact ⟨row'', hr'', hle.trans hle'⟩
  · rcases hc.adds k hlc hk with hbelow | hfind
    · exact .inl (hfloor.below hbelow)
    · exact hrows.adds k hlc ⟨trivial, hfind⟩
  · rcases hc.deltas k row hr with hbelow | hfind
    · exact .inl (hfloor.atOrBelow hbelow)
    · exact hrows.deltas k row ⟨trivial, hfind⟩

end Entity

end Sunrise
