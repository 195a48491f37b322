import Sunrise.Merge.Snapshot
import Sunrise.Merge.Step

/-!
# Joining a document keeps the merge state sound

The join of one entity in one equation (`joinEntity_eq`): the DAG joined and
recomputed, the floor raised, each table with the document's rows written in, the
registers flushed. Each part is a run of the small steps the fold of an op is made of,
and so joining keeps what folding keeps:

* `DocEntity.Sound` — a document holds nothing but what a share `U` has;
* `Entity.Sound.join` — joining such a document keeps a sound state sound;
* `Entity.Sound.covered_join` — and covers all the document says (`DocEntity.share`);
* `Entity.Covered.join` — what was covered stays covered.

That a dump of a sound state is a sound document is in `Sunrise.Merge.Dump`.
-/

namespace Sunrise

open Table

open Causal

/-! ### Documents -/

/-- The stored bytes are canonical, within the decoder's bound: decoded and encoded
again they are the same. -/
structure Share.Stored (c : Codec) (U : Share) : Prop where
  members : ∀ field, ∀ m ∈ U.members field, ∀ b, m.value = some b → c.restore b = b
  entries : ∀ k, ∀ row ∈ U.entries k, c.restore row.value = row.value
  adds : ∀ k, ∀ hlc ∈ U.adds k, c.restore (ofLex (ofLex k).2).1 = (ofLex (ofLex k).2).1
  removes : ∀ k ∈ U.removes, c.restore (ofLex (ofLex k).2).1 = (ofLex (ofLex k).2).1

namespace DocEntity

/-- The document's register writes, winners first. -/
def members (doc : DocEntity) : List (String × Member) := doc.registers ++ doc.losers

/-- What a document says. -/
def share (doc : DocEntity) : Share where
  versions := {v | ∃ b, (v.stamp.opRef, v.row b) ∈ doc.versions}
  seen := fun s dev a => (∃ r, (s.opRef, r) ∈ doc.versions ∧ r.hlc = s.hlc) ∧
    ∃ r, (s.opRef, dev, r) ∈ doc.frontier ∧ a ≤ r
  merged := ∅
  members := fun field => {m | (field, m) ∈ doc.members}
  entries := fun k => {row | (k, row) ∈ doc.maps}
  adds := fun k => {hlc | (k, hlc) ∈ doc.adds}
  removes := {k | k ∈ doc.removes}
  deltas := fun k => {row | (k, row) ∈ doc.deltas}
  books := {doc.book}

/-- The document holds nothing but what `U` has. -/
structure Sound (c : Codec) (kind : EntityKind) (U : Share) (doc : DocEntity) : Prop where
  sameKind : doc.kind = kind
  book : doc.book.Sound U.books
  versions : ∀ x ∈ doc.versions, ∃ v ∈ U.toHistory, v.stamp.opRef = x.1 ∧ x.2 = v.row x.2.isHead
  frontier : ∀ f ∈ doc.frontier, ∃ r, (f.1, r) ∈ doc.versions ∧
    HistSound U.toHistory (f.1.stamp r.hlc) (Frontier.single f.2.1 f.2.2)
  members : ∀ x ∈ doc.members, x.2 ∈ U.members x.1
  held : ∀ x ∈ doc.members, ∃ r, (x.2.stamp.opRef, r) ∈ doc.versions ∧ r.hlc = x.2.stamp.hlc
  legacy : ∀ x ∈ doc.members, U.Legacy x.2.stamp → doc.book.legacy = some x.2.stamp
  maps : ∀ x ∈ doc.maps, x.2 ∈ U.entries x.1
  adds : ∀ x ∈ doc.adds, x.2 ∈ U.adds x.1
  removes : ∀ k ∈ doc.removes, k ∈ U.removes
  deltas : ∀ x ∈ doc.deltas, x.2 ∈ U.deltas x.1

end DocEntity

/-! ### The version DAG -/

section

variable {c : Codec} {kind : EntityKind} {U : Share} {doc : DocEntity} {d : Dag}

theorem reaches_joinFrontierRows (l : List (OpRef × Device × Stamp))
    (t : Table OpRef (Frontier Device Stamp)) (op : OpRef) (dev : Device) (a : Stamp) :
    (((l.foldl joinFrontierRow t).find op).getD ∅).Reaches dev a ↔
      ((t.find op).getD ∅).Reaches dev a ∨ ∃ r, (op, dev, r) ∈ l ∧ a ≤ r := by
  induction l generalizing t with
  | nil => simp
  | cons f l ih =>
    obtain ⟨op', dev', r'⟩ := f
    rw [List.foldl_cons, ih, joinFrontierRow, find_upsert]
    by_cases hop : op = op'
    · subst hop
      rw [if_pos rfl, Option.getD_some, Frontier.reaches_join, Frontier.reaches_single]
      constructor
      · rintro ((h | ⟨rfl, hle⟩) | ⟨r, hr, hle⟩)
        · exact .inl h
        · exact .inr ⟨r', List.mem_cons_self, hle⟩
        · exact .inr ⟨r, List.mem_cons_of_mem _ hr, hle⟩
      · rintro (h | ⟨r, hr, hle⟩)
        · exact .inl (.inl h)
        · rcases List.mem_cons.mp hr with heq | hr
          · simp only [Prod.mk.injEq, true_and] at heq
            exact .inl (.inr ⟨heq.1, heq.2 ▸ hle⟩)
          · exact .inr ⟨r, hr, hle⟩
    · rw [if_neg hop]
      simp [hop]

theorem reaches_recordVersions (s : Stamp) (dev : Device) (a : Stamp) :
    ((recordVersions d doc.versions doc.frontier).frontierAt s).Reaches dev a ↔
      (d.frontierAt s).Reaches dev a ∨ ∃ r, (s.opRef, dev, r) ∈ doc.frontier ∧ a ≤ r :=
  reaches_joinFrontierRows doc.frontier d.frontier s.opRef dev a

theorem rowsOf_recordVersions (hd : d.Consistent U.toHistory) (hdoc : doc.Sound c kind U) :
    (recordVersions d doc.versions doc.frontier).RowsOf U.toHistory := by
  intro op r hr
  have hr' : (d.versions.find op).or (lookup op doc.versions) = some r := by
    rw [← find_foldl_insertOrIgnore]
    exact hr
  rcases Option.or_eq_some_iff.mp hr' with hold | ⟨-, hnew⟩
  · exact hd.rows op r hold
  · exact hdoc.versions _ (mem_of_lookup hnew)

theorem recordVersions_of_isEmpty (hdoc : doc.Sound c kind U)
    (h : doc.versions.isEmpty = true) :
    recordVersions d doc.versions doc.frontier = d := by
  have hversions : doc.versions = [] := List.isEmpty_iff.mp h
  have hfrontier : doc.frontier = [] := by
    rw [List.eq_nil_iff_forall_not_mem]
    intro f hf
    obtain ⟨r, hr, -⟩ := hdoc.frontier f hf
    simp [hversions] at hr
  rw [hversions, hfrontier]
  rfl

variable (hU : U.WellFormed) (hd : d.Consistent U.toHistory) (hdoc : doc.Sound c kind U)

include hU hd hdoc

theorem held_recordVersions (s : Stamp) :
    s ∈ (recordVersions d doc.versions doc.frontier).held ↔
      s ∈ d.held ∨ ∃ r, (s.opRef, r) ∈ doc.versions ∧ r.hlc = s.hlc := by
  have hfind : ∀ op, (recordVersions d doc.versions doc.frontier).versions.find op =
      (d.versions.find op).or (lookup op doc.versions) :=
    find_foldl_insertOrIgnore doc.versions d.versions
  rw [Dag.mem_held_iff, Dag.mem_held_iff]
  constructor
  · rintro ⟨r, hr, hhlc⟩
    rw [hfind, Option.or_eq_some_iff] at hr
    rcases hr with hold | ⟨-, hnew⟩
    · exact .inl ⟨r, hold, hhlc⟩
    · exact .inr ⟨r, mem_of_lookup hnew, hhlc⟩
  · rintro (⟨r, hr, hhlc⟩ | ⟨r, hr, hhlc⟩)
    · exact ⟨r, by rw [hfind, hr, Option.some_or], hhlc⟩
    · -- whichever row the key holds, it is the version's
      cases hrow : (recordVersions d doc.versions doc.frontier).versions.find s.opRef with
      | none =>
        rw [hfind, Option.or_eq_none_iff] at hrow
        exact absurd rfl (Table.lookup_eq_none.mp hrow.2 _ hr)
      | some r' =>
        obtain ⟨v, hv, hop, hrv⟩ := rowsOf_recordVersions hd hdoc _ _ hrow
        obtain ⟨v', hv', hop', hrv'⟩ := hdoc.versions _ hr
        obtain rfl := hU.valid.distinct v hv v' hv' (hop.trans hop'.symm)
        refine ⟨r', rfl, ?_⟩
        have hhlc' : r'.hlc = v.stamp.hlc := congrArg VersionRow.hlc hrv
        have hhlc'' : r.hlc = v.stamp.hlc := congrArg VersionRow.hlc hrv'
        rw [hhlc', ← hhlc'', hhlc]

theorem sound_recordVersions :
    ∀ s ∈ (recordVersions d doc.versions doc.frontier).held,
      HistSound U.toHistory s
        ((recordVersions d doc.versions doc.frontier).frontierAt s) := by
  intro s hs dev a ha
  rcases (reaches_recordVersions s dev a).mp ha with hold | ⟨r, hr, hle⟩
  · by_cases hheld : s ∈ d.held
    · exact hd.sound s hheld dev a hold
    · -- a version that was not held had no frontier, or it is another of its op-ref
      exfalso
      have hsome : d.frontier.find s.opRef ≠ none := by
        intro hnone
        rw [Dag.frontierAt, Dag.frontierOf, hnone, Option.getD_none] at hold
        exact Frontier.not_reaches_empty dev a hold
      rw [Ne, hd.keys, ← Dag.stampOf_eq_none] at hsome
      obtain ⟨t, ht⟩ := Option.ne_none_iff_exists'.mp hsome
      obtain ⟨hheld', hop⟩ := Dag.mem_held_of_stampOf ht
      have hmem : t ∈ (recordVersions d doc.versions doc.frontier).held :=
        (held_recordVersions hU hd hdoc t).mpr (.inl hheld')
      exact hheld (Dag.eq_of_mem_held hmem hs hop ▸ hheld')
  · obtain ⟨row, hrow, hsound⟩ := hdoc.frontier _ hr
    have hmem : s.opRef.stamp row.hlc ∈ (recordVersions d doc.versions doc.frontier).held :=
      (held_recordVersions hU hd hdoc _).mpr (.inr ⟨row, hrow, rfl⟩)
    have heq : s.opRef.stamp row.hlc = s := Dag.eq_of_mem_held hmem hs rfl
    rw [← heq]
    exact hsound dev a (Frontier.reaches_single.mpr ⟨rfl, hle⟩)

theorem held_joinVersions (s : Stamp) :
    s ∈ (joinVersions d doc.versions doc.frontier).1.held ↔
      s ∈ d.held ∨ ∃ r, (s.opRef, r) ∈ doc.versions ∧ r.hlc = s.hlc := by
  rw [← held_recordVersions hU hd hdoc]
  unfold joinVersions
  split
  · rfl
  · rw [Dag.held_recompute]

theorem consistent_joinVersions :
    (joinVersions d doc.versions doc.frontier).1.Consistent U.toHistory ∧
      Refreshed d (joinVersions d doc.versions doc.frontier).1
        (joinVersions d doc.versions doc.frontier).2 ∧
      ∀ s dev a, doc.share.seen s dev a →
        ((joinVersions d doc.versions doc.frontier).1.frontierAt s).Reaches dev a := by
  unfold joinVersions
  split
  next hempty =>
    rw [recordVersions_of_isEmpty hdoc hempty]
    refine ⟨hd, ⟨fun s hs => hs, fun s _ => Frontier.Below.refl _, .inr fun s _ => rfl⟩, ?_⟩
    rintro s dev a ⟨⟨r, hr, -⟩, -⟩
    rw [List.isEmpty_iff.mp hempty] at hr
    simp at hr
  next =>
    have hheld := held_recordVersions hU hd hdoc
    obtain ⟨hcons, hgrows⟩ := Dag.consistent_recompute hU.valid (rowsOf_recordVersions hd hdoc)
      (sound_recordVersions hU hd hdoc)
    refine ⟨hcons, ⟨fun s hs => ?_, fun s hs dev a ha => ?_, .inl rfl⟩, ?_⟩
    · rw [Dag.held_recompute]
      exact (hheld s).mpr (.inl hs)
    · exact hgrows s ((hheld s).mpr (.inl hs)) dev a
        ((reaches_recordVersions s dev a).mpr (.inl ha))
    · rintro s dev a ⟨hrow, hr⟩
      exact hgrows s ((hheld s).mpr (.inr hrow)) dev a
        ((reaches_recordVersions s dev a).mpr (.inr hr))

end

/-! ### The tables -/

namespace Share

instance : EmptyCollection Share :=
  ⟨⟨⟨∅, fun _ _ _ => False, ∅⟩, fun _ => ∅, fun _ => ∅, fun _ => ∅, ∅, fun _ => ∅, ∅⟩⟩

/-- One register write. -/
def ofMember (x : String × Member) : Share :=
  { (∅ : Share) with members := fun field => {m | (field, m) = x} }

def ofEntry (x : (String ×ₗ String) × MapRow) : Share :=
  { (∅ : Share) with entries := fun k => {row | (k, row) = x} }

def ofAdd (x : TagKey × Hlc) : Share :=
  { (∅ : Share) with adds := fun k => {hlc | (k, hlc) = x} }

def ofRemove (k : TagKey) : Share := { (∅ : Share) with removes := {k} }

def ofDelta (x : (String ×ₗ OpRef) × DeltaRow) : Share :=
  { (∅ : Share) with deltas := fun k => {row | (k, row) = x} }

end Share

/-- A run of steps that each keep an invariant, cover their own item and lose nothing
covered before keeps the invariant, covers every item and loses nothing. -/
theorem foldl_keeps {σ α : Type*} {I : σ → Prop} {C : σ → Share → Prop} {f : σ → α → σ}
    {g : α → Share} {l : List α}
    (hf : ∀ s, I s → ∀ x ∈ l, I (f s x) ∧ C (f s x) (g x) ∧ ∀ P, C s P → C (f s x) P)
    {s : σ} (hs : I s) :
    I (l.foldl f s) ∧ (∀ x ∈ l, C (l.foldl f s) (g x)) ∧ ∀ P, C s P → C (l.foldl f s) P := by
  induction l generalizing s with
  | nil => exact ⟨hs, by simp, fun _ h => h⟩
  | cons x l ih =>
    obtain ⟨hinv, hcov, hkeep⟩ := hf s hs x List.mem_cons_self
    obtain ⟨hinv', hcov', hkeep'⟩ :=
      ih (fun s hs y hy => hf s hs y (List.mem_cons_of_mem _ hy)) hinv
    refine ⟨hinv', fun y hy => ?_, fun P hP => hkeep' P (hkeep P hP)⟩
    rcases List.mem_cons.mp hy with rfl | hy
    · exact hkeep' _ hcov
    · exact hcov' y hy

namespace DocEntity

variable (c : Codec) (doc : DocEntity)

/-- The document's register writes offered. -/
def offerAll (d : Dag) (r : Registers) : Registers :=
  doc.members.foldl
    (fun r x => r.offer d x.1 ⟨x.2.stamp, x.2.value.map c.restore, x.2.origin⟩) r

def writeMaps (t : Table (String ×ₗ String) MapRow) : Table (String ×ₗ String) MapRow :=
  doc.maps.foldl
    (fun t x => t.upsert x.1 (newer (t.find x.1) ⟨c.restore x.2.value, x.2.stamp, x.2.origin⟩)) t

def writeAdds (floor : Option Stamp) (t : Table TagKey Hlc) : Table TagKey Hlc :=
  doc.adds.foldl
    (fun t x => if belowFloor floor (addStamp x.1 x.2) then t
      else t.insertOrIgnore
        (tagKey (ofLex x.1).1 (c.restore (ofLex (ofLex x.1).2).1) (TagKey.tag x.1)) x.2) t

def writeRemoves (t : Table TagKey Unit) : Table TagKey Unit :=
  doc.removes.foldl
    (fun t k => t.insertOrIgnore
      (tagKey (ofLex k).1 (c.restore (ofLex (ofLex k).2).1) (TagKey.tag k)) ()) t

def writeDeltas (floor : Option Stamp) (t : Table (String ×ₗ OpRef) DeltaRow) :
    Table (String ×ₗ OpRef) DeltaRow :=
  doc.deltas.foldl
    (fun t x => if Entity.atOrBelowFloor floor (deltaStamp x.1 x.2) then t
      else t.insertOrIgnore x.1 x.2) t

end DocEntity

section

variable {c : Codec} {kind : EntityKind} {U : Share} {doc : DocEntity} {floor : Option Stamp}
  (hU : U.WellFormed) (hstored : U.Stored c) (hdoc : doc.Sound c kind U)

include hU hstored hdoc

theorem DocEntity.Sound.offerAll {d : Dag} {t : RegisterTables} {r : Registers}
    (hd : d.Consistent U.toHistory) (ht : Registers.Tracks t r) (hfloor : r.floor = floor)
    (hregs : RegistersSound U d floor r.members)
    (hheld : ∀ x ∈ doc.members, x.2.stamp ∈ d.held)
    (hlegacy : ∀ l, doc.book.legacy = some l → Entity.atOrBelowFloor floor l = true) :
    let r' := doc.offerAll c d r
    (Registers.Tracks t r' ∧ r'.floor = floor ∧ RegistersSound U d floor r'.members) ∧
      RegistersCovered U floor r'.members doc.share ∧
      ∀ P, RegistersCovered U floor r.members P → RegistersCovered U floor r'.members P := by
  intro r'
  have hfold := foldl_keeps
    (I := fun r => Registers.Tracks t r ∧ r.floor = floor ∧ RegistersSound U d floor r.members)
    (C := fun r => RegistersCovered U floor r.members) (g := Share.ofMember)
    (l := doc.members) (s := r) (f := fun r x =>
      r.offer d x.1 ⟨x.2.stamp, x.2.value.map c.restore, x.2.origin⟩) ?_ ⟨ht, hfloor, hregs⟩
  · exact ⟨hfold.1, fun field m hm => hfold.2.1 _ hm field m rfl, hfold.2.2⟩
  rintro r ⟨ht, hfloor, hregs⟩ ⟨field, m⟩ hx
  have hm := hdoc.members _ hx
  have hrestore : (⟨m.stamp, m.value.map c.restore, m.origin⟩ : Member) = m := by
    obtain ⟨stamp, value, origin⟩ := m
    cases value with
    | none => rfl
    | some b =>
      have hb := hstored.members field _ hm b rfl
      simp only [Option.map_some, hb]
  have hoff : Offer U d floor field m :=
    ⟨hm, hheld _ hx, fun hleg => hlegacy _ (hdoc.legacy _ hx hleg)⟩
  have hmembers : ∀ g, (r.offer d field m).members g =
      if g = field then Registers.offerMember d floor (r.members field) m else r.members g := by
    intro g
    rw [Registers.members_offer, hfloor]
  have hoffered : Offered U d floor r.members (r.offer d field m).members := by
    intro g
    rw [hmembers]
    split
    next hg => exact .inr ⟨m, hg ▸ hoff, by rw [hg]⟩
    next => exact .inl rfl
  simp only [hrestore]
  refine ⟨⟨ht.offer _ _ _, (Registers.floor_offer _ _ _ _).trans hfloor, hregs.offered hoffered⟩,
    ?_, fun P hP => hP.offered hd hoffered⟩
  intro g n hgn
  obtain ⟨rfl, rfl⟩ : g = field ∧ n = m := by simpa [Share.ofMember] using hgn
  rw [hmembers, if_pos rfl]
  exact hregs.covered_offered hU hd hoff

omit hU in
theorem DocEntity.Sound.writeMaps {t : Table (String ×ₗ String) MapRow} (ht : MapsSound U t) :
    MapsSound U (doc.writeMaps c t) ∧ MapsCovered (doc.writeMaps c t) doc.share ∧
      ∀ P, MapsCovered t P → MapsCovered (doc.writeMaps c t) P := by
  have hfold := foldl_keeps (I := MapsSound U) (C := MapsCovered)
    (g := Share.ofEntry) (l := doc.maps) (s := t) (f := fun t x =>
      t.upsert x.1 (newer (t.find x.1) ⟨c.restore x.2.value, x.2.stamp, x.2.origin⟩)) ?_ ht
  · exact ⟨hfold.1, fun k row hrow => hfold.2.1 _ hrow k row rfl, hfold.2.2⟩
  rintro t ht ⟨k, row⟩ hx
  have hrow := hdoc.maps _ hx
  have hrestore : (⟨c.restore row.value, row.stamp, row.origin⟩ : MapRow) = row := by
    rw [hstored.entries k row hrow]
  have hwritten : MapsWritten U t (t.upsert k (newer (t.find k) row)) := by
    intro k'
    rw [find_upsert]
    split
    next hk => exact .inr ⟨row, hk ▸ hrow, by rw [hk]⟩
    next => exact .inl rfl
  simp only [hrestore]
  refine ⟨ht.written hwritten, ?_, fun P hP => hP.written hwritten⟩
  intro k' row' hk
  obtain ⟨rfl, rfl⟩ : k' = k ∧ row' = row := by simpa [Share.ofEntry] using hk
  exact ⟨_, find_upsert_self _ _ _, (le_newer _ _).1⟩

theorem DocEntity.Sound.writeAdds {t : Table TagKey Hlc} (ht : AddsSound U floor t) :
    AddsSound U floor (doc.writeAdds c floor t) ∧
      AddsCovered floor (doc.writeAdds c floor t) doc.share ∧
      ∀ P, AddsCovered floor t P → AddsCovered floor (doc.writeAdds c floor t) P := by
  have hfold := foldl_keeps (I := AddsSound U floor) (C := AddsCovered floor)
    (g := Share.ofAdd) (l := doc.adds) (s := t) (f := fun t x =>
      if belowFloor floor (addStamp x.1 x.2) then t
      else t.insertOrIgnore
        (tagKey (ofLex x.1).1 (c.restore (ofLex (ofLex x.1).2).1) (TagKey.tag x.1)) x.2) ?_ ht
  · exact ⟨hfold.1, fun k hlc hk => hfold.2.1 _ hk k hlc rfl, hfold.2.2⟩
  rintro t ht ⟨k, hlc⟩ hx
  have hadd := hdoc.adds _ hx
  have hrestore : tagKey (ofLex k).1 (c.restore (ofLex (ofLex k).2).1) (TagKey.tag k) = k := by
    rw [hstored.adds k hlc hadd]
    rfl
  simp only [hrestore]
  cases hb : belowFloor floor (addStamp k hlc) with
  | true =>
    refine ⟨ht, fun k' hlc' hk => ?_, fun P hP => hP⟩
    obtain ⟨rfl, rfl⟩ : k' = k ∧ hlc' = hlc := by simpa [Share.ofAdd] using hk
    exact .inl hb
  | false =>
    have hwritten : AddsWritten U floor t (t.insertOrIgnore k hlc) := by
      intro k'
      rw [find_insertOrIgnore]
      split
      next hk =>
        refine .inr ⟨hlc, hk ▸ hadd, hk ▸ hb, ?_⟩
        rw [hk]
        cases t.find k <;> rfl
      next => exact .inl rfl
    refine ⟨ht.written hwritten, fun k' hlc' hk => ?_, fun P hP => hP.written hwritten⟩
    obtain ⟨rfl, rfl⟩ : k' = k ∧ hlc' = hlc := by simpa [Share.ofAdd] using hk
    refine .inr ?_
    show (t.insertOrIgnore k' hlc').find k' = some hlc'
    rw [find_insertOrIgnore, if_pos rfl]
    cases hold : t.find k' with
    | none => rfl
    | some h => rw [Option.getD_some, hU.add k' h (ht k' h hold).1 hlc' hadd]

omit hU in
theorem DocEntity.Sound.writeRemoves {t : Table TagKey Unit} (ht : RemovesSound U t) :
    RemovesSound U (doc.writeRemoves c t) ∧ RemovesCovered (doc.writeRemoves c t) doc.share ∧
      ∀ P, RemovesCovered t P → RemovesCovered (doc.writeRemoves c t) P := by
  have hfold := foldl_keeps (I := RemovesSound U) (C := RemovesCovered)
    (g := Share.ofRemove) (l := doc.removes) (s := t) (f := fun t k =>
      t.insertOrIgnore (tagKey (ofLex k).1 (c.restore (ofLex (ofLex k).2).1) (TagKey.tag k)) ())
    ?_ ht
  · exact ⟨hfold.1, fun k hk => hfold.2.1 _ hk k rfl, hfold.2.2⟩
  intro t ht k hx
  have hremove := hdoc.removes k hx
  have hrestore : tagKey (ofLex k).1 (c.restore (ofLex (ofLex k).2).1) (TagKey.tag k) = k := by
    rw [hstored.removes k hremove]
    rfl
  have hwritten : RemovesWritten U t (t.insertOrIgnore k ()) := by
    intro k'
    rw [find_insertOrIgnore]
    split
    next hk => exact .inr ⟨hk ▸ hremove, rfl⟩
    next => exact .inl rfl
  simp only [hrestore]
  refine ⟨ht.written hwritten, ?_, fun P hP => hP.written hwritten⟩
  rintro k' rfl
  rw [find_insertOrIgnore, if_pos rfl]

omit hstored in
theorem DocEntity.Sound.writeDeltas {t : Table (String ×ₗ OpRef) DeltaRow}
    (ht : DeltasSound U floor t) :
    DeltasSound U floor (doc.writeDeltas floor t) ∧
      DeltasCovered floor (doc.writeDeltas floor t) doc.share ∧
      ∀ P, DeltasCovered floor t P → DeltasCovered floor (doc.writeDeltas floor t) P := by
  have hfold := foldl_keeps (I := DeltasSound U floor)
    (C := DeltasCovered floor) (g := Share.ofDelta) (l := doc.deltas) (s := t)
    (f := fun t x => if Entity.atOrBelowFloor floor (deltaStamp x.1 x.2) then t
      else t.insertOrIgnore x.1 x.2) ?_ ht
  · exact ⟨hfold.1, fun k row hk => hfold.2.1 _ hk k row rfl, hfold.2.2⟩
  rintro t ht ⟨k, row⟩ hx
  have hrow := hdoc.deltas _ hx
  cases hb : Entity.atOrBelowFloor floor (deltaStamp k row) with
  | true =>
    simp only [if_true]
    refine ⟨ht, fun k' row' hk => ?_, fun P hP => hP⟩
    obtain ⟨rfl, rfl⟩ : k' = k ∧ row' = row := by simpa [Share.ofDelta] using hk
    exact .inl hb
  | false =>
    simp only [Bool.false_eq_true, if_false]
    have hwritten : DeltasWritten U floor t (t.insertOrIgnore k row) := by
      intro k'
      rw [find_insertOrIgnore]
      split
      next hk =>
        refine .inr ⟨row, hk ▸ hrow, hk ▸ hb, ?_⟩
        rw [hk]
        cases t.find k <;> rfl
      next => exact .inl rfl
    refine ⟨ht.written hwritten, fun k' row' hk => ?_, fun P hP => hP.written hwritten⟩
    obtain ⟨rfl, rfl⟩ : k' = k ∧ row' = row := by simpa [Share.ofDelta] using hk
    refine .inr ?_
    rw [find_insertOrIgnore, if_pos rfl]
    cases hold : t.find k' with
    | none => rfl
    | some h => rw [Option.getD_some, hU.delta k' h (ht k' h hold).1 row' hrow]

end

/-! ### The whole join -/

namespace Entity

def joinedBook (e : Entity) (doc : DocEntity) : Bookkeeping :=
  joinMeta (e.book.map (·.2)) doc.book

/-- The rows and the registers, ready for a document's rows: its versions joined and
the floor raised. -/
def joining (e : Entity) (doc : DocEntity) : Entity × Registers :=
  let joined := joinVersions e.dag doc.versions doc.frontier
  let e₁ := { e with dag := joined.1 }
  let r₁ := registersAfter e₁ e.floor ⟨joined.2, joined.2⟩
  match raisedFloor e.floor (e.joinedBook doc).legacy with
  | some floor => (e₁.pruneBelowFloor floor, r₁.raiseFloor floor)
  | none => (e₁, r₁)

/-- The rows and the registers with the document's rows written. -/
def joined (c : Codec) (e : Entity) (doc : DocEntity) : Entity × Registers :=
  let w := e.joining doc
  let floor := (e.joinedBook doc).legacy
  ({ w.1 with
      maps := doc.writeMaps c w.1.maps
      adds := doc.writeAdds c floor w.1.adds
      removes := doc.writeRemoves c w.1.removes
      deltas := doc.writeDeltas floor w.1.deltas },
    doc.offerAll c w.1.dag w.2)

theorem dag_joining (e : Entity) (doc : DocEntity) :
    (e.joining doc).1.dag = (joinVersions e.dag doc.versions doc.frontier).1 := by
  unfold joining
  cases raisedFloor e.floor (e.joinedBook doc).legacy <;> rfl

theorem joinEntity_eq (c : Codec) (doc : DocEntity) (e : Entity) :
    joinEntity c doc e =
      { (e.joined c doc).1 with
        regs := (e.joined c doc).2.flush c doc.kind.spec e.regs
        book := some ((e.book.map (·.1)).getD doc.kind, e.joinedBook doc) } := by
  have hmaps : ∀ (l : List ((String ×ₗ String) × MapRow)) (e : Entity),
      l.foldl (fun e x => e.writeMapEntry (ofLex x.1).1 (ofLex x.1).2
        ⟨c.restore x.2.value, x.2.stamp, x.2.origin⟩) e =
      { e with
        maps := l.foldl (fun t x => t.upsert x.1
          (newer (t.find x.1) ⟨c.restore x.2.value, x.2.stamp, x.2.origin⟩)) e.maps } :=
    fun l e => List.foldl_hom (fun t => { e with maps := t }) fun t x => writeMapEntry_eq _ _ _ _
  have hadds : ∀ (floor : Option Stamp) (l : List (TagKey × Hlc)) (e : Entity),
      l.foldl (fun e x => e.addElement (ofLex x.1).1 (c.restore (ofLex (ofLex x.1).2).1)
        ((TagKey.tag x.1).stamp x.2) floor) e =
      { e with
        adds := l.foldl (fun t x => if belowFloor floor (addStamp x.1 x.2) then t
          else t.insertOrIgnore (tagKey (ofLex x.1).1 (c.restore (ofLex (ofLex x.1).2).1)
            (TagKey.tag x.1)) x.2) e.adds } :=
    fun floor l e => List.foldl_hom (fun t => { e with adds := t })
      fun t x => addElement_eq _ _ _ _ _
  have hremoves : ∀ (l : List TagKey) (e : Entity),
      l.foldl (fun e k => e.removeElement (ofLex k).1 (c.restore (ofLex (ofLex k).2).1)
        (TagKey.tag k)) e =
      { e with
        removes := l.foldl (fun t k => t.insertOrIgnore (tagKey (ofLex k).1
          (c.restore (ofLex (ofLex k).2).1) (TagKey.tag k)) ()) e.removes } :=
    fun l e => List.foldl_hom (fun t => { e with removes := t }) fun t k => rfl
  have hdeltas : ∀ (floor : Option Stamp) (l : List ((String ×ₗ OpRef) × DeltaRow)) (e : Entity),
      l.foldl (fun e x => e.addDelta (ofLex x.1).1 x.2.delta ((ofLex x.1).2.stamp x.2.hlc)
        floor) e =
      { e with
        deltas := l.foldl (fun t x => if atOrBelowFloor floor (deltaStamp x.1 x.2) then t
          else t.insertOrIgnore x.1 x.2) e.deltas } :=
    fun floor l e => List.foldl_hom (fun t => { e with deltas := t })
      fun t x => addDelta_eq _ _ _ _ _
  have hdag := dag_joining e doc
  unfold joinEntity joined DocEntity.offerAll
  simp only [hmaps, hadds, hremoves, hdeltas]
  rw [hdag]
  unfold joining joinedBook floor
  cases raisedFloor (e.book.bind (·.2.legacy)) (joinMeta (e.book.map (·.2)) doc.book).legacy <;> rfl

theorem legacy_joinedBook (e : Entity) (doc : DocEntity) :
    (e.joinedBook doc).legacy = Option.merge max e.floor doc.book.legacy := by
  unfold joinedBook floor
  cases e.book with
  | none => simp [joinMeta]
  | some p => rfl

/-- The floor a join raises the entity to is a greater one, and where it raises it to
none the floor is the old one. -/
theorem raisedFloor_joinedBook (e : Entity) (doc : DocEntity) :
    match raisedFloor e.floor (e.joinedBook doc).legacy with
    | some l => (e.joinedBook doc).legacy = some l ∧ ∀ b, e.floor = some b → b < l
    | none => (e.joinedBook doc).legacy = e.floor := by
  rw [legacy_joinedBook]
  unfold raisedFloor
  cases hf : e.floor with
  | none => cases doc.book.legacy <;> simp [Option.filter]
  | some b =>
    cases doc.book.legacy with
    | none => simp [Option.filter]
    | some l =>
      rw [Option.merge_some_some]
      by_cases hlt : b < l
      · simp [Option.filter, hlt, max_eq_right hlt.le]
      · simp [Option.filter, max_eq_left (not_lt.mp hlt)]

section

variable {c : Codec} {kind : EntityKind} {U P : Share} {doc : DocEntity} {e : Entity}
  (hU : U.WellFormed) (hstored : U.Stored c) (hdoc : doc.Sound c kind U) (h : e.Sound c kind U)

include hdoc h

theorem Sound.joinedBook : (e.joinedBook doc).Sound U.books := by
  unfold Entity.joinedBook
  cases hb : e.book with
  | none => exact hdoc.book
  | some p => exact (h.book p.1 p.2 hb).2.join hdoc.book

theorem Sound.kind_join : (e.book.map (·.1)).getD doc.kind = kind := by
  cases hb : e.book with
  | none => exact hdoc.sameKind
  | some p => exact (h.book p.1 p.2 hb).1

include hU

theorem Sound.joining : Working U e.regs (e.joinedBook doc).legacy (e.joining doc) := by
  obtain ⟨hcons, hfresh, -⟩ := consistent_joinVersions hU h.dag hdoc
  have hload := h.working hcons
    (a := ⟨(joinVersions e.dag doc.versions doc.frontier).2,
      (joinVersions e.dag doc.versions doc.frontier).2⟩) hfresh
  have hfloor := raisedFloor_joinedBook e doc
  unfold Entity.joining
  cases hr : raisedFloor e.floor (e.joinedBook doc).legacy with
  | none =>
    rw [hr] at hfloor
    rw [hfloor]
    exact hload
  | some l =>
    rw [hr] at hfloor
    rw [hfloor.1]
    exact hload.raised hfloor.2

theorem CoveredButRemoves.joining (hc : e.CoveredButRemoves U P) :
    WorkingCovered U (e.joinedBook doc).legacy (e.joining doc) P := by
  obtain ⟨hcons, hfresh, -⟩ := consistent_joinVersions hU h.dag hdoc
  have hload := hc.working h hcons
    (a := ⟨(joinVersions e.dag doc.versions doc.frontier).2,
      (joinVersions e.dag doc.versions doc.frontier).2⟩) hfresh
  have hfloor := raisedFloor_joinedBook e doc
  unfold Entity.joining
  cases hr : raisedFloor e.floor (e.joinedBook doc).legacy with
  | none =>
    rw [hr] at hfloor
    rw [hfloor]
    exact hload
  | some l =>
    rw [hr] at hfloor
    rw [hfloor.1]
    exact hload.raised hfloor.2

include hstored

theorem Sound.joined :
    Working U e.regs (e.joinedBook doc).legacy (e.joined c doc) ∧
      WorkingCovered U (e.joinedBook doc).legacy (e.joined c doc) doc.share ∧
      ∀ P, WorkingCovered U (e.joinedBook doc).legacy (e.joining doc) P →
        WorkingCovered U (e.joinedBook doc).legacy (e.joined c doc) P := by
  have hw := h.joining hU hdoc
  obtain ⟨-, -, hseen⟩ := consistent_joinVersions hU h.dag hdoc
  have hheld := held_joinVersions hU h.dag hdoc
  rw [← dag_joining] at hseen
  simp only [← dag_joining] at hheld
  obtain ⟨⟨htracks, hfloor, hregs⟩, hregsCov, hregsKeep⟩ :=
    hdoc.offerAll hU hstored hw.dag hw.tracks hw.atFloor hw.regs
      (fun x hx => (hheld _).mpr (.inr (hdoc.held x hx))) fun l hl => by
        rw [legacy_joinedBook]
        cases e.floor with
        | none => simp [hl, atOrBelowFloor]
        | some b => simp [hl, atOrBelowFloor]
  obtain ⟨hmaps, hmapsCov, hmapsKeep⟩ := hdoc.writeMaps hstored hw.maps
  obtain ⟨hadds, haddsCov, haddsKeep⟩ := hdoc.writeAdds hU hstored hw.adds
  obtain ⟨hremoves, -, -⟩ := hdoc.writeRemoves hstored hw.removes
  obtain ⟨hdeltas, hdeltasCov, hdeltasKeep⟩ := hdoc.writeDeltas hU hw.deltas
  refine ⟨⟨hw.dag, htracks, hfloor, hregs, hmaps, hadds, hremoves, hdeltas⟩,
    ⟨?_, ?_, hregsCov, hmapsCov, haddsCov, hdeltasCov⟩, fun P hP =>
      ⟨hP.held, hP.recorded, hregsKeep P hP.regs, hmapsKeep P hP.maps, haddsKeep P hP.adds,
        hdeltasKeep P hP.deltas⟩⟩
  · rintro s ⟨v, ⟨b, hv⟩, rfl⟩
    exact (hheld _).mpr (.inr ⟨v.row b, hv, rfl⟩)
  · intro s dev a hs
    exact ⟨(hheld s).mpr (.inr hs.1), hseen s dev a hs⟩

/-- **Joining a document keeps the state sound.** -/
theorem Sound.join : Sound c kind U (joinEntity c doc e) := by
  obtain ⟨hw, -, -⟩ := h.joined hU hstored hdoc
  rw [joinEntity_eq, h.kind_join hdoc, hdoc.sameKind]
  exact hw.sound_flush hU h.normal (h.joinedBook hdoc) rfl

theorem Sound.removes_join :
    RemovesCovered (joinEntity c doc e).removes doc.share ∧
      ∀ P, RemovesCovered e.removes P → RemovesCovered (joinEntity c doc e).removes P := by
  have hw := h.joining hU hdoc
  obtain ⟨-, hcov, hkeep⟩ := hdoc.writeRemoves hstored hw.removes
  have hsame : (e.joining doc).1.removes = e.removes := by
    unfold Entity.joining
    cases raisedFloor e.floor (e.joinedBook doc).legacy <;> rfl
  rw [hsame] at hcov hkeep
  have heq : (joinEntity c doc e).removes = doc.writeRemoves c e.removes := by
    rw [joinEntity_eq, ← hsame]
    rfl
  rw [heq]
  exact ⟨hcov, hkeep⟩

/-- **Joining a document covers it.** -/
theorem Sound.covered_join : Covered U (joinEntity c doc e) doc.share := by
  obtain ⟨hw, hcov, -⟩ := h.joined hU hstored hdoc
  refine ⟨?_, (h.removes_join hU hstored hdoc).1⟩
  rw [joinEntity_eq, h.kind_join hdoc, hdoc.sameKind]
  refine hcov.flush hU hw h.normal (h.joinedBook hdoc) rfl ?_
  rintro b rfl
  unfold Entity.joinedBook
  cases e.book with
  | none => exact Bookkeeping.Covered.refl _
  | some p => exact Bookkeeping.covered_join_right _ _

theorem CoveredButRemoves.join (hc : CoveredButRemoves U e P) :
    CoveredButRemoves U (joinEntity c doc e) P := by
  obtain ⟨hw, -, hkeep⟩ := h.joined hU hstored hdoc
  rw [joinEntity_eq, h.kind_join hdoc, hdoc.sameKind]
  refine (hkeep P (hc.joining hU hdoc h)).flush hU hw h.normal (h.joinedBook hdoc) rfl
    fun b hb => ?_
  obtain ⟨k, m, hbook, hm⟩ := hc.book b hb
  have hjoined : e.joinedBook doc = m.join doc.book := by rw [Entity.joinedBook, hbook]; rfl
  rw [hjoined]
  exact hm.trans (Bookkeeping.covered_join_left _ _)

/-- **What was covered stays covered.** -/
theorem Covered.join (hc : Covered U e P) : Covered U (joinEntity c doc e) P :=
  ⟨hc.toCoveredButRemoves.join hU hstored hdoc h,
    (h.removes_join hU hstored hdoc).2 P hc.removes⟩

end

/-! ### A document with or without the entity -/

/-- Join what a document carries of the entity, if it does. -/
def joinDoc (c : Codec) (doc : Option DocEntity) (e : Entity) : Entity :=
  match doc with
  | some d => joinEntity c d e
  | none => e

section

variable {c : Codec} {kind : EntityKind} {U P : Share} {doc : Option DocEntity} {e : Entity}
  (hU : U.WellFormed) (hstored : U.Stored c) (hdoc : ∀ d, doc = some d → d.Sound c kind U)
  (h : e.Sound c kind U)

include hU hstored hdoc h

theorem Sound.joinDoc : (joinDoc c doc e).Sound c kind U := by
  cases doc with
  | none => exact h
  | some d => exact h.join hU hstored (hdoc d rfl)

theorem Covered.joinDoc (hc : e.Covered U P) : (joinDoc c doc e).Covered U P := by
  cases doc with
  | none => exact hc
  | some d => exact hc.join hU hstored (hdoc d rfl) h

theorem Sound.covered_joinDoc {d : DocEntity} (hd : doc = some d) :
    (Entity.joinDoc c doc e).Covered U d.share := by
  subst hd
  exact h.covered_join hU hstored (hdoc d rfl)

end

end Entity

theorem joinStreamState_apply (c : Codec) (s : Store) (doc : Doc) (id : Id) :
    joinStreamState c s doc id = Entity.joinDoc c (doc id) (s id) := by
  unfold joinStreamState Entity.joinDoc
  cases doc id <;> rfl

end Sunrise
