import Sunrise.Merge.Versions

/-!
# The order of an entity's versions

A `History` is what is known of the versions of one entity: the versions, what
frontiers recorded elsewhere say of them (`seen`), and which of them are folded from
their own ops (`merged`). A replica's DAG holds some of the versions.
`Dag.Consistent U d` is what every admission and every recomputation keeps:

* the rows are versions of `U`, and each has a frontier;
* a frontier is sound for `U` and closed over the versions held;
* a version that is not flagged a head is reached by another held version;
* a flagged one is reached by no other, unless it was folded from its own op while no
  version held names it or is by its device.

The exception in the last is what a frontier that reaches past the versions held
makes of the fast path. In an ordered history (`History.Ordered`) it closes once all
versions are held, and the frontiers and the flags are determined
(`Dag.Consistent.unique`).
-/

namespace Sunrise

open Stamp Table

open Causal

/-- What there is to know of an entity's versions. -/
structure History where
  versions : Set Version
  seen : Stamp → Device → Stamp → Prop
  merged : Set Stamp

instance : Membership Version History := ⟨fun U v => v ∈ U.versions⟩

def stampsOf (U : History) : Set Stamp := {s | ∃ v ∈ U, v.stamp = s}

def Names (U : History) (s p : Stamp) : Prop :=
  ∃ v ∈ U, v.stamp = s ∧ p.opRef ∈ v.parents.getD []

/-- One step down in a history. -/
abbrev HistEdge (U : History) : Stamp → Stamp → Prop := Edge device (Names U) (stampsOf U)

abbrev HistReach (U : History) : Stamp → Stamp → Prop :=
  Reach device (Names U) (stampsOf U)

abbrev HistCovers (U : History) : Stamp → Device → Stamp → Prop :=
  Covers device (Names U) (stampsOf U) U.seen

abbrev HistPrecedes (U : History) : Stamp → Stamp → Prop :=
  Precedes device (Names U) (stampsOf U) U.seen

abbrev HistSound (U : History) : Stamp → Frontier Device Stamp → Prop :=
  Sound device (Names U) (stampsOf U) U.seen

def DistinctVersions (V : Set Version) : Prop :=
  ∀ v ∈ V, ∀ w ∈ V, v.stamp.opRef = w.stamp.opRef → v = w

namespace History

/-- The versions are told apart by their op-refs, and no record looks ahead. -/
structure Valid (U : History) : Prop where
  distinct : DistinctVersions U.versions
  le : ∀ w ∈ stampsOf U, ∀ a ∈ stampsOf U, U.seen w a.device a → a ≤ w

/-- The records are complete enough for the history to have one order. -/
structure Settled (U : History) : Prop where
  trans : ∀ a ∈ stampsOf U, ∀ b ∈ stampsOf U, ∀ c ∈ stampsOf U,
    HistCovers U c b.device b → HistCovers U b a.device a → HistCovers U c a.device a
  /-- A version folded from its own op that another follows is one step below some
  version. -/
  entered : ∀ s ∈ stampsOf U, s ∈ U.merged → ∀ w ∈ stampsOf U, HistPrecedes U s w →
    ∃ y, HistEdge U y s

/-- A valid history with one order. -/
structure Ordered (U : History) : Prop extends Valid U, Settled U

theorem Valid.covers_le {U : History} (h : U.Valid) {v a : Stamp} (hv : v ∈ stampsOf U)
    (ha : a ∈ stampsOf U) (hc : HistCovers U v a.device a) : a ≤ v := by
  obtain ⟨w, hw, ⟨-, hle⟩ | hseen⟩ := hc
  · exact hle.trans hw.le
  · exact (h.le w (hw.mem hv) a ha hseen).trans hw.le

theorem Ordered.order {U : History} (h : U.Ordered) :
    Causal.Ordered device (Names U) (stampsOf U) U.seen := ⟨h.le, h.trans⟩

/-- A history of versions alone: no records, everything folded from its own op. -/
def ofVersions (V : Set Version) : History := ⟨V, fun _ _ _ => False, Set.univ⟩

theorem ordered_of_unrecorded {U : History} (h : DistinctVersions U.versions)
    (hseen : ∀ s dev a, ¬ U.seen s dev a) : U.Ordered := by
  have horder : Causal.Ordered device (Names U) (stampsOf U) U.seen :=
    ordered_of_no_base hseen
  refine ⟨⟨h, horder.le⟩, ⟨horder.trans, fun s hs _ w hw hp => ?_⟩⟩
  obtain ⟨x, hx, ⟨hdev, hle⟩ | hfalse⟩ := hp.2
  · rcases hle.lt_or_eq with hlt | rfl
    · exact ⟨x, hx.mem hw, hs, hlt, .inr hdev.symm⟩
    · obtain ⟨y, -, he⟩ := hx.exists_last (Ne.symm hp.1)
      exact ⟨y, he⟩
  · exact absurd hfalse (hseen x _ s)

theorem ordered_ofVersions {V : Set Version} (h : DistinctVersions V) :
    (ofVersions V).Ordered :=
  ordered_of_unrecorded h fun _ _ _ => id

end History

variable {v : Version} {s : Stamp} {r : VersionRow}

namespace Dag

def held (d : Dag) : Set Stamp := {s | d.stampOf s.opRef = some s}

def frontierAt (d : Dag) (s : Stamp) : Frontier Device Stamp := d.frontierOf s.opRef

theorem stampOf_eq_some {d : Dag} {op : OpRef} :
    d.stampOf op = some s ↔ ∃ r, d.versions.find op = some r ∧ op.stamp r.hlc = s := by
  unfold stampOf
  rw [Option.map_eq_some_iff]

theorem stampOf_eq_none {d : Dag} {op : OpRef} :
    d.stampOf op = none ↔ d.versions.find op = none := by
  unfold stampOf
  rw [Option.map_eq_none_iff]

theorem mem_held_of_stampOf {d : Dag} {op : OpRef} (h : d.stampOf op = some s) :
    s ∈ d.held ∧ s.opRef = op := by
  obtain ⟨r, hr, rfl⟩ := stampOf_eq_some.mp h
  exact ⟨h, rfl⟩

theorem mem_held_iff {d : Dag} :
    s ∈ d.held ↔ ∃ r, d.versions.find s.opRef = some r ∧ r.hlc = s.hlc := by
  show d.stampOf s.opRef = some s ↔ _
  rw [stampOf_eq_some]
  refine exists_congr fun r => and_congr_right fun _ => ⟨fun h => ?_, fun h => ?_⟩
  · rw [← h, OpRef.hlc_stamp]
  · rw [h, stamp_opRef]

theorem mem_held_of_find {d : Dag} {op : OpRef}
    (h : d.versions.find op = some r) : op.stamp r.hlc ∈ d.held :=
  mem_held_iff.mpr ⟨r, h, rfl⟩

theorem mem_stamps {d : Dag} : s ∈ d.stamps ↔ s ∈ d.held := by
  unfold stamps
  rw [List.mem_map, mem_held_iff]
  constructor
  · rintro ⟨⟨op, r⟩, hr, rfl⟩
    exact ⟨r, Table.mem_rows.mp hr, rfl⟩
  · rintro ⟨r, hr, hhlc⟩
    exact ⟨(s.opRef, r), Table.mem_rows.mpr hr, by simp [rowStamp, hhlc]⟩

theorem eq_of_mem_held {d : Dag} {s t : Stamp} (hs : s ∈ d.held) (ht : t ∈ d.held)
    (h : s.opRef = t.opRef) : s = t := by
  have hs' : d.stampOf s.opRef = some s := hs
  have ht' : d.stampOf t.opRef = some t := ht
  rw [h, ht', Option.some.injEq] at hs'
  exact hs'.symm

/-! ### What the fold can always rely on -/

def RowsOf (U : History) (d : Dag) : Prop :=
  ∀ op r, d.versions.find op = some r → ∃ v ∈ U, v.stamp.opRef = op ∧ r = v.row r.isHead

section

variable {U : History} {d : Dag}

theorem RowsOf.held_subset (h : RowsOf U d) :
    d.held ⊆ stampsOf U := by
  intro s hs
  obtain ⟨r, hr, hhlc⟩ := mem_held_iff.mp hs
  obtain ⟨v, hv, hop, hrow⟩ := h _ _ hr
  refine ⟨v, hv, eq_of_opRef_of_hlc hop ?_⟩
  rw [← hhlc, hrow]
  rfl

theorem RowsOf.row_of_held (hU : U.Valid)
    (h : RowsOf U d) (hv : v ∈ U) (hs : v.stamp ∈ d.held) :
    ∃ b, d.versions.find v.stamp.opRef = some (v.row b) := by
  obtain ⟨r, hr, -⟩ := mem_held_iff.mp hs
  obtain ⟨w, hw, hop, hrow⟩ := h _ _ hr
  obtain rfl := hU.distinct w hw v hv hop
  exact ⟨r.isHead, by rw [hr, ← hrow]⟩

theorem RowsOf.stampOf_eq (hU : U.Valid)
    (h : RowsOf U d) (hv : v ∈ U) (t : Stamp)
    (ht : d.stampOf v.stamp.opRef = some t) : t = v.stamp := by
  obtain ⟨hheld, hop⟩ := mem_held_of_stampOf ht
  obtain ⟨w, hw, rfl⟩ := h.held_subset hheld
  rw [hU.distinct w hw v hv hop]

theorem RowsOf.names_iff (hU : U.Valid)
    (h : RowsOf U d) {op : OpRef} (hr : d.versions.find op = some r)
    (p : Stamp) : p.opRef ∈ r.parents.getD [] ↔ Names U (op.stamp r.hlc) p := by
  obtain ⟨v, hv, hop, hrow⟩ := h _ _ hr
  have hstamp : op.stamp r.hlc = v.stamp := by
    rw [hrow, ← hop]
    rfl
  have hpar : r.parents = v.parents := by
    rw [hrow]
    rfl
  rw [hstamp, hpar]
  constructor
  · exact fun hp => ⟨v, hv, rfl, hp⟩
  · rintro ⟨w, hw, hws, hp⟩
    obtain rfl := hU.distinct w hw v hv (by rw [hws])
    exact hp

end

/-- What admissions and recomputations keep. -/
structure Consistent (U : History) (d : Dag) : Prop where
  rows : RowsOf U d
  keys : ∀ op, d.frontier.find op = none ↔ d.versions.find op = none
  /-- A frontier covers no more than its version reaches in the history. -/
  sound : ∀ s ∈ d.held, HistSound U s (d.frontierAt s)
  closed : Closed device (Names U) d.held d.frontierAt
  unflagged : ∀ op r, d.versions.find op = some r → r.isHead = false →
    ∃ w ∈ d.held, w ≠ op.stamp r.hlc ∧ (d.frontierAt w).Reaches op.device (op.stamp r.hlc)
  /-- A head is followed by no other, unless it was folded from its own op, and then
  by none in one step. -/
  flagged : ∀ op r, d.versions.find op = some r → r.isHead = true →
    ∀ w ∈ d.held, w ≠ op.stamp r.hlc → (d.frontierAt w).Reaches op.device (op.stamp r.hlc) →
      op.stamp r.hlc ∈ U.merged ∧ ∀ y ∈ d.held, ¬ HistEdge U y (op.stamp r.hlc)

theorem consistent_empty (U : History) : Consistent U ∅ where
  rows := fun _ _ h => absurd h (by nofun)
  keys := fun _ => ⟨fun _ => rfl, fun _ => rfl⟩
  sound := fun s hs => by
    obtain ⟨r, hr, -⟩ := mem_held_iff.mp hs
    exact absurd hr (by nofun)
  closed := fun s hs => by
    obtain ⟨r, hr, -⟩ := mem_held_iff.mp hs
    exact absurd hr (by nofun)
  unflagged := fun _ _ h => absurd h (by nofun)
  flagged := fun _ _ h => absurd h (by nofun)

/-! ### The pieces of an admission -/

theorem joinParents_cons (d : Dag) (s : Stamp) (frontiers : OpRef → Frontier Device Stamp)
    (p : OpRef) (ps : List OpRef) (f : Frontier Device Stamp) :
    joinParents d s frontiers (p :: ps) f =
      joinParents d s frontiers ps
        (match d.stampOf p with
        | some t => if t < s then f.join (frontiers p) else f
        | none => f) := rfl

theorem reaches_joinParents {d : Dag} {frontiers : OpRef → Frontier Device Stamp}
    {parents : List OpRef} {f : Frontier Device Stamp} {dev : Device} {a : Stamp} :
    (joinParents d s frontiers parents f).Reaches dev a ↔
      f.Reaches dev a ∨
        ∃ p ∈ parents, ∃ t, d.stampOf p = some t ∧ t < s ∧ (frontiers p).Reaches dev a := by
  induction parents generalizing f with
  | nil => simp [joinParents]
  | cons p ps ih =>
    rw [joinParents_cons, ih]
    cases hp : d.stampOf p with
    | none => simp [hp]
    | some t =>
      by_cases hts : t < s
      · simp [hp, hts, or_assoc]
      · simp [hp, hts]

theorem sound_joinParents {U : History} {d : Dag} {s v : Stamp}
    {frontiers : OpRef → Frontier Device Stamp} {parents : List OpRef} {f : Frontier Device Stamp}
    (hf : HistSound U v f)
    (hp : ∀ p ∈ parents, ∀ t, d.stampOf p = some t → t < s →
      HistSound U v (frontiers p)) :
    HistSound U v (joinParents d s frontiers parents f) := by
  induction parents generalizing f with
  | nil => exact hf
  | cons p ps ih =>
    rw [joinParents_cons]
    refine ih ?_ fun q hq => hp q (List.mem_cons_of_mem _ hq)
    split
    next t ht =>
      split
      next hlt => exact hf.join (hp p List.mem_cons_self t ht hlt)
      next => exact hf
    next => exact hf

theorem previousOfDevice_eq_some {d : Dag} {op : OpRef}
    (h : d.previousOfDevice s = some op) :
    ∃ t ∈ d.held, t.opRef = op ∧ t.device = s.device ∧ t < s ∧
      ∀ u ∈ d.held, u.device = s.device → u < s → u ≤ t := by
  unfold previousOfDevice at h
  rw [Option.map_eq_some_iff] at h
  obtain ⟨t, ht, hop⟩ := h
  rw [List.max?_eq_some_iff] at ht
  obtain ⟨hmem, hmax⟩ := ht
  rw [List.mem_filter, mem_stamps, decide_eq_true_iff] at hmem
  refine ⟨t, hmem.1, hop, hmem.2.1, hmem.2.2, fun u hu hdev hlt => hmax u ?_⟩
  rw [List.mem_filter, mem_stamps, decide_eq_true_iff]
  exact ⟨hu, hdev, hlt⟩

theorem previousOfDevice_eq_none {d : Dag} (h : d.previousOfDevice s = none)
    {u : Stamp} (hu : u ∈ d.held) (hdev : u.device = s.device) : ¬ u < s := by
  intro hlt
  unfold previousOfDevice at h
  rw [Option.map_eq_none_iff, List.max?_eq_none_iff, List.filter_eq_nil_iff] at h
  exact h u (mem_stamps.mpr hu) (by simp [hdev, hlt])

/-- A version that did not arrive late is reached in one step by nothing held. -/
theorem RowsOf.not_edge_of_not_late {U : History} {d : Dag} (hU : U.Valid)
    (h : RowsOf U d) {s w : Stamp} (hlate : d.arrivedLate s = false) (hw : w ∈ d.held) :
    ¬ HistEdge U w s := by
  rintro ⟨-, -, hlt, hor⟩
  obtain ⟨r, hr, hhlc⟩ := mem_held_iff.mp hw
  have hws : w.opRef.stamp r.hlc = w := by rw [hhlc, stamp_opRef]
  have hcond := List.any_eq_false.mp hlate (w.opRef, r) (Table.mem_rows.mpr hr)
  rw [rowStamp, hws] at hcond
  rcases hor with hnames | hdev
  · have : s.opRef ∈ r.parents.getD [] := (h.names_iff hU hr s).mpr (hws ▸ hnames)
    simp [hlt, this] at hcond
  · simp [hlt, hdev] at hcond

/-! ### The fast path -/

theorem reaches_frontierFor {d : Dag} {dev : Device} {a : Stamp} :
    (d.frontierFor v).Reaches dev a ↔
      (dev = v.stamp.device ∧ a ≤ v.stamp) ∨
        (∃ p ∈ v.parents.getD [], ∃ t, d.stampOf p = some t ∧ t < v.stamp ∧
          (d.frontierOf p).Reaches dev a) ∨
        ∃ op, d.previousOfDevice v.stamp = some op ∧ (d.frontierOf op).Reaches dev a := by
  unfold frontierFor
  cases hprev : d.previousOfDevice v.stamp with
  | none => simp [reaches_joinParents]
  | some op => simp [reaches_joinParents, or_assoc]

theorem Consistent.sound_frontierFor {U : History} {d : Dag} (h : Consistent U d) (hv : v ∈ U) :
    HistSound U v.stamp (d.frontierFor v) := by
  have hvU : v.stamp ∈ stampsOf U := ⟨v, hv, rfl⟩
  -- one step down to a held version, then that version's own frontier
  have hstep : ∀ t ∈ d.held, HistEdge U v.stamp t →
      HistSound U v.stamp (d.frontierAt t) :=
    fun t ht he => (h.sound t ht).trans (Relation.ReflTransGen.single he)
  have hparents : HistSound U v.stamp
      (joinParents d v.stamp d.frontierOf (v.parents.getD [])
        (Frontier.single v.stamp.device v.stamp)) := by
    refine sound_joinParents (sound_single rfl) fun p hp t ht hlt => ?_
    obtain ⟨hheld, rfl⟩ := mem_held_of_stampOf ht
    exact hstep t hheld ⟨hvU, h.rows.held_subset hheld, hlt, .inl ⟨v, hv, rfl, hp⟩⟩
  unfold frontierFor
  cases hprev : d.previousOfDevice v.stamp with
  | none => exact hparents
  | some op =>
    obtain ⟨t, ht, rfl, hdev, hlt, -⟩ := previousOfDevice_eq_some hprev
    exact hparents.join (hstep t ht ⟨hvU, h.rows.held_subset ht, hlt, .inr hdev⟩)

theorem admitVersion_of_held {d : Dag}
    (h : d.stampOf v.stamp.opRef = some s) : d.admitVersion v = (d, ⟨false, false⟩) := by
  unfold admitVersion
  rw [h]

theorem admitVersion_of_late {d : Dag} (h : d.stampOf v.stamp.opRef = none)
    (hl : d.arrivedLate v.stamp = true) :
    d.admitVersion v =
      (recompute { d with versions := d.versions.upsert v.stamp.opRef (v.row false) },
        ⟨true, true⟩) := by
  unfold admitVersion
  rw [h]
  exact if_pos hl

theorem admitVersion_of_not_late {d : Dag} (h : d.stampOf v.stamp.opRef = none)
    (hl : d.arrivedLate v.stamp = false) : d.admitVersion v = (d.extend v, ⟨true, false⟩) := by
  unfold admitVersion
  rw [h]
  exact if_neg (by simp [hl])

theorem find_versions_extend (d : Dag) (v : Version) (op : OpRef) :
    (d.extend v).versions.find op =
      if op = v.stamp.opRef then some (v.row true)
      else (d.versions.find op).map fun r =>
        if r.isHead && reachedBy (op.stamp r.hlc) (d.frontierFor v) then
          { r with isHead := false } else r := by
  unfold extend
  rw [find_upsert]
  split
  next => rfl
  next hne => rw [find_mapValues, find_upsert_of_ne _ _ hne]

theorem find_extend_of_find {d : Dag} {op : OpRef}
    (hne : op ≠ v.stamp.opRef) (h : (d.extend v).versions.find op = some r) :
    ∃ r₀, d.versions.find op = some r₀ ∧ r = { r₀ with isHead := r.isHead } ∧
      (r.isHead = true → r₀.isHead = true ∧
        ¬ (d.frontierFor v).Reaches op.device (op.stamp r.hlc)) ∧
      (r.isHead = false → r₀.isHead = true →
        (d.frontierFor v).Reaches op.device (op.stamp r.hlc)) := by
  rw [find_versions_extend, if_neg hne, Option.map_eq_some_iff] at h
  obtain ⟨r₀, hr₀, hr⟩ := h
  refine ⟨r₀, hr₀, ?_⟩
  split at hr
  next hc =>
    simp only [reachedBy, Bool.and_eq_true, decide_eq_true_eq] at hc
    subst hr
    exact ⟨rfl, by simp, fun _ _ => hc.2⟩
  next hc =>
    simp only [reachedBy, Bool.and_eq_true, decide_eq_true_eq, not_and] at hc
    subst hr
    exact ⟨rfl, fun hh => ⟨hh, hc hh⟩, fun hf ht => by simp [hf] at ht⟩

theorem held_extend {d : Dag} (h : d.stampOf v.stamp.opRef = none) (s : Stamp) :
    s ∈ (d.extend v).held ↔ s = v.stamp ∨ s ∈ d.held := by
  rw [mem_held_iff, find_versions_extend]
  by_cases hop : s.opRef = v.stamp.opRef
  · rw [if_pos hop]
    have hnot : s ∉ d.held := by
      intro hs
      obtain ⟨r, hr, -⟩ := mem_held_iff.mp hs
      rw [hop, stampOf_eq_none.mp h] at hr
      simp at hr
    constructor
    · rintro ⟨r, hr, hhlc⟩
      rw [Option.some.injEq] at hr
      exact .inl (eq_of_opRef_of_hlc hop (by rw [← hhlc, ← hr]; rfl))
    · rintro (rfl | hs)
      · exact ⟨_, rfl, rfl⟩
      · exact absurd hs hnot
  · rw [if_neg hop, mem_held_iff]
    have hne : s ≠ v.stamp := fun heq => hop (by rw [heq])
    simp only [hne, false_or, Option.map_eq_some_iff, exists_exists_and_eq_and]
    refine exists_congr fun r => and_congr_right fun _ => ?_
    split <;> rfl

theorem frontierAt_extend_self (d : Dag) (v : Version) :
    (d.extend v).frontierAt v.stamp = d.frontierFor v := by
  simp [frontierAt, frontierOf, extend]

theorem frontierAt_extend_of_ne (d : Dag) (v : Version)
    (h : s.opRef ≠ v.stamp.opRef) : (d.extend v).frontierAt s = d.frontierAt s := by
  simp [frontierAt, frontierOf, extend, find_upsert_of_ne _ _ h]

theorem closed_extend {U : History} {d : Dag} (hU : U.Valid)
    (h : Consistent U d) (hv : v ∈ U) (hnew : d.stampOf v.stamp.opRef = none)
    (hlate : d.arrivedLate v.stamp = false) :
    Closed device (Names U) (d.extend v).held (d.extend v).frontierAt := by
  have hne : ∀ s ∈ d.held, s.opRef ≠ v.stamp.opRef := by
    intro s hs heq
    rw [← heq, show d.stampOf s.opRef = some s from hs] at hnew
    simp at hnew
  intro s hs
  rcases (held_extend hnew s).mp hs with rfl | hs
  · -- the new version covers itself, and the frontier of each version one step down
    rw [frontierAt_extend_self]
    refine ⟨reaches_frontierFor.mpr (.inl ⟨rfl, le_rfl⟩), fun p he dev a ha => ?_⟩
    have hp : p ∈ d.held := by
      rcases (held_extend hnew p).mp he.2.1 with rfl | hp
      · exact absurd he.2.2.1 (lt_irrefl _)
      · exact hp
    rw [frontierAt_extend_of_ne d v (hne p hp)] at ha
    rcases he.2.2.2 with ⟨w, hw, hws, hpar⟩ | hdev
    · obtain rfl := hU.distinct w hw v hv (by rw [hws])
      exact reaches_frontierFor.mpr (.inr (.inl ⟨p.opRef, hpar, p, hp, he.2.2.1, ha⟩))
    · cases hprev : d.previousOfDevice v.stamp with
      | none => exact absurd he.2.2.1 (previousOfDevice_eq_none hprev hp hdev)
      | some op =>
        obtain ⟨t, ht, rfl, htdev, -, hmax⟩ := previousOfDevice_eq_some hprev
        have hreach : Reach device (Names U) d.held t p :=
          reach_of_author ht hp (hmax p hp hdev he.2.2.1) (hdev.trans htdev.symm)
        exact reaches_frontierFor.mpr
          (.inr (.inr ⟨t.opRef, hprev, h.closed.below hreach dev a ha⟩))
  · -- an older version cannot reach the new one, so nothing of its own changed
    rw [frontierAt_extend_of_ne d v (hne s hs)]
    refine ⟨(h.closed s hs).1, fun p he => ?_⟩
    rcases (held_extend hnew p).mp he.2.1 with rfl | hp
    · exact absurd ⟨h.rows.held_subset hs, ⟨v, hv, rfl⟩, he.2.2⟩
        (h.rows.not_edge_of_not_late hU hlate hs)
    · rw [frontierAt_extend_of_ne d v (hne p hp)]
      exact (h.closed s hs).2 p ⟨hs, hp, he.2.2⟩

theorem consistent_extend {U : History} {d : Dag} (hU : U.Valid)
    (h : Consistent U d) (hv : v ∈ U) (hm : v.stamp ∈ U.merged)
    (hnew : d.stampOf v.stamp.opRef = none) (hlate : d.arrivedLate v.stamp = false) :
    Consistent U (d.extend v) := by
  have hne : ∀ s ∈ d.held, s.opRef ≠ v.stamp.opRef := by
    intro s hs heq
    rw [← heq, show d.stampOf s.opRef = some s from hs] at hnew
    simp at hnew
  have hself : (d.extend v).versions.find v.stamp.opRef = some (v.row true) := by
    rw [find_versions_extend, if_pos rfl]
  have hclosed := closed_extend hU h hv hnew hlate
  refine ⟨?rows, ?keys, ?sound, hclosed, ?unflagged, ?flagged⟩
  case rows =>
    intro op r hr
    by_cases hop : op = v.stamp.opRef
    · subst hop
      rw [hself, Option.some.injEq] at hr
      subst hr
      exact ⟨v, hv, rfl, rfl⟩
    · obtain ⟨r₀, hr₀, heq, -⟩ := find_extend_of_find hop hr
      obtain ⟨w, hw, hwop, hwr⟩ := h.rows op r₀ hr₀
      refine ⟨w, hw, hwop, ?_⟩
      rw [heq, hwr]
      rfl
  case keys =>
    intro op
    rw [find_versions_extend]
    by_cases hop : op = v.stamp.opRef
    · simp [hop, extend]
    · rw [if_neg hop, Option.map_eq_none_iff, ← h.keys op]
      simp [extend, find_upsert_of_ne _ _ hop]
  case sound =>
    intro s hs
    rcases (held_extend hnew s).mp hs with rfl | hs
    · rw [frontierAt_extend_self]
      exact h.sound_frontierFor hv
    · rw [frontierAt_extend_of_ne d v (hne s hs)]
      exact h.sound s hs
  case unflagged =>
    intro op r hr hflag
    have hop : op ≠ v.stamp.opRef := by
      rintro rfl
      rw [hself, Option.some.injEq] at hr
      rw [← hr] at hflag
      simp [Version.row] at hflag
    obtain ⟨r₀, hr₀, heq, -, hoff⟩ := find_extend_of_find hop hr
    have hhlc : r.hlc = r₀.hlc := by rw [heq]
    cases hr₀flag : r₀.isHead with
    | true =>
      -- unflagged just now: the new version reaches it
      refine ⟨v.stamp, (held_extend hnew _).mpr (.inl rfl), ?_, ?_⟩
      · exact fun heq' => hop (by rw [heq', OpRef.opRef_stamp])
      · rw [frontierAt_extend_self]
        exact hoff hflag hr₀flag
    | false =>
      obtain ⟨w, hw, hwne, hwr⟩ := h.unflagged op r₀ hr₀ hr₀flag
      refine ⟨w, (held_extend hnew _).mpr (.inr hw), hhlc ▸ hwne, ?_⟩
      rw [frontierAt_extend_of_ne d v (hne w hw), hhlc]
      exact hwr
  case flagged =>
    intro op r hr hflag w hw hwne hwr
    by_cases hop : op = v.stamp.opRef
    · subst hop
      rw [hself, Option.some.injEq] at hr
      have hstamp : v.stamp.opRef.stamp r.hlc = v.stamp := by
        rw [← hr]
        rfl
      rw [hstamp]
      refine ⟨hm, fun y hy he => ?_⟩
      rcases (held_extend hnew y).mp hy with rfl | hy
      · exact lt_irrefl _ he.2.2.1
      · exact h.rows.not_edge_of_not_late hU hlate hy he
    · obtain ⟨r₀, hr₀, heq, hon, -⟩ := find_extend_of_find hop hr
      have hhlc : r.hlc = r₀.hlc := by rw [heq]
      have hnot := (hon hflag).2
      rcases (held_extend hnew w).mp hw with rfl | hwd
      · rw [frontierAt_extend_self] at hwr
        exact absurd hwr hnot
      · rw [frontierAt_extend_of_ne d v (hne w hwd), hhlc] at hwr
        rw [hhlc] at hwne hnot ⊢
        obtain ⟨hmerged, hedge⟩ := h.flagged op r₀ hr₀ (hon hflag).1 w hwd hwne hwr
        refine ⟨hmerged, fun y hy he => ?_⟩
        rcases (held_extend hnew y).mp hy with rfl | hy
        · -- one step below the new version, it would have lost its flag
          have hs : op.stamp r₀.hlc ∈ d.held := mem_held_of_find hr₀
          have hreach := hclosed.reaches hy (Relation.ReflTransGen.single
            ⟨hy, (held_extend hnew _).mpr (.inr hs), he.2.2⟩)
          rw [frontierAt_extend_self] at hreach
          exact hnot hreach
        · exact hedge y hy he

/-! ### The recomputation -/

theorem mem_inStampOrder {d : Dag} {x : OpRef × VersionRow} :
    x ∈ d.inStampOrder ↔ d.versions.find x.1 = some x.2 := by
  unfold inStampOrder
  rw [List.mem_insertionSort, mem_rows]

theorem rowStamp_inj {d : Dag} {x y : OpRef × VersionRow} (hx : x ∈ d.inStampOrder)
    (hy : y ∈ d.inStampOrder) (h : rowStamp x = rowStamp y) : x = y := by
  have hop : x.1 = y.1 := congrArg opRef h
  have hrow : some x.2 = some y.2 := by
    rw [← mem_inStampOrder.mp hx, ← mem_inStampOrder.mp hy, hop]
  exact Prod.ext hop (Option.some.inj hrow)

theorem inStampOrder_pairwise (d : Dag) :
    d.inStampOrder.Pairwise fun a b => rowStamp a < rowStamp b := by
  have hle : d.inStampOrder.Pairwise fun a b => rowStamp a ≤ rowStamp b := by
    unfold inStampOrder
    have : Std.Total fun a b : OpRef × VersionRow => rowStamp a ≤ rowStamp b :=
      ⟨fun a b => le_total _ _⟩
    have : IsTrans (OpRef × VersionRow) (fun a b => rowStamp a ≤ rowStamp b) :=
      ⟨fun _ _ _ => le_trans⟩
    exact List.pairwise_insertionSort _ _
  have hnodup : d.inStampOrder.Nodup := by
    unfold inStampOrder
    refine (List.perm_insertionSort _ _).nodup_iff.mpr ?_
    exact d.versions.sorted.imp fun hlt => ne_of_apply_ne Prod.fst (ne_of_lt hlt)
  refine (hle.and hnodup).imp_of_mem fun hx hy h => ?_
  exact lt_of_le_of_ne h.1 fun heq => h.2 (rowStamp_inj hx hy heq)

abbrev doneAt (acc : Table OpRef (Frontier Device Stamp) × Table Device Stamp) (op : OpRef) :
    Frontier Device Stamp :=
  (acc.1.find op).getD ∅

/-- The recomputation, once it has passed the rows `P`. -/
structure Passed (U : History) (d : Dag) (P : List (OpRef × VersionRow))
    (acc : Table OpRef (Frontier Device Stamp) × Table Device Stamp) : Prop where
  keys : ∀ op, acc.1.find op = none ↔ ∀ x ∈ P, x.1 ≠ op
  stored : ∀ x ∈ P, (d.frontierOf x.1).Below (doneAt acc x.1)
  sound : ∀ x ∈ P, HistSound U (rowStamp x) (doneAt acc x.1)
  self : ∀ x ∈ P, (doneAt acc x.1).Reaches (rowStamp x).device (rowStamp x)
  edge : ∀ x ∈ P, ∀ y ∈ P, rowStamp y < rowStamp x →
    (Names U (rowStamp x) (rowStamp y) ∨ (rowStamp y).device = (rowStamp x).device) →
      (doneAt acc y.1).Below (doneAt acc x.1)
  latest : ∀ dev m, acc.2.find dev = some m →
    m.device = dev ∧ (∃ x ∈ P, rowStamp x = m) ∧ ∀ x ∈ P, (rowStamp x).device = dev → rowStamp x ≤ m
  latest_none : ∀ dev, acc.2.find dev = none → ∀ x ∈ P, (rowStamp x).device ≠ dev

theorem passed_nil (U : History) (d : Dag) : Passed U d [] (∅, ∅) where
  keys := by simp
  stored := by simp
  sound := by simp
  self := by simp
  edge := by simp
  latest := by simp
  latest_none := by simp

theorem reaches_recomputeFrontier {d : Dag}
    {acc : Table OpRef (Frontier Device Stamp) × Table Device Stamp} {x : OpRef × VersionRow}
    {dev : Device} {a : Stamp} :
    (d.recomputeFrontier acc.1 acc.2 x).Reaches dev a ↔
      (d.frontierOf x.1).Reaches dev a ∨ (dev = (rowStamp x).device ∧ a ≤ rowStamp x) ∨
        (∃ p ∈ x.2.parents.getD [], ∃ t, d.stampOf p = some t ∧ t < rowStamp x ∧
          (doneAt acc p).Reaches dev a) ∨
        ∃ m, acc.2.find (rowStamp x).device = some m ∧ (doneAt acc m.opRef).Reaches dev a := by
  unfold recomputeFrontier
  cases hprev : acc.2.find (rowStamp x).device with
  | none => simp [hprev, reaches_joinParents, or_assoc]
  | some m => simp [hprev, reaches_joinParents, or_assoc]

theorem doneAt_step_self (d : Dag)
    (acc : Table OpRef (Frontier Device Stamp) × Table Device Stamp) (x : OpRef × VersionRow) :
    doneAt (d.recomputeStep acc x) x.1 = d.recomputeFrontier acc.1 acc.2 x := by
  simp [doneAt, recomputeStep]

theorem doneAt_step_of_ne (d : Dag)
    (acc : Table OpRef (Frontier Device Stamp) × Table Device Stamp) {x : OpRef × VersionRow}
    {op : OpRef} (h : op ≠ x.1) : doneAt (d.recomputeStep acc x) op = doneAt acc op := by
  simp [doneAt, recomputeStep, find_upsert_of_ne _ _ h]

section

variable {U : History} {d : Dag} {P : List (OpRef × VersionRow)} {x : OpRef × VersionRow}
  {acc : Table OpRef (Frontier Device Stamp) × Table Device Stamp}

section

variable (hrows : RowsOf U d) (hsound : ∀ s ∈ d.held, HistSound U s (d.frontierAt s)) (hU : U.Valid)
include hrows hsound hU

/-- A row passed has a frontier no greater than its history allows, and so has
the row the recomputation comes to next. -/
theorem Passed.sound_recomputeFrontier (h : Passed U d P acc) (hP : ∀ y ∈ P, y ∈ d.inStampOrder)
    (hx : x ∈ d.inStampOrder) (hlt : ∀ y ∈ P, rowStamp y < rowStamp x)
    (hbelow : ∀ y ∈ d.inStampOrder, rowStamp y < rowStamp x → y ∈ P) :
    HistSound U (rowStamp x)
      (d.recomputeFrontier acc.1 acc.2 x) := by
  have hheld : ∀ y ∈ d.inStampOrder, rowStamp y ∈ stampsOf U := fun y hy =>
    hrows.held_subset (mem_held_of_find (mem_inStampOrder.mp hy))
  -- one step down to a passed row, then that row's own frontier
  have hstep : ∀ y ∈ P,
      (Names U (rowStamp x) (rowStamp y) ∨ (rowStamp y).device = (rowStamp x).device) →
      HistSound U (rowStamp x) (doneAt acc y.1) := fun y hy hor =>
    (h.sound y hy).trans
      (Relation.ReflTransGen.single ⟨hheld x hx, hheld y (hP y hy), hlt y hy, hor⟩)
  have hparents : HistSound U (rowStamp x)
      (joinParents d (rowStamp x) (doneAt acc) (x.2.parents.getD [])
        ((d.frontierOf x.1).join (Frontier.single (rowStamp x).device (rowStamp x)))) := by
    refine sound_joinParents (Sound.join (hsound _ (mem_held_of_find (mem_inStampOrder.mp hx)))
      (sound_single rfl)) fun p hp t ht htx => ?_
    obtain ⟨r, hr, hrt⟩ := stampOf_eq_some.mp ht
    have hy : (p, r) ∈ d.inStampOrder := mem_inStampOrder.mpr hr
    have hyx : rowStamp (p, r) < rowStamp x := lt_of_eq_of_lt hrt htx
    refine hstep (p, r) (hbelow _ hy hyx) (.inl ?_)
    exact (hrows.names_iff hU (mem_inStampOrder.mp hx) (p.stamp r.hlc)).mp hp
  unfold recomputeFrontier
  cases hprev : acc.2.find (rowStamp x).device with
  | none => simpa [hprev] using hparents
  | some m =>
    obtain ⟨hdev, ⟨y, hy, hym⟩, -⟩ := h.latest _ _ hprev
    have hm : doneAt acc m.opRef = doneAt acc y.1 := by rw [← hym]; rfl
    simp only [hprev]
    refine hparents.join ?_
    show HistSound U _ (doneAt acc m.opRef)
    rw [hm]
    exact hstep y hy (.inr (by rw [hym, hdev]))

theorem Passed.step (h : Passed U d P acc) (hP : ∀ y ∈ P, y ∈ d.inStampOrder)
    (hx : x ∈ d.inStampOrder) (hlt : ∀ y ∈ P, rowStamp y < rowStamp x)
    (hbelow : ∀ y ∈ d.inStampOrder, rowStamp y < rowStamp x → y ∈ P) :
    Passed U d (P ++ [x]) (d.recomputeStep acc x) := by
  have hne : ∀ y ∈ P, y.1 ≠ x.1 := by
    intro y hy heq
    have hrow : some y.2 = some x.2 := by
      rw [← mem_inStampOrder.mp (hP y hy), ← mem_inStampOrder.mp hx, heq]
    exact ne_of_lt (hlt y hy) (congrArg rowStamp (Prod.ext heq (Option.some.inj hrow)))
  refine ⟨?keys, ?stored, ?sound, ?self, ?edge, ?latest, ?latest_none⟩
  case keys =>
    intro op
    simp only [recomputeStep, find_upsert, List.mem_append, List.mem_singleton]
    by_cases hop : op = x.1
    · simp only [hop, if_true, reduceCtorEq, false_iff]
      exact fun hall => hall x (.inr rfl) rfl
    · rw [if_neg hop, h.keys op]
      refine ⟨fun hall y hy => ?_, fun hall y hy => hall y (.inl hy)⟩
      rcases hy with hy | rfl
      · exact hall y hy
      · exact Ne.symm hop
  case stored =>
    intro y hy
    rcases List.mem_append.mp hy with hy | hy
    · rw [doneAt_step_of_ne d acc (hne y hy)]
      exact h.stored y hy
    · obtain rfl := List.mem_singleton.mp hy
      rw [doneAt_step_self]
      exact fun dev a ha => reaches_recomputeFrontier.mpr (.inl ha)
  case sound =>
    intro y hy
    rcases List.mem_append.mp hy with hy | hy
    · rw [doneAt_step_of_ne d acc (hne y hy)]
      exact h.sound y hy
    · obtain rfl := List.mem_singleton.mp hy
      rw [doneAt_step_self]
      exact h.sound_recomputeFrontier hrows hsound hU hP hx hlt hbelow
  case self =>
    intro y hy
    rcases List.mem_append.mp hy with hy | hy
    · rw [doneAt_step_of_ne d acc (hne y hy)]
      exact h.self y hy
    · obtain rfl := List.mem_singleton.mp hy
      rw [doneAt_step_self]
      exact reaches_recomputeFrontier.mpr (.inr (.inl ⟨rfl, le_rfl⟩))
  case edge =>
    intro y hy z hz hzy hor
    -- the row just passed has the greatest stamp, so it is the lower end of no edge
    have hzP : z ∈ P := by
      rcases List.mem_append.mp hz with hz | hz
      · exact hz
      · obtain rfl := List.mem_singleton.mp hz
        rcases List.mem_append.mp hy with hy | hy
        · exact absurd (hlt y hy) (not_lt_of_gt hzy)
        · obtain rfl := List.mem_singleton.mp hy
          exact absurd hzy (lt_irrefl _)
    rw [doneAt_step_of_ne d acc (hne z hzP)]
    rcases List.mem_append.mp hy with hy | hy
    · rw [doneAt_step_of_ne d acc (hne y hy)]
      exact h.edge y hy z hzP hzy hor
    · obtain rfl := List.mem_singleton.mp hy
      rw [doneAt_step_self]
      intro dev a ha
      refine reaches_recomputeFrontier.mpr (.inr (.inr ?_))
      rcases hor with hnames | hdev
      · refine .inl ⟨z.1, ?_, rowStamp z, ?_, hzy, ha⟩
        · exact (hrows.names_iff hU (mem_inStampOrder.mp hx) (rowStamp z)).mpr hnames
        · exact stampOf_eq_some.mpr ⟨z.2, mem_inStampOrder.mp (hP z hzP), rfl⟩
      · cases hprev : acc.2.find (rowStamp y).device with
        | none => exact absurd hdev (h.latest_none _ hprev z hzP)
        | some m =>
          obtain ⟨hmdev, ⟨w, hw, hwm⟩, hmax⟩ := h.latest _ _ hprev
          refine .inr ⟨m, rfl, ?_⟩
          have hm : doneAt acc m.opRef = doneAt acc w.1 := by rw [← hwm]; rfl
          rw [hm]
          rcases (hmax z hzP hdev).lt_or_eq with hzm | hzm
          · refine h.edge w hw z hzP (hwm ▸ hzm) (.inr ?_) dev a ha
            rw [hwm, hmdev, hdev]
          · have hzw : z.1 = w.1 := congrArg opRef (hzm.trans hwm.symm)
            rwa [← hzw]
  case latest =>
    intro dev m hm
    simp only [recomputeStep, find_upsert] at hm
    split at hm
    next hdev =>
      rw [Option.some.injEq] at hm
      subst hm
      refine ⟨hdev.symm, ⟨x, by simp, rfl⟩, fun y hy _ => ?_⟩
      rcases List.mem_append.mp hy with hy | hy
      · exact (hlt y hy).le
      · obtain rfl := List.mem_singleton.mp hy
        exact le_rfl
    next hdev =>
      obtain ⟨hmdev, ⟨w, hw, hwm⟩, hmax⟩ := h.latest dev m hm
      refine ⟨hmdev, ⟨w, List.mem_append_left _ hw, hwm⟩, fun y hy hydev => ?_⟩
      rcases List.mem_append.mp hy with hy | hy
      · exact hmax y hy hydev
      · obtain rfl := List.mem_singleton.mp hy
        exact absurd hydev.symm hdev
  case latest_none =>
    intro dev hnone y hy
    simp only [recomputeStep, find_upsert] at hnone
    split at hnone
    next => simp at hnone
    next hdev =>
      rcases List.mem_append.mp hy with hy | hy
      · exact h.latest_none dev hnone y hy
      · obtain rfl := List.mem_singleton.mp hy
        exact Ne.symm hdev

theorem passed_foldl (R : List (OpRef × VersionRow)) (hPR : P ++ R = d.inStampOrder)
    (h : Passed U d P acc) : Passed U d d.inStampOrder (R.foldl d.recomputeStep acc) := by
  induction R generalizing P acc with
  | nil =>
    rw [List.append_nil] at hPR
    exact hPR ▸ h
  | cons x R ih =>
    have hsorted := d.inStampOrder_pairwise
    rw [← hPR, List.pairwise_append] at hsorted
    obtain ⟨-, hxR, hcross⟩ := hsorted
    rw [List.pairwise_cons] at hxR
    have hPxR : (P ++ [x]) ++ R = d.inStampOrder := by
      rw [List.append_assoc, List.singleton_append, hPR]
    refine ih hPxR ?_
    refine h.step hrows hsound hU (fun y hy => hPR ▸ List.mem_append_left _ hy)
      (hPR ▸ List.mem_append_right _ List.mem_cons_self)
      (fun y hy => hcross y hy x List.mem_cons_self) fun y hy hyx => ?_
    -- a row of smaller stamp stands before `x`
    rw [← hPR, List.mem_append, List.mem_cons] at hy
    rcases hy with hy | rfl | hy
    · exact hy
    · exact absurd hyx (lt_irrefl _)
    · exact absurd (hxR.1 y hy) (not_lt_of_gt hyx)

end

end

theorem mem_headsOf {done : Table OpRef (Frontier Device Stamp)} {latest : Table Device Stamp}
    {c : Stamp} :
    c ∈ headsOf done latest ↔
      (∃ dev, latest.find dev = some c) ∧
        ∀ dev e, latest.find dev = some e → e ≠ c →
          ¬ ((done.find e.opRef).getD ∅).Reaches c.device c := by
  have hlast : ∀ e : Stamp, e ∈ latest.rows.map (·.2) ↔ ∃ dev, latest.find dev = some e := by
    intro e
    rw [List.mem_map]
    constructor
    · rintro ⟨r, hr, rfl⟩
      exact ⟨r.1, Table.mem_rows.mp hr⟩
    · rintro ⟨dev, hdev⟩
      exact ⟨(dev, e), Table.mem_rows.mpr hdev, rfl⟩
  unfold headsOf
  rw [List.mem_filter, hlast]
  refine and_congr_right fun _ => ?_
  simp only [Bool.not_eq_true', List.any_eq_false, hlast, reachedBy, Bool.and_eq_true,
    decide_eq_true_eq, not_and]
  exact ⟨fun h dev e he => h e ⟨dev, he⟩, fun h e ⟨dev, he⟩ => h dev e he⟩

/-- The state the recomputation ends in. -/
abbrev recomputed (d : Dag) : Table OpRef (Frontier Device Stamp) × Table Device Stamp :=
  d.inStampOrder.foldl d.recomputeStep (∅, ∅)

theorem find_versions_recompute (d : Dag) (op : OpRef) :
    (d.recompute).versions.find op = (d.versions.find op).map fun r =>
      { r with isHead := (headsOf d.recomputed.1 d.recomputed.2).contains (op.stamp r.hlc) } :=
  find_mapValues _ _ _

theorem find_recompute_of_find {d : Dag} {op : OpRef}
    (h : d.recompute.versions.find op = some r) :
    ∃ r₀, d.versions.find op = some r₀ ∧ r = { r₀ with isHead := r.isHead } ∧
      (r.isHead = true ↔ op.stamp r.hlc ∈ headsOf d.recomputed.1 d.recomputed.2) := by
  rw [find_versions_recompute, Option.map_eq_some_iff] at h
  obtain ⟨r₀, hr₀, rfl⟩ := h
  exact ⟨r₀, hr₀, rfl, List.contains_iff_mem⟩

@[simp] theorem held_recompute (d : Dag) : d.recompute.held = d.held := by
  ext s
  rw [mem_held_iff, mem_held_iff, find_versions_recompute]
  simp

/-- **Recomputing restores the invariant**, whatever closedness and flags were
before, from rows and frontiers that are the history's. -/
theorem consistent_recompute {U : History} {d : Dag} (hU : U.Valid)
    (hrows : RowsOf U d)
    (hsound : ∀ s ∈ d.held, HistSound U s (d.frontierAt s)) :
    Consistent U d.recompute ∧ ∀ s ∈ d.held, (d.frontierAt s).Below (d.recompute.frontierAt s) := by
  have hpass : Passed U d d.inStampOrder d.recomputed :=
    passed_foldl hrows hsound hU d.inStampOrder rfl (passed_nil U d)
  -- a held version is a row passed, and its frontier is the one done for it
  have hrow : ∀ s ∈ d.held, ∃ x ∈ d.inStampOrder, rowStamp x = s := by
    intro s hs
    obtain ⟨r, hr, hhlc⟩ := mem_held_iff.mp hs
    exact ⟨(s.opRef, r), mem_inStampOrder.mpr hr, by simp [rowStamp, hhlc]⟩
  have hfront : ∀ x : OpRef × VersionRow,
      d.recompute.frontierAt (rowStamp x) = doneAt d.recomputed x.1 := fun x => rfl
  have hclosed : Closed device (Names U) d.held d.recompute.frontierAt := by
    intro s hs
    obtain ⟨x, hx, rfl⟩ := hrow s hs
    refine ⟨hpass.self x hx, fun p he => ?_⟩
    obtain ⟨y, hy, rfl⟩ := hrow p he.2.1
    exact hpass.edge x hx y hy he.2.2.1 he.2.2.2
  have hsound' : ∀ s ∈ d.held,
      HistSound U s (d.recompute.frontierAt s) := by
    intro s hs
    obtain ⟨x, hx, rfl⟩ := hrow s hs
    exact hpass.sound x hx
  -- each device's latest version, and that it covers whatever an earlier one covers
  have hlatest : ∀ s ∈ d.held, ∃ m ∈ d.held, d.recomputed.2.find s.device = some m ∧
      m.device = s.device ∧ s ≤ m ∧
      (d.recompute.frontierAt s).Below (d.recompute.frontierAt m) := by
    intro s hs
    obtain ⟨x, hx, rfl⟩ := hrow s hs
    cases hm : d.recomputed.2.find (rowStamp x).device with
    | none => exact absurd rfl (hpass.latest_none _ hm x hx)
    | some m =>
      obtain ⟨hdev, ⟨y, hy, rfl⟩, hmax⟩ := hpass.latest _ _ hm
      have hyheld : rowStamp y ∈ d.held := mem_held_of_find (mem_inStampOrder.mp hy)
      have hle := hmax x hx rfl
      exact ⟨rowStamp y, hyheld, rfl, hdev, hle,
        hclosed.below (reach_of_author hyheld hs hle hdev.symm)⟩
  refine ⟨⟨?rows, ?keys, by simpa using hsound', by simpa using hclosed, ?unflagged, ?flagged⟩,
    fun s hs => ?stored⟩
  case rows =>
    intro op r hr
    obtain ⟨r₀, hr₀, heq, -⟩ := find_recompute_of_find hr
    obtain ⟨w, hw, hwop, hwr⟩ := hrows op r₀ hr₀
    refine ⟨w, hw, hwop, ?_⟩
    rw [heq, hwr]
    rfl
  case keys =>
    intro op
    rw [find_versions_recompute, Option.map_eq_none_iff]
    show d.recomputed.1.find op = none ↔ _
    rw [hpass.keys op, find_eq_none]
    simp only [mem_inStampOrder, mem_rows]
  case unflagged =>
    intro op r hr hflag
    obtain ⟨r₀, hr₀, heq, hiff⟩ := find_recompute_of_find hr
    have hhlc : r.hlc = r₀.hlc := by rw [heq]
    have hs : op.stamp r.hlc ∈ d.held := hhlc ▸ mem_held_of_find hr₀
    obtain ⟨m, hm, hfind, hdev, hle, hbelow⟩ := hlatest _ hs
    rw [held_recompute]
    rcases hle.lt_or_eq with hlt | heq'
    · exact ⟨m, hm, (ne_of_lt hlt).symm, hbelow _ _ (hclosed _ hs).1⟩
    · -- its device's latest, so the latest of another device reaches it
      have hnot : op.stamp r.hlc ∉ headsOf d.recomputed.1 d.recomputed.2 := by
        rw [← hiff, hflag]
        simp
      rw [mem_headsOf, not_and] at hnot
      have hnot := hnot ⟨_, by rw [heq'] at hfind ⊢; exact hfind⟩
      push Not at hnot
      obtain ⟨dev, e, he, hne, hreach⟩ := hnot
      obtain ⟨-, ⟨y, hy, rfl⟩, -⟩ := hpass.latest _ _ he
      exact ⟨rowStamp y, mem_held_of_find (mem_inStampOrder.mp hy), hne, hreach⟩
  case flagged =>
    intro op r hr hflag w hw hwne hwr
    exfalso
    rw [held_recompute] at hw
    obtain ⟨r₀, hr₀, heq, hiff⟩ := find_recompute_of_find hr
    have hhlc : r.hlc = r₀.hlc := by rw [heq]
    have hs : op.stamp r.hlc ∈ d.held := hhlc ▸ mem_held_of_find hr₀
    obtain ⟨-, hnone⟩ := mem_headsOf.mp (hiff.mp hflag)
    obtain ⟨m, hm, hfind, hdev, hle, hbelow⟩ := hlatest w hw
    by_cases hms : m = op.stamp r.hlc
    · -- then the two share a device, and `w` is below what it would cover
      have hcovers := hsound' w hw _ _ hwr
      exact hwne (le_antisymm (hms ▸ hle)
        (hU.covers_le (hrows.held_subset hw) (hrows.held_subset hs) hcovers))
    · exact hnone _ m hfind hms (hbelow _ _ hwr)
  case stored =>
    obtain ⟨x, hx, rfl⟩ := hrow s hs
    exact hpass.stored x hx

/-! ### Admitting a version -/

theorem held_upsert {d : Dag} (h : d.stampOf v.stamp.opRef = none) (b : Bool)
    (s : Stamp) :
    s ∈ Dag.held { d with versions := d.versions.upsert v.stamp.opRef (v.row b) } ↔
      s = v.stamp ∨ s ∈ d.held := by
  rw [mem_held_iff, mem_held_iff, find_upsert]
  by_cases hop : s.opRef = v.stamp.opRef
  · rw [if_pos hop, hop, stampOf_eq_none.mp h]
    constructor
    · rintro ⟨r, hr, hhlc⟩
      rw [Option.some.injEq] at hr
      exact .inl (eq_of_opRef_of_hlc hop (by rw [← hhlc, ← hr]; rfl))
    · rintro (rfl | ⟨r, hr, -⟩)
      · exact ⟨_, rfl, rfl⟩
      · simp at hr
  · rw [if_neg hop]
    have hne : s ≠ v.stamp := fun heq => hop (by rw [heq])
    simp [hne]

theorem held_admitVersion (d : Dag) (v : Version) (s : Stamp)
    (hv : ∀ t, d.stampOf v.stamp.opRef = some t → t = v.stamp) :
    s ∈ (d.admitVersion v).1.held ↔ s = v.stamp ∨ s ∈ d.held := by
  cases hnew : d.stampOf v.stamp.opRef with
  | some t =>
    rw [admitVersion_of_held hnew]
    obtain rfl := hv t hnew
    have : v.stamp ∈ d.held := (mem_held_of_stampOf hnew).1
    exact ⟨.inr, by rintro (rfl | h) <;> assumption⟩
  | none =>
    cases hlate : d.arrivedLate v.stamp with
    | true => rw [admitVersion_of_late hnew hlate, held_recompute, held_upsert hnew]
    | false => rw [admitVersion_of_not_late hnew hlate, held_extend hnew]

theorem consistent_late {U : History} {d : Dag} (hU : U.Valid) (h : Consistent U d) (hv : v ∈ U)
    (hnew : d.stampOf v.stamp.opRef = none)
    (hlate : d.arrivedLate v.stamp = true) :
    Consistent U (d.admitVersion v).1 ∧
      ∀ s ∈ d.held, (d.frontierAt s).Below ((d.admitVersion v).1.frontierAt s) := by
  rw [admitVersion_of_late hnew hlate]
  have hrec := consistent_recompute (U := U)
    (d := { d with versions := d.versions.upsert v.stamp.opRef (v.row false) }) hU ?_ ?_
  · exact ⟨hrec.1, fun s hs => hrec.2 s ((held_upsert hnew false s).mpr (.inr hs))⟩
  · intro op r hr
    rw [find_upsert] at hr
    split at hr
    next hop =>
      rw [Option.some.injEq] at hr
      exact ⟨v, hv, hop.symm, by rw [← hr]; rfl⟩
    next => exact h.rows op r hr
  · intro s hs
    rcases (held_upsert hnew false s).mp hs with rfl | hs
    · -- no frontier is stored for a new version
      have hnone : d.frontier.find v.stamp.opRef = none :=
        (h.keys _).mpr (stampOf_eq_none.mp hnew)
      simp only [frontierAt, frontierOf, hnone, Option.getD_none]
      exact sound_empty
    · exact h.sound s hs

/-- **Admitting a version of the history keeps the invariant**, in whatever order
the versions come. -/
theorem consistent_admitVersion {U : History} {d : Dag} (hU : U.Valid)
    (h : Consistent U d) (hv : v ∈ U) (hm : v.stamp ∈ U.merged) :
    Consistent U (d.admitVersion v).1 := by
  cases hnew : d.stampOf v.stamp.opRef with
  | some t => rwa [admitVersion_of_held hnew]
  | none =>
    cases hlate : d.arrivedLate v.stamp with
    | false =>
      rw [admitVersion_of_not_late hnew hlate]
      exact consistent_extend hU h hv hm hnew hlate
    | true => exact (consistent_late hU h hv hnew hlate).1

/-! ### Holding the whole history -/

/-- The DAG holds every version of the history and has taken every record in. -/
structure Complete (U : History) (d : Dag) : Prop where
  held : stampsOf U ⊆ d.held
  recorded : ∀ s ∈ stampsOf U, ∀ dev a, U.seen s dev a → (d.frontierAt s).Reaches dev a

section

variable {U : History} {d d' : Dag}

section

variable (h : Consistent U d) (hall : Complete U d)
include h hall

theorem Consistent.held_eq : d.held = stampsOf U :=
  Set.Subset.antisymm h.rows.held_subset hall.held

theorem Consistent.closed_of_all :
    Closed device (Names U) (stampsOf U) d.frontierAt :=
  h.held_eq hall ▸ h.closed

theorem Consistent.sound_of_all :
    ∀ s ∈ stampsOf U, HistSound U s (d.frontierAt s) :=
  fun s hs => h.sound s (hall.held hs)

theorem Consistent.reaches_iff (hs : s ∈ stampsOf U) (dev : Device) (a : Stamp) :
    (d.frontierAt s).Reaches dev a ↔ HistCovers U s dev a :=
  (h.closed_of_all hall).exact (h.sound_of_all hall) hall.recorded hs dev a

end

/-- **The heads are the versions no other follows.** -/
theorem Consistent.isHead_iff (hU : U.Ordered) (h : Consistent U d) (hall : Complete U d)
    {op : OpRef} (hr : d.versions.find op = some r) :
    r.isHead = true ↔ ∀ w ∈ stampsOf U, ¬ HistPrecedes U (op.stamp r.hlc) w := by
  have hs : op.stamp r.hlc ∈ stampsOf U := h.rows.held_subset (mem_held_of_find hr)
  constructor
  · intro hflag w hw hp
    obtain ⟨hmerged, hedge⟩ := h.flagged op r hr hflag w (hall.held hw) (Ne.symm hp.1)
      ((h.reaches_iff hall hw _ _).mpr hp.2)
    obtain ⟨y, hy⟩ := hU.entered _ hs hmerged w hw hp
    exact hedge y (hall.held hy.1) hy
  · intro hnone
    by_contra hflag
    obtain ⟨w, hw, hne, hreach⟩ := h.unflagged op r hr (by simpa using hflag)
    have hwU := h.rows.held_subset hw
    exact hnone w hwU ⟨Ne.symm hne, (h.reaches_iff hall hwU _ _).mp hreach⟩

/-- **A consistent DAG that holds the whole history is determined by it.** -/
theorem Consistent.unique (hU : U.Ordered) (h : Consistent U d) (h' : Consistent U d')
    (hall : Complete U d) (hall' : Complete U d') : d = d' := by
  have hrow : ∀ {d₁ d₂ : Dag}, Consistent U d₁ → Consistent U d₂ → Complete U d₁ →
      Complete U d₂ → ∀ op r, d₁.versions.find op = some r →
        d₂.versions.find op = some r := by
    intro d₁ d₂ h₁ h₂ hall₁ hall₂ op r hr
    obtain ⟨v, hv, rfl, hrv⟩ := h₁.rows op r hr
    obtain ⟨b, hb⟩ := h₂.rows.row_of_held hU.toValid hv (hall₂.held ⟨v, hv, rfl⟩)
    have hflag : b = r.isHead := by
      rw [Bool.eq_iff_iff]
      have h1 := h₁.isHead_iff hU hall₁ hr
      have h2 := h₂.isHead_iff hU hall₂ hb
      have hhlc : r.hlc = v.stamp.hlc := by
        rw [hrv]
        rfl
      rw [hhlc] at h1
      exact h2.trans h1.symm
    rw [hb, hrv, hflag]
  have hversions : d.versions = d'.versions :=
    ext_some fun op r => ⟨hrow h h' hall hall' op r, hrow h' h hall' hall op r⟩
  have hfrontier : d.frontier = d'.frontier := by
    refine ext_find fun op => ?_
    cases hop : d.versions.find op with
    | none => rw [(h.keys op).mpr hop, (h'.keys op).mpr (hversions ▸ hop)]
    | some r =>
      have hs : op.stamp r.hlc ∈ stampsOf U := h.rows.held_subset (mem_held_of_find hop)
      have heq : d.frontierAt (op.stamp r.hlc) = d'.frontierAt (op.stamp r.hlc) :=
        (h.closed_of_all hall).unique (h.sound_of_all hall) hall.recorded
          (h'.closed_of_all hall') (h'.sound_of_all hall') hall'.recorded hs
      have hsome : ∀ {d₁ : Dag}, Consistent U d₁ → d₁.versions.find op = some r →
          d₁.frontier.find op = some (d₁.frontierAt (op.stamp r.hlc)) := by
        intro d₁ h₁ hr
        cases hf : d₁.frontier.find op with
        | none =>
          rw [(h₁.keys op).mp hf] at hr
          simp at hr
        | some f => simp [frontierAt, frontierOf, hf]
      rw [hsome h hop, hsome h' (hversions ▸ hop), heq]
  calc d = ⟨d.versions, d.frontier⟩ := rfl
    _ = ⟨d'.versions, d'.frontier⟩ := by rw [hversions, hfrontier]
    _ = d' := rfl

end

end Dag

end Sunrise
