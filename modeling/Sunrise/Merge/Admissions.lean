import Sunrise.Merge.VersionOrder

/-!
# Runs of admissions

Admitting the versions of an entity one after another, in any order and with any
repetitions, leaves a DAG that is a function of which versions were admitted:
its frontiers satisfy their recursive definition, its heads are the versions no
other follows, and the order read off it is a strict partial order, total on each
device's versions.

* `Dag.admitAll` — the run.
* `Dag.admitAll_eq_of_mem_iff` — the run's result does not depend on the order.
-/

namespace Sunrise

open Causal

namespace Dag

def admitAll (d : Dag) (vs : List Version) : Dag := vs.foldl (fun d v => (d.admitVersion v).1) d

abbrev admitted (vs : List Version) : History := .ofVersions {v | v ∈ vs}

section

variable {U : History} (hU : U.Valid) {d : Dag} (h : Consistent U d) {vs : List Version}
include hU h

theorem consistent_admitAll (hvs : ∀ v ∈ vs, v ∈ U ∧ v.stamp ∈ U.merged) :
    Consistent U (d.admitAll vs) := by
  induction vs generalizing d with
  | nil => exact h
  | cons v vs ih =>
    have hv := hvs v List.mem_cons_self
    exact ih (consistent_admitVersion hU h hv.1 hv.2) fun w hw =>
      hvs w (List.mem_cons_of_mem _ hw)

theorem held_admitAll (hvs : ∀ v ∈ vs, v ∈ U ∧ v.stamp ∈ U.merged) (s : Stamp) :
    s ∈ (d.admitAll vs).held ↔ (∃ v ∈ vs, v.stamp = s) ∨ s ∈ d.held := by
  induction vs generalizing d with
  | nil => simp [admitAll]
  | cons v vs ih =>
    have hv := hvs v List.mem_cons_self
    have hrec := ih (consistent_admitVersion hU h hv.1 hv.2) fun w hw =>
      hvs w (List.mem_cons_of_mem _ hw)
    show s ∈ ((d.admitVersion v).1.admitAll vs).held ↔ _
    rw [hrec, held_admitVersion d v s (h.rows.stampOf_eq hU hv.1)]
    simp [or_assoc, or_left_comm, eq_comm]

end

section

variable {vs ws : List Version} (hU : DistinctVersions {v | v ∈ vs}) (h : ∀ v, v ∈ vs ↔ v ∈ ws)

include hU h

theorem consistent_admitted : Consistent (admitted vs) ((∅ : Dag).admitAll ws) :=
  consistent_admitAll (History.ordered_ofVersions hU).toValid (consistent_empty _) fun v hv =>
    ⟨(h v).mpr hv, trivial⟩

theorem complete_admitted : Complete (admitted vs) ((∅ : Dag).admitAll ws) where
  held := by
    rintro s ⟨v, hv, rfl⟩
    exact (held_admitAll (History.ordered_ofVersions hU).toValid (consistent_empty _)
      (fun v hv => ⟨(h v).mpr hv, trivial⟩) _).mpr (.inl ⟨v, (h v).mp hv, rfl⟩)
  recorded := fun _ _ _ _ => False.elim

/-- **The order of arrival does not matter**, nor how often a version arrives. -/
theorem admitAll_eq_of_mem_iff : (∅ : Dag).admitAll vs = (∅ : Dag).admitAll ws :=
  Consistent.unique (History.ordered_ofVersions hU) (consistent_admitted hU fun _ => Iff.rfl)
    (consistent_admitted hU h) (complete_admitted hU fun _ => Iff.rfl) (complete_admitted hU h)

end

/-! ### The recursive definition -/

/-- The applied versions one step below `v`: the parents it names with a smaller
stamp, and the previous version of its device. -/
def appliedBelow (vs : List Version) (v : Version) : List Stamp :=
  ((vs.map (·.stamp)).filter fun p => p.opRef ∈ v.parents.getD [] ∧ p < v.stamp) ++
    (((vs.map (·.stamp)).filter fun p => p.device = v.stamp.device ∧ p < v.stamp).max?).toList

/-- The join of the frontiers of some versions, over a first frontier. -/
def joinFrontiers (d : Dag) (f : Frontier Device Stamp) (below : List Stamp) :
    Frontier Device Stamp :=
  below.foldl (fun f p => f.join (d.frontierOf p.opRef)) f

theorem reaches_joinFrontiers {d : Dag} {f : Frontier Device Stamp} {below : List Stamp}
    {dev : Device} {a : Stamp} :
    (joinFrontiers d f below).Reaches dev a ↔
      f.Reaches dev a ∨ ∃ p ∈ below, (d.frontierOf p.opRef).Reaches dev a := by
  induction below generalizing f with
  | nil => simp [joinFrontiers]
  | cons p ps ih =>
    show (joinFrontiers d (f.join (d.frontierOf p.opRef)) ps).Reaches dev a ↔ _
    rw [ih, Frontier.reaches_join, or_assoc]
    simp

theorem appliedBelow_edge {vs : List Version} {v : Version} (hv : v ∈ vs) {p : Stamp}
    (hp : p ∈ appliedBelow vs v) :
    HistEdge (admitted vs) v.stamp p := by
  have happlied : ∀ q ∈ vs.map (·.stamp), q ∈ stampsOf (admitted vs) := by
    intro q hq
    obtain ⟨w, hw, rfl⟩ := List.mem_map.mp hq
    exact ⟨w, hw, rfl⟩
  rcases List.mem_append.mp hp with hp | hp
  · rw [List.mem_filter, decide_eq_true_iff] at hp
    exact ⟨⟨v, hv, rfl⟩, happlied p hp.1, hp.2.2, .inl ⟨v, hv, rfl, hp.2.1⟩⟩
  · rw [Option.mem_toList, List.max?_eq_some_iff, List.mem_filter,
      decide_eq_true_iff] at hp
    exact ⟨⟨v, hv, rfl⟩, happlied p hp.1.1, hp.1.2.2, .inr hp.1.2.1⟩

section

variable {vs : List Version} (hU : DistinctVersions {v | v ∈ vs}) {v : Version} (hv : v ∈ vs)
include hU hv

theorem exists_appliedBelow {p : Stamp}
    (he : HistEdge (admitted vs) v.stamp p) :
    ∃ q ∈ appliedBelow vs v, HistReach (admitted vs) q p := by
  obtain ⟨-, ⟨w, hw, rfl⟩, hlt, hor⟩ := he
  have hmem : w.stamp ∈ vs.map (·.stamp) := List.mem_map.mpr ⟨w, hw, rfl⟩
  rcases hor with ⟨v', hv', hstamp, hpar⟩ | hdev
  · obtain rfl := hU v' hv' v hv (by rw [hstamp])
    refine ⟨w.stamp, List.mem_append_left _ ?_, Relation.ReflTransGen.refl⟩
    rw [List.mem_filter, decide_eq_true_iff]
    exact ⟨hmem, hpar, hlt⟩
  · -- the greatest earlier version of the device reaches the others
    let earlier := (vs.map (·.stamp)).filter fun p => p.device = v.stamp.device ∧ p < v.stamp
    have hwe : w.stamp ∈ earlier := by
      rw [List.mem_filter, decide_eq_true_iff]
      exact ⟨hmem, hdev, hlt⟩
    cases hmax : earlier.max? with
    | none =>
      rw [List.max?_eq_none_iff] at hmax
      rw [hmax] at hwe
      simp at hwe
    | some m =>
      have hm := List.max?_eq_some_iff.mp hmax
      have hm' : m ∈ earlier := hm.1
      rw [List.mem_filter, decide_eq_true_iff] at hm'
      obtain ⟨u, hu, rfl⟩ := List.mem_map.mp hm'.1
      refine ⟨u.stamp, List.mem_append_right _ ?_, ?_⟩
      · rw [Option.mem_toList]
        exact hmax
      · exact reach_of_author ⟨u, hu, rfl⟩ ⟨w, hw, rfl⟩ (hm.2 _ hwe) (hdev.trans hm'.2.1.symm)

theorem frontierOf_admitAll :
    ((∅ : Dag).admitAll vs).frontierOf v.stamp.opRef =
      joinFrontiers ((∅ : Dag).admitAll vs) (Frontier.single v.stamp.device v.stamp)
        (appliedBelow vs v) := by
  have hcons := consistent_admitted hU fun _ => Iff.rfl
  have hall := complete_admitted hU fun _ => Iff.rfl
  have hclosed := hcons.closed_of_all hall
  have hvU : v.stamp ∈ stampsOf (admitted vs) := ⟨v, hv, rfl⟩
  refine Frontier.ext_reaches fun dev a => ?_
  rw [reaches_joinFrontiers, Frontier.reaches_single]
  constructor
  · intro ha
    obtain ⟨w, hw, ⟨hdev, hle⟩ | hno⟩ := (hcons.reaches_iff hall hvU dev a).mp ha
    swap
    · exact hno.elim
    rcases Relation.ReflTransGen.cases_head hw with heq | ⟨p, hedge, hpw⟩
    · exact .inl ⟨by rw [← hdev, ← heq], by rwa [heq]⟩
    · obtain ⟨q, hq, hqp⟩ := exists_appliedBelow hU hv hedge
      have hqU := (appliedBelow_edge hv hq).2.1
      exact .inr ⟨q, hq,
        (hcons.reaches_iff hall hqU dev a).mpr ⟨w, hqp.trans hpw, .inl ⟨hdev, hle⟩⟩⟩
  · rintro (⟨rfl, hle⟩ | ⟨p, hp, ha⟩)
    · exact (hclosed v.stamp hvU).1.mono hle
    · exact (hclosed v.stamp hvU).2 p (appliedBelow_edge hv hp) dev a ha

end

/-! ### The order read off the table -/

theorem precedes_iff {U : History} {d : Dag} (hU : U.Valid) (h : Consistent U d)
    (hall : Complete U d) {a b : OpRef} :
    d.precedes a b = true ↔
      ∃ v ∈ U, ∃ w ∈ U, v.stamp.opRef = a ∧ w.stamp.opRef = b ∧
        HistPrecedes U v.stamp w.stamp := by
  have hheld : ∀ {v : Version}, v ∈ U → d.stampOf v.stamp.opRef = some v.stamp :=
    fun hv => hall.held ⟨_, hv, rfl⟩
  constructor
  · intro hp
    unfold precedes at hp
    split at hp
    next s t hs ht =>
      obtain ⟨hsheld, rfl⟩ := mem_held_of_stampOf hs
      obtain ⟨htheld, rfl⟩ := mem_held_of_stampOf ht
      simp only [reachedBy, Bool.and_eq_true, decide_eq_true_eq] at hp
      obtain ⟨v, hv, rfl⟩ := h.rows.held_subset hsheld
      obtain ⟨w, hw, rfl⟩ := h.rows.held_subset htheld
      refine ⟨v, hv, w, hw, rfl, rfl, fun heq => hp.1 (by rw [heq]), ?_⟩
      exact (h.reaches_iff hall ⟨w, hw, rfl⟩ _ _).mp hp.2
    next => simp at hp
  · rintro ⟨v, hv, w, hw, rfl, rfl, hne, hreach⟩
    unfold precedes
    rw [hheld hv, hheld hw]
    simp only [reachedBy, Bool.and_eq_true, decide_eq_true_eq]
    refine ⟨fun heq => hne (by rw [hU.distinct v hv w hw heq]), ?_⟩
    exact (h.reaches_iff hall ⟨w, hw, rfl⟩ _ _).mpr hreach

theorem mem_heads {d : Dag} {op : OpRef} :
    op ∈ d.heads ↔ ∃ r, d.versions.find op = some r ∧ r.isHead = true := by
  unfold heads
  rw [List.mem_map]
  constructor
  · rintro ⟨⟨op, r⟩, hr, rfl⟩
    rw [List.mem_filter] at hr
    exact ⟨r, Table.mem_rows.mp hr.1, hr.2⟩
  · rintro ⟨r, hr, hflag⟩
    exact ⟨(op, r), List.mem_filter.mpr ⟨Table.mem_rows.mpr hr, hflag⟩, rfl⟩

theorem mem_heads_admitAll {vs : List Version} (hU : DistinctVersions {v | v ∈ vs})
    (op : OpRef) :
    op ∈ ((∅ : Dag).admitAll vs).heads ↔
      ∃ v ∈ vs, v.stamp.opRef = op ∧
        ∀ w ∈ vs, ((∅ : Dag).admitAll vs).precedes op w.stamp.opRef = false := by
  have hO := History.ordered_ofVersions hU
  have hcons := consistent_admitted hU fun _ => Iff.rfl
  have hall := complete_admitted hU fun _ => Iff.rfl
  -- no applied version follows `v`, in either spelling
  have hiff : ∀ v ∈ vs, (∀ s ∈ stampsOf (admitted vs), ¬ HistPrecedes (admitted vs) v.stamp s) ↔
      ∀ w ∈ vs, ((∅ : Dag).admitAll vs).precedes v.stamp.opRef w.stamp.opRef = false := by
    intro v hv
    constructor
    · intro hnone w hw
      rw [Bool.eq_false_iff, ne_eq, precedes_iff hO.toValid hcons hall]
      rintro ⟨v', hv', w', hw', hop, hop', hp⟩
      obtain rfl := hU v' hv' v hv hop
      exact hnone _ ⟨w', hw', rfl⟩ hp
    · rintro hnone s ⟨w, hw, rfl⟩ hp
      have := hnone w hw
      rw [Bool.eq_false_iff, ne_eq, precedes_iff hO.toValid hcons hall] at this
      exact this ⟨v, hv, w, hw, rfl, rfl, hp⟩
  rw [mem_heads]
  constructor
  · rintro ⟨r, hr, hflag⟩
    obtain ⟨v, hv, rfl, hrow⟩ := hcons.rows op r hr
    have hstamp : v.stamp.opRef.stamp r.hlc = v.stamp := by
      rw [hrow]
      rfl
    refine ⟨v, hv, rfl, (hiff v hv).mp ?_⟩
    exact hstamp ▸ (hcons.isHead_iff hO hall hr).mp hflag
  · rintro ⟨v, hv, rfl, hnone⟩
    obtain ⟨b, hb⟩ := hcons.rows.row_of_held hO.toValid hv (hall.held ⟨v, hv, rfl⟩)
    exact ⟨v.row b, hb, (hcons.isHead_iff hO hall hb).mpr ((hiff v hv).mpr hnone)⟩

/-- **The version DAG is its recursive definition.** After any run of admissions
the stored frontier of an applied version is the version itself joined with the
frontiers of its applied parents of smaller stamp and of its device's previous
version; the heads are the applied versions no other follows; and the order read
off the table is a strict partial order, total on each device's versions. -/
theorem admitAll_spec (vs : List Version) (hU : DistinctVersions {v | v ∈ vs}) :
    let d := (∅ : Dag).admitAll vs
    (∀ v ∈ vs, d.frontierOf v.stamp.opRef =
      joinFrontiers d (Frontier.single v.stamp.device v.stamp) (appliedBelow vs v)) ∧
    (∀ op, op ∈ d.heads ↔
      ∃ v ∈ vs, v.stamp.opRef = op ∧ ∀ w ∈ vs, d.precedes op w.stamp.opRef = false) ∧
    (∀ a, d.precedes a a = false) ∧
    (∀ a b c, d.precedes a b = true → d.precedes b c = true → d.precedes a c = true) ∧
    ∀ v ∈ vs, ∀ w ∈ vs, v.stamp.device = w.stamp.device → v ≠ w →
      d.precedes v.stamp.opRef w.stamp.opRef = true ∨
        d.precedes w.stamp.opRef v.stamp.opRef = true := by
  have hO := History.ordered_ofVersions hU
  have hcons := consistent_admitted hU fun _ => Iff.rfl
  have hall := complete_admitted hU fun _ => Iff.rfl
  refine ⟨fun v hv => frontierOf_admitAll hU hv, mem_heads_admitAll hU, ?_, ?_, ?_⟩
  · intro a
    rw [Bool.eq_false_iff, ne_eq, precedes_iff hO.toValid hcons hall]
    rintro ⟨v, hv, w, hw, hop, hop', hp⟩
    exact hp.1 (by rw [hU v hv w hw (hop.trans hop'.symm)])
  · intro a b c hab hbc
    obtain ⟨v, hv, w, hw, hva, hwb, hp⟩ := (precedes_iff hO.toValid hcons hall).mp hab
    obtain ⟨w', hw', x, hx, hwb', hxc, hp'⟩ := (precedes_iff hO.toValid hcons hall).mp hbc
    obtain rfl := hU w hw w' hw' (hwb.trans hwb'.symm)
    exact (precedes_iff hO.toValid hcons hall).mpr ⟨v, hv, x, hx, hva, hxc,
      hO.order.precedes_trans ⟨v, hv, rfl⟩ ⟨w, hw, rfl⟩ ⟨x, hx, rfl⟩ hp hp'⟩
  · intro v hv w hw hdev hne
    have hstamp : v.stamp ≠ w.stamp := fun heq => hne (hU v hv w hw (by rw [heq]))
    have htotal : HistPrecedes (admitted vs) v.stamp w.stamp ∨
        HistPrecedes (admitted vs) w.stamp v.stamp :=
      Precedes.total ⟨v, hv, rfl⟩ ⟨w, hw, rfl⟩ hdev hstamp
    rcases htotal with hp | hp
    · exact .inl ((precedes_iff hO.toValid hcons hall).mpr ⟨v, hv, w, hw, rfl, rfl, hp⟩)
    · exact .inr ((precedes_iff hO.toValid hcons hall).mpr ⟨w, hw, v, hv, rfl, rfl, hp⟩)

theorem distinct_of_nodup {vs : List Version} (h : (vs.map fun v => v.stamp.opRef).Nodup) :
    DistinctVersions {v | v ∈ vs} :=
  fun _ hv _ hw heq => List.inj_on_of_nodup_map h hv hw heq

/-- A first version, by device 1. -/
def soloVersion : Version :=
  { stamp := ⟨⟨1, 0⟩, 1, 1, 7⟩, kind := .patch, origin := .user, create := true
    parents := some [], group := none, fields := {"title"} }

/-- A version by device 2 that names the first. -/
def childVersion : Version :=
  { stamp := ⟨⟨2, 0⟩, 2, 1, 7⟩, kind := .patch, origin := .user, create := false
    parents := some [soloVersion.stamp.opRef], group := none, fields := {"title"} }

theorem admitAll_spec_child_first :
    let d := (∅ : Dag).admitAll [childVersion, soloVersion]
    (d.frontierOf childVersion.stamp.opRef).Reaches 1 soloVersion.stamp ∧
      d.heads = [childVersion.stamp.opRef] ∧
      d.precedes soloVersion.stamp.opRef childVersion.stamp.opRef = true ∧
      d.precedes childVersion.stamp.opRef childVersion.stamp.opRef = false := by
  have hspec := admitAll_spec [childVersion, soloVersion] (distinct_of_nodup (by decide))
  exact ⟨by decide, by decide, by decide, hspec.2.2.1 _⟩

theorem admitAll_eq_of_mem_iff_twice : (∅ : Dag).admitAll [soloVersion, childVersion] =
    (∅ : Dag).admitAll [childVersion, soloVersion, childVersion] :=
  admitAll_eq_of_mem_iff (distinct_of_nodup (by decide)) fun v => by simp [or_comm]

/-- A version's frontier is not the join over its parents and predecessor alone:
that of a version with neither still holds the version itself. -/
theorem frontierOf_ne_join_of_below :
    ((∅ : Dag).admitAll [soloVersion]).frontierOf soloVersion.stamp.opRef ≠
      joinFrontiers ((∅ : Dag).admitAll [soloVersion]) ∅
        (appliedBelow [soloVersion] soloVersion) := by
  decide

end Dag

end Sunrise
