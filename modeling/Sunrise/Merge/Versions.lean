import Sunrise.Lib.Causal
import Sunrise.Stamp
import Mathlib.Data.Finset.Basic
import Mathlib.Data.List.Sort

/-!
# The version DAG of an entity

Every applied op of an entity is a version of it. A version's frontier maps each
device to the greatest stamp of that device's versions it reaches, itself
included: it reaches what its parents name, as far as those are applied with a
smaller stamp, and the same device's previous version. The rows of
`entity_versions` and `entity_frontier` of one entity are a `Dag`; the frontier
rows of one version are kept together as one frontier.

A version that arrives after every version that could reach it is admitted on a
fast path that touches no other frontier. One that arrives late makes frontiers
stale, and the whole DAG is recomputed in stamp order, starting from what is
stored.

* `Dag.Consistent` — what both keep: the frontiers are closed over the held
  versions and sound for the whole history `U`, and a head flag is wrong only
  while a version between the head and its descendant is missing.
* `Dag.consistent_admitVersion`, `Dag.consistent_recompute` — that they do.
-/

namespace Sunrise

open Causal

/-- Whether an op is a full-state op or a `Patch`. -/
inductive VersionKind where
  | legacy | patch
deriving DecidableEq, Repr

/-- Who made a write: a user's command, or the system on the user's behalf. -/
inductive Origin where
  | user | generated
deriving DecidableEq, Repr

/-- One version as the fold hands it over: what the op said about itself. -/
structure Version where
  /-- The op's merge stamp; its op-ref is the version's id. -/
  stamp : Stamp
  /-- Full state or `Patch`. -/
  kind : VersionKind
  origin : Origin
  create : Bool
  /-- The parents the op carried; `none` when it carried no key. -/
  parents : Option (List OpRef)
  group : Option (Id × ℕ)
  fields : Finset String
deriving DecidableEq

/-- A row of `entity_versions`, under the version's op-ref. -/
structure VersionRow where
  hlc : Hlc
  /-- Full state or `Patch`. -/
  kind : VersionKind
  origin : Origin
  create : Bool
  parents : Option (List OpRef)
  group : Option (Id × ℕ)
  fields : Finset String
  /-- No other applied version is known to follow it. -/
  isHead : Bool
deriving DecidableEq

def Version.row (v : Version) (isHead : Bool) : VersionRow :=
  { hlc := v.stamp.hlc, kind := v.kind, origin := v.origin, create := v.create,
    parents := v.parents, group := v.group, fields := v.fields, isHead := isHead }

/-- The versions of one entity and their frontiers. -/
structure Dag where
  /-- `entity_versions`. -/
  versions : Table OpRef VersionRow
  /-- `entity_frontier`, the rows of each version together. -/
  frontier : Table OpRef (Frontier Device Stamp)
deriving DecidableEq

/-- What `admitVersion` did. -/
structure Admission where
  admitted : Bool
  /-- It arrived late, and the frontiers were recomputed. -/
  refined : Bool
deriving DecidableEq

def rowStamp (r : OpRef × VersionRow) : Stamp := r.1.stamp r.2.hlc

/-- Whether the version stamped `a` precedes one whose frontier is `f`. -/
def reachedBy (a : Stamp) (f : Frontier Device Stamp) : Bool := decide (f.Reaches a.device a)

namespace Dag

/-- No version. -/
def empty : Dag := ⟨∅, ∅⟩

instance : EmptyCollection Dag := ⟨empty⟩

def stampOf (d : Dag) (op : OpRef) : Option Stamp :=
  (d.versions.find op).map fun r => op.stamp r.hlc

/-- The frontier stored for a version: empty for one that is not applied. -/
def frontierOf (d : Dag) (op : OpRef) : Frontier Device Stamp := (d.frontier.find op).getD ∅

def stamps (d : Dag) : List Stamp := d.versions.rows.map rowStamp

/-- The version by the device of `s` with the greatest stamp below `s`. -/
def previousOfDevice (d : Dag) (s : Stamp) : Option OpRef :=
  ((d.stamps.filter fun t => t.device = s.device ∧ t < s).max?).map Stamp.opRef

/-- Whether a version above `s`, by the device of `s` or naming it as a parent,
could have been computed without it. -/
def arrivedLate (d : Dag) (s : Stamp) : Bool :=
  d.versions.rows.any fun r =>
    s < rowStamp r && (r.1.device == s.device || (r.2.parents.getD []).contains s.opRef)

/-- Join in the frontier of each of `parents` that is applied below `s`. -/
def joinParents (d : Dag) (s : Stamp) (frontiers : OpRef → Frontier Device Stamp)
    (parents : List OpRef) (f : Frontier Device Stamp) : Frontier Device Stamp :=
  parents.foldl
    (fun f p =>
      match d.stampOf p with
      | some t => if t < s then f.join (frontiers p) else f
      | none => f)
    f

/-- The frontier the fast path gives a version. -/
def frontierFor (d : Dag) (v : Version) : Frontier Device Stamp :=
  let f := joinParents d v.stamp d.frontierOf (v.parents.getD [])
    (Frontier.single v.stamp.device v.stamp)
  match d.previousOfDevice v.stamp with
  | some previous => f.join (d.frontierOf previous)
  | none => f

/-! ### Recomputing -/

/-- The frontier the recomputation gives one row: `done` holds the frontiers below
it, `latest` each device's latest version so far. -/
def recomputeFrontier (d : Dag) (done : Table OpRef (Frontier Device Stamp))
    (latest : Table Device Stamp) (r : OpRef × VersionRow) : Frontier Device Stamp :=
  let s := rowStamp r
  let reached := fun op => (done.find op).getD ∅
  -- what is stored already is a floor: a joined snapshot's frontier can reach
  -- versions this replica does not hold
  let f := (d.frontierOf r.1).join (Frontier.single s.device s)
  let f := joinParents d s reached (r.2.parents.getD []) f
  match latest.find s.device with
  | some previous => f.join (reached previous.opRef)
  | none => f

def recomputeStep (d : Dag) (acc : Table OpRef (Frontier Device Stamp) × Table Device Stamp)
    (r : OpRef × VersionRow) : Table OpRef (Frontier Device Stamp) × Table Device Stamp :=
  (acc.1.upsert r.1 (d.recomputeFrontier acc.1 acc.2 r),
    acc.2.upsert (rowStamp r).device (rowStamp r))

def inStampOrder (d : Dag) : List (OpRef × VersionRow) :=
  d.versions.rows.insertionSort fun a b => rowStamp a ≤ rowStamp b

/-- The heads: each device's latest version that no other device's reaches. -/
def headsOf (done : Table OpRef (Frontier Device Stamp)) (latest : Table Device Stamp) :
    List Stamp :=
  let last := latest.rows.map (·.2)
  last.filter fun c =>
    !last.any fun e => decide (e ≠ c) && reachedBy c ((done.find e.opRef).getD ∅)

/-- Recompute every frontier and the heads from the versions alone, one pass in
stamp order. -/
def recompute (d : Dag) : Dag :=
  let acc := d.inStampOrder.foldl d.recomputeStep (∅, ∅)
  let heads := headsOf acc.1 acc.2
  { versions := d.versions.mapValues fun op r =>
      { r with isHead := heads.contains (op.stamp r.hlc) }
    frontier := acc.1 }

/-! ### Admitting a version -/

/-- Store a version that nothing applied reaches, with its frontier. It is a head,
and the old heads it reaches are heads no more. -/
def extend (d : Dag) (v : Version) : Dag :=
  let f := d.frontierFor v
  let versions := d.versions.upsert v.stamp.opRef (v.row false)
  let versions := versions.mapValues fun op r =>
    if r.isHead && reachedBy (op.stamp r.hlc) f then { r with isHead := false } else r
  { versions := versions.upsert v.stamp.opRef (v.row true)
    frontier := d.frontier.upsert v.stamp.opRef f }

/-- Admit a version: store it, its frontier, and the entity's heads with it. -/
def admitVersion (d : Dag) (v : Version) : Dag × Admission :=
  match d.stampOf v.stamp.opRef with
  | some _ => (d, ⟨false, false⟩)
  | none =>
    if d.arrivedLate v.stamp then
      (recompute { d with versions := d.versions.upsert v.stamp.opRef (v.row false) },
        ⟨true, true⟩)
    else (d.extend v, ⟨true, false⟩)

/-- Delete the version rows named in `gone`, and their frontiers. -/
def forget (d : Dag) (gone : Finset OpRef) : Dag where
  versions := d.versions.filter fun op _ => decide (op ∉ gone)
  frontier := d.frontier.filter fun op _ => decide (op ∉ gone)

/-- The heads as op-refs, sorted: the parents a writer names. -/
def heads (d : Dag) : List OpRef :=
  (d.versions.rows.filter fun r => r.2.isHead).map (·.1)

def precedes (d : Dag) (a b : OpRef) : Bool :=
  match d.stampOf a, d.stampOf b with
  | some s, some _ => decide (a ≠ b) && reachedBy s (d.frontierOf b)
  | _, _ => false

end Dag

end Sunrise
