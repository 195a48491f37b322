import Sunrise.Merge.Admissions
import Sunrise.Merge.Project
import Sunrise.Merge.Step

/-!
# Runs of the merge

A run folds a list of ops, in any order and with any repetitions, each into the rows
of its own entity. What it leaves depends on which ops it folded and on nothing else.

The tables are keyed by the entity id alone, so a run is read entity by entity
(`mergeOps_apply`): the entity's own ops, folded in the order they came. For one
entity, soundness and coverage are carried along the run by the step lemmas
(`Entity.Sound.foldOps`), and at its end every op is covered, which leaves one state
(`Entity.Sound.unique`).

* `mergeOps_eq_of_mem_iff` — **strong convergence**: runs over the same ops end in
  the same tables and project the same entities.
* `registers_mergeOps` — **the register fold meets its specification**: candidates
  and winner are read off the set of writes.
-/

namespace Sunrise

open Op

open Causal

/-! ### The share of a set of ops -/

/-- No two ops share an op-ref. -/
def DistinctOps (S : Set Op) : Prop :=
  ∀ o ∈ S, ∀ o' ∈ S, o.stamp.opRef = o'.stamp.opRef → o = o'

def Share.ofOps (c : Codec) (S : Set Op) : Share := Share.sUnion (share c '' S)

namespace Share

variable {c : Codec} {S : Set Op}

theorem le_ofOps {o : Op} (h : o ∈ S) : o.share c ≤ ofOps c S :=
  le_sUnion (Set.mem_image_of_mem _ h)

theorem mem_versions_ofOps {v : Version} :
    v ∈ (ofOps c S).versions ↔ ∃ o ∈ S, o.version = v := by
  simp [ofOps, sUnion, share, eq_comm]

theorem mem_members_ofOps {field : String} {m : Member} :
    m ∈ (ofOps c S).members field ↔ ∃ o ∈ S, o.member c field = some m := by
  simp [ofOps, sUnion, share]

theorem mem_entries_ofOps {k : String ×ₗ String} {row : MapRow} :
    row ∈ (ofOps c S).entries k ↔ ∃ o ∈ S, o.entry c k = some row := by
  simp [ofOps, sUnion, share]

theorem mem_adds_ofOps {k : TagKey} {hlc : Hlc} :
    hlc ∈ (ofOps c S).adds k ↔ ∃ o ∈ S, o.Adds c k ∧ hlc = o.stamp.hlc := by
  simp [ofOps, sUnion, share]

theorem mem_deltas_ofOps {k : String ×ₗ OpRef} {row : DeltaRow} :
    row ∈ (ofOps c S).deltas k ↔ ∃ o ∈ S, (ofLex k).2 = o.stamp.opRef ∧
      (o.delta (ofLex k).1).map (fun n => ⟨o.stamp.hlc, n⟩) = some row := by
  simp [ofOps, sUnion, share]

theorem mem_removes_ofOps {k : TagKey} :
    k ∈ (ofOps c S).removes ↔ ∃ o ∈ S, o.Removes c k := by
  simp [ofOps, sUnion, share]

theorem mem_books_ofOps {b : Bookkeeping} : b ∈ (ofOps c S).books ↔ ∃ o ∈ S, b = o.book := by
  simp [ofOps, sUnion, share]

theorem ordered_ofOps (hS : DistinctOps S) (hfin : S.Finite) : (ofOps c S).Ordered := by
  have hseen : ∀ s dev a, ¬ (ofOps c S).seen s dev a := by
    rintro s dev a ⟨P, ⟨o, -, rfl⟩, hfalse⟩
    exact hfalse
  have hdistinct : DistinctVersions (ofOps c S).versions := by
    intro v hv w hw heq
    obtain ⟨o, ho, rfl⟩ := mem_versions_ofOps.mp hv
    obtain ⟨o', ho', rfl⟩ := mem_versions_ofOps.mp hw
    rw [stamp_version, stamp_version] at heq
    rw [hS o ho o' ho' heq]
  have hhist := History.ordered_of_unrecorded hdistinct hseen
  refine ⟨⟨hhist.toValid, ?_, ?_, ?_, ?_, ?_, ?_, ?_⟩, hhist⟩
  · intro field m hm
    obtain ⟨o, ho, hmem⟩ := mem_members_ofOps.mp hm
    refine ⟨o.version, mem_versions_ofOps.mpr ⟨o, ho, rfl⟩, ?_⟩
    rw [stamp_version, stamp_of_member hmem]
  · intro field m hm n hn heq
    obtain ⟨o, ho, hm⟩ := mem_members_ofOps.mp hm
    obtain ⟨o', ho', hn⟩ := mem_members_ofOps.mp hn
    rw [stamp_of_member hm, stamp_of_member hn] at heq
    obtain rfl := hS o ho o' ho' heq
    exact Option.some.inj (hm.symm.trans hn)
  · intro field
    -- at most one write for each op
    refine (hfin.image fun o => o.member c field).preimage_embedding
      ⟨some, Option.some_injective _⟩ |>.subset fun m hm => ?_
    obtain ⟨o, ho, hmem⟩ := mem_members_ofOps.mp hm
    exact ⟨o, ho, hmem⟩
  · intro k r hr r' hr' heq
    obtain ⟨o, ho, hr⟩ := mem_entries_ofOps.mp hr
    obtain ⟨o', ho', hr'⟩ := mem_entries_ofOps.mp hr'
    rw [stamp_of_entry hr, stamp_of_entry hr'] at heq
    obtain rfl := hS o ho o' ho' (by rw [heq])
    exact Option.some.inj (hr.symm.trans hr')
  · intro k a ha b hb
    obtain ⟨o, ho, hadd, rfl⟩ := mem_adds_ofOps.mp ha
    obtain ⟨o', ho', hadd', rfl⟩ := mem_adds_ofOps.mp hb
    rw [hS o ho o' ho' ((tag_of_adds hadd).symm.trans (tag_of_adds hadd'))]
  · intro k a ha b hb
    obtain ⟨o, ho, href, ha⟩ := mem_deltas_ofOps.mp ha
    obtain ⟨o', ho', href', hb⟩ := mem_deltas_ofOps.mp hb
    obtain rfl := hS o ho o' ho' (href.symm.trans href')
    exact Option.some.inj (ha.symm.trans hb)
  · intro b hb l hl v hv hstamp
    obtain ⟨o, ho, rfl⟩ := mem_books_ofOps.mp hb
    obtain ⟨o', ho', rfl⟩ := mem_versions_ofOps.mp hv
    have hleg : o.isLegacy = true ∧ o.stamp = l := by
      simpa [book] using hl
    rw [stamp_version] at hstamp
    obtain rfl := hS o' ho' o ho (by rw [hstamp, hleg.2])
    exact Op.kind_version_iff.mpr hleg.1

end Share

/-! ### One entity -/

namespace Entity

def foldOps (c : Codec) (ops : List Op) (e : Entity) : Entity :=
  ops.foldl (fun e op => mergeEntity c op e) e

@[simp] theorem foldOps_nil (c : Codec) (e : Entity) : foldOps c [] e = e := rfl

@[simp] theorem foldOps_cons (c : Codec) (op : Op) (ops : List Op) (e : Entity) :
    foldOps c (op :: ops) e = foldOps c ops (mergeEntity c op e) := rfl

section

variable {c : Codec} {kind : EntityKind} {U P : Share} {e : Entity} (hU : U.WellFormed)

include hU

theorem Sound.foldOps_keeps {C : Entity → Prop} {ops : List Op} (h : e.Sound c kind U)
    (hops : ∀ o ∈ ops, o.share c ≤ U) (hkind : ∀ o ∈ ops, o.target.kind = kind) (hc : C e)
    (hstep : ∀ (op : Op) (e : Entity), e.Sound c op.target.kind U → op.share c ≤ U → C e →
      C (mergeEntity c op e)) :
    (foldOps c ops e).Sound c kind U ∧ C (foldOps c ops e) := by
  induction ops generalizing e with
  | nil => exact ⟨h, hc⟩
  | cons op ops ih =>
    have hk := hkind op List.mem_cons_self
    subst hk
    have hop := hops op List.mem_cons_self
    exact ih (h.merge hU hop) (fun o ho => hops o (List.mem_cons_of_mem _ ho))
      (fun o ho => hkind o (List.mem_cons_of_mem _ ho)) (hstep op e h hop hc)

section

variable {ops : List Op} (h : e.Sound c kind U) (hops : ∀ o ∈ ops, o.share c ≤ U)
  (hkind : ∀ o ∈ ops, o.target.kind = kind)
include h hops hkind

theorem Sound.foldOps : (foldOps c ops e).Sound c kind U :=
  (h.foldOps_keeps hU (C := fun _ => True) hops hkind trivial fun _ _ _ _ _ => trivial).1

theorem CoveredButRemoves.foldOps
    (hc : e.CoveredButRemoves U P) : (foldOps c ops e).CoveredButRemoves U P :=
  (h.foldOps_keeps hU (C := fun e => e.CoveredButRemoves U P) hops hkind hc
    fun _ _ h hop hc => hc.merge hU hop h).2

theorem Covered.foldOps (hc : e.Covered U P) : (foldOps c ops e).Covered U P :=
  (h.foldOps_keeps hU (C := fun e => e.Covered U P) hops hkind hc
    fun _ _ h hop hc => hc.merge hU hop h).2

theorem Sound.covered_foldOps {o : Op}
    (ho : o ∈ ops) : (Entity.foldOps c ops e).Covered U (o.share c) := by
  obtain ⟨before, after, rfl⟩ := List.append_of_mem ho
  obtain ⟨hbefore, hrest⟩ := List.forall_mem_append.mp hops
  obtain ⟨hkinds, hkind⟩ := List.forall_mem_append.mp hkind
  obtain ⟨hop, hafter⟩ := List.forall_mem_cons.mp hrest
  obtain ⟨rfl, hkind⟩ := List.forall_mem_cons.mp hkind
  have hsound := h.foldOps hU hbefore hkinds
  rw [Entity.foldOps, List.foldl_append, List.foldl_cons]
  exact (hsound.covered_merge hU hop).foldOps hU (hsound.merge hU hop) hafter hkind

end

end

end Entity

/-! ### The store -/

def opsOf (id : Id) (ops : List Op) : List Op := ops.filter fun o => o.target.id = id

theorem mem_opsOf {id : Id} {ops : List Op} {o : Op} :
    o ∈ opsOf id ops ↔ o ∈ ops ∧ o.target.id = id := by
  rw [opsOf, List.mem_filter, decide_eq_true_iff]

theorem mergeOps_apply (c : Codec) (s : Store) (ops : List Op) (id : Id) :
    mergeOps c s ops id = Entity.foldOps c (opsOf id ops) (s id) := by
  induction ops generalizing s with
  | nil => rfl
  | cons op ops ih =>
    show mergeOps c (mergeOp c s op) ops id = _
    rw [ih]
    unfold opsOf mergeOp
    by_cases h : op.target.id = id
    · subst h
      simp
    · simp [h, Function.update_of_ne (Ne.symm h)]

/-- The ops a run folded into one entity. -/
abbrev folded (ops : List Op) (id : Id) : Set Op := {o | o ∈ opsOf id ops}

/-- What they say. -/
abbrev foldedShare (c : Codec) (ops : List Op) (id : Id) : Share := .ofOps c (folded ops id)

/-- An id names one entity, of one kind. -/
def OneKind (ops : List Op) : Prop :=
  ∀ o ∈ ops, ∀ o' ∈ ops, o.target.id = o'.target.id → o.target.kind = o'.target.kind

theorem finite_folded (ops : List Op) (id : Id) : (folded ops id).Finite :=
  (opsOf id ops).finite_toSet

theorem DistinctOps.folded {ops : List Op} (h : DistinctOps {o | o ∈ ops}) (id : Id) :
    DistinctOps (folded ops id) :=
  fun o ho o' ho' => h o (mem_opsOf.mp ho).1 o' (mem_opsOf.mp ho').1

theorem OneKind.exists_kind {ops : List Op} (h : OneKind ops) (id : Id) :
    ∃ kind, ∀ o ∈ opsOf id ops, o.target.kind = kind := by
  cases hops : opsOf id ops with
  | nil => exact ⟨.task, by simp⟩
  | cons o _ =>
    have ho : o ∈ opsOf id ops := hops ▸ List.mem_cons_self
    refine ⟨o.target.kind, fun o' ho' => ?_⟩
    have h' := mem_opsOf.mp (hops ▸ ho')
    exact h o' h'.1 o (mem_opsOf.mp ho).1 (h'.2.trans (mem_opsOf.mp ho).2.symm)

section

variable {c : Codec} {ops ops' : List Op} (hU : DistinctOps {o | o ∈ ops})
  (hmem : ∀ o, o ∈ ops ↔ o ∈ ops') {id : Id} {kind : EntityKind}
  (hkind : ∀ o ∈ opsOf id ops, o.target.kind = kind)

include hU

theorem ordered_folded (c : Codec) (id : Id) : (foldedShare c ops id).Ordered :=
  Share.ordered_ofOps (hU.folded id) (finite_folded ops id)

include hmem hkind

theorem sound_mergeOps :
    (mergeOps c (fun _ => ∅) ops' id).Sound c kind (foldedShare c ops id) ∧
      (mergeOps c (fun _ => ∅) ops' id).Covered (foldedShare c ops id) (foldedShare c ops id) := by
  have hmem' : ∀ o, o ∈ opsOf id ops ↔ o ∈ opsOf id ops' := fun o => by
    rw [mem_opsOf, mem_opsOf, hmem]
  have hU' := (ordered_folded hU c id).toWellFormed
  have hempty := Entity.sound_empty c kind (foldedShare c ops id)
  have hin : ∀ o ∈ opsOf id ops', o.share c ≤ foldedShare c ops id := fun o ho =>
    Share.le_ofOps ((hmem' o).mpr ho)
  have hk : ∀ o ∈ opsOf id ops', o.target.kind = kind := fun o ho => hkind o ((hmem' o).mpr ho)
  rw [mergeOps_apply]
  refine ⟨hempty.foldOps hU' hin hk, Entity.Covered.sUnion ?_⟩
  rintro P ⟨o, ho, rfl⟩
  exact hempty.covered_foldOps hU' hin hk ((hmem' o).mp ho)

end

theorem mergeOps_congr (c : Codec) {ops ops' : List Op} (hU : DistinctOps {o | o ∈ ops})
    (hkind : OneKind ops) (hmem : ∀ o, o ∈ ops ↔ o ∈ ops') :
    mergeOps c (fun _ => ∅) ops = mergeOps c (fun _ => ∅) ops' := by
  funext id
  obtain ⟨kind, hk⟩ := hkind.exists_kind id
  obtain ⟨h, hc⟩ := sound_mergeOps (c := c) hU (fun _ => Iff.rfl) hk
  obtain ⟨h', hc'⟩ := sound_mergeOps (c := c) hU hmem hk
  exact h.unique (ordered_folded hU c id) h' hc hc'

/-- **Strong convergence.** Two runs over the same ops, in whatever orders and with
whatever redeliveries, end with the same rows in every merge table, and so project the
same entities. -/
theorem mergeOps_eq_of_mem_iff (c : Codec) (s : Serde) (ops ops' : List Op)
    (hU : DistinctOps {o | o ∈ ops}) (hkind : OneKind ops) (hmem : ∀ o, o ∈ ops ↔ o ∈ ops') :
    mergeOps c (fun _ => ∅) ops = mergeOps c (fun _ => ∅) ops' ∧
      ∀ id, projection c s (mergeOps c (fun _ => ∅) ops) id =
        projection c s (mergeOps c (fun _ => ∅) ops') id := by
  have h := mergeOps_congr c hU hkind hmem
  exact ⟨h, fun id => by rw [h]⟩

theorem distinctOps_of_nodup {ops : List Op} (h : (ops.map fun o => o.stamp.opRef).Nodup) :
    DistinctOps {o | o ∈ ops} :=
  fun _ ho _ ho' heq => List.inj_on_of_nodup_map h ho ho' heq

def taskCreate : Op where
  target := ⟨.task, 1⟩
  stamp := ⟨⟨1, 0⟩, 1, 1, 7⟩
  body := .patch true false (some []) none [("title", .set (.text "a"))]

/-- Device 2 renames it. -/
def taskRename : Op where
  target := ⟨.task, 1⟩
  stamp := ⟨⟨2, 0⟩, 2, 1, 7⟩
  body := .patch false false (some [taskCreate.stamp.opRef]) none [("title", .set (.text "b"))]

/-- Ids and instants as the two ops above make them: id 1, and the first few
milliseconds of the epoch. -/
def Serde.sample : Serde where
  ref := fun _ _ => .text "tsk_00000000000000000000000001"
  msToTs := fun ms => ms * 1000000
  writeTime := fun ns => .text ("1970-01-01T00:00:00.00" ++ toString (ns / 1000000) ++ "Z")
  readTime := fun _ => none
  streak := fun _ => none

theorem mergeOps_eq_rename_first :
    mergeOps .short (fun _ => ∅) [taskCreate, taskRename] =
      mergeOps .short (fun _ => ∅) [taskRename, taskCreate, taskRename] ∧
    projection .short .sample (mergeOps .short (fun _ => ∅) [taskCreate, taskRename]) 1 =
      projection .short .sample
        (mergeOps .short (fun _ => ∅) [taskRename, taskCreate, taskRename]) 1 := by
  have h := mergeOps_eq_of_mem_iff .short .sample [taskCreate, taskRename]
    [taskRename, taskCreate, taskRename] (distinctOps_of_nodup (by decide))
    (by unfold OneKind; decide) (by intro o; simp only [List.mem_cons, List.not_mem_nil]; tauto)
  exact ⟨h.1, h.2 1⟩

/-! ### What a register holds after a run -/

def legacyFloor (ops : List Op) : Option Stamp :=
  ((ops.filter fun o => o.isLegacy).map (·.stamp)).max?

/-- A write is kept as a candidate: it is at or above the floor, and no other such
write's version follows it in `d`. -/
def IsCandidate (c : Codec) (d : Dag) (ops : List Op) (field : String) (m : Member) : Prop :=
  ∃ o ∈ ops, o.member c field = some m ∧ belowFloor (legacyFloor ops) o.stamp = false ∧
    ∀ o' ∈ ops, (o'.member c field).isSome = true →
      belowFloor (legacyFloor ops) o'.stamp = false →
        d.precedes o.stamp.opRef o'.stamp.opRef = false

theorem Entity.Sound.floor_eq {c : Codec} {kind : EntityKind} {ops : List Op} {e : Entity}
    (h : e.Sound c kind (.ofOps c {o | o ∈ ops}))
    (hc : e.CoveredButRemoves (.ofOps c {o | o ∈ ops}) (.ofOps c {o | o ∈ ops})) :
    e.floor = legacyFloor ops := by
  -- the floor is a full-state op's stamp and no such op is above it
  have hmem : ∀ s, s ∈ (ops.filter fun o => o.isLegacy).map (·.stamp) ↔
      ∃ o ∈ ops, o.isLegacy = true ∧ o.stamp = s := fun s => by simp [and_assoc]
  have hbound : ∀ o ∈ ops, o.isLegacy = true → ∃ l, e.floor = some l ∧ o.stamp ≤ l := by
    intro o ho hl
    obtain ⟨k, m, hb, hm⟩ := hc.book o.book (Share.mem_books_ofOps.mpr ⟨o, ho, rfl⟩)
    obtain ⟨l, hl', hle⟩ := hm.legacy o.stamp (by simp [Op.book, hl])
    exact ⟨l, by rw [floor, hb]; exact hl', hle⟩
  cases hfloor : e.floor with
  | none =>
    symm
    rw [legacyFloor, List.max?_eq_none_iff, List.eq_nil_iff_forall_not_mem]
    intro s hs
    obtain ⟨o, ho, hl, -⟩ := (hmem s).mp hs
    obtain ⟨l, hl', -⟩ := hbound o ho hl
    simp [hfloor] at hl'
  | some l =>
    symm
    rw [legacyFloor, List.max?_eq_some_iff]
    constructor
    · rw [hmem]
      unfold floor at hfloor
      cases hb : e.book with
      | none => simp [hb] at hfloor
      | some p =>
        obtain ⟨b, hbU, hl⟩ := (h.book p.1 p.2 hb).2.legacy l (by simpa [hb] using hfloor)
        obtain ⟨o, ho, rfl⟩ := Share.mem_books_ofOps.mp hbU
        exact ⟨o, ho, by simpa [Op.book] using hl⟩
    · intro s hs
      obtain ⟨o, ho, hl, rfl⟩ := (hmem s).mp hs
      obtain ⟨l', hl', hle⟩ := hbound o ho hl
      rw [hfloor, Option.some.injEq] at hl'
      exact hl' ▸ hle

theorem Entity.Sound.mem_members_iff_isCandidate {c : Codec} {kind : EntityKind} {ops : List Op}
    {e : Entity} (hS : DistinctOps {o | o ∈ ops}) (h : e.Sound c kind (.ofOps c {o | o ∈ ops}))
    (hc : e.CoveredButRemoves (.ofOps c {o | o ∈ ops}) (.ofOps c {o | o ∈ ops}))
    (field : String) (m : Member) :
    m ∈ e.regs.members field ↔ IsCandidate c e.dag ops field m := by
  have hU : (Share.ofOps c {o | o ∈ ops}).Ordered := Share.ordered_ofOps hS ops.finite_toSet
  have hfloor := h.floor_eq hc
  have hstamp : ∀ o ∈ ops, o.stamp ∈ stampsOf (Share.ofOps c {o | o ∈ ops}).toHistory :=
    fun o ho => ⟨o.version, Share.mem_versions_ofOps.mpr ⟨o, ho, rfl⟩, stamp_version o⟩
  have hprec : ∀ o ∈ ops, ∀ o' ∈ ops, e.dag.precedes o.stamp.opRef o'.stamp.opRef = true ↔
      (Share.ofOps c {o | o ∈ ops}).Precedes o.stamp o'.stamp := by
    intro o ho o' ho'
    rw [Dag.precedes_iff hU.valid h.dag hc.complete]
    constructor
    · rintro ⟨v, hv, w, hw, hop₁, hop₂, hp⟩
      obtain ⟨o₁, ho₁, rfl⟩ := Share.mem_versions_ofOps.mp hv
      obtain ⟨o₂, ho₂, rfl⟩ := Share.mem_versions_ofOps.mp hw
      rw [stamp_version] at hop₁ hop₂
      rw [stamp_version, stamp_version, hS o₁ ho₁ o ho hop₁, hS o₂ ho₂ o' ho' hop₂] at hp
      exact hp
    · intro hp
      refine ⟨o.version, Share.mem_versions_ofOps.mpr ⟨o, ho, rfl⟩, o'.version,
        Share.mem_versions_ofOps.mpr ⟨o', ho', rfl⟩, ?_, ?_, ?_⟩
      · rw [stamp_version]
      · rw [stamp_version]
      · rw [stamp_version, stamp_version]
        exact hp
  rw [h.mem_members_iff hU hc, hfloor, Share.mem_members_ofOps]
  constructor
  · rintro ⟨⟨o, ho, hm⟩, habove, hmax⟩
    have hst := stamp_of_member hm
    refine ⟨o, ho, hm, hst ▸ habove, fun o' ho' hw _ => ?_⟩
    rw [Bool.eq_false_iff, ne_eq, hprec o ho o' ho']
    obtain ⟨m', hm'⟩ := Option.isSome_iff_exists.mp hw
    rw [← hst, ← stamp_of_member hm']
    exact hmax m' (Share.mem_members_ofOps.mpr ⟨o', ho', hm'⟩)
  · rintro ⟨o, ho, hm, habove, hmax⟩
    have hst := stamp_of_member hm
    refine ⟨⟨o, ho, hm⟩, hst ▸ habove, fun m' hm' hp => ?_⟩
    obtain ⟨o', ho', hm'⟩ := Share.mem_members_ofOps.mp hm'
    rw [hst, stamp_of_member hm'] at hp
    -- what follows the write is above the floor with it
    have hlt := hU.history.order.lt (hstamp o ho) (hstamp o' ho') hp
    have habove' : belowFloor (legacyFloor ops) o'.stamp = false :=
      Bool.eq_false_iff.mpr (belowFloor_ne habove hlt.le)
    have hno := hmax o' ho' (by rw [hm']; rfl) habove'
    rw [(hprec o ho o' ho').mpr hp] at hno
    simp at hno

/-- **The register fold meets its specification.** After any run the rows of a register
are just the writes at or above the entity's legacy floor that no other such write's
version follows; `merge_registers` holds the one of greatest rank, which has no equal,
and `register_losers` the others. -/
theorem registers_mergeOps (c : Codec) (ops : List Op) (hU : DistinctOps {o | o ∈ ops}) (id : Id)
    (kind : EntityKind) (hkind : ∀ o ∈ ops, o.target.id = id → o.target.kind = kind)
    (field : String) :
    let e := mergeOps c (fun _ => ∅) ops id
    let Candidate := IsCandidate c e.dag (opsOf id ops) field
    let rank := rank c (kind.spec.classOf field)
    (∀ m, m ∈ e.regs.members field ↔ Candidate m) ∧
      (∀ w, e.regs.registers.find field = some w ↔
        Candidate w ∧ ∀ m, Candidate m → m ≠ w → rank m < rank w) ∧
      ∀ m, m ∈ e.regs.losersOf field ↔ Candidate m ∧ e.regs.registers.find field ≠ some m := by
  intro e Candidate rank
  have hk : ∀ o ∈ opsOf id ops, o.target.kind = kind := fun o ho =>
    hkind o (mem_opsOf.mp ho).1 (mem_opsOf.mp ho).2
  obtain ⟨h, hc⟩ := sound_mergeOps (c := c) hU (fun _ => Iff.rfl) hk
  have hmem : ∀ m, m ∈ e.regs.members field ↔ Candidate m := fun m =>
    h.mem_members_iff_isCandidate (hU.folded id) hc.toCoveredButRemoves field m
  have hone : OneEach (e.regs.members field) :=
    h.regs.oneEach (ordered_folded hU c id).toWellFormed field
  refine ⟨hmem, fun w => ?_, fun m => ?_⟩
  · rw [(h.normal field).winner, winner_eq_some_iff hone, hmem]
    refine and_congr_right fun hw => ⟨fun hmax m hm hne => ?_, fun hmax m hm => ?_⟩
    · -- equal ranks are equal stamps, and those are one write
      refine lt_of_le_of_ne (hmax m ((hmem m).mpr hm)) fun heq => hne ?_
      exact hone m ((hmem m).mpr hm) w ((hmem w).mpr hw) (by rw [rank_stamp heq])
    · by_cases hne : m = w
      · rw [hne]
      · exact (hmax m ((hmem m).mp hm) hne).le
  · rw [← hmem, (h.normal field).mem_losersOf, ← (h.normal field).winner]
    exact and_congr_right fun _ => ne_comm

theorem registers_mergeOps_rename_first :
    let e := mergeOps .short (fun _ => ∅) [taskRename, taskCreate] 1
    let m : Member := ⟨taskRename.stamp, some (Codec.short.enc (.text "b")), .user⟩
    e.regs.members "title" = [m] ∧
      IsCandidate .short e.dag (opsOf 1 [taskRename, taskCreate]) "title" m := by
  have h := registers_mergeOps .short [taskRename, taskCreate]
    (distinctOps_of_nodup (by decide)) 1 .task (by decide) "title"
  exact ⟨by decide, (h.1 _).mp (by decide)⟩

end Sunrise
