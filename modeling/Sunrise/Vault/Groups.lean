import Sunrise.Log.Evidence
import Sunrise.Merge.Convergence

/-!
# Groups

A commit of several entity ops is a group: each member carries the group's id and how many
members it has. A member that arrives is logged like any op and listed in the table
`pending_groups`, which holds it out of the fold. Once as many members are listed as the
group has, every one still held is folded, in the transaction that delivered the last.

A vault is the op log, that table and the merge tables. A delivery is one transaction: it
logs the op, folds what it releases, and leaves nothing where the fold fails.
-/

namespace Sunrise

/-- A group: the commit's id and how many members it has. -/
abbrev Group := Id ×ₗ ℕ

def Group.size (g : Group) : ℕ := (ofLex g).2

/-- The group an op is a member of. One smaller than two marks nothing. -/
def Op.group (op : Op) : Option Group :=
  match op.body with
  | .patch _ _ _ group _ | .legacy _ _ group => (group.filter fun g => 2 ≤ g.2).map toLex

/-- A row of `pending_groups`, under its group and op. -/
structure PendingRow where
  hlc : Hlc
  applied : Bool
deriving DecidableEq, Repr

/-- The tables of a vault that a delivery writes. -/
structure Vault where
  log : OpLog
  /-- `pending_groups`. -/
  pending : Table (Group ×ₗ OpRef) PendingRow
  store : Store

def Vault.empty : Vault := ⟨∅, ∅, fun _ => ∅⟩

instance : EmptyCollection Vault := ⟨Vault.empty⟩

/-- A delivery logs the op, or releases it from the parked ones. -/
def OpLog.takes (log : OpLog) (env : Envelope) : Bool :=
  !log.isCovered env && decide (env.ref.seq ≤ storeMax) &&
    match log.rowAt env.ref with
    | none => true
    | some row => row.parked && decide (row.env.opHash = env.opHash)

namespace Vault

variable (c : Codec)

def openLogged (v : Vault) (r : OpRef) : Option Op := (v.log.rowAt r).bind (·.env.op)

/-- Record that a member is present. The store refuses a size that does not fit. -/
def record (v : Vault) (g : Group) (stamp : Stamp) (applied : Bool) : Option Vault :=
  if g.size ≤ storeMax then
    some { v with pending :=
      v.pending.insertOrIgnore (toLex (g, stamp.opRef)) ⟨stamp.hlc, applied⟩ }
  else none

def members (v : Vault) (g : Group) : List (OpRef × PendingRow) :=
  (v.pending.rows.filter fun r => decide ((ofLex r.1).1 = g)).map fun r => ((ofLex r.1).2, r.2)

def held (v : Vault) (g : Group) : List OpRef :=
  ((((v.members g).filter fun m => !m.2.applied).map fun m => m.1.stamp m.2.hlc).insertionSort
    (· ≤ ·)).map (·.opRef)

def markApplied (v : Vault) (g : Group) (r : OpRef) : Vault :=
  { v with pending := v.pending.mapValues fun k row =>
      if k = toLex (g, r) then { row with applied := true } else row }

def foldMember (g : Group) (w : Vault × List Op) (r : OpRef) : Option (Vault × List Op) :=
  (w.1.openLogged r).map fun op =>
    ({ w.1 with store := mergeOp c w.1.store op }.markApplied g r, w.2 ++ [op])

/-- Fold every held member of a group once its members are present. -/
def tryComplete (v : Vault) (g : Group) : Option (Vault × List Op) :=
  if (v.members g).length < g.size then some (v, [])
  else (v.held g).foldlM (foldMember c g) (v, [])

/-- Fold one op that was logged: at once, or, for a member of a group, once the group is
complete. The ops folded come with the vault. -/
def foldReceived (v : Vault) (op : Op) : Option (Vault × List Op) :=
  match op.group with
  | none => some ({ v with store := mergeOp c v.store op }, [op])
  | some g => (v.record g op.stamp false).bind fun v => v.tryComplete c g

/-- Receive an op this build reads. Where the fold fails, the delivery leaves no trace. -/
def receive (ch : ChainHash) (v : Vault) (env : Envelope) : Vault × List Op :=
  let logged := { v with log := v.log.receive ch env }
  if v.log.takes env then
    match env.op with
    | none => (logged, [])
    | some op => (logged.foldReceived c op).getD (v, [])
  else (logged, [])

/-- Receive an op this build cannot read. -/
def park (ch : ChainHash) (v : Vault) (env : Envelope) : Vault :=
  { v with log := v.log.park ch env }

/-- Receive ops in turn. The ops folded come with the vault. -/
def receiveAll (ch : ChainHash) (envs : List Envelope) : Vault × List Op :=
  envs.foldl (fun w env => let next := w.1.receive c ch env; (next.1, w.2 ++ next.2)) (∅, [])

/-! ### Reading the tables -/

variable {c} {v : Vault} {g : Group} {r : OpRef}

theorem mem_members {row : PendingRow} :
    (r, row) ∈ v.members g ↔ v.pending.find (toLex (g, r)) = some row := by
  unfold members
  constructor
  · intro h
    obtain ⟨⟨k, row'⟩, hmem, heq⟩ := List.mem_map.mp h
    obtain ⟨hrow, hg⟩ := List.mem_filter.mp hmem
    obtain ⟨rfl, rfl⟩ := Prod.mk.inj heq
    have hk : toLex (g, (ofLex k).2) = k := by
      rw [← of_decide_eq_true hg]
      rfl
    rw [hk]
    exact Table.mem_rows.mp hrow
  · intro h
    exact List.mem_map.mpr ⟨(toLex (g, r), row), List.mem_filter.mpr
      ⟨Table.mem_rows.mpr h, decide_eq_true rfl⟩, rfl⟩

theorem nodup_members (v : Vault) (g : Group) : ((v.members g).map (·.1)).Nodup := by
  unfold members
  rw [List.map_map]
  refine List.Nodup.map_on ?_ ((v.pending.sorted.imp fun h => ?_).filter _)
  · rintro ⟨k, row⟩ hk ⟨k', row'⟩ hk' heq
    obtain ⟨hrow, hg⟩ := List.mem_filter.mp hk
    obtain ⟨hrow', hg'⟩ := List.mem_filter.mp hk'
    obtain rfl : k = k' := Prod.ext ((of_decide_eq_true hg).trans (of_decide_eq_true hg').symm) heq
    have hfind : v.pending.find k = some row := Table.mem_rows.mp hrow
    have hfind' : v.pending.find k = some row' := Table.mem_rows.mp hrow'
    rw [Option.some.inj (hfind.symm.trans hfind')]
  · rintro rfl
    exact lt_irrefl _ h

theorem mem_held : r ∈ v.held g ↔ ∃ row, v.pending.find (toLex (g, r)) = some row ∧
    row.applied = false := by
  unfold held
  simp only [List.mem_map, List.mem_insertionSort, List.mem_filter]
  constructor
  · rintro ⟨stamp, ⟨⟨r', row⟩, ⟨hm, ha⟩, rfl⟩, rfl⟩
    exact ⟨row, mem_members.mp hm, by simpa using ha⟩
  · rintro ⟨row, hf, ha⟩
    exact ⟨_, ⟨(r, row), ⟨mem_members.mpr hf, by simpa using ha⟩, rfl⟩, rfl⟩

theorem nodup_held (v : Vault) (g : Group) : (v.held g).Nodup := by
  unfold held
  have hperm := (List.perm_insertionSort (· ≤ ·)
    (((v.members g).filter fun m => !m.2.applied).map fun m => m.1.stamp m.2.hlc)).map
      Stamp.opRef
  refine hperm.nodup_iff.mpr ?_
  rw [List.map_map]
  exact (v.nodup_members g).sublist (List.filter_sublist.map _)

/-- **What folding held members leaves**: the merge tables fold their ops in turn, and their
rows are marked. -/
theorem foldlM_foldMember (c : Codec) (g : Group) {L : List OpRef} {v : Vault} {F : List Op}
    (hopen : ∀ r ∈ L, (v.openLogged r).isSome) :
    ∃ v', L.foldlM (foldMember c g) (v, F) = some (v', F ++ L.filterMap v.openLogged) ∧
      v'.log = v.log ∧ v'.store = mergeOps c v.store (L.filterMap v.openLogged) ∧
      ∀ k, v'.pending.find k = (v.pending.find k).map fun row =>
        if (ofLex k).1 = g ∧ (ofLex k).2 ∈ L then { row with applied := true } else row := by
  induction L generalizing v F with
  | nil =>
    refine ⟨v, by simp, rfl, rfl, fun k => ?_⟩
    simp
  | cons r L ih =>
    obtain ⟨hr, hL⟩ := List.forall_mem_cons.mp hopen
    obtain ⟨op, hop⟩ := Option.isSome_iff_exists.mp hr
    -- the log stays, so the members after it open as before
    obtain ⟨v', hfold, hlog, hstore, hfind⟩ :=
      ih (v := { v with store := mergeOp c v.store op }.markApplied g r) (F := F ++ [op]) hL
    refine ⟨v', ?_, hlog, ?_, fun k => ?_⟩
    · rw [List.foldlM_cons, foldMember, hop, List.filterMap_cons_some hop]
      show List.foldlM (foldMember c g) _ L = _
      rw [hfold, List.append_assoc]
      rfl
    · rw [hstore, List.filterMap_cons_some hop]
      rfl
    · rw [hfind]
      show (((v.pending.mapValues _).find k).map _) = _
      rw [Table.find_mapValues, Option.map_map]
      congr 1
      funext row
      by_cases hk : k = toLex (g, r)
      · subst hk
        simp
      · have hne : ¬ ((ofLex k).1 = g ∧ (ofLex k).2 = r) := fun h => hk (Prod.ext h.1 h.2)
        simp only [Function.comp, hk, if_false, List.mem_cons, and_or_left, hne, false_or]

end Vault

end Sunrise
