import Mathlib.Data.Finset.Image
import Sunrise.Log.OpLog

/-!
# The revocation register

Whether a device is called revoked is derived, not applied: every `device_revoke` op is
recorded in the ledger `device_revoke_ops` whatever its sender's standing, and the
register `device_revocations` is recomputed from the ledger on every change. A row of a
device somebody else expelled is gated, unless its only revoker is the device the row is
about; and a revoker somebody else again expelled does not count. Rows the fold never
reads the value of are then deleted, and a sender keeps at most 256 targets.

The sender of an op is the device whose key its envelope verified under. Whether a
device has a certificate here, which only the read bounds depend on, is a parameter.

* `RevokeLedger.revokersAll`, `RevokeLedger.revokers`, `RevokeLedger.gated` — the gate.
* `RevokeLedger.gate` — no ledger folds to nothing, and no device moves its own gate.
-/

namespace Sunrise

/-- Why a device was revoked. -/
inductive RevokeReason where
  | lost | stolen | retired | compromised
deriving DecidableEq, Repr

/-- The key of a row of `device_revoke_ops`. -/
structure RevokeKey where
  hlcMs : ℕ
  hlcLogical : ℕ
  sender : Device
  revoked : Device
deriving DecidableEq, Repr

/-- The canonical order of the ledger. -/
def RevokeKey.key (k : RevokeKey) : ℕ ×ₗ ℕ ×ₗ ℕ ×ₗ ℕ :=
  toLex (k.hlcMs, toLex (k.hlcLogical, toLex (k.sender, k.revoked)))

theorem RevokeKey.key_injective : Function.Injective RevokeKey.key := by
  rintro ⟨m, l, s, r⟩ ⟨m', l', s', r'⟩ h
  simpa [RevokeKey.key, and_assoc] using h

instance : LinearOrder RevokeKey := LinearOrder.lift' RevokeKey.key RevokeKey.key_injective

/-- What a row of `device_revoke_ops` holds beside its key. -/
structure RevokeRow where
  reason : RevokeReason
  recordedAtMs : ℕ
deriving DecidableEq, Repr

/-- A row of `device_revocations`. -/
structure Revocation where
  cutMs : ℕ
  cutLogical : ℕ
  revokedBy : Device
  reason : RevokeReason
  recordedAtMs : ℕ
deriving DecidableEq, Repr

/-- A row of `device_read_bounds`. -/
structure ReadBound where
  firstBoundAtMs : ℕ
  /-- The bound was adopted at pairing and never taken by this replica's own fold. -/
  fromSponsor : Bool
deriving DecidableEq, Repr

/-- The table `device_revoke_ops`. -/
abbrev RevokeLedger := Table RevokeKey RevokeRow

namespace RevokeLedger

/-! ### The gate -/

/-- Every device that ever revoked `v`. -/
def revokersAll (ops : RevokeLedger) (v : Device) : Finset Device :=
  ((ops.rows.filter fun r => decide (r.1.sender ≠ r.1.revoked ∧ r.1.revoked = v)).map
    (·.1.sender)).toFinset

def revokers (ops : RevokeLedger) (v : Device) : Finset Device :=
  (ops.revokersAll v).filter fun s => ¬ ∃ other ∈ ops.revokersAll s, other ≠ v

/-- A row is gated when its sender has a revoker that counts, other than the device the
row is about. -/
def gated (ops : RevokeLedger) (k : RevokeKey) : Prop :=
  ∃ r ∈ ops.revokers k.sender, r ≠ k.revoked

instance (ops : RevokeLedger) (k : RevokeKey) : Decidable (ops.gated k) :=
  inferInstanceAs (Decidable (∃ r ∈ ops.revokers k.sender, r ≠ k.revoked))

/-! ### The fold -/

def revocationOf (k : RevokeKey) (row : RevokeRow) : Revocation :=
  ⟨k.hlcMs, k.hlcLogical, k.sender, row.reason, row.recordedAtMs⟩

/-- The register: in canonical order, each row the gate lets through overwrites the one
before it. A row that names its own sender is passed over. -/
def fold (ops : RevokeLedger) : Table Device Revocation :=
  ops.rows.foldl (fun register r =>
    if r.1.sender = r.1.revoked then register
    else if ops.gated r.1 then register
    else register.upsert r.1.revoked (revocationOf r.1 r.2)) ∅

/-! ### The deletions -/

/-- Two rows of one sender about one device. -/
def samePair (k k' : RevokeKey) : Prop := k.sender = k'.sender ∧ k.revoked = k'.revoked

instance (k k' : RevokeKey) : Decidable (samePair k k') :=
  inferInstanceAs (Decidable (_ ∧ _))

/-- A row's rank among its sender's. -/
def rank (k : RevokeKey) : ℕ ×ₗ ℕ ×ₗ ℕ := toLex (k.hlcMs, toLex (k.hlcLogical, k.revoked))

/-- A row of the pair with a greater stamp. -/
def overtaken (ops : RevokeLedger) (k : RevokeKey) : Prop :=
  ∃ r ∈ ops.rows, samePair r.1 k ∧ rank k < rank r.1

instance (ops : RevokeLedger) (k : RevokeKey) : Decidable (ops.overtaken k) :=
  inferInstanceAs (Decidable (∃ r ∈ ops.rows, samePair r.1 k ∧ rank k < rank r.1))

/-- The greatest row of each pair. -/
def heads (ops : RevokeLedger) : List RevokeKey :=
  (ops.rows.map (·.1)).filter fun k => decide (¬ ops.overtaken k)

/-- The place of a pair's greatest row among its sender's, the highest first. -/
def pos (ops : RevokeLedger) (k : RevokeKey) : ℕ :=
  (ops.heads.filter fun h => decide (h.sender = k.sender ∧ rank k < rank h)).length + 1

/-- The most distinct targets one sender's ops keep in the ledger. -/
def targetsPerSender : ℕ := 256

/-- Keep at most `targetsPerSender` targets of each sender: those whose greatest row
sorts highest. -/
def cap (ops : RevokeLedger) : RevokeLedger :=
  ops.filter fun k _ => !ops.heads.any fun h =>
    decide (targetsPerSender < ops.pos h ∧ samePair h k)

/-- Delete all but the greatest row of each pair. -/
def compact (ops : RevokeLedger) : RevokeLedger :=
  ops.filter fun k _ => decide (¬ ops.overtaken k)

end RevokeLedger

/-! ### Applying an op -/

/-- The tables `device_revoke_ops`, `device_revocations` and `device_read_bounds`. -/
structure Revocations where
  ops : RevokeLedger
  register : Table Device Revocation
  readBounds : Table Device ReadBound

/-- A `device_revoke` op, with the clock and the sender of its envelope. -/
structure DeviceRevoke where
  sender : Device
  hlc : Hlc
  revoked : Device
  reason : RevokeReason
deriving DecidableEq, Repr

/-- Where the ledger puts the op. -/
def DeviceRevoke.key (op : DeviceRevoke) : RevokeKey :=
  ⟨i64Of op.hlc.physicalMs, op.hlc.logical, op.sender, op.revoked⟩

namespace Revocations

instance : EmptyCollection Revocations := ⟨⟨∅, ∅, ∅⟩⟩

/-- Recompute the register, and take the read bound of every device in it. -/
def refold (st : Revocations) : Revocations :=
  let register := st.ops.fold
  { st with
    register
    readBounds := register.rows.foldl (fun bounds r =>
      bounds.upsert r.1 ⟨((bounds.find r.1).map (·.firstBoundAtMs)).getD r.2.recordedAtMs,
        false⟩) st.readBounds }

/-- Release the bounds this replica took itself of devices it has no certificate of and
no row names. -/
def releaseOrphanReadBounds (st : Revocations) (certed : Device → Bool) : Revocations :=
  { st with readBounds := st.readBounds.filter fun device bound =>
      bound.fromSponsor || certed device || st.ops.rows.any fun r => r.1.revoked = device }

def applyDeviceRevoke (st : Revocations) (op : DeviceRevoke) (nowMs : ℕ)
    (certed : Device → Bool) : Revocations :=
  -- a device cannot move its own cut
  if op.revoked = op.sender then st
  else
    let ops : RevokeLedger := st.ops.insertOrIgnore op.key ⟨op.reason, i64Of nowMs⟩
    let st := refold { st with ops := ops.cap }
    releaseOrphanReadBounds { st with ops := st.ops.compact } certed

/-- An op as it reaches a replica: the replica's clock, and the devices it has
certificates of. -/
structure Arrival where
  op : DeviceRevoke
  nowMs : ℕ
  certed : Device → Bool

/-- Apply ops as they come. -/
def applyAll (arrivals : List Arrival) : Revocations :=
  arrivals.foldl (fun st a => st.applyDeviceRevoke a.op a.nowMs a.certed) ∅

end Revocations

namespace RevokeLedger

variable {ops ops' : RevokeLedger} {k k' : RevokeKey} {s v : Device}

/-! ### What the gate reads -/

def Revokes (ops : RevokeLedger) (s v : Device) : Prop :=
  s ≠ v ∧ ∃ k, (ops.find k).isSome ∧ k.sender = s ∧ k.revoked = v

theorem mem_rows_iff : (∃ r ∈ ops.rows, r.1 = k) ↔ (ops.find k).isSome := by
  constructor
  · rintro ⟨r, hr, rfl⟩
    exact Option.isSome_iff_exists.mpr ⟨r.2, Table.mem_rows.mp hr⟩
  · intro h
    obtain ⟨row, hrow⟩ := Option.isSome_iff_exists.mp h
    exact ⟨(k, row), Table.mem_rows.mpr hrow, rfl⟩

theorem mem_revokersAll : s ∈ ops.revokersAll v ↔ ops.Revokes s v := by
  simp only [revokersAll, List.mem_toFinset, List.mem_map, List.mem_filter, decide_eq_true_eq]
  constructor
  · rintro ⟨r, ⟨hr, hne, hv⟩, hs⟩
    exact ⟨hs ▸ hv ▸ hne, r.1, mem_rows_iff.mp ⟨r, hr, rfl⟩, hs, hv⟩
  · rintro ⟨hne, k, hk, hs, hv⟩
    obtain ⟨r, hr, rfl⟩ := mem_rows_iff.mpr hk
    exact ⟨r, ⟨hr, hs ▸ hv ▸ hne, hv⟩, hs⟩

theorem mem_revokers : s ∈ ops.revokers v ↔
    ops.Revokes s v ∧ ∀ other, ops.Revokes other s → other = v := by
  simp only [revokers, Finset.mem_filter, mem_revokersAll, not_exists, not_and, not_not]

theorem gated_iff : ops.gated k ↔ ∃ r, r ≠ k.revoked ∧ ops.Revokes r k.sender ∧
    ∀ other, ops.Revokes other r → other = k.sender := by
  simp only [gated, mem_revokers]
  exact ⟨fun ⟨r, ⟨h, hall⟩, hne⟩ => ⟨r, hne, h, hall⟩,
    fun ⟨r, hne, h, hall⟩ => ⟨r, ⟨h, hall⟩, hne⟩⟩

/-- A row lands when the fold lets it into the register. -/
def Lands (ops : RevokeLedger) (k : RevokeKey) : Prop :=
  (ops.find k).isSome ∧ k.sender ≠ k.revoked ∧ ¬ ops.gated k

theorem lands_iff : ops.Lands k ↔ ∃ row, (k, row) ∈ ops.rows ∧
    decide (k.sender ≠ k.revoked ∧ ¬ ops.gated k) = true := by
  constructor
  · rintro ⟨hk, hpass⟩
    obtain ⟨row, hrow⟩ := Option.isSome_iff_exists.mp hk
    exact ⟨row, Table.mem_rows.mpr hrow, decide_eq_true hpass⟩
  · rintro ⟨row, hrow, hpass⟩
    exact ⟨mem_rows_iff.mp ⟨_, hrow, rfl⟩, of_decide_eq_true hpass⟩

theorem fold_eq (ops : RevokeLedger) : ops.fold = ops.rows.foldl (fun register r =>
    if decide (r.1.sender ≠ r.1.revoked ∧ ¬ ops.gated r.1) then
      register.upsert r.1.revoked (revocationOf r.1 r.2) else register) ∅ := by
  unfold fold
  congr 1
  funext register r
  by_cases hself : r.1.sender = r.1.revoked
  · simp [hself]
  · by_cases hg : ops.gated r.1
    · simp [hself, hg]
    · simp [hself, hg]

/-- **The register of a ledger**: of each device, the greatest row that lands. -/
theorem find_fold {d : Device} {ρ : Revocation} : ops.fold.find d = some ρ ↔
    ∃ k row, ops.find k = some row ∧ k.revoked = d ∧ ops.Lands k ∧
      (∀ k', ops.Lands k' → k'.revoked = d → k' ≤ k) ∧ revocationOf k row = ρ := by
  rw [fold_eq, Table.find_foldl_upsert_last
    (fun r : RevokeKey × RevokeRow => decide (r.1.sender ≠ r.1.revoked ∧ ¬ ops.gated r.1))
    (·.1.revoked) (fun r => revocationOf r.1 r.2), Table.find_empty, Option.or_none,
    Option.map_eq_some_iff]
  constructor
  · rintro ⟨r, hr, hρ⟩
    obtain ⟨hmem, hpass, hmax⟩ := Table.getLast?_filter_rows.mp hr
    obtain ⟨hpass, hd⟩ := Bool.and_eq_true_iff.mp hpass
    refine ⟨r.1, r.2, Table.mem_rows.mp hmem, of_decide_eq_true hd, lands_iff.mpr ⟨_, hmem, hpass⟩,
      fun k' hk' hd' => ?_, hρ⟩
    obtain ⟨row', hmem', hpass'⟩ := lands_iff.mp hk'
    exact hmax (k', row') hmem' (Bool.and_eq_true_iff.mpr ⟨hpass', decide_eq_true hd'⟩)
  · rintro ⟨k, row, hfind, hd, hk, hmax, hρ⟩
    refine ⟨(k, row), Table.getLast?_filter_rows.mpr ⟨Table.mem_rows.mpr hfind, ?_, ?_⟩, hρ⟩
    · exact Bool.and_eq_true_iff.mpr ⟨decide_eq_true hk.2, decide_eq_true hd⟩
    · intro r' hr' hpass'
      obtain ⟨hp, hd'⟩ := Bool.and_eq_true_iff.mp hpass'
      exact hmax r'.1 (lands_iff.mpr ⟨r'.2, hr', hp⟩) (of_decide_eq_true hd')

theorem isSome_find_fold {d : Device} :
    (ops.fold.find d).isSome ↔ ∃ k, ops.Lands k ∧ k.revoked = d := by
  constructor
  · intro h
    obtain ⟨ρ, hρ⟩ := Option.isSome_iff_exists.mp h
    obtain ⟨k, -, -, hd, hk, -⟩ := find_fold.mp hρ
    exact ⟨k, hk, hd⟩
  · rintro ⟨k, hk, rfl⟩
    obtain ⟨row, hmem, hpass⟩ := lands_iff.mp hk
    rw [fold_eq, Table.find_foldl_upsert_last
      (fun r : RevokeKey × RevokeRow => decide (r.1.sender ≠ r.1.revoked ∧ ¬ ops.gated r.1))
      (·.1.revoked) (fun r => revocationOf r.1 r.2), Table.find_empty, Option.or_none,
      Option.isSome_map, List.getLast?_isSome]
    exact List.ne_nil_of_mem (List.mem_filter.mpr
      ⟨hmem, Bool.and_eq_true_iff.mpr ⟨hpass, decide_eq_true rfl⟩⟩)

/-! ### The gate holds what it promises -/

theorem lands_of_gated (hg : ops.gated k) :
    ∃ k', ops.Lands k' ∧ k'.revoked = k.sender := by
  obtain ⟨r, -, ⟨hne, k', hk', hs, hv⟩, hall⟩ := gated_iff.mp hg
  refine ⟨k', ⟨hk', hs ▸ hv ▸ hne, fun hg' => ?_⟩, hv⟩
  -- nobody but `k`'s sender, whom the row is about, has revoked `r`
  obtain ⟨o, hne', ho, -⟩ := gated_iff.mp hg'
  exact hne' ((hall o (hs ▸ ho)).trans hv.symm)

theorem gated_congr {x : Device} (h : ∀ s v, s ≠ x → (ops.Revokes s v ↔ ops'.Revokes s v))
    (hk : k.sender = x) (hg : ops.gated k) : ops'.gated k := by
  obtain ⟨r, hne, hr, hall⟩ := gated_iff.mp hg
  have hrx : r ≠ x := fun heq => hr.1 (heq.trans hk.symm)
  refine gated_iff.mpr ⟨r, hne, (h _ _ hrx).mp hr, fun o ho => ?_⟩
  by_cases hox : o = x
  · exact hox.trans hk.symm
  · exact hall o ((h _ _ hox).mpr ho)

def record (ops : RevokeLedger) (more : List (RevokeKey × RevokeRow)) : RevokeLedger :=
  more.foldl (fun ops r => ops.insertOrIgnore r.1 r.2) ops

theorem isSome_find_record {more : List (RevokeKey × RevokeRow)} :
    ((ops.record more).find k).isSome ↔ (ops.find k).isSome ∨ ∃ r ∈ more, r.1 = k := by
  unfold record
  rw [Table.find_foldl_insertOrIgnore, Option.isSome_or, Bool.or_eq_true]
  refine or_congr_right ?_
  rw [← not_iff_not, Bool.not_eq_true, Option.isSome_eq_false_iff, Option.isNone_iff_eq_none,
    Table.lookup_eq_none, not_exists]
  exact forall_congr' fun r => not_and.symm

theorem revokes_record {more : List (RevokeKey × RevokeRow)} {x : Device}
    (hx : ∀ r ∈ more, r.1.sender = x) {s v : Device} (hs : s ≠ x) :
    ops.Revokes s v ↔ (ops.record more).Revokes s v := by
  refine and_congr_right fun _ => exists_congr fun k => ?_
  rw [isSome_find_record]
  constructor
  · rintro ⟨hk, h⟩
    exact ⟨.inl hk, h⟩
  · rintro ⟨hk | ⟨r, hr, rfl⟩, h⟩
    · exact ⟨hk, h⟩
    · exact absurd (h.1.symm.trans (hx r hr)) hs

/-- **The revocation gate.** Where no row names its own sender, a ledger with a row folds
to a register with one; rows a device adds never change whether a row of it lands; and
two devices that revoke each other, and whom nobody else revokes, are both revoked. -/
theorem gate (ops : RevokeLedger) (hself : ∀ k, (ops.find k).isSome → k.sender ≠ k.revoked) :
    (ops.rows ≠ [] → ops.fold.rows ≠ []) ∧
    (∀ (x : Device) (more : List (RevokeKey × RevokeRow)), (∀ r ∈ more, r.1.sender = x) →
      ∀ k, (ops.find k).isSome → k.sender = x → ((ops.record more).Lands k ↔ ops.Lands k)) ∧
    ∀ a b, ops.Revokes a b → ops.Revokes b a → (∀ s, ops.Revokes s a → s = b) →
      (∀ s, ops.Revokes s b → s = a) →
      (ops.fold.find a).isSome ∧ (ops.fold.find b).isSome := by
  refine ⟨fun hne => ?_, fun x more hx k hk hkx => ?_, fun a b hab hba ha hb => ?_⟩
  · obtain ⟨r, hr⟩ := List.exists_mem_of_ne_nil _ hne
    have hk := mem_rows_iff.mp ⟨r, hr, rfl⟩
    have hland : ∃ d, (ops.fold.find d).isSome := by
      by_cases hg : ops.gated r.1
      · obtain ⟨k', hk', -⟩ := lands_of_gated hg
        exact ⟨_, isSome_find_fold.mpr ⟨k', hk', rfl⟩⟩
      · exact ⟨_, isSome_find_fold.mpr ⟨r.1, ⟨hk, hself _ hk, hg⟩, rfl⟩⟩
    obtain ⟨d, hd⟩ := hland
    obtain ⟨ρ, hρ⟩ := Option.isSome_iff_exists.mp hd
    exact List.ne_nil_of_mem (Table.mem_rows (r := (d, ρ)) |>.mpr hρ)
  · have hsame : ∀ s v, s ≠ x → (ops.Revokes s v ↔ (ops.record more).Revokes s v) :=
      fun s v hs => revokes_record hx hs
    refine and_congr (by simp [isSome_find_record, hk]) (and_congr_right fun _ => not_congr ?_)
    exact ⟨gated_congr (fun s v hs => (hsame s v hs).symm) hkx, gated_congr hsame hkx⟩
  · have hlands : ∀ s v, ops.Revokes s v → (∀ r, ops.Revokes r s → r = v) →
        (ops.fold.find v).isSome := by
      rintro s v ⟨hne, k, hk, rfl, rfl⟩ hs
      refine isSome_find_fold.mpr ⟨k, ⟨hk, hne, fun hg => ?_⟩, rfl⟩
      obtain ⟨r, hr, hrev, -⟩ := gated_iff.mp hg
      exact hr (hs r hrev)
    exact ⟨hlands b a hba hb, hlands a b hab ha⟩

/-- Devices 1 and 2 revoke each other. -/
def mutualPair : RevokeLedger :=
  record ∅ [(⟨1, 0, 1, 2⟩, ⟨.stolen, 5⟩), (⟨2, 0, 2, 1⟩, ⟨.lost, 6⟩)]

theorem gate_mutual :
    mutualPair.fold.rows ≠ [] ∧
      ((mutualPair.record [(⟨0, 0, 1, 3⟩, ⟨.lost, 7⟩)]).Lands ⟨1, 0, 1, 2⟩ ↔
        mutualPair.Lands ⟨1, 0, 1, 2⟩) ∧
      (mutualPair.fold.find 1).isSome ∧ (mutualPair.fold.find 2).isSome := by
  have hself : ∀ k, (mutualPair.find k).isSome → k.sender ≠ k.revoked := by
    intro k hk
    obtain ⟨r, hr, rfl⟩ := mem_rows_iff.mpr hk
    have hall : ∀ r ∈ mutualPair.rows, r.1.sender ≠ r.1.revoked := by decide
    exact hall r hr
  have hset : mutualPair.revokersAll 1 = {2} ∧ mutualPair.revokersAll 2 = {1} := by decide
  have hrev : ∀ s v, mutualPair.Revokes s v ↔ s ∈ mutualPair.revokersAll v := fun _ _ =>
    mem_revokersAll.symm
  have h := gate mutualPair hself
  refine ⟨h.1 (by decide), h.2.1 1 _ (by decide) _ (by decide) rfl, h.2.2 1 2 ?_ ?_ ?_ ?_⟩
  all_goals simp [hrev, hset.1, hset.2]

end RevokeLedger

end Sunrise
