import Sunrise.Lib.Quota
import Sunrise.Trust.Revocation

/-!
# The register converges

The ledger after any run is a quota of the ops that came: of each sender, the greatest
row of each target, and of those the 256 that sort highest. A quota does not depend on
the order its rows came in, and the register is a function of the rows the ledger holds,
so two replicas that were given the same ops, in any order and any number of times each,
hold the same register.

* `RevokeLedger.keys` — the rows a ledger holds.
* `Revocations.cutOff_applyAll` — the register converges.
-/

namespace Sunrise

namespace RevokeLedger

variable {ops ops' : RevokeLedger} {k k' : RevokeKey}

/-! ### The rows of a ledger -/

def keys (ops : RevokeLedger) : Finset RevokeKey := (ops.rows.map (·.1)).toFinset

theorem mem_keys : k ∈ ops.keys ↔ (ops.find k).isSome := by
  rw [← mem_rows_iff]
  simp [keys]

theorem keys_insertOrIgnore (ops : RevokeLedger) (k : RevokeKey) (row : RevokeRow) :
    keys (ops.insertOrIgnore k row) = insert k ops.keys := by
  ext k'
  rw [Finset.mem_insert, mem_keys, mem_keys, Table.find_insertOrIgnore]
  by_cases h : k' = k
  · simp [h]
  · simp [h]

/-- The items over a row of `s`: the targets of its sender that rank higher. -/
abbrev above (s : Finset RevokeKey) (k : RevokeKey) : Finset Device :=
  Quota.above RevokeKey.sender RevokeKey.revoked rank s k

theorem mem_above {s : Finset RevokeKey} {d : Device} : d ∈ above s k ↔
    ∃ k' ∈ s, k'.sender = k.sender ∧ rank k < rank k' ∧ k'.revoked = d := Quota.mem_above

theorem eq_of_samePair_of_rank (h : samePair k k') (hr : rank k = rank k') : k = k' := by
  obtain ⟨m, l, s, v⟩ := k
  obtain ⟨m', l', s', v'⟩ := k'
  obtain ⟨hs, hv⟩ := h
  simp only [rank, EmbeddingLike.apply_eq_iff_eq, Prod.mk.injEq] at hr hs
  rw [hr.1, hr.2.1, hs, hr.2.2]

theorem rank_lt_rank_iff (h : samePair k k') : rank k < rank k' ↔ k < k' := by
  obtain ⟨m, l, s, v⟩ := k
  obtain ⟨m', l', s', v'⟩ := k'
  obtain ⟨hs, hv⟩ := h
  show _ ↔ RevokeKey.key _ < RevokeKey.key _
  simp only at hs hv
  simp only [rank, RevokeKey.key, Prod.Lex.toLex_lt_toLex, hs, hv, lt_irrefl, and_false, or_false]

theorem overtaken_iff : ops.overtaken k ↔ k.revoked ∈ above ops.keys k := by
  rw [mem_above]
  constructor
  · rintro ⟨r, hr, ⟨hs, hv⟩, hlt⟩
    exact ⟨r.1, mem_keys.mpr (mem_rows_iff.mp ⟨r, hr, rfl⟩), hs, hlt, hv⟩
  · rintro ⟨k', hk', hs, hlt, hv⟩
    obtain ⟨r, hr, rfl⟩ := mem_rows_iff.mpr (mem_keys.mp hk')
    exact ⟨r, hr, ⟨hs, hv⟩, hlt⟩

theorem mem_heads : k ∈ ops.heads ↔ k ∈ ops.keys ∧ k.revoked ∉ above ops.keys k := by
  simp only [heads, List.mem_filter, decide_eq_true_eq, overtaken_iff, keys, List.mem_toFinset]

theorem exists_head (hk : k ∈ ops.keys) : ∃ h ∈ ops.heads, samePair h k ∧ rank k ≤ rank h := by
  obtain ⟨h, hh, hmax⟩ := Finset.exists_max_image (ops.keys.filter fun h => samePair h k) rank
    ⟨k, Finset.mem_filter.mpr ⟨hk, rfl, rfl⟩⟩
  obtain ⟨hmem, hpair⟩ := Finset.mem_filter.mp hh
  refine ⟨h, mem_heads.mpr ⟨hmem, fun hover => ?_⟩, hpair,
    hmax k (Finset.mem_filter.mpr ⟨hk, rfl, rfl⟩)⟩
  obtain ⟨k', hk', hs, hlt, hv⟩ := mem_above.mp hover
  exact absurd (hmax k' (Finset.mem_filter.mpr ⟨hk', hs.trans hpair.1, hv.trans hpair.2⟩))
    (not_le.mpr hlt)

theorem nodup_heads (ops : RevokeLedger) : ops.heads.Nodup := by
  refine List.Nodup.filter _ (List.Pairwise.map _ (fun a b h => ?_) ops.sorted)
  exact ne_of_lt h

theorem eq_of_mem_heads (hk : k ∈ ops.heads) (hk' : k' ∈ ops.heads) (h : samePair k k') :
    k = k' := by
  obtain ⟨hk, hn⟩ := mem_heads.mp hk
  obtain ⟨hk', hn'⟩ := mem_heads.mp hk'
  refine eq_of_samePair_of_rank h (le_antisymm ?_ ?_)
  · by_contra hlt
    exact hn' (mem_above.mpr ⟨k, hk, h.1, not_le.mp hlt, h.2⟩)
  · by_contra hlt
    exact hn (mem_above.mpr ⟨k', hk', h.1.symm, not_le.mp hlt, h.2.symm⟩)

theorem pos_eq (ops : RevokeLedger) (k : RevokeKey) : ops.pos k = (above ops.keys k).card + 1 := by
  unfold pos
  rw [← List.toFinset_card_of_nodup ((nodup_heads ops).filter _)]
  congr 1
  refine (Finset.card_image_of_injOn (f := RevokeKey.revoked) ?_).symm.trans
    (congrArg Finset.card ?_)
  · intro a ha b hb hab
    simp only [List.coe_toFinset, List.mem_filter, decide_eq_true_eq, Set.mem_ofPred_eq] at ha hb
    exact eq_of_mem_heads ha.1 hb.1 ⟨ha.2.1.trans hb.2.1.symm, hab⟩
  · ext d
    simp only [Finset.mem_image, List.mem_toFinset, List.mem_filter, decide_eq_true_eq]
    constructor
    · rintro ⟨h, ⟨hh, hs, hlt⟩, hd⟩
      exact mem_above.mpr ⟨h, (mem_heads.mp hh).1, hs, hlt, hd⟩
    · intro hd
      obtain ⟨k', hk', hs, hlt, rfl⟩ := mem_above.mp hd
      obtain ⟨h, hh, hpair, hle⟩ := exists_head hk'
      exact ⟨h, ⟨hh, hpair.1.trans hs, hlt.trans_le hle⟩, hpair.2⟩

/-! ### The deletions -/

theorem mem_keys_filter {p : RevokeKey → Bool} :
    k ∈ keys (ops.filter fun k _ => p k) ↔ k ∈ ops.keys ∧ p k := by
  simp only [mem_keys, Option.isSome_iff_exists, Table.find_filter_eq_some, exists_and_right]

theorem mem_keys_cap : k ∈ ops.cap.keys ↔ k ∈ ops.keys ∧
    ∀ h ∈ ops.heads, samePair h k → (above ops.keys h).card < targetsPerSender := by
  refine mem_keys_filter.trans (and_congr_right fun _ => ?_)
  simp only [Bool.not_eq_true', List.any_eq_false, decide_eq_true_eq, pos_eq, not_and]
  exact forall₂_congr fun h _ => ⟨fun hn hp => by by_contra hc; exact hn (by omega) hp,
    fun hn hlt hp => by have := hn hp; omega⟩

theorem mem_keys_compact : k ∈ ops.compact.keys ↔ k ∈ ops.keys ∧ ¬ ops.overtaken k :=
  mem_keys_filter.trans (and_congr_right fun _ => decide_eq_true_iff)

theorem overtaken_cap (hk : k ∈ ops.cap.keys) : ops.cap.overtaken k ↔ ops.overtaken k := by
  rw [overtaken_iff, overtaken_iff, mem_above, mem_above]
  constructor
  · rintro ⟨k', hk', h⟩
    exact ⟨k', (mem_keys_cap.mp hk').1, h⟩
  · rintro ⟨k', hk', hs, hlt, hv⟩
    exact ⟨k', mem_keys_cap.mpr ⟨hk', fun h hh hp =>
      (mem_keys_cap.mp hk).2 h hh ⟨hp.1.trans hs, hp.2.trans hv⟩⟩, hs, hlt, hv⟩

/-- What the deletions keep of a set of rows. -/
abbrev quota (s : Finset RevokeKey) : Finset RevokeKey :=
  Quota.quota RevokeKey.sender RevokeKey.revoked rank targetsPerSender s

/-- **The deletions keep a quota**: of each sender, the greatest row of each target, where
fewer than `targetsPerSender` of its targets rank higher. -/
theorem keys_compact_cap (ops : RevokeLedger) : ops.cap.compact.keys = quota ops.keys := by
  ext k
  rw [mem_keys_compact, Quota.mem_quota]
  constructor
  · rintro ⟨hcap, hover⟩
    obtain ⟨hk, hheads⟩ := mem_keys_cap.mp hcap
    rw [overtaken_cap hcap, overtaken_iff] at hover
    exact ⟨hk, hover, hheads k (mem_heads.mpr ⟨hk, hover⟩) ⟨rfl, rfl⟩⟩
  · rintro ⟨hk, hover, hcard⟩
    have hhead : k ∈ ops.heads := mem_heads.mpr ⟨hk, hover⟩
    have hcap : k ∈ ops.cap.keys := mem_keys_cap.mpr ⟨hk, fun h hh hp => by
      rwa [eq_of_mem_heads hh hhead hp]⟩
    exact ⟨hcap, by rwa [overtaken_cap hcap, overtaken_iff]⟩

/-! ### What a register depends on -/

section

variable
  (h : ∀ s v, (∃ k ∈ ops.keys, k.sender = s ∧ k.revoked = v) ↔
    ∃ k ∈ ops'.keys, k.sender = s ∧ k.revoked = v)
include h

theorem revokes_congr {s v : Device} :
    ops.Revokes s v ↔ ops'.Revokes s v := by
  have := h s v
  simp only [mem_keys] at this
  exact and_congr_right fun _ => this

theorem gated_congr_pairs : ops.gated k ↔ ops'.gated k := by
  simp only [gated_iff, revokes_congr h]

end

theorem fold_compact (ops : RevokeLedger) : ops.compact.fold = ops.fold := by
  have hpairs : ∀ s v, (∃ k ∈ ops.compact.keys, k.sender = s ∧ k.revoked = v) ↔
      ∃ k ∈ ops.keys, k.sender = s ∧ k.revoked = v := by
    intro s v
    constructor
    · rintro ⟨k, hk, h⟩
      exact ⟨k, (mem_keys_compact.mp hk).1, h⟩
    · rintro ⟨k, hk, hs, hv⟩
      obtain ⟨h, hh, hp, -⟩ := exists_head hk
      obtain ⟨hh, hover⟩ := mem_heads.mp hh
      exact ⟨h, mem_keys_compact.mpr ⟨hh, by rwa [overtaken_iff]⟩, hp.1.trans hs, hp.2.trans hv⟩
  have hlands : ∀ k, ops.compact.Lands k ↔ ops.Lands k ∧ ¬ ops.overtaken k := by
    intro k
    unfold Lands
    rw [← mem_keys, ← mem_keys, mem_keys_compact, gated_congr_pairs hpairs]
    tauto
  -- a row that lands lies below the greatest of its pair, which lands too
  have hhead : ∀ k, ops.Lands k → ∃ h, ops.Lands h ∧ ¬ ops.overtaken h ∧
      h.revoked = k.revoked ∧ k ≤ h := by
    rintro k ⟨hk, hne, hg⟩
    obtain ⟨h, hh, hp, hle⟩ := exists_head (mem_keys.mpr hk)
    obtain ⟨hh, hover⟩ := mem_heads.mp hh
    refine ⟨h, ⟨mem_keys.mp hh, by rwa [hp.1, hp.2], ?_⟩, by rwa [overtaken_iff], hp.2, ?_⟩
    · rw [gated, hp.1, hp.2]
      exact hg
    · exact le_of_not_gt fun hlt => absurd hle
        (not_le.mpr ((rank_lt_rank_iff ⟨hp.1, hp.2⟩).mpr hlt))
  refine Table.ext_some fun d ρ => ?_
  rw [find_fold, find_fold]
  constructor
  · rintro ⟨k, row, hfind, hd, hk, hmax, hρ⟩
    refine ⟨k, row, (Table.find_filter_eq_some.mp hfind).1, hd, ((hlands k).mp hk).1,
      fun k' hk' hd' => ?_, hρ⟩
    obtain ⟨h, hh, hover, hrev, hle⟩ := hhead k' hk'
    exact hle.trans (hmax h ((hlands h).mpr ⟨hh, hover⟩) (hrev.trans hd'))
  · rintro ⟨k, row, hfind, hd, hk, hmax, hρ⟩
    have hover : ¬ ops.overtaken k := by
      obtain ⟨h, hh, hover, hrev, hle⟩ := hhead k hk
      rwa [le_antisymm hle (hmax h hh (hrev.trans hd))]
    exact ⟨k, row, Table.find_filter_eq_some.mpr ⟨hfind, decide_eq_true hover⟩, hd,
      (hlands k).mpr ⟨hk, hover⟩, fun k' hk' hd' => hmax k' ((hlands k').mp hk').1 hd', hρ⟩

/-- The cut-off of a device, with the device whose op set it. -/
def cutOff (register : Table Device Revocation) (d : Device) : Option (ℕ × ℕ × Device) :=
  (register.find d).map fun ρ => (ρ.cutMs, ρ.cutLogical, ρ.revokedBy)

theorem cutOff_fold_congr (h : ops.keys = ops'.keys) (d : Device) :
    cutOff ops.fold d = cutOff ops'.fold d := by
  have hsub : ∀ {ops ops' : RevokeLedger}, ops.keys = ops'.keys → ∀ c,
      cutOff ops.fold d = some c → cutOff ops'.fold d = some c := by
    intro ops ops' h c hc
    have hlands : ∀ k, ops.Lands k ↔ ops'.Lands k := by
      intro k
      have hgated : ops.gated k ↔ ops'.gated k :=
        gated_congr_pairs fun s v => by rw [h]
      unfold Lands
      rw [← mem_keys, ← mem_keys, h, hgated]
    obtain ⟨ρ, hρ, rfl⟩ := Option.map_eq_some_iff.mp hc
    obtain ⟨k, row, -, hd, hk, hmax, rfl⟩ := find_fold.mp hρ
    obtain ⟨row', hrow'⟩ := Option.isSome_iff_exists.mp ((hlands k).mp hk).1
    exact Option.map_eq_some_iff.mpr ⟨revocationOf k row', find_fold.mpr ⟨k, row', hrow', hd,
      (hlands k).mp hk, fun k' hk' => hmax k' ((hlands k').mpr hk'), rfl⟩, rfl⟩
  exact Option.ext fun c => ⟨hsub h c, hsub h.symm c⟩

end RevokeLedger

namespace Revocations

open RevokeLedger

variable {st : Revocations}

/-! ### Runs -/

theorem keys_applyDeviceRevoke (st : Revocations) (op : DeviceRevoke) (nowMs : ℕ)
    (certed : Device → Bool) (h : op.revoked ≠ op.sender) :
    (st.applyDeviceRevoke op nowMs certed).ops.keys = quota (insert op.key st.ops.keys) := by
  unfold applyDeviceRevoke
  rw [if_neg h, ← keys_insertOrIgnore _ _ ⟨op.reason, i64Of nowMs⟩]
  exact keys_compact_cap _

theorem register_applyDeviceRevoke (h : st.register = st.ops.fold) (op : DeviceRevoke)
    (nowMs : ℕ) (certed : Device → Bool) :
    (st.applyDeviceRevoke op nowMs certed).register =
      (st.applyDeviceRevoke op nowMs certed).ops.fold := by
  unfold applyDeviceRevoke
  split
  · exact h
  · exact (fold_compact _).symm

/-- The rows a run was given: those of the ops that do not name their own sender. -/
def given (arrivals : List Arrival) : Finset RevokeKey :=
  ((arrivals.filter fun a => decide (a.op.revoked ≠ a.op.sender)).map (·.op.key)).toFinset

theorem given_concat (arrivals : List Arrival) (a : Arrival) :
    given (arrivals ++ [a]) =
      if a.op.revoked = a.op.sender then given arrivals else insert a.op.key (given arrivals) := by
  ext k
  by_cases h : a.op.revoked = a.op.sender
  · simp [given, h]
  · simp [given, h]

/-- **The ledger after any run is a quota of what the run was given.** -/
theorem keys_applyAll (arrivals : List Arrival) : (applyAll arrivals).ops.keys =
    quota (given arrivals) := by
  induction arrivals using List.reverseRecOn with
  | nil => rfl
  | append_singleton arrivals a ih =>
    unfold applyAll at ih ⊢
    rw [List.foldl_concat, given_concat]
    by_cases h : a.op.revoked = a.op.sender
    · rw [if_pos h, applyDeviceRevoke, if_pos h, ih]
    · rw [if_neg h, keys_applyDeviceRevoke _ _ _ _ h, ih]
      exact Quota.quota_insert_quota

theorem register_applyAll (arrivals : List Arrival) :
    (applyAll arrivals).register = (applyAll arrivals).ops.fold :=
  List.foldlRecOn (motive := fun st : Revocations => st.register = st.ops.fold) arrivals _ rfl
    fun _ h a _ => register_applyDeviceRevoke h a.op a.nowMs a.certed

/-- **The register converges.** Two replicas given the same `device_revoke` ops of any
senders, in any order and any number of times each, on whatever clocks and with whatever
certificates, call the same devices revoked, each with the same cut-off. -/
theorem cutOff_applyAll (arrivals arrivals' : List Arrival)
    (h : ∀ op, op ∈ arrivals.map (·.op) ↔ op ∈ arrivals'.map (·.op)) (d : Device) :
    cutOff (applyAll arrivals).register d = cutOff (applyAll arrivals').register d := by
  have hgiven : given arrivals = given arrivals' := by
    have hsub : ∀ {l l' : List Arrival}, (∀ op, op ∈ l.map (·.op) → op ∈ l'.map (·.op)) →
        given l ⊆ given l' := by
      intro l l' hl k hk
      simp only [given, List.mem_toFinset, List.mem_map, List.mem_filter] at hk ⊢
      obtain ⟨a, ⟨ha, hne⟩, rfl⟩ := hk
      obtain ⟨a', ha', heq⟩ := List.mem_map.mp (hl a.op (List.mem_map_of_mem ha))
      exact ⟨a', ⟨ha', heq ▸ hne⟩, by rw [heq]⟩
    exact Finset.Subset.antisymm (hsub fun op => (h op).mp) (hsub fun op => (h op).mpr)
  rw [register_applyAll, register_applyAll]
  exact cutOff_fold_congr (by rw [keys_applyAll, keys_applyAll, hgiven]) d

/-- Device 1 revokes device 2. -/
def firstRevoke : Arrival := ⟨⟨1, ⟨1, 0⟩, 2, .stolen⟩, 5, fun _ => false⟩

/-- Device 2 revokes device 1. -/
def secondRevoke : Arrival := ⟨⟨2, ⟨2, 0⟩, 1, .lost⟩, 6, fun _ => true⟩

theorem cutOff_applyAll_second_first :
    cutOff (applyAll [firstRevoke, secondRevoke]).register 2 =
        cutOff (applyAll [secondRevoke, firstRevoke, secondRevoke]).register 2 ∧
      cutOff (applyAll [firstRevoke, secondRevoke]).register 2 = some (1, 0, 1) :=
  ⟨cutOff_applyAll _ _ (by simp [or_comm]) 2, by decide⟩

end Revocations

end Sunrise
