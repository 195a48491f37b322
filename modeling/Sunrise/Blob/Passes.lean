import Sunrise.Blob.Cache
import Mathlib.Algebra.BigOperators.Group.List.Basic

/-!
# Passes

A pass evicts blobs one after another. What it finds when it deletes one is what the writes
before it left, so its plan, made once, stays right to its end.

## Main results

* `BlobVault.wellEvicted_evictWrites` — **a pass evicts well**.
* `BlobVault.used_noteWrites` — **after a store the index is within its limit**, or nothing more
  can go.
-/

namespace Sunrise

/-- What the ids of blobs stand for: how many chunks each has, and which are thumbnails. -/
structure BlobInfo where
  chunkCount : BlobId → ℕ
  isThumbnail : BlobId → Bool

namespace BlobInfo

/-- A blob is what its id stands for. -/
structure FitsRef (info : BlobInfo) (r : BlobRef) : Prop where
  pos : 0 < r.chunkCount
  chunkCount : info.chunkCount r.blobId = r.chunkCount
  isThumbnail : info.isThumbnail r.blobId = r.isThumbnail

def FitsAttachment (info : BlobInfo) (a : Attachment) : Prop :=
  info.FitsRef (.original a) ∧ ∀ r ∈ BlobRef.thumbnail a, info.FitsRef r

end BlobInfo

namespace BlobVault

/-! ### One write after another -/

/-- Writes, each with the state it finds. -/
def trace (σ : BlobVault) : List BlobWrite → List (BlobVault × BlobWrite)
  | [] => []
  | w :: ws => (σ, w) :: trace (σ.write w) ws

variable {c : BlobCrypto} {info : BlobInfo} {σ τ : BlobVault} {ws ws' : List BlobWrite}
  {w : BlobWrite} {b : BlobId} {limit nowMs : ℕ} {keep : Option BlobId}

theorem trace_append : trace σ (ws ++ ws') = trace σ ws ++ trace (σ.writes ws) ws' := by
  induction ws generalizing σ with
  | nil => rfl
  | cons w ws ih =>
    rw [List.cons_append, trace, trace, ih]
    rfl

theorem mem_trace : (τ, w) ∈ trace σ ws ↔
    ∃ done rest, ws = done ++ w :: rest ∧ τ = σ.writes done := by
  induction ws generalizing σ with
  | nil => simp [trace]
  | cons v ws ih =>
    rw [trace, List.mem_cons, ih]
    constructor
    · rintro (h | ⟨done, rest, rfl, rfl⟩)
      · obtain ⟨rfl, rfl⟩ := Prod.mk.inj h
        exact ⟨[], ws, rfl, rfl⟩
      · exact ⟨v :: done, rest, rfl, rfl⟩
    · rintro ⟨done, rest, heq, rfl⟩
      cases done with
      | nil =>
        obtain ⟨rfl, rfl⟩ := List.cons.inj heq
        exact .inl rfl
      | cons v' done =>
        obtain ⟨rfl, rfl⟩ := List.cons.inj heq
        exact .inr ⟨done, rest, rfl, rfl⟩

theorem mem_of_mem_trace (h : (τ, w) ∈ trace σ ws) : w ∈ ws := by
  obtain ⟨done, rest, rfl, -⟩ := mem_trace.mp h
  exact List.mem_append_right _ List.mem_cons_self

/-! ### What a pass leaves -/

def marked (evicted : List BlobId) (nowMs : ℕ) (b : BlobId) (row : CacheRow) : CacheRow :=
  if b ∈ evicted then { row with evictedAtMs := some nowMs } else row

theorem evictedAtMs_marked {evicted : List BlobId} {row : CacheRow} :
    (marked evicted nowMs b row).evictedAtMs = none ↔ b ∉ evicted ∧ row.evictedAtMs = none := by
  unfold marked
  split
  next h => simp [h]
  next h => simp [h]

section

variable (plan : List (BlobId × CacheRow))
include plan

theorem cache_passWrites :
    (σ.writes (passWrites keep nowMs plan)).cache =
      σ.cache.mapValues (marked (plan.map (·.1)) nowMs) := by
  induction plan generalizing σ with
  | nil =>
    refine Table.ext_find fun b => ?_
    rw [Table.find_mapValues]
    show σ.cache.find b = _
    cases σ.cache.find b <;> rfl
  | cons r plan ih =>
    refine Table.ext_find fun b => ?_
    show ((((σ.write (.deleteAll r.1 keep)).write (.markEvicted r.1 nowMs)).writes
      (passWrites keep nowMs plan)).cache).find b = _
    rw [ih, Table.find_mapValues, Table.find_mapValues]
    show ((σ.cache.mapValues _).find b).map _ = _
    rw [Table.find_mapValues]
    cases σ.cache.find b with
    | none => rfl
    | some row =>
      unfold marked
      simp only [Option.map_some, List.map_cons, List.mem_cons]
      rcases eq_or_ne b r.1 with rfl | hne
      · rw [if_pos rfl, if_pos (Or.inl rfl), ite_self]
      · simp only [hne, if_false, false_or]

theorem live_passWrites :
    (σ.writes (passWrites keep nowMs plan)).live =
      σ.live.filter fun r => r.1 ∉ plan.map (·.1) := by
  unfold live
  rw [cache_passWrites]
  show (σ.cache.rows.map fun r => (r.1, marked (plan.map (·.1)) nowMs r.1 r.2)).filter _ = _
  rw [List.filter_map, List.filter_filter]
  have hkept : ∀ r : BlobId × CacheRow,
      ((fun r : BlobId × CacheRow => decide (r.2.evictedAtMs = none)) ∘
        fun r => (r.1, marked (plan.map (·.1)) nowMs r.1 r.2)) r =
      (decide (r.1 ∉ plan.map (·.1)) && decide (r.2.evictedAtMs = none)) := by
    intro r
    rw [Function.comp_apply, decide_eq_decide.mpr evictedAtMs_marked, Bool.decide_and]
  rw [List.filter_congr fun r _ => hkept r]
  refine (List.map_congr_left fun r hr => ?_).trans (List.map_id _)
  have hmem := (List.mem_filter.mp hr).2
  rw [Bool.and_eq_true, decide_eq_true_eq] at hmem
  unfold marked
  rw [if_neg hmem.1]
  rfl

theorem uploads_passWrites :
    (σ.writes (passWrites keep nowMs plan)).uploads = σ.uploads := by
  refine writes_keep (f := uploads) fun w hw τ => ?_
  obtain ⟨r, -, hr⟩ := List.mem_flatMap.mp hw
  simp only [List.mem_cons, List.not_mem_nil, or_false] at hr
  rcases hr with rfl | rfl <;> rfl

theorem pins_passWrites :
    (σ.writes (passWrites keep nowMs plan)).pins = σ.pins := by
  refine writes_keep (f := pins) fun w hw τ => ?_
  obtain ⟨r, -, hr⟩ := List.mem_flatMap.mp hw
  simp only [List.mem_cons, List.not_mem_nil, or_false] at hr
  rcases hr with rfl | rfl <;> rfl

end

theorem isProtected_congr {row : CacheRow} (huploads : τ.uploads = σ.uploads)
    (hpins : τ.pins = σ.pins) : τ.isProtected b row = σ.isProtected b row := by
  unfold isProtected isPinned
  rw [huploads, hpins]

theorem nodup_live : (σ.live.map (·.1)).Nodup := by
  have hrows : (σ.cache.rows.map (·.1)).Nodup :=
    (List.pairwise_map.mpr (σ.cache.sorted.imp fun h => h.ne))
  exact hrows.sublist (List.filter_sublist.map _)

theorem eq_of_mem_live {r s : BlobId × CacheRow} (hr : r ∈ σ.live) (hs : s ∈ σ.live)
    (h : r.1 = s.1) : r = s :=
  List.inj_on_of_nodup_map nodup_live hr hs h

theorem used_passWrites {plan : List (BlobId × CacheRow)} (hsub : ∀ r ∈ plan, r ∈ σ.live)
    (hnodup : plan.Nodup) :
    (σ.writes (passWrites keep nowMs plan)).used =
      σ.used - (plan.map (·.2.sealedBytes)).sum := by
  have hperm : (σ.live.filter fun r => decide (r.1 ∈ plan.map (·.1))).Perm plan := by
    refine (List.perm_ext_iff_of_nodup ?_ hnodup).mpr fun r => ?_
    · exact (nodup_live.of_map _).filter _
    · rw [List.mem_filter, decide_eq_true_eq]
      constructor
      · rintro ⟨hlive, hmem⟩
        obtain ⟨s, hs, heq⟩ := List.mem_map.mp hmem
        rwa [eq_of_mem_live hlive (hsub s hs) heq.symm]
      · intro hmem
        exact ⟨hsub r hmem, List.mem_map_of_mem hmem⟩
  have hsplit := (List.filter_append_perm (fun r => decide (r.1 ∈ plan.map (·.1))) σ.live).map
    (·.2.sealedBytes)
  have hsum := hsplit.sum_eq
  rw [List.map_append, List.sum_append, (hperm.map (·.2.sealedBytes)).sum_eq] at hsum
  unfold used
  rw [live_passWrites, ← hsum, Nat.add_sub_cancel_left]
  simp only [decide_not]

theorem nodup_evictPlan : (σ.evictPlan limit keep).Nodup := by
  have hevictable : σ.evictable.Nodup :=
    (List.perm_insertionSort _ _).nodup_iff.mpr ((nodup_live.of_map _).filter _)
  exact (hevictable.filter _).sublist ( takeDown_prefix _ _).sublist

/-- **After a pass the index is within its limit**, or everything in it is protected or was
spared. -/
theorem used_evictWrites :
    (σ.writes (σ.evictWrites limit keep nowMs)).used ≤ limit ∨
      ∀ r ∈ (σ.writes (σ.evictWrites limit keep nowMs)).live,
        σ.isProtected r.1 r.2 = true ∨ keep = some r.1 := by
  unfold evictWrites
  rw [used_passWrites (fun r hr => (mem_evictPlan hr).1) nodup_evictPlan, live_passWrites]
  rcases @takeDown_used limit keep σ.used σ.evictable with hused | hall
  · exact .inl hused
  · refine .inr fun r hr => ?_
    obtain ⟨hlive, hgone⟩ := List.mem_filter.mp hr
    by_contra hneither
    rw [not_or, Bool.not_eq_true] at hneither
    -- otherwise it was one that the pass took
    have hmem : r ∈ σ.evictPlan limit keep := by
      unfold evictPlan
      rw [hall]
      exact List.mem_filter.mpr ⟨mem_evictable.mpr ⟨hlive, hneither.1⟩,
        decide_eq_true hneither.2⟩
    exact of_decide_eq_true hgone (List.mem_map_of_mem hmem)

theorem mem_trace_passWrites {plan : List (BlobId × CacheRow)}
    (h : (τ, w) ∈ trace σ (passWrites keep nowMs plan)) :
    ∃ pre r post, plan = pre ++ r :: post ∧
      (w = .deleteAll r.1 keep ∧ τ = σ.writes (passWrites keep nowMs pre) ∨
        w = .markEvicted r.1 nowMs ∧
          τ = (σ.writes (passWrites keep nowMs pre)).write (.deleteAll r.1 keep)) := by
  induction plan generalizing σ with
  | nil => cases h
  | cons r plan ih =>
    rcases List.mem_cons.mp h with h | h
    · obtain ⟨rfl, rfl⟩ := Prod.mk.inj h
      exact ⟨[], r, plan, rfl, .inl ⟨rfl, rfl⟩⟩
    · rcases List.mem_cons.mp h with h | h
      · obtain ⟨rfl, rfl⟩ := Prod.mk.inj h
        exact ⟨[], r, plan, rfl, .inr ⟨rfl, rfl⟩⟩
      · obtain ⟨pre, s, post, rfl, hw⟩ := ih h
        exact ⟨r :: pre, s, post, rfl, hw⟩

/-- When a blob is evicted it does not wait for upload, is no thumbnail, is held by no preview,
and no other that might be evicted was opened longer ago, the one that is spared aside. -/
structure WellEvicted (info : BlobInfo) (τ : BlobVault) (b : BlobId) (spared : Option BlobId) :
    Prop where
  notWaiting : τ.uploads.find b = none
  notThumbnail : info.isThumbnail b = false
  notPinned : τ.isPinned b = false
  oldest : ∃ row, (b, row) ∈ τ.live ∧ ∀ r ∈ τ.live, τ.isProtected r.1 r.2 = false →
    spared ≠ some r.1 → age (b, row) ≤ age r

/-- The rows say which blobs are thumbnails. -/
def RowsFit (info : BlobInfo) (σ : BlobVault) : Prop :=
  ∀ b row, σ.cache.find b = some row → row.isThumbnail = info.isThumbnail b

theorem mem_live {r : BlobId × CacheRow} :
    r ∈ σ.live ↔ σ.cache.find r.1 = some r.2 ∧ r.2.evictedAtMs = none := by
  unfold live
  rw [List.mem_filter, decide_eq_true_eq, Table.mem_rows]

/-- **A pass evicts well.** -/
theorem wellEvicted_evictWrites (hrows : σ.RowsFit info) {spared : Option BlobId}
    (h : (τ, .deleteAll b spared) ∈ trace σ (σ.evictWrites limit keep nowMs)) :
    spared = keep ∧ WellEvicted info τ b spared := by
  obtain ⟨pre, r, post, hplan, ⟨hw, rfl⟩ | ⟨hw, -⟩⟩ := mem_trace_passWrites h
  swap
  · cases hw
  obtain ⟨rfl, rfl⟩ := BlobWrite.deleteAll.inj hw
  have hr : r ∈ σ.evictPlan limit spared := by
    rw [hplan]
    exact List.mem_append_right _ List.mem_cons_self
  obtain ⟨hlive, hprotected, hspared⟩ := mem_evictPlan hr
  have hparts := hprotected
  unfold isProtected at hparts
  rw [Bool.or_eq_false_iff, Bool.or_eq_false_iff] at hparts
  have hfind := mem_live.mp hlive
  -- the order of the pass: what it may still take was opened later
  have hprefix : takeDown limit spared σ.used σ.evictable <+: _ := takeDown_prefix _ _
  obtain ⟨rest, hrest⟩ := hprefix
  have hall : (pre ++ (r :: (post ++ rest))) = σ.evictable.filter fun s => spared ≠ some s.1 := by
    rw [← hrest, show takeDown limit spared σ.used σ.evictable = pre ++ r :: post from hplan]
    simp only [List.append_assoc, List.cons_append]
  have hsorted : (pre ++ (r :: (post ++ rest))).Pairwise fun r s => age r ≤ age s := by
    rw [hall]
    exact (List.pairwise_insertionSort (fun r s => age r ≤ age s) _).filter _
  have hfirst : r.1 ∉ pre.map (·.1) := by
    intro hmem
    obtain ⟨s, hs, heq⟩ := List.mem_map.mp hmem
    have hsplan : s ∈ σ.evictPlan limit spared := by
      rw [hplan]
      exact List.mem_append_left _ hs
    have hnodup := @nodup_evictPlan σ limit spared
    rw [hplan] at hnodup
    rw [eq_of_mem_live (mem_evictPlan hsplan).1 hlive heq] at hs
    exact (List.nodup_append.mp hnodup).2.2 r hs r List.mem_cons_self rfl
  have hprotect := fun (b : BlobId) (row : CacheRow) => @isProtected_congr _ _ b row
    (@uploads_passWrites σ nowMs spared pre) (pins_passWrites pre)
  refine ⟨rfl, ?_, ?_, ?_, r.2, ?_, fun s hs hfree hne => ?_⟩
  · rw [uploads_passWrites]
    exact Option.not_isSome_iff_eq_none.mp (by rw [hparts.1.2]; exact Bool.false_ne_true)
  · rw [← hrows _ _ hfind.1]
    exact hparts.1.1
  · unfold isPinned
    rw [pins_passWrites]
    exact hparts.2
  · rw [live_passWrites]
    exact List.mem_filter.mpr ⟨hlive, decide_eq_true hfirst⟩
  · rw [live_passWrites] at hs
    obtain ⟨hslive, hsgone⟩ := List.mem_filter.mp hs
    rw [hprotect] at hfree
    have hmem : s ∈ pre ++ (r :: (post ++ rest)) := by
      rw [hall]
      exact List.mem_filter.mpr ⟨mem_evictable.mpr ⟨hslive, hfree⟩, decide_eq_true hne⟩
    rcases List.mem_append.mp hmem with hpre | htail
    · exact absurd (List.mem_map_of_mem hpre) (of_decide_eq_true hsgone)
    · rcases List.mem_cons.mp htail with rfl | htail
      · exact le_rfl
      · exact (List.pairwise_cons.mp (List.pairwise_append.mp hsorted).2.1).1 s htail

section

variable {r : BlobRef} (hrows : σ.RowsFit info) (hr : info.isThumbnail r.blobId = r.isThumbnail)
include hrows hr

theorem RowsFit.upsert :
    (σ.write (.upsert r nowMs)).RowsFit info := by
  intro b row hrow
  change (σ.cache.upsert r.blobId _).find b = some row at hrow
  rw [Table.find_upsert] at hrow
  split at hrow
  next heq =>
    obtain rfl := Option.some.inj hrow
    rw [heq]
    exact hr.symm
  next => exact hrows b row hrow

theorem wellEvicted_noteWrites {spared : Option BlobId}
    (h : (τ, .deleteAll b spared) ∈ trace σ (σ.noteWrites r nowMs)) :
    spared = some r.blobId ∧ WellEvicted info τ b spared := by
  rcases List.mem_cons.mp h with h | h
  · cases (Prod.mk.inj h).2
  · exact wellEvicted_evictWrites (hrows.upsert hr) h

end

/-- **After a store the index is within its limit**, or everything in it is protected or is the
blob that was stored. -/
theorem used_noteWrites (r : BlobRef) :
    (σ.writes (σ.noteWrites r nowMs)).used ≤ (σ.writes (σ.noteWrites r nowMs)).limit ∨
      ∀ s ∈ (σ.writes (σ.noteWrites r nowMs)).live,
        (σ.writes (σ.noteWrites r nowMs)).isProtected s.1 s.2 = true ∨ s.1 = r.blobId := by
  have hlimit : (σ.writes (σ.noteWrites r nowMs)).limit = σ.limit := by
    refine writes_keep (f := BlobVault.limit) fun w hw τ => ?_
    rcases mem_noteWrites hw with rfl | ⟨row, -, -, rfl | rfl⟩ <;> rfl
  rw [hlimit]
  refine (@used_evictWrites (σ.write (.upsert r nowMs)) σ.limit nowMs
    (some r.blobId)).imp_right fun h s hs => ?_
  refine (h s hs).imp (fun hprotected => ?_) fun hkeep => (Option.some.inj hkeep).symm
  rw [← hprotected]
  exact isProtected_congr (uploads_passWrites _) (pins_passWrites _)

end BlobVault

end Sunrise
