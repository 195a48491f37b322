import Mathlib.Data.List.Nodup
import Sunrise.Blob.Fetch
import Sunrise.Blob.Runs
import Sunrise.Lib.Batch

/-!
# Downloads that nobody asked for

What a device may fetch unasked is found by a query, again on every pass: the thumbnails, and then
the originals that are small and were not evicted, of the attachments that are not deleted, the
newest first. A pass takes the first few that are not on disk and asks the relay for them.

There is no record of what the relay did not have. So a pass takes up the same blobs as the one
before, and never comes to those behind them.

* `NetworkClass`, `autoFetchPolicy` — what the network lets through.

## Main results

* `BlobVault.passes_reach_iff` — **passes come to an end, and then every missing blob that the relay
  has is fetched if and only if none stood behind four that it has not.**
-/

namespace Sunrise

open BlobRef BlobCrypto

/-- The largest original that is fetched unasked. -/
def autoFetchMaxBytes : ℕ := 10 * 1024 * 1024

/-- The network a client is on, as it reports it. -/
inductive NetworkClass where
  | unmetered
  | cellular
  | constrained
deriving DecidableEq, Repr

/-- What may be fetched unasked. -/
structure AutoFetchPolicy where
  thumbnails : Bool
  originals : Bool
deriving DecidableEq, Repr

def autoFetchPolicy (network : NetworkClass) (onCellular : Bool) : AutoFetchPolicy :=
  match network with
  | .unmetered => ⟨true, true⟩
  | .cellular => ⟨true, onCellular⟩
  | .constrained => ⟨false, false⟩

namespace BlobVault

variable (c : BlobCrypto) (σ : BlobVault) (policy : AutoFetchPolicy)
  (createdAtMs : AttachmentId → ℤ)

def newestFirst : List Attachment :=
  ((σ.attachments.rows.filter fun r => !r.2.deleted).insertionSort fun r s =>
    toLex (createdAtMs s.1, s.1) ≤ toLex (createdAtMs r.1, r.1)).map (·.2)

def isEvicted (b : BlobId) : Bool := (σ.cache.find b).any fun row => row.evictedAtMs.isSome

/-- The thumbnails, whatever their attachment's size. -/
def thumbnailCandidates : List BlobRef :=
  (((σ.newestFirst createdAtMs).filter fun a => a.thumbnail.isSome).take maxFetchScan).filterMap
    thumbnail

/-- The small originals. One that was evicted stays evicted until somebody opens it. -/
def originalCandidates : List BlobRef :=
  ((((σ.newestFirst createdAtMs).filter fun a =>
    a.sizeBytes ≤ autoFetchMaxBytes && !σ.isEvicted a.blobId).take maxFetchScan).filter
      Attachment.isFetchable).map .original

def candidates : List BlobRef :=
  (if policy.thumbnails then σ.thumbnailCandidates createdAtMs else []) ++
    if policy.originals then σ.originalCandidates createdAtMs else []

/-- The candidates that are not on disk. -/
def missing : List BlobRef :=
  (σ.candidates policy createdAtMs).filter fun r => !σ.hasAll r.blobId r.chunkCount

/-- What a pass takes. -/
def attachmentsAwaitingBytes : List BlobRef :=
  (σ.missing policy createdAtMs).take maxFetchesPerDrain

variable (relay : Bytes → BlobAnswer) (now : BlobRef → ℕ)

/-- Ask the relay for one blob after another: the vault, and what was stored. -/
def fetchBlobs : List BlobRef → BlobVault → BlobVault × List BlobRef
  | [], σ => (σ, [])
  | r :: wanted, σ =>
    match relay r.relayId with
    | .absent | .failed => fetchBlobs wanted σ
    | .unsupported => (σ, [])
    | .body body =>
      let stored := σ.storeFetched c r body (now r)
      let rest := fetchBlobs wanted stored.2
      (rest.1, if stored.1 then r :: rest.2 else rest.2)

/-- One pass. -/
def fetchMissingBlobs : BlobVault × List BlobRef :=
  fetchBlobs c relay now (σ.attachmentsAwaitingBytes policy createdAtMs) σ

/-- One pass after another. -/
def passes (clock : ℕ → BlobRef → ℕ) : ℕ → BlobVault
  | 0 => σ
  | n + 1 => ((passes clock n).fetchMissingBlobs c policy createdAtMs relay (clock n)).1

/-- A pass stores nothing. -/
def Idle (clock : ℕ → BlobRef → ℕ) (n : ℕ) : Prop :=
  ((σ.passes c policy createdAtMs relay clock n).fetchMissingBlobs c policy createdAtMs relay
    (clock n)).2 = []

end BlobVault

def relayOf (content : Bytes → Option Bytes) (relayId : Bytes) : BlobAnswer :=
  match content relayId with
  | some body => .body body
  | none => .absent

/-- The relay has the blob: a body, and the blob's. -/
def serves (c : BlobCrypto) (content : Bytes → Option Bytes) (r : BlobRef) : Bool :=
  (content r.relayId).any fun body =>
    (openBody c r.blobKey r.blobId r.chunkCount r.contentHash body).isSome

/-- Each blob has an id of its own, the rows of thumbnails say so, and what the index has is on
disk. -/
structure BlobVault.Tidy (σ : BlobVault) : Prop where
  ids : (σ.refs.map (·.blobId)).Nodup
  thumbnails : ∀ r ∈ σ.refs, r.isThumbnail = true →
    ∀ row, σ.cache.find r.blobId = some row → row.isThumbnail = true
  here : ∀ r ∈ σ.refs, σ.IsLive r.blobId → σ.hasAll r.blobId r.chunkCount = true

section

variable {c : BlobCrypto} {info : BlobInfo} {σ : BlobVault} {nowMs : ℕ} {b : BlobId}

theorem BlobRun.tidy (h : BlobRun c info true σ) (ids : (σ.refs.map (·.blobId)).Nodup) :
    σ.Tidy := by
  obtain ⟨hfitting, hindexed⟩ := h.inv
  refine ⟨ids, fun r hr hthumbnail row hrow => ?_, fun r hr hlive => ?_⟩
  · rw [← hthumbnail, ← (hfitting.refs hr).isThumbnail]
    exact (hfitting.rows _ _ hrow)
  · have hcomplete := ((hindexed rfl).live_iff r.blobId List.not_mem_nil).mp hlive
    rw [← (hfitting.refs hr).chunkCount]
    exact hcomplete.2

namespace BlobVault

/-! ### What a store does to the other blobs -/

theorem cache_putWrites {r : BlobRef} {idx : ℕ} {sealed : List Bytes} :
    (σ.writes (putWrites r idx sealed)).cache = σ.cache := by
  refine writes_keep (f := cache) fun w hw τ => ?_
  obtain ⟨i, bytes, rfl⟩ := mem_putWrites hw
  rfl

section

variable {r : BlobRef} {sealed : List Bytes}

theorem fetchWrites_of_ne (hne : b ≠ r.blobId) :
    ((σ.writes (σ.fetchWrites r sealed nowMs)).chunks b = σ.chunks b ∧
      (σ.writes (σ.fetchWrites r sealed nowMs)).cache.find b = σ.cache.find b) ∨
    ∃ row, σ.cache.find b = some row ∧ row.evictedAtMs = none ∧ row.isThumbnail = false ∧
      (σ.writes (σ.fetchWrites r sealed nowMs)).cache.find b =
        some { row with evictedAtMs := some nowMs } := by
  set σ₁ := (σ.writes (putWrites r 0 sealed)).write (.upsert r nowMs) with hσ₁
  set plan := σ₁.evictPlan (σ.writes (putWrites r 0 sealed)).limit (some r.blobId) with hplan
  have hwrites : σ.writes (σ.fetchWrites r sealed nowMs) =
      σ₁.writes (passWrites (some r.blobId) nowMs plan) := by
    rw [fetchWrites, writes_append, noteWrites, writes_cons]
    rfl
  have hrow : σ₁.cache.find b = σ.cache.find b := by
    show ((σ.writes (putWrites r 0 sealed)).cache.upsert r.blobId _).find b = _
    rw [Table.find_upsert_of_ne _ _ hne, cache_putWrites]
  rw [hwrites, cache_passWrites, Table.find_mapValues, hrow]
  by_cases hmem : b ∈ plan.map (·.1)
  · obtain ⟨⟨b', row⟩, hmem', rfl⟩ := List.mem_map.mp hmem
    obtain ⟨hlive, hprotected, -⟩ := mem_evictPlan hmem'
    obtain ⟨hfind, hevicted⟩ := mem_live.mp hlive
    rw [isProtected, Bool.or_eq_false_iff, Bool.or_eq_false_iff] at hprotected
    refine .inr ⟨row, hrow ▸ hfind, hevicted, hprotected.1.1, ?_⟩
    rw [← hrow, hfind, Option.map_some, marked, if_pos hmem]
  · refine .inl ⟨?_, ?_⟩
    · have hchunks : (σ₁.writes (passWrites (some r.blobId) nowMs plan)).chunks b =
          σ₁.chunks b := by
        refine writes_keep (f := fun τ => τ.chunks b) fun w hw τ => ?_
        obtain ⟨taken, htaken, rfl | rfl⟩ := mem_evictWrites.mp hw
        · refine Function.update_of_ne ?_ _ _
          rintro rfl
          exact hmem (List.mem_map_of_mem htaken)
        · rfl
      rw [hchunks]
      exact chunks_putWrites_of_ne hne
    · cases σ.cache.find b with
      | none => rfl
      | some row => rw [Option.map_some, marked, if_neg hmem]

theorem fetchWrites_self (h : sealed.length = r.chunkCount) :
    (σ.writes (σ.fetchWrites r sealed nowMs)).hasAll r.blobId r.chunkCount = true ∧
      ∀ row, (σ.writes (σ.fetchWrites r sealed nowMs)).cache.find r.blobId = some row →
        row.isThumbnail = r.isThumbnail := by
  refine ⟨hasAll_of_sealedChunks (sealedChunks_fetchWrites h), fun row hrow => ?_⟩
  rw [fetchWrites, writes_append, noteWrites, writes_cons, evictWrites, cache_passWrites,
    Table.find_mapValues] at hrow
  obtain ⟨old, hold, rfl⟩ := Option.map_eq_some_iff.mp hrow
  change ((σ.writes (putWrites r 0 sealed)).cache.upsert r.blobId _).find r.blobId = some old
    at hold
  rw [Table.find_upsert, if_pos rfl] at hold
  obtain rfl := Option.some.inj hold
  unfold marked
  split <;> rfl

theorem refs_fetchWrites :
    (σ.writes (σ.fetchWrites r sealed nowMs)).refs = σ.refs := by
  unfold refs
  rw [attachments_fetchWrites]

end

theorem Tidy.eq_of_blobId (h : σ.Tidy) {r s : BlobRef} (hr : r ∈ σ.refs) (hs : s ∈ σ.refs)
    (heq : r.blobId = s.blobId) : r = s :=
  List.inj_on_of_nodup_map h.ids hr hs heq

theorem Tidy.of_fetchWrites (h : σ.Tidy) {r : BlobRef} (hr : r ∈ σ.refs) {sealed : List Bytes}
    (hlength : sealed.length = r.chunkCount) :
    (σ.writes (σ.fetchWrites r sealed nowMs)).Tidy := by
  obtain ⟨hall, hrow⟩ := @fetchWrites_self σ nowMs r sealed hlength
  refine ⟨by rw [refs_fetchWrites]; exact h.ids, fun s hs hthumbnail row hs' => ?_,
    fun s hs hlive => ?_⟩
  · rw [refs_fetchWrites] at hs
    by_cases heq : s.blobId = r.blobId
    · obtain rfl := h.eq_of_blobId hs hr heq
      rw [hrow row hs', hthumbnail]
    · rcases @fetchWrites_of_ne σ nowMs _ r sealed heq with ⟨-, hsame⟩ | ⟨old, hold, -, hnot, -⟩
      · exact h.thumbnails s hs hthumbnail row (hsame ▸ hs')
      · rw [h.thumbnails s hs hthumbnail old hold] at hnot
        cases hnot
  · rw [refs_fetchWrites] at hs
    by_cases heq : s.blobId = r.blobId
    · obtain rfl := h.eq_of_blobId hs hr heq
      exact hall
    · rcases @fetchWrites_of_ne σ nowMs _ r sealed heq with
        ⟨hchunks, hsame⟩ | ⟨old, -, -, -, hnew⟩
      · have hhere := h.here s hs (IsLive.congr hsame |>.mp hlive)
        unfold hasAll at hhere ⊢
        rwa [hchunks]
      · obtain ⟨row, hfind, hnone⟩ := hlive
        rw [hnew] at hfind
        rw [← Option.some.inj hfind] at hnone
        cases hnone

/-! ### What is missing -/

variable {policy : AutoFetchPolicy} {createdAtMs : AttachmentId → ℤ}

/-- What may be fetched unasked, evicted or not. -/
def autoFetchable (policy : AutoFetchPolicy) (createdAtMs : AttachmentId → ℤ) (σ : BlobVault) :
    List BlobRef :=
  (if policy.thumbnails then (σ.newestFirst createdAtMs).filterMap thumbnail else []) ++
    if policy.originals then
      ((σ.newestFirst createdAtMs).filter fun a =>
        decide (a.sizeBytes ≤ autoFetchMaxBytes) && a.isFetchable).map .original
    else []

/-- A blob that may be fetched is not evicted, and is not on disk. -/
def lacks (σ : BlobVault) (r : BlobRef) : Bool :=
  (r.isThumbnail || !σ.isEvicted r.blobId) && !σ.hasAll r.blobId r.chunkCount

theorem isThumbnail_of_thumbnail {a : Attachment} {r : BlobRef}
    (h : thumbnail a = some r) : r.isThumbnail = true := by
  obtain ⟨t, -, rfl⟩ := Option.map_eq_some_iff.mp h
  rfl

theorem missing_eq (hscan : (σ.newestFirst createdAtMs).length ≤ maxFetchScan) :
    σ.missing policy createdAtMs = (σ.autoFetchable policy createdAtMs).filter σ.lacks := by
  have htake : ∀ p : Attachment → Bool, ((σ.newestFirst createdAtMs).filter p).take maxFetchScan =
      (σ.newestFirst createdAtMs).filter p := fun p =>
    List.take_of_length_le ((List.length_filter_le _ _).trans hscan)
  unfold missing candidates autoFetchable
  rw [List.filter_append, List.filter_append]
  congr 1
  · cases policy.thumbnails with
    | false => rfl
    | true =>
      rw [if_pos rfl, if_pos rfl, thumbnailCandidates, htake, List.filterMap_filter]
      have hsome : (fun a : Attachment =>
          if a.thumbnail.isSome then thumbnail a else none) = thumbnail := by
        funext a
        cases hnone : a.thumbnail with
        | some t => rfl
        | none => rw [thumbnail, Attachment.usableThumbnail, hnone]; rfl
      rw [hsome]
      refine List.filter_congr fun r hr => ?_
      obtain ⟨a, -, ha⟩ := List.mem_filterMap.mp hr
      rw [lacks, isThumbnail_of_thumbnail ha, Bool.true_or, Bool.true_and]
  · cases policy.originals with
    | false => rfl
    | true =>
      rw [if_pos rfl, if_pos rfl, originalCandidates, htake, List.filter_filter, List.filter_map,
        List.filter_map, List.filter_filter, List.filter_filter]
      refine congrArg _ (List.filter_congr fun a _ => ?_)
      show (_ && (a.isFetchable && (decide (a.sizeBytes ≤ autoFetchMaxBytes) &&
        !σ.isEvicted a.blobId))) = _
      rw [Function.comp_apply, Function.comp_apply, lacks]
      show _ = ((false || !σ.isEvicted a.blobId) && _ && _)
      rw [Bool.false_or]
      ac_rfl

theorem thumbnails_append_originals_perm (l : List Attachment) :
    (l.filterMap thumbnail ++ l.map original).Perm
      (l.flatMap fun a => .original a :: (thumbnail a).toList) := by
  induction l with
  | nil => exact .refl _
  | cons a l ih =>
    rw [List.map_cons, List.flatMap_cons, List.cons_append]
    refine List.perm_middle.trans (.cons _ ?_)
    cases ha : thumbnail a with
    | none =>
      rw [List.filterMap_cons_none ha]
      exact ih
    | some r =>
      rw [List.filterMap_cons_some ha]
      exact .cons _ ih

theorem autoFetchable_subperm (policy : AutoFetchPolicy) (createdAtMs : AttachmentId → ℤ)
    (σ : BlobVault) : (σ.autoFetchable policy createdAtMs).Subperm σ.refs := by
  have hsub : (σ.autoFetchable policy createdAtMs).Sublist
      ((σ.newestFirst createdAtMs).filterMap thumbnail ++
        (σ.newestFirst createdAtMs).map .original) := by
    refine List.Sublist.append ?_ ?_
    · split
      · exact .refl _
      · exact List.nil_sublist _
    · split
      · exact List.filter_sublist.map _
      · exact List.nil_sublist _
  have hrows : (σ.newestFirst createdAtMs).Perm
      ((σ.attachments.rows.filter fun r => !r.2.deleted).map (·.2)) :=
    (List.perm_insertionSort _ _).map _
  refine hsub.subperm.trans (((thumbnails_append_originals_perm _).trans
    (hrows.flatMap_right _)).subperm.trans (List.Sublist.subperm ?_))
  rw [List.flatMap_map]
  exact List.Sublist.flatMap List.filter_sublist _

theorem Tidy.nodup_autoFetchable (h : σ.Tidy) :
    (σ.autoFetchable policy createdAtMs).Nodup := by
  obtain ⟨l, hperm, hsub⟩ := autoFetchable_subperm policy createdAtMs σ
  exact hperm.nodup_iff.mp ((h.ids.of_map _).sublist hsub)

theorem mem_refs_of_autoFetchable {r : BlobRef} (hr : r ∈ σ.autoFetchable policy createdAtMs) :
    r ∈ σ.refs :=
  (autoFetchable_subperm policy createdAtMs σ).subset hr

theorem autoFetchable_congr {τ : BlobVault} (h : τ.attachments = σ.attachments) :
    τ.autoFetchable policy createdAtMs = σ.autoFetchable policy createdAtMs := by
  unfold autoFetchable newestFirst
  rw [h]

/-! ### A pass -/

theorem Tidy.lacks_fetchWrites (h : σ.Tidy) {r x : BlobRef} (hr : r ∈ σ.refs) (hx : x ∈ σ.refs)
    {sealed : List Bytes} (hlength : sealed.length = r.chunkCount) :
    (σ.writes (σ.fetchWrites r sealed nowMs)).lacks x = (σ.lacks x && decide (x ≠ r)) := by
  by_cases heq : x = r
  · rw [heq, lacks, (fetchWrites_self hlength).1, decide_eq_false (not_not.mpr rfl), Bool.not_true,
      Bool.and_false, Bool.and_false]
  · rw [decide_eq_true heq, Bool.and_true]
    rcases @fetchWrites_of_ne σ nowMs x.blobId r sealed
      (fun hid => heq (h.eq_of_blobId hx hr hid)) with
      ⟨hchunks, hsame⟩ | ⟨row, hold, hnone, hnot, hnew⟩
    · unfold lacks isEvicted hasAll
      rw [hchunks, hsame]
    · -- it was on disk, and is an original that is now evicted
      have hthumbnail : x.isThumbnail = false := by
        by_contra hne
        rw [h.thumbnails x hx (eq_true_of_ne_false hne) row hold] at hnot
        cases hnot
      have hevicted : (σ.writes (σ.fetchWrites r sealed nowMs)).isEvicted x.blobId = true := by
        rw [isEvicted, hnew]
        rfl
      rw [lacks, lacks, hthumbnail, hevicted, h.here x hx ⟨row, hold, hnone⟩, Bool.not_true,
        Bool.and_false]
      rfl

variable {content : Bytes → Option Bytes} {now : BlobRef → ℕ}

theorem fetchBlobs_cons_of_not_serves {r : BlobRef} {wanted : List BlobRef}
    (h : serves c content r = false) :
    fetchBlobs c (relayOf content) now (r :: wanted) σ =
      fetchBlobs c (relayOf content) now wanted σ := by
  rw [fetchBlobs, relayOf]
  unfold serves at h
  cases hbody : content r.relayId with
  | none => rfl
  | some body =>
    rw [hbody, Option.any_some] at h
    dsimp only
    rw [storeFetched_of_none (Option.not_isSome_iff_eq_none.mp (Bool.not_eq_true _ ▸ h))]
    rfl

theorem fetchBlobs_cons_of_serves {r : BlobRef} {wanted : List BlobRef}
    (h : serves c content r = true) : ∃ sealed : List Bytes, sealed.length = r.chunkCount ∧
      fetchBlobs c (relayOf content) now (r :: wanted) σ =
        ((fetchBlobs c (relayOf content) now wanted
            (σ.writes (σ.fetchWrites r sealed (now r)))).1,
          r :: (fetchBlobs c (relayOf content) now wanted
            (σ.writes (σ.fetchWrites r sealed (now r)))).2) := by
  obtain ⟨body, hbody, hopen⟩ := (Option.any_eq_true _ _).mp h
  obtain ⟨sealed, hopen⟩ := Option.isSome_iff_exists.mp hopen
  refine ⟨sealed, length_of_openBody hopen, ?_⟩
  rw [fetchBlobs, relayOf, hbody]
  dsimp only
  rw [storeFetched_of_some hopen]
  rfl

theorem Tidy.of_fetchBlobs (h : σ.Tidy) {wanted : List BlobRef} (hwanted : wanted ⊆ σ.refs) :
    (fetchBlobs c (relayOf content) now wanted σ).1.Tidy ∧
      (fetchBlobs c (relayOf content) now wanted σ).1.attachments = σ.attachments ∧
      (fetchBlobs c (relayOf content) now wanted σ).2 = wanted.filter (serves c content) ∧
      ∀ x ∈ σ.refs, (fetchBlobs c (relayOf content) now wanted σ).1.lacks x =
        (σ.lacks x && !(decide (x ∈ wanted) && serves c content x)) := by
  induction wanted generalizing σ with
  | nil => exact ⟨h, rfl, rfl, fun x _ => (Bool.and_true _).symm⟩
  | cons r wanted ih =>
    obtain ⟨hr, hwanted⟩ := List.cons_subset.mp hwanted
    cases hserves : serves c content r with
    | false =>
      rw [fetchBlobs_cons_of_not_serves hserves, List.filter_cons_of_neg (by rw [hserves]; nofun)]
      obtain ⟨htidy, hsame, hstored, hlacks⟩ := ih h hwanted
      refine ⟨htidy, hsame, hstored, fun x hx => ?_⟩
      rw [hlacks x hx]
      by_cases heq : x = r
      · rw [heq, hserves, Bool.and_false, Bool.and_false]
      · simp only [List.mem_cons, heq, false_or]
    | true =>
      obtain ⟨sealed, hlength, hcons⟩ := @fetchBlobs_cons_of_serves c σ content now r wanted hserves
      obtain ⟨htidy, hsame, hstored, hlacks⟩ := ih (h.of_fetchWrites hr hlength)
        (refs_fetchWrites (σ := σ) ▸ hwanted)
      rw [hcons, List.filter_cons_of_pos hserves]
      refine ⟨htidy, hsame.trans attachments_fetchWrites, congrArg (r :: ·) hstored,
        fun x hx => ?_⟩
      rw [hlacks x (refs_fetchWrites (σ := σ) ▸ hx), h.lacks_fetchWrites hr hx hlength]
      by_cases heq : x = r
      · rw [heq, hserves, decide_eq_false (not_not.mpr rfl), decide_eq_true List.mem_cons_self]
        simp
      · simp only [List.mem_cons, heq, false_or, ne_eq, not_false_iff, decide_true, Bool.and_true]

/-- **A pass is a round off the head of what is missing**, and stores what the relay serves. -/
theorem Tidy.missing_fetchMissingBlobs (h : σ.Tidy)
    (hscan : (σ.newestFirst createdAtMs).length ≤ maxFetchScan) :
    (σ.fetchMissingBlobs c policy createdAtMs (relayOf content) now).1.Tidy ∧
      (σ.fetchMissingBlobs c policy createdAtMs (relayOf content) now).1.attachments =
        σ.attachments ∧
      (σ.fetchMissingBlobs c policy createdAtMs (relayOf content) now).2 =
        (σ.attachmentsAwaitingBytes policy createdAtMs).filter (serves c content) ∧
      (σ.fetchMissingBlobs c policy createdAtMs (relayOf content) now).1.missing policy
          createdAtMs =
        Batch.round maxFetchesPerDrain (serves c content) (σ.missing policy createdAtMs) := by
  have hmissing := @missing_eq σ policy createdAtMs hscan
  have hnodup : (σ.missing policy createdAtMs).Nodup :=
    hmissing ▸ h.nodup_autoFetchable.filter _
  have hwanted : σ.attachmentsAwaitingBytes policy createdAtMs ⊆ σ.refs := fun x hx =>
    mem_refs_of_autoFetchable (List.mem_of_mem_filter (hmissing ▸ List.mem_of_mem_take hx))
  obtain ⟨htidy, hsame, hstored, hlacks⟩ :=
    @Tidy.of_fetchBlobs c σ content now h _ hwanted
  refine ⟨htidy, hsame, hstored, ?_⟩
  have hscan' : ((σ.fetchMissingBlobs c policy createdAtMs (relayOf content) now).1.newestFirst
      createdAtMs).length ≤ maxFetchScan := by
    rw [newestFirst, fetchMissingBlobs, hsame]
    exact hscan
  rw [missing_eq hscan', fetchMissingBlobs, autoFetchable_congr hsame]
  -- what was missing and is not stored
  have hkept : (σ.autoFetchable policy createdAtMs).filter
      (fetchBlobs c (relayOf content) now
        (σ.attachmentsAwaitingBytes policy createdAtMs) σ).1.lacks =
      (σ.missing policy createdAtMs).filter fun x =>
        !(decide (x ∈ σ.attachmentsAwaitingBytes policy createdAtMs) && serves c content x) := by
    rw [hmissing, List.filter_filter]
    refine List.filter_congr fun x hx => ?_
    rw [hlacks x (mem_refs_of_autoFetchable hx), Bool.and_comm]
  rw [hkept, Batch.round]
  conv_lhs => rw [← List.take_append_drop maxFetchesPerDrain (σ.missing policy createdAtMs)]
  rw [List.filter_append]
  refine congrArg₂ _ (List.filter_congr fun x hx => ?_) (List.filter_eq_self.mpr fun x hx => ?_)
  · rw [attachmentsAwaitingBytes, decide_eq_true hx, Bool.true_and]
  · have hnot : x ∉ σ.attachmentsAwaitingBytes policy createdAtMs := fun hmem =>
      List.disjoint_take_drop hnodup le_rfl hmem hx
    rw [decide_eq_false hnot, Bool.false_and, Bool.not_false]

/-! ### One pass after another -/

variable {clock : ℕ → BlobRef → ℕ}

section

variable (h : σ.Tidy) (hscan : (σ.newestFirst createdAtMs).length ≤ maxFetchScan) (n : ℕ)
include h hscan n

theorem Tidy.of_passes :
    (σ.passes c policy createdAtMs (relayOf content) clock n).Tidy ∧
      (σ.passes c policy createdAtMs (relayOf content) clock n).attachments = σ.attachments ∧
      (σ.passes c policy createdAtMs (relayOf content) clock n).missing policy createdAtMs =
        (Batch.round maxFetchesPerDrain (serves c content))^[n] (σ.missing policy createdAtMs) := by
  induction n with
  | zero => exact ⟨h, rfl, rfl⟩
  | succ n ih =>
    obtain ⟨htidy, hsame, hmissing⟩ := ih
    have hscan' : ((σ.passes c policy createdAtMs (relayOf content) clock n).newestFirst
        createdAtMs).length ≤ maxFetchScan := by
      rw [newestFirst, hsame]
      exact hscan
    obtain ⟨htidy', hsame', -, hround⟩ :=
      @Tidy.missing_fetchMissingBlobs c _ policy createdAtMs content (clock n) htidy hscan'
    refine ⟨htidy', hsame'.trans hsame, hround.trans ?_⟩
    rw [hmissing, Function.iterate_succ_apply']

theorem Tidy.idle_iff : σ.Idle c policy createdAtMs (relayOf content) clock n ↔
      Batch.Stuck maxFetchesPerDrain (serves c content)
        ((Batch.round maxFetchesPerDrain (serves c content))^[n]
          (σ.missing policy createdAtMs)) := by
  obtain ⟨htidy, hsame, hmissing⟩ := @Tidy.of_passes c σ policy createdAtMs content clock h hscan n
  have hscan' : ((σ.passes c policy createdAtMs (relayOf content) clock n).newestFirst
      createdAtMs).length ≤ maxFetchScan := by
    rw [newestFirst, hsame]
    exact hscan
  unfold Idle
  rw [(@Tidy.missing_fetchMissingBlobs c _ policy createdAtMs content (clock n) htidy hscan').2.2.1,
    ← hmissing, List.filter_eq_nil_iff, attachmentsAwaitingBytes]
  exact forall₂_congr fun x _ => Bool.not_eq_true _ ▸ Iff.rfl

end

/-- **Passes come to an end; and then every missing blob the relay serves is fetched, if and only if
fewer than four that it does not serve stood before it.** -/
theorem passes_reach_iff (c : BlobCrypto) (content : Bytes → Option Bytes)
    (policy : AutoFetchPolicy) (createdAtMs : AttachmentId → ℤ) (clock : ℕ → BlobRef → ℕ)
    (σ : BlobVault) (htidy : σ.Tidy)
    (hscan : (σ.newestFirst createdAtMs).length ≤ maxFetchScan) :
    (∃ n, σ.Idle c policy createdAtMs (relayOf content) clock n) ∧
      ((∀ n, σ.Idle c policy createdAtMs (relayOf content) clock n →
          ∀ r ∈ (σ.passes c policy createdAtMs (relayOf content) clock n).missing policy
            createdAtMs, serves c content r = false) ↔
        ∀ ahead r behind, σ.missing policy createdAtMs = ahead ++ r :: behind →
          serves c content r = true →
            ahead.countP (fun x => !serves c content x) < maxFetchesPerDrain) := by
  have hidle := fun n => @Tidy.idle_iff c σ policy createdAtMs content clock htidy hscan n
  have hpasses := fun n => (@Tidy.of_passes c σ policy createdAtMs content clock htidy hscan n).2.2
  obtain ⟨n, hn⟩ := Batch.exists_stuck (k := maxFetchesPerDrain) (p := serves c content)
    (σ.missing policy createdAtMs)
  have hbehind : (∀ r ∈ Batch.behind (serves c content) maxFetchesPerDrain
      (σ.missing policy createdAtMs), serves c content r = false) ↔
      ∀ ahead r behind, σ.missing policy createdAtMs = ahead ++ r :: behind →
        serves c content r = true →
          ahead.countP (fun x => !serves c content x) < maxFetchesPerDrain := by
    constructor
    · intro h ahead r behind hsplit hserves
      by_contra hle
      rw [h r (Batch.mem_behind.mpr ⟨ahead, behind, hsplit, not_lt.mp hle⟩)] at hserves
      cases hserves
    · intro h r hr
      obtain ⟨ahead, behind, hsplit, hle⟩ := Batch.mem_behind.mp hr
      by_contra hserves
      exact absurd (h ahead r behind hsplit (eq_true_of_ne_false hserves)) (not_lt.mpr hle)
  refine ⟨⟨n, (hidle n).mpr hn⟩, Iff.trans ⟨fun h => ?_, fun h m hm => ?_⟩ hbehind⟩
  · have hserved := h n ((hidle n).mpr hn)
    rw [hpasses n] at hserved
    exact (Batch.stuck_iterate_round_iff hn).mp hserved
  · rw [hpasses m]
    exact (Batch.stuck_iterate_round_iff ((hidle m).mp hm)).mpr h

end BlobVault

end

/-! ### Five files, and a relay that has the oldest -/

/-- A file of one byte. -/
def Attachment.small (id : AttachmentId) : Attachment where
  id := id
  filename := "notes.txt".toList
  mimeType := "text/plain".toList
  sizeBytes := 1
  blobKey := [id]
  blobId := id
  chunkCount := 1
  contentHash := [id]
  ciphertextHash := List.replicate 32 id
  width := none
  height := none
  thumbnail := none
  deleted := false

/-- A device that was told of some files, and has none. -/
def BlobVault.told (ids : List AttachmentId) : BlobVault :=
  { BlobVault.empty with
    attachments := ids.foldl (fun t id => t.upsert id (.small id)) ∅ }

def firstOnly (relayId : Bytes) : Option Bytes :=
  if relayId = List.replicate 16 1 then some (1 :: List.replicate 16 0) else none

namespace BlobVault

theorem tidy_told_two : (told [1, 2]).Tidy where
  ids := by decide +kernel
  thumbnails _ _ _ _ hrow := nomatch hrow
  here _ _ hlive := by
    obtain ⟨row, hrow, -⟩ := hlive
    cases hrow

theorem passes_reach_two :
    (∃ n, (told [1, 2]).Idle sample (autoFetchPolicy .unmetered false) (fun id => id)
      (relayOf firstOnly) (fun _ _ => 7) n) ∧
      ∀ n, (told [1, 2]).Idle sample (autoFetchPolicy .unmetered false) (fun id => id)
          (relayOf firstOnly) (fun _ _ => 7) n →
        ∀ r ∈ ((told [1, 2]).passes sample (autoFetchPolicy .unmetered false)
            (fun id => id) (relayOf firstOnly) (fun _ _ => 7) n).missing
            (autoFetchPolicy .unmetered false) (fun id => id),
          serves sample firstOnly r = false := by
  obtain ⟨hends, hreach⟩ := passes_reach_iff sample firstOnly (autoFetchPolicy .unmetered false)
    (fun id => id) (fun _ _ => 7) (told [1, 2]) tidy_told_two (by decide +kernel)
  refine ⟨hends, hreach.mpr fun ahead r behind hsplit _ => ?_⟩
  have hlength : ((told [1, 2]).missing (autoFetchPolicy .unmetered false)
      (fun id => id)).length = 2 := by decide +kernel
  rw [hsplit, List.length_append, List.length_cons] at hlength
  have hcount := List.countP_le_length
    (p := fun x => !serves sample firstOnly x) (l := ahead)
  unfold maxFetchesPerDrain
  omega

theorem not_passes_reach_five : ¬ ∀ n,
    (told [1, 2, 3, 4, 5]).Idle sample (autoFetchPolicy .unmetered false) (fun id => id)
        (relayOf firstOnly) (fun _ _ => 7) n →
      ∀ r ∈ ((told [1, 2, 3, 4, 5]).passes sample (autoFetchPolicy .unmetered false)
          (fun id => id) (relayOf firstOnly) (fun _ _ => 7) n).missing
          (autoFetchPolicy .unmetered false) (fun id => id),
        serves sample firstOnly r = false := by
  intro h
  have hidle : (told [1, 2, 3, 4, 5]).Idle sample (autoFetchPolicy .unmetered false)
      (fun id => id) (relayOf firstOnly) (fun _ _ => 7) 0 := by
    unfold Idle
    decide +kernel
  have hmissing : .original (.small 1) ∈ (told [1, 2, 3, 4, 5]).missing
      (autoFetchPolicy .unmetered false) (fun id => id) := by decide +kernel
  have hserves : serves sample firstOnly (.original (.small 1)) = true := by
    decide +kernel
  rw [h 0 hidle _ hmissing] at hserves
  cases hserves

end BlobVault

end Sunrise
