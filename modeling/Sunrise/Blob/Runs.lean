import Sunrise.Blob.Index

/-!
# What a vault keeps of its blobs

Files are attached and fetched, uploads end, previews are opened and closed, and passes evict.
Each is a sequence of writes, and any of them may fail: what was written before it stays, and of
a deletion that failed a part.

The index is to say which blobs are on disk. It does after writes that all succeed, and after a
failure that leaves no blob between its last chunk and its row, nor one half deleted. But a file
whose command is refused has all its chunks, and nothing indexes or deletes them.

## Main results

* `BlobRun.keeps_and_indexes` — **what must be kept is kept, and the index is true** after steps
  that settle.
-/

namespace Sunrise

/-! ### What can happen -/

/-- What can happen to a vault's blobs. -/
inductive BlobAct where
  | attach (x : AttachInput)
  | uploadDone (b : BlobId)
  | fetch (r : BlobRef) (body : Bytes) (nowMs : ℕ)
  | discardPartial (r : BlobRef)
  | opened (b : BlobId) (nowMs : ℕ)
  | pin (id : AttachmentId)
  | unpin (id : AttachmentId)
  | setLimit (limit : ℕ)
  /-- At launch: the blobs from before the index are indexed, and a pass. -/
  | enforce (nowMs : ℕ)
  | clear (nowMs : ℕ)
  /-- An attachment's row is written: another device's, or a tombstone. -/
  | arrive (a : Attachment)

namespace BlobVault

variable (c : BlobCrypto) (σ : BlobVault)

/-- The writes that index the blobs from before the index, once. -/
def backfillWrites : List BlobWrite :=
  if σ.backfilled then []
  else (σ.refs.filter fun r => σ.hasAll r.blobId r.chunkCount).map .index ++ [.markBackfilled]

def attachAllWrites (x : AttachInput) : List BlobWrite :=
  match x.check with
  | .error _ => []
  | .ok () =>
    match x.command c with
    | .error _ => x.chunkWrites c
    | .ok () => σ.attachWrites c x

def actWrites : BlobAct → List BlobWrite
  | .attach x => σ.attachAllWrites c x
  | .fetch r body nowMs =>
    if r ∈ σ.refs then
      match openBody c r.blobKey r.blobId r.chunkCount r.contentHash body with
      | none => []
      | some sealed => σ.fetchWrites r sealed nowMs
    else []
  | .discardPartial r => if σ.hasAll r.blobId r.chunkCount then [] else [.discard r.blobId]
  | .enforce nowMs =>
    σ.backfillWrites ++ (σ.writes σ.backfillWrites).evictWrites σ.limit none nowMs
  | .clear nowMs => σ.evictWrites 0 none nowMs
  | .arrive a => [.record a]
  | _ => []

/-- Hold an attachment's original while a preview of it is open. -/
def pin (id : AttachmentId) : BlobVault :=
  match σ.attachmentRow id with
  | .error _ => σ
  | .ok a =>
    match σ.pins.find id with
    | none => { σ with pins := σ.pins.upsert id (a.blobId, 1) }
    | some (b, n) => { σ with pins := σ.pins.upsert id (b, n + 1) }

/-- Release what a preview held. -/
def unpin (id : AttachmentId) : BlobVault :=
  match σ.pins.find id with
  | none => σ
  | some (b, n) =>
    if n - 1 = 0 then { σ with pins := σ.pins.erase id }
    else { σ with pins := σ.pins.upsert id (b, n - 1) }

/-- What happens at once. -/
def act : BlobAct → BlobVault
  | .uploadDone b => { σ with uploads := σ.uploads.erase b }
  | .opened b nowMs => σ.touch b nowMs
  | .pin id => σ.pin id
  | .unpin id => σ.unpin id
  | .setLimit limit => { σ with limit := limit }
  | _ => σ

/-- A write that failed: of a deletion, some of the files may be gone. -/
def failed (stays : ℕ → Bool) : BlobWrite → BlobVault
  | .deleteAll b _ => σ.setChunks b fun i => if stays i then σ.chunks b i else none
  | .discard b => σ.setChunks b fun i => if stays i then σ.chunks b i else none
  | _ => σ

end BlobVault

/-- Something happens, and how many of its writes succeed. -/
structure BlobStep where
  act : BlobAct
  done : ℕ
  /-- What stays of the files that the failed write was to delete. -/
  stays : ℕ → Bool

namespace BlobStep

/-- What is written, up to a failure. -/
def written (c : BlobCrypto) (σ : BlobVault) (s : BlobStep) : BlobVault :=
  match (σ.actWrites c s.act)[s.done]? with
  | none => σ.writes ((σ.actWrites c s.act).take s.done)
  | some w => (σ.writes ((σ.actWrites c s.act).take s.done)).failed s.stays w

/-- Up to a failure. -/
def perform (c : BlobCrypto) (σ : BlobVault) (s : BlobStep) : BlobVault :=
  (s.written c σ).act s.act

/-- No blob is left between its last chunk and its row, nor half deleted by a pass. -/
def settles (c : BlobCrypto) (σ : BlobVault) (s : BlobStep) : Bool :=
  let ws := σ.actWrites c s.act
  (ws.take s.done).foldl unindexed [] = [] &&
    match ws[s.done]? with
    | some (.deleteAll _ _) => false
    | _ => true

end BlobStep

/-- The ids an act may be of: those its refs stand for, and new ones where they are drawn. -/
def BlobInfo.FitsAct (info : BlobInfo) (c : BlobCrypto) (σ : BlobVault) : BlobAct → Prop
  | .attach x => x.check = .ok () →
    info.FitsAttachment (x.attachment c) ∧
      (∀ t ∈ x.sealedThumbnail c,
        info.chunkCount t.1.blobId = 1 ∧ info.isThumbnail t.1.blobId = true) ∧
      σ.cache.find x.blobId = none ∧ σ.cache.find x.thumbnailId = none
  | .discardPartial r => info.FitsRef r
  | .arrive a => info.FitsAttachment a
  | _ => True

/-- What a vault that started with nothing can become, and whether every step settled. -/
inductive BlobRun (c : BlobCrypto) (info : BlobInfo) : Bool → BlobVault → Prop where
  | start (limit : ℕ) (backfilled : Bool) :
    BlobRun c info true ⟨fun _ _ => none, ∅, ∅, ∅, ∅, limit, backfilled⟩
  | step {settled : Bool} {σ : BlobVault} (s : BlobStep) :
    BlobRun c info settled σ → info.FitsAct c σ s.act →
      BlobRun c info (settled && s.settles c σ) (s.perform c σ)

/-! ### What the writes are of -/

variable {p : BlobVault × BlobWrite} {t : Option (Thumbnail × Bytes)} {r : Option BlobRef}

section

variable {c : BlobCrypto} {info : BlobInfo} {σ τ : BlobVault} {ws : List BlobWrite}
  {w : BlobWrite} {b : BlobId} {x : AttachInput} {a : BlobAct} {nowMs : ℕ}

theorem thumbnail_attachment {r : BlobRef} (h : r ∈ BlobRef.thumbnail (x.attachment c)) :
    ∃ t ∈ x.sealedThumbnail c, r.blobId = t.1.blobId ∧ r.chunkCount = 1 ∧
      r.isThumbnail = true := by
  obtain ⟨t, ht, rfl⟩ := Option.map_eq_some_iff.mp h
  have hmem := (Option.filter_eq_some_iff.mp ht).1
  change (if x.thumbnails then (x.sealedThumbnail c).map (·.1) else none) = some t at hmem
  split at hmem
  · obtain ⟨p, hp, rfl⟩ := Option.map_eq_some_iff.mp hmem
    exact ⟨p, hp, rfl, rfl, rfl⟩
  · cases hmem

theorem thumbnailId_of_sealed {t : Thumbnail × Bytes} (h : t ∈ x.sealedThumbnail c) :
    t.1.blobId = x.thumbnailId := by
  obtain ⟨image, -, rfl⟩ := Option.map_eq_some_iff.mp h
  rfl

theorem fits_chunkWrites (hcheck : x.check = .ok ()) (hfits : info.FitsAct c σ (.attach x))
    (h : w ∈ x.chunkWrites c) : w.Fits info := by
  obtain ⟨hatt, hthumbnail, -, -⟩ := hfits hcheck
  obtain ⟨hne, hlength⟩ := AttachInput.check_eq_ok hcheck
  rcases List.mem_append.mp h with h | h
  · refine fits_putWrites hatt.1 ?_ h
    rw [AttachInput.length_sealed hne hlength, Nat.zero_add]
    exact le_rfl
  · cases ht : x.sealedThumbnail c with
    | none =>
      rw [ht] at h
      cases h
    | some t =>
      rw [ht] at h
      obtain rfl := List.mem_singleton.mp h
      obtain ⟨hcount, hflag⟩ := hthumbnail t ht
      exact ⟨⟨Nat.one_pos, hcount, hflag⟩, Nat.one_pos⟩

theorem fits_recordWrites (hcheck : x.check = .ok ()) (hfits : info.FitsAct c σ (.attach x))
    (h : w ∈ x.recordWrites c) : w.Fits info := by
  rcases List.mem_append.mp h with h | h
  · exact fits_chunkWrites hcheck hfits h
  · simp only [List.mem_cons, List.not_mem_nil, or_false] at h
    rcases h with rfl | rfl
    · exact (hfits hcheck).1
    · trivial

theorem fits_thumbnailWrites
    (hr : ∀ r' ∈ r, info.FitsRef r') (h : w ∈ σ.thumbnailWrites nowMs r t) : w.Fits info := by
  cases t with
  | none => cases r <;> cases h
  | some t =>
    cases r with
    | none =>
      obtain rfl := List.mem_singleton.mp h
      trivial
    | some r =>
      rcases List.mem_cons.mp h with rfl | h
      · trivial
      · exact fits_noteWrites (hr r rfl) h

theorem mem_backfillWrites (h : w ∈ σ.backfillWrites) :
    (∃ r ∈ σ.refs, σ.hasAll r.blobId r.chunkCount = true ∧ w = .index r) ∨
      w = .markBackfilled := by
  unfold BlobVault.backfillWrites at h
  split at h
  · cases h
  · rcases List.mem_append.mp h with h | h
    · obtain ⟨r, hr, rfl⟩ := List.mem_map.mp h
      obtain ⟨hmem, hall⟩ := List.mem_filter.mp hr
      exact .inl ⟨r, hmem, hall, rfl⟩
    · exact .inr (List.mem_singleton.mp h)

theorem fits_actWrites (hσ : σ.Fitting info) (hfits : info.FitsAct c σ a)
    (h : w ∈ σ.actWrites c a) : w.Fits info := by
  cases a with
  | attach x =>
    change w ∈ σ.attachAllWrites c x at h
    unfold BlobVault.attachAllWrites at h
    split at h
    next => cases h
    next hcheck =>
      split at h
      next => exact fits_chunkWrites hcheck hfits h
      next =>
        rcases List.mem_append.mp h with h | h
        · rcases List.mem_append.mp h with h | h
          · exact fits_recordWrites hcheck hfits h
          · exact fits_noteWrites (hfits hcheck).1.1 h
        · exact fits_thumbnailWrites (hfits hcheck).1.2 h
  | fetch r body nowMs =>
    change w ∈ (if r ∈ σ.refs then _ else _) at h
    split at h
    next hr =>
      split at h
      next => cases h
      next sealed hopen =>
        rcases List.mem_append.mp h with h | h
        · refine fits_putWrites (hσ.refs hr) ?_ h
          rw [length_of_openBody hopen, Nat.zero_add]
        · exact fits_noteWrites (hσ.refs hr) h
    next => cases h
  | discardPartial r =>
    change w ∈ (if _ then _ else _) at h
    split at h
    · cases h
    · obtain rfl := List.mem_singleton.mp h
      trivial
  | enforce nowMs =>
    rcases List.mem_append.mp h with h | h
    · rcases mem_backfillWrites h with ⟨r, hr, -, rfl⟩ | rfl
      · exact hσ.refs hr
      · trivial
    · exact fits_evictWrites h
  | clear nowMs => exact fits_evictWrites h
  | arrive att =>
    obtain rfl := List.mem_singleton.mp h
    exact hfits
  | _ => cases h

/-! ### What is evicted -/

theorem deleteAll_not_mem_recordWrites {spared : Option BlobId} :
    .deleteAll b spared ∉ x.recordWrites c := by
  intro h
  rcases List.mem_append.mp h with h | h
  · rcases List.mem_append.mp h with h | h
    · obtain ⟨i, bytes, h⟩ := BlobVault.mem_putWrites h
      cases h
    · cases ht : x.sealedThumbnail c with
      | none =>
        rw [ht] at h
        cases h
      | some t =>
        rw [ht] at h
        cases List.mem_singleton.mp h
  · simp only [List.mem_cons, List.not_mem_nil, or_false] at h
    rcases h with h | h <;> cases h

def BlobAct.Stores : BlobAct → BlobId → Prop
  | .attach x, b => b = x.blobId ∨ b = x.thumbnailId
  | .fetch r _ _, b => b = r.blobId
  | _, _ => False

theorem wellEvicted_thumbnailWrites (hσ : σ.Fitting info) (hr : ∀ r' ∈ r, info.FitsRef r')
    {spared : Option BlobId}
    (h : (τ, .deleteAll b spared) ∈ BlobVault.trace σ (σ.thumbnailWrites nowMs r t)) :
    ∃ r' ∈ r, spared = some r'.blobId ∧ BlobVault.WellEvicted info τ b spared := by
  cases t with
  | none => cases r <;> cases h
  | some t =>
    cases r with
    | none => cases List.mem_singleton.mp (BlobVault.mem_of_mem_trace h)
    | some r =>
      rcases List.mem_cons.mp h with h | h
      · cases (Prod.mk.inj h).2
      · have hfits := hr r rfl
        have hqueued : (σ.write (.enqueue r t.1.ciphertextHash nowMs)).Fitting info :=
          hσ.write trivial
        exact ⟨r, rfl, BlobVault.wellEvicted_noteWrites hqueued.rows hfits.isThumbnail h⟩

/-- **Whatever is done evicts well**, and spares only what it stores. -/
theorem wellEvicted_actWrites (hσ : σ.Fitting info) (hfits : info.FitsAct c σ a)
    {spared : Option BlobId} (h : (τ, .deleteAll b spared) ∈ BlobVault.trace σ (σ.actWrites c a)) :
    BlobVault.WellEvicted info τ b spared ∧ ∀ s ∈ spared, a.Stores s := by
  cases a with
  | attach x =>
    change (τ, _) ∈ BlobVault.trace σ (σ.attachAllWrites c x) at h
    unfold BlobVault.attachAllWrites at h
    split at h
    next => cases h
    next hcheck =>
      split at h
      next =>
        exact absurd (List.mem_append_left _ (BlobVault.mem_of_mem_trace h))
          deleteAll_not_mem_recordWrites
      next =>
        obtain ⟨hatt, -, -, -⟩ := hfits hcheck
        have hfirst : (σ.writes (x.recordWrites c)).Fitting info :=
          hσ.writes fun w hw => fits_recordWrites hcheck hfits hw
        unfold BlobVault.attachWrites at h
        rw [BlobVault.trace_append, BlobVault.trace_append] at h
        rcases List.mem_append.mp h with h | h
        · rcases List.mem_append.mp h with h | h
          · exact absurd (BlobVault.mem_of_mem_trace h) deleteAll_not_mem_recordWrites
          · obtain ⟨rfl, hwell⟩ :=
              BlobVault.wellEvicted_noteWrites hfirst.rows hatt.1.isThumbnail h
            refine ⟨hwell, fun s hs => ?_⟩
            obtain rfl := Option.some.inj hs
            exact .inl rfl
        · rw [BlobVault.writes_append] at h
          obtain ⟨r, hr, rfl, hwell⟩ :=
            wellEvicted_thumbnailWrites (hfirst.note hatt.1) hatt.2 h
          refine ⟨hwell, fun s hs => ?_⟩
          obtain rfl := Option.some.inj hs
          obtain ⟨t, ht, heq, -⟩ := thumbnail_attachment hr
          exact .inr (heq.trans (thumbnailId_of_sealed ht))
  | fetch r body nowMs =>
    change (τ, _) ∈ BlobVault.trace σ (if r ∈ σ.refs then _ else _) at h
    split at h
    next hr =>
      split at h
      next => cases h
      next sealed hopen =>
        have hput : (σ.writes (BlobVault.putWrites r 0 sealed)).Fitting info :=
          hσ.writes fun w hw => fits_putWrites (hσ.refs hr)
            (by rw [length_of_openBody hopen, Nat.zero_add]) hw
        unfold BlobVault.fetchWrites at h
        rw [BlobVault.trace_append] at h
        rcases List.mem_append.mp h with h | h
        · obtain ⟨i, bytes, h⟩ := BlobVault.mem_putWrites (BlobVault.mem_of_mem_trace h)
          cases h
        · obtain ⟨rfl, hwell⟩ :=
            BlobVault.wellEvicted_noteWrites hput.rows (hσ.refs hr).isThumbnail h
          refine ⟨hwell, fun s hs => ?_⟩
          exact (Option.some.inj hs).symm
    next => cases h
  | discardPartial r =>
    change (τ, _) ∈ BlobVault.trace σ (if _ then _ else _) at h
    split at h
    · cases h
    · cases List.mem_singleton.mp (BlobVault.mem_of_mem_trace h)
  | enforce nowMs =>
    have hfits : ∀ w ∈ σ.backfillWrites, w.Fits info := fun w hw =>
      fits_actWrites (c := c) (a := .enforce nowMs) hσ trivial (List.mem_append_left _ hw)
    change (τ, _) ∈ BlobVault.trace σ (σ.backfillWrites ++ _) at h
    rw [BlobVault.trace_append] at h
    rcases List.mem_append.mp h with h | h
    · rcases mem_backfillWrites (BlobVault.mem_of_mem_trace h) with ⟨r, -, -, hw⟩ | hw <;> cases hw
    · obtain ⟨rfl, hwell⟩ := BlobVault.wellEvicted_evictWrites (hσ.writes hfits).rows h
      exact ⟨hwell, fun s hs => nomatch hs⟩
  | clear nowMs =>
    obtain ⟨rfl, hwell⟩ := BlobVault.wellEvicted_evictWrites hσ.rows h
    exact ⟨hwell, fun s hs => nomatch hs⟩
  | arrive att => cases List.mem_singleton.mp (BlobVault.mem_of_mem_trace h)
  | _ => cases h

/-! ### What a store leaves -/

/-- An act stores a blob: its file is attached, or a body is fetched that opens. -/
def BlobVault.Stored (c : BlobCrypto) (σ : BlobVault) : BlobAct → Prop
  | .attach x => x.check = .ok () ∧ x.command c = .ok ()
  | .fetch r body _ => r ∈ σ.refs ∧
    (openBody c r.blobKey r.blobId r.chunkCount r.contentHash body).isSome
  | _ => False

def BlobVault.Within (σ : BlobVault) (a : BlobAct) : Prop :=
  σ.used ≤ σ.limit ∨ ∀ s ∈ σ.live, σ.isProtected s.1 s.2 = true ∨ a.Stores s.1

theorem within_noteWrites {r : BlobRef} (h : a.Stores r.blobId) :
    (σ.writes (σ.noteWrites r nowMs)).Within a := by
  refine (BlobVault.used_noteWrites r).imp_right fun hall s hs => ?_
  refine (hall s hs).imp_right fun heq => ?_
  rw [heq]
  exact h

theorem within_thumbnailWrites
    (h : σ.Within a) (hr : ∀ r' ∈ r, a.Stores r'.blobId) :
    (σ.writes (σ.thumbnailWrites nowMs r t)).Within a := by
  cases t with
  | none => cases r <;> exact h
  | some t =>
    cases r with
    | none => exact h
    | some r => exact within_noteWrites (hr r rfl)

/-- **After a store the index is within its limit**, or only what is protected or was just
stored is left in it. -/
theorem within_actWrites (h : σ.Stored c a) : (σ.writes (σ.actWrites c a)).Within a := by
  cases a with
  | attach x =>
    obtain ⟨hcheck, hcommand⟩ := h
    show (σ.writes (σ.attachAllWrites c x)).Within _
    unfold BlobVault.attachAllWrites
    rw [hcheck, hcommand]
    show (σ.writes (σ.attachWrites c x)).Within _
    unfold BlobVault.attachWrites
    rw [BlobVault.writes_append, BlobVault.writes_append]
    have hnote := @within_noteWrites (σ.writes (x.recordWrites c)) (.attach x) x.nowMs
      (.original (x.attachment c)) (.inl rfl)
    refine within_thumbnailWrites hnote fun r hr => ?_
    obtain ⟨t, ht, heq, -⟩ := thumbnail_attachment hr
    exact .inr (heq.trans (thumbnailId_of_sealed ht))
  | fetch r body nowMs =>
    obtain ⟨hr, hopen⟩ := h
    obtain ⟨sealed, hopen⟩ := Option.isSome_iff_exists.mp hopen
    show (σ.writes (if r ∈ σ.refs then _ else _)).Within _
    rw [if_pos hr, hopen]
    show (σ.writes (σ.fetchWrites r sealed nowMs)).Within _
    unfold BlobVault.fetchWrites
    rw [BlobVault.writes_append]
    exact within_noteWrites rfl
  | _ => exact absurd h id

/-! ### What the writes find -/

theorem sound_chunkWrites
    (h : p ∈ BlobVault.trace σ (x.chunkWrites c)) : p.2.Sound p.1 := by
  unfold AttachInput.chunkWrites at h
  rw [BlobVault.trace_append] at h
  rcases List.mem_append.mp h with h | h
  · exact sound_putWrites h
  · cases ht : x.sealedThumbnail c with
    | none =>
      rw [ht] at h
      cases h
    | some t =>
      rw [ht] at h
      obtain rfl := List.mem_singleton.mp h
      trivial

theorem sound_recordWrites
    (h : p ∈ BlobVault.trace σ (x.recordWrites c)) : p.2.Sound p.1 := by
  unfold AttachInput.recordWrites at h
  rw [BlobVault.trace_append] at h
  rcases List.mem_append.mp h with h | h
  · exact sound_chunkWrites h
  · rcases List.mem_cons.mp h with rfl | h
    · trivial
    · obtain rfl := List.mem_singleton.mp h
      trivial

theorem sound_thumbnailWrites
    (hr : ∀ r' ∈ r, σ.hasAll r'.blobId r'.chunkCount = true)
    (ht : ∀ t' ∈ t, ¬ σ.IsLive t'.1.blobId)
    (h : p ∈ BlobVault.trace σ (σ.thumbnailWrites nowMs r t)) : p.2.Sound p.1 := by
  cases t with
  | none => cases r <;> cases h
  | some t =>
    cases r with
    | none =>
      obtain rfl := List.mem_singleton.mp h
      exact ht t rfl
    | some r =>
      rcases List.mem_cons.mp h with rfl | h
      · trivial
      · exact sound_noteWrites (σ := σ.write (.enqueue r t.1.ciphertextHash nowMs)) (hr r rfl) h

theorem cache_recordWrites : (σ.writes (x.recordWrites c)).cache = σ.cache := by
  refine BlobVault.writes_keep (f := BlobVault.cache) fun w hw τ => ?_
  rcases List.mem_append.mp hw with hw | hw
  · rcases List.mem_append.mp hw with hw | hw
    · obtain ⟨i, bytes, rfl⟩ := BlobVault.mem_putWrites hw
      rfl
    · cases ht : x.sealedThumbnail c with
      | none =>
        rw [ht] at hw
        cases hw
      | some t =>
        rw [ht] at hw
        obtain rfl := List.mem_singleton.mp hw
        rfl
  · simp only [List.mem_cons, List.not_mem_nil, or_false] at hw
    rcases hw with rfl | rfl <;> rfl

theorem chunks_recordWrites_thumbnail {t : Thumbnail × Bytes} (ht : t ∈ x.sealedThumbnail c) :
    (σ.writes (x.recordWrites c)).chunks t.1.blobId 0 = some t.2 := by
  unfold AttachInput.recordWrites AttachInput.chunkWrites
  rw [BlobVault.writes_append, BlobVault.writes_append, show x.sealedThumbnail c = some t from ht]
  exact (congrFun (Function.update_self t.1.blobId _ _) 0).trans (Function.update_self 0 _ _)

theorem sound_attachWrites (hcheck : x.check = .ok ()) (hvalidate : x.validate c = .ok ())
    (hfits : info.FitsAct c σ (.attach x))
    (h : p ∈ BlobVault.trace σ (σ.attachWrites c x)) : p.2.Sound p.1 := by
  obtain ⟨-, -, -, hnew⟩ := hfits hcheck
  unfold BlobVault.attachWrites at h
  rw [BlobVault.trace_append, BlobVault.trace_append, BlobVault.writes_append] at h
  rcases List.mem_append.mp h with h | h
  · rcases List.mem_append.mp h with h | h
    · exact sound_recordWrites h
    · refine sound_noteWrites ?_ h
      exact BlobVault.hasAll_of_sealedChunks
        (BlobVault.sealedChunks_recordWrites (σ := σ) hcheck hvalidate)
  · -- the thumbnail's chunk is still there, and nothing has indexed it
    have hkept : ∀ t ∈ x.sealedThumbnail c, _ := fun t ht =>
      @noteWrites_of_find_none (σ.writes (x.recordWrites c)) t.1.blobId x.nowMs
        (.original (x.attachment c))
        (by rw [cache_recordWrites, thumbnailId_of_sealed ht]; exact hnew)
        (AttachInput.thumbnail_ne hvalidate ht)
    refine sound_thumbnailWrites (fun r hr => ?_) (fun t ht => ?_) h
    · obtain ⟨t, ht, hid, hcount, -⟩ := thumbnail_attachment hr
      unfold BlobVault.hasAll
      rw [hid, hcount, (hkept t ht).1]
      refine List.all_eq_true.mpr fun i hi => ?_
      obtain rfl : i = 0 := by
        have := List.mem_range.mp hi
        omega
      rw [chunks_recordWrites_thumbnail ht]
      rfl
    · rintro ⟨row, hrow, -⟩
      rw [(hkept t ht).2] at hrow
      cases hrow

theorem sound_backfillWrites
    (h : p ∈ BlobVault.trace σ σ.backfillWrites) : p.2.Sound p.1 := by
  obtain ⟨τ, w⟩ := p
  obtain ⟨done, rest, heq, rfl⟩ := BlobVault.mem_trace.mp h
  have hfiles : (σ.writes done).chunks = σ.chunks := by
    refine BlobVault.writes_keep (f := BlobVault.chunks) fun v hv τ => ?_
    have hmem : v ∈ σ.backfillWrites := heq ▸ List.mem_append_left _ hv
    rcases mem_backfillWrites hmem with ⟨r, -, -, rfl⟩ | rfl <;> rfl
  rcases mem_backfillWrites (BlobVault.mem_of_mem_trace h) with ⟨r, -, hall, rfl⟩ | rfl
  · show (σ.writes done).hasAll r.blobId r.chunkCount = true
    unfold BlobVault.hasAll
    rw [hfiles]
    exact hall
  · trivial

theorem sound_actWrites (hindexed : σ.Indexed info []) (hfits : info.FitsAct c σ a)
    (h : p ∈ BlobVault.trace σ (σ.actWrites c a)) :
    p.2.Sound p.1 := by
  cases a with
  | attach x =>
    change p ∈ BlobVault.trace σ (σ.attachAllWrites c x) at h
    unfold BlobVault.attachAllWrites at h
    split at h
    next => cases h
    next hcheck =>
      split at h
      next => exact sound_chunkWrites h
      next hcommand =>
        exact sound_attachWrites hcheck (AttachInput.validate_of_command hcommand) hfits h
  | fetch r body nowMs =>
    change p ∈ BlobVault.trace σ (if r ∈ σ.refs then _ else _) at h
    split at h
    next hr =>
      split at h
      next => cases h
      next sealed hopen =>
        unfold BlobVault.fetchWrites at h
        rw [BlobVault.trace_append] at h
        rcases List.mem_append.mp h with h | h
        · exact sound_putWrites h
        · refine sound_noteWrites ?_ h
          refine @BlobVault.hasAll_of_sealedChunks _ _ _ sealed ?_
          rw [← length_of_openBody hopen]
          exact BlobVault.sealedChunks_putWrites r
    next => cases h
  | discardPartial r =>
    change p ∈ BlobVault.trace σ (if _ then _ else _) at h
    split at h
    next => cases h
    next hpartial =>
      obtain rfl := List.mem_singleton.mp h
      intro hlive
      have hcomplete := (hindexed.live_iff r.blobId List.not_mem_nil).mp hlive
      refine hpartial ?_
      rw [← hfits.chunkCount]
      exact hcomplete.2
  | enforce nowMs =>
    change p ∈ BlobVault.trace σ (σ.backfillWrites ++ _) at h
    rw [BlobVault.trace_append] at h
    rcases List.mem_append.mp h with h | h
    · exact sound_backfillWrites h
    · exact sound_passWrites h
  | clear nowMs => exact sound_passWrites h
  | arrive att =>
    obtain rfl := List.mem_singleton.mp h
    trivial
  | _ => cases h

/-! ### Steps -/

theorem act_cases : (∃ nowMs b, σ.act a = σ.touch b nowMs) ∨
    ∃ uploads pins limit,
      σ.act a = { σ with uploads := uploads, pins := pins, limit := limit } := by
  cases a with
  | opened b nowMs => exact .inl ⟨nowMs, b, rfl⟩
  | uploadDone b => exact .inr ⟨_, _, _, rfl⟩
  | pin id =>
    refine .inr ?_
    show ∃ uploads pins limit, σ.pin id = _
    unfold BlobVault.pin
    split
    · exact ⟨_, _, _, rfl⟩
    · split <;> exact ⟨_, _, _, rfl⟩
  | unpin id =>
    refine .inr ?_
    show ∃ uploads pins limit, σ.unpin id = _
    unfold BlobVault.unpin
    split
    · exact ⟨_, _, _, rfl⟩
    · split <;> exact ⟨_, _, _, rfl⟩
  | setLimit limit => exact .inr ⟨_, _, _, rfl⟩
  | _ => exact .inr ⟨σ.uploads, σ.pins, σ.limit, rfl⟩

theorem find_touch {b' : BlobId} : (σ.touch b' nowMs).cache.find b =
    (σ.cache.find b).map fun row => if b = b' then { row with lastAccessMs := nowMs } else row :=
  Table.find_mapValues _ _ b

theorem BlobVault.Indexed.act {pending : List BlobId} (h : σ.Indexed info pending) :
    (σ.act a).Indexed info pending := by
  rcases act_cases (σ := σ) (a := a) with ⟨nowMs, b', heq⟩ | ⟨uploads, pins, limit, heq⟩
  · rw [heq]
    refine h.congr (fun b _ => ?_) fun b _ => rfl
    unfold BlobVault.IsLive
    rw [find_touch]
    cases σ.cache.find b with
    | none => rfl
    | some row =>
      simp only [Option.map_some, Option.some.injEq, exists_eq_left']
      split <;> rfl
  · rw [heq]
    exact h.congr (fun b _ => Iff.rfl) fun b _ => rfl

theorem BlobVault.Fitting.act (h : σ.Fitting info) : (σ.act a).Fitting info := by
  rcases act_cases (σ := σ) (a := a) with ⟨nowMs, b', heq⟩ | ⟨uploads, pins, limit, heq⟩
  · rw [heq]
    refine ⟨fun b row hrow => ?_, h.attachments⟩
    rw [find_touch] at hrow
    obtain ⟨old, hold, rfl⟩ := Option.map_eq_some_iff.mp hrow
    rw [← h.rows b old hold]
    split <;> rfl
  · rw [heq]
    exact ⟨h.rows, h.attachments⟩

theorem BlobVault.Fitting.failed (h : σ.Fitting info) (stays : ℕ → Bool) :
    (σ.failed stays w).Fitting info := by
  cases w <;> exact ⟨h.rows, h.attachments⟩

/-- A write that failed, unless it was a pass's deletion, leaves the index true: of a blob that
was not all there, fewer chunks may be. -/
theorem BlobVault.Indexed.failed (h : σ.Indexed info []) (hsound : w.Sound σ)
    (hw : ∀ b spared, w ≠ .deleteAll b spared) (stays : ℕ → Bool) :
    (σ.failed stays w).Indexed info [] := by
  cases w with
  | deleteAll b spared => exact absurd rfl (hw b spared)
  | discard b' =>
    have hfiles : ∀ i, (σ.failed stays (.discard b')).chunks b' i =
        if stays i then σ.chunks b' i else none := by
      intro i
      show Function.update σ.chunks b' _ b' i = _
      rw [Function.update_self]
    have hnot : ¬ σ.Complete info b' := fun hcomplete =>
      hsound ((h.live_iff b' List.not_mem_nil).mpr hcomplete)
    have hfewer : ¬ (σ.failed stays (.discard b')).Complete info b' := by
      intro hcomplete
      obtain ⟨hpos, hall⟩ := complete_iff.mp hcomplete
      refine hnot (complete_iff.mpr ⟨hpos, fun i hi => ?_⟩)
      have hchunk := hall i hi
      rw [hfiles] at hchunk
      split at hchunk
      · exact hchunk
      · cases hchunk
    have hsettle := h.settle (b := b') (τ := σ.failed stays (.discard b')) (fun b _ => Iff.rfl)
      (fun b hne => Function.update_of_ne hne _ _) (iff_of_false hsound hfewer)
    refine hsettle fun hpos hlast => ?_
    rw [hfiles] at hlast
    split at hlast
    · exact absurd (h.whole b' List.not_mem_nil hpos hlast) hnot
    · cases hlast
  | _ => exact h

theorem fitting_perform {s : BlobStep} (hσ : σ.Fitting info) (hfits : info.FitsAct c σ s.act) :
    (s.perform c σ).Fitting info := by
  have htake : (σ.writes ((σ.actWrites c s.act).take s.done)).Fitting info :=
    hσ.writes fun w hw => fits_actWrites hσ hfits (List.mem_of_mem_take hw)
  refine BlobVault.Fitting.act ?_
  unfold BlobStep.written
  split
  · exact htake
  · exact htake.failed s.stays

/-- **A step that settles keeps the index true.** -/
theorem indexed_perform {s : BlobStep} (hσ : σ.Fitting info) (hindexed : σ.Indexed info [])
    (hfits : info.FitsAct c σ s.act) (hsettles : s.settles c σ = true) :
    (s.perform c σ).Indexed info [] := by
  unfold BlobStep.settles at hsettles
  rw [Bool.and_eq_true, decide_eq_true_eq] at hsettles
  obtain ⟨hnone, hfailed⟩ := hsettles
  have hsplit := List.take_append_drop s.done (σ.actWrites c s.act)
  have htake := @BlobVault.Indexed.writes _ _ ((σ.actWrites c s.act).take s.done) _ hindexed
    (fun w hw => fits_actWrites hσ hfits (List.mem_of_mem_take hw)) fun p hp => by
      refine sound_actWrites hindexed hfits ?_
      rw [← hsplit, BlobVault.trace_append]
      exact List.mem_append_left _ hp
  rw [hnone] at htake
  refine BlobVault.Indexed.act ?_
  unfold BlobStep.written
  cases hnext : (σ.actWrites c s.act)[s.done]? with
  | none => exact htake
  | some w =>
    rw [hnext] at hfailed
    obtain ⟨hlt, hget⟩ := List.getElem?_eq_some_iff.mp hnext
    refine htake.failed (w := w) (sound_actWrites (p := (_, w)) hindexed hfits ?_)
      (fun b spared heq => ?_) s.stays
    · refine BlobVault.mem_trace.mpr ⟨_, (σ.actWrites c s.act).drop (s.done + 1), ?_, rfl⟩
      rw [← hget, ← List.drop_eq_getElem_cons hlt, hsplit]
    · rw [heq] at hfailed
      cases hfailed

theorem BlobRun.inv {settled : Bool} (h : BlobRun c info settled σ) :
    σ.Fitting info ∧ (settled = true → σ.Indexed info []) := by
  induction h with
  | start limit backfilled =>
    refine ⟨⟨fun b row hrow => (nomatch hrow), fun id a ha => (nomatch ha)⟩, fun _ => ?_⟩
    refine ⟨fun b _ => iff_of_false ?_ (not_complete_of_none fun _ => rfl), fun b _ _ hlast => ?_⟩
    · rintro ⟨row, hrow, -⟩
      cases hrow
    · cases hlast
  | step s hrun hfits ih =>
    refine ⟨fitting_perform ih.1 hfits, fun hsettled => ?_⟩
    rw [Bool.and_eq_true] at hsettled
    exact indexed_perform ih.1 (ih.2 hsettled.1) hfits hsettled.2

/-- **What must be kept is kept, and the index is true.** Over every run, whatever is done: a
blob is evicted only when it waits for no upload, is no thumbnail and is held by no preview, and
after every other that might be evicted was opened as late; and a store leaves the index within
its limit, or only such blobs and the one just stored. Where every step settled, the rows that
are not marked evicted are those of the blobs that are on disk. -/
theorem BlobRun.keeps_and_indexes (c : BlobCrypto) (info : BlobInfo) (settled : Bool)
    (σ : BlobVault) (h : BlobRun c info settled σ) :
    (∀ a, info.FitsAct c σ a → ∀ τ b spared,
      (τ, .deleteAll b spared) ∈ BlobVault.trace σ (σ.actWrites c a) →
        BlobVault.WellEvicted info τ b spared ∧ ∀ s ∈ spared, a.Stores s) ∧
    (∀ a, σ.Stored c a → (σ.writes (σ.actWrites c a)).Within a) ∧
    (settled = true → ∀ b, σ.IsLive b ↔ σ.Complete info b) := by
  obtain ⟨hσ, hindexed⟩ := h.inv
  refine ⟨fun a hfits τ b spared hmem => ?_, fun a hstored => ?_, fun hsettled b => ?_⟩
  · exact wellEvicted_actWrites hσ hfits hmem
  · exact within_actWrites hstored
  · exact (hindexed hsettled).live_iff b List.not_mem_nil

end

/-! ### Two files -/

def BlobInfo.text : BlobInfo := ⟨fun b => if b = 9 then 1 else 0, fun _ => false⟩

/-- A text file is attached, under a name. -/
def BlobStep.text (filename : String) : BlobStep :=
  ⟨.attach { AttachInput.text [104, 105] with filename := filename.toList }, 100, fun _ => true⟩

theorem BlobInfo.fitsAct_text (filename : String) :
    BlobInfo.text.FitsAct BlobCrypto.sample BlobVault.empty (BlobStep.text filename).act := by
  intro _
  have hone : chunkCountFor 2 = 1 := by decide
  refine ⟨⟨⟨?_, ?_, rfl⟩, fun r hr => (nomatch hr)⟩, fun t ht => (nomatch ht), rfl, rfl⟩
  · show 0 < chunkCountFor 2
    rw [hone]
    exact Nat.one_pos
  · exact hone.symm

theorem BlobRun.keeps_and_indexes_named :
    ∃ σ, BlobRun BlobCrypto.sample BlobInfo.text true σ ∧ ∀ b, σ.IsLive b ↔
      σ.Complete BlobInfo.text b := by
  have hrun := BlobRun.step (BlobStep.text "notes.txt") (.start 1000000000 true)
    (BlobInfo.fitsAct_text "notes.txt")
  have hsettles : (BlobStep.text "notes.txt").settles BlobCrypto.sample BlobVault.empty = true := by
    decide +kernel
  exact ⟨_, hsettles ▸ hrun, (BlobRun.keeps_and_indexes _ _ _ _ hrun).2.2 hsettles⟩

/-- The command refuses a file without a name, and its chunks stay. -/
theorem BlobRun.not_indexes_nameless :
    ¬ ∀ (c : BlobCrypto) (info : BlobInfo) (settled : Bool) (σ : BlobVault),
      BlobRun c info settled σ → ∀ b, σ.IsLive b ↔ σ.Complete info b := by
  intro h
  have hrun := BlobRun.step (BlobStep.text "") (.start 1000000000 true) (BlobInfo.fitsAct_text "")
  have hcomplete : ((BlobStep.text "").perform BlobCrypto.sample BlobVault.empty).Complete
      BlobInfo.text 9 := ⟨by decide, by decide +kernel⟩
  obtain ⟨row, hrow, -⟩ := (h _ _ _ _ hrun 9).mpr hcomplete
  have hnone : ((BlobStep.text "").perform BlobCrypto.sample BlobVault.empty).cache.find 9 =
      none := by
    decide +kernel
  exact absurd (hnone.symm.trans hrow) (Option.some_ne_none _).symm

end Sunrise
