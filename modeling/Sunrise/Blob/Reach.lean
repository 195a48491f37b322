import Sunrise.Blob.Cache
import Sunrise.Blob.Relay

/-!
# From one device to the others

A file that is attached is sealed and its chunks are stored. The chunks are uploaded in order;
another device that holds the attachment's row fetches them as one body, stores what opens, and
reads the file.

The device that attaches limits the plaintext, and the relay what it is given, the chunks with
their tags. Both limits are the same number, so the longest files are attached and then refused.

## Main results

* `attachFileWith_reaches_iff` — **an attached file reaches every device exactly when its chunks
  are within the relay's limit with their tags**.
-/

namespace Sunrise

open BlobVault AttachInput

/-- The longest file whose chunks are within the relay's limit with their tags. -/
def longestReaching : ℕ := 99993888

/-- An attached file reaches the other devices: its chunks are there, the relay takes them
uploaded in order and gives them back as one body, and a replica with the attachment's row
stores that body, leaves everything as it is at another, and then reads the file. -/
def Reaches (c : BlobCrypto) (σ : BlobVault) (a : Attachment) (bytes : Bytes) : Prop :=
  ∃ sealed, σ.sealedChunks a.blobId a.chunkCount = some sealed ∧
    (∀ (relay : BlobRelay) (upload : ℕ), ∃ relay',
      relay.upload c upload sealed a.ciphertextHash = .ok relay' ∧
      relay'.fetch (blobKeyOf a.ciphertextHash) = .ok sealed.flatten) ∧
    ∀ τ : BlobVault, τ.attachmentRow a.id = .ok a → ∀ (body : Bytes) (nowMs : ℕ),
      ((τ.storeFetched c (.original a) body nowMs).1 = true ↔ body = sealed.flatten) ∧
      (body ≠ sealed.flatten → (τ.storeFetched c (.original a) body nowMs).2 = τ) ∧
      (body = sealed.flatten → ∀ laterMs, ∃ υ,
        (τ.storeFetched c (.original a) body nowMs).2.attachmentBytes c a.id laterMs =
          .ok (bytes, υ))

variable {c : BlobCrypto} {σ : BlobVault} {x : AttachInput}

/-! ### What is attached -/

theorem attachFileWith_eq_ok {a : Attachment} {σ' : BlobVault}
    (h : σ.attachFileWith c x = (.ok a, σ')) :
    x.check = .ok () ∧ x.validate c = .ok () ∧ a = x.attachment c ∧
      σ' = σ.writes (σ.attachWrites c x) := by
  unfold attachFileWith at h
  split at h
  next => cases h
  next hcheck =>
    split at h
    next => cases h
    next hcommand =>
      unfold command at hcommand
      split at hcommand
      next => cases hcommand
      next hvalidate => exact ⟨hcheck, hvalidate, (by cases h; rfl), by cases h; rfl⟩

/-! ### The chunks that are stored -/

/-- **The chunks that were sealed are there** when a file is attached. -/
theorem sealedChunks_attachWrites (hcheck : x.check = .ok ()) (hvalidate : x.validate c = .ok ()) :
    (σ.writes (σ.attachWrites c x)).sealedChunks x.blobId x.chunkCount = some (x.sealed c) := by
  have hsecond := @chunks_noteWrites (σ.writes (x.recordWrites c)) x.blobId x.nowMs
    (.original (x.attachment c)) (.inl rfl)
  rw [← sealedChunks_recordWrites (σ := σ) hcheck hvalidate,
    ← sealedChunks_congr hsecond]
  -- nothing that follows touches the original's files
  refine sealedChunks_congr ?_
  unfold attachWrites
  rw [writes_append, writes_append]
  exact chunks_thumbnailWrites
    (isSome_uploads_writes isSome_uploads_recordWrites)
    fun t ht => thumbnail_ne hvalidate ht

/-! ### What the relay takes -/

section

variable (hne : x.bytes ≠ []) (hlength : x.bytes.length ≤ maxAttachmentBytes)
include hne hlength

theorem AttachInput.map_length_sealed :
    (x.sealed c).map List.length = List.replicate (x.chunkCount - 1) sealedChunkLen ++
      [x.bytes.length - (x.chunkCount - 1) * chunkPlaintextLen + aeadTagLen] := by
  unfold maxAttachmentBytes at hlength
  exact map_length_sealedFrom_of (map_length_pieces hne (by omega))

theorem AttachInput.length_of_mem_sealed {b : Bytes} (hb : b ∈ x.sealed c) :
    b ≠ [] ∧ b.length ≤ maxChunkBytes := by
  have hmem := List.mem_map_of_mem (f := List.length) hb
  rw [map_length_sealed hne hlength] at hmem
  have hbounds := chunkCount_bounds hne hlength
  have hpos : aeadTagLen ≤ b.length ∧ b.length ≤ sealedChunkLen := by
    rcases List.mem_append.mp hmem with hmem | hmem
    · rw [List.eq_of_mem_replicate hmem]
      unfold sealedChunkLen
      omega
    · rw [List.mem_singleton.mp hmem]
      unfold sealedChunkLen
      omega
  unfold aeadTagLen sealedChunkLen aeadTagLen chunkPlaintextLen at hpos
  unfold maxChunkBytes
  refine ⟨?_, by omega⟩
  rintro rfl
  exact absurd hpos.1 (by decide)

theorem AttachInput.length_flatten_sealed_le_iff :
    (x.sealed c).flatten.length ≤ maxBlobBytes ↔ x.bytes.length ≤ longestReaching := by
  rw [List.length_flatten_of_map_length (map_length_sealed hne hlength)]
  have hbounds := chunkCount_bounds hne hlength
  unfold maxAttachmentBytes at hlength
  unfold chunkPlaintextLen at hbounds ⊢
  unfold sealedChunkLen chunkPlaintextLen aeadTagLen maxBlobBytes longestReaching
  omega

theorem upload_sealed_iff :
    (∀ (relay : BlobRelay) (upload : ℕ), ∃ relay',
      relay.upload c upload (x.sealed c) (ciphertextHash c (x.sealed c)) = .ok relay' ∧
      relay'.fetch (blobKeyOf (ciphertextHash c (x.sealed c))) = .ok (x.sealed c).flatten) ↔
      x.bytes.length ≤ longestReaching := by
  have hcount := length_sealed (c := c) hne hlength
  have hbounds := chunkCount_bounds hne hlength
  have hsmall : x.chunkCount ≤ maxChunkCount := by
    unfold maxAttachmentBytes at hlength
    unfold chunkPlaintextLen at hbounds
    unfold maxChunkCount
    omega
  have hsealed : x.sealed c ≠ [] := by
    intro hnil
    rw [hnil] at hcount
    exact absurd hcount.symm hbounds.1.ne'
  rw [← length_flatten_sealed_le_iff (c := c) hne hlength]
  have hone : ∀ (relay : BlobRelay) (upload : ℕ), _ := fun relay upload =>
    @BlobRelay.upload_isOk_iff relay upload _ c hsealed
      (hcount.le.trans hsmall) fun b hb => length_of_mem_sealed hne hlength hb
  constructor
  · intro h
    exact (hone ⟨fun _ _ => none, fun _ _ => none, fun _ => none⟩ 0).mp (h _ _)
  · intro h relay upload
    exact (hone relay upload).mpr h

end

/-! ### What another replica reads -/

variable {τ : BlobVault} {body : Bytes} {nowMs : ℕ}

theorem storeFetched_original (hinj : Function.Injective c.blake3) (hne : x.bytes ≠ [])
    (hlength : x.bytes.length ≤ maxAttachmentBytes) :
    τ.storeFetched c (.original (x.attachment c)) body nowMs =
      if body = (x.sealed c).flatten then
        (true, τ.writes (τ.fetchWrites (.original (x.attachment c)) (x.sealed c) nowMs))
      else (false, τ) := by
  have hopen : ∀ ss, openBody c x.blobKey x.blobId x.chunkCount (contentHash c x.bytes) body =
      some ss ↔ body = ss.flatten ∧ ss = x.sealed c := by
    intro ss
    unfold maxAttachmentBytes at hlength
    exact openBody_eq_some_iff hinj hne (by omega)
  split
  next heq => exact storeFetched_of_some ((hopen _).mpr ⟨heq, rfl⟩)
  next hneq =>
    refine storeFetched_of_none (Option.eq_none_iff_forall_ne_some.mpr fun ss hss => ?_)
    obtain ⟨heq, rfl⟩ := (hopen ss).mp hss
    exact hneq heq

theorem attachmentBytes_fetched (hne : x.bytes ≠ [])
    (hlength : x.bytes.length ≤ maxAttachmentBytes)
    (hrow : τ.attachmentRow x.id = .ok (x.attachment c)) (laterMs : ℕ) :
    ∃ υ, (τ.writes (τ.fetchWrites (.original (x.attachment c)) (x.sealed c)
      nowMs)).attachmentBytes c x.id laterMs = .ok (x.bytes, υ) := by
  have hopen : openPieces c x.blobKey x.blobId x.chunkCount 0 (x.sealed c) =
      .ok (pieces x.bytes) := by
    refine openPieces_eq_ok_iff.mpr ⟨fun _ => ?_, rfl⟩
    rw [length_sealed hne hlength, Nat.zero_add]
  have hread := @attachmentBytes_eq_ok c _ laterMs _ _ _ _
    ((attachmentRow_congr attachments_fetchWrites).trans hrow)
    (@sealedChunks_fetchWrites _ nowMs (.original (x.attachment c)) _
      (length_sealed (c := c) hne hlength)) hopen
    (congrArg (contentHash c) (flatten_pieces x.bytes))
  rw [flatten_pieces] at hread
  exact ⟨_, hread⟩

/-! ### The whole way -/

theorem reaches_attachWrites_iff (hinj : Function.Injective c.blake3) (hcheck : x.check = .ok ())
    (hvalidate : x.validate c = .ok ()) :
    Reaches c (σ.writes (σ.attachWrites c x)) (x.attachment c) x.bytes ↔
      x.bytes.length ≤ longestReaching := by
  obtain ⟨hne, hlength⟩ := check_eq_ok hcheck
  have hchunks := sealedChunks_attachWrites (σ := σ) hcheck hvalidate
  constructor
  · rintro ⟨sealed, hsealed, hrelay, -⟩
    obtain rfl : x.sealed c = sealed := Option.some.inj (hchunks.symm.trans hsealed)
    exact (upload_sealed_iff hne hlength).mp hrelay
  · intro hshort
    refine ⟨x.sealed c, hchunks, (upload_sealed_iff hne hlength).mpr hshort, ?_⟩
    intro τ hrow body nowMs
    rw [storeFetched_original hinj hne hlength]
    refine ⟨?_, ?_, ?_⟩
    · split <;> simp [*]
    · intro hneq
      rw [if_neg hneq]
    · intro heq laterMs
      rw [if_pos heq]
      exact attachmentBytes_fetched hne hlength hrow laterMs

/-- **An attached file reaches every device exactly when its chunks are within the relay's
limit with their tags.** -/
theorem attachFileWith_reaches_iff (c : BlobCrypto) (hinj : Function.Injective c.blake3)
    (σ : BlobVault) (x : AttachInput) (a : Attachment) (σ' : BlobVault)
    (h : σ.attachFileWith c x = (.ok a, σ')) :
    Reaches c σ' a x.bytes ↔ x.bytes.length ≤ longestReaching := by
  obtain ⟨hcheck, hvalidate, rfl, rfl⟩ := attachFileWith_eq_ok h
  exact reaches_attachWrites_iff hinj hcheck hvalidate

/-! ### A file -/

theorem AttachInput.check_text {bytes : Bytes} (hne : bytes ≠ [])
    (hlength : bytes.length ≤ maxAttachmentBytes) : (text bytes).check = .ok () := by
  unfold check
  change (if bytes = [] then _ else if maxAttachmentBytes < bytes.length then _ else _) = _
  rw [if_neg hne, if_neg (not_lt.mpr hlength)]
  rfl

theorem AttachInput.validate_of_thumbnail_none {filename mimeType : List Char}
    (hparent : x.parentIsTask = true)
    (hfilename : validateTitle x.filename "attachment.filename" maxFilenameLen = .ok filename)
    (hmime : validateTitle x.mimeType "attachment.mime_type" maxMimeTypeLen = .ok mimeType)
    (hne : x.bytes ≠ []) (hlength : x.bytes.length ≤ maxAttachmentBytes)
    (hthumbnail : x.thumbnail = none) : x.validate c = .ok () := by
  have hbounds := chunkCount_bounds hne hlength
  have hsize : ¬ (x.bytes.length = 0 ∨ maxAttachmentBytes < x.bytes.length) := by
    rintro (h | h)
    · exact hne (List.length_eq_zero_iff.mp h)
    · exact absurd h (not_lt.mpr hlength)
  have hnone : x.sealedThumbnail c = none := by
    unfold sealedThumbnail
    rw [hthumbnail]
    rfl
  unfold validate validateThumbnail
  rw [hparent, hnone, if_neg (by exact Bool.false_ne_true)]
  refine Result.bind_eq_ok_iff.mpr ⟨_, hfilename, Result.bind_eq_ok_iff.mpr ⟨_, hmime, ?_⟩⟩
  rw [if_neg hbounds.1.ne', if_neg hsize]

theorem AttachInput.validate_text {bytes : Bytes} (hne : bytes ≠ [])
    (hlength : bytes.length ≤ maxAttachmentBytes) :
    (text bytes).validate c = .ok () :=
  @validate_of_thumbnail_none c _ "notes.txt".toList "text/plain".toList rfl rfl rfl hne hlength rfl

theorem attachFileWith_of_valid (hcheck : x.check = .ok ()) (hvalidate : x.validate c = .ok ())
    (hparent : x.parentIsHere = true) :
    σ.attachFileWith c x = (.ok (x.attachment c), σ.writes (σ.attachWrites c x)) := by
  unfold attachFileWith command
  rw [hcheck, hvalidate, hparent]
  rfl

theorem attachFileWith_text {bytes : Bytes} (hne : bytes ≠ [])
    (hlength : bytes.length ≤ maxAttachmentBytes) :
    σ.attachFileWith c (text bytes) =
      (.ok ((text bytes).attachment c),
        σ.writes (σ.attachWrites c (text bytes))) :=
  attachFileWith_of_valid (check_text hne hlength)
    (validate_text hne hlength) rfl

theorem attachFileWith_reaches_text :
    ∃ a σ', BlobVault.empty.attachFileWith BlobCrypto.sample (text [104, 105]) =
        (.ok a, σ') ∧
      (Reaches BlobCrypto.sample σ' a [104, 105] ↔ [104, 105].length ≤ longestReaching) := by
  have hattach := @attachFileWith_text BlobCrypto.sample BlobVault.empty [104, 105]
    (List.cons_ne_nil _ _) (by decide)
  exact ⟨_, _, hattach, attachFileWith_reaches_iff _ (fun _ _ h => h) _ _ _ _ hattach⟩

/-- The longest file that is attached does not reach another device. -/
theorem not_reaches_longest :
    ¬ ∀ (c : BlobCrypto) (σ : BlobVault) (x : AttachInput) (a : Attachment) (σ' : BlobVault),
      Function.Injective c.blake3 → σ.attachFileWith c x = (.ok a, σ') →
        Reaches c σ' a x.bytes := by
  intro h
  have hlength : (List.replicate maxAttachmentBytes 0 : Bytes).length = maxAttachmentBytes :=
    List.length_replicate
  have hne : (List.replicate maxAttachmentBytes 0 : Bytes) ≠ [] := by
    intro hnil
    rw [hnil] at hlength
    exact absurd hlength (by decide)
  have hreaches := h BlobCrypto.sample BlobVault.empty _ _ _ (fun _ _ heq => heq)
    (attachFileWith_text hne hlength.le)
  have hle := (reaches_attachWrites_iff (fun _ _ heq => heq)
    (check_text hne hlength.le) (validate_text hne hlength.le)).mp hreaches
  change (List.replicate maxAttachmentBytes 0 : Bytes).length ≤ longestReaching at hle
  rw [hlength] at hle
  exact absurd hle (by decide)

end Sunrise
