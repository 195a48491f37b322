import Mathlib.Data.List.Sort
import Mathlib.Data.Prod.Lex
import Sunrise.Blob.Chunk
import Sunrise.Lib.Table
import Sunrise.Lib.Text

/-!
# A vault's attachments and the bytes it keeps of them

The chunks of a blob are files. Beside them a vault has an index of the blobs it holds, a queue
of those that have not reached the relay, and the attachments themselves. Attaching a file, and
storing one that was fetched, is a sequence of writes to these; any of them may fail, and what
was written before it stays. The index has a limit: after each store the blobs that were opened
longest ago are evicted, but not one that waits for upload, nor a thumbnail, nor one that an
open preview holds.

* `BlobVault`, `BlobWrite` — the tables and files, and one write.
* `BlobVault.evictPlan`, `BlobVault.noteWrites` — what a pass evicts, and the writes of a store.
* `BlobVault.attachWrites`, `BlobVault.attachFileWith`, `BlobVault.storeFetched`,
  `BlobVault.attachmentBytes` — attaching a file, storing a fetched one and reading one.
-/

namespace Sunrise

abbrev AttachmentId := ℕ

/-- A thumbnail: one sealed chunk under its own key. -/
structure Thumbnail where
  blobId : BlobId
  blobKey : Bytes
  mimeType : List Char
  sizeBytes : ℕ
  contentHash : Bytes
  ciphertextHash : Bytes
deriving DecidableEq

/-- A file attached to a task. -/
structure Attachment where
  id : AttachmentId
  filename : List Char
  mimeType : List Char
  sizeBytes : ℕ
  blobKey : Bytes
  blobId : BlobId
  chunkCount : ℕ
  contentHash : Bytes
  /-- The hash of the ciphertext, after which the relay names the blob. -/
  ciphertextHash : Bytes
  width : Option ℕ
  height : Option ℕ
  /-- The six `thumbnail_*` fields, when all are there. -/
  thumbnail : Option Thumbnail
  deleted : Bool
deriving DecidableEq

/-- A hash that names nothing. -/
def zeroHash : Bytes := List.replicate 32 0

def maxThumbnailBytes : ℕ := 256 * 1024

def maxAttachmentBytes : ℕ := 100 * 1000 * 1000

def maxFilenameLen : ℕ := 256

def maxMimeTypeLen : ℕ := 128

/-- What a draft can be refused for. -/
inductive ValidationError where
  | invalidTitle
  | field (name constraint : String)
deriving DecidableEq, Repr

/-- A title must hold something, and not too much. -/
def validateTitle (raw : List Char) (field : String) (maxChars : ℕ) :
    Except ValidationError (List Char) :=
  let trimmed := Text.trim raw
  if trimmed = [] then .error .invalidTitle
  else if maxChars < trimmed.length then .error (.field field "max_length")
  else .ok trimmed

section

local instance lawfulBEq_mime : LawfulBEq (List Char) := inferInstance

/-- A thumbnail must be of a type every platform decodes, of one chunk, and on the relay. -/
def Thumbnail.validate (t : Thumbnail) : Except ValidationError Unit :=
  if t.mimeType ∉ ["image/jpeg".toList, "image/png".toList] then
    .error (.field "attachment.thumbnail_mime" "jpeg_or_png")
  else if t.sizeBytes = 0 ∨ maxThumbnailBytes < t.sizeBytes then
    .error (.field "attachment.thumbnail_size_bytes" "one_chunk")
  else if t.ciphertextHash = zeroHash then
    .error (.field "attachment.thumbnail_ciphertext_hash" "present")
  else .ok ()

end

/-- Whether the relay can name the attachment's blob. -/
def Attachment.isFetchable (a : Attachment) : Bool := a.ciphertextHash ≠ zeroHash

def Attachment.relayBlobId (a : Attachment) : Option Bytes :=
  if a.isFetchable then some (a.ciphertextHash.take 16) else none

/-- The thumbnail, when it is one a receiver may use. -/
def Attachment.usableThumbnail (a : Attachment) : Option Thumbnail :=
  a.thumbnail.filter fun t => t.validate.isOk

/-- One blob of an attachment: the original or the thumbnail. -/
structure BlobRef where
  attachment : AttachmentId
  blobId : BlobId
  blobKey : Bytes
  chunkCount : ℕ
  sizeBytes : ℕ
  contentHash : Bytes
  relayId : Bytes
  isThumbnail : Bool
deriving DecidableEq

namespace BlobRef

def original (a : Attachment) : BlobRef where
  attachment := a.id
  blobId := a.blobId
  blobKey := a.blobKey
  chunkCount := a.chunkCount
  sizeBytes := a.sizeBytes
  contentHash := a.contentHash
  relayId := a.relayBlobId.getD (List.replicate 16 0)
  isThumbnail := false

def thumbnail (a : Attachment) : Option BlobRef :=
  a.usableThumbnail.map fun t =>
    { attachment := a.id
      blobId := t.blobId
      blobKey := t.blobKey
      chunkCount := 1
      sizeBytes := t.sizeBytes
      contentHash := t.contentHash
      relayId := t.ciphertextHash.take 16
      isThumbnail := true }

def sealedBytes (r : BlobRef) : ℕ := r.sizeBytes + aeadTagLen * r.chunkCount

end BlobRef

/-! ### The vault -/

structure CacheRow where
  sealedBytes : ℕ
  lastAccessMs : ℕ
  isThumbnail : Bool
  evictedAtMs : Option ℕ
deriving DecidableEq

structure UploadRow where
  chunkCount : ℕ
  sizeBytes : ℕ
  ciphertextHash : Bytes
  createdAtMs : ℕ
deriving DecidableEq

/-- The files and tables. -/
structure BlobVault where
  chunks : BlobId → ℕ → Option Bytes
  cache : Table BlobId CacheRow
  uploads : Table BlobId UploadRow
  attachments : Table AttachmentId Attachment
  /-- The previews that are open: the blob each holds, and how often. -/
  pins : Table AttachmentId (BlobId × ℕ)
  limit : ℕ
  /-- The blobs from before the index were indexed: `blob_cache_backfill`. -/
  backfilled : Bool

inductive BlobWrite where
  | putChunk (r : BlobRef) (idx : ℕ) (bytes : Bytes)
  /-- The chunk files of a blob that is to be marked evicted are deleted, by a pass that may
  spare another. -/
  | deleteAll (b : BlobId) (spared : Option BlobId)
  | markEvicted (b : BlobId) (nowMs : ℕ)
  /-- The chunk files of a blob that nothing refers to are deleted. -/
  | discard (b : BlobId)
  | upsert (r : BlobRef) (nowMs : ℕ)
  /-- A blob from before the index is indexed, as opened before any other. -/
  | index (r : BlobRef)
  | markBackfilled
  | record (a : Attachment)
  | enqueue (r : BlobRef) (ciphertextHash : Bytes) (nowMs : ℕ)

namespace BlobVault

variable (σ : BlobVault)

def hasAll (b : BlobId) (chunkCount : ℕ) : Bool :=
  (List.range chunkCount).all fun i => (σ.chunks b i).isSome

def setChunks (b : BlobId) (files : ℕ → Option Bytes) : BlobVault :=
  { σ with chunks := Function.update σ.chunks b files }

def write (σ : BlobVault) : BlobWrite → BlobVault
  | .putChunk r idx bytes =>
    σ.setChunks r.blobId (Function.update (σ.chunks r.blobId) idx (some bytes))
  | .deleteAll b _ => σ.setChunks b fun _ => none
  | .markEvicted b nowMs =>
    { σ with cache := σ.cache.mapValues fun b' row =>
        if b' = b then { row with evictedAtMs := some nowMs } else row }
  | .discard b => σ.setChunks b fun _ => none
  | .upsert r nowMs =>
    { σ with cache := σ.cache.upsert r.blobId ⟨r.sealedBytes, nowMs, r.isThumbnail, none⟩ }
  | .index r =>
    { σ with cache := σ.cache.insertOrIgnore r.blobId ⟨r.sealedBytes, 0, r.isThumbnail, none⟩ }
  | .markBackfilled => { σ with backfilled := true }
  | .record a => { σ with attachments := σ.attachments.upsert a.id a }
  | .enqueue r ciphertextHash nowMs =>
    let row : UploadRow := ⟨r.chunkCount, r.sizeBytes, ciphertextHash, nowMs⟩
    { σ with uploads := σ.uploads.insertOrIgnore r.blobId row }

def writes (ws : List BlobWrite) : BlobVault := ws.foldl write σ

/-! ### Eviction -/

/-- An open preview holds the blob. -/
def isPinned (b : BlobId) : Bool := σ.pins.rows.any fun p => p.2.1 = b

/-- The blob may not be evicted: it waits for upload, is a thumbnail, or is held by a preview. -/
def isProtected (b : BlobId) (row : CacheRow) : Bool :=
  row.isThumbnail || (σ.uploads.find b).isSome || σ.isPinned b

def live : List (BlobId × CacheRow) := σ.cache.rows.filter fun r => r.2.evictedAtMs = none

/-- What the index holds. -/
def used : ℕ := (σ.live.map (·.2.sealedBytes)).sum

def age (r : BlobId × CacheRow) : ℕ ×ₗ ℕ := toLex (r.2.lastAccessMs, r.1)

/-- The blobs that may be evicted, the one opened longest ago first. -/
def evictable : List (BlobId × CacheRow) :=
  (σ.live.filter fun r => !σ.isProtected r.1 r.2).insertionSort fun r s => age r ≤ age s

/-- Go on until what is used is within the limit, sparing one blob. -/
def takeDown (limit : ℕ) (keep : Option BlobId) :
    ℕ → List (BlobId × CacheRow) → List (BlobId × CacheRow)
  | _, [] => []
  | used, r :: rest =>
    if used ≤ limit then []
    else if keep = some r.1 then takeDown limit keep used rest
    else r :: takeDown limit keep (used - r.2.sealedBytes) rest

def evictPlan (limit : ℕ) (keep : Option BlobId) : List (BlobId × CacheRow) :=
  takeDown limit keep σ.used σ.evictable

def passWrites (keep : Option BlobId) (nowMs : ℕ) (plan : List (BlobId × CacheRow)) :
    List BlobWrite :=
  plan.flatMap fun r => [.deleteAll r.1 keep, .markEvicted r.1 nowMs]

def evictWrites (limit : ℕ) (keep : Option BlobId) (nowMs : ℕ) : List BlobWrite :=
  passWrites keep nowMs (σ.evictPlan limit keep)

/-- The writes that index a blob that was stored: its row, and a pass that spares it. -/
def noteWrites (r : BlobRef) (nowMs : ℕ) : List BlobWrite :=
  .upsert r nowMs :: (σ.write (.upsert r nowMs)).evictWrites σ.limit (some r.blobId) nowMs

def putWrites (r : BlobRef) : ℕ → List Bytes → List BlobWrite
  | _, [] => []
  | idx, bytes :: rest => .putChunk r idx bytes :: putWrites r (idx + 1) rest

end BlobVault

/-! ### Attaching a file -/

/-- Why the bytes of an attachment cannot be stored or read. -/
inductive AttachError where
  | empty
  | tooLarge (size : ℕ)
  | notFound (id : AttachmentId)
  | bytesNotHere (id : AttachmentId)
  | badThumbnail (reason : String)
  | chunk (e : BlobChunkError)
  | refused (e : ValidationError)
  | parentNotFound
deriving DecidableEq, Repr

/-- A thumbnail as a client rendered it. -/
structure ThumbnailImage where
  mimeType : List Char
  bytes : Bytes

/-- A thumbnail must be of a type every platform decodes, of one chunk, and what it says. -/
def ThumbnailImage.check (t : ThumbnailImage) : Except AttachError Unit :=
  let magic : Option Bytes :=
    if t.mimeType = "image/jpeg".toList then some [0xFF, 0xD8, 0xFF]
    else if t.mimeType = "image/png".toList then
      some [0x89, 0x50, 0x4E, 0x47, 0x0D, 0x0A, 0x1A, 0x0A]
    else none
  match magic with
  | none => .error (.badThumbnail "not image/jpeg or image/png")
  | some magic =>
    if t.bytes = [] ∨ maxThumbnailBytes < t.bytes.length then
      .error (.badThumbnail "empty or over one chunk")
    else if ¬ magic <+: t.bytes then .error (.badThumbnail "bytes do not match the type")
    else .ok ()

/-- What a file is attached with. -/
structure AttachInput where
  parentIsTask : Bool
  parentIsHere : Bool
  filename : List Char
  mimeType : List Char
  bytes : Bytes
  width : Option ℕ
  height : Option ℕ
  thumbnail : Option ThumbnailImage
  id : AttachmentId
  blobKey : Bytes
  blobId : BlobId
  thumbnailKey : Bytes
  thumbnailId : BlobId
  /-- Every device of the vault can represent a thumbnail. -/
  thumbnails : Bool
  nowMs : ℕ

open AttachInput

namespace AttachInput

variable (c : BlobCrypto) (x : AttachInput)

def chunkCount : ℕ := chunkCountFor x.bytes.length

def sealed : List Bytes := sealedFrom c x.blobKey x.blobId x.chunkCount 0 (pieces x.bytes)

def sealedThumbnail : Option (Thumbnail × Bytes) :=
  x.thumbnail.map fun t =>
    let sealed := sealedAt c x.thumbnailKey x.thumbnailId 1 0 t.bytes
    (⟨x.thumbnailId, x.thumbnailKey, t.mimeType, t.bytes.length, contentHash c t.bytes,
      ciphertextHash c [sealed]⟩, sealed)

/-- The attachment as it is recorded: without its preview, where a device of the vault cannot
represent one. -/
def attachment : Attachment where
  id := x.id
  filename := Text.trim x.filename
  mimeType := Text.trim x.mimeType
  sizeBytes := x.bytes.length
  blobKey := x.blobKey
  blobId := x.blobId
  chunkCount := x.chunkCount
  contentHash := contentHash c x.bytes
  ciphertextHash := ciphertextHash c (x.sealed c)
  width := if x.thumbnails then x.width else none
  height := if x.thumbnails then x.height else none
  thumbnail := if x.thumbnails then (x.sealedThumbnail c).map (·.1) else none
  deleted := false

/-- A thumbnail must be one a receiver may use, and under a key and an id of its own. -/
def validateThumbnail : Except ValidationError Unit :=
  match x.sealedThumbnail c with
  | none => .ok ()
  | some (t, _) => do
    t.validate
    if t.blobKey = x.blobKey ∨ t.blobId = x.blobId then
      throw (.field "attachment.thumbnail_blob_key" "fresh_key")
    else return ()

/-- The draft of the command must be one it takes. -/
def validate : Except ValidationError Unit :=
  if !x.parentIsTask then .error (.field "attachment.parent" "task_only_in_v1")
  else do
    let _ ← validateTitle x.filename "attachment.filename" maxFilenameLen
    let _ ← validateTitle x.mimeType "attachment.mime_type" maxMimeTypeLen
    if x.chunkCount = 0 then throw (.field "attachment.chunk_count" "at_least_one")
    else if x.bytes.length = 0 ∨ maxAttachmentBytes < x.bytes.length then
      throw (.field "attachment.size_bytes" "size_policy")
    else x.validateThumbnail c

/-- The command must be valid, and its parent here. -/
def command : Except AttachError Unit :=
  match x.validate c with
  | .error e => .error (.refused e)
  | .ok () => if x.parentIsHere then .ok () else .error .parentNotFound

/-- What is checked before anything is written. -/
def check : Except AttachError Unit :=
  if x.bytes = [] then .error .empty
  else if maxAttachmentBytes < x.bytes.length then .error (.tooLarge x.bytes.length)
  else
    match x.thumbnail with
    | none => .ok ()
    | some t => t.check

def chunkWrites : List BlobWrite :=
  BlobVault.putWrites (.original (x.attachment c)) 0 (x.sealed c) ++
    match x.sealedThumbnail c with
    | none => []
    | some (t, sealed) =>
      [.putChunk ⟨x.id, t.blobId, t.blobKey, 1, t.sizeBytes, t.contentHash,
        t.ciphertextHash.take 16, true⟩ 0 sealed]

def recordWrites : List BlobWrite :=
  x.chunkWrites c ++ [.record (x.attachment c),
    .enqueue (.original (x.attachment c)) (x.attachment c).ciphertextHash x.nowMs]

end AttachInput

namespace BlobVault

variable (c : BlobCrypto) (σ : BlobVault) (x : AttachInput)

/-- What is written of a thumbnail: it is queued and indexed, or, where the attachment was
recorded without it, its chunk is deleted. -/
def thumbnailWrites (nowMs : ℕ) : Option BlobRef → Option (Thumbnail × Bytes) → List BlobWrite
  | some r, some (t, _) =>
    .enqueue r t.ciphertextHash nowMs ::
      (σ.write (.enqueue r t.ciphertextHash nowMs)).noteWrites r nowMs
  | none, some (t, _) => [.discard t.blobId]
  | _, none => []

/-- Everything that attaching a file writes, in order. -/
def attachWrites : List BlobWrite :=
  let first := x.recordWrites c
  let second := (σ.writes first).noteWrites (.original (x.attachment c)) x.nowMs
  first ++ second ++ ((σ.writes first).writes second).thumbnailWrites x.nowMs
    (BlobRef.thumbnail (x.attachment c)) (x.sealedThumbnail c)

/-- Attach a file. What is refused by the command has left its chunks. -/
def attachFileWith : Except AttachError Attachment × BlobVault :=
  match x.check with
  | .error e => (.error e, σ)
  | .ok () =>
    match x.command c with
    | .error e => (.error e, σ.writes (x.chunkWrites c))
    | .ok () => (.ok (x.attachment c), σ.writes (σ.attachWrites c x))

/-- Every sealed chunk of a blob, in order, or none. -/
def sealedChunks (b : BlobId) (chunkCount : ℕ) : Option (List Bytes) :=
  (List.range chunkCount).mapM (σ.chunks b)

/-! ### Storing and reading -/

/-- The writes that store a fetched body. -/
def fetchWrites (r : BlobRef) (sealed : List Bytes) (nowMs : ℕ) : List BlobWrite :=
  putWrites r 0 sealed ++ (σ.writes (putWrites r 0 sealed)).noteWrites r nowMs

def storeFetched (r : BlobRef) (body : Bytes) (nowMs : ℕ) : Bool × BlobVault :=
  match openBody c r.blobKey r.blobId r.chunkCount r.contentHash body with
  | none => (false, σ)
  | some sealed => (true, σ.writes (σ.fetchWrites r sealed nowMs))

def touch (b : BlobId) (nowMs : ℕ) : BlobVault :=
  { σ with cache := σ.cache.mapValues fun b' row =>
      if b' = b then { row with lastAccessMs := nowMs } else row }

/-- An attachment that is not deleted. -/
def attachmentRow (id : AttachmentId) : Except AttachError Attachment :=
  match σ.attachments.find id with
  | none => .error (.notFound id)
  | some a => if a.deleted then .error (.notFound id) else .ok a

/-- An attachment's bytes, from its chunks. -/
def attachmentBytes (id : AttachmentId) (nowMs : ℕ) : Except AttachError (Bytes × BlobVault) :=
  match σ.attachmentRow id with
  | .error e => .error e
  | .ok a =>
    match σ.sealedChunks a.blobId a.chunkCount with
    | none => .error (.bytesNotHere id)
    | some sealed =>
      match openPieces c a.blobKey a.blobId a.chunkCount 0 sealed with
      | .error e => .error (.chunk e)
      | .ok plaintext =>
        match verifyContent c plaintext.flatten a.contentHash with
        | .error e => .error (.chunk e)
        | .ok () => .ok (plaintext.flatten, σ.touch a.blobId nowMs)

/-! ### What writes leave as it is -/

variable {σ} {ws : List BlobWrite} {b : BlobId}

theorem writes_append (ws ws' : List BlobWrite) :
    σ.writes (ws ++ ws') = (σ.writes ws).writes ws' :=
  List.foldl_append

theorem writes_cons (w : BlobWrite) (ws : List BlobWrite) :
    σ.writes (w :: ws) = (σ.write w).writes ws := rfl

theorem writes_keep {α : Type} {f : BlobVault → α}
    (h : ∀ w ∈ ws, ∀ τ : BlobVault, f (τ.write w) = f τ) : f (σ.writes ws) = f σ := by
  induction ws generalizing σ with
  | nil => rfl
  | cons w ws ih =>
    rw [writes_cons, ih fun v hv => h v (List.mem_cons_of_mem _ hv)]
    exact h w List.mem_cons_self σ

theorem chunks_setChunks (b' : BlobId) (files : ℕ → Option Bytes) :
    (σ.setChunks b' files).chunks b = if b = b' then files else σ.chunks b :=
  Function.update_apply ..

theorem isSome_uploads_enqueue (r : BlobRef) (ciphertextHash : Bytes) (nowMs : ℕ) :
    ((σ.write (.enqueue r ciphertextHash nowMs)).uploads.find r.blobId).isSome := by
  show ((σ.uploads.insertOrIgnore r.blobId _).find r.blobId).isSome
  rw [Table.find_insertOrIgnore, if_pos rfl]
  rfl

theorem isSome_uploads_write {w : BlobWrite} (h : (σ.uploads.find b).isSome) :
    ((σ.write w).uploads.find b).isSome := by
  cases w with
  | enqueue r ciphertextHash nowMs =>
    show ((σ.uploads.insertOrIgnore r.blobId _).find b).isSome
    rw [Table.find_insertOrIgnore]
    split
    · rfl
    · exact h
  | _ => exact h

theorem isSome_uploads_writes (h : (σ.uploads.find b).isSome) :
    ((σ.writes ws).uploads.find b).isSome := by
  induction ws generalizing σ with
  | nil => exact h
  | cons w ws ih => exact ih (isSome_uploads_write h)

/-! ### What a pass evicts -/

variable {limit : ℕ} {keep : Option BlobId} {nowMs : ℕ}

/-- **A pass takes the blobs it may take in their order**, until it stops. -/
theorem takeDown_prefix (used : ℕ) (l : List (BlobId × CacheRow)) :
    takeDown limit keep used l <+: l.filter fun r => keep ≠ some r.1 := by
  induction l generalizing used with
  | nil => exact List.prefix_rfl
  | cons r rest ih =>
    rw [takeDown]
    split
    · exact List.nil_prefix
    · split
      next hkeep =>
        rw [List.filter_cons_of_neg (by simpa using hkeep)]
        exact ih _
      next hkeep =>
        rw [List.filter_cons_of_pos (by simpa using hkeep)]
        exact List.cons_prefix_cons.mpr ⟨rfl, ih _⟩

theorem takeDown_used (used : ℕ) (l : List (BlobId × CacheRow)) :
    used - ((takeDown limit keep used l).map (·.2.sealedBytes)).sum ≤ limit ∨
      takeDown limit keep used l = l.filter fun r => keep ≠ some r.1 := by
  induction l generalizing used with
  | nil => exact .inr rfl
  | cons r rest ih =>
    rw [takeDown]
    split
    next hle => exact .inl (by simpa using hle)
    next =>
      split
      next hkeep =>
        rw [List.filter_cons_of_neg (by simpa using hkeep)]
        exact ih _
      next hkeep =>
        rw [List.filter_cons_of_pos (by simpa using hkeep), List.map_cons, List.sum_cons,
          ← Nat.sub_sub]
        rcases ih (used - r.2.sealedBytes) with h | h
        · exact .inl h
        · exact .inr (by rw [h])

theorem mem_evictable {r : BlobId × CacheRow} :
    r ∈ σ.evictable ↔ r ∈ σ.live ∧ σ.isProtected r.1 r.2 = false := by
  unfold evictable
  rw [List.mem_insertionSort, List.mem_filter, Bool.not_eq_eq_eq_not, Bool.not_true]

/-- **A pass evicts only what is not protected**, nor spared. -/
theorem mem_evictPlan {r : BlobId × CacheRow} (h : r ∈ σ.evictPlan limit keep) :
    r ∈ σ.live ∧ σ.isProtected r.1 r.2 = false ∧ keep ≠ some r.1 := by
  have hmem := List.mem_filter.mp (( takeDown_prefix _ _).subset h)
  obtain ⟨hlive, hprotected⟩ := mem_evictable.mp hmem.1
  exact ⟨hlive, hprotected, of_decide_eq_true hmem.2⟩

theorem mem_evictWrites {w : BlobWrite} : w ∈ σ.evictWrites limit keep nowMs ↔
    ∃ r ∈ σ.evictPlan limit keep, w = .deleteAll r.1 keep ∨ w = .markEvicted r.1 nowMs := by
  unfold evictWrites passWrites
  simp only [List.mem_flatMap, List.mem_cons, List.not_mem_nil, or_false]

theorem mem_putWrites {r : BlobRef} {idx : ℕ} {sealed : List Bytes} {w : BlobWrite}
    (h : w ∈ putWrites r idx sealed) : ∃ i bytes, w = .putChunk r i bytes := by
  induction sealed generalizing idx with
  | nil => cases h
  | cons bytes rest ih =>
    rcases List.mem_cons.mp h with rfl | h
    · exact ⟨idx, bytes, rfl⟩
    · exact ih h

theorem mem_noteWrites {r : BlobRef} {w : BlobWrite} (h : w ∈ σ.noteWrites r nowMs) :
    w = .upsert r nowMs ∨ ∃ row : BlobId × CacheRow,
      σ.isProtected row.1 row.2 = false ∧ row.1 ≠ r.blobId ∧
      (w = .deleteAll row.1 (some r.blobId) ∨ w = .markEvicted row.1 nowMs) := by
  rcases List.mem_cons.mp h with rfl | h
  · exact .inl rfl
  · obtain ⟨row, hrow, hw⟩ := mem_evictWrites.mp h
    obtain ⟨-, hprotected, hkeep⟩ := mem_evictPlan hrow
    exact .inr ⟨row, hprotected, fun heq => hkeep (congrArg some heq.symm), hw⟩

/-! ### The files of a blob that is stored -/

theorem chunks_putWrites (r : BlobRef) (idx i : ℕ) (sealed : List Bytes) :
    (σ.writes (putWrites r idx sealed)).chunks r.blobId i =
      if i < idx then σ.chunks r.blobId i else sealed[i - idx]?.or (σ.chunks r.blobId i) := by
  induction sealed generalizing σ idx with
  | nil =>
    rw [List.getElem?_nil, Option.none_or, ite_self]
    rfl
  | cons bytes rest ih =>
    have hput : (σ.write (.putChunk r idx bytes)).chunks r.blobId i =
        if i = idx then some bytes else σ.chunks r.blobId i := by
      show Function.update σ.chunks r.blobId _ r.blobId i = _
      rw [Function.update_self, Function.update_apply]
    rw [putWrites, writes_cons, ih, hput]
    rcases Nat.lt_trichotomy i idx with hlt | rfl | hgt
    · rw [if_pos (by omega), if_neg (by omega), if_pos hlt]
    · rw [if_pos (by omega), if_pos rfl, if_neg (by omega), Nat.sub_self]
      rfl
    · rw [if_neg (by omega), if_neg (by omega), if_neg (by omega),
        show i - idx = i - (idx + 1) + 1 by omega]
      rfl

theorem chunks_putWrites_of_ne {r : BlobRef} {idx : ℕ} {sealed : List Bytes}
    (h : b ≠ r.blobId) : (σ.writes (putWrites r idx sealed)).chunks b = σ.chunks b := by
  refine writes_keep (f := fun τ => τ.chunks b) fun w hw τ => ?_
  obtain ⟨i, bytes, rfl⟩ := mem_putWrites hw
  exact Function.update_of_ne h _ _

theorem chunks_noteWrites {r : BlobRef} (h : b = r.blobId ∨ (σ.uploads.find b).isSome) :
    (σ.writes (σ.noteWrites r nowMs)).chunks b = σ.chunks b := by
  refine writes_keep (f := fun τ => τ.chunks b) fun w hw τ => ?_
  rcases mem_noteWrites hw with rfl | ⟨row, hprotected, hne, rfl | rfl⟩
  · rfl
  · refine Function.update_of_ne ?_ _ _
    rintro rfl
    rcases h with heq | hwaits
    · exact hne heq
    · rw [isProtected, hwaits, Bool.or_true, Bool.true_or] at hprotected
      cases hprotected
  · rfl

theorem chunks_thumbnailWrites {r : Option BlobRef} {thumbnail : Option (Thumbnail × Bytes)}
    (hwaits : (σ.uploads.find b).isSome) (hne : ∀ t ∈ thumbnail, t.1.blobId ≠ b) :
    (σ.writes (σ.thumbnailWrites nowMs r thumbnail)).chunks b = σ.chunks b := by
  cases thumbnail with
  | none => cases r <;> rfl
  | some t =>
    cases r with
    | none => exact Function.update_of_ne (hne t rfl).symm _ _
    | some r =>
      exact chunks_noteWrites (σ := σ.write (.enqueue r t.1.ciphertextHash nowMs))
        (.inr (isSome_uploads_write hwaits))

theorem attachments_noteWrites {r : BlobRef} :
    (σ.writes (σ.noteWrites r nowMs)).attachments = σ.attachments := by
  refine writes_keep (f := attachments) fun w hw τ => ?_
  rcases mem_noteWrites hw with rfl | ⟨row, -, -, rfl | rfl⟩ <;> rfl

theorem attachments_putWrites {r : BlobRef} {idx : ℕ} {sealed : List Bytes} :
    (σ.writes (putWrites r idx sealed)).attachments = σ.attachments := by
  refine writes_keep (f := attachments) fun w hw τ => ?_
  obtain ⟨i, bytes, rfl⟩ := mem_putWrites hw
  rfl

theorem sealedChunks_eq_some_iff {count : ℕ} {sealed : List Bytes} :
    σ.sealedChunks b count = some sealed ↔
      sealed.length = count ∧ ∀ i (h : i < sealed.length), σ.chunks b i = some sealed[i] := by
  unfold sealedChunks
  rw [Text.mapM_eq_some_iff, List.forall₂_iff_get]
  simp only [List.length_range, List.get_eq_getElem, List.getElem_range]
  constructor
  · rintro ⟨hlength, h⟩
    exact ⟨hlength.symm, fun i hi => h i (by omega) hi⟩
  · rintro ⟨hlength, h⟩
    exact ⟨hlength.symm, fun i _ hi => h i hi⟩

theorem sealedChunks_putWrites (r : BlobRef) {sealed : List Bytes} :
    (σ.writes (putWrites r 0 sealed)).sealedChunks r.blobId sealed.length = some sealed := by
  refine sealedChunks_eq_some_iff.mpr ⟨rfl, fun i hi => ?_⟩
  rw [chunks_putWrites, if_neg (Nat.not_lt_zero i), Nat.sub_zero, List.getElem?_eq_getElem hi]
  rfl

theorem sealedChunks_congr {τ : BlobVault} {count : ℕ} (h : τ.chunks b = σ.chunks b) :
    τ.sealedChunks b count = σ.sealedChunks b count := by
  unfold sealedChunks
  rw [h]

/-! ### Storing and reading -/

variable {c} {r : BlobRef} {body : Bytes}

theorem storeFetched_of_some {sealed : List Bytes}
    (h : openBody c r.blobKey r.blobId r.chunkCount r.contentHash body = some sealed) :
    σ.storeFetched c r body nowMs = (true, σ.writes (σ.fetchWrites r sealed nowMs)) := by
  unfold storeFetched
  rw [h]

theorem storeFetched_of_none
    (h : openBody c r.blobKey r.blobId r.chunkCount r.contentHash body = none) :
    σ.storeFetched c r body nowMs = (false, σ) := by
  unfold storeFetched
  rw [h]

theorem attachments_fetchWrites {sealed : List Bytes} :
    (σ.writes (σ.fetchWrites r sealed nowMs)).attachments = σ.attachments := by
  rw [fetchWrites, writes_append, attachments_noteWrites, attachments_putWrites]

theorem sealedChunks_fetchWrites {sealed : List Bytes} (h : sealed.length = r.chunkCount) :
    (σ.writes (σ.fetchWrites r sealed nowMs)).sealedChunks r.blobId r.chunkCount =
      some sealed := by
  rw [fetchWrites, writes_append, sealedChunks_congr (chunks_noteWrites (.inl rfl)), ← h]
  exact sealedChunks_putWrites r

theorem attachmentRow_congr {τ : BlobVault} {id : AttachmentId}
    (h : τ.attachments = σ.attachments) : τ.attachmentRow id = σ.attachmentRow id := by
  unfold attachmentRow
  rw [h]

theorem attachmentBytes_eq_ok {id : AttachmentId} {a : Attachment}
    {sealed plaintext : List Bytes} (hrow : σ.attachmentRow id = .ok a)
    (hchunks : σ.sealedChunks a.blobId a.chunkCount = some sealed)
    (hopen : openPieces c a.blobKey a.blobId a.chunkCount 0 sealed = .ok plaintext)
    (hhash : contentHash c plaintext.flatten = a.contentHash) :
    σ.attachmentBytes c id nowMs = .ok (plaintext.flatten, σ.touch a.blobId nowMs) := by
  unfold attachmentBytes
  rw [hrow]
  dsimp only
  rw [hchunks]
  dsimp only
  rw [hopen]
  dsimp only
  rw [verifyContent_eq_ok_iff (u := ()) |>.mpr hhash]

end BlobVault

/-! ### What is attached -/

section

variable {c : BlobCrypto} {σ : BlobVault} {x : AttachInput}

theorem AttachInput.check_eq_ok (h : x.check = .ok ()) :
    x.bytes ≠ [] ∧ x.bytes.length ≤ maxAttachmentBytes := by
  unfold check at h
  split at h
  next => cases h
  next hne =>
    split at h
    next => cases h
    next hle => exact ⟨hne, not_lt.mp hle⟩

theorem AttachInput.validate_eq_ok (h : x.validate c = .ok ()) :
    x.validateThumbnail c = .ok () := by
  unfold validate at h
  split at h
  · cases h
  · obtain ⟨_, -, h⟩ := Result.bind_eq_ok_iff.mp h
    obtain ⟨_, -, h⟩ := Result.bind_eq_ok_iff.mp h
    split at h
    · cases h
    · split at h
      · cases h
      · exact h

theorem AttachInput.validate_of_command (h : x.command c = .ok ()) : x.validate c = .ok () := by
  unfold command at h
  split at h
  next => cases h
  next hvalidate => exact hvalidate

theorem AttachInput.thumbnail_ne (h : x.validate c = .ok ()) {t : Thumbnail} {sealed : Bytes}
    (ht : x.sealedThumbnail c = some (t, sealed)) : t.blobId ≠ x.blobId := by
  have hthumbnail := validate_eq_ok h
  unfold validateThumbnail at hthumbnail
  rw [ht] at hthumbnail
  obtain ⟨_, -, hfresh⟩ := Result.bind_eq_ok_iff.mp hthumbnail
  split at hfresh
  next => cases hfresh
  next hne =>
    intro heq
    exact hne (.inr heq)

theorem AttachInput.chunkCount_bounds (hne : x.bytes ≠ [])
    (hlength : x.bytes.length ≤ maxAttachmentBytes) :
    0 < x.chunkCount ∧ (x.chunkCount - 1) * chunkPlaintextLen < x.bytes.length ∧
      x.bytes.length ≤ (x.chunkCount - 1) * chunkPlaintextLen + chunkPlaintextLen := by
  unfold maxAttachmentBytes at hlength
  exact chunkCountFor_bounds (List.length_pos_iff.mpr hne) (by omega)

theorem AttachInput.length_sealed (hne : x.bytes ≠ [])
    (hlength : x.bytes.length ≤ maxAttachmentBytes) : (x.sealed c).length = x.chunkCount := by
  unfold maxAttachmentBytes at hlength
  unfold sealed
  rw [length_sealedFrom, length_pieces hne (by omega)]
  rfl

namespace BlobVault

theorem sealedChunks_recordWrites (hcheck : x.check = .ok ()) (hvalidate : x.validate c = .ok ()) :
    (σ.writes (x.recordWrites c)).sealedChunks x.blobId x.chunkCount = some (x.sealed c) := by
  obtain ⟨hne, hlength⟩ := check_eq_ok hcheck
  have hput : (σ.writes (putWrites (.original (x.attachment c)) 0
      (x.sealed c))).sealedChunks x.blobId x.chunkCount = some (x.sealed c) := by
    rw [← length_sealed (c := c) hne hlength]
    exact sealedChunks_putWrites (.original (x.attachment c))
  rw [← hput]
  refine sealedChunks_congr ?_
  unfold recordWrites chunkWrites
  rw [writes_append, writes_append]
  cases ht : x.sealedThumbnail c with
  | none => rfl
  | some t => exact Function.update_of_ne (thumbnail_ne hvalidate ht).symm _ _

theorem isSome_uploads_recordWrites :
    ((σ.writes (x.recordWrites c)).uploads.find x.blobId).isSome := by
  unfold recordWrites
  rw [writes_append]
  exact isSome_uploads_enqueue (.original (x.attachment c)) _ _

theorem hasAll_of_sealedChunks {b : BlobId} {count : ℕ} {sealed : List Bytes}
    (h : σ.sealedChunks b count = some sealed) : σ.hasAll b count = true := by
  obtain ⟨hlength, hchunks⟩ := sealedChunks_eq_some_iff.mp h
  refine List.all_eq_true.mpr fun i hi => ?_
  rw [hchunks i (by rw [hlength]; exact List.mem_range.mp hi)]
  rfl

end BlobVault

end

/-- A device that holds nothing. -/
def BlobVault.empty : BlobVault := ⟨fun _ _ => none, ∅, ∅, ∅, ∅, 1000000000, true⟩

def AttachInput.text (bytes : Bytes) : AttachInput where
  parentIsTask := true
  parentIsHere := true
  filename := "notes.txt".toList
  mimeType := "text/plain".toList
  bytes := bytes
  width := none
  height := none
  thumbnail := none
  id := 1
  blobKey := [7]
  blobId := 9
  thumbnailKey := [8]
  thumbnailId := 10
  thumbnails := true
  nowMs := 1000

end Sunrise
