import Sunrise.Blob.Chunk
import Sunrise.Lib.Text

/-!
# The relay's blobs

A blob reaches the relay one chunk at a time, under an upload id, and is committed when every
chunk hashes to what the client says and so does the whole. Committed, it is named after its
hash, and is read back as one body.

* `BlobRelay.init`, `BlobRelay.putChunk`, `BlobRelay.finalize`, `BlobRelay.fetch` — the routes.
* `BlobRelay.upload` — a blob's chunks in order, and the commit.

## Main results

* `BlobRelay.upload_isOk_iff` — **what the relay accepts** of chunks uploaded in order, and gives
  back.
-/

namespace Sunrise

/-- Why a route refuses. -/
inductive ApiError where
  | validation (message : String)
  | conflict (code message : String)
  | coded (code message : String)
  | notFound (code message : String)
deriving DecidableEq, Repr

def maxChunkBytes : ℕ := 1024 * 1024

def maxChunkCount : ℕ := 4096

def maxBlobBytes : ℕ := 100 * 1000 * 1000

/-- What a committed blob consists of. -/
structure BlobManifest where
  chunkCount : ℕ
  sizeBytes : ℕ
deriving DecidableEq, Repr

/-- An account's blobs. -/
structure BlobRelay where
  pending : ℕ → ℕ → Option Bytes
  committed : Bytes → ℕ → Option Bytes
  manifest : Bytes → Option BlobManifest

def blobKeyOf (contentHash : Bytes) : Bytes := contentHash.take 16

namespace BlobRelay

/-- Reserve an upload. -/
def init (chunkCount sizeBytes : ℕ) : Except ApiError Unit :=
  if chunkCount = 0 ∨ maxChunkCount < chunkCount then
    .error (.validation "chunk_count must be 1..=4096")
  else if maxBlobBytes < sizeBytes then
    .error (.validation "size_bytes exceeds the 100000000-byte per-attachment limit")
  else .ok ()

def putChunk (r : BlobRelay) (upload idx : ℕ) (bytes : Bytes) : Except ApiError BlobRelay :=
  if maxChunkCount ≤ idx then .error (.validation "chunk index must be < 4096")
  else if bytes = [] ∨ maxChunkBytes < bytes.length then
    .error (.validation "chunk must be 1..=1048576 bytes")
  else .ok { r with
    pending := Function.update r.pending upload
      (Function.update (r.pending upload) idx (some bytes)) }

/-- Read the chunks of an upload, from a place on, and check each against its hash. -/
def readPending (blake3 : Bytes → Bytes) (pending : ℕ → Option Bytes) :
    ℕ → List Bytes → Except ApiError (List Bytes)
  | _, [] => return []
  | idx, want :: rest => do
    match pending idx with
    | none => throw (.conflict "BLOB_CHUNK_MISSING" s!"chunk {idx} was never uploaded")
    | some bytes =>
      if blake3 bytes ≠ want then
        throw (.coded "BLOB_HASH_MISMATCH" s!"chunk {idx} hash mismatch")
      let more ← readPending blake3 pending (idx + 1) rest
      return bytes :: more

def finalize (blake3 : Bytes → Bytes) (r : BlobRelay) (upload : ℕ) (contentHash : Bytes)
    (chunkHashes : List Bytes) : Except ApiError BlobRelay :=
  if chunkHashes = [] ∨ maxChunkCount < chunkHashes.length then
    .error (.validation "chunk_hashes must hold 1..=4096 entries")
  else
    match readPending blake3 (r.pending upload) 0 chunkHashes with
    | .error e => .error e
    | .ok chunks =>
      if blake3 chunks.flatten ≠ contentHash then
        .error (.coded "BLOB_HASH_MISMATCH" "content_hash mismatch")
      else if maxBlobBytes < chunks.flatten.length then
        .error (.validation "blob exceeds the 100000000-byte per-attachment limit")
      else .ok { r with
        pending := Function.update r.pending upload fun _ => none
        committed := Function.update r.committed (blobKeyOf contentHash) fun idx =>
          match chunks[idx]? with
          | some bytes => some bytes
          | none => r.committed (blobKeyOf contentHash) idx
        manifest := Function.update r.manifest (blobKeyOf contentHash)
          (some ⟨chunks.length, chunks.flatten.length⟩) }

/-- Read a committed blob as one body. -/
def fetch (r : BlobRelay) (blobKey : Bytes) : Except ApiError Bytes :=
  match r.manifest blobKey with
  | none => .error (.notFound "BLOB_NOT_FOUND" "blob not found")
  | some m =>
    match (List.range m.chunkCount).mapM (r.committed blobKey) with
    | none => .error (.notFound "BLOB_NOT_FOUND" "blob not found")
    | some chunks => .ok chunks.flatten

/-- Store chunks one after another, from a place on. -/
def putChunks (upload : ℕ) : ℕ → BlobRelay → List Bytes → Except ApiError BlobRelay
  | _, r, [] => return r
  | idx, r, bytes :: rest => do
    let r ← r.putChunk upload idx bytes
    putChunks upload (idx + 1) r rest

def upload (c : BlobCrypto) (r : BlobRelay) (upload : ℕ) (chunks : List Bytes)
    (contentHash : Bytes) : Except ApiError BlobRelay := do
  let r ← putChunks upload 0 r chunks
  r.finalize c.blake3 upload contentHash (chunks.map fun bytes => ciphertextHash c [bytes])

/-! ### What is accepted -/

variable {r r' : BlobRelay} {upload idx : ℕ} {chunks : List Bytes}

theorem putChunks_eq_ok (hcount : idx + chunks.length ≤ maxChunkCount)
    (hlength : ∀ b ∈ chunks, b ≠ [] ∧ b.length ≤ maxChunkBytes) :
    ∃ r', putChunks upload idx r chunks = .ok r' ∧
      (∀ i (h : i < chunks.length), r'.pending upload (idx + i) = some (chunks.get ⟨i, h⟩)) ∧
      ∀ i < idx, r'.pending upload i = r.pending upload i := by
  induction chunks generalizing idx r with
  | nil => exact ⟨r, rfl, fun i h => absurd h (Nat.not_lt_zero i), fun _ _ => rfl⟩
  | cons b bs ih =>
    rw [List.length_cons] at hcount
    obtain ⟨hne, hle⟩ := hlength b List.mem_cons_self
    have hput : r.putChunk upload idx b = .ok { r with
        pending := Function.update r.pending upload
          (Function.update (r.pending upload) idx (some b)) } := by
      unfold putChunk
      rw [if_neg (by omega), if_neg (by rintro (h | h); exacts [hne h, absurd h (not_lt.mpr hle)])]
    obtain ⟨r', hr', hrest, hkept⟩ := @ih { r with
        pending := Function.update r.pending upload
          (Function.update (r.pending upload) idx (some b)) } (idx + 1) (by omega)
      fun b' hb' => hlength b' (List.mem_cons_of_mem _ hb')
    have hread : ∀ i, Function.update r.pending upload
        (Function.update (r.pending upload) idx (some b)) upload i =
          if i = idx then some b else r.pending upload i := by
      intro i
      rw [Function.update_self, Function.update_apply]
    refine ⟨r', ?_, fun i hi => ?_, fun i hi => ?_⟩
    · rw [putChunks, hput]
      exact hr'
    · cases i with
      | zero =>
        rw [Nat.add_zero, hkept idx (by omega)]
        exact (hread idx).trans (if_pos rfl)
      | succ i =>
        rw [List.length_cons] at hi
        have h := hrest i (by omega)
        rw [show idx + 1 + i = idx + (i + 1) by omega] at h
        exact h
    · rw [hkept i (by omega)]
      exact (hread i).trans (if_neg (by omega))

theorem readPending_eq_ok {blake3 : Bytes → Bytes} {pending : ℕ → Option Bytes}
    (h : ∀ i (hi : i < chunks.length), pending (idx + i) = some (chunks.get ⟨i, hi⟩)) :
    readPending blake3 pending idx (chunks.map blake3) = .ok chunks := by
  induction chunks generalizing idx with
  | nil => rfl
  | cons b bs ih =>
    have hhead : pending idx = some b := h 0 (Nat.succ_pos _)
    have htail : ∀ i (hi : i < bs.length), pending (idx + 1 + i) = some (bs.get ⟨i, hi⟩) := by
      intro i hi
      have hnext := h (i + 1) (Nat.succ_lt_succ hi)
      rw [show idx + (i + 1) = idx + 1 + i by omega] at hnext
      exact hnext
    rw [List.map_cons, readPending, hhead]
    simp only [ne_eq, not_true_eq_false, if_false]
    rw [ih htail]
    rfl

/-- **What the relay accepts**, of chunks within its limits uploaded in order under their
hashes: what is not too long in all. -/
theorem upload_isOk_iff (c : BlobCrypto) (hne : chunks ≠ [])
    (hcount : chunks.length ≤ maxChunkCount)
    (hlength : ∀ b ∈ chunks, b ≠ [] ∧ b.length ≤ maxChunkBytes) :
    (∃ r', r.upload c upload chunks (ciphertextHash c chunks) = .ok r' ∧
      r'.fetch (blobKeyOf (ciphertextHash c chunks)) = .ok chunks.flatten) ↔
      chunks.flatten.length ≤ maxBlobBytes := by
  obtain ⟨mid, hput, hpending, -⟩ :=
    @putChunks_eq_ok r upload 0 _ (by omega) hlength
  have hread : readPending c.blake3 (mid.pending upload) 0
      (chunks.map fun bytes => ciphertextHash c [bytes]) = .ok chunks := by
    have hmap : (chunks.map fun bytes => ciphertextHash c [bytes]) = chunks.map c.blake3 := by
      refine List.map_congr_left fun b _ => ?_
      unfold ciphertextHash
      rw [List.flatten_singleton]
    rw [hmap]
    exact readPending_eq_ok hpending
  have hupload : r.upload c upload chunks (ciphertextHash c chunks) =
      mid.finalize c.blake3 upload (ciphertextHash c chunks)
        (chunks.map fun bytes => ciphertextHash c [bytes]) := by
    unfold BlobRelay.upload
    rw [hput]
    rfl
  rw [hupload]
  unfold finalize
  rw [if_neg, hread]
  swap
  · rw [List.map_eq_nil_iff, List.length_map]
    rintro (h | h)
    · exact hne h
    · omega
  dsimp only
  rw [if_neg (by unfold ciphertextHash; exact not_not.mpr rfl)]
  split
  next hlong =>
    constructor
    · rintro ⟨r', h, -⟩
      cases h
    · intro h
      omega
  next hshort =>
    refine ⟨fun _ => not_lt.mp hshort, fun _ => ⟨_, rfl, ?_⟩⟩
    unfold fetch
    simp only [Function.update_self]
    have hall : (List.range chunks.length).mapM (fun idx =>
        match chunks[idx]? with
        | some bytes => some bytes
        | none => mid.committed (blobKeyOf (ciphertextHash c chunks)) idx) = some chunks := by
      rw [Text.mapM_eq_some_iff, List.forall₂_iff_get]
      refine ⟨by rw [List.length_range], fun i hi hi' => ?_⟩
      rw [List.get_eq_getElem, List.getElem_range, List.getElem?_eq_getElem hi']
      rfl
    rw [hall]

end BlobRelay

end Sunrise
