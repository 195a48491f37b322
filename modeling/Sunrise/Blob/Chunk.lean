import Sunrise.Lib.Result
import Sunrise.Lib.CborBytes
import Sunrise.Lib.Cut
import Sunrise.Value

/-!
# The chunks of a blob

An attachment's bytes are sealed in pieces of 256 KiB, the last one shorter. A sealed piece is
sixteen bytes longer than what it seals, and is bound to its blob, its place and the number of
pieces; so the pieces of a blob need no framing: whoever knows how many there are can cut the
body where they were joined.

The cipher and the hashes are parameters. The cipher is deterministic in its key, nonce and
bound data, so a ciphertext opens to a plaintext exactly when it is what sealing that plaintext
gives.

* `sealedAt`, `openChunk`, `splitSealed`, `chunkCountFor` — the chunk format.
* `sealedFrom`, `openPieces` — a blob's pieces, one after another.

## Main results

* `openBody_eq_some_iff` — **a body is a blob's exactly when it is the pieces the sealer made**.
-/

namespace Sunrise

def aeadTagLen : ℕ := 16

/-- The cipher and the hashes of a blob. -/
structure BlobCrypto where
  /-- XChaCha20-Poly1305: seal a plaintext under a key and a nonce, and bind data to it. -/
  aeadSeal : (key nonce plaintext aad : Bytes) → Bytes
  aeadOpen : (key nonce ciphertext aad : Bytes) → Option Bytes
  deriveKey : Bytes → Bytes
  blake3 : Bytes → Bytes
  aeadOpen_eq_some : ∀ key nonce ciphertext aad plaintext,
    aeadOpen key nonce ciphertext aad = some plaintext ↔
      ciphertext = aeadSeal key nonce plaintext aad
  length_aeadSeal : ∀ key nonce plaintext aad,
    (aeadSeal key nonce plaintext aad).length = plaintext.length + aeadTagLen

/-- A blob's id: sixteen bytes, read as a number. -/
abbrev BlobId := ℕ

def chunkPlaintextLen : ℕ := 256 * 1024

def sealedChunkLen : ℕ := chunkPlaintextLen + aeadTagLen

/-- What can be wrong with a chunk. -/
inductive BlobChunkError where
  | indexOutOfRange (idx count : ℕ)
  | emptyBlob
  | authFailed
  | contentHashMismatch
deriving DecidableEq, Repr

/-- The data bound to a chunk: `{1: blob_id, 2: chunk_idx, 3: chunk_count}`. -/
def chunkAad (blobId : BlobId) (idx count : ℕ) : Bytes :=
  Cbor.write (.map [
    (.scalar (.integer 1), .scalar (.bytes (Cbor.bigEndian 16 blobId))),
    (.scalar (.integer 2), .scalar (.integer idx)),
    (.scalar (.integer 3), .scalar (.integer count))])

/-- How many chunks a plaintext splits into. -/
def chunkCountFor (sizeBytes : ℕ) : ℕ :=
  min ((sizeBytes + chunkPlaintextLen - 1) / chunkPlaintextLen) (2 ^ 32 - 1)

def pieces (bytes : Bytes) : List Bytes :=
  if bytes = [] then []
  else bytes.cut chunkPlaintextLen ((bytes.length + chunkPlaintextLen - 1) / chunkPlaintextLen - 1)

def splitSealed (body : Bytes) (count : ℕ) : Option (List Bytes) :=
  if count = 0 then none
  else
    let headLen := (count - 1) * sealedChunkLen
    if body.length ≤ headLen ∨ headLen + sealedChunkLen < body.length then none
    else some (body.cut sealedChunkLen (count - 1))

/-- A place must be among the chunks. -/
def checkRange (idx count : ℕ) : Except BlobChunkError Unit :=
  if count = 0 then .error .emptyBlob
  else if count ≤ idx then .error (.indexOutOfRange idx count)
  else .ok ()

section

variable (c : BlobCrypto) (key : Bytes) (blobId : BlobId)

def chunkNonce (idx count : ℕ) : Bytes := c.deriveKey (key ++ chunkAad blobId idx count)

/-- The ciphertext of a chunk, which is among the chunks and no longer than one. -/
def sealedAt (count idx : ℕ) (plaintext : Bytes) : Bytes :=
  c.aeadSeal key (chunkNonce c key blobId idx count) plaintext (chunkAad blobId idx count)

def openChunk (idx count : ℕ) (ciphertext : Bytes) : Except BlobChunkError Bytes := do
  checkRange idx count
  match c.aeadOpen key (chunkNonce c key blobId idx count) ciphertext
      (chunkAad blobId idx count) with
  | none => throw .authFailed
  | some plaintext => return plaintext

def openPieces (count : ℕ) : ℕ → List Bytes → Except BlobChunkError (List Bytes)
  | _, [] => return []
  | idx, piece :: rest => do
    let plaintext ← openChunk c key blobId idx count piece
    let more ← openPieces count (idx + 1) rest
    return plaintext :: more

/-- The ciphertexts of pieces, from a place on. -/
def sealedFrom (count : ℕ) : ℕ → List Bytes → List Bytes
  | _, [] => []
  | idx, piece :: rest => sealedAt c key blobId count idx piece :: sealedFrom count (idx + 1) rest

def contentHash (plaintext : Bytes) : Bytes := c.blake3 plaintext

/-- A plaintext must hash to what the metadata claims. -/
def verifyContent (plaintext claimed : Bytes) : Except BlobChunkError Unit :=
  if contentHash c plaintext = claimed then .ok () else .error .contentHashMismatch

/-- The hash of the joined ciphertext, after which the relay names the blob. -/
def ciphertextHash (sealed : List Bytes) : Bytes := c.blake3 sealed.flatten

/-- The chunks of a fetched body, when every one opens and they open to what the hash claims. -/
def openBody (count : ℕ) (claimed body : Bytes) : Option (List Bytes) :=
  (splitSealed body count).bind fun sealed =>
    (openPieces c key blobId count 0 sealed).toOption.bind fun plaintext =>
      (verifyContent c plaintext.flatten claimed).toOption.map fun _ => sealed

end

/-! ### Counting -/

theorem sealedChunkLen_sub : sealedChunkLen - aeadTagLen = chunkPlaintextLen :=
  Nat.add_sub_cancel ..

theorem chunkCountFor_eq {n : ℕ} (h : n ≤ 2 ^ 32) :
    chunkCountFor n = (n + chunkPlaintextLen - 1) / chunkPlaintextLen := by
  unfold chunkCountFor chunkPlaintextLen
  omega

theorem chunkCountFor_bounds {n : ℕ} (hpos : 0 < n) (h : n ≤ 2 ^ 32) :
    0 < chunkCountFor n ∧ (chunkCountFor n - 1) * chunkPlaintextLen < n ∧
      n ≤ (chunkCountFor n - 1) * chunkPlaintextLen + chunkPlaintextLen := by
  rw [chunkCountFor_eq h]
  unfold chunkPlaintextLen
  omega

theorem flatten_pieces (bytes : Bytes) : (pieces bytes).flatten = bytes := by
  unfold pieces
  split
  next h => rw [h, List.flatten_nil]
  next => exact List.flatten_cut _ _ _

theorem map_length_pieces {bytes : Bytes} (hne : bytes ≠ []) (h : bytes.length ≤ 2 ^ 32) :
    (pieces bytes).map List.length =
      List.replicate (chunkCountFor bytes.length - 1) chunkPlaintextLen ++
        [bytes.length - (chunkCountFor bytes.length - 1) * chunkPlaintextLen] := by
  have hbounds := chunkCountFor_bounds (List.length_pos_iff.mpr hne) h
  unfold pieces
  rw [if_neg hne, ← chunkCountFor_eq h]
  exact List.map_length_cut hbounds.2.1.le

theorem length_pieces {bytes : Bytes} (hne : bytes ≠ []) (h : bytes.length ≤ 2 ^ 32) :
    (pieces bytes).length = chunkCountFor bytes.length := by
  have hbounds := chunkCountFor_bounds (List.length_pos_iff.mpr hne) h
  unfold pieces
  rw [if_neg hne, List.length_cut, ← chunkCountFor_eq h]
  omega

/-! ### Sealing and opening -/

section

variable {c : BlobCrypto} {key : Bytes} {blobId : BlobId} {count idx : ℕ}

theorem toOption_eq_some_iff {ε α : Type} {x : Except ε α} {a : α} :
    x.toOption = some a ↔ x = .ok a := by
  cases x <;> simp [Except.toOption]

theorem verifyContent_eq_ok_iff {plaintext claimed : Bytes} {u : Unit} :
    verifyContent c plaintext claimed = .ok u ↔ contentHash c plaintext = claimed := by
  unfold verifyContent
  split <;> simp [*]

theorem checkRange_eq_ok_iff : checkRange idx count = .ok () ↔ idx < count := by
  unfold checkRange
  split
  next h => simp [h]
  next =>
    split
    next h => simp [not_lt.mpr h]
    next h => simp [not_le.mp h]

theorem openChunk_eq_ok_iff {s p : Bytes} :
    openChunk c key blobId idx count s = .ok p ↔
      idx < count ∧ s = sealedAt c key blobId count idx p := by
  unfold openChunk
  by_cases hidx : idx < count
  · rw [checkRange_eq_ok_iff.mpr hidx]
    unfold sealedAt
    rw [← c.aeadOpen_eq_some]
    cases c.aeadOpen key (chunkNonce c key blobId idx count) s (chunkAad blobId idx count) with
    | none => simp [bind, Except.bind, throw, throwThe, MonadExceptOf.throw]
    | some p' => simp [bind, Except.bind, pure, Except.pure, hidx]
  · cases hrange : checkRange idx count with
    | ok u => exact absurd (checkRange_eq_ok_iff.mp hrange) hidx
    | error e => simp [bind, Except.bind, hidx]

/-- **What opens is what was sealed**, each piece at its own place. -/
theorem openPieces_eq_ok_iff {ss ps : List Bytes} :
    openPieces c key blobId count idx ss = .ok ps ↔
      (ss ≠ [] → idx + ss.length ≤ count) ∧ ss = sealedFrom c key blobId count idx ps := by
  induction ss generalizing idx ps with
  | nil =>
    cases ps with
    | nil => simp [openPieces, sealedFrom, pure, Except.pure]
    | cons p ps => simp [openPieces, sealedFrom, pure, Except.pure]
  | cons s ss ih =>
    rw [openPieces]
    cases hopen : openChunk c key blobId idx count s with
    | error e =>
      -- then there is no such piece
      have hfalse : ∀ q qs, idx + (s :: ss).length ≤ count →
          s :: ss ≠ sealedFrom c key blobId count idx (q :: qs) := by
        intro q qs hcount heq
        injection heq with hs _
        rw [List.length_cons] at hcount
        rw [openChunk_eq_ok_iff.mpr ⟨by omega, hs⟩] at hopen
        cases hopen
      constructor
      · intro h
        cases h
      · rintro ⟨hcount, heq⟩
        cases ps with
        | nil => cases heq
        | cons q qs => exact absurd heq (hfalse q qs (hcount (List.cons_ne_nil _ _)))
    | ok q =>
      obtain ⟨hidx, hs⟩ := openChunk_eq_ok_iff.mp hopen
      show (openPieces c key blobId count (idx + 1) ss >>= fun more => pure (q :: more)) = _ ↔ _
      constructor
      · intro h
        cases hmore : openPieces c key blobId count (idx + 1) ss with
        | error e =>
          rw [hmore] at h
          cases h
        | ok more =>
          rw [hmore] at h
          obtain rfl := Except.ok.inj h
          obtain ⟨hcount, heq⟩ := ih.mp hmore
          refine ⟨fun _ => ?_, by rw [sealedFrom, ← hs, ← heq]⟩
          rw [List.length_cons]
          cases ss with
          | nil =>
            rw [List.length_nil]
            omega
          | cons s' ss' =>
            have := hcount (List.cons_ne_nil _ _)
            omega
      · rintro ⟨hcount, heq⟩
        cases ps with
        | nil => cases heq
        | cons q' qs =>
          rw [sealedFrom] at heq
          injection heq with hs' hrest
          have hq : openChunk c key blobId idx count s = .ok q' :=
            openChunk_eq_ok_iff.mpr ⟨hidx, hs'⟩
          rw [hopen] at hq
          obtain rfl := Except.ok.inj hq
          have hcount' := hcount (List.cons_ne_nil _ _)
          rw [List.length_cons] at hcount'
          have hmore : openPieces c key blobId count (idx + 1) ss = .ok qs :=
            ih.mpr ⟨fun _ => by omega, hrest⟩
          rw [hmore]
          rfl

theorem map_length_sealedFrom (ps : List Bytes) :
    (sealedFrom c key blobId count idx ps).map List.length =
      ps.map fun p => p.length + aeadTagLen := by
  induction ps generalizing idx with
  | nil => rfl
  | cons p ps ih =>
    rw [sealedFrom, List.map_cons, List.map_cons, ih]
    congr 1
    exact c.length_aeadSeal ..

theorem map_length_sealedFrom_of {ps : List Bytes} {m : ℕ}
    (h : ps.map List.length = List.replicate (count - 1) chunkPlaintextLen ++ [m]) :
    (sealedFrom c key blobId count idx ps).map List.length =
      List.replicate (count - 1) sealedChunkLen ++ [m + aeadTagLen] := by
  have hmap := congrArg (List.map (· + aeadTagLen)) h
  rw [List.map_map, List.map_append, List.map_replicate, List.map_singleton] at hmap
  exact (map_length_sealedFrom ps).trans hmap

theorem map_length_of_sealedFrom {ps : List Bytes} {m : ℕ}
    (h : (sealedFrom c key blobId count idx ps).map List.length =
      List.replicate (count - 1) sealedChunkLen ++ [m]) :
    ps.map List.length = List.replicate (count - 1) chunkPlaintextLen ++ [m - aeadTagLen] := by
  rw [map_length_sealedFrom] at h
  have hmap := congrArg (List.map (· - aeadTagLen)) h
  rw [List.map_map, List.map_append, List.map_replicate, List.map_singleton,
    sealedChunkLen_sub] at hmap
  rw [← hmap]
  refine List.map_congr_left fun p _ => ?_
  exact (Nat.add_sub_cancel ..).symm

theorem length_sealedFrom (ps : List Bytes) :
    (sealedFrom c key blobId count idx ps).length = ps.length := by
  have h := congrArg List.length (@map_length_sealedFrom c key blobId count idx ps)
  rwa [List.length_map, List.length_map] at h

theorem splitSealed_eq_some_iff {body : Bytes} {ss : List Bytes} :
    splitSealed body count = some ss ↔ 0 < count ∧ (count - 1) * sealedChunkLen < body.length ∧
      body.length ≤ (count - 1) * sealedChunkLen + sealedChunkLen ∧
      ss = body.cut sealedChunkLen (count - 1) := by
  unfold splitSealed
  split
  next h => simp [h]
  next h =>
    dsimp only
    split
    next hbad =>
      constructor
      · intro hnone
        cases hnone
      · rintro ⟨-, hlt, hle, -⟩
        omega
    next hgood =>
      rw [Option.some_inj]
      constructor
      · rintro rfl
        exact ⟨by omega, by omega, by omega, rfl⟩
      · rintro ⟨-, -, -, rfl⟩
        rfl

theorem length_of_openBody {claimed body : Bytes} {ss : List Bytes}
    (h : openBody c key blobId count claimed body = some ss) : ss.length = count := by
  obtain ⟨sealed, hsplit, h⟩ := Option.bind_eq_some_iff.mp h
  obtain ⟨plain, -, h⟩ := Option.bind_eq_some_iff.mp h
  obtain ⟨u, -, rfl⟩ := Option.map_eq_some_iff.mp h
  obtain ⟨hpos, -, -, rfl⟩ := splitSealed_eq_some_iff.mp hsplit
  rw [List.length_cut]
  omega

/-- **A body is a blob's exactly when it is the pieces the sealer made**, joined: an unused
tail, a missing one or another cut leaves no room for the plaintext the hash claims. -/
theorem openBody_eq_some_iff (hinj : Function.Injective c.blake3) {bytes body : Bytes}
    {ss : List Bytes} (hne : bytes ≠ []) (hlength : bytes.length ≤ 2 ^ 32) :
    openBody c key blobId (chunkCountFor bytes.length) (contentHash c bytes) body = some ss ↔
      body = ss.flatten ∧
        ss = sealedFrom c key blobId (chunkCountFor bytes.length) 0 (pieces bytes) := by
  have hbounds := chunkCountFor_bounds (List.length_pos_iff.mpr hne) hlength
  have hpieces := map_length_pieces hne hlength
  generalize hcount : chunkCountFor bytes.length = count at hbounds hpieces ⊢
  constructor
  · intro h
    unfold openBody at h
    obtain ⟨sealed, hsplit, h⟩ := Option.bind_eq_some_iff.mp h
    obtain ⟨plain, hopen, h⟩ := Option.bind_eq_some_iff.mp h
    obtain ⟨u, hverify, rfl⟩ := Option.map_eq_some_iff.mp h
    obtain ⟨-, hlt, -, rfl⟩ := splitSealed_eq_some_iff.mp hsplit
    obtain ⟨-, heq⟩ := openPieces_eq_ok_iff.mp (toOption_eq_some_iff.mp hopen)
    -- the plaintexts are of the pieces' lengths, and are the plaintext
    have hflat : plain.flatten = bytes :=
      hinj (verifyContent_eq_ok_iff.mp (toOption_eq_some_iff.mp hverify))
    have hlengths := map_length_of_sealedFrom (heq ▸ List.map_length_cut hlt.le)
    have hplain : plain = pieces bytes := by
      rw [← List.cut_flatten hlengths, ← List.cut_flatten hpieces, hflat, flatten_pieces]
    exact ⟨(List.flatten_cut _ _ _).symm, hplain ▸ heq⟩
  · rintro ⟨rfl, rfl⟩
    have hlengths := @map_length_sealedFrom_of c key blobId count 0 _ _ hpieces
    have htotal := List.length_flatten_of_map_length hlengths
    have hsplit : splitSealed (sealedFrom c key blobId count 0 (pieces bytes)).flatten count =
        some (sealedFrom c key blobId count 0 (pieces bytes)) := by
      refine splitSealed_eq_some_iff.mpr ⟨hbounds.1, ?_, ?_, (List.cut_flatten hlengths).symm⟩
      · rw [htotal]
        unfold aeadTagLen
        omega
      · rw [htotal]
        unfold sealedChunkLen
        omega
    have hopen : openPieces c key blobId count 0 (sealedFrom c key blobId count 0 (pieces bytes)) =
        .ok (pieces bytes) := by
      refine openPieces_eq_ok_iff.mpr ⟨fun _ => ?_, rfl⟩
      rw [length_sealedFrom, length_pieces hne hlength, hcount, Nat.zero_add]
    unfold openBody
    refine Option.bind_eq_some_iff.mpr ⟨_, hsplit, Option.bind_eq_some_iff.mpr
      ⟨_, toOption_eq_some_iff.mpr hopen, Option.map_eq_some_iff.mpr ⟨(), ?_, rfl⟩⟩⟩
    refine toOption_eq_some_iff.mpr (verifyContent_eq_ok_iff.mpr ?_)
    rw [flatten_pieces]

end

/-- A cipher that only adds its tag, and hashes that are what they hash. -/
def BlobCrypto.sample : BlobCrypto where
  aeadSeal _ _ plaintext _ := plaintext ++ List.replicate aeadTagLen 0
  aeadOpen _ _ ciphertext _ :=
    if List.replicate aeadTagLen 0 <:+ ciphertext then
      some (ciphertext.take (ciphertext.length - aeadTagLen))
    else none
  deriveKey material := material
  blake3 bytes := bytes
  aeadOpen_eq_some := by
    intro _ _ ciphertext _ plaintext
    constructor
    · intro h
      split at h
      next hsuffix =>
        obtain ⟨rest, rfl⟩ := hsuffix
        rw [List.length_append, List.length_replicate, Nat.add_sub_cancel,
          List.take_left] at h
        rw [Option.some.inj h]
      next => cases h
    · rintro rfl
      rw [if_pos (List.suffix_append ..), List.length_append, List.length_replicate,
        Nat.add_sub_cancel, List.take_left]
  length_aeadSeal := by
    intro _ _ plaintext _
    rw [List.length_append, List.length_replicate]

end Sunrise
