import Sunrise.Blob.Cache

/-!
# Downloads that somebody asked for

A download is a row: requested until its bytes are here, a client cancels it or the relay has
failed it often enough, and marked partial in the last two cases. One driver asks the relay for
the oldest requests that are due, and then, unasked, for small attachments. Between any two of
its steps clients ask, cancel and ask again, and attachments arrive and are deleted.

Nothing but the driver's own store ends a request whose attachment is deleted or gets its bytes
another way: such a row stays requested, and takes a place in every batch.

* `fetchRetryDue`, `Fetcher.requestedBlobFetches` — what a drain takes up.

## Main results

* `FetchRun.answers` — **in orderly runs every request is of an attachment that can be fetched,
  drains take the oldest, and every request that ends is answered**.
-/

namespace Sunrise

open BlobCrypto

/-- How many requests a drain reads. -/
def maxFetchScan : ℕ := 512

/-- How many it takes up. -/
def maxFetchesPerDrain : ℕ := 4

/-- How often a request may fail. -/
def maxFetchAttempts : ℕ := 10

/-- The state of a request's row. -/
inductive FetchState where
  | requested
  /-- Marked `partial`: cancelled, or failed too often. -/
  | parked
deriving DecidableEq, Repr

/-- A row of `blob_fetches`. -/
structure FetchRow where
  state : FetchState
  requestedAtMs : ℕ
  attempts : ℕ
  lastAttemptMs : Option ℕ
deriving DecidableEq, Repr

/-- How a request ended. -/
inductive FetchOutcome where
  | fetched
  | cancelled
  | unavailable
deriving DecidableEq, Repr

/-- What the relay answers. -/
inductive BlobAnswer where
  | body (bytes : Bytes)
  | absent
  | failed
  | unsupported
deriving DecidableEq, Repr

/-- How long a request waits after it failed. -/
def fetchRetryDelayMs : ℕ → ℕ
  | 0 => 0
  | n + 1 => min (500 * 2 ^ min n 16) 30000

def fetchRetryDue (attempts : ℕ) (lastAttemptMs : Option ℕ) (nowMs : ℕ) : Bool :=
  match lastAttemptMs with
  | none => true
  | some last =>
    if nowMs < last then true else fetchRetryDelayMs attempts ≤ nowMs - last

/-- Where the driver is. -/
inductive FetchDriver where
  | idle
  | requested (rest : List Attachment)
  | transferring (a : Attachment) (rest : List Attachment)
  | cancelling (a : Attachment) (rest : List Attachment)
  | automatic (rest : List BlobRef)

/-- The tables, the signals and the calls under way. -/
structure Fetcher where
  vault : BlobVault
  /-- `blob_fetches`. -/
  rows : Table AttachmentId FetchRow
  /-- The attachments a client asked to stop fetching. -/
  cancelled : List AttachmentId
  outcomes : List (AttachmentId × FetchOutcome)
  driver : FetchDriver
  asking : List AttachmentId
  /-- and those that have cleared their flag and have no row yet. -/
  enqueuing : List AttachmentId
  /-- The cancellations that have set their flag and not yet marked the row. -/
  cancelling : List AttachmentId

/-- An attachment to be fetched: not deleted, on the relay, and not on disk. -/
def BlobVault.wants (v : BlobVault) (a : Attachment) : Bool :=
  !a.deleted && a.isFetchable && !v.hasAll a.blobId a.chunkCount

open BlobVault

/-- The blobs that might be fetched unasked. -/
def BlobVault.awaiting (v : BlobVault) : List BlobRef :=
  (v.attachments.rows.filter fun a => !a.2.deleted).flatMap fun a =>
    (BlobRef.original a.2 :: (BlobRef.thumbnail a.2).toList).filter fun r =>
      !v.hasAll r.blobId r.chunkCount

/-- Remove a blob's chunks unless every one of them is there. -/
def BlobVault.discardPartialBlob (v : BlobVault) (a : Attachment) : BlobVault :=
  if v.hasAll a.blobId a.chunkCount then v else v.write (.discard a.blobId)

namespace Fetcher

variable (σ : Fetcher)

def isRequested (id : AttachmentId) : Bool :=
  (σ.rows.find id).any fun row => row.state = .requested

def askedAt (r : AttachmentId × FetchRow) : ℕ ×ₗ ℕ := toLex (r.2.requestedAtMs, r.1)

def requestedRows : List (AttachmentId × FetchRow) :=
  (σ.rows.rows.filter fun r => r.2.state = .requested).insertionSort fun r s =>
    askedAt r ≤ askedAt s

def isDue (nowMs : ℕ) (r : AttachmentId × FetchRow) : Bool :=
  fetchRetryDue r.2.attempts r.2.lastAttemptMs nowMs

/-- What a drain takes up: of the requests it reads, the first that are due, and of these the
attachments that are to be fetched. -/
def requestedBlobFetches (nowMs : ℕ) : List Attachment :=
  ((((σ.requestedRows.take maxFetchScan).filter (isDue nowMs)).take
    maxFetchesPerDrain).filterMap fun r => σ.vault.attachments.find r.1).filter σ.vault.wants

def oldestDue (nowMs : ℕ) : List Attachment :=
  (((σ.requestedRows.filter (isDue nowMs)).filterMap fun r =>
    σ.vault.attachments.find r.1).filter σ.vault.wants).take maxFetchesPerDrain

def setRow (id : AttachmentId) (row : FetchRow) : Fetcher :=
  { σ with rows := σ.rows.upsert id row }

def publish (id : AttachmentId) (outcome : FetchOutcome) : Fetcher :=
  { σ with outcomes := σ.outcomes ++ [(id, outcome)] }

/-- Mark a request partial, if it still runs, and publish how it ended. -/
def markPartial (id : AttachmentId) (outcome : FetchOutcome) : Fetcher :=
  match σ.rows.find id with
  | some row =>
    if row.state = .requested then
      (σ.setRow id { row with state := .parked }).publish id outcome
    else σ
  | none => σ

def markQuietly (id : AttachmentId) : Fetcher :=
  { σ with rows := (σ.markPartial id .cancelled).rows }

def clearFlag (id : AttachmentId) : Fetcher :=
  { σ with cancelled := σ.cancelled.filter (· ≠ id) }

def discard (a : Attachment) : Fetcher := { σ with vault := σ.vault.discardPartialBlob a }

/-- Park a request and tell whoever waits. -/
def park (a : Attachment) : Fetcher :=
  ((σ.discard a).markPartial a.id .unavailable).clearFlag a.id

def noteCancelled (a : Attachment) : Fetcher :=
  ((σ.discard a).markQuietly a.id).clearFlag a.id

/-- Count one failed attempt, and park the request if that was the last one. -/
def countFailure (a : Attachment) (nowMs : ℕ) : Fetcher :=
  match σ.rows.find a.id with
  | none => σ
  | some row =>
    let τ := σ.setRow a.id { row with attempts := row.attempts + 1, lastAttemptMs := some nowMs }
    if maxFetchAttempts ≤ row.attempts + 1 then τ.park a else τ

/-- A body is stored: its request is done. -/
def finish (a : Attachment) : Fetcher :=
  (({ σ with rows := σ.rows.erase a.id } : Fetcher).clearFlag a.id).publish a.id .fetched

end Fetcher

/-- What can happen. -/
inductive FetchStep where
  /-- A client asks for an attachment: what is checked first. -/
  | ask (id : AttachmentId) (syncIsActive : Bool)
  | clearCancel (id : AttachmentId)
  | enqueue (id : AttachmentId) (nowMs : ℕ)
  | requestCancel (id : AttachmentId)
  | markCancelled (id : AttachmentId)
  | drain (nowMs : ℕ)
  | next
  | noticeCancel
  | noteCancelled
  /-- The relay answers it; and how many of the store's writes succeed. -/
  | answer (answer : BlobAnswer) (nowMs done : ℕ)
  /-- It goes over to the blobs it fetches unasked: which, the network and the preferences
  decide. -/
  | awaitBytes (wanted : List BlobRef)
  | answerUnasked (answer : BlobAnswer) (nowMs done : ℕ)
  | complete
  /-- An attachment's row is written: another device's, or a tombstone. -/
  | arrive (a : Attachment)

namespace Fetcher

variable (c : BlobCrypto) (σ : Fetcher)

/-- A body arrived for a blob: it is stored, if it is the blob's, up to a failure; and whether
all of it was. -/
def store (r : BlobRef) (body : Bytes) (nowMs done : ℕ) : Fetcher × Bool :=
  match openBody c r.blobKey r.blobId r.chunkCount r.contentHash body with
  | none => (σ, false)
  | some sealed =>
    let ws := σ.vault.fetchWrites r sealed nowMs
    ({ σ with vault := σ.vault.writes (ws.take done) }, ws.length ≤ done)

def answered (a : Attachment) (rest : List Attachment) (nowMs done : ℕ) : BlobAnswer → Fetcher
  | .unsupported => { σ with driver := .idle }
  | .absent | .failed => { σ.countFailure a nowMs with driver := .requested rest }
  | .body body =>
    let τ := σ.store c (.original a) body nowMs done
    if τ.2 then { τ.1.finish a with driver := .requested rest }
    else { τ.1.countFailure a nowMs with driver := .requested rest }

def answeredUnasked (r : BlobRef) (rest : List BlobRef) (nowMs done : ℕ) : BlobAnswer → Fetcher
  | .unsupported => { σ with driver := .idle }
  | .absent | .failed => { σ with driver := .automatic rest }
  | .body body => { (σ.store c r body nowMs done).1 with driver := .automatic rest }

/-- What is checked of a request: one for bytes that are here only forgets its row. -/
def ask (id : AttachmentId) (syncIsActive : Bool) : Fetcher :=
  match σ.vault.attachmentRow id with
  | .error _ => σ
  | .ok a =>
    if σ.vault.hasAll a.blobId a.chunkCount then { σ with rows := σ.rows.erase id }
    else if !a.isFetchable then σ
    else if !syncIsActive then σ
    else { σ with asking := id :: σ.asking }

/-- One step, where it can be made. -/
def step : FetchStep → Option Fetcher
  | .ask id syncIsActive => some (σ.ask id syncIsActive)
  | .clearCancel id =>
    if id ∈ σ.asking then
      some { σ.clearFlag id with
        asking := σ.asking.erase id
        enqueuing := id :: σ.enqueuing }
    else none
  | .enqueue id nowMs =>
    if id ∈ σ.enqueuing then
      some { σ with
        enqueuing := σ.enqueuing.erase id
        rows := σ.rows.upsert id ⟨.requested, nowMs, 0, none⟩ }
    else none
  | .requestCancel id =>
    some { σ with cancelled := id :: σ.cancelled, cancelling := id :: σ.cancelling }
  | .markCancelled id =>
    if id ∈ σ.cancelling then
      some { σ.markPartial id .cancelled with cancelling := σ.cancelling.erase id }
    else none
  | .drain nowMs =>
    match σ.driver with
    | .idle => some { σ with driver := .requested (σ.requestedBlobFetches nowMs) }
    | _ => none
  | .next =>
    match σ.driver with
    | .requested (a :: rest) =>
      if a.id ∈ σ.cancelled then some { σ with driver := .cancelling a rest }
      else
        match a.relayBlobId with
        | none => some { σ.park a with driver := .requested rest }
        | some _ => some { σ with driver := .transferring a rest }
    | _ => none
  | .noticeCancel =>
    match σ.driver with
    | .transferring a rest =>
      if a.id ∈ σ.cancelled then some { σ with driver := .cancelling a rest } else none
    | _ => none
  | .noteCancelled =>
    match σ.driver with
    | .cancelling a rest => some { σ.noteCancelled a with driver := .requested rest }
    | _ => none
  | .answer answer nowMs done =>
    match σ.driver with
    | .transferring a rest => some (σ.answered c a rest nowMs done answer)
    | _ => none
  | .awaitBytes wanted =>
    match σ.driver with
    | .requested [] =>
      if wanted ⊆ σ.vault.awaiting ∧ wanted.length ≤ maxFetchesPerDrain then
        some { σ with driver := .automatic wanted }
      else none
    | _ => none
  | .answerUnasked answer nowMs done =>
    match σ.driver with
    | .automatic (r :: rest) => some (σ.answeredUnasked c r rest nowMs done answer)
    | _ => none
  | .complete =>
    match σ.driver with
    | .automatic [] => some { σ with driver := .idle }
    | _ => none
  | .arrive a => some { σ with vault := σ.vault.write (.record a) }

/-- A request runs, or is under way. -/
def Asked (id : AttachmentId) : Prop :=
  σ.isRequested id = true ∨ id ∈ σ.asking ∨ id ∈ σ.enqueuing

/-- The first chunks of a blob do not complete an attachment. -/
def Spares (b : BlobId) (done : ℕ) (a : Attachment) : Prop :=
  a.blobId = b → ∃ i, done ≤ i ∧ i < a.chunkCount ∧ σ.vault.chunks b i = none

def Opens (r : BlobRef) (body : Bytes) : Prop :=
  (openBody c r.blobKey r.blobId r.chunkCount r.contentHash body).isSome = true

/-- Nothing but the driver's own store ends a request that runs or is under way: its attachment is
not deleted, and its blob is not completed for another, nor by a store that fails, nor while the
request for it is under way; a cancellation marks its row before the driver does; and a drain
reads every request. -/
def Orderly : FetchStep → Prop
  | .arrive a => σ.Asked a.id → σ.vault.wants a = true
  | .drain _ => σ.requestedRows.length ≤ maxFetchScan
  | .noteCancelled => ∀ a rest, σ.driver = .cancelling a rest → σ.isRequested a.id = false
  | .answer (.body body) nowMs done => ∀ a rest, σ.driver = .transferring a rest →
    Opens c (.original a) body → ∀ id a', σ.vault.attachments.find id = some a' → σ.Asked id →
      (id = a.id ∧ id ∉ σ.asking ∧ id ∉ σ.enqueuing ∧
        (σ.store c (.original a) body nowMs done).2 = true) ∨ σ.Spares a.blobId done a'
  | .answerUnasked (.body body) _ done => ∀ r rest, σ.driver = .automatic (r :: rest) →
    Opens c r body → ∀ id a', σ.vault.attachments.find id = some a' → σ.Asked id →
      σ.Spares r.blobId done a'
  | _ => True

/-- What holds of the requests: each attachment has its own id, and one that was asked for is to
be fetched. -/
structure Inv (σ : Fetcher) : Prop where
  keyed : ∀ id a, σ.vault.attachments.find id = some a → a.id = id
  wanted : ∀ id, σ.Asked id → ∃ a, σ.vault.attachments.find id = some a ∧ σ.vault.wants a = true

/-! ### What a store leaves -/

variable {c : BlobCrypto} {σ τ : Fetcher} {v v' : BlobVault} {a a' : Attachment} {r : BlobRef}
  {b : BlobId} {i done nowMs : ℕ} {id : AttachmentId} {body : Bytes} {ws : List BlobWrite}

theorem isSome_chunks_write {w : BlobWrite} (h : ((v.write w).chunks b i).isSome = true) :
    (v.chunks b i).isSome = true ∨ ∃ r bytes, r.blobId = b ∧ w = .putChunk r i bytes := by
  cases w with
  | putChunk r idx bytes =>
    change ((v.setChunks r.blobId _).chunks b i).isSome = true at h
    rw [chunks_setChunks] at h
    split at h
    next heq =>
      rw [Function.update_apply] at h
      split at h
      next hidx => exact .inr ⟨r, bytes, heq.symm, by rw [hidx]⟩
      next =>
        rw [heq]
        exact .inl h
    next => exact .inl h
  | deleteAll b' spared =>
    change ((v.setChunks b' _).chunks b i).isSome = true at h
    rw [chunks_setChunks] at h
    split at h
    · cases h
    · exact .inl h
  | discard b' =>
    change ((v.setChunks b' _).chunks b i).isSome = true at h
    rw [chunks_setChunks] at h
    split at h
    · cases h
    · exact .inl h
  | _ => exact .inl h

theorem isSome_chunks_writes (h : ((v.writes ws).chunks b i).isSome = true) :
    (v.chunks b i).isSome = true ∨ ∃ r bytes, r.blobId = b ∧ .putChunk r i bytes ∈ ws := by
  induction ws generalizing v with
  | nil => exact .inl h
  | cons w ws ih =>
    rcases ih h with h | ⟨r, bytes, hr, hmem⟩
    · rcases isSome_chunks_write h with h | ⟨r, bytes, hr, rfl⟩
      · exact .inl h
      · exact .inr ⟨r, bytes, hr, List.mem_cons_self⟩
    · exact .inr ⟨r, bytes, hr, List.mem_cons_of_mem _ hmem⟩

theorem putChunk_mem_take {r' : BlobRef} {idx : ℕ} {bytes : Bytes} {sealed : List Bytes}
    (h : .putChunk r' i bytes ∈ (putWrites r idx sealed).take done) :
    r' = r ∧ i < idx + done := by
  induction sealed generalizing idx done with
  | nil =>
    rw [putWrites, List.take_nil] at h
    cases h
  | cons s rest ih =>
    cases done with
    | zero => cases h
    | succ done =>
      rcases List.mem_cons.mp h with h | h
      · obtain ⟨rfl, rfl, -⟩ := BlobWrite.putChunk.inj h
        exact ⟨rfl, by omega⟩
      · obtain ⟨heq, hlt⟩ := ih h
        exact ⟨heq, by omega⟩

theorem putChunk_mem_fetchWrites {r' : BlobRef} {bytes : Bytes} {sealed : List Bytes}
    (h : .putChunk r' i bytes ∈ (v.fetchWrites r sealed nowMs).take done) :
    r' = r ∧ i < done := by
  unfold fetchWrites at h
  rw [List.take_append] at h
  rcases List.mem_append.mp h with h | h
  · have hput := putChunk_mem_take h
    exact ⟨hput.1, by omega⟩
  · rcases mem_noteWrites (List.mem_of_mem_take h) with h | ⟨row, -, -, h | h⟩ <;> cases h

theorem attachments_take_fetchWrites {sealed : List Bytes} :
    (v.writes ((v.fetchWrites r sealed nowMs).take done)).attachments = v.attachments := by
  refine writes_keep (f := attachments) fun w hw τ => ?_
  rcases List.mem_append.mp (List.mem_of_mem_take hw) with hw | hw
  · obtain ⟨i, bytes, rfl⟩ := mem_putWrites hw
    rfl
  · rcases mem_noteWrites hw with rfl | ⟨row, -, -, rfl | rfl⟩ <;> rfl

theorem store_spec (σ : Fetcher) (r : BlobRef) (body : Bytes) (nowMs done : ℕ) :
    (∃ v, (σ.store c r body nowMs done).1 = { σ with vault := v }) ∧
    (σ.store c r body nowMs done).1.vault.attachments = σ.vault.attachments ∧
    ∀ b i, ((σ.store c r body nowMs done).1.vault.chunks b i).isSome = true →
      (σ.vault.chunks b i).isSome = true ∨ (Opens c r body ∧ r.blobId = b ∧ i < done) := by
  unfold store
  split
  next => exact ⟨⟨_, rfl⟩, rfl, fun b i h => .inl h⟩
  next sealed hopen =>
    refine ⟨⟨_, rfl⟩, attachments_take_fetchWrites, fun b i h => ?_⟩
    refine (isSome_chunks_writes h).imp_right ?_
    rintro ⟨r', bytes, rfl, hmem⟩
    obtain ⟨rfl, hlt⟩ := putChunk_mem_fetchWrites hmem
    exact ⟨Option.isSome_iff_exists.mpr ⟨sealed, hopen⟩, rfl, hlt⟩

/-! ### What a step keeps -/

theorem wants_iff : v.wants a = true ↔ a.deleted = false ∧ a.isFetchable = true ∧
    ∃ i < a.chunkCount, v.chunks a.blobId i = none := by
  unfold wants hasAll
  rw [Bool.and_eq_true, Bool.and_eq_true, Bool.not_eq_eq_eq_not, Bool.not_true,
    Bool.not_eq_eq_eq_not, Bool.not_true, List.all_eq_false, and_assoc]
  simp only [List.mem_range, Bool.not_eq_true, Option.isSome_eq_false_iff,
    Option.isNone_iff_eq_none]

theorem wants_mono (h : v.wants a = true)
    (hfiles : ∀ i, (v'.chunks a.blobId i).isSome = true → (v.chunks a.blobId i).isSome = true) :
    v'.wants a = true := by
  obtain ⟨hlive, hfetchable, i, hi, hnone⟩ := wants_iff.mp h
  refine wants_iff.mpr ⟨hlive, hfetchable, i, hi, ?_⟩
  rw [← Option.not_isSome_iff_eq_none]
  intro hsome
  have hstill := hfiles i hsome
  rw [hnone] at hstill
  cases hstill

theorem wants_store (h : σ.vault.wants a = true)
    (hspares : Opens c r body → σ.Spares r.blobId done a) :
    (σ.store c r body nowMs done).1.vault.wants a = true := by
  obtain ⟨-, -, hfiles⟩ := store_spec (c := c) σ r body nowMs done
  by_cases hput : Opens c r body ∧ r.blobId = a.blobId
  · -- one of the chunks that it does not put is missing
    obtain ⟨hlive, hfetchable, -⟩ := wants_iff.mp h
    obtain ⟨i, hdone, hi, hnone⟩ := hspares hput.1 hput.2.symm
    refine wants_iff.mpr ⟨hlive, hfetchable, i, hi, ?_⟩
    rw [← Option.not_isSome_iff_eq_none]
    intro hsome
    rcases hfiles _ _ hsome with hold | ⟨-, -, hlt⟩
    · rw [← hput.2, hnone] at hold
      cases hold
    · omega
  · refine wants_mono h fun i hi => ?_
    rcases hfiles _ _ hi with hold | ⟨hopens, heq, -⟩
    · exact hold
    · exact absurd ⟨hopens, heq⟩ hput

theorem Inv.mono (h : σ.Inv) (hattachments : τ.vault.attachments = σ.vault.attachments)
    (hfiles : ∀ b i, (τ.vault.chunks b i).isSome = true → (σ.vault.chunks b i).isSome = true)
    (hasked : ∀ id, τ.Asked id → σ.Asked id) : τ.Inv := by
  refine ⟨fun id a ha => ?_, fun id hid => ?_⟩
  · rw [hattachments] at ha
    exact h.keyed id a ha
  · obtain ⟨a, ha, hwants⟩ := h.wanted id (hasked id hid)
    exact ⟨a, by rw [hattachments]; exact ha, wants_mono hwants (hfiles a.blobId)⟩

/-- What ended was published. -/
def Answers (σ τ : Fetcher) : Prop :=
  ∃ published, τ.outcomes = σ.outcomes ++ published ∧
    ∀ id, σ.isRequested id = true → τ.isRequested id = false → ∃ o, (id, o) ∈ published

theorem Answers.of_rows (houtcomes : τ.outcomes = σ.outcomes)
    (hrows : ∀ id, σ.isRequested id = true → τ.isRequested id = true) : σ.Answers τ := by
  refine ⟨[], by rw [houtcomes, List.append_nil], fun id hreq hnot => ?_⟩
  rw [hrows id hreq] at hnot
  cases hnot

theorem Answers.trans {υ : Fetcher} (h : σ.Answers τ) (h' : τ.Answers υ) : σ.Answers υ := by
  obtain ⟨first, hfirst, hended⟩ := h
  obtain ⟨second, hsecond, hended'⟩ := h'
  refine ⟨first ++ second, by rw [hsecond, hfirst, List.append_assoc], fun id hreq hnot => ?_⟩
  cases hmid : τ.isRequested id with
  | true =>
    obtain ⟨o, ho⟩ := hended' id hmid hnot
    exact ⟨o, List.mem_append_right _ ho⟩
  | false =>
    obtain ⟨o, ho⟩ := hended id hreq hmid
    exact ⟨o, List.mem_append_left _ ho⟩

/-- The driver's bookkeeping: fewer files and requests, the same attachments, and what ended was
published. -/
structure Follows (σ τ : Fetcher) : Prop where
  attachments : τ.vault.attachments = σ.vault.attachments
  files : ∀ b i, (τ.vault.chunks b i).isSome = true → (σ.vault.chunks b i).isSome = true
  asked : ∀ id, τ.Asked id → σ.Asked id
  published : σ.Answers τ

theorem Follows.trans {υ : Fetcher} (h : σ.Follows τ) (h' : τ.Follows υ) : σ.Follows υ where
  attachments := h'.attachments.trans h.attachments
  files b i hi := h.files b i (h'.files b i hi)
  asked id hid := h.asked id (h'.asked id hid)
  published := h.published.trans h'.published

theorem Follows.inv (h : σ.Follows τ) (hσ : σ.Inv) : τ.Inv :=
  hσ.mono h.attachments h.files h.asked

theorem Follows.of_eq (hvault : τ.vault = σ.vault) (hrows : τ.rows = σ.rows)
    (houtcomes : τ.outcomes = σ.outcomes) (hasking : τ.asking = σ.asking)
    (henqueuing : τ.enqueuing = σ.enqueuing) : σ.Follows τ where
  attachments := by rw [hvault]
  files b i hi := by rwa [hvault] at hi
  asked id hid := by
    unfold Asked isRequested at hid ⊢
    rwa [hrows, hasking, henqueuing] at hid
  published := by
    refine Answers.of_rows houtcomes fun id hid => ?_
    unfold isRequested at hid ⊢
    rwa [hrows]

theorem follows_discard (σ : Fetcher) (a : Attachment) : σ.Follows (σ.discard a) where
  attachments := by
    show (σ.vault.discardPartialBlob a).attachments = _
    unfold BlobVault.discardPartialBlob
    split <;> rfl
  files b i hi := by
    change ((σ.vault.discardPartialBlob a).chunks b i).isSome = true at hi
    unfold BlobVault.discardPartialBlob at hi
    split at hi
    · exact hi
    · rcases isSome_chunks_write hi with hi | ⟨r, bytes, -, hw⟩
      · exact hi
      · cases hw
  asked _ hid := hid
  published := Answers.of_rows rfl fun _ hid => hid

theorem isRequested_setRow (σ : Fetcher) (id : AttachmentId) (row : FetchRow)
    (id' : AttachmentId) : (σ.setRow id row).isRequested id' =
      if id' = id then decide (row.state = .requested) else σ.isRequested id' := by
  show ((σ.rows.upsert id row).find id').any _ = _
  rw [Table.find_upsert]
  split <;> rfl

theorem isRequested_of_find {row : FetchRow} (h : σ.rows.find id = some row) :
    σ.isRequested id = decide (row.state = .requested) := by
  unfold isRequested
  rw [h]
  rfl

theorem follows_setRow {row row' : FetchRow} (hrow : σ.rows.find id = some row)
    (hstate : row'.state = row.state) : σ.Follows (σ.setRow id row') := by
  have hreq : ∀ id', (σ.setRow id row').isRequested id' = σ.isRequested id' := by
    intro id'
    rw [isRequested_setRow]
    split
    next heq => rw [heq, isRequested_of_find hrow, hstate]
    next => rfl
  refine ⟨rfl, fun _ _ hi => hi, fun id' hid => hid.imp_left fun hid => ?_, ?_⟩
  · rwa [hreq] at hid
  · exact Answers.of_rows rfl fun id' hid => by rwa [hreq]

theorem follows_markPartial (σ : Fetcher) (id : AttachmentId) (o : FetchOutcome) :
    σ.Follows (σ.markPartial id o) := by
  unfold markPartial
  split
  next row hrow =>
    split
    next hstate =>
      have hreq : ∀ id', ((σ.setRow id { row with state := .parked }).publish id o).isRequested
          id' = if id' = id then false else σ.isRequested id' :=
        fun id' => isRequested_setRow σ id { row with state := .parked } id'
      refine ⟨rfl, fun _ _ hi => hi, fun id' hid => hid.imp_left fun hid => ?_, ?_⟩
      · rw [hreq] at hid
        split at hid
        · cases hid
        · exact hid
      · refine ⟨[(id, o)], rfl, fun id' hid hnot => ⟨o, ?_⟩⟩
        rw [hreq] at hnot
        split at hnot
        next heq => exact heq ▸ List.mem_singleton_self _
        next =>
          rw [hid] at hnot
          cases hnot
    next => exact Follows.of_eq rfl rfl rfl rfl rfl
  next => exact Follows.of_eq rfl rfl rfl rfl rfl

theorem follows_park (σ : Fetcher) (a : Attachment) : σ.Follows (σ.park a) :=
  ((follows_discard σ a).trans (follows_markPartial _ a.id .unavailable)).trans
    (Follows.of_eq rfl rfl rfl rfl rfl)

theorem follows_countFailure (σ : Fetcher) (a : Attachment) (nowMs : ℕ) :
    σ.Follows (σ.countFailure a nowMs) := by
  unfold countFailure
  split
  next => exact Follows.of_eq rfl rfl rfl rfl rfl
  next row hrow =>
    have hcounted : σ.Follows (σ.setRow a.id ⟨row.state, row.requestedAtMs, row.attempts + 1,
        some nowMs⟩) := follows_setRow hrow rfl
    dsimp only
    split
    · exact hcounted.trans (follows_park _ a)
    · exact hcounted

theorem follows_noteCancelled (h : σ.isRequested a.id = false) :
    σ.Follows (σ.noteCancelled a) := by
  have hquiet : (σ.discard a).markQuietly a.id = σ.discard a := by
    unfold markQuietly markPartial
    split
    next row hrow =>
      rw [if_neg]
      intro hstate
      have hreq := isRequested_of_find (σ := σ) hrow
      rw [h, hstate] at hreq
      cases hreq
    next => rfl
  unfold noteCancelled
  rw [hquiet]
  exact (follows_discard σ a).trans (Follows.of_eq rfl rfl rfl rfl rfl)

theorem isRequested_erase (σ : Fetcher) (id id' : AttachmentId) :
    ({ σ with rows := σ.rows.erase id } : Fetcher).isRequested id' =
      if id' = id then false else σ.isRequested id' := by
  show ((σ.rows.erase id).find id').any _ = _
  rw [Table.find_erase]
  split <;> rfl

theorem isRequested_finish (σ : Fetcher) (a : Attachment) :
    (σ.finish a).isRequested a.id = false :=
  (isRequested_erase σ a.id a.id).trans (if_pos rfl)

theorem follows_finish (σ : Fetcher) (a : Attachment) : σ.Follows (σ.finish a) := by
  have hreq : ∀ id', (σ.finish a).isRequested id' =
      if id' = a.id then false else σ.isRequested id' := isRequested_erase σ a.id
  refine ⟨rfl, fun _ _ hi => hi, fun id' hid => hid.imp_left fun hid => ?_, ?_⟩
  · rw [hreq] at hid
    split at hid
    · cases hid
    · exact hid
  · refine ⟨[(a.id, .fetched)], rfl, fun id' hid hnot => ⟨.fetched, ?_⟩⟩
    rw [hreq] at hnot
    split at hnot
    next heq => exact heq ▸ List.mem_singleton_self _
    next =>
      rw [hid] at hnot
      cases hnot

/-! ### Steps -/

theorem Inv.store (h : σ.Inv) (hτ : ((σ.store c r body nowMs done).1).Follows τ)
    (hspares : ∀ id a', σ.vault.attachments.find id = some a' → τ.Asked id → Opens c r body →
      σ.Spares r.blobId done a') : τ.Inv ∧ σ.Answers τ := by
  obtain ⟨⟨v, hv⟩, hattachments, -⟩ := store_spec (c := c) σ r body nowMs done
  have hsame : ∀ id, (σ.store c r body nowMs done).1.Asked id → σ.Asked id := by
    intro id hid
    rw [hv] at hid
    exact hid
  refine ⟨⟨fun id a' ha => ?_, fun id hid => ?_⟩, ?_⟩
  · rw [hτ.attachments, hattachments] at ha
    exact h.keyed id a' ha
  · obtain ⟨a', ha, hwants⟩ := h.wanted id (hsame id (hτ.asked id hid))
    refine ⟨a', by rw [hτ.attachments, hattachments]; exact ha, ?_⟩
    exact wants_mono (wants_store hwants (hspares id a' ha hid)) (hτ.files a'.blobId)
  · refine Answers.trans (Answers.of_rows ?_ fun id hid => ?_) hτ.published
    · rw [hv]
    · rw [hv]
      exact hid

theorem attachmentRow_eq_ok (h : v.attachmentRow id = .ok a) :
    v.attachments.find id = some a ∧ a.deleted = false := by
  unfold attachmentRow at h
  split at h
  next => cases h
  next a' ha =>
    split at h
    next => cases h
    next hlive =>
      obtain rfl := Except.ok.inj h
      exact ⟨ha, Bool.not_eq_true _ ▸ hlive⟩

theorem inv_ask (h : σ.Inv) (syncIsActive : Bool) :
    (σ.ask id syncIsActive).Inv ∧ σ.Answers (σ.ask id syncIsActive) := by
  have hrefl : σ.Inv ∧ σ.Answers σ := ⟨h, Answers.of_rows rfl fun _ hid => hid⟩
  unfold ask
  split
  next => exact hrefl
  next a hrow =>
    obtain ⟨ha, hlive⟩ := attachmentRow_eq_ok hrow
    split
    next hhere =>
      have hnot : σ.isRequested id = false := by
        cases hreq : σ.isRequested id with
        | false => rfl
        | true =>
          obtain ⟨a', ha', hwants⟩ := h.wanted id (.inl hreq)
          obtain rfl := Option.some.inj (ha.symm.trans ha')
          unfold BlobVault.wants at hwants
          rw [hhere, Bool.not_true, Bool.and_false] at hwants
          cases hwants
      have hreq : ∀ id', ({ σ with rows := σ.rows.erase id } : Fetcher).isRequested id' =
          σ.isRequested id' := by
        intro id'
        rw [isRequested_erase]
        split
        next heq => rw [heq, hnot]
        next => rfl
      refine ⟨h.mono rfl (fun _ _ hi => hi) fun id' hid => ?_,
        Answers.of_rows rfl fun id' hid => ?_⟩
      · refine hid.imp_left fun hid => ?_
        rwa [hreq] at hid
      · rwa [hreq]
    next haway =>
      split
      next => exact hrefl
      next hfetchable =>
        split
        next => exact hrefl
        next =>
          refine ⟨⟨h.keyed, fun id' hid => ?_⟩, Answers.of_rows rfl fun _ hid => hid⟩
          rcases hid with hid | hid | hid
          · exact h.wanted id' (.inl hid)
          · rcases List.mem_cons.mp hid with rfl | hid
            · refine ⟨a, ha, ?_⟩
              unfold BlobVault.wants
              rw [hlive, Bool.eq_false_iff.mpr haway]
              simpa using hfetchable
            · exact h.wanted id' (.inr (.inl hid))
          · exact h.wanted id' (.inr (.inr hid))

/-- **A step keeps every request one that can be fetched**, and publishes how those ended that it
ends. -/
theorem inv_answers_step {s : FetchStep} (h : σ.Inv) (horderly : σ.Orderly c s)
    (hs : σ.step c s = some τ) : τ.Inv ∧ σ.Answers τ := by
  have hfollows : σ.Follows τ → τ.Inv ∧ σ.Answers τ := fun hf => ⟨hf.inv h, hf.published⟩
  cases s with
  | ask id syncIsActive =>
    obtain rfl := Option.some.inj hs
    exact inv_ask h syncIsActive
  | clearCancel id =>
    change (if id ∈ σ.asking then _ else none) = some τ at hs
    split at hs
    next hmem =>
      obtain rfl := Option.some.inj hs
      refine hfollows ⟨rfl, fun _ _ hi => hi, fun id' hid => ?_,
        Answers.of_rows rfl fun _ hid => hid⟩
      rcases hid with hid | hid | hid
      · exact .inl hid
      · exact .inr (.inl (List.mem_of_mem_erase hid))
      · rcases List.mem_cons.mp hid with rfl | hid
        · exact .inr (.inl hmem)
        · exact .inr (.inr hid)
    next => cases hs
  | enqueue id nowMs =>
    change (if id ∈ σ.enqueuing then _ else none) = some τ at hs
    split at hs
    next hmem =>
      obtain rfl := Option.some.inj hs
      have hreq := isRequested_setRow σ id ⟨.requested, nowMs, 0, none⟩
      refine hfollows ⟨rfl, fun _ _ hi => hi, fun id' hid => ?_,
        Answers.of_rows rfl fun id' hid => ?_⟩
      · rcases hid with hid | hid | hid
        · have hid' := (hreq id').symm.trans hid
          split at hid'
          next heq =>
            rw [heq]
            exact .inr (.inr hmem)
          next => exact .inl hid'
        · exact .inr (.inl hid)
        · exact .inr (.inr (List.mem_of_mem_erase hid))
      · refine (hreq id').trans ?_
        split
        · rfl
        · exact hid
    next => cases hs
  | requestCancel id =>
    obtain rfl := Option.some.inj hs
    exact hfollows (Follows.of_eq rfl rfl rfl rfl rfl)
  | markCancelled id =>
    change (if id ∈ σ.cancelling then _ else none) = some τ at hs
    split at hs
    next =>
      obtain rfl := Option.some.inj hs
      exact hfollows ((follows_markPartial σ id .cancelled).trans
        (Follows.of_eq rfl rfl rfl rfl rfl))
    next => cases hs
  | drain nowMs =>
    rw [step] at hs
    split at hs
    · obtain rfl := Option.some.inj hs
      exact hfollows (Follows.of_eq rfl rfl rfl rfl rfl)
    · cases hs
  | next =>
    rw [step] at hs
    split at hs
    next a rest hdriver =>
      split at hs
      · obtain rfl := Option.some.inj hs
        exact hfollows (Follows.of_eq rfl rfl rfl rfl rfl)
      · split at hs
        · obtain rfl := Option.some.inj hs
          exact hfollows ((follows_park σ a).trans (Follows.of_eq rfl rfl rfl rfl rfl))
        · obtain rfl := Option.some.inj hs
          exact hfollows (Follows.of_eq rfl rfl rfl rfl rfl)
    next => cases hs
  | noticeCancel =>
    rw [step] at hs
    split at hs
    next a rest hdriver =>
      split at hs
      · obtain rfl := Option.some.inj hs
        exact hfollows (Follows.of_eq rfl rfl rfl rfl rfl)
      · cases hs
    next => cases hs
  | noteCancelled =>
    rw [step] at hs
    split at hs
    next a rest hdriver =>
      obtain rfl := Option.some.inj hs
      exact hfollows ((follows_noteCancelled (horderly a rest hdriver)).trans
        (Follows.of_eq rfl rfl rfl rfl rfl))
    next => cases hs
  | answer answer nowMs done =>
    rw [step] at hs
    split at hs
    next a rest hdriver =>
      obtain rfl := Option.some.inj hs
      have hfailed : σ.Follows { σ.countFailure a nowMs with driver := .requested rest } :=
        (follows_countFailure σ a nowMs).trans (Follows.of_eq rfl rfl rfl rfl rfl)
      cases answer with
      | unsupported => exact hfollows (Follows.of_eq rfl rfl rfl rfl rfl)
      | absent => exact hfollows hfailed
      | failed => exact hfollows hfailed
      | body body =>
        obtain ⟨⟨v, hv⟩, -, -⟩ := store_spec (c := c) σ (.original a) body nowMs done
        have hsame : ∀ id, (σ.store c (.original a) body nowMs done).1.Asked id → σ.Asked id := by
          intro id hid
          rw [hv] at hid
          exact hid
        have hlists : (σ.store c (.original a) body nowMs done).1.asking = σ.asking ∧
            (σ.store c (.original a) body nowMs done).1.enqueuing = σ.enqueuing := by
          rw [hv]
          exact ⟨rfl, rfl⟩
        unfold answered
        dsimp only
        split
        next hstored =>
          have hf := (follows_finish (σ.store c (.original a) body nowMs done).1 a).trans
            (Follows.of_eq (τ := { (σ.store c (.original a) body nowMs done).1.finish a with
              driver := .requested rest }) rfl rfl rfl rfl rfl)
          refine h.store hf fun id a' ha hid hopens => ?_
          rcases horderly a rest hdriver hopens id a' ha (hsame id (hf.asked id hid)) with
            ⟨rfl, hasking, henqueuing, -⟩ | hspares
          · -- its request has ended, and no other is under way
            rcases hid with hid | hid | hid
            · rw [show ({ (σ.store c (.original a) body nowMs done).1.finish a with
                driver := .requested rest } : Fetcher).isRequested a.id = false from
                isRequested_finish _ a] at hid
              cases hid
            · exact absurd (hlists.1 ▸ hid) hasking
            · exact absurd (hlists.2 ▸ hid) henqueuing
          · exact hspares
        next hpartial =>
          let σ' := (σ.store c (.original a) body nowMs done).1
          have hf := (follows_countFailure σ' a nowMs).trans
            (Follows.of_eq (τ := { σ'.countFailure a nowMs with driver := .requested rest })
              rfl rfl rfl rfl rfl)
          refine h.store hf fun id a' ha hid hopens => ?_
          rcases horderly a rest hdriver hopens id a' ha (hsame id (hf.asked id hid)) with
            ⟨-, -, -, hstored⟩ | hspares
          · exact absurd hstored hpartial
          · exact hspares
    next => cases hs
  | awaitBytes wanted =>
    rw [step] at hs
    split at hs
    next hdriver =>
      split at hs
      · obtain rfl := Option.some.inj hs
        exact hfollows (Follows.of_eq rfl rfl rfl rfl rfl)
      · cases hs
    next => cases hs
  | answerUnasked answer nowMs done =>
    rw [step] at hs
    split at hs
    next r rest hdriver =>
      obtain rfl := Option.some.inj hs
      cases answer with
      | body body =>
        refine h.store (Follows.of_eq rfl rfl rfl rfl rfl) fun id a' ha hid hopens => ?_
        obtain ⟨⟨v, hv⟩, -, -⟩ := store_spec (c := c) σ r body nowMs done
        refine horderly r rest hdriver hopens id a' ha ?_
        change (σ.store c r body nowMs done).1.Asked id at hid
        rw [hv] at hid
        exact hid
      | _ => exact hfollows (Follows.of_eq rfl rfl rfl rfl rfl)
    next => cases hs
  | complete =>
    rw [step] at hs
    split at hs
    · obtain rfl := Option.some.inj hs
      exact hfollows (Follows.of_eq rfl rfl rfl rfl rfl)
    · cases hs
  | arrive a =>
    obtain rfl := Option.some.inj hs
    have hfind : ∀ id, (σ.vault.write (.record a)).attachments.find id =
        if id = a.id then some a else σ.vault.attachments.find id :=
      fun id => Table.find_upsert _ _ _ _
    refine ⟨⟨fun id a' ha => ?_, fun id hid => ?_⟩, Answers.of_rows rfl fun _ hid => hid⟩
    · rw [hfind] at ha
      split at ha
      next heq => rw [← Option.some.inj ha, heq]
      next => exact h.keyed id a' ha
    · show ∃ a', (σ.vault.write (.record a)).attachments.find id = some a' ∧ _
      rw [hfind]
      split
      next heq => exact ⟨a, rfl, horderly (heq ▸ hid)⟩
      next => exact h.wanted id hid

/-! ### What a drain takes up -/

theorem take_filterMap_filter {α β : Type} {f : α → Option β} {p : β → Bool} {l : List α}
    (h : ∀ x ∈ l, ∃ y, f x = some y ∧ p y = true) (n : ℕ) :
    ((l.take n).filterMap f).filter p = ((l.filterMap f).filter p).take n := by
  induction l generalizing n with
  | nil => rw [List.take_nil, List.filterMap_nil, List.filter_nil, List.take_nil]
  | cons x l ih =>
    obtain ⟨y, hy, hp⟩ := h x List.mem_cons_self
    cases n with
    | zero => rw [List.take_zero, List.take_zero, List.filterMap_nil, List.filter_nil]
    | succ n =>
      rw [List.take_succ_cons, List.filterMap_cons_some hy, List.filterMap_cons_some hy,
        List.filter_cons_of_pos hp, List.filter_cons_of_pos hp, List.take_succ_cons,
        ih (fun x' hx' => h x' (List.mem_cons_of_mem _ hx')) n]

theorem isRequested_of_mem {row : AttachmentId × FetchRow} (h : row ∈ σ.requestedRows) :
    σ.isRequested row.1 = true := by
  unfold requestedRows at h
  rw [List.mem_insertionSort, List.mem_filter, Table.mem_rows] at h
  rw [isRequested_of_find h.1]
  exact h.2

/-- **A drain takes up the oldest requests that are due**, where it reads all of them. -/
theorem requestedBlobFetches_eq (h : σ.Inv) (hscan : σ.requestedRows.length ≤ maxFetchScan)
    (nowMs : ℕ) : σ.requestedBlobFetches nowMs = σ.oldestDue nowMs := by
  unfold requestedBlobFetches oldestDue
  rw [List.take_of_length_le hscan]
  refine take_filterMap_filter (fun row hrow => ?_) maxFetchesPerDrain
  exact h.wanted row.1 (.inl (isRequested_of_mem (List.mem_filter.mp hrow).1))

/-- A client that has asked for nothing yet. -/
def start (v : BlobVault) : Fetcher := ⟨v, ∅, [], [], .idle, [], [], []⟩

theorem inv_start (hkeyed : ∀ id a, v.attachments.find id = some a → a.id = id) :
    (start v).Inv := by
  refine ⟨hkeyed, fun id hid => ?_⟩
  rcases hid with hid | hid | hid <;> cases hid

end Fetcher

/-- What can be reached by steps of a kind, from a vault that has asked for nothing yet. -/
inductive FetchRun (c : BlobCrypto) (P : Fetcher → FetchStep → Prop) : Fetcher → Prop where
  | start (v : BlobVault) (hkeyed : ∀ id a, v.attachments.find id = some a → a.id = id) :
    FetchRun c P (.start v)
  | step {σ τ : Fetcher} (s : FetchStep) : FetchRun c P σ → P σ s → σ.step c s = some τ →
    FetchRun c P τ

theorem FetchRun.inv {c : BlobCrypto} {σ : Fetcher}
    (h : FetchRun c (fun σ s => σ.Orderly c s) σ) : σ.Inv := by
  induction h with
  | start v hkeyed => exact Fetcher.inv_start hkeyed
  | step s hrun horderly hs ih => exact (Fetcher.inv_answers_step ih horderly hs).1

/-- **In orderly runs every request is answered.** Whatever the clients, the driver and the relay
do in whatever order: a row that is requested is of an attachment that is not deleted, is on the
relay and is not on disk; a drain takes up the oldest such requests that are due; and when a
request's row ends, how it ended is published. -/
theorem FetchRun.answers (c : BlobCrypto) (σ : Fetcher)
    (h : FetchRun c (fun σ s => σ.Orderly c s) σ) :
    (∀ id, σ.isRequested id = true →
      ∃ a, σ.vault.attachments.find id = some a ∧ σ.vault.wants a = true) ∧
    (∀ nowMs τ, σ.Orderly c (.drain nowMs) → σ.step c (.drain nowMs) = some τ →
      τ.driver = .requested (σ.oldestDue nowMs)) ∧
    ∀ s τ, σ.Orderly c s → σ.step c s = some τ → σ.Answers τ := by
  refine ⟨fun id hid => h.inv.wanted id (.inl hid), fun nowMs τ hscan hs => ?_,
    fun s τ horderly hs => (Fetcher.inv_answers_step h.inv horderly hs).2⟩
  rw [Fetcher.step] at hs
  split at hs
  · obtain rfl := Option.some.inj hs
    exact congrArg FetchDriver.requested (Fetcher.requestedBlobFetches_eq h.inv hscan nowMs)
  · cases hs

/-! ### A small file -/

/-- A file of another device's. -/
def Attachment.text : Attachment := (AttachInput.text [104, 105]).attachment sample

/-- A vault with its row. -/
def BlobVault.text : BlobVault := BlobVault.empty.write (.record .text)

theorem BlobVault.keyed_text (id : AttachmentId) (a : Attachment)
    (h : BlobVault.text.attachments.find id = some a) : a.id = id := by
  change ((∅ : Table AttachmentId Attachment).upsert Attachment.text.id .text).find id = some a at h
  rw [Table.find_upsert] at h
  split at h
  next heq => rw [← Option.some.inj h, heq]
  next => cases h

def Fetcher.steps (c : BlobCrypto) (σ : Fetcher) (ss : List FetchStep) : Option Fetcher :=
  ss.foldlM (fun σ s => σ.step c s) σ

theorem FetchRun.steps {c : BlobCrypto} {P : Fetcher → FetchStep → Prop} {σ τ : Fetcher}
    {ss : List FetchStep} (h : FetchRun c P σ) (hP : ∀ σ, ∀ s ∈ ss, P σ s)
    (hs : σ.steps c ss = some τ) : FetchRun c P τ := by
  induction ss generalizing σ with
  | nil => exact Option.some.inj hs ▸ h
  | cons s ss ih =>
    obtain ⟨υ, hfirst, hrest⟩ := Option.bind_eq_some_iff.mp hs
    exact ih (.step s h (hP σ s List.mem_cons_self) hfirst)
      (fun σ' s' hs' => hP σ' s' (List.mem_cons_of_mem _ hs')) hrest

/-- It is asked for, a drain takes it up, the relay does not have it, and it is cancelled. -/
theorem FetchRun.answers_text : ∃ σ τ,
    FetchRun sample (fun σ s => σ.Orderly sample s) σ ∧ σ.isRequested 1 = true ∧
      (∃ a, σ.vault.attachments.find 1 = some a ∧ σ.vault.wants a = true) ∧
      σ.step sample (.markCancelled 1) = some τ ∧ τ.isRequested 1 = false ∧ σ.Answers τ := by
  have hsome : (((Fetcher.start .text).steps sample
      [.ask 1 true, .clearCancel 1, .enqueue 1 0]).bind fun σ₀ =>
        (σ₀.step sample (.drain 0)).bind fun σ₁ =>
        (σ₁.steps sample [.next, .answer .absent 0 0, .requestCancel 1]).bind fun σ =>
          (σ.step sample (.markCancelled 1)).map fun τ =>
            (decide (σ₀.requestedRows.length ≤ maxFetchScan), σ.isRequested 1, τ.isRequested 1)) =
      some (true, true, false) := by
    decide +kernel
  obtain ⟨σ₀, hσ₀, hsome⟩ := Option.bind_eq_some_iff.mp hsome
  obtain ⟨σ₁, hσ₁, hsome⟩ := Option.bind_eq_some_iff.mp hsome
  obtain ⟨σ, hσ, hsome⟩ := Option.bind_eq_some_iff.mp hsome
  obtain ⟨τ, hτ, hsome⟩ := Option.map_eq_some_iff.mp hsome
  simp only [Prod.mk.injEq, decide_eq_true_eq] at hsome
  obtain ⟨hscan, hreq, hnot⟩ := hsome
  have horderly : ∀ (σ : Fetcher), ∀ s ∈ [FetchStep.ask 1 true, .clearCancel 1, .enqueue 1 0] ++
      [.next, .answer .absent 0 0, .requestCancel 1], σ.Orderly sample s := by
    intro σ s hs
    simp only [List.mem_cons, List.cons_append, List.nil_append, List.not_mem_nil, or_false] at hs
    rcases hs with rfl | rfl | rfl | rfl | rfl | rfl <;> trivial
  have hasked := FetchRun.steps (.start .text keyed_text)
    (fun σ s hs => horderly σ s (List.mem_append_left _ hs)) hσ₀
  have hrun := (hasked.step (.drain 0) hscan hσ₁).steps
    (fun σ s hs => horderly σ s (List.mem_append_right _ hs)) hσ
  have h := FetchRun.answers _ _ hrun
  exact ⟨σ, τ, hrun, hreq, h.1 1 hreq, hτ, hnot, h.2.2 (.markCancelled 1) τ trivial hτ⟩

/-- The relay does not hold it yet when the request is served, and does when the driver fetches
small files unasked: the request is never answered. -/
theorem FetchRun.not_answers_unasked :
    ¬ ∀ (c : BlobCrypto) (σ : Fetcher), FetchRun c (fun _ _ => True) σ → σ.driver = .idle →
      ∀ id, σ.isRequested id = true →
        ∃ a, σ.vault.attachments.find id = some a ∧ σ.vault.wants a = true := by
  intro h
  have hsome : (((Fetcher.start .text).steps sample
      [.ask 1 true, .clearCancel 1, .enqueue 1 0, .drain 0, .next, .answer .absent 0 0,
        .awaitBytes [.original .text],
        .answerUnasked (.body (ciphertextHash sample
          ((AttachInput.text [104, 105]).sealed sample))) 0 100,
        .complete]).map fun σ => (match σ.driver with | .idle => true | _ => false,
          σ.isRequested 1, (σ.vault.attachments.find 1).any σ.vault.wants)) =
      some (true, true, false) := by
    decide +kernel
  obtain ⟨σ, hσ, heq⟩ := Option.map_eq_some_iff.mp hsome
  obtain ⟨hidle, hreq, hnot⟩ := Prod.mk.inj heq |>.imp id fun h => Prod.mk.inj h
  have hdriver : σ.driver = .idle := by
    cases hd : σ.driver <;> rw [hd] at hidle <;> first | rfl | cases hidle
  obtain ⟨a, ha, hwants⟩ := h _ σ (FetchRun.steps (.start .text keyed_text)
    (fun _ _ _ => trivial) hσ) hdriver 1 hreq
  rw [ha, Option.any_some, hwants] at hnot
  cases hnot

end Sunrise
