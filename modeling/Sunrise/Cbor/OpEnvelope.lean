import Mathlib.Tactic.IntervalCases
import Sunrise.Lib.CborBytes
import Sunrise.Lib.Table
import Sunrise.Value

/-!
# The op envelope

An op travels as a map of numbered fields behind five bytes of prefix. One function writes
the map, and it is told which fields to leave out: nothing for the wire and for the op's
hash, the signature for what is signed, the payload and the signature for what the AEAD
authenticates. A field this build does not know is kept at its own number and written back
there, so it is inside all three.

The decoder reads one CBOR item under the framing bound and takes its fields in whatever
order they stand; what follows the item it does not look at. So the bytes of an envelope are
not the only ones that decode to it, although the hash of an op, which is over the fields
written anew, is the envelope's alone.

## Main definitions

* `OpEnvelope`, `encodeCbor`, `sigInputBytes`, `encodeAad`, `opHash` — the fields and their
  encodings.

## Main results

* `decodeEnvelope_writeEnvelope` — **a readable envelope decodes from its bytes.**
* `decodeEnvelope_spec` — **the format.**
-/

open Cbor (Item)

namespace Sunrise

/-! ### Bytes and fields -/

structure ByteArr (n : ℕ) where
  bytes : Bytes
  isBytes : ∀ x ∈ bytes, x < 256
  length_eq : bytes.length = n
deriving DecidableEq

/-- A vector of bytes. -/
structure ByteVec where
  bytes : Bytes
  isBytes : ∀ x ∈ bytes, x < 256
  length_lt : bytes.length < 2 ^ 64
deriving DecidableEq

def ByteArr.zero (n : ℕ) : ByteArr n where
  bytes := List.replicate n 0
  isBytes x hx := by
    rw [List.eq_of_mem_replicate hx]
    decide
  length_eq := List.length_replicate

def ByteVec.empty : ByteVec := ⟨[], by simp, by simp⟩

/-- An unsigned number of so many bits. -/
structure Unsigned (bits : ℕ) where
  toNat : ℕ
  toNat_lt : toNat < 2 ^ bits
deriving DecidableEq

def Unsigned.zero (bits : ℕ) : Unsigned bits := ⟨0, Nat.two_pow_pos bits⟩

/-- A number of 32 bits. -/
abbrev U32 := Unsigned 32

abbrev U64 := Unsigned 64

/-- How the payload is sealed. -/
inductive AeadAlgId where
  | none
  | xChaCha20Poly1305
deriving DecidableEq

/-- How an envelope is signed. -/
inductive SigAlgId where
  | ed25519
deriving DecidableEq

/-- The wire value of an AEAD algorithm. -/
def AeadAlgId.toU32 : AeadAlgId → ℕ
  | .none => 0
  | .xChaCha20Poly1305 => 1

/-- The wire value of a signature algorithm. -/
def SigAlgId.toU32 : SigAlgId → ℕ
  | .ed25519 => 1

/-- The AEAD algorithm of a wire value. -/
def aeadAlgId : ℕ → Option AeadAlgId
  | 0 => some .none
  | 1 => some .xChaCha20Poly1305
  | _ => none

/-- The signature algorithm of a wire value. -/
def sigAlgId : ℕ → Option SigAlgId
  | 1 => some .ed25519
  | _ => none

/-- Field 5, a clock reading. -/
structure WireHlc where
  physicalMs : U64
  logical : U32
deriving DecidableEq

/-- One entry of field 15: the tip of another device's prefix in the stream. -/
structure WireHead where
  deviceId : ByteArr 16
  seq : U64
  opHash : ByteArr 32
deriving DecidableEq

/-- A decoded envelope. -/
@[ext]
structure OpEnvelope where
  v : U32
  streamId : ByteArr 16
  deviceId : ByteArr 16
  seq : U64
  hlc : WireHlc
  aeadAlg : AeadAlgId
  sigAlg : SigAlgId
  epoch : U32
  nonce : ByteArr 24
  /-- The ciphertext, or the payload itself where it is signed only. -/
  payload : ByteVec
  sig : ByteArr 64
  docSchemaV : U32
  schemaFp : Option (ByteArr 8)
  prevHash : Option (ByteArr 32)
  heads : List WireHead
  /-- The fields this build does not know, by number. -/
  unknown : Table ℕ Item

open OpEnvelope

def OpEnvelope.withPayload (env : OpEnvelope) (payload : ByteVec) : OpEnvelope :=
  { env with payload }

def OpEnvelope.withSig (env : OpEnvelope) (sig : ByteArr 64) : OpEnvelope := { env with sig }

/-- What the envelope codec fails with. -/
inductive OpEnvelopeError where
  /-- The prefix is not an envelope's, or its floor is not one this build implements. -/
  | badMagic
  | read (error : Cbor.ReadError)
  | cbor (message : String)
  | badField (field : String)
  | unknownAlg (field : String)
  | inconsistentAead
  | aeadAuth
  | docSchemaTooOld (got floor : ℕ)
deriving DecidableEq

/-- The container format this build writes. -/
def envelopeFormatV : ℕ := 3

/-- The oldest container format this build reads. -/
def envelopeFormatFloor : ℕ := 3

/-- The oldest document schema this build reads. -/
def docSchemaFloor : ℕ := 1

/-- The levels allowed in an envelope. -/
def maxEnvelopeDepth : ℕ := 8

/-- The most entries field 15 may carry. -/
def maxChainHeads : ℕ := 256

/-! ### The canonical map -/

/-- The fields an encoding leaves out. -/
inductive Omit where
  | nothing
  | sig
  | payloadAndSig
deriving DecidableEq

/-- Whether a field is left out. -/
def Omit.omits : Omit → ℕ → Bool
  | .nothing, _ => false
  | .sig, id => id == 11
  | .payloadAndSig, id => id == 10 || id == 11

def intItem (n : ℕ) : Item := .scalar (.integer n)

def bytesItem (b : Bytes) : Item := .scalar (.bytes b)

def WireHlc.item (hlc : WireHlc) : Item :=
  .array [intItem hlc.physicalMs.toNat, intItem hlc.logical.toNat]

def WireHead.item (head : WireHead) : Item :=
  .array [bytesItem head.deviceId.bytes, intItem head.seq.toNat, bytesItem head.opHash.bytes]

/-- The fields this build knows, in ascending order. -/
def OpEnvelope.knownFields (env : OpEnvelope) : List (ℕ × Item) :=
  [(1, intItem env.v.toNat), (2, bytesItem env.streamId.bytes), (3, bytesItem env.deviceId.bytes),
    (4, intItem env.seq.toNat), (5, env.hlc.item), (6, intItem env.aeadAlg.toU32),
    (7, intItem env.sigAlg.toU32), (8, intItem env.epoch.toNat), (9, bytesItem env.nonce.bytes),
    (10, bytesItem env.payload.bytes), (11, bytesItem env.sig.bytes),
    (12, intItem env.docSchemaV.toNat)] ++
  (env.schemaFp.map fun fp => (13, bytesItem fp.bytes)).toList ++
  (env.prevHash.map fun prev => (14, bytesItem prev.bytes)).toList ++
  if env.heads.isEmpty then [] else [(15, .array (env.heads.map WireHead.item))]

/-- The fields an encoding holds, by number. -/
def OpEnvelope.fields (env : OpEnvelope) (omitted : Omit) : List (ℕ × Item) :=
  Cbor.sortBy Prod.fst ((env.knownFields.filter fun f => !omitted.omits f.1) ++ env.unknown.rows)

/-- The map an encoding writes. -/
def OpEnvelope.map (env : OpEnvelope) (omitted : Omit) : Item :=
  .map ((env.fields omitted).map fun f => (intItem f.1, f.2))

section

variable (cbor : Cbor.Codec)

/-- The canonical encoding of the envelope without the fields `omitted` names. -/
def encodeCbor (env : OpEnvelope) (omitted : Omit) : Bytes := cbor.write (env.map omitted)

/-- What the AEAD authenticates. -/
def encodeAad (env : OpEnvelope) : Bytes := encodeCbor cbor env .payloadAndSig

end

def sigDomain : Bytes := "sunrise.op_envelope.v1".toList.map Char.toNat

/-- What the writer signs, with the hash `blake3`. -/
def sigInputBytes (cbor : Cbor.Codec) (blake3 : Bytes → Bytes) (env : OpEnvelope) : Bytes :=
  sigDomain ++ blake3 (encodeCbor cbor env .sig)

def opHash (cbor : Cbor.Codec) (blake3 : Bytes → Bytes) (env : OpEnvelope) : Bytes :=
  blake3 (encodeCbor cbor env .nothing)

/-! ### Sealing -/

/-- At most `maxChainHeads` entries, strictly ascending by device. -/
def checkHeads (heads : List WireHead) : Except OpEnvelopeError Unit :=
  if heads.length ≤ maxChainHeads ∧ heads.IsChain (fun a b => a.deviceId.bytes < b.deviceId.bytes)
  then .ok () else .error (.badField "heads")

def magicFirstTwo : Bytes := [0x53, 0x52]

/-- The prefix byte of an envelope. -/
def magicOpEnvelope : ℕ := 2

/-- The prefix of what this build writes: the oldest container that still reads it. -/
def writePrefix : Bytes :=
  magicFirstTwo ++ [magicOpEnvelope, envelopeFormatFloor / 256, envelopeFormatFloor % 256]

/-- The bytes of an envelope: the prefix, then the map. -/
def writeEnvelope (cbor : Cbor.Codec) (env : OpEnvelope) : Bytes :=
  writePrefix ++ encodeCbor cbor env .nothing

section

variable {Key : Type} (cbor : Cbor.Codec) (blake3 : Bytes → Bytes)
  (aeadSeal : Key → ByteArr 24 → ByteVec → Bytes → Option ByteVec) (sign : Bytes → ByteArr 64)

def sealPayload (env : OpEnvelope) (streamKey : Option Key) : Except OpEnvelopeError OpEnvelope :=
  match env.aeadAlg, streamKey with
  | .none, _ => .ok env
  | .xChaCha20Poly1305, none => .error .inconsistentAead
  | .xChaCha20Poly1305, some key =>
    match aeadSeal key env.nonce env.payload (encodeAad cbor (env.withPayload .empty)) with
    | none => .error .aeadAuth
    | some ciphertext => .ok (env.withPayload ciphertext)

/-- The envelope sealed and signed. Its payload is the plaintext op before, and its signature
is not looked at. -/
def sealedEnvelope (env : OpEnvelope) (streamKey : Option Key) :
    Except OpEnvelopeError OpEnvelope :=
  if env.aeadAlg = .none ∧ env.epoch.toNat ≠ 0 then .error .inconsistentAead
  else if env.aeadAlg = .xChaCha20Poly1305 ∧ streamKey.isNone then .error .inconsistentAead
  else
    match checkHeads env.heads with
    | .error e => .error e
    | .ok () =>
      match sealPayload cbor aeadSeal env streamKey with
      | .error e => .error e
      | .ok env => .ok (env.withSig (sign (sigInputBytes cbor blake3 env)))

/-- Seal, sign and encode an envelope. -/
def sealEnvelope (env : OpEnvelope) (streamKey : Option Key) : Except OpEnvelopeError Bytes :=
  match sealedEnvelope cbor blake3 aeadSeal sign env streamKey with
  | .error e => .error e
  | .ok env => .ok (writeEnvelope cbor env)

end

/-! ### Decoding -/

/-- A number of 32 bits. -/
def u32From (v : Item) (field : String) : Except OpEnvelopeError U32 :=
  match v with
  | .scalar (.integer i) =>
    if h : 0 ≤ i ∧ i.toNat < 2 ^ 32 then .ok ⟨i.toNat, h.2⟩ else .error (.badField field)
  | _ => .error (.badField field)

/-- A number of 64 bits. -/
def u64From (v : Item) (field : String) : Except OpEnvelopeError U64 :=
  match v with
  | .scalar (.integer i) =>
    if h : 0 ≤ i ∧ i.toNat < 2 ^ 64 then .ok ⟨i.toNat, h.2⟩ else .error (.badField field)
  | _ => .error (.badField field)

def bytesNFrom (n : ℕ) (v : Item) (field : String) : Except OpEnvelopeError (ByteArr n) :=
  match v with
  | .scalar (.bytes b) =>
    if h : (∀ x ∈ b, x < 256) ∧ b.length = n then .ok ⟨b, h.1, h.2⟩ else .error (.badField field)
  | _ => .error (.badField field)

def payloadFrom (v : Item) : Except OpEnvelopeError ByteVec :=
  match v with
  | .scalar (.bytes b) =>
    if h : (∀ x ∈ b, x < 256) ∧ b.length < 2 ^ 64 then .ok ⟨b, h.1, h.2⟩
    else .error (.badField "payload")
  | _ => .error (.badField "payload")

/-- A clock reading, `[physical_ms, logical]`. -/
def hlcFrom (v : Item) : Except OpEnvelopeError WireHlc :=
  match v with
  | .array [p, l] => do
    let physicalMs ← u64From p "hlc.physical_ms"
    let logical ← u32From l "hlc.logical"
    return ⟨physicalMs, logical⟩
  | _ => .error (.badField "hlc")

/-- A chain head, `[device_id, seq, op_hash]`. -/
def headFrom (v : Item) : Except OpEnvelopeError WireHead :=
  match v with
  | .array [d, s, o] => do
    let deviceId ← bytesNFrom 16 d "heads"
    let seq ← u64From s "heads"
    let opHash ← bytesNFrom 32 o "heads"
    return ⟨deviceId, seq, opHash⟩
  | _ => .error (.badField "heads")

/-- Field 15: one to `maxChainHeads` chain heads. -/
def headsFrom (v : Item) : Except OpEnvelopeError (List WireHead) :=
  match v with
  | .array items =>
    if items.isEmpty ∨ maxChainHeads < items.length then .error (.badField "heads")
    else items.mapM headFrom
  | _ => .error (.badField "heads")

def containsFloat (v : Item) : Bool :=
  v.nodes.any fun w => match w with
    | .scalar (.float _) => true
    | _ => false

def aeadAlgFrom (v : Item) : Except OpEnvelopeError AeadAlgId := do
  let raw ← u32From v "aead_alg"
  match aeadAlgId raw.toNat with
  | some alg => .ok alg
  | none => .error (.unknownAlg "aead_alg")

/-- A signature algorithm. -/
def sigAlgFrom (v : Item) : Except OpEnvelopeError SigAlgId := do
  let raw ← u32From v "sig_alg"
  match sigAlgId raw.toNat with
  | some alg => .ok alg
  | none => .error (.unknownAlg "sig_alg")

/-- Field 15, in its only shape. -/
def checkedHeadsFrom (v : Item) : Except OpEnvelopeError (List WireHead) := do
  let heads ← headsFrom v
  checkHeads heads
  return heads

/-- Take in the field numbered `id`. A number this build does not know keeps its item. -/
def setField (env : OpEnvelope) (id : ℕ) (v : Item) : Except OpEnvelopeError OpEnvelope :=
  match id with
  | 1 => return { env with v := ← u32From v "v" }
  | 2 => return { env with streamId := ← bytesNFrom 16 v "stream_id" }
  | 3 => return { env with deviceId := ← bytesNFrom 16 v "device_id" }
  | 4 => return { env with seq := ← u64From v "seq" }
  | 5 => return { env with hlc := ← hlcFrom v }
  | 6 => return { env with aeadAlg := ← aeadAlgFrom v }
  | 7 => return { env with sigAlg := ← sigAlgFrom v }
  | 8 => return { env with epoch := ← u32From v "epoch" }
  | 9 => return { env with nonce := ← bytesNFrom 24 v "nonce" }
  | 10 => return { env with payload := ← payloadFrom v }
  | 11 => return { env with sig := ← bytesNFrom 64 v "sig" }
  | 12 => return { env with docSchemaV := ← u32From v "doc_schema_v" }
  | 13 => return { env with schemaFp := some (← bytesNFrom 8 v "schema_fp") }
  | 14 => return { env with prevHash := some (← bytesNFrom 32 v "prev_hash") }
  | 15 => return { env with heads := ← checkedHeadsFrom v }
  | other =>
    if other < 2 ^ 64 then
      if containsFloat v then .error (.badField "float in envelope")
      else .ok { env with unknown := env.unknown.upsert other v }
    else .error (.badField "negative field id")

/-- Take in the entries of the map one after the other, and the numbers met. -/
def readFields : List (Item × Item) → OpEnvelope × List ℕ →
    Except OpEnvelopeError (OpEnvelope × List ℕ)
  | [], read => .ok read
  | (k, v) :: entries, (env, seen) =>
    match k with
    | .scalar (.integer (.ofNat id)) =>
      match setField env id v with
      | .error e => .error e
      | .ok env => readFields entries (env, seen ++ [id])
    | .scalar (.integer (.negSucc _)) => .error (.badField "negative field id")
    | _ => .error (.cbor "non-integer map key")

/-- The names of the fields every envelope has, by number. -/
def requiredFields : List (ℕ × String) :=
  [(1, "v"), (2, "stream_id"), (3, "device_id"), (4, "seq"), (5, "hlc"), (6, "aead_alg"),
    (7, "sig_alg"), (8, "epoch"), (9, "nonce"), (10, "payload"), (11, "sig"), (12, "doc_schema_v")]

/-- The envelope the decoder starts from. -/
def OpEnvelope.initial : OpEnvelope where
  v := .zero 32
  streamId := .zero 16
  deviceId := .zero 16
  seq := .zero 64
  hlc := ⟨.zero 64, .zero 32⟩
  aeadAlg := .none
  sigAlg := .ed25519
  epoch := .zero 32
  nonce := .zero 24
  payload := .empty
  sig := .zero 64
  docSchemaV := .zero 32
  schemaFp := none
  prevHash := none
  heads := []
  unknown := ∅

/-- Whether this build implements the container floor a prefix names. -/
def envelopeFloorReadable (prefixVersion : ℕ) : Bool :=
  envelopeFormatFloor ≤ prefixVersion && prefixVersion ≤ envelopeFormatV

/-- Whether this build reads a container, by its prefix and its field 1. -/
def envelopeFormatReadable (prefixVersion v : ℕ) : Bool :=
  envelopeFloorReadable prefixVersion && prefixVersion ≤ v

/-- The version word of a prefix that is an envelope's. -/
def decodePrefix : Bytes → Option ℕ
  | [s, r, kind, hi, lo] =>
    if [s, r] = magicFirstTwo ∧ kind = magicOpEnvelope then some (hi * 256 + lo) else none
  | _ => none

/-- The checks on a map's fields once they are taken in. -/
def checkEnvelope (prefixVersion : ℕ) (env : OpEnvelope) (seen : List ℕ) :
    Except OpEnvelopeError OpEnvelope :=
  match requiredFields.find? fun f => f.1 ∉ seen with
  | some missing => .error (.badField missing.2)
  | none =>
    if ¬ envelopeFormatReadable prefixVersion env.v.toNat then .error (.badField "v")
    else if env.docSchemaV.toNat < docSchemaFloor then
      .error (.docSchemaTooOld env.docSchemaV.toNat docSchemaFloor)
    else if env.aeadAlg = .none ∧ env.epoch.toNat ≠ 0 then .error .inconsistentAead
    else .ok env

def decodeEnvelope (cbor : Cbor.Codec) (bytes : Bytes) : Except OpEnvelopeError OpEnvelope :=
  match decodePrefix (bytes.take 5) with
  | none => .error .badMagic
  | some version =>
    if ¬ envelopeFloorReadable version then .error .badMagic
    else
      match cbor.read maxEnvelopeDepth (bytes.drop 5) with
      | .error e => .error (.read e)
      | .ok (.map entries, _) =>
        match readFields entries (.initial, []) with
        | .error e => .error e
        | .ok (env, seen) => checkEnvelope version env seen
      | .ok _ => .error (.cbor "envelope must be a map")

/-! ### Reading one field back -/

variable {cbor : Cbor.Codec} {env src acc : OpEnvelope} {omitted : Omit} {id : ℕ} {v : Item}

@[simp] theorem u32From_intItem (x : U32) (field : String) :
    u32From (intItem x.toNat) field = .ok x :=
  dif_pos ⟨Int.natCast_nonneg _, x.toNat_lt⟩

@[simp] theorem u64From_intItem (x : U64) (field : String) :
    u64From (intItem x.toNat) field = .ok x :=
  dif_pos ⟨Int.natCast_nonneg _, x.toNat_lt⟩

@[simp] theorem bytesNFrom_bytesItem {n : ℕ} (b : ByteArr n) (field : String) :
    bytesNFrom n (bytesItem b.bytes) field = .ok b :=
  dif_pos ⟨b.isBytes, b.length_eq⟩

@[simp] theorem payloadFrom_bytesItem (b : ByteVec) :
    payloadFrom (bytesItem b.bytes) = .ok b :=
  dif_pos ⟨b.isBytes, b.length_lt⟩

@[simp] theorem hlcFrom_item (hlc : WireHlc) : hlcFrom hlc.item = .ok hlc := by
  simp [hlcFrom, WireHlc.item, bind, Except.bind, pure, Except.pure]

@[simp] theorem headFrom_item (head : WireHead) : headFrom head.item = .ok head := by
  simp [headFrom, WireHead.item, bind, Except.bind, pure, Except.pure]

@[simp] theorem aeadAlgFrom_toU32 (alg : AeadAlgId) :
    aeadAlgFrom (intItem alg.toU32) = .ok alg := by
  cases alg
  · rfl
  · rfl

@[simp] theorem sigAlgFrom_toU32 (alg : SigAlgId) :
    sigAlgFrom (intItem alg.toU32) = .ok alg := by
  cases alg
  rfl

theorem mapM_headFrom (heads : List WireHead) :
    (heads.map WireHead.item).mapM headFrom = .ok heads := by
  induction heads with
  | nil => rfl
  | cons head heads ih =>
    simp [List.mapM_cons, ih, bind, Except.bind, pure, Except.pure]

theorem checkedHeadsFrom_item {heads : List WireHead} (hne : heads ≠ [])
    (h : checkHeads heads = .ok ()) :
    checkedHeadsFrom (.array (heads.map WireHead.item)) = .ok heads := by
  have hlen : heads.length ≤ maxChainHeads := by
    unfold checkHeads at h
    split at h
    next hc => exact hc.1
    next => cases h
  have hread : headsFrom (.array (heads.map WireHead.item)) = .ok heads := by
    rw [headsFrom, if_neg, mapM_headFrom]
    simp [hne, hlen]
  rw [checkedHeadsFrom, hread]
  simp [bind, Except.bind, h, pure, Except.pure]

/-! ### Readable envelopes -/

/-- The envelopes whose bytes this build reads back: written against a container and a
document schema it reads, and with unknown fields that are unknown, hold no float and nest
within the bound. -/
structure OpEnvelope.Readable (env : OpEnvelope) : Prop where
  format : envelopeFormatFloor ≤ env.v.toNat
  schema : docSchemaFloor ≤ env.docSchemaV.toNat
  epoch : env.aeadAlg = .none → env.epoch.toNat = 0
  heads : checkHeads env.heads = .ok ()
  unknown : ∀ f ∈ env.unknown.rows, (f.1 = 0 ∨ 15 < f.1) ∧ f.1 < 2 ^ 64 ∧
    containsFloat f.2 = false ∧ f.2.Regular ∧ f.2.depth < maxEnvelopeDepth
  size : (env.fields .nothing).length < 2 ^ 64

theorem mem_fields {f : ℕ × Item} : f ∈ env.fields omitted ↔
    (f ∈ env.knownFields ∧ omitted.omits f.1 = false) ∨ f ∈ env.unknown.rows := by
  rw [fields, Cbor.perm_sortBy.mem_iff, List.mem_append, List.mem_filter]
  simp

theorem length_fields_le : (env.fields omitted).length ≤ (env.fields .nothing).length := by
  have hnothing : (fun f : ℕ × Item => !Omit.nothing.omits f.1) = fun _ => true := rfl
  rw [fields, fields, Cbor.perm_sortBy.length_eq, Cbor.perm_sortBy.length_eq,
    hnothing, List.filter_true, List.length_append, List.length_append]
  exact Nat.add_le_add_right (List.length_filter_le ..) _

/-- Row `id` taken over from another table. -/
def copyRow (src acc : Table ℕ Item) (id : ℕ) : Table ℕ Item :=
  match src.find id with
  | some v => acc.upsert id v
  | none => acc.erase id

/-- Field `id` taken over from `src`. -/
def copyField (src acc : OpEnvelope) (id : ℕ) : OpEnvelope where
  v := if id = 1 then src.v else acc.v
  streamId := if id = 2 then src.streamId else acc.streamId
  deviceId := if id = 3 then src.deviceId else acc.deviceId
  seq := if id = 4 then src.seq else acc.seq
  hlc := if id = 5 then src.hlc else acc.hlc
  aeadAlg := if id = 6 then src.aeadAlg else acc.aeadAlg
  sigAlg := if id = 7 then src.sigAlg else acc.sigAlg
  epoch := if id = 8 then src.epoch else acc.epoch
  nonce := if id = 9 then src.nonce else acc.nonce
  payload := if id = 10 then src.payload else acc.payload
  sig := if id = 11 then src.sig else acc.sig
  docSchemaV := if id = 12 then src.docSchemaV else acc.docSchemaV
  schemaFp := if id = 13 then src.schemaFp else acc.schemaFp
  prevHash := if id = 14 then src.prevHash else acc.prevHash
  heads := if id = 15 then src.heads else acc.heads
  unknown := if id = 0 ∨ 15 < id then copyRow src.unknown acc.unknown id else acc.unknown

theorem setField_of_mem_fields (h : src.Readable) (hmem : (id, v) ∈ src.fields omitted) :
    setField acc id v = .ok (copyField src acc id) := by
  rcases mem_fields.mp hmem with ⟨hknown, -⟩ | hunknown
  · simp only [knownFields, List.mem_append, List.mem_cons, Prod.mk.injEq,
      List.not_mem_nil, or_false] at hknown
    rcases hknown with ((hfix | hfp) | hprev) | hheads
    · rcases hfix with h | h | h | h | h | h | h | h | h | h | h | h <;>
        · obtain ⟨rfl, rfl⟩ := h
          simp [setField, copyField, bind, Except.bind, pure, Except.pure]
    · obtain ⟨fp, hsome, heq⟩ := by simpa using hfp
      obtain ⟨rfl, rfl⟩ := heq
      simp [setField, copyField, hsome, bind, Except.bind, pure, Except.pure]
    · obtain ⟨prev, hsome, heq⟩ := by simpa using hprev
      obtain ⟨rfl, rfl⟩ := heq
      simp [setField, copyField, hsome, bind, Except.bind, pure, Except.pure]
    · split at hheads
      next => cases hheads
      next hne =>
        obtain ⟨rfl, rfl⟩ : id = 15 ∧ v = _ := by simpa using hheads
        have hread := checkedHeadsFrom_item (by simpa using hne) h.heads
        simp [setField, copyField, hread, bind, Except.bind, pure, Except.pure]
  · obtain ⟨hid, hlt, hfloat, -⟩ := h.unknown _ hunknown
    have hfind : src.unknown.find id = some v := Table.mem_rows.mp hunknown
    unfold setField
    split
    case h_16 => simp_all [copyField, copyRow]
    all_goals omega

theorem apply_foldl_copyField {α : Type} (π : OpEnvelope → α) (i : ℕ) (ids : List ℕ)
    (h : ∀ acc j, π (copyField src acc j) = if j = i then π src else π acc) :
    π (ids.foldl (copyField src) acc) = if i ∈ ids then π src else π acc := by
  induction ids generalizing acc with
  | nil => rfl
  | cons j ids ih =>
    rw [List.foldl_cons, ih, h]
    by_cases hj : j = i
    · simp [hj]
    · simp [hj, Ne.symm hj]

theorem find_copyRow (src acc : Table ℕ Item) (i j : ℕ) :
    (copyRow src acc j).find i = if j = i then src.find i else acc.find i := by
  unfold copyRow
  split
  next v hv =>
    rw [Table.find_upsert]
    by_cases h : i = j
    · subst h
      simp [hv]
    · simp [h, Ne.symm h]
  next hv =>
    rw [Table.find_erase]
    by_cases h : i = j
    · subst h
      simp [hv]
    · simp [h, Ne.symm h]

/-- What one encoding tells of the envelope. -/
def Omit.blank (omitted : Omit) (env : OpEnvelope) : OpEnvelope where
  __ := env
  payload := if omitted.omits 10 then .empty else env.payload
  sig := if omitted.omits 11 then .zero 64 else env.sig

theorem find_unknown_of_known (h : env.Readable) (hid : 1 ≤ id) (hid' : id ≤ 15) :
    env.unknown.find id = none := by
  rw [Table.find_eq_none]
  intro f hf heq
  have hknown := (h.unknown f hf).1
  omega

theorem le_of_mem_knownFields {f : ℕ × Item} (hf : f ∈ env.knownFields) :
    1 ≤ f.1 ∧ f.1 ≤ 15 := by
  have hids : f.1 ∈ env.knownFields.map Prod.fst := List.mem_map_of_mem hf
  simp only [knownFields, List.map_append, List.map_cons, List.map_nil,
    List.mem_append, List.mem_cons, List.not_mem_nil, or_false] at hids
  rcases hids with ((hids | hids) | hids) | hids
  · omega
  · obtain ⟨g, hg, heq⟩ := List.mem_map.mp hids
    obtain ⟨fp, -, rfl⟩ : ∃ fp, env.schemaFp = some fp ∧ (13, bytesItem fp.bytes) = g := by
      simpa using hg
    omega
  · obtain ⟨g, hg, heq⟩ := List.mem_map.mp hids
    obtain ⟨prev, -, rfl⟩ : ∃ prev, env.prevHash = some prev ∧
        (14, bytesItem prev.bytes) = g := by
      simpa using hg
    omega
  · split at hids
    next => cases hids
    next =>
      simp only [List.map_cons, List.map_nil, List.mem_singleton] at hids
      omega

theorem mem_ids_known {i : ℕ} (h : env.Readable) (hid : 1 ≤ i) (hid' : i ≤ 15) :
    i ∈ (env.fields omitted).map Prod.fst ↔
      i ∈ env.knownFields.map Prod.fst ∧ omitted.omits i = false := by
  simp only [List.mem_map, mem_fields]
  constructor
  · rintro ⟨f, ⟨hf, ho⟩ | hf, rfl⟩
    · exact ⟨⟨f, hf, rfl⟩, ho⟩
    · have hunknown := (h.unknown f hf).1
      omega
  · rintro ⟨⟨f, hf, rfl⟩, ho⟩
    exact ⟨f, .inl ⟨hf, ho⟩, rfl⟩

theorem mem_ids_unknown {i : ℕ} (hid : i = 0 ∨ 15 < i) :
    i ∈ (env.fields omitted).map Prod.fst ↔ (env.unknown.find i).isSome := by
  simp only [List.mem_map, mem_fields, Option.isSome_iff_exists]
  constructor
  · rintro ⟨f, ⟨hf, -⟩ | hf, rfl⟩
    · have hknown := le_of_mem_knownFields hf
      omega
    · exact ⟨f.2, Table.mem_rows.mp hf⟩
  · rintro ⟨v, hv⟩
    exact ⟨(i, v), .inr (Table.mem_rows.mpr hv), rfl⟩

theorem foldl_copyField_fields (h : env.Readable) :
    ((env.fields omitted).map Prod.fst).foldl (copyField env) .initial = omitted.blank env := by
  have hknown := fun i hi hi' => @mem_ids_known env omitted i h hi hi'
  have hrow := fun i hi => @mem_ids_unknown env omitted i hi
  generalize (env.fields omitted).map Prod.fst = ids at hknown hrow ⊢
  have hfix : ∀ i, 1 ≤ i → i ≤ 12 → (i ∈ ids ↔ omitted.omits i = false) := by
    intro i hi hi'
    rw [hknown i hi (by omega)]
    have hmem : i ∈ env.knownFields.map Prod.fst := by
      simp only [knownFields, List.map_append, List.mem_append, List.map_cons,
        List.map_nil, List.mem_cons]
      omega
    simp [hmem]
  have hfree : ∀ i, i ≠ 10 → i ≠ 11 → omitted.omits i = false := by
    intro i h10 h11
    cases omitted <;> simp [Omit.omits, h10, h11]
  -- a field the encoding holds, or one the decoder starts from
  have hfield {α : Type} (π : OpEnvelope → α) (i : ℕ)
      (hcopy : ∀ acc j, π (copyField env acc j) = if j = i then π env else π acc)
      (hmem : i ∈ ids ∨ π .initial = π env) : π (ids.foldl (copyField env) .initial) = π env := by
    rw [apply_foldl_copyField π i ids hcopy]
    split
    next => rfl
    next hi => exact hmem.resolve_left hi
  have hreq {α : Type} (π : OpEnvelope → α) (i : ℕ) (hi : 1 ≤ i ∧ i ≤ 12 ∧ i ≠ 10 ∧ i ≠ 11)
      (hcopy : ∀ acc j, π (copyField env acc j) = if j = i then π env else π acc) :
      π (ids.foldl (copyField env) .initial) = π env :=
    hfield π i hcopy (.inl ((hfix i hi.1 hi.2.1).mpr (hfree i hi.2.2.1 hi.2.2.2)))
  -- a field that an encoding may leave out
  have homit {α : Type} (π : OpEnvelope → α) (i : ℕ) (hi : 1 ≤ i ∧ i ≤ 12)
      (hcopy : ∀ acc j, π (copyField env acc j) = if j = i then π env else π acc) :
      π (ids.foldl (copyField env) .initial) = if omitted.omits i then π .initial else π env := by
    rw [apply_foldl_copyField π i ids hcopy]
    by_cases ho : omitted.omits i = false
    · rw [if_pos ((hfix i hi.1 hi.2).mpr ho), ho]
      rfl
    · rw [if_neg fun hc => ho ((hfix i hi.1 hi.2).mp hc), if_pos (by simpa using ho)]
  have hopt {α : Type} (π : OpEnvelope → α) (i : ℕ) (hi : 13 ≤ i ∧ i ≤ 15)
      (hcopy : ∀ acc j, π (copyField env acc j) = if j = i then π env else π acc)
      (hm : i ∈ env.knownFields.map Prod.fst ∨ π .initial = π env) :
      π (ids.foldl (copyField env) .initial) = π env :=
    hfield π i hcopy (hm.imp_left fun hm =>
      (hknown i (by omega) hi.2).mpr ⟨hm, hfree i (by omega) (by omega)⟩)
  apply OpEnvelope.ext
  case v => exact hreq OpEnvelope.v 1 (by decide) fun _ _ => rfl
  case streamId => exact hreq streamId 2 (by decide) fun _ _ => rfl
  case deviceId => exact hreq deviceId 3 (by decide) fun _ _ => rfl
  case seq => exact hreq OpEnvelope.seq 4 (by decide) fun _ _ => rfl
  case hlc => exact hreq OpEnvelope.hlc 5 (by decide) fun _ _ => rfl
  case aeadAlg => exact hreq aeadAlg 6 (by decide) fun _ _ => rfl
  case sigAlg => exact hreq sigAlg 7 (by decide) fun _ _ => rfl
  case epoch => exact hreq epoch 8 (by decide) fun _ _ => rfl
  case nonce => exact hreq nonce 9 (by decide) fun _ _ => rfl
  case payload => exact homit payload 10 (by decide) fun _ _ => rfl
  case sig => exact homit OpEnvelope.sig 11 (by decide) fun _ _ => rfl
  case docSchemaV => exact hreq docSchemaV 12 (by decide) fun _ _ => rfl
  case schemaFp =>
    refine hopt schemaFp 13 (by decide) (fun _ _ => rfl) ?_
    cases hfp : env.schemaFp with
    | none => exact .inr rfl
    | some fp => exact .inl (by simp [knownFields, hfp])
  case prevHash =>
    refine hopt prevHash 14 (by decide) (fun _ _ => rfl) ?_
    cases hprev : env.prevHash with
    | none => exact .inr rfl
    | some prev => exact .inl (by simp [knownFields, hprev])
  case heads =>
    refine hopt heads 15 (by decide) (fun _ _ => rfl) ?_
    cases hheads : env.heads with
    | nil => exact .inr rfl
    | cons head heads => exact .inl (by simp [knownFields, hheads])
  case unknown =>
    refine Table.ext_find fun i => ?_
    by_cases hi : i = 0 ∨ 15 < i
    · refine hfield (fun e => e.unknown.find i) i (fun acc j => ?_) ?_
      · by_cases hj : j = 0 ∨ 15 < j
        · simp only [copyField, if_pos hj, find_copyRow]
        · have hne : j ≠ i := fun h => hj (h ▸ hi)
          simp only [copyField, if_neg hj, if_neg hne]
      · cases hfind : env.unknown.find i with
        | none => exact .inr rfl
        | some v => exact .inl ((hrow i hi).mpr (by rw [hfind]; rfl))
    · -- no unknown field has the number of a known one
      have hnone : env.unknown.find i = none := find_unknown_of_known h (by omega) (by omega)
      have hkeep : ∀ acc j, (copyField env acc j).unknown.find i = acc.unknown.find i := by
        intro acc j
        by_cases hj : j = 0 ∨ 15 < j
        · have hne : j ≠ i := fun h => hi (h ▸ hj)
          simp only [copyField, if_pos hj, find_copyRow, if_neg hne]
        · simp only [copyField, if_neg hj]
      have hfold : ∀ acc, (ids.foldl (copyField env) acc).unknown.find i = acc.unknown.find i := by
        clear hknown hrow hfix hfree hfield hreq homit hopt
        induction ids with
        | nil => exact fun acc => rfl
        | cons j ids ih => exact fun acc => (ih _).trans (hkeep acc j)
      exact (hfold _).trans hnone.symm

/-! ### The bytes of a readable envelope -/

theorem readFields_fields (h : src.Readable) (l : List (ℕ × Item))
    (hl : ∀ f ∈ l, f ∈ src.fields omitted) (seen : List ℕ) :
    readFields (l.map fun f => (intItem f.1, f.2)) (acc, seen) =
      .ok ((l.map Prod.fst).foldl (copyField src) acc, seen ++ l.map Prod.fst) := by
  induction l generalizing acc seen with
  | nil => simp [readFields]
  | cons f l ih =>
    have hset := @setField_of_mem_fields src acc omitted f.1 f.2 h (hl f List.mem_cons_self)
    have htail := @ih (copyField src acc f.1) (fun g hg => hl g (List.mem_cons_of_mem _ hg))
      (seen ++ [f.1])
    rw [List.map_cons, List.map_cons, List.foldl_cons]
    change (match setField acc f.1 f.2 with
      | .error e => Except.error e
      | .ok env => readFields _ (env, seen ++ [f.1])) = _
    rw [hset]
    simpa using htail

theorem readFields_map (h : env.Readable) :
    readFields ((env.fields omitted).map fun f => (intItem f.1, f.2)) (.initial, []) =
      .ok (omitted.blank env, (env.fields omitted).map Prod.fst) := by
  rw [readFields_fields h _ (fun _ hf => hf), foldl_copyField_fields h, List.nil_append]

theorem regular_intItem {n : ℕ} (h : n < 2 ^ 64) :
    (intItem n).Regular ∧ (intItem n).depth = 0 := by
  refine ⟨Cbor.forall_nodes_scalar.mpr ?_, rfl⟩
  change -2 ^ 64 ≤ (n : ℤ) ∧ (n : ℤ) < 2 ^ 64
  omega

theorem regular_bytesItem {b : Bytes} (h : ∀ x ∈ b, x < 256) (hlen : b.length < 2 ^ 64) :
    (bytesItem b).Regular ∧ (bytesItem b).depth = 0 :=
  ⟨Cbor.forall_nodes_scalar.mpr ⟨h, hlen⟩, rfl⟩

theorem ByteArr.regular {n : ℕ} (b : ByteArr n) (hn : n < 2 ^ 64) :
    (bytesItem b.bytes).Regular ∧ (bytesItem b.bytes).depth = 0 :=
  regular_bytesItem b.isBytes (b.length_eq.trans_lt hn)

theorem Unsigned.regular {bits : ℕ} (x : Unsigned bits) (hbits : bits ≤ 64) :
    (intItem x.toNat).Regular ∧ (intItem x.toNat).depth = 0 :=
  regular_intItem (x.toNat_lt.trans_le (Nat.pow_le_pow_right (by decide) hbits))

theorem regular_array {items : List Item} (hlen : items.length < 2 ^ 64)
    (h : ∀ v ∈ items, v.Regular ∧ v.depth = 0) :
    (Item.array items).Regular ∧ (Item.array items).depth ≤ 1 :=
  ⟨Cbor.forall_nodes_array.mpr ⟨hlen, fun v hv => (h v hv).1⟩,
    Nat.succ_le_succ (Cbor.depthOfItems_le.mpr fun v hv => (h v hv).2.le)⟩

theorem WireHlc.regular (hlc : WireHlc) : hlc.item.Regular ∧ hlc.item.depth ≤ 1 := by
  refine regular_array (by simp) ?_
  simp only [List.forall_mem_cons]
  exact ⟨hlc.physicalMs.regular (by decide), hlc.logical.regular (by decide), by simp⟩

theorem WireHead.regular (head : WireHead) : head.item.Regular ∧ head.item.depth ≤ 1 := by
  refine regular_array (by simp) ?_
  simp only [List.forall_mem_cons]
  exact ⟨head.deviceId.regular (by decide), head.seq.regular (by decide),
    head.opHash.regular (by decide), by simp⟩

theorem length_heads_le (h : checkHeads env.heads = .ok ()) :
    env.heads.length ≤ maxChainHeads := by
  unfold checkHeads at h
  split at h
  next hc => exact hc.1
  next => cases h

theorem regular_knownFields (h : checkHeads env.heads = .ok ()) {f : ℕ × Item}
    (hf : f ∈ env.knownFields) : f.2.Regular ∧ f.2.depth ≤ 2 := by
  have hzero : ∀ {v : Item}, v.Regular ∧ v.depth = 0 → v.Regular ∧ v.depth ≤ 2 :=
    fun hv => ⟨hv.1, hv.2.trans_le (by decide)⟩
  simp only [knownFields, List.mem_append, List.mem_cons, List.not_mem_nil,
    or_false] at hf
  rcases hf with ((hf | hf) | hf) | hf
  · rcases hf with rfl | rfl | rfl | rfl | rfl | rfl | rfl | rfl | rfl | rfl | rfl | rfl
    · exact hzero (env.v.regular (by decide))
    · exact hzero (env.streamId.regular (by decide))
    · exact hzero (env.deviceId.regular (by decide))
    · exact hzero (env.seq.regular (by decide))
    · exact ⟨env.hlc.regular.1, env.hlc.regular.2.trans (by decide)⟩
    · refine hzero (regular_intItem ?_)
      cases env.aeadAlg <;> decide
    · refine hzero (regular_intItem ?_)
      cases env.sigAlg
      decide
    · exact hzero (env.epoch.regular (by decide))
    · exact hzero (env.nonce.regular (by decide))
    · exact hzero (regular_bytesItem env.payload.isBytes env.payload.length_lt)
    · exact hzero (env.sig.regular (by decide))
    · exact hzero (env.docSchemaV.regular (by decide))
  · obtain ⟨fp, -, rfl⟩ : ∃ fp, env.schemaFp = some fp ∧ (13, bytesItem fp.bytes) = f := by
      simpa using hf
    exact hzero (fp.regular (by decide))
  · obtain ⟨prev, -, rfl⟩ : ∃ prev, env.prevHash = some prev ∧ (14, bytesItem prev.bytes) = f := by
      simpa using hf
    exact hzero (prev.regular (by decide))
  · split at hf
    next => cases hf
    next =>
      obtain rfl := List.mem_singleton.mp hf
      have hlen := length_heads_le h
      refine ⟨Cbor.forall_nodes_array.mpr ⟨?_, ?_⟩,
        Nat.succ_le_succ (Cbor.depthOfItems_le.mpr ?_)⟩
      · change (env.heads.map WireHead.item).length < 2 ^ 64
        rw [List.length_map]
        exact hlen.trans_lt (by decide)
      · intro v hv
        obtain ⟨head, -, rfl⟩ := List.mem_map.mp hv
        exact head.regular.1
      · intro v hv
        obtain ⟨head, -, rfl⟩ := List.mem_map.mp hv
        exact head.regular.2

theorem regular_map (h : env.Readable) :
    (env.map omitted).Regular ∧ (env.map omitted).depth ≤ maxEnvelopeDepth := by
  have hfield : ∀ f ∈ env.fields omitted, f.1 < 2 ^ 64 ∧ f.2.Regular ∧ f.2.depth ≤ 7 := by
    intro f hf
    rcases mem_fields.mp hf with ⟨hf, -⟩ | hf
    · obtain ⟨hreg, hdepth⟩ := regular_knownFields h.heads hf
      have hid := (le_of_mem_knownFields hf).2
      exact ⟨by omega, hreg, hdepth.trans (by decide)⟩
    · obtain ⟨-, hid, -, hreg, hdepth⟩ := h.unknown f hf
      exact ⟨hid, hreg, Nat.le_of_lt_succ hdepth⟩
  constructor
  · refine Cbor.forall_nodes_map.mpr ⟨?_, fun e he => ?_⟩
    · change ((env.fields omitted).map _).length < 2 ^ 64
      rw [List.length_map]
      exact length_fields_le.trans_lt h.size
    · obtain ⟨f, hf, rfl⟩ := List.mem_map.mp he
      exact ⟨(regular_intItem (hfield f hf).1).1, (hfield f hf).2.1⟩
  · refine Nat.succ_le_succ (Cbor.depthOfEntries_le.mpr fun e he => ?_)
    obtain ⟨f, hf, rfl⟩ := List.mem_map.mp he
    exact ⟨Nat.zero_le _, (hfield f hf).2.2⟩

theorem checkEnvelope_readable (h : env.Readable) :
    checkEnvelope envelopeFormatFloor env ((env.fields .nothing).map Prod.fst) = .ok env := by
  have hnone : (requiredFields.find? fun f => f.1 ∉ (env.fields .nothing).map Prod.fst) = none := by
    rw [List.find?_eq_none]
    intro f hf
    have hid : 1 ≤ f.1 ∧ f.1 ≤ 12 := by
      simp only [requiredFields, List.mem_cons, List.not_mem_nil, or_false] at hf
      rcases hf with rfl | rfl | rfl | rfl | rfl | rfl | rfl | rfl | rfl | rfl | rfl | rfl <;> simp
    have hmem : f.1 ∈ (env.fields .nothing).map Prod.fst := by
      rw [mem_ids_known h hid.1 (by omega)]
      refine ⟨?_, rfl⟩
      simp only [knownFields, List.map_append, List.mem_append, List.map_cons,
        List.map_nil, List.mem_cons]
      omega
    simp only [decide_not, Bool.not_eq_true', decide_eq_false_iff_not, not_not]
    exact hmem
  have hformat : envelopeFormatReadable envelopeFormatFloor env.v.toNat = true := by
    simp only [envelopeFormatReadable, Bool.and_eq_true, decide_eq_true_eq]
    exact ⟨by decide, h.format⟩
  rw [checkEnvelope, hnone]
  simp only [hformat, not_true_eq_false, if_false, if_neg (Nat.not_lt.mpr h.schema)]
  exact if_neg fun hc => hc.2 (h.epoch hc.1)

/-- **A readable envelope decodes from its bytes,** whatever comes after them. -/
theorem decodeEnvelope_writeEnvelope (hc : cbor.Lawful) (h : env.Readable) (rest : Bytes) :
    decodeEnvelope cbor (writeEnvelope cbor env ++ rest) = .ok env := by
  obtain ⟨hreg, hdepth⟩ := @regular_map env .nothing h
  have hread := hc.read_write _ hreg maxEnvelopeDepth rest
  rw [if_pos hdepth] at hread
  have htake : (writeEnvelope cbor env ++ rest).take 5 = writePrefix := by
    rw [writeEnvelope, List.append_assoc]
    exact List.take_left' rfl
  have hdrop : (writeEnvelope cbor env ++ rest).drop 5 = cbor.write (env.map .nothing) ++ rest := by
    rw [writeEnvelope, List.append_assoc]
    exact List.drop_left' rfl
  have hprefix : decodePrefix writePrefix = some envelopeFormatFloor := by decide
  have hfloor : ¬ ¬ envelopeFloorReadable envelopeFormatFloor = true := by decide
  unfold decodeEnvelope
  rw [htake, hprefix]
  dsimp only
  rw [if_neg hfloor, hdrop, hread, OpEnvelope.map]
  dsimp only
  rw [readFields_map h]
  exact checkEnvelope_readable h

/-! ### What decodes is readable -/

theorem of_map_setField {α : Type} {x : Except OpEnvelopeError α} {f : α → OpEnvelope}
    (h : (do return f (← x)) = .ok env) : ∃ a, x = .ok a ∧ f a = env := by
  cases x with
  | error e => cases h
  | ok a => exact ⟨a, rfl, Except.ok.inj h⟩

theorem checkHeads_of_checkedHeadsFrom {heads : List WireHead}
    (h : checkedHeadsFrom v = .ok heads) : checkHeads heads = .ok () := by
  unfold checkedHeadsFrom at h
  cases hread : headsFrom v with
  | error e =>
    rw [hread] at h
    cases h
  | ok hs =>
    rw [hread] at h
    cases hcheck : checkHeads hs with
    | error e =>
      change (checkHeads hs >>= fun _ => pure hs) = _ at h
      rw [hcheck] at h
      cases h
    | ok u =>
      change (checkHeads hs >>= fun _ => pure hs) = _ at h
      rw [hcheck] at h
      cases h
      exact hcheck

theorem of_setField (h : setField acc id v = .ok env) :
    (env.schemaFp = acc.schemaFp ∨ id = 13) ∧ (env.prevHash = acc.prevHash ∨ id = 14) ∧
      (env.heads = acc.heads ∨ id = 15 ∧ checkHeads env.heads = .ok ()) ∧
      (env.unknown = acc.unknown ∨ (id = 0 ∨ 15 < id) ∧ id < 2 ^ 64 ∧ containsFloat v = false ∧
        env.unknown = acc.unknown.upsert id v) := by
  unfold setField at h
  split at h
  case h_15 =>
    obtain ⟨heads, hread, rfl⟩ := of_map_setField h
    exact ⟨.inl rfl, .inl rfl, .inr ⟨rfl, checkHeads_of_checkedHeadsFrom hread⟩, .inl rfl⟩
  case h_16 =>
    split at h
    next hlt =>
      split at h
      next => cases h
      next hfloat =>
        cases h
        refine ⟨.inl rfl, .inl rfl, .inl rfl, .inr ⟨?_, hlt, by simpa using hfloat, rfl⟩⟩
        -- the numbers from 1 to 15 are the cases above
        by_contra hid
        obtain ⟨hlo, hhi⟩ : 1 ≤ id ∧ id ≤ 15 := by omega
        interval_cases id <;> contradiction
    next => cases h
  all_goals
    obtain ⟨x, -, rfl⟩ := of_map_setField h
    simp

/-- What the envelope read so far keeps: field 15 in its shape, unknown fields that are unknown,
and no field but those met, given a number of levels the items of the map are within. -/
structure ReadSoFar (env : OpEnvelope) (seen : List ℕ) : Prop where
  schemaFp : env.schemaFp.isSome → 13 ∈ seen
  prevHash : env.prevHash.isSome → 14 ∈ seen
  heads : env.heads ≠ [] → 15 ∈ seen
  check : checkHeads env.heads = .ok ()
  unknown : ∀ f ∈ env.unknown.rows, f.1 ∈ seen ∧ (f.1 = 0 ∨ 15 < f.1) ∧ f.1 < 2 ^ 64 ∧
    containsFloat f.2 = false ∧ f.2.Regular ∧ f.2.depth < maxEnvelopeDepth

theorem readSoFar_initial : ReadSoFar .initial [] where
  schemaFp h := by cases h
  prevHash h := by cases h
  heads h := absurd rfl h
  check := by decide
  unknown f hf := by cases hf

theorem ReadSoFar.setField {seen : List ℕ} (hacc : ReadSoFar acc seen)
    (hv : v.Regular ∧ v.depth < maxEnvelopeDepth) (h : setField acc id v = .ok env) :
    ReadSoFar env (seen ++ [id]) := by
  obtain ⟨hfp, hprev, hheads, hunknown⟩ := of_setField h
  have hleft : ∀ {i : ℕ}, i ∈ seen → i ∈ seen ++ [id] := List.mem_append_left _
  constructor
  · rcases hfp with heq | rfl
    · rw [heq]
      exact fun hs => hleft (hacc.schemaFp hs)
    · simp
  · rcases hprev with heq | rfl
    · rw [heq]
      exact fun hs => hleft (hacc.prevHash hs)
    · simp
  · rcases hheads with heq | ⟨rfl, -⟩
    · rw [heq]
      exact fun hs => hleft (hacc.heads hs)
    · simp
  · rcases hheads with heq | ⟨-, hcheck⟩
    · rw [heq]
      exact hacc.check
    · exact hcheck
  · intro f hf
    rcases hunknown with heq | ⟨hid, hlt, hfloat, heq⟩
    · rw [heq] at hf
      exact ⟨hleft (hacc.unknown f hf).1, (hacc.unknown f hf).2⟩
    · rw [heq, Table.mem_rows, Table.find_upsert] at hf
      split at hf
      next hfid =>
        cases hf
        exact ⟨by simp [hfid], hfid ▸ hid, hfid ▸ hlt, hfloat, hv⟩
      next =>
        have hrow := hacc.unknown f (Table.mem_rows.mpr hf)
        exact ⟨hleft hrow.1, hrow.2⟩

theorem ReadSoFar.readFields {entries : List (Item × Item)} {seen seen' : List ℕ}
    (hacc : ReadSoFar acc seen)
    (hentries : ∀ e ∈ entries, e.2.Regular ∧ e.2.depth < maxEnvelopeDepth)
    (h : readFields entries (acc, seen) = .ok (env, seen')) :
    ReadSoFar env seen' ∧ seen'.length = seen.length + entries.length := by
  induction entries generalizing acc seen with
  | nil =>
    cases h
    exact ⟨hacc, rfl⟩
  | cons e entries ih =>
    obtain ⟨k, v⟩ := e
    unfold Sunrise.readFields at h
    split at h
    next id =>
      split at h
      next => cases h
      next acc' hset =>
        have hstep := hacc.setField (hentries _ List.mem_cons_self) hset
        obtain ⟨hread, hlen⟩ := ih hstep (fun e he => hentries e (List.mem_cons_of_mem _ he)) h
        refine ⟨hread, ?_⟩
        rw [hlen, List.length_append, List.length_cons, List.length_cons, List.length_nil]
        omega
    next => cases h
    next => cases h

theorem nodup_fields (hunknown : ∀ f ∈ env.unknown.rows, f.1 = 0 ∨ 15 < f.1) :
    ((env.fields .nothing).map Prod.fst).Nodup := by
  have hperm := (@Cbor.perm_sortBy _ _ _ (Prod.fst : ℕ × Item → ℕ)
    ((env.knownFields.filter fun f => !Omit.nothing.omits f.1) ++ env.unknown.rows)).map Prod.fst
  refine hperm.nodup_iff.mpr ?_
  have hnothing : (fun f : ℕ × Item => !Omit.nothing.omits f.1) = fun _ => true := rfl
  rw [hnothing, List.filter_true, List.map_append, List.nodup_append]
  refine ⟨?_, ?_, ?_⟩
  · unfold knownFields
    cases env.schemaFp <;> cases env.prevHash <;> cases env.heads <;> simp
  · refine List.Pairwise.map _ ?_ env.unknown.sorted
    exact fun a b hab => hab.ne
  · intro i hi j hj
    obtain ⟨f, hf, rfl⟩ := List.mem_map.mp hi
    obtain ⟨g, hg, rfl⟩ := List.mem_map.mp hj
    have hknown := le_of_mem_knownFields hf
    have hfree := hunknown g hg
    omega

theorem ReadSoFar.length_fields_le {seen : List ℕ} (h : ReadSoFar env seen)
    (hreq : ∀ i, 1 ≤ i → i ≤ 12 → i ∈ seen) : (env.fields .nothing).length ≤ seen.length := by
  have hsub : (env.fields .nothing).map Prod.fst ⊆ seen := by
    intro i hi
    obtain ⟨f, hf, rfl⟩ := List.mem_map.mp hi
    rcases mem_fields.mp hf with ⟨hknown, -⟩ | hunknown
    · by_cases h12 : f.1 ≤ 12
      · exact hreq f.1 (le_of_mem_knownFields hknown).1 h12
      · simp only [knownFields, List.mem_append, List.mem_cons, List.not_mem_nil,
          or_false] at hknown
        rcases hknown with ((hknown | hknown) | hknown) | hknown
        · exfalso
          rcases hknown with rfl | rfl | rfl | rfl | rfl | rfl | rfl | rfl | rfl | rfl | rfl |
            rfl <;> simp at h12
        · obtain ⟨fp, hfp, rfl⟩ : ∃ fp, env.schemaFp = some fp ∧
              (13, bytesItem fp.bytes) = f := by
            simpa using hknown
          exact h.schemaFp (by rw [hfp]; rfl)
        · obtain ⟨prev, hprev, rfl⟩ : ∃ prev, env.prevHash = some prev ∧
              (14, bytesItem prev.bytes) = f := by
            simpa using hknown
          exact h.prevHash (by rw [hprev]; rfl)
        · split at hknown
          next => cases hknown
          next hne =>
            obtain rfl := List.mem_singleton.mp hknown
            exact h.heads (by simpa using hne)
    · exact (h.unknown f hunknown).1
  have hlen := ((nodup_fields fun f hf => (h.unknown f hf).2.1).subperm hsub).length_le
  rwa [List.length_map] at hlen

theorem of_checkEnvelope {version : ℕ} {seen : List ℕ} {env' : OpEnvelope}
    (h : checkEnvelope version env seen = .ok env') : env' = env ∧
      (∀ i, 1 ≤ i → i ≤ 12 → i ∈ seen) ∧ envelopeFormatFloor ≤ env.v.toNat ∧
      docSchemaFloor ≤ env.docSchemaV.toNat ∧ (env.aeadAlg = .none → env.epoch.toNat = 0) := by
  unfold checkEnvelope at h
  split at h
  next => cases h
  next hnone =>
    split at h
    next => cases h
    next hformat =>
      split at h
      next => cases h
      next hschema =>
        split at h
        next => cases h
        next hepoch =>
          cases h
          refine ⟨rfl, fun i hi hi' => ?_, ?_, Nat.not_lt.mp hschema, fun ha => ?_⟩
          · rw [List.find?_eq_none] at hnone
            have hall : ∀ f ∈ requiredFields, f.1 ∈ seen := fun f hf => by simpa using hnone f hf
            interval_cases i
            all_goals exact hall (_, _) (by simp [requiredFields]; rfl)
          · simp only [envelopeFormatReadable, envelopeFloorReadable, Bool.and_eq_true,
              decide_eq_true_eq, not_not] at hformat
            omega
          · by_contra hne
            exact hepoch ⟨ha, hne⟩

theorem readable_of_decodeEnvelope (hc : cbor.Lawful) {bytes : Bytes}
    (h : decodeEnvelope cbor bytes = .ok env) : env.Readable := by
  unfold decodeEnvelope at h
  split at h
  next => cases h
  next version _ =>
    split at h
    next => cases h
    next =>
      split at h
      next => cases h
      next entries rest hread =>
        obtain ⟨hreg, hdepth⟩ := hc.regular_of_read _ _ _ _ hread
        obtain ⟨hsize, hreg⟩ := Cbor.forall_nodes_map.mp hreg
        have hdepth := Cbor.depthOfEntries_le.mp (Nat.le_of_succ_le_succ hdepth)
        split at h
        next => cases h
        next acc seen hfields =>
          obtain ⟨rfl, hreq, hformat, hschema, hepoch⟩ := of_checkEnvelope h
          obtain ⟨hread, hlen⟩ := readSoFar_initial.readFields
            (fun e he => ⟨(hreg e he).2, Nat.lt_succ_of_le (hdepth e he).2⟩) hfields
          refine ⟨hformat, hschema, hepoch, hread.check, fun f hf => (hread.unknown f hf).2, ?_⟩
          have hle := hread.length_fields_le hreq
          rw [hlen, List.length_nil, Nat.zero_add] at hle
          exact hle.trans_lt hsize
      next => cases h

/-! ### The format -/

theorem blank_eq_of_encodeCbor_eq {e₁ e₂ : OpEnvelope} (hc : cbor.Lawful) (h₁ : e₁.Readable)
    (h₂ : e₂.Readable) (h : encodeCbor cbor e₁ omitted = encodeCbor cbor e₂ omitted) :
    omitted.blank e₁ = omitted.blank e₂ := by
  have hmap := Item.map.inj (hc.write_injective (regular_map h₁).1 (regular_map h₂).1 h)
  have hread := @readFields_map e₁ omitted h₁
  rw [hmap, readFields_map h₂] at hread
  exact (congrArg Prod.fst (Except.ok.inj hread)).symm

theorem sigInputBytes_inj {blake3 : Bytes → Bytes} {e₁ e₂ : OpEnvelope} (hc : cbor.Lawful)
    (hhash : Function.Injective blake3) (h₁ : e₁.Readable) (h₂ : e₂.Readable)
    (h : sigInputBytes cbor blake3 e₁ = sigInputBytes cbor blake3 e₂) :
    e₁ = e₂.withSig e₁.sig := by
  have hblank := blank_eq_of_encodeCbor_eq hc h₁ h₂ (hhash (List.append_cancel_left h))
  rw [OpEnvelope.ext_iff] at hblank ⊢
  simpa [Omit.blank, Omit.omits, OpEnvelope.withPayload, OpEnvelope.withSig] using hblank

theorem encodeAad_inj {e₁ e₂ : OpEnvelope} (hc : cbor.Lawful) (h₁ : e₁.Readable)
    (h₂ : e₂.Readable) (h : encodeAad cbor e₁ = encodeAad cbor e₂) :
    e₁ = (e₂.withPayload e₁.payload).withSig e₁.sig := by
  have hblank := blank_eq_of_encodeCbor_eq hc h₁ h₂ h
  rw [OpEnvelope.ext_iff] at hblank ⊢
  simpa [Omit.blank, Omit.omits, OpEnvelope.withPayload, OpEnvelope.withSig] using hblank

theorem opHash_inj {blake3 : Bytes → Bytes} {e₁ e₂ : OpEnvelope} (hc : cbor.Lawful)
    (hhash : Function.Injective blake3) (h₁ : e₁.Readable) (h₂ : e₂.Readable)
    (h : opHash cbor blake3 e₁ = opHash cbor blake3 e₂) : e₁ = e₂ :=
  blank_eq_of_encodeCbor_eq hc h₁ h₂ (hhash h)

theorem length_fields : (env.fields .nothing).length = 12 + env.schemaFp.toList.length +
    env.prevHash.toList.length + (if env.heads.isEmpty then 0 else 1) +
    env.unknown.rows.length := by
  have hnothing : (fun f : ℕ × Item => !Omit.nothing.omits f.1) = fun _ => true := rfl
  have hhead : ∀ l : List (ℕ × Item), (if env.heads.isEmpty then [] else l).length =
      if env.heads.isEmpty then 0 else l.length := by
    intro l
    split <;> rfl
  rw [fields, Cbor.perm_sortBy.length_eq, hnothing, List.filter_true,
    List.length_append, knownFields, List.length_append, List.length_append,
    List.length_append, hhead]
  cases env.schemaFp <;> cases env.prevHash <;> rfl

theorem readable_sealed {payload : ByteVec} {sig : ByteArr 64} :
    ((env.withPayload payload).withSig sig).Readable ↔ env.Readable := by
  have hsize : (((env.withPayload payload).withSig sig).fields .nothing).length =
      (env.fields .nothing).length := by
    rw [length_fields, length_fields]
    rfl
  constructor
  · exact fun h => ⟨h.format, h.schema, h.epoch, h.heads, h.unknown, hsize.symm.trans_lt h.size⟩
  · exact fun h => ⟨h.format, h.schema, h.epoch, h.heads, h.unknown, hsize.trans_lt h.size⟩

theorem of_sealPayload {Key : Type} {aeadSeal : Key → ByteArr 24 → ByteVec → Bytes → Option ByteVec}
    {streamKey : Option Key} (h : sealPayload cbor aeadSeal acc streamKey = .ok env) :
    ∃ ciphertext, env = acc.withPayload ciphertext := by
  unfold sealPayload at h
  split at h
  next =>
    cases h
    exact ⟨env.payload, rfl⟩
  next => cases h
  next =>
    split at h
    next => cases h
    next ciphertext _ =>
      cases h
      exact ⟨ciphertext, rfl⟩

theorem of_sealEnvelope {Key : Type} {blake3 : Bytes → Bytes}
    {aeadSeal : Key → ByteArr 24 → ByteVec → Bytes → Option ByteVec} {sign : Bytes → ByteArr 64}
    {streamKey : Option Key} {bytes : Bytes}
    (h : sealEnvelope cbor blake3 aeadSeal sign env streamKey = .ok bytes) :
    ∃ ciphertext, sealPayload cbor aeadSeal env streamKey = .ok (env.withPayload ciphertext) ∧
      bytes = writeEnvelope cbor ((env.withPayload ciphertext).withSig
        (sign (sigInputBytes cbor blake3 (env.withPayload ciphertext)))) := by
  unfold sealEnvelope at h
  split at h
  next => cases h
  next env' hsealed =>
    cases h
    unfold sealedEnvelope at hsealed
    split at hsealed
    next => cases hsealed
    next =>
      split at hsealed
      next => cases hsealed
      next =>
        split at hsealed
        next => cases hsealed
        next =>
          split at hsealed
          next => cases hsealed
          next env₁ hpayload =>
            cases hsealed
            obtain ⟨ciphertext, rfl⟩ := of_sealPayload hpayload
            exact ⟨ciphertext, hpayload, rfl⟩

/-- **The format.** A sealed envelope decodes to itself exactly when it is readable. Of two
envelopes that decode, equal signature inputs leave open the signature alone, equal
associated data the payload and the signature, and equal hashes nothing. What decodes to an
envelope is never all that does. -/
theorem decodeEnvelope_spec {Key : Type} {blake3 : Bytes → Bytes} (hc : cbor.Lawful)
    (hhash : Function.Injective blake3)
    (aeadSeal : Key → ByteArr 24 → ByteVec → Bytes → Option ByteVec)
    (sign : Bytes → ByteArr 64) :
    (∀ (env : OpEnvelope) (streamKey : Option Key) (bytes : Bytes),
      sealEnvelope cbor blake3 aeadSeal sign env streamKey = .ok bytes →
      ∃ ciphertext, sealPayload cbor aeadSeal env streamKey = .ok (env.withPayload ciphertext) ∧
        (decodeEnvelope cbor bytes = .ok ((env.withPayload ciphertext).withSig
          (sign (sigInputBytes cbor blake3 (env.withPayload ciphertext)))) ↔ env.Readable)) ∧
    (∀ (bytes₁ bytes₂ : Bytes) (e₁ e₂ : OpEnvelope), decodeEnvelope cbor bytes₁ = .ok e₁ →
      decodeEnvelope cbor bytes₂ = .ok e₂ →
      (sigInputBytes cbor blake3 e₁ = sigInputBytes cbor blake3 e₂ →
        e₁ = e₂.withSig e₁.sig) ∧
      (encodeAad cbor e₁ = encodeAad cbor e₂ →
        e₁ = (e₂.withPayload e₁.payload).withSig e₁.sig) ∧
      (opHash cbor blake3 e₁ = opHash cbor blake3 e₂ ↔ e₁ = e₂)) ∧
    ∀ (bytes : Bytes) (env : OpEnvelope), decodeEnvelope cbor bytes = .ok env →
      ∃ bytes' ≠ bytes, decodeEnvelope cbor bytes' = .ok env := by
  refine ⟨?_, ?_, ?_⟩
  · intro env streamKey bytes h
    obtain ⟨ciphertext, hpayload, rfl⟩ := of_sealEnvelope h
    refine ⟨ciphertext, hpayload, fun hd => ?_, fun hr => ?_⟩
    · exact readable_sealed.mp (readable_of_decodeEnvelope hc hd)
    · rw [← List.append_nil (writeEnvelope cbor _)]
      exact decodeEnvelope_writeEnvelope hc (readable_sealed.mpr hr) []
  · intro bytes₁ bytes₂ e₁ e₂ hd₁ hd₂
    have h₁ := readable_of_decodeEnvelope hc hd₁
    have h₂ := readable_of_decodeEnvelope hc hd₂
    exact ⟨sigInputBytes_inj hc hhash h₁ h₂, encodeAad_inj hc h₁ h₂,
      opHash_inj hc hhash h₁ h₂, fun h => h ▸ rfl⟩
  · -- the canonical bytes decode to it, and so do they with a byte after them
    intro bytes env hd
    have h := readable_of_decodeEnvelope hc hd
    by_cases heq : bytes = writeEnvelope cbor env ++ []
    · refine ⟨writeEnvelope cbor env ++ [0], ?_, decodeEnvelope_writeEnvelope hc h [0]⟩
      rw [heq]
      exact fun hc => absurd (List.append_cancel_left hc) (by simp)
    · exact ⟨writeEnvelope cbor env ++ [], Ne.symm heq, decodeEnvelope_writeEnvelope hc h []⟩

/-- A control envelope with one field this build does not know. -/
def controlEnvelope : OpEnvelope where
  __ := initial
  v := ⟨3, by decide⟩
  docSchemaV := ⟨22, by decide⟩
  seq := ⟨1, by decide⟩
  unknown := (∅ : Table ℕ Item).upsert 16 (.scalar .null)

theorem readable_controlEnvelope : controlEnvelope.Readable := by
  refine ⟨by decide, by decide, fun _ => rfl, by decide, fun f hf => ?_, ?_⟩
  · obtain rfl : f = (16, .scalar .null) := List.mem_singleton.mp hf
    exact ⟨.inr (by decide), by decide, rfl, Cbor.forall_nodes_scalar.mpr trivial, by decide⟩
  · rw [length_fields]
    decide

theorem decodeEnvelope_spec_control :
    (decodeEnvelope Cbor.codec (writeEnvelope Cbor.codec controlEnvelope) = .ok controlEnvelope) ∧
      ∃ bytes' ≠ writeEnvelope Cbor.codec controlEnvelope,
        decodeEnvelope Cbor.codec bytes' = .ok controlEnvelope := by
  obtain ⟨hround, -, hmany⟩ := @decodeEnvelope_spec Cbor.codec Unit id Cbor.codec_lawful
    Function.injective_id (fun _ _ p _ => some p) (fun _ => .zero 64)
  obtain ⟨ciphertext, hpayload, hiff⟩ := hround controlEnvelope none _ rfl
  rw [← Except.ok.inj hpayload] at hiff
  have hd := hiff.mpr readable_controlEnvelope
  exact ⟨hd, hmany _ _ hd⟩

/-- Two byte strings that differ in their last byte decode to one envelope. -/
theorem not_unique_decodeEnvelope : ¬ ∀ (bytes bytes' : Bytes) (env : OpEnvelope),
    decodeEnvelope Cbor.codec bytes = .ok env → decodeEnvelope Cbor.codec bytes' = .ok env →
    bytes = bytes' := by
  intro h
  have heq := h (writeEnvelope Cbor.codec controlEnvelope ++ [])
    (writeEnvelope Cbor.codec controlEnvelope ++ [0]) controlEnvelope
    (decodeEnvelope_writeEnvelope Cbor.codec_lawful readable_controlEnvelope [])
    (decodeEnvelope_writeEnvelope Cbor.codec_lawful readable_controlEnvelope [0])
  exact absurd (List.append_cancel_left heq) (by simp)

end Sunrise
