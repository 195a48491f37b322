import Sunrise.Blob.Chunk
import Sunrise.Keys.PairingCodec
import Sunrise.Lib.Keystream

/-!
# The recovery blob

An account's identity keys are sealed under its recovery code: a payload of integer fields, under a
key derived from the code and a salt, bound to the identity the account record names. The relay
keeps the first bytes of a replaced blob, from which a code that opened it can be told.

The cipher, the key derivation and the hash of an identity are parameters.

* `RecoveryPayload`, `payloadToCbor`, `payloadFromCbor` — the payload and its bytes.
* `sealUnder`, `unsealRecoveryBlob`, `retiredCheckMatches` — the blob.
* `reopens_iff` — **a sealed blob opens again exactly when it has no more keys than that.**
-/

namespace Sunrise

open Cbor

namespace Recovery

open Cbor (Item)

/-! ### The magic prefix -/

/-- How long a magic prefix is. -/
def magicLen : ℕ := 5

/-- What a prefix is of. -/
inductive MagicKind where
  | frame
  | opEnvelope
  | recoveryBlob
  | snapshot
  | vaultMeta
  | diagBundle
  | pairingPayload
  | keyBundle
  | identityChain
deriving DecidableEq

def MagicKind.asByte : MagicKind → ℕ
  | .frame => 1
  | .opEnvelope => 2
  | .recoveryBlob => 3
  | .snapshot => 4
  | .vaultMeta => 5
  | .diagBundle => 6
  | .pairingPayload => 7
  | .keyBundle => 8
  | .identityChain => 9

def MagicKind.fromByte : ℕ → Option MagicKind
  | 1 => some .frame
  | 2 => some .opEnvelope
  | 3 => some .recoveryBlob
  | 4 => some .snapshot
  | 5 => some .vaultMeta
  | 6 => some .diagBundle
  | 7 => some .pairingPayload
  | 8 => some .keyBundle
  | 9 => some .identityChain
  | _ => none

@[simp] theorem MagicKind.fromByte_asByte (k : MagicKind) : fromByte k.asByte = some k := by
  cases k <;> rfl

/-- Why a prefix is none. -/
inductive MagicError where
  | badLength (len : ℕ)
  | badAscii
  | unknownKind (kind : ℕ)
deriving DecidableEq

def writePrefix (kind : MagicKind) (version : ℕ) : Bytes :=
  magicFirstTwo ++ kind.asByte :: bigEndian 2 version

def decodePrefix (buf : Bytes) : Except MagicError (MagicKind × ℕ) :=
  match buf with
  | s :: r :: kind :: hi :: lo :: _ =>
    if [s, r] ≠ magicFirstTwo then .error .badAscii
    else match MagicKind.fromByte kind with
      | some kind => .ok (kind, ofBigEndian [hi, lo])
      | none => .error (.unknownKind kind)
  | _ => .error (.badLength buf.length)

theorem length_writePrefix (kind : MagicKind) (version : ℕ) :
    (writePrefix kind version).length = magicLen := rfl

theorem decodePrefix_writePrefix (kind : MagicKind) {version : ℕ} (h : version < 256 ^ 2) :
    decodePrefix (writePrefix kind version) = .ok (kind, version) := by
  have hversion : ofBigEndian (bigEndian 2 version) = version :=
    ofBigEndian_bigEndian h
  unfold decodePrefix writePrefix magicFirstTwo
  simp only [bigEndian, List.nil_append, List.cons_append, ne_eq, not_true, if_false,
    MagicKind.fromByte_asByte] at hversion ⊢
  rw [hversion]

/-! ### The payload -/

def recoveryMagicVersion : ℕ := 1

/-- What the bound data starts with. -/
def recoveryAadPrefix : Bytes := utf8 "sunrise.recovery_blob.v1"

def recoverySaltLen : ℕ := 16

def recoveryNonceLen : ℕ := 24

def maxMetaGenesisKeys : ℕ := 16

/-- How many bytes of ciphertext a retired check keeps. -/
def retiredCtPrefixLen : ℕ := 4

/-- How many bytes of a replaced blob the relay keeps. -/
def retiredCheckLen : ℕ := magicLen + recoverySaltLen + recoveryNonceLen + retiredCtPrefixLen

/-- A vector of keys. Its length is a number of 64 bits. -/
structure KeyVec where
  keys : List WireKey
  length_lt : keys.length < 2 ^ 64
deriving DecidableEq

def KeyVec.empty : KeyVec := ⟨[], by decide⟩

/-- One key more. Memory runs out long before the length does. -/
def KeyVec.push (v : KeyVec) (key : WireKey) : KeyVec :=
  if h : (v.keys ++ [key]).length < 2 ^ 64 then ⟨v.keys ++ [key], h⟩ else v

/-- What a recovery blob holds. -/
structure RecoveryPayload where
  idSPriv : WireKey
  idDPriv : WireKey
  idSPub : WireKey
  idDPub : WireKey
  identityId : WireId
  createdAtMs : U64
  /-- The account's genesis key, when the keys are a successor's. -/
  accountIdSPub : Option WireKey
  /-- The genesis keys of the vault-meta stream, which a successor cannot derive. -/
  metaGenesisKeys : KeyVec
deriving DecidableEq

/-- What can go wrong. -/
inductive RecoveryError where
  | badMagic
  | truncated
  | authFailed
  /-- With the text of this module, or the decoder's own. -/
  | cbor (what : Option String)
  | tooDeep
deriving DecidableEq

def payloadEntries (p : RecoveryPayload) : List (Item × Item) :=
  [(intItem 1, bytesItem p.idSPriv.bytes), (intItem 2, bytesItem p.idDPriv.bytes),
    (intItem 3, bytesItem p.idSPub.bytes), (intItem 4, bytesItem p.idDPub.bytes),
    (intItem 5, bytesItem p.identityId.bytes), (intItem 6, intItem p.createdAtMs.toNat)] ++
  (p.accountIdSPub.map fun pk => (intItem 7, bytesItem pk.bytes)).toList ++
  if p.metaGenesisKeys.keys = [] then []
  else [(intItem 8, .array (p.metaGenesisKeys.keys.map fun k => bytesItem k.bytes))]

def payloadToCbor (p : RecoveryPayload) : Bytes := Cbor.write (.map (payloadEntries p))

/-- What has been read of a payload. -/
structure PayloadFields where
  idSPriv : Option WireKey
  idDPriv : Option WireKey
  idSPub : Option WireKey
  idDPub : Option WireKey
  identityId : Option WireId
  createdAtMs : Option U64
  accountIdSPub : Option WireKey
  metaGenesisKeys : KeyVec

def PayloadFields.none : PayloadFields := ⟨.none, .none, .none, .none, .none, .none, .none, .empty⟩

def shapeError : RecoveryError := .cbor (some "field shape error")

def bytesOf (n : ℕ) : Item → Except RecoveryError (ByteArr n)
  | .scalar (.bytes b) =>
    -- the bytes of an item are bytes, so only the length can be wrong
    if h : b.length = n ∧ ∀ x ∈ b, x < 256 then .ok ⟨b, h.2, h.1⟩ else .error shapeError
  | _ => .error shapeError

theorem createdAt_lt {i : ℤ} (h : 0 ≤ i ∧ i.toNat < 2 ^ 64) : i.toNat < 2 ^ 64 := h.2

/-- The creation time. -/
def createdAtOf : Item → Except RecoveryError U64
  | .scalar (.integer i) =>
    if h : 0 ≤ i ∧ i.toNat < 2 ^ 64 then .ok ⟨i.toNat, createdAt_lt h⟩
    else .error (.cbor (some "created_at out of range"))
  | _ => .error shapeError

/-- Genesis keys put behind those there are. -/
def pushKeys (keys : KeyVec) : Item → Except RecoveryError KeyVec
  | .array items =>
    if items.length ≤ maxMetaGenesisKeys then
      items.foldlM (fun keys k => (bytesOf 32 k).map keys.push) keys
    else .error shapeError
  | _ => .error shapeError

/-- Take a field in. A field of no known number is skipped. -/
def takeField (f : PayloadFields) (e : Item × Item) : Except RecoveryError PayloadFields :=
  match e.1 with
  | .scalar (.integer 1) => (bytesOf 32 e.2).map fun b => { f with idSPriv := some b }
  | .scalar (.integer 2) => (bytesOf 32 e.2).map fun b => { f with idDPriv := some b }
  | .scalar (.integer 3) => (bytesOf 32 e.2).map fun b => { f with idSPub := some b }
  | .scalar (.integer 4) => (bytesOf 32 e.2).map fun b => { f with idDPub := some b }
  | .scalar (.integer 5) => (bytesOf 16 e.2).map fun b => { f with identityId := some b }
  | .scalar (.integer 6) => (createdAtOf e.2).map fun n => { f with createdAtMs := some n }
  | .scalar (.integer 7) => (bytesOf 32 e.2).map fun b => { f with accountIdSPub := some b }
  | .scalar (.integer 8) =>
    (pushKeys f.metaGenesisKeys e.2).map fun keys => { f with metaGenesisKeys := keys }
  | .scalar (.integer _) => .ok f
  | _ => .error (.cbor (some "non-int key"))

def PayloadFields.payload (f : PayloadFields) : Option RecoveryPayload := do
  let idSPriv ← f.idSPriv
  let idDPriv ← f.idDPriv
  let idSPub ← f.idSPub
  let idDPub ← f.idDPub
  let identityId ← f.identityId
  let createdAtMs ← f.createdAtMs
  return ⟨idSPriv, idDPriv, idSPub, idDPub, identityId, createdAtMs, f.accountIdSPub,
    f.metaGenesisKeys⟩

/-- A payload from its bytes. What follows it is not looked at. -/
def payloadFromCbor (bytes : Bytes) : Except RecoveryError RecoveryPayload :=
  match Cbor.read maxValueDepth bytes with
  | .error .tooDeep => .error .tooDeep
  | .error .malformed => .error (.cbor none)
  | .ok (.map entries, _) => do
    let f ← entries.foldlM takeField .none
    match f.payload with
    | some p => .ok p
    | none => .error (.cbor (some "missing required field"))
  | .ok _ => .error (.cbor (some "not a map"))

/-! ### The blob -/

/-- One Argon2id parameter set: memory in KiB, passes, lanes. -/
structure KdfParams where
  mKib : ℕ
  t : ℕ
  p : ℕ
deriving DecidableEq

/-- The set a release build has. -/
def productionKdf : KdfParams := ⟨65536, 3, 1⟩

/-- The cipher, the key derivation, and the identity of a key. -/
structure RecoveryCrypto where
  aead : Aead WireKey (ByteArr 24)
  tagLen_eq : aead.tagLen = aeadTagLen
  room : 2 ^ 20 ≤ aead.maxLen
  argon2id : KdfParams → (seed : WireKey) → (salt : ByteArr 16) → WireKey
  identityIdFromPub : WireKey → WireId

variable (c : RecoveryCrypto)

def RecoveryPayload.accountIdentityId (p : RecoveryPayload) : WireId :=
  (p.accountIdSPub.map c.identityIdFromPub).getD p.identityId

/-- The data a blob is bound to. -/
def recoveryAad (identityId : WireId) : Bytes := recoveryAadPrefix ++ identityId.bytes

def sealUnder (seed : WireKey) (p : RecoveryPayload) (salt : ByteArr 16) (nonce : ByteArr 24)
    (kdf : KdfParams) : Except RecoveryError Bytes :=
  let key := c.argon2id kdf seed salt
  match c.aead.encrypt key nonce (payloadToCbor p) (recoveryAad (p.accountIdentityId c)) with
  | none => .error .authFailed
  | some ct =>
    .ok (writePrefix .recoveryBlob recoveryMagicVersion ++ salt.bytes ++ nonce.bytes ++ ct)

def sealRecoveryBlob (seed : WireKey) (p : RecoveryPayload) (salt : ByteArr 16)
    (nonce : ByteArr 24) : Except RecoveryError Bytes :=
  sealUnder c seed p salt nonce productionKdf

/-- The bytes from a place on, as an array. -/
def sliceOf (n : ℕ) (blob : Bytes) (start : ℕ) : Except RecoveryError (ByteArr n) :=
  (bytesOf n (bytesItem ((blob.drop start).take n))).mapError fun _ => .truncated

/-- The salt and the nonce of a blob, whose prefix must be a recovery blob's. -/
def readHeader (blob : Bytes) : Except RecoveryError (ByteArr 16 × ByteArr 24) := do
  match decodePrefix (blob.take magicLen) with
  | .error _ => throw .badMagic
  | .ok (kind, version) =>
    if kind ≠ .recoveryBlob ∨ version ≠ recoveryMagicVersion then throw .badMagic
    else
      let salt ← sliceOf 16 blob magicLen
      let nonce ← sliceOf 24 blob (magicLen + recoverySaltLen)
      return (salt, nonce)

def openUnder (seed : WireKey) (salt : ByteArr 16) (nonce : ByteArr 24) (ct : Bytes)
    (expectedIdentityId : WireId) (kdf : KdfParams) : Except RecoveryError RecoveryPayload :=
  let key := c.argon2id kdf seed salt
  match c.aead.decrypt key nonce ct (recoveryAad expectedIdentityId) with
  | none => .error .authFailed
  | some pt => do
    let p ← payloadFromCbor pt
    if p.accountIdentityId c ≠ expectedIdentityId then .error .authFailed else .ok p

def unsealRecoveryBlob (blob : Bytes) (seed : WireKey) (expectedIdentityId : WireId) :
    Except RecoveryError RecoveryPayload :=
  if blob.length < magicLen + recoverySaltLen + recoveryNonceLen + 16 then .error .truncated
  else do
    let (salt, nonce) ← readHeader blob
    let ct := blob.drop (magicLen + recoverySaltLen + recoveryNonceLen)
    openUnder c seed salt nonce ct expectedIdentityId productionKdf

/-- What every payload starts with: a map of six, seven or eight, the key `1`, and the head of a
byte string of 32. -/
def knownPlaintextPrefixes : List Bytes :=
  [[0xa6, 0x01, 0x58, 0x20], [0xa7, 0x01, 0x58, 0x20], [0xa8, 0x01, 0x58, 0x20]]

/-- Whether one of the plaintexts from here on seals to the bytes kept. -/
def matchesAny (key : WireKey) (nonce : ByteArr 24) (kept : Bytes) :
    List Bytes → Except RecoveryError Bool
  | [] => .ok false
  | candidate :: candidates =>
    match c.aead.encrypt key nonce candidate [] with
    | none => .error .authFailed
    | some ct => do
      let matched ← matchesAny key nonce kept candidates
      return decide (ct.take retiredCtPrefixLen = kept) || matched

/-- Whether `seed` is the code that opened the blob `check` was cut from. -/
def retiredCheckMatches (check : Bytes) (seed : WireKey) : Except RecoveryError Bool :=
  if check.length < retiredCheckLen then .error .truncated
  else do
    let (salt, nonce) ← readHeader check
    let kept := (check.take retiredCheckLen).drop (magicLen + recoverySaltLen + recoveryNonceLen)
    matchesAny c (c.argon2id productionKdf seed salt) nonce kept knownPlaintextPrefixes

/-! ### A payload reads back -/

variable {c} {p : RecoveryPayload}

@[simp] theorem bytesOf_bytesItem {n : ℕ} (b : ByteArr n) : bytesOf n (bytesItem b.bytes) = .ok b :=
  dif_pos ⟨b.length_eq, b.isBytes⟩

@[simp] theorem createdAtOf_intItem (n : U64) : createdAtOf (intItem n.toNat) = .ok n := by
  have h : 0 ≤ (n.toNat : ℤ) ∧ ((n.toNat : ℤ)).toNat < 2 ^ 64 := ⟨by omega, n.toNat_lt⟩
  exact dif_pos h

theorem KeyVec.push_eq {v w : KeyVec} {key : WireKey} (h : v.keys ++ [key] = w.keys) :
    v.push key = w := by
  have hlt : (v.keys ++ [key]).length < 2 ^ 64 := h ▸ w.length_lt
  rw [KeyVec.push, dif_pos hlt]
  cases w
  cases h
  rfl

theorem foldlM_push {v w : KeyVec} {keys : List WireKey} (h : v.keys ++ keys = w.keys) :
    (keys.map fun k => bytesItem k.bytes).foldlM (fun v k => (bytesOf 32 k).map v.push) v =
      .ok w := by
  induction keys generalizing v with
  | nil =>
    rw [List.append_nil] at h
    cases v
    cases w
    cases h
    rfl
  | cons key keys ih =>
    have hlt : (v.keys ++ [key]).length < 2 ^ 64 := by
      have := w.length_lt
      rw [← h, List.length_append, List.length_cons] at this
      rw [List.length_append, List.length_singleton]
      omega
    have hpush : v.push key = ⟨v.keys ++ [key], hlt⟩ := KeyVec.push_eq rfl
    rw [List.map_cons, List.foldlM_cons, bytesOf_bytesItem]
    show List.foldlM _ (v.push key) _ = _
    rw [hpush]
    exact ih (by rw [List.append_assoc]; exact h)

theorem regular_payloadEntries (p : RecoveryPayload) : ∀ e ∈ payloadEntries p,
    (e.1.Regular ∧ e.2.Regular) ∧ e.1.depth = 0 ∧ e.2.depth ≤ 1 := by
  have hbytes {n m : ℕ} (hn : n < 2 ^ 64) (b : ByteArr m) (hm : m < 2 ^ 64) :
      ((intItem n).Regular ∧ (bytesItem b.bytes).Regular) ∧ (intItem n).depth = 0 ∧
        (bytesItem b.bytes).depth ≤ 1 :=
    ⟨⟨(regular_intItem hn).1, (b.regular hm).1⟩, rfl, Nat.zero_le 1⟩
  intro e he
  rcases List.mem_append.mp he with he | he
  · rcases List.mem_append.mp he with he | he
    · simp only [List.mem_cons, List.not_mem_nil, or_false] at he
      rcases he with rfl | rfl | rfl | rfl | rfl | rfl
      · exact hbytes (by decide) _ (by decide)
      · exact hbytes (by decide) _ (by decide)
      · exact hbytes (by decide) _ (by decide)
      · exact hbytes (by decide) _ (by decide)
      · exact hbytes (by decide) _ (by decide)
      · exact ⟨⟨(regular_intItem (by decide)).1, (p.createdAtMs.regular le_rfl).1⟩, rfl,
          Nat.zero_le 1⟩
    · obtain ⟨pk, -, rfl⟩ := Option.mem_map.mp (Option.mem_toList.mp he)
      exact hbytes (by decide) _ (by decide)
  · split at he
    · exact absurd he List.not_mem_nil
    · rw [List.mem_singleton] at he
      subst he
      have hkeys : ∀ v ∈ p.metaGenesisKeys.keys.map fun k => bytesItem k.bytes,
          v.Regular ∧ v.depth = 0 := by
        intro v hv
        obtain ⟨k, -, rfl⟩ := List.mem_map.mp hv
        exact k.regular (by decide)
      obtain ⟨hreg, hdepth⟩ := regular_array
        (by rw [List.length_map]; exact p.metaGenesisKeys.length_lt) hkeys
      exact ⟨⟨(regular_intItem (by decide)).1, hreg⟩, rfl, hdepth⟩

/-- The required fields, taken in. -/
def fieldsOf (p : RecoveryPayload) (accountIdSPub : Option WireKey) (keys : KeyVec) :
    PayloadFields :=
  ⟨p.idSPriv, p.idDPriv, p.idSPub, p.idDPub, p.identityId, p.createdAtMs, accountIdSPub, keys⟩

theorem foldlM_required (p : RecoveryPayload) :
    [(intItem 1, bytesItem p.idSPriv.bytes), (intItem 2, bytesItem p.idDPriv.bytes),
      (intItem 3, bytesItem p.idSPub.bytes), (intItem 4, bytesItem p.idDPub.bytes),
      (intItem 5, bytesItem p.identityId.bytes),
      (intItem 6, intItem p.createdAtMs.toNat)].foldlM takeField .none =
        .ok (fieldsOf p none .empty) := by
  have htime : createdAtOf (.scalar (.integer p.createdAtMs.toNat)) = .ok p.createdAtMs :=
    createdAtOf_intItem _
  simp [List.foldlM_cons, takeField, intItem, htime, Except.map, bind, Except.bind]
  rfl

theorem foldlM_payloadEntries (p : RecoveryPayload) :
    (payloadEntries p).foldlM takeField .none =
      if p.metaGenesisKeys.keys.length ≤ maxMetaGenesisKeys then
        .ok (fieldsOf p p.accountIdSPub p.metaGenesisKeys)
      else .error shapeError := by
  have hpush : pushKeys .empty (.array (p.metaGenesisKeys.keys.map fun k => bytesItem k.bytes)) =
      if p.metaGenesisKeys.keys.length ≤ maxMetaGenesisKeys then .ok p.metaGenesisKeys
      else .error shapeError := by
    have hread := foldlM_push (v := .empty) (w := p.metaGenesisKeys) rfl
    rw [pushKeys, List.length_map, hread]
  have hpk (keys : KeyVec) :
      (p.accountIdSPub.map fun pk => (intItem 7, bytesItem pk.bytes)).toList.foldlM takeField
        (fieldsOf p none keys) = .ok (fieldsOf p p.accountIdSPub keys) := by
    cases p.accountIdSPub with
    | none => rfl
    | some pk =>
      show (takeField (fieldsOf p none keys) (intItem 7, bytesItem pk.bytes)).bind pure = _
      show (((bytesOf 32 (bytesItem pk.bytes)).map _).bind pure : Except _ _) = _
      rw [bytesOf_bytesItem]
      rfl
  have hkeys : (if p.metaGenesisKeys.keys = [] then []
      else [(intItem 8, Item.array (p.metaGenesisKeys.keys.map fun k => bytesItem k.bytes))]).foldlM
        takeField (fieldsOf p p.accountIdSPub .empty) =
          if p.metaGenesisKeys.keys.length ≤ maxMetaGenesisKeys then
            .ok (fieldsOf p p.accountIdSPub p.metaGenesisKeys)
          else .error shapeError := by
    split
    next hnil =>
      have hempty : p.metaGenesisKeys = .empty := by
        rw [KeyVec.mk.injEq]
        exact hnil
      rw [hempty, if_pos (by decide)]
      rfl
    next =>
      show ((pushKeys .empty _).map _).bind pure = _
      rw [hpush]
      split
      · rfl
      · rfl
  rw [payloadEntries, List.foldlM_append, List.foldlM_append, foldlM_required]
  show (List.foldlM takeField (fieldsOf p none .empty) _ >>= _) = _
  rw [hpk]
  exact hkeys

theorem length_payloadEntries (p : RecoveryPayload) :
    6 ≤ (payloadEntries p).length ∧ (payloadEntries p).length ≤ 8 := by
  have hpk : (p.accountIdSPub.map fun pk => (intItem 7, bytesItem pk.bytes)).toList.length ≤ 1 := by
    cases p.accountIdSPub with
    | none => exact Nat.zero_le 1
    | some pk => exact le_rfl
  unfold payloadEntries
  split <;> simp only [List.length_append, List.length_cons, List.length_nil] <;> omega

/-- **A payload reads back, unless it has more keys than a reader takes.** -/
theorem payloadFromCbor_payloadToCbor (p : RecoveryPayload) :
    payloadFromCbor (payloadToCbor p) =
      if p.metaGenesisKeys.keys.length ≤ maxMetaGenesisKeys then .ok p
      else .error shapeError := by
  have hreg : (Item.map (payloadEntries p)).Regular := by
    refine Cbor.forall_nodes_map.mpr ⟨?_, fun e he => (regular_payloadEntries p e he).1⟩
    exact (length_payloadEntries p).2.trans_lt (by decide)
  have hdepth : (Item.map (payloadEntries p)).depth ≤ maxValueDepth := by
    rw [Item.depth]
    have : depthOfEntries (payloadEntries p) ≤ 1 :=
      Cbor.depthOfEntries_le.mpr fun e he => by
        obtain ⟨-, hkey, hvalue⟩ := regular_payloadEntries p e he
        exact ⟨hkey.le.trans (Nat.zero_le 1), hvalue⟩
    unfold maxValueDepth
    omega
  have hread := read_write hreg maxValueDepth []
  rw [List.append_nil, if_pos hdepth] at hread
  unfold payloadFromCbor payloadToCbor
  rw [hread]
  show ((payloadEntries p).foldlM takeField .none >>= _) = _
  rw [foldlM_payloadEntries]
  split
  · rfl
  · rfl

/-! ### What a payload starts with, and how long it is -/

theorem take_payloadToCbor (p : RecoveryPayload) :
    (payloadToCbor p).take retiredCtPrefixLen ∈ knownPlaintextPrefixes := by
  obtain ⟨hmin, hmax⟩ := length_payloadEntries p
  have hhead : Cbor.head 5 (payloadEntries p).length = [160 + (payloadEntries p).length] :=
    if_pos (by omega)
  have htail : ∃ rest, writeEntries (payloadEntries p) = 1 :: 88 :: 32 :: rest := by
    have hbytes : Cbor.write (bytesItem p.idSPriv.bytes) = 88 :: 32 :: p.idSPriv.bytes := by
      rw [bytesItem, Cbor.write, writeScalar, p.idSPriv.length_eq]
      rfl
    rw [show payloadEntries p = (intItem 1, bytesItem p.idSPriv.bytes) ::
      (payloadEntries p).tail from rfl]
    refine ⟨p.idSPriv.bytes ++ writeEntries (payloadEntries p).tail, ?_⟩
    show Cbor.write (intItem 1) ++ Cbor.write (bytesItem p.idSPriv.bytes) ++ _ = _
    rw [hbytes]
    rfl
  obtain ⟨rest, hrest⟩ := htail
  rw [payloadToCbor, Cbor.write, hhead, hrest]
  have hcases : (payloadEntries p).length = 6 ∨ (payloadEntries p).length = 7 ∨
      (payloadEntries p).length = 8 := by omega
  show [160 + (payloadEntries p).length, 1, 88, 32] ∈ knownPlaintextPrefixes
  rcases hcases with h | h | h <;> rw [h] <;> decide

theorem headSize_le (n : ℕ) : headSize n ≤ 9 := by
  unfold headSize
  split_ifs <;> omega

theorem length_payloadToCbor_le (h : p.metaGenesisKeys.keys.length ≤ maxMetaGenesisKeys) :
    (payloadToCbor p).length ≤ 2 ^ 20 := by
  unfold maxMetaGenesisKeys at h
  have hfield {n m : ℕ} (b : ByteArr m) (hm : m ≤ 32) :
      (Cbor.write (intItem n)).length + (Cbor.write (bytesItem b.bytes)).length ≤ 600 := by
    have hn := headSize_le n
    have hm' := headSize_le m
    rw [length_write_intItem, length_write_bytesItem, b.length_eq]
    omega
  have hentry : ∀ n ∈ (payloadEntries p).map fun e => (Cbor.write e.1).length +
      (Cbor.write e.2).length, n ≤ 600 := by
    rw [List.forall_mem_map]
    intro e he
    rcases List.mem_append.mp he with he | he
    · rcases List.mem_append.mp he with he | he
      · simp only [List.mem_cons, List.not_mem_nil, or_false] at he
        rcases he with rfl | rfl | rfl | rfl | rfl | rfl
        · exact hfield p.idSPriv le_rfl
        · exact hfield p.idDPriv le_rfl
        · exact hfield p.idSPub le_rfl
        · exact hfield p.idDPub le_rfl
        · exact hfield p.identityId (by decide)
        · have hn := headSize_le 6
          have ht := headSize_le p.createdAtMs.toNat
          rw [length_write_intItem, length_write_intItem]
          omega
      · obtain ⟨pk, -, rfl⟩ := Option.mem_map.mp (Option.mem_toList.mp he)
        exact hfield pk le_rfl
    · split at he
      · exact absurd he List.not_mem_nil
      · rw [List.mem_singleton] at he
        subst he
        have hkeys : ((p.metaGenesisKeys.keys.map fun k => bytesItem k.bytes).map fun v =>
            (Cbor.write v).length) = List.replicate p.metaGenesisKeys.keys.length 34 := by
          rw [List.map_map, List.eq_replicate_iff]
          refine ⟨List.length_map _, ?_⟩
          intro n hn
          obtain ⟨k, -, rfl⟩ := List.mem_map.mp hn
          rw [Function.comp_apply, length_write_bytesItem, k.length_eq]
          rfl
        have hn := headSize_le 8
        have hl := headSize_le p.metaGenesisKeys.keys.length
        rw [length_write_intItem, length_write_array, hkeys, List.sum_replicate_nat,
          List.length_map]
        omega
  have hsum := List.sum_le_card_nsmul _ 600 hentry
  rw [List.length_map, Nat.nsmul_eq_mul] at hsum
  have hmax := (length_payloadEntries p).2
  have hhead := headSize_le (payloadEntries p).length
  rw [payloadToCbor, length_write_map]
  omega

/-! ### A sealed blob -/

theorem sliceOf_append {n : ℕ} (front : Bytes) (b : ByteArr n) (back : Bytes) :
    sliceOf n (front ++ (b.bytes ++ back)) front.length = .ok b := by
  rw [sliceOf, List.drop_left, List.take_left' b.length_eq, bytesOf_bytesItem]
  rfl

theorem readHeader_append (salt : ByteArr 16) (nonce : ByteArr 24) (rest : Bytes) :
    readHeader (writePrefix .recoveryBlob recoveryMagicVersion ++ salt.bytes ++ nonce.bytes ++
      rest) = .ok (salt, nonce) := by
  have hsalt := sliceOf_append (writePrefix .recoveryBlob recoveryMagicVersion) salt
    (nonce.bytes ++ rest)
  have hnonce := sliceOf_append (writePrefix .recoveryBlob recoveryMagicVersion ++ salt.bytes) nonce
    rest
  have hlen : (writePrefix .recoveryBlob recoveryMagicVersion ++ salt.bytes).length =
      magicLen + recoverySaltLen := by
    rw [List.length_append, length_writePrefix, salt.length_eq]
    rfl
  have hprefix : (writePrefix .recoveryBlob recoveryMagicVersion ++
      (salt.bytes ++ (nonce.bytes ++ rest))).take magicLen =
        writePrefix .recoveryBlob recoveryMagicVersion := List.take_left' rfl
  rw [length_writePrefix] at hsalt
  rw [hlen, List.append_assoc] at hnonce
  rw [List.append_assoc, List.append_assoc, readHeader, hprefix,
    decodePrefix_writePrefix _ (by decide), hsalt, hnonce]
  rfl

theorem drop_header (salt : ByteArr 16) (nonce : ByteArr 24) (rest : Bytes) :
    (writePrefix .recoveryBlob recoveryMagicVersion ++ salt.bytes ++ nonce.bytes ++ rest).drop
      (magicLen + recoverySaltLen + recoveryNonceLen) = rest := by
  apply List.drop_left'
  rw [List.length_append, List.length_append, length_writePrefix, salt.length_eq, nonce.length_eq]
  rfl

variable {seed : WireKey} {salt : ByteArr 16} {nonce : ByteArr 24} {blob : Bytes}

theorem of_sealRecoveryBlob (h : sealRecoveryBlob c seed p salt nonce = .ok blob) :
    ∃ ct, c.aead.encrypt (c.argon2id productionKdf seed salt) nonce (payloadToCbor p)
        (recoveryAad (p.accountIdentityId c)) = some ct ∧
      blob = writePrefix .recoveryBlob recoveryMagicVersion ++ salt.bytes ++ nonce.bytes ++ ct := by
  rw [sealRecoveryBlob, sealUnder] at h
  split at h
  · exact absurd h nofun
  · next ct hct => exact ⟨ct, hct, (Except.ok.inj h).symm⟩

theorem exists_sealRecoveryBlob (seed : WireKey) (salt : ByteArr 16) (nonce : ByteArr 24)
    (h : (payloadToCbor p).length ≤ c.aead.maxLen) :
    ∃ blob, sealRecoveryBlob c seed p salt nonce = .ok blob := by
  obtain ⟨ct, hct⟩ := c.aead.exists_encrypt (c.argon2id productionKdf seed salt) nonce
    (recoveryAad (p.accountIdentityId c)) h
  rw [sealRecoveryBlob, sealUnder, hct]
  exact ⟨_, rfl⟩

theorem unsealRecoveryBlob_eq_openUnder (id : WireId) {ct pt aad : Bytes}
    (h : c.aead.encrypt (c.argon2id productionKdf seed salt) nonce pt aad = some ct) :
    unsealRecoveryBlob c (writePrefix .recoveryBlob recoveryMagicVersion ++ salt.bytes ++
      nonce.bytes ++ ct) seed id = openUnder c seed salt nonce ct id productionKdf := by
  have hlen : ¬ (writePrefix .recoveryBlob recoveryMagicVersion ++ salt.bytes ++ nonce.bytes ++
      ct).length < magicLen + recoverySaltLen + recoveryNonceLen + 16 := by
    have := Aead.length_encrypt h
    rw [c.tagLen_eq, aeadTagLen] at this
    simp only [List.length_append, length_writePrefix, salt.length_eq, nonce.length_eq,
      recoverySaltLen, recoveryNonceLen]
    omega
  rw [unsealRecoveryBlob, if_neg hlen, readHeader_append, drop_header]
  rfl

/-- A sealed blob opens to its payload, under the identity it is bound to, if the payload reads
back at all; and under no other. -/
theorem unsealRecoveryBlob_eq_ok_iff (h : sealRecoveryBlob c seed p salt nonce = .ok blob)
    (id : WireId) {q : RecoveryPayload} : unsealRecoveryBlob c blob seed id = .ok q ↔
      q = p ∧ id = p.accountIdentityId c ∧
        p.metaGenesisKeys.keys.length ≤ maxMetaGenesisKeys := by
  obtain ⟨ct, hct, rfl⟩ := of_sealRecoveryBlob h
  rw [unsealRecoveryBlob_eq_openUnder id hct, openUnder]
  cases hpt : c.aead.decrypt (c.argon2id productionKdf seed salt) nonce ct (recoveryAad id) with
  | none =>
    refine ⟨nofun, fun hq => ?_⟩
    rw [hq.2.1, Aead.decrypt_encrypt hct] at hpt
    exact absurd hpt nofun
  | some pt =>
    -- whatever it opens under, the keystream gives the plaintext back
    rw [Aead.eq_of_decrypt hct hpt]
    show (payloadFromCbor (payloadToCbor p) >>= _) = _ ↔ _
    rw [payloadFromCbor_payloadToCbor]
    split
    next hkeys =>
      show (if p.accountIdentityId c ≠ id then _ else Except.ok p) = .ok q ↔ _
      split
      next hid => exact ⟨nofun, fun hq => absurd hq.2.1.symm hid⟩
      next hid =>
        rw [Except.ok.injEq, and_iff_left ⟨(not_not.mp hid).symm, hkeys⟩, eq_comm]
    next hkeys => exact ⟨nofun, fun hq => absurd hq.2.2 hkeys⟩

/-- A blob of too many keys authenticates, and its payload is refused. -/
theorem unsealRecoveryBlob_of_lt (h : sealRecoveryBlob c seed p salt nonce = .ok blob)
    (hkeys : maxMetaGenesisKeys < p.metaGenesisKeys.keys.length) :
    unsealRecoveryBlob c blob seed (p.accountIdentityId c) = .error shapeError := by
  obtain ⟨ct, hct, rfl⟩ := of_sealRecoveryBlob h
  rw [unsealRecoveryBlob_eq_openUnder _ hct, openUnder, Aead.decrypt_encrypt hct]
  show (payloadFromCbor (payloadToCbor p) >>= _) = _
  rw [payloadFromCbor_payloadToCbor, if_neg (by omega)]
  rfl

theorem matchesAny_eq_true {key : WireKey} {kept candidate : Bytes} {candidates : List Bytes}
    (hroom : ∀ x ∈ candidates, x.length ≤ c.aead.maxLen) (hmem : candidate ∈ candidates)
    (h : ∀ ct, c.aead.encrypt key nonce candidate [] = some ct →
      ct.take retiredCtPrefixLen = kept) :
    matchesAny c key nonce kept candidates = .ok true := by
  have htotal (l : List Bytes) (hl : ∀ x ∈ l, x.length ≤ c.aead.maxLen) :
      ∃ matched, matchesAny c key nonce kept l = .ok matched := by
    induction l with
    | nil => exact ⟨_, rfl⟩
    | cons x l ih =>
      obtain ⟨hx, hl⟩ := List.forall_mem_cons.mp hl
      obtain ⟨matched, hmatched⟩ := ih hl
      obtain ⟨ct, hct⟩ := c.aead.exists_encrypt key nonce [] hx
      rw [matchesAny, hct, hmatched]
      exact ⟨_, rfl⟩
  induction candidates with
  | nil => exact absurd hmem List.not_mem_nil
  | cons x l ih =>
    obtain ⟨hx, hl⟩ := List.forall_mem_cons.mp hroom
    obtain ⟨ct, hct⟩ := c.aead.exists_encrypt key nonce [] hx
    rw [matchesAny, hct]
    rcases List.mem_cons.mp hmem with rfl | hmem
    · obtain ⟨matched, hmatched⟩ := htotal l hl
      rw [hmatched]
      show Except.ok (decide (ct.take retiredCtPrefixLen = kept) || matched) = _
      rw [decide_eq_true (h ct hct), Bool.true_or]
    · rw [ih hl hmem]
      show Except.ok (decide (ct.take retiredCtPrefixLen = kept) || true) = _
      rw [Bool.or_true]

theorem retiredCheckMatches_take (h : sealRecoveryBlob c seed p salt nonce = .ok blob) :
    retiredCheckMatches c (blob.take retiredCheckLen) seed = .ok true := by
  obtain ⟨ct, hct, rfl⟩ := of_sealRecoveryBlob h
  have hfour : ∀ x ∈ knownPlaintextPrefixes, x.length = retiredCtPrefixLen := by decide
  have hpt : retiredCtPrefixLen ≤ (payloadToCbor p).length := by
    have hlen := hfour _ (take_payloadToCbor p)
    rw [List.length_take] at hlen
    omega
  have hheader : (writePrefix .recoveryBlob recoveryMagicVersion ++ salt.bytes ++
      nonce.bytes).length = magicLen + recoverySaltLen + recoveryNonceLen := by
    rw [List.length_append, List.length_append, length_writePrefix, salt.length_eq,
      nonce.length_eq]
    rfl
  have htake : (writePrefix .recoveryBlob recoveryMagicVersion ++ salt.bytes ++ nonce.bytes ++
      ct).take retiredCheckLen = writePrefix .recoveryBlob recoveryMagicVersion ++ salt.bytes ++
        nonce.bytes ++ ct.take retiredCtPrefixLen := by
    rw [List.take_append, hheader, List.take_of_length_le (by rw [hheader]; decide)]
    rfl
  have hlen : ¬ (writePrefix .recoveryBlob recoveryMagicVersion ++ salt.bytes ++ nonce.bytes ++
      ct.take retiredCtPrefixLen).length < retiredCheckLen := by
    have := Aead.length_encrypt hct
    rw [List.length_append, hheader, List.length_take, retiredCheckLen]
    omega
  have hkept : ((writePrefix .recoveryBlob recoveryMagicVersion ++ salt.bytes ++ nonce.bytes ++
      ct.take retiredCtPrefixLen).take retiredCheckLen).drop
        (magicLen + recoverySaltLen + recoveryNonceLen) = ct.take retiredCtPrefixLen := by
    rw [← htake, List.take_take, min_self, htake, drop_header]
  rw [htake, retiredCheckMatches, if_neg hlen, readHeader_append]
  show matchesAny c _ nonce _ knownPlaintextPrefixes = _
  rw [hkept]
  refine matchesAny_eq_true (fun x hx => ?_) (take_payloadToCbor p) fun ct' hct' => ?_
  · rw [hfour x hx]
    exact le_trans (by decide) c.room
  · refine (Aead.take_encrypt hct hct' hpt ?_ ?_).symm
    · rw [List.length_take]
      omega
    · rw [List.take_take, min_self]

/-- What a blob sealed for a payload owes whoever has to recover the account. -/
structure Reopens (c : RecoveryCrypto) (seed : WireKey) (p : RecoveryPayload) (blob : Bytes) :
    Prop where
  opens : unsealRecoveryBlob c blob seed (p.accountIdentityId c) = .ok p
  other : ∀ id ≠ p.accountIdentityId c, ∀ q, unsealRecoveryBlob c blob seed id ≠ .ok q
  retired : retiredCheckMatches c (blob.take retiredCheckLen) seed = .ok true

/-- **A sealed blob opens again exactly when its payload has no more genesis keys than a reader
takes**; and such a payload can be sealed. -/
theorem reopens_iff (c : RecoveryCrypto) (seed : WireKey) (p : RecoveryPayload)
    (salt : ByteArr 16) (nonce : ByteArr 24) :
    (p.metaGenesisKeys.keys.length ≤ maxMetaGenesisKeys →
        ∃ blob, sealRecoveryBlob c seed p salt nonce = .ok blob) ∧
      ∀ blob, sealRecoveryBlob c seed p salt nonce = .ok blob →
        (Reopens c seed p blob ↔ p.metaGenesisKeys.keys.length ≤ maxMetaGenesisKeys) := by
  refine ⟨fun hkeys => exists_sealRecoveryBlob seed salt nonce
    ((length_payloadToCbor_le hkeys).trans c.room), fun blob h => ⟨fun hr => ?_, fun hkeys => ?_⟩⟩
  · exact ((unsealRecoveryBlob_eq_ok_iff h _).mp hr.opens).2.2
  · exact ⟨(unsealRecoveryBlob_eq_ok_iff h _).mpr ⟨rfl, rfl, hkeys⟩,
      fun id hid q hq => hid ((unsealRecoveryBlob_eq_ok_iff h id).mp hq).2.1,
      retiredCheckMatches_take h⟩

/-! ### A payload of too many keys -/

def keyCipher : Aead WireKey (ByteArr 24) where
  keystream key _ i := key.bytes.getD (i % 32) 0
  tag _ _ aad ciphertext := List.replicate 16 ((aad.sum + ciphertext.sum) % 256)
  tagLen := 16
  length_tag _ _ _ _ := List.length_replicate
  maxLen := 2 ^ 38

/-- The code for the key, and no hash. -/
def keyCrypto : RecoveryCrypto where
  aead := keyCipher
  tagLen_eq := rfl
  room := by decide
  argon2id _ seed _ := seed
  identityIdFromPub _ := .zero 16

/-- A successor's keys, with so many genesis keys. -/
def successor (n : ℕ) (h : n < 2 ^ 64) : RecoveryPayload where
  idSPriv := .zero 32
  idDPriv := .zero 32
  idSPub := .zero 32
  idDPub := .zero 32
  identityId := .zero 16
  createdAtMs := .zero 64
  accountIdSPub := some (.zero 32)
  metaGenesisKeys := ⟨List.replicate n (.zero 32), by rwa [List.length_replicate]⟩

theorem not_opens_seventeen :
    ∃ blob, sealRecoveryBlob keyCrypto (.zero 32) (successor 17 (by decide)) (.zero 16)
        (.zero 24) = .ok blob ∧
      unsealRecoveryBlob keyCrypto blob (.zero 32) (.zero 16) = .error shapeError := by
  have hlen : (payloadToCbor (successor 17 (by decide))).length ≤ keyCrypto.aead.maxLen := by
    decide +kernel
  obtain ⟨blob, hseal⟩ := exists_sealRecoveryBlob (.zero 32) (.zero 16) (.zero 24) hlen
  have hid : (successor 17 (by decide)).accountIdentityId keyCrypto = .zero 16 := rfl
  have hmany : maxMetaGenesisKeys < (successor 17 (by decide)).metaGenesisKeys.keys.length := by
    rw [successor, List.length_replicate]
    decide
  have hopen := unsealRecoveryBlob_of_lt hseal hmany
  rw [hid] at hopen
  exact ⟨blob, hseal, hopen⟩

end Recovery

end Sunrise
