import Mathlib.Algebra.Order.BigOperators.Group.List
import Sunrise.Cbor.Canonical
import Sunrise.Cbor.OpEnvelope
import Sunrise.Keys.Pairing

/-!
# The bytes of a pairing

A grant travels as a map of four numbered fields, and what the joiner makes of it is kept as a
map of eleven. The two carry the same cert, vault root, stream keys and read bounds, and both
have to fit in one transport message; the map the joiner keeps has seven fields more, which come
to 211 bytes. So a grant within 211 bytes of the limit travels, is accepted, and cannot be kept.

* `PairingGrant.encode`, `decodePairingGrant` — the grant's bytes.
* `encodePairingPayload`, `decodePairingPayload` — the bytes of what it comes to.
* `PairingGrant.size` — how long a grant's encoding is.

## Main results

* `delivered_iff` — **a grant that is sent can be used** exactly when, if its cert is usable, it is
  211 bytes below the limit and the offer's first identity is the one of its key.
-/

open Cbor (Item headSize)

namespace Sunrise

open Cbor

/-- The bytes of an array, compared byte by byte from the front. -/
instance (n : ℕ) : LinearOrder (ByteArr n) :=
  LinearOrder.lift' ByteArr.bytes fun a b h => by
    cases a
    cases b
    cases h
    rfl

abbrev WireId := ByteArr 16

abbrev WireKey := ByteArr 32

/-- The stream keys of a message, by stream and epoch. -/
abbrev WireKeys := Table WireId (Table ℕ WireKey)

/-- The largest message of the transport. -/
def maxNoiseMessage : ℕ := 65535

/-- The largest plaintext that fits in one. -/
def maxPairingPayload : ℕ := maxNoiseMessage - 16

/-! ### The shapes every message shares -/

/-- Write a message, unless it is too large for the transport. -/
def writeMessage (cbor : Cbor.Codec) (map : List (Item × Item)) :
    Except PairingPayloadError Bytes :=
  let out := cbor.write (.map map)
  if out.length > maxPairingPayload then .error (.tooLarge out.length) else .ok out

/-- Read one message. What follows it is not looked at. -/
def decodeMessage (cbor : Cbor.Codec) (bytes : Bytes) : Except PairingPayloadError Item :=
  match cbor.read maxValueDepth bytes with
  | .ok (v, _) => .ok v
  | .error .tooDeep => .error .tooDeep
  | .error .malformed => .error .malformed

def arrN (n : ℕ) (b : Bytes) (what : String) : Except PairingPayloadError (ByteArr n) :=
  -- the bytes of an item are bytes, so only the length can be wrong
  if h : b.length = n ∧ ∀ x ∈ b, x < 256 then .ok ⟨b, h.2, h.1⟩ else .error (.badField what)

def arr32 : Bytes → String → Except PairingPayloadError WireKey := arrN 32

def arr16 : Bytes → String → Except PairingPayloadError WireId := arrN 16

def epochsValue (epochs : Table ℕ WireKey) : Item :=
  .map (epochs.rows.map fun r => (intItem r.1, bytesItem r.2.bytes))

def streamKeysValue (streams : WireKeys) : Item :=
  .map (streams.rows.map fun r => (bytesItem r.1.bytes, epochsValue r.2))

def readEpoch (entry : Table ℕ WireKey) (e : Item × Item) :
    Except PairingPayloadError (Table ℕ WireKey) :=
  match e.1 with
  | .scalar (.integer epoch) =>
    match e.2 with
    | .scalar (.bytes key) =>
      if 0 ≤ epoch ∧ epoch < 2 ^ 32 then
        (arr32 key "stream key").map fun key => entry.upsert epoch.toNat key
      else .error (.badField "epoch range")
    | _ => .error (.badField "stream key")
  | _ => .error (.badField "epoch")

def readStream (out : WireKeys) (e : Item × Item) : Except PairingPayloadError WireKeys :=
  match e.1 with
  | .scalar (.bytes sid) =>
    match e.2 with
    | .map perEpoch => do
      let sid ← arr16 sid "stream_keys key"
      let entry ← perEpoch.foldlM readEpoch ((out.find sid).getD ∅)
      .ok (out.upsert sid entry)
    | _ => .error (.badField "stream_keys value")
  | _ => .error (.badField "stream_keys key")

def readStreamKeys (streams : List (Item × Item)) (out : WireKeys) :
    Except PairingPayloadError WireKeys :=
  streams.foldlM readStream out

/-- The array a set of bounded devices travels as. An empty one does not travel. -/
def readBoundsValue (bounds : OrdSet WireId) : Option Item :=
  if bounds.elems = [] then none
  else some (.array (bounds.elems.map fun id => bytesItem id.bytes))

def readReadBound (out : OrdSet WireId) (v : Item) : Except PairingPayloadError (OrdSet WireId) :=
  match v with
  | .scalar (.bytes id) => (arr16 id "read_bounds entry").map out.insert
  | _ => .error (.badField "read_bounds entry")

def readReadBounds (ids : List Item) (out : OrdSet WireId) :
    Except PairingPayloadError (OrdSet WireId) :=
  ids.foldlM readReadBound out

def takeEntry {σ : Type} (takeField : σ → ℤ → Item → Except PairingPayloadError σ) (fields : σ)
    (e : Item × Item) : Except PairingPayloadError σ :=
  match e.1 with
  | .scalar (.integer id) => takeField fields id e.2
  | _ => .error (.cbor "non-int key")

/-- Read the fields of a message, in the order they stand in; `notMap` says that it is no map. -/
def readMessage {σ : Type} (cbor : Cbor.Codec) (notMap : String)
    (takeField : σ → ℤ → Item → Except PairingPayloadError σ) (fields : σ) (bytes : Bytes) :
    Except PairingPayloadError σ :=
  if bytes.length > maxPairingPayload then .error (.tooLarge bytes.length)
  else do
    match ← decodeMessage cbor bytes with
    | .map entries => entries.foldlM (takeEntry takeField) fields
    | _ => .error (.cbor notMap)

def required {α : Type} (field : Option α) (what : String) : Except PairingPayloadError α :=
  match field with
  | some a => .ok a
  | none => .error (.badField what)

/-! ### The grant -/

structure WireGrant extends PairingGrant WireId WireKey where
  cert_isBytes : ∀ x ∈ deviceCert, x < 256
  epoch_lt : ∀ r ∈ streamKeys.rows, ∀ e ∈ r.2.rows, e.1 < 2 ^ 32

def PairingGrant.entries (grant : PairingGrant WireId WireKey) : List (Item × Item) :=
  [(intItem 1, bytesItem grant.deviceCert), (intItem 2, bytesItem grant.vaultRoot.bytes),
    (intItem 3, streamKeysValue grant.streamKeys)] ++
  ((readBoundsValue grant.readBounds).map fun bounds => (intItem 4, bounds)).toList

def PairingGrant.encode (cbor : Cbor.Codec) (grant : PairingGrant WireId WireKey) :
    Except PairingPayloadError Bytes :=
  writeMessage cbor grant.entries

/-- What has been read of a grant. -/
structure GrantFields where
  deviceCert : Option Bytes
  vaultRoot : Option WireKey
  streamKeys : WireKeys
  readBounds : OrdSet WireId

/-- Nothing yet. -/
def GrantFields.initial : GrantFields := ⟨none, none, ∅, ∅⟩

def GrantFields.takeField (f : GrantFields) (id : ℤ) (v : Item) :
    Except PairingPayloadError GrantFields :=
  match id, v with
  | 1, .scalar (.bytes b) => .ok { f with deviceCert := some b }
  | 2, .scalar (.bytes b) =>
    (arr32 b "grant vault_root").map fun b => { f with vaultRoot := some b }
  | 3, .map streams => (readStreamKeys streams f.streamKeys).map fun s => { f with streamKeys := s }
  | 4, .array ids => (readReadBounds ids f.readBounds).map fun s => { f with readBounds := s }
  | id, _ => if 1 ≤ id ∧ id ≤ 4 then .error (.badField "grant field shape") else .ok f

/-- Decode a grant. Its cert means nothing without the offer and the request, so nothing is
checked here. -/
def decodePairingGrant (cbor : Cbor.Codec) (bytes : Bytes) :
    Except PairingPayloadError (PairingGrant WireId WireKey) := do
  let f ← readMessage cbor "grant must be a map" GrantFields.takeField .initial bytes
  let deviceCert ← required f.deviceCert "grant device_cert"
  let vaultRoot ← required f.vaultRoot "grant vault_root"
  .ok ⟨deviceCert, vaultRoot, f.streamKeys, f.readBounds⟩

/-! ### What it comes to -/

/-- The certs of an account: a cert names the identity it was issued under, and is bound to a
key when that key signed it and derives both this identity and the expected one. -/
structure DeviceCerts extends PairingCrypto WireId WireKey where
  verify : Cert → WireKey → Bool
  certIdentityId : Cert → WireId
  verifyBinding_eq : ∀ cert idSPub expected, verifyBinding cert idSPub expected =
    (verify cert idSPub && (identityIdFromPub idSPub = certIdentityId cert &&
      identityIdFromPub idSPub = expected))

def PairingPayload.entries (p : PairingPayload WireId WireKey) : List (Item × Item) :=
  [(intItem 3, bytesItem p.idSPub.bytes), (intItem 4, bytesItem p.idDPub.bytes),
    (intItem 5, bytesItem p.identityId.bytes), (intItem 6, streamKeysValue p.streamKeys),
    (intItem 9, bytesItem p.vaultRoot.bytes), (intItem 10, bytesItem p.genesisIdentityId.bytes),
    (intItem 11, bytesItem p.genesisIdSPub.bytes), (intItem 12, bytesItem p.dSPriv.bytes),
    (intItem 13, bytesItem p.dDPriv.bytes), (intItem 14, bytesItem p.deviceCert)] ++
  ((readBoundsValue p.readBounds).map fun bounds => (intItem 15, bounds)).toList

def encodePairingPayload (cbor : Cbor.Codec) (p : PairingPayload WireId WireKey) :
    Except PairingPayloadError Bytes :=
  writeMessage cbor p.entries

/-- What has been read of a payload. -/
structure PayloadFields where
  idSPub : Option WireKey
  idDPub : Option WireKey
  identityId : Option WireId
  genesisIdentityId : Option WireId
  genesisIdSPub : Option WireKey
  vaultRoot : Option WireKey
  dSPriv : Option WireKey
  dDPriv : Option WireKey
  deviceCert : Option Bytes
  streamKeys : WireKeys
  readBounds : OrdSet WireId

/-- Nothing yet. -/
def PayloadFields.initial : PayloadFields :=
  ⟨none, none, none, none, none, none, none, none, none, ∅, ∅⟩

/-- Take one field of a payload in. The numbers 1, 2, 7 and 8 are burned: a message with one of
them is refused. -/
def PayloadFields.takeField (f : PayloadFields) (id : ℤ) (v : Item) :
    Except PairingPayloadError PayloadFields :=
  match id, v with
  | 3, .scalar (.bytes b) => (arr32 b "id_s_pub").map fun b => { f with idSPub := some b }
  | 4, .scalar (.bytes b) => (arr32 b "id_d_pub").map fun b => { f with idDPub := some b }
  | 5, .scalar (.bytes b) => (arr16 b "identity_id").map fun b => { f with identityId := some b }
  | 6, .map streams => (readStreamKeys streams f.streamKeys).map fun s => { f with streamKeys := s }
  | 9, .scalar (.bytes b) => (arr32 b "vault_root").map fun b => { f with vaultRoot := some b }
  | 10, .scalar (.bytes b) =>
    (arr16 b "genesis_identity_id").map fun b => { f with genesisIdentityId := some b }
  | 11, .scalar (.bytes b) =>
    (arr32 b "genesis_id_s_pub").map fun b => { f with genesisIdSPub := some b }
  | 12, .scalar (.bytes b) => (arr32 b "d_s_priv").map fun b => { f with dSPriv := some b }
  | 13, .scalar (.bytes b) => (arr32 b "d_d_priv").map fun b => { f with dDPriv := some b }
  | 14, .scalar (.bytes b) => .ok { f with deviceCert := some b }
  | 15, .array ids => (readReadBounds ids f.readBounds).map fun s => { f with readBounds := s }
  | id, _ => if 1 ≤ id ∧ id ≤ 15 then .error (.badField "field shape") else .ok f

/-- The payload of the fields that were read, if none is missing. -/
def PayloadFields.payload (f : PayloadFields) :
    Except PairingPayloadError (PairingPayload WireId WireKey) := do
  let idSPub ← required f.idSPub "id_s_pub"
  let idDPub ← required f.idDPub "id_d_pub"
  let identityId ← required f.identityId "identity_id"
  let genesisIdentityId ← required f.genesisIdentityId "genesis_identity_id"
  let genesisIdSPub ← required f.genesisIdSPub "genesis_id_s_pub"
  let dSPriv ← required f.dSPriv "d_s_priv"
  let dDPriv ← required f.dDPriv "d_d_priv"
  let deviceCert ← required f.deviceCert "device_cert"
  let vaultRoot ← required f.vaultRoot "vault_root"
  .ok ⟨idSPub, idDPub, identityId, genesisIdentityId, genesisIdSPub, dSPriv, dDPriv, deviceCert,
    vaultRoot, f.streamKeys, f.readBounds⟩

/-- Decode a payload and recompute both ids from their keys. -/
def decodePairingPayload (cbor : Cbor.Codec) (certs : DeviceCerts) (bytes : Bytes) :
    Except PairingPayloadError (PairingPayload WireId WireKey) := do
  let f ← readMessage cbor "payload must be a map" PayloadFields.takeField .initial bytes
  let payload ← f.payload
  if certs.identityIdFromPub payload.genesisIdSPub ≠ payload.genesisIdentityId then
    .error .genesisMismatch
  else if certs.identityIdFromPub payload.idSPub ≠ payload.identityId then .error .identityMismatch
  else .ok payload

/-! ### The joiner -/

/-- A joiner between its request and the grant. -/
structure PairingJoiner where
  offer : PairingOffer WireId WireKey
  request : PairingRequest WireId WireKey
  dSPriv : WireKey
  dDPriv : WireKey

/-- Mint two keys, and ask the account of the offer to certify them. -/
def PairingJoiner.new (certs : DeviceCerts) (offer : PairingOffer WireId WireKey)
    (nickname platform : String) (seedS seedD : WireKey) : PairingJoiner where
  offer := offer
  request :=
    { deviceId := certs.deviceIdFromPub (certs.signingPub seedS)
      dSPub := certs.signingPub seedS
      dDPub := certs.dhPub seedD
      identityId := offer.identityId
      nickname := nickname
      platform := platform }
  dSPriv := seedS
  dDPriv := seedD

/-- Take the grant. -/
def PairingJoiner.accept (certs : DeviceCerts) (joiner : PairingJoiner)
    (grant : PairingGrant WireId WireKey) :
    Except PairingPayloadError (PairingPayload WireId WireKey) :=
  grant.accept certs.toPairingCrypto joiner.offer joiner.dSPriv joiner.dDPriv joiner.request

/-! ### How long the messages are -/

/-- The bytes of one stream's keys. -/
def epochsSize (epochs : Table ℕ WireKey) : ℕ :=
  headSize epochs.rows.length + (epochs.rows.map fun e => headSize e.1 + 34).sum

def streamKeysSize (streams : WireKeys) : ℕ :=
  headSize streams.rows.length + (streams.rows.map fun r => 17 + epochsSize r.2).sum

/-- The bytes of a message's bounded devices, with the number of their field. -/
def readBoundsSize (bounds : OrdSet WireId) : ℕ :=
  if bounds.elems = [] then 0
  else 1 + headSize bounds.elems.length + 17 * bounds.elems.length

def PairingGrant.size (grant : PairingGrant WireId WireKey) : ℕ :=
  38 + (headSize grant.deviceCert.length + grant.deviceCert.length) +
    streamKeysSize grant.streamKeys + readBoundsSize grant.readBounds

@[simp] theorem length_write_intItem (n : ℕ) : (Cbor.write (intItem n)).length = headSize n :=
  length_write_nat n

@[simp] theorem length_write_bytesItem (b : Bytes) :
    (Cbor.write (bytesItem b)).length = headSize b.length + b.length :=
  length_write_bytes b

theorem length_write_epochsValue (epochs : Table ℕ WireKey) :
    (Cbor.write (epochsValue epochs)).length = epochsSize epochs := by
  unfold epochsValue epochsSize
  rw [length_write_map, List.length_map, List.map_map]
  congr 2
  apply List.map_congr_left
  intro e _
  simp [e.2.length_eq, headSize]

theorem length_write_streamKeysValue (streams : WireKeys) :
    (Cbor.write (streamKeysValue streams)).length = streamKeysSize streams := by
  unfold streamKeysValue streamKeysSize
  rw [length_write_map, List.length_map, List.map_map]
  congr 2
  apply List.map_congr_left
  intro r _
  simp [r.1.length_eq, headSize, length_write_epochsValue]

theorem sum_readBoundsEntry {n : ℕ} (hn : n < 24) (bounds : OrdSet WireId) :
    ((((readBoundsValue bounds).map fun v => (intItem n, v)).toList).map fun e =>
      (Cbor.write e.1).length + (Cbor.write e.2).length).sum = readBoundsSize bounds := by
  unfold readBoundsValue readBoundsSize
  split
  · rfl
  · have hids : (bounds.elems.map fun id => (Cbor.write (bytesItem id.bytes)).length) =
        bounds.elems.map fun _ => 17 := by
      apply List.map_congr_left
      intro id _
      simp [id.length_eq, headSize]
    have hone : headSize n = 1 := if_pos hn
    simp only [Option.map_some, Option.toList_some, List.map_cons, List.map_nil, List.sum_cons,
      List.sum_nil, length_write_array, List.length_map, List.map_map, length_write_intItem,
      Function.comp_def, hids, hone, List.map_const', List.sum_replicate_nat]
    omega

theorem length_readBoundsEntry (n : ℕ) (bounds : OrdSet WireId) :
    (((readBoundsValue bounds).map fun v => (intItem n, v)).toList).length ≤ 1 := by
  cases readBoundsValue bounds <;> simp

theorem PairingGrant.length_write (grant : PairingGrant WireId WireKey) :
    (Cbor.write (.map grant.entries)).length = grant.size := by
  have hlen : headSize grant.entries.length = 1 := by
    apply if_pos
    have := length_readBoundsEntry 4 grant.readBounds
    simp only [entries, List.length_append, List.length_cons, List.length_nil]
    omega
  rw [length_write_map, hlen, entries, List.map_append, List.sum_append,
    sum_readBoundsEntry (by decide)]
  simp only [List.map_cons, List.map_nil, List.sum_cons, List.sum_nil, length_write_intItem,
    length_write_bytesItem, length_write_streamKeysValue, grant.vaultRoot.length_eq, size,
    show headSize 1 = 1 from rfl, show headSize 2 = 1 from rfl, show headSize 3 = 1 from rfl,
    show headSize 32 = 2 from rfl]
  omega

theorem length_write_payload (grant : PairingGrant WireId WireKey)
    (offer : PairingOffer WireId WireKey) (dSPriv dDPriv : WireKey) :
    (Cbor.write (.map (grant.payload offer dSPriv dDPriv).entries)).length = grant.size + 211 := by
  have hlen : headSize (grant.payload offer dSPriv dDPriv).entries.length = 1 := by
    apply if_pos
    have := length_readBoundsEntry 15 (grant.payload offer dSPriv dDPriv).readBounds
    simp only [PairingPayload.entries, List.length_append, List.length_cons, List.length_nil]
    omega
  rw [Cbor.length_write_map, hlen, PairingPayload.entries, List.map_append, List.sum_append,
    sum_readBoundsEntry (by decide)]
  have hnum : ∀ n ∈ [3, 4, 5, 6, 9, 10, 11, 12, 13, 14], headSize n = 1 := by decide
  simp only [List.map_cons, List.map_nil, List.sum_cons, List.sum_nil, length_write_intItem,
    length_write_bytesItem, length_write_streamKeysValue, ByteArr.length_eq,
    PairingGrant.payload, PairingGrant.size, hnum 3 (by decide), hnum 4 (by decide),
    hnum 5 (by decide), hnum 6 (by decide), hnum 9 (by decide), hnum 10 (by decide),
    hnum 11 (by decide), hnum 12 (by decide), hnum 13 (by decide), hnum 14 (by decide),
    show headSize 16 = 1 from rfl, show headSize 32 = 2 from rfl]
  omega

/-! ### What is written is read back -/

theorem le_sum_map {α : Type} {size : α → ℕ} {l : List α} (h : ∀ a ∈ l, 1 ≤ size a) :
    l.length ≤ (l.map size).sum ∧ ∀ a ∈ l, size a ≤ (l.map size).sum := by
  constructor
  · have := List.length_le_sum_of_one_le (l.map size) (by simpa using h)
    simpa using this
  · intro a ha
    exact List.single_le_sum (by simp) _ (List.mem_map_of_mem ha)

theorem regular_epochsValue {epochs : Table ℕ WireKey} (h : ∀ e ∈ epochs.rows, e.1 < 2 ^ 32)
    (hsize : epochsSize epochs < 2 ^ 64) :
    (epochsValue epochs).Regular ∧ (epochsValue epochs).depth ≤ 1 := by
  unfold epochsValue epochsSize at *
  have hlen := (@le_sum_map _ (fun e : ℕ × WireKey => headSize e.1 + 34) epochs.rows
    fun e _ => by omega).1
  constructor
  · refine Cbor.forall_nodes_map.mpr ⟨?_, ?_⟩
    · show (epochs.rows.map _).length < 2 ^ 64
      rw [List.length_map]
      omega
    · intro e he
      obtain ⟨r, hr, rfl⟩ := List.mem_map.mp he
      exact ⟨(regular_intItem (by have := h r hr; omega)).1, (r.2.regular (by decide)).1⟩
  · rw [Item.depth]
    refine Nat.succ_le_succ (Cbor.depthOfEntries_le.mpr fun e he => ?_)
    obtain ⟨r, -, rfl⟩ := List.mem_map.mp he
    exact ⟨le_rfl, le_rfl⟩

theorem regular_streamKeysValue {streams : WireKeys}
    (h : ∀ r ∈ streams.rows, ∀ e ∈ r.2.rows, e.1 < 2 ^ 32)
    (hsize : streamKeysSize streams < 2 ^ 64) :
    (streamKeysValue streams).Regular ∧ (streamKeysValue streams).depth ≤ 2 := by
  unfold streamKeysValue streamKeysSize at *
  obtain ⟨hlen, hle⟩ := @le_sum_map _ (fun r : WireId × Table ℕ WireKey => 17 + epochsSize r.2)
    streams.rows fun r _ => by omega
  have hrow : ∀ r ∈ streams.rows, (epochsValue r.2).Regular ∧ (epochsValue r.2).depth ≤ 1 :=
    fun r hr => regular_epochsValue (h r hr) (by have := hle r hr; omega)
  constructor
  · refine Cbor.forall_nodes_map.mpr ⟨?_, ?_⟩
    · show (streams.rows.map _).length < 2 ^ 64
      rw [List.length_map]
      omega
    · intro e he
      obtain ⟨r, hr, rfl⟩ := List.mem_map.mp he
      exact ⟨(r.1.regular (by decide)).1, (hrow r hr).1⟩
  · rw [Item.depth]
    refine Nat.succ_le_succ (Cbor.depthOfEntries_le.mpr fun e he => ?_)
    obtain ⟨r, hr, rfl⟩ := List.mem_map.mp he
    exact ⟨Nat.zero_le 1, (hrow r hr).2⟩

theorem regular_readBoundsEntry {n : ℕ} {bounds : OrdSet WireId} {e : Item × Item}
    (hn : n < 2 ^ 64) (hsize : readBoundsSize bounds < 2 ^ 64)
    (he : e ∈ ((readBoundsValue bounds).map fun v => (intItem n, v)).toList) :
    (e.1.Regular ∧ e.2.Regular) ∧ e.1.depth ≤ 1 ∧ e.2.depth ≤ 1 := by
  unfold readBoundsValue readBoundsSize at *
  split at hsize
  next hnil => simp [hnil] at he
  next hne =>
    rw [if_neg hne, Option.map_some, Option.toList_some, List.mem_singleton] at he
    subst he
    have hids : ∀ v ∈ bounds.elems.map fun id => bytesItem id.bytes, v.Regular ∧ v.depth = 0 := by
      intro v hv
      obtain ⟨id, -, rfl⟩ := List.mem_map.mp hv
      exact id.regular (by decide)
    obtain ⟨hreg, hdepth⟩ := regular_array (by rw [List.length_map]; omega) hids
    exact ⟨⟨(regular_intItem hn).1, hreg⟩, Nat.zero_le 1, hdepth⟩

variable {cbor : Cbor.Codec} {certs : DeviceCerts}

theorem readMessage_write (hc : cbor.Lawful) {σ : Type} {notMap : String}
    {takeField : σ → ℤ → Item → Except PairingPayloadError σ} {fields : σ}
    {entries : List (Item × Item)} (hcount : entries.length < 2 ^ 64)
    (hentries : ∀ e ∈ entries, (e.1.Regular ∧ e.2.Regular) ∧ e.1.depth ≤ 2 ∧ e.2.depth ≤ 2)
    (hlen : (cbor.write (.map entries)).length ≤ maxPairingPayload) :
    readMessage cbor notMap takeField fields (cbor.write (.map entries)) =
      entries.foldlM (takeEntry takeField) fields := by
  have hreg : (Item.map entries).Regular :=
    Cbor.forall_nodes_map.mpr ⟨hcount, fun e he => (hentries e he).1⟩
  have hdepth : (Item.map entries).depth ≤ maxValueDepth := by
    rw [Item.depth]
    have : depthOfEntries entries ≤ 2 :=
      Cbor.depthOfEntries_le.mpr fun e he => (hentries e he).2
    unfold maxValueDepth
    omega
  have hread := hc.read_write _ hreg maxValueDepth []
  rw [List.append_nil, if_pos hdepth] at hread
  unfold readMessage decodeMessage
  rw [if_neg (by omega), hread]
  rfl

@[simp] theorem arrN_bytes {n : ℕ} (b : ByteArr n) (what : String) :
    arrN n b.bytes what = .ok b :=
  dif_pos ⟨b.length_eq, b.isBytes⟩

@[simp] theorem arr32_bytes (b : WireKey) (what : String) : arr32 b.bytes what = .ok b :=
  arrN_bytes b what

@[simp] theorem arr16_bytes (b : WireId) (what : String) : arr16 b.bytes what = .ok b :=
  arrN_bytes b what

theorem foldlM_readEpoch {l : List (ℕ × WireKey)} (h : ∀ e ∈ l, e.1 < 2 ^ 32)
    (entry : Table ℕ WireKey) :
    (l.map fun e => (intItem e.1, bytesItem e.2.bytes)).foldlM readEpoch entry =
      .ok (l.foldl (fun s e => s.upsert e.1 e.2) entry) := by
  induction l generalizing entry with
  | nil => rfl
  | cons e l ih =>
    obtain ⟨he, hl⟩ := List.forall_mem_cons.mp h
    have hstep : readEpoch entry (intItem e.1, bytesItem e.2.bytes) =
        .ok (entry.upsert e.1 e.2) := by
      unfold readEpoch intItem bytesItem
      dsimp only
      rw [if_pos ⟨by omega, by omega⟩, arr32_bytes, Int.toNat_natCast]
      rfl
    rw [List.map_cons, List.foldlM_cons, hstep]
    exact ih hl _

theorem readStream_row {r : WireId × Table ℕ WireKey} (h : ∀ e ∈ r.2.rows, e.1 < 2 ^ 32)
    {out : WireKeys} (hnew : out.find r.1 = none) :
    readStream out (bytesItem r.1.bytes, epochsValue r.2) = .ok (out.upsert r.1 r.2) := by
  show (do
    let sid ← arr16 r.1.bytes "stream_keys key"
    let entry ← (r.2.rows.map fun e => (intItem e.1, bytesItem e.2.bytes)).foldlM readEpoch
      ((out.find sid).getD ∅)
    .ok (out.upsert sid entry) : Except PairingPayloadError WireKeys) = _
  simp only [arr16_bytes, bind, Except.bind, hnew, Option.getD_none, foldlM_readEpoch h,
    Table.foldl_upsert_rows]

theorem foldlM_readStream {l : List (WireId × Table ℕ WireKey)}
    (hl : l.Pairwise fun a b => a.1 < b.1) (h : ∀ r ∈ l, ∀ e ∈ r.2.rows, e.1 < 2 ^ 32)
    {out : WireKeys} (hnew : ∀ r ∈ l, out.find r.1 = none) :
    (l.map fun r => (bytesItem r.1.bytes, epochsValue r.2)).foldlM readStream out =
      .ok (l.foldl (fun s r => s.upsert r.1 r.2) out) := by
  induction l generalizing out with
  | nil => rfl
  | cons r l ih =>
    obtain ⟨hr, hrest⟩ := List.forall_mem_cons.mp h
    obtain ⟨hnewr, hnewl⟩ := List.forall_mem_cons.mp hnew
    obtain ⟨hlt, hl⟩ := List.pairwise_cons.mp hl
    rw [List.map_cons, List.foldlM_cons, readStream_row hr hnewr]
    -- the streams to come are later ones
    refine ih hl hrest fun r' hr' => ?_
    rw [Table.find_upsert_of_ne _ _ (hlt r' hr').ne', hnewl r' hr']

/-- **Stream keys read back** as they were written. -/
theorem readStreamKeys_rows {streams : WireKeys}
    (h : ∀ r ∈ streams.rows, ∀ e ∈ r.2.rows, e.1 < 2 ^ 32) :
    readStreamKeys (streams.rows.map fun r => (bytesItem r.1.bytes, epochsValue r.2)) ∅ =
      .ok streams := by
  unfold readStreamKeys
  rw [foldlM_readStream streams.sorted h fun _ _ => rfl, Table.foldl_upsert_rows]

theorem readReadBounds_elems (bounds : OrdSet WireId) :
    readReadBounds (bounds.elems.map fun id => bytesItem id.bytes) ∅ = .ok bounds := by
  have hgen : ∀ (l : List WireId) (out : OrdSet WireId),
      (l.map fun id => bytesItem id.bytes).foldlM readReadBound out =
        .ok (l.foldl OrdSet.insert out) := by
    intro l
    induction l with
    | nil => intro out; rfl
    | cons id l ih =>
      intro out
      have hstep : readReadBound out (bytesItem id.bytes) = .ok (out.insert id) := by
        show (arr16 id.bytes "read_bounds entry").map out.insert = _
        rw [arr16_bytes]
        rfl
      rw [List.map_cons, List.foldlM_cons, hstep]
      exact ih _
  refine (hgen bounds.elems ∅).trans ?_
  exact congrArg Except.ok bounds.ofList_elems

theorem foldlM_readBoundsEntry {σ : Type}
    {takeField : σ → ℤ → Item → Except PairingPayloadError σ} {n : ℕ} {bounds : OrdSet WireId}
    {fields fields' : σ} (hnil : bounds = ∅ → fields = fields')
    (htake : takeField fields n (.array (bounds.elems.map fun id => bytesItem id.bytes)) =
      .ok fields') :
    (((readBoundsValue bounds).map fun v => (intItem n, v)).toList).foldlM (takeEntry takeField)
      fields = .ok fields' := by
  unfold readBoundsValue
  split
  next h =>
    have hempty : bounds = ∅ := OrdSet.ext fun k => by simp [OrdSet.mem_def, h]
    exact congrArg Except.ok (hnil hempty)
  next =>
    have hstep : takeEntry takeField fields
        (intItem n, .array (bounds.elems.map fun id => bytesItem id.bytes)) = .ok fields' := htake
    rw [Option.map_some, Option.toList_some, List.foldlM_cons, hstep]
    rfl

theorem foldlM_cons_ok {ε α β : Type} {f : β → α → Except ε β} {a : α} {l : List α} {b b' : β}
    (h : f b a = .ok b') : (a :: l).foldlM f b = l.foldlM f b' := by
  rw [List.foldlM_cons, h]
  rfl

theorem map_arr32 {σ : Type} (b : WireKey) (what : String) (take : WireKey → σ) :
    (arr32 b.bytes what).map take = .ok (take b) := by
  rw [arr32_bytes]
  rfl

theorem map_arr16 {σ : Type} (b : WireId) (what : String) (take : WireId → σ) :
    (arr16 b.bytes what).map take = .ok (take b) := by
  rw [arr16_bytes]
  rfl

theorem map_readStreamKeys {σ : Type} {streams : WireKeys}
    (h : ∀ r ∈ streams.rows, ∀ e ∈ r.2.rows, e.1 < 2 ^ 32) (take : WireKeys → σ) :
    (readStreamKeys (streams.rows.map fun r => (bytesItem r.1.bytes, epochsValue r.2)) ∅).map take =
      .ok (take streams) := by
  rw [readStreamKeys_rows h]
  rfl

theorem map_readReadBounds {σ : Type} (bounds : OrdSet WireId) (take : OrdSet WireId → σ) :
    (readReadBounds (bounds.elems.map fun id => bytesItem id.bytes) ∅).map take =
      .ok (take bounds) := by
  rw [readReadBounds_elems]
  rfl

theorem foldlM_grantEntries (grant : WireGrant) :
    grant.entries.foldlM (takeEntry GrantFields.takeField) .initial =
      .ok ⟨some grant.deviceCert, some grant.vaultRoot, grant.streamKeys, grant.readBounds⟩ := by
  have hcert : takeEntry GrantFields.takeField .initial (intItem 1, bytesItem grant.deviceCert) =
      .ok ⟨some grant.deviceCert, none, ∅, ∅⟩ := rfl
  have hroot : takeEntry GrantFields.takeField ⟨some grant.deviceCert, none, ∅, ∅⟩
      (intItem 2, bytesItem grant.vaultRoot.bytes) =
        .ok ⟨some grant.deviceCert, some grant.vaultRoot, ∅, ∅⟩ :=
    map_arr32 grant.vaultRoot "grant vault_root" _
  have hkeys : takeEntry GrantFields.takeField ⟨some grant.deviceCert, some grant.vaultRoot, ∅, ∅⟩
      (intItem 3, streamKeysValue grant.streamKeys) =
        .ok ⟨some grant.deviceCert, some grant.vaultRoot, grant.streamKeys, ∅⟩ :=
    map_readStreamKeys grant.epoch_lt _
  rw [PairingGrant.entries, List.cons_append, foldlM_cons_ok hcert, List.cons_append,
    foldlM_cons_ok hroot, List.cons_append, foldlM_cons_ok hkeys, List.nil_append]
  exact foldlM_readBoundsEntry (fun h => by rw [h]) (map_readReadBounds grant.readBounds _)

theorem foldlM_payloadEntries (grant : WireGrant) (offer : PairingOffer WireId WireKey)
    (dSPriv dDPriv : WireKey) :
    (grant.payload offer dSPriv dDPriv).entries.foldlM (takeEntry PayloadFields.takeField)
      .initial = .ok
        { idSPub := some offer.idSPub
          idDPub := some offer.idDPub
          identityId := some offer.identityId
          genesisIdentityId := some offer.genesisIdentityId
          genesisIdSPub := some offer.genesisIdSPub
          vaultRoot := some grant.vaultRoot
          dSPriv := some dSPriv
          dDPriv := some dDPriv
          deviceCert := some grant.deviceCert
          streamKeys := grant.streamKeys
          readBounds := grant.readBounds } := by
  have h3 : ∀ f b, takeEntry PayloadFields.takeField f (intItem 3, bytesItem b.bytes) =
      .ok { f with idSPub := some b } := fun f b => map_arr32 b "id_s_pub" _
  have h4 : ∀ f b, takeEntry PayloadFields.takeField f (intItem 4, bytesItem b.bytes) =
      .ok { f with idDPub := some b } := fun f b => map_arr32 b "id_d_pub" _
  have h5 : ∀ f b, takeEntry PayloadFields.takeField f (intItem 5, bytesItem b.bytes) =
      .ok { f with identityId := some b } := fun f b => map_arr16 b "identity_id" _
  have h6 : ∀ f : PayloadFields, f.streamKeys = ∅ → takeEntry PayloadFields.takeField f
      (intItem 6, streamKeysValue grant.streamKeys) =
        .ok { f with streamKeys := grant.streamKeys } := by
    intro f hf
    have := map_readStreamKeys grant.epoch_lt fun s => { f with streamKeys := s }
    rw [← hf] at this
    exact this
  have h9 : ∀ f b, takeEntry PayloadFields.takeField f (intItem 9, bytesItem b.bytes) =
      .ok { f with vaultRoot := some b } := fun f b => map_arr32 b "vault_root" _
  have h10 : ∀ f b, takeEntry PayloadFields.takeField f (intItem 10, bytesItem b.bytes) =
      .ok { f with genesisIdentityId := some b } := fun f b => map_arr16 b "genesis_identity_id" _
  have h11 : ∀ f b, takeEntry PayloadFields.takeField f (intItem 11, bytesItem b.bytes) =
      .ok { f with genesisIdSPub := some b } := fun f b => map_arr32 b "genesis_id_s_pub" _
  have h12 : ∀ f b, takeEntry PayloadFields.takeField f (intItem 12, bytesItem b.bytes) =
      .ok { f with dSPriv := some b } := fun f b => map_arr32 b "d_s_priv" _
  have h13 : ∀ f b, takeEntry PayloadFields.takeField f (intItem 13, bytesItem b.bytes) =
      .ok { f with dDPriv := some b } := fun f b => map_arr32 b "d_d_priv" _
  have h14 : ∀ f b, takeEntry PayloadFields.takeField f (intItem 14, bytesItem b) =
      .ok { f with deviceCert := some b } := fun _ _ => rfl
  simp only [PairingPayload.entries, PairingGrant.payload, PayloadFields.initial,
    List.cons_append, List.nil_append, List.foldlM_cons, h3, h4, h5, h6, h9, h10, h11, h12, h13,
    h14, bind, Except.bind]
  refine foldlM_readBoundsEntry (fun h => ?_) (map_readReadBounds grant.readBounds _)
  rw [h]

theorem regular_grantEntries (grant : WireGrant) (hsize : grant.size ≤ maxPairingPayload) :
    ∀ e ∈ grant.entries, (e.1.Regular ∧ e.2.Regular) ∧ e.1.depth ≤ 2 ∧ e.2.depth ≤ 2 := by
  unfold PairingGrant.size maxPairingPayload maxNoiseMessage at hsize
  have hkeys := regular_streamKeysValue grant.epoch_lt (by omega)
  have hnum : ∀ n < 24, (intItem n).Regular ∧ (intItem n).depth = 0 :=
    fun n hn => regular_intItem (by omega)
  have hcert := @regular_bytesItem grant.deviceCert grant.cert_isBytes (by omega)
  have hroot := grant.vaultRoot.regular (by decide)
  intro e he
  rcases List.mem_append.mp he with he | he
  · simp only [List.mem_cons, List.not_mem_nil, or_false] at he
    rcases he with rfl | rfl | rfl
    · exact ⟨⟨(hnum 1 (by decide)).1, hcert.1⟩, Nat.zero_le 2, hcert.2 ▸ Nat.zero_le 2⟩
    · exact ⟨⟨(hnum 2 (by decide)).1, hroot.1⟩, Nat.zero_le 2, hroot.2 ▸ Nat.zero_le 2⟩
    · exact ⟨⟨(hnum 3 (by decide)).1, hkeys.1⟩, Nat.zero_le 2, hkeys.2⟩
  · obtain ⟨hreg, hdepth⟩ := regular_readBoundsEntry (by decide) (by omega) he
    exact ⟨hreg, by omega, by omega⟩

theorem regular_payloadEntries (grant : WireGrant) (offer : PairingOffer WireId WireKey)
    (dSPriv dDPriv : WireKey) (hsize : grant.size ≤ maxPairingPayload) :
    ∀ e ∈ (grant.payload offer dSPriv dDPriv).entries,
      (e.1.Regular ∧ e.2.Regular) ∧ e.1.depth ≤ 2 ∧ e.2.depth ≤ 2 := by
  unfold PairingGrant.size maxPairingPayload maxNoiseMessage at hsize
  have hkeys := regular_streamKeysValue grant.epoch_lt (by omega)
  have hcert := @regular_bytesItem grant.deviceCert grant.cert_isBytes (by omega)
  -- all the other fields are arrays of a fixed size
  have hfield : ∀ {n m : ℕ} (b : ByteArr m), n < 24 → m ≤ 32 →
      ((intItem n).Regular ∧ (bytesItem b.bytes).Regular) ∧
        (intItem n).depth ≤ 2 ∧ (bytesItem b.bytes).depth ≤ 2 := by
    intro n m b hn hm
    obtain ⟨hreg, hdepth⟩ := b.regular (by omega)
    exact ⟨⟨(regular_intItem (by omega)).1, hreg⟩, Nat.zero_le 2, hdepth ▸ Nat.zero_le 2⟩
  intro e he
  rcases List.mem_append.mp he with he | he
  · simp only [List.mem_cons, List.not_mem_nil, or_false] at he
    rcases he with rfl | rfl | rfl | rfl | rfl | rfl | rfl | rfl | rfl | rfl
    case inr.inr.inr.inl =>
      exact ⟨⟨(regular_intItem (by decide)).1, hkeys.1⟩, Nat.zero_le 2, hkeys.2⟩
    case inr.inr.inr.inr.inr.inr.inr.inr.inr =>
      exact ⟨⟨(regular_intItem (by decide)).1, hcert.1⟩, Nat.zero_le 2, hcert.2 ▸ Nat.zero_le 2⟩
    all_goals exact hfield _ (by decide) (by decide)
  · obtain ⟨hreg, hdepth⟩ :=
      @regular_readBoundsEntry 15 grant.readBounds e (by decide) (by omega) he
    exact ⟨hreg, by omega, by omega⟩

/-! ### A grant that is sent -/

theorem writeMessage_eq_ok {map : List (Item × Item)} {bytes : Bytes} :
    writeMessage cbor map = .ok bytes ↔
      cbor.write (.map map) = bytes ∧ bytes.length ≤ maxPairingPayload := by
  unfold writeMessage
  dsimp only
  split
  next h =>
    constructor
    · intro hok
      cases hok
    · intro ⟨heq, hle⟩
      rw [heq] at h
      omega
  next h =>
    rw [Except.ok.injEq]
    exact ⟨fun heq => ⟨heq, heq ▸ not_lt.mp h⟩, fun h => h.1⟩

/-- **A grant decodes from its bytes.** -/
theorem decodePairingGrant_write (hc : cbor.Lawful) (hw : cbor.write = Cbor.write)
    (grant : WireGrant) (hsize : grant.size ≤ maxPairingPayload) :
    decodePairingGrant cbor (cbor.write (.map grant.entries)) = .ok grant.toPairingGrant := by
  have hcount : grant.entries.length < 2 ^ 64 := by
    have := length_readBoundsEntry 4 grant.readBounds
    simp only [PairingGrant.entries, List.length_append, List.length_cons, List.length_nil]
    omega
  have hread : readMessage cbor "grant must be a map" GrantFields.takeField .initial
      (cbor.write (.map grant.entries)) = _ :=
    readMessage_write hc hcount (regular_grantEntries grant hsize)
      (by rw [hw, PairingGrant.length_write]; exact hsize)
  unfold decodePairingGrant
  rw [hread, foldlM_grantEntries]
  rfl

/-- **What a grant comes to decodes from its bytes** if both of its ids are those of their keys;
otherwise it is refused. -/
theorem decodePairingPayload_write (hc : cbor.Lawful) (hw : cbor.write = Cbor.write)
    (grant : WireGrant) (offer : PairingOffer WireId WireKey) (dSPriv dDPriv : WireKey)
    (hsize : grant.size + 211 ≤ maxPairingPayload) :
    decodePairingPayload cbor certs
        (cbor.write (.map (grant.payload offer dSPriv dDPriv).entries)) =
      if certs.identityIdFromPub offer.genesisIdSPub ≠ offer.genesisIdentityId then
        .error .genesisMismatch
      else if certs.identityIdFromPub offer.idSPub ≠ offer.identityId then
        .error .identityMismatch
      else .ok (grant.payload offer dSPriv dDPriv) := by
  have hcount : (grant.payload offer dSPriv dDPriv).entries.length < 2 ^ 64 := by
    have := length_readBoundsEntry 15 (grant.payload offer dSPriv dDPriv).readBounds
    simp only [PairingPayload.entries, List.length_append, List.length_cons, List.length_nil]
    omega
  have hread : readMessage cbor "payload must be a map" PayloadFields.takeField .initial
      (cbor.write (.map (grant.payload offer dSPriv dDPriv).entries)) = _ :=
    readMessage_write hc hcount (regular_payloadEntries grant offer dSPriv dDPriv (by omega))
      (by rw [hw, length_write_payload]; exact hsize)
  unfold decodePairingPayload
  rw [hread, foldlM_payloadEntries]
  rfl

theorem DeviceCerts.identityId_of_verifyBinding {cert : certs.Cert} {key : WireKey}
    {id : WireId} (h : certs.verifyBinding cert key id = true) :
    certs.identityIdFromPub key = id := by
  rw [certs.verifyBinding_eq] at h
  simp only [Bool.and_eq_true, decide_eq_true_eq] at h
  exact h.2.2

/-- What a grant that travels as `bytes` owes the joiner: it arrives as it was sent, it is
accepted exactly when its cert is usable, and what it comes to can be kept and read again. -/
structure Delivered (cbor : Cbor.Codec) (certs : DeviceCerts) (joiner : PairingJoiner)
    (grant : PairingGrant WireId WireKey) (bytes : Bytes) : Prop where
  arrives : decodePairingGrant cbor bytes = .ok grant
  accept_iff : (∃ p, joiner.accept certs grant = .ok p) ↔
    grant.Usable certs.toPairingCrypto joiner.offer joiner.request
  kept : ∀ p, joiner.accept certs grant = .ok p → ∃ out, encodePairingPayload cbor p = .ok out ∧
    decodePairingPayload cbor certs out = .ok p

/-- **A grant that is sent is delivered** exactly when, if its cert is usable, it is 211 bytes
below the limit and the offer's first identity is the one of its key. -/
theorem delivered_iff (hc : cbor.Lawful) (hw : cbor.write = Cbor.write)
    (offer : PairingOffer WireId WireKey) (nickname platform : String) (seedS seedD : WireKey)
    (grant : WireGrant) {bytes : Bytes} (hsent : grant.encode cbor = .ok bytes) :
    Delivered cbor certs (.new certs offer nickname platform seedS seedD) grant.toPairingGrant
        bytes ↔
      (grant.Usable certs.toPairingCrypto offer
          (PairingJoiner.new certs offer nickname platform seedS seedD).request →
        grant.size ≤ maxPairingPayload - 211 ∧
          certs.identityIdFromPub offer.genesisIdSPub = offer.genesisIdentityId) := by
  obtain ⟨rfl, hlen⟩ := writeMessage_eq_ok.mp hsent
  have hsize : grant.size ≤ maxPairingPayload := by
    rw [hw, PairingGrant.length_write] at hlen
    exact hlen
  have haccept : ∀ p, (PairingJoiner.new certs offer nickname platform seedS seedD).accept certs
      grant.toPairingGrant = .ok p ↔ grant.Usable certs.toPairingCrypto offer
        (PairingJoiner.new certs offer nickname platform seedS seedD).request ∧
      p = grant.payload offer seedS seedD := fun p => PairingGrant.accept_eq_ok
  constructor
  · intro h husable
    obtain ⟨out, hout, hback⟩ := h.kept _ ((haccept _).mpr ⟨husable, rfl⟩)
    obtain ⟨rfl, hle⟩ := writeMessage_eq_ok.mp hout
    rw [hw, length_write_payload] at hle
    rw [decodePairingPayload_write hc hw grant offer seedS seedD hle] at hback
    refine ⟨Nat.le_sub_of_add_le hle, not_not.mp fun hne => ?_⟩
    rw [if_pos hne] at hback
    cases hback
  · intro h
    refine ⟨decodePairingGrant_write hc hw grant hsize, ?_, ?_⟩
    · simp only [haccept, exists_and_left, exists_eq, and_true]
      rfl
    · intro p hp
      obtain ⟨husable, rfl⟩ := (haccept p).mp hp
      obtain ⟨hle, hgenesis⟩ := h husable
      -- the cert is bound to the offer's key, so the identity in force is that key's
      have hid : certs.identityIdFromPub offer.idSPub = offer.identityId := by
        obtain ⟨cert, -, hbound, -⟩ := husable
        exact certs.identityId_of_verifyBinding hbound
      have hfits : grant.size + 211 ≤ maxPairingPayload := by
        unfold maxPairingPayload maxNoiseMessage at *
        omega
      refine ⟨_, writeMessage_eq_ok.mpr ⟨rfl, ?_⟩, ?_⟩
      · rw [hw, length_write_payload]
        exact hfits
      · rw [decodePairingPayload_write hc hw grant offer seedS seedD hfits, if_neg (by simpa),
          if_neg (by simpa)]

/-! ### A pairing that goes through, and one that does not -/

section Sample

def sampleKey : WireKey := .zero 32

/-- The first half of a key. -/
def sampleIdOf (key : WireKey) : WireId where
  bytes := key.bytes.take 16
  isBytes x hx := key.isBytes x (List.mem_of_mem_take hx)
  length_eq := by simp [key.length_eq]

/-- Certs that are what they are about, byte by byte, in an account of one key. -/
def DeviceCerts.sample : DeviceCerts where
  Cert := CertBody WireId WireKey
  body := id
  fromCbor b :=
    if h : b.length = 80 ∧ ∀ x ∈ b, x < 256 then
      some ⟨⟨b.take 32, fun x hx => h.2 x (List.mem_of_mem_take hx), by simp [h.1]⟩,
        ⟨(b.drop 32).take 32, fun x hx => h.2 x (List.mem_of_mem_drop (List.mem_of_mem_take hx)),
          by simp [h.1]⟩,
        ⟨b.drop 64, fun x hx => h.2 x (List.mem_of_mem_drop hx), by simp [h.1]⟩⟩
    else none
  verifyBinding _ key expected :=
    decide (key = sampleKey) && (sampleIdOf key = sampleIdOf sampleKey && sampleIdOf key = expected)
  identityIdFromPub := sampleIdOf
  deviceIdFromPub := sampleIdOf
  signingPub := id
  dhPub := id
  verify _ key := decide (key = sampleKey)
  certIdentityId _ := sampleIdOf sampleKey
  verifyBinding_eq _ _ _ := rfl

/-- What the sample account offers: it never rotated. -/
def sampleWireOffer : PairingOffer WireId WireKey :=
  ⟨sampleKey, sampleKey, sampleIdOf sampleKey, sampleIdOf sampleKey, sampleKey⟩

def sampleStream (i : ℕ) : WireId where
  bytes := bigEndian 2 i ++ List.replicate 14 0
  isBytes x hx := by
    rcases List.mem_append.mp hx with hx | hx
    · exact lt_of_mem_bigEndian hx
    · rw [List.eq_of_mem_replicate hx]
      decide
  length_eq := by simp

theorem sampleStream_lt {i j : ℕ} (h : i < j) (hj : j < 65536) :
    sampleStream i < sampleStream j := by
  show (i / 256 ^ 1 % 256 :: i / 256 ^ 0 % 256 :: List.replicate 14 0 : List ℕ) <
    j / 256 ^ 1 % 256 :: j / 256 ^ 0 % 256 :: List.replicate 14 0
  simp only [List.cons_lt_cons_iff]
  omega

/-- The grant of an account of `n` streams, each in its first epoch. -/
def sampleGrant (n : ℕ) (hn : n ≤ 65536) : WireGrant where
  deviceCert := List.replicate 80 0
  vaultRoot := sampleKey
  streamKeys :=
    { rows := (List.range n).map fun i => (sampleStream i, (∅ : Table ℕ WireKey).upsert 1 sampleKey)
      sorted := by
        refine List.pairwise_map.mpr (List.pairwise_lt_range.imp_of_mem ?_)
        intro i j _ hj hij
        exact sampleStream_lt hij ((List.mem_range.mp hj).trans_le hn) }
  readBounds := ∅
  cert_isBytes x hx := by
    rw [List.eq_of_mem_replicate hx]
    decide
  epoch_lt r hr e he := by
    obtain ⟨i, -, rfl⟩ := List.mem_map.mp hr
    rw [List.mem_singleton.mp he]
    decide

variable {n : ℕ} {hn : n ≤ 65536}

theorem size_sampleGrant : (sampleGrant n hn).size = 120 + headSize n + 53 * n := by
  have hrow : epochsSize ((∅ : Table ℕ WireKey).upsert 1 sampleKey) = 36 := rfl
  have hcert : headSize 80 = 2 := rfl
  simp only [PairingGrant.size, sampleGrant, streamKeysSize, readBoundsSize, List.length_map,
    List.length_range, List.length_replicate, List.map_map, Function.comp_def, hrow, hcert,
    List.map_const', List.sum_replicate_nat, OrdSet.elems_empty, if_true]
  omega

theorem sampleGrant_usable : (sampleGrant n hn).Usable DeviceCerts.sample.toPairingCrypto
    sampleWireOffer
    (PairingJoiner.new .sample sampleWireOffer "tablet" "android" sampleKey sampleKey).request :=
  ⟨⟨sampleKey, sampleKey, sampleIdOf sampleKey⟩, rfl, rfl, rfl⟩

theorem encode_sampleGrant (h : (sampleGrant n hn).size ≤ maxPairingPayload) :
    (sampleGrant n hn).encode codec = .ok (Cbor.write (.map (sampleGrant n hn).entries)) :=
  writeMessage_eq_ok.mpr ⟨rfl, (PairingGrant.length_write _).trans_le h⟩

/-- **A grant of 1230 keys is sent and accepted, and what it comes to is too large to keep.** -/
theorem not_delivered :
    (∃ bytes, (sampleGrant 1230 (by decide)).encode codec = .ok bytes ∧
      decodePairingGrant codec bytes = .ok (sampleGrant 1230 (by decide)).toPairingGrant) ∧
    DeviceCerts.sample.identityIdFromPub sampleWireOffer.genesisIdSPub =
      sampleWireOffer.genesisIdentityId ∧
    ∃ p, (PairingJoiner.new .sample sampleWireOffer "tablet" "android" sampleKey sampleKey).accept
        .sample (sampleGrant 1230 (by decide)).toPairingGrant = .ok p ∧
      encodePairingPayload codec p = .error (.tooLarge 65524) := by
  have hsize : (sampleGrant 1230 (by decide)).size = 65313 := size_sampleGrant
  have hfits : (sampleGrant 1230 (by decide)).size ≤ maxPairingPayload := hsize ▸ (by decide)
  refine ⟨⟨_, encode_sampleGrant hfits, ?_⟩, rfl, _,
    PairingGrant.accept_eq_ok.mpr ⟨sampleGrant_usable, rfl⟩, ?_⟩
  · exact decodePairingGrant_write codec_lawful rfl _ hfits
  · have hlen := length_write_payload (sampleGrant 1230 (by decide)).toPairingGrant sampleWireOffer
      sampleKey sampleKey
    rw [hsize] at hlen
    unfold encodePairingPayload writeMessage
    exact (if_pos (hlen ▸ (by decide))).trans (congrArg _ (congrArg _ hlen))

theorem delivered_one : ∃ bytes, (sampleGrant 1 (by decide)).encode codec = .ok bytes ∧
    Delivered codec .sample
      (.new .sample sampleWireOffer "tablet" "android" sampleKey sampleKey)
      (sampleGrant 1 (by decide)).toPairingGrant bytes := by
  have hsize : (sampleGrant 1 (by decide)).size = 174 := size_sampleGrant
  have hfits : (sampleGrant 1 (by decide)).size ≤ maxPairingPayload := hsize ▸ (by decide)
  have hsent := encode_sampleGrant hfits
  refine ⟨_, hsent, (delivered_iff codec_lawful rfl sampleWireOffer "tablet" "android"
    sampleKey sampleKey (sampleGrant 1 (by decide)) hsent).mpr fun _ => ⟨?_, rfl⟩⟩
  rw [hsize]
  decide

end Sample

end Sunrise
