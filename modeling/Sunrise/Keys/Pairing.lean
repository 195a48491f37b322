import Sunrise.Keys.Keychain
import Sunrise.Lib.Cbor
import Sunrise.Lib.OrdSet

/-!
# Pairing a device

A device is admitted in three messages. The sponsor offers its account; the device answers with
the public halves of the keys it minted; the sponsor issues a cert for them, and hands over the
vault root, the stream keys it holds and the devices it has read-bounded. What the device then
opens its vault with is assembled from the three.

The grant carries one key for each stream and epoch, the first one in the sponsor's memory, and
not who delivered it. In the vault made from it every key is one that no device delivered, so the
rule that keeps a bounded device's keys out of writing passes them all.

## Main results

* `paired_unbounded_iff` — **no stream starts under a bounded device's key** exactly when none of
  these was delivered by one.
-/

namespace Sunrise

open Keychain

/-! ### The messages -/

section Messages

variable (Id Key : Type)

/-- What the sponsor offers: the account's public identity, and the one it started as. -/
structure PairingOffer where
  idSPub : Key
  idDPub : Key
  identityId : Id
  genesisIdentityId : Id
  genesisIdSPub : Key
deriving DecidableEq

/-- What the joiner asks for: a cert over the keys it minted. -/
structure PairingRequest where
  deviceId : Id
  dSPub : Key
  dDPub : Key
  identityId : Id
  nickname : String
  platform : String
deriving DecidableEq

/-- What the sponsor hands over. -/
structure PairingGrant [LinearOrder Id] where
  deviceCert : Bytes
  vaultRoot : Key
  /-- The stream keys it holds, by stream and epoch. -/
  streamKeys : Table Id (Table ℕ Key)
  readBounds : OrdSet Id
deriving DecidableEq

/-- What a device admitted by pairing opens its vault with. -/
structure PairingPayload [LinearOrder Id] where
  idSPub : Key
  idDPub : Key
  identityId : Id
  genesisIdentityId : Id
  genesisIdSPub : Key
  dSPriv : Key
  dDPriv : Key
  deviceCert : Bytes
  vaultRoot : Key
  streamKeys : Table Id (Table ℕ Key)
  readBounds : OrdSet Id
deriving DecidableEq

/-- What a device cert is about. -/
structure CertBody where
  dSPub : Key
  dDPub : Key
  deviceId : Id
deriving DecidableEq

/-- The certs and the ids of keys. -/
structure PairingCrypto where
  Cert : Type
  body : Cert → CertBody Id Key
  fromCbor : Bytes → Option Cert
  /-- It is signed by this identity's key, which derives this identity id. -/
  verifyBinding : Cert → Key → Id → Bool
  identityIdFromPub : Key → Id
  deviceIdFromPub : Key → Id
  signingPub : Key → Key
  dhPub : Key → Key

end Messages

/-- Why a pairing message is refused. -/
inductive PairingPayloadError where
  | malformed
  | cbor (message : String)
  | tooDeep
  | tooLarge (len : ℕ)
  | badField (what : String)
  | badCert (what : String)
  | identityMismatch
  | genesisMismatch
deriving DecidableEq, Repr

/-- Why a keychain refuses to pair. -/
inductive KeychainError where
  | identityConflict
  | identityIdMismatch
  | identitySigningKeyAbsent
  | badGrantCert (what : String)
  | cert
deriving DecidableEq, Repr

section Accept

variable {Id Key : Type} [LinearOrder Id] [DecidableEq Key]

/-- What a grant comes to, once it is accepted. -/
def PairingGrant.payload (grant : PairingGrant Id Key) (offer : PairingOffer Id Key)
    (dSPriv dDPriv : Key) : PairingPayload Id Key where
  idSPub := offer.idSPub
  idDPub := offer.idDPub
  identityId := offer.identityId
  genesisIdentityId := offer.genesisIdentityId
  genesisIdSPub := offer.genesisIdSPub
  dSPriv := dSPriv
  dDPriv := dDPriv
  deviceCert := grant.deviceCert
  vaultRoot := grant.vaultRoot
  streamKeys := grant.streamKeys
  readBounds := grant.readBounds

/-- Turn a grant into what the payload carries, if its cert is one this device can use. -/
def PairingGrant.accept (cr : PairingCrypto Id Key) (grant : PairingGrant Id Key)
    (offer : PairingOffer Id Key) (dSPriv dDPriv : Key) (request : PairingRequest Id Key) :
    Except PairingPayloadError (PairingPayload Id Key) :=
  match cr.fromCbor grant.deviceCert with
  | none => .error (.badCert "granted cert does not decode")
  | some cert =>
    if cr.verifyBinding cert offer.idSPub offer.identityId = false then
      .error (.badCert "granted cert is not signed by this account identity")
    else if (cr.body cert).dSPub = request.dSPub ∧ (cr.body cert).dDPub = request.dDPub ∧
        (cr.body cert).deviceId = request.deviceId then
      .ok (grant.payload offer dSPriv dDPriv)
    else .error (.badCert "granted cert names a different device")

variable {cr : PairingCrypto Id Key} {grant : PairingGrant Id Key} {offer : PairingOffer Id Key}
  {dSPriv dDPriv : Key} {request : PairingRequest Id Key} {p : PairingPayload Id Key}

/-- The cert is one this device can use: signed by the account of the offer, and about the keys
of the request. -/
def PairingGrant.Usable (cr : PairingCrypto Id Key) (grant : PairingGrant Id Key)
    (offer : PairingOffer Id Key) (request : PairingRequest Id Key) : Prop :=
  ∃ cert, cr.fromCbor grant.deviceCert = some cert ∧
    cr.verifyBinding cert offer.idSPub offer.identityId = true ∧
    cr.body cert = ⟨request.dSPub, request.dDPub, request.deviceId⟩

/-- **A grant is accepted** exactly when its cert is usable, and comes to its payload. -/
theorem PairingGrant.accept_eq_ok :
    grant.accept cr offer dSPriv dDPriv request = .ok p ↔
      grant.Usable cr offer request ∧ p = grant.payload offer dSPriv dDPriv := by
  unfold accept Usable
  cases hc : cr.fromCbor grant.deviceCert with
  | none => simp
  | some cert =>
    cases hv : cr.verifyBinding cert offer.idSPub offer.identityId with
    | false => simp [hv]
    | true =>
      by_cases hb : (cr.body cert).dSPub = request.dSPub ∧ (cr.body cert).dDPub = request.dDPub ∧
          (cr.body cert).deviceId = request.deviceId
      · have hbody : cr.body cert = ⟨request.dSPub, request.dDPub, request.deviceId⟩ := by
          rw [← hb.1, ← hb.2.1, ← hb.2.2]
        simp only [hv, hbody, and_self, if_true, Bool.true_eq_false, if_false, Option.some.injEq,
          exists_eq_left', true_and, Except.ok.injEq]
        exact eq_comm
      · have hbody : cr.body cert ≠ ⟨request.dSPub, request.dDPub, request.deviceId⟩ := by
          intro h
          rw [h] at hb
          exact hb ⟨rfl, rfl, rfl⟩
        simp [hv, hb, hbody]

end Accept

/-! ### The stream keys a grant carries -/

section Held

variable {K : Type}

abbrev KeyCache (K : Type) := Table (StreamId ×ₗ ℕ) (List K)

def cachedAt (cache : KeyCache K) (stream : StreamId) (epoch : ℕ) : List K :=
  (cache.find (toLex (stream, epoch))).getD []

/-- Put a key in its slot. -/
def cachePush (cache : KeyCache K) (stream : StreamId) (epoch : ℕ) (key : K) : KeyCache K :=
  cache.upsert (toLex (stream, epoch)) (cachedAt cache stream epoch ++ [key])

/-- The cache when a vault is opened: the rows that open, in the order they are read in. -/
def loadCache (rows : List (KeyRow K)) : KeyCache K :=
  rows.foldl (fun cache row => cachePush cache row.stream row.epoch row.key) ∅

/-- A key came in while the vault is open. -/
def cacheInsert [DecidableEq K] (cache : KeyCache K) (stream : StreamId) (epoch : ℕ) (key : K) :
    KeyCache K :=
  if key ∈ cachedAt cache stream epoch then cache else cachePush cache stream epoch key

theorem mem_cachePush {cache : KeyCache K} {stream stream' : StreamId} {epoch epoch' : ℕ}
    {key key' : K} : key' ∈ cachedAt (cachePush cache stream epoch key) stream' epoch' ↔
      (stream' = stream ∧ epoch' = epoch ∧ key' = key) ∨ key' ∈ cachedAt cache stream' epoch' := by
  unfold cachePush cachedAt
  rw [Table.find_upsert]
  split
  next h =>
    obtain ⟨rfl, rfl⟩ := Prod.mk.inj (toLex.injective h)
    simp only [Option.getD_some, List.mem_append, List.mem_singleton, true_and]
    tauto
  next h =>
    refine ⟨.inr, Or.rec (fun ⟨hs, he, _⟩ => ?_) id⟩
    exact absurd (by rw [hs, he]) h

theorem mem_loadCache {rows : List (KeyRow K)} {stream : StreamId} {epoch : ℕ} {key : K} :
    key ∈ cachedAt (loadCache rows) stream epoch ↔
      ∃ row ∈ rows, row.stream = stream ∧ row.epoch = epoch ∧ row.key = key := by
  have hgen : ∀ cache : KeyCache K,
      key ∈ cachedAt (rows.foldl
        (fun cache row => cachePush cache row.stream row.epoch row.key) cache) stream epoch ↔
      key ∈ cachedAt cache stream epoch ∨
        ∃ row ∈ rows, row.stream = stream ∧ row.epoch = epoch ∧ row.key = key := by
    induction rows with
    | nil => simp
    | cons row rows ih =>
      intro cache
      rw [List.foldl_cons, ih, mem_cachePush]
      simp only [List.exists_mem_cons_iff, eq_comm]
      tauto
  refine (hgen ∅).trans ?_
  simp [cachedAt]

/-- Every stream key a device holds, one for each epoch: the first in memory. -/
def heldStreamKeys (cache : KeyCache K) : Table StreamId (Table ℕ K) :=
  cache.rows.foldl (fun held r =>
    match r.2 with
    | [] => held
    | first :: _ =>
      held.upsert (ofLex r.1).1 (((held.find (ofLex r.1).1).getD ∅).upsert (ofLex r.1).2 first)) ∅

def keyAt (streams : Table StreamId (Table ℕ K)) (stream : StreamId) (epoch : ℕ) : Option K :=
  (streams.find stream).bind fun epochs => epochs.find epoch

theorem keyAt_upsert (held : Table StreamId (Table ℕ K)) (stream stream' : StreamId)
    (epoch epoch' : ℕ) (key : K) :
    keyAt (held.upsert stream (((held.find stream).getD ∅).upsert epoch key)) stream' epoch' =
      if stream' = stream ∧ epoch' = epoch then some key else keyAt held stream' epoch' := by
  unfold keyAt
  rw [Table.find_upsert]
  by_cases hs : stream' = stream
  · subst hs
    rw [if_pos rfl, Option.bind_some, Table.find_upsert]
    by_cases he : epoch' = epoch
    · simp [he]
    · cases held.find stream' <;> simp [he]
  · simp [hs]

/-- **A grant carries the first cached key** of each stream and epoch. -/
theorem keyAt_heldStreamKeys (cache : KeyCache K) (stream : StreamId) (epoch : ℕ) :
    keyAt (heldStreamKeys cache) stream epoch = (cachedAt cache stream epoch).head? := by
  have hgen : ∀ (l : List ((StreamId ×ₗ ℕ) × List K)), (l.Pairwise fun a b => a.1 < b.1) →
      ∀ held : Table StreamId (Table ℕ K),
      keyAt (l.foldl (fun held r =>
        match r.2 with
        | [] => held
        | first :: _ => held.upsert (ofLex r.1).1
            (((held.find (ofLex r.1).1).getD ∅).upsert (ofLex r.1).2 first)) held) stream epoch =
      ((Table.lookup (toLex (stream, epoch)) l).bind List.head?).or (keyAt held stream epoch) := by
    intro l hl
    induction l with
    | nil => intro held; rfl
    | cons r l ih =>
      intro held
      obtain ⟨slot, keys⟩ := r
      obtain ⟨hlt, hrest⟩ := List.pairwise_cons.mp hl
      rw [List.foldl_cons, ih hrest, Table.lookup_cons]
      by_cases hslot : toLex (stream, epoch) = slot
      · subst hslot
        have hnone : Table.lookup (toLex (stream, epoch)) l = none :=
          Table.lookup_eq_none.mpr fun r hr => ne_of_gt (hlt r hr)
        rw [hnone, if_pos rfl]
        cases keys with
        | nil => rfl
        | cons first rest => simp [keyAt_upsert]
      · rw [if_neg hslot]
        congr 1
        cases keys with
        | nil => rfl
        | cons first rest =>
          refine (keyAt_upsert ..).trans (if_neg fun ⟨hs, he⟩ => hslot ?_)
          rw [hs, he]
          rfl
  refine (hgen cache.rows cache.sorted ∅).trans ?_
  unfold cachedAt Table.find
  cases Table.lookup (toLex (stream, epoch)) cache.rows with
  | none => rfl
  | some keys => simp [keyAt]

end Held

/-! ### The sponsor -/

/-- A device that sponsors a pairing. -/
structure Sponsor (K : Type) (keyId : K → KeyId) where
  identityId : ℕ
  vaultRoot : K
  keychain : Keychain K
  bounds : ReadBounds
  cache : KeyCache K
  cached : ∀ stream epoch, ∀ key ∈ cachedAt cache stream epoch,
    (⟨stream, epoch, keyId key, key⟩ : KeyRow K) ∈ keychain.keys
  /-- Issue a cert for the keys of a request; a device without the identity's key cannot. -/
  issueCertFor : PairingRequest ℕ K → ℕ → Except KeychainError Bytes

namespace Sponsor

variable {K : Type} {keyId : K → KeyId}

/-- A vault is opened: `rows` are the rows that open, in the order they are read in. -/
def load (identityId : ℕ) (vaultRoot : K) (keychain : Keychain K) (bounds : ReadBounds)
    (issueCertFor : PairingRequest ℕ K → ℕ → Except KeychainError Bytes)
    (h : keychain.Sound keyId) (rows : List (KeyRow K)) (hrows : rows ⊆ keychain.keys) :
    Sponsor K keyId where
  identityId := identityId
  vaultRoot := vaultRoot
  keychain := keychain
  bounds := bounds
  cache := loadCache rows
  cached stream epoch key hkey := by
    obtain ⟨row, hrow, rfl, rfl, rfl⟩ := mem_loadCache.mp hkey
    have := h.keyId_eq row (hrows hrow)
    rw [← this]
    exact hrows hrow
  issueCertFor := issueCertFor

/-- A key comes in, from anywhere. -/
def absorb [DecidableEq K] (sp : Sponsor K keyId) (stream : StreamId) (epoch : ℕ) (key : K)
    (source : KeySource) : Sponsor K keyId where
  identityId := sp.identityId
  vaultRoot := sp.vaultRoot
  keychain := (sp.keychain.absorbStreamKey keyId stream epoch key source).1
  bounds := sp.bounds
  cache := if (sp.keychain.absorbStreamKey keyId stream epoch key source).2 then
    cacheInsert sp.cache stream epoch key else sp.cache
  cached stream' epoch' key' hkey := by
    have hold := sp.cached stream' epoch' key'
    have hsub : sp.keychain.keys ⊆
        (sp.keychain.insertStreamKeyRow keyId stream epoch key source).1.keys :=
      keys_subset_insertStreamKeyRow epoch key source
    split at hkey
    next hnew =>
      unfold cacheInsert at hkey
      split at hkey
      · exact hsub (hold hkey)
      · rcases mem_cachePush.mp hkey with ⟨rfl, rfl, rfl⟩ | hkey
        · -- the key was new, so its row is the one that was added
          have hfree : ¬ ∃ r ∈ sp.keychain.keys,
              r.Same ⟨stream', epoch', keyId key', key'⟩ := by
            simpa [absorbStreamKey, insertStreamKeyRow] using hnew
          show _ ∈ (sp.keychain.insertStreamKeyRow keyId stream' epoch' key' source).1.keys
          rw [insertStreamKeyRow_keys, if_neg hfree]
          exact List.mem_append_right _ (List.mem_singleton_self _)
        · exact hsub (hold hkey)
    next => exact hsub (hold hkey)
  issueCertFor := sp.issueCertFor

end Sponsor

/-- The devices a sponsor has read-bounded, as its grant carries them. -/
def readBoundsForPairing (bounds : ReadBounds) : OrdSet Device :=
  OrdSet.ofList (bounds.rows.map Prod.fst)

/-- Issue the joiner's cert and hand over the account. -/
def issuePairingGrant {K : Type} {keyId : K → KeyId} (sp : Sponsor K keyId)
    (request : PairingRequest ℕ K) (readBounds : OrdSet Device) (nowMs : ℕ) :
    Except KeychainError (PairingGrant ℕ K) :=
  if request.identityId ≠ sp.identityId then .error .identityConflict
  else
    match sp.issueCertFor request nowMs with
    | .error e => .error e
    | .ok cert => .ok ⟨cert, sp.vaultRoot, heldStreamKeys sp.cache, readBounds⟩

/-! ### The joiner's vault -/

section Joiner

variable {K : Type} (keyId : K → KeyId)

/-- The stream keys of a payload, each stored as one that came at pairing. -/
def importStreamKeys (streams : Table StreamId (Table ℕ K)) : Keychain K :=
  streams.rows.foldl (fun kc r =>
    r.2.rows.foldl (fun kc e => (kc.insertStreamKeyRow keyId r.1 e.1 e.2 .pairing).1) kc) ∅

/-- The greatest time a column holds. -/
def columnMax : ℕ := 2 ^ 63 - 1

def adoptSponsorReadBounds (bounds : ReadBounds) (ids : OrdSet Device) (nowMs : ℕ) : ReadBounds :=
  ids.elems.foldl (fun bounds id => bounds.insertOrIgnore id ⟨min nowMs columnMax, true⟩) bounds

/-- Create the vault of a device admitted by pairing, in an empty database: its keys, and whose
reads it bounds. -/
def createPaired [DecidableEq K] (cr : PairingCrypto ℕ K) (p : PairingPayload ℕ K) (nowMs : ℕ) :
    Except KeychainError (Keychain K × ReadBounds) :=
  if cr.identityIdFromPub p.idSPub ≠ p.identityId then .error .identityIdMismatch
  else
    match cr.fromCbor p.deviceCert with
    | none => .error (.badGrantCert "the granted cert does not decode")
    | some cert =>
      if cr.verifyBinding cert p.idSPub p.identityId = false then
        .error (.badGrantCert "the granted cert is not signed by this account")
      else if (cr.body cert).dSPub ≠ cr.signingPub p.dSPriv then
        .error (.badGrantCert "the granted cert names a signing key this device does not hold")
      else if (cr.body cert).dDPub ≠ cr.dhPub p.dDPriv then
        .error (.badGrantCert "the granted cert names a DH key this device does not hold")
      else if (cr.body cert).deviceId ≠ cr.deviceIdFromPub (cr.signingPub p.dSPriv) then
        .error (.badGrantCert
          "the granted cert names a device id its own signing key does not derive")
      else .ok (importStreamKeys keyId p.streamKeys, adoptSponsorReadBounds ∅ p.readBounds nowMs)

variable {keyId}

theorem createPaired_eq_ok [DecidableEq K] {cr : PairingCrypto ℕ K} {p : PairingPayload ℕ K}
    {nowMs : ℕ} {joiner : Keychain K × ReadBounds}
    (h : createPaired keyId cr p nowMs = .ok joiner) :
    joiner = (importStreamKeys keyId p.streamKeys,
      adoptSponsorReadBounds ∅ p.readBounds nowMs) := by
  unfold createPaired at h
  split at h
  · cases h
  · split at h
    · cases h
    · repeat' split at h
      all_goals first | exact (Except.ok.inj h).symm | cases h

/-! ### What the joiner writes under -/

/-- The keys of a payload, in the order they are stored. -/
def entries (streams : Table StreamId (Table ℕ K)) : List (StreamId × ℕ × K) :=
  streams.rows.flatMap fun r => r.2.rows.map fun e => (r.1, e.1, e.2)

theorem mem_entries {streams : Table StreamId (Table ℕ K)} {stream : StreamId} {epoch : ℕ}
    {key : K} : (stream, epoch, key) ∈ entries streams ↔ keyAt streams stream epoch = some key := by
  unfold entries keyAt
  simp only [List.mem_flatMap, List.mem_map, Option.bind_eq_some_iff]
  constructor
  · rintro ⟨⟨s, epochs⟩, hr, ⟨e, k⟩, he, heq⟩
    cases heq
    exact ⟨epochs, Table.mem_rows.mp hr, Table.mem_rows.mp he⟩
  · rintro ⟨epochs, hs, he⟩
    exact ⟨(stream, epochs), Table.mem_rows.mpr hs, (epoch, key), Table.mem_rows.mpr he, rfl⟩

variable (keyId) in
/-- Store keys one after another. -/
def storeAll (kc : Keychain K) (l : List (StreamId × ℕ × K)) : Keychain K :=
  l.foldl (fun kc t => (kc.insertStreamKeyRow keyId t.1 t.2.1 t.2.2 .pairing).1) kc

theorem importStreamKeys_eq (streams : Table StreamId (Table ℕ K)) :
    importStreamKeys keyId streams = storeAll keyId ∅ (entries streams) := by
  unfold importStreamKeys storeAll entries
  rw [List.foldl_flatMap]
  simp only [List.foldl_map]

theorem senders_storeAll (kc : Keychain K) (l : List (StreamId × ℕ × K)) :
    (storeAll keyId kc l).senders = kc.senders := by
  induction l generalizing kc with
  | nil => rfl
  | cons t l ih => exact (ih _).trans rfl

theorem mem_storeAll {kc : Keychain K} {l : List (StreamId × ℕ × K)} {row : KeyRow K}
    (h : row ∈ (storeAll keyId kc l).keys) :
    row ∈ kc.keys ∨ ∃ t ∈ l, row = ⟨t.1, t.2.1, keyId t.2.2, t.2.2⟩ := by
  induction l generalizing kc with
  | nil => exact .inl h
  | cons t l ih =>
    rcases ih h with h | ⟨t', ht', rfl⟩
    · rcases mem_insertStreamKeyRow h with h | rfl
      · exact .inl h
      · exact .inr ⟨t, List.mem_cons_self, rfl⟩
    · exact .inr ⟨t', List.mem_cons_of_mem _ ht', rfl⟩

theorem keys_subset_storeAll (kc : Keychain K) (l : List (StreamId × ℕ × K)) :
    kc.keys ⊆ (storeAll keyId kc l).keys := by
  induction l generalizing kc with
  | nil => exact List.Subset.refl _
  | cons t l ih =>
    exact List.Subset.trans (keys_subset_insertStreamKeyRow t.2.1 t.2.2 .pairing) (ih _)

theorem exists_storeAll (kc : Keychain K) {l : List (StreamId × ℕ × K)} {t : StreamId × ℕ × K}
    (ht : t ∈ l) :
    ∃ row ∈ (storeAll keyId kc l).keys, row.Same ⟨t.1, t.2.1, keyId t.2.2, t.2.2⟩ := by
  induction l generalizing kc with
  | nil => exact absurd ht List.not_mem_nil
  | cons t' l ih =>
    rcases List.mem_cons.mp ht with rfl | ht
    · obtain ⟨row, hrow, hsame⟩ : ∃ row ∈
          (kc.insertStreamKeyRow keyId t.1 t.2.1 t.2.2 .pairing).1.keys,
          row.Same ⟨t.1, t.2.1, keyId t.2.2, t.2.2⟩ :=
        exists_same_insertStreamKeyRow t.2.1 t.2.2 .pairing
      exact ⟨row, keys_subset_storeAll _ l hrow, hsame⟩
    · exact ih _ ht

variable {streams : Table StreamId (Table ℕ K)} {stream : StreamId} {bounds : ReadBounds}

/-- **The rows of a paired vault** are the keys it was handed. -/
theorem mem_importStreamKeys {row : KeyRow K} :
    row ∈ (importStreamKeys keyId streams).keys ↔
      keyAt streams row.stream row.epoch = some row.key ∧ row.keyId = keyId row.key := by
  rw [importStreamKeys_eq]
  have hfrom : ∀ {row : KeyRow K}, row ∈ (storeAll keyId ∅ (entries streams)).keys →
      keyAt streams row.stream row.epoch = some row.key ∧ row.keyId = keyId row.key := by
    intro row h
    rcases mem_storeAll h with h | ⟨⟨s, e, k⟩, ht, rfl⟩
    · exact absurd h List.not_mem_nil
    · exact ⟨mem_entries.mp ht, rfl⟩
  refine ⟨hfrom, fun ⟨hkey, hid⟩ => ?_⟩
  obtain ⟨r, hr, hs, he, -⟩ : ∃ r ∈ (storeAll keyId ∅ (entries streams)).keys,
      r.Same ⟨row.stream, row.epoch, keyId row.key, row.key⟩ :=
    exists_storeAll ∅ (mem_entries.mpr hkey)
  obtain ⟨hrk, hrid⟩ := hfrom hr
  -- one key for each stream and epoch, so the stored row is this one
  rw [show r.stream = row.stream from hs, show r.epoch = row.epoch from he, hkey] at hrk
  have hkeys : row.key = r.key := Option.some.inj hrk
  have hrow : r = row := by
    cases r
    cases row
    simp_all
  exact hrow ▸ hr

theorem writable_importStreamKeys (row : KeyRow K) :
    (importStreamKeys keyId streams).Writable bounds row := by
  intro s hs
  rw [importStreamKeys_eq, senders_storeAll] at hs
  exact absurd hs List.not_mem_nil

theorem mem_ofStream_importStreamKeys {row : KeyRow K} :
    row ∈ (importStreamKeys keyId streams).ofStream stream ↔
      (keyAt streams row.stream row.epoch = some row.key ∧ row.keyId = keyId row.key) ∧
        row.stream = stream := by
  rw [mem_ofStream, mem_importStreamKeys]

/-- **A paired vault writes under the key handed over for the highest epoch**, whoever delivered
it to the sponsor. -/
theorem currentStreamKey_importStreamKeys (hne : stream ≠ metaStream) {epoch : ℕ} {key : K} :
    (importStreamKeys keyId streams).currentStreamKey bounds stream = some (epoch, key) ↔
      keyAt streams stream epoch = some key ∧
        ∀ e k, keyAt streams stream e = some k → e ≤ epoch := by
  have hmp : ∀ {epoch : ℕ} {key : K},
      (importStreamKeys keyId streams).currentStreamKey bounds stream = some (epoch, key) →
      keyAt streams stream epoch = some key ∧
        ∀ e k, keyAt streams stream e = some k → e ≤ epoch := by
    intro epoch key h
    obtain ⟨hepoch, row, hrow, rfl, rfl, -⟩ := currentStreamKey_eq_some h
    obtain ⟨hmax, -⟩ := currentEpoch_of_ne hne hepoch
    obtain ⟨⟨hkey, -⟩, hs⟩ := mem_ofStream_importStreamKeys.mp hrow
    refine ⟨hs ▸ hkey, fun e k he => ?_⟩
    exact (Keychain.maxEpoch_eq_some.mp hmax).2 ⟨stream, e, keyId k, k⟩
      (mem_ofStream_importStreamKeys.mpr ⟨⟨he, rfl⟩, rfl⟩)
  refine ⟨hmp, fun ⟨hkey, hle⟩ => ?_⟩
  have hrow : (⟨stream, epoch, keyId key, key⟩ : KeyRow K) ∈
      (importStreamKeys keyId streams).ofStream stream :=
    mem_ofStream_importStreamKeys.mpr ⟨⟨hkey, rfl⟩, rfl⟩
  have hmax : (importStreamKeys keyId streams).maxEpoch stream = some epoch := by
    refine Keychain.maxEpoch_eq_some.mpr ⟨⟨_, hrow, rfl⟩, fun r hr => ?_⟩
    obtain ⟨⟨hrk, -⟩, hrs⟩ := mem_ofStream_importStreamKeys.mp hr
    exact hle _ _ (hrs ▸ hrk)
  have hepoch : (importStreamKeys keyId streams).currentEpoch bounds stream = some epoch := by
    unfold currentEpoch
    rw [if_neg hne, hmax]
    exact if_pos ⟨_, hrow, rfl, writable_importStreamKeys _⟩
  obtain ⟨k, hk⟩ := exists_currentStreamKey hepoch hrow rfl
  rw [hk, Option.some.inj ((hmp hk).1.symm.trans hkey)]

/-! ### Bounded devices -/

theorem find_adoptSponsorReadBounds {ids : OrdSet Device} {nowMs : ℕ} {d : Device} :
    (adoptSponsorReadBounds ∅ ids nowMs).find d = none ↔ d ∉ ids := by
  have hgen : ∀ (l : List Device) (b : ReadBounds),
      (l.foldl (fun bounds id => bounds.insertOrIgnore id ⟨min nowMs columnMax, true⟩) b).find d =
        none ↔ b.find d = none ∧ d ∉ l := by
    intro l
    induction l with
    | nil => simp
    | cons id l ih =>
      intro b
      rw [List.foldl_cons, ih, Table.find_insertOrIgnore, List.mem_cons]
      by_cases h : d = id <;> simp [h]
  exact (hgen ids.elems ∅).trans (by simp [OrdSet.mem_def])

theorem mem_readBoundsForPairing {d : Device} :
    d ∉ readBoundsForPairing bounds ↔ bounds.find d = none := by
  rw [readBoundsForPairing, OrdSet.mem_ofList, Table.find_eq_none]
  simp only [List.mem_map, not_exists, not_and]

/-- The key and the epoch that a paired vault starts an ordinary stream under: the first one in
the sponsor's memory at the highest epoch it has in memory. -/
def Sponsor.Leads (sp : Sponsor K keyId) (stream : StreamId) (epoch : ℕ) (key : K) : Prop :=
  (cachedAt sp.cache stream epoch).head? = some key ∧
    ∀ e, cachedAt sp.cache stream e ≠ [] → e ≤ epoch

variable {sp : Sponsor K keyId}

theorem currentStreamKey_joiner {stream : StreamId} (hne : stream ≠ metaStream) {epoch : ℕ}
    {key : K} :
    (importStreamKeys keyId (heldStreamKeys sp.cache)).currentStreamKey bounds stream =
      some (epoch, key) ↔ sp.Leads stream epoch key := by
  rw [currentStreamKey_importStreamKeys hne, Sponsor.Leads, keyAt_heldStreamKeys]
  refine and_congr_right fun _ => forall_congr' fun e => ?_
  rw [keyAt_heldStreamKeys]
  cases cachedAt sp.cache stream e <;> simp

variable [DecidableEq K] {cr : PairingCrypto ℕ K}
  {request : PairingRequest ℕ K} {offer : PairingOffer ℕ K} {grant : PairingGrant ℕ K}
  {p : PairingPayload ℕ K} {dSPriv dDPriv : K} {sponsorNow joinerNow : ℕ}
  {joiner : Keychain K × ReadBounds}

theorem joiner_eq
    (hgrant : issuePairingGrant sp request (readBoundsForPairing sp.bounds) sponsorNow = .ok grant)
    (haccept : grant.accept cr offer dSPriv dDPriv request = .ok p)
    (hcreate : createPaired keyId cr p joinerNow = .ok joiner) :
    joiner = (importStreamKeys keyId (heldStreamKeys sp.cache),
      adoptSponsorReadBounds ∅ (readBoundsForPairing sp.bounds) joinerNow) := by
  have hg : grant.streamKeys = heldStreamKeys sp.cache ∧
      grant.readBounds = readBoundsForPairing sp.bounds := by
    unfold issuePairingGrant at hgrant
    split at hgrant
    · cases hgrant
    · split at hgrant
      · cases hgrant
      · cases hgrant
        exact ⟨rfl, rfl⟩
  obtain ⟨-, rfl⟩ := PairingGrant.accept_eq_ok.mp haccept
  rw [createPaired_eq_ok hcreate]
  simp only [PairingGrant.payload, hg]

/-- **No ordinary stream of a paired vault starts under a key a bounded device delivered** to the
sponsor, and every key of the vault is one the sponsor holds there, exactly when no bounded device
delivered the first key in the sponsor's memory at the highest epoch of an ordinary stream. -/
theorem paired_unbounded_iff
    (hgrant : issuePairingGrant sp request (readBoundsForPairing sp.bounds) sponsorNow = .ok grant)
    (haccept : grant.accept cr offer dSPriv dDPriv request = .ok p)
    (hcreate : createPaired keyId cr p joinerNow = .ok joiner) :
    ((∀ stream, stream ≠ metaStream → ∀ epoch key,
        joiner.1.currentStreamKey joiner.2 stream = some (epoch, key) →
        sp.keychain.Unbounded keyId joiner.2 stream epoch key) ∧
      ∀ row ∈ joiner.1.keys, ∃ r ∈ sp.keychain.keys,
        r.stream = row.stream ∧ r.epoch = row.epoch ∧ r.key = row.key) ↔
    ∀ stream, stream ≠ metaStream → ∀ epoch key, sp.Leads stream epoch key →
      sp.keychain.Unbounded keyId sp.bounds stream epoch key := by
  have hbounds : ∀ {stream : StreamId} {epoch : ℕ} {key : K},
      sp.keychain.Unbounded keyId
          (adoptSponsorReadBounds ∅ (readBoundsForPairing sp.bounds) joinerNow) stream epoch key ↔
        sp.keychain.Unbounded keyId sp.bounds stream epoch key := by
    intro stream epoch key
    unfold Keychain.Unbounded
    simp only [find_adoptSponsorReadBounds, mem_readBoundsForPairing]
  rw [joiner_eq hgrant haccept hcreate]
  constructor
  · intro h stream hne epoch key hlead
    exact hbounds.mp (h.1 stream hne epoch key ((currentStreamKey_joiner hne).mpr hlead))
  · intro h
    refine ⟨fun stream hne epoch key hcur => ?_, fun row hrow => ?_⟩
    · exact hbounds.mpr (h stream hne epoch key ((currentStreamKey_joiner hne).mp hcur))
    · obtain ⟨hkey, -⟩ := mem_importStreamKeys.mp hrow
      rw [keyAt_heldStreamKeys] at hkey
      exact ⟨_, sp.cached _ _ _ (List.mem_of_mem_head? hkey), rfl, rfl, rfl⟩

end Joiner

/-! ### A pairing -/

/-- Certs that are the keys they are about. -/
def PairingCrypto.sample : PairingCrypto ℕ ℕ where
  Cert := CertBody ℕ ℕ
  body := id
  fromCbor
    | [dSPub, dDPub, deviceId] => some ⟨dSPub, dDPub, deviceId⟩
    | _ => none
  verifyBinding _ idSPub identityId := idSPub = 30 ∧ identityId = 3
  identityIdFromPub pub := pub / 10
  deviceIdFromPub pub := pub / 10
  signingPub priv := 10 * priv
  dhPub priv := 10 * priv

def sampleOffer : PairingOffer ℕ ℕ := ⟨30, 31, 3, 3, 30⟩

/-- A device that minted 4 and 5. -/
def sampleRequest : PairingRequest ℕ ℕ := ⟨4, 40, 50, 3, "tablet", "android"⟩

/-- The vault of a device after these steps, opened. -/
def sampleSponsor (steps : List (KeyStep ℕ)) : Sponsor ℕ id :=
  .load 3 20 (KeyState.run id steps).keychain (KeyState.run id steps).bounds
    (fun request _ => .ok [request.dSPub, request.dDPub, request.deviceId])
    (KeyState.sound_run id steps) (KeyState.run id steps).keychain.keys (List.Subset.refl _)

/-- Devices 9 and 6 mint the first epoch of stream 1 at the same time, and 9 is revoked. -/
def mintedTwice : List (KeyStep ℕ) :=
  [.absorb 1 ⟨1, one_le_epochMax⟩ 7 (.envelope 9), .absorb 1 ⟨1, one_le_epochMax⟩ 8 (.envelope 6),
    .bound 9 ⟨100, false⟩]

/-- **The sponsor writes under the key 6 delivered, the joiner under the one 9 did.** -/
theorem not_paired_unbounded : ∃ grant p joiner,
    issuePairingGrant (sampleSponsor mintedTwice) sampleRequest
      (readBoundsForPairing (sampleSponsor mintedTwice).bounds) 200 = .ok grant ∧
    grant.accept .sample sampleOffer 4 5 sampleRequest = .ok p ∧
    createPaired id .sample p 300 = .ok joiner ∧
    (sampleSponsor mintedTwice).keychain.currentStreamKey (sampleSponsor mintedTwice).bounds 1 =
      some (1, 8) ∧
    joiner.1.currentStreamKey joiner.2 1 = some (1, 7) ∧
    ¬ (sampleSponsor mintedTwice).keychain.Unbounded id joiner.2 1 1 7 := by
  refine ⟨_, _, _, rfl, rfl, rfl, by decide, by decide, fun h => ?_⟩
  exact absurd (h 9 (by decide)) (by decide)

/-- Device 6 delivered a key of stream 2, and then 9, which is bounded, another of its epoch. -/
def deliveredTwice : Sponsor ℕ id :=
  (sampleSponsor [.bound 9 ⟨100, false⟩, .mint 1 8,
    .absorb 2 ⟨1, one_le_epochMax⟩ 7 (.envelope 6)]).absorb 2 1 5 (.envelope 9)

theorem paired_unbounded_delivered : ∃ grant p joiner,
    issuePairingGrant deliveredTwice sampleRequest (readBoundsForPairing deliveredTwice.bounds)
      200 = .ok grant ∧
    grant.accept .sample sampleOffer 4 5 sampleRequest = .ok p ∧
    createPaired id .sample p 300 = .ok joiner ∧
    joiner.1.currentStreamKey joiner.2 2 = some (1, 7) ∧
    deliveredTwice.keychain.Unbounded id joiner.2 2 1 7 := by
  obtain ⟨grant, hgrant⟩ : ∃ grant, issuePairingGrant deliveredTwice sampleRequest
      (readBoundsForPairing deliveredTwice.bounds) 200 = .ok grant := ⟨_, rfl⟩
  obtain ⟨p, haccept⟩ : ∃ p, grant.accept .sample sampleOffer 4 5 sampleRequest = .ok p := by
    cases hgrant
    exact ⟨_, rfl⟩
  obtain ⟨joiner, hcreate⟩ : ∃ joiner, createPaired id .sample p 300 = .ok joiner := by
    cases hgrant
    cases haccept
    exact ⟨_, rfl⟩
  have hcurrent : joiner.1.currentStreamKey joiner.2 2 = some (1, 7) := by
    cases hgrant
    cases haccept
    cases hcreate
    decide
  refine ⟨grant, p, joiner, hgrant, haccept, hcreate, hcurrent, ?_⟩
  refine ((paired_unbounded_iff hgrant haccept hcreate).mpr ?_).1 2 (by decide) 1 7 hcurrent
  intro stream _ epoch key hlead d hd
  have hsenders : deliveredTwice.keychain.senders = [⟨2, 1, 7, 6⟩, ⟨2, 1, 5, 9⟩] := by decide
  rw [hsenders] at hd
  simp only [List.mem_cons, SenderRow.mk.injEq, List.not_mem_nil, or_false, id] at hd
  rcases hd with ⟨rfl, rfl, rfl, rfl⟩ | ⟨rfl, rfl, rfl, rfl⟩
  · decide
  · exact absurd hlead.1 (by decide)

end Sunrise
