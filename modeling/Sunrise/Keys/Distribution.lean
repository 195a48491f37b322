import Mathlib.Data.List.Sort
import Sunrise.Keys.Keychain
import Sunrise.Lib.Result
import Sunrise.Lib.Text
import Sunrise.Trust.Membership

/-!
# Handing the stream keys out

A key reaches a device in a `key_envelope` op, sealed to the device's own key, and the
successor of the account's identity in a share of the op that announces it. Four places
write one: minting an epoch, rotating a stream, answering a certificate with every key held
so far, and rotating the identity. Each of them leaves out the devices in the read bounds;
the bounds only grow for a device this replica has a certificate of. So a device that is
bounded here is sent no key from then on, whatever it publishes and whatever the register
comes to say of it. The device that rotates the identity is always among those it seals the
successor to, bounded or not.

Sealing and the identities' keys are parameters, and so are the fresh keys of a mint.

* `Engine.apply`, `Engine.run` — any order of them.

## Main results

* `Engine.Spares` — what a step keeps from a bounded device.
* `bounded_device_gets_no_keys` — the ratchet, in every run.
-/

namespace Sunrise

/-! ### Envelopes -/

/-- Who a `key_envelope` is sealed to. -/
inductive Recipient where
  | device (d : Device)
  | identity (id : IdentityId)
deriving DecidableEq, Repr

structure KeyEnvelope (C : Type) where
  stream : StreamId
  epoch : ℕ
  recipient : Recipient
  /-- A routing hint, checked against the key it opens to. -/
  keyId : KeyId
  ciphertext : C
deriving DecidableEq, Repr

/-- The primitives. -/
structure KeyCrypto (K C : Type) where
  keyId : K → KeyId
  /-- Seal a key of an epoch of a stream, where the recipient's key is usable. -/
  hpkeSeal : PubKey → StreamId → ℕ → K → Option C
  hpkeOpen : PubKey → StreamId → ℕ → C → Option K
  open_seal : ∀ pk stream epoch key ct, hpkeSeal pk stream epoch key = some ct →
    hpkeOpen pk stream epoch ct = some key

/-- What is fixed of a replica that hands out keys. -/
structure Node (K C : Type) where
  device : LocalDevice
  crypto : KeyCrypto K C
  identityDPub : IdentityId → PubKey
  /-- Whether this device holds an identity's unwrapping key. -/
  opensIdentity : IdentityId → Bool
  /-- Whether this device holds an identity's signing key. -/
  canRotateIdentity : IdentityId → Bool
  /-- The device that minted an identity, where it is known. -/
  mintedBy : IdentityId → Option Device

/-- A control op's payload. -/
inductive ControlBody (C : Type) where
  | keyEnvelope (p : KeyEnvelope C)
  | deviceRevoke (revoked : Device) (reason : RevokeReason)
  | account (inner : ControlInner)
deriving DecidableEq, Repr

def ControlBody.SealsKeyTo {C : Type} : ControlBody C → Device → Prop
  | .keyEnvelope p, d => p.recipient = .device d
  | .deviceRevoke _ _, _ => False
  | .account _, _ => False

/-- The op holds a share of a successor for the device. -/
def ControlBody.SharesWith {C : Type} : ControlBody C → Device → Prop
  | .account (.identityTransition p), d => d ∈ p.deviceShares.map (·.1)
  | .account (.deviceCertPublish _), _ => False
  | .deviceRevoke _ _, _ => False
  | .keyEnvelope _, _ => False

instance {C : Type} : ∀ (body : ControlBody C) (d : Device), Decidable (body.SealsKeyTo d)
  | .keyEnvelope p, d => inferInstanceAs (Decidable (p.recipient = .device d))
  | .deviceRevoke _ _, _ => instDecidableFalse
  | .account _, _ => instDecidableFalse

instance {C : Type} : ∀ (body : ControlBody C) (d : Device), Decidable (body.SharesWith d)
  | .account (.identityTransition p), d =>
    inferInstanceAs (Decidable (d ∈ p.deviceShares.map (·.1)))
  | .account (.deviceCertPublish _), _ => instDecidableFalse
  | .deviceRevoke _ _, _ => instDecidableFalse
  | .keyEnvelope _, _ => instDecidableFalse

/-- A control op in the log. -/
structure ControlEntry (C : Type) where
  own : Bool
  sender : Device
  body : ControlBody C
deriving DecidableEq, Repr

/-- A replica's tables, and its log of control ops, oldest first. -/
structure Engine (K C : Type) where
  account : Account
  revocations : Revocations
  keychain : Keychain K
  /-- `key_envelope_recipients`. -/
  recipients : List (StreamId × ℕ × Device)
  log : List (ControlEntry C)

/-- The keys a command mints, by stream and epoch. -/
abbrev Fresh (K : Type) := StreamId → ℕ → K

/-- Which of the recipients an emission is for. -/
inductive EnvelopeRecipients where
  | all
  | devicesOnly
  | identityOnly
deriving DecidableEq, Repr

namespace Engine
variable {K C : Type} (w : Node K C)

def isReadBounded (σ : Engine K C) (d : Device) : Bool :=
  (σ.revocations.readBounds.find d).isSome

def isRevoked (σ : Engine K C) (d : Device) : Bool :=
  (σ.revocations.register.find d).isSome

def head (σ : Engine K C) : IdentityId := (σ.account.head w.device).1

/-- Note that an epoch's key was sealed to a device. -/
def recordEnvelopeRecipient (σ : Engine K C) (stream : StreamId) (epoch : ℕ) (d : Device) :
    Engine K C :=
  if (stream, epoch, d) ∈ σ.recipients then σ
  else { σ with recipients := σ.recipients ++ [(stream, epoch, d)] }

/-! ### Emission -/

/-- The current devices that are not bounded, other than this one. -/
def currentDevices (σ : Engine K C) : List (Device × DeviceRow) :=
  σ.account.devices.rows.filter fun r =>
    decide (r.2.identityId = some (σ.head w)) && !σ.isReadBounded r.1 &&
      decide (r.1 ≠ w.device.self)

/-- Whom an epoch is sealed to. -/
def recipientsOf (σ : Engine K C) (which : EnvelopeRecipients) : List (Recipient × PubKey) :=
  (if which = .identityOnly then []
    else (σ.currentDevices w).filterMap fun r => r.2.dDPub.map fun pk => (.device r.1, pk)) ++
  if which = .devicesOnly then []
  else [(.identity σ.account.identity, w.identityDPub σ.account.identity)]

/-- The envelopes of one key. A recipient whose key is not usable is passed over. -/
def sealTo (σ : Engine K C) (stream : StreamId) (epoch : ℕ) (key : K)
    (which : EnvelopeRecipients) : List (KeyEnvelope C) :=
  (σ.recipientsOf w which).filterMap fun r =>
    (w.crypto.hpkeSeal r.2 stream epoch key).map fun ct =>
      ⟨stream, epoch, r.1, w.crypto.keyId key, ct⟩

def logOwn (σ : Engine K C) (body : ControlBody C) : Engine K C :=
  { σ with log := σ.log ++ [⟨true, w.device.self, body⟩] }

/-- Log one envelope, and note its recipient. -/
def appendEnvelope (σ : Engine K C) (p : KeyEnvelope C) : Engine K C :=
  match p.recipient with
  | .device d => (σ.logOwn w (.keyEnvelope p)).recordEnvelopeRecipient p.stream p.epoch d
  | .identity _ => σ.logOwn w (.keyEnvelope p)

def currentStreamKey (σ : Engine K C) (stream : StreamId) : Option (ℕ × K) :=
  σ.keychain.currentStreamKey σ.revocations.readBounds stream

def mintEpoch (fresh : Fresh K) (σ : Engine K C) (stream : StreamId) : Engine K C × (ℕ × K) :=
  let m := σ.keychain.mintEpoch w.crypto.keyId stream
    (fresh stream (σ.keychain.nextEpoch stream))
  ({ σ with keychain := m.1 }, m.2)

/-- The vault-meta stream's key, which every control op is sealed under. Its own envelopes
find it there, so a mint here asks for no other. -/
def ensureMeta (fresh : Fresh K) (σ : Engine K C) : Engine K C :=
  match σ.currentStreamKey metaStream with
  | some _ => σ
  | none =>
    let m := σ.mintEpoch w fresh metaStream
    (m.1.sealTo w metaStream m.2.1 m.2.2 .all).foldl (appendEnvelope w) m.1

/-- Emit one envelope for each recipient of a key. `underLive` says that they are sealed
under the vault-meta stream's live key, which is then looked for. -/
def emitKeyEnvelopes (fresh : Fresh K) (σ : Engine K C) (stream : StreamId) (epoch : ℕ)
    (key : K) (underLive : Bool) (which : EnvelopeRecipients) : Engine K C :=
  let envelopes := σ.sealTo w stream epoch key which
  let σ := if underLive && !envelopes.isEmpty then σ.ensureMeta w fresh else σ
  envelopes.foldl (appendEnvelope w) σ

/-- The live key of a stream, minting the next epoch and telling every other member about
it where the stream has none. -/
def ensureStreamEpoch (fresh : Fresh K) (σ : Engine K C) (stream : StreamId) : Engine K C :=
  match σ.currentStreamKey stream with
  | some _ => σ
  | none =>
    let m := σ.mintEpoch w fresh stream
    m.1.emitKeyEnvelopes w fresh stream m.2.1 m.2.2 true .all

/-! ### Answering a certificate -/

end Engine

/-- Every epoch this device holds a key of, in order. -/
def Keychain.heldEpochs {K : Type} (kc : Keychain K) : List (StreamId × ℕ) :=
  ((kc.keys.map fun row => (row.stream, row.epoch)).dedup).insertionSort
    fun a b => toLex a ≤ toLex b

/-- Every key this device holds of an epoch, in the order it came by them. -/
def Keychain.streamKeysAt {K : Type} (kc : Keychain K) (stream : StreamId) (epoch : ℕ) :
    List K :=
  ((kc.ofStream stream).filter (·.epoch = epoch)).map (·.key)

namespace Engine
variable {K C : Type} (w : Node K C)

/-- Send a device one epoch it was not sent yet. -/
def backfillEpoch (fresh : Fresh K) (d : Device) (pk : PubKey) (σ : Engine K C)
    (held : StreamId × ℕ) : Engine K C :=
  if (held.1, held.2, d) ∈ σ.recipients then σ
  else match (σ.keychain.streamKeysAt held.1 held.2).head? with
    | none => σ
    | some key => match w.crypto.hpkeSeal pk held.1 held.2 key with
      | none => σ
      | some ct => (σ.ensureMeta w fresh).appendEnvelope w
          ⟨held.1, held.2, .device d, w.crypto.keyId key, ct⟩

/-- Emit the envelopes a current device is missing. -/
def backfillKeyEnvelopes (fresh : Fresh K) (σ : Engine K C) (d : Device) (pk : PubKey) :
    Engine K C :=
  if d = w.device.self then σ
  else if σ.isReadBounded d then σ
  else if (σ.account.devices.find d).bind (·.identityId) ≠ some (σ.head w) then σ
  else σ.keychain.heldEpochs.foldl (backfillEpoch w fresh d pk) σ

def acceptedCert (σ : Engine K C) (sender : Device) (blob : Bytes) : Option DeviceCert :=
  match w.device.crypto.certFromCbor blob with
  | none => none
  | some cert =>
    if cert.deviceId ≠ sender then none
    else if (σ.account.issuer w.device cert).isNone then none
    else if rebindsKey σ.account.devices cert then none
    else some cert

def applyCertPublish (fresh : Fresh K) (σ : Engine K C) (sender : Device) (blob : Bytes) :
    Engine K C :=
  match σ.acceptedCert w sender blob with
  | none => σ
  | some cert =>
    ({ σ with account := σ.account.applyCertPublish w.device sender blob } :
      Engine K C).backfillKeyEnvelopes w fresh cert.deviceId cert.dDPub

/-! ### Applying a control op -/

/-- How far above the highest epoch held an envelope may name one. -/
def maxEpochLeap : ℕ := 64

def openKeyEnvelope (σ : Engine K C) (p : KeyEnvelope C) : Option K :=
  match p.recipient with
  | .device _ => w.crypto.hpkeOpen w.device.selfDPub p.stream p.epoch p.ciphertext
  | .identity _ =>
    if w.opensIdentity σ.account.identity then
      w.crypto.hpkeOpen (w.identityDPub σ.account.identity) p.stream p.epoch p.ciphertext
    else none

/-- Open an envelope and keep its key, under the id it really has. -/
def absorbKeyEnvelope (σ : Engine K C) (sender : Device) (p : KeyEnvelope C) : Engine K C :=
  match σ.openKeyEnvelope w p with
  | none => σ
  | some key =>
    if w.crypto.keyId key ≠ p.keyId then σ
    else ({ σ with keychain := (σ.keychain.absorbStreamKey w.crypto.keyId p.stream p.epoch key
        (.envelope sender)).1 } : Engine K C).recordEnvelopeRecipient p.stream p.epoch
          w.device.self

/-- Apply one `key_envelope`: another device's is noted, unless a bounded device says so,
and this device's own is opened. -/
def applyKeyEnvelope (σ : Engine K C) (sender : Device) (p : KeyEnvelope C) : Engine K C :=
  if min ((σ.keychain.maxEpoch p.stream).getD 0 + maxEpochLeap) epochMax < p.epoch then σ
  else match p.recipient with
    | .identity _ => σ.absorbKeyEnvelope w sender p
    | .device other =>
      if other = w.device.self then σ.absorbKeyEnvelope w sender p
      else if σ.isReadBounded sender then σ
      else σ.recordEnvelopeRecipient p.stream p.epoch other

end Engine

/-- A control op as it reaches a replica. -/
structure ControlDelivery (C : Type) where
  /-- Its position; the device is the one the envelope verified under. -/
  ref : OpRef
  hlc : Hlc
  metaEpoch : ℕ
  body : ControlBody C
  nowMs : ℕ
deriving DecidableEq, Repr

namespace Engine
variable {K C : Type} (w : Node K C)

def applyControlOp (fresh : Fresh K) (σ : Engine K C) (dl : ControlDelivery C) :
    Engine K C :=
  match dl.body with
  | .keyEnvelope p => σ.applyKeyEnvelope w dl.ref.device p
  | .deviceRevoke revoked reason =>
    let certed : Device → Bool := fun d => (σ.account.devices.find d).isSome
    { σ with revocations :=
        σ.revocations.applyDeviceRevoke ⟨dl.ref.device, dl.hlc, revoked, reason⟩ dl.nowMs certed }
  | .account (.deviceCertPublish blob) => σ.applyCertPublish w fresh dl.ref.device blob
  | .account (.identityTransition p) =>
    { σ with account :=
        σ.account.applyTransition w.device ⟨dl.ref.device, dl.hlc, dl.metaEpoch, p⟩ }

/-- The op's sender is a member, or publishes a certificate that makes it one. -/
def admits (σ : Engine K C) (dl : ControlDelivery C) : Bool :=
  match dl.body with
  | .account inner => σ.account.admits w.device ⟨dl.ref, dl.hlc, dl.metaEpoch, inner⟩
  | _ => (σ.account.devices.find dl.ref.device).isSome

/-- Put an op in the log. -/
def record (σ : Engine K C) (own : Bool) (dl : ControlDelivery C) : Engine K C :=
  { σ with
    account := { σ.account with applied := dl.ref :: σ.account.applied }
    log := σ.log ++ [⟨own, dl.ref.device, dl.body⟩] }

/-- Take a delivery, once. -/
def deliver (fresh : Fresh K) (σ : Engine K C) (dl : ControlDelivery C) : Engine K C :=
  if !σ.admits w dl then σ
  else if dl.ref ∈ σ.account.applied then σ
  else (σ.record false dl).applyControlOp w fresh dl

/-! ### Commands -/

/-- A device a rotation keeps. -/
structure Survivor where
  deviceId : Device
  dSPub : PubKey
  dDPub : PubKey
  nickname : String
  platform : String
deriving DecidableEq, Repr

/-- The devices a rotation keeps: the current ones that are not bounded, less the one it
leaves behind, and this one, which is always among them. -/
def survivors (σ : Engine K C) (exclude : Option Device) : List Survivor :=
  let others : List Survivor := (σ.currentDevices w).filterMap fun r =>
    if some r.1 = exclude then none
    else match r.2.dDPub, w.device.crypto.certFromCbor r.2.certBlob with
      | some pk, some cert => some ⟨r.1, cert.dSPub, pk, r.2.nickname, r.2.platform⟩
      | _, _ => none
  let row := σ.account.devices.find w.device.self
  let me : Survivor := ⟨w.device.self, w.device.selfSPub, w.device.selfDPub,
    (row.map (·.nickname)).getD "", (row.map (·.platform)).getD ""⟩
  (others ++ [me]).insertionSort fun a b => a.deviceId ≤ b.deviceId

/-- A freshly minted successor identity: what it issues, seals and signs. -/
structure Successor where
  identityId : IdentityId
  idSPub : PubKey
  idDPub : PubKey
  issueRosterCert : Survivor → Option Bytes
  sealDeviceShare : Survivor → Option Bytes
  sealCarryShare : Option Bytes
  sign : List Bytes → List (Device × Bytes) → Option Bytes → IdentityTransitionSigs

/-- The transition to a successor, where every survivor can be certified and sealed to. -/
def transitionTo (σ : Engine K C) (exclude : Option Device) (keepRecoveryCode : Bool)
    (successor : Successor) : Option IdentityTransitionPayload := do
  let kept := σ.survivors w exclude
  let roster ← kept.mapM successor.issueRosterCert
  let deviceShares ← kept.mapM fun s => (successor.sealDeviceShare s).map fun b => (s.deviceId, b)
  -- the outgoing key's holder cannot be both left behind and carried to
  let excludingKeyHolder := exclude.isSome && decide (w.mintedBy σ.account.identity = exclude)
  let identityShare :=
    if keepRecoveryCode && !excludingKeyHolder then successor.sealCarryShare else none
  return ⟨σ.head w, successor.identityId, successor.idSPub, successor.idDPub, roster,
    deviceShares, identityShare, successor.sign roster deviceShares identityShare⟩

/-- What a command is given: its op's position and clock, the keys it mints, and the
successor it mints. -/
structure CommandInput (K : Type) where
  ref : OpRef
  hlc : Hlc
  nowMs : ℕ
  fresh : Fresh K
  successor : Successor

/-- Replace the account identity. A device that is not the account any more, or cannot
speak for it, changes nothing. -/
def rotateIdentity (σ : Engine K C) (exclude : Option Device) (keepRecoveryCode : Bool)
    (input : CommandInput K) : Engine K C :=
  if !w.canRotateIdentity σ.account.identity then σ
  else if σ.head w ≠ σ.account.identity then σ
  else match σ.transitionTo w exclude keepRecoveryCode input.successor with
    | none => σ
    | some p =>
      let σ := σ.ensureMeta w input.fresh
      let dl : ControlDelivery C := ⟨⟨input.ref.stream, w.device.self, input.ref.seq⟩, input.hlc,
        ((σ.currentStreamKey metaStream).map (·.1)).getD 0, .account (.identityTransition p),
        input.nowMs⟩
      (σ.record true dl).applyControlOp w input.fresh dl

/-- Mint one stream's next epoch and hand it out, sealed under an epoch there already is. -/
def rotateStream (fresh : Fresh K) (σ : Engine K C) (stream : StreamId) : Engine K C :=
  let m := σ.mintEpoch w fresh stream
  m.1.emitKeyEnvelopes w fresh stream m.2.1 m.2.2 false .all

/-- The private key domain, readable as bytes. -/
def privateDomain : StreamId := 0x73756e726973652e696e626f78

/-- Every stream a rotation reaches: the two every account has, those a key is held of, and
`named`, those `streams` and `ops` name. -/
def rotationSet (σ : Engine K C) (named : List StreamId) : List StreamId :=
  ((metaStream :: privateDomain :: (σ.keychain.keys.map (·.stream) ++ named)).dedup).insertionSort
    (· ≤ ·)

/-- Rotate one stream's key. A device the register calls revoked is refused. -/
def rotateStreamKey (fresh : Fresh K) (σ : Engine K C) (stream : StreamId) : Engine K C :=
  if σ.isRevoked w.device.self then σ
  else (σ.ensureMeta w fresh).rotateStream w fresh stream

/-- Revoke a device: its op first, then every stream's key, then the identity. Nothing is
rotated where the fold discards the op. -/
def revokeDevice (σ : Engine K C) (revoked : Device) (reason : RevokeReason)
    (named : List StreamId) (input rotation : CommandInput K) : Engine K C :=
  if revoked = w.device.self then σ
  else if (σ.account.devices.find revoked).isNone then σ
  else
    let dl : ControlDelivery C := ⟨⟨input.ref.stream, w.device.self, input.ref.seq⟩, input.hlc,
      ((σ.currentStreamKey metaStream).map (·.1)).getD 0, .deviceRevoke revoked reason,
      input.nowMs⟩
    let σ := ((σ.applyControlOp w input.fresh dl).ensureMeta w input.fresh).record true dl
    if !σ.isRevoked revoked then σ
    else
      let σ := (σ.rotationSet named).foldl (rotateStream w input.fresh) σ
      σ.rotateIdentity w (some revoked) true rotation

/-- Rotate the identity and retire the recovery code: a new vault-meta epoch for the devices
alone, the rotation, and then that epoch for the successor and a new epoch of every other
stream. -/
def rotateIdentityRetiringCode (σ : Engine K C) (named : List StreamId)
    (input : CommandInput K) : Engine K C :=
  if !w.canRotateIdentity σ.account.identity then σ
  else if σ.head w ≠ σ.account.identity ∨ σ.isRevoked w.device.self then σ
  else
    let m := (σ.ensureMeta w input.fresh).mintEpoch w input.fresh metaStream
    let σ := m.1.emitKeyEnvelopes w input.fresh metaStream m.2.1 m.2.2 false .devicesOnly
    let σ := σ.rotateIdentity w none false input
    if σ.account.identity ≠ input.successor.identityId then σ
    else
      let σ := σ.emitKeyEnvelopes w input.fresh metaStream m.2.1 m.2.2 false .identityOnly
      ((σ.rotationSet named).filter (· ≠ metaStream)).foldl (rotateStream w input.fresh) σ

/-- What can happen to a replica. -/
inductive Step (K C : Type) where
  | deliver (fresh : Fresh K) (dl : ControlDelivery C)
  /-- A key arrives by pairing, a key bundle or a recovery blob. -/
  | absorb (stream : StreamId) (epoch : Epoch) (key : K) (source : KeySource)
  | ensure (fresh : Fresh K) (stream : StreamId)
  | rotateStreamKey (fresh : Fresh K) (stream : StreamId)
  | revokeDevice (revoked : Device) (reason : RevokeReason) (named : List StreamId)
      (input rotation : CommandInput K)
  | rotateIdentity (input : CommandInput K)
  | rotateIdentityRetiringCode (named : List StreamId) (input : CommandInput K)

def apply (σ : Engine K C) : Step K C → Engine K C
  | .deliver fresh dl => σ.deliver w fresh dl
  | .absorb stream epoch key source => { σ with keychain :=
      (σ.keychain.absorbStreamKey w.crypto.keyId stream epoch key source).1 }
  | .ensure fresh stream => σ.ensureStreamEpoch w fresh stream
  | .rotateStreamKey fresh stream => σ.rotateStreamKey w fresh stream
  | .revokeDevice revoked reason named input rotation =>
    σ.revokeDevice w revoked reason named input rotation
  | .rotateIdentity input => σ.rotateIdentity w none true input
  | .rotateIdentityRetiringCode named input => σ.rotateIdentityRetiringCode w named input

def run (σ : Engine K C) (steps : List (Step K C)) : Engine K C := steps.foldl (apply w) σ

end Engine

/-! ### Rows that stay -/

theorem isSome_bindDevice {devices : Devices} {cert : DeviceCert} {blob : Bytes}
    {issuer : IdentityId} {d : Device} (h : (devices.find d).isSome) :
    ((bindDevice devices cert blob issuer).find d).isSome := by
  unfold bindDevice
  split <;> rw [Table.find_upsert] <;> split <;> simp_all

theorem isSome_applyRoster {cr : IdentityCrypto} {roster : List Bytes} {target : IdentityId}
    {devices : Devices} {d : Device} (h : (devices.find d).isSome) :
    ((applyRoster cr devices roster target).find d).isSome := by
  unfold applyRoster
  induction roster generalizing devices with
  | nil => exact h
  | cons blob roster ih =>
    rw [List.foldl_cons]
    apply ih
    cases cr.certFromCbor blob with
    | none => exact h
    | some cert =>
      by_cases hr : rebindsKey devices cert
      · simpa [hr] using h
      · simpa [hr] using isSome_bindDevice h

namespace Account
variable {r : LocalDevice} {d : Device}

variable {st : Account}

theorem isSome_adopt {p : IdentityTransitionPayload} {blob : Bytes}
    (h : (st.devices.find d).isSome) : ((st.adopt r p blob).devices.find d).isSome := by
  rw [adopt, Table.find_mapValues, Option.isSome_map]
  exact h

theorem isSome_adoptLink {target : IdentityId}
    (h : (st.devices.find d).isSome) : ((st.adoptLink r target).1.devices.find d).isSome := by
  unfold adoptLink
  split
  · exact h
  · dsimp only
    split
    · exact h
    · split
      · split
        · exact isSome_adopt h
        · exact h
      · split
        · exact h
        · split
          · dsimp only
            exact isSome_adopt h
          · exact h

theorem isSome_adoptLinks {links : List Link}
    (h : (st.devices.find d).isSome) : ((st.adoptLinks r links).devices.find d).isSome := by
  induction links generalizing st with
  | nil => exact h
  | cons l links ih =>
    unfold adoptLinks
    have hlink : ((st.adoptLink r l.1).1.devices.find d).isSome := isSome_adoptLink h
    split
    · next st' heq => exact ih (by rwa [heq] at hlink)
    · next st' heq => rwa [heq] at hlink

theorem isSome_recomputeIdentityHead (h : (st.devices.find d).isSome) :
    ((recomputeIdentityHead r st).devices.find d).isSome := by
  unfold recomputeIdentityHead
  dsimp only
  split
  · exact h
  · split
    · exact isSome_adoptLink (isSome_adoptLinks h)
    · exact isSome_adoptLinks h

theorem isSome_applyTransition {op : TransitionOp}
    (h : (st.devices.find d).isSome) : ((st.applyTransition r op).devices.find d).isSome := by
  unfold applyTransition
  split
  · exact h
  · split
    · exact h
    · dsimp only
      split
      · exact isSome_applyRoster (isSome_recomputeIdentityHead h)
      · exact isSome_recomputeIdentityHead h

theorem isSome_applyCertPublish {sender : Device} {blob : Bytes}
    (h : (st.devices.find d).isSome) :
    ((st.applyCertPublish r sender blob).devices.find d).isSome := by
  unfold applyCertPublish
  split
  · exact h
  · split
    · exact h
    · split
      · exact h
      · split
        · exact h
        · exact isSome_bindDevice h

end Account

namespace Revocations
variable {st : Revocations} {d : Device}

theorem isSome_refold (h : (st.readBounds.find d).isSome) :
    ((refold st).readBounds.find d).isSome := by
  unfold refold
  dsimp only
  generalize st.ops.fold.rows = rows
  generalize st.readBounds = bounds at h
  induction rows generalizing bounds with
  | nil => exact h
  | cons r rows ih =>
    refine ih _ ?_
    rw [Table.find_upsert]
    split
    · rfl
    · exact h

theorem isSome_releaseOrphanReadBounds {certed : Device → Bool}
    (h : (st.readBounds.find d).isSome) (hc : certed d = true) :
    ((releaseOrphanReadBounds st certed).readBounds.find d).isSome := by
  unfold releaseOrphanReadBounds
  rw [Table.find_filter]
  obtain ⟨bound, hb⟩ := Option.isSome_iff_exists.mp h
  simp [hb, hc]

/-- **Once bounded, a device with a certificate stays bounded**: refolds, caps and
compactions take nothing back. -/
theorem isSome_applyDeviceRevoke {op : DeviceRevoke} {nowMs : ℕ} {certed : Device → Bool}
    (h : (st.readBounds.find d).isSome) (hc : certed d = true) :
    ((st.applyDeviceRevoke op nowMs certed).readBounds.find d).isSome := by
  unfold applyDeviceRevoke
  split
  · exact h
  · exact isSome_releaseOrphanReadBounds (isSome_refold h) hc

end Revocations

/-! ### What a bounded device is spared -/

variable {stream : StreamId}

namespace Engine
variable {K C : Type} {w : Node K C} {fresh : Fresh K} {d : Device} {σ σ' σ'' : Engine K C}

/-- A device with a row, whose reads are bounded. -/
structure Bounded (σ : Engine K C) (d : Device) : Prop where
  certed : (σ.account.devices.find d).isSome
  bounded : (σ.revocations.readBounds.find d).isSome

/-- An op of this replica that a bounded device may be in the recipients of: none seals it
a key, and a share of a successor is only for the device that writes it. -/
def Quiet (w : Node K C) (d : Device) (x : ControlEntry C) : Prop :=
  x.own = true → ¬ x.body.SealsKeyTo d ∧ (x.body.SharesWith d → d = w.device.self)

/-- What every step keeps from a bounded device: it is bounded still, and none of the ops
added is for it. -/
def Spares (w : Node K C) (d : Device) (σ σ' : Engine K C) : Prop :=
  σ.Bounded d → σ'.Bounded d ∧ ∃ added, σ'.log = σ.log ++ added ∧ ∀ x ∈ added, Quiet w d x

theorem Bounded.isReadBounded (h : σ.Bounded d) : σ.isReadBounded d = true := h.bounded

theorem spares_refl (σ : Engine K C) : Spares w d σ σ := by
  intro h
  exact ⟨h, [], by simp, by simp⟩

theorem Spares.trans (h₁ : Spares w d σ σ') (h₂ : Spares w d σ' σ'') : Spares w d σ σ'' := by
  intro h
  obtain ⟨hb, added₁, hlog₁, hq₁⟩ := h₁ h
  obtain ⟨hb', added₂, hlog₂, hq₂⟩ := h₂ hb
  refine ⟨hb', added₁ ++ added₂, by rw [hlog₂, hlog₁, List.append_assoc], ?_⟩
  intro x hx
  rcases List.mem_append.mp hx with hx | hx
  · exact hq₁ x hx
  · exact hq₂ x hx

theorem spares_foldl {α : Type} {f : Engine K C → α → Engine K C} (l : List α)
    (hf : ∀ a ∈ l, ∀ σ, Spares w d σ (f σ a)) (σ : Engine K C) :
    Spares w d σ (l.foldl f σ) := by
  induction l generalizing σ with
  | nil => exact spares_refl σ
  | cons a l ih =>
    have hhead := hf a (by simp) σ
    exact hhead.trans (ih (fun b hb => hf b (by simp [hb])) _)

theorem spares_of_bounded (h : σ.Bounded d → σ'.Bounded d) (hlog : σ'.log = σ.log) :
    Spares w d σ σ' := by
  intro hb
  exact ⟨h hb, [], by simp [hlog], by simp⟩

@[simp] theorem recordEnvelopeRecipient_account (stream : StreamId) (epoch : ℕ) (d' : Device) :
    (σ.recordEnvelopeRecipient stream epoch d').account = σ.account := by
  unfold recordEnvelopeRecipient
  split <;> rfl

@[simp] theorem recordEnvelopeRecipient_revocations (stream : StreamId) (epoch : ℕ)
    (d' : Device) : (σ.recordEnvelopeRecipient stream epoch d').revocations = σ.revocations := by
  unfold recordEnvelopeRecipient
  split <;> rfl

@[simp] theorem recordEnvelopeRecipient_keychain (stream : StreamId) (epoch : ℕ)
    (d' : Device) : (σ.recordEnvelopeRecipient stream epoch d').keychain = σ.keychain := by
  unfold recordEnvelopeRecipient
  split <;> rfl

@[simp] theorem recordEnvelopeRecipient_log (stream : StreamId) (epoch : ℕ) (d' : Device) :
    (σ.recordEnvelopeRecipient stream epoch d').log = σ.log := by
  unfold recordEnvelopeRecipient
  split <;> rfl

theorem spares_recordEnvelopeRecipient (stream : StreamId) (epoch : ℕ) (d' : Device) :
    Spares w d σ (σ.recordEnvelopeRecipient stream epoch d') := by
  apply spares_of_bounded
  · intro h
    exact ⟨by simpa using h.certed, by simpa using h.bounded⟩
  · simp

theorem spares_logOwn {body : ControlBody C} (hq : Quiet w d ⟨true, w.device.self, body⟩) :
    Spares w d σ (σ.logOwn w body) := by
  intro h
  exact ⟨⟨h.certed, h.bounded⟩, [⟨true, w.device.self, body⟩], rfl, by simpa using hq⟩

theorem quiet_keyEnvelope {own : Bool} {sender : Device} {p : KeyEnvelope C}
    (h : p.recipient ≠ .device d) : Quiet w d ⟨own, sender, .keyEnvelope p⟩ := by
  intro _
  exact ⟨h, fun hshare => hshare.elim⟩

theorem spares_appendEnvelope {p : KeyEnvelope C} (h : p.recipient ≠ .device d) :
    Spares w d σ (σ.appendEnvelope w p) := by
  have hlog : Spares w d σ (σ.logOwn w (.keyEnvelope p)) := spares_logOwn (quiet_keyEnvelope h)
  unfold appendEnvelope
  split
  · exact hlog.trans (spares_recordEnvelopeRecipient _ _ _)
  · exact hlog

/-- **No key of an emission is sealed to a bounded device**: the recipients are the current
devices less the bounded ones, and less this one. -/
theorem recipient_sealTo {epoch : ℕ} {key : K} {which : EnvelopeRecipients}
    (h : σ.Bounded d) : ∀ p ∈ σ.sealTo w stream epoch key which, p.recipient ≠ .device d := by
  intro p hp heq
  unfold sealTo at hp
  obtain ⟨r, hr, hct⟩ := List.mem_filterMap.mp hp
  obtain ⟨ct, -, rfl⟩ := Option.map_eq_some_iff.mp hct
  have hr' : (Recipient.device d, r.2) ∈ σ.recipientsOf w which := by
    rw [← show r.1 = .device d from heq]
    exact hr
  unfold recipientsOf at hr'
  rcases List.mem_append.mp hr' with hdev | hid
  · split at hdev
    · simp at hdev
    · obtain ⟨row, hrow, hpk⟩ := List.mem_filterMap.mp hdev
      obtain ⟨pk, -, hpair⟩ := Option.map_eq_some_iff.mp hpk
      have hd : row.1 = d := by
        injection hpair with hrec
        injection hrec
      unfold currentDevices at hrow
      have hfilter := (List.mem_filter.mp hrow).2
      simp [hd, h.isReadBounded] at hfilter
  · split at hid <;> simp at hid

theorem spares_appendEnvelopes {epoch : ℕ} {key : K}
    {which : EnvelopeRecipients} (hb : σ.Bounded d) (σ₁ : Engine K C) :
    Spares w d σ₁ ((σ.sealTo w stream epoch key which).foldl (appendEnvelope w) σ₁) :=
  spares_foldl _ (fun p hp _ => spares_appendEnvelope (recipient_sealTo hb p hp)) σ₁

theorem spares_mintEpoch (stream : StreamId) : Spares w d σ (σ.mintEpoch w fresh stream).1 :=
  spares_of_bounded (fun h => ⟨h.certed, h.bounded⟩) rfl

theorem bounded_mintEpoch (h : σ.Bounded d) :
    (σ.mintEpoch w fresh stream).1.Bounded d := ⟨h.certed, h.bounded⟩

theorem spares_ensureMeta : Spares w d σ (σ.ensureMeta w fresh) := by
  intro h
  unfold ensureMeta
  split
  · exact spares_refl σ h
  · have hmint : Spares w d σ (σ.mintEpoch w fresh metaStream).1 := spares_mintEpoch metaStream
    exact (hmint.trans (spares_appendEnvelopes (bounded_mintEpoch h) _)) h

theorem spares_emitKeyEnvelopes {epoch : ℕ} {key : K} {underLive : Bool}
    {which : EnvelopeRecipients} :
    Spares w d σ (σ.emitKeyEnvelopes w fresh stream epoch key underLive which) := by
  intro h
  unfold emitKeyEnvelopes
  dsimp only
  split
  · exact (spares_ensureMeta.trans (spares_appendEnvelopes h _)) h
  · exact spares_appendEnvelopes h _ h

theorem spares_ensureStreamEpoch (stream : StreamId) :
    Spares w d σ (σ.ensureStreamEpoch w fresh stream) := by
  unfold ensureStreamEpoch
  split
  · exact spares_refl σ
  · exact (spares_mintEpoch stream).trans spares_emitKeyEnvelopes

/-! ### The four places -/

theorem spares_backfillEpoch {d' : Device} {pk : PubKey} (hd : d' ≠ d) (held : StreamId × ℕ) :
    Spares w d σ (backfillEpoch w fresh d' pk σ held) := by
  unfold backfillEpoch
  split
  · exact spares_refl σ
  · split
    · exact spares_refl σ
    · split
      · exact spares_refl σ
      · refine spares_ensureMeta.trans (spares_appendEnvelope ?_)
        intro heq
        injection heq with heq
        exact hd heq

theorem spares_backfillKeyEnvelopes (d' : Device) (pk : PubKey) :
    Spares w d σ (σ.backfillKeyEnvelopes w fresh d' pk) := by
  unfold backfillKeyEnvelopes
  split
  · exact spares_refl σ
  · split
    · exact spares_refl σ
    · next hbound =>
      split
      · exact spares_refl σ
      · intro h
        have hd : d' ≠ d := by
          intro heq
          exact hbound (heq ▸ h.isReadBounded)
        exact spares_foldl _ (fun held _ _ => spares_backfillEpoch hd held) σ h

theorem spares_applyCertPublish (sender : Device) (blob : Bytes) :
    Spares w d σ (σ.applyCertPublish w fresh sender blob) := by
  unfold applyCertPublish
  split
  · exact spares_refl σ
  · have hbind : Spares w d σ
        { σ with account := σ.account.applyCertPublish w.device sender blob } := by
      refine spares_of_bounded ?_ rfl
      intro h
      exact ⟨Account.isSome_applyCertPublish h.certed, h.bounded⟩
    exact hbind.trans (spares_backfillKeyEnvelopes _ _)

theorem spares_absorbKeyEnvelope (sender : Device) (p : KeyEnvelope C) :
    Spares w d σ (σ.absorbKeyEnvelope w sender p) := by
  unfold absorbKeyEnvelope
  split
  · exact spares_refl σ
  · split
    · exact spares_refl σ
    · refine Spares.trans ?_ (spares_recordEnvelopeRecipient _ _ _)
      exact spares_of_bounded (fun h => ⟨h.certed, h.bounded⟩) rfl

theorem spares_applyKeyEnvelope (sender : Device) (p : KeyEnvelope C) :
    Spares w d σ (σ.applyKeyEnvelope w sender p) := by
  unfold applyKeyEnvelope
  split
  · exact spares_refl σ
  · split
    · exact spares_absorbKeyEnvelope sender p
    · split
      · exact spares_absorbKeyEnvelope sender p
      · split
        · exact spares_refl σ
        · exact spares_recordEnvelopeRecipient _ _ _

theorem spares_applyControlOp (dl : ControlDelivery C) :
    Spares w d σ (σ.applyControlOp w fresh dl) := by
  unfold applyControlOp
  split
  · exact spares_applyKeyEnvelope _ _
  · refine spares_of_bounded ?_ rfl
    intro h
    exact ⟨h.certed, Revocations.isSome_applyDeviceRevoke h.bounded h.certed⟩
  · exact spares_applyCertPublish _ _
  · refine spares_of_bounded ?_ rfl
    intro h
    exact ⟨Account.isSome_applyTransition h.certed, h.bounded⟩

theorem spares_record {own : Bool} {dl : ControlDelivery C}
    (hq : Quiet w d ⟨own, dl.ref.device, dl.body⟩) : Spares w d σ (σ.record own dl) := by
  intro h
  exact ⟨⟨h.certed, h.bounded⟩, [⟨own, dl.ref.device, dl.body⟩], rfl, by simpa using hq⟩

theorem spares_deliver (dl : ControlDelivery C) : Spares w d σ (σ.deliver w fresh dl) := by
  unfold deliver
  split
  · exact spares_refl σ
  · split
    · exact spares_refl σ
    · refine Spares.trans (spares_record ?_) (spares_applyControlOp dl)
      intro hown
      cases hown

/-! ### Commands -/

theorem eq_self_of_mem_survivors {exclude : Option Device} {s : Survivor} (h : σ.Bounded d)
    (hs : s ∈ σ.survivors w exclude) (hd : s.deviceId = d) : d = w.device.self := by
  unfold survivors at hs
  dsimp only at hs
  rw [List.mem_insertionSort, List.mem_append, List.mem_singleton] at hs
  rcases hs with hs | rfl
  · obtain ⟨row, hrow, hsome⟩ := List.mem_filterMap.mp hs
    have hrow' : row.1 = d := by
      split at hsome
      · cases hsome
      · split at hsome
        · cases hsome
          exact hd
        · cases hsome
    unfold currentDevices at hrow
    have hfilter := (List.mem_filter.mp hrow).2
    simp [hrow', h.isReadBounded] at hfilter
  · exact hd.symm

theorem mem_survivors_of_share {exclude : Option Device} {keepRecoveryCode : Bool}
    {successor : Successor} {p : IdentityTransitionPayload}
    (hp : σ.transitionTo w exclude keepRecoveryCode successor = some p)
    (hd : d ∈ p.deviceShares.map (·.1)) : ∃ s ∈ σ.survivors w exclude, s.deviceId = d := by
  unfold transitionTo at hp
  dsimp only at hp
  obtain ⟨roster, -, hp⟩ := Option.bind_eq_some_iff.mp hp
  obtain ⟨shares, hshares, hp⟩ := Option.bind_eq_some_iff.mp hp
  cases (show some _ = some p from hp)
  obtain ⟨share, hshare, rfl⟩ := List.mem_map.mp hd
  obtain ⟨s, hs, hmap⟩ := Result.exists_of_mem_right (Text.mapM_eq_some_iff.mp hshares) hshare
  obtain ⟨b, -, rfl⟩ := Option.map_eq_some_iff.mp hmap
  exact ⟨s, hs, rfl⟩

theorem spares_rotateIdentity {exclude : Option Device} {keepRecoveryCode : Bool}
    {input : CommandInput K} :
    Spares w d σ (σ.rotateIdentity w exclude keepRecoveryCode input) := by
  intro h
  unfold rotateIdentity
  split
  · exact spares_refl σ h
  · split
    · exact spares_refl σ h
    · split
      · exact spares_refl σ h
      · next p hp =>
        refine (spares_ensureMeta.trans ((spares_record ?_).trans (spares_applyControlOp _))) h
        intro _
        refine ⟨fun hkey => hkey.elim, fun hshare => ?_⟩
        obtain ⟨s, hs, rfl⟩ := mem_survivors_of_share hp hshare
        exact eq_self_of_mem_survivors h hs rfl

theorem spares_rotateStream (stream : StreamId) :
    Spares w d σ (σ.rotateStream w fresh stream) :=
  (spares_mintEpoch stream).trans spares_emitKeyEnvelopes

theorem spares_rotateStreams (streams : List StreamId) :
    Spares w d σ (streams.foldl (rotateStream w fresh) σ) :=
  spares_foldl _ (fun stream _ _ => spares_rotateStream stream) σ

theorem spares_rotateStreamKey (stream : StreamId) :
    Spares w d σ (σ.rotateStreamKey w fresh stream) := by
  unfold rotateStreamKey
  split
  · exact spares_refl σ
  · exact spares_ensureMeta.trans (spares_rotateStream stream)

theorem quiet_deviceRevoke {own : Bool} {sender revoked : Device} {reason : RevokeReason} :
    Quiet w d ⟨own, sender, .deviceRevoke revoked reason⟩ := by
  intro _
  exact ⟨fun hkey => hkey.elim, fun hshare => hshare.elim⟩

theorem spares_revokeDevice {revoked : Device} {reason : RevokeReason} {named : List StreamId}
    {input rotation : CommandInput K} :
    Spares w d σ (σ.revokeDevice w revoked reason named input rotation) := by
  unfold revokeDevice
  split
  · exact spares_refl σ
  · split
    · exact spares_refl σ
    · dsimp only
      split
      · exact ((spares_applyControlOp _).trans spares_ensureMeta).trans
          (spares_record quiet_deviceRevoke)
      · refine Spares.trans ?_ spares_rotateIdentity
        refine Spares.trans ?_ (spares_rotateStreams _)
        exact ((spares_applyControlOp _).trans spares_ensureMeta).trans
          (spares_record quiet_deviceRevoke)

theorem spares_rotateIdentityRetiringCode {named : List StreamId} {input : CommandInput K} :
    Spares w d σ (σ.rotateIdentityRetiringCode w named input) := by
  unfold rotateIdentityRetiringCode
  split
  · exact spares_refl σ
  · split
    · exact spares_refl σ
    · dsimp only
      split
      · exact ((spares_ensureMeta.trans (spares_mintEpoch metaStream)).trans
          spares_emitKeyEnvelopes).trans spares_rotateIdentity
      · exact ((((spares_ensureMeta.trans (spares_mintEpoch metaStream)).trans
          spares_emitKeyEnvelopes).trans spares_rotateIdentity).trans
          spares_emitKeyEnvelopes).trans (spares_rotateStreams _)

/-! ### The ratchet -/

/-- **Every step spares a bounded device.** -/
theorem spares_apply (s : Step K C) : Spares w d σ (σ.apply w s) := by
  cases s with
  | deliver fresh dl => exact spares_deliver dl
  | absorb stream epoch key source =>
    exact spares_of_bounded (fun h => ⟨h.certed, h.bounded⟩) rfl
  | ensure fresh stream => exact spares_ensureStreamEpoch stream
  | rotateStreamKey fresh stream => exact spares_rotateStreamKey stream
  | revokeDevice revoked reason named input rotation => exact spares_revokeDevice
  | rotateIdentity input => exact spares_rotateIdentity
  | rotateIdentityRetiringCode named input => exact spares_rotateIdentityRetiringCode

theorem spares_run (steps : List (Step K C)) : Spares w d σ (σ.run w steps) :=
  spares_foldl steps (fun s _ _ => spares_apply s) σ

theorem run_append (steps steps' : List (Step K C)) :
    σ.run w (steps ++ steps') = (σ.run w steps).run w steps' :=
  List.foldl_append

/-- **A bound is never given back, and no key is addressed past it.** From any state, once
a device with a row is bounded it is bounded from then on; of the ops this replica logs from
then on none seals it a key, and none holds a share of a successor for it unless it is this
replica's own device. -/
theorem bounded_device_gets_no_keys {K C : Type} (w : Node K C) (σ : Engine K C)
    (steps steps' : List (Step K C)) (d : Device)
    (hrow : ((σ.run w steps).account.devices.find d).isSome)
    (hbound : (σ.run w steps).isReadBounded d = true) :
    (σ.run w (steps ++ steps')).isReadBounded d = true ∧
    ∃ added, (σ.run w (steps ++ steps')).log = (σ.run w steps).log ++ added ∧
      ∀ x ∈ added, x.own = true →
        ¬ x.body.SealsKeyTo d ∧ (d ≠ w.device.self → ¬ x.body.SharesWith d) := by
  have h : Spares w d (σ.run w steps) ((σ.run w steps).run w steps') := spares_run steps'
  replace h := h ⟨hrow, hbound⟩
  rw [← run_append] at h
  obtain ⟨hafter, added, hlog, hquiet⟩ := h
  refine ⟨hafter.isReadBounded, added, hlog, ?_⟩
  intro x hx hown
  obtain ⟨hkey, hshare⟩ := hquiet x hx hown
  exact ⟨hkey, fun hd hx => hd (hshare hx)⟩

namespace Sample

/-- Device 1, which holds the account's signing key. A key is sealed as itself. -/
def node : Node ℕ ℕ where
  device := Account.localDevice 1
  crypto := ⟨id, fun _ _ _ key => some key, fun _ _ _ ct => some ct, by simp⟩
  identityDPub id := id
  opensIdentity _ := true
  canRotateIdentity _ := true
  mintedBy _ := some 1

/-- A successor whose secret every survivor is sent. -/
def successor : Successor where
  identityId := 2
  idSPub := 2
  idDPub := 2
  issueRosterCert s := some [s.deviceId, s.dDPub, 2]
  sealDeviceShare _ := some (List.replicate deviceShareLen 0)
  sealCarryShare := some (List.replicate identityShareLen 0)
  sign _ _ _ := ⟨1, 2⟩

/-- Two devices under the first identity, and the vault-meta stream's first key. -/
def start : Engine ℕ ℕ where
  account := .initial (Account.localDevice 1) <|
    ((∅ : Devices).upsert 1 ⟨[1, 1, 1], "", "", 0, some 1, some 1⟩).upsert 2
      ⟨[2, 2, 1], "", "", 0, some 1, some 2⟩
  revocations := ⟨∅, ∅, ∅⟩
  keychain := ((⟨[], ∅⟩ : Keychain ℕ).absorbStreamKey id metaStream 1 10 .minted).1
  recipients := []
  log := []

def revoke (sender revoked : Device) : Step ℕ ℕ :=
  .deliver (fun _ _ => 0) ⟨⟨0, sender, 1⟩, ⟨5, 0⟩, 1, .deviceRevoke revoked .lost, 5⟩

/-- The account's identity is replaced. -/
def rotate : Step ℕ ℕ :=
  .rotateIdentity ⟨⟨0, 1, 1⟩, ⟨9, 0⟩, 9, fun _ epoch => epoch + 10, successor⟩

end Sample

open Sample in
/-- The second device is revoked by the first, and left out of the rotation after. -/
theorem bounded_device_gets_no_keys_second :
    (start.run node [revoke 1 2, rotate]).isReadBounded 2 = true ∧
    ∃ added, (start.run node [revoke 1 2, rotate]).log =
        (start.run node [revoke 1 2]).log ++ added ∧
      ∀ x ∈ added, x.own = true →
        ¬ x.body.SealsKeyTo 2 ∧ (2 ≠ node.device.self → ¬ x.body.SharesWith 2) :=
  bounded_device_gets_no_keys node start [revoke 1 2] [rotate] 2 (by decide) (by decide)

open Sample in
/-- The first device is revoked by the second, and rotates the identity all the same: the
transition it logs holds a share for itself. -/
theorem not_no_share_for_bounded :
    ¬ ∀ (w : Node ℕ ℕ) (σ : Engine ℕ ℕ) (steps steps' : List (Step ℕ ℕ)) (d : Device),
      ((σ.run w steps).account.devices.find d).isSome →
      (σ.run w steps).isReadBounded d = true →
      ∀ x ∈ (σ.run w (steps ++ steps')).log.drop (σ.run w steps).log.length, x.own = true →
        ¬ x.body.SealsKeyTo d ∧ ¬ x.body.SharesWith d := by
  intro h
  have hall := h node start [revoke 2 1] [rotate] 1 (by decide) (by decide)
  revert hall
  decide

end Engine

end Sunrise
