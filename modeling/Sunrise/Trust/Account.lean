import Sunrise.Trust.Succession

/-!
# The devices of an account

A device's row of `devices` names the identity that certified it. A device publishes its
own certificate, which a replica accepts under any identity of its chain; and a transition
that reaches the head moves the devices of its roster onto it. A device is current when
its row names the head.

A replica that can open a share of a successor's secrets signs under the successor from
then on, with its certificate of the roster, or, where the roster leaves it out, with one
it issues itself and publishes.
-/

namespace Sunrise

/-! ### The table of devices -/

structure DeviceRow where
  certBlob : Bytes
  nickname : String
  platform : String
  createdAtMs : ℕ
  /-- The identity that certified it, where it is known. -/
  identityId : Option IdentityId
  dDPub : Option PubKey
deriving DecidableEq, Repr

abbrev Devices := Table Device DeviceRow

/-- The certificate carries another key than the one held for its device. -/
def rebindsKey (devices : Devices) (cert : DeviceCert) : Bool :=
  match devices.find cert.deviceId with
  | some row => row.dDPub.any fun stored => decide (stored ≠ cert.dDPub)
  | none => false

/-- Write a certificate's row under the identity that issued it. -/
def bindDevice (devices : Devices) (cert : DeviceCert) (blob : Bytes) (issuer : IdentityId) :
    Devices :=
  match devices.find cert.deviceId with
  | some row => devices.upsert cert.deviceId { row with
      certBlob := blob
      nickname := cert.nickname
      platform := cert.platform
      identityId := some issuer
      dDPub := row.dDPub.or (some cert.dDPub) }
  | none => devices.upsert cert.deviceId
      ⟨blob, cert.nickname, cert.platform, i64Of cert.createdAtMs, some issuer,
        some cert.dDPub⟩

/-- Move every device of a roster onto the successor. An entry that rebinds a key is
passed over. -/
def applyRoster (cr : IdentityCrypto) (devices : Devices) (roster : List Bytes)
    (target : IdentityId) : Devices :=
  roster.foldl (fun devices blob =>
    match cr.certFromCbor blob with
    | none => devices
    | some cert =>
      if rebindsKey devices cert then devices else bindDevice devices cert blob target) devices

/-! ### A replica -/

/-- What is fixed of a replica. -/
structure LocalDevice where
  crypto : IdentityCrypto
  genesis : Link
  self : Device
  selfSPub : PubKey
  selfDPub : PubKey
  /-- Whether it can open a share of a transition while it signs under an identity. -/
  opens : IdentityId → IdentityTransitionPayload → Bool
  /-- The certificate it issues itself under a successor, where it holds the successor's
  signing key and is neither revoked nor read-bounded here. -/
  issues : IdentityTransitionPayload → Option Bytes

/-- A replica's tables. -/
structure Account where
  /-- `identity_transitions`. -/
  transitions : Transitions
  /-- `devices`. -/
  devices : Devices
  identity : IdentityId
  /-- The certificates it issued itself and published, the newest first. -/
  published : List Bytes
  applied : List OpRef

/-- An op of one of the two families. -/
inductive ControlInner where
  | deviceCertPublish (cert : Bytes)
  | identityTransition (payload : IdentityTransitionPayload)
deriving DecidableEq, Repr

structure ControlOp where
  /-- Its position; the device is the one the envelope verified under. -/
  ref : OpRef
  hlc : Hlc
  metaEpoch : ℕ
  inner : ControlInner
deriving DecidableEq, Repr

def ControlOp.transition (op : ControlOp) : Option TransitionOp :=
  match op.inner with
  | .deviceCertPublish _ => none
  | .identityTransition p => some ⟨op.ref.device, op.hlc, op.metaEpoch, p⟩

namespace Account

variable (r : LocalDevice)

def chain (st : Account) : List Link := st.transitions.chainIdentities r.crypto r.genesis

def head (st : Account) : Link := st.transitions.currentIdentity r.crypto r.genesis

def Current (st : Account) (d : Device) : Prop :=
  ∃ row, st.devices.find d = some row ∧ row.identityId = some (st.head r).1

/-! ### The identity a replica signs with -/

/-- The certificate under a successor names this device and its keys. -/
def namesSelf (p : IdentityTransitionPayload) (blob : Bytes) : Bool :=
  (r.crypto.certFromCbor blob).any fun cert =>
    cert.verifyBinding r.crypto p.toIdSPub p.toIdentityId &&
      decide (cert.deviceId = r.self ∧ cert.dSPub = r.selfSPub ∧ cert.dDPub = r.selfDPub)

def rosterCert (p : IdentityTransitionPayload) : Option Bytes :=
  p.roster.find? fun blob => (r.crypto.certFromCbor blob).any fun cert => cert.deviceId = r.self

/-- Sign under a successor from now on. -/
def adopt (st : Account) (p : IdentityTransitionPayload) (blob : Bytes) : Account :=
  { st with
    identity := p.toIdentityId
    devices := st.devices.mapValues fun d row =>
      if d = r.self then { row with certBlob := blob, identityId := some p.toIdentityId } else row }

/-- Adopt the successor a row leads to, and whether that went. -/
def adoptLink (st : Account) (target : IdentityId) : Account × Bool :=
  match st.transitions.find target with
  | none => (st, false)
  | some row =>
    let p := row.payload
    if !r.opens st.identity p then (st, false)
    else match rosterCert r p with
      | some blob => if namesSelf r p blob then (st.adopt r p blob, true) else (st, false)
      | none => match r.issues p with
        | none => (st, false)
        | some blob =>
          if namesSelf r p blob then
            ({ st.adopt r p blob with published := blob :: st.published }, true)
          else (st, false)

def adoptLinks (st : Account) : List Link → Account
  | [] => st
  | l :: links =>
    match st.adoptLink r l.1 with
    | (st, true) => adoptLinks st links
    | (st, false) => st

/-- Bring the identity this device signs with into step with the head: along the chain
from where it is, and where that stops short, straight at the head. -/
def recomputeIdentityHead (st : Account) : Account :=
  let head := st.head r
  if head.1 = st.identity then st
  else
    let after := ((st.chain r).reverse.dropWhile fun l => decide (l.1 ≠ st.identity)).tail
    let st := st.adoptLinks r after
    if st.identity ≠ head.1 then (st.adoptLink r head.1).1 else st

/-! ### Deliveries -/

/-- Apply one `identity_transition`. The roster is applied only where the transition is
the head. -/
def applyTransition (st : Account) (op : TransitionOp) : Account :=
  match op.row r.crypto with
  | none => st
  | some row =>
    match st.transitions.record r.crypto r.genesis row with
    | (transitions, false) => { st with transitions }
    | (transitions, true) =>
      let st := recomputeIdentityHead r { st with transitions }
      if (st.head r).1 = op.payload.toIdentityId then
        { st with devices :=
            applyRoster r.crypto st.devices op.payload.roster op.payload.toIdentityId }
      else st

def issuer (st : Account) (cert : DeviceCert) : Option Link :=
  (st.chain r).reverse.find? fun l => cert.verifyBinding r.crypto l.2 l.1

def applyCertPublish (st : Account) (sender : Device) (blob : Bytes) : Account :=
  match r.crypto.certFromCbor blob with
  | none => st
  | some cert =>
    if cert.deviceId ≠ sender then st
    else match st.issuer r cert with
      | none => st
      | some issuer =>
        if rebindsKey st.devices cert then st
        else { st with devices := bindDevice st.devices cert blob issuer.1 }

/-- Whether an op's sender is a device this replica has admitted, or publishes a
certificate of its own that admits it. -/
def admits (st : Account) (op : ControlOp) : Bool :=
  (st.devices.find op.ref.device).isSome ||
    match op.inner with
    | .deviceCertPublish blob => (r.crypto.certFromCbor blob).any fun cert =>
        decide (cert.deviceId = op.ref.device) && (st.issuer r cert).isSome
    | .identityTransition _ => false

/-- Take a delivery. One of a device that is not admitted leaves no trace, so it can be
offered again; one that is in the log already changes nothing. -/
def deliver (st : Account) (op : ControlOp) : Account :=
  if !st.admits r op then st
  else if op.ref ∈ st.applied then st
  else
    let st := { st with applied := op.ref :: st.applied }
    match op.inner with
    | .deviceCertPublish blob => st.applyCertPublish r op.ref.device blob
    | .identityTransition p => st.applyTransition r ⟨op.ref.device, op.hlc, op.metaEpoch, p⟩

/-- A replica that starts under the genesis with certificates of some devices. -/
def initial (devices : Devices) : Account := ⟨∅, devices, r.genesis.1, [], []⟩

/-- Take deliveries as they come. -/
def deliverAll (devices : Devices) (ops : List ControlOp) : Account :=
  ops.foldl (deliver r) (initial r devices)

end Account

end Sunrise
