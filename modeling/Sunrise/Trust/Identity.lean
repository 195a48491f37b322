import Mathlib.Data.List.Sort
import Sunrise.Log.OpLog

/-!
# The account identity

The account's identity is the last link of a chain that starts at its genesis. A link
hands over to a successor by an `identity_transition` op, which both identities sign; the
chain is walked afresh at every use, from the rows of `identity_transitions`, greatest
successor first, and a row whose signatures do not verify is no link. A device is current
when its row of `devices` names the head.

The op carries one certificate of each surviving device. Its outgoing signature can be
checked only where the chain has reached the identity it leaves, so a row whose
predecessor is not known is stored unchecked, at most `maxSiblings` of them; the greatest
stay. Once the chain reaches a predecessor its unsigned rows are deleted.

Signatures and hashes are parameters, and so is whether this device can open a share of
a successor's secrets.

* `Account`, `Account.applyTransition`, `Account.applyCertPublish`, `Account.deliver` —
  a replica, and one delivery.
-/

namespace Sunrise

/-- An Ed25519 or X25519 public key, read as a number. -/
abbrev PubKey := ℕ

/-- A signature, read as a number. -/
abbrev Sig := ℕ

/-- An identity id: sixteen bytes, read as a number. -/
abbrev IdentityId := ℕ

abbrev Link := IdentityId × PubKey

/-! ### Certificates and transitions -/

structure DeviceCert where
  deviceId : Device
  dSPub : PubKey
  dDPub : PubKey
  identityId : IdentityId
  createdAtMs : ℕ
  nickname : String
  platform : String
  sig : Sig
deriving DecidableEq, Repr

/-- What both identities sign. -/
structure IdentityTransitionBody where
  fromIdentityId : IdentityId
  toIdentityId : IdentityId
  toIdSPub : PubKey
  toIdDPub : PubKey
  rosterDigest : Hash
  sharesDigest : Hash
deriving DecidableEq, Repr

/-- The two signatures. -/
structure IdentityTransitionSigs where
  prevSig : Sig
  nextSig : Sig
deriving DecidableEq, Repr

structure IdentityTransitionPayload where
  fromIdentityId : IdentityId
  toIdentityId : IdentityId
  toIdSPub : PubKey
  toIdDPub : PubKey
  /-- One re-issued certificate of each surviving device. -/
  roster : List Bytes
  /-- The successor's secrets, sealed to each of them. -/
  deviceShares : List (Device × Bytes)
  identityShare : Option Bytes
  sigs : IdentityTransitionSigs
deriving DecidableEq, Repr

/-- The primitives. -/
structure IdentityCrypto where
  identityIdFromPub : PubKey → IdentityId
  /-- Whether a key made the outgoing signature of a body. -/
  verifyPrev : PubKey → IdentityTransitionBody → Sig → Bool
  /-- Whether a key made the successor signature of a body and the outgoing one. -/
  verifyNext : PubKey → IdentityTransitionBody → Sig → Sig → Bool
  certFromCbor : Bytes → Option DeviceCert
  verifyCert : PubKey → DeviceCert → Bool
  hashRoster : List (Device × Bytes) → Hash
  /-- The hash of the shares in order of device, and of the identity's own. -/
  hashShares : List (Device × Bytes) → Option Bytes → Hash

def deviceShareLen : ℕ := 80

def identityShareLen : ℕ := 112

/-- How many devices a roster or a share list may name. -/
def maxRosterEntries : ℕ := 256

/-- Records in order of device, where no device has two. -/
def byDevice (entries : List (Device × Bytes)) : Option (List (Device × Bytes)) :=
  if (entries.map (·.1)).Nodup then some (entries.insertionSort fun a b => a.1 ≤ b.1) else none

section Crypto

variable (cr : IdentityCrypto)

def rosterDigest (certs : List Bytes) : Option Hash := do
  let entries ← certs.mapM fun blob => (cr.certFromCbor blob).map fun cert => (cert.deviceId, blob)
  let sorted ← byDevice entries
  return cr.hashRoster sorted

def sharesDigest (shares : List (Device × Bytes)) (identityShare : Option Bytes) :
    Option Hash := do
  if shares.all fun s => decide (s.2.length = deviceShareLen) then
    let sorted ← byDevice shares
    if identityShare.all fun s => decide (s.length = identityShareLen) then
      return cr.hashShares sorted identityShare
    else none
  else none

/-- The certificate is signed by the key, and names the key's own identity. -/
def DeviceCert.verifyBinding (cert : DeviceCert) (idSPub : PubKey) (expected : IdentityId) :
    Bool :=
  cr.verifyCert idSPub cert &&
    decide (cr.identityIdFromPub idSPub = cert.identityId ∧
      cr.identityIdFromPub idSPub = expected)

/-- Both ids derive from their keys, and they differ. -/
def checkIdentityBinding (body : IdentityTransitionBody) (fromPub : PubKey) : Bool :=
  decide (cr.identityIdFromPub fromPub = body.fromIdentityId ∧
    cr.identityIdFromPub body.toIdSPub = body.toIdentityId ∧
    cr.identityIdFromPub fromPub ≠ cr.identityIdFromPub body.toIdSPub)

/-- Both signatures. -/
def verifyIdentityTransition (body : IdentityTransitionBody) (fromPub : PubKey)
    (sigs : IdentityTransitionSigs) : Bool :=
  checkIdentityBinding cr body fromPub && cr.verifyPrev fromPub body sigs.prevSig &&
    cr.verifyNext body.toIdSPub body sigs.prevSig sigs.nextSig

def verifySuccessorSignature (body : IdentityTransitionBody) (sigs : IdentityTransitionSigs) :
    Bool :=
  decide (cr.identityIdFromPub body.toIdSPub = body.toIdentityId) &&
    cr.verifyNext body.toIdSPub body sigs.prevSig sigs.nextSig

/-- A roster certificate the successor issued. -/
def issuedBy (p : IdentityTransitionPayload) (blob : Bytes) : Bool :=
  (cr.certFromCbor blob).any fun cert => cert.verifyBinding cr p.toIdSPub p.toIdentityId

/-- The body of an op that passes every check that needs no predecessor. -/
def bodyOf (p : IdentityTransitionPayload) : Option IdentityTransitionBody := do
  if maxRosterEntries < p.roster.length ∨ maxRosterEntries < p.deviceShares.length then none
  else
    let rosterDigest ← rosterDigest cr p.roster
    let sharesDigest ← sharesDigest cr p.deviceShares p.identityShare
    let body : IdentityTransitionBody := ⟨p.fromIdentityId, p.toIdentityId, p.toIdSPub,
      p.toIdDPub, rosterDigest, sharesDigest⟩
    if p.roster.all (issuedBy cr p) && verifySuccessorSignature cr body p.sigs then some body
    else none

end Crypto

/-! ### The table of transitions -/

/-- Where a row sorts among its predecessor's. -/
structure SiblingRank where
  /-- The epoch of the vault-meta stream the op was sealed under. -/
  metaEpoch : ℕ
  hlcPhysicalMs : ℕ
  hlcLogical : ℕ
  emitter : Device
  toIdentityId : IdentityId
deriving DecidableEq, Repr

def SiblingRank.key (r : SiblingRank) : ℕ ×ₗ ℕ ×ₗ ℕ ×ₗ ℕ ×ₗ ℕ :=
  toLex (r.metaEpoch, toLex (r.hlcPhysicalMs, toLex (r.hlcLogical,
    toLex (r.emitter, r.toIdentityId))))

theorem SiblingRank.key_injective : Function.Injective SiblingRank.key := by
  rintro ⟨e, p, l, d, t⟩ ⟨e', p', l', d', t'⟩ h
  simpa [SiblingRank.key, and_assoc] using h

instance : LinearOrder SiblingRank := LinearOrder.lift' SiblingRank.key SiblingRank.key_injective

structure TransitionRow where
  body : IdentityTransitionBody
  sigs : IdentityTransitionSigs
  rank : SiblingRank
  payload : IdentityTransitionPayload
deriving DecidableEq, Repr

def TransitionRow.link (row : TransitionRow) : Link := (row.body.toIdentityId, row.body.toIdSPub)

abbrev Transitions := Table IdentityId TransitionRow

/-- How many rows one predecessor keeps, and how many the walk looks at. -/
def maxSiblings : ℕ := 16

namespace Transitions

/-- The rows of one predecessor, the greatest first. -/
def siblings (t : Transitions) (source : IdentityId) : List TransitionRow :=
  ((t.rows.map (·.2)).filter fun row => decide (row.body.fromIdentityId = source)).insertionSort
    fun a b => b.rank ≤ a.rank

/-- The row the walk follows from a link: the greatest that verifies and leads somewhere
new. -/
def nextRow (cr : IdentityCrypto) (t : Transitions) (seen : List IdentityId) (l : Link) :
    Option TransitionRow :=
  ((t.siblings l.1).take maxSiblings).find? fun row =>
    decide (row.body.toIdentityId ∉ seen) && verifyIdentityTransition cr row.body l.2 row.sigs

/-- Extend a chain, held head first, by at most `fuel` links. -/
def walk (cr : IdentityCrypto) (t : Transitions) : ℕ → List Link → List Link
  | fuel + 1, l :: chain =>
    match t.nextRow cr ((l :: chain).map (·.1)) l with
    | some row => walk cr t fuel (row.link :: l :: chain)
    | none => l :: chain
  | _, chain => chain

/-- Every identity of the chain, head first. Every step of the walk reaches a successor it
has not seen, so it takes no more steps than there are rows. -/
def chainIdentities (cr : IdentityCrypto) (t : Transitions) (genesis : Link) : List Link :=
  t.walk cr t.rows.length [genesis]

def currentIdentity (cr : IdentityCrypto) (t : Transitions) (genesis : Link) : Link :=
  (t.chainIdentities cr genesis).headD genesis

/-- The other rows of one predecessor, the greatest first. -/
def others (t : Transitions) (source : IdentityId) (rank : SiblingRank) : List TransitionRow :=
  (t.siblings source).filter fun row => decide (row.body.toIdentityId ≠ rank.toIdentityId)

/-- Make place for a row under its predecessor, at the cost of the weakest there; nothing
where the row is the weakest itself. -/
def admitSibling (t : Transitions) (source : IdentityId) (rank : SiblingRank) :
    Option Transitions :=
  if (t.others source rank).length < maxSiblings then some t
  else match (t.others source rank)[maxSiblings - 1]? with
    | none => none
    | some weakest =>
      if rank ≤ weakest.rank then none else some (t.erase weakest.body.toIdentityId)

/-- Delete every row of a predecessor that its key did not sign. -/
def purgeUnverifiableSiblings (cr : IdentityCrypto) (t : Transitions) (l : Link) : Transitions :=
  t.filter fun _ row => decide (row.body.fromIdentityId ≠ l.1) ||
    verifyIdentityTransition cr row.body l.2 row.sigs

/-- Give a row that was stored from a chain record its op's payload and rank. The record has
no rosters, so a row without one is taken for such a row, on the same signed body only. -/
def complete (t : Transitions) (row : TransitionRow) : Transitions :=
  match t.find row.body.toIdentityId with
  | none => t
  | some stored =>
    if row.payload.roster ≠ [] ∧ stored.payload.roster = [] ∧
        stored.body.rosterDigest = row.body.rosterDigest ∧
        stored.body.sharesDigest = row.body.sharesDigest ∧ stored.sigs = row.sigs then
      t.upsert row.body.toIdentityId { stored with rank := row.rank, payload := row.payload }
    else t

/-- Insert an admitted row, and delete what the links it reaches did not sign. -/
def establish (cr : IdentityCrypto) (genesis : Link) (chain : List Link) (t : Transitions)
    (row : TransitionRow) : Transitions :=
  let t : Transitions := t.insertOrIgnore row.body.toIdentityId row
  let t : Transitions := t.complete row
  let reached := (t.chainIdentities cr genesis).reverse.filter fun l =>
    decide (l.1 ∉ chain.map (·.1))
  reached.foldl (purgeUnverifiableSiblings cr) t

/-- Record a row whose op passed the other checks: check it against its predecessor where
the chain has reached that, keep it by rank, and delete what the links it reaches did not
sign. Whether the row was admitted comes with the table. -/
def record (cr : IdentityCrypto) (genesis : Link) (t : Transitions) (row : TransitionRow) :
    Transitions × Bool :=
  let chain := t.chainIdentities cr genesis
  let place (t : Transitions) : Transitions × Bool :=
    match t.admitSibling row.body.fromIdentityId row.rank with
    | none => (t, false)
    | some t => (t.establish cr genesis chain row, true)
  match chain.find? fun l => decide (l.1 = row.body.fromIdentityId) with
  | some l =>
    if verifyIdentityTransition cr row.body l.2 row.sigs then
      -- sweep before counting
      place (t.purgeUnverifiableSiblings cr l)
    else (t, false)
  | none => place t

end Transitions

/-- An op of one of the two families, with what its envelope carries. -/
structure TransitionOp where
  sender : Device
  hlc : Hlc
  metaEpoch : ℕ
  payload : IdentityTransitionPayload
deriving DecidableEq, Repr

/-- Where the op sorts among its siblings. -/
def TransitionOp.rank (op : TransitionOp) : SiblingRank :=
  ⟨op.metaEpoch, i64Of op.hlc.physicalMs, op.hlc.logical, op.sender, op.payload.toIdentityId⟩

/-- The row an op is stored as, where it passes the checks. -/
def TransitionOp.row (cr : IdentityCrypto) (op : TransitionOp) : Option TransitionRow :=
  (bodyOf cr op.payload).map fun body => ⟨body, op.payload.sigs, op.rank, op.payload⟩

namespace Transitions

def apply (cr : IdentityCrypto) (genesis : Link) (t : Transitions) (op : TransitionOp) :
    Transitions :=
  match op.row cr with
  | none => t
  | some row => (t.record cr genesis row).1

def applyAll (cr : IdentityCrypto) (genesis : Link) (ops : List TransitionOp) : Transitions :=
  ops.foldl (apply cr genesis) ∅

end Transitions

end Sunrise
