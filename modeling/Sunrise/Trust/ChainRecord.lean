import Mathlib.Algebra.Order.BigOperators.Group.List
import Sunrise.Cbor.Canonical
import Sunrise.Cbor.OpEnvelope
import Sunrise.Trust.Identity

/-!
# The record of the chain

The relay keeps an account's identity chain beside its recovery blob, as one record: the key the
account started with, and every transition from there to the identity in force. A link carries
what both identities signed, the two signatures, where the op sorts and the carry share, but no
roster. Its predecessor is the link before it, so a record cannot name another.

## Main definitions

* `IdentityChain.encode`, `IdentityChain.decode` — its bytes.
* `IdentityChain.carryWalk` — whether a recovery code is carried forward to its end.

## Main results

* `IdentityChain.decode_encode` — **a record decodes from its bytes.**
-/

open Cbor (Item headSize)

namespace Sunrise

open Cbor

/-- One rotation, as the record has it. -/
structure ChainLink where
  body : IdentityTransitionBody
  sigs : IdentityTransitionSigs
  metaEpoch : ℕ
  hlcPhysicalMs : ℕ
  hlcLogical : ℕ
  emitterDeviceId : Device
  carryShare : Option Bytes
deriving DecidableEq, Repr

/-- An account's identity chain, genesis first. -/
structure IdentityChain where
  genesisIdSPub : PubKey
  links : List ChainLink
deriving DecidableEq, Repr

/-- What is wrong with a record. -/
inductive IdentityChainError where
  | malformed (what : String)
  | otherAccount
  | badLink (i : ℕ)
deriving DecidableEq, Repr

def IdentityChainError.message : IdentityChainError → String
  | .malformed what => "not an identity chain: " ++ what
  | .otherAccount => "the identity chain starts at another account's identity"
  | .badLink i => "link " ++ toString i ++ " of the identity chain does not verify"

def maxChainLinks : ℕ := 4096

/-- The largest record that is decoded. -/
def maxChainBytes : ℕ := 2 * 1024 * 1024

/-- The magic prefix: `SR`, the kind of a chain, its version. -/
def chainPrefix : Bytes := [0x53, 0x52, 9, 0, 1]

/-! ### Writing -/

def fixedItem (k n : ℕ) : Item := bytesItem (bigEndian k n)

def carryItem : Option Bytes → Item
  | none => .scalar .null
  | some share => bytesItem share

def ChainLink.item (link : ChainLink) : Item :=
  .array [fixedItem 16 link.body.toIdentityId, fixedItem 32 link.body.toIdSPub,
    fixedItem 32 link.body.toIdDPub, fixedItem 32 link.body.rosterDigest,
    fixedItem 32 link.body.sharesDigest, fixedItem 64 link.sigs.prevSig,
    fixedItem 64 link.sigs.nextSig, intItem link.metaEpoch, intItem link.hlcPhysicalMs,
    intItem link.hlcLogical, fixedItem 16 link.emitterDeviceId, carryItem link.carryShare]

namespace IdentityChain

def map (c : IdentityChain) : Item :=
  .map [(intItem 1, fixedItem 32 c.genesisIdSPub),
    (intItem 2, .array (c.links.map ChainLink.item))]

def encode (cbor : Cbor.Codec) (c : IdentityChain) : Except IdentityChainError Bytes :=
  if maxChainLinks < c.links.length then .error (.malformed "too many links")
  else .ok (chainPrefix ++ encodeCanonical cbor c.map)

def genesisIdentityId (cr : IdentityCrypto) (c : IdentityChain) : IdentityId :=
  cr.identityIdFromPub c.genesisIdSPub

def head (cr : IdentityCrypto) (c : IdentityChain) : Link :=
  match c.links.getLast? with
  | none => (c.genesisIdentityId cr, c.genesisIdSPub)
  | some link => (link.body.toIdentityId, link.body.toIdSPub)

end IdentityChain

/-! ### Reading -/

/-- Read a number of `k` bytes. -/
def fixedFrom (k : ℕ) : Item → Option ℕ
  | .scalar (.bytes b) => if b.length = k then some (ofBigEndian b) else none
  | _ => none

def uintFrom (bits : ℕ) : Item → Option ℕ
  | .scalar (.integer n) => if 0 ≤ n ∧ n < 2 ^ bits then some n.toNat else none
  | _ => none

/-- Read a carry share, or null. -/
def carryFrom : Item → Option (Option Bytes)
  | .scalar .null => some none
  | .scalar (.bytes b) => if b.length = identityShareLen then some (some b) else none
  | _ => none

/-- Read a link. Its predecessor is filled in later. -/
def decodeLink : Item → Option ChainLink
  | .array [toId, toS, toD, roster, shares, prev, next, epoch, ms, logical, emitter, carry] => do
    let carryShare ← carryFrom carry
    let toIdentityId ← fixedFrom 16 toId
    let toIdSPub ← fixedFrom 32 toS
    let toIdDPub ← fixedFrom 32 toD
    let rosterDigest ← fixedFrom 32 roster
    let sharesDigest ← fixedFrom 32 shares
    let prevSig ← fixedFrom 64 prev
    let nextSig ← fixedFrom 64 next
    let metaEpoch ← uintFrom 32 epoch
    let hlcPhysicalMs ← uintFrom 64 ms
    let hlcLogical ← uintFrom 32 logical
    let emitterDeviceId ← fixedFrom 16 emitter
    return ⟨⟨0, toIdentityId, toIdSPub, toIdDPub, rosterDigest, sharesDigest⟩,
      ⟨prevSig, nextSig⟩, metaEpoch, hlcPhysicalMs, hlcLogical, emitterDeviceId, carryShare⟩
  | _ => none

def decodeLinks : Item → Except IdentityChainError (List ChainLink)
  | .array items =>
    if maxChainLinks < items.length then .error (.malformed "too many links")
    else match items.mapM decodeLink with
      | some links => .ok links
      | none => .error (.malformed "link")
  | _ => .error (.malformed "links")

/-- What has been read of a record. -/
structure ChainFields where
  genesis : Option PubKey
  links : Option (List ChainLink)

def ChainFields.takeField (f : ChainFields) (e : Item × Item) :
    Except IdentityChainError ChainFields :=
  match e.1, f.genesis, f.links with
  | .scalar (.integer 1), none, _ =>
    match fixedFrom 32 e.2 with
    | some genesis => .ok { f with genesis := some genesis }
    | none => .error (.malformed "genesis_id_s_pub")
  | .scalar (.integer 2), _, none =>
    (decodeLinks e.2).map fun links => { f with links := some links }
  | _, _, _ => .error (.malformed "unknown or duplicate field")

/-- Put every link after the one before it. -/
def fillFrom : IdentityId → List ChainLink → List ChainLink
  | _, [] => []
  | source, link :: links =>
    { link with body := { link.body with fromIdentityId := source } } ::
      fillFrom link.body.toIdentityId links

def verifyLinks (cr : IdentityCrypto) : ℕ → PubKey → List ChainLink →
    Except IdentityChainError Unit
  | _, _, [] => .ok ()
  | i, fromPub, link :: links =>
    if verifyIdentityTransition cr link.body fromPub link.sigs then
      verifyLinks cr (i + 1) link.body.toIdSPub links
    else .error (.badLink i)

namespace IdentityChain

/-- Decode a record. Nothing is verified yet. -/
def decode (cbor : Cbor.Codec) (cr : IdentityCrypto) (raw : Bytes) :
    Except IdentityChainError IdentityChain :=
  if maxChainBytes < raw.length then .error (.malformed "too large")
  else if raw.take 5 ≠ chainPrefix then .error (.malformed "magic prefix")
  else
    match decodeCanonical cbor (raw.drop 5) with
    | .error _ => .error (.malformed "not canonical CBOR")
    | .ok (.map entries) => do
      let f ← entries.foldlM ChainFields.takeField ⟨none, none⟩
      match f.genesis, f.links with
      | some genesis, some links =>
        .ok ⟨genesis, fillFrom (cr.identityIdFromPub genesis) links⟩
      | none, _ => .error (.malformed "missing genesis_id_s_pub")
      | some _, none => .error (.malformed "missing links")
    | .ok _ => .error (.malformed "not a map")

/-- Check that a record starts at an identity, and that every link verifies. -/
def verify (cr : IdentityCrypto) (c : IdentityChain) (genesis : IdentityId) :
    Except IdentityChainError Unit :=
  if c.genesisIdentityId cr ≠ genesis then .error .otherAccount
  else verifyLinks cr 0 c.genesisIdSPub c.links

def Linked (cr : IdentityCrypto) : PubKey → List ChainLink → Prop
  | _, [] => True
  | fromPub, link :: links => verifyIdentityTransition cr link.body fromPub link.sigs ∧
      Linked cr link.body.toIdSPub links

theorem verifyLinks_eq_ok {cr : IdentityCrypto} {links : List ChainLink} {i : ℕ}
    {fromPub : PubKey} : verifyLinks cr i fromPub links = .ok () ↔ Linked cr fromPub links := by
  induction links generalizing i fromPub with
  | nil => exact ⟨fun _ => trivial, fun _ => rfl⟩
  | cons link links ih =>
    rw [verifyLinks, Linked, ← @ih (i + 1)]
    split
    next h => simp [h]
    next h => simp [h]

/-- **A record verifies when it starts at the identity and every link verifies.** -/
theorem verify_eq_ok {cr : IdentityCrypto} {c : IdentityChain} {genesis : IdentityId} :
    c.verify cr genesis = .ok () ↔
      c.genesisIdentityId cr = genesis ∧ Linked cr c.genesisIdSPub c.links := by
  unfold verify
  split
  next h => simp [h]
  next h => rw [verifyLinks_eq_ok, not_not.mp h, and_iff_right rfl]

end IdentityChain

/-! ### What is written is read back -/

/-- A link whose fields have the widths the record writes them in. -/
structure ChainLink.Fits (link : ChainLink) : Prop where
  toIdentityId : link.body.toIdentityId < 256 ^ 16
  toIdSPub : link.body.toIdSPub < 256 ^ 32
  toIdDPub : link.body.toIdDPub < 256 ^ 32
  rosterDigest : link.body.rosterDigest < 256 ^ 32
  sharesDigest : link.body.sharesDigest < 256 ^ 32
  prevSig : link.sigs.prevSig < 256 ^ 64
  nextSig : link.sigs.nextSig < 256 ^ 64
  metaEpoch : link.metaEpoch < 2 ^ 32
  hlcPhysicalMs : link.hlcPhysicalMs < 2 ^ 64
  hlcLogical : link.hlcLogical < 2 ^ 32
  emitterDeviceId : link.emitterDeviceId < 256 ^ 16
  carryShare : ∀ share, link.carryShare = some share →
    share.length = identityShareLen ∧ ∀ b ∈ share, b < 256

variable {cbor : Cbor.Codec} {cr : IdentityCrypto} {link : ChainLink} {c : IdentityChain}

theorem fixedFrom_fixedItem {k n : ℕ} (h : n < 256 ^ k) : fixedFrom k (fixedItem k n) = some n := by
  rw [fixedItem, bytesItem, fixedFrom, if_pos (length_bigEndian k n),
    ofBigEndian_bigEndian h]

theorem uintFrom_intItem {bits n : ℕ} (h : n < 2 ^ bits) :
    uintFrom bits (intItem n) = some n := by
  rw [intItem, uintFrom, if_pos ⟨Int.natCast_nonneg n, by exact_mod_cast h⟩, Int.toNat_natCast]

theorem carryFrom_carryItem {carry : Option Bytes}
    (h : ∀ share, carry = some share → share.length = identityShareLen ∧ ∀ b ∈ share, b < 256) :
    carryFrom (carryItem carry) = some carry := by
  cases carry with
  | none => rfl
  | some share => exact if_pos (h share rfl).1

/-- A link as it is read, without its predecessor. -/
def ChainLink.unplaced (link : ChainLink) : ChainLink :=
  { link with body := { link.body with fromIdentityId := 0 } }

theorem ChainLink.Fits.decodeLink_item (h : link.Fits) :
    decodeLink link.item = some link.unplaced := by
  simp only [ChainLink.item, decodeLink, carryFrom_carryItem h.carryShare,
    fixedFrom_fixedItem h.toIdentityId, fixedFrom_fixedItem h.toIdSPub,
    fixedFrom_fixedItem h.toIdDPub, fixedFrom_fixedItem h.rosterDigest,
    fixedFrom_fixedItem h.sharesDigest, fixedFrom_fixedItem h.prevSig,
    fixedFrom_fixedItem h.nextSig, uintFrom_intItem h.metaEpoch,
    uintFrom_intItem h.hlcPhysicalMs, uintFrom_intItem h.hlcLogical,
    fixedFrom_fixedItem h.emitterDeviceId, Option.bind_eq_bind, Option.bind_some]
  rfl

theorem mapM_decodeLink {links : List ChainLink} (h : ∀ link ∈ links, link.Fits) :
    (links.map ChainLink.item).mapM decodeLink = some (links.map ChainLink.unplaced) := by
  induction links with
  | nil => rfl
  | cons link links ih =>
    rw [List.forall_mem_cons] at h
    rw [List.map_cons, List.mapM_cons, h.1.decodeLink_item, ih h.2]
    rfl

theorem fillFrom_map (source : IdentityId) (links : List ChainLink) :
    fillFrom source (links.map ChainLink.unplaced) = fillFrom source links := by
  induction links generalizing source with
  | nil => rfl
  | cons link links ih =>
    rw [List.map_cons, fillFrom, fillFrom, show link.unplaced.body.toIdentityId =
      link.body.toIdentityId from rfl, ih]
    rfl

/-! ### The shape of the tree -/

theorem regular_fixedItem {k : ℕ} (hk : k < 2 ^ 64) (n : ℕ) :
    (fixedItem k n).Regular ∧ (fixedItem k n).depth = 0 := by
  apply regular_bytesItem
  · intro b hb
    exact lt_of_mem_bigEndian hb
  · rwa [length_bigEndian]

theorem ChainLink.Fits.regular_carryItem (h : link.Fits) :
    (carryItem link.carryShare).Regular ∧ (carryItem link.carryShare).depth = 0 := by
  cases hcarry : link.carryShare with
  | none => exact ⟨Cbor.forall_nodes_scalar.mpr trivial, rfl⟩
  | some share =>
    obtain ⟨hlen, hbytes⟩ := h.carryShare share hcarry
    exact regular_bytesItem hbytes (hlen.trans_lt (by decide))

theorem ChainLink.Fits.regular_item (h : link.Fits) :
    link.item.Regular ∧ link.item.depth ≤ 1 := by
  refine regular_array (by simp) ?_
  have hfixed : ∀ k ∈ [16, 32, 64], ∀ n, (fixedItem k n).Regular ∧ (fixedItem k n).depth = 0 := by
    intro k hk
    exact regular_fixedItem ((by decide : ∀ k ∈ [16, 32, 64], k < 2 ^ 64) k hk)
  simp only [List.forall_mem_cons]
  exact ⟨hfixed 16 (by decide) _, hfixed 32 (by decide) _, hfixed 32 (by decide) _,
    hfixed 32 (by decide) _, hfixed 32 (by decide) _, hfixed 64 (by decide) _,
    hfixed 64 (by decide) _, regular_intItem (h.metaEpoch.trans (by decide)),
    regular_intItem h.hlcPhysicalMs, regular_intItem (h.hlcLogical.trans (by decide)),
    hfixed 16 (by decide) _, h.regular_carryItem, by simp⟩

/-- A record whose links fit. -/
structure IdentityChain.Fits (c : IdentityChain) : Prop where
  genesisIdSPub : c.genesisIdSPub < 256 ^ 32
  links : ∀ link ∈ c.links, link.Fits

theorem IdentityChain.Fits.regular_map (h : c.Fits) (hlen : c.links.length ≤ maxChainLinks) :
    c.map.Regular ∧ c.map.depth ≤ maxDocDepth := by
  have hlinks : ∀ v ∈ c.links.map ChainLink.item, v.Regular ∧ v.depth ≤ 1 := by
    intro v hv
    obtain ⟨link, hlink, rfl⟩ := List.mem_map.mp hv
    exact (h.links link hlink).regular_item
  have harray : (Item.array (c.links.map ChainLink.item)).Regular := by
    refine Cbor.forall_nodes_array.mpr ⟨?_, fun v hv => (hlinks v hv).1⟩
    show (c.links.map _).length < 2 ^ 64
    rw [List.length_map]
    exact hlen.trans_lt (by decide)
  have hdepth : depthOfItems (c.links.map ChainLink.item) ≤ 1 :=
    Cbor.depthOfItems_le.mpr fun v hv => (hlinks v hv).2
  constructor
  · refine Cbor.forall_nodes_map.mpr ⟨by simp [Item.NodeRegular], ?_⟩
    simp only [List.forall_mem_cons]
    exact ⟨⟨(regular_intItem (by decide)).1, (regular_fixedItem (by decide) _).1⟩,
      ⟨(regular_intItem (by decide)).1, harray⟩, by simp⟩
  · unfold IdentityChain.map maxDocDepth
    rw [Item.depth]
    refine Nat.succ_le_succ (Cbor.depthOfEntries_le.mpr ?_)
    simp only [List.forall_mem_cons]
    refine ⟨⟨Nat.zero_le _, ?_⟩, ⟨Nat.zero_le _, ?_⟩, by simp⟩
    · rw [(regular_fixedItem (by decide) _).2]
      omega
    · rw [Item.depth]
      omega

theorem canonicalize_map (hw : cbor.write = Cbor.write) (c : IdentityChain) :
    canonicalize cbor c.map = c.map := by
  have hlink : ∀ link : ChainLink, canonicalize cbor link.item = link.item := by
    intro link
    have hcarry : canonicalize cbor (carryItem link.carryShare) = carryItem link.carryShare := by
      cases link.carryShare <;> rfl
    rw [ChainLink.item, canonicalize, canonicalizeItems_eq]
    simp only [List.map_cons, List.map_nil, hcarry]
    rfl
  have hlinks : (c.links.map ChainLink.item).map (canonicalize cbor) =
      c.links.map ChainLink.item := by
    rw [List.map_map]
    exact List.map_congr_left fun link _ => hlink link
  unfold IdentityChain.map
  rw [canonicalize, canonicalizeEntries_eq]
  simp only [List.map_cons, List.map_nil, canonicalize, canonicalizeItems_eq, hlinks]
  refine congrArg Item.map (sortBy_eq_self ?_)
  rw [hw]
  -- the keys are 1 and 2, each its own byte
  simp only [List.pairwise_cons, List.forall_mem_cons]
  exact ⟨⟨by decide, by simp⟩, by simp⟩

/-! ### How long a record is -/

theorem length_write_fixedItem (k n : ℕ) :
    (Cbor.write (fixedItem k n)).length = headSize k + k := by
  rw [fixedItem, bytesItem, length_write_bytes, length_bigEndian]

theorem ChainLink.Fits.length_write_item (h : link.Fits) :
    (Cbor.write link.item).length ≤ 436 := by
  have hcarry : (Cbor.write (carryItem link.carryShare)).length ≤ 114 := by
    cases hc : link.carryShare with
    | none => decide
    | some share =>
      rw [carryItem, bytesItem, length_write_bytes, (h.carryShare share hc).1]
      decide
  have hint : ∀ n : ℕ, n < 2 ^ 32 → (Cbor.write (intItem n)).length ≤ 5 := by
    intro n hn
    rw [intItem, length_write_nat, headSize]
    split_ifs <;> omega
  have hms : (Cbor.write (intItem link.hlcPhysicalMs)).length ≤ 9 := by
    rw [intItem, length_write_nat, headSize]
    split_ifs <;> omega
  have hepoch := hint _ h.metaEpoch
  have hlogical := hint _ h.hlcLogical
  rw [ChainLink.item, length_write_array]
  simp only [List.map_cons, List.map_nil, List.sum_cons, List.sum_nil, List.length_cons,
    List.length_nil, length_write_fixedItem, show headSize 16 = 1 from rfl,
    show headSize 32 = 2 from rfl, show headSize 64 = 2 from rfl,
    show headSize (0 + 12) = 1 from rfl]
  omega

theorem IdentityChain.Fits.length_le (h : c.Fits) (hlen : c.links.length ≤ maxChainLinks) :
    (chainPrefix ++ Cbor.write c.map).length ≤ maxChainBytes := by
  have hlinks : ((c.links.map ChainLink.item).map fun v => (Cbor.write v).length).sum ≤
      c.links.length * 436 := by
    rw [List.map_map]
    have hsum := List.sum_le_card_nsmul (c.links.map ((fun v => (Cbor.write v).length) ∘
      ChainLink.item)) 436 (by
        intro n hn
        obtain ⟨link, hlink, rfl⟩ := List.mem_map.mp hn
        exact (h.links link hlink).length_write_item)
    simpa using hsum
  have hhead : headSize c.links.length ≤ 9 := by
    unfold headSize
    split_ifs <;> omega
  have hnum : (Cbor.write (intItem 1)).length = 1 ∧ (Cbor.write (intItem 2)).length = 1 := by
    decide
  unfold maxChainLinks at hlen
  unfold IdentityChain.map maxChainBytes
  rw [List.length_append, length_write_map]
  simp only [List.map_cons, List.map_nil, List.sum_cons, List.sum_nil, List.length_cons,
    List.length_nil, hnum, length_write_fixedItem, length_write_array, List.length_map,
    show headSize 32 = 2 from rfl, show headSize (0 + 1 + 1) = 1 from rfl, chainPrefix]
  omega

/-- **A record decodes from its bytes.** -/
theorem IdentityChain.decode_encode (hc : cbor.Lawful) (hw : cbor.write = Cbor.write) (h : c.Fits)
    (hfrom : fillFrom (c.genesisIdentityId cr) c.links = c.links) {raw : Bytes}
    (henc : c.encode cbor = .ok raw) : decode cbor cr raw = .ok c := by
  unfold encode at henc
  split at henc
  next => cases henc
  next hlen =>
    have hlen : c.links.length ≤ maxChainLinks := by omega
    obtain ⟨hreg, hdepth⟩ := h.regular_map hlen
    have hsize := h.length_le hlen
    have hread := decodeCanonicalWithin_encodeCanonical hc hreg maxDocDepth
    rw [if_pos hdepth, canonicalize_map hw] at hread
    have hraw : raw = chainPrefix ++ encodeCanonical cbor c.map := (Except.ok.inj henc).symm
    have hbytes : encodeCanonical cbor c.map = Cbor.write c.map := by
      rw [encodeCanonical, canonicalize_map hw, hw]
    have htake : raw.take 5 = chainPrefix := by rw [hraw]; rfl
    have hdrop : raw.drop 5 = encodeCanonical cbor c.map := by rw [hraw]; rfl
    have hlinks : decodeLinks (.array (c.links.map ChainLink.item)) =
        .ok (c.links.map ChainLink.unplaced) := by
      rw [decodeLinks, if_neg (by rw [List.length_map]; omega), mapM_decodeLink h.links]
    unfold decode decodeCanonical
    rw [if_neg (by rw [hraw, hbytes]; omega), if_neg (not_not.mpr htake), hdrop, hread]
    unfold IdentityChain.map
    simp only [List.foldlM_cons, List.foldlM_nil]
    have hone : ChainFields.takeField ⟨none, none⟩ (intItem 1, fixedItem 32 c.genesisIdSPub) =
        .ok ⟨some c.genesisIdSPub, none⟩ := by
      simp only [ChainFields.takeField, intItem, Nat.cast_one]
      rw [fixedFrom_fixedItem h.genesisIdSPub]
    have htwo : ChainFields.takeField ⟨some c.genesisIdSPub, none⟩
        (intItem 2, .array (c.links.map ChainLink.item)) =
          .ok ⟨some c.genesisIdSPub, some (c.links.map ChainLink.unplaced)⟩ := by
      simp only [ChainFields.takeField, intItem, Nat.cast_ofNat]
      rw [hlinks]
      rfl
    rw [hone]
    simp only [bind, Except.bind]
    rw [htwo]
    simp only [pure, Except.pure]
    rw [fillFrom_map, ← genesisIdentityId, hfrom]

/-! ### Carry shares -/

/-- What opens a carry share. -/
structure CarryCrypto where
  /-- HPKE under the key of an identity, bound to the one the share is of. -/
  hpkeOpenIdentity : ℕ → IdentityId → Bytes → Option Bytes
  signingPublic : ℕ → PubKey
  dhPublic : ℕ → PubKey

/-- What walking the carry shares from an identity found. -/
inductive CarryWalk where
  | notOnChain
  | reaches (links : ℕ)
  | retired (atLink : ℕ)
deriving DecidableEq, Repr

/-- Open a share and check it against the keys its link names. -/
def openCarry (k : CarryCrypto) (dh : ℕ) (body : IdentityTransitionBody) (share : Bytes) :
    Option ℕ :=
  if share.length ≠ identityShareLen then none
  else do
    let opened ← k.hpkeOpenIdentity dh body.toIdentityId share
    if opened.length ≠ 64 then none
    else
      let d := ofBigEndian (opened.drop 32)
      if k.signingPublic (ofBigEndian (opened.take 32)) = body.toIdSPub ∧
          k.dhPublic d = body.toIdDPub then some d else none

/-- The first link that does not carry a key forward, from a place on. -/
def retiringLink (k : CarryCrypto) : ℕ → ℕ → List ChainLink → Option ℕ
  | _, _, [] => none
  | i, dh, link :: links =>
    match link.carryShare.bind (openCarry k dh link.body) with
    | none => some i
    | some next => retiringLink k (i + 1) next links

def IdentityChain.placeAfter (cr : IdentityCrypto) (c : IdentityChain) (id : IdentityId) :
    Option ℕ :=
  if c.genesisIdentityId cr = id then some 0
  else (c.links.findIdx? fun link => link.body.toIdentityId = id).map (· + 1)

def IdentityChain.carryWalk (cr : IdentityCrypto) (k : CarryCrypto) (c : IdentityChain)
    (id : IdentityId) (idDPriv : ℕ) : CarryWalk :=
  match c.placeAfter cr id with
  | none => .notOnChain
  | some start =>
    match retiringLink k start idDPriv (c.links.drop start) with
    | some i => .retired i
    | none => .reaches (c.links.length - start)

/-- Every link carries the key before it forward. -/
def Carried (k : CarryCrypto) : ℕ → List ChainLink → Prop
  | _, [] => True
  | dh, link :: links => ∃ next, link.carryShare.bind (openCarry k dh link.body) = some next ∧
      Carried k next links

theorem retiringLink_eq_none {k : CarryCrypto} {links : List ChainLink} {i dh : ℕ} :
    retiringLink k i dh links = none ↔ Carried k dh links := by
  induction links generalizing i dh with
  | nil => exact iff_of_true rfl trivial
  | cons link links ih =>
    rw [retiringLink, Carried]
    cases link.carryShare.bind (openCarry k dh link.body) with
    | none => simp
    | some next => simpa using ih

/-- **A code is retired** exactly if a link after its identity does not carry it forward. -/
theorem IdentityChain.carryWalk_retired {cr : IdentityCrypto} {k : CarryCrypto}
    {c : IdentityChain} {id : IdentityId} {idDPriv : ℕ} :
    (∃ i, c.carryWalk cr k id idDPriv = .retired i) ↔
      ∃ start, c.placeAfter cr id = some start ∧ ¬ Carried k idDPriv (c.links.drop start) := by
  unfold carryWalk
  cases c.placeAfter cr id with
  | none => simp
  | some start =>
    have hcarried := @retiringLink_eq_none k (c.links.drop start) start idDPriv
    cases hlink : retiringLink k start idDPriv (c.links.drop start) <;> simp [hlink, ← hcarried]

end Sunrise
