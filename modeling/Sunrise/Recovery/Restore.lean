import Sunrise.Recovery.Bip39
import Sunrise.Recovery.Blob
import Sunrise.Trust.ChainRecord

/-!
# Recovering an account

A device of the account can replace its blob by one sealed under a new code. The relay keeps the
start of what was replaced, of the newest few. So a device that has nothing but the words of a code
opens the blob that is in place, or learns that the code was replaced.

* `restoreIdentity_eq_ok_iff` — **the code in place restores what was sealed.**
* `restoreIdentity_replaced` — **a code that was replaced is told from a wrong one.**
-/

namespace Sunrise

namespace Recovery

open Text Bip39

/-! ### The relay -/

/-- How many retired checks an account keeps. -/
def maxRetired : ℕ := 8

/-- What the relay holds for the recovery of an account. -/
structure RecoveryRow where
  recoveryBlob : Option Bytes
  /-- When each blob was replaced, and its start; newest first. -/
  retired : List (ℕ × Bytes)

/-- Replace the blob; `none` is a refusal. -/
def replaceRecoveryBlob (row : RecoveryRow) (offered : Bytes) (nowMs : ℕ) : Option RecoveryRow :=
  if offered.length ≤ retiredCheckLen ∨
      (decodePrefix offered).toOption.map Prod.fst ≠ some .recoveryBlob then none
  else if row.recoveryBlob = some offered then some row
  else
    let check := (row.recoveryBlob.filter (retiredCheckLen ≤ ·.length)).map (·.take retiredCheckLen)
    some {
      recoveryBlob := some offered
      retired := match check with
        | some check =>
          (row.retired.orderedInsert (fun a b => b.1 ≤ a.1) (nowMs, check)).take maxRetired
        | none => row.retired }

/-- A run of requests, with their times. -/
def RecoveryRow.replaceAll (row : RecoveryRow) (requests : List (Bytes × ℕ)) : RecoveryRow :=
  requests.foldl (fun row r => (replaceRecoveryBlob row r.1 r.2).getD row) row

/-! ### The device -/

/-- Why nothing was restored. -/
inductive RestoreError where
  | code (e : Bip39Error)
  | noBlob
  | crypto (e : RecoveryError)
  | codeRetired (retiredAtMs : Option ℕ)

def seedKey (seed : Vector Bits.Byte recoveryEntropyLen) : WireKey where
  bytes := seed.toList.map BitVec.toNat
  isBytes := by
    rintro x hx
    obtain ⟨b, -, rfl⟩ := List.mem_map.mp hx
    exact b.isLt
  length_eq := (List.length_map _).trans seed.length_toList

/-- When the blob that `seed` opened was replaced, if a check is its. -/
def retiredAt (c : RecoveryCrypto) (retired : List (ℕ × Bytes)) (seed : WireKey) : Option ℕ :=
  retired.findSome? fun r =>
    if retiredCheckMatches c r.2 seed = .ok true then some r.1 else none

/-- Open what the relay serves with the words of a code. `retiredBy` is what the identity chain
that comes with the blob says of the code (`retiredByChain`). -/
def restoreIdentity (c : RecoveryCrypto) (list : Wordlist) (sha256 : Sha256) (served : RecoveryRow)
    (code : Text) (identityId : WireId) (retiredBy : RecoveryPayload → Bool) :
    Except RestoreError RecoveryPayload := do
  let seed ← (decodeRecoveryCode list sha256 code).mapError .code
  match served.recoveryBlob with
  | none => .error .noBlob
  | some blob =>
    match unsealRecoveryBlob c blob (seedKey seed) identityId with
    | .ok payload => if retiredBy payload then .error (.codeRetired none) else .ok payload
    | .error .authFailed =>
      match retiredAt c served.retired (seedKey seed) with
      | some at_ => .error (.codeRetired at_)
      | none => .error (.crypto .authFailed)
    | .error e => .error (.crypto e)

/-- The identity chain that comes with a blob, where it is one and the account's. -/
def servedChain (cbor : Cbor.Codec) (cr : IdentityCrypto) (raw : Option Bytes) (id : WireId) :
    Option IdentityChain :=
  raw.bind fun raw => (IdentityChain.decode cbor cr raw).toOption.filter fun chain =>
    (chain.verify cr (Cbor.ofBigEndian id.bytes)).isOk

/-- Whether the chain that comes with a blob retired its code. -/
def retiredByChain (cr : IdentityCrypto) (k : CarryCrypto) (chain : Option IdentityChain)
    (p : RecoveryPayload) : Bool :=
  match chain.map fun chain => chain.carryWalk cr k (Cbor.ofBigEndian p.identityId.bytes)
      (Cbor.ofBigEndian p.idDPriv.bytes) with
  | some (CarryWalk.retired _) => true
  | _ => false

theorem retiredByChain_eq_false {cr : IdentityCrypto} {k : CarryCrypto}
    {chain : Option IdentityChain} {p : RecoveryPayload} :
    retiredByChain cr k chain p = false ↔ ∀ c ∈ chain, ∀ start ∈
      c.placeAfter cr (Cbor.ofBigEndian p.identityId.bytes),
        Carried k (Cbor.ofBigEndian p.idDPriv.bytes) (c.links.drop start) := by
  cases chain with
  | none => simp [retiredByChain]
  | some c =>
    have hretired := @IdentityChain.carryWalk_retired cr k c (Cbor.ofBigEndian p.identityId.bytes)
      (Cbor.ofBigEndian p.idDPriv.bytes)
    unfold retiredByChain
    rw [Option.map_some]
    cases hwalk : c.carryWalk cr k (Cbor.ofBigEndian p.identityId.bytes)
      (Cbor.ofBigEndian p.idDPriv.bytes) <;> simpa [hwalk] using hretired

/-! ### Runs of requests -/

variable {row : RecoveryRow} {blob other : Bytes}

/-- With `left` requests to come, the blob is in place, or it is retired and not so many others
after it that its check is dropped. -/
def Told (row : RecoveryRow) (blob : Bytes) (left : ℕ) : Prop :=
  row.recoveryBlob = some blob ∧ left ≤ maxRetired ∨ ∃ (k at_ : ℕ),
    row.retired[k]? = some (at_, blob.take retiredCheckLen) ∧ k + left < maxRetired

theorem orderedInsert_newest {retired : List (ℕ × Bytes)} {nowMs : ℕ} (check : Bytes)
    (hclock : ∀ r ∈ retired, r.1 ≤ nowMs) :
    retired.orderedInsert (fun a b => b.1 ≤ a.1) (nowMs, check) = (nowMs, check) :: retired := by
  cases retired with
  | nil => rfl
  | cons r retired => exact if_pos (hclock r List.mem_cons_self)

/-- **One request**, at a time that is not before those of the checks. -/
theorem Told.step {left nowMs : ℕ} (hlen : retiredCheckLen ≤ blob.length)
    (hclock : ∀ r ∈ row.retired, r.1 ≤ nowMs) (h : Told row blob (left + 1)) :
    Told ((replaceRecoveryBlob row other nowMs).getD row) blob left := by
  have hkept : Told row blob left := by
    rcases h with ⟨hrow, hle⟩ | ⟨k, at_, hk, hlt⟩
    · exact .inl ⟨hrow, by omega⟩
    · exact .inr ⟨k, at_, hk, by omega⟩
  unfold replaceRecoveryBlob
  split
  next => exact hkept
  split
  next => exact hkept
  right
  simp only [orderedInsert_newest _ hclock, Option.getD_some]
  rcases h with ⟨hrow, hle⟩ | ⟨k, at_, hk, hlt⟩
  · rw [hrow, Option.filter_some_pos (by simpa using hlen)]
    exact ⟨0, nowMs, rfl, by omega⟩
  · cases row.recoveryBlob.filter (retiredCheckLen ≤ ·.length) with
    | none => exact ⟨k, at_, hk, by omega⟩
    | some old =>
      refine ⟨k + 1, at_, ?_, by omega⟩
      rw [Option.map_some, List.getElem?_take_of_lt (by omega)]
      exact hk

theorem mem_retired {nowMs : ℕ} {r : ℕ × Bytes}
    (h : r ∈ ((replaceRecoveryBlob row other nowMs).getD row).retired) :
    r ∈ row.retired ∨ r.1 = nowMs := by
  unfold replaceRecoveryBlob at h
  split at h
  next => exact .inl h
  split at h
  next => exact .inl h
  dsimp only [Option.getD_some] at h
  split at h
  next =>
    rcases (List.mem_orderedInsert _).mp (List.mem_of_mem_take h) with rfl | h
    · exact .inr rfl
    · exact .inl h
  next => exact .inl h

variable {requests : List (Bytes × ℕ)} (hsorted : requests.Pairwise fun a b => a.2 ≤ b.2)
  (hclock : ∀ r ∈ row.retired, ∀ q ∈ requests, r.1 ≤ q.2)

include hsorted hclock

/-- **A run of requests** that come in the order of their times. -/
theorem Told.run (hlen : retiredCheckLen ≤ blob.length) (h : Told row blob requests.length) :
    Told (row.replaceAll requests) blob 0 := by
  induction requests generalizing row with
  | nil => exact h
  | cons q requests ih =>
    obtain ⟨hfirst, hsorted⟩ := List.pairwise_cons.mp hsorted
    refine ih hsorted (fun r hr q' hq' => ?_)
      (h.step hlen fun r hr => hclock r hr q List.mem_cons_self)
    rcases mem_retired hr with hr | hr
    · exact hclock r hr q' (List.mem_cons_of_mem _ hq')
    · exact hr ▸ hfirst q' hq'

omit hsorted hclock

/-! ### What the words come to -/

variable {c : RecoveryCrypto} {list : Wordlist} {sha256 : Sha256} {p : RecoveryPayload}
  {seed : Vector Bits.Byte recoveryEntropyLen} {salt : ByteArr 16} {nonce : ByteArr 24}
  {typed : Text} {id : WireId} {retiredBy : RecoveryPayload → Bool}
  (hseal : sealRecoveryBlob c (seedKey seed) p salt nonce = .ok blob)
  (hrow : row.recoveryBlob = some blob)
  (htyped : (words typed).map lower = words (encodeRecoveryCode list sha256 seed))

include htyped in
theorem decodeRecoveryCode_of_words : decodeRecoveryCode list sha256 typed = .ok seed :=
  decodeRecoveryCode_eq_ok_iff.mpr <| decode_iff_encode.mpr ⟨_, encodeRecoveryCode_eq seed, htyped⟩

include hseal

theorem retiredCheckLen_le : retiredCheckLen ≤ blob.length := by
  have hmatches := retiredCheckMatches_take hseal
  by_contra hlt
  rw [retiredCheckMatches, if_pos (by rw [List.length_take]; omega)] at hmatches
  cases hmatches

include hrow htyped

theorem restoreIdentity_opens {q : RecoveryPayload} :
    restoreIdentity c list sha256 row typed id retiredBy = .ok q ↔
      q = p ∧ id = p.accountIdentityId c ∧
        p.metaGenesisKeys.keys.length ≤ maxMetaGenesisKeys ∧ retiredBy p = false := by
  have hopen (q : RecoveryPayload) := unsealRecoveryBlob_eq_ok_iff (q := q) hseal id
  rw [restoreIdentity, decodeRecoveryCode_of_words htyped, hrow]
  simp only [Except.mapError, bind, Except.bind]
  cases hx : unsealRecoveryBlob c blob (seedKey seed) id with
  | ok payload =>
    obtain ⟨rfl, rfl, hkeys⟩ := (hopen payload).mp hx
    cases hby : retiredBy payload with
    | true => simp [hby]
    | false => simpa [hby, hkeys] using eq_comm
  | error e =>
    refine iff_of_false ?_ fun h => ?_
    · cases e
      case authFailed => cases retiredAt c row.retired (seedKey seed) <;> simp
      all_goals simp
    · have := (hopen q).mpr ⟨h.1, h.2.1, h.2.2.1⟩
      simp [hx] at this

/-- **The code in place restores what was sealed**, under the account's own identity, and nothing
else; typed in any case and with any white space. The chain that comes with it does not retire it
exactly if every link after the identity carries it forward. -/
theorem restoreIdentity_eq_ok_iff {q : RecoveryPayload} :
    (restoreIdentity c list sha256 row typed id retiredBy = .ok q ↔
      q = p ∧ id = p.accountIdentityId c ∧
        p.metaGenesisKeys.keys.length ≤ maxMetaGenesisKeys ∧ retiredBy p = false) ∧
    ∀ (cbor : Cbor.Codec) (cr : IdentityCrypto) (k : CarryCrypto) (raw : Option Bytes),
      restoreIdentity c list sha256 row typed id
          (retiredByChain cr k (servedChain cbor cr raw id)) = .ok q ↔
        q = p ∧ id = p.accountIdentityId c ∧
          p.metaGenesisKeys.keys.length ≤ maxMetaGenesisKeys ∧
          ∀ chain ∈ servedChain cbor cr raw id, ∀ start ∈
            chain.placeAfter cr (Cbor.ofBigEndian p.identityId.bytes),
              Carried k (Cbor.ofBigEndian p.idDPriv.bytes) (chain.links.drop start) :=
  ⟨restoreIdentity_opens hseal hrow htyped, fun cbor cr k raw => by
    rw [restoreIdentity_opens hseal hrow htyped, retiredByChain_eq_false]⟩

include hsorted hclock

/-- **A code that was replaced is told from a wrong one**, for as many requests as checks are
kept. -/
theorem restoreIdentity_replaced (hfew : requests.length ≤ maxRetired)
    (hother : (row.replaceAll requests).recoveryBlob = some other) (hne : other ≠ blob)
    (hrefused : unsealRecoveryBlob c other (seedKey seed) id = .error .authFailed) :
    ∃ at_ : ℕ, restoreIdentity c list sha256 (row.replaceAll requests) typed id retiredBy =
      .error (.codeRetired at_) := by
  rcases Told.run hsorted hclock (retiredCheckLen_le hseal) (.inl ⟨hrow, hfew⟩) with
    ⟨hsame, -⟩ | ⟨k, _, hk, -⟩
  · exact absurd (Option.some.inj (hother.symm.trans hsame)) hne
  · have hat : ∃ at_, retiredAt c (row.replaceAll requests).retired (seedKey seed) = some at_ := by
      rw [← Option.isSome_iff_exists, Option.isSome_iff_ne_none, retiredAt, ne_eq,
        List.findSome?_eq_none_iff]
      intro hnone
      have := hnone _ (List.mem_of_getElem? hk)
      simp [retiredCheckMatches_take hseal] at this
    obtain ⟨at_, hat⟩ := hat
    refine ⟨at_, ?_⟩
    rw [restoreIdentity, decodeRecoveryCode_of_words htyped, hother]
    simp [Except.mapError, bind, Except.bind, hrefused, hat]

omit hseal hrow htyped hsorted hclock

/-! ### Two codes -/

def firstSeed : Vector Bits.Byte recoveryEntropyLen := .replicate _ 0

def firstBlob : Bytes :=
  (sealRecoveryBlob keyCrypto (seedKey firstSeed) (successor 0 (by decide)) (.zero 16)
    (.zero 24)).toOption.getD []

def noHash : Sha256 := fun _ => .replicate 32 0

def firstCode : Text := encodeRecoveryCode default noHash firstSeed

/-- What another device puts in place: the relay reads no more of it than its start. -/
def laterBlob : Bytes := writePrefix .recoveryBlob recoveryMagicVersion ++ .replicate 80 1

theorem seal_firstBlob : sealRecoveryBlob keyCrypto (seedKey firstSeed) (successor 0 (by decide))
    (.zero 16) (.zero 24) = .ok firstBlob := by
  obtain ⟨blob, h⟩ := exists_sealRecoveryBlob (c := keyCrypto) (seedKey firstSeed) (.zero 16)
    (.zero 24) ((length_payloadToCbor_le (p := successor 0 (by decide)) (by decide)).trans
      keyCrypto.room)
  rw [firstBlob, h]
  rfl

theorem words_firstCode : (words firstCode).map lower = words firstCode := by decide +kernel

theorem restoreIdentity_eq_ok_iff_first :
    restoreIdentity keyCrypto default noHash ⟨some firstBlob, []⟩ firstCode (.zero 16)
      (fun _ => false) = .ok (successor 0 (by decide)) :=
  (restoreIdentity_eq_ok_iff seal_firstBlob rfl words_firstCode).1.mpr ⟨rfl, rfl, by decide, rfl⟩

theorem restoreIdentity_replaced_once :
    ∃ at_ : ℕ, restoreIdentity keyCrypto default noHash
      (RecoveryRow.replaceAll ⟨some firstBlob, []⟩ [(laterBlob, 5)]) firstCode (.zero 16)
      (fun _ => false) = .error (.codeRetired at_) := by
  have hrefused : unsealRecoveryBlob keyCrypto laterBlob (seedKey firstSeed) (.zero 16) =
      .error .authFailed := by
    decide +kernel
  have hopens : unsealRecoveryBlob keyCrypto firstBlob (seedKey firstSeed) (.zero 16) =
      .ok (successor 0 (by decide)) :=
    (unsealRecoveryBlob_eq_ok_iff seal_firstBlob _).mpr ⟨rfl, rfl, by decide⟩
  have hne : laterBlob ≠ firstBlob := by
    intro h
    rw [h, hopens] at hrefused
    cases hrefused
  have hother : (RecoveryRow.replaceAll ⟨some firstBlob, []⟩
      [(laterBlob, 5)]).recoveryBlob = some laterBlob := by
    rw [RecoveryRow.replaceAll, List.foldl_cons, replaceRecoveryBlob, if_neg (by decide),
      if_neg (by simpa using hne.symm)]
    rfl
  exact restoreIdentity_replaced (List.pairwise_singleton _ _) (by simp) seal_firstBlob rfl
    words_firstCode (by decide) hother hne hrefused

end Recovery

end Sunrise
