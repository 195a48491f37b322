import Sunrise.Keys.Distribution

/-!
# What a device is sent for its certificate

A device that becomes current is to be sent every key this replica holds. The backfill goes
over the epochs, skips one that a recipient row says the device was sent already, and seals
the first key it holds of each of the others. An epoch that two devices minted side by side
has two keys: the second is never sent. This module says exactly which keys the log has
after a certificate is applied.

## Main results

* `all_keys_sent_iff` — when a device has every key after its certificate.
-/

namespace Sunrise

namespace Keychain
variable {K : Type} {kc : Keychain K}

abbrev Slot := StreamId × ℕ

theorem mem_heldEpochs {slot : Slot} :
    slot ∈ kc.heldEpochs ↔ ∃ row ∈ kc.keys, (row.stream, row.epoch) = slot := by
  rw [heldEpochs, List.mem_insertionSort, List.mem_dedup, List.mem_map]

theorem nodup_heldEpochs : kc.heldEpochs.Nodup := by
  rw [heldEpochs, (List.perm_insertionSort _ _).nodup_iff]
  exact List.nodup_dedup _

theorem streamKeysAt_ne_nil {slot : Slot} (h : slot ∈ kc.heldEpochs) :
    kc.streamKeysAt slot.1 slot.2 ≠ [] := by
  obtain ⟨row, hrow, rfl⟩ := mem_heldEpochs.mp h
  apply List.ne_nil_of_mem (a := row.key)
  simp only [streamKeysAt, List.mem_map, List.mem_filter, mem_ofStream, decide_eq_true_eq]
  exact ⟨row, ⟨⟨hrow, rfl⟩, rfl⟩, rfl⟩

theorem streamKeysAt_eq_nil {stream : StreamId} (h : kc.ofStream stream = []) (epoch : ℕ) :
    kc.streamKeysAt stream epoch = [] := by
  simp [streamKeysAt, h]

theorem ofStream_meta_eq_nil {bounds : ReadBounds}
    (h : kc.currentStreamKey bounds metaStream = none) : kc.ofStream metaStream = [] := by
  by_cases hex : ∃ row ∈ kc.ofStream metaStream, kc.Writable bounds row
  · obtain ⟨e, k, hsome⟩ := exists_currentStreamKey_meta hex
    rw [h] at hsome
    cases hsome
  · have hnone : (kc.ofStream metaStream).filter (kc.Writable bounds) = [] := by
      rw [List.filter_eq_nil_iff]
      intro row hrow hw
      exact hex ⟨row, hrow, of_decide_eq_true hw⟩
    have hepoch : kc.currentEpoch bounds metaStream = kc.maxEpoch metaStream := by
      simp [currentEpoch, hnone]
    cases hmax : kc.maxEpoch metaStream with
    | none => exact maxEpoch_eq_none.mp hmax
    | some e =>
      obtain ⟨⟨row, hrow, hre⟩, -⟩ := maxEpoch_eq_some.mp hmax
      obtain ⟨k, hsome⟩ := exists_currentStreamKey (hepoch.trans hmax) hrow hre
      rw [h] at hsome
      cases hsome

theorem streamKeysAt_mintEpoch {keyId : K → KeyId} {stream stream' : StreamId} {epoch : ℕ}
    {fresh : K} (h : stream' ≠ stream) :
    (kc.mintEpoch keyId stream' fresh).1.streamKeysAt stream epoch =
      kc.streamKeysAt stream epoch := by
  rw [streamKeysAt, streamKeysAt, ofStream, ofStream, mintEpoch_fst, insertStreamKeyRow_keys]
  split
  · rfl
  · simp [List.filter_append, h]

end Keychain

namespace Engine
variable {K C : Type} {w : Node K C} {fresh : Fresh K} {σ σ' σ'' : Engine K C}
  {pk : PubKey} {d : Device} {slot : Keychain.Slot} {key : K}

/-! ### Sent and to be sent -/

/-- The op is an envelope that carries the key of the epoch to the device. -/
def Carries (w : Node K C) (pk : PubKey) (d : Device) (slot : Keychain.Slot) (key : K) :
    ControlBody C → Prop
  | .keyEnvelope p => p.recipient = .device d ∧ (p.stream, p.epoch) = slot ∧
      w.crypto.hpkeOpen pk slot.1 slot.2 p.ciphertext = some key
  | .deviceRevoke _ _ => False
  | .account _ => False

instance [DecidableEq K] : ∀ body : ControlBody C, Decidable (Carries w pk d slot key body)
  | .keyEnvelope _ => inferInstanceAs (Decidable (_ ∧ _ ∧ _))
  | .deviceRevoke _ _ => instDecidableFalse
  | .account _ => instDecidableFalse

/-- The log has an envelope that carries the key of the epoch to the device. -/
def Sent (w : Node K C) (σ : Engine K C) (pk : PubKey) (d : Device) (slot : Keychain.Slot)
    (key : K) : Prop :=
  ∃ x ∈ σ.log, Carries w pk d slot key x.body

instance [DecidableEq K] : Decidable (Sent w σ pk d slot key) :=
  inferInstanceAs (Decidable (∃ x ∈ σ.log, _))

/-- The backfill sends the key: the epoch has no recipient row for the device, the key is
the first held of it, and it can be sealed. -/
def Sends (w : Node K C) (σ : Engine K C) (pk : PubKey) (d : Device) (slot : Keychain.Slot)
    (key : K) : Prop :=
  (slot.1, slot.2, d) ∉ σ.recipients ∧ (σ.keychain.streamKeysAt slot.1 slot.2).head? = some key ∧
    (w.crypto.hpkeSeal pk slot.1 slot.2 key).isSome

instance [DecidableEq K] : Decidable (Sends w σ pk d slot key) :=
  inferInstanceAs (Decidable (_ ∧ _ ∧ _))

/-- Two states say the same of one epoch: its keys, whether the device has a recipient row,
and what it was sent. -/
structure Agree (w : Node K C) (d : Device) (slot : Keychain.Slot) (σ σ' : Engine K C) :
    Prop where
  keys : σ'.keychain.streamKeysAt slot.1 slot.2 = σ.keychain.streamKeysAt slot.1 slot.2
  recipient : (slot.1, slot.2, d) ∈ σ'.recipients ↔ (slot.1, slot.2, d) ∈ σ.recipients
  sent : ∀ pk key, Sent w σ' pk d slot key ↔ Sent w σ pk d slot key

theorem agree_refl (σ : Engine K C) : Agree w d slot σ σ :=
  ⟨rfl, Iff.rfl, fun _ _ => Iff.rfl⟩

theorem Agree.trans (h₁ : Agree w d slot σ σ') (h₂ : Agree w d slot σ' σ'') :
    Agree w d slot σ σ'' where
  keys := h₂.keys.trans h₁.keys
  recipient := h₂.recipient.trans h₁.recipient
  sent pk key := (h₂.sent pk key).trans (h₁.sent pk key)

theorem Agree.sends (h : Agree w d slot σ σ') :
    Sends w σ' pk d slot key ↔ Sends w σ pk d slot key := by
  rw [Sends, Sends, h.recipient, h.keys]

theorem mem_recipients_recordEnvelopeRecipient {stream : StreamId} {epoch : ℕ} {d' : Device} :
    (slot.1, slot.2, d) ∈ (σ.recordEnvelopeRecipient stream epoch d').recipients ↔
      (slot.1, slot.2, d) ∈ σ.recipients ∨ (slot = (stream, epoch) ∧ d = d') := by
  have heq : (slot.1, slot.2, d) = (stream, epoch, d') ↔ slot = (stream, epoch) ∧ d = d' := by
    simp [Prod.ext_iff, and_assoc]
  unfold recordEnvelopeRecipient
  split
  · next h =>
    constructor
    · exact Or.inl
    · rintro (hin | hnew)
      · exact hin
      · rw [heq.mpr hnew]
        exact h
  · rw [List.mem_append, List.mem_singleton, heq]

theorem sent_logOwn {body : ControlBody C} : Sent w (σ.logOwn w body) pk d slot key ↔
    Sent w σ pk d slot key ∨ Carries w pk d slot key body := by
  simp [Sent, logOwn, or_and_right, exists_or]

@[simp] theorem sent_recordEnvelopeRecipient {stream : StreamId} {epoch : ℕ} {d' : Device} :
    Sent w (σ.recordEnvelopeRecipient stream epoch d') pk d slot key ↔ Sent w σ pk d slot key := by
  simp [Sent]

theorem sent_appendEnvelope {p : KeyEnvelope C} : Sent w (σ.appendEnvelope w p) pk d slot key ↔
    Sent w σ pk d slot key ∨ Carries w pk d slot key (.keyEnvelope p) := by
  unfold appendEnvelope
  split
  · rw [sent_recordEnvelopeRecipient, sent_logOwn]
  · rw [sent_logOwn]

theorem keychain_appendEnvelope {p : KeyEnvelope C} :
    (σ.appendEnvelope w p).keychain = σ.keychain := by
  unfold appendEnvelope
  split
  · rw [recordEnvelopeRecipient_keychain]
    rfl
  · rfl

theorem agree_appendEnvelope {p : KeyEnvelope C} (h : (p.stream, p.epoch) ≠ slot) :
    Agree w d slot σ (σ.appendEnvelope w p) where
  keys := by rw [keychain_appendEnvelope]
  recipient := by
    unfold appendEnvelope
    split
    · rw [mem_recipients_recordEnvelopeRecipient]
      constructor
      · rintro (hin | ⟨hslot, -⟩)
        · exact hin
        · exact absurd hslot.symm h
      · exact Or.inl
    · rfl
  sent pk key := by
    rw [sent_appendEnvelope]
    constructor
    · rintro (hin | ⟨-, hslot, -⟩)
      · exact hin
      · exact absurd hslot h
    · exact Or.inl

theorem agree_foldl {α : Type} {f : Engine K C → α → Engine K C} {l : List α}
    (hf : ∀ a ∈ l, ∀ σ, Agree w d slot σ (f σ a)) (σ : Engine K C) :
    Agree w d slot σ (l.foldl f σ) := by
  induction l generalizing σ with
  | nil => exact agree_refl σ
  | cons a l ih =>
    have hhead := hf a (by simp) σ
    exact hhead.trans (ih (fun b hb => hf b (by simp [hb])) _)

theorem stream_sealTo {stream : StreamId} {epoch : ℕ} {which : EnvelopeRecipients} :
    ∀ p ∈ σ.sealTo w stream epoch key which, p.stream = stream := by
  intro p hp
  obtain ⟨r, -, hct⟩ := List.mem_filterMap.mp hp
  obtain ⟨ct, -, rfl⟩ := Option.map_eq_some_iff.mp hct
  rfl

theorem agree_ensureMeta (h : σ.keychain.streamKeysAt slot.1 slot.2 ≠ []) :
    Agree w d slot σ (σ.ensureMeta w fresh) := by
  unfold ensureMeta
  split
  · exact agree_refl σ
  · next hnone =>
    have hmeta : metaStream ≠ slot.1 := by
      intro heq
      exact h (Keychain.streamKeysAt_eq_nil (heq ▸ Keychain.ofStream_meta_eq_nil hnone) slot.2)
    have hmint : Agree w d slot σ (σ.mintEpoch w fresh metaStream).1 :=
      ⟨Keychain.streamKeysAt_mintEpoch hmeta, Iff.rfl, fun _ _ => Iff.rfl⟩
    refine hmint.trans (agree_foldl ?_ _)
    intro p hp _
    apply agree_appendEnvelope
    intro heq
    exact hmeta ((stream_sealTo p hp).symm.trans (congrArg Prod.fst heq))

/-! ### One epoch -/

theorem agree_backfillEpoch {held : Keychain.Slot} (hne : held ≠ slot)
    (h : σ.keychain.streamKeysAt slot.1 slot.2 ≠ []) :
    Agree w d slot σ (backfillEpoch w fresh d pk σ held) := by
  unfold backfillEpoch
  split
  · exact agree_refl σ
  · split
    · exact agree_refl σ
    · split
      · exact agree_refl σ
      · exact (agree_ensureMeta h).trans (agree_appendEnvelope hne)

theorem streamKeysAt_backfillEpoch {held : Keychain.Slot}
    (h : σ.keychain.streamKeysAt slot.1 slot.2 ≠ []) :
    (backfillEpoch w fresh d pk σ held).keychain.streamKeysAt slot.1 slot.2 =
      σ.keychain.streamKeysAt slot.1 slot.2 := by
  unfold backfillEpoch
  split
  · rfl
  · split
    · rfl
    · split
      · rfl
      · rw [keychain_appendEnvelope, (agree_ensureMeta (w := w) (d := d) h).keys]

/-- **What the backfill of one epoch adds**: the key it sends, and nothing else. -/
theorem sent_backfillEpoch (h : σ.keychain.streamKeysAt slot.1 slot.2 ≠ []) :
    Sent w (backfillEpoch w fresh d pk σ slot) pk d slot key ↔
      Sent w σ pk d slot key ∨ Sends w σ pk d slot key := by
  -- where nothing is appended, nothing was to be sent
  have hkept : backfillEpoch w fresh d pk σ slot = σ → ¬ Sends w σ pk d slot key →
      (Sent w (backfillEpoch w fresh d pk σ slot) pk d slot key ↔
        Sent w σ pk d slot key ∨ Sends w σ pk d slot key) := by
    intro heq hno
    rw [heq]
    exact (or_iff_left hno).symm
  by_cases hrow : (slot.1, slot.2, d) ∈ σ.recipients
  · exact hkept (by simp [backfillEpoch, hrow]) fun hs => hs.1 hrow
  cases hhead : (σ.keychain.streamKeysAt slot.1 slot.2).head? with
  | none => exact absurd (List.head?_eq_none_iff.mp hhead) h
  | some k =>
    cases hseal : w.crypto.hpkeSeal pk slot.1 slot.2 k with
    | none =>
      refine hkept (by simp [backfillEpoch, hrow, hhead, hseal]) ?_
      intro hs
      cases hhead.symm.trans hs.2.1
      simpa [hseal] using hs.2.2
    | some ct =>
      have hopen := w.crypto.open_seal pk slot.1 slot.2 k ct hseal
      have hstep : backfillEpoch w fresh d pk σ slot = (σ.ensureMeta w fresh).appendEnvelope w
          ⟨slot.1, slot.2, .device d, w.crypto.keyId k, ct⟩ := by
        simp [backfillEpoch, hrow, hhead, hseal]
      rw [hstep, sent_appendEnvelope, (agree_ensureMeta h).sent]
      refine or_congr_right ?_
      constructor
      · rintro ⟨-, -, hp⟩
        cases hopen.symm.trans hp
        exact ⟨hrow, hhead, by rw [hseal]; rfl⟩
      · rintro ⟨-, heq, -⟩
        cases hhead.symm.trans heq
        exact ⟨rfl, rfl, hopen⟩

/-! ### All of them -/

theorem agree_foldl_backfillEpoch {l : List Keychain.Slot} (hl : slot ∉ l)
    (h : σ.keychain.streamKeysAt slot.1 slot.2 ≠ []) :
    Agree w d slot σ (l.foldl (backfillEpoch w fresh d pk) σ) := by
  induction l generalizing σ with
  | nil => exact agree_refl σ
  | cons held l ih =>
    rw [List.mem_cons, not_or] at hl
    have hhead : Agree w d slot σ (backfillEpoch w fresh d pk σ held) :=
      agree_backfillEpoch (Ne.symm hl.1) h
    exact hhead.trans (ih hl.2 (by rwa [hhead.keys]))

theorem sent_foldl_backfillEpoch {l : List Keychain.Slot} (hl : slot ∈ l) (hnd : l.Nodup)
    (h : σ.keychain.streamKeysAt slot.1 slot.2 ≠ []) :
    Sent w (l.foldl (backfillEpoch w fresh d pk) σ) pk d slot key ↔
      Sent w σ pk d slot key ∨ Sends w σ pk d slot key := by
  obtain ⟨l₁, l₂, rfl⟩ := List.append_of_mem hl
  rw [List.nodup_middle, List.nodup_cons, List.mem_append, not_or] at hnd
  obtain ⟨⟨h₁, h₂⟩, -⟩ := hnd
  rw [List.foldl_append, List.foldl_cons]
  -- the epochs before it, its own, and those after
  have hbefore : Agree w d slot σ (l₁.foldl (backfillEpoch w fresh d pk) σ) :=
    agree_foldl_backfillEpoch h₁ h
  generalize l₁.foldl (backfillEpoch w fresh d pk) σ = τ at hbefore
  have hτ : τ.keychain.streamKeysAt slot.1 slot.2 ≠ [] := by rwa [hbefore.keys]
  have hown : (backfillEpoch w fresh d pk τ slot).keychain.streamKeysAt slot.1 slot.2 ≠ [] := by
    rwa [streamKeysAt_backfillEpoch hτ]
  rw [(agree_foldl_backfillEpoch h₂ hown).sent, sent_backfillEpoch hτ, hbefore.sent,
    hbefore.sends]

/-- **What the backfill adds**, for a current device that is not bounded and is not this
one. -/
theorem sent_backfillKeyEnvelopes (hd : d ≠ w.device.self) (hfree : σ.isReadBounded d = false)
    (hcur : σ.account.Current w.device d) (hslot : slot ∈ σ.keychain.heldEpochs) :
    Sent w (σ.backfillKeyEnvelopes w fresh d pk) pk d slot key ↔
      Sent w σ pk d slot key ∨ Sends w σ pk d slot key := by
  have hmember : (σ.account.devices.find d).bind (·.identityId) = some (σ.head w) := by
    obtain ⟨row, hrow, hid⟩ := hcur
    simp [hrow, hid, head]
  have hstep : σ.backfillKeyEnvelopes w fresh d pk =
      σ.keychain.heldEpochs.foldl (backfillEpoch w fresh d pk) σ := by
    simp [backfillKeyEnvelopes, hd, hfree, hmember]
  rw [hstep]
  exact sent_foldl_backfillEpoch hslot Keychain.nodup_heldEpochs
    (Keychain.streamKeysAt_ne_nil hslot)

/-! ### A certificate -/

section

variable {dl : ControlDelivery C} {blob : Bytes} {cert : DeviceCert}
  (hbody : dl.body = .account (.deviceCertPublish blob))
include hbody

theorem admits_of_acceptedCert
    (hcert : σ.acceptedCert w dl.ref.device blob = some cert) : σ.admits w dl = true := by
  unfold acceptedCert at hcert
  split at hcert
  · cases hcert
  · next c hc =>
    split at hcert
    · cases hcert
    · next hself =>
      split at hcert
      · cases hcert
      · next hissuer =>
        unfold admits
        rw [hbody]
        have hsender : decide (c.deviceId = dl.ref.device) = true := by simpa using hself
        have hsome : (σ.account.issuer w.device c).isSome = true := by
          simpa [Option.isSome_iff_ne_none] using hissuer
        simp [Account.admits, hc, hsender, hsome]

theorem deliver_cert (hnew : dl.ref ∉ σ.account.applied)
    (hcert : σ.acceptedCert w dl.ref.device blob = some cert) :
    σ.deliver w fresh dl =
      ({ σ.record false dl with
          account := (σ.record false dl).account.applyCertPublish w.device dl.ref.device blob } :
        Engine K C).backfillKeyEnvelopes w fresh cert.deviceId cert.dDPub := by
  have hsame : (σ.record false dl).acceptedCert w dl.ref.device blob = some cert := hcert
  unfold deliver
  rw [admits_of_acceptedCert hbody hcert]
  simp only [Bool.not_true, Bool.false_eq_true, if_false, if_neg hnew]
  unfold applyControlOp
  rw [hbody]
  simp only [applyCertPublish, hsame]

end

theorem current_applyCertPublish_applied {r : LocalDevice} {st : Account} {applied : List OpRef}
    {sender : Device} {blob : Bytes} :
    (({ st with applied } : Account).applyCertPublish r sender blob).Current r d ↔
      (st.applyCertPublish r sender blob).Current r d := by
  have hstep : ({ st with applied } : Account).applyCertPublish r sender blob =
      { st.applyCertPublish r sender blob with applied } := by
    unfold Account.applyCertPublish
    split
    · rfl
    · split
      · rfl
      · have hissuer : ({ st with applied } : Account).issuer r = st.issuer r := rfl
        rw [hissuer]
        split
        · rfl
        · split <;> rfl
  rw [hstep]
  rfl

end Engine

/-- **When a device has every key after its certificate.** In any state a run reaches, take
the certificate of a device that is then current and not bounded. The log has an envelope of
every key then held that carries it to the device, exactly where of every such key: the log
had one before, or the device is another one, has no recipient row of the epoch, and the key
is the first held of its epoch and can be sealed. -/
theorem all_keys_sent_iff {K C : Type} (w : Node K C) (start : Engine K C)
    (steps : List (Engine.Step K C)) (fresh : Fresh K) (dl : ControlDelivery C) (blob : Bytes)
    (cert : DeviceCert) (hbody : dl.body = .account (.deviceCertPublish blob))
    (hnew : dl.ref ∉ (start.run w steps).account.applied)
    (hcert : (start.run w steps).acceptedCert w dl.ref.device blob = some cert)
    (hcur : ((start.run w steps).account.applyCertPublish w.device dl.ref.device blob).Current
      w.device cert.deviceId)
    (hfree : (start.run w steps).isReadBounded cert.deviceId = false) :
    (∀ row ∈ (start.run w steps).keychain.keys,
      ((start.run w steps).deliver w fresh dl).Sent w cert.dDPub cert.deviceId
        (row.stream, row.epoch) row.key) ↔
    ∀ row ∈ (start.run w steps).keychain.keys,
      (start.run w steps).Sent w cert.dDPub cert.deviceId (row.stream, row.epoch) row.key ∨
      (cert.deviceId ≠ w.device.self ∧
        (start.run w steps).Sends w cert.dDPub cert.deviceId (row.stream, row.epoch) row.key) := by
  generalize start.run w steps = σ at hnew hcert hcur hfree ⊢
  refine forall₂_congr ?_
  intro row hrow
  rw [Engine.deliver_cert hbody hnew hcert]
  generalize hτ : ({ σ.record false dl with
    account := (σ.record false dl).account.applyCertPublish w.device dl.ref.device blob } :
      Engine K C) = τ
  -- the op itself is no envelope
  have hsent : τ.Sent w cert.dDPub cert.deviceId (row.stream, row.epoch) row.key ↔
      σ.Sent w cert.dDPub cert.deviceId (row.stream, row.epoch) row.key := by
    simp [← hτ, Engine.Sent, Engine.record, Engine.Carries, hbody]
  have hsends : τ.Sends w cert.dDPub cert.deviceId (row.stream, row.epoch) row.key ↔
      σ.Sends w cert.dDPub cert.deviceId (row.stream, row.epoch) row.key := by
    rw [← hτ]
    rfl
  by_cases hd : cert.deviceId = w.device.self
  · have hstep : τ.backfillKeyEnvelopes w fresh cert.deviceId cert.dDPub = τ := by
      simp [Engine.backfillKeyEnvelopes, hd]
    rw [hstep, hsent]
    simp [hd]
  · have hcur' : τ.account.Current w.device cert.deviceId := by
      rw [← hτ]
      exact Engine.current_applyCertPublish_applied.mpr hcur
    have hfree' : τ.isReadBounded cert.deviceId = false := by
      rw [← hτ]
      exact hfree
    have hslot : (row.stream, row.epoch) ∈ τ.keychain.heldEpochs := by
      rw [← hτ]
      exact Keychain.mem_heldEpochs.mpr ⟨row, hrow, rfl⟩
    rw [Engine.sent_backfillKeyEnvelopes hd hfree' hcur' hslot, hsent, hsends]
    simp [hd]

namespace Engine.Sample

def publishThird : ControlDelivery ℕ :=
  ⟨⟨0, 3, 1⟩, ⟨7, 0⟩, 1, .account (.deviceCertPublish [3, 3, 1]), 7⟩

def mintOwn : Step ℕ ℕ := .absorb 5 ⟨1, one_le_epochMax⟩ 20 .minted

/-- A key of the same epoch that device 2 minted beside it, and sends. -/
def sendOther : Step ℕ ℕ :=
  .deliver (fun _ _ => 0) ⟨⟨0, 2, 1⟩, ⟨5, 0⟩, 1, .keyEnvelope ⟨5, 1, .device 1, 30, 30⟩, 5⟩

end Engine.Sample

open Engine Engine.Sample in
/-- With one key of each epoch, the third device is sent them all. -/
theorem all_keys_sent_iff_one : (start.run node [mintOwn]).isReadBounded 3 = false ∧
    ∀ row ∈ (start.run node [mintOwn]).keychain.keys,
      ((start.run node [mintOwn]).deliver node (fun _ _ => 0) publishThird).Sent node 3 3
        (row.stream, row.epoch) row.key := by
  refine ⟨by decide, (all_keys_sent_iff node start [mintOwn] (fun _ _ => 0) publishThird [3, 3, 1]
    ⟨3, 3, 3, 1, 0, "", "", 1⟩ rfl (by decide) (by decide) ⟨_, rfl, by decide⟩
    (by decide)).mpr ?_⟩
  intro row hrow
  right
  refine ⟨by decide, ?_⟩
  revert row
  decide

open Engine Engine.Sample in
/-- With two keys of one epoch, the third device, current and not bounded, is sent one. -/
theorem not_all_keys_sent :
    let σ := start.run node [mintOwn, sendOther]
    (σ.account.applyCertPublish node.device 3 [3, 3, 1]).Current node.device 3 ∧
    σ.isReadBounded 3 = false ∧
    ¬ ∀ row ∈ σ.keychain.keys, (σ.deliver node (fun _ _ => 0) publishThird).Sent node 3 3
      (row.stream, row.epoch) row.key := by
  refine ⟨⟨_, rfl, by decide⟩, by decide, ?_⟩
  decide

end Sunrise
