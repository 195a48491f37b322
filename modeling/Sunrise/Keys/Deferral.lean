import Sunrise.Keys.Backfill
import Sunrise.Vault.Parked

/-!
# Ops that wait for their key

An op and the `key_envelope` that carries its key travel on different streams, and either
may come first. An op of an epoch that this replica holds no key of is put in
`deferred_ops`, and every key that is learned drains the ops of its epoch: they are deleted
there, and each goes the whole way of a delivery again. An op of an epoch with keys, none of
which opens it, is refused and leaves no trace. So where two devices minted one epoch, and
the key of one of them is held, an op under the other's is lost when it comes before its
key. This module says exactly when the order of the two does not matter.

A key opens what was sealed under it, and nothing else. Draining may learn further keys, and
so nest; `process` keeps the ops that are still to be applied on a stack.

* `Inbox.run` — deliveries, and keys that come some other way.

## Main results

* `taken_either_order_iff` — when an op is taken in both orders.
-/

namespace Sunrise

open Engine OpLog

/-! ### Deliveries -/

/-- What this build makes of an op it has opened. -/
inductive Reading where
  | applied
  /-- It is of a newer build: kept, and not applied. -/
  | parked
  | refused
deriving DecidableEq, Repr

/-- An op as it is delivered. -/
structure SealedOp (K C : Type) where
  /-- Its position, clock and links, and what the log makes of it. -/
  env : Envelope
  epoch : ℕ
  key : K
  reading : Reading
  control : Option (ControlBody C)
  control_inner : control.isSome → env.inner = .control

/-- What a delivery reads of the world: the clock, and the randomness of its mints. -/
structure Moment (K : Type) where
  nowMs : ℕ
  fresh : Fresh K

/-- A row of `deferred_ops`. -/
structure DeferredOp (K C : Type) where
  op : SealedOp K C
  receivedAtMs : ℕ

/-- The tables a delivery writes. -/
structure Inbox (K C : Type) where
  /-- The op log and the merge tables, with the ops folded. -/
  vault : Vault × List Op
  engine : Engine K C
  deferred : List (DeferredOp K C)

open Inbox

def SealedOp.slot {K C : Type} (op : SealedOp K C) : Keychain.Slot := (op.env.ref.stream, op.epoch)

def SealedOp.delivery {K C : Type} (op : SealedOp K C) (m : Moment K) (body : ControlBody C) :
    ControlDelivery C :=
  ⟨op.env.ref, op.env.hlc, op.epoch, body, m.nowMs⟩

/-- The envelope is sealed to the device, or to its account's identity. -/
def KeyEnvelope.isFor {C : Type} (p : KeyEnvelope C) (self : Device) : Bool :=
  match p.recipient with
  | .device d => decide (d = self)
  | .identity _ => true

namespace Engine
variable {K C : Type} (w : Node K C)

/-- The epoch a control op teaches this device a new key of. -/
def learned (σ : Engine K C) (dl : ControlDelivery C) : Option Keychain.Slot :=
  match dl.body with
  | .keyEnvelope p =>
    if min ((σ.keychain.maxEpoch p.stream).getD 0 + maxEpochLeap) epochMax < p.epoch then none
    else if !p.isFor w.device.self then none
    else match σ.openKeyEnvelope w p with
      | none => none
      | some key =>
        if w.crypto.keyId key ≠ p.keyId then none
        else if (σ.keychain.absorbStreamKey w.crypto.keyId p.stream p.epoch key
          (.envelope dl.ref.device)).2 then some (p.stream, p.epoch) else none
  | _ => none

end Engine

namespace Inbox
variable {K C : Type} [DecidableEq K] (w : Node K C) (c : Codec) (ch : ChainHash) (m : Moment K)

def keysFor (σ : Inbox K C) (op : SealedOp K C) : List K :=
  σ.engine.keychain.streamKeysAt op.env.ref.stream op.epoch

def opens (σ : Inbox K C) (op : SealedOp K C) : Bool := decide (op.key ∈ σ.keysFor op)

/-- The op's sender is a member, or the op opens and is the certificate that makes it one. -/
def known (σ : Inbox K C) (op : SealedOp K C) : Bool :=
  (σ.engine.account.devices.find op.env.ref.device).isSome ||
    match op.control with
    | some body => σ.opens op && admits w σ.engine (op.delivery m body)
    | none => false

/-- Put an op aside whose key has not come. -/
def defer (σ : Inbox K C) (op : SealedOp K C) : Inbox K C :=
  if ∃ row ∈ σ.deferred, row.op.env.ref = op.env.ref then σ
  else { σ with deferred := σ.deferred ++ [⟨op, m.nowMs⟩] }

/-- The ops put aside for an epoch, in the order they were received. -/
def waiting (σ : Inbox K C) (slot : Keychain.Slot) : List (SealedOp K C) :=
  ((σ.deferred.filter fun row => row.op.slot = slot).insertionSort fun a b =>
    a.receivedAtMs ≤ b.receivedAtMs).map (·.op)

/-- Apply a control op that the log took; the ops that a new key releases come with it. -/
def applyControl (σ : Inbox K C) (dl : ControlDelivery C) : Inbox K C × List (SealedOp K C) :=
  let engine := (σ.engine.record false dl).applyControlOp w m.fresh dl
  match learned w σ.engine dl with
  | none => ({ σ with engine }, [])
  | some slot =>
    ({ σ with engine, deferred := σ.deferred.filter fun row => row.op.slot ≠ slot },
      σ.waiting slot)

/-- Apply one delivery; the ops that a new key releases come with it. -/
def step (σ : Inbox K C) (op : SealedOp K C) : Inbox K C × List (SealedOp K C) :=
  if !σ.known w m op then (σ, [])
  else if σ.keysFor op = [] then (σ.defer m op, [])
  else if !σ.opens op then (σ, [])
  else match op.reading with
    | .refused => (σ, [])
    | .parked => ({ σ with vault := Vault.deliver c ch σ.vault ⟨op.env, false⟩ }, [])
    | .applied =>
      let σ' := { σ with vault := Vault.deliver c ch σ.vault ⟨op.env, true⟩ }
      if !σ.vault.1.log.takes op.env then (σ', [])
      else match op.control with
        | none => (σ', [])
        | some body => σ'.applyControl w m (op.delivery m body)

omit [DecidableEq K] in
theorem length_waiting (σ : Inbox K C) (slot : Keychain.Slot) :
    (σ.deferred.filter fun row => row.op.slot ≠ slot).length + (σ.waiting slot).length =
      σ.deferred.length := by
  have h := List.length_eq_length_filter_add (l := σ.deferred) fun row =>
    decide (row.op.slot = slot)
  rw [waiting, List.length_map, List.length_insertionSort]
  simp only [ne_eq, decide_not]
  omega

theorem length_step (σ : Inbox K C) (op : SealedOp K C) :
    ((σ.step w c ch m op).2 = [] ∧
      (σ.step w c ch m op).1.deferred.length ≤ σ.deferred.length + 1) ∨
    (σ.step w c ch m op).1.deferred.length + (σ.step w c ch m op).2.length =
      σ.deferred.length := by
  have hkept : ∀ σ' : Inbox K C, σ'.deferred = σ.deferred →
      (([] : List (SealedOp K C)) = [] ∧ σ'.deferred.length ≤ σ.deferred.length + 1) ∨
        σ'.deferred.length + ([] : List (SealedOp K C)).length = σ.deferred.length := by
    intro σ' h
    exact .inl ⟨rfl, by rw [h]; omega⟩
  unfold step
  split
  · exact hkept σ rfl
  split
  · left
    unfold defer
    split
    · exact ⟨rfl, by simp⟩
    · exact ⟨rfl, by simp⟩
  split
  · exact hkept σ rfl
  split
  · exact hkept σ rfl
  · exact hkept _ rfl
  · dsimp only
    split
    · exact hkept _ rfl
    · split
      · exact hkept _ rfl
      · unfold applyControl
        dsimp only
        split
        · exact hkept _ rfl
        · exact .inr (σ.length_waiting _)

/-- Apply the deliveries on the stack. What one of them releases goes before the others. -/
def process (σ : Inbox K C) : List (SealedOp K C) → Inbox K C
  | [] => σ
  | op :: stack =>
    let next := σ.step w c ch m op
    process next.1 (next.2 ++ stack)
termination_by stack => (σ.deferred.length + stack.length, stack.length)
decreasing_by
  have h := length_step w c ch m σ op
  simp only [List.length_append, List.length_cons, Prod.lex_def]
  rcases h with ⟨hnil, hle⟩ | heq
  · rw [hnil]
    simp only [List.length_nil]
    omega
  · omega

/-- Take a delivery. -/
def applyRemote (σ : Inbox K C) (op : SealedOp K C) : Inbox K C := σ.process w c ch m [op]

end Inbox

/-- What can happen to an inbox. -/
inductive Inbox.Event (K C : Type) where
  | deliver (m : Moment K) (op : SealedOp K C)
  /-- A key arrives by pairing, a key bundle or a recovery blob. -/
  | absorb (stream : StreamId) (epoch : ℕ) (key : K) (source : KeySource)
  | mint (stream : StreamId) (fresh : K)

namespace Inbox
variable {K C : Type} [DecidableEq K] (w : Node K C) (c : Codec) (ch : ChainHash)

def Event.env : Event K C → Option Envelope
  | .deliver _ op => some op.env
  | _ => none

def handle (σ : Inbox K C) : Event K C → Inbox K C
  | .deliver m op => σ.applyRemote w c ch m op
  | .absorb stream epoch key source => { σ with engine := { σ.engine with
      keychain := (σ.engine.keychain.absorbStreamKey w.crypto.keyId stream epoch key source).1 } }
  | .mint stream fresh => { σ with engine := { σ.engine with
      keychain := (σ.engine.keychain.mintEpoch w.crypto.keyId stream fresh).1 } }

/-- A replica that holds no key and no op yet. -/
def start (account : Account) (revocations : Revocations) : Inbox K C :=
  ⟨(∅, []), ⟨account, revocations, ∅, [], []⟩, []⟩

def run (σ : Inbox K C) (events : List (Event K C)) : Inbox K C := events.foldl (handle w c ch) σ

end Inbox

/-! ### What a control op keeps of the engine -/

namespace Keychain
variable {K : Type} {kc : Keychain K} {keyId : K → KeyId} {stream : StreamId} {epoch : ℕ}

theorem mem_streamKeysAt {key : K} : key ∈ kc.streamKeysAt stream epoch ↔
    ∃ row ∈ kc.keys, row.stream = stream ∧ row.epoch = epoch ∧ row.key = key := by
  simp [streamKeysAt, mem_ofStream, and_assoc]

/-- Every key is filed under its own id. -/
def Named (keyId : K → KeyId) (kc : Keychain K) : Prop :=
  ∀ row ∈ kc.keys, row.keyId = keyId row.key

theorem named_empty : (∅ : Keychain K).Named keyId := by
  intro row hrow
  cases hrow

theorem Named.insertStreamKeyRow (h : kc.Named keyId) (key : K) (source : KeySource) :
    (kc.insertStreamKeyRow keyId stream epoch key source).1.Named keyId := by
  intro row hrow
  cases mem_insertStreamKeyRow hrow with
  | inl hold => exact h row hold
  | inr heq => rw [heq]

theorem Named.mem_insertStreamKeyRow (h : kc.Named keyId) (hinj : Function.Injective keyId)
    (key : K) (source : KeySource) :
    key ∈ (kc.insertStreamKeyRow keyId stream epoch key source).1.streamKeysAt stream epoch := by
  have hex : ∃ row ∈ (kc.insertStreamKeyRow keyId stream epoch key source).1.keys,
      row.Same ⟨stream, epoch, keyId key, key⟩ := exists_same_insertStreamKeyRow epoch key source
  obtain ⟨row, hrow, hstream, hepoch, hid⟩ := hex
  have hkey : row.key = key := hinj ((h.insertStreamKeyRow key source row hrow).symm.trans hid)
  exact mem_streamKeysAt.mpr ⟨row, hrow, hstream, hepoch, hkey⟩

end Keychain

namespace Engine
variable {K C : Type} {w : Node K C} {fresh : Fresh K} {σ σ' σ'' : Engine K C}

/-- What a control op keeps of the engine's tables: it takes no key, no device and no op
away, and files keys under their own ids. -/
structure Grows (w : Node K C) (σ σ' : Engine K C) : Prop where
  keys : σ.keychain.keys ⊆ σ'.keychain.keys
  named : σ.keychain.Named w.crypto.keyId → σ'.keychain.Named w.crypto.keyId
  certed : ∀ d, (σ.account.devices.find d).isSome → (σ'.account.devices.find d).isSome
  log : σ.log ⊆ σ'.log

theorem grows_refl (σ : Engine K C) : Grows w σ σ :=
  ⟨List.Subset.refl _, id, fun _ h => h, List.Subset.refl _⟩

theorem Grows.trans (h₁ : Grows w σ σ') (h₂ : Grows w σ' σ'') : Grows w σ σ'' :=
  ⟨List.Subset.trans h₁.keys h₂.keys, fun h => h₂.named (h₁.named h),
    fun d h => h₂.certed d (h₁.certed d h), List.Subset.trans h₁.log h₂.log⟩

theorem grows_foldl {α : Type} {f : Engine K C → α → Engine K C} (hf : ∀ a σ, Grows w σ (f σ a))
    (l : List α) (σ : Engine K C) : Grows w σ (l.foldl f σ) := by
  induction l generalizing σ with
  | nil => exact grows_refl σ
  | cons a l ih => exact (hf a σ).trans (ih _)

theorem grows_insertStreamKeyRow (stream : StreamId) (epoch : ℕ) (key : K) (source : KeySource) :
    Grows w σ { σ with keychain :=
      (σ.keychain.insertStreamKeyRow w.crypto.keyId stream epoch key source).1 } where
  keys := Keychain.keys_subset_insertStreamKeyRow epoch key source
  named h := h.insertStreamKeyRow key source
  certed _ h := h
  log := List.Subset.refl _

theorem grows_account {account : Account}
    (h : ∀ d, (σ.account.devices.find d).isSome → (account.devices.find d).isSome) :
    Grows w σ { σ with account } :=
  ⟨List.Subset.refl _, id, h, List.Subset.refl _⟩

theorem grows_revocations {revocations : Revocations} : Grows w σ { σ with revocations } :=
  ⟨List.Subset.refl _, id, fun _ h => h, List.Subset.refl _⟩

theorem grows_recordEnvelopeRecipient (stream : StreamId) (epoch : ℕ) (d : Device) :
    Grows w σ (σ.recordEnvelopeRecipient stream epoch d) := by
  unfold recordEnvelopeRecipient
  split
  · exact grows_refl σ
  · exact ⟨List.Subset.refl _, id, fun _ h => h, List.Subset.refl _⟩

theorem grows_appendEnvelope (p : KeyEnvelope C) : Grows w σ (σ.appendEnvelope w p) := by
  have hlog : Grows w σ (σ.logOwn w (.keyEnvelope p)) :=
    ⟨List.Subset.refl _, id, fun _ h => h, List.subset_append_left _ _⟩
  unfold appendEnvelope
  split
  · exact hlog.trans (grows_recordEnvelopeRecipient _ _ _)
  · exact hlog

theorem grows_ensureMeta : Grows w σ (σ.ensureMeta w fresh) := by
  unfold ensureMeta
  split
  · exact grows_refl σ
  · have hmint : Grows w σ (σ.mintEpoch w fresh metaStream).1 :=
      grows_insertStreamKeyRow metaStream (σ.keychain.nextEpoch metaStream)
        (fresh metaStream (σ.keychain.nextEpoch metaStream)) .minted
    exact hmint.trans (grows_foldl (fun p _ => grows_appendEnvelope p) _ _)

theorem grows_backfillEpoch {d : Device} {pk : PubKey} (held : Keychain.Slot) :
    Grows w σ (backfillEpoch w fresh d pk σ held) := by
  unfold backfillEpoch
  split
  · exact grows_refl σ
  · split
    · exact grows_refl σ
    · split
      · exact grows_refl σ
      · exact grows_ensureMeta.trans (grows_appendEnvelope _)

theorem grows_backfillKeyEnvelopes (d : Device) (pk : PubKey) :
    Grows w σ (σ.backfillKeyEnvelopes w fresh d pk) := by
  unfold backfillKeyEnvelopes
  split
  · exact grows_refl σ
  · split
    · exact grows_refl σ
    · split
      · exact grows_refl σ
      · exact grows_foldl (fun held _ => grows_backfillEpoch held) _ σ

theorem grows_applyCertPublish (sender : Device) (blob : Bytes) :
    Grows w σ (σ.applyCertPublish w fresh sender blob) := by
  unfold applyCertPublish
  split
  · exact grows_refl σ
  · have hbind : Grows w σ
        { σ with account := σ.account.applyCertPublish w.device sender blob } :=
      grows_account fun _ h => Account.isSome_applyCertPublish h
    exact hbind.trans (grows_backfillKeyEnvelopes _ _)

theorem grows_absorbKeyEnvelope (sender : Device) (p : KeyEnvelope C) :
    Grows w σ (σ.absorbKeyEnvelope w sender p) := by
  unfold absorbKeyEnvelope
  split
  · exact grows_refl σ
  · split
    · exact grows_refl σ
    · exact (grows_insertStreamKeyRow _ _ _ _).trans (grows_recordEnvelopeRecipient _ _ _)

theorem grows_applyKeyEnvelope (sender : Device) (p : KeyEnvelope C) :
    Grows w σ (σ.applyKeyEnvelope w sender p) := by
  unfold applyKeyEnvelope
  split
  · exact grows_refl σ
  · split
    · exact grows_absorbKeyEnvelope sender p
    · split
      · exact grows_absorbKeyEnvelope sender p
      · split
        · exact grows_refl σ
        · exact grows_recordEnvelopeRecipient _ _ _

/-- **A control op takes nothing away.** -/
theorem grows_applyControlOp (dl : ControlDelivery C) :
    Grows w σ (σ.applyControlOp w fresh dl) := by
  unfold applyControlOp
  split
  · exact grows_applyKeyEnvelope _ _
  · exact grows_revocations
  · exact grows_applyCertPublish _ _
  · exact grows_account fun _ h => Account.isSome_applyTransition h

theorem grows_record {own : Bool} {dl : ControlDelivery C} : Grows w σ (σ.record own dl) :=
  ⟨List.Subset.refl _, id, fun _ h => h, List.subset_append_left _ _⟩

/-- The envelope hands this device the key: it is of an epoch that may be named, for this
device, and opens to the key it says. -/
structure Hands (w : Node K C) (σ : Engine K C) (p : KeyEnvelope C) (key : K) : Prop where
  leap : p.epoch ≤ min ((σ.keychain.maxEpoch p.stream).getD 0 + maxEpochLeap) epochMax
  mine : p.isFor w.device.self = true
  opened : σ.openKeyEnvelope w p = some key
  hinted : w.crypto.keyId key = p.keyId

theorem applyKeyEnvelope_of_hands {p : KeyEnvelope C} {key : K} (h : Hands w σ p key)
    (sender : Device) : (σ.applyKeyEnvelope w sender p).keychain =
      (σ.keychain.absorbStreamKey w.crypto.keyId p.stream p.epoch key (.envelope sender)).1 := by
  have habsorb : (σ.absorbKeyEnvelope w sender p).keychain =
      (σ.keychain.absorbStreamKey w.crypto.keyId p.stream p.epoch key (.envelope sender)).1 := by
    unfold absorbKeyEnvelope
    rw [h.opened]
    simp [h.hinted]
  have hmine := h.mine
  unfold applyKeyEnvelope
  rw [if_neg (not_lt.mpr h.leap)]
  unfold KeyEnvelope.isFor at hmine
  split
  · exact habsorb
  · next other heq =>
    rw [heq] at hmine
    rw [if_pos (of_decide_eq_true hmine)]
    exact habsorb

theorem learned_of_hands {p : KeyEnvelope C} {key : K} (h : Hands w σ p key)
    (dl : ControlDelivery C) (hbody : dl.body = .keyEnvelope p) :
    learned w σ dl =
      if (σ.keychain.absorbStreamKey w.crypto.keyId p.stream p.epoch key
        (.envelope dl.ref.device)).2 then some (p.stream, p.epoch) else none := by
  unfold learned
  rw [hbody]
  simp only
  rw [if_neg (not_lt.mpr h.leap), h.mine, h.opened]
  simp [h.hinted]

end Engine

/-! ### What a delivery keeps of the vault -/

/-- Op hashes do not collide among the ops. -/
def OneHash (ops : List Envelope) : Prop := ∀ a ∈ ops, ∀ b ∈ ops, a.opHash = b.opHash → a = b

namespace OpLog
variable {log : OpLog} {dl : Delivery} {r : OpRef}

theorem heldAt_deliver_of_ne (c : ChainHash) (hr : r.seq ≤ storeMax) (hne : r ≠ dl.env.ref) :
    (log.deliver c dl).heldAt r = log.heldAt r := by
  rcases log.rows_deliver c dl with ⟨hcore, -⟩ | ⟨row, -, -, -, -, hframe, -⟩
  · exact heldAt_of_frame (frame_of_skeleton (skeleton_of_core hcore)) r
  · rw [heldAt_of_frame hframe, heldAt_insertRow row hr, if_neg hne]

theorem accepts_of_heldAt {log' : OpLog} {env : Envelope} (h : log.Accepts env)
    (hheld : log'.heldAt env.ref = log.heldAt env.ref)
    (hfloor : (log'.devs env.ref.stream env.ref.device).floor =
      (log.devs env.ref.stream env.ref.device).floor) : log'.Accepts env := by
  obtain ⟨hcov, hmax, hrow⟩ := h
  have hrow' : log'.rowAt env.ref = none := by
    rw [← Option.not_isSome_iff_eq_none, isSome_rowAt, hheld, ← isSome_rowAt, hrow]
    simp
  refine ⟨?_, hmax, hrow'⟩
  unfold isCovered at hcov ⊢
  rw [hfloor, hrow']
  rwa [hrow] at hcov

theorem readAt_deliver_eq (c : ChainHash) {env : Envelope} (hr : r.seq ≤ storeMax)
    (h : log.readAt r = some env) : (log.deliver c dl).readAt r = some env := by
  rcases log.rows_deliver c dl with ⟨hcore, -⟩ | ⟨row, -, hparked, -, -, hframe, hrow, -⟩
  · rw [readAt_of_frame (frame_of_skeleton (skeleton_of_core hcore)), h]
  · have hne : r ≠ dl.env.ref := by
      intro heq
      rw [heq, readAt_eq_none_of_rows hrow] at h
      cases h
    rw [readAt_of_frame hframe, readAt_insertRow hr, if_neg hne, h]

end OpLog

namespace Vault
variable {c : Codec} {ops : List Envelope} {w : Vault × List Op} {env : Envelope}

/-- What is kept of a vault that deliveries of the ops write. -/
structure Within (c : Codec) (ops : List Envelope) (w : Vault × List Op) : Prop where
  inv : Inv c w.1 w.2
  settled : w.1.log.Settled
  held : ∀ r env, r.seq ≤ storeMax → w.1.log.heldAt r = some env → env ∈ ops

theorem within_empty (c : Codec) (ops : List Envelope) : Within c ops (∅, []) where
  inv := inv_empty c
  settled _ _ := DeviceLog.settled_empty
  held r env _ h := by
    cases (show none = some env from h)

theorem Within.mem_of_rowAt (h : Within c ops w) {r : OpRef} {row : LogRow}
    (hrow : w.1.log.rowAt r = some row) : row.env ∈ ops := by
  have hstored : w.1.log.rowAt (storedRef r) = some row := by
    rw [← hrow]
    simp [rowAt, storedRef, i64Of_eq_self.mpr (i64Of_le r.seq)]
  exact h.held (storedRef r) row.env (i64Of_le r.seq) (by rw [heldAt, hstored]; rfl)

theorem log_deliver (ch : ChainHash) (dl : OpLog.Delivery) (h : Within c ops w)
    (hh : OneHash ops) (henv : dl.env ∈ ops) :
    Inv c (deliver c ch w dl).1 (deliver c ch w dl).2 ∧
      ((deliver c ch w dl).1.log = w.1.log.deliver ch dl ∨
        ¬ dl.env.Fits ∧ (deliver c ch w dl).1.log.core = w.1.log.core) ∧
      ∀ op ∈ w.2, op ∈ (deliver c ch w dl).2 := by
  obtain ⟨env, readable⟩ := dl
  cases readable with
  | true =>
    have hsame : ∀ old, w.1.log.rowAt env.ref = some old → old.parked = true →
        old.env.opHash = env.opHash → old.env = env := by
      intro old hold _ heq
      exact hh _ (h.mem_of_rowAt hold) _ henv heq
    obtain ⟨hinv, hfits, hnot⟩ := h.inv.receive ch hsame
    refine ⟨hinv, ?_, fun op hop => List.mem_append_left _ hop⟩
    by_cases hf : env.Fits
    · exact .inl (hfits hf)
    · exact .inr ⟨hf, hnot hf⟩
  | false =>
    have hinv : Inv c { w.1 with log := w.1.log.deliver ch ⟨env, false⟩ } w.2 :=
      h.inv.of_holds fun op => ⟨.of_readAt fun r hr =>
        (readAt_deliver_unreadable ch w.1.log env hr).symm, .of_readAt fun r hr =>
          readAt_deliver_unreadable ch w.1.log env hr⟩
    exact ⟨hinv, .inl rfl, fun op hop => hop⟩

/-- What a delivery leaves of a vault. -/
structure Keeps (w w' : Vault × List Op) (env : Envelope) : Prop where
  read : ∀ r e, r.seq ≤ storeMax → w.1.log.readAt r = some e → w'.1.log.readAt r = some e
  floor : ∀ s dev, (w'.1.log.devs s dev).floor = (w.1.log.devs s dev).floor
  heldAt : ∀ r, r.seq ≤ storeMax → r ≠ env.ref → w'.1.log.heldAt r = w.1.log.heldAt r
  folded : ∀ op ∈ w.2, op ∈ w'.2

/-- **A delivery keeps the vault**: what is read, the floors, the other positions, and what
was folded. -/
theorem Within.deliver (h : Within c ops w) (ch : ChainHash) (dl : OpLog.Delivery)
    (hh : OneHash ops) (henv : dl.env ∈ ops) :
    Within c ops (deliver c ch w dl) ∧ Keeps w (Vault.deliver c ch w dl) dl.env := by
  obtain ⟨hinv, hlog, hfolded⟩ := log_deliver ch dl h hh henv
  rcases hlog with hlog | ⟨-, hcore⟩
  · refine ⟨⟨hinv, ?_, ?_⟩, ⟨?_, ?_, ?_, hfolded⟩⟩
    · rw [hlog]
      exact (h.settled.deliver ch dl).1
    · intro r env hr hheld
      rw [hlog] at hheld
      rcases w.1.log.rows_deliver ch dl with ⟨hcore, -⟩ |
          ⟨row, -, -, -, -, hframe, hrow, -⟩
      · rw [heldAt_of_frame (frame_of_skeleton (skeleton_of_core hcore))] at hheld
        exact h.held r env hr hheld
      · rw [heldAt_of_frame hframe, heldAt_insertRow row hr] at hheld
        split at hheld
        · cases hheld
          rcases hrow with ⟨-, heq⟩ | ⟨old, hold, -, -, heq⟩
          · rw [heq]
            exact henv
          · rw [heq]
            exact h.mem_of_rowAt hold
        · exact h.held r env hr hheld
    · intro r e hr hread
      rw [hlog]
      exact readAt_deliver_eq ch hr hread
    · intro s dev
      rw [hlog, floor_deliver]
    · intro r hr hne
      rw [hlog, heldAt_deliver_of_ne ch hr hne]
  · have hframe := frame_of_skeleton (skeleton_of_core hcore)
    refine ⟨⟨hinv, ?_, ?_⟩, ⟨?_, ?_, ?_, hfolded⟩⟩
    · exact (h.settled.of_skeleton (skeleton_of_core hcore).symm).1
    · intro r env hr hheld
      rw [heldAt_of_frame hframe] at hheld
      exact h.held r env hr hheld
    · intro r e _ hread
      rw [readAt_of_frame hframe, hread]
    · intro s dev
      exact floor_of_frame hframe s dev
    · intro r _ _
      exact heldAt_of_frame hframe r

theorem Within.readAt_deliver (h : Within c ops w) (ch : ChainHash) (hh : OneHash ops)
    (henv : env ∈ ops) (hfits : env.Fits) (hacc : w.1.log.Accepts env) :
    (Vault.deliver c ch w ⟨env, true⟩).1.log.readAt env.ref = some env := by
  obtain ⟨-, hlog, -⟩ := log_deliver ch ⟨env, true⟩ h hh henv
  obtain ⟨hcov, hmax, hrow⟩ := hacc
  have htakes : w.1.log.takes env = true := by
    simp [OpLog.takes, hcov, hmax, hrow]
  rcases hlog with hlog | ⟨hnot, -⟩
  · rw [hlog]
    have hread := OpLog.readAt_receive ch htakes (r := env.ref) ?_ hmax
    · simpa [OpLog.deliver] using hread
    · intro old hold
      rw [hrow] at hold
      cases hold
  · exact absurd hfits hnot

end Vault

/-! ### What a step keeps of the inbox -/

namespace Inbox
variable {K C : Type} [DecidableEq K] {w : Node K C} {c : Codec} {ch : ChainHash} {m : Moment K}
  {σ : Inbox K C} {op x : SealedOp K C} {ops : List Envelope} {stack : List (SealedOp K C)}

/-- All that a step can do. -/
structure StepOf (w : Node K C) (c : Codec) (ch : ChainHash) (σ : Inbox K C) (op : SealedOp K C)
    (σ' : Inbox K C) (released : List (SealedOp K C)) : Prop where
  vault : σ'.vault = σ.vault ∨ ∃ b, σ'.vault = Vault.deliver c ch σ.vault ⟨op.env, b⟩
  engine : Engine.Grows w σ.engine σ'.engine
  deferred : ∀ row ∈ σ'.deferred, row ∈ σ.deferred ∨ row.op = op
  released : ∀ x ∈ released, ∃ row ∈ σ.deferred, row.op = x

omit [DecidableEq K] in
theorem exists_of_mem_waiting {slot : Keychain.Slot} (h : x ∈ σ.waiting slot) :
    ∃ row ∈ σ.deferred, row.op = x := by
  obtain ⟨row, hrow, rfl⟩ := List.mem_map.mp h
  rw [List.mem_insertionSort] at hrow
  exact ⟨row, (List.mem_filter.mp hrow).1, rfl⟩

theorem stepOf_step (w : Node K C) (c : Codec) (ch : ChainHash) (m : Moment K) (σ : Inbox K C)
    (op : SealedOp K C) :
    StepOf w c ch σ op (σ.step w c ch m op).1 (σ.step w c ch m op).2 := by
  have hkept : StepOf w c ch σ op σ [] :=
    ⟨.inl rfl, grows_refl _, fun _ h => .inl h, by simp⟩
  have hvault : ∀ b, StepOf w c ch σ op
      { σ with vault := Vault.deliver c ch σ.vault ⟨op.env, b⟩ } [] := fun b =>
    ⟨.inr ⟨b, rfl⟩, grows_refl _, fun _ h => .inl h, by simp⟩
  unfold step
  split
  · exact hkept
  split
  · unfold defer
    split
    · exact hkept
    · refine ⟨.inl rfl, grows_refl _, ?_, by simp⟩
      intro row hrow
      rcases List.mem_append.mp hrow with hrow | hrow
      · exact .inl hrow
      · rw [List.mem_singleton.mp hrow]
        exact .inr rfl
  split
  · exact hkept
  split
  · exact hkept
  · exact hvault false
  · dsimp only
    split
    · exact hvault true
    · split
      · exact hvault true
      · next body _ =>
        have hgrows : Engine.Grows w σ.engine ((σ.engine.record false (op.delivery m body)
            ).applyControlOp w m.fresh (op.delivery m body)) :=
          Engine.grows_record.trans (grows_applyControlOp _)
        unfold applyControl
        dsimp only
        split
        · exact ⟨.inr ⟨true, rfl⟩, hgrows, fun _ h => .inl h, by simp⟩
        · exact ⟨.inr ⟨true, rfl⟩, hgrows, fun _ h => .inl (List.mem_filter.mp h).1,
            fun _ h => exists_of_mem_waiting h⟩

/-- What every delivery of the ops keeps. -/
structure Ready (w : Node K C) (c : Codec) (ops : List Envelope) (σ : Inbox K C) : Prop where
  vault : Vault.Within c ops σ.vault
  named : σ.engine.keychain.Named w.crypto.keyId

theorem Ready.step (h : Ready w c ops σ) (ch : ChainHash) (m : Moment K) (hh : OneHash ops)
    (hx : x.env ∈ ops) :
    Ready w c ops (σ.step w c ch m x).1 ∧
      ∀ e, e ∈ ops → e.ref ≠ x.env.ref → σ.vault.1.log.Accepts e →
        (σ.step w c ch m x).1.vault.1.log.Accepts e := by
  have hs := stepOf_step w c ch m σ x
  rcases hs.vault with hv | ⟨b, hv⟩
  · refine ⟨⟨hv ▸ h.vault, hs.engine.named h.named⟩, ?_⟩
    intro e _ _ hacc
    rw [hv]
    exact hacc
  · obtain ⟨hwithin, hkeeps⟩ := h.vault.deliver ch ⟨x.env, b⟩ hh hx
    refine ⟨⟨hv ▸ hwithin, hs.engine.named h.named⟩, ?_⟩
    intro e _ hne hacc
    rw [hv]
    exact accepts_of_heldAt hacc (hkeeps.heldAt e.ref hacc.2.1 hne) (hkeeps.floor _ _)

/-! ### Stacks -/

theorem process_nil (σ : Inbox K C) : σ.process w c ch m [] = σ := by
  rw [process]

theorem process_cons (σ : Inbox K C) (op : SealedOp K C) (stack : List (SealedOp K C)) :
    σ.process w c ch m (op :: stack) =
      (σ.step w c ch m op).1.process w c ch m ((σ.step w c ch m op).2 ++ stack) := by
  rw [process]

theorem process_induction (w : Node K C) (c : Codec) (ch : ChainHash) (m : Moment K)
    {P : Inbox K C → Prop} {Q : SealedOp K C → Prop}
    (hstep : ∀ σ x, P σ → Q x → P (step w c ch m σ x).1) (hP : P σ)
    (hstack : ∀ x ∈ stack, Q x) (hdeferred : ∀ row ∈ σ.deferred, Q row.op) :
    P (σ.process w c ch m stack) ∧ ∀ row ∈ (σ.process w c ch m stack).deferred, Q row.op := by
  fun_induction process w c ch m σ stack with
  | case1 σ => exact ⟨hP, hdeferred⟩
  | case2 σ x stack next ih =>
    have hs := stepOf_step w c ch m σ x
    have hx := hstack x (by simp)
    refine ih (hstep σ x hP hx) ?_ ?_
    · intro y hy
      rcases List.mem_append.mp hy with hy | hy
      · obtain ⟨row, hrow, rfl⟩ := hs.released y hy
        exact hdeferred row hrow
      · exact hstack y (by simp [hy])
    · intro row hrow
      rcases hs.deferred row hrow with hold | hnew
      · exact hdeferred row hold
      · rw [hnew]
        exact hx

theorem process_append (σ : Inbox K C) (l₁ l₂ : List (SealedOp K C)) :
    σ.process w c ch m (l₁ ++ l₂) = (σ.process w c ch m l₁).process w c ch m l₂ := by
  fun_induction process w c ch m σ l₁ with
  | case1 σ => rfl
  | case2 σ x stack next ih =>
    rw [List.cons_append, process_cons, ← List.append_assoc]
    exact ih

/-! ### Waiting for its turn, and taken -/

/-- An op whose turn has not come: it will open, and its position is free. -/
structure Awaits (σ : Inbox K C) (op : SealedOp K C) : Prop where
  known : (σ.engine.account.devices.find op.env.ref.device).isSome
  held : op.key ∈ σ.keysFor op
  accepts : σ.vault.1.log.Accepts op.env

/-- An op that was taken: it is logged, and, where it is a control op, was applied. -/
structure Took (σ : Inbox K C) (op : SealedOp K C) : Prop where
  logged : σ.vault.1.log.readAt op.env.ref = some op.env
  applied : ∀ body, op.control = some body → ⟨false, op.env.ref.device, body⟩ ∈ σ.engine.log
  floor : (σ.vault.1.log.devs op.env.ref.stream op.env.ref.device).floorSeq < storeMax

omit [DecidableEq K] in
theorem mem_keysFor_of_grows {σ' : Inbox K C} (hg : Engine.Grows w σ.engine σ'.engine)
    (h : op.key ∈ σ.keysFor op) : op.key ∈ σ'.keysFor op := by
  obtain ⟨row, hrow, hrest⟩ := Keychain.mem_streamKeysAt.mp h
  exact Keychain.mem_streamKeysAt.mpr ⟨row, hg.keys hrow, hrest⟩

theorem Awaits.step (h : Awaits σ op) (ch : ChainHash) (m : Moment K)
    (hr : Ready w c ops σ) (hh : OneHash ops) (hop : op.env ∈ ops)
    (hx : x.env ∈ ops) (hne : op.env.ref ≠ x.env.ref) :
    Awaits (σ.step w c ch m x).1 op := by
  have hs := stepOf_step w c ch m σ x
  exact ⟨hs.engine.certed _ h.known, mem_keysFor_of_grows hs.engine h.held,
    (hr.step ch m hh hx).2 _ hop hne h.accepts⟩

theorem Took.step (h : Took σ op) (ch : ChainHash) (m : Moment K)
    (hr : Ready w c ops σ) (hh : OneHash ops) (hfits : op.env.Fits)
    (hx : x.env ∈ ops) : Took (σ.step w c ch m x).1 op := by
  have hs := stepOf_step w c ch m σ x
  have happlied : ∀ body, op.control = some body →
      ⟨false, op.env.ref.device, body⟩ ∈ (σ.step w c ch m x).1.engine.log :=
    fun body hbody => hs.engine.log (h.applied body hbody)
  rcases hs.vault with hv | ⟨b, hv⟩
  · exact ⟨by rw [hv]; exact h.logged, happlied, by rw [hv]; exact h.floor⟩
  · have hkeeps := (hr.vault.deliver ch ⟨x.env, b⟩ hh hx).2
    refine ⟨?_, happlied, ?_⟩
    · rw [hv]
      exact hkeeps.read _ _ hfits.1 h.logged
    · rw [hv, DeviceLog.floorSeq, hkeeps.floor]
      exact h.floor

theorem floorSeq_lt_of_accepts {log : OpLog} {env : Envelope} (h : log.Accepts env) :
    (log.devs env.ref.stream env.ref.device).floorSeq < storeMax := by
  obtain ⟨hcov, hmax, hrow⟩ := h
  unfold isCovered at hcov
  unfold DeviceLog.floorSeq
  cases hfloor : (log.devs env.ref.stream env.ref.device).floor with
  | none => simp [storeMax]
  | some f =>
    rw [hfloor, hrow] at hcov
    simp only [Option.isNone_none, Bool.and_true, decide_eq_false_iff_not, not_le] at hcov
    simp only [Option.map_some, Option.getD_some]
    omega

/-- **An op whose turn comes is taken.** -/
theorem Awaits.took (h : Awaits σ op) (ch : ChainHash) (m : Moment K)
    (hr : Ready w c ops σ) (hh : OneHash ops) (hop : op.env ∈ ops)
    (hfits : op.env.Fits) (hread : op.reading = .applied) :
    Took (σ.step w c ch m op).1 op := by
  have hknown : σ.known w m op = true := by simp [Inbox.known, h.known]
  have hopens : σ.opens op = true := decide_eq_true h.held
  have hne : σ.keysFor op ≠ [] := List.ne_nil_of_mem h.held
  have htakes : σ.vault.1.log.takes op.env = true := by
    obtain ⟨hcov, hmax, hrow⟩ := h.accepts
    simp [OpLog.takes, hcov, hmax, hrow]
  have hlogged := hr.vault.readAt_deliver ch hh hop hfits h.accepts
  have hfloor : ((Vault.deliver c ch σ.vault ⟨op.env, true⟩).1.log.devs op.env.ref.stream
      op.env.ref.device).floorSeq < storeMax := by
    rw [DeviceLog.floorSeq, (hr.vault.deliver ch ⟨op.env, true⟩ hh hop).2.floor]
    exact floorSeq_lt_of_accepts h.accepts
  unfold Inbox.step
  rw [hknown, hopens, hread, if_neg (by simp), if_neg hne, if_neg (by simp)]
  dsimp only
  rw [htakes, if_neg (by simp)]
  split
  · next hcontrol =>
    refine ⟨hlogged, fun body hbody => ?_, hfloor⟩
    rw [hcontrol] at hbody
    cases hbody
  · next body hcontrol =>
    have hmem : ∀ body', op.control = some body' → (⟨false, op.env.ref.device, body'⟩ :
        ControlEntry C) ∈ ((σ.engine.record false (op.delivery m body)).applyControlOp w m.fresh
          (op.delivery m body)).log := by
      intro body' hbody'
      rw [hcontrol] at hbody'
      cases hbody'
      have hgrows : Engine.Grows w (σ.engine.record false (op.delivery m body))
          ((σ.engine.record false (op.delivery m body)).applyControlOp w m.fresh
            (op.delivery m body)) := Engine.grows_applyControlOp (op.delivery m body)
      exact hgrows.log (by simp [Engine.record, SealedOp.delivery])
    unfold applyControl
    dsimp only
    split
    · exact ⟨hlogged, hmem, hfloor⟩
    · exact ⟨hlogged, hmem, hfloor⟩

/-! ### The two orders -/

/-- The op is in the log; the merge tables are the fold of the ops folded, and it is among
them where it is of no group, or all of its group is held; a control op was applied; and the
sync cursor counts it, where all before it is held. -/
structure Taken (c : Codec) (σ : Inbox K C) (op : SealedOp K C) : Prop where
  logged : σ.vault.1.log.readAt op.env.ref = some op.env
  merged : σ.vault.1.store = mergeOps c (fun _ => ∅) σ.vault.2
  folded : ∀ o, op.env.op = some o → (∀ g, o.group = some g → σ.vault.1.log.Complete g) →
    o ∈ σ.vault.2
  applied : ∀ body, op.control = some body → ⟨false, op.env.ref.device, body⟩ ∈ σ.engine.log
  counted : (σ.vault.1.log.devs op.env.ref.stream op.env.ref.device).Contiguous op.env.ref.seq →
    op.env.ref.seq ≤ (σ.vault.1.log.devs op.env.ref.stream op.env.ref.device).cursorSeq

omit [DecidableEq K] in
theorem Took.taken (h : Took σ op) (hr : Ready w c ops σ) (hfits : op.env.Fits) :
    Taken c σ op where
  logged := h.logged
  merged := hr.vault.inv.store
  folded o ho hg := by
    have href : o.stamp.opRef = op.env.ref := Vault.ref_stamp_of_op ho
    refine (hr.vault.inv.folded o).mpr ⟨⟨?_, op.env, ?_, ho⟩, hg⟩
    · rw [show o.stamp.seq = op.env.ref.seq from congrArg OpRef.seq href]
      exact hfits.1
    · rw [href, h.logged]
  applied := h.applied
  counted := (hr.vault.settled _ _).greatest h.floor _

theorem Took.process (h : Took σ op) (ch : ChainHash) (m : Moment K)
    (hr : Ready w c ops σ) (hh : OneHash ops) (hfits : op.env.Fits)
    (hstack : ∀ x ∈ stack, x.env ∈ ops)
    (hdeferred : ∀ row ∈ σ.deferred, row.op.env ∈ ops) :
    (Ready w c ops (σ.process w c ch m stack) ∧ Took (σ.process w c ch m stack) op) ∧
      ∀ row ∈ (σ.process w c ch m stack).deferred, row.op.env ∈ ops :=
  process_induction w c ch m (P := fun σ => Ready w c ops σ ∧ Took σ op)
    (Q := fun x => x.env ∈ ops)
    (fun _ _ hP hQ => ⟨(hP.1.step ch m hh hQ).1, hP.2.step ch m hP.1 hh hfits hQ⟩)
    ⟨hr, h⟩ hstack hdeferred

theorem Awaits.process (h : Awaits σ op) (ch : ChainHash) (m : Moment K)
    (hr : Ready w c ops σ) (hh : OneHash ops) (hop : op.env ∈ ops)
    (hstack : ∀ x ∈ stack, x.env ∈ ops ∧ op.env.ref ≠ x.env.ref)
    (hdeferred : ∀ row ∈ σ.deferred, row.op.env ∈ ops ∧ op.env.ref ≠ row.op.env.ref) :
    (Ready w c ops (σ.process w c ch m stack) ∧ Awaits (σ.process w c ch m stack) op) ∧
      ∀ row ∈ (σ.process w c ch m stack).deferred,
        row.op.env ∈ ops ∧ op.env.ref ≠ row.op.env.ref :=
  process_induction w c ch m
    (P := fun σ => Ready w c ops σ ∧ Awaits σ op)
    (Q := fun x => x.env ∈ ops ∧ op.env.ref ≠ x.env.ref)
    (fun _ _ hP hQ => ⟨(hP.1.step ch m hh hQ.1).1, hP.2.step ch m hP.1 hh hop hQ.1 hQ.2⟩)
    ⟨hr, h⟩ hstack hdeferred

/-- The op is a `key_envelope`, of a member, that opens here and hands over a key of an
epoch; its position is free. -/
structure HandsOver (w : Node K C) (σ : Inbox K C) (kenv : SealedOp K C) (slot : Keychain.Slot)
    (key : K) : Prop where
  awaits : Awaits σ kenv
  reading : kenv.reading = .applied
  body : ∃ p, kenv.control = some (.keyEnvelope p) ∧ (p.stream, p.epoch) = slot ∧
    Engine.Hands w σ.engine p key

theorem HandsOver.step {kenv : SealedOp K C} (h : HandsOver w σ kenv op.slot op.key)
    (c : Codec) (ch : ChainHash) (m : Moment K)
    (hinj : Function.Injective w.crypto.keyId)
    (hnamed : σ.engine.keychain.Named w.crypto.keyId) :
    op.key ∈ (σ.step w c ch m kenv).1.keysFor op ∧
      (σ.keysFor op = [] → (σ.step w c ch m kenv).2 = σ.waiting op.slot ∧
        (σ.step w c ch m kenv).1.deferred =
          σ.deferred.filter fun row => row.op.slot ≠ op.slot) := by
  obtain ⟨p, hcontrol, hslot, hands⟩ := h.body
  have hstream : p.stream = op.env.ref.stream := congrArg Prod.fst hslot
  have hepoch : p.epoch = op.epoch := congrArg Prod.snd hslot
  have hknown : σ.known w m kenv = true := by simp [known, h.awaits.known]
  have hopens : σ.opens kenv = true := decide_eq_true h.awaits.held
  have hne : σ.keysFor kenv ≠ [] := List.ne_nil_of_mem h.awaits.held
  have htakes : σ.vault.1.log.takes kenv.env = true := by
    obtain ⟨hcov, hmax, hrow⟩ := h.awaits.accepts
    simp [takes, hcov, hmax, hrow]
  have hstep : σ.step w c ch m kenv =
      ({ σ with vault := Vault.deliver c ch σ.vault ⟨kenv.env, true⟩ } : Inbox K C).applyControl w m
        (kenv.delivery m (.keyEnvelope p)) := by
    unfold Inbox.step
    rw [hknown, hopens, h.reading, if_neg (by simp), if_neg hne, if_neg (by simp)]
    dsimp only
    rw [htakes, hcontrol, if_neg (by simp)]
  have hkeychain : (σ.step w c ch m kenv).1.engine.keychain =
      (σ.engine.keychain.absorbStreamKey w.crypto.keyId p.stream p.epoch op.key
        (.envelope kenv.env.ref.device)).1 := by
    have hands' : Engine.Hands w (σ.engine.record false (kenv.delivery m (.keyEnvelope p))) p
        op.key := ⟨hands.leap, hands.mine, hands.opened, hands.hinted⟩
    rw [hstep]
    unfold applyControl
    dsimp only
    split <;> exact applyKeyEnvelope_of_hands hands' kenv.env.ref.device
  have hlearned := learned_of_hands hands (kenv.delivery m (.keyEnvelope p)) rfl
  refine ⟨?_, ?_⟩
  · rw [keysFor, hkeychain, ← hstream, ← hepoch]
    exact hnamed.mem_insertStreamKeyRow hinj op.key _
  · intro hnil
    have hnew : (σ.engine.keychain.absorbStreamKey w.crypto.keyId p.stream p.epoch op.key
        (.envelope kenv.env.ref.device)).2 = true := by
      simp only [Keychain.absorbStreamKey, Keychain.insertStreamKeyRow, Bool.not_eq_true',
        decide_eq_false_iff_not, not_exists, not_and]
      rintro row hrow ⟨hrs, hre, -⟩
      have hmem : row.key ∈ σ.keysFor op :=
        Keychain.mem_streamKeysAt.mpr ⟨row, hrow, hrs.trans hstream, hre.trans hepoch, rfl⟩
      rw [hnil] at hmem
      cases hmem
    have hlearned' : learned w σ.engine (kenv.delivery m (.keyEnvelope p)) =
        some op.slot := by
      rw [hlearned]
      exact (if_pos hnew).trans (congrArg some hslot)
    rw [hstep]
    unfold applyControl
    dsimp only
    rw [hlearned']
    exact ⟨rfl, rfl⟩

/-! ### Runs -/

omit [DecidableEq K] in
theorem ready_start (account : Account) (revocations : Revocations) :
    Ready w c ops (start account revocations : Inbox K C) :=
  ⟨Vault.within_empty c ops, Keychain.named_empty⟩

/-- **A run keeps the invariant.** -/
theorem ready_run (w : Node K C) (c : Codec) (ch : ChainHash) (hh : OneHash ops)
    (events : List (Event K C)) (hevents : ∀ ev ∈ events, ∀ env, ev.env = some env → env ∈ ops)
    (hr : Ready w c ops σ) (hdeferred : ∀ row ∈ σ.deferred, row.op.env ∈ ops) :
    Ready w c ops (σ.run w c ch events) ∧
      ∀ row ∈ (σ.run w c ch events).deferred, row.op.env ∈ ops := by
  induction events generalizing σ with
  | nil => exact ⟨hr, hdeferred⟩
  | cons ev events ih =>
    obtain ⟨hev, hrest⟩ := List.forall_mem_cons.mp hevents
    cases ev with
    | deliver m op =>
      have hop : ∀ x ∈ [op], x.env ∈ ops := by simpa using hev op.env rfl
      obtain ⟨hr', hdeferred'⟩ := process_induction w c ch m (P := Ready w c ops)
        (Q := fun x => x.env ∈ ops) (fun _ _ hP hQ => (hP.step ch m hh hQ).1) hr hop hdeferred
      exact ih hrest hr' hdeferred'
    | absorb stream epoch key source =>
      exact ih hrest ⟨hr.vault, hr.named.insertStreamKeyRow key source⟩ hdeferred
    | mint stream fresh =>
      exact ih hrest ⟨hr.vault, hr.named.insertStreamKeyRow fresh .minted⟩ hdeferred

/-! ### The order of the two -/

section Orders
variable {kenv : SealedOp K C} {m' : Moment K}

theorem Awaits.process_cons (h : Awaits σ op) (ch : ChainHash) (m : Moment K)
    (hr : Ready w c ops σ) (hh : OneHash ops) (hop : op.env ∈ ops)
    (hfits : op.env.Fits) (hread : op.reading = .applied)
    (hstack : ∀ x ∈ stack, x.env ∈ ops) (hdeferred : ∀ row ∈ σ.deferred, row.op.env ∈ ops) :
    (Ready w c ops (σ.process w c ch m (op :: stack)) ∧
      Took (σ.process w c ch m (op :: stack)) op) ∧
      ∀ row ∈ (σ.process w c ch m (op :: stack)).deferred, row.op.env ∈ ops := by
  have hs := stepOf_step w c ch m σ op
  rw [Inbox.process_cons]
  refine (h.took ch m hr hh hop hfits hread).process ch m (hr.step ch m hh hop).1 hh hfits ?_ ?_
  · intro x hx
    rcases List.mem_append.mp hx with hx | hx
    · obtain ⟨row, hrow, rfl⟩ := hs.released x hx
      exact hdeferred row hrow
    · exact hstack x hx
  · intro row hrow
    rcases hs.deferred row hrow with hold | hnew
    · exact hdeferred row hold
    · rw [hnew]
      exact hop

section

variable (hr : Ready w c ops σ) (hh : OneHash ops)
include hr hh

theorem taken_op_first_of_held (hop : op.env ∈ ops)
    (hkenv : kenv.env ∈ ops) (hawaits : Awaits σ op) (hread : op.reading = .applied)
    (hfits : op.env.Fits) (hdeferred : ∀ row ∈ σ.deferred, row.op.env ∈ ops) :
    Taken c ((σ.applyRemote w c ch m op).applyRemote w c ch m' kenv) op := by
  obtain ⟨⟨hr', htook⟩, hdeferred'⟩ := hawaits.process_cons ch m hr hh hop hfits
    hread (List.forall_mem_nil _) hdeferred
  obtain ⟨⟨hr'', htook'⟩, -⟩ := htook.process ch m' hr' hh hfits
    (show ∀ x ∈ [kenv], _ by simpa using hkenv) hdeferred'
  exact htook'.taken hr'' hfits

section

variable (hinj : Function.Injective w.crypto.keyId) (hop : op.env ∈ ops) (hkenv : kenv.env ∈ ops)
  (hknown : (σ.engine.account.devices.find op.env.ref.device).isSome)
  (hread : op.reading = .applied) (hfits : op.env.Fits) (hacc : σ.vault.1.log.Accepts op.env)
  (hdeferred : ∀ row ∈ σ.deferred, row.op.env ∈ ops ∧ op.env.ref ≠ row.op.env.ref)
  (hne : op.env.ref ≠ kenv.env.ref) (h : HandsOver w σ kenv op.slot op.key)

include hinj hop hkenv hknown hread hfits hacc hdeferred hne h

theorem taken_key_first :
    Taken c ((σ.applyRemote w c ch m kenv).applyRemote w c ch m' op) op := by
  have hs := stepOf_step w c ch m σ kenv
  have hready : Ready w c ops (σ.step w c ch m kenv).1 := (hr.step ch m hh hkenv).1
  have hawaits : Awaits (σ.step w c ch m kenv).1 op :=
    ⟨hs.engine.certed _ hknown, (h.step c ch m hinj hr.named).1,
      (hr.step ch m hh hkenv).2 _ hop hne hacc⟩
  have hstack : ∀ x ∈ (σ.step w c ch m kenv).2 ++ [], x.env ∈ ops ∧ op.env.ref ≠ x.env.ref := by
    intro x hx
    rw [List.append_nil] at hx
    obtain ⟨row, hrow, rfl⟩ := hs.released x hx
    exact hdeferred row hrow
  have hleft : ∀ row ∈ (σ.step w c ch m kenv).1.deferred,
      row.op.env ∈ ops ∧ op.env.ref ≠ row.op.env.ref := by
    intro row hrow
    rcases hs.deferred row hrow with hold | hnew
    · exact hdeferred row hold
    · rw [hnew]
      exact ⟨hkenv, hne⟩
  obtain ⟨⟨hr', ha'⟩, hdeferred'⟩ := hawaits.process ch m hready hh hop hstack hleft
  have hfirst : σ.applyRemote w c ch m kenv =
      (σ.step w c ch m kenv).1.process w c ch m ((σ.step w c ch m kenv).2 ++ []) := by
    rw [applyRemote, process_cons]
  rw [hfirst, applyRemote]
  have htook := (ha'.process_cons ch m' hr' hh hop hfits hread (List.forall_mem_nil _)
    fun row hrow => (hdeferred' row hrow).1).1
  exact htook.2.taken htook.1 hfits

theorem taken_op_first_of_none (hnil : σ.keysFor op = []) :
    Taken c ((σ.applyRemote w c ch m op).applyRemote w c ch m' kenv) op := by
  have hfirst : σ.applyRemote w c ch m op =
      { σ with deferred := σ.deferred ++ [⟨op, m.nowMs⟩] } := by
    have hdefer : ¬ ∃ row ∈ σ.deferred, row.op.env.ref = op.env.ref := by
      rintro ⟨row, hrow, heq⟩
      exact (hdeferred row hrow).2 heq.symm
    have hstep : σ.step w c ch m op = (σ.defer m op, []) := by
      simp [Inbox.step, known, hknown, hnil]
    rw [applyRemote, process_cons, hstep, List.append_nil, process_nil, defer, if_neg hdefer]
  rw [hfirst]
  generalize hσ₁ : ({ σ with deferred := σ.deferred ++ [⟨op, m.nowMs⟩] } : Inbox K C) = σ₁
  have hr₁ : Ready w c ops σ₁ := by
    rw [← hσ₁]
    exact ⟨hr.vault, hr.named⟩
  have h₁ : HandsOver w σ₁ kenv op.slot op.key := by
    rw [← hσ₁]
    exact ⟨⟨h.awaits.known, h.awaits.held, h.awaits.accepts⟩, h.reading, h.body⟩
  have hnil₁ : σ₁.keysFor op = [] := by
    rw [← hσ₁]
    exact hnil
  obtain ⟨hkey, hrelease⟩ := h₁.step c ch m' hinj hr₁.named
  obtain ⟨hreleased, hleft⟩ := hrelease hnil₁
  -- what is released is the op, and ops that were put aside before it
  have hperm : (σ₁.waiting op.slot).Perm
      (op :: (σ.deferred.filter fun row => row.op.slot = op.slot).map (·.op)) := by
    have hsort := (List.perm_insertionSort (fun a b : DeferredOp K C =>
      a.receivedAtMs ≤ b.receivedAtMs)
      (σ₁.deferred.filter fun row => row.op.slot = op.slot)).map (·.op)
    refine hsort.trans ?_
    rw [← hσ₁, List.filter_append, List.map_append]
    simp
  obtain ⟨l₁, l₂, hl⟩ := List.append_of_mem (hperm.mem_iff.mpr (List.mem_cons_self))
  rw [hl] at hperm
  have hothers : ∀ x ∈ l₁ ++ l₂, x.env ∈ ops ∧ op.env.ref ≠ x.env.ref := by
    intro x hx
    have hmem := (List.perm_middle.symm.trans hperm).cons_inv.mem_iff.mp hx
    obtain ⟨row, hrow, rfl⟩ := List.mem_map.mp hmem
    exact hdeferred row (List.mem_filter.mp hrow).1
  have hrest : ∀ row ∈ (σ₁.step w c ch m' kenv).1.deferred,
      row.op.env ∈ ops ∧ op.env.ref ≠ row.op.env.ref := by
    intro row hrow
    rw [hleft, ← hσ₁] at hrow
    obtain ⟨hrow, hslot⟩ := List.mem_filter.mp hrow
    rcases List.mem_append.mp hrow with hrow | hrow
    · exact hdeferred row hrow
    · rw [List.mem_singleton.mp hrow] at hslot
      simp at hslot
  -- the key is held, and its turn comes
  have hs := stepOf_step w c ch m' σ₁ kenv
  have hknown₁ : (σ₁.engine.account.devices.find op.env.ref.device).isSome := by
    rw [← hσ₁]
    exact hknown
  have hacc₁ : σ₁.vault.1.log.Accepts op.env := by
    rw [← hσ₁]
    exact hacc
  have hawaits : Awaits (σ₁.step w c ch m' kenv).1 op :=
    ⟨hs.engine.certed _ hknown₁, hkey, (hr₁.step ch m' hh hkenv).2 _ hop hne hacc₁⟩
  obtain ⟨⟨hr₂, ha₂⟩, hdeferred₂⟩ := hawaits.process ch m' (hr₁.step ch m' hh hkenv).1 hh hop
    (fun x hx => hothers x (List.mem_append_left _ hx)) hrest
  have htook := (ha₂.process_cons ch m' hr₂ hh hop hfits hread
    (fun x hx => (hothers x (List.mem_append_right _ hx)).1)
    fun row hrow => (hdeferred₂ row hrow).1).1
  rw [applyRemote, process_cons, hreleased, hl, List.append_nil, process_append]
  exact htook.2.taken htook.1 hfits

end

theorem not_taken_op_first (hkenv : kenv.env ∈ ops)
    (hacc : σ.vault.1.log.Accepts op.env)
    (hdeferred : ∀ row ∈ σ.deferred, row.op.env ∈ ops ∧ op.env.ref ≠ row.op.env.ref)
    (hop : op.env ∈ ops) (hne : op.env.ref ≠ kenv.env.ref) (hkeys : σ.keysFor op ≠ [])
    (hkey : op.key ∉ σ.keysFor op) :
    ¬ Taken c ((σ.applyRemote w c ch m op).applyRemote w c ch m' kenv) op := by
  have hclosed : σ.opens op = false := decide_eq_false hkey
  have hstep : σ.step w c ch m op = (σ, []) := by
    unfold Inbox.step
    cases hknown : σ.known w m op with
    | false => rfl
    | true => simp [hkeys, hclosed]
  have hfirst : σ.applyRemote w c ch m op = σ := by
    rw [applyRemote, process_cons, hstep, List.append_nil, process_nil]
  have hall := (process_induction w c ch m' (P := fun σ => Ready w c ops σ ∧
    σ.vault.1.log.Accepts op.env) (Q := fun x => x.env ∈ ops ∧ op.env.ref ≠ x.env.ref)
    (fun _ _ hP hQ => ⟨(hP.1.step ch m' hh hQ.1).1, (hP.1.step ch m' hh hQ.1).2 _ hop hQ.2 hP.2⟩)
    ⟨hr, hacc⟩ (show ∀ x ∈ [kenv], _ by simpa using ⟨hkenv, hne⟩) hdeferred).1
  intro htaken
  have hlogged := htaken.logged
  rw [hfirst] at hlogged
  have hrow := hall.2.2.2
  unfold applyRemote at hlogged
  simp [readAt, hrow] at hlogged

end

end Orders

end Inbox

/-- **When no op is lost to the order of arrival.** After any run, take an op of a member, at
a free position and not waiting already, and the `key_envelope` that hands over its key. With
the key first the op is taken. With the op first it is taken exactly where no key of its
epoch was held, or its own key was. -/
theorem taken_either_order_iff {K C : Type} [DecidableEq K] (w : Node K C) (c : Codec)
    (ch : ChainHash) (hinj : Function.Injective w.crypto.keyId) (account : Account)
    (revocations : Revocations) (events : List (Inbox.Event K C)) (op kenv : SealedOp K C)
    (m m' : Moment K)
    (hhash : OneHash (events.filterMap Inbox.Event.env ++ [op.env, kenv.env]))
    (hread : op.reading = .applied) (hfits : op.env.Fits) (hne : op.env.ref ≠ kenv.env.ref) :
    let σ := (start account revocations).run w c ch events
    (σ.engine.account.devices.find op.env.ref.device).isSome →
    σ.vault.1.log.Accepts op.env → (∀ row ∈ σ.deferred, row.op.env.ref ≠ op.env.ref) →
    Inbox.HandsOver w σ kenv op.slot op.key →
    Inbox.Taken c ((σ.applyRemote w c ch m kenv).applyRemote w c ch m' op) op ∧
      (Inbox.Taken c ((σ.applyRemote w c ch m op).applyRemote w c ch m' kenv) op ↔
        σ.keysFor op = [] ∨ op.key ∈ σ.keysFor op) := by
  intro σ hknown hacc hnew hkenv
  have hop : op.env ∈ events.filterMap Inbox.Event.env ++ [op.env, kenv.env] := by simp
  have hkenv' : kenv.env ∈ events.filterMap Inbox.Event.env ++ [op.env, kenv.env] := by simp
  obtain ⟨hr, hd⟩ := ready_run w c ch hhash events
    (fun ev hev env henv => List.mem_append_left _ (List.mem_filterMap.mpr ⟨ev, hev, henv⟩))
    (ready_start account revocations) (List.forall_mem_nil _)
  have hdeferred : ∀ row ∈ σ.deferred,
      row.op.env ∈ events.filterMap Inbox.Event.env ++ [op.env, kenv.env] ∧
        op.env.ref ≠ row.op.env.ref := fun row hrow => ⟨hd row hrow, (hnew row hrow).symm⟩
  refine ⟨taken_key_first hr hhash hinj hop hkenv' hknown hread hfits hacc hdeferred hne
    hkenv, ?_, ?_⟩
  · intro htaken
    by_contra hnot
    rw [not_or] at hnot
    exact not_taken_op_first hr hhash hkenv' hacc hdeferred hop hne hnot.1 hnot.2 htaken
  · rintro (hnil | hheld)
    · exact taken_op_first_of_none hr hhash hinj hop hkenv' hknown hread hfits hacc
        hdeferred hne hkenv hnil
    · exact taken_op_first_of_held hr hhash hop hkenv' ⟨hknown, hheld, hacc⟩ hread hfits hd

namespace Inbox.Sample
open Engine.Sample (node)

def metaKey : Event ℕ ℕ := .absorb metaStream 1 10 .minted

def ownKey : Event ℕ ℕ := .absorb 5 1 20 .minted

/-- An op of device 2, under a key of the same epoch that it minted beside it. -/
def sealedOp : SealedOp ℕ ℕ where
  env := { ref := ⟨5, 2, 1⟩, hlc := ⟨4, 0⟩, opHash := 1, inner := .record }
  epoch := 1
  key := 30
  reading := .applied
  control := none
  control_inner h := by simp at h

/-- The `key_envelope` that hands that key to device 1. -/
def keyOp : SealedOp ℕ ℕ where
  env := { ref := ⟨0, 2, 1⟩, hlc := ⟨5, 0⟩, opHash := 2, inner := .control }
  epoch := 1
  key := 10
  reading := .applied
  control := some (.keyEnvelope ⟨5, 1, .device 1, 30, 30⟩)
  control_inner _ := rfl

/-- Nothing is minted. -/
def moment : Moment ℕ := ⟨7, fun _ _ => 0⟩

def after (events : List (Event ℕ ℕ)) : Inbox ℕ ℕ :=
  (start Engine.Sample.start.account ⟨∅, ∅, ∅⟩).run node Codec.short .sample events

end Inbox.Sample

open Inbox Inbox.Sample Engine.Sample in
/-- With no key of the epoch held, the op is taken in both orders. -/
theorem taken_either_order_iff_none :
    Taken Codec.short (((after [metaKey]).applyRemote node Codec.short .sample moment keyOp
      ).applyRemote node Codec.short .sample moment sealedOp) sealedOp ∧
    Taken Codec.short (((after [metaKey]).applyRemote node Codec.short .sample moment sealedOp
      ).applyRemote node Codec.short .sample moment keyOp) sealedOp := by
  have h := taken_either_order_iff node Codec.short .sample Function.injective_id
    Engine.Sample.start.account ⟨∅, ∅, ∅⟩ [metaKey] sealedOp keyOp moment moment
    (by simp [OneHash, metaKey, Event.env, sealedOp, keyOp]) rfl
    ⟨by decide, by simp [sealedOp, Envelope.op]⟩ (by decide) (by decide)
    ⟨rfl, by decide, rfl⟩ (by simp [Inbox.run, Inbox.handle, metaKey, Inbox.start])
    ⟨⟨by decide, by decide, ⟨rfl, by decide, rfl⟩⟩, rfl, _, rfl, rfl,
      ⟨by decide, by decide, rfl, rfl⟩⟩
  exact ⟨h.1, h.2.mpr (.inl rfl)⟩

open Inbox Inbox.Sample Engine.Sample in
/-- With another key of the epoch held, the op that comes before its key is lost. -/
theorem not_taken_op_first_other_key :
    HandsOver node (after [metaKey, ownKey]) keyOp sealedOp.slot sealedOp.key ∧
    ¬ Taken Codec.short (((after [metaKey, ownKey]).applyRemote node Codec.short .sample moment
      sealedOp).applyRemote node Codec.short .sample moment keyOp) sealedOp := by
  refine ⟨⟨⟨by decide, by decide, ⟨rfl, by decide, rfl⟩⟩, rfl, _, rfl, rfl,
    ⟨by decide, by decide, rfl, rfl⟩⟩, ?_⟩
  have hh : OneHash [sealedOp.env, keyOp.env] := by
    simp [OneHash, sealedOp, keyOp]
  obtain ⟨hr, -⟩ := ready_run node Codec.short .sample hh [metaKey, ownKey]
    (by simp [metaKey, ownKey, Event.env]) (ready_start Engine.Sample.start.account ⟨∅, ∅, ∅⟩)
    (List.forall_mem_nil _)
  exact not_taken_op_first hr hh (by simp) ⟨rfl, by decide, rfl⟩
    (by simp [after, Inbox.run, Inbox.handle, metaKey, ownKey, Inbox.start]) (by simp) (by decide)
    (by decide) (by decide)

end Sunrise
