import Mathlib.Data.List.MinMax
import Mathlib.Data.List.Pairwise
import Mathlib.Data.Prod.Lex
import Sunrise.Trust.Revocation

/-!
# The stream keys a device holds

A stream's ops are sealed under its keys, one or more for each of its epochs: two devices
may mint one epoch at the same time, and both keys are kept. A key is never given up. What
can change is whether it is written under: a key that a read-bounded device delivered still
opens what was sealed under it, and nothing is sealed under it any more. An ordinary stream
whose highest epoch holds no other key is given a new epoch above it; the stream that
carries the account's own ops is never given one for that reason, and falls back to the
highest epoch that holds a writable key.

A key is written here as itself. The table holds it wrapped under the vault's root, and a
row this device wrote opens under it.

* `Keychain.Writable` — no device in the read bounds delivered the key.
* `Keychain.absorbStreamKey`, `Keychain.mintEpoch`, `Keychain.ensureStreamEpoch` — the writes.

## Main results

* `ensureStreamEpoch_spec` — what is written under, in every state a run reaches.
-/

namespace Sunrise

abbrev KeyId := ℕ

/-- The stream of the account's own ops. -/
def metaStream : StreamId := 0

def epochMax : ℕ := 2 ^ 32 - 1

abbrev ReadBounds := Table Device ReadBound

/-- Where a stream key came from. -/
inductive KeySource where
  | minted
  /-- Arrived in a `key_envelope` op signed by `sender`. -/
  | envelope (sender : Device)
  | pairing
  | bundle (publisher : Device)
  | legacy
  | recovery
deriving DecidableEq, Repr

def KeySource.sender : KeySource → Option Device
  | .envelope sender => some sender
  | .bundle publisher => some publisher
  | _ => none

/-- A row of `stream_keys`. -/
structure KeyRow (K : Type) where
  stream : StreamId
  epoch : ℕ
  keyId : KeyId
  key : K
deriving DecidableEq, Repr

/-- One primary key names both rows. -/
def KeyRow.Same {K : Type} (a b : KeyRow K) : Prop :=
  a.stream = b.stream ∧ a.epoch = b.epoch ∧ a.keyId = b.keyId

instance {K : Type} (a b : KeyRow K) : Decidable (a.Same b) :=
  inferInstanceAs (Decidable (_ ∧ _ ∧ _))

theorem KeyRow.Same.symm {K : Type} {a b : KeyRow K} (h : a.Same b) : b.Same a :=
  ⟨h.1.symm, h.2.1.symm, h.2.2.symm⟩

structure SenderRow where
  stream : StreamId
  epoch : ℕ
  keyId : KeyId
  sender : Device
deriving DecidableEq, Repr

/-- The keys, and who delivered them. -/
structure Keychain (K : Type) where
  keys : List (KeyRow K)
  senders : List SenderRow
deriving DecidableEq, Repr

namespace Keychain
variable {K : Type}

instance : EmptyCollection (Keychain K) := ⟨⟨[], []⟩⟩

def Writable (kc : Keychain K) (bounds : ReadBounds) (row : KeyRow K) : Prop :=
  ∀ s ∈ kc.senders, s.stream = row.stream → s.epoch = row.epoch → s.keyId = row.keyId →
    (bounds.find s.sender).isSome = false

instance (kc : Keychain K) (bounds : ReadBounds) (row : KeyRow K) :
    Decidable (kc.Writable bounds row) :=
  inferInstanceAs (Decidable (∀ s ∈ kc.senders, _ → _ → _ → _))

def ofStream (kc : Keychain K) (stream : StreamId) : List (KeyRow K) :=
  kc.keys.filter (·.stream = stream)

/-- The highest epoch this device holds a key of, whoever delivered it. -/
def maxEpoch (kc : Keychain K) (stream : StreamId) : Option ℕ :=
  ((kc.ofStream stream).map (·.epoch)).max?

/-- The live epoch of a stream. On an ordinary stream it is the highest one held, and only
where it holds a writable key. -/
def currentEpoch (kc : Keychain K) (bounds : ReadBounds) (stream : StreamId) : Option ℕ :=
  if stream = metaStream then
    match (((kc.ofStream stream).filter (kc.Writable bounds)).map (·.epoch)).max? with
    | none => kc.maxEpoch stream
    | some epoch => some epoch
  else
    match kc.maxEpoch stream with
    | none => none
    | some max =>
      if ∃ row ∈ kc.ofStream stream, row.epoch = max ∧ kc.Writable bounds row then some max
      else none

/-- Where a key stands among those of its epoch: writable ones first, then by id. -/
def choice (kc : Keychain K) (bounds : ReadBounds) (row : KeyRow K) : ℕ ×ₗ ℕ :=
  toLex (if kc.Writable bounds row then 0 else 1, row.keyId)

/-- The live epoch and key of a stream. -/
def currentStreamKey (kc : Keychain K) (bounds : ReadBounds) (stream : StreamId) :
    Option (ℕ × K) :=
  match kc.currentEpoch bounds stream with
  | none => none
  | some epoch =>
    (((kc.ofStream stream).filter (·.epoch = epoch)).argmin (kc.choice bounds)).map fun row =>
      (epoch, row.key)

variable (keyId : K → KeyId)

/-- Store one key, and the device that delivered it, whether or not the key was new. -/
def insertStreamKeyRow (kc : Keychain K) (stream : StreamId) (epoch : ℕ) (key : K)
    (source : KeySource) : Keychain K × Bool :=
  let row : KeyRow K := ⟨stream, epoch, keyId key, key⟩
  let held := decide (∃ r ∈ kc.keys, r.Same row)
  ({ keys := if held then kc.keys else kc.keys ++ [row]
     senders :=
      match source.sender with
      | none => kc.senders
      | some d =>
        let s : SenderRow := ⟨stream, epoch, keyId key, d⟩
        if s ∈ kc.senders then kc.senders else kc.senders ++ [s] }, !held)

/-- Record a key this device learned from elsewhere; true when it was new. -/
def absorbStreamKey (kc : Keychain K) (stream : StreamId) (epoch : ℕ) (key : K)
    (source : KeySource) : Keychain K × Bool :=
  kc.insertStreamKeyRow keyId stream epoch key source

/-- The epoch a mint takes: above every key held, and not only above the live one. -/
def nextEpoch (kc : Keychain K) (stream : StreamId) : ℕ :=
  match kc.maxEpoch stream with
  | none => 1
  | some epoch => min (epoch + 1) epochMax

def mintEpoch (kc : Keychain K) (stream : StreamId) (fresh : K) : Keychain K × (ℕ × K) :=
  ((kc.insertStreamKeyRow keyId stream (kc.nextEpoch stream) fresh .minted).1,
    (kc.nextEpoch stream, fresh))

/-- The live epoch and key of a stream, minting the next epoch where the stream has none. -/
def ensureStreamEpoch (kc : Keychain K) (bounds : ReadBounds) (stream : StreamId) (fresh : K) :
    Keychain K × (ℕ × K) :=
  match kc.currentStreamKey bounds stream with
  | some found => (kc, found)
  | none => kc.mintEpoch keyId stream fresh

end Keychain

/-! ### Runs -/

/-- An epoch as the wire and the column carry it. -/
abbrev Epoch := { e : ℕ // e ≤ epochMax }

theorem one_le_epochMax : 1 ≤ epochMax := by decide

/-- What can happen to a keychain and to the read bounds. -/
inductive KeyStep (K : Type) where
  | absorb (stream : StreamId) (epoch : Epoch) (key : K) (source : KeySource)
  | mint (stream : StreamId) (fresh : K)
  | ensure (stream : StreamId) (fresh : K)
  | bound (d : Device) (row : ReadBound)
  | release (d : Device)
deriving DecidableEq

/-- The keys a replica holds, and whose reads it has bounded. -/
structure KeyState (K : Type) where
  keychain : Keychain K
  bounds : ReadBounds

namespace KeyState
variable {K : Type} (keyId : K → KeyId)

def apply (st : KeyState K) : KeyStep K → KeyState K
  | .absorb stream epoch key source =>
    { st with keychain := (st.keychain.absorbStreamKey keyId stream epoch key source).1 }
  | .mint stream fresh => { st with keychain := (st.keychain.mintEpoch keyId stream fresh).1 }
  | .ensure stream fresh =>
    { st with keychain := (st.keychain.ensureStreamEpoch keyId st.bounds stream fresh).1 }
  | .bound d row => { st with bounds := st.bounds.upsert d row }
  | .release d => { st with bounds := st.bounds.erase d }

/-- Any order of steps, from a vault that holds nothing. -/
def run (steps : List (KeyStep K)) : KeyState K := steps.foldl (apply keyId) ⟨∅, ∅⟩

end KeyState

/-! ### The rows -/

/-- What holds of the two tables throughout a run. -/
structure Keychain.Sound {K : Type} (keyId : K → KeyId) (kc : Keychain K) : Prop where
  keyId_eq : ∀ row ∈ kc.keys, row.keyId = keyId row.key
  epoch_le : ∀ row ∈ kc.keys, row.epoch ≤ epochMax
  unique : kc.keys.Pairwise fun a b => ¬ a.Same b
  held : ∀ s ∈ kc.senders, ∃ row ∈ kc.keys,
    row.stream = s.stream ∧ row.epoch = s.epoch ∧ row.keyId = s.keyId

namespace Keychain
variable {K : Type} {keyId : K → KeyId} {kc : Keychain K} {bounds : ReadBounds}
  {stream : StreamId}

theorem mem_ofStream {row : KeyRow K} :
    row ∈ kc.ofStream stream ↔ row ∈ kc.keys ∧ row.stream = stream := by
  simp [ofStream]

theorem Sound.eq_of_same (h : kc.Sound keyId) {a b : KeyRow K} (ha : a ∈ kc.keys)
    (hb : b ∈ kc.keys) (hab : a.Same b) : a = b := by
  have hsymm : Std.Symm fun a b : KeyRow K => ¬ a.Same b :=
    ⟨fun _ _ h hba => h (KeyRow.Same.symm hba)⟩
  by_contra hne
  exact h.unique.forall ha hb hne hab

theorem max?_eq_some {l : List ℕ} {e : ℕ} :
    l.max? = some e ↔ e ∈ l ∧ ∀ x ∈ l, x ≤ e := List.max?_eq_some_iff

theorem max?_congr {l l' : List ℕ} (h : ∀ x, x ∈ l ↔ x ∈ l') : l.max? = l'.max? := by
  ext e
  rw [max?_eq_some, max?_eq_some, h e]
  exact and_congr_right fun _ => forall_congr' fun x => by rw [h x]

theorem maxEpoch_eq_some {e : ℕ} :
    kc.maxEpoch stream = some e ↔
      (∃ row ∈ kc.ofStream stream, row.epoch = e) ∧ ∀ row ∈ kc.ofStream stream, row.epoch ≤ e := by
  rw [maxEpoch, max?_eq_some]
  simp

theorem maxEpoch_eq_none : kc.maxEpoch stream = none ↔ kc.ofStream stream = [] := by
  rw [maxEpoch, List.max?_eq_none_iff, List.map_eq_nil_iff]

theorem insertStreamKeyRow_keys (epoch : ℕ) (key : K) (source : KeySource) :
    (kc.insertStreamKeyRow keyId stream epoch key source).1.keys =
      if ∃ r ∈ kc.keys, r.Same ⟨stream, epoch, keyId key, key⟩ then kc.keys
      else kc.keys ++ [⟨stream, epoch, keyId key, key⟩] := by
  simp [insertStreamKeyRow]

theorem mem_insertStreamKeyRow {epoch : ℕ} {key : K} {source : KeySource} {row : KeyRow K}
    (h : row ∈ (kc.insertStreamKeyRow keyId stream epoch key source).1.keys) :
    row ∈ kc.keys ∨ row = ⟨stream, epoch, keyId key, key⟩ := by
  rw [insertStreamKeyRow_keys] at h
  split at h
  · exact Or.inl h
  · simpa using h

theorem exists_same_insertStreamKeyRow (epoch : ℕ) (key : K) (source : KeySource) :
    ∃ row ∈ (kc.insertStreamKeyRow keyId stream epoch key source).1.keys,
      row.Same ⟨stream, epoch, keyId key, key⟩ := by
  rw [insertStreamKeyRow_keys]
  split
  · next h => exact h
  · exact ⟨_, by simp, rfl, rfl, rfl⟩

theorem keys_subset_insertStreamKeyRow (epoch : ℕ) (key : K) (source : KeySource) :
    kc.keys ⊆ (kc.insertStreamKeyRow keyId stream epoch key source).1.keys := by
  rw [insertStreamKeyRow_keys]
  split
  · exact List.Subset.refl _
  · exact List.subset_append_left _ _

theorem mem_senders_insertStreamKeyRow {epoch : ℕ} {key : K} {source : KeySource}
    {s : SenderRow} (h : s ∈ (kc.insertStreamKeyRow keyId stream epoch key source).1.senders) :
    s ∈ kc.senders ∨ ∃ d, source.sender = some d ∧ s = ⟨stream, epoch, keyId key, d⟩ := by
  unfold insertStreamKeyRow at h
  dsimp only at h
  cases hd : source.sender with
  | none =>
    rw [hd] at h
    exact Or.inl h
  | some d =>
    rw [hd] at h
    dsimp only at h
    split at h
    · exact Or.inl h
    · cases List.mem_append.mp h with
      | inl h => exact Or.inl h
      | inr h => exact Or.inr ⟨d, rfl, List.mem_singleton.mp h⟩

theorem Sound.insertStreamKeyRow (h : kc.Sound keyId) {epoch : ℕ} (hepoch : epoch ≤ epochMax)
    (key : K) (source : KeySource) :
    (kc.insertStreamKeyRow keyId stream epoch key source).1.Sound keyId where
  keyId_eq := fun row hrow => by
    cases mem_insertStreamKeyRow hrow with
    | inl hrow => exact h.keyId_eq row hrow
    | inr heq => rw [heq]
  epoch_le := fun row hrow => by
    cases mem_insertStreamKeyRow hrow with
    | inl hrow => exact h.epoch_le row hrow
    | inr heq => rwa [heq]
  unique := by
    rw [insertStreamKeyRow_keys]
    split
    · exact h.unique
    · next hne =>
      refine List.pairwise_append.mpr ⟨h.unique, List.pairwise_singleton _ _, ?_⟩
      intro a ha b hb hab
      rw [List.mem_singleton.mp hb] at hab
      exact hne ⟨a, ha, hab⟩
  held := fun s hs => by
    cases mem_senders_insertStreamKeyRow hs with
    | inl hs =>
      obtain ⟨row, hrow, hsame⟩ := h.held s hs
      exact ⟨row, keys_subset_insertStreamKeyRow _ _ _ hrow, hsame⟩
    | inr hnew =>
      obtain ⟨d, _, rfl⟩ := hnew
      exact exists_same_insertStreamKeyRow _ _ _

theorem Sound.empty : (∅ : Keychain K).Sound keyId where
  keyId_eq := by simp [EmptyCollection.emptyCollection]
  epoch_le := by simp [EmptyCollection.emptyCollection]
  unique := List.Pairwise.nil
  held := by simp [EmptyCollection.emptyCollection]

/-! ### Minting -/

theorem Sound.maxEpoch_le (h : kc.Sound keyId) {e : ℕ} (he : kc.maxEpoch stream = some e) :
    e ≤ epochMax := by
  obtain ⟨⟨row, hrow, rfl⟩, _⟩ := maxEpoch_eq_some.mp he
  exact h.epoch_le row (mem_ofStream.mp hrow).1

theorem nextEpoch_le : kc.nextEpoch stream ≤ epochMax := by
  unfold nextEpoch
  split
  · decide
  · exact min_le_right _ _

theorem Sound.le_nextEpoch (h : kc.Sound keyId) {row : KeyRow K}
    (hrow : row ∈ kc.ofStream stream) : row.epoch ≤ kc.nextEpoch stream := by
  unfold nextEpoch
  cases he : kc.maxEpoch stream with
  | none =>
    rw [maxEpoch_eq_none.mp he] at hrow
    cases hrow
  | some e =>
    have hle := (maxEpoch_eq_some.mp he).2 row hrow
    have hmax := h.maxEpoch_le he
    simp only
    omega

/-- **A minted epoch is above every held one**, while there is one to take. -/
theorem lt_nextEpoch (hlt : ∀ row ∈ kc.ofStream stream, row.epoch < epochMax) {row : KeyRow K}
    (hrow : row ∈ kc.ofStream stream) : row.epoch < kc.nextEpoch stream := by
  unfold nextEpoch
  cases he : kc.maxEpoch stream with
  | none =>
    rw [maxEpoch_eq_none.mp he] at hrow
    cases hrow
  | some e =>
    obtain ⟨⟨top, htop, rfl⟩, hle⟩ := maxEpoch_eq_some.mp he
    have hrowle := hle row hrow
    have htoplt := hlt top htop
    simp only
    omega

theorem mintEpoch_fst (fresh : K) : (kc.mintEpoch keyId stream fresh).1 =
    (kc.insertStreamKeyRow keyId stream (kc.nextEpoch stream) fresh .minted).1 := rfl

theorem Sound.mintEpoch (h : kc.Sound keyId) (fresh : K) :
    (kc.mintEpoch keyId stream fresh).1.Sound keyId :=
  h.insertStreamKeyRow nextEpoch_le fresh .minted

theorem Sound.ensureStreamEpoch (h : kc.Sound keyId) (fresh : K) :
    (kc.ensureStreamEpoch keyId bounds stream fresh).1.Sound keyId := by
  unfold Keychain.ensureStreamEpoch
  split
  · exact h
  · exact h.mintEpoch fresh

end Keychain

/-! ### The choice -/

namespace Keychain
variable {K : Type} {keyId : K → KeyId} {kc : Keychain K} {bounds : ReadBounds}
  {stream : StreamId}

theorem currentStreamKey_eq_some {e : ℕ} {k : K}
    (h : kc.currentStreamKey bounds stream = some (e, k)) :
    kc.currentEpoch bounds stream = some e ∧ ∃ row ∈ kc.ofStream stream,
      row.epoch = e ∧ row.key = k ∧ ∀ r ∈ kc.ofStream stream, r.epoch = e →
        kc.choice bounds row ≤ kc.choice bounds r := by
  unfold currentStreamKey at h
  split at h
  · cases h
  · next epoch hepoch =>
    obtain ⟨row, hmin, hrow⟩ := Option.map_eq_some_iff.mp h
    obtain ⟨rfl, rfl⟩ := Prod.mk.inj hrow
    have hmem := List.argmin_mem hmin
    simp only [List.mem_filter, decide_eq_true_eq] at hmem
    refine ⟨hepoch, row, hmem.1, hmem.2, rfl, fun r hr hre => ?_⟩
    exact List.le_of_mem_argmin (List.mem_filter.mpr ⟨hr, by simpa using hre⟩) hmin

theorem writable_of_choice_le {a b : KeyRow K}
    (h : kc.choice bounds a ≤ kc.choice bounds b) (hb : kc.Writable bounds b) :
    kc.Writable bounds a := by
  by_contra ha
  unfold choice at h
  rw [if_neg ha, if_pos hb, Prod.Lex.le_iff] at h
  simp at h

theorem currentEpoch_meta {e : ℕ} (h : kc.currentEpoch bounds metaStream = some e)
    (hex : ∃ row ∈ kc.ofStream metaStream, kc.Writable bounds row) :
    (∃ row ∈ kc.ofStream metaStream, row.epoch = e ∧ kc.Writable bounds row) ∧
      ∀ row ∈ kc.ofStream metaStream, kc.Writable bounds row → row.epoch ≤ e := by
  unfold currentEpoch at h
  rw [if_pos rfl] at h
  split at h
  · next hnone =>
    obtain ⟨row, hrow, hw⟩ := hex
    rw [List.max?_eq_none_iff, List.map_eq_nil_iff, List.filter_eq_nil_iff] at hnone
    exact absurd (decide_eq_true hw) (hnone row hrow)
  · next epoch hsome =>
    rw [← Option.some.inj h]
    obtain ⟨hmem, hle⟩ := max?_eq_some.mp hsome
    obtain ⟨row, hrow, hre⟩ := List.mem_map.mp hmem
    obtain ⟨hrow, hw⟩ := List.mem_filter.mp hrow
    refine ⟨⟨row, hrow, hre, of_decide_eq_true hw⟩, fun r hr hrw => hle _ ?_⟩
    exact List.mem_map_of_mem (List.mem_filter.mpr ⟨hr, decide_eq_true hrw⟩)

theorem currentEpoch_of_ne {e : ℕ} (hne : stream ≠ metaStream)
    (h : kc.currentEpoch bounds stream = some e) :
    kc.maxEpoch stream = some e ∧
      ∃ row ∈ kc.ofStream stream, row.epoch = e ∧ kc.Writable bounds row := by
  unfold currentEpoch at h
  rw [if_neg hne] at h
  split at h
  · cases h
  · next max hmax =>
    split at h
    · next hw =>
      rw [← Option.some.inj h]
      exact ⟨hmax, hw⟩
    · cases h

/-- No device in the bounds delivered this key. -/
def Unbounded (keyId : K → KeyId) (kc : Keychain K) (bounds : ReadBounds) (stream : StreamId)
    (e : ℕ) (k : K) : Prop :=
  ∀ d, (⟨stream, e, keyId k, d⟩ : SenderRow) ∈ kc.senders → bounds.find d = none

theorem Sound.unbounded_of_writable (h : kc.Sound keyId) {row : KeyRow K}
    (hrow : row ∈ kc.ofStream stream) (hw : kc.Writable bounds row) :
    kc.Unbounded keyId bounds stream row.epoch row.key := by
  intro d hd
  obtain ⟨hrow, hstream⟩ := mem_ofStream.mp hrow
  have hnone := hw _ hd hstream.symm rfl (h.keyId_eq row hrow).symm
  simpa using hnone

/-- **Writing keys are never chosen by a bounded device**, where a key is chosen: on an
ordinary stream it is of the highest epoch, on the vault-meta stream of the highest epoch
that holds a writable key. -/
theorem Sound.currentStreamKey (h : kc.Sound keyId) {e : ℕ} {k : K}
    (hk : kc.currentStreamKey bounds stream = some (e, k)) :
    (stream ≠ metaStream → (∀ row ∈ kc.ofStream stream, row.epoch ≤ e) ∧
      kc.Unbounded keyId bounds stream e k) ∧
    (stream = metaStream → (∃ row ∈ kc.ofStream stream, kc.Writable bounds row) →
      (∀ row ∈ kc.ofStream stream, kc.Writable bounds row → row.epoch ≤ e) ∧
        kc.Unbounded keyId bounds stream e k) := by
  obtain ⟨hepoch, row, hrow, rfl, rfl, hmin⟩ := currentStreamKey_eq_some hk
  constructor
  · intro hne
    obtain ⟨hmax, r, hr, hre, hw⟩ := currentEpoch_of_ne hne hepoch
    exact ⟨(maxEpoch_eq_some.mp hmax).2,
      h.unbounded_of_writable hrow (writable_of_choice_le (hmin r hr hre) hw)⟩
  · rintro rfl hex
    obtain ⟨⟨r, hr, hre, hw⟩, hle⟩ := currentEpoch_meta hepoch hex
    exact ⟨hle, h.unbounded_of_writable hrow (writable_of_choice_le (hmin r hr hre) hw)⟩

theorem exists_currentStreamKey {e : ℕ} (h : kc.currentEpoch bounds stream = some e)
    {row : KeyRow K} (hrow : row ∈ kc.ofStream stream) (hre : row.epoch = e) :
    ∃ k, kc.currentStreamKey bounds stream = some (e, k) := by
  unfold currentStreamKey
  rw [h]
  cases hmin : ((kc.ofStream stream).filter (·.epoch = e)).argmin (kc.choice bounds) with
  | none =>
    rw [List.argmin_eq_none, List.filter_eq_nil_iff] at hmin
    exact absurd (decide_eq_true hre) (hmin row hrow)
  | some r => exact ⟨r.key, by simp [hmin]⟩

theorem exists_currentStreamKey_meta
    (hex : ∃ row ∈ kc.ofStream metaStream, kc.Writable bounds row) :
    ∃ e k, kc.currentStreamKey bounds metaStream = some (e, k) := by
  cases hepoch : kc.currentEpoch bounds metaStream with
  | some e =>
    obtain ⟨⟨row, hrow, hre, _⟩, _⟩ := currentEpoch_meta hepoch hex
    obtain ⟨k, hk⟩ := exists_currentStreamKey hepoch hrow hre
    exact ⟨e, k, hk⟩
  | none =>
    unfold currentEpoch at hepoch
    rw [if_pos rfl] at hepoch
    split at hepoch
    · obtain ⟨row, hrow, _⟩ := hex
      rw [maxEpoch_eq_none] at hepoch
      rw [hepoch] at hrow
      cases hrow
    · cases hepoch

theorem Sound.mintEpoch_top (h : kc.Sound keyId) (fresh : K) :
    ∀ row ∈ (kc.mintEpoch keyId stream fresh).1.ofStream stream,
      row.epoch ≤ (kc.mintEpoch keyId stream fresh).2.1 := by
  intro row hrow
  obtain ⟨hrow, hstream⟩ := mem_ofStream.mp hrow
  rw [mintEpoch_fst] at hrow
  cases mem_insertStreamKeyRow hrow with
  | inl hrow => exact h.le_nextEpoch (mem_ofStream.mpr ⟨hrow, hstream⟩)
  | inr heq => rw [heq]; exact le_rfl

/-- No device delivered a key minted here: at a new epoch nobody has delivered any, and at
the last epoch a fresh key is none of those held. -/
theorem Sound.mintEpoch_unbounded (h : kc.Sound keyId) {fresh : K}
    (hfresh : ∀ row ∈ kc.ofStream stream, row.epoch = epochMax → row.keyId ≠ keyId fresh) :
    (kc.mintEpoch keyId stream fresh).1.Unbounded keyId bounds stream
      (kc.mintEpoch keyId stream fresh).2.1 fresh := by
  intro d hd
  rw [mintEpoch_fst] at hd
  cases mem_senders_insertStreamKeyRow hd with
  | inr hnew =>
    obtain ⟨_, hsource, _⟩ := hnew
    cases hsource
  | inl hd =>
    obtain ⟨row, hrow, hstream, hepoch, hid⟩ := h.held _ hd
    have hmem : row ∈ kc.ofStream stream := mem_ofStream.mpr ⟨hrow, hstream⟩
    have hnext : row.epoch = kc.nextEpoch stream := hepoch
    by_cases hlt : ∀ r ∈ kc.ofStream stream, r.epoch < epochMax
    · exact absurd hnext (lt_nextEpoch hlt hmem).ne
    · -- the last epoch is held already, so this is a second key of it
      push Not at hlt
      obtain ⟨r, hr, hre⟩ := hlt
      have htop : kc.nextEpoch stream = epochMax :=
        le_antisymm nextEpoch_le (le_trans hre (h.le_nextEpoch hr))
      exact absurd hid (hfresh row hmem (hnext.trans htop))

/-! ### Two replicas -/

structure SameHoldings (a b : Keychain K) (boundsA boundsB : ReadBounds) : Prop where
  keys : ∀ stream e k, (∃ row ∈ a.keys, row.stream = stream ∧ row.epoch = e ∧ row.key = k) ↔
    ∃ row ∈ b.keys, row.stream = stream ∧ row.epoch = e ∧ row.key = k
  senders : ∀ s, s ∈ a.senders ↔ s ∈ b.senders
  bounds : ∀ d, boundsA.find d = none ↔ boundsB.find d = none

section

variable {a b : Keychain K} {boundsA boundsB : ReadBounds} (h : SameHoldings a b boundsA boundsB)
include h

theorem SameHoldings.symm : SameHoldings b a boundsB boundsA :=
  ⟨fun stream e k => (h.keys stream e k).symm, fun s => (h.senders s).symm,
    fun d => (h.bounds d).symm⟩

theorem SameHoldings.mem_ofStream (ha : a.Sound keyId) (hb : b.Sound keyId)
    {row : KeyRow K} (hrow : row ∈ a.ofStream stream) : row ∈ b.ofStream stream := by
  obtain ⟨hrow, hstream⟩ := Keychain.mem_ofStream.mp hrow
  obtain ⟨r, hr, hrs, hre, hrk⟩ :=
    (h.keys row.stream row.epoch row.key).mp ⟨row, hrow, rfl, rfl, rfl⟩
  have heq : r = row := by
    have hid : r.keyId = row.keyId := by
      rw [hb.keyId_eq r hr, ha.keyId_eq row hrow, hrk]
    obtain ⟨s, e, i, k⟩ := r
    obtain ⟨s', e', i', k'⟩ := row
    simp only at hrs hre hrk hid
    rw [hrs, hre, hrk, hid]
  rw [← heq]
  exact Keychain.mem_ofStream.mpr ⟨hr, hrs.trans hstream⟩

theorem SameHoldings.writable {row : KeyRow K} (hw : a.Writable boundsA row) :
    b.Writable boundsB row := by
  intro s hs hstream hepoch hid
  have hnone := hw s ((h.senders s).mpr hs) hstream hepoch hid
  have hfind : boundsA.find s.sender = none := by simpa using hnone
  rw [(h.bounds s.sender).mp hfind]
  rfl

theorem SameHoldings.choice (row : KeyRow K) :
    a.choice boundsA row = b.choice boundsB row := by
  have hiff : a.Writable boundsA row ↔ b.Writable boundsB row := ⟨h.writable, h.symm.writable⟩
  unfold Keychain.choice
  rw [if_congr hiff rfl rfl]

section

variable (ha : a.Sound keyId) (hb : b.Sound keyId)
include ha hb

theorem SameHoldings.mem_ofStream_iff
    (stream : StreamId) (row : KeyRow K) : row ∈ a.ofStream stream ↔ row ∈ b.ofStream stream :=
  ⟨h.mem_ofStream ha hb, h.symm.mem_ofStream hb ha⟩

theorem SameHoldings.currentEpoch :
    a.currentEpoch boundsA stream = b.currentEpoch boundsB stream := by
  have hmem := h.mem_ofStream_iff ha hb stream
  have hw : ∀ row, a.Writable boundsA row ↔ b.Writable boundsB row :=
    fun row => ⟨h.writable, h.symm.writable⟩
  have hmax : a.maxEpoch stream = b.maxEpoch stream := by
    refine max?_congr fun e => ?_
    simp only [List.mem_map, hmem]
  have hwmax : (((a.ofStream stream).filter (a.Writable boundsA)).map (·.epoch)).max? =
      (((b.ofStream stream).filter (b.Writable boundsB)).map (·.epoch)).max? := by
    refine max?_congr fun e => ?_
    simp only [List.mem_map, List.mem_filter, hmem, hw]
  unfold Keychain.currentEpoch
  rw [hmax, hwmax]
  simp only [hmem, hw]

/-- **Two replicas that hold the same keys from the same devices, and have bounded the same
devices, write under the same key.** -/
theorem SameHoldings.currentStreamKey :
    a.currentStreamKey boundsA stream = b.currentStreamKey boundsB stream := by
  cases hA : a.currentStreamKey boundsA stream with
  | none =>
    cases hB : b.currentStreamKey boundsB stream with
    | none => rfl
    | some found =>
      obtain ⟨hepoch, row, hrow, hre, _⟩ :=
        currentStreamKey_eq_some (e := found.1) (k := found.2) hB
      rw [← h.currentEpoch ha hb] at hepoch
      obtain ⟨k, hk⟩ := exists_currentStreamKey hepoch (h.symm.mem_ofStream hb ha hrow) hre
      rw [hA] at hk
      cases hk
  | some found =>
    obtain ⟨hepoch, row, hrow, hre, hrk, hmin⟩ :=
      currentStreamKey_eq_some (e := found.1) (k := found.2) hA
    rw [h.currentEpoch ha hb] at hepoch
    obtain ⟨k, hk⟩ := exists_currentStreamKey hepoch (h.mem_ofStream ha hb hrow) hre
    obtain ⟨_, r, hr, hre', hrk', hmin'⟩ := currentStreamKey_eq_some hk
    -- each stands no later than the other, so they have one id, and with it one row
    have hle := hmin r (h.symm.mem_ofStream hb ha hr) hre'
    have hge := hmin' row (h.mem_ofStream ha hb hrow) hre
    rw [h.choice, h.choice] at hle
    have hid : row.keyId = r.keyId := congrArg (fun x => (ofLex x).2) (le_antisymm hle hge)
    obtain ⟨hr, hrs⟩ := Keychain.mem_ofStream.mp hr
    obtain ⟨hrow, hrows⟩ := Keychain.mem_ofStream.mp (h.mem_ofStream ha hb hrow)
    have hsame : row = r :=
      hb.eq_of_same hrow hr ⟨hrows.trans hrs.symm, hre.trans hre'.symm, hid⟩
    rw [hk, ← hrk', ← hsame, hrk]

end

end

end Keychain

theorem KeyState.sound_apply {K : Type} {keyId : K → KeyId} {st : KeyState K}
    (h : st.keychain.Sound keyId) (step : KeyStep K) :
    (st.apply keyId step).keychain.Sound keyId := by
  cases step with
  | absorb stream epoch key source => exact h.insertStreamKeyRow epoch.2 key source
  | mint stream fresh => exact h.mintEpoch fresh
  | ensure stream fresh => exact h.ensureStreamEpoch fresh
  | bound d row => exact h
  | release d => exact h

theorem KeyState.sound_run {K : Type} (keyId : K → KeyId) (steps : List (KeyStep K)) :
    (KeyState.run keyId steps).keychain.Sound keyId := by
  induction steps using List.reverseRecOn with
  | nil => exact Keychain.Sound.empty
  | append_singleton steps step ih =>
    rw [KeyState.run, List.foldl_concat]
    exact KeyState.sound_apply ih step

/-! ### What is written under -/

/-- **What an op is sealed under**, in every state a run reaches. On an ordinary stream it is
a key of the greatest epoch then held, that no read-bounded device delivered; on the
vault-meta stream, where some held key is such, one of the greatest epoch that holds such a
key. Two replicas with the same keys, senders and bounds choose the same key. A mint takes
an epoch above every held one, while there is one to take. -/
theorem ensureStreamEpoch_spec {K : Type} (keyId : K → KeyId) (steps : List (KeyStep K))
    (stream : StreamId) (fresh : K)
    (hfresh : ∀ row ∈ (KeyState.run keyId steps).keychain.ofStream stream,
      row.epoch = epochMax → row.keyId ≠ keyId fresh) :
    let st := KeyState.run keyId steps
    let out := st.keychain.ensureStreamEpoch keyId st.bounds stream fresh
    (stream ≠ metaStream → (∀ row ∈ out.1.ofStream stream, row.epoch ≤ out.2.1) ∧
      out.1.Unbounded keyId st.bounds stream out.2.1 out.2.2) ∧
    (stream = metaStream →
      (∃ row ∈ st.keychain.ofStream stream, st.keychain.Writable st.bounds row) →
      out.1 = st.keychain ∧
      (∀ row ∈ out.1.ofStream stream, out.1.Writable st.bounds row → row.epoch ≤ out.2.1) ∧
      out.1.Unbounded keyId st.bounds stream out.2.1 out.2.2) ∧
    (∀ steps' : List (KeyStep K), let st' := KeyState.run keyId steps'
      Keychain.SameHoldings st.keychain st'.keychain st.bounds st'.bounds →
      st.keychain.currentStreamKey st.bounds stream =
        st'.keychain.currentStreamKey st'.bounds stream) ∧
    ((∀ row ∈ st.keychain.ofStream stream, row.epoch < epochMax) →
      ∀ row ∈ st.keychain.ofStream stream,
        row.epoch < (st.keychain.mintEpoch keyId stream fresh).2.1) := by
  intro st out
  have hsound : st.keychain.Sound keyId := KeyState.sound_run keyId steps
  refine ⟨?_, ?_, fun steps' hsame => hsame.currentStreamKey hsound
    (KeyState.sound_run keyId steps'), fun hlt row hrow => Keychain.lt_nextEpoch hlt hrow⟩
  · intro hne
    cases hcur : st.keychain.currentStreamKey st.bounds stream with
    | some found =>
      have hout : out = (st.keychain, found) := by
        simp only [out, Keychain.ensureStreamEpoch, hcur]
      rw [hout]
      exact (hsound.currentStreamKey (e := found.1) (k := found.2) hcur).1 hne
    | none =>
      have hout : out = st.keychain.mintEpoch keyId stream fresh := by
        simp only [out, Keychain.ensureStreamEpoch, hcur]
      rw [hout]
      exact ⟨hsound.mintEpoch_top fresh, hsound.mintEpoch_unbounded hfresh⟩
  · rintro rfl hex
    obtain ⟨e, k, hcur⟩ := Keychain.exists_currentStreamKey_meta hex
    have hout : out = (st.keychain, (e, k)) := by
      simp only [out, Keychain.ensureStreamEpoch, hcur]
    rw [hout]
    exact ⟨rfl, (hsound.currentStreamKey hcur).2 rfl hex⟩

namespace KeyState.Sample

/-- The vault-meta stream's key, and one of the epoch above it from a device that is then
bounded. -/
def planted : List (KeyStep ℕ) :=
  [.absorb metaStream ⟨1, one_le_epochMax⟩ 10 .minted,
    .absorb metaStream ⟨2, by decide⟩ 20 (.envelope 7), .bound 7 ⟨1000, false⟩]

/-- The same on an ordinary stream. -/
def plantedOrdinary : List (KeyStep ℕ) :=
  [.absorb 5 ⟨1, one_le_epochMax⟩ 10 .minted,
    .absorb 5 ⟨2, by decide⟩ 20 (.envelope 7), .bound 7 ⟨1000, false⟩]

end KeyState.Sample

open KeyState.Sample in
/-- An ordinary stream is given a new epoch above the planted one. -/
theorem ensureStreamEpoch_spec_planted :
    let st := KeyState.run id plantedOrdinary
    (st.keychain.ensureStreamEpoch id st.bounds 5 30).2 = (3, 30) ∧
      (st.keychain.ensureStreamEpoch id st.bounds 5 30).1.Unbounded id st.bounds 5 3 30 := by
  refine ⟨by decide, ?_⟩
  exact ((ensureStreamEpoch_spec id plantedOrdinary 5 30 (by decide)).1 (by decide)).2

open KeyState.Sample in
/-- The vault-meta stream holds a key no bounded device delivered, and what is written under
is not of its greatest epoch. -/
theorem not_greatest_meta :
    ¬ ∀ (steps : List (KeyStep ℕ)) (fresh : ℕ), let st := KeyState.run id steps
      let out := st.keychain.ensureStreamEpoch id st.bounds metaStream fresh
      (∃ row ∈ st.keychain.ofStream metaStream, st.keychain.Writable st.bounds row) →
        ∀ row ∈ out.1.ofStream metaStream, row.epoch ≤ out.2.1 := by
  intro h
  have hall := h planted 30
  revert hall
  decide

end Sunrise
