import Mathlib.Data.List.Sort
import Sunrise.Keys.Keychain

/-!
# The account's key bundle

The relay pins one bundle of stream keys for an account, so that a device restored from the
recovery code can read what the account wrote. Any device may replace it, and names the pin it
read; the relay refuses when another stands there. Before it replaces a bundle a device compares
what it would publish with what the bundle carries: not the keys, which are sealed, but how many
there are for each stream and epoch, and a digest of that. Two devices that mint one epoch at
the same time hold different keys under equal counts, and this is the only way the comparison
goes wrong.

* `manifestOf`, `manifestCovers`, `decideBundle` — the counts, and what comparing them decides.

## Main results

* `pins_grow` — **the pinned bundle never loses a key** while the comparisons are right.
* `not_pins_grow_one_epoch` — one epoch minted twice, and a key is lost.
-/

namespace Sunrise

/-! ### Keys and their counts -/

structure BundledKey (K : Type) where
  stream : StreamId
  epoch : ℕ
  key : K
deriving DecidableEq, Repr

def BundledKey.slot {K : Type} (k : BundledKey K) : StreamId ×ₗ ℕ := toLex (k.stream, k.epoch)

/-- How many keys a bundle carries for a stream and epoch. -/
structure ManifestEntry where
  stream : StreamId
  epoch : ℕ
  keys : ℕ
deriving DecidableEq, Repr

def ManifestEntry.slot (e : ManifestEntry) : StreamId ×ₗ ℕ := toLex (e.stream, e.epoch)

/-- The greatest count: one more leaves it there. -/
def countMax : ℕ := 2 ^ 32 - 1

def countAt {K : Type} (keys : List (BundledKey K)) (slot : StreamId ×ₗ ℕ) : ℕ :=
  keys.countP fun k => k.slot = slot

def countKey {K : Type} (counts : Table (StreamId ×ₗ ℕ) ℕ) (k : BundledKey K) :
    Table (StreamId ×ₗ ℕ) ℕ :=
  counts.upsert k.slot (min ((counts.find k.slot).getD 0 + 1) countMax)

/-- The manifest of keys: one entry for each stream and epoch, in order. -/
def manifestOf {K : Type} (keys : List (BundledKey K)) : List ManifestEntry :=
  (keys.foldl countKey ∅).rows.map fun r => ⟨(ofLex r.1).1, (ofLex r.1).2, r.2⟩

/-- Whether a bundle with the manifest `held` carries at least as many keys as `other` names. -/
def manifestCovers (held other : List ManifestEntry) : Bool :=
  other.all fun o => held.any fun h =>
    h.stream = o.stream && h.epoch = o.epoch && decide (o.keys ≤ h.keys)

/-- What a replica makes of the pinned bundle. -/
inductive PinnedKeyBundle where
  | valid (manifest : List ManifestEntry)
  | refused (reason : String)
deriving DecidableEq

/-- What comparing a device's keys with the pinned bundle decided. -/
inductive Decision where
  /-- The pinned bundle carries every key the device would publish. -/
  | covered
  /-- It lacks keys the device holds, and holds none the device lacks. -/
  | replace
  | wait
deriving DecidableEq

def decideBundle (mine : List ManifestEntry) : PinnedKeyBundle → Decision
  | .refused _ => .replace
  | .valid theirs =>
    if manifestCovers theirs mine then .covered
    else if manifestCovers mine theirs then .replace
    else .wait

/-- At each stream and epoch, one of two key sets includes the other. -/
def Nested {K : Type} (mine theirs : List (BundledKey K)) : Prop :=
  ∀ slot, (∀ k ∈ mine, k.slot = slot → k ∈ theirs) ∨ ∀ k ∈ theirs, k.slot = slot → k ∈ mine

/-! ### Bundles -/

def maxBundleKeys : ℕ := 2 ^ 16

def maxBundleEpoch : ℕ := 2 ^ 24

/-- A sealed bundle: what it says in clear, and what it opens to. -/
structure KeyBundle (K : Type) where
  publisher : Device
  generatedAtMs : ℕ
  manifest : List ManifestEntry
  keys : List (BundledKey K)
deriving DecidableEq

section
variable {K : Type} [LinearOrder K]

def BundledKey.rank (k : BundledKey K) : StreamId ×ₗ ℕ ×ₗ K :=
  toLex (k.stream, toLex (k.epoch, k.key))

/-- Seal keys: in order, each once. -/
def sealKeyBundle (publisher : Device) (generatedAtMs : ℕ) (keys : List (BundledKey K)) :
    Option (KeyBundle K) :=
  if maxBundleKeys < keys.length then none
  else
    let owned := (keys.insertionSort fun a b => a.rank ≤ b.rank).dedup
    some ⟨publisher, generatedAtMs, manifestOf owned, owned⟩

/-- Open a bundle: its keys must be in order, each once, and what its manifest says. -/
def KeyBundle.open_ (b : KeyBundle K) : Option (List (BundledKey K)) :=
  if maxBundleKeys < b.keys.length then none
  else if b.keys.Pairwise (fun x y => x.rank < y.rank) ∧ manifestOf b.keys = b.manifest then
    some b.keys
  else none

/-- The keys a restored device takes from a bundle: none, when an epoch is out of range. -/
def KeyBundle.recoverable (b : KeyBundle K) : List (BundledKey K) :=
  match b.open_ with
  | none => []
  | some keys => if keys.any fun k => maxBundleEpoch < k.epoch then [] else keys

end

/-! ### Devices and the relay -/

/-- The hashes a publish goes by: of a key, of a manifest and of a sealed bundle. -/
structure BundleHash (K D B : Type) where
  keyId : K → KeyId
  manifestDigest : List ManifestEntry → D
  blobId : KeyBundle K → B

/-- What a replica would publish. -/
structure KeyBundlePlan (K D : Type) where
  keys : List (BundledKey K)
  manifest : List ManifestEntry
  digest : D

/-- Where a device is in a publish. -/
inductive PublishJob (K D B : Type) where
  | idle
  | planned (plan : KeyBundlePlan K D)
  /-- It has read the pin, and will judge the bundle. -/
  | judging (plan : KeyBundlePlan K D) (blobId : B)
  /-- It will seal and pin its own, in place of the bundle named; it may have refused that. -/
  | sealing (plan : KeyBundlePlan K D) (replaces : Option B) (refused : Bool)

/-- A device of the account. -/
structure Publisher (K D B : Type) where
  state : KeyState K
  revoked : Finset Device
  seen : Option D
  job : PublishJob K D B

structure KeyBundlePin (D B : Type) where
  blobId : B
  manifestDigest : D

/-- A pin that was made. -/
structure PinRecord (K : Type) where
  bundle : KeyBundle K
  /-- Its publisher had refused the bundle that stood there. -/
  refused : Bool

/-- The devices of an account, and the relay. -/
structure KeyBundles (K D B : Type) where
  devices : Device → Publisher K D B
  pin : Option (KeyBundlePin D B)
  blobs : List (KeyBundle K)
  pins : List (PinRecord K)
  /-- Whenever a device found nothing to publish: its keys, and the bundle it went by. -/
  current : List (List (BundledKey K) × B)

/-- What a device or the relay may do. -/
inductive BundleAct (K : Type) where
  /-- A key arrives or is minted, or a device is bounded or released. -/
  | keys (d : Device) (s : KeyStep K)
  | revoke (d : Device) (revoked : Finset Device)
  | restart (d : Device)
  | plan (d : Device)
  | latest (d : Device)
  | fetch (d : Device)
  | publish (d : Device) (nowMs : ℕ)
  /-- The relay does not answer, or has the bundle no more. -/
  | lost (d : Device)

def KeyRow.bundled {K : Type} (row : KeyRow K) : BundledKey K := ⟨row.stream, row.epoch, row.key⟩

/-- Every key the device may write under. -/
def KeyState.writableStreamKeys {K : Type} (st : KeyState K) : List (BundledKey K) :=
  (st.keychain.keys.filter fun row => st.keychain.Writable st.bounds row).map (·.bundled)

namespace Publisher
variable {K D B : Type}

/-- The replica holds a device as revoked or read-bounded. -/
def isBounded (p : Publisher K D B) (d : Device) : Bool :=
  d ∈ p.revoked || (p.state.bounds.find d).isSome

/-- What the device `self` would publish. -/
def keyBundlePlan (h : BundleHash K D B) (self : Device) (p : Publisher K D B) :
    Option (KeyBundlePlan K D) :=
  if p.isBounded self then none
  else
    let keys := p.state.writableStreamKeys
    if keys.isEmpty then none
    else some ⟨keys, manifestOf keys, h.manifestDigest (manifestOf keys)⟩

/-- What the replica makes of the bundle the relay pins. -/
def judge (p : Publisher K D B) (b : KeyBundle K) : PinnedKeyBundle :=
  if p.isBounded b.publisher then .refused "publisher_bounded" else .valid b.manifest

end Publisher

namespace KeyBundles
variable {K D B : Type}

def setDevice (σ : KeyBundles K D B) (d : Device) (p : Publisher K D B) : KeyBundles K D B :=
  { σ with devices := Function.update σ.devices d p }

def setJob (σ : KeyBundles K D B) (d : Device) (job : PublishJob K D B) : KeyBundles K D B :=
  σ.setDevice d { σ.devices d with job }

/-- The device finds nothing to publish. -/
def noteCurrent (σ : KeyBundles K D B) (d : Device) (plan : KeyBundlePlan K D) (blobId : B) :
    KeyBundles K D B :=
  { σ.setDevice d { σ.devices d with seen := some plan.digest, job := .idle } with
    current := σ.current ++ [(plan.keys, blobId)] }

variable [LinearOrder K] [DecidableEq D] [DecidableEq B] (h : BundleHash K D B)

/-- The bundle is uploaded, and pinned if the one in place is the one it replaces. -/
def pinKeyBundle (σ : KeyBundles K D B) (d : Device) (plan : KeyBundlePlan K D)
    (replaces : Option B) (refused : Bool) (b : KeyBundle K) : KeyBundles K D B :=
  if σ.pin.map (·.blobId) ≠ replaces then { σ.setJob d .idle with blobs := b :: σ.blobs }
  else
    { σ.setDevice d { σ.devices d with seen := some plan.digest, job := .idle } with
      pin := some ⟨h.blobId b, plan.digest⟩
      blobs := b :: σ.blobs
      pins := σ.pins ++ [⟨b, refused⟩] }

/-- One step of a device or the relay. -/
def step (σ : KeyBundles K D B) : BundleAct K → KeyBundles K D B
  | .keys d s =>
    σ.setDevice d { σ.devices d with state := (σ.devices d).state.apply h.keyId s }
  | .revoke d revoked => σ.setDevice d { σ.devices d with revoked }
  | .restart d => σ.setDevice d { σ.devices d with seen := none, job := .idle }
  | .plan d =>
    match (σ.devices d).job, (σ.devices d).keyBundlePlan h d with
    | .idle, some plan =>
      if (σ.devices d).seen = some plan.digest then σ else σ.setJob d (.planned plan)
    | _, _ => σ
  | .latest d =>
    match (σ.devices d).job with
    | .planned plan =>
      match σ.pin with
      | none => σ.setJob d (.sealing plan none false)
      | some pin =>
        if pin.manifestDigest = plan.digest then σ.noteCurrent d plan pin.blobId
        else σ.setJob d (.judging plan pin.blobId)
    | _ => σ
  | .fetch d =>
    match (σ.devices d).job with
    | .judging plan blobId =>
      match σ.blobs.find? fun b => h.blobId b = blobId with
      | none => σ.setJob d .idle
      | some b =>
        match decideBundle plan.manifest ((σ.devices d).judge b) with
        | .covered => σ.noteCurrent d plan blobId
        | .wait => σ.setJob d .idle
        | .replace =>
          σ.setJob d (.sealing plan (some blobId) ((σ.devices d).isBounded b.publisher))
    | _ => σ
  | .publish d nowMs =>
    match (σ.devices d).job with
    | .sealing plan replaces refused =>
      match sealKeyBundle d nowMs plan.keys with
      | none => σ.setJob d .idle
      | some b => σ.pinKeyBundle h d plan replaces refused b
    | _ => σ
  | .lost d => σ.setJob d .idle

/-- Devices that hold nothing, and no pin. -/
def start : KeyBundles K D B where
  devices := fun _ => ⟨⟨∅, ∅⟩, ∅, none, .idle⟩
  pin := none
  blobs := []
  pins := []
  current := []

def run (acts : List (BundleAct K)) : KeyBundles K D B := acts.foldl (step h) start

/-- Where a step compares counts, the keys are nested; and a device that publishes has no epoch
out of range. -/
def Compares (σ : KeyBundles K D B) : BundleAct K → Prop
  | .latest d => ∀ plan pin, (σ.devices d).job = .planned plan → σ.pin = some pin →
      pin.manifestDigest = plan.digest →
      ∀ b ∈ σ.blobs, h.blobId b = pin.blobId → Nested plan.keys b.keys
  | .fetch d => ∀ plan blobId, (σ.devices d).job = .judging plan blobId →
      ∀ b ∈ σ.blobs, h.blobId b = blobId → (σ.devices d).isBounded b.publisher = false →
      manifestCovers b.manifest plan.manifest ∨ manifestCovers plan.manifest b.manifest →
      Nested plan.keys b.keys
  | .publish d _ => ∀ plan replaces refused, (σ.devices d).job = .sealing plan replaces refused →
      ∀ k ∈ plan.keys, k.epoch ≤ maxBundleEpoch
  | _ => True

/-- So at every step of a run. -/
def ComparesAll (acts : List (BundleAct K)) : Prop :=
  ∀ acts' a, acts' ++ [a] <+: acts → (run h acts').Compares h a

end KeyBundles

/-! ### Counting -/

section
variable {K : Type}

theorem countAt_concat (keys : List (BundledKey K)) (k : BundledKey K) (slot : StreamId ×ₗ ℕ) :
    countAt (keys ++ [k]) slot = countAt keys slot + if k.slot = slot then 1 else 0 := by
  unfold countAt
  rw [List.countP_append, List.countP_singleton]
  simp only [decide_eq_true_eq]

theorem find_countKey (counts : Table (StreamId ×ₗ ℕ) ℕ) (k : BundledKey K)
    (slot : StreamId ×ₗ ℕ) : (countKey counts k).find slot =
      if slot = k.slot then some (min ((counts.find k.slot).getD 0 + 1) countMax)
      else counts.find slot :=
  Table.find_upsert ..

theorem find_counts (keys : List (BundledKey K)) (slot : StreamId ×ₗ ℕ) :
    (keys.foldl countKey ∅).find slot =
      if countAt keys slot = 0 then none else some (min (countAt keys slot) countMax) := by
  induction keys using List.reverseRecOn generalizing slot with
  | nil => rfl
  | append_singleton keys k ih =>
    rw [List.foldl_append, List.foldl_cons, List.foldl_nil, countAt_concat, find_countKey]
    by_cases hslot : slot = k.slot
    · rw [if_pos hslot, if_pos hslot.symm, if_neg (Nat.succ_ne_zero _), ih k.slot, hslot]
      congr 1
      split
      next hzero => rw [hzero]; rfl
      next => rw [Option.getD_some]; omega
    · rw [if_neg hslot, if_neg (Ne.symm hslot), ih slot, Nat.add_zero]

theorem mem_manifestOf {keys : List (BundledKey K)} {e : ManifestEntry} :
    e ∈ manifestOf keys ↔ countAt keys e.slot ≠ 0 ∧ e.keys = min
    (countAt keys e.slot) countMax := by
  have hmem : e ∈ manifestOf keys ↔ (keys.foldl countKey ∅).find e.slot = some e.keys := by
    unfold manifestOf
    rw [List.mem_map]
    constructor
    · rintro ⟨r, hr, rfl⟩
      exact Table.mem_rows.mp hr
    · intro hfind
      exact ⟨(e.slot, e.keys), Table.mem_rows.mpr hfind, rfl⟩
  rw [hmem, find_counts]
  by_cases hzero : countAt keys e.slot = 0
  · simp [hzero]
  · simp [hzero, eq_comm]

theorem manifestOf_congr {keys keys' : List (BundledKey K)}
    (h : ∀ slot, countAt keys slot = countAt keys' slot) : manifestOf keys = manifestOf keys' := by
  have htable : keys.foldl countKey ∅ = keys'.foldl countKey ∅ := by
    apply Table.ext_find
    intro slot
    rw [find_counts, find_counts, h slot]
  unfold manifestOf
  rw [htable]

theorem manifestCovers_manifestOf {held other : List (BundledKey K)} :
    manifestCovers (manifestOf held) (manifestOf other) ↔
      ∀ slot, min (countAt other slot) countMax ≤ min (countAt held slot) countMax := by
  unfold manifestCovers
  simp only [List.all_eq_true, List.any_eq_true, Bool.and_eq_true, decide_eq_true_eq]
  constructor
  · intro h slot
    by_cases hzero : countAt other slot = 0
    · omega
    · obtain ⟨e, he, ⟨hstream, hepoch⟩, hle⟩ :=
        h ⟨(ofLex slot).1, (ofLex slot).2, min (countAt other slot) countMax⟩
          (mem_manifestOf.mpr ⟨hzero, rfl⟩)
      have hslot : e.slot = slot := congrArg toLex (Prod.ext hstream hepoch)
      have hkeys := (mem_manifestOf.mp he).2
      rw [hslot] at hkeys
      exact hkeys ▸ hle
  · intro h o ho
    obtain ⟨hne, hkeys⟩ := mem_manifestOf.mp ho
    have hle := h o.slot
    refine ⟨⟨o.stream, o.epoch, min (countAt held o.slot) countMax⟩, mem_manifestOf.mpr ⟨?_, rfl⟩,
      ⟨rfl, rfl⟩, hkeys ▸ hle⟩
    intro hheld
    have hzero : countAt held o.slot = 0 := hheld
    unfold countMax at hle
    omega

theorem countAt_le_of_covers {held other : List (BundledKey K)}
    (hcovers : manifestCovers (manifestOf held) (manifestOf other))
    (hlength : held.length ≤ maxBundleKeys ∨ other.length ≤ maxBundleKeys) (slot : StreamId ×ₗ ℕ) :
    countAt other slot ≤ countAt held slot := by
  have hle := manifestCovers_manifestOf.mp hcovers slot
  have hheld : countAt held slot ≤ held.length := List.countP_le_length
  have hother : countAt other slot ≤ other.length := List.countP_le_length
  unfold countMax at hle
  unfold maxBundleKeys at hlength
  omega

section

variable {mine theirs : List (BundledKey K)}

/-- **As many keys, and nested, is every key.** -/
theorem Nested.subset (h : Nested mine theirs)
    (hnodup : theirs.Nodup) (hle : ∀ slot, countAt mine slot ≤ countAt theirs slot) :
    mine ⊆ theirs := by
  intro k hk
  rcases h k.slot with hsub | hsub
  · exact hsub k hk rfl
  · -- theirs are mine, and no fewer
    have hfilter : (theirs.filter fun x => x.slot = k.slot) ⊆
        mine.filter fun x => x.slot = k.slot := by
      intro x hx
      obtain ⟨hx, hslot⟩ := List.mem_filter.mp hx
      exact List.mem_filter.mpr ⟨hsub x hx (of_decide_eq_true hslot), hslot⟩
    have hlength := hle k.slot
    unfold countAt at hlength
    rw [List.countP_eq_length_filter, List.countP_eq_length_filter] at hlength
    have hperm := (List.subperm_of_subset (hnodup.filter _) hfilter).perm_of_length_le hlength
    have hmem : k ∈ mine.filter fun x => x.slot = k.slot :=
      List.mem_filter.mpr ⟨hk, decide_eq_true rfl⟩
    exact (List.mem_filter.mp (hperm.mem_iff.mpr hmem)).1

theorem Nested.symm (h : Nested mine theirs) :
    Nested theirs mine := fun slot => (h slot).symm

theorem nested_of_subset (h : mine ⊆ theirs) :
    Nested mine theirs := fun _ => .inl fun _ hk _ => h hk

/-- **A comparison is right exactly when the key sets are nested**, where the counts of one
cover those of the other: the pin that covers a device's keys carries them, and the pin that
is replaced carries no key the device lacks. -/
theorem decideBundle_iff (hmine : mine.Nodup)
    (htheirs : theirs.Nodup) (hlength : theirs.length ≤ maxBundleKeys) :
    ((decideBundle (manifestOf mine) (.valid (manifestOf theirs)) = .covered → mine ⊆ theirs) ∧
      (decideBundle (manifestOf mine) (.valid (manifestOf theirs)) = .replace → theirs ⊆ mine)) ↔
      (manifestCovers (manifestOf theirs) (manifestOf mine) ∨
        manifestCovers (manifestOf mine) (manifestOf theirs) → Nested mine theirs) := by
  unfold decideBundle
  by_cases hcov : manifestCovers (manifestOf theirs) (manifestOf mine)
  · simp only [hcov, if_true, true_or, forall_const, reduceCtorEq, false_imp_iff, and_true]
    constructor
    · exact nested_of_subset
    · intro h
      exact h.subset htheirs (countAt_le_of_covers hcov (.inl hlength))
  · by_cases hcov' : manifestCovers (manifestOf mine) (manifestOf theirs)
    · simp only [hcov, hcov', if_true, or_true, forall_const, reduceCtorEq, false_imp_iff, true_and,
        Bool.false_eq_true, if_false]
      constructor
      · intro h
        exact (nested_of_subset h).symm
      · intro h
        exact h.symm.subset hmine (countAt_le_of_covers hcov' (.inr hlength))
    · simp [hcov, hcov']

end

end

/-! ### Sealing -/

theorem BundledKey.rank_injective {K : Type} : Function.Injective (BundledKey.rank (K := K)) := by
  intro a b h
  obtain ⟨stream, epoch, key⟩ := a
  obtain ⟨stream', epoch', key'⟩ := b
  have hpair : (stream, epoch, key) = (stream', epoch', key') := h
  simp only [Prod.mk.injEq] at hpair
  obtain ⟨rfl, rfl, rfl⟩ := hpair
  rfl

section
variable {K : Type} [LinearOrder K]

structure KeyBundle.Sealed (b : KeyBundle K) : Prop where
  nodup : b.keys.Nodup
  length_le : b.keys.length ≤ maxBundleKeys
  manifest_eq : b.manifest = manifestOf b.keys
  opens : b.open_ = some b.keys

/-- **What is sealed opens**, to the keys it was sealed from. -/
theorem sealKeyBundle_spec {d : Device} {nowMs : ℕ} {keys : List (BundledKey K)}
    {b : KeyBundle K} (h : sealKeyBundle d nowMs keys = some b) :
    b.Sealed ∧ ∀ k, k ∈ b.keys ↔ k ∈ keys := by
  unfold sealKeyBundle at h
  split at h
  next => simp at h
  next hlength =>
    obtain rfl := Option.some.inj h
    have hmem : ∀ k, k ∈ (keys.insertionSort fun a b => a.rank ≤ b.rank).dedup ↔ k ∈ keys := by
      intro k
      rw [List.mem_dedup, List.mem_insertionSort]
    have hle : (keys.insertionSort fun a b => a.rank ≤ b.rank).dedup.length ≤ maxBundleKeys := by
      refine (List.dedup_sublist _).length_le.trans ?_
      rw [List.length_insertionSort]
      exact not_lt.mp hlength
    have hnodup := List.nodup_dedup (keys.insertionSort fun a b => a.rank ≤ b.rank)
    have htotal : Std.Total fun a b : BundledKey K => a.rank ≤ b.rank :=
      ⟨fun a b => le_total a.rank b.rank⟩
    have htrans : IsTrans (BundledKey K) fun a b => a.rank ≤ b.rank :=
      ⟨fun a b c => le_trans⟩
    have hsorted : (keys.insertionSort fun a b => a.rank ≤ b.rank).dedup.Pairwise
        fun a b => a.rank ≤ b.rank :=
      (List.pairwise_insertionSort (fun a b : BundledKey K => a.rank ≤ b.rank) keys).sublist
        (List.dedup_sublist _)
    refine ⟨⟨hnodup, hle, rfl, ?_⟩, hmem⟩
    unfold KeyBundle.open_
    rw [if_neg (not_lt.mpr hle), if_pos]
    refine ⟨?_, rfl⟩
    refine hsorted.imp₂ ?_ hnodup
    intro a b hrank hne
    exact lt_of_le_of_ne hrank fun heq => hne (BundledKey.rank_injective heq)

theorem KeyBundle.Sealed.manifestOf_eq {b : KeyBundle K} (h : b.Sealed)
    {keys : List (BundledKey K)} (hnodup : keys.Nodup) (hmem : ∀ k, k ∈ b.keys ↔ k ∈ keys) :
    manifestOf b.keys = manifestOf keys := by
  apply manifestOf_congr
  intro slot
  exact ((List.perm_ext_iff_of_nodup h.nodup hnodup).mpr hmem).countP_eq _

theorem KeyBundle.Sealed.recoverable_eq {b : KeyBundle K} (h : b.Sealed)
    (hepoch : ∀ k ∈ b.keys, k.epoch ≤ maxBundleEpoch) : b.recoverable = b.keys := by
  unfold KeyBundle.recoverable
  rw [h.opens]
  dsimp only
  rw [if_neg]
  rw [List.any_eq_true]
  rintro ⟨k, hk, hlt⟩
  exact absurd (of_decide_eq_true hlt) (not_lt.mpr (hepoch k hk))

end

theorem nodup_writableStreamKeys {K : Type} {keyId : K → KeyId} {st : KeyState K}
    (h : st.keychain.Sound keyId) : st.writableStreamKeys.Nodup := by
  unfold KeyState.writableStreamKeys
  apply List.Nodup.map_on _
  · apply List.Nodup.filter
    exact h.unique.imp fun hne heq => hne (by rw [heq]; exact ⟨rfl, rfl, rfl⟩)
  · -- a key names its row
    intro a ha b hb heq
    have ha' := (List.mem_filter.mp ha).1
    have hb' := (List.mem_filter.mp hb).1
    unfold KeyRow.bundled at heq
    injection heq with hstream hepoch hkey
    exact h.eq_of_same ha' hb'
      ⟨hstream, hepoch, by rw [h.keyId_eq a ha', h.keyId_eq b hb', hkey]⟩

/-! ### What every step keeps -/

def PublishJob.plan {K D B : Type} : PublishJob K D B → Option (KeyBundlePlan K D)
  | .idle => none
  | .planned plan => some plan
  | .judging plan _ => some plan
  | .sealing plan _ _ => some plan

/-- A plan is of keys that are listed once. -/
structure KeyBundlePlan.Sound {K D B : Type} (h : BundleHash K D B) (plan : KeyBundlePlan K D) :
    Prop where
  nodup : plan.keys.Nodup
  manifest_eq : plan.manifest = manifestOf plan.keys
  digest_eq : plan.digest = h.manifestDigest (manifestOf plan.keys)

namespace KeyBundles
variable {K D B : Type} (h : BundleHash K D B)

/-- What holds of a publish: the bundle it replaces was uploaded, and unless it was refused the
device has its keys. -/
structure JobSound (blobs : List (KeyBundle K)) (job : PublishJob K D B) : Prop where
  plan : ∀ plan, job.plan = some plan → plan.Sound h
  replaces : ∀ plan blobId refused, job = .sealing plan (some blobId) refused →
    ∃ b ∈ blobs, h.blobId b = blobId ∧ (refused = false → b.keys ⊆ plan.keys)

variable {h}

theorem JobSound.mono {blobs blobs' : List (KeyBundle K)} {job : PublishJob K D B}
    (hjob : JobSound h blobs job) (hblobs : blobs ⊆ blobs') : JobSound h blobs' job where
  plan := hjob.plan
  replaces := by
    intro plan blobId refused heq
    obtain ⟨b, hb, hrest⟩ := hjob.replaces plan blobId refused heq
    exact ⟨b, hblobs hb, hrest⟩

theorem jobSound_idle {blobs : List (KeyBundle K)} : JobSound h blobs .idle where
  plan := by
    intro plan heq
    cases heq
  replaces := by
    intro plan blobId refused heq
    cases heq

variable [LinearOrder K] (h)

/-- What holds of the devices and the relay. -/
structure Inv (σ : KeyBundles K D B) : Prop where
  sound : ∀ d, (σ.devices d).state.keychain.Sound h.keyId
  jobs : ∀ d, JobSound h σ.blobs (σ.devices d).job
  blobs : ∀ b ∈ σ.blobs, b.Sealed
  pin : σ.pin.map (·.blobId) = σ.pins.getLast?.map fun r => h.blobId r.bundle
  digest : ∀ pin, σ.pin = some pin → ∃ b ∈ σ.blobs, h.blobId b = pin.blobId ∧
    pin.manifestDigest = h.manifestDigest b.manifest
  pins : ∀ r ∈ σ.pins, r.bundle ∈ σ.blobs ∧ ∀ k ∈ r.bundle.keys, k.epoch ≤ maxBundleEpoch
  /-- A pin carries the keys of the one before, unless that was refused. -/
  grow : ∀ (i : ℕ) (a b : PinRecord K), σ.pins[i]? = some a → σ.pins[i + 1]? = some b →
    b.refused = false → a.bundle.keys ⊆ b.bundle.keys
  current : ∀ x ∈ σ.current, ∃ b ∈ σ.blobs, h.blobId b = x.2 ∧ x.1 ⊆ b.keys

variable {h} {σ : KeyBundles K D B}

theorem Inv.setDevice (hinv : σ.Inv h) {d : Device} {p : Publisher K D B}
    (hsound : p.state.keychain.Sound h.keyId) (hjob : JobSound h σ.blobs p.job) :
    (σ.setDevice d p).Inv h := by
  have hdevice : ∀ d', (σ.setDevice d p).devices d' = if d' = d then p else σ.devices d' := by
    intro d'
    exact Function.update_apply ..
  refine { hinv with sound := ?_, jobs := ?_ }
  · intro d'
    rw [hdevice]
    split
    · exact hsound
    · exact hinv.sound d'
  · intro d'
    rw [hdevice]
    split
    · exact hjob
    · exact hinv.jobs d'

theorem Inv.setJob (hinv : σ.Inv h) {d : Device} {job : PublishJob K D B}
    (hjob : JobSound h σ.blobs job) : (σ.setJob d job).Inv h :=
  hinv.setDevice (hinv.sound d) hjob

theorem Inv.noteCurrent (hinv : σ.Inv h) {d : Device} {plan : KeyBundlePlan K D} {blobId : B}
    (hsub : ∃ b ∈ σ.blobs, h.blobId b = blobId ∧ plan.keys ⊆ b.keys) :
    (σ.noteCurrent d plan blobId).Inv h := by
  have hidle := hinv.setDevice (d := d)
    (p := { σ.devices d with seen := some plan.digest, job := .idle }) (hinv.sound d) jobSound_idle
  refine { hidle with current := ?_ }
  intro x hx
  rcases List.mem_append.mp hx with hx | hx
  · exact hinv.current x hx
  · rw [List.mem_singleton.mp hx]
    exact hsub

variable [DecidableEq B]

/-- **A pin keeps the invariant**: the relay replaces only the bundle the device read, and the
device had the keys of that. -/
theorem Inv.pinKeyBundle (hblob : Function.Injective h.blobId) (hinv : σ.Inv h) {d : Device}
    {plan : KeyBundlePlan K D} {replaces : Option B} {refused : Bool}
    (hjob : (σ.devices d).job = .sealing plan replaces refused)
    (hepoch : ∀ k ∈ plan.keys, k.epoch ≤ maxBundleEpoch) {nowMs : ℕ} {b : KeyBundle K}
    (hb : sealKeyBundle d nowMs plan.keys = some b) :
    (σ.pinKeyBundle h d plan replaces refused b).Inv h := by
  obtain ⟨hsealed, hmem⟩ := sealKeyBundle_spec hb
  have hplan : plan.Sound h := (hinv.jobs d).plan plan (by rw [hjob]; rfl)
  have hup : ∀ {p : Publisher K D B}, p.state = (σ.devices d).state → p.job = .idle →
      Inv h { σ.setDevice d p with blobs := b :: σ.blobs } := by
    intro p hstate hidle
    have hset := hinv.setDevice (d := d) (p := p) (hstate ▸ hinv.sound d) (hidle ▸ jobSound_idle)
    refine { hset with jobs := ?_, blobs := ?_, digest := ?_, pins := ?_, current := ?_ }
    · intro d'
      exact (hset.jobs d').mono (List.subset_cons_self _ _)
    · intro b' hb'
      rcases List.mem_cons.mp hb' with rfl | hb'
      · exact hsealed
      · exact hinv.blobs b' hb'
    · intro pin hpin
      obtain ⟨b', hb', hrest⟩ := hinv.digest pin hpin
      exact ⟨b', List.mem_cons_of_mem _ hb', hrest⟩
    · intro r hr
      exact ⟨List.mem_cons_of_mem _ (hinv.pins r hr).1, (hinv.pins r hr).2⟩
    · intro x hx
      obtain ⟨b', hb', hrest⟩ := hinv.current x hx
      exact ⟨b', List.mem_cons_of_mem _ hb', hrest⟩
  unfold KeyBundles.pinKeyBundle
  split
  next => exact hup rfl rfl
  next hsame =>
    have hpinned := hup (p := { σ.devices d with seen := some plan.digest, job := .idle }) rfl rfl
    refine { hpinned with pin := ?_, digest := ?_, pins := ?_, grow := ?_ }
    · dsimp only
      rw [List.getLast?_concat]
      rfl
    · intro pin hpin
      obtain rfl := Option.some.inj hpin
      refine ⟨b, List.mem_cons_self, rfl, ?_⟩
      rw [hsealed.manifest_eq, hsealed.manifestOf_eq hplan.nodup hmem]
      exact hplan.digest_eq
    · intro r hr
      rcases List.mem_append.mp hr with hr | hr
      · exact hpinned.pins r hr
      · rw [List.mem_singleton.mp hr]
        exact ⟨List.mem_cons_self, fun k hk => hepoch k ((hmem k).mp hk)⟩
    · intro i x y hx hy hrefused
      dsimp only at hx hy
      rcases Nat.lt_trichotomy (i + 1) σ.pins.length with hlt | heq | hgt
      · rw [List.getElem?_append_left (by omega)] at hx
        rw [List.getElem?_append_left hlt] at hy
        exact hinv.grow i x y hx hy hrefused
      · -- the new pin, over the one that stood
        rw [List.getElem?_append_left (by omega)] at hx
        rw [heq, List.getElem?_concat_length] at hy
        obtain rfl := Option.some.inj hy
        have hlast : σ.pins.getLast? = some x := by
          rw [List.getLast?_eq_getElem?, ← heq]
          exact hx
        have hreplaces : replaces = some (h.blobId x.bundle) := by
          rw [← not_not.mp hsame, hinv.pin, hlast]
          rfl
        obtain ⟨b', -, hid, hsub⟩ := (hinv.jobs d).replaces plan _ refused (hreplaces ▸ hjob)
        obtain rfl := hblob hid
        intro k hk
        exact (hmem k).mpr (hsub hrefused hk)
      · rw [List.getElem?_eq_none (by simp; omega)] at hy
        simp at hy

omit [DecidableEq B] in
theorem decideBundle_judge {p : Publisher K D B} {mine : List (BundledKey K)} {b : KeyBundle K}
    (hmine : mine.Nodup) (hb : b.Sealed)
    (hright : p.isBounded b.publisher = false →
      manifestCovers b.manifest (manifestOf mine) ∨ manifestCovers (manifestOf mine) b.manifest →
      Nested mine b.keys) :
    (decideBundle (manifestOf mine) (p.judge b) = .covered → mine ⊆ b.keys) ∧
      (decideBundle (manifestOf mine) (p.judge b) = .replace → p.isBounded b.publisher = false →
        b.keys ⊆ mine) := by
  unfold Publisher.judge
  split
  next hbounded =>
    constructor
    · intro hcov
      cases hcov
    · intro _ hfree
      rw [hbounded] at hfree
      cases hfree
  next hfree =>
    rw [hb.manifest_eq] at hright ⊢
    have h := (decideBundle_iff hmine hb.nodup hb.length_le).mpr
      (hright (Bool.eq_false_iff.mpr hfree))
    exact ⟨h.1, fun hreplace _ => h.2 hreplace⟩

variable [DecidableEq D]

/-- **Every step keeps the invariant**, where its comparison is right. -/
theorem Inv.step (hdigest : Function.Injective h.manifestDigest)
    (hblob : Function.Injective h.blobId) (hinv : σ.Inv h) {a : BundleAct K}
    (hcompares : σ.Compares h a) : (σ.step h a).Inv h := by
  cases a with
  | keys d s => exact hinv.setDevice (KeyState.sound_apply (hinv.sound d) s) (hinv.jobs d)
  | revoke d revoked => exact hinv.setDevice (hinv.sound d) (hinv.jobs d)
  | restart d => exact hinv.setDevice (hinv.sound d) jobSound_idle
  | plan d =>
    unfold KeyBundles.step
    dsimp only
    split
    next plan hjob hplan =>
      split
      · exact hinv
      · refine hinv.setJob ⟨?_, ?_⟩
        · intro plan' heq
          obtain rfl := Option.some.inj heq
          unfold Publisher.keyBundlePlan at hplan
          split at hplan
          · simp at hplan
          · dsimp only at hplan
            split at hplan
            · simp at hplan
            · obtain rfl := Option.some.inj hplan
              exact ⟨nodup_writableStreamKeys (hinv.sound d), rfl, rfl⟩
        · intro plan' blobId refused heq
          cases heq
    next => exact hinv
  | latest d =>
    unfold KeyBundles.step
    dsimp only
    split
    next plan hjob =>
      have hplan : plan.Sound h := (hinv.jobs d).plan plan (by rw [hjob]; rfl)
      split
      next hpin =>
        refine hinv.setJob ⟨?_, ?_⟩
        · intro plan' heq
          obtain rfl := Option.some.inj heq
          exact hplan
        · intro plan' blobId refused heq
          cases heq
      next pin hpin =>
        split
        next hsame =>
          -- equal digests are equal counts
          obtain ⟨b, hb, hid, hdig⟩ := hinv.digest pin hpin
          refine hinv.noteCurrent ⟨b, hb, hid, ?_⟩
          have hsealed := hinv.blobs b hb
          have hmanifest : manifestOf b.keys = manifestOf plan.keys := by
            rw [← hsealed.manifest_eq]
            apply hdigest
            rw [← hdig, hsame, hplan.digest_eq]
          have hcov : manifestCovers (manifestOf b.keys) (manifestOf plan.keys) := by
            rw [hmanifest]
            exact manifestCovers_manifestOf.mpr fun _ => le_rfl
          exact (hcompares plan pin hjob hpin hsame b hb hid).subset hsealed.nodup
            (countAt_le_of_covers hcov (.inl hsealed.length_le))
        next =>
          refine hinv.setJob ⟨?_, ?_⟩
          · intro plan' heq
            obtain rfl := Option.some.inj heq
            exact hplan
          · intro plan' blobId refused heq
            cases heq
    next => exact hinv
  | fetch d =>
    unfold KeyBundles.step
    dsimp only
    split
    next plan blobId hjob =>
      have hplan : plan.Sound h := (hinv.jobs d).plan plan (by rw [hjob]; rfl)
      split
      next => exact hinv.setJob jobSound_idle
      next b hfind =>
        have hb := List.mem_of_find?_eq_some hfind
        have hid : h.blobId b = blobId := of_decide_eq_true (List.find?_some hfind :)
        have hsealed := hinv.blobs b hb
        have hright := decideBundle_judge hplan.nodup hsealed fun hfree hcov =>
          hcompares plan blobId hjob b hb hid hfree (hplan.manifest_eq ▸ hcov)
        rw [hplan.manifest_eq]
        split
        next hcov => exact hinv.noteCurrent ⟨b, hb, hid, hright.1 hcov⟩
        next => exact hinv.setJob jobSound_idle
        next hreplace =>
          refine hinv.setJob ⟨?_, ?_⟩
          · intro plan' heq
            obtain rfl := Option.some.inj heq
            exact hplan
          · intro plan' blobId' refused heq
            injection heq with hsame hid' hrefused
            subst hsame
            exact ⟨b, hb, hid.trans (Option.some.inj hid'), fun hfree =>
              hright.2 hreplace (hrefused.trans hfree)⟩
    next => exact hinv
  | publish d nowMs =>
    unfold KeyBundles.step
    dsimp only
    split
    next plan replaces refused hjob =>
      split
      next => exact hinv.setJob jobSound_idle
      next b hb => exact hinv.pinKeyBundle hblob hjob (hcompares plan replaces refused hjob) hb
    next => exact hinv
  | lost d => exact hinv.setJob jobSound_idle

/-! ### Runs -/

omit [DecidableEq B] [DecidableEq D] in
theorem inv_start : (start : KeyBundles K D B).Inv h where
  sound := fun _ => Keychain.Sound.empty
  jobs := fun _ => jobSound_idle
  blobs := by simp [start]
  pin := rfl
  digest := by simp [start]
  pins := by simp [start]
  grow := by simp [start]
  current := by simp [start]

theorem run_concat (acts : List (BundleAct K)) (a : BundleAct K) :
    run h (acts ++ [a]) = (run h acts).step h a := by
  unfold run
  rw [List.foldl_append, List.foldl_cons, List.foldl_nil]

theorem comparesAll_nil : ComparesAll h ([] : List (BundleAct K)) := by
  intro acts a hle
  have hlength := hle.length_le
  simp at hlength

theorem ComparesAll.concat {acts : List (BundleAct K)} (hacts : ComparesAll h acts)
    {a : BundleAct K} (ha : (run h acts).Compares h a) : ComparesAll h (acts ++ [a]) := by
  intro acts' a' hle
  rcases List.prefix_concat_iff.mp hle with heq | hle
  · obtain ⟨rfl, hsame⟩ := List.append_inj' heq rfl
    obtain rfl := List.singleton_inj.mp hsame
    exact ha
  · exact hacts acts' a' hle

theorem inv_run (hdigest : Function.Injective h.manifestDigest)
    (hblob : Function.Injective h.blobId) (acts : List (BundleAct K))
    (hcompares : ComparesAll h acts) : (run h acts).Inv h := by
  induction acts using List.reverseRecOn with
  | nil => exact inv_start
  | append_singleton acts a ih =>
    rw [run_concat]
    apply Inv.step hdigest hblob
    · exact ih fun acts' a' hle => hcompares acts' a' (hle.trans (List.prefix_append _ _))
    · exact hcompares acts a List.prefix_rfl

variable (h) in
/-- A device finds nothing to publish only where the bundle it goes by carries all it would
publish; and of two pins the later carries, and gives back, every key of the earlier, unless
between them a device refused the bundle it replaced. The last pin stands. -/
def KeepsKeys (σ : KeyBundles K D B) : Prop :=
  (∀ x ∈ σ.current, ∃ b ∈ σ.blobs, h.blobId b = x.2 ∧ x.1 ⊆ b.keys) ∧
  (∀ (i j : ℕ) (a b : PinRecord K), i ≤ j → σ.pins[i]? = some a → σ.pins[j]? = some b →
    (∀ (k : ℕ) (c : PinRecord K), i < k → k ≤ j → σ.pins[k]? = some c → c.refused = false) →
    a.bundle.keys ⊆ b.bundle.keys ∧ a.bundle.recoverable ⊆ b.bundle.recoverable) ∧
  σ.pin.map (·.blobId) = σ.pins.getLast?.map fun r => h.blobId r.bundle

omit [DecidableEq B] [DecidableEq D] in
theorem Inv.subset (hinv : σ.Inv h) {i j : ℕ} {a b : PinRecord K} (hle : i ≤ j)
    (ha : σ.pins[i]? = some a) (hb : σ.pins[j]? = some b)
    (hkept : ∀ (k : ℕ) (c : PinRecord K), i < k → k ≤ j → σ.pins[k]? = some c →
      c.refused = false) : a.bundle.keys ⊆ b.bundle.keys := by
  induction j, hle using Nat.le_induction generalizing b with
  | base =>
    rw [ha] at hb
    rw [Option.some.inj hb]
    exact List.Subset.refl _
  | succ j hle ih =>
    obtain ⟨hlt, -⟩ := List.getElem?_eq_some_iff.mp hb
    obtain ⟨c, hc⟩ : ∃ c, σ.pins[j]? = some c := ⟨_, List.getElem?_eq_getElem (by omega)⟩
    have hstep := hinv.grow j c b hc hb (hkept (j + 1) b (by omega) le_rfl hb)
    have hbefore := ih hc fun k c' hlt' hle' => hkept k c' hlt' (by omega)
    exact fun k hk => hstep (hbefore hk)

/-- **The pinned bundle never loses a key**, over any run in which, at every comparison, one of
the two key sets includes the other at each stream and epoch, and no epoch is out of range. -/
theorem pins_grow (hdigest : Function.Injective h.manifestDigest)
    (hblob : Function.Injective h.blobId) (acts : List (BundleAct K))
    (hcompares : ComparesAll h acts) : (run h acts).KeepsKeys h := by
  have hinv := inv_run hdigest hblob acts hcompares
  refine ⟨hinv.current, fun i j a b hle ha hb hkept => ?_, hinv.pin⟩
  have hsub := hinv.subset hle ha hb hkept
  obtain ⟨hain, haepoch⟩ := hinv.pins a (List.mem_of_getElem? ha)
  obtain ⟨hbin, hbepoch⟩ := hinv.pins b (List.mem_of_getElem? hb)
  rw [(hinv.blobs _ hain).recoverable_eq haepoch, (hinv.blobs _ hbin).recoverable_eq hbepoch]
  exact ⟨hsub, hsub⟩

namespace Sample

def hashes : BundleHash ℕ (List ManifestEntry) (KeyBundle ℕ) := ⟨id, id, id⟩

/-- Device `1` mints a stream's first epoch and publishes; device `2` takes the key, mints
another stream's, and publishes. -/
def inTurn : List (BundleAct ℕ) :=
  [.keys 1 (.mint 5 10), .plan 1, .latest 1, .publish 1 1000,
    .keys 2 (.absorb 5 ⟨1, one_le_epochMax⟩ 10 (.envelope 1)), .keys 2 (.mint 6 30),
    .plan 2, .latest 2, .fetch 2, .publish 2 2000]

/-- What the first device publishes. -/
def firstPlan : KeyBundlePlan ℕ (List ManifestEntry) := ⟨[⟨5, 1, 10⟩], [⟨5, 1, 1⟩], [⟨5, 1, 1⟩]⟩

def secondPlan : KeyBundlePlan ℕ (List ManifestEntry) :=
  ⟨[⟨5, 1, 10⟩, ⟨6, 1, 30⟩], [⟨5, 1, 1⟩, ⟨6, 1, 1⟩], [⟨5, 1, 1⟩, ⟨6, 1, 1⟩]⟩

/-- Both devices mint the stream's first epoch. -/
def oneEpoch : List (BundleAct ℕ) :=
  [.keys 1 (.mint 5 10), .keys 2 (.mint 5 20), .plan 1, .latest 1, .publish 1 1000,
    .plan 2, .latest 2, .keys 2 (.mint 6 30), .plan 2, .latest 2, .fetch 2, .publish 2 2000]

end Sample

open Sample in
theorem pins_grow_in_turn :
    (run hashes inTurn).KeepsKeys hashes ∧ ∃ a b, (run hashes inTurn).pins = [a, b] ∧
      a.bundle.keys = [⟨5, 1, 10⟩] ∧ b.bundle.keys = [⟨5, 1, 10⟩, ⟨6, 1, 30⟩] := by
  refine ⟨pins_grow Function.injective_id Function.injective_id inTurn ?_,
    ⟨_, _, rfl, rfl, rfl⟩⟩
  have h := (comparesAll_nil (h := hashes)).concat (a := .keys 1 (.mint 5 10)) trivial
  have h := h.concat (a := .plan 1) trivial
  have h := h.concat (a := .latest 1) fun plan pin _ hpin => nomatch hpin
  have h := h.concat (a := .publish 1 1000) fun plan replaces refused hjob => by
    obtain rfl : plan = firstPlan := Option.some.inj (congrArg PublishJob.plan hjob.symm)
    decide
  have h := h.concat (a := .keys 2 (.absorb 5 ⟨1, one_le_epochMax⟩ 10 (.envelope 1))) trivial
  have h := h.concat (a := .keys 2 (.mint 6 30)) trivial
  have h := h.concat (a := .plan 2) trivial
  have h := h.concat (a := .latest 2) fun plan pin hjob hpin hsame => by
    obtain rfl : plan = secondPlan := Option.some.inj (congrArg PublishJob.plan hjob.symm)
    obtain rfl := Option.some.inj hpin
    exact absurd hsame (by decide)
  have h := h.concat (a := .fetch 2) fun plan blobId hjob b hb hid hfree _ => by
    obtain rfl : plan = secondPlan := Option.some.inj (congrArg PublishJob.plan hjob.symm)
    obtain rfl := List.mem_singleton.mp hb
    exact (nested_of_subset (by decide)).symm
  have h := h.concat (a := .publish 2 2000) fun plan replaces refused hjob => by
    obtain rfl : plan = secondPlan := Option.some.inj (congrArg PublishJob.plan hjob.symm)
    decide
  exact h

open Sample in
/-- **One epoch minted twice, and a key is lost**: the second device first takes the pin for
one that carries its key, and then replaces it with one that has not the first device's. -/
theorem not_pins_grow_one_epoch :
    (∃ x ∈ (run hashes oneEpoch).current, x.1 = [⟨5, 1, 20⟩] ∧ x.2.keys = [⟨5, 1, 10⟩]) ∧
      (∃ a b, (run hashes oneEpoch).pins = [a, b] ∧ b.refused = false ∧
        a.bundle.keys = [⟨5, 1, 10⟩] ∧ b.bundle.keys = [⟨5, 1, 20⟩, ⟨6, 1, 30⟩]) ∧
      ¬ (run hashes oneEpoch).KeepsKeys hashes := by
  have hpins : ∃ a b, (run hashes oneEpoch).pins = [a, b] ∧ b.refused = false ∧
      a.bundle.keys = [⟨5, 1, 10⟩] ∧ b.bundle.keys = [⟨5, 1, 20⟩, ⟨6, 1, 30⟩] :=
    ⟨_, _, rfl, rfl, rfl, rfl⟩
  refine ⟨⟨_, List.mem_singleton.mpr rfl, rfl, rfl⟩, hpins, fun hkeeps => ?_⟩
  obtain ⟨a, b, heq, hrefused, ha, hb⟩ := hpins
  have hsub := (hkeeps.2.1 0 1 a b (by omega) (by rw [heq]; rfl) (by rw [heq]; rfl)
    fun k c hlt hle hc => by
      obtain rfl : k = 1 := by omega
      rw [heq] at hc
      obtain rfl := Option.some.inj hc
      exact hrefused).1
  rw [ha, hb] at hsub
  have hlost := hsub (List.mem_singleton.mpr rfl)
  revert hlost
  decide

end KeyBundles

end Sunrise
