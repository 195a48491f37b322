import Sunrise.Trust.Account

/-!
# Membership under rotation

The roster of a transition is written by the delivery that makes the transition the head,
and by no other; a certificate is written under the identity that issued it whenever it
comes. So the current devices are those that the head certified, in its roster or by a
certificate of their own, as long as each transition comes before those that follow it,
and no certificate comes after its identity's successor has moved its device on. Where a
transition comes after one that follows it, the roster of the head is left out.

* `rosterDevices`, `Certifies` — whom an op certifies.
* `Account.membership_converges` — two replicas.
* `Account.not_current_newest_first` — the run that leaves a roster out.
-/

namespace Sunrise

open Transitions

variable {cr : IdentityCrypto} {S W : Set TransitionRow} {genesis l : Link}
  {chain : List Link} {row : TransitionRow}

/-! ### The head as rows come -/

theorem Chain.exists_leaving (hSW : S ⊆ W) (h : Chain cr S genesis (l :: chain)) :
    ∀ x ∈ chain, ∃ row ∈ S, Signed cr W genesis row ∧ row.body.fromIdentityId = x.1 := by
  generalize hc : l :: chain = c at h
  induction h generalizing l chain with
  | genesis =>
    obtain ⟨-, rfl⟩ := List.cons.inj hc
    simp
  | @next l' chain' row h hnext _ ih =>
    obtain ⟨-, rfl⟩ := List.cons.inj hc
    intro x hx
    rcases List.mem_cons.mp hx with rfl | hx
    · exact ⟨row, hnext.mem, ⟨_, h.known hSW _ List.mem_cons_self, hnext.source.symm,
        hnext.verifies⟩, hnext.source⟩
    · exact ih rfl x hx

theorem Chain.of_insert (h : Chain cr (insert row S) genesis chain) (hnot : row.link ∉ chain) :
    Chain cr S genesis chain := by
  induction h with
  | genesis => exact .genesis
  | @next l' chain' row' h hnext hmax ih =>
    have hne : row' ≠ row := fun heq => hnot (heq ▸ List.mem_cons_self)
    refine (ih fun hm => hnot (List.mem_cons_of_mem _ hm)).next
      ⟨hnext.mem.resolve_left hne, hnext.source, hnext.verifies, hnext.fresh⟩ fun r hr => ?_
    exact hmax r ⟨.inr hr.mem, hr.source, hr.verifies, hr.fresh⟩

theorem Signed.from_ne_to (h : Signed cr W genesis row) :
    row.body.fromIdentityId ≠ row.body.toIdentityId := by
  obtain ⟨l, -, -, hv⟩ := h
  obtain ⟨hbind, -⟩ := Bool.and_eq_true_iff.mp (Bool.and_eq_true_iff.mp hv).1
  obtain ⟨h₁, h₂, hne⟩ := of_decide_eq_true hbind
  rwa [h₁, h₂] at hne

/-- **A row either makes the head or changes no chain**, where no signed row leaves its
successor yet. -/
theorem FullChain.insert_row (hd : DistinctSuccessors W) (hr : Ranked W) (hSW : insert row S ⊆ W)
    (hgen : row.body.toIdentityId ≠ genesis.1)
    (hfirst : ∀ r ∈ S, r.body.fromIdentityId = row.body.toIdentityId → ¬ Signed cr W genesis r)
    {c c' : List Link} (hc : FullChain cr S genesis c)
    (hc' : FullChain cr (insert row S) genesis c') : c' = c ∨ c'.head? = some row.link := by
  by_cases hmem : row.link ∈ c'
  · right
    obtain ⟨l, chain, rfl⟩ := List.exists_cons_of_ne_nil hc'.1.ne_nil
    rcases List.mem_cons.mp hmem with heq | hmem
    · rw [List.head?_cons, heq]
    · obtain ⟨r, hrS, hs, hsource⟩ := hc'.1.exists_leaving hSW _ hmem
      rcases hrS with rfl | hrS
      · exact absurd hsource hs.from_ne_to
      · exact absurd hs (hfirst r hrS hsource)
  · left
    have hpart : FullChain cr S genesis c' := ⟨hc'.1.of_insert hmem, fun l r hl hn =>
      hc'.2 l r hl ⟨.inr hn.mem, hn.source, hn.verifies, hn.fresh⟩⟩
    have hSW' : S ⊆ W := (Set.subset_insert _ _).trans hSW
    exact hpart.unique (fun a ha b hb => hd a (hSW' ha) b (hSW' hb))
      (fun a ha => hr a (hSW' ha)) hc

/-! ### Whom an op certifies -/

def rosterDevices (cr : IdentityCrypto) (p : IdentityTransitionPayload) : List Device :=
  p.roster.filterMap fun blob => (cr.certFromCbor blob).map (·.deviceId)

/-- The op certifies a device under an identity: the device's own certificate, or an entry
of the roster of the transition that led to it. -/
def Certifies (cr : IdentityCrypto) (op : ControlOp) (d : Device) (h : Link) : Prop :=
  match op.inner with
  | .deviceCertPublish blob => d = op.ref.device ∧ ∃ cert, cr.certFromCbor blob = some cert ∧
      cert.deviceId = d ∧ cert.verifyBinding cr h.2 h.1
  | .identityTransition p => p.toIdentityId = h.1 ∧ (bodyOf cr p).isSome ∧
      d ∈ rosterDevices cr p

def transitionsOf (ops : List ControlOp) : List TransitionOp := ops.filterMap (·.transition)

def Devices.At (devices : Devices) (d : Device) (id : IdentityId) : Prop :=
  ∃ row, devices.find d = some row ∧ row.identityId = some id

instance (devices : Devices) (d : Device) (id : IdentityId) : Decidable (devices.At d id) :=
  decidable_of_iff ((devices.find d).bind (·.identityId) = some id) Option.bind_eq_some_iff

/-! ### The table of devices -/

theorem find_bindDevice_of_ne {devices : Devices} {cert : DeviceCert} {blob : Bytes}
    {issuer : IdentityId} {d : Device} (h : d ≠ cert.deviceId) :
    (bindDevice devices cert blob issuer).find d = devices.find d := by
  unfold bindDevice
  split <;> exact Table.find_upsert_of_ne _ _ h

theorem at_bindDevice_self (devices : Devices) (cert : DeviceCert) (blob : Bytes)
    (issuer : IdentityId) : (bindDevice devices cert blob issuer).At cert.deviceId issuer := by
  unfold bindDevice
  split <;> exact ⟨_, Table.find_upsert_self _ _ _, rfl⟩

theorem at_bindDevice_iff {devices : Devices} {cert : DeviceCert} {blob : Bytes}
    {issuer id : IdentityId} {d : Device} : (bindDevice devices cert blob issuer).At d id ↔
      if d = cert.deviceId then id = issuer else devices.At d id := by
  split
  next heq =>
    subst heq
    obtain ⟨row, hf, hid⟩ := at_bindDevice_self devices cert blob issuer
    constructor
    · rintro ⟨row', hf', hid'⟩
      rw [hf, Option.some.injEq] at hf'
      rw [← hf', hid, Option.some.injEq] at hid'
      exact hid'.symm
    · rintro rfl
      exact ⟨row, hf, hid⟩
  next hne => simp only [Devices.At, find_bindDevice_of_ne hne]

theorem rebindsKey_congr {devices devices' : Devices} {cert : DeviceCert}
    (h : (devices.find cert.deviceId).map (·.dDPub) = (devices'.find cert.deviceId).map (·.dDPub)) :
    rebindsKey devices cert = rebindsKey devices' cert := by
  unfold rebindsKey
  cases hf : devices.find cert.deviceId <;> cases hf' : devices'.find cert.deviceId <;>
    simp_all

theorem find_applyRoster_of_not_mem {p : IdentityTransitionPayload} {target : IdentityId}
    {d : Device} (hd : d ∉ rosterDevices cr p) (devices : Devices) :
    (applyRoster cr devices p.roster target).find d = devices.find d := by
  unfold applyRoster
  have hnot : ∀ blob ∈ p.roster, ∀ cert, cr.certFromCbor blob = some cert → cert.deviceId ≠ d :=
    fun blob hb cert hc heq => hd (List.mem_filterMap.mpr ⟨blob, hb, by rw [hc, ← heq]; rfl⟩)
  clear hd
  generalize p.roster = roster at hnot
  induction roster generalizing devices with
  | nil => rfl
  | cons blob roster ih =>
    rw [List.foldl_cons, ih _ fun b hb => hnot b (List.mem_cons_of_mem _ hb)]
    split
    · rfl
    next cert hcert =>
      split
      · rfl
      · exact find_bindDevice_of_ne (hnot blob List.mem_cons_self cert hcert).symm

theorem at_of_applyRoster {roster : List Bytes} {target id : IdentityId} {d : Device}
    {devices : Devices} (h : (applyRoster cr devices roster target).At d id) :
    devices.At d id ∨ id = target := by
  unfold applyRoster at h
  induction roster generalizing devices with
  | nil => exact .inl h
  | cons blob roster ih =>
    rw [List.foldl_cons] at h
    rcases ih h with h | h
    · split at h
      · exact .inl h
      next cert =>
        split at h
        · exact .inl h
        · rw [at_bindDevice_iff] at h
          split at h
          · exact .inr h
          · exact .inl h
    · exact .inr h

theorem at_applyRoster {roster : List Bytes} {target : IdentityId} {d : Device}
    {devices : Devices}
    (h : devices.At d target ∨ ∃ blob ∈ roster, ∃ cert, cr.certFromCbor blob = some cert ∧
      cert.deviceId = d)
    (hkeys : devices.At d target ∨ ∀ blob ∈ roster, ∀ cert, cr.certFromCbor blob = some cert →
      cert.deviceId = d → rebindsKey devices cert = false) :
    (applyRoster cr devices roster target).At d target := by
  unfold applyRoster
  induction roster generalizing devices with
  | nil => exact h.resolve_right (by simp)
  | cons blob roster ih =>
    rw [List.foldl_cons]
    cases hcert : cr.certFromCbor blob with
    | none =>
      refine ih (h.imp_right ?_) (hkeys.imp_right fun hk b hb => hk b (List.mem_cons_of_mem _ hb))
      rintro ⟨b, hb, cert, hc, hd⟩
      rcases List.mem_cons.mp hb with rfl | hb
      · simp [hcert] at hc
      · exact ⟨b, hb, cert, hc, hd⟩
    | some cert =>
      dsimp only
      by_cases hd : cert.deviceId = d
      · -- the first entry of the device moves it; a later one leaves it there
        have hat : (if rebindsKey devices cert then devices
            else bindDevice devices cert blob target).At d target := by
          split
          next hre =>
            refine hkeys.resolve_right fun hk => ?_
            rw [hk blob List.mem_cons_self cert hcert hd] at hre
            exact Bool.false_ne_true hre
          next => exact hd ▸ at_bindDevice_self _ _ _ _
        exact ih (.inl hat) (.inl hat)
      · have hfind : (if rebindsKey devices cert then devices
            else bindDevice devices cert blob target).find d = devices.find d := by
          split
          · rfl
          · exact find_bindDevice_of_ne (Ne.symm hd)
        have hat : (if rebindsKey devices cert then devices
            else bindDevice devices cert blob target).At d target ↔ devices.At d target := by
          simp only [Devices.At, hfind]
        refine ih (h.imp hat.mpr ?_) (hkeys.imp hat.mpr fun hk b hb cert' hc hd' => ?_)
        · rintro ⟨b, hb, cert', hc, hd'⟩
          rcases List.mem_cons.mp hb with rfl | hb
          · rw [hcert, Option.some.injEq] at hc
            exact absurd (hc ▸ hd') hd
          · exact ⟨b, hb, cert', hc, hd'⟩
        · have hfind' : Option.map (·.dDPub) ((if rebindsKey devices cert then devices
              else bindDevice devices cert blob target).find cert'.deviceId) =
              (devices.find cert'.deviceId).map (·.dDPub) := by rw [hd', hfind]
          rw [rebindsKey_congr hfind']
          exact hk b (List.mem_cons_of_mem _ hb) cert' hc hd'

namespace Account

variable {r : LocalDevice} {st st' st'' : Account}

/-! ### The identity a replica signs with -/

/-- A certificate this device published for itself holds under an identity. -/
def Publishes (r : LocalDevice) (st : Account) (h : Link) : Prop :=
  ∃ blob ∈ st.published, ∃ cert, r.crypto.certFromCbor blob = some cert ∧
    cert.deviceId = r.self ∧ cert.verifyBinding r.crypto h.2 h.1

/-- What adopting may write: the device's own row, moved onto a successor whose roster
names it, or for which it published a certificate. -/
structure Moves (r : LocalDevice) (st st' : Account) : Prop where
  transitions : st'.transitions = st.transitions
  applied : st'.applied = st.applied
  others : ∀ d, d ≠ r.self → st'.devices.find d = st.devices.find d
  keys : ∀ d, (st'.devices.find d).map (·.dDPub) = (st.devices.find d).map (·.dDPub)
  published : ∀ blob ∈ st.published, blob ∈ st'.published
  /-- The own row names what it did, or a successor whose roster names the device, or for
  which it published a certificate. -/
  own : ∀ id, st'.devices.At r.self id → st.devices.At r.self id ∨
    ∃ row, st.transitions.find id = some row ∧ (r.self ∈ rosterDevices r.crypto row.payload ∨
      Publishes r st' (id, row.payload.toIdSPub))

theorem Moves.refl (st : Account) : Moves r st st :=
  ⟨rfl, rfl, fun _ _ => rfl, fun _ => rfl, fun _ h => h, fun _ h => .inl h⟩

theorem Publishes.mono {h : Link} (hsub : ∀ blob ∈ st.published, blob ∈ st'.published)
    (hp : Publishes r st h) : Publishes r st' h := by
  obtain ⟨blob, hb, hcert⟩ := hp
  exact ⟨blob, hsub blob hb, hcert⟩

theorem Moves.trans (h : Moves r st st') (h' : Moves r st' st'') : Moves r st st'' where
  transitions := h'.transitions.trans h.transitions
  applied := h'.applied.trans h.applied
  others d hd := (h'.others d hd).trans (h.others d hd)
  keys d := (h'.keys d).trans (h.keys d)
  published blob hb := h'.published blob (h.published blob hb)
  own id hat := by
    rcases h'.own id hat with hat | hrow
    · refine (h.own id hat).imp_right ?_
      rintro ⟨row, hf, hself⟩
      exact ⟨row, hf, hself.imp_right (.mono h'.published)⟩
    · exact .inr (h.transitions ▸ hrow)

theorem Moves.chain_eq (h : Moves r st st') : st'.chain r = st.chain r := by
  unfold Account.chain
  rw [h.transitions]

/-- A stored row leads to the identity it is stored at. -/
def Named (t : Transitions) : Prop :=
  ∀ id row, t.find id = some row → row.payload.toIdentityId = id

theorem moves_adopt {row : TransitionRow} {blob : Bytes} {published : List Bytes}
    (hrow : st.transitions.find row.payload.toIdentityId = some row)
    (hpub : ∀ b ∈ st.published, b ∈ published)
    (hself : r.self ∈ rosterDevices r.crypto row.payload ∨
      Publishes r { st.adopt r row.payload blob with published }
        (row.payload.toIdentityId, row.payload.toIdSPub)) :
    Moves r st { st.adopt r row.payload blob with published } := by
  have hfind : ∀ d, (st.adopt r row.payload blob).devices.find d =
      (st.devices.find d).map fun old => if d = r.self then
        { old with certBlob := blob, identityId := some row.payload.toIdentityId } else old :=
    fun d => Table.find_mapValues _ _ _
  refine ⟨rfl, rfl, fun d hd => ?_, fun d => ?_, hpub, fun id hat => ?_⟩
  · show (st.adopt r row.payload blob).devices.find d = _
    rw [hfind]
    simp [hd]
  · show ((st.adopt r row.payload blob).devices.find d).map _ = _
    rw [hfind, Option.map_map]
    congr 1
    funext old
    by_cases hd : d = r.self <;> simp [hd]
  · obtain ⟨new, hnew, hid⟩ := hat
    right
    replace hnew : (st.adopt r row.payload blob).devices.find r.self = some new := hnew
    rw [hfind] at hnew
    obtain ⟨old, -, rfl⟩ := Option.map_eq_some_iff.mp hnew
    rw [if_pos rfl] at hid
    obtain rfl := Option.some.inj hid
    exact ⟨row, hrow, hself⟩

theorem mem_of_rosterCert {p : IdentityTransitionPayload} {blob : Bytes}
    (h : rosterCert r p = some blob) : r.self ∈ rosterDevices r.crypto p := by
  unfold rosterCert at h
  have hself := List.find?_some h
  refine List.mem_filterMap.mpr ⟨blob, List.mem_of_find?_eq_some h, ?_⟩
  cases hdec : r.crypto.certFromCbor blob with
  | none => simp [hdec] at hself
  | some cert => simpa [hdec] using hself

theorem publishes_of_namesSelf {p : IdentityTransitionPayload} {blob : Bytes}
    (h : namesSelf r p blob) (hmem : blob ∈ st.published) :
    Publishes r st (p.toIdentityId, p.toIdSPub) := by
  obtain ⟨cert, hdec, hcert⟩ := (Option.any_eq_true _ _).mp h
  obtain ⟨hv, hself⟩ := Bool.and_eq_true_iff.mp hcert
  exact ⟨blob, hmem, cert, hdec, (of_decide_eq_true hself).1, hv⟩

theorem moves_adoptLink (hn : Named st.transitions) (target : IdentityId) :
    Moves r st (st.adoptLink r target).1 := by
  unfold adoptLink
  split
  · exact .refl st
  next row hrow =>
    obtain rfl := hn target row hrow
    dsimp only
    split
    · exact .refl st
    · split
      next blob hcert =>
        split
        · exact moves_adopt hrow (fun _ hb => hb) (.inl (mem_of_rosterCert hcert))
        · exact .refl st
      next hcert =>
        split
        · exact .refl st
        next blob hissues =>
          split
          next hself =>
            exact moves_adopt hrow (fun _ hb => List.mem_cons_of_mem _ hb)
              (.inr (publishes_of_namesSelf hself List.mem_cons_self))
          next => exact .refl st

theorem moves_adoptLinks (hn : Named st.transitions) (links : List Link) :
    Moves r st (st.adoptLinks r links) := by
  induction links generalizing st with
  | nil => exact .refl st
  | cons l links ih =>
    have h := moves_adoptLink (r := r) hn l.1
    unfold adoptLinks
    generalize hres : st.adoptLink r l.1 = res at h
    obtain ⟨st', ok⟩ := res
    cases ok with
    | true => exact h.trans (ih (h.transitions ▸ hn))
    | false => exact h

theorem moves_recompute (hn : Named st.transitions) :
    Moves r st (st.recomputeIdentityHead r) := by
  unfold recomputeIdentityHead
  dsimp only
  split
  · exact .refl st
  · have h := moves_adoptLinks (r := r) hn
      ((st.chain r).reverse.dropWhile fun l => decide (l.1 ≠ st.identity)).tail
    split
    · exact h.trans (moves_adoptLink (h.transitions ▸ hn) _)
    · exact h

/-! ### The conditions on a delivery -/

/-- A certificate comes when its identity is on the chain, keeps its device's key, and
does not take a current device back to a retired identity. -/
structure SteadyCert (r : LocalDevice) (st : Account) (cert : DeviceCert) : Prop where
  issued : (st.issuer r cert).isSome
  key : rebindsKey st.devices cert = false
  /-- Where a retired identity issued it, its device is not current. -/
  ahead : ∀ l, st.issuer r cert = some l → l ≠ st.head r → ¬ st.Current r cert.deviceId

/-- A transition comes before those that follow it, leads to a new identity and keeps the
keys of its roster's devices; the cap is fair to it; and this device signs under the head
where its own row names the head. -/
structure SteadyTransition (r : LocalDevice) (W : Set TransitionRow) (st : Account)
    (row : TransitionRow) : Prop where
  fair : Transitions.Fair r.crypto W r.genesis st.transitions row
  first : ∀ k held, st.transitions.find k = some held →
    held.body.fromIdentityId = row.body.toIdentityId → ¬ Signed r.crypto W r.genesis held
  onward : row.body.toIdentityId ≠ r.genesis.1
  keys : ∀ blob ∈ row.payload.roster, ∀ cert, r.crypto.certFromCbor blob = some cert →
    rebindsKey st.devices cert = false
  /-- This device signs under the head where its row names the head. -/
  signs : st.Current r r.self → st.identity = (st.head r).1

/-- The conditions on one delivery. -/
def Steady (r : LocalDevice) (W : Set TransitionRow) (st : Account) (op : ControlOp) : Prop :=
  match op.inner with
  | .deviceCertPublish blob => ∀ cert, r.crypto.certFromCbor blob = some cert →
      cert.deviceId = op.ref.device → SteadyCert r st cert
  | .identityTransition p => ∀ row,
      TransitionOp.row r.crypto ⟨op.ref.device, op.hlc, op.metaEpoch, p⟩ = some row →
        SteadyTransition r W st row

/-- The conditions on every delivery of a run that the replica applies. -/
def SteadyRun (r : LocalDevice) (W : Set TransitionRow) : Account → List ControlOp → Prop
  | _, [] => True
  | st, op :: ops => (st.admits r op → op.ref ∉ st.applied → Steady r W st op) ∧
      SteadyRun r W (st.deliver r op) ops

/-! ### What a replica holds -/

abbrev rows (r : LocalDevice) (ops : List ControlOp) : Set TransitionRow :=
  rowsOf r.crypto (transitionsOf ops)

def Reached (r : LocalDevice) (S : Set TransitionRow) (id : IdentityId) : Prop :=
  id = r.genesis.1 ∨ ∃ row ∈ S, row.body.toIdentityId = id

/-- An op certifies a device under an identity, or the replica started with it under the
genesis. -/
def Certified (r : LocalDevice) (devices : Devices) (done : List ControlOp) (d : Device)
    (h : Link) : Prop :=
  (∃ op ∈ done, Certifies r.crypto op d h) ∨ (h.1 = r.genesis.1 ∧ devices.At d r.genesis.1)

/-- What a replica holds once it has applied `done`, from the certificates it started
with. -/
structure Inv (r : LocalDevice) (W : Set TransitionRow) (devices : Devices) (done : List ControlOp)
    (st : Account) : Prop where
  applied : ∀ ref, ref ∈ st.applied ↔ ∃ op ∈ done, op.ref = ref
  keeps : Transitions.Keeps r.crypto W (rows r done) r.genesis st.transitions
  ids : ∀ d id, st.devices.At d id → Reached r (rows r done) id
  certs : ∀ op ∈ done, ∀ blob cert, op.inner = .deviceCertPublish blob →
    r.crypto.certFromCbor blob = some cert → cert.deviceId = op.ref.device →
      Reached r (rows r done) cert.identityId
  onward : ∀ row ∈ rows r done, row.body.toIdentityId ≠ r.genesis.1
  complete : ∀ d, Certified r devices done d (st.head r) → st.Current r d
  /-- The current devices are those, and this one where it published a certificate. -/
  sound : ∀ d, st.Current r d → Certified r devices done d (st.head r) ∨
    (d = r.self ∧ Publishes r st (st.head r))

theorem mem_rows {done : List ControlOp} {row : TransitionRow} : row ∈ rows r done ↔
    ∃ op ∈ done, ∃ t, op.transition = some t ∧ t.row r.crypto = some row := by
  simp only [rows, rowsOf, transitionsOf, Set.mem_ofPred_eq, List.mem_filterMap]
  constructor
  · rintro ⟨t, ⟨op, hop, ht⟩, hrow⟩
    exact ⟨op, hop, t, ht, hrow⟩
  · rintro ⟨op, hop, t, ht, hrow⟩
    exact ⟨t, ⟨op, hop, ht⟩, hrow⟩

theorem rows_mono {done done' : List ControlOp} (h : ∀ op ∈ done, op ∈ done') :
    rows r done ⊆ rows r done' := by
  intro row hrow
  obtain ⟨op, hop, hrest⟩ := mem_rows.mp hrow
  exact mem_rows.mpr ⟨op, h op hop, hrest⟩

theorem payload_of_row {t : TransitionOp} {row : TransitionRow} (h : t.row cr = some row) :
    row.payload = t.payload ∧ (bodyOf cr t.payload).isSome := by
  obtain ⟨body, hb, rfl⟩ := Option.map_eq_some_iff.mp h
  exact ⟨rfl, by rw [hb]; rfl⟩

theorem link_of_row {t : TransitionOp} {row : TransitionRow} (h : t.row cr = some row) :
    row.link = (row.payload.toIdentityId, row.payload.toIdSPub) := by
  obtain ⟨body, hb, rfl⟩ := Option.map_eq_some_iff.mp h
  unfold bodyOf at hb
  split at hb
  · simp at hb
  · simp only [Option.bind_eq_bind, Option.bind_eq_some_iff] at hb
    obtain ⟨_, -, _, -, hb⟩ := hb
    split at hb
    · rw [← Option.some.inj hb]
      rfl
    · simp at hb

theorem Inv.reached_head {devices : Devices} {done : List ControlOp}
    (h : Inv r W devices done st) (hd : DistinctSuccessors W) (hSW : rows r done ⊆ W) :
    st.head r = r.genesis ∨ ∃ row ∈ rows r done, row.link = st.head r := by
  have hfull := h.keeps.fullChain hd hSW
  obtain ⟨l, rest, heq⟩ := List.exists_cons_of_ne_nil hfull.1.ne_nil
  have hhead : st.head r = l := by
    unfold Account.head currentIdentity
    rw [heq]
    rfl
  rw [hhead]
  rcases (heq ▸ hfull.1).row_of_mem List.mem_cons_self with h | ⟨row, hrow, hlink, -⟩
  · exact .inl h
  · exact .inr ⟨row, hrow, hlink⟩

/-! ### A certificate -/

theorem id_of_verifyBinding {cert : DeviceCert} {pk : PubKey} {id : IdentityId}
    (h : cert.verifyBinding cr pk id) : cert.identityId = id := by
  obtain ⟨-, h⟩ := Bool.and_eq_true_iff.mp h
  obtain ⟨h₁, h₂⟩ := of_decide_eq_true h
  exact h₁.symm.trans h₂

theorem issuer_spec {cert : DeviceCert} {l : Link} (h : st.issuer r cert = some l) :
    l ∈ st.chain r ∧ cert.verifyBinding r.crypto l.2 l.1 :=
  ⟨List.mem_reverse.mp (List.mem_of_find?_eq_some h), by simpa using List.find?_some h⟩

variable {devices : Devices} {done : List ControlOp} {op : ControlOp}

section

variable (h : Inv r W devices done st) (hd : DistinctSuccessors W) (hSW : rows r done ⊆ W)
include h hd hSW

theorem Inv.reached_chain {x : Link} (hx : x ∈ st.chain r) :
    Reached r (rows r done) x.1 ∧ Known W r.genesis x := by
  have hfull := h.keeps.fullChain hd hSW
  obtain ⟨l, rest, heq⟩ := List.exists_cons_of_ne_nil hfull.1.ne_nil
  refine ⟨?_, hfull.1.known hSW x hx⟩
  unfold Account.chain at hx
  rw [heq] at hx
  rcases (heq ▸ hfull.1).row_of_mem hx with rfl | ⟨row, hrow, hlink, -⟩
  · exact .inl rfl
  · exact .inr ⟨row, hrow, by rw [← hlink]; rfl⟩

theorem Inv.head_mem : st.head r ∈ st.chain r := by
  obtain ⟨l, rest, heq⟩ := List.exists_cons_of_ne_nil (h.keeps.fullChain hd hSW).1.ne_nil
  unfold Account.head Account.chain currentIdentity
  rw [heq]
  exact List.mem_cons_self

end

theorem rows_cons_of_none (hop : op.transition = none) : rows r (op :: done) = rows r done := by
  unfold rows transitionsOf
  rw [List.filterMap_cons_none hop]

theorem applied_cons (h : Inv r W devices done st) (ref : OpRef) :
    ref ∈ op.ref :: st.applied ↔ ∃ o ∈ op :: done, o.ref = ref := by
  rw [List.mem_cons, h.applied, List.exists_mem_cons_iff]
  exact or_congr_left eq_comm

theorem Inv.idle (h : Inv r W devices done st) (hrows : rows r (op :: done) = rows r done)
    (hcerts : ∀ blob cert, op.inner = .deviceCertPublish blob →
      r.crypto.certFromCbor blob = some cert → cert.deviceId ≠ op.ref.device)
    (hnone : ∀ d hl, ¬ Certifies r.crypto op d hl) :
    Inv r W devices (op :: done) { st with applied := op.ref :: st.applied } := by
  have hsame : ∀ d hl, Certified r devices (op :: done) d hl ↔ Certified r devices done d hl := by
    intro d hl
    unfold Certified
    rw [List.exists_mem_cons_iff]
    exact or_congr_left (or_iff_right (hnone d hl))
  refine ⟨applied_cons h, hrows ▸ h.keeps, hrows ▸ h.ids, ?_, hrows ▸ h.onward,
    fun d hd => h.complete d ((hsame d _).mp hd),
    fun d hd => (h.sound d hd).imp_left (hsame d _).mpr⟩
  intro o ho blob cert hinner hdec hself
  rcases List.mem_cons.mp ho with rfl | ho
  · exact absurd hself (hcerts blob cert hinner hdec)
  · rw [hrows]
    exact h.certs o ho blob cert hinner hdec hself

/-- **A certificate keeps the invariant.** -/
theorem Inv.certPublish (h : Inv r W devices done st) (hd : DistinctSuccessors W)
    (hSW : rows r done ⊆ W) {blob : Bytes} (hop : op.inner = .deviceCertPublish blob)
    (hsteady : Steady r W st op) : Inv r W devices (op :: done)
      ({ st with applied := op.ref :: st.applied }.applyCertPublish r op.ref.device blob) := by
  have hrows : rows r (op :: done) = rows r done :=
    rows_cons_of_none (by unfold ControlOp.transition; rw [hop])
  have hcertifies : ∀ d hl, Certifies r.crypto op d hl ↔ d = op.ref.device ∧
      ∃ cert, r.crypto.certFromCbor blob = some cert ∧ cert.deviceId = d ∧
        cert.verifyBinding r.crypto hl.2 hl.1 := by
    intro d hl
    unfold Certifies
    rw [hop]
  -- a certificate that is not this device's own leaves the tables and certifies nobody
  have hidle : (∀ cert, r.crypto.certFromCbor blob = some cert → cert.deviceId ≠ op.ref.device) →
      Inv r W devices (op :: done) { st with applied := op.ref :: st.applied } := by
    intro hnot
    refine h.idle hrows (fun b c hb hdec => ?_) fun d hl => ?_
    · rw [hop, ControlInner.deviceCertPublish.injEq] at hb
      exact hnot c (hb ▸ hdec)
    · rw [hcertifies]
      rintro ⟨rfl, cert, hc, hself, -⟩
      exact hnot cert hc hself
  unfold applyCertPublish
  cases hdec : r.crypto.certFromCbor blob with
  | none => exact hidle (by simp [hdec])
  | some cert =>
    dsimp only
    by_cases hself : cert.deviceId = op.ref.device
    case neg =>
      rw [if_pos hself]
      refine hidle fun c hc => ?_
      rw [hdec, Option.some.injEq] at hc
      exact hc ▸ hself
    rw [if_neg (not_not.mpr hself)]
    have hst : SteadyCert r st cert := by
      unfold Steady at hsteady
      rw [hop] at hsteady
      exact hsteady cert hdec hself
    obtain ⟨l, hl⟩ := Option.isSome_iff_exists.mp hst.issued
    obtain ⟨hmem, hv⟩ := issuer_spec hl
    obtain ⟨hreach, hknown⟩ := h.reached_chain hd hSW hmem
    have hl' : issuer r { st with applied := op.ref :: st.applied } cert = some l := hl
    rw [hl']
    dsimp only
    rw [hst.key, if_neg Bool.false_ne_true]
    have hid := id_of_verifyBinding hv
    -- the certificate verifies under the head exactly where the head issued it
    have hhead_known := (h.reached_chain hd hSW (h.head_mem hd hSW)).2
    have hissued : cert.verifyBinding r.crypto (st.head r).2 (st.head r).1 ↔
        l = st.head r := by
      constructor
      · intro hv'
        exact hknown.unique hd hhead_known (hid.symm.trans (id_of_verifyBinding hv'))
      · rintro rfl
        exact hv
    refine ⟨applied_cons h, hrows ▸ h.keeps, fun d id hat => ?_, ?_, hrows ▸ h.onward,
      fun d hcertified => ?_, fun d hcurrent => ?_⟩
    · rw [hrows]
      replace hat := at_bindDevice_iff.mp hat
      split at hat
      · exact hat ▸ hreach
      · exact h.ids d id hat
    · intro o ho b c hb hdec' hself'
      rw [hrows]
      rcases List.mem_cons.mp ho with rfl | ho
      · rw [hop, ControlInner.deviceCertPublish.injEq] at hb
        rw [← hb, hdec, Option.some.injEq] at hdec'
        rw [← hdec', hid]
        exact hreach
      · exact h.certs o ho b c hb hdec' hself'
    · refine at_bindDevice_iff.mpr ?_
      replace hcertified : Certified r devices (op :: done) d (st.head r) := hcertified
      unfold Certified at hcertified
      rw [List.exists_mem_cons_iff, hcertifies, or_assoc] at hcertified
      show if d = cert.deviceId then (st.head r).1 = l.1 else st.devices.At d (st.head r).1
      rcases hcertified with ⟨rfl, c, hc, -, hv'⟩ | hbefore
      · rw [hdec, Option.some.injEq] at hc
        rw [if_pos hself.symm, hissued.mp (hc ▸ hv')]
      · have hcurd := h.complete d hbefore
        split
        next heq =>
          by_contra hne
          exact hst.ahead l hl (fun heq' => hne (by rw [heq'])) (heq ▸ hcurd)
        next => exact hcurd
    · replace hcurrent : (bindDevice st.devices cert blob l.1).At d (st.head r).1 := hcurrent
      rw [at_bindDevice_iff] at hcurrent
      split at hcurrent
      next heq =>
        have hl₁ : l = st.head r := hknown.unique hd hhead_known hcurrent.symm
        refine .inl (.inl ⟨op, List.mem_cons_self, (hcertifies _ _).mpr ?_⟩)
        exact ⟨heq.trans hself, cert, hdec, heq.symm, hissued.mpr hl₁⟩
      next hne =>
        refine (h.sound d hcurrent).imp_left fun hc => ?_
        exact hc.imp_left fun ⟨o, ho, hcert⟩ => ⟨o, List.mem_cons_of_mem _ ho, hcert⟩

/-! ### A transition -/

theorem find_of_not_admitted {t : Transitions} {row : TransitionRow}
    (h : (t.record cr genesis row).2 = false) {k : IdentityId} {held : TransitionRow}
    (hf : (t.record cr genesis row).1.find k = some held) : t.find k = some held := by
  unfold Transitions.record at h hf
  dsimp only at h hf
  split at h <;> rename_i hfind <;> rw [hfind] at hf <;> dsimp only at hf
  · split at h <;> rename_i hv
    · rw [if_pos hv] at hf
      split at h <;> rename_i hadm <;> rw [hadm] at hf
      · exact (Table.find_filter_eq_some.mp hf).1
      · simp at h
    · rwa [if_neg hv] at hf
  · split at h <;> rename_i hadm <;> rw [hadm] at hf
    · exact hf
    · simp at h

theorem isSome_find_of_mem_chain {t : Transitions} (h : t.Keeps cr W S genesis)
    (hd : DistinctSuccessors W) (hSW : S ⊆ W) {x : Link}
    (hx : x ∈ t.chainIdentities cr genesis) (hne : x ≠ genesis) : (t.find x.1).isSome :=
  (h.walk hd hSW t.rows.length (.genesis : Chain cr S genesis [genesis])
    (fun _ hy hn => absurd (List.mem_singleton.mp hy) hn)).2.1 x hx hne

theorem head_eq_of_head? {x : Link} (ht : st'.transitions = st.transitions)
    (hhead : (st.chain r).head? = some x) : st'.head r = x := by
  unfold Account.head currentIdentity
  rw [ht, List.headD_eq_head?_getD]
  exact congrArg (·.getD r.genesis) hhead

theorem head_eq_of_chain (h : st'.chain r = st.chain r) : st'.head r = st.head r :=
  congrArg (·.headD r.genesis) h

theorem certifies_of_row {o : ControlOp} {t : TransitionOp} {held : TransitionRow} {d : Device}
    {hl : Link} (ht : o.transition = some t) (hrow : t.row cr = some held)
    (hto : held.body.toIdentityId = hl.1) (hd : d ∈ rosterDevices cr held.payload) :
    Certifies cr o d hl := by
  obtain ⟨hp, hbody⟩ := payload_of_row hrow
  have hto' := (row_to hrow).1
  unfold ControlOp.transition at ht
  split at ht
  · simp at ht
  next p hinner =>
    obtain rfl := Option.some.inj ht
    unfold Certifies
    rw [hinner]
    rw [hp] at hd
    exact ⟨hto'.symm.trans hto, hbody, hd⟩

/-- What one transition finds: the table it is recorded in, beside the invariant before. -/
structure Recorded (r : LocalDevice) (W : Set TransitionRow) (devices : Devices)
    (done : List ControlOp) (st : Account) (op : ControlOp) (p : IdentityTransitionPayload)
    (row : TransitionRow) : Prop where
  inv : Inv r W devices done st
  distinct : DistinctSuccessors W
  ranked : Ranked W
  subset : insert row (rows r done) ⊆ W
  inner : op.inner = .identityTransition p
  row_eq : TransitionOp.row r.crypto ⟨op.ref.device, op.hlc, op.metaEpoch, p⟩ = some row
  fresh : ∀ held ∈ rows r done, held.body.toIdentityId ≠ row.body.toIdentityId
  steady : SteadyTransition r W st row

namespace Recorded

variable {p : IdentityTransitionPayload} (h : Recorded r W devices done st op p row)

include h

theorem payload : row.payload = p ∧ (bodyOf r.crypto p).isSome ∧
    row.body.toIdentityId = p.toIdentityId :=
  ⟨(payload_of_row h.row_eq).1, (payload_of_row h.row_eq).2, (row_to h.row_eq).1⟩

theorem subset' : rows r done ⊆ W := (Set.subset_insert _ _).trans h.subset

theorem rows_eq : rows r (op :: done) = insert row (rows r done) := by
  ext held
  have hop : op.transition = some ⟨op.ref.device, op.hlc, op.metaEpoch, p⟩ := by
    unfold ControlOp.transition
    rw [h.inner]
  rw [Set.mem_insert_iff, mem_rows, mem_rows, List.exists_mem_cons_iff]
  refine or_congr_left ⟨?_, ?_⟩
  · rintro ⟨t, ht, hrow⟩
    rw [hop, Option.some.injEq] at ht
    rw [← ht, h.row_eq, Option.some.injEq] at hrow
    exact hrow.symm
  · rintro rfl
    exact ⟨_, hop, h.row_eq⟩

theorem keeps : Transitions.Keeps r.crypto W (insert row (rows r done)) r.genesis
    (st.transitions.record r.crypto r.genesis row).1 :=
  h.inv.keeps.record h.distinct h.ranked h.subset' (h.subset (Set.mem_insert _ _)) h.steady.fair

theorem chain_or : (st.transitions.record r.crypto r.genesis row).1.chainIdentities r.crypto
      r.genesis = st.chain r ∨
    ((st.transitions.record r.crypto r.genesis row).1.chainIdentities r.crypto
      r.genesis).head? = some row.link := by
  refine FullChain.insert_row h.distinct h.ranked h.subset h.steady.onward (fun held hheld
    hsource hsigned => ?_) (h.inv.keeps.fullChain h.distinct h.subset')
    (h.keeps.fullChain h.distinct h.subset)
  rcases h.inv.keeps.kept held hheld hsigned with hf | ⟨hlen, hall⟩
  · exact h.steady.first _ held hf hsource hsigned
  · -- the signed rows over it leave the same identity
    obtain ⟨other, hother⟩ := List.exists_mem_of_length_pos
      (hlen ▸ (by decide : 0 < maxSiblings))
    obtain ⟨⟨k, hf⟩, hsource'⟩ := Transitions.mem_siblings.mp hother
    exact h.steady.first k other hf (hsource'.trans hsource) (hall other hother).1

theorem head_ne : (st.head r).1 ≠ row.body.toIdentityId := by
  rcases h.inv.reached_head h.distinct h.subset' with heq | ⟨held, hheld, heq⟩
  · rw [heq]
    exact h.steady.onward.symm
  · rw [← heq]
    exact h.fresh held hheld

theorem not_reached {id : IdentityId} (hid : Reached r (rows r done) id) :
    id ≠ row.body.toIdentityId := by
  rcases hid with rfl | ⟨held, hheld, rfl⟩
  · exact h.steady.onward.symm
  · exact h.fresh held hheld

theorem reached_mono {id : IdentityId} (hid : Reached r (rows r done) id) :
    Reached r (rows r (op :: done)) id := by
  rw [h.rows_eq]
  exact hid.imp_right fun ⟨held, hheld, heq⟩ => ⟨held, .inr hheld, heq⟩

theorem certifies_iff (d : Device) (hl : Link) : Certifies r.crypto op d hl ↔
    row.body.toIdentityId = hl.1 ∧ d ∈ rosterDevices r.crypto p := by
  unfold Certifies
  rw [h.inner]
  simp only [h.payload.2.1, true_and, h.payload.2.2]

theorem not_certifies {o : ControlOp} (ho : o ∈ done) (d : Device) {hl : Link}
    (hid : hl.1 = row.body.toIdentityId) : ¬ Certifies r.crypto o d hl := by
  intro hc
  unfold Certifies at hc
  split at hc
  next blob hinner =>
    obtain ⟨rfl, cert, hdec, hself, hv⟩ := hc
    exact h.not_reached (h.inv.certs o ho blob cert hinner hdec hself)
      ((id_of_verifyBinding hv).trans hid)
  next p' hinner =>
    obtain ⟨hto, hbody, -⟩ := hc
    obtain ⟨body, hb⟩ := Option.isSome_iff_exists.mp hbody
    have hrow : TransitionOp.row r.crypto ⟨o.ref.device, o.hlc, o.metaEpoch, p'⟩ =
        some ⟨body, p'.sigs, TransitionOp.rank ⟨o.ref.device, o.hlc, o.metaEpoch, p'⟩, p'⟩ := by
      unfold TransitionOp.row
      rw [hb]
      rfl
    refine h.fresh _ (mem_rows.mpr ⟨o, ho, _, ?_, hrow⟩)
      ((row_to hrow).1.trans (hto.trans hid))
    unfold ControlOp.transition
    rw [hinner]

theorem certs : ∀ o ∈ op :: done, ∀ blob cert, o.inner = .deviceCertPublish blob →
    r.crypto.certFromCbor blob = some cert → cert.deviceId = o.ref.device →
      Reached r (rows r (op :: done)) cert.identityId := by
  intro o ho blob cert hinner hdec hself
  rcases List.mem_cons.mp ho with rfl | ho
  · rw [h.inner] at hinner
    simp at hinner
  · exact h.reached_mono (h.inv.certs o ho blob cert hinner hdec hself)

theorem onward : ∀ held ∈ rows r (op :: done), held.body.toIdentityId ≠ r.genesis.1 := by
  rw [h.rows_eq]
  rintro held (rfl | hheld)
  · exact h.steady.onward
  · exact h.inv.onward held hheld

theorem certified_iff (d : Device) : Certified r devices (op :: done) d (st.head r) ↔
    Certified r devices done d (st.head r) := by
  unfold Certified
  rw [List.exists_mem_cons_iff, h.certifies_iff]
  exact or_congr_left (or_iff_right fun hc => h.head_ne hc.1.symm)

theorem named_table : Named (st.transitions.record r.crypto r.genesis row).1 := by
  intro id held hf
  have hheld := h.keeps.given id held hf
  obtain ⟨o, -, t, -, hrow⟩ := mem_rows.mp (h.rows_eq ▸ hheld)
  rw [(payload_of_row hrow).1, ← (row_to hrow).1]
  exact h.keeps.keyed id held hf

theorem reached_of_own {id : IdentityId} {held : TransitionRow}
    (hf : (st.transitions.record r.crypto r.genesis row).1.find id = some held) :
    held ∈ insert row (rows r done) ∧ held.body.toIdentityId = id ∧
      Reached r (rows r (op :: done)) id := by
  have hgiven := h.keeps.given id held hf
  have hkey : held.body.toIdentityId = id := h.keeps.keyed id held hf
  exact ⟨hgiven, hkey, .inr ⟨held, h.rows_eq ▸ hgiven, hkey⟩⟩

/-- **Where the transition is not the head, the devices stay as they were**, but for this
one. -/
theorem inv_of_same (hsame : (st.transitions.record r.crypto r.genesis row).1.chainIdentities
      r.crypto r.genesis = st.chain r)
    (htrans : st'.transitions = (st.transitions.record r.crypto r.genesis row).1)
    (happlied : st'.applied = op.ref :: st.applied)
    (hpub : ∀ blob ∈ st.published, blob ∈ st'.published)
    (hids : ∀ d id, st'.devices.At d id → Reached r (rows r (op :: done)) id)
    (hstay : ∀ d, st.Current r d → st'.devices.At d (st.head r).1)
    (hcome : ∀ d, st'.devices.At d (st.head r).1 → st.Current r d ∨
      (d = r.self ∧ Publishes r st' (st.head r))) :
    Inv r W devices (op :: done) st' := by
  have hhead : st'.head r = st.head r := head_eq_of_chain (by
    unfold Account.chain
    rw [htrans, hsame]
    rfl)
  have hkeeps := h.keeps
  rw [← h.rows_eq, ← htrans] at hkeeps
  refine ⟨happlied ▸ applied_cons h.inv, hkeeps, hids, h.certs, h.onward,
    fun d hd => ?_, fun d hd => ?_⟩
  · rw [hhead, h.certified_iff] at hd
    have := hstay d (h.inv.complete d hd)
    rwa [← hhead] at this
  · rw [hhead, h.certified_iff]
    have hat : st'.devices.At d (st.head r).1 := by
      rw [← hhead]
      exact hd
    rcases hcome d hat with hc | hp
    · exact (h.inv.sound d hc).imp_right fun ⟨hself, hpubs⟩ => ⟨hself, hpubs.mono hpub⟩
    · exact .inr hp

theorem same_of_not_admitted
    (hno : (st.transitions.record r.crypto r.genesis row).2 = false) :
    (st.transitions.record r.crypto r.genesis row).1.chainIdentities r.crypto r.genesis =
      st.chain r := by
  refine h.chain_or.resolve_right fun hhead => ?_
  have hfind := isSome_find_of_mem_chain h.keeps h.distinct h.subset (List.mem_of_mem_head? hhead)
    fun heq => h.steady.onward (congrArg Prod.fst heq)
  obtain ⟨held, hheld⟩ := Option.isSome_iff_exists.mp hfind
  have hold := find_of_not_admitted hno hheld
  exact h.fresh held (h.inv.keeps.given _ held hold) (h.inv.keeps.keyed _ held hold)

section

variable (hm : Moves r { st with
  applied := op.ref :: st.applied
  transitions := (st.transitions.record r.crypto r.genesis row).1 } st')

include hm

theorem reached_of_moves {d : Device} {id : IdentityId} (hat : st'.devices.At d id) :
    Reached r (rows r (op :: done)) id := by
  by_cases hd : d = r.self
  · subst hd
    rcases hm.own id hat with hat | ⟨held, hf, -⟩
    · exact h.reached_mono (h.inv.ids _ id hat)
    · exact (h.reached_of_own hf).2.2
  · refine h.reached_mono (h.inv.ids d id ?_)
    rwa [Devices.At, hm.others d hd] at hat

theorem mem_of_at_link {d : Device} (hat : st'.devices.At d row.body.toIdentityId) :
    d ∈ rosterDevices r.crypto p ∨ (d = r.self ∧ Publishes r st' row.link) := by
  have hold : ∀ d, ¬ st.devices.At d row.body.toIdentityId :=
    fun d hat => h.not_reached (h.inv.ids d _ hat) rfl
  by_cases hd : d = r.self
  · subst hd
    rcases hm.own _ hat with hat | ⟨held, hf, hself⟩
    · exact absurd hat (hold _)
    · obtain ⟨hmem, hto, -⟩ := h.reached_of_own hf
      rcases hmem with rfl | hmem
      · rw [h.payload.1] at hself
        refine hself.imp_right fun hp => ⟨rfl, ?_⟩
        rw [link_of_row h.row_eq, h.payload.1]
        rwa [h.payload.2.2] at hp
      · exact absurd hto (h.fresh held hmem)
  · rw [Devices.At, hm.others d hd] at hat
    exact absurd hat (hold d)

/-- **Where the transition is the head, its roster is current.** -/
theorem inv_of_head (hhead : st'.head r = row.link) : Inv r W devices (op :: done)
    { st' with devices := applyRoster r.crypto st'.devices p.roster p.toIdentityId } := by
  have hto : row.link.1 = p.toIdentityId := h.payload.2.2
  have hkeeps := h.keeps
  rw [← h.rows_eq] at hkeeps
  have hhead' : ({ st' with
      devices := applyRoster r.crypto st'.devices p.roster p.toIdentityId } : Account).head r =
    row.link := hhead
  have hcertified : ∀ d, Certified r devices (op :: done) d row.link ↔
      d ∈ rosterDevices r.crypto p := by
    intro d
    unfold Certified
    rw [List.exists_mem_cons_iff, h.certifies_iff]
    have hgen : ¬ (row.link.1 = r.genesis.1 ∧ devices.At d r.genesis.1) :=
      fun hg => h.steady.onward hg.1
    have hnone : ¬ ∃ o ∈ done, Certifies r.crypto o d row.link := by
      rintro ⟨o, ho, hc⟩
      exact h.not_certifies ho d rfl hc
    rw [or_iff_left hgen, or_iff_left hnone]
    exact and_iff_right rfl
  refine ⟨?_, ?_, fun d id hat => ?_, h.certs, h.onward, fun d hd => ?_, fun d hd => ?_⟩
  · show ∀ ref, ref ∈ st'.applied ↔ _
    rw [hm.applied]
    exact applied_cons h.inv
  · show Transitions.Keeps _ _ _ _ st'.transitions
    rw [hm.transitions]
    exact hkeeps
  · rcases at_of_applyRoster hat with hat | rfl
    · exact h.reached_of_moves hm hat
    · exact .inr ⟨row, h.rows_eq ▸ Set.mem_insert _ _, hto⟩
  · rw [hhead', hcertified] at hd
    obtain ⟨blob, hb, hcert⟩ := List.mem_filterMap.mp hd
    obtain ⟨cert, hdec, hdev⟩ := Option.map_eq_some_iff.mp hcert
    show (applyRoster r.crypto st'.devices p.roster p.toIdentityId).At d (st'.head r).1
    rw [hhead, hto]
    refine at_applyRoster (.inr ⟨blob, hb, cert, hdec, hdev⟩) (.inr ?_)
    intro blob' hb' cert' hdec' hdev'
    rw [rebindsKey_congr (hm.keys _)]
    exact h.steady.keys blob' (h.payload.1 ▸ hb') cert' hdec'
  · rw [hhead', hcertified]
    replace hd : (applyRoster r.crypto st'.devices p.roster p.toIdentityId).At d
      (st'.head r).1 := hd
    rw [hhead] at hd
    by_cases hmem : d ∈ rosterDevices r.crypto p
    · exact .inl hmem
    · rw [Devices.At, find_applyRoster_of_not_mem hmem] at hd
      exact h.mem_of_at_link hm hd

theorem come (d : Device) (hat : st'.devices.At d (st.head r).1) :
    st.Current r d ∨ (d = r.self ∧ Publishes r st' (st.head r)) := by
  by_cases hd : d = r.self
  · subst hd
    rcases hm.own _ hat with hat | ⟨held, hf, hself⟩
    · exact .inl hat
    · obtain ⟨hmem, hto, -⟩ := h.reached_of_own hf
      rcases hmem with rfl | hmem
      · exact absurd hto.symm h.head_ne
      · obtain ⟨o, ho, t, ht, hrow⟩ := mem_rows.mp hmem
        refine hself.imp (fun hself => ?_) fun hp => ⟨rfl, ?_⟩
        · -- a row that leads to the head certified this device when it came
          exact h.inv.complete _ (.inl ⟨o, ho, certifies_of_row ht hrow hto hself⟩)
        · rcases h.inv.reached_head h.distinct h.subset' with heq | ⟨other, hother, heq⟩
          · rw [heq] at hto
            exact absurd hto (h.inv.onward held hmem)
          · have : other = held := h.distinct _ (h.subset' hother) _ (h.subset' hmem)
              ((congrArg Prod.fst heq).trans hto.symm)
            rw [← heq, this, link_of_row hrow]
            rwa [← hto, show held.body.toIdentityId = held.payload.toIdentityId from
              congrArg Prod.fst (link_of_row hrow)] at hp
  · rw [Devices.At, hm.others d hd] at hat
    exact .inl hat

end

theorem stay (hsame : (st.transitions.record r.crypto r.genesis row).1.chainIdentities
      r.crypto r.genesis = st.chain r) (d : Device) (hcur : st.Current r d) :
    (recomputeIdentityHead r { st with
      applied := op.ref :: st.applied
      transitions := (st.transitions.record r.crypto r.genesis row).1 }).devices.At d
        (st.head r).1 := by
  set st₀ : Account := { st with
    applied := op.ref :: st.applied
    transitions := (st.transitions.record r.crypto r.genesis row).1 } with hst₀
  have hm : Moves r st₀ (st₀.recomputeIdentityHead r) := moves_recompute h.named_table
  by_cases hd : d = r.self
  · subst hd
    -- it signs under the head already
    have hhead : (st₀.head r).1 = st₀.identity := by
      rw [head_eq_of_chain (show st₀.chain r = st.chain r from hsame)]
      exact (h.steady.signs hcur).symm
    unfold recomputeIdentityHead
    dsimp only
    rw [if_pos hhead]
    exact hcur
  · rw [Devices.At, hm.others d hd]
    exact hcur

/-- **A transition that is recorded keeps the invariant.** -/
theorem inv_transition : Inv r W devices (op :: done)
    ({ st with applied := op.ref :: st.applied }.applyTransition r
      ⟨op.ref.device, op.hlc, op.metaEpoch, p⟩) := by
  have hm : Moves r _ (recomputeIdentityHead r { st with
    applied := op.ref :: st.applied
    transitions := (st.transitions.record r.crypto r.genesis row).1 }) :=
    moves_recompute h.named_table
  unfold applyTransition
  rw [h.row_eq]
  dsimp only
  cases hrec : st.transitions.record r.crypto r.genesis row with
  | mk t admitted =>
    have ht : (st.transitions.record r.crypto r.genesis row).1 = t := by rw [hrec]
    cases admitted with
    | false =>
      exact h.inv_of_same (h.same_of_not_admitted (by rw [hrec])) ht.symm rfl (fun _ hb => hb)
        (fun d id hat => h.reached_mono (h.inv.ids d id hat)) (fun _ hat => hat)
        fun _ hat => .inl hat
    | true =>
      rw [← ht]
      dsimp only
      split
      next hto =>
        rcases h.chain_or with hc | hc
        · rw [head_eq_of_chain (hm.chain_eq.trans hc), ← h.payload.2.2] at hto
          exact absurd hto h.head_ne
        · exact h.inv_of_head hm (head_eq_of_head? hm.transitions hc)
      next hto =>
        have hsame := h.chain_or.resolve_right fun hc =>
          hto (head_eq_of_head? hm.transitions hc ▸ h.payload.2.2)
        exact h.inv_of_same hsame hm.transitions hm.applied hm.published
          (fun d id hat => h.reached_of_moves hm hat) (h.stay hsame) (h.come hm)

end Recorded

/-! ### Runs -/

def DistinctTransitions (ops : List ControlOp) : Prop :=
  ∀ a ∈ ops, ∀ b ∈ ops, ∀ t u, a.transition = some t → b.transition = some u →
    t.payload.toIdentityId = u.payload.toIdentityId → a = b

variable {ops : List ControlOp}

theorem DistinctTransitions.distinctSuccessors (h : DistinctTransitions ops) :
    DistinctSuccessors (rows r ops) := by
  intro row hrow row' hrow' heq
  obtain ⟨a, ha, t, ht, hrt⟩ := mem_rows.mp hrow
  obtain ⟨b, hb, u, hu, hru⟩ := mem_rows.mp hrow'
  obtain rfl := h a ha b hb t u ht hu
    (by rw [← (row_to hrt).1, ← (row_to hru).1, heq])
  obtain rfl := Option.some.inj (ht.symm.trans hu)
  exact Option.some.inj (hrt.symm.trans hru)

theorem inv_initial (hinit : ∀ d id, devices.At d id → id = r.genesis.1) :
    Inv r W devices [] (initial r devices) := by
  have hrows : rows r [] = ∅ := by
    ext row
    simp [mem_rows]
  have hhead : (initial r devices).head r = r.genesis := rfl
  refine ⟨by simp [initial], hrows ▸ keeps_empty, fun d id hat => .inl (hinit d id hat),
    by simp, by simp [hrows], fun d hd => ?_, fun d hd => .inl (.inr ⟨by rw [hhead], hd⟩)⟩
  rcases hd with ⟨o, ho, -⟩ | ⟨-, hat⟩
  · simp at ho
  · exact hat

/-- **A delivery keeps the invariant**, over the ops applied so far. -/
theorem Inv.deliver (h : Inv r (rows r ops) devices done st) (hd : DistinctTransitions ops)
    (hsub : ∀ o ∈ done, o ∈ ops) (hop : op ∈ ops)
    (hsteady : st.admits r op → op.ref ∉ st.applied → Steady r (rows r ops) st op) :
    ∃ done', (∀ o ∈ done', o ∈ ops) ∧ Inv r (rows r ops) devices done' (st.deliver r op) := by
  unfold Account.deliver
  split
  · exact ⟨done, hsub, h⟩
  next hnewest =>
    split
    · exact ⟨done, hsub, h⟩
    next hnew =>
      have hs := hsteady (by simpa using hnewest) hnew
      have hsub' : ∀ o ∈ op :: done, o ∈ ops := List.forall_mem_cons.mpr ⟨hop, hsub⟩
      refine ⟨op :: done, hsub', ?_⟩
      cases hinner : op.inner with
      | deviceCertPublish blob =>
        exact h.certPublish hd.distinctSuccessors (rows_mono hsub) hinner hs
      | identityTransition p =>
        dsimp only
        have htr : op.transition = some ⟨op.ref.device, op.hlc, op.metaEpoch, p⟩ := by
          unfold ControlOp.transition
          rw [hinner]
        cases hrow : TransitionOp.row r.crypto ⟨op.ref.device, op.hlc, op.metaEpoch, p⟩ with
        | some row =>
          refine Recorded.inv_transition ⟨h, hd.distinctSuccessors,
            ranked_rowsOf _, ?_, hinner, hrow, ?_, ?_⟩
          · refine Set.insert_subset (mem_rows.mpr ⟨op, hop, _, htr, hrow⟩) (rows_mono hsub)
          · intro held hheld heq
            obtain ⟨o, ho, t, ht, hrt⟩ := mem_rows.mp hheld
            have : o = op := hd o (hsub o ho) op hop t _ ht htr
              (by rw [← (row_to hrt).1, ← (row_to hrow).1, heq])
            exact hnew ((h.applied _).mpr ⟨o, ho, by rw [this]⟩)
          · unfold Steady at hs
            rw [hinner] at hs
            exact hs row hrow
        | none =>
          have hsame : ({ st with applied := op.ref :: st.applied } : Account).applyTransition r
              ⟨op.ref.device, op.hlc, op.metaEpoch, p⟩ =
                { st with applied := op.ref :: st.applied } := by
            unfold applyTransition
            rw [hrow]
          rw [hsame]
          refine h.idle ?_ (fun blob cert hb => ?_) fun d hl hc => ?_
          · ext held
            simp only [mem_rows, List.exists_mem_cons_iff, htr, Option.some.injEq]
            refine or_iff_right ?_
            rintro ⟨t, rfl, hrt⟩
            rw [hrow] at hrt
            simp at hrt
          · rw [hinner] at hb
            simp at hb
          · unfold Certifies at hc
            rw [hinner] at hc
            obtain ⟨body, hbody⟩ := Option.isSome_iff_exists.mp hc.2.1
            unfold TransitionOp.row at hrow
            rw [Option.map_eq_none_iff] at hrow
            rw [hbody] at hrow
            simp at hrow

/-- **A run keeps the invariant.** -/
theorem Inv.foldl_deliver {l : List ControlOp} (h : Inv r (rows r ops) devices done st)
    (hd : DistinctTransitions ops) (hsub : ∀ o ∈ done, o ∈ ops) (hl : ∀ o ∈ l, o ∈ ops)
    (hsteady : SteadyRun r (rows r ops) st l) :
    ∃ done', (∀ o ∈ done', o ∈ ops) ∧
      Inv r (rows r ops) devices done' (l.foldl (Account.deliver r) st) := by
  induction l generalizing st done with
  | nil => exact ⟨done, hsub, h⟩
  | cons op l ih =>
    obtain ⟨hop, hl⟩ := List.forall_mem_cons.mp hl
    obtain ⟨done', hsub', h'⟩ := h.deliver hd hsub hop hsteady.1
    exact ih h' hsub' hl hsteady.2

/-- A run of some ops that ends with all of them applied, its conditions met. -/
structure CompleteRun (r : LocalDevice) (devices : Devices) (ops l : List ControlOp) : Prop where
  given : ∀ op ∈ l, op ∈ ops
  all : ∀ op ∈ ops, op.ref ∈ (deliverAll r devices l).applied
  started : ∀ d id, devices.At d id → id = r.genesis.1
  announced : ∀ d, devices.At d r.genesis.1 → ∃ op ∈ ops, Certifies r.crypto op d r.genesis
  published : ∀ blob ∈ (deliverAll r devices l).published,
    ∃ op ∈ ops, op.ref.device = r.self ∧ op.inner = .deviceCertPublish blob
  steady : SteadyRun r (rows r ops) (initial r devices) l

/-- **A complete run's chain is the ops' own, and the current devices are those its head
certified.** -/
theorem CompleteRun.spec {l : List ControlOp} (h : CompleteRun r devices ops l)
    (hrefs : ∀ a ∈ ops, ∀ b ∈ ops, a.ref = b.ref → a = b) (hd : DistinctTransitions ops) :
    FullChain r.crypto (rows r ops) r.genesis ((deliverAll r devices l).chain r) ∧
      ∀ d, (deliverAll r devices l).Current r d ↔
        ∃ op ∈ ops, Certifies r.crypto op d ((deliverAll r devices l).head r) := by
  obtain ⟨done, hsub, hinv⟩ := (inv_initial h.started).foldl_deliver hd (by simp) h.given h.steady
  replace hinv : Inv r (rows r ops) devices done (deliverAll r devices l) := hinv
  have hsame : ∀ op, op ∈ done ↔ op ∈ ops := by
    refine fun op => ⟨hsub op, fun hop => ?_⟩
    obtain ⟨o, ho, heq⟩ := (hinv.applied _).mp (h.all op hop)
    rwa [← hrefs o (hsub o ho) op hop heq]
  have hrows : rows r done = rows r ops :=
    (rows_mono hsub).antisymm (rows_mono fun op hop => (hsame op).mpr hop)
  have hdist := hd.distinctSuccessors (r := r)
  have hchain := hinv.keeps.fullChain hdist hrows.subset
  refine ⟨hrows ▸ hchain, fun d => ⟨fun hcur => ?_, fun ⟨op, hop, hc⟩ => ?_⟩⟩
  · rcases hinv.sound d hcur with
      (⟨op, hop, hc⟩ | ⟨hgen, hat⟩) | ⟨rfl, blob, hb, cert, hdec, hself, hv⟩
    · exact ⟨op, hsub op hop, hc⟩
    · -- where the head is the genesis, the device published its certificate
      have hhead : (deliverAll r devices l).head r = r.genesis := by
        refine (hinv.reached_head hdist hrows.subset).resolve_right ?_
        rintro ⟨row, hrow, hlink⟩
        exact hinv.onward row hrow ((congrArg Prod.fst hlink).trans hgen)
      rw [hhead]
      exact h.announced d hat
    · obtain ⟨op, hop, hdev, hinner⟩ := h.published blob hb
      refine ⟨op, hop, ?_⟩
      unfold Certifies
      rw [hinner]
      exact ⟨hdev.symm, cert, hdec, hself, hv⟩
  · exact hinv.complete d (.inl ⟨op, (hsame op).mpr hop, hc⟩)

/-- **Membership converges.** Where two replicas of one genesis apply all of the same ops,
each in an order that meets the conditions, they end with the same head and the same
current devices, and every device of the winning transition's roster is current on
both. -/
theorem membership_converges {r₁ r₂ : LocalDevice} (hcrypto : r₁.crypto = r₂.crypto)
    (hgenesis : r₁.genesis = r₂.genesis) {devices₁ devices₂ : Devices}
    {l₁ l₂ : List ControlOp} (hrefs : ∀ a ∈ ops, ∀ b ∈ ops, a.ref = b.ref → a = b)
    (hd : DistinctTransitions ops) (h₁ : CompleteRun r₁ devices₁ ops l₁)
    (h₂ : CompleteRun r₂ devices₂ ops l₂) :
    let st₁ := deliverAll r₁ devices₁ l₁
    let st₂ := deliverAll r₂ devices₂ l₂
    st₁.head r₁ = st₂.head r₂ ∧ (∀ d, st₁.Current r₁ d ↔ st₂.Current r₂ d) ∧
      ∀ row ∈ rows r₁ ops, row.link = st₁.head r₁ →
        ∀ d ∈ rosterDevices r₁.crypto row.payload, st₁.Current r₁ d ∧ st₂.Current r₂ d := by
  intro st₁ st₂
  obtain ⟨hchain₁, hcur₁⟩ := h₁.spec hrefs hd
  obtain ⟨hchain₂, hcur₂⟩ := h₂.spec hrefs hd
  have hrows : rows r₂ ops = rows r₁ ops := by
    unfold rows
    rw [hcrypto]
  rw [hrows, ← hcrypto, ← hgenesis] at hchain₂
  have hchain : st₁.chain r₁ = st₂.chain r₂ :=
    hchain₁.unique hd.distinctSuccessors (ranked_rowsOf _) hchain₂
  have hhead : st₁.head r₁ = st₂.head r₂ := by
    show (st₁.chain r₁).headD r₁.genesis = (st₂.chain r₂).headD r₂.genesis
    rw [hchain, hgenesis]
  have hcur : ∀ d, st₁.Current r₁ d ↔ st₂.Current r₂ d := by
    intro d
    rw [hcur₁, hcur₂, ← hcrypto]
    show (∃ op ∈ ops, Certifies _ op d (st₁.head r₁)) ↔ _
    rw [hhead]
  refine ⟨hhead, hcur, fun row hrow hlink d hmem => ?_⟩
  obtain ⟨op, hop, t, ht, hrt⟩ := mem_rows.mp hrow
  have hc : st₁.Current r₁ d :=
    (hcur₁ d).mpr ⟨op, hop, certifies_of_row ht hrt (congrArg Prod.fst hlink) hmem⟩
  exact ⟨hc, (hcur d).mp hc⟩

/-! ### Two devices and two rotations -/

/-- A certificate of the head that keeps its device's key comes in time. -/
theorem SteadyCert.of_head {cert : DeviceCert} (hissuer : st.issuer r cert = some (st.head r))
    (hkey : rebindsKey st.devices cert = false) : SteadyCert r st cert where
  issued := by rw [hissuer, Option.isSome_some]
  key := hkey
  ahead l hl hne := absurd (Option.some.inj (hl.symm.trans hissuer)) hne

/-- A transition that no stored one follows, where the cap has place. -/
theorem SteadyTransition.of_last
    (hfew : (st.transitions.others row.body.fromIdentityId row.rank).length < maxSiblings)
    (hlast : ∀ e ∈ st.transitions.rows, e.2.body.fromIdentityId ≠ row.body.toIdentityId)
    (honward : row.body.toIdentityId ≠ r.genesis.1)
    (hkeys : ∀ blob ∈ row.payload.roster,
      (r.crypto.certFromCbor blob).all fun cert => !rebindsKey st.devices cert)
    (hsigns : st.devices.At r.self (st.head r).1 → st.identity = (st.head r).1) :
    SteadyTransition r W st row where
  fair _ d hdrop := by
    unfold dropped at hdrop
    rw [if_pos hfew] at hdrop
    simp at hdrop
  first k held hf hsource := absurd hsource (hlast (k, held) (Table.mem_rows.mpr hf))
  onward := honward
  keys blob hb cert hdec := by
    have h := hkeys blob hb
    rw [hdec] at h
    simpa using h
  signs := hsigns

/-- A device that opens every transition from the identity it signs with. -/
def localDevice (self : Device) : LocalDevice where
  crypto := .sample
  genesis := (1, 1)
  self := self
  selfSPub := self
  selfDPub := self
  opens id p := decide (p.fromIdentityId = id)
  issues _ := none

/-- A device publishes its certificate under the first identity. -/
def publish (device : Device) : ControlOp :=
  ⟨⟨0, device, 0⟩, ⟨0, 0⟩, 0, .deviceCertPublish [device, device, 1]⟩

/-- Device 1 hands over to the next identity, with both devices in the roster. -/
def rotate (source : IdentityId) : ControlOp :=
  ⟨⟨0, 1, source⟩, ⟨source, 0⟩, 0, .identityTransition (handOver source (source + 1) source source
    [[1, 1, source + 1], [2, 2, source + 1]]).payload⟩

/-- Both certificates, then both rotations. -/
def twoRotations : List ControlOp := [publish 1, publish 2, rotate 1, rotate 2]

def alone (self : Device) : Devices :=
  (∅ : Devices).upsert self ⟨[self, self, 1], "", "", 0, some 1, some self⟩

theorem alone_at {self d : Device} {id : IdentityId} (h : (alone self).At d id) :
    d = self ∧ id = 1 := by
  obtain ⟨row, hf, hid⟩ := h
  unfold alone at hf
  rw [Table.find_upsert] at hf
  split at hf
  next heq =>
    obtain rfl := Option.some.inj hf
    exact ⟨heq, (Option.some.inj hid).symm⟩
  · simp at hf

theorem steady_publish {self : Device} {st : Account} {device : Device} {W : Set TransitionRow}
    (hissuer : st.issuer (localDevice self) ⟨device, device, device, 1, 0, "", "", 1⟩ =
      some (st.head (localDevice self)))
    (hkey : rebindsKey st.devices ⟨device, device, device, 1, 0, "", "", 1⟩ = false) :
    Steady (localDevice self) W st (publish device) := by
  intro cert hdec _
  obtain rfl := Option.some.inj hdec
  exact .of_head hissuer hkey

theorem completeRun_rotations {self other : Device}
    (h : self = 1 ∧ other = 2 ∨ self = 2 ∧ other = 1) :
    CompleteRun (localDevice self) (alone self) twoRotations
      [publish self, publish other, rotate 1, rotate 2] := by
  rcases h with ⟨rfl, rfl⟩ | ⟨rfl, rfl⟩
  -- the certificates come under the first head, and each rotation when none follows it
  all_goals
    refine ⟨by decide, by decide, fun d id h => (alone_at h).2, fun d h => ?_, by decide,
      fun _ _ => steady_publish (by decide) (by decide),
      fun _ _ => steady_publish (by decide) (by decide), fun _ _ row hrow => ?_,
      fun _ _ row hrow => ?_, trivial⟩
    · obtain ⟨rfl, -⟩ := alone_at h
      exact ⟨publish _, by decide, rfl, _, rfl, rfl, by decide⟩
    all_goals
      obtain rfl := Option.some.inj hrow
      exact .of_last (by decide) (by decide) (by decide) (by decide) (by decide)

theorem membership_converges_two_rotations :
    let st₁ := deliverAll (localDevice 1) (alone 1) twoRotations
    let st₂ := deliverAll (localDevice 2) (alone 2) [publish 2, publish 1, rotate 1, rotate 2]
    st₁.head (localDevice 1) = st₂.head (localDevice 2) ∧
      ∀ d, st₁.Current (localDevice 1) d ↔ st₂.Current (localDevice 2) d := by
  have hdistinct : DistinctTransitions twoRotations := by
    have h : ∀ a ∈ twoRotations, ∀ b ∈ twoRotations, a.transition.all fun t =>
        b.transition.all fun u =>
          decide (t.payload.toIdentityId = u.payload.toIdentityId → a = b) := by decide
    intro a ha b hb t u ht hu
    have hab := h a ha b hb
    rw [ht, hu] at hab
    exact of_decide_eq_true hab
  have hcrypto : (localDevice 1).crypto = (localDevice 2).crypto := rfl
  have h := membership_converges hcrypto rfl (by decide) hdistinct
    (completeRun_rotations (.inl ⟨rfl, rfl⟩)) (completeRun_rotations (.inr ⟨rfl, rfl⟩))
  exact ⟨h.1, h.2.1⟩

/-- Where the second rotation comes before the first, its roster is not applied: the first
device's replica leaves the second behind, which the second's own replica, the rotations in
their order, has current. -/
theorem not_current_newest_first :
    let late := [publish 1, publish 2, rotate 2, rotate 1]
    let st₁ := deliverAll (localDevice 1) (alone 1) late
    let st₂ := deliverAll (localDevice 2) (alone 2) twoRotations
    (∀ op, op ∈ late ↔ op ∈ twoRotations) ∧ (∀ op ∈ twoRotations, op.ref ∈ st₁.applied) ∧
      (∀ op ∈ twoRotations, op.ref ∈ st₂.applied) ∧
      st₁.head (localDevice 1) = st₂.head (localDevice 2) ∧
      ¬ st₁.Current (localDevice 1) 2 ∧ st₂.Current (localDevice 2) 2 := by
  refine ⟨fun op => ?_, by decide, by decide, by decide, ?_, ?_⟩
  · simp only [twoRotations, List.mem_cons, List.not_mem_nil, or_false]
    tauto
  · show ¬ Devices.At _ _ _
    decide
  · show Devices.At _ _ _
    decide

end Account

end Sunrise
