import Sunrise.Merge.Fold
import Sunrise.Merge.RegisterFold
import Sunrise.Merge.VersionOrder

/-!
# What the merge state of an entity is

What an op, a snapshot or a state has to say about an entity is a `Share`: its
versions and their order (a `History`), and what it has for each of the merge tables.
Shares are united, and the merge state of a share `U` is described by two bounds:
`Entity.Sound` says that the rows hold nothing but what `U` has; `Entity.Covered` says
that everything one part of `U` has is in the rows, or is left out for a reason that
stays: it is below the legacy floor, or a write of `U` follows it. Neither says which
parts of `U` are in already, and both are kept by folding an op and by joining a
snapshot.

A state that is sound and covers all of an ordered share `U` is determined by `U`
(`Entity.Sound.unique`): this is where order independence comes from.

* `Share`, `Share.sUnion`, `Op.share` — what there is to say, and what one op says.
-/

namespace Sunrise

open Causal

/-! ### What one op writes -/

namespace Op

def offered (field : String) : Write → Option (Option Value)
  | .offer g v => if g = field then some v else none
  | _ => none

/-- The op's write of a register: of several offers of one op the first stands. -/
def member (c : Codec) (op : Op) (field : String) : Option Member :=
  (op.writes.findSome? (offered field)).map fun v => ⟨op.stamp, v.map c.enc, op.origin⟩

def added (field : String) : Write → Option ℤ
  | .delta g n => if g = field then some n else none
  | _ => none

/-- The op's delta to a counter: the first one stands. -/
def delta (op : Op) (field : String) : Option ℤ := op.writes.findSome? (added field)

def put (k : String ×ₗ String) : Write → Option Value
  | .entry field key v => if toLex (field, key) = k then some v else none
  | _ => none

/-- The op's write of a map entry: the last one stands. -/
def entry (c : Codec) (op : Op) (k : String ×ₗ String) : Option MapRow :=
  (op.writes.reverse.findSome? (put k)).map fun v => ⟨c.enc v, op.stamp, op.origin⟩

def Adds (c : Codec) (op : Op) (k : TagKey) : Prop :=
  ∃ field element, Write.add field element ∈ op.writes ∧
    k = tagKey field (c.enc element) op.stamp.opRef

def Removes (c : Codec) (op : Op) (k : TagKey) : Prop :=
  ∃ field element tag, Write.remove field element tag ∈ op.writes ∧
    k = tagKey field (c.enc element) tag

@[simp] theorem stamp_version (op : Op) : op.version.stamp = op.stamp := by
  unfold version
  split <;> rfl

theorem kind_version_iff {op : Op} : op.version.kind = .legacy ↔ op.isLegacy = true := by
  unfold version isLegacy
  cases op.body <;> simp

theorem stamp_of_member {c : Codec} {op : Op} {field : String} {m : Member}
    (h : op.member c field = some m) : m.stamp = op.stamp := by
  unfold member at h
  rw [Option.map_eq_some_iff] at h
  obtain ⟨v, -, rfl⟩ := h
  rfl

theorem stamp_of_entry {c : Codec} {op : Op} {k : String ×ₗ String} {row : MapRow}
    (h : op.entry c k = some row) : row.stamp = op.stamp := by
  unfold entry at h
  rw [Option.map_eq_some_iff] at h
  obtain ⟨v, -, rfl⟩ := h
  rfl

theorem tag_of_adds {c : Codec} {op : Op} {k : TagKey} (h : op.Adds c k) :
    TagKey.tag k = op.stamp.opRef := by
  obtain ⟨field, element, -, rfl⟩ := h
  rfl

end Op

/-! ### Shares -/

/-- What there is to say about one entity. -/
structure Share extends History where
  members : String → Set Member
  entries : String ×ₗ String → Set MapRow
  adds : TagKey → Set Hlc
  removes : Set TagKey
  deltas : String ×ₗ OpRef → Set DeltaRow
  books : Set Bookkeeping

/-- Whether a stamp is a full-state op's. -/
def History.Legacy (U : History) (s : Stamp) : Prop := ∃ v ∈ U, v.stamp = s ∧ v.kind = .legacy

open Classical in
/-- `History.Legacy`, as the flag of a loser row. -/
noncomputable def legacyAt (U : History) (s : Stamp) : Bool := decide (U.Legacy s)

theorem legacyAt_iff {U : History} {s : Stamp} : legacyAt U s = true ↔ U.Legacy s := by
  simp [legacyAt]

namespace Share

/-- All of `P` is in `U`. -/
structure Le (P U : Share) : Prop where
  versions : ∀ v ∈ P.versions, v ∈ U.versions
  seen : ∀ s dev a, P.seen s dev a → U.seen s dev a
  merged : ∀ s ∈ P.merged, s ∈ U.merged
  members : ∀ field, ∀ m ∈ P.members field, m ∈ U.members field
  entries : ∀ k, ∀ row ∈ P.entries k, row ∈ U.entries k
  adds : ∀ k, ∀ hlc ∈ P.adds k, hlc ∈ U.adds k
  removes : ∀ k ∈ P.removes, k ∈ U.removes
  deltas : ∀ k, ∀ row ∈ P.deltas k, row ∈ U.deltas k
  books : ∀ b ∈ P.books, b ∈ U.books

instance : LE Share := ⟨Le⟩

def sUnion (S : Set Share) : Share where
  versions := {v | ∃ P ∈ S, v ∈ P.versions}
  seen := fun s dev a => ∃ P ∈ S, P.seen s dev a
  merged := {s | ∃ P ∈ S, s ∈ P.merged}
  members := fun field => {m | ∃ P ∈ S, m ∈ P.members field}
  entries := fun k => {row | ∃ P ∈ S, row ∈ P.entries k}
  adds := fun k => {hlc | ∃ P ∈ S, hlc ∈ P.adds k}
  removes := {k | ∃ P ∈ S, k ∈ P.removes}
  deltas := fun k => {row | ∃ P ∈ S, row ∈ P.deltas k}
  books := {b | ∃ P ∈ S, b ∈ P.books}

theorem le_sUnion {S : Set Share} {P : Share} (h : P ∈ S) : P ≤ sUnion S where
  versions := fun _ hv => ⟨P, h, hv⟩
  seen := fun _ _ _ hs => ⟨P, h, hs⟩
  merged := fun _ hs => ⟨P, h, hs⟩
  members := fun _ _ hm => ⟨P, h, hm⟩
  entries := fun _ _ hr => ⟨P, h, hr⟩
  adds := fun _ _ ha => ⟨P, h, ha⟩
  removes := fun _ hk => ⟨P, h, hk⟩
  deltas := fun _ _ hr => ⟨P, h, hr⟩
  books := fun _ hb => ⟨P, h, hb⟩

/-- Nothing is said in two ways. -/
structure WellFormed (U : Share) : Prop where
  valid : U.toHistory.Valid
  held : ∀ field, ∀ m ∈ U.members field, m.stamp ∈ stampsOf U.toHistory
  member : ∀ field, ∀ m ∈ U.members field, ∀ n ∈ U.members field,
    m.stamp.opRef = n.stamp.opRef → m = n
  finite : ∀ field, (U.members field).Finite
  entry : ∀ k, ∀ r ∈ U.entries k, ∀ r' ∈ U.entries k, r.stamp = r'.stamp → r = r'
  add : ∀ k, ∀ a ∈ U.adds k, ∀ b ∈ U.adds k, a = b
  delta : ∀ k, ∀ a ∈ U.deltas k, ∀ b ∈ U.deltas k, a = b
  floor : ∀ b ∈ U.books, ∀ l, b.legacy = some l → ∀ v ∈ U.versions, v.stamp = l →
    v.kind = .legacy

structure Ordered (U : Share) : Prop extends WellFormed U where
  history : U.toHistory.Ordered

/-- The order of the versions. -/
abbrev Precedes (U : Share) : Stamp → Stamp → Prop := HistPrecedes U.toHistory

end Share

def Op.book (op : Op) : Bookkeeping where
  created := op.creates
  create := if op.creates then some op.stamp else none
  legacy := if op.isLegacy then some op.stamp else none
  patchMs := if op.isLegacy then none else some op.stamp.hlc.physicalMs
  head := op.stamp

def Op.share (c : Codec) (op : Op) : Share where
  versions := {op.version}
  seen := fun _ _ _ => False
  merged := {op.stamp}
  members := fun field => {m | op.member c field = some m}
  entries := fun k => {row | op.entry c k = some row}
  adds := fun k => {hlc | op.Adds c k ∧ hlc = op.stamp.hlc}
  removes := {k | op.Removes c k}
  deltas := fun k => {row | (ofLex k).2 = op.stamp.opRef ∧
    (op.delta (ofLex k).1).map (fun n => ⟨op.stamp.hlc, n⟩) = some row}
  books := {op.book}

/-! ### The bookkeeping -/

/-- The bookkeeping holds nothing but what rows of `B` say. -/
structure Bookkeeping.Sound (B : Set Bookkeeping) (m : Bookkeeping) : Prop where
  created : m.created = true → ∃ b ∈ B, b.created = true
  create : ∀ s, m.create = some s → ∃ b ∈ B, b.create = some s
  legacy : ∀ s, m.legacy = some s → ∃ b ∈ B, b.legacy = some s
  patchMs : ∀ n, m.patchMs = some n → ∃ b ∈ B, b.patchMs = some n
  head : ∃ b ∈ B, b.head = m.head

/-- The bookkeeping has heard of all a row says. -/
structure Bookkeeping.Covered (b m : Bookkeeping) : Prop where
  created : b.created = true → m.created = true
  create : ∀ s, b.create = some s → ∃ s', m.create = some s' ∧ s' ≤ s
  legacy : ∀ s, b.legacy = some s → ∃ s', m.legacy = some s' ∧ s ≤ s'
  patchMs : ∀ n, b.patchMs = some n → ∃ n', m.patchMs = some n' ∧ n ≤ n'
  head : b.head ≤ m.head

private theorem eq_of_bounds {α : Type*} {r : α → α → Prop}
    (hanti : ∀ a b, r a b → r b a → a = b) {x y : Option α}
    (hxy : ∀ a, x = some a → ∃ b, y = some b ∧ r a b)
    (hyx : ∀ b, y = some b → ∃ a, x = some a ∧ r b a) : x = y := by
  cases x with
  | some a =>
    obtain ⟨b, hb, hab⟩ := hxy a rfl
    obtain ⟨a', ha', hba⟩ := hyx b hb
    rw [hb, hanti a b hab (Option.some.inj ha' ▸ hba)]
  | none =>
    cases y with
    | none => rfl
    | some b =>
      obtain ⟨a, ha, -⟩ := hyx b rfl
      simp at ha

theorem Bookkeeping.Sound.unique {B : Set Bookkeeping} {m m' : Bookkeeping} (h : m.Sound B)
    (h' : m'.Sound B) (hc : ∀ b ∈ B, b.Covered m) (hc' : ∀ b ∈ B, b.Covered m') : m = m' := by
  have hcreated : m.created = m'.created := by
    rw [Bool.eq_iff_iff]
    constructor
    · intro ht
      obtain ⟨b, hb, hcr⟩ := h.created ht
      exact (hc' b hb).created hcr
    · intro ht
      obtain ⟨b, hb, hcr⟩ := h'.created ht
      exact (hc b hb).created hcr
  have hcreate : m.create = m'.create := by
    refine eq_of_bounds (fun a b hab hba => le_antisymm hba hab) (fun s hs => ?_) fun s hs => ?_
    · obtain ⟨b, hb, hcr⟩ := h.create s hs
      exact (hc' b hb).create s hcr
    · obtain ⟨b, hb, hcr⟩ := h'.create s hs
      exact (hc b hb).create s hcr
  have hlegacy : m.legacy = m'.legacy := by
    refine eq_of_bounds (fun a b hab hba => le_antisymm hab hba) (fun s hs => ?_) fun s hs => ?_
    · obtain ⟨b, hb, hl⟩ := h.legacy s hs
      exact (hc' b hb).legacy s hl
    · obtain ⟨b, hb, hl⟩ := h'.legacy s hs
      exact (hc b hb).legacy s hl
  have hpatch : m.patchMs = m'.patchMs := by
    refine eq_of_bounds (fun a b hab hba => le_antisymm hab hba) (fun n hn => ?_) fun n hn => ?_
    · obtain ⟨b, hb, hp⟩ := h.patchMs n hn
      exact (hc' b hb).patchMs n hp
    · obtain ⟨b, hb, hp⟩ := h'.patchMs n hn
      exact (hc b hb).patchMs n hp
  have hhead : m.head = m'.head := by
    obtain ⟨b, hb, hs⟩ := h.head
    obtain ⟨b', hb', hs'⟩ := h'.head
    exact le_antisymm (hs ▸ (hc' b hb).head) (hs' ▸ (hc b' hb').head)
  obtain ⟨_, _, _, _, _⟩ := m
  obtain ⟨_, _, _, _, _⟩ := m'
  simp only at hcreated hcreate hlegacy hpatch hhead
  rw [hcreated, hcreate, hlegacy, hpatch, hhead]

/-! ### The registers -/

/-- The registers, as lists of members, hold nothing but what `U` has. -/
structure RegistersSound (U : Share) (d : Dag) (floor : Option Stamp)
    (mem : String → List Member) : Prop where
  written : ∀ field, ∀ m ∈ mem field, m ∈ U.members field
  held : ∀ field, ∀ m ∈ mem field, m.stamp ∈ d.held
  above : ∀ field, ∀ m ∈ mem field, belowFloor floor m.stamp = false
  legacy : ∀ field, ∀ m ∈ mem field, U.Legacy m.stamp → floor = some m.stamp
  antichain : ∀ field,
    Antichain.IsAntichainOf (fun a b => d.registerPrecedes a.stamp b.stamp) (mem field)

/-- The writes of `P` are kept, or left out for good: the floor is above, or a write
of the same register follows. -/
def RegistersCovered (U : Share) (floor : Option Stamp) (mem : String → List Member)
    (P : Share) : Prop :=
  ∀ field, ∀ m ∈ P.members field,
    belowFloor floor m.stamp = true ∨ m ∈ mem field ∨
      ∃ m' ∈ U.members field, U.Precedes m.stamp m'.stamp

theorem RegistersSound.oneEach {U : Share} {d : Dag} {floor : Option Stamp}
    {mem : String → List Member} (hU : U.WellFormed) (h : RegistersSound U d floor mem)
    (field : String) : OneEach (mem field) :=
  fun m hm n hn => hU.member field m (h.written field m hm) n (h.written field n hn)

section

variable {U : History} {d : Dag} (h : d.Consistent U) {a b : Stamp} (hb : b ∈ d.held)
include h hb

theorem Dag.Consistent.registerPrecedes_iff :
    d.registerPrecedes a b = true ↔ a ≠ b ∧ (d.frontierAt b).Reaches a.device a := by
  obtain ⟨r, hr, -⟩ := (h.closed b hb).1
  have hfrontier : d.registerFrontier b = d.frontierAt b := by
    have hfind : (d.frontierOf b.opRef).find b.device = some r := hr
    unfold Dag.registerFrontier
    simp only [hfind]
    rfl
  unfold Dag.registerPrecedes reachedBy
  rw [hfrontier, Bool.and_eq_true, decide_eq_true_iff, decide_eq_true_iff]

theorem Dag.Consistent.precedes_of_registerPrecedes
    (hp : d.registerPrecedes a b = true) : HistPrecedes U a b := by
  obtain ⟨hne, hreach⟩ := (h.registerPrecedes_iff hb).mp hp
  exact ⟨hne, h.sound b hb _ _ hreach⟩

end

theorem belowFloor_ne {floor : Option Stamp} {s t : Stamp} (h : belowFloor floor s = false)
    (hle : s ≤ t) : belowFloor floor t ≠ true := by
  unfold belowFloor at h ⊢
  cases floor with
  | none => simp
  | some l =>
    simp only [decide_eq_false_iff_not, not_lt, ne_eq, decide_eq_true_eq] at h ⊢
    exact h.trans hle

/-! ### The other tables -/

def MapsSound (U : Share) (maps : Table (String ×ₗ String) MapRow) : Prop :=
  ∀ k row, maps.find k = some row → row ∈ U.entries k

def MapsCovered (maps : Table (String ×ₗ String) MapRow) (P : Share) : Prop :=
  ∀ k, ∀ row ∈ P.entries k, ∃ row', maps.find k = some row' ∧ row.stamp ≤ row'.stamp

def addStamp (k : TagKey) (hlc : Hlc) : Stamp := (TagKey.tag k).stamp hlc

theorem Op.addStamp_of_adds {c : Codec} {op : Op} {k : TagKey} (h : op.Adds c k) :
    addStamp k op.stamp.hlc = op.stamp := by
  rw [addStamp, tag_of_adds h]
  rfl

def AddsSound (U : Share) (floor : Option Stamp) (adds : Table TagKey Hlc) : Prop :=
  ∀ k hlc, adds.find k = some hlc → hlc ∈ U.adds k ∧ belowFloor floor (addStamp k hlc) = false

def AddsCovered (floor : Option Stamp) (adds : Table TagKey Hlc) (P : Share) : Prop :=
  ∀ k, ∀ hlc ∈ P.adds k, belowFloor floor (addStamp k hlc) = true ∨ adds.find k = some hlc

def RemovesSound (U : Share) (removes : Table TagKey Unit) : Prop :=
  ∀ k, removes.find k = some () → k ∈ U.removes

def RemovesCovered (removes : Table TagKey Unit) (P : Share) : Prop :=
  ∀ k ∈ P.removes, removes.find k = some ()

def deltaStamp (k : String ×ₗ OpRef) (row : DeltaRow) : Stamp := (ofLex k).2.stamp row.hlc

def DeltasSound (U : Share) (floor : Option Stamp)
    (deltas : Table (String ×ₗ OpRef) DeltaRow) : Prop :=
  ∀ k row, deltas.find k = some row →
    row ∈ U.deltas k ∧ Entity.atOrBelowFloor floor (deltaStamp k row) = false

def DeltasCovered (floor : Option Stamp) (deltas : Table (String ×ₗ OpRef) DeltaRow)
    (P : Share) : Prop :=
  ∀ k, ∀ row ∈ P.deltas k,
    Entity.atOrBelowFloor floor (deltaStamp k row) = true ∨ deltas.find k = some row

/-! ### The entity -/

namespace Entity

def floor (e : Entity) : Option Stamp := e.book.bind (·.2.legacy)

/-- The rows hold nothing but what `U` has, all of one kind. -/
structure Sound (c : Codec) (kind : EntityKind) (U : Share) (e : Entity) : Prop where
  book : ∀ k m, e.book = some (k, m) → k = kind ∧ m.Sound U.books
  dag : e.dag.Consistent U.toHistory
  normal : RegisterTables.Normal c kind.spec (legacyAt U.toHistory) e.regs
  regs : RegistersSound U e.dag e.floor e.regs.members
  maps : MapsSound U e.maps
  adds : AddsSound U e.floor e.adds
  removes : RemovesSound U e.removes
  deltas : DeltasSound U e.floor e.deltas

/-- What `P` says is in the rows, its removes aside. -/
structure CoveredButRemoves (U : Share) (e : Entity) (P : Share) : Prop where
  book : ∀ b ∈ P.books, ∃ k m, e.book = some (k, m) ∧ b.Covered m
  held : stampsOf P.toHistory ⊆ e.dag.held
  recorded : ∀ s dev a, P.seen s dev a → s ∈ e.dag.held ∧ (e.dag.frontierAt s).Reaches dev a
  regs : RegistersCovered U e.floor e.regs.members P
  maps : MapsCovered e.maps P
  adds : AddsCovered e.floor e.adds P
  deltas : DeltasCovered e.floor e.deltas P

/-- What `P` says is in the rows. -/
structure Covered (U : Share) (e : Entity) (P : Share) : Prop extends
    CoveredButRemoves U e P where
  removes : RemovesCovered e.removes P

theorem sound_empty (c : Codec) (kind : EntityKind) (U : Share) : Sound c kind U ∅ where
  book := fun _ _ h => absurd h (by nofun)
  dag := Dag.consistent_empty _
  normal := RegisterTables.normal_empty _ _ _
  regs := by
    have hnil : ∀ field, (∅ : Entity).regs.members field = [] := RegisterTables.members_empty
    constructor
    all_goals
      intro field
      rw [hnil]
    · simp
    · simp
    · simp
    · simp
    · exact fun m hm => absurd hm (by simp)
  maps := fun _ _ h => absurd h (by nofun)
  adds := fun _ _ h => absurd h (by nofun)
  removes := fun _ h => absurd h (by nofun)
  deltas := fun _ _ h => absurd h (by nofun)

theorem CoveredButRemoves.sUnion {U : Share} {e : Entity} {S : Set Share}
    (h : ∀ P ∈ S, CoveredButRemoves U e P) : CoveredButRemoves U e (Share.sUnion S) where
  book := fun b ⟨P, hP, hb⟩ => (h P hP).book b hb
  held := by
    rintro s ⟨v, ⟨P, hP, hv⟩, rfl⟩
    exact (h P hP).held ⟨v, hv, rfl⟩
  recorded := fun s dev a ⟨P, hP, hs⟩ => (h P hP).recorded s dev a hs
  regs := fun field m ⟨P, hP, hm⟩ => (h P hP).regs field m hm
  maps := fun k row ⟨P, hP, hr⟩ => (h P hP).maps k row hr
  adds := fun k hlc ⟨P, hP, ha⟩ => (h P hP).adds k hlc ha
  deltas := fun k row ⟨P, hP, hr⟩ => (h P hP).deltas k row hr

theorem Covered.sUnion {U : Share} {e : Entity} {S : Set Share}
    (h : ∀ P ∈ S, Covered U e P) : Covered U e (Share.sUnion S) where
  toCoveredButRemoves := CoveredButRemoves.sUnion fun P hP => (h P hP).toCoveredButRemoves
  removes := fun k ⟨P, hP, hk⟩ => (h P hP).removes k hk

/-! ### The state of a whole share -/

section

variable {c : Codec} {kind : EntityKind} {U : Share} {e e' : Entity}

theorem CoveredButRemoves.complete (hc : CoveredButRemoves U e U) :
    e.dag.Complete U.toHistory :=
  ⟨hc.held, fun s _ dev a hs => (hc.recorded s dev a hs).2⟩

/-- **The stored candidates are the maximal writes**: a register holds just the
writes at or above the floor that no other write of the register follows. -/
theorem Sound.mem_members_iff (hU : U.Ordered) (h : Sound c kind U e)
    (hc : CoveredButRemoves U e U) (field : String) (m : Member) :
    m ∈ e.regs.members field ↔
      m ∈ U.members field ∧ belowFloor e.floor m.stamp = false ∧
        ∀ m' ∈ U.members field, ¬ U.Precedes m.stamp m'.stamp := by
  have horder := hU.history.order
  constructor
  · intro hm
    have hmU := h.regs.written field m hm
    refine ⟨hmU, h.regs.above field m hm, fun m' hm' hp => ?_⟩
    -- a write that follows it lies below a maximal one, which is a member too
    let W : Set Stamp := {s | ∃ m ∈ U.members field, m.stamp = s}
    have hW : W.Finite := by
      refine ((hU.finite field).image Member.stamp).subset ?_
      rintro s ⟨m, hm, rfl⟩
      exact ⟨m, hm, rfl⟩
    have hWU : W ⊆ stampsOf U.toHistory := by
      rintro s ⟨m, hm, rfl⟩
      exact hU.held field m hm
    obtain ⟨t, ⟨m₂, hm₂, rfl⟩, hot, hmax⟩ :=
      horder.exists_maximal_above hW hWU ⟨m', hm', rfl⟩
    have hm₂U := hU.held field m₂ hm₂
    have hmstamp := hU.held field m hmU
    have hp₂ : U.Precedes m.stamp m₂.stamp := by
      rcases hot with heq | hot
      · exact heq ▸ hp
      · exact horder.precedes_trans hmstamp (hU.held field m' hm') hm₂U hp hot
    have hlt := horder.lt hmstamp hm₂U hp₂
    rcases hc.regs field m₂ hm₂ with hbelow | hmem | ⟨m₃, hm₃, hp₃⟩
    · exact belowFloor_ne (h.regs.above field m hm) hlt.le hbelow
    · have hanti := h.regs.antichain field m hm m₂ hmem
      have hreg : e.dag.registerPrecedes m.stamp m₂.stamp = true := by
        rw [h.dag.registerPrecedes_iff (hc.held hm₂U)]
        exact ⟨hp₂.1, (h.dag.reaches_iff hc.complete hm₂U _ _).mpr hp₂.2⟩
      simp [hreg] at hanti
    · exact hmax m₃.stamp ⟨m₃, hm₃, rfl⟩ hp₃
  · rintro ⟨hm, habove, hmax⟩
    rcases hc.regs field m hm with hbelow | hmem | ⟨m', hm', hp⟩
    · simp [habove] at hbelow
    · exact hmem
    · exact absurd hp (hmax m' hm')

theorem Sound.book_unique (h : Sound c kind U e) (h' : Sound c kind U e')
    (hc : CoveredButRemoves U e U) (hc' : CoveredButRemoves U e' U) : e.book = e'.book := by
  -- a row is there exactly when there is something to note
  have hsome : ∀ {e₁ e₂ : Entity}, Sound c kind U e₁ → CoveredButRemoves U e₂ U →
      e₂.book = none → e₁.book = none := by
    intro e₁ e₂ h₁ hc₂ hnone
    by_contra hne
    obtain ⟨⟨k, m⟩, hm⟩ := Option.ne_none_iff_exists'.mp hne
    obtain ⟨b, hb, -⟩ := (h₁.book k m hm).2.head
    obtain ⟨k', m', hm', -⟩ := hc₂.book b hb
    simp [hnone] at hm'
  cases hb : e.book with
  | none => rw [hsome h' hc hb]
  | some p =>
    cases hb' : e'.book with
    | none => simp [hsome h hc' hb'] at hb
    | some p' =>
      obtain ⟨k, m⟩ := p
      obtain ⟨k', m'⟩ := p'
      obtain ⟨rfl, hm⟩ := h.book k m hb
      obtain ⟨rfl, hm'⟩ := h'.book k' m' hb'
      have hcov : ∀ b ∈ U.books, b.Covered m := fun b hbU => by
        obtain ⟨k₁, m₁, heq, hm₁⟩ := hc.book b hbU
        rw [hb, Option.some.injEq, Prod.mk.injEq] at heq
        exact heq.2 ▸ hm₁
      have hcov' : ∀ b ∈ U.books, b.Covered m' := fun b hbU => by
        obtain ⟨k₁, m₁, heq, hm₁⟩ := hc'.book b hbU
        rw [hb', Option.some.injEq, Prod.mk.injEq] at heq
        exact heq.2 ▸ hm₁
      rw [hm.unique hm' hcov hcov']

theorem Sound.maps_find_iff (hU : U.WellFormed) (h : Sound c kind U e)
    (hc : CoveredButRemoves U e U) (k : String ×ₗ String) (row : MapRow) :
    e.maps.find k = some row ↔
      row ∈ U.entries k ∧ ∀ row' ∈ U.entries k, row'.stamp ≤ row.stamp := by
  have hmax : ∀ r, e.maps.find k = some r → ∀ row' ∈ U.entries k, row'.stamp ≤ r.stamp := by
    intro r hr row' hrow'
    obtain ⟨r', hr', hle⟩ := hc.maps k row' hrow'
    rw [hr, Option.some.injEq] at hr'
    exact hr' ▸ hle
  constructor
  · intro hrow
    exact ⟨h.maps k row hrow, hmax row hrow⟩
  · rintro ⟨hrow, hgreatest⟩
    obtain ⟨r, hr, hle⟩ := hc.maps k row hrow
    have hrU := h.maps k r hr
    rw [hr, hU.entry k r hrU row hrow (le_antisymm (hgreatest r hrU) hle)]

theorem Sound.adds_find_iff (h : Sound c kind U e) (hc : CoveredButRemoves U e U) (k : TagKey)
    (hlc : Hlc) :
    e.adds.find k = some hlc ↔ hlc ∈ U.adds k ∧ belowFloor e.floor (addStamp k hlc) = false := by
  refine ⟨h.adds k hlc, ?_⟩
  rintro ⟨hadd, habove⟩
  rcases hc.adds k hlc hadd with hbelow | hfind
  · simp [habove] at hbelow
  · exact hfind

theorem Sound.deltas_find_iff (h : Sound c kind U e) (hc : CoveredButRemoves U e U)
    (k : String ×ₗ OpRef) (row : DeltaRow) :
    e.deltas.find k = some row ↔
      row ∈ U.deltas k ∧ atOrBelowFloor e.floor (deltaStamp k row) = false := by
  refine ⟨h.deltas k row, ?_⟩
  rintro ⟨hrow, habove⟩
  rcases hc.deltas k row hrow with hbelow | hfind
  · simp [habove] at hbelow
  · exact hfind

theorem Sound.removes_find_iff (h : Sound c kind U e) (hc : RemovesCovered e.removes U)
    (k : TagKey) : e.removes.find k = some () ↔ k ∈ U.removes :=
  ⟨h.removes k, hc k⟩

/-- **The state of a share is determined**, the removes aside: two sound states that
cover all of it agree on every table but `merge_orset_removes`. -/
theorem Sound.unique_but_removes (hU : U.Ordered) (h : Sound c kind U e)
    (h' : Sound c kind U e') (hc : CoveredButRemoves U e U) (hc' : CoveredButRemoves U e' U) :
    e = { e' with removes := e.removes } := by
  have hbook := h.book_unique h' hc hc'
  have hfloor : e.floor = e'.floor := by rw [floor, floor, hbook]
  have hregs : e.regs = e'.regs := by
    refine RegisterTables.ext_members h.normal h'.normal (h.regs.oneEach hU.toWellFormed)
      fun field m => ?_
    rw [h.mem_members_iff hU hc, h'.mem_members_iff hU hc', hfloor]
  have hmaps : e.maps = e'.maps := Table.ext_some fun k row => by
    rw [h.maps_find_iff hU.toWellFormed hc, h'.maps_find_iff hU.toWellFormed hc']
  have hadds : e.adds = e'.adds :=
    Table.ext_some fun k hlc => by rw [h.adds_find_iff hc, h'.adds_find_iff hc', hfloor]
  have hdeltas : e.deltas = e'.deltas :=
    Table.ext_some fun k row => by rw [h.deltas_find_iff hc, h'.deltas_find_iff hc', hfloor]
  have hdag : e.dag = e'.dag := h.dag.unique hU.history h'.dag hc.complete hc'.complete
  obtain ⟨_, _, _, _, _, _, _⟩ := e
  obtain ⟨_, _, _, _, _, _, _⟩ := e'
  simp only at hbook hregs hmaps hadds hdeltas hdag
  rw [hbook, hregs, hmaps, hadds, hdeltas, hdag]

/-- **The state of a share is determined**: two sound states that cover all of it are
the same state. -/
theorem Sound.unique (hU : U.Ordered) (h : Sound c kind U e) (h' : Sound c kind U e')
    (hc : Covered U e U) (hc' : Covered U e' U) : e = e' := by
  have hremoves : e.removes = e'.removes := Table.ext_some fun k u => by
    rw [h.removes_find_iff hc.removes, h'.removes_find_iff hc'.removes]
  rw [h.unique_but_removes hU h' hc.toCoveredButRemoves hc'.toCoveredButRemoves, hremoves]

end

end Entity

end Sunrise
