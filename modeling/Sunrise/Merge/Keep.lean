import Sunrise.Merge.Spec

/-!
# What each small step keeps

The fold of an op and the join of a snapshot are made of the same small steps: a
write offered to a register, the antichain rule applied again after the frontiers
grew, the floor raised, a row added to one of the other tables. Each keeps what the
tables hold sound for a share `U` and loses nothing of a part of it that was covered.

* `RegistersSound.offered`, `RegistersSound.refiltered`, `RegistersSound.raised` —
  the registers; `RegistersCovered.offered` and so on, and
  `RegistersSound.covered_offered` for the write itself.
* `Working` — the state between loading the registers and flushing them, put together
  from these: `Entity.Sound.working` loads, `Working.raised` and `Working.written`
  step, `Working.sound_flush` ends.
-/

namespace Sunrise

open Registers

open Causal

variable {c : Codec} {U P : Share}

/-! ### The floor -/

/-- The floor only rises: what is below the old one is below the new one. -/
def FloorLe (floor floor' : Option Stamp) : Prop :=
  ∀ l, floor = some l → ∃ l', floor' = some l' ∧ l ≤ l'

theorem FloorLe.below {floor floor' : Option Stamp} (h : FloorLe floor floor') {s : Stamp}
    (hs : belowFloor floor s = true) : belowFloor floor' s = true := by
  cases floor with
  | none => simp [belowFloor] at hs
  | some l =>
    obtain ⟨l', rfl, hle⟩ := h l rfl
    simp only [belowFloor, decide_eq_true_eq] at hs ⊢
    exact hs.trans_le hle

theorem FloorLe.atOrBelow {floor floor' : Option Stamp} (h : FloorLe floor floor') {s : Stamp}
    (hs : Entity.atOrBelowFloor floor s = true) : Entity.atOrBelowFloor floor' s = true := by
  cases floor with
  | none => simp [Entity.atOrBelowFloor] at hs
  | some l =>
    obtain ⟨l', rfl, hle⟩ := h l rfl
    simp only [Entity.atOrBelowFloor, decide_eq_true_eq] at hs ⊢
    exact hs.trans hle

/-! ### Registers -/

section

variable {d d' : Dag} {floor floor' : Option Stamp} {mem mem' : String → List Member}

/-- A write of a held version that a field can be offered. -/
structure Offer (U : Share) (d : Dag) (floor : Option Stamp) (field : String)
    (m : Member) : Prop where
  written : m ∈ U.members field
  held : m.stamp ∈ d.held
  legacy : U.Legacy m.stamp → Entity.atOrBelowFloor floor m.stamp = true

/-- Each field is as it was, or was offered one write. -/
def Offered (U : Share) (d : Dag) (floor : Option Stamp)
    (mem mem' : String → List Member) : Prop :=
  ∀ field, mem' field = mem field ∨ ∃ m, Offer U d floor field m ∧
    mem' field = offerMember d floor (mem field) m

theorem registerPrecedes_self (d : Dag) (s : Stamp) : d.registerPrecedes s s = false := by
  simp [Dag.registerPrecedes]

theorem mem_of_mem_offerMember {ms : List Member} {m n : Member}
    (h : n ∈ offerMember d floor ms m) :
    n ∈ ms ∨ n = m ∧ belowFloor floor m.stamp = false := by
  unfold offerMember at h
  split at h
  · exact .inl h
  next hfloor =>
    split at h
    · exact .inl h
    · rcases Antichain.mem_of_mem_insert h with h | h
      · exact .inl h
      · exact .inr ⟨h, by simpa using hfloor⟩

theorem antichain_offerMember {ms : List Member} (m : Member)
    (h : Antichain.IsAntichainOf (fun a b => d.registerPrecedes a.stamp b.stamp) ms) :
    Antichain.IsAntichainOf (fun a b => d.registerPrecedes a.stamp b.stamp)
      (offerMember d floor ms m) := by
  unfold offerMember
  split
  · exact h
  · split
    · exact h
    · exact Antichain.antichain_insert (registerPrecedes_self d m.stamp) h

theorem mem_offerMember_of_mem (d : Dag) (floor : Option Stamp) {ms : List Member} (m : Member)
    {n : Member} (h : n ∈ ms) :
    n ∈ offerMember d floor ms m ∨ d.registerPrecedes n.stamp m.stamp = true := by
  unfold offerMember
  split
  · exact .inl h
  · split
    · exact .inl h
    · unfold Antichain.insert
      split
      · exact .inl h
      · cases hp : d.registerPrecedes n.stamp m.stamp with
        | true => exact .inr rfl
        | false => exact .inl (List.mem_append_left _ (List.mem_filter.mpr ⟨h, by simp [hp]⟩))

theorem mem_offerMember_self (d : Dag) (floor : Option Stamp) (ms : List Member) (m : Member) :
    (∃ n ∈ offerMember d floor ms m, n = m ∨ n ∈ ms ∧ n.stamp = m.stamp) ∨
      belowFloor floor m.stamp = true ∨ ∃ n ∈ ms, d.registerPrecedes m.stamp n.stamp = true := by
  unfold offerMember
  split
  next hfloor => exact .inr (.inl hfloor)
  next =>
    split
    next hsame =>
      obtain ⟨n, hn, hns⟩ := List.any_eq_true.mp hsame
      exact .inl ⟨n, hn, .inr ⟨hn, by simpa using hns⟩⟩
    next =>
      unfold Antichain.insert
      split
      next hdom => exact .inr (.inr (List.any_eq_true.mp hdom))
      next => exact .inl ⟨m, by simp, .inl rfl⟩

theorem RegistersSound.offered (h : RegistersSound U d floor mem)
    (ho : Offered U d floor mem mem') : RegistersSound U d floor mem' := by
  -- a member of a field is one it had, or the write it was offered
  have hcases : ∀ field, ∀ n ∈ mem' field, n ∈ mem field ∨
      Offer U d floor field n ∧ belowFloor floor n.stamp = false := by
    intro field n hn
    rcases ho field with heq | ⟨m, hm, heq⟩
    · exact .inl (heq ▸ hn)
    · rw [heq] at hn
      rcases mem_of_mem_offerMember hn with hn | ⟨rfl, hfloor⟩
      · exact .inl hn
      · exact .inr ⟨hm, hfloor⟩
  refine ⟨fun field n hn => ?_, fun field n hn => ?_, fun field n hn => ?_,
    fun field n hn hleg => ?_, fun field => ?_⟩
  · rcases hcases field n hn with hn | ⟨hoff, -⟩
    · exact h.written field n hn
    · exact hoff.written
  · rcases hcases field n hn with hn | ⟨hoff, -⟩
    · exact h.held field n hn
    · exact hoff.held
  · rcases hcases field n hn with hn | ⟨-, hfloor⟩
    · exact h.above field n hn
    · exact hfloor
  · rcases hcases field n hn with hn | ⟨hoff, hfloor⟩
    · exact h.legacy field n hn hleg
    · have hle := hoff.legacy hleg
      cases floor with
      | none => simp [Entity.atOrBelowFloor] at hle
      | some l =>
        simp only [Entity.atOrBelowFloor, decide_eq_true_eq] at hle
        simp only [belowFloor, decide_eq_false_iff_not, not_lt] at hfloor
        rw [le_antisymm hfloor hle]
  · rcases ho field with heq | ⟨m, -, heq⟩
    · rw [heq]
      exact h.antichain field
    · rw [heq]
      exact antichain_offerMember m (h.antichain field)

theorem RegistersCovered.offered (hd : d.Consistent U.toHistory)
    (ho : Offered U d floor mem mem') (hc : RegistersCovered U floor mem P) :
    RegistersCovered U floor mem' P := by
  intro field m hm
  rcases hc field m hm with hbelow | hmem | hfollow
  · exact .inl hbelow
  · rcases ho field with heq | ⟨n, hn, heq⟩
    · exact .inr (.inl (heq ▸ hmem))
    · rw [heq]
      rcases mem_offerMember_of_mem d floor n hmem with hk | hp
      · exact .inr (.inl hk)
      · exact .inr (.inr ⟨n, hn.written, hd.precedes_of_registerPrecedes hn.held hp⟩)
  · exact .inr (.inr hfollow)

theorem RegistersSound.covered_offered (hU : U.WellFormed) (hd : d.Consistent U.toHistory)
    (h : RegistersSound U d floor mem) {field : String} {m : Member}
    (hoff : Offer U d floor field m) :
    belowFloor floor m.stamp = true ∨ m ∈ offerMember d floor (mem field) m ∨
      ∃ m' ∈ U.members field, U.Precedes m.stamp m'.stamp := by
  rcases mem_offerMember_self d floor (mem field) m with ⟨n, hn, hnm⟩ | hbelow | ⟨n, hn, hp⟩
  · refine .inr (.inl ?_)
    rcases hnm with rfl | ⟨hmem, hstamp⟩
    · exact hn
    · -- the member of the same stamp is the same write
      have heq := hU.member field n (h.written field n hmem) m hoff.written (by rw [hstamp])
      exact heq ▸ hn
  · exact .inl hbelow
  · exact .inr (.inr ⟨n, h.written field n hn,
      hd.precedes_of_registerPrecedes (h.held field n hn) hp⟩)

section

variable (h : RegistersSound U d floor mem)
include h

theorem RegistersSound.extended
    (hheld : d.held ⊆ d'.held) (hsame : ∀ s ∈ d.held, d'.frontierAt s = d.frontierAt s) :
    RegistersSound U d' floor mem := by
  refine ⟨h.written, fun field m hm => hheld (h.held field m hm), h.above, h.legacy,
    fun field m hm n hn => ?_⟩
  have hold : d.registerPrecedes m.stamp n.stamp = false := h.antichain field m hm n hn
  have hf : d'.frontierOf n.stamp.opRef = d.frontierOf n.stamp.opRef :=
    hsame n.stamp (h.held field n hn)
  show d'.registerPrecedes m.stamp n.stamp = false
  unfold Dag.registerPrecedes Dag.registerFrontier at hold ⊢
  rwa [hf]

theorem RegistersSound.refiltered (hheld : d.held ⊆ d'.held)
    (hmem : ∀ field, mem' field =
      Antichain.prune (fun a b => d'.registerPrecedes a.stamp b.stamp) (mem field)) :
    RegistersSound U d' floor mem' := by
  have hsub : ∀ field, ∀ m ∈ mem' field, m ∈ mem field := fun field m hm =>
    Antichain.mem_of_mem_prune (hmem field ▸ hm)
  refine ⟨fun field m hm => h.written field m (hsub field m hm),
    fun field m hm => hheld (h.held field m (hsub field m hm)),
    fun field m hm => h.above field m (hsub field m hm),
    fun field m hm => h.legacy field m (hsub field m hm), fun field => ?_⟩
  rw [hmem]
  exact Antichain.antichain_prune

theorem RegistersCovered.refiltered (hd' : d'.Consistent U.toHistory) (hheld : d.held ⊆ d'.held)
    (hmem : ∀ field, mem' field =
      Antichain.prune (fun a b => d'.registerPrecedes a.stamp b.stamp) (mem field))
    (hc : RegistersCovered U floor mem P) : RegistersCovered U floor mem' P := by
  intro field m hm
  rcases hc field m hm with hbelow | hin | hfollow
  · exact .inl hbelow
  · rw [hmem]
    rcases Antichain.mem_prune_or hin with hk | ⟨n, hn, hp⟩
    · exact .inr (.inl hk)
    · exact .inr (.inr ⟨n, h.written field n hn,
        hd'.precedes_of_registerPrecedes (hheld (h.held field n hn)) hp⟩)
  · exact .inr (.inr hfollow)

theorem RegistersSound.raised {s : Stamp}
    (hlt : ∀ l, floor = some l → l < s)
    (hmem : ∀ field, mem' field = (mem field).filter fun m => s ≤ m.stamp) :
    RegistersSound U d (some s) mem' := by
  have hsub : ∀ field, ∀ m ∈ mem' field, m ∈ mem field ∧ s ≤ m.stamp := by
    intro field m hm
    rw [hmem, List.mem_filter, decide_eq_true_iff] at hm
    exact hm
  refine ⟨fun field m hm => h.written field m (hsub field m hm).1,
    fun field m hm => h.held field m (hsub field m hm).1, fun field m hm => ?_,
    fun field m hm hleg => ?_, fun field => ?_⟩
  · simp only [belowFloor, decide_eq_false_iff_not, not_lt]
    exact (hsub field m hm).2
  · -- a full-state op's write stood at the old floor, which is below the new one
    have hold := h.legacy field m (hsub field m hm).1 hleg
    exact absurd (hlt _ hold) (not_lt_of_ge (hsub field m hm).2)
  · exact (h.antichain field).subset fun m hm => (hsub field m hm).1

end

theorem RegistersCovered.raised {s : Stamp} (hlt : ∀ l, floor = some l → l < s)
    (hmem : ∀ field, mem' field = (mem field).filter fun m => s ≤ m.stamp)
    (hc : RegistersCovered U floor mem P) : RegistersCovered U (some s) mem' P := by
  have hle : FloorLe floor (some s) := fun l hl => ⟨s, rfl, (hlt l hl).le⟩
  intro field m hm
  rcases hc field m hm with hbelow | hin | hfollow
  · exact .inl (hle.below hbelow)
  · rcases le_or_gt s m.stamp with hs | hs
    · rw [hmem]
      exact .inr (.inl (List.mem_filter.mpr ⟨hin, by simpa using hs⟩))
    · exact .inl (by simpa [belowFloor] using hs)
  · exact .inr (.inr hfollow)

end

/-! ### Map entries -/

section

variable {maps maps' : Table (String ×ₗ String) MapRow}

/-- The row a map entry holds after a write of `row`. -/
def newer (held : Option MapRow) (row : MapRow) : MapRow :=
  match held with
  | some h => if replaces row.stamp h.stamp then row else h
  | none => row

theorem newer_eq (held : Option MapRow) (row : MapRow) :
    newer held row = row ∨ held = some (newer held row) := by
  unfold newer
  cases held with
  | none => exact .inl rfl
  | some h =>
    simp only
    split
    · exact .inl rfl
    · exact .inr rfl

theorem le_newer (held : Option MapRow) (row : MapRow) :
    row.stamp ≤ (newer held row).stamp ∧ ∀ h, held = some h → h.stamp ≤ (newer held row).stamp := by
  unfold newer
  cases held with
  | none => exact ⟨le_rfl, by simp⟩
  | some h =>
    simp only [Option.some.injEq, forall_eq']
    split
    next hr => exact ⟨le_rfl, replaces_iff.mp hr⟩
    next hr =>
      rw [replaces_iff, not_le] at hr
      exact ⟨hr.le, le_rfl⟩

theorem Entity.writeMapEntry_eq (e : Entity) (field key : String) (row : MapRow) :
    e.writeMapEntry field key row =
      { e with
        maps := e.maps.upsert (toLex (field, key))
          (newer (e.maps.find (toLex (field, key))) row) } := by
  unfold writeMapEntry newer
  cases hfind : e.maps.find (toLex (field, key)) with
  | none => rfl
  | some h =>
    simp only
    split
    next => rfl
    next =>
      have hsame : e.maps.upsert (toLex (field, key)) h = e.maps := by
        refine Table.ext_find fun k => ?_
        rw [Table.find_upsert]
        split
        next hk => rw [hk, hfind]
        next => rfl
      rw [hsame]

def MapsWritten (U : Share) (maps maps' : Table (String ×ₗ String) MapRow) : Prop :=
  ∀ k, maps'.find k = maps.find k ∨ ∃ row ∈ U.entries k,
    maps'.find k = some (newer (maps.find k) row)

theorem MapsSound.written (h : MapsSound U maps) (hw : MapsWritten U maps maps') :
    MapsSound U maps' := by
  intro k row hrow
  rcases hw k with heq | ⟨r, hr, heq⟩
  · exact h k row (heq ▸ hrow)
  · rw [heq, Option.some.injEq] at hrow
    rcases newer_eq (maps.find k) r with hn | hn
    · rw [← hrow, hn]
      exact hr
    · exact h k row (hrow ▸ hn)

theorem MapsCovered.written (hw : MapsWritten U maps maps') (hc : MapsCovered maps P) :
    MapsCovered maps' P := by
  intro k row hrow
  obtain ⟨r, hr, hle⟩ := hc k row hrow
  rcases hw k with heq | ⟨r', -, heq⟩
  · exact ⟨r, heq.trans hr, hle⟩
  · exact ⟨_, heq, hle.trans ((le_newer (maps.find k) r').2 r hr)⟩

end

/-! ### OR-sets -/

section

variable {floor floor' : Option Stamp} {adds adds' : Table TagKey Hlc}
  {removes removes' : Table TagKey Unit}

theorem Entity.addElement_eq (e : Entity) (field : String) (element : Bytes) (s : Stamp)
    (floor : Option Stamp) :
    e.addElement field element s floor =
      { e with
        adds := if belowFloor floor s then e.adds
          else e.adds.insertOrIgnore (tagKey field element s.opRef) s.hlc } := by
  unfold addElement
  split <;> rfl

/-- Each add is as it was, or was made, not below the floor. -/
def AddsWritten (U : Share) (floor : Option Stamp) (adds adds' : Table TagKey Hlc) : Prop :=
  ∀ k, adds'.find k = adds.find k ∨ ∃ hlc ∈ U.adds k,
    belowFloor floor (addStamp k hlc) = false ∧ adds'.find k = (adds.find k).or (some hlc)

theorem AddsSound.written (h : AddsSound U floor adds) (hw : AddsWritten U floor adds adds') :
    AddsSound U floor adds' := by
  intro k hlc hfind
  rcases hw k with heq | ⟨hlc', hadd, hfloor, heq⟩
  · exact h k hlc (heq ▸ hfind)
  · rw [heq, Option.or_eq_some_iff] at hfind
    rcases hfind with hold | ⟨-, hnew⟩
    · exact h k hlc hold
    · exact Option.some.inj hnew ▸ ⟨hadd, hfloor⟩

theorem AddsCovered.written (hw : AddsWritten U floor adds adds') (hc : AddsCovered floor adds P) :
    AddsCovered floor adds' P := by
  intro k hlc hk
  rcases hc k hlc hk with hbelow | hfind
  · exact .inl hbelow
  · refine .inr ?_
    rcases hw k with heq | ⟨_, -, -, heq⟩
    · exact heq.trans hfind
    · rw [heq, hfind, Option.some_or]

theorem AddsSound.raised (h : AddsSound U floor adds) (s : Stamp) :
    AddsSound U (some s)
      (adds.filter fun k hlc => decide (s ≤ (TagKey.tag k).stamp hlc)) := by
  intro k hlc hfind
  obtain ⟨hold, hs⟩ := Table.find_filter_eq_some.mp hfind
  refine ⟨(h k hlc hold).1, ?_⟩
  have hle : s ≤ addStamp k hlc := of_decide_eq_true hs
  simpa [belowFloor] using hle

theorem AddsCovered.raised {s : Stamp} (hle : FloorLe floor (some s))
    (hc : AddsCovered floor adds P) :
    AddsCovered (some s)
      (adds.filter fun k hlc => decide (s ≤ (TagKey.tag k).stamp hlc)) P := by
  intro k hlc hk
  rcases hc k hlc hk with hbelow | hfind
  · exact .inl (hle.below hbelow)
  · rcases le_or_gt s (addStamp k hlc) with hs | hs
    · exact .inr (Table.find_filter_eq_some.mpr ⟨hfind, decide_eq_true hs⟩)
    · exact .inl (by simpa [belowFloor] using hs)

/-- Each remove is as it was, or was made. -/
def RemovesWritten (U : Share) (removes removes' : Table TagKey Unit) : Prop :=
  ∀ k, removes'.find k = removes.find k ∨ k ∈ U.removes ∧ removes'.find k = some ()

theorem RemovesSound.written (h : RemovesSound U removes)
    (hw : RemovesWritten U removes removes') : RemovesSound U removes' := by
  intro k hfind
  rcases hw k with heq | ⟨hk, -⟩
  · exact h k (heq ▸ hfind)
  · exact hk

theorem RemovesCovered.written (hw : RemovesWritten U removes removes')
    (hc : RemovesCovered removes P) : RemovesCovered removes' P := by
  intro k hk
  rcases hw k with heq | ⟨-, heq⟩
  · exact heq.trans (hc k hk)
  · exact heq

end

/-! ### Counters -/

section

variable {floor floor' : Option Stamp} {deltas deltas' : Table (String ×ₗ OpRef) DeltaRow}

theorem Entity.addDelta_eq (e : Entity) (field : String) (delta : ℤ) (s : Stamp)
    (floor : Option Stamp) :
    e.addDelta field delta s floor =
      { e with
        deltas := if atOrBelowFloor floor s then e.deltas
          else e.deltas.insertOrIgnore (toLex (field, s.opRef)) ⟨s.hlc, delta⟩ } := by
  unfold addDelta
  split <;> rfl

/-- Each delta is as it was, or was made, above the floor. -/
def DeltasWritten (U : Share) (floor : Option Stamp)
    (deltas deltas' : Table (String ×ₗ OpRef) DeltaRow) : Prop :=
  ∀ k, deltas'.find k = deltas.find k ∨ ∃ row ∈ U.deltas k,
    Entity.atOrBelowFloor floor (deltaStamp k row) = false ∧
      deltas'.find k = (deltas.find k).or (some row)

theorem DeltasSound.written (h : DeltasSound U floor deltas)
    (hw : DeltasWritten U floor deltas deltas') : DeltasSound U floor deltas' := by
  intro k row hfind
  rcases hw k with heq | ⟨row', hrow, hfloor, heq⟩
  · exact h k row (heq ▸ hfind)
  · rw [heq, Option.or_eq_some_iff] at hfind
    rcases hfind with hold | ⟨-, hnew⟩
    · exact h k row hold
    · exact Option.some.inj hnew ▸ ⟨hrow, hfloor⟩

theorem DeltasCovered.written (hw : DeltasWritten U floor deltas deltas')
    (hc : DeltasCovered floor deltas P) : DeltasCovered floor deltas' P := by
  intro k row hrow
  rcases hc k row hrow with hbelow | hfind
  · exact .inl hbelow
  · refine .inr ?_
    rcases hw k with heq | ⟨_, -, -, heq⟩
    · exact heq.trans hfind
    · rw [heq, hfind, Option.some_or]

theorem DeltasSound.raised (h : DeltasSound U floor deltas) (s : Stamp) :
    DeltasSound U (some s)
      (deltas.filter fun k row => decide (s < (ofLex k).2.stamp row.hlc)) := by
  intro k row hfind
  obtain ⟨hold, hs⟩ := Table.find_filter_eq_some.mp hfind
  refine ⟨(h k row hold).1, ?_⟩
  rw [decide_eq_true_iff] at hs
  have hs' : s < deltaStamp k row := hs
  simpa [Entity.atOrBelowFloor] using hs'

theorem DeltasCovered.raised {s : Stamp} (hle : FloorLe floor (some s))
    (hc : DeltasCovered floor deltas P) :
    DeltasCovered (some s)
      (deltas.filter fun k row => decide (s < (ofLex k).2.stamp row.hlc)) P := by
  intro k row hrow
  rcases hc k row hrow with hbelow | hfind
  · exact .inl (hle.atOrBelow hbelow)
  · rcases lt_or_ge s (deltaStamp k row) with hs | hs
    · exact .inr (Table.find_filter_eq_some.mpr ⟨hfind, decide_eq_true hs⟩)
    · exact .inl (by simpa [Entity.atOrBelowFloor] using hs)

end

/-! ### Between load and flush -/

/-- The rows and the registers in memory, between a load of `t` and its flush. -/
structure Working (U : Share) (t : RegisterTables) (floor : Option Stamp)
    (w : Entity × Registers) : Prop where
  dag : w.1.dag.Consistent U.toHistory
  tracks : Registers.Tracks t w.2
  atFloor : w.2.floor = floor
  regs : RegistersSound U w.1.dag floor w.2.members
  maps : MapsSound U w.1.maps
  adds : AddsSound U floor w.1.adds
  removes : RemovesSound U w.1.removes
  deltas : DeltasSound U floor w.1.deltas

/-- What `P` says is in the rows and the registers, its removes aside. -/
structure WorkingCovered (U : Share) (floor : Option Stamp) (w : Entity × Registers)
    (P : Share) : Prop where
  held : stampsOf P.toHistory ⊆ w.1.dag.held
  recorded : ∀ s dev a, P.seen s dev a →
    s ∈ w.1.dag.held ∧ (w.1.dag.frontierAt s).Reaches dev a
  regs : RegistersCovered U floor w.2.members P
  maps : MapsCovered w.1.maps P
  adds : AddsCovered floor w.1.adds P
  deltas : DeltasCovered floor w.1.deltas P

section

variable {kind : EntityKind} {t : RegisterTables} {floor : Option Stamp}
  {w w' : Entity × Registers} {e : Entity} {d' : Dag}

/-- The DAG grew, and either the frontiers of the versions it held are as they were
or the registers are filtered again. -/
structure Refreshed (d d' : Dag) (refined : Bool) : Prop where
  held : d.held ⊆ d'.held
  grows : ∀ s ∈ d.held, (d.frontierAt s).Below (d'.frontierAt s)
  same : refined = true ∨ ∀ s ∈ d.held, d'.frontierAt s = d.frontierAt s

section

variable (h : e.Sound c kind U) (hd' : d'.Consistent U.toHistory) {a : Admission}
  (hfresh : Refreshed e.dag d' a.refined)
include h hd' hfresh

theorem Entity.Sound.working :
    Working U e.regs e.floor
      ({ e with dag := d' }, registersAfter { e with dag := d' } e.floor a) := by
  have hload : RegistersSound U e.dag e.floor (load e.regs e.floor).members := by
    have hmem : (load e.regs e.floor).members = e.regs.members :=
      funext (members_load e.regs e.floor)
    rw [hmem]
    exact h.regs
  have htracks := tracks_load e.regs e.floor
  refine ⟨hd', ?_, ?_, ?_, h.maps, h.adds, h.removes, h.deltas⟩
  · unfold registersAfter
    split
    · exact htracks.refilter d'
    · exact htracks
  · unfold registersAfter
    split <;> rfl
  · unfold registersAfter
    split
    next => exact hload.refiltered hfresh.held (members_refilter d' _)
    next hr =>
      rcases hfresh.same with hr' | hsame
      · exact absurd hr' hr
      · exact hload.extended hfresh.held hsame

theorem Entity.CoveredButRemoves.working (hc : e.CoveredButRemoves U P) :
    WorkingCovered U e.floor
      ({ e with dag := d' }, registersAfter { e with dag := d' } e.floor a) P := by
  have hmem : (load e.regs e.floor).members = e.regs.members :=
    funext (members_load e.regs e.floor)
  refine ⟨fun s hs => hfresh.held (hc.held hs), fun s dev a hs => ?_, ?_, hc.maps, hc.adds,
    hc.deltas⟩
  · obtain ⟨hheld, hreach⟩ := hc.recorded s dev a hs
    exact ⟨hfresh.held hheld, hfresh.grows s hheld dev a hreach⟩
  have hload : RegistersSound U e.dag e.floor (load e.regs e.floor).members := by
    rw [hmem]
    exact h.regs
  have hcov : RegistersCovered U e.floor (load e.regs e.floor).members P := by
    rw [hmem]
    exact hc.regs
  unfold registersAfter
  split
  · exact hcov.refiltered hload hd' hfresh.held (members_refilter d' _)
  · exact hcov

end

theorem Working.raised (h : Working U t floor w) {s : Stamp}
    (hlt : ∀ l, floor = some l → l < s) :
    Working U t (some s) (w.1.pruneBelowFloor s, w.2.raiseFloor s) where
  dag := h.dag
  tracks := h.tracks.raiseFloor s
  atFloor := by
    have hfloor := h.atFloor
    unfold Registers.raiseFloor
    rw [hfloor]
    cases floor with
    | none => rfl
    | some l => exact congrArg some (max_eq_right (hlt l rfl).le)
  regs := h.regs.raised hlt (members_raiseFloor w.2 s)
  maps := h.maps
  adds := h.adds.raised s
  removes := h.removes
  deltas := h.deltas.raised s

theorem WorkingCovered.raised (hc : WorkingCovered U floor w P) {s : Stamp}
    (hlt : ∀ l, floor = some l → l < s) :
    WorkingCovered U (some s) (w.1.pruneBelowFloor s, w.2.raiseFloor s) P where
  held := hc.held
  recorded := hc.recorded
  regs := hc.regs.raised hlt (members_raiseFloor w.2 s)
  maps := hc.maps
  adds := hc.adds.raised fun l hl => ⟨s, rfl, (hlt l hl).le⟩
  deltas := hc.deltas.raised fun l hl => ⟨s, rfl, (hlt l hl).le⟩

structure Written (U : Share) (t : RegisterTables) (floor : Option Stamp)
    (w w' : Entity × Registers) : Prop where
  dag : w'.1.dag = w.1.dag
  tracks : Registers.Tracks t w'.2
  sameFloor : w'.2.floor = w.2.floor
  regs : Offered U w.1.dag floor w.2.members w'.2.members
  maps : MapsWritten U w.1.maps w'.1.maps
  adds : AddsWritten U floor w.1.adds w'.1.adds
  removes : RemovesWritten U w.1.removes w'.1.removes
  deltas : DeltasWritten U floor w.1.deltas w'.1.deltas

theorem Working.written (h : Working U t floor w) (hw : Written U t floor w w') :
    Working U t floor w' where
  dag := hw.dag ▸ h.dag
  tracks := hw.tracks
  atFloor := hw.sameFloor.trans h.atFloor
  regs := by
    rw [hw.dag]
    exact h.regs.offered hw.regs
  maps := h.maps.written hw.maps
  adds := h.adds.written hw.adds
  removes := h.removes.written hw.removes
  deltas := h.deltas.written hw.deltas

theorem WorkingCovered.written (h : Working U t floor w) (hw : Written U t floor w w')
    (hc : WorkingCovered U floor w P) : WorkingCovered U floor w' P where
  held := hw.dag ▸ hc.held
  recorded := hw.dag ▸ hc.recorded
  regs := hc.regs.offered h.dag hw.regs
  maps := hc.maps.written hw.maps
  adds := hc.adds.written hw.adds
  deltas := hc.deltas.written hw.deltas

section

variable {m : Bookkeeping} (hU : U.WellFormed) (h : Working U t floor w)
  (hnorm : RegisterTables.Normal c kind.spec (legacyAt U.toHistory) t) (hm : m.Sound U.books)
  (hfloor : m.legacy = floor)

include hU h hnorm hm hfloor

theorem Working.written_flush (field : String) :
    RegisterTables.Written c (kind.spec.classOf field) (legacyAt U.toHistory) (w.2.members field)
      (w.2.flush c kind.spec t) field := by
  refine Registers.written_flush h.tracks hnorm (h.regs.oneEach hU) (fun g n hn => ?_) field
  -- the floor's own op is the one full-state op a member can be of
  rw [h.atFloor, Bool.eq_iff_iff, decide_eq_true_iff, legacyAt_iff]
  constructor
  · intro heq
    obtain ⟨b, hb, hl⟩ := hm.legacy n.stamp (hfloor.trans heq)
    obtain ⟨v, hv, hstamp⟩ := hU.held g n (h.regs.written g n hn)
    exact ⟨v, hv, hstamp, hU.floor b hb _ hl v hv hstamp⟩
  · exact h.regs.legacy g n hn

theorem Working.sound_flush :
    Entity.Sound c kind U
      { w.1 with regs := w.2.flush c kind.spec t, book := some (kind, m) } := by
  have hflush := h.written_flush hU hnorm hm hfloor
  have hmem : ∀ field n, n ∈ (w.2.flush c kind.spec t).members field ↔ n ∈ w.2.members field :=
    fun field n => (hflush field).mem_members
  have hsound : RegistersSound U w.1.dag floor (w.2.flush c kind.spec t).members :=
    ⟨fun g n hn => h.regs.written g n ((hmem g n).mp hn),
      fun g n hn => h.regs.held g n ((hmem g n).mp hn),
      fun g n hn => h.regs.above g n ((hmem g n).mp hn),
      fun g n hn => h.regs.legacy g n ((hmem g n).mp hn),
      fun g => (h.regs.antichain g).subset fun n => (hmem g n).mp⟩
  subst hfloor
  refine ⟨?_, h.dag, fun field => ?_, hsound, h.maps, h.adds, h.removes, h.deltas⟩
  · rintro k m' hkm
    simp only [Option.some.injEq, Prod.mk.injEq] at hkm
    exact ⟨hkm.1.symm, hkm.2 ▸ hm⟩
  · exact (hflush field).congr (h.regs.oneEach hU field) fun n => (hmem field n).symm

theorem WorkingCovered.flush (hc : WorkingCovered U floor w P)
    (hbooks : ∀ b ∈ P.books, b.Covered m) :
    Entity.CoveredButRemoves U
      { w.1 with regs := w.2.flush c kind.spec t, book := some (kind, m) } P := by
  have hflush := h.written_flush hU hnorm hm hfloor
  subst hfloor
  refine ⟨fun b hb => ⟨kind, m, rfl, hbooks b hb⟩, hc.held, hc.recorded, fun field n hn => ?_,
    hc.maps, hc.adds, hc.deltas⟩
  rcases hc.regs field n hn with hbelow | hin | hfollow
  · exact .inl hbelow
  · exact .inr (.inl ((hflush field).mem_members.mpr hin))
  · exact .inr (.inr hfollow)

end

end

end Sunrise
