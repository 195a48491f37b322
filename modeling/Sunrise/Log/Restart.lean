import Sunrise.Log.Clock

/-!
# The clock over restarts

A snapshot takes in the stamps of its frontier before it adopts them as floors, and an open
restores the clock from the rows and the floors. So the clock stays above all the log
holds. It stays above all the log has ever held where no floor stands for more than its one
stamp bounds, which every write has to keep up.

* `ClockedLog.own_stamps_dominate` — in those runs what the device appends is stamped
  above everything it has recorded, and `ClockedLog.not_own_stamps_dominate` that in other
  runs it need not be.
-/

namespace Sunrise

open DeviceLog

open OpLog (Delivery SnapshotEntry CompactionView)

namespace ClockedLog

variable {c : ChainHash} {v w : ClockedLog}

/-! ### Snapshots -/

/-- Every floor a snapshot raises, it raises to an op stamped at or above the op the floor
stood at. -/
def AdoptsRising (v : ClockedLog) (s : StreamId) (entries : List StampedEntry) : Prop :=
  ∀ e ∈ entries, (v.log.devs s e.entry.device).floorSeq < e.entry.floor.seq →
    ∀ h, v.floorHlc s e.entry.device = some h → h ≤ e.hlc

theorem heldAt_adopted (c : ChainHash) (s : StreamId) (e : StampedEntry) (r : OpRef) :
    (v.adopt c s e).log.heldAt r = v.log.heldAt r :=
  (OpLog.heldAt_adopt c s v.log e.entry r).1

theorem Ahead.adopt (ha : v.Ahead) (c : ChainHash) (s : StreamId) {e : StampedEntry}
    (he : e.hlc ≤ v.hlc) :
    (v.adopt c s e).Ahead ∧ (v.AdoptsRising s [e] → v.Rises (v.adopt c s e)) := by
  have hstored : e.hlc.stored = e.hlc := by
    have hle := Hlc.le_iff.mp he
    have hfits := ha.fits
    exact Hlc.stored_eq_self (by omega)
  refine ⟨⟨(ha.settled.adopt c s e.entry).1, fun h hh => ?_, ha.fits, fun r hr hh => ?_,
    fun s' dev hf => ?_⟩, fun hrising h hh => ?_⟩
  · cases hh with
    | row r env hr hheld =>
      rw [heldAt_adopted] at hheld
      exact ha.le_hlc _ (.row r env hr hheld)
    | floor s' dev h hf =>
      unfold ClockedLog.adopt at hf
      dsimp only at hf
      split at hf
      · rw [← Option.some.inj hf, hstored]
        exact he
      · exact ha.le_hlc _ (.floor s' dev h hf)
  · rw [heldAt_adopted] at hh
    exact List.mem_cons_of_mem _ (ha.mem_of_held r hr hh)
  · unfold ClockedLog.adopt at hf ⊢
    dsimp only at hf ⊢
    split at hf
    next h => rw [h.1, h.2.1]; exact List.mem_cons_self
    next => exact List.mem_cons_of_mem _ (ha.mem_of_floor s' dev hf)
  · cases hh with
    | row r env hr hheld =>
      exact (Holds.row r env hr (by rw [heldAt_adopted]; exact hheld)).bounds
    | floor s' dev h hf =>
      by_cases hat : s' = s ∧ dev = e.entry.device ∧
          (v.log.devs s e.entry.device).floorSeq < e.entry.floor.seq
      · refine ⟨e.hlc, .floor s' dev _ ?_, ?_⟩
        · unfold ClockedLog.adopt
          dsimp only
          rw [if_pos hat, hstored]
        · rw [hat.1, hat.2.1] at hf
          exact hrising e List.mem_cons_self hat.2.2 h hf
      · refine ⟨h, .floor s' dev h ?_, le_rfl⟩
        unfold ClockedLog.adopt
        dsimp only
        rw [if_neg hat, hf]

theorem AdoptsRising.adopt {s : StreamId} {e : StampedEntry} {entries : List StampedEntry}
    (h : v.AdoptsRising s entries) (c : ChainHash)
    (hne : ∀ e' ∈ entries, e.entry.device < e'.entry.device) :
    (v.adopt c s e).AdoptsRising s entries := by
  intro e' he' hlt x hx
  have hdev : e'.entry.device ≠ e.entry.device := (hne e' he').ne'
  have hfloor := (OpLog.heldAt_adopt c s v.log e.entry ⟨s, e'.entry.device, 0⟩).2
  dsimp only at hfloor
  rw [if_neg fun h => hdev h.2] at hfloor
  refine h e' he' ?_ x ?_
  · unfold DeviceLog.floorSeq at hlt ⊢
    rw [← hfloor]
    exact hlt
  · unfold ClockedLog.adopt at hx
    dsimp only at hx
    rwa [if_neg fun h => hdev h.2.1] at hx

theorem Ahead.adoptAll (ha : v.Ahead) (c : ChainHash) (s : StreamId)
    {entries : List StampedEntry}
    (hp : entries.Pairwise fun a b => a.entry.device < b.entry.device)
    (he : ∀ e ∈ entries, e.hlc ≤ v.hlc) :
    (entries.foldl (ClockedLog.adopt c s) v).Ahead ∧
      (v.AdoptsRising s entries → v.Rises (entries.foldl (ClockedLog.adopt c s) v)) := by
  induction entries generalizing v with
  | nil => exact ⟨ha, fun _ => .refl v⟩
  | cons e entries ih =>
    rw [List.pairwise_cons] at hp
    obtain ⟨hb, hrise⟩ := ha.adopt c s (he e List.mem_cons_self)
    obtain ⟨hb', hrise'⟩ := ih hb hp.2 fun e' he' => he e' (List.mem_cons_of_mem _ he')
    refine ⟨hb', fun h => (hrise ?_).trans (hrise' ?_)⟩
    · intro e' he'
      rw [List.mem_singleton.mp he']
      exact h e List.mem_cons_self
    · exact AdoptsRising.adopt (fun e' he' => h e' (List.mem_cons_of_mem _ he')) c hp.1

theorem le_receiveRetained (c : ChainHash) (v : ClockedLog) (retained : List (ℕ × Delivery)) :
    v.hlc ≤ (v.receiveRetained c retained).1.hlc := by
  induction retained generalizing v with
  | nil => exact le_rfl
  | cons x retained ih =>
    obtain ⟨now, dl⟩ := x
    rw [receiveRetained_cons]
    by_cases hobs : (v.observe dl.env.hlc now).isSome
    · rw [if_pos hobs]
      refine le_trans ?_ (ih (v.deliver c now dl))
      obtain ⟨w, hw⟩ := Option.isSome_iff_exists.mp hobs
      rw [deliver_of_some hw]
      obtain ⟨hlc, hr, rfl⟩ := observe_eq_some hw
      exact (Hlc.receive_spec hr).1
    · rw [if_neg hobs]

theorem floor_receiveRetained (c : ChainHash) (v : ClockedLog) (retained : List (ℕ × Delivery))
    (s : StreamId) (dev : Device) :
    ((v.receiveRetained c retained).1.log.devs s dev).floor = (v.log.devs s dev).floor := by
  induction retained generalizing v with
  | nil => rfl
  | cons x retained ih =>
    obtain ⟨now, dl⟩ := x
    rw [receiveRetained_cons]
    by_cases hobs : (v.observe dl.env.hlc now).isSome
    · rw [if_pos hobs, ih]
      cases hw : v.observe dl.env.hlc now with
      | none => rw [deliver_of_none hw]
      | some w =>
        rw [deliver_of_some hw]
        obtain ⟨hlc, -, rfl⟩ := observe_eq_some hw
        exact OpLog.floor_deliver ..
    · rw [if_neg hobs]

theorem Ahead.observeEntries (ha : v.Ahead) {entries : List StampedEntry} {now : ℕ}
    (hnow : now ≤ storeMax) (he : ∀ e ∈ entries, e.hlc.physicalMs ≤ storeMax)
    (h : v.observeEntries entries now = some w) :
    w.Ahead ∧ v.Rises w ∧ (∀ e ∈ entries, e.hlc ≤ w.hlc) ∧ w.log = v.log ∧
      w.floorHlc = v.floorHlc := by
  unfold ClockedLog.observeEntries at h
  split at h
  next hmax =>
    obtain rfl := Option.some.inj h
    have hnil : entries = [] := by simpa using hmax
    exact ⟨ha, .refl v, by simp [hnil], rfl, rfl⟩
  next greatest hmax =>
    obtain ⟨hmem, hle⟩ := List.max?_eq_some_iff.mp hmax
    obtain ⟨e, he', rfl⟩ := List.mem_map.mp hmem
    obtain ⟨hb, hrise, hrec, hlog, hfl⟩ := ha.observe hnow (he e he') h
    exact ⟨hb, hrise, fun e' he' => (hle _ (List.mem_map_of_mem he')).trans hrec, hlog, hfl⟩

theorem Ahead.applySnapshot (ha : v.Ahead) (c : ChainHash) {now : ℕ} (hnow : now ≤ storeMax)
    {s : StreamId} {entries : List StampedEntry}
    (he : ∀ e ∈ entries, e.hlc.physicalMs ≤ storeMax) {retained : List (ℕ × Delivery)}
    (hret : ∀ dl ∈ retained, dl.1 ≤ storeMax ∧ dl.2.env.hlc.physicalMs ≤ storeMax) :
    (v.applySnapshot c now s entries retained).Ahead ∧
      (v.AdoptsRising s entries → v.Rises (v.applySnapshot c now s entries retained)) := by
  unfold ClockedLog.applySnapshot
  split
  next => exact ⟨ha, fun _ => .refl v⟩
  next hp =>
    rw [not_not] at hp
    cases hcheck : OpLog.checkEntries c s (entries.map (·.entry)) v.log false with
    | none => exact ⟨ha, fun _ => .refl v⟩
    | some checked =>
      obtain ⟨log, adds⟩ := checked
      have hskel := OpLog.skeleton_checkEntries c s hcheck
      obtain ⟨hb, hrise⟩ := ha.of_frame (ha.settled.of_skeleton hskel.symm).1
        (OpLog.frame_of_skeleton hskel)
      cases adds with
      | false => exact ⟨hb, fun _ => hrise⟩
      | true =>
        dsimp only
        cases hobs : ({ v with log } : ClockedLog).observeEntries entries now with
        | none => exact ⟨hb, fun _ => hrise⟩
        | some w =>
          obtain ⟨hw, hrise', hreach, hlog, hfl⟩ := hb.observeEntries hnow he hobs
          obtain ⟨hx, hrise'', hfl'⟩ := hw.receiveRetained c hret
          have hle := le_receiveRetained c w retained
          have hfloor := floor_receiveRetained c w retained s
          dsimp only
          generalize w.receiveRetained c retained = received at hx hrise'' hfl' hle hfloor ⊢
          cases received with
          | mk x all =>
            dsimp only at hx hrise'' hfl' hle hfloor
            have hvx : v.Rises x := hrise.trans (hrise'.trans hrise'')
            cases all with
            | false => exact ⟨hx, fun _ => hvx⟩
            | true =>
              dsimp only
              split
              next =>
                obtain ⟨hy, hrising⟩ := hx.adoptAll c s hp
                  fun e hmem => (hreach e hmem).trans hle
                refine ⟨hy, fun h => hvx.trans (hrising ?_)⟩
                -- the frontier is adopted against the floors the check saw
                intro e hmem hlt y hy
                refine h e hmem ?_ y ?_
                · have hframe := OpLog.floorSeq_of_frame (OpLog.frame_of_skeleton hskel) s
                    e.entry.device
                  have hf := hfloor e.entry.device
                  rw [hlog] at hf
                  unfold DeviceLog.floorSeq at hlt hframe ⊢
                  rw [hf] at hlt
                  exact hframe ▸ hlt
                · rwa [hfl', hfl] at hy
              next => exact ⟨hx, fun _ => hvx⟩

/-! ### The clock an open restores -/

theorem prime_spec (v : ClockedLog) (observed : Hlc) :
    v.prime observed = { v with hlc := max v.hlc observed } := by
  unfold prime
  split
  next h => rw [max_eq_right h.le]
  next h => rw [max_eq_left (not_lt.mp h)]

theorem Ahead.mem_envelopes (ha : v.Ahead) {r : OpRef} {env : Envelope} (hr : r.seq ≤ storeMax)
    (h : v.log.heldAt r = some env) : env ∈ v.envelopes := by
  obtain ⟨row, hrow, rfl⟩ := find_of_heldAt hr h
  refine List.mem_flatMap.mpr ⟨_, ha.mem_of_held r hr (by rw [h]; rfl), ?_⟩
  exact List.mem_map.mpr ⟨(r.seq, row), Table.mem_rows.mpr hrow, rfl⟩

theorem Ahead.le_maxFloorHlc (ha : v.Ahead) {s : StreamId} {dev : Device} {h : Hlc}
    (hf : v.floorHlc s dev = some h) : ∃ top, v.maxFloorHlc = some top ∧ h ≤ top := by
  have hmem : h ∈ v.devices.filterMap fun d => v.floorHlc d.1 d.2 :=
    List.mem_filterMap.mpr ⟨(s, dev), ha.mem_of_floor s dev (by rw [hf]; rfl), hf⟩
  obtain ⟨top, htop⟩ := Option.isSome_iff_exists.mp (List.isSome_max?_of_mem hmem)
  exact ⟨top, htop, (List.max?_eq_some_iff.mp htop).2 h hmem⟩

theorem Ahead.le_maxTsMs (ha : v.Ahead) {r : OpRef} {env : Envelope} (hr : r.seq ≤ storeMax)
    (h : v.log.heldAt r = some env) :
    ∃ ms, v.maxTsMs = some ms ∧ env.hlc ≤ ⟨ms, v.maxLogical ms⟩ := by
  have hmem := ha.mem_envelopes hr h
  have hfits : i64Of env.hlc.physicalMs = env.hlc.physicalMs :=
    i64Of_eq_self.mpr (ha.fits_of_holds (.row r env hr h))
  have hmem' : i64Of env.hlc.physicalMs ∈ v.envelopes.map fun env => i64Of env.hlc.physicalMs :=
    List.mem_map_of_mem hmem
  obtain ⟨ms, hms⟩ := Option.isSome_iff_exists.mp (List.isSome_max?_of_mem hmem')
  have hle := (List.max?_eq_some_iff.mp hms).2 _ hmem'
  refine ⟨ms, hms, Hlc.le_iff.mpr ?_⟩
  rw [hfits] at hle
  rcases hle.lt_or_eq with hlt | heq
  · exact .inl hlt
  -- the op is of the greatest millisecond, so its counter is among those compared
  · refine .inr ⟨heq, ?_⟩
    have hlog : env.hlc.logical ∈
        (v.envelopes.filter fun env => env.hlc.physicalMs = ms).map (·.hlc.logical) :=
      List.mem_map_of_mem (List.mem_filter.mpr ⟨hmem, decide_eq_true heq⟩)
    obtain ⟨top, htop⟩ := Option.isSome_iff_exists.mp (List.isSome_max?_of_mem hlog)
    unfold maxLogical
    rw [htop]
    exact (List.max?_eq_some_iff.mp htop).2 _ hlog

theorem maxTsMs_le {ms : ℕ} (h : v.maxTsMs = some ms) : ms ≤ storeMax := by
  obtain ⟨env, -, rfl⟩ := List.mem_map.mp (List.max?_eq_some_iff.mp h).1
  exact i64Of_le _

theorem Ahead.fits_maxFloorHlc (ha : v.Ahead) {top : Hlc} (h : v.maxFloorHlc = some top) :
    top.physicalMs ≤ storeMax := by
  obtain ⟨d, -, hd⟩ := List.mem_filterMap.mp (List.max?_eq_some_iff.mp h).1
  exact ha.fits_of_holds (.floor d.1 d.2 top hd)

/-- **An open restores a clock above everything the log holds.** -/
theorem Ahead.reopen_spec (ha : v.Ahead) :
    ∃ hlc, v.reopen = { v with hlc } ∧ hlc.physicalMs ≤ storeMax ∧
      ∀ h, v.Holds h → h ≤ hlc := by
  -- the clock after the floors
  obtain ⟨hlc, heq, hfits, hfloors⟩ : ∃ hlc,
      ({ v with hlc := .zero } : ClockedLog).primeFloors = { v with hlc } ∧
      hlc.physicalMs ≤ storeMax ∧ ∀ s dev h, v.floorHlc s dev = some h → h ≤ hlc := by
    unfold primeFloors
    rw [show ({ v with hlc := .zero } : ClockedLog).maxFloorHlc = v.maxFloorHlc from rfl]
    cases hmax : v.maxFloorHlc with
    | none =>
      refine ⟨.zero, rfl, Nat.zero_le _, fun s dev h hf => ?_⟩
      obtain ⟨top, htop, -⟩ := ha.le_maxFloorHlc hf
      rw [hmax] at htop
      simp at htop
    | some floor =>
      refine ⟨max .zero floor, prime_spec _ floor, ?_, fun s dev h hf => ?_⟩
      · rcases max_choice Hlc.zero floor with h | h
        · rw [h]
          exact Nat.zero_le _
        · rw [h]
          exact ha.fits_maxFloorHlc hmax
      · obtain ⟨top, htop, hle⟩ := ha.le_maxFloorHlc hf
        rw [hmax] at htop
        exact hle.trans (Option.some.inj htop ▸ le_max_right _ _)
  unfold ClockedLog.reopen primeHlc
  rw [heq]
  dsimp only
  rw [show ({ v with hlc } : ClockedLog).maxTsMs = v.maxTsMs from rfl]
  cases hms : v.maxTsMs with
  | none =>
    refine ⟨hlc, rfl, hfits, fun h hh => ?_⟩
    cases hh with
    | row r env hr hheld =>
      obtain ⟨ms, hms', -⟩ := ha.le_maxTsMs hr hheld
      rw [hms] at hms'
      simp at hms'
    | floor s dev h hf => exact hfloors s dev h hf
  | some ms =>
    refine ⟨max hlc ⟨ms, v.maxLogical ms⟩, prime_spec _ _, ?_, fun h hh => ?_⟩
    · rcases max_choice hlc ⟨ms, v.maxLogical ms⟩ with h | h
      · rw [h]
        exact hfits
      · rw [h]
        exact maxTsMs_le hms
    · cases hh with
      | row r env hr hheld =>
        obtain ⟨ms', hms', hle⟩ := ha.le_maxTsMs hr hheld
        rw [hms] at hms'
        obtain rfl := Option.some.inj hms'
        exact hle.trans (le_max_right _ _)
      | floor s dev h hf => exact (hfloors s dev h hf).trans (le_max_left _ _)

theorem Ahead.reopen (ha : v.Ahead) : v.reopen.Ahead ∧ v.Rises v.reopen := by
  obtain ⟨hlc, heq, hfits, hle⟩ := ha.reopen_spec
  rw [heq]
  refine ⟨⟨ha.settled, fun h hh => ?_, hfits, ha.mem_of_held, ha.mem_of_floor⟩, fun h hh => ?_⟩
  · exact hle h ((holds_of_frame rfl _ _).mp hh)
  · exact ((holds_of_frame rfl _ _).mpr hh).bounds

/-! ### Runs that keep the clock ahead -/

/-- A write whose readings fit the store, and after which no floor stands for less than
what it covers. -/
def Keeps (v : ClockedLog) : Event → Prop
  | .append now _ => now ≤ storeMax
  | .rollback now => now ≤ storeMax
  | .deliver now dl => now ≤ storeMax ∧ dl.env.hlc.physicalMs ≤ storeMax
  | .fail now received => now ≤ storeMax ∧ received.physicalMs ≤ storeMax
  | .compact view s => v.CompactsRising view s
  | .snapshot now s entries retained =>
    now ≤ storeMax ∧ (∀ e ∈ entries, e.hlc.physicalMs ≤ storeMax) ∧
      (∀ dl ∈ retained, dl.1 ≤ storeMax ∧ dl.2.env.hlc.physicalMs ≤ storeMax) ∧
      v.AdoptsRising s entries
  | .restart => True

/-- A run whose every write keeps the clock ahead. -/
def KeepsAll (c : ChainHash) : ClockedLog → List Event → Prop
  | _, [] => True
  | v, ev :: events => v.Keeps ev ∧ KeepsAll c (v.handle c ev) events

theorem keepsAll_append {es es' : List Event} :
    v.KeepsAll c (es ++ es') ↔ v.KeepsAll c es ∧ (v.run c es).KeepsAll c es' := by
  induction es generalizing v with
  | nil => simp [KeepsAll]
  | cons ev es ih =>
    show _ ∧ KeepsAll c (v.handle c ev) (es ++ es') ↔ (_ ∧ KeepsAll c (v.handle c ev) es) ∧ _
    rw [ih, and_assoc]
    rfl

theorem Ahead.handle (ha : v.Ahead) (c : ChainHash) {ev : Event} (hk : v.Keeps ev) :
    (v.handle c ev).Ahead ∧ v.Rises (v.handle c ev) := by
  cases ev with
  | append now draft => exact ha.append c hk draft
  | rollback now =>
    refine ha.raise (v.hlc.le_send now) ?_
    rw [Hlc.physicalMs_send]
    exact max_le ha.fits hk
  | deliver now dl =>
    obtain ⟨hb, hrise, -⟩ := ha.deliver c hk.1 hk.2
    exact ⟨hb, hrise⟩
  | fail now received =>
    show ((v.observe received now).getD v).Ahead ∧ v.Rises ((v.observe received now).getD v)
    cases hobs : v.observe received now with
    | none => exact ⟨ha, .refl v⟩
    | some w =>
      obtain ⟨hb, hrise, -⟩ := ha.observe hk.1 hk.2 hobs
      exact ⟨hb, hrise⟩
  | compact view s =>
    obtain ⟨hb, hrise⟩ := ha.compactStream c view s
    exact ⟨hb, hrise hk⟩
  | snapshot now s entries retained =>
    obtain ⟨hnow, he, hret, hrising⟩ := hk
    obtain ⟨hb, hrise⟩ := ha.applySnapshot c hnow he hret
    exact ⟨hb, hrise hrising⟩
  | restart => exact ha.reopen

theorem Ahead.run (ha : v.Ahead) (c : ChainHash) {events : List Event}
    (hk : v.KeepsAll c events) : (v.run c events).Ahead ∧ v.Rises (v.run c events) := by
  induction events generalizing v with
  | nil => exact ⟨ha, .refl v⟩
  | cons ev events ih =>
    obtain ⟨hb, hrise⟩ := ha.handle c hk.1
    obtain ⟨hb', hrise'⟩ := ih hb hk.2
    exact ⟨hb', hrise.trans hrise'⟩

end ClockedLog

/-! ### The numbers of a device's ops -/

namespace OpLog

variable {c : ChainHash} {log l : OpLog}

theorem Later.reached (h : Later c log l) (hs : log.Settled) {r : OpRef} (hr : r.seq ≤ storeMax)
    (hheld : r.seq ≤ (log.devs r.stream r.device).floorSeq ∨ (log.heldAt r).isSome) :
    r.seq ≤ (l.devs r.stream r.device).floorSeq ∨ (l.heldAt r).isSome := by
  have hinsert : ∀ {l l' : OpLog} {env : Envelope} {row : LogRow},
      l'.frame = (l.insertRow env row).frame →
      r.seq ≤ (l.devs r.stream r.device).floorSeq ∨ (l.heldAt r).isSome →
      r.seq ≤ (l'.devs r.stream r.device).floorSeq ∨ (l'.heldAt r).isSome := by
    intro l l' env row hframe h
    rw [floorSeq_of_frame hframe, heldAt_of_frame hframe, heldAt_insertRow row hr]
    unfold floorSeq at h ⊢
    rw [floor_insertRow]
    rcases h with h | h
    · exact .inl h
    · refine .inr ?_
      split
      · rfl
      · exact h
  have hsame : ∀ {l l' : OpLog}, l'.frame = l.frame →
      r.seq ≤ (l.devs r.stream r.device).floorSeq ∨ (l.heldAt r).isSome →
      r.seq ≤ (l'.devs r.stream r.device).floorSeq ∨ (l'.heldAt r).isSome := by
    intro l l' hframe h
    rwa [floorSeq_of_frame hframe, heldAt_of_frame hframe]
  induction h with
  | refl => exact hheld
  | @append l _ draft ih =>
    rcases append_cases c l draft with heq | ⟨env, row, -, -, -, hframe, -⟩
    · rwa [heq]
    · exact hinsert hframe ih
  | @deliver l _ dl ih =>
    rcases deliver_cases c l dl with ⟨hcore, -⟩ | ⟨row, -, -, hframe, -⟩
    · exact hsame (frame_of_skeleton (skeleton_of_core hcore)) ih
    · exact hinsert hframe ih
  | @compact l hl view s ih =>
    rcases heldAt_compactStream c view s (hl.settled hs) hr with ⟨heq, hf⟩ |
        ⟨target, env, root, hlt, -, -, hf, heq | ⟨-, hle, -⟩⟩
    · unfold floorSeq at ih ⊢
      rwa [heq, hf]
    · rw [heq]
      rcases ih with ih | ih
      · refine .inl (ih.trans (hlt.le.trans_eq ?_))
        unfold floorSeq
        rw [hf]
        rfl
      · exact .inr ih
    · refine .inl (hle.trans_eq ?_)
      unfold floorSeq
      rw [hf]
      rfl
  | @foldAt l _ s dev n ih => exact hsame (frame_of_skeleton (skeleton_foldAt ..)) ih
  | @adopt l hl s e ih =>
    obtain ⟨heq, hf⟩ := heldAt_adopt c s l e r
    rw [heq]
    rcases ih with ih | ih
    · refine .inl (ih.trans ?_)
      unfold floorSeq
      rw [hf]
      split
      next h =>
        rw [h.1, h.2]
        exact le_floorSeq_raiseFloor (hl.settled hs s e.device).floor_le e.floor
      next => exact le_rfl
    · exact .inr ih

end OpLog

namespace ClockedLog

variable {c : ChainHash} {v w : ClockedLog}

theorem log_observe {received : Hlc} {now : ℕ} (h : v.observe received now = some w) :
    w.log = v.log := by
  obtain ⟨hlc, -, rfl⟩ := observe_eq_some h
  rfl

theorem later_deliver (c : ChainHash) (v : ClockedLog) (now : ℕ) (dl : Delivery) :
    OpLog.Later c v.log (v.deliver c now dl).log := by
  cases hw : v.observe dl.env.hlc now with
  | none =>
    rw [deliver_of_none hw]
    exact .refl
  | some w =>
    rw [deliver_of_some hw, log_observe hw]
    exact OpLog.Later.refl.deliver dl

theorem later_receiveRetained (c : ChainHash) (v : ClockedLog) (retained : List (ℕ × Delivery)) :
    OpLog.Later c v.log (v.receiveRetained c retained).1.log := by
  induction retained generalizing v with
  | nil => exact .refl
  | cons x retained ih =>
    obtain ⟨now, dl⟩ := x
    rw [receiveRetained_cons]
    by_cases hobs : (v.observe dl.env.hlc now).isSome
    · rw [if_pos hobs]
      exact (later_deliver c v now dl).trans (ih _)
    · rw [if_neg hobs]
      exact .refl

theorem log_observeEntries {entries : List StampedEntry} {now : ℕ}
    (h : v.observeEntries entries now = some w) : w.log = v.log := by
  unfold observeEntries at h
  split at h
  · rw [← Option.some.inj h]
  · exact log_observe h

theorem later_applySnapshot (c : ChainHash) (v : ClockedLog) (now : ℕ) (s : StreamId)
    (entries : List StampedEntry) (retained : List (ℕ × Delivery)) :
    OpLog.Later c v.log (v.applySnapshot c now s entries retained).log := by
  unfold applySnapshot
  split
  next => exact .refl
  next =>
    cases hcheck : OpLog.checkEntries c s (entries.map (·.entry)) v.log false with
    | none => exact .refl
    | some checked =>
      obtain ⟨log, adds⟩ := checked
      have h₁ : OpLog.Later c v.log log := OpLog.later_checkEntries hcheck
      cases adds with
      | false => exact h₁
      | true =>
        dsimp only
        cases hobs : ({ v with log } : ClockedLog).observeEntries entries now with
        | none => exact h₁
        | some w =>
          have h₂ := later_receiveRetained c w retained
          rw [log_observeEntries hobs] at h₂
          dsimp only
          generalize w.receiveRetained c retained = received at h₂ ⊢
          obtain ⟨x, all⟩ := received
          cases all with
          | false => exact h₁.trans h₂
          | true =>
            dsimp only at h₂ ⊢
            split
            · exact List.foldlRecOn (motive := fun y : ClockedLog => OpLog.Later c v.log y.log)
                entries _ (h₁.trans h₂) fun y hy e _ => hy.adopt s e.entry
            · exact h₁.trans h₂

/-- **Every write of the clocked log is a sequence of single writes of the log.** -/
theorem later_handle (c : ChainHash) (v : ClockedLog) (ev : Event) :
    OpLog.Later c v.log (v.handle c ev).log := by
  cases ev with
  | append now draft => exact OpLog.Later.refl.append _
  | rollback now => exact .refl
  | deliver now dl => exact later_deliver c v now dl
  | fail now received =>
    show OpLog.Later c v.log ((v.observe received now).getD v).log
    cases hobs : v.observe received now with
    | none => exact .refl
    | some w =>
      rw [Option.getD_some, log_observe hobs]
      exact .refl
  | compact view s => exact OpLog.Later.refl.compact view s
  | snapshot now s entries retained => exact later_applySnapshot c v now s entries retained
  | restart =>
    show OpLog.Later c v.log v.reopen.log
    have hlog : v.reopen.log = v.log := by
      unfold reopen primeHlc primeFloors
      dsimp only
      split <;> split <;> simp only [prime_spec]
    rw [hlog]
    exact .refl

theorem later_run (c : ChainHash) (v : ClockedLog) (events : List Event) :
    OpLog.Later c v.log (v.run c events).log :=
  List.foldlRecOn (motive := fun w : ClockedLog => OpLog.Later c v.log w.log) events _ .refl
    fun w hw ev _ => hw.trans (later_handle c w ev)

theorem seq_lt_sealed (h : OpLog.Later c v.log w.log) (hs : v.log.Settled) {r : OpRef}
    {env : Envelope} (hr : r.seq ≤ storeMax) (hheld : v.log.heldAt r = some env) (now : ℕ)
    {draft : Envelope} (hstream : r.stream = draft.ref.stream)
    (hdevice : r.device = draft.ref.device) : r.seq < (w.sealed now draft).ref.seq := by
  show r.seq < (w.log.devs draft.ref.stream draft.ref.device).nextSeq
  rw [← hstream, ← hdevice]
  rcases h.reached hs hr (.inr (by rw [hheld]; rfl)) with hle | hsome
  · exact hle.trans_lt (floorSeq_lt_nextSeq _)
  · obtain ⟨env', henv'⟩ := Option.isSome_iff_exists.mp hsome
    obtain ⟨row, hrow, -⟩ := find_of_heldAt hr henv'
    exact lt_nextSeq _ (by rw [hrow]; rfl)

/-- **Own stamps dominate what the log held.** In a run of writes after which no floor
stands for less than what it covers, and whose readings fit the store, the op a device
appends is stamped above every op it had recorded at any earlier point, unless the counter
is saturated, and is numbered above its own earlier ops of the stream. It is logged as it
was sealed. A stamp beyond the drift leaves the clock as it was. -/
theorem own_stamps_dominate (c : ChainHash) (before after : List Event) (now : ℕ)
    (draft : Envelope) (hk : (∅ : ClockedLog).KeepsAll c (before ++ after))
    (hl : (((∅ : ClockedLog).run c (before ++ after)).sealed now draft).hlc.logical < u32Max) :
    let v := (∅ : ClockedLog).run c (before ++ after)
    let own := v.sealed now draft
    (∀ r env, r.seq ≤ storeMax → ((∅ : ClockedLog).run c before).log.heldAt r = some env →
      env.hlc < own.hlc ∧
        (r.stream = own.ref.stream → r.device = own.ref.device → r.seq < own.ref.seq)) ∧
    (own.ref.seq ≤ storeMax → (v.append c now draft).log.heldAt own.ref = some own) ∧
    ∀ now' dl, driftLimit now' < dl.env.hlc.physicalMs → v.deliver c now' dl = v := by
  intro v own
  obtain ⟨hb, hrise⟩ := keepsAll_append.mp hk
  obtain ⟨hearly, -⟩ := ahead_empty.run c hb
  obtain ⟨hv, hrise⟩ := hearly.run c hrise
  have hrun : v = ((∅ : ClockedLog).run c before).run c after := run_append ..
  refine ⟨fun r env hr hheld => ⟨?_, fun hs hd => ?_⟩, fun hn => ?_, fun now' dl hfar => ?_⟩
  · have hle := hv.of_bounds (hrise _ (.row r env hr hheld))
    rw [← hrun] at hle
    exact hle.trans_lt (Hlc.lt_send hl)
  · have hlater := later_run c ((∅ : ClockedLog).run c before) after
    rw [← hrun] at hlater
    exact seq_lt_sealed hlater hearly.settled hr hheld now hs hd
  · rcases append_sealed c v now draft with ⟨hbig, -⟩ | ⟨-, row, hrow, hframe⟩
    · exact absurd hn (not_le.mpr hbig)
    · rw [OpLog.heldAt_of_frame hframe, OpLog.heldAt_insertRow row hn, if_pos rfl, hrow]
  · exact deliver_of_none (observe_eq_none.mpr (Hlc.receive_eq_none.mpr hfar))

/-- An op of another device, stamped `hlc`. -/
def peerOp (n : ℕ) (hlc : Hlc) : Envelope :=
  { ref := ⟨7, 1, n⟩, hlc, opHash := n, inner := .streamDigest [] false }

def ownDraft : Envelope := { ref := ⟨7, 2, 0⟩, hlc := .zero, opHash := 9 }

theorem own_stamps_dominate_restarted :
    (∅ : ClockedLog).KeepsAll .sample
        ([.deliver 100 ⟨peerOp 1 ⟨150, 4⟩, true⟩] ++ [.append 90 ownDraft, .restart]) ∧
      ∀ r env, r.seq ≤ storeMax →
        ((∅ : ClockedLog).run .sample
          [.deliver 100 ⟨peerOp 1 ⟨150, 4⟩, true⟩]).log.heldAt r = some env →
        env.hlc < (((∅ : ClockedLog).run .sample
          ([.deliver 100 ⟨peerOp 1 ⟨150, 4⟩, true⟩] ++
            [.append 90 ownDraft, .restart])).sealed 20 ownDraft).hlc := by
  have hk : (∅ : ClockedLog).KeepsAll .sample
      ([.deliver 100 ⟨peerOp 1 ⟨150, 4⟩, true⟩] ++ [.append 90 ownDraft, .restart]) := by
    refine ⟨⟨?_, ?_⟩, ?_, trivial, trivial⟩
    · show 100 ≤ storeMax
      decide
    · show 150 ≤ storeMax
      decide
    · show 90 ≤ storeMax
      decide
  exact ⟨hk, fun r env hr hheld =>
    ((own_stamps_dominate .sample _ _ 20 ownDraft hk (by decide)).1 r env hr hheld).1⟩

/-- The stamps of device 1 fall as its numbers rise, so the floor a compaction raises to
its second op stands below the first, which the compaction deletes. After a restart the
next own op is stamped below it. No counter comes near its end. -/
theorem not_own_stamps_dominate :
    ¬ ∀ (c : ChainHash) (before after : List Event) (now : ℕ) (draft : Envelope),
      (∀ n, ((∅ : ClockedLog).run c ((before ++ after).take n)).hlc.logical < u32Max) →
      (((∅ : ClockedLog).run c (before ++ after)).sealed now draft).hlc.logical < u32Max →
      ∀ r env, r.seq ≤ storeMax → ((∅ : ClockedLog).run c before).log.heldAt r = some env →
        env.hlc < (((∅ : ClockedLog).run c (before ++ after)).sealed now draft).hlc := by
  intro h
  have hlt := h .sample
    [.deliver 100 ⟨peerOp 1 ⟨100, 0⟩, true⟩, .deliver 100 ⟨peerOp 2 ⟨50, 0⟩, true⟩,
      .deliver 100 ⟨peerOp 3 ⟨50, 1⟩, true⟩]
    [.compact ⟨fun _ => none, 200, fun _ => false⟩ 7, .restart] 60 ownDraft
    (fun n => by
      rcases n with _ | _ | _ | _ | _ | n
      iterate 5 decide
      rw [List.take_of_length_le (by simp)]
      decide)
    (by decide) ⟨7, 1, 1⟩ (peerOp 1 ⟨100, 0⟩) (by decide) rfl
  exact absurd hlt (by decide)

end ClockedLog

end Sunrise
