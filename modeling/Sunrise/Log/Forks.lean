import Sunrise.Log.Evidence

/-!
# Fork detection

An op names other positions of its stream: its writer's previous one, by `prevHash`, and
the tips of other devices, by its heads. Whichever of two ops arrives second, the one
that holds a position or the one that names it, the check made then meets the other: a
name that arrives second is compared with what is held, and one that arrives first waits
as an expectation, which the op it waits for is compared with.

Between the two arrivals the log may write anything: more ops, compactions, snapshots.
What carries the comparison across them is that an expectation goes only when its
position is taken or covered (`OpLog.Open`), that an op which named one is never deleted
while it stands (`OpLog.NamersHeld`), and that the hash of an op stays known while its
row or the floor at it does (`OpLog.HeldOnce`). It is lost in one case, by design: a
position strictly below the floor whose row is gone is covered by the floor's root, and
what an op that arrives later says of it is compared with nothing.

A run's snapshots are taken apart here into the writes they make, so a run is any
sequence of single writes (`OpLog.Later`).

* `OpLog.forks_spec` — **evidence is complete, and never wrong**.
-/

namespace Sunrise

open DeviceLog

variable {r : OpRef} {hash : Hash}

namespace OpLog

/-- The logs that single writes lead to. -/
inductive Later (c : ChainHash) (log : OpLog) : OpLog → Prop where
  | refl : Later c log log
  | append {l : OpLog} (h : Later c log l) (draft : Envelope) : Later c log (l.append c draft)
  | deliver {l : OpLog} (h : Later c log l) (dl : Delivery) : Later c log (l.deliver c dl)
  | compact {l : OpLog} (h : Later c log l) (view : CompactionView) (s : StreamId) :
    Later c log (l.compactStream c view s)
  | foldAt {l : OpLog} (h : Later c log l) (s : StreamId) (dev : Device) (n : ℕ) :
    Later c log (l.foldAt c s dev n)
  | adopt {l : OpLog} (h : Later c log l) (s : StreamId) (e : SnapshotEntry) :
    Later c log (adopt c s l e)

variable {c : ChainHash} {log log' l : OpLog}

theorem Later.trans (h : Later c log log') (h' : Later c log' l) : Later c log l := by
  induction h' with
  | refl => exact h
  | append _ draft ih => exact ih.append draft
  | deliver _ dl ih => exact ih.deliver dl
  | compact _ view s ih => exact ih.compact view s
  | foldAt _ s dev n ih => exact ih.foldAt s dev n
  | adopt _ s e ih => exact ih.adopt s e

theorem later_checkEntries {s : StreamId} {entries : List SnapshotEntry} {adds adds' : Bool}
    (h : checkEntries c s entries log adds = some (log', adds')) : Later c log log' := by
  induction entries generalizing log adds with
  | nil =>
    obtain ⟨rfl, -⟩ := Prod.mk.inj (Option.some.inj h)
    exact .refl
  | cons e entries ih =>
    unfold checkEntries at h
    dsimp only at h
    split at h
    · exact ih h
    · have hfold : Later c log (log.foldAt c s e.device e.floor.seq) := Later.refl.foldAt _ _ _
      split at h
      · split at h
        · exact hfold.trans (ih h)
        · simp at h
      · exact hfold.trans (ih h)

/-- **Every event is a sequence of single writes.** -/
theorem later_handle (c : ChainHash) (log : OpLog) (ev : Event) :
    Later c log (log.handle c ev) := by
  cases ev with
  | append draft => exact Later.refl.append draft
  | deliver dl => exact Later.refl.deliver dl
  | compact view s => exact Later.refl.compact view s
  | snapshot s entries retained =>
    show Later c log (log.applySnapshot c s entries retained)
    unfold applySnapshot
    split
    · exact .refl
    · split
      · exact .refl
      next log₁ hcheck => exact later_checkEntries hcheck
      next log₁ hcheck =>
        have h₁ := later_checkEntries hcheck
        have h₂ : Later c log (retained.foldl (OpLog.deliver c) log₁) :=
          List.foldlRecOn (motive := fun l : OpLog => Later c log l) retained _ h₁
            fun l hl dl _ => hl.deliver dl
        dsimp only
        split
        · exact List.foldlRecOn (motive := fun l : OpLog => Later c log l) entries _ h₂
            fun l hl e _ => hl.adopt s e
        · exact h₂

theorem later_run (c : ChainHash) (events : List Event) : Later c ∅ (run c events) :=
  List.foldlRecOn (motive := fun l : OpLog => Later c ∅ l) events _ .refl
    fun l hl ev _ => hl.trans (later_handle c l ev)

/-! ### What every write keeps -/

theorem Later.settled (h : Later c log l) (hs : log.Settled) : l.Settled := by
  induction h with
  | refl => exact hs
  | append _ draft ih => exact (ih.append c draft).1
  | deliver _ dl ih => exact (ih.deliver c dl).1
  | compact _ view s ih => exact (ih.compactStream c view s).1
  | foldAt _ s dev n ih => exact (ih.of_skeleton (skeleton_foldAt ..).symm).1
  | adopt _ s e ih => exact (ih.adopt c s e).1

theorem Later.keepsForks (h : Later c log l) : log.KeepsForks l := by
  induction h with
  | refl => exact .refl log
  | append _ draft ih => exact ih.trans (.of_forks (forks_append ..))
  | deliver _ dl ih => exact ih.trans (keepsForks_deliver ..)
  | compact _ view s ih => exact ih.trans (.of_forks (forks_compactStream ..))
  | foldAt _ s dev n ih => exact ih.trans (.of_forks (forks_foldAt ..))
  | adopt _ s e ih => exact ih.trans (keepsForks_adopt ..)

theorem append_cases (c : ChainHash) (log : OpLog) (draft : Envelope) :
    log.append c draft = log ∨ ∃ (env : Envelope) (row : LogRow), row.env = env ∧
      env.ref = { draft.ref with
        seq := (log.devs draft.ref.stream draft.ref.device).nextSeq } ∧
      env.ref.seq ≤ storeMax ∧ (log.append c draft).frame = (log.insertRow env row).frame ∧
      (log.append c draft).expected = log.expected := by
  unfold append
  dsimp only
  split
  next hn => exact .inr ⟨_, ⟨_, _, _, _, _⟩, rfl, rfl, hn, frame_advance .., rfl⟩
  next => exact .inl rfl

theorem heldAt_compactStream (c : ChainHash) (view : CompactionView) (s : StreamId)
    (hs : log.Settled) (hr : r.seq ≤ storeMax) :
    (log.compactStream c view s).heldAt r = log.heldAt r ∧
        ((log.compactStream c view s).devs r.stream r.device).floor =
          (log.devs r.stream r.device).floor ∨
      ∃ target env root, (log.devs r.stream r.device).floorSeq < target ∧
        log.heldAt ⟨r.stream, r.device, target⟩ = some env ∧ target ≤ storeMax ∧
        ((log.compactStream c view s).devs r.stream r.device).floor =
          some ⟨target, env.opHash, root⟩ ∧
        ((log.compactStream c view s).heldAt r = log.heldAt r ∨
          (log.compactStream c view s).heldAt r = none ∧ r.seq ≤ target ∧
            log.namesExpected r = false) := by
  have hdevs : (log.compactStream c view s).devs r.stream r.device =
      if r.stream = s ∧ (log.devs s r.device).cursor.isSome then
        log.compactDevice c view s r.device
      else log.devs r.stream r.device := rfl
  by_cases h : r.stream = s ∧ (log.devs s r.device).cursor.isSome
  · obtain ⟨rfl, -⟩ := id h
    rw [if_pos h] at hdevs
    rcases compactDevice_cases c view (hs r.stream r.device).toSound with hsame |
        ⟨target, row, root, hfloor, hrow, hf, hfind⟩
    · refine .inl ⟨?_, ?_⟩
      · have hb := congrFun (congrArg Prod.fst hsame) (i64Of r.seq)
        have he := congrArg (Option.map LogRow.env) hb
        simp only [DeviceLog.frame, Option.map_map] at he
        unfold heldAt rowAt
        rw [hdevs]
        exact he
      · rw [hdevs]
        exact congrArg Prod.snd hsame
    · have hmax : target ≤ storeMax :=
        (hs r.stream r.device).bounded target (by rw [hrow]; rfl)
      refine .inr ⟨target, row.env, root, hfloor, ?_, hmax, hdevs ▸ hf, ?_⟩
      · unfold heldAt rowAt
        dsimp only
        rw [i64Of_eq_self.mpr hmax, hrow]
        rfl
      · have hb := congrArg (Option.map LogRow.env) (hfind r.seq)
        rw [Option.map_map] at hb
        unfold heldAt rowAt
        rw [hdevs, i64Of_eq_self.mpr hr]
        cases hheld : (log.devs r.stream r.device).rows.find r.seq with
        | none =>
          rw [hheld] at hb
          exact .inl hb
        | some row' =>
          rw [hheld] at hb
          by_cases hdel : log.deletable view r.stream r.device target r.seq row' = true
          · refine .inr ⟨by simpa [hdel] using hb, ?_, ?_⟩
            · simp only [deletable, Bool.and_eq_true, decide_eq_true_eq] at hdel
              exact hdel.1.1.1.1.1
            · simp only [deletable, Bool.and_eq_true, Bool.not_eq_true'] at hdel
              exact hdel.2
          · refine .inl ?_
            simp only [Option.bind_some, if_neg hdel, Option.map_some] at hb
            exact hb
  · rw [if_neg h] at hdevs
    exact .inl ⟨by unfold heldAt rowAt; rw [hdevs], by rw [hdevs]⟩

theorem heldAt_adopt (c : ChainHash) (s : StreamId) (log : OpLog) (e : SnapshotEntry)
    (r : OpRef) :
    (adopt c s log e).heldAt r = log.heldAt r ∧
      ((adopt c s log e).devs r.stream r.device).floor =
        if r.stream = s ∧ r.device = e.device then
          ((log.devs s e.device).raiseFloor e.floor).floor
        else (log.devs r.stream r.device).floor := by
  have hframe := frame_adopt c s log e
  constructor
  · rw [heldAt_of_frame hframe]
    unfold heldAt rowAt
    rw [devs_modify]
    split
    next h => rw [rows_raiseFloor, h.1, h.2]
    next => rfl
  · rw [floor_of_frame hframe, devs_modify]
    split <;> rfl

/-! ### The namers of expectations are held -/

/-- Whoever named an expectation is held. -/
def NamersHeld (log : OpLog) : Prop :=
  ∀ k n, log.expected.find k = some n → n.seq ≤ storeMax ∧ (log.heldAt n).isSome

theorem namersHeld_empty : (∅ : OpLog).NamersHeld := by
  intro k n h
  simp [EmptyCollection.emptyCollection, OpLog.empty, Table.find, Table.empty] at h

theorem isSome_heldAt_insertRow {env : Envelope} (row : LogRow) (hr : r.seq ≤ storeMax)
    (h : (log.heldAt r).isSome) :
    ((log.insertRow env row).heldAt r).isSome := by
  rw [heldAt_insertRow row hr]
  split
  · rfl
  · exact h

theorem NamersHeld.deliver (h : log.NamersHeld) (c : ChainHash) (dl : Delivery) :
    (log.deliver c dl).NamersHeld := by
  intro k n hk
  rcases log.deliver_cases c dl with ⟨hcore, hexp, -, -⟩ | ⟨row, hmax, -, hframe, hexp, -⟩
  · rw [hexp] at hk
    rw [heldAt_of_frame (frame_of_skeleton (skeleton_of_core hcore))]
    exact h k n hk
  · rw [hexp] at hk
    rw [heldAt_of_frame hframe]
    rcases find_expected_checkLinks hk with hold | rfl
    · obtain ⟨hn, hheld⟩ := h k n hold
      exact ⟨hn, isSome_heldAt_insertRow row hn hheld⟩
    · refine ⟨hmax, ?_⟩
      rw [heldAt_insertRow row hmax, if_pos rfl]
      rfl

theorem Later.namersHeld (h : Later c log l) (hs : log.Settled) (hn : log.NamersHeld) :
    l.NamersHeld := by
  induction h with
  | refl => exact hn
  | append _ draft ih =>
    rename_i l _
    rcases l.append_cases c draft with heq | ⟨env, row, -, -, hmax, hframe, hexp⟩
    · rwa [heq]
    · intro k n hk
      rw [hexp] at hk
      obtain ⟨hle, hheld⟩ := ih k n hk
      rw [heldAt_of_frame hframe]
      exact ⟨hle, isSome_heldAt_insertRow row hle hheld⟩
  | deliver _ dl ih => exact ih.deliver c dl
  | compact hl view s ih =>
    rename_i l
    intro k n hk
    obtain ⟨hle, hheld⟩ := ih k n hk
    refine ⟨hle, ?_⟩
    rcases heldAt_compactStream c view s (hl.settled hs) hle with ⟨heq, -⟩ |
        ⟨_, _, _, _, _, _, _, heq | ⟨-, -, hnot⟩⟩
    · rwa [heq]
    · rwa [heq]
    · -- the delete spares what an expectation was named by
      have hnames : l.namesExpected n = true := by
        unfold namesExpected
        rw [List.any_eq_true]
        exact ⟨(k, n), Table.mem_rows.mpr hk, by simp⟩
      rw [hnames] at hnot
      simp at hnot
  | foldAt _ s dev n ih =>
    intro k m hk
    rw [expected_foldAt] at hk
    rw [heldAt_of_frame (frame_of_skeleton (skeleton_foldAt ..))]
    exact ih k m hk
  | adopt _ s e ih =>
    rename_i l _
    intro k n hk
    rw [(heldAt_adopt c s l e n).1]
    rcases find_expected_adopt c s l e k with heq | ⟨heq, -⟩
    · exact ih k n (heq ▸ hk)
    · rw [heq] at hk
      simp at hk

/-! ### A name that waits -/

/-- The name `h` of a position waits for the op there, unless the position is taken or
covered. -/
def Open (log : OpLog) (r : OpRef) (h : Hash) : Prop :=
  (log.expected.find (toLex (storedRef r, h))).isSome ∨
    r.seq ≤ (log.devs r.stream r.device).floorSeq ∨ (log.heldAt r).isSome

theorem storedRef_eq_self (hr : r.seq ≤ storeMax) : storedRef r = r := by
  unfold storedRef
  rw [i64Of_eq_self.mpr hr]

theorem open_of_names {env : Envelope} {row : LogRow} {h : Hash}
    (hr : r.seq ≤ storeMax) (hn : env.Names r h)
    (hframe : log'.frame = (log.insertRow env row).frame)
    (hexp : log'.expected = ((log.insertRow env row).checkLinks env).expected) :
    log'.Open r h := by
  obtain ⟨n, hmem, rfl, rfl⟩ := hn
  have hfloor := floorSeq_of_frame hframe n.ref.stream n.ref.device
  have hheld := heldAt_of_frame hframe n.ref
  unfold Open
  rw [hfloor, hheld, hexp]
  by_cases hsome : ((log.insertRow env row).heldAt n.ref).isSome = true
  · exact .inr (.inr hsome)
  by_cases hcov : n.ref.seq ≤
      ((log.insertRow env row).devs n.ref.stream n.ref.device).floorSeq
  · exact .inr (.inl hcov)
  refine .inl ?_
  -- neither held nor covered: the name is recorded where it is checked
  have hnone : ((log.insertRow env row).devs n.ref.stream n.ref.device).heldOpHash n.ref.seq =
      none := by
    rw [heldOpHash_eq, Option.not_isSome_iff_eq_none.mp hsome]
    dsimp only
    rw [Option.map_eq_none_iff, Option.filter_eq_none_iff]
    intro f hf hseq
    refine hcov ?_
    unfold floorSeq
    rw [hf]
    exact (of_decide_eq_true hseq).ge
  obtain ⟨before, after, hsplit⟩ := List.append_of_mem hmem
  rw [checkLinks_eq, hsplit, List.foldl_append, List.foldl_cons]
  generalize hl : before.foldl (fun l n => l.checkNamed n.ref n.kind n.hash env)
    ((log.insertRow env row).takeExpected env) = l
  have hcore : l.core = (log.insertRow env row).core := by
    rw [← hl, core_foldl fun l n => core_checkNamed ..]
    exact core_settleExpected ..
  refine isSome_expected_foldl env after _ (isSome_expected_checkNamed ?_ ?_)
  · rw [heldOpHash_of_core hcore, hnone]
  · intro hlt
    rw [floorSeq_of_frame (frame_of_skeleton (skeleton_of_core hcore))] at hlt
    exact hcov hlt.le

theorem Open.deliver {r : OpRef} {h : Hash} (ho : log.Open r h) (hr : r.seq ≤ storeMax)
    (c : ChainHash) (dl : Delivery) : (log.deliver c dl).Open r h := by
  rcases log.deliver_cases c dl with ⟨hcore, hexp, -, -⟩ | ⟨row, hmax, -, hframe, hexp, -⟩
  · have hframe := frame_of_skeleton (skeleton_of_core hcore)
    unfold Open
    rwa [hexp, floorSeq_of_frame hframe, heldAt_of_frame hframe]
  · unfold Open
    rw [hexp, floorSeq_of_frame hframe, heldAt_of_frame hframe, floorSeq,
      floor_insertRow]
    rcases ho with hexp' | hfloor | hheld
    · by_cases heq : r = dl.env.ref
      · refine .inr (.inr ?_)
        rw [heldAt_insertRow row hr, if_pos heq]
        rfl
      · refine .inl (isSome_expected_checkLinks hexp' ?_)
        rw [storedRef_eq_self hr, storedRef_eq_self hmax]
        exact heq
    · exact .inr (.inl hfloor)
    · exact .inr (.inr (isSome_heldAt_insertRow row hr hheld))

theorem Later.openAt {h : Hash} (hl : Later c log l) (hs : log.Settled)
    (hr : r.seq ≤ storeMax) (ho : log.Open r h) : l.Open r h := by
  induction hl with
  | refl => exact ho
  | append _ draft ih =>
    rename_i l _
    rcases l.append_cases c draft with heq | ⟨env, row, -, -, hmax, hframe, hexp⟩
    · rwa [heq]
    · unfold Open
      rw [hexp, floorSeq_of_frame hframe, heldAt_of_frame hframe, DeviceLog.floorSeq,
        floor_insertRow]
      exact ih.imp_right (Or.imp_right (isSome_heldAt_insertRow row hr))
  | deliver _ dl ih => exact ih.deliver hr c dl
  | compact hl view s ih =>
    rename_i l
    unfold Open
    rcases heldAt_compactStream c view s (hl.settled hs) hr with ⟨heq, hfloor⟩ |
        ⟨target, env, root, hlt, -, -, hfloor, hheld⟩
    · rw [heq, DeviceLog.floorSeq, hfloor]
      exact ih
    · rw [DeviceLog.floorSeq, hfloor]
      rcases ih with hexp | hcov | hsome
      · exact .inl hexp
      · exact .inr (.inl (hcov.trans hlt.le))
      · rcases hheld with heq | ⟨-, hle, -⟩
        · rw [heq]
          exact .inr (.inr hsome)
        · exact .inr (.inl hle)
  | foldAt _ s dev n ih =>
    rename_i l _
    have hframe := frame_of_skeleton (skeleton_foldAt c l s dev n)
    unfold Open
    rw [expected_foldAt, floorSeq_of_frame hframe, heldAt_of_frame hframe]
    exact ih
  | adopt hl s e ih =>
    rename_i l
    obtain ⟨hheld, hfloor⟩ := heldAt_adopt c s l e r
    have hsound := (hl.settled hs) s e.device
    have hmono : (l.devs r.stream r.device).floorSeq ≤
        ((OpLog.adopt c s l e).devs r.stream r.device).floorSeq := by
      simp only [DeviceLog.floorSeq, hfloor]
      split
      next heq =>
        rw [heq.1, heq.2]
        exact DeviceLog.le_floorSeq_raiseFloor hsound.floor_le e.floor
      next => exact le_rfl
    unfold Open
    rw [hheld]
    rcases ih with hexp | hcov | hsome
    · rcases find_expected_adopt c s l e (toLex (storedRef r, h)) with heq |
          ⟨-, hstream, hdevice, hle, hlt⟩
      · exact .inl (heq ▸ hexp)
      · refine .inr (.inl ?_)
        rw [storedRef_eq_self hr] at hstream hdevice hle
        rw [DeviceLog.floorSeq, hfloor, if_pos ⟨hstream, hdevice⟩]
        show r.seq ≤ ((l.devs s e.device).raiseFloor e.floor).floorSeq
        rw [DeviceLog.floorSeq_raiseFloor, if_neg (Nat.not_le.mpr hlt)]
        exact hle
    · exact .inr (.inl (hcov.trans hmono))
    · exact .inr (.inr hsome)

/-! ### A hash that stays known -/

/-- The op of hash `hash` has been at `r`: it is held there, or its position is covered,
and at the floor itself the floor's hash is its. -/
def HeldOnce (log : OpLog) (r : OpRef) (hash : Hash) : Prop :=
  (∃ env, log.heldAt r = some env ∧ env.opHash = hash) ∨
    log.heldAt r = none ∧ ∃ f, (log.devs r.stream r.device).floor = some f ∧ r.seq ≤ f.seq ∧
      (r.seq = f.seq → f.opHash = hash)

theorem HeldOnce.of_frame (h : log.HeldOnce r hash)
    (hframe : log'.frame = log.frame) : log'.HeldOnce r hash := by
  unfold HeldOnce
  rwa [heldAt_of_frame hframe, floor_of_frame hframe]

theorem HeldOnce.insertRow (h : log.HeldOnce r hash)
    (hr : r.seq ≤ storeMax) {env : Envelope} {row : LogRow}
    (hne : r ≠ env.ref ∨ log.heldAt r = some row.env) :
    (log.insertRow env row).HeldOnce r hash := by
  unfold HeldOnce
  rw [heldAt_insertRow row hr, floor_insertRow]
  split
  next heq =>
    rcases h with ⟨env', hheld, rfl⟩ | ⟨hheld, -⟩
    · refine .inl ⟨row.env, rfl, ?_⟩
      rw [hne.resolve_left (not_not.mpr heq), Option.some.injEq] at hheld
      rw [hheld]
    · rw [hne.resolve_left (not_not.mpr heq)] at hheld
      simp at hheld
  next => exact h

theorem HeldOnce.not_accepts {env : Envelope} (h : log.HeldOnce env.ref hash) :
    ¬ log.Accepts env := by
  rintro ⟨hcov, -, hrow⟩
  rcases h with ⟨env', hheld, -⟩ | ⟨-, f, hf, hle, -⟩
  · rw [heldAt, hrow] at hheld
    simp at hheld
  · unfold isCovered at hcov
    rw [hf] at hcov
    simp [hrow, hle] at hcov

theorem HeldOnce.deliver {r : OpRef} {hash : Hash} (h : log.HeldOnce r hash)
    (hr : r.seq ≤ storeMax) (c : ChainHash) (dl : Delivery) :
    (log.deliver c dl).HeldOnce r hash := by
  rcases log.deliver_cases c dl with ⟨hcore, -⟩ | ⟨row, hmax, hrow, hframe, -⟩
  · exact h.of_frame (frame_of_skeleton (skeleton_of_core hcore))
  · refine (h.insertRow hr ?_).of_frame hframe
    by_cases heq : r = dl.env.ref
    · subst heq
      exact .inr (hrow.resolve_left fun ha => h.not_accepts ha.1)
    · exact .inl heq

theorem Later.heldOnce (hl : Later c log l) (hs : log.Settled)
    (hr : r.seq < storeMax) (h : log.HeldOnce r hash) : l.HeldOnce r hash := by
  induction hl with
  | refl => exact h
  | append _ draft ih =>
    rename_i l _
    rcases l.append_cases c draft with heq | ⟨env, row, -, href, hmax, hframe, -⟩
    · rwa [heq]
    · refine (ih.insertRow hr.le (.inl ?_)).of_frame hframe
      -- the next number is above every row and the floor
      rintro rfl
      have hs : env.ref.stream = draft.ref.stream ∧ env.ref.device = draft.ref.device := by
        rw [href]
        exact ⟨rfl, rfl⟩
      have hseq : env.ref.seq = (l.devs env.ref.stream env.ref.device).nextSeq := by
        rw [hs.1, hs.2, href]
      rcases ih with ⟨env', hheld, -⟩ | ⟨-, f, hf, hle, -⟩
      · have hrow : ((l.devs env.ref.stream env.ref.device).rows.find env.ref.seq).isSome := by
          unfold heldAt rowAt at hheld
          rw [i64Of_eq_self.mpr hmax] at hheld
          obtain ⟨row', hrow', -⟩ := Option.map_eq_some_iff.mp hheld
          rw [hrow']
          rfl
        exact absurd (lt_nextSeq _ hrow) (by omega)
      · have hfl := floorSeq_lt_nextSeq (l.devs env.ref.stream env.ref.device)
        rw [floorSeq, hf, Option.map_some, Option.getD_some] at hfl
        omega
  | deliver _ dl ih => exact ih.deliver hr.le c dl
  | compact hl view s ih =>
    rename_i l
    rcases heldAt_compactStream c view s (hl.settled hs) hr.le with ⟨heq, hfloor⟩ |
        ⟨target, env, root, hlt, htarget, -, hfloor, hheld⟩
    · unfold HeldOnce
      rwa [heq, hfloor]
    · rcases ih with ⟨env', henv, rfl⟩ | ⟨hnone, f, hf, hle, -⟩
      · rcases hheld with heq | ⟨heq, hle, -⟩
        · exact .inl ⟨env', heq ▸ henv, rfl⟩
        · refine .inr ⟨heq, _, hfloor, hle, fun hseq => ?_⟩
          dsimp only at hseq
          subst hseq
          rw [henv, Option.some.injEq] at htarget
          rw [htarget]
      · rw [floorSeq, hf, Option.map_some, Option.getD_some] at hlt
        refine .inr ⟨?_, _, hfloor, by dsimp only; omega, fun hseq => ?_⟩
        · rcases hheld with heq | ⟨heq, -⟩
          · rw [heq, hnone]
          · exact heq
        · dsimp only at hseq
          omega
  | foldAt _ s dev n ih => exact ih.of_frame (frame_of_skeleton (skeleton_foldAt ..))
  | adopt hl s e ih =>
    rename_i l
    obtain ⟨hheld, hfloor⟩ := heldAt_adopt c s l e r
    unfold HeldOnce
    rw [hheld, hfloor]
    refine ih.imp_right ?_
    rintro ⟨hnone, f, hf, hle, hhash⟩
    refine ⟨hnone, ?_⟩
    split
    next heq =>
      rw [heq.1, heq.2] at hf
      unfold raiseFloor
      split
      · exact ⟨f, hf, hle, hhash⟩
      next hlt =>
        rw [floorSeq, hf, Option.map_some, Option.getD_some] at hlt
        refine ⟨_, rfl, ?_, fun hseq => ?_⟩
        · exact le_min (by omega) hr.le
        · have : r.seq = min e.floor.seq storeMax := hseq
          omega
    next => exact ⟨f, hf, hle, hhash⟩

/-! ### Evidence is complete -/

theorem seq_pos_of_names {env : Envelope} {h : Hash} (hn : env.Names r h) :
    1 ≤ r.seq := by
  obtain ⟨n, hmem, rfl, -⟩ := hn
  rcases List.mem_append.mp hmem with hp | hh
  · unfold Envelope.namedPrev at hp
    split at hp
    · split at hp
      next hseq =>
        rw [List.mem_singleton.mp hp]
        dsimp only
        omega
      next => simp at hp
    · simp at hp
  · obtain ⟨head, -, hhead⟩ := List.mem_filterMap.mp hh
    split at hhead
    · simp at hhead
    next hne =>
      rw [← Option.some.inj hhead]
      exact Nat.pos_of_ne_zero fun h0 => hne (.inr h0)

theorem heldAt_deliver {dl : Delivery} (ha : log.Accepts dl.env) :
    (log.deliver c dl).heldAt dl.env.ref = some dl.env := by
  rcases log.deliver_cases c dl with ⟨-, -, -, hnot⟩ | ⟨row, hmax, hrow, hframe, -⟩
  · exact absurd ha hnot
  · rw [heldAt_of_frame hframe, heldAt_insertRow row hmax, if_pos rfl]
    rcases hrow with ⟨-, henv⟩ | hheld
    · rw [henv]
    · rw [heldAt, ha.2.2] at hheld
      simp at hheld

/-- An op accepted after the one whose position it misnames leaves evidence, as long as
that position is not strictly below the floor with its row gone. -/
theorem hasFork_of_position_first {p y : Delivery} {between after : OpLog} {h : Hash}
    (hs : log.Settled) (hp : log.Accepts p.env) (hseq : p.env.ref.seq < storeMax)
    (hb : Later c (log.deliver c p) between) (hy : between.Accepts y.env)
    (hn : y.env.Names p.env.ref h) (hne : h ≠ p.env.opHash)
    (hknown : (between.heldAt p.env.ref).isSome ∨
      (between.devs p.env.ref.stream p.env.ref.device).floorSeq ≤ p.env.ref.seq)
    (hafter : Later c (between.deliver c y) after) : after.HasFork p.env.ref h := by
  have hheld : between.HeldOnce p.env.ref p.env.opHash :=
    hb.heldOnce (hs.deliver c p).1 hseq (.inl ⟨p.env, heldAt_deliver hp, rfl⟩)
  rcases between.deliver_cases c y with ⟨-, -, -, hnot⟩ | ⟨row, hmax, -, -, -, hkeep⟩
  · exact absurd hy hnot
  refine HasFork.mono ?_ (hkeep.trans hafter.keepsForks)
  -- the hash held where the name is checked is the position's op's
  have hpy : p.env.ref ≠ y.env.ref := by
    obtain ⟨n, hmem, href, -⟩ := hn
    exact href ▸ Envelope.ref_ne_of_mem_named hmem
  refine hasFork_of_names hn ?_ hne.symm
  rw [heldOpHash_eq, heldAt_insertRow row hseq.le, if_neg hpy, floor_insertRow]
  rcases hheld with ⟨env, henv, hhash⟩ | ⟨hnone, f, hf, hle, hhash⟩
  · rw [henv]
    dsimp only
    rw [hhash]
  · have heq : f.seq = p.env.ref.seq := by
      rcases hknown with hsome | hle'
      · rw [hnone] at hsome
        simp at hsome
      · rw [floorSeq, hf, Option.map_some, Option.getD_some] at hle'
        omega
    rw [hnone, hf]
    simp [heq, hhash heq.symm]

theorem hasFork_of_namer_first {p y : Delivery} {between after : OpLog} {h : Hash}
    (hs : log.Settled) (hnamers : log.NamersHeld) (hy : log.Accepts y.env)
    (hn : y.env.Names p.env.ref h) (hb : Later c (log.deliver c y) between)
    (hp : between.Accepts p.env) (hne : h ≠ p.env.opHash)
    (hafter : Later c (between.deliver c p) after) : after.HasFork p.env.ref h := by
  have hmaxp := hp.2.1
  have hopen : (log.deliver c y).Open p.env.ref h := by
    rcases log.deliver_cases c y with ⟨-, -, -, hnot⟩ | ⟨row, hmax, -, hframe, hexp, -⟩
    · exact absurd hy hnot
    · exact open_of_names hmaxp hn hframe hexp
  have hopen' := hb.openAt (hs.deliver c y).1 hmaxp hopen
  have hnamers' := hb.namersHeld (hs.deliver c y).1 (hnamers.deliver c y)
  have hexp : (between.expected.find (toLex (storedRef p.env.ref, h))).isSome := by
    rcases hopen' with hexp | hcov | hheld
    · exact hexp
    · -- an accepted op is not covered
      exfalso
      have hpos := seq_pos_of_names hn
      have hacc := hp.1
      unfold isCovered at hacc
      cases hf : (between.devs p.env.ref.stream p.env.ref.device).floor with
      | none => simp [floorSeq, hf] at hcov; omega
      | some f =>
        rw [floorSeq, hf, Option.map_some, Option.getD_some] at hcov
        simp [hf, hcov, hp.2.2] at hacc
    · rw [heldAt, hp.2.2] at hheld
      simp at hheld
  obtain ⟨n, hexp⟩ := Option.isSome_iff_exists.mp hexp
  obtain ⟨hnmax, hnheld⟩ := hnamers' _ _ hexp
  rcases between.deliver_cases c p with ⟨-, -, -, hnot⟩ | ⟨row, hmax, -, -, -, hkeep⟩
  · exact absurd hp hnot
  refine HasFork.mono ?_ (hkeep.trans hafter.keepsForks)
  refine hasFork_of_expected (n := n) hexp ?_ hne
  rw [isSome_rowAt]
  exact isSome_heldAt_insertRow row hnmax hnheld

/-! ### Evidence is never wrong -/

end OpLog

/-- An op of the history that names only ops of it. -/
def Envelope.Honest (hist : StreamId → Device → ℕ → Hash) (env : Envelope) : Prop :=
  env.Of hist ∧
    ∀ r h, env.Names r h → r.seq ≤ storeMax ∧ h = hist r.stream r.device r.seq

namespace OpLog

def Event.envelopes : Event → List Envelope
  | .append _ | .compact .. => []
  | .deliver dl => [dl.env]
  | .snapshot _ _ retained => retained.map (·.env)

/-- No evidence, and every expectation the history's. -/
structure Clean (hist : StreamId → Device → ℕ → Hash) (log : OpLog) : Prop where
  forks : log.forks = fun _ _ => ∅
  expected : ∀ k n, log.expected.find k = some n →
    (ofLex k).2 = hist (ofLex k).1.stream (ofLex k).1.device (ofLex k).1.seq

variable {c : ChainHash} {log log' l : OpLog} {hist : StreamId → Device → ℕ → Hash}

theorem clean_empty : (∅ : OpLog).Clean hist where
  forks := rfl
  expected k n h := by
    simp [EmptyCollection.emptyCollection, OpLog.empty, Table.find, Table.empty] at h

section

variable (h : log.Clean hist)
include h

theorem Clean.of_eq (hf : log'.forks = log.forks)
    (he : log'.expected = log.expected) : log'.Clean hist :=
  ⟨hf.trans h.forks, he ▸ h.expected⟩

theorem Clean.settleExpected (hr : r.seq ≤ storeMax)
    (hhash : hash = hist r.stream r.device r.seq) :
    log.settleExpected r hash = log := by
  have hall : ∀ e ∈ log.expectedAt r, e.1 = hash := by
    intro e he
    obtain ⟨row, hrow, rfl⟩ := List.mem_map.mp he
    obtain ⟨hmem, hkey⟩ := List.mem_filter.mp hrow
    have hk : (ofLex row.1).1 = r := by
      rw [of_decide_eq_true hkey, storedRef_eq_self hr]
    have := h.expected row.1 row.2 (Table.mem_rows.mp hmem)
    rw [hk] at this
    rw [hhash]
    exact this
  unfold OpLog.settleExpected
  generalize log.expectedAt r = es at hall
  clear h
  induction es with
  | nil => rfl
  | cons e es ih =>
    rw [List.foldl_cons, judgeExpected, if_pos (hall e List.mem_cons_self)]
    exact ih fun e' he' => hall e' (List.mem_cons_of_mem _ he')

theorem Clean.checkNamed (hl : log.Rooted c hist)
    {kind : ForkKind} {env : Envelope} (hr : r.seq ≤ storeMax)
    (hhash : hash = hist r.stream r.device r.seq) :
    (log.checkNamed r kind hash env).Clean hist := by
  unfold OpLog.checkNamed
  dsimp only
  split
  next held hheld =>
    rw [if_pos ((hl _ _).heldOpHash hr hheld |>.trans hhash.symm)]
    exact h
  next =>
    split
    · exact h
    · refine ⟨h.forks, fun k n hk => ?_⟩
      rcases find_expect_eq_some hk with hold | ⟨rfl, -⟩
      · exact h.expected k n hold
      · rw [storedRef_eq_self hr]
        exact hhash

theorem Clean.checkLinks (hl : log.Rooted c hist) {env : Envelope}
    (hmax : env.ref.seq ≤ storeMax) (henv : env.Honest hist) :
    (log.checkLinks env).Clean hist := by
  rw [checkLinks_eq]
  have htake : (log.takeExpected env).Clean hist ∧ (log.takeExpected env).core = log.core := by
    unfold takeExpected
    rw [h.settleExpected hmax henv.1]
    exact ⟨⟨h.forks, fun k n hk => h.expected k n (Table.find_filter_eq_some.mp hk).1⟩, rfl⟩
  refine (List.foldlRecOn (motive := fun l : OpLog => l.Clean hist ∧ l.core = log.core) env.named
    _ htake fun l hl' n hmem => ?_).1
  obtain ⟨hmaxn, hn⟩ := henv.2 n.ref n.hash ⟨n, hmem, rfl, rfl⟩
  exact ⟨hl'.1.checkNamed (hl.of_core hl'.2.symm) hmaxn hn, (core_checkNamed ..).trans hl'.2⟩

theorem Clean.absorb (hl : log.Rooted c hist) {env : Envelope}
    (hmax : env.ref.seq ≤ storeMax) (henv : env.Honest hist) : (log.absorb c env).Clean hist := by
  have hlinks := h.checkLinks hl hmax henv
  unfold OpLog.absorb
  dsimp only
  split
  · exact (hlinks.of_eq (forks_reconcile ..) (expected_reconcile ..)).of_eq (forks_advance ..) rfl
  · exact hlinks.of_eq (forks_advance ..) rfl

theorem Clean.duplicate (hl : log.Rooted c hist) {env : Envelope}
    (henv : env.Of hist) :
    (log.checkCovered env).Clean hist ∧
      (env.ref.seq ≤ storeMax → (log.checkDuplicate env).Clean hist) := by
  constructor
  · unfold OpLog.checkCovered
    split
    next f hf =>
      rw [if_neg]
      · exact h
      · rintro ⟨hseq, hne⟩
        refine hne ?_
        rw [((hl _ _).floor f hf).1, ← hseq]
        exact henv
    next => exact h
  · intro hmax
    unfold OpLog.checkDuplicate
    split
    next held hheld =>
      rw [if_pos ((hl _ _).heldOpHash hmax hheld |>.trans henv.symm)]
      exact h
    next => exact h

theorem Clean.deliver (hl : log.Rooted c hist) {dl : Delivery}
    (henv : dl.env.Honest hist) : (log.deliver c dl).Clean hist := by
  have hins : ∀ row, (log.insertRow dl.env row).Clean hist := fun row =>
    h.of_eq (forks_insertRow ..) rfl
  have hnew (row : LogRow) (hrow : row.env = dl.env) (hnone : row.chainRoot = none) :
      (log.insertRow dl.env row).Rooted c hist :=
    hl.insertRow (hrow ▸ henv.1) (by simp [hnone])
  have hd := log.delivers c dl
  generalize log.deliver c dl = log' at hd
  cases hd with
  | covered => exact (h.duplicate hl henv.1).1
  | misplaced => exact h
  | duplicate hmax => exact (h.duplicate hl henv.1).2 hmax
  | read ha => exact (hins _).absorb (hnew _ rfl rfl) ha.2.1 henv
  | released hmax hrow => exact (hins _).absorb (hl.release hmax hrow _) hmax henv
  | parked ha =>
    exact ((hins _).checkLinks (hnew _ rfl rfl) ha.2.1 henv).of_eq (forks_advance ..) rfl

theorem Clean.adopt {s : StreamId} {e : SnapshotEntry}
    (he : e.floor.Of c (c.init s e.device) (hist s e.device)) :
    (OpLog.adopt c s log e).Clean hist := by
  have hraise : (log.modify s e.device (·.raiseFloor e.floor)).Clean hist :=
    h.of_eq (forks_modify _ _ _ fun d => DeviceLog.forks_raiseFloor ..) rfl
  have hup : ∀ {l : OpLog}, l.Clean hist → (l.modify s e.device
      (·.upsertSyncCursor c (c.init s e.device))).Clean hist := fun hl =>
    hl.of_eq (forks_modify _ _ _ fun d => DeviceLog.forks_upsertSyncCursor ..) rfl
  unfold OpLog.adopt
  dsimp only
  split
  · exact hup hraise
  · refine hup ?_
    unfold settleBelowFloor
    dsimp only
    rw [hraise.settleExpected (r := ⟨s, e.device, e.floor.seq⟩) he.1 he.2.1]
    refine ⟨?_, fun k n hk => hraise.expected k n (Table.find_filter_eq_some.mp hk).1⟩
    refine (forks_modify _ s e.device fun d => ?_).trans hraise.forks
    rw [DeviceLog.forks_foldl fun d r => DeviceLog.forks_judge ..]

end

theorem Clean.checkEntries {s : StreamId} {entries : List SnapshotEntry} {adds adds' : Bool}
    (h : log.Clean hist)
    (hcheck : OpLog.checkEntries c s entries log adds = some (log', adds')) :
    log'.Clean hist := by
  induction entries generalizing log adds with
  | nil =>
    obtain ⟨rfl, -⟩ := Prod.mk.inj (Option.some.inj hcheck)
    exact h
  | cons e entries ih =>
    unfold OpLog.checkEntries at hcheck
    dsimp only at hcheck
    split at hcheck
    · exact ih h hcheck
    · have hfold : (log.foldAt c s e.device e.floor.seq).Clean hist :=
        h.of_eq (forks_foldAt ..) (expected_foldAt ..)
      split at hcheck
      · split at hcheck
        · exact ih hfold hcheck
        · simp at hcheck
      · exact ih hfold hcheck

theorem Clean.handle (h : log.Clean hist) (hl : log.Rooted c hist) (hs : log.Settled)
    {ev : Event} (hev : FollowsEvent c hist log ev)
    (henv : ∀ env ∈ ev.envelopes, env.Honest hist) : (log.handle c ev).Clean hist := by
  cases ev with
  | append draft =>
    refine h.of_eq (forks_append ..) ?_
    show (log.append c draft).expected = _
    rcases log.append_cases c draft with heq | ⟨_, _, -, -, -, -, hexp⟩
    · rw [heq]
    · exact hexp
  | deliver dl => exact h.deliver hl (henv dl.env List.mem_cons_self)
  | compact view s => exact h.of_eq (forks_compactStream ..) rfl
  | snapshot s entries retained =>
    show (log.applySnapshot c s entries retained).Clean hist
    unfold OpLog.applySnapshot
    split
    · exact h
    · split
      · exact h
      next log₁ hcheck => exact h.checkEntries hcheck
      next log₁ hcheck =>
        have hretained : ∀ (dls : List Delivery) (l : OpLog), l.Clean hist → l.Rooted c hist →
            l.Settled → FollowsDeliveries c hist l dls → (∀ dl ∈ dls, dl.env.Honest hist) →
            (dls.foldl (OpLog.deliver c) l).Clean hist := by
          intro dls
          induction dls with
          | nil => exact fun l hl _ _ _ _ => hl
          | cons dl dls ih =>
            intro l hc hr hs hf ho
            exact ih _ (hc.deliver hr (ho dl List.mem_cons_self)) (hr.deliver hs.sound hf.1)
              (hs.deliver c dl).1 hf.2 fun d hd => ho d (List.mem_cons_of_mem _ hd)
        have h₂ := hretained retained log₁ (h.checkEntries hcheck)
          (hl.checkEntries hs.sound hcheck)
          (hs.of_skeleton (skeleton_checkEntries c s hcheck).symm).1 (hev.2 log₁ true hcheck)
          fun dl hdl => henv dl.env (List.mem_map_of_mem hdl)
        dsimp only
        split
        · exact List.foldlRecOn (motive := fun l : OpLog => l.Clean hist) entries _ h₂
            fun l hl' e he => hl'.adopt (hev.1 e he)
        · exact h₂

theorem clean_run {events : List Event} (hrun : Follows c hist ∅ events)
    (henv : ∀ ev ∈ events, ∀ env ∈ ev.envelopes, env.Honest hist) :
    (run c events).Clean hist := by
  have hall : ∀ (evs : List Event) (l : OpLog), l.Clean hist → l.Rooted c hist → l.Settled →
      Follows c hist l evs → (∀ ev ∈ evs, ∀ env ∈ ev.envelopes, env.Honest hist) →
      (evs.foldl (OpLog.handle c) l).Clean hist := by
    intro evs
    induction evs with
    | nil => exact fun l hl _ _ _ _ => hl
    | cons ev evs ih =>
      intro l hc hr hs hf ho
      exact ih _ (hc.handle hr hs hf.1 (ho ev List.mem_cons_self)) (hr.handle hs hf.1)
        (hs.handle c ev).1 hf.2 fun e he => ho e (List.mem_cons_of_mem _ he)
  exact hall events ∅ clean_empty (fun _ _ => rooted_empty)
    (fun _ _ => settled_empty) hrun henv

/-- **Fork detection is complete, and never wrong.** Take two accepted deliveries, one at
a position and one that names another hash there. Whichever is accepted first and
whatever the log writes in between, evidence of the position is there once both have
been, unless when the second names it the position lies strictly below its device's
floor and its row is gone. And in a run over ops of one history that name only ops of
it, there is no evidence. -/
theorem forks_spec (c : ChainHash) :
    (∀ (before between after : OpLog) (p y : Delivery) (h : Hash), Later c ∅ before →
      y.env.Names p.env.ref h → h ≠ p.env.opHash → p.env.ref.seq < storeMax →
      (before.Accepts p.env → Later c (before.deliver c p) between → between.Accepts y.env →
        ((between.heldAt p.env.ref).isSome ∨
          (between.devs p.env.ref.stream p.env.ref.device).floorSeq ≤ p.env.ref.seq) →
        Later c (between.deliver c y) after → after.HasFork p.env.ref h) ∧
      (before.Accepts y.env → Later c (before.deliver c y) between → between.Accepts p.env →
        Later c (between.deliver c p) after → after.HasFork p.env.ref h)) ∧
    ∀ (hist : StreamId → Device → ℕ → Hash) (events : List Event), Follows c hist ∅ events →
      (∀ ev ∈ events, ∀ env ∈ ev.envelopes, env.Honest hist) →
      ∀ s dev, ((run c events).devs s dev).forks = ∅ := by
  refine ⟨fun before between after p y h hbefore hn hne hseq => ?_,
    fun hist events hrun henv s dev => ?_⟩
  · have hs : before.Settled := hbefore.settled fun _ _ => settled_empty
    have hnamers : before.NamersHeld :=
      hbefore.namersHeld (fun _ _ => settled_empty) namersHeld_empty
    exact ⟨fun hp hb hy hknown hafter =>
        hasFork_of_position_first hs hp hseq hb hy hn hne hknown hafter,
      fun hy hb hp hafter => hasFork_of_namer_first hs hnamers hy hn hb hp hne hafter⟩
  · exact congrFun (congrFun (clean_run hrun henv).forks s) dev

end OpLog

/-- An op of device 2 that names a hash at device 1's first op. -/
def opNaming (hash : Hash) : Envelope :=
  { ref := ⟨7, 2, 1⟩, hlc := ⟨9, 0⟩, opHash := 77, heads := [⟨1, 1, hash⟩] }

/-- Device 1's frontier op at a sequence number: one that compaction may delete. -/
def digestAt (n : ℕ) (hash : Hash) : Envelope :=
  { opAt n hash with inner := .streamDigest [] false }

namespace OpLog

theorem forks_spec_other_hash :
    let p : Delivery := ⟨opAt 1 5, true⟩
    let y : Delivery := ⟨opNaming 6, true⟩
    (((∅ : OpLog).deliver .sample p).deliver .sample y).HasFork p.env.ref 6 ∧
      (((∅ : OpLog).deliver .sample y).deliver .sample p).HasFork p.env.ref 6 ∧
      ((run .sample [.deliver p]).devs 7 1).forks = ∅ := by
  intro p y
  have hnames : y.env.Names p.env.ref 6 :=
    ⟨⟨⟨7, 1, 1⟩, .head, 6⟩, List.mem_singleton.mpr rfl, rfl, rfl⟩
  have hspec := forks_spec .sample
  have h := hspec.1 ∅
  refine ⟨(h _ _ p y 6 .refl hnames (by decide) (by decide)).1 ⟨by decide, by decide, by decide⟩
      .refl ⟨by decide, by decide, by decide⟩ (.inl (by decide)) .refl,
    (h _ _ p y 6 .refl hnames (by decide) (by decide)).2 ⟨by decide, by decide, by decide⟩
      .refl ⟨by decide, by decide, by decide⟩ .refl,
    hspec.2 (fun _ _ _ => 5) [.deliver p] ⟨fun _ => rfl, trivial⟩ ?_ 7 1⟩
  intro ev hev env henv
  obtain rfl := List.mem_singleton.mp hev
  obtain rfl := List.mem_singleton.mp henv
  exact ⟨rfl, fun r h ⟨n, hn, _⟩ => (List.not_mem_nil hn).elim⟩

/-- Device 1's first op, then folded away with its second, is one hash and device 2's op
names another: where the namer comes last no evidence is left, and where it comes first
there is. And two different ops at one position leave evidence, though neither is named. -/
theorem not_hasFork_of_compacted :
    let view : CompactionView := ⟨fun _ => none, 100, fun _ => false⟩
    let held : List Event := [.deliver ⟨digestAt 1 5, true⟩, .deliver ⟨digestAt 2 6, true⟩,
      .deliver ⟨digestAt 3 7, true⟩, .compact view 7]
    (run .sample held).Accepts (opNaming 4) ∧
      ((run .sample (held ++ [.deliver ⟨opNaming 4, true⟩])).devs 7 1).forks.rows.length = 0 ∧
      ((run .sample (.deliver ⟨opNaming 4, true⟩ :: held)).devs 7 1).forks.rows.length = 1 ∧
      ((run .sample [.deliver ⟨opAt 1 5, true⟩, .deliver ⟨opAt 1 6, true⟩]).devs 7 1
        ).forks.rows.length = 1 :=
  ⟨⟨by decide, by decide, by decide⟩, by decide, by decide, by decide⟩

end OpLog

end Sunrise
