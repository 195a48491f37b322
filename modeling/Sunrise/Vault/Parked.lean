import Sunrise.Log.Roots
import Sunrise.Vault.Atomic

/-!
# Parked ops

An op that a build cannot read is parked: its row counts toward the prefix and the chain, but
the op is not folded. A later build retries the parked ops, each with the bytes it was parked
with, through the delivery it would have had; one that it reads is released there.

So a run that parks ops and replays them later ends as a run that read every op when it came:
the log of a run of deliveries is that of the ops it was given, whatever their order, and so
are the ops folded.

* `Vault.run_eq_receiveAll` — **park and replay equals apply**.
-/

namespace Sunrise

open DeviceLog

theorem LogRow.eq_of_bare {a b : LogRow} (h : a.bare = b.bare) :
    a.env = b.env ∧ a.kind = b.kind ∧ a.applied = b.applied ∧ a.parked = b.parked := by
  simpa [LogRow.bare] using h

namespace OpLog

variable {c : ChainHash} {log log' : OpLog} {ops : List Envelope}

/-! ### What a delivery writes -/

theorem isSome_cursor_advance (c : ChainHash) (log : OpLog) (env : Envelope) (s : StreamId)
    (dev : Device) : ((log.advance c env).devs s dev).cursor.isSome ↔
      s = env.ref.stream ∧ dev = env.ref.device ∨ (log.devs s dev).cursor.isSome := by
  unfold advance
  rw [devs_modify]
  split
  next h =>
    refine ⟨fun _ => .inl h, fun _ => ?_⟩
    unfold upsertSyncCursor
    dsimp only
    rw [cursor_of_skeleton (skeleton_foldChain ..)]
    rfl
  next h => exact (or_iff_right h).symm

theorem isSome_cursor_absorb (c : ChainHash) (log : OpLog) (env : Envelope) (s : StreamId)
    (dev : Device) : ((log.absorb c env).devs s dev).cursor.isSome ↔
      s = env.ref.stream ∧ dev = env.ref.device ∨ (log.devs s dev).cursor.isSome := by
  unfold absorb
  dsimp only
  rw [isSome_cursor_advance]
  have hcur : ∀ l : OpLog, l.skeleton = log.skeleton →
      (l.devs s dev).cursor = (log.devs s dev).cursor := fun l h =>
    cursor_of_skeleton (skeleton_apply h s dev)
  have hlinks : (log.checkLinks env).skeleton = log.skeleton :=
    skeleton_of_core (core_checkLinks ..)
  split
  · rw [hcur _ ((skeleton_reconcile ..).trans hlinks)]
  · rw [hcur _ hlinks]

/-- How a delivery files its row. -/
def Delivery.kind (dl : Delivery) : LogKind := if dl.readable then dl.env.inner.kind else .parked

@[simp] theorem cursor_insertRow (log : OpLog) (env : Envelope) (row : LogRow) (s : StreamId)
    (dev : Device) : ((log.insertRow env row).devs s dev).cursor = (log.devs s dev).cursor := by
  unfold insertRow
  rw [devs_modify]
  split
  next h => rw [h.1, h.2]
  next => rfl

theorem rows_deliver (c : ChainHash) (log : OpLog) (dl : Delivery) :
    ((log.deliver c dl).core = log.core ∧ ¬ log.Accepts dl.env ∧
      (dl.readable = true → log.takes dl.env = false)) ∨
    ∃ row : LogRow, dl.env.ref.seq ≤ storeMax ∧ row.parked = !dl.readable ∧
      row.applied = dl.readable ∧ row.kind = dl.kind ∧
      (log.deliver c dl).frame = (log.insertRow dl.env row).frame ∧
      (log.Accepts dl.env ∧ row.env = dl.env ∨ ∃ old, log.rowAt dl.env.ref = some old ∧
        old.parked = true ∧ old.env.opHash = dl.env.opHash ∧ row.env = old.env) ∧
      ∀ s dev, ((log.deliver c dl).devs s dev).cursor.isSome ↔
        s = dl.env.ref.stream ∧ dev = dl.env.ref.device ∨ (log.devs s dev).cursor.isSome := by
  obtain ⟨env, readable⟩ := dl
  cases readable with
  | true =>
    show ((log.receive c env).core = log.core ∧ _) ∨ _
    cases htakes : log.takes env with
    | false =>
      refine .inl ⟨core_receive_of_not_takes c htakes, ?_, fun _ => rfl⟩
      rintro ⟨hcov, hmax, hrow⟩
      simp [takes, hcov, hmax, hrow] at htakes
    | true =>
      have heq : ∀ row, (log.receive c env) = (log.insertRow env row).absorb c env →
          (log.receive c env).frame = (log.insertRow env row).frame ∧
          ∀ s dev, ((log.receive c env).devs s dev).cursor.isSome ↔
            s = env.ref.stream ∧ dev = env.ref.device ∨ (log.devs s dev).cursor.isSome := by
        intro row h
        rw [h]
        refine ⟨frame_absorb .., fun s dev => ?_⟩
        rw [isSome_cursor_absorb, cursor_insertRow]
      simp only [takes, Bool.and_eq_true, decide_eq_true_eq, Bool.not_eq_true'] at htakes
      obtain ⟨⟨hcov, hmax⟩, hrow⟩ := htakes
      cases hr : log.rowAt env.ref with
      | none =>
        have hrec : log.receive c env =
            (log.insertRow env ⟨env, env.inner.kind, true, false, none⟩).absorb c env := by
          rw [receive, hcov, if_neg Bool.false_ne_true, if_neg (Nat.not_lt.mpr hmax), hr]
        obtain ⟨hframe, hcursor⟩ := heq _ hrec
        exact .inr ⟨_, hmax, rfl, rfl, rfl, hframe, .inl ⟨⟨hcov, hmax, hr⟩, rfl⟩, hcursor⟩
      | some old =>
        rw [hr] at hrow
        simp only [Bool.and_eq_true, decide_eq_true_eq] at hrow
        have hrec : log.receive c env = (log.insertRow env { old with
            kind := env.inner.kind, applied := true, parked := false }).absorb c env := by
          rw [receive, hcov, if_neg Bool.false_ne_true, if_neg (Nat.not_lt.mpr hmax), hr]
          exact if_pos hrow
        obtain ⟨hframe, hcursor⟩ := heq _ hrec
        exact .inr ⟨_, hmax, rfl, rfl, rfl, hframe, .inr ⟨old, rfl, hrow.1, hrow.2, rfl⟩, hcursor⟩
  | false =>
    show ((log.park c env).core = log.core ∧ _) ∨ _
    by_cases hacc : log.Accepts env
    · obtain ⟨hcov, hmax, hrow⟩ := id hacc
      have hpark : log.park c env =
          ((log.insertRow env ⟨env, .parked, false, true, none⟩).checkLinks env).advance c env := by
        rw [park, hcov, if_neg Bool.false_ne_true, if_neg (Nat.not_lt.mpr hmax), hrow]
      have hlinks : ((log.insertRow env ⟨env, .parked, false, true, none⟩).checkLinks
          env).skeleton = (log.insertRow env ⟨env, .parked, false, true, none⟩).skeleton :=
        skeleton_of_core (core_checkLinks ..)
      refine .inr ⟨⟨env, .parked, false, true, none⟩, hmax, rfl, rfl, rfl, ?_,
        .inl ⟨hacc, rfl⟩, fun s dev => ?_⟩
      · show (log.park c env).frame = _
        rw [hpark, frame_advance]
        exact frame_of_skeleton hlinks
      · show ((log.park c env).devs s dev).cursor.isSome ↔ _
        rw [hpark, isSome_cursor_advance,
          cursor_of_skeleton (skeleton_apply hlinks s dev), cursor_insertRow]
    · refine .inl ⟨?_, hacc, fun h => absurd h Bool.false_ne_true⟩
      unfold park
      split
      · exact core_checkCovered ..
      next hcov =>
        split
        · rfl
        next hbig =>
          split
          next hrow => exact absurd ⟨by simpa using hcov, by omega, hrow⟩ hacc
          next => exact core_checkDuplicate ..

/-! ### What deliveries leave -/

def historyOf (ops : List Envelope) (s : StreamId) (dev : Device) (n : ℕ) : Hash :=
  ((ops.find? fun env => decide (env.ref = ⟨s, dev, n⟩)).map (·.opHash)).getD 0

/-- There is one op at a position. -/
def OneAt (ops : List Envelope) : Prop := ∀ a ∈ ops, ∀ b ∈ ops, a.ref = b.ref → a = b

theorem OneAt.of_historyOf (hd : OneAt ops) {env : Envelope} (h : env ∈ ops) :
    env.Of (historyOf ops) := by
  unfold Envelope.Of historyOf
  cases hf : ops.find? fun e => decide (e.ref = ⟨env.ref.stream, env.ref.device, env.ref.seq⟩) with
  | none =>
    have := List.find?_eq_none.mp hf env h
    simp at this
  | some e =>
    have href : e.ref = env.ref := by simpa using List.find?_some hf
    rw [hd e (List.mem_of_find?_eq_some hf) env h href]
    rfl

/-- A log of deliveries of given ops. -/
structure Received (c : ChainHash) (ops : List Envelope) (log : OpLog) : Prop where
  later : Later c ∅ log
  rooted : log.Rooted c (historyOf ops)
  floorless : ∀ s dev, (log.devs s dev).floor = none
  row : ∀ s dev n row, (log.devs s dev).rows.find n = some row → row.env ∈ ops ∧
    row.env.ref = ⟨s, dev, n⟩ ∧ row.applied = !row.parked ∧
      row.kind = if row.parked then .parked else row.env.inner.kind
  cursor : ∀ s dev, (log.devs s dev).cursor.isSome ↔
    ∃ n, ((log.devs s dev).rows.find n).isSome

theorem received_empty (c : ChainHash) (ops : List Envelope) : Received c ops ∅ where
  later := .refl
  rooted _ _ := rooted_empty
  floorless _ _ := rfl
  row s dev n row h := by simp [EmptyCollection.emptyCollection, OpLog.empty, DeviceLog.empty,
    Table.find, Table.empty] at h
  cursor s dev := by simp [EmptyCollection.emptyCollection, OpLog.empty, DeviceLog.empty,
    Table.find, Table.empty]

namespace Received

variable (h : Received c ops log)

include h

theorem settled : log.Settled := h.later.settled fun _ _ => settled_empty

theorem stepped : log.Stepped :=
  h.later.stepped (fun _ _ => settled_empty) fun _ _ => stepped_empty

theorem isCovered (env : Envelope) : log.isCovered env = false := by
  unfold OpLog.isCovered
  rw [h.floorless]

section

variable (hd : OneAt ops) {env : Envelope} (henv : env ∈ ops) (hmax : env.ref.seq ≤ storeMax)
include hd henv hmax

theorem env_eq {row : LogRow} (hrow : log.rowAt env.ref = some row) : row.env = env := by
  unfold rowAt at hrow
  rw [i64Of_eq_self.mpr hmax] at hrow
  obtain ⟨hmem, href, -⟩ := h.row _ _ _ row hrow
  exact hd _ hmem _ henv href

theorem takes_or_read :
    log.takes env = true ∨ ∃ row, log.rowAt env.ref = some row ∧ row.parked = false := by
  unfold takes
  rw [h.isCovered]
  cases hrow : log.rowAt env.ref with
  | none => exact .inl (by simp [hmax])
  | some row =>
    cases hp : row.parked with
    | false => exact .inr ⟨row, rfl, hp⟩
    | true => exact .inl (by simp [hmax, hp, h.env_eq hd henv hmax hrow])

end

/-- **A delivery of one of the ops keeps it so.** -/
theorem deliver (hd : OneAt ops) {dl : Delivery} (hdl : dl.env ∈ ops) :
    Received c ops (log.deliver c dl) := by
  have hlater : Later c ∅ (log.deliver c dl) := h.later.deliver dl
  have hrooted : (log.deliver c dl).Rooted c (historyOf ops) :=
    h.rooted.deliver h.settled.sound fun _ => hd.of_historyOf hdl
  rcases log.rows_deliver c dl with ⟨hcore, -⟩ |
      ⟨row, hmax, hparked, happlied, hkind, hframe, hrow, hcursor⟩
  · have hdev : ∀ s dev, ((log.deliver c dl).devs s dev).rows = (log.devs s dev).rows ∧
        ((log.deliver c dl).devs s dev).floor = (log.devs s dev).floor ∧
        ((log.deliver c dl).devs s dev).cursor = (log.devs s dev).cursor := fun s dev =>
      DeviceLog.core_eq_iff.mp (core_apply hcore s dev)
    refine ⟨hlater, hrooted, fun s dev => ?_, fun s dev n row hrow => ?_, fun s dev => ?_⟩
    · rw [(hdev s dev).2.1, h.floorless]
    · exact h.row s dev n row (by rwa [(hdev s dev).1] at hrow)
    · rw [(hdev s dev).2.2, (hdev s dev).1]
      exact h.cursor s dev
  · have henv : row.env = dl.env := by
      rcases hrow with ⟨-, henv⟩ | ⟨old, hold, -, -, henv⟩
      · exact henv
      · rw [henv, h.env_eq hd hdl hmax hold]
    -- the rows are those there were and the new one
    have hfind : ∀ s dev n, (((log.deliver c dl).devs s dev).rows.find n).map LogRow.bare =
        (if (⟨s, dev, n⟩ : OpRef) = dl.env.ref then some row
          else (log.devs s dev).rows.find n).map LogRow.bare := by
      intro s dev n
      have hb := congrFun (congrArg Prod.fst (congrFun (congrFun hframe s) dev)) n
      refine hb.trans ?_
      show ((((log.insertRow dl.env row).devs s dev).rows.find n).map LogRow.bare) = _
      unfold insertRow
      rw [devs_modify]
      by_cases hsd : s = dl.env.ref.stream ∧ dev = dl.env.ref.device
      · rw [if_pos hsd, Table.find_upsert, hsd.1, hsd.2]
        congr 1
        by_cases hn : n = dl.env.ref.seq
        · rw [if_pos hn, if_pos (by rw [hn])]
        · rw [if_neg hn, if_neg fun heq => hn (congrArg OpRef.seq heq)]
      · rw [if_neg hsd, if_neg fun heq =>
          hsd ⟨congrArg OpRef.stream heq, congrArg OpRef.device heq⟩]
    refine ⟨hlater, hrooted, fun s dev => ?_, fun s dev n row' hrow' => ?_, fun s dev => ?_⟩
    · rw [floor_of_frame hframe, floor_insertRow, h.floorless]
    · have hb := hfind s dev n
      rw [hrow'] at hb
      split at hb
      next heq =>
        have hbare : row'.bare = row.bare := Option.some.inj hb
        obtain ⟨henv', hkind', happlied', hparked'⟩ := LogRow.eq_of_bare hbare
        rw [henv', hparked', happlied', hkind', henv, hparked, happlied, hkind]
        refine ⟨hdl, heq.symm, (Bool.not_not _).symm, ?_⟩
        unfold Delivery.kind
        cases dl.readable <;> rfl
      next =>
        obtain ⟨old, hold, hbare⟩ := Option.map_eq_some_iff.mp hb.symm
        obtain ⟨henv', hkind', happlied', hparked'⟩ := LogRow.eq_of_bare hbare
        rw [← henv', ← hparked', ← happlied', ← hkind']
        exact h.row s dev n old hold
    · rw [hcursor, h.cursor]
      have hsome : ∀ n, (((log.deliver c dl).devs s dev).rows.find n).isSome ↔
          (⟨s, dev, n⟩ : OpRef) = dl.env.ref ∨ ((log.devs s dev).rows.find n).isSome := by
        intro n
        have hb := congrArg Option.isSome (hfind s dev n)
        rw [Option.isSome_map, Option.isSome_map] at hb
        rw [hb]
        split
        next heq => simp [heq]
        next hne => exact (or_iff_right hne).symm
      simp only [hsome]
      constructor
      · rintro (⟨rfl, rfl⟩ | ⟨n, hn⟩)
        · exact ⟨dl.env.ref.seq, .inl rfl⟩
        · exact ⟨n, .inr hn⟩
      · rintro ⟨n, heq | hn⟩
        · exact .inl ⟨congrArg OpRef.stream heq, congrArg OpRef.device heq⟩
        · exact .inr ⟨n, hn⟩

theorem isGreatest_cursor (s : StreamId) (dev : Device) :
    IsGreatest {n | (log.devs s dev).Contiguous n} (log.devs s dev).cursorSeq := by
  have hset := h.settled s dev
  have hfloor : (log.devs s dev).floorSeq = 0 := by
    rw [floorSeq, h.floorless]
    rfl
  exact ⟨hset.contiguous, fun n hn => hset.greatest (by rw [hfloor]; decide) n hn⟩

end Received

def ReadAll (ops : List Envelope) (log : OpLog) : Prop :=
  ∀ env ∈ ops, (log.readAt env.ref).isSome

theorem isSome_readAt {r : OpRef} :
    (log.readAt r).isSome ↔ ∃ row, log.rowAt r = some row ∧ row.parked = false := by
  unfold readAt
  rw [Option.isSome_map, Option.isSome_filter]
  cases log.rowAt r <;> simp

/-- **Logs of the same ops, each read, are equal**: their rows with the roots, their floors and
their cursors. -/
theorem Received.core_eq (h : Received c ops log) (h' : Received c ops log') (hd : OneAt ops)
    (hmax : ∀ env ∈ ops, env.ref.seq ≤ storeMax) (hread : log.ReadAll ops)
    (hread' : log'.ReadAll ops) : log.core = log'.core := by
  -- a row of the one is a row of the other but for its root
  have hrows : ∀ {l l' : OpLog}, Received c ops l → Received c ops l' → l.ReadAll ops →
      l'.ReadAll ops → ∀ s dev n row, (l.devs s dev).rows.find n = some row →
        ∃ row', (l'.devs s dev).rows.find n = some row' ∧ row'.bare = row.bare := by
    intro l l' hl hl' hr hr' s dev n row hrow
    obtain ⟨hmem, href, happlied, hkind⟩ := hl.row s dev n row hrow
    have hn : n ≤ storeMax := by
      have := hmax _ hmem
      rwa [href] at this
    have hat : ∀ l : OpLog, l.rowAt row.env.ref = (l.devs s dev).rows.find n := by
      intro l
      unfold rowAt
      rw [href]
      dsimp only
      rw [i64Of_eq_self.mpr hn]
    obtain ⟨row₀, hrow₀, hp₀⟩ := isSome_readAt.mp (hr _ hmem)
    obtain ⟨row', hrow', hp'⟩ := isSome_readAt.mp (hr' _ hmem)
    rw [hat, hrow, Option.some.injEq] at hrow₀
    rw [hat] at hrow'
    obtain ⟨hmem', href', happlied', hkind'⟩ := hl'.row s dev n row' hrow'
    have henv : row'.env = row.env := hd _ hmem' _ hmem (href'.trans href.symm)
    rw [← hrow₀] at hp₀
    rw [hp₀] at happlied hkind
    rw [hp', henv] at hkind'
    rw [hp'] at happlied'
    refine ⟨row', hrow', ?_⟩
    simp only [LogRow.bare, henv, hkind', hkind, happlied', happlied, hp', hp₀]
  have hisSome : ∀ s dev n, ((log.devs s dev).rows.find n).isSome ↔
      ((log'.devs s dev).rows.find n).isSome := by
    intro s dev n
    simp only [Option.isSome_iff_exists]
    constructor
    · rintro ⟨row, hrow⟩
      obtain ⟨row', hrow', -⟩ := hrows h h' hread hread' s dev n row hrow
      exact ⟨row', hrow'⟩
    · rintro ⟨row, hrow⟩
      obtain ⟨row', hrow', -⟩ := hrows h' h hread' hread s dev n row hrow
      exact ⟨row', hrow'⟩
  have hcursor : ∀ s dev, (log.devs s dev).cursorSeq = (log'.devs s dev).cursorSeq := by
    intro s dev
    have hcont : ∀ n, (log.devs s dev).Contiguous n ↔ (log'.devs s dev).Contiguous n := by
      intro n
      simp only [DeviceLog.Contiguous, DeviceLog.Covers, floorSeq, h.floorless,
        h'.floorless, hisSome]
    refine (h.isGreatest_cursor s dev).unique ?_
    simp only [hcont]
    exact h'.isGreatest_cursor s dev
  funext s dev
  refine DeviceLog.core_eq_iff.mpr ⟨Table.ext_find fun n => ?_, ?_, ?_⟩
  · cases hrow : (log.devs s dev).rows.find n with
    | none =>
      have hnone : ¬ ((log'.devs s dev).rows.find n).isSome := by
        rw [← hisSome, hrow]
        exact Bool.false_ne_true
      exact (Option.not_isSome_iff_eq_none.mp hnone).symm
    | some row =>
      obtain ⟨row', hrow', hbare⟩ := hrows h h' hread hread' s dev n row hrow
      obtain ⟨henv, hkind, happlied, hparked⟩ := LogRow.eq_of_bare hbare
      -- the root is the history's inside the prefix, and there is none outside
      have hroot : row'.chainRoot = row.chainRoot := by
        by_cases hn : n = 0 ∨ (log.devs s dev).cursorSeq < n
        · rw [(h.stepped s dev).outside n row hrow hn,
            (h'.stepped s dev).outside n row' hrow' (hcursor s dev ▸ hn)]
        · push Not at hn
          have hfloor : ∀ {l : OpLog}, Received c ops l → (l.devs s dev).floorSeq < n := by
            intro l hl
            rw [floorSeq, hl.floorless]
            exact Nat.pos_of_ne_zero hn.1
          obtain ⟨r, hr⟩ := Option.isSome_iff_exists.mp
            ((h.stepped s dev).within n row hrow (hfloor h) hn.2)
          obtain ⟨r', hr'⟩ := Option.isSome_iff_exists.mp
            ((h'.stepped s dev).within n row' hrow' (hfloor h') (hcursor s dev ▸ hn.2))
          rw [hr, hr', (h.rooted s dev).root n row r hrow hr,
            (h'.rooted s dev).root n row' r' hrow' hr']
      rw [hrow']
      obtain ⟨env, kind, applied, parked, root⟩ := row
      obtain ⟨env', kind', applied', parked', root'⟩ := row'
      simp_all
  · rw [h.floorless, h'.floorless]
  · have hsome : (log.devs s dev).cursor.isSome ↔ (log'.devs s dev).cursor.isSome := by
      rw [h.cursor, h'.cursor]
      simp only [hisSome]
    have hseq := hcursor s dev
    unfold cursorSeq at hseq
    cases hc : (log.devs s dev).cursor <;> cases hc' : (log'.devs s dev).cursor <;>
      simp_all

/-! ### What stays -/

/-- What is held stays held, and what is read stays read. -/
structure Extends (log log' : OpLog) : Prop where
  held : ∀ r : OpRef, r.seq ≤ storeMax → (log.heldAt r).isSome → (log'.heldAt r).isSome
  read : ∀ r : OpRef, r.seq ≤ storeMax → (log.readAt r).isSome → (log'.readAt r).isSome

theorem Extends.refl (log : OpLog) : log.Extends log := ⟨fun _ _ h => h, fun _ _ h => h⟩

theorem Extends.trans {log'' : OpLog} (h : log.Extends log') (h' : log'.Extends log'') :
    log.Extends log'' :=
  ⟨fun r hr hh => h'.held r hr (h.held r hr hh), fun r hr hh => h'.read r hr (h.read r hr hh)⟩

theorem Extends.of_frame (h : log.frame = log'.frame) : log.Extends log' :=
  ⟨fun r _ hh => heldAt_of_frame h r ▸ hh, fun r _ hh => readAt_of_frame h r ▸ hh⟩

theorem readAt_eq_none_of_rows {dl : Delivery} {row : LogRow}
    (h : log.Accepts dl.env ∧ row.env = dl.env ∨ ∃ old, log.rowAt dl.env.ref = some old ∧
      old.parked = true ∧ old.env.opHash = dl.env.opHash ∧ row.env = old.env) :
    log.readAt dl.env.ref = none := by
  rw [← Option.not_isSome_iff_eq_none, isSome_readAt]
  rintro ⟨row', hrow', hp⟩
  rcases h with ⟨⟨-, -, hnone⟩, -⟩ | ⟨old, hold, hp', -⟩
  · simp [hnone] at hrow'
  · rw [hold, Option.some.injEq] at hrow'
    rw [← hrow', hp'] at hp
    simp at hp

theorem extends_deliver (c : ChainHash) (log : OpLog) (dl : Delivery) :
    log.Extends (log.deliver c dl) := by
  rcases log.rows_deliver c dl with ⟨hcore, -⟩ | ⟨row, -, hparked, -, -, hframe, hrow, -⟩
  · exact .of_frame (frame_of_skeleton (skeleton_of_core hcore.symm))
  · refine Extends.trans ⟨fun r hr hh => isSome_heldAt_insertRow row hr hh, fun r hr hh => ?_⟩
      (.of_frame hframe.symm)
    have hne : r ≠ dl.env.ref := by
      rintro rfl
      rw [readAt_eq_none_of_rows hrow] at hh
      simp at hh
    rwa [readAt_insertRow hr, if_neg hne]

theorem readAt_deliver_unreadable (c : ChainHash) (log : OpLog) (env : Envelope) {r : OpRef}
    (hr : r.seq ≤ storeMax) : (log.deliver c ⟨env, false⟩).readAt r = log.readAt r := by
  rcases log.rows_deliver c ⟨env, false⟩ with ⟨hcore, -⟩ |
      ⟨row, -, hparked, -, -, hframe, hrow, -⟩
  · exact readAt_of_frame (frame_of_skeleton (skeleton_of_core hcore)) r
  · rw [readAt_of_frame hframe, readAt_insertRow hr, hparked]
    split
    next heq =>
      rw [heq, readAt_eq_none_of_rows hrow]
      rfl
    next => rfl

theorem Received.reads (h : Received c ops log) (hd : OneAt ops) {dl : Delivery}
    (hdl : dl.env ∈ ops) (hmax : dl.env.ref.seq ≤ storeMax) :
    ((log.deliver c dl).heldAt dl.env.ref).isSome ∧
      (dl.readable = true → ((log.deliver c dl).readAt dl.env.ref).isSome) := by
  have hext := extends_deliver c log dl
  constructor
  · rcases log.rows_deliver c dl with ⟨-, hacc, -⟩ | ⟨row, -, -, -, -, hframe, -⟩
    · refine hext.held _ hmax ?_
      by_contra hnone
      rw [Option.not_isSome_iff_eq_none] at hnone
      refine hacc ⟨h.isCovered _, hmax, ?_⟩
      rwa [heldAt, Option.map_eq_none_iff] at hnone
    · rw [heldAt_of_frame hframe, heldAt_insertRow row hmax, if_pos rfl]
      rfl
  · intro hreadable
    rcases h.takes_or_read hd hdl hmax with htakes | hread
    · unfold OpLog.deliver
      rw [if_pos hreadable, readAt_receive c htakes (fun old hold _ _ =>
        h.env_eq hd hdl hmax hold) hmax, if_pos rfl]
      rfl
    · exact hext.read _ hmax (isSome_readAt.mpr hread)

end OpLog

namespace Vault

variable (c : Codec)

/-- Something that happens to a vault. -/
inductive Event where
  | deliver (dl : OpLog.Delivery)
  /-- A build retries parked ops, those at `refs` in turn, and reads what `reads` says. -/
  | replay (refs : List OpRef) (reads : Envelope → Bool)

def parkedAt (v : Vault) (r : OpRef) : Option Envelope :=
  ((v.log.rowAt r).filter (·.parked)).map (·.env)

/-- The deliveries an event makes: a parked op is retried with the bytes it was parked with. -/
def Event.deliveries (v : Vault) : Event → List OpLog.Delivery
  | .deliver dl => [dl]
  | .replay refs reads => (refs.filterMap v.parkedAt).map fun env => ⟨env, reads env⟩

/-- Take a delivery. The ops folded come with the vault. -/
def deliver (ch : ChainHash) (w : Vault × List Op) (dl : OpLog.Delivery) : Vault × List Op :=
  if dl.readable then
    let next := w.1.receive c ch dl.env
    (next.1, w.2 ++ next.2)
  else (w.1.park ch dl.env, w.2)

/-- The vault after events, and the ops folded. -/
def run (ch : ChainHash) (events : List Event) : Vault × List Op :=
  events.foldl (fun w ev => (ev.deliveries w.1).foldl (deliver c ch) w) (∅, [])

variable {c} {ch : ChainHash} {ops : List Envelope} {w w' : Vault × List Op}

theorem receiveAll_eq_run (c : Codec) (ch : ChainHash) (envs : List Envelope) :
    receiveAll c ch envs = run c ch (envs.map fun env => .deliver ⟨env, true⟩) := by
  unfold receiveAll run
  rw [List.foldl_map]
  rfl

/-- The log of the ops of a run, and what it folded of them. -/
structure Parking (c : Codec) (ch : ChainHash) (ops : List Envelope) (w : Vault × List Op) :
    Prop where
  inv : Inv c w.1 w.2
  received : OpLog.Received ch ops w.1.log

theorem parking_empty (c : Codec) (ch : ChainHash) (ops : List Envelope) :
    Parking c ch ops (∅, []) := ⟨inv_empty c, OpLog.received_empty ch ops⟩

/-- **A delivery, read or parked, keeps the invariant**, and does to the log what it does. -/
theorem Parking.deliver (h : Parking c ch ops w) (hd : OpLog.OneAt ops)
    {dl : OpLog.Delivery} (hdl : dl.env ∈ ops) (hfits : dl.env.Fits) :
    Parking c ch ops (deliver c ch w dl) ∧ (deliver c ch w dl).1.log = w.1.log.deliver ch dl := by
  obtain ⟨env, readable⟩ := dl
  have hreceived := @OpLog.Received.deliver _ _ _ h.received hd ⟨env, readable⟩ hdl
  cases readable with
  | true =>
    have hsame : ∀ old, w.1.log.rowAt env.ref = some old → old.parked = true →
        old.env.opHash = env.opHash → old.env = env := fun old hold _ _ =>
      h.received.env_eq hd hdl hfits.1 hold
    obtain ⟨hinv, hlog, -⟩ := h.inv.receive ch hsame
    have hlog' : (Vault.deliver c ch w ⟨env, true⟩).1.log = w.1.log.deliver ch ⟨env, true⟩ :=
      hlog hfits
    exact ⟨⟨hinv, hlog' ▸ hreceived⟩, hlog'⟩
  | false =>
    have hinv : Inv c { w.1 with log := w.1.log.deliver ch ⟨env, false⟩ } w.2 :=
      h.inv.of_holds fun op => ⟨.of_readAt fun r hr =>
        (OpLog.readAt_deliver_unreadable ch w.1.log env hr).symm, .of_readAt fun r hr =>
          OpLog.readAt_deliver_unreadable ch w.1.log env hr⟩
    exact ⟨⟨hinv, hreceived⟩, rfl⟩

/-- A run of deliveries keeps it, keeps what is held and read, holds what it was given, and
reads what it was given to read. -/
theorem Parking.foldl_deliver (h : Parking c ch ops w) (hd : OpLog.OneAt ops)
    (hfits : ∀ env ∈ ops, env.Fits) {dls : List OpLog.Delivery} (hdls : ∀ dl ∈ dls, dl.env ∈ ops) :
    Parking c ch ops (dls.foldl (Vault.deliver c ch) w) ∧
      w.1.log.Extends (dls.foldl (Vault.deliver c ch) w).1.log ∧
      ∀ dl ∈ dls, ((dls.foldl (Vault.deliver c ch) w).1.log.heldAt dl.env.ref).isSome ∧
        (dl.readable = true →
          ((dls.foldl (Vault.deliver c ch) w).1.log.readAt dl.env.ref).isSome) := by
  induction dls generalizing w with
  | nil => exact ⟨h, .refl _, by simp⟩
  | cons dl dls ih =>
    obtain ⟨hdl, hdls⟩ := List.forall_mem_cons.mp hdls
    have hmax := (hfits _ hdl).1
    obtain ⟨h', hlog⟩ := h.deliver hd hdl (hfits _ hdl)
    obtain ⟨h'', hext, hall⟩ := ih h' hdls
    have hreads := h.received.reads hd hdl hmax
    have hext' := OpLog.extends_deliver ch w.1.log dl
    rw [← hlog] at hreads hext'
    refine ⟨h'', hext'.trans hext, List.forall_mem_cons.mpr ⟨⟨?_, fun hr => ?_⟩, hall⟩⟩
    · exact hext.held _ hmax hreads.1
    · exact hext.read _ hmax (hreads.2 hr)

theorem Parking.deliveries_mem (h : Parking c ch ops w) {ev : Event}
    (hev : ∀ dl, ev = .deliver dl → dl.env ∈ ops) : ∀ dl ∈ ev.deliveries w.1, dl.env ∈ ops := by
  cases ev with
  | deliver dl =>
    intro dl' hdl'
    rw [List.mem_singleton.mp hdl']
    exact hev dl rfl
  | replay refs reads =>
    intro dl hdl
    obtain ⟨env, henv, rfl⟩ := List.mem_map.mp hdl
    obtain ⟨r, -, hr⟩ := List.mem_filterMap.mp henv
    obtain ⟨row, hrow, rfl⟩ := Option.map_eq_some_iff.mp hr
    exact (h.received.row _ _ _ row (Option.filter_eq_some_iff.mp hrow).1).1

/-- The run reads an op: it is delivered to a build that reads it, or it was delivered before
and a build that reads it retries it. -/
def ReadIn (events : List Event) (env : Envelope) : Prop :=
  .deliver ⟨env, true⟩ ∈ events ∨
    ∃ before refs reads after readable, events = before ++ .replay refs reads :: after ∧
      .deliver ⟨env, readable⟩ ∈ before ∧ env.ref ∈ refs ∧ reads env = true

section

variable (hd : OpLog.OneAt ops) (hfits : ∀ env ∈ ops, env.Fits) {events : List Event}
  (hops : ∀ dl, .deliver dl ∈ events → dl.env ∈ ops)
include hd hfits hops

/-- **What a run leaves**: the invariant, and every op that the run read, read. -/
theorem Parking.run (h : Parking c ch ops w) :
    let w' := events.foldl (fun w ev => (ev.deliveries w.1).foldl (Vault.deliver c ch) w) w
    Parking c ch ops w' ∧ w.1.log.Extends w'.1.log ∧
      ∀ dl, .deliver dl ∈ events → (w'.1.log.heldAt dl.env.ref).isSome ∧
        (dl.readable = true → (w'.1.log.readAt dl.env.ref).isSome) := by
  induction events generalizing w with
  | nil => exact ⟨h, .refl _, by simp⟩
  | cons ev events ih =>
    obtain ⟨h', hext, hall⟩ := h.foldl_deliver hd hfits
      (h.deliveries_mem fun dl heq => hops dl (heq ▸ List.mem_cons_self))
    obtain ⟨h'', hext', hall'⟩ := ih (fun dl hdl => hops dl (List.mem_cons_of_mem _ hdl)) h'
    refine ⟨h'', hext.trans hext', fun dl hdl => ?_⟩
    rcases List.mem_cons.mp hdl with rfl | hdl
    · have hmax := (hfits _ (hops dl List.mem_cons_self)).1
      have hthis := hall dl List.mem_cons_self
      exact ⟨hext'.held _ hmax hthis.1, fun hr => hext'.read _ hmax (hthis.2 hr)⟩
    · exact hall' dl hdl

theorem Parking.readAll (hread : ∀ env ∈ ops, ReadIn events env) :
    (Vault.run c ch events).1.log.ReadAll ops := by
  intro env henv
  have hmax := (hfits env henv).1
  rcases hread env henv with hdel | ⟨before, refs, reads, after, readable, rfl, hdel, href, hreads⟩
  · exact ((Parking.run hd hfits hops (parking_empty c ch ops)).2.2 _ hdel).2 rfl
  · -- when it is retried its row is there, parked or not
    have hops₁ : ∀ dl, .deliver dl ∈ before → dl.env ∈ ops := fun dl hdl =>
      hops dl (List.mem_append_left _ hdl)
    obtain ⟨h₁, -, hheld⟩ := Parking.run hd hfits hops₁ (parking_empty c ch ops)
    have hops₂ : ∀ dl, .deliver dl ∈ Event.replay refs reads :: after → dl.env ∈ ops :=
      fun dl hdl => hops dl (List.mem_append_right _ hdl)
    obtain ⟨h₂, hext₂, hall₂⟩ := h₁.foldl_deliver hd hfits
      (@Parking.deliveries_mem _ _ _ _ h₁ (.replay refs reads) fun dl heq => by simp at heq)
    obtain ⟨-, hext₃, -⟩ := Parking.run hd hfits
      (fun dl hdl => hops₂ dl (List.mem_cons_of_mem _ hdl)) h₂
    unfold Vault.run
    rw [List.foldl_append, List.foldl_cons]
    refine hext₃.read _ hmax ?_
    set w₁ := before.foldl (fun w ev => (ev.deliveries w.1).foldl (Vault.deliver c ch) w)
      (∅, []) with hw₁
    obtain ⟨held, hheld⟩ := Option.isSome_iff_exists.mp (hheld _ hdel).1
    obtain ⟨row, hrow, -⟩ := Option.map_eq_some_iff.mp hheld
    cases hp : row.parked with
    | false => exact hext₂.read _ hmax (OpLog.isSome_readAt.mpr ⟨row, hrow, hp⟩)
    | true =>
      have henv' : row.env = env := h₁.received.env_eq hd henv hmax hrow
      have hparked : w₁.1.parkedAt env.ref = some env := by
        unfold parkedAt
        rw [hrow, Option.filter_some, hp, if_pos rfl, Option.map_some, henv']
      have hmem : (⟨env, true⟩ : OpLog.Delivery) ∈ (Event.replay refs reads).deliveries w₁.1 :=
        List.mem_map.mpr ⟨env, List.mem_filterMap.mpr ⟨env.ref, href, hparked⟩, by rw [hreads]⟩
      exact (hall₂ _ hmem).2 rfl

end

/-- **Park and replay equals apply.** Given ops with distinct positions, one kind to an id,
that the store has place for: every run of deliveries, each read or parked, and of replays, in
which every op is read in the end, leaves the log, with its rows, their flags and their roots,
its floors and its cursors, the merge tables, what they project and the flags of the groups as
deliveries of the same ops to a build that reads them all do, in any order. And it folds each
op at most once, whatever is delivered or retried again. -/
theorem run_eq_receiveAll (c : Codec) (serde : Serde) (ch : ChainHash) (ops : List Envelope)
    (hd : OpLog.OneAt ops) (hfits : ∀ env ∈ ops, env.Fits)
    (hkind : OneKind (ops.filterMap (·.op))) (events : List Event)
    (hops : ∀ dl, .deliver dl ∈ events → dl.env ∈ ops)
    (hread : ∀ env ∈ ops, ReadIn events env) (direct : List Envelope)
    (hdirect : ∀ env, env ∈ direct ↔ env ∈ ops) :
    let v := (run c ch events).1
    let folded := (run c ch events).2
    let w := (receiveAll c ch direct).1
    v.log.core = w.log.core ∧ v.store = w.store ∧
      (∀ id, projection c serde v.store id = projection c serde w.store id) ∧
      (∀ k, (v.pending.find k).map (·.applied) = (w.pending.find k).map (·.applied)) ∧
      (folded.map (·.stamp.opRef)).Nodup ∧
      ∀ op, op ∈ folded ↔ op ∈ (receiveAll c ch direct).2 := by
  intro v folded w
  -- a run that reads every op when it comes is such a run
  have hops' : ∀ dl, .deliver dl ∈ direct.map (fun env => Event.deliver ⟨env, true⟩) →
      dl.env ∈ ops := by
    intro dl hdl
    obtain ⟨env, henv, heq⟩ := List.mem_map.mp hdl
    rw [← Event.deliver.inj heq]
    exact (hdirect env).mp henv
  have hread' : ∀ env ∈ ops, ReadIn (direct.map fun env => .deliver ⟨env, true⟩) env :=
    fun env henv => .inl (List.mem_map.mpr ⟨env, (hdirect env).mpr henv, rfl⟩)
  have hrun : Parking c ch ops (run c ch events) :=
    (Parking.run hd hfits hops (parking_empty c ch ops)).1
  have hrun' : Parking c ch ops (receiveAll c ch direct) := by
    rw [receiveAll_eq_run]
    exact (Parking.run hd hfits hops' (parking_empty c ch ops)).1
  have hall : v.log.ReadAll ops := Parking.readAll hd hfits hops hread
  have hall' : w.log.ReadAll ops := by
    have := @Parking.readAll c ch _ hd hfits _ hops' hread'
    rwa [← receiveAll_eq_run] at this
  have hcore : v.log.core = w.log.core :=
    hrun.received.core_eq hrun'.received hd (fun env henv => (hfits env henv).1) hall hall'
  -- so the logs hold the same ops, and the same groups are complete
  have hholds : ∀ op, v.log.Holds op ↔ w.log.Holds op := by
    intro op
    have hreadAt : ∀ r, v.log.readAt r = w.log.readAt r :=
      OpLog.readAt_of_frame (OpLog.frame_of_skeleton (OpLog.skeleton_of_core hcore))
    exact ⟨.of_readAt fun r _ => (hreadAt r).symm, .of_readAt fun r _ => hreadAt r⟩
  have hcomplete : ∀ g, v.log.Complete g ↔ w.log.Complete g := fun g =>
    ⟨.mono fun op hh _ => (hholds op).mp hh, .mono fun op hh _ => (hholds op).mpr hh⟩
  have hfolded : ∀ op, op ∈ folded ↔ op ∈ (receiveAll c ch direct).2 := by
    intro op
    rw [hrun.inv.folded, hrun'.inv.folded]
    unfold OpLog.Folds
    simp only [v, w] at hholds hcomplete
    simp only [hholds, hcomplete]
  have hmem : ∀ op ∈ folded, op ∈ ops.filterMap (·.op) := by
    intro op hop
    obtain ⟨⟨hseq, env, henv, hop'⟩, -⟩ := (hrun.inv.folded op).mp hop
    obtain ⟨row, hrow, rfl⟩ := Option.map_eq_some_iff.mp henv
    have hrow' := (Option.filter_eq_some_iff.mp hrow).1
    exact List.mem_filterMap.mpr ⟨row.env, (hrun.received.row _ _ _ row hrow').1, hop'⟩
  have hstore : v.store = w.store := by
    rw [hrun.inv.store, hrun'.inv.store]
    refine mergeOps_congr c (distinctOps_of_nodup hrun.inv.nodup) ?_ hfolded
    exact fun o ho o' ho' => hkind o (hmem o ho) o' (hmem o' ho')
  refine ⟨hcore, hstore, fun id => by rw [hstore], fun k => ?_, hrun.inv.nodup, hfolded⟩
  -- a member is listed where it is held, and marked where its group is complete
  have hlists : (v.pending.find k).isSome ↔ (w.pending.find k).isSome := by
    have h := hrun.inv.lists (ofLex k).1 (ofLex k).2
    have h' := hrun'.inv.lists (ofLex k).1 (ofLex k).2
    exact h.trans (.trans (by simp only [v, w] at hholds; simp only [hholds]) h'.symm)
  cases hf : v.pending.find k with
  | none =>
    rw [hf] at hlists
    have hnone : ¬ (w.pending.find k).isSome := fun h => by simpa using hlists.mpr h
    rw [Option.not_isSome_iff_eq_none.mp hnone]
  | some row =>
    rw [hf] at hlists
    obtain ⟨row', hf'⟩ := Option.isSome_iff_exists.mp (hlists.mp rfl)
    have h := hrun.inv.applied (ofLex k).1 (ofLex k).2 row hf
    have h' := hrun'.inv.applied (ofLex k).1 (ofLex k).2 row' hf'
    rw [hf', Option.map_some, Option.map_some, Option.some.injEq, Bool.eq_iff_iff, h, h']
    exact hcomplete _

/-- Device 2's member is parked, device 1's is read, and a later build retries the first. -/
def parkedRename : List Event :=
  [.deliver ⟨groupRename, false⟩, .deliver ⟨groupCreate, true⟩,
    .replay [groupRename.ref] fun _ => true]

theorem run_eq_receiveAll_parked_rename :
    (run .short .sample parkedRename).1.log.core =
        (receiveAll .short .sample [groupCreate, groupRename]).1.log.core ∧
      (run .short .sample parkedRename).1.store =
        (receiveAll .short .sample [groupCreate, groupRename]).1.store := by
  have hd : OpLog.OneAt [groupCreate, groupRename] := by
    intro a ha b hb href
    simp only [List.mem_cons, List.not_mem_nil, or_false] at ha hb
    rcases ha with rfl | rfl <;> rcases hb with rfl | rfl <;> first | rfl | simp_all [groupCreate,
      groupRename]
  have hfits : ∀ env ∈ [groupCreate, groupRename], env.Fits := by
    intro env henv
    simp only [List.mem_cons, List.not_mem_nil, or_false] at henv
    rcases henv with rfl | rfl
    · refine ⟨by decide, fun op g hop hg => ?_⟩
      obtain rfl := Option.some.inj hop
      obtain rfl := Option.some.inj hg
      decide
    · refine ⟨by decide, fun op g hop hg => ?_⟩
      obtain rfl := Option.some.inj hop
      obtain rfl := Option.some.inj hg
      decide
  have hkind : OneKind ([groupCreate, groupRename].filterMap (·.op)) := by
    unfold OneKind
    decide
  have hops : ∀ dl, .deliver dl ∈ parkedRename → dl.env ∈ [groupCreate, groupRename] := by
    intro dl hdl
    simp only [parkedRename, List.mem_cons, Event.deliver.injEq, reduceCtorEq, List.not_mem_nil,
      or_false] at hdl
    rcases hdl with rfl | rfl <;> simp
  have hread : ∀ env ∈ [groupCreate, groupRename], ReadIn parkedRename env := by
    intro env henv
    simp only [List.mem_cons, List.not_mem_nil, or_false] at henv
    rcases henv with rfl | rfl
    · exact .inl (by simp [parkedRename])
    · exact .inr ⟨[.deliver ⟨groupRename, false⟩, .deliver ⟨groupCreate, true⟩],
        [groupRename.ref], fun _ => true, [], false, rfl, by simp, by simp, rfl⟩
  have h := run_eq_receiveAll .short .sample .sample [groupCreate, groupRename] hd hfits hkind
    parkedRename hops hread [groupCreate, groupRename] fun _ => Iff.rfl
  exact ⟨h.1, h.2.1⟩

/-- A member of a group with more members than the store can count. -/
def hugeGroup : Envelope where
  ref := ⟨7, 1, 1⟩
  hlc := ⟨1, 0⟩
  opHash := 1
  inner := .entity ⟨.task, 1⟩
    (.patch true false (some []) (some (9, 2 ^ 63)) [("title", .set (.text "a"))])

/-- A build that parks it has a row of it, which no replay releases. A build that reads it
refuses it. -/
theorem run_ne_receiveAll_huge_group :
    let v := (run .short .sample [.deliver ⟨hugeGroup, false⟩,
      .replay [hugeGroup.ref] fun _ => true]).1
    let w := (receiveAll .short .sample [hugeGroup]).1
    (v.log.rowAt hugeGroup.ref).isSome ∧ (v.log.devs 7 1).cursorSeq = 1 ∧
      (w.log.rowAt hugeGroup.ref).isNone ∧ (w.log.devs 7 1).cursorSeq = 0 := by
  decide +kernel

end Vault

end Sunrise
