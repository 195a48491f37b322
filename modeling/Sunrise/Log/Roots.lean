import Sunrise.Log.Forks

/-!
# Which roots are stored

Every write of the log that moves a cursor extends the chain roots to it, so a row has a
root exactly where it is above the floor and inside the prefix. A row at or below the floor
may have one, from before the floor rose.
-/

namespace Sunrise

namespace DeviceLog

variable {c : ChainHash} {init : Hash} {d d' : DeviceLog}

/-- Roots are stored up to the cursor. -/
structure Stepped (d : DeviceLog) : Prop where
  /-- A row outside the prefix, above the cursor or at 0, has none. -/
  outside : ∀ n row, d.rows.find n = some row → n = 0 ∨ d.cursorSeq < n → row.chainRoot = none
  within : ∀ n row, d.rows.find n = some row → d.floorSeq < n → n ≤ d.cursorSeq →
    row.chainRoot.isSome

theorem stepped_empty : (∅ : DeviceLog).Stepped where
  outside n row h := by simp [EmptyCollection.emptyCollection, DeviceLog.empty, Table.find,
    Table.empty] at h
  within n row h := by simp [EmptyCollection.emptyCollection, DeviceLog.empty, Table.find,
    Table.empty] at h

theorem Stepped.of_core (h : d.core = d'.core) (hd : d.Stepped) : d'.Stepped := by
  obtain ⟨hr, hf, hc⟩ := core_eq_iff.mp h
  have hfloor : d'.floorSeq = d.floorSeq := by rw [floorSeq, floorSeq, hf]
  have hcursor : d'.cursorSeq = d.cursorSeq := by rw [cursorSeq, cursorSeq, hc]
  refine ⟨fun n row hrow => ?_, fun n row hrow => ?_⟩
  · rw [hcursor]
    exact hd.outside n row (hr ▸ hrow)
  · rw [hcursor, hfloor]
    exact hd.within n row (hr ▸ hrow)

theorem roots_extendRoots {n seq : ℕ} {root : Hash} (hn : seq + n ≤ storeMax) {m : ℕ}
    {row' : LogRow} (hrow' : (extendRoots c n d seq root).1.rows.find m = some row') :
    ∃ row, d.rows.find m = some row ∧ (row'.chainRoot = row.chainRoot ∨
      row'.chainRoot.isSome ∧ seq < m ∧ m ≤ seq + n) := by
  induction n generalizing d seq root with
  | zero => exact ⟨row', hrow', .inl rfl⟩
  | succ n ih =>
    unfold extendRoots at hrow'
    split at hrow'
    · exact ⟨row', hrow', .inl rfl⟩
    next h _ =>
      obtain ⟨row, hrow, hcase⟩ := ih (by omega) hrow'
      rw [find_setRoot, i64Of_eq_self.mpr (by omega)] at hrow
      split at hrow
      next heq =>
        obtain ⟨row₀, hrow₀, rfl⟩ := Option.map_eq_some_iff.mp hrow
        refine ⟨row₀, hrow₀, .inr ⟨?_, by omega, by omega⟩⟩
        rcases hcase with hc | ⟨hc, -⟩
        · rw [hc]
          rfl
        · exact hc
      next =>
        refine ⟨row, hrow, hcase.imp_right ?_⟩
        rintro ⟨hs, h1, h2⟩
        exact ⟨hs, by omega, by omega⟩

theorem isSome_extendRoots {n seq : ℕ} {root : Hash} (hn : seq + n ≤ storeMax)
    (hheld : ∀ m, seq < m → m ≤ seq + n → (d.rows.find m).isSome) {m : ℕ} {row' : LogRow}
    (hrow' : (extendRoots c n d seq root).1.rows.find m = some row') (h1 : seq < m)
    (h2 : m ≤ seq + n) : row'.chainRoot.isSome := by
  induction n generalizing d seq root with
  | zero => omega
  | succ n ih =>
    obtain ⟨row₁, hrow₁⟩ := Option.isSome_iff_exists.mp (hheld (seq + 1) (by omega) (by omega))
    have hhash : d.heldOpHash (seq + 1) = some row₁.env.opHash := by
      unfold heldOpHash
      rw [i64Of_eq_self.mpr (by omega), hrow₁]
    unfold extendRoots at hrow'
    rw [hhash] at hrow'
    dsimp only at hrow'
    by_cases hm : m = seq + 1
    · subst hm
      obtain ⟨row, hrow, hcase⟩ := roots_extendRoots (by omega) hrow'
      rcases hcase with hc | ⟨hc, -⟩
      · rw [find_setRoot, i64Of_eq_self.mpr (by omega), if_pos rfl] at hrow
        obtain ⟨row₀, -, rfl⟩ := Option.map_eq_some_iff.mp hrow
        rw [hc]
        rfl
      · exact hc
    · refine ih (by omega) (fun k hk1 hk2 => ?_) hrow' (by omega) (by omega)
      rw [isSome_of_skeleton (skeleton_setRoot ..)]
      exact hheld k (by omega) (by omega)

theorem le_resume_of_root {upTo n : ℕ} {row : LogRow} (hmax : upTo ≤ storeMax)
    (hrow : d.rows.find n = some row) (hroot : row.chainRoot.isSome) (hn : n ≤ upTo) :
    n ≤ (d.resume init upTo).1 := by
  have hstored : ∃ s, ((d.rows.rows.filter fun r =>
      decide (r.1 ≤ i64Of upTo) && r.2.chainRoot.isSome).getLast?.bind fun r =>
        r.2.chainRoot.map fun root => (r.1, root)) = some s ∧ n ≤ s.1 := by
    have hmem : (n, row) ∈ d.rows.rows.filter fun r =>
        decide (r.1 ≤ i64Of upTo) && r.2.chainRoot.isSome := by
      rw [List.mem_filter]
      exact ⟨Table.mem_rows.mpr hrow, by simp [i64Of_eq_self.mpr hmax, hn, hroot]⟩
    obtain ⟨r, hr⟩ := Option.isSome_iff_exists.mp
      (List.getLast?_isSome.mpr (List.ne_nil_of_mem hmem))
    obtain ⟨hr₁, hr₂, hr₃⟩ := Table.getLast?_filter_rows.mp hr
    simp only [Bool.and_eq_true] at hr₂
    obtain ⟨root, hroot'⟩ := Option.isSome_iff_exists.mp hr₂.2
    refine ⟨(r.1, root), ?_, hr₃ _ (List.mem_filter.mp hmem).1 (List.mem_filter.mp hmem).2⟩
    rw [hr, Option.bind_some, hroot']
    rfl
  obtain ⟨s, hs, hle⟩ := hstored
  unfold resume
  dsimp only
  rw [hs]
  split
  next s' f hs' _ =>
    obtain rfl := Option.some.inj hs'
    split
    · omega
    · exact hle
  next s' hs' _ =>
    obtain rfl := Option.some.inj hs'
    exact hle
  next hs' _ => simp at hs'
  next hs' _ => simp at hs'

theorem floorSeq_le_resume {upTo : ℕ} (h : d.floorSeq ≤ upTo) :
    d.floorSeq ≤ (d.resume init upTo).1 := by
  unfold floorSeq at h ⊢
  cases hf : d.floor with
  | none => exact Nat.zero_le _
  | some f =>
    rw [hf] at h
    have hle : f.seq ≤ upTo := h
    unfold resume
    dsimp only
    rw [hf, Option.filter_some, if_pos (by simpa using hle)]
    dsimp only [Option.map_some, Option.getD_some]
    split
    next s f' _ hf' =>
      obtain rfl := Option.some.inj hf'
      split
      · exact le_rfl
      next hlt => exact Nat.not_lt.mp hlt
    next hf' => simp at hf'
    next f' _ hf' =>
      obtain rfl := Option.some.inj hf'
      exact le_rfl
    next hf' => simp at hf'

theorem resume_cases (init : Hash) (d : DeviceLog) (upTo : ℕ) :
    (d.resume init upTo).1 ≤ d.floorSeq ∨
      ∃ row, d.rows.find (d.resume init upTo).1 = some row ∧ row.chainRoot.isSome := by
  rcases resume_spec init d upTo with h | ⟨-, ⟨f, hf, h⟩ | ⟨row, hrow, hroot⟩⟩
  · exact .inl (h ▸ Nat.zero_le _)
  · refine .inl ?_
    rw [h, floorSeq, hf]
    exact le_rfl
  · exact .inr ⟨row, hrow, Option.isSome_of_eq_some hroot⟩

theorem roots_foldChain {upTo : ℕ} (hmax : upTo ≤ storeMax) {m : ℕ} {row' : LogRow}
    (hrow' : (d.foldChain c init upTo).rows.find m = some row') :
    ∃ row, d.rows.find m = some row ∧ (row'.chainRoot = row.chainRoot ∨
      row'.chainRoot.isSome ∧ (d.resume init upTo).1 < m ∧ m ≤ upTo) := by
  unfold foldChain at hrow'
  split at hrow'
  · exact ⟨row', hrow', .inl rfl⟩
  · have hle := resume_le init d upTo
    dsimp only at hrow'
    rw [(core_eq_iff.mp (core_checkClaims ..)).1] at hrow'
    obtain ⟨row, hrow, hcase⟩ := roots_extendRoots (by omega) hrow'
    refine ⟨row, hrow, hcase.imp_right ?_⟩
    rintro ⟨hs, h1, h2⟩
    exact ⟨hs, h1, by omega⟩

theorem isSome_foldChain {upTo : ℕ} (hmax : upTo ≤ storeMax)
    (hheld : ∀ m, (d.resume init upTo).1 < m → m ≤ upTo → (d.rows.find m).isSome) {m : ℕ}
    {row' : LogRow} (hrow' : (d.foldChain c init upTo).rows.find m = some row')
    (h1 : (d.resume init upTo).1 < m) (h2 : m ≤ upTo) : row'.chainRoot.isSome := by
  unfold foldChain at hrow'
  rw [if_neg (by omega)] at hrow'
  have hle := resume_le init d upTo
  dsimp only at hrow'
  rw [(core_eq_iff.mp (core_checkClaims ..)).1] at hrow'
  exact isSome_extendRoots (by omega) (fun k hk1 hk2 => hheld k hk1 (by omega)) hrow' h1 (by omega)

section

variable (hd : d.Stepped)
include hd

theorem Stepped.foldChain {upTo : ℕ} (hmax : upTo ≤ storeMax)
    (hle : upTo ≤ d.cursorSeq) : (d.foldChain c init upTo).Stepped := by
  have hskel : (d.foldChain c init upTo).skeleton = d.skeleton := skeleton_foldChain ..
  refine ⟨fun m row' hrow' hm => ?_, fun m row' hrow' hm hm' => ?_⟩
  · rw [cursorSeq_of_skeleton hskel] at hm
    obtain ⟨row, hrow, hcase⟩ := roots_foldChain hmax hrow'
    rcases hcase with hc | ⟨-, h1, h2⟩
    · rw [hc]
      exact hd.outside m row hrow hm
    · omega
  · rw [cursorSeq_of_skeleton hskel] at hm'
    rw [floorSeq_of_skeleton hskel] at hm
    obtain ⟨row, hrow, hcase⟩ := roots_foldChain hmax hrow'
    rcases hcase with hc | ⟨hc, -⟩
    · rw [hc]
      exact hd.within m row hrow hm hm'
    · exact hc

/-- **Advancing the cursor stores the roots up to it.** -/
theorem Stepped.upsertSyncCursor (hs : d.Sound) :
    (d.upsertSyncCursor c init).Stepped := by
  have hfloor := floorSeq_upsertSyncCursor c init d
  have hcursor := cursorSeq_upsertSyncCursor c init d
  have hmaxc := hs.cursorSeq_le
  have hstart : 1 ≤ (if max d.floorSeq d.cursorSeq + 1 ≤ storeMax then
      max d.floorSeq d.cursorSeq + 1 else 1) := by
    split <;> omega
  set start := if max d.floorSeq d.cursorSeq + 1 ≤ storeMax then
    max d.floorSeq d.cursorSeq + 1 else 1 with hst
  obtain ⟨hrun, -, hge⟩ := d.opsRunEnd_spec hstart
  have hend : d.opsRunEnd start ≤ storeMax := by
    refine hs.opsRunEnd_le hstart ?_
    rw [hst]
    split
    · assumption
    · simp [storeMax]
  set d₁ : DeviceLog := { d with cursor := some (max d.cursorSeq (d.opsRunEnd start)) } with hd₁
  have hup : d.upsertSyncCursor c init = d₁.foldChain c init (d.opsRunEnd start) := rfl
  have hres := resume_cases init d₁ (d.opsRunEnd start)
  have hcur₁ : d₁.cursorSeq = max d.cursorSeq (d.opsRunEnd start) := rfl
  rw [hup] at hfloor hcursor ⊢
  refine ⟨fun m row' hrow' hm => ?_, fun m row' hrow' hm hm' => ?_⟩
  · obtain ⟨row, hrow, hcase⟩ := roots_foldChain hend hrow'
    rw [hcursor] at hm
    rcases hcase with hc | ⟨-, h1, h2⟩
    · rw [hc]
      exact hd.outside m row hrow (by omega)
    · omega
  · rw [hfloor] at hm
    rw [hcursor] at hm'
    by_cases hle : m ≤ d.cursorSeq
    · obtain ⟨row, hrow, hcase⟩ := roots_foldChain hend hrow'
      rcases hcase with hc | ⟨hc, -⟩
      · rw [hc]
        exact hd.within m row hrow hm hle
      · exact hc
    · -- a new row of the prefix: the fold resumes at the old cursor or the floor
      have hmle : m ≤ d.opsRunEnd start := by omega
      have hstart' : start = max d.floorSeq d.cursorSeq + 1 := by
        rw [hst, if_pos (by omega)]
      have hresume_lt : (d₁.resume init (d.opsRunEnd start)).1 < m := by
        rcases hres with h | ⟨row, hrow, hroot⟩
        · exact lt_of_le_of_lt h hm
        · by_contra hge'
          rw [hd.outside _ row hrow (by omega)] at hroot
          simp at hroot
      have hresume_ge : start ≤ (d₁.resume init (d.opsRunEnd start)).1 + 1 := by
        have h₁ : d.floorSeq ≤ (d₁.resume init (d.opsRunEnd start)).1 :=
          floorSeq_le_resume (d := d₁) (show d.floorSeq ≤ _ by omega)
        have h₂ : d.floorSeq < d.cursorSeq →
            d.cursorSeq ≤ (d₁.resume init (d.opsRunEnd start)).1 := by
          intro hlt
          rcases hs.contiguous d.cursorSeq (by omega) le_rfl with h | h
          · omega
          · obtain ⟨row, hrow⟩ := Option.isSome_iff_exists.mp h
            exact le_resume_of_root (d := d₁) hend hrow (hd.within _ row hrow hlt le_rfl) (by omega)
        omega
      have hheld : ∀ k, (d₁.resume init (d.opsRunEnd start)).1 < k → k ≤ d.opsRunEnd start →
          (d₁.rows.find k).isSome := fun k hk1 hk2 => hrun k (by omega) hk2
      exact isSome_foldChain hend hheld hrow' hresume_lt hmle

theorem Stepped.insert {n : ℕ} {row : LogRow}
    (hnew : (row.chainRoot = none ∧ (d.cursorSeq < n ∨ n ≤ d.floorSeq)) ∨
      ∃ old, d.rows.find n = some old ∧ row.chainRoot = old.chainRoot) :
    ({ d with rows := d.rows.upsert n row } : DeviceLog).Stepped := by
  have hfind : ∀ m row', (d.rows.upsert n row).find m = some row' →
      (∃ old, d.rows.find m = some old ∧ row'.chainRoot = old.chainRoot) ∨
        (row'.chainRoot = none ∧ (d.cursorSeq < m ∨ m ≤ d.floorSeq)) := by
    intro m row' hrow'
    by_cases hm : m = n
    · subst hm
      rw [Table.find_upsert_self, Option.some.injEq] at hrow'
      subst hrow'
      rcases hnew with ⟨hr, hlt⟩ | hold
      · exact .inr ⟨hr, hlt⟩
      · exact .inl hold
    · rw [Table.find_upsert_of_ne _ _ hm] at hrow'
      exact .inl ⟨row', hrow', rfl⟩
  refine ⟨fun m row' hrow' hm => ?_, fun m row' hrow' hm hm' => ?_⟩
  · rcases hfind m row' hrow' with ⟨old, hold, hr⟩ | ⟨hr, -⟩
    · rw [hr]
      exact hd.outside m old hold hm
    · exact hr
  · rcases hfind m row' hrow' with ⟨old, hold, hr⟩ | ⟨-, hlt | hlt⟩
    · rw [hr]
      exact hd.within m old hold hm hm'
    · exact absurd hm' (Nat.not_le.mpr hlt)
    · exact absurd hm (Nat.not_lt.mpr hlt)

theorem Stepped.raiseFloor (hs : d.Sound) (f : Floor) :
    (d.raiseFloor f).Stepped := by
  have hle := le_floorSeq_raiseFloor hs.floor_le f
  refine ⟨fun m row hrow hm => ?_, fun m row hrow hm hm' => ?_⟩
  · rw [rows_raiseFloor] at hrow
    rw [cursorSeq_raiseFloor] at hm
    exact hd.outside m row hrow hm
  · rw [rows_raiseFloor] at hrow
    rw [cursorSeq_raiseFloor] at hm'
    exact hd.within m row hrow (by omega) hm'

theorem Stepped.filter (p : ℕ → LogRow → Bool) :
    ({ d with rows := d.rows.filter p } : DeviceLog).Stepped where
  outside m row hrow := hd.outside m row (Table.find_filter_eq_some.mp hrow).1
  within m row hrow := hd.within m row (Table.find_filter_eq_some.mp hrow).1

theorem Stepped.compareEntry (hs : d.Sound) (peer : Device)
    (e : FrontierEntry) : (d.compareEntry c init peer e).Stepped := by
  rcases compareEntry_core c init peer d e with h | h
  · exact hd.of_core h.symm
  · exact (hd.foldChain hs.cursorSeq_le le_rfl).of_core h.symm

end

end DeviceLog

namespace OpLog

variable {c : ChainHash} {log l : OpLog}

/-- Every device's roots are stored up to its cursor. -/
def Stepped (log : OpLog) : Prop := ∀ s dev, (log.devs s dev).Stepped

theorem Stepped.of_core {log' : OpLog} (h : log.core = log'.core) (hl : log.Stepped) :
    log'.Stepped :=
  fun s dev => (hl s dev).of_core (core_apply h s dev)

theorem Stepped.modify (hl : log.Stepped) {s : StreamId} {dev : Device}
    {f : DeviceLog → DeviceLog} (hf : (f (log.devs s dev)).Stepped) :
    (log.modify s dev f).Stepped := by
  intro s' dev'
  rw [devs_modify]
  split
  · exact hf
  · exact hl s' dev'

theorem cursorSeq_lt_of_accepts (hs : log.Sound) {env : Envelope} (ha : log.Accepts env) :
    (log.devs env.ref.stream env.ref.device).cursorSeq < env.ref.seq ∨
      env.ref.seq ≤ (log.devs env.ref.stream env.ref.device).floorSeq := by
  obtain ⟨-, hmax, hrow⟩ := ha
  unfold rowAt at hrow
  rw [i64Of_eq_self.mpr hmax] at hrow
  by_contra h
  push Not at h
  rcases (hs env.ref.stream env.ref.device).contiguous _ (by omega) h.1 with h' | h'
  · omega
  · rw [hrow] at h'
    simp at h'

section

variable (hl : log.Stepped)
include hl

theorem Stepped.insertRow (hs : log.Sound) {env : Envelope} {row : LogRow}
    (hmax : env.ref.seq ≤ storeMax)
    (hnew : (log.Accepts env ∧ row.chainRoot = none) ∨
      ∃ old, log.rowAt env.ref = some old ∧ row.chainRoot = old.chainRoot) :
    (log.insertRow env row).Stepped := by
  refine hl.modify ((hl _ _).insert ?_)
  rcases hnew with ⟨ha, hr⟩ | ⟨old, hold, hr⟩
  · exact .inl ⟨hr, cursorSeq_lt_of_accepts hs ha⟩
  · unfold rowAt at hold
    rw [i64Of_eq_self.mpr hmax] at hold
    exact .inr ⟨old, hold, hr⟩

theorem Stepped.advance (hs : log.Sound) (env : Envelope) :
    (log.advance c env).Stepped :=
  hl.modify ((hl _ _).upsertSyncCursor (hs _ _))

theorem Stepped.absorb (hs : log.Sound) (env : Envelope) :
    (log.absorb c env).Stepped :=
  absorb_each (fun _ _ _ _ h hd => hd.of_core h)
    (fun _ _ _ peer e hs hd => hd.compareEntry hs peer e)
    (fun _ _ _ hs hd => hd.upsertSyncCursor hs) hl hs env

theorem Stepped.append (hs : log.Settled) (draft : Envelope) :
    (log.append c draft).Stepped := by
  unfold OpLog.append
  dsimp only
  split
  next hn =>
    set n := (log.devs draft.ref.stream draft.ref.device).nextSeq with hnext
    set env : Envelope := { draft with ref := { draft.ref with seq := n } }
    have hlt : (log.devs env.ref.stream env.ref.device).cursorSeq < n := by
      have hd := (hs draft.ref.stream draft.ref.device).toSound
      rcases Nat.eq_zero_or_pos (log.devs draft.ref.stream draft.ref.device).cursorSeq with
        h0 | hpos
      · show (log.devs draft.ref.stream draft.ref.device).cursorSeq < n
        rw [h0, hnext]
        unfold DeviceLog.nextSeq
        omega
      · rcases hd.contiguous _ hpos le_rfl with h | h
        · exact lt_of_le_of_lt h (DeviceLog.floorSeq_lt_nextSeq _)
        · exact DeviceLog.lt_nextSeq _ h
    have hl' : (log.insertRow env ⟨env, env.inner.kind, true, false, none⟩).Stepped :=
      hl.modify ((hl _ _).insert (.inl ⟨rfl, .inl hlt⟩))
    exact hl'.advance (hs.sound.insertRow hn _) env
  next => exact hl

theorem Stepped.deliver (hs : log.Sound) (dl : Delivery) :
    (log.deliver c dl).Stepped := by
  have hnew (ha : log.Accepts dl.env) (kind : LogKind) (applied parked : Bool) :
      (log.insertRow dl.env ⟨dl.env, kind, applied, parked, none⟩).Stepped :=
    hl.insertRow hs ha.2.1 (.inl ⟨ha, rfl⟩)
  have hd := log.delivers c dl
  generalize log.deliver c dl = log' at hd
  cases hd with
  | covered => exact hl.of_core (core_checkCovered ..).symm
  | misplaced => exact hl
  | duplicate => exact hl.of_core (core_checkDuplicate ..).symm
  | read ha => exact (hnew ha _ _ _).absorb (hs.insertRow ha.2.1 _) _
  | @released row hmax hrow =>
    have hl' : (log.insertRow dl.env
        { row with kind := dl.env.inner.kind, applied := true, parked := false }).Stepped :=
      hl.insertRow hs hmax (.inr ⟨row, hrow, rfl⟩)
    exact hl'.absorb (hs.insertRow hmax _) _
  | parked ha =>
    exact ((hnew ha _ _ _).of_core (core_checkLinks ..).symm).advance
      ((hs.insertRow ha.2.1 _).of_skeleton (skeleton_of_core (core_checkLinks ..)).symm) _

theorem Stepped.compactStream (hs : log.Sound) (view : CompactionView)
    (s : StreamId) : (log.compactStream c view s).Stepped := by
  intro s' dev
  unfold OpLog.compactStream
  dsimp only
  split
  next h =>
    obtain ⟨rfl, -⟩ := h
    have hmax := (hs s' dev).cursorSeq_le
    have hfold : ((log.devs s' dev).foldChain c (c.init s' dev)
        (log.devs s' dev).cursorSeq).Stepped := (hl s' dev).foldChain hmax le_rfl
    have hsfold := (hs s' dev).of_skeleton (DeviceLog.skeleton_foldChain c (c.init s' dev)
      (log.devs s' dev) (log.devs s' dev).cursorSeq).symm
    unfold compactDevice
    dsimp only
    split
    · exact hl s' dev
    · split
      · exact (hfold.raiseFloor hsfold _).filter _
      · exact hfold
  next => exact hl s' dev

theorem Stepped.foldAt (hs : log.Sound) (s : StreamId) (dev : Device)
    (n : ℕ) : (log.foldAt c s dev n).Stepped := by
  unfold OpLog.foldAt
  split
  · exact hl.modify ((hl s dev).foldChain (hs s dev).cursorSeq_le le_rfl)
  · exact hl

theorem Stepped.adopt (hs : log.Sound) (s : StreamId) (e : SnapshotEntry) :
    (adopt c s log e).Stepped := by
  have hraised : (log.modify s e.device (·.raiseFloor e.floor)).Stepped :=
    hl.modify ((hl s e.device).raiseFloor (hs s e.device) e.floor)
  have hsraised : (log.modify s e.device (·.raiseFloor e.floor)).Sound := by
    intro s' dev
    rw [devs_modify]
    split
    · exact (hs s e.device).raiseFloor e.floor
    · exact hs s' dev
  unfold OpLog.adopt
  dsimp only
  split
  · exact hraised.modify ((hraised s e.device).upsertSyncCursor (hsraised s e.device))
  · have hcore := core_settleBelowFloor (log.modify s e.device (·.raiseFloor e.floor)) s e.device
      e.floor
    have hl' := hraised.of_core hcore.symm
    exact hl'.modify ((hl' s e.device).upsertSyncCursor
      (hsraised.of_skeleton (skeleton_of_core hcore).symm s e.device))

end

/-- **Every write keeps the roots stored up to the cursors.** -/
theorem Later.stepped (h : Later c log l) (hs : log.Settled) (hl : log.Stepped) : l.Stepped := by
  induction h with
  | refl => exact hl
  | append h draft ih => exact ih.append (h.settled hs) draft
  | deliver h dl ih => exact ih.deliver (h.settled hs).sound dl
  | compact h view s ih => exact ih.compactStream (h.settled hs).sound view s
  | foldAt h s dev n ih => exact ih.foldAt (h.settled hs).sound s dev n
  | adopt h s e ih => exact ih.adopt (h.settled hs).sound s e

theorem stepped_run (c : ChainHash) (events : List Event) : (run c events).Stepped :=
  (later_run c events).stepped (fun _ _ => DeviceLog.settled_empty)
    fun _ _ => DeviceLog.stepped_empty

end OpLog

end Sunrise
