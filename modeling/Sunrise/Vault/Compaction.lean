import Sunrise.Log.Forks
import Sunrise.Log.Roots
import Sunrise.Vault.Groups
import Sunrise.Merge.Project

/-!
# Compaction is safe

A compaction of a stream raises, device by device, the floor to a position that every known
device has acknowledged, and deletes the ops at or below it whose whole effect is in the merge
tables. An op still waits, and is kept, where its group is not complete, where it is in the
outbox and the relay has not acknowledged it, or where it named the predecessor or the tip
that a position still missing must have.

The tables a compaction reads beside the log are those of the vault, the outbox, and which
devices are known. Nothing is asked of them: the log is that of any run.

* `OpLog.Gone`, `OpLog.Later.gone` — a deleted op stays covered.
* `Client.compactStream_spec` — **compaction is safe**.
-/

namespace Sunrise

/-- A client's tables: its vault, and the outbox. -/
structure Client extends Vault where
  me : Device
  /-- `outbox`: the local ops to publish, and whether the relay has acknowledged each. -/
  outbox : Table OpRef Bool

/-- This replica's entry for a device in the frontier of a stream it would publish. -/
def DeviceLog.frontierEntry (c : ChainHash) (init : Hash) (dev : Device) (d : DeviceLog) :
    Option FrontierEntry :=
  if d.cursorSeq = 0 then none
  else match d.rootAt init d.cursorSeq with
    | some root => some ⟨dev, d.cursorSeq, root⟩
    -- a cursor from before the chain
    | none => ((d.foldChain c init d.cursorSeq).rootAt init d.cursorSeq).map fun root =>
      ⟨dev, d.cursorSeq, root⟩

open DeviceLog

def OpLog.frontier (c : ChainHash) (log : OpLog) (s : StreamId) (dev : Device) :
    Option FrontierEntry :=
  (log.devs s dev).frontierEntry c (c.init s dev) dev

open OpLog

namespace Client

/-- The highest position of a device's prefix that every known device has acknowledged. -/
def acknowledged (x : Client) (known : List Device) (s : StreamId) (dev : Device) : ℕ :=
  known.foldl
    (fun ack k => if k = x.me then ack
      else min ack (((x.log.devs s dev).acks.find k).getD 0))
    (x.log.devs s dev).cursorSeq

/-- Whether a member of a group is still held out of the fold. -/
def isHeld (x : Client) (r : OpRef) : Bool :=
  x.pending.rows.any fun row => decide ((ofLex row.1).2 = r) && !row.2.applied

def view (x : Client) (known : List Device) (cutoff : ℕ) (s : StreamId) :
    OpLog.CompactionView where
  acknowledged dev := some (x.acknowledged known s dev)
  cutoff := cutoff
  waiting r := x.isHeld r || x.outbox.find r == some false

/-- Fold one stream. The outbox rows of the ops it deletes go with them. -/
def compactStream (c : ChainHash) (x : Client) (known : List Device) (cutoff : ℕ)
    (s : StreamId) : Client :=
  let log := x.log.compactStream c (x.view known cutoff s) s
  { x with
    log
    outbox := x.outbox.filter fun r _ => (x.log.rowAt r).isNone || (log.rowAt r).isSome }

end Client

/-! ### One device -/

namespace DeviceLog

variable {d d' : DeviceLog} {init : Hash} {c : ChainHash}

theorem exists_root_at_cursor (hd : d.Stepped) (hs : d.Sound) (h : d.floorSeq < d.cursorSeq) :
    ∃ row root, d.rows.find d.cursorSeq = some row ∧ row.chainRoot = some root := by
  have hcov : d.Covers d.cursorSeq := hs.contiguous d.cursorSeq (by omega) le_rfl
  have hheld : (d.rows.find d.cursorSeq).isSome := hcov.resolve_left (Nat.not_le.mpr h)
  obtain ⟨row, hrow⟩ := Option.isSome_iff_exists.mp hheld
  obtain ⟨root, hroot⟩ := Option.isSome_iff_exists.mp (hd.within _ row hrow h le_rfl)
  exact ⟨row, root, hrow, hroot⟩

theorem core_foldChain_of_stepped (hd : d.Stepped) (hs : d.Sound)
    (h : d.floorSeq < d.cursorSeq) : (d.foldChain c init d.cursorSeq).core = d.core := by
  obtain ⟨row, root, hrow, hroot⟩ := exists_root_at_cursor hd hs h
  have hle : d.cursorSeq ≤ (d.resume init d.cursorSeq).1 :=
    le_resume_of_root hs.cursorSeq_le hrow (by rw [hroot]; rfl) le_rfl
  unfold foldChain
  rw [if_neg (by omega)]
  dsimp only
  rw [core_checkClaims, Nat.sub_eq_zero_of_le hle]
  rfl

theorem frontierEntry_congr (hmax : d.cursorSeq ≤ storeMax) (hpos : 0 < d.cursorSeq)
    (hcursor : d'.cursorSeq = d.cursorSeq) {row : LogRow} {root : Hash}
    (hrow : d.rows.find d.cursorSeq = some row) (hrow' : d'.rows.find d.cursorSeq = some row)
    (hroot : row.chainRoot = some root) (dev : Device) :
    d'.frontierEntry c init dev = d.frontierEntry c init dev := by
  have hat : d.rootAt init d.cursorSeq = some root := by
    unfold rootAt
    rw [if_neg (by omega), i64Of_eq_self.mpr hmax, hrow, Option.bind_some, hroot]
  have hat' : d'.rootAt init d.cursorSeq = some root := by
    unfold rootAt
    rw [if_neg (by omega), i64Of_eq_self.mpr hmax, hrow', Option.bind_some, hroot]
  unfold frontierEntry
  rw [hcursor, hat, hat']

theorem nextSeq_eq {n : ℕ} (hfloor : d.floorSeq ≤ n) (hn : (d.rows.find n).isSome)
    (hlast : ∀ m, (d.rows.find m).isSome → m ≤ n) : d.nextSeq = n + 1 := by
  obtain ⟨row, hrow⟩ := Option.isSome_iff_exists.mp hn
  have hget : (d.rows.rows.filter fun _ => true).getLast? = some (n, row) := by
    refine Table.getLast?_filter_rows.mpr ⟨Table.mem_rows.mpr hrow, rfl, fun r hr _ => ?_⟩
    have hfind : d.rows.find r.1 = some r.2 := Table.mem_rows.mp hr
    exact hlast r.1 (by rw [hfind]; rfl)
  rw [List.filter_true] at hget
  unfold nextSeq
  rw [hget, Option.map_some, Option.getD_some]
  omega

theorem exists_last {n : ℕ} (hn : (d.rows.find n).isSome) :
    ∃ m, n ≤ m ∧ (d.rows.find m).isSome ∧ ∀ k, (d.rows.find k).isSome → k ≤ m := by
  obtain ⟨row, hrow⟩ := Option.isSome_iff_exists.mp hn
  have hmem : (n, row) ∈ d.rows.rows.filter fun _ => true := by
    rw [List.filter_true]
    exact Table.mem_rows.mpr hrow
  obtain ⟨r, hr⟩ := Option.isSome_iff_exists.mp
    (List.getLast?_isSome.mpr (List.ne_nil_of_mem hmem))
  obtain ⟨hr₁, -, hr₃⟩ := Table.getLast?_filter_rows.mp hr
  have hfind : d.rows.find r.1 = some r.2 := Table.mem_rows.mp hr₁
  refine ⟨r.1, hr₃ (n, row) (Table.mem_rows.mpr hrow) rfl, by rw [hfind]; rfl, fun k hk => ?_⟩
  obtain ⟨row', hrow'⟩ := Option.isSome_iff_exists.mp hk
  exact hr₃ (k, row') (Table.mem_rows.mpr hrow') rfl

end DeviceLog
/-! ### One stream -/

namespace OpLog

variable {c : ChainHash} {log l : OpLog} {s : StreamId} {dev : Device} {r : OpRef} {hash : Hash}

/-- What compacting a device does to it: its rows, floor and cursor stay, or the floor rises
to an op below the cursor and rows at or below it go. -/
theorem core_compactDevice (c : ChainHash) (view : CompactionView)
    (hd : (log.devs s dev).Stepped) (hs : (log.devs s dev).Sound) :
    let d := log.devs s dev
    let d' := log.compactDevice c view s dev
    d' = d ∨ d.floorSeq < d.cursorSeq ∧ (d'.core = d.core ∨
      ∃ target row root, d.floorSeq < target ∧ target < d.cursorSeq ∧
        (∀ a, view.acknowledged dev = some a → target ≤ a) ∧ d.rows.find target = some row ∧
        d'.floor = some ⟨target, row.env.opHash, root⟩ ∧ d'.cursor = d.cursor ∧
        ∀ n, d'.rows.find n =
          (d.rows.find n).filter fun row => !log.deletable view s dev target n row) := by
  intro d d'
  have hd' : d' = log.compactDevice c view s dev := rfl
  unfold compactDevice at hd'
  dsimp only at hd'
  split at hd'
  · exact .inl hd'
  next target htarget =>
    obtain ⟨hfloor, hcursor, hack, row, hrow, -⟩ := compactionTarget_spec htarget
    have hlt : d.floorSeq < d.cursorSeq := hfloor.trans hcursor
    have hcore := @core_foldChain_of_stepped _ (c.init s dev) c hd hs hlt
    obtain ⟨hrows, hf, hc⟩ := DeviceLog.core_eq_iff.mp hcore
    refine .inr ⟨hlt, ?_⟩
    split at hd'
    next opHash root hop hroot =>
      have hmax : target ≤ storeMax := hs.bounded target (by rw [hrow]; rfl)
      have hhash : opHash = row.env.opHash := by
        unfold heldOpHash at hop
        rw [hrows, i64Of_eq_self.mpr hmax, hrow] at hop
        exact (Option.some.inj hop).symm
      refine .inr ⟨target, row, root, hfloor, hcursor, hack, hrow, ?_, ?_, fun n => ?_⟩
      · rw [hd']
        show (raiseFloor _ _).floor = _
        unfold raiseFloor
        rw [floorSeq, hf, ← floorSeq, if_neg (Nat.not_le.mpr hfloor)]
        simp [hhash, hmax]
      · rw [hd']
        show (raiseFloor _ _).cursor = _
        rw [cursor_raiseFloor, hc]
      · rw [hd', Table.find_filter, rows_raiseFloor, hrows]
    next =>
      rw [hd']
      exact .inl hcore

theorem compactDevice_keeps (c : ChainHash) (view : CompactionView)
    (hd : (log.devs s dev).Stepped) (hs : (log.devs s dev).Sound) :
    let d := log.devs s dev
    let d' := log.compactDevice c view s dev
    d.floorSeq ≤ d'.floorSeq ∧ d'.cursor = d.cursor ∧ d'.nextSeq = d.nextSeq ∧
      d'.frontierEntry c (c.init s dev) dev = d.frontierEntry c (c.init s dev) dev := by
  intro d d'
  rcases core_compactDevice c view hd hs with (heq : d' = d) | ⟨hlt, h⟩
  · rw [heq]
    exact ⟨le_rfl, rfl, rfl, rfl⟩
  obtain ⟨row, root, hrow, hroot⟩ := exists_root_at_cursor hd hs hlt
  have hpos : 0 < d.cursorSeq := Nat.zero_lt_of_lt hlt
  have hmax : d.cursorSeq ≤ storeMax := hs.cursorSeq_le
  rcases h with hcore | ⟨target, trow, troot, (hfloor : d.floorSeq < target),
    (hcursor : target < d.cursorSeq), -, -, hf, hc, hfind⟩
  · obtain ⟨hrows, hf, hc⟩ := DeviceLog.core_eq_iff.mp hcore
    have hcs : d'.cursorSeq = d.cursorSeq := by rw [cursorSeq, hc, ← cursorSeq]
    have hfs : d'.floorSeq = d.floorSeq := by rw [floorSeq, hf, ← floorSeq]
    refine ⟨hfs.ge, hc, ?_, ?_⟩
    · unfold nextSeq
      rw [hfs, hrows]
    · exact frontierEntry_congr hmax hpos hcs hrow (by rw [hrows]; exact hrow)
        hroot dev
  · have hcs : d'.cursorSeq = d.cursorSeq := by rw [cursorSeq, hc, ← cursorSeq]
    have hfs : d'.floorSeq = target := by rw [floorSeq, hf]; rfl
    -- what is above the target is kept
    have hkept : ∀ n row, target < n → d.rows.find n = some row → d'.rows.find n = some row := by
      intro n row hn hrow
      rw [hfind, hrow, Option.filter_some, if_pos]
      simp [deletable, hn]
    refine ⟨by omega, hc, ?_, ?_⟩
    · obtain ⟨m, hm, hheld, hlast⟩ := exists_last (d := d) (n := d.cursorSeq)
        (by rw [hrow]; rfl)
      obtain ⟨mrow, hmrow⟩ := Option.isSome_iff_exists.mp hheld
      rw [nextSeq_eq (by omega) hheld hlast, nextSeq_eq (n := m) (by omega)]
      · rw [hkept m mrow (by omega) hmrow]
        rfl
      · intro k hk
        rw [hfind] at hk
        refine hlast k ?_
        obtain ⟨krow, hkrow⟩ := Option.isSome_iff_exists.mp hk
        rw [(Option.filter_eq_some_iff.mp hkrow).1]
        rfl
    · exact frontierEntry_congr hmax hpos hcs hrow
        (hkept _ _ (by omega) hrow) hroot dev

theorem devs_compactStream (view : CompactionView) (s' : StreamId) (dev : Device) :
    (log.compactStream c view s).devs s' dev = log.devs s' dev ∨
      s' = s ∧ (log.compactStream c view s).devs s' dev = log.compactDevice c view s dev := by
  unfold compactStream
  dsimp only
  split
  next h => exact .inr ⟨h.1, rfl⟩
  next => exact .inl rfl

/-! ### A deleted op stays covered -/

/-- The op of hash `hash` was at `r` and is deleted: the floor covers its position, and at
the floor itself the floor's hash is its. -/
def Gone (log : OpLog) (r : OpRef) (hash : Hash) : Prop :=
  log.rowAt r = none ∧ ∃ f, (log.devs r.stream r.device).floor = some f ∧ r.seq ≤ f.seq ∧
    (r.seq = f.seq → f.opHash = hash)

theorem heldAt_eq_none : log.heldAt r = none ↔ log.rowAt r = none := by
  rw [heldAt, Option.map_eq_none_iff]

theorem Gone.of_heldOnce (h : log.HeldOnce r hash) (hnone : log.heldAt r = none) :
    log.Gone r hash := by
  rcases h with ⟨env, henv, -⟩ | ⟨-, h⟩
  · rw [hnone] at henv
    simp at henv
  · exact ⟨heldAt_eq_none.mp hnone, h⟩

theorem Gone.heldOnce (h : log.Gone r hash) : log.HeldOnce r hash :=
  .inr ⟨heldAt_eq_none.mpr h.1, h.2⟩

theorem Gone.le_floorSeq (h : log.Gone r hash) :
    r.seq ≤ (log.devs r.stream r.device).floorSeq := by
  obtain ⟨-, f, hf, hle, -⟩ := h
  rwa [floorSeq, hf]

/-- **A deleted op stays covered**, whatever is written later. -/
theorem Later.gone (hl : Later c log l) (hs : log.Settled) (hr : r.seq < storeMax)
    (h : log.Gone r hash) : l.Gone r hash := by
  refine .of_heldOnce (hl.heldOnce hs hr h.heldOnce) ?_
  induction hl with
  | refl => exact heldAt_eq_none.mpr h.1
  | append hl draft ih =>
    rename_i l
    have hgone : l.Gone r hash := .of_heldOnce (hl.heldOnce hs hr h.heldOnce) ih
    rcases l.append_cases c draft with heq | ⟨env, row, -, href, hmax, hframe, -⟩
    · rwa [heq]
    · rw [heldAt_of_frame hframe, heldAt_insertRow row hr.le, if_neg]
      · exact ih
      · -- the next number is above the floor
        intro heq
        have hfl := floorSeq_lt_nextSeq (l.devs draft.ref.stream draft.ref.device)
        have hle := hgone.le_floorSeq
        rw [heq, href] at hle
        exact absurd hle (Nat.not_le.mpr hfl)
  | deliver hl dl ih =>
    rename_i l
    have hgone : l.Gone r hash := .of_heldOnce (hl.heldOnce hs hr h.heldOnce) ih
    rcases l.deliver_cases c dl with ⟨hcore, -⟩ | ⟨row, hmax, hrow, hframe, -⟩
    · rwa [heldAt_of_frame (frame_of_skeleton (skeleton_of_core hcore))]
    · rw [heldAt_of_frame hframe, heldAt_insertRow row hr.le, if_neg]
      · exact ih
      · -- a covered position takes no delivery
        rintro rfl
        rcases hrow with ⟨hacc, -⟩ | hheld
        · exact hgone.heldOnce.not_accepts hacc
        · rw [ih] at hheld
          simp at hheld
  | compact hl view s ih =>
    rename_i l
    rcases heldAt_compactStream c view s (hl.settled hs) hr.le with ⟨heq, -⟩ |
        ⟨target, env, root, -, -, -, -, heq | ⟨heq, -⟩⟩
    · rw [heq, ih]
    · rw [heq, ih]
    · exact heq
  | foldAt _ s dev n ih => rwa [heldAt_of_frame (frame_of_skeleton (skeleton_foldAt c _ s dev n))]
  | adopt hl s e ih =>
    rename_i l
    rw [(heldAt_adopt c s l e r).1, ih]

theorem Gone.isCovered {env : Envelope} (h : log.Gone env.ref env.opHash) :
    log.isCovered env = true := by
  obtain ⟨hnone, f, hf, hle, -⟩ := h
  unfold OpLog.isCovered
  rw [hf]
  simp [hle, hnone]

theorem Gone.checkCovered {env : Envelope} (h : log.Gone env.ref env.opHash) :
    log.checkCovered env = log := by
  obtain ⟨-, f, hf, -, hhash⟩ := h
  unfold OpLog.checkCovered
  rw [hf]
  dsimp only
  rw [if_neg]
  rintro ⟨hseq, hne⟩
  exact hne (hhash hseq).symm

end OpLog

/-! ### The vault -/

namespace Client

variable {x : Client} {known : List Device} {cutoff : ℕ} {s : StreamId} {dev : Device}
  {r : OpRef}

theorem le_acknowledged {n : ℕ} (h : n ≤ x.acknowledged known s dev) {k : Device}
    (hk : k ∈ known) (hne : k ≠ x.me) : n ≤ ((x.log.devs s dev).acks.find k).getD 0 := by
  unfold acknowledged at h
  generalize (x.log.devs s dev).cursorSeq = ack at h
  have hstart : ∀ (ks : List Device) (a : ℕ), ks.foldl (fun ack k => if k = x.me then ack
      else min ack (((x.log.devs s dev).acks.find k).getD 0)) a ≤ a := by
    intro ks
    induction ks with
    | nil => exact fun a => le_rfl
    | cons k ks ih =>
      intro a
      rw [List.foldl_cons]
      split
      · exact ih a
      · exact (ih _).trans (min_le_left ..)
  induction known generalizing ack with
  | nil => simp at hk
  | cons k' ks ih =>
    rw [List.foldl_cons] at h
    rcases List.mem_cons.mp hk with rfl | hk
    · rw [if_neg hne] at h
      exact (h.trans (hstart ks _)).trans (min_le_right ..)
    · exact ih hk _ h

theorem applied_of_not_isHeld (h : x.isHeld r = false) {g : Group} {row : PendingRow}
    (hrow : x.pending.find (toLex (g, r)) = some row) : row.applied = true := by
  unfold isHeld at h
  rw [List.any_eq_false] at h
  have := h (toLex (g, r), row) (Table.mem_rows.mpr hrow)
  simpa using this

theorem rowAt_compactStream {c : ChainHash} (hl : x.log.Stepped) (hs : x.log.Settled)
    (r : OpRef) :
    let y := x.compactStream c known cutoff s
    y.log.rowAt r = x.log.rowAt r ∨
      ∃ target row root, r.stream = s ∧ (x.log.devs s r.device).floorSeq < target ∧
        target < (x.log.devs s r.device).cursorSeq ∧
        target ≤ x.acknowledged known s r.device ∧
        (x.log.devs s r.device).rows.find target = some row ∧
        (y.log.devs s r.device).floor = some ⟨target, row.env.opHash, root⟩ ∧
        y.log.rowAt r = (x.log.rowAt r).filter fun row =>
          !x.log.deletable (x.view known cutoff s) s r.device target (i64Of r.seq) row := by
  intro y
  have hy : y.log = x.log.compactStream c (x.view known cutoff s) s := rfl
  unfold rowAt
  rw [hy]
  rcases @devs_compactStream c x.log s (x.view known cutoff s)
    r.stream r.device with heq | ⟨rfl, heq⟩
  · exact .inl (by rw [heq])
  · rw [heq]
    rcases core_compactDevice c (x.view known cutoff r.stream) (hl r.stream r.device)
        (hs r.stream r.device).toSound with heq | ⟨-, hcore |
          ⟨target, row, root, hfloor, hcursor, hack, hrow, hf, -, hfind⟩⟩
    · exact .inl (by rw [heq])
    · exact .inl (by rw [(DeviceLog.core_eq_iff.mp hcore).1])
    · exact .inr ⟨target, row, root, rfl, hfloor, hcursor, hack _ rfl, hrow, hf, hfind _⟩

/-- An op that a compaction deletes was one that nothing waits for. -/
theorem of_deleted {c : ChainHash} (hl : x.log.Stepped) (hs : x.log.Settled) {row : LogRow}
    (hrow : x.log.rowAt r = some row)
    (hdel : (x.compactStream c known cutoff s).log.rowAt r = none) :
    r.seq < storeMax ∧ r.stream = s ∧ r.seq < (x.log.devs s r.device).cursorSeq ∧
      (∀ k ∈ known, k ≠ x.me → r.seq ≤ ((x.log.devs s r.device).acks.find k).getD 0) ∧
      row.applied = true ∧ row.kind.compactable = true ∧ row.parked = false ∧
      x.isHeld r = false ∧ x.outbox.find r ≠ some false ∧ x.log.namesExpected r = false := by
  rcases @rowAt_compactStream x known cutoff s c hl hs r with
    heq | ⟨target, trow, root, rfl, -, hcursor, hack, -, -, hfilter⟩
  · rw [hdel, hrow] at heq
    simp at heq
  rw [hdel, hrow, eq_comm, Option.filter_eq_none_iff] at hfilter
  have hdeletable := hfilter row rfl
  simp only [deletable, Bool.not_eq_true', Bool.not_eq_false, Bool.and_eq_true,
    decide_eq_true_eq] at hdeletable
  obtain ⟨⟨⟨⟨⟨hle, happlied⟩, hkind⟩, hparked⟩, hwait⟩, hnamer⟩ := hdeletable
  have hcmax := (hs r.stream r.device).toSound.cursorSeq_le
  have hmax : r.seq < storeMax := by
    unfold i64Of at hle
    omega
  have hseq : i64Of r.seq = r.seq := i64Of_eq_self.mpr hmax.le
  rw [hseq] at hle hwait hnamer
  simp only [view, Bool.or_eq_false_iff, beq_eq_false_iff_ne] at hwait
  exact ⟨hmax, rfl, by omega, fun k hk hne => hle.trans (le_acknowledged hack hk hne), happlied,
    hkind, hparked, hwait.1, hwait.2, hnamer⟩

theorem gone_of_deleted {c : ChainHash} (hs : x.log.Settled) {row : LogRow}
    (hr : r.seq < storeMax) (hrow : x.log.rowAt r = some row)
    (hdel : (x.compactStream c known cutoff s).log.rowAt r = none) :
    (x.compactStream c known cutoff s).log.Gone r row.env.opHash := by
  have honce : x.log.HeldOnce r row.env.opHash := .inl ⟨row.env, by
    rw [heldAt, hrow, Option.map_some], rfl⟩
  have hlater : OpLog.Later c x.log (x.compactStream c known cutoff s).log :=
    .compact .refl (x.view known cutoff s) s
  exact .of_heldOnce (hlater.heldOnce hs hr honce) (OpLog.heldAt_eq_none.mpr hdel)

end Client

namespace Vault

variable {c : Codec} {ch : ChainHash} {v : Vault} {env : Envelope}

theorem receive_of_gone (h : v.log.Gone env.ref env.opHash) : v.receive c ch env = (v, []) := by
  have htakes : v.log.takes env = false := by
    unfold OpLog.takes
    rw [h.isCovered]
    rfl
  have hlog : v.log.receive ch env = v.log := by
    unfold OpLog.receive
    rw [h.isCovered, if_pos rfl, h.checkCovered]
  unfold receive
  rw [htakes, hlog]
  rfl

theorem park_of_gone (h : v.log.Gone env.ref env.opHash) : v.park ch env = v := by
  unfold park OpLog.park
  rw [h.isCovered, if_pos rfl, h.checkCovered]

end Vault

namespace Client

/-- **Compaction is safe.** Where the log is that of any run, and whatever the other tables
hold, a compaction of a stream deletes only ops of that stream that are applied, of a
compactable kind and not parked, that no group and no unacknowledged outbox row waits for and
that no missing position's expectation was named by, at positions that every known device has
acknowledged and that are below the cursor. It changes no other row, lowers no floor, and
leaves the cursors, the frontiers, what is computed from them, the next numbers, the merge
tables and what they project. And after every further run a redelivery of a deleted op changes
nothing. -/
theorem compactStream_spec {δ : Type*} (c : Codec) (serde : Serde) (ch : ChainHash)
    (streamDigest : StreamId → (Device → Option FrontierEntry) → δ) (events : List OpLog.Event)
    (x : Client) (hx : x.log = OpLog.run ch events) (known : List Device) (cutoff : ℕ)
    (s : StreamId) :
    let y := x.compactStream ch known cutoff s
    (∀ r row, x.log.rowAt r = some row → y.log.rowAt r = none →
      (r.stream = s ∧ row.applied = true ∧ row.kind.compactable = true ∧ row.parked = false ∧
        (∀ g m, x.pending.find (toLex (g, r)) = some m → m.applied = true) ∧
        x.outbox.find r ≠ some false ∧
        (∀ missing, x.log.expected.find missing ≠ some r) ∧
        (∀ k ∈ known, k ≠ x.me → r.seq ≤ ((x.log.devs s r.device).acks.find k).getD 0) ∧
        r.seq < (x.log.devs s r.device).cursorSeq) ∧
      ∀ (more : List OpLog.Event) (z : Vault) (env : Envelope),
        z.log = OpLog.run ch (events ++ .compact (x.view known cutoff s) s :: more) →
        env.ref = r → env.opHash = row.env.opHash →
        z.receive c ch env = (z, []) ∧ z.park ch env = z) ∧
    (∀ r row, y.log.rowAt r = some row → x.log.rowAt r = some row) ∧
    (∀ s' dev, (x.log.devs s' dev).floorSeq ≤ (y.log.devs s' dev).floorSeq ∧
      (y.log.devs s' dev).cursor = (x.log.devs s' dev).cursor ∧
      (y.log.devs s' dev).nextSeq = (x.log.devs s' dev).nextSeq) ∧
    (∀ s', y.log.frontier ch s' = x.log.frontier ch s' ∧
      streamDigest s' (y.log.frontier ch s') = streamDigest s' (x.log.frontier ch s')) ∧
    y.store = x.store ∧ y.pending = x.pending ∧
    ∀ id, projection c serde y.store id = projection c serde x.store id := by
  intro y
  have hs : x.log.Settled := hx ▸ settled_run ch events
  have hl : x.log.Stepped := hx ▸ stepped_run ch events
  have hkeeps : ∀ s' dev, (x.log.devs s' dev).floorSeq ≤ (y.log.devs s' dev).floorSeq ∧
      (y.log.devs s' dev).cursor = (x.log.devs s' dev).cursor ∧
      (y.log.devs s' dev).nextSeq = (x.log.devs s' dev).nextSeq ∧
      y.log.frontier ch s' dev = x.log.frontier ch s' dev := by
    intro s' dev
    show (x.log.devs s' dev).floorSeq ≤ ((x.log.compactStream ch _ s).devs s' dev).floorSeq ∧ _
    unfold OpLog.frontier
    rcases @devs_compactStream ch x.log s (x.view known cutoff s) s' dev
      with heq | ⟨rfl, heq⟩
    · rw [show y.log.devs s' dev = x.log.devs s' dev from heq, heq]
      exact ⟨le_rfl, rfl, rfl, rfl⟩
    · rw [show y.log.devs s' dev = _ from heq, heq]
      exact compactDevice_keeps ch _ (hl s' dev) (hs s' dev).toSound
  have hfrontier : ∀ s', y.log.frontier ch s' = x.log.frontier ch s' := fun s' =>
    funext fun dev => (hkeeps s' dev).2.2.2
  refine ⟨fun r row hrow hdel => ?_, fun r row hrow => ?_,
    fun s' dev => ⟨(hkeeps s' dev).1, (hkeeps s' dev).2.1, (hkeeps s' dev).2.2.1⟩,
    fun s' => ⟨hfrontier s', by rw [hfrontier]⟩, rfl, rfl, fun _ => rfl⟩
  · obtain ⟨hmax, hstream, hcursor, hack, happlied, hkind, hparked, hheld, hout, hnamer⟩ :=
      of_deleted hl hs hrow hdel
    refine ⟨⟨hstream, happlied, hkind, hparked, fun g m => applied_of_not_isHeld hheld, hout,
      fun missing hfind => ?_, hack, hcursor⟩, ?_⟩
    · unfold namesExpected at hnamer
      rw [List.any_eq_false] at hnamer
      exact hnamer (missing, r) (Table.mem_rows.mpr hfind) (decide_eq_true rfl)
    · rintro more z env hz rfl hhash
      have hy : OpLog.run ch (events ++ [.compact (x.view known cutoff s) s]) = y.log := by
        rw [OpLog.run, List.foldl_append, ← OpLog.run, ← hx]
        rfl
      have hlater : OpLog.Later ch y.log z.log := by
        rw [hz, ← hy, OpLog.run, OpLog.run, List.foldl_append, List.foldl_append]
        exact List.foldlRecOn (motive := fun l => OpLog.Later ch _ l) more _ .refl
          fun l h ev _ => h.trans (later_handle ch l ev)
      have hgone := hlater.gone (hy ▸ settled_run ch _) hmax
        (gone_of_deleted hs hmax hrow hdel)
      rw [← hhash] at hgone
      exact ⟨Vault.receive_of_gone hgone, Vault.park_of_gone hgone⟩
  · rcases @rowAt_compactStream x known cutoff s ch hl hs r with
      heq | ⟨target, trow, root, -, -, -, -, -, -, hfilter⟩
    · rw [← heq]
      exact hrow
    · rw [show y.log.rowAt r = _ from hfilter] at hrow
      exact (Option.filter_eq_some_iff.mp hrow).1

/-- Device 1's digest op at a sequence number, naming the one before it. -/
def digestAfter (n : ℕ) : Envelope := { digestAt n (n + 4) with prevHash := some (n + 3) }

/-- Device 1 wrote three digests. -/
def threeDigests : List OpLog.Event :=
  [.append (digestAfter 1), .append (digestAfter 2), .append (digestAfter 3)]

/-- It published them, and the relay acknowledged the second. -/
def ofThreeDigests : Client where
  log := OpLog.run .sample threeDigests
  pending := ∅
  store := fun _ => ∅
  me := 1
  outbox := (∅ : Table OpRef Bool).upsert ⟨7, 1, 2⟩ true

theorem compactStream_spec_three_digests :
    let x := ofThreeDigests
    let y := x.compactStream .sample [1] 100 7
    (x.log.rowAt ⟨7, 1, 1⟩).isSome ∧ (y.log.rowAt ⟨7, 1, 1⟩).isNone ∧
      (1 < (x.log.devs 7 1).cursorSeq ∧ y.log.frontier .sample 7 = x.log.frontier .sample 7) ∧
      y.receive .short .sample (digestAfter 1) = (y.toVault, []) := by
  intro x y
  have hspec := compactStream_spec (δ := Unit) .short .sample .sample (fun _ _ => ())
    threeDigests x rfl [1] 100 7
  have hgone : y.log.rowAt ⟨7, 1, 1⟩ = none := Option.isNone_iff_eq_none.mp (by decide)
  obtain ⟨row, hrow⟩ := Option.isSome_iff_exists.mp
    (show (x.log.rowAt ⟨7, 1, 1⟩).isSome from by decide)
  have hhash : row.env.opHash = 5 := by
    have h : (x.log.rowAt ⟨7, 1, 1⟩).map (·.env.opHash) = some 5 := by decide
    rw [hrow] at h
    exact Option.some.inj h
  have hop := hspec.1 ⟨7, 1, 1⟩ row hrow hgone
  refine ⟨by rw [hrow]; rfl, by rw [hgone]; rfl, ⟨hop.1.2.2.2.2.2.2.2.2, (hspec.2.2.2.1 7).1⟩, ?_⟩
  exact (hop.2 [] y.toVault (digestAfter 1) rfl rfl hhash.symm).1

/-- The second op is deleted, though its outbox row is there and the op after it, which is
kept, names it. -/
theorem deletes_acknowledged_and_named :
    let x := ofThreeDigests
    let y := x.compactStream .sample [1] 100 7
    (x.log.rowAt ⟨7, 1, 2⟩).isSome ∧ (y.log.rowAt ⟨7, 1, 2⟩).isNone ∧
      (x.outbox.find ⟨7, 1, 2⟩).isSome ∧
      ∃ env, y.log.heldAt ⟨7, 1, 3⟩ = some env ∧ env.Names ⟨7, 1, 2⟩ 6 := by
  refine ⟨by decide, by decide, by decide, digestAfter 3, rfl, ?_⟩
  exact ⟨⟨⟨7, 1, 2⟩, .link, 6⟩, List.mem_singleton.mpr rfl, rfl, rfl⟩

end Client

end Sunrise
