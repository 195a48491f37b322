import Mathlib.Data.Nat.Pairing
import Sunrise.Log.OpLog

/-!
# The sync cursor

The cursor of a device is the end of its contiguous prefix: the greatest `n` such that
every sequence number from 1 to `n` is at or below the compaction floor or in the log.

Three writes move it or what it stands for. An insert adds a row and resumes the run
from where it stood; a snapshot raises a floor and resumes the run above it; a
compaction deletes rows, but only at or below a floor it has just raised, and only
strictly below the cursor. Everything else the log writes is evidence or a chain root,
and leaves the rows, the floor and the cursor as they are (`DeviceLog.skeleton`).

* `OpLog.isGreatest_cursorSeq` — **the cursor is the contiguous prefix**, after every run.
-/

namespace Sunrise

open DeviceLog

def LogRow.bare (row : LogRow) : LogRow := { row with chainRoot := none }

namespace DeviceLog

/-! ### What the evidence leaves alone -/

def core (d : DeviceLog) : Table ℕ LogRow × Option Floor × Option ℕ := (d.rows, d.floor, d.cursor)

/-- The rows without their roots, the floor and the cursor. -/
def skeleton (d : DeviceLog) : (ℕ → Option LogRow) × Option Floor × Option ℕ :=
  (fun n => (d.rows.find n).map LogRow.bare, d.floor, d.cursor)

variable {d d' : DeviceLog}

theorem core_eq_iff : d.core = d'.core ↔ d.rows = d'.rows ∧ d.floor = d'.floor ∧
    d.cursor = d'.cursor := by
  simp [core]

theorem skeleton_of_core (h : d.core = d'.core) : d.skeleton = d'.skeleton := by
  obtain ⟨hr, hf, hc⟩ := core_eq_iff.mp h
  simp [skeleton, hr, hf, hc]

section

variable (h : d.skeleton = d'.skeleton)
include h

theorem bare_of_skeleton (n : ℕ) :
    (d.rows.find n).map LogRow.bare = (d'.rows.find n).map LogRow.bare :=
  congrFun (congrArg Prod.fst h) n

theorem floor_of_skeleton : d.floor = d'.floor :=
  congrArg (·.2.1) h

theorem cursor_of_skeleton : d.cursor = d'.cursor :=
  congrArg (·.2.2) h

theorem floorSeq_of_skeleton : d.floorSeq = d'.floorSeq := by
  rw [floorSeq, floorSeq, floor_of_skeleton h]

theorem cursorSeq_of_skeleton : d.cursorSeq = d'.cursorSeq := by
  rw [cursorSeq, cursorSeq, cursor_of_skeleton h]

theorem isSome_of_skeleton (n : ℕ) :
    (d.rows.find n).isSome = (d'.rows.find n).isSome := by
  simpa using congrArg Option.isSome (bare_of_skeleton h n)

theorem env_of_skeleton (n : ℕ) :
    (d.rows.find n).map (·.env) = (d'.rows.find n).map (·.env) := by
  have hn := congrArg (Option.map LogRow.env) (bare_of_skeleton h n)
  rw [Option.map_map, Option.map_map] at hn
  exact hn

theorem heldOpHash_of_skeleton (n : ℕ) :
    d.heldOpHash n = d'.heldOpHash n := by
  have hn := env_of_skeleton h (i64Of n)
  unfold heldOpHash
  rw [← floor_of_skeleton h]
  cases hd : d.rows.find (i64Of n) <;> cases hd' : d'.rows.find (i64Of n) <;>
    simp_all

end

@[simp] theorem core_judge (d : DeviceLog) (peer : Device) (n : ℕ) (p h : Hash) :
    (d.judge peer n p h).core = d.core := by
  unfold judge
  split <;> rfl

theorem core_foldl {α : Type*} {f : DeviceLog → α → DeviceLog}
    (hf : ∀ d a, (f d a).core = d.core) (l : List α) (d : DeviceLog) :
    (l.foldl f d).core = d.core := by
  induction l generalizing d with
  | nil => rfl
  | cons a l ih => rw [List.foldl_cons, ih, hf]

@[simp] theorem core_checkClaims (init : Hash) (d : DeviceLog) (upTo : ℕ) :
    (d.checkClaims init upTo).core = d.core := by
  refine core_foldl (fun d a => ?_) _ d
  dsimp only
  split
  · rw [core_judge]
    rfl
  · rfl

theorem find_setRoot (d : DeviceLog) (n m : ℕ) (root : Hash) :
    (d.setRoot n root).rows.find m =
      if m = i64Of n then (d.rows.find m).map fun row => { row with chainRoot := some root }
      else d.rows.find m := by
  unfold setRoot
  by_cases hm : m = i64Of n
  · subst hm
    split
    next row hrow => simp [hrow]
    next hn => simp [hn]
  · split
    · simp only [Table.find_upsert_of_ne _ _ hm, if_neg hm]
    · rw [if_neg hm]

@[simp] theorem floor_setRoot (d : DeviceLog) (n : ℕ) (root : Hash) :
    (d.setRoot n root).floor = d.floor := by
  unfold setRoot
  split <;> rfl

@[simp] theorem cursor_setRoot (d : DeviceLog) (n : ℕ) (root : Hash) :
    (d.setRoot n root).cursor = d.cursor := by
  unfold setRoot
  split <;> rfl

@[simp] theorem skeleton_setRoot (d : DeviceLog) (n : ℕ) (root : Hash) :
    (d.setRoot n root).skeleton = d.skeleton := by
  unfold skeleton
  rw [floor_setRoot, cursor_setRoot]
  congr 1
  funext m
  rw [find_setRoot]
  split
  · rw [Option.map_map]
    rfl
  · rfl

@[simp] theorem skeleton_extendRoots (c : ChainHash) (n : ℕ) (d : DeviceLog) (seq : ℕ)
    (root : Hash) : (extendRoots c n d seq root).1.skeleton = d.skeleton := by
  induction n generalizing d seq root with
  | zero => rfl
  | succ n ih =>
    unfold extendRoots
    split
    · rfl
    · rw [ih, skeleton_setRoot]

@[simp] theorem skeleton_foldChain (c : ChainHash) (init : Hash) (d : DeviceLog) (upTo : ℕ) :
    (d.foldChain c init upTo).skeleton = d.skeleton := by
  unfold foldChain
  split
  · rfl
  · rw [skeleton_of_core (core_checkClaims ..), skeleton_extendRoots]

theorem compareEntry_core (c : ChainHash) (init : Hash) (peer : Device) (d : DeviceLog)
    (e : FrontierEntry) :
    (d.compareEntry c init peer e).core = d.core ∨
      (d.compareEntry c init peer e).core = (d.foldChain c init d.cursorSeq).core := by
  unfold compareEntry
  dsimp only
  split
  · by_cases hn : (d.rootAt init e.seq).isNone = true
    · rw [if_pos hn]
      refine .inr ?_
      split
      · rw [core_judge]
      · rfl
    · rw [if_neg hn]
      refine .inl ?_
      split
      · rw [core_judge]
      · rfl
  · refine .inl ?_
    split
    · split <;> rfl
    · rfl

@[simp] theorem skeleton_compareEntry (c : ChainHash) (init : Hash) (peer : Device)
    (d : DeviceLog) (e : FrontierEntry) :
    (d.compareEntry c init peer e).skeleton = d.skeleton := by
  rcases compareEntry_core c init peer d e with h | h
  · exact skeleton_of_core h
  · rw [skeleton_of_core h, skeleton_foldChain]

end DeviceLog

namespace OpLog

/-- The rows without their roots, the floors and the cursors. -/
def skeleton (log : OpLog) (s : StreamId) (dev : Device) :
    (ℕ → Option LogRow) × Option Floor × Option ℕ :=
  (log.devs s dev).skeleton

def core (log : OpLog) (s : StreamId) (dev : Device) :
    Table ℕ LogRow × Option Floor × Option ℕ :=
  (log.devs s dev).core

theorem core_apply {log log' : OpLog} (h : log.core = log'.core) (s : StreamId) (dev : Device) :
    (log.devs s dev).core = (log'.devs s dev).core :=
  congrFun (congrFun h s) dev

theorem skeleton_apply {log log' : OpLog} (h : log.skeleton = log'.skeleton) (s : StreamId)
    (dev : Device) : (log.devs s dev).skeleton = (log'.devs s dev).skeleton :=
  congrFun (congrFun h s) dev

theorem skeleton_of_core {log log' : OpLog} (h : log.core = log'.core) :
    log.skeleton = log'.skeleton := by
  funext s dev
  exact DeviceLog.skeleton_of_core (core_apply h s dev)

theorem core_modify (log : OpLog) (s : StreamId) (dev : Device) {f : DeviceLog → DeviceLog}
    (hf : ∀ d, (f d).core = d.core) : (log.modify s dev f).core = log.core := by
  funext s' dev'
  unfold core
  rw [devs_modify]
  split
  next h => rw [hf, h.1, h.2]
  next => rfl

theorem skeleton_modify (log : OpLog) (s : StreamId) (dev : Device) {f : DeviceLog → DeviceLog}
    (hf : ∀ d, (f d).skeleton = d.skeleton) : (log.modify s dev f).skeleton = log.skeleton := by
  funext s' dev'
  unfold skeleton
  rw [devs_modify]
  split
  next h => rw [hf, h.1, h.2]
  next => rfl

theorem core_foldl {α : Type*} {f : OpLog → α → OpLog} (hf : ∀ l a, (f l a).core = l.core)
    (l : List α) (log : OpLog) : (l.foldl f log).core = log.core := by
  induction l generalizing log with
  | nil => rfl
  | cons a l ih => rw [List.foldl_cons, ih, hf]

theorem skeleton_foldl {α : Type*} {f : OpLog → α → OpLog}
    (hf : ∀ l a, (f l a).skeleton = l.skeleton) (l : List α) (log : OpLog) :
    (l.foldl f log).skeleton = log.skeleton := by
  induction l generalizing log with
  | nil => rfl
  | cons a l ih => rw [List.foldl_cons, ih, hf]

@[simp] theorem core_judgeExpected (r : OpRef) (hash : Hash) (log : OpLog) (e : Hash × OpRef) :
    (judgeExpected r hash log e).core = log.core := by
  unfold judgeExpected
  split
  · rfl
  · split
    · rfl
    · exact core_modify _ _ _ fun d => rfl

@[simp] theorem core_settleExpected (log : OpLog) (r : OpRef) (hash : Hash) :
    (log.settleExpected r hash).core = log.core := by
  exact core_foldl (fun l e => core_judgeExpected ..) _ log

@[simp] theorem core_checkNamed (log : OpLog) (r : OpRef) (kind : ForkKind) (hash : Hash)
    (env : Envelope) : (log.checkNamed r kind hash env).core = log.core := by
  unfold checkNamed
  dsimp only
  split
  · split
    · rfl
    · exact core_modify _ _ _ fun d => rfl
  · split <;> rfl

@[simp] theorem core_checkHead (env : Envelope) (log : OpLog) (head : ChainHead) :
    (checkHead env log head).core = log.core := by
  unfold checkHead
  split
  · rfl
  · rw [core_checkNamed]

@[simp] theorem core_checkLinks (log : OpLog) (env : Envelope) :
    (log.checkLinks env).core = log.core := by
  unfold checkLinks
  dsimp only
  rw [core_foldl (core_checkHead env)]
  split
  · split
    · rw [core_checkNamed]
      exact core_settleExpected ..
    · exact core_settleExpected ..
  · exact core_settleExpected ..

@[simp] theorem core_checkDuplicate (log : OpLog) (env : Envelope) :
    (log.checkDuplicate env).core = log.core := by
  unfold checkDuplicate
  split
  · split
    · rfl
    · exact core_modify _ _ _ fun d => rfl
  · rfl

@[simp] theorem core_checkCovered (log : OpLog) (env : Envelope) :
    (log.checkCovered env).core = log.core := by
  unfold checkCovered
  split
  · split
    · exact core_modify _ _ _ fun d => rfl
    · rfl
  · rfl

@[simp] theorem core_settleBelowFloor (log : OpLog) (s : StreamId) (dev : Device) (f : Floor) :
    (log.settleBelowFloor s dev f).core = log.core := by
  unfold settleBelowFloor
  dsimp only
  rw [core_modify]
  · exact core_settleExpected ..
  · intro d
    rw [DeviceLog.core_foldl fun d r => DeviceLog.core_judge ..]
    rfl

@[simp] theorem core_recordPeerFrontier (log : OpLog) (s : StreamId) (peer : Device)
    (entries : List FrontierEntry) :
    (log.recordPeerFrontier s peer entries).core = log.core := by
  unfold recordPeerFrontier
  refine core_foldl (fun l e => ?_) entries log
  refine core_modify l s e.device fun d => ?_
  rfl

@[simp] theorem skeleton_reconcile (c : ChainHash) (log : OpLog) (s : StreamId) (peer : Device)
    (entries : List FrontierEntry) (authentic : Bool) :
    (log.reconcile c s peer entries authentic).skeleton = log.skeleton := by
  unfold reconcile
  split
  · rw [skeleton_foldl, skeleton_of_core (core_recordPeerFrontier ..)]
    intro l e
    split
    · rfl
    · exact skeleton_modify _ _ _ fun d => skeleton_compareEntry ..
  · rfl

@[simp] theorem skeleton_foldAt (c : ChainHash) (log : OpLog) (s : StreamId) (dev : Device)
    (n : ℕ) : (log.foldAt c s dev n).skeleton = log.skeleton := by
  unfold foldAt
  split
  · exact skeleton_modify _ _ _ fun d => skeleton_foldChain ..
  · rfl

end OpLog

/-! ### The contiguous prefix -/

namespace DeviceLog

/-- A sequence number is covered by the floor, or held. -/
def Covers (d : DeviceLog) (q : ℕ) : Prop := q ≤ d.floorSeq ∨ (d.rows.find q).isSome

/-- Every sequence number up to `n` is covered or held. -/
def Contiguous (d : DeviceLog) (n : ℕ) : Prop := ∀ q, 1 ≤ q → q ≤ n → d.Covers q

variable {d d' : DeviceLog}

theorem covers_of_skeleton (h : d.skeleton = d'.skeleton) (q : ℕ) : d.Covers q ↔ d'.Covers q := by
  rw [Covers, Covers, floorSeq_of_skeleton h, isSome_of_skeleton h]

theorem contiguous_of_skeleton (h : d.skeleton = d'.skeleton) (n : ℕ) :
    d.Contiguous n ↔ d'.Contiguous n := by
  simp only [Contiguous, covers_of_skeleton h]

theorem exists_absent (d : DeviceLog) (start : ℕ) :
    ∃ m, start ≤ m ∧ (d.rows.find m).isSome = false := by
  by_contra hall
  push Not at hall
  -- more keys than rows
  have hsub : (Finset.range (d.rows.rows.length + 1)).image (fun i => start + i) ⊆
      (d.rows.rows.map Prod.fst).toFinset := by
    intro m hm
    obtain ⟨i, -, rfl⟩ := Finset.mem_image.mp hm
    have hsome : (d.rows.find (start + i)).isSome = true :=
      Bool.not_eq_false _ ▸ hall (start + i) (Nat.le_add_right ..)
    obtain ⟨row, hrow⟩ := Option.isSome_iff_exists.mp hsome
    rw [List.mem_toFinset, List.mem_map]
    exact ⟨(start + i, row), Table.mem_rows.mpr hrow, rfl⟩
  have hcard := Finset.card_le_card hsub
  rw [Finset.card_image_of_injective _ (add_right_injective start), Finset.card_range] at hcard
  have hle := List.toFinset_card_le (d.rows.rows.map Prod.fst)
  rw [List.length_map] at hle
  omega

theorem opsRunEnd_spec (d : DeviceLog) {start : ℕ} (hs : 1 ≤ start) :
    (∀ q, start ≤ q → q ≤ d.opsRunEnd start → (d.rows.find q).isSome) ∧
      (d.rows.find (d.opsRunEnd start + 1)).isSome = false ∧ start ≤ d.opsRunEnd start + 1 := by
  classical
  unfold opsRunEnd
  split
  next hheld =>
    -- the first number of the run's far side
    let gap := Nat.find (d.exists_absent start)
    have hgap : start ≤ gap ∧ (d.rows.find gap).isSome = false :=
      Nat.find_spec (d.exists_absent start)
    have hmin : ∀ q, start ≤ q → q < gap → (d.rows.find q).isSome := by
      intro q hq hlt
      have hnot := Nat.find_min (d.exists_absent start) hlt
      exact Bool.not_eq_false _ ▸ fun h => hnot ⟨hq, h⟩
    have hlt : start < gap := by
      refine lt_of_le_of_ne hgap.1 fun heq => ?_
      rw [← heq, hheld] at hgap
      simp at hgap
    have hend : ((d.rows.rows.filter fun r =>
        decide (start ≤ r.1) && (d.rows.find (r.1 + 1)).isNone).head?.map (·.1)) =
          some (gap - 1) := by
      obtain ⟨row, hrow⟩ := Option.isSome_iff_exists.mp (hmin (gap - 1) (by omega) (by omega))
      have hmem : (gap - 1, row) ∈ d.rows.rows.filter fun r =>
          decide (start ≤ r.1) && (d.rows.find (r.1 + 1)).isNone := by
        rw [List.mem_filter]
        refine ⟨Table.mem_rows.mpr hrow, ?_⟩
        have hg : gap - 1 + 1 = gap := by omega
        have hnone : d.rows.find gap = none := by simpa using hgap.2
        simp only [hg, hnone, Option.isNone_none, Bool.and_true, decide_eq_true_eq]
        omega
      cases hl : d.rows.rows.filter fun r =>
          decide (start ≤ r.1) && (d.rows.find (r.1 + 1)).isNone with
      | nil => simp [hl] at hmem
      | cons r l =>
        have hsorted := d.rows.sorted.filter fun r =>
          decide (start ≤ r.1) && (d.rows.find (r.1 + 1)).isNone
        rw [hl] at hsorted hmem
        have hr : r ∈ d.rows.rows.filter fun r =>
            decide (start ≤ r.1) && (d.rows.find (r.1 + 1)).isNone := by
          rw [hl]
          exact List.mem_cons_self
        have hr' := (List.mem_filter.mp hr).2
        simp only [Bool.and_eq_true, decide_eq_true_eq, Option.isNone_iff_eq_none] at hr'
        have hle : r.1 ≤ gap - 1 := by
          rcases List.mem_cons.mp hmem with heq | htail
          · rw [← heq]
          · exact (List.pairwise_cons.mp hsorted).1 _ htail |>.le
        have hge : gap - 1 ≤ r.1 := by
          by_contra hlt'
          have := hmin (r.1 + 1) (by omega) (by omega)
          rw [hr'.2] at this
          simp at this
        simp [le_antisymm hle hge]
    rw [hend, Option.getD_some]
    refine ⟨fun q hq hle => hmin q hq (by omega), ?_, by omega⟩
    rw [show gap - 1 + 1 = gap by omega]
    exact hgap.2
  next hnot =>
    refine ⟨fun q hq hle => by omega, ?_, by omega⟩
    rw [show start - 1 + 1 = start by omega]
    simpa using hnot

theorem lt_nextSeq (d : DeviceLog) {n : ℕ} (hn : (d.rows.find n).isSome) : n < d.nextSeq := by
  obtain ⟨row, hrow⟩ := Option.isSome_iff_exists.mp hn
  have hmem : (n, row) ∈ d.rows.rows := Table.mem_rows.mpr hrow
  have hle : n ≤ (d.rows.rows.getLast?.map (·.1)).getD 0 := by
    obtain ⟨l, r, hl⟩ := List.eq_nil_or_concat'  d.rows.rows |>.resolve_left
      (List.ne_nil_of_mem hmem)
    have hsorted := d.rows.sorted
    rw [hl] at hmem hsorted ⊢
    rw [List.getLast?_concat, Option.map_some, Option.getD_some]
    rcases List.mem_append.mp hmem with h | h
    · exact ((List.pairwise_append.mp hsorted).2.2 _ h r List.mem_cons_self).le
    · rw [← List.mem_singleton.mp h]
  unfold nextSeq
  omega

theorem floorSeq_lt_nextSeq (d : DeviceLog) : d.floorSeq < d.nextSeq := by
  unfold nextSeq
  omega

/-! ### The invariant -/

/-- What holds of a device's rows between the writes of one transaction: the store's
bounds, and no cursor past a hole. -/
structure Sound (d : DeviceLog) : Prop where
  bounded : ∀ n, (d.rows.find n).isSome → n ≤ storeMax
  floor_le : d.floorSeq ≤ storeMax
  contiguous : d.Contiguous d.cursorSeq

/-- The invariant of a device's rows. -/
structure Settled (d : DeviceLog) : Prop extends Sound d where
  /-- The cursor stands at the end of the prefix, unless the floor is as high as the
  store can hold, above which no run starts. -/
  greatest : d.floorSeq < storeMax → ∀ n, d.Contiguous n → n ≤ d.cursorSeq

theorem Sound.of_skeleton (h : d.skeleton = d'.skeleton) (hd : d.Sound) : d'.Sound where
  bounded n hn := hd.bounded n (by rwa [isSome_of_skeleton h])
  floor_le := floorSeq_of_skeleton h ▸ hd.floor_le
  contiguous := by
    rw [← cursorSeq_of_skeleton h, ← contiguous_of_skeleton h]
    exact hd.contiguous

theorem Settled.of_skeleton (h : d.skeleton = d'.skeleton) (hd : d.Settled) : d'.Settled where
  toSound := hd.toSound.of_skeleton h
  greatest hlt n hn := by
    rw [← cursorSeq_of_skeleton h]
    exact hd.greatest (floorSeq_of_skeleton h ▸ hlt) n ((contiguous_of_skeleton h n).mpr hn)

theorem settled_empty : (∅ : DeviceLog).Settled where
  bounded n hn := by simp [EmptyCollection.emptyCollection, DeviceLog.empty, Table.find,
    Table.empty] at hn
  floor_le := Nat.zero_le _
  contiguous q hq hle := by
    have : q ≤ 0 := hle
    omega
  greatest _ n hn := by
    by_contra hlt
    have h1 := hn 1 le_rfl (by omega)
    simp [Covers, floorSeq, EmptyCollection.emptyCollection, DeviceLog.empty, Table.find,
      Table.empty] at h1

theorem cursorSeq_upsertSyncCursor (c : ChainHash) (init : Hash) (d : DeviceLog) :
    (d.upsertSyncCursor c init).cursorSeq = max d.cursorSeq (d.opsRunEnd
      (if max d.floorSeq d.cursorSeq + 1 ≤ storeMax then max d.floorSeq d.cursorSeq + 1
        else 1)) := by
  unfold upsertSyncCursor
  exact cursorSeq_of_skeleton (skeleton_foldChain ..)

theorem skeleton_upsertSyncCursor (c : ChainHash) (init : Hash) (d : DeviceLog) :
    (d.upsertSyncCursor c init).skeleton =
      ({ d with cursor := (d.upsertSyncCursor c init).cursor } : DeviceLog).skeleton := by
  have h : (d.upsertSyncCursor c init).skeleton =
      ({ d with cursor := some (max d.cursorSeq (d.opsRunEnd
        (if max d.floorSeq d.cursorSeq + 1 ≤ storeMax then max d.floorSeq d.cursorSeq + 1
          else 1))) } : DeviceLog).skeleton := by
    unfold upsertSyncCursor
    exact skeleton_foldChain ..
  rw [h, cursor_of_skeleton h]

theorem covers_upsertSyncCursor (c : ChainHash) (init : Hash) (d : DeviceLog) (q : ℕ) :
    (d.upsertSyncCursor c init).Covers q ↔ d.Covers q :=
  covers_of_skeleton (skeleton_upsertSyncCursor ..) q

theorem floorSeq_upsertSyncCursor (c : ChainHash) (init : Hash) (d : DeviceLog) :
    (d.upsertSyncCursor c init).floorSeq = d.floorSeq := by
  rw [floorSeq_of_skeleton (skeleton_upsertSyncCursor ..)]
  rfl

theorem Sound.settled_upsertSyncCursor (hd : d.Sound) (c : ChainHash) (init : Hash) :
    (d.upsertSyncCursor c init).Settled := by
  have hcov := covers_upsertSyncCursor c init d
  have hcont : ∀ n, (d.upsertSyncCursor c init).Contiguous n ↔ d.Contiguous n := fun n => by
    simp only [Contiguous, hcov]
  set start := if max d.floorSeq d.cursorSeq + 1 ≤ storeMax then max d.floorSeq d.cursorSeq + 1
    else 1 with hstart
  have h1 : 1 ≤ start := by
    rw [hstart]
    split <;> omega
  obtain ⟨hrun, hgap, hle⟩ := d.opsRunEnd_spec h1
  have hcursor : (d.upsertSyncCursor c init).cursorSeq = max d.cursorSeq (d.opsRunEnd start) :=
    cursorSeq_upsertSyncCursor c init d
  -- what lies below the start of the run is covered
  have hbelow : ∀ q, 1 ≤ q → q < start → d.Covers q := by
    intro q hq hlt
    rw [hstart] at hlt
    split at hlt
    · by_cases hf : q ≤ d.floorSeq
      · exact .inl hf
      · exact hd.contiguous q hq (by omega)
    · omega
  have hprefix : d.Contiguous (d.opsRunEnd start) := by
    intro q hq hqle
    by_cases hlt : q < start
    · exact hbelow q hq hlt
    · exact .inr (hrun q (by omega) hqle)
  refine ⟨⟨fun n hn => hd.bounded n ?_, ?_, ?_⟩, fun hlt n hn => ?_⟩
  · rwa [isSome_of_skeleton (skeleton_upsertSyncCursor c init d)] at hn
  · rw [floorSeq_upsertSyncCursor]
    exact hd.floor_le
  · rw [hcursor, hcont]
    intro q hq hqle
    rcases le_max_iff.mp hqle with h | h
    · exact hd.contiguous q hq h
    · exact hprefix q hq h
  · rw [hcursor]
    rw [floorSeq_upsertSyncCursor] at hlt
    by_contra hgt
    push Not at hgt
    rw [max_lt_iff] at hgt
    -- the number just above the run would be covered
    have hc := (hcont n).mp hn (max d.cursorSeq (d.opsRunEnd start) + 1) (by omega) (by omega)
    by_cases hfit : max d.floorSeq d.cursorSeq + 1 ≤ storeMax
    · rw [if_pos hfit] at hstart
      have hend : max d.cursorSeq (d.opsRunEnd start) = d.opsRunEnd start := by
        rw [hstart] at hle ⊢
        omega
      rw [hend] at hc
      rcases hc with hc | hc
      · rw [hstart] at hle hc
        omega
      · rw [hgap] at hc
        simp at hc
    · -- no run starts above the greatest number the store holds
      rcases hc with hc | hc
      · omega
      · have := hd.bounded _ hc
        omega

theorem Sound.insert (hd : d.Sound) {n : ℕ} (hn : n ≤ storeMax) (row : LogRow) :
    ({ d with rows := d.rows.upsert n row } : DeviceLog).Sound where
  bounded m hm := by
    by_cases h : m = n
    · rw [h]
      exact hn
    · exact hd.bounded m (by rwa [Table.find_upsert_of_ne _ _ h] at hm)
  floor_le := hd.floor_le
  contiguous q hq hle := by
    rcases hd.contiguous q hq hle with h | h
    · exact .inl h
    · by_cases hqn : q = n
      · exact .inr (by simp [hqn])
      · exact .inr (by rwa [Table.find_upsert_of_ne _ _ hqn])

theorem floorSeq_raiseFloor (d : DeviceLog) (f : Floor) :
    (d.raiseFloor f).floorSeq = if f.seq ≤ d.floorSeq then d.floorSeq else i64Of f.seq := by
  unfold raiseFloor
  split <;> rfl

@[simp] theorem rows_raiseFloor (d : DeviceLog) (f : Floor) : (d.raiseFloor f).rows = d.rows := by
  unfold raiseFloor
  split <;> rfl

@[simp] theorem cursor_raiseFloor (d : DeviceLog) (f : Floor) :
    (d.raiseFloor f).cursor = d.cursor := by
  unfold raiseFloor
  split <;> rfl

theorem cursorSeq_raiseFloor (d : DeviceLog) (f : Floor) :
    (d.raiseFloor f).cursorSeq = d.cursorSeq := by
  rw [cursorSeq, cursorSeq, cursor_raiseFloor]

/-- **A floor never falls.** -/
theorem le_floorSeq_raiseFloor (hd : d.floorSeq ≤ storeMax) (f : Floor) :
    d.floorSeq ≤ (d.raiseFloor f).floorSeq := by
  rw [floorSeq_raiseFloor]
  split
  · exact le_rfl
  · exact le_min (by omega) hd

theorem Sound.raiseFloor (hd : d.Sound) (f : Floor) : (d.raiseFloor f).Sound where
  bounded n hn := hd.bounded n (by rwa [rows_raiseFloor] at hn)
  floor_le := by
    rw [floorSeq_raiseFloor]
    split
    · exact hd.floor_le
    · exact i64Of_le _
  contiguous q hq hle := by
    unfold cursorSeq at hle
    rw [cursor_raiseFloor] at hle
    rcases hd.contiguous q hq hle with h | h
    · exact .inl (h.trans (le_floorSeq_raiseFloor hd.floor_le f))
    · exact .inr (by rwa [rows_raiseFloor])

end DeviceLog

namespace OpLog

theorem compactionTarget_spec {d : DeviceLog} {acked : Option ℕ} {cutoff target : ℕ}
    (h : compactionTarget d acked cutoff = some target) :
    d.floorSeq < target ∧ target < d.cursorSeq ∧ (∀ a, acked = some a → target ≤ a) ∧
      ∃ row, d.rows.find target = some row ∧ row.env.hlc.physicalMs ≤ cutoff := by
  unfold compactionTarget at h
  dsimp only at h
  split at h
  · simp at h
  next hlimit =>
    obtain ⟨r, hr, rfl⟩ := Option.map_eq_some_iff.mp h
    obtain ⟨hmem, hp⟩ := List.mem_filter.mp (List.mem_of_getLast? hr)
    rw [decide_eq_true_iff] at hp
    refine ⟨hp.1, by omega, fun a ha => ?_, r.2, Table.mem_rows.mp hmem, hp.2.2⟩
    subst ha
    have := hp.2.1
    simp only [Option.map_some, Option.getD_some] at this
    omega

theorem compactDevice_spec (c : ChainHash) (log : OpLog) (view : CompactionView) (s : StreamId)
    (dev : Device) :
    (log.compactDevice c view s dev).skeleton = (log.devs s dev).skeleton ∨
      ∃ target opHash root, compactionTarget (log.devs s dev) (view.acknowledged dev) view.cutoff =
          some target ∧
        (log.devs s dev).heldOpHash target = some opHash ∧
        ((log.devs s dev).foldChain c (c.init s dev) (log.devs s dev).cursorSeq).rootAt
          (c.init s dev) target = some root ∧
        log.compactDevice c view s dev =
          { (((log.devs s dev).foldChain c (c.init s dev) (log.devs s dev).cursorSeq).raiseFloor
              ⟨target, opHash, root⟩) with
            rows := ((log.devs s dev).foldChain c (c.init s dev)
              (log.devs s dev).cursorSeq).rows.filter fun n row =>
                !log.deletable view s dev target n row } := by
  unfold compactDevice
  dsimp only
  split
  · exact .inl rfl
  next target htarget =>
    split
    next opHash root hop hroot =>
      refine .inr ⟨target, opHash, root, htarget, ?_, hroot, ?_⟩
      · rw [← hop]
        exact heldOpHash_of_skeleton (skeleton_foldChain ..).symm _
      · rw [rows_raiseFloor]
    next => exact .inl (skeleton_foldChain ..)

theorem settled_compactDevice (c : ChainHash) {log : OpLog} (view : CompactionView) {s : StreamId}
    {dev : Device} (hd : (log.devs s dev).Settled) :
    (log.compactDevice c view s dev).Settled ∧
      (log.compactDevice c view s dev).cursorSeq = (log.devs s dev).cursorSeq ∧
      (log.devs s dev).floorSeq ≤ (log.compactDevice c view s dev).floorSeq := by
  rcases log.compactDevice_spec c view s dev with h | ⟨target, opHash, root, ht, -, -, heq⟩
  · exact ⟨hd.of_skeleton h.symm, cursorSeq_of_skeleton h,
      (floorSeq_of_skeleton h).ge⟩
  · obtain ⟨hfloor, hcursor, -, row, hrow, -⟩ := compactionTarget_spec ht
    set d := log.devs s dev with hd_def
    set f := d.foldChain c (c.init s dev) d.cursorSeq with hf
    have hskel : f.skeleton = d.skeleton := skeleton_foldChain ..
    have hmax : target ≤ storeMax := hd.bounded target (by simp [hrow])
    have hfs : (f.raiseFloor ⟨target, opHash, root⟩).floorSeq = target := by
      rw [floorSeq_raiseFloor, floorSeq_of_skeleton hskel,
        if_neg (Nat.not_le.mpr hfloor), i64Of_eq_self]
      exact hmax
    set d' := log.compactDevice c view s dev
    have hfs' : d'.floorSeq = target := by
      rw [heq]
      exact hfs
    have hcs' : d'.cursorSeq = d.cursorSeq := by
      rw [heq]
      show (f.raiseFloor ⟨target, opHash, root⟩).cursorSeq = _
      rw [cursorSeq_raiseFloor]
      exact cursorSeq_of_skeleton hskel
    -- what is deleted is at or below the target
    have hfind : ∀ n, target < n → (d'.rows.find n).isSome = (d.rows.find n).isSome := by
      intro n hn
      rw [← isSome_of_skeleton hskel n, heq, Table.find_filter]
      cases hr : f.rows.find n with
      | none => rfl
      | some row =>
        have : log.deletable view s dev target n row = false := by
          simp [deletable, Nat.not_le.mpr hn]
        simp [this]
    have hsub : ∀ n, (d'.rows.find n).isSome → (d.rows.find n).isSome := by
      intro n hn
      obtain ⟨row, hr⟩ := Option.isSome_iff_exists.mp hn
      rw [heq] at hr
      have := (Table.find_filter_eq_some.mp hr).1
      rw [← isSome_of_skeleton hskel n, this]
      rfl
    refine ⟨⟨⟨fun n hn => hd.bounded n (hsub n hn), hfs' ▸ hmax, fun q hq hle => ?_⟩,
      fun _ n hn => ?_⟩, hcs', hfs' ▸ hfloor.le⟩
    · rw [hcs'] at hle
      by_cases hqt : q ≤ target
      · exact .inl (hfs' ▸ hqt)
      · refine .inr ?_
        rw [hfind q (by omega)]
        rcases hd.contiguous q hq hle with h | h
        · omega
        · exact h
    · -- nothing above the cursor was covered before, and nothing is now
      rw [hcs']
      by_contra hgt
      have hnext := hn (d.cursorSeq + 1) (by omega) (by omega)
      rcases hnext with h | h
      · omega
      · have hcont : d.Contiguous (d.cursorSeq + 1) := by
          intro q hq hle
          by_cases heq' : q = d.cursorSeq + 1
          · rw [heq']
            exact .inr (hsub _ h)
          · exact hd.contiguous q hq (by omega)
        have := hd.greatest (lt_of_lt_of_le hfloor hmax) _ hcont
        omega

/-! ### Runs -/

def Settled (log : OpLog) : Prop := ∀ s dev, (log.devs s dev).Settled

def NoFall (log log' : OpLog) : Prop :=
  ∀ s dev, (log.devs s dev).cursorSeq ≤ (log'.devs s dev).cursorSeq

theorem NoFall.trans {log log' log'' : OpLog} (h : log.NoFall log') (h' : log'.NoFall log'') :
    log.NoFall log'' :=
  fun s dev => (h s dev).trans (h' s dev)

variable {c : ChainHash} {log log' : OpLog}

theorem Settled.of_skeleton (h : log.skeleton = log'.skeleton) (hl : log.Settled) :
    log'.Settled ∧ log.NoFall log' :=
  ⟨fun s dev => (hl s dev).of_skeleton (skeleton_apply h s dev),
    fun s dev => (cursorSeq_of_skeleton (skeleton_apply h s dev)).le⟩

theorem Settled.insert_advance (hl : log.Settled) (c : ChainHash) {env : Envelope}
    (hn : env.ref.seq ≤ storeMax) (row : LogRow)
    (h : log'.skeleton = (log.insertRow env row).skeleton) :
    (log'.advance c env).Settled ∧ log.NoFall (log'.advance c env) := by
  have hdev : ∀ s dev, ¬ (s = env.ref.stream ∧ dev = env.ref.device) →
      (log'.devs s dev).skeleton = (log.devs s dev).skeleton := by
    intro s dev hne
    rw [skeleton_apply h, insertRow, devs_modify, if_neg hne]
  have hat : (log'.devs env.ref.stream env.ref.device).skeleton =
      ({ (log.devs env.ref.stream env.ref.device) with
        rows := (log.devs env.ref.stream env.ref.device).rows.upsert env.ref.seq row } :
        DeviceLog).skeleton := by
    rw [skeleton_apply h, insertRow, devs_modify_self]
  have hsound := ((hl env.ref.stream env.ref.device).toSound.insert hn row).of_skeleton hat.symm
  constructor
  · intro s dev
    unfold advance
    rw [devs_modify]
    split
    next => exact hsound.settled_upsertSyncCursor c _
    next hne => exact (hl s dev).of_skeleton (hdev s dev hne).symm
  · intro s dev
    unfold advance
    rw [devs_modify]
    split
    next heq =>
      obtain ⟨rfl, rfl⟩ := heq
      rw [cursorSeq_upsertSyncCursor, cursorSeq_of_skeleton hat]
      exact le_max_left ..
    next hne => exact (cursorSeq_of_skeleton (hdev s dev hne)).ge

theorem Settled.append (hl : log.Settled) (c : ChainHash) (draft : Envelope) :
    (log.append c draft).Settled ∧ log.NoFall (log.append c draft) := by
  unfold OpLog.append
  dsimp only
  split
  next hn => exact hl.insert_advance c hn _ rfl
  next => exact ⟨hl, fun _ _ => le_rfl⟩

theorem Settled.absorb (hl : log.Settled) (c : ChainHash) {env : Envelope}
    (hn : env.ref.seq ≤ storeMax) (row : LogRow) :
    ((log.insertRow env row).absorb c env).Settled ∧
      log.NoFall ((log.insertRow env row).absorb c env) := by
  unfold OpLog.absorb
  dsimp only
  refine hl.insert_advance c hn row ?_
  split
  · rw [skeleton_reconcile, skeleton_of_core (core_checkLinks ..)]
  · rw [skeleton_of_core (core_checkLinks ..)]

/-- The log takes a delivery in as a new row. -/
def Accepts (log : OpLog) (env : Envelope) : Prop :=
  log.isCovered env = false ∧ env.ref.seq ≤ storeMax ∧ log.rowAt env.ref = none

/-- What the log is after a delivery: one that is covered, has no place or is held already is only
compared, and any other writes its row. -/
inductive Delivers (c : ChainHash) (log : OpLog) (env : Envelope) : OpLog → Prop
  | covered (h : log.isCovered env = true) : Delivers c log env (log.checkCovered env)
  | misplaced (h : storeMax < env.ref.seq) : Delivers c log env log
  | duplicate {row : LogRow} (hmax : env.ref.seq ≤ storeMax) (h : log.rowAt env.ref = some row) :
    Delivers c log env (log.checkDuplicate env)
  | read (h : log.Accepts env) :
    Delivers c log env
      ((log.insertRow env ⟨env, env.inner.kind, true, false, none⟩).absorb c env)
  | released {row : LogRow} (hmax : env.ref.seq ≤ storeMax) (h : log.rowAt env.ref = some row) :
    Delivers c log env
      ((log.insertRow env { row with kind := env.inner.kind, applied := true, parked := false }
        ).absorb c env)
  | parked (h : log.Accepts env) :
    Delivers c log env
      (((log.insertRow env ⟨env, .parked, false, true, none⟩).checkLinks env).advance c env)

theorem delivers (c : ChainHash) (log : OpLog) (dl : Delivery) :
    log.Delivers c dl.env (log.deliver c dl) := by
  unfold deliver
  split
  · unfold receive
    split
    next hcov => exact .covered hcov
    next hcov =>
      split
      next hbig => exact .misplaced hbig
      next hmax =>
        split
        next hrow => exact .read ⟨by simpa using hcov, not_lt.mp hmax, hrow⟩
        next row hrow =>
          split
          · exact .released (not_lt.mp hmax) hrow
          · exact .duplicate (not_lt.mp hmax) hrow
  · unfold park
    split
    next hcov => exact .covered hcov
    next hcov =>
      split
      next hbig => exact .misplaced hbig
      next hmax =>
        split
        next hrow => exact .parked ⟨by simpa using hcov, not_lt.mp hmax, hrow⟩
        next row hrow => exact .duplicate (not_lt.mp hmax) hrow

theorem Settled.deliver (hl : log.Settled) (c : ChainHash) (dl : Delivery) :
    (log.deliver c dl).Settled ∧ log.NoFall (log.deliver c dl) := by
  have hsame : ∀ {log' : OpLog}, log'.core = log.core → log'.Settled ∧ log.NoFall log' :=
    fun h => hl.of_skeleton (skeleton_of_core h).symm
  have h := log.delivers c dl
  generalize log.deliver c dl = log' at h
  cases h with
  | covered => exact hsame (core_checkCovered ..)
  | misplaced => exact hsame rfl
  | duplicate => exact hsame (core_checkDuplicate ..)
  | read h => exact hl.absorb c h.2.1 _
  | released hmax => exact hl.absorb c hmax _
  | parked h => exact hl.insert_advance c h.2.1 _ (skeleton_of_core (core_checkLinks ..))

theorem Settled.compactStream (hl : log.Settled) (c : ChainHash) (view : CompactionView)
    (s : StreamId) :
    (log.compactStream c view s).Settled ∧ log.NoFall (log.compactStream c view s) := by
  have h : ∀ s' dev, ((log.compactStream c view s).devs s' dev).Settled ∧
      (log.devs s' dev).cursorSeq ≤ ((log.compactStream c view s).devs s' dev).cursorSeq := by
    intro s' dev
    unfold OpLog.compactStream
    dsimp only
    split
    next hs =>
      obtain ⟨rfl, -⟩ := hs
      have := settled_compactDevice c view (hl s' dev)
      exact ⟨this.1, this.2.1.ge⟩
    next => exact ⟨hl s' dev, le_rfl⟩
  exact ⟨fun s' dev => (h s' dev).1, fun s' dev => (h s' dev).2⟩

theorem skeleton_checkEntries (c : ChainHash) (s : StreamId) {entries : List SnapshotEntry}
    {log log' : OpLog} {adds adds' : Bool}
    (h : checkEntries c s entries log adds = some (log', adds')) :
    log'.skeleton = log.skeleton := by
  induction entries generalizing log adds with
  | nil =>
    obtain ⟨rfl, -⟩ := Prod.mk.inj (Option.some.inj h)
    rfl
  | cons e entries ih =>
    unfold checkEntries at h
    dsimp only at h
    split at h
    · exact ih h
    · split at h
      · split at h
        · exact (ih h).trans (skeleton_foldAt ..)
        · simp at h
      · exact (ih h).trans (skeleton_foldAt ..)

theorem Settled.adopt (hl : log.Settled) (c : ChainHash) (s : StreamId) (e : SnapshotEntry) :
    (adopt c s log e).Settled ∧ log.NoFall (adopt c s log e) := by
  unfold OpLog.adopt
  dsimp only
  set log₁ := if e.floor.seq ≤ (log.devs s e.device).floorSeq then
      log.modify s e.device fun d => d.raiseFloor e.floor
    else (log.modify s e.device fun d => d.raiseFloor e.floor).settleBelowFloor s e.device e.floor
    with hlog₁
  have hskel : log₁.skeleton = (log.modify s e.device fun d => d.raiseFloor e.floor).skeleton := by
    rw [hlog₁]
    split
    · rfl
    · rw [skeleton_of_core (core_settleBelowFloor ..)]
  have hdev : ∀ s' dev, ¬ (s' = s ∧ dev = e.device) →
      (log₁.devs s' dev).skeleton = (log.devs s' dev).skeleton := by
    intro s' dev hne
    rw [skeleton_apply hskel, devs_modify, if_neg hne]
  have hat : (log₁.devs s e.device).skeleton =
      ((log.devs s e.device).raiseFloor e.floor).skeleton := by
    rw [skeleton_apply hskel, devs_modify_self]
  have hsound := ((hl s e.device).toSound.raiseFloor e.floor).of_skeleton hat.symm
  constructor
  · intro s' dev
    rw [devs_modify]
    split
    next => exact hsound.settled_upsertSyncCursor c _
    next hne => exact (hl s' dev).of_skeleton (hdev s' dev hne).symm
  · intro s' dev
    rw [devs_modify]
    split
    next heq =>
      obtain ⟨rfl, rfl⟩ := heq
      rw [cursorSeq_upsertSyncCursor, cursorSeq_of_skeleton hat,
        cursorSeq_raiseFloor]
      exact le_max_left ..
    next hne => exact (cursorSeq_of_skeleton (hdev s' dev hne)).ge

theorem Settled.foldl {α : Type*} {f : OpLog → α → OpLog}
    (hf : ∀ l a, Settled l → (f l a).Settled ∧ l.NoFall (f l a)) (as : List α)
    (hl : log.Settled) : (as.foldl f log).Settled ∧ log.NoFall (as.foldl f log) := by
  induction as generalizing log with
  | nil => exact ⟨hl, fun _ _ => le_rfl⟩
  | cons a as ih =>
    obtain ⟨h, hn⟩ := hf log a hl
    obtain ⟨h', hn'⟩ := ih h
    exact ⟨h', hn.trans hn'⟩

theorem Settled.applySnapshot (hl : log.Settled) (c : ChainHash) (s : StreamId)
    (entries : List SnapshotEntry) (retained : List Delivery) :
    (log.applySnapshot c s entries retained).Settled ∧
      log.NoFall (log.applySnapshot c s entries retained) := by
  unfold OpLog.applySnapshot
  split
  · exact ⟨hl, fun _ _ => le_rfl⟩
  · split
    · exact ⟨hl, fun _ _ => le_rfl⟩
    next log₁ hcheck => exact hl.of_skeleton (skeleton_checkEntries c s hcheck).symm
    next log₁ hcheck =>
      obtain ⟨h₁, hn₁⟩ := hl.of_skeleton (skeleton_checkEntries c s hcheck).symm
      obtain ⟨h₂, hn₂⟩ := h₁.foldl (fun _ dl hl => hl.deliver c dl) retained
      dsimp only
      split
      · obtain ⟨h₃, hn₃⟩ := h₂.foldl (fun _ e hl => hl.adopt c s e) entries
        exact ⟨h₃, hn₁.trans (hn₂.trans hn₃)⟩
      · exact ⟨h₂, hn₁.trans hn₂⟩

theorem Settled.handle (hl : log.Settled) (c : ChainHash) (ev : Event) :
    (log.handle c ev).Settled ∧ log.NoFall (log.handle c ev) := by
  cases ev with
  | append draft => exact hl.append c draft
  | deliver dl => exact hl.deliver c dl
  | compact view s => exact hl.compactStream c view s
  | snapshot s entries retained => exact hl.applySnapshot c s entries retained

theorem settled_run (c : ChainHash) (events : List Event) : (run c events).Settled := by
  have h : (∅ : OpLog).Settled := fun _ _ => settled_empty
  exact (Settled.foldl (fun _ ev hl => hl.handle c ev) events h).1

/-- **The cursor is the contiguous prefix.** After every run of appends, deliveries,
compactions and snapshots the cursor of a device is the greatest `n` such that every
sequence number from 1 to `n` is at or below the floor or in the log, where the floor is
below the greatest number the store holds. It never falls, and never passes a hole. -/
theorem isGreatest_cursorSeq (c : ChainHash) (events more : List Event) (s : StreamId)
    (dev : Device) :
    let d := (run c events).devs s dev
    (d.floorSeq < storeMax → IsGreatest {n | d.Contiguous n} d.cursorSeq) ∧
      d.Contiguous d.cursorSeq ∧
      d.cursorSeq ≤ ((run c (events ++ more)).devs s dev).cursorSeq := by
  intro d
  have hd := settled_run c events s dev
  refine ⟨fun hlt => ⟨hd.contiguous, fun n hn => hd.greatest hlt n hn⟩, hd.contiguous, ?_⟩
  unfold run
  rw [List.foldl_append]
  exact (Settled.foldl (fun _ ev hl => hl.handle c ev) more (settled_run c events)).2 s dev

end OpLog

/-- A chain whose step loses nothing, for the worked examples. -/
def ChainHash.sample : ChainHash := ⟨Nat.pair, Nat.pair⟩

theorem ChainHash.sample_injective : Function.Injective2 ChainHash.sample.step :=
  fun _ _ _ _ h => Nat.pair_eq_pair.mp h

/-- Device 1's op of stream 7 at a sequence number. -/
def opAt (n : ℕ) (hash : Hash) : Envelope := { ref := ⟨7, 1, n⟩, hlc := ⟨n, 0⟩, opHash := hash }

namespace OpLog

theorem isGreatest_cursorSeq_first_op :
    let d := (run .sample [.deliver ⟨opAt 1 5, true⟩]).devs 7 1
    d.floorSeq < storeMax ∧ IsGreatest {n | d.Contiguous n} d.cursorSeq := by
  have h := isGreatest_cursorSeq .sample [.deliver ⟨opAt 1 5, true⟩] [] 7 1
  have hf : ((run .sample [.deliver ⟨opAt 1 5, true⟩]).devs 7 1).floorSeq < storeMax := by decide
  exact ⟨hf, h.1 hf⟩

/-- The cursor holds the end of the prefix, not one past it; and above a floor as high
as the store can hold no run starts, so the cursor stays below that floor. -/
theorem cursorSeq_ne_succ :
    (let d := (run .sample [.deliver ⟨opAt 1 5, true⟩]).devs 7 1;
      IsGreatest {n | d.Contiguous n} 1 ∧ d.cursorSeq = 1) ∧
    (let d := (run .sample [.snapshot 7 [⟨1, storeMax, 0, 0⟩] []]).devs 7 1;
      d.Contiguous storeMax ∧ d.cursorSeq = 0) := by
  constructor
  · have hd := settled_run .sample [.deliver ⟨opAt 1 5, true⟩] 7 1
    have hc : ((run .sample [.deliver ⟨opAt 1 5, true⟩]).devs 7 1).cursorSeq = 1 := by decide
    exact ⟨⟨hc ▸ hd.contiguous, fun n hn => hc ▸ hd.greatest (by decide) n hn⟩, hc⟩
  · have hf : ((run .sample [.snapshot 7 [⟨1, storeMax, 0, 0⟩] []]).devs 7 1).floorSeq =
        storeMax := by decide
    exact ⟨fun q _ hle => .inl (hf ▸ hle), by decide⟩

end OpLog

end Sunrise
