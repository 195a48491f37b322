import Sunrise.Log.Chain

/-!
# What the log records of forks

The two tables of the fork check: `fork_evidence`, whose rows are never deleted, and
`chain_expected`, whose rows go when their position is taken or covered. This file says
what each write of the log does to them and to the rows and floors they are read
against, and what is recorded when a name meets the op it names.

* `Envelope.named`, `OpLog.checkLinks_eq` — links are checked name by name.
-/

namespace Sunrise

open DeviceLog

/-! ### What an op names -/

/-- A position an op names, and the hash it asserts of it. -/
structure Named where
  ref : OpRef
  kind : ForkKind
  hash : Hash

namespace Envelope

/-- Its writer's op before it. -/
def namedPrev (env : Envelope) : List Named :=
  match env.prevHash with
  | some prev =>
    if 1 < env.ref.seq then [⟨{ env.ref with seq := env.ref.seq - 1 }, .link, prev⟩] else []
  | none => []

/-- The tips of other devices. -/
def namedHeads (env : Envelope) : List Named :=
  env.heads.filterMap fun head =>
    if head.device = env.ref.device ∨ head.seq = 0 then none
    else some ⟨⟨env.ref.stream, head.device, head.seq⟩, .head, head.opHash⟩

/-- Everything an op names that a replica reads. -/
def named (env : Envelope) : List Named := env.namedPrev ++ env.namedHeads

def Names (env : Envelope) (r : OpRef) (h : Hash) : Prop :=
  ∃ n ∈ env.named, n.ref = r ∧ n.hash = h

theorem ref_ne_of_mem_named {env : Envelope} {n : Named} (hn : n ∈ env.named) :
    n.ref ≠ env.ref := by
  rcases List.mem_append.mp hn with h | h
  · unfold namedPrev at h
    split at h
    · split at h
      next hseq =>
        rw [List.mem_singleton.mp h]
        intro heq
        have : env.ref.seq - 1 = env.ref.seq := congrArg OpRef.seq heq
        omega
      next => simp at h
    · simp at h
  · obtain ⟨head, -, hhead⟩ := List.mem_filterMap.mp h
    split at hhead
    · simp at hhead
    next hne =>
      rw [← Option.some.inj hhead]
      exact fun heq => hne (.inl (congrArg OpRef.device heq))

end Envelope

namespace OpLog

/-- Take what was expected at a position: judge it and drop it. -/
def takeExpected (log : OpLog) (env : Envelope) : OpLog :=
  { log.settleExpected env.ref env.opHash with
    expected := (log.settleExpected env.ref env.opHash).expected.filter fun k _ =>
      (ofLex k).1 ≠ storedRef env.ref }

theorem checkLinks_eq (log : OpLog) (env : Envelope) :
    log.checkLinks env = env.named.foldl (fun l n => l.checkNamed n.ref n.kind n.hash env)
      (log.takeExpected env) := by
  have hheads : ∀ l : OpLog, env.heads.foldl (checkHead env) l =
      env.namedHeads.foldl (fun l n => l.checkNamed n.ref n.kind n.hash env) l := by
    unfold Envelope.namedHeads
    induction env.heads with
    | nil => exact fun _ => rfl
    | cons head heads ih =>
      intro l
      rw [List.foldl_cons, ih, List.filterMap_cons]
      unfold checkHead
      by_cases h : head.device = env.ref.device ∨ head.seq = 0
      · simp only [if_pos h]
      · simp only [if_neg h, List.foldl_cons]
  unfold checkLinks Envelope.named
  rw [List.foldl_append]
  dsimp only
  rw [hheads]
  congr 1
  unfold Envelope.namedPrev
  cases env.prevHash with
  | none => rfl
  | some prev =>
    by_cases h : 1 < env.ref.seq
    · simp only [if_pos h]
      rfl
    · simp only [if_neg h]
      rfl

end OpLog

/-! ### Rows and floors -/

namespace DeviceLog

/-- The rows without their roots, and the floor. -/
def frame (d : DeviceLog) : (ℕ → Option LogRow) × Option Floor :=
  (fun n => (d.rows.find n).map LogRow.bare, d.floor)

theorem frame_of_skeleton {d d' : DeviceLog} (h : d.skeleton = d'.skeleton) :
    d.frame = d'.frame :=
  congrArg (fun p => (p.1, p.2.1)) h

theorem frame_upsertSyncCursor (c : ChainHash) (init : Hash) (d : DeviceLog) :
    (d.upsertSyncCursor c init).frame = d.frame :=
  (frame_of_skeleton (skeleton_upsertSyncCursor c init d)).trans rfl

/-! ### The writes that keep the evidence -/

@[simp] theorem forks_judge (d : DeviceLog) (peer : Device) (n : ℕ) (p h : Hash) :
    (d.judge peer n p h).forks = d.forks := by
  unfold judge
  split <;> rfl

theorem forks_foldl {α : Type*} {f : DeviceLog → α → DeviceLog}
    (hf : ∀ d a, (f d a).forks = d.forks) (l : List α) (d : DeviceLog) :
    (l.foldl f d).forks = d.forks := by
  induction l generalizing d with
  | nil => rfl
  | cons a l ih => rw [List.foldl_cons, ih, hf]

@[simp] theorem forks_setRoot (d : DeviceLog) (n : ℕ) (root : Hash) :
    (d.setRoot n root).forks = d.forks := by
  unfold setRoot
  split <;> rfl

@[simp] theorem forks_extendRoots (c : ChainHash) (n : ℕ) (d : DeviceLog) (seq : ℕ)
    (root : Hash) : (extendRoots c n d seq root).1.forks = d.forks := by
  induction n generalizing d seq root with
  | zero => rfl
  | succ n ih =>
    unfold extendRoots
    split
    · rfl
    · rw [ih, forks_setRoot]

@[simp] theorem forks_checkClaims (init : Hash) (d : DeviceLog) (upTo : ℕ) :
    (d.checkClaims init upTo).forks = d.forks := by
  refine forks_foldl (fun d a => ?_) _ d
  dsimp only
  split
  · rw [forks_judge]
  · rfl

@[simp] theorem forks_foldChain (c : ChainHash) (init : Hash) (d : DeviceLog) (upTo : ℕ) :
    (d.foldChain c init upTo).forks = d.forks := by
  unfold foldChain
  split
  · rfl
  · rw [forks_checkClaims, forks_extendRoots]

@[simp] theorem forks_upsertSyncCursor (c : ChainHash) (init : Hash) (d : DeviceLog) :
    (d.upsertSyncCursor c init).forks = d.forks :=
  forks_foldChain ..

@[simp] theorem forks_compareEntry (c : ChainHash) (init : Hash) (peer : Device) (d : DeviceLog)
    (e : FrontierEntry) : (d.compareEntry c init peer e).forks = d.forks := by
  unfold compareEntry
  dsimp only
  split
  · have hfold : (if (d.rootAt init e.seq).isNone then d.foldChain c init d.cursorSeq
        else d).forks = d.forks := by
      split
      · rw [forks_foldChain]
      · rfl
    split
    · rw [forks_judge, hfold]
    · exact hfold
  · split
    · split <;> rfl
    · rfl

@[simp] theorem forks_raiseFloor (d : DeviceLog) (f : Floor) :
    (d.raiseFloor f).forks = d.forks := by
  unfold raiseFloor
  split <;> rfl

end DeviceLog

variable {k : OpRef ×ₗ Hash}

namespace OpLog

/-- The rows without their roots, and the floors. -/
def frame (log : OpLog) (s : StreamId) (dev : Device) : (ℕ → Option LogRow) × Option Floor :=
  (log.devs s dev).frame

variable {c : ChainHash} {log log' log'' : OpLog}

theorem frame_of_skeleton (h : log.skeleton = log'.skeleton) : log.frame = log'.frame := by
  funext s dev
  exact DeviceLog.frame_of_skeleton (skeleton_apply h s dev)

theorem floor_of_frame (h : log.frame = log'.frame) (s : StreamId) (dev : Device) :
    (log.devs s dev).floor = (log'.devs s dev).floor :=
  congrArg Prod.snd (congrFun (congrFun h s) dev)

theorem floorSeq_of_frame (h : log.frame = log'.frame) (s : StreamId) (dev : Device) :
    (log.devs s dev).floorSeq = (log'.devs s dev).floorSeq := by
  rw [floorSeq, floorSeq, floor_of_frame h]

theorem bare_of_frame (h : log.frame = log'.frame) (r : OpRef) :
    (log.rowAt r).map LogRow.bare = (log'.rowAt r).map LogRow.bare :=
  congrFun (congrArg Prod.fst (congrFun (congrFun h r.stream) r.device)) (i64Of r.seq)

def heldAt (log : OpLog) (r : OpRef) : Option Envelope := (log.rowAt r).map (·.env)

theorem heldAt_of_frame (h : log.frame = log'.frame) (r : OpRef) :
    log.heldAt r = log'.heldAt r := by
  have hr := congrArg (Option.map LogRow.env) (bare_of_frame h r)
  rw [Option.map_map, Option.map_map] at hr
  exact hr

theorem isSome_rowAt (log : OpLog) (r : OpRef) : (log.rowAt r).isSome = (log.heldAt r).isSome := by
  rw [heldAt, Option.isSome_map]

theorem heldOpHash_eq (log : OpLog) (r : OpRef) :
    (log.devs r.stream r.device).heldOpHash r.seq =
      match log.heldAt r with
      | some env => some env.opHash
      | none => ((log.devs r.stream r.device).floor.filter fun f => f.seq = r.seq).map
          (·.opHash) := by
  unfold heldOpHash heldAt rowAt
  cases (log.devs r.stream r.device).rows.find (i64Of r.seq) <;> rfl

theorem frame_advance (c : ChainHash) (log : OpLog) (env : Envelope) :
    (log.advance c env).frame = log.frame := by
  funext s dev
  unfold frame advance
  rw [devs_modify]
  split
  next h =>
    obtain ⟨rfl, rfl⟩ := h
    rw [frame_upsertSyncCursor]
  next => rfl

/-! ### Evidence is kept -/

/-- Every row of evidence of one log is in the other. -/
structure KeepsForks (log log' : OpLog) : Prop where
  kept : ∀ s dev k, ((log.devs s dev).forks.find k).isSome →
    ((log'.devs s dev).forks.find k).isSome

theorem KeepsForks.refl (log : OpLog) : log.KeepsForks log := ⟨fun _ _ _ h => h⟩

theorem KeepsForks.of_devs (h : log.devs = log'.devs) : log.KeepsForks log' :=
  ⟨fun _ _ _ hk => h ▸ hk⟩

def forks (log : OpLog) (s : StreamId) (dev : Device) : Table (ℕ ×ₗ ForkKind ×ₗ Hash) Fork :=
  (log.devs s dev).forks

theorem KeepsForks.of_forks (h : log'.forks = log.forks) : log.KeepsForks log' :=
  ⟨fun s dev k hk => by
    rw [show (log'.devs s dev).forks = (log.devs s dev).forks from congrFun (congrFun h s) dev]
    exact hk⟩

theorem KeepsForks.trans (h : log.KeepsForks log') (h' : log'.KeepsForks log'') :
    log.KeepsForks log'' :=
  ⟨fun s dev k hk => h'.kept s dev k (h.kept s dev k hk)⟩

theorem keepsForks_modify (log : OpLog) (s : StreamId) (dev : Device)
    {f : DeviceLog → DeviceLog}
    (hf : ∀ d k, (d.forks.find k).isSome → ((f d).forks.find k).isSome) :
    log.KeepsForks (log.modify s dev f) := by
  refine ⟨fun s' dev' k hk => ?_⟩
  rw [devs_modify]
  split
  next h =>
    obtain ⟨rfl, rfl⟩ := h
    exact hf _ k hk
  next => exact hk

theorem forks_modify (log : OpLog) (s : StreamId) (dev : Device) {f : DeviceLog → DeviceLog}
    (hf : ∀ d, (f d).forks = d.forks) : (log.modify s dev f).forks = log.forks := by
  funext s' dev'
  unfold forks
  rw [devs_modify]
  split
  next h => rw [hf, h.1, h.2]
  next => rfl

theorem forks_foldl {α : Type*} {f : OpLog → α → OpLog} (hf : ∀ l a, (f l a).forks = l.forks)
    (as : List α) (log : OpLog) : (as.foldl f log).forks = log.forks := by
  induction as generalizing log with
  | nil => rfl
  | cons a as ih => rw [List.foldl_cons, ih, hf]

theorem keepsForks_foldl {α : Type*} {f : OpLog → α → OpLog} (hf : ∀ l a, KeepsForks l (f l a))
    (as : List α) (log : OpLog) : log.KeepsForks (as.foldl f log) := by
  induction as generalizing log with
  | nil => exact .refl log
  | cons a as ih => exact (hf log a).trans (ih _)

theorem isSome_find_recordFork (d : DeviceLog) (n : ℕ) (kind : ForkKind) (held other : Hash)
    (env : Envelope) :
    ((d.recordFork n kind held other env).forks.find
      (toLex (i64Of n, toLex (kind, other)))).isSome := by
  unfold recordFork
  rw [Table.find_insertOrIgnore, if_pos rfl]
  rfl

theorem keepsForks_recordFork (log : OpLog) (s : StreamId) (dev : Device) (n : ℕ)
    (kind : ForkKind) (held other : Hash) (env : Envelope) :
    log.KeepsForks (log.modify s dev (·.recordFork n kind held other env)) := by
  refine keepsForks_modify log s dev fun d k hk => ?_
  unfold recordFork
  rw [Table.find_insertOrIgnore]
  split
  · rfl
  · exact hk

theorem keepsForks_judgeExpected (r : OpRef) (hash : Hash) (log : OpLog) (e : Hash × OpRef) :
    log.KeepsForks (judgeExpected r hash log e) := by
  unfold judgeExpected
  split
  · exact .refl log
  · split
    · exact .refl log
    · exact keepsForks_recordFork ..

theorem keepsForks_settleExpected (log : OpLog) (r : OpRef) (hash : Hash) :
    log.KeepsForks (log.settleExpected r hash) :=
  keepsForks_foldl (keepsForks_judgeExpected r hash) _ log

theorem keepsForks_checkNamed (log : OpLog) (r : OpRef) (kind : ForkKind) (hash : Hash)
    (env : Envelope) : log.KeepsForks (log.checkNamed r kind hash env) := by
  unfold checkNamed
  dsimp only
  split
  · split
    · exact .refl log
    · exact keepsForks_recordFork ..
  · split
    · exact .refl log
    · exact .of_devs rfl

theorem keepsForks_checkLinks (log : OpLog) (env : Envelope) :
    log.KeepsForks (log.checkLinks env) := by
  rw [checkLinks_eq]
  refine KeepsForks.trans ?_ (keepsForks_foldl (fun l n => keepsForks_checkNamed ..) _ _)
  exact (keepsForks_settleExpected log env.ref env.opHash).trans (.of_devs rfl)

theorem keepsForks_checkDuplicate (log : OpLog) (env : Envelope) :
    log.KeepsForks (log.checkDuplicate env) := by
  unfold checkDuplicate
  split
  · split
    · exact .refl log
    · exact keepsForks_recordFork ..
  · exact .refl log

theorem keepsForks_checkCovered (log : OpLog) (env : Envelope) :
    log.KeepsForks (log.checkCovered env) := by
  unfold checkCovered
  split
  · split
    · exact keepsForks_recordFork ..
    · exact .refl log
  · exact .refl log

@[simp] theorem forks_reconcile (c : ChainHash) (log : OpLog) (s : StreamId) (peer : Device)
    (entries : List FrontierEntry) (authentic : Bool) :
    (log.reconcile c s peer entries authentic).forks = log.forks := by
  unfold reconcile
  split
  · rw [forks_foldl, recordPeerFrontier, forks_foldl]
    · intro l e
      exact forks_modify l s e.device fun d => rfl
    · intro l e
      split
      · rfl
      · exact forks_modify l s e.device fun d => forks_compareEntry ..
  · rfl

@[simp] theorem forks_insertRow (log : OpLog) (env : Envelope) (row : LogRow) :
    (log.insertRow env row).forks = log.forks :=
  forks_modify _ _ _ fun _ => rfl

@[simp] theorem forks_advance (c : ChainHash) (log : OpLog) (env : Envelope) :
    (log.advance c env).forks = log.forks :=
  forks_modify _ _ _ fun _ => forks_upsertSyncCursor ..

@[simp] theorem forks_foldAt (c : ChainHash) (log : OpLog) (s : StreamId) (dev : Device) (n : ℕ) :
    (log.foldAt c s dev n).forks = log.forks := by
  unfold foldAt
  split
  · exact forks_modify _ _ _ fun d => forks_foldChain ..
  · rfl

@[simp] theorem forks_compactStream (c : ChainHash) (log : OpLog) (view : CompactionView)
    (s : StreamId) : (log.compactStream c view s).forks = log.forks := by
  funext s' dev
  have h : (log.compactDevice c view s dev).forks = (log.devs s dev).forks := by
    unfold compactDevice
    dsimp only
    split
    · rfl
    · split
      · rw [forks_raiseFloor, forks_foldChain]
      · rw [forks_foldChain]
  unfold forks compactStream
  dsimp only
  split
  next hs => rw [h, hs.1]
  next => rfl

@[simp] theorem forks_append (c : ChainHash) (log : OpLog) (draft : Envelope) :
    (log.append c draft).forks = log.forks := by
  unfold append
  dsimp only
  split
  · rw [forks_advance, forks_insertRow]
  · rfl

theorem keepsForks_settleBelowFloor (log : OpLog) (s : StreamId) (dev : Device) (f : Floor) :
    log.KeepsForks (log.settleBelowFloor s dev f) := by
  unfold settleBelowFloor
  dsimp only
  refine (keepsForks_settleExpected log ⟨s, dev, f.seq⟩ f.opHash).trans ?_
  refine KeepsForks.trans (.of_devs ?_) (.of_forks (forks_modify _ s dev fun d => ?_))
  · rfl
  · rw [DeviceLog.forks_foldl fun d r => DeviceLog.forks_judge ..]

theorem keepsForks_adopt (c : ChainHash) (s : StreamId) (log : OpLog) (e : SnapshotEntry) :
    log.KeepsForks (adopt c s log e) := by
  have hraise : log.KeepsForks (log.modify s e.device (·.raiseFloor e.floor)) :=
    .of_forks (forks_modify _ _ _ fun d => forks_raiseFloor ..)
  unfold adopt
  dsimp only
  refine KeepsForks.trans ?_ (.of_forks (forks_modify _ s e.device fun d =>
    forks_upsertSyncCursor ..))
  split
  · exact hraise
  · exact hraise.trans (keepsForks_settleBelowFloor ..)

/-! ### Expectations -/

@[simp] theorem expected_foldl {α : Type*} {f : OpLog → α → OpLog}
    (hf : ∀ l a, (f l a).expected = l.expected) (as : List α) (log : OpLog) :
    (as.foldl f log).expected = log.expected := by
  induction as generalizing log with
  | nil => rfl
  | cons a as ih => rw [List.foldl_cons, ih, hf]

@[simp] theorem expected_settleExpected (log : OpLog) (r : OpRef) (hash : Hash) :
    (log.settleExpected r hash).expected = log.expected := by
  refine expected_foldl (fun l e => ?_) _ log
  unfold judgeExpected
  split
  · rfl
  · split <;> rfl

@[simp] theorem expected_checkDuplicate (log : OpLog) (env : Envelope) :
    (log.checkDuplicate env).expected = log.expected := by
  unfold checkDuplicate
  split
  · split <;> rfl
  · rfl

@[simp] theorem expected_checkCovered (log : OpLog) (env : Envelope) :
    (log.checkCovered env).expected = log.expected := by
  unfold checkCovered
  split
  · split <;> rfl
  · rfl

@[simp] theorem expected_reconcile (c : ChainHash) (log : OpLog) (s : StreamId) (peer : Device)
    (entries : List FrontierEntry) (authentic : Bool) :
    (log.reconcile c s peer entries authentic).expected = log.expected := by
  unfold reconcile
  split
  · rw [expected_foldl, recordPeerFrontier, expected_foldl]
    · intro l e
      rfl
    · intro l e
      split <;> rfl
  · rfl

@[simp] theorem expected_foldAt (c : ChainHash) (log : OpLog) (s : StreamId) (dev : Device)
    (n : ℕ) : (log.foldAt c s dev n).expected = log.expected := by
  unfold foldAt
  split <;> rfl

theorem isSome_find_expect (log : OpLog) (r : OpRef) (hash : Hash) (namedBy : OpRef)
    (hk : (log.expected.find k).isSome ∨ k = toLex (storedRef r, hash)) :
    ((log.expect r hash namedBy).expected.find k).isSome := by
  unfold expect
  rw [Table.find_insertOrIgnore]
  split
  · rfl
  next hne => exact hk.resolve_right hne

theorem find_expect_eq_some {r : OpRef} {hash : Hash} {namedBy n : OpRef}
    (h : (log.expect r hash namedBy).expected.find k = some n) :
    log.expected.find k = some n ∨ k = toLex (storedRef r, hash) ∧ n = namedBy := by
  unfold expect at h
  rw [Table.find_insertOrIgnore] at h
  split at h
  next heq =>
    subst heq
    cases hold : log.expected.find (toLex (storedRef r, hash)) with
    | none =>
      rw [hold, Option.getD_none, Option.some.injEq] at h
      exact .inr ⟨rfl, h.symm⟩
    | some n' =>
      rw [hold, Option.getD_some] at h
      exact .inl h
  next => exact .inl h

theorem expected_checkNamed (log : OpLog) (r : OpRef) (kind : ForkKind) (hash : Hash)
    (env : Envelope) :
    (log.checkNamed r kind hash env).expected = log.expected ∨
      (log.checkNamed r kind hash env).expected = (log.expect r hash env.ref).expected := by
  unfold checkNamed
  dsimp only
  split
  · refine .inl ?_
    split <;> rfl
  · split
    · exact .inl rfl
    · exact .inr rfl

theorem isSome_expected_checkNamed {r : OpRef} {kind : ForkKind} {hash : Hash} {env : Envelope}
    (hheld : (log.devs r.stream r.device).heldOpHash r.seq = none)
    (hfloor : ¬ r.seq < (log.devs r.stream r.device).floorSeq) :
    ((log.checkNamed r kind hash env).expected.find (toLex (storedRef r, hash))).isSome := by
  unfold checkNamed
  dsimp only
  rw [hheld]
  dsimp only
  rw [if_neg hfloor]
  exact isSome_find_expect log r hash env.ref (.inr rfl)

theorem isSome_expected_foldl (env : Envelope) (ns : List Named) (log : OpLog)
    (hk : (log.expected.find k).isSome) :
    ((ns.foldl (fun l n => l.checkNamed n.ref n.kind n.hash env) log).expected.find k).isSome := by
  induction ns generalizing log with
  | nil => exact hk
  | cons n ns ih =>
    refine ih _ ?_
    rcases log.expected_checkNamed n.ref n.kind n.hash env with h | h
    · rwa [h]
    · rw [h]
      exact isSome_find_expect log n.ref n.hash env.ref (.inl hk)

theorem isSome_expected_checkLinks {env : Envelope}
    (hk : (log.expected.find k).isSome) (hne : (ofLex k).1 ≠ storedRef env.ref) :
    ((log.checkLinks env).expected.find k).isSome := by
  rw [checkLinks_eq]
  refine isSome_expected_foldl env _ _ ?_
  unfold takeExpected
  dsimp only
  obtain ⟨n, hn⟩ := Option.isSome_iff_exists.mp hk
  rw [expected_settleExpected, Table.find_filter, hn]
  simp [hne]

theorem find_expected_checkLinks {env : Envelope} {n : OpRef}
    (h : (log.checkLinks env).expected.find k = some n) :
    log.expected.find k = some n ∨ n = env.ref := by
  rw [checkLinks_eq] at h
  have hfold : ∀ (ns : List Named) (l : OpLog),
      (ns.foldl (fun l n => l.checkNamed n.ref n.kind n.hash env) l).expected.find k = some n →
        l.expected.find k = some n ∨ n = env.ref := by
    intro ns
    induction ns with
    | nil => exact fun _ h => .inl h
    | cons m ns ih =>
      intro l h
      rcases ih _ h with h | h
      · rcases l.expected_checkNamed m.ref m.kind m.hash env with he | he
        · exact .inl (he ▸ h)
        · rw [he] at h
          exact (find_expect_eq_some h).imp_right And.right
      · exact .inr h
  rcases hfold _ _ h with h | h
  · refine .inl ?_
    unfold takeExpected at h
    rw [expected_settleExpected] at h
    exact (Table.find_filter_eq_some.mp h).1
  · exact .inr h

/-! ### What is recorded when the two meet -/

/-- Evidence that an op asserts `h` of the position `r`, where another op is held. -/
def HasFork (log : OpLog) (r : OpRef) (h : Hash) : Prop :=
  ∃ kind, ((log.devs r.stream r.device).forks.find (toLex (i64Of r.seq, toLex (kind, h)))).isSome

theorem HasFork.mono {r : OpRef} {h : Hash} (hf : log.HasFork r h) (hk : log.KeepsForks log') :
    log'.HasFork r h :=
  hf.imp fun _ => hk.kept _ _ _

theorem hasFork_recordFork (log : OpLog) (r : OpRef) (kind : ForkKind) (held h : Hash)
    (env : Envelope) :
    (log.modify r.stream r.device (·.recordFork r.seq kind held h env)).HasFork r h :=
  ⟨kind, by
    rw [devs_modify_self]
    exact isSome_find_recordFork ..⟩

theorem rowAt_of_core (h : log.core = log'.core) (r : OpRef) : log.rowAt r = log'.rowAt r := by
  unfold rowAt
  rw [(DeviceLog.core_eq_iff.mp (core_apply h r.stream r.device)).1]

theorem heldOpHash_of_core (h : log.core = log'.core) (r : OpRef) :
    (log.devs r.stream r.device).heldOpHash r.seq =
      (log'.devs r.stream r.device).heldOpHash r.seq :=
  DeviceLog.heldOpHash_of_skeleton (DeviceLog.skeleton_of_core (core_apply h _ _)) _

theorem hasFork_of_names {env : Envelope} {r : OpRef} {h held : Hash} (hn : env.Names r h)
    (hheld : (log.devs r.stream r.device).heldOpHash r.seq = some held) (hne : held ≠ h) :
    (log.checkLinks env).HasFork r h := by
  obtain ⟨n, hmem, rfl, rfl⟩ := hn
  obtain ⟨before, after, hsplit⟩ := List.append_of_mem hmem
  rw [checkLinks_eq, hsplit, List.foldl_append, List.foldl_cons]
  set l := before.foldl (fun l n => l.checkNamed n.ref n.kind n.hash env) (log.takeExpected env)
    with hl
  have hcore : l.core = log.core := by
    rw [hl, core_foldl fun l n => core_checkNamed ..]
    exact core_settleExpected ..
  refine HasFork.mono ?_ (keepsForks_foldl (fun l n => keepsForks_checkNamed ..) after _)
  unfold checkNamed
  dsimp only
  rw [heldOpHash_of_core hcore, hheld]
  dsimp only
  rw [if_neg hne]
  exact hasFork_recordFork ..

theorem hasFork_settleExpected {r n : OpRef} {h hash : Hash}
    (hexp : log.expected.find (toLex (storedRef r, h)) = some n) (hn : (log.rowAt n).isSome)
    (hne : h ≠ hash) : (log.settleExpected r hash).HasFork r h := by
  have hmem : (h, n) ∈ log.expectedAt r := by
    unfold expectedAt
    rw [List.mem_map]
    refine ⟨(toLex (storedRef r, h), n), ?_, rfl⟩
    rw [List.mem_filter]
    exact ⟨Table.mem_rows.mpr hexp, by simp⟩
  obtain ⟨before, after, hsplit⟩ := List.append_of_mem hmem
  unfold settleExpected
  rw [hsplit, List.foldl_append, List.foldl_cons]
  refine HasFork.mono ?_ (keepsForks_foldl (keepsForks_judgeExpected r hash) after _)
  obtain ⟨namer, hnamer⟩ := Option.isSome_iff_exists.mp hn
  rw [← rowAt_of_core (core_foldl (core_judgeExpected r hash) before log)] at hnamer
  generalize before.foldl (judgeExpected r hash) log = l at hnamer ⊢
  unfold judgeExpected
  rw [if_neg hne]
  dsimp only
  rw [hnamer]
  exact hasFork_recordFork ..

theorem hasFork_of_expected {env : Envelope} {n : OpRef} {h : Hash}
    (hexp : log.expected.find (toLex (storedRef env.ref, h)) = some n) (hn : (log.rowAt n).isSome)
    (hne : h ≠ env.opHash) : (log.checkLinks env).HasFork env.ref h := by
  rw [checkLinks_eq]
  refine HasFork.mono ?_ (keepsForks_foldl (fun l n => keepsForks_checkNamed ..) _ _)
  exact (hasFork_settleExpected hexp hn hne).mono (.of_devs rfl)

/-! ### What a delivery does -/

theorem frame_absorb (c : ChainHash) (log : OpLog) (env : Envelope) :
    (log.absorb c env).frame = log.frame := by
  unfold absorb
  dsimp only
  rw [frame_advance]
  apply frame_of_skeleton
  split
  · rw [skeleton_reconcile, skeleton_of_core (core_checkLinks ..)]
  · rw [skeleton_of_core (core_checkLinks ..)]

theorem expected_absorb (c : ChainHash) (log : OpLog) (env : Envelope) :
    (log.absorb c env).expected = (log.checkLinks env).expected := by
  unfold absorb
  dsimp only
  split
  · exact expected_reconcile ..
  · rfl

theorem keepsForks_absorb (c : ChainHash) (log : OpLog) (env : Envelope) :
    (log.checkLinks env).KeepsForks (log.absorb c env) := by
  unfold absorb
  dsimp only
  refine .of_forks ?_
  rw [forks_advance]
  split
  · rw [forks_reconcile]
  · rfl

/-- A delivery is a duplicate, which adds no row, or its row is written and its links
checked. The row is new, or held already and released. -/
theorem deliver_cases (c : ChainHash) (log : OpLog) (dl : Delivery) :
    ((log.deliver c dl).core = log.core ∧ (log.deliver c dl).expected = log.expected ∧
      log.KeepsForks (log.deliver c dl) ∧ ¬ log.Accepts dl.env) ∨
    ∃ row : LogRow, dl.env.ref.seq ≤ storeMax ∧
      (log.Accepts dl.env ∧ row.env = dl.env ∨ log.heldAt dl.env.ref = some row.env) ∧
      (log.deliver c dl).frame = (log.insertRow dl.env row).frame ∧
      (log.deliver c dl).expected = ((log.insertRow dl.env row).checkLinks dl.env).expected ∧
      ((log.insertRow dl.env row).checkLinks dl.env).KeepsForks (log.deliver c dl) := by
  have h := log.delivers c dl
  generalize log.deliver c dl = log' at h
  cases h with
  | covered hcov =>
    exact .inl ⟨core_checkCovered .., expected_checkCovered .., keepsForks_checkCovered ..,
      fun h => by simp [h.1] at hcov⟩
  | misplaced hbig => exact .inl ⟨rfl, rfl, .refl _, fun h => absurd h.2.1 (by omega)⟩
  | duplicate hmax hrow =>
    exact .inl ⟨core_checkDuplicate .., expected_checkDuplicate .., keepsForks_checkDuplicate ..,
      fun h => by simp [h.2.2] at hrow⟩
  | read h =>
    exact .inr ⟨⟨dl.env, dl.env.inner.kind, true, false, none⟩, h.2.1, .inl ⟨h, rfl⟩,
      frame_absorb .., expected_absorb .., keepsForks_absorb ..⟩
  | @released row hmax hrow =>
    exact .inr ⟨{ row with kind := dl.env.inner.kind, applied := true, parked := false },
      hmax, .inr (by rw [heldAt, hrow]; rfl), frame_absorb .., expected_absorb ..,
      keepsForks_absorb ..⟩
  | parked h =>
    refine .inr ⟨⟨dl.env, .parked, false, true, none⟩, h.2.1, .inl ⟨h, rfl⟩, ?_, rfl,
      .of_forks (forks_advance ..)⟩
    rw [frame_advance]
    exact frame_of_skeleton (skeleton_of_core (core_checkLinks ..))

theorem keepsForks_deliver (c : ChainHash) (log : OpLog) (dl : Delivery) :
    log.KeepsForks (log.deliver c dl) := by
  rcases log.deliver_cases c dl with ⟨-, -, h, -⟩ | ⟨row, -, -, -, -, h⟩
  · exact h
  · exact (KeepsForks.of_forks (forks_insertRow ..)).trans ((keepsForks_checkLinks ..).trans h)

theorem heldAt_insertRow {env : Envelope} (row : LogRow) {r : OpRef}
    (hr : r.seq ≤ storeMax) :
    (log.insertRow env row).heldAt r = if r = env.ref then some row.env else log.heldAt r := by
  unfold heldAt rowAt insertRow
  rw [devs_modify]
  by_cases hdev : r.stream = env.ref.stream ∧ r.device = env.ref.device
  · rw [if_pos hdev, Table.find_upsert, i64Of_eq_self.mpr hr]
    by_cases hseq : r.seq = env.ref.seq
    · have heq : r = env.ref := by
        cases r
        cases hq : env.ref
        simp_all
      rw [if_pos hseq, if_pos heq]
      rfl
    · rw [if_neg hseq, if_neg (fun heq => hseq (congrArg OpRef.seq heq)), hdev.1, hdev.2]
  · rw [if_neg hdev, if_neg fun heq => hdev ⟨congrArg OpRef.stream heq, congrArg OpRef.device heq⟩]

theorem floor_insertRow (log : OpLog) (env : Envelope) (row : LogRow) (s : StreamId)
    (dev : Device) : ((log.insertRow env row).devs s dev).floor = (log.devs s dev).floor := by
  unfold insertRow
  rw [devs_modify]
  split
  next h => rw [h.1, h.2]
  next => rfl

theorem floor_deliver (c : ChainHash) (log : OpLog) (dl : Delivery) (s : StreamId)
    (dev : Device) : ((log.deliver c dl).devs s dev).floor = (log.devs s dev).floor := by
  rcases log.deliver_cases c dl with ⟨hcore, -⟩ | ⟨row, -, -, hframe, -⟩
  · exact floor_of_frame (frame_of_skeleton (skeleton_of_core hcore)) s dev
  · rw [floor_of_frame hframe, floor_insertRow]

/-! ### What a compaction and a snapshot do -/

/-- A compaction leaves a device's rows and floor, or puts a floor at a held op and
deletes rows at or below it that no expectation was named by. -/
theorem compactDevice_cases (c : ChainHash) (view : CompactionView) {s : StreamId} {dev : Device}
    (hs : (log.devs s dev).Sound) :
    (log.compactDevice c view s dev).frame = (log.devs s dev).frame ∨
      ∃ target row root, (log.devs s dev).floorSeq < target ∧
        (log.devs s dev).rows.find target = some row ∧
        (log.compactDevice c view s dev).floor = some ⟨target, row.env.opHash, root⟩ ∧
        ∀ n, ((log.compactDevice c view s dev).rows.find n).map LogRow.bare =
          ((log.devs s dev).rows.find n).bind fun row =>
            if log.deletable view s dev target n row then none else some row.bare := by
  rcases log.compactDevice_spec c view s dev with h | ⟨target, opHash, root, ht, hop, -, heq⟩
  · exact .inl (DeviceLog.frame_of_skeleton h)
  · refine .inr ?_
    obtain ⟨hfloor, -, -, row, hrow, -⟩ := compactionTarget_spec ht
    have hmax : target ≤ storeMax := hs.bounded target (by simp [hrow])
    have hskel : ((log.devs s dev).foldChain c (c.init s dev)
        (log.devs s dev).cursorSeq).skeleton = (log.devs s dev).skeleton :=
      DeviceLog.skeleton_foldChain ..
    refine ⟨target, row, root, hfloor, hrow, ?_, fun n => ?_⟩
    · have hhash : opHash = row.env.opHash := by
        unfold DeviceLog.heldOpHash at hop
        rw [i64Of_eq_self.mpr hmax, hrow] at hop
        exact (Option.some.inj hop).symm
      rw [heq]
      show (DeviceLog.raiseFloor _ _).floor = _
      unfold DeviceLog.raiseFloor
      rw [DeviceLog.floorSeq_of_skeleton hskel, if_neg (Nat.not_le.mpr hfloor)]
      simp [hhash, hmax]
    · rw [heq]
      dsimp only
      rw [Table.find_filter]
      have hb := DeviceLog.bare_of_skeleton hskel n
      cases hr : ((log.devs s dev).foldChain c (c.init s dev)
          (log.devs s dev).cursorSeq).rows.find n with
      | none =>
        rw [hr] at hb
        have : (log.devs s dev).rows.find n = none := by simpa using hb.symm
        rw [this]
        rfl
      | some row' =>
        rw [hr] at hb
        obtain ⟨row₀, hrow₀, hbare⟩ := Option.map_eq_some_iff.mp hb.symm
        rw [hrow₀]
        -- the root plays no part in what is deleted
        have hdel : log.deletable view s dev target n row' =
            log.deletable view s dev target n row₀ := by
          have hp : log.deletable view s dev target n row'.bare =
              log.deletable view s dev target n row₀.bare := by rw [hbare]
          exact hp
        by_cases hd : log.deletable view s dev target n row₀ = true
        · simp [hdel, hd]
        · simp [hdel, hd, hbare]

theorem frame_adopt (c : ChainHash) (s : StreamId) (log : OpLog) (e : SnapshotEntry) :
    (adopt c s log e).frame = (log.modify s e.device (·.raiseFloor e.floor)).frame := by
  unfold adopt
  dsimp only
  have hup : ∀ l : OpLog, (l.modify s e.device
      (·.upsertSyncCursor c (c.init s e.device))).frame = l.frame := by
    intro l
    funext s' dev
    unfold frame
    rw [devs_modify]
    split
    next h => rw [frame_upsertSyncCursor, h.1, h.2]
    next => rfl
  rw [hup]
  split
  · rfl
  · exact frame_of_skeleton (skeleton_of_core (core_settleBelowFloor ..))

theorem find_expected_adopt (c : ChainHash) (s : StreamId) (log : OpLog) (e : SnapshotEntry)
    (k : OpRef ×ₗ Hash) :
    (adopt c s log e).expected.find k = log.expected.find k ∨
      (adopt c s log e).expected.find k = none ∧ (ofLex k).1.stream = s ∧
        (ofLex k).1.device = e.device ∧ (ofLex k).1.seq ≤ i64Of e.floor.seq ∧
        (log.devs s e.device).floorSeq < e.floor.seq := by
  unfold adopt
  dsimp only
  rw [expected_modify]
  split
  · exact .inl rfl
  next hlt =>
    unfold settleBelowFloor
    dsimp only
    rw [expected_modify, expected_settleExpected, expected_modify, Table.find_filter]
    cases hk : log.expected.find k with
    | none => exact .inl rfl
    | some n =>
      by_cases hp : (ofLex k).1.stream = s ∧ (ofLex k).1.device = e.device ∧
          (ofLex k).1.seq ≤ i64Of e.floor.seq
      · refine .inr ⟨?_, hp.1, hp.2.1, hp.2.2, by omega⟩
        simp [hp.1, hp.2.1, hp.2.2]
      · refine .inl ?_
        have hkeep : (!(decide ((ofLex k).1.stream = s) && decide ((ofLex k).1.device = e.device) &&
            decide ((ofLex k).1.seq ≤ i64Of e.floor.seq))) = true := by
          simp only [Bool.not_eq_true', Bool.and_eq_false_iff, decide_eq_false_iff_not]
          tauto
        rw [Option.filter_some, if_pos hkeep]

end OpLog

end Sunrise
