import Sunrise.Log.Cursor

/-!
# The chain root

The chain root of a device's prefix is the fold of one hash step over the hashes of its
ops from sequence number 1 (`ChainHash.chainRoot`). The log stores it lazily: an insert
that fills a hole extends it over everything behind the hole, a floor stands in for the
root below it once the rows are gone, and nothing is computed across a hole.

A *history* gives the hash of the op at each position. A log follows a history when
every op it takes in, and every floor it adopts from a snapshot, is of that history
(`OpLog.Follows`); an op delivered at a position the log already holds or covers may be
of another, since it is not taken in. Every root such a log stores is the history's, so
with a collision-free step two logs that store one root agree on every op below it.

The condition on adopted floors is needed: a snapshot is checked against the prefix this
replica holds and its root beyond that prefix is taken on its writer's word, so a replica
that holds one of two forked ops and joins a snapshot of the other stores, from there on,
the roots of a history it does not hold (`OpLog.rootAt_forked`).

* `OpLog.rootAt_eq_chainRoot` — **the chain root is a function of the prefix**.
-/

namespace Sunrise

/-- The chain root of the first `n` ops. -/
def ChainHash.chainRoot (c : ChainHash) (init : Hash) (hist : ℕ → Hash) : ℕ → Hash
  | 0 => init
  | n + 1 => c.step (c.chainRoot init hist n) (hist (n + 1))

theorem ChainHash.chainRoot_injective {c : ChainHash} (hc : Function.Injective2 c.step)
    {init : Hash} {hist hist' : ℕ → Hash} {n : ℕ}
    (h : c.chainRoot init hist n = c.chainRoot init hist' n) {i : ℕ} (h1 : 1 ≤ i) (hi : i ≤ n) :
    hist i = hist' i := by
  induction n with
  | zero => omega
  | succ n ih =>
    obtain ⟨hroot, hlast⟩ := hc h
    rcases Nat.lt_or_ge n i with hlt | hle
    · obtain rfl : i = n + 1 := by omega
      exact hlast
    · exact ih hroot hle

/-- A floor is a prefix of the history. -/
def Floor.Of (c : ChainHash) (init : Hash) (hist : ℕ → Hash) (f : Floor) : Prop :=
  f.seq ≤ storeMax ∧ f.opHash = hist f.seq ∧ f.root = c.chainRoot init hist f.seq

namespace DeviceLog

/-- A device's rows and floor are of the history `hist`, and so are their roots. -/
structure Rooted (c : ChainHash) (init : Hash) (hist : ℕ → Hash) (d : DeviceLog) : Prop where
  hash : ∀ n row, d.rows.find n = some row → row.env.opHash = hist n
  root : ∀ n row r, d.rows.find n = some row → row.chainRoot = some r →
    r = c.chainRoot init hist n
  floor : ∀ f, d.floor = some f → f.opHash = hist f.seq ∧ f.root = c.chainRoot init hist f.seq

variable {c : ChainHash} {init : Hash} {hist : ℕ → Hash} {d d' : DeviceLog}

theorem rooted_empty : (∅ : DeviceLog).Rooted c init hist where
  hash n row h := by simp [EmptyCollection.emptyCollection, DeviceLog.empty, Table.find,
    Table.empty] at h
  root n row r h := by simp [EmptyCollection.emptyCollection, DeviceLog.empty, Table.find,
    Table.empty] at h
  floor f h := by simp [EmptyCollection.emptyCollection, DeviceLog.empty] at h

theorem Rooted.of_core (h : d.core = d'.core) (hd : d.Rooted c init hist) :
    d'.Rooted c init hist := by
  obtain ⟨hr, hf, -⟩ := core_eq_iff.mp h
  exact ⟨hr ▸ hd.hash, hr ▸ hd.root, hf ▸ hd.floor⟩

section

variable (hd : d.Rooted c init hist) {n : ℕ} (hn : n ≤ storeMax)
include hd hn

theorem Rooted.heldOpHash {h : Hash}
    (hh : d.heldOpHash n = some h) : h = hist n := by
  unfold DeviceLog.heldOpHash at hh
  rw [i64Of_eq_self.mpr hn] at hh
  split at hh
  next row hrow => exact Option.some.inj hh ▸ hd.hash n row hrow
  next =>
    obtain ⟨f, hf, rfl⟩ := Option.map_eq_some_iff.mp hh
    obtain ⟨hf, hseq⟩ := Option.filter_eq_some_iff.mp hf
    rw [(hd.floor f hf).1, of_decide_eq_true hseq]

theorem Rooted.rootAt {r : Hash}
    (hr : d.rootAt init n = some r) : r = c.chainRoot init hist n := by
  unfold DeviceLog.rootAt at hr
  split at hr
  next h0 =>
    subst h0
    exact (Option.some.inj hr).symm
  next =>
    rw [i64Of_eq_self.mpr hn] at hr
    split at hr
    next r' hr' =>
      obtain ⟨row, hrow, hroot⟩ := Option.bind_eq_some_iff.mp hr'
      exact Option.some.inj hr ▸ hd.root n row r' hrow hroot
    next =>
      obtain ⟨f, hf, rfl⟩ := Option.map_eq_some_iff.mp hr
      obtain ⟨hf, hseq⟩ := Option.filter_eq_some_iff.mp hf
      rw [(hd.floor f hf).2, of_decide_eq_true hseq]

theorem Rooted.setRoot {root : Hash}
    (hroot : root = c.chainRoot init hist n) : (d.setRoot n root).Rooted c init hist where
  hash m row hrow := by
    rw [find_setRoot, i64Of_eq_self.mpr hn] at hrow
    split at hrow
    · obtain ⟨row', hrow', rfl⟩ := Option.map_eq_some_iff.mp hrow
      exact hd.hash m row' hrow'
    · exact hd.hash m row hrow
  root m row r hrow hr := by
    rw [find_setRoot, i64Of_eq_self.mpr hn] at hrow
    split at hrow
    next heq =>
      subst heq
      obtain ⟨row', -, rfl⟩ := Option.map_eq_some_iff.mp hrow
      rw [← Option.some.inj hr, hroot]
    next => exact hd.root m row r hrow hr
  floor f hf := hd.floor f (by rwa [floor_setRoot] at hf)

end

/-- Where the fold of the roots starts: at nothing, at the floor, or at a row with a root. -/
theorem resume_spec (init : Hash) (d : DeviceLog) (upTo : ℕ) :
    d.resume init upTo = (0, init) ∨ (d.resume init upTo).1 ≤ upTo ∧
      ((∃ f, d.floor = some f ∧ d.resume init upTo = (f.seq, f.root)) ∨
        ∃ row, d.rows.find (d.resume init upTo).1 = some row ∧
          row.chainRoot = some (d.resume init upTo).2) := by
  have hfloor : ∀ p, (d.floor.filter fun f => f.seq ≤ upTo).map (fun f => (f.seq, f.root)) =
      some p → p.1 ≤ upTo ∧ ∃ f, d.floor = some f ∧ p = (f.seq, f.root) := by
    intro p hp
    obtain ⟨f, hf, rfl⟩ := Option.map_eq_some_iff.mp hp
    obtain ⟨hf, hle⟩ := Option.filter_eq_some_iff.mp hf
    exact ⟨of_decide_eq_true hle, f, hf, rfl⟩
  have hstored : ∀ p, ((d.rows.rows.filter fun r =>
      decide (r.1 ≤ i64Of upTo) && r.2.chainRoot.isSome).getLast?.bind fun r =>
        r.2.chainRoot.map fun root => (r.1, root)) = some p →
      p.1 ≤ upTo ∧ ∃ row, d.rows.find p.1 = some row ∧ row.chainRoot = some p.2 := by
    intro p hp
    obtain ⟨r, hr, hp⟩ := Option.bind_eq_some_iff.mp hp
    obtain ⟨root, hroot, rfl⟩ := Option.map_eq_some_iff.mp hp
    obtain ⟨hmem, hcond⟩ := List.mem_filter.mp (List.mem_of_getLast? hr)
    simp only [Bool.and_eq_true, decide_eq_true_eq] at hcond
    exact ⟨hcond.1.trans (min_le_left ..), r.2, Table.mem_rows.mp hmem, hroot⟩
  unfold DeviceLog.resume
  dsimp only
  split
  next s f hs hf =>
    split
    · exact .inr ((hfloor f hf).imp_right .inl)
    · exact .inr ((hstored s hs).imp_right .inr)
  next s hs _ => exact .inr ((hstored s hs).imp_right .inr)
  next f _ hf => exact .inr ((hfloor f hf).imp_right .inl)
  next => exact .inl rfl

theorem resume_le (init : Hash) (d : DeviceLog) (upTo : ℕ) : (d.resume init upTo).1 ≤ upTo := by
  rcases resume_spec init d upTo with h | ⟨hle, -⟩
  · exact h ▸ Nat.zero_le upTo
  · exact hle

theorem Rooted.resume (hd : d.Rooted c init hist) (upTo : ℕ) :
    (d.resume init upTo).2 = c.chainRoot init hist (d.resume init upTo).1 := by
  rcases resume_spec init d upTo with h | ⟨-, ⟨f, hf, h⟩ | ⟨row, hrow, hroot⟩⟩
  · rw [h]
    rfl
  · rw [h]
    exact (hd.floor f hf).2
  · exact hd.root _ row _ hrow hroot

theorem Rooted.extendRoots {n seq : ℕ} {root : Hash} (hd : d.Rooted c init hist)
    (hroot : root = c.chainRoot init hist seq) (hn : seq + n ≤ storeMax) :
    (extendRoots c n d seq root).1.Rooted c init hist := by
  induction n generalizing d seq root with
  | zero => exact hd
  | succ n ih =>
    unfold DeviceLog.extendRoots
    split
    · exact hd
    next h hh =>
      have hnext : c.step root h = c.chainRoot init hist (seq + 1) := by
        rw [hroot, hd.heldOpHash (by omega) hh]
        rfl
      exact ih (hd.setRoot (by omega) hnext) hnext (by omega)

theorem Rooted.foldChain (hd : d.Rooted c init hist) {upTo : ℕ} (hn : upTo ≤ storeMax) :
    (d.foldChain c init upTo).Rooted c init hist := by
  unfold DeviceLog.foldChain
  split
  · exact hd
  · have hle := resume_le init d upTo
    have hroot := hd.resume upTo
    refine (hd.extendRoots hroot ?_).of_core (core_checkClaims ..).symm
    omega

theorem Sound.cursorSeq_le (hd : d.Sound) : d.cursorSeq ≤ storeMax := by
  rcases Nat.eq_zero_or_pos d.cursorSeq with h0 | hpos
  · rw [h0]
    exact Nat.zero_le _
  · rcases hd.contiguous _ hpos le_rfl with h | h
    · exact h.trans hd.floor_le
    · exact hd.bounded _ h

theorem Sound.opsRunEnd_le (hd : d.Sound) {start : ℕ} (h1 : 1 ≤ start) (hs : start ≤ storeMax) :
    d.opsRunEnd start ≤ storeMax := by
  obtain ⟨hrun, -, -⟩ := d.opsRunEnd_spec h1
  by_contra hgt
  have := hd.bounded _ (hrun (d.opsRunEnd start) (by omega) le_rfl)
  omega

theorem Rooted.upsertSyncCursor (hd : d.Rooted c init hist) (hs : d.Sound) :
    (d.upsertSyncCursor c init).Rooted c init hist := by
  have hd' : ∀ n, ({ d with cursor := n } : DeviceLog).Rooted c init hist := fun _ =>
    ⟨hd.hash, hd.root, hd.floor⟩
  unfold DeviceLog.upsertSyncCursor
  refine (hd' _).foldChain ?_
  split
  next hfit => exact hs.opsRunEnd_le (by omega) hfit
  next => exact hs.opsRunEnd_le le_rfl (by decide)

theorem Rooted.compareEntry (hd : d.Rooted c init hist) (hs : d.Sound) (peer : Device)
    (e : FrontierEntry) : (d.compareEntry c init peer e).Rooted c init hist := by
  rcases compareEntry_core c init peer d e with h | h
  · exact hd.of_core h.symm
  · exact (hd.foldChain hs.cursorSeq_le).of_core h.symm

theorem Rooted.raiseFloor (hd : d.Rooted c init hist) {f : Floor} (hf : f.Of c init hist) :
    (d.raiseFloor f).Rooted c init hist := by
  unfold DeviceLog.raiseFloor
  split
  · exact hd
  · refine ⟨hd.hash, hd.root, fun f' hf' => ?_⟩
    rw [← Option.some.inj hf']
    dsimp only
    rw [i64Of_eq_self.mpr hf.1]
    exact hf.2

end DeviceLog

/-! ### Logs that follow a history -/

/-- An envelope is the history's op at its position. -/
def Envelope.Of (hist : StreamId → Device → ℕ → Hash) (env : Envelope) : Prop :=
  env.opHash = hist env.ref.stream env.ref.device env.ref.seq

namespace OpLog

/-- A delivery at a position that is neither covered nor held: the log takes it in. -/
def TakesIn (log : OpLog) (env : Envelope) : Prop :=
  log.isCovered env = false ∧ log.rowAt env.ref = none

/-- Every op the deliveries add to the log is the history's. -/
def FollowsDeliveries (c : ChainHash) (hist : StreamId → Device → ℕ → Hash) :
    OpLog → List Delivery → Prop
  | _, [] => True
  | log, dl :: dls =>
    (log.TakesIn dl.env → dl.env.Of hist) ∧ FollowsDeliveries c hist (log.deliver c dl) dls

/-- Every op an event adds to the log is the history's, and so is every floor of a
snapshot. -/
def FollowsEvent (c : ChainHash) (hist : StreamId → Device → ℕ → Hash) (log : OpLog) :
    Event → Prop
  | .append draft =>
    draft.opHash = hist draft.ref.stream draft.ref.device
      (log.devs draft.ref.stream draft.ref.device).nextSeq
  | .deliver dl => log.TakesIn dl.env → dl.env.Of hist
  | .compact .. => True
  | .snapshot s entries retained =>
    (∀ e ∈ entries, e.floor.Of c (c.init s e.device) (hist s e.device)) ∧
      ∀ log' adds, checkEntries c s entries log false = some (log', adds) →
        FollowsDeliveries c hist log' retained

def Follows (c : ChainHash) (hist : StreamId → Device → ℕ → Hash) : OpLog → List Event → Prop
  | _, [] => True
  | log, ev :: evs => FollowsEvent c hist log ev ∧ Follows c hist (log.handle c ev) evs

/-- The rows, floors and roots of the whole log are the history's. -/
def Rooted (c : ChainHash) (hist : StreamId → Device → ℕ → Hash) (log : OpLog) : Prop :=
  ∀ s dev, (log.devs s dev).Rooted c (c.init s dev) (hist s dev)

variable {c : ChainHash} {hist : StreamId → Device → ℕ → Hash} {log log' : OpLog}

theorem Rooted.of_core (h : log.core = log'.core) (hl : log.Rooted c hist) :
    log'.Rooted c hist :=
  fun s dev => (hl s dev).of_core (core_apply h s dev)

theorem Rooted.modify (hl : log.Rooted c hist) {s : StreamId} {dev : Device}
    {f : DeviceLog → DeviceLog}
    (hf : (f (log.devs s dev)).Rooted c (c.init s dev) (hist s dev)) :
    (log.modify s dev f).Rooted c hist := by
  intro s' dev'
  rw [devs_modify]
  split
  next h =>
    obtain ⟨rfl, rfl⟩ := h
    exact hf
  next => exact hl s' dev'

theorem Rooted.insertRow (hl : log.Rooted c hist) {env : Envelope} {row : LogRow}
    (hash : row.env.opHash = hist env.ref.stream env.ref.device env.ref.seq)
    (hroot : ∀ r, row.chainRoot = some r →
      r = c.chainRoot (c.init env.ref.stream env.ref.device)
        (hist env.ref.stream env.ref.device) env.ref.seq) :
    (log.insertRow env row).Rooted c hist := by
  refine hl.modify ⟨fun n row' hrow => ?_, fun n row' r hrow hr => ?_,
    (hl env.ref.stream env.ref.device).floor⟩
  · rw [Table.find_upsert] at hrow
    split at hrow
    next heq => rw [← Option.some.inj hrow, hash, heq]
    next => exact (hl _ _).hash n row' hrow
  · rw [Table.find_upsert] at hrow
    split at hrow
    next heq =>
      rw [← Option.some.inj hrow] at hr
      rw [heq]
      exact hroot r hr
    next => exact (hl _ _).root n row' r hrow hr

def Sound (log : OpLog) : Prop := ∀ s dev, (log.devs s dev).Sound

theorem Settled.sound (hl : log.Settled) : log.Sound := fun s dev => (hl s dev).toSound

theorem Sound.of_skeleton (h : log.skeleton = log'.skeleton) (hl : log.Sound) : log'.Sound :=
  fun s dev => (hl s dev).of_skeleton (skeleton_apply h s dev)

theorem Sound.insertRow (hl : log.Sound) {env : Envelope} (hn : env.ref.seq ≤ storeMax)
    (row : LogRow) : (log.insertRow env row).Sound := by
  intro s dev
  unfold OpLog.insertRow
  rw [devs_modify]
  split
  · exact (hl _ _).insert hn row
  · exact hl s dev

theorem absorb_each {P : StreamId → Device → DeviceLog → Prop}
    (hcore : ∀ s dev d d', d.core = d'.core → P s dev d → P s dev d')
    (hcompare : ∀ s dev (d : DeviceLog) peer e, d.Sound → P s dev d →
      P s dev (d.compareEntry c (c.init s dev) peer e))
    (hadvance : ∀ s dev (d : DeviceLog), d.Sound → P s dev d →
      P s dev (d.upsertSyncCursor c (c.init s dev)))
    (hl : ∀ s dev, P s dev (log.devs s dev)) (hs : log.Sound) (env : Envelope) (s : StreamId)
    (dev : Device) : P s dev ((log.absorb c env).devs s dev) := by
  have hmodify : ∀ {l : OpLog} {s : StreamId} {dev : Device} {f : DeviceLog → DeviceLog},
      (∀ s dev, P s dev (l.devs s dev)) → P s dev (f (l.devs s dev)) →
      ∀ s' dev', P s' dev' ((l.modify s dev f).devs s' dev') := by
    intro l s dev f hl hf s' dev'
    rw [devs_modify]
    split
    next h =>
      obtain ⟨rfl, rfl⟩ := h
      exact hf
    next => exact hl s' dev'
  have hreconcile : ∀ {l : OpLog} (s : StreamId) (peer : Device) (entries : List FrontierEntry)
      (authentic : Bool), (∀ s dev, P s dev (l.devs s dev)) → l.Sound →
      ∀ s' dev, P s' dev ((l.reconcile c s peer entries authentic).devs s' dev) := by
    intro l s peer entries authentic hl hs
    unfold OpLog.reconcile
    split
    · have hrecord := core_recordPeerFrontier l s peer entries
      have hl' : ∀ s' dev, P s' dev ((l.recordPeerFrontier s peer entries).devs s' dev) :=
        fun s' dev => hcore _ _ _ _ (core_apply hrecord.symm s' dev) (hl s' dev)
      -- along the entries, each device is at most compared
      refine (List.foldlRecOn (motive := fun l : OpLog =>
        (∀ s dev, P s dev (l.devs s dev)) ∧ l.Sound) entries _
        ⟨hl', hs.of_skeleton (skeleton_of_core hrecord).symm⟩ fun l h e _ => ?_).1
      split
      · exact h
      · exact ⟨hmodify h.1 (hcompare _ _ _ peer e (h.2 s e.device) (h.1 s e.device)),
          h.2.of_skeleton (skeleton_modify _ _ _ fun d => DeviceLog.skeleton_compareEntry ..).symm⟩
    · exact hl
  have hlinks := core_checkLinks log env
  have hl' : ∀ s dev, P s dev ((log.checkLinks env).devs s dev) :=
    fun s dev => hcore _ _ _ _ (core_apply hlinks.symm s dev) (hl s dev)
  have hs' := hs.of_skeleton (skeleton_of_core hlinks).symm
  unfold OpLog.absorb
  dsimp only
  split
  next entries authentic _ =>
    have hrec := hreconcile env.ref.stream env.ref.device entries authentic hl' hs'
    exact hmodify hrec (hadvance _ _ _ (hs'.of_skeleton (skeleton_reconcile ..).symm _ _)
      (hrec _ _)) s dev
  next => exact hmodify hl' (hadvance _ _ _ (hs' _ _) (hl' _ _)) s dev

section

variable (hl : log.Rooted c hist)
include hl

theorem Rooted.advance (hs : log.Sound) (env : Envelope) :
    (log.advance c env).Rooted c hist :=
  hl.modify ((hl _ _).upsertSyncCursor (hs _ _))

theorem Rooted.absorb (hs : log.Sound) (env : Envelope) :
    (log.absorb c env).Rooted c hist :=
  absorb_each (fun _ _ _ _ h hd => hd.of_core h)
    (fun _ _ _ peer e hs hd => hd.compareEntry hs peer e)
    (fun _ _ _ hs hd => hd.upsertSyncCursor hs) hl hs env

theorem Rooted.append (hs : log.Sound) {draft : Envelope}
    (h : FollowsEvent c hist log (.append draft)) : (log.append c draft).Rooted c hist := by
  unfold OpLog.append
  dsimp only
  split
  next hn =>
    set env : Envelope := { draft with ref := { draft.ref with
      seq := (log.devs draft.ref.stream draft.ref.device).nextSeq } }
    have hl' : (log.insertRow env ⟨env, env.inner.kind, true, false, none⟩).Rooted c hist :=
      hl.insertRow h (by simp)
    exact hl'.advance (hs.insertRow hn _) env
  next => exact hl

theorem Rooted.release {env : Envelope} (hn : env.ref.seq ≤ storeMax)
    {row : LogRow} (hrow : log.rowAt env.ref = some row) (kind : LogKind) :
    (log.insertRow env { row with kind := kind, applied := true, parked := false }).Rooted c
      hist := by
  unfold rowAt at hrow
  rw [i64Of_eq_self.mpr hn] at hrow
  exact hl.insertRow ((hl _ _).hash _ row hrow) fun r hr => (hl _ _).root _ row r hrow hr

theorem Rooted.deliver (hs : log.Sound) {dl : Delivery}
    (h : log.TakesIn dl.env → dl.env.Of hist) : (log.deliver c dl).Rooted c hist := by
  have hnew (ha : log.Accepts dl.env) (kind : LogKind) (applied parked : Bool) :
      (log.insertRow dl.env ⟨dl.env, kind, applied, parked, none⟩).Rooted c hist :=
    hl.insertRow (h ⟨ha.1, ha.2.2⟩) (by simp)
  have hd := log.delivers c dl
  generalize log.deliver c dl = log' at hd
  cases hd with
  | covered => exact hl.of_core (core_checkCovered ..).symm
  | misplaced => exact hl
  | duplicate => exact hl.of_core (core_checkDuplicate ..).symm
  | read ha => exact (hnew ha _ _ _).absorb (hs.insertRow ha.2.1 _) _
  | released hmax hrow => exact (hl.release hmax hrow _).absorb (hs.insertRow hmax _) _
  | parked ha =>
    exact ((hnew ha _ _ _).of_core (core_checkLinks ..).symm).advance
      ((hs.insertRow ha.2.1 _).of_skeleton (skeleton_of_core (core_checkLinks ..)).symm) _

theorem Rooted.compactStream (hs : log.Sound) (view : CompactionView)
    (s : StreamId) : (log.compactStream c view s).Rooted c hist := by
  intro s' dev
  unfold OpLog.compactStream
  dsimp only
  split
  next h =>
    obtain ⟨rfl, -⟩ := h
    have hfold := (hl s' dev).foldChain (hs s' dev).cursorSeq_le
    unfold compactDevice
    dsimp only
    split
    · exact hl s' dev
    next target ht =>
      obtain ⟨-, -, -, row, hrow, -⟩ := compactionTarget_spec ht
      have hmax : target ≤ storeMax := (hs s' dev).bounded target (by simp [hrow])
      split
      next opHash root hop hroot =>
        have hfl := hfold.raiseFloor (f := ⟨target, opHash, root⟩)
          ⟨hmax, hfold.heldOpHash hmax hop, hfold.rootAt hmax hroot⟩
        exact ⟨fun n row hr => hfl.hash n row (Table.find_filter_eq_some.mp hr).1,
          fun n row r hr => hfl.root n row r (Table.find_filter_eq_some.mp hr).1, hfl.floor⟩
      next => exact hfold
  next => exact hl s' dev

theorem Rooted.foldAt (hs : log.Sound) (s : StreamId) (dev : Device)
    (n : ℕ) : (log.foldAt c s dev n).Rooted c hist := by
  unfold OpLog.foldAt
  split
  · exact hl.modify ((hl s dev).foldChain (hs s dev).cursorSeq_le)
  · exact hl

end

theorem Rooted.checkEntries {s : StreamId} {entries : List SnapshotEntry} {adds adds' : Bool}
    (hl : log.Rooted c hist) (hs : log.Sound)
    (h : OpLog.checkEntries c s entries log adds = some (log', adds')) :
    log'.Rooted c hist := by
  induction entries generalizing log adds with
  | nil =>
    obtain ⟨rfl, -⟩ := Prod.mk.inj (Option.some.inj h)
    exact hl
  | cons e entries ih =>
    unfold OpLog.checkEntries at h
    dsimp only at h
    split at h
    · exact ih hl hs h
    · have h₁ := hl.foldAt hs s e.device e.floor.seq
      have hs₁ := hs.of_skeleton (skeleton_foldAt c log s e.device e.floor.seq).symm
      split at h
      · split at h
        · exact ih h₁ hs₁ h
        · simp at h
      · exact ih h₁ hs₁ h

section

variable (hl : log.Rooted c hist)
include hl

theorem Rooted.adopt (hs : log.Sound) {s : StreamId}
    {e : SnapshotEntry} (he : e.floor.Of c (c.init s e.device) (hist s e.device)) :
    (adopt c s log e).Rooted c hist := by
  have hr : (log.modify s e.device fun d => d.raiseFloor e.floor).Rooted c hist :=
    hl.modify ((hl s e.device).raiseFloor he)
  have hsr : (log.modify s e.device fun d => d.raiseFloor e.floor).Sound := by
    intro s' dev
    rw [devs_modify]
    split
    · exact (hs s e.device).raiseFloor e.floor
    · exact hs s' dev
  unfold OpLog.adopt
  dsimp only
  split
  · exact hr.modify ((hr s e.device).upsertSyncCursor (hsr s e.device))
  · have hr' := hr.of_core (core_settleBelowFloor _ s e.device e.floor).symm
    have hsr' := hsr.of_skeleton
      (skeleton_of_core (core_settleBelowFloor _ s e.device e.floor)).symm
    exact hr'.modify ((hr' s e.device).upsertSyncCursor (hsr' s e.device))

theorem Rooted.deliveries (hs : log.Settled) {dls : List Delivery}
    (h : FollowsDeliveries c hist log dls) :
    (dls.foldl (OpLog.deliver c) log).Rooted c hist ∧
      (dls.foldl (OpLog.deliver c) log).Settled := by
  induction dls generalizing log with
  | nil => exact ⟨hl, hs⟩
  | cons dl dls ih => exact ih (hl.deliver hs.sound h.1) (hs.deliver c dl).1 h.2

theorem Rooted.handle (hs : log.Settled) {ev : Event}
    (h : FollowsEvent c hist log ev) : (log.handle c ev).Rooted c hist := by
  cases ev with
  | append draft => exact hl.append hs.sound h
  | deliver dl => exact hl.deliver hs.sound h
  | compact view s => exact hl.compactStream hs.sound view s
  | snapshot s entries retained =>
    obtain ⟨hentries, hretained⟩ := h
    show (log.applySnapshot c s entries retained).Rooted c hist
    unfold OpLog.applySnapshot
    split
    · exact hl
    · split
      · exact hl
      next log₁ hcheck => exact hl.checkEntries hs.sound hcheck
      next log₁ hcheck =>
        have h₁ := hl.checkEntries hs.sound hcheck
        have hs₁ := (hs.of_skeleton (skeleton_checkEntries c s hcheck).symm).1
        obtain ⟨h₂, hs₂⟩ := h₁.deliveries hs₁ (hretained log₁ true hcheck)
        dsimp only
        split
        · refine (List.foldlRecOn (motive := fun l : OpLog => l.Rooted c hist ∧ l.Settled) entries _
            ⟨h₂, hs₂⟩ fun l hl e he => ?_).1
          exact ⟨hl.1.adopt hl.2.sound (hentries e he), (hl.2.adopt c s e).1⟩
        · exact h₂

theorem Rooted.handleAll (hs : log.Settled) {events : List Event}
    (h : Follows c hist log events) : (events.foldl (OpLog.handle c) log).Rooted c hist := by
  induction events generalizing log with
  | nil => exact hl
  | cons ev events ih => exact ih (hl.handle hs h.1) (hs.handle c ev).1 h.2

end

theorem rooted_run {events : List Event} (h : Follows c hist ∅ events) :
    (run c events).Rooted c hist :=
  Rooted.handleAll (fun _ _ => DeviceLog.rooted_empty) (fun _ _ => DeviceLog.settled_empty) h

/-- **The chain root is a function of the prefix.** In every run that follows a history,
in whatever order its ops arrive and with whatever compactions and snapshots of it in
between, the root stored at a number inside the prefix is the fold of the history's
hashes up to it. So with a collision-free step two replicas that store one root at `n`
follow histories that agree up to `n`, and hold the same op hash at every number they
both still hold one at. -/
theorem rootAt_eq_chainRoot (c : ChainHash) (hist hist' : StreamId → Device → ℕ → Hash)
    (events events' : List Event) (hrun : Follows c hist ∅ events)
    (hrun' : Follows c hist' ∅ events') (s : StreamId) (dev : Device) (n : ℕ) :
    let init := c.init s dev
    let d := (run c events).devs s dev
    let d' := (run c events').devs s dev
    (∀ r, n ≤ d.cursorSeq → d.rootAt init n = some r →
      r = c.chainRoot init (hist s dev) n) ∧
    (Function.Injective2 c.step → n ≤ d.cursorSeq → n ≤ d'.cursorSeq →
      ∀ r, d.rootAt init n = some r → d'.rootAt init n = some r → ∀ i, 1 ≤ i → i ≤ n →
        hist s dev i = hist' s dev i ∧
        ∀ h h', d.heldOpHash i = some h → d'.heldOpHash i = some h' → h = h') := by
  intro init d d'
  have hd : d.Rooted c init (hist s dev) := rooted_run hrun s dev
  have hd' : d'.Rooted c init (hist' s dev) := rooted_run hrun' s dev
  have hmax : d.cursorSeq ≤ storeMax := (settled_run c events s dev).toSound.cursorSeq_le
  refine ⟨fun r hn hr => hd.rootAt (hn.trans hmax) hr, fun hc hn _ r hr hr' i h1 hi => ?_⟩
  have hroot : c.chainRoot init (hist s dev) n = c.chainRoot init (hist' s dev) n := by
    rw [← hd.rootAt (hn.trans hmax) hr, ← hd'.rootAt (hn.trans hmax) hr']
  have heq := ChainHash.chainRoot_injective hc hroot h1 hi
  refine ⟨heq, fun h h' hh hh' => ?_⟩
  rw [hd.heldOpHash ((hi.trans hn).trans hmax) hh, hd'.heldOpHash ((hi.trans hn).trans hmax) hh',
    heq]

theorem rootAt_eq_chainRoot_second_first :
    let run₁ := run .sample [.deliver ⟨opAt 2 6, true⟩, .deliver ⟨opAt 1 5, true⟩]
    let run₂ := run .sample [.deliver ⟨opAt 1 5, true⟩, .deliver ⟨opAt 2 6, true⟩]
    ∀ r, (run₁.devs 7 1).rootAt (Nat.pair 7 1) 2 = some r →
      (run₂.devs 7 1).rootAt (Nat.pair 7 1) 2 = some r →
      r = ChainHash.sample.chainRoot (Nat.pair 7 1) (fun n => n + 4) 2 ∧
      ∀ h h', (run₁.devs 7 1).heldOpHash 1 = some h → (run₂.devs 7 1).heldOpHash 1 = some h' →
        h = h' := by
  intro run₁ run₂ r hr hr'
  have h := rootAt_eq_chainRoot .sample (fun _ _ n => n + 4) (fun _ _ n => n + 4)
    [.deliver ⟨opAt 2 6, true⟩, .deliver ⟨opAt 1 5, true⟩]
    [.deliver ⟨opAt 1 5, true⟩, .deliver ⟨opAt 2 6, true⟩]
    (by simp [Follows, FollowsEvent, Envelope.Of, opAt])
    (by simp [Follows, FollowsEvent, Envelope.Of, opAt]) 7 1 2
  have hheld := h.2 ChainHash.sample_injective (by decide) (by decide) r hr hr' 1 (by decide)
    (by decide)
  exact ⟨h.1 r (by decide) hr, hheld.2⟩

/-- Two replicas that take in different first ops of one device, the first of which then
joins a snapshot of the second's third op, store one root at the fourth op and hold two
hashes at the first. -/
theorem rootAt_forked :
    let init := ChainHash.sample.init 7 1
    let snapshot : SnapshotEntry := ⟨1, 3, 8, ChainHash.sample.chainRoot init (fun n => n + 5) 3⟩
    let a := (run .sample [.deliver ⟨opAt 1 5, true⟩, .snapshot 7 [snapshot] [],
      .deliver ⟨opAt 4 9, true⟩]).devs 7 1
    let b := (run .sample [.deliver ⟨opAt 1 6, true⟩, .deliver ⟨opAt 2 7, true⟩,
      .deliver ⟨opAt 3 8, true⟩, .deliver ⟨opAt 4 9, true⟩]).devs 7 1
    Function.Injective2 ChainHash.sample.step ∧ b.rootAt init 3 = some snapshot.floor.root ∧
      4 ≤ a.cursorSeq ∧ 4 ≤ b.cursorSeq ∧ (a.rootAt init 4).isSome ∧
      a.rootAt init 4 = b.rootAt init 4 ∧ a.heldOpHash 1 = some 5 ∧ b.heldOpHash 1 = some 6 :=
  ⟨ChainHash.sample_injective, by decide, by decide, by decide, by decide, by decide, by decide,
    by decide⟩

end OpLog

end Sunrise
