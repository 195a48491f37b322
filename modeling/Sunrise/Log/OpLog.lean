import Sunrise.Lib.Table
import Sunrise.Merge.Fold

/-!
# The op log

The log keeps the ops of every device of every stream: the tables `ops`,
`compaction_floor`, `sync_cursors`, `peer_frontiers`, `chain_claims`,
`chain_divergence` and `fork_evidence` are all keyed by a stream and a device first, so
the log is a map from those to a `DeviceLog`, beside the one table whose rows are read
across devices, `chain_expected`.

A sequence number is an unsigned 64-bit integer on the wire and a signed one in the
store. The store refuses a row whose number does not fit and clamps every other number
to its greatest (`i64Of`).

The op hash of an envelope is computed from its canonical bytes, so the model keeps the
hash with the envelope and takes two envelopes to have the same bytes when they have the
same hash. Hashes are thirty-two bytes, read as numbers.

* `Envelope`, `LogRow`, `Floor`, `DeviceLog`, `OpLog` — the state.
* `DeviceLog.opsRunEnd`, `DeviceLog.upsertSyncCursor` — the contiguous prefix.
* `DeviceLog.rootAt`, `DeviceLog.foldChain` — the chain root.
* `OpLog.checkLinks`, `OpLog.checkDuplicate`, `OpLog.checkCovered`,
  `OpLog.settleBelowFloor` — the evidence.
* `OpLog.append`, `OpLog.receive`, `OpLog.park`, `OpLog.compactStream`,
  `OpLog.applySnapshot` — the writes.
-/

namespace Sunrise

/-- Thirty-two bytes, read as a number. -/
abbrev Hash := ℕ

/-- The greatest integer the store holds. -/
def storeMax : ℕ := 2 ^ 63 - 1

/-- An unsigned number as the store writes it, clamped rather than wrapped. -/
def i64Of (n : ℕ) : ℕ := min n storeMax

theorem i64Of_le (n : ℕ) : i64Of n ≤ storeMax := min_le_right _ _

@[simp] theorem i64Of_eq_self {n : ℕ} : i64Of n = n ↔ n ≤ storeMax := min_eq_left_iff

/-! ### Envelopes -/

/-- The tip of another device's prefix, as an op names it. -/
structure ChainHead where
  device : Device
  seq : ℕ
  opHash : Hash
deriving DecidableEq, Repr

structure FrontierEntry where
  device : Device
  seq : ℕ
  root : Hash
deriving DecidableEq, Repr

/-- What an op carries, as the receive path routes it. -/
inductive Inner where
  /-- An entity op: it merges into the entity's state. -/
  | entity (target : EntityRef) (body : Body)
  /-- A peer's frontier of the stream. `authentic` when the digest it carries is the
  digest of that frontier. -/
  | streamDigest (frontier : List FrontierEntry) (authentic : Bool)
  | control
  | record

/-- The kind a row of `ops` is filed under. -/
inductive LogKind where
  /-- Every op of an entity the registry merges field by field. -/
  | entity (kind : EntityKind)
  | taskDefer
  | streamDigest | control | record
  | parked
deriving DecidableEq, Repr

/-- The kinds whose whole effect is in the merge state. -/
def LogKind.compactable : LogKind → Bool
  | .entity _ | .taskDefer | .streamDigest => true
  | .control | .record | .parked => false

/-- The kind an op is logged under once it is read. -/
def Inner.kind : Inner → LogKind
  | .entity target _ => .entity target.kind
  | .streamDigest .. => .streamDigest
  | .control => .control
  | .record => .record

/-- A signed op. -/
structure Envelope where
  ref : OpRef
  hlc : Hlc
  opHash : Hash
  /-- The hash of the writer's op before it in the stream, where it states one. -/
  prevHash : Option Hash := none
  heads : List ChainHead := []
  inner : Inner := .control

def Envelope.op (env : Envelope) : Option Op :=
  match env.inner with
  | .entity target body => some ⟨target, env.ref.stamp env.hlc, body⟩
  | _ => none

/-! ### The tables -/

/-- A row of `ops`, under its sequence number. -/
structure LogRow where
  env : Envelope
  kind : LogKind
  applied : Bool
  /-- It is listed in `parked_ops`. -/
  parked : Bool
  chainRoot : Option Hash := none

/-- A compaction floor: every op at or below it is covered. -/
structure Floor where
  seq : ℕ
  opHash : Hash
  root : Hash
deriving DecidableEq, Repr

/-- A row of `chain_claims`, under the peer that made it. -/
structure Claim where
  seq : ℕ
  root : Hash
deriving DecidableEq, Repr

/-- A row of `chain_divergence`, under the peer it is with. -/
structure Divergence where
  seq : ℕ
  peerRoot : Hash
  heldRoot : Hash
deriving DecidableEq, Repr

/-- How the two claims about a position disagree. -/
inductive ForkKind where
  | seq
  /-- The device's next op names another predecessor. -/
  | link
  | head
deriving DecidableEq, Repr

/-- A kind's place in the key order of `fork_evidence`. -/
def ForkKind.code : ForkKind → ℕ
  | .seq => 0
  | .link => 1
  | .head => 2

theorem ForkKind.code_injective : Function.Injective ForkKind.code := by
  intro a b h
  cases a <;> cases b <;> simp_all [ForkKind.code]

instance : LinearOrder ForkKind := LinearOrder.lift' ForkKind.code ForkKind.code_injective

/-- A row of `fork_evidence`, under its position, kind and other hash. -/
structure Fork where
  heldHash : Hash
  other : Envelope

/-- The rows of one device in one stream. -/
structure DeviceLog where
  /-- `ops`. -/
  rows : Table ℕ LogRow
  /-- `compaction_floor`. -/
  floor : Option Floor
  /-- `sync_cursors`. -/
  cursor : Option ℕ
  /-- `chain_claims`. -/
  claims : Table Device Claim
  /-- `chain_divergence`. -/
  divergence : Table Device Divergence
  /-- `fork_evidence`. -/
  forks : Table (ℕ ×ₗ ForkKind ×ₗ Hash) Fork
  /-- `peer_frontiers`: the prefix each peer has acknowledged. -/
  acks : Table Device ℕ

/-- No rows. -/
def DeviceLog.empty : DeviceLog := ⟨∅, none, none, ∅, ∅, ∅, ∅⟩

instance : EmptyCollection DeviceLog := ⟨DeviceLog.empty⟩

structure OpLog where
  devs : StreamId → Device → DeviceLog
  /-- `chain_expected`: a position and the hash it must have, and the op that says so. -/
  expected : Table (OpRef ×ₗ Hash) OpRef

/-- No rows. -/
def OpLog.empty : OpLog := ⟨fun _ _ => ∅, ∅⟩

instance : EmptyCollection OpLog := ⟨OpLog.empty⟩

/-- The two functions of the chain root: where a device's chain starts, and one step. -/
structure ChainHash where
  /-- `chain_root_init`. -/
  init : StreamId → Device → Hash
  /-- `chain_root_step`. -/
  step : Hash → Hash → Hash

namespace DeviceLog

/-! ### Floors -/

def floorSeq (d : DeviceLog) : ℕ := (d.floor.map (·.seq)).getD 0

/-- Raise the floor. It never falls: nothing is written when the held floor is at or
above the new one. -/
def raiseFloor (d : DeviceLog) (f : Floor) : DeviceLog :=
  if f.seq ≤ d.floorSeq then d else { d with floor := some { f with seq := i64Of f.seq } }

/-! ### The contiguous prefix -/

/-- The end of the run of sequence numbers starting at `start`, or `start - 1` when
`start` itself is absent. -/
def opsRunEnd (d : DeviceLog) (start : ℕ) : ℕ :=
  if (d.rows.find start).isSome then
    ((d.rows.rows.filter fun r =>
      decide (start ≤ r.1) && (d.rows.find (r.1 + 1)).isNone).head?.map (·.1)).getD (start - 1)
  else start - 1

def cursorSeq (d : DeviceLog) : ℕ := d.cursor.getD 0

/-- The next free sequence number of the device. -/
def nextSeq (d : DeviceLog) : ℕ :=
  max ((d.rows.rows.getLast?.map (·.1)).getD 0) d.floorSeq + 1

/-! ### The chain root -/

/-- The hash of the op held at `n`. At a floor whose row is gone, the floor's. -/
def heldOpHash (d : DeviceLog) (n : ℕ) : Option Hash :=
  match d.rows.find (i64Of n) with
  | some row => some row.env.opHash
  | none => (d.floor.filter fun f => f.seq = n).map (·.opHash)

/-- The stored chain root at `n`. At a floor whose row has none, the floor's. -/
def rootAt (init : Hash) (d : DeviceLog) (n : ℕ) : Option Hash :=
  if n = 0 then some init
  else match (d.rows.find (i64Of n)).bind (·.chainRoot) with
    | some root => some root
    | none => (d.floor.filter fun f => f.seq = n).map (·.root)

/-- Store a row's chain root. -/
def setRoot (d : DeviceLog) (n : ℕ) (root : Hash) : DeviceLog :=
  match d.rows.find (i64Of n) with
  | some row => { d with rows := d.rows.upsert (i64Of n) { row with chainRoot := some root } }
  | none => d

/-- Compare a peer's root with the one held, and keep `chain_divergence` in step. -/
def judge (d : DeviceLog) (peer : Device) (n : ℕ) (peerRoot heldRoot : Hash) : DeviceLog :=
  if peerRoot = heldRoot then
    { d with divergence := d.divergence.filter fun p row => !(p = peer && row.seq ≤ i64Of n) }
  else { d with divergence := d.divergence.upsert peer ⟨i64Of n, peerRoot, heldRoot⟩ }

/-- Where the fold resumes: the highest stored root of the prefix, or the floor where
that is higher, or the start. -/
def resume (init : Hash) (d : DeviceLog) (upTo : ℕ) : ℕ × Hash :=
  let stored := (d.rows.rows.filter fun r =>
    decide (r.1 ≤ i64Of upTo) && r.2.chainRoot.isSome).getLast?.bind fun r =>
      r.2.chainRoot.map fun root => (r.1, root)
  let floor := (d.floor.filter fun f => f.seq ≤ upTo).map fun f => (f.seq, f.root)
  match stored, floor with
  | some s, some f => if s.1 < f.1 then f else s
  | some s, none => s
  | none, some f => f
  | none, none => (0, init)

/-- Extend the stored roots by at most `n` steps above `seq`, whose root is `root`. -/
def extendRoots (c : ChainHash) : ℕ → DeviceLog → ℕ → Hash → DeviceLog × ℕ
  | 0, d, seq, _ => (d, seq)
  | n + 1, d, seq, root =>
    match d.heldOpHash (seq + 1) with
    | none => (d, seq)
    | some h =>
      extendRoots c n (d.setRoot (seq + 1) (c.step root h)) (seq + 1) (c.step root h)

/-- Check the peer claims the prefix now reaches. -/
def checkClaims (init : Hash) (d : DeviceLog) (upTo : ℕ) : DeviceLog :=
  (d.claims.rows.filter fun r => r.2.seq ≤ i64Of upTo).foldl
    (fun d r =>
      let d := { d with claims := d.claims.erase r.1 }
      match d.rootAt init r.2.seq with
      | some held => d.judge r.1 r.2.seq r.2.root held
      | none => d) d

/-- Extend the chain roots over the prefix up to `upTo`, then check the claims it
reaches. -/
def foldChain (c : ChainHash) (init : Hash) (d : DeviceLog) (upTo : ℕ) : DeviceLog :=
  if upTo = 0 then d
  else
    let from_ := d.resume init upTo
    let folded := extendRoots c (upTo - from_.1) d from_.1 from_.2
    folded.1.checkClaims init folded.2

/-- Set the cursor to the end of the contiguous prefix, and move the chain root with
it. The run resumes above the floor or above the stored cursor, whichever is higher. -/
def upsertSyncCursor (c : ChainHash) (init : Hash) (d : DeviceLog) : DeviceLog :=
  let held := d.cursorSeq
  let start := max d.floorSeq held + 1
  let upTo := d.opsRunEnd (if start ≤ storeMax then start else 1)
  { d with cursor := some (max held upTo) }.foldChain c init upTo

/-- Compare an entry of a peer's frontier with the prefix held: an entry within it is
judged, one beyond it becomes a claim. -/
def compareEntry (c : ChainHash) (init : Hash) (peer : Device) (d : DeviceLog)
    (e : FrontierEntry) : DeviceLog :=
  if e.seq ≤ d.cursorSeq then
    let d := if (d.rootAt init e.seq).isNone then d.foldChain c init d.cursorSeq else d
    match d.rootAt init e.seq with
    | some held => d.judge peer e.seq e.root held
    | none => d
  else
    let claims := d.claims.upsert peer ⟨i64Of e.seq, e.root⟩
    match d.claims.find peer with
    | some claim => if claim.seq < i64Of e.seq then { d with claims } else d
    | none => { d with claims }

/-! ### Evidence -/

/-- Keep two claims about a position, once. -/
def recordFork (d : DeviceLog) (n : ℕ) (kind : ForkKind) (held other : Hash) (env : Envelope) :
    DeviceLog :=
  { d with forks := d.forks.insertOrIgnore (toLex (i64Of n, toLex (kind, other))) ⟨held, env⟩ }

end DeviceLog

namespace OpLog

def modify (log : OpLog) (s : StreamId) (dev : Device) (f : DeviceLog → DeviceLog) : OpLog :=
  { log with
    devs := Function.update log.devs s (Function.update (log.devs s) dev (f (log.devs s dev))) }

@[simp] theorem expected_modify (log : OpLog) (s : StreamId) (dev : Device)
    (f : DeviceLog → DeviceLog) : (log.modify s dev f).expected = log.expected := rfl

theorem devs_modify (log : OpLog) (s s' : StreamId) (dev dev' : Device)
    (f : DeviceLog → DeviceLog) :
    (log.modify s dev f).devs s' dev' =
      if s' = s ∧ dev' = dev then f (log.devs s dev) else log.devs s' dev' := by
  unfold modify
  by_cases hs : s' = s
  · subst hs
    by_cases hd : dev' = dev
    · subst hd
      simp
    · simp [hd]
  · simp [hs]

@[simp] theorem devs_modify_self (log : OpLog) (s : StreamId) (dev : Device)
    (f : DeviceLog → DeviceLog) : (log.modify s dev f).devs s dev = f (log.devs s dev) := by
  rw [devs_modify, if_pos ⟨rfl, rfl⟩]

def rowAt (log : OpLog) (r : OpRef) : Option LogRow :=
  (log.devs r.stream r.device).rows.find (i64Of r.seq)

/-- A position as `chain_expected` is keyed by it. -/
def storedRef (r : OpRef) : OpRef := { r with seq := i64Of r.seq }

/-- Record that the op at `r` must hash to `hash`, as `namedBy` asserts. -/
def expect (log : OpLog) (r : OpRef) (hash : Hash) (namedBy : OpRef) : OpLog :=
  { log with expected := log.expected.insertOrIgnore (toLex (storedRef r, hash)) namedBy }

/-- What is expected at a position: each hash, and who named it. -/
def expectedAt (log : OpLog) (r : OpRef) : List (Hash × OpRef) :=
  (log.expected.rows.filter fun row => (ofLex row.1).1 = storedRef r).map fun row =>
    ((ofLex row.1).2, row.2)

/-- Check what an op asserts of a position: an op there that hashes to something else
is a fork, a position not yet held is expected to, and one below the floor is covered
by the floor's root. -/
def checkNamed (log : OpLog) (r : OpRef) (kind : ForkKind) (hash : Hash) (env : Envelope) :
    OpLog :=
  let d := log.devs r.stream r.device
  match d.heldOpHash r.seq with
  | some held =>
    if held = hash then log
    else log.modify r.stream r.device (·.recordFork r.seq kind held hash env)
  | none => if r.seq < d.floorSeq then log else log.expect r hash env.ref

/-- How the op that named a position named it. -/
def namerKind (namer : Envelope) (r : OpRef) : ForkKind :=
  if namer.ref.device = r.device ∧ namer.ref.seq = r.seq + 1 then .link else .head

/-- Judge one expectation of a position, now that the op there hashes to `hash`: one of
another hash, whose namer is held, is a fork. -/
def judgeExpected (r : OpRef) (hash : Hash) (log : OpLog) (e : Hash × OpRef) : OpLog :=
  if e.1 = hash then log
  else match log.rowAt e.2 with
    | none => log
    | some namer =>
      log.modify r.stream r.device
        (·.recordFork r.seq (namerKind namer.env r) hash e.1 namer.env)

/-- Judge everything that was expected at a position. -/
def settleExpected (log : OpLog) (r : OpRef) (hash : Hash) : OpLog :=
  (log.expectedAt r).foldl (judgeExpected r hash) log

/-- Check what an op says its writer had seen of one other device. -/
def checkHead (env : Envelope) (log : OpLog) (head : ChainHead) : OpLog :=
  if head.device = env.ref.device ∨ head.seq = 0 then log
  else log.checkNamed ⟨env.ref.stream, head.device, head.seq⟩ .head head.opHash env

/-- Check the op that just entered the log against everything that names its position,
and everything it names. -/
def checkLinks (log : OpLog) (env : Envelope) : OpLog :=
  -- what later ops said this one would be
  let log := log.settleExpected env.ref env.opHash
  let log := { log with
    expected := log.expected.filter fun k _ => (ofLex k).1 ≠ storedRef env.ref }
  -- what this op says its predecessor was
  let log := match env.prevHash with
    | some prev =>
      if 1 < env.ref.seq then
        log.checkNamed { env.ref with seq := env.ref.seq - 1 } .link prev env
      else log
    | none => log
  -- what it says its writer had seen of the other devices
  env.heads.foldl (checkHead env) log

/-- A second envelope at a held position: another op there is a fork. -/
def checkDuplicate (log : OpLog) (env : Envelope) : OpLog :=
  match (log.devs env.ref.stream env.ref.device).heldOpHash env.ref.seq with
  | some held =>
    if held = env.opHash then log
    else log.modify env.ref.stream env.ref.device
      (·.recordFork env.ref.seq .seq held env.opHash env)
  | none => log

/-- Whether a floor covers the envelope's position and no row holds it. -/
def isCovered (log : OpLog) (env : Envelope) : Bool :=
  match (log.devs env.ref.stream env.ref.device).floor with
  | none => false
  | some f => decide (env.ref.seq ≤ f.seq) && (log.rowAt env.ref).isNone

/-- An envelope at a covered position: a duplicate, or a fork at the floor itself. -/
def checkCovered (log : OpLog) (env : Envelope) : OpLog :=
  match (log.devs env.ref.stream env.ref.device).floor with
  | some f =>
    if env.ref.seq = f.seq ∧ env.opHash ≠ f.opHash then
      log.modify env.ref.stream env.ref.device
        (·.recordFork env.ref.seq .seq f.opHash env.opHash env)
    else log
  | none => log

/-- Settle what was expected or claimed of the positions a floor that just rose covers:
at the floor it is judged, below it nothing single is known. -/
def settleBelowFloor (log : OpLog) (s : StreamId) (dev : Device) (f : Floor) : OpLog :=
  let log := log.settleExpected ⟨s, dev, f.seq⟩ f.opHash
  let log := { log with expected := log.expected.filter fun k _ =>
    !((ofLex k).1.stream = s && (ofLex k).1.device = dev &&
      decide ((ofLex k).1.seq ≤ i64Of f.seq)) }
  log.modify s dev fun d =>
    let claims := d.claims.rows.filter fun r => r.2.seq = i64Of f.seq
    let d := { d with claims := d.claims.filter fun _ row => decide (i64Of f.seq < row.seq) }
    claims.foldl (fun d r => d.judge r.1 f.seq r.2.root f.root) d

/-- Record a peer's frontier as its acknowledgements, never lowering one. -/
def recordPeerFrontier (log : OpLog) (s : StreamId) (peer : Device)
    (entries : List FrontierEntry) : OpLog :=
  entries.foldl
    (fun log e => log.modify s e.device fun d =>
      { d with acks := d.acks.upsert peer (max ((d.acks.find peer).getD 0) (i64Of e.seq)) })
    log

def reconcile (c : ChainHash) (log : OpLog) (s : StreamId) (peer : Device)
    (entries : List FrontierEntry) (authentic : Bool) : OpLog :=
  if entries.Pairwise (fun a b => a.device < b.device) ∧ authentic then
    entries.foldl
      (fun log e =>
        if e.seq = 0 then log
        else log.modify s e.device (·.compareEntry c (c.init s e.device) peer e))
      (log.recordPeerFrontier s peer entries)
  else log

/-! ### Writing -/

def insertRow (log : OpLog) (env : Envelope) (row : LogRow) : OpLog :=
  log.modify env.ref.stream env.ref.device fun d =>
    { d with rows := d.rows.upsert env.ref.seq row }

/-- Advance the cursor of the envelope's device. -/
def advance (c : ChainHash) (log : OpLog) (env : Envelope) : OpLog :=
  log.modify env.ref.stream env.ref.device
    (·.upsertSyncCursor c (c.init env.ref.stream env.ref.device))

/-- Seal an op at the device's next position and log it. -/
def append (c : ChainHash) (log : OpLog) (draft : Envelope) : OpLog :=
  let n := (log.devs draft.ref.stream draft.ref.device).nextSeq
  let env := { draft with ref := { draft.ref with seq := n } }
  if n ≤ storeMax then (log.insertRow env ⟨env, env.inner.kind, true, false, none⟩).advance c env
  else log

/-- What an op this build reads does to the log besides its row. -/
def absorb (c : ChainHash) (log : OpLog) (env : Envelope) : OpLog :=
  let log := log.checkLinks env
  let log := match env.inner with
    | .streamDigest entries authentic =>
      log.reconcile c env.ref.stream env.ref.device entries authentic
    | _ => log
  log.advance c env

def receive (c : ChainHash) (log : OpLog) (env : Envelope) : OpLog :=
  if log.isCovered env then log.checkCovered env
  else if storeMax < env.ref.seq then log
  else match log.rowAt env.ref with
    | none => (log.insertRow env ⟨env, env.inner.kind, true, false, none⟩).absorb c env
    | some row =>
      -- the delivery of a parked op by a build that reads it releases it
      if row.parked ∧ row.env.opHash = env.opHash then
        (log.insertRow env { row with kind := env.inner.kind, applied := true, parked := false }
          ).absorb c env
      else log.checkDuplicate env

/-- Receive an op this build cannot read. -/
def park (c : ChainHash) (log : OpLog) (env : Envelope) : OpLog :=
  if log.isCovered env then log.checkCovered env
  else if storeMax < env.ref.seq then log
  else match log.rowAt env.ref with
    | none =>
      ((log.insertRow env ⟨env, .parked, false, true, none⟩).checkLinks env).advance c env
    | some _ => log.checkDuplicate env

/-- A delivery: the envelope, and whether this build reads it. -/
structure Delivery where
  env : Envelope
  readable : Bool

def deliver (c : ChainHash) (log : OpLog) (dl : Delivery) : OpLog :=
  if dl.readable then log.receive c dl.env else log.park c dl.env

/-! ### Compaction -/

/-- What a compaction of one stream reads outside the log. -/
structure CompactionView where
  /-- For each device, the least prefix the other known devices have acknowledged, where
  there is another one. -/
  acknowledged : Device → Option ℕ
  /-- Only ops stamped at or before this are folded away. -/
  cutoff : ℕ
  /-- The ops a group or the outbox still waits for. -/
  waiting : OpRef → Bool

def namesExpected (log : OpLog) (r : OpRef) : Bool := log.expected.rows.any fun row => row.2 = r

/-- The rows a compaction to `target` deletes. -/
def deletable (log : OpLog) (view : CompactionView) (s : StreamId) (dev : Device)
    (target n : ℕ) (row : LogRow) : Bool :=
  decide (n ≤ target) && row.applied && row.kind.compactable && !row.parked &&
    !view.waiting ⟨s, dev, n⟩ && !log.namesExpected ⟨s, dev, n⟩

/-- The highest position the policy lets the floor rise to. -/
def compactionTarget (d : DeviceLog) (acked : Option ℕ) (cutoff : ℕ) : Option ℕ :=
  let limit := min ((acked.map (min d.cursorSeq)).getD d.cursorSeq) (d.cursorSeq - 1)
  if limit ≤ d.floorSeq then none
  else (d.rows.rows.filter fun r =>
    decide (d.floorSeq < r.1 ∧ r.1 ≤ limit ∧ r.2.env.hlc.physicalMs ≤ cutoff)).getLast?.map (·.1)

/-- Fold one device's prefix below its floor: raise the floor to the target and delete
the rows whose whole effect is in the merge state. -/
def compactDevice (c : ChainHash) (log : OpLog) (view : CompactionView) (s : StreamId)
    (dev : Device) : DeviceLog :=
  let d := log.devs s dev
  match compactionTarget d (view.acknowledged dev) view.cutoff with
  | none => d
  | some target =>
    -- a prefix from before the chain may not have its roots yet
    let d := d.foldChain c (c.init s dev) d.cursorSeq
    match d.heldOpHash target, d.rootAt (c.init s dev) target with
    | some opHash, some root =>
      let d := d.raiseFloor ⟨target, opHash, root⟩
      { d with rows := d.rows.filter fun n row => !log.deletable view s dev target n row }
    | _, _ => d

/-- Fold one stream: every device of it that has a cursor. -/
def compactStream (c : ChainHash) (log : OpLog) (view : CompactionView) (s : StreamId) : OpLog :=
  { log with devs := fun s' dev =>
      if s' = s ∧ (log.devs s dev).cursor.isSome then log.compactDevice c view s dev
      else log.devs s' dev }

/-! ### Snapshots -/

/-- One device's entry of a snapshot's frontier. -/
structure SnapshotEntry where
  device : Device
  floor : Floor
deriving DecidableEq, Repr

/-- Fold a device's chain where a root of its prefix is not stored yet. -/
def foldAt (c : ChainHash) (log : OpLog) (s : StreamId) (dev : Device) (n : ℕ) : OpLog :=
  if ((log.devs s dev).rootAt (c.init s dev) n).isNone then
    log.modify s dev fun d => d.foldChain c (c.init s dev) d.cursorSeq
  else log

/-- Check a snapshot's entries against the prefixes held: an entry within a prefix must
have the prefix's root. Whether any entry is beyond its prefix comes with the log, or
nothing where one disagrees. -/
def checkEntries (c : ChainHash) (s : StreamId) :
    List SnapshotEntry → OpLog → Bool → Option (OpLog × Bool)
  | [], log, adds => some (log, adds)
  | e :: entries, log, adds =>
    if (log.devs s e.device).cursorSeq < e.floor.seq then checkEntries c s entries log true
    else
      let log := log.foldAt c s e.device e.floor.seq
      match (log.devs s e.device).rootAt (c.init s e.device) e.floor.seq with
      | some root => if root = e.floor.root then checkEntries c s entries log adds else none
      | none => checkEntries c s entries log adds

def adopt (c : ChainHash) (s : StreamId) (log : OpLog) (e : SnapshotEntry) : OpLog :=
  let raised := log.modify s e.device (·.raiseFloor e.floor)
  let log := if e.floor.seq ≤ (log.devs s e.device).floorSeq then raised
    else raised.settleBelowFloor s e.device e.floor
  log.modify s e.device (·.upsertSyncCursor c (c.init s e.device))

/-- Apply a snapshot of the stream: check its frontier, receive the ops it retains, and
once they are all here adopt its frontier as floors. -/
def applySnapshot (c : ChainHash) (log : OpLog) (s : StreamId) (entries : List SnapshotEntry)
    (retained : List Delivery) : OpLog :=
  if ¬ entries.Pairwise (fun a b => a.device < b.device) then log
  else match checkEntries c s entries log false with
    | none => log
    | some (log, false) => log
    | some (log, true) =>
      let log := retained.foldl (deliver c) log
      if retained.all fun dl => (log.rowAt dl.env.ref).isSome ||
          decide (dl.env.ref.seq ≤ (log.devs dl.env.ref.stream dl.env.ref.device).floorSeq) then
        entries.foldl (adopt c s) log
      else log

/-! ### Runs -/

/-- One write of the log. -/
inductive Event where
  | append (draft : Envelope)
  | deliver (dl : Delivery)
  | compact (view : CompactionView) (s : StreamId)
  | snapshot (s : StreamId) (entries : List SnapshotEntry) (retained : List Delivery)

/-- Make a write. -/
def handle (c : ChainHash) (log : OpLog) : Event → OpLog
  | .append draft => log.append c draft
  | .deliver dl => log.deliver c dl
  | .compact view s => log.compactStream c view s
  | .snapshot s entries retained => log.applySnapshot c s entries retained

def run (c : ChainHash) (events : List Event) : OpLog :=
  events.foldl (handle c) ∅

end OpLog

end Sunrise
