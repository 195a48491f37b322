import Sunrise.Keys.Distribution
import Sunrise.Vault.Atomic

/-!
# What a replica asks the relay for

A session subscribes to streams and applies the frames the relay sends for them. Which
streams those are is read off two tables: the streams the op log has ops of, and those whose
row is not deleted. A stream a replica learns of while it is connected is added to what the
session asked for, and a new session or a resync asks for what the tables name.

A stream that is deleted before any of its own ops arrived is named by neither table, so its
ops are not asked for again. Nor is one whose merged entity is not yet a whole stream, which
has no row. These are the ways a replica stops asking.

* `SyncReplica`, `SyncStep`, `Peers.Reachable` — a replica, its sessions and its runs.
* `asksForAll_iff` — **when a replica asks for every stream**; it always does for one that is
  whole and not deleted, and where it does for all, once quiet it holds every op.
* `not_asksForAll_deleted` — a replica that does not ask for a deleted stream.
-/

namespace Sunrise

open Engine (privateDomain)

/-! ### The streams asked for -/

/-- The `deleted` field of a projected entity. -/
def isDeleted (value : Value) : Bool :=
  match getEntry (value.asMap.getD []) "deleted" with
  | some (.bool b) => b
  | _ => false

abbrev StreamRows := StreamId → Option Bool

/-- What the rows of `streams` are made of. -/
structure StreamCodec where
  /-- Whether a merged entity decodes as a whole stream. -/
  whole : Value → Bool
  /-- The stream whose row the start of a focus session makes sure of, where it names one. -/
  focused : Envelope → Option StreamId

/-- Write the merged entity to its row, or nothing where it is not yet a whole stream. -/
def writeProjection (d : StreamCodec) (rows : StreamRows) (id : Id) (value : Value) :
    StreamRows :=
  if d.whole value then Function.update rows id (some (isDeleted value)) else rows

def projectAndWrite (c : Codec) (s : Serde) (d : StreamCodec) (store : Store)
    (rows : StreamRows) (op : Op) : StreamRows :=
  if op.target.kind = .stream then
    let value := (store op.target.id).book.bind fun b =>
      project c s .stream op.target.id b.2 (store op.target.id)
    (value.map (writeProjection d rows op.target.id)).getD rows
  else rows

/-- The rows after some ops were folded into a store. -/
def writeStreamRows (c : Codec) (s : Serde) (d : StreamCodec) (store : Store)
    (rows : StreamRows) : List Op → StreamRows
  | [] => rows
  | op :: ops =>
    let store := mergeOp c store op
    writeStreamRows c s d store (projectAndWrite c s d store rows op) ops

/-- A stream that a focus session names gets a row, if it has none. -/
def ensureStreamRow (rows : StreamRows) (id : StreamId) : StreamRows :=
  if (rows id).isSome then rows else Function.update rows id (some false)

def OpLog.Logs (log : OpLog) (stream : StreamId) : Prop :=
  ∃ r : OpRef, r.stream = stream ∧ (log.rowAt r).isSome

/-- The streams a subscription names: the two fixed ones, those of the op log, and those with
a row that is not deleted. -/
def OpLog.subscribeEntries (log : OpLog) (rows : StreamRows) : Set StreamId :=
  {id | id = metaStream ∨ id = privateDomain ∨ log.Logs id ∨ rows id = some false}

/-! ### Sessions -/

def Op.isCreate (op : Op) : Bool :=
  match op.body with
  | .patch create .. => create
  | .legacy cls _ _ => decide (cls = .create)

def createdStreams (ops : List Op) : Set StreamId :=
  {id | ∃ op ∈ ops, op.isCreate ∧ op.target = ⟨.stream, id⟩}

structure SyncSession where
  /-- The streams it subscribed to, as it keeps them. -/
  subscribed : Set StreamId
  /-- The streams that a subscription of it named: frames of these may come. -/
  named : Set StreamId

structure SyncReplica where
  vault : Vault
  /-- `streams`. -/
  rows : StreamRows
  done : List Envelope
  folded : List Op
  session : Option SyncSession

/-- A replica before its first session. -/
def SyncReplica.new : SyncReplica := ⟨∅, fun _ => none, [], [], none⟩

def SyncReplica.subscribeEntries (r : SyncReplica) : Set StreamId :=
  r.vault.log.subscribeEntries r.rows

/-- What the relay holds: peers' ops, each of the account's own stream, of the private one or
of a stream that an op in the account's own stream creates. -/
structure Peers where
  envs : List Envelope
  distinct : ∀ a ∈ envs, ∀ b ∈ envs, a.ref = b.ref → a = b
  fits : ∀ env ∈ envs, env.Fits
  oneKind : OneKind (envs.filterMap (·.op))
  rooted : ∀ env ∈ envs, env.ref.stream = metaStream ∨ env.ref.stream = privateDomain ∨
    ∃ create ∈ envs, create.ref.stream = metaStream ∧ ∃ op, create.op = some op ∧
      op.group = none ∧ op.isCreate ∧ op.target = ⟨.stream, env.ref.stream⟩

section

/-- A session after a frame, which created some streams: these are added, and where any is
new the session subscribes again, to these and to all the tables name. -/
def SyncSession.grow (σ : SyncSession) (tables created : Set StreamId) : SyncSession where
  subscribed := σ.subscribed ∪ created
  named := σ.named ∪ {id | ¬ created ⊆ σ.subscribed ∧
    (id ∈ tables ∨ id ∈ σ.subscribed ∪ created)}

variable (c : Codec) (s : Serde) (d : StreamCodec) (ch : ChainHash)

/-- `streams` after a frame: the ops it folded are projected, and a focus record it logged
makes sure of a row. -/
def SyncReplica.rowsAfter (r : SyncReplica) (env : Envelope) : StreamRows :=
  let rows := writeStreamRows c s d r.vault.store r.rows (r.vault.receive c ch env).2
  match env.inner with
  | .record =>
    if r.vault.log.takes env then ((d.focused env).map (ensureStreamRow rows)).getD rows else rows
  | _ => rows

def SyncReplica.frame (r : SyncReplica) (σ : SyncSession) (env : Envelope) : SyncReplica :=
  let next := r.vault.receive c ch env
  let rows := r.rowsAfter c s d ch env
  { vault := next.1
    rows := rows
    done := r.done ++ [env]
    folded := r.folded ++ next.2
    session := some (σ.grow (next.1.log.subscribeEntries rows) (createdStreams next.2)) }

/-- A step of a replica's sessions. -/
inductive SyncStep (peers : Peers) : SyncReplica → SyncReplica → Prop where
  /-- A session starts: it subscribes to what the tables name. -/
  | connect (r : SyncReplica) : SyncStep peers r { r with
      session := some ⟨r.subscribeEntries, r.subscribeEntries⟩ }
  /-- A frame of a stream that was asked for arrives. -/
  | frame (r : SyncReplica) (σ : SyncSession) (env : Envelope) (hσ : r.session = some σ)
      (henv : env ∈ peers.envs) (hnamed : env.ref.stream ∈ σ.named) :
      SyncStep peers r (r.frame c s d ch σ env)
  | resync (r : SyncReplica) (σ : SyncSession) (hσ : r.session = some σ) :
      SyncStep peers r { r with
        session := some { σ with named := σ.named ∪ r.subscribeEntries } }
  | disconnect (r : SyncReplica) : SyncStep peers r { r with session := none }

/-- The replicas that sessions lead to. -/
inductive Peers.Reachable (peers : Peers) : SyncReplica → Prop where
  | new : peers.Reachable .new
  | step {r r' : SyncReplica} (h : peers.Reachable r) (hstep : SyncStep c s d ch peers r r') :
      peers.Reachable r'

end

/-! ### What a replica asks for -/

def AsksForAll (r : SyncReplica) : Prop :=
  ∀ id ∈ createdStreams r.folded, id ∈ r.subscribeEntries

/-- Of every stream that was created and whose row is deleted or missing, fixed ones aside, a
frame was applied. -/
def HeardOfUnlisted (r : SyncReplica) : Prop :=
  ∀ id ∈ createdStreams r.folded, r.rows id ≠ some false →
    id = metaStream ∨ id = privateDomain ∨ ∃ env ∈ r.done, env.ref.stream = id

/-- Nothing new arrives: the replica holds what the relay has of the streams it asks for. -/
def Quiet (peers : Peers) (r : SyncReplica) : Prop :=
  ∀ env ∈ peers.envs, env.ref.stream ∈ r.subscribeEntries →
    r.vault.log.readAt env.ref = some env

/-! ### Runs -/

section

variable {c : Codec} {s : Serde} {d : StreamCodec} {ch : ChainHash} {peers : Peers}
  {r : SyncReplica}

section

variable (h : peers.Reachable c s d ch r)
include h

/-- What sessions keep: the tables are those of the frames that were applied. -/
theorem run_of_reachable :
    Vault.Run c r.done r.vault r.folded ∧ ∀ env ∈ r.done, env ∈ peers.envs := by
  induction h with
  | new => exact ⟨Vault.run_empty c, by simp [SyncReplica.new]⟩
  | step h hstep ih =>
    cases hstep with
    | connect => exact ih
    | resync => exact ih
    | disconnect => exact ih
    | frame σ env hσ henv hnamed =>
      refine ⟨ih.1.receive ch env, fun e he => ?_⟩
      rcases List.mem_append.mp he with he | he
      · exact ih.2 e he
      · exact List.mem_singleton.mp he ▸ henv

theorem oneKind_folded : OneKind r.folded := by
  obtain ⟨hrun, hdone⟩ := run_of_reachable h
  have hmem : ∀ op ∈ r.folded, op ∈ peers.envs.filterMap (·.op) := by
    intro op hop
    obtain ⟨hfit, env, hread, henv⟩ := ((hrun.folded op).mp hop).1
    exact List.mem_filterMap.mpr ⟨env, hdone env (hrun.given _ env hfit hread).1, henv⟩
  exact fun o ho o' ho' => peers.oneKind o (hmem o ho) o' (hmem o' ho')

theorem readAt_of_done {env : Envelope} (henv : env ∈ r.done) :
    r.vault.log.readAt env.ref = some env := by
  obtain ⟨hrun, hdone⟩ := run_of_reachable h
  have hfits := peers.fits env (hdone env henv)
  obtain ⟨env', hread⟩ := Option.isSome_iff_exists.mp (hrun.present env henv hfits)
  obtain ⟨hmem, href, -⟩ := hrun.given _ env' hfits.1 hread
  rw [hread, peers.distinct env' (hdone env' hmem) env (hdone env henv) href]

theorem logs_iff (id : StreamId) :
    r.vault.log.Logs id ↔ ∃ env ∈ r.done, env.ref.stream = id := by
  constructor
  · rintro ⟨ref, rfl, hrow⟩
    obtain ⟨hrun, -⟩ := run_of_reachable h
    obtain ⟨row, hrow⟩ := Option.isSome_iff_exists.mp hrow
    have hstored : r.vault.log.rowAt (OpLog.storedRef ref) = some row := by
      rw [← hrow]
      unfold OpLog.rowAt OpLog.storedRef
      dsimp only
      rw [i64Of_eq_self.mpr (i64Of_le ref.seq)]
    have hread : r.vault.log.readAt (OpLog.storedRef ref) = some row.env := by
      unfold OpLog.readAt
      rw [hstored]
      simp [hrun.plain.unparked _ row hrow]
    obtain ⟨hmem, href, -⟩ := hrun.given _ row.env (i64Of_le ref.seq) hread
    exact ⟨row.env, hmem, (congrArg OpRef.stream href).trans rfl⟩
  · rintro ⟨env, henv, rfl⟩
    refine ⟨env.ref, rfl, ?_⟩
    have hread := readAt_of_done h henv
    unfold OpLog.readAt at hread
    cases hrow : r.vault.log.rowAt env.ref with
    | none =>
      rw [hrow] at hread
      simp at hread
    | some row => rfl

end

/-! ### The rows -/

/-- A merged entity that is a whole stream has the row it says. -/
def StreamRows.Fresh (c : Codec) (s : Serde) (d : StreamCodec) (store : Store)
    (rows : StreamRows) : Prop :=
  ∀ id m value, (store id).book = some (.stream, m) →
    project c s .stream id m (store id) = some value → d.whole value →
      rows id = some (isDeleted value)

/-- The bookkeeping rows of a store name kinds that ops wrote. -/
def Store.Books (store : Store) (ops : List Op) : Prop :=
  ∀ id k m, (store id).book = some (k, m) → ∃ op ∈ ops, op.target = ⟨k, id⟩

theorem Store.Books.mergeOp {store : Store} {ops : List Op} (h : store.Books ops) (op : Op) :
    (mergeOp c store op).Books (ops ++ [op]) := by
  intro id k m hbook
  unfold Sunrise.mergeOp at hbook
  by_cases hid : id = op.target.id
  · subst hid
    rw [Function.update_self] at hbook
    obtain ⟨hk, -⟩ := Prod.mk.inj (Option.some.inj hbook)
    cases hold : (store op.target.id).book with
    | none =>
      rw [hold] at hk
      exact ⟨op, by simp, by rw [← hk]; rfl⟩
    | some b =>
      obtain ⟨o, ho, ht⟩ := h _ b.1 b.2 hold
      rw [hold] at hk
      exact ⟨o, by simp [ho], by rw [ht, ← hk]; rfl⟩
  · rw [Function.update_of_ne hid] at hbook
    obtain ⟨o, ho, ht⟩ := h id k m hbook
    exact ⟨o, by simp [ho], ht⟩

theorem StreamRows.Fresh.projectAndWrite {store : Store} {rows : StreamRows} {op : Op}
    (h : rows.Fresh c s d store)
    (hkind : ∀ m, (mergeOp c store op op.target.id).book = some (.stream, m) →
      op.target.kind = .stream) :
    (projectAndWrite c s d (mergeOp c store op) rows op).Fresh c s d (mergeOp c store op) := by
  intro id m value hbook hproject hwhole
  unfold Sunrise.projectAndWrite
  by_cases hid : id = op.target.id
  · subst hid
    rw [if_pos (hkind m hbook), hbook, Option.bind_some, hproject, Option.map_some,
      Option.getD_some, writeProjection, if_pos hwhole, Function.update_self]
  · have hrow : rows id = some (isDeleted value) := by
      have hsame : mergeOp c store op id = store id := Function.update_of_ne hid _ _
      rw [hsame] at hbook hproject
      exact h id m value hbook hproject hwhole
    -- a write is of the op's own row
    have hother : ∀ value, writeProjection d rows op.target.id value id = rows id := by
      intro value
      unfold writeProjection
      split
      · exact Function.update_of_ne hid _ _
      · rfl
    split
    · generalize (mergeOp c store op op.target.id).book.bind _ = value?
      cases value? with
      | none => exact hrow
      | some value => exact (hother value).trans hrow
    · exact hrow

/-- **The rows are those of the merged streams**, after any folds. -/
theorem StreamRows.Fresh.write {store : Store} {rows : StreamRows} {done ops : List Op}
    (h : rows.Fresh c s d store) (hbooks : store.Books done) (hone : OneKind (done ++ ops)) :
    (writeStreamRows c s d store rows ops).Fresh c s d (mergeOps c store ops) ∧
      (mergeOps c store ops).Books (done ++ ops) := by
  induction ops generalizing store rows done with
  | nil => simpa [writeStreamRows, mergeOps] using And.intro h hbooks
  | cons op ops ih =>
    have hbooks' := hbooks.mergeOp (c := c) op
    rw [List.append_cons] at hone ⊢
    refine ih (h.projectAndWrite fun m hbook => ?_) hbooks' hone
    obtain ⟨o, ho, ht⟩ := hbooks' _ _ _ hbook
    have hsame := hone o (List.mem_append_left _ ho) op (by simp) (by rw [ht])
    rw [← hsame, ht]

/-- A row that a focus session makes sure of changes none that is there. -/
theorem StreamRows.Fresh.ensure {store : Store} {rows : StreamRows}
    (h : rows.Fresh c s d store) (id : StreamId) :
    (ensureStreamRow rows id).Fresh c s d store := by
  intro id' m value hbook hproject hwhole
  have hrow := h id' m value hbook hproject hwhole
  unfold ensureStreamRow
  split
  · exact hrow
  next hnone =>
    rw [Function.update_of_ne fun heq => hnone (by rw [← heq, hrow]; rfl), hrow]

theorem fresh_of_reachable (h : peers.Reachable c s d ch r) :
    r.rows.Fresh c s d r.vault.store ∧ r.vault.store.Books r.folded := by
  induction h with
  | new =>
    constructor <;> intro _ _ _ hbook <;> exact absurd hbook (Option.some_ne_none _).symm
  | @step r _ h hstep ih =>
    cases hstep with
    | connect => exact ih
    | resync => exact ih
    | disconnect => exact ih
    | frame σ env hσ henv hnamed =>
      have hreach := h.step (.frame _ σ env hσ henv hnamed)
      have hstore : mergeOps c r.vault.store (r.vault.receive c ch env).2 =
          (r.frame c s d ch σ env).vault.store := by
        rw [(run_of_reachable hreach).1.store, (run_of_reachable h).1.store]
        exact List.foldl_append.symm
      obtain ⟨hfresh, hbooks⟩ := ih.1.write ih.2 (oneKind_folded hreach)
      rw [hstore] at hfresh hbooks
      refine ⟨?_, hbooks⟩
      unfold SyncReplica.frame SyncReplica.rowsAfter at *
      dsimp only at *
      split
      · split
        · cases d.focused env with
          | none => exact hfresh
          | some id => exact hfresh.ensure id
        · exact hfresh
      · exact hfresh

/-- **A replica asks for every stream whose create it applied exactly while each of them with
no live row has an op in its log** (or is one of the two fixed streams). It asks for every
merged stream that is whole and not deleted. Where the condition holds and nothing new arrives
on the streams it asks for, the replica holds every op. -/
theorem asksForAll_iff (h : peers.Reachable c s d ch r) :
    (AsksForAll r ↔ HeardOfUnlisted r) ∧
      (∀ id m value, (r.vault.store id).book = some (.stream, m) →
        projection c s r.vault.store id = some value → d.whole value →
          isDeleted value = false → id ∈ r.subscribeEntries) ∧
      (HeardOfUnlisted r → Quiet peers r →
        ∀ env ∈ peers.envs, r.vault.log.readAt env.ref = some env) := by
  have hiff : AsksForAll r ↔ HeardOfUnlisted r := by
    constructor
    · intro hasks id hid hunlisted
      rcases hasks id hid with hmeta | hprivate | hlogs | hlive
      · exact .inl hmeta
      · exact .inr (.inl hprivate)
      · exact .inr (.inr ((logs_iff h id).mp hlogs))
      · exact absurd hlive hunlisted
    · intro hheard' id hid
      by_cases hrow : r.rows id = some false
      · exact .inr (.inr (.inr hrow))
      · rcases hheard' id hid hrow with hmeta | hprivate | hheard
        · exact .inl hmeta
        · exact .inr (.inl hprivate)
        · exact .inr (.inr (.inl ((logs_iff h id).mpr hheard)))
  refine ⟨hiff, fun id m value hbook hproject hwhole hlive => ?_,
    fun hheard' hquiet env henv => hquiet env henv ?_⟩
  · rw [projection, hbook, Option.bind_some] at hproject
    have hrow := (fresh_of_reachable h).1 id m value hbook hproject hwhole
    exact .inr (.inr (.inr (hrow.trans (congrArg some hlive))))
  rcases peers.rooted env henv with hmeta | hprivate | ⟨create, hmem, hstream, op, hop, hg, hc, ht⟩
  · exact .inl hmeta
  · exact .inr (.inl hprivate)
  · -- the create is of the account's own stream, so it is held, and folded
    have hread := hquiet create hmem (.inl hstream)
    have href := Vault.ref_stamp_of_op hop
    have hfit : op.stamp.seq ≤ storeMax :=
      (congrArg OpRef.seq href).trans_le (peers.fits create hmem).1
    have hholds : r.vault.log.Holds op := ⟨hfit, create, href ▸ hread, hop⟩
    have hfolded : op ∈ r.folded :=
      ((run_of_reachable h).1.folded op).mpr ⟨hholds, fun g hg' => by rw [hg] at hg'; simp at hg'⟩
    exact hiff.mpr hheard' _ ⟨op, hfolded, hc, ht⟩

end

/-! ### A deleted stream -/

namespace Peers.Sample

def create : Envelope where
  ref := ⟨metaStream, 1, 1⟩
  hlc := ⟨1, 0⟩
  opHash := 1
  inner := .entity ⟨.stream, 7⟩ (.patch true false (some []) none
    [("name", .set (.text "a")), ("color", .set (.text "slate")),
      ("sort_order", .set (.text "M")), ("review_cadence", .set (.text "weekly"))])

def delete : Envelope where
  ref := ⟨metaStream, 1, 2⟩
  hlc := ⟨3, 0⟩
  opHash := 2
  inner := .entity ⟨.stream, 7⟩
    (.patch false false (some [create.ref]) none [("deleted", .set (.bool true))])

/-- Device 2, which has not heard of that, files a task in the stream. -/
def file : Envelope where
  ref := ⟨7, 2, 1⟩
  hlc := ⟨2, 0⟩
  opHash := 3
  inner := .entity ⟨.task, 9⟩ (.patch true false (some []) none [("title", .set (.text "b"))])

/-- The relay holds the three ops. -/
def relay : Peers where
  envs := [create, delete, file]
  distinct := by
    intro a ha b hb href
    simp only [List.mem_cons, List.not_mem_nil, or_false] at ha hb
    rcases ha with rfl | rfl | rfl <;> rcases hb with rfl | rfl | rfl <;>
      first | rfl | exact absurd href (by decide)
  fits := by
    intro env henv
    simp only [List.mem_cons, List.not_mem_nil, or_false] at henv
    rcases henv with rfl | rfl | rfl <;>
      exact ⟨by decide, fun op g hop hg => by
        obtain rfl := Option.some.inj hop
        simp [Op.group] at hg⟩
  oneKind := by
    unfold OneKind
    decide
  rooted := by
    intro env henv
    simp only [List.mem_cons, List.not_mem_nil, or_false] at henv
    rcases henv with rfl | rfl | rfl
    · exact .inl rfl
    · exact .inl rfl
    · exact .inr (.inr ⟨create, by simp, rfl, _, rfl, rfl, rfl, rfl⟩)

def serde : Serde := { Serde.sample with ref := fun _ _ => .text "str_00000000000000000000000007" }

/-- A stream is whole when it has every field the decoder asks for. -/
def decode : StreamCodec where
  whole := fun value =>
    ["id", "created_at", "updated_at", "name", "color", "sort_order", "review_cadence"].all
      fun field => ((getEntry (value.asMap.getD []) field).bind (·.asText)).isSome
  focused := fun _ => none

def connected (r : SyncReplica) : SyncReplica :=
  { r with session := some ⟨r.subscribeEntries, r.subscribeEntries⟩ }

/-- The replica after some frames of the relay, applied in one session. -/
def after (envs : List Envelope) : SyncReplica :=
  envs.foldl (fun r env =>
    (r.session.map fun σ => r.frame .short serde decode .sample σ env).getD r) (connected .new)

theorem reachable_created : relay.Reachable .short serde decode .sample (after [create]) :=
  .step (.step .new (.connect _)) (.frame _ _ create rfl (by simp [relay]) (.inl rfl))

theorem reachable_deleted : relay.Reachable .short serde decode .sample (after [create, delete]) :=
  .step reachable_created (.frame _ _ delete rfl (by simp [relay]) (.inl (.inl rfl)))

end Peers.Sample

open Peers.Sample in
theorem asksForAll_iff_created : AsksForAll (after [create]) := by
  refine (asksForAll_iff reachable_created).1.mpr fun id hid hrow => ?_
  obtain ⟨op, hop, -, htarget⟩ := hid
  have hfolded : (after [create]).folded = create.op.toList := by rfl
  rw [hfolded, create.eq_def] at hop
  obtain rfl := List.mem_singleton.mp hop
  obtain rfl := congrArg EntityRef.id htarget
  exact absurd (show (after [create]).rows 7 = some false by decide +kernel) hrow

open Peers.Sample in
/-- A replica applies the create and the delete of a stream, and reconnects. It no longer asks
for the stream, and the task another device filed in it never comes. -/
theorem not_asksForAll_deleted :
    ¬ (∀ (peers : Peers) (r : SyncReplica), peers.Reachable .short serde decode .sample r →
      AsksForAll r) ∧
    ¬ (∀ (peers : Peers) (r : SyncReplica), peers.Reachable .short serde decode .sample r →
      Quiet peers r →
        ∀ env ∈ peers.envs, r.vault.log.readAt env.ref = some env) := by
  have hreach := reachable_deleted
  have hdone : (after [create, delete]).done = [create, delete] := rfl
  have hnot : 7 ∉ (after [create, delete]).subscribeEntries := by
    rintro (h | h | h | h)
    · exact absurd h (by decide)
    · exact absurd h (by decide)
    · obtain ⟨env, henv, hstream⟩ := (logs_iff hreach 7).mp h
      rw [hdone] at henv
      simp only [List.mem_cons, List.not_mem_nil, or_false] at henv
      rcases henv with rfl | rfl <;> exact absurd hstream (by decide)
    · have hrow : (after [create, delete]).rows 7 = some true := by decide +kernel
      exact absurd (hrow.symm.trans h) (by simp)
  have hheld : ∀ env ∈ [create, delete],
      (after [create, delete]).vault.log.readAt env.ref = some env := fun env henv =>
    readAt_of_done hreach (hdone ▸ henv)
  refine ⟨fun h => hnot (h relay _ hreach 7 ?_), fun h => ?_⟩
  · exact ⟨_, List.mem_cons_self, rfl, rfl⟩
  · have hreconnected : relay.Reachable .short serde decode .sample
        (connected { after [create, delete] with session := none }) :=
      .step (.step hreach (.disconnect _)) (.connect _)
    have hmissing := h relay _ hreconnected (fun env henv hasked => ?_) file (by simp [relay])
    · have hread : (after [create, delete]).vault.log.readAt file.ref = none := by decide +kernel
      exact absurd (hread.symm.trans hmissing) (by simp)
    · simp only [relay, List.mem_cons, List.not_mem_nil, or_false] at henv
      rcases henv with rfl | rfl | rfl
      · exact hheld create (by simp)
      · exact hheld delete (by simp)
      · exact absurd hasked hnot

end Sunrise
