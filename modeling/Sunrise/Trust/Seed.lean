import Mathlib.Data.List.Chain
import Sunrise.Trust.ChainRecord
import Sunrise.Trust.Membership

/-!
# Seeding the chain

A vault restored from a recovery code cannot read anything before it knows the identities that
lead to the head, and the ops that say so may be gone. It takes them from the chain record: every
link is stored as a transition with no roster, and the op itself fills that in when it comes.

Whether a row still waits for its op is read off its roster. An op without one is then never told
from a link, and where it has device shares the row never gets them.

## Main results

* `seeds_agree` — **a run with seeds ends as the ops alone do, and a bad record changes nothing.**
* `not_seeds_agree` — an op without a roster whose shares are lost.
-/

namespace Sunrise

open Account

/-! ### Publishing a record -/

/-- A number below a bound. -/
def within (bound n : ℕ) : Option ℕ := if n < bound then some n else none

namespace Transitions

def chainLink (t : Transitions) (source target : Link) : Option ChainLink := do
  let row ← t.find target.1
  let toIdDPub ← within (256 ^ 32) row.body.toIdDPub
  let rosterDigest ← within (256 ^ 32) row.body.rosterDigest
  let sharesDigest ← within (256 ^ 32) row.body.sharesDigest
  let prevSig ← within (256 ^ 64) row.sigs.prevSig
  let nextSig ← within (256 ^ 64) row.sigs.nextSig
  let metaEpoch ← within (2 ^ 32) row.rank.metaEpoch
  let hlcPhysicalMs ← within (2 ^ 64) row.rank.hlcPhysicalMs
  let hlcLogical ← within (2 ^ 32) row.rank.hlcLogical
  let emitter ← within (256 ^ 16) row.rank.emitter
  return ⟨⟨source.1, target.1, target.2, toIdDPub, rosterDigest, sharesDigest⟩,
    ⟨prevSig, nextSig⟩, metaEpoch, hlcPhysicalMs, hlcLogical, emitter, row.payload.identityShare⟩

/-- The links between neighbours of a chain, genesis first. -/
def chainLinks (t : Transitions) : List Link → Option (List ChainLink)
  | source :: target :: rest => do
    let link ← t.chainLink source target
    let links ← t.chainLinks (target :: rest)
    return link :: links
  | _ => some []

end Transitions

namespace Account

/-- The record a replica publishes: none, unless the chain has a link, its device signs under the
head, and it is neither revoked nor read-bounded here. -/
def identityChainPlan (r : LocalDevice) (cbor : Cbor.Codec) (st : Account)
    (revoked readBounded : Bool) : Except String (Option Bytes) :=
  let chain := (st.chain r).reverse
  if chain.length < 2 ∨ (st.head r).1 ≠ st.identity ∨ revoked ∨ readBounded then .ok none
  else
    match st.transitions.chainLinks chain with
    | none => .ok none
    | some links =>
      match (⟨(chain.headD r.genesis).2, links⟩ : IdentityChain).encode cbor with
      | .ok raw => .ok (some raw)
      | .error e => .error e.message

end Account

/-! ### Storing one -/

def ChainLink.rank (link : ChainLink) : SiblingRank :=
  ⟨link.metaEpoch, i64Of link.hlcPhysicalMs, link.hlcLogical, link.emitterDeviceId,
    link.body.toIdentityId⟩

def ChainLink.row (link : ChainLink) : TransitionRow where
  body := link.body
  sigs := link.sigs
  rank := link.rank
  payload := ⟨link.body.fromIdentityId, link.body.toIdentityId, link.body.toIdSPub,
    link.body.toIdDPub, [], [], link.carryShare, link.sigs⟩

/-- Store a link. The number stored so far comes with the table. -/
def Transitions.seedLink (acc : Transitions × ℕ) (link : ChainLink) : Transitions × ℕ :=
  match acc.1.admitSibling link.body.fromIdentityId link.rank with
  | none => acc
  | some t => (t.insertOrIgnore link.body.toIdentityId link.row,
      if (t.find link.body.toIdentityId).isSome then acc.2 else acc.2 + 1)

open Transitions

/-- What seeding did. -/
structure ChainSeeded where
  stored : ℕ
  /-- The device now signs under the identity the chain ends at. -/
  atHead : Bool
deriving DecidableEq, Repr

namespace Account

variable (r : LocalDevice) (cbor : Cbor.Codec)

/-- Store the links of a record and walk this device to the identity it ends at. -/
def seedIdentityChain (st : Account) (bytes : Bytes) : Account × Except String ChainSeeded :=
  let invalid (e : IdentityChainError) : Account × Except String ChainSeeded :=
    (st, .error ("identity chain: " ++ e.message))
  match IdentityChain.decode cbor r.crypto bytes with
  | .error e => invalid e
  | .ok record =>
    match record.verify r.crypto r.genesis.1 with
    | .error e => invalid e
    | .ok () =>
      let seeded := record.links.foldl seedLink (st.transitions, 0)
      let st := recomputeIdentityHead r { st with transitions := seeded.1 }
      (st, .ok ⟨seeded.2, decide (st.identity = (record.head r.crypto).1)⟩)

end Account

/-- What happens to a replica. -/
inductive ChainStep where
  | deliver (op : TransitionOp)
  | seed (raw : Bytes)

namespace Account

variable (r : LocalDevice) (cbor : Cbor.Codec)

def chainStep (st : Account) : ChainStep → Account
  | .deliver op => st.applyTransition r op
  | .seed raw => (st.seedIdentityChain r cbor raw).1

/-- A replica that starts under the genesis, after a run. -/
def chainRun (devices : Devices) (steps : List ChainStep) : Account :=
  steps.foldl (chainStep r cbor) (initial r devices)

end Account

open Transitions (rowsOf)

/-! ### Rows, and what a record has of them -/

/-- A row without what a record does not carry. -/
def TransitionRow.stub (row : TransitionRow) : TransitionRow :=
  { row with payload := { row.payload with roster := [], deviceShares := [] } }

open TransitionRow

/-- A row as an op is stored: its columns are the op's. -/
structure TransitionRow.Filed (row : TransitionRow) : Prop where
  fromIdentityId : row.payload.fromIdentityId = row.body.fromIdentityId
  toIdentityId : row.payload.toIdentityId = row.body.toIdentityId
  toIdSPub : row.payload.toIdSPub = row.body.toIdSPub
  toIdDPub : row.payload.toIdDPub = row.body.toIdDPub
  sigs : row.payload.sigs = row.sigs
  rank : row.rank.toIdentityId = row.body.toIdentityId
  clock : i64Of row.rank.hlcPhysicalMs = row.rank.hlcPhysicalMs
  carryShare : ∀ share, row.payload.identityShare = some share → share.length = identityShareLen

variable {cr : IdentityCrypto} {W D : Set TransitionRow} {genesis l : Link} {t t' : Transitions}
  {row held : TransitionRow} {ops : List TransitionOp}

theorem carryShare_of_sharesDigest {shares : List (Device × Bytes)} {carry : Option Bytes}
    {digest : Hash} (h : sharesDigest cr shares carry = some digest) :
    ∀ share, carry = some share → share.length = identityShareLen := by
  intro share hshare
  subst hshare
  unfold sharesDigest at h
  split at h
  · obtain ⟨_, -, h⟩ := Option.bind_eq_some_iff.mp h
    split at h
    next hlen => simpa using hlen
    next => cases h
  · cases h

theorem filed_of_row {op : TransitionOp} (h : op.row cr = some row) :
    row.Filed ∧ row.payload = op.payload := by
  obtain ⟨body, hb, rfl⟩ := Option.map_eq_some_iff.mp h
  unfold bodyOf at hb
  split at hb
  · cases hb
  · simp only [Option.bind_eq_bind, Option.bind_eq_some_iff] at hb
    obtain ⟨_, -, _, hshares, hb⟩ := hb
    split at hb
    next =>
      obtain rfl := Option.some.inj hb
      refine ⟨⟨rfl, rfl, rfl, rfl, rfl, rfl, ?_, carryShare_of_sharesDigest hshares⟩, rfl⟩
      exact i64Of_eq_self.mpr (i64Of_le _)
    next => cases hb

def IsRowOf (row held : TransitionRow) : Prop := held = row ∨ held = row.stub

theorem IsRowOf.columns (h : IsRowOf row held) :
    held.body = row.body ∧ held.sigs = row.sigs ∧ held.rank = row.rank ∧
      held.payload.identityShare = row.payload.identityShare := by
  rcases h with rfl | rfl
  · exact ⟨rfl, rfl, rfl, rfl⟩
  · exact ⟨rfl, rfl, rfl, rfl⟩

/-! ### The ops -/

/-- Ops that verify: one for each successor, at most sixteen of each predecessor, each signed by
its predecessor's key where that is known, with the widths of the wire. -/
structure VerifyingOps (cr : IdentityCrypto) (genesis : Link) (ops : List TransitionOp) :
    Prop where
  distinct : Transitions.DistinctOps ops
  few : ∀ source, (ops.filter fun op =>
    decide (op.payload.fromIdentityId = source)).length ≤ maxSiblings
  signed : ∀ row ∈ rowsOf cr ops, ∀ l, Known (rowsOf cr ops) genesis l →
    row.body.fromIdentityId = l.1 → verifyIdentityTransition cr row.body l.2 row.sigs
  fits : ∀ op ∈ ops, op.payload.toIdentityId < 256 ^ 16 ∧ op.payload.toIdSPub < 256 ^ 32 ∧
    ∀ share, op.payload.identityShare = some share → ∀ b ∈ share, b < 256

namespace Transitions

/-- Every row of the table is an op's own or its stub, and the ops delivered have their own. -/
structure Agrees (W D : Set TransitionRow) (t : Transitions) : Prop where
  subset : D ⊆ W
  rows : ∀ k held, t.find k = some held → ∃ row ∈ W, row.body.toIdentityId = k ∧ IsRowOf row held
  delivered : ∀ row ∈ D, t.find row.body.toIdentityId = some row

theorem agrees_empty : Agrees W ∅ ∅ where
  subset := Set.empty_subset W
  rows k held h := by simp at h
  delivered row h := h.elim

theorem Agrees.keyed (h : t.Agrees W D) : t.Keyed := by
  intro k held hf
  obtain ⟨row, -, hk, hrow⟩ := h.rows k held hf
  rwa [hrow.columns.1]

theorem Agrees.unique (h : t.Agrees W W) (h' : t'.Agrees W W) : t = t' := by
  have hfind : ∀ {t : Transitions}, t.Agrees W W → ∀ k held,
      t.find k = some held ↔ held ∈ W ∧ held.body.toIdentityId = k := by
    intro t h k held
    constructor
    · intro hf
      obtain ⟨row, hrow, rfl, -⟩ := h.rows k held hf
      obtain rfl := Option.some.inj ((h.delivered row hrow).symm.trans hf)
      exact ⟨hrow, rfl⟩
    · rintro ⟨hheld, rfl⟩
      exact h.delivered held hheld
  exact Table.ext_some fun k held => (hfind h k held).trans (hfind h' k held).symm

/-! ### The chain of a table that agrees -/

/-- The row a walk went by from one link to the next. -/
def Follows (cr : IdentityCrypto) (t : Transitions) (source target : Link) : Prop :=
  ∃ held, t.find target.1 = some held ∧ held.link = target ∧
    held.body.fromIdentityId = source.1 ∧ verifyIdentityTransition cr held.body source.2 held.sigs

theorem Keyed.follows_nextRow (h : t.Keyed) {seen : List IdentityId}
    (hrow : t.nextRow cr seen l = some held) :
    Follows cr t l held.link ∧ held.body.toIdentityId ∉ seen := by
  unfold nextRow at hrow
  have hpred := List.find?_some hrow
  obtain ⟨hnew, hv⟩ := Bool.and_eq_true_iff.mp hpred
  have hmem := List.mem_of_mem_take (List.mem_of_find?_eq_some hrow)
  obtain ⟨hf, hsource⟩ := h.mem_siblings.mp hmem
  exact ⟨⟨held, hf, rfl, hsource, hv⟩, of_decide_eq_true hnew⟩

theorem Keyed.walk_induction (h : t.Keyed) {P : List Link → Prop}
    (hnext : ∀ l chain (held : TransitionRow), P (l :: chain) → Follows cr t l held.link →
      held.body.toIdentityId ∉ (l :: chain).map (·.1) → P (held.link :: l :: chain))
    (fuel : ℕ) {chain : List Link} (hc : P chain) : P (t.walk cr fuel chain) := by
  induction fuel generalizing chain with
  | zero =>
    rw [show t.walk cr 0 chain = chain by unfold walk; rfl]
    exact hc
  | succ fuel ih =>
    cases chain with
    | nil =>
      rw [show t.walk cr (fuel + 1) [] = [] by unfold walk; rfl]
      exact hc
    | cons l chain =>
      cases hrow : t.nextRow cr ((l :: chain).map (·.1)) l with
      | none =>
        rw [walk_of_no_nextRow hrow]
        exact hc
      | some held =>
        obtain ⟨hf, hnew⟩ := h.follows_nextRow hrow
        rw [walk_of_nextRow hrow]
        exact ih (hnext l chain held hc hf hnew)

theorem Agrees.known (h : t.Agrees W D) (cr : IdentityCrypto) (genesis : Link) :
    ∀ l ∈ t.chainIdentities cr genesis, Known W genesis l := by
  suffices hall : genesis ∈ t.chainIdentities cr genesis ∧
      ∀ l ∈ t.chainIdentities cr genesis, Known W genesis l from hall.2
  unfold chainIdentities
  refine h.keyed.walk_induction (P := fun chain => genesis ∈ chain ∧
    ∀ l ∈ chain, Known W genesis l) ?_ _ ⟨List.mem_singleton_self _, ?_⟩
  · rintro l chain held ⟨hg, hall⟩ ⟨held', hf, hlink, -, -⟩ hnew
    refine ⟨List.mem_cons_of_mem _ hg, List.forall_mem_cons.mpr ⟨.inr ⟨?_, ?_⟩, hall⟩⟩
    · intro heq
      have hseen : genesis.1 ∈ (l :: chain).map (·.1) := List.mem_map_of_mem hg
      rw [← heq] at hseen
      exact hnew hseen
    · obtain ⟨row, hrow, -, hof⟩ := h.rows _ _ hf
      refine ⟨row, hrow, hlink ▸ ?_⟩
      unfold link
      rw [hof.columns.1]
  · intro l hl
    exact .inl (List.mem_singleton.mp hl)

theorem Agrees.follows (h : t.Agrees W D) (cr : IdentityCrypto) (genesis : Link) :
    ∃ rest, (t.chainIdentities cr genesis).reverse = genesis :: rest ∧
      List.IsChain (Follows cr t) (genesis :: rest) := by
  suffices hall : (t.chainIdentities cr genesis).getLast? = some genesis ∧
      (t.chainIdentities cr genesis).IsChain fun a b => Follows cr t b a by
    obtain ⟨hlast, hchain⟩ := hall
    rw [← List.head?_reverse] at hlast
    obtain ⟨rest, hrest⟩ := List.head?_eq_some_iff.mp hlast
    exact ⟨rest, hrest, hrest ▸ List.isChain_reverse.mpr hchain⟩
  unfold chainIdentities
  refine h.keyed.walk_induction (P := fun chain => chain.getLast? = some genesis ∧
    chain.IsChain fun a b => Follows cr t b a) ?_ _ ⟨rfl, List.isChain_singleton _⟩
  rintro l chain held ⟨hlast, hchain⟩ hf -
  refine ⟨?_, List.isChain_cons_cons.mpr ⟨hf, hchain⟩⟩
  rwa [List.getLast?_cons_cons]

/-! ### Nothing is dropped -/

theorem Agrees.purge (h : t.Agrees W D)
    (hsigned : ∀ row ∈ W, row.body.fromIdentityId = l.1 →
      verifyIdentityTransition cr row.body l.2 row.sigs) :
    t.purgeUnverifiableSiblings cr l = t := by
  refine Table.ext_some fun k held => Table.find_filter_eq_some.trans (and_iff_left_of_imp ?_)
  intro hf
  obtain ⟨row, hrow, -, hof⟩ := h.rows k held hf
  obtain ⟨hbody, hsigs, -, -⟩ := hof.columns
  rw [hbody, hsigs]
  by_cases hsource : row.body.fromIdentityId = l.1
  · rw [hsigned row hrow hsource, Bool.or_true]
  · simp [hsource]

end Transitions

theorem VerifyingOps.signed_known (hv : VerifyingOps cr genesis ops)
    (hl : Known (rowsOf cr ops) genesis l) : ∀ row ∈ rowsOf cr ops,
      row.body.fromIdentityId = l.1 → verifyIdentityTransition cr row.body l.2 row.sigs :=
  fun row hrow => hv.signed row hrow l hl

namespace Transitions

theorem Agrees.purge_all (h : t.Agrees (rowsOf cr ops) D) (hv : VerifyingOps cr genesis ops)
    {links : List Link} (hl : ∀ l ∈ links, Known (rowsOf cr ops) genesis l) :
    links.foldl (purgeUnverifiableSiblings cr) t = t := by
  induction links with
  | nil => rfl
  | cons l links ih =>
    rw [List.forall_mem_cons] at hl
    rw [List.foldl_cons, h.purge (hv.signed_known hl.1)]
    exact ih hl.2

theorem Agrees.admitSibling (h : t.Agrees (rowsOf cr ops) D) (hv : VerifyingOps cr genesis ops)
    (hrow : row ∈ rowsOf cr ops) :
    t.admitSibling row.body.fromIdentityId row.rank = some t := by
  rw [Transitions.admitSibling, if_pos]
  obtain ⟨op, hop, hopr⟩ := hrow
  have hfiled := (filed_of_row hopr).1
  have hids : ∀ {row : TransitionRow} {op : TransitionOp}, op ∈ ops → op.row cr = some row →
      ∀ source, row.body.fromIdentityId = source → row.body.toIdentityId ∈
        (ops.filter fun op => decide (op.payload.fromIdentityId = source)).map
          (·.payload.toIdentityId) := by
    intro row op hop hopr source hsource
    obtain ⟨hfiled, hpay⟩ := filed_of_row hopr
    refine List.mem_map.mpr ⟨op, List.mem_filter.mpr ⟨hop, ?_⟩, ?_⟩
    · rw [← hpay, hfiled.fromIdentityId, hsource, decide_eq_true rfl]
    · rw [← hpay, hfiled.toIdentityId]
  -- the others' successors and the row's own are all of ops that leave the predecessor
  have hnodup : (row.body.toIdentityId :: (t.others row.body.fromIdentityId row.rank).map
      (·.body.toIdentityId)).Nodup := by
    refine List.nodup_cons.mpr ⟨?_, ?_⟩
    · intro hmem
      obtain ⟨other, hother, heq⟩ := List.mem_map.mp hmem
      have hne := of_decide_eq_true (List.mem_filter.mp hother).2
      exact hne (heq.trans hfiled.rank.symm)
    · exact (h.keyed.siblings_nodup _).sublist (List.filter_sublist.map _)
  have hsub : row.body.toIdentityId :: (t.others row.body.fromIdentityId row.rank).map
      (·.body.toIdentityId) ⊆ (ops.filter fun op => decide
        (op.payload.fromIdentityId = row.body.fromIdentityId)).map (·.payload.toIdentityId) := by
    refine List.cons_subset.mpr ⟨hids hop hopr _ rfl, ?_⟩
    intro k hk
    obtain ⟨other, hother, rfl⟩ := List.mem_map.mp hk
    obtain ⟨hf, hsource⟩ := h.keyed.mem_siblings.mp (List.mem_filter.mp hother).1
    obtain ⟨row', ⟨op', hop', hopr'⟩, -, hof⟩ := h.rows _ _ hf
    rw [hof.columns.1] at hsource ⊢
    exact hids hop' hopr' _ hsource
  have hlen := (hnodup.subperm hsub).length_le
  have hfew := hv.few row.body.fromIdentityId
  rw [List.length_cons, List.length_map, List.length_map] at hlen
  omega

/-! ### One op -/

section

variable (h : t.Agrees (rowsOf cr ops) D) (hv : VerifyingOps cr genesis ops)
  (hrow : row ∈ rowsOf cr ops) (hroster : row.payload.roster = [] → row.payload.deviceShares = [])
include h hv hrow hroster

theorem Agrees.put :
    Agrees (rowsOf cr ops) (insert row D)
      (complete (t.insertOrIgnore row.body.toIdentityId row) row) := by
  have hd : DistinctSuccessors (rowsOf cr ops) := distinctSuccessors_rowsOf hv.distinct
  have hself : ∀ {k held}, t.find k = some held → k = row.body.toIdentityId → IsRowOf row held := by
    rintro k held hf rfl
    obtain ⟨row', hrow', hk, hof⟩ := h.rows _ _ hf
    rwa [hd row' hrow' row hrow hk] at hof
  -- whatever was there, the row is now the op's own and the others are as before
  have hfind : ∀ k, Table.find (complete (t.insertOrIgnore row.body.toIdentityId row) row) k =
      if k = row.body.toIdentityId then some row else t.find k := by
    intro k
    cases hold : t.find row.body.toIdentityId with
    | none =>
      have hins : t.insertOrIgnore row.body.toIdentityId row =
          t.upsert row.body.toIdentityId row := by
        unfold Table.insertOrIgnore
        rw [hold]
      rw [hins, complete_of_find (Table.find_upsert_self _ _ _), Table.find_upsert]
    | some held =>
      have hins : t.insertOrIgnore row.body.toIdentityId row = t := by
        unfold Table.insertOrIgnore
        rw [hold]
      rw [hins]
      rcases hself hold rfl with rfl | rfl
      · rw [complete_of_find hold]
        split
        next hk => rw [hk, hold]
        next => rfl
      · by_cases hempty : row.payload.roster = []
        · -- a stub of an op with nothing to leave out is the row itself
          have hstub : row.stub = row := by
            unfold stub
            rw [← hempty]
            conv_lhs => rw [← hroster hempty]
          rw [hstub] at hold
          rw [complete_of_find hold]
          split
          next hk => rw [hk, hold]
          next => rfl
        · unfold complete
          rw [hold]
          dsimp only
          rw [if_pos ⟨hempty, rfl, rfl, rfl, rfl⟩, Table.find_upsert]
          rfl
  refine ⟨Set.insert_subset hrow h.subset, fun k held hf => ?_, fun r hr => ?_⟩
  · rw [hfind] at hf
    split at hf
    next hk => exact ⟨row, hrow, hk.symm, .inl (Option.some.inj hf).symm⟩
    next => exact h.rows k held hf
  · rw [hfind]
    split
    next hk =>
      rcases hr with rfl | hr
      · rfl
      · rw [hd r (h.subset hr) row hrow hk]
    next hk =>
      rcases hr with rfl | hr
      · exact absurd rfl hk
      · exact h.delivered r hr

/-- **An op's delivery keeps the agreement, and the op has its own row from then on.** -/
theorem Agrees.record :
    Agrees (rowsOf cr ops) (insert row D) (t.record cr genesis row).1 := by
  have hestablish : ∀ known, Agrees (rowsOf cr ops) (insert row D)
      (t.establish cr genesis known row) := by
    intro known
    have hput := h.put hv hrow hroster
    unfold Transitions.establish
    dsimp only
    rw [hput.purge_all hv]
    · exact hput
    · intro l hl
      exact hput.known cr genesis l (List.mem_reverse.mp (List.mem_filter.mp hl).1)
  unfold Transitions.record
  dsimp only
  split
  next l hfind =>
    have hl := h.known cr genesis l (List.mem_of_find?_eq_some hfind)
    have hid : l.1 = row.body.fromIdentityId := by simpa using List.find?_some hfind
    rw [if_pos (hv.signed row hrow l hl hid.symm), h.purge (hv.signed_known hl),
      h.admitSibling hv hrow]
    exact hestablish _
  next =>
    rw [h.admitSibling hv hrow]
    exact hestablish _

end

/-! ### One record -/

variable {link : ChainLink} {links : List ChainLink}

/-- A link that stands for one of the ops. -/
def LinkOf (W : Set TransitionRow) (link : ChainLink) : Prop := ∃ row ∈ W, link.row = row.stub

theorem Agrees.seedLink (h : t.Agrees (rowsOf cr ops) D) (hv : VerifyingOps cr genesis ops)
    (hlink : LinkOf (rowsOf cr ops) link) (n : ℕ) :
    Agrees (rowsOf cr ops) D (seedLink (t, n) link).1 := by
  obtain ⟨row, hrow, hstub⟩ := hlink
  have hbody : link.body = row.body := congrArg TransitionRow.body hstub
  have hrank : link.rank = row.rank := congrArg TransitionRow.rank hstub
  unfold Transitions.seedLink
  rw [hbody, hrank, h.admitSibling hv hrow, hstub]
  dsimp only
  refine ⟨h.subset, fun k held hf => ?_, fun r hr => ?_⟩
  · rw [Table.find_insertOrIgnore] at hf
    split at hf
    next hk =>
      cases hold : t.find row.body.toIdentityId with
      | none =>
        rw [hold, Option.getD_none, Option.some.injEq] at hf
        exact ⟨row, hrow, hk.symm, .inr hf.symm⟩
      | some held' =>
        rw [hold, Option.getD_some, Option.some.injEq] at hf
        exact h.rows k held (by rw [hk, hold, hf])
    next => exact h.rows k held hf
  · have hf := h.delivered r hr
    rw [Table.find_insertOrIgnore]
    split
    next hk => rw [← hk, hf, Option.getD_some]
    next => exact hf

/-- **A record of links of the ops keeps the agreement.** -/
theorem Agrees.seedLinks (h : t.Agrees (rowsOf cr ops) D) (hv : VerifyingOps cr genesis ops)
    (hlinks : ∀ link ∈ links, LinkOf (rowsOf cr ops) link) (n : ℕ) :
    Agrees (rowsOf cr ops) D (links.foldl Transitions.seedLink (t, n)).1 := by
  induction links generalizing t n with
  | nil => exact h
  | cons link links ih =>
    rw [List.forall_mem_cons] at hlinks
    rw [List.foldl_cons]
    exact ih (h.seedLink hv hlinks.1 n) hlinks.2 _

/-! ### What is published -/

theorem within_eq_some {bound n m : ℕ} : within bound n = some m ↔ n < bound ∧ n = m := by
  unfold within
  split
  next h => simp [h]
  next h => simp [h]

theorem Agrees.chainLink_spec (h : t.Agrees (rowsOf cr ops) D) (hv : VerifyingOps cr genesis ops)
    {source target : Link} (hf : Follows cr t source target)
    (hlink : t.chainLink source target = some link) :
    LinkOf (rowsOf cr ops) link ∧ link.Fits ∧ link.body.fromIdentityId = source.1 ∧
      (link.body.toIdentityId, link.body.toIdSPub) = target ∧
      verifyIdentityTransition cr link.body source.2 link.sigs := by
  obtain ⟨held, hfind, rfl, hsource, hver⟩ := hf
  unfold chainLink at hlink
  rw [hfind] at hlink
  simp only [Option.bind_eq_bind, Option.bind_some, Option.bind_eq_some_iff, within_eq_some]
    at hlink
  obtain ⟨_, ⟨hdh, rfl⟩, _, ⟨hroster, rfl⟩, _, ⟨hshares, rfl⟩, _, ⟨hprev, rfl⟩, _, ⟨hnext, rfl⟩,
    _, ⟨hepoch, rfl⟩, _, ⟨hms, rfl⟩, _, ⟨hlogical, rfl⟩, _, ⟨hemitter, rfl⟩, hlink⟩ := hlink
  obtain rfl := Option.some.inj hlink
  obtain ⟨row, ⟨op, hop, hopr⟩, -, hof⟩ := h.rows _ _ hfind
  obtain ⟨hbody, hsigs, hrank, hcarry⟩ := hof.columns
  obtain ⟨hfiled, hpay⟩ := filed_of_row hopr
  obtain ⟨hto, htoS, hbytes⟩ := hv.fits op hop
  rw [← hpay] at hto htoS hbytes
  rw [hfiled.toIdentityId] at hto
  rw [hfiled.toIdSPub] at htoS
  have hsame : (⟨source.1, held.link.1, held.link.2, held.body.toIdDPub, held.body.rosterDigest,
      held.body.sharesDigest⟩ : IdentityTransitionBody) = row.body := by
    rw [← hsource, ← hbody]
    rfl
  have htarget : held.link = (row.body.toIdentityId, row.body.toIdSPub) := by
    unfold link
    rw [hbody]
  refine ⟨⟨row, ⟨op, hop, hopr⟩, ?_⟩, ?_, rfl, rfl, ?_⟩
  · unfold ChainLink.row ChainLink.rank stub
    dsimp only
    rw [TransitionRow.mk.injEq, IdentityTransitionPayload.mk.injEq]
    refine ⟨hsame, hsigs, ?_, ?_, ?_, ?_, ?_, rfl, rfl, hcarry, ?_⟩
    · rw [hrank, hfiled.clock, htarget, ← hfiled.rank]
    · rw [← hsource, hbody, hfiled.fromIdentityId]
    · rw [htarget, hfiled.toIdentityId]
    · rw [htarget, hfiled.toIdSPub]
    · rw [hbody, hfiled.toIdDPub]
    · rw [hsigs, hfiled.sigs]
  · rw [htarget]
    refine ⟨hto, htoS, hdh, hroster, hshares, hprev, hnext, hepoch, hms, hlogical, hemitter, ?_⟩
    intro share hshare
    have hshare : row.payload.identityShare = some share := hcarry ▸ hshare
    exact ⟨hfiled.carryShare share hshare, hbytes share hshare⟩
  · dsimp only
    rw [hsame, ← hbody]
    exact hver

theorem Agrees.chainLinks_spec (h : t.Agrees (rowsOf cr ops) D) (hv : VerifyingOps cr genesis ops)
    {source : Link} {rest : List Link} (hf : List.IsChain (Follows cr t) (source :: rest))
    (hlinks : t.chainLinks (source :: rest) = some links) :
    links.length = rest.length ∧ fillFrom source.1 links = links ∧
      IdentityChain.Linked cr source.2 links ∧
      ∀ link ∈ links, LinkOf (rowsOf cr ops) link ∧ link.Fits := by
  induction rest generalizing source links with
  | nil =>
    obtain rfl := Option.some.inj hlinks
    exact ⟨rfl, rfl, trivial, by simp⟩
  | cons target rest ih =>
    obtain ⟨hstep, htail⟩ := List.isChain_cons_cons.mp hf
    simp only [chainLinks, Option.bind_eq_bind, Option.bind_eq_some_iff] at hlinks
    obtain ⟨link, hlink, links', hlinks', heq⟩ := hlinks
    obtain rfl := Option.some.inj heq
    obtain ⟨hof, hfits, hsource, htarget, hver⟩ := h.chainLink_spec hv hstep hlink
    obtain ⟨hlen, hfill, hlinked, hall⟩ := ih htail hlinks'
    rw [← htarget] at hfill hlinked
    refine ⟨?_, ?_, ⟨hver, hlinked⟩, List.forall_mem_cons.mpr ⟨⟨hof, hfits⟩, hall⟩⟩
    · rw [List.length_cons, List.length_cons, hlen]
    · rw [fillFrom, hfill, ← hsource]

end Transitions

/-! ### Runs -/

namespace Account

variable {r : LocalDevice} {cbor : Cbor.Codec} {st : Account}

theorem transitions_adoptLink (st : Account) (target : IdentityId) :
    (st.adoptLink r target).1.transitions = st.transitions := by
  unfold adoptLink
  split
  · rfl
  · dsimp only
    split
    · rfl
    · split
      · split
        · rfl
        · rfl
      · split
        · rfl
        · split
          · rfl
          · rfl

theorem transitions_adoptLinks (st : Account) (links : List Link) :
    (st.adoptLinks r links).transitions = st.transitions := by
  induction links generalizing st with
  | nil => rfl
  | cons l links ih =>
    have hone := transitions_adoptLink (r := r) st l.1
    unfold adoptLinks
    generalize st.adoptLink r l.1 = res at hone
    obtain ⟨st', ok⟩ := res
    cases ok with
    | true => exact (ih st').trans hone
    | false => exact hone

theorem transitions_recompute (st : Account) :
    (st.recomputeIdentityHead r).transitions = st.transitions := by
  unfold recomputeIdentityHead
  dsimp only
  split
  · rfl
  · split
    · exact (transitions_adoptLink _ _).trans (transitions_adoptLinks _ _)
    · exact transitions_adoptLinks _ _

theorem transitions_applyTransition (st : Account) (op : TransitionOp) :
    (st.applyTransition r op).transitions = st.transitions.apply r.crypto r.genesis op := by
  unfold applyTransition apply
  cases op.row r.crypto with
  | none => rfl
  | some row =>
    dsimp only
    generalize st.transitions.record r.crypto r.genesis row = res
    obtain ⟨t, ok⟩ := res
    cases ok with
    | false => rfl
    | true =>
      dsimp only
      split
      · exact transitions_recompute _
      · exact transitions_recompute _

end Account

/-- A record that can be seeded, of links that stand for ops. -/
def Seeds (r : LocalDevice) (cbor : Cbor.Codec) (W : Set TransitionRow) (raw : Bytes) : Prop :=
  ∃ record, IdentityChain.decode cbor r.crypto raw = .ok record ∧
    record.verify r.crypto r.genesis.1 = .ok () ∧
    ∀ link ∈ record.links, Transitions.LinkOf W link

/-- The ops of a run. -/
def deliveredOf (steps : List ChainStep) : List TransitionOp :=
  steps.filterMap fun
    | .deliver op => some op
    | .seed _ => none

namespace Account

variable {r : LocalDevice} {cbor : Cbor.Codec} {st : Account}

theorem seeds_of_plan (hc : cbor.Lawful) (hw : cbor.write = Cbor.write)
    (hgenesis : r.genesis.2 < 256 ^ 32) (hv : VerifyingOps r.crypto r.genesis ops)
    (h : st.transitions.Agrees (rowsOf r.crypto ops) D) {revoked readBounded : Bool} {raw : Bytes}
    (hplan : st.identityChainPlan r cbor revoked readBounded = .ok (some raw)) :
    Seeds r cbor (rowsOf r.crypto ops) raw := by
  obtain ⟨rest, hchain, hfollows⟩ := h.follows r.crypto r.genesis
  unfold identityChainPlan at hplan
  rw [show st.chain r = st.transitions.chainIdentities r.crypto r.genesis from rfl, hchain] at hplan
  dsimp only at hplan
  split at hplan
  next => cases hplan
  next hlong =>
    split at hplan
    next => cases hplan
    next links hlinks =>
      obtain ⟨hlen, hfill, hlinked, hall⟩ := h.chainLinks_spec hv hfollows hlinks
      -- a first link verifies only under the key its predecessor's id is of
      have hid : r.crypto.identityIdFromPub r.genesis.2 = r.genesis.1 := by
        cases links with
        | nil =>
          simp only [List.length_cons, List.length_nil] at hlong hlen
          omega
        | cons link links =>
          have hfrom : r.genesis.1 = link.body.fromIdentityId :=
            congrArg (·.body.fromIdentityId) (List.cons.inj hfill).1
          have hver := hlinked.1
          unfold verifyIdentityTransition checkIdentityBinding at hver
          simp only [Bool.and_eq_true, decide_eq_true_eq] at hver
          rw [hver.1.1.1, hfrom]
      split at hplan
      next raw' henc =>
        obtain rfl := Option.some.inj (Except.ok.inj hplan)
        refine ⟨⟨r.genesis.2, links⟩, ?_, ?_, fun link hlink => (hall link hlink).1⟩
        · refine IdentityChain.decode_encode hc hw ⟨hgenesis, fun link hlink =>
            (hall link hlink).2⟩ ?_ henc
          unfold IdentityChain.genesisIdentityId
          rw [hid]
          exact hfill
        · exact IdentityChain.verify_eq_ok.mpr ⟨hid, hlinked⟩
      next => cases hplan

section

variable (hv : VerifyingOps r.crypto r.genesis ops)
  (h : st.transitions.Agrees (rowsOf r.crypto ops) D)
include hv h

theorem transitions_seed {raw : Bytes}
    (hraw : Seeds r cbor (rowsOf r.crypto ops) raw) :
    (st.seedIdentityChain r cbor raw).1.transitions.Agrees (rowsOf r.crypto ops) D := by
  obtain ⟨record, hdecode, hverify, hlinks⟩ := hraw
  unfold seedIdentityChain
  simp only [hdecode, hverify]
  rw [transitions_recompute]
  exact h.seedLinks hv hlinks 0

theorem transitions_deliver {op : TransitionOp} (hop : op ∈ ops)
    (hroster : op.payload.roster = [] → op.payload.deviceShares = []) :
    (st.applyTransition r op).transitions.Agrees (rowsOf r.crypto ops)
      (D ∪ rowsOf r.crypto [op]) := by
  rw [transitions_applyTransition]
  unfold apply
  cases hrow : op.row r.crypto with
  | none =>
    have hnone : rowsOf r.crypto [op] = ∅ := by simp [rowsOf, hrow]
    rw [hnone, Set.union_empty]
    exact h
  | some row =>
    have hone : D ∪ rowsOf r.crypto [op] = insert row D := by
      ext x
      simp [rowsOf, hrow, eq_comm, or_comm]
    rw [hone]
    exact h.record hv ⟨op, hop, hrow⟩ ((filed_of_row hrow).2 ▸ hroster)

end

/-- **A run keeps the agreement**, seeds and redeliveries included. -/
theorem agrees_foldl (hv : VerifyingOps r.crypto r.genesis ops)
    (hroster : ∀ op ∈ ops, op.payload.roster = [] → op.payload.deviceShares = [])
    {steps : List ChainStep} (hdeliver : ∀ op, .deliver op ∈ steps → op ∈ ops)
    (hseed : ∀ raw, .seed raw ∈ steps → Seeds r cbor (rowsOf r.crypto ops) raw)
    (h : st.transitions.Agrees (rowsOf r.crypto ops) D) :
    (steps.foldl (chainStep r cbor) st).transitions.Agrees (rowsOf r.crypto ops)
      (D ∪ rowsOf r.crypto (deliveredOf steps)) := by
  induction steps generalizing st D with
  | nil =>
    have hnil : rowsOf r.crypto (deliveredOf []) = ∅ := by simp [rowsOf, deliveredOf]
    rwa [hnil, Set.union_empty]
  | cons s steps ih =>
    have hdeliver' : ∀ op, .deliver op ∈ steps → op ∈ ops := fun op hop =>
      hdeliver op (List.mem_cons_of_mem _ hop)
    have hseed' : ∀ raw, .seed raw ∈ steps → Seeds r cbor (rowsOf r.crypto ops) raw :=
      fun raw hraw => hseed raw (List.mem_cons_of_mem _ hraw)
    rw [List.foldl_cons]
    cases s with
    | seed raw => exact ih hdeliver' hseed' (transitions_seed hv h (hseed raw List.mem_cons_self))
    | deliver op =>
      have hop := hdeliver op List.mem_cons_self
      have hone := transitions_deliver hv h hop (hroster op hop)
      have hrows : D ∪ rowsOf r.crypto (deliveredOf (.deliver op :: steps)) =
          (D ∪ rowsOf r.crypto [op]) ∪ rowsOf r.crypto (deliveredOf steps) := by
        ext x
        simp [rowsOf, deliveredOf, or_assoc]
      rw [hrows]
      exact ih hdeliver' hseed' hone

theorem mem_deliveredOf {steps : List ChainStep} {op : TransitionOp} :
    op ∈ deliveredOf steps ↔ .deliver op ∈ steps := by
  unfold deliveredOf
  rw [List.mem_filterMap]
  constructor
  · rintro ⟨s, hs, heq⟩
    cases s with
    | deliver op' =>
      obtain rfl := Option.some.inj heq
      exact hs
    | seed raw => cases heq
  · exact fun hs => ⟨_, hs, rfl⟩

theorem agrees_chainRun (hv : VerifyingOps r.crypto r.genesis ops)
    (hroster : ∀ op ∈ ops, op.payload.roster = [] → op.payload.deviceShares = [])
    {delivered : List TransitionOp} (hsub : ∀ op ∈ delivered, op ∈ ops) (devices : Devices)
    {steps : List ChainStep} (hdeliver : ∀ op, .deliver op ∈ steps ↔ op ∈ delivered)
    (hseed : ∀ raw, .seed raw ∈ steps → Seeds r cbor (rowsOf r.crypto ops) raw) :
    (chainRun r cbor devices steps).transitions.Agrees (rowsOf r.crypto ops)
      (rowsOf r.crypto delivered) := by
  have hempty : (initial r devices).transitions.Agrees (rowsOf r.crypto ops) ∅ :=
    agrees_empty
  have hrun := agrees_foldl hv hroster (fun op hop => hsub op ((hdeliver op).mp hop)) hseed hempty
  have hrows : rowsOf r.crypto (deliveredOf steps) = rowsOf r.crypto delivered := by
    ext row
    simp only [rowsOf, mem_deliveredOf, hdeliver]
  rw [Set.empty_union, hrows] at hrun
  exact hrun

end Account

/-- A record that a replica of the account publishes when it has applied some of the ops. -/
def Planned (r : LocalDevice) (cbor : Cbor.Codec) (ops : List TransitionOp) (raw : Bytes) : Prop :=
  ∃ (r' : LocalDevice) (devices : Devices) (before : List TransitionOp)
    (revoked readBounded : Bool), r'.crypto = r.crypto ∧ r'.genesis = r.genesis ∧
      (∀ op ∈ before, op ∈ ops) ∧
      (chainRun r' cbor devices (before.map .deliver)).identityChainPlan r' cbor revoked
        readBounded = .ok (some raw)

theorem Planned.seeds {r : LocalDevice} {cbor : Cbor.Codec} {raw : Bytes} (hc : cbor.Lawful)
    (hw : cbor.write = Cbor.write) (hgenesis : r.genesis.2 < 256 ^ 32)
    (hv : VerifyingOps r.crypto r.genesis ops)
    (hroster : ∀ op ∈ ops, op.payload.roster = [] → op.payload.deviceShares = [])
    (h : Planned r cbor ops raw) : Seeds r cbor (rowsOf r.crypto ops) raw := by
  obtain ⟨r', devices, before, revoked, readBounded, hcrypto, hgen, hbefore, hplan⟩ := h
  rw [← hgen] at hgenesis
  rw [← hcrypto, ← hgen] at hv
  have hrun : (chainRun r' cbor devices (before.map .deliver)).transitions.Agrees
      (rowsOf r'.crypto ops) (rowsOf r'.crypto before) :=
    agrees_chainRun hv hroster hbefore devices (by simp) (by simp)
  have hseeds := seeds_of_plan hc hw hgenesis hv hrun hplan
  unfold Seeds at hseeds ⊢
  rwa [← hcrypto, ← hgen]

/-- **Seeding agrees with the ops.** Where every op without a roster is without device shares, a
replica that takes the ops and records of them in any order, every op at least once, ends with
the rows, the chain and the head of one that takes the ops alone. A record that is malformed, of
another genesis or with a link that does not verify changes nothing. -/
theorem seeds_agree {cbor : Cbor.Codec} (hc : cbor.Lawful) (hw : cbor.write = Cbor.write)
    {r r' : LocalDevice} (hcrypto : r'.crypto = r.crypto) (hgen : r'.genesis = r.genesis)
    (hgenesis : r.genesis.2 < 256 ^ 32) (hv : VerifyingOps r.crypto r.genesis ops)
    (hroster : ∀ op ∈ ops, op.payload.roster = [] → op.payload.deviceShares = [])
    (devices devices' : Devices) {steps : List ChainStep}
    (hdeliver : ∀ op, .deliver op ∈ steps ↔ op ∈ ops)
    (hseed : ∀ raw, .seed raw ∈ steps → Planned r cbor ops raw) {plain : List TransitionOp}
    (hplain : ∀ op, op ∈ plain ↔ op ∈ ops) :
    let seeded := chainRun r cbor devices steps
    let unseeded := chainRun r' cbor devices' (plain.map .deliver)
    (seeded.transitions = unseeded.transitions ∧ seeded.chain r = unseeded.chain r' ∧
      seeded.head r = unseeded.head r') ∧
    ∀ (st : Account) (raw : Bytes),
      (¬ ∃ record, IdentityChain.decode cbor r.crypto raw = .ok record ∧
        record.genesisIdentityId r.crypto = r.genesis.1 ∧
        IdentityChain.Linked r.crypto record.genesisIdSPub record.links) →
      ∃ e, st.seedIdentityChain r cbor raw = (st, .error e) := by
  intro seeded unseeded
  have hseeded : seeded.transitions.Agrees (rowsOf r.crypto ops) (rowsOf r.crypto ops) :=
    agrees_chainRun hv hroster (fun _ h => h) devices hdeliver fun raw hraw =>
      (hseed raw hraw).seeds hc hw hgenesis hv hroster
  have hunseeded : unseeded.transitions.Agrees (rowsOf r.crypto ops) (rowsOf r.crypto ops) := by
    rw [← hcrypto, ← hgen] at hv
    rw [← hcrypto]
    exact agrees_chainRun hv hroster (fun _ h => h) devices' (by simpa using hplain)
      (by simp)
  have hsame := hseeded.unique hunseeded
  refine ⟨⟨hsame, ?_, ?_⟩, fun st raw hbad => ?_⟩
  · unfold chain
    rw [hsame, hcrypto, hgen]
  · unfold Account.head
    rw [hsame, hcrypto, hgen]
  · unfold seedIdentityChain
    dsimp only
    split
    next => exact ⟨_, rfl⟩
    next record hdecode =>
      split
      next => exact ⟨_, rfl⟩
      next hverify => exact absurd ⟨record, hdecode, IdentityChain.verify_eq_ok.mp hverify⟩ hbad

/-! ### Worked examples -/

section Sample

open Account (localDevice alone chainRun identityChainPlan)

def published (r : LocalDevice) (st : Account) : Bytes :=
  match st.identityChainPlan r Cbor.codec false false with
  | .ok (some raw) => raw
  | _ => []

theorem known_sample (hsame : ∀ op ∈ ops, op.payload.toIdentityId = op.payload.toIdSPub)
    (hl : Known (rowsOf .sample ops) (1, 1) l) : l.2 = l.1 := by
  rcases hl with rfl | ⟨-, row, ⟨op, hop, hrow⟩, rfl⟩
  · rfl
  · obtain ⟨hfiled, hpay⟩ := filed_of_row hrow
    unfold link
    rw [← hfiled.toIdentityId, ← hfiled.toIdSPub, hpay, hsame op hop]

theorem verifyingOps_sample (hdistinct : Transitions.DistinctOps ops)
    (hfew : ops.length ≤ maxSiblings)
    (hsame : ∀ op ∈ ops, op.payload.toIdentityId = op.payload.toIdSPub)
    (hsigned : ∀ op ∈ ops, ∀ row, op.row .sample = some row →
      verifyIdentityTransition .sample row.body row.body.fromIdentityId row.sigs)
    (hfits : ∀ op ∈ ops, op.payload.toIdentityId < 256 ∧ op.payload.toIdSPub < 256 ∧
      op.payload.identityShare = none) :
    VerifyingOps .sample (1, 1) ops where
  distinct := hdistinct
  few source := (List.length_filter_le _ _).trans hfew
  signed := by
    rintro row ⟨op, hop, hrow⟩ l hl hsource
    rw [known_sample hsame hl, ← hsource]
    exact hsigned op hop row hrow
  fits op hop := by
    obtain ⟨hto, htoS, hnone⟩ := hfits op hop
    refine ⟨hto.trans (by decide), htoS.trans (by decide), fun share hshare => ?_⟩
    rw [hnone] at hshare
    cases hshare

/-- Two rotations, with both devices in their rosters. -/
def rotations : List TransitionOp :=
  [handOver 1 2 1 1 [[1, 1, 2], [2, 2, 2]], handOver 2 3 2 2 [[1, 1, 3], [2, 2, 3]]]

/-- The record the first device publishes after both. -/
def rotationsRecord : Bytes :=
  published (localDevice 1) (chainRun (localDevice 1) Cbor.codec (alone 1)
    (rotations.map .deliver))

/-- The second device seeds the record, and then takes the ops the other way round. -/
theorem seeds_agree_rotations :
    let seeded := chainRun (localDevice 2) Cbor.codec (alone 2)
      (.seed rotationsRecord :: rotations.reverse.map .deliver)
    let unseeded := chainRun (localDevice 1) Cbor.codec (alone 1) (rotations.map .deliver)
    Planned (localDevice 2) Cbor.codec rotations rotationsRecord ∧
      seeded.transitions = unseeded.transitions ∧
      seeded.head (localDevice 2) = unseeded.head (localDevice 1) := by
  have hv : VerifyingOps .sample (1, 1) rotations := by
    refine verifyingOps_sample (by decide) (by decide) (by decide) ?_ (by decide)
    intro op hop row hrow
    rcases List.mem_cons.mp hop with rfl | hop
    · obtain rfl := Option.some.inj hrow
      decide
    · obtain rfl := List.mem_singleton.mp hop
      obtain rfl := Option.some.inj hrow
      decide
  have hplan : Planned (localDevice 2) Cbor.codec rotations rotationsRecord :=
    ⟨localDevice 1, alone 1, rotations, false, false, rfl, rfl, fun _ h => h, by decide +kernel⟩
  have hgenesis : (localDevice 2).genesis.2 < 256 ^ 32 := by decide
  have hcrypto : (localDevice 1).crypto = (localDevice 2).crypto := rfl
  have hdeliver : ∀ op, ChainStep.deliver op ∈
      ChainStep.seed rotationsRecord :: rotations.reverse.map .deliver ↔ op ∈ rotations := by
    simp
  have hseed : ∀ raw, ChainStep.seed raw ∈
      ChainStep.seed rotationsRecord :: rotations.reverse.map .deliver →
        Planned (localDevice 2) Cbor.codec rotations raw := by
    intro raw hraw
    obtain rfl : raw = rotationsRecord := by simpa using hraw
    exact hplan
  have h := (seeds_agree Cbor.codec_lawful rfl hcrypto rfl hgenesis hv (by decide) (alone 2)
    (alone 1) hdeliver hseed fun _ => Iff.rfl).1
  exact ⟨hplan, h.1, h.2.2⟩

def sharesOnly : TransitionOp :=
  ⟨1, ⟨1, 0⟩, 0, ⟨1, 2, 2, 0, [], [(7, List.replicate 80 0)], none, ⟨1, 2⟩⟩⟩

/-- A device that issues itself the certificate a roster does not have. -/
def issuingDevice : LocalDevice :=
  { localDevice 1 with issues := fun p => some [1, 1, p.toIdentityId] }

def sharesOnlyRecord : Bytes :=
  published issuingDevice (chainRun issuingDevice Cbor.codec (alone 1) [.deliver sharesOnly])

/-- **The op of a link is never told from the link where it has no roster**: the share is lost. -/
theorem not_seeds_agree :
    VerifyingOps issuingDevice.crypto issuingDevice.genesis [sharesOnly] ∧
      Planned issuingDevice Cbor.codec [sharesOnly] sharesOnlyRecord ∧
      (chainRun issuingDevice Cbor.codec (alone 1)
          [.seed sharesOnlyRecord, .deliver sharesOnly]).transitions ≠
        (chainRun issuingDevice Cbor.codec (alone 1) [.deliver sharesOnly]).transitions := by
  refine ⟨?_, ?_, fun heq => ?_⟩
  · refine verifyingOps_sample (by decide) (by decide) (by decide) ?_ (by decide)
    intro op hop row hrow
    obtain rfl := List.mem_singleton.mp hop
    obtain rfl := Option.some.inj hrow
    decide
  · exact ⟨issuingDevice, alone 1, [sharesOnly], false, false, rfl, rfl, fun _ h => h,
      by decide +kernel⟩
  · have hrow := congrArg
      (fun t : Transitions => (t.find 2).map (·.payload.deviceShares)) heq
    revert hrow
    decide +kernel

end Sample

end Sunrise
