import Sunrise.Vault.Groups

/-!
# Groups are atomic

A member waits in `pending_groups` until its group is complete, and the delivery that
completes the group folds every member that waits. So at the end of every delivery the ops
folded are those held that are of no group or of a complete one, each folded once, and the
merge tables, which do not depend on the order of the fold, do not depend on the order of
arrival.

* `OpLog.Holds`, `OpLog.Complete`, `OpLog.Folds` — what the log alone says should be folded.
* `Vault.Inv` — the ops folded are those; kept by every delivery (`Vault.Inv.receive`).
* `Vault.receiveAll_spec` — **atomicity and order independence**.
-/

namespace Sunrise

open OpLog

namespace OpLog

variable {log log' : OpLog} {r : OpRef} {g : Group} {op : Op}

/-- The op read at a position: one that is held and not parked. -/
def readAt (log : OpLog) (r : OpRef) : Option Envelope :=
  ((log.rowAt r).filter fun row => !row.parked).map (·.env)

def Holds (log : OpLog) (op : Op) : Prop :=
  op.stamp.seq ≤ storeMax ∧ ∃ env, log.readAt op.stamp.opRef = some env ∧ env.op = some op

def Complete (log : OpLog) (g : Group) : Prop :=
  ∃ s : Finset OpRef, g.size ≤ s.card ∧
    ∀ r ∈ s, ∃ op, log.Holds op ∧ op.stamp.opRef = r ∧ op.group = some g

/-- An op that is to be folded: it is held, and its group is complete where it has one. -/
def Folds (log : OpLog) (op : Op) : Prop :=
  log.Holds op ∧ ∀ g, op.group = some g → log.Complete g

theorem readAt_eq (log : OpLog) (r : OpRef) :
    log.readAt r = (((log.rowAt r).map LogRow.bare).filter fun row => !row.parked).map (·.env) := by
  unfold readAt
  cases log.rowAt r with
  | none => rfl
  | some row =>
    show _ = ((some row.bare).filter _).map _
    rw [Option.filter_some, Option.filter_some]
    cases hp : row.parked <;> simp [LogRow.bare, hp]

theorem readAt_of_frame (h : log.frame = log'.frame) (r : OpRef) :
    log.readAt r = log'.readAt r := by
  rw [readAt_eq, readAt_eq, bare_of_frame h]

theorem rowAt_insertRow (log : OpLog) (env : Envelope) (row : LogRow) (r : OpRef) :
    (log.insertRow env row).rowAt r =
      if r.stream = env.ref.stream ∧ r.device = env.ref.device ∧ i64Of r.seq = env.ref.seq then
        some row
      else log.rowAt r := by
  unfold rowAt insertRow
  rw [devs_modify]
  by_cases hdev : r.stream = env.ref.stream ∧ r.device = env.ref.device
  · rw [if_pos hdev, Table.find_upsert, hdev.1, hdev.2]
    simp only [true_and]
  · rw [if_neg hdev, if_neg fun h => hdev ⟨h.1, h.2.1⟩]

theorem readAt_insertRow {env : Envelope} {row : LogRow} (hr : r.seq ≤ storeMax) :
    (log.insertRow env row).readAt r =
      if r = env.ref then (if row.parked then none else some row.env) else log.readAt r := by
  unfold readAt
  rw [rowAt_insertRow, i64Of_eq_self.mpr hr]
  by_cases h : r = env.ref
  · rw [if_pos h, h, if_pos ⟨rfl, rfl, rfl⟩]
    cases hparked : row.parked <;> simp [hparked]
  · rw [if_neg h, if_neg]
    rintro ⟨hs, hd, hn⟩
    refine h ?_
    cases r
    cases hq : env.ref
    simp_all

theorem core_receive_of_not_takes (c : ChainHash) {env : Envelope}
    (h : log.takes env = false) : (log.receive c env).core = log.core := by
  unfold takes at h
  unfold receive
  split
  · exact core_checkCovered ..
  next hcov =>
    split
    · rfl
    next hbig =>
      split
      next hrow => simp [hcov, Nat.not_lt.mp hbig, hrow] at h
      next row hrow =>
        split
        next hrel => simp [hcov, Nat.not_lt.mp hbig, hrow, hrel] at h
        · exact core_checkDuplicate ..

theorem frame_receive_of_takes (c : ChainHash) {env : Envelope} (h : log.takes env) :
    env.ref.seq ≤ storeMax ∧ log.readAt env.ref = none ∧ ∃ row : LogRow, row.parked = false ∧
      row.applied = true ∧ row.kind = env.inner.kind ∧
      (log.receive c env).frame = (log.insertRow env row).frame ∧
      (log.rowAt env.ref = none ∧ row.env = env ∨ ∃ old, log.rowAt env.ref = some old ∧
        old.parked = true ∧ old.env.opHash = env.opHash ∧ row.env = old.env) := by
  unfold takes at h
  simp only [Bool.and_eq_true, decide_eq_true_eq, Bool.not_eq_true'] at h
  obtain ⟨⟨hcov, hmax⟩, hrow⟩ := h
  refine ⟨hmax, ?_, ?_⟩
  · unfold readAt
    cases hr : log.rowAt env.ref with
    | none => rfl
    | some row =>
      rw [hr] at hrow
      simp only [Bool.and_eq_true] at hrow
      simp [hrow.1]
  · unfold receive
    rw [hcov, if_neg Bool.false_ne_true, if_neg (Nat.not_lt.mpr hmax)]
    cases hr : log.rowAt env.ref with
    | none =>
      exact ⟨⟨env, env.inner.kind, true, false, none⟩, rfl, rfl, rfl, frame_absorb ..,
        .inl ⟨rfl, rfl⟩⟩
    | some row =>
      rw [hr] at hrow
      simp only [Bool.and_eq_true, decide_eq_true_eq] at hrow
      dsimp only
      rw [if_pos hrow]
      exact ⟨{ row with kind := env.inner.kind, applied := true, parked := false }, rfl, rfl, rfl,
        frame_absorb .., .inr ⟨row, rfl, hrow.1, hrow.2, rfl⟩⟩

theorem readAt_receive (c : ChainHash) {env : Envelope} (h : log.takes env)
    (hsame : ∀ old, log.rowAt env.ref = some old → old.parked = true →
      old.env.opHash = env.opHash → old.env = env) (hr : r.seq ≤ storeMax) :
    (log.receive c env).readAt r = if r = env.ref then some env else log.readAt r := by
  obtain ⟨-, -, row, hparked, -, -, hframe, henv⟩ := frame_receive_of_takes c h
  rw [readAt_of_frame hframe, readAt_insertRow hr, hparked,
    if_neg Bool.false_ne_true]
  split
  · rcases henv with ⟨-, henv⟩ | ⟨old, hrow, hp, hhash, henv⟩
    · rw [henv]
    · rw [henv, hsame old hrow hp hhash]
  · rfl

theorem Holds.of_readAt (h : ∀ r, r.seq ≤ storeMax → log'.readAt r = log.readAt r)
    (hh : log.Holds op) : log'.Holds op := by
  obtain ⟨hmax, env, hread, hop⟩ := hh
  exact ⟨hmax, env, (h _ hmax).trans hread, hop⟩

theorem Holds.unique {op' : Op} (h : log.Holds op) (h' : log.Holds op')
    (hr : op.stamp.opRef = op'.stamp.opRef) : op = op' := by
  obtain ⟨-, env, hread, hop⟩ := h
  obtain ⟨-, env', hread', hop'⟩ := h'
  rw [hr, hread', Option.some.injEq] at hread
  rw [hread, hop, Option.some.injEq] at hop'
  exact hop'

theorem Complete.mono (h : ∀ op, log.Holds op → op.group = some g → log'.Holds op)
    (hc : log.Complete g) : log'.Complete g := by
  obtain ⟨s, hs, hall⟩ := hc
  refine ⟨s, hs, fun r hr => ?_⟩
  obtain ⟨op, hop, href, hg⟩ := hall r hr
  exact ⟨op, h op hop hg, href, hg⟩

end OpLog

/-- The store has place for an op's numbers: its own, and its group's size. -/
def Envelope.Fits (env : Envelope) : Prop :=
  env.ref.seq ≤ storeMax ∧ ∀ op g, env.op = some op → op.group = some g → g.size ≤ storeMax

namespace Vault

variable {c : Codec} {ch : ChainHash} {v : Vault} {F : List Op} {g : Group} {r : OpRef} {op : Op}
  {env : Envelope}

theorem ref_stamp_of_op (h : env.op = some op) : op.stamp.opRef = env.ref := by
  unfold Envelope.op at h
  split at h
  · rw [← Option.some.inj h]
    rfl
  · simp at h

/-- The table lists the members of a group that the log holds. -/
def Lists (v : Vault) (g : Group) : Prop :=
  ∀ r, (v.pending.find (toLex (g, r))).isSome ↔
    ∃ op, v.log.Holds op ∧ op.stamp.opRef = r ∧ op.group = some g

theorem Lists.complete_iff (h : v.Lists g) : v.log.Complete g ↔ g.size ≤ (v.members g).length := by
  have hmem : ∀ r, r ∈ ((v.members g).map (·.1)).toFinset ↔
      (v.pending.find (toLex (g, r))).isSome := by
    intro r
    rw [List.mem_toFinset, List.mem_map, Option.isSome_iff_exists]
    constructor
    · rintro ⟨⟨r', row⟩, hm, rfl⟩
      exact ⟨row, mem_members.mp hm⟩
    · rintro ⟨row, hf⟩
      exact ⟨(r, row), mem_members.mpr hf, rfl⟩
  have hcard : ((v.members g).map (·.1)).toFinset.card = (v.members g).length := by
    rw [List.toFinset_card_of_nodup (v.nodup_members g), List.length_map]
  constructor
  · rintro ⟨s, hs, hall⟩
    rw [← hcard]
    exact hs.trans (Finset.card_le_card fun r hr => (hmem r).mpr ((h r).mpr (hall r hr)))
  · intro hlen
    exact ⟨_, hlen.trans hcard.ge, fun r hr => (h r).mp ((hmem r).mp hr)⟩

/-- What deliveries keep of a vault and of the ops they folded. -/
structure Inv (c : Codec) (v : Vault) (F : List Op) : Prop where
  store : v.store = mergeOps c (fun _ => ∅) F
  lists : ∀ g, v.Lists g
  applied : ∀ g r row, v.pending.find (toLex (g, r)) = some row →
    (row.applied = true ↔ v.log.Complete g)
  folded : ∀ op, op ∈ F ↔ v.log.Folds op
  nodup : (F.map (·.stamp.opRef)).Nodup

theorem inv_empty (c : Codec) : Inv c ∅ [] := by
  have hnone : ∀ op, ¬ (∅ : Vault).log.Holds op := by
    rintro op ⟨-, env, hread, -⟩
    simp [EmptyCollection.emptyCollection, Vault.empty, OpLog.empty, readAt, rowAt,
      DeviceLog.empty, Table.find, Table.empty] at hread
  refine ⟨rfl, fun g r => ?_, fun g r row h => ?_, fun op => ?_, List.nodup_nil⟩
  · have : (∅ : Vault).pending.find (toLex (g, r)) = none := rfl
    rw [this]
    simpa using fun op h => absurd h (hnone op)
  · have : (∅ : Vault).pending.find (toLex (g, r)) = none := rfl
    rw [this] at h
    simp at h
  · simpa using fun h : (∅ : Vault).log.Folds op => hnone op h.1

theorem Inv.of_holds (h : Inv c v F) {log : OpLog}
    (hholds : ∀ op, log.Holds op ↔ v.log.Holds op) : Inv c { v with log } F := by
  have hcomplete : ∀ g, log.Complete g ↔ v.log.Complete g := fun g =>
    ⟨.mono fun op hh _ => (hholds op).mp hh, .mono fun op hh _ => (hholds op).mpr hh⟩
  refine ⟨h.store, fun g r => ?_, fun g r row hf => ?_, fun op => ?_, h.nodup⟩
  · simp only [hholds]
    exact h.lists g r
  · rw [hcomplete]
    exact h.applied g r row hf
  · unfold OpLog.Folds
    simp only [hholds, hcomplete]
    exact h.folded op

theorem holds_receive (ch : ChainHash) {log : OpLog} (h : log.takes env)
    (hsame : ∀ old, log.rowAt env.ref = some old → old.parked = true →
      old.env.opHash = env.opHash → old.env = env) :
    (log.receive ch env).Holds op ↔ log.Holds op ∨ env.op = some op := by
  obtain ⟨hmax, hnone, -⟩ := frame_receive_of_takes ch h
  constructor
  · rintro ⟨hfit, env', hread, hop⟩
    rw [readAt_receive ch h hsame hfit] at hread
    split at hread
    · exact .inr (Option.some.inj hread ▸ hop)
    · exact .inl ⟨hfit, env', hread, hop⟩
  · rintro (⟨hfit, env', hread, hop⟩ | hop)
    · refine ⟨hfit, env', ?_, hop⟩
      rw [readAt_receive ch h hsame hfit, if_neg]
      · exact hread
      · intro heq
        rw [heq, hnone] at hread
        simp at hread
    · have href := ref_stamp_of_op hop
      have hfit : op.stamp.seq ≤ storeMax := (congrArg OpRef.seq href).trans_le hmax
      refine ⟨hfit, env, ?_, hop⟩
      rw [readAt_receive ch h hsame hfit, if_pos href]

/-- A vault after a delivery logged a new op, and before it was folded. -/
structure Logged (v v' : Vault) (op : Op) : Prop where
  store : v'.store = v.store
  holds : ∀ op', v'.log.Holds op' ↔ v.log.Holds op' ∨ op' = op
  fresh : ∀ op', v.log.Holds op' → op'.stamp.opRef ≠ op.stamp.opRef

namespace Logged

variable {v' : Vault} (h : Logged v v' op)

include h

theorem complete_iff (hg : op.group ≠ some g) : v'.log.Complete g ↔ v.log.Complete g := by
  refine ⟨.mono fun op' hh hg' => ?_, .mono fun op' hh _ => (h.holds op').mpr (.inl hh)⟩
  rcases (h.holds op').mp hh with hh | rfl
  · exact hh
  · exact absurd hg' hg

theorem complete_mono (hc : v.log.Complete g) : v'.log.Complete g :=
  hc.mono fun op' hh _ => (h.holds op').mpr (.inl hh)

theorem lists_of_ne (hg : op.group ≠ some g) (hl : v.Lists g)
    (hfind : ∀ r, v'.pending.find (toLex (g, r)) = v.pending.find (toLex (g, r))) :
    v'.Lists g := by
  intro r
  rw [hfind, hl r]
  constructor
  · rintro ⟨op', hh, hr, hg'⟩
    exact ⟨op', (h.holds op').mpr (.inl hh), hr, hg'⟩
  · rintro ⟨op', hh, hr, hg'⟩
    rcases (h.holds op').mp hh with hh | rfl
    · exact ⟨op', hh, hr, hg'⟩
    · exact absurd hg' hg

theorem inv_single (hi : Inv c v F) (hg : op.group = none) (hpending : v'.pending = v.pending) :
    Inv c { v' with store := mergeOp c v'.store op } (F ++ [op]) := by
  have hne : ∀ g, op.group ≠ some g := fun g => by simp [hg]
  refine ⟨?_, fun g => ?_, fun g r row hf => ?_, fun op' => ?_, ?_⟩
  · show mergeOp c v'.store op = _
    rw [h.store, hi.store]
    simp [mergeOps]
  · exact h.lists_of_ne (hne g) (hi.lists g) fun r => by rw [hpending]
  · rw [hpending] at hf
    rw [hi.applied g r row hf]
    exact (h.complete_iff (hne g)).symm
  · rw [List.mem_append, List.mem_singleton, hi.folded]
    unfold OpLog.Folds
    simp only [h.holds, h.complete_iff (hne _)]
    constructor
    · rintro (⟨hh, hc⟩ | rfl)
      · exact ⟨.inl hh, hc⟩
      · exact ⟨.inr rfl, fun g hg' => absurd hg' (hne g)⟩
    · rintro ⟨hh | rfl, hc⟩
      · exact .inl ⟨hh, hc⟩
      · exact .inr rfl
  · rw [List.map_append, List.nodup_append]
    refine ⟨hi.nodup, by simp, ?_⟩
    intro a ha b hb
    obtain ⟨op', hop', rfl⟩ := List.mem_map.mp ha
    rw [List.map_singleton, List.mem_singleton] at hb
    exact hb ▸ h.fresh op' ((hi.folded op').mp hop').1

section Member

variable (hi : Inv c v F) (hg : op.group = some g)
  (hfind : ∀ k, v'.pending.find k = if k = toLex (g, op.stamp.opRef) then
    some ⟨op.stamp.hlc, false⟩ else v.pending.find k)

include hi hg hfind

theorem lists_member (g' : Group) : v'.Lists g' := by
  by_cases hgg : g' = g
  · subst hgg
    intro r
    rw [hfind]
    by_cases hr : r = op.stamp.opRef
    · subst hr
      simp only [if_true, Option.isSome_some, true_iff]
      exact ⟨op, (h.holds op).mpr (.inr rfl), rfl, hg⟩
    · rw [if_neg fun heq => hr (congrArg (fun k => (ofLex k).2) heq), hi.lists g' r]
      constructor
      · rintro ⟨op', hh, hr', hg'⟩
        exact ⟨op', (h.holds op').mpr (.inl hh), hr', hg'⟩
      · rintro ⟨op', hh, hr', hg'⟩
        rcases (h.holds op').mp hh with hh | rfl
        · exact ⟨op', hh, hr', hg'⟩
        · exact absurd hr'.symm hr
  · refine h.lists_of_ne (by simp [hg, Ne.symm hgg]) (hi.lists g') fun r => ?_
    rw [hfind, if_neg fun heq => hgg (congrArg (fun k => (ofLex k).1) heq)]

theorem inv_wait (hc : ¬ v'.log.Complete g) : Inv c v' F := by
  have hcv : ¬ v.log.Complete g := fun hcv => hc (h.complete_mono hcv)
  have hcomplete : ∀ g', v'.log.Complete g' ↔ v.log.Complete g' := by
    intro g'
    by_cases hgg : g' = g
    · subst hgg
      exact iff_of_false hc hcv
    · exact h.complete_iff (by simp [hg, Ne.symm hgg])
  refine ⟨h.store.trans hi.store, h.lists_member hi hg hfind, fun g' r row hf => ?_,
    fun op' => ?_, hi.nodup⟩
  · rw [hfind] at hf
    split at hf
    next heq =>
      obtain rfl := Option.some.inj hf
      obtain rfl : g' = g := congrArg (fun k => (ofLex k).1) heq
      exact iff_of_false (by simp) hc
    next => rw [hcomplete, hi.applied g' r row hf]
  · rw [hi.folded]
    unfold OpLog.Folds
    simp only [h.holds, hcomplete]
    constructor
    · rintro ⟨hh, hall⟩
      exact ⟨.inl hh, hall⟩
    · rintro ⟨hh | rfl, hall⟩
      · exact ⟨hh, hall⟩
      · exact absurd (hall g hg) hcv

theorem inv_complete (hc : v'.log.Complete g) : ∃ v'' ops,
    (v'.held g).foldlM (foldMember c g) (v', []) = some (v'', ops) ∧ v''.log = v'.log ∧
      Inv c v'' (F ++ ops) := by
  have hlists := h.lists_member hi hg hfind
  -- every member that waits is held, so it opens
  have hopen : ∀ r ∈ v'.held g, ∃ op', v'.openLogged r = some op' ∧ v'.log.Holds op' ∧
      op'.stamp.opRef = r ∧ op'.group = some g := by
    intro r hr
    obtain ⟨row, hf, -⟩ := mem_held.mp hr
    obtain ⟨op', hh, hr', hg'⟩ := (hlists g r).mp (by rw [hf]; rfl)
    refine ⟨op', ?_, hh, hr', hg'⟩
    obtain ⟨-, env, hread, hop⟩ := hh
    rw [hr'] at hread
    obtain ⟨row', hrow', rfl⟩ := Option.map_eq_some_iff.mp hread
    unfold openLogged
    rw [(Option.filter_eq_some_iff.mp hrow').1]
    exact hop
  obtain ⟨v'', hfold, hlog, hstore, hrows⟩ := foldlM_foldMember c g (L := v'.held g) (v := v')
    (F := []) fun r hr => by
      obtain ⟨op', hop', -⟩ := hopen r hr
      rw [hop']
      rfl
  refine ⟨v'', _, hfold, hlog, ?_⟩
  rw [List.nil_append]
  have hops : ∀ op', op' ∈ (v'.held g).filterMap v'.openLogged ↔
      v'.log.Holds op' ∧ op'.group = some g ∧ op'.stamp.opRef ∈ v'.held g := by
    intro op'
    rw [List.mem_filterMap]
    constructor
    · rintro ⟨r, hr, hop'⟩
      obtain ⟨op₁, hop₁, hh, rfl, hg'⟩ := hopen r hr
      rw [hop₁, Option.some.injEq] at hop'
      exact hop' ▸ ⟨hh, hg', hr⟩
    · rintro ⟨hh, hg', hr⟩
      obtain ⟨op₁, hop₁, hh₁, hr₁, -⟩ := hopen _ hr
      exact ⟨_, hr, hop₁.trans (congrArg some (hh₁.unique hh hr₁))⟩
  -- a member waits where it came first or the group was not complete before
  have hheld : ∀ op', v'.log.Holds op' → op'.group = some g →
      (op'.stamp.opRef ∈ v'.held g ↔ op' = op ∨ ¬ v.log.Complete g) := by
    intro op' hh hg'
    rw [mem_held, hfind]
    by_cases hr : op'.stamp.opRef = op.stamp.opRef
    · have heq : op' = op := hh.unique ((h.holds op).mpr (.inr rfl)) hr
      subst heq
      simp
    · rw [if_neg fun heq => hr (congrArg (fun k => (ofLex k).2) heq)]
      have hne : op' ≠ op := fun heq => hr (heq ▸ rfl)
      have hold : v.log.Holds op' := ((h.holds op').mp hh).resolve_right hne
      obtain ⟨row, hf⟩ := Option.isSome_iff_exists.mp
        ((hi.lists g op'.stamp.opRef).mpr ⟨op', hold, rfl, hg'⟩)
      rw [or_iff_right hne, ← hi.applied g _ row hf]
      simp [hf]
  have hcomplete : ∀ g', v''.log.Complete g' ↔ v'.log.Complete g' := fun g' => by rw [hlog]
  refine ⟨?_, fun g' r => ?_, fun g' r row hf => ?_, fun op' => ?_, ?_⟩
  · rw [hstore, h.store, hi.store]
    exact (List.foldl_append).symm
  · rw [hrows, Option.isSome_map, hlog]
    exact hlists g' r
  · rw [hrows] at hf
    obtain ⟨row', hf', rfl⟩ := Option.map_eq_some_iff.mp hf
    rw [hcomplete]
    by_cases hgg : g' = g
    · subst hgg
      refine iff_of_true ?_ hc
      split
      · rfl
      next hnot =>
        by_contra happ
        exact hnot ⟨rfl, mem_held.mpr ⟨row', hf', by simpa using happ⟩⟩
    · rw [if_neg fun hgr => hgg hgr.1, h.complete_iff (by simp [hg, Ne.symm hgg])]
      rw [hfind, if_neg fun heq => hgg (congrArg (fun k => (ofLex k).1) heq)] at hf'
      exact hi.applied g' r row' hf'
  · rw [List.mem_append, hops, hi.folded, hlog]
    unfold OpLog.Folds
    constructor
    · rintro (⟨hh, hall⟩ | ⟨hh, hg', -⟩)
      · exact ⟨(h.holds op').mpr (.inl hh), fun g' hg' => h.complete_mono (hall g' hg')⟩
      · refine ⟨hh, fun g₁ hg₁ => ?_⟩
        obtain rfl := Option.some.inj (hg'.symm.trans hg₁)
        exact hc
    · rintro ⟨hh, hall⟩
      by_cases hg' : op'.group = some g
      · by_cases hmem : op'.stamp.opRef ∈ v'.held g
        · exact .inr ⟨hh, hg', hmem⟩
        · rw [hheld op' hh hg'] at hmem
          push Not at hmem
          refine .inl ⟨((h.holds op').mp hh).resolve_right hmem.1, fun g₁ hg₁ => ?_⟩
          obtain rfl := Option.some.inj (hg'.symm.trans hg₁)
          exact hmem.2
      · have hne : op' ≠ op := fun heq => hg' (heq ▸ hg)
        refine .inl ⟨((h.holds op').mp hh).resolve_right hne, fun g₁ hg₁ => ?_⟩
        refine (h.complete_iff fun heq => hg' ?_).mp (hall g₁ hg₁)
        rw [hg₁, ← heq, hg]
  · rw [List.map_append, List.nodup_append]
    refine ⟨hi.nodup, ?_, ?_⟩
    · have hmap : ((v'.held g).filterMap v'.openLogged).map (·.stamp.opRef) = v'.held g := by
        rw [List.map_filterMap]
        refine (List.filterMap_congr fun r hr => ?_).trans List.filterMap_some
        obtain ⟨op', hop', -, hr', -⟩ := hopen r hr
        rw [hop', Option.map_some, hr']
      rw [hmap]
      exact nodup_held ..
    · intro a ha b hb heq
      obtain ⟨op₁, h₁, rfl⟩ := List.mem_map.mp ha
      obtain ⟨op₂, h₂, rfl⟩ := List.mem_map.mp hb
      obtain ⟨hh₂, hg₂, hm₂⟩ := (hops op₂).mp h₂
      obtain ⟨hh₁, hc₁⟩ := (hi.folded op₁).mp h₁
      obtain rfl := ((h.holds op₁).mpr (.inl hh₁)).unique hh₂ heq
      rcases (hheld op₁ hh₂ hg₂).mp hm₂ with rfl | hnc
      · exact h.fresh op₁ hh₁ rfl
      · exact hnc (hc₁ g hg₂)

end Member

end Logged

/-! ### Deliveries -/

/-- **A delivery keeps the invariant.** It logs its op, where the store has place for it. -/
theorem Inv.receive (h : Inv c v F) (ch : ChainHash)
    (hsame : ∀ old, v.log.rowAt env.ref = some old → old.parked = true →
      old.env.opHash = env.opHash → old.env = env) :
    Inv c (v.receive c ch env).1 (F ++ (v.receive c ch env).2) ∧
      (env.Fits → (v.receive c ch env).1.log = v.log.receive ch env) ∧
      (¬ env.Fits → (v.receive c ch env).1.log.core = v.log.core) := by
  unfold Vault.receive
  cases htakes : v.log.takes env with
  | false =>
    rw [if_neg Bool.false_ne_true, List.append_nil]
    have hcore := core_receive_of_not_takes ch htakes
    have hread := readAt_of_frame (frame_of_skeleton (skeleton_of_core hcore))
    exact ⟨h.of_holds fun op =>
      ⟨.of_readAt fun r _ => (hread r).symm, .of_readAt fun r _ => hread r⟩,
      fun _ => rfl, fun _ => hcore⟩
  | true =>
    rw [if_pos rfl]
    have hmax := (frame_receive_of_takes ch htakes).1
    have hholds (op : Op) : (v.log.receive ch env).Holds op ↔ v.log.Holds op ∨ env.op = some op :=
      holds_receive ch htakes hsame
    cases hop : env.op with
    | none =>
      simp only [hop, or_false, reduceCtorEq] at hholds
      rw [List.append_nil]
      exact ⟨h.of_holds hholds, fun _ => rfl, fun hnot =>
        absurd ⟨hmax, fun op g hop' => by simp [hop] at hop'⟩ hnot⟩
    | some op =>
      have hlogged : Logged v { v with log := v.log.receive ch env } op := by
        refine ⟨rfl, fun op' => ?_, fun op' hh => ?_⟩
        · rw [hholds, hop, Option.some.injEq, eq_comm (a := op)]
        · rw [ref_stamp_of_op hop]
          rintro heq
          obtain ⟨-, env', hread, -⟩ := hh
          rw [heq, (frame_receive_of_takes ch htakes).2.1] at hread
          simp at hread
      dsimp only
      unfold Vault.foldReceived
      cases hg : op.group with
      | none =>
        refine ⟨hlogged.inv_single h hg rfl, fun _ => rfl, fun hnot => absurd ⟨hmax, ?_⟩ hnot⟩
        rintro op' g hop' hg'
        obtain rfl := Option.some.inj (hop.symm.trans hop')
        simp [hg] at hg'
      | some g =>
        dsimp only
        unfold Vault.record
        split
        next hsize =>
          have hfits : env.Fits := by
            refine ⟨hmax, fun op' g' hop' hg' => ?_⟩
            obtain rfl := Option.some.inj (hop.symm.trans hop')
            obtain rfl := Option.some.inj (hg.symm.trans hg')
            exact hsize
          rw [Option.bind_some]
          set v₂ : Vault := { v with
            log := v.log.receive ch env
            pending := v.pending.insertOrIgnore (toLex (g, op.stamp.opRef))
              ⟨op.stamp.hlc, false⟩ } with hv₂
          have hlogged₂ : Logged v v₂ op := ⟨rfl, hlogged.holds, hlogged.fresh⟩
          have hfind : ∀ k, v₂.pending.find k = if k = toLex (g, op.stamp.opRef) then
              some ⟨op.stamp.hlc, false⟩ else v.pending.find k := by
            intro k
            rw [hv₂, Table.find_insertOrIgnore]
            split
            next heq =>
              subst heq
              have hnone : v.pending.find (toLex (g, op.stamp.opRef)) = none := by
                rw [← Option.not_isSome_iff_eq_none, h.lists g]
                rintro ⟨op', hh, hr, -⟩
                exact hlogged.fresh op' hh hr
              rw [hnone]
              rfl
            next => rfl
          unfold tryComplete
          have hcomplete := (hlogged₂.lists_member h hg hfind g).complete_iff
          split
          next hlen =>
            rw [Option.getD_some, List.append_nil]
            exact ⟨hlogged₂.inv_wait h hg hfind (by rw [hcomplete]; omega), fun _ => rfl,
              fun hnot => absurd hfits hnot⟩
          next hlen =>
            obtain ⟨v'', ops, hfold, hlog, hinv⟩ := hlogged₂.inv_complete h hg hfind
              (hcomplete.mpr (by omega))
            rw [hfold]
            exact ⟨hinv, fun _ => hlog, fun hnot => absurd hfits hnot⟩
        next hsize =>
          rw [Option.bind_none, Option.getD_none, List.append_nil]
          exact ⟨h, fun hfits => absurd (hfits.2 op g hop hg) hsize, fun _ => rfl⟩

/-- A log of deliveries alone: nothing is parked, and no floor was raised. -/
structure Plain (log : OpLog) : Prop where
  unparked : ∀ r row, log.rowAt r = some row → row.parked = false
  floorless : ∀ s dev, (log.devs s dev).floor = none

theorem Plain.of_frame {log log' : OpLog} (hf : log'.frame = log.frame) (h : Plain log) :
    Plain log' where
  unparked r row hrow := by
    have hb := bare_of_frame hf r
    rw [hrow] at hb
    obtain ⟨row', hrow', heq⟩ := Option.map_eq_some_iff.mp hb.symm
    have hbare : row'.bare = row.bare := heq
    have hp : row'.bare.parked = row.bare.parked := congrArg LogRow.parked hbare
    rw [show row.parked = row'.parked from hp.symm]
    exact h.unparked r row' hrow'
  floorless s dev := by
    rw [floor_of_frame hf]
    exact h.floorless s dev

/-- What a run of deliveries leaves, and the ops it folded. -/
structure Run (c : Codec) (done : List Envelope) (v : Vault) (F : List Op) : Prop
    extends Inv c v F where
  plain : Plain v.log
  given : ∀ r env, r.seq ≤ storeMax → v.log.readAt r = some env →
    env ∈ done ∧ env.ref = r ∧ env.Fits
  /-- What was delivered is held, where the store has place for it and no other op was there. -/
  present : ∀ env ∈ done, env.Fits → (v.log.readAt env.ref).isSome

theorem Run.receive {done : List Envelope} (h : Run c done v F) (ch : ChainHash)
    (env : Envelope) : Run c (done ++ [env]) (v.receive c ch env).1
      (F ++ (v.receive c ch env).2) := by
  have hsame : ∀ old, v.log.rowAt env.ref = some old → old.parked = true →
      old.env.opHash = env.opHash → old.env = env := by
    intro old hrow hp
    rw [h.plain.unparked _ _ hrow] at hp
    simp at hp
  obtain ⟨hinv, hfits, hrefused⟩ := h.toInv.receive ch hsame
  have hidle : (v.receive c ch env).1.log.core = v.log.core →
      (env.Fits → (v.log.readAt env.ref).isSome) →
      Run c (done ++ [env]) (v.receive c ch env).1 (F ++ (v.receive c ch env).2) := by
    intro hcore hheld
    have hframe := frame_of_skeleton (skeleton_of_core hcore)
    have hread := readAt_of_frame hframe
    refine ⟨hinv, h.plain.of_frame hframe, fun r e hr he => ?_, fun e he hf => ?_⟩
    · rw [hread] at he
      obtain ⟨hmem, hrest⟩ := h.given r e hr he
      exact ⟨List.mem_append_left _ hmem, hrest⟩
    · rw [hread]
      rcases List.mem_append.mp he with he | he
      · exact h.present e he hf
      · obtain rfl := List.mem_singleton.mp he
        exact hheld hf
  by_cases hfit : env.Fits
  · have hlog := hfits hfit
    cases htakes : v.log.takes env with
    | false =>
      refine hidle (hlog ▸ core_receive_of_not_takes ch htakes) fun _ => ?_
      -- the log refuses what fits only where it holds an op already
      have hcov : v.log.isCovered env = false := by
        unfold isCovered
        rw [h.plain.floorless]
      unfold takes at htakes
      rw [hcov] at htakes
      unfold readAt
      cases hrow : v.log.rowAt env.ref with
      | none => simp [hrow, hfit.1] at htakes
      | some row => simp [h.plain.unparked _ _ hrow]
    | true =>
      have hread := fun r hr => readAt_receive (r := r) ch htakes hsame hr
      obtain ⟨hmax, -, row, hparked, -, -, hframe, -⟩ := frame_receive_of_takes ch htakes
      rw [← hlog] at hread hframe
      refine ⟨hinv, .of_frame hframe ⟨fun r row' hrow' => ?_, fun s dev => ?_⟩,
        fun r e hr he => ?_, fun e he hf => ?_⟩
      · rw [rowAt_insertRow] at hrow'
        split at hrow'
        · rwa [← Option.some.inj hrow']
        · exact h.plain.unparked r row' hrow'
      · rw [floor_insertRow]
        exact h.plain.floorless s dev
      · rw [hread r hr] at he
        split at he
        next heq =>
          obtain rfl := Option.some.inj he
          exact ⟨by simp, heq.symm, hfit⟩
        next =>
          obtain ⟨hmem, hrest⟩ := h.given r e hr he
          exact ⟨List.mem_append_left _ hmem, hrest⟩
      · rw [hread _ hf.1]
        split
        · rfl
        next hne =>
          rcases List.mem_append.mp he with he | he
          · exact h.present e he hf
          · exact absurd (congrArg Envelope.ref (List.mem_singleton.mp he)) hne
  · exact hidle (hrefused hfit) fun hf => absurd hf hfit

theorem run_empty (c : Codec) : Run c [] ∅ [] := by
  have hnone : ∀ r, (∅ : Vault).log.rowAt r = none := fun _ => rfl
  refine ⟨inv_empty c, ⟨fun r row h => ?_, fun _ _ => rfl⟩, fun r env _ h => ?_, by simp⟩
  · rw [hnone] at h
    simp at h
  · unfold readAt at h
    rw [hnone] at h
    simp at h

/-- **A run of deliveries keeps the invariant.** -/
theorem run_receiveAll (c : Codec) (ch : ChainHash) (envs : List Envelope) :
    Run c envs (receiveAll c ch envs).1 (receiveAll c ch envs).2 := by
  induction envs using List.reverseRecOn with
  | nil => exact run_empty c
  | append_singleton envs env ih =>
    unfold receiveAll
    rw [List.foldl_append]
    exact ih.receive ch env

theorem Run.holds_iff {done : List Envelope} (h : Run c done v F)
    (hd : ∀ a ∈ done, ∀ b ∈ done, a.ref = b.ref → a = b) (op : Op) :
    v.log.Holds op ↔ ∃ env ∈ done, env.Fits ∧ env.op = some op := by
  constructor
  · rintro ⟨hfit, env, hread, hop⟩
    obtain ⟨hmem, -, hfits⟩ := h.given _ env hfit hread
    exact ⟨env, hmem, hfits, hop⟩
  · rintro ⟨env, hmem, hfits, hop⟩
    obtain ⟨env', hread⟩ := Option.isSome_iff_exists.mp (h.present env hmem hfits)
    obtain ⟨hmem', href, -⟩ := h.given _ env' hfits.1 hread
    obtain rfl := hd env' hmem' env hmem href
    have hr := ref_stamp_of_op hop
    exact ⟨(congrArg OpRef.seq hr).trans_le hfits.1, env', hr ▸ hread, hop⟩

/-- **Groups are atomic, and order does not matter.** After any deliveries, in any order and
with redeliveries, the merge tables are the fold of ops that were folded once each: those
held that are of no group or of one as many members of which are held as it has. The
delivery that completes a group folds every member held. And where the ops have distinct
positions, every op the store has place for is held, and every other order of the same
deliveries ends with the same merge tables. -/
theorem receiveAll_spec (c : Codec) (ch : ChainHash) (envs : List Envelope) :
    let v := (receiveAll c ch envs).1
    let folded := (receiveAll c ch envs).2
    v.store = mergeOps c (fun _ => ∅) folded ∧
      (folded.map (·.stamp.opRef)).Nodup ∧
      (∀ op, op ∈ folded ↔ v.log.Holds op ∧ ∀ g, op.group = some g → v.log.Complete g) ∧
      (∀ env g, ¬ v.log.Complete g → (v.receive c ch env).1.log.Complete g →
        ∀ op, (v.receive c ch env).1.log.Holds op → op.group = some g →
          op ∈ (v.receive c ch env).2) ∧
      ((∀ a ∈ envs, ∀ b ∈ envs, a.ref = b.ref → a = b) →
        (∀ op, v.log.Holds op ↔ ∃ env ∈ envs, env.Fits ∧ env.op = some op) ∧
        (OneKind (envs.filterMap (·.op)) → ∀ envs' : List Envelope,
          (∀ env, env ∈ envs' ↔ env ∈ envs) → (receiveAll c ch envs').1.store = v.store)) := by
  intro v folded
  have h : Run c envs v folded := run_receiveAll c ch envs
  refine ⟨h.store, h.nodup, h.folded, fun env g hbefore hafter op hh hg => ?_, fun hd => ?_⟩
  · have h' := h.receive ch env
    have hop : op ∈ folded ++ (v.receive c ch env).2 := by
      refine (h'.folded op).mpr ⟨hh, fun g' hg' => ?_⟩
      rwa [← Option.some.inj (hg.symm.trans hg')]
    rcases List.mem_append.mp hop with hop | hop
    · exact absurd (((h.folded op).mp hop).2 g hg) hbefore
    · exact hop
  · refine ⟨h.holds_iff hd, fun hkind envs' hsame => ?_⟩
    have h' : Run c envs' (receiveAll c ch envs').1 (receiveAll c ch envs').2 :=
      run_receiveAll c ch envs'
    have hd' : ∀ a ∈ envs', ∀ b ∈ envs', a.ref = b.ref → a = b := fun a ha b hb =>
      hd a ((hsame a).mp ha) b ((hsame b).mp hb)
    have hholds : ∀ op, (receiveAll c ch envs').1.log.Holds op ↔ v.log.Holds op := by
      intro op
      rw [h'.holds_iff hd', h.holds_iff hd]
      simp only [hsame]
    have hcomplete : ∀ g, (receiveAll c ch envs').1.log.Complete g ↔ v.log.Complete g := fun g =>
      ⟨.mono fun op hh _ => (hholds op).mp hh, .mono fun op hh _ => (hholds op).mpr hh⟩
    have hfolded : ∀ op, op ∈ folded ↔ op ∈ (receiveAll c ch envs').2 := by
      intro op
      rw [h.folded, h'.folded]
      unfold OpLog.Folds
      simp only [hholds, hcomplete]
    have hmem : ∀ op ∈ folded, op ∈ envs.filterMap (·.op) := by
      intro op hop
      obtain ⟨env, henv, -, hop'⟩ := (h.holds_iff hd op).mp ((h.folded op).mp hop).1
      exact List.mem_filterMap.mpr ⟨env, henv, hop'⟩
    rw [h.store, h'.store]
    refine (mergeOps_congr c (distinctOps_of_nodup h.nodup) ?_ hfolded).symm
    exact fun o ho o' ho' => hkind o (hmem o ho) o' (hmem o' ho')

/-- Device 1 creates a task, in a group of two. -/
def groupCreate : Envelope where
  ref := ⟨7, 1, 1⟩
  hlc := ⟨1, 0⟩
  opHash := 1
  inner := .entity ⟨.task, 1⟩
    (.patch true false (some []) (some (9, 2)) [("title", .set (.text "a"))])

def groupRename : Envelope where
  ref := ⟨7, 2, 1⟩
  hlc := ⟨2, 0⟩
  opHash := 2
  inner := .entity ⟨.task, 1⟩
    (.patch false false (some [⟨7, 1, 1⟩]) (some (9, 2)) [("title", .set (.text "b"))])

theorem receiveAll_spec_rename_first :
    (receiveAll .short .sample [groupRename, groupCreate]).1.store =
      (receiveAll .short .sample [groupCreate, groupRename]).1.store ∧
    ((receiveAll .short .sample [groupCreate, groupRename]).2.map (·.stamp.opRef)).Nodup := by
  have h := receiveAll_spec .short .sample [groupCreate, groupRename]
  have hd : ∀ a ∈ [groupCreate, groupRename], ∀ b ∈ [groupCreate, groupRename],
      a.ref = b.ref → a = b := by
    intro a ha b hb href
    simp only [List.mem_cons, List.not_mem_nil, or_false] at ha hb
    rcases ha with rfl | rfl <;> rcases hb with rfl | rfl <;> first | rfl | simp_all [groupCreate,
      groupRename]
  have hkind : OneKind ([groupCreate, groupRename].filterMap (·.op)) := by
    unfold OneKind
    decide
  refine ⟨(h.2.2.2.2 hd).2 hkind _ fun env => ?_, h.2.1⟩
  simp [or_comm]

/-- The first member waits, and the second folds both. -/
example : (receiveAll .short .sample [groupRename]).2.length = 0 ∧
    (receiveAll .short .sample [groupRename, groupCreate]).2.length = 2 := by decide +kernel

end Vault

end Sunrise
