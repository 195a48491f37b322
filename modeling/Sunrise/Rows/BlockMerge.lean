import Mathlib.Data.Finset.Sort
import Sunrise.Blob.Cache
import Sunrise.Lib.Result
import Sunrise.Rows.Order
import Sunrise.Rows.Task

/-!
# Two blocks merged

Where two blocks overlap a client offers to merge them: the block that starts first gives the
stream, the range is the union of both, and the tasks of both are bound. Bounds of one kind keep the
kind, and others become instants.

* `Block`, `mergeBlocks` — a block, and the draft.
* `mergeBlocks_comm` — **which block is named first does not matter, if one starts first.**
* `mergeBlocks_spec` — **the draft binds the tasks of both, and covers both where they are placed.**
-/

namespace Sunrise

namespace Rows

/-! ### The draft -/

/-- A span of the calendar. -/
structure Block (J : Jiff) where
  id : Ref
  createdAt : Timestamp
  updatedAt : Timestamp
  streamId : Option Ref
  startsAt : SunriseTime J
  endsAt : SunriseTime J
  title : Option String
  /-- Whether the title of its one task stands for its own. -/
  titleTrackTask : Bool
  tasks : Finset Ref
  deleted : Bool
  unknown : Unknowns []

variable {J : Jiff} (cbor : Cbor.Codec)

def RefKind.index : RefKind → ℕ
  | .task => 0 | .stream => 1 | .context => 2 | .routine => 3 | .block => 4 | .note => 5
  | .attachment => 6 | .person => 7 | .device => 8 | .identity => 9 | .focusSession => 10
  | .reviewSnapshot => 11 | .preferences => 12 | .savedView => 13

theorem RefKind.index_injective : Function.Injective RefKind.index := by
  intro a b h
  cases a <;> cases b <;> first | rfl | exact absurd h (by decide)

/-- References are ordered by kind, then by id. -/
instance : LinearOrder Ref :=
  LinearOrder.lift' (fun r => toLex (r.kind.index, r.id)) fun a b h => by
    obtain ⟨hkind, hid⟩ := Prod.ext_iff.mp (toLex.injective h)
    cases a
    cases b
    rw [Ref.mk.injEq]
    exact ⟨RefKind.index_injective hkind, hid⟩

/-- A block to create. -/
structure BlockDraft (J : Jiff) where
  streamId : Option Ref
  startsAt : SunriseTime J
  endsAt : SunriseTime J
  title : Option String
  titleTrackTask : Bool
  tasks : List Ref

def maxBlockTitleLen : ℕ := 256

/-- An end must resolve after its start. What cannot be placed is compared with nothing. -/
def validateRange (startsAt endsAt : SunriseTime J) (tz : J.Zone) : Except ValidationError Unit :=
  match endsAt.resolveIn tz, startsAt.resolveIn tz with
  | some e, some s => if e ≤ s then .error (.field "block.ends_at" "after_starts_at") else .ok ()
  | _, _ => .ok ()

def BlockDraft.validate (d : BlockDraft J) (tz : J.Zone) : Except ValidationError Unit := do
  validateRange d.startsAt d.endsAt tz
  match d.title with
  | some t => let _ ← validateTitle t.toList "block.title" maxBlockTitleLen
  | none =>
    if 1 < d.tasks.length then throw (.field "block.title" "required_for_multi_task")

/-- Where a bound is put to compare two blocks, if this build can place it. -/
def placedMs (t : SunriseTime J) (tz : J.Zone) : Option ℤ :=
  ((t.resolveIn tz).map Timestamp.asMillisecond).filter fun ms => ms < unanchoredMs

/-- Which end of the range a bound is. -/
inductive Bound where
  | start
  | end_
deriving DecidableEq

def sameKind : SunriseTime J → SunriseTime J → Bool
  | .zoned _ a, .zoned _ b => a = b
  | x, y => x.kindStr = y.kindStr

def unionBound (x y : SunriseTime J) (zone : J.Zone) (bound : Bound) : SunriseTime J :=
  let takeX := match placedMs x zone, placedMs y zone, bound with
    | some xm, some ym, .start => decide (xm ≤ ym)
    | some xm, some ym, .end_ => decide (ym ≤ xm)
    | none, some _, _ => false
    | _, none, _ => true
  let winner := if takeX then x else y
  match winner.toInstant zone with
  | some at_ => if sameKind x y then winner else .instant at_
  | none => winner

def mergedTitle : Option String → Option String → Option String
  | some a, some b => if a = b then some a else some (a ++ " + " ++ b)
  | some t, none | none, some t => some t
  | none, none => none

/-- The tasks of the first block, and those only the second has. -/
def mergedTasks (early late : Finset Ref) : List Ref :=
  (late.sort (· ≤ ·)).foldl (fun tasks t => if t ∈ tasks then tasks else tasks ++ [t])
    (early.sort (· ≤ ·))

/-- The draft of two blocks, the one that starts first named first. -/
def mergeInOrder (early late : Block J) (zone : J.Zone) : BlockDraft J where
  streamId := early.streamId
  startsAt := unionBound early.startsAt late.startsAt zone .start
  endsAt := unionBound early.endsAt late.endsAt zone .end_
  title := mergedTitle early.title late.title
  titleTrackTask := false
  tasks := mergedTasks early.tasks late.tasks

def mergeBlocks (a b : Block J) (zone : J.Zone) : Except ValidationError (BlockDraft J) := do
  let draft := if (a.startsAt.cmpIn cbor zone b.startsAt).isLE then mergeInOrder a b zone
    else mergeInOrder b a zone
  draft.validate zone
  return draft

/-! ### Which block starts first -/

variable {cbor} {a b : Block J} {zone : J.Zone} {x y : SunriseTime J}

theorem compare_swap {α : Type*} [LinearOrder α] (x y : α) : compare x y = (compare y x).swap :=
  Std.OrientedCmp.eq_swap

theorem comparePlaced_swap (x y : Option Timestamp) :
    comparePlaced y x = (comparePlaced x y).swap := by
  cases x with
  | none => cases y <;> rfl
  | some x =>
    cases y with
    | none => rfl
    | some y => exact compare_swap y.ns x.ns

theorem cmpTie_swap : y.cmpTie cbor x = (x.cmpTie cbor y).swap := by
  cases x <;> cases y <;> first | rfl | exact compare_swap _ _

theorem cmpIn_swap : y.cmpIn cbor zone x = (x.cmpIn cbor zone y).swap := by
  rw [SunriseTime.cmpIn, SunriseTime.cmpIn, SunriseTime.cmp, SunriseTime.cmp, Ordering.swap_then,
    Ordering.swap_then, Ordering.swap_then, Ordering.swap_then, ← comparePlaced_swap,
    ← cmpTie_swap, ← compare_swap, ← compare_swap, ← compare_swap]

/-- **Which block is named first does not matter, if one starts first.** -/
theorem mergeBlocks_comm (h : a.startsAt.cmpIn cbor zone b.startsAt ≠ .eq) :
    mergeBlocks cbor a b zone = mergeBlocks cbor b a zone := by
  have hfirst : (if (a.startsAt.cmpIn cbor zone b.startsAt).isLE then mergeInOrder a b zone
      else mergeInOrder b a zone) =
        if (b.startsAt.cmpIn cbor zone a.startsAt).isLE then mergeInOrder b a zone
        else mergeInOrder a b zone := by
    rw [@cmpIn_swap _ _ _ a.startsAt b.startsAt]
    revert h
    cases a.startsAt.cmpIn cbor zone b.startsAt with
    | lt => exact fun _ => rfl
    | eq => exact fun h => absurd rfl h
    | gt => exact fun _ => rfl
  unfold mergeBlocks
  rw [hfirst]

/-! ### What the draft covers -/

/-- Where the bounds of a block are for a reader, before whatever cannot be placed. -/
structure Block.PlacedAt (b : Block J) (zone : J.Zone) (s e : Timestamp) : Prop where
  starts : b.startsAt.resolveIn zone = some s
  ends : b.endsAt.resolveIn zone = some e
  starts_lt : s.asMillisecond < unanchoredMs
  ends_lt : e.asMillisecond < unanchoredMs

theorem placedMs_of_resolveIn {at_ : Timestamp} (h : x.resolveIn zone = some at_)
    (hlt : at_.asMillisecond < unanchoredMs) : placedMs x zone = some at_.asMillisecond := by
  rw [placedMs, h, Option.map_some, Option.filter_some, if_pos (decide_eq_true hlt)]

/-- The wider bound is where the winner is, whether or not it keeps its kind. -/
theorem resolveIn_winner {w : SunriseTime J} {keep : Bool} :
    (match w.toInstant zone with
      | some at_ => if keep then w else .instant at_
      | none => w).resolveIn zone = w.resolveIn zone := by
  cases h : w.toInstant zone with
  | none => rfl
  | some at_ =>
    cases keep with
    | true => rfl
    | false => exact h.symm

theorem resolveIn_unionBound {xt yt : Timestamp} (hx : x.resolveIn zone = some xt)
    (hy : y.resolveIn zone = some yt) (hxlt : xt.asMillisecond < unanchoredMs)
    (hylt : yt.asMillisecond < unanchoredMs) (bound : Bound) :
    ((unionBound x y zone bound).resolveIn zone).map Timestamp.asMillisecond =
      some (match bound with
        | .start => min xt.asMillisecond yt.asMillisecond
        | .end_ => max xt.asMillisecond yt.asMillisecond) := by
  have hside (takeX : Bool) : ((if takeX then x else y).resolveIn zone).map
      Timestamp.asMillisecond =
        some (if takeX then xt.asMillisecond else yt.asMillisecond) := by
    cases takeX with
    | true => rw [if_pos rfl, if_pos rfl, hx, Option.map_some]
    | false => rw [if_neg Bool.false_ne_true, if_neg Bool.false_ne_true, hy, Option.map_some]
  unfold unionBound
  rw [placedMs_of_resolveIn hx hxlt, placedMs_of_resolveIn hy hylt]
  cases bound with
  | start =>
    rw [resolveIn_winner, hside, min_def]
    simp only [decide_eq_true_eq]
  | end_ =>
    rw [resolveIn_winner, hside, max_comm, max_def]
    simp only [decide_eq_true_eq]

theorem mergedTasks_spec (early late : Finset Ref) : (mergedTasks early late).Nodup ∧
    ∀ t, t ∈ mergedTasks early late ↔ t ∈ early ∨ t ∈ late := by
  have hfold (m l : List Ref) (hl : l.Nodup) :
      (m.foldl (fun tasks t => if t ∈ tasks then tasks else tasks ++ [t]) l).Nodup ∧
        ∀ t, t ∈ m.foldl (fun tasks t => if t ∈ tasks then tasks else tasks ++ [t]) l ↔
          t ∈ l ∨ t ∈ m := by
    induction m generalizing l with
    | nil => exact ⟨hl, fun t => by simp⟩
    | cons x m ih =>
      rw [List.foldl_cons]
      split
      next hx =>
        refine ⟨(ih l hl).1, fun t => ?_⟩
        rw [(ih l hl).2, List.mem_cons]
        constructor
        · exact fun h => h.imp_right Or.inr
        · rintro (h | rfl | h)
          · exact .inl h
          · exact .inl hx
          · exact .inr h
      next hx =>
        have hnodup : (l ++ [x]).Nodup := by
          rw [List.nodup_append_comm]
          exact List.nodup_cons.mpr ⟨hx, hl⟩
        refine ⟨(ih _ hnodup).1, fun t => ?_⟩
        rw [(ih _ hnodup).2, List.mem_append, List.mem_singleton, List.mem_cons, or_assoc]
  obtain ⟨hnodup, hmem⟩ := hfold (late.sort (· ≤ ·)) (early.sort (· ≤ ·)) (early.sort_nodup _)
  refine ⟨hnodup, fun t => ?_⟩
  rw [mergedTasks, hmem, Finset.mem_sort, Finset.mem_sort]

structure BlockDraft.Binds (draft : BlockDraft J) (a b : Block J) : Prop where
  nodup : draft.tasks.Nodup
  mem_tasks : ∀ t, t ∈ draft.tasks ↔ t ∈ a.tasks ∨ t ∈ b.tasks

/-- A draft covers two blocks that are placed. -/
structure BlockDraft.Covers (draft : BlockDraft J) (zone : J.Zone) (sa ea sb eb : Timestamp) :
    Prop where
  starts : (draft.startsAt.resolveIn zone).map Timestamp.asMillisecond =
    some (min sa.asMillisecond sb.asMillisecond)
  ends : (draft.endsAt.resolveIn zone).map Timestamp.asMillisecond =
    some (max ea.asMillisecond eb.asMillisecond)

theorem binds_mergeInOrder : (mergeInOrder a b zone).Binds a b where
  nodup := (mergedTasks_spec a.tasks b.tasks).1
  mem_tasks := (mergedTasks_spec a.tasks b.tasks).2

theorem covers_mergeInOrder {sa ea sb eb : Timestamp} (ha : a.PlacedAt zone sa ea)
    (hb : b.PlacedAt zone sb eb) : (mergeInOrder a b zone).Covers zone sa ea sb eb where
  starts := resolveIn_unionBound ha.starts hb.starts ha.starts_lt hb.starts_lt .start
  ends := resolveIn_unionBound ha.ends hb.ends ha.ends_lt hb.ends_lt .end_

/-- **Two blocks merged.** Which one is named first does not matter, if one starts first; the tasks
of both are bound; and where the bounds of both are placed, the draft covers both. -/
theorem mergeBlocks_spec :
    (a.startsAt.cmpIn cbor zone b.startsAt ≠ .eq →
        mergeBlocks cbor a b zone = mergeBlocks cbor b a zone) ∧
      ∀ draft, mergeBlocks cbor a b zone = .ok draft → draft.Binds a b ∧
        ∀ sa ea sb eb, a.PlacedAt zone sa ea → b.PlacedAt zone sb eb →
          draft.Covers zone sa ea sb eb := by
  refine ⟨mergeBlocks_comm, fun draft h => ?_⟩
  unfold mergeBlocks at h
  obtain ⟨-, -, h⟩ := Result.bind_eq_ok_iff.mp h
  obtain rfl := Except.ok.inj h
  split
  · exact ⟨binds_mergeInOrder, fun sa ea sb eb ha hb => covers_mergeInOrder ha hb⟩
  · have hbinds : (mergeInOrder b a zone).Binds b a := binds_mergeInOrder
    refine ⟨⟨hbinds.nodup, fun t => (hbinds.mem_tasks t).trans or_comm⟩,
      fun sa ea sb eb ha hb => ?_⟩
    have hcovers := covers_mergeInOrder hb ha
    exact ⟨hcovers.starts.trans (congrArg some (min_comm _ _)),
      hcovers.ends.trans (congrArg some (max_comm _ _))⟩

/-! ### Blocks that start together, and blocks without end -/

/-- A block from one instant to another, of the task of its end. -/
def instants (title : String) (starts ends : ℤ) : Block Jiff.newYork where
  id := ⟨.block, 0⟩
  createdAt := .unixEpoch
  updatedAt := .unixEpoch
  streamId := none
  startsAt := .instant (msToTs starts)
  endsAt := .instant (msToTs ends)
  title := some title
  titleTrackTask := false
  tasks := {⟨.task, ends.toNat⟩}
  deleted := false
  unknown := .empty

/-- Two blocks that start together have two titles merged. And a block that ends after what cannot
be placed is not covered. -/
theorem not_mergeBlocks_comm :
    (∃ draft draft', mergeBlocks Cbor.codec (instants "A" 0 1000) (instants "B" 0 1000)
          Jiff.newYork.utc = .ok draft ∧
        mergeBlocks Cbor.codec (instants "B" 0 1000) (instants "A" 0 1000)
          Jiff.newYork.utc = .ok draft' ∧ draft.title ≠ draft'.title) ∧
      ∃ draft, mergeBlocks Cbor.codec (instants "A" 0 1000) (instants "B" 500 unanchoredMs)
          Jiff.newYork.utc = .ok draft ∧
        (draft.endsAt.resolveIn Jiff.newYork.utc).map Timestamp.asMillisecond = some 1000 := by
  refine ⟨⟨_, _, rfl, rfl, ?_⟩, _, rfl, ?_⟩
  · decide
  · decide

theorem mergeBlocks_overlapping : ∃ draft,
    mergeBlocks Cbor.codec (instants "A" 0 1000) (instants "B" 500 2000) Jiff.newYork.utc =
        .ok draft ∧
      mergeBlocks Cbor.codec (instants "A" 0 1000) (instants "B" 500 2000) Jiff.newYork.utc =
        mergeBlocks Cbor.codec (instants "B" 500 2000) (instants "A" 0 1000) Jiff.newYork.utc ∧
      draft.title = some "A + B" ∧
      draft.Binds (instants "A" 0 1000) (instants "B" 500 2000) ∧
      draft.Covers Jiff.newYork.utc (msToTs 0) (msToTs 1000) (msToTs 500) (msToTs 2000) := by
  have hplaced (title : String) (starts ends : ℤ)
      (hs : (msToTs starts).asMillisecond < unanchoredMs)
      (he : (msToTs ends).asMillisecond < unanchoredMs) :
      (instants title starts ends).PlacedAt Jiff.newYork.utc (msToTs starts) (msToTs ends) :=
    ⟨rfl, rfl, hs, he⟩
  have ha := hplaced "A" 0 1000 (by decide) (by decide)
  have hb := hplaced "B" 500 2000 (by decide) (by decide)
  obtain ⟨hbinds, hcovers⟩ := (mergeBlocks_spec (a := instants "A" 0 1000)
    (b := instants "B" 500 2000)).2 _ rfl
  exact ⟨_, rfl, mergeBlocks_spec.1 (by decide), rfl, hbinds, hcovers _ _ _ _ ha hb⟩

end Rows

end Sunrise
