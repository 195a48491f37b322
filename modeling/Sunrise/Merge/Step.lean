import Sunrise.Merge.Keep

/-!
# Folding an op keeps the merge state sound

`mergeEntity` in one equation (`mergeEntity_eq`): admit the version, note the op in
the bookkeeping, raise the floor if the op is the greatest full-state op, make the
writes, flush. Each part is described by what it does to the tables, and the result
follows from the small steps:

* `Entity.Sound.merge` — the fold keeps the state sound;
* `Entity.Sound.covered_merge` — and covers the op;
* `Entity.Covered.merge` — what was covered stays covered.

The three together are what order independence is read off.
-/

namespace Sunrise

open Bookkeeping Entity Registers Op

open Causal

/-! ### The bookkeeping -/

namespace Bookkeeping

variable {B : Set Bookkeeping} {m b b' : Bookkeeping}

private theorem merge_choice {α : Type*} {f : α → α → α} (hf : ∀ a b, f a b = a ∨ f a b = b)
    {x y : Option α} {s : α} (h : Option.merge f x y = some s) : x = some s ∨ y = some s := by
  cases x with
  | none => exact .inr (by simpa using h)
  | some a =>
    cases y with
    | none => exact .inl (by simpa using h)
    | some b =>
      rw [Option.merge_some_some, Option.some.injEq] at h
      rcases hf a b with heq | heq
      · exact .inl (by rw [← h, heq])
      · exact .inr (by rw [← h, heq])

private theorem merge_bound {α : Type*} {f : α → α → α} {r : α → α → Prop}
    (hrefl : ∀ a, r a a) (hf : ∀ a b, r a (f a b) ∧ r b (f a b)) {x y : Option α} {s : α}
    (h : x = some s ∨ y = some s) : ∃ s', Option.merge f x y = some s' ∧ r s s' := by
  cases x with
  | none => exact ⟨s, by simpa using h, hrefl s⟩
  | some a =>
    cases y with
    | none => exact ⟨s, by simpa using h, hrefl s⟩
    | some b =>
      refine ⟨_, Option.merge_some_some, ?_⟩
      rcases h with h | h
      · exact Option.some.inj h ▸ (hf a b).1
      · exact Option.some.inj h ▸ (hf a b).2

theorem sound_of_mem (h : b ∈ B) : b.Sound B :=
  ⟨fun hc => ⟨b, h, hc⟩, fun _ hs => ⟨b, h, hs⟩, fun _ hs => ⟨b, h, hs⟩, fun _ hn => ⟨b, h, hn⟩,
    ⟨b, h, rfl⟩⟩

theorem Sound.join (hm : m.Sound B) (hb : b.Sound B) : (m.join b).Sound B where
  created := fun hc => by
    rcases Bool.or_eq_true_iff.mp hc with h | h
    · exact hm.created h
    · exact hb.created h
  create := fun s hs => by
    rcases merge_choice min_choice hs with h | h
    · exact hm.create s h
    · exact hb.create s h
  legacy := fun s hs => by
    rcases merge_choice max_choice hs with h | h
    · exact hm.legacy s h
    · exact hb.legacy s h
  patchMs := fun n hn => by
    rcases merge_choice max_choice hn with h | h
    · exact hm.patchMs n h
    · exact hb.patchMs n h
  head := by
    rcases max_choice m.head b.head with heq | heq
    · show ∃ b' ∈ B, b'.head = max m.head b.head
      rw [heq]
      exact hm.head
    · show ∃ b' ∈ B, b'.head = max m.head b.head
      rw [heq]
      exact hb.head

theorem Covered.refl (b : Bookkeeping) : b.Covered b :=
  ⟨id, fun s h => ⟨s, h, le_rfl⟩, fun s h => ⟨s, h, le_rfl⟩, fun n h => ⟨n, h, le_rfl⟩, le_rfl⟩

theorem Covered.trans {b₁ b₂ b₃ : Bookkeeping} (h₁ : b₁.Covered b₂) (h₂ : b₂.Covered b₃) :
    b₁.Covered b₃ where
  created := fun h => h₂.created (h₁.created h)
  create := fun s hs => by
    obtain ⟨t, ht, hle⟩ := h₁.create s hs
    obtain ⟨u, hu, hle'⟩ := h₂.create t ht
    exact ⟨u, hu, hle'.trans hle⟩
  legacy := fun s hs => by
    obtain ⟨t, ht, hle⟩ := h₁.legacy s hs
    obtain ⟨u, hu, hle'⟩ := h₂.legacy t ht
    exact ⟨u, hu, hle.trans hle'⟩
  patchMs := fun n hn => by
    obtain ⟨k, hk, hle⟩ := h₁.patchMs n hn
    obtain ⟨l, hl, hle'⟩ := h₂.patchMs k hk
    exact ⟨l, hl, hle.trans hle'⟩
  head := h₁.head.trans h₂.head

theorem covered_join_left (m b : Bookkeeping) : m.Covered (m.join b) where
  created := fun h => Bool.or_eq_true_iff.mpr (.inl h)
  create := fun _ hs => merge_bound (r := fun a a' => a' ≤ a) le_refl
    (fun a b => ⟨min_le_left a b, min_le_right a b⟩) (.inl hs)
  legacy := fun _ hs => merge_bound (r := fun a a' => a ≤ a') le_refl
    (fun a b => ⟨le_max_left a b, le_max_right a b⟩) (.inl hs)
  patchMs := fun _ hn => merge_bound (r := fun a a' => a ≤ a') le_refl
    (fun a b => ⟨le_max_left a b, le_max_right a b⟩) (.inl hn)
  head := le_max_left _ _

theorem join_comm (m b : Bookkeeping) : m.join b = b.join m := by
  have hcomm {α : Type} [LinearOrder α] (x y : Option α) :
      Option.merge min x y = Option.merge min y x ∧ Option.merge max x y = Option.merge max y x :=
    ⟨Std.Commutative.comm x y, Std.Commutative.comm x y⟩
  unfold join
  rw [Bool.or_comm, (hcomm m.create _).1, (hcomm m.legacy _).2, (hcomm m.patchMs _).2, max_comm]

theorem covered_join_right (m b : Bookkeeping) : b.Covered (m.join b) :=
  join_comm m b ▸ covered_join_left b m

end Bookkeeping

namespace Op

def raises (op : Op) (floor : Option Stamp) : Bool :=
  op.isLegacy && match floor with
    | some l => decide (l < op.stamp)
    | none => true

def noted (op : Op) (m : Bookkeeping) : Bookkeeping :=
  let m₁ := m.note op.stamp
  let m₂ := if op.creates then m₁.noteCreate op.stamp else m₁
  if op.isLegacy then
    { m₂ with legacy := if op.raises m.legacy then some op.stamp else m.legacy }
  else m₂.notePatch op.stamp

theorem noted_eq_join (op : Op) (m : Bookkeeping) : op.noted m = m.join op.book := by
  have hmax : ∀ l, (if l < op.stamp then some op.stamp else some l) = some (max l op.stamp) := by
    intro l
    split
    next h => rw [max_eq_right h.le]
    next h => rw [max_eq_left (not_lt.mp h)]
  obtain ⟨created, create, legacy, patchMs, head⟩ := m
  cases hl : op.isLegacy <;> cases hc : op.creates <;> cases create <;> cases legacy <;>
    cases patchMs <;>
    simp [noted, Bookkeeping.join, book, raises, note, noteCreate,
      notePatch, hl, hc, hmax]

theorem lt_of_raises {op : Op} {floor : Option Stamp} (h : op.raises floor = true) :
    ∀ l, floor = some l → l < op.stamp := by
  rintro l rfl
  unfold raises at h
  rw [Bool.and_eq_true] at h
  simpa using h.2

theorem legacy_noted (op : Op) (m : Bookkeeping) :
    (op.noted m).legacy = if op.raises m.legacy then some op.stamp else m.legacy := by
  unfold noted
  cases hl : op.isLegacy with
  | true => rfl
  | false =>
    have hr : op.raises m.legacy = false := by simp [raises, hl]
    rw [hr]
    cases op.creates <;> rfl

theorem atOrBelow_noted {op : Op} (h : op.isLegacy = true) (m : Bookkeeping) :
    atOrBelowFloor (op.noted m).legacy op.stamp = true := by
  rw [noted_eq_join]
  obtain ⟨l, hl, hle⟩ :=
    (covered_join_right m op.book).legacy op.stamp (by simp [book, h])
  rw [hl]
  exact decide_eq_true hle

end Op

/-! ### The writes of one op -/

section

variable (c : Codec) (op : Op) (floor : Option Stamp)

theorem offerMember_same_stamp (d : Dag) (ms : List Member) {m n : Member}
    (h : n.stamp = m.stamp) :
    offerMember d floor (offerMember d floor ms m) n =
      offerMember d floor ms m := by
  unfold offerMember Antichain.insert
  simp only [h]
  split
  next => rfl
  next =>
    by_cases hsame : (ms.any fun k => k.stamp = m.stamp) = true
    · simp only [hsame, if_true]
    · by_cases hdom : (ms.any fun k => d.registerPrecedes m.stamp k.stamp) = true
      · simp only [hsame, hdom, if_true, if_false, Bool.false_eq_true]
      · simp [hsame, hdom]

abbrev afterWrites (ws : List Write) (w : Entity × Registers) : Entity × Registers :=
  ws.foldl (applyWrite c op floor) w

variable {c op floor}

/-- The writes touch neither the DAG, the bookkeeping nor the register rows, and the
registers in memory go on tracking those rows. -/
theorem afterWrites_frame (ws : List Write) (w : Entity × Registers) (t : RegisterTables)
    (ht : Registers.Tracks t w.2) :
    (afterWrites c op floor ws w).1.dag = w.1.dag ∧
      (afterWrites c op floor ws w).2.floor = w.2.floor ∧
      Registers.Tracks t (afterWrites c op floor ws w).2 := by
  induction ws generalizing w with
  | nil => exact ⟨rfl, rfl, ht⟩
  | cons x ws ih =>
    have hx : (applyWrite c op floor w x).1.dag = w.1.dag ∧
        (applyWrite c op floor w x).2.floor = w.2.floor ∧
        Registers.Tracks t (applyWrite c op floor w x).2 := by
      cases x with
      | offer field value => exact ⟨rfl, floor_offer _ _ _ _, ht.offer _ _ _⟩
      | add field element => exact ⟨by rw [applyWrite, addElement_eq], rfl, ht⟩
      | remove field element tag => exact ⟨rfl, rfl, ht⟩
      | delta field n => exact ⟨by rw [applyWrite, addDelta_eq], rfl, ht⟩
      | entry field key value => exact ⟨by rw [applyWrite, writeMapEntry_eq], rfl, ht⟩
    obtain ⟨hdag, hfloor, htracks⟩ := ih (applyWrite c op floor w x) hx.2.2
    exact ⟨hdag.trans hx.1, hfloor.trans hx.2.1, htracks⟩

theorem members_applyWrite (w : Entity × Registers) (x : Write) (field : String) :
    (applyWrite c op floor w x).2.members field =
      match offered field x with
      | some v => offerMember w.1.dag w.2.floor (w.2.members field)
          ⟨op.stamp, v.map c.enc, op.origin⟩
      | none => w.2.members field := by
  cases x with
  | offer g v =>
    show (offer _ _ _ _).members field = _
    rw [members_offer]
    unfold offered
    by_cases h : g = field
    · subst h
      simp
    · simp [h, Ne.symm h]
  | add _ _ => rfl
  | remove _ _ _ => rfl
  | delta _ _ => rfl
  | entry _ _ _ => rfl

theorem members_afterWrites (ws : List Write) (w : Entity × Registers) (t : RegisterTables)
    (ht : Registers.Tracks t w.2) (field : String) :
    (afterWrites c op floor ws w).2.members field =
      match ws.findSome? (offered field) with
      | some v => offerMember w.1.dag w.2.floor (w.2.members field)
          ⟨op.stamp, v.map c.enc, op.origin⟩
      | none => w.2.members field := by
  induction ws generalizing w with
  | nil => rfl
  | cons x ws ih =>
    obtain ⟨hdag, hfloor, htracks⟩ := afterWrites_frame [x] w t ht
    show (afterWrites c op floor ws (applyWrite c op floor w x)).2.members field = _
    rw [ih (applyWrite c op floor w x) htracks, members_applyWrite, List.findSome?_cons]
    have hdag' : (applyWrite c op floor w x).1.dag = w.1.dag := hdag
    have hfloor' : (applyWrite c op floor w x).2.floor = w.2.floor := hfloor
    rw [hdag', hfloor']
    cases hx : offered field x with
    | none => rfl
    | some v =>
      cases ws.findSome? (offered field) with
      | none => rfl
      | some v' => exact offerMember_same_stamp _ _ _ rfl

theorem find_maps_applyWrite (w : Entity × Registers) (x : Write) (k : String ×ₗ String) :
    (applyWrite c op floor w x).1.maps.find k =
      match Op.put k x with
      | some v => some (newer (w.1.maps.find k) ⟨c.enc v, op.stamp, op.origin⟩)
      | none => w.1.maps.find k := by
  cases x with
  | offer _ _ => rfl
  | add _ _ => rw [applyWrite, addElement_eq]; rfl
  | remove _ _ _ => rfl
  | delta _ _ => rw [applyWrite, addDelta_eq]; rfl
  | entry field key v =>
    rw [applyWrite, writeMapEntry_eq]
    show Table.find (Table.upsert _ _ _) k = _
    rw [Table.find_upsert]
    by_cases hk : k = toLex (field, key)
    · subst hk
      simp [Op.put]
    · simp [Op.put, hk, Ne.symm hk]

theorem find_maps_afterWrites (ws : List Write) (w : Entity × Registers) (k : String ×ₗ String) :
    (afterWrites c op floor ws w).1.maps.find k =
      match ws.reverse.findSome? (Op.put k) with
      | some v => some (newer (w.1.maps.find k) ⟨c.enc v, op.stamp, op.origin⟩)
      | none => w.1.maps.find k := by
  induction ws using List.reverseRecOn with
  | nil => rfl
  | append_singleton ws x ih =>
    rw [afterWrites, List.foldl_append, List.foldl_cons, List.foldl_nil, find_maps_applyWrite,
      ih, List.reverse_append, List.reverse_singleton, List.singleton_append, List.findSome?_cons]
    cases hx : Op.put k x with
    | none => rfl
    | some v =>
      cases ws.reverse.findSome? (Op.put k) with
      | none => rfl
      | some v' =>
        -- the earlier write of the op stands under the same stamp, or neither stands
        simp only [Option.some.injEq]
        cases hfind : w.1.maps.find k with
        | none => simp [newer, replaces_iff]
        | some h =>
          unfold newer
          simp only [replaces_iff]
          by_cases hle : h.stamp ≤ op.stamp
          · simp [hle]
          · simp [hle]

def addedKey (c : Codec) (op : Op) : Write → Option TagKey
  | .add field element => some (tagKey field (c.enc element) op.stamp.opRef)
  | _ => none

def removedKey (c : Codec) : Write → Option TagKey
  | .remove field element tag => some (tagKey field (c.enc element) tag)
  | _ => none

theorem adds_iff {k : TagKey} : op.Adds c k ↔ k ∈ op.writes.filterMap (addedKey c op) := by
  rw [List.mem_filterMap]
  constructor
  · rintro ⟨field, element, hx, rfl⟩
    exact ⟨_, hx, rfl⟩
  · rintro ⟨x, hx, hk⟩
    cases x with
    | add field element => exact ⟨field, element, hx, (Option.some.inj hk).symm⟩
    | _ => simp [addedKey] at hk

theorem removes_iff {k : TagKey} :
    op.Removes c k ↔ k ∈ op.writes.filterMap (removedKey c) := by
  rw [List.mem_filterMap]
  constructor
  · rintro ⟨field, element, tag, hx, rfl⟩
    exact ⟨_, hx, rfl⟩
  · rintro ⟨x, hx, hk⟩
    cases x with
    | remove field element tag => exact ⟨field, element, tag, hx, (Option.some.inj hk).symm⟩
    | _ => simp [removedKey] at hk

theorem find_adds_applyWrite (w : Entity × Registers) (x : Write) (k : TagKey) :
    (applyWrite c op floor w x).1.adds.find k =
      if addedKey c op x = some k ∧ belowFloor floor op.stamp = false then
        (w.1.adds.find k).or (some op.stamp.hlc)
      else w.1.adds.find k := by
  cases x with
  | offer _ _ => rfl
  | add field element =>
    rw [applyWrite, addElement_eq]
    cases hb : belowFloor floor op.stamp with
    | true => simp
    | false =>
      simp only [addedKey, Option.some.injEq, and_true, Bool.false_eq_true, if_false]
      rw [Table.find_insertOrIgnore]
      by_cases hk : k = tagKey field (c.enc element) op.stamp.opRef
      · subst hk
        cases w.1.adds.find (tagKey field (c.enc element) op.stamp.opRef) <;> simp
      · rw [if_neg hk, if_neg (Ne.symm hk)]
  | remove _ _ _ => rfl
  | delta _ _ => rw [applyWrite, addDelta_eq]; rfl
  | entry _ _ _ => rw [applyWrite, writeMapEntry_eq]; rfl

theorem find_adds_afterWrites (ws : List Write) (w : Entity × Registers) (k : TagKey) :
    (afterWrites c op floor ws w).1.adds.find k =
      if k ∈ ws.filterMap (addedKey c op) ∧ belowFloor floor op.stamp = false then
        (w.1.adds.find k).or (some op.stamp.hlc)
      else w.1.adds.find k := by
  induction ws generalizing w with
  | nil => simp
  | cons x ws ih =>
    show (afterWrites c op floor ws (applyWrite c op floor w x)).1.adds.find k = _
    rw [ih, find_adds_applyWrite]
    cases hb : belowFloor floor op.stamp with
    | true => simp
    | false =>
      rw [List.filterMap_cons]
      cases hx : addedKey c op x with
      | none => simp
      | some k' =>
        by_cases hk : k' = k
        · simp [hk]
        · have hmem : k ∈ k' :: ws.filterMap (addedKey c op) ↔ k ∈ ws.filterMap (addedKey c op) :=
            List.mem_cons.trans (or_iff_right (Ne.symm hk))
          simp only [hmem, Option.some.injEq, hk, false_and, if_false]

theorem find_removes_applyWrite (w : Entity × Registers) (x : Write) (k : TagKey) :
    (applyWrite c op floor w x).1.removes.find k =
      if removedKey c x = some k then some () else w.1.removes.find k := by
  cases x with
  | offer _ _ => rfl
  | add _ _ => rw [applyWrite, addElement_eq]; rfl
  | remove field element tag =>
    show Table.find (Table.insertOrIgnore _ _ _) k = _
    rw [Table.find_insertOrIgnore]
    simp only [removedKey, Option.some.injEq]
    by_cases hk : k = tagKey field (c.enc element) tag
    · rw [if_pos hk, if_pos hk.symm]
    · rw [if_neg hk, if_neg (Ne.symm hk)]
  | delta _ _ => rw [applyWrite, addDelta_eq]; rfl
  | entry _ _ _ => rw [applyWrite, writeMapEntry_eq]; rfl

theorem find_removes_afterWrites (ws : List Write) (w : Entity × Registers) (k : TagKey) :
    (afterWrites c op floor ws w).1.removes.find k =
      if k ∈ ws.filterMap (removedKey c) then some () else w.1.removes.find k := by
  induction ws generalizing w with
  | nil => simp
  | cons x ws ih =>
    show (afterWrites c op floor ws (applyWrite c op floor w x)).1.removes.find k = _
    rw [ih, find_removes_applyWrite]
    rw [List.filterMap_cons]
    cases hx : removedKey c x with
    | none => simp
    | some k' =>
      by_cases hk : k' = k
      · simp [hk]
      · have hmem : k ∈ k' :: ws.filterMap (removedKey c) ↔ k ∈ ws.filterMap (removedKey c) :=
          List.mem_cons.trans (or_iff_right (Ne.symm hk))
        simp only [hmem, Option.some.injEq, hk, if_false]

theorem find_deltas_applyWrite (w : Entity × Registers) (x : Write) (k : String ×ₗ OpRef) :
    (applyWrite c op floor w x).1.deltas.find k =
      if (ofLex k).2 = op.stamp.opRef ∧ atOrBelowFloor floor op.stamp = false then
        (w.1.deltas.find k).or ((added (ofLex k).1 x).map fun n => ⟨op.stamp.hlc, n⟩)
      else w.1.deltas.find k := by
  obtain ⟨⟨field, o⟩, rfl⟩ := toLex.surjective k
  simp only [ofLex_toLex]
  cases x with
  | offer _ _ => simp [applyWrite, added]
  | add _ _ => simp [applyWrite, addElement_eq, added]
  | remove _ _ _ => simp [applyWrite, removeElement, added]
  | delta g n =>
    rw [applyWrite, addDelta_eq]
    cases hb : atOrBelowFloor floor op.stamp with
    | true => simp
    | false =>
      simp only [Bool.false_eq_true, if_false, and_true]
      rw [Table.find_insertOrIgnore]
      by_cases ho : o = op.stamp.opRef
      · subst ho
        by_cases hg : g = field
        · subst hg
          cases w.1.deltas.find (toLex (g, op.stamp.opRef)) <;> simp [added]
        · simp [added, hg, Ne.symm hg]
      · have hne : (toLex (field, o) : String ×ₗ OpRef) ≠ toLex (g, op.stamp.opRef) := fun h =>
          ho (congrArg (fun k => (ofLex k).2) h)
        rw [if_neg hne, if_neg ho]
  | entry _ _ _ => simp [applyWrite, writeMapEntry_eq, added]

theorem find_deltas_afterWrites (ws : List Write) (w : Entity × Registers)
    (k : String ×ₗ OpRef) :
    (afterWrites c op floor ws w).1.deltas.find k =
      if (ofLex k).2 = op.stamp.opRef ∧ atOrBelowFloor floor op.stamp = false then
        (w.1.deltas.find k).or
          ((ws.findSome? (added (ofLex k).1)).map fun n => ⟨op.stamp.hlc, n⟩)
      else w.1.deltas.find k := by
  induction ws generalizing w with
  | nil => simp
  | cons x ws ih =>
    show (afterWrites c op floor ws (applyWrite c op floor w x)).1.deltas.find _ = _
    rw [ih, find_deltas_applyWrite, List.findSome?_cons]
    split
    next =>
      rw [Option.or_assoc]
      cases hx : added (ofLex k).1 x with
      | none => simp
      | some n => simp
    next => rfl

end

section

variable {c : Codec} {U : Share} {op : Op} {t : RegisterTables} {floor : Option Stamp}
  {w : Entity × Registers} (hU : U.WellFormed) (hop : op.share c ≤ U)

include hop in
theorem Op.version_mem : op.version ∈ U.toHistory := hop.versions _ rfl

include hU hop in
theorem Op.offer_of_member (hheld : op.stamp ∈ w.1.dag.held)
    (hfloor : op.isLegacy = true → atOrBelowFloor floor op.stamp = true) {field : String}
    {m : Member} (hm : op.member c field = some m) : Offer U w.1.dag floor field m := by
  have hstamp := stamp_of_member hm
  refine ⟨hop.members field m hm, hstamp ▸ hheld, fun hleg => ?_⟩
  rw [hstamp] at hleg ⊢
  obtain ⟨v, hv, heq, hl⟩ := hleg
  obtain rfl := hU.valid.distinct v hv op.version (version_mem hop)
    (by rw [heq, stamp_version])
  exact hfloor (Op.kind_version_iff.mp hl)

include hU hop in
theorem written_afterWrites (h : Working U t floor w) (hheld : op.stamp ∈ w.1.dag.held)
    (hfloor : op.isLegacy = true → atOrBelowFloor floor op.stamp = true) :
    Written U t floor w (afterWrites c op floor op.writes w) := by
  obtain ⟨hdag, hsame, htracks⟩ := afterWrites_frame (c := c) op.writes w t h.tracks
  refine ⟨hdag, htracks, hsame, fun field => ?_, fun k => ?_, fun k => ?_, fun k => ?_,
    fun k => ?_⟩
  · rw [members_afterWrites op.writes w t h.tracks]
    cases hv : op.writes.findSome? (offered field) with
    | none => exact .inl rfl
    | some v =>
      refine .inr ⟨⟨op.stamp, v.map c.enc, op.origin⟩, ?_, by rw [h.atFloor]⟩
      exact offer_of_member hU hop hheld hfloor (by rw [member, hv, Option.map_some])
  · rw [find_maps_afterWrites]
    cases hv : op.writes.reverse.findSome? (Op.put k) with
    | none => exact .inl rfl
    | some v =>
      refine .inr ⟨_, hop.entries k _ ?_, rfl⟩
      show op.entry c k = _
      rw [entry, hv, Option.map_some]
  · rw [find_adds_afterWrites]
    split
    next hk =>
      have hadds : op.Adds c k := adds_iff.mpr hk.1
      refine .inr ⟨op.stamp.hlc, hop.adds k _ ⟨hadds, rfl⟩, ?_, rfl⟩
      rw [addStamp_of_adds hadds]
      exact hk.2
    next => exact .inl rfl
  · rw [find_removes_afterWrites]
    split
    next hk => exact .inr ⟨hop.removes k (removes_iff.mpr hk), rfl⟩
    next => exact .inl rfl
  · rw [find_deltas_afterWrites]
    split
    next hr =>
      cases hn : op.writes.findSome? (added (ofLex k).1) with
      | none => exact .inl (by simp)
      | some n =>
        refine .inr ⟨⟨op.stamp.hlc, n⟩, hop.deltas k _ ⟨hr.1, ?_⟩, ?_, rfl⟩
        · rw [delta, hn, Option.map_some]
        · have hstamp : deltaStamp k ⟨op.stamp.hlc, n⟩ = op.stamp := by rw [deltaStamp, hr.1]; rfl
          rw [hstamp]
          exact hr.2
    next => exact .inl rfl

include hU hop in
theorem covered_afterWrites (h : Working U t floor w) (hheld : op.stamp ∈ w.1.dag.held)
    (hfloor : op.isLegacy = true → atOrBelowFloor floor op.stamp = true) :
    WorkingCovered U floor (afterWrites c op floor op.writes w) (op.share c) := by
  obtain ⟨hdag, -, -⟩ := afterWrites_frame (c := c) op.writes w t h.tracks
  refine ⟨?_, fun s dev a hs => hs.elim, fun field m hm => ?_, fun k row hrow => ?_,
    fun k hlc hk => ?_, fun k row hrow => ?_⟩
  · rintro s ⟨v, rfl, rfl⟩
    rw [hdag, stamp_version]
    exact hheld
  · have hoff := offer_of_member hU hop hheld hfloor hm
    have hcov := h.regs.covered_offered hU h.dag hoff
    have hm' : op.member c field = some m := hm
    rw [member, Option.map_eq_some_iff] at hm'
    obtain ⟨v, hv, rfl⟩ := hm'
    rw [members_afterWrites op.writes w t h.tracks, hv, h.atFloor]
    exact hcov
  · have hrow' : op.entry c k = some row := hrow
    rw [entry, Option.map_eq_some_iff] at hrow'
    obtain ⟨v, hv, rfl⟩ := hrow'
    rw [find_maps_afterWrites, hv]
    exact ⟨_, rfl, (le_newer _ _).1⟩
  · obtain ⟨hadds, rfl⟩ := hk
    rw [addStamp_of_adds hadds]
    cases hb : belowFloor floor op.stamp with
    | true => exact .inl rfl
    | false =>
      refine .inr ?_
      rw [find_adds_afterWrites, if_pos ⟨adds_iff.mp hadds, hb⟩]
      cases hfind : w.1.adds.find k with
      | none => rfl
      | some hlc =>
        rw [Option.some_or, hU.add k hlc (h.adds k hlc hfind).1 _ (hop.adds k _ ⟨hadds, rfl⟩)]
  · obtain ⟨href, hn⟩ := hrow
    obtain ⟨n, hn', rfl⟩ := Option.map_eq_some_iff.mp hn
    have hstamp : deltaStamp k ⟨op.stamp.hlc, n⟩ = op.stamp := by rw [deltaStamp, href]; rfl
    rw [hstamp]
    cases hb : atOrBelowFloor floor op.stamp with
    | true => exact .inl rfl
    | false =>
      refine .inr ?_
      have hn'' : op.writes.findSome? (added (ofLex k).1) = some n := hn'
      rw [find_deltas_afterWrites, if_pos ⟨href, hb⟩, hn'', Option.map_some]
      cases hfind : w.1.deltas.find k with
      | none => rfl
      | some row =>
        rw [Option.some_or,
          hU.delta k row (h.deltas k row hfind).1 _ (hop.deltas k _ ⟨href, hn⟩)]

theorem removesCovered_afterWrites (c : Codec) (op : Op) (floor : Option Stamp)
    (w : Entity × Registers) :
    RemovesCovered (afterWrites c op floor op.writes w).1.removes (op.share c) := by
  intro k hk
  rw [find_removes_afterWrites, if_pos (removes_iff.mp hk)]

end

/-! ### The whole fold -/

namespace Entity

def bookFor (e : Entity) (op : Op) : Bookkeeping :=
  (e.book.map (·.2)).getD (fresh op.stamp)

/-- The rows and the registers, ready for the writes of an op: its version admitted
and the floor raised. -/
def ready (e : Entity) (op : Op) : Entity × Registers :=
  let admitted := e.dag.admitVersion op.version
  let e₁ := { e with dag := admitted.1 }
  let r₁ := registersAfter e₁ (e.bookFor op).legacy admitted.2
  if op.raises (e.bookFor op).legacy then (e₁.pruneBelowFloor op.stamp, r₁.raiseFloor op.stamp)
  else (e₁, r₁)

/-- The rows and the registers with the writes made. -/
def merged (c : Codec) (e : Entity) (op : Op) : Entity × Registers :=
  afterWrites c op (op.noted (e.bookFor op)).legacy op.writes (e.ready op)

theorem foldLegacy_eq (c : Codec) {op : Op} (h : op.isLegacy = true) (e : Entity)
    (m : Bookkeeping) (regs : Registers) :
    foldLegacy c op e m regs =
      let w := afterWrites c op (op.noted m).legacy op.writes
        (if op.raises m.legacy then (e.pruneBelowFloor op.stamp, regs.raiseFloor op.stamp)
        else (e, regs))
      (w.1, op.noted m, w.2) := by
  have hcreates : op.creates = true := by
    unfold creates
    cases hb : op.body with
    | patch _ _ _ _ _ => simp [isLegacy, hb] at h
    | legacy _ _ _ => rfl
  obtain ⟨created, create, legacy, patchMs, head⟩ := m
  cases legacy with
  | none =>
    simp [foldLegacy, noted, raises, h, hcreates, noteCreate, note]
  | some l =>
    by_cases hlt : l < op.stamp
    · simp [foldLegacy, noted, raises, h, hcreates, noteCreate,
        note, hlt]
    · simp [foldLegacy, noted, raises, h, hcreates, noteCreate,
        note, hlt]

theorem foldPatch_eq (c : Codec) {op : Op} (h : op.isLegacy = false) (e : Entity)
    (m : Bookkeeping) (regs : Registers) :
    foldPatch c op op.creates e m regs =
      let w := afterWrites c op (op.noted m).legacy op.writes
        (if op.raises m.legacy then (e.pruneBelowFloor op.stamp, regs.raiseFloor op.stamp)
        else (e, regs))
      (w.1, op.noted m, w.2) := by
  have hraises : op.raises m.legacy = false := by simp [raises, h]
  unfold foldPatch
  rw [hraises]
  unfold noted
  rw [h]
  rfl

theorem mergeEntity_eq (c : Codec) (op : Op) (e : Entity) :
    mergeEntity c op e =
      { (e.merged c op).1 with
        regs := (e.merged c op).2.flush c op.spec e.regs
        book := some ((e.book.map (·.1)).getD op.target.kind, op.noted (e.bookFor op)) } := by
  unfold mergeEntity
  cases hb : op.body with
  | patch create generated parents group fields =>
    have hl : op.isLegacy = false := by rw [isLegacy, hb]
    have hc : op.creates = create := by rw [creates, hb]
    simp only
    rw [← hc, foldPatch_eq c hl]
    rfl
  | legacy cls state group =>
    have hl : op.isLegacy = true := by rw [isLegacy, hb]
    simp only
    rw [foldLegacy_eq c hl]
    rfl

theorem legacy_bookFor (e : Entity) (op : Op) : (e.bookFor op).legacy = e.floor := by
  unfold bookFor floor
  cases e.book with
  | none => rfl
  | some p => rfl

section

variable {c : Codec} {U P : Share} {e : Entity} {op : Op}

theorem Sound.bookFor {kind : EntityKind} (h : e.Sound c kind U) (hop : op.share c ≤ U) :
    (op.noted (e.bookFor op)).Sound U.books := by
  have hbook : op.book ∈ U.books := hop.books _ rfl
  rw [Op.noted_eq_join]
  unfold Entity.bookFor
  cases hb : e.book with
  | none =>
    refine Bookkeeping.Sound.join ⟨?_, ?_, ?_, ?_, ⟨op.book, hbook, rfl⟩⟩
      (Bookkeeping.sound_of_mem hbook)
    all_goals simp [Bookkeeping.fresh]
  | some p => exact (h.book p.1 p.2 hb).2.join (Bookkeeping.sound_of_mem hbook)

theorem refreshed_admitVersion {V : History} {d : Dag} {v : Version} (hV : V.Valid)
    (hd : d.Consistent V) (hv : v ∈ V) :
    Refreshed d (d.admitVersion v).1 (d.admitVersion v).2.refined := by
  have hheld : d.held ⊆ (d.admitVersion v).1.held := fun s hs =>
    (Dag.held_admitVersion d v s (hd.rows.stampOf_eq hV hv)).mpr (.inr hs)
  cases hnew : d.stampOf v.stamp.opRef with
  | some t =>
    rw [Dag.admitVersion_of_held hnew]
    exact ⟨fun s hs => hs, fun s _ => Frontier.Below.refl _, .inr fun s _ => rfl⟩
  | none =>
    cases hlate : d.arrivedLate v.stamp with
    | true =>
      have hgrows := (Dag.consistent_late hV hd hv hnew hlate).2
      rw [Dag.admitVersion_of_late hnew hlate] at hheld hgrows ⊢
      exact ⟨hheld, hgrows, .inl rfl⟩
    | false =>
      have hsame : ∀ s ∈ d.held, (d.extend v).frontierAt s = d.frontierAt s := fun s hs => by
        refine Dag.frontierAt_extend_of_ne d v fun heq => ?_
        rw [← heq, show d.stampOf s.opRef = some s from hs] at hnew
        simp at hnew
      rw [Dag.admitVersion_of_not_late hnew hlate] at hheld ⊢
      refine ⟨hheld, fun s hs => ?_, .inr hsame⟩
      show (d.frontierAt s).Below ((d.extend v).frontierAt s)
      rw [hsame s hs]
      exact Frontier.Below.refl _

variable (hU : U.WellFormed) (hop : op.share c ≤ U) (h : e.Sound c op.target.kind U)

include h in
theorem Sound.kind_merge : (e.book.map (·.1)).getD op.target.kind = op.target.kind := by
  cases hb : e.book with
  | none => rfl
  | some p => exact (h.book p.1 p.2 hb).1

include hU hop h

theorem Sound.held_ready (s : Stamp) :
    s ∈ (e.ready op).1.dag.held ↔ s = op.stamp ∨ s ∈ e.dag.held := by
  have hdag : (e.ready op).1.dag = (e.dag.admitVersion op.version).1 := by
    unfold ready
    split <;> rfl
  rw [hdag, Dag.held_admitVersion _ _ _ (h.dag.rows.stampOf_eq hU.valid (version_mem hop)),
    stamp_version]

theorem Sound.consistent_admitVersion :
    (e.dag.admitVersion op.version).1.Consistent U.toHistory :=
  Dag.consistent_admitVersion hU.valid h.dag (version_mem hop)
    (hop.merged _ (stamp_version op))

theorem Sound.ready :
    Working U e.regs (op.noted (e.bookFor op)).legacy (e.ready op) := by
  have hload := h.working (h.consistent_admitVersion hU hop)
    (refreshed_admitVersion hU.valid h.dag (Op.version_mem hop))
  rw [Op.legacy_noted]
  unfold Entity.ready
  rw [legacy_bookFor]
  split
  next hr => exact hload.raised (Op.lt_of_raises hr)
  next => exact hload

theorem CoveredButRemoves.ready (hc : e.CoveredButRemoves U P) :
    WorkingCovered U (op.noted (e.bookFor op)).legacy (e.ready op) P := by
  have hload := hc.working h (h.consistent_admitVersion hU hop)
    (refreshed_admitVersion hU.valid h.dag (Op.version_mem hop))
  rw [Op.legacy_noted]
  unfold Entity.ready
  rw [legacy_bookFor]
  split
  next hr => exact hload.raised (Op.lt_of_raises hr)
  next => exact hload

theorem Sound.written_merged :
    Written U e.regs (op.noted (e.bookFor op)).legacy (e.ready op) (e.merged c op) :=
  written_afterWrites hU hop (h.ready hU hop) ((h.held_ready hU hop _).mpr (.inl rfl)) fun hl =>
    atOrBelow_noted hl _

/-- **Folding an op keeps the state sound.** -/
theorem Sound.merge : Sound c op.target.kind U (mergeEntity c op e) := by
  rw [mergeEntity_eq, h.kind_merge]
  exact ((h.ready hU hop).written (h.written_merged hU hop)).sound_flush hU h.normal
    (h.bookFor hop) rfl

/-- **Folding an op covers it.** -/
theorem Sound.covered_merge : Covered U (mergeEntity c op e) (op.share c) := by
  have hw := (h.ready hU hop).written (h.written_merged hU hop)
  have hc := covered_afterWrites hU hop (h.ready hU hop)
    ((h.held_ready hU hop _).mpr (.inl rfl)) fun hl => atOrBelow_noted hl _
  rw [mergeEntity_eq, h.kind_merge]
  refine ⟨hc.flush hU hw h.normal (h.bookFor hop) rfl ?_, removesCovered_afterWrites c op _ _⟩
  rintro b rfl
  rw [noted_eq_join]
  exact covered_join_right _ _

theorem CoveredButRemoves.merge (hc : CoveredButRemoves U e P) :
    CoveredButRemoves U (mergeEntity c op e) P := by
  have hw := (h.ready hU hop).written (h.written_merged hU hop)
  have hc' := (hc.ready hU hop h).written (h.ready hU hop) (h.written_merged hU hop)
  rw [mergeEntity_eq, h.kind_merge]
  refine hc'.flush hU hw h.normal (h.bookFor hop) rfl fun b hb => ?_
  obtain ⟨k, m, hbook, hm⟩ := hc.book b hb
  have hfor : e.bookFor op = m := by rw [bookFor, hbook]; rfl
  rw [noted_eq_join, hfor]
  exact hm.trans (covered_join_left _ _)

/-- **What was covered stays covered.** -/
theorem Covered.merge (hc : Covered U e P) : Covered U (mergeEntity c op e) P := by
  refine ⟨hc.toCoveredButRemoves.merge hU hop h, ?_⟩
  have hw := (h.written_merged hU hop).removes
  have hready : (e.ready op).1.removes = e.removes := by
    unfold ready
    split <;> rfl
  rw [mergeEntity_eq]
  exact hc.removes.written (hready ▸ hw)

end

end Entity

end Sunrise
