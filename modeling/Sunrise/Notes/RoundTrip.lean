import Sunrise.Notes.Body

/-!
# Note bodies survive

The blocks a body is read as are those it was written from, if their lists do not go deeper than
they are followed; and of the bodies that may be written back each is the only one of its blocks.

* `note_bodies_survive` — **a document is read back as it was written, and saving a note that was
  not edited writes back the bytes it was read from.**
-/

namespace Sunrise

namespace Notes

open Cbor (Item)

variable {cbor : Cbor.Codec}

/-! ### Marks -/

theorem sortDedup_of_sorted {marks : List Mark}
    (h : marks.Pairwise fun m n => m.rank < n.rank) : Mark.sortDedup marks = marks := by
  have hsort : (marks.insertionSort fun m n => m.rank ≤ n.rank) = marks :=
    (h.imp fun hlt => hlt.le).insertionSort_eq
  rw [Mark.sortDedup, hsort]
  exact List.destutter_of_isChain _ _
    (h.imp fun hlt heq => absurd (heq ▸ hlt) (lt_irrefl _)).isChain

theorem length_le_of_sorted {marks : List Mark}
    (h : marks.Pairwise fun m n => m.rank < n.rank) : marks.length ≤ 5 := by
  have hnodup : (marks.map Mark.rank).Nodup := List.pairwise_map.mpr (h.imp fun hlt => hlt.ne)
  have hsub : marks.map Mark.rank ⊆ List.range 5 := by
    intro r hr
    obtain ⟨m, -, rfl⟩ := List.mem_map.mp hr
    cases m <;> decide
  have hle := (hnodup.subperm hsub).length_le
  rwa [List.length_map, List.length_range] at hle

theorem filterMap_fromWire (marks : List Mark) :
    ((marks.map fun m => textItem m.asStr).filterMap itemText).filterMap Mark.fromWire = marks := by
  induction marks with
  | nil => rfl
  | cons m marks ih =>
    rw [List.map_cons, List.filterMap_cons_some (itemText_textItem _),
      List.filterMap_cons_some (Mark.fromWire_asStr m), ih]

/-! ### Entries by name -/

@[simp] theorem canonicalize_scalar (s : Cbor.Scalar) :
    canonicalize cbor (.scalar s) = .scalar s := rfl

@[simp] theorem canonicalize_textItem (s : String) :
    canonicalize cbor (textItem s) = textItem s := rfl

@[simp] theorem canonicalize_intItem (n : ℕ) : canonicalize cbor (intItem n) = intItem n := rfl

theorem canonicalize_array (items : List Item) :
    canonicalize cbor (.array items) = .array (items.map (canonicalize cbor)) := by
  rw [canonicalize, canonicalizeItems_eq]

theorem entry_named (es : List (String × Item)) (name : String) :
    entry (es.map fun e => (textItem e.1, e.2)) name = Table.lookup name es := by
  induction es with
  | nil => rfl
  | cons e es ih =>
    obtain ⟨k, v⟩ := e
    rw [List.map_cons, entry, List.find?_cons, Table.lookup_cons]
    by_cases hk : name = k
    · rw [if_pos hk, hk, itemText_textItem, decide_eq_true rfl]
      rfl
    · rw [if_neg hk, itemText_textItem,
        decide_eq_false fun heq => hk (Option.some.inj heq).symm]
      exact ih

theorem lookup_map (f : Item → Item) (es : List (String × Item)) (name : String) :
    Table.lookup name (es.map fun e => (e.1, f e.2)) = (Table.lookup name es).map f := by
  induction es with
  | nil => rfl
  | cons e es ih =>
    rw [List.map_cons, Table.lookup_cons, ih, ← Prod.mk.eta (p := e), Table.lookup_cons]
    split <;> rfl

theorem entry_canonicalize (cbor : Cbor.Codec) (es : List (String × Item))
    (hnodup : (es.map Prod.fst).Nodup) :
    ∃ map, canonicalize cbor (namedMap es) = .map map ∧
      ∀ name, entry map name = (Table.lookup name es).map (canonicalize cbor) := by
  obtain ⟨fs, hfs, hperm⟩ := canonicalize_namedMap cbor es
  refine ⟨_, hfs, fun name => ?_⟩
  rw [entry_named, ← lookup_map]
  refine lookup_of_perm hperm ?_
  rw [List.map_map]
  exact hnodup

/-! ### A block from its canonical form -/

theorem arrayAt_of_entry {map : List (Item × Item)} {name : String} {items : List Item}
    (h : entry map name = some (canonicalize cbor (.array items))) :
    arrayAt map name = items.map (canonicalize cbor) := by
  rw [arrayAt, h, canonicalize_array]
  rfl

theorem filterMap_canonicalize {α : Type} {read : Item → Option α} {write : α → Item} {l : List α}
    (h : ∀ a ∈ l, read (canonicalize cbor (write a)) = some a) :
    ((l.map write).map (canonicalize cbor)).filterMap read = l := by
  induction l with
  | nil => rfl
  | cons a l ih =>
    rw [List.map_cons, List.map_cons, List.filterMap_cons_some (h a List.mem_cons_self),
      ih fun b hb => h b (List.mem_cons_of_mem _ hb)]

theorem inlineFromValue_canonicalize {i : Inline} (h : i.MarksSorted) :
    inlineFromValue (canonicalize cbor (inlineToValue i)) = some i := by
  cases i with
  | text s marks =>
    by_cases hmarks : marks = []
    · obtain ⟨map, hmap, hentry⟩ := entry_canonicalize cbor [("text", textItem s)]
        (by simp)
      rw [inlineToValue, if_pos hmarks, hmap]
      simp [inlineFromValue, itemMap, textAt, arrayAt, hentry, Table.lookup_cons, hmarks]
    · obtain ⟨map, hmap, hentry⟩ := entry_canonicalize cbor
        [("text", textItem s), ("marks", .array (marks.map fun m => textItem m.asStr))]
        (by simp)
      have hread : ((arrayAt map "marks").filterMap itemText).filterMap Mark.fromWire = marks := by
        rw [arrayAt_of_entry (hentry "marks"), List.map_map]
        exact filterMap_fromWire marks
      rw [inlineToValue, if_neg hmarks, sortDedup_of_sorted h, hmap]
      simp [inlineFromValue, itemMap, textAt, hentry, Table.lookup_cons, hread]
  | link href label =>
    obtain ⟨map, hmap, hentry⟩ := entry_canonicalize cbor [("kind", textItem "link"),
      ("href", textItem href), ("label", textItem label)] (by simp)
    rw [inlineToValue, hmap]
    simp [inlineFromValue, itemMap, textAt, hentry, Table.lookup_cons]
  | ref target =>
    obtain ⟨map, hmap, hentry⟩ := entry_canonicalize cbor
      [("kind", textItem "ref"), ("ref", textItem target)] (by simp)
    rw [inlineToValue, hmap]
    simp [inlineFromValue, itemMap, textAt, hentry, Table.lookup_cons]
  | mention person =>
    obtain ⟨map, hmap, hentry⟩ := entry_canonicalize cbor
      [("kind", textItem "mention"), ("person", textItem person)] (by simp)
    rw [inlineToValue, hmap]
    simp [inlineFromValue, itemMap, textAt, hentry, Table.lookup_cons]
  | redacted reason placeholderText =>
    obtain ⟨map, hmap, hentry⟩ := entry_canonicalize cbor [("kind", textItem "redacted"),
      ("reason", textItem reason), ("placeholder_text", textItem placeholderText)] (by simp)
    rw [inlineToValue, hmap]
    simp [inlineFromValue, itemMap, textAt, hentry, Table.lookup_cons]

theorem inlineAt_of_entry {map : List (Item × Item)} {name : String} {inline : List Inline}
    (h : entry map name = some (canonicalize cbor (inlineSeq inline)))
    (hmarks : ∀ i ∈ inline, i.MarksSorted) : inlineAt map name = inline := by
  rw [inlineAt, arrayAt_of_entry h]
  exact filterMap_canonicalize fun i hi => inlineFromValue_canonicalize (hmarks i hi)

theorem checklistItemFromValue_canonicalize {item : ChecklistItem}
    (h : ∀ i ∈ item.inline, i.MarksSorted) :
    checklistItemFromValue (canonicalize cbor (checklistItemToValue item)) = some item := by
  obtain ⟨map, hmap, hentry⟩ := entry_canonicalize cbor
    [("checked", .scalar (.bool item.checked)), ("inline", inlineSeq item.inline)] (by simp)
  have hinline := inlineAt_of_entry (hentry "inline") h
  rw [checklistItemToValue, hmap]
  simp [checklistItemFromValue, itemMap, hentry, Table.lookup_cons, hinline, itemBool]

theorem listItemFromValue_canonicalize {item : ListItem} {read : Item → Option NoteBlock}
    (h : ∀ i ∈ item.inline, i.MarksSorted)
    (hchildren : ∀ b ∈ item.children, read (canonicalize cbor (blockToValue b)) = some b) :
    listItemFromValue (fun children => children.filterMap read)
      (canonicalize cbor (listItemToValue item)) = some item := by
  obtain ⟨inline, children⟩ := item
  cases children with
  | nil =>
    obtain ⟨map, hmap, hentry⟩ := entry_canonicalize cbor [("inline", inlineSeq inline)]
      (by simp)
    have hinline := inlineAt_of_entry (hentry "inline") h
    have hnone : arrayAt map "children" = [] := by
      rw [arrayAt, hentry]
      rfl
    rw [listItemToValue, hmap]
    simp [listItemFromValue, itemMap, hinline, hnone]
  | cons b bs =>
    obtain ⟨map, hmap, hentry⟩ := entry_canonicalize cbor [("inline", inlineSeq inline),
      ("children", .array ((b :: bs).map blockToValue))] (by simp)
    have hinline := inlineAt_of_entry (hentry "inline") h
    have hread : (arrayAt map "children").filterMap read = b :: bs := by
      rw [arrayAt_of_entry (hentry "children")]
      exact filterMap_canonicalize hchildren
    rw [listItemToValue, blocksToValues_eq, ← List.map_cons, hmap]
    simp [listItemFromValue, itemMap, hinline, hread]

theorem itemI64_intItem (l : HeadingLevel) : itemI64 (intItem l.asU8) = some (l.asU8 : ℤ) := by
  cases l <;> rfl

theorem marksSorted_list {ordered : Bool} {items : List ListItem} :
    (NoteBlock.list ordered items).MarksSorted ↔
      ∀ item ∈ items, (∀ i ∈ item.inline, i.MarksSorted) ∧ ∀ b ∈ item.children, b.MarksSorted := by
  unfold NoteBlock.MarksSorted
  rw [forall_nodes_list, NoteBlock.inlineSeqs, List.forall_mem_map, ← forall_and]
  exact forall_congr' fun item => by rw [← imp_and]

theorem blockWith_canonicalize {b : NoteBlock} {read : Item → Option ListItem}
    (hmarks : ∀ inline ∈ b.inlineSeqs, ∀ i ∈ inline, i.MarksSorted)
    (hlist : ∀ ordered items, b = .list ordered items →
      ∀ item ∈ items, read (canonicalize cbor (listItemToValue item)) = some item) :
    blockWith read (canonicalize cbor (blockToValue b)) = some b := by
  cases b with
  | paragraph inline =>
    obtain ⟨map, hmap, hentry⟩ := entry_canonicalize cbor
      [("kind", textItem "p"), ("inline", inlineSeq inline)] (by simp)
    have hinline := inlineAt_of_entry (hentry "inline") (hmarks inline List.mem_cons_self)
    rw [blockToValue, hmap]
    simp [blockWith, itemMap, textAt, hentry, Table.lookup_cons, hinline]
  | heading level inline =>
    obtain ⟨map, hmap, hentry⟩ := entry_canonicalize cbor [("kind", textItem "h"),
      ("level", intItem level.asU8), ("inline", inlineSeq inline)] (by simp)
    have hinline := inlineAt_of_entry (hentry "inline") (hmarks inline List.mem_cons_self)
    have hlevel : entry map "level" = some (intItem level.asU8) := hentry "level"
    have hread : (entry map "level").bind itemI64 = some (level.asU8 : ℤ) := by
      rw [hlevel, Option.bind_some, itemI64_intItem]
    rw [blockToValue, hmap]
    simp [blockWith, itemMap, textAt, hentry "kind", Table.lookup_cons, hinline, hread]
  | list ordered items =>
    obtain ⟨map, hmap, hentry⟩ := entry_canonicalize cbor
      [("kind", textItem (if ordered then "ol" else "ul")),
        ("items", .array (items.map listItemToValue))] (by simp)
    have hitems : (arrayAt map "items").filterMap read = items := by
      rw [arrayAt_of_entry (hentry "items")]
      exact filterMap_canonicalize (hlist ordered items rfl)
    rw [blockToValue, listItemsToValues_eq, hmap]
    cases ordered <;> simp [blockWith, itemMap, textAt, hentry, Table.lookup_cons, hitems]
  | checklist items =>
    obtain ⟨map, hmap, hentry⟩ := entry_canonicalize cbor [("kind", textItem "task"),
      ("items", .array (items.map checklistItemToValue))] (by simp)
    have hitems : (arrayAt map "items").filterMap checklistItemFromValue = items := by
      rw [arrayAt_of_entry (hentry "items")]
      refine filterMap_canonicalize fun item hitem => checklistItemFromValue_canonicalize ?_
      exact hmarks item.inline (List.mem_map_of_mem hitem)
    rw [blockToValue, hmap]
    simp [blockWith, itemMap, textAt, hentry, Table.lookup_cons, hitems]
  | code language content =>
    obtain ⟨map, hmap, hentry⟩ := entry_canonicalize cbor
      ([("kind", textItem "code"), ("content", textItem content)] ++
        (language.map fun l => ("language", textItem l)).toList) (by cases language <;> simp)
    rw [blockToValue, hmap]
    cases language <;> simp [blockWith, itemMap, textAt, hentry, Table.lookup_cons]
  | quote inline =>
    obtain ⟨map, hmap, hentry⟩ := entry_canonicalize cbor
      [("kind", textItem "quote"), ("inline", inlineSeq inline)] (by simp)
    have hinline := inlineAt_of_entry (hentry "inline") (hmarks inline List.mem_cons_self)
    rw [blockToValue, hmap]
    simp [blockWith, itemMap, textAt, hentry, Table.lookup_cons, hinline]
  | divider =>
    obtain ⟨map, hmap, hentry⟩ := entry_canonicalize cbor [("kind", textItem "hr")] (by simp)
    rw [blockToValue, hmap]
    simp [blockWith, itemMap, textAt, hentry, Table.lookup_cons]

/-- A block is read back from its canonical form, if its lists do not go below what is followed. -/
theorem blockFromValue_canonicalize {b : NoteBlock} {below : ℕ} (hnest : b.nesting ≤ below)
    (hmarks : b.MarksSorted) :
    blockFromValue below (canonicalize cbor (blockToValue b)) = some b := by
  have hown : ∀ b : NoteBlock, b.MarksSorted →
      ∀ inline ∈ b.inlineSeqs, ∀ i ∈ inline, i.MarksSorted := fun b h => h b b.mem_nodes_self
  induction b generalizing below with
  | list ordered items ih =>
    have hitems := marksSorted_list.mp hmarks
    cases below with
    | zero =>
      rw [NoteBlock.nesting] at hnest
      omega
    | succ below =>
      have hchildren := nesting_list_le.mp hnest
      rw [blockFromValue]
      refine blockWith_canonicalize (hown _ hmarks) ?_
      rintro _ _ ⟨⟩ item hitem
      refine listItemFromValue_canonicalize (hitems item hitem).1 fun b hb => ?_
      exact ih item hitem b hb (hchildren item hitem b hb) ((hitems item hitem).2 b hb)
  | _ =>
    unfold blockFromValue
    split <;> exact blockWith_canonicalize (hown _ hmarks) fun _ _ h => by cases h

/-! ### The bytes of a document -/

/-- An item has a byte form, of so many levels. -/
def Within (n : ℕ) (v : Item) : Prop := v.Regular ∧ v.depth ≤ n

variable {n : ℕ} {v : Item}

theorem Within.mono {m : ℕ} (h : Within n v) (hle : n ≤ m) : Within m v := ⟨h.1, h.2.trans hle⟩

theorem within_textItem {s : String} (h : FitsText s) (n : ℕ) : Within n (textItem s) :=
  ⟨Cbor.forall_nodes_scalar.mpr h, Nat.zero_le n⟩

theorem within_array {items : List Item} (hlen : items.length < 2 ^ 64)
    (h : ∀ v ∈ items, Within n v) : Within (n + 1) (.array items) :=
  ⟨Cbor.forall_nodes_array.mpr ⟨hlen, fun v hv => (h v hv).1⟩,
    Nat.succ_le_succ (Cbor.depthOfItems_le.mpr fun v hv => (h v hv).2)⟩

theorem within_namedMap {es : List (String × Item)} (hlen : es.length < 2 ^ 64)
    (h : ∀ e ∈ es, FitsText e.1 ∧ Within n e.2) : Within (n + 1) (namedMap es) := by
  have hentry : ∀ e ∈ es.map fun e => (textItem e.1, e.2), Within n e.1 ∧ Within n e.2 := by
    intro e he
    obtain ⟨f, hf, rfl⟩ := List.mem_map.mp he
    exact ⟨within_textItem (h f hf).1 n, (h f hf).2⟩
  refine ⟨Cbor.forall_nodes_map.mpr ⟨?_, fun e he => ⟨(hentry e he).1.1, (hentry e he).2.1⟩⟩,
    Nat.succ_le_succ (Cbor.depthOfEntries_le.mpr fun e he =>
      ⟨(hentry e he).1.2, (hentry e he).2.2⟩)⟩
  show (es.map _).length < 2 ^ 64
  rw [List.length_map]
  exact hlen

theorem within_inlineToValue {i : Inline} (h : i.Fits) (hmarks : i.MarksSorted) :
    Within 2 (inlineToValue i) := by
  cases i with
  | text s marks =>
    have htext : FitsText "text" ∧ Within 1 (textItem s) := ⟨by decide, within_textItem h 1⟩
    by_cases hnil : marks = []
    · rw [inlineToValue, if_pos hnil]
      exact within_namedMap (by simp) (List.forall_mem_cons.mpr ⟨htext, nofun⟩)
    · have harray : Within 1 (.array (marks.map fun m => textItem m.asStr)) := by
        refine within_array ?_ (List.forall_mem_map.mpr fun m _ => ?_)
        · rw [List.length_map]
          exact (length_le_of_sorted hmarks).trans_lt (by decide)
        · exact within_textItem (by cases m <;> decide) 0
      rw [inlineToValue, if_neg hnil, sortDedup_of_sorted hmarks]
      refine within_namedMap (by simp) ?_
      simp only [List.forall_mem_cons]
      exact ⟨htext, ⟨by decide, harray⟩, nofun⟩
  | link href label =>
    refine within_namedMap (by simp) ?_
    simp only [List.forall_mem_cons]
    exact ⟨⟨by decide, within_textItem (by decide) 1⟩, ⟨by decide, within_textItem h.1 1⟩,
      ⟨by decide, within_textItem h.2 1⟩, nofun⟩
  | ref target =>
    refine within_namedMap (by simp) ?_
    simp only [List.forall_mem_cons]
    exact ⟨⟨by decide, within_textItem (by decide) 1⟩, ⟨by decide, within_textItem h 1⟩, nofun⟩
  | mention person =>
    refine within_namedMap (by simp) ?_
    simp only [List.forall_mem_cons]
    exact ⟨⟨by decide, within_textItem (by decide) 1⟩, ⟨by decide, within_textItem h 1⟩, nofun⟩
  | redacted reason placeholderText =>
    refine within_namedMap (by simp) ?_
    simp only [List.forall_mem_cons]
    exact ⟨⟨by decide, within_textItem (by decide) 1⟩, ⟨by decide, within_textItem h.1 1⟩,
      ⟨by decide, within_textItem h.2 1⟩, nofun⟩

theorem within_inlineSeq {inline : List Inline}
    (h : inline.length < 2 ^ 64 ∧ ∀ i ∈ inline, i.Fits)
    (hmarks : ∀ i ∈ inline, i.MarksSorted) : Within 3 (inlineSeq inline) := by
  refine within_array ?_ (List.forall_mem_map.mpr fun i hi => ?_)
  · rw [List.length_map]
    exact h.1
  · exact within_inlineToValue (h.2 i hi) (hmarks i hi)

theorem within_checklistItemToValue {item : ChecklistItem} (h : Within 3 (inlineSeq item.inline)) :
    Within 4 (checklistItemToValue item) := by
  have hchecked : Within 3 (.scalar (.bool item.checked)) :=
    ⟨Cbor.forall_nodes_scalar.mpr trivial, Nat.zero_le 3⟩
  refine within_namedMap (by simp) ?_
  simp only [List.forall_mem_cons]
  exact ⟨⟨by decide, hchecked⟩, ⟨by decide, h⟩, nofun⟩

theorem within_listItemToValue {item : ListItem} (h : Within 3 (inlineSeq item.inline))
    (hlen : item.children.length < 2 ^ 64)
    (hchildren : ∀ b ∈ item.children, Within (n + 2) (blockToValue b)) :
    Within (n + 4) (listItemToValue item) := by
  obtain ⟨inline, children⟩ := item
  have hinline : Within (n + 3) (inlineSeq inline) := h.mono (Nat.le_add_left 3 n)
  cases children with
  | nil =>
    refine within_namedMap (by simp) ?_
    simp only [List.forall_mem_cons]
    exact ⟨⟨by decide, hinline⟩, nofun⟩
  | cons b bs =>
    have harray : Within (n + 3) (.array ((b :: bs).map blockToValue)) := by
      refine within_array ?_ (List.forall_mem_map.mpr hchildren)
      rw [List.length_map]
      exact hlen
    rw [listItemToValue, blocksToValues_eq, ← List.map_cons]
    refine within_namedMap (by simp) ?_
    simp only [List.forall_mem_cons]
    exact ⟨⟨by decide, hinline⟩, ⟨by decide, harray⟩, nofun⟩

theorem within_blockToValue {b : NoteBlock} (hnest : b.nesting ≤ n) (hfits : b.Fits)
    (hmarks : b.MarksSorted) : Within (4 * n + 6) (blockToValue b) := by
  have hown {b : NoteBlock} (hfits : b.Fits) (hmarks : b.MarksSorted) :
      ∀ inline ∈ b.inlineSeqs, Within 3 (inlineSeq inline) := fun inline hi =>
    within_inlineSeq ((hfits b b.mem_nodes_self).1 inline hi) (hmarks b b.mem_nodes_self inline hi)
  induction b generalizing n with
  | paragraph inline =>
    have hinline := (hown hfits hmarks inline List.mem_cons_self).mono
      (Nat.le_add_left 3 (4 * n + 2))
    refine within_namedMap (by simp) ?_
    simp only [List.forall_mem_cons]
    exact ⟨⟨by decide, within_textItem (by decide) _⟩, ⟨by decide, hinline⟩, nofun⟩
  | heading level inline =>
    have hinline := (hown hfits hmarks inline List.mem_cons_self).mono
      (Nat.le_add_left 3 (4 * n + 2))
    have hlevel := regular_intItem (show level.asU8 < 2 ^ 64 by cases level <;> decide)
    refine within_namedMap (by simp) ?_
    simp only [List.forall_mem_cons]
    exact ⟨⟨by decide, within_textItem (by decide) _⟩,
      ⟨by decide, hlevel.1, hlevel.2.le.trans (Nat.zero_le _)⟩, ⟨by decide, hinline⟩, nofun⟩
  | list ordered items ih =>
    obtain ⟨m, rfl⟩ : ∃ m, n = m + 1 :=
      Nat.exists_eq_succ_of_ne_zero (by rw [NoteBlock.nesting] at hnest; omega)
    have hnest := nesting_list_le.mp hnest
    have hsub := (forall_nodes_list.mp hfits).2
    obtain ⟨hlen, hitems⟩ := ((forall_nodes_list.mp hfits).1).2
    have harray : Within (4 * m + 9) (.array (items.map listItemToValue)) := by
      refine within_array (by rwa [List.length_map]) (List.forall_mem_map.mpr fun item hi => ?_)
      have hinline := hown hfits hmarks item.inline (List.mem_map_of_mem hi)
      refine within_listItemToValue hinline (hitems item hi) fun b hb => ?_
      exact ih item hi b hb (hnest item hi b hb) (hsub item hi b hb)
        ((marksSorted_list.mp hmarks item hi).2 b hb)
    rw [blockToValue, listItemsToValues_eq]
    refine within_namedMap (by simp) ?_
    simp only [List.forall_mem_cons]
    exact ⟨⟨by decide, within_textItem (by cases ordered <;> decide) _⟩, ⟨by decide, harray⟩, nofun⟩
  | checklist items =>
    have harray : Within (4 * n + 5) (.array (items.map checklistItemToValue)) := by
      have hlen : items.length < 2 ^ 64 := (hfits _ (NoteBlock.mem_nodes_self _)).2
      refine (within_array (by rwa [List.length_map]) (List.forall_mem_map.mpr fun item hi =>
        within_checklistItemToValue ?_)).mono (Nat.le_add_left 5 (4 * n))
      exact hown hfits hmarks item.inline (List.mem_map_of_mem hi)
    refine within_namedMap (by simp) ?_
    simp only [List.forall_mem_cons]
    exact ⟨⟨by decide, within_textItem (by decide) _⟩, ⟨by decide, harray⟩, nofun⟩
  | code language content =>
    obtain ⟨hlanguage, hcontent⟩ := (hfits _ (NoteBlock.mem_nodes_self _)).2
    cases language with
    | none =>
      refine within_namedMap (by simp) ?_
      simp only [List.append_nil, List.forall_mem_cons, Option.map_none, Option.toList_none]
      exact ⟨⟨by decide, within_textItem (by decide) _⟩,
        ⟨by decide, within_textItem hcontent _⟩, nofun⟩
    | some l =>
      refine within_namedMap (by simp) ?_
      simp only [List.cons_append, List.nil_append, List.forall_mem_cons, Option.map_some,
        Option.toList_some]
      exact ⟨⟨by decide, within_textItem (by decide) _⟩, ⟨by decide, within_textItem hcontent _⟩,
        ⟨by decide, within_textItem (hlanguage l rfl) _⟩, nofun⟩
  | quote inline =>
    have hinline := (hown hfits hmarks inline List.mem_cons_self).mono
      (Nat.le_add_left 3 (4 * n + 2))
    refine within_namedMap (by simp) ?_
    simp only [List.forall_mem_cons]
    exact ⟨⟨by decide, within_textItem (by decide) _⟩, ⟨by decide, hinline⟩, nofun⟩
  | divider =>
    refine within_namedMap (by simp) ?_
    simp only [List.forall_mem_cons]
    exact ⟨⟨by decide, within_textItem (by decide) _⟩, nofun⟩

theorem within_blocks {blocks : List NoteBlock} (hlen : blocks.length < 2 ^ 64)
    (h : ∀ b ∈ blocks, b.nesting < maxNestDepth ∧ b.Fits ∧ b.MarksSorted) :
    Within maxBodyCborDepth (.array (blocksToValues blocks)) := by
  have hwithin : Within 35 (.array (blocks.map blockToValue)) := by
    refine within_array (by rwa [List.length_map]) (List.forall_mem_map.mpr fun b hb => ?_)
    exact within_blockToValue (Nat.le_of_lt_succ (h b hb).1) (h b hb).2.1 (h b hb).2.2
  rw [blocksToValues_eq]
  exact hwithin.mono (by decide)

theorem decode_encode (hc : cbor.Lawful) {blocks : List NoteBlock} (hlen : blocks.length < 2 ^ 64)
    (h : ∀ b ∈ blocks, b.nesting < maxNestDepth ∧ b.Fits ∧ b.MarksSorted) :
    decode cbor (encode cbor blocks) = ⟨blocks, .exact⟩ := by
  obtain ⟨hreg, hdepth⟩ := within_blocks hlen h
  have hshuffle := @shuffle_canonicalize cbor (.array (blocksToValues blocks))
  have hread := hc.read_write _ (hshuffle.regular hreg) maxBodyCborDepth []
  rw [List.append_nil, if_pos (hshuffle.depth_le hdepth), canonicalize_array, blocksToValues_eq]
    at hread
  have hne : encode cbor blocks ≠ [] := hc.write_ne_nil (hshuffle.regular hreg)
  have hblocks : ((blocks.map blockToValue).map (canonicalize cbor)).filterMap
      (blockFromValue (maxNestDepth - 1)) = blocks := by
    refine filterMap_canonicalize fun b hb => ?_
    exact blockFromValue_canonicalize (Nat.le_of_lt_succ (h b hb).1) (h b hb).2.2
  have hencode : encode cbor blocks = cbor.write
      (.array ((blocks.map blockToValue).map (canonicalize cbor))) := by
    rw [encode, encodeCanonical, canonicalize_array, blocksToValues_eq]
  rw [← hencode] at hread
  unfold decode
  rw [if_neg hne, hread]
  dsimp only
  rw [hblocks, if_pos rfl]

theorem encode_of_exact {body : Bytes} (hne : body ≠ [])
    (h : (decode cbor body).fidelity = .exact) : encode cbor (decode cbor body).blocks = body := by
  unfold decode at h ⊢
  rw [if_neg hne] at h ⊢
  dsimp only at h ⊢
  by_contra hdiff
  rw [if_neg hdiff] at h
  exact absurd h nofun

/-! ### The main result -/

/-- **Note bodies survive.** A document whose lists go no deeper than they are followed, its marks
in their order, is read back as it was written, and may be written back; and of the bodies that may
be written back, the empty one aside, each is what its blocks are written as, and so the only one of
those blocks. -/
theorem note_bodies_survive (hc : cbor.Lawful) :
    (∀ blocks : List NoteBlock, blocks.length < 2 ^ 64 →
      (∀ b ∈ blocks, b.nesting < maxNestDepth ∧ b.Fits ∧ b.MarksSorted) →
      decode cbor (encode cbor blocks) = ⟨blocks, .exact⟩) ∧
    ∀ body : Bytes, body ≠ [] → (decode cbor body).fidelity = .exact →
      encode cbor (decode cbor body).blocks = body ∧
        ∀ other : Bytes, other ≠ [] → (decode cbor other).fidelity = .exact →
          (decode cbor other).blocks = (decode cbor body).blocks → other = body := by
  refine ⟨fun blocks hlen h => decode_encode hc hlen h, fun body hne h => ?_⟩
  have hbody := encode_of_exact hne h
  refine ⟨hbody, fun other hother hexact hblocks => ?_⟩
  rw [← encode_of_exact hother hexact, hblocks, hbody]

/-- One list in another, with a text in bold. -/
def nestedNote : List NoteBlock :=
  [.list false [⟨[.text "a" [.bold]], [.list true [⟨[], [.divider]⟩]]⟩]]

theorem note_bodies_survive_nested :
    decode Cbor.codec (encode Cbor.codec nestedNote) = ⟨nestedNote, .exact⟩ ∧
      encode Cbor.codec (decode Cbor.codec (encode Cbor.codec nestedNote)).blocks =
        encode Cbor.codec nestedNote := by
  have hfits : FitsText "a" := by decide
  have hdoc : ∀ b ∈ nestedNote, b.nesting < maxNestDepth ∧ b.Fits ∧ b.MarksSorted := by
    simp [nestedNote, NoteBlock.Fits, NoteBlock.MarksSorted, NoteBlock.nodes, nodesOfListItems,
      nodesOfListItem, nodesOfBlocks, NoteBlock.NodeFits, NoteBlock.inlineSeqs, Inline.Fits,
      Inline.MarksSorted, NoteBlock.nesting, nestingOfItems, nestingOfItem, nestingOfBlocks,
      maxNestDepth, hfits]
  obtain ⟨hread, hexact⟩ := note_bodies_survive Cbor.codec_lawful
  have hdoc := hread nestedNote (by decide) hdoc
  have hne : encode Cbor.codec nestedNote ≠ [] := by
    intro hnil
    rw [hnil] at hdoc
    exact absurd (congrArg NoteDoc.blocks hdoc) (List.cons_ne_nil _ _).symm
  exact ⟨hdoc, (hexact _ hne (by rw [hdoc])).1⟩

end Notes

end Sunrise
