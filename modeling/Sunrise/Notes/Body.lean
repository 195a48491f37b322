import Mathlib.Data.List.Destutter
import Sunrise.Cbor.Record
import Sunrise.Lib.Text

/-!
# Note bodies

A note's body is a document of blocks: paragraphs, headings, lists whose items hold blocks of their
own, checklists, code, quotes and dividers. It is kept as canonical CBOR, an array of maps.

Reading never fails. What the grammar does not name is left out, lists are followed so many levels
down, and bytes that are not such an array are read as lines of text. Only a body that the blocks
read from it encode to again may be written over.
-/

namespace Sunrise

namespace Notes

open Cbor (Item)

/-! ### The grammar -/

/-- One inline mark. -/
inductive Mark where
  | bold
  | italic
  | underline
  | strike
  | code
deriving DecidableEq, Repr

namespace Mark

def asStr : Mark → String
  | bold => "bold"
  | italic => "italic"
  | underline => "underline"
  | strike => "strike"
  | code => "code"

def fromWire (s : String) : Option Mark :=
  if s = "bold" then some bold
  else if s = "italic" then some italic
  else if s = "underline" then some underline
  else if s = "strike" then some strike
  else if s = "code" then some code
  else none

@[simp] theorem fromWire_asStr (m : Mark) : fromWire m.asStr = some m := by cases m <;> decide

/-- Marks in the order they are declared. -/
def rank : Mark → ℕ
  | bold => 0
  | italic => 1
  | underline => 2
  | strike => 3
  | code => 4

/-- Sorted, and equal ones once. -/
def sortDedup (marks : List Mark) : List Mark :=
  (marks.insertionSort fun m n => m.rank ≤ n.rank).destutter (· ≠ ·)

end Mark

inductive HeadingLevel where
  | one
  | two
  | three
deriving DecidableEq, Repr

namespace HeadingLevel

/-- The wire integer. -/
def asU8 : HeadingLevel → ℕ
  | one => 1
  | two => 2
  | three => 3

def clampFrom (level : ℤ) : HeadingLevel :=
  if level ≤ 1 then one else if level = 2 then two else three

@[simp] theorem clampFrom_asU8 (l : HeadingLevel) : clampFrom l.asU8 = l := by cases l <;> rfl

end HeadingLevel

/-- One piece of inline content. -/
inductive Inline where
  | text (text : String) (marks : List Mark)
  | link (href label : String)
  | ref (target : String)
  | mention (person : String)
  | redacted (reason placeholderText : String)
deriving DecidableEq, Repr

/-- One item of a list, with the blocks under it. -/
structure ListItemOf (β : Type) where
  inline : List Inline
  children : List β

/-- One row of a checklist. -/
structure ChecklistItem where
  checked : Bool
  inline : List Inline
deriving DecidableEq, Repr

inductive NoteBlock where
  | paragraph (inline : List Inline)
  | heading (level : HeadingLevel) (inline : List Inline)
  | list (ordered : Bool) (items : List (ListItemOf NoteBlock))
  | checklist (items : List ChecklistItem)
  | code (language : Option String) (content : String)
  | quote (inline : List Inline)
  | divider

abbrev ListItem := ListItemOf NoteBlock

/-- Whether a body may be written back. -/
inductive Fidelity where
  | exact
  | lossy
deriving DecidableEq, Repr

/-- What is made of a body. -/
structure NoteDoc where
  blocks : List NoteBlock
  fidelity : Fidelity

/-- How deep lists are followed. -/
def maxNestDepth : ℕ := 8

/-- How many levels of CBOR are read. -/
def maxBodyCborDepth : ℕ := 128

def maxPlainTextParagraphs : ℕ := 4096

/-- Induction on a block, with one hypothesis for each block directly under an item of it. -/
@[induction_eliminator]
theorem NoteBlock.induction {motive : NoteBlock → Prop}
    (paragraph : ∀ inline, motive (.paragraph inline))
    (heading : ∀ level inline, motive (.heading level inline))
    (list : ∀ ordered items, (∀ item ∈ items, ∀ b ∈ item.children, motive b) →
      motive (.list ordered items))
    (checklist : ∀ items, motive (.checklist items))
    (code : ∀ language content, motive (.code language content))
    (quote : ∀ inline, motive (.quote inline)) (divider : motive .divider) :
    ∀ b, motive b := by
  intro b
  refine @NoteBlock.rec motive (fun items => ∀ item ∈ items, ∀ b ∈ item.children, motive b)
    (fun item => ∀ b ∈ item.children, motive b) (fun blocks => ∀ b ∈ blocks, motive b)
    paragraph heading (fun ordered items ih => list ordered items ih) checklist code quote divider
    ?_ ?_ ?_ ?_ ?_ b
  · exact fun _ h => absurd h List.not_mem_nil
  · intro item items hitem hitems i hi
    rcases List.mem_cons.mp hi with rfl | hi
    · exact hitem
    · exact hitems i hi
  · exact fun inline children h => h
  · exact fun _ h => absurd h List.not_mem_nil
  · intro b bs hb hbs c hc
    rcases List.mem_cons.mp hc with rfl | hc
    · exact hb
    · exact hbs c hc

/-! ### Encode -/

def inlineToValue : Inline → Item
  | .text text marks =>
    namedMap (("text", textItem text) ::
      if marks = [] then []
      else [("marks", .array ((Mark.sortDedup marks).map fun m => textItem m.asStr))])
  | .link href label =>
    namedMap [("kind", textItem "link"), ("href", textItem href), ("label", textItem label)]
  | .ref target => namedMap [("kind", textItem "ref"), ("ref", textItem target)]
  | .mention person => namedMap [("kind", textItem "mention"), ("person", textItem person)]
  | .redacted reason placeholderText =>
    namedMap [("kind", textItem "redacted"), ("reason", textItem reason),
      ("placeholder_text", textItem placeholderText)]

def inlineSeq (inline : List Inline) : Item := .array (inline.map inlineToValue)

def checklistItemToValue (item : ChecklistItem) : Item :=
  namedMap [("checked", .scalar (.bool item.checked)), ("inline", inlineSeq item.inline)]

mutual

def blockToValue : NoteBlock → Item
  | .paragraph inline => namedMap [("kind", textItem "p"), ("inline", inlineSeq inline)]
  | .heading level inline =>
    namedMap [("kind", textItem "h"), ("level", intItem level.asU8), ("inline", inlineSeq inline)]
  | .list ordered items =>
    namedMap [("kind", textItem (if ordered then "ol" else "ul")),
      ("items", .array (listItemsToValues items))]
  | .checklist items =>
    namedMap [("kind", textItem "task"), ("items", .array (items.map checklistItemToValue))]
  | .code language content =>
    namedMap ([("kind", textItem "code"), ("content", textItem content)] ++
      (language.map fun l => ("language", textItem l)).toList)
  | .quote inline => namedMap [("kind", textItem "quote"), ("inline", inlineSeq inline)]
  | .divider => namedMap [("kind", textItem "hr")]
termination_by structural b => b

def listItemsToValues : List (ListItemOf NoteBlock) → List Item
  | [] => []
  | item :: items => listItemToValue item :: listItemsToValues items
termination_by structural items => items

def listItemToValue : ListItemOf NoteBlock → Item
  | ⟨inline, []⟩ => namedMap [("inline", inlineSeq inline)]
  | ⟨inline, b :: bs⟩ =>
    namedMap [("inline", inlineSeq inline),
      ("children", .array (blockToValue b :: blocksToValues bs))]
termination_by structural item => item

def blocksToValues : List NoteBlock → List Item
  | [] => []
  | b :: bs => blockToValue b :: blocksToValues bs
termination_by structural bs => bs

end

/-- Blocks as canonical bytes. No value here holds a float, so the encoder takes every one. -/
def encode (cbor : Cbor.Codec) (blocks : List NoteBlock) : Bytes :=
  encodeCanonical cbor (.array (blocksToValues blocks))

/-! ### Decode -/

def itemArray : Item → Option (List Item)
  | .array items => some items
  | _ => none

def itemMap : Item → Option (List (Item × Item))
  | .map entries => some entries
  | _ => none

def itemBool : Item → Option Bool
  | .scalar (.bool b) => some b
  | _ => none

/-- A number that fits 64 bits with a sign. -/
def itemI64 : Item → Option ℤ
  | .scalar (.integer n) => if -2 ^ 63 ≤ n ∧ n < 2 ^ 63 then some n else none
  | _ => none

def entry (map : List (Item × Item)) (name : String) : Option Item :=
  (map.find? fun e => itemText e.1 = some name).map (·.2)

def textAt (map : List (Item × Item)) (name : String) : Option String :=
  (entry map name).bind itemText

def arrayAt (map : List (Item × Item)) (name : String) : List Item :=
  ((entry map name).bind itemArray).getD []

/-- Text is the one piece that is written without its kind. -/
def inlineFromValue (value : Item) : Option Inline := do
  let map ← itemMap value
  match textAt map "kind" with
  | none =>
    let text ← textAt map "text"
    return .text text (((arrayAt map "marks").filterMap itemText).filterMap Mark.fromWire)
  | some "link" => return .link (← textAt map "href") (← textAt map "label")
  | some "ref" => return .ref (← textAt map "ref")
  | some "mention" => return .mention (← textAt map "person")
  | some "redacted" =>
    return .redacted ((textAt map "reason").getD "") ((textAt map "placeholder_text").getD "")
  | some _ => none

def inlineAt (map : List (Item × Item)) (name : String) : List Inline :=
  (arrayAt map name).filterMap inlineFromValue

def checklistItemFromValue (value : Item) : Option ChecklistItem := do
  let map ← itemMap value
  return ⟨((entry map "checked").bind itemBool).getD false, inlineAt map "inline"⟩

def listItemFromValue (children : List Item → List NoteBlock) (value : Item) :
    Option ListItem := do
  let map ← itemMap value
  return ⟨inlineAt map "inline", children (arrayAt map "children")⟩

def blockWith (listItem : Item → Option ListItem) (value : Item) : Option NoteBlock := do
  let map ← itemMap value
  match ← textAt map "kind" with
  | "p" => return .paragraph (inlineAt map "inline")
  | "h" =>
    return .heading (((entry map "level").bind itemI64).elim .one HeadingLevel.clampFrom)
      (inlineAt map "inline")
  | "ul" => return .list false ((arrayAt map "items").filterMap listItem)
  | "ol" => return .list true ((arrayAt map "items").filterMap listItem)
  | "task" => return .checklist ((arrayAt map "items").filterMap checklistItemFromValue)
  | "code" => return .code (textAt map "language") ((textAt map "content").getD "")
  | "quote" => return .quote (inlineAt map "inline")
  | "hr" => return .divider
  | _ => none

/-- A block, and so many levels of blocks below it. What is below those is dropped. -/
def blockFromValue : ℕ → Item → Option NoteBlock
  | 0 => blockWith (listItemFromValue fun _ => [])
  | below + 1 =>
    blockWith (listItemFromValue fun children => children.filterMap (blockFromValue below))

/-- Bytes that are not the grammar as paragraphs, if they are text. -/
def plainTextBlocks (bytes : Bytes) : List NoteBlock :=
  match Cbor.ofUtf8 bytes with
  | none => []
  | some text =>
    ((((Text.lines text.toList).map Text.trimEnd).filter (· ≠ [])).take
      maxPlainTextParagraphs).map fun line => .paragraph [.text (String.ofList line) []]

/-- A body as blocks. A block at the top is at depth 0, and those at depth `maxNestDepth - 1` are
the last that are followed. -/
def decode (cbor : Cbor.Codec) (body : Bytes) : NoteDoc :=
  if body = [] then ⟨[], .exact⟩
  else
    let blocks :=
      match cbor.read maxBodyCborDepth body with
      | .ok (.array items, _) => items.filterMap (blockFromValue (maxNestDepth - 1))
      | _ => plainTextBlocks body
    ⟨blocks, if encode cbor blocks = body then .exact else .lossy⟩

/-! ### Documents -/

mutual

/-- How many lists enclose one another at the deepest place. -/
def NoteBlock.nesting : NoteBlock → ℕ
  | .list _ items => nestingOfItems items + 1
  | _ => 0
termination_by structural b => b

def nestingOfItems : List (ListItemOf NoteBlock) → ℕ
  | [] => 0
  | item :: items => max (nestingOfItem item) (nestingOfItems items)
termination_by structural items => items

def nestingOfItem : ListItemOf NoteBlock → ℕ
  | ⟨_, children⟩ => nestingOfBlocks children
termination_by structural item => item

def nestingOfBlocks : List NoteBlock → ℕ
  | [] => 0
  | b :: bs => max b.nesting (nestingOfBlocks bs)
termination_by structural bs => bs

end

mutual

def NoteBlock.nodes : NoteBlock → List NoteBlock
  | .list ordered items => .list ordered items :: nodesOfListItems items
  | b => [b]
termination_by structural b => b

def nodesOfListItems : List (ListItemOf NoteBlock) → List NoteBlock
  | [] => []
  | item :: items => nodesOfListItem item ++ nodesOfListItems items
termination_by structural items => items

def nodesOfListItem : ListItemOf NoteBlock → List NoteBlock
  | ⟨_, children⟩ => nodesOfBlocks children
termination_by structural item => item

def nodesOfBlocks : List NoteBlock → List NoteBlock
  | [] => []
  | b :: bs => b.nodes ++ nodesOfBlocks bs
termination_by structural bs => bs

end

def NoteBlock.inlineSeqs : NoteBlock → List (List Inline)
  | .paragraph inline | .heading _ inline | .quote inline => [inline]
  | .list _ items => items.map (·.inline)
  | .checklist items => items.map (·.inline)
  | .code _ _ | .divider => []

/-- Marks in their order, each once. -/
def Inline.MarksSorted : Inline → Prop
  | .text _ marks => marks.Pairwise fun m n => m.rank < n.rank
  | _ => True

def NoteBlock.MarksSorted (b : NoteBlock) : Prop :=
  ∀ c ∈ b.nodes, ∀ inline ∈ c.inlineSeqs, ∀ i ∈ inline, i.MarksSorted

/-- A text has fewer than 2^64 bytes. -/
def FitsText (s : String) : Prop := s.utf8ByteSize < 2 ^ 64

instance : DecidablePred FitsText := fun s => inferInstanceAs (Decidable (s.utf8ByteSize < 2 ^ 64))

def Inline.Fits : Inline → Prop
  | .text s _ => FitsText s
  | .link href label => FitsText href ∧ FitsText label
  | .ref target => FitsText target
  | .mention person => FitsText person
  | .redacted reason placeholderText => FitsText reason ∧ FitsText placeholderText

def NoteBlock.NodeFits (b : NoteBlock) : Prop :=
  (∀ inline ∈ b.inlineSeqs, inline.length < 2 ^ 64 ∧ ∀ i ∈ inline, i.Fits) ∧
    match b with
    | .list _ items => items.length < 2 ^ 64 ∧ ∀ item ∈ items, item.children.length < 2 ^ 64
    | .checklist items => items.length < 2 ^ 64
    | .code language content => (∀ l ∈ language, FitsText l) ∧ FitsText content
    | _ => True

/-- Every text and every list of a block is one that a machine of 64 bits can hold. -/
def NoteBlock.Fits (b : NoteBlock) : Prop := ∀ c ∈ b.nodes, c.NodeFits

variable {n : ℕ} {ordered : Bool} {items : List ListItem} {blocks : List NoteBlock}

theorem listItemsToValues_eq : listItemsToValues items = items.map listItemToValue := by
  induction items with
  | nil => rfl
  | cons item items ih => rw [listItemsToValues, ih, List.map_cons]

theorem blocksToValues_eq : blocksToValues blocks = blocks.map blockToValue := by
  induction blocks with
  | nil => rfl
  | cons b bs ih => rw [blocksToValues, ih, List.map_cons]

theorem nestingOfBlocks_le : nestingOfBlocks blocks ≤ n ↔ ∀ b ∈ blocks, b.nesting ≤ n := by
  induction blocks with
  | nil => simp [nestingOfBlocks]
  | cons b bs ih => simp [nestingOfBlocks, ih]

theorem nesting_list_le : (NoteBlock.list ordered items).nesting ≤ n + 1 ↔
    ∀ item ∈ items, ∀ b ∈ item.children, b.nesting ≤ n := by
  rw [NoteBlock.nesting, Nat.add_le_add_iff_right]
  induction items with
  | nil => simp [nestingOfItems]
  | cons item items ih =>
    obtain ⟨inline, children⟩ := item
    simp [nestingOfItems, nestingOfItem, ih, nestingOfBlocks_le]

theorem NoteBlock.mem_nodes_self (b : NoteBlock) : b ∈ b.nodes := by
  cases b <;> simp [NoteBlock.nodes]

theorem forall_nodesOfBlocks {P : NoteBlock → Prop} :
    (∀ c ∈ nodesOfBlocks blocks, P c) ↔ ∀ b ∈ blocks, ∀ c ∈ b.nodes, P c := by
  induction blocks with
  | nil => simp [nodesOfBlocks]
  | cons b bs ih => simp only [nodesOfBlocks, List.forall_mem_append, List.forall_mem_cons, ih]

theorem forall_nodes_list {P : NoteBlock → Prop} :
    (∀ c ∈ (NoteBlock.list ordered items).nodes, P c) ↔ P (.list ordered items) ∧
      ∀ item ∈ items, ∀ b ∈ item.children, ∀ c ∈ b.nodes, P c := by
  rw [NoteBlock.nodes, List.forall_mem_cons, and_congr_right_iff]
  generalize P (.list ordered items) = here
  intro _
  induction items with
  | nil => simp [nodesOfListItems]
  | cons item items ih =>
    obtain ⟨inline, children⟩ := item
    simp only [nodesOfListItems, nodesOfListItem, List.forall_mem_append, List.forall_mem_cons, ih,
      forall_nodesOfBlocks]

end Notes

end Sunrise
