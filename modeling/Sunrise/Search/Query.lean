import Sunrise.Search.Date

/-!
# Queries

A query is a list of clauses, all of which a hit matches: words, phrases and operators, alone
or negated, in alternatives and groups. It is shown in one spelling.
-/

namespace Sunrise

namespace Search

open Text

/-! ### Vocabularies -/

def wordChar (c : Char) : Bool := c.isAlpha || c ∈ ['-', '_']

/-- A vocabulary: each value and its word, which is read as it whatever the case of its
letters. -/
class Keyword (α : Type) where
  all : List α
  keyword : α → Text
  find_keyword : ∀ v, all.find? (fun w => sameName (keyword w) (keyword v)) = some v
  /-- A word is made of letters, dashes and underscores. -/
  wordChar_keyword : ∀ v, keyword v ≠ [] ∧ ∀ c ∈ keyword v, wordChar c

/-- The value of a word. -/
def fromKeyword (α : Type) [Keyword α] (s : Text) : Option α :=
  (Keyword.all (α := α)).find? fun w => sameName (Keyword.keyword w) s

/-- A state of a task. -/
inductive StateValue where
  | todo | inProgress | done | cancelled | «open»
deriving DecidableEq, Repr

/-- A property of a hit. -/
inductive IsValue where
  | late | lateHard | stale | blocked | recurring | unplanned | inbox | fixed | flexible
deriving DecidableEq, Repr

/-- A part of a hit. -/
inductive HasValue where
  | attachment | note | estimate | deadline | place | dependency
deriving DecidableEq, Repr

/-- A kind of hit. -/
inductive SearchKind where
  | task | note | event | block | stream | context | place | attachment | view | person
deriving DecidableEq, Repr

instance : Keyword StateValue where
  all := [.todo, .inProgress, .done, .cancelled, .open]
  keyword
    | .todo => "todo".toList
    | .inProgress => "in_progress".toList
    | .done => "done".toList
    | .cancelled => "cancelled".toList
    | .open => "open".toList
  find_keyword v := by cases v <;> rfl
  wordChar_keyword v := by cases v <;> exact ⟨by decide, forall_of_all (by decide)⟩

instance : Keyword IsValue where
  all := [.late, .lateHard, .stale, .blocked, .recurring, .unplanned, .inbox, .fixed, .flexible]
  keyword
    | .late => "late".toList
    | .lateHard => "late-hard".toList
    | .stale => "stale".toList
    | .blocked => "blocked".toList
    | .recurring => "recurring".toList
    | .unplanned => "unplanned".toList
    | .inbox => "inbox".toList
    | .fixed => "fixed".toList
    | .flexible => "flexible".toList
  find_keyword v := by cases v <;> rfl
  wordChar_keyword v := by cases v <;> exact ⟨by decide, forall_of_all (by decide)⟩

instance : Keyword HasValue where
  all := [.attachment, .note, .estimate, .deadline, .place, .dependency]
  keyword
    | .attachment => "attachment".toList
    | .note => "note".toList
    | .estimate => "estimate".toList
    | .deadline => "deadline".toList
    | .place => "place".toList
    | .dependency => "dependency".toList
  find_keyword v := by cases v <;> rfl
  wordChar_keyword v := by cases v <;> exact ⟨by decide, forall_of_all (by decide)⟩

instance : Keyword SearchKind where
  all := [.task, .note, .event, .block, .stream, .context, .place, .attachment, .view, .person]
  keyword
    | .task => "task".toList
    | .note => "note".toList
    | .event => "event".toList
    | .block => "block".toList
    | .stream => "stream".toList
    | .context => "context".toList
    | .place => "place".toList
    | .attachment => "attachment".toList
    | .view => "view".toList
    | .person => "person".toList
  find_keyword v := by cases v <;> rfl
  wordChar_keyword v := by cases v <;> exact ⟨by decide, forall_of_all (by decide)⟩

/-! ### Operators -/

/-- How an operator compares. -/
inductive Cmp where
  | eq | lt | le | gt | ge
deriving DecidableEq, Repr

/-- A comparison as it is typed. -/
def Cmp.display : Cmp → Text
  | .eq => [':']
  | .lt => ['<']
  | .le => ['<', '=']
  | .gt => ['>']
  | .ge => ['>', '=']

/-- Which date an operator is about. -/
inductive DateField where
  | planned | target | hard | due | created | done
deriving DecidableEq, Repr

/-- The dates an operator can be about. -/
def DateField.all : List DateField := [.planned, .target, .hard, .due, .created, .done]

/-- The name of a date's operator. -/
def DateField.key : DateField → Text
  | .planned => "planned".toList
  | .target => "target".toList
  | .hard => "hard".toList
  | .due => "due".toList
  | .created => "created".toList
  | .done => "done".toList

/-- An operator with its value. -/
inductive Filter where
  | stream (names : List Text)
  | context (names : List Text)
  | place (names : List Text)
  | state (values : List StateValue)
  | kind (values : List SearchKind)
  | is (values : List IsValue)
  | has (values : List HasValue)
  | priority (cmp : Cmp) (values : List ℕ)
  | date (field : DateField) (cmp : Cmp) (span : DateSpan)
deriving DecidableEq, Repr

/-- A character that a name after `#` or `@` is quoted for. -/
def needsQuotes (c : Char) : Bool := isSpace c || c ∈ ['(', ')']

/-- A name in a list: in quotes where it holds what a bare name cannot. -/
def listName (name : Text) : Text :=
  if name.any fun c => needsQuotes c || c == ',' then '"' :: name ++ ['"'] else name

/-- A name after `#` or `@`, where a comma is part of it. -/
def shorthandName (name : Text) : Text :=
  if name.any needsQuotes then '"' :: name ++ ['"'] else name

def commas (items : List Text) : Text := [','].intercalate items

/-- How an operator is shown. -/
def Filter.display : Filter → Text
  | .stream [n] => '#' :: shorthandName n
  | .stream n => "stream:".toList ++ commas (n.map listName)
  | .context [n] => '@' :: shorthandName n
  | .context n => "context:".toList ++ commas (n.map listName)
  | .place n => "place:".toList ++ commas (n.map listName)
  | .state v => "state:".toList ++ commas (v.map Keyword.keyword)
  | .kind v => "kind:".toList ++ commas (v.map Keyword.keyword)
  | .is v => "is:".toList ++ commas (v.map Keyword.keyword)
  | .has v => "has:".toList ++ commas (v.map Keyword.keyword)
  | .priority .eq [p] => '!' :: Nat.toDigits 10 p
  | .priority cmp v => "priority".toList ++ cmp.display ++ commas (v.map (Nat.toDigits 10))
  | .date field cmp span => field.key ++ cmp.display ++ span.display

/-! ### Clauses -/

/-- A clause of a query. -/
inductive Expr where
  | term (t : Text)
  | phrase (p : Text)
  | filter (f : Filter)
  | not (e : Expr)
  | or (items : List Expr)
  | group (items : List Expr)

/-- A query: the clauses a hit matches. -/
structure SearchQuery where
  clauses : List Expr

mutual

/-- How a clause is shown. -/
def Expr.display : Expr → Text
  | .term t => t
  | .phrase p => '"' :: p ++ ['"']
  | .filter f => f.display
  | .not e => '-' :: e.display
  | .or items => join " OR ".toList items
  | .group items => '(' :: join [' '] items ++ [')']

/-- How clauses are shown with a text between them. -/
def join (sep : Text) : List Expr → Text
  | [] => []
  | e :: items => e.display ++ joinAfter sep items

/-- How clauses are shown with a text before each. -/
def joinAfter (sep : Text) : List Expr → Text
  | [] => []
  | e :: items => sep ++ e.display ++ joinAfter sep items

end

def SearchQuery.display (q : SearchQuery) : Text := join [' '] q.clauses

/-- Whether a clause is a word, a phrase or an operator. -/
def Expr.isLeaf : Expr → Bool
  | .term _ => true
  | .phrase _ => true
  | .filter _ => true
  | _ => false

/-- What a word, a phrase or an operator takes of the text a query may have. -/
def leafCost : Expr → ℕ
  | .term t => t.length
  | .phrase p => p.length
  | e => e.display.length

mutual

/-- How many words, phrases and operators a clause has. -/
def Expr.leaves : Expr → ℕ
  | .not e => e.leaves
  | .or items => leavesAll items
  | .group items => leavesAll items
  | _ => 1

/-- How many words, phrases and operators some clauses have. -/
def leavesAll : List Expr → ℕ
  | [] => 0
  | e :: items => e.leaves + leavesAll items

end

mutual

/-- What a clause takes of the text a query may have. -/
def Expr.spent : Expr → ℕ
  | .not e => e.spent
  | .or items => spentAll items
  | .group items => spentAll items
  | .term t => t.length
  | .phrase p => p.length
  | .filter f => f.display.length

/-- What some clauses take of the text a query may have. -/
def spentAll : List Expr → ℕ
  | [] => 0
  | e :: items => e.spent + spentAll items

end

theorem Expr.leaves_of_isLeaf {e : Expr} (h : e.isLeaf) : e.leaves = 1 := by
  cases e with
  | term | phrase | filter => rfl
  | not | or | group => simp [Expr.isLeaf] at h

theorem Expr.spent_of_isLeaf {e : Expr} (h : e.isLeaf) : e.spent = leafCost e := by
  cases e with
  | term | phrase | filter => rfl
  | not | or | group => simp [Expr.isLeaf] at h

@[simp] theorem leavesAll_append (xs ys : List Expr) :
    leavesAll (xs ++ ys) = leavesAll xs + leavesAll ys := by
  induction xs with
  | nil => simp [leavesAll]
  | cons x xs ih => simp [leavesAll, ih, Nat.add_assoc]

@[simp] theorem spentAll_append (xs ys : List Expr) :
    spentAll (xs ++ ys) = spentAll xs + spentAll ys := by
  induction xs with
  | nil => simp [spentAll]
  | cons x xs ih => simp [spentAll, ih, Nat.add_assoc]

end Search

end Sunrise
