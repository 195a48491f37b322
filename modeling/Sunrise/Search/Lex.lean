import Sunrise.Search.Query

/-!
# Tokens of a query

A query is cut into parentheses, signs, alternatives and leaves: words, phrases and
operators. What cannot be read as an operator is read as a word, with a notice.

* `lexOne`, `lex` — the token at a place, and all of them.
-/

namespace Sunrise

namespace Search

open Text

/-! ### Tokens -/

/-- Why something is read as text, or left out. -/
inductive NoticeKind where
  | unknownKey | badValue | unclosedQuote | unclosedGroup | strayParen | emptyPhrase | literalOr
  | tooLong | tooManyClauses | tooDeep
deriving DecidableEq, Repr

/-- A notice, with where in the input it is about. -/
structure ParseNotice where
  kind : NoticeKind
  start : ℕ
  «end» : ℕ
deriving DecidableEq, Repr

/-- A notice about a range of the input. -/
def notice (kind : NoticeKind) (start «end» : ℕ) : ParseNotice :=
  ⟨kind, min start (2 ^ 32 - 1), min «end» (2 ^ 32 - 1)⟩

/-- A token. -/
inductive Tok where
  | lparen | rparen | or | minus
  | leaf (e : Expr)

/-- A token, with where in the input it starts. -/
structure Token where
  tok : Tok
  start : ℕ

/-- A character a bare word cannot hold. -/
def endsBare (c : Char) : Bool := isSpace c || c ∈ ['"', '(', ')']

/-- The text up to a closing quote, what follows it, and whether there is one. -/
def quoted (s : Text) : Text × Text × Bool :=
  match s.dropWhile (· ≠ '"') with
  | _ :: rest => (s.takeWhile (· ≠ '"'), rest, true)
  | [] => (s.takeWhile (· ≠ '"'), [], false)

/-! ### Operators -/

/-- The name of an operator. -/
inductive Key where
  | stream | context | place | state | kind | is | has | priority
  | date (field : DateField)
deriving DecidableEq, Repr

/-- The operators by their names. -/
def keyTable : List (Text × Key) :=
  [("stream".toList, .stream), ("context".toList, .context), ("place".toList, .place),
    ("state".toList, .state), ("kind".toList, .kind), ("is".toList, .is), ("has".toList, .has),
    ("priority".toList, .priority)] ++ DateField.all.map fun f => (f.key, .date f)

def keyOf (word : Text) : Option Key :=
  (keyTable.find? fun p => p.1 == lower word).map Prod.snd

/-- The comparison at the start of a text, and what follows it. -/
def cmpAt : Text → Option (Cmp × Text)
  | ':' :: s => some (.eq, s)
  | '<' :: '=' :: s => some (.le, s)
  | '>' :: '=' :: s => some (.ge, s)
  | '<' :: s => some (.lt, s)
  | '>' :: s => some (.gt, s)
  | _ => none

/-- A character a bare value cannot hold. -/
def endsItem (c : Char) : Bool := endsBare c || c == ','

/-- A name or a value, what follows it, and whether it is in quotes that are not closed. -/
def itemAt (stop : Char → Bool) : Text → Text × Text × Bool
  | '"' :: s => ((quoted s).1, (quoted s).2.1, !(quoted s).2.2)
  | s => (s.takeWhile fun c => !stop c, s.dropWhile fun c => !stop c, false)

theorem suffix_quoted (s : Text) : (quoted s).2.1 <:+ s := by
  unfold quoted
  split
  next heq =>
    have := List.dropWhile_suffix (l := s) (· ≠ '"')
    rw [heq] at this
    exact (List.suffix_cons _ _).trans this
  next => exact List.nil_suffix

theorem suffix_itemAt (stop : Char → Bool) (s : Text) : (itemAt stop s).2.1 <:+ s := by
  unfold itemAt
  split
  next s => exact (suffix_quoted s).trans (List.suffix_cons _ _)
  next => exact List.dropWhile_suffix _

/-- The values of an operator, separated by commas, what follows them, and whether the last is
in quotes that are not closed. -/
def valueItems (s : Text) : List Text × Text × Bool :=
  match _h : itemAt endsItem s with
  | (item, rest, true) => ([item], rest, true)
  | (item, ',' :: rest, false) =>
    (item :: (valueItems rest).1, (valueItems rest).2.1, (valueItems rest).2.2)
  | (item, rest, false) => ([item], rest, false)
termination_by s.length
decreasing_by
  all_goals
    have := (suffix_itemAt endsItem s).length_le
    rw [_h] at this
    exact this

/-- The values of a vocabulary that some words are. -/
def keywords (α : Type) [Keyword α] (items : List Text) : Option (List α) :=
  items.mapM (fromKeyword α)

def names (items : List Text) : Option (List Text) :=
  if ∀ s ∈ items, s ≠ [] then some items else none

def priorityOf : Text → Option ℕ
  | [d] => if '1' ≤ d ∧ d ≤ '5' then some (d.toNat - '0'.toNat) else none
  | _ => none

def spanOf (cmp : Cmp) (item : Text) : Option DateSpan :=
  match splitDots item with
  | some (a, b) =>
    if cmp = .eq then
      (DateValue.parse a).bind fun a => (DateValue.parse b).map fun b => .range a b
    else none
  | none => (DateValue.parse item).map .one

/-- The operator of a name, a comparison and values, if there is one. -/
def filterOf (key : Key) (cmp : Cmp) (items : List Text) : Option Filter :=
  let onlyEq (f : Filter) : Option Filter := if cmp = .eq then some f else none
  match key with
  | .stream => (names items).bind fun n => onlyEq (.stream n)
  | .context => (names items).bind fun n => onlyEq (.context n)
  | .place => (names items).bind fun n => onlyEq (.place n)
  | .state => (keywords StateValue items).bind fun v => onlyEq (.state v)
  | .kind => (keywords SearchKind items).bind fun v => onlyEq (.kind v)
  | .is => (keywords IsValue items).bind fun v => onlyEq (.is v)
  | .has => (keywords HasValue items).bind fun v => onlyEq (.has v)
  | .priority =>
    if cmp ≠ .eq ∧ items.length ≠ 1 then none
    else (items.mapM priorityOf).map fun v => .priority cmp v
  | .date field =>
    match items with
    | [item] => (spanOf cmp item).map fun span => .date field cmp span
    | _ => none

/-! ### The lexer -/

/-- What was made of the text at a place. -/
structure Lexed where
  tok : Option Tok
  notices : List ParseNotice
  rest : Text

/-- The word of a text that could not be read as an operator, up to where it goes on, with its
quotes closed. -/
def rawTerm (s rest : Text) (open_ : Bool) : Expr :=
  .term (s.take (s.length - rest.length) ++ if open_ then ['"'] else [])

def lexName (i : ℕ) (c : Char) (s : Text) : Lexed :=
  let item := itemAt endsBare s
  let next := i + ((c :: s).length - item.2.1.length)
  if item.1 = [] then
    ⟨some (.leaf (rawTerm (c :: s) item.2.1 item.2.2)), [notice .badValue i next], item.2.1⟩
  else
    ⟨some (.leaf (.filter (if c = '#' then .stream [item.1] else .context [item.1]))),
      if item.2.2 then [notice .unclosedQuote i next] else [], item.2.1⟩

/-- The operator a text starts with: its name, its comparison, and what follows. -/
def operatorAt (s : Text) : Option (Key × Cmp × Text) :=
  let word := s.takeWhile Char.isAlpha
  if word = [] then none
  else (keyOf word).bind fun key => (cmpAt (s.dropWhile Char.isAlpha)).map fun p => (key, p.1, p.2)

def lexWord (i : ℕ) (s : Text) : Lexed :=
  match operatorAt s with
  | some (key, cmp, values) =>
    let items := valueItems values
    let next := i + (s.length - items.2.1.length)
    match filterOf key cmp items.1 with
    | some f =>
      ⟨some (.leaf (.filter f)), if items.2.2 then [notice .unclosedQuote i next] else [],
        items.2.1⟩
    | none =>
      ⟨some (.leaf (rawTerm s items.2.1 items.2.2)), [notice .badValue i next], items.2.1⟩
  | none =>
    let text := s.takeWhile fun c => !endsBare c
    let rest := s.dropWhile fun c => !endsBare c
    ⟨some (if text = "OR".toList then .or else .leaf (.term text)),
      if s.takeWhile Char.isAlpha ≠ [] ∧ (s.dropWhile Char.isAlpha).head? = some ':' then
        [notice .unknownKey i (i + text.length)] else [], rest⟩

/-- A phrase, after its opening quote. An empty one is left out. -/
def lexPhrase (i : ℕ) (s : Text) : Lexed :=
  let next := i + (s.length + 1 - (quoted s).2.1.length)
  let unclosed := if (quoted s).2.2 then [] else [notice .unclosedQuote i next]
  if trim (quoted s).1 = [] then
    ⟨none, unclosed ++ [notice .emptyPhrase i next], (quoted s).2.1⟩
  else ⟨some (.leaf (.phrase (trim (quoted s).1))), unclosed, (quoted s).2.1⟩

/-- What starts with a character a bare word can hold. -/
def lexBare (i : ℕ) (c : Char) (s : Text) : Lexed :=
  if c = '-' ∧ s.head?.any (fun n => !isSpace n && n != ')') then ⟨some .minus, [], s⟩
  else if (c = '#' ∨ c = '@') ∧ s.head?.any (fun n => !endsBare n || n == '"') then lexName i c s
  else if c = '!' ∧ s.head?.any (fun n => '1' ≤ n && n ≤ '5') ∧ s.tail.head?.all endsBare then
    ⟨some (.leaf (.filter (.priority .eq (s.head?.map fun d => d.toNat - '0'.toNat).toList))), [],
      s.tail⟩
  else lexWord i (c :: s)

/-- The token at a place of the input. -/
def lexOne (i : ℕ) (c : Char) (s : Text) : Lexed :=
  if isSpace c then ⟨none, [], s⟩
  else if c = '(' then ⟨some .lparen, [], s⟩
  else if c = ')' then ⟨some .rparen, [], s⟩
  else if c = '"' then lexPhrase i s
  else lexBare i c s

theorem suffix_cmpAt {s rest : Text} {cmp : Cmp} (h : cmpAt s = some (cmp, rest)) :
    rest <:+ s := by
  unfold cmpAt at h
  split at h
  · exact (Prod.mk.inj (Option.some.inj h)).2 ▸ List.suffix_cons _ _
  · exact (Prod.mk.inj (Option.some.inj h)).2 ▸
      (List.suffix_cons _ _).trans (List.suffix_cons _ _)
  · exact (Prod.mk.inj (Option.some.inj h)).2 ▸
      (List.suffix_cons _ _).trans (List.suffix_cons _ _)
  · exact (Prod.mk.inj (Option.some.inj h)).2 ▸ List.suffix_cons _ _
  · exact (Prod.mk.inj (Option.some.inj h)).2 ▸ List.suffix_cons _ _
  · simp at h

theorem suffix_valueItems (s : Text) : (valueItems s).2.1 <:+ s := by
  fun_induction valueItems s with
  | case1 s item rest h =>
    have := suffix_itemAt endsItem s
    rwa [h] at this
  | case2 s item rest h ih =>
    have := suffix_itemAt endsItem s
    rw [h] at this
    exact ih.trans ((List.suffix_cons _ _).trans this)
  | case3 s item rest _ h =>
    have := suffix_itemAt endsItem s
    rwa [h] at this

theorem operatorAt_eq_some {s values : Text} {key : Key} {cmp : Cmp}
    (h : operatorAt s = some (key, cmp, values)) :
    s.takeWhile Char.isAlpha ≠ [] ∧ keyOf (s.takeWhile Char.isAlpha) = some key ∧
      cmpAt (s.dropWhile Char.isAlpha) = some (cmp, values) := by
  unfold operatorAt at h
  dsimp only at h
  split at h
  · simp at h
  next hne =>
    obtain ⟨key', hkey, h⟩ := Option.bind_eq_some_iff.mp h
    obtain ⟨⟨cmp', values'⟩, hcmp, h⟩ := Option.map_eq_some_iff.mp h
    simp only [Prod.mk.injEq] at h
    obtain ⟨rfl, rfl, rfl⟩ := h
    exact ⟨hne, hkey, hcmp⟩

theorem endsBare_eq_false {c : Char} (hs : ¬ isSpace c) (hl : c ≠ '(') (hr : c ≠ ')')
    (hq : c ≠ '"') : endsBare c = false := by
  unfold endsBare
  simp [hs, hl, hr, hq]

theorem suffix_lexName (i : ℕ) (c : Char) (s : Text) : (lexName i c s).rest <:+ s := by
  unfold lexName
  dsimp only
  split
  · exact suffix_itemAt endsBare s
  · exact suffix_itemAt endsBare s

theorem suffix_lexWord {c : Char} (hc : endsBare c = false) (i : ℕ) (s : Text) :
    (lexWord i (c :: s)).rest <:+ s := by
  unfold lexWord
  split
  next key cmp values h =>
    obtain ⟨hne, -, hcmp⟩ := operatorAt_eq_some h
    have halpha : c.isAlpha := by
      by_contra hc
      rw [List.takeWhile_cons_of_neg hc] at hne
      exact hne rfl
    rw [List.dropWhile_cons_of_pos halpha] at hcmp
    have hs : (valueItems values).2.1 <:+ s :=
      (suffix_valueItems values).trans ((suffix_cmpAt hcmp).trans (List.dropWhile_suffix _))
    dsimp only
    split
    · exact hs
    · exact hs
  next =>
    dsimp only
    rw [List.dropWhile_cons_of_pos (by simp [hc])]
    exact List.dropWhile_suffix _

theorem suffix_lexOne (i : ℕ) (c : Char) (s : Text) : (lexOne i c s).rest <:+ s := by
  unfold lexOne
  split
  · exact List.suffix_refl s
  next hspace =>
    split
    · exact List.suffix_refl s
    next hl =>
      split
      · exact List.suffix_refl s
      next hr =>
        split
        · unfold lexPhrase
          dsimp only
          split
          · exact suffix_quoted s
          · exact suffix_quoted s
        next hq =>
          unfold lexBare
          split
          · exact List.suffix_refl s
          · split
            · exact suffix_lexName i c s
            · split
              · exact List.tail_suffix s
              · exact suffix_lexWord (endsBare_eq_false hspace hl hr hq) i s

def pieces (i : ℕ) : Text → List (ℕ × Lexed)
  | [] => []
  | c :: s =>
    (i, lexOne i c s) ::
      pieces (i + (s.length + 1 - (lexOne i c s).rest.length)) (lexOne i c s).rest
termination_by s => s.length
decreasing_by
  have := (suffix_lexOne i c s).length_le
  rw [List.length_cons]
  omega

/-- The tokens of a text that starts at a place of the input. -/
def tokensFrom (i : ℕ) (s : Text) : List Token :=
  (pieces i s).filterMap fun p => p.2.tok.map fun tok => ⟨tok, p.1⟩

def lex (input : Text) : List Token × List ParseNotice :=
  (tokensFrom 0 input, (pieces 0 input).flatMap fun p => p.2.notices)

end Search

end Sunrise
