import Sunrise.Search.Leaves

/-!
# Parsing a query

A query is built from its tokens by recursive descent, within limits: so many leaves, so much
text, so many groups in one another. Where a limit is reached the parser stops, and the rest
of the input is one more phrase, or left out where it is the text there was no room for.

* `parseWithNotices`, `parse` — the query of a text.
-/

namespace Sunrise

namespace Search

open Text

/-! ### Limits -/

def maxInput : ℕ := 16384

/-- How much text the leaves of a query may have. -/
def maxText : ℕ := 1024

/-- How many leaves a query may have. -/
def maxClauses : ℕ := 32

/-- How many groups may be in one another. -/
def maxDepth : ℕ := 8

/-! ### The parser -/

/-- Why the parser stopped before the end of the tokens. -/
structure Abort where
  kind : NoticeKind
  start : ℕ

structure Parser where
  toks : List Token
  leaves : ℕ
  text : ℕ
  abort : Option Abort
  notices : List ParseNotice
  len : ℕ

/-- A token that starts an alternative. -/
def Tok.isOr : Tok → Bool
  | .or => true
  | _ => false

/-- A token that negates. -/
def Tok.isMinus : Tok → Bool
  | .minus => true
  | _ => false

/-- A token that ends a group. -/
def Tok.isRparen : Tok → Bool
  | .rparen => true
  | _ => false

namespace Parser

def peek (p : Parser) : Option Tok := p.toks.head?.map Token.tok

def start (p : Parser) : ℕ := (p.toks.head?.map Token.start).getD p.len

/-- Past the next token. -/
def pass (p : Parser) : Parser := { p with toks := p.toks.tail }

def note (p : Parser) (n : ParseNotice) : Parser := { p with notices := p.notices ++ [n] }

/-- Stopped at the next token. -/
def stop (p : Parser) (kind : NoticeKind) : Parser := { p with abort := some ⟨kind, p.start⟩ }

def leaf (p : Parser) (e : Expr) : Option Expr × Parser :=
  if maxClauses ≤ p.leaves then (none, p.stop .tooManyClauses)
  else if maxText < p.text + leafCost e then (none, p.stop .tooLong)
  else
    (some e, { p with toks := p.toks.tail, leaves := p.leaves + 1, text := p.text + leafCost e })

end Parser

/-- What reads the clauses of a group. It puts no token back. -/
structure GroupReader where
  read : Parser → List Expr × Parser
  suffix : ∀ p, (read p).2.toks <:+ p.toks

namespace Parser

/-- A leaf or a group; there is nothing to read a group with where no more may open. -/
def atom (inner : Option GroupReader) (p : Parser) : Option Expr × Parser :=
  match p.peek with
  | none => (none, p)
  | some (.leaf e) => p.leaf e
  | some .or => (p.note (notice .literalOr p.start (p.start + 2))).leaf (.phrase "OR".toList)
  | some .lparen =>
    match inner with
    | none => (none, p.stop .tooDeep)
    | some reader =>
      let r := reader.read p.pass
      let after :=
        if r.2.abort.isSome then r.2
        else if r.2.peek.any Tok.isRparen then r.2.pass
        else r.2.note (notice .unclosedGroup p.start r.2.len)
      (if r.1.isEmpty then none else some (.group r.1), after)
  | some .minus => (none, p)
  | some .rparen => (none, p)

/-- Whether some signs negate, and the tokens after them. -/
def minuses : List Token → Bool × List Token
  | [] => (false, [])
  | t :: toks => if t.tok.isMinus then (!(minuses toks).1, (minuses toks).2) else (false, t :: toks)

/-- An atom, or its negation. -/
def unary (inner : Option GroupReader) (p : Parser) : Option Expr × Parser :=
  let signs := minuses p.toks
  let r := atom inner { p with toks := signs.2 }
  (r.1.map fun e => if signs.1 then .not e else e, r.2)

theorem suffix_leaf (p : Parser) (e : Expr) : (p.leaf e).2.toks <:+ p.toks := by
  unfold leaf
  split
  · exact List.suffix_refl _
  · split
    · exact List.suffix_refl _
    · exact List.tail_suffix _

theorem suffix_atom (inner : Option GroupReader) (p : Parser) :
    (p.atom inner).2.toks <:+ p.toks := by
  unfold atom
  split
  · exact List.suffix_refl _
  · exact suffix_leaf p _
  · exact suffix_leaf (p.note _) _
  · split
    · exact List.suffix_refl _
    next reader =>
      have hread : (reader.read p.pass).2.toks <:+ p.toks :=
        (reader.suffix p.pass).trans (List.tail_suffix _)
      dsimp only
      split
      · exact hread
      · split
        · exact (List.tail_suffix _).trans hread
        · exact hread
  · exact List.suffix_refl _
  · exact List.suffix_refl _

theorem suffix_minuses (toks : List Token) : (minuses toks).2 <:+ toks := by
  induction toks with
  | nil => exact List.suffix_refl _
  | cons t toks ih =>
    unfold minuses
    split
    · exact ih.trans (List.suffix_cons _ _)
    · exact List.suffix_refl _

theorem suffix_unary (inner : Option GroupReader) (p : Parser) :
    (p.unary inner).2.toks <:+ p.toks :=
  (suffix_atom inner _).trans (suffix_minuses _)

def alternatives (inner : Option GroupReader) (p : Parser) : List Expr × Parser :=
  match _h : p.toks with
  | t :: after :: _ =>
    if p.abort.isNone ∧ t.tok.isOr ∧ ¬ after.tok.isRparen then
      let r := p.pass.unary inner
      (r.1.toList ++ (alternatives inner r.2).1, (alternatives inner r.2).2)
    else ([], p)
  | _ => ([], p)
termination_by p.toks.length
decreasing_by
  all_goals
    have hpass : p.pass.toks.length + 1 = p.toks.length := by
      unfold pass
      rw [_h]
      rfl
    have := (suffix_unary inner p.pass).length_le
    omega

/-- Alternatives, or the one there is. -/
def orExpr (inner : Option GroupReader) (p : Parser) : Option Expr × Parser :=
  let first := p.unary inner
  match first.1 with
  -- an alternative has one before it
  | none => (none, first.2)
  | some e =>
    let others := alternatives inner first.2
    (some (if others.1.isEmpty then e else .or (e :: others.1)), others.2)

section

variable (inner : Option GroupReader)
include inner

theorem suffix_alternatives (p : Parser) :
    (p.alternatives inner).2.toks <:+ p.toks := by
  fun_induction alternatives inner p with
  | case1 p t after rest h _ r ih =>
    exact ih.trans ((suffix_unary inner p.pass).trans (List.tail_suffix _))
  | case2 => exact List.suffix_refl _
  | case3 => exact List.suffix_refl _

theorem suffix_orExpr (p : Parser) :
    (p.orExpr inner).2.toks <:+ p.toks := by
  unfold orExpr
  dsimp only
  split
  · exact suffix_unary inner p
  · exact (suffix_alternatives inner _).trans (suffix_unary inner p)

theorem atom_spec {p : Parser} {t : Tok} (h : p.peek = some t)
    (hm : t.isMinus = false) (hr : t.isRparen = false) :
    (p.atom inner).2.abort.isSome ∨ (p.atom inner).2.toks.length < p.toks.length := by
  have hne : p.toks ≠ [] := by
    intro hnil
    unfold peek at h
    rw [hnil] at h
    simp at h
  have htail : p.toks.tail.length < p.toks.length := by
    have := List.length_pos_iff.mpr hne
    rw [List.length_tail]
    omega
  have hleaf : ∀ (q : Parser) e, q.toks = p.toks →
      (q.leaf e).2.abort.isSome ∨ (q.leaf e).2.toks.length < p.toks.length := by
    intro q e hq
    unfold leaf
    split
    · exact .inl rfl
    · split
      · exact .inl rfl
      · right
        dsimp only
        rw [hq]
        exact htail
  unfold atom
  rw [h]
  cases t with
  | leaf e => exact hleaf p e rfl
  | or => exact hleaf (p.note _) _ rfl
  | minus => simp [Tok.isMinus] at hm
  | rparen => simp [Tok.isRparen] at hr
  | lparen =>
    cases inner with
    | none => exact .inl rfl
    | some reader =>
      have hread : (reader.read p.pass).2.toks.length < p.toks.length :=
        lt_of_le_of_lt (reader.suffix p.pass).length_le htail
      right
      dsimp only
      split
      · exact hread
      · split
        · exact lt_of_le_of_lt (List.tail_suffix _).length_le hread
        · exact hread

theorem unary_spec {p : Parser} {t : Tok} (h : p.peek = some t)
    (hr : t.isRparen = false) :
    (p.unary inner).2.abort.isSome ∨ (p.unary inner).2.toks.length < p.toks.length := by
  unfold unary
  dsimp only
  obtain ⟨token, toks, htoks⟩ : ∃ token toks, p.toks = token :: toks := by
    apply List.exists_cons_of_ne_nil
    intro hnil
    unfold peek at h
    rw [hnil] at h
    simp at h
  have htok : token.tok = t := by
    unfold peek at h
    rw [htoks] at h
    exact Option.some.inj h
  by_cases hm : t.isMinus = true
  · have hsigns : minuses p.toks = (!(minuses toks).1, (minuses toks).2) := by
      rw [htoks, minuses, htok, if_pos hm]
    right
    rw [hsigns]
    have hle := (suffix_atom inner { p with toks := (minuses toks).2 }).length_le
    have hle' := (suffix_minuses toks).length_le
    rw [htoks, List.length_cons]
    exact Nat.lt_succ_of_le (hle.trans hle')
  · have hsigns : minuses p.toks = (false, p.toks) := by
      rw [htoks, minuses, htok, if_neg hm]
    rw [hsigns]
    exact atom_spec inner h (by simpa using hm) hr

theorem alternatives_of_abort {p : Parser} (h : p.abort.isSome) :
    p.alternatives inner = ([], p) := by
  rw [alternatives]
  split
  · rw [if_neg]
    intro hif
    rw [Option.isNone_iff_eq_none.mp hif.1] at h
    simp at h
  · rfl

theorem orExpr_spec {p : Parser} {t : Tok} (h : p.peek = some t)
    (hr : t.isRparen = false) :
    (p.orExpr inner).2.abort.isSome ∨ (p.orExpr inner).2.toks.length < p.toks.length := by
  unfold orExpr
  dsimp only
  have hfirst := unary_spec inner h hr
  split
  · exact hfirst
  · rcases hfirst with habort | hlt
    · left
      rw [alternatives_of_abort inner habort]
      exact habort
    · exact .inr (lt_of_le_of_lt (suffix_alternatives inner _).length_le hlt)

end

/-- How much a parser has left to do: each token, and to stop. -/
def work (p : Parser) : ℕ := 2 * p.toks.length + if p.abort.isSome then 0 else 1

/-- The clauses of a query or, `nested`, of a group: a stray parenthesis is passed. -/
def andExpr (nested : Bool) (inner : Option GroupReader) (p : Parser) : List Expr × Parser :=
  if _ha : p.abort.isSome then ([], p)
  else
    match _h : p.peek with
    | none => ([], p)
    | some t =>
      if _hr : t.isRparen then
        if nested then ([], p)
        else andExpr nested inner (p.pass.note (notice .strayParen p.start (p.start + 1)))
      else
        let r := p.orExpr inner
        (r.1.toList ++ (andExpr nested inner r.2).1, (andExpr nested inner r.2).2)
termination_by p.work
decreasing_by
  · have hlen : (p.pass.note (notice .strayParen p.start (p.start + 1))).toks.length <
        p.toks.length := by
      show p.toks.tail.length < p.toks.length
      cases htoks : p.toks with
      | nil =>
        unfold peek at _h
        rw [htoks] at _h
        simp at _h
      | cons t toks => exact Nat.lt_succ_self _
    unfold work
    rw [if_neg _ha]
    split <;> omega
  all_goals
    have hspec := orExpr_spec inner _h (by simpa using _hr)
    have hle := (suffix_orExpr inner p).length_le
    unfold work
    rw [if_neg _ha]
    rcases hspec with hspec | hspec
    · rw [if_pos hspec]
      omega
    · split <;> omega

theorem suffix_andExpr (nested : Bool) (inner : Option GroupReader) (p : Parser) :
    (p.andExpr nested inner).2.toks <:+ p.toks := by
  fun_induction andExpr nested inner p with
  | case1 => exact List.suffix_refl _
  | case2 => exact List.suffix_refl _
  | case3 => exact List.suffix_refl _
  | case4 p _ t _ _ _ ih => exact ih.trans (List.tail_suffix _)
  | case5 p _ t h hr r ih => exact ih.trans (suffix_orExpr inner p)

/-- What reads a group where so many more may be in one another. -/
def inner : ℕ → Option GroupReader
  | 0 => none
  | room + 1 => some ⟨andExpr true (inner room), suffix_andExpr true (inner room)⟩

end Parser

/-! ### Queries -/

/-- What is past a limit as the text of one phrase: no quotes, one space between words, and no
longer than a budget. -/
def restText (chars : Text) (budget : ℕ) : Text :=
  trimEnd ((spaced (words (chars.map fun c => if c = '"' then ' ' else c))).take budget)

/-- A query, and what could not be read. -/
structure Parsed where
  query : SearchQuery
  /-- What was read as text or left out, in the order of the input. -/
  notices : List ParseNotice

def sortNotices (notices : List ParseNotice) : List ParseNotice :=
  notices.mergeSort fun a b => a.start < b.start || (a.start == b.start && a.end ≤ b.end)

/-- Before any token of an input. -/
def Parser.begin (chars : Text) : Parser where
  toks := (lex chars).1
  leaves := 0
  text := 0
  abort := none
  notices := []
  len := chars.length

/-- The query of an input, and what could not be read. -/
def parseWithNotices (input : Text) : Parsed :=
  let chars := input.take maxInput
  let cut := if maxInput < input.length then [notice .tooLong maxInput input.length] else []
  let r := (Parser.begin chars).andExpr false (Parser.inner maxDepth)
  match r.2.abort with
  | none => ⟨⟨r.1⟩, sortNotices (cut ++ (lex chars).2 ++ r.2.notices)⟩
  | some abort =>
    let rest :=
      if abort.kind = .tooLong then [] else restText (chars.drop abort.start) (maxText - r.2.text)
    let before := (cut ++ (lex chars).2).filter fun n => n.start < abort.start
    ⟨⟨r.1 ++ if rest = [] then [] else [.phrase rest]⟩,
      sortNotices (before ++ notice abort.kind abort.start chars.length :: r.2.notices)⟩

def parse (input : Text) : SearchQuery := (parseWithNotices input).query

end Search

end Sunrise
