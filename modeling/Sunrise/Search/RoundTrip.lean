import Sunrise.Search.Parse

/-!
# A query that is shown is read again

The parser makes clauses of a shape: leaves, negations, alternatives and groups, so many in one
another, with so many leaves and so much text in all. A query of that shape is shown as its
tokens are cut, and from these tokens the parser builds the same query within the same limits.
Where a limit was reached the rest of the input is one phrase, and it is read as that phrase
or, where it is one leaf too many, is again the rest of the input.

* `Parser.took`, `andExpr_clauses` — the parser builds clauses from their tokens.
* `Shaped`, `shaped_andExpr` — what the parser makes is of the shape, within the limits.
* `parse_display_parse` — **a query that is shown is read as the same query.**
-/

namespace Sunrise

variable {items : List Expr} {e : Expr} {rest : List Token} {ts : List Token}

namespace Search

open Text

/-! ### The shape of a clause -/

/-- An atom, or its negation. -/
def Unary (A : Expr → Prop) (e : Expr) : Prop := A e ∨ ∃ a, A a ∧ e = .not a

/-- One of them, or two or more as alternatives. -/
def Clause (A : Expr → Prop) (e : Expr) : Prop :=
  Unary A e ∨ ∃ x y items, (∀ z ∈ x :: y :: items, Unary A z) ∧ e = .or (x :: y :: items)

/-- A leaf, or a group with at most so many groups in one another. -/
def Atom : ℕ → Expr → Prop
  | 0, e => Leaf e
  | room + 1, e =>
    Leaf e ∨ ∃ items, items ≠ [] ∧ (∀ x ∈ items, Clause (Atom room) x) ∧ e = .group items

theorem atom_of_leaf (h : Leaf e) : ∀ room, Atom room e
  | 0 => h
  | _ + 1 => .inl h

mutual

/-- The tokens of a clause. -/
def Expr.toks : Expr → List Tok
  | .not e => .minus :: e.toks
  | .or [] => []
  | .or (e :: items) => e.toks ++ toksAfterOr items
  | .group items => .lparen :: toksAll items ++ [.rparen]
  | .term t => [.leaf (.term t)]
  | .phrase p => [.leaf (.phrase p)]
  | .filter f => [.leaf (.filter f)]

/-- The tokens of clauses. -/
def toksAll : List Expr → List Tok
  | [] => []
  | e :: items => e.toks ++ toksAll items

/-- The tokens of alternatives after the first. -/
def toksAfterOr : List Expr → List Tok
  | [] => []
  | e :: items => .or :: e.toks ++ toksAfterOr items

end

theorem Expr.toks_of_isLeaf (h : e.isLeaf) : e.toks = [.leaf e] := by
  cases e with
  | term | phrase | filter => rfl
  | not | or | group => simp [Expr.isLeaf] at h

/-! ### Cutting what is shown -/

@[simp] theorem tokensFrom_nil (i : ℕ) : tokensFrom i [] = [] := by
  unfold tokensFrom pieces
  rfl

theorem tokensFrom_cons {i : ℕ} {c : Char} {s rest : Text} {tok : Option Tok}
    (htok : (lexOne i c s).tok = tok) (hrest : (lexOne i c s).rest = rest) :
    tokensFrom i (c :: s) =
      (tok.map fun tok => ⟨tok, i⟩).toList ++
        tokensFrom (i + (s.length + 1 - rest.length)) rest := by
  unfold tokensFrom
  rw [pieces, List.filterMap_cons, htok, hrest]
  cases tok with
  | none => rfl
  | some tok => rfl

theorem tokensFrom_space (i : ℕ) (s : Text) : tokensFrom i (' ' :: s) = tokensFrom (i + 1) s := by
  have htok : (lexOne i ' ' s).tok = none := rfl
  have hrest : (lexOne i ' ' s).rest = s := rfl
  rw [tokensFrom_cons htok hrest, Nat.add_sub_cancel_left]
  rfl

theorem tokensFrom_sign {i : ℕ} {c : Char} {s : Text} {tok : Tok}
    (h : lexOne i c s = ⟨some tok, [], s⟩) :
    tokensFrom i (c :: s) = ⟨tok, i⟩ :: tokensFrom (i + 1) s := by
  have htok : (lexOne i c s).tok = some tok := by rw [h]
  have hrest : (lexOne i c s).rest = s := by rw [h]
  rw [tokensFrom_cons htok hrest, Nat.add_sub_cancel_left]
  rfl

theorem tokensFrom_or (i : ℕ) (s : Text) :
    tokensFrom i ('O' :: 'R' :: ' ' :: s) = ⟨.or, i⟩ :: tokensFrom (i + 2) (' ' :: s) := by
  have hop : operatorAt ('O' :: 'R' :: ' ' :: s) = none :=
    (operatorAt_eq_none_iff _).mpr (.inr (.inl (by rfl)))
  have hlex : lexOne i 'O' ('R' :: ' ' :: s) = lexWord i ('O' :: 'R' :: ' ' :: s) :=
    lexOne_of_isAlpha (by decide) i _
  have htok : (lexOne i 'O' ('R' :: ' ' :: s)).tok = some .or := by
    rw [hlex]
    unfold lexWord
    rw [hop]
    rfl
  have hrest : (lexOne i 'O' ('R' :: ' ' :: s)).rest = ' ' :: s := by
    rw [hlex]
    unfold lexWord
    rw [hop]
    rfl
  have hlen : ('R' :: ' ' :: s).length + 1 - (' ' :: s).length = 2 := by
    simp only [List.length_cons]
    omega
  rw [tokensFrom_cons htok hrest, hlen]
  rfl

/-- A text that is cut into some tokens, up to where it may end. -/
def Reads (s : Text) (toks : List Tok) : Prop :=
  ∀ i after, Ends after → ∃ ts, tokensFrom i (s ++ after) = ts ++ tokensFrom (i + s.length) after ∧
    ts.map Token.tok = toks

namespace Reads

variable {s t : Text} {a b : List Tok}

theorem nil : Reads [] [] := fun i after _ => ⟨[], by simp, rfl⟩

theorem append (hs : Reads s a) (ht : Reads t b) (hends : ∀ after, Ends after → Ends (t ++ after)) :
    Reads (s ++ t) (a ++ b) := by
  intro i after hafter
  obtain ⟨ts, hts, ha⟩ := hs i (t ++ after) (hends after hafter)
  obtain ⟨us, hus, hb⟩ := ht (i + s.length) after hafter
  refine ⟨ts ++ us, ?_, by rw [List.map_append, ha, hb]⟩
  rw [List.append_assoc, hts, hus, List.append_assoc, List.length_append, Nat.add_assoc]

theorem space (hs : Reads s a) : Reads (' ' :: s) a := by
  intro i after hafter
  obtain ⟨ts, hts, ha⟩ := hs (i + 1) after hafter
  refine ⟨ts, ?_, ha⟩
  rw [List.cons_append, tokensFrom_space, hts, List.length_cons, Nat.add_right_comm,
    Nat.add_assoc i]

theorem sign {c : Char} {tok : Tok}
    (h : ∀ i after, lexOne i c (s ++ after) = ⟨some tok, [], s ++ after⟩) (hs : Reads s a) :
    Reads (c :: s) (tok :: a) := by
  intro i after hafter
  obtain ⟨ts, hts, ha⟩ := hs (i + 1) after hafter
  refine ⟨⟨tok, i⟩ :: ts, ?_, by rw [List.map_cons, ha]⟩
  rw [List.cons_append, tokensFrom_sign (h i after), hts, List.length_cons, List.cons_append,
    Nat.add_right_comm, Nat.add_assoc i]

theorem or (hs : Reads s a) : Reads (" OR ".toList ++ s) (.or :: a) := by
  intro i after hafter
  obtain ⟨ts, hts, ha⟩ := hs (i + 4) after hafter
  refine ⟨⟨.or, i + 1⟩ :: ts, ?_, by rw [List.map_cons, ha]⟩
  have hlen : (" OR ".toList ++ s).length = 4 + s.length := List.length_append
  have hcons : " OR ".toList ++ s ++ after = ' ' :: 'O' :: 'R' :: ' ' :: (s ++ after) := rfl
  rw [hcons, tokensFrom_space, tokensFrom_or, tokensFrom_space, hts, hlen, Nat.add_assoc i 4]
  rfl

theorem group (hs : Reads s a) : Reads ('(' :: s ++ [')']) (.lparen :: a ++ [.rparen]) := by
  intro i after hafter
  have hends : Ends (')' :: after) := fun c hc => .inr (Option.some.inj hc).symm
  obtain ⟨ts, hts, ha⟩ := hs (i + 1) (')' :: after) hends
  refine ⟨⟨.lparen, i⟩ :: ts ++ [⟨.rparen, i + 1 + s.length⟩], ?_, by simp [ha]⟩
  have hcons : '(' :: s ++ [')'] ++ after = '(' :: (s ++ ')' :: after) := by simp
  have hopen : lexOne i '(' (s ++ ')' :: after) = ⟨some .lparen, [], s ++ ')' :: after⟩ := rfl
  have hclose : lexOne (i + 1 + s.length) ')' after = ⟨some .rparen, [], after⟩ := rfl
  have hlen : i + 1 + s.length + 1 = i + ('(' :: s ++ [')']).length := by
    rw [List.length_append, List.length_cons, List.length_singleton]
    omega
  rw [hcons, tokensFrom_sign hopen, hts, tokensFrom_sign hclose, hlen]
  simp

end Reads

/-- A clause that is shown as its tokens are cut. -/
structure Cut (e : Expr) : Prop where
  opens : ∃ c t, e.display = c :: t ∧ isSpace c = false ∧ c ≠ ')'
  reads : Reads e.display e.toks

theorem ends_space (s : Text) : Ends (' ' :: s) := fun _ hc => .inl (Option.some.inj hc).symm

theorem tokensFrom_leaf (h : Leaf e) (i : ℕ) {after : Text} (hafter : Ends after) :
    tokensFrom i (e.display ++ after) =
      ⟨.leaf e, i⟩ :: tokensFrom (i + e.display.length) after := by
  obtain ⟨c, t, hdisplay, -, -, hlex⟩ := h.shown
  obtain ⟨htok, hrest⟩ := hlex i after hafter
  have hlen : (t ++ after).length + 1 - after.length = e.display.length := by
    rw [hdisplay, List.length_append, List.length_cons]
    omega
  rw [hdisplay, List.cons_append, tokensFrom_cons htok hrest, hlen, hdisplay]
  rfl

theorem cut_of_leaf (h : Leaf e) : Cut e where
  opens := by
    obtain ⟨c, t, hdisplay, hspace, hparen, -⟩ := h.shown
    exact ⟨c, t, hdisplay, hspace, hparen⟩
  reads := fun i _ hafter =>
    ⟨[⟨.leaf e, i⟩], tokensFrom_leaf h i hafter, (Expr.toks_of_isLeaf h.leaf).symm⟩

theorem cut_not {a : Expr} (h : Cut a) : Cut (.not a) where
  opens := ⟨'-', a.display, rfl, by decide, by decide⟩
  reads := by
    obtain ⟨c, t, hdisplay, hspace, hparen⟩ := h.opens
    refine Reads.sign (fun i after => ?_) h.reads
    have hsign : ((a.display ++ after).head?.any fun n => !isSpace n && n != ')') = true := by
      rw [hdisplay]
      show (!isSpace c && c != ')') = true
      rw [hspace]
      simpa using hparen
    unfold lexOne lexBare
    rw [if_neg (by decide), if_neg (by decide), if_neg (by decide), if_neg (by decide),
      if_pos ⟨rfl, hsign⟩]

theorem cut_unary {A : Expr → Prop} (hA : ∀ e, A e → Cut e) (h : Unary A e) :
    Cut e := by
  rcases h with h | ⟨a, ha, rfl⟩
  · exact hA e h
  · exact cut_not (hA a ha)

theorem reads_joinAfter_or (h : ∀ e ∈ items, Cut e) :
    Reads (joinAfter " OR ".toList items) (toksAfterOr items) := by
  induction items with
  | nil => exact Reads.nil
  | cons e items ih =>
    have hrest := ih fun x hx => h x (List.mem_cons_of_mem _ hx)
    refine Reads.append (Reads.or (h e List.mem_cons_self).reads) hrest fun after hafter => ?_
    cases items with
    | nil => exact hafter
    | cons e items => exact ends_space _

theorem cut_clause {A : Expr → Prop} (hA : ∀ e, A e → Cut e) (h : Clause A e) :
    Cut e := by
  rcases h with h | ⟨x, y, items, hall, rfl⟩
  · exact cut_unary hA h
  · have hcut : ∀ z ∈ x :: y :: items, Cut z := fun z hz => cut_unary hA (hall z hz)
    have hx := hcut x List.mem_cons_self
    obtain ⟨c, t, hdisplay, hspace, hparen⟩ := hx.opens
    refine ⟨⟨c, t ++ joinAfter " OR ".toList (y :: items), ?_, hspace, hparen⟩, ?_⟩
    · show x.display ++ joinAfter " OR ".toList (y :: items) = _
      rw [hdisplay]
      rfl
    · exact Reads.append hx.reads
        (reads_joinAfter_or fun z hz => hcut z (List.mem_cons_of_mem _ hz))
        fun after _ => ends_space _

theorem reads_joinAfter (h : ∀ e ∈ items, Cut e) :
    Reads (joinAfter [' '] items) (toksAll items) := by
  induction items with
  | nil => exact Reads.nil
  | cons e items ih =>
    have hrest := ih fun x hx => h x (List.mem_cons_of_mem _ hx)
    refine Reads.append (Reads.space (h e List.mem_cons_self).reads) hrest fun after hafter => ?_
    cases items with
    | nil => exact hafter
    | cons e items => exact ends_space _

/-- **Clauses are shown as their tokens are cut.** -/
theorem reads_join (h : ∀ e ∈ items, Cut e) :
    Reads (join [' '] items) (toksAll items) := by
  cases items with
  | nil => exact Reads.nil
  | cons e items =>
    refine Reads.append (h e List.mem_cons_self).reads
      (reads_joinAfter fun x hx => h x (List.mem_cons_of_mem _ hx)) fun after hafter => ?_
    cases items with
    | nil => exact hafter
    | cons e items => exact ends_space _

theorem cut_atom (room : ℕ) : ∀ e, Atom room e → Cut e := by
  induction room with
  | zero => exact fun e h => cut_of_leaf h
  | succ room ih =>
    intro e h
    rcases h with h | ⟨items, -, hall, rfl⟩
    · exact cut_of_leaf h
    · exact ⟨⟨'(', _, rfl, by decide, by decide⟩,
        Reads.group (reads_join fun x hx => cut_clause ih (hall x hx))⟩

/-! ### Building clauses from their tokens -/

def Parser.took (p : Parser) (e : Expr) (rest : List Token) : Parser :=
  { p with toks := rest, leaves := p.leaves + e.leaves, text := p.text + e.spent }

open Search.Parser

def Parser.tookAll (p : Parser) (items : List Expr) (rest : List Token) : Parser :=
  { p with toks := rest, leaves := p.leaves + leavesAll items, text := p.text + spentAll items }

/-- A parser at some tokens that has room for so many leaves and so much text. -/
structure Parser.Holds (p : Parser) (toks : List Tok) (leaves text : ℕ) (rest : List Token) :
    Prop where
  toks : ∃ ts, p.toks = ts ++ rest ∧ ts.map Token.tok = toks
  abort : p.abort = none
  leaves : p.leaves + leaves ≤ maxClauses
  text : p.text + text ≤ maxText

/-- Whether an alternative may follow. -/
def StartsOr (rest : List Token) : Prop := ∃ t ∈ rest.head?, t.tok.isOr

/-- What builds clauses of a kind from their tokens. -/
def Builds (A : Expr → Prop) (f : Parser → Option Expr × Parser) : Prop :=
  ∀ e, A e → ∀ p rest, p.Holds e.toks e.leaves e.spent rest → f p = (some e, p.took e rest)

def startsAtom : Tok → Bool
  | .leaf _ => true
  | .lparen => true
  | _ => false

theorem atom_opens {room : ℕ} (h : Atom room e) :
    ∃ t toks, e.toks = t :: toks ∧ startsAtom t := by
  have hleaf : ∀ {e : Expr}, Leaf e → ∃ t toks, e.toks = t :: toks ∧ startsAtom t := fun h =>
    ⟨_, [], Expr.toks_of_isLeaf h.leaf, rfl⟩
  cases room with
  | zero => exact hleaf h
  | succ room =>
    rcases h with h | ⟨items, -, -, rfl⟩
    · exact hleaf h
    · exact ⟨.lparen, toksAll items ++ [.rparen], rfl, rfl⟩

theorem Parser.Holds.cons {p : Parser} {t : Tok} {toks : List Tok} {leaves text : ℕ}
    {rest : List Token} (h : p.Holds (t :: toks) leaves text rest) :
    ∃ token ts, p.toks = token :: ts ∧ token.tok = t ∧
      (p.pass).Holds toks leaves text rest := by
  obtain ⟨us, hus, hmap⟩ := h.toks
  cases us with
  | nil => simp at hmap
  | cons token us =>
    obtain ⟨htok, hmap⟩ := List.cons.inj hmap
    refine ⟨token, us ++ rest, hus, htok, ⟨us, ?_, hmap⟩, h.abort, h.leaves, h.text⟩
    show p.toks.tail = us ++ rest
    rw [hus]
    rfl

theorem Parser.Holds.nil {p : Parser} {leaves text : ℕ}
    (h : p.Holds [] leaves text rest) : p.toks = rest := by
  obtain ⟨ts, hts, hmap⟩ := h.toks
  rw [List.map_eq_nil_iff.mp hmap] at hts
  exact hts

theorem Parser.Holds.split {p : Parser} {toks : List Tok} {leaves text : ℕ}
    (h : p.Holds (e.toks ++ toks) (e.leaves + leaves) (e.spent + text) rest) :
    ∃ mid, p.Holds e.toks e.leaves e.spent mid ∧ (p.took e mid).Holds toks leaves text rest := by
  obtain ⟨ts, hts, hmap⟩ := h.toks
  obtain ⟨us, vs, rfl, hus, hvs⟩ := List.map_eq_append_iff.mp hmap
  have hleaves := h.leaves
  have htext := h.text
  refine ⟨vs ++ rest, ⟨⟨us, by rw [hts, List.append_assoc], hus⟩, h.abort, ?_, ?_⟩,
    ⟨vs, rfl, hvs⟩, h.abort, ?_, ?_⟩
  · omega
  · omega
  · show p.leaves + e.leaves + leaves ≤ maxClauses
    omega
  · show p.text + e.spent + text ≤ maxText
    omega

theorem peek_of_cons {p : Parser} {t : Token} (h : p.toks = t :: ts) :
    p.peek = some t.tok := by
  unfold peek
  rw [h]
  rfl

theorem builds_leaf (h : Leaf e) (inner : Option GroupReader) {p : Parser}
    (hp : p.Holds e.toks e.leaves e.spent rest) :
    p.atom inner = (some e, p.took e rest) := by
  have hleaves := hp.leaves
  have htext := hp.text
  rw [Expr.toks_of_isLeaf h.leaf] at hp
  obtain ⟨token, ts, htoks, htok, hpass⟩ := hp.cons
  rw [Expr.leaves_of_isLeaf h.leaf] at hleaves
  rw [Expr.spent_of_isLeaf h.leaf] at htext
  have hrest : p.toks.tail = rest := hpass.nil
  unfold Parser.atom Parser.leaf Parser.took
  rw [peek_of_cons htoks, htok]
  dsimp only
  rw [if_neg (by omega), if_neg (by omega), hrest, Expr.leaves_of_isLeaf h.leaf,
    Expr.spent_of_isLeaf h.leaf]

theorem minuses_of_startsAtom {token : Token} (h : startsAtom token.tok) (ts : List Token) :
    minuses (token :: ts) = (false, token :: ts) := by
  have hm : token.tok.isMinus = false := by
    cases htok : token.tok <;> rw [htok] at h <;> first | rfl | simp [startsAtom] at h
  rw [minuses, if_neg (by rw [hm]; decide)]

theorem alternatives_of_not_or (inner : Option GroupReader) {p : Parser}
    (h : ¬ StartsOr p.toks) : p.alternatives inner = ([], p) := by
  rw [alternatives]
  split
  next t after rest htoks =>
    rw [if_neg]
    intro hif
    exact h ⟨t, by rw [htoks]; rfl, hif.2.1⟩
  next => rfl

theorem alternatives_cons (inner : Option GroupReader) {p : Parser} {t after : Token}
    (h : p.toks = t :: after :: ts) (ha : p.abort = none) (ht : t.tok = .or)
    (hafter : after.tok.isRparen = false) :
    p.alternatives inner = ((p.pass.unary inner).1.toList ++
      ((p.pass.unary inner).2.alternatives inner).1,
      ((p.pass.unary inner).2.alternatives inner).2) := by
  rw [alternatives]
  split
  next heq =>
    rw [h] at heq
    simp only [List.cons.injEq] at heq
    obtain ⟨ht', hafter', -⟩ := heq
    rw [← ht', ← hafter', ht, hafter, ha]
    rfl
  next hne => exact absurd h (hne _ _ _)

theorem andExpr_of_abort (nested : Bool) (inner : Option GroupReader) {p : Parser}
    (h : p.abort.isSome) : p.andExpr nested inner = ([], p) := by
  rw [andExpr, dif_pos h]

theorem andExpr_of_toks_nil (nested : Bool) (inner : Option GroupReader) {p : Parser}
    (h : p.toks = []) : p.andExpr nested inner = ([], p) := by
  have hpeek : p.peek = none := by
    unfold peek
    rw [h]
    rfl
  rw [andExpr]
  split
  · rfl
  · split
    · rfl
    next heq =>
      rw [hpeek] at heq
      simp at heq

theorem andExpr_of_rparen (inner : Option GroupReader) {p : Parser} {t : Token}
    (h : p.toks = t :: ts) (ht : t.tok = .rparen) : p.andExpr true inner = ([], p) := by
  have hpeek : p.peek = some .rparen := by rw [peek_of_cons h, ht]
  rw [andExpr]
  split
  · rfl
  · split
    · rfl
    next heq =>
      rw [hpeek] at heq
      obtain rfl := Option.some.inj heq
      rfl

theorem andExpr_cons (nested : Bool) (inner : Option GroupReader) {p : Parser} {t : Token}
    (h : p.toks = t :: ts) (ha : p.abort = none)
    (ht : t.tok.isRparen = false) :
    p.andExpr nested inner = ((p.orExpr inner).1.toList ++
      ((p.orExpr inner).2.andExpr nested inner).1,
      ((p.orExpr inner).2.andExpr nested inner).2) := by
  rw [andExpr, dif_neg (by rw [ha]; decide)]
  split
  next heq =>
    rw [peek_of_cons h] at heq
    simp at heq
  next heq =>
    rw [peek_of_cons h] at heq
    obtain rfl := Option.some.inj heq
    rw [dif_neg (by rw [ht]; decide)]

section Levels

variable {A : Expr → Prop} {inner : Option GroupReader}
  (hopens : ∀ e, A e → ∃ t toks, e.toks = t :: toks ∧ startsAtom t)
  (hbuilds : Builds A (Parser.atom inner))

include hopens in
theorem unary_opens (h : Unary A e) :
    ∃ t toks, e.toks = t :: toks ∧ t.isOr = false ∧ t.isRparen = false := by
  rcases h with h | ⟨a, -, rfl⟩
  · obtain ⟨t, toks, htoks, ht⟩ := hopens e h
    refine ⟨t, toks, htoks, ?_⟩
    cases t with
    | leaf | lparen => exact ⟨rfl, rfl⟩
    | rparen | or | minus => simp [startsAtom] at ht
  · exact ⟨.minus, a.toks, rfl, rfl, rfl⟩

include hopens in
theorem clause_opens (h : Clause A e) :
    ∃ t toks, e.toks = t :: toks ∧ t.isOr = false ∧ t.isRparen = false := by
  rcases h with h | ⟨x, y, items, hall, rfl⟩
  · exact unary_opens hopens h
  · obtain ⟨t, toks, htoks, ht⟩ := unary_opens hopens (hall x List.mem_cons_self)
    refine ⟨t, toks ++ toksAfterOr (y :: items), ?_, ht⟩
    show x.toks ++ toksAfterOr (y :: items) = _
    rw [htoks]
    rfl

include hopens hbuilds

theorem builds_unary : Builds (Unary A) (unary inner) := by
  intro e he p rest hp
  rcases he with he | ⟨a, ha, rfl⟩
  · obtain ⟨t, toks, htoks, hstart⟩ := hopens e he
    obtain ⟨token, ts, hpt, htok, -⟩ := (htoks ▸ hp).cons
    have hsigns : minuses p.toks = (false, p.toks) := by
      rw [hpt]
      exact minuses_of_startsAtom (htok ▸ hstart) ts
    unfold unary
    dsimp only
    rw [hsigns]
    dsimp only
    rw [hbuilds e he p rest hp]
    rfl
  · obtain ⟨token, ts, hpt, htok, hpass⟩ := hp.cons
    obtain ⟨t, toks, htoks, hstart⟩ := hopens a ha
    obtain ⟨token', ts', hpt', htok', -⟩ := (htoks ▸ hpass).cons
    have hts : ts = token' :: ts' := by
      rw [← hpt']
      show ts = p.toks.tail
      rw [hpt]
      rfl
    have hsigns : minuses p.toks = (true, p.pass.toks) := by
      have hm : Tok.minus.isMinus = true := rfl
      rw [hpt, minuses, htok, if_pos hm, hts, minuses_of_startsAtom (htok' ▸ hstart), ← hpt']
      rfl
    unfold unary
    dsimp only
    rw [hsigns]
    dsimp only
    have hatom := hbuilds a ha p.pass rest hpass
    rw [show atom inner { p with toks := p.pass.toks } = _ from hatom]
    rfl

theorem alternatives_items (h : ∀ x ∈ items, Unary A x) {p : Parser} (hrest : ¬ StartsOr rest)
    (hp : p.Holds (toksAfterOr items) (leavesAll items) (spentAll items) rest) :
    p.alternatives inner = (items, p.tookAll items rest) := by
  induction items generalizing p with
  | nil =>
    have htoks := hp.nil
    have hp' : ¬ StartsOr p.toks := by rwa [htoks]
    rw [alternatives_of_not_or inner hp', ← htoks]
    rfl
  | cons e items ih =>
    have he := h e List.mem_cons_self
    obtain ⟨token, ts, hpt, htok, hpass⟩ := hp.cons
    obtain ⟨mid, hmid, hthen⟩ := hpass.split
    obtain ⟨t, toks, htoks, -, hparen⟩ := unary_opens hopens he
    obtain ⟨token', ts', hpt', htok', -⟩ := (htoks ▸ hmid).cons
    have hts : p.toks = token :: token' :: ts' := by
      rw [← hpt', hpt]
      show token :: ts = token :: p.toks.tail
      rw [hpt]
      rfl
    have hunary := builds_unary hopens hbuilds e he p.pass mid hmid
    rw [alternatives_cons inner hts hp.abort htok (htok' ▸ hparen), hunary]
    dsimp only
    rw [ih (fun x hx => h x (List.mem_cons_of_mem _ hx)) hthen]
    unfold Parser.tookAll Parser.took Parser.pass
    simp only [leavesAll, spentAll, Nat.add_assoc]
    rfl

theorem builds_clause (he : Clause A e) {p : Parser}
    (hrest : ¬ StartsOr rest) (hp : p.Holds e.toks e.leaves e.spent rest) :
    p.orExpr inner = (some e, p.took e rest) := by
  rcases he with he | ⟨x, y, items, hall, rfl⟩
  · unfold Parser.orExpr
    rw [builds_unary hopens hbuilds e he p rest hp]
    dsimp only
    rw [alternatives_of_not_or inner hrest]
    rfl
  · obtain ⟨mid, hmid, hthen⟩ := hp.split
    unfold Parser.orExpr
    rw [builds_unary hopens hbuilds x (hall x List.mem_cons_self) p mid hmid]
    dsimp only
    rw [alternatives_items hopens hbuilds (fun z hz => hall z (List.mem_cons_of_mem _ hz)) hrest
      hthen]
    unfold Parser.tookAll Parser.took
    simp only [List.isEmpty_cons, Expr.leaves, Expr.spent, leavesAll, spentAll, Nat.add_assoc]
    rfl

/-- **The parser builds clauses from their tokens**, and goes on after them. -/
theorem andExpr_clauses (nested : Bool) (h : ∀ x ∈ items, Clause A x)
    {p : Parser} (hrest : ¬ StartsOr rest)
    (hp : p.Holds (toksAll items) (leavesAll items) (spentAll items) rest) :
    p.andExpr nested inner = (items ++ ((p.tookAll items rest).andExpr nested inner).1,
      ((p.tookAll items rest).andExpr nested inner).2) := by
  induction items generalizing p with
  | nil =>
    have htoks := hp.nil
    have hself : p.tookAll [] rest = p := by
      rw [← htoks]
      rfl
    rw [hself]
    rfl
  | cons e items ih =>
    have he := h e List.mem_cons_self
    obtain ⟨mid, hmid, hthen⟩ := hp.split
    obtain ⟨t, toks, htoks, hor, hparen⟩ := clause_opens hopens he
    obtain ⟨token, ts, hpt, htok, -⟩ := (htoks ▸ hmid).cons
    have hnext : ¬ StartsOr mid := by
      cases items with
      | nil =>
        have hmid' : mid = rest := hthen.nil
        rwa [hmid']
      | cons x items =>
        obtain ⟨t', toks', htoks', hor', -⟩ :=
          clause_opens hopens (h x (List.mem_cons_of_mem _ List.mem_cons_self))
        obtain ⟨mid', hmid', -⟩ := hthen.split
        obtain ⟨token', ts', hpt', htok', -⟩ := (htoks' ▸ hmid').cons
        rintro ⟨t₁, ht₁, hstarts⟩
        have hmem : mid = token' :: ts' := hpt'
        rw [hmem] at ht₁
        obtain rfl := Option.some.inj ht₁
        rw [htok', hor'] at hstarts
        exact Bool.false_ne_true hstarts
    have htook : (p.took e mid).tookAll items rest = p.tookAll (e :: items) rest := by
      unfold Parser.tookAll Parser.took
      simp only [leavesAll, spentAll, Nat.add_assoc]
    rw [andExpr_cons nested inner hpt hp.abort (htok ▸ hparen),
      builds_clause hopens hbuilds he hnext hmid]
    dsimp only
    rw [ih (fun x hx => h x (List.mem_cons_of_mem _ hx)) hthen, htook]
    rfl

end Levels

theorem atom_group (reader : GroupReader) {p q : Parser} {t close : Token} {ts rest : List Token}
    (h : p.toks = t :: ts) (ht : t.tok = .lparen)
    (hread : reader.read p.pass = (items, q)) (hne : items ≠ []) (ha : q.abort = none)
    (hq : q.toks = close :: rest) (hclose : close.tok = .rparen) :
    p.atom (some reader) = (some (.group items), q.pass) := by
  have hempty : items.isEmpty = false := by simpa using hne
  have habort : q.abort.isSome = false := by rw [ha]; rfl
  have hparen : q.peek.any Tok.isRparen = true := by
    rw [peek_of_cons hq, hclose]
    rfl
  unfold atom
  rw [peek_of_cons h, ht]
  simp only [hread, hempty, habort, hparen]
  rfl

theorem not_startsOr_rparen {t : Token} (h : t.tok = .rparen) (ts : List Token) :
    ¬ StartsOr (t :: ts) := by
  rintro ⟨t', ht', hor⟩
  obtain rfl := Option.some.inj ht'
  rw [h] at hor
  exact Bool.false_ne_true hor

theorem builds_atom (room : ℕ) : Builds (Atom room) (atom (inner room)) := by
  induction room with
  | zero => exact fun e he p rest hp => builds_leaf he _ hp
  | succ room ih =>
    intro e he p rest hp
    rcases he with he | ⟨items, hne, hall, rfl⟩
    · exact builds_leaf he _ hp
    · obtain ⟨token, ts, hpt, htok, hpass⟩ := hp.cons
      obtain ⟨us, hus, hmap⟩ := hpass.toks
      obtain ⟨vs, ws, rfl, hvs, hws⟩ := List.map_eq_append_iff.mp hmap
      obtain ⟨close, rfl, hclose⟩ := List.map_eq_singleton_iff.mp hws
      have hitems : p.pass.Holds (toksAll items) (leavesAll items) (spentAll items)
          (close :: rest) :=
        ⟨⟨vs, by rw [hus, List.append_assoc]; rfl, hvs⟩, hpass.abort, hpass.leaves, hpass.text⟩
      have hread := andExpr_clauses (fun e he => atom_opens he) ih true hall
        (not_startsOr_rparen hclose rest) hitems
      have htook : (p.pass.tookAll items (close :: rest)).toks = close :: rest := rfl
      rw [andExpr_of_rparen (inner room) htook hclose, List.append_nil] at hread
      exact atom_group ⟨_, _⟩ hpt htok hread hne hp.abort htook hclose

/-! ### The shape of what is built -/

/-- Tokens whose leaves are cut out again where they are shown. -/
def LeafTokens (toks : List Token) : Prop := ∀ t ∈ toks, ∀ e, t.tok = .leaf e → Leaf e

theorem LeafTokens.of_suffix {toks rest : List Token} (h : LeafTokens toks)
    (hrest : rest <:+ toks) : LeafTokens rest := fun t ht => h t (hrest.subset ht)

/-- A parser made clauses of a kind: it took their leaves, within the limits. -/
structure Shaped (A : Expr → Prop) (p : Parser) (items : List Expr) (q : Parser) : Prop where
  all : ∀ e ∈ items, A e
  leaves : q.leaves = p.leaves + leavesAll items
  text : q.text = p.text + spentAll items
  fits : p.leaves ≤ maxClauses ∧ p.text ≤ maxText → q.leaves ≤ maxClauses ∧ q.text ≤ maxText

open Shaped

namespace Shaped

variable {A B : Expr → Prop} {p q r : Parser} {xs ys : List Expr}

theorem of_eq (hl : q.leaves = p.leaves) (ht : q.text = p.text) : Shaped A p [] q :=
  ⟨by simp, by rw [hl]; rfl, by rw [ht]; rfl, by rw [hl, ht]; exact id⟩

theorem trans (h : Shaped A p xs q) (h' : Shaped A q ys r) : Shaped A p (xs ++ ys) r where
  all := by
    intro e he
    rcases List.mem_append.mp he with he | he
    · exact h.all e he
    · exact h'.all e he
  leaves := by rw [h'.leaves, h.leaves, leavesAll_append, Nat.add_assoc]
  text := by rw [h'.text, h.text, spentAll_append, Nat.add_assoc]
  fits := h'.fits ∘ h.fits

theorem single (h : Shaped A p xs q) (he : B e) (hl : e.leaves = leavesAll xs)
    (ht : e.spent = spentAll xs) : Shaped B p [e] q where
  all := fun x hx => List.mem_singleton.mp hx ▸ he
  leaves := by rw [h.leaves, ← hl]; rfl
  text := by rw [h.text, ← ht]; rfl
  fits := h.fits

theorem mono (h : Shaped A p xs q) (hAB : ∀ e, A e → B e) : Shaped B p xs q :=
  ⟨fun e he => hAB e (h.all e he), h.leaves, h.text, h.fits⟩

end Shaped

theorem shaped_leaf (h : Leaf e) (p : Parser) :
    Shaped Leaf p (p.leaf e).1.toList (p.leaf e).2 := by
  unfold Parser.leaf
  split
  · exact Shaped.of_eq rfl rfl
  next hleaves =>
    split
    · exact Shaped.of_eq rfl rfl
    next htext =>
      refine ⟨fun x hx => List.mem_singleton.mp hx ▸ h, ?_, ?_, fun _ => ⟨?_, ?_⟩⟩
      · show p.leaves + 1 = p.leaves + (e.leaves + 0)
        rw [Expr.leaves_of_isLeaf h.leaf]
      · show p.text + leafCost e = p.text + (e.spent + 0)
        rw [Expr.spent_of_isLeaf h.leaf]
        rfl
      · show p.leaves + 1 ≤ maxClauses
        omega
      · show p.text + leafCost e ≤ maxText
        omega

section Levels

variable {A : Expr → Prop} {inner : Option GroupReader}
  (hatom : ∀ p : Parser, LeafTokens p.toks → Shaped A p (p.atom inner).1.toList (p.atom inner).2)

include hatom

section

variable {p : Parser} (h : LeafTokens p.toks)
include h

theorem shaped_unary :
    Shaped (Unary A) p (p.unary inner).1.toList (p.unary inner).2 := by
  have hsigns := hatom { p with toks := (minuses p.toks).2 }
    (h.of_suffix (suffix_minuses p.toks))
  unfold unary
  dsimp only
  cases hr : (atom inner { p with toks := (minuses p.toks).2 }).1 with
  | none =>
    rw [hr] at hsigns
    exact ⟨by simp, hsigns.leaves, hsigns.text, hsigns.fits⟩
  | some e =>
    rw [hr] at hsigns
    have he : A e := hsigns.all e List.mem_cons_self
    have hshaped : Shaped A p [e] _ := ⟨hsigns.all, hsigns.leaves, hsigns.text, hsigns.fits⟩
    show Shaped (Unary A) p [if (minuses p.toks).1 then .not e else e] _
    split
    · exact hshaped.single (.inr ⟨e, he, rfl⟩) rfl rfl
    · exact hshaped.mono fun e he => .inl he

theorem shaped_alternatives :
    Shaped (Unary A) p (p.alternatives inner).1 (p.alternatives inner).2 := by
  fun_induction alternatives inner p with
  | case1 p t after rest htoks _ r ih =>
    have hpass : LeafTokens p.pass.toks := h.of_suffix (List.tail_suffix _)
    have hunary := shaped_unary hatom hpass
    have hrest := ih (hpass.of_suffix (suffix_unary inner p.pass))
    have hshaped := hunary.trans hrest
    exact ⟨hshaped.all, hshaped.leaves, hshaped.text, hshaped.fits⟩
  | case2 => exact of_eq rfl rfl
  | case3 => exact of_eq rfl rfl

theorem shaped_orExpr :
    Shaped (Clause A) p (p.orExpr inner).1.toList (p.orExpr inner).2 := by
  have hfirst := shaped_unary hatom h
  unfold orExpr
  dsimp only
  split
  next hnone =>
    rw [hnone] at hfirst
    exact hfirst.mono fun e he => .inl he
  next e hsome =>
    rw [hsome] at hfirst
    have hothers := shaped_alternatives hatom (h.of_suffix (suffix_unary inner p))
    have hboth := hfirst.trans hothers
    cases hitems : ((p.unary inner).2.alternatives inner).1 with
    | nil =>
      rw [hitems] at hboth
      exact hboth.mono fun e he => .inl he
    | cons y items =>
      rw [hitems] at hboth
      exact hboth.single (.inr ⟨e, y, items, hboth.all, rfl⟩) rfl rfl

end

/-- **What the parser makes is of the shape, within the limits.** -/
theorem shaped_andExpr (nested : Bool) {p : Parser} (h : LeafTokens p.toks) :
    Shaped (Clause A) p (p.andExpr nested inner).1 (p.andExpr nested inner).2 := by
  fun_induction andExpr nested inner p with
  | case1 => exact of_eq rfl rfl
  | case2 => exact of_eq rfl rfl
  | case3 => exact of_eq rfl rfl
  | case4 p _ t hpeek _ _ ih =>
    have hshaped := ih (h.of_suffix (List.tail_suffix _))
    exact ⟨hshaped.all, hshaped.leaves, hshaped.text, hshaped.fits⟩
  | case5 p _ t hpeek _ r ih =>
    exact (shaped_orExpr hatom h).trans (ih (h.of_suffix (suffix_orExpr inner p)))

end Levels

theorem mem_of_peek {p : Parser} {t : Tok} (h : p.peek = some t) :
    ∃ token ∈ p.toks, token.tok = t := by
  unfold peek at h
  obtain ⟨token, htoken, htok⟩ := Option.map_eq_some_iff.mp h
  exact ⟨token, List.mem_of_mem_head? htoken, htok⟩

theorem shaped_atom_of {A B : Expr → Prop} (hleaf : ∀ e, Leaf e → A e)
    (hgroup : ∀ items, items ≠ [] → (∀ x ∈ items, B x) → A (.group items))
    {inner : Option GroupReader} (hread : ∀ reader ∈ inner, ∀ p : Parser, LeafTokens p.toks →
      Shaped B p (reader.read p).1 (reader.read p).2)
    (p : Parser) (h : LeafTokens p.toks) :
    Shaped A p (p.atom inner).1.toList (p.atom inner).2 := by
  unfold atom
  split
  · exact of_eq rfl rfl
  next e hpeek =>
    obtain ⟨token, hmem, htok⟩ := mem_of_peek hpeek
    exact (shaped_leaf (h token hmem e htok) p).mono hleaf
  next =>
    have hor : Leaf (.phrase "OR".toList) := leaf_phrase (by decide) (by decide) (by decide)
    have hshaped := shaped_leaf hor (p.note (notice .literalOr p.start (p.start + 2)))
    exact ⟨fun e he => hleaf e (hshaped.all e he), hshaped.leaves, hshaped.text, hshaped.fits⟩
  next =>
    split
    · exact of_eq rfl rfl
    next reader =>
      have hitems := hread reader rfl p.pass (h.of_suffix (List.tail_suffix _))
      dsimp only
      generalize hq : (if (reader.read p.pass).2.abort.isSome = true then (reader.read p.pass).2
        else if (reader.read p.pass).2.peek.any Tok.isRparen = true then
          (reader.read p.pass).2.pass
        else (reader.read p.pass).2.note
          (notice .unclosedGroup p.start (reader.read p.pass).2.len)) = q
      have hsame : q.leaves = (reader.read p.pass).2.leaves ∧
          q.text = (reader.read p.pass).2.text := by
        rw [← hq]
        split
        · exact ⟨rfl, rfl⟩
        · split
          · exact ⟨rfl, rfl⟩
          · exact ⟨rfl, rfl⟩
      have hshaped : Shaped B p (reader.read p.pass).1 q := by
        refine ⟨hitems.all, ?_, ?_, ?_⟩
        · rw [hsame.1]
          exact hitems.leaves
        · rw [hsame.2]
          exact hitems.text
        · rw [hsame.1, hsame.2]
          exact hitems.fits
      cases hcases : (reader.read p.pass).1 with
      | nil =>
        rw [hcases] at hshaped
        exact ⟨by simp, hshaped.leaves, hshaped.text, hshaped.fits⟩
      | cons x items =>
        rw [hcases] at hshaped
        exact hshaped.single (hgroup _ (by simp) hshaped.all) rfl rfl
  · exact of_eq rfl rfl
  · exact of_eq rfl rfl

theorem shaped_atom (room : ℕ) (p : Parser) (h : LeafTokens p.toks) :
    Shaped (Atom room) p (p.atom (inner room)).1.toList
      (p.atom (inner room)).2 := by
  induction room generalizing p with
  | zero =>
    have hgroup : ∀ items : List Expr, items ≠ [] → (∀ x ∈ items, False) → Leaf (.group items) := by
      intro items hne hall
      obtain ⟨x, items, rfl⟩ := List.exists_cons_of_ne_nil hne
      exact (hall x List.mem_cons_self).elim
    refine shaped_atom_of (fun e he => he) hgroup (fun reader hreader => ?_) p h
    simp [Parser.inner] at hreader
  | succ room ih =>
    refine shaped_atom_of (fun e he => .inl he)
      (fun items hne hall => .inr ⟨items, hne, hall, rfl⟩) ?_ p h
    intro reader hreader q hq
    obtain rfl := Option.some.inj hreader
    exact shaped_andExpr ih true hq

theorem leafTokens_tokensFrom (i : ℕ) (s : Text) : LeafTokens (tokensFrom i s) := by
  unfold tokensFrom
  fun_induction pieces i s with
  | case1 => simp [LeafTokens]
  | case2 i c s ih =>
    intro t ht e he
    rw [List.filterMap_cons] at ht
    cases hlex : (lexOne i c s).tok with
    | none =>
      rw [hlex] at ht
      exact ih t ht e he
    | some tok =>
      rw [hlex] at ht
      rcases List.mem_cons.mp ht with rfl | ht
      · exact leaf_of_lexOne (hlex.trans (congrArg some he))
      · exact ih t ht e he

/-! ### The length of what is shown -/

/-- A clause is not shown much longer than the text of its leaves. -/
def Slack (k : ℕ) (e : Expr) : Prop :=
  1 ≤ e.leaves ∧ e.display.length ≤ e.spent + k * e.leaves

theorem slack_of_leaf (h : Leaf e) : Slack 2 e := by
  refine ⟨(Expr.leaves_of_isLeaf h.leaf).ge, ?_⟩
  rw [Expr.leaves_of_isLeaf h.leaf]
  cases e with
  | term t => exact Nat.le_add_right _ _
  | phrase p =>
    show ('"' :: p ++ ['"']).length ≤ p.length + 2
    simp
  | filter f => exact Nat.le_add_right _ _
  | not | or | group => exact absurd h.leaf (by simp [Expr.isLeaf])

theorem slack_mono {k l : ℕ} (hkl : k ≤ l) (h : Slack k e) : Slack l e :=
  ⟨h.1, h.2.trans (Nat.add_le_add_left (Nat.mul_le_mul_right _ hkl) _)⟩

theorem length_joinAfter {k : ℕ} (sep : Text) (h : ∀ e ∈ items, Slack k e) :
    (joinAfter sep items).length ≤ spentAll items + (k + sep.length) * leavesAll items := by
  induction items with
  | nil => exact Nat.zero_le _
  | cons e items ih =>
    have he := h e List.mem_cons_self
    have hrest := ih fun x hx => h x (List.mem_cons_of_mem _ hx)
    have hsep : sep.length ≤ sep.length * e.leaves := Nat.le_mul_of_pos_right _ he.1
    have hhead := he.2
    show (sep ++ e.display ++ joinAfter sep items).length ≤
      e.spent + spentAll items + (k + sep.length) * (e.leaves + leavesAll items)
    rw [List.length_append, List.length_append, Nat.mul_add, Nat.add_mul k]
    omega

theorem length_join {k : ℕ} (sep : Text) (h : ∀ e ∈ items, Slack k e) :
    (join sep items).length ≤ spentAll items + (k + sep.length) * leavesAll items := by
  cases items with
  | nil => exact Nat.zero_le _
  | cons e items =>
    have hafter := length_joinAfter sep h
    rw [show joinAfter sep (e :: items) = sep ++ e.display ++ joinAfter sep items from rfl,
      List.append_assoc, List.length_append] at hafter
    exact (Nat.le_add_left _ _).trans hafter

theorem slack_unary {A : Expr → Prop} {k : ℕ} (hA : ∀ e, A e → Slack k e)
    (h : Unary A e) : Slack (k + 1) e := by
  rcases h with h | ⟨a, ha, rfl⟩
  · exact slack_mono (Nat.le_succ k) (hA e h)
  · have hslack := hA a ha
    refine ⟨hslack.1, ?_⟩
    have hlen := hslack.2
    have hone := hslack.1
    show a.display.length + 1 ≤ a.spent + (k + 1) * a.leaves
    rw [Nat.add_mul]
    omega

theorem slack_clause {A : Expr → Prop} {k : ℕ} (hA : ∀ e, A e → Slack k e)
    (h : Clause A e) : Slack (k + 5) e := by
  rcases h with h | ⟨x, y, items, hall, rfl⟩
  · exact slack_mono (by omega) (slack_unary hA h)
  · have hslack : ∀ z ∈ x :: y :: items, Slack (k + 1) z := fun z hz => slack_unary hA (hall z hz)
    refine ⟨(hslack x List.mem_cons_self).1.trans (Nat.le_add_right _ _), ?_⟩
    exact length_join " OR ".toList hslack

theorem slack_atom (room : ℕ) : ∀ e, Atom room e → Slack (2 + 8 * room) e := by
  induction room with
  | zero => exact fun e h => slack_of_leaf h
  | succ room ih =>
    intro e h
    rcases h with h | ⟨items, hne, hall, rfl⟩
    · exact slack_mono (by omega) (slack_of_leaf h)
    · have hslack : ∀ x ∈ items, Slack (2 + 8 * room + 5) x := fun x hx =>
        slack_clause ih (hall x hx)
      obtain ⟨x, others, rfl⟩ := List.exists_cons_of_ne_nil hne
      have hone : 1 ≤ leavesAll (x :: others) :=
        (hslack x List.mem_cons_self).1.trans (Nat.le_add_right _ _)
      refine ⟨hone, ?_⟩
      have hlen := length_join [' '] hslack
      show ('(' :: join [' '] (x :: others) ++ [')']).length ≤
        spentAll (x :: others) + (2 + 8 * (room + 1)) * leavesAll (x :: others)
      have hsplit : (2 + 8 * (room + 1)) * leavesAll (x :: others) =
          (2 + 8 * room + 5 + 1) * leavesAll (x :: others) + 2 * leavesAll (x :: others) := by
        rw [← Nat.add_mul]
        congr 1
      rw [List.length_append, List.length_cons, hsplit]
      rw [List.length_singleton] at hlen ⊢
      omega

/-! ### Whole queries -/

/-- Clauses within the limits of a query. -/
structure Within (items : List Expr) : Prop where
  clauses : ∀ e ∈ items, Clause (Atom maxDepth) e
  leaves : leavesAll items ≤ maxClauses
  text : spentAll items ≤ maxText

theorem Within.cut (h : Within items) : ∀ e ∈ items, Cut e := fun e he =>
  cut_clause (cut_atom maxDepth) (h.clauses e he)

theorem Within.length (h : Within items) :
    (join [' '] items).length ≤ maxText + 72 * maxClauses := by
  have hslack : ∀ e ∈ items, Slack 71 e := fun e he =>
    slack_clause (slack_atom maxDepth) (h.clauses e he)
  have hlen := length_join [' '] hslack
  have hleaves := Nat.mul_le_mul_left 72 h.leaves
  have htext := h.text
  rw [List.length_singleton] at hlen
  omega

theorem Within.holds (h : Within items) {after : Text} (hafter : Ends after) :
    (Parser.begin (join [' '] items ++ after)).Holds (toksAll items) (leavesAll items)
      (spentAll items) (tokensFrom (join [' '] items).length after) := by
  obtain ⟨ts, hts, hmap⟩ := reads_join h.cut 0 after hafter
  rw [Nat.zero_add] at hts
  exact ⟨⟨ts, hts, hmap⟩, rfl, (Nat.zero_add (leavesAll items)).le.trans h.leaves,
    (Nat.zero_add (spentAll items)).le.trans h.text⟩

theorem parse_of_none {input : Text} {p : Parser}
    (hlen : input.length ≤ maxInput)
    (h : (begin input).andExpr false (inner maxDepth) = (items, p))
    (ha : p.abort = none) : parse input = ⟨items⟩ := by
  unfold parse parseWithNotices
  dsimp only
  rw [List.take_of_length_le hlen, h]
  dsimp only
  rw [ha]

theorem parse_of_some {input : Text} {p : Parser} {start : ℕ}
    (hlen : input.length ≤ maxInput)
    (h : (begin input).andExpr false (inner maxDepth) = (items, p))
    (ha : p.abort = some ⟨.tooManyClauses, start⟩)
    (hne : restText (input.drop start) (maxText - p.text) ≠ []) :
    parse input = ⟨items ++ [.phrase (restText (input.drop start) (maxText - p.text))]⟩ := by
  unfold parse parseWithNotices
  dsimp only
  rw [List.take_of_length_le hlen, h]
  dsimp only
  rw [ha]
  dsimp only
  have hkind : NoticeKind.tooManyClauses ≠ .tooLong := by decide
  rw [if_neg hkind, if_neg hne]

theorem not_startsOr_leaf {t : Token} (h : t.tok = .leaf e) (ts : List Token) :
    ¬ StartsOr (t :: ts) := by
  rintro ⟨t', ht', hor⟩
  obtain rfl := Option.some.inj ht'
  rw [h] at hor
  exact Bool.false_ne_true hor

theorem parse_join (h : Within items) : parse (join [' '] items) = ⟨items⟩ := by
  have hlen : (join [' '] items).length ≤ maxInput := h.length.trans (by decide)
  have hends : Ends [] := by simp [Ends]
  have hholds := h.holds hends
  rw [List.append_nil, tokensFrom_nil] at hholds
  have hbuilt := andExpr_clauses (fun e he => atom_opens he) (builds_atom maxDepth) false
    h.clauses (by simp [StartsOr]) hholds
  have htoks : ((Parser.begin (join [' '] items)).tookAll items []).toks = [] := rfl
  rw [andExpr_of_toks_nil false (Parser.inner maxDepth) htoks, List.append_nil] at hbuilt
  exact parse_of_none hlen hbuilt rfl

theorem andExpr_full (nested : Bool) (inner : Option GroupReader) {p : Parser} {t : Token}
    (h : p.toks = t :: ts) (ht : t.tok = .leaf e)
    (ha : p.abort = none) (hfull : maxClauses ≤ p.leaves) :
    p.andExpr nested inner = ([], p.stop .tooManyClauses) := by
  have hsigns : minuses p.toks = (false, p.toks) := by
    rw [h]
    exact minuses_of_startsAtom (by rw [ht]; rfl) ts
  have hatom : p.atom inner = (none, p.stop .tooManyClauses) := by
    unfold atom
    rw [peek_of_cons h, ht]
    dsimp only
    unfold leaf
    rw [if_pos hfull]
  have hunary : p.unary inner = (none, p.stop .tooManyClauses) := by
    unfold unary
    dsimp only
    rw [hsigns]
    dsimp only
    rw [show atom inner { p with toks := p.toks } = _ from hatom]
    rfl
  have hor : p.orExpr inner = (none, p.stop .tooManyClauses) := by
    unfold orExpr
    rw [hunary]
  have hstopped : (p.stop .tooManyClauses).abort.isSome := rfl
  rw [andExpr_cons nested inner h ha (by rw [ht]; rfl), hor,
    andExpr_of_abort nested inner hstopped]
  rfl

/-! ### The rest of an input -/

theorem restText_eq_spaced (chars : Text) (budget : ℕ) : ∃ ws : List Text,
    (∀ w ∈ ws, IsWord w) ∧ restText chars budget = spaced ws :=
  trimEnd_take_spaced (fun _ hw => isWord_of_mem_words hw) budget

theorem mem_spaced {ws : List Text} {c : Char} (h : c ∈ spaced ws) :
    c = ' ' ∨ ∃ w ∈ ws, c ∈ w := by
  induction ws with
  | nil => simp at h
  | cons w ws ih =>
    cases ws with
    | nil => exact .inr ⟨w, List.mem_cons_self, spaced_singleton w ▸ h⟩
    | cons w' ws =>
      rw [spaced_cons_cons] at h
      rcases List.mem_append.mp h with h | h
      · exact .inr ⟨w, List.mem_cons_self, h⟩
      · rcases List.mem_cons.mp h with h | h
        · exact .inl h
        · rcases ih h with h | ⟨v, hv, h⟩
          · exact .inl h
          · exact .inr ⟨v, List.mem_cons_of_mem _ hv, h⟩

section

variable (chars : Text) (budget : ℕ)
include chars budget

theorem not_mem_restText : '"' ∉ restText chars budget := by
  intro h
  rcases mem_spaced (List.mem_of_mem_take (mem_of_mem_trimEnd h)) with h | ⟨w, hw, h⟩
  · exact absurd h (by decide)
  · obtain ⟨c, -, hc⟩ := List.mem_map.mp (mem_of_mem_words hw h)
    split at hc
    · exact absurd hc (by decide)
    next hne => exact hne hc

theorem length_restText :
    (restText chars budget).length ≤ budget := by
  unfold restText trimEnd
  exact (List.rdropWhile_prefix _ _).length_le.trans (List.length_take_le _ _)

theorem trimEnd_restText :
    trimEnd (restText chars budget) = restText chars budget := trimEnd_trimEnd _

theorem trim_restText :
    trim (restText chars budget) = restText chars budget := by
  obtain ⟨ws, hws, heq⟩ := restText_eq_spaced chars budget
  have hstart : trimStart (restText chars budget) = restText chars budget := by
    refine trimStart_eq_self fun c hc => ?_
    rw [heq] at hc
    cases ws with
    | nil => simp at hc
    | cons w ws =>
      obtain ⟨hne, hw⟩ := hws w List.mem_cons_self
      obtain ⟨d, u, rfl⟩ := List.exists_cons_of_ne_nil hne
      have hhead : (spaced ((d :: u) :: ws)).head? = some d := by
        cases ws with
        | nil => rw [spaced_singleton]; rfl
        | cons => rw [spaced_cons_cons]; rfl
      rw [hhead] at hc
      exact Option.some.inj hc ▸ hw d List.mem_cons_self
  unfold trim
  rw [hstart, trimEnd_restText]

/-- **The rest of an input, in quotes, is the same rest again.** -/
theorem restText_restText :
    restText ('"' :: restText chars budget ++ ['"']) budget = restText chars budget := by
  obtain ⟨ws, hws, heq⟩ := restText_eq_spaced chars budget
  have hmap : ('"' :: restText chars budget ++ ['"']).map (fun c => if c = '"' then ' ' else c) =
      ' ' :: spaced ws ++ [' '] := by
    have hself : (restText chars budget).map (fun c => if c = '"' then ' ' else c) =
        restText chars budget := by
      refine (List.map_congr_left fun c hc => if_neg fun hq => ?_).trans (List.map_id _)
      exact not_mem_restText chars budget (hq ▸ hc)
    rw [List.map_append, List.map_cons, hself, heq]
    rfl
  have hagain : restText ('"' :: restText chars budget ++ ['"']) budget =
      trimEnd ((spaced ws).take budget) := by
    show trimEnd ((spaced (words (('"' :: restText chars budget ++ ['"']).map _))).take budget) = _
    rw [hmap, words_spaced hws]
  rw [hagain, ← heq, List.take_of_length_le (length_restText chars budget), trimEnd_restText]

end

theorem join_concat (hne : items ≠ []) (e : Expr) :
    join [' '] (items ++ [e]) = join [' '] items ++ ' ' :: e.display := by
  have hafter : ∀ items : List Expr,
      joinAfter [' '] (items ++ [e]) = joinAfter [' '] items ++ ' ' :: e.display := by
    intro items
    induction items with
    | nil => exact List.append_nil _
    | cons x items ih =>
      show [' '] ++ x.display ++ joinAfter [' '] (items ++ [e]) = _
      rw [ih, ← List.append_assoc]
      rfl
  obtain ⟨x, items, rfl⟩ := List.exists_cons_of_ne_nil hne
  show x.display ++ joinAfter [' '] (items ++ [e]) = _
  rw [hafter, ← List.append_assoc]
  rfl

theorem leaf_restText {chars : Text} {budget : ℕ} (hne : restText chars budget ≠ []) :
    Leaf (.phrase (restText chars budget)) :=
  leaf_phrase (trim_restText chars budget) hne (not_mem_restText chars budget)

theorem parse_join_rest (h : Within items)
    (hfull : maxClauses ≤ leavesAll items) {chars : Text}
    (hne : restText chars (maxText - spentAll items) ≠ []) :
    parse (join [' '] (items ++ [.phrase (restText chars (maxText - spentAll items))])) =
      ⟨items ++ [.phrase (restText chars (maxText - spentAll items))]⟩ := by
  have hleaf := leaf_restText hne
  have hlong := length_restText chars (maxText - spentAll items)
  have hagain := restText_restText chars (maxText - spentAll items)
  generalize restText chars (maxText - spentAll items) = y at *
  have hitems : items ≠ [] := by
    rintro rfl
    exact absurd hfull (by decide)
  have htext : join [' '] (items ++ [.phrase y]) = join [' '] items ++ ' ' :: ('"' :: y ++ ['"']) :=
    join_concat hitems (.phrase y)
  have hlen : (join [' '] items ++ ' ' :: ('"' :: y ++ ['"'])).length ≤ maxInput := by
    have hwithin := h.length
    have hmax : maxText + 72 * maxClauses + (maxText + 3) ≤ maxInput := by decide
    simp only [List.length_append, List.length_cons, List.length_nil]
    omega
  have htok : tokensFrom (join [' '] items).length (' ' :: ('"' :: y ++ ['"'])) =
      [⟨.leaf (.phrase y), (join [' '] items).length + 1⟩] := by
    have hends : Ends [] := by simp [Ends]
    have hlex := tokensFrom_leaf hleaf ((join [' '] items).length + 1) hends
    rw [List.append_nil, tokensFrom_nil] at hlex
    rw [tokensFrom_space]
    exact hlex
  have hholds := h.holds (ends_space ('"' :: y ++ ['"']))
  rw [htok] at hholds
  have hbuilt := andExpr_clauses (fun e he => atom_opens he) (builds_atom maxDepth) false
    h.clauses (not_startsOr_leaf rfl []) hholds
  generalize hp : (Parser.begin (join [' '] items ++ ' ' :: ('"' :: y ++ ['"']))).tookAll items
    [⟨.leaf (.phrase y), (join [' '] items).length + 1⟩] = p at hbuilt
  have htoks : p.toks = [⟨.leaf (.phrase y), (join [' '] items).length + 1⟩] := by rw [← hp]; rfl
  have habort : p.abort = none := by rw [← hp]; rfl
  have hleaves : maxClauses ≤ p.leaves := by
    rw [← hp]
    exact hfull.trans (Nat.zero_add (leavesAll items)).ge
  have hspent : p.text = spentAll items := by
    rw [← hp]
    exact Nat.zero_add (spentAll items)
  rw [andExpr_full false (Parser.inner maxDepth) htoks rfl habort hleaves,
    List.append_nil] at hbuilt
  have hstart : (p.stop .tooManyClauses).abort =
      some ⟨.tooManyClauses, (join [' '] items).length + 1⟩ := by
    unfold Parser.stop Parser.start
    rw [htoks]
    rfl
  have hdrop : (join [' '] items ++ ' ' :: ('"' :: y ++ ['"'])).drop
      ((join [' '] items).length + 1) = '"' :: y ++ ['"'] := by
    rw [List.drop_append, List.drop_of_length_le (Nat.le_succ _), Nat.add_sub_cancel_left]
    rfl
  have hrest : restText ((join [' '] items ++ ' ' :: ('"' :: y ++ ['"'])).drop
      ((join [' '] items).length + 1)) (maxText - (p.stop .tooManyClauses).text) = y := by
    rw [hdrop, show (p.stop .tooManyClauses).text = p.text from rfl, hspent, hagain]
  rw [htext, parse_of_some hlen hbuilt hstart (by rw [hrest]; exact hne), hrest]

/-- What the parser makes of an input: clauses within the limits, and the rest of the input
where a limit was reached. -/
theorem parse_cases (input : Text) : ∃ items, Within items ∧ (parse input = ⟨items⟩ ∨
    ∃ chars, restText chars (maxText - spentAll items) ≠ [] ∧
      parse input = ⟨items ++ [.phrase (restText chars (maxText - spentAll items))]⟩) := by
  have htokens : LeafTokens (begin (input.take maxInput)).toks :=
    leafTokens_tokensFrom 0 (input.take maxInput)
  have hshaped := shaped_andExpr (shaped_atom maxDepth) false htokens
  have hfits := hshaped.fits ⟨Nat.zero_le _, Nat.zero_le _⟩
  have hleaves := hshaped.leaves
  have htext := hshaped.text
  generalize hr : (begin (input.take maxInput)).andExpr false (inner maxDepth) = r
    at hshaped hfits hleaves htext
  have hspent : r.2.text = spentAll r.1 := htext.trans (Nat.zero_add _)
  have hcount : r.2.leaves = leavesAll r.1 := hleaves.trans (Nat.zero_add _)
  refine ⟨r.1, ⟨hshaped.all, hcount ▸ hfits.1, hspent ▸ hfits.2⟩, ?_⟩
  unfold parse parseWithNotices
  dsimp only
  rw [hr, ← hspent]
  cases habort : r.2.abort with
  | none => exact .inl rfl
  | some abort =>
    dsimp only
    split
    next => exact .inl (congrArg SearchQuery.mk (List.append_nil _))
    next =>
      split
      next => exact .inl (congrArg SearchQuery.mk (List.append_nil _))
      next hne => exact .inr ⟨_, hne, rfl⟩

/-- **A query that is shown is read as the same query.** -/
theorem parse_display_parse (input : Text) : parse (parse input).display = parse input := by
  obtain ⟨items, hwithin, hparse | ⟨chars, hne, hparse⟩⟩ := parse_cases input
  · rw [hparse]
    exact parse_join hwithin
  · rw [hparse]
    by_cases hfull : maxClauses ≤ leavesAll items
    · exact parse_join_rest hwithin hfull hne
    · -- there is room for the rest as one more leaf
      refine parse_join ⟨?_, ?_, ?_⟩
      · intro e he
        rcases List.mem_append.mp he with he | he
        · exact hwithin.clauses e he
        · rw [List.mem_singleton.mp he]
          exact .inl (.inl (atom_of_leaf (leaf_restText hne) maxDepth))
      · rw [leavesAll_append]
        show leavesAll items + 1 ≤ maxClauses
        omega
      · have hlong := length_restText chars (maxText - spentAll items)
        have htext := hwithin.text
        rw [spentAll_append]
        show spentAll items + (restText chars (maxText - spentAll items)).length ≤ maxText
        omega

end Search

end Sunrise
