import Mathlib.Data.String.Basic
import Sunrise.Lib.Text

/-!
# Content lines

The content lines of an iCalendar document. A logical line is written as one or more
physical lines of at most seventy-five octets, each but the first with a space in front of
it, and read by joining them again. It is a name, parameters and a value, and a value of
text has its separators and line feeds escaped.
-/

namespace Sunrise

namespace Ical

open Text

/-! ### Folding -/

/-- The most octets a physical line has. -/
def foldAt : ℕ := 75

/-- Add a physical line: it continues the line before it where it starts with a space or a
tab. -/
def unfoldLine (out : List Text) (raw : Text) : List Text :=
  match out.getLast?, raw with
  | some prev, c :: rest =>
    if c = ' ' ∨ c = '\t' then out.dropLast ++ [prev ++ rest] else out ++ [raw]
  | _, _ => out ++ [raw]

/-- The logical lines of a document. -/
def unfoldLines (input : Text) : List Text := (lines input).foldl unfoldLine []

def foldLine (line : Text) : List Text :=
  if octets line ≤ foldAt then [line]
  else match chunks (foldAt - 1) foldAt [] line with
    | [] => []
    | first :: more => first :: more.map (' ' :: ·)

def contentLine (name params value : Text) : Text := name ++ params ++ ':' :: value

/-- A content line as it is written. -/
def pushLine (line : Text) : Text := (foldLine line).flatMap (· ++ crlf)

/-! ### Properties -/

/-- A line up to the first colon outside quotes, and what follows the colon. -/
def splitColon (inQuotes : Bool) : Text → Text × Text
  | [] => ([], [])
  | c :: s =>
    if c = '"' then ((c :: (splitColon (!inQuotes) s).1), (splitColon (!inQuotes) s).2)
    else if c = ':' ∧ inQuotes = false then ([], s)
    else (c :: (splitColon inQuotes s).1, (splitColon inQuotes s).2)

/-- The name, the parameters and the value of a line. -/
def splitProperty (line : Text) : Text × Text × Text :=
  let split := splitColon false line
  (split.1.takeWhile (· ≠ ';'), split.1.dropWhile (· ≠ ';'), split.2)

/-- Without the quotation marks at either end. -/
def trimQuotes (s : Text) : Text := (s.dropWhile (· = '"')).rdropWhile (· = '"')

/-- The value of a parameter: the first one of that name. -/
def param (params want : Text) : Option Text :=
  (params.splitOn ';').findSome? fun part =>
    if '=' ∈ part then
      if sameName (trim (part.takeWhile (· ≠ '='))) want then
        some (trimQuotes (trim (part.dropWhile (· ≠ '=')).tail))
      else none
    -- a parameter with no value is stepped over
    else none

/-! ### Values of text -/

/-- What an escaped character stands for. -/
def unescaped (c : Char) : Text :=
  if c = 'n' ∨ c = 'N' then ['\n']
  else if c = ',' then [',']
  else if c = ';' then [';']
  else if c = '\\' then ['\\']
  -- any other escape is undefined and stays as it is
  else ['\\', c]

/-- Read a value of text. A backslash at its end escapes nothing. -/
def unescape : Text → Text
  | [] => []
  | [c] => [c]
  | c :: d :: s => if c = '\\' then unescaped d ++ unescape s else c :: unescape (d :: s)

/-- Put a text in the place of every occurrence of a character. -/
def replace (s : Text) (c : Char) (by_ : Text) : Text :=
  s.flatMap fun d => if d = c then by_ else [d]

/-- Write a value of text. -/
def escape (s : Text) : Text :=
  replace (replace (replace (replace (replace s '\\' ['\\', '\\']) ',' ['\\', ','])
    ';' ['\\', ';']) '\r' []) '\n' ['\\', 'n']

/-- A text without its carriage returns. -/
def clean (s : Text) : Text := s.filter (· ≠ '\r')

/-! ### Escaping -/

theorem replace_append (s t : Text) (c : Char) (r : Text) :
    replace (s ++ t) c r = replace s c r ++ replace t c r := List.flatMap_append

theorem escape_append (s t : Text) : escape (s ++ t) = escape s ++ escape t := by
  unfold escape
  simp only [replace_append]

/-- What one character is written as. -/
def escapeChar (c : Char) : Text :=
  if c = '\\' then ['\\', '\\']
  else if c = ',' then ['\\', ',']
  else if c = ';' then ['\\', ';']
  else if c = '\r' then []
  else if c = '\n' then ['\\', 'n']
  else [c]

theorem escape_singleton (c : Char) : escape [c] = escapeChar c := by
  unfold escapeChar
  split
  next h => rw [h]; rfl
  next h₁ =>
    split
    next h => rw [h]; rfl
    next h₂ =>
      split
      next h => rw [h]; rfl
      next h₃ =>
        split
        next h => rw [h]; rfl
        next h₄ =>
          split
          next h => rw [h]; rfl
          next h₅ => simp [escape, replace, h₁, h₂, h₃, h₄, h₅]

@[simp] theorem escape_nil : escape [] = [] := rfl

theorem escape_cons (c : Char) (s : Text) : escape (c :: s) = escapeChar c ++ escape s := by
  rw [← escape_singleton, ← escape_append]
  rfl

@[simp] theorem unescape_nil : unescape [] = [] := rfl

theorem unescape_cons {c : Char} (hc : c ≠ '\\') (s : Text) :
    unescape (c :: s) = c :: unescape s := by
  cases s with
  | nil => rfl
  | cons d s => rw [unescape, if_neg hc]

theorem unescape_backslash (c : Char) (s : Text) :
    unescape ('\\' :: c :: s) = unescaped c ++ unescape s := by
  rw [unescape, if_pos rfl]

/-- **A text read again is the text without its carriage returns.** -/
theorem unescape_escape (s : Text) : unescape (escape s) = clean s := by
  induction s with
  | nil => rfl
  | cons c s ih =>
    rw [escape_cons]
    unfold escapeChar
    split
    next h =>
      subst h
      show unescape ('\\' :: '\\' :: escape s) = _
      rw [unescape_backslash, ih]
      rfl
    next h₁ =>
      split
      next h =>
        subst h
        show unescape ('\\' :: ',' :: escape s) = _
        rw [unescape_backslash, ih]
        rfl
      next =>
        split
        next h =>
          subst h
          show unescape ('\\' :: ';' :: escape s) = _
          rw [unescape_backslash, ih]
          rfl
        next =>
          split
          next h =>
            subst h
            exact ih
          next h₄ =>
            split
            next h =>
              subst h
              show unescape ('\\' :: 'n' :: escape s) = _
              rw [unescape_backslash, ih]
              rfl
            next =>
              show unescape (c :: escape s) = _
              rw [unescape_cons h₁, ih]
              simp [clean, h₄]

theorem escape_clean (s : Text) : escape (clean s) = escape s := by
  induction s with
  | nil => rfl
  | cons c s ih =>
    rw [escape_cons]
    by_cases hc : c = '\r'
    · subst hc
      exact ih
    · have h : clean (c :: s) = c :: clean s := by simp [clean, hc]
      rw [h, escape_cons, ih]

theorem not_mem_escape (s : Text) : '\n' ∉ escape s := by
  induction s with
  | nil => simp
  | cons c s ih =>
    rw [escape_cons, List.mem_append, not_or]
    refine ⟨?_, ih⟩
    unfold escapeChar
    split
    · decide
    · split
      · decide
      · split
        · decide
        · split
          · decide
          · split
            · decide
            next h => simpa using Ne.symm h

theorem trimEnd_escapeChar {c : Char} (hc : isSpace c = false) :
    escapeChar c ≠ [] ∧ trimEnd (escapeChar c) = escapeChar c := by
  unfold escapeChar
  split
  · decide
  · split
    · decide
    · split
      · decide
      · split
        next h =>
          subst h
          exact absurd hc (by decide)
        next =>
          split
          · decide
          next =>
            refine ⟨by simp, trimEnd_eq_self.mpr fun d hd => ?_⟩
            rw [← Option.some.inj hd]
            exact hc

theorem trimEnd_escape_unescaped {c : Char} (hc : isSpace c = false) :
    escape (unescaped c) ≠ [] ∧ trimEnd (escape (unescaped c)) = escape (unescaped c) := by
  unfold unescaped
  split
  · decide
  · split
    · decide
    · split
      · decide
      · split
        · decide
        next =>
          have h := trimEnd_escapeChar hc
          rw [escape_cons, escape_singleton]
          exact ⟨by simp [h.1], trimEnd_append h.1 h.2⟩

/-- **A text that was read is written without white space at its end.** -/
theorem trimEnd_escape_unescape {v : Text} (h : trimEnd v = v) :
    trimEnd (escape (unescape v)) = escape (unescape v) ∧
      (v ≠ [] → escape (unescape v) ≠ []) := by
  rw [trimEnd_eq_self] at h
  -- the end of the value is what the end of the written text comes from
  have key : ∀ v : Text, (∀ c, v.getLast? = some c → isSpace c = false) → v ≠ [] →
      escape (unescape v) ≠ [] ∧ trimEnd (escape (unescape v)) = escape (unescape v) := by
    intro v
    fun_induction unescape v with
    | case1 => exact fun _ hne => absurd rfl hne
    | case2 c =>
      intro h _
      rw [escape_singleton]
      exact trimEnd_escapeChar (h c rfl)
    | case3 d s ih =>
      intro h _
      rw [escape_append]
      by_cases hs : s = []
      · subst hs
        rw [unescape_nil, escape_nil, List.append_nil]
        exact trimEnd_escape_unescaped (h d rfl)
      · obtain ⟨hne, ht⟩ := ih (fun c hc => h c (by
          rw [List.getLast?_cons_cons, List.getLast?_cons, hc]
          rfl)) hs
        exact ⟨by simp [hne], trimEnd_append hne ht⟩
    | case4 c d s hc ih =>
      intro h _
      obtain ⟨hne, ht⟩ := ih (fun e he => h e (by
        rw [List.getLast?_cons_cons]
        exact he)) (by simp)
      rw [escape_cons]
      exact ⟨by simp [hne], trimEnd_append hne ht⟩
  by_cases hv : v = []
  · subst hv
    exact ⟨rfl, fun h => absurd rfl h⟩
  · obtain ⟨hne, ht⟩ := key v h hv
    exact ⟨ht, fun _ => hne⟩

/-! ### Folding and unfolding -/

theorem unfoldLine_continued (out : List Text) (l rest : Text) :
    unfoldLine (out ++ [l]) (' ' :: rest) = out ++ [l ++ rest] := by
  unfold unfoldLine
  rw [List.getLast?_concat]
  simp

theorem unfoldLine_new {out : List Text} {raw : Text}
    (h : ∀ c, raw.head? = some c → c ≠ ' ' ∧ c ≠ '\t') : unfoldLine out raw = out ++ [raw] := by
  unfold unfoldLine
  split
  next prev c rest _ =>
    obtain ⟨h₁, h₂⟩ := h c rfl
    rw [if_neg (by simp [h₁, h₂])]
  next => rfl

theorem foldl_continued (out : List Text) (l : Text) (more : List Text) :
    (more.map (' ' :: ·)).foldl unfoldLine (out ++ [l]) = out ++ [l ++ more.flatten] := by
  induction more generalizing l with
  | nil => simp
  | cons p more ih =>
    rw [List.map_cons, List.foldl_cons, unfoldLine_continued, ih, List.append_assoc]
    rfl

theorem foldLine_spec (line : Text) :
    ∃ (first : Text) (more : List Text),
      foldLine line = first :: more.map (' ' :: ·) ∧ first ++ more.flatten = line ∧
      octets first ≤ foldAt ∧ ∀ p ∈ more, octets p ≤ foldAt - 1 := by
  unfold foldLine
  split
  next h => exact ⟨line, [], rfl, by simp, h, by simp⟩
  next =>
    obtain ⟨first, more, heq, -⟩ := chunks_eq_cons (foldAt - 1) foldAt [] line
    have hjoin := flatten_chunks (foldAt - 1) foldAt [] line
    rw [heq] at hjoin ⊢
    obtain ⟨hf, hm⟩ := octets_chunks (by decide) heq
    exact ⟨first, more, rfl, by simpa using hjoin, by simpa using hf, hm⟩

/-- **No physical line is longer than seventy-five octets.** -/
theorem octets_foldLine (line : Text) : ∀ p ∈ foldLine line, octets p ≤ foldAt := by
  obtain ⟨first, more, heq, -, hf, hm⟩ := foldLine_spec line
  intro p hp
  rw [heq] at hp
  rcases List.mem_cons.mp hp with rfl | hp
  · exact hf
  · obtain ⟨q, hq, rfl⟩ := List.mem_map.mp hp
    have := hm q hq
    have hspace : octets (' ' :: q) = 1 + octets q := rfl
    rw [hspace]
    unfold foldAt at this ⊢
    omega

/-- **A logical line that is folded unfolds to itself.** -/
theorem foldl_foldLine {out : List Text} {line : Text}
    (h : ∀ c, line.head? = some c → c ≠ ' ' ∧ c ≠ '\t') :
    (foldLine line).foldl unfoldLine out = out ++ [line] := by
  obtain ⟨first, more, heq, hjoin, -⟩ := foldLine_spec line
  rw [heq, List.foldl_cons, unfoldLine_new, foldl_continued, hjoin]
  intro c hc
  refine h c ?_
  rw [← hjoin, List.head?_append, hc]
  rfl

theorem not_mem_foldLine {line : Text} (h : '\n' ∉ line) : ∀ p ∈ foldLine line, '\n' ∉ p := by
  obtain ⟨first, more, heq, hjoin, -⟩ := foldLine_spec line
  intro p hp hn
  rw [heq] at hp
  rcases List.mem_cons.mp hp with rfl | hp
  · exact h (hjoin ▸ List.mem_append_left _ hn)
  · obtain ⟨q, hq, rfl⟩ := List.mem_map.mp hp
    rcases List.mem_cons.mp hn with hs | hn
    · exact absurd hs (by decide)
    · exact h (hjoin ▸ List.mem_append_right _ (List.mem_flatten.mpr ⟨q, hq, hn⟩))

theorem lines_pieces {pieces : List Text} (h : ∀ p ∈ pieces, '\n' ∉ p) :
    lines (pieces.flatMap (· ++ crlf)) = pieces := by
  induction pieces with
  | nil => rfl
  | cons p pieces ih =>
    rw [List.flatMap_cons, List.append_assoc, lines_line (h p List.mem_cons_self),
      ih fun q hq => h q (List.mem_cons_of_mem _ hq)]

theorem flatMap_pushLine (ls : List Text) :
    ls.flatMap pushLine = (ls.flatMap foldLine).flatMap (· ++ crlf) := by
  rw [List.flatMap_assoc]
  rfl

/-- **What is written is what is read**: logical lines without line feeds that do not start
as a continuation does. -/
theorem unfoldLines_written {ls : List Text} (hn : ∀ l ∈ ls, '\n' ∉ l)
    (hs : ∀ l ∈ ls, ∀ c, l.head? = some c → c ≠ ' ' ∧ c ≠ '\t') :
    unfoldLines (ls.flatMap pushLine) = ls := by
  unfold unfoldLines
  rw [flatMap_pushLine, lines_pieces]
  · have key : ∀ (ls out : List Text), (∀ l ∈ ls, ∀ c, l.head? = some c → c ≠ ' ' ∧ c ≠ '\t') →
        (ls.flatMap foldLine).foldl unfoldLine out = out ++ ls := by
      intro ls
      induction ls with
      | nil => simp
      | cons l ls ih =>
        intro out hs
        rw [List.flatMap_cons, List.foldl_append, foldl_foldLine (hs l List.mem_cons_self),
          ih _ fun l hl => hs l (List.mem_cons_of_mem _ hl), List.append_assoc]
        rfl
    exact key ls [] hs
  · intro p hp
    obtain ⟨l, hl, hp⟩ := List.mem_flatMap.mp hp
    exact not_mem_foldLine (hn l hl) p hp

theorem not_mem_unfoldLines {input l : Text} (h : l ∈ unfoldLines input) : '\n' ∉ l := by
  have key : ∀ (raws out : List Text), (∀ l ∈ raws, '\n' ∉ l) → (∀ l ∈ out, '\n' ∉ l) →
      ∀ l ∈ raws.foldl unfoldLine out, '\n' ∉ l := by
    intro raws
    induction raws with
    | nil => exact fun out _ hout => hout
    | cons raw raws ih =>
      intro out hraws hout
      rw [List.foldl_cons]
      refine ih _ (fun l hl => hraws l (List.mem_cons_of_mem _ hl)) fun l hl => ?_
      have hraw := hraws raw List.mem_cons_self
      have hnew : ∀ l ∈ out ++ [raw], '\n' ∉ l := by
        intro l hl
        rcases List.mem_append.mp hl with hl | hl
        · exact hout l hl
        · rwa [List.mem_singleton.mp hl]
      unfold unfoldLine at hl
      split at hl
      next prev c rest hprev =>
        split at hl
        · rcases List.mem_append.mp hl with hl | hl
          · exact hout l ((List.dropLast_sublist _).subset hl)
          · rw [List.mem_singleton.mp hl, List.mem_append, not_or]
            exact ⟨hout prev (List.mem_of_getLast? hprev),
              fun hm => hraw (List.mem_cons_of_mem _ hm)⟩
        · exact hnew l hl
      next => exact hnew l hl
  exact key _ [] (fun l hl => not_mem_of_mem_lines hl) (by simp) l h

/-! ### The parts of a line -/

theorem splitColon_append {head value : Text} (h : ':' ∉ head) (hq : '"' ∉ head) :
    splitColon false (head ++ ':' :: value) = (head, value) := by
  induction head with
  | nil => rfl
  | cons c head ih =>
    rw [List.mem_cons, not_or] at h hq
    rw [List.cons_append, splitColon, if_neg (Ne.symm hq.1), if_neg fun hc => h.1 hc.1.symm,
      ih h.2 hq.2]

theorem splitProperty_written {name params value : Text} (hn : ∀ c ∈ name, c ≠ ':' ∧ c ≠ '"')
    (hns : ';' ∉ name) (hp : ∀ c ∈ params, c ≠ ':' ∧ c ≠ '"')
    (hps : params = [] ∨ ∃ rest, params = ';' :: rest) :
    splitProperty (contentLine name params value) = (name, params, value) := by
  have hhead : ∀ c ∈ name ++ params, c ≠ ':' ∧ c ≠ '"' := by
    intro c hc
    rcases List.mem_append.mp hc with hc | hc
    · exact hn c hc
    · exact hp c hc
  have hname : ∀ c ∈ name, decide (c ≠ ';') = true := fun c hc =>
    decide_eq_true fun h => hns (h ▸ hc)
  unfold splitProperty contentLine
  rw [splitColon_append (fun h => (hhead _ h).1 rfl) fun h => (hhead _ h).2 rfl]
  dsimp only
  rw [List.takeWhile_append_of_pos hname, List.dropWhile_append_of_pos hname]
  rcases hps with rfl | ⟨rest, rfl⟩
  · simp
  · simp

theorem splitColon_suffix (q : Bool) (line : Text) : (splitColon q line).2 <:+ line := by
  induction line generalizing q with
  | nil => exact List.suffix_refl _
  | cons c line ih =>
    unfold splitColon
    split
    · exact (ih _).trans (List.suffix_cons c line)
    · split
      · exact List.suffix_cons c line
      · exact (ih _).trans (List.suffix_cons c line)

theorem trimEnd_value {line : Text} (h : trimEnd line = line) :
    trimEnd (splitProperty line).2.2 = (splitProperty line).2.2 := by
  rw [trimEnd_eq_self] at h ⊢
  intro c hc
  obtain ⟨head, hline⟩ := splitColon_suffix false line
  refine h c ?_
  have hc' : (splitColon false line).2.getLast? = some c := hc
  have hne : (splitColon false line).2 ≠ [] := by
    intro hnil
    rw [hnil] at hc'
    simp at hc'
  rw [← hline, List.getLast?_append_of_ne_nil _ hne]
  exact hc'

theorem mem_of_mem_value {line : Text} {c : Char} (h : c ∈ (splitProperty line).2.2) :
    c ∈ line := by
  obtain ⟨head, hline⟩ := splitColon_suffix false line
  rw [← hline]
  exact List.mem_append_right _ h

theorem trimQuotes_eq_self {s : Text} (h : '"' ∉ s) : trimQuotes s = s := by
  have hne : ∀ c ∈ s, decide (c = '"') = false := fun c hc =>
    decide_eq_false fun heq => h (heq ▸ hc)
  unfold trimQuotes
  have hdrop : s.dropWhile (· = '"') = s := by
    cases s with
    | nil => rfl
    | cons c s => rw [List.dropWhile_cons, hne c List.mem_cons_self]; rfl
  rw [hdrop, List.rdropWhile_eq_self_iff]
  intro hs
  simp [hne _ (List.getLast_mem hs)]

@[simp] theorem param_nil (want : Text) : param [] want = none := rfl

theorem param_single {key value want : Text} (hk : ∀ c ∈ key, c ≠ ';' ∧ c ≠ '=')
    (hv : ';' ∉ value) :
    param (';' :: key ++ '=' :: value) want =
      if sameName (trim key) want then some (trimQuotes (trim value)) else none := by
  have hsplit : (';' :: key ++ '=' :: value).splitOn ';' = [[], key ++ '=' :: value] := by
    have h := List.splitOn_append_cons_self (a := ';') [] (key ++ '=' :: value)
    rw [List.nil_append] at h
    rw [List.cons_append, h, List.splitOn_nil, List.splitOn_eq_singleton]
    · rfl
    · intro hm
      rcases List.mem_append.mp hm with hm | hm
      · exact (hk _ hm).1 rfl
      · rcases List.mem_cons.mp hm with hm | hm
        · exact absurd hm (by decide)
        · exact hv hm
  have hkey : ∀ c ∈ key, decide (c ≠ '=') = true := fun c hc => decide_eq_true (hk c hc).2
  unfold param
  rw [hsplit, List.findSome?_cons, if_neg (by simp), List.findSome?_cons,
    List.takeWhile_append_of_pos hkey, List.dropWhile_append_of_pos hkey]
  simp only [List.findSome?_nil]
  by_cases hname : sameName (trim key) want
  · simp [hname]
  · simp [hname]

end Ical

end Sunrise
