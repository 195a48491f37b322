import Mathlib.Algebra.BigOperators.Group.List.Basic
import Mathlib.Algebra.Ring.Nat
import Mathlib.Data.List.DropRight
import Mathlib.Data.List.Forall2
import Mathlib.Data.Nat.Notation

/-!
# Texts

A text is a list of characters, and the functions here are those of a string library:
trimming white space, ASCII case, the lines of a text, the octets of its UTF-8 form, and
cutting it into pieces of a bounded number of octets without cutting a character.

## Main definitions

* `Text.isSpace`, `Text.trim`, `Text.trimEnd` — white space, and texts without it at the ends.
* `Text.upper`, `Text.sameName` — ASCII case.
* `Text.lines` — the lines of a text, without their line ends.
* `Text.splitOnce` — a text cut at the first of a character.
* `Text.stripPrefix`, `Text.stripSuffix` — a text without what it starts or ends with.
* `Text.words`, `Text.spaced` — the words of a text, and words with spaces between them.
* `Text.octets`, `Text.chunks` — UTF-8 length, and a text cut into pieces of bounded length.

## Main results

* `Text.trimEnd_append`, `Text.trim_trim` — what trimming leaves alone.
-/

abbrev Text := List Char

namespace Text

theorem forall_of_all {α : Type*} {p : α → Prop} [DecidablePred p] {l : List α}
    (h : l.all (fun a => decide (p a)) = true) : ∀ a ∈ l, p a := by
  intro a ha
  exact of_decide_eq_true (List.all_eq_true.mp h a ha)

/-! ### White space -/

/-- Unicode white space. -/
def isSpace (c : Char) : Bool :=
  let n := c.toNat
  (9 ≤ n && n ≤ 13) || n == 0x20 || n == 0x85 || n == 0xA0 || n == 0x1680 ||
    (0x2000 ≤ n && n ≤ 0x200A) || n == 0x2028 || n == 0x2029 || n == 0x202F || n == 0x205F ||
    n == 0x3000

def trimEnd (s : Text) : Text := s.rdropWhile isSpace

def trimStart (s : Text) : Text := s.dropWhile isSpace

/-- Without white space at either end. -/
def trim (s : Text) : Text := trimEnd (trimStart s)

@[simp] theorem trimEnd_nil : trimEnd [] = [] := rfl

@[simp] theorem trimEnd_trimEnd (s : Text) : trimEnd (trimEnd s) = trimEnd s :=
  List.rdropWhile_idempotent _ _

variable {s : Text}

theorem trimEnd_eq_self :
    trimEnd s = s ↔ ∀ c, s.getLast? = some c → isSpace c = false := by
  unfold trimEnd
  rw [List.rdropWhile_eq_self_iff]
  constructor
  · intro h c hc
    have hne : s ≠ [] := by
      intro hs
      rw [hs] at hc
      simp at hc
    have hlast := h hne
    rw [List.getLast?_eq_some_getLast hne] at hc
    rw [Option.some.inj hc] at hlast
    simpa using hlast
  · intro h hne
    rw [h _ (List.getLast?_eq_some_getLast hne)]
    simp

theorem trimEnd_append {s t : Text} (ht : t ≠ []) (h : trimEnd t = t) :
    trimEnd (s ++ t) = s ++ t := by
  rw [trimEnd_eq_self] at h ⊢
  intro c hc
  rw [List.getLast?_append_of_ne_nil _ ht] at hc
  exact h c hc

variable {c : Char}

theorem head?_trimStart (h : (trimStart s).head? = some c) :
    isSpace c = false := by
  unfold trimStart at h
  have := List.head?_dropWhile_not isSpace s
  rw [h] at this
  simpa using this

theorem trimStart_eq_self (h : ∀ c, s.head? = some c → isSpace c = false) :
    trimStart s = s := by
  cases s with
  | nil => rfl
  | cons c s =>
    unfold trimStart
    rw [List.dropWhile_cons, h c rfl]
    rfl

theorem head?_trimEnd (h : (trimEnd s).head? = some c) :
    s.head? = some c := by
  have hp : trimEnd s <+: s := List.rdropWhile_prefix _ _
  obtain ⟨t, ht⟩ := hp
  rw [← ht, List.head?_append, h]
  rfl

/-- **Trimming again changes nothing.** -/
@[simp] theorem trim_trim (s : Text) : trim (trim s) = trim s := by
  unfold trim
  rw [trimStart_eq_self (fun c hc => head?_trimStart (head?_trimEnd hc)), trimEnd_trimEnd]

@[simp] theorem trimEnd_trim (s : Text) : trimEnd (trim s) = trim s := trimEnd_trimEnd _

theorem mem_of_mem_trim (h : c ∈ trim s) : c ∈ s :=
  (List.dropWhile_sublist isSpace).subset
    ((List.rdropWhile_prefix _ _).subset h)

theorem mem_of_mem_trimEnd (h : c ∈ trimEnd s) : c ∈ s :=
  (List.rdropWhile_prefix _ _).subset h

theorem mem_trim_or (h : c ∈ s) : c ∈ trim s ∨ isSpace c = true := by
  have hend {t : Text} (ht : c ∈ t) : c ∈ trimEnd t ∨ isSpace c = true := by
    rw [← List.rdropWhile_append_rtakeWhile (p := isSpace) (l := t)] at ht
    exact (List.mem_append.mp ht).imp_right fun hc => List.mem_rtakeWhile_imp hc
  rw [← List.takeWhile_append_dropWhile (p := isSpace) (l := s)] at h
  rcases List.mem_append.mp h with h | h
  · exact .inr (List.mem_takeWhile_imp h)
  · exact hend h

theorem trim_eq_self (h : ∀ c ∈ s, isSpace c = false) : trim s = s := by
  unfold trim
  rw [trimStart_eq_self fun c hc => h c (List.mem_of_mem_head? hc), trimEnd_eq_self]
  exact fun c hc => h c (List.mem_of_getLast? hc)

theorem isSpace_eq_false (h : 0x20 < c.toNat) (h' : c.toNat < 0x7F) :
    isSpace c = false := by
  unfold isSpace
  simp only [Bool.or_eq_false_iff, Bool.and_eq_false_iff, decide_eq_false_iff_not,
    beq_eq_false_iff_ne]
  omega

theorem isSpace_of_isDigit (h : c.isDigit) : isSpace c = false := by
  simp only [Char.isDigit, Bool.and_eq_true, decide_eq_true_eq, UInt32.le_iff_toNat_le, ge_iff_le]
    at h
  have h₁ : 48 ≤ c.toNat := h.1
  have h₂ : c.toNat ≤ 57 := h.2
  exact isSpace_eq_false (by omega) (by omega)

theorem digit_le (h : c.isDigit) : c.toNat - '0'.toNat ≤ 9 := by
  rw [Char.isDigit, Bool.and_eq_true, decide_eq_true_eq, decide_eq_true_eq] at h
  have h9 : c.toNat ≤ '9'.toNat := h.2
  have : '9'.toNat = 57 := rfl
  have : '0'.toNat = 48 := rfl
  omega

theorem isSpace_of_isAlphanum (h : c.isAlphanum) : isSpace c = false := by
  obtain h | h : (c.isUpper || c.isLower) = true ∨ c.isDigit = true := Bool.or_eq_true_iff.mp h
  · rcases Bool.or_eq_true_iff.mp h with h | h
    · obtain ⟨h₁, h₂⟩ : 'A'.val ≤ c.val ∧ c.val ≤ 'Z'.val := of_decide_eq_true h
      have h₁ : 65 ≤ c.toNat := h₁
      have h₂ : c.toNat ≤ 90 := h₂
      exact isSpace_eq_false (by omega) (by omega)
    · obtain ⟨h₁, h₂⟩ := Bool.and_eq_true_iff.mp h
      have h₁ : 97 ≤ c.toNat := of_decide_eq_true h₁
      have h₂ : c.toNat ≤ 122 := of_decide_eq_true h₂
      exact isSpace_eq_false (by omega) (by omega)
  · exact isSpace_of_isDigit h

/-! ### ASCII case -/

/-- In upper case, where the letters are ASCII. -/
def upper (s : Text) : Text := s.map Char.toUpper

/-- In lower case, as far as ASCII letters go. -/
def lower (s : Text) : Text := s.map Char.toLower

theorem toLower_of_isDigit (h : c.isDigit) : c.toLower = c := by
  rw [Char.isDigit, Bool.and_eq_true, decide_eq_true_eq, decide_eq_true_eq] at h
  have h9 : c.toNat ≤ 57 := h.2
  unfold Char.toLower
  refine dif_neg fun hA => ?_
  have : 65 ≤ c.toNat := hA.1
  omega

theorem lower_eq_self (h : ∀ c ∈ s, c.toLower = c) : lower s = s :=
  (List.map_congr_left h).trans (List.map_id s)

/-- The same up to the case of ASCII letters. -/
def sameName (s t : Text) : Bool := upper s == upper t

/-! ### Lines -/

/-- Without a carriage return at the end. -/
def stripCr (l : Text) : Text := if l.getLast? = some '\r' then l.dropLast else l

def linesFrom (cur : Text) : Text → List Text
  | [] => if cur = [] then [] else [cur]
  | c :: s => if c = '\n' then stripCr cur :: linesFrom [] s else linesFrom (cur ++ [c]) s

/-- The lines of a text, without their line ends. A line ends in a line feed or a carriage
return and a line feed, and the last one may have no end. -/
def lines (s : Text) : List Text := linesFrom [] s

@[simp] theorem lines_nil : lines [] = [] := rfl

theorem linesFrom_append {cur l s : Text} (hl : '\n' ∉ l) :
    linesFrom cur (l ++ s) = linesFrom (cur ++ l) s := by
  induction l generalizing cur with
  | nil => simp
  | cons c l ih =>
    rw [List.mem_cons, not_or] at hl
    rw [List.cons_append, linesFrom, if_neg (Ne.symm hl.1), ih hl.2, List.append_assoc]
    rfl

/-- A carriage return and a line feed. -/
def crlf : Text := ['\r', '\n']

theorem stripCr_concat (l : Text) : stripCr (l ++ ['\r']) = l := by
  unfold stripCr
  rw [if_pos (by simp), List.dropLast_concat]

/-- **A line with its end is the first line.** -/
theorem lines_line {l s : Text} (hl : '\n' ∉ l) : lines (l ++ (crlf ++ s)) = l :: lines s := by
  unfold lines
  rw [linesFrom_append hl]
  show linesFrom ([] ++ l) ('\r' :: '\n' :: s) = _
  rw [List.nil_append, linesFrom, if_neg (by decide), linesFrom, if_pos rfl, stripCr_concat]

theorem not_mem_of_mem_linesFrom {cur s l : Text} (hcur : '\n' ∉ cur)
    (h : l ∈ linesFrom cur s) : '\n' ∉ l := by
  induction s generalizing cur with
  | nil =>
    unfold linesFrom at h
    split at h
    · simp at h
    · rwa [List.mem_singleton.mp h]
  | cons c s ih =>
    unfold linesFrom at h
    split at h
    · rcases List.mem_cons.mp h with rfl | h
      · unfold stripCr
        split
        · exact fun hm => hcur ((List.dropLast_sublist _).subset hm)
        · exact hcur
      · exact ih (by simp) h
    next hc => exact ih (by simpa [hcur] using Ne.symm hc) h

theorem not_mem_of_mem_lines {s l : Text} (h : l ∈ lines s) : '\n' ∉ l :=
  not_mem_of_mem_linesFrom (by simp) h

/-! ### Octets -/

def octets (s : Text) : ℕ := (s.map Char.utf8Size).sum

@[simp] theorem octets_nil : octets [] = 0 := rfl

@[simp] theorem octets_cons (c : Char) (s : Text) : octets (c :: s) = c.utf8Size + octets s := rfl

@[simp] theorem octets_append (s t : Text) : octets (s ++ t) = octets s + octets t := by
  unfold octets
  rw [List.map_append, List.sum_append]

/-! ### Pieces -/

/-- The pieces of a text that goes on after `cur`, which has room for `room` more octets.
Every later piece has room for `rest`. -/
def chunks (rest : ℕ) : ℕ → Text → Text → List Text
  | _, cur, [] => [cur]
  | room, cur, c :: s =>
    if c.utf8Size ≤ room then chunks rest (room - c.utf8Size) (cur ++ [c]) s
    else cur :: chunks rest (rest - c.utf8Size) [c] s

/-- **The pieces are the text.** -/
theorem flatten_chunks (rest room : ℕ) (cur s : Text) :
    (chunks rest room cur s).flatten = cur ++ s := by
  induction s generalizing room cur with
  | nil => simp [chunks]
  | cons c s ih =>
    unfold chunks
    split
    · rw [ih, List.append_assoc]
      rfl
    · rw [List.flatten_cons, ih]
      rfl

theorem chunks_eq_cons (rest room : ℕ) (cur s : Text) :
    ∃ first more, chunks rest room cur s = first :: more ∧ cur <+: first := by
  induction s generalizing room cur with
  | nil => exact ⟨cur, [], rfl, List.prefix_refl _⟩
  | cons c s ih =>
    unfold chunks
    split
    · obtain ⟨first, more, heq, hp⟩ := ih (room - c.utf8Size) (cur ++ [c])
      exact ⟨first, more, heq, (List.prefix_append _ _).trans hp⟩
    · exact ⟨cur, _, rfl, List.prefix_refl _⟩

/-- **The first piece stays within its room and every other within its own.** -/
theorem octets_chunks {rest room : ℕ} (hrest : 4 ≤ rest) {cur s first : Text}
    {more : List Text} (h : chunks rest room cur s = first :: more) :
    octets first ≤ octets cur + room ∧ ∀ p ∈ more, octets p ≤ rest := by
  induction s generalizing room cur first more with
  | nil =>
    unfold chunks at h
    obtain ⟨rfl, rfl⟩ := List.cons.inj h
    exact ⟨by omega, by simp⟩
  | cons c s ih =>
    have hc : c.utf8Size ≤ 4 := Char.utf8Size_le_four c
    unfold chunks at h
    split at h
    next hroom =>
      obtain ⟨hf, hm⟩ := ih h
      exact ⟨by simp at hf; omega, hm⟩
    next =>
      obtain ⟨rfl, rfl⟩ := List.cons.inj h
      obtain ⟨first, more, heq, -⟩ := chunks_eq_cons rest (rest - c.utf8Size) [c] s
      obtain ⟨hf, hm⟩ := ih heq
      refine ⟨by omega, fun p hp => ?_⟩
      rw [heq] at hp
      rcases List.mem_cons.mp hp with rfl | hp
      · simp at hf
        omega
      · exact hm p hp

/-! ### Separators -/

/-- The two sides of the first `sep`. -/
def splitOnce (sep : Char) : Text → Option (Text × Text)
  | [] => none
  | c :: s => if c = sep then some ([], s) else (splitOnce sep s).map fun p => (c :: p.1, p.2)

theorem splitOnce_append {sep : Char} {k : Text} (h : sep ∉ k) (v : Text) :
    splitOnce sep (k ++ sep :: v) = some (k, v) := by
  induction k with
  | nil => exact if_pos rfl
  | cons c k ih =>
    rw [List.mem_cons, not_or] at h
    rw [List.cons_append, splitOnce, if_neg (Ne.symm h.1), ih h.2]
    rfl

theorem splitOnce_eq_some {sep : Char} {s k v : Text} (h : splitOnce sep s = some (k, v)) :
    sep ∉ k ∧ s = k ++ sep :: v := by
  induction s generalizing k with
  | nil => cases h
  | cons c s ih =>
    unfold splitOnce at h
    split at h
    next hc =>
      obtain ⟨rfl, rfl⟩ := Prod.mk.inj (Option.some.inj h)
      exact ⟨List.not_mem_nil, congrArg (· :: _) hc⟩
    next hc =>
      obtain ⟨p, hp, heq⟩ := Option.map_eq_some_iff.mp h
      obtain ⟨rfl, rfl⟩ := Prod.mk.inj heq
      obtain ⟨hnot, rfl⟩ := ih hp
      exact ⟨List.not_mem_cons_of_ne_of_not_mem (Ne.symm hc) hnot, rfl⟩

theorem splitOnce_eq_none {sep : Char} (h : sep ∉ s) : splitOnce sep s = none := by
  cases hs : splitOnce sep s with
  | none => rfl
  | some p =>
    obtain ⟨-, rfl⟩ := splitOnce_eq_some hs
    exact absurd (List.mem_append_right _ List.mem_cons_self) h

/-- A text without another in front. -/
def stripPrefix (pre s : Text) : Option Text := if pre <+: s then some (s.drop pre.length) else none

/-- A text without another at its end. -/
def stripSuffix (suf s : Text) : Option Text :=
  if suf <:+ s then some (s.take (s.length - suf.length)) else none

theorem stripPrefix_eq_some {pre s t : Text} : stripPrefix pre s = some t ↔ s = pre ++ t := by
  unfold stripPrefix
  constructor
  · intro h
    obtain ⟨⟨r, rfl⟩, ht⟩ := Option.ite_none_right_eq_some.mp h
    rw [← Option.some.inj ht, List.drop_left]
  · rintro rfl
    rw [if_pos (List.prefix_append pre t), List.drop_left]

theorem stripSuffix_eq_some {suf s t : Text} : stripSuffix suf s = some t ↔ s = t ++ suf := by
  unfold stripSuffix
  constructor
  · intro h
    obtain ⟨⟨r, rfl⟩, ht⟩ := Option.ite_none_right_eq_some.mp h
    rw [← Option.some.inj ht, List.length_append, Nat.add_sub_cancel, List.take_left]
  · rintro rfl
    rw [if_pos (List.suffix_append t suf), List.length_append, Nat.add_sub_cancel, List.take_left]

theorem mem_splitOn {sep : Char} {s piece : Text} (h : piece ∈ s.splitOn sep) :
    sep ∉ piece ∧ ∀ c ∈ piece, c ∈ s := by
  induction s generalizing piece with
  | nil =>
    rw [List.splitOn_nil, List.mem_singleton] at h
    rw [h]
    exact ⟨List.not_mem_nil, fun _ => id⟩
  | cons c s ih =>
    rw [List.splitOn_cons_eq_if_modifyHead] at h
    split at h
    next =>
      rcases List.mem_cons.mp h with rfl | h
      · exact ⟨List.not_mem_nil, fun _ hc => absurd hc List.not_mem_nil⟩
      · exact ⟨(ih h).1, fun d hd => List.mem_cons_of_mem _ ((ih h).2 d hd)⟩
    next hne =>
      have hc : c ≠ sep := fun heq => hne (by rw [heq]; exact beq_self_eq_true sep)
      cases hs : s.splitOn sep with
      | nil => exact absurd hs (List.splitOn_ne_nil _ _)
      | cons p ps =>
        rw [hs, List.modifyHead_cons] at h
        rcases List.mem_cons.mp h with rfl | h
        · have hp := ih (hs ▸ List.mem_cons_self)
          refine ⟨List.not_mem_cons_of_ne_of_not_mem (Ne.symm hc) hp.1, fun d hd => ?_⟩
          rcases List.mem_cons.mp hd with rfl | hd
          · exact List.mem_cons_self
          · exact List.mem_cons_of_mem _ (hp.2 d hd)
        · have hp := ih (hs ▸ List.mem_cons_of_mem _ h)
          exact ⟨hp.1, fun d hd => List.mem_cons_of_mem _ (hp.2 d hd)⟩

variable {ws : List Text}

theorem mem_of_mem_intercalate {sep c : Char} (h : c ∈ [sep].intercalate ws) :
    c = sep ∨ ∃ w ∈ ws, c ∈ w := by
  induction ws with
  | nil => simp at h
  | cons w ws ih =>
    cases ws with
    | nil => exact .inr ⟨w, List.mem_cons_self, by simpa using h⟩
    | cons w' ws =>
      have hcons : [sep].intercalate (w :: w' :: ws) =
          w ++ sep :: [sep].intercalate (w' :: ws) := by
        simp [List.intercalate]
      rw [hcons, List.mem_append, List.mem_cons] at h
      rcases h with h | h | h
      · exact .inr ⟨w, List.mem_cons_self, h⟩
      · exact .inl h
      · exact (ih h).imp_right fun ⟨v, hv, hc⟩ => ⟨v, List.mem_cons_of_mem _ hv, hc⟩

/-! ### Words -/

def wordsFrom (cur : Text) : Text → List Text
  | [] => if cur = [] then [] else [cur]
  | c :: s =>
    if isSpace c then if cur = [] then wordsFrom [] s else cur :: wordsFrom [] s
    else wordsFrom (cur ++ [c]) s

def words (s : Text) : List Text := wordsFrom [] s

/-- Words with a space between them. -/
def spaced (ws : List Text) : Text := [' '].intercalate ws

/-- What the words of a text are: some characters, none white space. -/
def IsWord (w : Text) : Prop := w ≠ [] ∧ ∀ c ∈ w, isSpace c = false

theorem wordsFrom_append {cur w s : Text} (hw : ∀ c ∈ w, isSpace c = false) :
    wordsFrom cur (w ++ s) = wordsFrom (cur ++ w) s := by
  induction w generalizing cur with
  | nil => simp
  | cons c w ih =>
    have hc := hw c List.mem_cons_self
    rw [List.cons_append, wordsFrom, if_neg (by rw [hc]; decide),
      ih fun d hd => hw d (List.mem_cons_of_mem _ hd)]
    simp

theorem isWord_of_mem_wordsFrom {cur s w : Text} (hcur : ∀ c ∈ cur, isSpace c = false)
    (h : w ∈ wordsFrom cur s) : IsWord w := by
  induction s generalizing cur with
  | nil =>
    unfold wordsFrom at h
    split at h
    · simp at h
    next hne => exact List.mem_singleton.mp h ▸ ⟨hne, hcur⟩
  | cons c s ih =>
    unfold wordsFrom at h
    split at h
    · split at h
      · exact ih (by simp) h
      next hne =>
        rcases List.mem_cons.mp h with rfl | h
        · exact ⟨hne, hcur⟩
        · exact ih (by simp) h
    next hc =>
      refine ih (fun d hd => ?_) h
      rcases List.mem_append.mp hd with hd | hd
      · exact hcur d hd
      · rw [List.mem_singleton.mp hd]
        simpa using hc

theorem isWord_of_mem_words {s w : Text} (h : w ∈ words s) : IsWord w :=
  isWord_of_mem_wordsFrom (by simp) h

theorem mem_of_mem_wordsFrom {cur s w : Text} (hw : w ∈ wordsFrom cur s)
    (hc : c ∈ w) : c ∈ cur ∨ c ∈ s := by
  induction s generalizing cur with
  | nil =>
    unfold wordsFrom at hw
    split at hw
    · simp at hw
    · exact .inl (List.mem_singleton.mp hw ▸ hc)
  | cons d s ih =>
    unfold wordsFrom at hw
    split at hw
    · split at hw
      · rcases ih hw with h | h
        · simp at h
        · exact .inr (List.mem_cons_of_mem _ h)
      · rcases List.mem_cons.mp hw with rfl | hw
        · exact .inl hc
        · rcases ih hw with h | h
          · simp at h
          · exact .inr (List.mem_cons_of_mem _ h)
    · rcases ih hw with h | h
      · rcases List.mem_append.mp h with h | h
        · exact .inl h
        · exact .inr (List.mem_singleton.mp h ▸ List.mem_cons_self)
      · exact .inr (List.mem_cons_of_mem _ h)

theorem mem_of_mem_words {s w : Text} (hw : w ∈ words s) (hc : c ∈ w) : c ∈ s := by
  rcases mem_of_mem_wordsFrom hw hc with h | h
  · simp at h
  · exact h

@[simp] theorem spaced_nil : spaced [] = [] := rfl

@[simp] theorem spaced_singleton (w : Text) : spaced [w] = w := by simp [spaced]

theorem spaced_cons_cons (w w' : Text) (ws : List Text) :
    spaced (w :: w' :: ws) = w ++ ' ' :: spaced (w' :: ws) := by
  simp [spaced, List.intercalate]

theorem words_spaced (h : ∀ w ∈ ws, IsWord w) :
    words (' ' :: spaced ws ++ [' ']) = ws := by
  show wordsFrom [] (spaced ws ++ [' ']) = ws
  have hspace : isSpace ' ' = true := rfl
  induction ws with
  | nil => rfl
  | cons w ws ih =>
    have hw := h w List.mem_cons_self
    cases ws with
    | nil =>
      rw [spaced_singleton, wordsFrom_append hw.2, List.nil_append, wordsFrom, if_pos hspace,
        if_neg hw.1]
      rfl
    | cons w' ws =>
      rw [spaced_cons_cons, List.append_assoc, wordsFrom_append hw.2, List.nil_append,
        List.cons_append, wordsFrom, if_pos hspace, if_neg hw.1,
        ih fun v hv => h v (List.mem_cons_of_mem _ hv)]

theorem wordsFrom_concat_space (cur s : Text) :
    wordsFrom cur (s ++ [' ']) = wordsFrom cur s := by
  have hspace : isSpace ' ' = true := rfl
  induction s generalizing cur with
  | nil => simp [wordsFrom, hspace]
  | cons c s ih => simp only [List.cons_append, wordsFrom, ih]

theorem words_spaced_self (h : ∀ w ∈ ws, IsWord w) : words (spaced ws) = ws := by
  have hall : words (' ' :: spaced ws ++ [' ']) = words (spaced ws) := wordsFrom_concat_space [] _
  rw [← hall, words_spaced h]

theorem spaced_concat (ws : List Text) (w : Text) :
    spaced (ws ++ [w]) = (if ws = [] then [] else spaced ws ++ [' ']) ++ w := by
  induction ws with
  | nil => simp
  | cons v ws ih =>
    cases ws with
    | nil => simp [spaced_cons_cons]
    | cons v' ws =>
      rw [if_neg (List.cons_ne_nil _ _)] at ih ⊢
      rw [List.cons_append, List.cons_append, spaced_cons_cons, ← List.cons_append, ih,
        spaced_cons_cons]
      simp

theorem trim_spaced (h : ∀ w ∈ ws, IsWord w) : trim (spaced ws) = spaced ws := by
  have hstart : trimStart (spaced ws) = spaced ws := by
    refine trimStart_eq_self fun c hc => ?_
    obtain _ | ⟨w, _ | ⟨w', ws⟩⟩ := ws
    · cases hc
    · rw [spaced_singleton] at hc
      exact (h w List.mem_cons_self).2 c (List.mem_of_head? hc)
    · obtain ⟨d, w, rfl⟩ := List.exists_cons_of_ne_nil (h w List.mem_cons_self).1
      rw [spaced_cons_cons, List.cons_append, List.head?_cons, Option.some.injEq] at hc
      exact (h _ List.mem_cons_self).2 c (hc ▸ List.mem_cons_self)
  rw [trim, hstart]
  refine trimEnd_eq_self.mpr fun c hc => ?_
  rcases List.eq_nil_or_concat ws with rfl | ⟨ws, w, rfl⟩
  · cases hc
  · rw [List.concat_eq_append] at h hc
    have hw := h w List.mem_concat_self
    rw [spaced_concat, List.getLast?_append_of_ne_nil _ hw.1] at hc
    exact hw.2 c (List.mem_of_getLast? hc)

theorem trimEnd_append_eq (s t : Text) :
    trimEnd (s ++ t) = if trimEnd t = [] then trimEnd s else s ++ trimEnd t := by
  unfold trimEnd List.rdropWhile
  rw [List.reverse_append, List.dropWhile_append]
  by_cases ht : t.reverse.dropWhile isSpace = []
  · rw [if_pos (by rw [ht]; rfl), if_pos (by rw [ht]; rfl)]
  · rw [if_neg (by simpa using ht), if_neg (by simpa using ht), List.reverse_append,
      List.reverse_reverse]

theorem trimEnd_take_spaced (h : ∀ w ∈ ws, IsWord w) (n : ℕ) :
    ∃ ws' : List Text, (∀ w ∈ ws', IsWord w) ∧ trimEnd ((spaced ws).take n) = spaced ws' := by
  have hword : ∀ {w : Text} (n : ℕ), (∀ c ∈ w, isSpace c = false) →
      ∃ ws' : List Text, (∀ w ∈ ws', IsWord w) ∧ trimEnd (w.take n) = spaced ws' := by
    intro w n hw
    have hself : trimEnd (w.take n) = w.take n :=
      trimEnd_eq_self.mpr fun c hc => hw c (List.mem_of_mem_take (List.mem_of_getLast? hc))
    by_cases hnil : w.take n = []
    · exact ⟨[], by simp, by rw [hself, hnil]; rfl⟩
    · refine ⟨[w.take n], fun v hv => ?_, by rw [hself, spaced_singleton]⟩
      exact List.mem_singleton.mp hv ▸ ⟨hnil, fun c hc => hw c (List.mem_of_mem_take hc)⟩
  induction ws generalizing n with
  | nil => exact ⟨[], by simp, by simp⟩
  | cons w ws ih =>
    have hw := h w List.mem_cons_self
    cases ws with
    | nil =>
      rw [spaced_singleton]
      exact hword n hw.2
    | cons w' ws =>
      rw [spaced_cons_cons]
      by_cases hn : n ≤ w.length
      · rw [List.take_append_of_le_length hn]
        exact hword n hw.2
      · obtain ⟨k, rfl⟩ : ∃ k, n = w.length + (k + 1) := ⟨n - w.length - 1, by omega⟩
        obtain ⟨ws', hws', heq⟩ := ih (fun v hv => h v (List.mem_cons_of_mem _ hv)) k
        have hself : trimEnd w = w :=
          trimEnd_eq_self.mpr fun c hc => hw.2 c (List.mem_of_getLast? hc)
        rw [List.take_append, List.take_of_length_le (by omega), Nat.add_sub_cancel_left,
          List.take_succ_cons, trimEnd_append_eq]
        have hspace : trimEnd (' ' :: (spaced (w' :: ws)).take k) =
            if spaced ws' = [] then [] else ' ' :: spaced ws' := by
          have := trimEnd_append_eq [' '] ((spaced (w' :: ws)).take k)
          rw [heq] at this
          exact this
        cases ws' with
        | nil =>
          rw [hspace, if_pos spaced_nil, if_pos rfl, hself]
          exact ⟨[w], fun v hv => List.mem_singleton.mp hv ▸ hw, (spaced_singleton w).symm⟩
        | cons v ws' =>
          have hne : spaced (v :: ws') ≠ [] := by
            have hv := (hws' v List.mem_cons_self).1
            cases ws' with
            | nil => rwa [spaced_singleton]
            | cons => simp [spaced_cons_cons]
          rw [hspace, if_neg hne, if_neg (by simp)]
          refine ⟨w :: v :: ws', ?_, (spaced_cons_cons w v ws').symm⟩
          exact List.forall_mem_cons.mpr ⟨hw, hws'⟩

/-! ### Reading each of a list -/

theorem mapM_eq_some_iff {α β : Type*} {f : α → Option β} {l : List α} {out : List β} :
    l.mapM f = some out ↔ List.Forall₂ (fun a b => f a = some b) l out := by
  induction l generalizing out with
  | nil =>
    rw [List.forall₂_nil_left_iff]
    exact ⟨fun h => (Option.some.inj h).symm, fun h => h ▸ rfl⟩
  | cons a l ih =>
    rw [List.mapM_cons, List.forall₂_cons_left_iff]
    constructor
    · intro h
      obtain ⟨b, hb, h⟩ := Option.bind_eq_some_iff.mp h
      obtain ⟨bs, hbs, h⟩ := Option.bind_eq_some_iff.mp h
      exact ⟨b, bs, hb, ih.mp hbs, (Option.some.inj h).symm⟩
    · intro h
      obtain ⟨b, bs, hb, hbs, rfl⟩ := h
      rw [hb, ih.mpr hbs]
      rfl

end Text
