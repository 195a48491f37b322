import Mathlib.Data.List.Basic
import Mathlib.Tactic.SplitIfs
import Sunrise.Lib.Text

/-!
# Event streams

The lines of a stream end at CR LF, at LF, or at a lone CR, and a blank line ends an event. A
field line adds to the event that the next blank line dispatches; an event without data is not
dispatched.

A stream can also be cut one character at a time: what has arrived since the last blank line is
kept, and the character that makes a blank line completes a block. Blank lines before anything else
belong to no block, so the LF of a blank line that ended in CR LF is passed over like any other. The
events of a stream are those of its blocks, and the blocks of a stream read as text are the texts of
its blocks, as long as the reading treats each line end on its own.

## Main definitions

* `lines`, `Fields`, `interpret` — the interpretation of a stream, line by line.
* `push`, `blocks`, `unfinished` — the blocks of a stream, one character at a time.
* `Reading` — a reading of one alphabet in another that treats each line end on its own.

## Main results

* `blocks_append`, `unfinished_append` — a stream that arrives in two parts.
-/

namespace ServerSent

section Blocks

variable {α : Type*} [DecidableEq α] (cr lf : α)

/-- A character that ends a line. -/
def isEnd (c : α) : Bool := c == cr || c == lf

/-- Keep one more character after those of an unfinished block, or complete the block with it. -/
def push (acc : List α) (c : α) : List α × Option (List α) :=
  if isEnd cr lf c then
    match acc.getLast? with
    | none => ([], none)
    | some last =>
      if last = cr ∧ c = lf then (acc ++ [c], none)
      else if isEnd cr lf last then ([], some (acc ++ [c]))
      else (acc ++ [c], none)
  else (acc ++ [c], none)

/-- The blocks a stream completes after the unfinished block `acc`. -/
def blocks : List α → List α → List (List α)
  | _, [] => []
  | acc, c :: r => (push cr lf acc c).2.toList ++ blocks (push cr lf acc c).1 r

/-- The unfinished block a stream leaves after the unfinished block `acc`. -/
def unfinished : List α → List α → List α
  | acc, [] => acc
  | acc, c :: r => unfinished (push cr lf acc c).1 r

theorem blocks_append (acc s t : List α) :
    blocks cr lf acc (s ++ t) =
      blocks cr lf acc s ++ blocks cr lf (unfinished cr lf acc s) t := by
  induction s generalizing acc with
  | nil => rfl
  | cons c s ih => simp [blocks, unfinished, ih]

theorem unfinished_append (acc s t : List α) :
    unfinished cr lf acc (s ++ t) = unfinished cr lf (unfinished cr lf acc s) t := by
  induction s generalizing acc with
  | nil => rfl
  | cons c s ih => simp [unfinished, ih]

variable {cr lf}

@[simp] theorem isEnd_cr : isEnd cr lf cr = true := by simp [isEnd]

@[simp] theorem isEnd_lf : isEnd cr lf lf = true := by simp [isEnd]

theorem isEnd_iff {c : α} : isEnd cr lf c = true ↔ c = cr ∨ c = lf := by simp [isEnd]

theorem push_not_end {c : α} (h : isEnd cr lf c = false) (acc : List α) :
    push cr lf acc c = (acc ++ [c], none) := by
  simp [push, h]

@[simp] theorem push_nil_end {c : α} (h : isEnd cr lf c = true) :
    push cr lf [] c = ([], none) := by
  simp [push, h]

theorem push_end_line {last c : α} (hl : isEnd cr lf last = false) (acc : List α) :
    push cr lf (acc ++ [last]) c = (acc ++ [last] ++ [c], none) := by
  have hcr : last ≠ cr := by
    rintro rfl
    simp at hl
  simp [push, hl, hcr]

theorem push_cr_lf (acc : List α) :
    push cr lf (acc ++ [cr]) lf = (acc ++ [cr] ++ [lf], none) := by
  simp [push]

theorem push_blank {last c : α} (hl : isEnd cr lf last = true) (hc : isEnd cr lf c = true)
    (h : ¬(last = cr ∧ c = lf)) (acc : List α) :
    push cr lf (acc ++ [last]) c = ([], some (acc ++ [last] ++ [c])) := by
  simp [push, hl, hc, h]

section

variable {line : List α} (h : ∀ c ∈ line, isEnd cr lf c = false) (acc s : List α)
include h acc s

theorem blocks_line :
    blocks cr lf acc (line ++ s) = blocks cr lf (acc ++ line) s := by
  induction line generalizing acc with
  | nil => simp
  | cons c line ih =>
    have hc := push_not_end (h c List.mem_cons_self) acc
    simp [blocks, hc, ih fun d hd => h d (List.mem_cons_of_mem _ hd)]

theorem unfinished_line :
    unfinished cr lf acc (line ++ s) = unfinished cr lf (acc ++ line) s := by
  induction line generalizing acc with
  | nil => simp
  | cons c line ih =>
    have hc := push_not_end (h c List.mem_cons_self) acc
    simp [unfinished, hc, ih fun d hd => h d (List.mem_cons_of_mem _ hd)]

end

/-- What is kept holds no block, and is kept whole. -/
structure Open (cr lf : α) (acc : List α) : Prop where
  blocks_eq : blocks cr lf [] acc = []
  unfinished_eq : unfinished cr lf [] acc = acc

theorem Open.nil : Open cr lf [] := ⟨rfl, rfl⟩

theorem Open.push {acc : List α} (h : Open cr lf acc) (c : α) :
    Open cr lf (push cr lf acc c).1 := by
  by_cases hp : ServerSent.push cr lf acc c = (acc ++ [c], none)
  · rw [hp]
    constructor
    · rw [blocks_append, h.blocks_eq, h.unfinished_eq]
      simp [blocks, hp]
    · rw [unfinished_append, h.unfinished_eq]
      simp [unfinished, hp]
  · have hnil : (ServerSent.push cr lf acc c).1 = [] := by
      unfold ServerSent.push at hp ⊢
      split
      · split
        · rfl
        · split_ifs <;> simp_all
      · simp_all
    exact hnil ▸ .nil

theorem Open.unfinished {acc : List α} (h : Open cr lf acc) (s : List α) :
    Open cr lf (unfinished cr lf acc s) := by
  induction s generalizing acc with
  | nil => exact h
  | cons c s ih => exact ih (h.push c)

/-- A block at the start of a line. -/
def AtLine (cr lf : α) (acc : List α) : Prop :=
  acc = [] ∨ ∃ l e, isEnd cr lf e = true ∧ acc = l ++ [e]

theorem AtLine.nil : AtLine cr lf [] := .inl rfl

theorem atLine_push (acc : List α) {c : α} (hc : isEnd cr lf c = true) :
    AtLine cr lf (push cr lf acc c).1 := by
  unfold push
  rw [if_pos hc]
  split
  · exact .nil
  · split_ifs
    · exact .inr ⟨_, c, hc, rfl⟩
    · exact .nil
    · exact .inr ⟨_, c, hc, rfl⟩

@[elab_as_elim]
theorem line_induction (cr lf : α) {motive : List α → Prop}
    (tail : ∀ line, (∀ c ∈ line, isEnd cr lf c = false) → motive line)
    (line : ∀ line c r, (∀ d ∈ line, isEnd cr lf d = false) → isEnd cr lf c = true → motive r →
      motive (line ++ c :: r)) (s : List α) : motive s := by
  suffices h : ∀ l, (∀ c ∈ l, isEnd cr lf c = false) → motive (l ++ s) from h [] (by simp)
  induction s with
  | nil =>
    intro l hl
    simpa using tail l hl
  | cons c s ih =>
    intro l hl
    cases hc : isEnd cr lf c with
    | true => exact line l c s hl hc (ih [] (by simp))
    | false =>
      rw [List.append_cons]
      exact ih (l ++ [c]) (by simpa [or_imp, forall_and, hc] using hl)

end Blocks

/-! ### Readings -/

/-- A reading of one alphabet in another that treats each line end on its own. -/
structure Reading {α β : Type*} [DecidableEq α] [DecidableEq β] (cr lf : α) (cr' lf' : β)
    (f : List α → List β) (g : α → β) : Prop where
  cr_eq : g cr = cr'
  lf_eq : g lf = lf'
  append_end : ∀ l {c : α}, isEnd cr lf c = true → ∀ r, f (l ++ c :: r) = f l ++ g c :: f r
  eq_nil : ∀ {l}, f l = [] ↔ l = []
  not_end : ∀ {l}, (∀ c ∈ l, isEnd cr lf c = false) → ∀ c ∈ f l, isEnd cr' lf' c = false

namespace Reading

variable {α β : Type*} [DecidableEq α] [DecidableEq β] {cr lf : α} {cr' lf' : β}
  {f : List α → List β} {g : α → β}

section

variable (h : Reading cr lf cr' lf' f g)
include h

theorem isEnd_eq {c : α} (hc : isEnd cr lf c = true) :
    isEnd cr' lf' (g c) = true := by
  rcases isEnd_iff.mp hc with rfl | rfl
  · simp [h.cr_eq]
  · simp [h.lf_eq]

theorem map_nil : f [] = [] := h.eq_nil.mpr rfl

theorem append_last (l : List α) {c : α}
    (hc : isEnd cr lf c = true) : f (l ++ [c]) = f l ++ [g c] := by
  rw [h.append_end l hc, h.map_nil]

theorem append_line {pre : List α} (hpre : AtLine cr lf pre)
    (line : List α) : f (pre ++ line) = f pre ++ f line := by
  rcases hpre with rfl | ⟨l, e, he, rfl⟩
  · rw [h.map_nil, List.nil_append, List.nil_append]
  · rw [h.append_last l he, List.append_assoc, List.append_assoc]
    exact h.append_end l he line

theorem push_end (hne : cr' ≠ lf') {pre line : List α} {c : α}
    (hpre : AtLine cr lf pre) (hline : ∀ d ∈ line, isEnd cr lf d = false)
    (hc : isEnd cr lf c = true) :
    push cr' lf' (f (pre ++ line)) (g c) =
      (f (push cr lf (pre ++ line) c).1, (push cr lf (pre ++ line) c).2.map f) := by
  have hg := h.isEnd_eq hc
  rcases line.eq_nil_or_concat' with rfl | ⟨l, d, rfl⟩
  · rw [List.append_nil]
    rcases hpre with rfl | ⟨l, e, he, rfl⟩
    · simp [h.map_nil, push_nil_end hc, push_nil_end hg]
    · rw [h.append_last l he]
      have hiff : (g e = cr' ∧ g c = lf') ↔ e = cr ∧ c = lf := by
        rw [isEnd_iff] at he hc
        have h1 := h.cr_eq
        have h2 := h.lf_eq
        grind
      by_cases hcl : e = cr ∧ c = lf
      · obtain ⟨rfl, rfl⟩ := hcl
        rw [push_cr_lf, h.cr_eq, h.lf_eq, push_cr_lf, h.append_last _ isEnd_lf,
          h.append_last _ isEnd_cr, h.cr_eq, h.lf_eq]
        rfl
      · rw [push_blank he hc hcl, push_blank (h.isEnd_eq he) hg (mt hiff.mp hcl)]
        simp only [Option.map_some, h.append_last _ hc, h.append_last _ he, h.map_nil]
  · have hd := hline d (by simp)
    obtain ⟨m, d', hm⟩ := (f (l ++ [d])).eq_nil_or_concat'.resolve_left
      (mt h.eq_nil.mp (by simp))
    have hd' : isEnd cr' lf' d' = false := h.not_end hline d' (by simp [hm])
    have hsplit : f (pre ++ l ++ [d]) = f pre ++ m ++ [d'] := by
      rw [List.append_assoc, h.append_line hpre, hm, List.append_assoc]
    rw [← List.append_assoc, hsplit, push_end_line hd', push_end_line hd]
    simp only [Option.map_none, h.append_last _ hc, hsplit]

theorem blocks_unfinished (hne : cr' ≠ lf') (s : List α) :
    ∀ pre, AtLine cr lf pre →
      blocks cr' lf' (f pre) (f s) = (blocks cr lf pre s).map f ∧
        unfinished cr' lf' (f pre) (f s) = f (unfinished cr lf pre s) := by
  induction s using line_induction cr lf with
  | tail line hline =>
    intro pre hpre
    have ht := h.not_end hline
    have h1 := blocks_line hline pre []
    have h2 := blocks_line ht (f pre) []
    have h3 := unfinished_line hline pre []
    have h4 := unfinished_line ht (f pre) []
    rw [List.append_nil] at h1 h2 h3 h4
    rw [h1, h2, h3, h4]
    exact ⟨rfl, (h.append_line hpre line).symm⟩
  | line line c r hline hc ih =>
    intro pre hpre
    have ht := h.not_end hline
    obtain ⟨ih1, ih2⟩ := ih _ (atLine_push (pre ++ line) hc)
    rw [h.append_end line hc, blocks_line ht, unfinished_line ht, blocks_line hline,
      unfinished_line hline, ← h.append_line hpre, blocks, unfinished, blocks, unfinished,
      h.push_end hne hpre hline hc, ih1, ih2]
    simp [Option.toList_map]

end

end Reading

/-! ### The interpretation -/

section Lines

variable {α : Type*} [DecidableEq α] (cr lf : α)

/-- The lines of a stream, of which `line` is read of the first, and the LF of a CR LF is next if
`afterCr`. A line without its end is none. -/
def lines : List α → Bool → List α → List (List α)
  | _, _, [] => []
  | line, afterCr, c :: r =>
    if afterCr && c == lf then lines line false r
    else if isEnd cr lf c then line :: lines [] (c == cr) r
    else lines (line ++ [c]) false r

variable {cr lf}

theorem lines_cons_char {c : α} (hc : isEnd cr lf c = false) (line : List α) (afterCr : Bool)
    (s : List α) :
    lines cr lf line afterCr (c :: s) = lines cr lf (line ++ [c]) false s := by
  have hlf : c ≠ lf := by
    rintro rfl
    simp at hc
  simp [lines, hc, hlf]

theorem lines_cons_end {c : α} (line : List α) (afterCr : Bool) (s : List α)
    (hc : isEnd cr lf c = true) :
    (afterCr = true ∧ c = lf ∧ lines cr lf line afterCr (c :: s) = lines cr lf line false s) ∨
      (¬(afterCr = true ∧ c = lf) ∧
        lines cr lf line afterCr (c :: s) = line :: lines cr lf [] (c == cr) s) := by
  by_cases h : afterCr = true ∧ c = lf
  · exact .inl ⟨h.1, h.2, by simp [lines, h]⟩
  · refine .inr ⟨h, ?_⟩
    rw [lines, if_neg (by simpa using h), if_pos hc]

/-- What is read of a line that has not ended, and whether an LF would belong to the line before. -/
def lineAfter (cr lf : α) : List α → Bool → List α → List α × Bool
  | line, afterCr, [] => (line, afterCr)
  | line, afterCr, c :: r =>
    if afterCr && c == lf then lineAfter cr lf line false r
    else if isEnd cr lf c then lineAfter cr lf [] (c == cr) r
    else lineAfter cr lf (line ++ [c]) false r

theorem lines_append (line : List α) (afterCr : Bool) (s t : List α) :
    lines cr lf line afterCr (s ++ t) =
      lines cr lf line afterCr s ++
        lines cr lf (lineAfter cr lf line afterCr s).1 (lineAfter cr lf line afterCr s).2 t := by
  fun_induction lineAfter cr lf line afterCr s with
  | case1 => rfl
  | case2 line afterCr c r h ih => simp [lines, h, ih]
  | case3 line afterCr c r h he ih => simp [lines, h, he, ih]
  | case4 line afterCr c r h he ih => simp [lines, h, he, ih]

theorem lineAfter_append (line : List α) (afterCr : Bool) (s t : List α) :
    lineAfter cr lf line afterCr (s ++ t) =
      lineAfter cr lf (lineAfter cr lf line afterCr s).1 (lineAfter cr lf line afterCr s).2 t := by
  fun_induction lineAfter cr lf line afterCr s with
  | case1 => rfl
  | case2 line afterCr c r h ih => simp [lineAfter, h, ih]
  | case3 line afterCr c r h he ih => simp [lineAfter, h, he, ih]
  | case4 line afterCr c r h he ih => simp [lineAfter, h, he, ih]

theorem lineAfter_concat_char {c : α} (hc : isEnd cr lf c = false) (s : List α) :
    lineAfter cr lf [] false (s ++ [c]) = ((lineAfter cr lf [] false s).1 ++ [c], false) := by
  have hlf : c ≠ lf := by
    rintro rfl
    simp at hc
  rw [lineAfter_append]
  simp [lineAfter, hc, hlf]

theorem lines_concat_char {c : α} (hc : isEnd cr lf c = false) (s : List α) :
    lines cr lf [] false (s ++ [c]) = lines cr lf [] false s := by
  rw [lines_append, lines_cons_char hc, lines, List.append_nil]

theorem lineAfter_concat_end (hne : cr ≠ lf) {c : α} (hc : isEnd cr lf c = true) (s : List α) :
    lineAfter cr lf [] false (s ++ [c]) = ([], c == cr) := by
  induction s using List.reverseRecOn generalizing c with
  | nil => simp [lineAfter, hc]
  | append_singleton s d ih =>
    rw [lineAfter_append]
    cases hd : isEnd cr lf d with
    | true =>
      rw [ih hd, lineAfter]
      split_ifs with h
      · have : c ≠ cr := by
          rintro rfl
          simp_all
        simp [lineAfter, this]
      · rfl
    | false => simp [lineAfter_concat_char hd, lineAfter, hc]

theorem lineAfter_atLine (hne : cr ≠ lf) {s : List α} (h : AtLine cr lf s) :
    (lineAfter cr lf [] false s).1 = [] := by
  rcases h with rfl | ⟨l, e, he, rfl⟩
  · rfl
  · rw [lineAfter_concat_end hne he]

theorem lineAfter_append_atLine (hne : cr ≠ lf) {s : List α} (h : AtLine cr lf s)
    (t : List α) :
    (lineAfter cr lf [] false (s ++ t)).1 = (lineAfter cr lf [] false t).1 := by
  induction t using List.reverseRecOn with
  | nil => rw [List.append_nil, lineAfter_atLine hne h, lineAfter]
  | append_singleton t c ih =>
    rw [← List.append_assoc]
    cases hc : isEnd cr lf c with
    | true => rw [lineAfter_concat_end hne hc, lineAfter_concat_end hne hc]
    | false => rw [lineAfter_concat_char hc, lineAfter_concat_char hc, ih]

theorem lines_concat_end {c : α} (hc : isEnd cr lf c = true) (s : List α) :
    lines cr lf [] false (s ++ [c]) =
      lines cr lf [] false s ++
        if (lineAfter cr lf [] false s).2 && c == lf then []
        else [(lineAfter cr lf [] false s).1] := by
  rw [lines_append]
  simp only [lines, hc]
  split_ifs <;> simp_all

/-- `rest` is what a stream has begun of its next event: before it, the stream is at the start of a
line and the line before that is blank, and no line of it is. -/
structure IsUnfinished (cr lf : α) (s rest : List α) : Prop where
  exists_done : ∃ done, s = done ++ rest ∧ AtLine cr lf done ∧
    (done = [] ∨ (lines cr lf [] false done).getLast? = some []) ∧
    lines cr lf [] false s = lines cr lf [] false done ++ lines cr lf [] false rest
  not_blank : [] ∉ lines cr lf [] false rest

theorem isUnfinished_unfinished (hne : cr ≠ lf) (s : List α) :
    IsUnfinished cr lf s (unfinished cr lf [] s) := by
  induction s using List.reverseRecOn with
  | nil => exact ⟨⟨[], rfl, .nil, .inl rfl, rfl⟩, by simp [unfinished, lines]⟩
  | append_singleton s c ih =>
    obtain ⟨⟨done, hs, hdone, hlast, hlines⟩, hblank⟩ := ih
    rw [unfinished_append, unfinished, unfinished]
    generalize unfinished cr lf [] s = u at *
    -- A blank line that ends here is the last of what is done.
    have hend : isEnd cr lf c = true →
        (lines cr lf [] false (s ++ [c])).getLast? = some [] → IsUnfinished cr lf (s ++ [c]) [] :=
      fun hc h => ⟨⟨s ++ [c], by simp, .inr ⟨s, c, hc, rfl⟩, .inr h, by simp [lines]⟩,
        by simp [lines]⟩
    cases hc : isEnd cr lf c with
    | false =>
      rw [push_not_end hc]
      refine ⟨⟨done, by simp [hs], hdone, hlast, ?_⟩, by rwa [lines_concat_char hc]⟩
      rw [lines_concat_char hc, lines_concat_char hc, hlines]
    | true =>
      rcases u.eq_nil_or_concat' with rfl | ⟨v, d, rfl⟩
      · rw [push_nil_end hc]
        rw [List.append_nil] at hs
        subst hs
        refine hend hc ?_
        rw [lines_concat_end hc, lineAfter_atLine hne hdone]
        split_ifs with h
        · rw [List.append_nil]
          refine hlast.resolve_left ?_
          rintro rfl
          simp [lineAfter] at h
        · simp
      · cases hd : isEnd cr lf d with
        | false =>
          have hline := lineAfter_append_atLine hne hdone (v ++ [d])
          rw [← hs] at hline
          have hcr : (lineAfter cr lf [] false s).2 = false := by
            rw [hs, ← List.append_assoc, lineAfter_concat_char hd]
          rw [push_end_line hd]
          refine ⟨⟨done, by simp [hs], hdone, hlast, ?_⟩, ?_⟩
          · rw [lines_concat_end hc, lines_concat_end hc, hlines, hline, hcr]
            simp [lineAfter_concat_char hd]
          · rw [lines_concat_end hc]
            simpa [lineAfter_concat_char hd] using hblank
        | true =>
          have hafter : lineAfter cr lf [] false s = ([], d == cr) := by
            rw [hs, ← List.append_assoc, lineAfter_concat_end hne hd]
          by_cases hcl : d = cr ∧ c = lf
          · obtain ⟨rfl, rfl⟩ := hcl
            rw [push_cr_lf]
            refine ⟨⟨done, by simp [hs], hdone, hlast, ?_⟩, ?_⟩
            · rw [lines_concat_end hc, lines_concat_end hc, hlines, hafter,
                lineAfter_concat_end hne hd]
              simp
            · rw [lines_concat_end hc, lineAfter_concat_end hne hd]
              simpa using hblank
          · rw [push_blank hd hc hcl]
            refine hend hc ?_
            rw [lines_concat_end hc, hafter, if_neg (by simpa using hcl)]
            simp

end Lines

/-- An event: the id it sets, and its data. -/
structure Event where
  id : Option Text
  data : Text
deriving DecidableEq, Repr

/-- The fields of an event that is not dispatched yet. -/
structure Fields where
  id : Option Text := none
  data : Text := []

namespace Fields

/-- Process a field. Those that an event's id and data do not depend on are left out. -/
def process (p : Fields) (field value : Text) : Fields :=
  if field = "data".toList then { p with data := p.data ++ value ++ ['\n'] }
  else if field = "id".toList then if '\x00' ∈ value then p else { p with id := some value }
  else p

/-- A value without the space that may follow the colon. -/
def dropSpace : Text → Text
  | ' ' :: value => value
  | value => value

/-- Process a line that is not blank. One that starts with a colon is a comment; a line without a
colon is the name of a field. -/
def processLine (p : Fields) (line : Text) : Fields :=
  match line.span (· != ':') with
  | ([], _ :: _) => p
  | (field, _ :: value) => p.process field (dropSpace value)
  | (field, []) => p.process field []

def dispatch (p : Fields) : Option Event :=
  if p.data = [] then none
  else some ⟨p.id, if p.data.getLast? = some '\n' then p.data.dropLast else p.data⟩

end Fields

/-- The events of lines, after the fields of `p`. -/
def interpretFrom : Fields → List Text → List Event
  | _, [] => []
  | p, [] :: ls => p.dispatch.toList ++ interpretFrom {} ls
  | p, line :: ls => interpretFrom (p.processLine line) ls

def interpret (s : Text) : List Event := interpretFrom {} (lines '\r' '\n' [] false s)

example : interpret "id: 7\r\ndata:a\n: note\rdata: b\r\n\r\ndata\n\nid: 8\n\ndata: c".toList =
    [⟨some ['7'], ['a', '\n', 'b']⟩, ⟨none, []⟩] := by decide

/-! ### The events of the blocks -/

@[simp] theorem Fields.processLine_nil (p : Fields) : p.processLine [] = p := rfl

def fieldsOf (block : Text) : Fields :=
  (block.splitOnP (isEnd '\r' '\n')).foldl Fields.processLine {}

@[simp] theorem fieldsOf_nil : fieldsOf [] = {} := rfl

theorem fieldsOf_append_end (block : Text) {c : Char} (hc : isEnd '\r' '\n' c = true) :
    fieldsOf (block ++ [c]) = fieldsOf block := by
  rw [fieldsOf, List.splitOnP_append_cons _ _ hc]
  simp [fieldsOf]

theorem fieldsOf_append_line {pre line : Text} (hpre : AtLine '\r' '\n' pre)
    (hline : ∀ c ∈ line, isEnd '\r' '\n' c = false) :
    fieldsOf (pre ++ line) = (fieldsOf pre).processLine line := by
  rcases hpre with rfl | ⟨l, e, he, rfl⟩
  · rw [List.nil_append, fieldsOf, List.splitOnP_eq_singleton hline]
    rfl
  · rw [fieldsOf_append_end l he, List.append_assoc, List.singleton_append, fieldsOf,
      List.splitOnP_append_cons _ _ he, List.splitOnP_eq_singleton hline, List.foldl_append]
    rfl

@[simp] theorem interpretFrom_blank (p : Fields) (ls : List Text) :
    interpretFrom p ([] :: ls) = p.dispatch.toList ++ interpretFrom {} ls := rfl

theorem interpretFrom_line (p : Fields) {line : Text} (h : line ≠ []) (ls : List Text) :
    interpretFrom p (line :: ls) = interpretFrom (p.processLine line) ls := by
  cases line with
  | nil => exact absurd rfl h
  | cons c line => rfl

theorem interpretFrom_lines (s : Text) (pre line : Text) (afterCr : Bool)
    (hpre : AtLine '\r' '\n' pre) (hline : ∀ c ∈ line, isEnd '\r' '\n' c = false)
    (hcr : afterCr = true → line = [] ∧ (pre = [] ∨ pre.getLast? = some '\r'))
    (hlf : line = [] → pre.getLast? = some '\r' → afterCr = true) :
    interpretFrom (fieldsOf pre) (lines '\r' '\n' line afterCr s) =
      (blocks '\r' '\n' (pre ++ line) s).flatMap fun b => (fieldsOf b).dispatch.toList := by
  induction s generalizing pre line afterCr with
  | nil => rfl
  | cons c s ih =>
    cases hc : isEnd '\r' '\n' c with
    | false =>
      have hlf' : c ≠ '\n' := by
        rintro rfl
        simp at hc
      rw [lines_cons_char hc, blocks, push_not_end hc, List.append_assoc]
      exact ih pre (line ++ [c]) false hpre (by simpa [or_imp, forall_and, hc] using hline)
        (by simp) (by simp)
    | true =>
      by_cases hl : line = []
      · subst hl
        rw [List.append_nil]
        rcases hpre with rfl | ⟨l, e, he, rfl⟩
        · -- A blank line before the block, or the LF of the blank line that ended the last one.
          rw [blocks, push_nil_end hc]
          rcases lines_cons_end [] afterCr s hc with ⟨-, -, h⟩ | ⟨-, h⟩
          · rw [h]
            exact ih [] [] false .nil hline (by simp) (by simp)
          · rw [h, fieldsOf_nil, interpretFrom_blank]
            exact ih [] [] (c == '\r') .nil hline (by simp) (by simp)
        · by_cases hb : e = '\r' ∧ c = '\n'
          · -- The LF of the line's CR LF.
            obtain ⟨rfl, rfl⟩ := hb
            obtain rfl : afterCr = true := hlf rfl (by simp)
            rw [blocks, push_cr_lf, ← fieldsOf_append_end _ hc]
            simpa [lines] using ih (l ++ ['\r'] ++ ['\n']) [] false (.inr ⟨_, _, hc, rfl⟩) hline
              (by simp) (by simp)
          · -- The blank line that ends the block.
            rw [blocks, push_blank he hc hb]
            rcases lines_cons_end [] afterCr s hc with ⟨hr, hn, -⟩ | ⟨-, h⟩
            · simp_all
            · rw [h, interpretFrom_blank, ← fieldsOf_append_end _ hc, Option.toList_some,
                List.flatMap_append, List.flatMap_singleton]
              exact congrArg _ (ih [] [] (c == '\r') .nil hline (by simp) (by simp))
      · obtain ⟨m, d, rfl⟩ := line.eq_nil_or_concat'.resolve_left hl
        have hd : isEnd '\r' '\n' d = false := hline d (by simp)
        have hno : afterCr = false := by
          by_contra h
          exact hl (hcr (by simpa using h)).1
        rcases lines_cons_end (m ++ [d]) afterCr s hc with ⟨hr, -, -⟩ | ⟨-, h⟩
        · simp [hno] at hr
        · rw [h, interpretFrom_line _ hl, ← fieldsOf_append_line hpre hline,
            ← fieldsOf_append_end _ hc, blocks, ← List.append_assoc, push_end_line hd]
          simpa using ih (pre ++ m ++ [d] ++ [c]) [] (c == '\r') (.inr ⟨_, _, hc, rfl⟩) (by simp)
            (by simp) (by simp)

theorem interpret_eq (s : Text) :
    interpret s = (blocks '\r' '\n' [] s).flatMap fun b => (fieldsOf b).dispatch.toList :=
  interpretFrom_lines s [] [] false .nil (by simp) (by simp) (by simp)

end ServerSent
