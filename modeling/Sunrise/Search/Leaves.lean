import Sunrise.Search.Operators

/-!
# Leaves that are cut out again

Whatever the lexer makes a leaf of a query is spelled, where it is shown, so that the lexer
cuts out the same leaf. What is no phrase and no operator is a word: as it stood, an open
quote of it closed.

* `BareWord`, `BareWord.again` — where a word is cut out, whatever ends it.
-/

namespace Sunrise

namespace Search

open Text

/-! ### Words -/

/-- What an operator's name is followed by, if it is an operator. -/
def startsCmp (c : Char) : Bool := c ∈ [':', '<', '>']

theorem cmpAt_eq_none_iff (s : Text) : cmpAt s = none ↔ s.head?.any startsCmp = false := by
  cases s with
  | nil => simp [cmpAt]
  | cons c s =>
    have hhead : (c :: s).head?.any startsCmp = startsCmp c := rfl
    rw [hhead]
    by_cases hc : startsCmp c
    · have hcases : c = ':' ∨ c = '<' ∨ c = '>' := by simpa [startsCmp] using hc
      rw [hc]
      refine ⟨fun h => ?_, fun h => absurd h (by decide)⟩
      rcases hcases with rfl | rfl | rfl
      · simp [cmpAt] at h
      · cases s with
        | nil => simp [cmpAt] at h
        | cons d s =>
          by_cases hd : d = '='
          · subst hd
            simp [cmpAt] at h
          · have := cmpAt_display .lt (s := d :: s) fun _ heq => hd (Option.some.inj heq)
            rw [show '<' :: d :: s = Cmp.display .lt ++ d :: s from rfl, this] at h
            simp at h
      · cases s with
        | nil => simp [cmpAt] at h
        | cons d s =>
          by_cases hd : d = '='
          · subst hd
            simp [cmpAt] at h
          · have := cmpAt_display .gt (s := d :: s) fun _ heq => hd (Option.some.inj heq)
            rw [show '>' :: d :: s = Cmp.display .gt ++ d :: s from rfl, this] at h
            simp at h
    · have hno : startsCmp c = false := by simpa using hc
      rw [hno]
      have hne : c ≠ ':' ∧ c ≠ '<' ∧ c ≠ '>' := by simpa [startsCmp] using hc
      refine ⟨fun _ => rfl, fun _ => ?_⟩
      unfold cmpAt
      split
      next heq => exact absurd (List.cons.inj heq).1 hne.1
      next heq => exact absurd (List.cons.inj heq).1 hne.2.1
      next heq => exact absurd (List.cons.inj heq).1 hne.2.2
      next heq => exact absurd (List.cons.inj heq).1 hne.2.1
      next heq => exact absurd (List.cons.inj heq).1 hne.2.2
      next => rfl

theorem operatorAt_eq_none_iff (s : Text) :
    operatorAt s = none ↔ s.takeWhile Char.isAlpha = [] ∨
      keyOf (s.takeWhile Char.isAlpha) = none ∨
      (s.dropWhile Char.isAlpha).head?.any startsCmp = false := by
  rw [← cmpAt_eq_none_iff]
  unfold operatorAt
  dsimp only
  by_cases hword : s.takeWhile Char.isAlpha = []
  · rw [if_pos hword]
    exact ⟨fun _ => .inl hword, fun _ => rfl⟩
  · rw [if_neg hword]
    cases keyOf (s.takeWhile Char.isAlpha) with
    | none => simp
    | some key =>
      cases cmpAt (s.dropWhile Char.isAlpha) with
      | none => simp
      | some p => simpa using hword

/-- Whether a word is an operator's name is decided before what ends the word. -/
theorem head_of_word (x : Text) {tail : Text} (h : ∀ c ∈ tail.head?, endsBare c) :
    (x ++ tail).takeWhile Char.isAlpha = x.takeWhile Char.isAlpha ∧
      ((x ++ tail).dropWhile Char.isAlpha).head?.any startsCmp =
        (x.dropWhile Char.isAlpha).head?.any startsCmp := by
  induction x with
  | nil =>
    cases tail with
    | nil => exact ⟨rfl, rfl⟩
    | cons c tail =>
      have hc : endsBare c := h c rfl
      have halpha : ¬ c.isAlpha = true := fun halpha =>
        Bool.false_ne_true ((not_special_of_isAlpha halpha).1.symm.trans hc)
      have hcmp : startsCmp c = false := by
        rw [← Bool.not_eq_true]
        intro hcmp
        have hcases : c = ':' ∨ c = '<' ∨ c = '>' := by simpa [startsCmp] using hcmp
        rcases hcases with rfl | rfl | rfl <;> exact absurd hc (by decide)
      rw [List.nil_append, List.takeWhile_cons_of_neg halpha, List.dropWhile_cons_of_neg halpha]
      exact ⟨rfl, hcmp⟩
  | cons c x ih =>
    by_cases hc : c.isAlpha = true
    · rw [List.cons_append, List.takeWhile_cons_of_pos hc, List.takeWhile_cons_of_pos hc,
        List.dropWhile_cons_of_pos hc, List.dropWhile_cons_of_pos hc]
      exact ⟨congrArg (c :: ·) ih.1, ih.2⟩
    · rw [List.cons_append, List.takeWhile_cons_of_neg hc, List.takeWhile_cons_of_neg hc,
        List.dropWhile_cons_of_neg hc, List.dropWhile_cons_of_neg hc]
      exact ⟨rfl, rfl⟩

theorem operatorAt_append (x : Text) {tail tail' : Text} (h : ∀ c ∈ tail.head?, endsBare c)
    (h' : ∀ c ∈ tail'.head?, endsBare c) (hnone : operatorAt (x ++ tail) = none) :
    operatorAt (x ++ tail') = none := by
  rw [operatorAt_eq_none_iff] at hnone ⊢
  rw [(head_of_word x h).1, (head_of_word x h).2] at hnone
  rw [(head_of_word x h').1, (head_of_word x h').2]
  exact hnone

/-- Where a word is cut out: it is not a sign, a shorthand or an operator, and nothing in it
ends it. -/
structure BareWord (c : Char) (x tail : Text) : Prop where
  bare : ∀ d ∈ c :: x, endsBare d = false
  ends : ∀ d ∈ tail.head?, endsBare d
  minus : ¬ (c = '-' ∧ (x ++ tail).head?.any fun n => !isSpace n && n != ')')
  shorthand : ¬ ((c = '#' ∨ c = '@') ∧ (x ++ tail).head?.any fun n => !endsBare n || n == '"')
  bang : ¬ (c = '!' ∧ ((x ++ tail).head?.any fun n => '1' ≤ n && n ≤ '5') ∧
    (x ++ tail).tail.head?.all endsBare)
  operator : operatorAt (c :: (x ++ tail)) = none
  or : c :: x ≠ "OR".toList

section

variable {c : Char} {x tail : Text} (h : BareWord c x tail)
include h

theorem lexOne_bareWord (i : ℕ) :
    (lexOne i c (x ++ tail)).tok = some (.leaf (.term (c :: x))) ∧
      (lexOne i c (x ++ tail)).rest = tail := by
  have hc := h.bare c List.mem_cons_self
  have hno : isSpace c = false ∧ c ≠ '"' ∧ c ≠ '(' ∧ c ≠ ')' := by
    unfold endsBare at hc
    simpa using hc
  obtain ⟨h₁, h₂, h₃, h₄⟩ := hno
  have hx : ∀ d ∈ c :: x, (!endsBare d) = true := fun d hd => by rw [h.bare d hd]; rfl
  have htake : (c :: (x ++ tail)).takeWhile (fun d => !endsBare d) = c :: x := by
    have hnil : tail.takeWhile (fun d => !endsBare d) = [] := by
      cases htail : tail with
      | nil => rfl
      | cons d tail' =>
        exact List.takeWhile_cons_of_neg (by rw [h.ends d (htail ▸ rfl)]; decide)
    rw [← List.cons_append, List.takeWhile_append_of_pos hx, hnil, List.append_nil]
  have hdrop : (c :: (x ++ tail)).dropWhile (fun d => !endsBare d) = tail := by
    have hall : tail.dropWhile (fun d => !endsBare d) = tail := by
      cases htail : tail with
      | nil => rfl
      | cons d tail' =>
        exact List.dropWhile_cons_of_neg (by rw [h.ends d (htail ▸ rfl)]; decide)
    rw [← List.cons_append, List.dropWhile_append_of_pos hx, hall]
  unfold lexOne lexBare
  rw [if_neg (by rw [h₁]; decide), if_neg h₃, if_neg h₄, if_neg h₂, if_neg h.minus,
    if_neg h.shorthand, if_neg h.bang]
  unfold lexWord
  rw [h.operator]
  dsimp only
  rw [htake, hdrop, if_neg h.or]
  exact ⟨rfl, rfl⟩

omit h in
theorem Ends.not_any {after : Text} (hafter : Ends after) {p : Char → Bool}
    (hspace : p ' ' = false) (hclose : p ')' = false) : ¬ after.head?.any p := by
  intro hany
  obtain ⟨d, hd, hno⟩ := (Option.any_eq_true ..).mp hany
  rcases hafter d hd with rfl | rfl
  · exact absurd (hno.symm.trans hspace) (by decide)
  · exact absurd (hno.symm.trans hclose) (by decide)

theorem BareWord.again {after : Text}
    (hafter : Ends after) : BareWord c x after where
  bare := h.bare
  ends := endsBare_of_ends hafter
  or := h.or
  operator := operatorAt_append (c :: x) h.ends (endsBare_of_ends hafter) h.operator
  minus := by
    cases x with
    | cons d x => exact h.minus
    | nil =>
      exact fun ⟨_, hany⟩ => hafter.not_any (by decide) (by decide) hany
  shorthand := by
    cases x with
    | cons d x => exact h.shorthand
    | nil =>
      exact fun ⟨_, hany⟩ => hafter.not_any (by decide) (by decide) hany
  bang := by
    cases x with
    | nil =>
      exact fun ⟨_, hany, _⟩ => hafter.not_any (by decide) (by decide) hany
    | cons d x =>
      cases x with
      | cons e x => exact h.bang
      | nil =>
        intro ⟨hc, hdigit, _⟩
        refine h.bang ⟨hc, hdigit, ?_⟩
        cases htail : tail with
        | nil => rfl
        | cons e tail' => exact h.ends e (htail ▸ rfl)

theorem leaf_bareWord :
    Leaf (.term (c :: x)) := by
  have hc := h.bare c List.mem_cons_self
  have hno : isSpace c = false ∧ c ≠ '"' ∧ c ≠ '(' ∧ c ≠ ')' := by
    unfold endsBare at hc
    simpa using hc
  exact ⟨rfl, c, x, rfl, hno.1, hno.2.2.2, fun i after hafter =>
    lexOne_bareWord (h.again hafter) i⟩

end

/-! ### Words that are spelled as operators -/

theorem rawTerm_append (s after : Text) (open_ : Bool) :
    rawTerm (s ++ after) after open_ = .term (s ++ closing open_) := by
  unfold rawTerm closing
  rw [List.length_append, Nat.add_sub_cancel, List.take_left]

theorem leaf_noName {c : Char} (hc : c = '#' ∨ c = '@') {s : Text}
    (hs : s.head?.any fun n => !endsBare n || n == '"') (hitem : (itemAt endsBare s).1 = []) :
    Leaf (rawTerm (c :: s) (itemAt endsBare s).2.1 (itemAt endsBare s).2.2) := by
  obtain ⟨v, hv, -, -, hspells⟩ := itemAt_again endsBare (by decide) s
  rw [hitem] at hspells
  generalize (itemAt endsBare s).2.2 = open_ at hspells
  -- what is quoted starts with its quote
  have hquote : ∃ u, v = '"' :: u := by
    cases s with
    | nil => simp at hs
    | cons d s =>
      have hd : d = '"' := by
        by_contra hd
        rw [itemAt_cons hd] at hitem
        have hends : endsBare d = false := by simpa [hd] using hs
        rw [List.takeWhile_cons_of_pos (by rw [hends]; rfl)] at hitem
        simp at hitem
      subst hd
      cases v with
      | cons e u => exact ⟨u, congrArg (· :: u) (List.cons.inj hv).1.symm⟩
      | nil =>
        rw [itemAt_quote] at hv
        have := (suffix_quoted s).length_le
        rw [show (quoted s).2.1 = '"' :: s from hv.symm, List.length_cons] at this
        omega
  obtain ⟨u, rfl⟩ := hquote
  have hraw : rawTerm (c :: s) (itemAt endsBare s).2.1 open_ =
      .term (c :: ('"' :: u ++ closing open_)) := by
    have := rawTerm_append (c :: '"' :: u) (itemAt endsBare s).2.1 open_
    rw [List.cons_append, ← hv] at this
    exact this
  have hspecial : isSpace c = false ∧ c ≠ ')' := by
    rcases hc with rfl | rfl
    · decide
    · decide
  rw [hraw]
  refine ⟨rfl, c, _, rfl, hspecial.1, hspecial.2, fun i after hafter => ?_⟩
  have hitem' := hspells after fun d hd =>
    ⟨endsBare_of_ends hafter d hd, (stops_of_ends hafter d hd).2⟩
  have hraw' : rawTerm (c :: ('"' :: u ++ closing open_ ++ after)) after false =
      .term (c :: ('"' :: u ++ closing open_)) := by
    have := rawTerm_append (c :: ('"' :: u ++ closing open_)) after false
    rw [show closing false = [] from rfl, List.append_nil] at this
    exact this
  rw [lexOne_shorthand hc i (by rfl)]
  unfold lexName
  dsimp only
  rw [hitem', if_pos rfl]
  dsimp only
  rw [hraw']
  exact ⟨rfl, rfl⟩

theorem cmpAt_eq_some {s rest : Text} {cmp : Cmp} (h : cmpAt s = some (cmp, rest)) :
    s = cmp.display ++ rest ∧ (cmp = .lt ∨ cmp = .gt → rest.head? ≠ some '=') := by
  unfold cmpAt at h
  split at h
  · obtain ⟨rfl, rfl⟩ := Prod.mk.inj (Option.some.inj h)
    exact ⟨rfl, by simp⟩
  · obtain ⟨rfl, rfl⟩ := Prod.mk.inj (Option.some.inj h)
    exact ⟨rfl, by simp⟩
  · obtain ⟨rfl, rfl⟩ := Prod.mk.inj (Option.some.inj h)
    exact ⟨rfl, by simp⟩
  next hne =>
    obtain ⟨rfl, rfl⟩ := Prod.mk.inj (Option.some.inj h)
    refine ⟨rfl, fun _ hhead => ?_⟩
    obtain ⟨t, rfl⟩ := List.head?_eq_some_iff.mp hhead
    exact hne t rfl
  next hne =>
    obtain ⟨rfl, rfl⟩ := Prod.mk.inj (Option.some.inj h)
    refine ⟨rfl, fun _ hhead => ?_⟩
    obtain ⟨t, rfl⟩ := List.head?_eq_some_iff.mp hhead
    exact hne t rfl
  · simp at h

theorem leaf_badValue {s values : Text} {key : Key} {cmp : Cmp}
    (h : operatorAt s = some (key, cmp, values))
    (hnone : filterOf key cmp (valueItems values).1 = none) :
    Leaf (rawTerm s (valueItems values).2.1 (valueItems values).2.2) := by
  obtain ⟨hne, hkey, hcmp⟩ := operatorAt_eq_some h
  obtain ⟨hdrop, hlt⟩ := cmpAt_eq_some hcmp
  obtain ⟨v, hv, -, -, hagain⟩ := valueItems_again values
  generalize (valueItems values).2.2 = open_ at hagain
  obtain ⟨c, t, hword⟩ := List.exists_cons_of_ne_nil hne
  have halpha : ∀ d ∈ c :: t, d.isAlpha := fun d hd => List.mem_takeWhile_imp (hword ▸ hd)
  have hs : s = (c :: t ++ cmp.display ++ v) ++ (valueItems values).2.1 := by
    have := List.takeWhile_append_dropWhile (p := Char.isAlpha) (l := s)
    rw [hword, hdrop] at this
    rw [List.append_assoc, ← hv, List.append_assoc]
    exact this.symm
  have hraw : rawTerm s (valueItems values).2.1 open_ =
      .term (c :: t ++ cmp.display ++ (v ++ closing open_)) := by
    have := rawTerm_append (c :: t ++ cmp.display ++ v) (valueItems values).2.1 open_
    rw [← hs] at this
    rw [this, List.append_assoc]
  obtain ⟨-, -, -, -, -, -, hparen, -, hspace⟩ :=
    not_special_of_isAlpha (halpha c List.mem_cons_self)
  rw [hraw]
  refine ⟨rfl, c, _, rfl, hspace, hparen, fun i after hafter => ?_⟩
  have heq : cmp = .lt ∨ cmp = .gt → (v ++ closing open_ ++ after).head? ≠ some '=' := by
    intro hc
    cases v with
    | cons d v =>
      have := hlt hc
      rw [hv] at this
      exact this
    | nil =>
      cases open_ with
      | true => simp [closing]
      | false =>
        intro hhead
        rcases hafter '=' hhead with h | h
        · exact absurd h (by decide)
        · exact absurd h (by decide)
  have hlex := lexOne_keyed halpha (hword ▸ hkey) cmp heq (hagain after hafter) i
  unfold keyedLeaf at hlex
  rw [hnone] at hlex
  exact hlex

/-! ### Every leaf -/

theorem leaf_of_lexName {i : ℕ} {c : Char} (hc : c = '#' ∨ c = '@') {s : Text}
    (hs : s.head?.any fun n => !endsBare n || n == '"') {e : Expr}
    (h : (lexName i c s).tok = some (.leaf e)) : Leaf e := by
  unfold lexName at h
  dsimp only at h
  split at h
  next hitem =>
    obtain rfl := Tok.leaf.inj (Option.some.inj h)
    exact leaf_noName hc hs hitem
  next hitem =>
    obtain rfl := Tok.leaf.inj (Option.some.inj h)
    obtain ⟨v, -, -, hq, -⟩ := itemAt_again endsBare (by decide) s
    have hwf : NamesWf [(itemAt endsBare s).1] :=
      ⟨by simp, fun n hn => List.mem_singleton.mp hn ▸ ⟨hitem, hq⟩⟩
    split
    · exact leaf_filter hwf
    · exact leaf_filter hwf

theorem leaf_of_lexWord {i : ℕ} {c : Char} {s : Text} (hends : endsBare c = false)
    (hminus : ¬ (c = '-' ∧ s.head?.any fun n => !isSpace n && n != ')'))
    (hshort : ¬ ((c = '#' ∨ c = '@') ∧ s.head?.any fun n => !endsBare n || n == '"'))
    (hbang : ¬ (c = '!' ∧ (s.head?.any fun n => '1' ≤ n && n ≤ '5') ∧ s.tail.head?.all endsBare))
    {e : Expr} (h : (lexWord i (c :: s)).tok = some (.leaf e)) : Leaf e := by
  unfold lexWord at h
  split at h
  next key cmp values hop =>
    dsimp only at h
    obtain ⟨v, -, -, hq, -⟩ := valueItems_again values
    split at h
    next f hf =>
      obtain rfl := Tok.leaf.inj (Option.some.inj h)
      exact leaf_filter (wf_of_filterOf (valueItems_ne_nil values) hq hf)
    next hf =>
      obtain rfl := Tok.leaf.inj (Option.some.inj h)
      exact leaf_badValue hop hf
  next hop =>
    dsimp only at h
    have htake : (c :: s).takeWhile (fun d => !endsBare d) =
        c :: s.takeWhile (fun d => !endsBare d) := List.takeWhile_cons_of_pos (by rw [hends]; rfl)
    have hsplit := List.takeWhile_append_dropWhile (p := fun d => !endsBare d) (l := s)
    rw [htake] at h
    split at h
    · simp at h
    next hor =>
      obtain rfl := Tok.leaf.inj (Option.some.inj h)
      have hword : BareWord c (s.takeWhile fun d => !endsBare d)
          (s.dropWhile fun d => !endsBare d) := ⟨?_, ?_, ?_, ?_, ?_, ?_, hor⟩
      · exact leaf_bareWord hword
      · intro d hd
        rcases List.mem_cons.mp hd with rfl | hd
        · exact hends
        · simpa using List.mem_takeWhile_imp hd
      · intro d hd
        have := List.head?_dropWhile_not (fun d => !endsBare d) s
        rw [hd] at this
        simpa using this
      · rw [hsplit]
        exact hminus
      · rw [hsplit]
        exact hshort
      · rw [hsplit]
        exact hbang
      · rw [hsplit]
        exact hop

/-- **Every leaf that is cut out is cut out again where it is shown.** -/
theorem leaf_of_lexOne {i : ℕ} {c : Char} {s : Text} {e : Expr}
    (h : (lexOne i c s).tok = some (.leaf e)) : Leaf e := by
  unfold lexOne at h
  split at h
  · simp at h
  next hspace =>
    split at h
    · simp at h
    next hl =>
      split at h
      · simp at h
      next hr =>
        split at h
        next =>
          unfold lexPhrase at h
          dsimp only at h
          split at h
          · simp at h
          next hne =>
            obtain rfl := Tok.leaf.inj (Option.some.inj h)
            exact leaf_phrase (trim_trim _) hne fun hq => (quoted_spec s).1 (mem_of_mem_trim hq)
        next hq =>
          unfold lexBare at h
          split at h
          · simp at h
          next hminus =>
            split at h
            next hshort => exact leaf_of_lexName hshort.1 hshort.2 h
            next hshort =>
              split at h
              next hbang =>
                obtain ⟨-, hdigit, -⟩ := hbang
                obtain rfl := Tok.leaf.inj (Option.some.inj h)
                cases s with
                | nil => simp at hdigit
                | cons d s =>
                  have hd : '1' ≤ d ∧ d ≤ '5' := by simpa using hdigit
                  have hp := priorityOf_eq_some (s := [d]) (if_pos hd)
                  refine leaf_filter ⟨by simp, fun p hmem => ?_, fun _ => rfl⟩
                  obtain rfl := List.mem_singleton.mp hmem
                  exact hp
              next hbang =>
                exact leaf_of_lexWord (endsBare_eq_false hspace hl hr hq) hminus hshort hbang h

end Search

end Sunrise
