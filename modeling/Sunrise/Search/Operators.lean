import Sunrise.Search.Lex

/-!
# Operators that are cut out again

An operator and a phrase are shown so that the lexer cuts out the same of them: a phrase in
its quotes, an operator with its values in the order and the spelling they are shown in.

* `Spells`, `itemAt_again`, `valueItems_again` — spelled values, and values read again as they
  stood.
* `Filter.Wf`, `wf_of_filterOf` — the operators that are read.
-/

namespace Sunrise

namespace Search

open Text

/-- What may follow a clause where it is shown. -/
def Ends (after : Text) : Prop := ∀ c ∈ after.head?, c = ' ' ∨ c = ')'

/-- A word, a phrase or an operator that is cut out again where it is shown. -/
structure Leaf (e : Expr) : Prop where
  leaf : e.isLeaf
  shown : ∃ c t, e.display = c :: t ∧ isSpace c = false ∧ c ≠ ')' ∧
    ∀ i after, Ends after → (lexOne i c (t ++ after)).tok = some (.leaf e) ∧
      (lexOne i c (t ++ after)).rest = after

theorem endsBare_of_ends {after : Text} (h : Ends after) : ∀ c ∈ after.head?, endsBare c := by
  intro c hc
  rcases h c hc with rfl | rfl
  · decide
  · decide

/-! ### Phrases -/

theorem quoted_append {p : Text} (h : '"' ∉ p) (after : Text) :
    quoted (p ++ '"' :: after) = (p, after, true) := by
  have hne : ∀ c ∈ p, decide (c ≠ '"') = true := fun c hc =>
    decide_eq_true fun heq => h (heq ▸ hc)
  unfold quoted
  rw [List.takeWhile_append_of_pos hne, List.dropWhile_append_of_pos hne,
    List.dropWhile_cons_of_neg (by decide), List.takeWhile_cons_of_neg (by decide),
    List.append_nil]

theorem leaf_phrase {p : Text} (htrim : trim p = p) (hne : p ≠ []) (hq : '"' ∉ p) :
    Leaf (.phrase p) where
  leaf := rfl
  shown := by
    refine ⟨'"', p ++ ['"'], rfl, by decide, by decide, fun i after _ => ?_⟩
    have hlex : lexOne i '"' (p ++ ['"'] ++ after) = lexPhrase i (p ++ '"' :: after) := by
      rw [List.append_assoc]
      rfl
    rw [hlex]
    unfold lexPhrase
    rw [quoted_append hq]
    dsimp only
    rw [htrim, if_neg hne]
    exact ⟨rfl, rfl⟩

/-! ### Items -/

def closing (open_ : Bool) : Text := if open_ then ['"'] else []

def Spells (stop : Char → Bool) (spelled item : Text) : Prop :=
  ∀ tail, (∀ c ∈ tail.head?, stop c ∧ c ≠ '"') → itemAt stop (spelled ++ tail) = (item, tail, false)

theorem itemAt_quote (stop : Char → Bool) (s : Text) :
    itemAt stop ('"' :: s) = ((quoted s).1, (quoted s).2.1, !(quoted s).2.2) := rfl

theorem itemAt_cons {stop : Char → Bool} {c : Char} (hc : c ≠ '"') (s : Text) :
    itemAt stop (c :: s) =
      ((c :: s).takeWhile fun c => !stop c, (c :: s).dropWhile fun c => !stop c, false) := by
  unfold itemAt
  split
  next heq => exact absurd (List.cons.inj heq).1 hc
  next => rfl

theorem spells_bare {stop : Char → Bool} {x : Text} (h : ∀ c ∈ x, stop c = false ∧ c ≠ '"') :
    Spells stop x x := by
  intro tail htail
  have hx : ∀ c ∈ x, (!stop c) = true := fun c hc => by rw [(h c hc).1]; rfl
  have hstop : ∀ c ∈ tail.head?, ¬ (!stop c) = true := fun c hc => by rw [(htail c hc).1]; decide
  have htake : tail.takeWhile (fun c => !stop c) = [] := by
    cases tail with
    | nil => rfl
    | cons c tail => exact List.takeWhile_cons_of_neg (hstop c rfl)
  have hdrop : tail.dropWhile (fun c => !stop c) = tail := by
    cases tail with
    | nil => rfl
    | cons c tail => exact List.dropWhile_cons_of_neg (hstop c rfl)
  have hitem : itemAt stop (x ++ tail) = ((x ++ tail).takeWhile fun c => !stop c,
      (x ++ tail).dropWhile fun c => !stop c, false) := by
    cases x with
    | cons c x => exact itemAt_cons (h c List.mem_cons_self).2 _
    | nil =>
      cases tail with
      | nil => rfl
      | cons c tail => exact itemAt_cons (htail c rfl).2 _
  rw [hitem, List.takeWhile_append_of_pos hx, List.dropWhile_append_of_pos hx, htake, hdrop,
    List.append_nil]

theorem spells_quoted (stop : Char → Bool) {x : Text} (h : '"' ∉ x) :
    Spells stop ('"' :: x ++ ['"']) x := by
  intro tail _
  have : '"' :: x ++ ['"'] ++ tail = '"' :: (x ++ '"' :: tail) := by simp
  rw [this, itemAt_quote, quoted_append h]
  rfl

theorem quoted_spec (s : Text) : '"' ∉ (quoted s).1 ∧
    ((quoted s).2.2 = true ∧ s = (quoted s).1 ++ '"' :: (quoted s).2.1 ∨
      (quoted s).2.2 = false ∧ s = (quoted s).1 ∧ (quoted s).2.1 = []) := by
  have hnot : '"' ∉ s.takeWhile (· ≠ '"') := fun h => by
    have := List.mem_takeWhile_imp h
    simp at this
  have hsplit := List.takeWhile_append_dropWhile (p := fun c => decide (c ≠ '"')) (l := s)
  unfold quoted
  split
  next c rest heq =>
    have hhead := List.head?_dropWhile_not (fun c => decide (c ≠ '"')) s
    rw [heq] at hhead hsplit
    have hc : c = '"' := by simpa using hhead
    rw [hc] at hsplit
    exact ⟨hnot, .inl ⟨rfl, hsplit.symm⟩⟩
  next heq =>
    rw [heq, List.append_nil] at hsplit
    exact ⟨hnot, .inr ⟨rfl, hsplit.symm, rfl⟩⟩

theorem itemAt_again (stop : Char → Bool) (hstop : stop '"') (s : Text) :
    ∃ v, s = v ++ (itemAt stop s).2.1 ∧ ((itemAt stop s).2.2 = true → (itemAt stop s).2.1 = []) ∧
      '"' ∉ (itemAt stop s).1 ∧
        Spells stop (v ++ closing (itemAt stop s).2.2) (itemAt stop s).1 := by
  have hbare : ∀ s : Text, itemAt stop s = (s.takeWhile fun c => !stop c,
        s.dropWhile fun c => !stop c, false) →
      ∃ v, s = v ++ (itemAt stop s).2.1 ∧ ((itemAt stop s).2.2 = true → (itemAt stop s).2.1 = []) ∧
        '"' ∉ (itemAt stop s).1 ∧
          Spells stop (v ++ closing (itemAt stop s).2.2) (itemAt stop s).1 := by
    intro s hs
    have hmem : ∀ c ∈ s.takeWhile fun c => !stop c, stop c = false ∧ c ≠ '"' := by
      intro c hc
      have hc' : stop c = false := by simpa using List.mem_takeWhile_imp hc
      refine ⟨hc', fun heq => ?_⟩
      rw [heq, hstop] at hc'
      exact Bool.false_ne_true hc'.symm
    rw [hs]
    refine ⟨_, List.takeWhile_append_dropWhile.symm, nofun, fun h => (hmem _ h).2 rfl, ?_⟩
    rw [show closing false = [] from rfl, List.append_nil]
    exact spells_bare hmem
  cases s with
  | nil => exact hbare [] rfl
  | cons c s =>
    by_cases hc : c = '"'
    · subst hc
      rw [itemAt_quote]
      obtain ⟨hnot, ⟨hclosed, hs⟩ | ⟨hopen, hs, hrest⟩⟩ := quoted_spec s
      · refine ⟨'"' :: (quoted s).1 ++ ['"'], ?_, ?_, hnot, ?_⟩
        · rw [List.append_assoc]
          exact congrArg ('"' :: ·) hs
        · rw [hclosed]
          exact nofun
        · rw [hclosed]
          exact (List.append_nil ('"' :: (quoted s).1 ++ ['"'])).symm ▸ spells_quoted stop hnot
      · refine ⟨'"' :: s, ?_, fun _ => hrest, hnot, ?_⟩
        · rw [hrest, List.append_nil]
        · rw [hopen, ← hs]
          exact spells_quoted stop (hs ▸ hnot)
    · exact hbare (c :: s) (itemAt_cons hc s)

/-! ### Values -/

theorem valueItems_last {s item rest : Text} (h : itemAt endsItem s = (item, rest, false))
    (hr : rest.head? ≠ some ',') : valueItems s = ([item], rest, false) := by
  rw [valueItems]
  split
  next heq =>
    rw [heq] at h
    simp at h
  next heq =>
    rw [heq] at h
    simp only [Prod.mk.injEq] at h
    rw [← h.2.1] at hr
    simp at hr
  next heq =>
    rw [heq] at h
    simp only [Prod.mk.injEq] at h
    rw [h.1, h.2.1]

theorem valueItems_comma {s item rest : Text} (h : itemAt endsItem s = (item, ',' :: rest, false)) :
    valueItems s = (item :: (valueItems rest).1, (valueItems rest).2.1, (valueItems rest).2.2) := by
  rw [valueItems]
  split
  next heq =>
    rw [heq] at h
    simp at h
  next heq =>
    rw [heq] at h
    simp only [Prod.mk.injEq, List.cons.injEq] at h
    rw [h.1, h.2.1.2]
  next hne heq =>
    rw [heq] at h
    simp only [Prod.mk.injEq] at h
    exact (hne _ h.2.1).elim

theorem stops_of_ends {after : Text} (h : Ends after) :
    ∀ c ∈ after.head?, endsItem c ∧ c ≠ '"' := by
  intro c hc
  rcases h c hc with rfl | rfl
  · decide
  · decide

theorem head?_ne_comma {after : Text} (h : Ends after) : after.head? ≠ some ',' := by
  intro hc
  rcases h _ hc with h | h
  · exact absurd h (by decide)
  · exact absurd h (by decide)

theorem valueItems_commas {ps : List (Text × Text)} (hne : ps ≠ [])
    (h : ∀ p ∈ ps, Spells endsItem p.1 p.2) {after : Text} (hafter : Ends after) :
    valueItems (commas (ps.map Prod.fst) ++ after) = (ps.map Prod.snd, after, false) := by
  induction ps with
  | nil => exact absurd rfl hne
  | cons p ps ih =>
    have hp := h p List.mem_cons_self
    cases ps with
    | nil =>
      have hcommas : commas ([p].map Prod.fst) = p.1 := by simp [commas]
      rw [hcommas]
      exact valueItems_last (hp after (stops_of_ends hafter)) (head?_ne_comma hafter)
    | cons q ps =>
      have hcommas : commas ((p :: q :: ps).map Prod.fst) ++ after =
          p.1 ++ ',' :: (commas ((q :: ps).map Prod.fst) ++ after) := by
        simp [commas, List.intercalate]
      rw [hcommas, valueItems_comma (hp _ ?_), ih (by simp) fun r hr =>
        h r (List.mem_cons_of_mem _ hr)]
      · rfl
      · intro c hc
        rw [← Option.some.inj hc]
        decide

theorem valueItems_ne_nil (s : Text) : (valueItems s).1 ≠ [] := by
  fun_induction valueItems s <;> simp

/-- **Values are read again as they stood**, an open quote of them closed. -/
theorem valueItems_again (s : Text) :
    ∃ v, s = v ++ (valueItems s).2.1 ∧ ((valueItems s).2.2 = true → (valueItems s).2.1 = []) ∧
      (∀ item ∈ (valueItems s).1, '"' ∉ item) ∧
      ∀ after, Ends after → valueItems (v ++ closing (valueItems s).2.2 ++ after) =
        ((valueItems s).1, after, false) := by
  fun_induction valueItems s with
  | case1 s item rest h =>
    obtain ⟨v, hs, hrest, hq, hspells⟩ := itemAt_again endsItem (by decide) s
    rw [h] at hs hrest hq hspells
    refine ⟨v, hs, hrest, ?_, fun after hafter => ?_⟩
    · simpa using hq
    · exact valueItems_last (hspells after (stops_of_ends hafter)) (head?_ne_comma hafter)
  | case2 s item rest h ih =>
    obtain ⟨v, hs, -, hq, hspells⟩ := itemAt_again endsItem (by decide) s
    rw [h] at hs hq hspells
    obtain ⟨v', hs', hrest', hq', hagain⟩ := ih
    refine ⟨v ++ ',' :: v', ?_, hrest', ?_, fun after hafter => ?_⟩
    · rw [List.append_assoc, List.cons_append, ← hs']
      exact hs
    · exact List.forall_mem_cons.mpr ⟨hq, hq'⟩
    · have hnext := hspells (',' :: (v' ++ closing (valueItems rest).2.2 ++ after)) (by
        intro c hc
        rw [← Option.some.inj hc]
        decide)
      rw [show closing false = [] from rfl, List.append_nil] at hnext
      have heq : v ++ ',' :: v' ++ closing (valueItems rest).2.2 ++ after =
          v ++ ',' :: (v' ++ closing (valueItems rest).2.2 ++ after) := by simp
      rw [heq, valueItems_comma hnext, hagain after hafter]
  | case3 s item rest hcomma h =>
    obtain ⟨v, hs, hrest, hq, hspells⟩ := itemAt_again endsItem (by decide) s
    rw [h] at hs hrest hq hspells
    refine ⟨v, hs, hrest, ?_, fun after hafter => ?_⟩
    · simpa using hq
    · exact valueItems_last (hspells after (stops_of_ends hafter)) (head?_ne_comma hafter)

/-! ### Operators with values -/

theorem cmpAt_display (cmp : Cmp) {s : Text}
    (h : cmp = .lt ∨ cmp = .gt → s.head? ≠ some '=') :
    cmpAt (cmp.display ++ s) = some (cmp, s) := by
  cases cmp with
  | lt =>
    show cmpAt ('<' :: s) = _
    rw [cmpAt]
    rintro rest rfl
    exact h (.inl rfl) rfl
  | gt =>
    show cmpAt ('>' :: s) = _
    rw [cmpAt]
    rintro rest rfl
    exact h (.inr rfl) rfl
  | _ => rfl

theorem display_eq_cons (cmp : Cmp) : ∃ c t, cmp.display = c :: t ∧ c.isAlpha = false := by
  cases cmp <;> exact ⟨_, _, rfl, by decide⟩

/-- What the lexer makes of an operator's name, its comparison and its values. -/
def keyedLeaf (key : Key) (cmp : Cmp) (items : List Text) (raw : Text) : Expr :=
  match filterOf key cmp items with
  | some f => .filter f
  | none => .term raw

theorem not_special_of_isAlpha {c : Char} (h : c.isAlpha) :
    endsBare c = false ∧ c ≠ '-' ∧ c ≠ '#' ∧ c ≠ '@' ∧ c ≠ '!' ∧ c ≠ '(' ∧ c ≠ ')' ∧ c ≠ '"' ∧
      isSpace c = false := by
  have hne : ∀ d : Char, d.isAlpha = false → c ≠ d := by
    rintro d hd rfl
    rw [hd] at h
    exact Bool.false_ne_true h
  have hspace : isSpace c = false := isSpace_of_isAlphanum (by
    unfold Char.isAlphanum
    rw [h]
    rfl)
  have hl := hne '(' (by decide)
  have hr := hne ')' (by decide)
  have hq := hne '"' (by decide)
  refine ⟨endsBare_eq_false (by rw [hspace]; decide) hl hr hq, hne _ (by decide),
    hne _ (by decide), hne _ (by decide), hne _ (by decide), hl, hr, hq, hspace⟩

theorem lexOne_of_isAlpha {c : Char} (h : c.isAlpha) (i : ℕ) (s : Text) :
    lexOne i c s = lexWord i (c :: s) := by
  obtain ⟨-, h₁, h₂, h₃, h₄, h₅, h₆, h₇, h₈⟩ := not_special_of_isAlpha h
  unfold lexOne lexBare
  rw [if_neg (by rw [h₈]; decide), if_neg h₅, if_neg h₆, if_neg h₇, if_neg fun hc => h₁ hc.1,
    if_neg fun hc => hc.1.elim h₂ h₃, if_neg fun hc => h₄ hc.1]

theorem lexOne_keyed {c : Char} {t : Text} (halpha : ∀ d ∈ c :: t, d.isAlpha) {key : Key}
    (hkey : keyOf (c :: t) = some key) (cmp : Cmp) {v after : Text} {items : List Text}
    (heq : cmp = .lt ∨ cmp = .gt → (v ++ after).head? ≠ some '=')
    (hitems : valueItems (v ++ after) = (items, after, false))
    (i : ℕ) :
    (lexOne i c (t ++ cmp.display ++ v ++ after)).tok =
        some (.leaf (keyedLeaf key cmp items (c :: t ++ cmp.display ++ v))) ∧
      (lexOne i c (t ++ cmp.display ++ v ++ after)).rest = after := by
  obtain ⟨d, u, hd, hda⟩ := display_eq_cons cmp
  have hs : c :: (t ++ cmp.display ++ v ++ after) = (c :: t) ++ (cmp.display ++ (v ++ after)) := by
    simp
  have htake : (c :: (t ++ cmp.display ++ v ++ after)).takeWhile Char.isAlpha = c :: t := by
    have hnil : (cmp.display ++ (v ++ after)).takeWhile Char.isAlpha = [] := by
      rw [hd]
      exact List.takeWhile_cons_of_neg (by rw [hda]; decide)
    rw [hs, List.takeWhile_append_of_pos halpha, hnil, List.append_nil]
  have hdrop : (c :: (t ++ cmp.display ++ v ++ after)).dropWhile Char.isAlpha =
      cmp.display ++ (v ++ after) := by
    have hall : (cmp.display ++ (v ++ after)).dropWhile Char.isAlpha =
        cmp.display ++ (v ++ after) := by
      rw [hd]
      exact List.dropWhile_cons_of_neg (by rw [hda]; decide)
    rw [hs, List.dropWhile_append_of_pos halpha, hall]
  have hop : operatorAt (c :: (t ++ cmp.display ++ v ++ after)) = some (key, cmp, v ++ after) := by
    unfold operatorAt
    rw [htake, hdrop, if_neg (by simp), hkey, cmpAt_display cmp heq]
    rfl
  have hraw : rawTerm (c :: (t ++ cmp.display ++ v ++ after)) after false =
      .term (c :: t ++ cmp.display ++ v) := by
    have hlen : c :: (t ++ cmp.display ++ v ++ after) = (c :: t ++ cmp.display ++ v) ++ after := by
      simp
    unfold rawTerm
    rw [hlen, List.length_append, Nat.add_sub_cancel, List.take_left]
    simp
  rw [lexOne_of_isAlpha (halpha c List.mem_cons_self)]
  unfold lexWord keyedLeaf
  rw [hop]
  dsimp only
  rw [hitems, hraw]
  dsimp only
  cases filterOf key cmp items with
  | some f => exact ⟨rfl, rfl⟩
  | none => exact ⟨rfl, rfl⟩

/-! ### The operators that are read -/

/-- Names of an operator: some, none empty, and none with a quote in it. -/
def NamesWf (names : List Text) : Prop := names ≠ [] ∧ ∀ s ∈ names, s ≠ [] ∧ '"' ∉ s

/-- An operator that is read: values it takes, with a comparison it takes. -/
def Filter.Wf : Filter → Prop
  | .stream n => NamesWf n
  | .context n => NamesWf n
  | .place n => NamesWf n
  | .state v => v ≠ []
  | .kind v => v ≠ []
  | .is v => v ≠ []
  | .has v => v ≠ []
  | .priority cmp v => v ≠ [] ∧ (∀ p ∈ v, 1 ≤ p ∧ p ≤ 5) ∧ (cmp ≠ .eq → v.length = 1)
  | .date _ cmp span => span.Wf ∧ ∀ a b, span = .range a b → cmp = .eq

theorem names_eq_some {items n : List Text} (h : names items = some n) :
    n = items ∧ ∀ s ∈ n, s ≠ [] := by
  unfold names at h
  split at h
  next hall =>
    obtain rfl := Option.some.inj h
    exact ⟨rfl, hall⟩
  next => simp at h

theorem namesWf_of_names {items n : List Text} (hne : items ≠ []) (hq : ∀ s ∈ items, '"' ∉ s)
    (h : names items = some n) : NamesWf n := by
  obtain ⟨rfl, hall⟩ := names_eq_some h
  exact ⟨hne, fun s hs => ⟨hall s hs, hq s hs⟩⟩

theorem ne_nil_of_mapM {α β : Type} {f : α → Option β} {items : List α} {v : List β}
    (hne : items ≠ []) (h : items.mapM f = some v) : v ≠ [] := by
  rintro rfl
  exact hne (List.forall₂_nil_right_iff.mp (mapM_eq_some_iff.mp h))

theorem priorityOf_eq_some {s : Text} {n : ℕ} (h : priorityOf s = some n) : 1 ≤ n ∧ n ≤ 5 := by
  unfold priorityOf at h
  split at h
  next d =>
    split at h
    next hd =>
      obtain rfl := Option.some.inj h
      have h₁ : '1'.toNat ≤ d.toNat := hd.1
      have h₂ : d.toNat ≤ '5'.toNat := hd.2
      have e₀ : '0'.toNat = 48 := rfl
      have e₁ : '1'.toNat = 49 := rfl
      have e₅ : '5'.toNat = 53 := rfl
      omega
    next => simp at h
  next => simp at h

theorem priorities_of_forall₂ {items : List Text} {v : List ℕ}
    (h : List.Forall₂ (fun s p => priorityOf s = some p) items v) : ∀ p ∈ v, 1 ≤ p ∧ p ≤ 5 := by
  induction h with
  | nil => simp
  | cons hs _ ih => exact List.forall_mem_cons.mpr ⟨priorityOf_eq_some hs, ih⟩

theorem spanOf_eq_some {cmp : Cmp} {item : Text} {span : DateSpan}
    (h : spanOf cmp item = some span) : span.Wf ∧ ∀ a b, span = .range a b → cmp = .eq := by
  unfold spanOf at h
  split at h
  next a b _ =>
    split at h
    next hcmp =>
      obtain ⟨va, ha, h⟩ := Option.bind_eq_some_iff.mp h
      obtain ⟨vb, hb, rfl⟩ := Option.map_eq_some_iff.mp h
      exact ⟨⟨wf_of_parse ha, wf_of_parse hb⟩, fun _ _ _ => hcmp⟩
    next => simp at h
  next =>
    obtain ⟨v, hv, rfl⟩ := Option.map_eq_some_iff.mp h
    exact ⟨wf_of_parse hv, nofun⟩

theorem onlyEq_eq_some {cmp : Cmp} {f g : Filter}
    (h : (if cmp = .eq then some f else none) = some g) : f = g := by
  split at h
  · exact Option.some.inj h
  · simp at h

/-- **An operator that is read is one of those.** -/
theorem wf_of_filterOf {key : Key} {cmp : Cmp} {items : List Text} {f : Filter}
    (hne : items ≠ []) (hq : ∀ s ∈ items, '"' ∉ s) (h : filterOf key cmp items = some f) :
    f.Wf := by
  cases key with
  | stream | context | place =>
    obtain ⟨n, hn, h⟩ := Option.bind_eq_some_iff.mp h
    rw [← onlyEq_eq_some h]
    exact namesWf_of_names hne hq hn
  | state | kind | is | has =>
    obtain ⟨v, hv, h⟩ := Option.bind_eq_some_iff.mp h
    rw [← onlyEq_eq_some h]
    exact ne_nil_of_mapM hne hv
  | priority =>
    unfold filterOf at h
    dsimp only at h
    split at h
    · simp at h
    next hlen =>
      obtain ⟨v, hv, rfl⟩ := Option.map_eq_some_iff.mp h
      have hread := mapM_eq_some_iff.mp hv
      refine ⟨ne_nil_of_mapM hne hv, priorities_of_forall₂ hread, fun hcmp => ?_⟩
      · rw [← hread.length_eq]
        by_contra hone
        exact hlen ⟨hcmp, hone⟩
  | date field =>
    unfold filterOf at h
    dsimp only at h
    split at h
    next item =>
      obtain ⟨span, hspan, rfl⟩ := Option.map_eq_some_iff.mp h
      exact spanOf_eq_some hspan
    next => simp at h

/-! ### Operators are leaves -/

theorem leaf_keyed {word : Text} {key : Key} (hkey : keyOf word = some key) (hword : word ≠ [])
    (halpha : ∀ c ∈ word, c.isAlpha) (cmp : Cmp) (ps : List (Text × Text)) (hps : ps ≠ [])
    (hspells : ∀ p ∈ ps, Spells endsItem p.1 p.2)
    (heq : cmp ≠ .eq → ∃ c t, commas (ps.map Prod.fst) = c :: t ∧ c ≠ '=') {f : Filter}
    (hf : filterOf key cmp (ps.map Prod.snd) = some f)
    (hdisplay : f.display = word ++ cmp.display ++ commas (ps.map Prod.fst)) :
    Leaf (.filter f) where
  leaf := rfl
  shown := by
    cases word with
    | nil => exact absurd rfl hword
    | cons c t =>
      obtain ⟨-, -, -, -, -, -, hparen, -, hspace⟩ :=
        not_special_of_isAlpha (halpha c List.mem_cons_self)
      refine ⟨c, t ++ cmp.display ++ commas (ps.map Prod.fst), ?_, hspace, hparen, ?_⟩
      · exact hdisplay
      · intro i after hafter
        have hhead : cmp = .lt ∨ cmp = .gt →
            (commas (ps.map Prod.fst) ++ after).head? ≠ some '=' := by
          intro hcmp hc
          have hne : cmp ≠ .eq := by
            rintro rfl
            rcases hcmp with hcmp | hcmp <;> simp at hcmp
          obtain ⟨d, u, hd, hne⟩ := heq hne
          rw [hd] at hc
          exact hne (Option.some.inj hc)
        have hlex := lexOne_keyed halpha hkey cmp hhead (valueItems_commas hps hspells hafter) i
        unfold keyedLeaf at hlex
        rw [hf] at hlex
        exact hlex

theorem spells_listName {name : Text} (h : '"' ∉ name) : Spells endsItem (listName name) name := by
  unfold listName
  split
  next => exact spells_quoted endsItem h
  next hbare =>
    refine spells_bare fun c hc => ?_
    have hq : c ≠ '"' := fun heq => h (heq ▸ hc)
    have hno : (needsQuotes c || c == ',') = false := by
      by_contra hyes
      exact hbare (List.any_eq_true.mpr ⟨c, hc, Bool.not_eq_false _ ▸ hyes⟩)
    unfold needsQuotes at hno
    unfold endsItem endsBare
    simp at hno ⊢
    exact ⟨⟨⟨hno.1.1, hq, hno.1.2⟩, hno.2⟩, hq⟩

theorem spells_shorthandName {name : Text} (h : '"' ∉ name) :
    Spells endsBare (shorthandName name) name := by
  unfold shorthandName
  split
  next => exact spells_quoted endsBare h
  next hbare =>
    refine spells_bare fun c hc => ?_
    have hq : c ≠ '"' := fun heq => h (heq ▸ hc)
    have hno : needsQuotes c = false := by
      by_contra hyes
      exact hbare (List.any_eq_true.mpr ⟨c, hc, Bool.not_eq_false _ ▸ hyes⟩)
    unfold needsQuotes at hno
    unfold endsBare
    simp at hno ⊢
    exact ⟨⟨hno.1, hq, hno.2⟩, hq⟩

theorem endsItem_of_isAlphanum {c : Char} (h : c.isAlphanum) : endsItem c = false ∧ c ≠ '"' := by
  have hne : ∀ d : Char, d.isAlphanum = false → c ≠ d := by
    intro d hd heq
    rw [heq, hd] at h
    exact Bool.false_ne_true h
  have hspace := isSpace_of_isAlphanum h
  have hq := hne '"' (by decide)
  unfold endsItem
  rw [endsBare_eq_false (by rw [hspace]; decide) (hne '(' (by decide)) (hne ')' (by decide)) hq]
  exact ⟨by simpa using hne ',' (by decide), hq⟩

theorem spells_keyword {α : Type} [Keyword α] (v : α) :
    Spells endsItem (Keyword.keyword v) (Keyword.keyword v) := by
  refine spells_bare fun c hc => ?_
  have hword := (Keyword.wordChar_keyword v).2 c hc
  unfold wordChar at hword
  rcases Bool.or_eq_true _ _ |>.mp hword with halpha | hdash
  · refine endsItem_of_isAlphanum ?_
    unfold Char.isAlphanum
    rw [halpha]
    rfl
  · have hcases : c = '-' ∨ c = '_' := by simpa using hdash
    rcases hcases with rfl | rfl
    · decide
    · decide

theorem keywords_keyword {α : Type} [Keyword α] (v : List α) :
    keywords α (v.map Keyword.keyword) = some v := by
  unfold keywords
  rw [mapM_eq_some_iff, List.forall₂_map_left_iff, List.forall₂_same]
  exact fun w _ => Keyword.find_keyword w

theorem leaf_listed {α : Type} {word : Text} {key : Key} (hkey : keyOf word = some key)
    (hword : word ≠ []) (halpha : ∀ c ∈ word, c.isAlpha) {v : List α} (hv : v ≠ [])
    {shown named : α → Text} (hspells : ∀ a ∈ v, Spells endsItem (shown a) (named a)) {f : Filter}
    (hf : filterOf key .eq (v.map named) = some f)
    (hdisplay : f.display = word ++ ':' :: commas (v.map shown)) : Leaf (.filter f) := by
  refine leaf_keyed hkey hword halpha .eq (v.map fun a => (shown a, named a)) ?_ ?_
    (fun h => absurd rfl h) ?_ ?_
  · simpa using hv
  · intro p hp
    obtain ⟨a, ha, rfl⟩ := List.mem_map.mp hp
    exact hspells a ha
  · rw [List.map_map]
    exact hf
  · rw [List.map_map, hdisplay, List.append_assoc]
    rfl

theorem leaf_names {word : Text} {key : Key} (hkey : keyOf word = some key) (hword : word ≠ [])
    (halpha : ∀ c ∈ word, c.isAlpha) {n : List Text} (hn : NamesWf n) {f : Filter}
    (hf : filterOf key .eq n = some f)
    (hdisplay : f.display = word ++ ':' :: commas (n.map listName)) : Leaf (.filter f) :=
  leaf_listed hkey hword halpha hn.1 (fun s hs => spells_listName (hn.2 s hs).2)
    ((congrArg _ (List.map_id n)).trans hf) hdisplay

theorem leaf_keywords {α : Type} [Keyword α] {word : Text} {key : Key}
    (hkey : keyOf word = some key) (hword : word ≠ []) (halpha : ∀ c ∈ word, c.isAlpha)
    {v : List α} (hv : v ≠ []) {f : Filter} (hf : filterOf key .eq (v.map Keyword.keyword) = some f)
    (hdisplay : f.display = word ++ ':' :: commas (v.map Keyword.keyword)) : Leaf (.filter f) :=
  leaf_listed hkey hword halpha hv (fun w _ => spells_keyword w) hf hdisplay

theorem names_self {n : List Text} (hn : NamesWf n) : names n = some n := by
  unfold names
  rw [if_pos fun s hs => (hn.2 s hs).1]

theorem priority_cases {p : ℕ} (h : 1 ≤ p ∧ p ≤ 5) : p = 1 ∨ p = 2 ∨ p = 3 ∨ p = 4 ∨ p = 5 := by
  omega

theorem priorityOf_toDigits {p : ℕ} (h : 1 ≤ p ∧ p ≤ 5) :
    priorityOf (Nat.toDigits 10 p) = some p := by
  rcases priority_cases h with rfl | rfl | rfl | rfl | rfl <;> decide

theorem isAlphanum_of_isDigit {c : Char} (h : c.isDigit) : c.isAlphanum := by
  unfold Char.isAlphanum
  rw [h, Bool.or_true]

theorem leaf_priority {cmp : Cmp} {v : List ℕ} (hv : v ≠ []) (hp : ∀ p ∈ v, 1 ≤ p ∧ p ≤ 5)
    (hone : cmp ≠ .eq → v.length = 1)
    (hdisplay : (Filter.priority cmp v).display =
      "priority".toList ++ cmp.display ++ commas (v.map (Nat.toDigits 10))) :
    Leaf (.filter (.priority cmp v)) := by
  have hfst : (v.map fun p => (Nat.toDigits 10 p, Nat.toDigits 10 p)).map Prod.fst =
      v.map (Nat.toDigits 10) := by simp
  have hsnd : (v.map fun p => (Nat.toDigits 10 p, Nat.toDigits 10 p)).map Prod.snd =
      v.map (Nat.toDigits 10) := by simp
  have hkey : keyOf "priority".toList = some .priority := by decide
  refine leaf_keyed hkey (by decide) (forall_of_all (by decide)) cmp
    (v.map fun p => (Nat.toDigits 10 p, Nat.toDigits 10 p)) ?_ ?_ ?_ ?_ ?_
  · simpa using hv
  · intro q hq
    obtain ⟨p, -, rfl⟩ := List.mem_map.mp hq
    exact spells_bare fun c hc =>
      endsItem_of_isAlphanum (isAlphanum_of_isDigit (isDigit_of_mem_toDigits hc))
  · intro hcmp
    obtain ⟨p, rfl⟩ := List.length_eq_one_iff.mp (hone hcmp)
    rw [hfst]
    rcases priority_cases (hp p List.mem_cons_self) with rfl | rfl | rfl | rfl | rfl <;>
      exact ⟨_, _, rfl, by decide⟩
  · rw [hsnd]
    have hread : (v.map (Nat.toDigits 10)).mapM priorityOf = some v := by
      rw [mapM_eq_some_iff, List.forall₂_map_left_iff, List.forall₂_same]
      exact fun p hmem => priorityOf_toDigits (hp p hmem)
    have hlen : ¬ (cmp ≠ .eq ∧ (v.map (Nat.toDigits 10)).length ≠ 1) := by
      rintro ⟨hcmp, hlen⟩
      exact hlen ((List.length_map _).trans (hone hcmp))
    show (if cmp ≠ .eq ∧ (v.map (Nat.toDigits 10)).length ≠ 1 then none
      else ((v.map (Nat.toDigits 10)).mapM priorityOf).map fun v => Filter.priority cmp v) = _
    rw [if_neg hlen, hread]
    rfl
  · rw [hfst]
    exact hdisplay

theorem DateValue.display_ne_nil {v : DateValue} (h : v.Wf) : v.display ≠ [] := by
  intro hnil
  have := DateValue.parse_display h
  rw [hnil] at this
  exact absurd this (by rw [show DateValue.parse [] = none by decide]; simp)

theorem spanOf_display {cmp : Cmp} {span : DateSpan} (h : span.Wf)
    (hcmp : ∀ a b, span = .range a b → cmp = .eq) : spanOf cmp span.display = some span := by
  cases span with
  | one v =>
    show spanOf cmp v.display = _
    unfold spanOf
    rw [splitDots_eq_none (not_mem_display v)]
    dsimp only
    rw [DateValue.parse_display h]
    rfl
  | range a b =>
    show spanOf cmp (a.display ++ '.' :: '.' :: b.display) = _
    unfold spanOf
    rw [splitDots_append _ (not_mem_display a)]
    dsimp only
    rw [if_pos (hcmp a b rfl), DateValue.parse_display h.1, DateValue.parse_display h.2]
    rfl

theorem keyOf_field (field : DateField) : keyOf field.key = some (.date field) := by
  cases field <;> decide

theorem isAlpha_field (field : DateField) : field.key ≠ [] ∧ ∀ c ∈ field.key, c.isAlpha := by
  cases field <;> exact ⟨by decide, forall_of_all (by decide)⟩

theorem leaf_date (field : DateField) {cmp : Cmp} {span : DateSpan} (h : span.Wf)
    (hcmp : ∀ a b, span = .range a b → cmp = .eq) : Leaf (.filter (.date field cmp span)) := by
  have hcommas : commas ([(span.display, span.display)].map Prod.fst) = span.display := by
    simp [commas]
  refine leaf_keyed (keyOf_field field) (isAlpha_field field).1 (isAlpha_field field).2 cmp
    [(span.display, span.display)] (by simp) ?_ ?_ ?_ ?_
  · intro p hp
    rw [List.mem_singleton.mp hp]
    refine spells_bare fun c hc => ?_
    rcases span.display_chars c hc with hdate | rfl
    · unfold dateChar at hdate
      rcases Bool.or_eq_true _ _ |>.mp hdate with halnum | hsign
      · exact endsItem_of_isAlphanum halnum
      · have hcases : c = '-' ∨ c = '+' := by simpa using hsign
        rcases hcases with rfl | rfl
        · decide
        · decide
    · decide
  · intro hne
    rw [hcommas]
    cases span with
    | one v =>
      show ∃ c t, v.display = c :: t ∧ c ≠ '='
      obtain ⟨c, t, hct⟩ := List.exists_cons_of_ne_nil (DateValue.display_ne_nil h)
      refine ⟨c, t, hct, ?_⟩
      rintro rfl
      exact absurd (v.dateChar_display '=' (hct ▸ List.mem_cons_self)) (by decide)
    | range a b => exact absurd (hcmp a b rfl) hne
  · show (spanOf cmp span.display).map (fun span => Filter.date field cmp span) = _
    rw [spanOf_display h hcmp]
    rfl
  · rw [hcommas]
    rfl

/-! ### Shorthands -/

theorem lexOne_shorthand {c : Char} (hc : c = '#' ∨ c = '@') (i : ℕ) {s : Text}
    (hs : s.head?.any fun n => !endsBare n || n == '"') : lexOne i c s = lexName i c s := by
  have hspecial : isSpace c = false ∧ c ≠ '(' ∧ c ≠ ')' ∧ c ≠ '"' ∧ c ≠ '-' := by
    rcases hc with rfl | rfl
    · decide
    · decide
  obtain ⟨h₁, h₂, h₃, h₄, h₅⟩ := hspecial
  unfold lexOne lexBare
  rw [if_neg (by rw [h₁]; decide), if_neg h₂, if_neg h₃, if_neg h₄, if_neg fun h => h₅ h.1,
    if_pos ⟨hc, hs⟩]

theorem lexName_spells {c : Char} (i : ℕ) {spelled name after : Text} (hne : name ≠ [])
    (hspells : Spells endsBare spelled name) (hafter : Ends after) :
    (lexName i c (spelled ++ after)).tok =
        some (.leaf (.filter (if c = '#' then .stream [name] else .context [name]))) ∧
      (lexName i c (spelled ++ after)).rest = after := by
  have hitem := hspells after fun d hd =>
    ⟨endsBare_of_ends hafter d hd, (stops_of_ends hafter d hd).2⟩
  unfold lexName
  dsimp only
  rw [hitem]
  dsimp only
  rw [if_neg hne]
  exact ⟨rfl, rfl⟩

theorem head?_shorthandName {name : Text} (hne : name ≠ []) (after : Text) :
    (shorthandName name ++ after).head?.any fun n => !endsBare n || n == '"' := by
  unfold shorthandName
  split
  next => rfl
  next hbare =>
    obtain ⟨c, t, rfl⟩ := List.exists_cons_of_ne_nil hne
    have hno : needsQuotes c = false := by
      by_contra hyes
      exact hbare (List.any_eq_true.mpr ⟨c, List.mem_cons_self, Bool.not_eq_false _ ▸ hyes⟩)
    show (!endsBare c || c == '"') = true
    unfold needsQuotes at hno
    unfold endsBare
    simp at hno ⊢
    by_cases hq : c = '"'
    · exact .inr hq
    · exact .inl ⟨hno.1, hq, hno.2⟩

theorem lexOne_shorthandName {c : Char} (hc : c = '#' ∨ c = '@') {name : Text} (hne : name ≠ [])
    (hq : '"' ∉ name) (i : ℕ) {after : Text} (hafter : Ends after) :
    (lexOne i c (shorthandName name ++ after)).tok =
        some (.leaf (.filter (if c = '#' then .stream [name] else .context [name]))) ∧
      (lexOne i c (shorthandName name ++ after)).rest = after := by
  rw [lexOne_shorthand hc i (head?_shorthandName hne after)]
  exact lexName_spells i hne (spells_shorthandName hq) hafter

theorem lexOne_bang {d : Char} (hd : '1' ≤ d ∧ d ≤ '5') (i : ℕ) {after : Text}
    (hafter : Ends after) :
    lexOne i '!' (d :: after) =
      ⟨some (.leaf (.filter (.priority .eq [d.toNat - '0'.toNat]))), [], after⟩ := by
  have hends : after.head?.all endsBare := by
    cases after with
    | nil => rfl
    | cons c after => exact endsBare_of_ends hafter c rfl
  have hdigit : ('1' ≤ d && d ≤ '5') = true := by simp [hd]
  unfold lexOne lexBare
  rw [if_neg (by decide), if_neg (by decide), if_neg (by decide), if_neg (by decide),
    if_neg (by simp), if_neg (by simp), if_pos ⟨rfl, hdigit, hends⟩]
  rfl

theorem toDigits_priority {p : ℕ} (h : 1 ≤ p ∧ p ≤ 5) :
    ∃ d, Nat.toDigits 10 p = [d] ∧ ('1' ≤ d ∧ d ≤ '5') ∧ d.toNat - '0'.toNat = p := by
  rcases priority_cases h with rfl | rfl | rfl | rfl | rfl
  · exact ⟨'1', by decide⟩
  · exact ⟨'2', by decide⟩
  · exact ⟨'3', by decide⟩
  · exact ⟨'4', by decide⟩
  · exact ⟨'5', by decide⟩

/-- **An operator that is read is cut out again where it is shown.** -/
theorem leaf_filter {f : Filter} (hf : f.Wf) : Leaf (.filter f) := by
  cases f with
  | stream n =>
    cases n with
    | nil => exact absurd rfl hf.1
    | cons s n =>
      cases n with
      | nil =>
        obtain ⟨hne, hq⟩ := hf.2 s List.mem_cons_self
        exact ⟨rfl, '#', shorthandName s, rfl, by decide, by decide, fun i after hafter =>
          lexOne_shorthandName (.inl rfl) hne hq i hafter⟩
      | cons t n =>
        have hkey : keyOf "stream".toList = some .stream := by decide
        refine leaf_names hkey (by decide) (forall_of_all (by decide)) hf ?_ rfl
        show (names (s :: t :: n)).bind _ = _
        rw [names_self hf]
        rfl
  | context n =>
    cases n with
    | nil => exact absurd rfl hf.1
    | cons s n =>
      cases n with
      | nil =>
        obtain ⟨hne, hq⟩ := hf.2 s List.mem_cons_self
        exact ⟨rfl, '@', shorthandName s, rfl, by decide, by decide, fun i after hafter =>
          lexOne_shorthandName (.inr rfl) hne hq i hafter⟩
      | cons t n =>
        have hkey : keyOf "context".toList = some .context := by decide
        refine leaf_names hkey (by decide) (forall_of_all (by decide)) hf ?_ rfl
        show (names (s :: t :: n)).bind _ = _
        rw [names_self hf]
        rfl
  | place n =>
    have hkey : keyOf "place".toList = some .place := by decide
    refine leaf_names hkey (by decide) (forall_of_all (by decide)) hf ?_ rfl
    show (names n).bind _ = _
    rw [names_self hf]
    rfl
  | state v =>
    have hkey : keyOf "state".toList = some .state := by decide
    refine leaf_keywords hkey (by decide) (forall_of_all (by decide)) hf ?_ rfl
    show (keywords StateValue _).bind _ = _
    rw [keywords_keyword]
    rfl
  | kind v =>
    have hkey : keyOf "kind".toList = some .kind := by decide
    refine leaf_keywords hkey (by decide) (forall_of_all (by decide)) hf ?_ rfl
    show (keywords SearchKind _).bind _ = _
    rw [keywords_keyword]
    rfl
  | is v =>
    have hkey : keyOf "is".toList = some .is := by decide
    refine leaf_keywords hkey (by decide) (forall_of_all (by decide)) hf ?_ rfl
    show (keywords IsValue _).bind _ = _
    rw [keywords_keyword]
    rfl
  | has v =>
    have hkey : keyOf "has".toList = some .has := by decide
    refine leaf_keywords hkey (by decide) (forall_of_all (by decide)) hf ?_ rfl
    show (keywords HasValue _).bind _ = _
    rw [keywords_keyword]
    rfl
  | priority cmp v =>
    obtain ⟨hv, hp, hone⟩ := hf
    by_cases hshort : cmp = .eq ∧ ∃ p, v = [p]
    · obtain ⟨rfl, p, rfl⟩ := hshort
      refine ⟨rfl, '!', Nat.toDigits 10 p, rfl, by decide, by decide, fun i after hafter => ?_⟩
      obtain ⟨d, hdigits, hd, hdp⟩ := toDigits_priority (hp p List.mem_cons_self)
      rw [hdigits, List.singleton_append, lexOne_bang hd i hafter, hdp]
      exact ⟨rfl, rfl⟩
    · refine leaf_priority hv hp hone ?_
      cases cmp with
      | eq =>
        cases v with
        | nil => exact absurd rfl hv
        | cons p v =>
          cases v with
          | nil => exact absurd ⟨rfl, p, rfl⟩ hshort
          | cons q v => rfl
      | lt | le | gt | ge => rfl
  | date field cmp span => exact leaf_date field hf.1 hf.2

end Search

end Sunrise
