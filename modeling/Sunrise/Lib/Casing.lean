import Sunrise.Lib.Text

/-!
# Lower case

A text in lower case, character by character as the character database says, but for the capital
sigma: at the end of a word it becomes another letter than inside it.

* `Ucd`, `Ucd.ascii` — what a database says of characters, and one that knows ASCII only.
* `toLowercase` — a text in lower case.
* `toLowercase_spaced` — **words are lowered one by one.**
-/

namespace Casing

open Text (IsWord isSpace spaced)

def IsAscii (c : Char) : Prop := c.toNat < 128

instance : DecidablePred IsAscii := fun c => inferInstanceAs (Decidable (c.toNat < 128))

/-- What a character database says of case. -/
structure Ucd where
  lower : Char → Text
  cased : Char → Bool
  /-- It is passed over in the search for the end of a word. -/
  ignorable : Char → Bool
  lower_ascii : ∀ c, IsAscii c → lower c = [c.toLower]
  lower_ne_nil : ∀ c, lower c ≠ []
  lower_space : ∀ c, isSpace c = false → ∀ d ∈ lower c, isSpace d = false
  /-- The dotted capital I and the Kelvin sign are the ones that become letters of ASCII. -/
  lower_other : ∀ c, ¬IsAscii c → ∀ d ∈ lower c, IsAscii d → d = 'i' ∨ d = 'k'
  space : cased ' ' = false ∧ ignorable ' ' = false

theorem isSpace_toLower {c : Char} (hc : IsAscii c) (h : isSpace c = false) :
    isSpace c.toLower = false := by
  have hall : ∀ n < 128, isSpace (Char.ofNat n) = false →
      isSpace (Char.ofNat n).toLower = false := by decide
  rw [← Char.ofNat_toNat c] at h ⊢
  exact hall _ hc h

/-- A database that knows ASCII, and leaves other characters alone. -/
def Ucd.ascii : Ucd where
  lower := fun c => if IsAscii c then [c.toLower] else [c]
  cased := Char.isAlpha
  ignorable := fun _ => false
  lower_ascii := fun _ hc => if_pos hc
  lower_ne_nil := fun c => by split <;> exact List.cons_ne_nil _ _
  lower_space := fun c h d hd => by
    split at hd
    next hc => exact List.mem_singleton.mp hd ▸ isSpace_toLower hc h
    next => exact List.mem_singleton.mp hd ▸ h
  lower_other := fun c hc d hd hascii => by
    rw [if_neg hc] at hd
    exact absurd (List.mem_singleton.mp hd ▸ hascii) hc
  space := ⟨by decide, rfl⟩

section

variable (u : Ucd)

def casedNext (s : Text) : Bool := (s.dropWhile u.ignorable).head?.any u.cased

/-- The rest of a text in lower case, given what is before it, from its end on. -/
def lowerFrom (before : Text) : Text → Text
  | [] => []
  | c :: s =>
    (if c = 'Σ' then [if casedNext u before && !casedNext u s then 'ς' else 'σ'] else u.lower c) ++
      lowerFrom (c :: before) s

def toLowercase (s : Text) : Text := lowerFrom u [] s

end

variable {u : Ucd} {before s t : Text}

theorem casedNext_append_space (s t : Text) : casedNext u (s ++ ' ' :: t) = casedNext u s := by
  induction s with
  | nil =>
    rw [List.nil_append, casedNext, List.dropWhile_cons_of_neg (by rw [u.space.2]; decide)]
    exact u.space.1
  | cons c s ih =>
    unfold casedNext at ih ⊢
    rw [List.cons_append, List.dropWhile_cons, List.dropWhile_cons]
    split
    · exact ih
    · rfl

theorem lowerFrom_append_space (b b' t : Text) :
    lowerFrom u (b ++ ' ' :: b') t = lowerFrom u b t := by
  induction t generalizing b with
  | nil => rfl
  | cons c t ih => rw [lowerFrom, lowerFrom, casedNext_append_space, ← List.cons_append, ih]

theorem lowerFrom_space (before s t : Text) :
    lowerFrom u before (s ++ ' ' :: t) = lowerFrom u before s ++ ' ' :: toLowercase u t := by
  induction s generalizing before with
  | nil =>
    have hne : ¬ ' ' = 'Σ' := by decide
    rw [List.nil_append, lowerFrom.eq_2, if_neg hne, u.lower_ascii ' ' (by decide)]
    exact congrArg (' ' :: ·) (lowerFrom_append_space [] before t)
  | cons c s ih =>
    rw [List.cons_append, lowerFrom, casedNext_append_space, ih, lowerFrom, List.append_assoc]

theorem toLowercase_spaced (ws : List Text) :
    toLowercase u (spaced ws) = spaced (ws.map (toLowercase u)) := by
  induction ws with
  | nil => rfl
  | cons w ws ih =>
    cases ws with
    | nil => rw [Text.spaced_singleton, List.map_cons, List.map_nil, Text.spaced_singleton]
    | cons w' ws =>
      rw [Text.spaced_cons_cons, List.map_cons, List.map_cons, Text.spaced_cons_cons,
        ← List.map_cons, ← ih]
      exact lowerFrom_space [] w _

theorem isSpace_lowerFrom (h : ∀ c ∈ s, isSpace c = false) :
    ∀ d ∈ lowerFrom u before s, isSpace d = false := by
  induction s generalizing before with
  | nil => exact fun d hd => absurd hd List.not_mem_nil
  | cons c s ih =>
    obtain ⟨hc, hs⟩ := List.forall_mem_cons.mp h
    rw [lowerFrom, List.forall_mem_append]
    refine ⟨?_, ih hs⟩
    split
    · rw [List.forall_mem_singleton]
      split <;> decide
    · exact u.lower_space c hc

theorem isWord_toLowercase {w : Text} (h : IsWord w) : IsWord (toLowercase u w) := by
  refine ⟨?_, isSpace_lowerFrom h.2⟩
  obtain ⟨c, s, rfl⟩ := List.exists_cons_of_ne_nil h.1
  rw [toLowercase, lowerFrom]
  refine List.append_ne_nil_of_left_ne_nil ?_ _
  split
  · exact List.cons_ne_nil _ _
  · exact u.lower_ne_nil c

theorem toLowercase_cons {c : Char} (hc : IsAscii c) (s : Text) :
    ∃ t, toLowercase u (c :: s) = c.toLower :: t := by
  have hne : c ≠ 'Σ' := fun h => absurd (h ▸ hc) (by decide)
  rw [toLowercase, lowerFrom, if_neg hne, u.lower_ascii c hc]
  exact ⟨_, rfl⟩

theorem lowerFrom_ascii (h : ∀ c ∈ s, IsAscii c) : lowerFrom u before s = Text.lower s := by
  induction s generalizing before with
  | nil => rfl
  | cons c s ih =>
    obtain ⟨hc, hs⟩ := List.forall_mem_cons.mp h
    have hne : c ≠ 'Σ' := fun h => absurd (h ▸ hc) (by decide)
    rw [lowerFrom, if_neg hne, u.lower_ascii c hc, ih hs]
    rfl

theorem toLowercase_ascii (h : ∀ c ∈ s, IsAscii c) : toLowercase u s = Text.lower s :=
  lowerFrom_ascii h

theorem isAscii_of_lowerFrom (h : ∀ d ∈ lowerFrom u before s, IsAscii d ∧ d ≠ 'i' ∧ d ≠ 'k') :
    ∀ c ∈ s, IsAscii c := by
  induction s generalizing before with
  | nil => exact fun c hc => absurd hc List.not_mem_nil
  | cons c s ih =>
    rw [lowerFrom, List.forall_mem_append] at h
    refine List.forall_mem_cons.mpr ⟨?_, ih h.2⟩
    have hhead := h.1
    split at hhead
    · rw [List.forall_mem_singleton] at hhead
      split at hhead <;> exact absurd hhead.1 (by decide)
    · by_contra hc
      obtain ⟨d, hd⟩ := List.exists_mem_of_ne_nil _ (u.lower_ne_nil c)
      obtain ⟨hascii, hi, hk⟩ := hhead d hd
      exact (u.lower_other c hc d hd hascii).elim hi hk

theorem toLowercase_eq_lower (h : ∀ d ∈ toLowercase u s, IsAscii d ∧ d ≠ 'i' ∧ d ≠ 'k') :
    toLowercase u s = Text.lower s := toLowercase_ascii (isAscii_of_lowerFrom h)

end Casing
