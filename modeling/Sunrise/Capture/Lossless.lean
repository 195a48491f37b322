import Sunrise.Capture.Parse

/-!
# What capture loses

A line splits into the words of its title and annotations, and each annotation is in the draft,
unless a later one of its kind took its place. No other way to split the line helps: the words of a
date start with no sigil, and the longest date is taken, so that any other split keeps more words.

* `parse_lossless_iff` — **nothing is lost exactly if annotations of one kind agree.**
-/

namespace Sunrise

namespace Capture

open Numeral (unsigned)
open Text (IsWord spaced trim words)

variable {E : Type}

/-! ### Annotations -/

/-- An annotation by its words alone. -/
inductive Reads (env : Env E) : List Text → Turn E env.When → Prop
  | stream {body : Text} {id : E} : body ≠ [] →
    resolveNamed env body env.streams .stream = .ok id → Reads env ['#' :: body] (.stream id)
  | context {body : Text} {id : E} : body ≠ [] →
    resolveNamed env body env.contexts .context = .ok id → Reads env ['@' :: body] (.context id)
  | priority {body : Text} {p : ℕ} : body ≠ [] → unsigned 256 body = some p → 1 ≤ p → p ≤ 5 →
    Reads env ['!' :: body] (.priority p)
  | estimate {body : Text} {secs : ℕ} : body ≠ [] → parseDurationS env body = some secs →
    Reads env ['~' :: body] (.estimate secs)
  | planned {head : Text} {tail : List Text} {t : env.When} : tail.length < maxDateWords →
    env.when (spaced (head :: tail)) = some t → Reads env (('^' :: head) :: tail) (.planned t)
  | target {w body : Text} {t : env.When} : stripTarget w = some body → env.when body = some t →
    Reads env [w] (.target t)
  | due {w body : Text} {t : env.When} : stripDue w = some body → env.when body = some t →
    Reads env [w] (.due t)

/-- A line as the words it keeps and its annotations. -/
inductive Splits (env : Env E) : List Text → List Text → List (Turn E env.When) → Prop
  | nil : Splits env [] [] []
  | kept {ws ks : List Text} {as : List (Turn E env.When)} (w : Text) : Splits env ws ks as →
    Splits env (w :: ws) (w :: ks) as
  | said {run ws ks : List Text} {a : Turn E env.When} {as : List (Turn E env.When)} :
    Reads env run a → Splits env ws ks as → Splits env (run ++ ws) ks (a :: as)

section

variable (env : Env E)

/-- The words that the parser keeps of a line of which so many are taken, and the annotations. -/
def walk : ℕ → List Text → List Text × List (Turn E env.When)
  | _, [] => ([], [])
  | taken + 1, _ :: rest => walk taken rest
  | 0, w :: rest =>
    match turn env w rest with
    | (n, .kept _) => (w :: (walk (n - 1) rest).1, (walk (n - 1) rest).2)
    | (n, t) => ((walk (n - 1) rest).1, t :: (walk (n - 1) rest).2)

/-- The annotations of a line, from left to right, each date as long as it is read. -/
def annotations (input : Text) : List (Turn E env.When) := (walk env 0 (words input)).2

end

/-- A draft says what an annotation reads as. -/
def TaskDraft.Holds {T : Type} (d : TaskDraft E T) : Turn E T → Prop
  | .stream id => d.streamId = some id
  | .context id => id ∈ d.contexts
  | .priority p => d.priority = some p
  | .estimate secs => d.estimatedDurationS = some secs
  | .planned t => d.plannedAt = some t
  | .target t => d.targetAt = some t
  | .due t => d.hardDueAt = some t
  | .kept _ => True

/-- A line splits into words that are the title, in order, and annotations that are in the draft,
and what was not applied is in the title. -/
def Lossless (env : Env E) (input : Text) : Prop :=
  (∃ ks as, Splits env (words input) ks as ∧ (parse env input).1.title = spaced ks ∧
    ∀ a ∈ as, (parse env input).1.Holds a) ∧
  ∀ e ∈ (parse env input).2, e.text <:+: (parse env input).1.title

/-- Annotations of one kind, but for contexts, read as the same. -/
def Turn.Agree {T : Type} : Turn E T → Turn E T → Prop
  | .stream i, .stream j => i = j
  | .priority p, .priority q => p = q
  | .estimate s, .estimate r => s = r
  | .planned t, .planned t' | .target t, .target t' | .due t, .due t' => t = t'
  | _, _ => True

/-! ### The draft -/

section

variable {T : Type} {d : TaskDraft E T} {a b : Turn E T} {as : List (Turn E T)}

theorem TaskDraft.Holds.agree (ha : d.Holds a) (hb : d.Holds b) : a.Agree b := by
  cases a <;> cases b <;> first | trivial | exact Option.some.inj (ha.symm.trans hb)

theorem TaskDraft.holds_take (d : TaskDraft E T) (a : Turn E T) : (d.take a).Holds a := by
  cases a <;> first | rfl | trivial | exact List.mem_concat_self

theorem TaskDraft.Holds.take (h : d.Holds a) (hagree : a.Agree b) : (d.take b).Holds a := by
  cases a <;> cases b <;> first
    | exact h
    | exact List.mem_append_left _ h
    | exact congrArg some (Eq.symm hagree)

theorem TaskDraft.Holds.foldl (h : d.Holds a) (hagree : ∀ b ∈ as, a.Agree b) :
    (as.foldl TaskDraft.take d).Holds a := by
  induction as generalizing d with
  | nil => exact h
  | cons b as ih =>
    obtain ⟨hb, has⟩ := List.forall_mem_cons.mp hagree
    exact ih (h.take hb) has

theorem holds_foldl (h : as.Pairwise Turn.Agree) :
    ∀ a ∈ as, (as.foldl TaskDraft.take d).Holds a := by
  induction as generalizing d with
  | nil => exact nofun
  | cons b as ih =>
    obtain ⟨hb, has⟩ := List.pairwise_cons.mp h
    exact List.forall_mem_cons.mpr ⟨(d.holds_take b).foldl hb, ih has⟩

theorem holds_title {title : Text} (h : d.Holds a) :
    ({ d with title } : TaskDraft E T).Holds a := by
  cases a <;> exact h

end

/-! ### One turn -/

section

variable {env : Env E} {w head : Text} {rest tail ws ks : List Text} {a : Turn E env.When}

theorem when_trim (s : Text) : (if trim s = [] then none else env.when (trim s)) = env.when s := by
  unfold Env.when parseWhenTime
  rw [Text.trim_trim]
  split
  next h => rw [h]; rfl
  next => rfl

theorem takeDateWithin_spec (env : Env E) (head : Text) (rest : List Text) (n : ℕ) :
    (∃ m t, m < n ∧ takeDateWithin env head rest n = (m + 1, some t) ∧
      env.when (spaced (head :: rest.take m)) = some t ∧
      ∀ k, m < k → k < n → env.when (spaced (head :: rest.take k)) = none) ∨
    takeDateWithin env head rest n = (1, none) ∧
      ∀ k < n, env.when (spaced (head :: rest.take k)) = none := by
  induction n with
  | zero => exact .inr ⟨rfl, nofun⟩
  | succ n ih =>
    rw [takeDateWithin, when_trim]
    cases hread : env.when (spaced (head :: rest.take n)) with
    | some t => exact .inl ⟨n, t, Nat.lt_succ_self n, rfl, hread, fun k hk hk' => by omega⟩
    | none =>
      have hnone {k : ℕ} (hk : k < n + 1)
          (h : k < n → env.when (spaced (head :: rest.take k)) = none) :
          env.when (spaced (head :: rest.take k)) = none :=
        (Nat.lt_succ_iff_lt_or_eq.mp hk).elim h fun heq => heq ▸ hread
      obtain ⟨m, t, hm, htake, ht, hlong⟩ | ⟨htake, hall⟩ := ih
      · exact .inl ⟨m, t, hm.trans (Nat.lt_succ_self n), htake, ht,
          fun k hk hk' => hnone hk' (hlong k hk)⟩
      · exact .inr ⟨htake, fun k hk => hnone hk (hall k)⟩

theorem text_of_resolveNamed {typed : Text} {candidates : List (NamedRef E)} {kind : NameKind}
    {e : Unresolved} (h : resolveNamed env typed candidates kind = .error e) : e.text = typed := by
  unfold resolveNamed at h
  dsimp only at h
  split at h
  · exact absurd h nofun
  · split at h
    · exact absurd h nofun
    · rw [← Except.error.inj h]
      cases kind <;> rfl
    · rw [← Except.error.inj h]
      cases kind <;> rfl

theorem splitTag_eq {c : Char} {body : Text} (h : splitTag w = (some c, body)) : w = c :: body := by
  cases w with
  | nil => cases h
  | cons d w =>
    rw [splitTag] at h
    split at h
    · obtain ⟨hd, rfl⟩ := Prod.mk.inj h
      rw [Option.some.inj hd]
    · cases h

theorem stripStarred_eq {name body : Text} (h : stripStarred name w = some body) :
    w = name ++ (body ++ ['*']) := by
  obtain ⟨r, hr, hbody⟩ := Option.bind_eq_some_iff.mp (Option.filter_eq_some_iff.mp h).1
  rw [Text.stripPrefix_eq_some.mp hr, Text.stripSuffix_eq_some.mp hbody]

/-- What is not read as an annotation is one word, with what was typed in it, and what is read is
read by its words alone. -/
theorem turn_spec (env : Env E) (w : Text) (rest : List Text) :
    (∃ entry, turn env w rest = (1, .kept entry) ∧ ∀ e ∈ entry, e.text <:+: w) ∨
      ∃ m t, turn env w rest = (m + 1, t) ∧ m ≤ rest.length ∧ Reads env (w :: rest.take m) t := by
  have hbody (c : Char) (body : Text) : body <:+: c :: body := (List.suffix_cons c body).isInfix
  have hstarred {name body : Text} (h : stripStarred name w = some body) : body <:+: w :=
    ⟨name, ['*'], by rw [stripStarred_eq h, List.append_assoc]⟩
  have hkept {e : Unresolved} (h : e.text <:+: w) : ∀ e' ∈ some e, e'.text <:+: w :=
    fun e' he => Option.some.inj he ▸ h
  unfold turn
  rcases hsplit : splitTag w with ⟨tag, body⟩
  dsimp only
  split
  next h =>
    obtain ⟨rfl, hb⟩ := h
    obtain rfl := splitTag_eq hsplit
    cases hres : resolveNamed env body env.streams .stream with
    | ok id => exact .inr ⟨0, _, rfl, Nat.zero_le _, .stream hb hres⟩
    | error e =>
      exact .inl ⟨_, rfl, hkept (text_of_resolveNamed hres ▸ hbody _ _)⟩
  next =>
  split
  next h =>
    obtain ⟨rfl, hb⟩ := h
    obtain rfl := splitTag_eq hsplit
    cases hres : resolveNamed env body env.contexts .context with
    | ok id => exact .inr ⟨0, _, rfl, Nat.zero_le _, .context hb hres⟩
    | error e =>
      exact .inl ⟨_, rfl, hkept (text_of_resolveNamed hres ▸ hbody _ _)⟩
  next =>
  split
  next h =>
    obtain ⟨rfl, hb⟩ := h
    obtain rfl := splitTag_eq hsplit
    cases hp : (unsigned 256 body).filter fun p => 1 ≤ p ∧ p ≤ 5 with
    | some p =>
      obtain ⟨hnum, hrange⟩ := Option.filter_eq_some_iff.mp hp
      obtain ⟨hlo, hhi⟩ := of_decide_eq_true hrange
      exact .inr ⟨0, _, rfl, Nat.zero_le _, .priority hb hnum hlo hhi⟩
    | none =>
      exact .inl ⟨_, rfl, hkept (hbody _ _)⟩
  next =>
  split
  next h =>
    obtain ⟨rfl, hb⟩ := h
    obtain rfl := splitTag_eq hsplit
    cases hsecs : parseDurationS env body with
    | some secs => exact .inr ⟨0, _, rfl, Nat.zero_le _, .estimate hb hsecs⟩
    | none =>
      exact .inl ⟨_, rfl, hkept (hbody _ _)⟩
  next =>
  split
  next h =>
    subst h
    obtain rfl := splitTag_eq hsplit
    rw [takeDate]
    obtain ⟨m, t, hm, htake, ht, -⟩ | ⟨htake, -⟩ :=
      takeDateWithin_spec env body rest (min maxDateWords (rest.length + 1))
    · rw [htake]
      have hlen : (rest.take m).length < maxDateWords := by
        rw [List.length_take]
        omega
      exact .inr ⟨m, _, rfl, by omega, .planned hlen ht⟩
    · rw [htake]
      exact .inl ⟨_, rfl, hkept ((Text.spaced_singleton _).symm ▸ List.infix_rfl)⟩
  next =>
  split
  next body hdue =>
    cases hread : env.when body with
    | some t => exact .inr ⟨0, _, rfl, Nat.zero_le _, .due hdue hread⟩
    | none =>
      exact .inl ⟨_, rfl, hkept (hstarred hdue)⟩
  next =>
  split
  next body htarget =>
    cases hread : env.when body with
    | some t => exact .inr ⟨0, _, rfl, Nat.zero_le _, .target htarget hread⟩
    | none =>
      exact .inl ⟨_, rfl, hkept (hstarred htarget)⟩
  next => exact .inl ⟨none, rfl, nofun⟩

theorem turn_of_reads (h : Reads env (w :: tail) a) (hpre : tail <+: rest) :
    ∃ m t, turn env w rest = (m + 1, t) ∧ (∀ e, t ≠ .kept e) ∧ tail.length ≤ m ∧
      (tail.length = m → t = a) := by
  have hpre' : tail = rest.take tail.length := List.prefix_iff_eq_take.mp hpre
  cases h with
  | stream hb hres =>
    refine ⟨0, .stream _, ?_, (fun _ h => by cases h), le_rfl, fun _ => rfl⟩
    simp [turn, splitTag, hb, hres]
  | context hb hres =>
    refine ⟨0, .context _, ?_, (fun _ h => by cases h), le_rfl, fun _ => rfl⟩
    simp [turn, splitTag, hb, hres]
  | priority hb hp hlo hhi =>
    refine ⟨0, .priority _, ?_, (fun _ h => by cases h), le_rfl, fun _ => rfl⟩
    simp [turn, splitTag, hb, hp, hlo, hhi, Option.filter_some]
  | estimate hb hsecs =>
    refine ⟨0, .estimate _, ?_, (fun _ h => by cases h), le_rfl, fun _ => rfl⟩
    simp [turn, splitTag, hb, hsecs]
  | @planned head _ t hlen ht =>
    have hmax : tail.length < min maxDateWords (rest.length + 1) :=
      lt_min hlen (Nat.lt_succ_of_le hpre.length_le)
    obtain ⟨m, t', -, htake, ht', hlong⟩ | ⟨-, hnone⟩ :=
      takeDateWithin_spec env head rest (min maxDateWords (rest.length + 1))
    · refine ⟨m, .planned t', by simp [turn, splitTag, takeDate, htake],
        (fun _ h => by cases h), ?_, ?_⟩
      · by_contra hlt
        have hnone := hlong _ (not_le.mp hlt) hmax
        rw [← hpre', ht] at hnone
        cases hnone
      · rintro rfl
        rw [← hpre', ht] at ht'
        rw [Option.some.inj ht']
    · have hnone := hnone _ hmax
      rw [← hpre', ht] at hnone
      cases hnone
  | target hw ht =>
    refine ⟨0, .target _, ?_, (fun _ h => by cases h), le_rfl, fun _ => rfl⟩
    have hdue : stripDue w = none := by
      rw [stripStarred_eq hw]
      rfl
    have htag : splitTag w = (none, w) := by
      rw [stripStarred_eq hw]
      rfl
    simp [turn, htag, hdue, hw, ht]
  | due hw ht =>
    refine ⟨0, .due _, ?_, (fun _ h => by cases h), le_rfl, fun _ => rfl⟩
    have htag : splitTag w = (none, w) := by
      rw [stripStarred_eq hw]
      rfl
    simp [turn, htag, hw, ht]

/-! ### Ways to split a line -/

theorem not_plain_of_reads (h : Reads env (w :: tail) a) : ¬Plain w := by
  intro hplain
  cases h with
  | target hw ht =>
    rw [stripStarred_eq hw] at hplain
    exact hplain '*' rfl (by decide)
  | due hw ht =>
    rw [stripStarred_eq hw] at hplain
    exact hplain '*' rfl (by decide)
  | _ => exact hplain _ rfl (by decide)

theorem plain_of_when (hL : ReadsDates env.L) {t : env.When}
    (h : env.when (spaced (head :: tail)) = some t) (hhead : head = [] ∨ IsWord head)
    (htail : ∀ v ∈ tail, IsWord v) : ∀ v ∈ tail, Plain v := by
  rcases hhead with rfl | hhead
  · cases tail with
    | nil => exact nofun
    | cons v vs =>
      refine @plain_of_parseWhenTime env.L env.u env.now env.tz (v :: vs) hL htail t ?_
      rw [← h, ← Env.when, ← when_trim, ← when_trim (spaced ([] :: v :: vs))]
      rfl
  · have hall : ∀ v ∈ head :: tail, IsWord v := List.forall_mem_cons.mpr ⟨hhead, htail⟩
    exact (List.forall_mem_cons.mp (plain_of_parseWhenTime hL hall h)).2

theorem plain_of_reads (hL : ReadsDates env.L) (h : Reads env (w :: tail) a)
    (hws : ∀ v ∈ w :: tail, IsWord v) : ∀ v ∈ tail, Plain v := by
  cases h with
  | @planned head _ t hlen ht =>
    obtain ⟨hw, htail⟩ := List.forall_mem_cons.mp hws
    refine plain_of_when hL ht ?_ htail
    by_cases hnil : head = []
    · exact .inl hnil
    · exact .inr ⟨hnil, fun c hc => hw.2 c (List.mem_cons_of_mem _ hc)⟩
  | _ => exact nofun

theorem walk_kept {entry : Option Unresolved} (h : turn env w rest = (1, .kept entry)) :
    walk env 0 (w :: rest) = (w :: (walk env 0 rest).1, (walk env 0 rest).2) := by
  rw [walk, h]

theorem walk_said {m : ℕ} {t : Turn E env.When} (h : turn env w rest = (m + 1, t))
    (hsaid : ∀ e, t ≠ .kept e) :
    walk env 0 (w :: rest) = ((walk env m rest).1, t :: (walk env m rest).2) := by
  rw [walk, h]
  cases t with
  | kept e => exact absurd rfl (hsaid e)
  | _ => rfl

theorem Reads.said (h : Reads env ws a) : ∀ e, a ≠ .kept e := by
  rintro e rfl
  cases h

theorem walk_append (l ws : List Text) (n : ℕ) :
    walk env (l.length + n) (l ++ ws) = walk env n ws := by
  induction l with
  | nil => rw [List.length_nil, Nat.zero_add, List.nil_append]
  | cons w l ih =>
    rw [List.length_cons, Nat.add_right_comm, List.cons_append, walk, ih]

theorem splits_walk {taken : ℕ} (h : taken ≤ ws.length) :
    Splits env (ws.drop taken) (walk env taken ws).1 (walk env taken ws).2 := by
  induction ws generalizing taken with
  | nil =>
    rw [Nat.le_zero.mp h]
    exact .nil
  | cons w rest ih =>
    cases taken with
    | succ taken => exact ih (Nat.le_of_succ_le_succ h)
    | zero =>
      obtain ⟨entry, hturn, -⟩ | ⟨m, t, hturn, hm, hread⟩ := turn_spec env w rest
      · rw [walk_kept hturn]
        exact .kept w (ih (Nat.zero_le _))
      · have hsplit := Splits.said hread (ih hm)
        rw [List.cons_append, List.take_append_drop] at hsplit
        rwa [walk_said hturn hread.said]

theorem Splits.walk_le (hL : ReadsDates env.L) {as : List (Turn E env.When)}
    (h : Splits env ws ks as) (hws : ∀ w ∈ ws, IsWord w) {taken : ℕ} (hle : taken ≤ ws.length)
    (hplain : ∀ w ∈ ws.take taken, Plain w) :
    (walk env taken ws).1.length + taken ≤ ks.length ∧
      (taken = 0 → ks.length = (walk env 0 ws).1.length → as = (walk env 0 ws).2) := by
  induction h generalizing taken with
  | nil =>
    rw [Nat.le_zero.mp hle]
    exact ⟨le_rfl, fun _ _ => rfl⟩
  | @kept ws ks as w h ih =>
    obtain ⟨hw, hws⟩ := List.forall_mem_cons.mp hws
    cases taken with
    | succ taken =>
      obtain ⟨-, hplain⟩ := List.forall_mem_cons.mp hplain
      exact ⟨Nat.succ_le_succ (ih hws (Nat.le_of_succ_le_succ hle) hplain).1, nofun⟩
    | zero =>
      obtain ⟨entry, hturn, -⟩ | ⟨m, t, hturn, hm, hread⟩ := turn_spec env w ws
      · obtain ⟨hlen, heq⟩ := ih hws (Nat.zero_le _) nofun
        rw [walk_kept hturn]
        exact ⟨Nat.succ_le_succ hlen, fun _ h => heq rfl (Nat.succ.inj h)⟩
      · -- what the parser takes for an annotation with the words after it is kept
        have hwords : ∀ v ∈ w :: ws.take m, IsWord v :=
          List.forall_mem_cons.mpr ⟨hw, fun v hv => hws v (List.mem_of_mem_take hv)⟩
        obtain ⟨hlen, -⟩ := ih hws hm (plain_of_reads hL hread hwords)
        rw [walk_said hturn hread.said, List.length_cons]
        dsimp only
        exact ⟨by omega, fun _ h => by omega⟩
  | @said run ws ks a as hrun h ih =>
    obtain _ | ⟨w, tail⟩ := run
    · cases hrun
    rw [List.cons_append] at hws hle hplain ⊢
    obtain ⟨hw, hrest⟩ := List.forall_mem_cons.mp hws
    obtain ⟨htail, hws⟩ := List.forall_mem_append.mp hrest
    cases taken with
    | succ taken => exact absurd (hplain w List.mem_cons_self) (not_plain_of_reads hrun)
    | zero =>
      obtain ⟨m, t, hturn, hsaid, hm, heq⟩ := turn_of_reads hrun (List.prefix_append tail ws)
      obtain ⟨n, rfl⟩ := Nat.exists_eq_add_of_le hm
      obtain ⟨entry, hkept, -⟩ | ⟨k, t', hturn', hk, hread⟩ := turn_spec env w (tail ++ ws)
      · rw [hturn] at hkept
        exact absurd (Prod.mk.inj hkept).2 (hsaid entry)
      rw [hturn, Prod.mk.injEq, Nat.add_right_cancel_iff] at hturn'
      obtain ⟨rfl, rfl⟩ := hturn'
      rw [List.take_length_add_append] at hread
      have hwords : ∀ v ∈ w :: (tail ++ ws.take n), IsWord v := List.forall_mem_cons.mpr
        ⟨hw, List.forall_mem_append.mpr ⟨htail, fun v hv => hws v (List.mem_of_mem_take hv)⟩⟩
      have hplain := (List.forall_mem_append.mp (plain_of_reads hL hread hwords)).2
      rw [List.length_append] at hk
      obtain ⟨hlen, hsame⟩ := ih hws (Nat.le_of_add_le_add_left hk) hplain
      rw [walk_said hturn hsaid, walk_append]
      dsimp only
      refine ⟨by omega, fun _ hlength => ?_⟩
      obtain rfl : n = 0 := by omega
      rw [heq rfl, hsame rfl hlength]

/-! ### The main result -/

theorem parseFrom_spec (st : State E env.When) (taken : ℕ) (ws : List Text) :
    (parseFrom env st taken ws).draft = (walk env taken ws).2.foldl TaskDraft.take st.draft ∧
      (parseFrom env st taken ws).titleWords = st.titleWords ++ (walk env taken ws).1 ∧
      ∀ e ∈ (parseFrom env st taken ws).unresolved,
        e ∈ st.unresolved ∨ ∃ w ∈ (walk env taken ws).1, e.text <:+: w := by
  induction ws generalizing st taken with
  | nil => exact ⟨rfl, (List.append_nil _).symm, fun e he => .inl he⟩
  | cons w rest ih =>
    cases taken with
    | succ taken => exact ih st taken
    | zero =>
      obtain ⟨entry, hturn, htext⟩ | ⟨m, t, hturn, -, hread⟩ := turn_spec env w rest
      · rw [parseFrom, hturn, walk_kept hturn]
        obtain ⟨hdraft, htitle, hentries⟩ := ih ⟨st.draft, st.unresolved ++ entry.toList,
          st.titleWords ++ [w]⟩ 0
        refine ⟨hdraft, htitle.trans (List.append_assoc ..), fun e he => ?_⟩
        obtain he | ⟨v, hv, he⟩ := hentries e he
        · obtain he | he := List.mem_append.mp he
          · exact .inl he
          · exact .inr ⟨w, List.mem_cons_self, htext e (Option.mem_toList.mp he)⟩
        · exact .inr ⟨v, List.mem_cons_of_mem w hv, he⟩
      · have htake : st.take ((w :: rest).take (m + 1)) t =
            { st with draft := st.draft.take t } := by
          cases t with
          | kept e => exact absurd rfl (hread.said e)
          | _ => rfl
        rw [parseFrom, hturn, walk_said hturn hread.said]
        dsimp only
        rw [htake]
        exact ih { st with draft := st.draft.take t } m

theorem Splits.mem {as : List (Turn E env.When)} (h : Splits env ws ks as) : ∀ k ∈ ks, k ∈ ws := by
  induction h with
  | nil => exact nofun
  | kept w h ih =>
    refine List.forall_mem_cons.mpr ⟨List.mem_cons_self, fun k hk => ?_⟩
    exact List.mem_cons_of_mem w (ih k hk)
  | said hrun h ih => exact fun k hk => List.mem_append_right _ (ih k hk)

theorem infix_spaced (h : w ∈ ws) : w <:+: spaced ws := by
  obtain ⟨l, r, rfl⟩ := List.append_of_mem h
  induction l with
  | nil =>
    cases r with
    | nil => exact (Text.spaced_singleton w).symm ▸ List.infix_rfl
    | cons v r => exact Text.spaced_cons_cons w v r ▸ (List.prefix_append w _).isInfix
  | cons u l ih =>
    obtain ⟨v, ws, hws⟩ := List.exists_cons_of_ne_nil (List.append_ne_nil_of_right_ne_nil l
      (List.cons_ne_nil w r))
    rw [List.cons_append, hws, Text.spaced_cons_cons, ← hws]
    have hmem : w ∈ l ++ w :: r := List.mem_append_right l List.mem_cons_self
    exact (ih hmem).trans ((List.suffix_cons ' ' _).trans (List.suffix_append u _)).isInfix

variable {input : Text}

theorem Lossless.agree (hL : ReadsDates env.L) (h : Lossless env input) :
    (annotations env input).Pairwise Turn.Agree := by
  obtain ⟨⟨ks, as, hsplit, htitle, hholds⟩, -⟩ := h
  have hws : ∀ w ∈ words input, IsWord w := fun w => Text.isWord_of_mem_words
  have hwalk := @splits_walk _ env (words input) 0 (Nat.zero_le _)
  have htitle' : (parse env input).1.title = spaced (walk env 0 (words input)).1 :=
    congrArg spaced (@parseFrom_spec _ env ⟨.default, [], []⟩ 0 (words input)).2.1
  have hkept : (walk env 0 (words input)).1 = ks := by
    rw [← Text.words_spaced_self fun k hk => hws k (hsplit.mem k hk), ← htitle, htitle',
      Text.words_spaced_self fun k hk => hws k (hwalk.mem k hk)]
  have hsame := (hsplit.walk_le hL hws (Nat.zero_le _) nofun).2 rfl (congrArg _ hkept.symm)
  rw [annotations, ← hsame]
  exact List.pairwise_of_forall_mem_list fun a ha b hb => (hholds a ha).agree (hholds b hb)

theorem lossless_of_agree (h : (annotations env input).Pairwise Turn.Agree) :
    Lossless env input := by
  obtain ⟨hdraft, htitle, hentries⟩ :=
    @parseFrom_spec _ env ⟨.default, [], []⟩ 0 (words input)
  rw [List.nil_append] at htitle
  refine ⟨⟨_, _, splits_walk (Nat.zero_le _), congrArg spaced htitle, fun a ha => ?_⟩,
    fun e he => ?_⟩
  · refine holds_title ?_
    rw [hdraft]
    exact holds_foldl h a ha
  · obtain he | ⟨w, hw, he⟩ := hentries e he
    · exact absurd he List.not_mem_nil
    · rw [← htitle] at hw
      exact he.trans (infix_spaced hw)

end

/-- **Nothing of a line is lost exactly if annotations of one kind agree**, contexts aside: then the
line splits into words that are kept in the title and annotations that are in the draft. What was
not applied is in the title. -/
theorem parse_lossless_iff (env : Env E) (hL : ReadsDates env.L) (input : Text) :
    Lossless env input ↔ (annotations env input).Pairwise Turn.Agree :=
  ⟨Lossless.agree hL, lossless_of_agree⟩

/-- A library that knows UTC, and the text of the day after the epoch. -/
def datedLibrary : Routine.Library :=
  { Routine.utcLibrary with
    dateFrom := fun s => if s = "1970-01-02" then some ⟨719163, by decide⟩ else none }

def plainEnv : Env ℕ := ⟨datedLibrary, .ascii, .unixEpoch, (), [], []⟩

theorem readsDates_plainEnv : ReadsDates plainEnv.L := by
  intro s d h
  by_cases hs : s = "1970-01-02"
  · subst hs
    exact List.forall_mem_singleton.mpr ⟨'1', "970-01-02".toList, rfl, .inl rfl⟩
  · exact absurd ((if_neg hs).symm.trans h) (Option.some_ne_none d).symm

def nineOnFriday : plainEnv.When :=
  .floating (J := datedLibrary.jiff) ⟨⟨719163, by decide⟩, ⟨9 * (3600 * 10 ^ 9), by decide⟩⟩

theorem parse_lossless_iff_repeated :
    Lossless plainEnv "pay ^tomorrow 9am !1 ^1970-01-02 9am ~2h !1".toList := by
  refine (parse_lossless_iff plainEnv readsDates_plainEnv _).mpr ?_
  have hsaid : annotations plainEnv "pay ^tomorrow 9am !1 ^1970-01-02 9am ~2h !1".toList =
      [.planned nineOnFriday, .priority 1, .planned nineOnFriday, .estimate 7200,
        .priority 1] := by rfl
  rw [hsaid]
  simp [Turn.Agree]

theorem not_lossless_twice : ¬∀ input : Text, Lossless plainEnv input := by
  intro h
  have hagree := (h "!1 !2".toList).agree readsDates_plainEnv
  have hsaid : annotations plainEnv "!1 !2".toList = [.priority 1, .priority 2] := by rfl
  rw [hsaid] at hagree
  have heq : 1 = 2 := (List.pairwise_cons.mp hagree).1 _ List.mem_cons_self
  exact absurd heq (by decide)

end Capture

end Sunrise
