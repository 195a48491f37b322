import Sunrise.Merge.Register

/-!
# What the register fold leaves in the tables

The register rows of an entity are read as lists of members, field by field
(`RegisterTables.members`), and every step of the fold is described by what it
does to those lists:

* `Registers.members_load`, `Registers.members_offer`,
  `Registers.members_raiseFloor`, `Registers.members_refilter` — the steps in
  memory;
* `Registers.written_flush` — after a flush each field's rows are `Written` from
  its list: the member of greatest rank in `merge_registers`, the others in
  `register_losers`.

`RegisterTables.ext_members` is the reason lists are enough: rows written from
lists with the same members are the same rows.
-/

namespace Sunrise

open RegisterTables Table

/-! ### The winner -/

section

variable {c : Codec} {cls : Conflict} {ms ns : List Member} {m n w : Member}

theorem rank_stamp (h : rank c cls m = rank c cls n) : m.stamp = n.stamp := by
  have h' := congrArg (fun r => (ofLex (ofLex r).2).2) h
  exact h'

theorem winner_mem (h : winner c cls ms = some w) : w ∈ ms :=
  List.mem_reverse.mp (List.argmax_mem h)

theorem winner_eq_none : winner c cls ms = none ↔ ms = [] := by
  unfold winner
  rw [List.argmax_eq_none, List.reverse_eq_nil_iff]

theorem rank_le_winner (h : winner c cls ms = some w) (hm : m ∈ ms) :
    rank c cls m ≤ rank c cls w :=
  List.le_of_mem_argmax (List.mem_reverse.mpr hm) h

def OneEach (ms : List Member) : Prop :=
  ∀ m ∈ ms, ∀ n ∈ ms, m.stamp.opRef = n.stamp.opRef → m = n

theorem OneEach.subset (h : OneEach ns) (hs : ∀ m ∈ ms, m ∈ ns) : OneEach ms :=
  fun m hm n hn => h m (hs m hm) n (hs n hn)

theorem winner_eq_some_iff (h : OneEach ms) :
    winner c cls ms = some w ↔ w ∈ ms ∧ ∀ m ∈ ms, rank c cls m ≤ rank c cls w := by
  constructor
  · exact fun hw => ⟨winner_mem hw, fun m hm => rank_le_winner hw hm⟩
  · rintro ⟨hw, hmax⟩
    cases hwin : winner c cls ms with
    | none =>
      rw [winner_eq_none.mp hwin] at hw
      simp at hw
    | some w' =>
      have heq : rank c cls w' = rank c cls w :=
        le_antisymm (hmax w' (winner_mem hwin)) (rank_le_winner hwin hw)
      rw [h w' (winner_mem hwin) w hw (by rw [rank_stamp heq])]

theorem winner_congr (h : OneEach ms) (hmem : ∀ m, m ∈ ms ↔ m ∈ ns) :
    winner c cls ms = winner c cls ns := by
  have hns : OneEach ns := h.subset fun m => (hmem m).mpr
  refine Option.ext fun w => ?_
  rw [winner_eq_some_iff h, winner_eq_some_iff hns]
  simp only [hmem]

end

/-! ### Rows as lists of members -/

namespace RegisterTables

def losersOf (t : RegisterTables) (field : String) : List Member :=
  (t.losers.rows.filter fun r => (ofLex r.1).1 = field).map fun r => r.2.member (ofLex r.1).2

def members (t : RegisterTables) (field : String) : List Member :=
  (t.registers.find field).toList ++ t.losersOf field

theorem mem_losersOf {t : RegisterTables} {field : String} {m : Member} :
    m ∈ t.losersOf field ↔
      ∃ r, t.losers.find (toLex (field, m.stamp.opRef)) = some r ∧ r.member m.stamp.opRef = m := by
  unfold losersOf
  rw [List.mem_map]
  constructor
  · rintro ⟨⟨k, r⟩, hr, rfl⟩
    rw [List.mem_filter, decide_eq_true_iff] at hr
    refine ⟨r, ?_, rfl⟩
    have hk : toLex (field, (ofLex k).2) = k := by
      rw [← hr.2]
      rfl
    show t.losers.find (toLex (field, (ofLex k).2)) = some r
    rw [hk]
    exact Table.mem_rows.mp hr.1
  · rintro ⟨r, hr, hm⟩
    exact ⟨(toLex (field, m.stamp.opRef), r),
      List.mem_filter.mpr ⟨Table.mem_rows.mpr hr, by simp⟩, hm⟩

theorem mem_members {t : RegisterTables} {field : String} {m : Member} :
    m ∈ t.members field ↔ t.registers.find field = some m ∨ m ∈ t.losersOf field := by
  unfold members
  rw [List.mem_append, Option.mem_toList]

/-- The loser row of a member: `legacy` says which stamps are full-state ops'. -/
def loserRow (legacy : Stamp → Bool) (m : Member) : LoserRow :=
  ⟨m.stamp.hlc, m.value, m.origin, legacy m.stamp⟩

@[simp] theorem member_loserRow (legacy : Stamp → Bool) (m : Member) :
    (loserRow legacy m).member m.stamp.opRef = m := rfl

/-- A field's rows hold the members of a list: the one of greatest rank as the
winner, the others as losers. -/
structure Written (c : Codec) (cls : Conflict) (legacy : Stamp → Bool) (ms : List Member)
    (t : RegisterTables) (field : String) : Prop where
  winner : t.registers.find field = winner c cls ms
  losers : ∀ op r, t.losers.find (toLex (field, op)) = some r ↔
    ∃ m ∈ ms, some m ≠ Sunrise.winner c cls ms ∧ m.stamp.opRef = op ∧ r = loserRow legacy m

variable {c : Codec} {cls : Conflict} {legacy : Stamp → Bool} {ms ns : List Member}
  {t t' : RegisterTables} {field : String}

section

variable (h : Written c cls legacy ms t field)
include h

theorem Written.mem_losersOf {m : Member} :
    m ∈ t.losersOf field ↔ m ∈ ms ∧ some m ≠ Sunrise.winner c cls ms := by
  rw [RegisterTables.mem_losersOf]
  constructor
  · rintro ⟨r, hr, hm⟩
    obtain ⟨n, hn, hne, hop, rfl⟩ := (h.losers _ _).mp hr
    have hnm : n = m := by rw [← hm, ← hop, member_loserRow]
    exact hnm ▸ ⟨hn, hne⟩
  · rintro ⟨hm, hne⟩
    exact ⟨loserRow legacy m, (h.losers _ _).mpr ⟨m, hm, hne, rfl, rfl⟩, rfl⟩

theorem Written.mem_members {m : Member} :
    m ∈ t.members field ↔ m ∈ ms := by
  rw [RegisterTables.mem_members, h.mem_losersOf, h.winner]
  constructor
  · rintro (hw | ⟨hm, -⟩)
    · exact winner_mem hw
    · exact hm
  · intro hm
    by_cases hw : some m = Sunrise.winner c cls ms
    · exact .inl hw.symm
    · exact .inr ⟨hm, hw⟩

theorem Written.congr (hms : OneEach ms)
    (hmem : ∀ m, m ∈ ms ↔ m ∈ ns) : Written c cls legacy ns t field where
  winner := by rw [h.winner, winner_congr hms hmem]
  losers := fun op r => by
    rw [h.losers, winner_congr hms hmem]
    simp only [hmem]

end

/-- The rows of every field are written from the members they hold. -/
def Normal (c : Codec) (spec : EntitySpec) (legacy : Stamp → Bool) (t : RegisterTables) : Prop :=
  ∀ field, Written c (spec.classOf field) legacy (t.members field) t field

/-- **Rows written from the same members are the same rows.** -/
theorem ext_members {spec : EntitySpec} (h : Normal c spec legacy t)
    (h' : Normal c spec legacy t') (hone : ∀ field, OneEach (t.members field))
    (hmem : ∀ field m, m ∈ t.members field ↔ m ∈ t'.members field) : t = t' := by
  have hw : ∀ field, Written c (spec.classOf field) legacy (t.members field) t' field :=
    fun field => (h' field).congr ((hone field).subset fun m => (hmem field m).mpr)
      fun m => (hmem field m).symm
  have hregs : t.registers = t'.registers :=
    ext_find fun field => by rw [(h field).winner, (hw field).winner]
  have hlosers : t.losers = t'.losers := by
    refine ext_some fun k r => ?_
    have hk : k = toLex ((ofLex k).1, (ofLex k).2) := rfl
    rw [hk, (h _).losers, (hw _).losers]
  calc t = ⟨t.registers, t.losers⟩ := rfl
    _ = ⟨t'.registers, t'.losers⟩ := by rw [hregs, hlosers]
    _ = t' := rfl

theorem members_empty (field : String) : (∅ : RegisterTables).members field = [] := rfl

theorem normal_empty (c : Codec) (spec : EntitySpec) (legacy : Stamp → Bool) :
    Normal c spec legacy ∅ := by
  intro field
  rw [members_empty]
  refine ⟨rfl, fun op r => ?_⟩
  constructor
  · intro h
    exact absurd h (by nofun)
  · rintro ⟨m, hm, -⟩
    simp at hm

end RegisterTables

/-! ### Loading -/

namespace Registers

def heldOf (r : Registers) (field : String) : Held := (r.held.find field).getD default

private theorem find_load_winners (field : String) (l : List (String × Member))
    (hl : l.Pairwise fun a b => a.1 < b.1) (h : Table String Held) :
    ((l.foldl (fun h r => h.upsert r.1 { (h.find r.1).getD default with winner := some r.2 })
      h).find field).getD default =
      match lookup field l with
      | some m => { (h.find field).getD default with winner := some m }
      | none => (h.find field).getD default := by
  induction l generalizing h with
  | nil => rfl
  | cons r l ih =>
    obtain ⟨f, m⟩ := r
    rw [List.pairwise_cons] at hl
    rw [List.foldl_cons, ih hl.2, lookup_cons]
    by_cases hf : field = f
    · subst hf
      have hnone : lookup field l = none :=
        Table.lookup_eq_none.mpr fun r hr => ne_of_gt (hl.1 r hr)
      simp [hnone]
    · simp only [find_upsert_of_ne _ _ hf, if_neg hf]

private theorem find_load_losers (field : String) (l : List ((String ×ₗ OpRef) × LoserRow))
    (h : Table String Held) :
    ((l.foldl
      (fun h r =>
        h.upsert (ofLex r.1).1
          { (h.find (ofLex r.1).1).getD default with
            losers := ((h.find (ofLex r.1).1).getD default).losers ++
              [r.2.member (ofLex r.1).2] })
      h).find field).getD default =
      { (h.find field).getD default with
        losers := ((h.find field).getD default).losers ++
          (l.filter fun r => (ofLex r.1).1 = field).map fun r => r.2.member (ofLex r.1).2 } := by
  induction l generalizing h with
  | nil => simp
  | cons r l ih =>
    rw [List.foldl_cons, ih]
    by_cases hf : field = (ofLex r.1).1
    · subst hf
      simp
    · simp [find_upsert_of_ne _ _ hf, Ne.symm hf]

section

variable (t : RegisterTables) (floor : Option Stamp)
include t floor

theorem heldOf_load (field : String) :
    (load t floor).heldOf field = ⟨t.registers.find field, t.losersOf field⟩ := by
  unfold heldOf load
  rw [find_load_losers, find_load_winners field _ t.registers.sorted]
  unfold losersOf Table.find
  cases lookup field t.registers.rows with
  | none => rfl
  | some m => rfl

theorem members_load (field : String) :
    (load t floor).members field = t.members field := by
  have hmem : (load t floor).members field =
      ((load t floor).heldOf field).winner.toList ++ ((load t floor).heldOf field).losers := by
    show ((mapValues _ _).find field).getD [] = _
    rw [find_mapValues]
    unfold heldOf
    show Option.getD (Option.map _ ((load t floor).held.find field)) [] = _
    cases (load t floor).held.find field with
    | none => rfl
    | some h => rfl
  rw [hmem, heldOf_load]
  rfl

end

/-! ### The steps in memory -/

/-- A field not marked dirty still holds what was loaded from `t`. -/
structure Tracks (t : RegisterTables) (r : Registers) : Prop where
  held : ∀ field, r.heldOf field = ⟨t.registers.find field, t.losersOf field⟩
  clean : ∀ field, r.dirty.find field = none → r.members field = t.members field

theorem tracks_load (t : RegisterTables) (floor : Option Stamp) : Tracks t (load t floor) where
  held := heldOf_load t floor
  clean := fun field _ => members_load t floor field

section

variable (d : Dag) (r : Registers) (field : String) (m : Member)
include d r field m

theorem offer_eq_self_or :
    (r.offer d field m = r ∧ offerMember d r.floor (r.members field) m = r.members field) ∨
      r.offer d field m = { r with
        fields := r.fields.upsert field (offerMember d r.floor (r.members field) m)
        dirty := r.dirty.upsert field () } := by
  unfold offer offerMember Antichain.insert
  by_cases hfloor : belowFloor r.floor m.stamp = true
  · simp [hfloor]
  · by_cases hsame : (r.members field).any (fun n => n.stamp = m.stamp) = true
    · simp [hfloor, hsame]
    · by_cases hdom :
        (r.members field).any (fun n => d.registerPrecedes m.stamp n.stamp) = true
      · exact .inl (by simp only [hfloor, hsame, hdom, if_true, if_false, Bool.false_eq_true,
          and_self])
      · exact .inr (by simp only [hfloor, hsame, hdom, if_false, Bool.false_eq_true])

theorem members_offer (g : String) :
    (r.offer d field m).members g =
      if g = field then offerMember d r.floor (r.members field) m else r.members g := by
  rcases offer_eq_self_or d r field m with ⟨heq, hms⟩ | heq
  · rw [heq, hms]
    split
    next h => rw [h]
    next => rfl
  · rw [heq]
    show ((upsert _ _ _).find g).getD [] = _
    rw [find_upsert]
    split
    next => rfl
    next => rfl

@[simp] theorem floor_offer :
    (r.offer d field m).floor = r.floor := by
  rcases offer_eq_self_or d r field m with ⟨heq, -⟩ | heq <;> rw [heq]

end

theorem Tracks.offer {t : RegisterTables} {r : Registers} (h : Tracks t r) (d : Dag)
    (field : String) (m : Member) : Tracks t (r.offer d field m) := by
  rcases offer_eq_self_or d r field m with ⟨heq, -⟩ | heq
  · rwa [heq]
  · refine ⟨fun g => ?_, fun g hg => ?_⟩
    · rw [heq]
      exact h.held g
    · have hg' : (r.dirty.upsert field ()).find g = none := by rwa [heq] at hg
      rw [find_upsert] at hg'
      split at hg'
      next => simp at hg'
      next hne => rw [members_offer, if_neg hne, h.clean g hg']

private theorem find_shrink_dirty (f : List Member → List Member) (field : String)
    (l : List (String × List Member)) (dirty : Table String Unit)
    (h : (l.foldl (fun dirty row =>
      if (f row.2).length ≠ row.2.length then dirty.upsert row.1 () else dirty)
        dirty).find field = none) :
    dirty.find field = none ∧ ∀ row ∈ l, row.1 = field → (f row.2).length = row.2.length := by
  induction l generalizing dirty with
  | nil => exact ⟨h, by simp⟩
  | cons row l ih =>
    rw [List.foldl_cons] at h
    obtain ⟨hd, hl⟩ := ih _ h
    by_cases hlen : (f row.2).length ≠ row.2.length
    · rw [if_pos hlen, find_upsert] at hd
      split at hd
      next => simp at hd
      next hne =>
        refine ⟨hd, fun row' hrow' hf => ?_⟩
        rcases List.mem_cons.mp hrow' with rfl | hrow'
        · exact absurd hf.symm hne
        · exact hl row' hrow' hf
    · rw [if_neg hlen] at hd
      refine ⟨hd, fun row' hrow' hf => ?_⟩
      rcases List.mem_cons.mp hrow' with rfl | hrow'
      · exact not_ne_iff.mp hlen
      · exact hl row' hrow' hf

theorem members_shrink {f : List Member → List Member} (hnil : f [] = []) (r : Registers)
    (field : String) : (r.shrink f).members field = f (r.members field) := by
  show ((mapValues _ _).find field).getD [] = f ((r.fields.find field).getD [])
  rw [find_mapValues]
  cases r.fields.find field with
  | none => exact hnil.symm
  | some ms => rfl

theorem Tracks.shrink {t : RegisterTables} {r : Registers} (h : Tracks t r)
    {f : List Member → List Member} (hnil : f [] = [])
    (hlen : ∀ ms, (f ms).length = ms.length → f ms = ms) : Tracks t (r.shrink f) where
  held := fun field => h.held field
  clean := fun field hclean => by
    obtain ⟨hd, hall⟩ := find_shrink_dirty f field _ _ hclean
    rw [members_shrink hnil, ← h.clean field hd]
    unfold members
    cases hms : r.fields.find field with
    | none => exact hnil
    | some ms => exact hlen ms (hall (field, ms) (Table.mem_rows.mpr hms) rfl)

theorem members_raiseFloor (r : Registers) (floor : Stamp) (field : String) :
    (r.raiseFloor floor).members field =
      (r.members field).filter fun m => floor ≤ m.stamp :=
  members_shrink (by simp) r field

theorem Tracks.raiseFloor {t : RegisterTables} {r : Registers} (h : Tracks t r)
    (floor : Stamp) : Tracks t (r.raiseFloor floor) := by
  have hs : Tracks t (r.shrink fun ms => ms.filter fun m => floor ≤ m.stamp) :=
    h.shrink (by simp) fun ms hlen =>
      List.filter_eq_self.mpr (List.length_filter_eq_length_iff.mp hlen)
  exact ⟨hs.held, hs.clean⟩

theorem members_refilter (d : Dag) (r : Registers) (field : String) :
    (r.refilter d).members field =
      Antichain.prune (fun a b => d.registerPrecedes a.stamp b.stamp) (r.members field) :=
  members_shrink (by simp [Antichain.prune]) r field

theorem Tracks.refilter {t : RegisterTables} {r : Registers} (h : Tracks t r) (d : Dag) :
    Tracks t (r.refilter d) :=
  h.shrink (by simp [Antichain.prune]) fun _ hlen =>
    List.filter_eq_self.mpr (List.length_filter_eq_length_iff.mp hlen)

/-! ### Flushing -/

def SameRows (t u : RegisterTables) (field : String) : Prop :=
  u.registers.find field = t.registers.find field ∧
    ∀ op, u.losers.find (toLex (field, op)) = t.losers.find (toLex (field, op))

theorem SameRows.trans {t u w : RegisterTables} {field : String} (h : SameRows t u field)
    (h' : SameRows u w field) : SameRows t w field :=
  ⟨h'.1.trans h.1, fun op => (h'.2 op).trans (h.2 op)⟩

theorem SameRows.mem_losersOf {t u : RegisterTables} {field : String} (h : SameRows t u field)
    (m : Member) : m ∈ u.losersOf field ↔ m ∈ t.losersOf field := by
  rw [RegisterTables.mem_losersOf, RegisterTables.mem_losersOf, h.2]

theorem SameRows.written {c : Codec} {cls : Conflict} {legacy : Stamp → Bool} {ms : List Member}
    {t u : RegisterTables} {field : String} (h : SameRows t u field)
    (hw : RegisterTables.Written c cls legacy ms t field) :
    RegisterTables.Written c cls legacy ms u field :=
  ⟨h.1.trans hw.winner, fun op r => by rw [h.2, hw.losers]⟩

section

variable {c : Codec} {cls : Conflict} {legacy : Stamp → Bool} {floor : Option Stamp}
  {ms : List Member} {t : RegisterTables} {held : Held} {field : String}

private theorem ne_of_field {g : String} {op op' : OpRef} (h : g ≠ field) :
    (toLex (field, op') : String ×ₗ OpRef) ≠ toLex (g, op) := by
  intro heq
  exact h (congrArg (fun k => (ofLex k).1) heq).symm

theorem flushField_frame (c : Codec) (cls : Conflict) (floor : Option Stamp) (held : Held)
    (ms : List Member) (t : RegisterTables) {g : String} (h : g ≠ field) :
    SameRows t (flushField c cls floor held ms field t) g := by
  unfold flushField
  refine ⟨?_, fun op => ?_⟩
  · show Table.find (match winner c cls ms with | some w => _ | none => _) g = _
    split
    · split
      · rfl
      · exact find_upsert_of_ne _ _ h
    · split
      · rw [find_erase, if_neg h]
      · rfl
  · show Table.find (List.foldl _ _ _) _ = _
    rw [find_foldl_upsert_of_not_mem _ _ fun m _ => ne_of_field h,
      find_foldl_erase (fun m : Member => toLex (field, m.stamp.opRef)), if_neg]
    rintro ⟨m, -, hm⟩
    exact ne_of_field h hm

theorem written_flushField (hwinner : held.winner = t.registers.find field)
    (hheld : ∀ m, m ∈ held.losers ↔ m ∈ t.losersOf field)
    (hflag : ∀ op r, t.losers.find (toLex (field, op)) = some r →
      r.legacy = legacy (op.stamp r.hlc))
    (hone : OneEach ms) (hfloor : ∀ m ∈ ms, decide (floor = some m.stamp) = legacy m.stamp) :
    RegisterTables.Written c cls legacy ms (flushField c cls floor held ms field t) field := by
  refine ⟨?_, fun op r => ?_⟩
  · -- the winner's row is written, deleted, or stands already
    unfold flushField
    show Table.find (match winner c cls ms with | some w => _ | none => _) field = _
    cases hwin : winner c cls ms with
    | some w =>
      by_cases hsame : held.winner = some w
      · simp only [hsame, if_true]
        rw [← hsame, hwinner]
      · simp [hsame]
    | none =>
      cases hw : held.winner with
      | some w =>
        simp only [Option.isSome_some, if_true]
        rw [find_erase, if_pos rfl]
      | none =>
        simp only [Option.isSome_none, if_false, Bool.false_eq_true]
        rw [← hwinner, hw]
  · let losers := ms.filter fun m => decide (some m ≠ winner c cls ms)
    have hlosers : ∀ m, m ∈ losers ↔ m ∈ ms ∧ some m ≠ winner c cls ms := fun m => by
      rw [List.mem_filter, decide_eq_true_iff]
    have hnew : ∀ m, m ∈ losers.filter (fun m => m ∉ held.losers) ↔
        m ∈ losers ∧ m ∉ held.losers := fun m => by
      rw [List.mem_filter, decide_eq_true_iff]
    -- a held loser is the one row under its key
    have hrow : ∀ m ∈ held.losers,
        t.losers.find (toLex (field, m.stamp.opRef)) = some (loserRow legacy m) := by
      intro m hm
      obtain ⟨r, hr, hrm⟩ := RegisterTables.mem_losersOf.mp ((hheld m).mp hm)
      have hlegacy := hflag _ _ hr
      rw [hr, ← hrm]
      obtain ⟨hlc, value, origin, flag⟩ := r
      simp only [loserRow, LoserRow.member, OpRef.hlc_stamp] at hlegacy ⊢
      rw [hlegacy]
    have hrow' : ∀ r, t.losers.find (toLex (field, op)) = some r →
        ∃ m ∈ held.losers, m.stamp.opRef = op ∧ r = loserRow legacy m := by
      intro r hr
      have hm : r.member op ∈ held.losers :=
        (hheld _).mpr (RegisterTables.mem_losersOf.mpr ⟨r, hr, rfl⟩)
      have heq := hrow _ hm
      rw [show (r.member op).stamp.opRef = op from rfl, hr, Option.some.injEq] at heq
      exact ⟨r.member op, hm, rfl, heq⟩
    have hval : ∀ m ∈ ms, (⟨m.stamp.hlc, m.value, m.origin, decide (floor = some m.stamp)⟩ :
        LoserRow) = loserRow legacy m := fun m hm => by
      rw [hfloor m hm]
      rfl
    have hgone : ∀ op', (∃ m ∈ held.losers.filter (fun m => m ∉ losers),
        (toLex (field, m.stamp.opRef) : String ×ₗ OpRef) = toLex (field, op')) ↔
        ∃ m ∈ held.losers, m ∉ losers ∧ m.stamp.opRef = op' := by
      intro op'
      simp [List.mem_filter, and_assoc]
    show Table.find (List.foldl _ (List.foldl _ _ _) _) _ = _ ↔ _
    by_cases hin : ∃ m ∈ losers.filter (fun m => m ∉ held.losers), m.stamp.opRef = op
    · -- written just now
      obtain ⟨m, hm, rfl⟩ := hin
      have hml := (hnew m).mp hm
      have hmms := (hlosers m).mp hml.1
      rw [find_foldl_upsert_of_mem (fun m : Member => toLex (field, m.stamp.opRef)) _ hm]
      · rw [Option.some.injEq, hval m hmms.1]
        constructor
        · rintro rfl
          exact ⟨m, hmms.1, hmms.2, rfl, rfl⟩
        · rintro ⟨n, hn, -, hop, rfl⟩
          rw [hone n hn m hmms.1 hop]
      · intro n hn hop
        have hnms := (hlosers n).mp ((hnew n).mp hn).1
        have hop' : n.stamp.opRef = m.stamp.opRef := congrArg (fun k => (ofLex k).2) hop
        rw [hone n hnms.1 m hmms.1 hop']
    · rw [find_foldl_upsert_of_not_mem (fun m : Member => toLex (field, m.stamp.opRef)) _
        fun m hm hop => hin ⟨m, hm, congrArg (fun k => (ofLex k).2) hop⟩,
        find_foldl_erase (fun m : Member => toLex (field, m.stamp.opRef))]
      constructor
      · intro hr
        split at hr
        next => simp at hr
        next hno =>
          have hno := fun hg => hno ((hgone op).mpr hg)
          obtain ⟨m, hm, hop, rfl⟩ := hrow' r hr
          have hml : m ∈ losers := by
            by_contra hml
            exact hno ⟨m, hm, hml, hop⟩
          exact ⟨m, ((hlosers m).mp hml).1, ((hlosers m).mp hml).2, hop, rfl⟩
      · rintro ⟨m, hm, hne, rfl, rfl⟩
        have hml : m ∈ losers := (hlosers m).mpr ⟨hm, hne⟩
        have hheldm : m ∈ held.losers := by
          by_contra hnot
          exact hin ⟨m, (hnew m).mpr ⟨hml, hnot⟩, rfl⟩
        rw [if_neg, hrow m hheldm]
        intro hg
        obtain ⟨n, hn, hnl, hop⟩ := (hgone _).mp hg
        -- two held losers of one key are one
        have hnm : loserRow legacy n = loserRow legacy m := by
          have h1 := hrow n hn
          rw [hop, hrow m hheldm, Option.some.injEq] at h1
          exact h1.symm
        have : n = m := by
          rw [← member_loserRow legacy n, hnm, hop]
          rfl
        exact hnl (this ▸ hml)

end

def flushList (c : Codec) (spec : EntitySpec) (r : Registers) (l : List (String × Unit))
    (t : RegisterTables) : RegisterTables :=
  l.foldl
    (fun t row => flushField c (spec.classOf row.1) r.floor ((r.held.find row.1).getD default)
      (r.members row.1) row.1 t) t

theorem flushList_frame {c : Codec} {spec : EntitySpec} {r : Registers}
    {l : List (String × Unit)} {t : RegisterTables} {field : String}
    (h : ∀ row ∈ l, row.1 ≠ field) : SameRows t (flushList c spec r l t) field := by
  induction l generalizing t with
  | nil => exact ⟨rfl, fun _ => rfl⟩
  | cons row l ih =>
    have hstep := flushField_frame c (spec.classOf row.1) r.floor
      ((r.held.find row.1).getD default) (r.members row.1) t (h row List.mem_cons_self).symm
    exact hstep.trans (ih fun row' h' => h row' (List.mem_cons_of_mem _ h'))

/-- **A flush writes every register's rows from its members**, dirty or not. -/
theorem written_flush {c : Codec} {spec : EntitySpec} {legacy : Stamp → Bool}
    {t : RegisterTables} {r : Registers} (h : Tracks t r)
    (hnorm : RegisterTables.Normal c spec legacy t) (hone : ∀ field, OneEach (r.members field))
    (hfloor : ∀ field, ∀ m ∈ r.members field, decide (r.floor = some m.stamp) = legacy m.stamp)
    (field : String) :
    RegisterTables.Written c (spec.classOf field) legacy (r.members field) (r.flush c spec t)
      field := by
  have hflag : ∀ op row, t.losers.find (toLex (field, op)) = some row →
      row.legacy = legacy (op.stamp row.hlc) := by
    intro op row hrow
    obtain ⟨m, -, -, rfl, rfl⟩ := ((hnorm field).losers op row).mp hrow
    rfl
  -- by induction on the fields still to flush: one reached holds what was loaded
  have hlist : ∀ (l : List (String × Unit)) (u : RegisterTables),
      (l.Pairwise fun a b => a.1 < b.1) → SameRows t u field → (∃ row ∈ l, row.1 = field) →
      RegisterTables.Written c (spec.classOf field) legacy (r.members field)
        (flushList c spec r l u) field := by
    intro l
    induction l with
    | nil =>
      rintro u - - ⟨row, hrow, -⟩
      simp at hrow
    | cons row l ih =>
      intro u hl hu hex
      rw [List.pairwise_cons] at hl
      by_cases hrow : row.1 = field
      · subst hrow
        have hstep : RegisterTables.Written c (spec.classOf row.1) legacy (r.members row.1)
            (flushField c (spec.classOf row.1) r.floor ((r.held.find row.1).getD default)
              (r.members row.1) row.1 u) row.1 := by
          have hheld : (r.held.find row.1).getD default =
              ⟨t.registers.find row.1, t.losersOf row.1⟩ := h.held row.1
          refine written_flushField ?_ ?_ ?_ (hone row.1) (hfloor row.1)
          · rw [hheld, hu.1]
          · intro m
            rw [hheld, hu.mem_losersOf]
          · intro op r' hr'
            rw [hu.2] at hr'
            exact hflag op r' hr'
        exact (flushList_frame fun row' h' => ne_of_gt (hl.1 row' h')).written hstep
      · refine ih _ hl.2 ?_ ?_
        · exact hu.trans (flushField_frame _ _ _ _ _ _ (Ne.symm hrow))
        · obtain ⟨row', hrow', hf⟩ := hex
          rcases List.mem_cons.mp hrow' with rfl | hrow'
          · exact absurd hf hrow
          · exact ⟨row', hrow', hf⟩
  cases hdirty : r.dirty.find field with
  | some u =>
    exact hlist _ _ r.dirty.sorted ⟨rfl, fun _ => rfl⟩ ⟨(field, u), Table.mem_rows.mpr hdirty, rfl⟩
  | none =>
    have hsame : SameRows t (r.flush c spec t) field :=
      flushList_frame fun row hrow => Table.find_eq_none.mp hdirty row hrow
    rw [h.clean field hdirty]
    exact hsame.written (hnorm field)

end Registers

end Sunrise
