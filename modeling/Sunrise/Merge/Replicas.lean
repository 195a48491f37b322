import Sunrise.Merge.Replay

/-!
# Replicas, and joins in any order

The states replicas reach by folding ops, joining each other's dumps and forgetting
versions (`Replica`) are all sound for the one history their ops make. What a state
itself says is a share too (`Entity.share`): its rows, and its stored frontiers as
records of what the versions cover. A state is sound for every well-formed share that
has its own (`Entity.Sound.change`), so a join or a fold can be looked at over just
what goes in: the share of the state, of the documents, of the op.

Where that union has one order (`History.Settled`) the result of joining documents and
folding ops is determined, and so joins are idempotent and commute. A joined frontier
can cover a version across one that no party holds; then the order read off the
frontiers need not be transitive and heads need not agree.

* `joinStreamState_comm` — **joins commute** with joins and with folds, and repeat
  without effect, over a settled history.
* `joinStreamState_not_comm` — a fold and a join that do not commute.
-/

namespace Sunrise

open Causal

/-! ### What a state says -/

/-- The rows of a state, with its frontiers as records; a head that another version
covers has been folded from its own op. -/
def Entity.share (e : Entity) : Share where
  versions := {v | ∃ b, e.dag.versions.find v.stamp.opRef = some (v.row b)}
  seen := fun s dev a => s ∈ e.dag.held ∧ (e.dag.frontierAt s).Reaches dev a
  merged := {s | (∃ r, e.dag.versions.find s.opRef = some r ∧ r.isHead = true) ∧
    ∃ w ∈ e.dag.held, w ≠ s ∧ (e.dag.frontierAt w).Reaches s.device s}
  members := fun field => {m | m ∈ e.regs.members field}
  entries := fun k => {row | e.maps.find k = some row}
  adds := fun k => {hlc | e.adds.find k = some hlc}
  removes := {k | e.removes.find k = some ()}
  deltas := fun k => {row | e.deltas.find k = some row}
  books := {m | ∃ kind, e.book = some (kind, m)}

theorem Entity.covered_share (U : Share) (e : Entity) : e.Covered U e.share where
  book := fun b ⟨kind, hb⟩ => ⟨kind, b, hb, .refl b⟩
  held := by
    rintro s ⟨v, ⟨b, hv⟩, rfl⟩
    exact Dag.mem_held_iff.mpr ⟨_, hv, rfl⟩
  recorded := fun s dev a hs => hs
  regs := fun field m hm => .inr (.inl hm)
  maps := fun k row hr => ⟨row, hr, le_rfl⟩
  adds := fun k hlc hk => .inr hk
  deltas := fun k row hr => .inr hr
  removes := fun k hk => hk

/-! ### Shares of one history -/

/-- All a share says comes from `U`. -/
structure Share.From (P U : Share) : Prop where
  versions : ∀ v ∈ P.versions, v ∈ U.versions
  seen : ∀ s dev a, P.seen s dev a → s ∈ stampsOf P.toHistory ∧ HistCovers U.toHistory s dev a
  members : ∀ field, ∀ m ∈ P.members field, m ∈ U.members field
  held : ∀ field, ∀ m ∈ P.members field, m.stamp ∈ stampsOf P.toHistory
  entries : ∀ k, ∀ row ∈ P.entries k, row ∈ U.entries k
  adds : ∀ k, ∀ hlc ∈ P.adds k, hlc ∈ U.adds k
  removes : ∀ k ∈ P.removes, k ∈ U.removes
  deltas : ∀ k, ∀ row ∈ P.deltas k, row ∈ U.deltas k
  books : ∀ b ∈ P.books, b.Sound U.books

open Share

namespace Share

variable {c : Codec} {U : Share} {S : Set Share}

theorem wellFormed_sUnion (hU : U.WellFormed) (hS : ∀ P ∈ S, P.From U) :
    (sUnion S).WellFormed where
  valid :=
    { distinct := fun v ⟨P, hP, hv⟩ w ⟨Q, hQ, hw⟩ =>
        hU.valid.distinct v ((hS P hP).versions v hv) w ((hS Q hQ).versions w hw)
      le := by
        rintro w - a ⟨v, ⟨Q, hQ, hv⟩, rfl⟩ ⟨P, hP, hseen⟩
        obtain ⟨⟨x, hx, rfl⟩, hcov⟩ := (hS P hP).seen _ _ _ hseen
        exact hU.valid.covers_le ⟨x, (hS P hP).versions x hx, rfl⟩
          ⟨v, (hS Q hQ).versions v hv, rfl⟩ hcov }
  held := by
    rintro field m ⟨P, hP, hm⟩
    obtain ⟨v, hv, hstamp⟩ := (hS P hP).held field m hm
    exact ⟨v, ⟨P, hP, hv⟩, hstamp⟩
  member := fun field m ⟨P, hP, hm⟩ n ⟨Q, hQ, hn⟩ =>
    hU.member field m ((hS P hP).members field m hm) n ((hS Q hQ).members field n hn)
  finite := fun field => (hU.finite field).subset fun m ⟨P, hP, hm⟩ =>
    (hS P hP).members field m hm
  entry := fun k r ⟨P, hP, hr⟩ r' ⟨Q, hQ, hr'⟩ =>
    hU.entry k r ((hS P hP).entries k r hr) r' ((hS Q hQ).entries k r' hr')
  add := fun k a ⟨P, hP, ha⟩ b ⟨Q, hQ, hb⟩ =>
    hU.add k a ((hS P hP).adds k a ha) b ((hS Q hQ).adds k b hb)
  delta := fun k a ⟨P, hP, ha⟩ b ⟨Q, hQ, hb⟩ =>
    hU.delta k a ((hS P hP).deltas k a ha) b ((hS Q hQ).deltas k b hb)
  floor := by
    rintro b ⟨P, hP, hb⟩ l hl v ⟨Q, hQ, hv⟩ hstamp
    obtain ⟨b', hb', hl'⟩ := ((hS P hP).books b hb).legacy l hl
    exact hU.floor b' hb' l hl' v ((hS Q hQ).versions v hv) hstamp

theorem stored_sUnion (hU : U.Stored c) (hS : ∀ P ∈ S, P.From U) : (sUnion S).Stored c where
  members := fun field m ⟨P, hP, hm⟩ => hU.members field m ((hS P hP).members field m hm)
  entries := fun k row ⟨P, hP, hr⟩ => hU.entries k row ((hS P hP).entries k row hr)
  adds := fun k hlc ⟨P, hP, hk⟩ => hU.adds k hlc ((hS P hP).adds k hlc hk)
  removes := fun k ⟨P, hP, hk⟩ => hU.removes k ((hS P hP).removes k hk)

end Share

theorem Version.eq_of_row {v w : Version} {b b' : Bool} (hop : v.stamp.opRef = w.stamp.opRef)
    (hrow : v.row b = w.row b') : v = w := by
  have hhlc : v.stamp.hlc = w.stamp.hlc := congrArg VersionRow.hlc hrow
  have hstamp := Stamp.eq_of_opRef_of_hlc hop hhlc
  obtain ⟨_, _, _, _, _, _, _⟩ := v
  obtain ⟨_, _, _, _, _, _, _⟩ := w
  simp only [row, VersionRow.mk.injEq] at hrow hstamp
  simp only [Version.mk.injEq]
  exact ⟨hstamp, hrow.2.1, hrow.2.2.1, hrow.2.2.2.1, hrow.2.2.2.2.1, hrow.2.2.2.2.2.1,
    hrow.2.2.2.2.2.2.1⟩

section

variable {c : Codec} {kind : EntityKind} {U V : Share} {e : Entity} {doc : DocEntity} {op : Op}

theorem Entity.Sound.version_of_held (h : e.Sound c kind U) {s : Stamp} (hs : s ∈ e.dag.held) :
    ∃ v ∈ U.toHistory, v ∈ e.share.versions ∧ v.stamp = s := by
  obtain ⟨r, hr, hhlc⟩ := Dag.mem_held_iff.mp hs
  obtain ⟨v, hv, hop, hrow⟩ := h.dag.rows _ _ hr
  refine ⟨v, hv, ⟨r.isHead, by rw [hop, hr, ← hrow]⟩, Stamp.eq_of_opRef_of_hlc hop ?_⟩
  rw [← hhlc, hrow]
  rfl

theorem DocEntity.Sound.version_of_row (h : doc.Sound c kind U) {s : Stamp} {r : VersionRow}
    (hr : (s.opRef, r) ∈ doc.versions) (hhlc : r.hlc = s.hlc) :
    ∃ v ∈ U.toHistory, v ∈ doc.share.versions ∧ v.stamp = s := by
  obtain ⟨v, hv, hop, hrow⟩ := h.versions _ hr
  refine ⟨v, hv, ⟨r.isHead, ?_⟩, Stamp.eq_of_opRef_of_hlc hop ?_⟩
  · rw [hop, ← hrow]
    exact hr
  · rw [← hhlc]
    exact (congrArg VersionRow.hlc hrow).symm

theorem Entity.Sound.share_from (h : e.Sound c kind U) : e.share.From U where
  versions := by
    rintro v ⟨b, hv⟩
    obtain ⟨w, hw, hop, hrow⟩ := h.dag.rows _ _ hv
    exact Version.eq_of_row hop.symm hrow ▸ hw
  seen := by
    rintro s dev a ⟨hs, hreach⟩
    obtain ⟨v, -, hv, rfl⟩ := h.version_of_held hs
    exact ⟨⟨v, hv, rfl⟩, h.dag.sound _ hs dev a hreach⟩
  members := h.regs.written
  held := fun field m hm => by
    obtain ⟨v, -, hv, hstamp⟩ := h.version_of_held (h.regs.held field m hm)
    exact ⟨v, hv, hstamp⟩
  entries := h.maps
  adds := fun k hlc hk => (h.adds k hlc hk).1
  removes := h.removes
  deltas := fun k row hr => (h.deltas k row hr).1
  books := fun b ⟨k, hb⟩ => (h.book k b hb).2

theorem DocEntity.Sound.share_from (hU : U.WellFormed) (h : doc.Sound c kind U) :
    doc.share.From U where
  versions := by
    rintro v ⟨b, hv⟩
    obtain ⟨w, hw, hop, hrow⟩ := h.versions _ hv
    exact Version.eq_of_row hop.symm hrow ▸ hw
  seen := by
    rintro s dev a ⟨⟨r, hr, hhlc⟩, t, ht, hle⟩
    obtain ⟨v, hvU, hv, rfl⟩ := h.version_of_row hr hhlc
    obtain ⟨r', hr', hsound⟩ := h.frontier _ ht
    -- the row the frontier is of is the same version's
    obtain ⟨w, hwU, -, hstamp⟩ := h.version_of_row (s := v.stamp.opRef.stamp r'.hlc) hr' rfl
    obtain rfl := hU.valid.distinct w hwU v hvU (by rw [hstamp]; rfl)
    refine ⟨⟨w, hv, rfl⟩, ?_⟩
    rw [hstamp]
    exact hsound dev a (Frontier.reaches_single.mpr ⟨rfl, hle⟩)
  members := fun field m hm => h.members _ hm
  held := fun field m hm => by
    obtain ⟨r, hr, hhlc⟩ := h.held _ hm
    obtain ⟨v, -, hv, hstamp⟩ := h.version_of_row hr hhlc
    exact ⟨v, hv, hstamp⟩
  entries := fun k row hr => h.maps _ hr
  adds := fun k hlc hk => h.adds _ hk
  removes := h.removes
  deltas := fun k row hr => h.deltas _ hr
  books := by
    rintro b rfl
    exact h.book

theorem Op.share_from (hop : op.share c ≤ U) : (op.share c).From U where
  versions := hop.versions
  seen := fun _ _ _ hs => hs.elim
  members := hop.members
  held := fun field m hm => ⟨op.version, rfl, by rw [Op.stamp_version, Op.stamp_of_member hm]⟩
  entries := hop.entries
  adds := hop.adds
  removes := hop.removes
  deltas := hop.deltas
  books := fun b hb => Bookkeeping.sound_of_mem (hop.books b hb)

theorem legacy_iff_of_mem {H H' : History} (hH : H.Valid) (hH' : H'.Valid) {v : Version}
    (hv : v ∈ H) (hv' : v ∈ H') : H.Legacy v.stamp ↔ H'.Legacy v.stamp := by
  have hiff : ∀ {H : History}, H.Valid → v ∈ H → (H.Legacy v.stamp ↔ v.kind = .legacy) := by
    intro H hH hv
    constructor
    · rintro ⟨w, hw, hstamp, hkind⟩
      exact hH.distinct w hw v hv (by rw [hstamp]) ▸ hkind
    · exact fun hkind => ⟨v, hv, rfl, hkind⟩
  rw [hiff hH hv, hiff hH' hv']

theorem names_of_mem {H H' : History} (hH' : H'.Valid) {v : Version} (hv : v ∈ H) (hv' : v ∈ H')
    {p : Stamp} (h : Names H' v.stamp p) : Names H v.stamp p := by
  obtain ⟨w, hw, hstamp, hp⟩ := h
  exact ⟨v, hv, rfl, hH'.distinct w hw v hv' (by rw [hstamp]) ▸ hp⟩

/-- **A state is sound for whatever has its own rows.** -/
theorem Entity.Sound.change (hU : U.WellFormed) (h : e.Sound c kind U) (hV : V.WellFormed)
    (hle : e.share ≤ V) : e.Sound c kind V := by
  have hversion : ∀ s ∈ e.dag.held, ∃ v ∈ U.toHistory, v ∈ V.toHistory ∧ v.stamp = s := by
    intro s hs
    obtain ⟨v, hv, hve, hstamp⟩ := h.version_of_held hs
    exact ⟨v, hv, hle.versions v hve, hstamp⟩
  have hlegacy : ∀ s ∈ e.dag.held, U.Legacy s ↔ V.Legacy s := by
    intro s hs
    obtain ⟨v, hv, hv', rfl⟩ := hversion s hs
    exact legacy_iff_of_mem hU.valid hV.valid hv hv'
  have hedge : ∀ y ∈ e.dag.held, ∀ s ∈ e.dag.held, HistEdge V.toHistory y s →
      HistEdge U.toHistory y s := by
    rintro y hy s hs ⟨-, -, hlt, hor⟩
    obtain ⟨v, hv, hv', rfl⟩ := hversion y hy
    refine ⟨⟨v, hv, rfl⟩, h.dag.rows.held_subset hs, hlt, ?_⟩
    exact hor.imp_left (names_of_mem hV.valid hv hv')
  refine ⟨fun k m hb => ?_, ⟨?_, h.dag.keys, ?_, ?_, h.dag.unflagged, ?_⟩, fun field => ?_,
    ⟨fun field m hm => hle.members field m hm, h.regs.held, h.regs.above, ?_, h.regs.antichain⟩,
    fun k row hr => hle.entries k row hr, fun k hlc hk => ⟨hle.adds k hlc hk, (h.adds k hlc hk).2⟩,
    fun k hk => hle.removes k hk, fun k row hr => ⟨hle.deltas k row hr, (h.deltas k row hr).2⟩⟩
  · exact ⟨(h.book k m hb).1, Bookkeeping.sound_of_mem (hle.books m ⟨k, hb⟩)⟩
  · intro op r hr
    obtain ⟨v, hv, hop, hrow⟩ := h.dag.rows op r hr
    exact ⟨v, hle.versions v ⟨r.isHead, by rw [hop, hr, ← hrow]⟩, hop, hrow⟩
  · exact fun s hs => sound_of_base fun dev a ha => hle.seen s dev a ⟨hs, ha⟩
  · intro s hs
    refine ⟨(h.dag.closed s hs).1, fun p he => (h.dag.closed s hs).2 p ⟨hs, he.2.1, ?_⟩⟩
    obtain ⟨v, hv, hv', rfl⟩ := hversion s hs
    exact ⟨he.2.2.1, he.2.2.2.imp_left (names_of_mem hV.valid hv hv')⟩
  · intro op r hr hflag w hw hne hreach
    obtain ⟨-, hnone⟩ := h.dag.flagged op r hr hflag w hw hne hreach
    refine ⟨hle.merged _ ⟨⟨r, hr, hflag⟩, w, hw, hne, hreach⟩, fun y hy he => ?_⟩
    exact hnone y hy (hedge y hy _ (Dag.mem_held_of_find hr) he)
  · -- the loser rows carry the same flag
    have hsame : ∀ m ∈ e.regs.members field,
        RegisterTables.loserRow (legacyAt U.toHistory) m =
          RegisterTables.loserRow (legacyAt V.toHistory) m := by
      intro m hm
      have hflag : legacyAt U.toHistory m.stamp = legacyAt V.toHistory m.stamp := by
        rw [Bool.eq_iff_iff, legacyAt_iff, legacyAt_iff]
        exact hlegacy _ (h.regs.held field m hm)
      rw [RegisterTables.loserRow, RegisterTables.loserRow, hflag]
    refine ⟨(h.normal field).winner, fun op r => ?_⟩
    rw [(h.normal field).losers]
    refine exists_congr fun m => and_congr_right fun hm => ?_
    rw [hsame m hm]
  · intro field m hm hleg
    exact h.regs.legacy field m hm ((hlegacy _ (h.regs.held field m hm)).mpr hleg)

theorem DocEntity.Sound.change (hU : U.WellFormed) (h : doc.Sound c kind U) (hV : V.WellFormed)
    (hle : doc.share ≤ V) : doc.Sound c kind V where
  sameKind := h.sameKind
  book := Bookkeeping.sound_of_mem (hle.books _ rfl)
  versions := by
    rintro ⟨op, r⟩ hr
    obtain ⟨v, hv, hop, hrow⟩ := h.versions _ hr
    exact ⟨v, hle.versions v ⟨r.isHead, by rw [hop, ← hrow]; exact hr⟩, hop, hrow⟩
  frontier := by
    rintro ⟨op, dev, t⟩ hf
    obtain ⟨r, hr, -⟩ := h.frontier _ hf
    refine ⟨r, hr, sound_of_base fun dev' a ha => hle.seen _ _ _ ?_⟩
    obtain ⟨rfl, hle'⟩ := Frontier.reaches_single.mp ha
    exact ⟨⟨r, hr, rfl⟩, t, hf, hle'⟩
  members := fun x hx => hle.members x.1 x.2 hx
  held := h.held
  legacy := fun x hx hleg => by
    obtain ⟨r, hr, hhlc⟩ := h.held x hx
    obtain ⟨v, hv, hv', hstamp⟩ := h.version_of_row hr hhlc
    refine h.legacy x hx ?_
    rw [← hstamp] at hleg ⊢
    exact (legacy_iff_of_mem hU.valid hV.valid hv (hle.versions v hv')).mpr hleg
  maps := fun x hx => hle.entries x.1 x.2 hx
  adds := fun x hx => hle.adds x.1 x.2 hx
  removes := fun k hk => hle.removes k hk
  deltas := fun x hx => hle.deltas x.1 x.2 hx

end

/-! ### Forgetting versions -/

/-- What a pruning leaves alone: the newest version of each device, and the version of
every register's member. -/
structure Entity.Spares (e : Entity) (gone : Finset OpRef) : Prop where
  newest : ∀ s ∈ e.dag.held, s.opRef ∈ gone → ∃ t ∈ e.dag.held, t.device = s.device ∧ s < t
  members : ∀ field, ∀ m ∈ e.regs.members field, m.stamp.opRef ∉ gone

namespace Dag

variable {d : Dag} {gone : Finset OpRef}

theorem find_forget_eq_some {op : OpRef} {r : VersionRow} :
    (d.forget gone).versions.find op = some r ↔ d.versions.find op = some r ∧ op ∉ gone := by
  rw [forget, Table.find_filter_eq_some, decide_eq_true_iff]

theorem mem_held_forget {s : Stamp} :
    s ∈ (d.forget gone).held ↔ s ∈ d.held ∧ s.opRef ∉ gone := by
  simp only [mem_held_iff, find_forget_eq_some]
  constructor
  · rintro ⟨r, ⟨hr, hgone⟩, hhlc⟩
    exact ⟨⟨r, hr, hhlc⟩, hgone⟩
  · rintro ⟨⟨r, hr, hhlc⟩, hgone⟩
    exact ⟨r, ⟨hr, hgone⟩, hhlc⟩

theorem frontierOf_forget {op : OpRef} (h : op ∉ gone) :
    (d.forget gone).frontierOf op = d.frontierOf op := by
  unfold frontierOf forget
  rw [Table.find_filter]
  cases d.frontier.find op <;> simp [Option.filter, h]

theorem exists_newest {s : Stamp} (hs : s ∈ d.held) :
    ∃ t ∈ d.held, t.device = s.device ∧ ∀ n ∈ d.held, n.device = s.device → n ≤ t := by
  have hfin : {t | t ∈ d.held ∧ t.device = s.device}.Finite := by
    refine d.stamps.finite_toSet.subset ?_
    rintro t ⟨ht, -⟩
    exact mem_stamps.mpr ht
  obtain ⟨t, ⟨ht, hdev⟩, hmax⟩ := hfin.exists_maximal ⟨s, hs, rfl⟩
  refine ⟨t, ht, hdev, fun n hn hndev => ?_⟩
  rcases le_total n t with hle | hle
  · exact hle
  · exact hmax ⟨hn, hndev⟩ hle

end Dag

/-- **Forgetting versions keeps the state sound.** -/
theorem Entity.Sound.forget {c : Codec} {kind : EntityKind} {U : Share} {e : Entity}
    {gone : Finset OpRef} (hU : U.WellFormed) (h : e.Sound c kind U) (hgone : e.Spares gone) :
    Sound c kind U { e with dag := e.dag.forget gone } := by
  have hkept : ∀ s ∈ (e.dag.forget gone).held,
      (e.dag.forget gone).frontierAt s = e.dag.frontierAt s := fun s hs =>
    Dag.frontierOf_forget (Dag.mem_held_forget.mp hs).2
  have hsub : (e.dag.forget gone).held ⊆ e.dag.held := fun s hs => (Dag.mem_held_forget.mp hs).1
  refine ⟨h.book, ⟨fun op r hr => h.dag.rows op r (Dag.find_forget_eq_some.mp hr).1, ?keys, ?sound,
    ?closed, ?unflagged, ?flagged⟩, h.normal, ⟨h.regs.written, ?held, h.regs.above, h.regs.legacy,
    ?antichain⟩, h.maps, h.adds, h.removes, h.deltas⟩
  case keys =>
    intro op
    show (e.dag.frontier.filter _).find op = none ↔ (e.dag.versions.filter _).find op = none
    have hiff := h.dag.keys op
    rw [Table.find_filter, Table.find_filter]
    by_cases hop : op ∈ gone
    · cases e.dag.frontier.find op <;> cases e.dag.versions.find op <;> simp [hop]
    · cases hf : e.dag.frontier.find op <;> cases hv : e.dag.versions.find op <;>
        simp_all
  case sound =>
    intro s hs
    show HistSound U.toHistory s ((e.dag.forget gone).frontierAt s)
    rw [hkept s hs]
    exact h.dag.sound s (hsub hs)
  case closed =>
    intro s hs
    show ((e.dag.forget gone).frontierAt s).Reaches s.device s ∧ _
    rw [hkept s hs]
    refine ⟨(h.dag.closed s (hsub hs)).1, fun p he => ?_⟩
    show ((e.dag.forget gone).frontierAt p).Below _
    rw [hkept p he.2.1]
    exact (h.dag.closed s (hsub hs)).2 p (he.mono hsub)
  case unflagged =>
    intro op r hr hflag
    obtain ⟨hr, -⟩ := Dag.find_forget_eq_some.mp hr
    obtain ⟨w, hw, hne, hreach⟩ := h.dag.unflagged op r hr hflag
    -- the newest version of `w`'s device covers what `w` does, and stays
    obtain ⟨t, ht, hdev, hmax⟩ := e.dag.exists_newest hw
    have hstay : t.opRef ∉ gone := by
      intro hin
      obtain ⟨n, hn, hndev, hlt⟩ := hgone.newest t ht hin
      exact absurd (hmax n hn (hndev.trans hdev)) (not_le_of_gt hlt)
    have htheld : t ∈ (e.dag.forget gone).held := Dag.mem_held_forget.mpr ⟨ht, hstay⟩
    have hle := hmax w hw rfl
    have hbelow := h.dag.closed.below (reach_of_author ht hw hle hdev.symm)
    refine ⟨t, htheld, fun heq => ?_, ?_⟩
    · -- it is not the version itself, which would be newer than `w`
      have hs : op.stamp r.hlc ∈ e.dag.held := Dag.mem_held_of_find hr
      have hge := hU.valid.covers_le (h.dag.rows.held_subset hw) (h.dag.rows.held_subset hs)
        (h.dag.sound w hw _ _ hreach)
      exact hne (le_antisymm (heq ▸ hle) hge)
    · show ((e.dag.forget gone).frontierAt t).Reaches _ _
      rw [hkept t htheld]
      exact hbelow _ _ hreach
  case flagged =>
    intro op r hr hflag w hw hne hreach
    have hreach' : (e.dag.frontierAt w).Reaches op.device (op.stamp r.hlc) := by
      rw [← hkept w hw]
      exact hreach
    obtain ⟨hm, hnone⟩ :=
      h.dag.flagged op r (Dag.find_forget_eq_some.mp hr).1 hflag w (hsub hw) hne hreach'
    exact ⟨hm, fun y hy => hnone y (hsub hy)⟩
  case held =>
    exact fun field m hm =>
      Dag.mem_held_forget.mpr ⟨h.regs.held field m hm, hgone.members field m hm⟩
  case antichain =>
    intro field m hm n hn
    have hold : e.dag.registerPrecedes m.stamp n.stamp = false := h.regs.antichain field m hm n hn
    show (e.dag.forget gone).registerPrecedes m.stamp n.stamp = false
    unfold Dag.registerPrecedes Dag.registerFrontier at hold ⊢
    rwa [Dag.frontierOf_forget (hgone.members field n hn)]

/-! ### Runs -/

/-- The states a replica reaches by folding ops of `W`, joining dumps of other replicas
of `W`, and forgetting versions. -/
inductive Replica (c : Codec) (W : List Op) : Store → Prop where
  | empty : Replica c W fun _ => ∅
  | merge {s : Store} {op : Op} (h : Replica c W s) (hop : op ∈ W) : Replica c W (mergeOp c s op)
  | join {s s' : Store} (h : Replica c W s) (h' : Replica c W s') (stream : StreamId) :
    Replica c W (joinStreamState c s (dumpStreamState stream s'))
  | forget {s : Store} (h : Replica c W s) (id : Id) (gone : Finset OpRef)
    (hgone : (s id).Spares gone) :
    Replica c W (Function.update s id { s id with dag := (s id).dag.forget gone })

section

variable {c : Codec} {W : List Op} {s : Store} (hW : DistinctOps {o | o ∈ W})
  (hread : ∀ o ∈ W, o.Readable c)

include hread in
theorem stored_folded (id : Id) : (foldedShare c W id).Stored c :=
  stored_ofOps fun o ho => hread o (mem_opsOf.mp ho).1

include hW hread

/-- **Every state of a run is sound for the history of all the ops.** -/
theorem Replica.sound (h : Replica c W s) {id : Id} {kind : EntityKind}
    (hkind : ∀ o ∈ opsOf id W, o.target.kind = kind) :
    (s id).Sound c kind (foldedShare c W id) := by
  have hU := (ordered_folded hW c id).toWellFormed
  have hstored : (foldedShare c W id).Stored c := stored_folded hread id
  induction h with
  | empty => exact Entity.sound_empty c kind _
  | @merge s op _ hop ih =>
    unfold mergeOp
    by_cases hid : id = op.target.id
    · subst hid
      rw [Function.update_self]
      have hmem : op ∈ opsOf op.target.id W := mem_opsOf.mpr ⟨hop, rfl⟩
      obtain rfl := hkind op hmem
      exact ih.merge hU (le_ofOps hmem)
    · rw [Function.update_of_ne hid]
      exact ih
  | join _ _ stream ih ih' =>
    rw [joinStreamState_apply]
    exact ih.joinDoc hU hstored fun d hd => ih'.dump hd
  | forget _ id' gone hgone ih =>
    by_cases hid : id = id'
    · subst hid
      rw [Function.update_self]
      exact ih.forget hU hgone
    · rw [Function.update_of_ne hid]
      exact ih

end

/-! ### Joins in any order -/

/-- What a state, some documents and some ops bring of one entity. -/
def parties (c : Codec) (s : Store) (docs : List Doc) (ops : List Op) (id : Id) : Set Share :=
  {P | P = (s id).share ∨ (∃ A ∈ docs, ∃ d, A id = some d ∧ P = d.share) ∨
    ∃ o ∈ ops, o.target.id = id ∧ P = o.share c}

/-- What they bring has one order. -/
def Settled (c : Codec) (s : Store) (docs : List Doc) (ops : List Op) : Prop :=
  ∀ id, (sUnion (parties c s docs ops id)).toHistory.Settled

section

variable {c : Codec} {W : List Op} {s : Store} (docs : List Doc) (ops : List Op) {id : Id}
  {kind : EntityKind} (hW : DistinctOps {o | o ∈ W}) (hread : ∀ o ∈ W, o.Readable c)
  (hs : Replica c W s) (hkind : ∀ o ∈ opsOf id W, o.target.kind = kind)
  (hdocs : ∀ A ∈ docs, ∃ S r, Replica c W r ∧ A = dumpStreamState S r) (hops : ∀ o ∈ ops, o ∈ W)

include hW hread hs hkind hdocs hops

theorem parties_from : ∀ P ∈ parties c s docs ops id, P.From (foldedShare c W id) := by
  rintro P (rfl | ⟨A, hA, d, hd, rfl⟩ | ⟨o, ho, hid, rfl⟩)
  · exact (hs.sound hW hread hkind).share_from
  · obtain ⟨S, r, hr, rfl⟩ := hdocs A hA
    exact ((hr.sound hW hread hkind).dump hd).share_from (ordered_folded hW c id).toWellFormed
  · exact Op.share_from (le_ofOps (mem_opsOf.mpr ⟨hops o ho, hid⟩))

theorem sound_parties :
    let U := sUnion (parties c s docs ops id)
    U.WellFormed ∧ U.Stored c ∧ (s id).Sound c kind U ∧
      (∀ A ∈ docs, ∀ d, A id = some d → d.Sound c kind U) ∧
      ∀ o ∈ ops, o.target.id = id → o.share c ≤ U := by
  intro U
  have hU₀ := (ordered_folded hW c id).toWellFormed
  have hfrom := parties_from docs ops hW hread hs hkind hdocs hops
  have hU : U.WellFormed := wellFormed_sUnion hU₀ hfrom
  refine ⟨hU, stored_sUnion (stored_folded hread id) hfrom,
    (hs.sound hW hread hkind).change hU₀ hU (le_sUnion (.inl rfl)), fun A hA d hd => ?_,
    fun o ho hid => ?_⟩
  · obtain ⟨S, r, hr, rfl⟩ := hdocs A hA
    exact ((hr.sound hW hread hkind).dump hd).change hU₀ hU
      (le_sUnion (.inr (.inl ⟨_, hA, d, hd, rfl⟩)))
  · exact le_sUnion (.inr (.inr ⟨o, ho, hid, rfl⟩))

theorem settled_parties (hone : ∀ o ∈ opsOf id W, ∀ o' ∈ opsOf id W, o = o') :
    (sUnion (parties c s docs ops id)).toHistory.Settled := by
  have hop : ∀ t ∈ stampsOf (sUnion (parties c s docs ops id)).toHistory,
      ∃ o ∈ opsOf id W, t = o.stamp := by
    rintro t ⟨v, ⟨P, hP, hv⟩, rfl⟩
    have hfrom := parties_from docs ops hW hread hs hkind hdocs hops P hP
    obtain ⟨o, ho, rfl⟩ := Share.mem_versions_ofOps.mp (hfrom.versions v hv)
    exact ⟨o, ho, Op.stamp_version o⟩
  have heq : ∀ {t u}, t ∈ stampsOf (sUnion (parties c s docs ops id)).toHistory →
      u ∈ stampsOf (sUnion (parties c s docs ops id)).toHistory → t = u := by
    intro t u ht hu
    obtain ⟨o, ho, rfl⟩ := hop t ht
    obtain ⟨o', ho', rfl⟩ := hop u hu
    rw [hone o ho o' ho']
  refine ⟨fun a ha b hb _ _ hcb _ => ?_, fun t ht _ w hw hp => absurd (heq ht hw) hp.1⟩
  rw [heq ha hb]
  exact hcb

omit hs hkind hdocs hops hW hread in
variable {docs ops} in
theorem covered_parties {U : Share} {e : Entity} (hstate : e.Covered U (s id).share)
    (hdoc : ∀ A ∈ docs, ∀ d, A id = some d → e.Covered U d.share)
    (hop : ∀ o ∈ ops, o.target.id = id → e.Covered U (o.share c)) :
    e.Covered U (sUnion (parties c s docs ops id)) := by
  refine Entity.Covered.sUnion ?_
  rintro P (rfl | ⟨A, hA, d, hd, rfl⟩ | ⟨o, ho, hid, rfl⟩)
  · exact hstate
  · exact hdoc A hA d hd
  · exact hop o ho hid

end

/-- **Joins are idempotent and commute**, with one another and with the fold of an op,
as far as the tables go, for the states and dumps of any replicas: wherever what goes
in has one order. -/
theorem joinStreamState_comm (c : Codec) (W : List Op) (hW : DistinctOps {o | o ∈ W})
    (hkind : OneKind W) (hread : ∀ o ∈ W, o.Readable c) (s r r' : Store) (hs : Replica c W s)
    (hr : Replica c W r) (hr' : Replica c W r') (S S' : StreamId) (op : Op) (hop : op ∈ W) :
    let A := dumpStreamState S r
    let B := dumpStreamState S' r'
    (Settled c s [A] [] →
      joinStreamState c (joinStreamState c s A) A = joinStreamState c s A) ∧
    (Settled c s [A, B] [] →
      joinStreamState c (joinStreamState c s A) B =
        joinStreamState c (joinStreamState c s B) A) ∧
    (Settled c s [A] [op] →
      mergeOp c (joinStreamState c s A) op = joinStreamState c (mergeOp c s op) A) := by
  intro A B
  refine ⟨fun hset => ?_, fun hset => ?_, fun hset => ?_⟩
  all_goals
    funext id
    obtain ⟨kind, hk⟩ := hkind.exists_kind id
  · obtain ⟨hU, hstored, h, hdoc, -⟩ := sound_parties [A] [] hW hread hs hk
      (by simpa using ⟨S, r, hr, rfl⟩) (by simp)
    have hA := hdoc A (by simp)
    have hord : Share.Ordered _ := ⟨hU, ⟨hU.valid, hset id⟩⟩
    have hone := h.joinDoc hU hstored hA
    have hcov : (Entity.joinDoc c (A id) (s id)).Covered (.sUnion (parties c s [A] [] id))
        (.sUnion (parties c s [A] [] id)) := by
      refine covered_parties ((Entity.covered_share _ (s id)).joinDoc hU hstored hA h)
        (fun A' hA' d hd => ?_) (by simp)
      obtain rfl := List.mem_singleton.mp hA'
      exact h.covered_joinDoc hU hstored hA hd
    rw [joinStreamState_apply, joinStreamState_apply]
    exact (hone.joinDoc hU hstored hA).unique hord hone (hcov.joinDoc hU hstored hA hone) hcov
  · obtain ⟨hU, hstored, h, hdoc, -⟩ := sound_parties [A, B] [] hW hread hs hk
      (by simpa using ⟨⟨S, r, hr, rfl⟩, S', r', hr', rfl⟩) (by simp)
    have hA := hdoc A (by simp)
    have hB := hdoc B (by simp)
    have hord : Share.Ordered _ := ⟨hU, ⟨hU.valid, hset id⟩⟩
    have hstate := Entity.covered_share (sUnion (parties c s [A, B] [] id)) (s id)
    have hjA := h.joinDoc hU hstored hA
    have hjB := h.joinDoc hU hstored hB
    rw [joinStreamState_apply, joinStreamState_apply, joinStreamState_apply,
      joinStreamState_apply]
    refine (hjA.joinDoc hU hstored hB).unique hord (hjB.joinDoc hU hstored hA) ?_ ?_
    · refine covered_parties ((hstate.joinDoc hU hstored hA h).joinDoc hU hstored hB hjA)
        (fun A' hA' d hd => ?_) (by simp)
      rcases List.mem_pair.mp hA' with rfl | rfl
      · exact (h.covered_joinDoc hU hstored hA hd).joinDoc hU hstored hB hjA
      · exact hjA.covered_joinDoc hU hstored hB hd
    · refine covered_parties ((hstate.joinDoc hU hstored hB h).joinDoc hU hstored hA hjB)
        (fun A' hA' d hd => ?_) (by simp)
      rcases List.mem_pair.mp hA' with rfl | rfl
      · exact hjB.covered_joinDoc hU hstored hA hd
      · exact (h.covered_joinDoc hU hstored hB hd).joinDoc hU hstored hA hjB
  · obtain ⟨hU, hstored, h, hdoc, hopU⟩ := sound_parties [A] [op] hW hread hs hk
      (by simpa using ⟨S, r, hr, rfl⟩) (by simpa using hop)
    have hA := hdoc A (by simp)
    have hord : Share.Ordered _ := ⟨hU, ⟨hU.valid, hset id⟩⟩
    have hstate := Entity.covered_share (sUnion (parties c s [A] [op] id)) (s id)
    have hjA := h.joinDoc hU hstored hA
    unfold mergeOp
    by_cases hid : op.target.id = id
    · subst hid
      have hle := hopU op (by simp) rfl
      obtain rfl := hk op (mem_opsOf.mpr ⟨hop, rfl⟩)
      have hm := h.merge hU hle
      rw [Function.update_self, joinStreamState_apply, joinStreamState_apply,
        Function.update_self]
      refine (hjA.merge hU hle).unique hord (hm.joinDoc hU hstored hA) ?_ ?_
      · refine covered_parties ((hstate.joinDoc hU hstored hA h).merge hU hle hjA)
          (fun A' hA' d hd => ?_) fun o ho _ => ?_
        · obtain rfl := List.mem_singleton.mp hA'
          exact (h.covered_joinDoc hU hstored hA hd).merge hU hle hjA
        · obtain rfl := List.mem_singleton.mp ho
          exact hjA.covered_merge hU hle
      · refine covered_parties ((hstate.merge hU hle h).joinDoc hU hstored hA hm)
          (fun A' hA' d hd => ?_) fun o ho _ => ?_
        · obtain rfl := List.mem_singleton.mp hA'
          exact hm.covered_joinDoc hU hstored hA hd
        · obtain rfl := List.mem_singleton.mp ho
          exact (h.covered_merge hU hle).joinDoc hU hstored hA hm
    · rw [Function.update_of_ne (Ne.symm hid), joinStreamState_apply, joinStreamState_apply,
        Function.update_of_ne (Ne.symm hid)]

/-- Device 2 creates another task in stream 8. -/
def taskOther : Op where
  target := ⟨.task, 2⟩
  stamp := ⟨⟨1, 0⟩, 2, 1, 8⟩
  body := .patch true false (some []) none [("title", .set (.text "b"))]

theorem joinStreamState_comm_streams :
    let s := mergeOp .short (fun _ => ∅) taskOther
    let r := mergeOp .short s taskCreate
    let A := dumpStreamState 7 r
    let B := dumpStreamState 8 r
    let join := joinStreamState .short
    join (join s A) A = join s A ∧ join (join s A) B = join (join s B) A ∧
      mergeOp .short (join s A) taskCreate = join (mergeOp .short s taskCreate) A := by
  intro s r A B join
  have hW : DistinctOps {o | o ∈ [taskOther, taskCreate]} := distinctOps_of_nodup (by decide)
  have hread : ∀ o ∈ [taskOther, taskCreate], o.Readable .short := by unfold Op.Readable; decide
  have hkind : OneKind [taskOther, taskCreate] := by unfold OneKind; decide
  have hs : Replica .short [taskOther, taskCreate] s := .merge .empty (by simp)
  have hr : Replica .short [taskOther, taskCreate] r := .merge hs (by simp)
  -- each task has one version
  have hset : ∀ docs ops, (∀ D ∈ docs, ∃ S r, Replica .short [taskOther, taskCreate] r ∧
      D = dumpStreamState S r) → (∀ o ∈ ops, o ∈ [taskOther, taskCreate]) →
      Settled .short s docs ops := by
    intro docs ops hdocs hops id
    obtain ⟨kind, hk⟩ := hkind.exists_kind id
    refine settled_parties docs ops hW hread hs hk hdocs hops fun o ho o' ho' => ?_
    have hids : ([taskOther, taskCreate].map fun o => o.target.id).Nodup := by decide
    obtain ⟨ho, hid⟩ := mem_opsOf.mp ho
    obtain ⟨ho', hid'⟩ := mem_opsOf.mp ho'
    exact List.inj_on_of_nodup_map hids ho ho' (hid.trans hid'.symm)
  have h := joinStreamState_comm .short _ hW hkind hread s r r hs hr hr 7 8 taskCreate (by simp)
  refine ⟨h.1 (hset _ _ ?_ (by simp)), h.2.1 (hset _ _ ?_ (by simp)),
    h.2.2 (hset _ _ ?_ (by simp))⟩
  · simpa using ⟨7, r, hr, rfl⟩
  · simpa using ⟨⟨7, r, hr, rfl⟩, 8, r, hr, rfl⟩
  · simpa using ⟨7, r, hr, rfl⟩

/-- Device 4 creates a task in stream 9. -/
def taskFirst : Op where
  target := ⟨.task, 1⟩
  stamp := ⟨⟨1, 0⟩, 4, 1, 9⟩
  body := .patch true false (some []) none [("title", .set (.text "a"))]

/-- Device 2 renames it in stream 8. -/
def taskSecond : Op where
  target := ⟨.task, 1⟩
  stamp := ⟨⟨2, 0⟩, 2, 1, 8⟩
  body := .patch false false (some [taskFirst.stamp.opRef]) none [("title", .set (.text "b"))]

/-- Device 3 renames it again in stream 7. -/
def taskThird : Op where
  target := ⟨.task, 1⟩
  stamp := ⟨⟨3, 0⟩, 3, 1, 7⟩
  body := .patch false false (some [taskSecond.stamp.opRef]) none [("title", .set (.text "c"))]

/-- **A fold and a join that do not commute.** The dump of stream 7 has the third
version, whose frontier covers the first across the second, which is not in it. The
first op folded after the join finds no version above it and becomes a head; joined
after it, the recomputation sees that the third covers it. -/
theorem joinStreamState_not_comm :
    let r := mergeOps .short (fun _ => ∅) [taskFirst, taskSecond, taskThird]
    let A := dumpStreamState 7 r
    Replica .short [taskFirst, taskSecond, taskThird] r ∧
      mergeOp .short (joinStreamState .short (fun _ => ∅) A) taskFirst ≠
        joinStreamState .short (mergeOp .short (fun _ => ∅) taskFirst) A := by
  intro r A
  refine ⟨.merge (.merge (.merge .empty (by simp)) (by simp)) (by simp), fun heq => ?_⟩
  have hheads := congrArg (fun s : Store => (s 1).dag.heads.length) heq
  revert hheads
  decide

end Sunrise
