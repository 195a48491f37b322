import Sunrise.Trust.Identity

/-!
# The chain of identities

Over a set of transitions the chain is what following the greatest verifying successor
from the genesis gives. The walk over the rows a replica holds gives the same chain, for
every order the transitions came in, as long as the cap on the rows of one predecessor
never drops a row the predecessor signed for the sake of one it did not. It does, where
the predecessor came last: then the chains differ.

* `Transitions.chainIdentities_applyAll` — a run.
* `Transitions.chainIdentities_forged` — the run the cap breaks.
-/

namespace Sunrise

open Transitions Table

/-! ### The chain over a set of rows -/

section Chain

variable (cr : IdentityCrypto) (S : Set TransitionRow)

/-- A verifying successor of the head that leads somewhere new. -/
structure IsNext (chain : List Link) (l : Link) (row : TransitionRow) : Prop where
  mem : row ∈ S
  source : row.body.fromIdentityId = l.1
  verifies : verifyIdentityTransition cr row.body l.2 row.sigs
  fresh : row.body.toIdentityId ∉ chain.map (·.1)

/-- A chain of greatest verifying successors, head first. -/
inductive Chain (genesis : Link) : List Link → Prop
  | genesis : Chain genesis [genesis]
  | next {l : Link} {chain : List Link} {row : TransitionRow} (h : Chain genesis (l :: chain))
      (hnext : IsNext cr S (l :: chain) l row)
      (hmax : ∀ row', IsNext cr S (l :: chain) l row' → row'.rank ≤ row.rank) :
      Chain genesis (row.link :: l :: chain)

/-- A chain whose head has no successor. -/
def FullChain (genesis : Link) (chain : List Link) : Prop :=
  Chain cr S genesis chain ∧ ∀ l row, chain.head? = some l → ¬ IsNext cr S chain l row

end Chain

variable {cr : IdentityCrypto} {S : Set TransitionRow} {genesis l : Link} {chain : List Link}
  {row row' : TransitionRow} {t t' : Transitions}

def DistinctSuccessors (S : Set TransitionRow) : Prop :=
  ∀ row ∈ S, ∀ row' ∈ S, row.body.toIdentityId = row'.body.toIdentityId → row = row'

def Ranked (S : Set TransitionRow) : Prop :=
  ∀ row ∈ S, row.rank.toIdentityId = row.body.toIdentityId

theorem eq_of_rank_eq (hd : DistinctSuccessors S) (hr : Ranked S) (h : row ∈ S) (h' : row' ∈ S)
    (heq : row.rank = row'.rank) : row = row' :=
  hd row h row' h' (by rw [← hr row h, ← hr row' h', heq])

theorem Chain.tail {above : List Link} (h : Chain cr S genesis (above ++ l :: chain)) :
    Chain cr S genesis (l :: chain) := by
  induction above with
  | nil => exact h
  | cons a above ih =>
    generalize hc : a :: above ++ l :: chain = c at h
    cases h with
    | genesis => simp at hc
    | next h _ _ =>
      rw [List.cons_append, List.cons.injEq] at hc
      exact ih (hc.2 ▸ h)

section

variable (hd : DistinctSuccessors S) (hr : Ranked S) {c c' : List Link} (hc : Chain cr S genesis c)
  (hc' : Chain cr S genesis c')
include hd hr hc hc'

theorem Chain.eq_of_length (hlen : c.length = c'.length) :
    c = c' := by
  induction hc generalizing c' with
  | genesis =>
    cases hc' with
    | genesis => rfl
    | next => simp at hlen
  | @next l chain row _ hnext hmax ih =>
    cases hc' with
    | genesis => simp at hlen
    | @next l' chain' row' h' hnext' hmax' =>
      obtain ⟨rfl, rfl⟩ := List.cons.inj (ih h' (by simpa using hlen))
      rw [eq_of_rank_eq hd hr hnext.mem hnext'.mem
        (le_antisymm (hmax' _ hnext) (hmax _ hnext'))]

theorem Chain.suffix (hlen : c.length ≤ c'.length) :
    c <:+ c' := by
  induction hc' with
  | genesis =>
    cases hc with
    | genesis => exact List.suffix_rfl
    | next => simp at hlen
  | @next l chain row h' hnext hmax ih =>
    rcases Nat.lt_or_eq_of_le hlen with hlt | heq
    · exact (ih (by simpa [Nat.lt_succ_iff] using hlt)).trans (List.suffix_cons _ _)
    · rw [hc.eq_of_length hd hr (h'.next hnext hmax) heq]

end

theorem Chain.ne_nil {c : List Link} (h : Chain cr S genesis c) : c ≠ [] := by
  cases h <;> exact List.cons_ne_nil _ _

section

variable (hd : DistinctSuccessors S) (hr : Ranked S) {c c' : List Link}
  (hc : FullChain cr S genesis c)
include hd hr hc

theorem FullChain.length_le (hc' : Chain cr S genesis c') : c'.length ≤ c.length := by
  by_contra hlt
  obtain ⟨above, heq⟩ := hc.1.suffix hd hr hc' (by omega)
  obtain ⟨l, chain, hlc⟩ := List.exists_cons_of_ne_nil hc.1.ne_nil
  rcases List.eq_nil_or_concat above with rfl | ⟨above, top, rfl⟩
  · rw [List.nil_append] at heq
    rw [heq] at hlt
    exact hlt le_rfl
  · rw [List.concat_eq_append, List.append_assoc, List.singleton_append] at heq
    have htop := Chain.tail (heq ▸ hc')
    subst hlc
    cases htop with
    | next _ hnext _ => exact hc.2 l _ rfl hnext

/-- **There is one full chain.** -/
theorem FullChain.unique (hc' : FullChain cr S genesis c') : c = c' :=
  hc.1.eq_of_length hd hr hc'.1
    (le_antisymm (hc'.length_le hd hr hc.1) (hc.length_le hd hr hc'.1))

end

/-! ### The shape of a chain -/

theorem Chain.nodup (h : Chain cr S genesis chain) : (chain.map (·.1)).Nodup := by
  induction h with
  | genesis => exact List.nodup_singleton _
  | next _ hnext _ ih => exact List.nodup_cons.mpr ⟨hnext.fresh, ih⟩

theorem Chain.genesis_mem (h : Chain cr S genesis chain) : genesis ∈ chain := by
  induction h with
  | genesis => exact List.mem_singleton.mpr rfl
  | next _ _ _ ih => exact List.mem_cons_of_mem _ ih

theorem Chain.row_of_mem (h : Chain cr S genesis (l :: chain)) {x : Link} (hx : x ∈ l :: chain) :
    x = genesis ∨ ∃ row ∈ S, row.link = x ∧ row.body.fromIdentityId ∈ chain.map (·.1) := by
  generalize hc : l :: chain = c at h hx
  induction h generalizing l chain with
  | genesis => exact .inl (List.mem_singleton.mp hx)
  | @next l' chain' row h hnext _ ih =>
    obtain ⟨-, rfl⟩ := List.cons.inj hc
    rcases List.mem_cons.mp hx with rfl | hx
    · exact .inr ⟨row, hnext.mem, rfl, hnext.source ▸ List.mem_cons_self⟩
    · rcases ih rfl hx with rfl | ⟨row', hrow', hlink, hsource⟩
      · exact .inl rfl
      · exact .inr ⟨row', hrow', hlink, List.mem_cons_of_mem _ hsource⟩

theorem Chain.to_eq_genesis (hd : DistinctSuccessors S) (h : Chain cr S genesis (l :: chain))
    (hrow : row ∈ S) (hsource : row.body.fromIdentityId = l.1)
    (hseen : row.body.toIdentityId ∈ (l :: chain).map (·.1)) :
    row.body.toIdentityId = genesis.1 := by
  obtain ⟨x, hx, hxid⟩ := List.mem_map.mp hseen
  rcases h.row_of_mem hx with rfl | ⟨row', hrow', rfl, hbefore⟩
  · exact hxid.symm
  · -- the row that reached it leaves a link before the head
    rw [← hd row' hrow' row hrow hxid] at hsource
    have hmem : l.1 ∈ chain.map (·.1) := hsource ▸ hbefore
    exact absurd hmem (List.nodup_cons.mp h.nodup).1

/-! ### Keys and signed rows -/

/-- The key of an identity: the genesis's own, or that of the row that leads to it. -/
def Known (W : Set TransitionRow) (genesis l : Link) : Prop :=
  l = genesis ∨ l.1 ≠ genesis.1 ∧ ∃ row ∈ W, row.link = l

/-- A row that its predecessor's key signed, and its successor's. -/
def Signed (cr : IdentityCrypto) (W : Set TransitionRow) (genesis : Link) (row : TransitionRow) :
    Prop :=
  ∃ l, Known W genesis l ∧ l.1 = row.body.fromIdentityId ∧
    verifyIdentityTransition cr row.body l.2 row.sigs

variable {W : Set TransitionRow}

theorem Known.unique (hd : DistinctSuccessors W) {l' : Link} (h : Known W genesis l)
    (h' : Known W genesis l') (heq : l.1 = l'.1) : l = l' := by
  rcases h with rfl | ⟨hne, row, hrow, rfl⟩
  · rcases h' with rfl | ⟨hne', -⟩
    · rfl
    · exact absurd heq.symm hne'
  · rcases h' with rfl | ⟨-, row', hrow', rfl⟩
    · exact absurd heq hne
    · rw [hd row hrow row' hrow' heq]

theorem Known.signed_iff (hd : DistinctSuccessors W) (h : Known W genesis l)
    (hsource : row.body.fromIdentityId = l.1) :
    Signed cr W genesis row ↔ verifyIdentityTransition cr row.body l.2 row.sigs := by
  constructor
  · rintro ⟨l', hl', hid, hv⟩
    rwa [h.unique hd hl' (hid.trans hsource).symm]
  · exact fun hv => ⟨l, h, hsource.symm, hv⟩

theorem Chain.known (hSW : S ⊆ W) (h : Chain cr S genesis chain) :
    ∀ x ∈ chain, Known W genesis x := by
  induction h with
  | genesis => exact fun x hx => .inl (List.mem_singleton.mp hx)
  | @next l chain row h hnext _ ih =>
    intro x hx
    rcases List.mem_cons.mp hx with rfl | hx
    · refine .inr ⟨fun heq => hnext.fresh ?_, row, hSW hnext.mem, rfl⟩
      exact List.mem_map.mpr ⟨genesis, h.genesis_mem, heq.symm⟩
    · exact ih x hx

/-- The chain of the signed rows is the chain: no other row is ever followed. -/
theorem FullChain.signed (hd : DistinctSuccessors W) (hSW : S ⊆ W)
    (h : FullChain cr S genesis chain) :
    FullChain cr {row ∈ S | Signed cr W genesis row} genesis chain := by
  have hnext : ∀ {c : List Link} {l : Link} {row : TransitionRow}, Known W genesis l →
      (IsNext cr {row ∈ S | Signed cr W genesis row} c l row ↔ IsNext cr S c l row) := by
    intro c l row hl
    exact ⟨fun h => ⟨h.mem.1, h.source, h.verifies, h.fresh⟩, fun h =>
      ⟨⟨h.mem, (hl.signed_iff hd h.source).mpr h.verifies⟩, h.source, h.verifies, h.fresh⟩⟩
  constructor
  · obtain ⟨h, -⟩ := h
    induction h with
    | genesis => exact .genesis
    | next h hn hmax ih =>
      have hl := h.known hSW _ List.mem_cons_self
      exact ih.next ((hnext hl).mpr hn) fun row' hrow' => hmax row' ((hnext hl).mp hrow')
  · intro l row hl hn
    refine h.2 l row hl ((hnext (h.1.known hSW l ?_)).mp hn)
    exact List.mem_of_mem_head? hl

namespace Transitions

/-! ### The rows of one predecessor -/

instance : Std.Total fun a b : TransitionRow => b.rank ≤ a.rank :=
  ⟨fun a b => le_total b.rank a.rank⟩

instance : IsTrans TransitionRow fun a b => b.rank ≤ a.rank := ⟨fun _ _ _ h h' => h'.trans h⟩

/-- Every row is filed under its successor. -/
def Keyed (t : Transitions) : Prop :=
  ∀ k row, t.find k = some row → row.body.toIdentityId = k

theorem mem_siblings {source : IdentityId} :
    row ∈ t.siblings source ↔ (∃ k, t.find k = some row) ∧ row.body.fromIdentityId = source := by
  simp only [siblings, List.mem_insertionSort, List.mem_filter, List.mem_map, decide_eq_true_eq]
  refine and_congr_left fun _ => ⟨?_, ?_⟩
  · rintro ⟨r, hr, rfl⟩
    exact ⟨r.1, Table.mem_rows.mp hr⟩
  · rintro ⟨k, hk⟩
    exact ⟨(k, row), Table.mem_rows.mpr hk, rfl⟩

theorem Keyed.mem_siblings (hk : t.Keyed) {source : IdentityId} : row ∈ t.siblings source ↔
    t.find row.body.toIdentityId = some row ∧ row.body.fromIdentityId = source := by
  rw [Transitions.mem_siblings]
  refine and_congr_left fun _ => ⟨?_, fun h => ⟨_, h⟩⟩
  rintro ⟨k, h⟩
  rwa [hk k row h]

theorem siblings_sorted (t : Transitions) (source : IdentityId) :
    (t.siblings source).Pairwise fun a b => b.rank ≤ a.rank :=
  List.pairwise_insertionSort _ _

theorem Keyed.siblings_nodup (hk : t.Keyed) (source : IdentityId) :
    ((t.siblings source).map (·.body.toIdentityId)).Nodup := by
  have hperm : ((t.siblings source).map (·.body.toIdentityId)).Perm _ :=
    (List.perm_insertionSort _ _).map _
  refine hperm.nodup_iff.mpr (List.Nodup.sublist (List.filter_sublist.map _) ?_)
  rw [List.map_map]
  have hkeys : t.rows.map ((·.body.toIdentityId) ∘ (·.2)) = t.rows.map (·.1) :=
    List.map_congr_left fun r hr => hk r.1 r.2 (Table.mem_rows.mp hr)
  rw [hkeys]
  exact List.Pairwise.map _ (fun a b h => ne_of_lt h) t.sorted

theorem find?_siblings {L : List TransitionRow} {p : TransitionRow → Bool}
    (hsorted : L.Pairwise fun a b => b.rank ≤ a.rank) (h : L.find? p = some row) :
    row ∈ L ∧ p row ∧ ∀ row' ∈ L, p row' → row'.rank ≤ row.rank := by
  obtain ⟨hp, as, bs, rfl, has⟩ := List.find?_eq_some_iff_append.mp h
  refine ⟨by simp, hp, fun row' hrow' hp' => ?_⟩
  rcases List.mem_append.mp hrow' with hrow' | hrow'
  · have := has row' hrow'
    simp [hp'] at this
  · rcases List.mem_cons.mp hrow' with rfl | hrow'
    · exact le_rfl
    · exact (List.pairwise_cons.mp (List.pairwise_append.mp hsorted).2.1).1 row' hrow'

/-- The successors a predecessor's rows lead to. -/
def siblingIds (t : Transitions) (source : IdentityId) : Finset IdentityId :=
  ((t.siblings source).map (·.body.toIdentityId)).toFinset

theorem Keyed.mem_siblingIds (hk : t.Keyed) {source k : IdentityId} :
    k ∈ t.siblingIds source ↔ ∃ row, t.find k = some row ∧ row.body.fromIdentityId = source := by
  simp only [siblingIds, List.mem_toFinset, List.mem_map, hk.mem_siblings]
  constructor
  · rintro ⟨row, ⟨hf, hs⟩, rfl⟩
    exact ⟨row, hf, hs⟩
  · rintro ⟨row, hf, hs⟩
    exact ⟨row, ⟨(hk k row hf).symm ▸ hf, hs⟩, hk k row hf⟩

theorem Keyed.card_siblingIds (hk : t.Keyed) (source : IdentityId) :
    (t.siblingIds source).card = (t.siblings source).length := by
  rw [siblingIds, List.toFinset_card_of_nodup (hk.siblings_nodup source), List.length_map]

/-! ### Admission -/

/-- The row that a row arriving under a full predecessor costs: the weakest, or itself. -/
def dropped (t : Transitions) (row : TransitionRow) : Option TransitionRow :=
  if (t.others row.body.fromIdentityId row.rank).length < maxSiblings then none
  else match (t.others row.body.fromIdentityId row.rank)[maxSiblings - 1]? with
    | none => some row
    | some weakest => if row.rank ≤ weakest.rank then some row else some weakest

/-- What admitting a row does: there is place, or the row is the weakest, or the weakest
goes. -/
theorem admitSibling_cases (hrank : row.rank.toIdentityId = row.body.toIdentityId)
    (hfew : (t.siblings row.body.fromIdentityId).length ≤ maxSiblings) :
    (t.admitSibling row.body.fromIdentityId row.rank = some t ∧ t.dropped row = none ∧
      (t.others row.body.fromIdentityId row.rank).length < maxSiblings) ∨
    ((t.siblings row.body.fromIdentityId).length = maxSiblings ∧
      (∀ row' ∈ t.siblings row.body.fromIdentityId,
        row'.body.toIdentityId ≠ row.body.toIdentityId) ∧
      ((t.admitSibling row.body.fromIdentityId row.rank = none ∧ t.dropped row = some row ∧
          ∀ row' ∈ t.siblings row.body.fromIdentityId, row.rank ≤ row'.rank) ∨
        ∃ w ∈ t.siblings row.body.fromIdentityId,
          t.admitSibling row.body.fromIdentityId row.rank =
            some (t.erase w.body.toIdentityId) ∧ t.dropped row = some w ∧ w.rank < row.rank ∧
          ∀ row' ∈ t.siblings row.body.fromIdentityId, w.rank ≤ row'.rank)) := by
  by_cases hlt : (t.others row.body.fromIdentityId row.rank).length < maxSiblings
  · exact .inl ⟨by rw [admitSibling, if_pos hlt], by rw [dropped, if_pos hlt], hlt⟩
  have hsub : List.Sublist (t.others row.body.fromIdentityId row.rank)
      (t.siblings row.body.fromIdentityId) := List.filter_sublist
  have heq := hsub.eq_of_length_le (by omega)
  have hlen : (t.siblings row.body.fromIdentityId).length = maxSiblings := by
    rw [heq] at hlt
    omega
  refine .inr ⟨hlen, fun row' hrow' => ?_, ?_⟩
  · rw [← heq] at hrow'
    exact hrank ▸ of_decide_eq_true (List.mem_filter.mp hrow').2
  have hpos : maxSiblings - 1 < (t.siblings row.body.fromIdentityId).length := by
    rw [hlen]
    decide
  -- the last of the sixteen is the weakest
  have hlast : ∀ row' ∈ t.siblings row.body.fromIdentityId,
      ((t.siblings row.body.fromIdentityId)[maxSiblings - 1]).rank ≤ row'.rank := by
    intro row' hrow'
    obtain ⟨i, hi, rfl⟩ := List.getElem_of_mem hrow'
    rcases Nat.lt_or_ge i (maxSiblings - 1) with h | h
    · exact List.pairwise_iff_getElem.mp (siblings_sorted t _) i _ hi hpos h
    · have : i = maxSiblings - 1 := by omega
      subst this
      exact le_rfl
  rw [admitSibling, dropped, if_neg hlt, if_neg hlt, heq, List.getElem?_eq_getElem hpos]
  dsimp only
  by_cases hle : row.rank ≤ ((t.siblings row.body.fromIdentityId)[maxSiblings - 1]).rank
  · rw [if_pos hle, if_pos hle]
    exact .inl ⟨rfl, rfl, fun row' hrow' => hle.trans (hlast row' hrow')⟩
  · rw [if_neg hle, if_neg hle]
    exact .inr ⟨_, List.getElem_mem hpos, rfl, rfl, not_le.mp hle, hlast⟩

/-! ### What a table holds -/

/-- The table holds rows it was given, at most sixteen of each predecessor; and a signed
row it was given and does not hold lies below sixteen signed ones. -/
structure Keeps (cr : IdentityCrypto) (W S : Set TransitionRow) (genesis : Link)
    (t : Transitions) : Prop where
  keyed : t.Keyed
  given : ∀ k row, t.find k = some row → row ∈ S
  few : ∀ source, (t.siblings source).length ≤ maxSiblings
  kept : ∀ row ∈ S, Signed cr W genesis row → t.find row.body.toIdentityId = some row ∨
    (t.siblings row.body.fromIdentityId).length = maxSiblings ∧
      ∀ row' ∈ t.siblings row.body.fromIdentityId,
        Signed cr W genesis row' ∧ row.rank < row'.rank

theorem Keeps.mono_given {S' : Set TransitionRow} (h : t.Keeps cr W S genesis) (hS : S ⊆ S')
    (hnew : ∀ row ∈ S', row ∉ S → ¬ Signed cr W genesis row) : t.Keeps cr W S' genesis where
  keyed := h.keyed
  given k row hf := hS (h.given k row hf)
  few := h.few
  kept row hrow hs := h.kept row (by
    by_contra hn
    exact hnew row hrow hn hs) hs

theorem Keeps.filter (h : t.Keeps cr W S genesis) {p : IdentityId → TransitionRow → Bool}
    (hp : ∀ k row, t.find k = some row → p k row = false → ¬ Signed cr W genesis row) :
    Keeps cr W S genesis (t.filter p) := by
  have hfind : ∀ {k row}, (t.filter p).find k = some row → t.find k = some row := fun hf =>
    (Table.find_filter_eq_some.mp hf).1
  have hkeyed : Keyed (t.filter p) := fun k row hf => h.keyed k row (hfind hf)
  have hids : ∀ source, siblingIds (t.filter p) source ⊆ t.siblingIds source := by
    intro source k hk
    obtain ⟨row, hf, hs⟩ := hkeyed.mem_siblingIds.mp hk
    exact h.keyed.mem_siblingIds.mpr ⟨row, hfind hf, hs⟩
  have hstay : ∀ {k row}, t.find k = some row → Signed cr W genesis row →
      (t.filter p).find k = some row := by
    intro k row hf hs
    refine Table.find_filter_eq_some.mpr ⟨hf, ?_⟩
    by_contra hn
    exact hp k row hf (by simpa using hn) hs
  refine ⟨hkeyed, fun k row hf => h.given k row (hfind hf), fun source => ?_,
    fun row hrow hs => ?_⟩
  · rw [← hkeyed.card_siblingIds]
    exact (Finset.card_le_card (hids source)).trans (h.keyed.card_siblingIds source ▸ h.few source)
  · rcases h.kept row hrow hs with hf | ⟨hlen, hall⟩
    · exact .inl (hstay hf hs)
    · refine .inr ⟨?_, fun row' hrow' => hall row' ?_⟩
      · -- all sixteen are signed, so none is deleted
        rw [← hkeyed.card_siblingIds, ← hlen, ← h.keyed.card_siblingIds]
        refine congrArg Finset.card (Finset.Subset.antisymm (hids _) fun k hk => ?_)
        obtain ⟨row', hf, hsource⟩ := h.keyed.mem_siblingIds.mp hk
        have hs' := (hall row' (mem_siblings.mpr ⟨⟨k, hf⟩, hsource⟩)).1
        exact hkeyed.mem_siblingIds.mpr ⟨row', hstay hf hs', hsource⟩
      · obtain ⟨⟨k, hf⟩, hsource⟩ := mem_siblings.mp hrow'
        exact mem_siblings.mpr ⟨⟨k, hfind hf⟩, hsource⟩

/-! ### One row -/

section

variable (hk : t.Keyed)
include hk

theorem Keyed.upsert (row : TransitionRow) :
    Keyed (t.upsert row.body.toIdentityId row) := by
  intro k r hf
  rw [find_upsert] at hf
  split at hf
  next heq => rw [← Option.some.inj hf, heq]
  next => exact hk k r hf

theorem Keyed.erase (k : IdentityId) : Keyed (t.erase k) :=
  fun k' r hf => hk k' r (Table.find_filter_eq_some.mp hf).1

theorem Keyed.mem_siblings_upsert (hnone : t.find row.body.toIdentityId = none)
    {source : IdentityId} : row' ∈ siblings (t.upsert row.body.toIdentityId row) source ↔
      (row' = row ∧ row.body.fromIdentityId = source) ∨ row' ∈ t.siblings source := by
  rw [(hk.upsert row).mem_siblings, hk.mem_siblings, find_upsert]
  by_cases h : row'.body.toIdentityId = row.body.toIdentityId
  · rw [if_pos h, h, hnone]
    constructor
    · rintro ⟨heq, hs⟩
      obtain rfl := Option.some.inj heq
      exact .inl ⟨rfl, hs⟩
    · rintro (⟨rfl, hs⟩ | ⟨hf, -⟩)
      · exact ⟨rfl, hs⟩
      · simp at hf
  · rw [if_neg h]
    constructor
    · exact .inr
    · rintro (⟨rfl, -⟩ | h')
      · exact absurd rfl h
      · exact h'

theorem Keyed.mem_siblings_erase {k source : IdentityId} :
    row' ∈ siblings (t.erase k) source ↔
      row' ∈ t.siblings source ∧ row'.body.toIdentityId ≠ k := by
  rw [(hk.erase k).mem_siblings, hk.mem_siblings, find_erase]
  by_cases h : row'.body.toIdentityId = k
  · simp [h]
  · simp [h]

theorem Keyed.length_siblings_upsert (hnone : t.find row.body.toIdentityId = none)
    (source : IdentityId) : (siblings (t.upsert row.body.toIdentityId row) source).length =
      (t.siblings source).length + if row.body.fromIdentityId = source then 1 else 0 := by
  rw [← (hk.upsert row).card_siblingIds, ← hk.card_siblingIds]
  have hmem : ∀ k, k ∈ siblingIds (t.upsert row.body.toIdentityId row) source ↔
      (k = row.body.toIdentityId ∧ row.body.fromIdentityId = source) ∨
        k ∈ t.siblingIds source := by
    intro k
    simp only [siblingIds, List.mem_toFinset, List.mem_map, hk.mem_siblings_upsert hnone]
    constructor
    · rintro ⟨r, ⟨rfl, hs⟩ | hr, rfl⟩
      · exact .inl ⟨rfl, hs⟩
      · exact .inr ⟨r, hr, rfl⟩
    · rintro (⟨rfl, hs⟩ | ⟨r, hr, rfl⟩)
      · exact ⟨row, .inl ⟨rfl, hs⟩, rfl⟩
      · exact ⟨r, .inr hr, rfl⟩
  have hnot : row.body.toIdentityId ∉ t.siblingIds source := fun h => by
    obtain ⟨r, hf, -⟩ := hk.mem_siblingIds.mp h
    rw [hnone] at hf
    simp at hf
  split
  next hs =>
    rw [← Finset.card_insert_of_notMem hnot]
    congr 1
    ext k
    rw [hmem, Finset.mem_insert, and_iff_left hs]
  next hs =>
    rw [Nat.add_zero]
    congr 1
    ext k
    simp [hmem, hs]

theorem Keyed.length_siblings_erase {w : TransitionRow} {source : IdentityId}
    (hw : w ∈ t.siblings w.body.fromIdentityId) :
    (siblings (t.erase w.body.toIdentityId) source).length =
      (t.siblings source).length - if w.body.fromIdentityId = source then 1 else 0 := by
  rw [← (hk.erase _).card_siblingIds, ← hk.card_siblingIds]
  have hmem : siblingIds (t.erase w.body.toIdentityId) source =
      (t.siblingIds source).erase w.body.toIdentityId := by
    ext k
    simp only [siblingIds, List.mem_toFinset, List.mem_map, hk.mem_siblings_erase,
      Finset.mem_erase]
    constructor
    · rintro ⟨r, ⟨hr, hne⟩, rfl⟩
      exact ⟨hne, r, hr, rfl⟩
    · rintro ⟨hne, r, hr, rfl⟩
      exact ⟨r, ⟨hr, hne⟩, rfl⟩
  rw [hmem]
  have hwf := (hk.mem_siblings.mp hw).1
  split
  next hs =>
    exact Finset.card_erase_of_mem (hk.mem_siblingIds.mpr ⟨w, hwf, hs⟩)
  next hs =>
    rw [Finset.erase_eq_of_notMem, Nat.sub_zero]
    intro h
    obtain ⟨r, hf, hs'⟩ := hk.mem_siblingIds.mp h
    rw [hwf, Option.some.injEq] at hf
    exact hs (hf ▸ hs')

end

theorem Keeps.find_eq_none (h : t.Keeps cr W S genesis) (hd : DistinctSuccessors W) (hSW : S ⊆ W)
    (hrow : row ∈ W) (hnot : row ∉ t.siblings row.body.fromIdentityId) :
    t.find row.body.toIdentityId = none := by
  by_contra hsome
  obtain ⟨r, hr⟩ := Option.ne_none_iff_exists'.mp hsome
  obtain rfl := hd r (hSW (h.given _ r hr)) row hrow (h.keyed _ r hr)
  exact hnot (mem_siblings.mpr ⟨⟨_, hr⟩, rfl⟩)

theorem Keeps.upsert (h : t.Keeps cr W S genesis)
    (hnone : t.find row.body.toIdentityId = none)
    (hroom : (t.siblings row.body.fromIdentityId).length < maxSiblings) :
    Keeps cr W (insert row S) genesis (t.upsert row.body.toIdentityId row) := by
  refine ⟨h.keyed.upsert row, fun k r hf => ?_, fun source => ?_, fun r hr hs => ?_⟩
  · rw [find_upsert] at hf
    split at hf
    · exact .inl (Option.some.inj hf).symm
    · exact .inr (h.given k r hf)
  · rw [h.keyed.length_siblings_upsert hnone]
    split
    next heq => exact heq ▸ hroom
    next => exact h.few source
  · rcases hr with rfl | hr
    · exact .inl (find_upsert_self _ _ _)
    · rcases h.kept r hr hs with hf | ⟨hlen, hall⟩
      · left
        rw [find_upsert_of_ne _ _ fun heq => ?_, hf]
        rw [heq, hnone] at hf
        simp at hf
      · have hne : row.body.fromIdentityId ≠ r.body.fromIdentityId := fun heq => by
          rw [heq] at hroom
          omega
        refine .inr ⟨?_, fun r' hr' => hall r' ?_⟩
        · rw [h.keyed.length_siblings_upsert hnone, if_neg hne, hlen, Nat.add_zero]
        · exact ((h.keyed.mem_siblings_upsert hnone).mp hr').resolve_left fun hc => hne hc.2

/-- **Admitting a row keeps the invariant**, where a signed row is dropped only for signed
ones. -/
theorem Keeps.place (h : t.Keeps cr W S genesis) (hd : DistinctSuccessors W) (hr : Ranked W)
    (hSW : S ⊆ W) (hrow : row ∈ W)
    (hfair : ∀ d, t.dropped row = some d → Signed cr W genesis d →
      ∀ r, r = row ∨ r ∈ t.siblings row.body.fromIdentityId → r ≠ d → Signed cr W genesis r) :
    match t.admitSibling row.body.fromIdentityId row.rank with
    | none => t.Keeps cr W (insert row S) genesis
    | some t' => Keeps cr W (insert row S) genesis
        (t'.insertOrIgnore row.body.toIdentityId row) := by
  have hins : ∀ {t : Transitions}, t.find row.body.toIdentityId = none →
      t.insertOrIgnore row.body.toIdentityId row = t.upsert row.body.toIdentityId row := by
    intro t hn
    unfold insertOrIgnore
    rw [hn]
  have hlt : ∀ r ∈ t.siblings row.body.fromIdentityId, r ≠ row → r.rank ≠ row.rank :=
    fun r hr' hne heq => by
      obtain ⟨⟨k, hf⟩, -⟩ := mem_siblings.mp hr'
      exact hne (eq_of_rank_eq hd hr (hSW (h.given k r hf)) hrow heq)
  rcases admitSibling_cases (hr row hrow) (h.few _) with
    ⟨htakes, -, hroom⟩ | ⟨hlen, hne, ⟨htakes, hdrop, hweak⟩ | ⟨w, hw, htakes, hdrop, hwlt, hmin⟩⟩
  · rw [htakes]
    dsimp only
    by_cases hmem : row ∈ t.siblings row.body.fromIdentityId
    · -- a redelivery
      have hf := (h.keyed.mem_siblings.mp hmem).1
      have hsame : t.insertOrIgnore row.body.toIdentityId row = t := by
        unfold insertOrIgnore
        rw [hf]
      rw [hsame, Set.insert_eq_of_mem (h.given _ _ hf)]
      exact h
    · have hnone := h.find_eq_none hd hSW hrow hmem
      rw [hins hnone]
      refine h.upsert hnone (lt_of_le_of_lt (le_of_eq ?_) hroom)
      rw [others, List.filter_eq_self.mpr]
      intro r hr'
      rw [decide_eq_true_eq, hr row hrow]
      intro heq
      have := (h.keyed.mem_siblings.mp hr').1
      rw [heq, hnone] at this
      simp at this
  · rw [htakes]
    refine ⟨h.keyed, fun k r hf => .inr (h.given k r hf), h.few, fun r hr' hs => ?_⟩
    rcases hr' with rfl | hr'
    · refine .inr ⟨hlen, fun r' hr' => ?_⟩
      have hne' : r' ≠ r := fun heq => hne r' hr' (by rw [heq])
      exact ⟨hfair r hdrop hs r' (.inr hr') hne',
        lt_of_le_of_ne (hweak r' hr') (hlt r' hr' hne').symm⟩
    · exact h.kept r hr' hs
  · rw [htakes]
    dsimp only
    have hwsource : w.body.fromIdentityId = row.body.fromIdentityId := (mem_siblings.mp hw).2
    have hwmem : w ∈ t.siblings w.body.fromIdentityId := hwsource ▸ hw
    have hwf := (h.keyed.mem_siblings.mp hw).1
    have hnotin : row ∉ t.siblings row.body.fromIdentityId := fun hin => hne row hin rfl
    have hnone := h.find_eq_none hd hSW hrow hnotin
    have hnone' : Table.find (t.erase w.body.toIdentityId) row.body.toIdentityId = none := by
      rw [find_erase]
      split
      · rfl
      · exact hnone
    have hk' := h.keyed.erase w.body.toIdentityId
    rw [hins hnone']
    have hlen' : ∀ source, (siblings ((t.erase w.body.toIdentityId).upsert
        row.body.toIdentityId row) source).length = (t.siblings source).length := by
      intro source
      rw [hk'.length_siblings_upsert hnone', h.keyed.length_siblings_erase hwmem, hwsource]
      split
      next heq =>
        rw [← heq, hlen]
        decide
      next => omega
    have hmem' : ∀ {r source}, r ∈ siblings ((t.erase w.body.toIdentityId).upsert
        row.body.toIdentityId row) source → (r = row ∧ row.body.fromIdentityId = source) ∨
          r ∈ t.siblings source ∧ r.body.toIdentityId ≠ w.body.toIdentityId := fun hr' =>
      ((hk'.mem_siblings_upsert hnone').mp hr').imp_right h.keyed.mem_siblings_erase.mp
    refine ⟨hk'.upsert row, fun k r hf => ?_, fun source => hlen' source ▸ h.few source,
      fun r hr' hs => ?_⟩
    · rw [find_upsert] at hf
      split at hf
      · exact .inl (Option.some.inj hf).symm
      · exact .inr (h.given k r (Table.find_filter_eq_some.mp hf).1)
    · rcases hr' with rfl | hr'
      · exact .inl (find_upsert_self _ _ _)
      · by_cases hrw : r = w
        · -- the dropped row: the fifteen others and the new one are signed and over it
          subst hrw
          refine .inr ⟨hlen' _ ▸ hwsource ▸ hlen, fun r' hr'' => ?_⟩
          rw [hwsource] at hr''
          rcases hmem' hr'' with ⟨rfl, -⟩ | ⟨hr'', hne'⟩
          · exact ⟨hfair r hdrop hs r' (.inl rfl) (fun heq => hne r hw (by rw [heq])), hwlt⟩
          · have hne'' : r' ≠ r := fun heq => hne' (by rw [heq])
            refine ⟨hfair r hdrop hs r' (.inr hr'') hne'', lt_of_le_of_ne (hmin r' hr'') ?_⟩
            intro heq
            obtain ⟨⟨k, hf⟩, -⟩ := mem_siblings.mp hr''
            exact hne'' (eq_of_rank_eq hd hr (hSW (h.given k r' hf))
              (hSW (h.given _ r hwf)) heq.symm)
        · rcases h.kept r hr' hs with hf | ⟨hlenr, hall⟩
          · left
            rw [find_upsert_of_ne _ _ fun heq => ?_, find_erase, if_neg fun heq => ?_,
              hf]
            · rw [heq, hwf, Option.some.injEq] at hf
              exact hrw hf.symm
            · rw [heq, hnone] at hf
              simp at hf
          · refine .inr ⟨hlen' _ ▸ hlenr, fun r' hr'' => ?_⟩
            rcases hmem' hr'' with ⟨rfl, hsource⟩ | ⟨hr'', -⟩
            · have hwr := hall w (hsource ▸ hw)
              exact ⟨hfair w hdrop hwr.1 r' (.inl rfl) (fun heq => hne w hw (by rw [heq])),
                hwr.2.trans hwlt⟩
            · exact hall r' hr''

/-! ### The walk -/

section

variable (h : t.Keeps cr W S genesis) (hd : DistinctSuccessors W) (hSW : S ⊆ W)
  (hc : Chain cr S genesis (l :: chain))
include h hd hSW hc

theorem Keeps.exists_isNext (hn : IsNext cr S (l :: chain) l row) :
    ∃ row' ∈ t.siblings l.1, IsNext cr S (l :: chain) l row' ∧ row.rank ≤ row'.rank := by
  have hl : Known W genesis l := hc.known hSW l List.mem_cons_self
  rcases h.kept row hn.mem ((hl.signed_iff hd hn.source).mpr hn.verifies) with hf | ⟨hlen, hall⟩
  · exact ⟨row, mem_siblings.mpr ⟨⟨_, hf⟩, hn.source⟩, hn, le_rfl⟩
  rw [hn.source] at hlen hall
  -- sixteen rows have sixteen successors, so one of them does not lead back to the genesis
  obtain ⟨k, hk, hkg⟩ : ∃ k ∈ t.siblingIds l.1, k ≠ genesis.1 := by
    refine Finset.exists_mem_ne ?_ genesis.1
    rw [h.keyed.card_siblingIds, hlen]
    decide
  obtain ⟨row', hf, hsource⟩ := h.keyed.mem_siblingIds.mp hk
  have hmem : row' ∈ t.siblings l.1 := mem_siblings.mpr ⟨⟨k, hf⟩, hsource⟩
  refine ⟨row', hmem, ⟨h.given k row' hf, hsource,
    (hl.signed_iff hd hsource).mp (hall row' hmem).1, fun hseen => hkg ?_⟩, (hall row' hmem).2.le⟩
  rw [← h.keyed k row' hf]
  exact hc.to_eq_genesis (fun r hr' r' hr'' => hd r (hSW hr') r' (hSW hr''))
    (h.given k row' hf) hsource hseen

/-- **One step of the walk**: the greatest verifying successor over every row given. -/
theorem Keeps.nextRow :
    match t.nextRow cr ((l :: chain).map (·.1)) l with
    | some row => (IsNext cr S (l :: chain) l row ∧
        ∀ row', IsNext cr S (l :: chain) l row' → row'.rank ≤ row.rank) ∧
          t.find row.body.toIdentityId = some row
    | none => ∀ row', ¬ IsNext cr S (l :: chain) l row' := by
  have htake : (t.siblings l.1).take maxSiblings = t.siblings l.1 :=
    List.take_of_length_le (h.few l.1)
  have hpass : ∀ {r : TransitionRow}, r ∈ t.siblings l.1 →
      ((decide (r.body.toIdentityId ∉ (l :: chain).map (·.1)) &&
        verifyIdentityTransition cr r.body l.2 r.sigs) = true ↔
          IsNext cr S (l :: chain) l r) := by
    intro r hr
    rw [Bool.and_eq_true, decide_eq_true_eq]
    obtain ⟨⟨k, hf⟩, hsource⟩ := mem_siblings.mp hr
    exact ⟨fun hp => ⟨h.given k r hf, hsource, hp.2, hp.1⟩, fun hn => ⟨hn.fresh, hn.verifies⟩⟩
  unfold Transitions.nextRow
  rw [htake]
  split
  next row hfind =>
    obtain ⟨hmem, hp, hmax⟩ := find?_siblings (siblings_sorted t l.1) hfind
    refine ⟨⟨(hpass hmem).mp hp, fun row' hn => ?_⟩, (h.keyed.mem_siblings.mp hmem).1⟩
    obtain ⟨r, hr, hrn, hle⟩ := h.exists_isNext hd hSW hc hn
    exact hle.trans (hmax r hr ((hpass hr).mpr hrn))
  next hfind =>
    intro row' hn
    obtain ⟨r, hr, hrn, -⟩ := h.exists_isNext hd hSW hc hn
    exact List.find?_eq_none.mp hfind r hr ((hpass hr).mpr hrn)

end

theorem walk_of_nextRow {l : Link} {rest : List Link} {row : TransitionRow}
    (h : t.nextRow cr ((l :: rest).map (·.1)) l = some row) (fuel : ℕ) :
    t.walk cr (fuel + 1) (l :: rest) = t.walk cr fuel (row.link :: l :: rest) := by
  rw [walk, h]

theorem walk_of_no_nextRow {l : Link} {rest : List Link}
    (h : t.nextRow cr ((l :: rest).map (·.1)) l = none) (fuel : ℕ) :
    t.walk cr (fuel + 1) (l :: rest) = l :: rest := by
  rw [walk, h]

/-- The walk extends a chain, as far as its fuel goes, by rows of the table. -/
theorem Keeps.walk (h : t.Keeps cr W S genesis) (hd : DistinctSuccessors W) (hSW : S ⊆ W)
    (fuel : ℕ) (hc : Chain cr S genesis chain)
    (hin : ∀ x ∈ chain, x ≠ genesis → (t.find x.1).isSome) :
    Chain cr S genesis (t.walk cr fuel chain) ∧
      (∀ x ∈ t.walk cr fuel chain, x ≠ genesis → (t.find x.1).isSome) ∧
      ((∀ l row, (t.walk cr fuel chain).head? = some l →
        ¬ IsNext cr S (t.walk cr fuel chain) l row) ∨
          (t.walk cr fuel chain).length = chain.length + fuel) := by
  induction fuel generalizing chain with
  | zero =>
    rw [show t.walk cr 0 chain = chain by unfold walk; rfl]
    exact ⟨hc, hin, .inr rfl⟩
  | succ fuel ih =>
    obtain ⟨l, rest, rfl⟩ := List.exists_cons_of_ne_nil hc.ne_nil
    have hnext := h.nextRow hd hSW hc
    split at hnext
    next row hrow =>
      rw [walk_of_nextRow hrow]
      obtain ⟨hc', hin', hstop⟩ := ih (hc.next hnext.1.1 hnext.1.2) (by
        intro x hx hne
        rcases List.mem_cons.mp hx with rfl | hx
        · exact Option.isSome_iff_exists.mpr ⟨row, hnext.2⟩
        · exact hin x hx hne)
      refine ⟨hc', hin', hstop.imp_right fun hlen => ?_⟩
      rw [hlen, List.length_cons]
      omega
    next hrow =>
      rw [walk_of_no_nextRow hrow]
      refine ⟨hc, hin, .inl fun l' row hl' => ?_⟩
      obtain rfl := Option.some.inj hl'
      exact hnext row

/-- **The walk over a table is the chain over every row it was given.** -/
theorem Keeps.fullChain (h : t.Keeps cr W S genesis) (hd : DistinctSuccessors W) (hSW : S ⊆ W) :
    FullChain cr S genesis (t.chainIdentities cr genesis) := by
  obtain ⟨hc, hin, hstop⟩ := h.walk hd hSW t.rows.length (.genesis : Chain cr S genesis [genesis])
    (fun x hx hne => absurd (List.mem_singleton.mp hx) hne)
  refine ⟨hc, ?_⟩
  rcases hstop with hstop | hlen
  · exact hstop
  -- out of fuel the chain has a link for each row, so a further successor has none
  intro l row hl hn
  obtain ⟨rest, hrest⟩ : ∃ rest, t.walk cr t.rows.length [genesis] = l :: rest := by
    obtain ⟨l', rest, heq⟩ := List.exists_cons_of_ne_nil hc.ne_nil
    unfold chainIdentities at hl
    rw [heq, List.head?_cons, Option.some.injEq] at hl
    exact ⟨rest, hl ▸ heq⟩
  unfold chainIdentities at hn
  rw [hrest] at hc hin hlen hn
  obtain ⟨row', hmem, hn', -⟩ := h.exists_isNext hd hSW hc hn
  have hsub : insert row'.body.toIdentityId
      (((l :: rest).map (·.1)).toFinset.erase genesis.1) ⊆ (t.rows.map (·.1)).toFinset := by
    intro k hk
    have hkey : (t.find k).isSome → k ∈ (t.rows.map (·.1)).toFinset := by
      intro hs
      obtain ⟨r, hr⟩ := Option.isSome_iff_exists.mp hs
      exact List.mem_toFinset.mpr (List.mem_map.mpr ⟨(k, r), Table.mem_rows.mpr hr, rfl⟩)
    rcases Finset.mem_insert.mp hk with rfl | hk
    · exact hkey (Option.isSome_iff_exists.mpr ⟨row', (h.keyed.mem_siblings.mp hmem).1⟩)
    · obtain ⟨hne, hk⟩ := Finset.mem_erase.mp hk
      obtain ⟨x, hx, rfl⟩ := List.mem_map.mp (List.mem_toFinset.mp hk)
      exact hkey (hin x hx fun heq => hne (by rw [heq]))
  have hfresh : row'.body.toIdentityId ∉ ((l :: rest).map (·.1)).toFinset.erase genesis.1 :=
    fun hk => hn'.fresh (List.mem_toFinset.mp (Finset.mem_of_mem_erase hk))
  have hg : genesis.1 ∈ ((l :: rest).map (·.1)).toFinset :=
    List.mem_toFinset.mpr (List.mem_map_of_mem hc.genesis_mem)
  have hcard := Finset.card_le_card hsub
  rw [Finset.card_insert_of_notMem hfresh, Finset.card_erase_of_mem hg,
    List.toFinset_card_of_nodup hc.nodup, List.length_map, hlen, List.length_singleton] at hcard
  have := (t.rows.map (·.1)).toFinset_card_le
  rw [List.length_map] at this
  omega

/-! ### One op -/

theorem Keeps.purge (h : t.Keeps cr W S genesis) (hd : DistinctSuccessors W)
    (hl : Known W genesis l) : Keeps cr W S genesis (t.purgeUnverifiableSiblings cr l) := by
  refine h.filter fun k row _ hp => ?_
  obtain ⟨hsource, hv⟩ := Bool.or_eq_false_iff.mp hp
  have hsource : row.body.fromIdentityId = l.1 := by simpa using hsource
  rw [hl.signed_iff hd hsource, hv]
  exact Bool.false_ne_true

theorem complete_of_find (h : t.find row.body.toIdentityId = some row) : t.complete row = t := by
  unfold complete
  rw [h]
  exact if_neg fun hc => hc.1 hc.2.1

theorem Keeps.establish (hd : DistinctSuccessors W) (hSW : S ⊆ W) (hrow : row ∈ W)
    {known : List Link}
    (h : Keeps cr W S genesis (t.insertOrIgnore row.body.toIdentityId row)) :
    Keeps cr W S genesis (t.establish cr genesis known row) := by
  have hfind : Table.find (t.insertOrIgnore row.body.toIdentityId row) row.body.toIdentityId =
      some row := by
    obtain ⟨r, hr⟩ : ∃ r, Table.find (t.insertOrIgnore row.body.toIdentityId row)
        row.body.toIdentityId = some r := by
      rw [Table.find_insertOrIgnore, if_pos rfl]
      exact ⟨_, rfl⟩
    rw [hr, hd r (hSW (h.given _ r hr)) row hrow (h.keyed _ r hr)]
  unfold Transitions.establish
  dsimp only
  rw [complete_of_find hfind]
  refine List.foldlRecOn (motive := fun t : Transitions => t.Keeps cr W S genesis) _ _ h
    fun t ht l hl => ht.purge hd ?_
  exact (h.fullChain hd hSW).1.known hSW l
    (List.mem_reverse.mp (List.mem_filter.mp hl).1)

/-- Where a row's predecessor is not on the chain, the cap drops a signed row only where
all the others are signed. -/
def Fair (cr : IdentityCrypto) (W : Set TransitionRow) (genesis : Link) (t : Transitions)
    (row : TransitionRow) : Prop :=
  (∀ l ∈ t.chainIdentities cr genesis, l.1 ≠ row.body.fromIdentityId) →
    ∀ d, t.dropped row = some d → Signed cr W genesis d →
      ∀ r, r = row ∨ r ∈ t.siblings row.body.fromIdentityId → r ≠ d → Signed cr W genesis r

/-- **One op keeps the invariant.** -/
theorem Keeps.record (h : t.Keeps cr W S genesis) (hd : DistinctSuccessors W) (hr : Ranked W)
    (hSW : S ⊆ W) (hrow : row ∈ W) (hfair : Fair cr W genesis t row) :
    Keeps cr W (insert row S) genesis (t.record cr genesis row).1 := by
  have hSW' : insert row S ⊆ W := Set.insert_subset hrow hSW
  have htakes : ∀ {t' : Transitions} (known : List Link), t'.Keeps cr W S genesis →
      (∀ d, t'.dropped row = some d → Signed cr W genesis d →
        ∀ r, r = row ∨ r ∈ t'.siblings row.body.fromIdentityId → r ≠ d →
          Signed cr W genesis r) →
      Keeps cr W (insert row S) genesis
        (match t'.admitSibling row.body.fromIdentityId row.rank with
        | none => (t', false)
        | some t'' => (t''.establish cr genesis known row, true)).1 := by
    intro t' known h' hf
    have hres := h'.place hd hr hSW hrow hf
    split at hres
    next => exact hres
    next => exact Keeps.establish hd hSW' hrow hres
  unfold Transitions.record
  dsimp only
  split
  next l hfind =>
    -- the chain has reached the predecessor: the row is checked, and so are the others
    have hmem := List.mem_of_find?_eq_some hfind
    have hid : l.1 = row.body.fromIdentityId := by simpa using List.find?_some hfind
    have hl : Known W genesis l := (h.fullChain hd hSW).1.known hSW l hmem
    split
    next hv =>
      refine htakes _ (h.purge hd hl) fun d _ _ r hr' _ => ?_
      rcases hr' with rfl | hr'
      · exact (hl.signed_iff hd hid.symm).mpr hv
      · obtain ⟨⟨k, hf⟩, hsource⟩ := mem_siblings.mp hr'
        have hp := (Table.find_filter_eq_some.mp hf).2
        rw [hl.signed_iff hd (hsource.trans hid.symm)]
        simpa [hsource, hid] using hp
    next hv =>
      refine h.mono_given (Set.subset_insert _ _) fun r hr' hns => ?_
      obtain rfl : r = row := hr'.resolve_right hns
      rw [hl.signed_iff hd hid.symm]
      exact hv
  next hfind =>
    refine htakes _ h (hfair fun l hl heq => ?_)
    have := List.find?_eq_none.mp hfind l hl
    simp [heq] at this

/-! ### Runs -/

def rowsOf (cr : IdentityCrypto) (ops : List TransitionOp) : Set TransitionRow :=
  {row | ∃ op ∈ ops, op.row cr = some row}

/-- The cap's condition at every op of a run. -/
def FairRun (cr : IdentityCrypto) (W : Set TransitionRow) (genesis : Link) :
    Transitions → List TransitionOp → Prop
  | _, [] => True
  | t, op :: ops => (∀ row, op.row cr = some row → Fair cr W genesis t row) ∧
      FairRun cr W genesis (t.apply cr genesis op) ops

def DistinctOps (ops : List TransitionOp) : Prop :=
  ∀ op ∈ ops, ∀ op' ∈ ops, op.payload.toIdentityId = op'.payload.toIdentityId → op = op'

instance (ops : List TransitionOp) : Decidable (DistinctOps ops) :=
  inferInstanceAs (Decidable (∀ op ∈ ops, ∀ op' ∈ ops, _ → op = op'))

theorem bodyOf_to {p : IdentityTransitionPayload} {body : IdentityTransitionBody}
    (h : bodyOf cr p = some body) : body.toIdentityId = p.toIdentityId := by
  unfold bodyOf at h
  split at h
  · simp at h
  · simp only [Option.bind_eq_bind, Option.bind_eq_some_iff] at h
    obtain ⟨_, -, _, -, h⟩ := h
    split at h
    · rw [← Option.some.inj h]
    · simp at h

theorem row_to {op : TransitionOp} (h : op.row cr = some row) :
    row.body.toIdentityId = op.payload.toIdentityId ∧
      row.rank.toIdentityId = row.body.toIdentityId := by
  obtain ⟨body, hb, rfl⟩ := Option.map_eq_some_iff.mp h
  exact ⟨bodyOf_to hb, (bodyOf_to hb).symm⟩

theorem ranked_rowsOf (ops : List TransitionOp) : Ranked (rowsOf cr ops) :=
  fun _ ⟨_, _, h⟩ => (row_to h).2

theorem distinctSuccessors_rowsOf {ops : List TransitionOp} (hd : DistinctOps ops) :
    DistinctSuccessors (rowsOf cr ops) := by
  rintro row ⟨op, hop, h⟩ row' ⟨op', hop', h'⟩ heq
  obtain rfl := hd op hop op' hop' (by rw [← (row_to h).1, ← (row_to h').1, heq])
  exact Option.some.inj (h.symm.trans h')

theorem rowsOf_mono {ops ops' : List TransitionOp} (h : ∀ op ∈ ops, op ∈ ops') :
    rowsOf cr ops ⊆ rowsOf cr ops' :=
  fun _ ⟨op, hop, hrow⟩ => ⟨op, h op hop, hrow⟩

theorem keeps_empty : Keeps cr W ∅ genesis ∅ where
  keyed k row h := by simp at h
  given k row h := by simp at h
  few source := by simp [siblings]
  kept row h := h.elim

theorem Keeps.applyAll (hd : DistinctSuccessors W) (hr : Ranked W) {ops : List TransitionOp}
    (h : t.Keeps cr W S genesis) (hSW : S ⊆ W) (hops : rowsOf cr ops ⊆ W)
    (hfair : FairRun cr W genesis t ops) :
    Keeps cr W (S ∪ rowsOf cr ops) genesis (ops.foldl (apply cr genesis) t) := by
  induction ops generalizing t S with
  | nil =>
    have : rowsOf cr [] = ∅ := by simp [rowsOf]
    rwa [this, Set.union_empty]
  | cons op ops ih =>
    have htail : rowsOf cr ops ⊆ W :=
      (rowsOf_mono fun o ho => List.mem_cons_of_mem _ ho).trans hops
    rw [List.foldl_cons]
    cases hrow : op.row cr with
    | none =>
      have hsame : apply cr genesis t op = t := by
        unfold apply
        rw [hrow]
      have hrows : rowsOf cr (op :: ops) = rowsOf cr ops := by
        ext row
        simp [rowsOf, hrow]
      rw [hsame, hrows]
      exact ih h hSW htail (hsame ▸ hfair.2)
    | some row =>
      have hstep : apply cr genesis t op = (t.record cr genesis row).1 := by
        unfold apply
        rw [hrow]
      have hrows : S ∪ rowsOf cr (op :: ops) = insert row S ∪ rowsOf cr ops := by
        ext r
        simp only [Set.mem_union, Set.mem_insert_iff, rowsOf, Set.mem_ofPred_eq, List.mem_cons,
          exists_eq_or_imp, hrow, Option.some.injEq, eq_comm (a := row)]
        tauto
      have hmem : row ∈ W := hops ⟨op, List.mem_cons_self, hrow⟩
      rw [hstep, hrows]
      exact ih (h.record hd hr hSW hmem (hfair.1 row hrow)) (Set.insert_subset hmem hSW) htail
        (hstep ▸ hfair.2)

/-- **The chain of a run.** Where the ops' successors are distinct and the cap is fair at
every op, the chain after a run, redeliveries included, is what following the greatest
verifying successor from the genesis gives, over every op of the run and over the signed
ones alone; and every such run of the same ops ends with the same chain. -/
theorem chainIdentities_applyAll (cr : IdentityCrypto) (genesis : Link)
    (all ops : List TransitionOp) (hd : DistinctOps all) (hops : ∀ op ∈ ops, op ∈ all)
    (hfair : FairRun cr (rowsOf cr all) genesis ∅ ops) :
    let chain := (applyAll cr genesis ops).chainIdentities cr genesis
    FullChain cr (rowsOf cr ops) genesis chain ∧
      FullChain cr {row ∈ rowsOf cr ops | Signed cr (rowsOf cr all) genesis row} genesis chain ∧
      ∀ ops' : List TransitionOp, (∀ op, op ∈ ops' ↔ op ∈ ops) →
        FairRun cr (rowsOf cr all) genesis ∅ ops' →
        (applyAll cr genesis ops').chainIdentities cr genesis = chain := by
  intro chain
  have hW : DistinctSuccessors (rowsOf cr all) := distinctSuccessors_rowsOf hd
  have hrun : ∀ ops : List TransitionOp, (∀ op ∈ ops, op ∈ all) →
      FairRun cr (rowsOf cr all) genesis ∅ ops →
      FullChain cr (rowsOf cr ops) genesis
        ((applyAll cr genesis ops).chainIdentities cr genesis) := by
    intro ops hops hf
    have h := keeps_empty.applyAll hW (ranked_rowsOf all) (Set.empty_subset _)
      (rowsOf_mono hops) hf
    rw [Set.empty_union] at h
    exact h.fullChain hW (rowsOf_mono hops)
  have h := hrun ops hops hfair
  refine ⟨h, h.signed hW (rowsOf_mono hops), fun ops' hsame hf => ?_⟩
  have h' := hrun ops' (fun op hop => hops op ((hsame op).mp hop)) hf
  have hrows : rowsOf cr ops' = rowsOf cr ops := by
    ext row
    simp only [rowsOf, hsame]
  rw [hrows] at h'
  exact FullChain.unique (fun r hr r' hr' => hW r (rowsOf_mono hops hr) r' (rowsOf_mono hops hr'))
    (ranked_rowsOf ops) h' h

end Transitions

/-- Primitives for the worked examples: a key is its own identity and its own signature. -/
def IdentityCrypto.sample : IdentityCrypto where
  identityIdFromPub pub := pub
  verifyPrev pub _ sig := decide (sig = pub)
  verifyNext pub _ _ sig := decide (sig = pub)
  certFromCbor
    | [device, dDPub, identity] => some ⟨device, device, dDPub, identity, 0, "", "", identity⟩
    | _ => none
  verifyCert pub cert := decide (cert.sig = pub)
  hashRoster _ := 0
  hashShares _ _ := 0

/-- Device 1's hand-over from one identity to another, signed by `prev`. -/
def handOver (source target prev : ℕ) (ms : ℕ) (roster : List Bytes) : TransitionOp :=
  ⟨1, ⟨ms, 0⟩, 0, ⟨source, target, target, 0, roster, [], none, ⟨prev, target⟩⟩⟩

namespace Transitions

/-- The account's first hand-over, and its second. -/
def honest : List TransitionOp := [handOver 1 2 1 1 [], handOver 2 3 2 2 []]

/-- Sixteen hand-overs from the second identity, which did not sign them. -/
def forged : List TransitionOp := (List.range 16).map fun i => handOver 2 (100 + i) 0 9 []

theorem chainIdentities_applyAll_second_first :
    (applyAll .sample (1, 1) honest.reverse).chainIdentities .sample (1, 1) =
      (applyAll .sample (1, 1) honest).chainIdentities .sample (1, 1) ∧
    (applyAll .sample (1, 1) honest).chainIdentities .sample (1, 1) = [(3, 3), (2, 2), (1, 1)] := by
  have hfair : ∀ t row, (t.others row.body.fromIdentityId row.rank).length < maxSiblings →
      Fair .sample (rowsOf .sample honest) (1, 1) t row := by
    intro t row hlt _ d hdrop
    rw [dropped, if_pos hlt] at hdrop
    simp at hdrop
  have h := chainIdentities_applyAll .sample (1, 1) honest honest (by decide) (fun _ h => h)
    ⟨fun row hrow => hfair _ _ ?_, fun row hrow => hfair _ _ ?_, trivial⟩
  · refine ⟨h.2.2 honest.reverse (by simp) ⟨fun row hrow => hfair _ _ ?_,
      fun row hrow => hfair _ _ ?_, trivial⟩, by decide⟩
    all_goals
      obtain rfl := Option.some.inj hrow
      decide
  all_goals
    obtain rfl := Option.some.inj hrow
    decide

/-- Where the sixteen and the second hand-over come before the first, the cap drops the
second: the chain ends at the first's successor, and goes on where the first came
first. -/
theorem chainIdentities_forged :
    let late := forged ++ honest.reverse
    let early := honest ++ forged
    DistinctOps early ∧ (∀ op, op ∈ late ↔ op ∈ early) ∧
      (applyAll .sample (1, 1) late).chainIdentities .sample (1, 1) = [(2, 2), (1, 1)] ∧
      (applyAll .sample (1, 1) early).chainIdentities .sample (1, 1) =
        [(3, 3), (2, 2), (1, 1)] := by
  refine ⟨?_, ?_, ?_, ?_⟩
  · decide
  · simp [or_comm]
  · decide +kernel
  · decide +kernel

end Transitions

end Sunrise
