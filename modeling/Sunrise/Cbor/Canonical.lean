import Sunrise.Lib.CborBytes
import Sunrise.Value

/-!
# Canonical CBOR

The canonical encoder builds a value's tree, sorts the entries of its maps by the encoded
bytes of their keys and writes that; the canonical decoder reads one item and takes it only
if encoding it again gives the bytes it came from. Every signature and hash is over such
bytes, so two replicas that hold one value in maps of different orders have to write the
same ones.

They do for maps of distinct keys none of which holds a map. The sort goes into the values
of a map and into arrays and tags, not into keys, so a map inside a key keeps the order it
came in.

## Main definitions

* `canonicalize`, `encodeCanonical`, `decodeCanonicalWithin` — the encoder and the decoder.

## Main results

* `canonical_iff_orderFree` — **the encoding of a value is canonical exactly when no key
  holds a map with two different entries, and equal keys have equal values.**
-/

open Cbor (Item Shuffle)

/-! ### The orders that do not show -/

/-- One map's keys hold nothing that can be reordered, and what it holds twice under one key
differs at most in the order of maps. -/
def Cbor.Item.NodeOrderFree : Item → Prop
  | .map entries => (∀ e ∈ entries, e.1.Rigid) ∧
      ∀ e ∈ entries, ∀ f ∈ entries, e.1 = f.1 → Shuffle e.2 f.2
  | _ => True

open Cbor

/-- Every map inside the item is such a map. -/
def Cbor.Item.OrderFree (v : Item) : Prop := ∀ w ∈ v.nodes, w.NodeOrderFree

theorem Cbor.Item.Rigid.orderFree {v : Item} (hv : v.Rigid) : v.OrderFree := by
  unfold Cbor.Item.Rigid at hv
  unfold Cbor.Item.OrderFree
  induction v with
  | scalar s => simp [Item.NodeOrderFree]
  | tag n v ih => exact Cbor.forall_nodes_tag.mpr ⟨trivial, ih (Cbor.forall_nodes_tag.mp hv).2⟩
  | array items ih =>
    obtain ⟨-, hmem⟩ := Cbor.forall_nodes_array.mp hv
    exact Cbor.forall_nodes_array.mpr ⟨trivial, fun v hvi => ih v hvi (hmem v hvi)⟩
  | map entries ih =>
    obtain ⟨hall, hmem⟩ := Cbor.forall_nodes_map.mp hv
    refine Cbor.forall_nodes_map.mpr ⟨⟨fun e he => (hmem e he).1, ?_⟩, fun e he =>
      ⟨(ih e he).1 (hmem e he).1, (ih e he).2 (hmem e he).2⟩⟩
    intro e he f hf _
    rw [hall e he f hf]
    exact .refl _

namespace Sunrise

/-- The levels allowed in framing. -/
def maxValueDepth : ℕ := 8

/-- The levels allowed in document content. -/
def maxDocDepth : ℕ := 32

/-- What the canonical helpers fail with. -/
inductive CanonicalError where
  | decode
  /-- The input nests deeper than its decoder allows. -/
  | tooDeep
  /-- The decoded value encodes to other bytes; the lengths of the two. -/
  | nonCanonical (input reencoded : ℕ)
deriving DecidableEq

section

variable (cbor : Cbor.Codec)

/-- Sort entries by the encoded bytes of their keys, entries of one key in the order they
are in. -/
def sortEntries (entries : List (Item × Item)) : List (Item × Item) :=
  sortBy (fun e => cbor.write e.1) entries

mutual

/-- Every map's entries sorted by their encoded keys. A key stays as it is. -/
def canonicalize : Item → Item
  | .map entries => .map (sortEntries cbor (canonicalizeEntries entries))
  | .array items => .array (canonicalizeItems items)
  | .tag n inner => .tag n (canonicalize inner)
  | .scalar s => .scalar s
termination_by structural v => v

def canonicalizeItems : List Item → List Item
  | [] => []
  | v :: vs => canonicalize v :: canonicalizeItems vs
termination_by structural vs => vs

def canonicalizeEntries : List (Item × Item) → List (Item × Item)
  | [] => []
  | e :: es => canonicalizeEntry e :: canonicalizeEntries es
termination_by structural es => es

def canonicalizeEntry : Item × Item → Item × Item
  | (k, v) => (k, canonicalize v)
termination_by structural e => e

end

def encodeCanonical (value : Item) : Bytes := cbor.write (canonicalize cbor value)

/-- The item at the front of `bytes`, if those are its canonical bytes and no more. -/
def decodeCanonicalWithin (bytes : Bytes) (maxDepth : ℕ) : Except CanonicalError Item :=
  match cbor.read maxDepth bytes with
  | .error .tooDeep => .error .tooDeep
  | .error .malformed => .error .decode
  | .ok (value, _) =>
    let reencoded := encodeCanonical cbor value
    if reencoded = bytes then .ok value
    else .error (.nonCanonical bytes.length reencoded.length)

/-- The decoder of document content. -/
def decodeCanonical (bytes : Bytes) : Except CanonicalError Item :=
  decodeCanonicalWithin cbor bytes maxDocDepth

/-- One map's entries are in the order of their encoded keys. -/
def NodeSorted : Item → Prop
  | .map entries => entries.Pairwise fun e f => cbor.write e.1 ≤ cbor.write f.1
  | _ => True

/-- Every map, inside keys too, has its entries in the order of their encoded keys. -/
def Sorted (v : Item) : Prop := ∀ w ∈ v.nodes, NodeSorted cbor w

/-- The bytes of a value are those of every order of its maps, and they decode to the value
with its maps in canonical order; a decoder that allows fewer levels says so. -/
structure Canonical (v : Item) : Prop where
  shuffle : ∀ w, Shuffle v w → encodeCanonical cbor w = encodeCanonical cbor v
  decode : ∃ w, Shuffle v w ∧ Sorted cbor w ∧ ∀ maxDepth,
    decodeCanonicalWithin cbor (encodeCanonical cbor v) maxDepth =
      if v.depth ≤ maxDepth then .ok w else .error .tooDeep

end

variable {cbor : Cbor.Codec} {v w : Item} {items : List Item} {entries : List (Item × Item)}

/-! ### The tree the encoder writes -/

theorem canonicalizeItems_eq : canonicalizeItems cbor items = items.map (canonicalize cbor) := by
  induction items with
  | nil => rfl
  | cons v vs ih => rw [canonicalizeItems, ih, List.map_cons]

theorem canonicalizeEntries_eq :
    canonicalizeEntries cbor entries = entries.map fun e => (e.1, canonicalize cbor e.2) := by
  induction entries with
  | nil => rfl
  | cons e es ih =>
    obtain ⟨k, v⟩ := e
    rw [canonicalizeEntries, canonicalizeEntry, ih, List.map_cons]

theorem shuffle_canonicalize (v : Item) : Shuffle v (canonicalize cbor v) := by
  induction v with
  | scalar s => exact .refl _
  | tag n v ih => exact ih.tag n
  | array items ih =>
    rw [canonicalize, canonicalizeItems_eq]
    exact Shuffle.array_iff.mpr ⟨_, rfl, List.forall₂_map_right_iff.mpr
      (List.forall₂_same.mpr ih)⟩
  | map entries ih =>
    rw [canonicalize, canonicalizeEntries_eq]
    have hvals : List.Forall₂ Cbor.ShuffleEntry entries
        (entries.map fun e => (e.1, canonicalize cbor e.2)) :=
      List.forall₂_map_right_iff.mpr (List.forall₂_same.mpr fun e he => ⟨.refl _, (ih e he).2⟩)
    exact Shuffle.map_iff.mpr ⟨_, _, rfl, hvals, Cbor.perm_sortBy.symm⟩

theorem canonicalize_idem (v : Item) :
    canonicalize cbor (canonicalize cbor v) = canonicalize cbor v := by
  induction v with
  | scalar s => rfl
  | tag n v ih => simp only [canonicalize, ih]
  | array items ih =>
    simp only [canonicalize, canonicalizeItems_eq, List.map_map, Item.array.injEq]
    exact List.map_congr_left fun v hv => ih v hv
  | map entries ih =>
    have hentry : ∀ e ∈ sortEntries cbor (entries.map fun e => (e.1, canonicalize cbor e.2)),
        (e.1, canonicalize cbor e.2) = e := by
      intro e he
      obtain ⟨f, hf, rfl⟩ := List.mem_map.mp (Cbor.perm_sortBy.mem_iff.mp he)
      exact Prod.ext rfl (ih f hf).2
    simp only [canonicalize, canonicalizeEntries_eq, Item.map.injEq]
    rw [List.map_congr_left hentry, List.map_id']
    exact sortBy_eq_self pairwise_sortBy

/-! ### An order-free value has one encoding -/

theorem canonicalize_eq_of_shuffle (hc : cbor.Lawful) (hreg : v.Regular) (hv : v.OrderFree)
    (h : Shuffle v w) : canonicalize cbor w = canonicalize cbor v := by
  unfold Cbor.Item.Regular at hreg
  unfold Cbor.Item.OrderFree at hv
  induction v generalizing w with
  | scalar s => rw [h.scalar_eq]
  | tag n v ih =>
    obtain ⟨u, rfl, hu⟩ := Shuffle.tag_iff.mp h
    rw [canonicalize, canonicalize,
      ih (Cbor.forall_nodes_tag.mp hreg).2 (Cbor.forall_nodes_tag.mp hv).2 hu]
  | array items ih =>
    obtain ⟨js, rfl, hjs⟩ := Shuffle.array_iff.mp h
    obtain ⟨-, hreg⟩ := Cbor.forall_nodes_array.mp hreg
    obtain ⟨-, hv⟩ := Cbor.forall_nodes_array.mp hv
    have hmap : js.map (canonicalize cbor) = items.map (canonicalize cbor) :=
      map_eq_of_forall₂ hjs fun v hvi u hu => ih v hvi (hreg v hvi) (hv v hvi) hu
    rw [canonicalize, canonicalize, canonicalizeItems_eq, canonicalizeItems_eq, hmap]
  | map entries ih =>
    obtain ⟨es, fs, rfl, hes, hfs⟩ := Shuffle.map_iff.mp h
    obtain ⟨-, hreg⟩ := Cbor.forall_nodes_map.mp hreg
    obtain ⟨⟨hkeys, hvals⟩, hv⟩ := Cbor.forall_nodes_map.mp hv
    -- shuffling the entries in place changes none of them once their values are canonical
    have hmap : es.map (fun e => (e.1, canonicalize cbor e.2)) =
        entries.map fun e => (e.1, canonicalize cbor e.2) :=
      map_eq_of_forall₂ hes fun e he f hf =>
        Prod.ext ((hkeys e he).eq_of_shuffle hf.1) ((ih e he).2 (hreg e he).2 (hv e he).2 hf.2)
    have hperm : (entries.map fun e => (e.1, canonicalize cbor e.2)).Perm
        (fs.map fun e => (e.1, canonicalize cbor e.2)) := by
      rw [← hmap]
      exact hfs.map _
    rw [canonicalize, canonicalize, canonicalizeEntries_eq, canonicalizeEntries_eq]
    refine congrArg Item.map (sortBy_eq_of_perm hperm ?_).symm
    intro x hx y hy hxy
    obtain ⟨e, he, rfl⟩ := List.mem_map.mp hx
    obtain ⟨f, hf, rfl⟩ := List.mem_map.mp hy
    have hkey : e.1 = f.1 := hc.write_injective (hreg e he).1 (hreg f hf).1 hxy
    have hval := (ih e he).2 (hreg e he).2 (hv e he).2 (hvals e he f hf hkey)
    exact Prod.ext hkey hval.symm

theorem sorted_of_rigid (hv : v.Rigid) : Sorted cbor v := by
  intro w hw
  have huniform := hv w hw
  cases w with
  | map entries =>
    refine List.pairwise_of_forall_mem_list fun e he f hf => ?_
    rw [huniform e he f hf]
  | _ => trivial

theorem sorted_canonicalize (hv : v.OrderFree) : Sorted cbor (canonicalize cbor v) := by
  unfold Cbor.Item.OrderFree at hv
  unfold Sorted
  induction v with
  | scalar s => simp [canonicalize, NodeSorted]
  | tag n v ih =>
    exact Cbor.forall_nodes_tag.mpr ⟨trivial, ih (Cbor.forall_nodes_tag.mp hv).2⟩
  | array items ih =>
    obtain ⟨-, hv⟩ := Cbor.forall_nodes_array.mp hv
    rw [canonicalize, canonicalizeItems_eq]
    refine Cbor.forall_nodes_array.mpr ⟨trivial, fun u hu => ?_⟩
    obtain ⟨v, hvi, rfl⟩ := List.mem_map.mp hu
    exact ih v hvi (hv v hvi)
  | map entries ih =>
    obtain ⟨⟨hkeys, -⟩, hv⟩ := Cbor.forall_nodes_map.mp hv
    rw [canonicalize, canonicalizeEntries_eq]
    refine Cbor.forall_nodes_map.mpr ⟨pairwise_sortBy, fun e he => ?_⟩
    obtain ⟨f, hf, rfl⟩ := List.mem_map.mp (Cbor.perm_sortBy.mem_iff.mp he)
    exact ⟨sorted_of_rigid (hkeys f hf), (ih f hf).2 (hv f hf).2⟩

/-! ### A value with one encoding is order-free -/

theorem perm_of_canonicalize_eq {es fs : List (Item × Item)}
    (h : canonicalize cbor (.map es) = canonicalize cbor (.map fs)) :
    (es.map fun e => (e.1, canonicalize cbor e.2)).Perm
      (fs.map fun e => (e.1, canonicalize cbor e.2)) := by
  rw [canonicalize, canonicalize, canonicalizeEntries_eq, canonicalizeEntries_eq] at h
  have hfs := @perm_sortBy _ _ _ (fun e : Item × Item => cbor.write e.1)
    (fs.map fun e => (e.1, canonicalize cbor e.2))
  rw [← sortEntries, ← Item.map.inj h] at hfs
  exact Cbor.perm_sortBy.symm.trans hfs

theorem orderFree_of_canonicalize_eq
    (h : ∀ w, Shuffle v w → canonicalize cbor w = canonicalize cbor v) : v.OrderFree := by
  unfold Cbor.Item.OrderFree
  induction v with
  | scalar s => simp [Item.NodeOrderFree]
  | tag n v ih =>
    refine Cbor.forall_nodes_tag.mpr ⟨trivial, ih fun w hw => ?_⟩
    have htag := h _ (hw.tag n)
    rw [canonicalize, canonicalize] at htag
    exact (Item.tag.inj htag).2
  | array items ih =>
    refine Cbor.forall_nodes_array.mpr ⟨trivial, fun v hv => ih v hv fun w hw => ?_⟩
    obtain ⟨l, r, rfl⟩ := List.append_of_mem hv
    have harray := h _ (hw.item l r)
    rw [canonicalize, canonicalize, canonicalizeItems_eq, canonicalizeItems_eq, List.map_append,
      List.map_append, List.map_cons, List.map_cons] at harray
    exact (List.cons.inj (List.append_cancel_left (Item.array.inj harray))).1
  | map entries ih =>
    -- an entry with its key and its value shuffled has the same key and the same canonical value
    have hentry : ∀ e ∈ entries, ∀ f, Cbor.ShuffleEntry e f →
        (f.1, canonicalize cbor f.2) = (e.1, canonicalize cbor e.2) := by
      intro e he f hf
      obtain ⟨l, r, rfl⟩ := List.append_of_mem he
      have hperm := perm_of_canonicalize_eq (h _ (hf.1.entry l r hf.2))
      rw [List.map_append, List.map_append, List.map_cons, List.map_cons] at hperm
      exact eq_of_perm_middle hperm
    have hrigid : ∀ e ∈ entries, e.1.Rigid := fun e he => Cbor.rigid_iff.mpr fun k hk =>
      congrArg Prod.fst (hentry e he (k, e.2) ⟨hk, .refl _⟩)
    refine Cbor.forall_nodes_map.mpr ⟨⟨hrigid, ?_⟩, fun e he => ⟨(hrigid e he).orderFree,
      (ih e he).2 fun w hw => congrArg Prod.snd (hentry e he (e.1, w) ⟨.refl _, hw⟩)⟩⟩
    intro e he f hf hkey
    by_cases hne : e = f
    · rw [hne]
      exact .refl _
    · -- a stable sort keeps the two in the order they came in, whichever that is
      obtain ⟨r, hr⟩ := exists_perm_cons_cons he hf hne
      have hef := h _ (.perm hr)
      have hfe := h _ (.perm (hr.trans (.swap f e r)))
      have hsort := Item.map.inj ((canonicalize.eq_1 ..).symm.trans
        ((hef.trans hfe.symm).trans (canonicalize.eq_1 ..)))
      rw [canonicalizeEntries_eq, canonicalizeEntries_eq] at hsort
      have hfilter := congrArg (List.filter fun x => cbor.write x.1 = cbor.write e.1) hsort
      unfold sortEntries at hfilter
      rw [filter_sortBy, filter_sortBy] at hfilter
      simp only [List.map_cons, List.filter_cons, hkey, decide_true, if_true,
        List.cons.injEq, Prod.mk.injEq, true_and] at hfilter
      exact (shuffle_canonicalize e.2).trans (hfilter.1 ▸ (shuffle_canonicalize f.2).symm)

/-! ### What the decoder takes -/

theorem decodeCanonicalWithin_encodeCanonical (hc : cbor.Lawful) (hreg : v.Regular)
    (maxDepth : ℕ) : decodeCanonicalWithin cbor (encodeCanonical cbor v) maxDepth =
      if v.depth ≤ maxDepth then .ok (canonicalize cbor v) else .error .tooDeep := by
  have hread := hc.read_write (canonicalize cbor v) ((shuffle_canonicalize v).regular hreg)
    maxDepth []
  rw [List.append_nil, (shuffle_canonicalize v).depth_eq] at hread
  rw [decodeCanonicalWithin, encodeCanonical, hread]
  by_cases hdepth : v.depth ≤ maxDepth
  · simp only [if_pos hdepth, encodeCanonical, canonicalize_idem, if_true]
  · simp only [if_neg hdepth]

theorem decodeCanonicalWithin_eq_ok {bytes : Bytes} {maxDepth : ℕ} :
    decodeCanonicalWithin cbor bytes maxDepth = .ok v ↔
      (∃ rest, cbor.read maxDepth bytes = .ok (v, rest)) ∧ encodeCanonical cbor v = bytes := by
  rw [decodeCanonicalWithin]
  split
  next h => simp [h]
  next h => simp [h]
  next value rest h =>
    by_cases heq : encodeCanonical cbor value = bytes
    · rw [if_pos heq, h]
      constructor
      · rintro ⟨⟩
        exact ⟨⟨rest, rfl⟩, heq⟩
      · rintro ⟨⟨rest', ⟨⟩⟩, -⟩
        rfl
    · rw [if_neg heq, h]
      constructor
      · rintro ⟨⟩
      · rintro ⟨⟨rest', ⟨⟩⟩, h'⟩
        exact absurd h' heq

/-! ### The main result -/

/-- **The encoding of a value is canonical exactly when no key holds a map with two different
entries, and equal keys have equal values but for the order of maps.** The decoder takes
exactly the bytes it gives back. -/
theorem canonical_iff_orderFree (hc : cbor.Lawful) :
    (∀ v : Item, v.Regular → (Canonical cbor v ↔ v.OrderFree)) ∧
      ∀ (bytes : Bytes) (maxDepth : ℕ) (v : Item),
        decodeCanonicalWithin cbor bytes maxDepth = .ok v ↔
          (∃ rest, cbor.read maxDepth bytes = .ok (v, rest)) ∧ encodeCanonical cbor v = bytes := by
  refine ⟨fun v hreg => ⟨fun h => ?_, fun h => ?_⟩, fun bytes maxDepth v =>
    decodeCanonicalWithin_eq_ok⟩
  · refine @orderFree_of_canonicalize_eq cbor _ fun w hw => ?_
    exact hc.write_injective ((shuffle_canonicalize w).regular (hw.regular hreg))
      ((shuffle_canonicalize v).regular hreg) (h.shuffle w hw)
  · refine ⟨fun w hw => ?_, canonicalize cbor v, shuffle_canonicalize v, sorted_canonicalize h,
      decodeCanonicalWithin_encodeCanonical hc hreg⟩
    rw [encodeCanonical, canonicalize_eq_of_shuffle hc hreg h hw, encodeCanonical]

/-- The map `{2: null, 1: null}`, written in that order. -/
def unsortedMap : Item :=
  .map [(.scalar (.integer 2), .scalar .null), (.scalar (.integer 1), .scalar .null)]

theorem canonical_iff_orderFree_unsorted :
    Canonical codec unsortedMap ∧
      decodeCanonical codec (encodeCanonical codec unsortedMap) =
        .ok (canonicalize codec unsortedMap) := by
  have hreg : unsortedMap.Regular := by
    simp [unsortedMap, Item.Regular, Item.NodeRegular, Cbor.Scalar.InRange]
  have hfree : unsortedMap.OrderFree := by
    refine Cbor.forall_nodes_map.mpr ⟨⟨?_, ?_⟩, ?_⟩
    · simp only [List.forall_mem_cons, Item.Rigid, forall_nodes_scalar, Item.Uniform]
      simp
    · simp only [List.forall_mem_cons]
      simp [Shuffle.refl]
    · simp only [List.forall_mem_cons, forall_nodes_scalar, Item.NodeOrderFree]
      simp
  have hspec := canonical_iff_orderFree codec_lawful
  refine ⟨(hspec.1 unsortedMap hreg).mpr hfree, (hspec.2 _ maxDocDepth _).mpr ⟨⟨[], ?_⟩, ?_⟩⟩
  · have hread := Cbor.codec_lawful.read_write (canonicalize codec unsortedMap)
      ((shuffle_canonicalize _).regular hreg) maxDocDepth []
    rwa [List.append_nil, (shuffle_canonicalize unsortedMap).depth_eq, if_pos (by decide)] at hread
  · rw [encodeCanonical, canonicalize_idem, encodeCanonical]

/-- A map under another map as its key is written in the order it came in. -/
theorem not_canonical_map_key : ¬ ∀ v w : Item, v.Regular → Shuffle v w →
    encodeCanonical codec w = encodeCanonical codec v := by
  intro h
  have hreg : Item.Regular (.map [(unsortedMap, .scalar .null)]) := by
    simp [unsortedMap, Item.Regular, Item.NodeRegular, Cbor.Scalar.InRange]
  have hswap := h _ _ hreg (Shuffle.entry [] [] (.perm (.swap _ _ [])) (.refl (.scalar .null)))
  exact absurd hswap (by decide)

end Sunrise
