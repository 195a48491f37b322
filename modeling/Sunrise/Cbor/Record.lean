import Mathlib.Data.String.Basic
import Sunrise.Cbor.Canonical
import Sunrise.Cbor.OpEnvelope
import Sunrise.Lib.Text

/-!
# Records in canonical bytes

A record is written as a map from the names of its fields, a field that is absent left out,
with the keys its reader did not know put back beside them. Canonical bytes hold the
entries of that map in the order of their keys, so a reader finds the fields by name.

* `readRecord_canonicalize` — **what is read is what was written**, whatever the order.
-/

namespace Sunrise

open Table

open Cbor (Item)

/-! ### Unknown keys -/

/-- The keys beside `names` that a map held, with their values, none of which holds a
float. -/
structure Unknowns (names : List String) where
  table : Table String Item
  fresh : ∀ r ∈ table.rows, r.1 ∉ names
  floatFree : ∀ r ∈ table.rows, containsFloat r.2 = false

variable {names : List String}

theorem Unknowns.ext {u w : Unknowns names} (h : u.table = w.table) : u = w := by
  cases u
  cases w
  cases h
  rfl

/-- No key. -/
def Unknowns.empty : Unknowns names := ⟨∅, by simp, by simp⟩

instance : Inhabited (Unknowns names) := ⟨.empty⟩

theorem mem_of_mem_rows_foldl_upsert {es : List (String × Item)} {r : String × Item}
    (h : r ∈ (es.foldl (fun t e => t.upsert e.1 e.2) (∅ : Table String Item)).rows) :
    r ∈ es := by
  rw [mem_rows] at h
  induction es using List.reverseRecOn with
  | nil => simp at h
  | append_singleton es e ih =>
    rw [List.foldl_concat, find_upsert] at h
    rw [List.mem_append]
    split at h
    next hk => exact .inr (List.mem_singleton.mpr (Prod.ext hk (Option.some.inj h).symm))
    next => exact .inl (ih h)

/-- Read entries as unknown keys, the last of each key. A known key and a float are
refused. -/
def Unknowns.ofEntries (names : List String) (es : List (String × Item)) :
    Option (Unknowns names) :=
  if h : ∀ e ∈ es, e.1 ∉ names ∧ containsFloat e.2 = false then
    some ⟨es.foldl (fun t e => t.upsert e.1 e.2) ∅,
      fun r hr => (h r (mem_of_mem_rows_foldl_upsert hr)).1,
      fun r hr => (h r (mem_of_mem_rows_foldl_upsert hr)).2⟩
  else none

theorem Unknowns.ofEntries_of_perm {u : Unknowns names} {es : List (String × Item)}
    (h : es.Perm u.table.rows) : Unknowns.ofEntries names es = some u := by
  have hfit : ∀ e ∈ es, e.1 ∉ names ∧ containsFloat e.2 = false := fun e he =>
    ⟨u.fresh e (h.mem_iff.mp he), u.floatFree e (h.mem_iff.mp he)⟩
  unfold Unknowns.ofEntries
  rw [dif_pos hfit]
  refine congrArg some (Unknowns.ext (ext_some fun k v => ?_))
  show (es.foldl (fun t e => t.upsert e.1 e.2) (∅ : Table String Item)).find k = some v ↔ _
  constructor
  · intro hk
    have hrow : (k, v) ∈ (es.foldl (fun t e => t.upsert e.1 e.2) (∅ : Table String Item)).rows :=
      Table.mem_rows.mpr hk
    have hmem := h.mem_iff.mp (mem_of_mem_rows_foldl_upsert hrow)
    exact Table.mem_rows.mp hmem
  · intro hk
    have hmem : (k, v) ∈ es := h.mem_iff.mpr (Table.mem_rows.mpr hk)
    refine find_foldl_upsert_of_mem Prod.fst Prod.snd hmem fun e he hek => ?_
    have hrow := Table.mem_rows.mp (h.mem_iff.mp he)
    rw [hek, hk] at hrow
    exact (Option.some.inj hrow).symm

/-! ### Maps with texts for keys -/

def textItem (s : String) : Item := .scalar (.text s)

def itemText : Item → Option String
  | .scalar (.text s) => some s
  | _ => none

@[simp] theorem itemText_textItem (s : String) : itemText (textItem s) = some s := rfl

def namedMap (es : List (String × Item)) : Item := .map (es.map fun e => (textItem e.1, e.2))

def namedEntries : Item → Option (List (String × Item))
  | .map es => es.mapM fun e => (itemText e.1).map (·, e.2)
  | _ => none

@[simp] theorem namedEntries_namedMap (es : List (String × Item)) :
    namedEntries (namedMap es) = some es := by
  refine Text.mapM_eq_some_iff.mpr (List.forall₂_map_left_iff.mpr ?_)
  exact List.forall₂_same.mpr fun e _ => rfl

variable {cbor : Cbor.Codec}

theorem canonicalize_namedMap (cbor : Cbor.Codec) (es : List (String × Item)) :
    ∃ fs : List (String × Item), canonicalize cbor (namedMap es) = namedMap fs ∧
      fs.Perm (es.map fun e => (e.1, canonicalize cbor e.2)) := by
  refine ⟨Cbor.sortBy (fun e => cbor.write (textItem e.1))
    (es.map fun e => (e.1, canonicalize cbor e.2)), ?_, Cbor.perm_sortBy⟩
  have hsort := List.map_insertionSort (fun x y => cbor.write (textItem x.1) ≤
      cbor.write (textItem y.1)) (fun x y => cbor.write x.1 ≤ cbor.write y.1)
    (fun e : String × Item => (textItem e.1, e.2))
    (es.map fun e => (e.1, canonicalize cbor e.2)) fun _ _ _ _ => Iff.rfl
  unfold namedMap
  rw [canonicalize, canonicalizeEntries_eq, List.map_map, sortEntries, Cbor.sortBy,
    Cbor.sortBy, hsort, List.map_map]
  rfl

/-! ### Records -/

/-- Whether the buffer that unknown keys are read through takes a node: it has no form for a
tag, nor for an integer below the signed 64 bits. -/
def nodeBuffered : Item → Bool
  | .tag _ _ => false
  | .scalar (.integer n) => -2 ^ 63 ≤ n
  | _ => true

def buffered (v : Item) : Bool := v.nodes.all nodeBuffered

/-- The map a record is written as: its fields, those absent left out, and its unknown
keys. -/
def record (fields : List (String × Option Item)) (unknown : Unknowns names) : Item :=
  namedMap (fields.filterMap (fun f => f.2.map (f.1, ·)) ++ unknown.table.rows)

/-- What a map holds under the names of fields, and beside them. -/
structure Fields (names : List String) where
  field : String → Option Item
  unknown : Unknowns names

/-- Read a record. A field given twice is refused. -/
def readRecord (names : List String) (v : Item) : Option (Fields names) :=
  (namedEntries v).bind fun es =>
    let own := es.filter fun e => e.1 ∈ names
    let rest := es.filter fun e => e.1 ∉ names
    if (own.map Prod.fst).Nodup ∧ ∀ e ∈ rest, buffered e.2 then
      (Unknowns.ofEntries names rest).map fun unknown =>
        { field := fun name => lookup name own, unknown }
    else none

def readUnknowns (v : Item) : Option (Unknowns []) :=
  (namedEntries v).bind (Unknowns.ofEntries [])

theorem lookup_of_perm {own es : List (String × Item)} {k : String} (h : own.Perm es)
    (hnodup : (es.map Prod.fst).Nodup) : lookup k own = lookup k es := by
  have hsome : ∀ {l m : List (String × Item)} {v : Item}, l.Perm m → (m.map Prod.fst).Nodup →
      lookup k l = some v → lookup k m = some v := by
    intro l m v hlm hm hv
    have hmem := hlm.mem_iff.mp (mem_of_lookup hv)
    cases hw : lookup k m with
    | none => exact absurd rfl (Table.lookup_eq_none.mp hw _ hmem)
    | some w =>
      have hpair := List.inj_on_of_nodup_map hm (mem_of_lookup hw) hmem rfl
      rw [(Prod.mk.inj hpair).2]
  cases hv : lookup k es with
  | some v => exact hsome h.symm ((h.map Prod.fst).nodup_iff.mpr hnodup) hv
  | none =>
    cases hw : lookup k own with
    | none => rfl
    | some w => rw [hsome h hnodup hw] at hv; cases hv

section

variable {fields : List (String × Option Item)} {unknown : Unknowns names}

private theorem map_canonicalize_rows
    (hcanon : ∀ r ∈ unknown.table.rows, canonicalize cbor r.2 = r.2) :
    unknown.table.rows.map (fun e => (e.1, canonicalize cbor e.2)) = unknown.table.rows := by
  have h := List.map_congr_left (f := fun e => (e.1, canonicalize cbor e.2)) (g := id)
    fun r hr => Prod.ext rfl (hcanon r hr)
  rw [h, List.map_id]

/-- The entries of the fields that are present, their values canonical. -/
private def present (cbor : Cbor.Codec) (fields : List (String × Option Item)) :
    List (String × Item) :=
  fields.filterMap fun f => f.2.map fun v => (f.1, canonicalize cbor v)

private theorem keys_present :
    ((present cbor fields).map Prod.fst).Sublist (fields.map Prod.fst) := by
  induction fields with
  | nil => simp [present]
  | cons f fields ih =>
    unfold present at ih ⊢
    cases hf : f.2 with
    | none => simpa [List.filterMap_cons, hf] using ih.cons f.1
    | some v => simpa [List.filterMap_cons, hf] using ih

private theorem lookup_present (hnodup : (fields.map Prod.fst).Nodup)
    {f : String × Option Item} (hf : f ∈ fields) :
    lookup f.1 (present cbor fields) = f.2.map (canonicalize cbor) := by
  induction fields with
  | nil => simp at hf
  | cons g fields ih =>
    rw [List.map_cons, List.nodup_cons] at hnodup
    have hcons : present cbor (g :: fields) =
        (g.2.map fun v => (g.1, canonicalize cbor v)).toList ++ present cbor fields := by
      unfold present
      cases hg : g.2 with
      | none => simp [hg]
      | some v => simp [hg]
    have hskip : ∀ f' ∈ fields, f'.1 ≠ g.1 := fun f' hf' hk =>
      hnodup.1 (List.mem_map.mpr ⟨f', hf', hk⟩)
    rcases List.mem_cons.mp hf with rfl | hf
    · cases hg : f.2 with
      | some v => rw [hcons, hg]; simp [lookup_cons]
      | none =>
        rw [hcons, hg]
        refine Table.lookup_eq_none.mpr fun r hr hk => ?_
        have hkey := (@keys_present cbor fields).subset (List.mem_map.mpr ⟨r, hr, rfl⟩)
        exact hnodup.1 (hk ▸ hkey)
    · rw [hcons]
      cases hg : g.2 with
      | none => simpa using ih hnodup.2 hf
      | some v => simpa [lookup_cons, hskip f hf] using ih hnodup.2 hf

/-- Unknown keys as a reader of records keeps them: the maps in their values are in canonical
order, and the buffer took the values. -/
structure Unknowns.Kept (cbor : Cbor.Codec) (unknown : Unknowns names) : Prop where
  canonical : ∀ r ∈ unknown.table.rows, canonicalize cbor r.2 = r.2
  buffered : ∀ r ∈ unknown.table.rows, buffered r.2

/-- **A record is read back from its canonical form**: its unknown keys as they were, and
each field as its value's canonical form. -/
theorem readRecord_canonicalize (fields : List (String × Option Item))
    (hkept : unknown.Kept cbor) (hnames : fields.map Prod.fst = names) (hnodup : names.Nodup) :
    ∃ r, readRecord names (canonicalize cbor (record fields unknown)) = some r ∧
      r.unknown = unknown ∧ ∀ f ∈ fields, r.field f.1 = f.2.map (canonicalize cbor) := by
  obtain ⟨es, hes, hperm⟩ := canonicalize_namedMap cbor
    (fields.filterMap (fun f => f.2.map (f.1, ·)) ++ unknown.table.rows)
  have hsplit : (fields.filterMap (fun f => f.2.map (f.1, ·)) ++ unknown.table.rows).map
      (fun e => (e.1, canonicalize cbor e.2)) = present cbor fields ++ unknown.table.rows := by
    rw [List.map_append, List.map_filterMap]
    congr 1
    · unfold present
      exact congrArg (List.filterMap · fields) (funext fun f => by cases f.2 <;> rfl)
    · exact map_canonicalize_rows hkept.canonical
  rw [hsplit] at hperm
  -- the names part the entries that are fields from those that are not
  have hin : ∀ e ∈ present cbor fields, e.1 ∈ names := fun e he =>
    hnames ▸ keys_present.subset (List.mem_map.mpr ⟨e, he, rfl⟩)
  have hown : (es.filter fun e => e.1 ∈ names).Perm (present cbor fields) := by
    have h := hperm.filter fun e => decide (e.1 ∈ names)
    have hfields : (present cbor fields).filter (fun e => decide (e.1 ∈ names)) =
        present cbor fields := List.filter_eq_self.mpr fun e he => by simpa using hin e he
    have hnone : unknown.table.rows.filter (fun e => decide (e.1 ∈ names)) = [] :=
      List.filter_eq_nil_iff.mpr fun e he => by simpa using unknown.fresh e he
    rwa [List.filter_append, hfields, hnone, List.append_nil] at h
  have hrest : (es.filter fun e => e.1 ∉ names).Perm unknown.table.rows := by
    have h := hperm.filter fun e => decide (e.1 ∉ names)
    have hnone : (present cbor fields).filter (fun e => decide (e.1 ∉ names)) = [] :=
      List.filter_eq_nil_iff.mpr fun e he => by simpa using hin e he
    have hunknown : unknown.table.rows.filter (fun e => decide (e.1 ∉ names)) =
        unknown.table.rows :=
      List.filter_eq_self.mpr fun e he => by simpa using unknown.fresh e he
    rwa [List.filter_append, hnone, hunknown, List.nil_append] at h
  have hkeys : ((present cbor fields).map Prod.fst).Nodup := by
    rw [← hnames] at hnodup
    exact hnodup.sublist keys_present
  have hok : ((es.filter fun e => e.1 ∈ names).map Prod.fst).Nodup ∧
      ∀ e ∈ es.filter fun e => e.1 ∉ names, buffered e.2 :=
    ⟨(hown.map Prod.fst).nodup_iff.mpr hkeys, fun e he => hkept.buffered e (hrest.mem_iff.mp he)⟩
  refine ⟨{ field := fun name => lookup name (es.filter fun e => e.1 ∈ names), unknown },
    ?_, rfl, ?_⟩
  · unfold readRecord record
    rw [hes, namedEntries_namedMap, Option.bind_some, if_pos hok,
      Unknowns.ofEntries_of_perm hrest]
    rfl
  · intro f hf
    exact (lookup_of_perm hown hkeys).trans (lookup_present (hnames ▸ hnodup) hf)

end

/-- The item at the front of `bytes`, in whatever order its maps are. -/
def decodeLenient (cbor : Cbor.Codec) (bytes : Bytes) : Option Item :=
  match cbor.read maxDocDepth bytes with
  | .ok (v, _) => some v
  | .error _ => none

theorem decodeLenient_encodeCanonical {v : Item} (hc : cbor.Lawful) (hreg : v.Regular)
    (hdepth : v.depth ≤ maxDocDepth) :
    decodeLenient cbor (encodeCanonical cbor v) = some (canonicalize cbor v) := by
  have hread := hc.read_write (canonicalize cbor v) ((shuffle_canonicalize v).regular hreg)
    maxDocDepth []
  rw [List.append_nil, (shuffle_canonicalize v).depth_eq, if_pos hdepth] at hread
  rw [decodeLenient, encodeCanonical, hread]

theorem readUnknowns_canonicalize {unknown : Unknowns []}
    (hcanon : ∀ r ∈ unknown.table.rows, canonicalize cbor r.2 = r.2) :
    readUnknowns (canonicalize cbor (record [] unknown)) = some unknown := by
  obtain ⟨es, hes, hperm⟩ := canonicalize_namedMap cbor unknown.table.rows
  rw [map_canonicalize_rows hcanon] at hperm
  unfold readUnknowns record
  rw [List.filterMap_nil, List.nil_append, hes, namedEntries_namedMap]
  exact Unknowns.ofEntries_of_perm hperm

/-- Unknown keys as a decoder gives them: they have bytes of their own, within the levels of
a document, and their maps are in canonical order. -/
structure Unknowns.Decoded (cbor : Cbor.Codec) (unknown : Unknowns []) : Prop where
  regular : (record [] unknown).Regular
  depth : (record [] unknown).depth ≤ maxDocDepth
  canonical : ∀ r ∈ unknown.table.rows, canonicalize cbor r.2 = r.2

def Unknowns.bytes (cbor : Cbor.Codec) (unknown : Unknowns []) : Bytes :=
  encodeCanonical cbor (record [] unknown)

theorem Unknowns.Decoded.read_bytes {unknown : Unknowns []} (hc : cbor.Lawful)
    (h : unknown.Decoded cbor) :
    (decodeLenient cbor (unknown.bytes cbor)).bind readUnknowns = some unknown := by
  rw [Unknowns.bytes, decodeLenient_encodeCanonical hc h.regular h.depth, Option.bind_some,
    readUnknowns_canonicalize h.canonical]

end Sunrise
