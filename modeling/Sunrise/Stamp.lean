import Mathlib.Data.Prod.Lex
import Mathlib.Data.Nat.Notation

/-!
# Stamps and op-refs

An op is identified by its op-ref `(stream, device, seq)` and ordered by its
stamp `(hlc, device, seq, stream)`, compared term by term in that order. The
stream and device ids of the source are sixteen bytes compared bytewise; here
they are the numbers those bytes spell, most significant first, which is the same
order. Clock readings and sequence numbers are the source's unsigned integers.

A stamp carries its own op-ref, and an op-ref with a clock reading is a stamp
again, which is how every table keyed by an op-ref stores one.

* `Stamp.opRef`, `OpRef.stamp` — the two directions.
-/

namespace Sunrise

/-- A device id: sixteen bytes, read as a number. -/
abbrev Device := ℕ

/-- A stream id: sixteen bytes, read as a number. -/
abbrev StreamId := ℕ

/-- An entity id: sixteen bytes, read as a number. -/
abbrev Id := ℕ

/-- A hybrid logical clock reading. -/
structure Hlc where
  physicalMs : ℕ
  logical : ℕ
deriving DecidableEq, Repr, Inhabited

/-- An op's identity: the tag of an OR-set add, and the id of a version. -/
structure OpRef where
  stream : StreamId
  device : Device
  seq : ℕ
deriving DecidableEq, Repr, Inhabited

/-- The merge's comparison key. -/
structure Stamp where
  hlc : Hlc
  device : Device
  seq : ℕ
  stream : StreamId
deriving DecidableEq, Repr, Inhabited

/-! ### The orders -/

def OpRef.key (r : OpRef) : ℕ ×ₗ ℕ ×ₗ ℕ := toLex (r.stream, toLex (r.device, r.seq))

theorem OpRef.key_injective : Function.Injective OpRef.key := by
  rintro ⟨s, d, n⟩ ⟨s', d', n'⟩ h
  simpa [OpRef.key] using h

instance : LinearOrder OpRef := LinearOrder.lift' OpRef.key OpRef.key_injective

/-- A stamp as a lexicographic tuple. -/
def Stamp.key (s : Stamp) : ℕ ×ₗ ℕ ×ₗ ℕ ×ₗ ℕ ×ₗ ℕ :=
  toLex (s.hlc.physicalMs, toLex (s.hlc.logical, toLex (s.device, toLex (s.seq, s.stream))))

theorem Stamp.key_injective : Function.Injective Stamp.key := by
  rintro ⟨⟨p, l⟩, d, n, s⟩ ⟨⟨p', l'⟩, d', n', s'⟩ h
  simpa [Stamp.key, and_assoc] using h

instance : LinearOrder Stamp := LinearOrder.lift' Stamp.key Stamp.key_injective

/-! ### A stamp and its op-ref -/

def Stamp.opRef (s : Stamp) : OpRef := ⟨s.stream, s.device, s.seq⟩

def OpRef.stamp (r : OpRef) (hlc : Hlc) : Stamp := ⟨hlc, r.device, r.seq, r.stream⟩

@[simp] theorem OpRef.opRef_stamp (r : OpRef) (hlc : Hlc) : (r.stamp hlc).opRef = r := rfl

@[simp] theorem OpRef.device_stamp (r : OpRef) (hlc : Hlc) : (r.stamp hlc).device = r.device := rfl

@[simp] theorem OpRef.hlc_stamp (r : OpRef) (hlc : Hlc) : (r.stamp hlc).hlc = hlc := rfl

@[simp] theorem Stamp.stamp_opRef (s : Stamp) : s.opRef.stamp s.hlc = s := rfl

@[simp] theorem Stamp.device_opRef (s : Stamp) : s.opRef.device = s.device := rfl

@[simp] theorem Stamp.stream_opRef (s : Stamp) : s.opRef.stream = s.stream := rfl

theorem Stamp.eq_of_opRef_of_hlc {s t : Stamp} (h : s.opRef = t.opRef) (hh : s.hlc = t.hlc) :
    s = t := by
  rw [← s.stamp_opRef, ← t.stamp_opRef, h, hh]

end Sunrise
