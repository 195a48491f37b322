import Mathlib.Data.List.Induction
import Mathlib.Data.Nat.Bitwise

/-!
# Bits of bytes

Bits are written most significant first: those of a number of a given width, and those of a
sequence of bytes, eight of each. A number is gathered by shifting the bits in one by one, and bytes
by setting them one by one; either is told by the bits at its places.

* `number`, `toBits` — bits gathered to a number, and those of a number.
* `bitAt`, `ext_bitAt` — **bytes are the bits at their places.**
-/

namespace Bits

abbrev Byte := BitVec 8

def ofBit (b : Bool) : Byte := if b then 1 else 0

theorem getLsbD_ofBit (b : Bool) (i : ℕ) : (ofBit b).getLsbD i = (decide (i = 0) && b) := by
  cases b with
  | false => simp [ofBit]
  | true => cases i <;> simp [ofBit]

@[simp] theorem toNat_ofBit (b : Bool) : (ofBit b).toNat = b.toNat := by cases b <;> rfl

theorem shiftRight_and_one (x : Byte) (i : ℕ) : (x >>> i) &&& 1 = ofBit (x.getLsbD i) := by
  refine BitVec.eq_of_getLsbD_eq fun j _ => ?_
  rw [BitVec.getLsbD_and, BitVec.getLsbD_ushiftRight, getLsbD_ofBit]
  cases j with
  | zero => simp
  | succ j => simp

theorem ofNat_shiftRight_and_one (n i : ℕ) : BitVec.ofNat 8 ((n >>> i) &&& 1) =
    ofBit (n.testBit i) := by
  rw [Nat.and_one_is_mod, Nat.shiftRight_eq_div_pow, Nat.testBit_eq_decide_div_mod_eq]
  rcases Nat.mod_two_eq_zero_or_one (n / 2 ^ i) with h | h <;> rw [h] <;> rfl

/-! ### Numbers -/

/-- Bits shifted in one after another. -/
def number (bits : List Bool) : ℕ := bits.foldl (fun n b => (n <<< 1) ||| b.toNat) 0

@[simp] theorem number_nil : number [] = 0 := rfl

theorem number_concat (bits : List Bool) (b : Bool) :
    number (bits ++ [b]) = (number bits <<< 1) ||| b.toNat := by
  rw [number, List.foldl_append]
  rfl

theorem testBit_toNat (b : Bool) (i : ℕ) : b.toNat.testBit i = (decide (i = 0) && b) := by
  cases b with
  | false => simp
  | true =>
    rw [Bool.toNat_true, Bool.and_true, Bool.eq_iff_iff, decide_eq_true_iff]
    exact Nat.testBit_one_eq_true_iff_self_eq_zero

theorem testBit_number (bits : List Bool) (i : ℕ) : (number bits).testBit i =
    (decide (i < bits.length) && bits.getD (bits.length - 1 - i) false) := by
  induction bits using List.reverseRecOn generalizing i with
  | nil => simp
  | append_singleton bits b ih =>
    rw [number_concat, Nat.testBit_or, Nat.testBit_shiftLeft, testBit_toNat, List.length_append,
      List.length_singleton]
    cases i with
    | zero => simp
    | succ i =>
      have hge : decide (1 ≤ i + 1) = true := decide_eq_true (by omega)
      have hplace : bits.length + 1 - 1 - (i + 1) = bits.length - 1 - i := by omega
      rw [hge, Nat.add_sub_cancel, ih, hplace, Bool.true_and]
      by_cases hi : i < bits.length
      · rw [List.getD_append _ _ _ _ (by omega)]
        simp [hi]
      · simp [hi]

theorem number_lt (bits : List Bool) : number bits < 2 ^ bits.length := by
  refine Nat.lt_pow_two_of_testBit _ fun i hi => ?_
  rw [testBit_number, decide_eq_false (by omega), Bool.false_and]

def toBits (width n : ℕ) : List Bool := (List.range width).map fun j => n.testBit (width - 1 - j)

@[simp] theorem length_toBits (width n : ℕ) : (toBits width n).length = width := by simp [toBits]

theorem toBits_number {bits : List Bool} {width : ℕ} (h : bits.length = width) :
    toBits width (number bits) = bits := by
  refine List.ext_getElem (by rw [length_toBits, h]) fun j hj hj' => ?_
  rw [length_toBits] at hj
  have hplace : width - 1 - (width - 1 - j) = j := by omega
  simp only [toBits, List.getElem_map, List.getElem_range, testBit_number, h, hplace]
  rw [decide_eq_true (by omega), Bool.true_and, List.getElem_eq_getD]

theorem number_toBits {width n : ℕ} (h : n < 2 ^ width) : number (toBits width n) = n := by
  refine Nat.eq_of_testBit_eq fun i => ?_
  rw [testBit_number, length_toBits]
  by_cases hi : i < width
  · have hplace : width - 1 - (width - 1 - i) = i := by omega
    rw [decide_eq_true hi, Bool.true_and, ← List.getElem_eq_getD (h := by simp; omega)]
    simp only [toBits, List.getElem_map, List.getElem_range, hplace]
  · rw [decide_eq_false hi, Bool.false_and,
      Nat.testBit_lt_two_pow (h.trans_le (Nat.pow_le_pow_right (by omega) (by omega)))]

/-! ### Bytes -/

def bitAt (bytes : List Byte) (p : ℕ) : Bool := (bytes.getD (p / 8) 0).getLsbD (7 - p % 8)

theorem ext_bitAt {bytes bytes' : List Byte} (hlen : bytes.length = bytes'.length)
    (h : ∀ p < bytes.length * 8, bitAt bytes p = bitAt bytes' p) : bytes = bytes' := by
  refine List.ext_getElem hlen fun i hi hi' => BitVec.eq_of_getLsbD_eq fun j hj => ?_
  have hp := h (i * 8 + (7 - j)) (by omega)
  unfold bitAt at hp
  rw [show (i * 8 + (7 - j)) / 8 = i by omega, show 7 - (i * 8 + (7 - j)) % 8 = j by omega,
    ← List.getElem_eq_getD, ← List.getElem_eq_getD] at hp
  exact hp

def setBit (bytes : List Byte) (p : ℕ) (value : Byte) : List Byte :=
  bytes.modify (p / 8) (· ||| (value <<< (7 - p % 8)))

theorem bitAt_setBit {bytes : List Byte} {p : ℕ} (hp : p < bytes.length * 8) (b : Bool) (q : ℕ) :
    bitAt (setBit bytes p (ofBit b)) q = (bitAt bytes q || (decide (q = p) && b)) := by
  unfold bitAt setBit
  rw [List.getD_eq_getElem?_getD, List.getD_eq_getElem?_getD, List.getElem?_modify]
  by_cases hbyte : p / 8 = q / 8
  · rw [← hbyte, List.getElem?_eq_getElem (by omega)]
    have hbit : decide (7 - q % 8 < 8) = true := decide_eq_true (by omega)
    have hplace : (decide (7 - q % 8 < 8) && !decide (7 - q % 8 < 7 - p % 8) &&
        decide (7 - q % 8 - (7 - p % 8) = 0)) = decide (q = p) := by
      rw [Bool.eq_iff_iff]
      simp only [Bool.and_eq_true, Bool.not_eq_true', decide_eq_true_eq, decide_eq_false_iff_not]
      omega
    simp only [Option.map_eq_map, if_true, Option.map_some, Option.getD_some,
      BitVec.getLsbD_or, BitVec.getLsbD_shiftLeft,
      getLsbD_ofBit, ← Bool.and_assoc, hplace]
  · simp only [hbyte, if_false]
    rw [decide_eq_false (fun h => hbyte (by rw [h])), Bool.false_and, Bool.or_false]
    simp

/-! ### Pieces of one width -/

theorem flatMap_range {α : Type*} (f : ℕ → α) (width count : ℕ) :
    (List.range count).flatMap (fun i => (List.range width).map fun j => f (i * width + j)) =
      (List.range (count * width)).map f := by
  induction count with
  | zero => simp
  | succ count ih =>
    rw [List.range_succ, List.flatMap_append, ih, Nat.succ_mul, List.range_add, List.map_append]
    simp

end Bits
