import Mathlib.Data.List.Induction
import Mathlib.Tactic.IntervalCases
import Sunrise.Lib.CborBytes
import Sunrise.Lib.Places

/-!
# The text of an entity id

An id is sixteen bytes, written as twenty-six characters of five bits each. The first character has
three bits of payload under two of padding, which the reader wants zero.

* `encodeBytes`, `decodeStr` — an id as text, and read back.
* `text_canonical` — **every id has one text, and texts are in the order of the bytes.**
-/

namespace Sunrise.Crockford

open Cbor

open Places

/-- Sixteen bytes. -/
structure Payload where
  bytes : List ℕ
  length_eq : bytes.length = 16
  byte : ∀ b ∈ bytes, b < 256
deriving DecidableEq

@[ext] theorem Payload.ext {p q : Payload} (h : p.bytes = q.bytes) : p = q := by
  cases p
  cases q
  cases h
  rfl

def alphabet : List Char := "0123456789ABCDEFGHJKMNPQRSTVWXYZ".toList

def encodedLen : ℕ := 26

inductive CrockfordError where
  | badLength (len : ℕ)
  | badChar (ch : Char) (pos : ℕ)
  | badPadding
deriving DecidableEq

/-- A `u128` shifted to the left; the bits at the top are lost. -/
def shl (n k : ℕ) : ℕ := (n <<< k) % 2 ^ 128

/-- The bytes shifted into one number. -/
def payloadOf (bytes : List ℕ) : ℕ := bytes.foldl (fun payload b => shl payload 8 ||| b) 0

/-- The character of the five bits at a shift. -/
def charAt (payload i : ℕ) : Char :=
  alphabet.getD ((payload >>> (125 - 5 * i)) &&& 0x1f) '0'

def encodeBytes (p : Payload) : String :=
  String.ofList ((List.range encodedLen).map (charAt (payloadOf p.bytes)))

/-- The five bits a byte of the text stands for. -/
def valueOf (ch : ℕ) : Option ℕ :=
  if 48 ≤ ch ∧ ch ≤ 57 then some (ch - 48)
  else if 65 ≤ ch ∧ ch ≤ 72 then some (ch - 65 + 10)
  else if 74 ≤ ch ∧ ch ≤ 75 then some (ch - 74 + 18)
  else if 77 ≤ ch ∧ ch ≤ 78 then some (ch - 77 + 20)
  else if 80 ≤ ch ∧ ch ≤ 84 then some (ch - 80 + 22)
  else if 86 ≤ ch ∧ ch ≤ 90 then some (ch - 86 + 27)
  else none

/-- The loop over the bytes from the one at `i`. -/
def decodeLoop : ℕ → ℕ → List ℕ → Except CrockfordError ℕ
  | _, payload, [] => .ok payload
  | i, payload, ch :: s =>
    match valueOf ch with
    | none => .error (.badChar (Char.ofNat ch) i)
    | some val =>
      if i = 0 ∧ 7 < val then .error .badPadding
      else decodeLoop (i + 1) (payload ||| shl val (125 - 5 * i)) s

/-- The lowest `k` bytes, written from the last one. -/
def bytesOf : ℕ → ℕ → List ℕ → List ℕ
  | 0, _, out => out
  | k + 1, payload, out => bytesOf k (payload >>> 8) ((payload &&& 0xff) :: out)

theorem bytesOf_eq (k n : ℕ) (out : List ℕ) : bytesOf k n out = places 256 k n ++ out := by
  induction k generalizing n out with
  | zero => rfl
  | succ k ih =>
    rw [bytesOf, ih, places_succ_last, Nat.shiftRight_eq_div_pow, List.append_assoc,
      Nat.and_two_pow_sub_one_eq_mod n 8]
    rfl

def ofNumber (n : ℕ) : Payload where
  bytes := bytesOf 16 n []
  length_eq := by rw [bytesOf_eq, List.append_nil, length_places]
  byte := by
    intro b hb
    rw [bytesOf_eq, List.append_nil] at hb
    exact lt_of_mem_places (by decide) hb

def decodeStr (s : String) : Except CrockfordError Payload :=
  if s.utf8ByteSize ≠ encodedLen then .error (.badLength s.utf8ByteSize)
  else (decodeLoop 0 0 (utf8 s)).map ofNumber

/-! ### The alphabet -/

/-- The character of a digit. -/
def letter (d : ℕ) : ℕ := (alphabet.getD d '0').toNat

theorem letter_spec {d : ℕ} (hd : d < 32) : valueOf (letter d) = some d ∧ letter d < 128 := by
  interval_cases d <;> exact ⟨rfl, by decide⟩

theorem eq_letter {ch d : ℕ} (h : valueOf ch = some d) : d < 32 ∧ ch = letter d := by
  have hch : ch ≤ 90 := by
    unfold valueOf at h
    split at h <;> [skip; split at h <;> [skip; split at h <;> [skip; split at h <;>
      [skip; split at h <;> [skip; split at h]]]]]
    all_goals first | omega | cases h
  have hall : ∀ ch < 91, ∀ d ∈ valueOf ch, d < 32 ∧ ch = letter d := by decide
  exact hall ch (by omega) d h

theorem letter_lt_iff {d e : ℕ} (hd : d < 32) (he : e < 32) : letter d < letter e ↔ d < e := by
  have hall : ∀ d < 32, ∀ e < 32, letter d < letter e ↔ d < e := by decide
  exact hall d hd e he

theorem map_letter_lt_iff {ds es : List ℕ} (hd : ∀ d ∈ ds, d < 32) (he : ∀ e ∈ es, e < 32) :
    ds.map letter < es.map letter ↔ ds < es := by
  induction ds generalizing es with
  | nil => cases es <;> simp
  | cons d ds ih =>
    cases es with
    | nil => simp
    | cons e es =>
      have hd0 := hd d List.mem_cons_self
      have he0 := he e List.mem_cons_self
      have hd' : ∀ x ∈ ds, x < 32 := fun x hx => hd x (List.mem_cons_of_mem _ hx)
      have he' : ∀ x ∈ es, x < 32 := fun x hx => he x (List.mem_cons_of_mem _ hx)
      have heq : letter d = letter e ↔ d = e := by
        have hde := letter_lt_iff hd0 he0
        have hed := letter_lt_iff he0 hd0
        omega
      simp only [List.map_cons, List.cons_lt_cons_iff, ih hd' he', letter_lt_iff hd0 he0, heq]

/-! ### The writer -/

theorem utf8_ofList {cs : List Char} (h : ∀ c ∈ cs, c.toNat < 128) :
    utf8 (String.ofList cs) = cs.map Char.toNat := by
  have hbytes : cs.flatMap String.utf8EncodeChar = cs.map fun c => UInt8.ofNat c.toNat := by
    induction cs with
    | nil => rfl
    | cons c cs ih =>
      have hc := h c List.mem_cons_self
      have hsize : c.utf8Size = 1 := Char.utf8Size_eq_one_iff.mpr
        (UInt32.le_iff_toNat_le.mpr (Nat.le_of_lt_succ hc))
      rw [List.flatMap_cons, ih fun x hx => h x (List.mem_cons_of_mem _ hx),
        String.utf8EncodeChar_eq_singleton hsize]
      rfl
  rw [utf8, String.toByteArray_ofList, List.utf8Encode, hbytes, List.toList_data_toByteArray,
    List.map_map]
  refine List.map_congr_left fun c hc => ?_
  rw [Function.comp, UInt8.toNat_ofNat', Nat.mod_eq_of_lt ((h c hc).trans (by decide))]

theorem payloadOf_eq {bytes : List ℕ} (hlen : bytes.length ≤ 16) (hb : ∀ b ∈ bytes, b < 256) :
    payloadOf bytes = number 256 bytes := by
  induction bytes using List.reverseRecOn with
  | nil => rfl
  | append_singleton bytes b ih =>
    have hfront : ∀ x ∈ bytes, x < 256 := fun x hx => hb x (List.mem_append_left _ hx)
    have hb256 : b < 2 ^ 8 := hb b (by simp)
    rw [List.length_append, List.length_singleton] at hlen
    have hlt : number 256 bytes < 256 ^ 15 :=
      (number_lt hfront).trans_le (Nat.pow_le_pow_right (by decide) (by omega))
    have hstep : payloadOf (bytes ++ [b]) = shl (payloadOf bytes) 8 ||| b := by
      rw [payloadOf, List.foldl_append]
      rfl
    rw [hstep, ih (by omega) hfront, number_concat, shl, Nat.mod_eq_of_lt,
      ← Nat.shiftLeft_add_eq_or_of_lt hb256, Nat.shiftLeft_eq]
    rw [Nat.shiftLeft_eq]
    norm_num at hlt ⊢
    omega

theorem payloadOf_lt (p : Payload) : payloadOf p.bytes < 2 ^ 128 := by
  rw [payloadOf_eq p.length_eq.le p.byte]
  have hlt := number_lt p.byte
  rw [p.length_eq] at hlt
  exact hlt.trans_eq (by norm_num)

theorem utf8_encodeBytes (p : Payload) :
    utf8 (encodeBytes p) = (places 32 encodedLen (payloadOf p.bytes)).map letter := by
  have hchar (i : ℕ) : (charAt (payloadOf p.bytes) i).toNat =
      letter (payloadOf p.bytes / 32 ^ (25 - i) % 32) := by
    rw [charAt, letter, Nat.and_two_pow_sub_one_eq_mod _ 5, Nat.shiftRight_eq_div_pow]
    rw [show 125 - 5 * i = 5 * (25 - i) by omega, Nat.pow_mul]
  rw [encodeBytes, utf8_ofList, places_eq_map, List.map_map, List.map_map]
  · exact List.map_congr_left fun i _ => hchar i
  · intro c hc
    obtain ⟨i, -, rfl⟩ := List.mem_map.mp hc
    rw [hchar]
    exact (letter_spec (Nat.mod_lt _ (by decide))).2

/-! ### The reader -/

theorem or_shl {m d k : ℕ} (hd : d < 32) (hfit : d * 32 ^ k < 2 ^ 128) :
    m * 32 ^ (k + 1) ||| shl d (5 * k) = (m * 32 + d) * 32 ^ k := by
  have hpow : 32 ^ k = 2 ^ (5 * k) := (Nat.pow_mul 2 5 k).symm
  have hlt : d * 2 ^ (5 * k) < 2 ^ (5 * (k + 1)) := by
    rw [Nat.mul_succ, Nat.pow_add, Nat.mul_comm]
    exact Nat.mul_lt_mul_of_pos_left hd (Nat.pow_pos (by decide))
  rw [hpow] at hfit
  rw [shl, Nat.shiftLeft_eq, Nat.mod_eq_of_lt hfit, hpow, Nat.pow_mul 2 5 (k + 1) |>.symm]
  rw [← Nat.shiftLeft_eq m, ← Nat.shiftLeft_add_eq_or_of_lt hlt, Nat.shiftLeft_eq]
  ring

/-- The first character leaves the padding. -/
def Padded (ds : List ℕ) : Prop := ∀ d ∈ ds.head?, d ≤ 7

theorem decodeLoop_eq {i m : ℕ} {ds : List ℕ} (hlen : i + ds.length = encodedLen)
    (hd : ∀ d ∈ ds, d < 32) (hpad : i = 0 → Padded ds) :
    decodeLoop i (m * 32 ^ ds.length) (ds.map letter) =
      .ok (m * 32 ^ ds.length + number 32 ds) := by
  induction ds generalizing i m with
  | nil => rfl
  | cons d ds ih =>
    have hd0 := hd d List.mem_cons_self
    have hd' : ∀ e ∈ ds, e < 32 := fun e he => hd e (List.mem_cons_of_mem _ he)
    have hi : i + ds.length = 25 := Nat.succ.inj hlen
    have hfirst : i = 0 → d ≤ 7 := fun h => hpad h d rfl
    have hfit : d * 32 ^ ds.length < 2 ^ 128 := by
      rcases Nat.eq_zero_or_pos i with h0 | hpos
      · have hlen25 : ds.length = 25 := by omega
        have := hfirst h0
        rw [hlen25]
        norm_num
        omega
      · have hpow : 32 ^ ds.length ≤ 32 ^ 24 := Nat.pow_le_pow_right (by decide) (by omega)
        calc d * 32 ^ ds.length ≤ 31 * 32 ^ 24 := Nat.mul_le_mul (by omega) hpow
          _ < 2 ^ 128 := by norm_num
    rw [List.map_cons, decodeLoop, (letter_spec hd0).1]
    simp only
    rw [if_neg (by rintro ⟨h0, h7⟩; exact absurd (hfirst h0) (by omega)), List.length_cons]
    rw [show 125 - 5 * i = 5 * ds.length by omega, or_shl hd0 hfit]
    rw [ih (by rw [← hlen, List.length_cons]; omega) hd' (by omega), number]
    congr 1
    ring

theorem decodeLoop_letters {ds : List ℕ} (hlen : ds.length = encodedLen) (hd : ∀ d ∈ ds, d < 32)
    (hpad : Padded ds) : decodeLoop 0 0 (ds.map letter) = .ok (number 32 ds) := by
  have hloop := @decodeLoop_eq 0 0 ds ((Nat.zero_add _).trans hlen) hd fun _ => hpad
  rwa [Nat.zero_mul, Nat.zero_add] at hloop

theorem letters_of_decodeLoop {i payload n : ℕ} {s : List ℕ} (h : decodeLoop i payload s = .ok n) :
    ∃ ds, s = ds.map letter ∧ (∀ d ∈ ds, d < 32) ∧ (i = 0 → Padded ds) := by
  induction s generalizing i payload with
  | nil => exact ⟨[], rfl, by simp, by simp [Padded]⟩
  | cons ch s ih =>
    unfold decodeLoop at h
    split at h
    · cases h
    next val hval =>
      split at h
      · cases h
      next hpad =>
        obtain ⟨ds, rfl, hd, -⟩ := ih h
        obtain ⟨hlt, rfl⟩ := eq_letter hval
        refine ⟨val :: ds, rfl, List.forall_mem_cons.mpr ⟨hlt, hd⟩, fun h0 d hhead => ?_⟩
        cases hhead
        exact Nat.le_of_not_lt fun h7 => hpad ⟨h0, h7⟩

theorem padded_iff {ds : List ℕ} (hlen : ds.length = encodedLen) (hd : ∀ d ∈ ds, d < 32) :
    Padded ds ↔ number 32 ds < 2 ^ 128 := by
  obtain _ | ⟨d, ds⟩ := ds
  · cases hlen
  · have hlen' : ds.length = 25 := Nat.succ.inj hlen
    have hrest := number_lt fun e he => hd e (List.mem_cons_of_mem _ he)
    rw [hlen'] at hrest
    rw [number, hlen', Padded]
    norm_num at hrest ⊢
    omega

theorem bytes_ofNumber (n : ℕ) : (ofNumber n).bytes = places 256 16 n :=
  (bytesOf_eq 16 n []).trans (List.append_nil _)

theorem payloadOf_ofNumber {n : ℕ} (h : n < 2 ^ 128) : payloadOf (ofNumber n).bytes = n := by
  rw [payloadOf_eq (ofNumber n).length_eq.le (ofNumber n).byte, bytes_ofNumber]
  exact number_places (h.trans_eq (by norm_num))

theorem ofNumber_payloadOf (p : Payload) : ofNumber (payloadOf p.bytes) = p := by
  refine Payload.ext ?_
  have hround := places_number p.byte
  rwa [bytes_ofNumber, payloadOf_eq p.length_eq.le p.byte, ← p.length_eq]

/-- The digits an id is written with. -/
def digits (p : Payload) : List ℕ := places 32 encodedLen (payloadOf p.bytes)

theorem length_digits (p : Payload) : (digits p).length = encodedLen := length_places

theorem digits_lt (p : Payload) : ∀ d ∈ digits p, d < 32 := fun _ hd =>
  lt_of_mem_places (by decide) hd

theorem number_digits (p : Payload) : number 32 (digits p) = payloadOf p.bytes :=
  number_places ((payloadOf_lt p).trans (by norm_num [encodedLen]))

theorem utf8_inj {s t : String} (h : utf8 s = utf8 t) : s = t := by
  have hs := ofUtf8_utf8 s
  rw [h, ofUtf8_utf8] at hs
  exact (Option.some.inj hs).symm

theorem decodeStr_encodeBytes (p : Payload) : decodeStr (encodeBytes p) = .ok p := by
  have hpad : Padded (digits p) := by
    apply (padded_iff (length_digits p) (digits_lt p)).mpr
    rw [number_digits]
    exact payloadOf_lt p
  have hloop := decodeLoop_letters (length_digits p) (digits_lt p) hpad
  rw [number_digits, digits, ← utf8_encodeBytes] at hloop
  have hsize : (encodeBytes p).utf8ByteSize = encodedLen := by
    rw [← length_utf8, utf8_encodeBytes, List.length_map, length_places]
  rw [decodeStr, if_neg (not_not.mpr hsize), hloop, Except.map, ofNumber_payloadOf]

theorem decodeStr_eq_ok_iff (s : String) (p : Payload) :
    decodeStr s = .ok p ↔ s = encodeBytes p := by
  constructor
  · intro h
    unfold decodeStr at h
    split at h
    · cases h
    next hsize =>
      obtain ⟨n, hloop, rfl⟩ : ∃ n, decodeLoop 0 0 (utf8 s) = .ok n ∧ ofNumber n = p := by
        cases hloop : decodeLoop 0 0 (utf8 s) with
        | error e => rw [hloop] at h; cases h
        | ok n => rw [hloop] at h; exact ⟨n, rfl, Except.ok.inj h⟩
      obtain ⟨ds, hs, hd, hpad⟩ := letters_of_decodeLoop hloop
      have hlen : ds.length = encodedLen := by
        rw [← not_not.mp hsize, ← length_utf8, hs, List.length_map]
      have hn := decodeLoop_letters hlen hd (hpad rfl)
      rw [← hs, hloop] at hn
      cases hn
      -- The number has 128 bits, and so the bytes of it have the digits that were read.
      have hlt := (padded_iff hlen hd).mp (hpad rfl)
      apply utf8_inj
      rw [utf8_encodeBytes, payloadOf_ofNumber hlt, hs, ← hlen, places_number hd]
  · rintro rfl
    exact decodeStr_encodeBytes p

/-- **Every id has one text, every text that is read is an id's, and texts are in the order of the
bytes.** -/
theorem text_canonical (p q : Payload) (s : String) :
    decodeStr (encodeBytes p) = .ok p ∧
    ((∃ r, decodeStr s = .ok r) ↔ ∃ r, s = encodeBytes r) ∧
    (encodeBytes p = encodeBytes q ↔ p = q) ∧
    (decodeStr s = .ok p ↔ s = encodeBytes p) ∧
    (utf8 (encodeBytes p) < utf8 (encodeBytes q) ↔ p.bytes < q.bytes) := by
  refine ⟨decodeStr_encodeBytes p, exists_congr fun r => decodeStr_eq_ok_iff s r, ?_,
    decodeStr_eq_ok_iff s p, ?_⟩
  · refine ⟨fun h => ?_, fun h => h ▸ rfl⟩
    have hp := (decodeStr_eq_ok_iff _ q).mpr h
    rw [decodeStr_encodeBytes] at hp
    exact Except.ok.inj hp
  · have hlen : (digits p).length = (digits q).length := by rw [length_digits, length_digits]
    calc utf8 (encodeBytes p) < utf8 (encodeBytes q)
        ↔ (digits p).map letter < (digits q).map letter := by
          rw [utf8_encodeBytes, utf8_encodeBytes, digits, digits]
      _ ↔ digits p < digits q := map_letter_lt_iff (digits_lt p) (digits_lt q)
      _ ↔ number 32 (digits p) < number 32 (digits q) :=
          (number_lt_iff hlen (digits_lt p) (digits_lt q)).symm
      _ ↔ number 256 p.bytes < number 256 q.bytes := by
          rw [number_digits, number_digits, payloadOf_eq p.length_eq.le p.byte,
            payloadOf_eq q.length_eq.le q.byte]
      _ ↔ p.bytes < q.bytes := number_lt_iff (p.length_eq.trans q.length_eq.symm) p.byte q.byte

end Sunrise.Crockford
