import Mathlib.Data.Char
import Mathlib.Data.List.Lex
import Sunrise.Lib.Ascending
import Sunrise.Lib.Bits
import Sunrise.Lib.Result
import Sunrise.Lib.Text

/-!
# Recovery codes

A recovery code is some words of a list of 2048: the bits of the entropy and the first bits of its
SHA-256 behind them, eleven bits a word.

* `encode`, `decode` — the two bit walks.
* `decode_iff_encode` — **what decodes is what was encoded**, up to case and white space.
-/

namespace Sunrise.Bip39

open Text Bits

open Bits (Byte bitAt ofBit)

/-! ### The list -/

def wordlistLen : ℕ := 2048

def bitsPerWord : ℕ := 11

/-- Raw entropy behind a recovery code, in bytes. -/
def recoveryEntropyLen : ℕ := 32

def recoveryWordCount : ℕ := 24

/-- Why a mnemonic could not be encoded or decoded. -/
inductive Bip39Error
  | entropyLen (len : ℕ)
  | wordCount (count : ℕ)
  | unknownWord (position : ℕ)
  | checksum
  deriving DecidableEq, Repr

/-- A list of words to write codes in. -/
structure Wordlist where
  list : List Text
  length_list : list.length = wordlistLen
  sorted : list.Pairwise (· < ·)
  /-- Every word is one or more of the letters `a` to `z`. -/
  lowercase : ∀ w ∈ list, w ≠ [] ∧ ∀ c ∈ w, c.isLower = true

abbrev Sha256 := List Byte → Vector Byte 32

variable (list : Wordlist) (sha256 : Sha256)

def checksumBits (entropyLen : ℕ) : Except Bip39Error ℕ :=
  if entropyLen ∈ [16, 20, 24, 28, 32] then .ok (entropyLen * 8 / 32)
  else .error (.entropyLen entropyLen)

/-- The first `bits` bits of the digest, right-aligned. -/
def checksum (entropy : List Byte) (bits : ℕ) : Byte := (sha256 entropy)[0] >>> (8 - bits)

/-! ### Encoding -/

def bitValue (entropy : List Byte) (csBits : ℕ) (cs : Byte) (pos : ℕ) : Byte :=
  if pos < entropy.length * 8 then (entropy.getD (pos / 8) 0 >>> (7 - pos % 8)) &&& 1
  else (cs >>> (csBits - 1 - (pos - entropy.length * 8))) &&& 1

def wordIndex (entropy : List Byte) (csBits : ℕ) (cs : Byte) (word : ℕ) : ℕ :=
  (List.range bitsPerWord).foldl
    (fun index bit =>
      (index <<< 1) ||| (bitValue entropy csBits cs (word * bitsPerWord + bit)).toNat) 0

def encode (entropy : List Byte) : Except Bip39Error Text := do
  let csBits ← checksumBits entropy.length
  let totalBits := entropy.length * 8 + csBits
  let cs := checksum sha256 entropy csBits
  return (List.range (totalBits / bitsPerWord)).foldl
    (fun out word => (if 0 < word then out ++ [' '] else out) ++
      list.list.getD (wordIndex entropy csBits cs word) [])
    []

/-! ### Decoding -/

/-- What the words read so far have left. -/
structure Unpacked where
  entropy : List Byte
  csSeen : Byte
  bitPos : ℕ

/-- One bit of a word read. -/
def Unpacked.push (entropyLen : ℕ) (u : Unpacked) (value : Byte) : Unpacked :=
  if u.bitPos < entropyLen * 8 then
    { u with
      entropy := u.entropy.modify (u.bitPos / 8) (· ||| (value <<< (7 - u.bitPos % 8)))
      bitPos := u.bitPos + 1 }
  else { u with csSeen := (u.csSeen <<< 1) ||| value, bitPos := u.bitPos + 1 }

/-- The bits of a word read, the most significant first. -/
def Unpacked.pushWord (entropyLen : ℕ) (u : Unpacked) (index : ℕ) : Unpacked :=
  (List.range bitsPerWord).reverse.foldl
    (fun u bit => u.push entropyLen (BitVec.ofNat 8 ((index >>> bit) &&& 1))) u

/-- How much entropy so many words carry. -/
def entropyLenOf : ℕ → Except Bip39Error ℕ
  | 12 => .ok 16
  | 15 => .ok 20
  | 18 => .ok 24
  | 21 => .ok 28
  | 24 => .ok 32
  | other => .error (.wordCount other)

def readWord (entropyLen : ℕ) (u : Unpacked) (word : Text × ℕ) : Except Bip39Error Unpacked :=
  match Ascending.binarySearch list.list (lower word.1) with
  | some index => .ok (u.pushWord entropyLen index)
  | none => .error (.unknownWord (word.2 + 1))

/-- Decode a mnemonic back to its entropy, verifying the checksum. -/
def decode (mnemonic : Text) : Except Bip39Error (List Byte) := do
  let ws := words mnemonic
  let entropyLen ← entropyLenOf ws.length
  let csBits ← checksumBits entropyLen
  let u ← ws.zipIdx.foldlM (readWord list entropyLen) ⟨List.replicate entropyLen 0, 0, 0⟩
  if u.csSeen ≠ checksum sha256 u.entropy csBits then .error .checksum else .ok u.entropy

def encodeRecoveryCode (seed : Vector Byte recoveryEntropyLen) : Text :=
  match encode list sha256 seed.toList with
  | .ok code => code
  | .error _ => []

/-- Decode a code of 24 words back to its seed. -/
def decodeRecoveryCode (mnemonic : Text) : Except Bip39Error (Vector Byte recoveryEntropyLen) :=
  let count := (words mnemonic).length
  if count ≠ recoveryWordCount then .error (.wordCount count)
  else do
    let entropy ← decode list sha256 mnemonic
    if h : entropy.length = recoveryEntropyLen then .ok ⟨entropy.toArray, by simpa using h⟩
    else .error (.entropyLen entropy.length)

/-! ### The bits of a code -/

variable {list : Wordlist} {sha256 : Sha256}

/-- The bit of a code at a place: of the entropy, and of the checksum behind it. -/
def codeBit (entropy : List Byte) (csBits : ℕ) (cs : Byte) (pos : ℕ) : Bool :=
  if pos < entropy.length * 8 then bitAt entropy pos
  else cs.getLsbD (csBits - 1 - (pos - entropy.length * 8))

theorem bitValue_eq (entropy : List Byte) (csBits : ℕ) (cs : Byte) (pos : ℕ) :
    bitValue entropy csBits cs pos = ofBit (codeBit entropy csBits cs pos) := by
  unfold bitValue codeBit
  split <;> exact shiftRight_and_one _ _

/-- The places in the list of the words of a code. -/
def indices (entropy : List Byte) (csBits : ℕ) (cs : Byte) : List ℕ :=
  (List.range ((entropy.length * 8 + csBits) / bitsPerWord)).map (wordIndex entropy csBits cs)

theorem wordIndex_eq (entropy : List Byte) (csBits : ℕ) (cs : Byte) (word : ℕ) :
    wordIndex entropy csBits cs word = number ((List.range bitsPerWord).map fun bit =>
      codeBit entropy csBits cs (word * bitsPerWord + bit)) := by
  rw [wordIndex, number, List.foldl_map]
  simp only [bitValue_eq, toNat_ofBit]

variable {entropy : List Byte}

theorem lt_of_mem_indices {csBits : ℕ} {cs : Byte} {index : ℕ}
    (h : index ∈ indices entropy csBits cs) : index < wordlistLen := by
  obtain ⟨word, -, rfl⟩ := List.mem_map.mp h
  rw [wordIndex_eq]
  refine (number_lt _).trans_eq ?_
  rw [List.length_map, List.length_range]
  rfl

theorem flatMap_indices {csBits : ℕ} (cs : Byte)
    (h : bitsPerWord ∣ entropy.length * 8 + csBits) :
    (indices entropy csBits cs).flatMap (toBits bitsPerWord) =
      (List.range (entropy.length * 8 + csBits)).map (codeBit entropy csBits cs) := by
  have hword (word : ℕ) : toBits bitsPerWord (wordIndex entropy csBits cs word) =
      (List.range bitsPerWord).map fun bit =>
        codeBit entropy csBits cs (word * bitsPerWord + bit) := by
    rw [wordIndex_eq, toBits_number (by simp)]
  rw [indices, List.flatMap_map]
  simp only [hword]
  rw [flatMap_range, Nat.div_mul_cancel h]

theorem number_toBits {i : ℕ} (h : i < wordlistLen) :
    Bits.number (Bits.toBits bitsPerWord i) = i := Bits.number_toBits h

theorem eq_of_flatMap_toBits {is js : List ℕ} (his : ∀ i ∈ is, i < wordlistLen)
    (hjs : ∀ j ∈ js, j < wordlistLen)
    (h : is.flatMap (toBits bitsPerWord) = js.flatMap (toBits bitsPerWord)) :
    is = js := by
  have hnil (k : ℕ) (ks : List ℕ) :
      (k :: ks).flatMap (toBits bitsPerWord) ≠ [] := by
    intro hempty
    have hlen := congrArg List.length hempty
    rw [List.flatMap_cons, List.length_append, length_toBits] at hlen
    exact absurd hlen (by simp [bitsPerWord])
  induction is generalizing js with
  | nil =>
    cases js with
    | nil => rfl
    | cons j js => exact absurd h.symm (hnil j js)
  | cons i is ih =>
    cases js with
    | nil => exact absurd h (hnil i is)
    | cons j js =>
      rw [List.flatMap_cons, List.flatMap_cons] at h
      obtain ⟨hij, hrest⟩ := List.append_inj h (by simp)
      have hhead : i = j := by
        rw [← number_toBits (his i List.mem_cons_self), hij,
          number_toBits (hjs j List.mem_cons_self)]
      rw [hhead, ih (fun i hi => his i (List.mem_cons_of_mem _ hi))
        (fun j hj => hjs j (List.mem_cons_of_mem _ hj)) hrest]

/-! ### The bits read back -/

structure Unpacked.Read (entropyLen : ℕ) (bits : List Bool) (u : Unpacked) : Prop where
  bitPos : u.bitPos = bits.length
  length_entropy : u.entropy.length = entropyLen
  entropy : ∀ p < entropyLen * 8, bitAt u.entropy p = bits.getD p false
  csSeen : ∀ i < 8, u.csSeen.getLsbD i =
    (decide (i < bits.length - entropyLen * 8) && bits.getD (bits.length - 1 - i) false)

theorem Unpacked.read_nil (entropyLen : ℕ) :
    Unpacked.Read entropyLen [] ⟨List.replicate entropyLen 0, 0, 0⟩ where
  bitPos := rfl
  length_entropy := List.length_replicate
  entropy p hp := by
    rw [bitAt, List.getD_replicate _ (by omega)]
    simp
  csSeen i _ := by simp

theorem getD_concat (bits : List Bool) (b : Bool) (p : ℕ) :
    (bits ++ [b]).getD p false = (bits.getD p false || (decide (p = bits.length) && b)) := by
  rcases Nat.lt_trichotomy p bits.length with h | rfl | h
  · rw [List.getD_append _ _ _ _ h, decide_eq_false h.ne, Bool.false_and, Bool.or_false]
  · rw [List.getD_append_right _ _ _ _ le_rfl]
    simp
  · rw [List.getD_eq_default _ _ (by simpa using h), List.getD_eq_default _ _ h.le,
      decide_eq_false h.ne', Bool.false_and, Bool.or_false]

variable {bits : List Bool} {u : Unpacked}

theorem Unpacked.Read.push {entropyLen : ℕ}
    (h : u.Read entropyLen bits) (b : Bool) :
    (u.push entropyLen (ofBit b)).Read entropyLen (bits ++ [b]) := by
  obtain ⟨hpos, hlen, hentropy, hcs⟩ := h
  unfold Unpacked.push
  split
  next hin =>
    refine ⟨by simp [hpos], by simpa using hlen, fun p hp => ?_, fun i hi => ?_⟩
    · have hbit : u.bitPos < u.entropy.length * 8 := by omega
      have hset := bitAt_setBit hbit b p
      rw [setBit] at hset
      rw [hset, hentropy p hp, hpos, getD_concat]
    · rw [hcs i hi, List.length_append, List.length_singleton, decide_eq_false (by omega),
        decide_eq_false (by omega), Bool.false_and, Bool.false_and]
  next hout =>
    refine ⟨by simp [hpos], hlen, fun p hp => ?_, fun i hi => ?_⟩
    · rw [getD_concat, hentropy p hp, decide_eq_false (by omega), Bool.false_and, Bool.or_false]
    · rw [BitVec.getLsbD_or, BitVec.getLsbD_shiftLeft, getLsbD_ofBit, List.length_append,
        List.length_singleton, getD_concat, decide_eq_true hi]
      cases i with
      | zero =>
        rw [decide_eq_true (by omega : 0 < bits.length + 1 - entropyLen * 8),
          decide_eq_true (by omega : bits.length + 1 - 1 - 0 = bits.length),
          List.getD_eq_default _ _ (by omega)]
        simp
      | succ i =>
        rw [Nat.add_sub_cancel, hcs i (by omega),
          show bits.length + 1 - 1 - (i + 1) = bits.length - 1 - i by omega]
        by_cases hin : i < bits.length - entropyLen * 8
        · have hin' : i + 1 < bits.length + 1 - entropyLen * 8 := by omega
          rw [decide_eq_true hin, decide_eq_true hin',
            decide_eq_false (by omega : ¬ bits.length - 1 - i = bits.length)]
          simp
        · have hin' : ¬ i + 1 < bits.length + 1 - entropyLen * 8 := by omega
          rw [decide_eq_false hin, decide_eq_false hin']
          simp

theorem Unpacked.read_foldl {entropyLen : ℕ} (more : List Bool)
    (h : u.Read entropyLen bits) :
    (more.foldl (fun u b => u.push entropyLen (ofBit b)) u).Read entropyLen (bits ++ more) := by
  induction more generalizing bits u with
  | nil => simpa using h
  | cons b more ih =>
    have hrest := ih (h.push b)
    rwa [List.append_assoc] at hrest

theorem Unpacked.Read.pushWord {entropyLen : ℕ}
    (h : u.Read entropyLen bits) (index : ℕ) :
    (u.pushWord entropyLen index).Read entropyLen (bits ++ toBits bitsPerWord index) := by
  have hbits : (List.range bitsPerWord).reverse.map index.testBit =
      toBits bitsPerWord index := rfl
  have hread := Unpacked.read_foldl ((List.range bitsPerWord).reverse.map index.testBit) h
  rw [List.foldl_map, hbits] at hread
  unfold Unpacked.pushWord
  simpa only [ofNat_shiftRight_and_one] using hread

theorem Unpacked.read_words {entropyLen : ℕ} (is : List ℕ)
    (h : u.Read entropyLen bits) : (is.foldl (Unpacked.pushWord entropyLen) u).Read entropyLen
      (bits ++ is.flatMap (toBits bitsPerWord)) := by
  induction is generalizing bits u with
  | nil => simpa using h
  | cons i is ih =>
    have hrest := ih (h.pushWord i)
    rwa [List.append_assoc] at hrest

/-- **What bits leave is an entropy with its checksum behind just if they are the bits of its
code.** -/
theorem Unpacked.Read.iff {entropyLen csBits : ℕ}
    (h : u.Read entropyLen bits) (hcs : csBits ≤ 8)
    (hbits : bits.length = entropyLen * 8 + csBits) (entropy : List Byte) :
    u.entropy = entropy ∧ u.csSeen = checksum sha256 entropy csBits ↔
      entropy.length = entropyLen ∧ bits = (List.range (entropy.length * 8 + csBits)).map
        (codeBit entropy csBits (checksum sha256 entropy csBits)) := by
  constructor
  · rintro ⟨rfl, hseen⟩
    refine ⟨h.length_entropy, List.ext_getElem (by simp [hbits, h.length_entropy]) fun p hp _ => ?_⟩
    rw [List.getElem_map, List.getElem_range, codeBit, h.length_entropy, List.getElem_eq_getD]
    split
    next hin => exact (h.entropy p hin).symm
    next hout =>
      rw [← hseen, h.csSeen _ (by omega), decide_eq_true (by omega), Bool.true_and]
      congr 1
      omega
  · rintro ⟨rfl, rfl⟩
    have hplace (p : ℕ) (hp : p < entropy.length * 8 + csBits) :
        ((List.range (entropy.length * 8 + csBits)).map (codeBit entropy csBits
          (checksum sha256 entropy csBits))).getD p false =
        codeBit entropy csBits (checksum sha256 entropy csBits) p := by
      rw [← List.getElem_eq_getD (h := by simpa using hp), List.getElem_map, List.getElem_range]
    constructor
    · refine ext_bitAt h.length_entropy fun p hp => ?_
      rw [h.length_entropy] at hp
      rw [h.entropy p hp, hplace p (by omega), codeBit, if_pos hp]
    · refine BitVec.eq_of_getLsbD_eq fun i hi => ?_
      rw [h.csSeen i hi, List.length_map, List.length_range]
      by_cases hin : i < csBits
      · rw [decide_eq_true (by omega), Bool.true_and, hplace _ (by omega), codeBit,
          if_neg (by omega)]
        congr 1
        omega
      · rw [decide_eq_false (by omega), Bool.false_and, checksum, BitVec.getLsbD_ushiftRight,
          BitVec.getLsbD_of_ge _ _ (by omega)]

/-! ### Words -/

def Wordlist.word (list : Wordlist) (index : ℕ) : Text := list.list.getD index []

theorem Wordlist.getElem?_list (list : Wordlist) {index : ℕ} (h : index < wordlistLen) :
    list.list[index]? = some (list.word index) := by
  rw [← list.length_list] at h
  rw [Wordlist.word, List.getElem?_eq_getElem h, ← List.getElem_eq_getD]

theorem Wordlist.eq_word (list : Wordlist) {index : ℕ} {word : Text}
    (h : list.list[index]? = some word) : index < wordlistLen ∧ word = list.word index := by
  have hlt := (List.getElem?_eq_some_iff.mp h).1
  rw [list.length_list] at hlt
  exact ⟨hlt, Option.some.inj (h.symm.trans (list.getElem?_list hlt))⟩

theorem Wordlist.isWord (list : Wordlist) {index : ℕ} (h : index < wordlistLen) :
    Text.IsWord (list.word index) := by
  obtain ⟨hne, hlower⟩ := list.lowercase _ (List.mem_of_getElem? (list.getElem?_list h))
  refine ⟨hne, fun c hc => isSpace_of_isAlphanum ?_⟩
  have halpha : c.isAlpha = true := Bool.or_eq_true_iff.mpr (.inr (hlower c hc))
  exact Bool.or_eq_true_iff.mpr (.inl halpha)

theorem Wordlist.lower_word (list : Wordlist) {index : ℕ} (h : index < wordlistLen) :
    lower (list.word index) = list.word index := by
  obtain ⟨-, hlower⟩ := list.lowercase _ (List.mem_of_getElem? (list.getElem?_list h))
  refine lower_eq_self fun c hc => dif_neg fun hupper => ?_
  have hlo : 97 ≤ c.toNat := of_decide_eq_true (Bool.and_eq_true_iff.mp (hlower c hc)).1
  have hhi : c.toNat ≤ 90 := hupper.2
  omega

/-! ### Lengths -/

theorem checksumBits_eq_ok_iff {entropyLen csBits : ℕ} : checksumBits entropyLen = .ok csBits ↔
    entropyLen ∈ [16, 20, 24, 28, 32] ∧ csBits = entropyLen / 4 := by
  unfold checksumBits
  split
  next h =>
    rw [Except.ok.injEq, eq_comm, Nat.mul_comm]
    simp only [h, true_and]
    rw [show 32 = 8 * 4 from rfl, Nat.mul_div_mul_left _ _ (by decide)]
  next h => simp [h]

theorem entropyLenOf_eq_ok_iff {count entropyLen : ℕ} : entropyLenOf count = .ok entropyLen ↔
    entropyLen ∈ [16, 20, 24, 28, 32] ∧
      count * bitsPerWord = entropyLen * 8 + entropyLen / 4 := by
  unfold entropyLenOf bitsPerWord
  simp only [List.mem_cons, List.not_mem_nil, or_false]
  split
  case h_6 other h12 h15 h18 h21 h24 =>
    simp only [reduceCtorEq, false_iff, not_and]
    rintro (rfl | rfl | rfl | rfl | rfl) hcount
    · exact h12 (by omega)
    · exact h15 (by omega)
    · exact h18 (by omega)
    · exact h21 (by omega)
    · exact h24 (by omega)
  all_goals
    rw [Except.ok.injEq]
    omega

/-! ### The two directions -/

theorem foldl_words (word : ℕ → Text) (count : ℕ) :
    (List.range count).foldl
      (fun out i => (if 0 < i then out ++ [' '] else out) ++ word i) [] =
      spaced ((List.range count).map word) := by
  induction count with
  | zero => rfl
  | succ count ih =>
    rw [List.range_succ, List.foldl_append, ih, List.map_append, List.map_singleton,
      spaced_concat, List.foldl_cons, List.foldl_nil]
    cases count with
    | zero => rfl
    | succ count => simp

theorem encode_eq_ok_iff {code : Text} :
    encode list sha256 entropy = .ok code ↔ ∃ csBits, checksumBits entropy.length = .ok csBits ∧
      code = spaced ((indices entropy csBits (checksum sha256 entropy csBits)).map
        list.word) := by
  unfold encode
  rw [Result.bind_eq_ok_iff]
  refine exists_congr fun csBits => and_congr_right fun _ => ?_
  rw [indices, List.map_map]
  show Except.ok _ = _ ↔ _
  rw [Except.ok.injEq, eq_comm]
  refine iff_of_eq (congrArg (code = ·) ?_)
  exact foldl_words (fun word => list.word (wordIndex entropy csBits
    (checksum sha256 entropy csBits) word)) _

theorem foldlM_readWord {entropyLen start : ℕ} {ws : List Text} {u u' : Unpacked} :
    (ws.zipIdx start).foldlM (readWord list entropyLen) u = .ok u' ↔
      ∃ is : List ℕ, (∀ i ∈ is, i < wordlistLen) ∧ ws.map lower = is.map list.word ∧
        u' = is.foldl (Unpacked.pushWord entropyLen) u := by
  induction ws generalizing start u with
  | nil =>
    rw [List.zipIdx_nil, List.foldlM_nil, List.map_nil]
    constructor
    · intro h
      exact ⟨[], by simp, rfl, (Except.ok.inj h).symm⟩
    · rintro ⟨is, -, hmap, rfl⟩
      rw [List.map_eq_nil_iff.mp hmap.symm]
      rfl
  | cons w ws ih =>
    rw [List.zipIdx_cons, List.foldlM_cons, Result.bind_eq_ok_iff]
    constructor
    · rintro ⟨v, hv, hrest⟩
      obtain ⟨is, his, hmap, rfl⟩ := ih.mp hrest
      unfold readWord at hv
      split at hv
      next index hfound =>
        obtain ⟨hlt, hword⟩ :=
          list.eq_word ((Ascending.binarySearch_eq_some_iff list.sorted).mp hfound)
        refine ⟨index :: is, ?_, ?_, ?_⟩
        · exact List.forall_mem_cons.mpr ⟨hlt, his⟩
        · rw [List.map_cons, List.map_cons, hword, hmap]
        · rw [← Except.ok.inj hv, List.foldl_cons]
      next => cases hv
    · rintro ⟨is, his, hmap, rfl⟩
      cases is with
      | nil => simp at hmap
      | cons index is =>
        rw [List.map_cons, List.map_cons, List.cons.injEq] at hmap
        obtain ⟨hlt, his⟩ := List.forall_mem_cons.mp his
        refine ⟨u.pushWord entropyLen index, ?_, ih.mpr ⟨is, his, hmap.2, rfl⟩⟩
        have hfound : Ascending.binarySearch list.list (lower w) = some index := by
          rw [Ascending.binarySearch_eq_some_iff list.sorted, hmap.1]
          exact list.getElem?_list hlt
        rw [readWord, hfound]

theorem dvd_of_checksumBits {entropyLen csBits : ℕ} (h : checksumBits entropyLen = .ok csBits) :
    csBits ≤ 8 ∧ bitsPerWord ∣ entropyLen * 8 + csBits := by
  obtain ⟨hmem, rfl⟩ := checksumBits_eq_ok_iff.mp h
  unfold bitsPerWord
  simp only [List.mem_cons, List.not_mem_nil, or_false] at hmem
  omega

theorem entropyLenOf_eq_ok_iff_of_checksumBits {count entropyLen csBits : ℕ}
    (h : checksumBits entropyLen = .ok csBits) :
    entropyLenOf count = .ok entropyLen ↔ count * bitsPerWord = entropyLen * 8 + csBits := by
  obtain ⟨hmem, rfl⟩ := checksumBits_eq_ok_iff.mp h
  rw [entropyLenOf_eq_ok_iff]
  exact and_iff_right hmem

theorem length_flatMap_toBits (is : List ℕ) :
    (is.flatMap (toBits bitsPerWord)).length = is.length * bitsPerWord := by
  simp

/-- **What decodes is the words of a code.** -/
theorem decode_eq_ok_iff {mnemonic : Text} :
    decode list sha256 mnemonic = .ok entropy ↔ ∃ csBits,
      checksumBits entropy.length = .ok csBits ∧
      (words mnemonic).map lower =
        (indices entropy csBits (checksum sha256 entropy csBits)).map list.word := by
  unfold decode
  simp only [Result.bind_eq_ok_iff, foldlM_readWord]
  -- The words of a code read the bits they carry.
  have hread (entropyLen : ℕ) (is : List ℕ) := Unpacked.read_words is (Unpacked.read_nil entropyLen)
  simp only [List.nil_append] at hread
  constructor
  · rintro ⟨entropyLen, hlen, csBits, hcs, _, ⟨is, his, hmap, rfl⟩, h⟩
    have hcount := (entropyLenOf_eq_ok_iff_of_checksumBits hcs).mp hlen
    have hwords : (words mnemonic).length = is.length := by
      simpa using congrArg List.length hmap
    split at h
    next => cases h
    next hseen =>
      have hentropy := Except.ok.inj h
      rw [not_not, hentropy] at hseen
      obtain ⟨rfl, hcode⟩ := ((hread entropyLen is).iff (dvd_of_checksumBits hcs).1
        (by rw [length_flatMap_toBits, ← hwords, hcount]) entropy).mp ⟨hentropy, hseen⟩
      rw [← flatMap_indices _ (dvd_of_checksumBits hcs).2] at hcode
      refine ⟨csBits, hcs, ?_⟩
      rw [hmap, eq_of_flatMap_toBits his (fun _ => lt_of_mem_indices) hcode]
  · rintro ⟨csBits, hcs, hmap⟩
    have hbits := flatMap_indices (checksum sha256 entropy csBits) (dvd_of_checksumBits hcs).2
    have hlength := congrArg List.length hbits
    rw [length_flatMap_toBits, List.length_map, List.length_range] at hlength
    have hwords := congrArg List.length hmap
    rw [List.length_map, List.length_map] at hwords
    have hunpack := ((hread entropy.length (indices entropy csBits _)).iff
      (dvd_of_checksumBits hcs).1 (by rw [length_flatMap_toBits, hlength]) entropy).mpr ⟨rfl, hbits⟩
    refine ⟨entropy.length, ?_, csBits, hcs, _, ⟨_, fun _ => lt_of_mem_indices, hmap, rfl⟩, ?_⟩
    · rw [entropyLenOf_eq_ok_iff_of_checksumBits hcs, hwords, hlength]
    · rw [hunpack.1, if_neg (not_not.mpr hunpack.2)]

theorem words_encode {code : Text}
    (h : encode list sha256 entropy = .ok code) : ∃ csBits,
      checksumBits entropy.length = .ok csBits ∧ words code =
        (indices entropy csBits (checksum sha256 entropy csBits)).map list.word := by
  obtain ⟨csBits, hcs, rfl⟩ := encode_eq_ok_iff.mp h
  refine ⟨csBits, hcs, words_spaced_self fun w hw => ?_⟩
  obtain ⟨index, hindex, rfl⟩ := List.mem_map.mp hw
  exact list.isWord (lt_of_mem_indices hindex)

theorem encode_of_checksumBits (list : Wordlist) (sha256 : Sha256)
    {csBits : ℕ} (h : checksumBits entropy.length = .ok csBits) : encode list sha256 entropy =
      .ok (spaced ((indices entropy csBits (checksum sha256 entropy csBits)).map list.word)) :=
  encode_eq_ok_iff.mpr ⟨csBits, h, rfl⟩

/-- **What decodes is what was encoded**, up to case and white space. -/
theorem decode_iff_encode {mnemonic : Text} :
    decode list sha256 mnemonic = .ok entropy ↔ ∃ code, encode list sha256 entropy = .ok code ∧
      (words mnemonic).map lower = words code := by
  rw [decode_eq_ok_iff]
  constructor
  · rintro ⟨csBits, hcs, hmap⟩
    have hencode := encode_of_checksumBits list sha256 hcs
    obtain ⟨csBits', hcs', hwords⟩ := words_encode hencode
    obtain rfl := Except.ok.inj (hcs.symm.trans hcs')
    exact ⟨_, hencode, hmap.trans hwords.symm⟩
  · rintro ⟨code, hencode, hmap⟩
    obtain ⟨csBits, hcs, hwords⟩ := words_encode hencode
    exact ⟨csBits, hcs, hmap.trans hwords⟩

theorem exists_encode (list : Wordlist) (sha256 : Sha256)
    (h : entropy.length ∈ [16, 20, 24, 28, 32]) : ∃ code, encode list sha256 entropy = .ok code ∧
      (words code).map lower = words code := by
  have hcs := checksumBits_eq_ok_iff.mpr ⟨h, rfl⟩
  have hencode := encode_of_checksumBits list sha256 hcs
  obtain ⟨csBits, -, hwords⟩ := words_encode hencode
  refine ⟨_, hencode, ?_⟩
  rw [hwords, List.map_map]
  exact List.map_congr_left fun index hindex => list.lower_word (lt_of_mem_indices hindex)

theorem length_of_decode {mnemonic : Text}
    (h : decode list sha256 mnemonic = .ok entropy) :
    entropyLenOf (words mnemonic).length = .ok entropy.length := by
  obtain ⟨csBits, hcs, hmap⟩ := decode_eq_ok_iff.mp h
  rw [entropyLenOf_eq_ok_iff_of_checksumBits hcs]
  have hlength := congrArg List.length hmap
  rw [List.length_map, List.length_map, indices, List.length_map, List.length_range] at hlength
  rw [hlength, Nat.div_mul_cancel (dvd_of_checksumBits hcs).2]

theorem length_toList_mem (seed : Vector Byte recoveryEntropyLen) :
    seed.toList.length ∈ [16, 20, 24, 28, 32] := by
  rw [Vector.length_toList]
  decide

theorem encodeRecoveryCode_eq (seed : Vector Byte recoveryEntropyLen) :
    encode list sha256 seed.toList = .ok (encodeRecoveryCode list sha256 seed) := by
  obtain ⟨code, hcode, -⟩ := exists_encode list sha256 (length_toList_mem seed)
  rw [encodeRecoveryCode, hcode]

theorem decodeRecoveryCode_eq_ok_iff {mnemonic : Text}
    {seed : Vector Byte recoveryEntropyLen} :
    decodeRecoveryCode list sha256 mnemonic = .ok seed ↔
      decode list sha256 mnemonic = .ok seed.toList := by
  unfold decodeRecoveryCode
  dsimp only
  constructor
  · intro h
    split at h
    next => cases h
    next =>
      obtain ⟨entropy, hentropy, h⟩ := Result.bind_eq_ok_iff.mp h
      split at h
      next => rw [hentropy, ← Except.ok.inj h]; rfl
      next => cases h
  · intro h
    have hlen := length_of_decode h
    rw [Vector.length_toList] at hlen
    have hcount : (words mnemonic).length = recoveryWordCount := by
      have := (entropyLenOf_eq_ok_iff.mp hlen).2
      unfold bitsPerWord recoveryEntropyLen at this
      unfold recoveryWordCount
      omega
    rw [if_neg (not_not.mpr hcount), Result.bind_eq_ok_iff]
    refine ⟨_, h, ?_⟩
    rw [dif_pos seed.length_toList]
    rfl

/-- **The codec of recovery codes.** Every entropy comes back from its code; a text is read just if
its words are those of a code, in any case, and as what that code stands for; so codes with
different words are read as different entropies, and as many words as a text has, so much entropy it
is. -/
theorem recovery_code_codec (list : Wordlist) (sha256 : Sha256) :
    (∀ entropy : List Byte, entropy.length ∈ [16, 20, 24, 28, 32] → ∃ code,
      encode list sha256 entropy = .ok code ∧ decode list sha256 code = .ok entropy) ∧
    (∀ mnemonic entropy, decode list sha256 mnemonic = .ok entropy ↔
      ∃ code, encode list sha256 entropy = .ok code ∧
        (words mnemonic).map lower = words code) ∧
    (∀ mnemonic mnemonic' entropy, decode list sha256 mnemonic = .ok entropy →
      decode list sha256 mnemonic' = .ok entropy →
      (words mnemonic).map lower = (words mnemonic').map lower) ∧
    (∀ mnemonic entropy, decode list sha256 mnemonic = .ok entropy →
      ((words mnemonic).length, entropy.length) ∈
        [(12, 16), (15, 20), (18, 24), (21, 28), (24, 32)]) ∧
    (∀ seed, decodeRecoveryCode list sha256 (encodeRecoveryCode list sha256 seed) = .ok seed) ∧
    ∀ mnemonic seed, decodeRecoveryCode list sha256 mnemonic = .ok seed ↔
      (words mnemonic).map lower =
        words (encodeRecoveryCode list sha256 seed) := by
  have hseed (mnemonic : Text) (seed : Vector Byte recoveryEntropyLen) :
      decodeRecoveryCode list sha256 mnemonic = .ok seed ↔
        (words mnemonic).map lower =
          words (encodeRecoveryCode list sha256 seed) := by
    rw [decodeRecoveryCode_eq_ok_iff, decode_iff_encode]
    simp only [encodeRecoveryCode_eq, Except.ok.injEq, exists_eq_left']
  refine ⟨fun entropy h => ?_, fun _ _ => decode_iff_encode,
    fun mnemonic mnemonic' entropy h h' => ?_, fun mnemonic entropy h => ?_, fun seed => ?_, hseed⟩
  · obtain ⟨code, hcode, hlower⟩ := exists_encode list sha256 h
    exact ⟨code, hcode, decode_iff_encode.mpr ⟨code, hcode, hlower⟩⟩
  · obtain ⟨code, hcode, hwords⟩ := decode_iff_encode.mp h
    obtain ⟨code', hcode', hwords'⟩ := decode_iff_encode.mp h'
    rw [hwords, hwords', Except.ok.inj (hcode.symm.trans hcode')]
  · have hlen := length_of_decode h
    have hcs := (entropyLenOf_eq_ok_iff.mp hlen)
    unfold bitsPerWord at hcs
    simp only [List.mem_cons, Prod.mk.injEq, List.not_mem_nil, or_false] at hcs ⊢
    omega
  · obtain ⟨code, hcode, hlower⟩ := exists_encode list sha256 (length_toList_mem seed)
    rw [hseed, Except.ok.inj ((encodeRecoveryCode_eq seed).symm.trans hcode), hlower]

/-! ### A list -/

def letter (n : Fin 8) : Char := Char.ofNat (97 + n)

theorem letter_lt : ∀ {m n : Fin 8}, m < n → letter m < letter n := by decide

theorem isLower_letter : ∀ n : Fin 8, (letter n).isLower = true := by decide

def fourLetters (n : ℕ) : Text :=
  [letter (.ofNat 8 (n / 512)), letter (.ofNat 8 (n / 64)), letter (.ofNat 8 (n / 8)),
    letter (.ofNat 8 n)]

theorem fourLetters_lt {m n : ℕ} (hm : m < wordlistLen) (hn : n < wordlistLen) (h : m < n) :
    fourLetters m < fourLetters n := by
  unfold wordlistLen at hm hn
  have hlt (i j : ℕ) (hij : i % 8 < j % 8) : letter (.ofNat 8 i) < letter (.ofNat 8 j) :=
    letter_lt hij
  have heq (i j : ℕ) (hij : i % 8 = j % 8) : letter (.ofNat 8 i) = letter (.ofNat 8 j) :=
    congrArg letter (Fin.ext hij)
  unfold fourLetters
  simp only [List.cons_lt_cons_iff]
  -- The first digit that differs decides.
  rcases Nat.lt_trichotomy (m / 512 % 8) (n / 512 % 8) with h3 | h3 | h3
  · exact .inl (hlt _ _ h3)
  · refine .inr ⟨heq _ _ h3, ?_⟩
    rcases Nat.lt_trichotomy (m / 64 % 8) (n / 64 % 8) with h2 | h2 | h2
    · exact .inl (hlt _ _ h2)
    · refine .inr ⟨heq _ _ h2, ?_⟩
      rcases Nat.lt_trichotomy (m / 8 % 8) (n / 8 % 8) with h1 | h1 | h1
      · exact .inl (hlt _ _ h1)
      · exact .inr ⟨heq _ _ h1, .inl (hlt _ _ (by omega))⟩
      · omega
    · omega
  · omega

/-- There is a list of 2048 words. -/
instance : Inhabited Wordlist where
  default := {
    list := (List.range wordlistLen).map fourLetters
    length_list := by rw [List.length_map, List.length_range]
    sorted := List.pairwise_map.mpr (List.pairwise_lt_range.imp_of_mem fun hm hn hlt =>
      fourLetters_lt (List.mem_range.mp hm) (List.mem_range.mp hn) hlt)
    lowercase := by
      intro w hw
      obtain ⟨n, -, rfl⟩ := List.mem_map.mp hw
      refine ⟨List.cons_ne_nil _ _, fun c hc => ?_⟩
      simp only [fourLetters, List.mem_cons, List.not_mem_nil, or_false] at hc
      rcases hc with rfl | rfl | rfl | rfl
      all_goals exact isLower_letter _ }

end Sunrise.Bip39
