import Mathlib.Tactic.Ring
import Sunrise.Lib.Cbor

/-!
# The bytes of CBOR items

A writer of items in shortest form with definite lengths, and a reader of what it writes.
Every item opens with a head: three bits of major type and five that are the argument, or
say in how many bytes the argument follows.

## Main definitions

* `head`, `readHead` — a head and its reader.
* `write`, `read` — an item and its reader, which counts levels as it goes.
* `headSize` — how long a head is.
* `codec` — the two of them.

## Main results

* `codec_lawful` — **the reader inverts the writer.**
-/

namespace Cbor

/-! ### Numbers and byte strings -/

/-- `n` in `k` bytes, the high byte first. -/
def bigEndian : ℕ → ℕ → List ℕ
  | 0, _ => []
  | k + 1, n => n / 256 ^ k % 256 :: bigEndian k n

/-- The number whose bytes are `bs`, the high byte first. -/
def ofBigEndian (bs : List ℕ) : ℕ := bs.foldl (fun n b => n * 256 + b) 0

@[simp] theorem length_bigEndian (k n : ℕ) : (bigEndian k n).length = k := by
  induction k with
  | zero => rfl
  | succ k ih => rw [bigEndian, List.length_cons, ih]

theorem lt_of_mem_bigEndian {k n b : ℕ} (h : b ∈ bigEndian k n) : b < 256 := by
  induction k with
  | zero => cases h
  | succ k ih =>
    rcases List.mem_cons.mp h with rfl | h
    · exact Nat.mod_lt _ (by decide)
    · exact ih h

theorem ofBigEndian_bigEndian {k n : ℕ} (h : n < 256 ^ k) : ofBigEndian (bigEndian k n) = n := by
  have hfold : ∀ k acc, (bigEndian k n).foldl (fun m b => m * 256 + b) acc =
      acc * 256 ^ k + n % 256 ^ k := by
    intro k
    induction k with
    | zero =>
      intro acc
      simp [bigEndian, Nat.mod_one]
    | succ k ih =>
      intro acc
      rw [bigEndian, List.foldl_cons, ih, Nat.mod_pow_succ]
      ring
  rw [ofBigEndian, hfold, Nat.zero_mul, Nat.zero_add, Nat.mod_eq_of_lt h]

theorem ofBigEndian_lt {bs : List ℕ} (h : ∀ b ∈ bs, b < 256) :
    ofBigEndian bs < 256 ^ bs.length := by
  have hfold : ∀ (bs : List ℕ) acc, (∀ b ∈ bs, b < 256) →
      bs.foldl (fun m b => m * 256 + b) acc < (acc + 1) * 256 ^ bs.length := by
    intro bs
    induction bs with
    | nil => simp
    | cons b bs ih =>
      intro acc hbs
      have hb := hbs b List.mem_cons_self
      have htail := ih (acc * 256 + b) fun x hx => hbs x (List.mem_cons_of_mem _ hx)
      rw [List.foldl_cons]
      calc bs.foldl (fun m b => m * 256 + b) (acc * 256 + b)
          < (acc * 256 + b + 1) * 256 ^ bs.length := htail
        _ ≤ ((acc + 1) * 256) * 256 ^ bs.length := Nat.mul_le_mul_right _ (by omega)
        _ = (acc + 1) * 256 ^ (b :: bs).length := by rw [List.length_cons]; ring
  have hlt := hfold bs 0 h
  rwa [Nat.zero_add, Nat.one_mul] at hlt

/-- The first `k` bytes, and the rest. A number over 255 is no byte. -/
def takeBytes (k : ℕ) (bs : List ℕ) : Option (List ℕ × List ℕ) :=
  if k ≤ bs.length ∧ ∀ b ∈ bs.take k, b < 256 then some (bs.take k, bs.drop k) else none

theorem takeBytes_append {bs rest : List ℕ} (h : ∀ b ∈ bs, b < 256) :
    takeBytes bs.length (bs ++ rest) = some (bs, rest) := by
  rw [takeBytes, if_pos]
  · simp
  · simpa using h

theorem of_takeBytes {k : ℕ} {bs taken rest : List ℕ} (h : takeBytes k bs = some (taken, rest)) :
    taken.length = k ∧ ∀ b ∈ taken, b < 256 := by
  unfold takeBytes at h
  split at h
  next hk =>
    cases h
    exact ⟨List.length_take_of_le hk.1, hk.2⟩
  next => cases h

/-! ### Heads -/

/-- The head of an item: its major type, the low five bits of its first byte, its
argument. -/
structure Head where
  major : ℕ
  info : ℕ
  arg : ℕ
deriving DecidableEq

/-- How many bytes of argument follow the first byte. -/
def argWidth : ℕ → Option ℕ
  | 24 => some 1
  | 25 => some 2
  | 26 => some 4
  | 27 => some 8
  | _ => none

/-- The shortest head with this argument. -/
def head (major n : ℕ) : List ℕ :=
  if n < 24 then [major * 32 + n]
  else if n < 256 ^ 1 then (major * 32 + 24) :: bigEndian 1 n
  else if n < 256 ^ 2 then (major * 32 + 25) :: bigEndian 2 n
  else if n < 256 ^ 4 then (major * 32 + 26) :: bigEndian 4 n
  else (major * 32 + 27) :: bigEndian 8 n

/-- The head at the front of `bs`, and the rest. -/
def readHead : List ℕ → Option (Head × List ℕ)
  | [] => none
  | b :: bs =>
    if 256 ≤ b then none
    else if b % 32 < 24 then some (⟨b / 32, b % 32, b % 32⟩, bs)
    else
      match argWidth (b % 32) with
      | none => none
      | some k => (takeBytes k bs).map fun p => (⟨b / 32, b % 32, ofBigEndian p.1⟩, p.2)

theorem readHead_long {major info k n : ℕ} {rest : List ℕ} (hmajor : major < 8)
    (hinfo : 24 ≤ info) (hinfo' : info < 32) (hk : argWidth info = some k) (hn : n < 256 ^ k) :
    readHead ((major * 32 + info) :: (bigEndian k n ++ rest)) = some (⟨major, info, n⟩, rest) := by
  have hdiv : (major * 32 + info) / 32 = major := by omega
  have hmod : (major * 32 + info) % 32 = info := by omega
  have htake := @takeBytes_append (bigEndian k n) rest fun b hb => lt_of_mem_bigEndian hb
  rw [length_bigEndian] at htake
  rw [readHead, if_neg (by omega), hdiv, hmod, if_neg (by omega), hk]
  simp only [htake, Option.map_some, ofBigEndian_bigEndian hn]

theorem readHead_head {major n : ℕ} (hmajor : major < 8) (hn : n < 2 ^ 64) (rest : List ℕ) :
    ∃ info, readHead (head major n ++ rest) = some (⟨major, info, n⟩, rest) := by
  unfold head
  split
  next h =>
    refine ⟨n, ?_⟩
    have hdiv : (major * 32 + n) / 32 = major := by omega
    have hmod : (major * 32 + n) % 32 = n := by omega
    rw [List.singleton_append, readHead, if_neg (by omega), hdiv, hmod, if_pos h]
  next =>
    split
    next h => exact ⟨24, readHead_long hmajor (by decide) (by decide) rfl h⟩
    next =>
      split
      next h => exact ⟨25, readHead_long hmajor (by decide) (by decide) rfl h⟩
      next =>
        split
        next h => exact ⟨26, readHead_long hmajor (by decide) (by decide) rfl h⟩
        next => exact ⟨27, readHead_long hmajor (by decide) (by decide) rfl (by omega)⟩

variable {bs rest : List ℕ}

theorem arg_lt_of_readHead {h : Head} (hr : readHead bs = some (h, rest)) :
    h.arg < 2 ^ 64 := by
  cases bs with
  | nil => cases hr
  | cons b bs =>
    rw [readHead] at hr
    split at hr
    next => cases hr
    next =>
      split at hr
      next hb =>
        cases hr
        exact hb.trans (by decide)
      next =>
        split at hr
        next => cases hr
        next k hk =>
          obtain ⟨p, hp, heq⟩ := Option.map_eq_some_iff.mp hr
          cases heq
          obtain ⟨hlen, hbytes⟩ := @of_takeBytes _ _ p.1 p.2 hp
          have hlt := ofBigEndian_lt hbytes
          have hk8 : k ≤ 8 := by
            unfold argWidth at hk
            split at hk <;> cases hk <;> decide
          rw [hlen] at hlt
          exact hlt.trans_le (Nat.pow_le_pow_right (by decide) hk8)

/-! ### Texts -/

def utf8 (s : String) : List ℕ := s.toByteArray.data.toList.map UInt8.toNat

/-- The text with these UTF-8 bytes. -/
def ofUtf8 (bs : List ℕ) : Option String := String.fromUTF8? ⟨(bs.map UInt8.ofNat).toArray⟩

@[simp] theorem length_utf8 (s : String) : (utf8 s).length = s.utf8ByteSize := by
  rw [utf8, List.length_map]
  rfl

theorem lt_of_mem_utf8 {s : String} {b : ℕ} (h : b ∈ utf8 s) : b < 256 := by
  obtain ⟨x, -, rfl⟩ := List.mem_map.mp h
  exact x.toNat_lt

theorem ofUtf8_utf8 (s : String) : ofUtf8 (utf8 s) = some s := by
  have hbytes : (⟨((utf8 s).map UInt8.ofNat).toArray⟩ : ByteArray) = s.toByteArray := by
    have hround : UInt8.ofNat ∘ UInt8.toNat = id := funext fun x => UInt8.ofNat_toNat
    rw [utf8, List.map_map, hround, List.map_id]
  rw [ofUtf8, hbytes, String.fromUTF8?, dif_pos s.isValidUTF8]
  rfl

theorem utf8ByteSize_of_ofUtf8 {bs : List ℕ} {s : String} (h : ofUtf8 bs = some s) :
    s.utf8ByteSize = bs.length := by
  unfold ofUtf8 String.fromUTF8? at h
  split at h
  next hv =>
    cases h
    change (⟨(bs.map UInt8.ofNat).toArray⟩ : ByteArray).data.size = bs.length
    simp
  next => cases h

/-! ### The writer -/

/-- The bytes of a scalar. Integers have major type 0 or 1, byte strings 2, texts 3, and the
rest 7. -/
def writeScalar : Scalar → List ℕ
  | .integer n => if 0 ≤ n then head 0 n.toNat else head 1 (-1 - n).toNat
  | .bytes b => head 2 b.length ++ b
  | .text s => head 3 s.utf8ByteSize ++ utf8 s
  | .float bits => 251 :: bigEndian 8 bits
  | .bool false => [244]
  | .bool true => [245]
  | .null => [246]

mutual

def write : Item → List ℕ
  | .scalar s => writeScalar s
  | .tag n v => head 6 n ++ write v
  | .array items => head 4 items.length ++ writeItems items
  | .map entries => head 5 entries.length ++ writeEntries entries
termination_by structural v => v

def writeItems : List Item → List ℕ
  | [] => []
  | v :: vs => write v ++ writeItems vs
termination_by structural vs => vs

def writeEntries : List (Item × Item) → List ℕ
  | [] => []
  | e :: es => writeEntry e ++ writeEntries es
termination_by structural es => es

def writeEntry : Item × Item → List ℕ
  | (k, v) => write k ++ write v
termination_by structural e => e

end

variable {v : Item} {items : List Item} {entries : List (Item × Item)}

theorem writeItems_eq : writeItems items = (items.map write).flatten := by
  induction items with
  | nil => rfl
  | cons v vs ih => rw [writeItems, ih, List.map_cons, List.flatten_cons]

theorem writeEntries_eq : writeEntries entries = (entries.map writeEntry).flatten := by
  induction entries with
  | nil => rfl
  | cons e es ih => rw [writeEntries, ih, List.map_cons, List.flatten_cons]

/-! #### How long an item's bytes are -/

/-- The bytes of a head with this argument. -/
def headSize (n : ℕ) : ℕ :=
  if n < 24 then 1
  else if n < 256 ^ 1 then 2
  else if n < 256 ^ 2 then 3
  else if n < 256 ^ 4 then 5
  else 9

@[simp] theorem length_head (major n : ℕ) : (head major n).length = headSize n := by
  unfold head headSize
  split_ifs <;> simp

@[simp] theorem length_write_bytes (b : List ℕ) :
    (write (.scalar (.bytes b))).length = headSize b.length + b.length := by
  rw [write, writeScalar, List.length_append, length_head]

@[simp] theorem length_write_nat (n : ℕ) :
    (write (.scalar (.integer n))).length = headSize n := by
  rw [write, writeScalar, if_pos (Int.natCast_nonneg n), Int.toNat_natCast, length_head]

theorem length_write_array :
    (write (.array items)).length =
      headSize items.length + (items.map fun v => (write v).length).sum := by
  rw [write, writeItems_eq, List.length_append, length_head, List.length_flatten, List.map_map]
  rfl

theorem length_write_map :
    (write (.map entries)).length = headSize entries.length +
      (entries.map fun e => (write e.1).length + (write e.2).length).sum := by
  rw [write, writeEntries_eq, List.length_append, length_head, List.length_flatten, List.map_map]
  congr 2
  apply List.map_congr_left
  rintro ⟨k, v⟩ _
  exact List.length_append

theorem lt_of_mem_head {major n b : ℕ} (hmajor : major < 8) (h : b ∈ head major n) : b < 256 := by
  have hlong : ∀ k info, info < 32 → b ∈ (major * 32 + info) :: bigEndian k n → b < 256 := by
    intro k info hinfo h
    rcases List.mem_cons.mp h with rfl | h
    · omega
    · exact lt_of_mem_bigEndian h
  unfold head at h
  split at h
  next hn => rw [List.mem_singleton] at h; omega
  next =>
    split at h
    next => exact hlong 1 24 (by decide) h
    next =>
      split at h
      next => exact hlong 2 25 (by decide) h
      next =>
        split at h
        next => exact hlong 4 26 (by decide) h
        next => exact hlong 8 27 (by decide) h

theorem lt_of_mem_writeScalar {s : Scalar} {b : ℕ} (hs : s.InRange) (h : b ∈ writeScalar s) :
    b < 256 := by
  cases s with
  | integer n =>
    rw [writeScalar] at h
    split at h
    next => exact lt_of_mem_head (by decide) h
    next => exact lt_of_mem_head (by decide) h
  | bytes bs =>
    rcases List.mem_append.mp h with h | h
    · exact lt_of_mem_head (by decide) h
    · exact hs.1 b h
  | text s =>
    rcases List.mem_append.mp h with h | h
    · exact lt_of_mem_head (by decide) h
    · exact lt_of_mem_utf8 h
  | float bits =>
    rcases List.mem_cons.mp h with rfl | h
    · decide
    · exact lt_of_mem_bigEndian h
  | bool v => cases v <;> cases List.mem_singleton.mp h <;> decide
  | null => cases List.mem_singleton.mp h; decide

theorem lt_of_mem_write (hv : v.Regular) {b : ℕ} (h : b ∈ write v) : b < 256 := by
  unfold Item.Regular at hv
  induction v with
  | scalar s => exact lt_of_mem_writeScalar (forall_nodes_scalar.mp hv) h
  | tag n v ih =>
    rcases List.mem_append.mp h with h | h
    · exact lt_of_mem_head (by decide) h
    · exact ih (forall_nodes_tag.mp hv).2 h
  | array items ih =>
    rcases List.mem_append.mp h with h | h
    · exact lt_of_mem_head (by decide) h
    · rw [writeItems_eq, List.mem_flatten] at h
      obtain ⟨_, hl, h⟩ := h
      obtain ⟨v, hmem, rfl⟩ := List.mem_map.mp hl
      exact ih v hmem ((forall_nodes_array.mp hv).2 v hmem) h
  | map entries ih =>
    rcases List.mem_append.mp h with h | h
    · exact lt_of_mem_head (by decide) h
    · rw [writeEntries_eq, List.mem_flatten] at h
      obtain ⟨_, hl, h⟩ := h
      obtain ⟨⟨k, w⟩, hmem, rfl⟩ := List.mem_map.mp hl
      have hboth := (forall_nodes_map.mp hv).2 (k, w) hmem
      rcases List.mem_append.mp h with h | h
      · exact (ih _ hmem).1 hboth.1 h
      · exact (ih _ hmem).2 hboth.2 h

/-! ### The reader -/

/-- Read `n` things one after the other. -/
def readMany {α : Type} (f : List ℕ → Except ReadError (α × List ℕ)) :
    ℕ → List ℕ → Except ReadError (List α × List ℕ)
  | 0, bs => .ok ([], bs)
  | n + 1, bs =>
    match f bs with
    | .error e => .error e
    | .ok (v, rest) =>
      match readMany f n rest with
      | .error e => .error e
      | .ok (vs, rest') => .ok (v :: vs, rest')

/-- Read a key and then its value. -/
def readEntry (f : List ℕ → Except ReadError (Item × List ℕ)) (bs : List ℕ) :
    Except ReadError ((Item × Item) × List ℕ) :=
  match f bs with
  | .error e => .error e
  | .ok (k, rest) =>
    match f rest with
    | .error e => .error e
    | .ok (v, rest') => .ok ((k, v), rest')

def readScalar (h : Head) (bs : List ℕ) : Option (Scalar × List ℕ) :=
  match h.major, h.info with
  | 0, _ => some (.integer h.arg, bs)
  | 1, _ => some (.integer (-1 - h.arg), bs)
  | 2, _ => (takeBytes h.arg bs).map fun p => (.bytes p.1, p.2)
  | 3, _ => (takeBytes h.arg bs).bind fun p => (ofUtf8 p.1).map fun s => (.text s, p.2)
  | 7, 20 => some (.bool false, bs)
  | 7, 21 => some (.bool true, bs)
  | 7, 22 => some (.null, bs)
  | 7, 27 => some (.float h.arg, bs)
  | _, _ => none

/-- The number a tag's head opens, where one follows. This reader takes the large ones
only. -/
def readNumber (h : Head) (bs : List ℕ) : Option (Except ReadError (Item × List ℕ)) :=
  if h.major = 6 ∧ (h.arg = 2 ∨ h.arg = 3) then
    match readHead bs with
    | none => none
    | some (inner, rest) =>
      if inner.major = 2 ∧ inner.arg ≤ 16 then
        match takeBytes inner.arg rest with
        | none => some (.error .malformed)
        | some (b, rest') =>
          if isLarge h.arg (.scalar (.bytes b)) then
            some (.ok (.tag h.arg (.scalar (.bytes b)), rest'))
          else some (.error .malformed)
      else none
  else none

def tagOf (n : ℕ) (v : Item) (rest : List ℕ) : Except ReadError (Item × List ℕ) :=
  if isBignum n v then .error .malformed else .ok (.tag n v, rest)

/-- Read what a container's head announces with the reader `f` of its items. -/
def readContainer (f : List ℕ → Except ReadError (Item × List ℕ)) (h : Head) (bs : List ℕ) :
    Except ReadError (Item × List ℕ) :=
  match h.major with
  | 4 => (readMany f h.arg bs).map fun p => (.array p.1, p.2)
  | 5 => (readMany (readEntry f) h.arg bs).map fun p => (.map p.1, p.2)
  | _ => (f bs).bind fun p => tagOf h.arg p.1 p.2

def Head.isContainer (h : Head) : Bool := h.major == 4 || h.major == 5 || h.major == 6

/-- Read an item whose containers hold what `inner` reads; without an `inner`, the levels
are used up. -/
def readWith (inner : Option (List ℕ → Except ReadError (Item × List ℕ))) (bs : List ℕ) :
    Except ReadError (Item × List ℕ) :=
  match readHead bs with
  | none => .error .malformed
  | some (h, rest) =>
    match readNumber h rest with
    | some number => number
    | none =>
      if h.isContainer then
        match inner with
        | none => .error .tooDeep
        | some f => readContainer f h rest
      else
        match readScalar h rest with
        | none => .error .malformed
        | some (s, rest') => .ok (.scalar s, rest')

/-- Read the item at the front of `bs`, which may nest so many levels. -/
def read : ℕ → List ℕ → Except ReadError (Item × List ℕ)
  | 0 => readWith none
  | limit + 1 => readWith (some (read limit))

/-! #### What was written is read -/

theorem readMany_flatten {α : Type} {f : List ℕ → Except ReadError (α × List ℕ)}
    {w : α → List ℕ} {P : α → Prop} [DecidablePred P] {e : ReadError} {vs : List α}
    (h : ∀ v ∈ vs, ∀ rest, f (w v ++ rest) = if P v then .ok (v, rest) else .error e)
    (rest : List ℕ) : readMany f vs.length ((vs.map w).flatten ++ rest) =
      if ∀ v ∈ vs, P v then .ok (vs, rest) else .error e := by
  induction vs with
  | nil => simp [readMany]
  | cons v vs ih =>
    have htail := ih fun u hu => h u (List.mem_cons_of_mem _ hu)
    rw [List.map_cons, List.flatten_cons, List.append_assoc, List.length_cons, readMany,
      h v List.mem_cons_self]
    by_cases hv : P v
    · simp only [hv, if_true, htail, List.forall_mem_cons, true_and]
      by_cases hvs : ∀ u ∈ vs, P u
      · simp only [if_pos hvs]
      · simp only [if_neg hvs]
    · simp only [hv, if_false, List.forall_mem_cons, false_and]

theorem readEntry_writeEntry {f : List ℕ → Except ReadError (Item × List ℕ)} {P : Item → Prop}
    [DecidablePred P] {e : ReadError} {x : Item × Item}
    (hk : ∀ rest, f (write x.1 ++ rest) = if P x.1 then .ok (x.1, rest) else .error e)
    (hv : ∀ rest, f (write x.2 ++ rest) = if P x.2 then .ok (x.2, rest) else .error e)
    (rest : List ℕ) : readEntry f (writeEntry x ++ rest) =
      if P x.1 ∧ P x.2 then .ok (x, rest) else .error e := by
  obtain ⟨k, v⟩ := x
  rw [writeEntry, List.append_assoc, readEntry, hk]
  by_cases hpk : P k
  · by_cases hpv : P v
    · simp [hpk, hpv, hv]
    · simp [hpk, hpv, hv]
  · simp [hpk]

theorem readNumber_of_major_ne {h : Head} {bs : List ℕ} (hm : h.major ≠ 6) :
    readNumber h bs = none := by
  rw [readNumber, if_neg fun hc => hm hc.1]

theorem readWith_writeScalar {s : Scalar} (hs : s.InRange)
    (inner : Option (List ℕ → Except ReadError (Item × List ℕ))) (rest : List ℕ) :
    readWith inner (writeScalar s ++ rest) = .ok (.scalar s, rest) := by
  cases s with
  | integer n =>
    obtain ⟨hlo, hhi⟩ : -2 ^ 64 ≤ n ∧ n < 2 ^ 64 := hs
    rw [writeScalar]
    split
    next hn =>
      obtain ⟨info, hr⟩ := @readHead_head 0 n.toNat (by decide) (by omega) rest
      have hval : (n.toNat : ℤ) = n := Int.toNat_of_nonneg hn
      simp [readWith, hr, readNumber, Head.isContainer, readScalar, hval]
    next hn =>
      obtain ⟨info, hr⟩ := @readHead_head 1 (-1 - n).toNat (by decide) (by omega) rest
      have hval : max (-1 - n) 0 = -1 - n := max_eq_left (by omega)
      simp [readWith, hr, readNumber, Head.isContainer, readScalar, hval]
  | bytes b =>
    obtain ⟨info, hr⟩ := @readHead_head 2 b.length (by decide) hs.2 (b ++ rest)
    simp [readWith, writeScalar, hr, readNumber, Head.isContainer, readScalar,
      takeBytes_append hs.1]
  | text t =>
    have htake := @takeBytes_append (utf8 t) rest fun b hb => lt_of_mem_utf8 hb
    rw [length_utf8] at htake
    obtain ⟨info, hr⟩ := @readHead_head 3 t.utf8ByteSize (by decide) hs (utf8 t ++ rest)
    simp [readWith, writeScalar, hr, readNumber, Head.isContainer, readScalar, htake, ofUtf8_utf8]
  | float bits =>
    have hbits : bits < 256 ^ 8 := lt_of_lt_of_eq (show bits < 2 ^ 64 from hs) (by decide)
    have hr : readHead (251 :: (bigEndian 8 bits ++ rest)) = some (⟨7, 27, bits⟩, rest) :=
      @readHead_long 7 27 8 bits rest (by decide) (by decide) (by decide) rfl hbits
    simp [readWith, writeScalar, hr, readNumber, Head.isContainer, readScalar]
  | bool b =>
    cases b
    · rfl
    · rfl
  | null => rfl

section

variable {major n : ℕ} (hmajor : major = 4 ∨ major = 5 ∨ major = 6) (hn : n < 2 ^ 64)
include hmajor hn

theorem readWith_none {rest : List ℕ} (hnum : ∀ info, readNumber ⟨major, info, n⟩ rest = none) :
    readWith none (head major n ++ rest) = .error .tooDeep := by
  obtain ⟨info, hr⟩ := @readHead_head major n (by omega) hn rest
  rcases hmajor with rfl | rfl | rfl <;> simp [readWith, hr, hnum, Head.isContainer]

theorem readWith_some (f : List ℕ → Except ReadError (Item × List ℕ)) {rest : List ℕ}
    (hnum : ∀ info, readNumber ⟨major, info, n⟩ rest = none) :
    ∃ info, readWith (some f) (head major n ++ rest) = readContainer f ⟨major, info, n⟩ rest := by
  obtain ⟨info, hr⟩ := @readHead_head major n (by omega) hn rest
  refine ⟨info, ?_⟩
  rcases hmajor with rfl | rfl | rfl <;> simp [readWith, hr, hnum, Head.isContainer]

end

theorem readHead_write (hv : v.NodeRegular) (rest : List ℕ) :
    ∃ h rest', readHead (write v ++ rest) = some (h, rest') ∧
      (h.major = 2 → ∃ b, v = .scalar (.bytes b) ∧ h.arg = b.length) := by
  have hother : ∀ major n tail, major < 8 → major ≠ 2 → n < 2 ^ 64 →
      write v = head major n ++ tail →
      ∃ h rest', readHead (write v ++ rest) = some (h, rest') ∧
        (h.major = 2 → ∃ b, v = .scalar (.bytes b) ∧ h.arg = b.length) := by
    intro major n tail hmajor hne hn hw
    obtain ⟨info, hr⟩ := readHead_head hmajor hn (tail ++ rest)
    rw [hw, List.append_assoc]
    exact ⟨_, _, hr, fun h => absurd h hne⟩
  cases v with
  | scalar s =>
    cases s with
    | integer n =>
      obtain ⟨hlo, hhi⟩ : -2 ^ 64 ≤ n ∧ n < 2 ^ 64 := hv
      by_cases hn : 0 ≤ n
      · exact hother 0 n.toNat [] (by decide) (by decide) (by omega) (by
          rw [write, writeScalar, if_pos hn, List.append_nil])
      · exact hother 1 (-1 - n).toNat [] (by decide) (by decide) (by omega) (by
          rw [write, writeScalar, if_neg hn, List.append_nil])
    | bytes b =>
      obtain ⟨info, hr⟩ := @readHead_head 2 b.length (by decide) hv.2 (b ++ rest)
      rw [write, writeScalar, List.append_assoc]
      exact ⟨_, _, hr, fun _ => ⟨b, rfl, rfl⟩⟩
    | text t => exact hother 3 _ (utf8 t) (by decide) (by decide) hv rfl
    | float bits =>
      have hbits : bits < 256 ^ 8 := lt_of_lt_of_eq (show bits < 2 ^ 64 from hv) (by decide)
      exact ⟨_, _, @readHead_long 7 27 8 bits rest (by decide) (by decide) (by decide) rfl hbits,
        fun h => absurd h (by simp)⟩
    | bool b =>
      cases b
      · exact hother 7 20 [] (by decide) (by decide) (by decide) rfl
      · exact hother 7 21 [] (by decide) (by decide) (by decide) rfl
    | null => exact hother 7 22 [] (by decide) (by decide) (by decide) rfl
  | tag n v => exact hother 6 n _ (by decide) (by decide) hv.1 rfl
  | array items => exact hother 4 _ _ (by decide) (by decide) hv rfl
  | map entries => exact hother 5 _ _ (by decide) (by decide) hv rfl

theorem readNumber_write {n info : ℕ} (hv : v.NodeRegular)
    (hlarge : isBignum n v = true → isLarge n v = true) (rest : List ℕ) :
    readNumber ⟨6, info, n⟩ (write v ++ rest) =
      if isBignum n v then some (.ok (.tag n v, rest)) else none := by
  obtain ⟨h, rest', hr, htwo⟩ := readHead_write hv rest
  by_cases hn : n = 2 ∨ n = 3
  · rw [readNumber, if_pos ⟨rfl, hn⟩, hr]
    by_cases hm : h.major = 2 ∧ h.arg ≤ 16
    · obtain ⟨b, rfl, hlen⟩ := htwo hm.1
      have hbig : isBignum n (.scalar (.bytes b)) = true := by
        rcases hn with rfl | rfl <;> simpa [isBignum] using hlen ▸ hm.2
      have htake := @takeBytes_append b rest hv.1
      obtain ⟨info', hr'⟩ := @readHead_head 2 b.length (by decide) hv.2 (b ++ rest)
      rw [write, writeScalar, List.append_assoc, hr'] at hr
      cases hr
      simp only [hm.2, and_self, if_true, htake, hlarge hbig, hbig]
    · have hbig : isBignum n v = false := by
        cases v with
        | scalar s =>
          cases s with
          | bytes b =>
            obtain ⟨info', hr'⟩ := @readHead_head 2 b.length (by decide) hv.2 (b ++ rest)
            rw [write, writeScalar, List.append_assoc, hr'] at hr
            cases hr
            simpa [isBignum] using fun _ => hm
          | _ => rfl
        | _ => rfl
      simp only [if_neg hm, hbig, Bool.false_eq_true, if_false]
  · have hbig : isBignum n v = false := by
      unfold isBignum
      split
      next b =>
        have hne : ¬ (n == 2 || n == 3) = true := by simpa using hn
        simp [hne]
      next => rfl
    rw [readNumber, if_neg fun hc => hn hc.2, hbig]
    rfl

theorem read_write (hv : v.Regular) (limit : ℕ) (rest : List ℕ) :
    read limit (write v ++ rest) =
      if v.depth ≤ limit then .ok (v, rest) else .error .tooDeep := by
  unfold Item.Regular at hv
  induction v generalizing limit rest with
  | scalar s =>
    rw [forall_nodes_scalar] at hv
    rw [write, Item.depth, if_pos (Nat.zero_le limit)]
    cases limit with
    | zero => exact readWith_writeScalar hv none rest
    | succ limit => exact readWith_writeScalar hv (some (read limit)) rest
  | tag n v ih =>
    rw [forall_nodes_tag] at hv
    obtain ⟨⟨hn, hlarge⟩, hv⟩ := hv
    have hnode : v.NodeRegular := by
      cases v <;> exact hv _ (by simp [Item.nodes])
    have hnum : ∀ info, readNumber ⟨6, info, n⟩ (write v ++ rest) = _ :=
      fun info => readNumber_write hnode hlarge rest
    rw [write, List.append_assoc, Item.depth]
    by_cases hbig : isBignum n v = true
    · -- a number is read whatever the level
      obtain ⟨info, hr⟩ := @readHead_head 6 n (by decide) hn (write v ++ rest)
      rw [if_pos hbig, if_pos (Nat.zero_le limit)]
      cases limit with
      | zero => simp [read, readWith, hr, hnum, hbig]
      | succ limit => simp [read, readWith, hr, hnum, hbig]
    · simp only [if_neg hbig] at hnum ⊢
      cases limit with
      | zero => exact readWith_none (by simp) hn hnum
      | succ limit =>
        obtain ⟨info, hr⟩ := readWith_some (.inr (.inr rfl)) hn (read limit) hnum
        simp only [read, hr, readContainer, ih hv limit rest, Nat.add_le_add_iff_right]
        split
        next => simp [Except.bind, tagOf, hbig]
        next => rfl
  | array items ih =>
    rw [forall_nodes_array] at hv
    obtain ⟨hlen, hmem⟩ := hv
    rw [write, List.append_assoc, Item.depth, writeItems_eq]
    cases limit with
    | zero => exact readWith_none (by simp) hlen fun _ => readNumber_of_major_ne (by simp)
    | succ limit =>
      obtain ⟨info, hr⟩ := @readWith_some 4 items.length (by simp) hlen (read limit)
        ((items.map write).flatten ++ rest) fun _ => readNumber_of_major_ne (by simp)
      have hmany := readMany_flatten (fun v hvi rest => ih v hvi (hmem v hvi) limit rest) rest
      simp only [read, hr, readContainer, hmany, Nat.add_le_add_iff_right, depthOfItems_le]
      split
      next => rfl
      next => rfl
  | map entries ih =>
    rw [forall_nodes_map] at hv
    obtain ⟨hlen, hmem⟩ := hv
    rw [write, List.append_assoc, Item.depth, writeEntries_eq]
    cases limit with
    | zero => exact readWith_none (by simp) hlen fun _ => readNumber_of_major_ne (by simp)
    | succ limit =>
      obtain ⟨info, hr⟩ := @readWith_some 5 entries.length (by simp) hlen (read limit)
        ((entries.map writeEntry).flatten ++ rest) fun _ => readNumber_of_major_ne (by simp)
      have hentry : ∀ e ∈ entries, ∀ rest, readEntry (read limit) (writeEntry e ++ rest) =
          if e.1.depth ≤ limit ∧ e.2.depth ≤ limit then .ok (e, rest) else .error .tooDeep :=
        fun e he => @readEntry_writeEntry (read limit) (·.depth ≤ limit) _ .tooDeep e
          ((ih e he).1 (hmem e he).1 limit) ((ih e he).2 (hmem e he).2 limit)
      have hmany := readMany_flatten hentry rest
      simp only [read, hr, readContainer, hmany, Nat.add_le_add_iff_right, depthOfEntries_le]
      split
      next => rfl
      next => rfl

/-! #### What is read is regular -/

theorem of_map_ok {α β : Type} {f : α → β} {x : Except ReadError α} {y : β}
    (h : x.map f = .ok y) : ∃ p, x = .ok p ∧ f p = y := by
  cases x with
  | error e => cases h
  | ok p => exact ⟨p, rfl, Except.ok.inj h⟩

theorem of_readMany {α : Type} {f : List ℕ → Except ReadError (α × List ℕ)} {P : α → Prop}
    (h : ∀ bs v rest, f bs = .ok (v, rest) → P v) {n : ℕ} {bs : List ℕ} {vs : List α}
    {rest : List ℕ} (hr : readMany f n bs = .ok (vs, rest)) :
    vs.length = n ∧ ∀ v ∈ vs, P v := by
  induction n generalizing bs vs rest with
  | zero =>
    cases hr
    exact ⟨rfl, by simp⟩
  | succ n ih =>
    rw [readMany] at hr
    split at hr
    next => cases hr
    next v rest₁ hv =>
      split at hr
      next => cases hr
      next us rest₂ hus =>
        cases hr
        obtain ⟨hlen, hall⟩ := ih hus
        refine ⟨by rw [List.length_cons, hlen], ?_⟩
        intro u hu
        rcases List.mem_cons.mp hu with rfl | hu
        · exact h _ _ _ hv
        · exact hall u hu

theorem of_readEntry {f : List ℕ → Except ReadError (Item × List ℕ)} {P : Item → Prop}
    (h : ∀ bs v rest, f bs = .ok (v, rest) → P v) {bs : List ℕ} {e : Item × Item}
    {rest : List ℕ} (hr : readEntry f bs = .ok (e, rest)) : P e.1 ∧ P e.2 := by
  unfold readEntry at hr
  split at hr
  next => cases hr
  next k rest₁ hk =>
    split at hr
    next => cases hr
    next v rest₂ hv =>
      cases hr
      exact ⟨h _ _ _ hk, h _ _ _ hv⟩

theorem inRange_of_readScalar {h : Head} {s : Scalar} (harg : h.arg < 2 ^ 64)
    (hr : readScalar h bs = some (s, rest)) : s.InRange := by
  unfold readScalar at hr
  split at hr
  next =>
    cases hr
    exact ⟨by omega, by omega⟩
  next =>
    cases hr
    exact ⟨by omega, by omega⟩
  next =>
    obtain ⟨p, hp, heq⟩ := Option.map_eq_some_iff.mp hr
    cases heq
    obtain ⟨hlen, hbytes⟩ := @of_takeBytes _ _ p.1 p.2 hp
    exact ⟨hbytes, hlen.trans_lt harg⟩
  next =>
    obtain ⟨p, hp, hs⟩ := Option.bind_eq_some_iff.mp hr
    obtain ⟨t, ht, heq⟩ := Option.map_eq_some_iff.mp hs
    cases heq
    obtain ⟨hlen, -⟩ := @of_takeBytes _ _ p.1 p.2 hp
    exact (utf8ByteSize_of_ofUtf8 ht).trans_lt (hlen.trans_lt harg)
  next =>
    cases hr
    trivial
  next =>
    cases hr
    trivial
  next =>
    cases hr
    trivial
  next =>
    cases hr
    exact harg
  next => cases hr

theorem of_readContainer {f : List ℕ → Except ReadError (Item × List ℕ)} {limit : ℕ}
    (hf : ∀ bs v rest, f bs = .ok (v, rest) → v.Regular ∧ v.depth ≤ limit) {h : Head}
    (harg : h.arg < 2 ^ 64) (hr : readContainer f h bs = .ok (v, rest)) :
    v.Regular ∧ v.depth ≤ limit + 1 := by
  unfold readContainer at hr
  split at hr
  next =>
    obtain ⟨p, hp, heq⟩ := of_map_ok hr
    cases heq
    obtain ⟨hlen, hall⟩ := @of_readMany _ _ _ hf _ _ p.1 p.2 hp
    refine ⟨forall_nodes_array.mpr ⟨hlen.trans_lt harg, fun v hv => (hall v hv).1⟩, ?_⟩
    exact Nat.succ_le_succ (depthOfItems_le.mpr fun v hv => (hall v hv).2)
  next =>
    obtain ⟨p, hp, heq⟩ := of_map_ok hr
    cases heq
    obtain ⟨hlen, hall⟩ := @of_readMany _ _ _
      (fun _ e _ he => @of_readEntry _ _ hf _ e _ he) _ _ p.1 p.2 hp
    refine ⟨forall_nodes_map.mpr ⟨hlen.trans_lt harg, fun e he => ⟨(hall e he).1.1,
      (hall e he).2.1⟩⟩, ?_⟩
    exact Nat.succ_le_succ (depthOfEntries_le.mpr fun e he => ⟨(hall e he).1.2, (hall e he).2.2⟩)
  next =>
    cases hfr : f bs with
    | error e =>
      rw [hfr] at hr
      cases hr
    | ok p =>
      rw [hfr] at hr
      change tagOf h.arg p.1 p.2 = _ at hr
      unfold tagOf at hr
      split at hr
      next => cases hr
      next hbig =>
        cases hr
        obtain ⟨hreg, hdepth⟩ := hf bs p.1 p.2 hfr
        refine ⟨forall_nodes_tag.mpr ⟨⟨harg, fun h => absurd h hbig⟩, hreg⟩, ?_⟩
        rw [Item.depth, if_neg hbig]
        exact Nat.succ_le_succ hdepth

theorem of_readNumber {h : Head} (harg : h.arg < 2 ^ 64)
    (hr : readNumber h bs = some (.ok (v, rest))) : v.Regular ∧ v.depth = 0 := by
  unfold readNumber at hr
  split at hr
  next hn =>
    split at hr
    next => cases hr
    next inner rest₁ _ =>
      split at hr
      next hinner =>
        split at hr
        next => cases hr
        next b rest₂ htake =>
          split at hr
          next hlarge =>
            cases hr
            obtain ⟨hlen, hbytes⟩ := of_takeBytes htake
            have hbig : isBignum h.arg (.scalar (.bytes b)) = true := by
              rcases hn.2 with harg2 | harg3
              · simpa [isBignum, harg2, hlen] using hinner.2
              · simpa [isBignum, harg3, hlen] using hinner.2
            refine ⟨forall_nodes_tag.mpr ⟨⟨harg, fun _ => hlarge⟩, ?_⟩, ?_⟩
            · exact forall_nodes_scalar.mpr ⟨hbytes, by omega⟩
            · rw [Item.depth, if_pos hbig]
          next => cases hr
      next => cases hr
  next => cases hr

theorem of_readWith {inner : Option (List ℕ → Except ReadError (Item × List ℕ))}
    (hr : readWith inner bs = .ok (v, rest)) :
    (v.Regular ∧ v.depth = 0) ∨ ∃ f ∈ inner, ∃ (h : Head) (rest₁ : List ℕ),
      h.arg < 2 ^ 64 ∧ readContainer f h rest₁ = .ok (v, rest) := by
  unfold readWith at hr
  split at hr
  next => cases hr
  next h rest₁ hh =>
    have harg := arg_lt_of_readHead hh
    split at hr
    next number hnum =>
      subst hr
      exact .inl (of_readNumber harg hnum)
    next =>
      split at hr
      next =>
        split at hr
        next => cases hr
        next f => exact .inr ⟨f, rfl, h, rest₁, harg, hr⟩
      next =>
        split at hr
        next => cases hr
        next s rest₂ hs =>
          cases hr
          exact .inl ⟨forall_nodes_scalar.mpr (inRange_of_readScalar harg hs), rfl⟩

theorem of_read {limit : ℕ} (hr : read limit bs = .ok (v, rest)) :
    v.Regular ∧ v.depth ≤ limit := by
  induction limit generalizing v bs rest with
  | zero =>
    rcases of_readWith hr with ⟨hreg, hdepth⟩ | ⟨f, hf, -⟩
    · exact ⟨hreg, hdepth.le⟩
    · cases hf
  | succ limit ih =>
    rcases of_readWith hr with ⟨hreg, hdepth⟩ | ⟨f, hf, h, rest₁, harg, hcont⟩
    · exact ⟨hreg, hdepth.trans_le (Nat.zero_le _)⟩
    · cases hf
      exact of_readContainer (fun bs u rest hu => ih hu) harg hcont

/-! ### The codec -/

/-- The writer and the reader above. -/
def codec : Codec := ⟨write, read⟩

/-- **The reader inverts the writer.** -/
theorem codec_lawful : codec.Lawful where
  read_write _ hv limit rest := read_write hv limit rest
  regular_of_read _ _ _ _ hr := of_read hr

theorem codec_writesBytes : codec.WritesBytes := fun _ hv _ h => lt_of_mem_write hv h

end Cbor
