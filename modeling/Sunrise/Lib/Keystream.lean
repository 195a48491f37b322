import Mathlib.Data.List.Basic
import Mathlib.Data.Nat.Bitwise

/-!
# Ciphers of a keystream and a tag

A cipher of a keystream masks a plaintext with bytes that depend on the key and the nonce alone,
and puts a tag behind them. What it opens is what was sealed, whatever the tag is; and the first
bytes of a ciphertext are those of any other with the same plaintext there.

* `Aead.encrypt`, `Aead.decrypt` — the cipher.
* `Aead.decrypt_encrypt` — **what was sealed opens, under the data it was bound to.**
-/

namespace Aead

def mask (keystream : ℕ → ℕ) (bytes : List ℕ) : List ℕ :=
  bytes.mapIdx fun i b => b ^^^ keystream i

section Mask

variable (keystream : ℕ → ℕ) (bytes : List ℕ)

@[simp] theorem length_mask : (mask keystream bytes).length = bytes.length := List.length_mapIdx

theorem getElem?_mask (i : ℕ) :
    (mask keystream bytes)[i]? = bytes[i]?.map (· ^^^ keystream i) := List.getElem?_mapIdx

@[simp] theorem mask_mask : mask keystream (mask keystream bytes) = bytes := by
  refine List.ext_getElem? fun i => ?_
  rw [getElem?_mask, getElem?_mask, Option.map_map]
  cases bytes[i]? with
  | none => rfl
  | some b => exact congrArg some (Nat.xor_xor_cancel_right b (keystream i))

theorem take_mask (n : ℕ) : (mask keystream bytes).take n = mask keystream (bytes.take n) := by
  refine List.ext_getElem? fun i => ?_
  rw [getElem?_mask, List.getElem?_take, List.getElem?_take, getElem?_mask]
  split
  · rfl
  · rfl

end Mask

end Aead

/-- A cipher of a keystream and a tag. -/
structure Aead (Key Nonce : Type) where
  keystream : Key → Nonce → ℕ → ℕ
  tag : Key → Nonce → (aad ciphertext : List ℕ) → List ℕ
  tagLen : ℕ
  length_tag : ∀ key nonce aad ciphertext, (tag key nonce aad ciphertext).length = tagLen
  maxLen : ℕ

namespace Aead

variable {Key Nonce : Type} (c : Aead Key Nonce) (key : Key) (nonce : Nonce)

/-- Seal a plaintext, and bind data to it. -/
def encrypt (plaintext aad : List ℕ) : Option (List ℕ) :=
  if c.maxLen < plaintext.length then none
  else
    let body := mask (c.keystream key nonce) plaintext
    some (body ++ c.tag key nonce aad body)

/-- Open what was sealed, under the data it was bound to. -/
def decrypt (ciphertext aad : List ℕ) : Option (List ℕ) :=
  let body := ciphertext.take (ciphertext.length - c.tagLen)
  if ciphertext.length < c.tagLen ∨ c.maxLen < body.length then none
  else if ciphertext.drop (ciphertext.length - c.tagLen) = c.tag key nonce aad body then
    some (mask (c.keystream key nonce) body)
  else none

variable {c key nonce} {plaintext plaintext' ciphertext ciphertext' aad aad' : List ℕ}

theorem encrypt_eq_some_iff : c.encrypt key nonce plaintext aad = some ciphertext ↔
    plaintext.length ≤ c.maxLen ∧ ciphertext = mask (c.keystream key nonce) plaintext ++
      c.tag key nonce aad (mask (c.keystream key nonce) plaintext) := by
  rw [encrypt]
  split
  next h => exact ⟨nofun, fun h' => absurd h'.1 (by omega)⟩
  next h => rw [Option.some_inj, and_iff_right (by omega), eq_comm]

theorem exists_encrypt (c : Aead Key Nonce) (key : Key) (nonce : Nonce) (aad : List ℕ)
    (h : plaintext.length ≤ c.maxLen) :
    ∃ ciphertext, c.encrypt key nonce plaintext aad = some ciphertext :=
  ⟨_, encrypt_eq_some_iff.mpr ⟨h, rfl⟩⟩

theorem length_encrypt (h : c.encrypt key nonce plaintext aad = some ciphertext) :
    ciphertext.length = plaintext.length + c.tagLen := by
  rw [(encrypt_eq_some_iff.mp h).2, List.length_append, length_mask, c.length_tag]

theorem decrypt_append {body tag : List ℕ} (htag : tag.length = c.tagLen)
    (hlen : body.length ≤ c.maxLen) : c.decrypt key nonce (body ++ tag) aad =
      if tag = c.tag key nonce aad body then some (mask (c.keystream key nonce) body)
      else none := by
  have hbody : (body ++ tag).length - c.tagLen = body.length := by
    rw [List.length_append]
    omega
  rw [decrypt, hbody, List.take_left, List.drop_left, if_neg]
  rw [List.length_append]
  omega

theorem decrypt_encrypt (h : c.encrypt key nonce plaintext aad = some ciphertext) :
    c.decrypt key nonce ciphertext aad = some plaintext := by
  obtain ⟨hlen, rfl⟩ := encrypt_eq_some_iff.mp h
  rw [decrypt_append (c.length_tag ..) (by rwa [length_mask]), if_pos rfl, mask_mask]

theorem eq_of_decrypt (h : c.encrypt key nonce plaintext aad = some ciphertext)
    (h' : c.decrypt key nonce ciphertext aad' = some plaintext') : plaintext' = plaintext := by
  obtain ⟨hlen, rfl⟩ := encrypt_eq_some_iff.mp h
  rw [decrypt_append (c.length_tag ..) (by rwa [length_mask]), mask_mask] at h'
  split at h'
  · exact (Option.some.inj h').symm
  · exact absurd h' nofun

theorem take_encrypt {n : ℕ} (h : c.encrypt key nonce plaintext aad = some ciphertext)
    (h' : c.encrypt key nonce plaintext' aad' = some ciphertext') (hn : n ≤ plaintext.length)
    (hn' : n ≤ plaintext'.length) (htake : plaintext.take n = plaintext'.take n) :
    ciphertext.take n = ciphertext'.take n := by
  obtain ⟨-, rfl⟩ := encrypt_eq_some_iff.mp h
  obtain ⟨-, rfl⟩ := encrypt_eq_some_iff.mp h'
  rw [List.take_append_of_le_length (by rwa [length_mask]),
    List.take_append_of_le_length (by rwa [length_mask]), take_mask, take_mask, htake]

end Aead
