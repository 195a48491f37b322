import Mathlib.Data.Nat.Notation
import Mathlib.Data.Int.Notation

/-!
# CBOR values

The value a field holds, as the decoder hands it over. Canonical CBOR forbids
floats, so there is no constructor for one. The merge stores a value as its
canonical bytes and reads the bytes back where it looks inside; a `Codec` is that
pair of functions. Nothing the merge proves rests on which bytes they are: what a
result does need is named where it is needed, as `Codec.Reads`.
-/

namespace Sunrise

abbrev Bytes := List ℕ

/-- A CBOR value. -/
inductive Value where
  | null
  | bool (b : Bool)
  | integer (n : ℤ)
  | bytes (b : Bytes)
  | text (s : String)
  | array (items : List Value)
  | map (entries : List (Value × Value))
  | tag (n : ℕ) (inner : Value)
deriving Inhabited

namespace Value

def asText : Value → Option String
  | text s => some s
  | _ => none

def asArray : Value → Option (List Value)
  | array items => some items
  | _ => none

def asMap : Value → Option (List (Value × Value))
  | map entries => some entries
  | _ => none

def asInteger : Value → Option ℤ
  | integer n => some n
  | _ => none

def isNull : Value → Bool
  | null => true
  | _ => false

end Value

def getEntry (entries : List (Value × Value)) (name : String) : Option Value :=
  (entries.find? fun e => e.1.asText == some name).map (·.2)

/-- The canonical encoder and the bounded decoder of stored field values. `dec`
never fails: bytes that do not decode read as null. -/
structure Codec where
  enc : Value → Bytes
  dec : Bytes → Value

/-- The stored bytes of `v` read back as a value with the same bytes, which holds
of every value nested within the decoder's bound. -/
def Codec.Reads (c : Codec) (v : Value) : Prop := c.enc (c.dec (c.enc v)) = c.enc v

instance (c : Codec) (v : Value) : Decidable (c.Reads v) :=
  inferInstanceAs (Decidable (c.enc (c.dec (c.enc v)) = c.enc v))

/-- CBOR's one-byte values and the ASCII texts shorter than 24 bytes, which are all the
values the worked examples write. -/
def Codec.short : Codec where
  enc
    | .bool true => [0xf5]
    | .bool false => [0xf4]
    | .text s => (0x60 + s.length) :: s.toList.map Char.toNat
    | _ => [0xf6]
  dec
    | [0xf5] => .bool true
    | [0xf4] => .bool false
    | n :: chars => if n < 0x78 then .text (String.ofList (chars.map Char.ofNat)) else .null
    | [] => .null

end Sunrise
