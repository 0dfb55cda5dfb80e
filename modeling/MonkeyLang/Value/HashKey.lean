/-
Keys of hash tables.

* `fnv1a`: the 64-bit hash FNV-1a of a byte string;
* `HashKey`: what stands for a key in a hash table: an integer or a truth
  value itself, and the hash of a string's UTF-8 bytes.
-/

namespace MonkeyLang

/-! ### The hash of a byte string -/

/-- The hash of the empty byte string. -/
def fnvBasis : UInt64 := 0xCBF29CE484222325

/-- The factor of each round. -/
def fnvPrime : UInt64 := 0x100000001B3

/-- One round: a byte is mixed into the hash, which is then multiplied. -/
def fnvRound (h : UInt64) (b : UInt8) : UInt64 := (h ^^^ b.toUInt64) * fnvPrime

/-- The 64-bit hash FNV-1a. -/
def fnv1a (bytes : List UInt8) : UInt64 := bytes.foldl fnvRound fnvBasis

/-- The UTF-8 bytes of a text. -/
def utf8Bytes (s : String) : List UInt8 := s.toList.flatMap String.utf8EncodeChar

/-! ### Keys -/

/-- What stands for a key in a hash table.  Two strings with one hash are
one key. -/
inductive HashKey where
  | integer (n : Int)
  | boolean (b : Bool)
  | string (hash : UInt64)
deriving DecidableEq, Repr

/-- The key that stands for a string. -/
def HashKey.ofString (s : String) : HashKey := string (fnv1a (utf8Bytes s))

/-- The number of a key among those of its type. -/
def HashKey.number : HashKey → Int
  | integer n => n
  | boolean b => if b then 1 else 0
  | string h => h.toNat

end MonkeyLang
