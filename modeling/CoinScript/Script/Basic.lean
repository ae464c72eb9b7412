import CoinScript.Bytes.Basic

/-!
# Scripts

A script is a byte string, with no promise that it can be read as chunks. Scripts
are compared byte by byte from the front, a proper beginning coming first.
-/

namespace CoinScript

/-- A serialized script. Any byte string is one. -/
structure Script where
  /-- The bytes of the script. -/
  bytes : Bytes
deriving DecidableEq, Repr

namespace Script

/-- The number of bytes. -/
def size (script : Script) : Nat := script.bytes.length

/-- The script has no bytes. -/
def isEmpty (script : Script) : Bool := script.bytes.isEmpty

/-- Lexicographic order of the bytes. -/
instance : Ord Script where
  compare first second := compare first.bytes second.bytes

end Script

end CoinScript
