import CoinScript.Chunk.Basic
import CoinScript.Opcode.Names

/-!
# Displaying chunks

A chunk is shown by a name table. An opcode that stands alone is shown by its
name; data is shown in hexadecimal behind the name of its push; a push without
data is shown as the number it pushes.
-/

namespace CoinScript.Chunk

/-- The chunk as text, by the names of the table. -/
def display (names : OpcodeNames) (chunk : Chunk) : String :=
  if chunk.code.isOperation then names.operationName chunk.code
  else
    match chunk.payload, SmallNumber.ofOpcode? chunk.code with
    | some data, _ => names.pushName chunk.code ++ "[" ++ Hex.text data ++ "]"
    | none, some number => toString number.value
    | none, none => names.operationName chunk.code

end CoinScript.Chunk
