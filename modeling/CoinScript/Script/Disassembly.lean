import CoinScript.Chunk.Display
import CoinScript.Script.Reader

/-!
# Disassembling scripts

A disassembly shows the chunks of a script in order, separated by spaces. Every
push encoding is accepted. Where the script cannot be read on, a mark stands in
the place of the rest.
-/

namespace CoinScript.Script

/-- The text of an item: a chunk by its names, an error by a mark. -/
def itemText (names : OpcodeNames) : Item → String
  | .ok chunk => chunk.display names
  | .error _ => "[error]"

/-- The script as text, by the names of the table. -/
def disassemble (names : OpcodeNames) (script : Script) : String :=
  " ".intercalate ((script.read .relaxed).items.map (itemText names))

end CoinScript.Script
