import CoinScript.Chunk.Minimal
import CoinScript.Script.Assembly

/-!
# Building scripts

A builder collects chunks and assembles them at the end. Data and numbers are
always added in their shortest encoding; opcodes and ready-made chunks are added
as they are and may turn out to be refused when the script is assembled.
-/

namespace CoinScript

/-- Chunks collected for a script. -/
structure Builder where
  /-- The chunks so far, first chunk first. -/
  chunks : List Chunk
deriving DecidableEq, Repr

namespace Builder

/-- Nothing collected yet. -/
def empty : Builder := ⟨[]⟩

/-- Add a chunk as it is. -/
def add (builder : Builder) (chunk : Chunk) : Builder := ⟨builder.chunks ++ [chunk]⟩

/-- Add an opcode by itself. -/
def addOpcode (builder : Builder) (code : Opcode) : Builder :=
  builder.add (.ofParts code none)

/-- Add the shortest push of the data. -/
def addData (builder : Builder) (data : Bytes) : Builder := builder.add (.push data)

/-- Add a number: by its opcode where it has one, else as the bytes that script
arithmetic reads as the number. -/
def addNumber (builder : Builder) (number : Int) : Builder :=
  match SmallNumber.ofInt? number with
  | some small => builder.add (.pushSmall small)
  | none => builder.addData (ScriptNumber.encode number)

/-- What can be added to a builder. -/
inductive Addition where
  /-- An opcode by itself. -/
  | opcode (code : Opcode)
  /-- The shortest push of the data. -/
  | data (bytes : Bytes)
  /-- The shortest push of the number. -/
  | number (value : Int)
  /-- A chunk as it is. -/
  | chunk (chunk : Chunk)
deriving DecidableEq, Repr

/-- Make one addition. -/
def apply (builder : Builder) : Addition → Builder
  | .opcode code => builder.addOpcode code
  | .data bytes => builder.addData bytes
  | .number value => builder.addNumber value
  | .chunk chunk => builder.add chunk

/-- Make the additions in order. -/
def applyAll (builder : Builder) (additions : List Addition) : Builder :=
  additions.foldl apply builder

/-- Assemble what is collected, under the standard rules. -/
def assemble (builder : Builder) : Logged ScriptEvent (Except ScriptError Script) :=
  Script.ofChunks builder.chunks

end Builder

end CoinScript
