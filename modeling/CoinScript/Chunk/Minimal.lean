import CoinScript.Chunk.Basic

/-!
# Shortest pushes

For every byte string there is one opcode that pushes it in the fewest bytes. A
string that is the shortest form of a small number is pushed by that number's
opcode, with no payload at all; any other takes the shortest way to state its
length.

A push is minimal when it uses that opcode. The question is put to pushes only.
Data and small numbers are built here as minimal pushes; an opcode by itself is
taken as it is, as long as it needs no payload.
-/

namespace CoinScript

/-- The opcode of the shortest push of the data. -/
def minimalPushOpcode (data : Bytes) : Opcode :=
  match SmallNumber.ofBytes? data with
  | some number => number.opcode
  | none =>
    if data.length ≤ Opcode.maxDirectLength then UInt8.ofNat data.length
    else if data.length ≤ 255 then Opcode.pushData1
    else if data.length ≤ 65535 then Opcode.pushData2
    else Opcode.pushData4

namespace Chunk

/-- Whether a push uses its shortest encoding. A push without a payload does so
exactly when its opcode pushes a number. Other operations have no answer. -/
def isMinimal (chunk : Chunk) : Except ScriptError Bool :=
  if chunk.code.isPush then
    match chunk.payload with
    | some data => .ok (decide (chunk.code = minimalPushOpcode data))
    | none => .ok (SmallNumber.ofOpcode? chunk.code).isSome
  else .error (.notPush chunk.code)

/-- The push of a small number. Zero is carried as an empty payload, the form
in which reading a script gives it; the others carry none. -/
def pushSmall (number : SmallNumber) : Chunk :=
  if number.value = 0 then ofParts Opcode.pushEmpty (some []) else ofParts number.opcode none

/-- The shortest push of the data. Data that its opcode determines by itself is
pushed as the small number it stands for. -/
def push (data : Bytes) : Chunk :=
  match SmallNumber.ofBytes? data with
  | some number => pushSmall number
  | none => ofParts (minimalPushOpcode data) (some data)

/-- The opcode by itself, refused when it needs a payload. -/
def single (code : Opcode) : Except ScriptError Chunk :=
  (ofParts code none).element.map fun _ => ofParts code none

end Chunk

end CoinScript
