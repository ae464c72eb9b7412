import CoinScript.Bytes.LittleEndian
import CoinScript.Chunk.Basic

/-!
# Encoding chunks

An element determines its bytes: the opcode, the length where it is stated
separately, and the data. Encoding a chunk first finds its element and holds the
data to the limit of its push, and only then writes. So a refused chunk leaves
the buffer as it was, and the refusal is reported.

The length of an encoding is known from the element alone and is not subject to
the limits of the rules.
-/

namespace CoinScript

namespace Element

/-- The bytes of an element. A stated length is written in the width of its
push, without regard to whether it fits. -/
def bytes : Element → Bytes
  | .operation code => [code]
  | .directPush data => UInt8.ofNat data.length :: data
  | .announcedPush width data =>
    width.opcode :: (LittleEndian.encode width.size data.length ++ data)
  | .smallNumber number => [number.opcode]

/-- The number of bytes of an element. -/
def encodedLength : Element → Nat
  | .operation _ => 1
  | .directPush data => 1 + data.length
  | .announcedPush width data => 1 + width.size + data.length
  | .smallNumber _ => 1

/-- The length announced is the length written. -/
theorem length_bytes (element : Element) : element.bytes.length = element.encodedLength := by
  cases element <;>
    simp only [bytes, encodedLength, List.length_cons, List.length_append, List.length_nil,
      LittleEndian.length_encode] <;> omega

/-- The element, unless its data is longer than its push may carry. -/
def within (rules : Rules) : Element → Except ScriptError Element
  | .announcedPush width data =>
    if data.length ≤ width.maxLength rules then .ok (.announcedPush width data)
    else .error (.pushTooLong width.opcode data.length (width.maxLength rules))
  | element => .ok element

end Element

/-- What an attempt to write to a buffer leaves behind. -/
structure Written where
  /-- Whether the attempt succeeded. -/
  outcome : Except ScriptError Unit
  /-- The buffer afterwards. -/
  buffer : Bytes
  /-- What was reported. -/
  log : List ScriptEvent

namespace Chunk

/-- The number of bytes of the chunk, whatever the limits. -/
def encodedLength (chunk : Chunk) : Except ScriptError Nat :=
  chunk.element.map Element.encodedLength

/-- The bytes of the chunk under the rules. -/
def encoding (rules : Rules) (chunk : Chunk) : Except ScriptError Bytes :=
  match chunk.element with
  | .error reason => .error reason
  | .ok element => (element.within rules).map Element.bytes

/-- Write the chunk after what the buffer holds. A refusal leaves the buffer
untouched and is reported with the chunk's opcode. -/
def appendTo (rules : Rules) (chunk : Chunk) (buffer : Bytes) : Written :=
  match chunk.encoding rules with
  | .ok bytes => ⟨.ok (), buffer ++ bytes, []⟩
  | .error reason => ⟨.error reason, buffer, [.chunkRefused chunk.code reason]⟩

/-- The bytes of the chunk under the standard rules. The length is asked for
first, so a chunk that has no element is refused without a report. -/
def encode (chunk : Chunk) : Logged ScriptEvent (Except ScriptError Bytes) :=
  match chunk.encodedLength with
  | .error reason => ⟨.error reason, []⟩
  | .ok _ =>
    let written := chunk.appendTo .standard []
    ⟨written.outcome.map fun _ => written.buffer, written.log⟩

section

variable {rules : Rules} {chunk : Chunk}

/-- A chunk that stands for an element is encoded as the element, if its data is within the
limit. -/
theorem encoding_of_element {element : Element} (known : chunk.element = .ok element) :
    chunk.encoding rules = (element.within rules).map Element.bytes := by
  simp only [encoding, known]

/-- A chunk that stands for nothing has no encoding, for the same reason. -/
theorem encoding_of_unclassified {reason : ScriptError} (unknown : chunk.element = .error reason) :
    chunk.encoding rules = .error reason := by
  simp only [encoding, unknown]

/-- Writing a chunk that has an encoding adds the encoding to any buffer. -/
theorem appendTo_of_encoding {bytes : Bytes} (written : chunk.encoding rules = .ok bytes)
    (buffer : Bytes) : chunk.appendTo rules buffer = ⟨.ok (), buffer ++ bytes, []⟩ := by
  simp only [appendTo, written]

/-- Writing a chunk that has none leaves any buffer as it is. -/
theorem appendTo_of_refused {reason : ScriptError}
    (refused : chunk.encoding rules = .error reason) (buffer : Bytes) :
    chunk.appendTo rules buffer = ⟨.error reason, buffer, [.chunkRefused chunk.code reason]⟩ := by
  simp only [appendTo, refused]

end

/-- An encoding has the announced length. -/
theorem length_of_encoding {rules : Rules} {chunk : Chunk} {bytes : Bytes}
    (encoded : chunk.encoding rules = .ok bytes) : chunk.encodedLength = .ok bytes.length := by
  cases known : chunk.element with
  | error reason =>
    rw [encoding_of_unclassified known] at encoded
    cases encoded
  | ok element =>
    rw [encoding_of_element known] at encoded
    have written : bytes = element.bytes := by
      unfold Element.within at encoded
      split at encoded
      · split at encoded
        · exact (Except.ok.inj encoded).symm
        · cases encoded
      · exact (Except.ok.inj encoded).symm
    rw [encodedLength, known, written, Element.length_bytes]
    rfl

end Chunk

end CoinScript
