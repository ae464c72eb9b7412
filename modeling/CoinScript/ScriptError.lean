import CoinScript.Bytes.Hex
import CoinScript.Log
import CoinScript.Opcode.Basic

/-!
# Script errors

Everything that can be wrong with a chunk or a script is one of ten causes. Four
are chunks whose opcode and payload do not agree, two are questions put to a
chunk that has no answer to them, three are found in the bytes of a script, and
one opcode could lack an encoding altogether.

The two events that script operations report are worded here as well, since one
of them quotes the error it accompanies.
-/

namespace CoinScript

/-- Why a chunk or a script is refused. -/
inductive ScriptError where
  /-- An opcode that stands alone comes with a payload. -/
  | payloadOnOperation (code : Opcode)
  /-- A direct push carries another number of bytes than its opcode says. -/
  | lengthMismatch (code : Opcode) (length : Nat)
  /-- An opcode that needs a payload comes without one. -/
  | missingPayload (code : Opcode)
  /-- A payload, or the length stated for one, is beyond what the opcode may carry. -/
  | pushTooLong (code : Opcode) (length limit : Nat)
  /-- The opcode has no encoding. -/
  | unsupportedEncoding (code : Opcode)
  /-- Minimality was asked of an opcode that does not push. -/
  | notPush (code : Opcode)
  /-- A position was asked of a chunk that was not read from a script. -/
  | offsetUnknown
  /-- The script ends within the push that starts at the offset. -/
  | truncatedPush (offset : Nat)
  /-- The push at the offset has a shorter encoding. -/
  | nonMinimalPush (offset : Nat)
  /-- The script has more bytes than the rules admit. -/
  | scriptTooLarge
deriving DecidableEq, Repr

namespace ScriptError

/-- The wording of an error. Opcodes are written in hexadecimal and every other
number in decimal. -/
def message : ScriptError → String
  | .payloadOnOperation code =>
    s!"Invalid chunk state: Operation {Hex.literal code} carries a payload"
  | .lengthMismatch code length =>
    s!"Invalid chunk state: Direct push opcode {Hex.literal code} does not match " ++
      s!"payload length {length}"
  | .missingPayload code =>
    s!"Invalid chunk state: Push opcode {Hex.literal code} has no payload"
  | .pushTooLong code length limit =>
    s!"Invalid chunk state: Payload of {length} bytes too long for opcode " ++
      s!"{Hex.literal code} (max {limit})"
  | .unsupportedEncoding code => s!"No encoding defined for opcode {Hex.literal code}"
  | .notPush code => s!"Precondition violated: Opcode {Hex.literal code} is not a data push"
  | .offsetUnknown => "Precondition violated: Chunk was not parsed from a script"
  | .truncatedPush offset =>
    s!"Script ends in the middle of a push starting at offset {offset}"
  | .nonMinimalPush offset => s!"Push at offset {offset} is not minimally encoded"
  | .scriptTooLarge => "Script too large"

end ScriptError

/-- What script operations report. -/
inductive ScriptEvent where
  /-- A chunk was not written, for the stated reason. -/
  | chunkRefused (code : Opcode) (reason : ScriptError)
  /-- Reading ran out of bytes within the push that starts at the offset. -/
  | pushTruncated (offset : Nat)
deriving DecidableEq, Repr

namespace ScriptEvent

/-- A refused chunk is a warning; a truncated script is only traced, for scripts
from elsewhere may be anything. -/
def report : ScriptEvent → Report
  | .chunkRefused code reason =>
    ⟨.warn, s!"Cannot encode script chunk {Hex.literal code}: {reason.message}"⟩
  | .pushTruncated offset => ⟨.trace, s!"Script truncated in push at offset {offset}"⟩

end ScriptEvent

end CoinScript
