import CoinScript.Chunk.Encoding
import CoinScript.Script.Basic

/-!
# Assembling scripts

A script is assembled by writing chunk after chunk. The first chunk that is
refused ends the work with its own refusal, the only thing reported; nothing is
kept of what was written before it.

Assembling is stated twice. `assemble` gathers the bytes in one pass from back
to front and is what runs; `appendAll` writes each chunk to a buffer in turn and
says what that pass has to give. The two agree on every list of chunks.
-/

namespace CoinScript

/-- Write the chunks one after another, up to the first refusal. -/
def Chunk.appendAll (rules : Rules) : List Chunk → Bytes → Written
  | [], buffer => ⟨.ok (), buffer, []⟩
  | chunk :: rest, buffer =>
    let written := chunk.appendTo rules buffer
    match written.outcome with
    | .error reason => ⟨.error reason, written.buffer, written.log⟩
    | .ok () =>
      let others := appendAll rules rest written.buffer
      ⟨others.outcome, others.buffer, written.log ++ others.log⟩

namespace Script

/-- Assemble the chunks behind what is written, latest byte first. -/
def assembleOnto (rules : Rules) (written : Bytes) :
    List Chunk → Logged ScriptEvent (Except ScriptError Script)
  | [] => ⟨.ok ⟨written.reverse⟩, []⟩
  | chunk :: rest =>
    match chunk.encoding rules with
    | .ok bytes => assembleOnto rules (bytes.reverse ++ written) rest
    | .error reason => ⟨.error reason, [.chunkRefused chunk.code reason]⟩

/-- Assemble a script under the rules. -/
def assemble (rules : Rules) (chunks : List Chunk) :
    Logged ScriptEvent (Except ScriptError Script) :=
  assembleOnto rules [] chunks

/-- Assemble a script under the standard rules. -/
def ofChunks (chunks : List Chunk) : Logged ScriptEvent (Except ScriptError Script) :=
  assemble .standard chunks

/-- Behind whatever is written, assembling gives what writing in turn gives. -/
theorem assembleOnto_eq (rules : Rules) (chunks : List Chunk) (written : Bytes) :
    assembleOnto rules written chunks =
      let appended := Chunk.appendAll rules chunks written.reverse
      ⟨appended.outcome.map fun _ => ⟨appended.buffer⟩, appended.log⟩ := by
  induction chunks generalizing written with
  | nil => rfl
  | cons chunk rest inductionHypothesis =>
    simp only [assembleOnto, Chunk.appendAll, Chunk.appendTo]
    cases chunk.encoding rules with
    | error reason => rfl
    | ok bytes =>
      simp only [inductionHypothesis, List.reverse_append, List.reverse_reverse, List.nil_append]

/-- Assembling gives what writing every chunk in turn to an empty buffer gives. -/
theorem assemble_eq_appendAll (rules : Rules) (chunks : List Chunk) :
    assemble rules chunks =
      let appended := Chunk.appendAll rules chunks []
      ⟨appended.outcome.map fun _ => ⟨appended.buffer⟩, appended.log⟩ :=
  assembleOnto_eq rules chunks []

end Script

end CoinScript
