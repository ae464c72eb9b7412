import CoinScript.Opcode.SmallNumber
import CoinScript.ScriptError
import CoinScript.ScriptNumber

/-!
# Chunks

A chunk is one item of a script: an operation or a push of data. It holds an
opcode, a payload or none, and the position it was read from or none. Any
combination can be built; whether opcode and payload agree is decided by the
element that the chunk stands for.

An element is the checked form. Its constructors are exactly the agreeing
combinations, so whatever is written to a script or said about the effect of a
chunk is a function of its element.
-/

namespace CoinScript

/-- An item of a script, as it was put together. No agreement between opcode and
payload is implied. Equality takes the position into account. -/
structure Chunk where
  /-- The byte that begins the chunk. -/
  code : Opcode
  /-- The data carried. Carrying nothing differs from carrying no bytes. -/
  payload : Option Bytes
  /-- Where in a script the chunk was read, if it was read from one. -/
  sourceOffset : Option Nat
deriving DecidableEq, Hashable, Repr

/-- An item of a script whose opcode and payload agree. -/
inductive Element where
  /-- An opcode that stands alone and pushes no number. -/
  | operation (code : Opcode)
  /-- A push of at most 75 bytes, their number being the opcode. -/
  | directPush (data : Bytes)
  /-- A push whose length is stated separately. -/
  | announcedPush (width : PushWidth) (data : Bytes)
  /-- A number, or the empty byte string for zero, pushed by its opcode alone. -/
  | smallNumber (number : SmallNumber)
deriving DecidableEq, Repr

/-- What an item of a script does: it executes an operation or pushes data. -/
inductive Effect where
  | execute (code : Opcode)
  | push (data : Bytes)
deriving DecidableEq, Repr

/-- The effect of an element. A small number counts as the byte string that
script arithmetic reads as the number. -/
def Element.effect : Element → Effect
  | .operation code => .execute code
  | .directPush data => .push data
  | .announcedPush _ data => .push data
  | .smallNumber number => .push (ScriptNumber.encode number.value)

namespace Chunk

/-- A chunk that was put together and not read from a script. -/
def ofParts (code : Opcode) (payload : Option Bytes) : Chunk := ⟨code, payload, none⟩

/-- The two chunks have the same opcode and payload, wherever they were read. -/
def sameContent (chunk other : Chunk) : Bool :=
  decide (chunk.code = other.code ∧ chunk.payload = other.payload)

/-- The position the chunk was read from. A chunk that was put together has none. -/
def offset (chunk : Chunk) : Except ScriptError Nat :=
  match chunk.sourceOffset with
  | some position => .ok position
  | none => .error .offsetUnknown

/-- The element that the chunk stands for. Without data the opcode stands alone or is that of the
empty push. With data it is the length of the data or announces it. What is asked last is whether
it announces one; no opcode is left that does not (`element_ne_unsupported`). -/
def element (chunk : Chunk) : Except ScriptError Element :=
  match chunk.payload with
  | none =>
    if chunk.code.isOperation then
      match SmallNumber.ofOpcode? chunk.code with
      | some number => .ok (.smallNumber number)
      | none => .ok (.operation chunk.code)
    else if chunk.code = Opcode.pushEmpty then .ok (.smallNumber .zero)
    else .error (.missingPayload chunk.code)
  | some data =>
    if chunk.code.isOperation then .error (.payloadOnOperation chunk.code)
    else if chunk.code < Opcode.pushData1 then
      if data.length = chunk.code.toNat then .ok (.directPush data)
      else .error (.lengthMismatch chunk.code data.length)
    else
      match PushWidth.ofOpcode? chunk.code with
      | some width => .ok (.announcedPush width data)
      | none => .error (.unsupportedEncoding chunk.code)

/-- What a chunk stands for, or why it stands for nothing. An opcode stands alone, is the length
of its data or announces it; the data of each is there or is not, and a length is that of the
data or is another. -/
inductive Classified : Chunk → Except ScriptError Element → Prop where
  | operation {code : Opcode} {position : Option Nat} (alone : code.isOperation = true)
      (unnumbered : SmallNumber.ofOpcode? code = none) :
      Classified ⟨code, none, position⟩ (.ok (.operation code))
  | number {code : Opcode} {number : SmallNumber} {position : Option Nat}
      (alone : code.isOperation = true) (numbered : SmallNumber.ofOpcode? code = some number) :
      Classified ⟨code, none, position⟩ (.ok (.smallNumber number))
  | surplus {code : Opcode} {data : Bytes} {position : Option Nat}
      (alone : code.isOperation = true) :
      Classified ⟨code, some data, position⟩ (.error (.payloadOnOperation code))
  | empty {position : Option Nat} :
      Classified ⟨Opcode.pushEmpty, none, position⟩ (.ok (.smallNumber .zero))
  | starved {code : Opcode} {position : Option Nat} (notEmpty : code ≠ Opcode.pushEmpty)
      (pushes : code.isOperation = false) :
      Classified ⟨code, none, position⟩ (.error (.missingPayload code))
  | direct {code : Opcode} {data : Bytes} {position : Option Nat} (short : code.toNat ≤ 75)
      (counted : data.length = code.toNat) :
      Classified ⟨code, some data, position⟩ (.ok (.directPush data))
  | mismatched {code : Opcode} {data : Bytes} {position : Option Nat} (short : code.toNat ≤ 75)
      (different : data.length ≠ code.toNat) :
      Classified ⟨code, some data, position⟩ (.error (.lengthMismatch code data.length))
  | announced {width : PushWidth} {data : Bytes} {position : Option Nat} :
      Classified ⟨width.opcode, some data, position⟩ (.ok (.announcedPush width data))

/-- A chunk is found to stand for what it stands for. -/
theorem Classified.element_eq {chunk : Chunk} {outcome : Except ScriptError Element}
    (known : Classified chunk outcome) : chunk.element = outcome := by
  cases known with
  | operation alone unnumbered => simp only [element, if_pos alone, unnumbered]
  | number alone numbered => simp only [element, if_pos alone, numbered]
  | surplus alone => simp only [element, if_pos alone]
  | empty => rfl
  | starved notEmpty pushes =>
    simp only [element, pushes, Bool.false_eq_true, if_false, if_neg notEmpty]
  | direct short counted =>
    simp only [element, Opcode.isOperation_of_le short, Bool.false_eq_true, if_false,
      if_pos (Opcode.lt_pushData1_iff.mpr short), if_pos counted]
  | mismatched short different =>
    simp only [element, Opcode.isOperation_of_le short, Bool.false_eq_true, if_false,
      if_pos (Opcode.lt_pushData1_iff.mpr short), if_neg different]
  | @announced width => cases width <;> rfl

/-- Every chunk stands for something or has one of the reasons. That these are all is due to the
opcodes: one that neither stands alone nor is a length announces one. -/
theorem exists_classified (chunk : Chunk) : ∃ outcome, Classified chunk outcome := by
  obtain ⟨code, payload, position⟩ := chunk
  by_cases alone : code.isOperation = true
  · cases payload with
    | some data => exact ⟨_, .surplus alone⟩
    | none =>
      cases numbered : SmallNumber.ofOpcode? code with
      | some number => exact ⟨_, .number alone numbered⟩
      | none => exact ⟨_, .operation alone numbered⟩
  have pushes : code.isOperation = false := Bool.eq_false_iff.mpr alone
  cases payload with
  | none =>
    by_cases empty : code = Opcode.pushEmpty
    · subst empty
      exact ⟨_, .empty⟩
    · exact ⟨_, .starved empty pushes⟩
  | some data =>
    rcases Opcode.push_cases pushes with short | ⟨width, rfl⟩
    · by_cases counted : data.length = code.toNat
      · exact ⟨_, .direct short counted⟩
      · exact ⟨_, .mismatched short counted⟩
    · exact ⟨_, .announced⟩

/-- What is found of a chunk is what it stands for, or why it stands for nothing. -/
theorem classified (chunk : Chunk) : Classified chunk chunk.element := by
  obtain ⟨outcome, known⟩ := exists_classified chunk
  rw [known.element_eq]
  exact known

/-- No chunk stands for nothing because its opcode had no encoding: of the opcodes that reach the
last question, each announces a length. -/
theorem element_ne_unsupported (chunk : Chunk) (code : Opcode) :
    chunk.element ≠ .error (.unsupportedEncoding code) := by
  intro lacking
  have known := chunk.classified
  rw [lacking] at known
  cases known

/-- Agreement does not depend on where a chunk was read. -/
theorem element_of_sameContent {chunk other : Chunk} (same : chunk.sameContent other = true) :
    chunk.element = other.element := by
  have parts := of_decide_eq_true same
  simp only [element, parts.1, parts.2]

end Chunk

end CoinScript
