import CoinScript.Chunk.Encoding
import CoinScript.Chunk.Minimal

/-!
# Layout of chunks

Every push has one layout: the opcode, the bytes that state the length, and the
data. A direct push is the case in which no byte states the length, since the
opcode is the length already. An operation is its opcode alone.

A frame is the stretch of a script that one chunk takes up under given rules.
Frames speak of bytes and not of reading or writing. Both are compared with them,
and a framed chunk is written as its frame.
-/

namespace CoinScript

/-- Only the element size of the rules bears on what a width admits. -/
theorem PushWidth.maxLength_congr {rules other : Rules}
    (sameSize : rules.maxElementSize = other.maxElementSize) (width : PushWidth) :
    width.maxLength rules = width.maxLength other := by
  cases width with
  | one => rfl
  | two => rfl
  | four => exact sameSize

/-- Every length that a width admits can be stated in it, as long as four bytes
can state the element size of the rules. -/
theorem PushWidth.maxLength_lt_capacity {rules : Rules} (width : PushWidth)
    (statable : rules.maxElementSize ≤ 0xffffffff) :
    width.maxLength rules < LittleEndian.capacity width.size := by
  cases width with
  | one => exact show 255 < LittleEndian.capacity 1 by decide
  | two => exact show 65535 < LittleEndian.capacity 2 by decide
  | four =>
    have four : LittleEndian.capacity PushWidth.four.size = 0x100000000 := by decide
    simp only [maxLength, four]
    omega

namespace Opcode

/-- How many bytes behind the opcode state the length of its push. -/
def lengthSize (code : Opcode) : Nat :=
  match code.shape with
  | .announced width => width.size
  | _ => 0

/-- The length of a push, as its opcode and the bytes behind it state it. -/
def statedLength (code : Opcode) (digits : Bytes) : Nat :=
  match code.shape with
  | .direct length => length
  | .announced _ => LittleEndian.decode digits
  | .alone => 0

/-- The longest push that the opcode may make under the rules. -/
def maxLength (rules : Rules) (code : Opcode) : Nat :=
  match code.shape with
  | .direct length => length
  | .announced width => width.maxLength rules
  | .alone => 0

variable {code : Opcode}

/-- An opcode up to 75 states its length in no bytes. -/
theorem lengthSize_of_le (short : code.toNat ≤ 75) : code.lengthSize = 0 := by
  simp only [lengthSize, shape_of_le short]

/-- An opcode up to 75 is the length of its push, whatever stands behind it. -/
theorem statedLength_of_le (short : code.toNat ≤ 75) (digits : Bytes) :
    code.statedLength digits = code.toNat := by
  simp only [statedLength, shape_of_le short]

/-- An opcode up to 75 makes no longer push than itself, whatever the rules. -/
theorem maxLength_of_le (short : code.toNat ≤ 75) (rules : Rules) :
    code.maxLength rules = code.toNat := by
  simp only [maxLength, shape_of_le short]

/-- The opcode of a width states its length in that many bytes. -/
theorem lengthSize_opcode (width : PushWidth) : width.opcode.lengthSize = width.size := by
  simp only [lengthSize, shape_opcode]

/-- The opcode of a width is followed by the length in little-endian form. -/
theorem statedLength_opcode (width : PushWidth) (digits : Bytes) :
    width.opcode.statedLength digits = LittleEndian.decode digits := by
  simp only [statedLength, shape_opcode]

/-- The opcode of a width makes the pushes that the width admits. -/
theorem maxLength_opcode (width : PushWidth) (rules : Rules) :
    width.opcode.maxLength rules = width.maxLength rules := by
  simp only [maxLength, shape_opcode]

/-- Every opcode that calls for data is one of the pushes. -/
theorem isPush_of_pushes (pushes : code.isOperation = false) : code.isPush = true :=
  isPush_iff.mpr (Nat.le_trans (toNat_le_of_pushes pushes) (by decide))

/-- A length has one form behind its opcode: the bytes that state it are determined. -/
theorem digits_eq {digits : Bytes} {length : Nat} (pushes : code.isOperation = false)
    (sized : digits.length = code.lengthSize) (stated : code.statedLength digits = length) :
    digits = LittleEndian.encode code.lengthSize length := by
  rcases push_cases pushes with short | ⟨width, rfl⟩
  · rw [lengthSize_of_le short] at sized ⊢
    exact List.eq_nil_of_length_eq_zero sized
  · rw [statedLength_opcode] at stated
    rw [← sized, ← stated, LittleEndian.encode_decode]

/-- Only the element size of the rules bears on the longest push. -/
theorem maxLength_congr {rules other : Rules}
    (sameSize : rules.maxElementSize = other.maxElementSize) (code : Opcode) :
    code.maxLength rules = code.maxLength other := by
  unfold maxLength
  cases code.shape with
  | direct length => rfl
  | alone => rfl
  | announced width => exact width.maxLength_congr sameSize

end Opcode

namespace Chunk

/-- The bytes of the chunk at the position, under the rules. A push states its
length within the limit, and its opcode is the shortest where the rules demand
that. Since the opcode of a push calls for data, even no data is data here. -/
inductive Frame (rules : Rules) (start : Nat) : Bytes → Chunk → Prop where
  | operation {code : Opcode} (alone : code.isOperation = true) :
      Frame rules start [code] ⟨code, none, some start⟩
  | push {code : Opcode} {digits data : Bytes} (pushes : code.isOperation = false)
      (sized : digits.length = code.lengthSize)
      (stated : code.statedLength digits = data.length)
      (limited : data.length ≤ code.maxLength rules)
      (shortest : rules.minimalPush = true → code = minimalPushOpcode data) :
      Frame rules start (code :: (digits ++ data)) ⟨code, some data, some start⟩

namespace Frame

variable {rules : Rules} {start : Nat} {bytes : Bytes} {chunk : Chunk}

/-- A framed chunk knows its position. -/
theorem sourceOffset (frame : Frame rules start bytes chunk) : chunk.sourceOffset = some start := by
  cases frame <;> rfl

/-- A frame holds at least the opcode. -/
theorem length_pos (frame : Frame rules start bytes chunk) : 0 < bytes.length := by
  cases frame <;> exact Nat.zero_lt_succ _

/-- Without the demand for minimal pushes a push is framed in any encoding. -/
theorem push_of_relaxed {code : Opcode} {digits data : Bytes} (relaxed : rules.minimalPush = false)
    (pushes : code.isOperation = false) (sized : digits.length = code.lengthSize)
    (stated : code.statedLength digits = data.length)
    (limited : data.length ≤ code.maxLength rules) :
    Frame rules start (code :: (digits ++ data)) ⟨code, some data, some start⟩ := by
  refine .push pushes sized stated limited ?_
  intro demanded
  rw [relaxed] at demanded
  cases demanded

/-- A direct push of data whose length is the opcode. -/
theorem direct {code : Opcode} {data : Bytes} (relaxed : rules.minimalPush = false)
    (short : code.toNat ≤ 75) (counted : data.length = code.toNat) :
    Frame rules start (code :: data) ⟨code, some data, some start⟩ := by
  have framed : Frame rules start (code :: ([] ++ data)) ⟨code, some data, some start⟩ := by
    refine push_of_relaxed relaxed (Opcode.isOperation_of_le short) ?_ ?_ ?_
    · rw [Opcode.lengthSize_of_le short]
      rfl
    · rw [Opcode.statedLength_of_le short, counted]
    · exact Nat.le_of_eq (counted.trans (Opcode.maxLength_of_le short rules).symm)
  exact framed

/-- A push whose length its width admits and can state. -/
theorem announced {width : PushWidth} {data : Bytes} (relaxed : rules.minimalPush = false)
    (within : data.length ≤ width.maxLength rules)
    (fits : data.length < LittleEndian.capacity width.size) :
    Frame rules start (width.opcode :: (LittleEndian.encode width.size data.length ++ data))
      ⟨width.opcode, some data, some start⟩ := by
  refine push_of_relaxed relaxed (Opcode.isOperation_opcode width) ?_ ?_ ?_
  · rw [Opcode.lengthSize_opcode, LittleEndian.length_encode]
  · rw [Opcode.statedLength_opcode, LittleEndian.decode_encode_of_lt fits]
  · rw [Opcode.maxLength_opcode]
    exact within

end Frame

variable {rules : Rules} {code : Opcode} {bytes digits data : Bytes}

/-- An opcode that stands alone is written as itself. -/
theorem encoding_operation (alone : code.isOperation = true) (rules : Rules)
    (position : Option Nat) : encoding rules ⟨code, none, position⟩ = .ok [code] := by
  cases found : SmallNumber.ofOpcode? code with
  | none =>
    rw [encoding_of_element (Classified.operation alone found).element_eq]
    rfl
  | some number =>
    have same : number.opcode = code := SmallNumber.opcode_of_ofOpcode? found
    rw [encoding_of_element (Classified.number alone found).element_eq]
    simp only [Element.within, Except.map, Element.bytes, same]

/-- The opcode of the empty push is written as itself also without a payload. -/
theorem encoding_empty (rules : Rules) (position : Option Nat) :
    encoding rules ⟨Opcode.pushEmpty, none, position⟩ = .ok [Opcode.pushEmpty] := rfl

/-- Data as long as its opcode says is written behind the opcode. -/
theorem encoding_direct (short : code.toNat ≤ 75) (counted : data.length = code.toNat)
    (rules : Rules) (position : Option Nat) :
    encoding rules ⟨code, some data, position⟩ = .ok (code :: data) := by
  rw [encoding_of_element (Classified.direct short counted).element_eq]
  simp only [Element.within, Except.map, Element.bytes, counted, UInt8.ofNat_toNat]

/-- Data that a width admits is written behind its length. -/
theorem encoding_announced {width : PushWidth} (within : data.length ≤ width.maxLength rules)
    (position : Option Nat) :
    encoding rules ⟨width.opcode, some data, position⟩ =
      .ok (width.opcode :: (LittleEndian.encode width.size data.length ++ data)) := by
  rw [encoding_of_element Classified.announced.element_eq, Element.within, if_pos within]
  rfl

/-- A push whose length is stated rightly and within the limit is written as its
opcode, the bytes that state the length, and the data. A width has one form of
every length, so the bytes written are the ones given. -/
theorem encoding_push (pushes : code.isOperation = false) (sized : digits.length = code.lengthSize)
    (stated : code.statedLength digits = data.length)
    (limited : data.length ≤ code.maxLength rules) (position : Option Nat) :
    encoding rules ⟨code, some data, position⟩ = .ok (code :: (digits ++ data)) := by
  rw [Opcode.digits_eq pushes sized stated]
  rcases Opcode.push_cases pushes with short | ⟨width, rfl⟩
  · rw [Opcode.statedLength_of_le short] at stated
    rw [encoding_direct short stated.symm, Opcode.lengthSize_of_le short]
    rfl
  · rw [Opcode.maxLength_opcode] at limited
    rw [encoding_announced limited, Opcode.lengthSize_opcode]

/-- A frame is what is written for its chunk under the same rules. -/
theorem Frame.encoding_eq {start : Nat} {chunk : Chunk} (frame : Frame rules start bytes chunk) :
    chunk.encoding rules = .ok bytes := by
  cases frame with
  | operation alone => exact encoding_operation alone rules (some start)
  | push pushes sized stated limited shortest =>
    exact encoding_push pushes sized stated limited (some start)

/-- Whether data is pushed in the shortest way is known for every opcode that calls for
data. -/
theorem isMinimal_push (pushes : code.isOperation = false) (data : Bytes)
    (position : Option Nat) :
    isMinimal ⟨code, some data, position⟩ = .ok (decide (code = minimalPushOpcode data)) := by
  simp only [isMinimal, Opcode.isPush_of_pushes pushes, if_true]

/-- The form in which reading gives a chunk: an empty push written without a
payload comes back with the empty payload. -/
def readForm (chunk : Chunk) : Chunk :=
  if chunk.code = Opcode.pushEmpty ∧ chunk.payload = none then
    { chunk with payload := some [] }
  else chunk

/-- A chunk with data is read back in its own form. -/
theorem readForm_of_some (code : Opcode) (data : Bytes) (position : Option Nat) :
    readForm ⟨code, some data, position⟩ = ⟨code, some data, position⟩ := by
  simp [readForm]

/-- An operation is read back in its own form. -/
theorem readForm_operation (alone : code.isOperation = true) (position : Option Nat) :
    readForm ⟨code, none, position⟩ = ⟨code, none, position⟩ := by
  have notEmpty : code ≠ Opcode.pushEmpty := by
    rintro rfl
    cases alone
  simp [readForm, notEmpty]

end Chunk

end CoinScript
