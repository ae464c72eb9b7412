import CoinScript.Proofs.RoundTrip
import Mathlib.Data.Nat.Digits.Defs

/-!
# Faults of a script

A fault is what is wrong with the bytes at a position. It is found from these
bytes alone, in a fixed order: a length that is not all there, a length beyond the
element size, data that is not all there, and last an encoding that is not the
shortest. Only a length stated in four bytes can be beyond the element size, since
the other widths cannot state a length that they may not carry. How many bytes state a
length, and which, is given in numbers as well.

Reading a script gives chunks that lie side by side from the beginning, and then
the fault of the bytes behind them as the only error, if these bytes have one. So
the position in the error is where the faulty push begins, however many chunks
stand before it and wherever within it the bytes end.
-/

namespace CoinScript

/-- The number that bytes state is the one that has them as its digits in base 256, the lowest
first. -/
theorem LittleEndian.decode_eq_ofDigits (bytes : Bytes) :
    decode bytes = Nat.ofDigits 256 (bytes.map UInt8.toNat) := by
  induction bytes with
  | nil => rfl
  | cons byte rest inductionHypothesis =>
    rw [decode, inductionHypothesis, List.map_cons, Nat.ofDigits_cons]

/-- One, two or four bytes state the length behind the three opcodes that announce one, and none
behind an opcode that is a length. -/
theorem Opcode.lengthSize_eq {code : Opcode} (pushes : code.isOperation = false) :
    code.lengthSize =
      if code = 0x4c then 1 else if code = 0x4d then 2 else if code = 0x4e then 4 else 0 := by
  rcases push_cases pushes with short | ⟨width, rfl⟩
  · have other {announcing : Opcode} (high : 75 < announcing.toNat) : code ≠ announcing := by
      rintro rfl
      omega
    rw [lengthSize_of_le short, if_neg (other (by decide)), if_neg (other (by decide)),
      if_neg (other (by decide))]
  · cases width <;> rfl

/-- The length stated is the opcode itself below the three, and else the number with the digits
behind it in base 256, the lowest first. -/
theorem Opcode.statedLength_eq {code : Opcode} (pushes : code.isOperation = false)
    (digits : Bytes) :
    code.statedLength digits =
      if code.toNat < 0x4c then code.toNat else Nat.ofDigits 256 (digits.map UInt8.toNat) := by
  rcases push_cases pushes with short | ⟨width, rfl⟩
  · rw [statedLength_of_le short, if_pos (Nat.lt_succ_of_le short)]
  · have announced : ¬width.opcode.toNat < 0x4c := by cases width <;> decide
    rw [statedLength_opcode, if_neg announced, LittleEndian.decode_eq_ofDigits]

/-- Only the opcode of a four-byte length can state more than it may carry, and
the limit is then the element size. -/
theorem Opcode.maxLength_lt_statedLength_iff (rules : Rules) {code : Opcode} {digits : Bytes}
    (pushes : code.isOperation = false) (sized : digits.length = code.lengthSize) :
    code.maxLength rules < code.statedLength digits ↔
      code = pushData4 ∧ rules.maxElementSize < code.statedLength digits := by
  rcases push_cases pushes with short | ⟨width, rfl⟩
  · have notFour : code ≠ pushData4 := by
      rintro rfl
      exact absurd short (by decide)
    rw [maxLength_of_le short, statedLength_of_le short]
    simp [notFour]
  · have bounded := LittleEndian.decode_lt digits
    rw [lengthSize_opcode] at sized
    rw [sized] at bounded
    rw [maxLength_opcode, statedLength_opcode]
    cases width with
    | one =>
      have within : LittleEndian.decode digits ≤ 255 := Nat.le_of_lt_succ bounded
      have notFour : PushWidth.one.opcode ≠ pushData4 := by decide
      simp [PushWidth.maxLength, notFour, within]
    | two =>
      have within : LittleEndian.decode digits ≤ 65535 := Nat.le_of_lt_succ bounded
      have notFour : PushWidth.two.opcode ≠ pushData4 := by decide
      simp [PushWidth.maxLength, notFour, within]
    | four => simp [PushWidth.maxLength, PushWidth.opcode]

namespace Chunk

/-- What is wrong with a push at the position, if anything is, the bytes behind its
opcode being given. -/
def pushFault? (rules : Rules) (start : Nat) (code : Opcode) (rest : Bytes) :
    Option ScriptError :=
  let length := code.statedLength (rest.take code.lengthSize)
  let behind := rest.drop code.lengthSize
  if rest.length < code.lengthSize then some (.truncatedPush start)
  else if code = Opcode.pushData4 ∧ rules.maxElementSize < length then
    some (.pushTooLong Opcode.pushData4 length rules.maxElementSize)
  else if behind.length < length then some (.truncatedPush start)
  else if rules.minimalPush ∧ code ≠ minimalPushOpcode (behind.take length) then
    some (.nonMinimalPush start)
  else none

/-- What is wrong with the bytes at the position, if anything is. Nothing is wrong
with an operation, or where there are no bytes. -/
def fault? (rules : Rules) (start : Nat) : Bytes → Option ScriptError
  | [] => none
  | code :: rest => if Opcode.isOperation code then none else pushFault? rules start code rest

variable {rules : Rules} {start : Nat} {code : Opcode} {digits rest unread : Bytes}
  {reason : ScriptError} {log : List ScriptEvent}

/-- The fault of a push in numbers: which bytes state its length, what they state, how many
there have to be and what the limit is. -/
theorem pushFault?_eq (pushes : code.isOperation = false) :
    let width := if code = 0x4c then 1 else if code = 0x4d then 2 else if code = 0x4e then 4 else 0
    let length :=
      if code.toNat < 0x4c then code.toNat
      else Nat.ofDigits 256 ((rest.take width).map UInt8.toNat)
    pushFault? rules start code rest =
      if rest.length < width then some (.truncatedPush start)
      else if code = 0x4e ∧ rules.maxElementSize < length then
        some (.pushTooLong 0x4e length rules.maxElementSize)
      else if rest.length < width + length then some (.truncatedPush start)
      else if rules.minimalPush ∧ code ≠ minimalPushOpcode ((rest.drop width).take length) then
        some (.nonMinimalPush start)
      else none := by
  intro width length
  have sized : code.lengthSize = width := Opcode.lengthSize_eq pushes
  have stated : code.statedLength (rest.take width) = length := Opcode.statedLength_eq pushes _
  simp only [pushFault?, sized, stated]
  by_cases short : rest.length < width
  · rw [if_pos short, if_pos short]
  · have behind : (rest.drop width).length < length ↔ rest.length < width + length := by
      rw [List.length_drop]
      omega
    simp only [if_neg short, behind]
    rfl

/-- Behind a length that is all there, the remaining questions are asked of the
length stated and of the bytes after it. -/
theorem pushFault?_append (pushes : code.isOperation = false)
    (sized : digits.length = code.lengthSize) :
    pushFault? rules start code (digits ++ rest) =
      if code.maxLength rules < code.statedLength digits then
        some (.pushTooLong code (code.statedLength digits) (code.maxLength rules))
      else if rest.length < code.statedLength digits then some (.truncatedPush start)
      else if rules.minimalPush ∧
          code ≠ minimalPushOpcode (rest.take (code.statedLength digits)) then
        some (.nonMinimalPush start)
      else none := by
  have present : ¬(digits ++ rest).length < code.lengthSize := by
    rw [List.length_append]
    omega
  have beyond := Opcode.maxLength_lt_statedLength_iff rules pushes sized
  simp only [pushFault?, if_neg present, List.take_left' sized, List.drop_left' sized, ← beyond]
  split
  · rename_i tooLong
    obtain ⟨rfl, _⟩ := beyond.mp tooLong
    rfl
  · rfl

/-- The fault of a push is that of the bytes that begin with it. -/
theorem fault?_push (pushes : code.isOperation = false) (rest : Bytes) :
    fault? rules start (code :: rest) = pushFault? rules start code rest := by
  simp only [fault?, pushes, Bool.false_eq_true, if_false]

/-- A refusal names the fault of the bytes that it refuses. -/
theorem Refusal.fault?_eq (refusal : Refusal rules start unread reason log) :
    fault? rules start unread = some reason := by
  cases refusal with
  | lengthMissing pushes short =>
    rw [fault?_push pushes, pushFault?, if_pos short]
  | tooLong pushes sized beyond =>
    rw [fault?_push pushes, pushFault?_append pushes sized, if_pos beyond]
  | dataMissing pushes sized limited short =>
    rw [fault?_push pushes, pushFault?_append pushes sized, if_neg (Nat.not_lt_of_le limited),
      if_pos short]
  | @notShortest code digits data rest pushes sized stated limited demanded longer =>
    have within : ¬code.maxLength rules < code.statedLength digits := by omega
    have present : ¬(data ++ rest).length < code.statedLength digits := by
      rw [List.length_append]
      omega
    rw [fault?_push pushes, pushFault?_append pushes sized, if_neg within, if_neg present,
      List.take_left' stated.symm, if_pos ⟨demanded, longer⟩]

end Chunk

/-- A four-byte length beyond the element size is refused for its length although
its data is missing as well; with a length in range the missing data is the fault. -/
example : Chunk.fault? .standard 2 [0x4e, 0x09, 0x02, 0x00, 0x00, 0xff] =
      some (.pushTooLong 0x4e 521 520) ∧
    Chunk.fault? .standard 2 [0x4e, 0x08, 0x02, 0x00, 0x00, 0xff] = some (.truncatedPush 2) := by
  decide

end CoinScript
