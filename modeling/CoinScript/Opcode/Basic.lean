import CoinScript.Bytes.Basic
import CoinScript.Rules

/-!
# Opcodes

An opcode is one byte. It fixes how a chunk of a script is laid out: an opcode
up to 75 pushes that many bytes, the three opcodes above it state the length of
their push in one, two or four bytes, and every opcode from 79 on stands alone.

Layout and meaning overlap. The opcodes 79 and 81 to 96 stand alone and yet push
a number, so standing alone (`isOperation`) and belonging to the pushes
(`isPush`) are separate questions, and some opcodes answer both with yes.
-/

namespace CoinScript

/-- The byte that begins every chunk of a script. -/
abbrev Opcode := UInt8

namespace Opcode

/-- Pushes the empty byte string. -/
def pushEmpty : Opcode := 0x00

/-- Pushes data whose length follows in one byte. -/
def pushData1 : Opcode := 0x4c

/-- Pushes data whose length follows in two bytes. -/
def pushData2 : Opcode := 0x4d

/-- Pushes data whose length follows in four bytes. -/
def pushData4 : Opcode := 0x4e

/-- Belongs to the pushes by its position and yet pushes nothing. -/
def reserved : Opcode := 0x50

/-- Pushes the number sixteen, and is the last of the pushes. -/
def pushSixteen : Opcode := 0x60

/-- The longest push whose opcode is its length. -/
def maxDirectLength : Nat := 75

/-- The opcode stands alone: no payload may follow it. -/
def isOperation (code : Opcode) : Bool :=
  decide (pushData4.toNat < code.toNat)

/-- The opcode belongs to the pushes, those of small numbers included. -/
def isPush (code : Opcode) : Bool :=
  decide (code.toNat ≤ pushSixteen.toNat)

end Opcode

/-- How many bytes state the length of a push. -/
inductive PushWidth where
  | one
  | two
  | four
deriving DecidableEq, Repr

namespace PushWidth

/-- The opcode that announces a length of this width. -/
def opcode : PushWidth → Opcode
  | .one => Opcode.pushData1
  | .two => Opcode.pushData2
  | .four => Opcode.pushData4

/-- The number of bytes the length takes. -/
def size : PushWidth → Nat
  | .one => 1
  | .two => 2
  | .four => 4

/-- The longest payload the rules admit. One and two bytes are bounded by what
they can state; only four bytes are bounded by the rules. -/
def maxLength (rules : Rules) : PushWidth → Nat
  | .one => 255
  | .two => 65535
  | .four => rules.maxElementSize

/-- The width that an opcode announces, if it announces one. -/
def ofOpcode? (code : Opcode) : Option PushWidth :=
  if code = Opcode.pushData1 then some .one
  else if code = Opcode.pushData2 then some .two
  else if code = Opcode.pushData4 then some .four
  else none

/-- Every width is recovered from its opcode. -/
theorem ofOpcode?_opcode (width : PushWidth) : ofOpcode? width.opcode = some width := by
  cases width <;> rfl

/-- An opcode that announces a width is that width's opcode. -/
theorem opcode_of_ofOpcode? {code : Opcode} {width : PushWidth}
    (announced : ofOpcode? code = some width) : width.opcode = code := by
  unfold ofOpcode? at announced
  split at announced
  · cases announced
    exact Eq.symm ‹_›
  · split at announced
    · cases announced
      exact Eq.symm ‹_›
    · split at announced
      · cases announced
        exact Eq.symm ‹_›
      · cases announced

/-- The opcodes that announce no width are those on either side of the three. -/
theorem ofOpcode?_eq_none_iff {code : Opcode} :
    ofOpcode? code = none ↔ code.toNat < 76 ∨ 78 < code.toNat := by
  constructor
  · intro unannounced
    apply Decidable.byContradiction
    intro within
    have listed : code.toNat = 76 ∨ code.toNat = 77 ∨ code.toNat = 78 := by omega
    rcases listed with isOne | isTwo | isFour
    · rw [show code = Opcode.pushData1 from UInt8.toNat_inj.mp isOne] at unannounced
      cases unannounced
    · rw [show code = Opcode.pushData2 from UInt8.toNat_inj.mp isTwo] at unannounced
      cases unannounced
    · rw [show code = Opcode.pushData4 from UInt8.toNat_inj.mp isFour] at unannounced
      cases unannounced
  · intro outside
    cases announced : ofOpcode? code with
    | none => rfl
    | some width =>
      have same := opcode_of_ofOpcode? announced
      subst same
      cases width <;> exact absurd outside (by decide)

end PushWidth

namespace Opcode

/-- The opcodes that stand alone are those from 79 on. -/
theorem isOperation_iff {code : Opcode} : code.isOperation = true ↔ 78 < code.toNat :=
  decide_eq_true_iff

/-- The opcodes that belong to the pushes are those up to 96. -/
theorem isPush_iff {code : Opcode} : code.isPush = true ↔ code.toNat ≤ 96 :=
  decide_eq_true_iff

/-- The opcodes below the first that announces a length are those up to 75. -/
theorem lt_pushData1_iff {code : Opcode} : code < pushData1 ↔ code.toNat ≤ 75 :=
  UInt8.lt_iff_toNat_lt.trans Nat.lt_succ_iff

/-- An opcode that does not stand alone is at most the last that announces a length. -/
theorem toNat_le_of_pushes {code : Opcode} (pushes : code.isOperation = false) :
    code.toNat ≤ 78 := by
  apply Nat.le_of_not_lt
  intro high
  rw [isOperation_iff.mpr high] at pushes
  cases pushes

/-- An opcode that does not stand alone is a length itself or announces one. -/
theorem push_cases {code : Opcode} (pushes : code.isOperation = false) :
    code.toNat ≤ 75 ∨ ∃ width : PushWidth, width.opcode = code := by
  by_cases short : code.toNat ≤ 75
  · exact .inl short
  · have low : code.toNat ≤ 78 := toNat_le_of_pushes pushes
    cases announced : PushWidth.ofOpcode? code with
    | none =>
      have outside := PushWidth.ofOpcode?_eq_none_iff.mp announced
      omega
    | some width => exact .inr ⟨width, PushWidth.opcode_of_ofOpcode? announced⟩

/-- An opcode up to 75 does not stand alone. -/
theorem isOperation_of_le {code : Opcode} (short : code.toNat ≤ 75) : code.isOperation = false := by
  rw [Bool.eq_false_iff, Ne, isOperation_iff]
  omega

/-- An opcode that announces a length does not stand alone. -/
theorem isOperation_opcode (width : PushWidth) : width.opcode.isOperation = false := by
  cases width <;> rfl

/-- What follows an opcode in a script. -/
inductive Shape where
  /-- The stated number of payload bytes, the opcode being that number. -/
  | direct (length : Nat)
  /-- A length of the stated width, then as many payload bytes. -/
  | announced (width : PushWidth)
  /-- Nothing: the opcode is the whole chunk. -/
  | alone
deriving DecidableEq, Repr

/-- The layout that an opcode fixes. Every opcode has one. -/
def shape (code : Opcode) : Shape :=
  if code.toNat ≤ maxDirectLength then .direct code.toNat
  else match PushWidth.ofOpcode? code with
    | some width => .announced width
    | none => .alone

/-- The opcodes of each width have that width's layout. -/
theorem shape_opcode (width : PushWidth) : shape width.opcode = .announced width := by
  cases width <;> rfl

/-- An opcode up to 75 pushes as many bytes as it says. -/
theorem shape_of_le {code : Opcode} (short : code.toNat ≤ 75) :
    shape code = .direct code.toNat := if_pos short

/-- The opcodes that stand alone are those above the last announced length. -/
theorem shape_eq_alone_iff {code : Opcode} : shape code = .alone ↔ code.isOperation = true := by
  constructor
  · intro alone
    cases operation : code.isOperation with
    | true => rfl
    | false =>
      rcases push_cases operation with short | ⟨width, rfl⟩
      · rw [shape_of_le short] at alone
        cases alone
      · rw [shape_opcode] at alone
        cases alone
  · intro operation
    have high : 78 < code.toNat := isOperation_iff.mp operation
    have long : ¬code.toNat ≤ maxDirectLength := by
      simp only [maxDirectLength]
      omega
    rw [shape, if_neg long, PushWidth.ofOpcode?_eq_none_iff.mpr (.inr high)]

end Opcode

end CoinScript
