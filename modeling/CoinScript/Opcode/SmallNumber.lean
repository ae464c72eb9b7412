import CoinScript.Opcode.Basic

/-!
# Small numbers

The numbers from -1 to 16 have opcodes of their own and are pushed without a
payload. Each is tied to one opcode and to one byte string, the one that script
arithmetic reads as the number.
-/

namespace CoinScript

/-- A number that an opcode alone can push. -/
structure SmallNumber where
  /-- The number pushed. -/
  value : Int
  /-- No number below -1 has an opcode. -/
  lower : -1 ≤ value
  /-- No number above 16 has an opcode. -/
  upper : value ≤ 16
deriving DecidableEq, Repr

namespace SmallNumber

/-- The number zero, pushed as the empty byte string. -/
def zero : SmallNumber := ⟨0, by decide, by decide⟩

/-- The only negative number with an opcode. -/
def minusOne : SmallNumber := ⟨-1, by decide, by decide⟩

/-- A number as a small number, when it is one. -/
def ofInt? (number : Int) : Option SmallNumber :=
  if inside : -1 ≤ number ∧ number ≤ 16 then some ⟨number, inside.1, inside.2⟩ else none

/-- The opcode that pushes the number. Zero has the lowest opcode of all; the
others follow the reserved opcode 80 in order, -1 standing right before it. -/
def opcode (number : SmallNumber) : Opcode :=
  if number.value = 0 then Opcode.pushEmpty else UInt8.ofNat (number.value + 80).toNat

/-- The number that an opcode pushes, if it pushes one. -/
def ofOpcode? (code : Opcode) : Option SmallNumber :=
  if code = Opcode.pushEmpty then some zero
  else if code = Opcode.reserved then none
  else ofInt? ((code.toNat : Int) - 80)

/-- The small number that script arithmetic reads from a byte string, when the
string is its shortest form. -/
def ofBytes? : Bytes → Option SmallNumber
  | [] => some zero
  | [byte] =>
    if byte = 0x81 then some minusOne
    else if byte = 0 then none
    else ofInt? byte.toNat
  | _ => none

/-- A small number is found again from its value. -/
theorem ofInt?_value (number : SmallNumber) : ofInt? number.value = some number := by
  rw [ofInt?, dif_pos ⟨number.lower, number.upper⟩]

/-- The value found is the number asked for. -/
theorem value_of_ofInt? {number : Int} {small : SmallNumber}
    (found : ofInt? number = some small) : small.value = number := by
  unfold ofInt? at found
  split at found
  · cases found
    rfl
  · cases found

/-- Every small number is recovered from its opcode. -/
theorem ofOpcode?_opcode (number : SmallNumber) : ofOpcode? number.opcode = some number := by
  obtain ⟨value, lower, upper⟩ := number
  by_cases isZero : value = 0
  · subst isZero
    rfl
  · have coded : (UInt8.ofNat (value + 80).toNat).toNat = (value + 80).toNat := by
      rw [UInt8.toNat_ofNat']
      omega
    have notEmpty : UInt8.ofNat (value + 80).toNat ≠ Opcode.pushEmpty := by
      intro same
      have wrong := congrArg UInt8.toNat same
      rw [coded] at wrong
      have none : Opcode.pushEmpty.toNat = 0 := rfl
      omega
    have notReserved : UInt8.ofNat (value + 80).toNat ≠ Opcode.reserved := by
      intro same
      have wrong := congrArg UInt8.toNat same
      rw [coded] at wrong
      have eighty : Opcode.reserved.toNat = 80 := rfl
      omega
    have back : (((value + 80).toNat : Nat) : Int) - 80 = value := by omega
    rw [opcode, if_neg isZero, ofOpcode?, if_neg notEmpty, if_neg notReserved, coded, back]
    exact ofInt?_value ⟨value, lower, upper⟩

/-- An opcode that pushes a small number is that number's opcode. -/
theorem opcode_of_ofOpcode? {code : Opcode} {number : SmallNumber}
    (found : ofOpcode? code = some number) : number.opcode = code := by
  unfold ofOpcode? at found
  split at found
  · cases found
    exact Eq.symm ‹_›
  · rename_i notEmpty
    split at found
    · cases found
    · rename_i notReserved
      have valued := value_of_ofInt? found
      have nonzero : number.value ≠ 0 := by
        intro isZero
        apply notReserved
        apply UInt8.toNat_inj.mp
        have eighty : Opcode.reserved.toNat = 80 := rfl
        omega
      have bound : code.toNat < 256 := code.toNat_lt
      rw [opcode, if_neg nonzero, valued]
      apply UInt8.toNat_inj.mp
      rw [UInt8.toNat_ofNat']
      omega

end SmallNumber

end CoinScript
