import CoinScript.Bytes.LittleEndian

/-!
# Script numbers

Script arithmetic reads a byte string as a number in sign and magnitude. The
magnitude is little-endian and the top bit of the last byte is the sign. The
empty string is zero.

Writing uses the fewest bytes: the base-256 digits of the magnitude, with one
more byte exactly when the last digit already uses its top bit. Reading accepts
every byte string, so it also gives a meaning to the longer forms.
-/

namespace CoinScript.ScriptNumber

/-- The base-256 digits of a magnitude, least significant first and none for
zero, so the last digit is never zero. -/
def magnitude (number : Nat) : Bytes :=
  if number = 0 then [] else UInt8.ofNat number :: magnitude (number / 256)
termination_by number
decreasing_by omega

/-- Put the sign into the top bit of the last digit, or into a byte of its own
when the digit uses that bit. Zero has no digits and no sign. -/
def attachSign (negative : Bool) : Bytes → Bytes
  | [] => []
  | [last] =>
    if last.toNat < 128 then [if negative then last + 128 else last]
    else [last, if negative then 128 else 0]
  | byte :: rest => byte :: attachSign negative rest

/-- The shortest byte string that script arithmetic reads as the number. -/
def encode (number : Int) : Bytes :=
  attachSign (decide (number < 0)) (magnitude number.natAbs)

/-- The sign and magnitude of a byte string: the top bit of the last byte is
taken away from the little-endian number and stands for the sign. -/
def signMagnitude : Bytes → Bool × Nat
  | [] => (false, 0)
  | [last] => if last.toNat < 128 then (false, last.toNat) else (true, last.toNat - 128)
  | byte :: rest => ((signMagnitude rest).1, byte.toNat + 256 * (signMagnitude rest).2)

/-- The number that script arithmetic reads. -/
def decode (bytes : Bytes) : Int :=
  if (signMagnitude bytes).1 then -((signMagnitude bytes).2 : Int) else (signMagnitude bytes).2

/-- Zero is the empty byte string. -/
theorem encode_zero : encode 0 = [] := by
  simp [encode, magnitude, attachSign]

/-- A magnitude that fits a width has no more digits than the width has bytes. -/
theorem length_magnitude_le {width number : Nat} (fits : number < LittleEndian.capacity width) :
    (magnitude number).length ≤ width := by
  induction width generalizing number with
  | zero =>
    have nothing : number = 0 := Nat.lt_one_iff.mp fits
    rw [magnitude, if_pos nothing]
    exact Nat.le_refl 0
  | succ width inductionHypothesis =>
    rw [magnitude]
    split
    · exact Nat.zero_le _
    · exact Nat.succ_le_succ (inductionHypothesis (Nat.div_lt_of_lt_mul fits))

/-- The digits of a magnitude are read as the magnitude. -/
theorem decode_magnitude (number : Nat) : LittleEndian.decode (magnitude number) = number := by
  fun_induction magnitude number with
  | case1 => rfl
  | case2 number positive inductionHypothesis =>
    have digit : (UInt8.ofNat number).toNat = number % 256 := UInt8.toNat_ofNat'
    rw [LittleEndian.decode, digit, inductionHypothesis]
    omega

/-- The sign takes at most one byte of its own. -/
theorem length_attachSign_le (negative : Bool) (digits : Bytes) :
    (attachSign negative digits).length ≤ digits.length + 1 := by
  fun_induction attachSign negative digits with
  | case1 => exact Nat.zero_le _
  | case2 last short => exact Nat.le_succ 1
  | case3 last long => exact Nat.le_refl 2
  | case4 byte rest more inductionHypothesis => exact Nat.succ_le_succ inductionHypothesis

/-- The sign takes no byte of its own where the digits leave the top bit free. -/
theorem length_attachSign_of_lt {digits : Bytes} (negative : Bool)
    (free : 2 * LittleEndian.decode digits < LittleEndian.capacity digits.length) :
    (attachSign negative digits).length = digits.length := by
  fun_induction attachSign negative digits with
  | case1 => rfl
  | case2 last short => rfl
  | case3 last long =>
    simp only [LittleEndian.decode, List.length_singleton, LittleEndian.capacity] at free
    omega
  | case4 byte rest more inductionHypothesis =>
    simp only [LittleEndian.decode, List.length_cons, LittleEndian.capacity] at free
    exact congrArg Nat.succ (inductionHypothesis (by omega))

/-- A number whose magnitude fits a width and leaves the top bit free is written in at
most that width. -/
theorem length_encode_le {width : Nat} {number : Int}
    (fits : 2 * number.natAbs < LittleEndian.capacity width) : (encode number).length ≤ width := by
  have counted : (magnitude number.natAbs).length ≤ width := length_magnitude_le (by omega)
  rcases Nat.lt_or_eq_of_le counted with fewer | asMany
  · exact Nat.le_trans (length_attachSign_le _ _) fewer
  · have free : 2 * LittleEndian.decode (magnitude number.natAbs) <
        LittleEndian.capacity (magnitude number.natAbs).length := by
      rw [decode_magnitude, asMany]
      exact fits
    exact Nat.le_of_eq ((length_attachSign_of_lt _ free).trans asMany)

/-- A number of 64 bits is written in at most nine bytes. -/
theorem length_encode_le_nine {number : Int} (lower : -0x8000000000000000 ≤ number)
    (upper : number ≤ 0x7fffffffffffffff) : (encode number).length ≤ 9 := by
  have nine : LittleEndian.capacity 9 = 0x1000000000000000000 := by decide
  exact length_encode_le (by omega)

end CoinScript.ScriptNumber
