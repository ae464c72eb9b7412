import CoinScript.Bytes.Basic

/-!
# Little-endian numbers

A number in a fixed width is its base-256 digits, the least significant first.
Writing drops what the width cannot hold, so the width is a bound that a caller
has to check; reading is defined for every byte string. The two are inverse
exactly on the numbers that fit.
-/

namespace CoinScript.LittleEndian

/-- The `width` lowest base-256 digits of a number, least significant first. -/
def encode : Nat → Nat → Bytes
  | 0, _ => []
  | width + 1, number => UInt8.ofNat number :: encode width (number / 256)

/-- The number whose base-256 digits are given, least significant first. -/
def decode : Bytes → Nat
  | [] => 0
  | byte :: rest => byte.toNat + 256 * decode rest

/-- How many numbers a width can tell apart: 256 for every byte. -/
def capacity : Nat → Nat
  | 0 => 1
  | width + 1 => 256 * capacity width

/-- A number occupies exactly its width. -/
theorem length_encode (width number : Nat) : (encode width number).length = width := by
  induction width generalizing number with
  | zero => rfl
  | succ width inductionHypothesis => simp only [encode, List.length_cons, inductionHypothesis]

/-- Zeros behind the digits add nothing. -/
theorem decode_append_zeros (digits : Bytes) (count : Nat) :
    decode (digits ++ List.replicate count 0) = decode digits := by
  induction digits with
  | nil =>
    induction count with
    | zero => rfl
    | succ count inductionHypothesis =>
      have others : decode (List.replicate count 0) = 0 := inductionHypothesis
      rw [List.nil_append, List.replicate_succ]
      simp only [decode, others, UInt8.toNat_zero, Nat.mul_zero]
  | cons digit digits inductionHypothesis =>
    rw [List.cons_append, decode, decode, inductionHypothesis]

/-- Reading back gives the number up to what the width can hold. -/
theorem decode_encode (width number : Nat) :
    decode (encode width number) = number % capacity width := by
  induction width generalizing number with
  | zero => simp only [encode, decode, capacity, Nat.mod_one]
  | succ width inductionHypothesis =>
    have digit : (UInt8.ofNat number).toNat = number % 256 := UInt8.toNat_ofNat'
    rw [encode, decode, capacity, inductionHypothesis, digit, Nat.mod_mul]

/-- A number below the width's bound is read back exactly. -/
theorem decode_encode_of_lt {width number : Nat} (fits : number < capacity width) :
    decode (encode width number) = number := by
  rw [decode_encode, Nat.mod_eq_of_lt fits]

/-- What is read from a byte string fits the string's own width. -/
theorem decode_lt (bytes : Bytes) : decode bytes < capacity bytes.length := by
  induction bytes with
  | nil => decide
  | cons byte rest inductionHypothesis =>
    have low : byte.toNat < 256 := byte.toNat_lt
    simp only [decode, List.length_cons, capacity]
    omega

/-- A number is read back exactly when its width can state it. -/
theorem decode_encode_eq_iff {width number : Nat} :
    decode (encode width number) = number ↔ number < capacity width := by
  constructor
  · intro same
    have bounded := decode_lt (encode width number)
    rw [same, length_encode] at bounded
    exact bounded
  · intro fits
    exact decode_encode_of_lt fits

/-- Writing what was read gives the same bytes: no width has two forms of a number. -/
theorem encode_decode (bytes : Bytes) : encode bytes.length (decode bytes) = bytes := by
  induction bytes with
  | nil => rfl
  | cons byte rest inductionHypothesis =>
    have low : byte.toNat < 256 := byte.toNat_lt
    have high : (byte.toNat + 256 * decode rest) / 256 = decode rest := by omega
    have digit : UInt8.ofNat (byte.toNat + 256 * decode rest) = byte := by
      apply UInt8.toNat_inj.mp
      simp only [UInt8.toNat_ofNat']
      omega
    simp only [List.length_cons, decode, encode, high, digit, inductionHypothesis]

/-- Byte strings of one length that are read as the same number are the same. -/
theorem eq_of_decode {bytes others : Bytes} (sameLength : bytes.length = others.length)
    (same : decode bytes = decode others) : bytes = others := by
  rw [← encode_decode bytes, sameLength, same, encode_decode]

end CoinScript.LittleEndian
