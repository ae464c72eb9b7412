import CoinScript.Bytes.Basic

/-!
# Hexadecimal text

A byte is written as two lowercase digits, the high half first. A byte string is
written byte after byte without separators, so distinct strings have distinct
texts. A byte in a message takes the same room whichever it is, so it is known
from any text that begins with it.
-/

namespace CoinScript.Hex

/-- The two digits of a byte, high half first. -/
def digits (byte : UInt8) : List Char :=
  [Nat.digitChar (byte.toNat / 16), Nat.digitChar (byte.toNat % 16)]

/-- The digits of a byte string, two for each byte. -/
def text (bytes : Bytes) : String :=
  String.ofList (bytes.flatMap digits)

/-- A single byte as it stands in a message, marked as hexadecimal. -/
def literal (byte : UInt8) : String :=
  String.ofList ('0' :: 'x' :: digits byte)

/-- The sixteen digits differ from one another, so a byte is known from its two. -/
theorem digits_inj {byte other : UInt8} : digits byte = digits other ↔ byte = other := by
  have distinct : ∀ digit < 16, ∀ another < 16,
      Nat.digitChar digit = Nat.digitChar another → digit = another := by decide
  constructor
  · intro same
    have small := byte.toNat_lt
    have otherSmall := other.toNat_lt
    simp only [digits, List.cons.injEq, and_true] at same
    have high := distinct (byte.toNat / 16) (by omega) (other.toNat / 16) (by omega) same.1
    have low := distinct (byte.toNat % 16) (by omega) (other.toNat % 16) (by omega) same.2
    apply UInt8.toNat_inj.mp
    omega
  · intro same
    rw [same]

/-- Distinct byte strings have distinct texts. -/
theorem text_inj {bytes others : Bytes} : text bytes = text others ↔ bytes = others := by
  constructor
  · intro same
    have sameDigits : bytes.flatMap digits = others.flatMap digits := by
      simpa only [text, String.toList_ofList] using congrArg String.toList same
    clear same
    induction bytes generalizing others with
    | nil =>
      cases others with
      | nil => rfl
      | cons other rest => simp [digits] at sameDigits
    | cons byte rest inductionHypothesis =>
      cases others with
      | nil => simp [digits] at sameDigits
      | cons other others =>
        obtain ⟨first, later⟩ := List.append_inj sameDigits rfl
        rw [digits_inj.mp first, inductionHypothesis later]
  · intro same
    rw [same]

/-- A byte that begins a text is known from it, and so is the rest of the text. -/
theorem literal_append_inj {byte other : UInt8} {rest others : String}
    (same : literal byte ++ rest = literal other ++ others) : byte = other ∧ rest = others := by
  have sameText := congrArg String.toList same
  simp only [String.toList_append, literal, String.toList_ofList] at sameText
  obtain ⟨sameLiteral, sameRest⟩ := List.append_inj sameText rfl
  have sameDigits : digits byte = digits other := by simpa using sameLiteral
  exact ⟨digits_inj.mp sameDigits, String.toList_inj.mp sameRest⟩

/-- Every character of a text is a decimal digit or a letter. -/
theorem isAlphanum_of_mem_text {bytes : Bytes} {char : Char} (member : char ∈ (text bytes).toList) :
    char.isAlphanum = true := by
  have shown : ∀ digit < 16, (Nat.digitChar digit).isAlphanum = true := by decide
  rw [text, String.toList_ofList] at member
  obtain ⟨byte, _, within⟩ := List.mem_flatMap.mp member
  have small := byte.toNat_lt
  simp only [digits, List.mem_cons, List.not_mem_nil, or_false] at within
  rcases within with high | low
  · rw [high]
    exact shown (byte.toNat / 16) (by omega)
  · rw [low]
    exact shown (byte.toNat % 16) (by omega)

end CoinScript.Hex
