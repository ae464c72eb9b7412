/-!
# Byte strings

Scripts, payloads and lock conditions are finite byte strings. A list is the
working form: reading consumes from the front, writing joins at the back, and
every law is an induction on the bytes themselves.

An exact split takes a stated number of bytes or nothing at all. Its success
determines both parts, and its refusal is exactly a shortage of bytes.
-/

namespace CoinScript

/-- A finite byte string, first byte first. -/
abbrev Bytes := List UInt8

namespace Bytes

/-- The first `count` bytes and those after them, or nothing when fewer are
there. Only the taken part is measured, so a short take from a long string
costs nothing on the rest. -/
def splitExact? (count : Nat) (bytes : Bytes) : Option (Bytes × Bytes) :=
  let parts := bytes.splitAt count
  if parts.1.length = count then some parts else none

/-- An exact split of a string that holds enough bytes is its take and drop. -/
theorem splitExact?_of_le {count : Nat} {bytes : Bytes} (enough : count ≤ bytes.length) :
    splitExact? count bytes = some (bytes.take count, bytes.drop count) := by
  simp only [splitExact?, List.splitAt_eq, List.length_take]
  rw [if_pos (by omega)]

/-- Refusal is exactly a shortage of bytes. -/
theorem splitExact?_eq_none_iff {count : Nat} {bytes : Bytes} :
    splitExact? count bytes = none ↔ bytes.length < count := by
  simp only [splitExact?, List.splitAt_eq, List.length_take]
  constructor
  · intro refused
    split at refused
    · cases refused
    · omega
  · intro short
    rw [if_neg (by omega)]

/-- Success determines both parts: they join to the input and the first has the
requested length. -/
theorem splitExact?_eq_some_iff {count : Nat} {bytes front rest : Bytes} :
    splitExact? count bytes = some (front, rest) ↔
      bytes = front ++ rest ∧ front.length = count := by
  constructor
  · intro taken
    have enough : count ≤ bytes.length := by
      apply Nat.le_of_not_lt
      intro short
      rw [splitExact?_eq_none_iff.mpr short] at taken
      cases taken
    rw [splitExact?_of_le enough] at taken
    injection taken with parts
    injection parts with frontIs restIs
    subst frontIs restIs
    exact ⟨(List.take_append_drop count bytes).symm, by simp only [List.length_take]; omega⟩
  · intro ⟨joined, counted⟩
    subst joined counted
    rw [splitExact?_of_le (by simp only [List.length_append]; omega)]
    simp only [List.take_left, List.drop_left]

end Bytes

end CoinScript
