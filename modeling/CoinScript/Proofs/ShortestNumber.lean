import CoinScript.ScriptNumber

/-!
# Shortest numbers

Every byte string is read as a number, so a number has many forms: zeros may stand between
its magnitude and its sign, and zero itself may have a sign. Writing a number gives one of
them. It is read back as the number, and every other form is strictly longer.

A form of some length has room for one bit less than its bytes hold, the sign being one of
them. So the length of a form bounds the magnitude, and sign and magnitude together with the
length determine the bytes.
-/

namespace CoinScript.ScriptNumber

/-- A byte in front of others is the lowest digit of the magnitude and does not bear on
the sign. -/
theorem signMagnitude_cons {rest : Bytes} (byte : UInt8) (more : rest ≠ []) :
    signMagnitude (byte :: rest) =
      ((signMagnitude rest).1, byte.toNat + 256 * (signMagnitude rest).2) := by
  cases rest with
  | nil => exact absurd rfl more
  | cons next rest => rfl

/-- The sign is the top bit of the last byte, and the magnitude is the little-endian number
that is left when this bit is cleared. -/
theorem signMagnitude_concat (front : Bytes) (last : UInt8) :
    signMagnitude (front ++ [last]) =
      (decide (128 ≤ last.toNat), LittleEndian.decode (front ++ [last % 128])) := by
  induction front with
  | nil =>
    have cleared : (last % 128).toNat = last.toNat % 128 := UInt8.toNat_mod last 128
    have bound := last.toNat_lt
    simp only [List.nil_append, signMagnitude, LittleEndian.decode, cleared]
    split <;> simp <;> omega
  | cons byte front inductionHypothesis =>
    rw [List.cons_append, signMagnitude_cons byte (by simp), inductionHypothesis]
    rfl

/-- What has digits still has bytes when the sign is put in. -/
theorem attachSign_ne_nil {digits : Bytes} (negative : Bool) (nonempty : digits ≠ []) :
    attachSign negative digits ≠ [] := by
  fun_cases attachSign negative digits with
  | case1 => exact nonempty
  | case2 last short => exact List.cons_ne_nil _ _
  | case3 last long => exact List.cons_ne_nil _ _
  | case4 byte rest more => exact List.cons_ne_nil _ _

/-- The sign and the digits are read back, wherever the sign was put. -/
theorem signMagnitude_attachSign {digits : Bytes} (negative : Bool) (nonempty : digits ≠ []) :
    signMagnitude (attachSign negative digits) = (negative, LittleEndian.decode digits) := by
  fun_induction attachSign negative digits with
  | case1 => exact absurd rfl nonempty
  | case2 last short =>
    cases negative with
    | false => simp [signMagnitude, short, LittleEndian.decode]
    | true =>
      have high : (last + 128).toNat = last.toNat + 128 := by
        rw [UInt8.toNat_add]
        have top : (128 : UInt8).toNat = 128 := rfl
        omega
      simp [signMagnitude, high, LittleEndian.decode]
  | case3 last long => cases negative <;> simp [signMagnitude, LittleEndian.decode]
  | case4 byte rest more inductionHypothesis =>
    have nonempty : rest ≠ [] := fun nothing => more nothing
    rw [signMagnitude_cons byte (attachSign_ne_nil negative nonempty),
      inductionHypothesis nonempty]
    rfl

/-- Writing a number and reading it back gives the number. -/
theorem decode_encode (number : Int) : decode (encode number) = number := by
  by_cases isZero : number = 0
  · rw [isZero, encode_zero]
    rfl
  have digits : magnitude number.natAbs ≠ [] := by
    rw [magnitude, if_neg (Int.natAbs_ne_zero.mpr isZero)]
    exact List.cons_ne_nil _ _
  rw [decode, encode, signMagnitude_attachSign _ digits, decode_magnitude]
  simp only [decide_eq_true_eq]
  split <;> omega

/-- The magnitude leaves the top bit of the last byte to the sign. -/
theorem signMagnitude_le {bytes : Bytes} (nonempty : bytes ≠ []) :
    2 * ((signMagnitude bytes).2 + 1) ≤ LittleEndian.capacity bytes.length := by
  fun_induction signMagnitude bytes with
  | case1 => exact absurd rfl nonempty
  | case2 last short =>
    simp only [List.length_singleton, LittleEndian.capacity]
    omega
  | case3 last long =>
    have bound := last.toNat_lt
    simp only [List.length_singleton, LittleEndian.capacity]
    omega
  | case4 byte rest more inductionHypothesis =>
    have bound := byte.toNat_lt
    have later := inductionHypothesis fun nothing => more nothing
    simp only [List.length_cons, LittleEndian.capacity]
    omega

/-- Of every length there is at most one form with a given sign and magnitude. -/
theorem eq_of_signMagnitude {bytes others : Bytes} (sameLength : bytes.length = others.length)
    (same : signMagnitude bytes = signMagnitude others) : bytes = others := by
  rcases List.eq_nil_or_concat bytes with rfl | ⟨front, last, rfl⟩
  · exact (List.eq_nil_of_length_eq_zero sameLength.symm).symm
  rcases List.eq_nil_or_concat others with rfl | ⟨otherFront, otherLast, rfl⟩
  · simp at sameLength
  rw [List.concat_eq_append, List.concat_eq_append] at sameLength same ⊢
  rw [signMagnitude_concat, signMagnitude_concat, Prod.mk.injEq, decide_eq_decide] at same
  obtain ⟨sameSign, sameMagnitude⟩ := same
  have digits : front ++ [last % 128] = otherFront ++ [otherLast % 128] :=
    LittleEndian.eq_of_decode (by simpa using sameLength) sameMagnitude
  obtain ⟨rfl, sameLast⟩ := List.append_inj' digits rfl
  have sameRest : last.toNat % 128 = otherLast.toNat % 128 :=
    congrArg UInt8.toNat (List.cons.inj sameLast).1
  have bound := last.toNat_lt
  have otherBound := otherLast.toNat_lt
  have whole : last = otherLast := UInt8.toNat_inj.mp (by omega)
  rw [whole]

/-- Only zero is read from two signs, so any other number has one sign and magnitude. -/
theorem signMagnitude_of_decode {bytes : Bytes} {number : Int} (read : decode bytes = number)
    (nonzero : number ≠ 0) : signMagnitude bytes = (decide (number < 0), number.natAbs) := by
  unfold decode at read
  generalize signMagnitude bytes = parts at read ⊢
  obtain ⟨negative, size⟩ := parts
  cases negative with
  | false =>
    have positive : (size : Int) = number := read
    rw [decide_eq_false (by omega)]
    exact congrArg (Prod.mk false) (by omega)
  | true =>
    have mirrored : -(size : Int) = number := read
    rw [decide_eq_true (by omega)]
    exact congrArg (Prod.mk true) (by omega)

/-- A number of 64 bits is written in at most nine bytes that are read back as the number.
Every other byte string that is read as the number is strictly longer.

Proof: of zero every other form has some byte. For any other number the length of a form
bounds the magnitude, so what is written is no longer than the form. If it is as long, the
two agree in sign, magnitude and length, and are the same bytes. -/
theorem encode_shortest {number : Int} (lower : -0x8000000000000000 ≤ number)
    (upper : number ≤ 0x7fffffffffffffff) :
    decode (encode number) = number ∧ (encode number).length ≤ 9 ∧
      ∀ bytes, decode bytes = number → bytes ≠ encode number →
        (encode number).length < bytes.length := by
  refine ⟨decode_encode number, length_encode_le_nine lower upper, ?_⟩
  intro bytes read other
  by_cases isZero : number = 0
  · rw [isZero, encode_zero] at other ⊢
    exact List.length_pos_iff.mpr other
  have sameReading : signMagnitude bytes = signMagnitude (encode number) := by
    rw [signMagnitude_of_decode read isZero,
      signMagnitude_of_decode (decode_encode number) isZero]
  have nonempty : bytes ≠ [] := by
    rintro rfl
    exact isZero read.symm
  have room := signMagnitude_le nonempty
  rw [signMagnitude_of_decode read isZero] at room
  have noLonger : (encode number).length ≤ bytes.length := length_encode_le (by omega)
  refine Nat.lt_of_le_of_ne noLonger fun sameLength => other ?_
  exact eq_of_signMagnitude sameLength.symm sameReading

/-- The least number of 64 bits takes nine bytes, for its magnitude uses the top bit of the
eighth. With a zero between the magnitude and the sign it takes ten. -/
theorem encode_shortest_least :
    let least : Int := -0x8000000000000000
    let longer : Bytes := [0x00, 0x00, 0x00, 0x00, 0x00, 0x00, 0x00, 0x80, 0x00, 0x80]
    (-0x8000000000000000 ≤ least ∧ least ≤ 0x7fffffffffffffff) ∧
      encode least = [0x00, 0x00, 0x00, 0x00, 0x00, 0x00, 0x00, 0x80, 0x80] ∧
      decode (encode least) = least ∧ (encode least).length ≤ 9 ∧
      decode longer = least ∧ longer ≠ encode least ∧
      (encode least).length < longer.length := by
  intro least longer
  have lower : -0x8000000000000000 ≤ least := by decide
  have upper : least ≤ 0x7fffffffffffffff := by decide
  have written : encode least = [0x00, 0x00, 0x00, 0x00, 0x00, 0x00, 0x00, 0x80, 0x80] := by
    decide +kernel
  have read : decode longer = least := by decide
  have other : longer ≠ encode least := by
    rw [written]
    decide
  obtain ⟨same, counted, shortest⟩ := encode_shortest lower upper
  exact ⟨⟨lower, upper⟩, written, same, counted, read, other, shortest longer read other⟩

end CoinScript.ScriptNumber
