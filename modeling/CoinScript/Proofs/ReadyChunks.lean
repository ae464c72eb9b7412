import CoinScript.Proofs.MinimalPush

/-!
# Ready-made chunks

Three kinds of chunk are made ready: the shortest push of some data, the push of a small
number, and an opcode by itself. Opcode and payload of each agree, and small numbers and
opcodes are written as one byte.

The shortest push of any data pushes the data and is minimal. Whether it can be written is
a matter of length alone. Data whose length two bytes can state is pushed in a form that the
rules do not limit. Longer data takes the form whose length they do limit, far below where
this form begins to be the shortest. So under the standard rules no longer data is written,
and it is refused for its length when it is written, not when the push is made.
-/

namespace CoinScript.Chunk

variable {chunk : Chunk} {data : Bytes}

/-- A chunk that can be written under the standard rules is encoded as it is laid out, with
nothing reported. -/
theorem Sound.encode_eq (sound : chunk.Sound .standard) : chunk.encode = ⟨.ok chunk.laidOut, []⟩ := by
  have measured := length_of_encoding sound.encoding_eq
  simp [encode, measured, appendTo_of_encoding sound.encoding_eq, Except.map]

/-- No push of the data has fewer bytes than the shortest push, so it is not overlong. That is
no question of rules, so rules are taken that admit the data. -/
theorem not_overlong_push (data : Bytes) : ¬(push data).Overlong := by
  have sound : (push data).Sound ⟨0, data.length, false⟩ := sound_push fun _ => Nat.le_refl _
  obtain ⟨effect, known, _, determined, _⟩ := sound.shortest_le
  obtain rfl : effect = .push data := Except.ok.inj (known.symm.trans (effect_push data))
  exact determined (congrArg List.length (laidOut_push data))

/-- The shortest push is minimal when it is asked. -/
theorem isMinimal_of_push (data : Bytes) : (push data).isMinimal = .ok true := by
  have sound : (push data).Sound ⟨0, data.length, false⟩ := sound_push fun _ => Nat.le_refl _
  exact (sound.isMinimal_iff (effect_push data)).mpr (not_overlong_push data)

/-- What has an effect stands for an element with that effect. -/
theorem exists_element_of_effect {effect : Effect} (known : chunk.effect = .ok effect) :
    ∃ element, chunk.element = .ok element ∧ element.effect = effect := by
  unfold Chunk.effect at known
  cases agreed : chunk.element with
  | error reason =>
    rw [agreed] at known
    cases known
  | ok element =>
    rw [agreed] at known
    exact ⟨element, rfl, Except.ok.inj known⟩

/-- Data whose length two bytes cannot state is pushed behind a length of four bytes. -/
theorem push_of_long (long : 65535 < data.length) :
    push data = ⟨Opcode.pushData4, some data, none⟩ := by
  have unnumbered : SmallNumber.ofBytes? data = none := by
    cases numbered : SmallNumber.ofBytes? data with
    | none => rfl
    | some number =>
      rcases SmallNumber.ofBytes?_eq_some numbered with ⟨rfl, _⟩ | ⟨single, _⟩
      · cases long
      · omega
  have code : minimalPushOpcode data = Opcode.pushData4 := by
    rw [Opcode.minimalPushOpcode_of_none unnumbered, if_neg (by omega), if_neg (by omega),
      if_neg (by omega)]
    rfl
  simp only [push, unnumbered, code, ofParts]

/-- Data whose length two bytes cannot state is refused under the standard rules. Its push has
an announced length, so the refusal is reported. -/
theorem encode_push_of_long (long : 65535 < data.length) :
    (push data).encode =
      ⟨.error (.pushTooLong Opcode.pushData4 data.length 520),
        [.chunkRefused Opcode.pushData4 (.pushTooLong Opcode.pushData4 data.length 520)]⟩ := by
  have beyond : PushWidth.four.maxLength .standard < data.length :=
    Nat.lt_trans (show 520 < 65535 by decide) long
  have defect : Defect .standard ⟨Opcode.pushData4, some data, none⟩
      (.pushTooLong Opcode.pushData4 data.length 520) := .overlarge beyond
  have measured : encodedLength ⟨Opcode.pushData4, some data, none⟩ = .ok (1 + 4 + data.length) :=
    rfl
  rw [push_of_long long]
  simp [encode, measured, appendTo_of_refused defect.encoding_eq, Except.map]

/-- Under the standard rules the shortest push can be written exactly when two bytes can state
the length of the data. -/
theorem sound_push_iff : (push data).Sound .standard ↔ data.length ≤ 65535 := by
  constructor
  · intro sound
    apply Nat.le_of_not_lt
    intro long
    have admitted : data.length ≤ 520 := sound.admits (effect_push data) long
    omega
  · intro statable
    exact sound_push fun long => absurd statable (Nat.not_le_of_lt long)

/-- An opcode is taken by itself only if it can be written by itself. -/
theorem single_inv {code : Opcode} (made : single code = .ok chunk) :
    chunk = ofParts code none ∧ ∀ rules, chunk.Sound rules := by
  unfold single at made
  cases agreed : (ofParts code none).element with
  | error reason =>
    rw [agreed] at made
    cases made
  | ok element =>
    rw [agreed] at made
    cases made
    refine ⟨rfl, fun rules => ?_⟩
    rcases sound_or_defect rules (ofParts code none) with sound | ⟨reason, defect⟩
    · exact sound
    · cases defect with
      | starved notEmpty pushes =>
        rw [ofParts, (Classified.starved notEmpty pushes).element_eq] at agreed
        cases agreed

/-- Chunks that are made ready stand for what they were made for, and can be written unless
they push too much.

The shortest push of any data stands for an element that pushes the data, and is minimal. It
can be written under the standard rules exactly when two bytes can state the length of the
data. Then it is encoded as it is laid out, with nothing reported. Otherwise it is refused for
its length, and the refusal is reported. An opcode that is accepted by itself is encoded as one
byte, and so is the push of a small number.

Proof: what can be written is encoded as it is laid out. Only the push behind four bytes of
length depends on the rules, and it is the shortest one for data that they do not admit. -/
theorem ready_chunks_sound :
    (∀ data : Bytes,
      (∃ element, (push data).element = .ok element ∧ element.effect = .push data) ∧
      (push data).isMinimal = .ok true ∧
      ((push data).Sound .standard ↔ data.length ≤ 65535) ∧
      (data.length ≤ 65535 → (push data).encode = ⟨.ok (push data).laidOut, []⟩) ∧
      (65535 < data.length → (push data).encode =
        ⟨.error (.pushTooLong Opcode.pushData4 data.length 520),
          [.chunkRefused Opcode.pushData4 (.pushTooLong Opcode.pushData4 data.length 520)]⟩)) ∧
    (∀ code chunk, single code = .ok chunk → chunk.encode = ⟨.ok [code], []⟩) ∧
    (∀ number small, SmallNumber.ofInt? number = some small →
      (pushSmall small).encode = ⟨.ok [small.opcode], []⟩) := by
  refine ⟨?_, ?_, ?_⟩
  · intro data
    refine ⟨exists_element_of_effect (effect_push data), isMinimal_of_push data, sound_push_iff, ?_,
      encode_push_of_long⟩
    intro statable
    exact (sound_push_iff.mpr statable).encode_eq
  · intro code chunk made
    obtain ⟨rfl, sound⟩ := single_inv made
    exact (sound .standard).encode_eq
  · intro number small _
    rw [(sound_pushSmall .standard small).encode_eq, laidOut_pushSmall]

/-- Two bytes, and as many bytes as two bytes can state, are pushed and encoded; one byte more
is refused. An operation and the number sixteen are encoded as their opcodes. -/
theorem ready_chunks_sound_lengths :
    let two : Bytes := [0xaa, 0xbb]
    let most : Bytes := List.replicate 65535 0xaa
    let more : Bytes := List.replicate 65536 0xaa
    let sixteen : SmallNumber := ⟨16, by decide, by decide⟩
    (two.length ≤ 65535 ∧ (push two).encode = ⟨.ok [0x02, 0xaa, 0xbb], []⟩) ∧
    (most.length ≤ 65535 ∧ (push most).encode = ⟨.ok (push most).laidOut, []⟩) ∧
    (65535 < more.length ∧ (push more).isMinimal = .ok true ∧ (push more).encode =
      ⟨.error (.pushTooLong 0x4e 65536 520), [.chunkRefused 0x4e (.pushTooLong 0x4e 65536 520)]⟩) ∧
    (single 0x76 = .ok ⟨0x76, none, none⟩ ∧ encode ⟨0x76, none, none⟩ = ⟨.ok [0x76], []⟩) ∧
    (SmallNumber.ofInt? 16 = some sixteen ∧ (pushSmall sixteen).encode = ⟨.ok [0x60], []⟩) := by
  intro two most more sixteen
  obtain ⟨pushed, operation, number⟩ := ready_chunks_sound
  obtain ⟨_, _, _, twoEncoded, _⟩ := pushed two
  obtain ⟨_, _, _, mostEncoded, _⟩ := pushed most
  obtain ⟨_, moreMinimal, _, _, moreRefused⟩ := pushed more
  have mostCounted : most.length = 65535 := List.length_replicate
  have moreCounted : more.length = 65536 := List.length_replicate
  have statable : most.length ≤ 65535 := Nat.le_of_eq mostCounted
  have long : 65535 < more.length := Nat.lt_of_lt_of_eq (by decide) moreCounted.symm
  have refused := moreRefused long
  rw [moreCounted] at refused
  exact ⟨⟨by decide, twoEncoded (by decide)⟩, ⟨statable, mostEncoded statable⟩,
    ⟨long, moreMinimal, refused⟩, ⟨rfl, operation _ _ rfl⟩, rfl, number 16 sixteen rfl⟩

/-- Not every push that is made ready is encoded: the push of 65536 bytes stands for an element
and is minimal, and has no encoding under the standard rules. -/
theorem ready_push_not_encoded :
    let data : Bytes := List.replicate 65536 0xaa
    (push data).effect = .ok (.push data) ∧ (push data).isMinimal = .ok true ∧
      ¬∃ bytes, (push data).encode.value = .ok bytes := by
  intro data
  have counted : data.length = 65536 := List.length_replicate
  have long : 65535 < data.length := Nat.lt_of_lt_of_eq (by decide) counted.symm
  refine ⟨effect_push data, isMinimal_of_push data, ?_⟩
  rintro ⟨bytes, encoded⟩
  rw [encode_push_of_long long] at encoded
  cases encoded

end CoinScript.Chunk
