import CoinScript.Proofs.Layout
import CoinScript.Proofs.Wording

/-!
# Writing single chunks

A chunk can be written when its opcode and payload agree and its data is within the limit
of its push. What is written then is laid out by the opcode and the payload alone. The
buffer does not bear on it, and of the rules only whether they admit the data.

Any other chunk has a defect, which says why it is refused. A refused chunk leaves the
buffer as it was, and the refusal is the one thing reported; the opcode and the error are known
from the text of the report. No chunk is refused for the lack of an encoding: every opcode has
one.

What is written is a frame of the form in which reading gives the chunk, as long as its
length can be stated.
-/

namespace CoinScript.Chunk

/-- The chunk can be written under the rules. By itself stands an opcode above the last
that announces a length, and that of the empty push. Data stands behind the opcode that is
its length, or behind an opcode that announces the length and admits it. -/
def Sound (rules : Rules) (chunk : Chunk) : Prop :=
  match chunk.payload with
  | none => 0x4e < chunk.code.toNat ∨ chunk.code = 0x00
  | some data =>
    (chunk.code.toNat < 0x4c ∧ data.length = chunk.code.toNat) ∨
      (chunk.code = 0x4c ∧ data.length ≤ 255) ∨
      (chunk.code = 0x4d ∧ data.length ≤ 65535) ∨
      (chunk.code = 0x4e ∧ data.length ≤ rules.maxElementSize)

/-- Whether a chunk can be written is decided by comparing lengths. -/
instance (rules : Rules) : (chunk : Chunk) → Decidable (chunk.Sound rules)
  | ⟨_, none, _⟩ => inferInstanceAs (Decidable (_ ∨ _))
  | ⟨_, some _, _⟩ => inferInstanceAs (Decidable (_ ∨ _ ∨ _ ∨ _))

/-- The bytes of the chunk: its opcode, the length where the opcode announces one, and the
data. -/
def laidOut (chunk : Chunk) : Bytes :=
  match chunk.payload with
  | none => [chunk.code]
  | some data =>
    chunk.code :: (LittleEndian.encode chunk.code.lengthSize data.length ++ data)

/-- Why a chunk cannot be written: its opcode stands alone and has data, or calls for data
and has none, or is another length than that of the data, or admits less data. -/
inductive Defect (rules : Rules) : Chunk → ScriptError → Prop where
  | surplus {code : Opcode} {data : Bytes} {position : Option Nat}
      (alone : code.isOperation = true) :
      Defect rules ⟨code, some data, position⟩ (.payloadOnOperation code)
  | starved {code : Opcode} {position : Option Nat} (notEmpty : code ≠ Opcode.pushEmpty)
      (pushes : code.isOperation = false) :
      Defect rules ⟨code, none, position⟩ (.missingPayload code)
  | mismatched {code : Opcode} {data : Bytes} {position : Option Nat} (short : code.toNat ≤ 75)
      (different : data.length ≠ code.toNat) :
      Defect rules ⟨code, some data, position⟩ (.lengthMismatch code data.length)
  | overlarge {width : PushWidth} {data : Bytes} {position : Option Nat}
      (beyond : width.maxLength rules < data.length) :
      Defect rules ⟨width.opcode, some data, position⟩
        (.pushTooLong width.opcode data.length (width.maxLength rules))

variable {rules : Rules} {code : Opcode} {data : Bytes} {position : Option Nat}

/-- Data can be written behind an opcode that calls for data, is the length if it is a
length, and admits as much. -/
theorem sound_some_iff : Sound rules ⟨code, some data, position⟩ ↔
    code.isOperation = false ∧ (code.toNat ≤ 75 → data.length = code.toNat) ∧
      data.length ≤ code.maxLength rules := by
  constructor
  · rintro (⟨short, counted⟩ | ⟨rfl, within⟩ | ⟨rfl, within⟩ | ⟨rfl, within⟩)
    · have short : code.toNat ≤ 75 := Nat.le_of_lt_succ short
      have limit : code.maxLength rules = code.toNat := Opcode.maxLength_of_le short rules
      exact ⟨Opcode.isOperation_of_le short, fun _ => counted,
        Nat.le_of_eq (counted.trans limit.symm)⟩
    · exact ⟨rfl, fun impossible => absurd impossible (by decide), within⟩
    · exact ⟨rfl, fun impossible => absurd impossible (by decide), within⟩
    · exact ⟨rfl, fun impossible => absurd impossible (by decide), within⟩
  · rintro ⟨pushes, direct, limited⟩
    rcases Opcode.push_cases pushes with short | ⟨width, rfl⟩
    · exact .inl ⟨Nat.lt_succ_of_le short, direct short⟩
    · rw [Opcode.maxLength_opcode] at limited
      cases width with
      | one => exact .inr (.inl ⟨rfl, limited⟩)
      | two => exact .inr (.inr (.inl ⟨rfl, limited⟩))
      | four => exact .inr (.inr (.inr ⟨rfl, limited⟩))

/-- A chunk that can be written is written as it is laid out. -/
theorem Sound.encoding_eq {chunk : Chunk} (sound : chunk.Sound rules) :
    chunk.encoding rules = .ok chunk.laidOut := by
  obtain ⟨code, payload, position⟩ := chunk
  cases payload with
  | none =>
    rcases sound with alone | rfl
    · exact encoding_operation (Opcode.isOperation_iff.mpr alone) rules position
    · exact encoding_empty rules position
  | some data =>
    obtain ⟨pushes, direct, limited⟩ := sound_some_iff.mp sound
    rcases Opcode.push_cases pushes with short | ⟨width, rfl⟩
    · simp only [laidOut, Opcode.lengthSize_of_le short]
      exact encoding_direct short (direct short) rules position
    · rw [Opcode.maxLength_opcode] at limited
      simp only [laidOut, Opcode.lengthSize_opcode]
      exact encoding_announced limited position

/-- A chunk with a defect is refused for it. -/
theorem Defect.encoding_eq {chunk : Chunk} {reason : ScriptError}
    (defect : Defect rules chunk reason) : chunk.encoding rules = .error reason := by
  cases defect with
  | surplus alone => exact encoding_of_unclassified (Classified.surplus alone).element_eq
  | starved notEmpty pushes =>
    exact encoding_of_unclassified (Classified.starved notEmpty pushes).element_eq
  | mismatched short different =>
    exact encoding_of_unclassified (Classified.mismatched short different).element_eq
  | overlarge beyond =>
    rw [encoding_of_element Classified.announced.element_eq, Element.within,
      if_neg (Nat.not_le_of_lt beyond)]
    rfl

/-- Every chunk can be written or has a defect: it stands for nothing, or for a push that is
held to a limit, or else nothing speaks against it. -/
theorem sound_or_defect (rules : Rules) (chunk : Chunk) :
    chunk.Sound rules ∨ ∃ reason, Defect rules chunk reason := by
  obtain ⟨outcome, known⟩ := exists_classified chunk
  cases known with
  | operation alone unnumbered => exact .inl (.inl (Opcode.isOperation_iff.mp alone))
  | number alone numbered => exact .inl (.inl (Opcode.isOperation_iff.mp alone))
  | surplus alone => exact .inr ⟨_, .surplus alone⟩
  | empty => exact .inl (.inr rfl)
  | starved notEmpty pushes => exact .inr ⟨_, .starved notEmpty pushes⟩
  | direct short counted => exact .inl (.inl ⟨Nat.lt_succ_of_le short, counted⟩)
  | mismatched short different => exact .inr ⟨_, .mismatched short different⟩
  | @announced width data position =>
    by_cases within : data.length ≤ width.maxLength rules
    · refine .inl (sound_some_iff.mpr ⟨Opcode.isOperation_opcode width, ?_, ?_⟩)
      · intro short
        cases width <;> exact absurd short (by decide)
      · rw [Opcode.maxLength_opcode]
        exact within
    · exact .inr ⟨_, .overlarge (Nat.lt_of_not_le within)⟩

/-- The chunks that can be written are those that have an encoding. -/
theorem exists_encoding_iff {chunk : Chunk} :
    (∃ bytes, chunk.encoding rules = .ok bytes) ↔ chunk.Sound rules := by
  constructor
  · rintro ⟨bytes, written⟩
    rcases sound_or_defect rules chunk with sound | ⟨reason, defect⟩
    · exact sound
    · rw [defect.encoding_eq] at written
      cases written
  · intro sound
    exact ⟨_, sound.encoding_eq⟩

/-- Writing succeeds for the chunks that can be written, whatever the buffer. -/
theorem appendTo_ok_iff {chunk : Chunk} {buffer : Bytes} :
    (chunk.appendTo rules buffer).outcome = .ok () ↔ chunk.Sound rules := by
  rcases sound_or_defect rules chunk with sound | ⟨reason, defect⟩
  · rw [appendTo_of_encoding sound.encoding_eq]
    exact iff_of_true rfl sound
  · rw [← exists_encoding_iff, defect.encoding_eq, appendTo_of_refused defect.encoding_eq]
    simp

/-- A framed chunk can be written. -/
theorem Frame.sound {start : Nat} {bytes : Bytes} {chunk : Chunk}
    (frame : Frame rules start bytes chunk) : chunk.Sound rules :=
  exists_encoding_iff.mp ⟨bytes, frame.encoding_eq⟩

/-- A frame is what its chunk is laid out in. -/
theorem Frame.eq_laidOut {start : Nat} {bytes : Bytes} {chunk : Chunk}
    (frame : Frame rules start bytes chunk) : bytes = chunk.laidOut :=
  Except.ok.inj (frame.encoding_eq.symm.trans frame.sound.encoding_eq)

/-- Whatever can be written is the frame of its read form at any position, for a
reader with the same element size that accepts every encoding. The bound on the
element size makes the four bytes of a length tell the whole length, and not only
its remainder. -/
theorem frame_of_encoding {reader : Rules} {chunk : Chunk} {bytes : Bytes}
    (sameSize : reader.maxElementSize = rules.maxElementSize)
    (relaxed : reader.minimalPush = false) (statable : rules.maxElementSize ≤ 0xffffffff)
    (written : chunk.encoding rules = .ok bytes) (start : Nat) :
    Frame reader start bytes { chunk.readForm with sourceOffset := some start } := by
  have sound : chunk.Sound rules := exists_encoding_iff.mp ⟨bytes, written⟩
  obtain rfl : chunk.laidOut = bytes := Except.ok.inj (sound.encoding_eq.symm.trans written)
  obtain ⟨code, payload, position⟩ := chunk
  cases payload with
  | none =>
    rcases sound with high | rfl
    · have alone : code.isOperation = true := Opcode.isOperation_iff.mpr high
      rw [readForm_operation alone]
      exact .operation alone
    · exact .direct relaxed (Nat.zero_le 75) rfl
  | some data =>
    obtain ⟨pushes, direct, limited⟩ := sound_some_iff.mp sound
    rw [readForm_of_some]
    rcases Opcode.push_cases pushes with short | ⟨width, rfl⟩
    · simp only [laidOut, Opcode.lengthSize_of_le short]
      exact .direct relaxed short (direct short)
    · rw [Opcode.maxLength_opcode] at limited
      have fits : data.length < LittleEndian.capacity width.size :=
        Nat.lt_of_le_of_lt limited (width.maxLength_lt_capacity statable)
      rw [← width.maxLength_congr sameSize] at limited
      simp only [laidOut, Opcode.lengthSize_opcode]
      exact .announced relaxed limited fits

/-- A chunk without an announced length is refused whatever the rules. -/
theorem encoding_of_encodedLength {chunk : Chunk} {reason : ScriptError}
    (unmeasured : chunk.encodedLength = .error reason) (rules : Rules) :
    chunk.encoding rules = .error reason := by
  unfold encodedLength at unmeasured
  cases known : chunk.element with
  | error cause =>
    rw [known] at unmeasured
    cases unmeasured
    exact encoding_of_unclassified known
  | ok element =>
    rw [known] at unmeasured
    cases unmeasured

/-- No chunk is refused for the lack of an encoding. What stands for nothing does so for another
reason, and what stands for something may only be too long. -/
theorem encoding_ne_unsupported (rules : Rules) (chunk : Chunk) (code : Opcode) :
    chunk.encoding rules ≠ .error (.unsupportedEncoding code) := by
  intro lacking
  cases known : chunk.element with
  | error reason =>
    rw [encoding_of_unclassified known] at lacking
    cases lacking
    exact element_ne_unsupported chunk code known
  | ok element =>
    rw [encoding_of_element known] at lacking
    unfold Element.within at lacking
    split at lacking
    · split at lacking <;> cases lacking
    · cases lacking

/-- Encoding a chunk gives the bytes that it is laid out in, or the error that writing it
to an empty buffer gives. A chunk without an announced length is refused without a report,
and any other is reported on as it is when written. -/
theorem encode_eq (chunk : Chunk) :
    chunk.encode.value =
        ((chunk.appendTo .standard []).outcome.map fun _ => chunk.laidOut) ∧
      (∀ reason, chunk.encodedLength = .error reason → chunk.encode.log = []) ∧
      ∀ length, chunk.encodedLength = .ok length →
        chunk.encode.log = (chunk.appendTo .standard []).log := by
  cases measured : chunk.encodedLength with
  | error reason =>
    have refused := encoding_of_encodedLength measured .standard
    simp [encode, measured, appendTo_of_refused refused, Except.map]
  | ok length =>
    rcases sound_or_defect .standard chunk with sound | ⟨reason, defect⟩
    · simp [encode, measured, appendTo_of_encoding sound.encoding_eq, Except.map]
    · simp [encode, measured, appendTo_of_refused defect.encoding_eq, Except.map]

/-- A chunk is written whole or not at all. It is written exactly when it is sound. Then
the bytes it is laid out in stand behind what the buffer held, in the announced number, and
nothing is reported. Otherwise the buffer is as it was, and one warning is reported. It names
the opcode and the error: of no other opcode and for no other error would the same be reported.
The error is never the lack of an encoding. Encoding the chunk by itself gives the same bytes
or the error of an empty buffer under the standard rules, and warns only about chunks that have
an announced length.

Proof: a chunk that is not sound has a defect, and what is written or refused is read off
one or the other. -/
theorem appendTo_all_or_nothing (rules : Rules) (chunk : Chunk) (buffer : Bytes) :
    let written := chunk.appendTo rules buffer
    (written.outcome = .ok () ↔ chunk.Sound rules) ∧
    (written.outcome = .ok () →
      written.buffer = buffer ++ chunk.laidOut ∧
      chunk.encodedLength = .ok chunk.laidOut.length ∧ written.log = []) ∧
    (∀ reason, written.outcome = .error reason →
      written.buffer = buffer ∧ written.log = [.chunkRefused chunk.code reason] ∧
      written.log.map ScriptEvent.report = [⟨.warn,
        "Cannot encode script chunk " ++ Hex.literal chunk.code ++ ": " ++ reason.message⟩] ∧
      (∀ event : ScriptEvent, written.log.map ScriptEvent.report = [event.report] →
        event = .chunkRefused chunk.code reason) ∧
      ∀ code, reason ≠ .unsupportedEncoding code) ∧
    (chunk.encode.value =
      (chunk.appendTo .standard []).outcome.map fun _ => chunk.laidOut) ∧
    (∀ reason, chunk.encodedLength = .error reason → chunk.encode.log = []) ∧
    (∀ length, chunk.encodedLength = .ok length →
      chunk.encode.log = (chunk.appendTo .standard []).log) := by
  intro written
  refine ⟨appendTo_ok_iff, ?_⟩
  rcases sound_or_defect rules chunk with sound | ⟨reason, defect⟩
  · have accepted : written = ⟨.ok (), buffer ++ chunk.laidOut, []⟩ :=
      appendTo_of_encoding sound.encoding_eq buffer
    refine ⟨?_, ?_, chunk.encode_eq⟩
    · intro _
      rw [accepted]
      exact ⟨rfl, length_of_encoding sound.encoding_eq, rfl⟩
    · intro reason refused
      rw [accepted] at refused
      cases refused
  · have refused : written = ⟨.error reason, buffer, [.chunkRefused chunk.code reason]⟩ :=
      appendTo_of_refused defect.encoding_eq buffer
    refine ⟨?_, ?_, chunk.encode_eq⟩
    · intro accepted
      rw [refused] at accepted
      cases accepted
    · intro cause isCause
      rw [refused] at isCause ⊢
      cases isCause
      refine ⟨rfl, rfl, rfl, ?_, ?_⟩
      · intro event recorded
        exact (ScriptEvent.report_inj.mp (List.cons.inj recorded).1).symm
      · intro code lacking
        exact encoding_ne_unsupported rules chunk code (lacking ▸ defect.encoding_eq)

/-- Under rules that admit one byte, one byte behind a length of four bytes is written into a
buffer that is not empty. Two bytes are not, the buffer keeps what it held, and the warning says
so; under the standard rules they are encoded. Each other defect has its warning when the chunk is
written, and none when it is encoded by itself. -/
theorem appendTo_all_or_nothing_four_bytes :
    let rules : Rules := ⟨9, 1, true⟩
    let one : Chunk := ⟨0x4e, some [0xaa], none⟩
    let two : Chunk := ⟨0x4e, some [0xaa, 0xbb], some 7⟩
    let starved : Chunk := ⟨0x05, none, none⟩
    let surplus : Chunk := ⟨0x76, some [], none⟩
    let mismatched : Chunk := ⟨0x02, some [0xaa], none⟩
    let warnings (chunk : Chunk) := (chunk.appendTo rules [0x76]).log.map ScriptEvent.report
    (one.Sound rules ∧ (one.appendTo rules [0x76]).outcome = .ok () ∧
      (one.appendTo rules [0x76]).buffer = [0x76, 0x4e, 0x01, 0x00, 0x00, 0x00, 0xaa] ∧
      one.encodedLength = .ok 6 ∧ (one.appendTo rules [0x76]).log = []) ∧
    (¬two.Sound rules ∧ (two.appendTo rules [0x76]).outcome = .error (.pushTooLong 0x4e 2 1) ∧
      (two.appendTo rules [0x76]).buffer = [0x76] ∧
      warnings two = [⟨.warn, "Cannot encode script chunk 0x4e: Invalid chunk state: " ++
        "Payload of 2 bytes too long for opcode 0x4e (max 1)"⟩] ∧
      two.encode.value = .ok [0x4e, 0x02, 0x00, 0x00, 0x00, 0xaa, 0xbb]) ∧
    ((starved.appendTo rules [0x76]).outcome = .error (.missingPayload 0x05) ∧
      warnings starved = [⟨.warn, "Cannot encode script chunk 0x05: Invalid chunk state: " ++
        "Push opcode 0x05 has no payload"⟩] ∧
      starved.encodedLength = .error (.missingPayload 0x05) ∧ starved.encode.log = []) ∧
    ((surplus.appendTo rules [0x76]).outcome = .error (.payloadOnOperation 0x76) ∧
      warnings surplus = [⟨.warn, "Cannot encode script chunk 0x76: Invalid chunk state: " ++
        "Operation 0x76 carries a payload"⟩] ∧ surplus.encode.log = []) ∧
    ((mismatched.appendTo rules [0x76]).outcome = .error (.lengthMismatch 0x02 1) ∧
      warnings mismatched = [⟨.warn, "Cannot encode script chunk 0x02: Invalid chunk state: " ++
        "Direct push opcode 0x02 does not match payload length 1"⟩] ∧
      mismatched.encode.log = []) := by
  intro rules one two starved surplus mismatched warnings
  obtain ⟨oneIff, oneWritten, _⟩ := appendTo_all_or_nothing rules one [0x76]
  obtain ⟨twoIff, _, twoRefused, twoEncoded, _⟩ := appendTo_all_or_nothing rules two [0x76]
  have sound : one.Sound rules := by decide
  have unsound : ¬two.Sound rules := by decide
  have accepted : (one.appendTo rules [0x76]).outcome = .ok () := oneIff.mpr sound
  have tooLong : (two.appendTo rules [0x76]).outcome = .error (.pushTooLong 0x4e 2 1) := rfl
  obtain ⟨gathered, measured, silent⟩ := oneWritten accepted
  obtain ⟨kept, _, warned, _⟩ := twoRefused _ tooLong
  -- What each of the others is refused for is computed, and the theorem gives the warning.
  obtain ⟨_, _, starvedRefused, _, starvedSilent, _⟩ :=
    appendTo_all_or_nothing rules starved [0x76]
  obtain ⟨_, _, surplusRefused, _, surplusSilent, _⟩ :=
    appendTo_all_or_nothing rules surplus [0x76]
  obtain ⟨_, _, mismatchedRefused, _, mismatchedSilent, _⟩ :=
    appendTo_all_or_nothing rules mismatched [0x76]
  refine ⟨⟨sound, accepted, gathered, measured, silent⟩,
    ⟨unsound, tooLong, kept, warned.trans ?_, twoEncoded⟩,
    ⟨rfl, (starvedRefused _ rfl).2.2.1.trans ?_, rfl, starvedSilent _ rfl⟩,
    ⟨rfl, (surplusRefused _ rfl).2.2.1.trans ?_, surplusSilent _ rfl⟩,
    ⟨rfl, (mismatchedRefused _ rfl).2.2.1.trans ?_, mismatchedSilent _ rfl⟩⟩ <;> decide +kernel

end CoinScript.Chunk
