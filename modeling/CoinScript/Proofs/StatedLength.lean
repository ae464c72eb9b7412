import CoinScript.Proofs.RoundTrip

/-!
# Stated lengths

A push whose length is stated separately is written with the lowest digits of its length,
as many as its width has. One and two bytes admit no data whose length they cannot state.
Four bytes admit whatever the rules admit, and rules may admit more than four bytes can
state.

So the digits written state the length of the data exactly when four bytes can state it,
and exactly then the push is read back. Of a longer length the digits state a remainder.
The writer does not refuse, and the data behind the remainder is read as further chunks.
-/

namespace CoinScript

/-- What a width admits it can state exactly if four bytes can. -/
theorem PushWidth.lt_capacity_iff {rules : Rules} {width : PushWidth} {length : Nat}
    (admitted : length ≤ width.maxLength rules) :
    length < LittleEndian.capacity width.size ↔ length < 0x100000000 := by
  have one : LittleEndian.capacity PushWidth.one.size = 256 := by decide
  have two : LittleEndian.capacity PushWidth.two.size = 65536 := by decide
  have four : LittleEndian.capacity PushWidth.four.size = 0x100000000 := by decide
  cases width with
  | one =>
    have short : length ≤ 255 := admitted
    omega
  | two =>
    have short : length ≤ 65535 := admitted
    omega
  | four => rw [four]

namespace Chunk

variable {rules reader : Rules} {chunk : Chunk} {width : PushWidth} {data buffer : Bytes}

/-- A chunk that stands for a push with a stated length consists of the opcode of the
width and the data. -/
theorem eq_of_element (classified : chunk.element = .ok (.announcedPush width data)) :
    chunk = ⟨width.opcode, some data, chunk.sourceOffset⟩ := by
  have known := chunk.classified
  rw [classified] at known
  cases known
  rfl

/-- Data behind the lowest digits of its length is read as a push of the whole data, and
as nothing else, exactly when the width can state the length. -/
theorem read_announced_iff (relaxed : reader.minimalPush = false)
    (admitted : data.length ≤ width.maxLength reader) :
    (Script.read reader
        ⟨width.opcode :: (LittleEndian.encode width.size data.length ++ data)⟩).items =
        [.ok ⟨width.opcode, some data, some 0⟩] ↔
      data.length < LittleEndian.capacity width.size := by
  constructor
  · intro yielded
    have run := Script.read_run reader
      ⟨width.opcode :: (LittleEndian.encode width.size data.length ++ data)⟩
    rw [yielded] at run
    obtain ⟨bytes, rest, joined, frame, others⟩ := run.chunk_inv
    rw [others.nil_inv, List.append_nil] at joined
    -- The frame ends with the same data, so the digits in it are the ones given.
    cases frame with
    | push pushes sized stated limited shortest =>
      have same := List.append_cancel_right (List.cons.inj joined).2
      rw [← same, Opcode.statedLength_opcode] at stated
      exact LittleEndian.decode_encode_eq_iff.mp stated
  · intro fits
    have frame : Frame reader 0 _ _ := .announced relaxed admitted fits
    have run := Run.yielded frame (.ended _)
    rw [List.append_nil] at run
    exact run.read_eq.1

/-- A push with a stated length is written only if its width admits the data. -/
theorem admitted_of_appendTo {position : Option Nat}
    (accepted : (appendTo rules ⟨width.opcode, some data, position⟩ buffer).outcome = .ok ()) :
    data.length ≤ width.maxLength rules := by
  obtain ⟨_, _, limited⟩ := sound_some_iff.mp (appendTo_ok_iff.mp accepted)
  rwa [Opcode.maxLength_opcode] at limited

end Chunk

/-- A chunk that stands for a push with a stated length is written with the lowest digits
of the length behind its opcode. The digits state the length exactly when it is below
2 ^ 32, and exactly then a reader with the same element size that accepts every encoding
gives the chunk back, and nothing else.

Proof: one and two bytes can state all that they admit, and four bytes can state less
than 2 ^ 32. -/
theorem stated_length_iff {rules : Rules} {chunk : Chunk} {width : PushWidth} {data buffer : Bytes}
    (classified : chunk.element = .ok (.announcedPush width data))
    (accepted : (chunk.appendTo rules buffer).outcome = .ok ()) :
    ∃ digits, (chunk.appendTo rules buffer).buffer = buffer ++ width.opcode :: (digits ++ data) ∧
      digits.length = width.size ∧
      (LittleEndian.decode digits = data.length ↔ data.length < 0x100000000) ∧
      ∀ reader : Rules, reader.maxElementSize = rules.maxElementSize →
        reader.minimalPush = false →
          ((Script.read reader ⟨width.opcode :: (digits ++ data)⟩).items =
              [.ok { chunk with sourceOffset := some 0 }] ↔
            data.length < 0x100000000) := by
  rw [Chunk.eq_of_element classified] at accepted ⊢
  have admitted := Chunk.admitted_of_appendTo accepted
  have written := Chunk.encoding_announced admitted chunk.sourceOffset
  rw [Chunk.appendTo_of_encoding written]
  refine ⟨LittleEndian.encode width.size data.length, rfl, LittleEndian.length_encode _ _, ?_, ?_⟩
  · rw [LittleEndian.decode_encode_eq_iff, PushWidth.lt_capacity_iff admitted]
  · intro reader sameSize relaxed
    rw [← width.maxLength_congr sameSize] at admitted
    rw [Chunk.read_announced_iff relaxed admitted, PushWidth.lt_capacity_iff admitted]

/-- Two bytes with a length of four bytes are written into a buffer that is not empty, and
are read back from what was added. -/
theorem stated_length_iff_two_bytes :
    let rules : Rules := ⟨9, 2, true⟩
    let reader : Rules := ⟨0, 2, false⟩
    let chunk : Chunk := ⟨0x4e, some [0xaa, 0xbb], none⟩
    let bytes : Bytes := [0x4e, 0x02, 0x00, 0x00, 0x00, 0xaa, 0xbb]
    chunk.element = .ok (.announcedPush .four [0xaa, 0xbb]) ∧
      chunk.appendTo rules [0x76] = ⟨.ok (), 0x76 :: bytes, []⟩ ∧
      (Script.read reader ⟨bytes⟩).items = [.ok { chunk with sourceOffset := some 0 }] := by
  intro rules reader chunk bytes
  have classified : chunk.element = .ok (.announcedPush .four [0xaa, 0xbb]) := rfl
  have written : chunk.appendTo rules [0x76] = ⟨.ok (), 0x76 :: bytes, []⟩ := rfl
  have accepted : (chunk.appendTo rules [0x76]).outcome = .ok () := by rw [written]
  obtain ⟨digits, gathered, _, _, read⟩ := stated_length_iff classified accepted
  rw [written] at gathered
  have same : bytes = 0x4e :: (digits ++ [0xaa, 0xbb]) := (List.cons.inj gathered).2
  refine ⟨classified, written, ?_⟩
  rw [same]
  exact (read reader rfl rfl).mpr (by decide)

/-- Four bytes cannot state a length of 2 ^ 32. Rules that admit so much data admit it
behind the digits of zero, and reading under the same rules does not give the chunk back. -/
theorem stated_length_wraps :
    let rules : Rules := ⟨10000, 0x100000000, false⟩
    let data : Bytes := List.replicate 0x100000000 0x00
    let chunk : Chunk := ⟨Opcode.pushData4, some data, none⟩
    let bytes : Bytes := Opcode.pushData4 :: ([0x00, 0x00, 0x00, 0x00] ++ data)
    chunk.element = .ok (.announcedPush .four data) ∧
      chunk.appendTo rules [] = ⟨.ok (), bytes, []⟩ ∧
      LittleEndian.decode [0x00, 0x00, 0x00, 0x00] ≠ data.length ∧
      (Script.read rules ⟨bytes⟩).items ≠ [.ok { chunk with sourceOffset := some 0 }] := by
  intro rules data chunk bytes
  have counted : data.length = 0x100000000 := List.length_replicate
  have zero : LittleEndian.encode PushWidth.four.size data.length = [0x00, 0x00, 0x00, 0x00] := by
    rw [counted]
    rfl
  have relaxed : rules.minimalPush = false := rfl
  have admitted : data.length ≤ PushWidth.four.maxLength rules := Nat.le_of_eq counted
  have written := Chunk.encoding_announced admitted none
  have read := Chunk.read_announced_iff relaxed admitted
  rw [zero] at written read
  refine ⟨rfl, Chunk.appendTo_of_encoding written [], ?_, ?_⟩
  · rw [counted]
    decide
  · intro yielded
    have fits := read.mp yielded
    rw [counted] at fits
    exact absurd fits (by decide)

end CoinScript
