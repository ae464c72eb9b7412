import CoinScript.Proofs.Run
import CoinScript.Proofs.Writing
import CoinScript.Script.Assembly

/-!
# Writing and reading whole scripts

Writing chunks in turn and reading the result gives the chunks back, each in its
read form and at the position where its bytes begin. The only condition is that
four bytes can state every length the rules admit.

Reading any bytes and writing the chunks found gives the bytes back up to the end
of the last chunk, under the same rules and without a condition: a length that
was read can always be stated. The chunks lie side by side from the beginning, and
they reach the end exactly when no error was met.
-/

namespace CoinScript

namespace Chunk

variable {rules : Rules} {chunk : Chunk} {rest : List Chunk} {bytes : Bytes}

/-- The total length of the chunks' encodings, if every chunk has one. -/
def totalLength : List Chunk → Except ScriptError Nat
  | [] => .ok 0
  | chunk :: rest => do
    let length ← chunk.encodedLength
    let others ← totalLength rest
    pure (length + others)

/-- The chunks that were put together and the chunks found by reading from a
position on are as many, have the same content in the form that reading gives,
and the position of each is behind all encodings before it. -/
structure ReadBack (start : Nat) (chunks found : List Chunk) : Prop where
  /-- No chunk is lost or added. -/
  count : found.length = chunks.length
  /-- What becomes of each chunk. -/
  each : ∀ (index : Nat) (inside : index < chunks.length), ∃ parsed offset,
    found[index]? = some parsed ∧ chunks[index].readForm.sameContent parsed = true ∧
      totalLength (chunks.take index) = .ok offset ∧ parsed.sourceOffset = some (start + offset)

/-- The chunks lie side by side between two positions: each begins where the
encoding of the one before it ends. -/
inductive Tile : Nat → List Chunk → Nat → Prop where
  | done (finish : Nat) : Tile finish [] finish
  | next {start length finish : Nat} {chunk : Chunk} {rest : List Chunk}
      (placed : chunk.sourceOffset = some start) (measured : chunk.encodedLength = .ok length)
      (others : Tile (start + length) rest finish) : Tile start (chunk :: rest) finish

/-- A chunk that has an encoding is written in front of the rest. -/
theorem appendAll_cons (written : chunk.encoding rules = .ok bytes) (rest : List Chunk)
    (buffer : Bytes) :
    appendAll rules (chunk :: rest) buffer = appendAll rules rest (buffer ++ bytes) := by
  simp only [appendAll, appendTo_of_encoding written, List.nil_append]

/-- Chunks that can all be written are written as they are laid out, one behind the other, with
nothing reported. -/
theorem appendAll_of_sound {chunks : List Chunk} (sound : ∀ chunk ∈ chunks, chunk.Sound rules)
    (buffer : Bytes) :
    appendAll rules chunks buffer = ⟨.ok (), buffer ++ chunks.flatMap laidOut, []⟩ := by
  induction chunks generalizing buffer with
  | nil => simp [appendAll]
  | cons chunk rest inductionHypothesis =>
    have written := (sound chunk List.mem_cons_self).encoding_eq
    have others := inductionHypothesis fun other member => sound other (List.mem_cons_of_mem _ member)
    rw [appendAll_cons written, others, List.flatMap_cons, List.append_assoc]

/-- Chunks that all have an encoding are all written, with nothing reported. -/
theorem appendAll_of_encodings {chunks : List Chunk}
    (writable : ∀ chunk ∈ chunks, ∃ bytes, chunk.encoding rules = .ok bytes) (buffer : Bytes) :
    ∃ written, appendAll rules chunks buffer = ⟨.ok (), written, []⟩ :=
  ⟨_, appendAll_of_sound (fun chunk member => exists_encoding_iff.mp (writable chunk member)) buffer⟩

/-- The announced lengths of chunks that can all be written add up to the length of what they
are laid out in. -/
theorem totalLength_of_sound {chunks : List Chunk} (sound : ∀ chunk ∈ chunks, chunk.Sound rules) :
    totalLength chunks = .ok (chunks.flatMap laidOut).length := by
  induction chunks with
  | nil => rfl
  | cons chunk rest inductionHypothesis =>
    have measured := length_of_encoding (sound chunk List.mem_cons_self).encoding_eq
    have others := inductionHypothesis fun other member => sound other (List.mem_cons_of_mem _ member)
    simp only [totalLength, measured, others, bind, Except.bind, pure, Except.pure,
      List.flatMap_cons, List.length_append]

/-- The first chunk without an encoding ends the writing with its own refusal, the
only one reported, whatever comes behind it. -/
theorem appendAll_of_refused {before : List Chunk} {reason : ScriptError}
    (writable : ∀ earlier ∈ before, ∃ bytes, earlier.encoding rules = .ok bytes)
    (refused : chunk.encoding rules = .error reason) (rest : List Chunk) (buffer : Bytes) :
    ∃ written, appendAll rules (before ++ chunk :: rest) buffer =
      ⟨.error reason, written, [.chunkRefused chunk.code reason]⟩ := by
  induction before generalizing buffer with
  | nil => exact ⟨buffer, by simp only [List.nil_append, appendAll, appendTo_of_refused refused]⟩
  | cons earlier before inductionHypothesis =>
    obtain ⟨bytes, written⟩ := writable earlier List.mem_cons_self
    rw [List.cons_append, appendAll_cons written]
    exact inductionHypothesis (fun other member => writable other (List.mem_cons_of_mem _ member)) _

/-- Writing succeeds only if the first chunk has an encoding. -/
theorem exists_encoding_of_appendAll {buffer : Bytes}
    (succeeded : (appendAll rules (chunk :: rest) buffer).outcome = .ok ()) :
    ∃ bytes, chunk.encoding rules = .ok bytes := by
  cases written : chunk.encoding rules with
  | ok bytes => exact ⟨bytes, rfl⟩
  | error reason =>
    simp only [appendAll, appendTo_of_refused written] at succeeded
    cases succeeded

/-- Nothing written is read back as nothing. -/
theorem ReadBack.nil (start : Nat) : ReadBack start [] [] where
  count := rfl
  each := fun _ inside => absurd inside (Nat.not_lt_zero _)

/-- A chunk read back at its position stands in front of chunks read back behind
its encoding. The index decides whether the first chunk or one of the others is
asked for, and the totals of the others grow by the first length. -/
theorem ReadBack.cons {start : Nat} {parsed : Chunk} {chunks found : List Chunk}
    (same : chunk.readForm.sameContent parsed = true) (placed : parsed.sourceOffset = some start)
    (measured : chunk.encodedLength = .ok bytes.length)
    (others : ReadBack (start + bytes.length) chunks found) :
    ReadBack start (chunk :: chunks) (parsed :: found) where
  count := by simp only [List.length_cons, others.count]
  each := by
    intro index inside
    cases index with
    | zero => exact ⟨parsed, 0, rfl, same, rfl, placed⟩
    | succ index =>
      obtain ⟨later, offset, found, content, total, position⟩ :=
        others.each index (Nat.lt_of_succ_lt_succ inside)
      refine ⟨later, bytes.length + offset, found, content, ?_, ?_⟩
      · simp only [List.take_succ_cons, totalLength, measured, total, bind, Except.bind, pure,
          Except.pure]
      · rw [position, Nat.add_assoc]

/-- What writing in turn adds to the buffer is a run of all chunks, for a reader
with the same element size that accepts every encoding. The induction is on the
chunks: each adds its frame, and the run goes on from the frame's end. -/
theorem run_of_appendAll {reader : Rules} (sameSize : reader.maxElementSize = rules.maxElementSize)
    (relaxed : reader.minimalPush = false) (statable : rules.maxElementSize ≤ 0xffffffff)
    (chunks : List Chunk) (buffer : Bytes) (start : Nat)
    (succeeded : (appendAll rules chunks buffer).outcome = .ok ()) :
    ∃ bytes found, (appendAll rules chunks buffer).buffer = buffer ++ bytes ∧
      Run reader start bytes (found.map .ok) [] ∧
      ReadBack start chunks found := by
  induction chunks generalizing buffer start with
  | nil => exact ⟨[], [], (List.append_nil buffer).symm, .ended start, .nil start⟩
  | cons chunk rest inductionHypothesis =>
    obtain ⟨front, written⟩ := exists_encoding_of_appendAll succeeded
    rw [appendAll_cons written] at succeeded ⊢
    obtain ⟨back, found, gathered, run, readBack⟩ :=
      inductionHypothesis (buffer ++ front) (start + front.length) succeeded
    have frame := frame_of_encoding sameSize relaxed statable written start
    refine ⟨front ++ back, { chunk.readForm with sourceOffset := some start } :: found, ?_, ?_, ?_⟩
    · rw [gathered, List.append_assoc]
    · exact .yielded frame run
    · exact .cons (by simp [sameContent]) rfl (length_of_encoding written) readBack

end Chunk

/-- The chunks of a transcript, without the error that may have ended it. -/
def Transcript.found (transcript : Transcript) : List Chunk :=
  transcript.items.filterMap Except.toOption

namespace Frames

variable {rules : Rules} {start : Nat} {bytes : Bytes} {chunks : List Chunk}

/-- Frames one behind the other are chunks side by side: a frame's length is that of
its chunk's encoding. -/
theorem tile (frames : Frames rules start bytes chunks) :
    Chunk.Tile start chunks (start + bytes.length) := by
  induction frames with
  | nil start => exact .done start
  | cons frame others inductionHypothesis =>
    rw [List.length_append, ← Nat.add_assoc]
    exact .next frame.sourceOffset (Chunk.length_of_encoding frame.encoding_eq) inductionHypothesis

/-- Writing the chunks of frames gives the frames again. -/
theorem appendAll_eq (frames : Frames rules start bytes chunks) (buffer : Bytes) :
    Chunk.appendAll rules chunks buffer = ⟨.ok (), buffer ++ bytes, []⟩ := by
  induction frames generalizing buffer with
  | nil start => simp [Chunk.appendAll]
  | cons frame others inductionHypothesis =>
    rw [Chunk.appendAll_cons frame.encoding_eq, inductionHypothesis, List.append_assoc]

end Frames

/-- Of items that are all chunks, these chunks are found. -/
theorem filterMap_toOption (chunks : List Chunk) :
    (chunks.map (Except.ok : Chunk → Item)).filterMap Except.toOption = chunks := by
  rw [List.filterMap_map]
  exact List.filterMap_some

/-- Chunks in front of other items are found before those among them. -/
theorem filterMap_toOption_append (chunks : List Chunk) (others : List Item) :
    (chunks.map Except.ok ++ others).filterMap Except.toOption =
      chunks ++ others.filterMap Except.toOption := by
  rw [List.filterMap_append, filterMap_toOption]

/-- The chunks found are the items that are chunks. -/
theorem Transcript.mem_found_iff {transcript : Transcript} {chunk : Chunk} :
    chunk ∈ transcript.found ↔ .ok chunk ∈ transcript.items := by
  simp only [found, List.mem_filterMap]
  constructor
  · rintro ⟨item, yielded, isChunk⟩
    cases item with
    | error reason => cases isChunk
    | ok found =>
      cases isChunk
      exact yielded
  · intro yielded
    exact ⟨.ok chunk, yielded, rfl⟩

/-- The chunks of a run are framed one behind the other from its beginning. Bytes are
left behind them exactly when the run met an error, for at a refusal there are bytes,
and no chunk. -/
theorem Run.frames_found {rules : Rules} {start : Nat} {unread : Bytes} {items : List Item}
    {log : List ScriptEvent} (run : Run rules start unread items log) :
    ∃ bytes rest, unread = bytes ++ rest ∧
      Frames rules start bytes (items.filterMap Except.toOption) ∧
      ((∀ reason, .error reason ∉ items) ↔ rest = []) := by
  obtain ⟨chunks, bytes, rest, joined, frames, outcome⟩ := run.frames
  have found : items.filterMap Except.toOption = chunks := by
    rcases outcome with ⟨_, rfl, _⟩ | ⟨reason, rfl, _⟩
    · exact filterMap_toOption chunks
    · rw [filterMap_toOption_append]
      exact List.append_nil chunks
  rw [found]
  refine ⟨bytes, rest, joined, frames, ?_⟩
  rcases outcome with ⟨rfl, rfl, _⟩ | ⟨reason, rfl, refusal⟩
  · simp
  · simp [refusal.ne_nil]

/-- A run consists of the frames of its chunks, one behind the other, and of bytes
at which it was refused, if it was. Writing the chunks gives the frames again, and a
frame's length is the distance to the next position. -/
theorem Run.tile {rules : Rules} {start : Nat} {unread : Bytes} {items : List Item}
    {log : List ScriptEvent} (run : Run rules start unread items log) :
    ∃ bytes rest, unread = bytes ++ rest ∧
      Chunk.Tile start (items.filterMap Except.toOption) (start + bytes.length) ∧
      (∀ buffer, Chunk.appendAll rules (items.filterMap Except.toOption) buffer =
        ⟨.ok (), buffer ++ bytes, []⟩) ∧
      ((∀ reason, .error reason ∉ items) ↔ rest = []) := by
  obtain ⟨bytes, rest, joined, frames, untouched⟩ := run.frames_found
  exact ⟨bytes, rest, joined, frames.tile, frames.appendAll_eq, untouched⟩

/-- Chunks that can all be written under some rules are read back from what was
written: without an error, none lost or added, each with its content and at the
sum of the lengths before it. The reader may be any that has the same element size
and accepts every encoding. A script assembled from chunks was written under the
standard rules, whose element size can be stated.

Proof: writing gives a run of the chunks' frames, and a run from the beginning is
what reading gives. -/
theorem read_back_of_written {reader : Rules} (relaxed : reader.minimalPush = false) :
    (∀ (rules : Rules) (chunks : List Chunk) (script : Script),
      reader.maxElementSize = rules.maxElementSize → rules.maxElementSize ≤ 0xffffffff →
      (Chunk.appendAll rules chunks []).outcome = .ok () →
      (Chunk.appendAll rules chunks []).buffer = script.bytes →
      ∃ found, (script.read reader).chunks = .ok found ∧ Chunk.ReadBack 0 chunks found) ∧
    (∀ (chunks : List Chunk) (script : Script),
      reader.maxElementSize = Rules.standard.maxElementSize →
      (Script.ofChunks chunks).value = .ok script →
      ∃ found, (script.read reader).chunks = .ok found ∧ Chunk.ReadBack 0 chunks found) := by
  have general (rules : Rules) (chunks : List Chunk) (script : Script)
      (sameSize : reader.maxElementSize = rules.maxElementSize)
      (statable : rules.maxElementSize ≤ 0xffffffff)
      (succeeded : (Chunk.appendAll rules chunks []).outcome = .ok ())
      (gathered : (Chunk.appendAll rules chunks []).buffer = script.bytes) :
      ∃ found, (script.read reader).chunks = .ok found ∧ Chunk.ReadBack 0 chunks found := by
    obtain ⟨bytes, found, joined, run, readBack⟩ :=
      Chunk.run_of_appendAll sameSize relaxed statable chunks [] 0 succeeded
    have same : bytes = script.bytes := joined.symm.trans gathered
    subst same
    have items : (script.read reader).items = found.map .ok := run.read_eq.1
    exact ⟨found, Transcript.chunks_eq_ok_iff.mpr items, readBack⟩
  constructor
  · exact general
  · intro chunks script sameSize assembled
    rw [Script.ofChunks, Script.assemble_eq_appendAll] at assembled
    cases succeeded : (Chunk.appendAll .standard chunks []).outcome with
    | error reason =>
      simp only [succeeded] at assembled
      cases assembled
    | ok nothing =>
      simp only [succeeded] at assembled
      have gathered : (Chunk.appendAll .standard chunks []).buffer = script.bytes :=
        congrArg Script.bytes (Except.ok.inj assembled)
      exact general .standard chunks script sameSize (by decide) succeeded gathered

/-- An empty push without a payload, a long form of a push whose data begins like
a push itself, an operation with a foreign position, and a push with a four-byte
length, under rules that admit few bytes and as a standard script. -/
theorem read_back_of_written_mixed :
    let chunks : List Chunk := [⟨0x00, none, none⟩, ⟨0x4d, some [0x4c, 0xff], none⟩,
      ⟨0x76, none, some 40⟩, ⟨0x4e, some [0x00], none⟩, ⟨0x01, some [0x05], some 7⟩]
    let bytes : Bytes := [0x00, 0x4d, 0x02, 0x00, 0x4c, 0xff, 0x76, 0x4e, 0x01, 0x00, 0x00, 0x00,
      0x00, 0x01, 0x05]
    let rules : Rules := ⟨4, 1, true⟩
    let reader : Rules := ⟨9, 1, false⟩
    (reader.minimalPush = false ∧ reader.maxElementSize = rules.maxElementSize ∧
      rules.maxElementSize ≤ 0xffffffff ∧ (Chunk.appendAll rules chunks []).outcome = .ok () ∧
      (Chunk.appendAll rules chunks []).buffer = bytes ∧
      ∃ found, (Script.read reader ⟨bytes⟩).chunks = .ok found ∧ Chunk.ReadBack 0 chunks found) ∧
    (Rules.relaxed.minimalPush = false ∧
      Rules.relaxed.maxElementSize = Rules.standard.maxElementSize ∧
      (Script.ofChunks chunks).value = .ok ⟨bytes⟩ ∧
      ∃ found, (Script.read .relaxed ⟨bytes⟩).chunks = .ok found ∧
        Chunk.ReadBack 0 chunks found) := by
  intro chunks bytes rules reader
  exact ⟨⟨rfl, rfl, by decide, rfl, rfl,
      (read_back_of_written rfl).1 rules chunks ⟨bytes⟩ rfl (by decide) rfl rfl⟩,
    rfl, rfl, rfl, (read_back_of_written rfl).2 chunks ⟨bytes⟩ rfl rfl⟩

end CoinScript
