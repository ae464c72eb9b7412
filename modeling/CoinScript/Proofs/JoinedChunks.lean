import CoinScript.Proofs.RoundTrip
import Mathlib.Data.List.Forall2

/-!
# Assembling joined chunks

Chunks that can all be written are assembled into what they are laid out in, one behind the
other. So chunks joined are assembled exactly when both parts are, and the scripts are joined
as the chunks were.

If some chunk cannot be written, there is a first one. What was written before it is of no
consequence, and so is what comes behind it: its defect is the error, and the one thing
reported. The positions of the chunks bear on none of this.
-/

namespace CoinScript

/-- Among chunks that cannot all be written there is a first one that cannot, and it has a
defect. -/
theorem Chunk.sound_or_first_defect (rules : Rules) (chunks : List Chunk) :
    (∀ chunk ∈ chunks, chunk.Sound rules) ∨
      ∃ before chunk after reason, chunks = before ++ chunk :: after ∧
        (∀ earlier ∈ before, earlier.Sound rules) ∧ Defect rules chunk reason := by
  induction chunks with
  | nil => exact .inl fun _ member => absurd member List.not_mem_nil
  | cons chunk rest inductionHypothesis =>
    cases sound_or_defect rules chunk with
    | inr defective =>
      obtain ⟨reason, defect⟩ := defective
      exact .inr ⟨[], chunk, rest, reason, rfl, fun _ member => absurd member List.not_mem_nil,
        defect⟩
    | inl sound =>
      cases inductionHypothesis with
      | inl others => exact .inl (List.forall_mem_cons.mpr ⟨sound, others⟩)
      | inr found =>
        obtain ⟨before, later, after, reason, rfl, earlier, defect⟩ := found
        exact .inr ⟨chunk :: before, later, after, reason, rfl,
          List.forall_mem_cons.mpr ⟨sound, earlier⟩, defect⟩

namespace Script

variable {rules : Rules} {chunks : List Chunk}

/-- Chunks that can all be written are assembled into what they are laid out in, with nothing
reported. -/
theorem assemble_of_sound (sound : ∀ chunk ∈ chunks, chunk.Sound rules) :
    assemble rules chunks = ⟨.ok ⟨chunks.flatMap Chunk.laidOut⟩, []⟩ := by
  rw [assemble_eq_appendAll, Chunk.appendAll_of_sound sound]
  rfl

/-- The first chunk that cannot be written is refused for its defect, whatever stands before
and behind it. -/
theorem assemble_of_defect {before : List Chunk} {chunk : Chunk} {reason : ScriptError}
    (sound : ∀ earlier ∈ before, earlier.Sound rules) (defect : Chunk.Defect rules chunk reason)
    (after : List Chunk) :
    assemble rules (before ++ chunk :: after) =
      ⟨.error reason, [.chunkRefused chunk.code reason]⟩ := by
  have writable : ∀ earlier ∈ before, ∃ bytes, earlier.encoding rules = .ok bytes :=
    fun earlier member => Chunk.exists_encoding_iff.mpr (sound earlier member)
  obtain ⟨written, appended⟩ := Chunk.appendAll_of_refused writable defect.encoding_eq after []
  rw [assemble_eq_appendAll, appended]
  rfl

/-- A script is assembled only from chunks that can all be written, and it is what they are
laid out in. -/
theorem assemble_ok_inv {script : Script} (assembled : (assemble rules chunks).value = .ok script) :
    (∀ chunk ∈ chunks, chunk.Sound rules) ∧ script.bytes = chunks.flatMap Chunk.laidOut := by
  cases Chunk.sound_or_first_defect rules chunks with
  | inl sound =>
    rw [assemble_of_sound sound] at assembled
    cases assembled
    exact ⟨sound, rfl⟩
  | inr found =>
    obtain ⟨before, chunk, after, reason, rfl, sound, defect⟩ := found
    rw [assemble_of_defect sound defect] at assembled
    cases assembled

/-- Chunks are assembled exactly when all of them can be written. -/
theorem exists_assembled_iff :
    (∃ script, (assemble rules chunks).value = .ok script) ↔ ∀ chunk ∈ chunks, chunk.Sound rules := by
  constructor
  · rintro ⟨script, assembled⟩
    exact (assemble_ok_inv assembled).1
  · intro sound
    exact ⟨_, congrArg Logged.value (assemble_of_sound sound)⟩

/-- Assembling sees the contents of the chunks and not their positions. -/
theorem assembleOnto_of_sameContent {others : List Chunk}
    (same : List.Forall₂ (fun chunk other => Chunk.sameContent chunk other = true) chunks others)
    (written : Bytes) : assembleOnto rules written chunks = assembleOnto rules written others := by
  induction same generalizing written with
  | nil => rfl
  | @cons chunk other chunks others sameChunk _ inductionHypothesis =>
    have sameElement := Chunk.element_of_sameContent sameChunk
    have sameCode : chunk.code = other.code := (of_decide_eq_true sameChunk).1
    simp only [assembleOnto, Chunk.encoding, sameElement, sameCode, inductionHypothesis]

/-- Chunks joined are assembled exactly when both parts are. The script then is the two scripts
joined, nothing is reported, and its length is the sum of the lengths announced for the chunks.
Otherwise there is a first chunk that cannot be written, whatever the buffer. It is refused with
the error that writing it gives, and the refusal is the one thing reported, as a warning. Chunks
of the same contents, wherever they were read, are assembled alike.

Proof: what is assembled is laid out chunk by chunk, and a chunk is part of one of the lists
joined exactly when it is part of the joined list. -/
theorem ofChunks_append (first second : List Chunk) :
    let joined := ofChunks (first ++ second)
    ((∃ script, joined.value = .ok script) ↔
      (∃ front, (ofChunks first).value = .ok front) ∧
        ∃ back, (ofChunks second).value = .ok back) ∧
    (∀ front back, (ofChunks first).value = .ok front → (ofChunks second).value = .ok back →
      joined = ⟨.ok ⟨front.bytes ++ back.bytes⟩, []⟩ ∧
      Chunk.totalLength (first ++ second) = .ok (front.bytes ++ back.bytes).length) ∧
    ((¬∃ script, joined.value = .ok script) →
      ∃ before chunk after reason, first ++ second = before ++ chunk :: after ∧
        (∀ earlier ∈ before, ∀ buffer, (earlier.appendTo .standard buffer).outcome = .ok ()) ∧
        (∀ buffer, (chunk.appendTo .standard buffer).outcome = .error reason) ∧
        joined = ⟨.error reason, [.chunkRefused chunk.code reason]⟩ ∧
        joined.log.map ScriptEvent.report = [⟨.warn,
          "Cannot encode script chunk " ++ Hex.literal chunk.code ++ ": " ++ reason.message⟩]) ∧
    (∀ others, List.Forall₂ (fun chunk other => Chunk.sameContent chunk other = true)
      (first ++ second) others → ofChunks others = joined) := by
  intro joined
  refine ⟨?_, ?_, ?_, ?_⟩
  · simp only [joined, ofChunks, exists_assembled_iff, List.forall_mem_append]
  · intro front back frontAssembled backAssembled
    obtain ⟨frontSound, frontBytes⟩ := assemble_ok_inv frontAssembled
    obtain ⟨backSound, backBytes⟩ := assemble_ok_inv backAssembled
    have sound : ∀ chunk ∈ first ++ second, chunk.Sound .standard :=
      List.forall_mem_append.mpr ⟨frontSound, backSound⟩
    rw [frontBytes, backBytes, ← List.flatMap_append]
    exact ⟨assemble_of_sound sound, Chunk.totalLength_of_sound sound⟩
  · intro refused
    cases Chunk.sound_or_first_defect .standard (first ++ second) with
    | inl sound => exact absurd (exists_assembled_iff.mpr sound) refused
    | inr found =>
      obtain ⟨before, chunk, after, reason, split, sound, defect⟩ := found
      have outcome : joined = ⟨.error reason, [.chunkRefused chunk.code reason]⟩ := by
        simp only [joined, ofChunks, split, assemble_of_defect sound defect]
      refine ⟨before, chunk, after, reason, split, ?_, ?_, outcome, ?_⟩
      · intro earlier member buffer
        exact Chunk.appendTo_ok_iff.mpr (sound earlier member)
      · intro buffer
        rw [Chunk.appendTo_of_refused defect.encoding_eq]
      · rw [outcome]
        rfl
  · intro others same
    exact (assembleOnto_of_sameContent same []).symm

/-- Two bytes behind an operation that was read somewhere, and one byte behind a length of two
bytes, are assembled apart and joined. Behind the same chunks an opcode without its data is
refused, and the operation with data that follows it is never reached. Without its position
the operation is assembled as it was. -/
theorem ofChunks_append_two_bytes :
    let first : List Chunk := [⟨0x76, none, some 3⟩, ⟨0x02, some [0xaa, 0xbb], none⟩]
    let second : List Chunk := [⟨0x4d, some [0xcc], none⟩]
    let broken : List Chunk := [⟨0x05, none, none⟩, ⟨0x76, some [0xaa], none⟩]
    let unplaced : List Chunk := ⟨0x76, none, none⟩ :: ⟨0x02, some [0xaa, 0xbb], some 9⟩ :: second
    ((ofChunks first).value = .ok ⟨[0x76, 0x02, 0xaa, 0xbb]⟩ ∧
      (ofChunks second).value = .ok ⟨[0x4d, 0x01, 0x00, 0xcc]⟩ ∧
      ofChunks (first ++ second) = ⟨.ok ⟨[0x76, 0x02, 0xaa, 0xbb, 0x4d, 0x01, 0x00, 0xcc]⟩, []⟩ ∧
      Chunk.totalLength (first ++ second) = .ok 8) ∧
    ((¬∃ script, (ofChunks (first ++ broken)).value = .ok script) ∧
      ∃ before chunk after reason, first ++ broken = before ++ chunk :: after ∧
        (∀ buffer, (chunk.appendTo .standard buffer).outcome = .error reason) ∧
        ofChunks (first ++ broken) = ⟨.error reason, [.chunkRefused chunk.code reason]⟩) ∧
    (List.Forall₂ (fun chunk other => Chunk.sameContent chunk other = true)
        (first ++ second) unplaced ∧
      ofChunks unplaced = ofChunks (first ++ second)) := by
  intro first second broken unplaced
  obtain ⟨_, joined, _, alike⟩ := ofChunks_append first second
  obtain ⟨_, _, firstRefused, _⟩ := ofChunks_append first broken
  obtain ⟨assembled, measured⟩ := joined _ _ rfl rfl
  have refused : ¬∃ script, (ofChunks (first ++ broken)).value = .ok script := by
    rintro ⟨script, whole⟩
    cases whole
  obtain ⟨before, chunk, after, reason, split, _, outcome, result, _⟩ := firstRefused refused
  have same : List.Forall₂ (fun chunk other => Chunk.sameContent chunk other = true)
      (first ++ second) unplaced := .cons rfl (.cons rfl (.cons rfl .nil))
  exact ⟨⟨rfl, rfl, assembled, measured⟩,
    ⟨refused, before, chunk, after, reason, split, outcome, result⟩, same, alike unplaced same⟩

end Script

end CoinScript
