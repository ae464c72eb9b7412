import CoinScript.Proofs.Run

/-!
# Scripts that are cut off

A script that can be read to its end is cut behind some number of its bytes. The cut
falls between two chunks or within one. The chunks in front of it are read as before.
Between two chunks nothing is missing. Within a chunk, which is then a push, bytes
are missing and nothing else is wrong: a length that is still there is within the
limit, and the encoding is not asked about before the data is complete. So the error
is the same wherever in the push the cut falls, and it names where the push begins.
-/

namespace CoinScript

namespace Chunk

/-- The position behind the chunk in the script that it was read from. -/
def finish (chunk : Chunk) : Except ScriptError Nat := do
  let start ← chunk.offset
  let length ← chunk.encodedLength
  pure (start + length)

/-- The chunk ends within so many bytes from the beginning of its script. -/
def endsWithin (count : Nat) (chunk : Chunk) : Bool :=
  match chunk.finish with
  | .ok finish => decide (finish ≤ count)
  | .error _ => false

/-- The chunk begins at `start` and takes up the position. -/
def Holds (chunk : Chunk) (start position : Nat) : Prop :=
  chunk.offset = .ok start ∧ start ≤ position ∧
    ∃ finish, chunk.finish = .ok finish ∧ position < finish

/-- The position is the beginning of the script or the end of one of its chunks. -/
def Boundary (chunks : List Chunk) (position : Nat) : Prop :=
  position = 0 ∨ ∃ chunk ∈ chunks, chunk.finish = .ok position

variable {rules : Rules} {start : Nat} {bytes front missing : Bytes} {chunk : Chunk}

/-- A framed chunk has its position. -/
theorem Frame.offset_eq (frame : Frame rules start bytes chunk) : chunk.offset = .ok start := by
  simp only [offset, frame.sourceOffset]

/-- A framed chunk ends where its frame does. -/
theorem Frame.finish_eq (frame : Frame rules start bytes chunk) :
    chunk.finish = .ok (start + bytes.length) := by
  simp only [finish, frame.offset_eq, length_of_encoding frame.encoding_eq]
  rfl

/-- The beginning of a frame is refused for want of bytes, whether the length or the
data is not all there. A length that is all there is the length of the whole push,
and therefore within the limit. -/
theorem Frame.refusal_of_append (frame : Frame rules start (front ++ missing) chunk)
    (begun : front ≠ []) (unfinished : missing ≠ []) :
    Refusal rules start front (.truncatedPush start) [.pushTruncated start] := by
  obtain ⟨code, behind, rfl⟩ := List.exists_cons_of_ne_nil begun
  generalize joined : code :: behind ++ missing = whole at frame
  cases frame with
  | operation alone =>
    obtain ⟨_, nothing⟩ := List.cons_eq_cons.mp joined
    exact absurd (List.append_eq_nil_iff.mp nothing).2 unfinished
  | @push _ digits data pushes sized stated limited shortest =>
    obtain ⟨rfl, behindIs⟩ := List.cons_eq_cons.mp joined
    by_cases short : behind.length < Opcode.lengthSize code
    · exact .lengthMissing pushes short
    -- Enough bytes are left to state the length, so these are its digits.
    have present : digits <+: behind := by
      refine List.prefix_of_prefix_length_le (List.prefix_append digits data) ?_ (by omega)
      exact ⟨missing, behindIs⟩
    obtain ⟨held, rfl⟩ := present
    have split : held ++ missing = data :=
      List.append_cancel_left ((List.append_assoc digits held missing).symm.trans behindIs)
    have lacking : 0 < missing.length := List.length_pos_iff.mpr unfinished
    refine .dataMissing pushes sized (stated ▸ limited) ?_
    rw [stated, ← split, List.length_append]
    omega

end Chunk

/-- Where a cut behind so many bytes falls in bytes that are the frames of chunks:
between two chunks, or within the bytes of one. -/
inductive Cut (rules : Rules) (start : Nat) : Bytes → List Chunk → Nat → Prop where
  | between {front back : Bytes} {kept lost : List Chunk} (before : Frames rules start front kept)
      (after : Frames rules (start + front.length) back lost) :
      Cut rules start (front ++ back) (kept ++ lost) front.length
  | within {front begun missing back : Bytes} {kept lost : List Chunk} {chunk : Chunk}
      (before : Frames rules start front kept)
      (frame : Chunk.Frame rules (start + front.length) (begun ++ missing) chunk)
      (after : Frames rules (start + front.length + (begun ++ missing).length) back lost)
      (entered : begun ≠ []) (unfinished : missing ≠ []) :
      Cut rules start (front ++ (begun ++ missing ++ back)) (kept ++ chunk :: lost)
        (front.length + begun.length)

namespace Cut

variable {rules : Rules} {start count : Nat} {bytes front rest : Bytes} {chunk : Chunk}
  {chunks : List Chunk}

/-- A cut behind a first frame falls where it does in the bytes after the frame. -/
theorem cons (frame : Chunk.Frame rules start front chunk)
    (others : Cut rules (start + front.length) rest chunks count) :
    Cut rules start (front ++ rest) (chunk :: chunks) (front.length + count) := by
  cases others with
  | @between middle back kept lost before after =>
    rw [Nat.add_assoc, ← List.length_append] at after
    rw [← List.append_assoc, ← List.length_append]
    exact .between (.cons frame before) after
  | @within middle begun missing back kept lost broken before within after entered unfinished =>
    rw [Nat.add_assoc start, ← List.length_append] at within after
    rw [← List.append_assoc, ← Nat.add_assoc, ← List.length_append]
    exact .within (.cons frame before) within after entered unfinished

end Cut

namespace Frames

variable {rules : Rules} {start count : Nat} {bytes : Bytes} {chunks : List Chunk}

/-- Every framed chunk lies between the ends of the bytes. -/
theorem bounds (frames : Frames rules start bytes chunks) {chunk : Chunk}
    (member : chunk ∈ chunks) :
    ∃ first last, chunk.offset = .ok first ∧ chunk.finish = .ok last ∧ start ≤ first ∧
      first < last ∧ last ≤ start + bytes.length := by
  induction frames with
  | nil start => cases member
  | cons frame others inductionHypothesis =>
    rw [List.length_append]
    rcases List.mem_cons.mp member with rfl | later
    · have positive := frame.length_pos
      exact ⟨_, _, frame.offset_eq, frame.finish_eq, by omega, by omega, by omega⟩
    · obtain ⟨first, last, begins, ends, _, _, _⟩ := inductionHypothesis later
      exact ⟨first, last, begins, ends, by omega, by omega, by omega⟩

/-- The end of the frames is their beginning or the end of a chunk. -/
theorem boundary (frames : Frames rules start bytes chunks) :
    bytes.length = 0 ∨ ∃ chunk ∈ chunks, chunk.finish = .ok (start + bytes.length) := by
  induction frames with
  | nil start => exact .inl rfl
  | @cons start front rest chunk chunks frame others inductionHypothesis =>
    rw [List.length_append, ← Nat.add_assoc]
    rcases inductionHypothesis with nothing | ⟨last, member, ends⟩
    · exact .inr ⟨chunk, List.mem_cons_self, by rw [frame.finish_eq, nothing, Nat.add_zero]⟩
    · exact .inr ⟨last, List.mem_cons_of_mem chunk member, ends⟩

/-- Chunks in front of a position end within it. -/
theorem filter_eq_self (frames : Frames rules start bytes chunks)
    (reached : start + bytes.length ≤ count) : chunks.filter (Chunk.endsWithin count) = chunks := by
  apply List.filter_eq_self.mpr
  intro chunk member
  obtain ⟨first, last, _, ends, _, _, _⟩ := frames.bounds member
  simp only [Chunk.endsWithin, ends, decide_eq_true_eq]
  omega

/-- Chunks from a position on do not end within it. -/
theorem filter_eq_nil (frames : Frames rules start bytes chunks) (early : count ≤ start) :
    chunks.filter (Chunk.endsWithin count) = [] := by
  apply List.filter_eq_nil_iff.mpr
  intro chunk member
  obtain ⟨first, last, _, ends, _, _, _⟩ := frames.bounds member
  simp only [Chunk.endsWithin, ends, decide_eq_true_eq]
  omega

end Frames

/-- Every cut of frames falls between two of the chunks or within one. The induction
is on the frames; a cut that is not behind the first frame is at its beginning or
within it. -/
theorem Frames.cut {rules : Rules} {start : Nat} {bytes : Bytes} {chunks : List Chunk}
    (frames : Frames rules start bytes chunks) {count : Nat} (inside : count ≤ bytes.length) :
    Cut rules start bytes chunks count := by
  induction frames generalizing count with
  | nil start =>
    have nothing : count = 0 := Nat.le_zero.mp inside
    subst nothing
    exact .between (.nil start) (.nil start)
  | @cons start front rest chunk chunks frame others inductionHypothesis =>
    by_cases behind : front.length ≤ count
    · obtain ⟨more, rfl⟩ := Nat.exists_eq_add_of_le behind
      rw [List.length_append] at inside
      exact .cons frame (inductionHypothesis (by omega))
    obtain ⟨begun, missing, rfl, counted⟩ := Chunk.exists_split (Nat.le_of_not_le behind)
    subst counted
    by_cases entered : begun = []
    · subst entered
      exact .between (.nil start) (.cons frame others)
    · have unfinished : missing ≠ [] := by
        rintro rfl
        simp at behind
      have first : Cut rules start ([] ++ (begun ++ missing ++ rest)) ([] ++ chunk :: chunks)
          (List.length (α := UInt8) [] + begun.length) :=
        .within (.nil start) frame others entered unfinished
      rw [List.length_nil, Nat.zero_add] at first
      exact first

/-- A chunk whose first and last positions are on one side of a position neither holds
the position nor ends there. -/
theorem Chunk.apart {chunk : Chunk} {first last position : Nat} (begins : chunk.offset = .ok first)
    (ends : chunk.finish = .ok last)
    (aside : last < position ∨ position < first ∧ position < last) :
    (∀ start, ¬chunk.Holds start position) ∧ chunk.finish ≠ .ok position := by
  constructor
  · rintro start ⟨sameStart, reached, finish, sameFinish, before⟩
    have startIs : first = start := Except.ok.inj (begins.symm.trans sameStart)
    have finishIs : last = finish := Except.ok.inj (ends.symm.trans sameFinish)
    omega
  · intro sameFinish
    have finishIs : last = position := Except.ok.inj (ends.symm.trans sameFinish)
    omega

/-- Of the chunks around one that is cut, no other holds the position of the cut or
ends there. -/
theorem Frames.apart {rules : Rules} {later position : Nat} {front back : Bytes}
    {kept lost : List Chunk} {chunk other : Chunk} (before : Frames rules 0 front kept)
    (after : Frames rules later back lost) (behind : front.length < position)
    (ahead : position < later) (member : other ∈ kept ++ chunk :: lost) :
    other = chunk ∨ (∀ start, ¬other.Holds start position) ∧ other.finish ≠ .ok position := by
  rcases List.mem_append.mp member with earlier | rest
  · obtain ⟨first, last, begins, ends, _, _, _⟩ := before.bounds earlier
    exact .inr (Chunk.apart begins ends (.inl (by omega)))
  · rcases List.mem_cons.mp rest with same | following
    · exact .inl same
    · obtain ⟨first, last, begins, ends, _, _, _⟩ := after.bounds following
      exact .inr (Chunk.apart begins ends (.inr (by omega)))

/-- A cut between two chunks is a boundary, and the chunks before it are read. -/
theorem Frames.run_between {rules : Rules} {front back : Bytes} {kept lost : List Chunk}
    (before : Frames rules 0 front kept) (after : Frames rules (0 + front.length) back lost) :
    Chunk.Boundary (kept ++ lost) front.length ∧
      Run rules 0 front (((kept ++ lost).filter (Chunk.endsWithin front.length)).map .ok) [] := by
  have filtered : (kept ++ lost).filter (Chunk.endsWithin front.length) = kept := by
    rw [List.filter_append, before.filter_eq_self (by omega), after.filter_eq_nil (by omega),
      List.append_nil]
  rw [filtered]
  constructor
  · rcases before.boundary with nothing | ⟨chunk, member, ends⟩
    · exact .inl nothing
    · rw [Nat.zero_add] at ends
      exact .inr ⟨chunk, List.mem_append_left lost member, ends⟩
  · have whole := Run.of_frames before (.ended (0 + front.length))
    rw [List.append_nil, List.append_nil] at whole
    exact whole

/-- A cut within a chunk is no boundary. The chunks before that chunk are read, and it
is refused for want of bytes. -/
theorem Frames.run_within {rules : Rules} {front begun missing back : Bytes}
    {kept lost : List Chunk} {chunk : Chunk} (before : Frames rules 0 front kept)
    (frame : Chunk.Frame rules (0 + front.length) (begun ++ missing) chunk)
    (after : Frames rules (0 + front.length + (begun ++ missing).length) back lost)
    (entered : begun ≠ []) (unfinished : missing ≠ []) :
    let count := front.length + begun.length
    ¬Chunk.Boundary (kept ++ chunk :: lost) count ∧ chunk.Holds front.length count ∧
      (∀ other ∈ kept ++ chunk :: lost, ∀ first, other.Holds first count → other = chunk) ∧
      Run rules 0 (front ++ begun)
        (((kept ++ chunk :: lost).filter (Chunk.endsWithin count)).map .ok ++
          [.error (.truncatedPush front.length)]) [.pushTruncated front.length] := by
  intro count
  have positive : 0 < begun.length := List.length_pos_iff.mpr entered
  have lacking : 0 < missing.length := List.length_pos_iff.mpr unfinished
  have whole : (begun ++ missing).length = begun.length + missing.length := List.length_append
  have begins := frame.offset_eq
  have ends := frame.finish_eq
  have apart {other : Chunk} (member : other ∈ kept ++ chunk :: lost) :=
    before.apart after (show front.length < count by omega) (by omega) member
  have filtered : (kept ++ chunk :: lost).filter (Chunk.endsWithin count) = kept := by
    have unended : ¬0 + front.length + (begun ++ missing).length ≤ count := by omega
    rw [List.filter_append, before.filter_eq_self (by omega), List.filter_cons_of_neg,
      after.filter_eq_nil (by omega), List.append_nil]
    simp only [Chunk.endsWithin, ends, decide_eq_true_eq, unended, not_false_eq_true]
  rw [filtered]
  refine ⟨?_, ⟨?_, by omega, _, ends, by omega⟩, ?_, ?_⟩
  · rintro (nothing | ⟨other, member, sameEnd⟩)
    · omega
    -- The chunk that is cut ends behind the cut, and no other chunk ends at it.
    · rcases apart member with rfl | ⟨_, notEnd⟩
      · have wrong := Except.ok.inj (ends.symm.trans sameEnd)
        omega
      · exact notEnd sameEnd
  · rw [begins, Nat.zero_add]
  · intro other member first holds
    rcases apart member with same | ⟨outside, _⟩
    · exact same
    · exact absurd holds (outside first)
  · have refusal := frame.refusal_of_append entered unfinished
    rw [← Nat.zero_add front.length]
    exact .of_frames before (.refused refusal)

/-- What a run up to a cut yields, and whether the cut is a boundary. -/
theorem Cut.run {rules : Rules} {bytes : Bytes} {chunks : List Chunk} {count : Nat}
    (cut : Cut rules 0 bytes chunks count) :
    let kept := chunks.filter (Chunk.endsWithin count)
    (Chunk.Boundary chunks count ∧ Run rules 0 (bytes.take count) (kept.map .ok) []) ∨
    (¬Chunk.Boundary chunks count ∧ ∃ chunk ∈ chunks, ∃ start, chunk.Holds start count ∧
      (∀ other ∈ chunks, ∀ first, other.Holds first count → other = chunk) ∧
      Run rules 0 (bytes.take count) (kept.map .ok ++ [.error (.truncatedPush start)])
        [.pushTruncated start]) := by
  cases cut with
  | between before after =>
    rw [List.take_left]
    exact .inl (before.run_between after)
  | @within front begun missing back kept lost chunk before frame after entered unfinished =>
    obtain ⟨elsewhere, holds, unique, run⟩ := before.run_within frame after entered unfinished
    have taken : (front ++ (begun ++ missing ++ back)).take (front.length + begun.length) =
        front ++ begun := by
      rw [List.append_assoc, ← List.append_assoc, ← List.length_append, List.take_left]
    rw [taken]
    exact .inr ⟨elsewhere, chunk, by simp, front.length, holds, unique, run⟩

/-- A script that can be read to its end, cut behind any number of its bytes. The
chunks that end within the cut are read as they were. If the cut is the beginning of
the script or the end of a chunk, that is all. Otherwise it falls within one chunk,
and the cut script has one more item, an error for want of bytes that names where
this chunk begins, whatever the rules ask of the complete push.

Proof: the script is the frames of its chunks, and the cut falls between two of them
or within one. -/
theorem read_take {rules : Rules} {script : Script} {chunks : List Chunk}
    (readable : (script.read rules).chunks = .ok chunks) {count : Nat}
    (inside : count ≤ script.size) :
    let cut : Script := ⟨script.bytes.take count⟩
    let kept := chunks.filter (Chunk.endsWithin count)
    (Chunk.Boundary chunks count → (cut.read rules).items = kept.map .ok) ∧
    (¬Chunk.Boundary chunks count → ∃ chunk ∈ chunks, ∃ start, chunk.Holds start count ∧
      (∀ other ∈ chunks, ∀ first, other.Holds first count → other = chunk) ∧
      (cut.read rules).items = kept.map .ok ++ [.error (.truncatedPush start)]) := by
  intro cut kept
  have whole := script.read_run rules
  rw [Transcript.chunks_eq_ok_iff.mp readable] at whole
  rcases (whole.frames_of_chunks.cut inside).run with
    ⟨boundary, run⟩ | ⟨elsewhere, chunk, member, start, holds, unique, run⟩
  · exact ⟨fun _ => run.read_eq.1, fun other => absurd boundary other⟩
  · exact ⟨fun boundary => absurd boundary elsewhere,
      fun _ => ⟨chunk, member, start, holds, unique, run.read_eq.1⟩⟩

/-- A push with a four-byte length, cut within the length and behind its data. -/
theorem read_take_four_bytes :
    let script : Script := ⟨[0x76, 0x4e, 0x02, 0x00, 0x00, 0x00, 0xaa, 0xbb, 0x51]⟩
    let chunks : List Chunk := [⟨0x76, none, some 0⟩, ⟨0x4e, some [0xaa, 0xbb], some 1⟩,
      ⟨0x51, none, some 8⟩]
    (script.read .relaxed).chunks = .ok chunks ∧ 4 ≤ script.size ∧ 8 ≤ script.size ∧
    (¬Chunk.Boundary chunks 4 ∧ ∃ chunk ∈ chunks, ∃ start, chunk.Holds start 4 ∧
      (∀ other ∈ chunks, ∀ first, other.Holds first 4 → other = chunk) ∧
      (Script.read .relaxed ⟨script.bytes.take 4⟩).items =
        (chunks.filter (Chunk.endsWithin 4)).map .ok ++ [.error (.truncatedPush start)]) ∧
    (Chunk.Boundary chunks 8 ∧ (Script.read .relaxed ⟨script.bytes.take 8⟩).items =
      (chunks.filter (Chunk.endsWithin 8)).map .ok) := by
  intro script chunks
  have readable : (script.read .relaxed).chunks = .ok chunks :=
    Transcript.chunks_eq_ok_iff.mpr (by cbv)
  have ends : chunks.map Chunk.finish = [.ok 1, .ok 8, .ok 9] := rfl
  have elsewhere : ¬Chunk.Boundary chunks 4 := by
    rintro (nothing | ⟨chunk, member, finish⟩)
    · cases nothing
    · have listed : .ok 4 ∈ chunks.map Chunk.finish := List.mem_map.mpr ⟨chunk, member, finish⟩
      simp [ends] at listed
  have boundary : Chunk.Boundary chunks 8 :=
    .inr ⟨⟨0x4e, some [0xaa, 0xbb], some 1⟩, by simp [chunks], rfl⟩
  exact ⟨readable, by decide, by decide,
    ⟨elsewhere, (read_take readable (by decide)).2 elsewhere⟩,
    boundary, (read_take readable (by decide)).1 boundary⟩

end CoinScript
