import CoinScript.Proofs.Layout
import CoinScript.Script.Reader

/-!
# Runs of a reader

At every position that has bytes, either a frame begins or there is exactly one
refusal, with its own error and its own reports. A run is what follows from that:
frame after frame up to the end of the bytes or to the first refusal, which ends
it. A run does not mention the reader's state.

From every position there is one run, and it is what a reader yields and reports.
Laws of whole readings are inductions over runs, and what one step can do is said
here once.
-/

namespace CoinScript

namespace Chunk

/-- Why no frame begins at the position, in the order in which it is found out.
Only bytes that are missing are reported. -/
inductive Refusal (rules : Rules) (start : Nat) :
    Bytes → ScriptError → List ScriptEvent → Prop where
  | lengthMissing {code : Opcode} {rest : Bytes} (pushes : code.isOperation = false)
      (short : rest.length < code.lengthSize) :
      Refusal rules start (code :: rest) (.truncatedPush start) [.pushTruncated start]
  | tooLong {code : Opcode} {digits rest : Bytes} (pushes : code.isOperation = false)
      (sized : digits.length = code.lengthSize)
      (beyond : code.maxLength rules < code.statedLength digits) :
      Refusal rules start (code :: (digits ++ rest))
        (.pushTooLong code (code.statedLength digits) (code.maxLength rules)) []
  | dataMissing {code : Opcode} {digits rest : Bytes} (pushes : code.isOperation = false)
      (sized : digits.length = code.lengthSize)
      (limited : code.statedLength digits ≤ code.maxLength rules)
      (short : rest.length < code.statedLength digits) :
      Refusal rules start (code :: (digits ++ rest)) (.truncatedPush start) [.pushTruncated start]
  | notShortest {code : Opcode} {digits data rest : Bytes} (pushes : code.isOperation = false)
      (sized : digits.length = code.lengthSize)
      (stated : code.statedLength digits = data.length)
      (limited : data.length ≤ code.maxLength rules) (demanded : rules.minimalPush = true)
      (longer : code ≠ minimalPushOpcode data) :
      Refusal rules start (code :: (digits ++ (data ++ rest))) (.nonMinimalPush start) []

/-- Only where there are bytes can a frame be refused. -/
theorem Refusal.ne_nil {rules : Rules} {start : Nat} {unread : Bytes} {reason : ScriptError}
    {log : List ScriptEvent} (refusal : Refusal rules start unread reason log) : unread ≠ [] := by
  cases refusal <;> exact List.cons_ne_nil _ _

/-- At least so many bytes can be split after that number. -/
theorem exists_split {count : Nat} {bytes : Bytes} (enough : count ≤ bytes.length) :
    ∃ front rest, bytes = front ++ rest ∧ front.length = count :=
  ⟨bytes.take count, bytes.drop count, (List.take_append_drop count bytes).symm,
    List.length_take_of_le enough⟩

/-- Where there are bytes, a frame begins or there is a reason why none does. The
cases are asked in the order of the layout: the opcode, the stated length, its
limit, the data, and last the encoding rule. -/
theorem frame_or_refusal (rules : Rules) (start : Nat) (code : Opcode) (rest : Bytes) :
    (∃ bytes others chunk, code :: rest = bytes ++ others ∧ Frame rules start bytes chunk) ∨
      ∃ reason log, Refusal rules start (code :: rest) reason log := by
  by_cases alone : code.isOperation = true
  · exact .inl ⟨[code], rest, _, rfl, .operation alone⟩
  have pushes : code.isOperation = false := Bool.eq_false_iff.mpr alone
  by_cases short : rest.length < code.lengthSize
  · exact .inr ⟨_, _, .lengthMissing pushes short⟩
  obtain ⟨digits, behind, rfl, sized⟩ := exists_split (Nat.le_of_not_lt short)
  by_cases beyond : code.maxLength rules < code.statedLength digits
  · exact .inr ⟨_, _, .tooLong pushes sized beyond⟩
  have limited : code.statedLength digits ≤ code.maxLength rules := Nat.le_of_not_lt beyond
  by_cases missing : behind.length < code.statedLength digits
  · exact .inr ⟨_, _, .dataMissing pushes sized limited missing⟩
  obtain ⟨data, others, rfl, counted⟩ := exists_split (Nat.le_of_not_lt missing)
  have within : data.length ≤ code.maxLength rules := counted ▸ limited
  by_cases refused : rules.minimalPush = true ∧ code ≠ minimalPushOpcode data
  · exact .inr ⟨_, _, .notShortest pushes sized counted.symm within refused.1 refused.2⟩
  · refine .inl ⟨code :: (digits ++ data), others, _, by simp, .push pushes sized counted.symm
      within ?_⟩
    intro demanded
    exact Decidable.byContradiction fun longer => refused ⟨demanded, longer⟩

end Chunk

namespace Cursor

variable {rules : Rules} {start offset count : Nat} {code : Opcode}

/-- Bytes that are there are taken. -/
theorem take_append {front : Bytes} (counted : front.length = count) (rest : Bytes) :
    take ⟨offset, front ++ rest⟩ start count = ⟨.ok front, ⟨offset + count, rest⟩, []⟩ := by
  have taken : Bytes.splitExact? count (front ++ rest) = some (front, rest) :=
    Bytes.splitExact?_eq_some_iff.mpr ⟨rfl, counted⟩
  simp only [take, taken]

/-- A shortage takes nothing and is reported. -/
theorem take_short {unread : Bytes} (short : unread.length < count) :
    take ⟨offset, unread⟩ start count =
      ⟨.error (.truncatedPush start), ⟨offset, unread⟩, [.pushTruncated start]⟩ := by
  have refused : Bytes.splitExact? count unread = none := Bytes.splitExact?_eq_none_iff.mpr short
  simp only [take, refused]

/-- Every push is read in one way. A direct push takes no bytes for its length,
and its length is never beyond its own limit. -/
theorem takeChunk_push (pushes : code.isOperation = false) (cursor : Cursor) :
    cursor.takeChunk rules code start =
      (cursor.take start code.lengthSize).andThen fun digits later =>
        if code.statedLength digits ≤ code.maxLength rules then
          later.takePush rules code start (code.statedLength digits)
        else
          ⟨.error (.pushTooLong code (code.statedLength digits) (code.maxLength rules)),
            later, []⟩ := by
  rcases Opcode.push_cases pushes with short | ⟨width, rfl⟩
  · have nothing : cursor.take start 0 = ⟨.ok [], cursor, []⟩ :=
      take_append (show List.length [] = 0 from rfl) cursor.unread
    simp [takeChunk, Opcode.shape_of_le short, Opcode.lengthSize_of_le short,
      Opcode.statedLength_of_le short, Opcode.maxLength_of_le short, nothing, Reading.andThen]
  · simp only [takeChunk, takeAnnounced, Opcode.shape_opcode, Opcode.lengthSize_opcode,
      Opcode.statedLength_opcode, Opcode.maxLength_opcode]

/-- A push is held to its shortest encoding exactly when the rules demand it. That
its minimality is unknown never comes up, since every opcode that calls for data
is one of the pushes. -/
theorem accept_push (pushes : code.isOperation = false) (data : Bytes) :
    rules.accept start ⟨code, some data, some start⟩ =
      if rules.minimalPush = true ∧ code ≠ minimalPushOpcode data then
        .error (.nonMinimalPush start)
      else .ok ⟨code, some data, some start⟩ := by
  unfold Rules.accept
  rw [Chunk.isMinimal_push pushes]
  cases rules.minimalPush with
  | false => simp
  | true =>
    by_cases shortest : code = minimalPushOpcode data
    · simp [shortest]
    · simp [shortest]

/-- Where a frame begins, its chunk is read and the cursor is behind it. -/
theorem readChunk?_of_frame {bytes : Bytes} {chunk : Chunk}
    (frame : Chunk.Frame rules start bytes chunk) (rest : Bytes) :
    readChunk? rules ⟨start, bytes ++ rest⟩ =
      some ⟨.ok chunk, ⟨start + bytes.length, rest⟩, []⟩ := by
  cases frame with
  | @operation code alone =>
    have shaped : code.shape = .alone := Opcode.shape_eq_alone_iff.mpr alone
    simp [readChunk?, takeChunk, shaped]
  | @push code digits data pushes sized stated limited shortest =>
    have accepted : ¬(rules.minimalPush = true ∧ code ≠ minimalPushOpcode data) :=
      fun refused => refused.2 (shortest refused.1)
    have behind : start + 1 + code.lengthSize + data.length =
        start + (code :: (digits ++ data)).length := by
      simp only [List.length_cons, List.length_append, sized]
      omega
    simp only [readChunk?, List.cons_append, List.append_assoc]
    rw [takeChunk_push pushes, take_append sized]
    simp only [Reading.andThen, stated, if_pos limited, takePush, List.nil_append]
    rw [take_append rfl]
    simp only [accept_push pushes, if_neg accepted, behind, List.nil_append]

/-- Where a frame is refused, its error and its reports are given. -/
theorem readChunk?_of_refusal {unread : Bytes} {reason : ScriptError} {log : List ScriptEvent}
    (refusal : Chunk.Refusal rules start unread reason log) :
    ∃ later, readChunk? rules ⟨start, unread⟩ = some ⟨.error reason, later, log⟩ := by
  cases refusal with
  | lengthMissing pushes short =>
    simp only [readChunk?]
    rw [takeChunk_push pushes, take_short short]
    exact ⟨_, rfl⟩
  | tooLong pushes sized beyond =>
    simp only [readChunk?]
    rw [takeChunk_push pushes, take_append sized]
    simp only [Reading.andThen, if_neg (Nat.not_le_of_lt beyond)]
    exact ⟨_, rfl⟩
  | dataMissing pushes sized limited short =>
    simp only [readChunk?]
    rw [takeChunk_push pushes, take_append sized]
    simp only [Reading.andThen, if_pos limited, takePush]
    rw [take_short short]
    exact ⟨_, rfl⟩
  | notShortest pushes sized stated limited demanded longer =>
    simp only [readChunk?]
    rw [takeChunk_push pushes, take_append sized]
    simp only [Reading.andThen, stated, if_pos limited, takePush]
    rw [take_append rfl]
    simp only [accept_push pushes, if_pos (And.intro demanded longer)]
    exact ⟨_, rfl⟩

end Cursor

/-- What a reader yields and reports from a position on, the bytes from there being
given. It goes from frame to frame, and a refusal is the last thing it meets. -/
inductive Run (rules : Rules) : Nat → Bytes → List Item → List ScriptEvent → Prop where
  | ended (start : Nat) : Run rules start [] [] []
  | yielded {start : Nat} {bytes rest : Bytes} {chunk : Chunk} {items : List Item}
      {log : List ScriptEvent} (frame : Chunk.Frame rules start bytes chunk)
      (others : Run rules (start + bytes.length) rest items log) :
      Run rules start (bytes ++ rest) (.ok chunk :: items) log
  | refused {start : Nat} {unread : Bytes} {reason : ScriptError} {log : List ScriptEvent}
      (refusal : Chunk.Refusal rules start unread reason log) :
      Run rules start unread [.error reason] log

/-- The bytes from the position are the frames of the chunks, one behind the other. -/
inductive Frames (rules : Rules) : Nat → Bytes → List Chunk → Prop where
  | nil (start : Nat) : Frames rules start [] []
  | cons {start : Nat} {bytes rest : Bytes} {chunk : Chunk} {chunks : List Chunk}
      (frame : Chunk.Frame rules start bytes chunk)
      (others : Frames rules (start + bytes.length) rest chunks) :
      Frames rules start (bytes ++ rest) (chunk :: chunks)

namespace Reader

variable {rules : Rules} {cursor later : Cursor} {log : List ScriptEvent}

/-- A chunk stands in front of what is read behind it. -/
theorem drain_of_chunk {chunk : Chunk}
    (attempted : cursor.readChunk? rules = some ⟨.ok chunk, later, log⟩) :
    (drain ⟨rules, cursor, false⟩).items = .ok chunk :: (drain ⟨rules, later, false⟩).items ∧
      (drain ⟨rules, cursor, false⟩).log = log ++ (drain ⟨rules, later, false⟩).log := by
  have asked : next ⟨rules, cursor, false⟩ = ⟨some (.ok chunk), log, ⟨rules, later, false⟩⟩ := by
    simp [next, attempted, Except.isOk, Except.toBool]
  have yielded : (next ⟨rules, cursor, false⟩).item = some (.ok chunk) := by rw [asked]
  rw [drain_of_some yielded, asked]
  exact ⟨rfl, rfl⟩

/-- An error is the last item, for the reader is stopped behind it. -/
theorem drain_of_error {reason : ScriptError}
    (attempted : cursor.readChunk? rules = some ⟨.error reason, later, log⟩) :
    (drain ⟨rules, cursor, false⟩).items = [.error reason] ∧
      (drain ⟨rules, cursor, false⟩).log = log := by
  have asked : next ⟨rules, cursor, false⟩ =
      ⟨some (.error reason), log, ⟨rules, later, true⟩⟩ := by
    simp [next, attempted, Except.isOk, Except.toBool]
  have yielded : (next ⟨rules, cursor, false⟩).item = some (.error reason) := by rw [asked]
  have ended : drain ⟨rules, later, true⟩ = ⟨[], [], ⟨rules, later, true⟩⟩ := drain_of_none rfl
  rw [drain_of_some yielded, asked, ended]
  exact ⟨rfl, List.append_nil log⟩

end Reader

namespace Run

variable {rules : Rules} {start : Nat} {unread : Bytes} {items : List Item}
  {log : List ScriptEvent}

/-- A run is what the reader yields and reports from its position on. -/
theorem drain_eq (run : Run rules start unread items log) :
    (Reader.drain ⟨rules, ⟨start, unread⟩, false⟩).items = items ∧
      (Reader.drain ⟨rules, ⟨start, unread⟩, false⟩).log = log := by
  induction run with
  | ended start =>
    have ended : Reader.drain ⟨rules, ⟨start, []⟩, false⟩ = ⟨[], [], ⟨rules, ⟨start, []⟩, false⟩⟩ :=
      Reader.drain_of_none rfl
    rw [ended]
    exact ⟨rfl, rfl⟩
  | yielded frame others inductionHypothesis =>
    obtain ⟨sameItems, sameLog⟩ := Reader.drain_of_chunk (Cursor.readChunk?_of_frame frame _)
    rw [sameItems, sameLog, inductionHypothesis.1, inductionHypothesis.2]
    exact ⟨rfl, rfl⟩
  | refused refusal =>
    obtain ⟨later, attempted⟩ := Cursor.readChunk?_of_refusal refusal
    exact Reader.drain_of_error attempted

/-- From every position there is a run. The induction is on the number of bytes
left, which every frame makes smaller. -/
theorem exists_run (rules : Rules) (start : Nat) (unread : Bytes) :
    ∃ items log, Run rules start unread items log := by
  induction counted : unread.length using Nat.strongRecOn generalizing start unread with
  | ind count inductionHypothesis =>
    cases unread with
    | nil => exact ⟨[], [], .ended start⟩
    | cons code rest =>
      rcases Chunk.frame_or_refusal rules start code rest with
        ⟨bytes, others, chunk, joined, frame⟩ | ⟨reason, log, refusal⟩
      · have fewer : others.length < count := by
          have total := congrArg List.length joined
          have positive := frame.length_pos
          simp only [List.length_append] at total
          omega
        obtain ⟨items, log, run⟩ :=
          inductionHypothesis others.length fewer (start + bytes.length) others rfl
        exact ⟨.ok chunk :: items, log, joined ▸ .yielded frame run⟩
      · exact ⟨[.error reason], log, .refused refusal⟩

/-- A run without items has met no bytes. -/
theorem nil_inv (run : Run rules start unread [] log) : unread = [] := by
  cases run
  rfl

/-- A run that begins with a chunk begins with the chunk's frame. -/
theorem chunk_inv {chunk : Chunk} (run : Run rules start unread (.ok chunk :: items) log) :
    ∃ bytes rest, unread = bytes ++ rest ∧ Chunk.Frame rules start bytes chunk ∧
      Run rules (start + bytes.length) rest items log := by
  cases run with
  | yielded frame others => exact ⟨_, _, rfl, frame, others⟩

/-- A run that begins with an error begins with its refusal and ends there. -/
theorem error_inv {reason : ScriptError}
    (run : Run rules start unread (.error reason :: items) log) :
    items = [] ∧ Chunk.Refusal rules start unread reason log := by
  cases run with
  | refused refusal => exact ⟨rfl, refusal⟩

/-- A run consists of frames, and ends with the bytes or is refused behind the last
frame. -/
theorem frames (run : Run rules start unread items log) :
    ∃ chunks bytes rest, unread = bytes ++ rest ∧ Frames rules start bytes chunks ∧
      ((rest = [] ∧ items = chunks.map .ok ∧ log = []) ∨
        ∃ reason, items = chunks.map .ok ++ [.error reason] ∧
          Chunk.Refusal rules (start + bytes.length) rest reason log) := by
  induction run with
  | ended start => exact ⟨[], [], [], rfl, .nil start, .inl ⟨rfl, rfl, rfl⟩⟩
  | @yielded start front others chunk items log frame run inductionHypothesis =>
    obtain ⟨chunks, bytes, rest, rfl, framed, outcome⟩ := inductionHypothesis
    refine ⟨chunk :: chunks, front ++ bytes, rest, (List.append_assoc ..).symm,
      .cons frame framed, ?_⟩
    rw [List.length_append, ← Nat.add_assoc]
    rcases outcome with ⟨nothing, rfl, silent⟩ | ⟨reason, rfl, refusal⟩
    · exact .inl ⟨nothing, rfl, silent⟩
    · exact .inr ⟨reason, rfl, refusal⟩
  | @refused start unread reason log refusal =>
    exact ⟨[], [], unread, rfl, .nil start, .inr ⟨reason, rfl, refusal⟩⟩

/-- A run without an error consists of frames up to the end of its bytes. -/
theorem frames_of_complete (run : Run rules start unread items log)
    (complete : ∀ reason, .error reason ∉ items) :
    ∃ chunks, items = chunks.map .ok ∧ Frames rules start unread chunks := by
  obtain ⟨chunks, bytes, rest, rfl, frames, outcome⟩ := run.frames
  rcases outcome with ⟨rfl, rfl, _⟩ | ⟨reason, rfl, _⟩
  · exact ⟨chunks, rfl, (List.append_nil bytes).symm ▸ frames⟩
  · exact absurd (by simp) (complete reason)

/-- A run that ends with an error consists of frames and of bytes that are refused
for the reason it gives. -/
theorem frames_of_error (run : Run rules start unread items log) {reason : ScriptError}
    (last : items.getLast? = some (.error reason)) :
    ∃ chunks bytes rest, items = chunks.map .ok ++ [.error reason] ∧ unread = bytes ++ rest ∧
      Frames rules start bytes chunks ∧
      Chunk.Refusal rules (start + bytes.length) rest reason log := by
  obtain ⟨chunks, bytes, rest, joined, frames, outcome⟩ := run.frames
  rcases outcome with ⟨_, rfl, _⟩ | ⟨found, rfl, refusal⟩
  · obtain ⟨chunk, _, impossible⟩ := List.mem_map.mp (List.mem_of_getLast? last)
    cases impossible
  · rw [List.getLast?_concat] at last
    cases last
    exact ⟨chunks, bytes, rest, rfl, joined, frames, refusal⟩

/-- Every chunk of a run has its frame somewhere in the run. -/
theorem frame_of_mem (run : Run rules start unread items log) {chunk : Chunk}
    (yielded : .ok chunk ∈ items) : ∃ position bytes, Chunk.Frame rules position bytes chunk := by
  induction run with
  | ended start => cases yielded
  | yielded frame others inductionHypothesis =>
    rcases List.mem_cons.mp yielded with first | later
    · cases first
      exact ⟨_, _, frame⟩
    · exact inductionHypothesis later
  | refused refusal =>
    rcases List.mem_singleton.mp yielded with ⟨⟩

/-- A run of chunks alone has met their frames and nothing else. -/
theorem frames_of_chunks {chunks : List Chunk} (run : Run rules start unread (chunks.map .ok) log) :
    Frames rules start unread chunks := by
  induction chunks generalizing start unread with
  | nil =>
    rw [run.nil_inv]
    exact .nil start
  | cons chunk chunks inductionHypothesis =>
    obtain ⟨bytes, rest, rfl, frame, others⟩ := run.chunk_inv
    exact .cons frame (inductionHypothesis others)

/-- Frames in front of a run are read before it: where they end depends on nothing
that comes behind them. -/
theorem of_frames {chunks : List Chunk} {bytes : Bytes} (frames : Frames rules start bytes chunks)
    (run : Run rules (start + bytes.length) unread items log) :
    Run rules start (bytes ++ unread) (chunks.map .ok ++ items) log := by
  induction frames with
  | nil start => exact run
  | @cons start front rest chunk chunks frame others inductionHypothesis =>
    rw [List.length_append, ← Nat.add_assoc] at run
    rw [List.append_assoc]
    exact .yielded frame (inductionHypothesis run)

/-- What a run from the beginning says is what reading the script gives. -/
theorem read_eq {script : Script} (run : Run rules 0 script.bytes items log) :
    (script.read rules).items = items ∧ (script.read rules).log = log := run.drain_eq

end Run

/-- Reading a script is the run from its beginning. -/
theorem Script.read_run (rules : Rules) (script : Script) :
    Run rules 0 script.bytes (script.read rules).items (script.read rules).log := by
  obtain ⟨items, log, run⟩ := Run.exists_run rules 0 script.bytes
  obtain ⟨rfl, rfl⟩ := run.read_eq
  exact run

end CoinScript
