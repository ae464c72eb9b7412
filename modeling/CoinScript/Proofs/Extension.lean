import CoinScript.Proofs.RoundTrip

/-!
# Scripts with more bytes behind them

Where a chunk ends does not depend on the bytes behind it. So a script that can be
read to its end is read in the same way when more bytes follow, and these are read
as they are by themselves, only at later positions.

An error is permanent when it is found in bytes that are there: a length beyond the
limit, or an encoding that is not the shortest. No further bytes change it. A push
that is cut off may still be completed; then only the chunks before it are kept.
-/

namespace CoinScript

/-- The error as it is met so many bytes further into a script. -/
def ScriptError.moved (distance : Nat) : ScriptError → ScriptError
  | .truncatedPush offset => .truncatedPush (offset + distance)
  | .nonMinimalPush offset => .nonMinimalPush (offset + distance)
  | reason => reason

/-- The event as it is reported so many bytes further into a script. -/
def ScriptEvent.moved (distance : Nat) : ScriptEvent → ScriptEvent
  | .pushTruncated offset => .pushTruncated (offset + distance)
  | .chunkRefused code reason => .chunkRefused code (reason.moved distance)

/-- The chunk as it is read so many bytes further into a script. -/
def Chunk.moved (distance : Nat) (chunk : Chunk) : Chunk :=
  { chunk with sourceOffset := chunk.sourceOffset.map (· + distance) }

/-- The item as it is yielded so many bytes further into a script. -/
def Item.moved (distance : Nat) : Item → Item
  | .ok chunk => .ok (chunk.moved distance)
  | .error reason => .error (reason.moved distance)

namespace Chunk

variable {rules : Rules} {start distance : Nat} {bytes unread : Bytes} {chunk : Chunk}
  {reason : ScriptError} {log : List ScriptEvent}

/-- The bytes of a chunk are a frame at every position. -/
theorem Frame.moved (frame : Frame rules start bytes chunk) (distance : Nat) :
    Frame rules (start + distance) bytes (chunk.moved distance) := by
  cases frame with
  | operation alone => exact .operation alone
  | push pushes sized stated limited shortest => exact .push pushes sized stated limited shortest

/-- Bytes are refused at every position for the same reason. -/
theorem Refusal.moved (refusal : Refusal rules start unread reason log) (distance : Nat) :
    Refusal rules (start + distance) unread (reason.moved distance)
      (log.map (ScriptEvent.moved distance)) := by
  cases refusal with
  | lengthMissing pushes short => exact .lengthMissing pushes short
  | tooLong pushes sized beyond => exact .tooLong pushes sized beyond
  | dataMissing pushes sized limited short => exact .dataMissing pushes sized limited short
  | notShortest pushes sized stated limited demanded longer =>
    exact .notShortest pushes sized stated limited demanded longer

/-- A refusal that is not for want of bytes stays when more bytes follow. -/
theorem Refusal.append (refusal : Refusal rules start unread reason log)
    (permanent : ∀ offset, reason ≠ .truncatedPush offset) (more : Bytes) :
    Refusal rules start (unread ++ more) reason log := by
  cases refusal with
  | lengthMissing pushes short => exact absurd rfl (permanent start)
  | tooLong pushes sized beyond =>
    rw [List.cons_append, List.append_assoc]
    exact .tooLong pushes sized beyond
  | dataMissing pushes sized limited short => exact absurd rfl (permanent start)
  | notShortest pushes sized stated limited demanded longer =>
    rw [List.cons_append, List.append_assoc, List.append_assoc]
    exact .notShortest pushes sized stated limited demanded longer

end Chunk

namespace Run

variable {rules : Rules} {start : Nat} {unread : Bytes} {items : List Item}
  {log : List ScriptEvent}

/-- Bytes that are met further on give the same run further on. -/
theorem moved (run : Run rules start unread items log) (distance : Nat) :
    Run rules (start + distance) unread (items.map (Item.moved distance))
      (log.map (ScriptEvent.moved distance)) := by
  induction run with
  | ended start => exact .ended (start + distance)
  | yielded frame others inductionHypothesis =>
    rw [Nat.add_right_comm] at inductionHypothesis
    exact .yielded (frame.moved distance) inductionHypothesis
  | refused refusal => exact .refused (refusal.moved distance)

end Run

/-- What reading a script gives when more bytes follow it. If it could be read to its
end, the items of the bytes behind it follow, at positions later by its size. If it
ended with an error for another reason than a want of bytes, nothing changes. The
chunks found in it are in any case the first ones found.

Proof: the frames of the script are frames of the longer one. Behind them comes the
run of the further bytes, moved by the size, or the refusal, which stays when it is
permanent. -/
theorem read_append (rules : Rules) (script more : Script) :
    let joined : Script := ⟨script.bytes ++ more.bytes⟩
    ((∀ reason, .error reason ∉ (script.read rules).items) →
      (joined.read rules).items =
        (script.read rules).items ++ (more.read rules).items.map (Item.moved script.size)) ∧
    (∀ reason, (script.read rules).items.getLast? = some (.error reason) →
      (∀ offset, reason ≠ .truncatedPush offset) →
      (joined.read rules).items = (script.read rules).items) ∧
    (script.read rules).found <+: (joined.read rules).found := by
  intro joined
  have run := script.read_run rules
  refine ⟨?_, ?_, ?_⟩
  · intro complete
    obtain ⟨chunks, items, frames⟩ := run.frames_of_complete complete
    have behind := (more.read_run rules).moved script.size
    rw [items]
    exact (Run.of_frames frames behind).read_eq.1
  · intro reason last permanent
    obtain ⟨chunks, bytes, rest, items, split, frames, refusal⟩ := run.frames_of_error last
    have extended : Run rules 0 joined.bytes (chunks.map .ok ++ [.error reason])
        (script.read rules).log := by
      simp only [joined, split, List.append_assoc]
      exact .of_frames frames (.refused (refusal.append permanent more.bytes))
    rw [items]
    exact extended.read_eq.1
  · obtain ⟨bytes, rest, split, frames, _⟩ := run.frames_found
    -- Whether the refused bytes are completed or not, there is some run behind the frames.
    obtain ⟨others, log, behind⟩ := Run.exists_run rules (0 + bytes.length) (rest ++ more.bytes)
    have extended : Run rules 0 joined.bytes ((script.read rules).found.map .ok ++ others) log := by
      simp only [joined, split, List.append_assoc]
      exact .of_frames frames behind
    refine ⟨others.filterMap Except.toOption, ?_⟩
    rw [Transcript.found, Transcript.found, extended.read_eq.1, List.filterMap_append,
      filterMap_toOption]
    rfl

/-- Behind a script that is read to its end, a push that is cut off is cut off as well,
four bytes later. A push in a longer form than the shortest stays the end of the
reading. A push that was cut off is completed, and the duplication before it is kept. -/
theorem read_append_cut :
    let whole : Script := ⟨[0x76, 0x02, 0xaa, 0xbb]⟩
    let long : Script := ⟨[0x76, 0x4c, 0x02, 0xaa, 0xbb]⟩
    let cut : Script := ⟨[0x76, 0x02, 0xaa]⟩
    let more : Script := ⟨[0x02, 0xbb]⟩
    ((∀ reason, .error reason ∉ (whole.read .standard).items) ∧
      (more.read .standard).items = [.error (.truncatedPush 0)] ∧
      (Script.read .standard ⟨whole.bytes ++ more.bytes⟩).items =
        (whole.read .standard).items ++
          (more.read .standard).items.map (Item.moved whole.size)) ∧
    ((long.read .standard).items.getLast? = some (.error (.nonMinimalPush 1)) ∧
      (Script.read .standard ⟨long.bytes ++ more.bytes⟩).items = (long.read .standard).items) ∧
    (cut.read .standard).items = [.ok ⟨0x76, none, some 0⟩, .error (.truncatedPush 1)] ∧
      (cut.read .standard).found <+: (Script.read .standard ⟨cut.bytes ++ more.bytes⟩).found := by
  intro whole long cut more
  have wholeItems : (whole.read .standard).items = [.ok ⟨0x76, none, some 0⟩,
      .ok ⟨0x02, some [0xaa, 0xbb], some 1⟩] := by cbv
  have moreItems : (more.read .standard).items = [.error (.truncatedPush 0)] := by cbv
  have longItems : (long.read .standard).items = [.ok ⟨0x76, none, some 0⟩,
      .error (.nonMinimalPush 1)] := by cbv
  have cutItems : (cut.read .standard).items = [.ok ⟨0x76, none, some 0⟩,
      .error (.truncatedPush 1)] := by cbv
  have complete : ∀ reason, .error reason ∉ (whole.read .standard).items := by simp [wholeItems]
  have last : (long.read .standard).items.getLast? = some (.error (.nonMinimalPush 1)) := by
    rw [longItems]
    rfl
  have permanent : ∀ offset, ScriptError.nonMinimalPush 1 ≠ .truncatedPush offset := by simp
  exact ⟨⟨complete, moreItems, (read_append .standard whole more).1 complete⟩,
    ⟨last, (read_append .standard long more).2.1 _ last permanent⟩,
    cutItems, (read_append .standard cut more).2.2⟩

end CoinScript
