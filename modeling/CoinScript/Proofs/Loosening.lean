import CoinScript.Proofs.Cutting
import CoinScript.Proofs.Fault
import CoinScript.Proofs.Validity

/-!
# Loosening the rules

Rules are loosened by raising a limit or by giving up the demand for minimal pushes. A
frame stays a frame when the rules are loosened, so the chunks that were found are the
first ones found, and a valid script stays valid.

Where the stricter rules end the reading and the looser ones go on, the bytes are all
there. So the difference is one of the two things that the stricter rules ask of a
complete push: a length within the element size, which only four bytes can exceed, or
the shortest encoding.
-/

namespace CoinScript

/-- The rules admit whatever the stricter ones admit: no limit is lower, and minimal
pushes are demanded only if the stricter rules demand them. -/
structure Rules.Loosens (loose strict : Rules) : Prop where
  /-- A script may have as many bytes. -/
  scriptSize : strict.maxScriptSize ≤ loose.maxScriptSize
  /-- A push with a four-byte length may carry as many bytes. -/
  elementSize : strict.maxElementSize ≤ loose.maxElementSize
  /-- No demand is added. -/
  demand : loose.minimalPush = true → strict.minimalPush = true

/-- Why the stricter rules end the reading at a chunk that the looser ones accept. -/
inductive Rules.Rejects (strict loose : Rules) (chunk : Chunk) : ScriptError → Prop where
  /-- The data is longer than the element size, behind a length of four bytes. -/
  | tooLong {data : Bytes} (four : chunk.code = Opcode.pushData4)
      (carried : chunk.payload = some data) (beyond : strict.maxElementSize < data.length) :
      Rejects strict loose chunk
        (.pushTooLong Opcode.pushData4 data.length strict.maxElementSize)
  /-- The push is overlong, and only the stricter rules demand minimal pushes. -/
  | notShortest {offset : Nat} (placed : chunk.sourceOffset = some offset)
      (demanded : strict.minimalPush = true) (relaxed : loose.minimalPush = false)
      (long : chunk.Overlong) : Rejects strict loose chunk (.nonMinimalPush offset)

/-- A larger element size admits the same lengths, and more of them in four bytes. -/
theorem Opcode.maxLength_mono {loose strict : Rules}
    (larger : strict.maxElementSize ≤ loose.maxElementSize) (code : Opcode) :
    code.maxLength strict ≤ code.maxLength loose := by
  unfold maxLength
  cases code.shape with
  | direct length => exact Nat.le_refl length
  | alone => exact Nat.le_refl 0
  | announced width =>
    cases width with
    | one => exact Nat.le_refl 255
    | two => exact Nat.le_refl 65535
    | four => exact larger

namespace Chunk

variable {loose strict : Rules} {start : Nat} {bytes rest : Bytes} {chunk : Chunk}
  {reason : ScriptError} {log : List ScriptEvent}

/-- A frame is a frame under looser rules. -/
theorem Frame.loosened (looser : loose.Loosens strict) (frame : Frame strict start bytes chunk) :
    Frame loose start bytes chunk := by
  cases frame with
  | operation alone => exact .operation alone
  | @push code digits data pushes sized stated limited shortest =>
    have admitted := Nat.le_trans limited (Opcode.maxLength_mono looser.elementSize code)
    exact .push pushes sized stated admitted fun demanded => shortest (looser.demand demanded)

/-- Where a frame of a push begins, all of its bytes are there. So the fault that other
rules find is in its length or in its encoding. -/
theorem pushFault?_frame {code : Opcode} {digits data : Bytes}
    (pushes : code.isOperation = false) (sized : digits.length = code.lengthSize)
    (stated : code.statedLength digits = data.length) (rules : Rules) (rest : Bytes) :
    pushFault? rules start code (digits ++ (data ++ rest)) =
      if code.maxLength rules < data.length then
        some (.pushTooLong code data.length (code.maxLength rules))
      else if rules.minimalPush ∧ code ≠ minimalPushOpcode data then some (.nonMinimalPush start)
      else none := by
  have present : ¬(data ++ rest).length < data.length := by
    rw [List.length_append]
    omega
  rw [pushFault?_append pushes sized, stated, if_neg present, List.take_left]

/-- Where stricter rules refuse what begins with a frame of looser ones, they reject its
chunk: the two differ about the element size or about minimal pushes. -/
theorem Frame.rejects (frame : Frame loose start bytes chunk)
    (refusal : Refusal strict start (bytes ++ rest) reason log) :
    strict.Rejects loose chunk reason := by
  have fault := refusal.fault?_eq
  cases frame with
  | operation alone => simp [fault?, alone] at fault
  | @push code digits data pushes sized stated limited shortest =>
    rw [List.cons_append, List.append_assoc, fault?_push pushes,
      pushFault?_frame pushes sized stated] at fault
    by_cases beyond : code.maxLength strict < data.length
    · rw [if_pos beyond] at fault
      cases fault
      rw [← stated] at beyond
      obtain ⟨rfl, exceeded⟩ := (Opcode.maxLength_lt_statedLength_iff strict pushes sized).mp beyond
      exact .tooLong rfl rfl (stated ▸ exceeded)
    · rw [if_neg beyond] at fault
      by_cases long : strict.minimalPush = true ∧ code ≠ minimalPushOpcode data
      · rw [if_pos long] at fault
        cases fault
        have relaxed : loose.minimalPush = false :=
          Bool.eq_false_iff.mpr fun demanded => long.2 (shortest demanded)
        exact .notShortest rfl long.1 relaxed ⟨data, rfl, long.2⟩
      · rw [if_neg long] at fault
        cases fault

end Chunk

namespace Frames

variable {loose strict : Rules} {start : Nat} {bytes : Bytes} {chunks : List Chunk}

/-- Frames one behind the other are frames under looser rules. -/
theorem loosened (looser : loose.Loosens strict) (frames : Frames strict start bytes chunks) :
    Frames loose start bytes chunks := by
  induction frames with
  | nil start => exact .nil start
  | cons frame others inductionHypothesis =>
    exact .cons (frame.loosened looser) inductionHypothesis

/-- No chunk begins where the frames end. -/
theorem sourceOffset_ne (frames : Frames strict start bytes chunks) {chunk : Chunk}
    (member : chunk ∈ chunks) : chunk.sourceOffset ≠ some (start + bytes.length) := by
  intro placed
  obtain ⟨first, last, begins, _, _, _, _⟩ := frames.bounds member
  simp only [Chunk.offset, placed, Except.ok.injEq] at begins
  omega

/-- Of the chunks of frames only the first one begins where they do. -/
theorem frame_of_sourceOffset (frames : Frames strict start bytes chunks) {chunk : Chunk}
    (member : chunk ∈ chunks) (placed : chunk.sourceOffset = some start) :
    ∃ front back, bytes = front ++ back ∧ Chunk.Frame strict start front chunk := by
  cases frames with
  | nil => cases member
  | @cons _ front back first chunks frame others =>
    rcases List.mem_cons.mp member with rfl | later
    · exact ⟨front, back, rfl, frame⟩
    · obtain ⟨begins, _, begun, _, behind, _, _⟩ := others.bounds later
      have positive := frame.length_pos
      simp only [Chunk.offset, placed, Except.ok.injEq] at begun
      omega

end Frames

/-- Chunks that lie side by side from a position end at one position. -/
theorem Chunk.Tile.finish_unique {start finish other : Nat} {chunks : List Chunk}
    (tiled : Tile start chunks finish) (also : Tile start chunks other) : finish = other := by
  induction tiled with
  | done finish =>
    cases also
    rfl
  | next placed measured others inductionHypothesis =>
    cases also with
    | next _ sameMeasure rest =>
      cases measured.symm.trans sameMeasure
      exact inductionHypothesis rest

/-- Where other rules refuse, a run that finds a chunk there finds one that they reject. -/
theorem Run.rejects {loose strict : Rules} {start : Nat} {unread : Bytes} {items : List Item}
    {log reports : List ScriptEvent} {reason : ScriptError} {chunk : Chunk}
    (run : Run loose start unread items log)
    (refusal : Chunk.Refusal strict start unread reason reports)
    (member : chunk ∈ items.filterMap Except.toOption) (placed : chunk.sourceOffset = some start) :
    strict.Rejects loose chunk reason := by
  obtain ⟨bytes, rest, rfl, frames, _⟩ := run.frames_found
  obtain ⟨front, back, rfl, frame⟩ := frames.frame_of_sourceOffset member placed
  rw [List.append_assoc] at refusal
  exact frame.rejects refusal

/-- Behind frames of the stricter rules the looser ones read on from where these end. -/
theorem Frames.items_loosened {loose strict : Rules} {script : Script} {bytes rest : Bytes}
    {chunks : List Chunk} {others : List Item} {log : List ScriptEvent}
    (looser : loose.Loosens strict) (joined : script.bytes = bytes ++ rest)
    (frames : Frames strict 0 bytes chunks) (run : Run loose (0 + bytes.length) rest others log) :
    (script.read loose).items = chunks.map .ok ++ others := by
  have whole : Run loose 0 script.bytes (chunks.map .ok ++ others) log :=
    joined ▸ .of_frames (frames.loosened looser) run
  exact whole.read_eq.1

/-- A script that is read to its end yields the same items under looser rules. -/
theorem Rules.Loosens.items_eq {loose strict : Rules} (looser : loose.Loosens strict)
    {script : Script} (complete : ∀ reason, .error reason ∉ (script.read strict).items) :
    (script.read loose).items = (script.read strict).items := by
  obtain ⟨chunks, items, frames⟩ := (script.read_run strict).frames_of_complete complete
  rw [frames.items_loosened looser (List.append_nil script.bytes).symm (.ended _), items,
    List.append_nil]

/-- Chunks that are read from a script without an error are read under looser rules. -/
theorem Rules.Loosens.chunks_eq {loose strict : Rules} (looser : loose.Loosens strict)
    {script : Script} {chunks : List Chunk} (readable : (script.read strict).chunks = .ok chunks) :
    (script.read loose).chunks = .ok chunks := by
  have complete := Script.exists_chunks_iff.mp ⟨chunks, readable⟩
  rw [Transcript.chunks_eq_ok_iff] at readable ⊢
  exact (looser.items_eq complete).trans readable

/-- What looser rules change. A valid script stays valid and yields the same chunks. In
any script the chunks that were found are the first ones found, and they lie side by side
up to a position. If the stricter rules end the reading with an error there, and the
looser ones yield a chunk that begins there, then this chunk is rejected for the error:
its data is longer than the stricter element size, behind a length of four bytes, or it
is overlong and only the stricter rules demand minimal pushes.

Proof: the frames of the chunks found are frames under looser rules, and behind them one
reader refuses bytes at which the other one meets a frame. -/
theorem read_loosened {loose strict : Rules} (looser : loose.Loosens strict) (script : Script) :
    ((script.check strict).value = .ok () → (script.check loose).value = .ok () ∧
      (script.read loose).items = (script.read strict).items) ∧
    (script.read strict).found <+: (script.read loose).found ∧
    ∃ finish, Chunk.Tile 0 (script.read strict).found finish ∧
      ∀ reason, .error reason ∈ (script.read strict).items →
        ∀ chunk ∈ (script.read loose).found, chunk.sourceOffset = some finish →
          strict.Rejects loose chunk reason := by
  obtain ⟨chunks, bytes, rest, joined, frames, outcome⟩ := (script.read_run strict).frames
  obtain ⟨others, log, run⟩ := Run.exists_run loose (0 + bytes.length) rest
  have looseFound : (script.read loose).found = chunks ++ others.filterMap Except.toOption := by
    rw [Transcript.found, frames.items_loosened looser joined run, filterMap_toOption_append]
  have strictFound : (script.read strict).found = chunks := by
    rcases outcome with ⟨_, items, _⟩ | ⟨reason, items, _⟩
    · rw [Transcript.found, items, filterMap_toOption]
    · rw [Transcript.found, items, filterMap_toOption_append]
      exact List.append_nil chunks
  rw [looseFound, strictFound]
  refine ⟨?_, List.prefix_append chunks _, 0 + bytes.length, frames.tile, ?_⟩
  · intro valid
    obtain ⟨small, complete⟩ := Script.check_eq_ok_iff.mp valid
    have same := looser.items_eq complete
    exact ⟨Script.check_eq_ok_iff.mpr ⟨Nat.le_trans small looser.scriptSize, same ▸ complete⟩, same⟩
  · intro reason met chunk member placed
    rcases outcome with ⟨_, items, _⟩ | ⟨found, items, refusal⟩
    · simp [items] at met
    · have same : reason = found := by simpa [items] using met
      subst same
      rcases List.mem_append.mp member with earlier | later
      · exact absurd placed (frames.sourceOffset_ne earlier)
      · exact run.rejects refusal later placed

/-- Two bytes in a longer form than the shortest, and two bytes behind a length of four
bytes where one byte is admitted. Looser rules read on in both scripts, with the same
first chunk, and that chunk by itself is a valid script for both. -/
theorem read_loosened_two_bytes :
    let strict : Rules := ⟨9, 1, true⟩
    let first : Chunk := ⟨0x76, none, some 0⟩
    let longChunk : Chunk := ⟨0x4c, some [0xaa, 0xbb], some 1⟩
    let wideChunk : Chunk := ⟨0x4e, some [0xaa, 0xbb], some 1⟩
    let single : Script := ⟨[0x76]⟩
    let long : Script := ⟨[0x76, 0x4c, 0x02, 0xaa, 0xbb]⟩
    let wide : Script := ⟨[0x76, 0x4e, 0x02, 0x00, 0x00, 0x00, 0xaa, 0xbb]⟩
    Rules.relaxed.Loosens strict ∧
    ((single.check strict).value = .ok () ∧ (single.check .relaxed).value = .ok () ∧
      (single.read .relaxed).items = (single.read strict).items) ∧
    ((long.read strict).items = [.ok first, .error (.nonMinimalPush 1)] ∧
      (long.read .relaxed).found = [first, longChunk] ∧
      strict.Rejects .relaxed longChunk (.nonMinimalPush 1)) ∧
    ((wide.read strict).items = [.ok first, .error (.pushTooLong 0x4e 2 1)] ∧
      (wide.read .relaxed).found = [first, wideChunk] ∧
      strict.Rejects .relaxed wideChunk (.pushTooLong 0x4e 2 1)) := by
  intro strict first longChunk wideChunk single long wide
  have looser : Rules.relaxed.Loosens strict := ⟨by decide, by decide, by decide⟩
  have singleItems : (single.read strict).items = [.ok first] := by cbv
  have accepted : (single.check strict).value = .ok () :=
    Script.check_eq_ok_iff.mpr ⟨by decide, by simp [singleItems]⟩
  have longItems : (long.read strict).items = [.ok first, .error (.nonMinimalPush 1)] := by cbv
  have wideItems : (wide.read strict).items = [.ok first, .error (.pushTooLong 0x4e 2 1)] := by
    cbv
  have longYields : (long.read .relaxed).found = [first, longChunk] := by cbv
  have wideYields : (wide.read .relaxed).found = [first, wideChunk] := by cbv
  have behindFirst : Chunk.Tile 0 [first] 1 := .next rfl rfl (.done 1)
  have rejected (script : Script) (reason : ScriptError) (chunk : Chunk)
      (items : (script.read strict).items = [.ok first, .error reason])
      (yields : (script.read .relaxed).found = [first, chunk])
      (placed : chunk.sourceOffset = some 1) : strict.Rejects .relaxed chunk reason := by
    obtain ⟨_, _, finish, tiled, rejects⟩ := read_loosened looser script
    have found : (script.read strict).found = [first] := by rw [Transcript.found, items]; rfl
    rw [found] at tiled
    exact rejects reason (by simp [items]) chunk (by simp [yields])
      (tiled.finish_unique behindFirst ▸ placed)
  exact ⟨looser, ⟨accepted, (read_loosened looser single).1 accepted⟩,
    ⟨longItems, longYields, rejected long _ _ longItems longYields rfl⟩,
    wideItems, wideYields, rejected wide _ _ wideItems wideYields rfl⟩

end CoinScript
