import CoinScript.Bytes.LittleEndian
import CoinScript.Chunk.Minimal

/-!
# Reading one chunk

A cursor is a position in a script together with the bytes from there on. Reading
a chunk moves it past the opcode, the stated length if there is one, and the
payload. Whatever goes wrong is found in that order: a length that is not all
there, a length beyond the limit, a payload that is not all there, and last an
encoding that is not the shortest although the rules demand it.

A failed attempt says where it stopped. Bytes that are not all there are not
taken, so the cursor never passes the end of the script, and it passes the opcode
in any case.
-/

namespace CoinScript

/-- A position in a script and the bytes not yet read. -/
structure Cursor where
  /-- The number of bytes read. -/
  offset : Nat
  /-- The bytes from there to the end of the script. -/
  unread : Bytes
deriving DecidableEq, Repr

/-- What an attempt to read gives: its outcome, the cursor where it stopped, and
what it reported. -/
structure Reading (α : Type) where
  /-- What was read, or why nothing could be. -/
  outcome : Except ScriptError α
  /-- Where the attempt stopped. -/
  cursor : Cursor
  /-- What was reported. -/
  log : List ScriptEvent

namespace Reading

variable {α β : Type}

/-- Go on reading with what was read. A failed attempt is not continued. -/
def andThen (first : Reading α) (following : α → Cursor → Reading β) : Reading β :=
  match first.outcome with
  | .error reason => ⟨.error reason, first.cursor, first.log⟩
  | .ok value =>
    let second := following value first.cursor
    ⟨second.outcome, second.cursor, first.log ++ second.log⟩

end Reading

/-- Hold a push that starts at the given position to the encoding rule. -/
def Rules.accept (rules : Rules) (start : Nat) (chunk : Chunk) : Except ScriptError Chunk :=
  if rules.minimalPush then
    match chunk.isMinimal with
    | .error reason => .error reason
    | .ok true => .ok chunk
    | .ok false => .error (.nonMinimalPush start)
  else .ok chunk

namespace Cursor

/-- The next `count` bytes of the push that starts at the given position. A
shortage is reported and takes nothing. -/
def take (cursor : Cursor) (start count : Nat) : Reading Bytes :=
  match Bytes.splitExact? count cursor.unread with
  | some (front, rest) => ⟨.ok front, ⟨cursor.offset + count, rest⟩, []⟩
  | none => ⟨.error (.truncatedPush start), cursor, [.pushTruncated start]⟩

/-- The payload of a push whose opcode and length are read. -/
def takePush (rules : Rules) (code : Opcode) (start length : Nat) (cursor : Cursor) :
    Reading Chunk :=
  (cursor.take start length).andThen fun data cursor =>
    ⟨rules.accept start ⟨code, some data, some start⟩, cursor, []⟩

/-- The stated length and the payload of a push whose opcode is read. -/
def takeAnnounced (rules : Rules) (width : PushWidth) (start : Nat) (cursor : Cursor) :
    Reading Chunk :=
  (cursor.take start width.size).andThen fun digits cursor =>
    let length := LittleEndian.decode digits
    if length ≤ width.maxLength rules then cursor.takePush rules width.opcode start length
    else ⟨.error (.pushTooLong width.opcode length (width.maxLength rules)), cursor, []⟩

/-- The chunk that begins at the position with the opcode, the cursor being past it. -/
def takeChunk (rules : Rules) (code : Opcode) (start : Nat) (cursor : Cursor) : Reading Chunk :=
  match code.shape with
  | .alone => ⟨.ok ⟨code, none, some start⟩, cursor, []⟩
  | .direct length => cursor.takePush rules code start length
  | .announced width => cursor.takeAnnounced rules width start

/-- The chunk at the cursor, or nothing at the end of the script. -/
def readChunk? (rules : Rules) (cursor : Cursor) : Option (Reading Chunk) :=
  match cursor.unread with
  | [] => none
  | code :: rest => some (takeChunk rules code cursor.offset ⟨cursor.offset + 1, rest⟩)

/-- The cursor `later` is reached from `earlier` by reading `consumed`: these
bytes are gone from the front and the position has grown by their number. -/
def Passes (earlier : Cursor) (consumed : Bytes) (later : Cursor) : Prop :=
  earlier.unread = consumed ++ later.unread ∧ later.offset = earlier.offset + consumed.length

/-- Reading nothing leaves the cursor where it is. -/
theorem passes_nil (cursor : Cursor) : cursor.Passes [] cursor := ⟨rfl, rfl⟩

/-- What two readings in a row consume is joined. -/
theorem Passes.append {first second third : Cursor} {front back : Bytes}
    (before : first.Passes front second) (after : second.Passes back third) :
    first.Passes (front ++ back) third := by
  constructor
  · rw [before.1, after.1, List.append_assoc]
  · rw [after.2, before.2, List.length_append, Nat.add_assoc]

/-- Taking bytes consumes the bytes taken, and a shortage consumes none. -/
theorem take_passes (cursor : Cursor) (start count : Nat) :
    ∃ consumed, cursor.Passes consumed (cursor.take start count).cursor := by
  unfold take
  cases taken : Bytes.splitExact? count cursor.unread with
  | none => exact ⟨[], cursor.passes_nil⟩
  | some parts =>
    obtain ⟨joined, counted⟩ := Bytes.splitExact?_eq_some_iff.mp taken
    exact ⟨parts.1, joined, by rw [counted]⟩

/-- If each of two attempts in a row consumes bytes from where it begins, so do both
together. -/
theorem andThen_passes {α β : Type} {cursor : Cursor} {first : Reading α}
    {following : α → Cursor → Reading β}
    (begun : ∃ consumed, cursor.Passes consumed first.cursor)
    (continued : ∀ (value : α) (later : Cursor),
      ∃ consumed, later.Passes consumed (following value later).cursor) :
    ∃ consumed, cursor.Passes consumed (first.andThen following).cursor := by
  obtain ⟨front, before⟩ := begun
  unfold Reading.andThen
  cases first.outcome with
  | error reason => exact ⟨front, before⟩
  | ok value =>
    obtain ⟨back, after⟩ := continued value first.cursor
    exact ⟨front ++ back, before.append after⟩

/-- Reading a payload consumes bytes from the cursor. -/
theorem takePush_passes (rules : Rules) (code : Opcode) (start length : Nat) (cursor : Cursor) :
    ∃ consumed, cursor.Passes consumed (cursor.takePush rules code start length).cursor :=
  andThen_passes (cursor.take_passes start length) fun _ later => ⟨[], later.passes_nil⟩

/-- Reading what follows an opcode consumes bytes from the cursor. -/
theorem takeChunk_passes (rules : Rules) (code : Opcode) (start : Nat) (cursor : Cursor) :
    ∃ consumed, cursor.Passes consumed (cursor.takeChunk rules code start).cursor := by
  unfold takeChunk
  cases code.shape with
  | alone => exact ⟨[], cursor.passes_nil⟩
  | direct length => exact takePush_passes rules code start length cursor
  | announced width =>
    apply andThen_passes (cursor.take_passes start width.size)
    intro digits later
    dsimp only
    split
    · exact takePush_passes rules width.opcode start (LittleEndian.decode digits) later
    · exact ⟨[], later.passes_nil⟩

/-- An attempt at a chunk consumes at least the opcode, whatever comes of it. -/
theorem readChunk?_passes {rules : Rules} {cursor : Cursor} {reading : Reading Chunk}
    (attempted : cursor.readChunk? rules = some reading) :
    ∃ code consumed, cursor.Passes (code :: consumed) reading.cursor := by
  unfold readChunk? at attempted
  split at attempted
  · cases attempted
  · rename_i code rest begins
    have same := Option.some.inj attempted
    subst same
    obtain ⟨consumed, passed⟩ := takeChunk_passes rules code cursor.offset ⟨cursor.offset + 1, rest⟩
    have opcodeRead : cursor.Passes [code] ⟨cursor.offset + 1, rest⟩ := ⟨begins, rfl⟩
    exact ⟨code, consumed, opcodeRead.append passed⟩

end Cursor

end CoinScript
