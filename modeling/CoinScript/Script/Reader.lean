import CoinScript.Script.Basic
import CoinScript.Script.Cursor

/-!
# Reading scripts

A reader goes through a script chunk by chunk under fixed rules. It yields each
chunk with the position it was read from, or one error, after which it yields
nothing more. At the end it stays as it is however often it is asked.

Every item consumes at least one byte, so a script yields at most as many items
as it has bytes, and reading it to the end is a plain recursion on the bytes not
yet read.
-/

namespace CoinScript

/-- What a reader yields: a chunk, or the error that ends the reading. -/
abbrev Item := Except ScriptError Chunk

/-- The state of reading a script under fixed rules. -/
structure Reader where
  /-- The limits and the push rule applied. -/
  rules : Rules
  /-- Where the reader is. -/
  cursor : Cursor
  /-- An error has been yielded, and nothing follows it. -/
  stopped : Bool
deriving DecidableEq, Repr

/-- What asking a reader for its next item gives. -/
structure Step where
  /-- The item, or nothing when the reader is at its end. -/
  item : Option Item
  /-- What was reported. -/
  log : List ScriptEvent
  /-- The reader from here on. -/
  reader : Reader

/-- Everything that a reader yields. -/
structure Transcript where
  /-- The items, first item first. -/
  items : List Item
  /-- What was reported, first event first. -/
  log : List ScriptEvent
  /-- The reader at its end. -/
  reader : Reader

namespace Reader

/-- The reader at the beginning of a script. -/
def start (rules : Rules) (script : Script) : Reader := ⟨rules, ⟨0, script.bytes⟩, false⟩

/-- Ask for the next item. A reader at its end is returned unchanged. -/
def next (reader : Reader) : Step :=
  if reader.stopped then ⟨none, [], reader⟩
  else
    match reader.cursor.readChunk? reader.rules with
    | none => ⟨none, [], reader⟩
    | some ⟨outcome, cursor, log⟩ =>
      ⟨some outcome, log, { reader with cursor, stopped := !outcome.isOk }⟩

/-- A reader that yields nothing is returned unchanged and reports nothing. -/
theorem next_of_none {reader : Reader} (ended : reader.next.item = none) :
    reader.next = ⟨none, [], reader⟩ := by
  unfold next at ended ⊢
  split
  · rfl
  · rename_i active
    rw [if_neg active] at ended
    split at ended
    · rfl
    · cases ended

/-- Every item consumes at least the opcode it begins with. -/
theorem next_passes {reader : Reader} {item : Item} (yielded : reader.next.item = some item) :
    ∃ code consumed, reader.cursor.Passes (code :: consumed) reader.next.reader.cursor := by
  unfold next at yielded ⊢
  split
  · rename_i inactive
    rw [if_pos inactive] at yielded
    cases yielded
  · rename_i active
    rw [if_neg active] at yielded
    split at yielded
    · cases yielded
    · rename_i outcome cursor log attempted
      exact Cursor.readChunk?_passes attempted

/-- Every item leaves fewer bytes unread. -/
theorem unread_lt_of_next {reader later : Reader} {item : Item} {events : List ScriptEvent}
    (asked : reader.next = ⟨some item, events, later⟩) :
    later.cursor.unread.length < reader.cursor.unread.length := by
  have yielded : reader.next.item = some item := by rw [asked]
  obtain ⟨code, consumed, passed⟩ := next_passes yielded
  rw [asked] at passed
  rw [show reader.cursor.unread = code :: consumed ++ later.cursor.unread from passed.1,
    List.length_append, List.length_cons]
  omega

/-- Read to the end behind what was yielded and reported so far, both latest first. -/
def drainOnto (items : List Item) (log : List ScriptEvent) (reader : Reader) : Transcript :=
  match asked : reader.next with
  | ⟨none, _, _⟩ => ⟨items.reverse, log.reverse, reader⟩
  | ⟨some item, events, later⟩ =>
    have _fewer := unread_lt_of_next asked
    drainOnto (item :: items) (events.reverse ++ log) later
termination_by reader.cursor.unread.length

/-- Read to the end. -/
def drain (reader : Reader) : Transcript := drainOnto [] [] reader

/-- What was yielded and reported before stands in front of what still comes. -/
theorem drainOnto_eq (items : List Item) (log : List ScriptEvent) (reader : Reader) :
    drainOnto items log reader =
      ⟨items.reverse ++ (drain reader).items, log.reverse ++ (drain reader).log,
        (drain reader).reader⟩ := by
  unfold drain
  induction counted : reader.cursor.unread.length using Nat.strongRecOn
    generalizing reader items log with
  | ind count inductionHypothesis =>
    rw [drainOnto, drainOnto]
    split
    · simp
    · rename_i item events later asked
      have fewer : later.cursor.unread.length < count := counted ▸ unread_lt_of_next asked
      rw [inductionHypothesis _ fewer (item :: items) _ later rfl,
        inductionHypothesis _ fewer [item] _ later rfl]
      simp

/-- A reader at its end has nothing to read. -/
theorem drain_of_none {reader : Reader} (ended : reader.next.item = none) :
    reader.drain = ⟨[], [], reader⟩ := by
  rw [drain, drainOnto]
  split
  · rfl
  · rename_i item events later asked
    rw [asked] at ended
    cases ended

/-- The first item stands in front of what the reader after it yields. -/
theorem drain_of_some {reader : Reader} {item : Item} (yielded : reader.next.item = some item) :
    reader.drain =
      ⟨item :: reader.next.reader.drain.items, reader.next.log ++ reader.next.reader.drain.log,
        reader.next.reader.drain.reader⟩ := by
  rw [drain, drainOnto]
  split
  · rename_i asked
    rw [asked] at yielded
    cases yielded
  · rename_i first events later asked
    rw [asked] at yielded
    have same : first = item := Option.some.inj yielded
    rw [drainOnto_eq, asked, same]
    simp

end Reader

namespace Transcript

/-- The chunks yielded, if no error was. Otherwise the error. -/
def chunks (transcript : Transcript) : Except ScriptError (List Chunk) :=
  transcript.items.mapM id

/-- The chunks are all there exactly when every item is a chunk. -/
theorem chunks_eq_ok_iff {transcript : Transcript} {chunks : List Chunk} :
    transcript.chunks = .ok chunks ↔ transcript.items = chunks.map .ok := by
  obtain ⟨items, log, reader⟩ := transcript
  simp only [Transcript.chunks]
  induction items generalizing chunks with
  | nil => cases chunks <;> simp [pure, Except.pure]
  | cons item rest inductionHypothesis =>
    cases item with
    | error reason => cases chunks <;> simp [bind, Except.bind]
    | ok chunk =>
      cases others : List.mapM id rest with
      | error reason =>
        have refused : ∀ found : List Chunk, rest ≠ found.map .ok := by
          intro found same
          have succeeded := inductionHypothesis.mpr same
          rw [others] at succeeded
          cases succeeded
        cases chunks <;> simp [bind, Except.bind, others, refused]
      | ok found =>
        have determined : ∀ wanted : List Chunk, rest = wanted.map .ok ↔ found = wanted := by
          intro wanted
          rw [← inductionHypothesis, others, Except.ok.injEq]
        cases chunks <;> simp [bind, Except.bind, pure, Except.pure, others, determined]

end Transcript

/-- Read a script to its end under the rules. -/
def Script.read (rules : Rules) (script : Script) : Transcript :=
  (Reader.start rules script).drain

end CoinScript
