import CoinScript.Proofs.Asking

/-!
# Reading by place

Here a reader holds no bytes. It holds a number, the place it is at, and every access to the
script is by number: to one byte, to the bytes between two places, and to the four bytes that a
stated length is copied into. Any of these can be refused, and a sum of two numbers may be
beyond what addresses can tell apart. An access that is refused is no error of the script, and
reading does not go on from it.

From a place in the script no access is refused. What comes out and where the reading stops are
what the reader gives that holds the bytes themselves, so what is shown of the one holds for the
other. The place is always one in the script, even behind an error that leaves it within a push.
-/

namespace CoinScript

/-- An access that is refused. -/
inductive BadAccess where
  /-- There is no byte at the place. -/
  | byteOutside (place : Nat)
  /-- There are no bytes from the first place up to the last. -/
  | sliceOutside (first last : Nat)
  /-- Bytes are copied into room for another number of bytes. -/
  | copyUnequal (room given : Nat)
  /-- The place behind has no address. -/
  | placeBeyond (place : Nat)
deriving DecidableEq, Repr

/-- A script whose places, the one behind its last byte included, have addresses. -/
structure PlacedScript where
  /-- The script. -/
  script : Script
  /-- How many addresses there are. -/
  addresses : Nat
  /-- There are more addresses than bytes. -/
  addressable : script.size < addresses

/-- What an attempt to read by place gives. -/
structure Placed (α : Type) where
  /-- What was read, or why nothing could be. -/
  outcome : Except ScriptError α
  /-- The place where the attempt stopped. -/
  position : Nat
  /-- What was reported. -/
  log : List ScriptEvent

/-- A reader that holds a place and no bytes. -/
structure PlacedReader where
  /-- The limits and the push rule applied. -/
  rules : Rules
  /-- Where the reader is. -/
  position : Nat
  /-- An error has been yielded. -/
  stopped : Bool
deriving DecidableEq, Repr

/-- Go on reading by place with what was read. A failed attempt is not continued, and neither is
one that was refused an access. -/
def Placed.andThen {α β : Type} (first : Except BadAccess (Placed α))
    (following : α → Nat → Except BadAccess (Placed β)) : Except BadAccess (Placed β) :=
  first.bind fun read =>
    match read.outcome with
    | .error reason => .ok ⟨.error reason, read.position, read.log⟩
    | .ok value => (following value read.position).map fun second =>
        ⟨second.outcome, second.position, read.log ++ second.log⟩

/-- The room that a stated length is copied into, filled with zeros. -/
def lengthRoom : Bytes := [0, 0, 0, 0]

/-- The length stated in so many bytes of the room, its digits copied into them. That many there
have to be, in the room and of the digits. -/
def copyLength (width : Nat) (digits : Bytes) : Except BadAccess Nat :=
  if width ≤ lengthRoom.length ∧ digits.length = width then
    .ok (LittleEndian.decode (digits ++ lengthRoom.drop width))
  else .error (.copyUnequal width digits.length)

/-- The reader at the beginning of a script. -/
def PlacedReader.start (rules : Rules) : PlacedReader := ⟨rules, 0, false⟩

namespace PlacedScript

variable (placed : PlacedScript)

/-- The byte at a place. -/
def byteAt (place : Nat) : Except BadAccess UInt8 :=
  match placed.script.bytes[place]? with
  | some byte => .ok byte
  | none => .error (.byteOutside place)

/-- The bytes from the first place up to the last. -/
def slice (first last : Nat) : Except BadAccess Bytes :=
  if first ≤ last ∧ last ≤ placed.script.size then
    .ok ((placed.script.bytes.drop first).take (last - first))
  else .error (.sliceOutside first last)

/-- The place so many bytes behind another, if it has an address. -/
def behind? (place count : Nat) : Option Nat :=
  if place + count < placed.addresses then some (place + count) else none

/-- The place so many bytes behind another, if it has an address and is in the script. -/
def end? (place count : Nat) : Option Nat :=
  (placed.behind? place count).filter fun last => last ≤ placed.script.size

/-- The next `count` bytes of the push that starts at the given position. Without a place at
their end there is a shortage. -/
def take (start count position : Nat) : Except BadAccess (Placed Bytes) :=
  match placed.end? position count with
  | none => .ok ⟨.error (.truncatedPush start), position, [.pushTruncated start]⟩
  | some last => (placed.slice position last).map fun data => ⟨.ok data, last, []⟩

/-- The payload of a push whose opcode and length are read. -/
def takePush (rules : Rules) (code : Opcode) (start length position : Nat) :
    Except BadAccess (Placed Chunk) :=
  Placed.andThen (placed.take start length position) fun data position =>
    .ok ⟨rules.accept start ⟨code, some data, some start⟩, position, []⟩

/-- The stated length and the payload of a push whose opcode is read. -/
def takeAnnounced (rules : Rules) (width : PushWidth) (start position : Nat) :
    Except BadAccess (Placed Chunk) :=
  Placed.andThen (placed.take start width.size position) fun digits position =>
    (copyLength width.size digits).bind fun length =>
      if length ≤ width.maxLength rules then
        placed.takePush rules width.opcode start length position
      else .ok ⟨.error (.pushTooLong width.opcode length (width.maxLength rules)), position, []⟩

/-- The chunk at the place. -/
def readChunk (rules : Rules) (start : Nat) : Except BadAccess (Placed Chunk) :=
  (placed.byteAt start).bind fun code : Opcode =>
    match placed.behind? start 1 with
    | none => .error (.placeBeyond start)
    | some position =>
      match code.shape with
      | .alone => .ok ⟨.ok ⟨code, none, some start⟩, position, []⟩
      | .direct length => placed.takePush rules code start length position
      | .announced width => placed.takeAnnounced rules width start position

/-- Ask for the next item. -/
def next (reader : PlacedReader) : Except BadAccess (Option Item × List ScriptEvent × PlacedReader) :=
  if reader.stopped ∨ placed.script.size ≤ reader.position then .ok (none, [], reader)
  else (placed.readChunk reader.rules reader.position).map fun read =>
    (some read.outcome, read.log, ⟨reader.rules, read.position, !read.outcome.isOk⟩)

/-- Ask so many times. -/
def ask : Nat → PlacedReader → Except BadAccess (List Item × List ScriptEvent × PlacedReader)
  | 0, reader => .ok ([], [], reader)
  | calls + 1, reader =>
    (placed.next reader).bind fun step =>
      (ask calls step.2.2).map fun others =>
        (step.1.toList ++ others.1, step.2.1 ++ others.2.1, others.2.2)

end PlacedScript

/-- The reading without the bytes it holds. -/
def Reading.placed {α : Type} (reading : Reading α) : Placed α :=
  ⟨reading.outcome, reading.cursor.offset, reading.log⟩

/-- The reader without the bytes it holds. -/
def Reader.placed (reader : Reader) : PlacedReader :=
  ⟨reader.rules, reader.cursor.offset, reader.stopped⟩

namespace PlacedScript

variable {placed : PlacedScript} {cursor : Cursor} {start count : Nat}

/-- Going on by place and going on with the bytes held agree if both parts do. -/
theorem andThen_eq {α β : Type} {attempt : Except BadAccess (Placed α)} {first : Reading α}
    {following : α → Nat → Except BadAccess (Placed β)} {continued : α → Cursor → Reading β}
    (begun : attempt = .ok first.placed)
    (same : ∀ value, first.outcome = .ok value →
      following value first.cursor.offset = .ok (continued value first.cursor).placed) :
    Placed.andThen attempt following = .ok (first.andThen continued).placed := by
  unfold Placed.andThen Reading.andThen
  rw [begun]
  cases found : first.outcome with
  | error reason => simp only [Except.bind, Reading.placed, found]
  | ok value =>
    have second := same value found
    simp only [Except.bind, Reading.placed, found, second, Except.map]

/-- The byte at the place is the first one held. -/
theorem byteAt_eq {code : UInt8} {rest : Bytes} (within : cursor.Within placed.script.bytes)
    (held : cursor.unread = code :: rest) : placed.byteAt cursor.offset = .ok code := by
  have first : placed.script.bytes[cursor.offset]? = some code := by
    rw [← List.head?_drop, ← within.held, held, List.head?_cons]
  rw [byteAt, first]

/-- A place in the script has an address. -/
theorem behind?_eq {place : Nat} (inside : place + count ≤ placed.script.size) :
    placed.behind? place count = some (place + count) :=
  if_pos (Nat.lt_of_le_of_lt inside placed.addressable)

/-- Whatever the addresses, bytes have a place at their end exactly when they are in the script:
for a sum that is beyond the addresses is beyond the script too. -/
theorem end?_eq (place count : Nat) :
    placed.end? place count =
      if place + count ≤ placed.script.size then some (place + count) else none := by
  have addressable := placed.addressable
  unfold end? behind?
  by_cases inside : place + count ≤ placed.script.size
  · rw [if_pos inside, if_pos (by omega), Option.filter_some, if_pos (decide_eq_true inside)]
  · rw [if_neg inside]
    split
    · rw [Option.filter_some, decide_eq_false inside]
      rfl
    · rfl

/-- Bytes are taken by place as they are taken from those held. A slice is asked for only when
its end was found to be in the script. -/
theorem take_eq (within : cursor.Within placed.script.bytes) (start count : Nat) :
    placed.take start count cursor.offset = .ok (cursor.take start count).placed := by
  have held := within.length_unread
  have bounded := within.bounded
  unfold take Cursor.take
  rw [end?_eq]
  unfold Script.size
  cases taken : Bytes.splitExact? count cursor.unread with
  | none =>
    have short := Bytes.splitExact?_eq_none_iff.mp taken
    rw [if_neg (by omega)]
    rfl
  | some parts =>
    obtain ⟨joined, counted⟩ := Bytes.splitExact?_eq_some_iff.mp taken
    have inside : cursor.offset + count ≤ placed.script.bytes.length := by
      have total := congrArg List.length joined
      rw [List.length_append] at total
      omega
    have cut : placed.slice cursor.offset (cursor.offset + count) = .ok parts.1 := by
      rw [slice, if_pos ⟨Nat.le_add_right _ _, inside⟩, Nat.add_sub_cancel_left, ← within.held,
        joined, ← counted, List.take_left]
    rw [if_pos inside]
    simp only [cut, Except.map]
    rfl

/-- Taking bytes leads from one place to another. -/
theorem take_within (within : cursor.Within placed.script.bytes) (start count : Nat) :
    (cursor.take start count).cursor.Within placed.script.bytes := by
  obtain ⟨consumed, passed⟩ := cursor.take_passes start count
  exact within.passes passed

/-- A payload is read by place as it is read from the bytes held. -/
theorem takePush_eq (within : cursor.Within placed.script.bytes) (rules : Rules) (code : Opcode)
    (start length : Nat) :
    placed.takePush rules code start length cursor.offset =
      .ok (cursor.takePush rules code start length).placed :=
  andThen_eq (take_eq within start length) fun _ _ => rfl

/-- Bytes that are taken are as many as were wanted. -/
theorem length_of_take {data : Bytes} (taken : (cursor.take start count).outcome = .ok data) :
    data.length = count := by
  unfold Cursor.take at taken
  cases found : Bytes.splitExact? count cursor.unread with
  | none =>
    rw [found] at taken
    cases taken
  | some parts =>
    rw [found] at taken
    cases taken
    exact (Bytes.splitExact?_eq_some_iff.mp found).2

/-- Every width has room for its digits, and the zeros behind them add nothing. -/
theorem copyLength_eq {width : PushWidth} {digits : Bytes} (sized : digits.length = width.size) :
    copyLength width.size digits = .ok (LittleEndian.decode digits) := by
  have roomy : width.size ≤ lengthRoom.length := by cases width <;> decide
  have zeros : lengthRoom.drop width.size = List.replicate (4 - width.size) 0 := by
    cases width <;> rfl
  rw [copyLength, if_pos ⟨roomy, sized⟩, zeros, LittleEndian.decode_append_zeros]

/-- The length and the payload of a push are read by place as they are read from the bytes
held. -/
theorem takeAnnounced_eq (within : cursor.Within placed.script.bytes) (rules : Rules)
    (width : PushWidth) (start : Nat) :
    placed.takeAnnounced rules width start cursor.offset =
      .ok (cursor.takeAnnounced rules width start).placed := by
  refine andThen_eq (take_eq within start width.size) fun digits taken => ?_
  rw [copyLength_eq (length_of_take taken)]
  simp only [Except.bind]
  split
  · exact takePush_eq (take_within within start width.size) rules width.opcode start _
  · rfl

/-- Where there are bytes, the chunk at the place is read as it is from the bytes held. The place
behind the opcode has an address, for at most the end of the script is there. -/
theorem readChunk_eq {reading : Reading Chunk} (within : cursor.Within placed.script.bytes)
    (rules : Rules) (attempted : cursor.readChunk? rules = some reading) :
    placed.readChunk rules cursor.offset = .ok reading.placed := by
  unfold Cursor.readChunk? at attempted
  cases held : cursor.unread with
  | nil =>
    rw [held] at attempted
    cases attempted
  | cons code rest =>
    rw [held] at attempted
    cases attempted
    have opcodeRead : cursor.Passes [code] ⟨cursor.offset + 1, rest⟩ := ⟨held, rfl⟩
    have behind := within.passes opcodeRead
    rw [readChunk, byteAt_eq within held]
    simp only [Except.bind, behind?_eq behind.bounded]
    unfold Cursor.takeChunk
    cases Opcode.shape code with
    | alone => rfl
    | direct length => exact takePush_eq behind rules code cursor.offset length
    | announced width => exact takeAnnounced_eq behind rules width cursor.offset

variable {reader : Reader}

/-- Asking by place for the next item gives what asking with the bytes held gives. -/
theorem next_eq (within : reader.cursor.Within placed.script.bytes) :
    placed.next reader.placed =
      .ok (reader.next.item, reader.next.log, reader.next.reader.placed) := by
  unfold next Reader.next
  by_cases stopped : reader.stopped = true
  · rw [if_pos (.inl stopped), if_pos stopped]
  rw [if_neg stopped]
  cases attempted : reader.cursor.readChunk? reader.rules with
  | none =>
    have passed := within.unread_eq_nil_iff.mp (Cursor.readChunk?_eq_none_iff.mp attempted)
    rw [if_pos (.inr passed)]
  | some reading =>
    have active : ¬(reader.stopped = true ∨ placed.script.size ≤ reader.cursor.offset) := by
      intro ended
      have nothing := within.unread_eq_nil_iff.mpr (ended.resolve_left stopped)
      rw [Cursor.readChunk?_eq_none_iff.mpr nothing] at attempted
      cases attempted
    have read := readChunk_eq within reader.rules attempted
    simp only [Reader.placed, if_neg active, read, Except.map]
    rfl

/-- So does asking any number of times. -/
theorem ask_eq (within : reader.cursor.Within placed.script.bytes) (calls : Nat) :
    placed.ask calls reader.placed =
      .ok ((reader.ask calls).items, (reader.ask calls).log, (reader.ask calls).reader.placed) := by
  induction calls generalizing reader with
  | zero => rfl
  | succ calls inductionHypothesis =>
    rw [ask, next_eq within]
    simp only [Except.bind, inductionHypothesis (Reader.next_within within), Except.map]
    rfl

/-- Asking is safe, ends and stays ended, for every script, under all rules and however often a
reader is asked. In every state that asking leads to, the reader is in the script; a call that
gives nothing changes nothing and is followed by no other; an item moves the reader forward, and
an error is the last item. There are not more items than bytes, and with as many calls as bytes
the script is read to its end. All the while no access is refused: asked by place, the reader
gives the same and stops at the same place.

Proof: the place is in the script because reading only ever passes bytes that are there. The two
ways of reading agree access by access, so that of asking them is an induction on the calls. -/
theorem asking_safe (rules : Rules) (placed : PlacedScript) (calls : Nat) :
    ((Reader.start rules placed.script).ask calls).reader.Safe placed.script ∧
      ((Reader.start rules placed.script).ask calls).items.length ≤ placed.script.size ∧
      (placed.script.size ≤ calls →
        ((Reader.start rules placed.script).ask calls).reader.Ended ∧
        (Reader.start rules placed.script).ask calls = placed.script.read rules) ∧
      placed.ask calls (.start rules) =
        .ok (((Reader.start rules placed.script).ask calls).items,
          ((Reader.start rules placed.script).ask calls).log,
          ((Reader.start rules placed.script).ask calls).reader.placed) := by
  refine ⟨Reader.ask_safe rules placed.script calls, Reader.length_ask_le rules placed.script calls,
    ?_, ask_eq (Reader.start_within rules placed.script) calls⟩
  intro often
  have ended : ((Reader.start rules placed.script).ask calls).reader.Ended :=
    Reader.ended_of_size_le often
  exact ⟨ended, Reader.ask_eq_drain ended⟩

/-- A length that reaches beyond all addresses is the fault of six bytes under seven addresses.
Six calls read them to the end, and the reader is left behind the length, with one byte unread. -/
theorem asking_safe_beyond_addresses :
    let script : Script := ⟨[0x4e, 0xff, 0xff, 0xff, 0xff, 0xaa]⟩
    let placed : PlacedScript := ⟨script, 7, by decide⟩
    let rules : Rules := ⟨10000, 0xffffffff, false⟩
    let asked := (Reader.start rules script).ask 6
    asked = ⟨[.error (.truncatedPush 0)], [.pushTruncated 0], ⟨rules, ⟨5, [0xaa]⟩, true⟩⟩ ∧
      asked.reader.Safe script ∧ asked.items.length ≤ 6 ∧
      script.size ≤ 6 ∧ asked.reader.Ended ∧ asked = script.read rules ∧
      placed.ask 6 (.start rules) =
        .ok ([.error (.truncatedPush 0)], [.pushTruncated 0], ⟨rules, 5, true⟩) := by
  intro script placed rules asked
  obtain ⟨safe, few, often, same⟩ := asking_safe rules placed 6
  have all : script.size ≤ 6 := by decide
  have first : (Reader.start rules script).next =
      ⟨some (.error (.truncatedPush 0)), [.pushTruncated 0], ⟨rules, ⟨5, [0xaa]⟩, true⟩⟩ := rfl
  have ended : (Reader.start rules script).next.reader.Ended :=
    Reader.ended_of_error (congrArg Step.item first)
  -- The first call meets the fault, and the others give nothing.
  have run : asked = ⟨[.error (.truncatedPush 0)], [.pushTruncated 0],
      ⟨rules, ⟨5, [0xaa]⟩, true⟩⟩ := by
    unfold asked
    rw [Reader.ask, ended 5, first]
    rfl
  refine ⟨run, safe, few, all, (often all).1, (often all).2, ?_⟩
  rw [same, show (Reader.start rules placed.script).ask 6 = _ from run]
  rfl

end PlacedScript

end CoinScript
