import CoinScript.Script.Reader

/-!
# Asking a reader

A reader gives one item each time it is asked. The states that any number of calls lead to are
those of `ask`. In each of them the cursor is a place in the script. A call without an item
changes nothing and none behind it gives one; a call with an item moves the cursor forward, an
item without any payload too, and behind an error nothing more comes. Places are as many as
bytes, so there are not more items than bytes.
-/

namespace CoinScript

namespace Cursor

variable {bytes consumed : Bytes} {cursor later : Cursor}

/-- The cursor is a place in the bytes: it has passed some of them and holds the others. -/
structure Within (bytes : Bytes) (cursor : Cursor) : Prop where
  /-- Not more bytes are passed than there are. -/
  bounded : cursor.offset ≤ bytes.length
  /-- The bytes not passed are held. -/
  held : cursor.unread = bytes.drop cursor.offset

/-- So many bytes are held as are not passed. -/
theorem Within.length_unread (within : cursor.Within bytes) :
    cursor.unread.length = bytes.length - cursor.offset := by
  rw [within.held, List.length_drop]

/-- No bytes are held exactly at the end. -/
theorem Within.unread_eq_nil_iff (within : cursor.Within bytes) :
    cursor.unread = [] ↔ bytes.length ≤ cursor.offset := by
  rw [within.held, List.drop_eq_nil_iff]

/-- Passing bytes leads from one place to another. -/
theorem Within.passes (within : cursor.Within bytes) (passed : cursor.Passes consumed later) :
    later.Within bytes := by
  obtain ⟨joined, counted⟩ := passed
  have whole := within.length_unread
  rw [joined, List.length_append] at whole
  have bounded := within.bounded
  refine ⟨by omega, ?_⟩
  rw [counted, ← List.drop_drop, ← within.held, joined, List.drop_left]

/-- Without bytes there is no attempt at a chunk. -/
theorem readChunk?_eq_none_iff {rules : Rules} :
    cursor.readChunk? rules = none ↔ cursor.unread = [] := by
  unfold readChunk?
  cases cursor.unread with
  | nil => exact ⟨fun _ => rfl, fun _ => rfl⟩
  | cons code rest => exact ⟨nofun, nofun⟩

end Cursor

namespace Reader

variable {rules : Rules} {script : Script} {reader : Reader} {bytes : Bytes}

/-- Ask so many times. -/
def ask : Nat → Reader → Transcript
  | 0, reader => ⟨[], [], reader⟩
  | calls + 1, reader =>
    let others := ask calls reader.next.reader
    ⟨reader.next.item.toList ++ others.items, reader.next.log ++ others.log, others.reader⟩

/-- However often the reader is asked, it gives nothing, reports nothing and stays as it is. -/
def Ended (reader : Reader) : Prop := ∀ calls, reader.ask calls = ⟨[], [], reader⟩

/-- A reader that once gives nothing has ended. -/
theorem ended_of_none (nothing : reader.next.item = none) : reader.Ended := by
  intro calls
  induction calls with
  | zero => rfl
  | succ calls inductionHypothesis =>
    rw [ask, next_of_none nothing, inductionHypothesis]
    rfl

/-- Behind an error a reader has ended. -/
theorem ended_of_error {reason : ScriptError} (failed : reader.next.item = some (.error reason)) :
    reader.next.reader.Ended := by
  apply ended_of_none
  have stopped : reader.next.reader.stopped = true := by
    unfold next at failed ⊢
    split
    · assumption
    · rename_i active
      rw [if_neg active] at failed
      cases attempted : reader.cursor.readChunk? reader.rules with
      | none =>
        rw [attempted] at failed
        cases failed
      | some reading =>
        rw [attempted] at failed
        have same : reading.outcome = .error reason := Option.some.inj failed
        simp only [same]
        rfl
  rw [next, if_pos stopped]

/-- An item moves the cursor forward. -/
theorem offset_lt_of_item {item : Item} (yielded : reader.next.item = some item) :
    reader.cursor.offset < reader.next.reader.cursor.offset := by
  obtain ⟨code, consumed, passed⟩ := next_passes yielded
  rw [passed.2, List.length_cons]
  omega

/-- A call leads from one place to another. -/
theorem next_within (within : reader.cursor.Within bytes) :
    reader.next.reader.cursor.Within bytes := by
  cases yielded : reader.next.item with
  | none =>
    rw [next_of_none yielded]
    exact within
  | some item =>
    obtain ⟨code, consumed, passed⟩ := next_passes yielded
    exact within.passes passed

/-- So do any number of calls. -/
theorem ask_within (within : reader.cursor.Within bytes) (calls : Nat) :
    (reader.ask calls).reader.cursor.Within bytes := by
  induction calls generalizing reader with
  | zero => exact within
  | succ calls inductionHypothesis => exact inductionHypothesis (next_within within)

/-- The cursor moves forward by at least as many bytes as there are items. -/
theorem offset_add_length_le (reader : Reader) (calls : Nat) :
    reader.cursor.offset + (reader.ask calls).items.length ≤
      (reader.ask calls).reader.cursor.offset := by
  induction calls generalizing reader with
  | zero => exact Nat.le_refl reader.cursor.offset
  | succ calls inductionHypothesis =>
    have behind := inductionHypothesis reader.next.reader
    simp only [ask, List.length_append]
    cases yielded : reader.next.item with
    | none =>
      rw [next_of_none yielded] at behind ⊢
      simpa only [Option.toList_none, List.length_nil, Nat.zero_add] using behind
    | some item =>
      have forward := offset_lt_of_item yielded
      simp only [Option.toList_some, List.length_cons, List.length_nil]
      omega

/-- Every call gives an item, or the reader has ended. -/
theorem ask_full_or_ended (reader : Reader) (calls : Nat) :
    (reader.ask calls).items.length = calls ∨ (reader.ask calls).reader.Ended := by
  induction calls generalizing reader with
  | zero => exact .inl rfl
  | succ calls inductionHypothesis =>
    cases yielded : reader.next.item with
    | none =>
      have ended := ended_of_none yielded
      rw [ended]
      exact .inr ended
    | some item =>
      simp only [ask, yielded]
      exact (inductionHypothesis reader.next.reader).imp_left (congrArg Nat.succ)

/-- What was given up to the end is what reading to the end gives. -/
theorem ask_eq_drain {calls : Nat} (finished : (reader.ask calls).reader.Ended) :
    reader.ask calls = reader.drain := by
  induction calls generalizing reader with
  | zero =>
    have silent : reader.next.item.toList ++ [] = [] := congrArg Transcript.items (finished 1)
    rw [List.append_nil, Option.toList_eq_nil_iff] at silent
    exact (drain_of_none silent).symm
  | succ calls inductionHypothesis =>
    cases yielded : reader.next.item with
    | none => rw [ended_of_none yielded, drain_of_none yielded]
    | some item =>
      have others := inductionHypothesis finished
      rw [drain_of_some yielded, ← others]
      simp only [ask, yielded]
      rfl

/-- What holds of a reader whatever it meets: where it is, and what the next call does. -/
structure Safe (script : Script) (reader : Reader) : Prop where
  /-- The reader is in the script or at its end. -/
  inside : reader.cursor.offset ≤ script.size
  /-- A call that gives nothing changes nothing, and no call behind it gives anything. -/
  fused : reader.next.item = none → reader.next.reader = reader ∧ reader.Ended
  /-- An item moves the reader forward. -/
  forward : ∀ item, reader.next.item = some item →
    reader.cursor.offset < reader.next.reader.cursor.offset
  /-- Behind an error nothing is given. -/
  final : ∀ reason, reader.next.item = some (.error reason) → reader.next.reader.Ended

/-- The cursor of a reader at the beginning is a place in its script. -/
theorem start_within (rules : Rules) (script : Script) :
    (start rules script).cursor.Within script.bytes :=
  ⟨Nat.zero_le _, rfl⟩

/-- However often it is asked, a reader is safe. -/
theorem ask_safe (rules : Rules) (script : Script) (calls : Nat) :
    ((start rules script).ask calls).reader.Safe script where
  inside := (ask_within (start_within rules script) calls).bounded
  fused nothing := ⟨congrArg Step.reader (next_of_none nothing), ended_of_none nothing⟩
  forward _ yielded := offset_lt_of_item yielded
  final _ failed := ended_of_error failed

/-- There are not more items than bytes, however often a reader is asked. -/
theorem length_ask_le (rules : Rules) (script : Script) (calls : Nat) :
    ((start rules script).ask calls).items.length ≤ script.size := by
  have forward := offset_add_length_le (start rules script) calls
  have bounded := (ask_within (start_within rules script) calls).bounded
  exact Nat.le_trans (Nat.le_trans (Nat.le_add_left _ _) forward) bounded

/-- Asked as often as there are bytes, a reader has ended. Had every call given an item, the
cursor would be at the end of the bytes. -/
theorem ended_of_size_le {calls : Nat} (often : script.size ≤ calls) :
    ((start rules script).ask calls).reader.Ended := by
  cases ask_full_or_ended (start rules script) calls with
  | inr ended => exact ended
  | inl full =>
    have forward := offset_add_length_le (start rules script) calls
    have within := ask_within (start_within rules script) calls
    have passed : script.size ≤ ((start rules script).ask calls).reader.cursor.offset := by omega
    have nothing := within.unread_eq_nil_iff.mpr passed
    apply ended_of_none
    unfold next
    split
    · rfl
    · rw [Cursor.readChunk?_eq_none_iff.mpr nothing]

end Reader

end CoinScript
