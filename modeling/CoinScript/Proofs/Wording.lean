import CoinScript.ScriptError

/-!
# What reports tell

Every report of a script operation is known from its text: it names the event, and with a
refused chunk the opcode and the error. A few letters of a message tell of which kind the error
is. Two errors of one kind differ in an opcode or a number. An opcode always takes the same room
in a text, and a number reaches as far as its digits do, since no text goes on with a digit
behind a number.
-/

namespace CoinScript

/-- The text does not begin with a digit. -/
def Undigited (text : String) : Prop := ∀ char ∈ text.toList.head?, char.isDigit = false

/-- The empty text does not begin with a digit, for it has no first letter. -/
theorem undigited_empty : Undigited "" := by simp [Undigited]

/-- A text does not begin with a digit when its first part begins with something else. -/
theorem undigited_append {first : Char} {letters : List Char} (letter : first.isDigit = false)
    (rest : String) : Undigited (String.ofList (first :: letters) ++ rest) := by
  simp [Undigited, letter]

/-- The number that begins a text is all of the digits that begin it, unless the rest of the text
begins with a digit too. -/
theorem takeWhile_decimal {number : Nat} {rest : String} (ended : Undigited rest) :
    (toString number ++ rest).toList.takeWhile Char.isDigit = Nat.toDigits 10 number := by
  have digits : ∀ char ∈ Nat.toDigits 10 number, char.isDigit = true := fun _ member =>
    Nat.isDigit_of_mem_toDigits (by decide) (by decide) member
  have nothing : rest.toList.takeWhile Char.isDigit = [] := by
    unfold Undigited at ended
    cases letters : rest.toList with
    | nil => rfl
    | cons first others =>
      rw [letters] at ended
      simp [ended first rfl]
  rw [String.toList_append, Nat.toString_eq_ofList_toDigits, String.toList_ofList,
    List.takeWhile_append_of_pos digits, nothing, List.append_nil]

/-- A number that begins a text is known from it, and so is the rest of the text. -/
theorem decimal_append_inj {number other : Nat} {rest others : String} (ended : Undigited rest)
    (otherEnded : Undigited others) (same : toString number ++ rest = toString other ++ others) :
    number = other ∧ rest = others := by
  have sameDigits := congrArg (fun text => text.toList.takeWhile Char.isDigit) same
  simp only [takeWhile_decimal ended, takeWhile_decimal otherEnded] at sameDigits
  have sameNumber : number = other := by
    rw [← @Nat.ofDigitChars_ten_toDigits number, sameDigits, Nat.ofDigitChars_ten_toDigits]
  subst sameNumber
  exact ⟨rfl, (String.append_right_inj _).mp same⟩

/-- A number is known from its digits. -/
theorem decimal_inj {number other : Nat} (same : toString number = toString other) :
    number = other :=
  (decimal_append_inj undigited_empty undigited_empty (congrArg (· ++ "") same)).1

namespace ScriptError

/-- The words of a message before the first opcode or number. -/
def opening : ScriptError → String
  | .payloadOnOperation _ => "Invalid chunk state: Operation "
  | .lengthMismatch _ _ => "Invalid chunk state: Direct push opcode "
  | .missingPayload _ => "Invalid chunk state: Push opcode "
  | .pushTooLong _ _ _ => "Invalid chunk state: Payload of "
  | .unsupportedEncoding _ => "No encoding defined for opcode "
  | .notPush _ => "Precondition violated: Opcode "
  | .offsetUnknown => "Precondition violated: Chunk was not parsed from a script"
  | .truncatedPush _ => "Script ends in the middle of a push starting at offset "
  | .nonMinimalPush _ => "Push at offset "
  | .scriptTooLarge => "Script too large"

/-- What a message says behind its opening. -/
def details : ScriptError → String
  | .payloadOnOperation code => Hex.literal code ++ " carries a payload"
  | .lengthMismatch code length =>
    Hex.literal code ++ (" does not match " ++ ("payload length " ++ toString length))
  | .missingPayload code => Hex.literal code ++ " has no payload"
  | .pushTooLong code length limit =>
    toString length ++ (" bytes too long for opcode " ++
      (Hex.literal code ++ (" (max " ++ (toString limit ++ ")"))))
  | .unsupportedEncoding code => Hex.literal code
  | .notPush code => Hex.literal code ++ " is not a data push"
  | .offsetUnknown => ""
  | .truncatedPush offset => toString offset
  | .nonMinimalPush offset => toString offset ++ " is not minimally encoded"
  | .scriptTooLarge => ""

/-- A message is its opening and what it says behind it. -/
theorem message_eq (reason : ScriptError) : reason.message = reason.opening ++ reason.details := by
  -- The definitions are opened by `delta`: their equations would be found by reading the texts.
  cases reason <;> delta message opening details <;> simp only [String.append_assoc] <;> rfl

/-- The kind of the error of which a message tells, by its place among the kinds. The first
letters tell it, and where several kinds have them in common, those of the first word that they
have not. -/
def kindOf : List Char → Nat
  | 'I' :: letters =>
    match letters.drop 20 with
    | 'O' :: _ => 0
    | 'D' :: _ => 1
    | 'P' :: 'u' :: _ => 2
    | _ => 3
  | 'N' :: _ => 4
  | 'P' :: 'r' :: letters =>
    match letters.drop 21 with
    | 'O' :: _ => 5
    | _ => 6
  | 'S' :: letters =>
    match letters.drop 6 with
    | 'e' :: _ => 7
    | _ => 9
  | _ => 8

/-- The letters of a message tell the kind of the error. -/
theorem kindOf_message (reason : ScriptError) :
    kindOf reason.message.toList = reason.ctorIdx := by
  -- An opening is a literal, and a literal is made of its letters. So it need not be read.
  have letters {words : List Char} (text : String) :
      (String.ofList words ++ text).toList = words ++ text.toList := by simp
  rw [message_eq]
  cases reason <;> exact congrArg kindOf (letters _)

/-- An error is known from its message. -/
theorem message_inj {reason other : ScriptError} :
    reason.message = other.message ↔ reason = other := by
  refine ⟨fun same => ?_, congrArg message⟩
  have sameKind : reason.ctorIdx = other.ctorIdx := by
    rw [← kindOf_message, same, kindOf_message]
  rw [message_eq, message_eq] at same
  -- Of the pairs of kinds only those of one kind with itself are left.
  cases reason <;> cases other <;> cases sameKind <;>
    have sameDetails := (String.append_right_inj _).mp same
  case payloadOnOperation code another => rw [(Hex.literal_append_inj sameDetails).1]
  case lengthMismatch code length another counted =>
    obtain ⟨rfl, behind⟩ := Hex.literal_append_inj sameDetails
    have sameLength := (String.append_right_inj _).mp ((String.append_right_inj _).mp behind)
    rw [decimal_inj sameLength]
  case missingPayload code another => rw [(Hex.literal_append_inj sameDetails).1]
  case pushTooLong code length limit another counted bound =>
    obtain ⟨rfl, behind⟩ := decimal_append_inj (undigited_append (by decide) _)
      (undigited_append (by decide) _) sameDetails
    obtain ⟨rfl, behindOpcode⟩ := Hex.literal_append_inj ((String.append_right_inj _).mp behind)
    have sameLimit := (String.append_left_inj _).mp ((String.append_right_inj _).mp behindOpcode)
    rw [decimal_inj sameLimit]
  case unsupportedEncoding code another =>
    rw [(Hex.literal_append_inj (congrArg (· ++ "") sameDetails)).1]
  case notPush code another => rw [(Hex.literal_append_inj sameDetails).1]
  case offsetUnknown => rfl
  case truncatedPush offset another => rw [decimal_inj sameDetails]
  case nonMinimalPush offset another => rw [decimal_inj ((String.append_left_inj _).mp sameDetails)]
  case scriptTooLarge => rfl

end ScriptError

namespace ScriptEvent

/-- An event is known from what is reported of it. -/
theorem report_inj {event other : ScriptEvent} : event.report = other.report ↔ event = other := by
  refine ⟨fun same => ?_, congrArg report⟩
  cases event with
  | chunkRefused code reason =>
    cases other with
    | pushTruncated offset => cases congrArg Report.level same
    | chunkRefused another cause =>
      have sameText := congrArg Report.message same
      simp only [report, String.append_assoc] at sameText
      obtain ⟨rfl, behind⟩ := Hex.literal_append_inj ((String.append_right_inj _).mp sameText)
      rw [ScriptError.message_inj.mp ((String.append_right_inj _).mp behind)]
  | pushTruncated offset =>
    cases other with
    | chunkRefused another cause => cases congrArg Report.level same
    | pushTruncated another =>
      have sameText := congrArg Report.message same
      rw [decimal_inj ((String.append_right_inj _).mp sameText)]

end ScriptEvent

end CoinScript
