import CoinScript.Proofs.ClearNames
import CoinScript.Proofs.RoundTrip
import CoinScript.Script.Disassembly
import Mathlib.Data.List.Basic

/-!
# What a disassembly tells

By a clear name table the text of a chunk tells the bytes of its frame: data is in
brackets, which no name has, and what stands before them tells the opcode. No text of
an item is empty or has a blank, so the joined text tells how many items there are
and the text of each. The mark of an error is the text of no chunk.

Hence a script that is read to its end is known from its disassembly, also among
scripts that are not.
-/

namespace CoinScript

namespace Token

/-- The nonempty parts between the blanks of a joined text are the tokens that were
joined. That the parts are nonempty matters where nothing was joined, since an empty
text has one part, which is empty. -/
theorem words_intercalate {texts : List String} (tokens : ∀ text ∈ texts, Token text) :
    ((" ".intercalate texts).toList.splitOn ' ').filter (fun word => decide (word ≠ [])) =
      texts.map String.toList := by
  cases texts with
  | nil => simp
  | cons text rest =>
    have blankFree : ∀ word ∈ (text :: rest).map String.toList, ' ' ∉ word := by
      intro word member
      obtain ⟨token, among, rfl⟩ := List.mem_map.mp member
      exact (tokens token among).joined
    have separated : (" ".intercalate (text :: rest)).toList.splitOn ' ' =
        (text :: rest).map String.toList := by
      rw [String.toList_intercalate]
      exact List.splitOn_intercalate ' ' blankFree (List.cons_ne_nil _ _)
    rw [separated, List.filter_eq_self]
    intro word member
    obtain ⟨token, among, rfl⟩ := List.mem_map.mp member
    exact decide_eq_true (tokens token among).nonempty

/-- Lists of tokens are told apart by their joined texts. -/
theorem intercalate_inj {texts others : List String} (tokens : ∀ text ∈ texts, Token text)
    (otherTokens : ∀ text ∈ others, Token text)
    (same : " ".intercalate texts = " ".intercalate others) : texts = others := by
  have sameWords : texts.map String.toList = others.map String.toList := by
    rw [← words_intercalate tokens, ← words_intercalate otherTokens, same]
  exact List.map_injective_iff.mpr (fun _ _ => String.toList_inj.mp) sameWords

end Token

namespace Chunk

variable {names : OpcodeNames} {code : Opcode}

/-- An opcode that stands alone is shown by its text. -/
theorem display_operation (alone : code.isOperation = true) (names : OpcodeNames)
    (position : Option Nat) : display names ⟨code, none, position⟩ = names.operationName code := by
  simp [display, alone]

/-- A push is shown by the text of its opcode and, in brackets, its data. -/
theorem toList_display_push (pushes : code.isOperation = false) (names : OpcodeNames)
    (data : Bytes) (position : Option Nat) :
    (display names ⟨code, some data, position⟩).toList =
      (names.pushName code).toList ++ '[' :: ((Hex.text data).toList ++ [']']) := by
  simp [display, pushes]

/-- Letters, digits and the closing bracket are all that follows the opening one. -/
theorem not_mem_data {char : Char} (apart : char.isAlphanum = false) (unclosed : char ≠ ']')
    (data : Bytes) : char ∉ (Hex.text data).toList ++ [']'] := by
  simp only [List.mem_append, List.mem_singleton, not_or]
  refine ⟨?_, unclosed⟩
  intro member
  rw [Hex.isAlphanum_of_mem_text member] at apart
  cases apart

/-- The opening bracket of a push divides its text: neither the part before it nor the
part behind it depends on the other. -/
theorem split_data {data : Bytes} {front before behind : List Char}
    (same : front ++ '[' :: ((Hex.text data).toList ++ [']']) = before ++ '[' :: behind)
    (unbracketed : '[' ∉ before) (rest : '[' ∉ behind) :
    front = before ∧ (Hex.text data).toList ++ [']'] = behind := by
  obtain ⟨sameFront, _, sameRest⟩ :=
    (List.append_cons_inj_of_notMem unbracketed rest).mp same.symm
  exact ⟨sameFront.symm, sameRest.symm⟩

/-- An operation is never shown like a push: only the push has a bracket. -/
theorem display_operation_ne_push (clear : names.Clear) (alone : code.isOperation = true)
    {pushCode : Opcode} (pushes : pushCode.isOperation = false) (data : Bytes)
    (position pushPosition : Option Nat) :
    display names ⟨code, none, position⟩ ≠ display names ⟨pushCode, some data, pushPosition⟩ := by
  intro same
  have sameText := congrArg String.toList same
  rw [display_operation alone, toList_display_push pushes] at sameText
  apply (clear.word_operationName code).unbracketed
  rw [sameText]
  exact List.mem_append_right _ List.mem_cons_self

namespace Frame

variable {rules otherRules : Rules} {start otherStart : Nat} {bytes others : Bytes}
  {chunk other : Chunk}

/-- What a chunk that was read is shown as, is a token. -/
theorem token_display (clear : names.Clear) (frame : Frame rules start bytes chunk) :
    Token (chunk.display names) := by
  cases frame with
  | @operation code alone =>
    rw [display_operation alone]
    exact (clear.word_operationName code).toToken
  | @push code digits data pushes sized stated limited shortest =>
    have word := clear.word_pushName code
    constructor
    · rw [toList_display_push pushes]
      exact List.append_ne_nil_of_left_ne_nil word.nonempty _
    · rw [toList_display_push pushes, List.mem_append, List.mem_cons, not_or, not_or]
      exact ⟨word.joined, by decide, not_mem_data (by decide) (by decide) data⟩

/-- What a chunk that was read is shown as, is never the mark of an error: the bracket
in the mark is its first character, and data has a name before it. -/
theorem display_ne_error (clear : names.Clear) (frame : Frame rules start bytes chunk) :
    chunk.display names ≠ "[error]" := by
  intro marked
  have same : (chunk.display names).toList = [] ++ '[' :: "error]".toList := by
    rw [marked]
    simp
  cases frame with
  | @operation code alone =>
    rw [display_operation alone] at same
    apply (clear.word_operationName code).unbracketed
    rw [same]
    exact List.mem_cons_self
  | @push code digits data pushes sized stated limited shortest =>
    rw [toList_display_push pushes] at same
    have nameless : (names.pushName code).toList = [] :=
      (split_data same (by simp) (by simp)).1
    exact (clear.word_pushName code).nonempty nameless

/-- Chunks that were read and are shown alike have the same bytes. An operation and a
push are told apart by the bracket, two pushes by what is before it and behind it, and
the form of the length follows from the opcode and the data. -/
theorem bytes_eq_of_display (clear : names.Clear) (frame : Frame rules start bytes chunk)
    (otherFrame : Frame otherRules otherStart others other)
    (same : chunk.display names = other.display names) : bytes = others := by
  cases frame with
  | @operation code alone =>
    cases otherFrame with
    | @operation otherCode otherAlone =>
      rw [display_operation alone, display_operation otherAlone] at same
      rw [clear.operationName_inj.mp same]
    | push otherPushes =>
      exact absurd same (display_operation_ne_push clear alone otherPushes _ _ _)
  | @push code digits data pushes sized stated limited shortest =>
    cases otherFrame with
    | operation otherAlone =>
      exact absurd same.symm (display_operation_ne_push clear otherAlone pushes _ _ _)
    | @push otherCode otherDigits otherData otherPushes otherSized otherStated =>
      have sameText := congrArg String.toList same
      rw [toList_display_push pushes, toList_display_push otherPushes] at sameText
      obtain ⟨sameName, sameData⟩ := split_data sameText
        (clear.word_pushName otherCode).unbracketed (not_mem_data (by decide) (by decide) otherData)
      have codes : code = otherCode := clear.pushName_inj.mp (String.toList_inj.mp sameName)
      have payloads : data = otherData :=
        Hex.text_inj.mp (String.toList_inj.mp (List.append_cancel_right sameData))
      subst codes payloads
      -- The bytes that state the length are not shown; the opcode and the data tell them.
      rw [Opcode.digits_eq pushes sized stated, Opcode.digits_eq pushes otherSized otherStated]

end Frame

end Chunk

/-- What the items of a run are shown as, are tokens. -/
theorem Run.token_itemText {names : OpcodeNames} {rules : Rules} {start : Nat} {unread : Bytes}
    {items : List Item} {log : List ScriptEvent} (clear : names.Clear)
    (run : Run rules start unread items log) :
    ∀ text ∈ items.map (Script.itemText names), Token text := by
  intro text member
  obtain ⟨item, yielded, rfl⟩ := List.mem_map.mp member
  cases item with
  | error reason => exact ⟨by simp [Script.itemText], by simp [Script.itemText]⟩
  | ok chunk =>
    obtain ⟨_, _, frame⟩ := run.frame_of_mem yielded
    exact frame.token_display clear

/-- Frames and the bytes of a run are the same when their chunks are shown alike. The
induction is on the frames; a run whose items are shown as chunks was not refused. -/
theorem Frames.bytes_eq_of_display {names : OpcodeNames} {rules otherRules : Rules}
    {start otherStart : Nat} {bytes unread : Bytes} {chunks : List Chunk} {items : List Item}
    {log : List ScriptEvent} (clear : names.Clear) (frames : Frames rules start bytes chunks)
    (run : Run otherRules otherStart unread items log)
    (same : chunks.map (Chunk.display names) = items.map (Script.itemText names)) :
    bytes = unread := by
  induction frames generalizing otherStart unread items with
  | nil start =>
    have nothing : items = [] := List.map_eq_nil_iff.mp same.symm
    subst nothing
    exact run.nil_inv.symm
  | cons frame others inductionHypothesis =>
    cases run with
    | ended => cases same
    | yielded otherFrame rest =>
      obtain ⟨first, later⟩ := List.cons.inj same
      rw [frame.bytes_eq_of_display clear otherFrame first, inductionHypothesis rest later]
    | refused refusal => exact absurd (List.cons.inj same).1 (frame.display_ne_error clear)

namespace Script

variable {names : OpcodeNames}

/-- By a clear table a script that is read to its end is known from its disassembly. -/
theorem eq_of_disassemble_eq (clear : names.Clear) {first second : Script}
    (readable : ∀ reason, .error reason ∉ (first.read .relaxed).items)
    (same : first.disassemble names = second.disassemble names) : first = second := by
  have run := first.read_run .relaxed
  have otherRun := second.read_run .relaxed
  have sameTexts : (first.read .relaxed).items.map (itemText names) =
      (second.read .relaxed).items.map (itemText names) :=
    Token.intercalate_inj (run.token_itemText clear) (otherRun.token_itemText clear) same
  obtain ⟨chunks, complete, frames⟩ := run.frames_of_complete readable
  rw [complete, List.map_map] at sameTexts
  have sameBytes : first.bytes = second.bytes := frames.bytes_eq_of_display clear otherRun sameTexts
  cases first
  exact congrArg Script.mk sameBytes

/-- The disassembly of a script that is not read to its end ends with the mark of the
error. -/
theorem disassemble_of_error (names : OpcodeNames) {script : Script} {reason : ScriptError}
    (met : .error reason ∈ (script.read .relaxed).items) :
    ∃ front, script.disassemble names = front ++ "[error]" := by
  obtain ⟨chunks, bytes, rest, joined, frames, outcome⟩ := (script.read_run .relaxed).frames
  rcases outcome with ⟨_, complete, _⟩ | ⟨other, cut, _⟩
  · rw [complete] at met
    simp at met
  · rw [disassemble, cut, List.map_append]
    by_cases alone : chunks = []
    · subst alone
      exact ⟨"", by simp [itemText]⟩
    · rw [String.intercalate_append_of_ne_nil (by simpa using alone) (by simp)]
      exact ⟨_, by simp [itemText]; rfl⟩

/-- A script that is read to its end is known from its disassembly with the standard
names: no other script has the same one. That of a script which is not read to its end
ends with the mark of the error and is a different one.

Proof: the names are clear, so the joined text tells the texts of the items, and these
tell the frames, one behind the other. -/
theorem disassemble_standard_inj {first : Script}
    (readable : ∀ reason, .error reason ∉ (first.read .relaxed).items) (second : Script) :
    (first.disassemble .standard = second.disassemble .standard → first = second) ∧
    ∀ reason, .error reason ∈ (second.read .relaxed).items →
      (∃ front, second.disassemble .standard = front ++ "[error]") ∧
        first.disassemble .standard ≠ second.disassemble .standard := by
  have known : first.disassemble .standard = second.disassemble .standard → first = second :=
    eq_of_disassemble_eq OpcodeNames.clear_standard readable
  refine ⟨known, ?_⟩
  intro reason met
  refine ⟨disassemble_of_error .standard met, ?_⟩
  intro same
  rw [← known same] at met
  exact readable reason met

/-- An operation that is named by a number, two pushes in different forms and an
operation without a name; and a script that ends within its push. -/
theorem disassemble_standard_inj_numbers :
    let script : Script := ⟨[0x51, 0x01, 0x51, 0x4c, 0x01, 0x05, 0xba]⟩
    let broken : Script := ⟨[0x51, 0x02, 0x51]⟩
    let text := "1 PUSHDATA(1)[51] PUSHDATA1[05] NON_OP(186)"
    (∀ reason, .error reason ∉ (script.read .relaxed).items) ∧
      .error (.truncatedPush 1) ∈ (broken.read .relaxed).items ∧
      script.disassemble .standard = text ∧
      (∀ second : Script, text = second.disassemble .standard → script = second) ∧
      (∃ front, broken.disassemble .standard = front ++ "[error]") ∧
      script.disassemble .standard ≠ broken.disassemble .standard := by
  intro script broken text
  have items : (script.read .relaxed).items = [.ok ⟨0x51, none, some 0⟩,
      .ok ⟨0x01, some [0x51], some 1⟩, .ok ⟨0x4c, some [0x05], some 3⟩,
      .ok ⟨0xba, none, some 6⟩] := by cbv
  have brokenItems : (broken.read .relaxed).items =
      [.ok ⟨0x51, none, some 0⟩, .error (.truncatedPush 1)] := by cbv
  have readable : ∀ reason, .error reason ∉ (script.read .relaxed).items := by simp [items]
  have met : .error (.truncatedPush 1) ∈ (broken.read .relaxed).items := by simp [brokenItems]
  have shown : script.disassemble .standard = text := by
    rw [disassemble, items]
    decide +kernel
  refine ⟨readable, met, shown, ?_, (disassemble_standard_inj readable broken).2 _ met⟩
  intro second same
  exact (disassemble_standard_inj readable second).1 (shown.trans same)

end Script

end CoinScript
