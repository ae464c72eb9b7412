import CoinScript.Opcode.Names
import CoinScript.Proofs.Wording
import Mathlib.Data.List.Nodup

/-!
# Clear name tables

Three characters have a task in a disassembly: a blank stands between two chunks, an
opening bracket before the data of a push, and an opening parenthesis before the number
of an opcode without a name. A name table is clear when its names differ from one
another and contain none of the three. Then the texts of all opcodes differ, whether an
opcode has a name or not. The standard table is clear.
-/

namespace CoinScript

/-- The text can stand between blanks: it has characters, and none of them is a blank. -/
structure Token (text : String) : Prop where
  /-- Some character is there. -/
  nonempty : text.toList ≠ []
  /-- No blank is. -/
  joined : ' ' ∉ text.toList

namespace OpcodeNames

/-- The text can stand for an opcode: also no character of it begins data. -/
structure Word (text : String) : Prop extends Token text where
  /-- No opening bracket is there. -/
  unbracketed : '[' ∉ text.toList

/-- The names of the table tell its opcodes apart and are not mistaken for the texts
of opcodes without a name. -/
structure Clear (names : OpcodeNames) : Prop where
  /-- No two opcodes share a name. -/
  distinct : ∀ {code other : Opcode} {name : String},
    names.get? code = some name → names.get? other = some name → code = other
  /-- Every name can stand for its opcode. -/
  word : ∀ {code : Opcode} {name : String}, names.get? code = some name → Word name
  /-- No name has the parenthesis that begins a number. -/
  unnumbered : ∀ {code : Opcode} {name : String}, names.get? code = some name → '(' ∉ name.toList

/-- The number of an opcode behind a mark. -/
def numbered (mark : String) (code : Opcode) : String := mark ++ toString code.toNat ++ ")"

/-- The name of an opcode or, where it has none, its number behind a mark. -/
def named (names : OpcodeNames) (mark : String) (code : Opcode) : String :=
  (names.get? code).getD (numbered mark code)

/-- Operations without a name are marked as such. -/
theorem operationName_eq (names : OpcodeNames) (code : Opcode) :
    names.operationName code = names.named "NON_OP(" code := rfl

/-- Pushes without a name are marked as such. -/
theorem pushName_eq (names : OpcodeNames) (code : Opcode) :
    names.pushName code = names.named "PUSHDATA(" code := rfl

/-- The text of an opcode that has a name is the name. -/
theorem named_of_some {names : OpcodeNames} {code : Opcode} {name : String}
    (found : names.get? code = some name) (mark : String) : names.named mark code = name := by
  rw [named, found, Option.getD_some]

/-- The text of an opcode that has no name is its number. -/
theorem named_of_none {names : OpcodeNames} {code : Opcode} (missing : names.get? code = none)
    (mark : String) : names.named mark code = numbered mark code := by
  rw [named, missing, Option.getD_none]

/-- A numbered text is the mark, the decimal digits and a closing parenthesis. -/
theorem toList_numbered (mark : String) (code : Opcode) :
    (numbered mark code).toList = mark.toList ++ Nat.toDigits 10 code.toNat ++ [')'] := by
  simp [numbered]

/-- Behind one mark the numbers of different opcodes differ, since a number is read back
from its digits. -/
theorem numbered_inj {mark : String} {code other : Opcode} :
    numbered mark code = numbered mark other ↔ code = other := by
  constructor
  · intro same
    have sameDigits : toString code.toNat = toString other.toNat :=
      (String.append_right_inj _).mp ((String.append_left_inj _).mp same)
    exact UInt8.toNat_inj.mp (decimal_inj sameDigits)
  · intro same
    rw [same]

/-- A number behind a mark that can stand for an opcode can stand for one as well. -/
theorem word_numbered {mark : String} (marked : Word mark) (code : Opcode) :
    Word (numbered mark code) := by
  have digits : ∀ char ∈ Nat.toDigits 10 code.toNat, char.isDigit = true := fun _ member =>
    Nat.isDigit_of_mem_toDigits (by decide) (by decide) member
  have absent {char : Char} (unmarked : char ∉ mark.toList) (noDigit : char.isDigit = false)
      (unclosed : char ≠ ')') : char ∉ (numbered mark code).toList := by
    rw [toList_numbered]
    simp only [List.mem_append, List.mem_singleton, not_or]
    refine ⟨⟨unmarked, ?_⟩, unclosed⟩
    intro member
    rw [digits char member] at noDigit
    cases noDigit
  have nonempty : (numbered mark code).toList ≠ [] := by
    rw [toList_numbered]
    simp
  exact ⟨⟨nonempty, absent marked.joined (by decide) (by decide)⟩,
    absent marked.unbracketed (by decide) (by decide)⟩

namespace Clear

variable {names : OpcodeNames} {mark : String}

/-- By a clear table every opcode has a text that can stand for it. -/
theorem word_named (clear : names.Clear) (marked : Word mark) (code : Opcode) :
    Word (names.named mark code) := by
  cases found : names.get? code with
  | some name =>
    rw [named_of_some found]
    exact clear.word found
  | none =>
    rw [named_of_none found]
    exact word_numbered marked code

/-- By a clear table the parenthesis in the mark tells whether an opcode has a name. -/
theorem parenthesis_mem_named (clear : names.Clear) (opened : '(' ∈ mark.toList) (code : Opcode) :
    '(' ∈ (names.named mark code).toList ↔ names.get? code = none := by
  cases found : names.get? code with
  | some name =>
    rw [named_of_some found]
    simp [clear.unnumbered found]
  | none =>
    rw [named_of_none found, toList_numbered]
    simp [opened]

/-- By a clear table different opcodes have different texts: two names differ, two
numbers do, and the parenthesis tells a number from a name. -/
theorem named_inj (clear : names.Clear) (opened : '(' ∈ mark.toList) {code other : Opcode}
    (same : names.named mark code = names.named mark other) : code = other := by
  have alike : names.get? code = none ↔ names.get? other = none := by
    rw [← clear.parenthesis_mem_named opened, same, clear.parenthesis_mem_named opened]
  cases found : names.get? code with
  | none =>
    rw [named_of_none found, named_of_none (alike.mp found)] at same
    exact numbered_inj.mp same
  | some name =>
    cases otherFound : names.get? other with
    | none =>
      rw [alike.mpr otherFound] at found
      cases found
    | some otherName =>
      rw [named_of_some found, named_of_some otherFound] at same
      subst same
      exact clear.distinct found otherFound

/-- The text of an opcode that stands alone can stand for it. -/
theorem word_operationName (clear : names.Clear) (code : Opcode) :
    Word (names.operationName code) := by
  rw [operationName_eq]
  exact clear.word_named ⟨⟨by simp, by simp⟩, by simp⟩ code

/-- The text of an opcode that pushes can stand for it. -/
theorem word_pushName (clear : names.Clear) (code : Opcode) : Word (names.pushName code) := by
  rw [pushName_eq]
  exact clear.word_named ⟨⟨by simp, by simp⟩, by simp⟩ code

/-- Opcodes that stand alone are told apart by their texts. -/
theorem operationName_inj (clear : names.Clear) {code other : Opcode} :
    names.operationName code = names.operationName other ↔ code = other := by
  rw [operationName_eq, operationName_eq]
  exact ⟨clear.named_inj (by simp), congrArg _⟩

/-- Opcodes that push are told apart by their texts. -/
theorem pushName_inj (clear : names.Clear) {code other : Opcode} :
    names.pushName code = names.pushName other ↔ code = other := by
  rw [pushName_eq, pushName_eq]
  exact ⟨clear.named_inj (by simp), congrArg _⟩

end Clear

/-- A name that is found stands in the list from which the table was built. -/
theorem mem_of_get?_ofList {entries : List (Opcode × String)} {code : Opcode} {name : String}
    (found : (ofList entries).get? code = some name) : (code, name) ∈ entries := by
  rw [get?_ofList] at found
  obtain ⟨entry, last, named⟩ := Option.map_eq_some_iff.mp found
  have sameCode : entry.1 = code := by simpa using List.find?_some last
  have member : entry ∈ entries := List.mem_reverse.mp (List.mem_of_find?_eq_some last)
  rw [← sameCode, ← named]
  exact member

/-- A table is clear when it is built from names that are, and no name occurs twice. -/
theorem clear_ofList {entries : List (Opcode × String)} (distinct : (entries.map Prod.snd).Nodup)
    (words : ∀ entry ∈ entries, Word entry.2 ∧ '(' ∉ entry.2.toList) : (ofList entries).Clear where
  distinct := by
    intro code other name found otherFound
    have sameEntry := List.inj_on_of_nodup_map distinct (mem_of_get?_ofList found)
      (mem_of_get?_ofList otherFound) rfl
    exact congrArg Prod.fst sameEntry
  word := fun found => (words _ (mem_of_get?_ofList found)).1
  unnumbered := fun found => (words _ (mem_of_get?_ofList found)).2

/-- No standard name occurs twice. -/
theorem nodup_standardEntries : (standardEntries.map Prod.snd).Nodup := by decide +kernel

/-- Every standard name has characters, and none of those that have a task. -/
theorem standardEntries_unmarked : ∀ entry ∈ standardEntries,
    entry.2.toList ≠ [] ∧ ' ' ∉ entry.2.toList ∧ '[' ∉ entry.2.toList ∧ '(' ∉ entry.2.toList := by
  simp [standardEntries, pushEntries, controlEntries, stackEntries, bytesEntries,
    arithmeticEntries, hashEntries, expansionEntries, consecutive]

/-- The standard table is clear. -/
theorem clear_standard : standard.Clear := by
  apply clear_ofList nodup_standardEntries
  intro entry member
  obtain ⟨nonempty, joined, unbracketed, unnumbered⟩ := standardEntries_unmarked entry member
  exact ⟨⟨⟨nonempty, joined⟩, unbracketed⟩, unnumbered⟩

end OpcodeNames

end CoinScript
