import CoinScript.Opcode.Basic

/-!
# Opcode names

A name table gives display names to some of the 256 opcodes. It is built from a
list of entries, a later entry taking the place of an earlier one for the same
opcode. An opcode without a name is displayed by its number, in one way where it
stands alone and in another where it pushes.

The standard table names the push of the empty string, every opcode from 76 to
185, and the one opcode that is never valid. Direct pushes have no names.
-/

namespace CoinScript

/-- Display names for some of the opcodes. -/
structure OpcodeNames where
  /-- The name of each opcode, by its number. -/
  table : Vector (Option String) 256
deriving DecidableEq

namespace OpcodeNames

/-- The table that names no opcode. -/
def empty : OpcodeNames := ⟨Vector.replicate 256 none⟩

/-- The table with one more name, in the place of any earlier one. -/
def insert (names : OpcodeNames) (code : Opcode) (name : String) : OpcodeNames :=
  ⟨names.table.set code.toNat (some name) code.toNat_lt⟩

/-- The table of a list of entries; of two entries for an opcode the later counts. -/
def ofList (entries : List (Opcode × String)) : OpcodeNames :=
  entries.foldl (fun names entry => names.insert entry.1 entry.2) empty

/-- The name of an opcode, if it has one. -/
def get? (names : OpcodeNames) (code : Opcode) : Option String :=
  names.table.get code.toFin

/-- The name of an opcode that stands alone, or its number marked as an unnamed
operation. -/
def operationName (names : OpcodeNames) (code : Opcode) : String :=
  (names.get? code).getD s!"NON_OP({code.toNat})"

/-- The name of an opcode that pushes, or its number marked as a push. -/
def pushName (names : OpcodeNames) (code : Opcode) : String :=
  (names.get? code).getD s!"PUSHDATA({code.toNat})"

/-- No name is found in the empty table. -/
theorem get?_empty (code : Opcode) : empty.get? code = none := by
  simp [get?, empty, Vector.get]

/-- An insertion changes the name of its own opcode and of no other. -/
theorem get?_insert (names : OpcodeNames) (code other : Opcode) (name : String) :
    (names.insert code name).get? other = if code = other then some name else names.get? other := by
  have lookup : ∀ table : OpcodeNames, table.get? other = table.table[other.toFin] :=
    fun _ => rfl
  rw [lookup, lookup, insert]
  simp only [Fin.getElem_fin, Vector.getElem_set]
  by_cases same : code = other
  · rw [if_pos same]
    exact if_pos (congrArg UInt8.toNat same)
  · rw [if_neg same]
    exact if_neg fun equal => same (UInt8.toNat_inj.mp equal)

/-- The name found for an opcode is that of the last entry for it. -/
theorem get?_ofList (entries : List (Opcode × String)) (code : Opcode) :
    (ofList entries).get? code =
      (entries.reverse.find? fun entry => decide (entry.1 = code)).map Prod.snd := by
  have onto : ∀ names : OpcodeNames,
      (entries.foldl (fun names entry => names.insert entry.1 entry.2) names).get? code =
        ((entries.reverse.find? fun entry => decide (entry.1 = code)).map Prod.snd).or
          (names.get? code) := by
    induction entries with
    | nil => exact fun _ => rfl
    | cons entry rest inductionHypothesis =>
      intro names
      rw [List.foldl_cons, inductionHypothesis, get?_insert, List.reverse_cons,
        List.find?_append]
      cases rest.reverse.find? fun entry => decide (entry.1 = code) with
      | some later => rfl
      | none =>
        by_cases same : entry.1 = code
        · simp [same]
        · simp [same]
  rw [ofList, onto, get?_empty, Option.or_none]

/-- Entries that follow one another in a name list, the first for the given opcode. -/
def consecutive (first : Nat) : List String → List (Opcode × String)
  | [] => []
  | name :: rest => (UInt8.ofNat first, name) :: consecutive (first + 1) rest

/-- Names of the opcodes that push. -/
def pushEntries : List (Opcode × String) :=
  consecutive 0x00 ["0"] ++
  consecutive 0x4c ["PUSHDATA1", "PUSHDATA2", "PUSHDATA4", "-1", "RESERVED"] ++
  consecutive 0x51 ["1", "2", "3", "4", "5", "6", "7", "8",
    "9", "10", "11", "12", "13", "14", "15", "16"]

/-- Names of the opcodes that steer execution. -/
def controlEntries : List (Opcode × String) :=
  consecutive 0x61 ["NOP", "VER", "IF", "NOTIF", "VERIF", "VERNOTIF", "ELSE", "ENDIF",
    "VERIFY", "RETURN"]

/-- Names of the opcodes that move stack items. -/
def stackEntries : List (Opcode × String) :=
  consecutive 0x6b ["TOALTSTACK", "FROMALTSTACK", "2DROP", "2DUP", "3DUP", "2OVER", "2ROT",
    "2SWAP", "IFDUP", "DEPTH", "DROP", "DUP", "NIP", "OVER", "PICK", "ROLL", "ROT", "SWAP",
    "TUCK"]

/-- Names of the opcodes that cut byte strings and combine their bits. -/
def bytesEntries : List (Opcode × String) :=
  consecutive 0x7e ["CAT", "SUBSTR", "LEFT", "RIGHT", "SIZE", "INVERT", "AND", "OR", "XOR",
    "EQUAL", "EQUALVERIFY", "RESERVED1", "RESERVED2"]

/-- Names of the opcodes that calculate with numbers. -/
def arithmeticEntries : List (Opcode × String) :=
  consecutive 0x8b ["1ADD", "1SUB", "2MUL", "2DIV", "NEGATE", "ABS", "NOT", "0NOTEQUAL", "ADD",
    "SUB", "MUL", "DIV", "MOD", "LSHIFT", "RSHIFT", "BOOLAND", "BOOLOR", "NUMEQUAL",
    "NUMEQUALVERIFY", "NUMNOTEQUAL", "LESSTHAN", "GREATERTHAN", "LESSTHANOREQUAL",
    "GREATERTHANOREQUAL", "MIN", "MAX", "WITHIN"]

/-- Names of the opcodes that hash and check signatures. -/
def hashEntries : List (Opcode × String) :=
  consecutive 0xa6 ["RIPEMD160", "SHA1", "SHA256", "HASH160", "HASH256", "CODESEPARATOR",
    "CHECKSIG", "CHECKSIGVERIFY", "CHECKMULTISIG", "CHECKMULTISIGVERIFY"]

/-- Names of the opcodes kept for later rules, and of the one that is never valid. -/
def expansionEntries : List (Opcode × String) :=
  consecutive 0xb0 ["NOP1", "CHECKLOCKTIMEVERIFY", "CHECKSEQUENCEVERIFY", "NOP4", "NOP5", "NOP6",
    "NOP7", "NOP8", "NOP9", "NOP10"] ++
  consecutive 0xff ["INVALIDOPCODE"]

/-- All standard names, by ascending opcode. -/
def standardEntries : List (Opcode × String) :=
  pushEntries ++ controlEntries ++ stackEntries ++ bytesEntries ++ arithmeticEntries ++
    hashEntries ++ expansionEntries

/-- The table of standard names. -/
def standard : OpcodeNames := ofList standardEntries

end OpcodeNames

end CoinScript
