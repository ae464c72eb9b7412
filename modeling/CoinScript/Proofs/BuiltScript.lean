import CoinScript.Proofs.MinimalPush
import CoinScript.Proofs.RoundTrip
import CoinScript.Script.Builder
import CoinScript.Script.Validation

/-!
# Built scripts

Data and numbers are added to a builder in their shortest form. So if no opcode is
added that calls for data, and no data that is longer than two bytes can state, the
collected chunks can be assembled, and a reader that demands minimal pushes gives them
back: every one of them is in the form it demands. Only the size of the whole can still
be objected to.

An opcode that calls for data and comes by itself cannot be assembled, and the first
such opcode is what the builder is refused for.
-/

namespace CoinScript

namespace Chunk

/-- The chunk is written under the standard rules and is not overlong in the form in
which it is read back, so a reader that demands minimal pushes gives it back. -/
structure Canonical (chunk : Chunk) : Prop where
  /-- The chunk can be written. -/
  writable : ∃ bytes, chunk.encoding .standard = .ok bytes
  /-- What is read back uses the shortest push. -/
  short : ¬chunk.readForm.Overlong

/-- An opcode that stands alone is canonical, whatever it executes or pushes. -/
theorem canonical_operation {code : Opcode} (alone : code.isOperation = true) :
    (ofParts code none).Canonical where
  writable := ⟨[code], encoding_operation alone .standard none⟩
  short := by
    rw [ofParts, readForm_operation alone]
    exact not_overlong_none

/-- The opcode of the empty push by itself is canonical: it is read back with the
empty payload, whose shortest push it is. -/
theorem canonical_empty : (ofParts Opcode.pushEmpty none).Canonical where
  writable := ⟨[Opcode.pushEmpty], encoding_empty .standard none⟩
  short := by decide

/-- Data behind its minimal opcode is canonical as long as it can be written. -/
theorem canonical_data {data : Bytes}
    (writable : ∃ bytes, encoding .standard (ofParts (minimalPushOpcode data) (some data)) =
      .ok bytes) : (ofParts (minimalPushOpcode data) (some data)).Canonical where
  writable := writable
  short := by
    rw [ofParts, readForm_of_some]
    exact fun long => overlong_some_iff.mp long rfl

/-- The push of a small number is canonical. -/
theorem canonical_pushSmall (number : SmallNumber) : (pushSmall number).Canonical := by
  unfold pushSmall
  split
  · have empty : (ofParts (minimalPushOpcode []) (some [])).Canonical := canonical_data ⟨_, rfl⟩
    exact empty
  · rename_i nonzero
    exact canonical_operation (SmallNumber.isOperation_opcode nonzero)

/-- The shortest push of data is canonical as long as two bytes can state its length.
Longer data would need the form whose length the rules limit. -/
theorem canonical_push {data : Bytes} (statable : data.length ≤ 65535) :
    (push data).Canonical := by
  have sound : (push data).Sound .standard :=
    sound_push fun long => absurd statable (Nat.not_le_of_lt long)
  unfold push
  cases numbered : SmallNumber.ofBytes? data with
  | some number => exact canonical_pushSmall number
  | none =>
    simp only [push, numbered] at sound
    exact canonical_data ⟨_, sound.encoding_eq⟩

/-- A chunk with the content of an overlong one is overlong. -/
theorem Overlong.congr {chunk other : Chunk} (long : chunk.Overlong)
    (same : other.sameContent chunk = true) : other.Overlong := by
  obtain ⟨sameCode, samePayload⟩ := of_decide_eq_true same
  unfold Overlong
  rw [sameCode, samePayload]
  exact long

/-- Every chunk read back has the content of one that was put together, in its read
form. -/
theorem ReadBack.exists_sameContent {start : Nat} {chunks found : List Chunk}
    (readBack : ReadBack start chunks found) {parsed : Chunk} (member : parsed ∈ found) :
    ∃ chunk ∈ chunks, chunk.readForm.sameContent parsed = true := by
  obtain ⟨index, inside, rfl⟩ := List.getElem_of_mem member
  have within : index < chunks.length := readBack.count ▸ inside
  obtain ⟨parsed, _, located, same, _, _⟩ := readBack.each index within
  rw [List.getElem?_eq_getElem inside] at located
  cases located
  exact ⟨chunks[index], List.getElem_mem within, same⟩

end Chunk

/-- Chunks that are all canonical are assembled with nothing reported, and a reader that
demands minimal pushes gives them back.

Proof: a reader that accepts every encoding gives back what was written, and none of
it is overlong, so the demanding reader's run is the same. -/
theorem Script.ofChunks_canonical {chunks : List Chunk}
    (canonical : ∀ chunk ∈ chunks, chunk.Canonical) :
    ∃ script found, ofChunks chunks = ⟨.ok script, []⟩ ∧
      Run .standard 0 script.bytes (found.map .ok) [] ∧ Chunk.ReadBack 0 chunks found := by
  obtain ⟨written, appended⟩ := Chunk.appendAll_of_encodings
    (fun chunk member => (canonical chunk member).writable) []
  have tighter : Rules.standard.Tightens .relaxed := ⟨rfl, rfl, rfl⟩
  have succeeded : (Chunk.appendAll .standard chunks []).outcome = .ok () := by rw [appended]
  obtain ⟨bytes, found, gathered, run, readBack⟩ :=
    Chunk.run_of_appendAll tighter.sameSize.symm tighter.relaxed (by decide) chunks [] 0 succeeded
  rw [appended] at gathered
  have same : written = bytes := gathered
  subst same
  have short : ∀ chunk, .ok chunk ∈ found.map (Except.ok : Chunk → Item) → ¬chunk.Overlong := by
    intro parsed yielded long
    obtain ⟨_, member, isParsed⟩ := List.mem_map.mp yielded
    cases isParsed
    obtain ⟨chunk, collected, same⟩ := readBack.exists_sameContent member
    exact (canonical chunk collected).short (long.congr same)
  refine ⟨⟨written⟩, found, ?_, run.enforced tighter short, readBack⟩
  rw [ofChunks, assemble_eq_appendAll, appended]
  rfl

/-- A script that is read to its end with nothing reported is valid unless it is too
large. -/
theorem Script.check_of_run {rules : Rules} {script : Script} {found : List Chunk}
    (run : Run rules 0 script.bytes (found.map .ok) []) :
    script.check rules =
      ⟨if script.size ≤ rules.maxScriptSize then .ok () else .error .scriptTooLarge, []⟩ := by
  obtain ⟨items, silent⟩ := run.read_eq
  have readable : (script.read rules).chunks = .ok found := Transcript.chunks_eq_ok_iff.mpr items
  by_cases fits : script.size ≤ rules.maxScriptSize
  · have admitted : ¬rules.maxScriptSize < script.size := Nat.not_lt_of_le fits
    simp only [check, if_neg admitted, readable, silent, if_pos fits]
    rfl
  · have beyond : rules.maxScriptSize < script.size := Nat.lt_of_not_le fits
    simp only [check, if_pos beyond, if_neg fits]

namespace Builder

namespace Addition

/-- The chunk that an addition adds. -/
def added : Addition → Chunk
  | .opcode code => .ofParts code none
  | .data bytes => .push bytes
  | .number value =>
    match SmallNumber.ofInt? value with
    | some small => .pushSmall small
    | none => .push (ScriptNumber.encode value)
  | .chunk ready => ready

/-- The additions that need nothing else: opcodes that call for no data, data whose
length two bytes can state, and numbers of 64 bits. -/
inductive Complete : Addition → Prop where
  | opcode {code : Opcode} (alone : code = Opcode.pushEmpty ∨ code.isOperation = true) :
      Complete (.opcode code)
  | data {bytes : Bytes} (statable : bytes.length ≤ 65535) : Complete (.data bytes)
  | number {value : Int} (lower : -0x8000000000000000 ≤ value)
      (upper : value ≤ 0x7fffffffffffffff) : Complete (.number value)

/-- An addition that needs nothing else adds a canonical chunk. The bytes of a number
of 64 bits are few enough to be pushed as data. -/
theorem Complete.canonical {addition : Addition} (complete : addition.Complete) :
    addition.added.Canonical := by
  cases complete with
  | opcode alone =>
    rcases alone with rfl | operation
    · exact Chunk.canonical_empty
    · exact Chunk.canonical_operation operation
  | data statable => exact Chunk.canonical_push statable
  | @number value lower upper =>
    simp only [added]
    cases SmallNumber.ofInt? value with
    | some small => exact Chunk.canonical_pushSmall small
    | none =>
      have short := ScriptNumber.length_encode_le_nine lower upper
      exact Chunk.canonical_push (show (ScriptNumber.encode value).length ≤ 65535 by omega)

end Addition

/-- An addition adds its chunk behind the others. -/
theorem apply_eq (builder : Builder) (addition : Addition) :
    builder.apply addition = builder.add addition.added := by
  cases addition with
  | opcode code => rfl
  | data bytes => rfl
  | chunk chunk => rfl
  | number value =>
    simp only [apply, addNumber, Addition.added]
    cases SmallNumber.ofInt? value <;> rfl

/-- The chunks of the additions stand in order behind those that were there. -/
theorem chunks_applyAll (builder : Builder) (additions : List Addition) :
    (builder.applyAll additions).chunks = builder.chunks ++ additions.map Addition.added := by
  induction additions generalizing builder with
  | nil => exact (List.append_nil builder.chunks).symm
  | cons addition rest inductionHypothesis =>
    have first : builder.applyAll (addition :: rest) = (builder.apply addition).applyAll rest := rfl
    rw [first, inductionHypothesis, apply_eq, add, List.map_cons, List.append_assoc]
    rfl

/-- An opcode that calls for data and has none is refused for that, whoever writes it. -/
theorem encoding_starved {code : Opcode} (notEmpty : code ≠ Opcode.pushEmpty)
    (pushes : code.isOperation = false) (rules : Rules) :
    (Chunk.ofParts code none).encoding rules = .error (.missingPayload code) :=
  (Chunk.Defect.starved notEmpty pushes).encoding_eq

/-- What becomes of any sequence of additions to a new builder. If each needs nothing
else, the script is assembled with nothing reported. A reader that demands minimal
pushes gives the collected chunks back, none lost or added, each with its content in
its read form, and the script is valid unless it is too large. If some addition is an
opcode that calls for data, the first one before which every addition needs nothing
else is what the builder is refused for, whatever comes behind it.

Proof: the chunks of such additions are all canonical. An opcode that calls for data
cannot be written, and assembling ends at the first chunk that cannot. -/
theorem assemble_applyAll (additions : List Addition) :
    let builder := empty.applyAll additions
    ((∀ addition ∈ additions, addition.Complete) →
      ∃ script found, builder.assemble = ⟨.ok script, []⟩ ∧
        (script.read .standard).chunks = .ok found ∧
        Chunk.ReadBack 0 builder.chunks found ∧
        script.check .standard =
          ⟨if script.size ≤ 10000 then .ok () else .error .scriptTooLarge, []⟩) ∧
    (∀ before code after, additions = before ++ .opcode code :: after →
      (∀ addition ∈ before, addition.Complete) →
      code ≠ Opcode.pushEmpty → code.isOperation = false →
      builder.assemble =
        ⟨.error (.missingPayload code), [.chunkRefused code (.missingPayload code)]⟩) := by
  intro builder
  have collected : builder.chunks = additions.map Addition.added :=
    chunks_applyAll empty additions
  constructor
  · intro complete
    have canonical : ∀ chunk ∈ builder.chunks, chunk.Canonical := by
      intro chunk member
      rw [collected] at member
      obtain ⟨addition, given, rfl⟩ := List.mem_map.mp member
      exact (complete addition given).canonical
    obtain ⟨script, found, assembled, run, readBack⟩ := Script.ofChunks_canonical canonical
    have readable : (script.read .standard).chunks = .ok found :=
      Transcript.chunks_eq_ok_iff.mpr run.read_eq.1
    exact ⟨script, found, assembled, readable, readBack, Script.check_of_run run⟩
  · intro before code after split complete notEmpty pushes
    have writable : ∀ chunk ∈ before.map Addition.added,
        ∃ bytes, chunk.encoding .standard = .ok bytes := by
      intro chunk member
      obtain ⟨addition, given, rfl⟩ := List.mem_map.mp member
      exact (complete addition given).canonical.writable
    obtain ⟨written, appended⟩ := Chunk.appendAll_of_refused writable
      (encoding_starved notEmpty pushes .standard) (after.map Addition.added) []
    have sequence : builder.chunks =
        before.map Addition.added ++ .ofParts code none :: after.map Addition.added := by
      rw [collected, split, List.map_append, List.map_cons]
      rfl
    rw [assemble, sequence, Script.ofChunks, Script.assemble_eq_appendAll, appended]
    rfl

/-- An empty push by its opcode, a number with an opcode of its own, one without, and
data that begins like a push are built into a valid script of nine bytes and read back from it,
the empty push with its empty payload. With two opcodes among the additions that call for data,
the first one is refused. -/
theorem assemble_applyAll_mixed :
    let additions : List Addition :=
      [.opcode 0x00, .number (-1), .number 128, .data [0x4c, 0xff], .opcode 0x76]
    let starved : List Addition := [.opcode 0x76, .opcode 0x05, .data [], .opcode 0x4c]
    let collected : List Chunk := [⟨0x00, none, none⟩, ⟨0x4f, none, none⟩,
      ⟨0x02, some [0x80, 0x00], none⟩, ⟨0x02, some [0x4c, 0xff], none⟩, ⟨0x76, none, none⟩]
    let script : Script := ⟨[0x00, 0x4f, 0x02, 0x80, 0x00, 0x02, 0x4c, 0xff, 0x76]⟩
    let found : List Chunk := [⟨0x00, some [], some 0⟩, ⟨0x4f, none, some 1⟩,
      ⟨0x02, some [0x80, 0x00], some 2⟩, ⟨0x02, some [0x4c, 0xff], some 5⟩, ⟨0x76, none, some 8⟩]
    ((∀ addition ∈ additions, addition.Complete) ∧
      (empty.applyAll additions).chunks = collected ∧
      (empty.applyAll additions).assemble = ⟨.ok script, []⟩ ∧
      (script.read .standard).chunks = .ok found ∧
      Chunk.ReadBack 0 collected found ∧
      script.check .standard = ⟨.ok (), []⟩) ∧
    (starved = [.opcode 0x76] ++ .opcode 0x05 :: [.data [], .opcode 0x4c] ∧
      (∀ addition ∈ [Addition.opcode 0x76], addition.Complete) ∧
      (0x05 : Opcode) ≠ Opcode.pushEmpty ∧ Opcode.isOperation 0x05 = false ∧
      (empty.applyAll starved).assemble =
        ⟨.error (.missingPayload 0x05), [.chunkRefused 0x05 (.missingPayload 0x05)]⟩) := by
  intro additions starved collected script found
  have complete : ∀ addition ∈ additions, addition.Complete := by
    simp only [additions, List.forall_mem_cons, List.not_mem_nil, false_imp_iff, implies_true,
      and_true]
    exact ⟨.opcode (.inl rfl), .number (by decide) (by decide), .number (by decide) (by decide),
      .data (by decide), .opcode (.inr rfl)⟩
  have alone : ∀ addition ∈ [Addition.opcode 0x76], addition.Complete := by
    simp only [List.forall_mem_singleton]
    exact .opcode (.inr rfl)
  obtain ⟨assembled, parsed, built, readable, readBack, checked⟩ :=
    (assemble_applyAll additions).1 complete
  -- The script and its chunks are computed, and so they are the ones of the theorem.
  have digits : ScriptNumber.encode 128 = [0x80, 0x00] := by
    rw [ScriptNumber.encode, ScriptNumber.magnitude_of_lt (by decide) (by decide)]
    rfl
  have added : (empty.applyAll additions).chunks = collected := by
    change [.ofParts 0x00 none, .pushSmall .minusOne, .push (ScriptNumber.encode 128),
      .push [0x4c, 0xff], .ofParts 0x76 none] = collected
    rw [digits]
    rfl
  have known : (empty.applyAll additions).assemble = ⟨.ok script, []⟩ := by
    rw [assemble, added]
    rfl
  obtain rfl : script = assembled := by
    rw [known] at built
    cases built
    rfl
  have parsedAs : (script.read .standard).chunks = .ok found :=
    Transcript.chunks_eq_ok_iff.mpr (by cbv)
  obtain rfl : found = parsed := Except.ok.inj (parsedAs.symm.trans readable)
  exact ⟨⟨complete, added, known, readable, added ▸ readBack, checked⟩, rfl, alone, by decide, rfl,
    (assemble_applyAll starved).2 _ _ _ rfl alone (by decide) rfl⟩

end Builder

end CoinScript
