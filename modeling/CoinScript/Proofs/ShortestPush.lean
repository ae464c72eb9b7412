import CoinScript.Proofs.Enforcement
import CoinScript.Proofs.Writing

/-!
# Shortest scripts

Every effect has a shortest form: an operation is its opcode, and data has the
bytes of its minimal push. Nothing that can be read has an effect in fewer bytes,
and what has it in equally many bytes is the same bytes.

A reader that demands minimal pushes accepts the shortest forms and nothing else.
So a script it accepts is determined by its effects, and is no longer than any
script with the same effects, however that one is encoded.
-/

namespace CoinScript

namespace SmallNumber

/-- Every small number but zero has the opcode of an operation. -/
theorem isOperation_opcode {number : SmallNumber} (nonzero : number.value ≠ 0) :
    number.opcode.isOperation = true := by
  have lower := number.lower
  have upper := number.upper
  rw [Opcode.isOperation_iff, opcode, if_neg nonzero, UInt8.toNat_ofNat']
  omega

/-- A byte string that is the shortest form of a small number is empty, for zero,
or a single byte, for a number whose opcode is an operation. -/
theorem ofBytes?_eq_some {data : Bytes} {number : SmallNumber}
    (found : ofBytes? data = some number) :
    (data = [] ∧ number = zero) ∨ (data.length = 1 ∧ number.opcode.isOperation = true) := by
  unfold ofBytes? at found
  split at found
  · exact .inl ⟨rfl, (Option.some.inj found).symm⟩
  · rename_i byte
    refine .inr ⟨rfl, isOperation_opcode ?_⟩
    split at found
    · cases found
      decide
    · split at found
      · cases found
      · rename_i nonzero
        intro isZero
        rw [value_of_ofInt? found] at isZero
        apply nonzero
        apply UInt8.toNat_inj.mp
        exact Int.ofNat_eq_zero.mp isZero
  · cases found

end SmallNumber

namespace ScriptNumber

/-- A magnitude of one digit is written as that digit. -/
theorem magnitude_of_lt {number : Nat} (positive : 0 < number) (short : number < 256) :
    magnitude number = [UInt8.ofNat number] := by
  have noMore : number / 256 = 0 := by omega
  rw [magnitude, if_neg (Nat.ne_of_gt positive), noMore, magnitude, if_pos rfl]

/-- A number below 128 in magnitude is written as one byte, with the sign in its top
bit. -/
theorem encode_of_natAbs_lt {number : Int} (nonzero : number ≠ 0) (short : number.natAbs < 128) :
    encode number =
      [if number < 0 then UInt8.ofNat number.natAbs + 128 else UInt8.ofNat number.natAbs] := by
  have low : (UInt8.ofNat number.natAbs).toNat < 128 := by
    rw [UInt8.toNat_ofNat']
    omega
  rw [encode, magnitude_of_lt (by omega) (by omega)]
  simp only [attachSign, if_pos low, decide_eq_true_eq]

end ScriptNumber

/-- A small number is found again from the bytes that script arithmetic reads as
the number. -/
theorem SmallNumber.ofBytes?_encode (number : SmallNumber) :
    ofBytes? (ScriptNumber.encode number.value) = some number := by
  have lower := number.lower
  have upper := number.upper
  have recovered : ofInt? number.value = some number := ofInt?_value number
  by_cases isZero : number.value = 0
  · rw [isZero] at recovered ⊢
    rw [← recovered, ScriptNumber.encode_zero]
    rfl
  rw [ScriptNumber.encode_of_natAbs_lt isZero (by omega)]
  by_cases negative : number.value < 0
  · have isMinusOne : number.value = -1 := by omega
    rw [isMinusOne] at recovered ⊢
    rw [← recovered]
    rfl
  · have byte : (UInt8.ofNat number.value.natAbs).toNat = number.value.natAbs := by
      rw [UInt8.toNat_ofNat']
      omega
    have notMinusOne : UInt8.ofNat number.value.natAbs ≠ 0x81 := by
      intro same
      have wrong := congrArg UInt8.toNat same
      rw [byte] at wrong
      have high : (0x81 : UInt8).toNat = 129 := rfl
      omega
    have notZero : UInt8.ofNat number.value.natAbs ≠ 0 := by
      intro same
      have wrong := congrArg UInt8.toNat same
      rw [byte] at wrong
      have low : (0 : UInt8).toNat = 0 := rfl
      omega
    have natural : ((number.value.natAbs : Nat) : Int) = number.value := by omega
    simp only [if_neg negative, ofBytes?, if_neg notMinusOne, if_neg notZero, byte, natural,
      recovered]

/-- The bytes of the minimal push of the data, whatever its length. -/
def shortestPush (data : Bytes) : Bytes :=
  match SmallNumber.ofBytes? data with
  | some number => [number.opcode]
  | none =>
    let code := minimalPushOpcode data
    code :: (LittleEndian.encode code.lengthSize data.length ++ data)

/-- The shortest bytes that have the effect. -/
def Effect.shortest : Effect → Bytes
  | .execute code => [code]
  | .push data => shortestPush data

/-- What the chunk does, if its opcode and payload agree. -/
def Chunk.effect (chunk : Chunk) : Except ScriptError Effect :=
  chunk.element.map Element.effect

namespace Opcode

variable {rules : Rules} {code : Opcode} {data : Bytes}

/-- An opcode that spends no bytes on the length is a length itself. -/
theorem toNat_le_of_lengthSize (pushes : code.isOperation = false) (unstated : code.lengthSize = 0) :
    code.toNat ≤ 75 := by
  rcases push_cases pushes with short | ⟨width, rfl⟩
  · exact short
  · rw [lengthSize_opcode] at unstated
    cases width <;> cases unstated

/-- Data that is no small number is pushed by the opcode that its length calls for. -/
theorem minimalPushOpcode_of_none (unnumbered : SmallNumber.ofBytes? data = none) :
    minimalPushOpcode data =
      if data.length ≤ 75 then UInt8.ofNat data.length
      else if data.length ≤ 255 then PushWidth.one.opcode
      else if data.length ≤ 65535 then PushWidth.two.opcode
      else PushWidth.four.opcode := by
  simp only [minimalPushOpcode, unnumbered]
  rfl

/-- For data that is no small number, the minimal opcode spends the fewest bytes on
the length, and no other opcode that may carry the data spends as few.

Proof: an opcode that is its own length is the minimal one. Otherwise the opcode
announces a width that admits the length, and the minimal opcode is the first of
the layouts that do. -/
theorem lengthSize_minimalPushOpcode (pushes : code.isOperation = false)
    (direct : code.toNat ≤ 75 → data.length = code.toNat)
    (limited : data.length ≤ code.maxLength rules)
    (unnumbered : SmallNumber.ofBytes? data = none) :
    (minimalPushOpcode data).lengthSize ≤ code.lengthSize ∧
      (code.lengthSize = (minimalPushOpcode data).lengthSize → code = minimalPushOpcode data) := by
  have minimal := minimalPushOpcode_of_none unnumbered
  rcases push_cases pushes with short | ⟨width, rfl⟩
  · have counted := direct short
    have same : code = minimalPushOpcode data := by
      rw [minimal, if_pos (by omega), counted, UInt8.ofNat_toNat]
    constructor
    · exact Nat.le_of_eq (congrArg lengthSize same.symm)
    · intro _
      exact same
  · rw [maxLength_opcode] at limited
    rw [lengthSize_opcode]
    have positive : 0 < width.size := by cases width <;> decide
    by_cases direct : data.length ≤ 75
    · have byte : (UInt8.ofNat data.length).toNat ≤ 75 := by
        rw [UInt8.toNat_ofNat']
        omega
      rw [minimal, if_pos direct, lengthSize_of_le byte]
      constructor
      · exact Nat.zero_le _
      · intro impossible
        omega
    rw [minimal, if_neg direct]
    by_cases one : data.length ≤ 255
    · rw [if_pos one, lengthSize_opcode]
      cases width <;> simp [PushWidth.size]
    rw [if_neg one]
    by_cases two : data.length ≤ 65535
    · rw [if_pos two, lengthSize_opcode]
      cases width with
      | one => exact absurd limited one
      | two => simp
      | four => simp [PushWidth.size]
    rw [if_neg two, lengthSize_opcode]
    cases width with
    | one => exact absurd limited one
    | two => exact absurd limited two
    | four => simp

end Opcode

namespace Chunk

variable {rules : Rules} {start : Nat} {bytes : Bytes} {chunk : Chunk}

/-- An opcode that stands alone pushes its number, or else executes. -/
theorem effect_operation {code : Opcode} (alone : code.isOperation = true)
    (position : Option Nat) :
    effect ⟨code, none, position⟩ = .ok (match SmallNumber.ofOpcode? code with
      | some number => .push (ScriptNumber.encode number.value)
      | none => .execute code) := by
  cases numbered : SmallNumber.ofOpcode? code with
  | none =>
    rw [effect, (Classified.operation alone numbered).element_eq]
    rfl
  | some number =>
    rw [effect, (Classified.number alone numbered).element_eq]
    rfl

/-- The opcode of the empty push pushes nothing also without a payload. -/
theorem effect_empty (position : Option Nat) :
    effect ⟨Opcode.pushEmpty, none, position⟩ = .ok (.push []) := by
  rw [← ScriptNumber.encode_zero]
  rfl

/-- A chunk with data that can be written pushes the data. -/
theorem effect_of_payload {code : Opcode} {data : Bytes} {position : Option Nat}
    (sound : Sound rules ⟨code, some data, position⟩) :
    effect ⟨code, some data, position⟩ = .ok (.push data) := by
  obtain ⟨pushes, direct, _⟩ := sound_some_iff.mp sound
  rcases Opcode.push_cases pushes with short | ⟨width, rfl⟩
  · rw [effect, (Classified.direct short (direct short)).element_eq]
    rfl
  · rw [effect, Classified.announced.element_eq]
    rfl

/-- Of the pushes of some data only the one with the minimal opcode has the length
of the shortest push, and it is the shortest push.

Proof: a small number takes one byte, its opcode; the only push of it that may
carry data is the empty push, for zero. For other data the layouts differ in the
bytes they spend on the length, and the minimal opcode spends the fewest. -/
theorem shortestPush_le {code : Opcode} {data : Bytes} {position : Option Nat}
    (sound : Sound rules ⟨code, some data, position⟩) :
    (shortestPush data).length ≤ (laidOut ⟨code, some data, position⟩).length ∧
      ((laidOut ⟨code, some data, position⟩).length = (shortestPush data).length →
        code = minimalPushOpcode data) ∧
      (code = minimalPushOpcode data →
        laidOut ⟨code, some data, position⟩ = shortestPush data) := by
  obtain ⟨pushes, direct, limited⟩ := sound_some_iff.mp sound
  cases numbered : SmallNumber.ofBytes? data with
  | some number =>
    have minimal : minimalPushOpcode data = number.opcode := by
      simp only [minimalPushOpcode, numbered]
    simp only [laidOut, shortestPush, numbered, minimal, List.length_cons, List.length_append,
      List.length_nil, LittleEndian.length_encode]
    rcases SmallNumber.ofBytes?_eq_some numbered with ⟨rfl, rfl⟩ | ⟨single, operation⟩
    · refine ⟨by omega, ?_, ?_⟩
      · intro sameLength
        have unstated : code.lengthSize = 0 := by omega
        have zero : 0 = code.toNat := direct (Opcode.toNat_le_of_lengthSize pushes unstated)
        exact UInt8.toNat_inj.mp zero.symm
      · rintro rfl
        rfl
    · refine ⟨by omega, fun impossible => absurd impossible (by omega), ?_⟩
      intro sameCode
      rw [sameCode, operation] at pushes
      cases pushes
  | none =>
    obtain ⟨least, determined⟩ :=
      Opcode.lengthSize_minimalPushOpcode pushes direct limited numbered
    simp only [laidOut, shortestPush, numbered, List.length_cons, List.length_append,
      LittleEndian.length_encode]
    refine ⟨by omega, ?_, ?_⟩
    · intro sameLength
      exact determined (by omega)
    · intro sameCode
      rw [← sameCode]

/-- A chunk that can be written has an effect and is laid out in at least as many bytes as
the effect's shortest form. Only a chunk that is not overlong has as few, and it is laid out
in this form. -/
theorem Sound.shortest_le (sound : chunk.Sound rules) :
    ∃ effect, chunk.effect = .ok effect ∧ effect.shortest.length ≤ chunk.laidOut.length ∧
      (chunk.laidOut.length = effect.shortest.length → ¬chunk.Overlong) ∧
      (¬chunk.Overlong → chunk.laidOut = effect.shortest) := by
  obtain ⟨code, payload, position⟩ := chunk
  cases payload with
  | none =>
    have single : ∃ effect, Chunk.effect ⟨code, none, position⟩ = .ok effect ∧
        effect.shortest = [code] := by
      rcases sound with high | rfl
      · refine ⟨_, effect_operation (Opcode.isOperation_iff.mpr high) position, ?_⟩
        cases found : SmallNumber.ofOpcode? code with
        | none => rfl
        | some number =>
          have isCode : number.opcode = code := SmallNumber.opcode_of_ofOpcode? found
          simp only [Effect.shortest, shortestPush, SmallNumber.ofBytes?_encode, isCode]
      · exact ⟨_, effect_empty position, rfl⟩
    obtain ⟨effect, known, shortest⟩ := single
    refine ⟨effect, known, ?_, fun _ => not_overlong_none, fun _ => shortest.symm⟩
    rw [shortest]
    exact Nat.le_refl 1
  | some data =>
    obtain ⟨least, determined, reached⟩ := shortestPush_le sound
    rw [overlong_some_iff, ne_eq, Decidable.not_not]
    exact ⟨.push data, effect_of_payload sound, least, determined, reached⟩

/-- A frame is not overlong where minimal pushes are demanded. -/
theorem Frame.not_overlong (frame : Frame rules start bytes chunk)
    (demanded : rules.minimalPush = true) : ¬chunk.Overlong := by
  cases frame with
  | operation alone => exact not_overlong_none
  | push pushes sized stated limited shortest =>
    exact fun long => overlong_some_iff.mp long (shortest demanded)

/-- A frame has an effect, is at least as long as the effect's shortest bytes, and
equals them when it is no longer. Where minimal pushes are demanded it is these
bytes in any case. -/
theorem Frame.shortest_le (frame : Frame rules start bytes chunk) :
    ∃ effect, chunk.effect = .ok effect ∧ effect.shortest.length ≤ bytes.length ∧
      (bytes.length = effect.shortest.length → bytes = effect.shortest) ∧
      (rules.minimalPush = true → bytes = effect.shortest) := by
  obtain ⟨effect, known, least, determined, reached⟩ := frame.sound.shortest_le
  rw [← frame.eq_laidOut] at least determined reached
  exact ⟨effect, known, least, fun sameLength => reached (determined sameLength),
    fun demanded => reached (frame.not_overlong demanded)⟩

end Chunk

/-- A run without an error has effects, and its bytes compare with their shortest
bytes as its frames do. The induction is on the chunks; where the total is no
longer than the shortest, no frame is longer than its own. -/
theorem Run.shortest_le {rules : Rules} {start : Nat} {unread : Bytes} {chunks : List Chunk}
    {log : List ScriptEvent} (run : Run rules start unread (chunks.map .ok) log) :
    ∃ effects : List Effect, chunks.map Chunk.effect = effects.map .ok ∧
      (effects.flatMap Effect.shortest).length ≤ unread.length ∧
      (unread.length = (effects.flatMap Effect.shortest).length →
        unread = effects.flatMap Effect.shortest) ∧
      (rules.minimalPush = true → unread = effects.flatMap Effect.shortest) := by
  induction chunks generalizing start unread with
  | nil =>
    have nothing : unread = [] := run.nil_inv
    subst nothing
    exact ⟨[], rfl, Nat.le_refl _, fun _ => rfl, fun _ => rfl⟩
  | cons chunk rest inductionHypothesis =>
    obtain ⟨front, back, rfl, frame, others⟩ := run.chunk_inv
    obtain ⟨effect, first, firstLeast, firstSame, firstShortest⟩ := frame.shortest_le
    obtain ⟨effects, later, leastLater, sameLater, shortestLater⟩ := inductionHypothesis others
    refine ⟨effect :: effects, ?_, ?_, ?_, ?_⟩
    · simp only [List.map_cons, first, later]
    · simp only [List.flatMap_cons, List.length_append]
      omega
    · simp only [List.flatMap_cons, List.length_append]
      intro sameTotal
      rw [← firstSame (by omega), ← sameLater (by omega)]
    · intro demanded
      rw [List.flatMap_cons, ← firstShortest demanded, ← shortestLater demanded]

/-- A script accepted by a reader that demands minimal pushes is no longer than any
script with the same effects that can be read at all, and only it has its length.
Two scripts that are both accepted so are the same as soon as their effects are.
The two readers may differ in everything but the first one's demand.

Proof: the accepted script is the shortest bytes of its effects, and every script
with these effects is compared with them. -/
theorem minimal_script_shortest {strict other : Rules} {first second : Script}
    {chunks others : List Chunk} (demanded : strict.minimalPush = true)
    (accepted : (first.read strict).chunks = .ok chunks)
    (readable : (second.read other).chunks = .ok others)
    (sameEffects : chunks.map Chunk.effect = others.map Chunk.effect) :
    first.size ≤ second.size ∧ (first.size = second.size ↔ first = second) ∧
      (other.minimalPush = true → first = second) := by
  have firstRun := first.read_run strict
  have secondRun := second.read_run other
  rw [Transcript.chunks_eq_ok_iff.mp accepted] at firstRun
  rw [Transcript.chunks_eq_ok_iff.mp readable] at secondRun
  obtain ⟨effects, firstEffects, _, _, firstShortest⟩ := firstRun.shortest_le
  obtain ⟨otherEffects, secondEffects, least, same, secondShortest⟩ := secondRun.shortest_le
  have equal : otherEffects = effects := by
    have mapped : otherEffects.map Except.ok = effects.map (Except.ok : _ → Except ScriptError _) := by
      rw [← secondEffects, ← firstEffects, sameEffects]
    exact (List.map_inj_right fun _ _ => Except.ok.inj).mp mapped
  subst equal
  have shortest : first.bytes = otherEffects.flatMap Effect.shortest := firstShortest demanded
  have ofBytes (sameBytes : first.bytes = second.bytes) : first = second :=
    congrArg Script.mk sameBytes
  unfold Script.size
  rw [shortest] at ofBytes ⊢
  refine ⟨least, ⟨?_, ?_⟩, ?_⟩
  · intro sameSize
    exact ofBytes (same sameSize.symm).symm
  · intro sameScript
    rw [← sameScript, shortest]
  · intro alsoDemanded
    exact ofBytes (secondShortest alsoDemanded).symm

/-- Five, the empty string and a duplication, in their shortest forms and in longer
ones. -/
theorem minimal_script_shortest_five :
    let first : Script := ⟨[0x55, 0x00, 0x76]⟩
    let second : Script := ⟨[0x01, 0x05, 0x4d, 0x00, 0x00, 0x76]⟩
    let chunks : List Chunk :=
      [⟨0x55, none, some 0⟩, ⟨0x00, some [], some 1⟩, ⟨0x76, none, some 2⟩]
    let others : List Chunk :=
      [⟨0x01, some [0x05], some 0⟩, ⟨0x4d, some [], some 2⟩, ⟨0x76, none, some 5⟩]
    Rules.standard.minimalPush = true ∧ (first.read .standard).chunks = .ok chunks ∧
      (second.read .relaxed).chunks = .ok others ∧
      chunks.map Chunk.effect = others.map Chunk.effect ∧
      first.size ≤ second.size ∧ (first.size = second.size ↔ first = second) ∧
      (Rules.relaxed.minimalPush = true → first = second) := by
  intro first second chunks others
  have accepted : (first.read .standard).chunks = .ok chunks :=
    Transcript.chunks_eq_ok_iff.mpr (by cbv)
  have readable : (second.read .relaxed).chunks = .ok others :=
    Transcript.chunks_eq_ok_iff.mpr (by cbv)
  have five : ScriptNumber.encode 5 = [0x05] :=
    ScriptNumber.encode_of_natAbs_lt (by decide) (by decide)
  have sameEffects : chunks.map Chunk.effect = others.map Chunk.effect := by
    change [.ok (.push (ScriptNumber.encode 5)), .ok (.push []), .ok (.execute 0x76)] =
      others.map Chunk.effect
    rw [five]
    rfl
  exact ⟨rfl, accepted, readable, sameEffects,
    minimal_script_shortest rfl accepted readable sameEffects⟩

end CoinScript
