import CoinScript.Proofs.ShortestPush

/-!
# Minimal pushes

The shortest push of any data can be built, and it can be written wherever the data can be
pushed at all: only the longest form is held to the rules, and it is the shortest one for
data that no other form admits.

So a push that can be written is minimal exactly when no push of the same data that can be
written has fewer bytes, and then a push of the same data with as many bytes is the same
bytes.
-/

namespace CoinScript

namespace SmallNumber

/-- The byte string of a small number is what script arithmetic reads as the number. -/
theorem encode_of_ofBytes? {data : Bytes} {number : SmallNumber}
    (found : ofBytes? data = some number) : ScriptNumber.encode number.value = data := by
  unfold ofBytes? at found
  split at found
  · cases found
    exact ScriptNumber.encode_zero
  · rename_i byte
    split at found
    · rename_i isMinusOne
      cases found
      rw [ScriptNumber.encode_of_natAbs_lt (by decide) (by decide), isMinusOne]
      rfl
    · split at found
      · cases found
      · rename_i nonzero
        have valued : number.value = byte.toNat := value_of_ofInt? found
        have upper := number.upper
        have positive : byte.toNat ≠ 0 := fun zero => nonzero (UInt8.toNat_inj.mp zero)
        rw [ScriptNumber.encode_of_natAbs_lt (by omega) (by omega), valued,
          if_neg (by omega), Int.natAbs_natCast, UInt8.ofNat_toNat]
  · cases found

/-- The opcode of a small number is one of the pushes. -/
theorem isPush_opcode (number : SmallNumber) : number.opcode.isPush = true := by
  have upper := number.upper
  rw [Opcode.isPush_iff, opcode]
  split
  · decide
  · rw [UInt8.toNat_ofNat']
    omega

end SmallNumber

namespace Chunk

variable {rules : Rules} {chunk : Chunk} {data bytes : Bytes}

/-- The push of a small number can be written whatever the rules. -/
theorem sound_pushSmall (rules : Rules) (number : SmallNumber) :
    (pushSmall number).Sound rules := by
  unfold pushSmall
  split
  · exact .inl ⟨by decide, rfl⟩
  · rename_i nonzero
    exact .inl (Opcode.isOperation_iff.mp (SmallNumber.isOperation_opcode nonzero))

/-- The shortest push can be written unless two bytes cannot state the length of the data
and the rules do not admit it. -/
theorem sound_push (admitted : 65535 < data.length → data.length ≤ rules.maxElementSize) :
    (push data).Sound rules := by
  unfold push
  cases numbered : SmallNumber.ofBytes? data with
  | some number => exact sound_pushSmall rules number
  | none =>
    rw [Opcode.minimalPushOpcode_of_none numbered]
    by_cases direct : data.length ≤ 75
    · have byte : (UInt8.ofNat data.length).toNat = data.length := by
        rw [UInt8.toNat_ofNat']
        omega
      have short : (UInt8.ofNat data.length).toNat < 0x4c := byte.symm ▸ Nat.lt_succ_of_le direct
      rw [if_pos direct]
      exact .inl ⟨short, byte.symm⟩
    rw [if_neg direct]
    by_cases one : data.length ≤ 255
    · rw [if_pos one]
      exact .inr (.inl ⟨rfl, one⟩)
    rw [if_neg one]
    by_cases two : data.length ≤ 65535
    · rw [if_pos two]
      exact .inr (.inr (.inl ⟨rfl, two⟩))
    · rw [if_neg two]
      exact .inr (.inr (.inr ⟨rfl, admitted (Nat.lt_of_not_le two)⟩))

/-- The push of a small number is laid out in the number's opcode, in whatever form zero is
carried. -/
theorem laidOut_pushSmall (number : SmallNumber) :
    (pushSmall number).laidOut = [number.opcode] := by
  unfold pushSmall
  split
  · rename_i isZero
    rw [SmallNumber.opcode, if_pos isZero]
    rfl
  · rfl

/-- The shortest push is laid out in the bytes of the shortest push. -/
theorem laidOut_push (data : Bytes) : (push data).laidOut = shortestPush data := by
  unfold push shortestPush
  cases SmallNumber.ofBytes? data with
  | some number => exact laidOut_pushSmall number
  | none => rfl

/-- The shortest push pushes the data. What a chunk does is no question of rules, so rules
are taken that admit the data. -/
theorem effect_push (data : Bytes) : (push data).effect = .ok (.push data) := by
  have sound : (push data).Sound ⟨0, data.length, false⟩ := sound_push fun _ => Nat.le_refl _
  unfold push at sound ⊢
  cases numbered : SmallNumber.ofBytes? data with
  | none =>
    simp only [numbered] at sound ⊢
    exact effect_of_payload sound
  | some number =>
    have same := SmallNumber.encode_of_ofBytes? numbered
    simp only [pushSmall]
    split
    · rename_i isZero
      rw [← same, isZero, ScriptNumber.encode_zero]
      rfl
    · rename_i nonzero
      have alone := SmallNumber.isOperation_opcode nonzero
      rw [ofParts, effect_operation alone, SmallNumber.ofOpcode?_opcode]
      exact congrArg (Except.ok ∘ Effect.push) same

/-- An opcode that can be written by itself and pushes is that of the empty push, or has a
small number and pushes the bytes of the number. -/
theorem numbered_of_pushes {code : Opcode} {position : Option Nat}
    (sound : Sound rules ⟨code, none, position⟩)
    (pushes : effect ⟨code, none, position⟩ = .ok (.push data)) :
    (code = Opcode.pushEmpty ∧ data = []) ∨
      ∃ number, SmallNumber.ofOpcode? code = some number ∧
        data = ScriptNumber.encode number.value := by
  rcases sound with high | rfl
  · rw [effect_operation (Opcode.isOperation_iff.mpr high)] at pushes
    cases found : SmallNumber.ofOpcode? code with
    | none =>
      rw [found] at pushes
      cases pushes
    | some number =>
      rw [found] at pushes
      cases pushes
      exact .inr ⟨number, rfl, rfl⟩
  · cases (effect_empty position).symm.trans pushes
    exact .inl ⟨rfl, rfl⟩

/-- A push that can be written is minimal exactly when it is not overlong. -/
theorem Sound.isMinimal_iff (sound : chunk.Sound rules)
    (pushes : chunk.effect = .ok (.push data)) :
    chunk.isMinimal = .ok true ↔ ¬chunk.Overlong := by
  obtain ⟨code, payload, position⟩ := chunk
  cases payload with
  | some carried =>
    have calls := (sound_some_iff.mp sound).1
    simp [isMinimal_push calls, overlong_some_iff]
  | none =>
    refine iff_of_true ?_ not_overlong_none
    rcases numbered_of_pushes sound pushes with ⟨rfl, _⟩ | ⟨number, found, _⟩
    · rfl
    · have isCode : number.opcode = code := SmallNumber.opcode_of_ofOpcode? found
      have amongPushes : code.isPush = true := isCode ▸ number.isPush_opcode
      simp [isMinimal, amongPushes, found]

/-- Data that is pushed is admitted by the rules when two bytes cannot state its length. -/
theorem Sound.admits (sound : chunk.Sound rules) (pushes : chunk.effect = .ok (.push data))
    (long : 65535 < data.length) : data.length ≤ rules.maxElementSize := by
  obtain ⟨code, payload, position⟩ := chunk
  cases payload with
  | some carried =>
    rw [effect_of_payload sound] at pushes
    cases pushes
    rcases sound with ⟨short, counted⟩ | ⟨_, within⟩ | ⟨_, within⟩ | ⟨_, within⟩ <;> omega
  | none =>
    rcases numbered_of_pushes sound pushes with ⟨_, rfl⟩ | ⟨number, _, rfl⟩
    · cases long
    · have lower := number.lower
      have upper := number.upper
      have single : (ScriptNumber.encode number.value).length ≤ 1 :=
        ScriptNumber.length_encode_le (show _ < 256 by omega)
      omega

/-- The chunk pushes the data, and under the rules it is written as the bytes. -/
structure WrittenPush (rules : Rules) (chunk : Chunk) (data bytes : Bytes) : Prop where
  /-- What the chunk does is to push the data. -/
  effect_eq : chunk.effect = .ok (.push data)
  /-- Writing the chunk adds the bytes to any buffer, with nothing reported. -/
  written : ∀ buffer, chunk.appendTo rules buffer = ⟨.ok (), buffer ++ bytes, []⟩

/-- A push that can be written is written as it is laid out. -/
theorem Sound.writtenPush (sound : chunk.Sound rules) (pushes : chunk.effect = .ok (.push data)) :
    WrittenPush rules chunk data chunk.laidOut where
  effect_eq := pushes
  written := appendTo_of_encoding sound.encoding_eq

namespace WrittenPush

/-- What is written can be written. -/
theorem sound (pushed : WrittenPush rules chunk data bytes) : chunk.Sound rules :=
  appendTo_ok_iff.mp (congrArg Written.outcome (pushed.written []))

/-- What is written is what the chunk is laid out in. -/
theorem eq_laidOut (pushed : WrittenPush rules chunk data bytes) : bytes = chunk.laidOut := by
  have same := (pushed.written []).symm.trans (appendTo_of_encoding pushed.sound.encoding_eq [])
  exact congrArg Written.buffer same

/-- A push has at least the bytes of the shortest push of its data, and has these bytes if
it has no more of them or is minimal, and only then. -/
theorem shortest_le (pushed : WrittenPush rules chunk data bytes) :
    (shortestPush data).length ≤ bytes.length ∧
      (bytes.length = (shortestPush data).length → chunk.isMinimal = .ok true) ∧
      (chunk.isMinimal = .ok true → bytes = shortestPush data) := by
  obtain ⟨effect, known, least, determined, reached⟩ := pushed.sound.shortest_le
  have same : effect = .push data := Except.ok.inj (known.symm.trans pushed.effect_eq)
  subst same
  rw [pushed.sound.isMinimal_iff pushed.effect_eq, pushed.eq_laidOut]
  exact ⟨least, determined, reached⟩

/-- Where data can be pushed at all, its shortest push can be written. -/
theorem push (pushed : WrittenPush rules chunk data bytes) :
    WrittenPush rules (push data) data (shortestPush data) := by
  have sound : (Chunk.push data).Sound rules := sound_push (pushed.sound.admits pushed.effect_eq)
  rw [← laidOut_push]
  exact sound.writtenPush (effect_push data)

end WrittenPush

/-- Among the pushes of some data that can be written under the rules, a push is minimal
exactly when none of the others has fewer bytes. If it is, every other one with as many
bytes is the same bytes.

Proof: all are at least as long as the shortest push of the data, which is one of them, and
the minimal ones are the ones that have its bytes. -/
theorem isMinimal_iff_shortest {rules : Rules} {chunk : Chunk} {data bytes : Bytes}
    (pushed : WrittenPush rules chunk data bytes) :
    (chunk.isMinimal = .ok true ↔
      ∀ other others, WrittenPush rules other data others → bytes.length ≤ others.length) ∧
    (chunk.isMinimal = .ok true →
      ∀ other others, WrittenPush rules other data others →
        others.length = bytes.length → others = bytes) := by
  obtain ⟨least, determined, reached⟩ := pushed.shortest_le
  refine ⟨⟨?_, ?_⟩, ?_⟩
  · intro minimal other others otherPushed
    rw [reached minimal]
    exact otherPushed.shortest_le.1
  · intro shortest
    exact determined (Nat.le_antisymm (shortest _ _ pushed.push) least)
  · intro minimal other others otherPushed sameLength
    obtain ⟨_, otherDetermined, otherReached⟩ := otherPushed.shortest_le
    rw [reached minimal] at sameLength ⊢
    exact otherReached (otherDetermined sameLength)

/-- Two bytes behind their number are minimal. With one more byte that states the number
they are not, so that a push of them has fewer bytes. -/
theorem isMinimal_iff_shortest_two_bytes :
    let rules : Rules := ⟨9, 0, false⟩
    let data : Bytes := [0xaa, 0xbb]
    let short : Chunk := ⟨0x02, some data, none⟩
    let long : Chunk := ⟨0x4c, some data, some 7⟩
    (WrittenPush rules short data [0x02, 0xaa, 0xbb] ∧ short.isMinimal = .ok true ∧
      ∀ other others, WrittenPush rules other data others →
        3 ≤ others.length ∧ (others.length = 3 → others = [0x02, 0xaa, 0xbb])) ∧
    (WrittenPush rules long data [0x4c, 0x02, 0xaa, 0xbb] ∧ long.isMinimal = .ok false ∧
      ¬∀ other others, WrittenPush rules other data others → 4 ≤ others.length) := by
  intro rules data short long
  have shortPushed : WrittenPush rules short data [0x02, 0xaa, 0xbb] := ⟨rfl, fun _ => rfl⟩
  have longPushed : WrittenPush rules long data [0x4c, 0x02, 0xaa, 0xbb] := ⟨rfl, fun _ => rfl⟩
  have minimal : short.isMinimal = .ok true := rfl
  have notMinimal : long.isMinimal = .ok false := rfl
  obtain ⟨shortIff, unique⟩ := isMinimal_iff_shortest shortPushed
  obtain ⟨longIff, _⟩ := isMinimal_iff_shortest longPushed
  refine ⟨⟨shortPushed, minimal, ?_⟩, longPushed, notMinimal, ?_⟩
  · intro other others pushed
    exact ⟨shortIff.mp minimal other others pushed, unique minimal other others pushed⟩
  · intro shortest
    have wrong := longIff.mpr shortest
    rw [notMinimal] at wrong
    cases wrong

end Chunk

end CoinScript
