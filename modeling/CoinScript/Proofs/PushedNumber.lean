import CoinScript.Proofs.Rebuilding
import CoinScript.Proofs.ShortestNumber

/-!
# Pushed numbers

A number is added to a builder by its opcode where it has one. Its bytes are added as data,
and data that is the form of a small number is pushed by the opcode of that number. The two
meet in the same chunk for every number.

The chunk by itself makes a valid script. Reading the script gives one push, and what it
pushes is read as the number.
-/

namespace CoinScript

namespace Chunk

/-- The shortest push of a small number's bytes is the push of the number. -/
theorem push_encode (number : SmallNumber) :
    push (ScriptNumber.encode number.value) = pushSmall number := by
  simp only [push, SmallNumber.ofBytes?_encode]

/-- The shortest push of data that needs no stated length has at most one byte more than
the data. -/
theorem length_laidOut_push_le {data : Bytes} (short : data.length ≤ 75) :
    (push data).laidOut.length ≤ data.length + 1 := by
  rw [laidOut_push, shortestPush]
  cases numbered : SmallNumber.ofBytes? data with
  | some number => exact Nat.succ_le_succ (Nat.zero_le _)
  | none =>
    have direct : (UInt8.ofNat data.length).toNat ≤ 75 := by
      rw [UInt8.toNat_ofNat']
      omega
    rw [Opcode.minimalPushOpcode_of_none numbered, if_pos short]
    simp only [Opcode.lengthSize_of_le direct, LittleEndian.encode, List.nil_append,
      List.length_cons]
    exact Nat.le_refl _

/-- A canonical chunk by itself is assembled into the bytes it is laid out in. A reader that
demands minimal pushes finds one chunk in them, of the same effect. -/
theorem Canonical.assembled {chunk : Chunk} (canonical : chunk.Canonical) :
    ∃ script parsed, Script.ofChunks [chunk] = ⟨.ok script, []⟩ ∧
      script.bytes = chunk.laidOut ∧ Run .standard 0 script.bytes ([parsed].map .ok) [] ∧
      parsed.effect = chunk.effect := by
  have sound : chunk.Sound .standard := exists_encoding_iff.mp canonical.writable
  have written : Script.ofChunks [chunk] = ⟨.ok ⟨chunk.laidOut⟩, []⟩ := by
    simp [Script.ofChunks, Script.assemble, Script.assembleOnto, sound.encoding_eq]
  obtain ⟨script, found, assembled, run, readBack⟩ :=
    Script.ofChunks_canonical (List.forall_mem_singleton.mpr canonical)
  have whole : script = ⟨chunk.laidOut⟩ :=
    Except.ok.inj (congrArg Logged.value (assembled.symm.trans written))
  obtain ⟨parsed, rfl⟩ := List.length_eq_one_iff.mp readBack.count
  exact ⟨script, parsed, assembled, congrArg Script.bytes whole, run,
    (List.cons.inj readBack.map_effect).1⟩

end Chunk

namespace Builder

/-- What adding a number adds is the shortest push of its bytes, whether the number has an
opcode of its own or not. -/
theorem added_number (number : Int) :
    (Addition.number number).added = .push (ScriptNumber.encode number) := by
  simp only [Addition.added]
  cases found : SmallNumber.ofInt? number with
  | none => rfl
  | some small =>
    rw [← SmallNumber.value_of_ofInt? found]
    exact (Chunk.push_encode small).symm

/-- A number of 64 bits and its bytes add the same chunk to every builder. The chunk by
itself is assembled, with nothing reported, into a valid script of at most ten bytes. Both a
reader that demands minimal pushes and one that accepts every encoding find one chunk in it,
and the data that this chunk pushes is read as the number.

Proof: both add the shortest push of the bytes, which is canonical since the bytes are few,
and the bytes of a number are read back as the number. -/
theorem addNumber_eq_addData {number : Int} (lower : -0x8000000000000000 ≤ number)
    (upper : number ≤ 0x7fffffffffffffff) :
    ∃ chunk, (∀ builder : Builder, builder.addNumber number = builder.add chunk ∧
        builder.addData (ScriptNumber.encode number) = builder.add chunk) ∧
      ∃ script parsed data, Script.ofChunks [chunk] = ⟨.ok script, []⟩ ∧
        script.check .standard = ⟨.ok (), []⟩ ∧ script.size ≤ 10 ∧
        (script.read .standard).chunks = .ok [parsed] ∧
        (script.read .relaxed).chunks = .ok [parsed] ∧
        parsed.effect = .ok (.push data) ∧ ScriptNumber.decode data = number := by
  have few := ScriptNumber.length_encode_le_nine lower upper
  have canonical : (Chunk.push (ScriptNumber.encode number)).Canonical :=
    Chunk.canonical_push (by omega)
  obtain ⟨script, parsed, assembled, laidOut, run, sameEffect⟩ := canonical.assembled
  have small : script.size ≤ 10 := by
    rw [Script.size, laidOut]
    exact Nat.le_trans (Chunk.length_laidOut_push_le (by omega)) (Nat.succ_le_succ few)
  have valid : script.check .standard = ⟨.ok (), []⟩ := by
    rw [Script.check_of_run run, if_pos (Nat.le_trans small (by decide))]
  have readable : (script.read .standard).chunks = .ok [parsed] :=
    Transcript.chunks_eq_ok_iff.mpr run.read_eq.1
  have looser : Rules.relaxed.Loosens .standard := ⟨by decide, by decide, by decide⟩
  refine ⟨.push (ScriptNumber.encode number), ?_, script, parsed, ScriptNumber.encode number,
    assembled, valid, small, readable, looser.chunks_eq readable, ?_,
    ScriptNumber.decode_encode number⟩
  · intro builder
    refine ⟨?_, rfl⟩
    rw [← added_number]
    exact apply_eq builder (.number number)
  · rw [sameEffect, Chunk.effect_push]

/-- The least number of 64 bits is pushed as nine bytes behind their number. -/
theorem addNumber_eq_addData_least :
    let least : Int := -0x8000000000000000
    let script : Script := ⟨[0x09, 0x00, 0x00, 0x00, 0x00, 0x00, 0x00, 0x00, 0x80, 0x80]⟩
    (-0x8000000000000000 ≤ least ∧ least ≤ 0x7fffffffffffffff) ∧
      (∀ builder : Builder,
        builder.addNumber least = builder.addData (ScriptNumber.encode least)) ∧
      (empty.addNumber least).assemble = ⟨.ok script, []⟩ ∧
      script.check .standard = ⟨.ok (), []⟩ ∧ script.size ≤ 10 ∧
      ∃ parsed data, (script.read .standard).chunks = .ok [parsed] ∧
        (script.read .relaxed).chunks = .ok [parsed] ∧
        parsed.effect = .ok (.push data) ∧ ScriptNumber.decode data = least := by
  intro least script
  have lower : -0x8000000000000000 ≤ least := by decide
  have upper : least ≤ 0x7fffffffffffffff := by decide
  obtain ⟨chunk, same, found, parsed, data, assembled, valid, small, read, relaxed, pushes,
    decoded⟩ := addNumber_eq_addData lower upper
  have written : ScriptNumber.encode least =
      [0x00, 0x00, 0x00, 0x00, 0x00, 0x00, 0x00, 0x80, 0x80] := by decide +kernel
  have built : (empty.addNumber least).assemble = ⟨.ok script, []⟩ := by
    rw [(same empty).1, ← (same empty).2, written]
    rfl
  have isFound : found = script := by
    rw [(same empty).1] at built
    exact Except.ok.inj (congrArg Logged.value (assembled.symm.trans built))
  subst isFound
  exact ⟨⟨lower, upper⟩, fun builder => (same builder).1.trans (same builder).2.symm, built, valid,
    small, parsed, data, read, relaxed, pushes, decoded⟩

end Builder

end CoinScript
