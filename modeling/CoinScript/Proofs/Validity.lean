import CoinScript.Proofs.Enforcement
import CoinScript.Proofs.RoundTrip
import CoinScript.Script.Validation

/-!
# Validity of scripts and of chunks

A script is valid when it is not too large and reading it meets no error. Of two
readers with the same element size, the one that demands minimal pushes meets no error
exactly when the other one meets none and yields no chunk that is overlong.

The same question can be put to the chunks one by one, and the answers agree but for
one opcode. The reserved opcode belongs to the pushes by its position, so a chunk of it
can be asked whether it is minimal. It pushes nothing and is not minimal. A reader takes
it for the operation that it is and never asks.
-/

namespace CoinScript

/-- Reading gives all chunks exactly when it meets no error. -/
theorem Script.exists_chunks_iff {rules : Rules} {script : Script} :
    (∃ chunks, (script.read rules).chunks = .ok chunks) ↔
      ∀ reason, .error reason ∉ (script.read rules).items := by
  constructor
  · rintro ⟨chunks, readable⟩
    rw [Transcript.chunks_eq_ok_iff.mp readable]
    simp
  · intro complete
    obtain ⟨chunks, items, _⟩ := (script.read_run rules).frames_of_complete complete
    exact ⟨chunks, Transcript.chunks_eq_ok_iff.mpr items⟩

/-- A script is valid exactly when it is not too large and reading it meets no error. -/
theorem Script.check_eq_ok_iff {rules : Rules} {script : Script} :
    (script.check rules).value = .ok () ↔
      script.size ≤ rules.maxScriptSize ∧ ∀ reason, .error reason ∉ (script.read rules).items := by
  by_cases large : rules.maxScriptSize < script.size
  · simp only [check, if_pos large]
    constructor
    · intro refused
      cases refused
    · rintro ⟨small, _⟩
      omega
  · have small : script.size ≤ rules.maxScriptSize := Nat.le_of_not_lt large
    rw [← exists_chunks_iff]
    simp only [check, if_neg large, small, true_and]
    cases (script.read rules).chunks with
    | error reason => simp [Except.map]
    | ok chunks => simp [Except.map]

/-- With minimal pushes demanded, reading meets no error exactly when it meets none
without the demand and no chunk is overlong. -/
theorem Rules.Tightens.complete_iff {enforcing permissive : Rules}
    (tighter : enforcing.Tightens permissive) (script : Script) :
    (∀ reason, .error reason ∉ (script.read enforcing).items) ↔
      (∀ reason, .error reason ∉ (script.read permissive).items) ∧
        ∀ chunk, .ok chunk ∈ (script.read permissive).items → ¬chunk.Overlong := by
  have run := script.read_run permissive
  by_cases short : ∀ chunk, .ok chunk ∈ (script.read permissive).items → ¬chunk.Overlong
  · have same := (run.enforced tighter short).read_eq.1
    simp only [same, and_iff_left short]
  · obtain ⟨before, chunk, after, split, earlierShort, long⟩ := exists_first_overlong short
    rw [split] at run
    obtain ⟨offset, _, cut⟩ := run.cut tighter earlierShort long
    rw [cut.read_eq.1]
    constructor
    · intro complete
      exact absurd (List.mem_append_right before (List.mem_singleton_self _))
        (complete (.nonMinimalPush offset))
    · rintro ⟨_, allShort⟩
      exact absurd allShort short

/-- Among the pushes that stand alone only the reserved opcode has no number. -/
theorem SmallNumber.isSome_ofOpcode? {code : Opcode} (alone : code.isOperation = true)
    (amongPushes : code.isPush = true) (unreserved : code ≠ Opcode.reserved) :
    (ofOpcode? code).isSome = true := by
  have low : 78 < code.toNat := Opcode.isOperation_iff.mp alone
  have high : code.toNat ≤ 96 := Opcode.isPush_iff.mp amongPushes
  have notEmpty : code ≠ Opcode.pushEmpty := by
    rintro rfl
    cases alone
  have inside : -1 ≤ (code.toNat : Int) - 80 ∧ (code.toNat : Int) - 80 ≤ 16 := by omega
  rw [ofOpcode?, if_neg notEmpty, if_neg unreserved, ofInt?, dif_pos inside]
  rfl

/-- A chunk that was read is overlong unless it is minimal, if it is one of the pushes
and not the reserved opcode. -/
theorem Chunk.Frame.isMinimal_iff {rules : Rules} {start : Nat} {bytes : Bytes} {chunk : Chunk}
    (frame : Frame rules start bytes chunk) :
    (chunk.code.isPush = true → chunk.code ≠ Opcode.reserved → chunk.isMinimal = .ok true) ↔
      ¬chunk.Overlong := by
  cases frame with
  | @operation code alone =>
    refine iff_of_true ?_ not_overlong_none
    intro amongPushes unreserved
    have numbered := SmallNumber.isSome_ofOpcode? alone amongPushes unreserved
    simp only [isMinimal, amongPushes, if_true, numbered]
  | @push code digits data pushes sized stated limited shortest =>
    have unreserved : code ≠ Opcode.reserved := by
      rintro rfl
      cases pushes
    simp [overlong_some_iff, isMinimal_push pushes, Opcode.isPush_of_pushes pushes, unreserved]

/-- A script that is not too large is valid under the standard rules exactly when it can
be read without the demand for minimal pushes and every chunk found that belongs to the
pushes, apart from the reserved opcode, is minimal when it is asked.

Proof: the demand adds that no chunk is overlong, and a framed chunk is overlong unless
it is minimal. -/
theorem check_iff_isMinimal {script : Script} (small : script.size ≤ 10000) :
    (script.check .standard).value = .ok () ↔
      (∀ reason, .error reason ∉ (script.read .relaxed).items) ∧
        ∀ chunk ∈ (script.read .relaxed).found,
          chunk.code.isPush = true → chunk.code ≠ Opcode.reserved →
            chunk.isMinimal = .ok true := by
  have tighter : Rules.standard.Tightens .relaxed := ⟨rfl, rfl, rfl⟩
  have run := script.read_run .relaxed
  have admitted : script.size ≤ Rules.standard.maxScriptSize := small
  rw [Script.check_eq_ok_iff, and_iff_right admitted, tighter.complete_iff]
  refine and_congr_right fun _ => ?_
  constructor
  · intro short chunk member
    have yielded := Transcript.mem_found_iff.mp member
    obtain ⟨_, _, frame⟩ := run.frame_of_mem yielded
    exact frame.isMinimal_iff.mpr (short chunk yielded)
  · intro minimal chunk yielded
    obtain ⟨_, _, frame⟩ := run.frame_of_mem yielded
    exact frame.isMinimal_iff.mp (minimal chunk (Transcript.mem_found_iff.mpr yielded))

/-- The reserved opcode and five by its own opcode are valid and in front of a push in
its shortest form. With one more byte spent on its length, the push is neither minimal
nor valid. -/
theorem check_iff_isMinimal_two_bytes :
    let short : Script := ⟨[0x50, 0x55, 0x02, 0xaa, 0xbb]⟩
    let long : Script := ⟨[0x50, 0x55, 0x4c, 0x02, 0xaa, 0xbb]⟩
    let answered (script : Script) : Prop :=
      (∀ reason, .error reason ∉ (script.read .relaxed).items) ∧
        ∀ chunk ∈ (script.read .relaxed).found,
          chunk.code.isPush = true → chunk.code ≠ Opcode.reserved → chunk.isMinimal = .ok true
    (short.size ≤ 10000 ∧ (short.check .standard).value = .ok () ∧ answered short) ∧
    (long.size ≤ 10000 ∧ (long.check .standard).value ≠ .ok () ∧ ¬answered long) := by
  intro short long answered
  have shortItems : (short.read .standard).items = [.ok ⟨0x50, none, some 0⟩,
      .ok ⟨0x55, none, some 1⟩, .ok ⟨0x02, some [0xaa, 0xbb], some 2⟩] := by cbv
  have longItems : (long.read .standard).items = [.ok ⟨0x50, none, some 0⟩,
      .ok ⟨0x55, none, some 1⟩, .error (.nonMinimalPush 2)] := by cbv
  have accepted : (short.check .standard).value = .ok () :=
    Script.check_eq_ok_iff.mpr ⟨by decide, by simp [shortItems]⟩
  have refused : (long.check .standard).value ≠ .ok () := by
    intro valid
    have complete := (Script.check_eq_ok_iff.mp valid).2
    simp [longItems] at complete
  have shortIff : (short.check .standard).value = .ok () ↔ answered short :=
    check_iff_isMinimal (by decide)
  have longIff : (long.check .standard).value = .ok () ↔ answered long :=
    check_iff_isMinimal (by decide)
  exact ⟨⟨by decide, accepted, shortIff.mp accepted⟩, by decide, refused,
    fun minimal => refused (longIff.mpr minimal)⟩

/-- Without the exception for the reserved opcode the two answers differ. The opcode by
itself is a valid script, and the chunk that is read from it belongs to the pushes and
is not minimal. -/
theorem check_reserved_not_isMinimal :
    let script : Script := ⟨[0x50]⟩
    script.size ≤ 10000 ∧
      (script.read .relaxed).found = [⟨Opcode.reserved, none, some 0⟩] ∧
      Chunk.isMinimal ⟨Opcode.reserved, none, some 0⟩ = .ok false ∧
      ¬((script.check .standard).value = .ok () ↔
        (∀ reason, .error reason ∉ (script.read .relaxed).items) ∧
          ∀ chunk ∈ (script.read .relaxed).found,
            chunk.code.isPush = true → chunk.isMinimal = .ok true) := by
  intro script
  have found : (script.read .relaxed).found = [⟨Opcode.reserved, none, some 0⟩] := by cbv
  have items : (script.read .standard).items = [.ok ⟨Opcode.reserved, none, some 0⟩] := by cbv
  have accepted : (script.check .standard).value = .ok () :=
    Script.check_eq_ok_iff.mpr ⟨by decide, by simp [items]⟩
  have notMinimal : Chunk.isMinimal ⟨Opcode.reserved, none, some 0⟩ = .ok false := rfl
  refine ⟨by decide, found, notMinimal, ?_⟩
  intro agreed
  have minimal := (agreed.mp accepted).2 ⟨Opcode.reserved, none, some 0⟩ (by simp [found]) rfl
  rw [notMinimal] at minimal
  cases minimal

end CoinScript
