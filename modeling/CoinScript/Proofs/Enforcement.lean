import CoinScript.Proofs.Run

/-!
# Demanding minimal pushes

Of two readers of one script, with the same element size, one demands minimal
pushes and the other accepts every encoding. They go in lock step over the frames
that are minimal, and over whatever neither can read. At the first push that is not
minimal the demanding reader refuses, although the other one goes on, so its run is
the other run cut at that push.

A reader asks for minimality last. So a push that cannot be read at all gives the
same error to both, and an error behind the cut is never met.
-/

namespace CoinScript

/-- The rules demand minimal pushes where the others accept every encoding, and
both admit the same element size. -/
structure Rules.Tightens (enforcing permissive : Rules) : Prop where
  /-- The longest pushes are the same. -/
  sameSize : enforcing.maxElementSize = permissive.maxElementSize
  /-- One of the two asks for the shortest encoding. -/
  demanded : enforcing.minimalPush = true
  /-- The other one does not. -/
  relaxed : permissive.minimalPush = false

namespace Chunk

/-- The chunk pushes its data in another way than the shortest. -/
def Overlong (chunk : Chunk) : Prop :=
  ∃ data, chunk.payload = some data ∧ chunk.code ≠ minimalPushOpcode data

/-- Whether a chunk is overlong is decided by its payload. -/
instance (chunk : Chunk) : Decidable chunk.Overlong :=
  match carried : chunk.payload with
  | none => isFalse (by
    rintro ⟨_, held, _⟩
    rw [carried] at held
    cases held)
  | some data => decidable_of_iff (chunk.code ≠ minimalPushOpcode data) ⟨
    fun longer => ⟨data, carried, longer⟩,
    fun ⟨_, held, longer⟩ => Option.some.inj (carried.symm.trans held) ▸ longer⟩

/-- Without data there is nothing to push in another way. -/
theorem not_overlong_none {code : Opcode} {position : Option Nat} :
    ¬Overlong ⟨code, none, position⟩ := by
  rintro ⟨_, carried, _⟩
  cases carried

/-- A push of data is overlong unless its opcode is the minimal one. -/
theorem overlong_some_iff {code : Opcode} {data : Bytes} {position : Option Nat} :
    Overlong ⟨code, some data, position⟩ ↔ code ≠ minimalPushOpcode data := by
  simp [Overlong]

variable {enforcing permissive : Rules} {start : Nat} {bytes : Bytes} {chunk : Chunk}

/-- A frame of a chunk that is not overlong is a frame for the demanding reader. -/
theorem Frame.enforced (tighter : enforcing.Tightens permissive)
    (frame : Frame permissive start bytes chunk) (short : ¬chunk.Overlong) :
    Frame enforcing start bytes chunk := by
  cases frame with
  | operation alone => exact .operation alone
  | @push code digits data pushes sized stated limited shortest =>
    have sameLimit := Opcode.maxLength_congr tighter.sameSize code
    refine .push pushes sized stated (sameLimit ▸ limited) ?_
    intro demanded
    exact Decidable.byContradiction fun longer => short (overlong_some_iff.mpr longer)

/-- The frame of an overlong chunk is refused by the demanding reader, whatever
comes behind it. -/
theorem Frame.refused (tighter : enforcing.Tightens permissive)
    (frame : Frame permissive start bytes chunk) (long : chunk.Overlong) (rest : Bytes) :
    Refusal enforcing start (bytes ++ rest) (.nonMinimalPush start) [] := by
  cases frame with
  | operation alone => exact absurd long not_overlong_none
  | @push code digits data pushes sized stated limited shortest =>
    have longer : code ≠ minimalPushOpcode data := overlong_some_iff.mp long
    have sameLimit := Opcode.maxLength_congr tighter.sameSize code
    rw [List.cons_append, List.append_assoc]
    exact .notShortest pushes sized stated (sameLimit ▸ limited) tighter.demanded longer

/-- Whatever is refused without the demand is refused with it, for the same reason. -/
theorem Refusal.enforced {unread : Bytes} {reason : ScriptError} {log : List ScriptEvent}
    (tighter : enforcing.Tightens permissive) (refusal : Refusal permissive start unread reason log) :
    Refusal enforcing start unread reason log := by
  have sameLimit (code : Opcode) : code.maxLength permissive = code.maxLength enforcing :=
    Opcode.maxLength_congr tighter.sameSize.symm code
  cases refusal with
  | lengthMissing pushes short => exact .lengthMissing pushes short
  | tooLong pushes sized beyond =>
    rw [sameLimit] at beyond ⊢
    exact .tooLong pushes sized beyond
  | dataMissing pushes sized limited short =>
    exact .dataMissing pushes sized (sameLimit _ ▸ limited) short
  | notShortest pushes sized stated limited demanded longer =>
    rw [tighter.relaxed] at demanded
    cases demanded

end Chunk

namespace Run

variable {enforcing permissive : Rules} {start : Nat} {unread : Bytes} {items : List Item}
  {log : List ScriptEvent}

/-- A run without overlong chunks is a run of the demanding reader as well. -/
theorem enforced (tighter : enforcing.Tightens permissive)
    (run : Run permissive start unread items log)
    (short : ∀ chunk, .ok chunk ∈ items → ¬chunk.Overlong) :
    Run enforcing start unread items log := by
  induction run with
  | ended start => exact .ended start
  | @yielded start bytes rest chunk items log frame others inductionHypothesis =>
    have minimal : ¬chunk.Overlong := short chunk List.mem_cons_self
    have later : ∀ other, .ok other ∈ items → ¬other.Overlong := fun other member =>
      short other (List.mem_cons_of_mem _ member)
    exact .yielded (frame.enforced tighter minimal) (inductionHypothesis later)
  | refused refusal => exact .refused (refusal.enforced tighter)

/-- A run is cut by the demanding reader at its first overlong chunk. The induction
is on the items before that chunk; none of them is an error, since an error is the
last item of a run. -/
theorem cut {before after : List Item} {chunk : Chunk} (tighter : enforcing.Tightens permissive)
    (run : Run permissive start unread (before ++ .ok chunk :: after) log)
    (short : ∀ earlier, .ok earlier ∈ before → ¬earlier.Overlong) (long : chunk.Overlong) :
    ∃ offset, chunk.sourceOffset = some offset ∧
      Run enforcing start unread (before ++ [.error (.nonMinimalPush offset)]) [] := by
  induction before generalizing start unread with
  | nil =>
    obtain ⟨bytes, rest, rfl, frame, _⟩ := run.chunk_inv
    exact ⟨start, frame.sourceOffset, .refused (frame.refused tighter long rest)⟩
  | cons item before inductionHypothesis =>
    cases item with
    | error reason =>
      have nothing : before ++ .ok chunk :: after = [] := run.error_inv.1
      simp at nothing
    | ok earlier =>
      obtain ⟨bytes, rest, rfl, frame, others⟩ := run.chunk_inv
      have minimal : ¬earlier.Overlong := short earlier List.mem_cons_self
      have later : ∀ other, .ok other ∈ before → ¬other.Overlong := fun other member =>
        short other (List.mem_cons_of_mem _ member)
      obtain ⟨offset, placed, rest⟩ := inductionHypothesis others later
      exact ⟨offset, placed, .yielded (frame.enforced tighter minimal) rest⟩

end Run

/-- Among items with an overlong chunk there is a first one. -/
theorem exists_first_overlong {items : List Item}
    (someLong : ¬∀ chunk, .ok chunk ∈ items → ¬chunk.Overlong) :
    ∃ before chunk after, items = before ++ .ok chunk :: after ∧
      (∀ earlier, .ok earlier ∈ before → ¬earlier.Overlong) ∧ chunk.Overlong := by
  let overlong : Item → Bool
    | .ok chunk => decide chunk.Overlong
    | .error _ => false
  cases found : items.find? overlong with
  | none =>
    have nowhere := List.find?_eq_none.mp found
    refine absurd ?_ someLong
    intro chunk member long
    exact nowhere _ member (decide_eq_true long)
  | some item =>
    obtain ⟨isLong, before, after, split, earlierShort⟩ := List.find?_eq_some_iff_append.mp found
    cases item with
    | error reason => cases isLong
    | ok chunk =>
      refine ⟨before, chunk, after, split, ?_, of_decide_eq_true isLong⟩
      intro earlier member
      simpa [overlong] using earlierShort _ member

/-- With minimal pushes demanded, a script yields what it yields without the demand
if no chunk of that is overlong. Otherwise it yields the items before the first
overlong chunk and then one error that names this chunk's position, whatever would
have followed. -/
theorem read_enforced {enforcing permissive : Rules} (tighter : enforcing.Tightens permissive)
    (script : Script) :
    ((∀ chunk, .ok chunk ∈ (script.read permissive).items → ¬chunk.Overlong) →
      (script.read enforcing).items = (script.read permissive).items) ∧
    ((¬∀ chunk, .ok chunk ∈ (script.read permissive).items → ¬chunk.Overlong) →
      ∃ before chunk after offset,
        (script.read permissive).items = before ++ .ok chunk :: after ∧
        (∀ earlier, .ok earlier ∈ before → ¬earlier.Overlong) ∧ chunk.Overlong ∧
        chunk.sourceOffset = some offset ∧
        (script.read enforcing).items = before ++ [.error (.nonMinimalPush offset)]) := by
  have run := script.read_run permissive
  constructor
  · intro short
    exact (run.enforced tighter short).read_eq.1
  · intro someLong
    obtain ⟨before, chunk, after, split, short, long⟩ := exists_first_overlong someLong
    rw [split] at run
    obtain ⟨offset, placed, cut⟩ := run.cut tighter short long
    exact ⟨before, chunk, after, offset, split, short, long, placed, cut.read_eq.1⟩

/-- Five pushed by its own opcode is read alike with and without the demand, up to
a push that is cut off. Five pushed as data, in the same place, is where the
demanding reading ends, and the push behind it is not looked at. -/
theorem read_enforced_five :
    let minimal : Script := ⟨[0x76, 0x55, 0x03, 0xaa]⟩
    let long : Script := ⟨[0x76, 0x01, 0x05, 0x03, 0xaa]⟩
    Rules.standard.Tightens .relaxed ∧
    ((minimal.read .relaxed).items = [.ok ⟨0x76, none, some 0⟩, .ok ⟨0x55, none, some 1⟩,
        .error (.truncatedPush 2)] ∧
      (minimal.read .standard).items = (minimal.read .relaxed).items) ∧
    ((long.read .relaxed).items = [.ok ⟨0x76, none, some 0⟩, .ok ⟨0x01, some [0x05], some 1⟩,
        .error (.truncatedPush 3)] ∧
      ∃ before chunk after offset,
        (long.read .relaxed).items = before ++ .ok chunk :: after ∧
        (∀ earlier, .ok earlier ∈ before → ¬earlier.Overlong) ∧ chunk.Overlong ∧
        chunk.sourceOffset = some offset ∧
        (long.read .standard).items = before ++ [.error (.nonMinimalPush offset)]) := by
  intro minimal long
  have minimalItems : (minimal.read .relaxed).items = [.ok ⟨0x76, none, some 0⟩,
      .ok ⟨0x55, none, some 1⟩, .error (.truncatedPush 2)] := by cbv
  have longItems : (long.read .relaxed).items = [.ok ⟨0x76, none, some 0⟩,
      .ok ⟨0x01, some [0x05], some 1⟩, .error (.truncatedPush 3)] := by cbv
  have short : ∀ chunk, .ok chunk ∈ (minimal.read .relaxed).items → ¬chunk.Overlong := by
    intro chunk member
    have listed : chunk = ⟨0x76, none, some 0⟩ ∨ chunk = ⟨0x55, none, some 1⟩ := by
      simpa [minimalItems] using member
    rcases listed with rfl | rfl <;> decide
  have someLong : ¬∀ chunk, .ok chunk ∈ (long.read .relaxed).items → ¬chunk.Overlong := by
    intro none
    exact none ⟨0x01, some [0x05], some 1⟩ (by simp [longItems]) (by decide)
  have tighter : Rules.standard.Tightens .relaxed := ⟨rfl, rfl, rfl⟩
  exact ⟨tighter, ⟨minimalItems, (read_enforced tighter minimal).1 short⟩,
    longItems, (read_enforced tighter long).2 someLong⟩

end CoinScript
