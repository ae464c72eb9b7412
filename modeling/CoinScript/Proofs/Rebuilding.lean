import CoinScript.Proofs.BuiltScript
import CoinScript.Proofs.Loosening

/-!
# Rebuilding scripts

A script that can be read, in whatever encoding, is rebuilt by adding its chunks to a
builder: data as data and every other chunk as its opcode. What comes out has the same
effects, each in its shortest form, so it is determined by the effects.

A reader that demands minimal pushes accepts the rebuilt script. A script that such a
reader accepts is its own rebuilt form, and no other script is. So rebuilding is the
choice of one script among all those with the same effects.
-/

namespace CoinScript

/-- What adds the chunk to a builder again: its data, or else its opcode by itself. -/
def Chunk.addition (chunk : Chunk) : Builder.Addition :=
  match chunk.payload with
  | some data => .data data
  | none => .opcode chunk.code

/-- Read the script in whatever encoding and build it again from its chunks. -/
def Script.rebuild (script : Script) : Except ScriptError Script := do
  let chunks ← (script.read .relaxed).chunks
  (Builder.empty.applyAll (chunks.map Chunk.addition)).assemble.value

/-- The shortest script that has the effects. -/
def Script.ofEffects (effects : List Effect) : Script := ⟨effects.flatMap Effect.shortest⟩

namespace Chunk

variable {start : Nat} {bytes : Bytes} {chunk : Chunk}

/-- The position of a chunk does not bear on its effect. -/
theorem effect_of_sameContent {other : Chunk} (same : chunk.sameContent other = true) :
    chunk.effect = other.effect := by
  rw [effect, effect, element_of_sameContent same]

/-- The read form of a chunk has the effect of the chunk. -/
theorem effect_readForm (chunk : Chunk) : chunk.readForm.effect = chunk.effect := by
  unfold readForm
  split
  · rename_i empty
    obtain ⟨code, payload, position⟩ := chunk
    obtain ⟨rfl, rfl⟩ := empty
    exact (effect_empty position).symm
  · rfl

/-- Reading back keeps the effects. -/
theorem ReadBack.map_effect {chunks found : List Chunk} (readBack : ReadBack start chunks found) :
    found.map effect = chunks.map effect := by
  apply List.ext_getElem?
  intro index
  by_cases inside : index < chunks.length
  · obtain ⟨parsed, _, located, same, _, _⟩ := readBack.each index inside
    have sameEffect := (effect_of_sameContent same).symm.trans (effect_readForm chunks[index])
    rw [List.getElem?_map, List.getElem?_map, located, List.getElem?_eq_getElem inside]
    exact congrArg some sameEffect
  · have outside : found.length ≤ index := readBack.count ▸ Nat.le_of_not_lt inside
    rw [List.getElem?_map, List.getElem?_map, List.getElem?_eq_none outside,
      List.getElem?_eq_none (Nat.le_of_not_lt inside)]

/-- A chunk that was read is added again as a canonical chunk of the same effect. The
relaxed rules admit no data whose length two bytes cannot state. -/
theorem Frame.addition (frame : Frame .relaxed start bytes chunk) :
    chunk.addition.added.Canonical ∧ chunk.addition.added.effect = chunk.effect := by
  have sound := frame.sound
  cases frame with
  | operation alone =>
    refine ⟨canonical_operation alone, ?_⟩
    exact effect_of_sameContent (by simp [addition, Builder.Addition.added, sameContent, ofParts])
  | @push code digits data pushes sized stated limited shortest =>
    have known := effect_of_payload sound
    have statable : data.length ≤ 65535 := by
      apply Nat.le_of_not_lt
      intro long
      have admitted : data.length ≤ 520 := sound.admits known long
      omega
    refine ⟨canonical_push statable, ?_⟩
    rw [known]
    exact effect_push data

end Chunk

/-- Additions that all add canonical chunks are assembled with nothing reported, and a
reader that demands minimal pushes gives the chunks back. -/
theorem Builder.assemble_of_canonical {additions : List Addition}
    (canonical : ∀ addition ∈ additions, addition.added.Canonical) :
    ∃ script found, (empty.applyAll additions).assemble = ⟨.ok script, []⟩ ∧
      Run .standard 0 script.bytes (found.map .ok) [] ∧
      Chunk.ReadBack 0 (additions.map Addition.added) found := by
  have collected : (empty.applyAll additions).chunks = additions.map Addition.added :=
    chunks_applyAll empty additions
  rw [assemble, collected]
  exact Script.ofChunks_canonical (List.forall_mem_map.mpr canonical)

/-- Effects that are all known are determined by the chunks that have them. -/
theorem effects_inj {effects others : List Effect}
    (same : effects.map (Except.ok : Effect → Except ScriptError Effect) = others.map .ok) :
    effects = others :=
  (List.map_inj_right fun _ _ => Except.ok.inj).mp same

/-- What a reader that demands minimal pushes accepts is the shortest script of its
effects. -/
theorem Script.eq_ofEffects {strict : Rules} {script : Script} {chunks : List Chunk}
    {effects : List Effect} (demanded : strict.minimalPush = true)
    (accepted : (script.read strict).chunks = .ok chunks)
    (known : chunks.map Chunk.effect = effects.map .ok) : script = ofEffects effects := by
  have run := script.read_run strict
  rw [Transcript.chunks_eq_ok_iff.mp accepted] at run
  obtain ⟨found, foundEffects, _, _, shortest⟩ := run.shortest_le
  have same : found = effects := effects_inj (foundEffects.symm.trans known)
  subst same
  exact congrArg Script.mk (shortest demanded)

/-- A script that can be read is rebuilt as the shortest script of its effects, which a
reader that demands minimal pushes accepts.

Proof: the chunks are added again as canonical chunks of the same effects, so the builder
assembles a script that such a reader accepts, with these effects. -/
theorem Script.rebuild_eq {script : Script} {chunks : List Chunk}
    (readable : (script.read .relaxed).chunks = .ok chunks) :
    ∃ effects found, chunks.map Chunk.effect = effects.map .ok ∧
      (ofEffects effects).size ≤ script.size ∧ script.rebuild = .ok (ofEffects effects) ∧
      ((ofEffects effects).read .standard).chunks = .ok found ∧
      found.map Chunk.effect = effects.map .ok := by
  have run := script.read_run .relaxed
  rw [Transcript.chunks_eq_ok_iff.mp readable] at run
  obtain ⟨effects, known, least, _, _⟩ := run.shortest_le
  have added : ∀ chunk ∈ chunks, chunk.addition.added.Canonical ∧
      chunk.addition.added.effect = chunk.effect := by
    intro chunk member
    obtain ⟨_, _, frame⟩ := run.frame_of_mem (List.mem_map_of_mem member)
    exact frame.addition
  have canonical : ∀ addition ∈ chunks.map Chunk.addition, addition.added.Canonical :=
    List.forall_mem_map.mpr fun chunk member => (added chunk member).1
  obtain ⟨rebuilt, found, assembled, standardRun, readBack⟩ :=
    Builder.assemble_of_canonical canonical
  have accepted : (rebuilt.read .standard).chunks = .ok found :=
    Transcript.chunks_eq_ok_iff.mpr standardRun.read_eq.1
  have kept : found.map Chunk.effect = effects.map .ok := by
    rw [readBack.map_effect, List.map_map, List.map_map, ← known]
    exact List.map_congr_left fun chunk member => (added chunk member).2
  have shortest : rebuilt = ofEffects effects := eq_ofEffects rfl accepted kept
  subst shortest
  refine ⟨effects, found, known, least, ?_, accepted, kept⟩
  rw [rebuild, readable]
  exact congrArg Logged.value assembled

/-- A script that can be read, in whatever encoding, has one rebuilt form. It is no longer
than the script, a reader that demands minimal pushes accepts it, its effects are those of
the script, and it is its own rebuilt form. The script is its rebuilt form exactly when
that reader meets no error in it.

Proof: the rebuilt form is the shortest script of the effects, and every script that the
demanding reader accepts is the shortest one of its own. -/
theorem rebuild_canonical {script : Script} {chunks : List Chunk}
    (readable : (script.read .relaxed).chunks = .ok chunks) :
    ∃ (rebuilt : Script) (found : List Chunk) (effects : List Effect),
      script.rebuild = .ok rebuilt ∧ rebuilt.size ≤ script.size ∧
      (rebuilt.read .standard).chunks = .ok found ∧
      chunks.map Chunk.effect = effects.map .ok ∧ found.map Chunk.effect = effects.map .ok ∧
      rebuilt.rebuild = .ok rebuilt ∧
      (rebuilt = script ↔ ∀ reason, .error reason ∉ (script.read .standard).items) := by
  have looser : Rules.relaxed.Loosens .standard := ⟨by decide, by decide, by decide⟩
  obtain ⟨effects, found, known, smaller, rebuilt, accepted, kept⟩ := Script.rebuild_eq readable
  refine ⟨_, found, effects, rebuilt, smaller, accepted, known, kept, ?_, ?_, ?_⟩
  · obtain ⟨again, _, sameKnown, _, rebuiltAgain, _, _⟩ :=
      Script.rebuild_eq (looser.chunks_eq accepted)
    have same : again = effects := effects_inj (sameKnown.symm.trans kept)
    rw [rebuiltAgain, same]
  · intro same
    rw [← same]
    exact Script.exists_chunks_iff.mp ⟨found, accepted⟩
  · intro complete
    obtain ⟨held, demanding⟩ := Script.exists_chunks_iff.mpr complete
    have same : held = chunks :=
      Except.ok.inj ((looser.chunks_eq demanding).symm.trans readable)
    exact (Script.eq_ofEffects rfl demanding (same ▸ known)).symm

/-- Five as data, the empty string behind a length of two bytes and two bytes behind a
length of one byte are rebuilt in their shortest forms, around a duplication. -/
theorem rebuild_canonical_five :
    let script : Script := ⟨[0x01, 0x05, 0x4d, 0x00, 0x00, 0x76, 0x4c, 0x02, 0xaa, 0xbb]⟩
    let rebuilt : Script := ⟨[0x55, 0x00, 0x76, 0x02, 0xaa, 0xbb]⟩
    let chunks : List Chunk := [⟨0x01, some [0x05], some 0⟩, ⟨0x4d, some [], some 2⟩,
      ⟨0x76, none, some 5⟩, ⟨0x4c, some [0xaa, 0xbb], some 6⟩]
    (script.read .relaxed).chunks = .ok chunks ∧ script.rebuild = .ok rebuilt ∧
      rebuilt.rebuild = .ok rebuilt ∧
      (rebuilt = script ↔ ∀ reason, .error reason ∉ (script.read .standard).items) := by
  intro script rebuilt chunks
  have readable : (script.read .relaxed).chunks = .ok chunks :=
    Transcript.chunks_eq_ok_iff.mpr (by cbv)
  have given : script.rebuild = .ok rebuilt := by
    rw [Script.rebuild, readable]
    rfl
  obtain ⟨form, found, effects, isForm, _, _, _, _, again, same⟩ := rebuild_canonical readable
  have isRebuilt : form = rebuilt := Except.ok.inj (isForm.symm.trans given)
  rw [isRebuilt] at again same
  exact ⟨readable, given, again, same⟩

end CoinScript
