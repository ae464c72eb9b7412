import CoinScript.Random.ChaCha

/-!
# Reproducible random words

A word source yields one 32-bit word after another. Everything random is drawn
from such a source and from nothing else, so it is determined by the words, and
what holds for every source holds for every outcome of the draws.

The generator is the source for tests. A seed is spread over a key of eight words
by a linear congruence whose states are permuted on output, and the words are the
ChaCha blocks of that key in order of their counter. Equal seeds give equal words.
-/

namespace CoinScript

/-- A supply of 32-bit words, each draw leaving the source for the next. -/
class WordSource (σ : Type) where
  /-- The next word and the source behind it. -/
  draw : σ → UInt32 × σ

/-- The number that a generator is begun with. -/
structure Seed where
  /-- The number. -/
  value : UInt64
deriving DecidableEq, Repr

namespace Seed

/-- A seed is shown in such a way that a run can be repeated. -/
instance : ToString Seed where
  toString seed := s!"Seed({seed.value})"

/-- One step of the congruence that spreads a seed. -/
def advance (state : UInt64) : UInt64 := state * 6364136223846793005 + 11634580027462260723

/-- The word of a state: its upper bits folded together and turned right by the
topmost five. -/
def permute (state : UInt64) : UInt32 :=
  let folded := (((state >>> 18) ^^^ state) >>> 27).toUInt32
  let count := (state >>> 59).toUInt32
  (folded >>> count) ||| (folded <<< ((32 - count) % 32))

/-- The key that a seed is spread over. -/
def key (seed : Seed) : Vector UInt32 8 :=
  Vector.ofFn fun place => permute (Nat.repeat advance (place.val + 1) seed.value)

end Seed

/-- The words of a key that are still to come. -/
structure Generator where
  /-- The key that all the words come from. -/
  key : Vector UInt32 8
  /-- The counter of the next block. -/
  counter : UInt64
  /-- Words of the last block that are not yet drawn. -/
  pending : List UInt32

namespace Generator

/-- The generator of a seed, no word drawn yet. -/
def ofSeed (seed : Seed) : Generator := ⟨seed.key, 0, []⟩

/-- Draw the next word, out of the next block when the last one is used up. -/
def draw (generator : Generator) : UInt32 × Generator :=
  match generator.pending with
  | word :: rest => (word, { generator with pending := rest })
  | [] =>
    let block := ChaCha.words generator.key generator.counter
    (block[0], ⟨generator.key, generator.counter + 1, block.toList.tail⟩)

/-- The generator is a supply of words. -/
instance : WordSource Generator where
  draw := draw

end Generator

end CoinScript
