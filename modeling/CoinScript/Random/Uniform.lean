import CoinScript.Random.Generator

/-!
# Uniform draws

Wider numbers are put together from words, the low half drawn first. A number
from an interval is the upper part of a wide product: a draw times the size of
the interval, shifted down by the width of the draw. Draws whose lower part is
beyond a multiple of the size would favour some numbers and are rejected.

A draw is accepted with a probability of at least one half, and by rights a rejected
draw is drawn again however often that happens. Here a bound is set to it, so that
drawing is a function: after a thousand rejections in a row the next draw counts as
it is. So the search ends, and its result lies in the interval whatever the source
yields.
-/

namespace CoinScript

/-- How many bits a draw has. -/
inductive DrawWidth where
  | bits32
  | bits64
  | bits128
deriving DecidableEq, Repr

namespace DrawWidth

/-- The number of bits. -/
def bits : DrawWidth → Nat
  | .bits32 => 32
  | .bits64 => 64
  | .bits128 => 128

/-- How many numbers there are of the width: two to the number of its bits. -/
def capacity : DrawWidth → Nat
  | .bits32 => 0x100000000
  | .bits64 => 0x10000000000000000
  | .bits128 => 0x100000000000000000000000000000000

end DrawWidth

namespace Draw

variable {σ : Type} [WordSource σ]

/-- A number of 32 bits. -/
def word32 (source : σ) : Nat × σ :=
  let drawn := WordSource.draw source
  (drawn.1.toNat, drawn.2)

/-- A number of 64 bits, its low half drawn first. -/
def word64 (source : σ) : Nat × σ :=
  let low := word32 source
  let high := word32 low.2
  (low.1 + DrawWidth.bits32.capacity * high.1, high.2)

/-- A number of 128 bits, its low half drawn first. -/
def word128 (source : σ) : Nat × σ :=
  let low := word64 source
  let high := word64 low.2
  (low.1 + DrawWidth.bits64.capacity * high.1, high.2)

/-- A number of the given width. -/
def word (width : DrawWidth) (source : σ) : Nat × σ :=
  match width with
  | .bits32 => word32 source
  | .bits64 => word64 source
  | .bits128 => word128 source

/-- One draw for each place, the first draw first. -/
def manyOnto {α : Type} (draw : σ → α × σ) (drawn : List α) : Nat → σ → List α × σ
  | 0, source => (drawn.reverse, source)
  | count + 1, source =>
    let next := draw source
    manyOnto draw (next.1 :: drawn) count next.2

/-- So many draws, the first draw first. -/
def many {α : Type} (draw : σ → α × σ) (count : Nat) (source : σ) : List α × σ :=
  manyOnto draw [] count source

/-- The greatest lower part that is accepted for intervals of the size: the size
is doubled as long as it fits the width, and one is taken away. -/
def zone (width : DrawWidth) (size : Nat) : Nat := (size <<< (width.bits - 1 - size.log2)) - 1

/-- Draw until a draw is accepted, rejecting at most so many. The bound is this library's
own: drawing as such goes on as long as draws are rejected. -/
def settle (width : DrawWidth) (size : Nat) : Nat → σ → Nat × σ
  | 0, source =>
    let drawn := word width source
    (drawn.1 * size / width.capacity, drawn.2)
  | rejections + 1, source =>
    let drawn := word width source
    if drawn.1 * size % width.capacity ≤ zone width size then
      (drawn.1 * size / width.capacity, drawn.2)
    else settle width size rejections drawn.2

/-- A number from `low` on and below `high`, every one as likely as another as long as no
thousand draws in a row are rejected. -/
def between (width : DrawWidth) (low high : Nat) (source : σ) : Nat × σ :=
  let place := settle width (high - low) 1000 source
  (low + place.1, place.2)

/-- A draw of a width is below its capacity. -/
theorem word_lt (width : DrawWidth) (source : σ) : (word width source).1 < width.capacity := by
  have low32 : ∀ from32 : σ, (word32 from32).1 < DrawWidth.bits32.capacity := fun from32 =>
    (WordSource.draw from32).1.toNat_lt
  have low64 : ∀ from64 : σ, (word64 from64).1 < DrawWidth.bits64.capacity := by
    intro from64
    have low := low32 from64
    have high := low32 (word32 from64).2
    simp only [word64, DrawWidth.capacity] at *
    omega
  cases width with
  | bits32 => exact low32 source
  | bits64 => exact low64 source
  | bits128 =>
    have low := low64 source
    have high := low64 (word64 source).2
    simp only [word, word128, DrawWidth.capacity] at *
    omega

/-- Scaling a draw to a size stays below the size. -/
theorem scaled_lt {width : DrawWidth} {value size : Nat} (drawn : value < width.capacity)
    (inhabited : 0 < size) : value * size / width.capacity < size := by
  apply Nat.div_lt_of_lt_mul
  exact Nat.mul_lt_mul_of_pos_right drawn inhabited

/-- Whatever is rejected, the place found lies within the size. -/
theorem settle_lt (width : DrawWidth) {size : Nat} (inhabited : 0 < size) (rejections : Nat)
    (source : σ) : (settle width size rejections source).1 < size := by
  induction rejections generalizing source with
  | zero => exact scaled_lt (word_lt width source) inhabited
  | succ rejections inductionHypothesis =>
    simp only [settle]
    split
    · exact scaled_lt (word_lt width source) inhabited
    · exact inductionHypothesis _

/-- A draw from an interval that is not empty lies in it. -/
theorem between_bounds (width : DrawWidth) {low high : Nat} (inhabited : low < high)
    (source : σ) :
    low ≤ (between width low high source).1 ∧ (between width low high source).1 < high := by
  have inside : (settle width (high - low) 1000 source).1 < high - low :=
    settle_lt width (by omega) 1000 source
  simp only [between]
  omega

end Draw

end CoinScript
