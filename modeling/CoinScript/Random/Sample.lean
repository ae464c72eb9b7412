import CoinScript.Bytes.Basic
import CoinScript.Opcode.Basic
import CoinScript.Random.Uniform

/-!
# Random test data

Byte strings of a random length, opcodes that favour the boundaries between the
layouts, and values split into parts at random.

A split cuts the interval from zero to the value at random places strictly
inside. The parts are the distances between neighbouring cuts, so they add up to
the value; places may coincide, so a part may be zero, but the outermost two
never are.
-/

namespace CoinScript.Sample

variable {σ : Type} [WordSource σ]

/-- A random byte, the lowest eight bits of a word. -/
def byte (source : σ) : UInt8 × σ :=
  let word := Draw.word32 source
  (UInt8.ofNat word.1, word.2)

/-- Random bytes, their number from `low` on and below `high`. No number is that
when `low` is not below `high`; then there are no bytes and nothing is drawn. -/
def bytes (low high : Nat) (source : σ) : Bytes × σ :=
  if low < high then
    let count := Draw.between .bits64 low high source
    Draw.many byte count.1 count.2
  else ([], source)

/-- Opcodes on either side of every boundary between layouts. -/
def boundaryOpcodes : List Opcode :=
  [0x00, 0x01, 0x4b, 0x4c, 0x4d, 0x4e, 0x4f, 0x50, 0x60, 0x61]

/-- A random opcode, in one half of all cases one at a boundary. -/
def opcode (source : σ) : Opcode × σ :=
  let coin := Draw.word64 source
  if 2 * coin.1 < DrawWidth.bits64.capacity then
    let place := Draw.between .bits64 0 boundaryOpcodes.length coin.2
    (boundaryOpcodes.getD place.1 Opcode.pushEmpty, place.2)
  else byte coin.2

/-- The ends of the interval from zero to the value and the cuts in it, ascending. -/
def marks (value : Nat) (cuts : List Nat) : List Nat := ([0, value] ++ cuts).mergeSort

/-- The distances between neighbours. -/
def distances : List Nat → List Nat
  | first :: second :: rest => (second - first) :: distances (second :: rest)
  | _ => []

/-- The places at which a value is cut: between two and ten, or none when the
value leaves no place inside or none are wanted. How many are wanted is drawn in
any case. -/
def cuts (value : Nat) (source : σ) : List Nat × σ :=
  let wanted := Draw.between .bits32 0 10 source
  if 1 < value ∧ 0 < wanted.1 then
    Draw.many (Draw.between .bits128 1 value) (wanted.1 + 1) wanted.2
  else ([], wanted.2)

/-- The value split into random parts. -/
def split (value : Nat) (source : σ) : List Nat × σ :=
  let places := cuts value source
  (distances (marks value places.1), places.2)

end CoinScript.Sample
