/-!
# The ChaCha block function

A block is sixteen 32-bit words. One step adds a word to another and rotates a
third by what it differs from the sum; four steps make a quarter round, and
quarter rounds over the columns and the diagonals of a block make a double round.
The block function repeats ten double rounds and adds the block it began with, so
that it cannot be run backwards.

The block of a key and a counter holds four fixed words, the key, the counter in
two words with the low one first, and two zero words.
-/

namespace CoinScript.ChaCha

/-- Sixteen words in four rows. -/
abbrev Block := Vector UInt32 16

/-- The word turned left by so many bits; what leaves at the top enters below. -/
def rotateLeft (word count : UInt32) : UInt32 := (word <<< count) ||| (word >>> (32 - count))

/-- Add one word to another, then turn a third by what it differs from the sum. -/
def mix (block : Block) (sum addend turned : Fin 16) (count : UInt32) : Block :=
  let added := block.set sum (block[sum] + block[addend])
  added.set turned (rotateLeft (added[turned] ^^^ added[sum]) count)

/-- Four steps over four words, each word changed twice. -/
def quarterRound (block : Block) (a b c d : Fin 16) : Block :=
  mix (mix (mix (mix block a b d 16) c d b 12) a b d 8) c d b 7

/-- A quarter round over each column. -/
def columnRound (block : Block) : Block :=
  quarterRound (quarterRound (quarterRound (quarterRound block
    0 4 8 12) 1 5 9 13) 2 6 10 14) 3 7 11 15

/-- A quarter round over each diagonal. -/
def diagonalRound (block : Block) : Block :=
  quarterRound (quarterRound (quarterRound (quarterRound block
    0 5 10 15) 1 6 11 12) 2 7 8 13) 3 4 9 14

/-- Ten double rounds, added to the block they began with. -/
def scramble (block : Block) : Block :=
  (Nat.repeat (fun mixed => diagonalRound (columnRound mixed)) 10 block).zipWith (· + ·) block

/-- The block that a key and a counter begin with. -/
def initial (key : Vector UInt32 8) (counter : UInt64) : Block :=
  #v[0x61707865, 0x3320646e, 0x79622d32, 0x6b206574,
    key[0], key[1], key[2], key[3], key[4], key[5], key[6], key[7],
    counter.toUInt32, (counter >>> 32).toUInt32, 0, 0]

/-- The words that a key gives for a counter. -/
def words (key : Vector UInt32 8) (counter : UInt64) : Block := scramble (initial key counter)

end CoinScript.ChaCha
