/-!
# Rules

Which scripts and pushes are acceptable is a parameter of reading, writing and
validation. Two sizes are limited and one encoding rule can be switched on. The
standard rules demand the shortest push encodings; the relaxed rules have the
same limits and accept every encoding, as older scripts need.
-/

namespace CoinScript

/-- The limits and the push rule that a script is held to. -/
structure Rules where
  /-- The most bytes a script may have. -/
  maxScriptSize : Nat
  /-- The most bytes a push with a four-byte length may carry. -/
  maxElementSize : Nat
  /-- Whether every push has to use its shortest encoding. -/
  minimalPush : Bool
deriving DecidableEq, Repr

namespace Rules

/-- The consensus limits, with shortest pushes demanded. -/
def standard : Rules where
  maxScriptSize := 10000
  maxElementSize := 520
  minimalPush := true

/-- The consensus limits, with every push encoding accepted. -/
def relaxed : Rules := { standard with minimalPush := false }

end Rules

end CoinScript
