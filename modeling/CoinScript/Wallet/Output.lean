import CoinScript.Script.Basic
import CoinScript.Wallet.Amount

/-!
# Spendable outputs

An output is an amount and the script that has to be satisfied to spend it. The
order of spending puts larger amounts first and, among equal amounts, lower
scripts first. It tells any two different outputs apart, so it determines how a
list of outputs is sorted.
-/

namespace CoinScript

/-- An output that a wallet can spend. -/
structure Output where
  /-- How much it is worth. -/
  value : Amount
  /-- What has to be satisfied to spend it. -/
  lock : Script
deriving DecidableEq, Repr

namespace Output

/-- Larger amounts first, then lower scripts first. -/
def spendingOrder (first second : Output) : Ordering :=
  (compare second.value first.value).then (compare first.lock second.lock)

/-- The first output is spent no later than the second. -/
def spentBefore (first second : Output) : Bool := (spendingOrder first second).isLE

/-- The outputs in the order of spending. -/
def sorted (outputs : List Output) : List Output := outputs.mergeSort spentBefore

/-- The quantities of the outputs added up without a bound. -/
def worth : List Output → Nat
  | [] => 0
  | output :: rest => output.value.atoms + worth rest

end Output

end CoinScript
