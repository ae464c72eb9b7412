import CoinScript.Log
import CoinScript.Wallet.Output

/-!
# Coin selection

A selection moves outputs out of a list of candidates and knows what they are
worth together. Two policies decide which outputs are taken. Spending the largest
first sorts the candidates and takes from the front until the target is reached;
spending everything takes all of them whatever the target.

The candidates may not suffice. Then a selection takes all there is, and what it
is worth tells. A selection fails only when the worth of what it would take is out
of range, and then it takes nothing.
-/

namespace CoinScript

/-- Outputs taken to be spent. -/
structure Selection where
  /-- What they are worth together. -/
  total : Amount
  /-- The outputs, in the order in which they were taken. -/
  gathered : List Output
deriving DecidableEq, Repr

/-- Why nothing could be selected. -/
inductive SelectionError where
  /-- The outputs are worth more than an amount can hold. -/
  | amountOverflow
deriving DecidableEq, Repr

/-- The wording of a selection error. -/
def SelectionError.message : SelectionError → String
  | .amountOverflow => "Amount arithmetic error"

/-- What selecting reports. -/
inductive SelectionEvent where
  /-- So many outputs were taken to reach the target and so many were left. -/
  | reached (count : Nat) (total target : Amount) (left : Nat)
  /-- All the outputs were taken, so many of them. -/
  | emptied (count : Nat) (total target : Amount)
deriving DecidableEq, Repr

/-- Successful selections are reported to those who look for faults. -/
def SelectionEvent.report : SelectionEvent → Report
  | .reached count total target left =>
    ⟨.debug, s!"Selected {count} outputs worth {total} for target {target}, " ++
      s!"{left} candidates left"⟩
  | .emptied count total target =>
    ⟨.debug, s!"Selected all {count} outputs worth {total} for target {target}"⟩

/-- What selecting from candidates gives. -/
structure Selecting where
  /-- The selection, or why there is none. -/
  outcome : Except SelectionError Selection
  /-- The candidates left. -/
  candidates : List Output
  /-- What was reported. -/
  log : List SelectionEvent

namespace Selection

/-- Nothing taken. -/
def empty : Selection := ⟨.zero, []⟩

/-- Count outputs from the front until they are worth the target, given the number
and the worth of those already counted. Each is added only while the target is
not reached, so an overflow behind that point is never met. -/
def reach (target : Amount) (count : Nat) (total : Amount) :
    List Output → Except SelectionError (Nat × Amount)
  | [] => .ok (count, total)
  | output :: rest =>
    if target ≤ total then .ok (count, total)
    else
      match total.add? output.value with
      | some larger => reach target (count + 1) larger rest
      | none => .error .amountOverflow

/-- Spend the largest outputs first. A target of zero is reached by nothing, and
the candidates keep their order; any other target sorts them, even on failure. -/
def largestFirst (target : Amount) (candidates : List Output) : Selecting :=
  if target = .zero then ⟨.ok empty, candidates, []⟩
  else
    let sorted := Output.sorted candidates
    match reach target 0 .zero sorted with
    | .error reason => ⟨.error reason, sorted, []⟩
    | .ok (count, total) =>
      let parts := sorted.splitAt count
      ⟨.ok ⟨total, parts.1⟩, parts.2, [.reached parts.1.length total target parts.2.length]⟩

/-- Spend all the outputs in the order in which they stand. -/
def everything (target : Amount) (candidates : List Output) : Selecting :=
  match Amount.sum? (candidates.map Output.value) with
  | none => ⟨.error .amountOverflow, candidates, []⟩
  | some total => ⟨.ok ⟨total, candidates⟩, [], [.emptied candidates.length total target]⟩

end Selection

/-- How outputs are chosen. -/
inductive Policy where
  /-- The largest outputs first, until the target is reached. -/
  | largestFirst
  /-- All the outputs. -/
  | everything
deriving DecidableEq, Repr

/-- Select outputs by the policy. -/
def Policy.select : Policy → Amount → List Output → Selecting
  | .largestFirst => Selection.largestFirst
  | .everything => Selection.everything

end CoinScript
