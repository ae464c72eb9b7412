import CoinScript.Wallet.Selection

/-!
# Pools of outputs

A pool holds the outputs that can be selected. Outputs enter by being received
and leave by being selected; a failed selection moves none.

A wallet as such knows nothing of giving back. The pool adds it, so that runs can be
told in which a selection is undone: what the last successful selection took is
remembered and can be given back once. It then stands behind the outputs of the
pool, in the order in which it was taken.
-/

namespace CoinScript

/-- The outputs of a wallet between selections. -/
structure Pool where
  /-- The outputs that can be selected. -/
  candidates : List Output
  /-- What the last successful selection took, unless it was given back. No policy reads
  or keeps it; only the pool does. -/
  returnable : List Output
deriving DecidableEq, Repr

namespace Pool

/-- No outputs at all. -/
def empty : Pool := ⟨[], []⟩

/-- Add outputs behind those of the pool. -/
def receive (pool : Pool) (outputs : List Output) : Pool :=
  { pool with candidates := pool.candidates ++ outputs }

/-- Give back what the last successful selection took. Selecting has no such operation; it
is one of the pool alone, and comes to receiving the outputs that were taken. -/
def giveBack (pool : Pool) : Pool := ⟨pool.candidates ++ pool.returnable, []⟩

/-- Select from the pool. A failed selection leaves what can be given back as it was. -/
def select (pool : Pool) (policy : Policy) (target : Amount) : Selecting × Pool :=
  let selecting := policy.select target pool.candidates
  match selecting.outcome with
  | .ok selection => (selecting, ⟨selecting.candidates, selection.gathered⟩)
  | .error _ => (selecting, { pool with candidates := selecting.candidates })

/-- What can be done with a pool. -/
inductive Action where
  /-- Add outputs. -/
  | receive (outputs : List Output)
  /-- Select by the policy for the target. -/
  | select (policy : Policy) (target : Amount)
  /-- Give back what the last successful selection took. -/
  | giveBack
deriving DecidableEq, Repr

/-- What an action gives. -/
structure Performed where
  /-- The outcome of a selection; other actions have none. -/
  outcome : Option (Except SelectionError Selection)
  /-- What was reported. -/
  log : List SelectionEvent
  /-- The pool afterwards. -/
  pool : Pool

/-- Do something with the pool. -/
def perform (pool : Pool) : Action → Performed
  | .receive outputs => ⟨none, [], pool.receive outputs⟩
  | .select policy target =>
    let selected := pool.select policy target
    ⟨some selected.1.outcome, selected.1.log, selected.2⟩
  | .giveBack => ⟨none, [], pool.giveBack⟩

/-- Do one thing after another, each on the pool that the one before it left. -/
def run (pool : Pool) : List Action → List Performed
  | [] => []
  | action :: rest => pool.perform action :: run (pool.perform action).pool rest

end Pool

end CoinScript
