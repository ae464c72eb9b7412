/-!
# Reports

An operation that reports on its work returns its reports beside its value, in
the order in which they arose. A report is an event of the operation's own kind;
its level and its wording are read off the event, so that laws speak of events
and not of texts.
-/

namespace CoinScript

/-- How urgent a report is. -/
inductive Level where
  | warn
  | debug
  | trace
deriving DecidableEq, Repr

/-- A report as it is shown. -/
structure Report where
  /-- How urgent it is. -/
  level : Level
  /-- What it says. -/
  message : String
deriving DecidableEq, Repr

/-- A value together with the events reported on the way to it. -/
structure Logged (ε α : Type) where
  /-- What was computed. -/
  value : α
  /-- What was reported, first event first. -/
  log : List ε
deriving DecidableEq, Repr

end CoinScript
