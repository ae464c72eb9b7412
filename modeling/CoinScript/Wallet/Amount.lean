/-!
# Amounts

An amount counts the smallest units of a coin. It is bounded by 128 bits, and the
bound is part of its type: arithmetic that would leave the range is refused and
never wraps.

Summing adds from the left and is refused as soon as one addition is. Since no
amount is negative, that is the case exactly when the whole sum leaves the range.
-/

namespace CoinScript

/-- The number of different amounts, two to the power of 128. -/
def Amount.capacity : Nat := 0x100000000000000000000000000000000

/-- A quantity of coin in its smallest unit. -/
structure Amount where
  /-- How many of the smallest unit. -/
  atoms : Nat
  /-- The quantity fits into 128 bits. -/
  bound : atoms < Amount.capacity
deriving DecidableEq, Repr

namespace Amount

/-- Nothing. -/
def zero : Amount := ⟨0, by decide⟩

/-- The largest amount. -/
def max : Amount := ⟨capacity - 1, by decide⟩

/-- The amount of so many atoms, if it is in range. -/
def ofNat? (atoms : Nat) : Option Amount :=
  if bound : atoms < capacity then some ⟨atoms, bound⟩ else none

/-- The sum, if it is in range. -/
def add? (first second : Amount) : Option Amount := ofNat? (first.atoms + second.atoms)

/-- The difference, if it is not negative. -/
def sub? (first second : Amount) : Option Amount :=
  if second.atoms ≤ first.atoms then
    some ⟨first.atoms - second.atoms, Nat.lt_of_le_of_lt (Nat.sub_le _ _) first.bound⟩
  else none

/-- The total behind an amount already counted, as long as it stays in range. -/
def sumOnto? (counted : Amount) : List Amount → Option Amount
  | [] => some counted
  | amount :: rest =>
    match counted.add? amount with
    | some larger => sumOnto? larger rest
    | none => none

/-- The total of the amounts, if it is in range. -/
def sum? (amounts : List Amount) : Option Amount := sumOnto? zero amounts

/-- Amounts are ordered by quantity. -/
instance : Ord Amount where
  compare first second := compare first.atoms second.atoms

/-- Amounts are ordered by quantity. -/
instance : LE Amount where
  le first second := first.atoms ≤ second.atoms

/-- The order of amounts is decided on quantities. -/
instance (first second : Amount) : Decidable (first ≤ second) :=
  inferInstanceAs (Decidable (first.atoms ≤ second.atoms))

/-- An amount is shown as its quantity in decimal. -/
instance : ToString Amount where
  toString amount := toString amount.atoms

/-- A quantity is an amount exactly when it is in range. -/
theorem ofNat?_eq_some_iff {atoms : Nat} {amount : Amount} :
    ofNat? atoms = some amount ↔ amount.atoms = atoms := by
  unfold ofNat?
  constructor
  · intro inRange
    split at inRange
    · cases inRange
      rfl
    · cases inRange
  · intro same
    subst same
    rw [dif_pos amount.bound]

/-- A quantity is no amount exactly when it is out of range. -/
theorem ofNat?_eq_none_iff {atoms : Nat} : ofNat? atoms = none ↔ capacity ≤ atoms := by
  unfold ofNat?
  split
  · rename_i bound
    constructor
    · intro impossible
      cases impossible
    · intro outside
      exact absurd outside (Nat.not_le.mpr bound)
  · rename_i outside
    exact ⟨fun _ => Nat.le_of_not_lt outside, fun _ => rfl⟩

/-- A sum is exact when there is one. -/
theorem add?_eq_some_iff {first second total : Amount} :
    first.add? second = some total ↔ total.atoms = first.atoms + second.atoms :=
  ofNat?_eq_some_iff

/-- A sum is refused exactly when it is out of range. -/
theorem add?_eq_none_iff {first second : Amount} :
    first.add? second = none ↔ capacity ≤ first.atoms + second.atoms :=
  ofNat?_eq_none_iff

/-- Amounts of the same quantity are the same. -/
theorem eq_of_atoms {first second : Amount} (same : first.atoms = second.atoms) :
    first = second := by
  cases first
  cases second
  cases same
  rfl

/-- A difference is what has to be added when there is one. -/
theorem sub?_eq_some_iff {first second difference : Amount} :
    first.sub? second = some difference ↔
      first.atoms = second.atoms + difference.atoms := by
  unfold sub?
  split
  · rename_i enough
    constructor
    · intro subtracted
      cases subtracted
      exact (Nat.add_sub_cancel' enough).symm
    · intro exact
      apply congrArg some
      apply eq_of_atoms
      exact Nat.sub_eq_of_eq_add (exact.trans (Nat.add_comm _ _))
  · rename_i short
    constructor
    · intro impossible
      cases impossible
    · intro exact
      exact absurd (exact ▸ Nat.le_add_right _ _) short

end Amount

end CoinScript
