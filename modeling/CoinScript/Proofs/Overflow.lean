import CoinScript.Proofs.LargestFirst

/-!
# Overflow when the largest are spent first

Counting adds one output after another and stops at the target, so it meets an
overflow only among the outputs that the target needs. These are the shortest
beginning of the sorted candidates that is worth the target. Where no beginning is,
all candidates together are worth less than the target, and the target is an amount.

A selection therefore fails exactly when this shortest beginning is worth more than an
amount can hold. Then it leaves every candidate, sorted, and reports nothing.
-/

namespace CoinScript

/-- What is taken for an amount is out of range exactly when the shortest beginning of
the sorted outputs that is worth this amount is. Where there is no such beginning, the
outputs taken are worth less than the amount and in range with it. -/
theorem Output.capacity_le_worth_taken_iff (target : Amount) (outputs : List Output) :
    Amount.capacity ≤ worth (taken target.atoms outputs) ↔
      ∃ front : List Output, ShortestWorth target.atoms (sorted outputs) front ∧
        Amount.capacity ≤ worth front := by
  rcases shortestWorth_taken target.atoms outputs with reached | ⟨_, short, none⟩
  · constructor
    · intro beyond
      exact ⟨_, reached, beyond⟩
    · rintro ⟨front, found, beyond⟩
      exact found.unique reached ▸ beyond
  · constructor
    · intro beyond
      exact absurd (Nat.lt_trans short target.bound) (Nat.not_lt.mpr beyond)
    · rintro ⟨front, found, _⟩
      exact absurd found.enough (Nat.not_le.mpr (none front found.begins))

namespace Selection

/-- Spending the largest first fails exactly when the target is above zero and the
shortest beginning of the sorted candidates that is worth it is worth more than an
amount can hold. It then leaves the candidates sorted and reports nothing. So it never
fails when all candidates together are worth an amount. -/
theorem largestFirst_overflow (target : Amount) (candidates : List Output) :
    let sorted := Output.sorted candidates
    let selecting := largestFirst target candidates
    (sorted.Perm candidates ∧ sorted.Pairwise Output.InOrder) ∧
    (selecting.outcome = .error .amountOverflow ↔
      target ≠ .zero ∧ ∃ front : List Output,
        Output.ShortestWorth target.atoms sorted front ∧
          Amount.capacity ≤ Output.worth front) ∧
    (∀ reason : SelectionError, selecting.outcome = .error reason →
      selecting.candidates = sorted ∧ selecting.log = []) ∧
    (Output.worth candidates < Amount.capacity →
      ∃ selection : Selection, selecting.outcome = .ok selection) := by
  intro sorted selecting
  refine ⟨⟨Output.sorted_perm candidates, Output.sorted_inOrder candidates⟩, ?_, ?_, ?_⟩
  · exact largestFirst_error_iff.trans
      (and_congr_right fun _ => Output.capacity_le_worth_taken_iff target candidates)
  · intro reason refused
    have same : selecting = ⟨.error .amountOverflow, sorted, []⟩ := largestFirst_error refused
    rw [same]
    exact ⟨rfl, rfl⟩
  · intro inRange
    have all : Output.worth sorted = Output.worth candidates :=
      Output.worth_perm (Output.sorted_perm candidates)
    have part : Output.worth (Output.taken target.atoms candidates) ≤ Output.worth sorted :=
      Output.worth_le_of_sublist (List.take_sublist _ _)
    exact exists_selection (Nat.lt_of_le_of_lt (all ▸ part) inRange)

/-- The largest amount less one is out of range together with five, and the two are left
in the order of spending. With one in the place of five nothing fails. -/
theorem largestFirst_overflow_two :
    let large : Output := ⟨⟨Amount.capacity - 2, by decide⟩, ⟨[2]⟩⟩
    let small : Output := ⟨⟨5, by decide⟩, ⟨[1]⟩⟩
    let one : Output := ⟨⟨1, by decide⟩, ⟨[1]⟩⟩
    (largestFirst .max [small, large]).outcome = .error .amountOverflow ∧
      (∃ front : List Output,
        Output.ShortestWorth Amount.max.atoms (Output.sorted [small, large]) front ∧
          Amount.capacity ≤ Output.worth front) ∧
      (largestFirst .max [small, large]).candidates = [large, small] ∧
      (largestFirst .max [small, large]).log = [] ∧
      Output.worth [one, large] < Amount.capacity ∧
      ∃ selection : Selection, (largestFirst .max [one, large]).outcome = .ok selection := by
  intro large small one
  have sorted : Output.sorted [small, large] = [large, small] :=
    Output.sorted_eq_of_pairwise (by decide) (by decide)
  have refused : (largestFirst .max [small, large]).outcome = .error .amountOverflow := by
    rw [largestFirst_of_sorted (by decide) sorted]
    rfl
  obtain ⟨_, overflowing, untouched, _⟩ := largestFirst_overflow .max [small, large]
  obtain ⟨_, _, _, enough⟩ := largestFirst_overflow .max [one, large]
  obtain ⟨left, silent⟩ := untouched _ refused
  exact ⟨refused, (overflowing.mp refused).2, left.trans sorted, silent, by decide,
    enough (by decide)⟩

end Selection

end CoinScript
