import CoinScript.Proofs.LargestFirst

/-!
# Spending all the outputs

Spending everything adds up all candidates before it takes any. The sum is refused
exactly when the exact total is out of range, wherever on the way the range is left, so
the arrangement of the candidates does not matter and neither does the target. A
selection takes the whole list as it stands, and a failure leaves it as it stands.

When the candidates are not worth the target, spending the largest first needs them all
too. The two policies then take the same outputs, in different orders.
-/

namespace CoinScript

namespace Output

variable {target : Nat} {outputs : List Output}

/-- Outputs that are not worth the target are all taken for it. -/
theorem taken_of_worth_lt (short : worth outputs < target) :
    taken target outputs = sorted outputs ∧ kept target outputs = [] := by
  rw [← worth_perm (sorted_perm outputs)] at short
  rcases le_worth_take_needed target (sorted outputs) with enough | ⟨all, _⟩
  · have most := worth_le_of_sublist
      (List.take_sublist (needed target (sorted outputs)) (sorted outputs))
    omega
  · rw [taken, kept, all]
    exact ⟨List.take_length, List.drop_length⟩

end Output

namespace Selection

variable {target : Amount} {candidates : List Output} {selection : Selection}

/-- Spending everything takes all candidates if what they are worth is an amount,
and otherwise none. -/
theorem everything_eq (target : Amount) (candidates : List Output) :
    everything target candidates =
      match Amount.ofNat? (Output.worth candidates) with
      | none => ⟨.error .amountOverflow, candidates, []⟩
      | some total => ⟨.ok ⟨total, candidates⟩, [], [.emptied candidates.length total target]⟩ := by
  have summed : Amount.sum? (candidates.map Output.value) =
      Amount.ofNat? (Output.worth candidates) := by
    rw [Amount.sum?_eq, Output.exactSum_values]
  cases reached : Amount.ofNat? (Output.worth candidates) with
  | none => simp only [everything, summed, reached]
  | some total => simp only [everything, summed, reached]

/-- A successful selection of everything takes the candidates as they stand, knows what
they are worth and leaves none. -/
theorem everything_ok (selected : (everything target candidates).outcome = .ok selection) :
    selection.total.atoms = Output.worth candidates ∧ selection.gathered = candidates ∧
      (everything target candidates).candidates = [] := by
  rw [everything_eq] at selected ⊢
  split at selected
  · cases selected
  · rename_i total reached
    cases selected
    exact ⟨Amount.ofNat?_eq_some_iff.mp reached, rfl, rfl⟩

/-- A failed selection of everything leaves the candidates as they stand and reports
nothing. -/
theorem everything_error {reason : SelectionError}
    (refused : (everything target candidates).outcome = .error reason) :
    everything target candidates = ⟨.error .amountOverflow, candidates, []⟩ := by
  rw [everything_eq] at refused ⊢
  split at refused
  · rfl
  · cases refused

/-- Everything can be selected exactly when it is worth an amount. -/
theorem exists_everything_iff :
    (∃ selection : Selection, (everything target candidates).outcome = .ok selection) ↔
      Output.worth candidates < Amount.capacity := by
  constructor
  · rintro ⟨selection, selected⟩
    rw [← (everything_ok selected).1]
    exact selection.total.bound
  · intro inRange
    cases reached : Amount.ofNat? (Output.worth candidates) with
    | none => exact absurd (Amount.ofNat?_eq_none_iff.mp reached) (Nat.not_le.mpr inRange)
    | some total => exact ⟨⟨total, candidates⟩, by rw [everything_eq, reached]⟩

/-- The total of everything depends neither on the arrangement nor on the target. -/
theorem everything_total_of_perm {others : List Output} (shuffled : others.Perm candidates)
    (target otherTarget : Amount) :
    (everything otherTarget others).outcome.map total =
      (everything target candidates).outcome.map total := by
  rw [everything_eq, everything_eq, Output.worth_perm shuffled]
  cases Amount.ofNat? (Output.worth candidates) with
  | none => rfl
  | some total => rfl

/-- Spending everything succeeds exactly when the candidates are worth an amount. It
then takes them as they stand and leaves none; otherwise it leaves them as they stand
and reports nothing. Whether it succeeds and for which total depends neither on their
arrangement nor on the target. When they are not worth the target, spending the largest
first takes them all too, for the same total. -/
theorem everything_exact (target : Amount) (candidates : List Output) :
    let selecting := everything target candidates
    ((∃ selection : Selection, selecting.outcome = .ok selection) ↔
      Output.worth candidates < Amount.capacity) ∧
    (∀ selection : Selection, selecting.outcome = .ok selection →
      selection.total.atoms = Output.worth candidates ∧ selection.gathered = candidates ∧
        selecting.candidates = []) ∧
    (∀ reason : SelectionError, selecting.outcome = .error reason →
      selecting.candidates = candidates ∧ selecting.log = []) ∧
    (∀ (others : List Output) (otherTarget : Amount), others.Perm candidates →
      (everything otherTarget others).outcome.map total = selecting.outcome.map total) ∧
    (Output.worth candidates < target.atoms → ∃ all largest : Selection,
      let sorting := largestFirst target candidates
      selecting.outcome = .ok all ∧ sorting.outcome = .ok largest ∧ sorting.candidates = [] ∧
        largest.total = all.total ∧ largest.gathered.Perm all.gathered) := by
  intro selecting
  refine ⟨exists_everything_iff, fun _ => everything_ok, ?_, ?_, ?_⟩
  · intro reason refused
    have same : selecting = ⟨.error .amountOverflow, candidates, []⟩ := everything_error refused
    rw [same]
    exact ⟨rfl, rfl⟩
  · intro others otherTarget shuffled
    exact everything_total_of_perm shuffled target otherTarget
  · intro short
    have inRange := Nat.lt_trans short target.bound
    have positive : target ≠ .zero := by
      rintro rfl
      exact Nat.not_lt_zero _ short
    obtain ⟨taken, kept⟩ := Output.taken_of_worth_lt short
    have sameWorth := Output.worth_perm (Output.sorted_perm candidates)
    obtain ⟨all, selectedAll⟩ := exists_everything_iff.mpr inRange
    obtain ⟨exactAll, gatheredAll, _⟩ := everything_ok selectedAll
    obtain ⟨largest, selected⟩ := exists_selection (by rwa [taken, sameWorth])
    obtain ⟨gathered, left, exact⟩ := largestFirst_ok positive selected
    rw [taken] at gathered
    refine ⟨all, largest, selectedAll, selected, left.trans kept, ?_, ?_⟩
    · apply Amount.eq_of_atoms
      rw [exact, gathered, sameWorth, exactAll]
    · rw [gathered, gatheredAll]
      exact Output.sorted_perm candidates

/-- Three outputs, in two arrangements, for a target above what they are worth; and two
outputs that are together out of range. -/
theorem everything_exact_three :
    let target : Amount := ⟨20, by decide⟩
    let small : Output := ⟨⟨3, by decide⟩, ⟨[1]⟩⟩
    let middle : Output := ⟨⟨4, by decide⟩, ⟨[]⟩⟩
    let large : Output := ⟨⟨5, by decide⟩, ⟨[2]⟩⟩
    let candidates := [small, large, middle]
    let all : Selection := ⟨⟨12, by decide⟩, candidates⟩
    let excess : List Output := [small, ⟨.max, ⟨[]⟩⟩]
    (everything target candidates).outcome = .ok all ∧
      (everything target candidates).candidates = [] ∧
      [large, middle, small].Perm candidates ∧
      (everything .zero [large, middle, small]).outcome.map total = .ok all.total ∧
      Output.worth candidates < target.atoms ∧
      (∃ largest : Selection, (largestFirst target candidates).outcome = .ok largest ∧
        (largestFirst target candidates).candidates = [] ∧ largest.total = all.total ∧
        largest.gathered.Perm candidates) ∧
      (everything target excess).outcome = .error .amountOverflow ∧
      (everything target excess).candidates = excess ∧ (everything target excess).log = [] := by
  intro target small middle large candidates all excess
  have selected : (everything target candidates).outcome = .ok all := rfl
  have refused : (everything target excess).outcome = .error .amountOverflow := by
    rw [everything_eq, Amount.ofNat?_eq_none_iff.mpr (by decide)]
  have shuffled : [large, middle, small].Perm candidates := by decide
  have short : Output.worth candidates < target.atoms := by decide
  obtain ⟨_, taken, _, arranged, agreed⟩ := everything_exact target candidates
  obtain ⟨_, _, untouched, _⟩ := everything_exact target excess
  obtain ⟨left, silent⟩ := untouched _ refused
  obtain ⟨found, largest, selectedFound, selectedLargest, emptied, sameTotal, sameOutputs⟩ :=
    agreed short
  have isAll : found = all := Except.ok.inj (selectedFound.symm.trans selected)
  rw [isAll] at sameTotal sameOutputs
  have rearranged := arranged _ .zero shuffled
  rw [selected] at rearranged
  exact ⟨selected, (taken all selected).2.2, shuffled, rearranged, short,
    ⟨largest, selectedLargest, emptied, sameTotal, sameOutputs⟩, refused, left, silent⟩

end Selection

end CoinScript
