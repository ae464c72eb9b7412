import CoinScript.Wallet.Output

/-!
# Exact totals

Amounts are added with a bound, one after another, and the addition that would
leave the range ends the work. The exact total has no bound. Since no amount is
negative, a total that is in range is never left on the way to it, so the bounded
sum is the exact total if that is an amount, and is refused if it is not.

So the sum does not depend on the arrangement of the amounts, and it can be taken in
parts. What outputs are worth is the exact total of their values and inherits this.
-/

namespace CoinScript

namespace Amount

/-- Nothing is no atoms. -/
theorem atoms_zero : zero.atoms = 0 := rfl

/-- An amount is above zero if one below it is. -/
theorem ne_zero_of_le {lower upper : Amount} (positive : lower ≠ .zero)
    (lowered : lower ≤ upper) : upper ≠ .zero := by
  rintro rfl
  exact positive (eq_of_atoms (Nat.le_zero.mp lowered))

/-- An amount below another misses an amount above zero of it. -/
theorem exists_missing {lower upper : Amount} (short : ¬ upper ≤ lower) :
    ∃ missing : Amount, upper.sub? lower = some missing ∧ missing ≠ .zero := by
  have below : lower.atoms < upper.atoms := Nat.lt_of_not_le short
  refine ⟨⟨upper.atoms - lower.atoms, Nat.lt_of_le_of_lt (Nat.sub_le _ _) upper.bound⟩, ?_, ?_⟩
  · exact sub?_eq_some_iff.mpr (Nat.add_sub_cancel' (Nat.le_of_lt below)).symm
  · intro none
    exact absurd (congrArg atoms none) (Nat.sub_ne_zero_of_lt below)

/-- The quantities of the amounts added up without a bound. -/
def exactSum : List Amount → Nat
  | [] => 0
  | amount :: rest => amount.atoms + exactSum rest

/-- Adding behind an amount already counted gives the exact total, if it is in
range. Induct over the amounts: where one addition is refused the total is out of
range already, and the rest cannot bring it back. -/
theorem sumOnto?_eq (counted : Amount) (amounts : List Amount) :
    sumOnto? counted amounts = ofNat? (counted.atoms + exactSum amounts) := by
  induction amounts generalizing counted with
  | nil => exact (ofNat?_eq_some_iff.mpr rfl).symm
  | cons amount rest inductionHypothesis =>
    cases added : counted.add? amount with
    | some larger =>
      have exact : larger.atoms = counted.atoms + amount.atoms := add?_eq_some_iff.mp added
      simp only [sumOnto?, added, inductionHypothesis, exact, exactSum, Nat.add_assoc]
    | none =>
      have outside : capacity ≤ counted.atoms + amount.atoms := add?_eq_none_iff.mp added
      have beyond : capacity ≤ counted.atoms + exactSum (amount :: rest) := by
        simp only [exactSum]
        omega
      simp only [sumOnto?, added, ofNat?_eq_none_iff.mpr beyond]

/-- The sum of amounts is their exact total, if it is in range. -/
theorem sum?_eq (amounts : List Amount) : sum? amounts = ofNat? (exactSum amounts) := by
  rw [sum?, sumOnto?_eq]
  simp only [atoms_zero, Nat.zero_add]

/-- Exact totals add up over lists joined. -/
theorem exactSum_append (first second : List Amount) :
    exactSum (first ++ second) = exactSum first + exactSum second := by
  induction first with
  | nil => simp only [List.nil_append, exactSum, Nat.zero_add]
  | cons amount rest inductionHypothesis =>
    simp only [List.cons_append, exactSum, inductionHypothesis, Nat.add_assoc]

/-- Rearranging amounts does not change their exact total. -/
theorem exactSum_perm {first second : List Amount} (shuffled : first.Perm second) :
    exactSum first = exactSum second := by
  induction shuffled with
  | nil => rfl
  | cons amount _ inductionHypothesis => simp only [exactSum, inductionHypothesis]
  | swap amount other rest =>
    simp only [exactSum]
    omega
  | trans _ _ before after => exact before.trans after

/-- Some of the amounts have no larger exact total than all of them. -/
theorem exactSum_le_of_sublist {chosen amounts : List Amount} (within : chosen.Sublist amounts) :
    exactSum chosen ≤ exactSum amounts := by
  induction within with
  | slnil => exact Nat.le_refl _
  | cons amount _ inductionHypothesis =>
    simp only [exactSum]
    omega
  | cons_cons amount _ inductionHypothesis =>
    simp only [exactSum]
    omega

/-- A sum is the exact total when there is one. -/
theorem sum?_eq_some_iff {amounts : List Amount} {total : Amount} :
    sum? amounts = some total ↔ total.atoms = exactSum amounts := by
  rw [sum?_eq, ofNat?_eq_some_iff]

/-- A sum is refused exactly when the exact total is out of range. -/
theorem sum?_eq_none_iff {amounts : List Amount} :
    sum? amounts = none ↔ capacity ≤ exactSum amounts := by
  rw [sum?_eq, ofNat?_eq_none_iff]

/-- There is a sum exactly when the exact total is in range. -/
theorem exists_sum?_iff {amounts : List Amount} :
    (∃ total : Amount, sum? amounts = some total) ↔ exactSum amounts < capacity := by
  rw [← Option.isSome_iff_exists, Option.isSome_iff_ne_none, ne_eq, sum?_eq_none_iff, Nat.not_le]

/-- Lists joined have a sum exactly when each has one and these two can be added, and it is
what they add up to. A part is in range with the whole, as no amount is negative. -/
theorem sum?_append_eq_some_iff {amounts others : List Amount} {total : Amount} :
    sum? (amounts ++ others) = some total ↔
      ∃ first second : Amount, sum? amounts = some first ∧ sum? others = some second ∧
        first.add? second = some total := by
  simp only [sum?_eq_some_iff, add?_eq_some_iff, exactSum_append]
  constructor
  · intro exact
    have inRange : exactSum amounts + exactSum others < capacity := exact ▸ total.bound
    refine ⟨⟨exactSum amounts, ?_⟩, ⟨exactSum others, ?_⟩, rfl, rfl, exact⟩
    · exact Nat.lt_of_le_of_lt (Nat.le_add_right _ _) inRange
    · exact Nat.lt_of_le_of_lt (Nat.le_add_left _ _) inRange
  · rintro ⟨first, second, exactFirst, exactSecond, exact⟩
    rw [exact, exactFirst, exactSecond]

/-- Summing gives the exact total when it is an amount and is refused when it is not,
whatever the arrangement. Lists joined have a sum exactly when each has one and these two
add up to an amount, and this amount is the sum. -/
theorem summing_exact (amounts others : List Amount) :
    (exactSum amounts < capacity →
      ∃ total : Amount, sum? amounts = some total ∧ total.atoms = exactSum amounts) ∧
    (capacity ≤ exactSum amounts → sum? amounts = none) ∧
    (∀ shuffled : List Amount, shuffled.Perm amounts → sum? shuffled = sum? amounts) ∧
    ∀ total : Amount, sum? (amounts ++ others) = some total ↔
      ∃ first second : Amount, sum? amounts = some first ∧ sum? others = some second ∧
        first.add? second = some total ∧ total.atoms = first.atoms + second.atoms := by
  refine ⟨?_, sum?_eq_none_iff.mpr, ?_, ?_⟩
  · intro inRange
    obtain ⟨total, summed⟩ := exists_sum?_iff.mpr inRange
    exact ⟨total, summed, sum?_eq_some_iff.mp summed⟩
  · intro shuffled arranged
    rw [sum?_eq, sum?_eq, exactSum_perm arranged]
  · intro total
    simp only [← add?_eq_some_iff, and_self]
    exact sum?_append_eq_some_iff

/-- Two amounts with the largest amount as their sum, in both arrangements, and refused
with one more atom, wherever it stands. -/
theorem summing_exact_largest :
    let large : Amount := ⟨capacity - 2, by decide⟩
    let one : Amount := ⟨1, by decide⟩
    exactSum [large, one] < capacity ∧ sum? [large, one] = some .max ∧
      [one, large].Perm [large, one] ∧ sum? [one, large] = some .max ∧
      capacity ≤ exactSum ([large, one] ++ [one]) ∧ sum? ([large, one] ++ [one]) = none ∧
      sum? [one, large, one] = none := by
  intro large one
  obtain ⟨summed, _, arranged, _⟩ := summing_exact [large, one] []
  obtain ⟨_, refused, rearranged, _⟩ := summing_exact ([large, one] ++ [one]) []
  have inRange : exactSum [large, one] < capacity := by decide
  have beyond : capacity ≤ exactSum ([large, one] ++ [one]) := by decide
  have shuffled : [one, large].Perm [large, one] := by decide
  obtain ⟨total, found, exact⟩ := summed inRange
  have largest : total = .max := eq_of_atoms (exact.trans (by decide))
  rw [largest] at found
  exact ⟨inRange, found, shuffled, (arranged _ shuffled).trans found, beyond, refused beyond,
    (rearranged [one, large, one] (by decide)).trans (refused beyond)⟩

end Amount

namespace Output

/-- What outputs are worth is the exact total of their values. -/
theorem exactSum_values (outputs : List Output) :
    Amount.exactSum (outputs.map Output.value) = worth outputs := by
  induction outputs with
  | nil => rfl
  | cons output rest inductionHypothesis =>
    simp only [List.map_cons, Amount.exactSum, worth, inductionHypothesis]

/-- What outputs are worth adds up over lists joined. -/
theorem worth_append (first second : List Output) :
    worth (first ++ second) = worth first + worth second := by
  simp only [← exactSum_values, List.map_append, Amount.exactSum_append]

/-- Some of the outputs are worth no more than all of them. -/
theorem worth_le_of_sublist {chosen outputs : List Output} (within : chosen.Sublist outputs) :
    worth chosen ≤ worth outputs := by
  rw [← exactSum_values, ← exactSum_values]
  exact Amount.exactSum_le_of_sublist (within.map value)

/-- Rearranging outputs does not change what they are worth. -/
theorem worth_perm {first second : List Output} (shuffled : first.Perm second) :
    worth first = worth second := by
  rw [← exactSum_values, ← exactSum_values]
  exact Amount.exactSum_perm (shuffled.map value)

end Output

end CoinScript
