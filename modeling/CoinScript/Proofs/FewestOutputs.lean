import CoinScript.Proofs.LargestFirst
import Mathlib.Data.List.Perm.Subperm

/-!
# As few outputs as possible

A part of some outputs is an arrangement of a sublist of them. Equal outputs remain
separate occurrences, and none is counted twice.

Of outputs that stand in the order of spending, so many from the front are worth at
least as much as any part with that many outputs. This is an exchange: an output that
a part passes over is worth no less than the one the part has in its stead. So no part
worth the target has fewer outputs than are needed when the largest are spent first,
and spending all of them falls short only if every part does.
-/

namespace CoinScript

namespace Output

variable {target : Nat} {outputs part : List Output}

/-- An output spent no later is worth no less. -/
theorem atoms_le_of_spentBefore {first second : Output}
    (before : first.spentBefore second = true) : second.value.atoms ≤ first.value.atoms := by
  rcases spentBefore_iff.mp before with larger | ⟨same, _⟩
  · exact Nat.le_of_lt larger
  · exact Nat.le_of_eq same.symm

/-- One more output adds no more than what each of the outputs is worth at most. -/
theorem worth_take_succ_le {most : Nat}
    (bounded : ∀ output ∈ outputs, output.value.atoms ≤ most) (count : Nat) :
    worth (outputs.take (count + 1)) ≤ most + worth (outputs.take count) := by
  rw [List.take_add_one, worth_append]
  cases found : outputs[count]? with
  | none =>
    simp only [Option.toList_none, worth]
    omega
  | some output =>
    have small : output.value.atoms ≤ most := bounded output (List.mem_of_getElem? found)
    simp only [Option.toList_some, worth]
    omega

/-- Of outputs in the order of spending, those in front are worth at least as much as
any others of the same number. Induct over the choice of the others: where it passes
over the first output, this one takes the place of the last of those in front. -/
theorem worth_le_worth_take
    (ordered : outputs.Pairwise fun first second => first.spentBefore second = true)
    (chosen : part.Sublist outputs) : worth part ≤ worth (outputs.take part.length) := by
  induction chosen with
  | slnil => exact Nat.le_refl _
  | @cons part rest output _ inductionHypothesis =>
    obtain ⟨first, later⟩ := List.pairwise_cons.mp ordered
    have others : worth part ≤ worth (rest.take part.length) := inductionHypothesis later
    cases part with
    | nil => exact Nat.zero_le _
    | cons _ fewer =>
      have exchanged := worth_take_succ_le
        (fun behind member => atoms_le_of_spentBefore (first behind member)) fewer.length
      simp only [List.length_cons, List.take_succ_cons, worth] at others ⊢
      exact Nat.le_trans others exchanged
  | cons_cons output _ inductionHypothesis =>
    have others := inductionHypothesis (List.pairwise_cons.mp ordered).2
    simp only [List.length_cons, List.take_succ_cons, worth]
    omega

/-- A part is worth no more than so many of the largest outputs. -/
theorem worth_le_of_subperm (within : part.Subperm outputs) :
    worth part ≤ worth ((sorted outputs).take part.length) := by
  obtain ⟨arranged, shuffled, chosen⟩ := within.trans (sorted_perm outputs).symm.subperm
  rw [← worth_perm shuffled, ← shuffled.length_eq]
  exact worth_le_worth_take (pairwise_sorted outputs) chosen

/-- A part that is worth the target has at least as many outputs as are taken for it. -/
theorem length_taken_le (within : part.Subperm outputs) (enough : target ≤ worth part) :
    (taken target outputs).length ≤ part.length := by
  have counted : (taken target outputs).length ≤ needed target (sorted outputs) :=
    List.length_take_le _ _
  apply Nat.le_trans counted
  apply Nat.le_of_not_lt
  intro fewer
  have short := worth_take_lt fewer
  have largest := worth_le_of_subperm within
  omega

/-- What is taken for a target is part of the outputs. -/
theorem taken_subperm (target : Nat) (outputs : List Output) :
    (taken target outputs).Subperm outputs :=
  (List.take_sublist _ _).subperm.trans (sorted_perm outputs).subperm

/-- What is taken for a target is worth it exactly when some part is. -/
theorem le_worth_taken_iff :
    target ≤ worth (taken target outputs) ↔
      ∃ part : List Output, part.Subperm outputs ∧ target ≤ worth part := by
  constructor
  · intro enough
    exact ⟨taken target outputs, taken_subperm target outputs, enough⟩
  · rintro ⟨part, within, enough⟩
    rcases le_worth_take_needed target (sorted outputs) with reached | ⟨_, short⟩
    · exact reached
    · -- All outputs together would be worth less than the part.
      have largest := worth_le_of_subperm within
      have front := worth_le_of_sublist (List.take_sublist part.length (sorted outputs))
      omega

end Output

namespace Selection

variable {target : Amount} {candidates : List Output} {selection : Selection}

/-- Spending the largest first takes a part of the candidates. No part that is worth
the target has fewer outputs, and the selection is worth the target exactly when some
part is. -/
theorem largestFirst_fewest
    (selected : (largestFirst target candidates).outcome = .ok selection) :
    selection.gathered.Subperm candidates ∧
    (∀ part : List Output, part.Subperm candidates → target.atoms ≤ Output.worth part →
      selection.gathered.length ≤ part.length) ∧
    (target ≤ selection.total ↔
      ∃ part : List Output, part.Subperm candidates ∧ target.atoms ≤ Output.worth part) := by
  obtain ⟨gathered, exact⟩ := largestFirst_takes selected
  refine ⟨?_, ?_, ?_⟩
  · rw [gathered]
    exact Output.taken_subperm target.atoms candidates
  · intro part within enough
    rw [gathered]
    exact Output.length_taken_le within enough
  · change target.atoms ≤ selection.total.atoms ↔ _
    rw [exact, gathered]
    exact Output.le_worth_taken_iff

/-- Two outputs of unequal worth are taken for a target that three of the others would
reach exactly. -/
theorem largestFirst_fewest_two :
    let target : Amount := ⟨15, by decide⟩
    let candidates : List Output := [⟨⟨4, by decide⟩, ⟨[1]⟩⟩, ⟨⟨6, by decide⟩, ⟨[2]⟩⟩,
      ⟨⟨9, by decide⟩, ⟨[3]⟩⟩, ⟨⟨5, by decide⟩, ⟨[]⟩⟩, ⟨⟨10, by decide⟩, ⟨[4]⟩⟩]
    let selection : Selection := ⟨⟨19, by decide⟩,
      [⟨⟨10, by decide⟩, ⟨[4]⟩⟩, ⟨⟨9, by decide⟩, ⟨[3]⟩⟩]⟩
    let part : List Output := [⟨⟨5, by decide⟩, ⟨[]⟩⟩, ⟨⟨4, by decide⟩, ⟨[1]⟩⟩,
      ⟨⟨6, by decide⟩, ⟨[2]⟩⟩]
    (largestFirst target candidates).outcome = .ok selection ∧ part.Subperm candidates ∧
      target.atoms ≤ Output.worth part ∧ selection.gathered.length ≤ part.length ∧
      target ≤ selection.total := by
  intro target candidates selection part
  have sorted : Output.sorted candidates = selection.gathered ++
      [⟨⟨6, by decide⟩, ⟨[2]⟩⟩, ⟨⟨5, by decide⟩, ⟨[]⟩⟩, ⟨⟨4, by decide⟩, ⟨[1]⟩⟩] :=
    Output.sorted_eq_of_pairwise (by decide) (by decide)
  have selected : (largestFirst target candidates).outcome = .ok selection := by
    rw [largestFirst_of_sorted (by decide) sorted]
    rfl
  have within : part.Subperm candidates := by decide
  have enough : target.atoms ≤ Output.worth part := by decide
  obtain ⟨_, fewest, reached⟩ := largestFirst_fewest selected
  exact ⟨selected, within, enough, fewest part within enough, reached.mpr ⟨part, within, enough⟩⟩

end Selection

end CoinScript
