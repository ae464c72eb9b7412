import CoinScript.Proofs.SpendingOrder
import CoinScript.Proofs.Totals
import CoinScript.Wallet.Selection

/-!
# Spending the largest outputs first

How many outputs a target needs is a question of exact totals: the fewest from the
front that are worth the target, or all of them if they are not worth it. Counting
with bounded amounts takes this number of outputs, unless they are worth more than
an amount can hold. It never looks further, so what stands behind them cannot make
it fail.

Selecting for a target above zero is therefore a function of the sorted candidates
alone. It splits them behind the outputs needed and leaves them sorted when it
fails.
-/

namespace CoinScript

namespace Output

/-- How many outputs from the front are needed to be worth the target, all of them
if they are not worth it. -/
def needed (target : Nat) : List Output → Nat
  | [] => 0
  | output :: rest => if target = 0 then 0 else needed (target - output.value.atoms) rest + 1

/-- A target of zero needs no outputs. -/
theorem needed_zero (outputs : List Output) : needed 0 outputs = 0 := by
  cases outputs <;> rfl

/-- The outputs needed are worth the target, or they are all there are and these are
not worth it. -/
theorem le_worth_take_needed (target : Nat) (outputs : List Output) :
    target ≤ worth (outputs.take (needed target outputs)) ∨
      (needed target outputs = outputs.length ∧ worth outputs < target) := by
  induction outputs generalizing target with
  | nil =>
    simp only [needed, List.take_nil, worth, List.length_nil, true_and]
    omega
  | cons output rest inductionHypothesis =>
    by_cases reached : target = 0
    · subst reached
      exact .inl (Nat.zero_le _)
    · simp only [needed, if_neg reached, List.take_succ_cons, worth, List.length_cons]
      rcases inductionHypothesis (target - output.value.atoms) with enough | ⟨all, short⟩
      · exact .inl (by omega)
      · exact .inr ⟨by rw [all], by omega⟩

/-- Fewer outputs than needed are not worth the target. -/
theorem worth_take_lt {target count : Nat} {outputs : List Output}
    (fewer : count < needed target outputs) : worth (outputs.take count) < target := by
  induction outputs generalizing target count with
  | nil => exact absurd fewer (Nat.not_lt_zero _)
  | cons output rest inductionHypothesis =>
    by_cases reached : target = 0
    · simp only [needed, if_pos reached] at fewer
      exact absurd fewer (Nat.not_lt_zero _)
    · simp only [needed, if_neg reached] at fewer
      cases count with
      | zero => exact Nat.pos_of_ne_zero reached
      | succ count =>
        have others := inductionHypothesis (Nat.lt_of_succ_lt_succ fewer)
        simp only [List.take_succ_cons, worth]
        omega

/-- The outputs needed for the target when the largest are spent first. -/
def taken (target : Nat) (outputs : List Output) : List Output :=
  (sorted outputs).take (needed target (sorted outputs))

/-- The outputs not needed for the target when the largest are spent first. -/
def kept (target : Nat) (outputs : List Output) : List Output :=
  (sorted outputs).drop (needed target (sorted outputs))

/-- Together they are the sorted outputs. -/
theorem taken_append_kept (target : Nat) (outputs : List Output) :
    taken target outputs ++ kept target outputs = sorted outputs :=
  List.take_append_drop _ _

/-- A target of zero takes no outputs. -/
theorem taken_zero (outputs : List Output) : taken 0 outputs = [] := by
  rw [taken, needed_zero, List.take_zero]

/-- A target of zero leaves all outputs. -/
theorem kept_zero (outputs : List Output) : kept 0 outputs = sorted outputs := by
  rw [kept, needed_zero, List.drop_zero]

/-- The front is the shortest beginning of the outputs that is worth the target. -/
structure ShortestWorth (target : Nat) (outputs front : List Output) : Prop where
  /-- The outputs begin with it. -/
  begins : front <+: outputs
  /-- It is worth the target. -/
  enough : target ≤ worth front
  /-- No other beginning that is worth the target has fewer outputs. -/
  shortest : ∀ other, other <+: outputs → target ≤ worth other → front.length ≤ other.length

/-- There is only one shortest beginning that is worth the target. -/
theorem ShortestWorth.unique {target : Nat} {outputs front other : List Output}
    (reached : ShortestWorth target outputs front) (also : ShortestWorth target outputs other) :
    front = other := by
  have fewer : front.length ≤ other.length := reached.shortest other also.begins also.enough
  have more : other.length ≤ front.length := also.shortest front reached.begins reached.enough
  have within : front <+: other := List.prefix_of_prefix_length_le reached.begins also.begins fewer
  exact within.eq_of_length (Nat.le_antisymm fewer more)

/-- The outputs taken are the shortest beginning of the order that is worth the target,
or they are all of it and no beginning is. -/
theorem shortestWorth_taken (target : Nat) (outputs : List Output) :
    ShortestWorth target (sorted outputs) (taken target outputs) ∨
      (kept target outputs = [] ∧ worth (taken target outputs) < target ∧
        ∀ front, front <+: sorted outputs → worth front < target) := by
  unfold taken kept
  rcases le_worth_take_needed target (sorted outputs) with enough | ⟨all, short⟩
  · refine .inl ⟨List.take_prefix _ _, enough, ?_⟩
    intro front begins worthTarget
    -- A shorter beginning would consist of fewer outputs than needed.
    apply Nat.le_of_not_lt
    intro shorter
    have fewer : front.length < needed target (sorted outputs) := by
      rw [List.length_take] at shorter
      omega
    have below := worth_take_lt fewer
    rw [← List.prefix_iff_eq_take.mp begins] at below
    omega
  · rw [all, List.drop_length, List.take_length]
    refine .inr ⟨rfl, short, ?_⟩
    intro front begins
    exact Nat.lt_of_le_of_lt (worth_le_of_sublist begins.sublist) short

end Output

namespace Selection

variable {target : Amount} {candidates : List Output} {selection : Selection}

/-- Counting takes the outputs that the rest of the target needs, as long as the
total with them is an amount. Induct over the outputs: each addition brings the
counted total and what is still needed nearer, and an addition that leaves the range
is among those needed. -/
theorem reach_eq (target : Amount) (count : Nat) (total : Amount) (outputs : List Output) :
    let more := Output.needed (target.atoms - total.atoms) outputs
    reach target count total outputs =
      match Amount.ofNat? (total.atoms + Output.worth (outputs.take more)) with
      | some reached => .ok (count + more, reached)
      | none => .error .amountOverflow := by
  intro more
  induction outputs generalizing count total with
  | nil =>
    have counted : Amount.ofNat? total.atoms = some total := Amount.ofNat?_eq_some_iff.mpr rfl
    simp only [more, Output.needed, reach, List.take_nil, Output.worth, Nat.add_zero, counted]
  | cons output rest inductionHypothesis =>
    by_cases reached : target ≤ total
    · have nothing : target.atoms - total.atoms = 0 := Nat.sub_eq_zero_of_le reached
      have counted : Amount.ofNat? total.atoms = some total := Amount.ofNat?_eq_some_iff.mpr rfl
      simp only [more, nothing, Output.needed_zero, reach, if_pos reached, List.take_zero,
        Output.worth, Nat.add_zero, counted]
    · have missing : target.atoms - total.atoms ≠ 0 :=
        Nat.sub_ne_zero_of_lt (Nat.lt_of_not_le reached)
      simp only [more, Output.needed, if_neg missing, reach, if_neg reached, List.take_succ_cons,
        Output.worth]
      cases added : total.add? output.value with
      | some larger =>
        have exact : larger.atoms = total.atoms + output.value.atoms :=
          Amount.add?_eq_some_iff.mp added
        simp only [inductionHypothesis, exact, Nat.sub_sub, Nat.add_assoc, Nat.add_comm 1]
      | none =>
        have outside : Amount.capacity ≤ total.atoms + output.value.atoms :=
          Amount.add?_eq_none_iff.mp added
        rw [Amount.ofNat?_eq_none_iff.mpr (by omega)]

/-- With the sorted candidates known, selecting for a target above zero is counting in
them. -/
theorem largestFirst_of_sorted {sorted : List Output} (positive : target ≠ .zero)
    (arranged : Output.sorted candidates = sorted) :
    largestFirst target candidates =
      match reach target 0 .zero sorted with
      | .error reason => ⟨.error reason, sorted, []⟩
      | .ok (count, total) =>
        ⟨.ok ⟨total, sorted.take count⟩, sorted.drop count,
          [.reached (sorted.take count).length total target (sorted.drop count).length]⟩ := by
  subst arranged
  cases counted : reach target 0 .zero (Output.sorted candidates) with
  | error reason => simp only [largestFirst, if_neg positive, counted]
  | ok reached => simp only [largestFirst, if_neg positive, counted, List.splitAt_eq]

/-- A target above zero splits the sorted candidates behind the outputs needed, if
what these are worth is an amount. Otherwise the candidates are left sorted. -/
theorem largestFirst_eq (positive : target ≠ .zero) (candidates : List Output) :
    largestFirst target candidates =
      match Amount.ofNat? (Output.worth (Output.taken target.atoms candidates)) with
      | some total =>
        ⟨.ok ⟨total, Output.taken target.atoms candidates⟩, Output.kept target.atoms candidates,
          [.reached (Output.taken target.atoms candidates).length total target
            (Output.kept target.atoms candidates).length]⟩
      | none => ⟨.error .amountOverflow, Output.sorted candidates, []⟩ := by
  have counted := reach_eq target 0 .zero (Output.sorted candidates)
  simp only [Amount.atoms_zero, Nat.sub_zero, Nat.zero_add] at counted
  rw [largestFirst_of_sorted positive rfl, counted, Output.taken, Output.kept]
  cases Amount.ofNat? (Output.worth ((Output.sorted candidates).take
      (Output.needed target.atoms (Output.sorted candidates)))) with
  | none => rfl
  | some total => rfl

/-- A target of zero takes nothing and leaves the candidates as they are. -/
theorem largestFirst_zero (candidates : List Output) :
    largestFirst .zero candidates = ⟨.ok ⟨.zero, []⟩, candidates, []⟩ := rfl

/-- A successful selection for a target above zero takes the outputs needed and
knows what they are worth; the others are left. -/
theorem largestFirst_ok (positive : target ≠ .zero)
    (selected : (largestFirst target candidates).outcome = .ok selection) :
    selection.gathered = Output.taken target.atoms candidates ∧
      (largestFirst target candidates).candidates = Output.kept target.atoms candidates ∧
      selection.total.atoms = Output.worth selection.gathered := by
  rw [largestFirst_eq positive] at selected ⊢
  split at selected
  · rename_i total reached
    cases selected
    exact ⟨rfl, rfl, Amount.ofNat?_eq_some_iff.mp reached⟩
  · cases selected

/-- Whatever the target, a successful selection takes the outputs needed and knows
what they are worth. -/
theorem largestFirst_takes
    (selected : (largestFirst target candidates).outcome = .ok selection) :
    selection.gathered = Output.taken target.atoms candidates ∧
      selection.total.atoms = Output.worth selection.gathered := by
  by_cases positive : target = .zero
  · subst positive
    cases selected
    exact ⟨(Output.taken_zero candidates).symm, rfl⟩
  · obtain ⟨gathered, _, exact⟩ := largestFirst_ok positive selected
    exact ⟨gathered, exact⟩

/-- A failed selection leaves all the candidates, sorted, and reports nothing. -/
theorem largestFirst_error {reason : SelectionError}
    (refused : (largestFirst target candidates).outcome = .error reason) :
    largestFirst target candidates =
      ⟨.error .amountOverflow, Output.sorted candidates, []⟩ := by
  by_cases positive : target = .zero
  · subst positive
    cases refused
  · rw [largestFirst_eq positive] at refused ⊢
    split at refused
    · cases refused
    · rfl

/-- A selection fails exactly when the target is above zero and the outputs needed
are worth more than an amount can hold. -/
theorem largestFirst_error_iff :
    (largestFirst target candidates).outcome = .error .amountOverflow ↔
      target ≠ .zero ∧
        Amount.capacity ≤ Output.worth (Output.taken target.atoms candidates) := by
  by_cases positive : target = .zero
  · subst positive
    simp only [largestFirst_zero, reduceCtorEq, ne_eq, not_true_eq_false, false_and]
  · rw [largestFirst_eq positive, ← Amount.ofNat?_eq_none_iff]
    cases Amount.ofNat? (Output.worth (Output.taken target.atoms candidates)) with
    | none => simp only [ne_eq, positive, not_false_eq_true, and_self]
    | some total => simp only [reduceCtorEq, and_false]

/-- A selection succeeds when the outputs needed are worth an amount. -/
theorem exists_selection
    (inRange : Output.worth (Output.taken target.atoms candidates) < Amount.capacity) :
    ∃ selection : Selection, (largestFirst target candidates).outcome = .ok selection := by
  cases selected : (largestFirst target candidates).outcome with
  | ok selection => exact ⟨selection, rfl⟩
  | error reason =>
    obtain ⟨_, beyond⟩ := largestFirst_error_iff.mp selected
    exact absurd beyond (Nat.not_le.mpr inRange)

/-- A selection for a target above zero depends only on which candidates there are. -/
theorem largestFirst_eq_of_perm (positive : target ≠ .zero) {others : List Output}
    (shuffled : candidates.Perm others) :
    largestFirst target candidates = largestFirst target others := by
  have sorted : Output.sorted candidates = Output.sorted others := Output.sorted_eq_of_perm shuffled
  rw [largestFirst_eq positive, largestFirst_eq positive]
  simp only [Output.taken, Output.kept, sorted]

/-- What a successful selection leaves and what it takes are the candidates. -/
theorem largestFirst_perm
    (selected : (largestFirst target candidates).outcome = .ok selection) :
    ((largestFirst target candidates).candidates ++ selection.gathered).Perm candidates := by
  by_cases positive : target = .zero
  · subst positive
    cases selected
    exact .of_eq (List.append_nil candidates)
  · obtain ⟨gathered, left, _⟩ := largestFirst_ok positive selected
    rw [gathered, left]
    have joined := Output.taken_append_kept target.atoms candidates
    exact List.perm_append_comm.trans (joined ▸ Output.sorted_perm candidates)

/-- The selection takes as few of the largest candidates as the target needs and
leaves the rest. -/
structure Frugal (target : Amount) (candidates rest : List Output) (selection : Selection) :
    Prop where
  /-- No candidate is lost or added. -/
  conserved : (selection.gathered ++ rest).Perm candidates
  /-- What is taken and what is left stand in the order of spending. -/
  ordered : (selection.gathered ++ rest).Pairwise Output.InOrder
  /-- The stated total is what is taken. -/
  exact : selection.total.atoms = Output.worth selection.gathered
  /-- What is taken is the shortest beginning of the order that is worth the target,
  or all of the order when no beginning is. -/
  shortest : (target.atoms ≤ Output.worth selection.gathered ∧
      ∀ front, front <+: selection.gathered ++ rest → target.atoms ≤ Output.worth front →
        selection.gathered.length ≤ front.length) ∨
    (rest = [] ∧ Output.worth selection.gathered < target.atoms ∧
      ∀ front, front <+: selection.gathered ++ rest → Output.worth front < target.atoms)

/-- A target of zero takes nothing and leaves the candidates in their order. For any
other target a successful selection takes as few of the largest candidates as the
target needs, and leaves the others. -/
theorem largestFirst_policy (target : Amount) (candidates : List Output) :
    (target = .zero →
      largestFirst target candidates = ⟨.ok ⟨.zero, []⟩, candidates, []⟩) ∧
    ∀ selection : Selection, target ≠ .zero →
      (largestFirst target candidates).outcome = .ok selection →
      Frugal target candidates (largestFirst target candidates).candidates selection := by
  constructor
  · intro nothing
    rw [nothing, largestFirst_zero]
  · intro selection positive selected
    obtain ⟨gathered, left, exact⟩ := largestFirst_ok positive selected
    have joined : selection.gathered ++ (largestFirst target candidates).candidates =
        Output.sorted candidates := by
      rw [gathered, left, Output.taken_append_kept]
    refine ⟨?_, ?_, exact, ?_⟩
    · rw [joined]
      exact Output.sorted_perm candidates
    · rw [joined]
      exact Output.sorted_inOrder candidates
    · rw [joined, gathered, left]
      rcases Output.shortestWorth_taken target.atoms candidates with reached | short
      · exact .inl ⟨reached.enough, reached.shortest⟩
      · exact .inr short

/-- Among three outputs of one value the two with the lowest locks are taken, a
proper beginning before what it begins; an output without value is left last. -/
theorem largestFirst_policy_ties :
    let target : Amount := ⟨15, by decide⟩
    let candidates : List Output := [⟨⟨5, by decide⟩, ⟨[9]⟩⟩, ⟨⟨10, by decide⟩, ⟨[2]⟩⟩,
      ⟨⟨10, by decide⟩, ⟨[1, 0]⟩⟩, ⟨⟨0, by decide⟩, ⟨[]⟩⟩, ⟨⟨10, by decide⟩, ⟨[1]⟩⟩]
    let selection : Selection := ⟨⟨20, by decide⟩,
      [⟨⟨10, by decide⟩, ⟨[1]⟩⟩, ⟨⟨10, by decide⟩, ⟨[1, 0]⟩⟩]⟩
    let rest : List Output := [⟨⟨10, by decide⟩, ⟨[2]⟩⟩, ⟨⟨5, by decide⟩, ⟨[9]⟩⟩,
      ⟨⟨0, by decide⟩, ⟨[]⟩⟩]
    (Amount.zero = .zero ∧
      largestFirst .zero candidates = ⟨.ok ⟨.zero, []⟩, candidates, []⟩) ∧
    target ≠ .zero ∧ (largestFirst target candidates).outcome = .ok selection ∧
      (largestFirst target candidates).candidates = rest ∧
      Frugal target candidates rest selection := by
  intro target candidates selection rest
  have positive : target ≠ .zero := by decide
  have sorted : Output.sorted candidates = selection.gathered ++ rest :=
    Output.sorted_eq_of_pairwise (by decide) (by decide)
  have selected : (largestFirst target candidates).outcome = .ok selection := by
    rw [largestFirst_of_sorted positive sorted]
    rfl
  have left : (largestFirst target candidates).candidates = rest := by
    rw [largestFirst_of_sorted positive sorted]
    rfl
  refine ⟨⟨rfl, (largestFirst_policy .zero candidates).1 rfl⟩, positive, selected, left, ?_⟩
  exact left ▸ (largestFirst_policy target candidates).2 selection positive selected

/-- Selecting does not depend on how the candidates are arranged: it fails alike or
takes the same outputs in the same order. For a target above zero it also leaves the
same list. So giving back what was taken and selecting again for the same target
takes and leaves the same.

Proof: candidates rearranged have one sorted form, and what was taken and left are
the candidates rearranged. -/
theorem largestFirst_shuffled {first second : List Output} (shuffled : first.Perm second)
    (target : Amount) :
    (largestFirst target first).outcome = (largestFirst target second).outcome ∧
    (target ≠ .zero →
      (largestFirst target first).candidates = (largestFirst target second).candidates) ∧
    ∀ selection : Selection, target ≠ .zero →
      (largestFirst target first).outcome = .ok selection →
      let rest := (largestFirst target first).candidates
      let again := largestFirst target (rest ++ selection.gathered)
      again.outcome = .ok selection ∧ again.candidates = rest := by
  refine ⟨?_, ?_, ?_⟩
  · by_cases positive : target = .zero
    · rw [positive, largestFirst_zero, largestFirst_zero]
    · rw [largestFirst_eq_of_perm positive shuffled]
  · intro positive
    rw [largestFirst_eq_of_perm positive shuffled]
  · intro selection positive selected rest again
    have same : again = largestFirst target first :=
      largestFirst_eq_of_perm positive (largestFirst_perm selected)
    rw [same]
    exact ⟨selected, rfl⟩

/-- Two arrangements of three outputs, two of them of one value. -/
theorem largestFirst_shuffled_ties :
    let target : Amount := ⟨15, by decide⟩
    let large : Output := ⟨⟨10, by decide⟩, ⟨[1]⟩⟩
    let tied : Output := ⟨⟨10, by decide⟩, ⟨[2]⟩⟩
    let small : Output := ⟨⟨5, by decide⟩, ⟨[]⟩⟩
    let selection : Selection := ⟨⟨20, by decide⟩, [large, tied]⟩
    let first := [small, tied, large]
    let second := [tied, large, small]
    first.Perm second ∧ target ≠ .zero ∧
      (largestFirst target first).outcome = .ok selection ∧
      (largestFirst target first).outcome = (largestFirst target second).outcome ∧
      (largestFirst target first).candidates = (largestFirst target second).candidates ∧
      (largestFirst target ((largestFirst target first).candidates ++ [large, tied])).outcome =
        .ok selection ∧
      (largestFirst target ((largestFirst target first).candidates ++ [large, tied])).candidates =
        (largestFirst target first).candidates := by
  intro target large tied small selection first second
  have shuffled : first.Perm second := by decide
  have positive : target ≠ .zero := by decide
  have sorted : Output.sorted first = [large, tied, small] :=
    Output.sorted_eq_of_pairwise (by decide) (by decide)
  have selected : (largestFirst target first).outcome = .ok selection := by
    rw [largestFirst_of_sorted positive sorted]
    rfl
  obtain ⟨sameOutcome, sameLeft, again⟩ := largestFirst_shuffled shuffled target
  obtain ⟨outcome, left⟩ := again selection positive selected
  exact ⟨shuffled, positive, selected, sameOutcome, sameLeft positive, outcome, left⟩

end Selection

end CoinScript
