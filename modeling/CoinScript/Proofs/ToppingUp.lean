import CoinScript.Proofs.LargestFirst

/-!
# Topping up a selection

The outputs needed for a target are those needed for a lower one and, of the others,
those needed for what is still missing. What a selection leaves stands in the order of
spending already, so selecting from it again goes on where the first selection stopped.

A selection for a lower target is therefore the beginning of the selection for the
higher one. It may reach the higher target too, and then the two are the same.
Otherwise selecting what is missing from the outputs left completes it, and leaves what
the higher target would have left at once. No step of this can fail if the selection
for the higher target does not.
-/

namespace CoinScript

namespace Output

variable {lower upper : Nat}

/-- The outputs needed for a target are those needed for a lower one and, of the others,
those needed for what is missing. Induct over the outputs: as long as the lower target
is not reached, the first output brings both targets nearer by what it is worth. -/
theorem needed_eq_add (lowered : lower ≤ upper) (outputs : List Output) :
    needed upper outputs = needed lower outputs +
      needed (upper - worth (outputs.take (needed lower outputs)))
        (outputs.drop (needed lower outputs)) := by
  induction outputs generalizing lower upper with
  | nil => rfl
  | cons output rest inductionHypothesis =>
    by_cases reached : lower = 0
    · subst reached
      simp only [needed_zero, List.take_zero, worth, Nat.sub_zero, List.drop_zero, Nat.zero_add]
    · have missing : upper ≠ 0 := by omega
      have later := inductionHypothesis (Nat.sub_le_sub_right lowered output.value.atoms)
      simp only [needed, if_neg reached, if_neg missing, List.take_succ_cons,
        List.drop_succ_cons, worth, ← Nat.sub_sub]
      omega

/-- What is left stands in the order of spending. -/
theorem sorted_kept (target : Nat) (outputs : List Output) :
    sorted (kept target outputs) = kept target outputs :=
  sorted_eq_of_pairwise (.refl _) (pairwise_sorted outputs).drop

/-- What is taken for a target is what is taken for a lower one and then, from what this
leaves, for what is missing. -/
theorem taken_eq_append (lowered : lower ≤ upper) (outputs : List Output) :
    taken upper outputs = taken lower outputs ++
      taken (upper - worth (taken lower outputs)) (kept lower outputs) := by
  have resumed : taken (upper - worth (taken lower outputs)) (kept lower outputs) =
      (kept lower outputs).take
        (needed (upper - worth (taken lower outputs)) (kept lower outputs)) := by
    rw [taken, sorted_kept]
  rw [resumed, taken, needed_eq_add lowered, List.take_add]
  rfl

/-- What is left for a target is what is left when what is missing is taken from what a
lower target leaves. -/
theorem kept_eq_kept (lowered : lower ≤ upper) (outputs : List Output) :
    kept upper outputs =
      kept (upper - worth (taken lower outputs)) (kept lower outputs) := by
  have resumed : kept (upper - worth (taken lower outputs)) (kept lower outputs) =
      (kept lower outputs).drop
        (needed (upper - worth (taken lower outputs)) (kept lower outputs)) := by
    rw [kept, sorted_kept]
  rw [resumed, kept, needed_eq_add lowered, ← List.drop_drop]
  rfl

end Output

namespace Selection

variable {candidates : List Output} {lower upper missing : Amount} {part whole : Selection}

/-- Selections that state what they take exactly are known from what they take. -/
theorem eq_of_gathered {first second : Selection} (same : first.gathered = second.gathered)
    (exact : first.total.atoms = Output.worth first.gathered)
    (otherExact : second.total.atoms = Output.worth second.gathered) : first = second := by
  have sameTotal : first.total = second.total := by
    apply Amount.eq_of_atoms
    rw [exact, otherExact, same]
  cases first
  cases second
  cases same
  cases sameTotal
  rfl

/-- If selecting for a target succeeds, selecting for a lower one does too and takes a
beginning of the same outputs. -/
theorem exists_beginning (lowered : lower ≤ upper)
    (selected : (largestFirst upper candidates).outcome = .ok whole) :
    ∃ part : Selection, (largestFirst lower candidates).outcome = .ok part ∧
      part.gathered <+: whole.gathered := by
  obtain ⟨gatheredWhole, exactWhole⟩ := largestFirst_takes selected
  have begins : Output.taken lower.atoms candidates <+: whole.gathered := by
    rw [gatheredWhole, Output.taken_eq_append lowered]
    exact List.prefix_append _ _
  have inRange : Output.worth (Output.taken lower.atoms candidates) < Amount.capacity := by
    apply Nat.lt_of_le_of_lt (Output.worth_le_of_sublist begins.sublist)
    rw [← exactWhole]
    exact whole.total.bound
  obtain ⟨part, selectedPart⟩ := exists_selection inRange
  refine ⟨part, selectedPart, ?_⟩
  rw [(largestFirst_takes selectedPart).1]
  exact begins

/-- A selection for a lower target that is worth a higher one is the selection for it. -/
theorem largestFirst_of_reached (positive : lower ≠ .zero) (lowered : lower ≤ upper)
    (selectedPart : (largestFirst lower candidates).outcome = .ok part)
    (selected : (largestFirst upper candidates).outcome = .ok whole)
    (reached : upper ≤ part.total) :
    part = whole ∧
      (largestFirst lower candidates).candidates = (largestFirst upper candidates).candidates := by
  obtain ⟨gathered, left, exact⟩ := largestFirst_ok positive selectedPart
  obtain ⟨gatheredWhole, leftWhole, exactWhole⟩ :=
    largestFirst_ok (Amount.ne_zero_of_le positive lowered) selected
  have nothing : upper.atoms - Output.worth (Output.taken lower.atoms candidates) = 0 := by
    rw [← gathered, ← exact]
    exact Nat.sub_eq_zero_of_le reached
  have taken := Output.taken_eq_append lowered candidates
  rw [nothing, Output.taken_zero, List.append_nil] at taken
  have kept := Output.kept_eq_kept lowered candidates
  rw [nothing, Output.kept_zero, Output.sorted_kept] at kept
  constructor
  · exact eq_of_gathered (by rw [gathered, gatheredWhole, taken]) exact exactWhole
  · rw [left, leftWhole, kept]

/-- What a selection for a lower target misses of a higher one can be selected from what
it leaves. This takes the other outputs and leaves what the higher target leaves. -/
theorem largestFirst_of_missing (positive : lower ≠ .zero) (lowered : lower ≤ upper)
    (selectedPart : (largestFirst lower candidates).outcome = .ok part)
    (selected : (largestFirst upper candidates).outcome = .ok whole)
    (missingPositive : missing ≠ .zero) (missed : upper.sub? part.total = some missing) :
    let second := largestFirst missing (largestFirst lower candidates).candidates
    ∃ top : Selection, second.outcome = .ok top ∧
      part.gathered ++ top.gathered = whole.gathered ∧
      part.total.add? top.total = some whole.total ∧
      second.candidates = (largestFirst upper candidates).candidates := by
  intro second
  obtain ⟨gathered, left, exact⟩ := largestFirst_ok positive selectedPart
  obtain ⟨gatheredWhole, leftWhole, exactWhole⟩ :=
    largestFirst_ok (Amount.ne_zero_of_le positive lowered) selected
  have difference :
      upper.atoms - Output.worth (Output.taken lower.atoms candidates) = missing.atoms := by
    rw [← gathered, ← exact, Amount.sub?_eq_some_iff.mp missed, Nat.add_sub_cancel_left]
  have taken := Output.taken_eq_append lowered candidates
  rw [difference, ← left, ← gathered, ← gatheredWhole] at taken
  have kept := Output.kept_eq_kept lowered candidates
  rw [difference, ← left, ← leftWhole] at kept
  have ends : Output.taken missing.atoms (largestFirst lower candidates).candidates <:+
      whole.gathered := by
    rw [taken]
    exact List.suffix_append _ _
  have inRange : Output.worth
      (Output.taken missing.atoms (largestFirst lower candidates).candidates) <
        Amount.capacity := by
    apply Nat.lt_of_le_of_lt (Output.worth_le_of_sublist ends.sublist)
    rw [← exactWhole]
    exact whole.total.bound
  obtain ⟨top, selectedTop⟩ := exists_selection inRange
  obtain ⟨gatheredTop, leftTop, exactTop⟩ := largestFirst_ok missingPositive selectedTop
  have joined : part.gathered ++ top.gathered = whole.gathered := by
    rw [gatheredTop, taken]
  refine ⟨top, selectedTop, joined, ?_, ?_⟩
  · rw [Amount.add?_eq_some_iff, exactWhole, ← joined, Output.worth_append, exact, exactTop]
  · rw [leftTop, kept]

/-- If spending the largest first succeeds for a target, it succeeds for every lower one
above zero and takes a beginning of the same outputs. Either this is already worth the
higher target, and then both select and leave the same. Or what is missing can be
selected from the candidates left, which takes the other outputs, adds up to the same
total and leaves the same candidates. -/
theorem largestFirst_toppedUp (positive : lower ≠ .zero) (lowered : lower ≤ upper)
    (selected : (largestFirst upper candidates).outcome = .ok whole) :
    let rest := (largestFirst upper candidates).candidates
    let first := largestFirst lower candidates
    ∃ part : Selection, first.outcome = .ok part ∧ part.gathered <+: whole.gathered ∧
      (upper ≤ part.total → part = whole ∧ first.candidates = rest) ∧
      (¬ upper ≤ part.total → ∃ (missing : Amount) (top : Selection),
        let second := largestFirst missing first.candidates
        upper.sub? part.total = some missing ∧ second.outcome = .ok top ∧
          part.gathered ++ top.gathered = whole.gathered ∧
          part.total.add? top.total = some whole.total ∧ second.candidates = rest) := by
  intro rest first
  obtain ⟨part, selectedPart, begins⟩ := exists_beginning lowered selected
  refine ⟨part, selectedPart, begins, ?_, ?_⟩
  · intro reached
    exact largestFirst_of_reached positive lowered selectedPart selected reached
  · intro short
    obtain ⟨missing, missed, missingPositive⟩ := Amount.exists_missing short
    obtain ⟨top, completed⟩ := largestFirst_of_missing positive lowered selectedPart selected
      missingPositive missed
    exact ⟨missing, top, missed, completed⟩

/-- From four outputs: the largest alone is worth the lower target and the one next
above it. For the highest target the second largest is added, and two are left. -/
theorem largestFirst_toppedUp_once :
    let lower : Amount := ⟨5, by decide⟩
    let near : Amount := ⟨9, by decide⟩
    let upper : Amount := ⟨15, by decide⟩
    let first : Output := ⟨⟨9, by decide⟩, ⟨[1]⟩⟩
    let second : Output := ⟨⟨7, by decide⟩, ⟨[2]⟩⟩
    let third : Output := ⟨⟨4, by decide⟩, ⟨[3]⟩⟩
    let fourth : Output := ⟨⟨2, by decide⟩, ⟨[4]⟩⟩
    let candidates := [fourth, first, third, second]
    let part : Selection := ⟨⟨9, by decide⟩, [first]⟩
    let whole : Selection := ⟨⟨16, by decide⟩, [first, second]⟩
    let left := (largestFirst lower candidates).candidates
    lower ≠ .zero ∧ lower ≤ near ∧ lower ≤ upper ∧
      (largestFirst lower candidates).outcome = .ok part ∧
      (largestFirst near candidates).outcome = .ok part ∧
      left = (largestFirst near candidates).candidates ∧
      (largestFirst upper candidates).outcome = .ok whole ∧ ¬ upper ≤ part.total ∧
      ∃ (missing : Amount) (top : Selection),
        upper.sub? part.total = some missing ∧ (largestFirst missing left).outcome = .ok top ∧
          part.gathered ++ top.gathered = whole.gathered ∧
          part.total.add? top.total = some whole.total ∧
          (largestFirst missing left).candidates =
            (largestFirst upper candidates).candidates := by
  intro lower near upper first second third fourth candidates part whole left
  have positive : lower ≠ .zero := by decide
  have sorted : Output.sorted candidates = [first, second, third, fourth] :=
    Output.sorted_eq_of_pairwise (by decide) (by decide)
  have selectedNear : (largestFirst near candidates).outcome = .ok part := by
    rw [largestFirst_of_sorted (by decide) sorted]
    rfl
  have selected : (largestFirst upper candidates).outcome = .ok whole := by
    rw [largestFirst_of_sorted (by decide) sorted]
    rfl
  have selectedLower : (largestFirst lower candidates).outcome = .ok part := by
    rw [largestFirst_of_sorted positive sorted]
    rfl
  obtain ⟨same, selectedSame, _, reached, _⟩ :=
    largestFirst_toppedUp positive (by decide : lower ≤ near) selectedNear
  obtain ⟨found, selectedFound, _, _, missed⟩ :=
    largestFirst_toppedUp positive (by decide : lower ≤ upper) selected
  have isSame : same = part := Except.ok.inj (selectedSame.symm.trans selectedLower)
  have isFound : found = part := Except.ok.inj (selectedFound.symm.trans selectedLower)
  rw [isSame] at reached
  rw [isFound] at missed
  exact ⟨positive, by decide, by decide, selectedLower, selectedNear, (reached (by decide)).2,
    selected, by decide, missed (by decide)⟩

end Selection

end CoinScript
