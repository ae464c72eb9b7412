import CoinScript.Proofs.SpendingAll
import CoinScript.Wallet.Pool

/-!
# Conservation in pools

Outputs enter a pool by being supplied and leave it by being selected. Whatever the
actions on it, the outputs in the pool and those taken by its successful selections
are together the outputs ever supplied: a selection takes what it leaves out, a
failed one takes nothing, and every selection is worth its stated total. Outputs
given back count as supplied again.

One action keeps this balance, and so does a run of any length at every point of it.
-/

namespace CoinScript

variable {target : Amount} {candidates : List Output} {selection : Selection}

namespace Policy

variable {policy : Policy}

/-- What a successful selection leaves and what it takes are the candidates. -/
theorem select_perm_of_ok (selected : (policy.select target candidates).outcome = .ok selection) :
    ((policy.select target candidates).candidates ++ selection.gathered).Perm candidates := by
  cases policy with
  | largestFirst => exact Selection.largestFirst_perm selected
  | everything =>
    obtain ⟨_, gathered, left⟩ := Selection.everything_ok selected
    rw [select, gathered, left]
    exact .of_eq (List.nil_append candidates)

/-- A failed selection leaves all the candidates. -/
theorem select_perm_of_error {reason : SelectionError}
    (refused : (policy.select target candidates).outcome = .error reason) :
    (policy.select target candidates).candidates.Perm candidates := by
  cases policy with
  | largestFirst =>
    rw [select, Selection.largestFirst_error refused]
    exact Output.sorted_perm candidates
  | everything =>
    rw [select, Selection.everything_error refused]

/-- The stated total of a successful selection is what it takes. -/
theorem select_exact (selected : (policy.select target candidates).outcome = .ok selection) :
    selection.total.atoms = Output.worth selection.gathered := by
  cases policy with
  | largestFirst => exact (Selection.largestFirst_takes selected).2
  | everything =>
    obtain ⟨exact, gathered, _⟩ := Selection.everything_ok selected
    exact exact.trans (congrArg Output.worth gathered.symm)

end Policy

namespace Pool

/-- The outputs that an action adds to the candidates of the pool. -/
def added (pool : Pool) : Action → List Output
  | .receive outputs => outputs
  | .select _ _ => []
  | .giveBack => pool.returnable

/-- The outputs that actions in a row add to the candidates. -/
def supplied (pool : Pool) : List Action → List Output
  | [] => []
  | action :: rest => pool.added action ++ supplied (pool.perform action).pool rest

/-- The selection of an action that selects with success. -/
def Performed.selection? (performed : Performed) : Option Selection :=
  performed.outcome.bind Except.toOption

/-- The successful selections among what was performed. -/
def selections (performed : List Performed) : List Selection :=
  performed.filterMap Performed.selection?

/-- The pool behind what was performed on it. -/
def behind (pool : Pool) : List Performed → Pool
  | [] => pool
  | first :: rest => behind first.pool rest

/-- What was performed up to a point is the run of the actions up to that point. -/
theorem take_run (pool : Pool) (actions : List Action) (point : Nat) :
    (pool.run actions).take point = pool.run (actions.take point) := by
  induction actions generalizing pool point with
  | nil => simp only [run, List.take_nil]
  | cons action rest inductionHypothesis =>
    cases point with
    | zero => rfl
    | succ point => simp only [run, List.take_succ_cons, inductionHypothesis]

/-- The first action's selection stands in front of the later ones. -/
theorem selections_cons (first : Performed) (rest : List Performed) :
    selections (first :: rest) = first.selection?.toList ++ selections rest := by
  unfold selections
  cases taken : first.selection? with
  | none => simp [taken]
  | some selection => simp [taken]

/-- One action keeps the outputs: those in the pool afterwards and those taken are
those in the pool before and those added. -/
theorem perform_perm (pool : Pool) (action : Action) :
    ((pool.perform action).pool.candidates ++
        (pool.perform action).selection?.toList.flatMap Selection.gathered).Perm
      (pool.candidates ++ pool.added action) := by
  cases action with
  | receive outputs => exact .of_eq (List.append_nil _)
  | giveBack => exact .of_eq (List.append_nil _)
  | select policy target =>
    cases selected : (policy.select target pool.candidates).outcome with
    | ok selection =>
      simpa [perform, select, selected, Performed.selection?, Except.toOption, added] using
        Policy.select_perm_of_ok selected
    | error reason =>
      simpa [perform, select, selected, Performed.selection?, Except.toOption, added] using
        Policy.select_perm_of_error selected

/-- An action's selection is worth its stated total. -/
theorem perform_exact {pool : Pool} {action : Action}
    (taken : (pool.perform action).selection? = some selection) :
    selection.total.atoms = Output.worth selection.gathered := by
  cases action with
  | receive outputs => cases taken
  | giveBack => cases taken
  | select policy target =>
    cases selected : (policy.select target pool.candidates).outcome with
    | ok found =>
      have same : found = selection := by
        simpa [perform, select, selected, Performed.selection?, Except.toOption] using taken
      exact same ▸ Policy.select_exact selected
    | error reason =>
      simp [perform, select, selected, Performed.selection?, Except.toOption] at taken

/-- A run keeps the outputs: those in the pool behind it and those taken are those in
the pool before it and those supplied. Induct over the actions; the first keeps
them, and the rest starts from the pool that it left. -/
theorem run_perm (pool : Pool) (actions : List Action) :
    ((pool.behind (pool.run actions)).candidates ++
        (selections (pool.run actions)).flatMap Selection.gathered).Perm
      (pool.candidates ++ pool.supplied actions) := by
  induction actions generalizing pool with
  | nil => exact .refl _
  | cons action rest inductionHypothesis =>
    have first := pool.perform_perm action
    have later := inductionHypothesis (pool.perform action).pool
    simp only [run, behind, selections_cons, List.flatMap_append, supplied]
    refine .trans (List.perm_append_comm_assoc _ _ _) ?_
    refine .trans (later.append_left _) ?_
    rw [← List.append_assoc, ← List.append_assoc]
    exact .append_right _ (List.perm_append_comm.trans first)

/-- Every selection of a run is worth its stated total. -/
theorem run_exact {pool : Pool} {actions : List Action}
    (taken : selection ∈ selections (pool.run actions)) :
    selection.total.atoms = Output.worth selection.gathered := by
  induction actions generalizing pool with
  | nil => cases taken
  | cons action rest inductionHypothesis =>
    rw [run, selections_cons, List.mem_append, Option.mem_toList] at taken
    rcases taken with first | later
    · exact perform_exact first
    · exact inductionHypothesis later

/-- Selections that are worth their stated totals are worth these totals together. -/
theorem worth_flatMap {taken : List Selection}
    (exact : ∀ selection ∈ taken, selection.total.atoms = Output.worth selection.gathered) :
    Output.worth (taken.flatMap Selection.gathered) =
      Amount.exactSum (taken.map Selection.total) := by
  induction taken with
  | nil => rfl
  | cons selection rest inductionHypothesis =>
    have first := exact selection List.mem_cons_self
    have later := inductionHypothesis fun other member => exact other (List.mem_cons_of_mem _ member)
    simp only [List.flatMap_cons, Output.worth_append, List.map_cons, Amount.exactSum, first, later]

/-- Whatever is done with a pool, at every point the outputs in it and those taken by
the successful selections so far are the outputs it began with and those supplied
since. Each of these selections is worth its stated total, which is an amount. So the
stated totals and what is still in the pool add up to all that was ever supplied. -/
theorem run_conserves (pool : Pool) (actions : List Action) (point : Nat) :
    let performed := (pool.run actions).take point
    let current := pool.behind performed
    let taken := selections performed
    let ever := pool.candidates ++ pool.supplied (actions.take point)
    (current.candidates ++ taken.flatMap Selection.gathered).Perm ever ∧
      (∀ selection ∈ taken, selection.total.atoms = Output.worth selection.gathered ∧
        Output.worth selection.gathered < Amount.capacity) ∧
      Amount.exactSum (taken.map Selection.total) + Output.worth current.candidates =
        Output.worth ever := by
  intro performed current taken ever
  have upTo : performed = pool.run (actions.take point) := pool.take_run actions point
  have conserved : (current.candidates ++ taken.flatMap Selection.gathered).Perm ever := by
    simp only [current, taken, upTo]
    exact pool.run_perm (actions.take point)
  have exact (selection : Selection) (member : selection ∈ taken) :
      selection.total.atoms = Output.worth selection.gathered := by
    simp only [taken, upTo] at member
    exact run_exact member
  refine ⟨conserved, ?_, ?_⟩
  · intro selection member
    exact ⟨exact selection member, exact selection member ▸ selection.total.bound⟩
  · rw [← Output.worth_perm conserved, Output.worth_append, worth_flatMap exact, Nat.add_comm]

end Pool

end CoinScript
