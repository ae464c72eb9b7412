import CoinScript.Wallet.Output
import Mathlib.Data.List.Lex

/-!
# The order of spending

Outputs are ordered by value, larger values first, and outputs of one value by
their locks, byte by byte from the front, a proper beginning coming first. The
comparison of outputs decides exactly this order. It is total and transitive, and
only equal outputs compare as equal.

So a list of outputs has one sorted form. Lists with the same outputs, however
arranged, are sorted to the same list. Comparing neighbours tells whether a list is in
this form, since the order is transitive.
-/

namespace CoinScript

namespace Bytes

/-- The first byte string comes before the second one byte by byte: at the first
difference it has the lower byte, or it is a proper beginning. -/
def Before (first second : Bytes) : Prop :=
  List.Lex (fun byte other => byte.toNat < other.toNat) first second

/-- Byte strings compare as lower exactly when they come before. -/
theorem compare_eq_lt_iff {first second : Bytes} :
    compare first second = .lt ↔ first.Before second := by
  unfold Before
  induction first generalizing second with
  | nil =>
    cases second with
    | nil => simp
    | cons other others => simp [List.compare_nil_cons]
  | cons byte rest inductionHypothesis =>
    cases second with
    | nil => simp [List.compare_cons_nil]
    | cons other others =>
      rw [List.compare_cons_cons, Ordering.then_eq_lt, Std.compare_eq_lt, UInt8.lt_iff_toNat_lt,
        Std.LawfulEqCmp.compare_eq_iff_eq, inductionHypothesis]
      constructor
      · rintro (lower | ⟨rfl, before⟩)
        · exact .rel lower
        · exact .cons before
      · rintro (_ | lower | before)
        · exact .inl lower
        · exact .inr ⟨rfl, before⟩

/-- A byte string comes before another exactly when it is a proper beginning of it, or
when behind what both begin with it has the lower byte. -/
theorem before_iff {first second : Bytes} :
    first.Before second ↔
      (first <+: second ∧ first ≠ second) ∨
        ∃ (shared rest others : Bytes) (lower higher : UInt8),
          first = shared ++ lower :: rest ∧ second = shared ++ higher :: others ∧
            lower.toNat < higher.toNat := by
  constructor
  · intro before
    unfold Before at before
    induction before with
    | @nil other others => exact .inl ⟨List.nil_prefix, (List.cons_ne_nil other others).symm⟩
    | rel below => exact .inr ⟨[], _, _, _, _, rfl, rfl, below⟩
    | cons _ inductionHypothesis =>
      rcases inductionHypothesis with ⟨begins, differs⟩ |
        ⟨shared, rest, others, lower, higher, rfl, rfl, below⟩
      · refine .inl ⟨List.cons_prefix_cons.mpr ⟨rfl, begins⟩, ?_⟩
        intro same
        exact differs (List.cons.inj same).2
      · exact .inr ⟨_ :: shared, rest, others, lower, higher, rfl, rfl, below⟩
  · rintro (⟨⟨behind, rfl⟩, differs⟩ | ⟨shared, rest, others, lower, higher, rfl, rfl, below⟩)
    · cases behind with
      | nil => exact absurd (List.append_nil first).symm differs
      | cons byte behind =>
        have longer : Before [] (byte :: behind) := .nil
        have joined : Before (first ++ []) (first ++ byte :: behind) := longer.append_left _ first
        rwa [List.append_nil] at joined
    · have differing : Before (lower :: rest) (higher :: others) := .rel below
      exact differing.append_left _ shared

end Bytes

namespace Output

variable {first second : Output}

/-- The first output is spent no later than the second: it is worth more, or it is
worth the same and its lock does not come behind the other. -/
def InOrder (first second : Output) : Prop :=
  second.value.atoms < first.value.atoms ∨
    (first.value.atoms = second.value.atoms ∧
      (first.lock.bytes = second.lock.bytes ∨ first.lock.bytes.Before second.lock.bytes))

/-- The comparison looks at quantities the other way round, and then at locks. -/
theorem spendingOrder_eq (first second : Output) :
    spendingOrder first second =
      (compare second.value.atoms first.value.atoms).then
        (compare first.lock.bytes second.lock.bytes) := rfl

/-- An output compares as lower exactly when it is worth more, or is worth the same and
has the lock that comes before. -/
theorem spendingOrder_eq_lt_iff :
    spendingOrder first second = .lt ↔
      second.value.atoms < first.value.atoms ∨
        (first.value.atoms = second.value.atoms ∧
          first.lock.bytes.Before second.lock.bytes) := by
  rw [spendingOrder_eq, Ordering.then_eq_lt, Nat.compare_eq_lt, Nat.compare_eq_eq,
    Bytes.compare_eq_lt_iff, eq_comm (a := second.value.atoms)]

/-- Outputs compare as equal exactly when they are worth the same and have the same
lock. -/
theorem spendingOrder_eq_eq_iff :
    spendingOrder first second = .eq ↔
      first.value.atoms = second.value.atoms ∧ first.lock.bytes = second.lock.bytes := by
  rw [spendingOrder_eq, Ordering.then_eq_eq, Nat.compare_eq_eq,
    Std.LawfulEqCmp.compare_eq_iff_eq, eq_comm (a := second.value.atoms)]

/-- The comparison of outputs decides their order. -/
theorem spentBefore_iff : first.spentBefore second = true ↔ first.InOrder second := by
  rw [spentBefore, Ordering.isLE_iff_eq_lt_or_eq_eq, spendingOrder_eq_lt_iff,
    spendingOrder_eq_eq_iff, or_assoc, ← and_or_left, InOrder,
    or_comm (a := first.lock.bytes.Before second.lock.bytes)]

/-- Two comparisons that each reverse and chain do so one after the other. -/
instance : Std.TransCmp spendingOrder :=
  inferInstanceAs (Std.TransCmp (compareLex
    (fun first second => compareOn (fun output : Output => output.value.atoms) second first)
    (compareOn fun output : Output => output.lock.bytes)))

/-- Only equal outputs compare as equal. -/
instance : Std.LawfulEqCmp spendingOrder where
  eq_of_compare := by
    rintro ⟨⟨atoms, bound⟩, ⟨bytes⟩⟩ ⟨⟨otherAtoms, otherBound⟩, ⟨otherBytes⟩⟩ same
    obtain ⟨rfl, rfl⟩ := spendingOrder_eq_eq_iff.mp same
    rfl

/-- Outputs that are each spent no later than the other are the same. -/
theorem spentBefore_antisymm (before : first.spentBefore second = true)
    (behind : second.spentBefore first = true) : first = second :=
  Std.LawfulEqCmp.eq_of_compare (Std.OrientedCmp.isLE_antisymm before behind)

/-- Of two outputs one is spent no later than the other. -/
theorem spentBefore_total (first second : Output) :
    (first.spentBefore second || second.spentBefore first) = true := by
  have reversed : spendingOrder first second = (spendingOrder second first).swap :=
    Std.OrientedCmp.eq_swap
  unfold spentBefore
  rw [reversed]
  cases spendingOrder second first <;> rfl

/-- The order of spending chains. -/
instance : Trans InOrder InOrder InOrder where
  trans before behind := spentBefore_iff.mp
    (Std.TransCmp.isLE_trans (spentBefore_iff.mpr before) (spentBefore_iff.mpr behind))

/-- Sorting rearranges the outputs. -/
theorem sorted_perm (outputs : List Output) : (sorted outputs).Perm outputs :=
  List.mergeSort_perm outputs spentBefore

/-- Of the sorted outputs each is spent no later than those behind it. -/
theorem pairwise_sorted (outputs : List Output) :
    (sorted outputs).Pairwise fun first second => first.spentBefore second = true :=
  List.pairwise_mergeSort (fun _ _ _ => Std.TransCmp.isLE_trans) spentBefore_total outputs

/-- The sorted outputs stand in the order of spending. -/
theorem sorted_inOrder (outputs : List Output) : (sorted outputs).Pairwise InOrder :=
  (pairwise_sorted outputs).imp spentBefore_iff.mp

/-- Outputs have only one arrangement in which each is spent no later than those
behind it. -/
theorem sorted_eq_of_pairwise {outputs arranged : List Output} (shuffled : outputs.Perm arranged)
    (ordered : arranged.Pairwise fun first second => first.spentBefore second = true) :
    sorted outputs = arranged := by
  have rearranged : (sorted outputs).Perm arranged := (sorted_perm outputs).trans shuffled
  exact rearranged.eq_of_pairwise (fun _ _ _ _ => spentBefore_antisymm) (pairwise_sorted outputs)
    ordered

/-- Sorting depends only on which outputs there are. -/
theorem sorted_eq_of_perm {outputs others : List Output} (shuffled : outputs.Perm others) :
    sorted outputs = sorted others :=
  sorted_eq_of_pairwise (shuffled.trans (sorted_perm others).symm) (pairwise_sorted others)

/-- No output compares as greater than the one next to it. -/
def Arranged (outputs : List Output) : Prop :=
  outputs.IsChain fun first second => spendingOrder first second ≠ .gt

/-- Whether outputs are arranged is decided by comparing neighbours. -/
instance (outputs : List Output) : Decidable (Arranged outputs) :=
  inferInstanceAs (Decidable (outputs.IsChain _))

/-- Neighbours suffice: where none compares as greater than the next, all the outputs
stand in the order of spending. -/
theorem arranged_iff {outputs : List Output} : Arranged outputs ↔ outputs.Pairwise InOrder := by
  have compared (first second : Output) :
      spendingOrder first second ≠ .gt ↔ first.InOrder second := by
    rw [← spentBefore_iff, spentBefore, Ordering.isLE_iff_ne_gt]
  simp only [Arranged, compared]
  exact List.isChain_iff_pairwise

/-- Arranged outputs are in their sorted form. -/
theorem Arranged.sorted_eq {outputs : List Output} (arranged : Arranged outputs) :
    sorted outputs = outputs :=
  sorted_eq_of_pairwise (.refl outputs) ((arranged_iff.mp arranged).imp spentBefore_iff.mpr)

/-- Larger values compare as lower, and of one value the lock that is a proper beginning
of the other, or has the lower byte behind what both begin with. The comparison turns
round with the outputs. The same answer twice in a row is the answer from end to end.
Only outputs of one value with one lock compare as equal. So arranged lists with the same
outputs are the same list. -/
theorem spendingOrder_total (first second third : Output) :
    (spendingOrder first second = .lt ↔
      second.value.atoms < first.value.atoms ∨
        (first.value.atoms = second.value.atoms ∧
          ((first.lock.bytes <+: second.lock.bytes ∧ first.lock.bytes ≠ second.lock.bytes) ∨
            ∃ (shared rest others : Bytes) (lower higher : UInt8),
              first.lock.bytes = shared ++ lower :: rest ∧
                second.lock.bytes = shared ++ higher :: others ∧
                  lower.toNat < higher.toNat))) ∧
    spendingOrder first second = (spendingOrder second first).swap ∧
    (∀ answer : Ordering, spendingOrder first second = answer →
      spendingOrder second third = answer → spendingOrder first third = answer) ∧
    (spendingOrder first second = .eq ↔
      first.value = second.value ∧ first.lock.bytes = second.lock.bytes) ∧
    ∀ outputs others : List Output, Arranged outputs → Arranged others →
      outputs.Perm others → outputs = others := by
  refine ⟨?_, Std.OrientedCmp.eq_swap, ?_, ?_, ?_⟩
  · rw [spendingOrder_eq_lt_iff, Bytes.before_iff]
  · intro answer front back
    cases answer with
    | lt => exact Std.TransCmp.lt_trans front back
    | eq => exact Std.TransCmp.eq_trans front back
    | gt => exact Std.TransCmp.gt_trans front back
  · rw [spendingOrder_eq_eq_iff]
    exact and_congr_left fun _ => ⟨Amount.eq_of_atoms, congrArg Amount.atoms⟩
  · intro outputs others arranged arrangedOthers shuffled
    calc
      outputs = sorted outputs := arranged.sorted_eq.symm
      _ = sorted others := sorted_eq_of_perm shuffled
      _ = others := arrangedOthers.sorted_eq

/-- A lock stands before the longer one that it begins, and both before a smaller value.
Sorting brings three such outputs into this arrangement. -/
theorem spendingOrder_total_beginnings :
    let brief : Output := ⟨⟨10, by decide⟩, ⟨[1]⟩⟩
    let long : Output := ⟨⟨10, by decide⟩, ⟨[1, 0]⟩⟩
    let small : Output := ⟨⟨5, by decide⟩, ⟨[]⟩⟩
    spendingOrder brief long = .lt ∧ spendingOrder long small = .lt ∧
      spendingOrder brief small = .lt ∧ spendingOrder small brief = .gt ∧
      Arranged (sorted [small, long, brief]) ∧ Arranged [brief, long, small] ∧
      (sorted [small, long, brief]).Perm [brief, long, small] ∧
      sorted [small, long, brief] = [brief, long, small] := by
  intro brief long small
  obtain ⟨lower, _, chained, _, unique⟩ := spendingOrder_total brief long small
  obtain ⟨_, turned, _⟩ := spendingOrder_total small brief long
  have front : spendingOrder brief long = .lt :=
    lower.mpr (.inr ⟨rfl, .inl ⟨⟨[0], rfl⟩, by decide⟩⟩)
  have back : spendingOrder long small = .lt := by decide
  have whole : spendingOrder brief small = .lt := chained .lt front back
  have arranged : Arranged (sorted [small, long, brief]) := arranged_iff.mpr (sorted_inOrder _)
  have expected : Arranged [brief, long, small] := by decide
  have shuffled : (sorted [small, long, brief]).Perm [brief, long, small] :=
    (sorted_perm _).trans (by decide)
  exact ⟨front, back, whole, turned.trans (congrArg Ordering.swap whole), arranged, expected,
    shuffled, unique _ _ arranged expected shuffled⟩

end Output

end CoinScript
