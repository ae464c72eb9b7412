import CoinScript.Random.Sample
import Mathlib.Algebra.GroupWithZero.Nat
import Mathlib.Data.List.Sort

/-!
# Splitting without loss

A split is told here with everything that could go wrong in it. A draw may go on without an
end. An interval without numbers has none to draw, and a number cannot be taken away from a
smaller one; either would break the work off. How numbers are drawn is left open, but for this:
a number drawn from an interval that holds numbers lies in it.

Whatever is drawn, the work is not broken off. The cuts lie strictly inside, so zero stays in
front and the value stays behind when they are sorted, and every number is taken away from one
that is no smaller. The distances add up to the distance from zero to the value. Drawing from
words is one way of drawing, and the split made from words is what is told here for that way; it
comes to an end because the library sets a bound to how many draws are rejected.
-/

namespace CoinScript

/-- What becomes of work that draws numbers and takes numbers away from each other. -/
inductive Attempt (α : Type) where
  /-- The work was done. -/
  | done (result : α)
  /-- A draw went on without an end. -/
  | endless
  /-- A number was wanted from an interval that holds none. -/
  | emptyInterval (low high : Nat)
  /-- A number was to be taken away from a smaller one. -/
  | shortage (number taken : Nat)

namespace Attempt

variable {α β : Type} {stalls : Prop} {property : α → Prop} {outcome : β → Prop}

/-- Go on with the result. Work that is not done is not gone on with. -/
def andThen : Attempt α → (α → Attempt β) → Attempt β
  | .done result, following => following result
  | .endless, _ => .endless
  | .emptyInterval low high, _ => .emptyInterval low high
  | .shortage number taken, _ => .shortage number taken

/-- The work is not broken off. It goes on without an end only if something stalls, and its
result has the property. -/
def Ensures (stalls : Prop) (property : α → Prop) : Attempt α → Prop
  | .done result => property result
  | .endless => stalls
  | .emptyInterval _ _ => False
  | .shortage _ _ => False

/-- What two pieces of work ensure one after the other, the second being given the result of
the first. -/
theorem Ensures.andThen {first : Attempt α} {following : α → Attempt β}
    (begun : first.Ensures stalls property)
    (continued : ∀ result, property result → (following result).Ensures stalls outcome) :
    (first.andThen following).Ensures stalls outcome := by
  cases first with
  | done result => exact continued result begun
  | endless => exact begun
  | emptyInterval low high => exact begun
  | shortage number taken => exact begun

end Attempt

namespace Draw

variable {σ α : Type}

/-- What was drawn before stands in front of what is still drawn. -/
theorem manyOnto_eq (draw : σ → α × σ) (drawn : List α) (count : Nat) (source : σ) :
    manyOnto draw drawn count source =
      (drawn.reverse ++ (many draw count source).1, (many draw count source).2) := by
  unfold many
  induction count generalizing drawn source with
  | zero => simp only [manyOnto, List.reverse_nil, List.append_nil]
  | succ count inductionHypothesis =>
    rw [manyOnto, manyOnto, inductionHypothesis, inductionHypothesis [(draw source).1]]
    simp only [List.reverse_cons, List.reverse_nil, List.nil_append, List.append_assoc]

/-- The first draw stands in front of the others. -/
theorem many_succ (draw : σ → α × σ) (count : Nat) (source : σ) :
    many draw (count + 1) source =
      ((draw source).1 :: (many draw count (draw source).2).1,
        (many draw count (draw source).2).2) :=
  manyOnto_eq draw [(draw source).1] count (draw source).2

end Draw

/-- A way of drawing a number from `low` on and below `high`: the number and the source behind
it, or nothing when the draw goes on without an end. -/
abbrev Drawing (σ : Type) := DrawWidth → Nat → Nat → σ → Option (Nat × σ)

namespace Drawing

variable {σ : Type}

/-- A number drawn from an interval that holds numbers lies in it. -/
def Inside (drawing : Drawing σ) : Prop :=
  ∀ width low high source number later, low < high →
    drawing width low high source = some (number, later) → low ≤ number ∧ number < high

/-- Some draw from an interval that holds numbers goes on without an end. -/
def Stalls (drawing : Drawing σ) : Prop :=
  ∃ width low high source, low < high ∧ drawing width low high source = none

/-- Numbers drawn from words. -/
def ofWords [WordSource σ] : Drawing σ :=
  fun width low high source => some (Draw.between width low high source)

/-- A number drawn from words lies in its interval. -/
theorem inside_ofWords [WordSource σ] : (ofWords : Drawing σ).Inside := by
  intro width low high source number later inhabited drawn
  have bounds := Draw.between_bounds width inhabited source
  rw [Option.some.inj drawn] at bounds
  exact bounds

/-- Draw a number. The interval has to hold one. -/
def one (drawing : Drawing σ) (width : DrawWidth) (low high : Nat) (source : σ) :
    Attempt (Nat × σ) :=
  if low < high then
    match drawing width low high source with
    | some drawn => .done drawn
    | none => .endless
  else .emptyInterval low high

/-- Draw so many numbers, the first one first. -/
def many (drawing : Drawing σ) (width : DrawWidth) (low high : Nat) :
    Nat → σ → Attempt (List Nat × σ)
  | 0, source => .done ([], source)
  | count + 1, source =>
    (drawing.one width low high source).andThen fun first =>
      (drawing.many width low high count first.2).andThen fun others =>
        .done (first.1 :: others.1, others.2)

/-- Numbers prepared beforehand, each folded into its interval. Without any left the draw does
not come to an end. -/
def prepared : Drawing (List Nat)
  | _, low, high, number :: rest => some (low + number % (high - low), rest)
  | _, _, _, [] => none

/-- A number folded into its interval lies in it. -/
theorem inside_prepared : prepared.Inside := by
  intro width low high source number later inhabited drawn
  cases source with
  | nil => cases drawn
  | cons first rest =>
    have folded : low + first % (high - low) = number := congrArg Prod.fst (Option.some.inj drawn)
    have below : first % (high - low) < high - low := Nat.mod_lt first (Nat.sub_pos_of_lt inhabited)
    omega

variable {drawing : Drawing σ} {low high : Nat}

/-- A number is drawn from its interval, if the interval holds one. -/
theorem Inside.one (inside : drawing.Inside) (width : DrawWidth) (inhabited : low < high)
    (source : σ) :
    (drawing.one width low high source).Ensures drawing.Stalls fun drawn =>
      low ≤ drawn.1 ∧ drawn.1 < high := by
  unfold Drawing.one
  rw [if_pos inhabited]
  cases drawn : drawing width low high source with
  | none => exact ⟨width, low, high, source, inhabited, drawn⟩
  | some found => exact inside width low high source found.1 found.2 inhabited drawn

/-- As many numbers are drawn as are wanted, all of them from the interval. -/
theorem Inside.many (inside : drawing.Inside) (width : DrawWidth) (inhabited : low < high)
    (count : Nat) (source : σ) :
    (drawing.many width low high count source).Ensures drawing.Stalls fun drawn =>
      drawn.1.length = count ∧ ∀ number ∈ drawn.1, low ≤ number ∧ number < high := by
  induction count generalizing source with
  | zero => exact ⟨rfl, fun _ member => absurd member List.not_mem_nil⟩
  | succ count inductionHypothesis =>
    refine (inside.one width inhabited source).andThen fun first within => ?_
    refine (inductionHypothesis first.2).andThen fun others drawn => ?_
    exact ⟨congrArg Nat.succ drawn.1, List.forall_mem_cons.mpr ⟨within, drawn.2⟩⟩

section Words

variable [WordSource σ]

/-- A draw from words comes to its end. -/
theorem one_ofWords (width : DrawWidth) (inhabited : low < high) (source : σ) :
    Drawing.one ofWords width low high source = .done (Draw.between width low high source) := by
  unfold Drawing.one
  rw [if_pos inhabited]
  rfl

/-- Numbers drawn from words one after the other are many draws from words. -/
theorem many_ofWords (width : DrawWidth) (inhabited : low < high) (count : Nat) (source : σ) :
    Drawing.many ofWords width low high count source =
      .done (Draw.many (Draw.between width low high) count source) := by
  induction count generalizing source with
  | zero => rfl
  | succ count inductionHypothesis =>
    rw [Drawing.many, one_ofWords width inhabited, Draw.many_succ]
    simp only [Attempt.andThen, inductionHypothesis]

end Words

end Drawing

namespace Sample

variable {σ : Type} {value : Nat}

/-- Take each number away from the one behind it. It must not be the larger one. -/
def takeApart : List Nat → Attempt (List Nat)
  | first :: second :: rest =>
    if first ≤ second then
      (takeApart (second :: rest)).andThen fun parts => .done ((second - first) :: parts)
    else .shortage second first
  | _ => .done []

/-- The ends of the interval from zero to the value, with the cuts among them, ascending. How
many cuts are wanted is drawn in any case; without cuts there is nothing to sort. -/
def drawMarks (drawing : Drawing σ) (value : Nat) (source : σ) : Attempt (List Nat × σ) :=
  (drawing.one .bits32 0 10 source).andThen fun wanted =>
    if 1 < value ∧ 0 < wanted.1 then
      (drawing.many .bits128 1 value (wanted.1 + 1) wanted.2).andThen fun cuts =>
        .done (([0, value] ++ cuts.1).mergeSort, cuts.2)
    else .done ([0, value], wanted.2)

/-- Split a value by any way of drawing. -/
def splitBy (drawing : Drawing σ) (value : Nat) (source : σ) : Attempt (List Nat × σ) :=
  (drawMarks drawing value source).andThen fun marks =>
    (takeApart marks.1).andThen fun parts => .done (parts, marks.2)

/-- Several parts: three to eleven, neither the first nor the last being zero. -/
structure Several (parts : List Nat) : Prop where
  /-- There are at least three. -/
  least : 3 ≤ parts.length
  /-- There are at most eleven. -/
  most : parts.length ≤ 11
  /-- The first is not zero. -/
  first : ∃ first, parts.head? = some first ∧ 1 ≤ first
  /-- The last is not zero. -/
  last : ∃ last, parts.getLast? = some last ∧ 1 ≤ last

/-- The parts make up the value. -/
structure Lossless (value : Nat) (parts : List Nat) : Prop where
  /-- The parts add up to the value. -/
  total : parts.sum = value
  /-- On the way to the value no sum is beyond 128 bits. -/
  bounded : ∀ count, (parts.take count).sum < DrawWidth.bits128.capacity
  /-- The value is left whole or there are several parts. -/
  whole_or_several : parts = [value] ∨ Several parts

/-- What may be drawn as cuts of the value: none, or two to ten numbers strictly inside. -/
def Cuts (value : Nat) (cuts : List Nat) : Prop :=
  cuts = [] ∨ 2 ≤ cuts.length ∧ cuts.length ≤ 10 ∧ ∀ cut ∈ cuts, 1 ≤ cut ∧ cut < value

/-- Cuts are not beyond the value. -/
theorem Cuts.le {cuts : List Nat} (drawn : Cuts value cuts) : ∀ cut ∈ cuts, cut ≤ value := by
  intro cut member
  cases drawn with
  | inl uncut =>
    rw [uncut] at member
    cases member
  | inr several => exact Nat.le_of_lt (several.2.2 cut member).2

/-- Zero, sorted numbers that are not beyond the value, and the value ascend. -/
theorem pairwise_ends {cuts : List Nat} (within : ∀ cut ∈ cuts, cut ≤ value) :
    (0 :: (cuts.mergeSort ++ [value])).Pairwise (· ≤ ·) := by
  refine List.pairwise_cons.mpr ⟨fun number _ => Nat.zero_le number, ?_⟩
  refine List.pairwise_append.mpr ⟨List.pairwise_mergeSort' _ cuts, List.pairwise_singleton _ _, ?_⟩
  intro cut member last isValue
  rw [List.mem_singleton.mp isValue]
  exact within cut (List.mem_mergeSort.mp member)

/-- The marks ascend. -/
theorem pairwise_marks (value : Nat) (cuts : List Nat) : (marks value cuts).Pairwise (· ≤ ·) :=
  List.pairwise_mergeSort' _ _

/-- Sorting puts zero in front of the cuts and the value behind them, in whatever order and
however often the cuts were drawn. Numbers have only one ascending arrangement. -/
theorem marks_eq {cuts : List Nat} (within : ∀ cut ∈ cuts, cut ≤ value) :
    marks value cuts = 0 :: (cuts.mergeSort ++ [value]) := by
  have drawn : (marks value cuts).Perm (0 :: value :: cuts) := List.mergeSort_perm _ _
  have arranged : (cuts.mergeSort ++ [value]).Perm (value :: cuts) :=
    ((List.mergeSort_perm cuts _).append_right [value]).trans (List.perm_append_singleton value cuts)
  exact (drawn.trans (arranged.cons 0).symm).eq_of_pairwise (fun _ _ _ _ => Nat.le_antisymm)
    (pairwise_marks value cuts) (pairwise_ends within)

/-- Without cuts the ends are the marks as they stand. -/
theorem marks_nil (value : Nat) : marks value [] = [0, value] := by
  rw [marks_eq fun _ member => absurd member List.not_mem_nil, List.mergeSort_nil]
  rfl

/-- Of ascending numbers each is taken away from the one behind it. -/
theorem takeApart_eq {numbers : List Nat} (ascending : numbers.Pairwise (· ≤ ·)) :
    takeApart numbers = .done (distances numbers) := by
  fun_induction distances numbers with
  | case1 first second rest inductionHypothesis =>
    obtain ⟨least, others⟩ := List.pairwise_cons.mp ascending
    rw [takeApart, if_pos (least second List.mem_cons_self), inductionHypothesis others]
    rfl
  | case2 numbers short =>
    rw [takeApart]
    exact short

/-- There is one distance less than there are numbers. -/
theorem length_distances (first : Nat) (rest : List Nat) :
    (distances (first :: rest)).length = rest.length := by
  induction rest generalizing first with
  | nil => rfl
  | cons second rest inductionHypothesis =>
    simp only [distances, List.length_cons, inductionHypothesis]

/-- The distances of ascending numbers add up to the distance of the last from the first. -/
theorem sum_distances {first last : Nat} {between : List Nat}
    (ascending : (first :: (between ++ [last])).Pairwise (· ≤ ·)) :
    first + (distances (first :: (between ++ [last]))).sum = last := by
  induction between generalizing first with
  | nil =>
    have least : first ≤ last := (List.pairwise_cons.mp ascending).1 last List.mem_cons_self
    simp only [List.nil_append, distances, List.sum_cons, List.sum_nil]
    omega
  | cons second between inductionHypothesis =>
    obtain ⟨least, others⟩ := List.pairwise_cons.mp ascending
    have step : first ≤ second := least second List.mem_cons_self
    have rest := inductionHypothesis others
    simp only [List.cons_append, distances, List.sum_cons] at rest ⊢
    omega

/-- The last distance is that of the last two numbers. -/
theorem getLast?_distances (front : List Nat) (before last : Nat) :
    (distances (front ++ [before, last])).getLast? = some (last - before) := by
  induction front with
  | nil => rfl
  | cons first front inductionHypothesis =>
    cases front with
    | nil => rfl
    | cons second front =>
      simp only [List.cons_append, distances] at inductionHypothesis ⊢
      rw [List.getLast?_cons, inductionHypothesis]
      rfl

/-- Two to ten cuts strictly inside leave several parts: there is a distance in front of the
first cut and one behind the last, and neither is zero. -/
theorem several_parts {cuts : List Nat} (counted : 2 ≤ cuts.length ∧ cuts.length ≤ 10)
    (inside : ∀ cut ∈ cuts, 1 ≤ cut ∧ cut < value) : Several (distances (marks value cuts)) := by
  have within : ∀ cut ∈ cuts, cut ≤ value := fun cut member => Nat.le_of_lt (inside cut member).2
  have length : (distances (marks value cuts)).length = cuts.length + 1 := by
    rw [marks_eq within, length_distances, List.length_append, List.length_mergeSort]
    rfl
  have inhabited : cuts.mergeSort ≠ [] := by
    intro nothing
    have empty : cuts.length = 0 := by rw [← List.length_mergeSort, nothing, List.length_nil]
    omega
  refine ⟨by omega, by omega, ?_, ?_⟩
  · obtain ⟨least, others, sorted⟩ := List.exists_cons_of_ne_nil inhabited
    have member : least ∈ cuts := List.mem_mergeSort.mp (sorted ▸ List.mem_cons_self)
    refine ⟨least, ?_, (inside least member).1⟩
    rw [marks_eq within, sorted]
    rfl
  · obtain ⟨others, greatest, sorted⟩ :
        ∃ others greatest, cuts.mergeSort = others ++ [greatest] :=
      ⟨_, _, (List.dropLast_append_getLast inhabited).symm⟩
    have member : greatest ∈ cuts :=
      List.mem_mergeSort.mp (sorted ▸ List.mem_append_right others List.mem_cons_self)
    refine ⟨value - greatest, ?_, Nat.sub_pos_of_lt (inside greatest member).2⟩
    rw [marks_eq within, sorted, List.append_assoc]
    exact getLast?_distances (0 :: others) greatest value

/-- Distances between the marks of drawn cuts make up the value. -/
theorem Cuts.lossless {cuts : List Nat} (drawn : Cuts value cuts)
    (bound : value < DrawWidth.bits128.capacity) :
    Lossless value (distances (marks value cuts)) := by
  have total : (distances (marks value cuts)).sum = value := by
    rw [marks_eq drawn.le]
    simpa only [Nat.zero_add] using sum_distances (pairwise_ends drawn.le)
  refine ⟨total, ?_, ?_⟩
  · intro count
    have parted := congrArg List.sum (List.take_append_drop count (distances (marks value cuts)))
    rw [List.sum_append, total] at parted
    omega
  · cases drawn with
    | inl uncut =>
      rw [uncut, marks_nil]
      exact .inl rfl
    | inr several => exact .inr (several_parts ⟨several.1, several.2.1⟩ several.2.2)

/-- Whatever is drawn, what is taken apart are the marks of cuts. -/
theorem drawMarks_ensures {drawing : Drawing σ} (inside : drawing.Inside) (value : Nat)
    (source : σ) :
    (drawMarks drawing value source).Ensures drawing.Stalls fun drawn =>
      ∃ cuts, Cuts value cuts ∧ drawn.1 = marks value cuts := by
  refine (inside.one .bits32 (by decide) source).andThen fun wanted bounds => ?_
  split
  · rename_i several
    refine (inside.many .bits128 several.1 (wanted.1 + 1) wanted.2).andThen fun cuts drawn => ?_
    exact ⟨cuts.1, .inr ⟨by omega, by omega, drawn.2⟩, rfl⟩
  · exact ⟨[], .inl rfl, (marks_nil value).symm⟩

section Words

variable [WordSource σ]

/-- Cuts drawn from words are the cuts of a split. -/
theorem drawMarks_ofWords (value : Nat) (source : σ) :
    drawMarks .ofWords value source =
      .done (marks value (cuts value source).1, (cuts value source).2) := by
  unfold drawMarks cuts
  rw [Drawing.one_ofWords .bits32 (by decide)]
  simp only [Attempt.andThen]
  split
  · rename_i several
    rw [Drawing.many_ofWords .bits128 several.1]
    rfl
  · rw [marks_nil]

/-- What is told of drawing from words is what splitting by words does. -/
theorem splitBy_ofWords (value : Nat) (source : σ) :
    splitBy .ofWords value source = .done (split value source) := by
  unfold splitBy
  rw [drawMarks_ofWords]
  simp only [Attempt.andThen, takeApart_eq (pairwise_marks _ _), split]

end Words

/-- Splitting loses nothing, for every value of 128 bits and whatever is drawn. By any way of
drawing that keeps to its intervals a split is never broken off: every interval drawn from holds
a number, and no number is taken away from a smaller one. It goes on without an end only if a
draw does, and what it comes to are parts that make up the value. Drawing from words keeps to
its intervals, and what it comes to are the parts of `split`. That it comes to an end is due to
the bound that this library sets to rejections in `Draw.settle`; drawing as such has none.

Proof: what is taken apart are the marks of cuts strictly inside, or of none. Sorted, they begin
with zero, end with the value and ascend, so their distances add up to the value. -/
theorem split_lossless (value : Nat) (bound : value < DrawWidth.bits128.capacity) :
    (∀ {σ : Type} {drawing : Drawing σ}, drawing.Inside → ∀ source : σ,
      (splitBy drawing value source).Ensures drawing.Stalls fun drawn => Lossless value drawn.1) ∧
    ∀ {σ : Type} [WordSource σ] (source : σ),
      splitBy .ofWords value source = .done (split value source) ∧
        Lossless value (split value source).1 := by
  have anyDrawing : ∀ {σ : Type} {drawing : Drawing σ}, drawing.Inside → ∀ source : σ,
      (splitBy drawing value source).Ensures drawing.Stalls
        fun drawn => Lossless value drawn.1 := by
    intro σ drawing inside source
    refine (drawMarks_ensures inside value source).andThen fun drawn told => ?_
    obtain ⟨cuts, chosen, marked⟩ := told
    rw [marked, takeApart_eq (pairwise_marks value cuts)]
    exact chosen.lossless bound
  refine ⟨anyDrawing, fun source => ⟨splitBy_ofWords value source, ?_⟩⟩
  have ensured := anyDrawing Drawing.inside_ofWords source
  rw [splitBy_ofWords] at ensured
  exact ensured

/-- Splitting ten: with numbers prepared beforehand, and with the words of a generator. -/
theorem split_lossless_ten :
    10 < DrawWidth.bits128.capacity ∧ Drawing.prepared.Inside ∧
      (splitBy .prepared 10 [1, 6, 2]).Ensures Drawing.prepared.Stalls
        (fun drawn => Lossless 10 drawn.1) ∧
      splitBy .prepared 10 [1, 6, 2] = .done ([3, 4, 3], []) ∧
      Lossless 10 (split 10 (Generator.ofSeed ⟨7⟩)).1 := by
  have bound : 10 < DrawWidth.bits128.capacity := by decide
  have sorted : marks 10 [7, 3] = [0, 3, 7, 10] := by
    have drawn : (marks 10 [7, 3]).Perm [0, 10, 7, 3] := List.mergeSort_perm _ _
    exact (drawn.trans (by decide)).eq_of_pairwise (fun _ _ _ _ => Nat.le_antisymm)
      (pairwise_marks 10 [7, 3]) (by decide)
  refine ⟨bound, Drawing.inside_prepared, (split_lossless 10 bound).1 Drawing.inside_prepared _, ?_,
    ((split_lossless 10 bound).2 (Generator.ofSeed ⟨7⟩)).2⟩
  have drawn : drawMarks .prepared 10 [1, 6, 2] = .done (marks 10 [7, 3], []) := rfl
  rw [splitBy, drawn, sorted]
  rfl

end Sample

end CoinScript
