import PathCensus.Activation.Basic

/-!
# What an activation depends on

An activation looks at the counts of the paths that it mentions and at the sum of all counts. The
greatest path that it mentions is reported if there is one, so validation passes exactly if every
path that is mentioned is there. Two vectors that agree up to this path and in their sums cannot be
told apart; a path beyond the end of a vector counts 0, so zeros behind it change nothing.
-/

namespace PathCensus

namespace Activation

/-- The path is a side of a comparison in the activation. -/
def Mentions : Activation → Nat → Prop
  | .comparison left _ right, i => left = .count i ∨ right = .count i
  | .negation inner, i => inner.Mentions i
  | .conjunction left right, i => left.Mentions i ∨ right.Mentions i
  | .disjunction left right, i => left.Mentions i ∨ right.Mentions i
  | .constant _, _ => False

/-! ## The greatest path -/

/-- The greatest number with a property, missing if no number has it. -/
inductive Greatest (P : Nat → Prop) : Option Nat → Prop where
  /-- No number has the property. -/
  | absent : (∀ i, ¬P i) → Greatest P none
  /-- The number has the property, and no greater one has it. -/
  | attained {m : Nat} : P m → (∀ i, P i → i ≤ m) → Greatest P (some m)

namespace Greatest

variable {P Q : Nat → Prop} {a b : Option Nat}

/-- The property is all that matters. -/
theorem congr (h : Greatest P a) (hiff : ∀ i, P i ↔ Q i) : Greatest Q a := by
  have he : P = Q := funext fun i => propext (hiff i)
  rwa [← he]

/-- The greater of two is the greatest with either property. -/
theorem greater? (ha : Greatest P a) (hb : Greatest Q b) :
    Greatest (fun i => P i ∨ Q i) (Activation.greater? a b) := by
  cases ha with
  | absent hnone => exact hb.congr fun i => (or_iff_right (hnone i)).symm
  | @attained m hm hle =>
    cases hb with
    | absent hnone =>
      exact (Greatest.attained hm hle).congr fun i => (or_iff_left (hnone i)).symm
    | @attained n hn hle' =>
      refine .attained ?_ ?_
      · rcases Nat.le_total m n with hmn | hnm
        · rw [Nat.max_eq_right hmn]
          exact .inr hn
        · rw [Nat.max_eq_left hnm]
          exact .inl hm
      · rintro i (hi | hi)
        · exact Nat.le_trans (hle i hi) (Nat.le_max_left m n)
        · exact Nat.le_trans (hle' i hi) (Nat.le_max_right m n)

/-- The entry is a number exactly if this is the greatest one. -/
theorem eq_some_iff (h : Greatest P a) {m : Nat} : a = some m ↔ P m ∧ ∀ i, P i → i ≤ m := by
  cases h with
  | absent hnone =>
    constructor
    · nofun
    · rintro ⟨hm, -⟩
      exact absurd hm (hnone m)
  | @attained n hn hle =>
    rw [Option.some.injEq]
    constructor
    · rintro rfl
      exact ⟨hn, hle⟩
    · rintro ⟨hm, hle'⟩
      exact Nat.le_antisymm (hle' n hn) (hle m hm)

end Greatest

/-- The path of an operand is the only one that it is. -/
theorem greatest_index? (operand : Operand) :
    Greatest (fun i => operand = .count i) operand.index? := by
  cases operand with
  | count index =>
    refine .attained rfl fun i hi => ?_
    injection hi with hi
    exact Nat.le_of_eq hi.symm
  | sum => exact .absent nofun
  | literal value => exact .absent nofun

/-- The greatest path is found by going through the activation. -/
theorem greatest_maxIndex? (activation : Activation) :
    Greatest activation.Mentions activation.maxIndex? := by
  induction activation with
  | comparison left relation right => exact (greatest_index? left).greater? (greatest_index? right)
  | negation inner ih => exact ih
  | conjunction left right ihl ihr => exact ihl.greater? ihr
  | disjunction left right ihl ihr => exact ihl.greater? ihr
  | constant value => exact .absent fun _ h => h

/-- Validation passes exactly if all paths that are mentioned are there. -/
theorem validate_eq_ok_iff (activation : Activation) {n : Nat} :
    activation.validate n = .ok () ↔ ∀ i, activation.Mentions i → i < n := by
  have h := activation.greatest_maxIndex?
  rw [validate]
  cases hmax : activation.maxIndex? with
  | none =>
    rw [hmax] at h
    cases h with
    | absent hnone => exact iff_of_true rfl fun i hi => absurd hi (hnone i)
  | some m =>
    rw [hmax] at h
    cases h with
    | attained hm hle =>
      by_cases hlt : m < n
      · refine iff_of_true (if_pos hlt) fun i hi => ?_
        exact Nat.lt_of_le_of_lt (hle i hi) hlt
      · refine iff_of_false ?_ fun hall => hlt (hall m hm)
        simp only [if_neg hlt, reduceCtorEq, not_false_eq_true]

/-- Validation reports the greatest path if it is missing. -/
theorem validate_eq_error_iff (activation : Activation) {n : Nat} {beyond : IndexBeyond} :
    activation.validate n = .error beyond ↔
      activation.maxIndex? = some beyond.index ∧ n ≤ beyond.index ∧ beyond.pathCount = n := by
  obtain ⟨index, pathCount⟩ := beyond
  rw [validate]
  cases activation.maxIndex? with
  | none => simp only [reduceCtorEq, false_and]
  | some m =>
    by_cases hlt : m < n
    · simp only [if_pos hlt, reduceCtorEq, Option.some.injEq, false_iff]
      rintro ⟨rfl, hle, -⟩
      exact Nat.not_le_of_lt hlt hle
    · simp only [if_neg hlt, Except.error.injEq, IndexBeyond.mk.injEq, Option.some.injEq]
      constructor
      · rintro ⟨rfl, rfl⟩
        exact ⟨rfl, Nat.le_of_not_lt hlt, rfl⟩
      · rintro ⟨rfl, -, rfl⟩
        exact ⟨rfl, rfl⟩

/-! ## Evaluation -/

/-- An operand depends on the count of its path and on the sum. -/
theorem value_eq_of_agree {first second : List Nat} (hsum : sumBy id first = sumBy id second)
    {operand : Operand}
    (h : ∀ i, operand = .count i → first[i]?.getD 0 = second[i]?.getD 0) :
    operand.value first = operand.value second := by
  cases operand with
  | count index => exact h index rfl
  | sum => exact hsum
  | literal value => rfl

/-- An activation depends on the counts of the paths that it mentions and on the sum. -/
theorem eval_eq_of_agree {first second : List Nat} (hsum : sumBy id first = sumBy id second)
    {activation : Activation}
    (h : ∀ i, activation.Mentions i → first[i]?.getD 0 = second[i]?.getD 0) :
    activation.eval first = activation.eval second := by
  induction activation with
  | comparison left relation right =>
    rw [eval, eval, value_eq_of_agree hsum fun i hi => h i (.inl hi),
      value_eq_of_agree hsum fun i hi => h i (.inr hi)]
  | negation inner ih => rw [eval, eval, ih h]
  | conjunction left right ihl ihr =>
    rw [eval, eval, ihl fun i hi => h i (.inl hi), ihr fun i hi => h i (.inr hi)]
  | disjunction left right ihl ihr =>
    rw [eval, eval, ihl fun i hi => h i (.inl hi), ihr fun i hi => h i (.inr hi)]
  | constant value => rfl

/-- Zeros at the end are not seen. -/
theorem eval_append_zeros (activation : Activation) (counts : List Nat) (k : Nat) :
    activation.eval (counts ++ List.replicate k 0) = activation.eval counts := by
  apply eval_eq_of_agree
  · have hzeros : sumBy id (List.replicate k 0) = 0 :=
      sumBy_eq_zero fun count hcount => List.eq_of_mem_replicate hcount
    rw [sumBy_append, hzeros, Nat.add_zero]
  · intro i _
    by_cases hi : i < counts.length
    · rw [List.getElem?_append_left hi]
    · have hle := Nat.le_of_not_lt hi
      rw [List.getElem?_append_right hle, List.getElem?_eq_none hle, List.getElem?_replicate]
      split <;> rfl

/-- The greatest path of an activation is the greatest one that it mentions, and is missing if it
mentions none. Validation against a number of paths passes exactly if every path that is mentioned is
among them, and otherwise reports the greatest. Zeros behind a vector change nothing. Two vectors
whose sums are equal and which agree up to the greatest path give the same; beyond its end a vector
reads as 0. -/
theorem validation_exact (activation : Activation) :
    (∀ m, activation.maxIndex? = some m ↔
        activation.Mentions m ∧ ∀ i, activation.Mentions i → i ≤ m) ∧
      (∀ n, activation.validate n = .ok () ↔ ∀ i, activation.Mentions i → i < n) ∧
      (∀ n beyond, activation.validate n = .error beyond ↔
        (activation.Mentions beyond.index ∧ ∀ i, activation.Mentions i → i ≤ beyond.index) ∧
          n ≤ beyond.index ∧ beyond.pathCount = n) ∧
      (∀ counts k, activation.eval (counts ++ List.replicate k 0) = activation.eval counts) ∧
      ∀ first second, sumBy id first = sumBy id second →
        (∀ m, activation.maxIndex? = some m → ∀ i ≤ m, first[i]?.getD 0 = second[i]?.getD 0) →
        activation.eval first = activation.eval second := by
  have hgreatest := activation.greatest_maxIndex?
  refine ⟨fun m => hgreatest.eq_some_iff, fun n => activation.validate_eq_ok_iff,
    fun n beyond => ?_, activation.eval_append_zeros, fun first second hsum hagree => ?_⟩
  · rw [validate_eq_error_iff, hgreatest.eq_some_iff]
  · apply eval_eq_of_agree
    · exact hsum
    · intro i hi
      cases hmax : activation.maxIndex? with
      | none =>
        rw [hmax] at hgreatest
        cases hgreatest with
        | absent hnone => exact absurd hi (hnone i)
      | some m => exact hagree m hmax i ((hgreatest.eq_some_iff.1 hmax).2 i hi)

/-- The second path counts something, and all paths together count seven. -/
def secondOfSeven : Activation :=
  .conjunction (.comparison (.count 1) .greater (.literal 0))
    (.comparison .sum .equal (.literal 7))

/-- One path is too few. Behind the second path it does not matter what makes up the sum. -/
theorem validation_exact_split_sum :
    secondOfSeven.validate 1 = .error ⟨1, 1⟩ ∧
      sumBy id [0, 3, 4] = sumBy id [0, 3, 1, 2, 1] ∧
      secondOfSeven.eval [0, 3, 4] = secondOfSeven.eval [0, 3, 1, 2, 1] := by
  obtain ⟨hmax, -, hvalidate, -, hagree⟩ := validation_exact secondOfSeven
  have hone : secondOfSeven.maxIndex? = some 1 := rfl
  refine ⟨(hvalidate 1 ⟨1, 1⟩).2 ⟨(hmax 1).1 hone, Nat.le_refl 1, rfl⟩, rfl, ?_⟩
  refine hagree [0, 3, 4] [0, 3, 1, 2, 1] rfl fun m hm i hi => ?_
  obtain rfl : 1 = m := Option.some.inj (hone.symm.trans hm)
  have hcases : i = 0 ∨ i = 1 := by omega
  rcases hcases with rfl | rfl <;> rfl

end Activation

end PathCensus
