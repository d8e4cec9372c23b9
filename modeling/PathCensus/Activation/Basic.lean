import PathCensus.Sum

/-!
# Activations

Conditions on a vector of counts: comparisons of two operands, joined by not, and, or. An operand is
the count of a path, the sum of all counts, or a number.
-/

namespace PathCensus

/-- How two numbers are compared. -/
inductive Comparison where
  /-- Both are the same. -/
  | equal
  /-- They differ. -/
  | notEqual
  /-- The left one is greater. -/
  | greater
  /-- The left one is not less. -/
  | greaterOrEqual
  /-- The left one is less. -/
  | less
  /-- The left one is not greater. -/
  | lessOrEqual
  deriving DecidableEq, Repr

/-- Compare two numbers. -/
def Comparison.holds : Comparison → Nat → Nat → Bool
  | .equal, a, b => a == b
  | .notEqual, a, b => a != b
  | .greater, a, b => b < a
  | .greaterOrEqual, a, b => b ≤ a
  | .less, a, b => a < b
  | .lessOrEqual, a, b => a ≤ b

/-- A side of a comparison. -/
inductive Operand where
  /-- The count of the path with a number. -/
  | count (index : Nat)
  /-- The sum of all counts. -/
  | sum
  /-- A number. -/
  | literal (value : Nat)
  deriving DecidableEq, Repr

namespace Operand

/-- The number that an operand stands for; a path beyond the vector counts 0. -/
def value (counts : List Nat) : Operand → Nat
  | .count index => counts[index]?.getD 0
  | .sum => sumBy id counts
  | .literal value => value

/-- The path that an operand refers to. -/
def index? : Operand → Option Nat
  | .count index => some index
  | _ => none

end Operand

/-- A condition on a vector of counts. -/
inductive Activation where
  /-- Two operands compare. -/
  | comparison (left : Operand) (relation : Comparison) (right : Operand)
  /-- The condition fails. -/
  | negation (inner : Activation)
  /-- Both conditions hold. -/
  | conjunction (left right : Activation)
  /-- One of the conditions holds. -/
  | disjunction (left right : Activation)
  /-- Always or never. -/
  | constant (value : Bool)
  deriving DecidableEq, Repr

/-- An activation refers to a path that a query does not have. -/
structure IndexBeyond where
  /-- The number of the path. -/
  index : Nat
  /-- The number of paths of the query. -/
  pathCount : Nat
  deriving DecidableEq, Repr

/-- The wording of a refusal. -/
def IndexBeyond.message (beyond : IndexBeyond) : String :=
  "Activation refers to x" ++ beyond.index.repr ++ " but the query has " ++
    beyond.pathCount.repr ++ " paths"

namespace Activation

/-- The condition holds of a vector of counts. -/
def eval (counts : List Nat) : Activation → Bool
  | .comparison left relation right => relation.holds (left.value counts) (right.value counts)
  | .negation inner => !inner.eval counts
  | .conjunction left right => left.eval counts && right.eval counts
  | .disjunction left right => left.eval counts || right.eval counts
  | .constant value => value

/-- The greater of two numbers, either of which may be missing. -/
def greater? : Option Nat → Option Nat → Option Nat
  | none, b => b
  | a, none => a
  | some a, some b => some (max a b)

/-- The greatest number of a path that the activation refers to. -/
def maxIndex? : Activation → Option Nat
  | .comparison left _ right => greater? left.index? right.index?
  | .negation inner => inner.maxIndex?
  | .conjunction left right => greater? left.maxIndex? right.maxIndex?
  | .disjunction left right => greater? left.maxIndex? right.maxIndex?
  | .constant _ => none

/-- Check that all paths referred to are among the first `pathCount`. -/
def validate (activation : Activation) (pathCount : Nat) : Except IndexBeyond Unit :=
  match activation.maxIndex? with
  | some index => if index < pathCount then .ok () else .error ⟨index, pathCount⟩
  | none => .ok ()

end Activation

end PathCensus
