import PathCensus.Activation.Basic

/-!
# The text of an activation

Parts of a compound condition stand in parentheses, so the text shows how it is put together.
-/

namespace PathCensus

/-- The sign of a comparison. -/
def Comparison.render : Comparison → String
  | .equal => "=="
  | .notEqual => "!="
  | .greater => ">"
  | .greaterOrEqual => ">="
  | .less => "<"
  | .lessOrEqual => "<="

/-- The text of an operand. -/
def Operand.render : Operand → String
  | .count index => "x" ++ index.repr
  | .sum => "sum"
  | .literal value => value.repr

/-- The text of an activation. -/
def Activation.render : Activation → String
  | .comparison left relation right =>
    left.render ++ " " ++ relation.render ++ " " ++ right.render
  | .negation inner => "!(" ++ inner.render ++ ")"
  | .conjunction left right => "(" ++ left.render ++ ") && (" ++ right.render ++ ")"
  | .disjunction left right => "(" ++ left.render ++ ") || (" ++ right.render ++ ")"
  | .constant true => "true"
  | .constant false => "false"

end PathCensus
