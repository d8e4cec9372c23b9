import PathCensus.Activation.Basic
import PathCensus.Text.Alphanumeric
import PathCensus.Text.Blank
import PathCensus.Text.Numeral
import PathCensus.Text.Quoted

/-!
# Reading activations

`or := and ("||" and)*`, `and := unary ("&&" unary)*`, and
`unary := "!" unary | "(" or ")" | "true" | "false" | operand comparison operand`. White space may
stand anywhere between these words. A reader takes what it needs from the front of a text and
leaves the rest; a refusal keeps the text from the place on where it arose.
-/

namespace PathCensus

/-- What is wrong with the text of an activation. -/
inductive SyntaxFault where
  /-- The text goes on where it should end. -/
  | unexpected (c : Char)
  /-- A parenthesis is not closed. -/
  | noClosing
  /-- No path number follows an x. -/
  | noIndex
  /-- There is no operand. -/
  | noOperand
  /-- A number is refused. -/
  | badNumber (digits : String) (fault : Text.NumeralFault)
  /-- There is no comparison. -/
  | noComparison
  deriving DecidableEq, Repr

/-- The wording of a fault. -/
def SyntaxFault.message : SyntaxFault → String
  | .unexpected c => "unexpected '" ++ c.toString ++ "'"
  | .noClosing => "expected ')'"
  | .noIndex => "expected a path index after 'x'"
  | .noOperand => "expected an operand (x<index>, sum or a number)"
  | .badNumber digits fault => "bad number " ++ Text.quote digits ++ ": " ++ fault.message
  | .noComparison => "expected a comparison operator"

/-- A fault, and how many bytes of the text stand before it. -/
structure SyntaxError where
  /-- The number of bytes before the fault. -/
  offset : Nat
  /-- What is wrong. -/
  fault : SyntaxFault
  deriving DecidableEq, Repr

/-- The wording of a refusal. -/
def SyntaxError.message (error : SyntaxError) : String :=
  "Invalid activation at offset " ++ error.offset.repr ++ ": " ++ error.fault.message

namespace Activation

/-- A fault, and the text from the place of the fault on. -/
structure Refusal where
  /-- The text that is left. -/
  rest : List Char
  /-- What is wrong. -/
  fault : SyntaxFault
  deriving DecidableEq, Repr

/-- Takes something from the front of a text and leaves the rest. -/
abbrev Reader (α : Type) := List Char → Except Refusal (α × List Char)

/-- The text without white space in front. -/
abbrev skip : List Char → List Char := Text.trimStart

/-- The rest of a text that starts with a sign. -/
def eat? : List Char → List Char → Option (List Char)
  | [], text => some text
  | _ :: _, [] => none
  | c :: sign, d :: text => if c = d then eat? sign text else none

/-- A character that can go on a word. -/
def goesOn (c : Char) : Bool :=
  Text.isAlphanumeric c || c = '_'

/-- The rest of a text that starts with a word and does not go on with it. -/
def eatWord? (word text : List Char) : Option (List Char) :=
  match eat? word text with
  | none => none
  | some rest => if rest.head?.any goesOn then none else some rest

/-- Read the path number behind an x; a refusal is placed at `start`. -/
def readIndex (start : List Char) : Reader Operand := fun text =>
  match Text.readNumeral (text.takeWhile Char.isDigit) with
  | .ok index => .ok (.count index, text.dropWhile Char.isDigit)
  | .error _ => .error ⟨start, .noIndex⟩

/-- Read a number; a refusal is placed at its first digit. -/
def readLiteral : Reader Operand := fun text =>
  match text.takeWhile Char.isDigit with
  | [] => .error ⟨text, .noOperand⟩
  | digits =>
    match Text.readNumeral digits with
    | .ok value => .ok (.literal value, text.dropWhile Char.isDigit)
    | .error fault => .error ⟨text, .badNumber (String.ofList digits) fault⟩

/-- Read an operand. -/
def readOperand : Reader Operand := fun text =>
  let start := skip text
  match eatWord? ['s', 'u', 'm'] start with
  | some rest => .ok (.sum, rest)
  | none =>
    match eat? ['x'] start with
    | some rest => readIndex start rest
    | none => readLiteral start

/-- The signs of comparisons, those that begin with another one first. -/
def comparisonSigns : List (List Char × Comparison) :=
  [(['>', '='], .greaterOrEqual), (['<', '='], .lessOrEqual), (['=', '='], .equal),
   (['!', '='], .notEqual), (['>'], .greater), (['<'], .less)]

/-- Read a comparison. -/
def readComparison : Reader Comparison := fun text =>
  let start := skip text
  match comparisonSigns.findSome? fun s => (eat? s.1 start).map fun rest => (s.2, rest) with
  | some found => .ok found
  | none => .error ⟨start, .noComparison⟩

/-- Read two operands and the comparison between them. -/
def readCompared : Reader Activation := fun text =>
  match readOperand text with
  | .error refusal => .error refusal
  | .ok (left, rest) =>
    match readComparison rest with
    | .error refusal => .error refusal
    | .ok (relation, rest) =>
      match readOperand rest with
      | .error refusal => .error refusal
      | .ok (right, rest) => .ok (.comparison left relation right, rest)

/-- Read on behind `left` what a sign joins to it, at most `bound` times; the chain leans left. -/
def readChain (sign : List Char) (join : Activation → Activation → Activation)
    (item : Reader Activation) : Nat → Activation → Reader Activation
  | 0, left, text => .ok (left, skip text)
  | bound + 1, left, text =>
    match eat? sign (skip text) with
    | none => .ok (left, skip text)
    | some rest =>
      match item rest with
      | .error refusal => .error refusal
      | .ok (right, rest) => readChain sign join item bound (join left right) rest

/-- Read a chain of items with a sign between them. -/
def readJoined (sign : List Char) (join : Activation → Activation → Activation)
    (item : Reader Activation) : Reader Activation := fun text =>
  match item text with
  | .error refusal => .error refusal
  | .ok (first, rest) => readChain sign join item rest.length first rest

/-- Read a chain of conjunctions of items. -/
def readDisjunction (item : Reader Activation) : Reader Activation :=
  readJoined ['|', '|'] .disjunction (readJoined ['&', '&'] .conjunction item)

/-- Read a condition that is no chain. Each step takes a character, so a `depth` above the length of
the text is enough. -/
def readUnary : Nat → Reader Activation
  | 0, text => .error ⟨skip text, .noOperand⟩
  | depth + 1, text =>
    let start := skip text
    match eat? ['!'] start with
    | some rest =>
      match readUnary depth rest with
      | .error refusal => .error refusal
      | .ok (inner, rest) => .ok (.negation inner, rest)
    | none =>
      match eat? ['('] start with
      | some rest =>
        match readDisjunction (readUnary depth) rest with
        | .error refusal => .error refusal
        | .ok (inner, rest) =>
          match eat? [')'] (skip rest) with
          | some rest => .ok (inner, rest)
          | none => .error ⟨skip rest, .noClosing⟩
      | none =>
        match eatWord? ['t', 'r', 'u', 'e'] start with
        | some rest => .ok (.constant true, rest)
        | none =>
          match eatWord? ['f', 'a', 'l', 's', 'e'] start with
          | some rest => .ok (.constant false, rest)
          | none => readCompared start

/-- Read a whole text. -/
def readAll (text : List Char) : Except Refusal Activation :=
  match readDisjunction (readUnary (text.length + 1)) text with
  | .error refusal => .error refusal
  | .ok (activation, rest) =>
    match skip rest with
    | [] => .ok activation
    | c :: more => .error ⟨c :: more, .unexpected c⟩

/-- The number of bytes of a text. -/
def byteLength (text : List Char) : Nat :=
  sumBy Char.utf8Size text

/-- The activation that a text denotes. -/
def parse (text : String) : Except SyntaxError Activation :=
  match readAll text.toList with
  | .ok activation => .ok activation
  | .error refusal =>
    .error ⟨byteLength text.toList - byteLength refusal.rest, refusal.fault⟩

end Activation

end PathCensus
