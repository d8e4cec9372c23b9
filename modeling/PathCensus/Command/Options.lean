import PathCensus.Command.Basic
import PathCensus.Text.Numeral

/-!
# Options and operands

Options and operands come in any order. An option is long, behind two hyphens, or a letter behind
one; its value follows an equals sign, or the letter at once, or is the next argument. Behind two
hyphens alone all arguments are operands. Rules say which options there are and how many operands.
-/

namespace PathCensus.Command

/-- What may be the value of an option or an operand. -/
inductive ValueKind where
  /-- Any text. -/
  | text
  /-- A location, which is not empty. -/
  | location
  /-- A number. -/
  | number
  /-- A kind of bounds. -/
  | boundsKind
  deriving DecidableEq, Repr

/-- How an option is used. -/
inductive OptionUse where
  /-- Given at most once and without a value. -/
  | flag
  /-- Given at most once and with a value. -/
  | once (kind : ValueKind)
  /-- Given any number of times, each time with a value. -/
  | many (kind : ValueKind)
  deriving DecidableEq, Repr

/-- An option of a request. -/
structure OptionRule where
  /-- The name behind two hyphens. -/
  long : String
  /-- The letter behind one hyphen. -/
  short : Option Char
  /-- How the option is used. -/
  use : OptionUse
  deriving DecidableEq, Repr

/-- The arguments that a request takes. -/
structure Rules where
  /-- The options. -/
  options : List OptionRule
  /-- How many operands are taken at most, if not any number. -/
  operandLimit : Option Nat
  deriving DecidableEq, Repr

/-- The arguments that were given. -/
structure Given where
  /-- The options by their long names, with their values, the last one first. -/
  options : List (String × String)
  /-- The operands, the last one first. -/
  operands : List String
  deriving DecidableEq, Repr

/-- The kind of bounds with a name. -/
def readBoundsKind? : String → Option BoundsKind
  | "path" => some .path
  | "adjacency" => some .adjacency
  | "edge" => some .edge
  | _ => none

/-- The number of a numeral. -/
def readNumber? (value : String) : Option Nat :=
  (Text.readNumeral value.toList).toOption

/-- The value is of a kind. -/
def ValueKind.accepts : ValueKind → String → Bool
  | .text, _ => true
  | .location, value => !value.isEmpty
  | .number, value => (readNumber? value).isSome
  | .boundsKind, value => (readBoundsKind? value).isSome

namespace Given

/-- No arguments. -/
def empty : Given := ⟨[], []⟩

/-- An option was given. -/
def has (given : Given) (long : String) : Bool :=
  (given.options.lookup long).isSome

/-- The value of an option. -/
def value? (given : Given) (long : String) : Option String :=
  given.options.lookup long

/-- The values of an option in order. -/
def values (given : Given) (long : String) : List String :=
  (given.options.reverse.filter fun o => o.1 = long).map Prod.snd

/-- The operands in order. -/
def inOrder (given : Given) : List String :=
  given.operands.reverse

/-- Take an option without a value. -/
def addFlag (given : Given) (rule : OptionRule) : Except Stop Given :=
  if given.has rule.long then .error .misuse
  else .ok { given with options := (rule.long, "") :: given.options }

/-- Take an option with a value. -/
def addValue (given : Given) (rule : OptionRule) (value : String) : Except Stop Given :=
  let added := { given with options := (rule.long, value) :: given.options }
  match rule.use with
  | .flag => .error .misuse
  | .once kind =>
    if given.has rule.long || !kind.accepts value then .error .misuse else .ok added
  | .many kind => if kind.accepts value then .ok added else .error .misuse

/-- Take an operand. -/
def addOperand (given : Given) (rules : Rules) (operand : String) : Except Stop Given :=
  let added := { given with operands := operand :: given.operands }
  if !ValueKind.location.accepts operand then .error .misuse
  else
    match rules.operandLimit with
    | none => .ok added
    | some limit => if added.operands.length ≤ limit then .ok added else .error .misuse

end Given

/-- An argument that cannot be the value of an option: it starts with a hyphen and is not one
alone. -/
def looksLikeOption (argument : String) : Bool :=
  match argument.toList with
  | '-' :: _ :: _ => true
  | _ => false

/-- The name of a long option and the value behind an equals sign. -/
def splitLong (body : List Char) : String × Option String :=
  (String.ofList (body.takeWhile (· ≠ '=')),
    match body.dropWhile (· ≠ '=') with
    | [] => none
    | _ :: value => some (String.ofList value))

/-- The value that follows a letter at once, if there is one; an equals sign may come first. -/
def attachedValue? : List Char → Option String
  | [] => none
  | '=' :: value => some (String.ofList value)
  | value => some (String.ofList value)

/-- Take all arguments as operands. -/
def takeOperands (rules : Rules) : Given → List String → Except Stop Given
  | given, [] => .ok given
  | given, operand :: rest =>
    match given.addOperand rules operand with
    | .error stop => .error stop
    | .ok given => takeOperands rules given rest

/-- Take an option that needs a value: the one it has, or the next argument, which is then left
out. -/
def takeValued (given : Given) (rule : OptionRule) (attached : Option String)
    (rest : List String) : Except Stop (Given × List String) :=
  match attached, rest with
  | some value, rest => (given.addValue rule value).map fun given => (given, rest)
  | none, [] => .error .misuse
  | none, value :: rest =>
    if looksLikeOption value then .error .misuse
    else (given.addValue rule value).map fun given => (given, rest)

/-- Take an option by its long name. -/
def takeLong (rules : Rules) (given : Given) (body : List Char) (rest : List String) :
    Except Stop (Given × List String) :=
  let (name, attached) := splitLong body
  if name = "help" then .error (if attached.isSome then .misuse else .help)
  else
    match rules.options.find? fun rule => rule.long = name with
    | none => .error .misuse
    | some rule =>
      if rule.use = .flag then
        if attached.isSome then .error .misuse
        else (given.addFlag rule).map fun given => (given, rest)
      else takeValued given rule attached rest

/-- Take an option by its letter. -/
def takeShort (rules : Rules) (given : Given) (letter : Char) (body : List Char)
    (rest : List String) : Except Stop (Given × List String) :=
  if letter = 'h' then .error .help
  else
    match rules.options.find? fun rule => rule.short = some letter with
    | none => .error .misuse
    | some rule => takeValued given rule (attachedValue? body) rest

/-- Take all arguments, `bound` at most. -/
def takeArguments (rules : Rules) : Nat → Given → List String → Except Stop Given
  | 0, given, _ => .ok given
  | _, given, [] => .ok given
  | bound + 1, given, argument :: rest =>
    match argument.toList with
    | ['-', '-'] => takeOperands rules given rest
    | '-' :: '-' :: body =>
      match takeLong rules given body rest with
      | .error stop => .error stop
      | .ok (given, rest) => takeArguments rules bound given rest
    | '-' :: letter :: body =>
      match takeShort rules given letter body rest with
      | .error stop => .error stop
      | .ok (given, rest) => takeArguments rules bound given rest
    | _ =>
      match given.addOperand rules argument with
      | .error stop => .error stop
      | .ok given => takeArguments rules bound given rest

/-- Take all arguments. -/
def take (rules : Rules) (arguments : List String) : Except Stop Given :=
  takeArguments rules arguments.length .empty arguments

end PathCensus.Command
