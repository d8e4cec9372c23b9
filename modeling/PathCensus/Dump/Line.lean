import PathCensus.Dump.Payload

/-!
# Lines of a dump

A line has one bar and one space per level of depth, then the label, a space and the value. A line
of white space says nothing.
-/

namespace PathCensus.Dump

/-- The text of one level of depth. -/
def indentUnit : String := "| "

/-- What is wrong with a line. -/
inductive LineFault where
  /-- White space or a bar stands where the label should start. -/
  | indentation
  /-- There is no label. -/
  | noLabel
  /-- The value is refused. -/
  | value (fault : CountsFault)
  deriving DecidableEq, Repr

/-- The wording of a fault. -/
def LineFault.message : LineFault → String
  | .indentation => "indentation is not a whole number of " ++ Text.quote indentUnit ++ " units"
  | .noLabel => "missing label"
  | .value fault => fault.message

/-- What a line says. -/
structure Entry (V : Type) where
  /-- The number of the line. -/
  line : Nat
  /-- The depth of the node. -/
  depth : Nat
  /-- The label of the node. -/
  label : String
  /-- The value of the node. -/
  value : V
  deriving DecidableEq

/-- The whole units of indentation and what follows them. -/
def splitIndent : List Char → Nat × List Char
  | '|' :: ' ' :: rest =>
    let (depth, body) := splitIndent rest
    (depth + 1, body)
  | body => (0, body)

/-- A character that cannot start a label. -/
def isMisplaced (c : Char) : Bool :=
  c = '|' || Text.isBlank c

variable {V : Type} [Payload V]

/-- Read a line that is not blank, with its number. -/
def readEntry (line : Nat) (text : List Char) : Except LineFault (Entry V) :=
  let (depth, body) := splitIndent text
  if body.head?.any isMisplaced then .error .indentation
  else
    match body.takeWhile (· ≠ ' ') with
    | [] => .error .noLabel
    | label =>
      match Payload.read (body.dropWhile (· ≠ ' ')).tail with
      | .error fault => .error (.value fault)
      | .ok value => .ok ⟨line, depth, String.ofList label, value⟩

/-- Read a line with its number; a blank line says nothing. -/
def readLine (line : Nat) (text : List Char) : Except LineFault (Option (Entry V)) :=
  if text.all Text.isBlank then .ok none else (readEntry line text).map some

end PathCensus.Dump
