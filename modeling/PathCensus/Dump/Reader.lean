import PathCensus.Dump.Line
import PathCensus.Text.Utf8
import PathCensus.Tree.Builder

/-!
# Reading dumps

A dump is cut into lines, each line is read for itself, and the entries are built into a tree as
they come. The first thing that is wrong ends the reading.
-/

namespace PathCensus.Dump

/-- Why a dump cannot be read. -/
inductive ReadFault where
  /-- A line is malformed. -/
  | line (number : Nat) (fault : LineFault)
  /-- A line is not UTF-8. -/
  | notUtf8
  /-- A node is too deep below the one before it. -/
  | depth (jump : DepthJump)
  deriving DecidableEq, Repr

/-- The wording of a fault. -/
def ReadFault.message : ReadFault → String
  | .line number fault => "Malformed input on line " ++ number.repr ++ ": " ++ fault.message
  | .notUtf8 => "IO error: stream did not contain valid UTF-8"
  | .depth jump => jump.message

/-- A line as it lies in a dump, `none` if its bytes are not UTF-8. -/
abbrev RawLine := Option (List Char)

/-- The lines of a text. -/
def linesOfText (text : List Char) : List RawLine :=
  (Text.lines '\n' '\r' text).map some

/-- The lines of bytes; each is decoded for itself. -/
def linesOfBytes (bytes : List UInt8) : List RawLine :=
  (Text.lines 10 13 bytes).map Text.decode?

variable {V : Type} [Payload V]

/-- The entries and the faults of lines, in order, after `read` lines were read. A line that is not
UTF-8 has no number. -/
def entries (read : Nat) : List RawLine → List (Except ReadFault (Entry V))
  | [] => []
  | none :: rest => .error .notUtf8 :: entries read rest
  | some text :: rest =>
    match readLine (read + 1) text with
    | .ok none => entries (read + 1) rest
    | .ok (some entry) => .ok entry :: entries (read + 1) rest
    | .error fault => .error (.line (read + 1) fault) :: entries (read + 1) rest

/-- Build entries on, up to the first fault. -/
def build (layout : Layout) :
    Builder V → List (Except ReadFault (Entry V)) → Except ReadFault (Node V)
  | builder, [] => .ok builder.finish
  | _, .error fault :: _ => .error fault
  | builder, .ok entry :: rest =>
    match builder.pushAt entry.line entry.depth (.leaf entry.label entry.value layout) with
    | .error jump => .error (.depth jump)
    | .ok next => build layout next rest

/-- The tree in lines, after `read` lines were read; all nodes keep their children in one layout. -/
def readLines (layout : Layout) (read : Nat) (lines : List RawLine) : Except ReadFault (Node V) :=
  build layout (.start (.root Payload.blank layout)) (entries read lines)

/-- The tree in a text. -/
def readText (layout : Layout) (text : String) : Except ReadFault (Node V) :=
  readLines layout 0 (linesOfText text.toList)

/-- The tree in bytes. -/
def readBytes (layout : Layout) (bytes : List UInt8) : Except ReadFault (Node V) :=
  readLines layout 0 (linesOfBytes bytes)

/-- The parse tree in a text. -/
def readTree (text : String) : Except ReadFault Tree :=
  readText .sequence text

end PathCensus.Dump
