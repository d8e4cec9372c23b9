import PathCensus.Files.Store
import PathCensus.Text.Utf8

/-!
# Texts of files

A file is read as a whole, and its bytes have to be UTF-8.
-/

namespace PathCensus

/-- Why the text of a file cannot be read. -/
inductive TextFault where
  /-- The operating system refuses. -/
  | os (error : OsError)
  /-- The file is not UTF-8. -/
  | notUtf8
  deriving DecidableEq, Repr

/-- The wording of a fault. -/
def TextFault.message : TextFault → String
  | .os error => error.message
  | .notUtf8 => "stream did not contain valid UTF-8"

/-- The text of a file. -/
def Store.readText (store : Store) (workingPlace : List String) (location : String) :
    Except TextFault (List Char) :=
  match store.readBytes workingPlace location with
  | .error e => .error (.os e)
  | .ok bytes =>
    match Text.decode? bytes with
    | none => .error .notUtf8
    | some text => .ok text

end PathCensus
