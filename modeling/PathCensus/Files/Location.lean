import PathCensus.Text.Pieces

/-!
# Texts that name files

Names between slashes lead from directory to directory; a slash at the start leads from the root.
-/

namespace PathCensus.Location

/-- The names between slashes that are not empty. -/
def names (location : String) : List String :=
  ((Text.pieces '/' location.toList).filter fun name => !name.isEmpty).map String.ofList

/-- The location that names lead to from the root. -/
def ofNames (names : List String) : String :=
  "/" ++ "/".intercalate names

/-- The location starts at the root. -/
def isAbsolute (location : String) : Bool :=
  location.toList.head? = some '/'

/-- The location ends in a slash, so it can only name a directory. -/
def endsInSlash (location : String) : Bool :=
  location.toList.getLast? = some '/'

/-- A location as seen from a directory: an absolute one stays as it is. -/
def join (directory location : String) : String :=
  if isAbsolute location then location
  else if directory.isEmpty || endsInSlash directory then directory ++ location
  else directory ++ "/" ++ location

/-- The names of a location, where a dot says something only at the start. -/
def steps (location : String) : List String :=
  let all := names location
  if isAbsolute location then all.filter (· ≠ ".")
  else
    match all with
    | [] => []
    | first :: rest => first :: rest.filter (· ≠ ".")

/-- The directory of what a location names; the root and the empty location have none. -/
def parent? (location : String) : Option String :=
  match steps location with
  | [] => none
  | steps =>
    let above := "/".intercalate steps.dropLast
    some (if isAbsolute location then "/" ++ above else above)

/-- What follows the last dot of a file name; a dot at the start does not count. -/
def extension? (name : String) : Option String :=
  let reversed := name.toList.reverse
  match reversed.dropWhile (· ≠ '.') with
  | _ :: _ :: _ => some (String.ofList (reversed.takeWhile (· ≠ '.')).reverse)
  | _ => none

end PathCensus.Location
