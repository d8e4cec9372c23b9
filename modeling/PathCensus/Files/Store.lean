import PathCensus.Files.Location

/-!
# Files and directories

A store holds files and directories by the names that lead to them from the root, and says of each
what may be done with it. Locations are looked up name by name, and what goes wrong is reported as an
operating system does.
-/

namespace PathCensus

/-- Why the operating system refuses. -/
inductive OsError where
  /-- The location holds a NUL, at which it would be cut off. -/
  | nulByte
  /-- A name or the whole location is too long. -/
  | nameTooLong
  /-- There is no such file or directory. -/
  | noEntry
  /-- What is asked for is not allowed. -/
  | permissionDenied
  /-- There is something already. -/
  | alreadyExists
  /-- A name on the way is no directory. -/
  | notDirectory
  /-- A file was wanted. -/
  | isDirectory
  deriving DecidableEq, Repr

/-- The wording of a refusal. -/
def OsError.message : OsError → String
  | .nulByte => "file name contained an unexpected NUL byte"
  | .nameTooLong => "File name too long (os error 36)"
  | .noEntry => "No such file or directory (os error 2)"
  | .permissionDenied => "Permission denied (os error 13)"
  | .alreadyExists => "File exists (os error 17)"
  | .notDirectory => "Not a directory (os error 20)"
  | .isDirectory => "Is a directory (os error 21)"

/-- What may be done with a file or a directory. -/
inductive Access where
  /-- It may be read and changed. -/
  | full
  /-- It may be read: the bytes of a file, the names in a directory and what they lead to. -/
  | readOnly
  /-- Nothing. -/
  | closed
  deriving DecidableEq, Repr

/-- What names lead to. -/
inductive StoreEntry where
  /-- A file and its bytes. -/
  | file (bytes : List UInt8) (access : Access)
  /-- A directory. -/
  | directory (access : Access)
  deriving DecidableEq, Repr

/-- The entries of a file system, each under the names from the root. -/
structure Store where
  /-- What may be done with the root, which is always there. -/
  root : Access
  /-- The entries; the root is not among them. -/
  entries : List (List String × StoreEntry)
  deriving DecidableEq, Repr

namespace Store

/-- What is at the end of names from the root. -/
def entry? (store : Store) (place : List String) : Option StoreEntry :=
  if place.isEmpty then some (.directory store.root) else store.entries.lookup place

/-- Put an entry at a place, over the one there. -/
def setEntries (place : List String) (entry : StoreEntry) :
    List (List String × StoreEntry) → List (List String × StoreEntry)
  | [] => [(place, entry)]
  | (p, old) :: rest =>
    if p = place then (p, entry) :: rest else (p, old) :: setEntries place entry rest

/-- Put an entry at a place, over the one there. -/
def set (store : Store) (place : List String) (entry : StoreEntry) : Store :=
  { store with entries := setEntries place entry store.entries }

/-- A name of more than 255 bytes, which no directory can hold. -/
def isTooLong (name : String) : Bool :=
  255 < name.utf8ByteSize

/-- A location that can be looked up: it has no NUL, is not empty, and has less than 4096 bytes. -/
def checkLocation (location : String) : Except OsError Unit :=
  if location.toList.any fun c => c.toNat = 0 then .error .nulByte
  else if location.isEmpty then .error .noEntry
  else if 4096 ≤ location.utf8ByteSize then .error .nameTooLong
  else .ok ()

/-- Names can be looked up at a place: a directory is there, and it may be read. -/
def checkPassage (store : Store) (place : List String) : Except OsError Unit :=
  match store.entry? place with
  | none => .error .noEntry
  | some (.file _ _) => .error .notDirectory
  | some (.directory .closed) => .error .permissionDenied
  | some (.directory _) => .ok ()

/-- Follow names from a place; each name but the last must lead to a directory that may be read. -/
def follow (store : Store) (here : List String) : List String → Except OsError (List String)
  | [] => .ok here
  | name :: rest =>
    match store.checkPassage here with
    | .error e => .error e
    | .ok () =>
      if name = "." then store.follow here rest
      else if name = ".." then store.follow here.dropLast rest
      else if isTooLong name then .error .nameTooLong
      else
        match store.entry? (here ++ [name]) with
        | none => .error .noEntry
        | some _ => store.follow (here ++ [name]) rest

/-- Where a location starts. -/
def start (workingPlace : List String) (location : String) : List String :=
  if Location.isAbsolute location then [] else workingPlace

/-- The place that a location names, and what is there. -/
def resolve (store : Store) (workingPlace : List String) (location : String) :
    Except OsError (List String × StoreEntry) :=
  match checkLocation location with
  | .error e => .error e
  | .ok () =>
    match store.follow (start workingPlace location) (Location.names location) with
    | .error e => .error e
    | .ok place =>
      match store.entry? place with
      | none => .error .noEntry
      | some (.directory access) => .ok (place, .directory access)
      | some (.file bytes access) =>
        if Location.endsInSlash location then .error .notDirectory
        else .ok (place, .file bytes access)

/-- The bytes of a file. -/
def readBytes (store : Store) (workingPlace : List String) (location : String) :
    Except OsError (List UInt8) :=
  match store.resolve workingPlace location with
  | .error e => .error e
  | .ok (_, .directory .closed) => .error .permissionDenied
  | .ok (_, .directory _) => .error .isDirectory
  | .ok (_, .file _ .closed) => .error .permissionDenied
  | .ok (_, .file bytes _) => .ok bytes

/-- Something is at a location. -/
def has (store : Store) (workingPlace : List String) (location : String) : Bool :=
  (store.resolve workingPlace location).toOption.isSome

/-- A directory is at a location. -/
def isDirectory (store : Store) (workingPlace : List String) (location : String) : Bool :=
  match store.resolve workingPlace location with
  | .ok (_, .directory _) => true
  | _ => false

/-- The directory in which the last name of a location stands, and that name; the root has no
name. -/
def resolveLast (store : Store) (workingPlace : List String) (location : String) :
    Except OsError (List String × Option String) :=
  match checkLocation location with
  | .error e => .error e
  | .ok () =>
    let names := Location.names location
    match store.follow (start workingPlace location) names.dropLast with
    | .error e => .error e
    | .ok place =>
      match names.getLast? with
      | none => .ok (place, none)
      | some name => (store.checkPassage place).map fun _ => (place, some name)

/-- A name that stands for a directory that is there. -/
def isDots (name : String) : Bool :=
  name = "." || name = ".."

/-- Make one directory. -/
def makeDirectory (store : Store) (workingPlace : List String) (location : String) :
    Except OsError Store :=
  match store.resolveLast workingPlace location with
  | .error e => .error e
  | .ok (_, none) => .error .alreadyExists
  | .ok (place, some name) =>
    if isDots name || (store.entry? (place ++ [name])).isSome then .error .alreadyExists
    else if isTooLong name then .error .nameTooLong
    else if store.entry? place = some (.directory .full) then
      .ok (store.set (place ++ [name]) (.directory .full))
    else .error .permissionDenied

/-- What comes of an attempt to change a store: the store afterwards, and why it was given up. -/
abbrev Attempt := Store × Option OsError

/-- Make one directory; one that is there already is as good. -/
def ensureDirectory (store : Store) (workingPlace : List String) (location : String) : Attempt :=
  match store.makeDirectory workingPlace location with
  | .ok made => (made, none)
  | .error e =>
    if store.isDirectory workingPlace location then (store, none) else (store, some e)

/-- Make a directory and those above it, `bound` of them at most. What was made stays. -/
def makeDirectories (store : Store) (workingPlace : List String) : Nat → String → Attempt
  | 0, _ => (store, none)
  | bound + 1, location =>
    if (Location.steps location).isEmpty && !Location.isAbsolute location then (store, none)
    else
      match store.ensureDirectory workingPlace location with
      | (store, some .noEntry) =>
        match Location.parent? location with
        | none => (store, some .noEntry)
        | some above =>
          match store.makeDirectories workingPlace bound above with
          | (store, some e) => (store, some e)
          | (store, none) => store.ensureDirectory workingPlace location
      | attempt => attempt

/-- Make a file with the given bytes, or give them to the file that is there. -/
def makeFile (store : Store) (workingPlace : List String) (location : String)
    (bytes : List UInt8) : Except OsError Store :=
  match store.resolveLast workingPlace location with
  | .error e => .error e
  | .ok (_, none) => .error .isDirectory
  | .ok (place, some name) =>
    if Location.endsInSlash location || isDots name then .error .isDirectory
    else if isTooLong name then .error .nameTooLong
    else
      match store.entry? (place ++ [name]) with
      | some (.directory _) => .error .isDirectory
      | some (.file _ access) =>
        if access = .full then .ok (store.set (place ++ [name]) (.file bytes .full))
        else .error .permissionDenied
      | none =>
        if store.entry? place = some (.directory .full) then
          .ok (store.set (place ++ [name]) (.file bytes .full))
        else .error .permissionDenied

/-- Write a file, and make the directories above it first. -/
def writeFile (store : Store) (workingPlace : List String) (location : String)
    (bytes : List UInt8) : Attempt :=
  let attempt :=
    match Location.parent? location with
    | none => (store, none)
    | some above => store.makeDirectories workingPlace (location.length + 1) above
  match attempt with
  | (store, some e) => (store, some e)
  | (store, none) =>
    match store.makeFile workingPlace location bytes with
    | .error e => (store, some e)
    | .ok made => (made, none)

/-- The entries that are new or differ from those of an earlier store. -/
def changes (before after : Store) : List (List String × StoreEntry) :=
  after.entries.filter fun (place, entry) => before.entry? place ≠ some entry

end Store

end PathCensus
