import PathCensus.Files.Store

/-!
# Walks through directories

A walk meets a directory and all that is below it. A directory that may not be read is met itself, but
nothing below it, and the refusal is reported.
-/

namespace PathCensus

/-- What a walk meets. -/
structure Met where
  /-- The names from the start of the walk. -/
  names : List String
  /-- It is a file. -/
  isFile : Bool
  deriving DecidableEq, Repr

/-- The files among what a walk meets; what it is refused is left out. -/
def filesMet (walked : List (Except OsError Met)) : List (List String) :=
  walked.filterMap fun step =>
    match step with
    | .ok met => if met.isFile then some met.names else none
    | .error _ => none

namespace Store

/-- The directories on the way from a place to the end of names may be read. -/
def isPassable (store : Store) (place names : List String) : Bool :=
  (List.range names.length).all fun n =>
    (store.checkPassage (place ++ names.take n)).toOption.isSome

/-- The names from a place to what is there or below it, each once. -/
def namesBelow (store : Store) (place : List String) : List (List String) :=
  ([] :: store.entries.filterMap fun (p, _) =>
    if place.isPrefixOf p then some (p.drop place.length) else none).eraseDups

/-- What a walk from a place meets at the end of names. -/
def meet (store : Store) (place names : List String) : List (Except OsError Met) :=
  match store.entry? (place ++ names) with
  | none => []
  | some (.file _ _) => [.ok ⟨names, true⟩]
  | some (.directory .closed) => [.ok ⟨names, false⟩, .error .permissionDenied]
  | some (.directory _) => [.ok ⟨names, false⟩]

/-- Walk from a place. -/
def walk (store : Store) (place : List String) : List (Except OsError Met) :=
  ((store.namesBelow place).filter (store.isPassable place)).flatMap (store.meet place)

end Store

end PathCensus
