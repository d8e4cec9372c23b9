import PathCensus.Files.Location

/-!
# The configuration of a project

A configuration may have a table `data`, which says where the dumps lie and how to load them. All of it
is optional.
-/

namespace PathCensus

/-- Where dumps lie and how to load them. -/
structure Project where
  /-- The directory of the project. -/
  root : String
  /-- The directory of the dumps. -/
  dataDir : String
  /-- The extension of the files that are dumps. -/
  extension : String
  /-- How many dumps are read at most. -/
  limit : Option Nat
  /-- Quoted literals are renamed after loading. -/
  normalize : Bool
  deriving DecidableEq, Repr

/-- What the table `data` says. -/
structure DataSettings where
  /-- The directory of the dumps. -/
  root : Option String
  /-- The extension of the files that are dumps. -/
  extension : Option String
  /-- How many dumps are read at most. -/
  limit : Option Nat
  /-- Quoted literals are renamed after loading. -/
  normalize : Option Bool
  deriving DecidableEq, Repr

/-- Settings that say nothing. -/
def DataSettings.unset : DataSettings := ⟨none, none, none, none⟩

/-- What a configuration says. -/
structure ProjectSettings where
  /-- The table `data`, if there is one. -/
  data : Option DataSettings
  deriving DecidableEq, Repr

namespace Project

/-- The project in a directory with the given settings. -/
def ofSettings (root : String) (settings : ProjectSettings) : Project :=
  let data := settings.data.getD .unset
  { root
    dataDir := Location.join root (data.root.getD "data")
    extension := data.extension.getD "txt"
    limit := data.limit
    normalize := data.normalize.getD false }

end Project

end PathCensus
