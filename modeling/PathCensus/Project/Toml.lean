import PathCensus.Project.Config
import PathCensus.Toml.Document

/-!
# Reading configurations

A configuration is a TOML document. Keys with other names than those of the settings mean nothing.
-/

namespace PathCensus

namespace DataSettings

open Toml

/-- An item that has to be text. -/
def text? : Item → Option String
  | .text value => some value
  | _ => none

/-- An item that has to be a number that is not negative. -/
def number? : Item → Option Nat
  | .integer value => if 0 ≤ value then some value.toNat else none
  | _ => none

/-- An item that has to be a truth value. -/
def truth? : Item → Option Bool
  | .boolean value => some value
  | _ => none

/-- An item that may be missing, but has to be of its kind. -/
def optional? {α : Type} (kind? : Item → Option α) : Option Item → Option (Option α)
  | none => some none
  | some item => (kind? item).map some

/-- The settings in a table. -/
def ofEntries? (entries : Entries) : Option DataSettings := do
  let root ← optional? text? (entries.get? "root")
  let extension ← optional? text? (entries.get? "extension")
  let limit ← optional? number? (entries.get? "limit")
  let normalize ← optional? truth? (entries.get? "normalize")
  pure ⟨root, extension, limit, normalize⟩

/-- The settings in an array, which are told apart by their places. -/
def ofItems? : List Item → Option DataSettings
  | root :: extension :: limit :: normalize :: _ => do
    let root ← text? root
    let extension ← text? extension
    let limit ← number? limit
    let normalize ← truth? normalize
    pure ⟨root, extension, limit, normalize⟩
  | _ => none

/-- The settings of an item; a date or time sets nothing. -/
def ofItem? : Item → Option DataSettings
  | .table _ entries => ofEntries? entries
  | .inline entries => ofEntries? entries
  | .array items => ofItems? items
  | .moment => some unset
  | _ => none

end DataSettings

/-- The settings in a configuration, if that is well formed. -/
def ProjectSettings.read? (config : List Char) : Option ProjectSettings := do
  let document ← Toml.read? config
  match document.get? "data" with
  | none => pure ⟨none⟩
  | some item =>
    let data ← DataSettings.ofItem? item
    pure ⟨some data⟩

end PathCensus
