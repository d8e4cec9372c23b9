import PathCensus.Counts
import PathCensus.Tree.Node

/-!
# What a dump line carries behind the label

Parse trees carry text there, an empty one standing for none, and censuses carry counts.
-/

namespace PathCensus

/-- Values that can be written on a dump line and read back. -/
class Payload (V : Type) where
  /-- The value of a root. -/
  blank : V
  /-- The text of a value. -/
  render : V → String
  /-- The value of a text; only counts are ever refused. -/
  read : List Char → Except CountsFault V

instance : Payload (Option String) where
  blank := none
  render value := value.getD ""
  read text := .ok (if text.isEmpty then none else some (String.ofList text))

instance : Payload Counts where
  blank := ∅
  render := Counts.render
  read := Counts.read

end PathCensus
