/-!
# Lists with one place per key

A list in which adding an element under a key that is already there takes the place of the element
with that key, and adding one under a new key appends it.
-/

namespace PathCensus.Replacing

variable {α κ : Type} [DecidableEq κ]

/-- The place of the first element under `key`. -/
def place? (keyOf : α → κ) (key : κ) (items : List α) : Option Nat :=
  items.findIdx? fun a => keyOf a = key

/-- Add `item` in place of the first element with its key, or at the end. -/
def put (keyOf : α → κ) (items : List α) (item : α) : List α :=
  match place? keyOf (keyOf item) items with
  | some i => items.set i item
  | none => items ++ [item]

/-- Add all items in turn to the empty list: each key keeps its first place and its last item. -/
def ofList (keyOf : α → κ) (items : List α) : List α :=
  items.foldl (put keyOf) []

end PathCensus.Replacing
