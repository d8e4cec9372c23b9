import PathCensus.SortedTable

/-!
# Lists with an index

A list with one place per key can be kept together with an index that gives the places. A key is
then looked up in the index alone, so every change has to keep the index in step with the list, and
an index that is out of step has to be made anew.
-/

namespace PathCensus

/-- Items with one place per key, and an index from keys to places. -/
structure Indexed (κ α : Type) [Ord κ] where
  /-- The items in the order in which their places were first taken. -/
  items : List α
  /-- The places by key. -/
  index : SortedTable κ Nat

namespace Indexed

variable {κ α : Type} [Ord κ]

/-- No items. -/
def empty : Indexed κ α := ⟨[], ∅⟩

instance : EmptyCollection (Indexed κ α) := ⟨empty⟩

/-- Change the item at a place. The index is left as it is. -/
def modify (kept : Indexed κ α) (i : Nat) (f : α → α) : Indexed κ α :=
  { kept with items := kept.items.modify i f }

/-- The place that the index gives for a key. -/
def place? (kept : Indexed κ α) (key : κ) : Option Nat :=
  kept.index.find? key

/-- The item in the place that the index gives for a key. -/
def get? (kept : Indexed κ α) (key : κ) : Option α :=
  (kept.place? key).bind fun i => kept.items[i]?

variable [Std.TransOrd κ] [Std.LawfulEqOrd κ]

/-- Add an item in the place that the index gives for its key, or else at the end under a new entry
of the index; its place comes with the list. -/
def put (keyOf : α → κ) (kept : Indexed κ α) (item : α) : Nat × Indexed κ α :=
  match kept.index.find? (keyOf item) with
  | some i => (i, { kept with items := kept.items.set i item })
  | none =>
    let i := kept.items.length
    (i, ⟨kept.items ++ [item], kept.index.alter (keyOf item) fun _ => i⟩)

/-- Make sure that the index gives a place for a key, adding `fresh` if it gives none; the place
comes with the list. -/
def ensure (keyOf : α → κ) (kept : Indexed κ α) (key : κ) (fresh : α) : Nat × Indexed κ α :=
  match kept.index.find? key with
  | some i => (i, kept)
  | none => kept.put keyOf fresh

/-- Make the index anew: add all items in turn to the empty list. -/
def reindex (keyOf : α → κ) (kept : Indexed κ α) : Indexed κ α :=
  kept.items.foldl (fun fresh item => (fresh.put keyOf item).2) ∅

/-- The loop that makes an index anew, over items that were taken out: an item whose key has a place
by now replaces the one there, and any other comes last under a new entry of the index. -/
def refill (keyOf : α → κ) (kept : Indexed κ α) : List α → Indexed κ α
  | [] => kept
  | item :: rest =>
    match kept.index.find? (keyOf item) with
    | some i => refill keyOf { kept with items := kept.items.set i item } rest
    | none =>
      let index := kept.index.alter (keyOf item) fun _ => kept.items.length
      refill keyOf ⟨kept.items ++ [item], index⟩ rest

/-- A call that may add an item. -/
inductive Call (κ α : Type) where
  /-- Add an item. -/
  | put (item : α)
  /-- Make sure of a key. What is made where the key is missing may have another key. -/
  | ensure (key : κ) (fresh : α)

/-- Make a call: the place that it answers with, and the list after it. -/
def perform (keyOf : α → κ) (kept : Indexed κ α) : Call κ α → Nat × Indexed κ α
  | .put item => kept.put keyOf item
  | .ensure key fresh => kept.ensure keyOf key fresh

/-- The list after calls, one after another, on the empty list. -/
def ofCalls (keyOf : α → κ) (calls : List (Call κ α)) : Indexed κ α :=
  calls.foldl (fun kept call => (kept.perform keyOf call).2) ∅

end Indexed

end PathCensus
