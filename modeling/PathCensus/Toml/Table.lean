/-!
# TOML tables

A TOML document is a table of items. Tables are defined by headers, by dotted keys, or by being
passed through on the way to another table, and what may be added to a table later depends on how
it was defined: a header defines a table once, and dotted keys only go on with tables that dotted
keys made.
-/

namespace PathCensus.Toml

/-- How a table came to be. -/
inductive Origin where
  /-- A header names it. -/
  | header
  /-- The header of another table passes through it. -/
  | passed
  /-- A dotted key passes through it. -/
  | dotted
  deriving DecidableEq, Repr

/-- What a key stands for. -/
inductive Item where
  /-- Text. -/
  | text (value : String)
  /-- A whole number. -/
  | integer (value : Int)
  /-- A floating-point number. -/
  | float
  /-- A truth value. -/
  | boolean (value : Bool)
  /-- A date, a time of day, or both. -/
  | moment
  /-- A list of items. -/
  | array (items : List Item)
  /-- A table written as a value, which is complete. -/
  | inline (entries : List (String × Item))
  /-- A table that may still grow. -/
  | table (origin : Origin) (entries : List (String × Item))
  /-- Tables with one header; only the last may still grow. -/
  | tables (earlier : List (List (String × Item))) (last : List (String × Item))
  deriving Repr

/-- The keys of a table with their items. -/
abbrev Entries := List (String × Item)

namespace Entries

/-- The item under a key. -/
def get? (entries : Entries) (key : String) : Option Item :=
  entries.lookup key

/-- Put an item under a key, in place of the one there. -/
def set (entries : Entries) (key : String) (item : Item) : Entries :=
  match entries with
  | [] => [(key, item)]
  | (k, old) :: rest => if k = key then (k, item) :: rest else (k, old) :: set rest key item

/-- Put an item under a key that has none. -/
def add? (entries : Entries) (key : String) (item : Item) : Option Entries :=
  match entries.get? key with
  | some _ => none
  | none => some (entries.set key item)

/-- Change the table at the end of the keys of a header; tables that are missing are made. -/
def changeAt? (change : Entries → Option Entries) : List String → Entries → Option Entries
  | [], entries => change entries
  | key :: path, entries =>
    match entries.get? key with
    | none => (changeAt? change path []).map fun sub => entries.set key (.table .passed sub)
    | some (.table origin sub) =>
      (changeAt? change path sub).map fun sub => entries.set key (.table origin sub)
    | some (.tables earlier last) =>
      (changeAt? change path last).map fun last => entries.set key (.tables earlier last)
    | some _ => none

/-- Add an item below dotted keys. A table that a header defined is not gone into, and the innermost
table is one that dotted keys made. -/
def addDotted? (key : String) (item : Item) : List String → Entries → Option Entries
  | [], entries => entries.add? key item
  | step :: path, entries =>
    match entries.get? step with
    | none => (addDotted? key item path []).map fun sub => entries.set step (.table .dotted sub)
    | some (.table .dotted sub) =>
      (addDotted? key item path sub).map fun sub => entries.set step (.table .dotted sub)
    | some (.table .passed sub) =>
      if path.isEmpty then none
      else (addDotted? key item path sub).map fun sub => entries.set step (.table .passed sub)
    | some (.tables earlier last) =>
      if path.isEmpty then none
      else (addDotted? key item path last).map fun last => entries.set step (.tables earlier last)
    | some _ => none

/-- Define the table of a header; it may so far only have been passed through. -/
def define? (key : String) (entries : Entries) : Option Entries :=
  match entries.get? key with
  | none => some (entries.set key (.table .header []))
  | some (.table .passed sub) => some (entries.set key (.table .header sub))
  | some _ => none

/-- Begin another of the tables with one header. -/
def append? (key : String) (entries : Entries) : Option Entries :=
  match entries.get? key with
  | none => some (entries.set key (.tables [] []))
  | some (.tables earlier last) => some (entries.set key (.tables (earlier ++ [last]) []))
  | some _ => none

/-- The table of dotted keys with their items, none of which is given twice. -/
def ofPairs? (pairs : List (List String × String × Item)) : Option Entries :=
  pairs.foldlM (fun entries p => addDotted? p.2.1 p.2.2 p.1 entries) []

end Entries

end PathCensus.Toml
