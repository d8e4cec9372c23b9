import PathCensus.SortedTable
import PathCensus.Sum
import PathCensus.Text.Blank
import PathCensus.Text.Numeral
import PathCensus.Text.Pieces
import PathCensus.Text.Quoted

/-!
# Counts per tree

How often each tree reaches a place. A tree without an entry counts 0 there; an entry of 0 is an
entry all the same. The text of counts lists `tree:count` pairs in ascending order of tree.
-/

namespace PathCensus

/-- Occurrences per tree id. -/
structure Counts where
  /-- The counted trees and their counts. -/
  table : SortedTable Nat Nat
  deriving DecidableEq

/-- Why a text names no counts. -/
inductive CountsFault where
  /-- A piece between commas has no colon. -/
  | noColon (piece : String)
  /-- The text before the colon is no numeral, even without the white space around it. -/
  | badTree (text : String) (fault : Text.NumeralFault)
  /-- The text after the colon is no numeral, even without the white space around it. -/
  | badCount (text : String) (fault : Text.NumeralFault)
  deriving DecidableEq, Repr

/-- The wording of a fault. -/
def CountsFault.message : CountsFault → String
  | .noColon piece => "expected tree:count, found " ++ Text.quote piece
  | .badTree text fault => "bad tree id " ++ Text.quote text ++ ": " ++ fault.message
  | .badCount text fault => "bad count " ++ Text.quote text ++ ": " ++ fault.message

namespace Counts

/-- No tree counted. -/
def empty : Counts := ⟨∅⟩

instance : EmptyCollection Counts := ⟨empty⟩

instance : Inhabited Counts := ⟨empty⟩

/-- The counted trees with their counts, ascending by tree. -/
def toList (counts : Counts) : List (Nat × Nat) :=
  counts.table.entries

/-- The count of `tree`, 0 if it is not counted. -/
def get (counts : Counts) (tree : Nat) : Nat :=
  (counts.table.find? tree).getD 0

/-- Count `tree` another `count` times. -/
def add (counts : Counts) (tree count : Nat) : Counts :=
  ⟨counts.table.alter tree fun old => old.getD 0 + count⟩

/-- Count `tree` once more. -/
def increment (counts : Counts) (tree : Nat) : Counts :=
  counts.add tree 1

/-- Add a list of counts, one after another. -/
def addAll (counts : Counts) (pairs : List (Nat × Nat)) : Counts :=
  pairs.foldl (fun sum p => sum.add p.1 p.2) counts

/-- The counts of a list of pairs; the counts of a repeated tree add up. -/
def ofList (pairs : List (Nat × Nat)) : Counts :=
  empty.addAll pairs

/-- One occurrence of one tree. -/
def single (tree : Nat) : Counts :=
  empty.increment tree

/-- The sum of two counts, tree by tree. -/
def union (a b : Counts) : Counts :=
  a.addAll b.toList

instance : Union Counts := ⟨union⟩

/-- The number of counted trees. -/
def size (counts : Counts) : Nat :=
  counts.toList.length

/-- No tree is counted. -/
def isEmpty (counts : Counts) : Bool :=
  counts.toList.isEmpty

/-- All occurrences together. -/
def total (counts : Counts) : Nat :=
  sumBy Prod.snd counts.toList

/-- The largest counted tree. -/
def maxTree? (counts : Counts) : Option Nat :=
  counts.table.keys.getLast?

/-- The text of one pair. -/
def renderPair (pair : Nat × Nat) : String :=
  pair.1.repr ++ ":" ++ pair.2.repr

/-- The text of the counts. -/
def render (counts : Counts) : String :=
  ",".intercalate (counts.toList.map renderPair)

/-- Read one pair, cut at its first colon; white space may stand around either side, and a fault
keeps the side with it. -/
def readPair (piece : List Char) : Except CountsFault (Nat × Nat) :=
  match piece.dropWhile (· ≠ ':') with
  | [] => .error (.noColon (String.ofList piece))
  | _ :: right =>
    let left := piece.takeWhile (· ≠ ':')
    match Text.readNumeral (Text.trim left) with
    | .error fault => .error (.badTree (String.ofList left) fault)
    | .ok tree =>
      match Text.readNumeral (Text.trim right) with
      | .error fault => .error (.badCount (String.ofList right) fault)
      | .ok count => .ok (tree, count)

/-- Read pairs up to the first fault. -/
def readPairs : List (List Char) → Except CountsFault (List (Nat × Nat))
  | [] => .ok []
  | piece :: rest =>
    match readPair piece with
    | .error fault => .error fault
    | .ok pair => (readPairs rest).map (pair :: ·)

/-- Read counts; a text of white space counts nothing. -/
def read (text : List Char) : Except CountsFault Counts :=
  match Text.trim text with
  | [] => .ok empty
  | body => (readPairs (Text.pieces ',' body)).map ofList

end Counts

end PathCensus
