/-!
# Sets of characters as ranges of code points
-/

namespace PathCensus.Text

/-- A set of characters: the first and the last code point of each of its ranges. -/
abbrev CodeRanges := List (Nat × Nat)

/-- Some range holds the character. -/
def CodeRanges.has (ranges : CodeRanges) (c : Char) : Bool :=
  ranges.any fun r => r.1 ≤ c.toNat && c.toNat ≤ r.2

end PathCensus.Text
