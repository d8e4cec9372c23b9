/-!
# Unsigned 64-bit numerals

ASCII digits after an optional plus sign, for a number below `2 ^ 64`.
-/

namespace PathCensus.Text

/-- Why a text is no unsigned 64-bit numeral. -/
inductive NumeralFault where
  /-- There is no character at all. -/
  | empty
  /-- Some character is no digit, or there is nothing but a sign. -/
  | invalidDigit
  /-- The number is `2 ^ 64` or more. -/
  | tooLarge
  deriving DecidableEq, Repr

/-- The wording of a fault. -/
def NumeralFault.message : NumeralFault → String
  | .empty => "cannot parse integer from empty string"
  | .invalidDigit => "invalid digit found in string"
  | .tooLarge => "number too large to fit in target type"

/-- The first number that a numeral cannot name. -/
def numeralLimit : Nat := UInt64.size

/-- Read on after digits worth `value`; the first fault from the left is reported. -/
def readDigits (value : Nat) : List Char → Except NumeralFault Nat
  | [] => .ok value
  | c :: rest =>
    if c.isDigit then
      let next := 10 * value + (c.toNat - '0'.toNat)
      if next < numeralLimit then readDigits next rest else .error .tooLarge
    else .error .invalidDigit

/-- The number that a numeral names. -/
def readNumeral : List Char → Except NumeralFault Nat
  | [] => .error .empty
  | ['+'] => .error .invalidDigit
  | '+' :: digits => readDigits 0 digits
  | digits => readDigits 0 digits

end PathCensus.Text
