import PathCensus.Toml.Table
import PathCensus.Toml.Text

/-!
# Numbers, dates and times of TOML

A date starts with four digits and a hyphen, a time of day with two digits and a colon; what else
starts with a digit or a sign is a number. Whole numbers have 64 bits with sign.
-/

namespace PathCensus.Toml

/-- Read on in digits of one kind; an underscore may stand between two digits. -/
def moreDigits (isDigit : Char → Bool) : Reader (List Char)
  | [] => some ([], [])
  | ['_'] => none
  | '_' :: c :: rest => do
    guard (isDigit c)
    let (digits, rest) ← moreDigits isDigit rest
    pure (c :: digits, rest)
  | c :: rest =>
    if isDigit c then (moreDigits isDigit rest).map fun (digits, rest) => (c :: digits, rest)
    else some ([], c :: rest)

/-- Read at least one digit of one kind. -/
def readDigits (isDigit : Char → Bool) : Reader (List Char)
  | [] => none
  | c :: rest => do
    guard (isDigit c)
    let (digits, rest) ← moreDigits isDigit rest
    pure (c :: digits, rest)

/-- Read the digits of a decimal number; only zero itself starts with a zero. -/
def readWhole : Reader (List Char)
  | '0' :: rest => some (['0'], rest)
  | text => readDigits Char.isDigit text

/-- Whole numbers of 64 bits with sign. -/
def isInt64 (value : Int) : Bool :=
  -0x8000000000000000 ≤ value && value < 0x8000000000000000

/-- The number `mantissa * 10 ^ exponent` is too great for a floating-point number of 64 bits: it
is not less than the midpoint between the greatest one and `2 ^ 1024`. -/
def overflows (mantissa : Nat) (exponent : Int) : Bool :=
  let digits : Int := (Nat.toDigits 10 mantissa).length
  if mantissa = 0 || digits + exponent < 300 then false
  else if 310 < digits + exponent then true
  else
    let bound := Nat.pow 2 1024 - Nat.pow 2 970
    if 0 ≤ exponent then bound ≤ mantissa * Nat.pow 10 exponent.toNat
    else bound * Nat.pow 10 (-exponent).toNat ≤ mantissa

/-- Read a sign if there is one; the number is negative behind a minus. -/
def readSign : List Char → Bool × List Char
  | '+' :: rest => (false, rest)
  | '-' :: rest => (true, rest)
  | text => (false, text)

/-- Read an exponent if there is one. -/
def readExponent (text : List Char) : Option (Option Int × List Char) :=
  match text with
  | e :: rest =>
    if e = 'e' || e = 'E' then do
      let (negative, rest) := readSign rest
      let (digits, rest) ← readDigits Char.isDigit rest
      let size : Int := ofDigits 10 digits
      pure (some (if negative then -size else size), rest)
    else some (none, text)
  | [] => some (none, [])

/-- Read a fraction if there is one. -/
def readFraction (text : List Char) : Option (Option (List Char) × List Char) :=
  match text with
  | '.' :: rest => (readDigits Char.isDigit rest).map fun (digits, rest) => (some digits, rest)
  | _ => some (none, text)

/-- Read a decimal number: whole if it has neither fraction nor exponent. -/
def readDecimal : Reader Item := fun text => do
  let (negative, body) := readSign text
  let (whole, rest) ← readWhole body
  let (fraction, rest) ← readFraction rest
  let (exponent, rest) ← readExponent rest
  if fraction.isNone && exponent.isNone then
    let size : Int := ofDigits 10 whole
    let value := if negative then -size else size
    guard (isInt64 value)
    pure (.integer value, rest)
  else
    let fraction := fraction.getD []
    let tooGreat :=
      overflows (ofDigits 10 (whole ++ fraction)) (exponent.getD 0 - fraction.length)
    guard (negative || !tooGreat)
    pure (.float, rest)

/-- Read a whole number in another base behind its mark. -/
def readBased (base : Nat) (isDigit : Char → Bool) : Reader Item := fun text => do
  let (digits, rest) ← readDigits isDigit text
  guard (isInt64 (ofDigits base digits))
  pure (.integer (ofDigits base digits), rest)

/-- Read a number. -/
def readNumber : Reader Item := fun text =>
  match text with
  | '0' :: 'x' :: rest => readBased 16 isHex rest
  | '0' :: 'o' :: rest => readBased 8 (fun c => '0' ≤ c && c ≤ '7') rest
  | '0' :: 'b' :: rest => readBased 2 (fun c => c = '0' || c = '1') rest
  | _ =>
    match (readSign text).2 with
    | 'i' :: 'n' :: 'f' :: rest => some (.float, rest)
    | 'n' :: 'a' :: 'n' :: rest => some (.float, rest)
    | _ => readDecimal text

/-- Read exactly `count` digits. -/
def readField (count : Nat) : Reader Nat := fun text =>
  let digits := text.take count
  if digits.length = count && digits.all Char.isDigit then
    some (ofDigits 10 digits, text.drop count)
  else none

/-- Read exactly `count` digits for a number in a range. -/
def readFieldIn (count least greatest : Nat) : Reader Nat := fun text => do
  let (value, rest) ← readField count text
  guard (least ≤ value && value ≤ greatest)
  pure (value, rest)

/-- The text behind a sign that must be there. -/
def expect? (sign : Char) : List Char → Option (List Char)
  | c :: rest => if c = sign then some rest else none
  | [] => none

/-- The number of days of a month. -/
def monthLength (year month : Nat) : Nat :=
  if month = 2 then
    if year % 4 = 0 && (year % 100 ≠ 0 || year % 400 = 0) then 29 else 28
  else if month = 4 || month = 6 || month = 9 || month = 11 then 30
  else 31

/-- The text behind a date. -/
def skipDate? (text : List Char) : Option (List Char) := do
  let (year, rest) ← readField 4 text
  let rest ← expect? '-' rest
  let (month, rest) ← readFieldIn 2 1 12 rest
  let rest ← expect? '-' rest
  let (_, rest) ← readFieldIn 2 1 (monthLength year month) rest
  pure rest

/-- The text behind a fraction of a second, if there is one. -/
def skipSecondFraction? : List Char → Option (List Char)
  | '.' :: c :: rest => if c.isDigit then some (rest.dropWhile Char.isDigit) else none
  | ['.'] => none
  | text => some text

/-- The text behind a time of day. -/
def skipTime? (text : List Char) : Option (List Char) := do
  let (_, rest) ← readFieldIn 2 0 23 text
  let rest ← expect? ':' rest
  let (_, rest) ← readFieldIn 2 0 59 rest
  let rest ← expect? ':' rest
  let (_, rest) ← readFieldIn 2 0 60 rest
  skipSecondFraction? rest

/-- The text behind an offset from universal time, if there is one. -/
def skipOffset? : List Char → Option (List Char)
  | 'Z' :: rest => some rest
  | 'z' :: rest => some rest
  | c :: rest =>
    if c = '+' || c = '-' then do
      let (_, rest) ← readFieldIn 2 0 23 rest
      let rest ← expect? ':' rest
      let (_, rest) ← readFieldIn 2 0 59 rest
      pure rest
    else some (c :: rest)
  | [] => some []

/-- A time of day starts here. -/
def startsTime (text : List Char) : Bool :=
  ((readFieldIn 2 0 23 text).bind fun (_, rest) => expect? ':' rest).isSome

/-- A date starts here. -/
def startsDate (text : List Char) : Bool :=
  ((readField 4 text).bind fun (_, rest) => expect? '-' rest).isSome

/-- Read a date, with a time of day and an offset if they follow. -/
def readDate : Reader Item := fun text => do
  let rest ← skipDate? text
  match rest with
  | c :: time =>
    if (c = 'T' || c = 't' || c = ' ') && startsTime time then do
      let rest ← skipTime? time
      let rest ← skipOffset? rest
      pure (.moment, rest)
    else pure (.moment, rest)
  | [] => pure (.moment, [])

/-- Read a date, a time of day or a number. -/
def readNumeric : Reader Item := fun text =>
  if startsDate text then readDate text
  else if startsTime text then (skipTime? text).map fun rest => (.moment, rest)
  else readNumber text

end PathCensus.Toml
