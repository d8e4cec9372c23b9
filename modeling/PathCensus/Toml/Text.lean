/-!
# Keys, comments and strings of TOML

Readers take something from the front of a text and leave the rest; they give nothing where the text
is malformed.
-/

namespace PathCensus.Toml

/-- Takes something from the front of a text and leaves the rest. -/
abbrev Reader (α : Type) := List Char → Option (α × List Char)

/-- A space or a tab. -/
def isSpace (c : Char) : Bool :=
  c = ' ' || c = '\t'

/-- A character that may stand in a comment or a string: no control but the tab. -/
def isPlain (c : Char) : Bool :=
  c = '\t' || (0x20 ≤ c.toNat && c.toNat ≠ 0x7F)

/-- A character of a key without quotes. -/
def isBare (c : Char) : Bool :=
  c.isAlphanum || c = '_' || c = '-'

/-- A digit of base sixteen. -/
def isHex (c : Char) : Bool :=
  c.isDigit || ('a' ≤ c && c ≤ 'f') || ('A' ≤ c && c ≤ 'F')

/-- The value of a digit in bases up to sixteen. -/
def digitValue (c : Char) : Nat :=
  if c.isDigit then c.toNat - '0'.toNat
  else if 'a' ≤ c then c.toNat - 'a'.toNat + 10
  else c.toNat - 'A'.toNat + 10

/-- The number that digits of a base name. -/
def ofDigits (base : Nat) (digits : List Char) : Nat :=
  digits.foldl (fun n c => base * n + digitValue c) 0

/-- The text without spaces in front. -/
def skipSpaces (text : List Char) : List Char :=
  text.dropWhile isSpace

/-- The text behind a line break. -/
def newline? : List Char → Option (List Char)
  | '\n' :: rest => some rest
  | '\r' :: '\n' :: rest => some rest
  | _ => none

/-- The text behind spaces, a comment and the end of the line. -/
def endLine? (text : List Char) : Option (List Char) :=
  let rest :=
    match skipSpaces text with
    | '#' :: comment => comment.dropWhile isPlain
    | other => other
  if rest.isEmpty then some [] else newline? rest

/-- The text behind spaces, line breaks and comments that end in line breaks, `bound` at most. -/
def skipLines? : Nat → List Char → Option (List Char)
  | 0, _ => none
  | bound + 1, text =>
    match skipSpaces text with
    | '#' :: comment => (newline? (comment.dropWhile isPlain)).bind (skipLines? bound)
    | '\n' :: rest => skipLines? bound rest
    | '\r' :: rest => (newline? ('\r' :: rest)).bind (skipLines? bound)
    | other => some other

/-- The character of a code point that `count` digits of base sixteen give. -/
def readCode (count : Nat) : Reader Char := fun text =>
  let digits := text.take count
  let code := ofDigits 16 digits
  let isScalar := code < 0xD800 || (0xDFFF < code && code < 0x110000)
  if digits.length = count && digits.all isHex && isScalar then
    some (Char.ofNat code, text.drop count)
  else none

/-- The character that a backslash and what follows it stand for. -/
def readEscape : Reader Char
  | 'b' :: rest => some (Char.ofNat 8, rest)
  | 'f' :: rest => some (Char.ofNat 12, rest)
  | 'n' :: rest => some ('\n', rest)
  | 'r' :: rest => some ('\r', rest)
  | 't' :: rest => some ('\t', rest)
  | '"' :: rest => some ('"', rest)
  | '\\' :: rest => some ('\\', rest)
  | 'u' :: rest => readCode 4 rest
  | 'U' :: rest => readCode 8 rest
  | _ => none

/-- The rest of a string between double quotes. -/
def readBasic : Nat → Reader (List Char)
  | 0, _ => none
  | _, [] => none
  | _ + 1, '"' :: rest => some ([], rest)
  | bound + 1, '\\' :: rest => do
    let (c, rest) ← readEscape rest
    let (cs, rest) ← readBasic bound rest
    pure (c :: cs, rest)
  | bound + 1, c :: rest => do
    guard (isPlain c)
    let (cs, rest) ← readBasic bound rest
    pure (c :: cs, rest)

/-- The rest of a string between apostrophes. -/
def readQuoted : Reader (List Char)
  | [] => none
  | '\'' :: rest => some ([], rest)
  | c :: rest => do
    guard (isPlain c)
    let (cs, rest) ← readQuoted rest
    pure (c :: cs, rest)

/-- The end of a string of several lines: a run of three to five marks, of which the last three
close the string. -/
def closeRun (mark : Char) : Reader (List Char) := fun text =>
  let run := (text.takeWhile (· = mark)).length
  if run = 3 || run = 4 || run = 5 then some (List.replicate (run - 3) mark, text.drop run)
  else none

/-- The text without spaces and line breaks in front. -/
def skipBreaks : List Char → List Char
  | [] => []
  | '\n' :: rest => skipBreaks rest
  | '\r' :: '\n' :: rest => skipBreaks rest
  | c :: rest => if isSpace c then skipBreaks rest else c :: rest

/-- The text that goes on a string behind a backslash at the end of a line. -/
def foldLine? (text : List Char) : Option (List Char) :=
  (newline? (skipSpaces text)).map skipBreaks

/-- The rest of a string of several lines between triple double quotes. -/
def readBasicLines : Nat → Reader (List Char)
  | 0, _ => none
  | _, [] => none
  | bound + 1, '\\' :: rest =>
    match foldLine? rest with
    | some rest => readBasicLines bound rest
    | none => do
      let (c, rest) ← readEscape rest
      let (cs, rest) ← readBasicLines bound rest
      pure (c :: cs, rest)
  | bound + 1, '"' :: rest =>
    if rest.take 2 = ['"', '"'] then closeRun '"' ('"' :: rest)
    else (readBasicLines bound rest).map fun (cs, rest) => ('"' :: cs, rest)
  | bound + 1, '\n' :: rest => (readBasicLines bound rest).map fun (cs, rest) => ('\n' :: cs, rest)
  | bound + 1, '\r' :: rest => do
    let rest ← newline? ('\r' :: rest)
    let (cs, rest) ← readBasicLines bound rest
    pure ('\n' :: cs, rest)
  | bound + 1, c :: rest => do
    guard (isPlain c)
    let (cs, rest) ← readBasicLines bound rest
    pure (c :: cs, rest)

/-- The rest of a string of several lines between triple apostrophes. -/
def readQuotedLines : Nat → Reader (List Char)
  | 0, _ => none
  | _, [] => none
  | bound + 1, '\'' :: rest =>
    if rest.take 2 = ['\'', '\''] then closeRun '\'' ('\'' :: rest)
    else (readQuotedLines bound rest).map fun (cs, rest) => ('\'' :: cs, rest)
  | bound + 1, '\n' :: rest =>
    (readQuotedLines bound rest).map fun (cs, rest) => ('\n' :: cs, rest)
  | bound + 1, '\r' :: rest => do
    let rest ← newline? ('\r' :: rest)
    let (cs, rest) ← readQuotedLines bound rest
    pure ('\n' :: cs, rest)
  | bound + 1, c :: rest => do
    guard (isPlain c)
    let (cs, rest) ← readQuotedLines bound rest
    pure (c :: cs, rest)

/-- The text without one line break in front. -/
def dropNewline (text : List Char) : List Char :=
  (newline? text).getD text

/-- Read a string of any of the four kinds. -/
def readString : Reader String := fun text =>
  let bound := text.length + 1
  let chars :=
    match text with
    | '"' :: '"' :: '"' :: rest => readBasicLines bound (dropNewline rest)
    | '"' :: rest => readBasic bound rest
    | '\'' :: '\'' :: '\'' :: rest => readQuotedLines bound (dropNewline rest)
    | '\'' :: rest => readQuoted rest
    | _ => none
  chars.map fun (cs, rest) => (String.ofList cs, rest)

/-- Read one part of a key: bare, or a string of one line. -/
def readKeyPart : Reader String := fun text =>
  match text with
  | '"' :: rest => (readBasic (text.length + 1) rest).map fun (cs, rest) => (String.ofList cs, rest)
  | '\'' :: rest => (readQuoted rest).map fun (cs, rest) => (String.ofList cs, rest)
  | _ =>
    match text.takeWhile isBare with
    | [] => none
    | bare => some (String.ofList bare, text.dropWhile isBare)

/-- Read a key of `bound` parts at most, with dots between them; spaces may stand around each. -/
def readParts : Nat → Reader (List String)
  | 0, _ => none
  | bound + 1, text => do
    let (part, rest) ← readKeyPart (skipSpaces text)
    match skipSpaces rest with
    | '.' :: rest => do
      let (parts, rest) ← readParts bound rest
      pure (part :: parts, rest)
    | rest => pure ([part], rest)

/-- Keys have fewer parts than this, and values nest less deep. -/
def nestingLimit : Nat := 80

/-- Read a key: the parts that lead to it, and its last part. -/
def readKey : Reader (List String × String) := fun text => do
  let (parts, rest) ← readParts (nestingLimit - 1) text
  let last ← parts.getLast?
  pure ((parts.dropLast, last), rest)

end PathCensus.Toml
