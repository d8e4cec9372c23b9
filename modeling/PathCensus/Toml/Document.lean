import PathCensus.Toml.Number

/-!
# TOML documents

A document is a list of statements, each on its line: pairs of a key and a value, which belong to
the table opened last, headers of tables, and headers of further tables of one name.
-/

namespace PathCensus.Toml

/-- Read the elements of an array up to its closing bracket, `bound` at most. -/
def readElements (readItem : Reader Item) : Nat → Reader (List Item)
  | 0, _ => none
  | bound + 1, text => do
    let text ← skipLines? (text.length + 1) text
    match text with
    | ']' :: rest => pure ([], rest)
    | _ => do
      let (item, rest) ← readItem text
      let rest ← skipLines? (rest.length + 1) rest
      match rest with
      | ',' :: rest => do
        let (items, rest) ← readElements readItem bound rest
        pure (item :: items, rest)
      | ']' :: rest => pure ([item], rest)
      | _ => none

/-- Read a key, an equals sign and a value. -/
def readPair (readItem : Reader Item) : Reader (List String × String × Item) := fun text => do
  let ((path, key), rest) ← readKey text
  let rest ← expect? '=' rest
  let (item, rest) ← readItem (skipSpaces rest)
  pure ((path, key, item), rest)

/-- Read the pairs of an inline table up to its closing brace, `bound` at most. -/
def readPairs (readItem : Reader Item) : Nat → Reader (List (List String × String × Item))
  | 0, _ => none
  | bound + 1, text => do
    let (pair, rest) ← readPair readItem text
    match skipSpaces rest with
    | ',' :: rest => do
      let (pairs, rest) ← readPairs readItem bound rest
      pure (pair :: pairs, rest)
    | '\x7d' :: rest => pure ([pair], rest)
    | _ => none

/-- Read an inline table behind its opening brace. -/
def readInline (readItem : Reader Item) : Reader Item := fun text =>
  match skipSpaces text with
  | '\x7d' :: rest => some (.inline [], rest)
  | _ => do
    let (pairs, rest) ← readPairs readItem (text.length + 1) text
    let entries ← Entries.ofPairs? pairs
    pure (.inline entries, rest)

/-- Read a value that holds no other values. -/
def readScalar : Reader Item := fun text =>
  match text with
  | '"' :: _ => (readString text).map fun (s, rest) => (.text s, rest)
  | '\'' :: _ => (readString text).map fun (s, rest) => (.text s, rest)
  | 't' :: 'r' :: 'u' :: 'e' :: rest => some (.boolean true, rest)
  | 'f' :: 'a' :: 'l' :: 's' :: 'e' :: rest => some (.boolean false, rest)
  | _ => readNumeric text

/-- Read a value in which arrays and inline tables nest `depth` deep at most. -/
def readItem : Nat → Reader Item
  | depth + 1, '[' :: rest =>
    (readElements (readItem depth) (rest.length + 1) rest).map fun (items, rest) =>
      (.array items, rest)
  | depth + 1, '\x7b' :: rest => readInline (readItem depth) rest
  | _, text => readScalar text

/-- What a line of a document says. -/
inductive Statement where
  /-- An item under a key, in the table opened last. -/
  | pair (path : List String) (key : String) (item : Item)
  /-- A table is opened. -/
  | table (path : List String) (key : String)
  /-- Another table of one name is opened. -/
  | tables (path : List String) (key : String)
  deriving Repr

/-- Read a statement up to the end of its line. -/
def readStatement : Reader Statement := fun text =>
  match text with
  | '[' :: '[' :: rest => do
    let ((path, key), rest) ← readKey rest
    let rest ← expect? ']' rest
    let rest ← expect? ']' rest
    let rest ← endLine? rest
    pure (.tables path key, rest)
  | '[' :: rest => do
    let ((path, key), rest) ← readKey rest
    let rest ← expect? ']' rest
    let rest ← endLine? rest
    pure (.table path key, rest)
  | _ => do
    let ((path, key, item), rest) ← readPair (readItem (nestingLimit - 1)) text
    let rest ← endLine? rest
    pure (.pair path key item, rest)

/-- Read statements up to the end of the text, with blank lines and comments between them. -/
def readStatements : Nat → List Char → Option (List Statement)
  | 0, _ => none
  | bound + 1, text =>
    match skipSpaces text with
    | [] => some []
    | '#' :: rest => (endLine? ('#' :: rest)).bind (readStatements bound)
    | '\n' :: rest => readStatements bound rest
    | '\r' :: rest => (newline? ('\r' :: rest)).bind (readStatements bound)
    | text => do
      let (statement, rest) ← readStatement text
      let statements ← readStatements bound rest
      pure (statement :: statements)

/-- Build a document on from statements; `here` leads to the table opened last. -/
def buildDocument (here : List String) (entries : Entries) : List Statement → Option Entries
  | [] => some entries
  | .pair path key item :: rest => do
    let entries ← entries.changeAt? (Entries.addDotted? key item path) here
    buildDocument here entries rest
  | .table path key :: rest => do
    let entries ← entries.changeAt? (Entries.define? key) path
    buildDocument (path ++ [key]) entries rest
  | .tables path key :: rest => do
    let entries ← entries.changeAt? (Entries.append? key) path
    buildDocument (path ++ [key]) entries rest

/-- The text without a byte order mark in front. -/
def dropMark : List Char → List Char
  | c :: rest => if c.toNat = 0xFEFF then rest else c :: rest
  | [] => []

/-- The table that a document denotes, if it is well formed. -/
def read? (text : List Char) : Option Entries := do
  let statements ← readStatements (text.length + 1) (dropMark text)
  buildDocument [] [] statements

end PathCensus.Toml
