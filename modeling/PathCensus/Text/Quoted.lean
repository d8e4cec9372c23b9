import PathCensus.Text.Hidden

/-!
# Quoted text

A text between double quotes in which every character can be seen: quotes and backslashes are
escaped, four controls have names, and all that is hidden is written by its code point.
-/

namespace PathCensus.Text

/-- A character spelled by its code point, in lower case and without leading zeros. -/
def spellCode (c : Char) : List Char :=
  "\\u\x7b".toList ++ Nat.toDigits 16 c.toNat ++ ['\x7d']

/-- One character inside quotes. -/
def spell (c : Char) : List Char :=
  if c = '"' then ['\\', '"']
  else if c = '\\' then ['\\', '\\']
  else if c = '\n' then ['\\', 'n']
  else if c = '\r' then ['\\', 'r']
  else if c = '\t' then ['\\', 't']
  else if c.toNat = 0 then ['\\', '0']
  else if isHidden c then spellCode c
  else [c]

/-- The text in quotes. -/
def quoteChars (text : List Char) : String :=
  String.ofList ('"' :: text.flatMap spell ++ ['"'])

/-- The text in quotes. -/
def quote (text : String) : String :=
  quoteChars text.toList

end PathCensus.Text
