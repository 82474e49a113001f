import ViewTemplate.Text.Blank

/-! # Quoted text

A quoted text is a JSON string literal. Generated source also escapes the line and paragraph
separators, which end a line there.
-/

namespace ViewTemplate.Text

/-- The lower-case hexadecimal digit of a number below sixteen. -/
def hexDigit (n : Nat) : Char :=
  if n < 10 then Char.ofNat (48 + n) else Char.ofNat (87 + n)

/-- A control character as `\u` and four hexadecimal digits. -/
def escapeControl (c : Char) : List Char :=
  ['\\', 'u', '0', '0', hexDigit (c.toNat / 16), hexDigit (c.toNat % 16)]

/-- How a character is written between quotes. -/
def escapeChar (c : Char) : List Char :=
  if c = '"' then ['\\', '"']
  else if c = '\\' then ['\\', '\\']
  else if c.toNat = 8 then ['\\', 'b']
  else if c.toNat = 9 then ['\\', 't']
  else if c.toNat = 10 then ['\\', 'n']
  else if c.toNat = 12 then ['\\', 'f']
  else if c.toNat = 13 then ['\\', 'r']
  else if c.toNat < 0x20 then escapeControl c
  else [c]

def quoteChars (s : List Char) : List Char :=
  '"' :: s.flatMap escapeChar ++ ['"']

/-- Quotes a text as a JSON string literal. -/
def quote : String → String := onChars quoteChars

/-- Escapes the separators U+2028 and U+2029. -/
def escapeSeparatorsChars (s : List Char) : List Char :=
  s.flatMap fun c =>
    if c.toNat = 0x2028 then ['\\', 'u', '2', '0', '2', '8']
    else if c.toNat = 0x2029 then ['\\', 'u', '2', '0', '2', '9']
    else [c]

def escapeSeparators : String → String := onChars escapeSeparatorsChars

/-- A string literal that generated source may hold. -/
def sourceLiteral (s : String) : String :=
  escapeSeparators (quote s)

end ViewTemplate.Text
