import ViewTemplate.Text.WordTable

/-! # Word characters

A word is made of letters, marks, digits and connectors. ASCII is decided by rule, all else by the
table of runs.
-/

namespace ViewTemplate.Text

/-- Whether a number lies in one of the runs, counted from where the last one ended. -/
def inRuns : List Nat → Nat → Bool
  | gap :: length :: runs, n => gap ≤ n && (n - gap < length || inRuns runs (n - gap - length))
  | _, _ => false

def isAsciiLetter (c : Char) : Bool :=
  ('a' ≤ c && c ≤ 'z') || ('A' ≤ c && c ≤ 'Z')

def isAsciiDigit (c : Char) : Bool :=
  '0' ≤ c && c ≤ '9'

def isAsciiUpper (c : Char) : Bool :=
  'A' ≤ c && c ≤ 'Z'

/-- ASCII letters, digits and the underscore. -/
def isAsciiWord (c : Char) : Bool :=
  isAsciiLetter c || isAsciiDigit c || c == '_'

/-- Whether a word may hold the character. -/
def isWord (c : Char) : Bool :=
  if c.toNat < 128 then isAsciiWord c else inRuns wordRuns c.toNat

/-- Decimal digits of every script. -/
def isDigit (c : Char) : Bool :=
  if c.toNat < 128 then isAsciiDigit c else inRuns digitRuns c.toNat

end ViewTemplate.Text
