import ViewTemplate.Text.Cut

/-! # Balanced code

Brackets outside string literals have to pair up before code is made into a function. The check runs
from the left with the brackets still open.
-/

namespace ViewTemplate.Balanced

/-- Why code is not balanced. -/
inductive Fault
  | unexpected (bracket : Char) (offset : Nat)
  | unterminated (quote : Char)
  | unclosed (bracket : Char)
  deriving DecidableEq, Repr

def Fault.message : Fault → String
  | .unexpected bracket offset =>
    "unexpected `" ++ bracket.toString ++ "` at " ++ toString offset
  | .unterminated quote => "unterminated string literal starting with " ++ quote.toString
  | .unclosed bracket => "unclosed `" ++ bracket.toString ++ "`"

/-- Where the check stands. -/
inductive Mode
  | code
  | literal (quote : Char) (escaped : Bool)
  deriving DecidableEq, Repr

def isQuote (c : Char) : Bool := c == '"' || c == '\x27' || c == '\x60'

def isOpening (c : Char) : Bool := c == '(' || c == '[' || c == '\x7b'

/-- The opening bracket of a closing one. -/
def partner? (c : Char) : Option Char :=
  if c = ')' then some '(' else if c = ']' then some '[' else if c = '\x7d' then some '\x7b' else none

/-- Checks the rest of the code, given its offset and the open brackets, innermost first. -/
def check (offset : Nat) (stack : List Char) : Mode → List Char → Except Fault Unit
  | .literal quote _, [] => .error (.unterminated quote)
  | .code, [] =>
    match stack with
    | [] => .ok ()
    | bracket :: _ => .error (.unclosed bracket)
  | .literal quote escaped, c :: s =>
    let mode :=
      if escaped then .literal quote false
      else if c = '\\' then .literal quote true
      else if c = quote then .code
      else .literal quote false
    check (offset + c.utf8Size) stack mode s
  | .code, c :: s =>
    let next := offset + c.utf8Size
    if isQuote c then check next stack (.literal c false) s
    else if isOpening c then check next (c :: stack) .code s
    else
      match partner? c with
      | none => check next stack .code s
      | some partner =>
        match stack with
        | top :: below =>
          if top = partner then check next below .code s else .error (.unexpected c offset)
        | [] => .error (.unexpected c offset)

/-- The fault of a piece of code, if it has one. -/
def fault? (code : String) : Option Fault :=
  match check 0 [] .code code.toList with
  | .ok _ => none
  | .error fault => some fault

end ViewTemplate.Balanced
