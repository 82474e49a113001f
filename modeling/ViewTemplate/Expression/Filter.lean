import ViewTemplate.Text.Blank
import ViewTemplate.Text.Cut
import ViewTemplate.Text.Word

/-! # Filters

`a | f(x) | g` applies the filters `f` and `g` to the value of `a`. A bar separates filters if it
stands alone, outside literals and outside brackets. `pieces` cuts an expression at its separators,
`resolve` nests the calls.
-/

namespace ViewTemplate.Filter

/-- Where the scan stands: in code, or in a literal that ends at a character. -/
inductive Mode
  | code
  | literal (close : Char)
  deriving DecidableEq, Repr

/-- What the characters passed so far say about the next one. -/
structure Scan where
  mode : Mode := .code
  curly : Int := 0
  square : Int := 0
  paren : Int := 0
  /-- The last character. -/
  prev : Option Char := none
  /-- The last character that is no space. -/
  solid : Option Char := none
  deriving DecidableEq, Repr

/-- Characters after which a slash divides; after any other it opens a regular expression. -/
def dividesAfter (c : Char) : Bool :=
  Text.isAsciiLetter c || Text.isAsciiDigit c || ['_', ')', '.', '+', '-', '$', ']'].contains c

namespace Scan

def atTop (st : Scan) : Bool :=
  st.curly == 0 && st.square == 0 && st.paren == 0

/-- Whether a character, followed by `next`, separates filters. -/
def separates (st : Scan) (c : Char) (next : Option Char) : Bool :=
  st.mode == .code && c == '|' && next != some '|' && st.prev != some '|' && st.atTop

/-- The scan after a character of code. -/
def passCode (st : Scan) (c : Char) : Scan :=
  match c with
  | '"' => { st with mode := .literal c }
  | '\x27' => { st with mode := .literal c }
  | '\x60' => { st with mode := .literal c }
  | '(' => { st with paren := st.paren + 1 }
  | ')' => { st with paren := st.paren - 1 }
  | '[' => { st with square := st.square + 1 }
  | ']' => { st with square := st.square - 1 }
  | '\x7b' => { st with curly := st.curly + 1 }
  | '\x7d' => { st with curly := st.curly - 1 }
  | '/' => if st.solid.any dividesAfter then st else { st with mode := .literal '/' }
  | _ => st

/-- The scan after a character that separates nothing. A backslash before the closing character
keeps a literal open. -/
def pass (st : Scan) (c : Char) : Scan :=
  match st.mode with
  | .literal close =>
    if c = close && st.prev != some '\\' then { st with mode := .code } else st
  | .code => st.passCode c

/-- Records a character as the last one. -/
def seen (st : Scan) (c : Char) : Scan :=
  { st with prev := some c, solid := if c = ' ' then st.solid else some c }

end Scan

/-- The text up to the first separator and the pieces after it. -/
def pieces (st : Scan) : List Char → List Char × List (List Char)
  | [] => ([], [])
  | c :: s =>
    if st.separates c s.head? then
      let (first, others) := pieces (st.seen c) s
      ([], first :: others)
    else
      let (first, others) := pieces ((st.pass c).seen c) s
      (c :: first, others)

/-- The call of a filter on an expression; arguments written with the filter follow the expression. -/
def call (expression filter : List Char) : List Char :=
  match Text.cut? ['('] filter with
  | none => "_f(\"".toList ++ filter ++ "\")(".toList ++ expression ++ [')']
  | some (name, arguments) =>
    "_f(\"".toList ++ name ++ "\")(".toList ++ expression ++
      (if arguments = [')'] then arguments else ',' :: arguments)

def resolveChars (expression : List Char) : List Char :=
  let (first, filters) := pieces {} expression
  filters.foldl (fun e filter => call e (Text.trim filter)) (Text.trim first)

/-- Replaces the filters of an expression by calls. -/
def resolve : String → String := Text.onChars resolveChars

end ViewTemplate.Filter
