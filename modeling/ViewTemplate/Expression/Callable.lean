import ViewTemplate.Text.Blank
import ViewTemplate.Text.Cut
import ViewTemplate.Text.Word

/-! # Handler expressions

The value of a listener is a path to a method, a function, a call, or a list of statements. Three
recognisers tell them apart.
-/

namespace ViewTemplate.Callable

def isNameStart (c : Char) : Bool := Text.isAsciiLetter c || c == '_' || c == '$'

def isNameChar (c : Char) : Bool := isNameStart c || Text.isAsciiDigit c

/-- Where the recogniser of method paths stands. -/
inductive PathState
  | start
  | name
  | dot
  | bracket
  | quoted (quote : Char)
  | unquoted
  | digits
  | index
  | closed
  deriving DecidableEq, Repr

/-- One character of a method path: `a.b`, `a['b']`, `a["b"]`, `a[0]` or `a[b]`. -/
def PathState.next? : PathState → Char → Option PathState
  | .start, c => if isNameStart c then some .name else none
  | .name, c =>
    if isNameChar c then some .name
    else if c = '.' then some .dot
    else if c = '[' then some .bracket
    else none
  | .dot, c => if isNameStart c then some .name else none
  | .bracket, c =>
    if c = '"' || c = '\x27' then some (.quoted c)
    else if isNameStart c then some .index
    else if Text.isDigit c then some .digits
    else none
  | .quoted quote, c => some (if c = quote then .unquoted else .quoted quote)
  | .unquoted, c => if c = ']' then some .closed else none
  | .digits, c =>
    if Text.isDigit c then some .digits else if c = ']' then some .closed else none
  | .index, c => if isNameChar c then some .index else if c = ']' then some .closed else none
  | .closed, c => if c = '.' then some .dot else if c = '[' then some .bracket else none

def pathFrom : PathState → List Char → Bool
  | state, [] => state == .name || state == .closed
  | state, c :: s =>
    match state.next? c with
    | some next => pathFrom next s
    | none => false

/-- Whether the text is a path to a method. -/
def isPath (s : List Char) : Bool := pathFrom .start s

/-- What stands before an arrow: a name, or parentheses up to the first closing one. -/
def parameters? : List Char → Option (List Char)
  | '(' :: s => (Text.cut? [')'] s).map Prod.snd
  | s => if (s.takeWhile isNameChar).isEmpty then none else some (s.dropWhile isNameChar)

def isArrow (s : List Char) : Bool :=
  match parameters? s with
  | some rest => Text.startsWith ['=', '>'] (Text.trimStart rest)
  | none => false

/-- The keyword, possibly a name, and an opening parenthesis. -/
def isKeywordFunction (s : List Char) : Bool :=
  match Text.after? "function".toList s with
  | none => false
  | some rest =>
    let inside := Text.trimStart rest
    inside.head? == some '(' ||
      (rest.head?.any Text.isBlank && !(inside.takeWhile isNameChar).isEmpty &&
        (Text.trimStart (inside.dropWhile isNameChar)).head? == some '(')

/-- Whether the text starts with a function. -/
def isFunction (s : List Char) : Bool := isArrow s || isKeywordFunction s

/-- Removes the call at the end: parentheses that hold no closing one, and semicolons. -/
def withoutCall : List Char → List Char
  | [] => []
  | c :: s =>
    let ends := c == '(' && match Text.cut? [')'] s with
      | some (_, rest) => rest.all (· == ';')
      | none => false
    if ends then [] else c :: withoutCall s

/-- Whether the text is a path to a method, or a call of one. -/
def isCall (s : List Char) : Bool := isPath (withoutCall s)

end ViewTemplate.Callable
