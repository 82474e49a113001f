import ViewTemplate.Text.Blank
import ViewTemplate.Text.Cut

/-! # Model paths

A path that a value is assigned to is cut before its last segment, so that the assignment can go
through the object that holds it. Brackets inside quotes or inside other brackets do not start a
segment.
-/

namespace ViewTemplate.Path

/-- Where the scan for brackets stands. -/
inductive Mode
  | outside
  | inside (depth : Nat)
  | quotedOutside (quote : Char)
  | quotedInside (quote : Char) (depth : Nat)
  deriving DecidableEq, Repr

def isQuote (c : Char) : Bool := c == '"' || c == '\x27'

/-- Positions of the last outermost bracket and of the end of the last one that was closed. -/
structure Brackets where
  opened : Nat := 0
  closed : Nat := 0
  deriving DecidableEq, Repr

/-- Finds the last outermost bracket; `i` is the position of the first character given. -/
def brackets (i : Nat) (found : Brackets) : Mode → List Char → Brackets
  | _, [] => found
  | .outside, c :: s =>
    if isQuote c then brackets (i + 1) found (.quotedOutside c) s
    else if c = '[' then brackets (i + 1) { found with opened := i } (.inside 1) s
    else brackets (i + 1) found .outside s
  | .inside depth, c :: s =>
    if isQuote c then brackets (i + 1) found (.quotedInside c depth) s
    else if c = '[' then brackets (i + 1) found (.inside (depth + 1)) s
    else if c = ']' then
      if depth = 1 then brackets (i + 1) { found with closed := i } .outside s
      else brackets (i + 1) found (.inside (depth - 1)) s
    else brackets (i + 1) found (.inside depth) s
  | .quotedOutside q, c :: s => brackets (i + 1) found (if c = q then .outside else .quotedOutside q) s
  | .quotedInside q depth, c :: s =>
    brackets (i + 1) found (if c = q then .inside depth else .quotedInside q depth) s

/-- The path before its last segment and the key of that segment. The first character never opens
one. -/
def splitChars (path : List Char) : List Char × Option (List Char) :=
  let path := Text.trim path
  if path.contains '[' && path.getLast? == some ']' then
    let found := brackets 1 {} .outside (path.drop 1)
    (path.take found.opened, some ((path.take found.closed).drop (found.opened + 1)))
  else
    match Text.cutLast? '.' path with
    | some (base, name) => (base, some ('"' :: name ++ ['"']))
    | none => (path, none)

def split (path : String) : String × Option String :=
  let (base, key) := splitChars path.toList
  (String.ofList base, key.map String.ofList)

/-- Source of the assignment of a value to a path. -/
def assign (path value : String) : String :=
  match split path with
  | (base, some key) => "$set(" ++ base ++ ", " ++ key ++ ", " ++ value ++ ")"
  | (_, none) => path ++ "=" ++ value

end ViewTemplate.Path
