import ViewTemplate.Text.Quoted

/-! # JSON values

A value keeps its numbers as they are written and its object members in order, repeated keys
included. Printing is compact or indented by two spaces.
-/

namespace ViewTemplate

/-- A JSON value. -/
inductive Json
  | null
  | bool (b : Bool)
  | number (digits : String)
  | text (s : String)
  | array (items : List Json)
  | object (members : List (String × Json))
  /-- Well-formed, but some text in it is not a sequence of characters: half a surrogate pair. -/
  | malformed
  deriving Inhabited

namespace Json

def ofNat (n : Nat) : Json := .number (toString n)

/-- A value, or null. -/
def ofOption {α : Type} (f : α → Json) : Option α → Json
  | some a => f a
  | none => .null

/-- A member that is left out where there is no value. -/
def member? {α : Type} (name : String) (f : α → Json) : Option α → List (String × Json)
  | some a => [(name, f a)]
  | none => []

/-- A member that is written only if it is true. -/
def flag (name : String) (b : Bool) : List (String × Json) :=
  if b then [(name, .bool true)] else []

/-- The member of an object, the first of those with a key. -/
def get? (j : Json) (key : String) : Option Json :=
  match j with
  | .object members => members.lookup key
  | _ => none

/-- Where blanks stand in a printed value: before each item or member of a certain depth, and behind
a colon. -/
structure Layout where
  line : Nat → List Char
  gap : List Char

namespace Layout

/-- No blanks at all. -/
def tight : Layout where
  line _ := []
  gap := []

/-- A line for each item or member, indented by two spaces for each level. -/
def indented : Layout where
  line depth := '\n' :: List.replicate (2 * depth) ' '
  gap := [' ']

/-- Pieces in brackets, with commas between them and a line for the closing bracket. -/
def enclosed (opening closing : Char) (line : List Char) (pieces : List (List Char)) : List Char :=
  if pieces.isEmpty then [opening, closing]
  else opening :: [','].intercalate pieces ++ line ++ [closing]

mutual

/-- Prints a value; `depth` is its nesting. -/
def printed (layout : Layout) (depth : Nat) : Json → List Char
  | .null => "null".toList
  | .bool true => "true".toList
  | .bool false => "false".toList
  | .number digits => digits.toList
  | .text s => Text.quoteChars s.toList
  | .array items => enclosed '[' ']' (layout.line depth) (layout.items (depth + 1) items)
  | .object members =>
    enclosed '\x7b' '\x7d' (layout.line depth) (layout.members (depth + 1) members)
  | .malformed => "null".toList

def items (layout : Layout) (depth : Nat) : List Json → List (List Char)
  | [] => []
  | j :: js => (layout.line depth ++ layout.printed depth j) :: layout.items depth js

def members (layout : Layout) (depth : Nat) : List (String × Json) → List (List Char)
  | [] => []
  | (k, j) :: ms =>
    (layout.line depth ++ Text.quoteChars k.toList ++ ':' :: layout.gap ++ layout.printed depth j) ::
      layout.members depth ms

end

end Layout

/-- Prints without blanks. -/
def compact (j : Json) : String := String.ofList (Layout.tight.printed 0 j)

/-- Prints one item or member a line. -/
def pretty (j : Json) : String := String.ofList (Layout.indented.printed 0 j)

end Json

end ViewTemplate
