import ViewTemplate.Keyed
import ViewTemplate.Text.Blank
import ViewTemplate.Text.Cut

/-! # Style declarations

Inline style text is a list of declarations. A semicolon separates two of them unless the next
parenthesis after it closes one.
-/

namespace ViewTemplate.Declarations

/-- Whether the next parenthesis of the text is a closing one. -/
def closesNext (s : List Char) : Bool :=
  (s.find? fun c => c == '(' || c == ')') == some ')'

/-- Cuts at the separating semicolons. -/
def pieces : List Char → List (List Char)
  | [] => [[]]
  | c :: s =>
    match pieces s with
    | [] => [[c]]
    | piece :: others =>
      if c = ';' && !closesNext s then [] :: piece :: others else (c :: piece) :: others

/-- Property and value of a declaration: what stands before and after its first colon. -/
def property? (piece : List Char) : Option (String × String) :=
  match Text.cut? [':'] piece with
  | some (name, value) =>
    if value.isEmpty then none
    else some (String.ofList (Text.trim name), String.ofList (Text.trim value))
  | none => none

/-- The declared values by property; a later declaration replaces an earlier one. -/
def read (style : String) : Keyed String :=
  Keyed.ofList ((pieces style.toList).filterMap property?)

end ViewTemplate.Declarations
