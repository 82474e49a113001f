import ViewTemplate.Text.Blank
import ViewTemplate.Text.Cut

/-! # Loop clauses

`(item, key, index) in list` names the elements of a list, with one or two iterators. The clause is
cut at the first `in` or `of` between blanks.
-/

namespace ViewTemplate

/-- A loop over `source`. -/
structure Loop where
  source : String
  item : String
  iterator1 : Option String := none
  iterator2 : Option String := none
  deriving DecidableEq, Repr, Inhabited

namespace Loop

/-- What follows a keyword, where a blank comes first. -/
def afterKeyword? (s : List Char) : Option (List Char) := do
  let rest ← (Text.after? ['i', 'n'] s).or (Text.after? ['o', 'f'] s)
  match rest with
  | c :: _ => if Text.isBlank c then some (Text.trimStart rest) else none
  | [] => none

/-- The text before the blanks in front of the keyword and the text after it. -/
def cutKeyword? : List Char → Option (List Char × List Char)
  | [] => none
  | c :: s =>
    match (if Text.isBlank c then afterKeyword? (Text.trimStart s) else none) with
    | some rest => some ([], rest)
    | none => (cutKeyword? s).map fun (a, b) => (c :: a, b)

/-- Drops a parenthesis at the start and one at the end. -/
def stripParens (s : List Char) : List Char :=
  let s := match s with
    | '(' :: r => r
    | r => r
  match s.reverse with
  | ')' :: r => r.reverse
  | _ => s

/-- Characters of an iterator name. -/
def isIteratorChar (c : Char) : Bool :=
  c != ',' && c != '\x7d' && c != ']'

/-- One or two iterators that fill the text after a comma. -/
def iterators? (s : List Char) : Option (List Char × Option (List Char)) :=
  let first := s.takeWhile isIteratorChar
  match s.dropWhile isIteratorChar with
  | [] => some (first, none)
  | ',' :: r => if r.all isIteratorChar then some (first, some r) else none
  | _ => none

/-- The text before the first comma that only iterators follow, and the iterators. -/
def cutIterators? : List Char → Option (List Char × List Char × Option (List Char))
  | [] => none
  | c :: s =>
    match (if c = ',' then iterators? s else none) with
    | some (i, j) => some ([], i, j)
    | none => (cutIterators? s).map fun (a, i, j) => (c :: a, i, j)

/-- Reads a loop clause. -/
def read? (clause : String) : Option Loop := do
  let (binder, source) ← cutKeyword? clause.toList
  let source := String.ofList (Text.trim source)
  let binder := stripParens (Text.trim binder)
  match cutIterators? binder with
  | none => pure { source, item := String.ofList binder }
  | some (item, first, second) =>
    pure {
      source
      item := String.ofList (Text.trim item)
      iterator1 := some (String.ofList (Text.trim first))
      iterator2 := (second.map fun i => String.ofList (Text.trim i)).filter (· ≠ "") }

end Loop

end ViewTemplate
