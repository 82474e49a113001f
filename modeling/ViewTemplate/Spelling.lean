import ViewTemplate.Element
import ViewTemplate.Text.Blank
import ViewTemplate.Text.Cut

/-! # How directives are spelled

The name of an attribute says whether it is a directive. A binding, a listener and a slot have a long
and a short spelling; every other directive is a name after `v-`, possibly with an argument after a
colon. Modifiers follow, each after a dot, and an argument in brackets is an expression.
-/

namespace ViewTemplate.Spelling

/-- What follows the first of the marks that a name starts with. -/
def afterOneOf? (marks : List String) (name : String) : Option String :=
  (marks.findSome? fun mark => Text.after? mark.toList name.toList).map String.ofList

def afterDirective? : String → Option String := afterOneOf? ["v-", "@", ":", "#"]

def isDirective (name : String) : Bool := (afterDirective? name).isSome

def afterBinding? : String → Option String := afterOneOf? [":", "v-bind:"]

def afterListener? : String → Option String := afterOneOf? ["@", "v-on:"]

/-- The name of the slot that an attribute declares, empty where it is left out. -/
def afterSlot? (name : String) : Option String :=
  if name = "v-slot" then some "" else afterOneOf? ["v-slot:", "#"] name

def isSlot (name : String) : Bool := (afterSlot? name).isSome

/-- An argument without its brackets, and whether it has them. -/
def argument (name : String) : String × Bool :=
  match name.toList with
  | '[' :: rest =>
    if rest.getLast? = some ']' then (String.ofList rest.dropLast, true) else (name, false)
  | _ => (name, false)

/-- Cuts off the modifiers of a name without brackets. A dot that no name follows stays. -/
def cutModifiers (s : List Char) : List Char × List (List Char) :=
  match Text.splitOn '.' s with
  | [] => (s, [])
  | first :: pieces =>
    (first ++ List.replicate (pieces.countP List.isEmpty) '.', pieces.filter fun p => !p.isEmpty)

/-- The bracketed start of a name, up to its last bracket, and the rest. -/
def cutBrackets (s : List Char) : List Char × List Char :=
  match Text.cutLast? ']' s with
  | some (a, b) => (a ++ [']'], b)
  | none => ([], s)

/-- A name without its modifiers, and the modifiers, if there are any. Dots before a closing bracket
belong to the name. -/
def splitModifiers (name : String) : String × Option Modifiers :=
  let (front, tail) := cutBrackets name.toList
  let (stripped, modifiers) := cutModifiers tail
  if modifiers.isEmpty then (name, none)
  else (String.ofList (front ++ stripped), some (Modifiers.ofNames (modifiers.map String.ofList)))

/-- A directive name and its argument; a colon that nothing follows belongs to the name. -/
def splitArgument (name : String) : String × Option String :=
  match Text.cut? [':'] name.toList with
  | some (before, after) =>
    if after.isEmpty then (name, none) else (String.ofList before, some (String.ofList after))
  | none => (name, none)

/-- What an attribute is for, by its name. -/
inductive Role
  | literal
  | binding (name : String) (dynamic : Bool) (modifiers : Option Modifiers)
  | listener (name : String) (dynamic : Bool) (modifiers : Option Modifiers)
  | directive (name : String) (argument : Option (String × Bool)) (modifiers : Option Modifiers)
  deriving DecidableEq, Inhabited

/-- The role that the name of an attribute gives it. -/
def role (rawName : String) : Role :=
  if isDirective rawName then
    let (name, modifiers) := splitModifiers rawName
    match afterBinding? name with
    | some name => let (name, dynamic) := argument name; .binding name dynamic modifiers
    | none =>
      match afterListener? name with
      | some name => let (name, dynamic) := argument name; .listener name dynamic modifiers
      | none =>
        let (name, arg) := splitArgument ((afterDirective? name).getD name)
        .directive name (arg.map argument) modifiers
  else .literal

end ViewTemplate.Spelling
