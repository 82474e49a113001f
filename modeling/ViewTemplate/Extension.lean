import ViewTemplate.Element.Attributes
import ViewTemplate.Expression.Interpolation
import ViewTemplate.Platform
import ViewTemplate.Reported

/-! # Extensions of the compiler

An extension takes part in the processing of elements and in the data written for them. A directive
rule decides what a directive means when the data of its element are written. Both may report, and
neither keeps anything between two elements.
-/

namespace ViewTemplate

/-- What extensions and rules may ask about a compilation. -/
structure Surroundings where
  platform : Platform := .bare
  delimiters : Option Delimiters := none

/-- A part of the compiler that handles some attributes of elements. -/
structure Extension where
  name : String
  /-- Element keys that it sets and that leave an element static. -/
  staticKeys : List String := []
  /-- Runs at the start tag, before directives are looked for. -/
  atStart : Surroundings → Element → Reported Element := fun _ el => pure el
  /-- Runs at the end tag, before the attributes are classified. -/
  atEnd : Surroundings → Element → Reported Element := fun _ el => pure el
  /-- Runs when the element has its place in the tree. -/
  afterPlacement : Surroundings → Element → Reported Element := fun _ el => pure el
  /-- Entries for the data object of an element. -/
  data : Element → List String := fun _ => []
  /-- What to write before and after the code of an element. -/
  around : Element → String × String := fun _ => ("", "")

namespace Extension

/-- Runs a hook of each extension, from the first to the last. -/
def runAll (hook : Extension → Surroundings → Element → Reported Element)
    (extensions : List Extension) (surroundings : Surroundings) (el : Element) : Reported Element :=
  extensions.foldlM (fun el extension => hook extension surroundings el) el

/-- Reads a literal attribute, and notes the code for it unless it is empty. An interpolation in it is
reported. -/
def readStatic (name : String) (cause : String → Cause) (code : String → String)
    (note : Option String → Element → Element) (surroundings : Surroundings) (el : Element) :
    Reported Element := do
  let (value, el) := el.take name
  value.forM fun value =>
    Reported.onlyIf (Interpolation.read? surroundings.delimiters value).isSome
      (Reported.error (cause value) (el.rangeOf name))
  pure (note ((value.filter (· ≠ "")).map code) el)

/-- Reads a bound attribute. -/
def readBound (name : String) (note : Option String → Element → Element) (el : Element) : Element :=
  let (binding, el) := el.takeBinding name
  note binding el

end Extension

/-- What a directive does to its element, and whether it is also left to the runtime. -/
abbrev Rule := Surroundings → Element → Directive → Reported (Element × Bool)

/-- Rules by the names of their directives. -/
abbrev Rules := Keyed Rule

/-- Rules on top of others; of two for one name the upper one holds. -/
def Rules.layered (lower upper : Rules) : Rules :=
  upper.entries.foldl (fun rules e => rules.insert e.1 e.2) lower

end ViewTemplate
