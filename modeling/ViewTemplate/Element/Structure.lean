import ViewTemplate.Element.Attributes
import ViewTemplate.Platform
import ViewTemplate.Reported

/-! # Structural directives

Loops, choices and one-time rendering are read at the start tag. Inside a verbatim region nothing is
read, and every attribute is kept as a literal.
-/

namespace ViewTemplate.Element

/-- Reads the mark that starts a verbatim region. -/
def readVerbatim (el : Element) : Element :=
  let (mark, el) := el.take "v-pre"
  { el with pre := mark.isSome || el.pre }

/-- Keeps the pending attributes as literals. -/
def keepLiterals (el : Element) : Element :=
  let literals := el.pending.map fun a =>
    { name := a.name, value := Text.quote a.value, range := a.range }
  { el with
    attributes := if el.pending.isEmpty then el.attributes else literals
    plain := el.plain || (el.pending.isEmpty && !el.pre) }

/-- Reads a loop clause. -/
def readLoop (el : Element) : Reported Element := do
  let (clause, el) := el.take "v-for"
  let clause := clause.filter (· ≠ "")
  clause.forM fun clause =>
    Reported.onlyIf (Loop.read? clause).isNone
      (Reported.error (.invalidLoop clause) (el.rangeOf "v-for"))
  pure { el with loop := (clause.bind Loop.read?).or el.loop }

/-- Reads the marks of a later branch. -/
def readBranch (el : Element) : Element :=
  let (last, el) := el.take "v-else"
  let el := { el with isElse := last.isSome }
  let (guard, el) := el.take "v-else-if"
  { el with elseIf := guard.filter (· ≠ "") }

/-- Reads the guard that starts a choice, or else the marks of a later branch. -/
def readChoice (el : Element) : Element :=
  let (guard, el) := el.take "v-if"
  match guard.filter (· ≠ "") with
  | some guard => { el with choice := some { guard } }
  | none => el.readBranch

/-- Reads the mark of one-time rendering. -/
def readOnce (el : Element) : Element :=
  let (mark, el) := el.take "v-once"
  { el with once := mark.isSome || el.once }

/-- Reads all structural directives. -/
def readStructure (el : Element) : Reported Element := do
  let el ← el.readLoop
  pure el.readChoice.readOnce

/-- Whether the element may stand for a component: its own tag, or the one it asks for, is not known
to the platform. -/
def mayBeComponent (platform : Platform) (el : Element) : Bool :=
  el.component.isSome || el.hasAttribute ":is" || el.hasAttribute "v-bind:is" ||
    !(match el.attribute? "is" with
      | some is => platform.isReserved is
      | none => platform.isReserved el.tag)

/-- Whether the element is a component once its attributes are read. -/
def isComponent (platform : Platform) (el : Element) : Bool :=
  el.component.isSome || !platform.isReserved el.tag

/-- Whether the element acts on the page beyond the template. -/
def hasSideEffects (el : Element) : Bool :=
  el.tag == "style" ||
    (el.tag == "script" &&
      match el.attribute? "type" with
      | some type => type == "" || type == "text/javascript"
      | none => true)

/-- Whether references in the text of the element are left as they are. -/
def keepsReferences (el : Element) : Bool := el.tag == "script" || el.tag == "style"

end ViewTemplate.Element
