import ViewTemplate.Element
import ViewTemplate.Expression.Filter
import ViewTemplate.Text.Quoted

/-! # Taking and adding attributes

An attribute that has been taken is not classified again, but its value can still be looked up.
Whatever is added to an element makes it no longer plain.
-/

namespace ViewTemplate.Element

/-- Takes an attribute off the pending ones and gives its value. -/
def take (el : Element) (name : String) : Option String × Element :=
  let pending :=
    match el.attribute? name with
    | some _ => el.pending.eraseP fun a => a.name == name
    | none => el.pending
  (el.attribute? name, { el with pending })

/-- Takes an attribute and forgets its value. -/
def takeAway (el : Element) (name : String) : Option String × Element :=
  let (value, el) := el.take name
  (value, { el with written := el.written.erase name })

/-- Takes the first pending attribute whose name passes a test. -/
def takeFirst (el : Element) (test : String → Bool) : Option Attribute × Element :=
  (el.pending.find? fun a => test a.name,
    { el with pending := el.pending.eraseP fun a => test a.name })

/-- Takes the binding of a name, in its short or long form, as an expression. -/
def takeBinding (el : Element) (name : String) : Option String × Element :=
  let (short, el) := el.take (":" ++ name)
  let short := short.filter (· ≠ "")
  let (long, rest) := el.take ("v-bind:" ++ name)
  ((short.or long).map Filter.resolve,
    { el with pending := if short.isSome then el.pending else rest.pending })

/-- Takes the binding of a name, or else the attribute itself as a quoted text. -/
def takeBindingOrText (el : Element) (name : String) : Option String × Element :=
  let (binding, el) := el.takeBinding name
  let (value, rest) := el.take name
  (binding.or (value.map Text.quote),
    { el with pending := if binding.isSome then el.pending else rest.pending })

/-- The binding of a name, or else the attribute itself, as it stands in the source. -/
def rawBinding? (el : Element) (name : String) : Option Attribute :=
  ((el.source.get? (":" ++ name)).or (el.source.get? ("v-bind:" ++ name))).or (el.source.get? name)

/-- Place of a binding in the source. -/
def bindingRange (el : Element) (name : String) : Option Range :=
  (el.rawBinding? name).bind (·.range)

def addProperty (el : Element) (name value : String) (range : Option Range) (dynamic : Bool) :
    Element :=
  { el with properties := el.properties ++ [{ name, value, dynamic, range }], plain := false }

def addAttribute (el : Element) (name value : String) (range : Option Range) (dynamic : Bool) :
    Element :=
  let added : Attribute := { name, value, dynamic, range }
  { el with
    attributes := if dynamic then el.attributes else el.attributes ++ [added]
    dynamicAttributes := if dynamic then el.dynamicAttributes ++ [added] else el.dynamicAttributes
    plain := false }

/-- Adds an attribute as if it had been written in the template. -/
def addWritten (el : Element) (name value : String) (range : Option Range) : Element :=
  { el with
    written := el.written.insert name value, pending := el.pending ++ [{ name, value, range }] }

def addDirective (el : Element) (directive : Directive) : Element :=
  { el with directives := el.directives ++ [directive], plain := false }

end ViewTemplate.Element
