import ViewTemplate.Element.Attributes
import ViewTemplate.Element.Listeners
import ViewTemplate.Expression.Path
import ViewTemplate.Extension
import ViewTemplate.Spelling
import ViewTemplate.Text.Dashed

/-! # Classification of attributes

The attributes that no other reading has taken become attributes, properties, listeners or directives
of their element, by the role that their names give them.
-/

namespace ViewTemplate.Element

/-- Whether an attribute is set as a property; a component takes all as attributes. -/
def usesProperty (platform : Platform) (el : Element) (name : String) : Bool :=
  el.component.isNone && platform.mustUseProperty el.tag (el.attribute? "type") name

/-- A literal attribute. Muting works as a property only, so it is one as well. -/
def addLiteral (surroundings : Surroundings) (a : Attribute) (el : Element) : Reported Element := do
  Reported.onlyIf (Interpolation.read? surroundings.delimiters a.value).isSome
    (Reported.error (.interpolatedAttribute a.name a.value) a.range)
  let el := el.addAttribute a.name (Text.quote a.value) a.range false
  if a.name = "muted" && usesProperty surroundings.platform el a.name then
    pure (el.addProperty a.name "true" a.range false)
  else pure el

/-- The name of a bound property or attribute after its modifiers. -/
def boundName (name : String) (dynamic : Bool) (modifiers : Option Modifiers) : String :=
  if dynamic then name
  else
    let name :=
      if hasModifier modifiers "prop" then
        let camel := Text.camelize name
        if camel = "innerHtml" then "innerHTML" else camel
      else name
    if hasModifier modifiers "camel" then Text.camelize name else name

/-- The events by which a component asks for a new value of a binding. -/
def updateEvents (name : String) (dynamic : Bool) : List String :=
  if dynamic then ["\"update:\"+(" ++ name ++ ")"]
  else
    let camel := Text.camelize name
    let dashed := Text.hyphenate name
    ("update:" ++ camel) :: if dashed ≠ camel then ["update:" ++ dashed] else []

/-- Registers the listeners that write a binding back. -/
def addSync (name value : String) (dynamic : Bool) (range : Option Range) (el : Element) : Element :=
  (updateEvents name dynamic).foldl
    (fun el event =>
      el.addListener { name := event, value := Path.assign value "$event", range, dynamic }) el

/-- A bound attribute or property. -/
def addBinding (platform : Platform) (name : String) (dynamic : Bool) (modifiers : Option Modifiers)
    (a : Attribute) (el : Element) : Reported Element := do
  let value := Filter.resolve a.value
  Reported.onlyIf (Text.allBlank value.toList) (Reported.error (.emptyBinding name) a.range)
  let name := boundName name dynamic modifiers
  let el := if hasModifier modifiers "sync" then el.addSync name value dynamic a.range else el
  if hasModifier modifiers "prop" || usesProperty platform el name then
    pure (el.addProperty name value a.range dynamic)
  else pure (el.addAttribute name value a.range dynamic)

/-- A directive that has no meaning of its own here. -/
def addGeneral (loopItems : List String) (name : String) (argument : Option (String × Bool))
    (modifiers : Option Modifiers) (a : Attribute) (el : Element) : Reported Element := do
  let el := el.addDirective {
    name, rawName := a.name, value := a.value, argument := argument.map Prod.fst
    dynamicArgument := argument.any Prod.snd, modifiers, range := a.range }
  Reported.onlyIf (name = "model" && loopItems.contains a.value)
    (Reported.error (.modelOnLoopAlias el.tag a.value) (el.rangeOf "v-model"))
  pure el

/-- Adds an attribute by its role. -/
def classify (surroundings : Surroundings) (loopItems : List String) (el : Element)
    (a : Attribute) : Reported Element :=
  match Spelling.role a.name with
  | .literal => el.addLiteral surroundings a
  | .binding name dynamic modifiers =>
    { el with hasBindings := true }.addBinding surroundings.platform name dynamic modifiers a
  | .listener name dynamic modifiers =>
    { el with hasBindings := true }.addListenerChecked
      { name, value := a.value, modifiers, range := a.range, dynamic }
  | .directive name argument modifiers =>
    { el with hasBindings := true }.addGeneral loopItems name argument modifiers a

/-- Classifies all pending attributes in order. -/
def classifyAll (surroundings : Surroundings) (loopItems : List String) (el : Element) :
    Reported Element :=
  el.pending.foldlM (classify surroundings loopItems) el

end ViewTemplate.Element
