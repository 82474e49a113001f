import ViewTemplate.Element.Structure
import ViewTemplate.Spelling

/-! # Slots

An element can be content for a slot of the component around it, by attributes or by a slot
directive; a slot directive on a component itself makes its children the content of one slot. An
outlet is where a component puts the content of a slot.
-/

namespace ViewTemplate.Element

/-- Stands for the parameters of a slot that takes none. -/
def noScope : String := "_empty_"

/-- The name expression of the default slot. -/
def defaultSlot : String := "\"default\""

/-- A slot that a component fills with its children. -/
structure SlotUse where
  name : String
  dynamic : Bool
  scope : String
  deriving DecidableEq, Repr, Inhabited

/-- Reads the scope of a template, by either attribute. -/
def readTemplateScope (el : Element) : Reported Element := do
  let (old, el) := el.take "scope"
  let old := old.filter (· ≠ "")
  Reported.onlyIf old.isSome (Reported.tip .slotAttributeScope (el.rangeOf "scope"))
  let (scope, rest) := el.take "slot-scope"
  pure { el with
    slotScope := old.or (scope.filter (· ≠ ""))
    pending := if old.isSome then el.pending else rest.pending }

/-- Reads the scope of an element that is not a template. -/
def readElementScope (el : Element) : Reported Element := do
  let (scope, el) := el.take "slot-scope"
  Reported.onlyIf (scope.isSome && el.hasAttribute "v-for")
    (Reported.tip (.ambiguousScopeAndLoop el.tag) (el.rangeOf "slot-scope"))
  pure { el with slotScope := if scope.isSome then scope.filter (· ≠ "") else el.slotScope }

def readScope (el : Element) : Reported Element :=
  if el.tag = "template" then el.readTemplateScope else el.readElementScope

/-- Reads the `slot` attribute. It is kept as an attribute where the platform may need it. -/
def readSlotTarget (el : Element) : Element :=
  let (target, el) := el.takeBindingOrText "slot"
  match target.filter (· ≠ "") with
  | none => el
  | some target =>
    let el :=
      { el with
        slotTarget := some (if target = "\"\"" then defaultSlot else target)
        slotTargetDynamic := el.hasAttribute ":slot" || el.hasAttribute "v-bind:slot" }
    if el.tag ≠ "template" && el.slotScope.isNone then
      el.addAttribute "slot" target (el.bindingRange "slot") false
    else el

/-- The slot that a slot directive names. -/
def slotUse (directive : Attribute) : Reported SlotUse := do
  let scope := if directive.value = "" then noScope else directive.value
  let written := (Spelling.afterSlot? directive.name).getD ""
  let shorthand := Text.startsWith ['#'] directive.name.toList
  Reported.onlyIf (written = "" && shorthand)
    (Reported.error .unnamedSlotShorthand directive.range)
  let (name, dynamic) := Spelling.argument (if written = "" && !shorthand then "default" else written)
  pure { name := if dynamic then name else "\"" ++ name ++ "\"", dynamic, scope }

/-- A slot directive on a template. -/
def readTemplateSlot (parentIsComponent : Option Bool) (directive : Attribute) (el : Element) :
    Reported Element := do
  Reported.onlyIf (el.slotTarget.isSome || el.slotScope.isSome)
    (Reported.error .mixedSlotSyntax el.range)
  Reported.onlyIf (parentIsComponent = some false) (Reported.error .misplacedSlotTemplate el.range)
  let use ← slotUse directive
  pure { el with
    slotTarget := some use.name, slotTargetDynamic := use.dynamic, slotScope := some use.scope }

/-- A slot directive on a component. -/
def readComponentSlot (platform : Platform) (directive : Attribute) (el : Element) :
    Reported SlotUse := do
  Reported.onlyIf (!el.mayBeComponent platform)
    (Reported.error .slotOnPlainElement directive.range)
  Reported.onlyIf (el.slotScope.isSome || el.slotTarget.isSome)
    (Reported.error .mixedSlotSyntax el.range)
  Reported.onlyIf (!el.scopedSlots.isEmpty) (Reported.error .scopeAmbiguity directive.range)
  slotUse directive

/-- Reads the slot directive, if there is one. A component that fills a slot with its children gives
the slot. -/
def readSlotDirective (platform : Platform) (parentIsComponent : Option Bool) (el : Element) :
    Reported (Element × Option SlotUse) := do
  let (directive, el) := el.takeFirst Spelling.isSlot
  match directive with
  | none => pure (el, none)
  | some directive =>
    if el.tag = "template" then
      let el ← el.readTemplateSlot parentIsComponent directive
      pure (el, none)
    else
      let use ← el.readComponentSlot platform directive
      pure (el, some use)

/-- Reads what makes the element content of a slot. -/
def readSlotContent (platform : Platform) (parentIsComponent : Option Bool) (el : Element) :
    Reported (Element × Option SlotUse) := do
  let el ← el.readScope
  el.readSlotTarget.readSlotDirective platform parentIsComponent

/-- The template that holds the children of a component for a slot. -/
def slotContainer (use : SlotUse) (owner : NodeId) (children : List NodeId) : Element :=
  { Element.ofTag "template" [] (some owner) with
    slotTarget := some use.name
    slotTargetDynamic := use.dynamic
    slotScope := some use.scope
    children }

/-- Reads the name of an outlet. -/
def readOutlet (el : Element) : Reported Element := do
  if el.tag = "slot" then
    let (name, el) := el.takeBindingOrText "name"
    Reported.onlyIf el.key.isSome (Reported.error .keyedOutlet (el.bindingRange "key"))
    pure { el with slotName := name }
  else pure el

end ViewTemplate.Element
