import ViewTemplate.Expression.Loop
import ViewTemplate.Keyed
import ViewTemplate.Markup.Attribute

/-! # Elements

An element starts as a tag with attributes. Its directives, bindings, listeners and slots are found
in the attributes while the tree is built; static marks are added afterwards.
-/

namespace ViewTemplate

/-- Number of a node in the table of a tree. -/
abbrev NodeId := Nat

/-- Names set after an argument, in the order in which they are written. -/
abbrev Modifiers := Keyed Unit

namespace Modifiers

def ofNames (names : List String) : Modifiers := Keyed.ofList (names.map fun n => (n, ()))

end Modifiers

/-- Whether a modifier is set. -/
def hasModifier (modifiers : Option Modifiers) (name : String) : Bool :=
  modifiers.any fun m => m.contains name

/-- What runs when an event occurs. -/
structure Handler where
  value : String
  dynamic : Bool := false
  modifiers : Option Modifiers := none
  range : Option Range := none
  deriving DecidableEq, Inhabited

/-- A use of a directive. -/
structure Directive where
  name : String
  rawName : String
  value : String
  argument : Option String := none
  dynamicArgument : Bool := false
  modifiers : Option Modifiers := none
  range : Option Range := none
  deriving DecidableEq, Inhabited

/-- A later branch of a choice: its guard, unless it is the last resort, and its element. -/
structure Branch where
  guard : Option String
  block : NodeId
  deriving DecidableEq, Repr, Inhabited

/-- A choice, held by the element of its first branch. -/
structure Choice where
  guard : String
  others : List Branch := []
  deriving DecidableEq, Repr, Inhabited

/-- Two-way binding of a component. -/
structure ModelBinding where
  value : String
  expression : String
  callback : String
  deriving DecidableEq, Repr, Inhabited

/-- Bindings given by an object. -/
structure BindingObject where
  value : String
  asProperties : Bool
  sync : Bool
  deriving DecidableEq, Repr, Inhabited

/-- An element of a template. -/
structure Element where
  tag : String
  /-- Attributes that are still to be classified, in source order. -/
  pending : List Attribute := []
  /-- Values of the attributes by name; of a repeated name the last. -/
  written : Keyed String := {}
  /-- The attributes as they stand in the source, by name. -/
  source : Keyed Attribute := {}
  parent : Option NodeId := none
  children : List NodeId := []
  range : Option Range := none
  ns : Option String := none
  forbidden : Bool := false
  pre : Bool := false
  /-- Nothing but children distinguishes the element from another of its tag. -/
  plain : Bool := false
  /-- A module has taken over the processing of the element. -/
  processed : Bool := false
  loop : Option Loop := none
  choice : Option Choice := none
  elseIf : Option String := none
  isElse : Bool := false
  once : Bool := false
  key : Option String := none
  ref : Option String := none
  refInLoop : Bool := false
  slotTarget : Option String := none
  slotTargetDynamic : Bool := false
  slotScope : Option String := none
  scopedSlots : Keyed NodeId := {}
  slotName : Option String := none
  component : Option String := none
  inlineTemplate : Bool := false
  hasBindings : Bool := false
  attributes : List Attribute := []
  dynamicAttributes : List Attribute := []
  properties : List Attribute := []
  events : Keyed (List Handler) := {}
  nativeEvents : Keyed (List Handler) := {}
  directives : List Directive := []
  staticClass : Option String := none
  classBinding : Option String := none
  staticStyle : Option String := none
  styleBinding : Option String := none
  model : Option ModelBinding := none
  boundObject : Option BindingObject := none
  listenerObject : Option String := none
  /-- Values that modules keep with the element. -/
  moduleData : Keyed String := {}
  isStatic : Bool := false
  staticRoot : Bool := false
  staticInLoop : Bool := false
  deriving DecidableEq, Inhabited

namespace Element

/-- An element as its start tag gives it. -/
def ofTag (tag : String) (attributes : List Attribute) (parent : Option NodeId) : Element where
  tag
  pending := attributes
  written := Keyed.ofList (attributes.map fun a => (a.name, a.value))
  source := Keyed.ofList (attributes.map fun a => (a.name, a))
  parent

/-- The value of a written attribute. -/
def attribute? (el : Element) (name : String) : Option String := el.written.get? name

def hasAttribute (el : Element) (name : String) : Bool := el.written.contains name

/-- Place of an attribute in the source. -/
def rangeOf (el : Element) (name : String) : Option Range :=
  (el.source.get? name).bind (·.range)

/-- Whether the element is a later branch of a choice. -/
def isBranch (el : Element) : Bool := el.elseIf.isSome || el.isElse

/-- All branches of the choice that the element, with its number, holds. -/
def branches (el : Element) (id : NodeId) : List Branch :=
  match el.choice with
  | some c => ⟨some c.guard, id⟩ :: c.others
  | none => []

/-- The later branches of the choice. -/
def otherBranches (el : Element) : List Branch :=
  match el.choice with
  | some c => c.others
  | none => []

/-- Adds a later branch to the choice that the element holds. -/
def addBranch (branch : Branch) (el : Element) : Element :=
  { el with choice := el.choice.map fun c => { c with others := c.others ++ [branch] } }

/-- Names of the properties that are set, by which static elements are told. Static marks are not
among them, so that marking does not change what is static. -/
def definedKeys (el : Element) : List String :=
  let on (present : Bool) (key : String) : List String := if present then [key] else []
  ["type", "tag", "attrsList", "attrsMap", "rawAttrsMap", "children"] ++
  on el.parent.isSome "parent" ++
  on el.range.isSome "start" ++
  on el.range.isSome "end" ++
  on el.ns.isSome "ns" ++
  on el.forbidden "forbidden" ++
  on el.pre "pre" ++
  on el.plain "plain" ++
  on el.processed "processed" ++
  on el.loop.isSome "for" ++
  on el.loop.isSome "alias" ++
  on (el.loop.any (·.iterator1.isSome)) "iterator1" ++
  on (el.loop.any (·.iterator2.isSome)) "iterator2" ++
  on el.choice.isSome "if" ++
  on el.elseIf.isSome "elseif" ++
  on el.isElse "else" ++
  on el.choice.isSome "ifConditions" ++
  on el.once "once" ++
  on el.key.isSome "key" ++
  on el.ref.isSome "ref" ++
  on el.ref.isSome "refInFor" ++
  on el.slotTarget.isSome "slotTarget" ++
  on el.slotTarget.isSome "slotTargetDynamic" ++
  on (el.slotScope.isSome || el.tag == "template") "slotScope" ++
  on (!el.scopedSlots.isEmpty) "scopedSlots" ++
  on (el.tag == "slot") "slotName" ++
  on el.component.isSome "component" ++
  on el.inlineTemplate "inlineTemplate" ++
  on el.hasBindings "hasBindings" ++
  on (!el.attributes.isEmpty) "attrs" ++
  on (!el.dynamicAttributes.isEmpty) "dynamicAttrs" ++
  on (!el.properties.isEmpty) "props" ++
  on (!el.events.isEmpty) "events" ++
  on (!el.nativeEvents.isEmpty) "nativeEvents" ++
  on (!el.directives.isEmpty) "directives" ++
  on el.staticClass.isSome "staticClass" ++
  on el.classBinding.isSome "classBinding" ++
  on el.staticStyle.isSome "staticStyle" ++
  on el.styleBinding.isSome "styleBinding" ++
  on el.model.isSome "model" ++
  el.moduleData.keys

end Element

end ViewTemplate
