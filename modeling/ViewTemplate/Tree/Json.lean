import ViewTemplate.Diagnostic.Json
import ViewTemplate.Tree

/-! # Trees as JSON

A tree is written as its table. Members that are absent, false or empty are left out, except where a
reader needs them.
-/

namespace ViewTemplate

def Attribute.toJson (a : Attribute) : Json :=
  .object ([("name", .text a.name), ("value", .text a.value)] ++ Json.flag "dynamic" a.dynamic ++
    Json.member? "range" Range.toJson a.range)

/-- An object with a member for each key. -/
def Keyed.toJson {α : Type} (f : α → Json) (m : Keyed α) : Json :=
  .object (m.entries.map fun e => (e.1, f e.2))

def Modifiers.toJson (m : Modifiers) : Json := Keyed.toJson (fun _ => .bool true) m

def Handler.toJson (h : Handler) : Json :=
  .object ([("value", .text h.value)] ++ Json.flag "dynamic" h.dynamic ++
    Json.member? "modifiers" Modifiers.toJson h.modifiers ++
    Json.member? "range" Range.toJson h.range)

def Directive.toJson (d : Directive) : Json :=
  .object ([("name", .text d.name), ("rawName", .text d.rawName), ("value", .text d.value),
    ("arg", Json.ofOption .text d.argument), ("isDynamicArg", .bool d.dynamicArgument),
    ("modifiers", Json.ofOption Modifiers.toJson d.modifiers)] ++
    Json.member? "range" Range.toJson d.range)

def Branch.toJson (b : Branch) : Json :=
  .object [("exp", Json.ofOption .text b.guard), ("block", .ofNat b.block)]

def ModelBinding.toJson (m : ModelBinding) : Json :=
  .object [("value", .text m.value), ("expression", .text m.expression),
    ("callback", .text m.callback)]

def Token.toJson : Token → Json
  | .literal text => .text text
  | .binding expression => .object [("@binding", .text expression)]

/-- The members of a loop clause. -/
def Loop.members (l : Loop) : List (String × Json) :=
  [("for", .text l.source), ("alias", .text l.item)] ++ Json.member? "iterator1" .text l.iterator1 ++
    Json.member? "iterator2" .text l.iterator2

/-- A member for a list that is not empty. -/
def Json.items {α : Type} (name : String) (f : α → Json) (items : List α) : List (String × Json) :=
  if items.isEmpty then [] else [(name, .array (items.map f))]

/-- A member for keyed values of which there are some. -/
def Json.keyed {α : Type} (name : String) (f : α → Json) (m : Keyed α) : List (String × Json) :=
  if m.isEmpty then [] else [(name, m.toJson f)]

/-- The members of the element with the given number. -/
def Element.members (id : NodeId) (el : Element) : List (String × Json) :=
  [("tag", .text el.tag), ("attrsList", .array (el.pending.map Attribute.toJson)),
    ("attrsMap", el.written.toJson .text), ("rawAttrsMap", el.source.toJson Attribute.toJson),
    ("parent", Json.ofOption .ofNat el.parent), ("children", .array (el.children.map .ofNat))] ++
  Json.member? "range" Range.toJson el.range ++
  Json.member? "ns" .text el.ns ++
  Json.flag "forbidden" el.forbidden ++
  Json.flag "pre" el.pre ++
  [("plain", .bool el.plain)] ++
  Json.flag "processed" el.processed ++
  (el.loop.map Loop.members).getD [] ++
  Json.member? "if" .text (el.choice.map Choice.guard) ++
  Json.member? "elseif" .text el.elseIf ++
  Json.flag "else" el.isElse ++
  Json.items "ifConditions" Branch.toJson (el.branches id) ++
  Json.flag "once" el.once ++
  Json.member? "key" .text el.key ++
  Json.member? "ref" .text el.ref ++
  Json.flag "refInFor" el.refInLoop ++
  Json.member? "slotTarget" .text el.slotTarget ++
  Json.flag "slotTargetDynamic" el.slotTargetDynamic ++
  Json.member? "slotScope" .text el.slotScope ++
  Json.keyed "scopedSlots" .ofNat el.scopedSlots ++
  Json.member? "slotName" .text el.slotName ++
  Json.member? "component" .text el.component ++
  Json.flag "inlineTemplate" el.inlineTemplate ++
  Json.flag "hasBindings" el.hasBindings ++
  Json.items "attrs" Attribute.toJson el.attributes ++
  Json.items "dynamicAttrs" Attribute.toJson el.dynamicAttributes ++
  Json.items "props" Attribute.toJson el.properties ++
  Json.keyed "events" (fun hs => .array (hs.map Handler.toJson)) el.events ++
  Json.keyed "nativeEvents" (fun hs => .array (hs.map Handler.toJson)) el.nativeEvents ++
  Json.items "directives" Directive.toJson el.directives ++
  Json.member? "staticClass" .text el.staticClass ++
  Json.member? "classBinding" .text el.classBinding ++
  Json.member? "staticStyle" .text el.staticStyle ++
  Json.member? "styleBinding" .text el.styleBinding ++
  Json.member? "model" ModelBinding.toJson el.model ++
  Json.keyed "moduleData" .text el.moduleData ++
  [("static", .bool el.isStatic), ("staticRoot", .bool el.staticRoot)] ++
  Json.flag "staticInFor" el.staticInLoop

/-- The node with the given number. -/
def Node.toJson (id : NodeId) : Node → Json
  | .element el => .object (("type", .text "Element") :: el.members id)
  | .interpolated t =>
    .object ([("type", .text "Expression"), ("expression", .text (Token.joinCode t.tokens)),
      ("tokens", .array (t.tokens.map Token.toJson)), ("text", .text t.text),
      ("static", .bool t.isStatic)] ++ Json.member? "range" Range.toJson t.range)
  | .plain t =>
    .object ([("type", .text "Text"), ("text", .text t.text)] ++ Json.flag "isComment" t.isComment ++
      [("static", .bool t.isStatic)] ++ Json.member? "range" Range.toJson t.range)

def Tree.toJson (tree : Tree) : Json :=
  .object [("nodes", .array (tree.nodes.toList.mapIdx Node.toJson)),
    ("root", Json.ofOption .ofNat tree.root)]

end ViewTemplate
