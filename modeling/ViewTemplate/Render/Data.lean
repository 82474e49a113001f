import ViewTemplate.Element.Slots
import ViewTemplate.Render.Children
import ViewTemplate.Render.Listeners
import ViewTemplate.Text.Fingerprint

/-! # Data objects

All that is known of an element besides its tag and children is written as one object. Directives come
first, since their rules may change the element for the entries that follow.
-/

namespace ViewTemplate.Render

/-- The entry of a directive that is left to the runtime. -/
def directiveEntry (d : Directive) : String :=
  let value :=
    if d.value = "" then "" else ",value:(" ++ d.value ++ "),expression:" ++ Text.quote d.value
  let argument := match d.argument with
    | some a => if d.dynamicArgument then ",arg:" ++ a else ",arg:\"" ++ a ++ "\""
    | none => ""
  let modifiers := match d.modifiers with
    | some m =>
      ",modifiers:\x7b" ++ ",".intercalate (m.keys.map fun k => Text.quote k ++ ":true") ++ "\x7d"
    | none => ""
  "\x7bname:\"" ++ d.name ++ "\",rawName:\"" ++ d.rawName ++ "\"" ++ value ++ argument ++ modifiers ++
    "\x7d"

/-- Applies the rule of a directive. A directive without a rule is left to the runtime. -/
def applyRule (scene : Scene) (el : Element) (d : Directive) : Reported (Element × Bool) :=
  match scene.rules.get? d.name with
  | some rule => rule scene.options.surroundings el d
  | none => pure (el, true)

/-- Applies the rules of all directives in order, and gives the entries left to the runtime. -/
def applyRules (scene : Scene) : List Directive → Element → Reported (Element × List String)
  | [], el => pure (el, [])
  | d :: ds, el => do
    let (el, needed) ← applyRule scene el d
    let (el, entries) ← applyRules scene ds el
    pure (el, if needed then directiveEntry d :: entries else entries)

/-- When the content of slots is to be looked at again. -/
inductive SlotUpdate
  /-- Whenever the owner renders. -/
  | always
  /-- Whenever its code changes, since branches may share a place. -/
  | byKey
  | never
  deriving DecidableEq, Repr, Inhabited

/-- Whether the content of a slot may change on its own. -/
def isVolatile (r : Rendering) : Bool :=
  (r.content.element?.any fun el => el.slotTargetDynamic || el.choice.isSome || el.loop.isSome) ||
    r.content.holdsOutlet

/-- Whether an element brings variables into the scope of what lies inside it. -/
def bringsScope (el : Element) : Bool :=
  (el.slotScope.any fun s => s != Element.noScope) || el.loop.isSome

/-- When the slots of an element are to be looked at again. -/
def slotUpdate (scene : Scene) (el : Element) (slots : List Rendering) : SlotUpdate :=
  let around := scene.tree.around el
  if el.loop.isSome || slots.any isVolatile || around.any bringsScope then .always
  else if el.choice.isSome || around.any fun a => a.choice.isSome then .byKey
  else .never

/-- The entry for the slots of an element. -/
def slotsEntry (scene : Scene) (el : Element) (slots : List Rendering) (verbatim : Bool) :
    Generation Code := do
  let codes ← slots.mapM fun r => r.slot verbatim
  let code := Code.join "," codes
  pure <| match slotUpdate scene el slots with
    | .always => "scopedSlots:_u([" ++ code ++ "],null,true)"
    | .byKey =>
      "scopedSlots:_u([" ++ code ++ "],null,false," ++ toString (Text.fingerprint code.print).toNat ++
        ")"
    | .never => "scopedSlots:_u([" ++ code ++ "])"

/-- The code of a root. A script renders as nothing. -/
def rootCode (root : Rendering) : Generation Code :=
  match root.content.element? with
  | some el => if el.tag = "script" then pure "null" else root.node false
  | none => pure "_c(\"div\")"

/-- The entry for a template inside a template: its first child, if that is an element. -/
def inlineEntry? (el : Element) (children : List Rendering) : Generation (Option Code) := do
  let first := children.head?.filter fun r => r.content.element?.isSome
  if !(children.length == 1 && first.isSome) then
    Generation.error .inlineTemplateChildren el.range
  match first with
  | none => pure none
  | some child =>
    let (render, functions) ← Generation.apart (rootCode child)
    pure (some (.inlined render functions))

/-- The entry for a two-way binding of a component. -/
def modelEntry (model : ModelBinding) : String :=
  "model:\x7bvalue:" ++ model.value ++ ",callback:" ++ model.callback ++ ",expression:" ++
    model.expression ++ "\x7d"

/-- The entries that are known without looking inside the element. -/
def ownEntries (scene : Scene) (verbatim : Bool) (el : Element) (directives : List String) :
    List String :=
  let on (present : Bool) (entry : String) : List String := if present then [entry] else []
  on (!directives.isEmpty) ("directives:[" ++ ",".intercalate directives ++ "]") ++
  (el.key.map fun key => "key:" ++ key).toList ++
  (el.ref.map fun ref => "ref:" ++ ref).toList ++
  on el.refInLoop "refInFor:true" ++
  on verbatim "pre:true" ++
  on el.component.isSome ("tag:\"" ++ el.tag ++ "\"") ++
  scene.options.extensions.flatMap (fun extension => extension.data el) ++
  on (!el.attributes.isEmpty) ("attrs:" ++ properties el.attributes) ++
  on (!el.properties.isEmpty) ("domProps:" ++ properties el.properties) ++
  on (!el.events.isEmpty) (listenersEntry el.events false) ++
  on (!el.nativeEvents.isEmpty) (listenersEntry el.nativeEvents true) ++
  (if el.slotScope.isNone then (el.slotTarget.map fun target => "slot:" ++ target).toList else [])

/-- Adds what is only known when the code runs: computed attributes and objects of bindings and
listeners. -/
def withComputed (el : Element) (data : Code) : Code :=
  let data :=
    if el.dynamicAttributes.isEmpty then data
    else "_b(" ++ data ++ ",\"" ++ el.tag ++ "\"," ++ properties el.dynamicAttributes ++ ")"
  let data := match el.boundObject with
    | some o =>
      "_b(" ++ data ++ ",'" ++ el.tag ++ "'," ++ o.value ++ "," ++
        (if o.asProperties then "true" else "false") ++ (if o.sync then ",true)" else ")")
    | none => data
  match el.listenerObject with
  | some listeners => "_g(" ++ data ++ "," ++ listeners ++ ")"
  | none => data

/-- The data object of an element. -/
def dataCode (scene : Scene) (id : NodeId) (el : Element) (children slots : List Rendering)
    (verbatim : Bool) : Generation Code := do
  let (el, directives) ← StateT.lift (applyRules scene el.directives el)
  let own := (ownEntries scene (scene.tree.isVerbatim id) el directives).map Code.text
  let slots ← if slots.isEmpty then pure none else some <$> slotsEntry scene el slots verbatim
  let model := (el.model.map fun m => Code.text (modelEntry m)).toList
  let inlined ← if el.inlineTemplate then inlineEntry? el children else pure none
  let entries := own ++ slots.toList ++ model ++ inlined.toList
  pure (withComputed el ("\x7b" ++ Code.join "," entries ++ "\x7d"))

end ViewTemplate.Render
