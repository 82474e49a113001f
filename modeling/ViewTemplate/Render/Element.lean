import ViewTemplate.Render.Data
import ViewTemplate.Render.Route
import ViewTemplate.Render.Wrapper
import ViewTemplate.Text.Dashed

/-! # Element code

The code of an element from the code of its parts. The wrappers come in a fixed order: a function of
its own, then the loop, then the choice; an element that is rendered once has the choice outside and
the loop inside of that.
-/

namespace ViewTemplate.Render

/-- An element with the renderings of its parts. -/
structure Site where
  id : NodeId
  el : Element
  children : List Rendering
  branches : List Rendering
  slots : List Rendering

/-- The wrappers that are still to be written. -/
structure Pending where
  loop : Bool := true
  choice : Bool := true

/-- The name under which a script exposes a component, of the kinds in the order in which they are
looked up. -/
def exposedName? (bindings : Bindings) (tag : String) : Option String :=
  if bindings.isScriptSetup = some false then none
  else
    let camel := Text.camelize tag
    let names := [tag, camel, Text.capitalize camel]
    let kinds : List BindingKind :=
      [.setupConst, .setupReactiveConst, .setupLet, .setupRef, .setupMaybeRef]
    kinds.findSome? fun kind => names.find? fun name => bindings.kinds.get? name == some kind

namespace Site

variable (scene : Scene) (site : Site)

/-- An outlet, with its children as what is shown without content for the slot. -/
def outlet (verbatim : Bool) : Generation Code := do
  let el := site.el
  let children ← childrenCode scene false verbatim site.children
  let shown := el.attributes ++ el.dynamicAttributes
  let attributes :=
    if shown.isEmpty then none
    else some (properties (shown.map fun a => { a with name := Text.camelize a.name }))
  let bound := el.attribute? "v-bind"
  let fallback : Code := match children with
    | some code => ",function()\x7breturn " ++ code ++ "\x7d"
    | none => if attributes.isSome || bound.isSome then ",null" else ""
  let rest := match attributes, bound with
    | some a, some b => "," ++ a ++ "," ++ b
    | some a, none => "," ++ a
    | none, some b => ",null," ++ b
    | none, none => ""
  pure ("_t(" ++ el.slotName.getD Element.defaultSlot ++ fallback ++ rest ++ ")")

/-- The children, unless they are a template of their own. -/
def innerChildren (verbatim : Bool) : Generation (Option Code) :=
  if site.el.inlineTemplate then pure none else childrenCode scene true verbatim site.children

def data (verbatim : Bool) : Generation Code :=
  dataCode scene site.id site.el site.children site.slots verbatim

/-- A component that is chosen by an expression. -/
def component (verbatim : Bool) : Generation Code := do
  let children ← site.innerChildren scene verbatim
  let data ← site.data scene verbatim
  pure ("_c(" ++ Code.join "," (.text (site.el.component.getD "") :: data :: children.toList) ++ ")")

/-- What an element is created by: its tag, or the name of a component that the script exposes. -/
def constructorName : String :=
  let exposed :=
    if site.el.isComponent scene.platform then
      scene.options.bindings.bind fun bindings => exposedName? bindings site.el.tag
    else none
  exposed.getD ("'" ++ site.el.tag ++ "'")

/-- Whether a data object is written: there are data, or the runtime has to know that the region is
verbatim. -/
def hasData : Bool :=
  !site.el.plain || (scene.tree.isVerbatim site.id && site.el.isComponent scene.platform)

/-- An element of the platform, or a component by its tag. -/
def element (verbatim : Bool) : Generation Code := do
  let data ← if site.hasData scene then some <$> site.data scene verbatim else pure none
  let children ← site.innerChildren scene verbatim
  pure ("_c(" ++
    Code.join "," (.text (site.constructorName scene) :: (data.toList ++ children.toList)) ++ ")")

/-- What extensions write around the code of an element. -/
def surrounded (code : Code) : Code :=
  scene.options.extensions.foldl
    (fun code extension => (extension.around site.el).1 ++ code ++ (extension.around site.el).2) code

/-- The element inside all its wrappers. -/
def inside (verbatim : Bool) : Generation Code := do
  match Route.inside verbatim site.el with
  | .children =>
    let children ← childrenCode scene false verbatim site.children
    pure (children.getD "void 0")
  | .outlet => site.outlet scene verbatim
  | .component => site.surrounded scene <$> site.component scene verbatim
  | _ => site.surrounded scene <$> site.element scene verbatim

/-- The later branches of the choice. -/
def otherBranches (verbatim : Bool) : List (Generation Code) :=
  site.branches.map fun r => r.branch verbatim

/-- The choice, if it is still to be written. -/
def withChoice (pending : Pending) (verbatim : Bool) (code : Generation Code) : Generation Code :=
  if pending.choice then chosen site.el "_e()" (site.otherBranches verbatim) code else code

/-- The loop, if it is still to be written. -/
def withLoop (pending : Pending) (code : Generation Code) : Generation Code :=
  if pending.loop then repeated scene site.el code else code

/-- A function of its own. -/
def hoisted (code : Bool → Generation Code) (verbatim : Bool) : Generation Code :=
  hoist scene site.id site.el code verbatim

/-- The element rendered once. Outside of loops it is a function of its own. -/
def once (pending : Pending) (apart : Bool) (verbatim : Bool) : Generation Code :=
  let code (verbatim : Bool) := site.withLoop scene pending (site.inside scene verbatim)
  site.withChoice pending verbatim <|
    if site.el.staticInLoop then
      onceInLoop scene site.el
        (if site.el.staticRoot && !apart then site.hoisted scene code verbatim else code verbatim)
    else site.hoisted scene code verbatim

/-- The element with the wrappers that are still to be written. -/
def wrapped (pending : Pending) (verbatim : Bool) : Generation Code :=
  let code (verbatim : Bool) :=
    if site.el.once then site.once scene pending site.el.staticRoot verbatim
    else
      site.withLoop scene pending (site.withChoice pending verbatim (site.inside scene verbatim))
  if site.el.staticRoot then site.hoisted scene code verbatim else code verbatim

/-- The element as a later branch of a choice. -/
def branch (verbatim : Bool) : Generation Code :=
  if site.el.once then site.once scene {} false verbatim else site.wrapped scene {} verbatim

/-- Whether the scope of a slot is given by an attribute. Then a choice belongs to what is in the
slot and not to the slot. -/
def scopesByAttribute : Bool := (site.el.attribute? "slot-scope").any fun scope => scope != ""

/-- The code that a slot is filled with. -/
def slotBody (verbatim : Bool) : Generation Code := do
  if site.el.tag = "template" then
    let children ← childrenCode scene false verbatim site.children
    let code := children.getD "undefined"
    pure <| match site.el.choice with
      | some choice =>
        if site.scopesByAttribute then "(" ++ choice.guard ++ ")?" ++ code ++ ":undefined" else code
      | none => code
  else site.wrapped scene { loop := false, choice := site.scopesByAttribute } verbatim

/-- The entry of a slot: its name, and a function from its scope to its content. -/
def slotEntry (verbatim : Bool) : Generation Code := do
  let scope := match site.el.slotScope with
    | some scope => if scope = Element.noScope then "" else scope
    | none => "undefined"
  let body ← site.slotBody scene verbatim
  pure ("\x7bkey:" ++ site.el.slotTarget.getD Element.defaultSlot ++ ",fn:function(" ++ scope ++
    ")\x7breturn " ++ body ++ "\x7d" ++ (if scope = "" then ",proxy:true\x7d" else "\x7d"))

/-- The element as content of a slot. -/
def slot (verbatim : Bool) : Generation Code :=
  let code := repeated scene site.el (site.slotEntry scene verbatim)
  if site.scopesByAttribute then code
  else chosen site.el "null" (site.branches.map fun r => r.slot verbatim) code

/-- The code of the element in each place. -/
def rendering (content : Content) : Rendering where
  content
  node := site.wrapped scene {}
  branch := site.branch scene
  slot := site.slot scene

end Site

end ViewTemplate.Render
