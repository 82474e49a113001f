import ViewTemplate.Element.Structure
import ViewTemplate.Render.Generation
import ViewTemplate.Tree.Content

/-! # Children

The children of an element are written as a list, with a hint for the runtime: how far the list has to
be flattened before it can be used. A single child with a loop is a list already.
-/

namespace ViewTemplate.Render

/-- How a node is written, in each place where it can stand. The flag says whether it lies in a hoisted
verbatim region. -/
structure Rendering where
  content : Content
  /-- As a child. -/
  node : Bool → Generation Code
  /-- As a later branch of a choice. -/
  branch : Bool → Generation Code
  /-- As the content of a slot. -/
  slot : Bool → Generation Code
  deriving Inhabited

/-- The element of a child and those of its later branches. -/
def blocks (r : Rendering) : List Element :=
  match r.content with
  | .element _ el _ branches _ => el :: branches.filterMap Content.element?
  | _ => []

/-- Whether the code of an element may be a list of its own. -/
def mayBeList (el : Element) : Bool := el.loop.isSome || el.tag == "template" || el.tag == "slot"

/-- How far the list of children has to be flattened: not at all, one level for components, or all the
way. -/
def flattening (platform : Platform) (children : List Rendering) : Nat :=
  let elements := children.flatMap blocks
  if elements.any mayBeList then 2
  else if elements.any (Element.isComponent platform) then 1
  else 0

/-- The only child, where it is a list by its loop. -/
def onlyLoop? : List Rendering → Option (Rendering × Element)
  | [r] =>
    (r.content.element?.filter fun el =>
      el.loop.isSome && el.tag != "template" && el.tag != "slot").map fun el => (r, el)
  | _ => none

/-- The code of the children, if there are any. Only where the runtime needs one is a hint added. -/
def childrenCode (scene : Scene) (hinted verbatim : Bool) (children : List Rendering) :
    Generation (Option Code) := do
  if children.isEmpty then pure none
  else
    match onlyLoop? children with
    | some (r, el) =>
      let code ← r.node verbatim
      let hint :=
        if hinted then (if el.isComponent scene.platform then ",1" else ",0") else ""
      pure (some (code ++ hint))
    | none =>
      let codes ← children.mapM fun r => r.node verbatim
      let hint := flattening scene.platform children
      pure (some ("[" ++ Code.join "," codes ++ "]" ++
        (if hinted && hint ≠ 0 then "," ++ toString hint else "")))

end ViewTemplate.Render
