import ViewTemplate.Options
import ViewTemplate.Text.Blank
import ViewTemplate.Text.Cut
import ViewTemplate.Tree.Content

/-! # Static content

A node is static if it renders the same every time. Marks are set in two passes: from the leaves
upwards which nodes are static, then from the root downwards which static elements are rendered
apart. An element that is rendered apart is a static root; below it no other is looked for.
-/

namespace ViewTemplate

namespace Static

/-- Element keys that always leave an element static. -/
def baseKeys : List String :=
  ["type", "tag", "attrsList", "attrsMap", "plain", "parent", "children", "attrs", "start", "end",
    "rawAttrsMap"]

/-- All element keys that leave an element static. -/
def keys (options : Options) : List String :=
  let more := (Text.splitOn ',' options.staticKeys.toList).map Text.trim
  baseKeys ++ (more.filter fun key => !key.isEmpty).map String.ofList

/-- Whether the element is repeated by a template: the elements around it are templates up to one with
a loop. -/
def isInTemplateLoop (tree : Tree) (el : Element) : Bool :=
  ((tree.around el).takeWhile fun a => a.tag == "template").any fun a => a.loop.isSome

/-- Whether nothing on the element itself makes it change. -/
def isStaticAlone (options : Options) (tree : Tree) (el : Element) : Bool :=
  el.pre ||
    (!el.hasBindings && el.choice.isNone && el.loop.isNone && !Tag.isBuiltIn el.tag &&
      options.platform.isReserved el.tag && !isInTemplateLoop tree el &&
      el.definedKeys.all (keys options).contains)

/-- Whether what is below the element is left unmarked: its owner may replace it. -/
def isReplaceable (platform : Platform) (el : Element) : Bool :=
  (!platform.isReserved el.tag && !el.hasAttribute "inline-template") || el.tag == "slot"

mutual
/-- Marks the static nodes. -/
def markNodes (options : Options) (tree : Tree) : Content → Content
  | .plain id t => .plain id { t with isStatic := true }
  | .interpolated id t => .interpolated id { t with isStatic := false }
  | .element id el children branches slots =>
    let alone := isStaticAlone options tree el
    if isReplaceable options.platform el then
      .element id { el with isStatic := alone } children branches slots
    else
      let children := markNodesOf options tree children
      let branches := markNodesOf options tree branches
      let isStatic := alone && children.all Content.isStatic && branches.all Content.isStatic
      .element id { el with isStatic } children branches slots

def markNodesOf (options : Options) (tree : Tree) : List Content → List Content
  | [] => []
  | c :: cs => markNodes options tree c :: markNodesOf options tree cs
end

@[simp] theorem markNodesOf_eq_map (options : Options) (tree : Tree) (cs : List Content) :
    markNodesOf options tree cs = cs.map (markNodes options tree) := by
  induction cs with
  | nil => rfl
  | cons c cs ih => rw [markNodesOf, ih, List.map_cons]

/-- A single literal text is not worth rendering apart. -/
def isSingleText : List Content → Bool
  | [.plain _ _] => true
  | _ => false

/-- Whether a static element is worth rendering apart. -/
def isWorthwhile (el : Element) (children : List Content) : Bool :=
  el.isStatic && !children.isEmpty && !isSingleText children

/-- Notes whether an element that is rendered once lies in a loop. -/
def noteLoop (inLoop : Bool) (el : Element) : Element :=
  if el.isStatic || el.once then { el with staticInLoop := inLoop } else el

mutual
/-- Marks the static roots. -/
def markRoots (inLoop : Bool) : Content → Content
  | .plain id t => .plain id t
  | .interpolated id t => .interpolated id t
  | .element id el children branches slots =>
    let el := noteLoop inLoop el
    if isWorthwhile el children then
      .element id { el with staticRoot := true } children branches slots
    else
      let inLoop := inLoop || el.loop.isSome
      .element id { el with staticRoot := false } (markRootsOf inLoop children)
        (markRootsOf inLoop branches) slots

def markRootsOf (inLoop : Bool) : List Content → List Content
  | [] => []
  | c :: cs => markRoots inLoop c :: markRootsOf inLoop cs
end

@[simp] theorem markRootsOf_eq_map (inLoop : Bool) (cs : List Content) :
    markRootsOf inLoop cs = cs.map (markRoots inLoop) := by
  induction cs with
  | nil => rfl
  | cons c cs ih => rw [markRootsOf, ih, List.map_cons]

end Static

namespace Tree

/-- The tree with its static nodes and static roots marked. -/
def marked (options : Options) (tree : Tree) : Tree :=
  match tree.rootContent? with
  | some content => tree.store (Static.markRoots false (Static.markNodes options tree content))
  | none => tree

end Tree

end ViewTemplate
