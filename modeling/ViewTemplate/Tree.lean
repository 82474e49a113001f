import ViewTemplate.Element
import ViewTemplate.Expression.Interpolation

/-! # Template trees

A tree is a table of nodes that refer to each other by number. Nodes are only added; a node that has
lost its place stays in the table without being referred to.
-/

namespace ViewTemplate

/-- Text with bindings. -/
structure InterpolatedText where
  tokens : List Token
  text : String
  isStatic : Bool := false
  range : Option Range := none
  deriving DecidableEq, Repr, Inhabited

/-- Literal text, or a comment that is kept. -/
structure PlainText where
  text : String
  isComment : Bool := false
  isStatic : Bool := false
  range : Option Range := none
  deriving DecidableEq, Repr, Inhabited

/-- A node of a template. -/
inductive Node
  | element (element : Element)
  | interpolated (text : InterpolatedText)
  | plain (text : PlainText)
  deriving DecidableEq, Inhabited

namespace Node

def element? : Node → Option Element
  | .element el => some el
  | _ => none

/-- The text of a node that is not an element. -/
def text? : Node → Option String
  | .element _ => none
  | .interpolated t => some t.text
  | .plain t => some t.text

/-- The text of a node without bindings. -/
def literal? : Node → Option String
  | .plain t => some t.text
  | _ => none

def range : Node → Option Range
  | .element el => el.range
  | .interpolated t => t.range
  | .plain t => t.range

end Node

/-- A table of nodes and the number of the root. -/
structure Tree where
  nodes : Array Node := #[]
  root : Option NodeId := none
  deriving DecidableEq, Inhabited

namespace Tree

def node? (tree : Tree) (id : NodeId) : Option Node := tree.nodes[id]?

def element? (tree : Tree) (id : NodeId) : Option Element := (tree.node? id).bind Node.element?

def isElement (tree : Tree) (id : NodeId) : Bool := (tree.element? id).isSome

/-- Adds a node and gives its number. -/
def add (tree : Tree) (node : Node) : NodeId × Tree :=
  (tree.nodes.size, { tree with nodes := tree.nodes.push node })

def set (tree : Tree) (id : NodeId) (node : Node) : Tree :=
  { tree with nodes := tree.nodes.setIfInBounds id node }

/-- Changes an element; a number of no element is passed over. -/
def update (tree : Tree) (id : NodeId) (f : Element → Element) : Tree :=
  match tree.element? id with
  | some el => tree.set id (.element (f el))
  | none => tree

/-- The elements from the one with the given number upwards, at most as many as the fuel says. -/
def ancestorsFrom (tree : Tree) : Nat → Option NodeId → List (NodeId × Element)
  | 0, _ => []
  | _ + 1, none => []
  | fuel + 1, some id =>
    match tree.element? id with
    | some el => (id, el) :: tree.ancestorsFrom fuel el.parent
    | none => []

/-- An element and the elements around it, from the inside to the outside. -/
def ancestors (tree : Tree) (id : NodeId) : List (NodeId × Element) :=
  tree.ancestorsFrom tree.nodes.size (some id)

/-- The elements around an element, from the inside to the outside. -/
def around (tree : Tree) (el : Element) : List Element :=
  (tree.ancestorsFrom tree.nodes.size el.parent).map Prod.snd

/-- Whether an element lies in a verbatim region. -/
def isVerbatim (tree : Tree) (id : NodeId) : Bool :=
  (tree.ancestors id).any fun e => e.2.pre

@[simp] theorem add_fst (tree : Tree) (node : Node) : (tree.add node).1 = tree.nodes.size := rfl

@[simp] theorem size_set (tree : Tree) (id : NodeId) (node : Node) :
    (tree.set id node).nodes.size = tree.nodes.size := by
  simp [set]

@[simp] theorem root_set (tree : Tree) (id : NodeId) (node : Node) :
    (tree.set id node).root = tree.root := rfl

@[simp] theorem size_add (tree : Tree) (node : Node) :
    (tree.add node).2.nodes.size = tree.nodes.size + 1 := by
  simp [add]

@[simp] theorem root_add (tree : Tree) (node : Node) : (tree.add node).2.root = tree.root := rfl

@[simp] theorem size_update (tree : Tree) (id : NodeId) (f : Element → Element) :
    (tree.update id f).nodes.size = tree.nodes.size := by
  rw [update]
  split <;> simp

@[simp] theorem root_update (tree : Tree) (id : NodeId) (f : Element → Element) :
    (tree.update id f).root = tree.root := by
  rw [update]
  split <;> rfl

theorem node?_eq_none_iff {tree : Tree} {id : NodeId} :
    tree.node? id = none ↔ tree.nodes.size ≤ id := by
  simp [node?]

theorem lt_size_of_node? {tree : Tree} {id : NodeId} {node : Node}
    (h : tree.node? id = some node) : id < tree.nodes.size :=
  (Array.getElem?_eq_some_iff.mp h).1

theorem node?_of_element? {tree : Tree} {id : NodeId} {el : Element}
    (h : tree.element? id = some el) : tree.node? id = some (.element el) := by
  simp only [element?, Option.bind_eq_some_iff] at h
  obtain ⟨node, hnode, hel⟩ := h
  cases node with
  | element e =>
      cases hel
      exact hnode
  | interpolated t => cases hel
  | plain t => cases hel

theorem element?_of_node? {tree : Tree} {id : NodeId} {node : Node}
    (h : tree.node? id = some node) : tree.element? id = node.element? := by
  rw [element?, h]
  rfl

theorem lt_size_of_element? {tree : Tree} {id : NodeId} {el : Element}
    (h : tree.element? id = some el) : id < tree.nodes.size :=
  lt_size_of_node? (node?_of_element? h)

theorem node?_add (tree : Tree) (node : Node) (j : NodeId) :
    (tree.add node).2.node? j = if j = tree.nodes.size then some node else tree.node? j := by
  simp [node?, add, Array.getElem?_push]

theorem element?_add (tree : Tree) (node : Node) (j : NodeId) :
    (tree.add node).2.element? j =
      if j = tree.nodes.size then node.element? else tree.element? j := by
  rw [element?, node?_add]
  split <;> rfl

theorem node?_set (tree : Tree) (id : NodeId) (node : Node) (j : NodeId) :
    (tree.set id node).node? j =
      if j = id then (tree.node? id).map fun _ => node else tree.node? j := by
  by_cases hj : j = id
  · cases hj
    rw [if_pos rfl]
    simp only [node?, set, Array.getElem?_setIfInBounds]
    by_cases hlt : id < tree.nodes.size
    · simp [hlt]
    · simp [hlt]
  · rw [if_neg hj]
    simp [node?, set, Ne.symm hj]

theorem element?_set (tree : Tree) (id : NodeId) (el : Element) (j : NodeId) :
    (tree.set id (.element el)).element? j =
      if j = id then (tree.node? id).map fun _ => el else tree.element? j := by
  rw [element?, node?_set]
  split
  · cases tree.node? id <;> rfl
  · rfl

theorem element?_update (tree : Tree) (id : NodeId) (f : Element → Element) (j : NodeId) :
    (tree.update id f).element? j =
      if j = id then (tree.element? id).map f else tree.element? j := by
  cases hel : tree.element? id with
  | none =>
      simp only [update, hel, Option.map_none]
      split
      · rename_i hj
        rw [hj, hel]
      · rfl
  | some el =>
      simp only [update, hel, element?_set, node?_of_element? hel, Option.map_some]

end Tree

end ViewTemplate
