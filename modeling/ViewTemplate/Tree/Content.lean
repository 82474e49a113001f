import ViewTemplate.Tree

/-! # What lies below a node

The part of a tree below a node, unfolded from the table: children, the later branches of a choice and
the content of slots. Recursion over a template is recursion over its content.
-/

namespace ViewTemplate

/-- A node with everything below it. Branches and slots come in the order of their element. -/
inductive Content
  | plain (id : NodeId) (text : PlainText)
  | interpolated (id : NodeId) (text : InterpolatedText)
  | element (id : NodeId) (el : Element) (children branches slots : List Content)
  deriving Inhabited

namespace Content

def id : Content → NodeId
  | .plain id _ => id
  | .interpolated id _ => id
  | .element id .. => id

/-- The node itself. -/
def node : Content → Node
  | .plain _ t => .plain t
  | .interpolated _ t => .interpolated t
  | .element _ el .. => .element el

def element? (c : Content) : Option Element := c.node.element?

/-- Whether the node is marked static. -/
def isStatic : Content → Bool
  | .plain _ t => t.isStatic
  | .interpolated _ t => t.isStatic
  | .element _ el .. => el.isStatic

mutual
/-- The node and all nodes below it, by number. -/
def nodes : Content → List (NodeId × Node)
  | .plain id t => [(id, .plain t)]
  | .interpolated id t => [(id, .interpolated t)]
  | .element id el children branches slots =>
    (id, .element el) :: (nodesOf children ++ nodesOf branches ++ nodesOf slots)

/-- The nodes of several contents. -/
def nodesOf : List Content → List (NodeId × Node)
  | [] => []
  | c :: cs => nodes c ++ nodesOf cs
end

mutual
/-- Whether an outlet occurs among the node and its descendants by children. -/
def holdsOutlet : Content → Bool
  | .plain .. => false
  | .interpolated .. => false
  | .element _ el children _ _ => el.tag == "slot" || anyHoldsOutlet children

def anyHoldsOutlet : List Content → Bool
  | [] => false
  | c :: cs => holdsOutlet c || anyHoldsOutlet cs
end

/-- Induction over a content, with the parts of an element by membership. -/
@[elab_as_elim] theorem induction {motive : Content → Prop}
    (plain : ∀ id t, motive (.plain id t)) (interpolated : ∀ id t, motive (.interpolated id t))
    (element : ∀ id el children branches slots, (∀ c ∈ children, motive c) →
      (∀ c ∈ branches, motive c) → (∀ c ∈ slots, motive c) →
      motive (.element id el children branches slots))
    (c : Content) : motive c := by
  refine @Content.rec motive (fun cs => ∀ c ∈ cs, motive c) plain interpolated element ?_ ?_ c
  · intro c hc
    cases hc
  · intro c cs hc hcs d hd
    rcases List.mem_cons.mp hd with rfl | hd
    · exact hc
    · exact hcs d hd

theorem nodesOf_eq_flatMap (cs : List Content) : nodesOf cs = cs.flatMap nodes := by
  induction cs with
  | nil => rfl
  | cons c cs ih => rw [nodesOf, ih, List.flatMap_cons]

theorem anyHoldsOutlet_eq_any (cs : List Content) : anyHoldsOutlet cs = cs.any holdsOutlet := by
  induction cs with
  | nil => rfl
  | cons c cs ih => rw [anyHoldsOutlet, ih, List.any_cons]

end Content

namespace Tree

/-- The content below a node, to a depth given by the fuel. A number outside the table reads as an
empty text. -/
def contentTo (tree : Tree) : Nat → NodeId → Content
  | 0, id => .plain id { text := "" }
  | fuel + 1, id =>
    match tree.node? id with
    | some (.element el) =>
      .element id el (el.children.map (tree.contentTo fuel))
        (el.otherBranches.map fun branch => tree.contentTo fuel branch.block)
        (el.scopedSlots.values.map (tree.contentTo fuel))
    | some (.interpolated t) => .interpolated id t
    | some (.plain t) => .plain id t
    | none => .plain id { text := "" }

/-- The content below a node. No path is longer than the table. -/
def content (tree : Tree) (id : NodeId) : Content := tree.contentTo tree.nodes.size id

/-- The content of the whole tree. -/
def rootContent? (tree : Tree) : Option Content := tree.root.map tree.content

/-- Writes the nodes of a content into the table. -/
def store (tree : Tree) (content : Content) : Tree :=
  content.nodes.foldl (fun tree e => tree.set e.1 e.2) tree

end Tree

end ViewTemplate
