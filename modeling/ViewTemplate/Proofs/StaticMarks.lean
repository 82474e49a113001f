import Mathlib.Data.List.Basic
import ViewTemplate.Proofs.BuilderFrame
import ViewTemplate.Tree.Static

/-! # Taking static marks away

Marking a tree changes nothing but its marks: without them, the marked tree is the tree as it was.
Marks are only set on what is reached through children and branches, so the contents of slots stay
as they were, marks included.
-/

open List

namespace ViewTemplate

namespace Content

mutual
/-- The content without static marks. -/
def unmarked : Content → Content
  | .plain id t => .plain id { t with isStatic := false }
  | .interpolated id t => .interpolated id { t with isStatic := false }
  | .element id el children branches slots =>
    .element id el.unmarked (unmarkedOf children) (unmarkedOf branches) (unmarkedOf slots)

def unmarkedOf : List Content → List Content
  | [] => []
  | c :: cs => unmarked c :: unmarkedOf cs
end

@[simp] theorem unmarkedOf_eq_map (cs : List Content) : unmarkedOf cs = cs.map unmarked := by
  induction cs with
  | nil => rfl
  | cons c cs ih => rw [unmarkedOf, ih, map_cons]

@[simp] theorem unmarked_element (id : NodeId) (el : Element)
    (children branches slots : List Content) :
    (Content.element id el children branches slots).unmarked =
      .element id el.unmarked (children.map unmarked) (branches.map unmarked)
        (slots.map unmarked) := by
  rw [unmarked, unmarkedOf_eq_map, unmarkedOf_eq_map, unmarkedOf_eq_map]

theorem mem_nodes_element {id : NodeId} {el : Element} {children branches slots : List Content}
    {e : NodeId × Node} :
    e ∈ (Content.element id el children branches slots).nodes ↔
      e = (id, .element el) ∨ (∃ c ∈ children, e ∈ c.nodes) ∨ (∃ c ∈ branches, e ∈ c.nodes) ∨
        ∃ c ∈ slots, e ∈ c.nodes := by
  simp only [nodes, nodesOf_eq_flatMap, mem_cons, mem_append, mem_flatMap, or_assoc]

/-- The nodes without marks are those of the content without marks. -/
theorem nodes_unmarked (c : Content) :
    c.unmarked.nodes = c.nodes.map fun e => (e.1, e.2.unmarked) := by
  induction c using induction with
  | plain id t => rfl
  | interpolated id t => rfl
  | element id el children branches slots ihchildren ihbranches ihslots =>
    have hmap (cs : List Content) (h : ∀ c ∈ cs, c.unmarked.nodes =
        c.nodes.map fun e => (e.1, e.2.unmarked)) :
        (cs.map unmarked).flatMap nodes =
          (cs.flatMap nodes).map fun e => (e.1, e.2.unmarked) := by
      rw [flatMap_map, map_flatMap]
      exact flatMap_congr h
    simp only [unmarked_element, nodes, nodesOf_eq_flatMap, map_cons, map_append,
      hmap children ihchildren, hmap branches ihbranches, hmap slots ihslots]
    rfl

mutual
/-- The numbers of the nodes that are reached through children and branches. -/
def outline : Content → List NodeId
  | .plain id _ => [id]
  | .interpolated id _ => [id]
  | .element id _ children branches _ => id :: (outlineOf children ++ outlineOf branches)

def outlineOf : List Content → List NodeId
  | [] => []
  | c :: cs => outline c ++ outlineOf cs
end

theorem outlineOf_eq_flatMap (cs : List Content) : outlineOf cs = cs.flatMap outline := by
  induction cs with
  | nil => rfl
  | cons c cs ih => rw [outlineOf, ih, flatMap_cons]

@[simp] theorem outline_element (id : NodeId) (el : Element)
    (children branches slots : List Content) :
    (Content.element id el children branches slots).outline =
      id :: (children.flatMap outline ++ branches.flatMap outline) := by
  rw [outline, outlineOf_eq_flatMap, outlineOf_eq_flatMap]

/-- Two contents that differ at most in the nodes that are reached through children and branches,
and there only in their marks. -/
structure Remarked (c c' : Content) : Prop where
  unmarked : c'.unmarked = c.unmarked
  outline : c'.outline = c.outline
  nodes : ∀ e ∈ c'.nodes, e ∈ c.nodes ∨ e.1 ∈ c.outline

namespace Remarked

variable {c c' c'' : Content}

theorem refl (c : Content) : Remarked c c := ⟨rfl, rfl, fun _ he => .inl he⟩

theorem trans (h : Remarked c c') (h' : Remarked c' c'') : Remarked c c'' where
  unmarked := h'.unmarked.trans h.unmarked
  outline := h'.outline.trans h.outline
  nodes e he := by
    rcases h'.nodes e he with he | he
    · exact h.nodes e he
    · rw [h.outline] at he
      exact .inr he

/-- A change of marks of an element and of the contents of its children and branches. -/
theorem element {id : NodeId} {el el' : Element} {children branches slots : List Content}
    {f g : Content → Content} (hel : el'.unmarked = el.unmarked)
    (hchildren : ∀ c ∈ children, Remarked c (f c)) (hbranches : ∀ c ∈ branches, Remarked c (g c)) :
    Remarked (.element id el children branches slots)
      (.element id el' (children.map f) (branches.map g) slots) where
  unmarked := by
    have hmap {cs : List Content} {f : Content → Content} (h : ∀ c ∈ cs, Remarked c (f c)) :
        (cs.map f).map Content.unmarked = cs.map Content.unmarked := by
      rw [List.map_map]
      exact map_congr_left fun c hc => (h c hc).unmarked
    rw [unmarked_element, unmarked_element, hel, hmap hchildren, hmap hbranches]
  outline := by
    have hmap {cs : List Content} {f : Content → Content} (h : ∀ c ∈ cs, Remarked c (f c)) :
        (cs.map f).flatMap Content.outline = cs.flatMap Content.outline := by
      rw [flatMap_map]
      exact flatMap_congr fun c hc => (h c hc).outline
    rw [outline_element, outline_element, hmap hchildren, hmap hbranches]
  nodes e he := by
    rw [mem_nodes_element] at he
    rw [mem_nodes_element, outline_element, mem_cons, mem_append, mem_flatMap,
      mem_flatMap]
    simp only [List.mem_map] at he
    rcases he with rfl | ⟨-, ⟨c, hc, rfl⟩, he⟩ | ⟨-, ⟨c, hc, rfl⟩, he⟩ | hslot
    · exact .inr (.inl rfl)
    · rcases (hchildren c hc).nodes e he with he | he
      · exact .inl (.inr (.inl ⟨c, hc, he⟩))
      · exact .inr (.inr (.inl ⟨c, hc, he⟩))
    · rcases (hbranches c hc).nodes e he with he | he
      · exact .inl (.inr (.inr (.inl ⟨c, hc, he⟩)))
      · exact .inr (.inr (.inr ⟨c, hc, he⟩))
    · exact .inl (.inr (.inr (.inr hslot)))

/-- A change of marks of an element alone. -/
theorem element_alone {id : NodeId} {el el' : Element} {children branches slots : List Content}
    (hel : el'.unmarked = el.unmarked) :
    Remarked (.element id el children branches slots)
      (.element id el' children branches slots) := by
  have h : Remarked (.element id el children branches slots)
      (.element id el' (children.map fun c => c) (branches.map fun c => c) slots) :=
    element hel (fun c _ => refl c) (fun c _ => refl c)
  rwa [List.map_id', List.map_id'] at h

end Remarked

end Content

namespace Static

open Content

theorem remarked_markNodes (options : Options) (tree : Tree) (c : Content) :
    Remarked c (markNodes options tree c) := by
  induction c using Content.induction with
  | plain id t => exact ⟨rfl, rfl, fun _ he => .inr (by simp_all [markNodes, nodes, outline])⟩
  | interpolated id t =>
    exact ⟨rfl, rfl, fun _ he => .inr (by simp_all [markNodes, nodes, outline])⟩
  | element id el children branches slots ihchildren ihbranches ihslots =>
    simp only [markNodes, markNodesOf_eq_map]
    split
    · exact .element_alone rfl
    · exact .element rfl ihchildren ihbranches

theorem remarked_markRoots (inLoop : Bool) (c : Content) : Remarked c (markRoots inLoop c) := by
  induction c using Content.induction generalizing inLoop with
  | plain id t => exact .refl _
  | interpolated id t => exact .refl _
  | element id el children branches slots ihchildren ihbranches ihslots =>
    have hnote : (noteLoop inLoop el).unmarked = el.unmarked := by
      rw [noteLoop]
      split <;> rfl
    simp only [markRoots, markRootsOf_eq_map]
    split
    · exact .element_alone hnote
    · exact .element hnote (fun c hc => ihchildren c hc _) (fun c hc => ihbranches c hc _)

end Static

namespace Tree

/-- The tree without static marks. -/
def unmarked (tree : Tree) : Tree := { tree with nodes := tree.nodes.map Node.unmarked }

@[simp] theorem size_unmarked (tree : Tree) : tree.unmarked.nodes.size = tree.nodes.size := by
  simp [unmarked]

theorem node?_unmarked (tree : Tree) (id : NodeId) :
    tree.unmarked.node? id = (tree.node? id).map Node.unmarked := by
  simp [unmarked, node?]

/-- A node of a content is the one that it starts from, with an empty text for a missing one, or comes
from what that one holds. -/
theorem mem_nodes_contentTo {tree : Tree} {n : Nat} {i : NodeId} {e : NodeId × Node}
    (he : e ∈ (tree.contentTo (n + 1) i).nodes) :
    e.1 = i ∧ (tree.node? i = some e.2 ∨ tree.node? i = none ∧ e.2 = .plain { text := "" }) ∨
      ∃ el c, tree.node? i = some (.element el) ∧ e ∈ (tree.contentTo n c).nodes ∧
        c ∈ el.children ++ el.scopedSlots.values ++ el.otherBranches.map Branch.block := by
  rw [contentTo] at he
  cases hnode : tree.node? i with
  | none =>
    rw [hnode] at he
    cases mem_singleton.mp he
    exact .inl ⟨rfl, .inr ⟨rfl, rfl⟩⟩
  | some node =>
    rw [hnode] at he
    cases node with
    | element el =>
      simp only [Content.mem_nodes_element, List.mem_map] at he
      rcases he with rfl | ⟨-, ⟨c, hc, rfl⟩, he⟩ | ⟨-, ⟨b, hb, rfl⟩, he⟩ | ⟨-, ⟨v, hv, rfl⟩, he⟩
      · exact .inl ⟨rfl, .inl rfl⟩
      · exact .inr ⟨el, c, rfl, he, mem_append_left _ (mem_append_left _ hc)⟩
      · exact .inr ⟨el, b.block, rfl, he, mem_append_right _ (List.mem_map_of_mem hb)⟩
      · exact .inr ⟨el, v, rfl, he, mem_append_left _ (mem_append_right _ hv)⟩
    | interpolated t | plain t =>
      cases mem_singleton.mp he
      exact .inl ⟨rfl, .inl rfl⟩

/-- What holds of an empty text and of all nodes of a tree holds of the nodes below each. -/
theorem forall_nodes_contentTo {tree : Tree} {P : Node → Prop} (hempty : P (.plain { text := "" }))
    (h : ∀ id node, tree.node? id = some node → P node) (fuel : Nat) (id : NodeId) :
    ∀ e ∈ (tree.contentTo fuel id).nodes, P e.2 := by
  induction fuel generalizing id with
  | zero => exact forall_mem_singleton.mpr hempty
  | succ fuel ih =>
    intro e he
    rcases mem_nodes_contentTo he with ⟨-, hnode | ⟨-, hnone⟩⟩ | ⟨-, c, -, he, -⟩
    · exact h id e.2 hnode
    · rw [hnone]
      exact hempty
    · exact ih c e he

theorem element?_unmarked (tree : Tree) (id : NodeId) :
    tree.unmarked.element? id = (tree.element? id).map Element.unmarked := by
  rw [element?, element?, node?_unmarked]
  cases tree.node? id with
  | none => rfl
  | some node => cases node <;> rfl

/-- Reading below a node commutes with taking the marks away. -/
theorem contentTo_unmarked (tree : Tree) (fuel : Nat) (id : NodeId) :
    tree.unmarked.contentTo fuel id = (tree.contentTo fuel id).unmarked := by
  induction fuel generalizing id with
  | zero => rfl
  | succ fuel ih =>
    have hmap (ids : List NodeId) : ids.map (tree.unmarked.contentTo fuel) =
        (ids.map (tree.contentTo fuel)).map Content.unmarked := by
      rw [List.map_map]
      exact map_congr_left fun id _ => ih id
    have hblocks (bs : List Branch) : (bs.map fun b => tree.unmarked.contentTo fuel b.block) =
        (bs.map fun b => tree.contentTo fuel b.block).map Content.unmarked := by
      rw [List.map_map]
      exact map_congr_left fun b _ => ih b.block
    rw [contentTo, contentTo, node?_unmarked]
    cases tree.node? id with
    | none => rfl
    | some node =>
      cases node with
      | element el =>
        rw [Content.unmarked_element]
        show Content.element id el.unmarked (el.children.map _) (el.otherBranches.map _)
          (el.scopedSlots.values.map _) = _
        rw [hmap, hblocks, hmap]
      | interpolated t => rfl
      | plain t => rfl

theorem content_unmarked (tree : Tree) (id : NodeId) :
    tree.unmarked.content id = (tree.content id).unmarked := by
  rw [content, size_unmarked, contentTo_unmarked]
  rfl

theorem ancestorsFrom_unmarked (tree : Tree) (fuel : Nat) (id : Option NodeId) :
    tree.unmarked.ancestorsFrom fuel id =
      (tree.ancestorsFrom fuel id).map fun e => (e.1, e.2.unmarked) := by
  induction fuel generalizing id with
  | zero => rfl
  | succ fuel ih =>
    cases id with
    | none => rfl
    | some id =>
      rw [ancestorsFrom, ancestorsFrom, element?_unmarked]
      cases tree.element? id with
      | none => rfl
      | some el =>
        show (id, el.unmarked) :: tree.unmarked.ancestorsFrom fuel el.parent = _
        rw [ih]
        rfl

theorem around_unmarked (tree : Tree) (el : Element) :
    tree.unmarked.around el.unmarked = (tree.around el).map Element.unmarked := by
  rw [around, around, size_unmarked, ancestorsFrom_unmarked, List.map_map, List.map_map]
  rfl

/-! ## Storing a content -/

theorem set_eq_self {tree : Tree} {id : NodeId} {node : Node}
    (h : ∀ n, tree.node? id = some n → n = node) : tree.set id node = tree := by
  have hnodes : tree.nodes.setIfInBounds id node = tree.nodes := by
    apply Array.ext_getElem?
    intro j
    rw [Array.getElem?_setIfInBounds]
    split
    · rename_i hj
      subst hj
      split
      · rename_i hlt
        rw [Array.getElem?_eq_getElem hlt, h _ (Array.getElem?_eq_getElem hlt)]
      · rename_i hge
        rw [Array.getElem?_eq_none (Nat.le_of_not_lt hge)]
    · rfl
  rw [set, hnodes]

theorem unmarked_set (tree : Tree) (id : NodeId) (node : Node) :
    (tree.set id node).unmarked = tree.unmarked.set id node.unmarked := by
  simp [unmarked, set]

section

variable (entries : List (NodeId × Node)) (tree : Tree)

/-- Storing nodes that differ from those in the table in their marks changes nothing but marks. -/
theorem unmarked_foldl_set
    (h : ∀ e ∈ entries, ∀ n, tree.unmarked.node? e.1 = some n → n = e.2.unmarked) :
    (entries.foldl (fun tree e => tree.set e.1 e.2) tree).unmarked = tree.unmarked := by
  induction entries generalizing tree with
  | nil => rfl
  | cons e entries ih =>
    have hset : (tree.set e.1 e.2).unmarked = tree.unmarked := by
      rw [unmarked_set]
      exact set_eq_self (h e mem_cons_self)
    rw [foldl_cons, ih, hset]
    intro f hf
    rw [hset]
    exact h f (mem_cons_of_mem e hf)

/-- A node stays if nothing else is stored under its number. -/
theorem node?_foldl_set {j : NodeId} (h : ∀ e ∈ entries, e.1 = j → tree.node? j = some e.2) :
    (entries.foldl (fun tree e => tree.set e.1 e.2) tree).node? j = tree.node? j := by
  induction entries generalizing tree with
  | nil => rfl
  | cons e entries ih =>
    have hset : (tree.set e.1 e.2).node? j = tree.node? j := by
      by_cases hj : e.1 = j
      · rw [set_eq_self]
        intro n hn
        rw [hj, h e mem_cons_self hj] at hn
        exact (Option.some.inj hn).symm
      · rw [set, node?, Array.getElem?_setIfInBounds, if_neg hj]
        rfl
    rw [foldl_cons, ih, hset]
    intro f hf hj
    rw [hset]
    exact h f (mem_cons_of_mem e hf) hj

@[simp] theorem root_foldl_set :
    (entries.foldl (fun tree e => tree.set e.1 e.2) tree).root = tree.root := by
  induction entries generalizing tree with
  | nil => rfl
  | cons e entries ih => rw [foldl_cons, ih, root_set]

end

end Tree

end ViewTemplate
