import ViewTemplate.Proofs.ElementFrame

/-! # What closing an element leaves alone

While a tree is built its nodes are moved about, but a node never changes what it is: texts stay as
they are, and an element keeps its identity. Closing an element adds no elements but the containers
of slots, and leaves the open elements alone.
-/

open List Option

namespace ViewTemplate

open Element Extension Reported

universe u

variable {β : Type u}

namespace Element.Identity

/-- The identity of every container of a slot. -/
def container : Identity where
  tag := "template"

end Element.Identity

/-- The element without static marks. -/
def Element.unmarked (el : Element) : Element :=
  { el with isStatic := false, staticRoot := false, staticInLoop := false }

/-- The node without static marks. -/
def Node.unmarked : Node → Node
  | .element el => .element el.unmarked
  | .interpolated t => .interpolated { t with isStatic := false }
  | .plain t => .plain { t with isStatic := false }

/-- A node of text as it is made for a place in the source. -/
structure Node.IsNewText (range : Range) (node : Node) : Prop where
  element? : node.element? = none
  range : node.range = some range
  unmarked : node.unmarked = node

/-- A node, of which elements are seen only through a value of their identity. -/
def Node.seen (g : Element.Identity → β) : Node → Node ⊕ β
  | .element el => .inr (g el.identity)
  | node => .inl node

namespace Tree

theorem element?_update_cases {tree : Tree} {id i : NodeId} {f : Element → Element} {later : Element}
    (h : (tree.update id f).element? i = some later) :
    tree.element? i = some later ∨ ∃ el, i = id ∧ tree.element? id = some el ∧ later = f el := by
  rw [element?_update] at h
  split at h
  · rename_i hi
    obtain ⟨el, hel, rfl⟩ := map_eq_some_iff.mp h
    exact .inr ⟨el, hi, hel, rfl⟩
  · exact .inl h

theorem element?_add_cases {tree : Tree} {node : Node} {i : NodeId} {el : Element}
    (h : (tree.add node).2.element? i = some el) :
    i = tree.nodes.size ∧ node.element? = some el ∨ i ≠ tree.nodes.size ∧ tree.element? i = some el := by
  rw [element?_add] at h
  split at h
  · rename_i hi
    exact .inl ⟨hi, h⟩
  · rename_i hi
    exact .inr ⟨hi, h⟩

/-- All nodes of a tree have a property. -/
def Throughout (Q : Node → Prop) (tree : Tree) : Prop :=
  ∀ i node, tree.node? i = some node → Q node

namespace Throughout

variable {Q : Node → Prop} {tree later : Tree} (h : tree.Throughout Q)
include h

theorem element {i : NodeId} {el : Element} (hel : tree.element? i = some el) : Q (.element el) :=
  h i _ (node?_of_element? hel)

theorem set (id : NodeId) (node : Node) (hnode : Q node) : (tree.set id node).Throughout Q := by
  intro i other hother
  rw [node?_set] at hother
  split at hother
  · obtain ⟨-, -, rfl⟩ := map_eq_some_iff.mp hother
    exact hnode
  · exact h i other hother

theorem update (id : NodeId) {f : Element → Element}
    (hf : ∀ el, tree.element? id = some el → Q (.element el) → Q (.element (f el))) :
    (tree.update id f).Throughout Q := by
  rw [Tree.update]
  split
  · rename_i el hel
    exact h.set id _ (hf el hel (h.element hel))
  · exact h

theorem add (node : Node) (hnode : Q node) : (tree.add node).2.Throughout Q := by
  intro i other hother
  rw [node?_add] at hother
  split at hother
  · cases hother
    exact hnode
  · exact h i other hother

theorem of_nodes (hnodes : later.nodes = tree.nodes) : later.Throughout Q := by
  intro i node hnode
  rw [node?, hnodes] at hnode
  exact h i node hnode

end Throughout

/-- A relation of trees that goes through one change of links after the other. -/
structure AllowsLinks (R : Tree → Tree → Prop) : Prop where
  refl : ∀ tree, R tree tree
  trans : ∀ {tree mid later}, R tree mid → R mid later → R tree later
  links : ∀ tree id (parent : Element → Option NodeId) (children : Element → List NodeId)
    (slots : Element → Keyed NodeId), R tree (tree.update id fun el =>
      { el with parent := parent el, children := children el, scopedSlots := slots el })
  branch : ∀ tree id branch, R tree (tree.update id (addBranch branch))

/-- A later tree has the nodes of the earlier one, seen through a value of the identities, and its
new nodes are of a certain kind. -/
structure Keeps (g : Element.Identity → β) (fresh : Node ⊕ β → Prop) (tree later : Tree) :
    Prop where
  size_le : tree.nodes.size ≤ later.nodes.size
  seen : ∀ j, j < tree.nodes.size →
    (later.node? j).map (Node.seen g) = (tree.node? j).map (Node.seen g)
  added : ∀ j node, tree.nodes.size ≤ j → later.node? j = some node → fresh (node.seen g)

namespace Keeps

variable {g : Element.Identity → β} {fresh : Node ⊕ β → Prop} {tree mid later : Tree}

theorem of_nodes_eq (h : later.nodes = tree.nodes) : Keeps g fresh tree later where
  size_le := Nat.le_of_eq (congrArg Array.size h.symm)
  seen j _ := by rw [node?, node?, h]
  added j node hj hnode := by
    have hlt := lt_size_of_node? hnode
    rw [h] at hlt
    exact absurd hlt (Nat.not_lt.mpr hj)

theorem refl (tree : Tree) : Keeps g fresh tree tree := of_nodes_eq rfl

/-- An element stays an element with the same value. -/
theorem element (h : Keeps g fresh tree later) {j : NodeId} {el : Element}
    (hel : tree.element? j = some el) :
    ∃ el', later.element? j = some el' ∧ g el'.identity = g el.identity := by
  have hseen := h.seen j (lt_size_of_element? hel)
  rw [node?_of_element? hel, map_some, map_eq_some_iff] at hseen
  obtain ⟨node, hnode, hvalue⟩ := hseen
  cases node with
  | element el' => exact ⟨el', element?_of_node? hnode, Sum.inr.inj hvalue⟩
  | interpolated t => cases hvalue
  | plain t => cases hvalue

/-- A later node was there before, or is new. -/
theorem node_before (h : Keeps g fresh tree later) {j : NodeId} {node : Node}
    (hnode : later.node? j = some node) :
    tree.nodes.size ≤ j ∧ fresh (node.seen g) ∨
      ∃ node', tree.node? j = some node' ∧ node.seen g = node'.seen g := by
  by_cases hj : j < tree.nodes.size
  · right
    have hseen := (h.seen j hj).symm
    rw [hnode, map_some, map_eq_some_iff] at hseen
    obtain ⟨node', hnode', hvalue⟩ := hseen
    exact ⟨node', hnode', hvalue.symm⟩
  · left
    exact ⟨Nat.le_of_not_lt hj, h.added j node (Nat.le_of_not_lt hj) hnode⟩

theorem trans (h : Keeps g fresh tree mid) (h' : Keeps g fresh mid later) :
    Keeps g fresh tree later where
  size_le := Nat.le_trans h.size_le h'.size_le
  seen j hj := (h'.seen j (Nat.lt_of_lt_of_le hj h.size_le)).trans (h.seen j hj)
  added j node hj hnode := by
    rcases h'.node_before hnode with ⟨-, hnew⟩ | ⟨node', hnode', hvalue⟩
    · exact hnew
    · rw [hvalue]
      exact h.added j node' hj hnode'

theorem set {id : NodeId} {el el' : Element} (hel : tree.element? id = some el)
    (hg : g el'.identity = g el.identity) : Keeps g fresh tree (tree.set id (.element el')) where
  size_le := Nat.le_of_eq (size_set ..).symm
  seen j _ := by
    rw [node?_set]
    split
    · rename_i hj
      rw [hj, node?_of_element? hel]
      exact congrArg (fun v => some (Sum.inr v)) hg
    · rfl
  added j node hj hnode := by
    have hlt := lt_size_of_node? hnode
    rw [size_set] at hlt
    exact absurd hlt (Nat.not_lt.mpr hj)

theorem update (id : NodeId) (f : Element → Element)
    (hf : ∀ el, g (f el).identity = g el.identity) : Keeps g fresh tree (tree.update id f) := by
  rw [Tree.update]
  split
  · rename_i el hel
    exact set hel (hf el)
  · exact refl tree

theorem add {node : Node} (hnode : fresh (node.seen g)) : Keeps g fresh tree (tree.add node).2 where
  size_le := by rw [size_add]; exact Nat.le_succ _
  seen j hj := by rw [node?_add, if_neg (Nat.ne_of_lt hj)]
  added j node' hj hnode' := by
    rw [node?_add] at hnode'
    split at hnode'
    · cases hnode'
      exact hnode
    · exact absurd (lt_size_of_node? hnode') (Nat.not_lt.mpr hj)

end Keeps

end Tree

namespace Builder

open ViewTemplate.Tree

variable {g : Element.Identity → β} {fresh : Node ⊕ β → Prop} {options : Options}

/-- The children of a component that become the content of its one slot. -/
def slotInside (tree : Tree) (el : Element) : List NodeId :=
  el.children.filter fun child => !isSlotContent tree child

/-- Filling a slot adds the container, moves the children into it and gives it to the component. -/
theorem fillSlot_eq {tree : Tree} {id : NodeId} {el : Element} (hel : tree.element? id = some el)
    (use : SlotUse) :
    fillSlot id use tree =
      ((slotInside tree el).foldl
        (fun t child => t.update child fun c => { c with parent := some tree.nodes.size })
        (tree.add (.element (slotContainer use id (slotInside tree el)))).2).update id
        fun el =>
          { el with
            children := []
            scopedSlots := el.scopedSlots.insert use.name tree.nodes.size
            plain := false } := by
  rw [fillSlot, hel]
  rfl

theorem frame_readPlacement (platform : Platform) (parent : Option Element) (inLoop : Bool)
    (el : Element) :
    (readPlacement platform parent inLoop el).value.1.frame =
      el.frame.withScope (readPlacement platform parent inLoop el).value.1.slotScope :=
  frame_readSlotContent ((el.readKey (parent.map Element.tag)).value.markPlain.readRef inLoop) platform
    (parent.map (mayBeComponent platform))

/-- Fills the slot that a component uses, if it uses one. -/
def fillUse (id : NodeId) (use : Option SlotUse) (tree : Tree) : Tree :=
  match use with
  | some use => fillSlot id use tree
  | none => tree

/-- What goes through the changes that fill a slot one after the other. -/
theorem fillUse_of_parts {R : Tree → Tree → Prop} {tree : Tree} {id : NodeId}
    (hrefl : ∀ tree, R tree tree)
    (htrans : ∀ {tree mid later}, R tree mid → R mid later → R tree later)
    (hadd : ∀ use inside, R tree (tree.add (.element (slotContainer use id inside))).2)
    (hadopt : ∀ tree child p, R tree (tree.update child fun c => { c with parent := some p }))
    (hfill : ∀ tree (slots : Element → Keyed NodeId), R tree (tree.update id fun el =>
      { el with children := [], scopedSlots := slots el, plain := false }))
    (use : Option SlotUse) : R tree (fillUse id use tree) := by
  have hadopts (p : NodeId) (children : List NodeId) (tree : Tree) : R tree
      (children.foldl (fun t child => t.update child fun c => { c with parent := some p }) tree) := by
    induction children generalizing tree with
    | nil => exact hrefl tree
    | cons child children ih => exact htrans (hadopt tree child p) (ih _)
  cases use with
  | none => exact hrefl tree
  | some use =>
    rw [fillUse]
    cases hel : tree.element? id with
    | none =>
      rw [fillSlot, hel]
      exact hrefl tree
    | some el =>
      rw [fillSlot_eq hel]
      exact htrans (htrans (hadd use _) (hadopts ..)) (hfill _ _)

theorem keeps_fillUse (hcontainer : fresh (.inr (g Element.Identity.container))) (id : NodeId)
    (use : Option SlotUse) (tree : Tree) : Keeps g fresh tree (fillUse id use tree) :=
  fillUse_of_parts .refl .trans (fun _ _ => .add hcontainer)
    (fun _ child _ => .update child _ fun _ => rfl) (fun _ _ => .update id _ fun _ => rfl) use

/-- An element that has contents of slots and fills a slot with its children is reported. -/
theorem slots_of_readPlacement (platform : Platform) (parent : Option Element) (inLoop : Bool)
    (el : Element) (hnotes : (readPlacement platform parent inLoop el).notes = [])
    (huse : (readPlacement platform parent inLoop el).value.2.isSome = true) :
    el.scopedSlots.isEmpty = true := by
  simp only [readPlacement, readSlotContent, notes_bind, value_bind,
    append_eq_nil_iff] at hnotes huse
  let named := (el.readKey (parent.map Element.tag)).value.markPlain.readRef inLoop
  have hslots : named.readScope.value.readSlotTarget.scopedSlots = el.scopedSlots :=
    calc named.readScope.value.readSlotTarget.frame.scopedSlots
      _ = named.readScope.value.frame.scopedSlots :=
          congrArg Frame.scopedSlots named.readScope.value.frame_readSlotTarget
      _ = el.frame.scopedSlots := (congrArg Frame.scopedSlots named.frame_readScope :)
  rw [← hslots]
  exact slots_of_readSlotDirective _ platform _ hnotes.2.2 huse

section

variable (options : Options) {tree : Tree} {id : NodeId} {el : Element}
  (hel : tree.element? id = some el)
include hel

/-- Reading an element reads what gives it a place, fills a slot, and reads the rest. -/
theorem readElement_eq {loops : List Loop}
    (hloops : ((tree.ancestors id).filterMap fun e => e.2.loop) = loops)
    {placed : Element × Option SlotUse}
    (hplaced : (readPlacement options.platform (el.parent.bind tree.element?) (!loops.isEmpty)
      el).value = placed) :
    (readElement options id tree).value =
      (fillUse id placed.2 (tree.set id (.element placed.1))).update id
        (fun el => (readContent options (loops.map Loop.item) el).value) := by
  rw [readElement, hel]
  simp only [value_bind, hloops, hplaced]
  cases placed.2 with
  | none =>
    simp only [fillUse, Tree.update]
    cases (tree.set id (.element placed.1)).element? id <;> rfl
  | some use =>
    simp only [fillUse, Tree.update]
    cases (fillSlot id use (tree.set id (.element placed.1))).element? id <;> rfl

/-- Reading an element changes its attributes, fills a slot, and changes its attributes again. Where
nothing is reported, a slot is filled only if the element has no contents of slots. -/
theorem value_readElement :
    ∃ placed use loopItems, placed.frame = el.frame.withScope placed.slotScope ∧
      (readElement options id tree).value =
        (fillUse id use (tree.set id (.element placed))).update id
          (fun el => (readContent options loopItems el).value) ∧
      ((readElement options id tree).notes = [] → use.isSome = true →
        el.scopedSlots.isEmpty = true) := by
  generalize hloops : ((tree.ancestors id).filterMap fun e => e.2.loop) = loops
  generalize hreading : readPlacement options.platform (el.parent.bind tree.element?)
    (!loops.isEmpty) el = reading
  refine ⟨reading.value.1, reading.value.2, loops.map Loop.item, ?_, ?_, ?_⟩
  · rw [← hreading]
    exact frame_readPlacement ..
  · exact readElement_eq options hel hloops (congrArg value hreading)
  · intro hnotes huse
    rw [readElement, hel] at hnotes
    simp only [notes_bind, hloops, hreading, append_eq_nil_iff] at hnotes
    rw [← hreading] at hnotes huse
    exact slots_of_readPlacement _ _ _ el hnotes.1 huse

end

/-- What extensions leave of an element that has its place. -/
def leftAs (options : Options) (el : Element) : Element :=
  (runAll afterPlacement options.extensions options.surroundings el).value

theorem leftAs_keeps (f : Element → β)
    (h : ∀ x ∈ options.extensions, ∀ surroundings el, f (x.afterPlacement surroundings el).value = f el)
    (el : Element) : f (leftAs options el) = f el :=
  runAll_keeps f afterPlacement options.extensions h _ el

/-- The last readings of an element keep what extensions keep of its frame. -/
theorem readContent_keeps {f : Frame → β}
    (hkeeps : ∀ x ∈ options.extensions, x.Keeps fun el => f el.frame) (loopItems : List String)
    (el : Element) : f (readContent options loopItems el).value.frame = f el.frame := by
  simp only [readContent, value_bind, frame_classifyAll]
  rw [runAll_keeps (fun el => f el.frame) atEnd options.extensions
    (fun x hx => (hkeeps x hx).atEnd)]
  exact congrArg f el.frame_readOutlet

theorem tree_finishElement (id : NodeId) (b : Builder) :
    (b.finishElement options id).value.tree = b.tree.update id (leftAs options) := by
  rw [finishElement, Tree.update]
  cases b.tree.element? id <;> rfl

theorem tree_finishReading (id : NodeId) (b : Builder) :
    (b.finishReading options id).value.tree =
      if b.inVerbatim || (b.tree.element? id).any processed then b.tree
      else (readElement options id b.tree).value := by
  simp only [finishReading, value_bind, value_ite, value_pure]

section Hooks

variable (hkeeps : ∀ x ∈ options.extensions, x.Keeps fun el => g el.identity)
  (hcontainer : fresh (.inr (g Element.Identity.container)))
include hkeeps

theorem keeps_finishElement (id : NodeId) (b : Builder) :
    Keeps g fresh b.tree (b.finishElement options id).value.tree := by
  rw [tree_finishElement]
  refine .update id _ (leftAs_keeps (fun el => g el.identity) fun x hx => ?_)
  exact (hkeeps x hx).afterPlacement

include hcontainer

theorem keeps_readElement (id : NodeId) (tree : Tree) :
    Keeps g fresh tree (readElement options id tree).value := by
  cases hel : tree.element? id with
  | none =>
    rw [readElement, hel]
    exact .refl tree
  | some el =>
    obtain ⟨placed, use, loopItems, hframe, hvalue, -⟩ := value_readElement options hel
    rw [hvalue]
    refine Keeps.trans ?_ (.update id _ (readContent_keeps (f := g ∘ Frame.identity) hkeeps loopItems))
    have hidentity : placed.identity = el.identity :=
      (congrArg Frame.identity hframe :)
    exact (Keeps.set hel (congrArg g hidentity)).trans (keeps_fillUse hcontainer id use _)

theorem keeps_finishReading (id : NodeId) (b : Builder) :
    Keeps g fresh b.tree (b.finishReading options id).value.tree := by
  rw [tree_finishReading]
  split
  · exact .refl b.tree
  · exact keeps_readElement hkeeps hcontainer id b.tree

end Hooks

/-- A choice keeps its guard when a branch joins it. -/
theorem identity_addBranch (branch : Branch) (el : Element) :
    (el.addBranch branch).identity = el.identity := by
  have hguard : (el.addBranch branch).choice.map Choice.guard = el.choice.map Choice.guard := by
    rw [addBranch, Option.map_map]
    rfl
  exact congrArg (fun guard => { el.identity with guard }) hguard

/-- The children of an element up to its last child element, last first. -/
def untilElement (tree : Tree) (parent : NodeId) : List NodeId :=
  (((tree.element? parent).map Element.children).getD []).reverse.dropWhile
    fun child => !tree.isElement child

/-- The tree with the texts after the last child element dropped. -/
def dropTexts (tree : Tree) (parent : NodeId) : Tree :=
  tree.update parent fun p => { p with children := (untilElement tree parent).reverse }

/-- The texts after the last child element, last first. -/
def textsAfter (tree : Tree) (parent : NodeId) : List NodeId :=
  (((tree.element? parent).map Element.children).getD []).reverse.takeWhile
    fun child => !tree.isElement child

theorem placeBranch_eq (id : NodeId) (el : Element) (parent : NodeId) (tree : Tree) :
    placeBranch id el parent tree = (do
      (textsAfter tree parent).forM (reportIgnored tree)
      match (untilElement tree parent).head?.filter fun previous =>
        ((dropTexts tree parent).element? previous).any fun p => p.choice.isSome with
      | some previous =>
        pure ((dropTexts tree parent).update previous (addBranch ⟨el.elseIf, id⟩))
      | none =>
        error (.orphanElse el.tag el.elseIf)
          (el.rangeOf (if el.elseIf.isSome then "v-else-if" else "v-else"))
        pure (dropTexts tree parent)) := rfl

/-- The builder with a closing element read and in its place, before it leaves the element. -/
def placed (options : Options) (id : NodeId) (b : Builder) : Builder :=
  ((((b.trimChildren id).finishReading options id).value.place id).value.withTree
    (dropSlotContent id)).trimChildren id

theorem value_close (id : NodeId) (b : Builder) :
    (b.close options id).value = ((b.placed options id).finishElement options id).value := by
  simp only [close, placed, value_bind]

/-! ## The open elements -/

/-- Where a builder stands: the open elements, and whether it is in a verbatim region or in one that
keeps all blanks. -/
def standing (b : Builder) : List NodeId × Bool × Bool := (b.stack, b.inVerbatim, b.inPre)

section

variable (id : NodeId)

theorem standing_placeOutside (el : Element) (b : Builder) :
    (b.placeOutside id el).value.standing = b.standing := by
  rw [placeOutside]
  split
  · split <;> rfl
  · rfl

/-- An element gets its place from where the builder stands. -/
@[simp] theorem standing_place (b : Builder) :
    (b.place id).value.standing = b.standing := by
  rw [place]
  split
  · rfl
  · exact standing_placeOutside ..

@[simp] theorem standing_placed (b : Builder) :
    (b.placed options id).standing = b.standing :=
  standing_place id ((b.trimChildren id).finishReading options id).value

theorem standing_claimRoot (el : Element) (b : Builder) :
    (b.claimRoot id el).value.standing = b.standing := by
  rw [claimRoot]
  split <;> rfl

@[simp] theorem stack_trimChildren (b : Builder) : (b.trimChildren id).stack = b.stack := rfl

@[simp] theorem stack_finishReading (b : Builder) :
    (b.finishReading options id).value.stack = b.stack := rfl

@[simp] theorem stack_placeOutside (el : Element) (b : Builder) :
    (b.placeOutside id el).value.stack = b.stack := congrArg Prod.fst (standing_placeOutside id el b)

@[simp] theorem stack_place (b : Builder) : (b.place id).value.stack = b.stack :=
  congrArg Prod.fst (standing_place id b)

@[simp] theorem stack_finishElement (b : Builder) :
    (b.finishElement options id).value.stack = b.stack := by
  rw [finishElement]
  split <;> rfl

/-- Closing an element leaves the open elements alone. -/
@[simp] theorem stack_close (b : Builder) :
    (b.close options id).value.stack = b.stack := by
  rw [value_close, stack_finishElement]
  exact stack_place id ((b.trimChildren id).finishReading options id).value

@[simp] theorem stack_claimRoot (el : Element) (b : Builder) :
    (b.claimRoot id el).value.stack = b.stack := congrArg Prod.fst (standing_claimRoot id el b)

theorem nodes_claimRoot (el : Element) (b : Builder) :
    (b.claimRoot id el).value.tree.nodes = b.tree.nodes := by
  rw [claimRoot]
  split <;> rfl

end

/-! ## Placing -/

/-- The tree where a branch has been given to an element, if that holds a choice. -/
def giveBranch (holder : Option NodeId) (branch : Branch) (tree : Tree) : Tree :=
  match holder.filter fun previous => (tree.element? previous).any fun p => p.choice.isSome with
  | some previous => tree.update previous (addBranch branch)
  | none => tree

theorem giveBranch_cases (holder : Option NodeId) (branch : Branch) (tree : Tree) :
    giveBranch holder branch tree = tree ∨
      ∃ previous p, holder = some previous ∧ tree.element? previous = some p ∧ p.choice.isSome ∧
        giveBranch holder branch tree = tree.update previous (addBranch branch) := by
  rw [giveBranch]
  split
  · rename_i previous hprevious
    simp only [filter_eq_some_iff, Option.any_eq_true] at hprevious
    obtain ⟨hholder, p, hp, hchoice⟩ := hprevious
    exact .inr ⟨previous, p, hholder, hp, hchoice, rfl⟩
  · exact .inl rfl

/-- Outside all others an element joins the choice of the root, or has no place. -/
theorem tree_place_outside {b : Builder} {id : NodeId} {el : Element}
    (hel : b.tree.element? id = some el) (hparent : b.parent? = none) :
    (b.place id).value.tree =
      giveBranch (if el.isBranch then if b.tree.root = some id then none else b.tree.root else none)
        ⟨el.elseIf, id⟩ b.tree := by
  have hstack : b.stack = [] := head?_eq_none_iff.mp hparent
  have hinside : (b.place id).value.tree = (b.placeOutside id el).value.tree := by
    have hstay (b' : Builder) (hb' : b'.stack = []) :
        (b'.placeInside id el).value.tree = b'.tree := by
      rw [placeInside, parent?, hb']
      rfl
    rw [place, hel]
    exact hstay _ ((stack_placeOutside id el b).trans hstack)
  rw [hinside, placeOutside, hstack]
  by_cases hid : b.tree.root = some id
  · simp [hid, giveBranch]
  · simp only [isEmpty_nil, hid, decide_true, Bool.and_self, if_true, if_false, ne_eq,
      not_false_eq_true, giveBranch]
    cases el.isBranch with
    | false => cases b.tree.root <;> rfl
    | true =>
      simp only [Bool.true_and, if_true]
      cases b.tree.root.filter fun root => (b.tree.element? root).any fun r => r.choice.isSome <;> rfl

/-- Inside another element it is left out, joins the choice of the element before it, or becomes a
child. -/
theorem tree_place_inside {b : Builder} {id parent : NodeId} {el : Element}
    (hel : b.tree.element? id = some el)
    (hparent : b.parent? = some parent) :
    (b.place id).value.tree =
      if el.forbidden then b.tree
      else if el.isBranch then
        giveBranch (untilElement b.tree parent).head? ⟨el.elseIf, id⟩ (dropTexts b.tree parent)
      else placeChild id el parent b.tree := by
  have hstay : (b.placeOutside id el).value = b := by
    obtain ⟨rest, hstack⟩ := head?_eq_some_iff.mp hparent
    rw [placeOutside, hstack]
    rfl
  have hinside : (b.place id).value.tree = (b.placeInside id el).value.tree := by
    rw [place, hel]
    show ((b.placeOutside id el).value.placeInside id el).value.tree = _
    rw [hstay]
  rw [hinside, placeInside]
  simp only [hparent, value_bind, value_ite]
  split
  · rfl
  · split
    · rw [placeBranch_eq, giveBranch]
      simp only [value_bind]
      cases (untilElement b.tree parent).head?.filter fun previous =>
        ((dropTexts b.tree parent).element? previous).any fun p => p.choice.isSome <;> rfl
    · rfl

/-- What holds after an element got its place: the element is left out, joins the choice of another
one, or becomes a child of the one around it. -/
theorem of_place {P : Tree → Prop} {b : Builder} {id : NodeId} (hsame : P b.tree)
    (hdrop : ∀ parent, b.parent? = some parent → P (dropTexts b.tree parent))
    (hjoin : ∀ {tree : Tree} holder branch, P tree →
      P (tree.update holder (addBranch branch)))
    (hchild : ∀ el parent, b.tree.element? id = some el → b.parent? = some parent →
      P (placeChild id el parent b.tree)) : P (b.place id).value.tree := by
  have hgive {tree : Tree} (holder : Option NodeId) (branch : Branch) (htree : P tree) :
      P (giveBranch holder branch tree) := by
    rcases giveBranch_cases holder branch tree with hsame | ⟨previous, p, -, -, -, hgiven⟩
    · rwa [hsame]
    · rw [hgiven]
      exact hjoin previous branch htree
  cases hel : b.tree.element? id with
  | none =>
    rw [place, hel]
    exact hsame
  | some el =>
    cases hparent : b.parent? with
    | none =>
      rw [tree_place_outside hel hparent]
      exact hgive _ _ hsame
    | some parent =>
      rw [tree_place_inside hel hparent]
      split
      · exact hsame
      · split
        · exact hgive _ _ (hdrop parent hparent)
        · exact hchild el parent hel hparent

section Links

variable {R : Tree → Tree → Prop} (h : AllowsLinks R)
include h

theorem related_trimChildren (id : NodeId) (b : Builder) : R b.tree (b.trimChildren id).tree :=
  h.links ..

theorem related_place (id : NodeId) (b : Builder) : R b.tree (b.place id).value.tree :=
  of_place (h.refl b.tree) (fun _ _ => h.links ..) (fun _ _ htree => h.trans htree (h.branch ..))
    fun _ _ _ _ => h.trans (h.links ..) (h.links ..)

/-- What follows the readings of a closing element concerns its links. -/
theorem related_placed (options : Options) (id : NodeId) (b : Builder) :
    R ((b.trimChildren id).finishReading options id).value.tree (b.placed options id).tree := by
  refine h.trans (related_place h id _) (h.trans ?_ (related_trimChildren h id _))
  exact h.links ..

end Links

theorem allowsLinks_keeps : AllowsLinks (Keeps g fresh) where
  refl := .refl
  trans := .trans
  links _ id _ _ _ := .update id _ fun _ => rfl
  branch _ id branch := .update id _ fun el => congrArg g (identity_addBranch branch el)

section Hooks

variable (hkeeps : ∀ x ∈ options.extensions, x.Keeps fun el => g el.identity)
  (hcontainer : fresh (.inr (g Element.Identity.container)))
include hkeeps hcontainer

theorem keeps_placed (id : NodeId) (b : Builder) :
    Keeps g fresh b.tree (b.placed options id).tree := by
  exact ((related_trimChildren allowsLinks_keeps id b).trans
    (keeps_finishReading hkeeps hcontainer id _)).trans (related_placed allowsLinks_keeps options id b)

/-- Closing an element changes no identity. -/
theorem keeps_close (id : NodeId) (b : Builder) :
    Keeps g fresh b.tree (b.close options id).value.tree := by
  rw [value_close]
  exact (keeps_placed hkeeps hcontainer id b).trans (keeps_finishElement hkeeps id _)

end Hooks

/-! ## Start tags -/

/-- Entering an element reads its structural directives and touches nothing else of its frame. -/
theorem frame_enter (options : Options) (el : Element) (b : Builder) :
    (b.enter options el).value.1.frame =
      { el.frame with
        pre := (b.enter options el).value.1.pre
        loop := (b.enter options el).value.1.loop
        choice := (b.enter options el).value.1.choice
        elseIf := (b.enter options el).value.1.elseIf
        isElse := (b.enter options el).value.1.isElse
        once := (b.enter options el).value.1.once } := by
  have hread : (if b.inVerbatim then el else el.readVerbatim).frame =
      { el.frame with pre := (if b.inVerbatim then el else el.readVerbatim).pre } := by
    split <;> rfl
  simp only [enter, value_bind, value_ite, value_pure]
  generalize (if b.inVerbatim then el else el.readVerbatim) = read at hread
  let entered (e : Element) (f : Frame) : Frame :=
    { f with
      pre := e.pre
      loop := e.loop
      choice := e.choice
      elseIf := e.elseIf
      isElse := e.isElse
      once := e.once }
  have hstay {e : Element} (he : e.frame = read.frame) : e.frame = entered e el.frame :=
    (congrArg (entered e) (he.trans hread) :)
  split
  · exact hstay rfl
  · split
    · exact hstay rfl
    · let e := read.readStructure.value
      calc e.frame
        _ = entered e read.frame := (congrArg (entered e) read.frame_readStructure :)
        _ = entered e el.frame := (congrArg (entered e) hread :)

/-- A choice that an element enters with has no later branches yet. -/
theorem otherBranches_enter (options : Options) {el : Element} (h : el.otherBranches = [])
    (b : Builder) : (b.enter options el).value.1.otherBranches = [] := by
  have hread : (if b.inVerbatim then el else el.readVerbatim).otherBranches = [] := by
    split
    · exact h
    · exact h
  simp only [enter, value_bind, value_ite, value_pure]
  generalize (if b.inVerbatim then el else el.readVerbatim) = read at hread
  split
  · exact hread
  · split
    · exact hread
    · exact read.otherBranches_readStructure hread

theorem tree_enter (options : Options) (el : Element) (b : Builder) :
    (b.enter options el).value.2.tree = b.tree := rfl

/-- The element of a start tag as it goes into the tree. -/
def entered (options : Options) (tag : String) (attributes : List Attribute) (range : Range)
    (b : Builder) : Element :=
  (b.enter options (b.newElement options tag attributes range).value).value.1

/-- The builder with the element of a start tag in its tree. -/
def opened (options : Options) (tag : String) (attributes : List Attribute) (range : Range)
    (b : Builder) : Builder :=
  let inside := (b.enter options (b.newElement options tag attributes range).value).value.2
  let el := b.entered options tag attributes range
  (({ inside with tree := (inside.tree.add (.element el)).2 } : Builder).claimRoot
    b.tree.nodes.size el).value

section

variable (options : Options) (tag : String) (attributes : List Attribute)

/-- A start tag puts its element into the tree; an element without content is closed at once. -/
theorem value_start (unary : Bool) (range : Range) (b : Builder) :
    (b.start options tag attributes unary range).value =
      if unary then
        ((b.opened options tag attributes range).close options b.tree.nodes.size).value
      else
        { b.opened options tag attributes range with stack := b.tree.nodes.size :: b.stack } := by
  have htree := tree_enter options (b.newElement options tag attributes range).value b
  have hstack : (b.opened options tag attributes range).stack = b.stack :=
    stack_claimRoot ..
  rw [← hstack]
  simp only [start, opened, entered, value_bind, htree]
  cases unary <;> rfl

theorem stack_opened (range : Range) (b : Builder) :
    (b.opened options tag attributes range).stack = b.stack :=
  stack_claimRoot ..

theorem nodes_opened (range : Range) (b : Builder) :
    (b.opened options tag attributes range).tree.nodes =
      (b.tree.add (.element (b.entered options tag attributes range))).2.nodes := by
  rw [opened, nodes_claimRoot]
  show (Tree.add _ _).2.nodes = _
  rw [tree_enter]

theorem element?_opened (range : Range) (b : Builder) (j : NodeId) :
    (b.opened options tag attributes range).tree.element? j =
      if j = b.tree.nodes.size then some (b.entered options tag attributes range)
      else b.tree.element? j := by
  rw [element?, node?, nodes_opened]
  exact element?_add ..

end

/-- The element of a start tag before an extension has seen it. -/
def bare (options : Options) (tag : String) (attributes : List Attribute) (range : Range)
    (b : Builder) : Element :=
  let el := { ofTag tag attributes b.parent? with
    ns := ((b.parent?.bind b.tree.element?).bind Element.ns).or (options.platform.namespaceOf tag)
    range := some range }
  { el with forbidden := el.hasSideEffects }

section

variable (options : Options) (tag : String) (attributes : List Attribute) (range : Range)
  (b : Builder)

theorem root_opened :
    (b.opened options tag attributes range).tree.root =
      if b.tree.root.isNone then some b.tree.nodes.size else b.tree.root := by
  have htree := tree_enter options (b.newElement options tag attributes range).value b
  simp only [opened, claimRoot, htree, root_add]
  split <;> rfl

/-- The element of a start tag is what extensions make of the bare one. -/
theorem value_newElement :
    (b.newElement options tag attributes range).value =
      (runAll atStart options.extensions options.surroundings
        (b.bare options tag attributes range)).value := rfl

end

/-- What extensions keep at a start tag is as the start tag gives it. -/
theorem newElement_keeps (f : Element → β)
    (h : ∀ x ∈ options.extensions, ∀ surroundings el, f (x.atStart surroundings el).value = f el)
    (tag : String) (attributes : List Attribute) (range : Range) (b : Builder) :
    f (b.newElement options tag attributes range).value =
      f (b.bare options tag attributes range) := by
  rw [value_newElement]
  exact runAll_keeps f atStart options.extensions h _ _

/-! ## Texts and comments -/

theorem isNewText_textNode? {parent : Element} {content : String} {range : Range} {b : Builder}
    {node : Node} (h : b.textNode? options parent content range = some node) :
    node.IsNewText range := by
  simp only [textNode?] at h
  split at h
  · cases h
    exact ⟨rfl, rfl, rfl⟩
  · split at h
    · cases h
    · cases h
      exact ⟨rfl, rfl, rfl⟩

/-- No binding is looked for in a verbatim region. -/
theorem plain_textNode? {b : Builder} {parent : Element} {content : String} {range : Range}
    {node : Node} (hv : b.inVerbatim = true) (h : b.textNode? options parent content range = some node) :
    ∃ t, node = .plain t := by
  simp only [textNode?, hv, Bool.true_or, if_true] at h
  split at h
  · cases h
  · cases h
    exact ⟨_, rfl⟩

/-- What is kept of a text is the node of some text. -/
theorem exists_textNode? {b : Builder} {parent : Element} {content : String} {range : Range}
    {node : Node} (h : b.keptNode? options parent content range = some node) :
    ∃ kept, b.textNode? options parent kept range = some node := by
  simp only [keptNode?] at h
  split at h
  · cases h
  · exact ⟨_, h⟩

section

variable (options : Options) (template content : String) (range : Range) (b : Builder)

/-- A text leaves the tree alone or its node becomes the last child of the innermost open element. -/
theorem tree_text_cases :
    (b.text options template content range).value.tree = b.tree ∨
      ∃ id parent kept node, b.parent? = some id ∧ b.tree.element? id = some parent ∧
        b.textNode? options parent kept range = some node ∧
        (b.text options template content range).value.tree = appendNode id node b.tree := by
  rw [text]
  split
  · exact .inl rfl
  · rename_i id hid
    split
    · rename_i node hnode
      obtain ⟨parent, hparent, hkept⟩ := bind_eq_some_iff.mp hnode
      obtain ⟨kept, hkept⟩ := exists_textNode? hkept
      exact .inr ⟨id, parent, kept, node, hid, hparent, hkept, rfl⟩
    · exact .inl rfl

/-- A text leaves the builder where it stands. -/
theorem standing_text :
    (b.text options template content range).value.standing = b.standing := by
  rw [text]
  split
  · rfl
  · split <;> rfl

@[simp] theorem stack_text : (b.text options template content range).value.stack = b.stack :=
  congrArg Prod.fst (standing_text options template content range b)

end

section

variable (content : String) (range : Range) (b : Builder)

theorem standing_comment :
    (b.comment content range).standing = b.standing := by
  rw [comment]
  split <;> rfl

@[simp] theorem stack_comment :
    (b.comment content range).stack = b.stack :=
  congrArg Prod.fst (standing_comment content range b)

end

theorem keeps_appendNode (parent : NodeId) {node : Node} (hnode : fresh (node.seen g))
    (tree : Tree) : Keeps g fresh tree (appendNode parent node tree) :=
  Keeps.trans (.add hnode) (.update parent _ fun _ => rfl)

/-! ## Events -/

/-- The element that an event closes, and the builder just before that. -/
def closing (options : Options) (b : Builder) : Event → Option (NodeId × Builder)
  | .start tag attributes true place => some (b.tree.nodes.size, b.opened options tag attributes place)
  | .finish _ place => b.stack.head?.map fun id =>
    (id, ({ b with stack := b.stack.tail } : Builder).withTree fun tree => tree.update id fun el =>
      { el with range := el.range.map fun r => { r with stop := place.stop } })
  | _ => none

/-- The two ways in which an event closes an element: a start tag that is its own end, and an end tag
with an element open. -/
inductive ClosesAt (options : Options) (b : Builder) : Event → NodeId → Builder → Prop
  | unary (tag : String) (attributes : List Attribute) (range : Range) :
      ClosesAt options b (.start tag attributes true range) b.tree.nodes.size
        (b.opened options tag attributes range)
  | finish (tag : String) (range : Range) {i : NodeId} {rest : List NodeId}
      (hstack : b.stack = i :: rest) :
      ClosesAt options b (.finish tag range) i
        (({ b with stack := rest } : Builder).withTree fun tree => tree.update i fun el =>
          { el with range := el.range.map fun r => { r with stop := range.stop } })

theorem closesAt_of_closing {b before : Builder} {e : Event} {i : NodeId}
    (h : b.closing options e = some (i, before)) :
    b.ClosesAt options e i before := by
  cases e with
  | start tag attributes unary range =>
    cases unary with
    | true =>
      cases h
      exact .unary tag attributes range
    | false => cases h
  | finish tag range =>
    obtain ⟨id, hid, heq⟩ := Option.map_eq_some_iff.mp h
    cases heq
    obtain ⟨rest, hrest⟩ := head?_eq_some_iff.mp hid
    rw [hrest]
    exact .finish tag range hrest
  | text | comment => cases h

theorem ClosesAt.closing_eq {b before : Builder} {e : Event} {i : NodeId}
    (h : b.ClosesAt options e i before) : b.closing options e = some (i, before) := by
  cases h with
  | unary tag attributes range => rfl
  | finish tag range hstack =>
    rw [closing, hstack]
    rfl

theorem value_step_of_closing {template : String} {b before : Builder} {e : Event} {i : NodeId}
    (h : b.closing options e = some (i, before)) :
    (b.step options template e).value = (before.close options i).value := by
  cases closesAt_of_closing h with
  | unary tag attributes range => exact value_start ..
  | finish tag range hstack =>
    rw [step, finish, hstack]

/-- What an event does to a builder: it opens an element or closes one, it adds a text or a comment to
the innermost open element, or it leaves the tree alone. -/
inductive Steps (options : Options) (b : Builder) : Event → Builder → Prop
  | opens (tag : String) (attributes : List Attribute) (range : Range) :
      Steps options b (.start tag attributes false range)
        { b.opened options tag attributes range with stack := b.tree.nodes.size :: b.stack }
  | closes {e : Event} {i : NodeId} {before : Builder} (hclosing : ClosesAt options b e i before) :
      Steps options b e (before.close options i).value
  | appends {e : Event} {later : Builder} {id : NodeId} {node : Node} {content : String}
      {range : Range} (he : e = .text content range ∨ e = .comment content range)
      (hid : b.parent? = some id) (hnode : node.IsNewText range)
      (hplain : b.inVerbatim = true → ∃ t, node = .plain t)
      (htree : later.tree = appendNode id node b.tree) (hstack : later.stack = b.stack)
      (hmode : later.inVerbatim = b.inVerbatim) : Steps options b e later
  | stays {e : Event} {later : Builder} (hclosing : b.closing options e = none)
      (hstart : ∀ tag attributes unary range, e ≠ .start tag attributes unary range)
      (htree : later.tree = b.tree) (hstack : later.stack = b.stack)
      (hmode : later.inVerbatim = b.inVerbatim) : Steps options b e later

theorem steps_step (options : Options) (template : String) (b : Builder) (e : Event) :
    b.Steps options e (b.step options template e).value := by
  cases e with
  | start tag attributes unary range =>
    rw [step, value_start]
    cases unary with
    | true => exact .closes (.unary tag attributes range)
    | false => exact .opens tag attributes range
  | finish tag range =>
    rw [step, finish]
    cases hstack : b.stack with
    | nil => exact .stays (by rw [closing, hstack]; rfl) nofun rfl rfl rfl
    | cons id rest => exact .closes (.finish tag range hstack)
  | text content range =>
    have hstack := stack_text options template content range b
    have hmode : (b.text options template content range).value.inVerbatim = b.inVerbatim :=
      congrArg (·.2.1) (standing_text options template content range b)
    rcases tree_text_cases options template content range b with
      htree | ⟨id, parent, kept, node, hid, -, hnode, htree⟩
    · exact .stays rfl nofun htree hstack hmode
    · exact .appends (.inl rfl) hid (isNewText_textNode? hnode) (plain_textNode? · hnode) htree
        hstack hmode
  | comment content range =>
    show b.Steps options _ (b.comment content range)
    rw [comment]
    cases hid : b.parent? with
    | none => exact .stays rfl nofun rfl rfl rfl
    | some id =>
      exact .appends (.inr rfl) hid ⟨rfl, rfl, rfl⟩ (fun _ => ⟨_, rfl⟩) rfl rfl rfl

end Builder

end ViewTemplate
