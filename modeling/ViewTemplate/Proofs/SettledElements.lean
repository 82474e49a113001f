import ViewTemplate.Proofs.ForestBuilding

/-! # What later events leave alone

Links between elements change until the elements around them are closed: children and branches are
added, and contents move into slots. All else about an element is settled when it closes, and before
that it changes at its own end tag only. In a verbatim region it does not change even there.
-/

namespace ViewTemplate

/-- An element without its links to other elements and without its place in the source. -/
def Element.unlinked (el : Element) : Element :=
  { el with parent := none, children := [], range := none, choice := none, scopedSlots := {} }

namespace Tree

/-- The element with a number is the same up to its links. -/
def SameAt (i : NodeId) (tree later : Tree) : Prop :=
  ∀ el, tree.element? i = some el → ∃ el', later.element? i = some el' ∧ el'.unlinked = el.unlinked

namespace SameAt

variable {i : NodeId} {tree mid later : Tree}

theorem refl (i : NodeId) (tree : Tree) : SameAt i tree tree := fun el hel => ⟨el, hel, rfl⟩

theorem unlinked_eq (h : SameAt i tree later) {el el' : Element} (hel : tree.element? i = some el)
    (hel' : later.element? i = some el') : el'.unlinked = el.unlinked := by
  obtain ⟨_, hlater, heq⟩ := h el hel
  rw [hel'] at hlater
  cases hlater
  exact heq

theorem of_eq (h : later = tree) : SameAt i tree later := h ▸ refl i tree

theorem of_nodes (h : later.nodes = tree.nodes) : SameAt i tree later := by
  intro el hel
  refine ⟨el, ?_, rfl⟩
  rwa [element?, node?, h]

theorem trans (h : SameAt i tree mid) (h' : SameAt i mid later) : SameAt i tree later := by
  intro el hel
  obtain ⟨el', hel', heq⟩ := h el hel
  obtain ⟨el'', hel'', heq'⟩ := h' el' hel'
  exact ⟨el'', hel'', heq'.trans heq⟩

theorem update (id : NodeId) {f : Element → Element}
    (hf : i = id → ∀ el, (f el).unlinked = el.unlinked) : SameAt i tree (tree.update id f) := by
  intro el hel
  rw [element?_update]
  split
  · rename_i hi
    subst hi
    rw [hel]
    exact ⟨f el, rfl, hf rfl el⟩
  · exact ⟨el, hel, rfl⟩

theorem set (id : NodeId) (node : Node) (hne : i ≠ id) : SameAt i tree (tree.set id node) := by
  intro el hel
  refine ⟨el, ?_, rfl⟩
  rw [element?, node?_set, if_neg hne]
  exact hel

theorem add (node : Node) : SameAt i tree (tree.add node).2 := by
  intro el hel
  refine ⟨el, ?_, rfl⟩
  rw [element?_add, if_neg (Nat.ne_of_lt (lt_size_of_element? hel)), hel]

end SameAt

end Tree

namespace Builder

open ViewTemplate.Tree

variable {i : NodeId} {options : Options}

theorem allowsLinks_sameAt : AllowsLinks (SameAt i) where
  refl := .refl i
  trans := .trans
  links _ id _ _ _ := .update id fun _ _ => rfl
  branch _ id _ := .update id fun _ _ => rfl

theorem sameAt_fillUse {id : NodeId} (hne : i ≠ id) (use : Option Element.SlotUse) (tree : Tree) :
    SameAt i tree (fillUse id use tree) :=
  fillUse_of_parts (.refl i) .trans (fun _ _ => .add _)
    (fun _ child _ => .update child fun _ _ => rfl) (fun _ _ => .update id fun h => absurd h hne) use

/-- Reading an element at its end tag changes no other. -/
theorem sameAt_finishReading {id : NodeId} {b : Builder} (h : i = id → b.inVerbatim = true) :
    SameAt i b.tree (b.finishReading options id).value.tree := by
  rw [finishReading]
  split
  · exact .refl i b.tree
  · rename_i hread
    simp only [Bool.or_eq_true, not_or, Bool.not_eq_true] at hread
    have hne : i ≠ id := fun heq => Bool.false_ne_true (hread.1.symm.trans (h heq))
    show SameAt i b.tree (readElement options id b.tree).value
    cases hel : b.tree.element? id with
    | none =>
      rw [readElement, hel]
      exact .refl i b.tree
    | some el =>
      obtain ⟨placed, use, loopItems, -, hvalue, -⟩ := value_readElement options hel
      rw [hvalue]
      refine SameAt.trans ?_ (.update id fun heq => absurd heq hne)
      exact (SameAt.set id _ hne).trans (sameAt_fillUse hne use _)

/-- What extensions do to an element that has its place concerns its links only. -/
def LeavesPlaced (options : Options) : Prop :=
  ∀ x ∈ options.extensions, ∀ surroundings el,
    (x.afterPlacement surroundings el).value.unlinked = el.unlinked

theorem sameAt_finishElement {id : NodeId} (h : i = id → LeavesPlaced options) (b : Builder) :
    SameAt i b.tree (b.finishElement options id).value.tree := by
  rw [tree_finishElement]
  exact .update id fun heq => leftAs_keeps Element.unlinked (h heq)

/-- What follows the readings of an element that closes concerns links only. -/
theorem sameAt_close_of_read {id : NodeId} {b : Builder} (h : i = id → LeavesPlaced options) :
    SameAt i ((b.trimChildren id).finishReading options id).value.tree
      (b.close options id).value.tree := by
  rw [value_close]
  exact (related_placed allowsLinks_sameAt options id b).trans (sameAt_finishElement h _)

/-- Closing an element settles it and changes nothing but links elsewhere. In a verbatim region it
changes nothing but links at all. -/
theorem sameAt_close {id : NodeId} {b : Builder}
    (h : i = id → b.inVerbatim = true ∧ LeavesPlaced options) :
    SameAt i b.tree (b.close options id).value.tree := by
  have hread : SameAt i (b.trimChildren id).tree
      ((b.trimChildren id).finishReading options id).value.tree :=
    sameAt_finishReading fun heq => (h heq).1
  exact ((related_trimChildren allowsLinks_sameAt id b).trans hread).trans
    (sameAt_close_of_read fun heq => (h heq).2)

theorem sameAt_opened (tag : String) (attributes : List Attribute) (range : Range) (b : Builder) :
    SameAt i b.tree (b.opened options tag attributes range).tree :=
  (SameAt.add _).trans (.of_nodes (nodes_opened options tag attributes range b))

theorem sameAt_appendNode (parent : NodeId) (node : Node) (tree : Tree) :
    SameAt i tree (appendNode parent node tree) :=
  (SameAt.add node).trans (.update parent fun _ _ => rfl)

theorem sameAt_of_closesAt {b before : Builder} {e : Event} {id : NodeId}
    (h : b.ClosesAt options e id before) : SameAt i b.tree before.tree := by
  cases h with
  | unary tag attributes range => exact sameAt_opened tag attributes range b
  | finish tag range hstack => exact .update _ fun _ _ => rfl

/-- An event leaves an element alone up to its links, unless it is its own end tag outside of
verbatim regions. -/
theorem sameAt_step (template : String) {b : Builder} (e : Event) (hi : i < b.tree.nodes.size)
    (h : ∀ tag range, e = .finish tag range → b.stack.head? = some i →
      b.inVerbatim = true ∧ LeavesPlaced options) :
    SameAt i b.tree (b.step options template e).value.tree := by
  have hsteps := steps_step options template b e
  generalize (b.step options template e).value = later at hsteps ⊢
  cases hsteps with
  | opens tag attributes range => exact sameAt_opened tag attributes range b
  | closes hclosing =>
    refine (sameAt_of_closesAt hclosing).trans (sameAt_close ?_)
    rintro rfl
    cases hclosing with
    | unary tag attributes range => exact absurd hi (Nat.lt_irrefl _)
    | finish tag range hstack => exact h tag range rfl (congrArg List.head? hstack)
  | appends _ _ _ _ htree =>
    rw [htree]
    exact sameAt_appendNode _ _ b.tree
  | stays _ _ htree => exact .of_eq htree

end Builder

end ViewTemplate
