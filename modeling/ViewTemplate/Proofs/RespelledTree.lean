import ViewTemplate.Proofs.BuilderFrame
import ViewTemplate.Proofs.RespelledElement

/-! # Trees in two spellings

Two templates whose start tags correspond up to the spelling of names build trees whose nodes
correspond: each step of the one construction is matched by the same step of the other.
-/

open List Option

namespace ViewTemplate

open Element

/-- Elements of corresponding start tags. -/
def Element.Alike (n : Nat) (e e' : Element) : Prop := ∃ r, e.Respelled r n e'

theorem Element.Respelled.of_pending_nil {r : Respelling} {n : Nat} {e e' : Element}
    (h : e.Respelled r n e') (hnil : e.pending = []) (m : Nat) : e.Respelled r m e' where
  __ := h
  slots a ha := by
    rw [hnil, filter_nil, drop_nil] at ha
    cases ha

namespace Element.Alike

variable {n : Nat} {e e' : Element}

theorem change (h : e.Alike n e') (f : Element → Element) (hf : PassesShown f) : (f e).Alike n (f e') := by
  obtain ⟨r, h⟩ := h
  exact ⟨r, h.change f hf⟩

theorem shown (h : e.Alike n e') : e'.shown = e.shown := by
  obtain ⟨r, h⟩ := h
  exact h.shown

theorem read {α : Type} (h : e.Alike n e') (f : Element → α) (hf : ∀ el, f el.shown = f el) :
    f e' = f e := by
  obtain ⟨r, h⟩ := h
  exact h.read f hf

theorem attribute?_fixed (h : e.Alike n e') {name : String}
    (hname : Spelling.isFixed name = true) : e'.attribute? name = e.attribute? name := by
  obtain ⟨r, h⟩ := h
  exact h.attribute?_fixed hname

theorem weaken {m : Nat} (h : e.Alike n e') (hnm : n ≤ m) : e.Alike m e' := by
  obtain ⟨r, h⟩ := h
  exact ⟨r, { h with slots := fun a ha => h.slots a (drop_subset_drop_left _ hnm ha) }⟩

/-- The container of a slot has no attributes. -/
theorem slotContainer (n : Nat) (use : SlotUse) (owner : NodeId) (children : List NodeId) :
    (Element.slotContainer use owner children).Alike n (Element.slotContainer use owner children) := by
  have hnone : RespelledAttributes (fun _ => false) "template" [] [] :=
    { each := .nil
      unmixed := rfl
      unmixed_second := rfl
      ignored := fun _ ha => nomatch ha
      slots := fun _ ha => nomatch ha }
  have htag := (Respelled.ofTag hnone (some owner)).change (fun el =>
    { el with
      slotTarget := some use.name
      slotTargetDynamic := use.dynamic
      slotScope := some use.scope
      children }) fun _ => rfl
  exact ⟨_, htag.of_pending_nil rfl n⟩

end Element.Alike

/-- Nodes that correspond: elements of corresponding start tags, or the same text. -/
inductive Node.Alike (n : Nat) : Node → Node → Prop
  | element {e e' : Element} (h : e.Alike n e') : Alike n (.element e) (.element e')
  | interpolated (t : InterpolatedText) (range : Option Range) :
      Alike n (.interpolated t) (.interpolated { t with range })
  | plain (t : PlainText) (range : Option Range) : Alike n (.plain t) (.plain { t with range })

theorem Node.Alike.text? {n : Nat} {node node' : Node} (h : node.Alike n node') :
    node'.text? = node.text? := by
  cases h <;> rfl

/-- Trees whose nodes correspond. The table says of each element how many of the slot directives that
are left to it may be respelled. -/
structure Tree.Alike (p : NodeId → Nat) (tree tree' : Tree) : Prop where
  size : tree'.nodes.size = tree.nodes.size
  root : tree'.root = tree.root
  nodes : ∀ id, Option.Rel (Node.Alike (p id)) (tree.node? id) (tree'.node? id)

namespace Tree.Alike

variable {p q : NodeId → Nat} {tree tree' : Tree}

section

variable (h : tree.Alike p tree')
include h

theorem node_cases (id : NodeId) :
    tree.node? id = none ∧ tree'.node? id = none ∨
      ∃ node node', tree.node? id = some node ∧ tree'.node? id = some node' ∧ node.Alike (p id) node' := by
  have hrel := h.nodes id
  generalize tree.node? id = x at hrel
  generalize tree'.node? id = x' at hrel
  cases hrel with
  | none => exact .inl ⟨rfl, rfl⟩
  | some hnode => exact .inr ⟨_, _, rfl, rfl, hnode⟩

theorem element_cases (id : NodeId) :
    tree.element? id = none ∧ tree'.element? id = none ∨
      ∃ e e', tree.element? id = some e ∧ tree'.element? id = some e' ∧ e.Alike (p id) e' := by
  rcases h.node_cases id with ⟨hnone, hnone'⟩ | ⟨node, node', hnode, hnode', halike⟩
  · rw [element?, element?, hnone, hnone']
    exact .inl ⟨rfl, rfl⟩
  · rw [element?_of_node? hnode, element?_of_node? hnode']
    cases halike with
    | element he => exact .inr ⟨_, _, rfl, rfl, he⟩
    | interpolated t range => exact .inl ⟨rfl, rfl⟩
    | plain t range => exact .inl ⟨rfl, rfl⟩

/-- What can be read from what an element shows is the same in both trees. -/
theorem map_element? {α : Type} (f : Element → α) (hf : ∀ el, f el.shown = f el) (id : NodeId) :
    (tree'.element? id).map f = (tree.element? id).map f := by
  rcases h.element_cases id with ⟨hnone, hnone'⟩ | ⟨e, e', he, he', halike⟩
  · rw [hnone, hnone']
  · rw [he, he', map_some, map_some, halike.read f hf]

theorem any_element? (f : Element → Bool) (hf : ∀ el, f el.shown = f el) (id : NodeId) :
    (tree'.element? id).any f = (tree.element? id).any f := by
  rcases h.element_cases id with ⟨hnone, hnone'⟩ | ⟨e, e', he, he', halike⟩
  · rw [hnone, hnone']
  · rw [he, he', any_some, any_some, halike.read f hf]

theorem isElement_eq : tree'.isElement = tree.isElement := by
  funext id
  rcases h.element_cases id with ⟨hnone, hnone'⟩ | ⟨e, e', he, he', -⟩
  · rw [isElement, isElement, hnone, hnone']
  · rw [isElement, isElement, he, he']
    rfl

theorem isSpace_eq : Builder.isSpace tree' = Builder.isSpace tree := by
  funext id
  rw [Builder.isSpace, Builder.isSpace]
  rcases h.node_cases id with ⟨hnone, hnone'⟩ | ⟨node, node', hnode, hnode', halike⟩
  · rw [hnone, hnone']
  · rw [hnode, hnode']
    cases halike <;> rfl

theorem text?_node? (id : NodeId) :
    (tree'.node? id).bind Node.text? = (tree.node? id).bind Node.text? := by
  rcases h.node_cases id with ⟨hnone, hnone'⟩ | ⟨node, node', hnode, hnode', halike⟩
  · rw [hnone, hnone']
  · rw [hnode, hnode']
    exact halike.text?

theorem isSlotContent_eq : Builder.isSlotContent tree' = Builder.isSlotContent tree :=
  funext fun id => h.any_element? (fun el => el.slotScope.isSome) (fun _ => rfl) id

/-- What the elements above show is the same in both trees. -/
theorem map_shown_ancestorsFrom (fuel : Nat) (id : Option NodeId) :
    (tree'.ancestorsFrom fuel id).map (fun e => e.2.shown) =
      (tree.ancestorsFrom fuel id).map fun e => e.2.shown := by
  induction fuel generalizing id with
  | zero => rfl
  | succ fuel ih =>
    cases id with
    | none => rfl
    | some id =>
      rw [ancestorsFrom, ancestorsFrom]
      rcases h.element_cases id with ⟨hnone, hnone'⟩ | ⟨e, e', he, he', halike⟩
      · rw [hnone, hnone']
      · have hparent : e'.parent = e.parent := halike.read Element.parent fun _ => rfl
        rw [he, he']
        simp only [map_cons, hparent, ih, halike.shown]

theorem loops_eq (id : NodeId) :
    (tree'.ancestors id).filterMap (fun e => e.2.loop) =
      (tree.ancestors id).filterMap fun e => e.2.loop := by
  have hmap := h.map_shown_ancestorsFrom tree.nodes.size (some id)
  have hloops := congrArg (filterMap loop) hmap
  rw [filterMap_map, filterMap_map] at hloops
  rw [ancestors, ancestors, h.size]
  exact hloops

theorem set {id : NodeId} {node node' : Node} (hq : ∀ j, j ≠ id → q j = p j)
    (hnode : node.Alike (q id) node') : (tree.set id node).Alike q (tree'.set id node') where
  size := by rw [size_set, size_set, h.size]
  root := h.root
  nodes j := by
    rw [node?_set, node?_set]
    by_cases hj : j = id
    · rw [if_pos hj, if_pos hj, hj]
      rcases h.node_cases id with ⟨hnone, hnone'⟩ | ⟨_, _, hold, hold', -⟩
      · rw [hnone, hnone']
        exact .none
      · rw [hold, hold']
        exact .some hnode
    · rw [if_neg hj, if_neg hj, hq j hj]
      exact h.nodes j

theorem update (id : NodeId) {f f' : Element → Element}
    (hf : ∀ e e', e.Alike (p id) e' → (f e).Alike (p id) (f' e')) :
    (tree.update id f).Alike p (tree'.update id f') := by
  rw [Tree.update, Tree.update]
  rcases h.element_cases id with ⟨hnone, hnone'⟩ | ⟨e, e', he, he', halike⟩
  · rw [hnone, hnone']
    exact h
  · rw [he, he']
    exact h.set (fun _ _ => rfl) (.element (hf e e' halike))

/-- The same change to an element of both trees. -/
theorem updateBoth (id : NodeId) (f : Element → Element) (hf : PassesShown f) :
    (tree.update id f).Alike p (tree'.update id f) :=
  h.update id fun _ _ he => he.change f hf

theorem add {node node' : Node} (hnode : node.Alike (p tree.nodes.size) node') :
    (tree.add node).2.Alike p (tree'.add node').2 where
  size := by rw [size_add, size_add, h.size]
  root := h.root
  nodes j := by
    rw [node?_add, node?_add, h.size]
    split
    · rename_i hj
      rw [hj]
      exact .some hnode
    · exact h.nodes j

theorem weaken (hpq : ∀ j, p j ≤ q j) : tree.Alike q tree' where
  size := h.size
  root := h.root
  nodes j := by
    rcases h.node_cases j with ⟨hnone, hnone'⟩ | ⟨node, node', hnode, hnode', halike⟩
    · rw [hnone, hnone']
      exact .none
    · rw [hnode, hnode']
      refine .some ?_
      cases halike with
      | element he => exact .element (he.weaken (hpq j))
      | interpolated t range => exact .interpolated t range
      | plain t range => exact .plain t range

end

end Tree.Alike

/-- Events that correspond: start tags whose attributes do, or the same event elsewhere. -/
inductive Event.Alike (rewritten : Attribute → Bool) : Event → Event → Prop
  | start {tag : String} {l l' : List Attribute} {unary : Bool} {range range' : Range}
      (attributes : RespelledAttributes rewritten tag l l') (hpre : ∀ a ∈ l, a.name ≠ "v-pre") :
      Alike rewritten (.start tag l unary range) (.start tag l' unary range')
  | finish {tag : String} {range range' : Range} :
      Alike rewritten (.finish tag range) (.finish tag range')
  | text {content : String} {range range' : Range} :
      Alike rewritten (.text content range) (.text content range')

/-- Trees under construction that correspond, outside all verbatim regions. -/
structure Builder.Alike (b b' : Builder) : Prop where
  tree : b.tree.Alike (fun _ => 1) b'.tree
  stack : b'.stack = b.stack
  inVerbatim : b.inVerbatim = false
  inVerbatim_second : b'.inVerbatim = false
  inPre : b'.inPre = b.inPre

namespace Builder

variable {el el' : Element} {rewritten : Attribute → Bool} {p : NodeId → Nat} {tree tree' : Tree}
  {b b' : Builder}

/-! ## Closing an element -/

theorem alike_fillSlot (h : tree.Alike p tree') (id : NodeId) (use : SlotUse) :
    (fillSlot id use tree).Alike p (fillSlot id use tree') := by
  have hmove (children : List NodeId) (container : NodeId) {t t' : Tree} (ht : t.Alike p t') :
      (children.foldl (fun t child => t.update child fun c => { c with parent := some container })
        t).Alike p
      (children.foldl (fun t child => t.update child fun c => { c with parent := some container })
        t') := by
    induction children generalizing t t' with
    | nil => exact ht
    | cons child children ih =>
      exact ih (ht.updateBoth child (fun c => { c with parent := some container }) fun _ => rfl)
  rcases h.element_cases id with ⟨hnone, hnone'⟩ | ⟨e, e', he, he', halike⟩
  · rw [fillSlot, fillSlot, hnone, hnone']
    exact h
  · have hinside : slotInside tree' e' = slotInside tree e := by
      rw [slotInside, slotInside, h.isSlotContent_eq, halike.read Element.children fun _ => rfl]
    rw [fillSlot_eq he, fillSlot_eq he', hinside, h.size]
    have hadded := h.add (.element (.slotContainer (p tree.nodes.size) use id (slotInside tree e)))
    exact (hmove _ _ hadded).updateBoth id _ fun _ => rfl

theorem alike_fillUse (h : tree.Alike p tree') (id : NodeId) (use : Option SlotUse) :
    (fillUse id use tree).Alike p (fillUse id use tree') := by
  cases use with
  | none => exact h
  | some use => exact alike_fillSlot h id use

theorem alike_readElement (h : tree.Alike (fun _ => 1) tree') (id : NodeId) :
    (readElement .web id tree).value.Alike (fun _ => 1) (readElement .web id tree').value := by
  rcases h.element_cases id with ⟨hnone, hnone'⟩ | ⟨e, e', he, he', r, hr⟩
  · rw [readElement, readElement, hnone, hnone']
    exact h
  · generalize hloops : ((tree.ancestors id).filterMap fun e => e.2.loop) = loops
    obtain ⟨hplaced, huse⟩ := Element.Respelled.readPlacement hr Options.web.platform
      (e.parent.bind tree.element?) (e'.parent.bind tree'.element?) (!loops.isEmpty)
    rw [readElement_eq .web he hloops rfl, readElement_eq .web he' ((h.loops_eq id).trans hloops) rfl,
      huse]
    -- Of the element that is read, no slot directive that is left may be respelled any more.
    let q : NodeId → Nat := fun j => if j = id then 0 else 1
    have hq : q id = 0 := if_pos rfl
    have hset := h.set (q := q) (fun j hj => if_neg hj) (by rw [hq]; exact .element ⟨r, hplaced⟩)
    refine Tree.Alike.weaken (p := q) ?_ ?_
    · refine (alike_fillUse hset id _).update id fun d d' hd => ?_
      rw [hq] at hd ⊢
      obtain ⟨r, hd⟩ := hd
      exact ⟨r, hd.readContent _ _⟩
    · intro j
      simp only [q]
      split <;> omega

section

variable (h : b.Alike b')
include h

theorem alike_update (id : NodeId) (f : Element → Element) (hf : PassesShown f) :
    (b.withTree fun tree => tree.update id f).Alike (b'.withTree fun tree => tree.update id f) :=
  { h with tree := h.tree.updateBoth id f hf }

theorem alike_trimChildren (id : NodeId) : (b.trimChildren id).Alike (b'.trimChildren id) := by
  let trimmed (el : Element) : Element :=
    { el with
      children := (el.children.reverse.dropWhile fun c => !b.inPre && isSpace b.tree c).reverse }
  have htree : b'.trimChildren id = b'.withTree fun tree => tree.update id trimmed := by
    rw [trimChildren, withTree, withTree, h.inPre, h.tree.isSpace_eq]
  rw [htree]
  exact alike_update h id trimmed fun _ => rfl

theorem alike_finishReading (id : NodeId) :
    (b.finishReading .web id).value.Alike (b'.finishReading .web id).value := by
  have hprocessed := h.tree.any_element? processed (fun _ => rfl) id
  refine { h with tree := ?_ }
  rw [tree_finishReading, tree_finishReading, h.inVerbatim, h.inVerbatim_second, hprocessed]
  split
  · exact h.tree
  · exact alike_readElement h.tree id

theorem alike_warnOnce (faults faults' : List Diagnostic) :
    (b.warnOnce faults).value.Alike (b'.warnOnce faults').value := { h with }

theorem alike_addBranch (id : NodeId) (branch : Branch) :
    (b.withTree fun tree => tree.update id (addBranch branch)).Alike
      (b'.withTree fun tree => tree.update id (addBranch branch)) :=
  alike_update h id (addBranch branch) fun _ => rfl

theorem alike_placeOutside (id : NodeId) (hel : el.Alike 1 el') :
    (b.placeOutside id el).value.Alike (b'.placeOutside id el').value := by
  have hbranch : el'.isBranch = el.isBranch := hel.read isBranch fun _ => rfl
  have helse : el'.elseIf = el.elseIf := hel.read elseIf fun _ => rfl
  simp only [placeOutside, h.stack, h.tree.root, hbranch, helse,
    h.tree.any_element? (fun r => r.choice.isSome) (fun _ => rfl)]
  split
  · split
    · exact alike_addBranch (alike_warnOnce h _ _) _ _
    · exact alike_warnOnce h _ _
  · exact h

end

theorem alike_dropTexts (h : tree.Alike p tree') (parent : NodeId) :
    untilElement tree' parent = untilElement tree parent ∧
      (dropTexts tree parent).Alike p (dropTexts tree' parent) := by
  have hkept : untilElement tree' parent = untilElement tree parent := by
    rw [untilElement, untilElement, h.map_element? Element.children (fun _ => rfl), h.isElement_eq]
  refine ⟨hkept, ?_⟩
  rw [dropTexts, dropTexts, hkept]
  exact h.updateBoth parent (fun p => { p with children := (untilElement tree parent).reverse })
    fun _ => rfl

/-- A later branch goes to the choice of the element before it, if that element holds one. -/
theorem value_placeBranch_eq (id : NodeId) (el : Element) (parent : NodeId) (tree : Tree) :
    (placeBranch id el parent tree).value =
      match (untilElement tree parent).head?.filter fun previous =>
        ((dropTexts tree parent).element? previous).any fun p => p.choice.isSome with
      | some previous => (dropTexts tree parent).update previous (addBranch ⟨el.elseIf, id⟩)
      | none => dropTexts tree parent := by
  rw [placeBranch_eq, Reported.value_bind]
  cases (untilElement tree parent).head?.filter fun previous =>
    ((dropTexts tree parent).element? previous).any fun p => p.choice.isSome with
  | none => rfl
  | some previous => rfl

theorem alike_placeBranch (h : tree.Alike p tree') (id : NodeId) (hel : el.Alike 1 el')
    (parent : NodeId) :
    (placeBranch id el parent tree).value.Alike p (placeBranch id el' parent tree').value := by
  obtain ⟨hkept, hdrop⟩ := alike_dropTexts h parent
  rw [value_placeBranch_eq, value_placeBranch_eq, hkept]
  simp only [hdrop.any_element? (fun p => p.choice.isSome) (fun _ => rfl),
    hel.read elseIf fun _ => rfl]
  split
  · exact hdrop.updateBoth _ (addBranch _) fun _ => rfl
  · exact hdrop

theorem alike_placeChild (h : tree.Alike p tree') (id : NodeId) (hel : el.Alike 1 el')
    (parent : NodeId) :
    (placeChild id el parent tree).Alike p (placeChild id el' parent tree') := by
  have hscope : el'.slotScope = el.slotScope := hel.read Element.slotScope fun _ => rfl
  have htarget : el'.slotTarget = el.slotTarget := hel.read Element.slotTarget fun _ => rfl
  rw [placeChild, placeChild, hscope, htarget]
  refine Tree.Alike.updateBoth ?_ id _ fun _ => rfl
  refine h.updateBoth parent _ fun q => ?_
  cases el.slotScope <;> rfl

theorem alike_parent? (h : b.Alike b') : b'.parent? = b.parent? := congrArg head? h.stack

section

variable (h : b.Alike b') (id : NodeId)
include h

theorem alike_placeInside (hel : el.Alike 1 el') :
    (b.placeInside id el).value.Alike (b'.placeInside id el').value := by
  have hbranch : el'.isBranch = el.isBranch := hel.read isBranch fun _ => rfl
  have hforbidden : el'.forbidden = el.forbidden := hel.read Element.forbidden fun _ => rfl
  refine { h with tree := ?_ }
  simp only [placeInside, Reported.value_bind, alike_parent? h, hbranch, hforbidden]
  split
  · exact h.tree
  · split
    · exact h.tree
    · split
      · exact alike_placeBranch h.tree id hel _
      · exact alike_placeChild h.tree id hel _

theorem alike_place :
    (b.place id).value.Alike (b'.place id).value := by
  rw [place, place]
  rcases h.tree.element_cases id with ⟨hnone, hnone'⟩ | ⟨el, el', hel, hel', halike⟩
  · rw [hnone, hnone']
    exact h
  · rw [hel, hel']
    exact alike_placeInside (alike_placeOutside h id halike) id halike

theorem alike_dropSlotContent :
    (b.withTree (dropSlotContent id)).Alike (b'.withTree (dropSlotContent id)) := by
  have hdrop : (dropSlotContent id b.tree).Alike (fun _ => 1) (dropSlotContent id b'.tree) := by
    rw [dropSlotContent, dropSlotContent, h.tree.isSlotContent_eq]
    exact h.tree.updateBoth id
      (fun el => { el with children := el.children.filter fun c => !isSlotContent b.tree c }) fun _ => rfl
  exact { h with tree := hdrop }

theorem alike_finishElement :
    (b.finishElement .web id).value.Alike (b'.finishElement .web id).value := by
  rw [finishElement, finishElement]
  rcases h.tree.element_cases id with ⟨hnone, hnone'⟩ | ⟨el, el', hel, hel', halike⟩
  · rw [hnone, hnone']
    exact h
  · rw [hel, hel']
    have htag : el'.tag = el.tag := halike.read Element.tag fun _ => rfl
    refine ⟨h.tree.set (fun _ _ => rfl) (.element halike), h.stack, ?_, ?_, ?_⟩
    · show (b.inVerbatim && !el.pre) = false
      rw [h.inVerbatim, Bool.false_and]
    · show (b'.inVerbatim && !el'.pre) = false
      rw [h.inVerbatim_second, Bool.false_and]
    · show (b'.inPre && !Options.web.platform.isPre el'.tag) = (b.inPre && !Options.web.platform.isPre el.tag)
      rw [h.inPre, htag]

theorem alike_close :
    (b.close .web id).value.Alike (b'.close .web id).value := by
  simp only [close, Reported.value_bind]
  have hplaced := alike_place (alike_finishReading (alike_trimChildren h id) id) id
  exact alike_finishElement (alike_trimChildren (alike_dropSlotContent hplaced id) id) id

end

/-! ## Events -/

theorem alike_ns (h : b.Alike b') :
    (b'.parent?.bind b'.tree.element?).bind Element.ns =
      (b.parent?.bind b.tree.element?).bind Element.ns := by
  rw [alike_parent? h]
  cases b.parent? with
  | none => rfl
  | some id =>
    rw [bind_some, bind_some]
    rcases h.tree.element_cases id with ⟨hnone, hnone'⟩ | ⟨e, e', he, he', halike⟩
    · rw [hnone, hnone']
    · rw [he, he', bind_some, bind_some, halike.read Element.ns fun _ => rfl]

theorem newElement_eq (tag : String) (l : List Attribute) (range : Range) (b : Builder) :
    (b.newElement .web tag l range).value =
      { ofTag tag l b.parent? with
        ns := ((b.parent?.bind b.tree.element?).bind Element.ns).or
          (Options.web.platform.namespaceOf tag)
        range := some range
        forbidden := (ofTag tag l b.parent?).hasSideEffects } := by
  rw [value_newElement]
  rfl

/-- The elements of corresponding start tags before their directives are read. -/
theorem alike_newElement (h : b.Alike b') {tag : String} {l l' : List Attribute}
    (hl : RespelledAttributes rewritten tag l l') (range range' : Range) :
    (b.newElement .web tag l range).value.Respelled hl.respelling 1
      (b'.newElement .web tag l' range').value := by
  have htag := Element.Respelled.ofTag hl b.parent?
  have heffects : (ofTag tag l' b.parent?).hasSideEffects =
      (ofTag tag l b.parent?).hasSideEffects := by
    rw [hasSideEffects, hasSideEffects, htag.attribute?_fixed (by decide)]
    rfl
  rw [newElement_eq, newElement_eq, alike_ns h, alike_parent? h, heffects]
  exact htag.of_core rfl rfl rfl

/-- Entering an element outside all verbatim regions that does not open one. -/
theorem enter_newElement (hb : b.inVerbatim = false) (tag : String) (l : List Attribute)
    (range : Range) (hnone : (Opening.ofTag tag l).value? "v-pre" = none) :
    (b.enter .web (b.newElement .web tag l range).value).value =
      ((b.newElement .web tag l range).value.readStructure.value,
        { b with inPre := b.inPre || Options.web.platform.isPre tag }) := by
  generalize hel : (b.newElement .web tag l range).value = el
  rw [newElement_eq] at hel
  have hread : el.readVerbatim = el := by
    apply readVerbatim_of_none
    rw [← hel]
    exact hnone
  have htag : el.tag = tag := by rw [← hel]; rfl
  have hpre : el.pre = false := by rw [← hel]; rfl
  have hprocessed : el.processed = false := by rw [← hel]; rfl
  simp only [enter, hread, hb, hpre, hprocessed, htag, Bool.or_self, Bool.false_eq_true, if_false,
    Reported.value_bind, Reported.value_pure]

section

variable (h : b.Alike b')
include h

theorem alike_claimRoot (id : NodeId) (el el' : Element) :
    (b.claimRoot id el).value.Alike (b'.claimRoot id el').value := by
  rw [claimRoot, claimRoot, h.tree.root]
  split
  · have hclaimed : (b.withTree fun tree => { tree with root := some id }).Alike
        (b'.withTree fun tree => { tree with root := some id }) :=
      { h with tree := { size := h.tree.size, root := rfl, nodes := h.tree.nodes } }
    exact alike_warnOnce hclaimed _ _
  · exact h

theorem alike_start {tag : String} {l l' : List Attribute}
    (hl : RespelledAttributes rewritten tag l l') (hpre : ∀ a ∈ l, a.name ≠ "v-pre") (unary : Bool)
    (range range' : Range) :
    (b.start .web tag l unary range).value.Alike (b'.start .web tag l' unary range').value := by
  have hnone : (Opening.ofTag tag l).value? "v-pre" = none := Opening.value?_of_not_has fun hhas => by
    obtain ⟨a, ha, hname⟩ := RespelledAttributes.exists_of_has hhas
    exact hpre a ha hname
  have hnone' : (Opening.ofTag tag l').value? "v-pre" = none :=
    (hl.respelling.value?_of_isFixed (by decide)).trans hnone
  have hread := (alike_newElement h hl range range').readStructure
  simp only [start, Reported.value_bind, enter_newElement h.inVerbatim tag l range hnone,
    enter_newElement h.inVerbatim_second tag l' range' hnone', Tree.add_fst, h.tree.size]
  have hadded : Alike
      { b with
        tree := (b.tree.add (.element (b.newElement .web tag l range).value.readStructure.value)).2
        inPre := b.inPre || Options.web.platform.isPre tag }
      { b' with
        tree := (b'.tree.add (.element (b'.newElement .web tag l' range').value.readStructure.value)).2
        inPre := b'.inPre || Options.web.platform.isPre tag } :=
    { h with
      tree := h.tree.add (.element ⟨_, hread⟩)
      inPre := by rw [h.inPre] }
  have hrooted := alike_claimRoot hadded b.tree.nodes.size
    (b.newElement .web tag l range).value.readStructure.value
    (b'.newElement .web tag l' range').value.readStructure.value
  cases unary with
  | true => exact alike_close hrooted _
  | false => exact { hrooted with stack := congrArg (List.cons b.tree.nodes.size) hrooted.stack }

theorem alike_finish (stop stop' : Nat) :
    (b.finish .web stop).value.Alike (b'.finish .web stop').value := by
  rw [finish, finish, h.stack]
  split
  · exact h
  · rename_i id stack _
    apply alike_close
    refine ⟨?_, rfl, h.inVerbatim, h.inVerbatim_second, h.inPre⟩
    refine h.tree.update id fun e e' he => ?_
    obtain ⟨r, hr⟩ := he
    refine ⟨r, hr.of_core ?_ rfl rfl⟩
    have hrange (el : Element) (stop : Nat) :
        ({ el with range := el.range.map fun r => { r with stop } } : Element).shown = el.shown := by
      rw [Element.shown, Element.shown, Option.map_map]
      rfl
    rw [hrange, hrange, hr.shown]

theorem alike_keptText (hel : el.Alike 1 el') (content : String) :
    b'.keptText .web el' content = b.keptText .web el content := by
  have hkeeps : el'.keepsReferences = el.keepsReferences :=
    hel.read keepsReferences fun _ => rfl
  have hblank : blankText .web el' content = blankText .web el content := by
    rw [blankText, blankText, hel.read Element.children fun _ => rfl]
  rw [keptText, keptText, h.inPre, hkeeps, hblank]

theorem alike_textNode? (hel : el.Alike 1 el') (content : String) (range range' : Range) (n : Nat) :
    Option.Rel (Node.Alike n) (b.textNode? .web el content range)
      (b'.textNode? .web el' content range') := by
  have hlast : (el'.children.getLast?.bind b'.tree.node?).bind Node.text? =
      (el.children.getLast?.bind b.tree.node?).bind Node.text? := by
    rw [hel.read Element.children fun _ => rfl]
    cases el.children.getLast? with
    | none => rfl
    | some id => exact h.tree.text?_node? id
  simp only [textNode?, h.inVerbatim, h.inVerbatim_second, hlast]
  split
  · exact .some (.interpolated _ _)
  · split
    · exact .none
    · exact .some (.plain _ _)

theorem alike_text (template template' content : String) (range range' : Range) :
    (b.text .web template content range).value.Alike
      (b'.text .web template' content range').value := by
  rw [text, text, alike_parent? h]
  split
  · exact alike_warnOnce h _ _
  · rename_i id _
    have hnode : Option.Rel (Node.Alike 1)
        ((b.tree.element? id).bind fun parent => b.keptNode? .web parent content range)
        ((b'.tree.element? id).bind fun parent => b'.keptNode? .web parent content range') := by
      rcases h.tree.element_cases id with ⟨hnone, hnone'⟩ | ⟨el, el', hel, hel', halike⟩
      · rw [hnone, hnone']
        exact .none
      · simp only [hel, hel', bind_some, keptNode?, alike_keptText h halike]
        split
        · exact .none
        · exact alike_textNode? h halike _ range range' 1
    generalize (b.tree.element? id).bind _ = node at hnode
    generalize (b'.tree.element? id).bind _ = node' at hnode
    cases hnode with
    | none => exact h
    | some hnode =>
      have hadded := (h.tree.add hnode).updateBoth id
        (fun p => { p with children := p.children ++ [b.tree.nodes.size] }) fun _ => rfl
      refine { h with tree := ?_ }
      simp only [appendNode, withTree, Tree.add_fst, h.tree.size]
      exact hadded

/-- Corresponding events take corresponding trees to corresponding trees. -/
theorem alike_step {e e' : Event} (he : e.Alike rewritten e') (template template' : String) :
    (b.step .web template e).value.Alike (b'.step .web template' e').value := by
  cases he with
  | start hl hpre => exact alike_start h hl hpre _ _ _
  | finish => exact alike_finish h _ _
  | text => exact alike_text h template template' _ _ _

end

end Builder

/-- Two templates whose events correspond have corresponding trees. -/
theorem Tree.alike_ofTemplate {rewritten : Attribute → Bool} {template template' : String}
    (h : Forall₂ (Event.Alike rewritten) (Markup.events (markupSettings .web) template)
      (Markup.events (markupSettings .web) template')) :
    (ofTemplate .web template).value.Alike (fun _ => 1) (ofTemplate .web template').value := by
  have hbuilt : Builder.Alike
      ((Markup.events (markupSettings .web) template).foldlM (Builder.step .web template) {}).value
      ((Markup.events (markupSettings .web) template').foldlM (Builder.step .web template') {}).value := by
    refine Reported.foldlM_relates (R := Builder.Alike) ?_ ?_
    · exact h.imp fun e e' he b b' hb => Builder.alike_step hb he template template'
    · exact ⟨⟨rfl, rfl, fun id => .none⟩, rfl, rfl, rfl, rfl⟩
  exact hbuilt.tree

end ViewTemplate
