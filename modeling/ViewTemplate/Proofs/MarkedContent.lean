import ViewTemplate.Proofs.ForestContent

/-! # Reading marks back

Marking unfolds the tree into its content, marks that and writes it back into the table. No node
occurs twice in the content, so what is read from the marked tree is the marked content. From this
follows what each node that the passes reach is marked with, and why.
-/

open List Option

namespace ViewTemplate

open Element

/-- Whether the node is marked static. -/
def Node.isStatic : Node → Bool
  | .plain t => t.isStatic
  | .interpolated t => t.isStatic
  | .element el => el.isStatic

/-- Marks are no links. -/
theorem Element.links_of_unmarked {a b : Element} (h : a.unmarked = b.unmarked) :
    a.links = b.links := by
  have hlinks := congrArg links h
  exact hlinks

namespace Tree

/-- Whether there is a node with the given number and it is marked static. -/
def isStaticNode (tree : Tree) (id : NodeId) : Bool := (tree.node? id).any Node.isStatic

theorem isStatic_contentTo (tree : Tree) (n : Nat) (i : NodeId) :
    (tree.contentTo (n + 1) i).isStatic = tree.isStaticNode i := by
  rw [contentTo, isStaticNode]
  cases tree.node? i with
  | none => rfl
  | some node => cases node <;> rfl

/-! ## The numbers in a content -/

/-- The nodes of a content are held, directly or not, by the node that it starts from. -/
theorem reaches_of_mem_nodes {tree : Tree} {n : Nat} {i : NodeId} :
    ∀ e ∈ (tree.contentTo n i).nodes, Relation.ReflTransGen tree.Holds i e.1 := by
  induction n generalizing i with
  | zero =>
    intro e he
    rw [mem_singleton.mp he]
  | succ n ih =>
    intro e he
    rcases mem_nodes_contentTo he with ⟨rfl, -⟩ | ⟨el, c, hel, he, hc⟩
    · exact .refl
    · exact .head ⟨.element el, hel, hc⟩ (ih e he)

/-- The nodes that an element holds, in the order of its content. -/
def heldInOrder (el : Element) : List NodeId :=
  el.children ++ el.otherBranches.map Branch.block ++ el.scopedSlots.values

theorem nodes_contentTo_element {tree : Tree} {n : Nat} {i : NodeId} {el : Element}
    (hel : tree.node? i = some (.element el)) :
    (tree.contentTo (n + 1) i).nodes =
      (i, .element el) :: (heldInOrder el).flatMap fun c => (tree.contentTo n c).nodes := by
  simp only [contentTo, hel, Content.nodes, Content.nodesOf_eq_flatMap, heldInOrder,
    flatMap_append, flatMap_map]

section

variable {ledger : Ledger} {tree : Tree} {opened : List NodeId}

/-- Of two nodes that one node holds, none is below the other. -/
theorem Sound.not_reaches_sibling (h : tree.Sound ledger opened []) {i c d : NodeId}
    (hc : tree.Holds i c) (hd : tree.Holds i d) (hne : c ≠ d) :
    ¬ Relation.ReflTransGen tree.Holds c d := by
  intro hreach
  rcases Relation.ReflTransGen.cases_tail hreach with heq | ⟨j, hj, hjd⟩
  · exact hne heq.symm
  · rw [h.owner_unique hjd hd] at hj
    have hcycle : Relation.TransGen tree.Holds i i := Relation.TransGen.head' hc hj
    exact not_transGen_self ledger.rank (fun _ _ hr => h.rank_lt hr) i hcycle

/-- Nothing is below two nodes that one node holds. -/
theorem Sound.disjoint_below (h : tree.Sound ledger opened []) {i c d j : NodeId}
    (hc : tree.Holds i c) (hd : tree.Holds i d) (hne : c ≠ d)
    (hcj : Relation.ReflTransGen tree.Holds c j) : ¬ Relation.ReflTransGen tree.Holds d j := by
  intro hdj
  have hunique : Relator.RightUnique (Function.swap tree.Holds) :=
    fun _ _ _ h1 h2 => h.owner_unique h1 h2
  rcases Relation.ReflTransGen.total_of_right_unique hunique
    (Relation.reflTransGen_swap.mpr hcj) (Relation.reflTransGen_swap.mpr hdj) with hcd | hdc
  · exact h.not_reaches_sibling hd hc hne.symm (Relation.reflTransGen_swap.mp hcd)
  · exact h.not_reaches_sibling hc hd hne (Relation.reflTransGen_swap.mp hdc)

/-- No node occurs twice in a content. -/
theorem Sound.nodup_contentTo (h : tree.Sound ledger opened []) (n : Nat) (i : NodeId) :
    ((tree.contentTo n i).nodes.map Prod.fst).Nodup := by
  induction n generalizing i with
  | zero => exact nodup_singleton _
  | succ n ih =>
    cases hnode : tree.node? i with
    | none =>
      rw [contentTo, hnode]
      exact nodup_singleton _
    | some node =>
      cases node with
      | interpolated t =>
        rw [contentTo, hnode]
        exact nodup_singleton _
      | plain t =>
        rw [contentTo, hnode]
        exact nodup_singleton _
      | element el =>
        have hshape := shape?_of_element? (element?_of_node? hnode)
        have hheld {c : NodeId} (hc : c ∈ heldInOrder el) : tree.Holds i c := by
          simp only [heldInOrder, mem_append] at hc
          rcases hc with (hc | hc) | hc
          · exact holds_child hnode hc
          · obtain ⟨b, hb, rfl⟩ := List.mem_map.mp hc
            exact holds_branch hnode hb
          · exact holds_slot hnode hc
        have hnodup : (heldInOrder el).Nodup := by
          have hperm : (heldInOrder el).Perm el.shape.held := by
            simp only [heldInOrder, Shape.held, shape, append_assoc]
            exact Perm.append_left _ perm_append_comm
          exact hperm.nodup_iff.mpr (Sound.held_nodup (h.shapes i el.shape hshape))
        rw [nodes_contentTo_element hnode, map_cons, map_flatMap, nodup_cons]
        constructor
        · intro hmem
          obtain ⟨c, hc, hmem⟩ := mem_flatMap.mp hmem
          obtain ⟨e, he, heq⟩ := List.mem_map.mp hmem
          have hbelow := reaches_of_mem_nodes e he
          rw [heq] at hbelow
          exact not_transGen_self ledger.rank (fun _ _ hr => h.rank_lt hr) i
            (Relation.TransGen.head' (hheld hc) hbelow)
        · rw [nodup_flatMap]
          refine ⟨fun c _ => ih c, hnodup.pairwise_of_forall_ne ?_⟩
          intro c hc d hd hne j hj hj'
          obtain ⟨e, he, rfl⟩ := List.mem_map.mp hj
          obtain ⟨e', he', heq⟩ := List.mem_map.mp hj'
          have hbelow := reaches_of_mem_nodes e' he'
          rw [heq] at hbelow
          exact h.disjoint_below (hheld hc) (hheld hd) hne (reaches_of_mem_nodes e he) hbelow

end

/-! ## Writing and reading -/

/-- What is stored under a number once is found there. -/
theorem node?_foldl_set_of_mem {entries : List (NodeId × Node)} {tree : Tree}
    (hnodup : (entries.map Prod.fst).Nodup) {e : NodeId × Node} (he : e ∈ entries)
    (hlt : e.1 < tree.nodes.size) :
    (entries.foldl (fun tree e => tree.set e.1 e.2) tree).node? e.1 = some e.2 := by
  induction entries generalizing tree with
  | nil => cases he
  | cons f entries ih =>
    rw [map_cons, nodup_cons] at hnodup
    rw [foldl_cons]
    rcases mem_cons.mp he with rfl | he
    · rw [node?_foldl_set, node?_set, if_pos rfl]
      · have hsome : ∃ node, tree.node? e.1 = some node := ⟨_, Array.getElem?_eq_getElem hlt⟩
        obtain ⟨node, hnode⟩ := hsome
        rw [hnode]
        rfl
      · intro f hf heq
        exact absurd (heq ▸ List.mem_map_of_mem hf) hnodup.1
    · exact ih hnodup.2 he (by rw [size_set]; exact hlt)

theorem map_eq_of_map_eq {α β γ : Type} {f : α → γ} {g : β → γ} {h : β → α} :
    ∀ {l : List α} {m : List β}, l.map f = m.map g →
      (∀ a ∈ l, ∀ b ∈ m, f a = g b → a = h b) → l = m.map h := by
  intro l
  induction l with
  | nil =>
    intro m hm _
    rw [map_nil, eq_comm, map_eq_nil_iff] at hm
    rw [hm, map_nil]
  | cons a l ih =>
    intro m hm heq
    cases m with
    | nil => cases hm
    | cons b m =>
      rw [map_cons, map_cons, List.cons.injEq] at hm
      rw [map_cons, heq a mem_cons_self b mem_cons_self hm.1,
        ih hm.2 fun a ha b hb => heq a (mem_cons_of_mem _ ha) b (mem_cons_of_mem _ hb)]

/-- A content whose nodes are those of a table is what is read from the table, if it has the links
of what was read before. -/
theorem Grounded.contentTo_eq_of_nodes {height : NodeId → Nat} {tree later : Tree}
    (hground : tree.Grounded height) {n : Nat} {i : NodeId} (hi : i < tree.nodes.size)
    (hn : height i < n) {c : Content} (hc : c.unmarked = (tree.contentTo n i).unmarked)
    (hstored : ∀ e ∈ c.nodes, later.node? e.1 = some e.2) : later.contentTo n i = c := by
  induction n generalizing i c with
  | zero => exact absurd hn (Nat.not_lt_zero _)
  | succ n ih =>
    rw [contentTo] at hc
    cases hnode : tree.node? i with
    | none => exact absurd hi (Nat.not_lt.mpr (node?_eq_none_iff.mp hnode))
    | some node =>
      rw [hnode] at hc
      cases c with
      | plain id t' =>
        have hstore := hstored _ mem_cons_self
        cases node with
        | plain t =>
          obtain ⟨rfl, -⟩ := Content.plain.inj hc
          rw [contentTo, hstore]
        | interpolated t => cases hc
        | element el => cases hc
      | interpolated id t' =>
        have hstore := hstored _ mem_cons_self
        cases node with
        | plain t => cases hc
        | interpolated t =>
          obtain ⟨rfl, -⟩ := Content.interpolated.inj hc
          rw [contentTo, hstore]
        | element el => cases hc
      | element id el' children branches slots =>
        have hstore := hstored _ mem_cons_self
        cases node with
        | plain t => cases hc
        | interpolated t => cases hc
        | element el =>
          simp only [Content.unmarked_element, Content.element.injEq] at hc
          obtain ⟨rfl, hel, hchildren, hbranches, hslots⟩ := hc
          have hbelow {d : Content} {j : NodeId} (hj : tree.Holds id j)
              (hd : ∀ e ∈ d.nodes, later.node? e.1 = some e.2)
              (heq : d.unmarked = (tree.contentTo n j).unmarked) :
              d = later.contentTo n j :=
            have hj' := hground.held id j hj
            (ih hj'.1 (Nat.lt_of_lt_of_le hj'.2 (Nat.le_of_lt_succ hn)) heq hd).symm
          have hlinks := links_of_unmarked hel
          have hown : el'.children = el.children := congrArg Links.children hlinks
          have hother : el'.otherBranches = el.otherBranches :=
            otherBranches_of_choice (congrArg Links.choice hlinks)
          have hslot : el'.scopedSlots = el.scopedSlots :=
            congrArg Links.scopedSlots hlinks
          have hkept {d : Content} (hd : d ∈ children ∨ d ∈ branches ∨ d ∈ slots) :
              ∀ e ∈ d.nodes, later.node? e.1 = some e.2 := by
            intro e he
            apply hstored e
            rw [Content.mem_nodes_element]
            rcases hd with hd | hd | hd
            · exact .inr (.inl ⟨d, hd, he⟩)
            · exact .inr (.inr (.inl ⟨d, hd, he⟩))
            · exact .inr (.inr (.inr ⟨d, hd, he⟩))
          rw [List.map_map] at hchildren hbranches hslots
          rw [contentTo, hstore]
          show Content.element id el' _ _ _ = _
          rw [hown, hother, hslot,
            map_eq_of_map_eq hchildren fun d hd j hj =>
              hbelow (holds_child hnode hj) (hkept (.inl hd)),
            map_eq_of_map_eq hbranches fun d hd b hj =>
              hbelow (holds_branch hnode hj) (hkept (.inr (.inl hd))),
            map_eq_of_map_eq hslots fun d hd v hv =>
              hbelow (holds_slot hnode hv) (hkept (.inr (.inr hd)))]

theorem remarked_content (options : Options) (tree : Tree) (r : NodeId) :
    Content.Remarked (tree.content r)
      (Static.markRoots false (Static.markNodes options tree (tree.content r))) :=
  (Static.remarked_markNodes options tree _).trans (Static.remarked_markRoots false _)

section

variable {ledger : Ledger} {tree : Tree} {opened : List NodeId} (h : tree.Sound ledger opened [])
  (options : Options) {r : NodeId} (hr : tree.root = some r)
include h hr

/-- The nodes of the marked content are those of the marked tree. -/
theorem Sound.node?_of_mem_marked :
    ∀ e ∈ (Static.markRoots false (Static.markNodes options tree (tree.content r))).nodes,
      (tree.marked options).node? e.1 = some e.2 := by
  obtain ⟨height, hground⟩ := h.exists_grounded
  have hlt := h.root_lt hr
  have hremarked := remarked_content options tree r
  have hstore : tree.marked options =
      tree.store (Static.markRoots false (Static.markNodes options tree (tree.content r))) := by
    rw [marked, rootContent?, hr]
    rfl
  have hfst (d : Content) : d.nodes.map Prod.fst = d.unmarked.nodes.map Prod.fst := by
    rw [Content.nodes_unmarked, List.map_map]
    rfl
  intro e he
  have hmem : e.1 ∈ (tree.content r).nodes.map Prod.fst := by
    rw [hfst, ← hremarked.unmarked, ← hfst]
    exact List.mem_map_of_mem he
  obtain ⟨f, hf, hef⟩ := List.mem_map.mp hmem
  have hnode := hground.node?_of_mem_nodes hlt (hground.bounded r hlt) f hf
  rw [hstore]
  apply node?_foldl_set_of_mem
  · rw [hfst, hremarked.unmarked, ← hfst]
    exact h.nodup_contentTo _ r
  · exact he
  · rw [← hef]
    exact lt_size_of_node? hnode

/-- What is read from the marked tree is the marked content. -/
theorem Sound.content_marked :
    (tree.marked options).contentTo tree.nodes.size r =
      Static.markRoots false (Static.markNodes options tree (tree.content r)) := by
  obtain ⟨height, hground⟩ := h.exists_grounded
  have hlt := h.root_lt hr
  exact hground.contentTo_eq_of_nodes hlt (hground.bounded r hlt)
    (remarked_content options tree r).unmarked (h.node?_of_mem_marked options hr)

end

end Tree

/-! ## What the passes do to one node -/

namespace Static

/-- The two passes over a content: whether the first goes over it, and whether the second does, with
the note whether it is inside a loop. -/
def pass (options : Options) (tree : Tree) (visited : Bool) (inLoop : Option Bool) (c : Content) :
    Content :=
  let c := if visited then markNodes options tree c else c
  match inLoop with
  | some inLoop => markRoots inLoop c
  | none => c

theorem pass_unvisited (options : Options) (tree : Tree) : pass options tree false none = id := rfl

@[simp] theorem isStatic_markRoots (inLoop : Bool) (c : Content) :
    (markRoots inLoop c).isStatic = c.isStatic := by
  cases c with
  | plain id t => rfl
  | interpolated id t => rfl
  | element id el children branches slots =>
    have hnote : (noteLoop inLoop el).isStatic = el.isStatic := by
      rw [noteLoop]
      split <;> rfl
    simp only [markRoots]
    split
    · exact hnote
    · exact hnote

theorem isStatic_pass (options : Options) (tree : Tree) (visited : Bool) (inLoop : Option Bool)
    (c : Content) :
    (pass options tree visited inLoop c).isStatic =
      if visited then (markNodes options tree c).isStatic else c.isStatic := by
  cases inLoop <;> cases visited <;> simp [pass]

/-- The mark that the first pass gives an element. -/
def staticMark (options : Options) (tree : Tree) (el : Element) (children branches : List Content) :
    Bool :=
  isStaticAlone options tree el && (isReplaceable options.platform el ||
    (children.all fun c => (markNodes options tree c).isStatic) &&
      branches.all fun c => (markNodes options tree c).isStatic)

/-- An element after the first pass. -/
def visit (options : Options) (tree : Tree) (visited : Bool) (el : Element)
    (children branches : List Content) : Element :=
  if visited then { el with isStatic := staticMark options tree el children branches } else el

/-- An element after the second pass. -/
def settle (inLoop : Option Bool) (el : Element) (children : List Content) : Element :=
  match inLoop with
  | some inLoop =>
    { noteLoop inLoop el with staticRoot := isWorthwhile (noteLoop inLoop el) children }
  | none => el

/-- The note for what an element holds after the second pass. -/
def inLoopBelow (inLoop : Option Bool) (el : Element) : Option Bool :=
  inLoop.bind fun inLoop => if el.staticRoot then none else some (inLoop || el.loop.isSome)

theorem isSingleText_iff (contents : List Content) :
    isSingleText contents = true ↔ ∃ id t, contents = [.plain id t] := by
  constructor
  · intro h
    match contents with
    | [.plain id t] => exact ⟨id, t, rfl⟩
    | [] | [.interpolated _ _] | [.element _ _ _ _ _] => cases h
    | c :: d :: cs => cases c <;> cases h
  · rintro ⟨id, t, rfl⟩
    rfl

theorem isSingleText_map_markNodes (options : Options) (tree : Tree) (children : List Content) :
    isSingleText (children.map (markNodes options tree)) = isSingleText children := by
  match children with
  | [] => rfl
  | [.plain id t] => rfl
  | [.interpolated id t] => rfl
  | [.element id el children branches slots] =>
    simp only [map_cons, map_nil, markNodes]
    split <;> rfl
  | c :: d :: children =>
    have hseveral (c d : Content) (cs : List Content) : isSingleText (c :: d :: cs) = false := by
      cases c <;> rfl
    rw [map_cons, map_cons, hseveral, hseveral]

theorem isWorthwhile_map_markNodes (options : Options) (tree : Tree) (el : Element)
    (children : List Content) :
    isWorthwhile el (children.map (markNodes options tree)) = isWorthwhile el children := by
  rw [isWorthwhile, isWorthwhile, isSingleText_map_markNodes, isEmpty_map]

/-- The first pass over an element. -/
theorem markNodes_element (options : Options) (tree : Tree) (id : NodeId) (el : Element)
    (children branches slots : List Content) :
    markNodes options tree (.element id el children branches slots) =
      .element id (visit options tree true el children branches)
        (children.map (pass options tree (!isReplaceable options.platform el) none))
        (branches.map (pass options tree (!isReplaceable options.platform el) none)) slots := by
  simp only [markNodes, markNodesOf_eq_map, visit, staticMark, if_true]
  cases hreplace : isReplaceable options.platform el with
  | true => simp [pass_unvisited]
  | false => simp [pass, List.all_map, Function.comp_def, Bool.and_assoc]

/-- The second pass over an element. -/
theorem markRoots_element (inLoop : Bool) (id : NodeId) (el : Element)
    (children branches slots : List Content) :
    let el' := settle (some inLoop) el children
    let below := fun c => match inLoopBelow (some inLoop) el' with
      | some inLoop => markRoots inLoop c
      | none => c
    markRoots inLoop (.element id el children branches slots) =
      .element id el' (children.map below) (branches.map below) slots := by
  simp only [markRoots, markRootsOf_eq_map, settle, inLoopBelow, bind_some]
  by_cases hworth : isWorthwhile (noteLoop inLoop el) children = true
  · simp [hworth]
  · simp [hworth]

/-- What the passes do to an element and to what it holds. -/
theorem pass_element (options : Options) (tree : Tree) (visited : Bool) (inLoop : Option Bool)
    (id : NodeId) (el : Element) (children branches slots : List Content) :
    let el' := settle inLoop (visit options tree visited el children branches) children
    let below := pass options tree (visited && !isReplaceable options.platform el)
      (inLoopBelow inLoop el')
    pass options tree visited inLoop (.element id el children branches slots) =
      .element id el' (children.map below) (branches.map below) slots := by
  have hworth (el : Element) (p : Bool) :
      isWorthwhile el (children.map (pass options tree p none)) = isWorthwhile el children := by
    cases p with
    | true => exact isWorthwhile_map_markNodes options tree el children
    | false => simp [pass_unvisited]
  have hsettle (inLoop : Bool) (el : Element) (p : Bool) :
      settle (some inLoop) el (children.map (pass options tree p none)) =
        settle (some inLoop) el children := by
    simp only [settle, hworth]
  have hcomp (visited : Bool) (inLoop : Option Bool) :
      (fun c => match inLoop with
        | some inLoop => markRoots inLoop c
        | none => c) ∘ pass options tree visited none = pass options tree visited inLoop := by
    funext c
    cases inLoop <;> rfl
  cases visited with
  | false =>
    cases inLoop with
    | none => simp [pass_unvisited, settle, visit, inLoopBelow]
    | some inLoop => exact markRoots_element inLoop id el children branches slots
  | true =>
    cases inLoop with
    | none => exact markNodes_element options tree id el children branches slots
    | some inLoop =>
      simp only [Bool.true_and]
      rw [pass, if_pos rfl, markNodes_element]
      simp only [markRoots_element, hsettle, List.map_map, hcomp]

end Static

/-! ## What the passes reach -/

namespace Tree

/-- How the passes reach a node: whether the first pass visits it, and with which note the second
does, if it does. -/
inductive Passed (options : Options) (tree : Tree) : NodeId → Bool → Option Bool → Prop
  | root {r : NodeId} (hr : tree.root = some r) : Passed options tree r true (some false)
  | held {i c : NodeId} {visited : Bool} {inLoop : Option Bool} {el : Element}
      (hi : Passed options tree i visited inLoop)
      (hel : (tree.marked options).element? i = some el)
      (hc : c ∈ el.children ++ el.otherBranches.map Branch.block) :
      Passed options tree c (visited && !Static.isReplaceable options.platform el)
        (Static.inLoopBelow inLoop el)

section

variable {ledger : Ledger} {tree : Tree} {opened : List NodeId} {options : Options}
  {visited : Bool} {inLoop : Option Bool} {i : NodeId} {el : Element}

section

variable (h : tree.Sound ledger opened [])
include h

/-- The marked tree has the nodes of the tree, but for marks. -/
theorem Sound.map_node?_marked (options : Options) (i : NodeId) :
    ((tree.marked options).node? i).map Node.unmarked = (tree.node? i).map Node.unmarked := by
  rw [← node?_unmarked, ← node?_unmarked, h.unmarked_marked]

theorem Sound.map_element?_marked (options : Options) (i : NodeId) :
    ((tree.marked options).element? i).map Element.unmarked =
      (tree.element? i).map Element.unmarked := by
  rw [← element?_unmarked, ← element?_unmarked, h.unmarked_marked]

/-- An element of the marked tree is an element of the tree with marks. -/
theorem Sound.element?_marked (hel : (tree.marked options).element? i = some el) :
    ∃ el₀, tree.element? i = some el₀ ∧ el.unmarked = el₀.unmarked := by
  have hsame := h.map_element?_marked options i
  rw [hel, map_some] at hsame
  obtain ⟨el₀, hel₀, heq⟩ := map_eq_some_iff.mp hsame.symm
  exact ⟨el₀, hel₀, heq.symm⟩

/-- An element of the tree is, with marks, an element of the marked tree. -/
theorem Sound.exists_marked (options : Options) {el₀ : Element} (hel₀ : tree.element? i = some el₀)
    :
    ∃ el, (tree.marked options).element? i = some el ∧ el.unmarked = el₀.unmarked := by
  have hsame := h.map_element?_marked options i
  rw [hel₀, map_some] at hsame
  exact map_eq_some_iff.mp hsame

end

/-- What an element of the marked tree holds outside of slots, it held before. -/
theorem holds_of_marked {el₀ : Element} {c : NodeId} (hel₀ : tree.element? i = some el₀)
    (hsame : el.unmarked = el₀.unmarked)
    (hc : c ∈ el.children ++ el.otherBranches.map Branch.block) : tree.Holds i c := by
  have hlinks := links_of_unmarked hsame
  have hchildren : el.children = el₀.children := congrArg Links.children hlinks
  rcases mem_append.mp hc with hc | hc
  · exact holds_child (node?_of_element? hel₀) (hchildren ▸ hc)
  · obtain ⟨b, hb, rfl⟩ := List.mem_map.mp hc
    rw [otherBranches_of_choice (congrArg Links.choice hlinks)] at hb
    exact holds_branch (node?_of_element? hel₀) hb

/-- If the content at an element is passed over, the element has the marks of the passes, and so are
the contents of its children and branches. -/
theorem unfold_pass {n : Nat} {el₀ : Element}
    (hpass : (tree.marked options).contentTo (n + 1) i =
      Static.pass options tree visited inLoop (tree.contentTo (n + 1) i))
    (hel : (tree.marked options).element? i = some el) (hel₀ : tree.element? i = some el₀)
    (hsame : el.unmarked = el₀.unmarked) :
    el = Static.settle inLoop (Static.visit options tree visited el₀
        (el₀.children.map (tree.contentTo n))
        (el₀.otherBranches.map fun b => tree.contentTo n b.block))
        (el₀.children.map (tree.contentTo n)) ∧
      ∀ c ∈ el.children ++ el.otherBranches.map Branch.block,
        (tree.marked options).contentTo n c =
          Static.pass options tree (visited && !Static.isReplaceable options.platform el)
            (Static.inLoopBelow inLoop el) (tree.contentTo n c) := by
  have hlinks := links_of_unmarked hsame
  have hchildren : el.children = el₀.children := congrArg Links.children hlinks
  have hbranches : el.otherBranches = el₀.otherBranches :=
    otherBranches_of_choice (congrArg Links.choice hlinks)
  have hreplace : Static.isReplaceable options.platform el =
      Static.isReplaceable options.platform el₀ := by
    have := congrArg (Static.isReplaceable options.platform) hsame
    exact this
  rw [contentTo, contentTo, node?_of_element? hel, node?_of_element? hel₀] at hpass
  simp only [Static.pass_element, Content.element.injEq, true_and] at hpass
  obtain ⟨hself, hown, hother, -⟩ := hpass
  rw [← hself, hchildren, List.map_map, map_inj_left] at hown
  rw [← hself, hbranches, List.map_map, map_inj_left] at hother
  refine ⟨hself, fun c hc => ?_⟩
  rw [hreplace]
  rcases mem_append.mp hc with hc | hc
  · exact hown c (hchildren ▸ hc)
  · obtain ⟨b, hb, rfl⟩ := List.mem_map.mp hc
    exact hother b (hbranches ▸ hb)

/-- The content of a node that is reached is passed over. -/
theorem Sound.contentTo_of_passed (h : tree.Sound ledger opened []) {height : NodeId → Nat}
    (hground : tree.Grounded height) (hi : tree.Passed options i visited inLoop) :
    ∃ n, height i < n + 1 ∧ (tree.marked options).contentTo (n + 1) i =
      Static.pass options tree visited inLoop (tree.contentTo (n + 1) i) := by
  induction hi with
  | @root r hr =>
    have hlt := h.root_lt hr
    have hcontent := h.content_marked options hr
    have hheight := hground.bounded r hlt
    obtain ⟨n, hn⟩ := Nat.exists_eq_succ_of_ne_zero (Nat.ne_of_gt (Nat.zero_lt_of_lt hlt))
    rw [content, hn] at hcontent
    rw [hn] at hheight
    exact ⟨n, hheight, hcontent⟩
  | @held i c visited inLoop el hi hel hc ih =>
    obtain ⟨n, hn, hpass⟩ := ih
    obtain ⟨el₀, hel₀, hsame⟩ := h.element?_marked hel
    have hbelow := (unfold_pass hpass hel hel₀ hsame).2 c hc
    have hlt := (hground.held i c (holds_of_marked hel₀ hsame hc)).2
    cases n with
    | zero => omega
    | succ n => exact ⟨n, by omega, hbelow⟩

/-- The passes reach what lies outside of slots. -/
theorem Sound.exists_passed (h : tree.Sound ledger opened []) (options : Options)
    (hi : tree.Outer i) : ∃ visited inLoop, tree.Passed options i visited inLoop := by
  have hmarked {j : NodeId} {el₀ : Element} (hel₀ : tree.node? j = some (.element el₀)) :
      ∃ el, (tree.marked options).element? j = some el ∧ el.links = el₀.links := by
    obtain ⟨el, hel, heq⟩ := h.exists_marked options (element?_of_node? hel₀)
    exact ⟨el, hel, links_of_unmarked heq⟩
  induction hi with
  | root hr => exact ⟨true, some false, .root hr⟩
  | child hi hel hc ih =>
    obtain ⟨visited, inLoop, hpassed⟩ := ih
    obtain ⟨el, hel', hlinks⟩ := hmarked hel
    refine ⟨_, _, .held hpassed hel' (mem_append_left _ ?_)⟩
    rw [show el.children = _ from congrArg Links.children hlinks]
    exact hc
  | branch hi hel hb ih =>
    obtain ⟨visited, inLoop, hpassed⟩ := ih
    obtain ⟨el, hel', hlinks⟩ := hmarked hel
    refine ⟨_, _, .held hpassed hel' (mem_append_right _ (List.mem_map_of_mem ?_))⟩
    rw [otherBranches_of_choice (congrArg Links.choice hlinks)]
    exact hb

/-- Only what the first pass visits is marked static: an element on which nothing changes, and
unless its content may be replaced, all that it holds outside of slots is static too. -/
theorem Sound.static_of_passed (h : tree.Sound ledger opened []) (hplain : tree.unmarked = tree)
    (hi : tree.Passed options i visited inLoop)
    (hel : (tree.marked options).element? i = some el) (hstatic : el.isStatic = true) :
    visited = true ∧ Static.isStaticAlone options tree el = true ∧
      (Static.isReplaceable options.platform el = true ∨
        ∀ c ∈ el.children ++ el.otherBranches.map Branch.block,
          (tree.marked options).isStaticNode c = true) := by
  obtain ⟨height, hground⟩ := h.exists_grounded
  obtain ⟨n, hn, hpass⟩ := h.contentTo_of_passed hground hi
  obtain ⟨el₀, hel₀, hsame⟩ := h.element?_marked hel
  obtain ⟨hself, hheld⟩ := unfold_pass hpass hel hel₀ hsame
  have hsettle (e : Element) (cs : List Content) :
      (Static.settle inLoop e cs).isStatic = e.isStatic := by
    cases inLoop with
    | none => rfl
    | some l =>
      show (Static.noteLoop l e).isStatic = e.isStatic
      rw [Static.noteLoop]
      split <;> rfl
  rw [hself, hsettle] at hstatic
  cases hvisited : visited with
  | false =>
    have hnone : el₀.isStatic = false := by
      have hel' := element?_unmarked tree i
      rw [hplain, hel₀, map_some, Option.some.injEq] at hel'
      rw [hel']
      rfl
    rw [hvisited, Static.visit, if_neg Bool.false_ne_true, hnone] at hstatic
    cases hstatic
  | true =>
    rw [hvisited] at hstatic hheld
    have halone : Static.isStaticAlone options tree el =
        Static.isStaticAlone options tree el₀ := by
      have := congrArg (Static.isStaticAlone options tree) hsame
      exact this
    have hlinks := links_of_unmarked hsame
    have hchildren : el.children = el₀.children := congrArg Links.children hlinks
    have hbranches : el.otherBranches = el₀.otherBranches :=
      otherBranches_of_choice (congrArg Links.choice hlinks)
    have hreplace : Static.isReplaceable options.platform el₀ =
        Static.isReplaceable options.platform el := by
      have := congrArg (Static.isReplaceable options.platform) hsame
      exact this.symm
    simp only [Static.visit, if_true, Static.staticMark, Bool.and_eq_true, Bool.or_eq_true,
      List.all_eq_true, List.forall_mem_map] at hstatic
    refine ⟨rfl, halone.trans hstatic.1, ?_⟩
    rw [hreplace] at hstatic
    rcases hstatic.2 with hr | ⟨hown, hother⟩
    · exact .inl hr
    · cases hr : Static.isReplaceable options.platform el with
      | true => exact .inl rfl
      | false =>
        right
        intro c hc
        have hcontent := hheld c hc
        have hlt := (hground.held i c (holds_of_marked hel₀ hsame hc)).2
        have hmark : (Static.markNodes options tree (tree.contentTo n c)).isStatic = true := by
          rcases mem_append.mp hc with hc | hc
          · exact hown c (hchildren ▸ hc)
          · obtain ⟨b, hb, rfl⟩ := List.mem_map.mp hc
            exact hother b (hbranches ▸ hb)
        obtain ⟨k, rfl⟩ := Nat.exists_eq_succ_of_ne_zero (show n ≠ 0 by omega)
        rw [← isStatic_contentTo _ k, hcontent, Static.isStatic_pass, hr]
        exact hmark

/-- Whether a single literal text is all that an element holds as children. -/
def HoldsSingleText (tree : Tree) (el : Element) : Prop :=
  ∃ c t, el.children = [c] ∧ tree.node? c = some (.plain t)

/-- A single text among the contents of the children is a single text in the table. -/
theorem Grounded.isSingleText_children {height : NodeId → Nat} (h : tree.Grounded height)
    (hel : tree.element? i = some el) {n : Nat} (hn : height i < n + 1) :
    Static.isSingleText (el.children.map (tree.contentTo n)) = true ↔ tree.HoldsSingleText el := by
  have hplain {c : NodeId} (hc : c ∈ el.children) (id : NodeId) (t : PlainText) :
      tree.contentTo n c = .plain id t ↔ c = id ∧ tree.node? c = some (.plain t) := by
    obtain ⟨hlt, hheight⟩ := h.held i c (holds_child (node?_of_element? hel) hc)
    obtain ⟨k, rfl⟩ := Nat.exists_eq_succ_of_ne_zero (show n ≠ 0 by omega)
    rw [contentTo]
    cases hnode : tree.node? c with
    | none => exact absurd (node?_eq_none_iff.mp hnode) (Nat.not_le_of_lt hlt)
    | some node => cases node <;> simp
  rw [Static.isSingleText_iff]
  constructor
  · rintro ⟨id, t, hcontents⟩
    obtain ⟨c, hchildren, hcontent⟩ := map_eq_singleton_iff.mp hcontents
    have hc : c ∈ el.children := hchildren ▸ mem_singleton_self c
    exact ⟨c, t, hchildren, ((hplain hc id t).mp hcontent).2⟩
  · rintro ⟨c, t, hchildren, hnode⟩
    have hc : c ∈ el.children := hchildren ▸ mem_singleton_self c
    refine ⟨c, t, ?_⟩
    rw [hchildren, map_singleton, (hplain hc c t).mpr ⟨rfl, hnode⟩]

/-- Marking does not change which elements hold a single text. -/
theorem Sound.holdsSingleText_marked (h : tree.Sound ledger opened []) {el₀ : Element}
    (hsame : el.unmarked = el₀.unmarked) :
    (tree.marked options).HoldsSingleText el ↔ tree.HoldsSingleText el₀ := by
  have hchildren : el.children = el₀.children :=
    congrArg Links.children (links_of_unmarked hsame)
  have hplain (t : Tree) (c : NodeId) : (∃ text, t.node? c = some (.plain text)) ↔
      (((t.node? c).map Node.unmarked).bind Node.literal?).isSome = true := by
    cases t.node? c with
    | none => simp
    | some node => cases node <;> simp [Node.unmarked, Node.literal?]
  simp only [HoldsSingleText, hchildren, exists_and_left, hplain, h.map_node?_marked]

/-- Whether an element of a tree without marks is a static root is settled by the second pass: of what
it reaches it picks the static elements that hold something besides a single text. There it also notes
the loop. -/
theorem Sound.roots_of_passed (h : tree.Sound ledger opened []) (hplain : tree.unmarked = tree)
    (hi : tree.Passed options i visited inLoop)
    (hel : (tree.marked options).element? i = some el) :
    (el.staticRoot = true ↔ el.isStatic = true ∧ el.children ≠ [] ∧
        ¬ (tree.marked options).HoldsSingleText el ∧ inLoop ≠ none) ∧
      ∀ l, inLoop = some l → el.isStatic = true ∨ el.once = true → el.staticInLoop = l := by
  obtain ⟨height, hground⟩ := h.exists_grounded
  obtain ⟨n, hn, hpass⟩ := h.contentTo_of_passed hground hi
  obtain ⟨el₀, hel₀, hsame⟩ := h.element?_marked hel
  obtain ⟨hself, -⟩ := unfold_pass hpass hel hel₀ hsame
  have hchildren : el.children = el₀.children :=
    congrArg Links.children (links_of_unmarked hsame)
  generalize hvisit : Static.visit options tree visited el₀ (el₀.children.map (tree.contentTo n))
    (el₀.otherBranches.map fun b => tree.contentTo n b.block) = e at hself
  have hvisited : e.staticRoot = el₀.staticRoot := by
    rw [← hvisit, Static.visit]
    split <;> rfl
  rw [h.holdsSingleText_marked hsame, ← hground.isSingleText_children hel₀ hn, hchildren]
  cases inLoop with
  | none =>
    have hnone : el₀.staticRoot = false := by
      have hel' := element?_unmarked tree i
      rw [hplain, hel₀, map_some, Option.some.injEq] at hel'
      rw [hel']
      rfl
    have hroot : el.staticRoot = false := by rw [hself, Static.settle, hvisited, hnone]
    simp [hroot]
  | some l =>
    have hstatic : (Static.noteLoop l e).isStatic = e.isStatic := by
      rw [Static.noteLoop]
      split <;> rfl
    have hkept : el.isStatic = e.isStatic ∧ el.once = e.once := by
      rw [hself, Static.settle, Static.noteLoop]
      split <;> exact ⟨rfl, rfl⟩
    constructor
    · rw [hkept.1, hself]
      simp [Static.settle, Static.isWorthwhile, hstatic, and_assoc]
    · rintro _ ⟨⟩ hnoted
      rw [hkept.1, hkept.2, ← Bool.or_eq_true] at hnoted
      rw [hself]
      simp [Static.settle, Static.noteLoop, hnoted]

end

end Tree

end ViewTemplate
