import ViewTemplate.Proofs.BuilderFrame
import ViewTemplate.Proofs.Forest

/-! # Building a tree keeps it a forest

Each operation of the builder is one of the moves of a forest, or several of them. Closing an
element takes it from the open elements, gives it a seat or none, and settles it.
-/

open List Option

namespace ViewTemplate

open Element Extension

/-- The links of an element to other nodes. -/
structure Element.Links where
  parent : Option NodeId
  children : List NodeId
  scopedSlots : Keyed NodeId
  choice : Option Choice

namespace Element

def Frame.links (f : Frame) : Links where
  parent := f.parent
  children := f.children
  scopedSlots := f.scopedSlots
  choice := f.choice

def links (el : Element) : Links := el.frame.links

theorem shape_of_links {a b : Element} (h : a.links = b.links) :
    a.shape = { b.shape with isSlot := a.slotScope.isSome } := by
  have hp : a.parent = b.parent := congrArg Links.parent h
  have hc : a.children = b.children := congrArg Links.children h
  have hs : a.scopedSlots = b.scopedSlots := congrArg Links.scopedSlots h
  have hb : a.otherBranches = b.otherBranches :=
    otherBranches_of_choice (congrArg Links.choice h)
  rw [shape, shape, hp, hc, hs, hb]

end Element

/-- An extension does not edit the links of elements. Whether an element is content of a slot
decides which link holds it, so that this must not change either once the element has its place. -/
structure Extension.KeepsLinks (extension : Extension) : Prop where
  links : extension.Keeps Element.links
  isSlot : ∀ surroundings el,
    (extension.afterPlacement surroundings el).value.slotScope.isSome = el.slotScope.isSome

/-- The extensions for documents do not edit links. -/
theorem Extension.keepsLinks_web : ∀ x ∈ Options.web.extensions, x.KeepsLinks := by
  intro x hx
  refine ⟨(keeps_frame_web x hx).map Element.Frame.links, ?_⟩
  rcases Options.eq_of_mem_web hx with rfl | rfl
  · exact fun _ _ => rfl
  · exact fun _ _ => rfl

namespace Tree

variable {ledger : Ledger} {tree : Tree} {el : Element} {id : NodeId} {opened loose : List NodeId}

theorem shape?_of_element? (h : tree.element? id = some el) : tree.shape? id = some el.shape := by
  rw [shape?, h]
  rfl

theorem shape?_update (h : tree.element? id = some el) (f : Element → Element) (j : NodeId) :
    (tree.update id f).shape? j = if j = id then some (f el).shape else tree.shape? j := by
  rw [shape?, element?_update, h]
  split <;> rfl

theorem shape?_add (tree : Tree) (node : Node) (j : NodeId) :
    (tree.add node).2.shape? j =
      if j = tree.nodes.size then node.element?.map Element.shape else tree.shape? j := by
  rw [shape?, element?_add]
  split <;> rfl

theorem update_of_none (h : tree.element? id = none) (f : Element → Element) :
    tree.update id f = tree := by
  rw [update, h]

/-- Changes to an element that neither add links nor change how others see it. -/
theorem Sound.update (h : tree.Sound ledger opened loose) (id : NodeId) {f : Element → Element}
    (hf : ∀ el, tree.element? id = some el → ∃ children, children.Sublist el.children ∧
      (f el).shape = { el.shape with children := children }) :
    (tree.update id f).Sound ledger opened loose := by
  cases hel : tree.element? id with
  | none =>
    rw [update_of_none hel]
    exact h
  | some el =>
    obtain ⟨children, hsub, hshape⟩ := hf el hel
    have hface : (f el).shape.face = el.shape.face := by
      rw [hshape]
      rfl
    have hchildren : (f el).shape.children = children := by rw [hshape]
    exact h.shrink (shape?_of_element? hel) (size_update ..) (root_update ..)
      (shape?_update hel f) (.inl hface) (by rw [hshape]) (hchildren ▸ hsub) (by rw [hshape])
      (by rw [hshape])

/-- Changes to an open element besides its links. -/
theorem Sound.retouch (h : tree.Sound ledger opened loose) (hid : id ∈ opened)
    {f : Element → Element} (hf : ∀ el, tree.element? id = some el → (f el).links = el.links) :
    (tree.update id f).Sound ledger opened loose := by
  cases hel : tree.element? id with
  | none =>
    rw [update_of_none hel]
    exact h
  | some el =>
    have hshape := Element.shape_of_links (hf el hel)
    have hchildren : (f el).shape.children = el.shape.children := by rw [hshape]
    exact h.shrink (shape?_of_element? hel) (size_update ..) (root_update ..)
      (shape?_update hel f) (.inr (h.outside.unseated id hid).1) (by rw [hshape])
      (hchildren ▸ Sublist.refl (f el).shape.children) (by rw [hshape]) (by rw [hshape])

theorem set_eq_update (h : tree.element? id = some el) (el' : Element) :
    tree.set id (.element el') = tree.update id fun _ => el' := by
  rw [Tree.update, h]

end Tree

namespace Builder

open ViewTemplate.Tree

variable {b : Builder} {el : Element} {id parent : NodeId} {later tree : Tree} {ledger : Ledger}
  {opened loose : List NodeId} {options : Options}

theorem sound_trimChildren (h : b.tree.Sound ledger opened loose) (id : NodeId) :
    (b.trimChildren id).tree.Sound ledger opened loose := by
  refine h.update id ?_
  intro el _
  refine ⟨_, ?_, rfl⟩
  have hsub := (dropWhile_sublist (fun c => !b.inPre && isSpace b.tree c)
    (l := el.children.reverse)).reverse
  rwa [reverse_reverse] at hsub

/-! ## Reading an element -/

/-- Elements that are moved get a new parent. -/
theorem shape?_foldl_parent (container : NodeId) (inside : List NodeId) (tree : Tree) (j : NodeId) :
    (inside.foldl (fun t c => t.update c fun e => { e with parent := some container })
      tree).shape? j =
      if j ∈ inside then (tree.shape? j).map fun s => { s with parent := some container }
      else tree.shape? j := by
  induction inside generalizing tree with
  | nil => rfl
  | cons c inside ih =>
    have hone : (tree.update c fun e => { e with parent := some container }).shape? j =
        if j = c then (tree.shape? j).map fun s => { s with parent := some container }
        else tree.shape? j := by
      rw [shape?, element?_update]
      split
      · rename_i hj
        rw [shape?, hj, Option.map_map, Option.map_map]
        rfl
      · rfl
    rw [foldl_cons, ih, hone]
    by_cases hj : j = c
    · simp only [hj, if_true, mem_cons_self, Option.map_map]
      split <;> rfl
    · simp only [hj, if_false, mem_cons, false_or]

theorem size_foldl_update (f : Element → Element) (ids : List NodeId) (tree : Tree) :
    (ids.foldl (fun t c => t.update c f) tree).nodes.size = tree.nodes.size ∧
      (ids.foldl (fun t c => t.update c f) tree).root = tree.root := by
  induction ids generalizing tree with
  | nil => exact ⟨rfl, rfl⟩
  | cons c ids ih =>
    rw [foldl_cons, (ih _).1, (ih _).2, size_update, root_update]
    exact ⟨rfl, rfl⟩

theorem element?_foldl_update {ids : List NodeId} {j : NodeId} (hj : j ∉ ids)
    (f : Element → Element) (tree : Tree) :
    (ids.foldl (fun t c => t.update c f) tree).element? j = tree.element? j := by
  induction ids generalizing tree with
  | nil => rfl
  | cons c ids ih =>
    rw [mem_cons, not_or] at hj
    rw [foldl_cons, ih hj.2, element?_update, if_neg hj.1]

theorem size_fillSlot (hel : tree.element? id = some el) (use : SlotUse) :
    (fillSlot id use tree).nodes.size = tree.nodes.size + 1 := by
  rw [fillSlot_eq hel, size_update, (size_foldl_update ..).1, size_add]

/-- The links after a slot is filled. -/
theorem shape?_fillSlot (hel : tree.element? id = some el) (use : SlotUse)
    (hid : id ∉ slotInside tree el) (hlt : ∀ c ∈ slotInside tree el, c < tree.nodes.size)
    (j : NodeId) :
    (fillSlot id use tree).shape? j =
      if j = id then
        some { el.shape with
          children := []
          slots := (el.scopedSlots.insert use.name tree.nodes.size).values }
      else if j ∈ slotInside tree el then
        (tree.shape? j).map fun s => { s with parent := some tree.nodes.size }
      else if j = tree.nodes.size then some (.container id (slotInside tree el))
      else tree.shape? j := by
  have hkept : ((slotInside tree el).foldl
      (fun t c => t.update c fun e => { e with parent := some tree.nodes.size })
      (tree.add (.element (slotContainer use id (slotInside tree el)))).2).element? id =
      some el := by
    have hlt' := lt_size_of_element? hel
    rw [element?_foldl_update hid, element?_add, if_neg (Nat.ne_of_lt hlt'), hel]
  rw [fillSlot_eq hel, shape?_update hkept, shape?_foldl_parent, shape?_add]
  split
  · rfl
  · split
    · rename_i hj
      rw [if_neg (Nat.ne_of_lt (hlt j hj))]
    · rfl

/-- Filling a slot gives the children of an open element to a new container. -/
theorem sound_fillSlot (h : tree.Sound ledger opened loose) (hid : id ∈ opened)
    (hel : tree.element? id = some el) (use : SlotUse) :
    (fillSlot id use tree).Sound (ledger.fill id tree.nodes.size (slotInside tree el)) opened
      loose := by
  have hx := shape?_of_element? hel
  have hown := h.shapes id el.shape hx
  have hmoved : id ∉ slotInside tree el := by
    intro hc
    have hheld : id ∈ el.shape.held :=
      mem_append_left _ (mem_append_left _ (mem_filter.mp hc).1)
    exact h.ne_of_held (h.outside.unseated id hid).1 hx hheld rfl
  have hfilling : Filling ledger tree (fillSlot id use tree) opened loose id el.shape
      (slotInside tree el) (el.scopedSlots.insert use.name tree.nodes.size).values := {
    sound := h
    isOpen := hid
    owner := hx
    sublist := filter_sublist
    plain := by
      intro c hc t ht
      have hslot := (mem_filter.mp hc).2
      obtain ⟨e, he, rfl⟩ := map_eq_some_iff.mp ht
      simp only [isSlotContent, he, any_some, Bool.not_eq_true'] at hslot
      exact hslot
    slot := fun v hv => Keyed.mem_values_insert hv
    nodup := by
      refine Keyed.nodup_values_insert hown.slots_nodup ?_
      intro hv
      obtain ⟨-, -, t, ht, -⟩ := hown.slot _ hv
      exact Nat.lt_irrefl _ (lt_size_of_shape? ht)
    size := size_fillSlot hel use
    root := by rw [fillSlot_eq hel, root_update, (size_foldl_update ..).2, root_add]
    shape := shape?_fillSlot hel use hmoved fun c hc => hown.child_lt c (mem_filter.mp hc).1 }
  exact hfilling.sound_later

/-- Some ledger holds for a later tree: old nodes keep their ranks, and new ones are containers. -/
def Continues (ledger : Ledger) (tree later : Tree) (opened loose : List NodeId) : Prop :=
  tree.nodes.size ≤ later.nodes.size ∧ ∃ ledger' : Ledger, later.Sound ledger' opened loose ∧
    (∀ c, c < tree.nodes.size → ledger'.rank c = ledger.rank c) ∧
    ∀ c, tree.nodes.size ≤ c → c < later.nodes.size → ledger'.rank c ≠ 2 * c

theorem Continues.of_sound {ledger' : Ledger} (h : later.Sound ledger' opened loose)
    (hsize : later.nodes.size = tree.nodes.size) (hrank : ∀ c, ledger'.rank c = ledger.rank c) :
    Continues ledger tree later opened loose := by
  refine ⟨Nat.le_of_eq hsize.symm, ledger', h, fun c _ => hrank c, ?_⟩
  intro c hc hlt
  rw [hsize] at hlt
  exact absurd hlt (Nat.not_lt.mpr hc)

theorem Continues.of_size {mid : Tree} (h : Continues ledger mid later opened loose)
    (hsize : mid.nodes.size = tree.nodes.size) : Continues ledger tree later opened loose := by
  rw [Continues, hsize] at h
  exact h

/-- One change after another. -/
theorem Continues.bind {mid : Tree} {opened' loose' : List NodeId}
    (h : Continues ledger tree mid opened loose)
    (next : ∀ ledger' : Ledger, mid.Sound ledger' opened loose →
      Continues ledger' mid later opened' loose') : Continues ledger tree later opened' loose' := by
  obtain ⟨hle₁, l₁, h₁, hrank₁, hnew₁⟩ := h
  obtain ⟨hle₂, l₂, h₂, hrank₂, hnew₂⟩ := next l₁ h₁
  refine ⟨Nat.le_trans hle₁ hle₂, l₂, h₂, ?_, ?_⟩
  · intro c hc
    rw [hrank₂ c (Nat.lt_of_lt_of_le hc hle₁), hrank₁ c hc]
  · intro c hc hlt
    by_cases hmid : c < mid.nodes.size
    · rw [hrank₂ c hmid]
      exact hnew₁ c hc hmid
    · exact hnew₂ c (Nat.le_of_not_lt hmid) hlt

theorem continues_fillUse (h : tree.Sound ledger opened loose) (hid : id ∈ opened)
    (use : Option SlotUse) : Continues ledger tree (fillUse id use tree) opened loose := by
  cases use with
  | none => exact .of_sound h rfl fun _ => rfl
  | some use =>
    obtain ⟨el, hel⟩ := h.outside.exists_element hid
    have hsize := size_fillSlot hel use
    refine ⟨Nat.le.intro hsize.symm, _, sound_fillSlot h hid hel use,
      fun c hc => if_neg (Nat.ne_of_lt hc), ?_⟩
    intro c hc hlt
    have hodd (a b : Nat) : 2 * a + 1 ≠ 2 * b := by omega
    have heq : c = tree.nodes.size :=
      Nat.le_antisymm (Nat.le_of_lt_succ (Nat.lt_of_lt_of_eq hlt hsize)) hc
    rw [heq]
    exact fun he => hodd _ _ ((if_pos rfl).symm.trans he)

/-! ## Giving an element its place -/

theorem sound_addBranch {holder : NodeId} (h : tree.Sound ledger (id :: opened) loose)
    (hel : tree.element? holder = some el) (hchoice : el.choice.isSome)
    (hlt : ledger.rank holder < ledger.rank id) (hparent : el.parent = opened.head?)
    (hroot : tree.root ≠ some id) (guard : Option String) :
    Continues ledger tree (tree.update holder (addBranch ⟨guard, id⟩)) opened loose := by
  obtain ⟨choice, hc⟩ := isSome_iff_exists.mp hchoice
  have hshape : (addBranch ⟨guard, id⟩ el).shape =
      { el.shape with blocks := el.shape.blocks ++ [id] } := by
    simp only [Element.shape, addBranch, otherBranches, hc, map_some,
      map_append, map_cons, map_nil]
  refine .of_sound (h.addBranch (shape?_of_element? hel) hlt hparent hroot (size_update ..)
    (root_update ..) ?_) (size_update ..) (ledger.rank_put_self id _)
  intro j
  rw [shape?_update hel, hshape]

theorem sound_placeChild (h : tree.Sound ledger (id :: parent :: opened) loose)
    (hloose : parent ∈ loose) (hel : tree.element? id = some el) :
    Continues ledger tree (placeChild id el parent tree) (parent :: opened) loose := by
  have hx := shape?_of_element? hel
  obtain ⟨hfree, -, -⟩ := h.outside.unseated id mem_cons_self
  obtain ⟨-, -, t, ht⟩ :=
    h.outside.unseated parent (mem_cons_of_mem id mem_cons_self)
  obtain ⟨p, hp, rfl⟩ := map_eq_some_iff.mp ht
  have hne : id ≠ parent :=
    Nat.ne_of_gt ((pairwise_cons.mp h.outside.nested).1 parent mem_cons_self).1
  let slots := if el.slotScope.isSome then
    p.scopedSlots.insert (el.slotTarget.getD defaultSlot) id else p.scopedSlots
  have hslots : ∀ v ∈ slots.values, v ∈ p.shape.slots ∨ v = id ∧ el.shape.isSlot = true := by
    intro v hv
    simp only [slots] at hv
    split at hv
    · rename_i hslot
      exact (Keyed.mem_values_insert hv).imp_right fun he => ⟨he, hslot⟩
    · exact .inl hv
  have hnodup : slots.values.Nodup := by
    have hold := (h.shapes parent p.shape ht).slots_nodup
    simp only [slots]
    split
    · refine Keyed.nodup_values_insert hold ?_
      intro hv
      have hheld : id ∈ p.shape.held := mem_append_left _ (mem_append_right _ hv)
      exact h.ne_of_held hfree ht hheld rfl
    · exact hold
  have hkept : (tree.update parent fun p =>
      { p with
        children := p.children ++ [id]
        scopedSlots :=
          if el.slotScope.isSome then
            p.scopedSlots.insert (el.slotTarget.getD defaultSlot) id
          else p.scopedSlots }).element? id = some el := by
    rw [element?_update, if_neg hne, hel]
  refine .of_sound (h.addChild hx ht hloose hslots hnodup ?_ ?_ ?_) ?_ (ledger.rank_put_self id _)
  · rw [placeChild, size_update, size_update]
  · rw [placeChild, root_update, root_update]
  · intro j
    rw [placeChild, shape?_update hkept, shape?_update hp]
    rfl
  · rw [placeChild, size_update, size_update]

theorem untilElement_sublist {p : Element} (hp : tree.element? parent = some p) :
    (untilElement tree parent).reverse.Sublist p.children := by
  have hsub := (dropWhile_sublist (fun child => !tree.isElement child)
    (l := p.children.reverse)).reverse
  rw [reverse_reverse] at hsub
  simpa only [untilElement, hp, map_some, getD_some] using hsub

theorem sound_placeBranch (h : tree.Sound ledger (id :: parent :: opened) loose) (el : Element) :
    Continues ledger tree (giveBranch (untilElement tree parent).head? ⟨el.elseIf, id⟩
      (dropTexts tree parent)) (parent :: opened) loose := by
  obtain ⟨-, hrank, -⟩ := h.outside.unseated id mem_cons_self
  obtain ⟨-, -, t, ht⟩ :=
    h.outside.unseated parent (mem_cons_of_mem id mem_cons_self)
  obtain ⟨p, hp, rfl⟩ := map_eq_some_iff.mp ht
  obtain ⟨hlt, hbefore⟩ := (pairwise_cons.mp h.outside.nested).1 parent mem_cons_self
  have hdrop : (dropTexts tree parent).Sound ledger (id :: parent :: opened) loose := by
    refine h.update parent ?_
    intro e he
    rw [hp] at he
    cases he
    exact ⟨_, untilElement_sublist hp, rfl⟩
  have hsize : (dropTexts tree parent).nodes.size = tree.nodes.size := size_update ..
  rcases giveBranch_cases (untilElement tree parent).head? ⟨el.elseIf, id⟩ (dropTexts tree parent)
    with hv | ⟨previous, q, hhead, hq, hchoice, hv⟩
  · rw [hv]
    exact .of_sound hdrop.leave hsize fun _ => rfl
  · rw [hv]
    -- the element before is a child of the parent, which the closing element came after
    have hmem : previous ∈ p.shape.children := by
      refine (untilElement_sublist hp).subset ?_
      rw [mem_reverse]
      exact mem_of_mem_head? hhead
    have hown := h.shapes parent p.shape ht
    refine (sound_addBranch hdrop hq hchoice ?_ ?_ ?_ el.elseIf).of_size hsize
    · rw [hrank, (hown.child_rank previous hmem).1]
      exact Nat.mul_lt_mul_of_pos_left (hbefore p.shape ht previous hmem) Nat.two_pos
    · have hne : previous ≠ parent := by
        intro he
        obtain ⟨hr, hlt⟩ := hown.child_rank previous hmem
        rw [← he, hr] at hlt
        exact Nat.lt_irrefl _ hlt
      rw [dropTexts, element?_update, if_neg hne] at hq
      exact hown.child_parent previous hmem q.shape (shape?_of_element? hq)
    · intro hr
      have hle := (hdrop.outside.root id hr).2.2.1 parent
        (mem_cons_of_mem id mem_cons_self)
      exact absurd hlt (Nat.not_lt.mpr hle)

/-- A closing element leaves the open elements, with or without a seat. -/
theorem continues_place (h : b.tree.Sound ledger (id :: b.stack) loose)
    (hloose : ∀ j ∈ b.stack, j ∈ loose) :
    Continues ledger b.tree (b.place id).value.tree b.stack loose := by
  obtain ⟨-, hrank, -⟩ := h.outside.unseated id mem_cons_self
  obtain ⟨el, hel⟩ := h.outside.exists_element mem_cons_self
  have hleave : Continues ledger b.tree b.tree b.stack loose := .of_sound h.leave rfl fun _ => rfl
  cases hstack : b.stack with
  | nil =>
    rw [hstack] at h hleave
    rw [tree_place_outside hel (by rw [parent?, hstack]; rfl)]
    rcases giveBranch_cases (if el.isBranch then if b.tree.root = some id then none else b.tree.root
      else none) ⟨el.elseIf, id⟩ b.tree with hsame | ⟨root, r, hholder, hr, hchoice, hgiven⟩
    · rwa [hsame]
    · obtain ⟨hroot, hne⟩ : b.tree.root = some root ∧ b.tree.root ≠ some id := by
        split at hholder
        · split at hholder
          · cases hholder
          · exact ⟨hholder, by assumption⟩
        · cases hholder
      rw [hgiven]
      obtain ⟨-, hrankr, hle, -⟩ := h.outside.root root hroot
      refine sound_addBranch h hr hchoice ?_ ?_ hne el.elseIf
      · rw [hrankr, hrank]
        exact Nat.mul_lt_mul_of_pos_left
          (Nat.lt_of_le_of_ne (hle id mem_cons_self) fun he => hne (he ▸ hroot)) Nat.two_pos
      · exact h.outside.orphan root r.shape hroot (shape?_of_element? hr)
  | cons parent rest =>
    rw [hstack] at h hloose hleave
    have hparent : b.parent? = some parent := by rw [parent?, hstack]; rfl
    rw [tree_place_inside hel hparent]
    split
    · exact hleave
    · split
      · exact sound_placeBranch h el
      · exact sound_placeChild h (hloose parent mem_cons_self) hel

theorem sound_dropSlotContent (h : tree.Sound ledger opened (id :: loose)) :
    (dropSlotContent id tree).Sound ledger opened loose := by
  have hdrop : (dropSlotContent id tree).Sound ledger opened (id :: loose) := by
    refine h.update id ?_
    intro el _
    exact ⟨_, filter_sublist, rfl⟩
  refine hdrop.settle ?_
  intro s hs c hc
  obtain ⟨e, he, rfl⟩ := map_eq_some_iff.mp hs
  rw [dropSlotContent, element?_update, if_pos rfl, map_eq_some_iff] at he
  obtain ⟨el, hel, rfl⟩ := he
  obtain ⟨hc, hslot⟩ := mem_filter.mp hc
  rcases (h.shapes id el.shape (shape?_of_element? hel)).child_seat c hc with
    hseat | ⟨-, -, t, ht, hisSlot⟩
  · exact hseat
  · obtain ⟨d, hd, rfl⟩ := map_eq_some_iff.mp ht
    rw [isSlotContent, hd, any_some, show d.slotScope.isSome = true from hisSlot] at hslot
    cases hslot

/-- A text becomes a child of the innermost open element. -/
theorem sound_appendNode (h : tree.Sound ledger (id :: opened) loose) {node : Node}
    (hnode : node.element? = none) :
    (appendNode id node tree).Sound
      (ledger.put tree.nodes.size (.child id) (2 * tree.nodes.size)) (id :: opened) loose := by
  obtain ⟨-, -, s, hs⟩ := h.outside.unseated id mem_cons_self
  obtain ⟨el, hel, rfl⟩ := map_eq_some_iff.mp hs
  have hkept : (tree.add node).2.element? id = some el := by
    rw [element?_add, if_neg (Nat.ne_of_lt (lt_size_of_element? hel)), hel]
  have hnone : tree.shape? tree.nodes.size = none := by
    rw [shape?, element?, node?_eq_none_iff.mpr (Nat.le_refl _)]
    rfl
  refine h.append hs ((size_update ..).trans (size_add ..))
    ((root_update ..).trans (root_add ..)) ?_
  intro j
  show (Tree.update (tree.add node).2 id _).shape? j = _
  rw [shape?_update hkept, shape?_add, hnode]
  split
  · rfl
  · split
    · rename_i hj
      rw [hj, hnone]
      rfl
    · rfl

section Hooks

variable {b : Builder} (hkeeps : ∀ x ∈ options.extensions, x.KeepsLinks)
include hkeeps

theorem links_readContent (loopItems : List String) (el : Element) :
    (readContent options loopItems el).value.links = el.links :=
  readContent_keeps (f := Element.Frame.links) (fun x hx => (hkeeps x hx).links) loopItems el

theorem continues_finishReading (h : b.tree.Sound ledger opened loose) {id : NodeId}
    (hid : id ∈ opened) :
    Continues ledger b.tree (b.finishReading options id).value.tree opened loose := by
  rw [finishReading]
  split
  · exact .of_sound h rfl fun _ => rfl
  · obtain ⟨el, hel⟩ := h.outside.exists_element hid
    obtain ⟨placed, use, loopItems, hframe, hvalue, -⟩ := value_readElement options hel
    show Continues ledger b.tree (readElement options id b.tree).value opened loose
    rw [hvalue, set_eq_update hel]
    have hplaced : (b.tree.update id fun _ => placed).Sound ledger opened loose := by
      refine h.retouch hid ?_
      intro e he
      rw [hel] at he
      cases he
      exact (congrArg Element.Frame.links hframe :)
    refine Continues.bind (.of_sound hplaced (size_update ..) fun _ => rfl) fun l₁ h₁ => ?_
    refine Continues.bind (continues_fillUse h₁ hid use) fun l₂ h₂ => ?_
    refine .of_sound (h₂.retouch hid ?_) (size_update ..) fun _ => rfl
    intro e _
    exact links_readContent hkeeps loopItems e

theorem sound_finishElement (h : b.tree.Sound ledger opened loose) (id : NodeId) :
    Continues ledger b.tree (b.finishElement options id).value.tree opened loose := by
  rw [tree_finishElement]
  refine .of_sound (h.update id fun el _ => ⟨el.children, Sublist.refl _, ?_⟩) (size_update ..)
    fun _ => rfl
  have hlinks := leftAs_keeps Element.links (fun x hx => (hkeeps x hx).links.afterPlacement) el
  have hslot := leftAs_keeps (fun el => el.slotScope.isSome) (fun x hx => (hkeeps x hx).isSlot) el
  rw [Element.shape_of_links hlinks, hslot]
  rfl

/-- Closing an element keeps the tree a forest. -/
theorem continues_close {id : NodeId} (h : b.tree.Sound ledger (id :: b.stack) (id :: b.stack)) :
    Continues ledger b.tree (b.close options id).value.tree b.stack b.stack := by
  simp only [close, Reported.value_bind]
  have htrim := sound_trimChildren h id
  refine Continues.bind (.of_sound htrim (size_update ..) fun _ => rfl) fun l₁ h₁ => ?_
  refine Continues.bind (continues_finishReading hkeeps h₁ mem_cons_self) fun l₂ h₂ => ?_
  generalize hread : ((b.trimChildren id).finishReading options id).value = read at h₂ ⊢
  have hstack : read.stack = b.stack := by
    rw [← hread, stack_finishReading, stack_trimChildren]
  rw [← hstack] at h₂ ⊢
  refine Continues.bind (continues_place h₂ fun j hj => mem_cons_of_mem id hj)
    fun l₃ h₃ => ?_
  generalize (read.place id).value = placed at h₃ ⊢
  have hdrop : (placed.withTree (dropSlotContent id)).tree.Sound l₃ read.stack read.stack :=
    sound_dropSlotContent h₃
  refine Continues.bind (.of_sound hdrop (size_update ..) fun _ => rfl) fun l₄ h₄ => ?_
  have htrim' := sound_trimChildren h₄ id
  refine Continues.bind (.of_sound htrim' (size_update ..) fun _ => rfl) fun l₅ h₅ => ?_
  exact sound_finishElement hkeeps h₅ id

/-! ## Events -/

theorem shape_entered (tag : String) (attributes : List Attribute) (range : Range) (b : Builder) :
    (b.entered options tag attributes range).shape.parent = b.stack.head? ∧
      (b.entered options tag attributes range).shape.held = [] := by
  generalize hel : (b.newElement options tag attributes range).value = el
  have hlinks : el.links = (b.bare options tag attributes range).links := by
    rw [← hel]
    exact newElement_keeps Element.links (fun x hx => (hkeeps x hx).links.atStart) tag attributes
      range b
  have hframe := frame_enter options el b
  have hblocks : (b.entered options tag attributes range).otherBranches = [] := by
    rw [entered, hel]
    refine otherBranches_enter options ?_ b
    rw [Element.otherBranches_of_choice (congrArg Element.Links.choice hlinks)]
    rfl
  have hchildren : (b.entered options tag attributes range).children = [] := by
    rw [entered, hel]
    exact (congrArg Element.Frame.children hframe).trans (congrArg Element.Links.children hlinks)
  have hslots : (b.entered options tag attributes range).scopedSlots = {} := by
    rw [entered, hel]
    exact (congrArg Element.Frame.scopedSlots hframe).trans
      (congrArg Element.Links.scopedSlots hlinks)
  constructor
  · rw [entered, hel]
    exact (congrArg Element.Frame.parent hframe).trans (congrArg Element.Links.parent hlinks)
  · simp only [Shape.held, Element.shape, hchildren, hslots, hblocks]
    rfl

theorem sound_opened (h : b.tree.Sound ledger b.stack b.stack) (tag : String)
    (attributes : List Attribute) (range : Range) :
    (b.opened options tag attributes range).tree.Sound
      (ledger.put b.tree.nodes.size .free (2 * b.tree.nodes.size))
      (b.tree.nodes.size :: b.stack) (b.tree.nodes.size :: b.stack) := by
  have hnodes := nodes_opened options tag attributes range b
  have hroot := root_opened options tag attributes range b
  obtain ⟨hparent, hheld⟩ := shape_entered hkeeps tag attributes range b
  refine h.opens ?_ ?_ ?_ hparent hheld
  · rw [hnodes]
    exact size_add ..
  · cases hr : b.tree.root with
    | none =>
      right
      rw [hroot, hr]
      exact ⟨rfl, rfl⟩
    | some r =>
      left
      rw [hroot, hr]
      exact ⟨rfl, rfl⟩
  · intro j
    rw [shape?, element?, node?, hnodes]
    exact shape?_add ..

end Hooks

end Builder

end ViewTemplate
