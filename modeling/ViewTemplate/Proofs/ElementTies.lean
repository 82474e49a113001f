import ViewTemplate.Proofs.ForestBuilding

/-! # Children and choices while elements close

An element gets children, and its choice gets branches, when other elements close. Closing an element
changes the children of the element around it and the choice that it joins. What it is read for before
that, and what is done to it afterwards, leaves all choices alone, and all children but its own.
-/

open Option

namespace ViewTemplate

namespace Tree

variable {β : Type} {tree later : Tree} {id j : NodeId}

/-- One aspect of a node that is an element. -/
def aspect? (g : Element → β) (tree : Tree) (j : NodeId) : Option β := (tree.element? j).map g

variable {g : Element → β}

theorem aspect?_of_element? {el : Element} (h : tree.element? j = some el) :
    tree.aspect? g j = some (g el) := by
  rw [aspect?, h]
  rfl

theorem isSome_aspect? : (tree.aspect? g j).isSome = tree.isElement j := isSome_map

theorem aspect?_update_of_ne (hne : j ≠ id) (f : Element → Element) :
    (tree.update id f).aspect? g j = tree.aspect? g j := by
  rw [aspect?, element?_update, if_neg hne]
  rfl

/-- A change of an element that leaves the aspect alone. -/
theorem aspect?_update {f : Element → Element} (h : ∀ el, g (f el) = g el) :
    (tree.update id f).aspect? g j = tree.aspect? g j := by
  by_cases hne : j = id
  · subst hne
    rw [aspect?, element?_update, if_pos rfl, Option.map_map]
    exact congrArg (fun g => (tree.element? j).map g) (funext h)
  · exact aspect?_update_of_ne hne f

/-- A change of an element that changes the aspect in a known way. -/
theorem aspect?_update_map {h : β → β} {f : Element → Element} (hf : ∀ el, g (f el) = h (g el)) :
    (tree.update id f).aspect? g j = (tree.aspect? g j).map fun x => if j = id then h x else x := by
  by_cases hne : j = id
  · subst hne
    simp only [if_true]
    rw [aspect?, element?_update, if_pos rfl, aspect?, Option.map_map, Option.map_map]
    exact congrArg (fun g => (tree.element? j).map g) (funext hf)
  · simp only [hne, if_false, Option.map_id']
    exact aspect?_update_of_ne hne f

theorem aspect?_set {el el' : Element} (hel : tree.element? id = some el) (h : g el' = g el) :
    (tree.set id (.element el')).aspect? g j = tree.aspect? g j := by
  rw [set_eq_update hel]
  by_cases hne : j = id
  · subst hne
    rw [aspect?, element?_update, if_pos rfl, hel, aspect?, hel]
    exact congrArg some h
  · exact aspect?_update_of_ne hne _

theorem aspect?_set_of_ne {el : Element} (hne : j ≠ id) :
    (tree.set id (.element el)).aspect? g j = tree.aspect? g j := by
  rw [aspect?, element?_set, if_neg hne]
  rfl

theorem aspect?_add (node : Node) :
    (tree.add node).2.aspect? g j =
      if j = tree.nodes.size then node.element?.map g else tree.aspect? g j := by
  rw [aspect?, element?_add]
  split <;> rfl

/-- A change of the tree that leaves all choices alone. New elements have none. -/
structure KeepsChoices (tree later : Tree) : Prop where
  size : tree.nodes.size ≤ later.nodes.size
  root : later.root = tree.root
  choice : ∀ j < tree.nodes.size, later.aspect? Element.choice j = tree.aspect? Element.choice j
  fresh : ∀ j c, tree.nodes.size ≤ j → later.aspect? Element.choice j = some c → c = none

/-- A change of the tree that leaves all choices alone and the children of certain elements. -/
structure KeepsTies (opened : List NodeId) (tree later : Tree) : Prop extends
    KeepsChoices tree later where
  children : ∀ j ∈ opened, later.aspect? Element.children j = tree.aspect? Element.children j

theorem KeepsChoices.isElement (h : KeepsChoices tree later) {j : NodeId}
    (hj : j < tree.nodes.size) : later.isElement j = tree.isElement j := by
  rw [← isSome_aspect? (g := Element.choice), h.choice j hj, isSome_aspect?]

theorem KeepsChoices.update {f : Element → Element} (hchoice : ∀ el, (f el).choice = el.choice) :
    KeepsChoices tree (tree.update id f) where
  size := Nat.le_of_eq (size_update tree id f).symm
  root := root_update tree id f
  choice j _ := aspect?_update hchoice
  fresh j c hj hc := by
    rw [aspect?_update hchoice] at hc
    obtain ⟨el, hel, -⟩ := map_eq_some_iff.mp hc
    exact absurd (lt_size_of_element? hel) (Nat.not_lt.mpr hj)

namespace KeepsTies

variable {opened : List NodeId} {mid : Tree}

theorem refl (opened : List NodeId) (tree : Tree) : KeepsTies opened tree tree where
  size := Nat.le_refl _
  root := rfl
  choice _ _ := rfl
  fresh j c hj hc := by
    obtain ⟨el, hel, -⟩ := map_eq_some_iff.mp hc
    exact absurd (lt_size_of_element? hel) (Nat.not_lt.mpr hj)
  children _ _ := rfl

theorem trans (h : KeepsTies opened tree mid) (h' : KeepsTies opened mid later) :
    KeepsTies opened tree later where
  size := Nat.le_trans h.size h'.size
  root := h'.root.trans h.root
  choice j hj := (h'.choice j (Nat.lt_of_lt_of_le hj h.size)).trans (h.choice j hj)
  fresh j c hj hc := by
    by_cases hmid : j < mid.nodes.size
    · rw [h'.choice j hmid] at hc
      exact h.fresh j c hj hc
    · exact h'.fresh j c (Nat.not_lt.mp hmid) hc
  children j hj := (h'.children j hj).trans (h.children j hj)

theorem update {f : Element → Element} (hchoice : ∀ el, (f el).choice = el.choice)
    (hchildren : id ∈ opened → ∀ el, (f el).children = el.children) :
    KeepsTies opened tree (tree.update id f) where
  toKeepsChoices := .update hchoice
  children j hj := by
    by_cases hne : j = id
    · exact aspect?_update (hchildren (hne ▸ hj))
    · exact aspect?_update_of_ne hne f

theorem set (hid : id ∉ opened) {el el' : Element} (hel : tree.element? id = some el)
    (h : el'.choice = el.choice) : KeepsTies opened tree (tree.set id (.element el')) where
  size := Nat.le_of_eq (size_set tree id _).symm
  root := rfl
  choice j _ := aspect?_set hel h
  fresh j c hj hc := by
    rw [aspect?_set hel h] at hc
    exact (refl opened tree).fresh j c hj hc
  children j hj := aspect?_set_of_ne fun h => hid (h ▸ hj)

theorem add {node : Node} (hopened : ∀ j ∈ opened, j < tree.nodes.size)
    (h : ∀ el, node.element? = some el → el.choice = none) :
    KeepsTies opened tree (tree.add node).2 where
  size := by
    rw [size_add]
    exact Nat.le_succ _
  root := rfl
  choice j hj := by rw [aspect?_add, if_neg (Nat.ne_of_lt hj)]
  fresh j c hj hc := by
    rw [aspect?_add] at hc
    split at hc
    · obtain ⟨el, hel, rfl⟩ := map_eq_some_iff.mp hc
      exact h el hel
    · exact (refl opened tree).fresh j c hj hc
  children j hj := by rw [aspect?_add, if_neg (Nat.ne_of_lt (hopened j hj))]

end KeepsTies

end Tree

namespace Builder

open ViewTemplate.Tree

variable {options : Options} {b : Builder} {id : NodeId} {el : Element} {opened : List NodeId}

theorem keepsTies_trimChildren (hid : id ∉ opened) (b : Builder) :
    KeepsTies opened b.tree (b.trimChildren id).tree :=
  .update (fun _ => rfl) fun h => absurd h hid

theorem keepsTies_fillUse (hid : id ∉ opened) {tree : Tree}
    (hopened : ∀ j ∈ opened, j < tree.nodes.size) (use : Option Element.SlotUse) :
    KeepsTies opened tree (fillUse id use tree) := by
  refine fillUse_of_parts (.refl opened) .trans (fun _ _ => .add hopened ?_)
    (fun _ _ _ => .update (fun _ => rfl) fun _ _ => rfl)
    (fun _ _ => .update (fun _ => rfl) fun h => absurd h hid) use
  rintro _ ⟨⟩
  rfl

section Hooks

variable (hkeeps : ∀ x ∈ options.extensions, x.KeepsLinks)
include hkeeps

/-- Reading an element that closes. -/
theorem keepsTies_finishReading (hid : id ∉ opened) (hopened : ∀ j ∈ opened, j < b.tree.nodes.size) :
    KeepsTies opened b.tree (b.finishReading options id).value.tree := by
  rw [finishReading]
  split
  · exact .refl opened b.tree
  · show KeepsTies opened b.tree (readElement options id b.tree).value
    cases hel : b.tree.element? id with
    | none =>
      rw [readElement, hel]
      exact .refl opened b.tree
    | some el =>
      obtain ⟨placed, use, loopItems, hframe, hvalue, -⟩ := value_readElement options hel
      have hset : KeepsTies opened b.tree (b.tree.set id (.element placed)) :=
        .set hid hel (congrArg Element.Frame.choice hframe :)
      rw [hvalue]
      refine (hset.trans (keepsTies_fillUse hid (fun j hj => ?_) use)).trans
        (.update (fun el => ?_) fun h => absurd h hid)
      · rw [size_set]
        exact hopened j hj
      · exact congrArg Element.Links.choice (links_readContent hkeeps loopItems el)

theorem keepsTies_finishElement (hid : id ∉ opened) (b : Builder) :
    KeepsTies opened b.tree (b.finishElement options id).value.tree := by
  rw [tree_finishElement]
  refine .update (fun el => ?_) fun h => absurd h hid
  have hlinks := leftAs_keeps Element.links (fun x hx => (hkeeps x hx).links.afterPlacement) el
  exact congrArg Element.Links.choice hlinks

end Hooks

/-! ## Placing -/

theorem choice_giveBranch (holder : Option NodeId) (branch : Branch) (tree : Tree) (j : NodeId) :
    (giveBranch holder branch tree).aspect? Element.choice j =
      (tree.aspect? Element.choice j).map fun choice =>
        if holder = some j then choice.map fun c => { c with others := c.others ++ [branch] }
        else choice := by
  rw [giveBranch]
  split
  · rename_i previous hprevious
    rw [(filter_eq_some_iff.mp hprevious).1]
    simp only [Option.some.injEq, eq_comm (a := previous)]
    exact aspect?_update_map fun _ => rfl
  · rename_i hnone
    cases hel : tree.element? j with
    | none => rw [aspect?, hel]; rfl
    | some el =>
      rw [aspect?_of_element? hel, map_some]
      split
      · rename_i hholder
        rw [hholder, filter_eq_none_iff] at hnone
        have hchoice := hnone j rfl
        rw [hel, any_some, Bool.not_eq_true, isSome_eq_false_iff,
          isNone_iff_eq_none] at hchoice
        rw [hchoice]
        rfl
      · rfl

theorem children_giveBranch (holder : Option NodeId) (branch : Branch) (tree : Tree) (j : NodeId) :
    (giveBranch holder branch tree).aspect? Element.children j =
      tree.aspect? Element.children j := by
  rw [giveBranch]
  split
  · exact aspect?_update fun _ => rfl
  · rfl

theorem choice_dropTexts (tree : Tree) (parent j : NodeId) :
    (dropTexts tree parent).aspect? Element.choice j = tree.aspect? Element.choice j :=
  aspect?_update fun _ => rfl

theorem children_dropTexts (tree : Tree) (parent j : NodeId) :
    (dropTexts tree parent).aspect? Element.children j =
      (tree.aspect? Element.children j).map fun children =>
        if j = parent then (untilElement tree parent).reverse else children :=
  aspect?_update_map (h := fun _ => (untilElement tree parent).reverse) fun _ => rfl

theorem choice_placeChild (id : NodeId) (el : Element) (parent : NodeId) (tree : Tree)
    (j : NodeId) :
    (placeChild id el parent tree).aspect? Element.choice j = tree.aspect? Element.choice j := by
  rw [placeChild]
  refine Eq.trans (aspect?_update ?_) (aspect?_update ?_)
  · exact fun _ => rfl
  · exact fun _ => rfl

theorem children_placeChild (id : NodeId) (el : Element) (parent : NodeId) (tree : Tree)
    (j : NodeId) :
    (placeChild id el parent tree).aspect? Element.children j =
      (tree.aspect? Element.children j).map fun children =>
        if j = parent then children ++ [id] else children := by
  rw [placeChild]
  refine Eq.trans (aspect?_update ?_) (aspect?_update_map ?_)
  · exact fun _ => rfl
  · exact fun _ => rfl

end Builder

end ViewTemplate
