import ViewTemplate.Compile
import ViewTemplate.Proofs.ElementSites

/-! # Hints behind children

The list of children is followed by a hint: how far the runtime has to flatten it. Where the code of a
child may be a list of its own, all the way. A single child with a loop is a list already and is written
bare, with a hint that is told by that child alone. If a later branch of its choice is a list too, that
list stays inside of the results of the loop.
-/

open List Option

namespace ViewTemplate

namespace Render

/-- The hint behind the text of some children: a number after a comma, and without that none. -/
def hintOf (text : String) : Nat :=
  match text.toList.reverse with
  | '2' :: ',' :: _ => 2
  | '1' :: ',' :: _ => 1
  | _ => 0

/-- The hint behind a list in brackets. -/
theorem hintOf_list (text : String) {n : Nat} (hn : n ≤ 2) :
    hintOf (text ++ "]" ++ (if n ≠ 0 then "," ++ toString n else "")) = n := by
  interval_cases n
  · simp [hintOf]
  · simp [hintOf, show toString 1 = "1" from rfl]
  · simp [hintOf, show toString 2 = "2" from rfl]

/-- The hint behind a list that is written bare. -/
theorem hintOf_bare (text : String) (p : Prop) [Decidable p] :
    hintOf (text ++ (if p then ",1" else ",0")) = if p then 1 else 0 := by
  split <;> simp [hintOf]

theorem flattening_le_two (platform : Platform) (children : List Rendering) :
    flattening platform children ≤ 2 := by
  rw [flattening]
  split
  · exact le_rfl
  · split <;> decide

theorem flattening_eq_two_iff (platform : Platform) (children : List Rendering) :
    flattening platform children = 2 ↔ (children.flatMap blocks).any mayBeList = true := by
  rw [flattening]
  by_cases h : (children.flatMap blocks).any mayBeList = true
  · rw [if_pos h]
    exact iff_of_true rfl h
  · rw [if_neg h]
    refine iff_of_false ?_ h
    split <;> decide

end Render

namespace Tree

open ViewTemplate.Render

/-- A single child that is written bare: it is a list by its loop. -/
structure BareLoop (tree : Tree) (el : Element) (c : NodeId) (child : Element) : Prop where
  children : el.children = [c]
  element : tree.element? c = some child
  loop : child.loop.isSome = true
  template : child.tag ≠ "template"
  outlet : child.tag ≠ "slot"

/-- A later branch of the choice of an element may be a list. -/
def BranchesToList (tree : Tree) (child : Element) : Prop :=
  ∃ b ∈ child.otherBranches, ∃ block, tree.element? b.block = some block ∧ mayBeList block = true

/-- There may be a list inside of the list of children: the code of a child that is not written bare,
or that of a later branch of a child. -/
def NestsList (tree : Tree) (el : Element) : Prop :=
  ∃ c ∈ el.children, ∃ child, tree.element? c = some child ∧
    (mayBeList child = true ∧ ¬ tree.BareLoop el c child ∨ tree.BranchesToList child)

section

variable {ledger : Ledger} {tree : Tree} {opened : List NodeId} {options : Options} {el : Element}

/-- The blocks of a child are the child and the later branches of its choice. -/
theorem Sound.mem_blocks_renderingOf (h : tree.Sound ledger opened []) {c : NodeId} {block : Element} :
    block ∈ blocks (tree.renderingOf options c) ↔ ∃ child, tree.element? c = some child ∧
      (block = child ∨ ∃ b ∈ child.otherBranches, tree.element? b.block = some block) := by
  rw [blocks, renderingOf, content_rendering]
  cases hel : tree.element? c with
  | none =>
    have hnone : (tree.content c).element? = none := (element?_content tree c).trans hel
    cases hcontent : tree.content c with
    | plain id t => simp
    | interpolated id t => simp
    | element id el children branches slots =>
      rw [hcontent] at hnone
      cases hnone
  | some child =>
    rw [h.content_element hel]
    simp [filterMap_map, element?_content]

/-- A list in the blocks of the children. -/
theorem Sound.any_mayBeList_iff (h : tree.Sound ledger opened []) :
    ((el.children.map (tree.renderingOf options)).flatMap blocks).any mayBeList = true ↔
      ∃ c ∈ el.children, ∃ child, tree.element? c = some child ∧
        (mayBeList child = true ∨ tree.BranchesToList child) := by
  simp only [List.any_eq_true, mem_flatMap, List.mem_map, exists_exists_and_eq_and,
    h.mem_blocks_renderingOf, BranchesToList]
  constructor
  · rintro ⟨block, ⟨c, hc, child, hchild, rfl | ⟨b, hb, hblock⟩⟩, hlist⟩
    · exact ⟨c, hc, block, hchild, .inl hlist⟩
    · exact ⟨c, hc, child, hchild, .inr ⟨b, hb, block, hblock, hlist⟩⟩
  · rintro ⟨c, hc, child, hchild, hlist | ⟨b, hb, block, hblock, hlist⟩⟩
    · exact ⟨child, ⟨c, hc, child, hchild, .inl rfl⟩, hlist⟩
    · exact ⟨block, ⟨c, hc, child, hchild, .inr ⟨b, hb, hblock⟩⟩, hlist⟩

/-- What is written bare is told by the only child. -/
theorem onlyLoop?_eq_some_iff {r : Rendering} {child : Element} :
    onlyLoop? (el.children.map (tree.renderingOf options)) = some (r, child) ↔
      ∃ c, r = tree.renderingOf options c ∧ tree.BareLoop el c child := by
  match hchildren : el.children with
  | [] =>
    refine iff_of_false (by simp [onlyLoop?]) ?_
    rintro ⟨c, -, hbare⟩
    cases hchildren.symm.trans hbare.children
  | c :: d :: rest =>
    refine iff_of_false (by simp [onlyLoop?]) ?_
    rintro ⟨c, -, hbare⟩
    cases hchildren.symm.trans hbare.children
  | [c] =>
    simp only [map_cons, map_nil, onlyLoop?, element?_renderingOf, map_eq_some_iff,
      filter_eq_some_iff, Bool.and_eq_true, bne_iff_ne, Prod.mk.injEq]
    constructor
    · rintro ⟨_, ⟨hchild, ⟨hloop, htemplate⟩, houtlet⟩, rfl, rfl⟩
      exact ⟨c, rfl, hchildren, hchild, hloop, htemplate, houtlet⟩
    · rintro ⟨c', rfl, hbare⟩
      cases hchildren.symm.trans hbare.children
      exact ⟨child, ⟨hbare.element, ⟨hbare.loop, hbare.template⟩, hbare.outlet⟩, rfl, rfl⟩

theorem BareLoop.eq {c d : NodeId} {child other : Element} (h : tree.BareLoop el c child)
    (hd : d ∈ el.children) (hother : tree.element? d = some other) : d = c ∧ other = child := by
  rw [h.children, mem_singleton] at hd
  subst hd
  exact ⟨rfl, Option.some.inj (hother.symm.trans h.element)⟩

/-- Of a child that is written bare, only the later branches can be lists inside of a list. -/
theorem BareLoop.nestsList_iff {c : NodeId} {child : Element} (h : tree.BareLoop el c child) :
    tree.NestsList el ↔ tree.BranchesToList child := by
  constructor
  · rintro ⟨d, hd, other, hother, ⟨-, hbare⟩ | hbranches⟩
    · obtain ⟨rfl, rfl⟩ := h.eq hd hother
      exact absurd h hbare
    · obtain ⟨rfl, rfl⟩ := h.eq hd hother
      exact hbranches
  · intro hbranches
    exact ⟨c, h.children ▸ mem_singleton_self c, child, h.element, .inr hbranches⟩

/-- The children of an element with a loop as their only child. -/
theorem childrenCode_of_bareLoop {c : NodeId} {child : Element} (h : tree.BareLoop el c child)
    (verbatim : Bool) (progress : Progress) :
    ((childrenCode (Scene.ofTree options tree) true verbatim
        (el.children.map (tree.renderingOf options))).run progress).value.1 =
      some ((((tree.renderingOf options c).node verbatim).run progress).value.1 ++
        (if child.isComponent options.platform then ",1" else ",0" : String)) := by
  have honly : onlyLoop? (el.children.map (tree.renderingOf options)) =
      some (tree.renderingOf options c, child) := onlyLoop?_eq_some_iff.mpr ⟨c, rfl, h⟩
  rw [childrenCode, honly, if_neg (by simp [h.children])]
  rfl

/-- The children of any other element. -/
theorem childrenCode_of_list (options : Options) (hchildren : el.children ≠ [])
    (h : ∀ c child, ¬ tree.BareLoop el c child) (verbatim : Bool) (progress : Progress) :
    ∃ codes : Code, ((childrenCode (Scene.ofTree options tree) true verbatim
        (el.children.map (tree.renderingOf options))).run progress).value.1 =
      let hint := flattening options.platform (el.children.map (tree.renderingOf options))
      some ("[" ++ codes ++ "]" ++ (if hint ≠ 0 then "," ++ toString hint else "" : String)) := by
  have honly : onlyLoop? (el.children.map (tree.renderingOf options)) = none := by
    rw [eq_none_iff_forall_ne_some]
    rintro ⟨r, child⟩ hsome
    obtain ⟨c, -, hbare⟩ := onlyLoop?_eq_some_iff.mp hsome
    exact h c child hbare
  rw [childrenCode, honly, if_neg (by simpa using hchildren)]
  refine ⟨Code.join "," (((el.children.map (tree.renderingOf options)).mapM
    fun r : Rendering => r.node verbatim).run progress).value.1, ?_⟩
  simp only [Bool.true_and, decide_eq_true_eq]
  rfl

end

/-- Whatever the template, the hint behind the children of an element tells the runtime to flatten all
the way exactly if there may be a list inside of the list, unless the only child is written bare. So a
list inside is always told, but where it is a later branch of an only child with a loop. -/
theorem hintOf_children_eq_two_iff (options : Options) (template : String)
    (hlinks : ∀ x ∈ options.extensions, x.KeepsLinks) (tree : Tree)
    (htree : tree.IsOfTemplate options template) (i : NodeId) (el : Element)
    (hel : tree.element? i = some el) (hinline : el.inlineTemplate = false)
    (hchildren : el.children ≠ []) (verbatim : Bool) (progress : Progress) :
    let scene := Scene.ofTree options tree
    tree.renderingOf options i = (tree.site options i el).rendering scene (tree.content i) ∧
      ∃ code, (((tree.site options i el).innerChildren scene verbatim).run progress).value.1 =
          some code ∧
        (∀ c child, tree.BareLoop el c child →
          code = (((tree.renderingOf options c).node verbatim).run progress).value.1 ++
            (if child.isComponent options.platform then ",1" else ",0" : String)) ∧
        (hintOf code.print = 2 ↔ tree.NestsList el ∧ ∀ c child, ¬ tree.BareLoop el c child) ∧
        ((tree.NestsList el → hintOf code.print = 2) ↔
          ∀ c child, tree.BareLoop el c child → ¬ tree.BranchesToList child) := by
  intro scene
  obtain ⟨ledger, hsound⟩ := htree.exists_sound hlinks
  have hinner : (tree.site options i el).innerChildren scene verbatim =
      childrenCode scene true verbatim (el.children.map (tree.renderingOf options)) := by
    rw [Site.innerChildren, if_neg (by simpa [site] using hinline)]
    rfl
  refine ⟨hsound.renderingOf_eq hel, ?_⟩
  rw [hinner]
  by_cases hbare : ∃ c child, tree.BareLoop el c child
  · obtain ⟨c, child, hbare⟩ := hbare
    have hhint : ∀ text : String,
        hintOf (text ++ (if child.isComponent options.platform then ",1" else ",0")) ≠ 2 := by
      intro text
      rw [hintOf_bare]
      split <;> decide
    refine ⟨_, childrenCode_of_bareLoop hbare verbatim progress, ?_, ?_, ?_⟩
    · intro d other hother
      obtain ⟨rfl, rfl⟩ := hbare.eq (hother.children ▸ mem_singleton_self d) hother.element
      rfl
    · exact iff_of_false (hhint _) fun h => h.2 c child hbare
    · rw [hbare.nestsList_iff]
      constructor
      · intro h d other hother hbranches
        obtain ⟨rfl, rfl⟩ := hbare.eq (hother.children ▸ mem_singleton_self d) hother.element
        exact hhint _ (h hbranches)
      · intro h hbranches
        exact absurd hbranches (h c child hbare)
  · have hlist : ∀ c child, ¬ tree.BareLoop el c child := fun c child h => hbare ⟨c, child, h⟩
    obtain ⟨codes, hcode⟩ := childrenCode_of_list options hchildren hlist verbatim progress
    have htwo : hintOf (("[" : String) ++ codes.print ++ "]" ++
        (if flattening options.platform (el.children.map (tree.renderingOf options)) ≠ 0 then
          "," ++ toString (flattening options.platform (el.children.map (tree.renderingOf options)))
        else "")) = 2 ↔ tree.NestsList el := by
      rw [hintOf_list _ (flattening_le_two _ _), flattening_eq_two_iff, hsound.any_mayBeList_iff]
      simp only [NestsList, hlist, not_false_eq_true, and_true]
    refine ⟨_, hcode, fun c child h => absurd h (hlist c child), ?_, ?_⟩
    · exact htwo.trans (and_iff_left hlist).symm
    · exact iff_of_true htwo.mpr fun c child h => absurd h (hlist c child)

/-- Two children, one with a loop: the list of the loop is inside of the list of children. -/
theorem hintOf_children_with_loop :
    (∀ x ∈ Options.web.extensions, x.KeepsLinks) ∧
      ∃ (tree : Tree) (el : Element) (code : Code),
        tree.IsOfTemplate .web "<div><p v-for='i in l'></p><b></b></div>" ∧
        tree.element? 0 = some el ∧ el.inlineTemplate = false ∧ el.children ≠ [] ∧
        tree.NestsList el ∧
        (((tree.site .web 0 el).innerChildren (Scene.ofTree .web tree) false).run {}).value.1 =
          some code ∧
        hintOf code.print = 2 := by
  refine ⟨Extension.keepsLinks_web, ?_⟩
  generalize htree : (ofTemplate .web "<div><p v-for='i in l'></p><b></b></div>").value = tree
  have hfacts : (tree.element? 0).map (fun el => (el.children, el.inlineTemplate)) =
        some ([1, 2], false) ∧
      (tree.element? 1).map mayBeList = some true := by
    rw [← htree]
    decide +kernel
  simp only [map_eq_some_iff, Prod.mk.injEq] at hfacts
  obtain ⟨⟨el, hel, hchildren, hinline⟩, loop, hloop, hlist⟩ := hfacts
  have hbare : ∀ c child, ¬ tree.BareLoop el c child := by
    intro c child h
    cases hchildren.symm.trans h.children
  have hnests : tree.NestsList el :=
    ⟨1, hchildren ▸ .head _, loop, hloop, .inl ⟨hlist, hbare 1 loop⟩⟩
  have hof : tree.IsOfTemplate .web "<div><p v-for='i in l'></p><b></b></div>" := .inl htree.symm
  have hne : el.children ≠ [] := by rw [hchildren]; exact cons_ne_nil 1 [2]
  obtain ⟨-, code, hcode, -, htwo, -⟩ := hintOf_children_eq_two_iff .web _ Extension.keepsLinks_web tree
    hof 0 el hel hinline hne false {}
  exact ⟨tree, el, code, hof, hel, hinline, hne, hnests, hcode, htwo.mpr ⟨hnests, hbare⟩⟩

/-- A later branch of an only child with a loop is a list inside of a list, and no hint tells. -/
theorem list_in_later_branch_of_loop_not_hinted :
    let template := "<div><p v-for='i in l' v-if='a'></p><template v-else><b></b></template></div>"
    let tree := (ofTemplate .web template).value
    (tree.element? 0).map Element.children = some [1] ∧
      (tree.element? 1).map (fun el => (el.otherBranches.map Branch.block, el.loop.isSome, el.tag)) =
        some ([2], true, "p") ∧
      (tree.element? 2).map Element.tag = some "template" ∧
      (compile .web template).render =
        "with(this)\x7breturn _c('div',_l((l),function(i)\x7breturn " ++
          "(a)?_c('p'):[_c('b')]\x7d),0)\x7d" := by
  decide +kernel

end Tree

end ViewTemplate
