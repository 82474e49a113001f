import Mathlib.Logic.Function.Iterate
import ViewTemplate.Proofs.MarkedContent

/-! # Marking again

The passes read marks that they have written, and leave some marks as they find them: below a static
root, inside of what a component may replace, and on elements that are neither static nor rendered
once. Still a second run over a marked tree finds every mark as it would set it, so that marking any
number of times is marking once.
-/

open List

namespace ViewTemplate

namespace Static

section

variable {options : Options} {tree later : Tree}

/-- Whether something on an element changes does not depend on marks. -/
theorem isStaticAlone_of_unmarked (htree : later.unmarked = tree.unmarked) {el el' : Element}
    (hel : el'.unmarked = el.unmarked) :
    isStaticAlone options later el' = isStaticAlone options tree el := by
  have hloop (t : Tree) (e : Element) :
      isInTemplateLoop t e = isInTemplateLoop t.unmarked e.unmarked := by
    rw [isInTemplateLoop, isInTemplateLoop, Tree.around_unmarked, takeWhile_map, List.any_map]
    rfl
  have halone (t : Tree) (e : Element) :
      isStaticAlone options t e = isStaticAlone options t.unmarked e.unmarked := by
    rw [isStaticAlone, isStaticAlone, hloop]
    rfl
  rw [halone later, halone tree, htree, hel]

theorem isReplaceable_of_unmarked {platform : Platform} {el el' : Element}
    (hel : el'.unmarked = el.unmarked) :
    isReplaceable platform el' = isReplaceable platform el := by
  have hsame := congrArg (isReplaceable platform) hel
  exact hsame

end

theorem unmarked_visit (options : Options) (tree : Tree) (visited : Bool) (el : Element)
    (children branches : List Content) :
    (visit options tree visited el children branches).unmarked = el.unmarked := by
  rw [visit]
  split <;> rfl

theorem unmarked_noteLoop (inLoop : Bool) (el : Element) :
    (noteLoop inLoop el).unmarked = el.unmarked := by
  rw [noteLoop]
  split <;> rfl

theorem unmarked_settle (inLoop : Option Bool) (el : Element) (children : List Content) :
    (settle inLoop el children).unmarked = el.unmarked := by
  cases inLoop with
  | none => rfl
  | some inLoop => exact unmarked_noteLoop inLoop el

theorem isStatic_noteLoop (inLoop : Bool) (el : Element) :
    (noteLoop inLoop el).isStatic = el.isStatic := by
  rw [noteLoop]
  split <;> rfl

theorem isStatic_settle (inLoop : Option Bool) (el : Element) (children : List Content) :
    (settle inLoop el children).isStatic = el.isStatic := by
  cases inLoop with
  | none => rfl
  | some inLoop => exact isStatic_noteLoop inLoop el

/-- An element for which the loop has been noted and that has been found a static root or not. -/
theorem settle_settle (inLoop : Option Bool) (el : Element) {children later : List Content}
    (hworth : ∀ e, isWorthwhile e later = isWorthwhile e children) :
    settle inLoop (settle inLoop el children) later = settle inLoop el children := by
  cases inLoop with
  | none => rfl
  | some inLoop =>
    simp only [settle, hworth]
    by_cases hnoted : (el.isStatic || el.once) = true
    · simp [noteLoop, hnoted, isWorthwhile]
    · simp [noteLoop, hnoted, isWorthwhile]

theorem isWorthwhile_map_pass (options : Options) (tree : Tree) (visited : Bool)
    (inLoop : Option Bool) (el : Element) (children : List Content) :
    isWorthwhile el (children.map (pass options tree visited inLoop)) =
      isWorthwhile el children := by
  have hsingle : isSingleText (children.map (pass options tree visited inLoop)) =
      isSingleText children := by
    match children with
    | [] => rfl
    | [.plain id t] => cases visited <;> cases inLoop <;> rfl
    | [.interpolated id t] => cases visited <;> cases inLoop <;> rfl
    | [.element id el children branches slots] =>
      rw [map_cons, pass_element]
      rfl
    | c :: d :: children =>
      have hseveral (c d : Content) (cs : List Content) : isSingleText (c :: d :: cs) = false := by
        cases c <;> rfl
      rw [map_cons, map_cons, hseveral, hseveral]
  rw [isWorthwhile, isWorthwhile, hsingle, isEmpty_map]

/-- What the passes find marked as they would mark it keeps its static marks in the first one. -/
theorem all_isStatic_map_pass {options : Options} {tree later : Tree} {inLoop : Option Bool}
    {cs : List Content}
    (hcs : ∀ c ∈ cs, pass options later true inLoop (pass options tree true inLoop c) =
      pass options tree true inLoop c) :
    ((cs.map (pass options tree true inLoop)).all fun c => (markNodes options later c).isStatic) =
      cs.all fun c => (markNodes options tree c).isStatic := by
  rw [List.all_map, Bool.eq_iff_iff, List.all_eq_true, List.all_eq_true]
  refine forall₂_congr fun c hc => ?_
  have hstatic := congrArg Content.isStatic (hcs c hc)
  rw [isStatic_pass, isStatic_pass, if_pos rfl, if_pos rfl] at hstatic
  rw [← hstatic]
  rfl

/-- The static mark of an element comes out again. -/
theorem staticMark_map_pass {options : Options} {tree later : Tree}
    (htree : later.unmarked = tree.unmarked) {el el' : Element}
    (hel : el'.unmarked = el.unmarked) {inLoop : Option Bool} {children branches : List Content}
    (hchildren : ∀ c ∈ children, ∀ visited,
      pass options later visited inLoop (pass options tree visited inLoop c) =
        pass options tree visited inLoop c)
    (hbranches : ∀ c ∈ branches, ∀ visited,
      pass options later visited inLoop (pass options tree visited inLoop c) =
        pass options tree visited inLoop c) :
    let below := pass options tree (!isReplaceable options.platform el) inLoop
    staticMark options later el' (children.map below) (branches.map below) =
      staticMark options tree el children branches := by
  intro below
  rw [staticMark, staticMark, isStaticAlone_of_unmarked htree hel, isReplaceable_of_unmarked hel]
  cases hr : isReplaceable options.platform el with
  | true => rfl
  | false =>
    have hbelow : below = pass options tree true inLoop := by simp only [below, hr, Bool.not_false]
    rw [hbelow, all_isStatic_map_pass fun c hc => hchildren c hc true,
      all_isStatic_map_pass fun c hc => hbranches c hc true]

/-- The passes find what they have marked as they would mark it. -/
theorem pass_pass (options : Options) {tree later : Tree} (htree : later.unmarked = tree.unmarked)
    (visited : Bool) (inLoop : Option Bool) (c : Content) :
    pass options later visited inLoop (pass options tree visited inLoop c) =
      pass options tree visited inLoop c := by
  induction c using Content.induction generalizing visited inLoop with
  | plain id t => cases visited <;> cases inLoop <;> rfl
  | interpolated id t => cases visited <;> cases inLoop <;> rfl
  | element id el children branches slots hchildren hbranches _ =>
    rw [pass_element]
    generalize hel' : settle inLoop (visit options tree visited el children branches) children =
      el'
    have hunmarked : el'.unmarked = el.unmarked := by
      rw [← hel', unmarked_settle, unmarked_visit]
    -- The element is visited with the mark that it has.
    have hvisit : visit options later visited el'
        (children.map (pass options tree (visited && !isReplaceable options.platform el)
          (inLoopBelow inLoop el')))
        (branches.map (pass options tree (visited && !isReplaceable options.platform el)
          (inLoopBelow inLoop el'))) = el' := by
      cases visited with
      | false => rfl
      | true =>
        have hmark : el'.isStatic = staticMark options tree el children branches := by
          rw [← hel', isStatic_settle, visit, if_pos rfl]
        rw [visit, if_pos rfl, Bool.true_and,
          staticMark_map_pass htree hunmarked (fun c hc v => hchildren c hc v _)
            (fun c hc v => hbranches c hc v _), ← hmark]
    have hsettle (p : Bool) (l : Option Bool) :
        settle inLoop el' (children.map (pass options tree p l)) = el' := by
      rw [← hel']
      exact settle_settle inLoop _ fun e => isWorthwhile_map_pass options tree p l e children
    rw [pass_element, hvisit, hsettle, isReplaceable_of_unmarked hunmarked, List.map_map,
      List.map_map]
    congr 1
    · exact map_congr_left fun c hc => hchildren c hc _ _
    · exact map_congr_left fun c hc => hbranches c hc _ _

end Static

namespace Tree

/-- Storing what is there changes nothing. -/
theorem store_eq_self {tree : Tree} {c : Content}
    (h : ∀ e ∈ c.nodes, tree.node? e.1 = some e.2) : tree.store c = tree := by
  rw [store]
  generalize c.nodes = entries at h
  induction entries with
  | nil => rfl
  | cons e entries ih =>
    have hset : tree.set e.1 e.2 = tree := by
      apply set_eq_self
      intro n hn
      rw [h e mem_cons_self] at hn
      exact (Option.some.inj hn).symm
    rw [foldl_cons, hset]
    exact ih fun f hf => h f (mem_cons_of_mem e hf)

/-- Marking a marked forest changes nothing. -/
theorem Sound.marked_marked {ledger : Ledger} {tree : Tree} {opened : List NodeId}
    (h : tree.Sound ledger opened []) (options : Options) :
    (tree.marked options).marked options = tree.marked options := by
  cases hr : tree.root with
  | none =>
    have hself : tree.marked options = tree := by
      rw [Tree.marked, rootContent?, hr]
      rfl
    rw [hself, hself]
  | some r =>
    have hsize : (tree.marked options).nodes.size = tree.nodes.size := by
      rw [← size_unmarked, h.unmarked_marked, size_unmarked]
    have hcontent : (tree.marked options).content r =
        Static.pass options tree true (some false) (tree.content r) := by
      rw [content, hsize]
      exact h.content_marked options hr
    have hagain : (tree.marked options).marked options = (tree.marked options).store
        (Static.pass options (tree.marked options) true (some false)
          ((tree.marked options).content r)) := by
      rw [Tree.marked, rootContent?, root_marked, hr]
      rfl
    rw [hagain, hcontent, Static.pass_pass options (h.unmarked_marked options)]
    exact store_eq_self (h.node?_of_mem_marked options hr)

end Tree

end ViewTemplate
