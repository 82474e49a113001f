import ViewTemplate.Proofs.MarkedContent
import ViewTemplate.Proofs.UnmarkedTree

/-! # Which elements are rendered apart

The second pass goes down from the root through children and branches and stops at each static root.
So on a way down from the root there is at most one: the first static element that holds more than a
single text. What the pass takes along is whether it has come through a loop.
-/

namespace ViewTemplate

namespace Tree

/-- A way from the root to a node through children and branches, with the elements that it goes
through, the last one first. The element that holds a choice is on the way to the later branches. -/
inductive Way (tree : Tree) : List Element → NodeId → Prop
  | root {r : NodeId} (hr : tree.root = some r) : Way tree [] r
  | onward {i c : NodeId} {above : List Element} {el : Element} (hi : Way tree above i)
      (hel : tree.element? i = some el)
      (hc : c ∈ el.children ++ el.otherBranches.map Branch.block) : Way tree (el :: above) c

variable {ledger : Ledger} {tree : Tree} {opened : List NodeId} {options : Options} {i : NodeId}
  {above : List Element} {el : Element}

/-- The second pass goes down a way until it comes to a static root, with the note whether it has come
through a loop. -/
theorem Way.exists_passed (h : (tree.marked options).Way above i) :
    ∃ visited, tree.Passed options i visited (if above.any Element.staticRoot then none
      else some (above.any fun a => a.loop.isSome)) := by
  induction h with
  | root hr =>
    rw [root_marked] at hr
    exact ⟨true, .root hr⟩
  | @onward i c above el hi hel hc ih =>
    obtain ⟨visited, hpassed⟩ := ih
    refine ⟨visited && !Static.isReplaceable options.platform el, ?_⟩
    have hbelow : Static.inLoopBelow (if above.any Element.staticRoot then none
          else some (above.any fun a => a.loop.isSome)) el =
        if (el :: above).any Element.staticRoot then none
          else some ((el :: above).any fun a => a.loop.isSome) := by
      rw [List.any_cons, List.any_cons, Static.inLoopBelow, Bool.or_comm el.loop.isSome]
      cases el.staticRoot <;> cases above.any Element.staticRoot <;> rfl
    rw [← hbelow]
    exact hpassed.held hel hc

/-- On a way through a marked forest, the static root is the first static element that holds more than
a single text, and up to there the loops on the way are noted. -/
theorem Sound.staticRoot_of_way (h : tree.Sound ledger opened []) (hplain : tree.unmarked = tree)
    (hway : (tree.marked options).Way above i)
    (hel : (tree.marked options).element? i = some el) :
    (el.staticRoot = true ↔ el.isStatic = true ∧ el.children ≠ [] ∧
        ¬ (tree.marked options).HoldsSingleText el ∧ ∀ a ∈ above, a.staticRoot = false) ∧
      (el.isStatic = true ∨ el.once = true → (∀ a ∈ above, a.staticRoot = false) →
        (el.staticInLoop = true ↔ ∃ a ∈ above, a.loop.isSome = true)) := by
  obtain ⟨visited, hpassed⟩ := hway.exists_passed
  obtain ⟨hroot, hnote⟩ := h.roots_of_passed hplain hpassed hel
  have hfirst : (∀ a ∈ above, a.staticRoot = false) ↔ above.any Element.staticRoot = false := by
    rw [List.any_eq_false]
    exact forall₂_congr fun a _ => Bool.eq_false_iff
  rw [hfirst]
  constructor
  · rw [hroot]
    cases above.any Element.staticRoot <;> simp
  · intro hnoted hnone
    rw [hnote _ (if_neg (Bool.eq_false_iff.mp hnone)) hnoted, List.any_eq_true]

end Tree

end ViewTemplate
