import ViewTemplate.Compile
import ViewTemplate.Proofs.ChoiceAssembly

/-! # The last resort of a choice

A branch without guard should be the last of its choice. A branch is added behind it all the same where
the next element is a branch, too, and only there.
-/

open List

namespace ViewTemplate

/-- Guards of which only the last may be missing. -/
def ElseLast (guards : List (Option String)) : Prop :=
  ∀ before after, guards = before ++ none :: after → after = []

namespace ElseLast

theorem nil : ElseLast [] := by
  intro before after h
  exact absurd h.symm (append_ne_nil_of_right_ne_nil _ (cons_ne_nil _ _))

theorem cons_some {guard : String} {guards : List (Option String)} :
    ElseLast (some guard :: guards) ↔ ElseLast guards := by
  constructor
  · intro h before after hguards
    exact h (some guard :: before) after (congrArg (some guard :: ·) hguards)
  · intro h before after hguards
    cases before with
    | nil => cases hguards
    | cons first before => exact h before after (List.cons.inj hguards).2

theorem cons_none {guards : List (Option String)} : ElseLast (none :: guards) ↔ guards = [] := by
  constructor
  · intro h
    exact h [] guards rfl
  · rintro rfl before after hguards
    cases before with
    | nil => exact (List.cons.inj hguards).2.symm
    | cons first before => exact absurd (List.cons.inj hguards).2.symm (by simp)

/-- The guards are looked through from the first. -/
def decidable : (guards : List (Option String)) → Decidable (ElseLast guards)
  | [] => .isTrue nil
  | some _ :: guards => @decidable_of_iff _ _ cons_some.symm (decidable guards)
  | none :: guards => decidable_of_iff (guards = []) cons_none.symm

instance : DecidablePred ElseLast := decidable

end ElseLast

namespace Tree

/-- Every choice ends with its last resort, if it has one, exactly if none of the branches that join a
choice without a guard is followed by another that joins it. -/
theorem elseLast_iff (options : Options) (template : String)
    (hkeeps : ∀ x ∈ options.extensions, x.KeepsLinks) :
    (∀ i el, (ofTemplate options template).value.element? i = some el →
        ElseLast ((el.branches i).map Branch.guard)) ↔
      ∀ earlier c later, closings options template = earlier ++ c :: later →
        c.el.choice.isSome = true →
        ElseLast ((Closing.joining earlier c later).map fun d => d.el.elseIf) := by
  have h := assembled_ofTemplate hkeeps template
  -- The guards of a choice are its own and those of the branches that join it.
  have hguards {earlier : List Closing} {c : Closing} {later : List Closing}
      (hsplit : closings options template = earlier ++ c :: later) {el : Element}
      (hel : (ofTemplate options template).value.element? c.id = some el) :
      ElseLast ((el.branches c.id).map Branch.guard) ↔
        (c.el.choice.isSome = true →
          ElseLast ((Closing.joining earlier c later).map fun d => d.el.elseIf)) := by
    have hchoice := (h.joined earlier c later hsplit).2
    rw [aspect?_of_element? hel] at hchoice
    have hchoice := Option.some.inj hchoice
    rw [Element.branches, hchoice]
    cases c.el.choice with
    | none => exact ⟨fun _ hnone => absurd hnone Bool.false_ne_true, fun _ => ElseLast.nil⟩
    | some choice =>
      simp only [Option.map_some, map_cons, List.map_map, Option.isSome_some, true_imp_iff]
      exact ElseLast.cons_some
  constructor
  · intro hall earlier c later hsplit
    obtain ⟨el, hel, -⟩ := Option.map_eq_some_iff.mp (h.joined earlier c later hsplit).2
    exact (hguards hsplit hel).mp (hall c.id el hel)
  · intro hall i el hel
    by_cases hclosed : i ∈ (closings options template).map Closing.id
    · obtain ⟨c, hc, rfl⟩ := List.mem_map.mp hclosed
      obtain ⟨earlier, later, hsplit⟩ := append_of_mem hc
      exact (hguards hsplit hel).mpr (hall earlier c later hsplit)
    · have hnone := h.others i el.choice (aspect?_of_element? hel) not_mem_nil hclosed
      rw [Element.branches, hnone]
      exact ElseLast.nil

/-- An element that is left out and a space between the branches. -/
theorem elseLast_of_branches_in_order :
    (∀ x ∈ Options.web.extensions, x.KeepsLinks) ∧
      ∀ earlier c later,
        closings .web
            "<p><a v-if='x'></a><style></style><b v-else-if='y'></b> <i v-else></i></p>" =
          earlier ++ c :: later → c.el.choice.isSome = true →
        ElseLast ((Closing.joining earlier c later).map fun d => d.el.elseIf) := by
  refine ⟨Extension.keepsLinks_web, (elseLast_iff .web _ Extension.keepsLinks_web).mp ?_⟩
  have hall : ∀ node ∈ (ofTemplate .web
      "<p><a v-if='x'></a><style></style><b v-else-if='y'></b> <i v-else></i></p>").value.nodes.toList,
      ∀ el ∈ node.element?, ElseLast ((el.branches 0).map Branch.guard) := by
    decide +kernel
  intro i el hel
  have hnode := Array.mem_of_getElem? (node?_of_element? hel)
  have hlast := hall _ (Array.mem_toList_iff.mpr hnode) el rfl
  rw [Element.branches] at hlast ⊢
  cases hchoice : el.choice with
  | none => exact ElseLast.nil
  | some choice =>
    rw [hchoice] at hlast
    exact hlast

/-- A branch behind the last resort joins the choice in silence, and is never written. -/
theorem branch_joins_behind_else :
    ((ofTemplate .web "<p><a v-if='x'></a><b v-else></b><i v-else-if='y'></i></p>").value.element?
        1).map (fun el => (el.branches 1).map Branch.guard) = some [some "x", none, some "y"] ∧
      ¬ ElseLast [some "x", none, some "y"] ∧
      (compile .web "<p><a v-if='x'></a><b v-else></b><i v-else-if='y'></i></p>").diagnostics = [] ∧
      (compile .web "<p><a v-if='x'></a><b v-else></b><i v-else-if='y'></i></p>").render =
        "with(this)\x7breturn _c('p',[(x)?_c('a'):_c('b')])\x7d" := by
  refine ⟨?_, ?_, ?_, ?_⟩
  · decide +kernel
  · decide
  · decide +kernel
  · decide +kernel

end Tree

end ViewTemplate
