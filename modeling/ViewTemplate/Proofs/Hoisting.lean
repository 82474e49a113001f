import ViewTemplate.Proofs.ForestContent
import ViewTemplate.Proofs.MarkedRendering

/-! # Hoisting keeps the meaning of a template

With its calls expanded, the code of a marked tree is the code of the tree without marks, and the
same is reported on the way. Each call stands for the code that its element has without marks.
-/

open List

namespace ViewTemplate

namespace Render

variable {stands : NodeId → Bool → Code → Prop} {quiet : Prop}

/-- The program of a generation that starts with nothing collected. -/
def Generation.program (generation : Generation Code) : Reported Program :=
  (fun e => { render := e.1, functions := e.2.functions }) <$> generation.run {}

/-- What a generation that mirrors another one gives in the end. -/
theorem Mirrors.program {x y : Generation Code} (h : Mirrors stands quiet x y) :
    x.program.notes = y.program.notes ∧ y.program.value.functions = [] ∧
      x.program.value.expanded = y.program.value ∧
      ∀ call ∈ x.program.value.calls, call.Kept stands := by
  obtain ⟨done, -, h⟩ := h [] {} [] (prefix_refl []) .nil
  have hfunctions : y.program.value.functions = [] := by
    show (y.run {}).value.2.functions = []
    rw [h.untouched]
  have hrender : (x.run {}).value.1.expand (Code.expandAll [] (x.run {}).value.2.functions) =
      (y.run {}).value.1 := by
    rw [h.collected.expandAll_eq]
    exact h.value.unfolds.expand_eq
  refine ⟨?_, hfunctions, ?_, ?_⟩
  · rw [Generation.program, Generation.program, Reported.notes_map, Reported.notes_map, h.notes]
  · calc x.program.value.expanded
        = ⟨(y.run {}).value.1, []⟩ := congrArg (Program.mk · []) hrender
      _ = y.program.value := congrArg (Program.mk _ ·) hfunctions.symm
  · intro call hcall
    rcases mem_append.mp hcall with hcall | hcall
    · exact h.value.unfolds.calls_kept h.collected (prefix_refl done) call hcall
    · exact h.collected.calls_kept call hcall

end Render

namespace Tree

open Render

/-- The code that is generated for an element by itself. -/
def codeOf (options : Options) (tree : Tree) (id : NodeId) : Code :=
  (((rendering (Scene.ofTree options tree) (tree.content id)).node false).run {}).value.1

/-- The call of a hoisted element stands for the code of that element without marks. -/
def Stands (options : Options) (tree : Tree) (owner : NodeId) (inLoop : Bool) (code : Code) :
    Prop :=
  code = tree.unmarked.codeOf options owner ∧
    ∃ el, tree.element? owner = some el ∧ el.staticRoot = true ∧ el.staticInLoop = inLoop

theorem element?_of_mem_ancestorsFrom {tree : Tree} {fuel : Nat} {id : Option NodeId}
    {e : NodeId × Element} (h : e ∈ tree.ancestorsFrom fuel id) : tree.element? e.1 = some e.2 := by
  induction fuel generalizing id with
  | zero => cases h
  | succ fuel ih =>
    cases id with
    | none => cases h
    | some id =>
      rw [ancestorsFrom] at h
      split at h
      · rename_i el hel
        rcases mem_cons.mp h with rfl | h
        · exact hel
        · exact ih h
      · cases h

theorem Plain.isVerbatim {tree : Tree} (h : tree.Plain) (id : NodeId) :
    tree.isVerbatim id = false := by
  rw [Tree.isVerbatim, List.any_eq_false]
  intro e he
  rw [h.pre e.1 e.2 (element?_of_mem_ancestorsFrom he)]
  exact Bool.false_ne_true

section

variable {ledger : Ledger} {tree : Tree} {opened : List NodeId} {options : Options}

/-- The content below a node of a marked tree is tidy. -/
theorem Sound.tidy (h : tree.Sound ledger opened []) (hplain : tree.Plain) {height : NodeId → Nat}
    (hground : tree.Grounded height) {n : Nat} {i : NodeId} (hi : i < tree.nodes.size)
    (hn : height i < n) :
    Tidy ((tree.marked options).Stands options) (Scene.ofTree options (tree.marked options))
      ((tree.marked options).contentTo n i) := by
  have hmarked : (tree.marked options).unmarked = tree :=
    (h.unmarked_marked options).trans hplain.unmarked
  induction n generalizing i with
  | zero => exact absurd hn (Nat.not_lt_zero _)
  | succ n ih =>
    have hcontent : ((tree.marked options).contentTo (n + 1) i).unmarked = tree.content i := by
      rw [← contentTo_unmarked, hmarked]
      exact hground.contentTo_eq hn (hground.bounded i hi)
    have hnode := node?_unmarked (tree.marked options) i
    rw [hmarked] at hnode
    rw [contentTo] at hcontent ⊢
    cases hm : (tree.marked options).node? i with
    | none => exact .plain i _
    | some node =>
      rw [hm] at hcontent hnode
      cases node with
      | interpolated t => exact .interpolated i t
      | plain t => exact .plain i t
      | element el =>
        have hheld {c : NodeId} (hc : tree.Holds i c) :
            Tidy ((tree.marked options).Stands options)
              (Scene.ofTree options (tree.marked options))
              ((tree.marked options).contentTo n c) := by
          obtain ⟨hlt, hheight⟩ := hground.held i c hc
          exact ih hlt (Nat.lt_of_lt_of_le hheight (Nat.le_of_lt_succ hn))
        -- the contents of slots are as they were before marking
        refine .element ?_ ?_ ?_ ?_ ?_ ?_
        · intro c hc
          obtain ⟨j, hj, rfl⟩ := List.mem_map.mp hc
          exact hheld (holds_child hnode hj)
        · intro c hc
          obtain ⟨b, hb, rfl⟩ := List.mem_map.mp hc
          exact hheld (holds_branch hnode hb)
        · intro c hc
          obtain ⟨v, hv, rfl⟩ := List.mem_map.mp hc
          exact hheld (holds_slot hnode hv)
        · intro c hc
          obtain ⟨v, hv, rfl⟩ := List.mem_map.mp hc
          rw [h.contentTo_marked options (h.not_outer_of_slot hnode hv), ← contentTo_unmarked,
            hplain.unmarked]
        · exact hplain.once i el.unmarked (element?_of_node? hnode)
        · intro hstatic
          refine ⟨?_, el, element?_of_node? hm, hstatic, rfl⟩
          have hsame := hcontent.trans (congrArg (·.content i) hmarked.symm)
          exact congrArg (fun c => (((rendering (Scene.ofTree options
            (tree.marked options).unmarked) c).node false).run {}).value.1) hsame

section

variable (h : tree.Sound ledger opened []) (hplain : tree.Plain)
  (hextensions : ∀ x ∈ options.extensions, x.Confined)
  (hrules : ∀ rule ∈ options.rules.values, Rule.IgnoresMarks rule)
include h hplain hextensions hrules

/-- Nothing in the scene of a marked tree looks at marks or lies in a verbatim region. -/
theorem Sound.regular :
    (Scene.ofTree options (tree.marked options)).Regular where
  extensions x hx := (hextensions x hx).ignoresMarks
  rules name rule hrule := by
    rcases Rules.mem_values_layered hrule with hrule | hrule
    · exact Rule.ignoresMarks_universal rule hrule
    · exact hrules rule hrule
  verbatim id := by
    show (tree.marked options).isVerbatim id = false
    rw [← isVerbatim_unmarked, h.unmarked_marked, hplain.unmarked]
    exact hplain.isVerbatim id

/-- The code of a marked tree mirrors that of the tree. -/
theorem Sound.mirrors_generation :
    Mirrors ((tree.marked options).Stands options) False
      (generation (Scene.ofTree options (tree.marked options)) (tree.marked options).rootContent?)
      (generation (Scene.ofTree options tree) tree.rootContent?) := by
  have hmarked : (tree.marked options).unmarked = tree :=
    (h.unmarked_marked options).trans hplain.unmarked
  have hsize : (tree.marked options).nodes.size = tree.nodes.size := by
    rw [← size_unmarked, hmarked]
  rw [rootContent?, rootContent?, root_marked]
  cases hroot : tree.root with
  | none => exact fun base => .pure fun _ _ => .text _
  | some r =>
    obtain ⟨height, hground⟩ := h.exists_grounded
    have hr := h.root_lt hroot
    have htidy : Tidy ((tree.marked options).Stands options)
        (Scene.ofTree options (tree.marked options)) ((tree.marked options).content r) := by
      rw [content, hsize]
      exact h.tidy hplain hground hr (hground.bounded r hr)
    have hregular := h.regular hplain hextensions hrules
    have hmirrors := fun base => hregular.parallel.rootCode rfl
      ((mirrors_rendering hregular htidy).weaken False.elim).parallel base
    have hscene : (Scene.ofTree options (tree.marked options)).unmarked =
        Scene.ofTree options tree := congrArg (Scene.ofTree options) hmarked
    rw [← content_unmarked, hscene, hmarked] at hmirrors
    exact hmirrors

end

end

end Tree

end ViewTemplate
