import ViewTemplate.Proofs.ForestContent
import ViewTemplate.Proofs.GenerationFacts
import ViewTemplate.Proofs.TreeRanges

/-! # Ranges that generation reports

Generation reports at the places of the elements that it writes, and rules for directives at those of
their directives. Marks do not touch places.
-/

namespace ViewTemplate

namespace Render

open ViewTemplate.Reported

/-- The places of all reports of a generation have a property, and what it gives has one. -/
def Reports (P : Range → Prop) {α : Type} (R : α → Prop) (x : Generation α) : Prop :=
  ∀ p, Ensures P (fun e => R e.1) (x.run p)

namespace Reports

variable {α β : Type} {P : Range → Prop} {R : α → Prop} {S : β → Prop} {x : Generation α}

theorem pure {a : α} (h : R a) : Reports P R (pure a : Generation α) := fun _ => .pure h

theorem bind {f : α → Generation β} (hx : Reports P R x) (hf : ∀ a, R a → Reports P S (f a)) :
    Reports P S (x >>= f) := by
  intro p
  rw [StateT.run_bind]
  exact (hx p).bind fun e he => hf e.1 he e.2

theorem lift {u : Reported α} (h : Ensures P R u) : Reports P R (StateT.lift u) := by
  intro p
  rw [StateT.run_lift]
  exact h.bind fun _ ha => .pure ha

end Reports

variable {P : Range → Prop} {scene : Scene}
  (hrules : ∀ name rule, scene.rules.get? name = some rule → Rule.BringsNoRanges rule)
include hrules

theorem within_applyRules {directives : List Directive}
    (hd : ∀ d ∈ directives, ∀ r ∈ d.range, P r) {el : Element} (h : el.Within P) :
    Ensures P (fun result => result.1.Within P) (applyRules scene directives el) := by
  induction directives generalizing el with
  | nil => exact .pure h
  | cons d directives ih =>
    rw [List.forall_mem_cons] at hd
    have hrule : Ensures P (fun result => result.1.Within P) (applyRule scene el d) := by
      rw [applyRule]
      split
      · rename_i rule hrule
        exact hrules d.name rule hrule P _ el d h hd.1
      · exact .pure h
    exact hrule.bind fun _ hel => (ih hd.2 hel).bind fun _ hel => .pure hel

/-- Reports at places of the elements that are written follow the way in which generation is put
together. -/
theorem compositional_reports :
    Compositional scene (fun _ el => el.Within P) (Element.Within P) (fun _ => True) (@Reports P) where
  text _ := trivial
  append _ _ := trivial
  inlined _ _ := trivial
  pure := .pure
  bind := .bind
  apart hx := .bind (.lift (hx {})) fun _ _ => .pure ⟨trivial, fun _ _ => trivial⟩
  known h := h
  rules h := .lift (within_applyRules hrules h.directives h)
  tip h _ := .lift (.tip (h.rangeOf "v-for"))
  error h _ := .lift (.error h.own)
  onceInLoop {el} h x hx := by
    have hnext : Reports P (fun _ => True) Generation.nextOnce := fun _ => .pure trivial
    rw [onceInLoop]
    split
    · exact .bind hx fun _ _ => .bind hnext fun _ _ => .pure trivial
    · exact .bind (.lift (.error (h.rangeOf "v-once"))) fun _ _ => hx
  hoisted _ _ _ _ hbody _ := by
    have hcollect (code : Code) : Reports P (fun _ => True) (Generation.collect code) :=
      fun _ => .pure trivial
    exact .bind (hbody _) fun code _ => .bind (hcollect code) fun _ _ => .pure trivial

end Render

/-! ## Trees -/

/-- Places are none of the marks. -/
theorem Node.within_unmarked {P : Range → Prop} {node : Node} :
    node.unmarked.Within P ↔ node.Within P := by
  cases node with
  | element el => exact ⟨fun h => { (show el.unmarked.Within P from h) with }, fun h => { h with }⟩
  | interpolated t => exact Iff.rfl
  | plain t => exact Iff.rfl

namespace Tree

variable {P : Range → Prop} {tree : Tree}

namespace Within

theorem foldl_set (h : tree.Within P) {entries : List (NodeId × Node)}
    (hentries : ∀ e ∈ entries, e.2.Within P) :
    (entries.foldl (fun tree e => tree.set e.1 e.2) tree).Within P := by
  induction entries generalizing tree with
  | nil => exact h
  | cons e entries ih =>
    rw [List.forall_mem_cons] at hentries
    exact ih (h.set e.1 e.2 hentries.1) hentries.2

theorem nodes_content (h : tree.Within P) (id : NodeId) :
    ∀ e ∈ (tree.content id).nodes, e.2.Within P :=
  forall_nodes_contentTo nofun h _ id

theorem marked (h : tree.Within P) (options : Options) : (tree.marked options).Within P := by
  cases hr : tree.root with
  | none =>
    rw [Tree.marked, rootContent?, hr]
    exact h
  | some r =>
    obtain ⟨c, hremarked, hmarked⟩ := marked_eq options hr
    rw [hmarked]
    refine h.foldl_set fun e he => ?_
    -- A node of the marked content is, but for its marks, one of the content.
    have hmem : (e.1, e.2.unmarked) ∈ (tree.content r).unmarked.nodes := by
      rw [← hremarked.unmarked, Content.nodes_unmarked]
      exact List.mem_map_of_mem he
    rw [Content.nodes_unmarked] at hmem
    obtain ⟨f, hf, heq⟩ := List.mem_map.mp hmem
    rw [← Node.within_unmarked, ← (Prod.mk.inj heq).2, Node.within_unmarked]
    exact h.nodes_content r f hf

/-- Generation from a tree reports at the places of the tree. -/
theorem program {options : Options} (hrules : ∀ rule ∈ options.rules.values, rule.BringsNoRanges)
    (h : tree.Within P) : Reported.Ensures P (fun _ => True) (tree.program options) := by
  have hlayered (name : String) (rule : Rule)
      (hrule : (Render.Scene.ofTree options tree).rules.get? name = some rule) :
      rule.BringsNoRanges := by
    rcases Rules.mem_values_layered hrule with hmem | hmem
    · exact Rule.bringsNoRanges_universal rule hmem
    · exact hrules rule hmem
  have hgeneration : Render.Reports P (fun _ => True)
      (Render.generation (.ofTree options tree) tree.rootContent?) :=
    (Render.compositional_reports hlayered).generation fun root _ _ he => h.nodes_content root _ he
  exact (hgeneration {}).bind fun _ _ => .pure trivial

end Within

end Tree

end ViewTemplate
