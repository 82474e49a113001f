import ViewTemplate.Proofs.CodeExpansion
import ViewTemplate.Proofs.GenerationFacts
import ViewTemplate.Proofs.StaticMarks

/-! # Whose calls a program has

Only two kinds of elements are moved into functions of their own: static roots, and elements that are
rendered once and are not noted to lie in a loop. So every call in the code of a tree is the call of
such an element, whatever the tree.
-/

open List

namespace ViewTemplate

namespace Code

/-- Every call in the code is that of an element of the given kind. -/
structure Owned (P : NodeId → Prop) (c : Code) : Prop where
  owner : ∀ functions, ∀ call ∈ c.calls functions, P call.owner

namespace Owned

variable {P : NodeId → Prop} {c d : Code}

theorem text (s : String) : Owned P (.text s) := by
  constructor
  intro functions call hcall
  cases hcall

theorem append (hc : c.Owned P) (hd : d.Owned P) : (c ++ d).Owned P := by
  constructor
  intro functions call hcall
  rcases mem_append.mp hcall with hcall | hcall
  · exact hc.owner functions call hcall
  · exact hd.owner functions call hcall

theorem hoisted {owner : NodeId} (h : P owner) (index : Nat) (inLoop : Bool) :
    Owned P (.hoisted owner index inLoop) := by
  constructor
  intro functions call hcall
  rw [calls, mem_singleton] at hcall
  rw [hcall]
  exact h

theorem inlined {functions : List Code} (hc : c.Owned P) (hf : ∀ f ∈ functions, f.Owned P) :
    Owned P (.inlined c functions) := by
  constructor
  intro outer call hcall
  rw [calls, mem_append, mem_callsOf] at hcall
  rcases hcall with hcall | ⟨f, hmem, hcall⟩
  · exact hc.owner functions call hcall
  · exact (hf f hmem).owner functions call hcall

end Owned

end Code

namespace Render

open Code (Owned)

/-- Calls of elements that are moved into functions of their own follow the way in which generation is
put together. -/
theorem compositional_calls (scene : Scene) (P : NodeId → Prop) :
    Compositional scene (fun id el => movesApart el = true → P id) (fun _ => True) (Owned P)
      (@Collects (Owned P)) where
  text := .text
  append := .append
  inlined := .inlined
  pure := .pure
  bind := .bind
  apart := .apart
  known _ := trivial
  rules _ := .lift trivial
  tip _ _ := .lift trivial
  error _ _ := .lift trivial
  onceInLoop {el} _ x hx := by
    rw [onceInLoop]
    split
    · apply Collects.bind hx
      intro c hc
      apply Collects.bind (R := fun _ => True)
      · intro p hp
        exact ⟨trivial, hp⟩
      intro number _
      apply Collects.pure
      apply_rules [Owned.append, Owned.text]
    · exact Collects.bind (R := fun _ => True) (.lift trivial) fun _ _ => hx
  hoisted hself hmoves _ _ hbody := .hoist (fun index => .hoisted (hself hmoves) index _) hbody

end Render

namespace Tree

open Render

/-- The elements of a content are those of the tree. -/
theorem element?_of_mem_contentTo {tree : Tree} {n : Nat} {i id : NodeId} {el : Element}
    (h : (id, .element el) ∈ (tree.contentTo n i).nodes) : tree.element? id = some el := by
  induction n generalizing i with
  | zero => cases mem_singleton.mp h
  | succ n ih =>
    rcases mem_nodes_contentTo h with ⟨rfl, hnode | ⟨-, hnone⟩⟩ | ⟨-, c, -, h, -⟩
    · exact element?_of_node? hnode
    · cases hnone
    · exact ih h

/-- Every call in the code of a tree is that of an element which is moved into a function of its
own. -/
theorem movesApart_of_call {options : Options} {tree : Tree} {call : Code.Call}
    (h : call ∈ (tree.program options).value.calls) :
    ∃ el, tree.element? call.owner = some el ∧ movesApart el = true := by
  let P (i : NodeId) : Prop := ∃ el, tree.element? i = some el ∧ movesApart el = true
  have hgeneration : Collects (Code.Owned P) (Code.Owned P)
      (generation (Scene.ofTree options tree) tree.rootContent?) :=
    (compositional_calls _ P).generation fun _ _ el he hmoves =>
      ⟨el, element?_of_mem_contentTo he, hmoves⟩
  obtain ⟨hrender, hfunctions⟩ := hgeneration {} fun f hf => by cases hf
  rcases mem_append.mp h with h | h
  · exact hrender.owner _ call h
  · obtain ⟨f, hf, h⟩ := Code.mem_callsOf.mp h
    exact (hfunctions f hf).owner _ call h

end Tree

end ViewTemplate
