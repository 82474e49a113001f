import ViewTemplate.Proofs.EnclosingLoops
import ViewTemplate.Render

/-! # Where code is generated from

Code is generated from the tree of a template, as it was built or with its static content marked. Each
element is written at a site: the element with the renderings of what it holds. Its data object is
written from its directives, its own entries, its slots and the template inside it, in this order.
-/

namespace ViewTemplate

namespace Render

variable {scene : Scene}

theorem content_rendering (scene : Scene) (c : Content) : (rendering scene c).content = c := by
  cases c <;> rfl

/-- The entry for slots, if there are any. -/
def slotsPart? (scene : Scene) (el : Element) (slots : List Rendering) (verbatim : Bool) :
    Generation (Option Code) :=
  if slots.isEmpty then pure none else some <$> slotsEntry scene el slots verbatim

/-- The entry for a template inside the template, if the element holds one. -/
def innerPart? (el : Element) (children : List Rendering) : Generation (Option Code) :=
  if el.inlineTemplate then inlineEntry? el children else pure none

/-- The data object from its entries. -/
def dataObject (scene : Scene) (id : NodeId) (el : Element) (directives : List String)
    (slots inlined : Option Code) : Code :=
  withComputed el ("\x7b" ++ Code.join ","
    ((ownEntries scene (scene.tree.isVerbatim id) el directives).map Code.text ++ slots.toList ++
      (el.model.map fun m => Code.text (modelEntry m)).toList ++ inlined.toList) ++ "\x7d")

/-- Data are written from the directives, then the slots, then the template inside. -/
theorem dataCode_eq (id : NodeId) (el : Element) (children slots : List Rendering)
    (verbatim : Bool) :
    dataCode scene id el children slots verbatim = do
      let e ← StateT.lift (applyRules scene el.directives el)
      let entry ← slotsPart? scene e.1 slots verbatim
      let inlined ← innerPart? e.1 children
      return dataObject scene id e.1 e.2 entry inlined := by
  rw [dataCode]
  refine bind_congr fun e => ?_
  simp only [slotsPart?, innerPart?]
  split <;> refine bind_congr fun entry => ?_ <;> split <;> rfl

end Render

open Render

/-- A tree that code is generated from: that of a template, with static content marked or not. -/
def Tree.IsOfTemplate (options : Options) (template : String) (tree : Tree) : Prop :=
  tree = (ofTemplate options template).value ∨
    ∃ marking, tree = (ofTemplate options template).value.marked marking

/-- The rendering of a node of a tree. -/
def Tree.renderingOf (options : Options) (tree : Tree) (i : NodeId) : Rendering :=
  rendering (Scene.ofTree options tree) (tree.content i)

/-- The site at which an element of a tree is written. -/
def Tree.site (options : Options) (tree : Tree) (i : NodeId) (el : Element) : Site where
  id := i
  el
  children := el.children.map (tree.renderingOf options)
  branches := el.otherBranches.map fun b => tree.renderingOf options b.block
  slots := el.scopedSlots.values.map (tree.renderingOf options)

namespace Tree

variable {ledger : Ledger} {tree : Tree} {opened : List NodeId} {options : Options} {i : NodeId}
  {el : Element}

theorem IsOfTemplate.exists_sound {template : String} (h : tree.IsOfTemplate options template)
    (hlinks : ∀ x ∈ options.extensions, x.KeepsLinks) : ∃ ledger, tree.Sound ledger [] [] := by
  obtain ⟨ledger, hsound, -⟩ := exists_sound_ofTemplate hlinks template
  rcases h with rfl | ⟨marking, rfl⟩
  · exact ⟨ledger, hsound⟩
  · exact ⟨ledger, hsound.marked marking⟩

/-- In a forest an element is written at its site. -/
theorem Sound.renderingOf_eq (h : tree.Sound ledger opened []) (hel : tree.element? i = some el) :
    tree.renderingOf options i =
      (tree.site options i el).rendering (Scene.ofTree options tree) (tree.content i) := by
  rw [renderingOf, h.content_element hel, rendering]
  simp only [renderings_eq_map, List.map_map]
  rfl

/-- The element that a rendering is for. -/
theorem element?_renderingOf (options : Options) (tree : Tree) (i : NodeId) :
    (tree.renderingOf options i).content.element? = tree.element? i := by
  rw [renderingOf, content_rendering, element?_content]

end Tree

end ViewTemplate
