import ViewTemplate.Render.Element

/-! # Render functions

The render function of a template and the functions that it calls for static content.
-/

namespace ViewTemplate

namespace Render

/-- A node without an element, which is written the same in every place. -/
def leaf (content : Content) (code : String) : Rendering where
  content
  node _ := pure code
  branch _ := pure code
  slot _ := pure code

mutual
/-- How a content is written. -/
def rendering (scene : Scene) : Content → Rendering
  | .plain id t =>
    leaf (.plain id t) ((if t.isComment then "_e(" else "_v(") ++ Text.sourceLiteral t.text ++ ")")
  | .interpolated id t => leaf (.interpolated id t) ("_v(" ++ Token.joinCode t.tokens ++ ")")
  | .element id el children branches slots =>
    Site.rendering scene
      { id, el, children := renderings scene children, branches := renderings scene branches
        slots := renderings scene slots }
      (.element id el children branches slots)

def renderings (scene : Scene) : List Content → List Rendering
  | [] => []
  | c :: cs => rendering scene c :: renderings scene cs
end

@[simp] theorem renderings_eq_map (scene : Scene) (cs : List Content) :
    renderings scene cs = cs.map (rendering scene) := by
  induction cs with
  | nil => rfl
  | cons c cs ih => rw [renderings, ih, List.map_cons]

/-- The code of a template, as expressions. -/
structure Program where
  render : Code
  functions : List Code
  deriving Inhabited

namespace Program

/-- The body of the render function. -/
def renderBody (program : Program) : String := Code.body program.render.print

/-- The bodies of the functions for static content. -/
def functionBodies (program : Program) : List String :=
  program.functions.map fun code => Code.body code.print

end Program

/-- Generates the code of a content, or that of an empty template. -/
def generation (scene : Scene) : Option Content → Generation Code
  | some content => rootCode (rendering scene content)
  | none => pure "_c(\"div\")"

end Render

/-- The code of a tree. -/
def Tree.program (options : Options) (tree : Tree) : Reported Render.Program := do
  let scene := Render.Scene.ofTree options tree
  let (render, progress) ← (Render.generation scene tree.rootContent?).run {}
  pure { render, functions := progress.functions }

end ViewTemplate
