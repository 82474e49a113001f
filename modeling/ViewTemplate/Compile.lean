import ViewTemplate.Render
import ViewTemplate.Tree.Builder
import ViewTemplate.Tree.Static

/-! # Compilation

A template is trimmed, read into a tree, marked and written as code. Compilation always gives code;
what is wrong with the template is reported beside it, with places in the template as it was given.
-/

namespace ViewTemplate

/-- The result of a compilation. -/
structure Compiled where
  tree : Tree
  program : Render.Program
  errors : List Diagnostic
  tips : List Diagnostic
  deriving Inhabited

namespace Compiled

/-- The body of the render function. -/
def render (c : Compiled) : String := c.program.renderBody

/-- The bodies of the functions for static content. -/
def functions (c : Compiled) : List String := c.program.functionBodies

/-- All diagnostics in the order in which they are announced: errors, then tips. -/
def diagnostics (c : Compiled) : List Diagnostic := c.errors ++ c.tips

end Compiled

/-- Reads a trimmed template into a tree and writes its code. -/
def compileTrimmed (options : Options) (template : String) : Reported (Tree × Render.Program) := do
  let tree ← Tree.ofTemplate options template
  let tree := if options.optimize then tree.marked options else tree
  let program ← tree.program options
  pure (tree, program)

/-- Compiles a template. -/
def compile (options : Options) (template : String) : Compiled :=
  let leading := Text.byteLength (template.toList.takeWhile Text.isBlank)
  let result := compileTrimmed options (Text.onChars Text.trim template)
  let (errors, tips) := Diagnostic.split (result.notes.map (Diagnostic.shift leading))
  { tree := result.value.1, program := result.value.2, errors, tips }

end ViewTemplate
