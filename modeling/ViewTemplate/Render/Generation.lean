import ViewTemplate.Options
import ViewTemplate.Render.Code
import ViewTemplate.Tree

/-! # Generating code

Generation goes through a template from the outside to the inside. On the way it collects the
functions that are rendered apart, numbers the parts that are rendered once, and reports.
-/

namespace ViewTemplate.Render

/-- What generation reads. -/
structure Scene where
  options : Options
  tree : Tree
  /-- The rules for directives, those of every platform included. -/
  rules : Rules

namespace Scene

def ofTree (options : Options) (tree : Tree) : Scene where
  options
  tree
  rules := Rules.layered Rule.universal options.rules

def platform (scene : Scene) : Platform := scene.options.platform

end Scene

/-- What generation has collected so far. -/
structure Progress where
  functions : List Code := []
  onceCount : Nat := 0
  deriving Inhabited

/-- A generated value, with what is collected and reported on the way. -/
abbrev Generation := StateT Progress Reported

namespace Generation

/-- Collects a function and gives its number. -/
def collect (code : Code) : Generation Nat := do
  let progress ← get
  set { progress with functions := progress.functions ++ [code] }
  pure progress.functions.length

/-- The next number of a part that is rendered once. -/
def nextOnce : Generation Nat := do
  let progress ← get
  set { progress with onceCount := progress.onceCount + 1 }
  pure progress.onceCount

def error (cause : Cause) (range : Option Range) : Generation PUnit :=
  StateT.lift (Reported.error cause range)

def tip (cause : Cause) (range : Option Range) : Generation PUnit :=
  StateT.lift (Reported.tip cause range)

/-- Generates apart from what has been collected, and gives the functions collected there. -/
def apart (generation : Generation Code) : Generation (Code × List Code) := do
  let (code, progress) ← StateT.lift (generation.run {})
  pure (code, progress.functions)

end Generation

end ViewTemplate.Render
