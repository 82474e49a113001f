import ViewTemplate.Command.Arguments
import ViewTemplate.Compile.Functions
import ViewTemplate.Tree.Json

/-! # Output of the command

A compiled template is printed as its code and diagnostics, as its tree, or as the source of an object
of functions. Diagnostics are also printed one a line, with the template around them.
-/

namespace ViewTemplate.Command

/-- What is printed. -/
inductive Format
  | json
  | ast
  | module
  deriving DecidableEq, Repr, Inhabited

/-- What a compilation prints. -/
structure Output where
  text : String
  errors : List Diagnostic
  tips : List Diagnostic
  deriving Inhabited

namespace Output

/-- The code and the diagnostics of a compilation. -/
def report (c : Compiled) : Json :=
  .object [("render", .text c.render), ("staticRenderFns", .array (c.functions.map .text)),
    ("errors", .array (c.errors.map Diagnostic.toJson)),
    ("tips", .array (c.tips.map Diagnostic.toJson))]

/-- The source of an object of functions. -/
def bundle (functions : Functions String) : String :=
  Code.bundle functions.render functions.statics

/-- Compiles a template for documents and prints it. -/
def ofTemplate (format : Format) (config : Config) (template : String) : Output :=
  let compiled := compile (Options.web.layered { config }) template
  let text := match format with
    | .json => (report compiled).pretty
    | .ast => compiled.tree.toJson.pretty
    | .module => bundle (.ofCompiled .source compiled)
  { text, errors := compiled.errors, tips := compiled.tips }

/-- Whether the template is in order. -/
def exitCode (errors : List Diagnostic) : Nat := if errors.isEmpty then 0 else 1

end Output

/-- One line for each diagnostic. -/
def printDiagnostics (template : String) (diagnostics : List Diagnostic) : String :=
  String.join (diagnostics.map fun d => d.level.name ++ ": " ++ d.inContext template ++ "\n")

/-- What the command line sets of a configuration. -/
structure Adjustments where
  noOptimize : Bool := false
  whitespace : Option Whitespace := none
  delimiters : Option Delimiters := none
  deriving DecidableEq, Inhabited

namespace Adjustments

/-- Puts the settings of the command line on top of a configuration. -/
def apply (a : Adjustments) (config : Config) : Config :=
  { config with
    optimize := if a.noOptimize then some false else config.optimize
    whitespace := a.whitespace.or config.whitespace
    delimiters := a.delimiters.or config.delimiters }

end Adjustments

/-- The mode with a name, or the reason why there is none. -/
def readWhitespace (name : String) : Except String Whitespace :=
  match Whitespace.ofName? name with
  | some mode => .ok mode
  | none => .error ("unknown whitespace mode `" ++ name ++ "`")

end ViewTemplate.Command
