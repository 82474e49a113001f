import ViewTemplate.Command.Output

/-! # The command

Reads a configuration and a template, compiles, and prints. The configuration comes first: where it
cannot be used the template is not read.
-/

namespace ViewTemplate.Command

/-- What the command reads: files by their paths, with the reason where one cannot be read, and the
standard input. -/
structure Sources where
  file : String → Except String String
  input : String

/-- What the command leaves behind. -/
structure Outcome where
  code : Nat
  output : String := ""
  /-- Left open where the words of the command line are not understood. -/
  errors : Option String := some ""
  deriving DecidableEq, Repr, Inhabited

/-- The wording for a configuration that is refused. -/
def refusal (r : Config.Refusal) : String := r.message?.getD "invalid compiler configuration"

/-- Puts the place where it went wrong before a reason. -/
def within {α : Type} (place : String) : Except String α → Except String α
  | .ok a => .ok a
  | .error reason => .error (place ++ ": " ++ reason)

def checked : Except Config.Refusal Config → Except String Config
  | .ok config => .ok config
  | .error r => .error (refusal r)

/-- Reads the configuration and puts the settings of the command line on top. -/
def readConfig (sources : Sources) (path : Option String) (adjustments : Adjustments) :
    Except String Config := do
  let config ← match path with
    | none => pure {}
    | some path =>
      let text ← within ("failed to read config " ++ path) (sources.file path)
      within ("invalid config " ++ path) (checked (Config.read text))
  checked (adjustments.apply config).check

/-- Reads the template; a dash stands for the standard input. -/
def readTemplate (sources : Sources) : Option String → Except String String
  | none => .ok sources.input
  | some path =>
    if path = "-" then .ok sources.input
    else within ("failed to read template " ++ path) (sources.file path)

namespace Arguments

def format (a : Arguments) : Format :=
  if a.ast then .ast else if a.module then .module else .json

def adjustments (a : Arguments) : Adjustments where
  noOptimize := a.noOptimize
  whitespace := a.whitespace
  delimiters := a.delimiters

/-- Reads, compiles and prints. -/
def run (sources : Sources) (a : Arguments) : Except String Outcome := do
  let config ← readConfig sources a.config a.adjustments
  let template ← readTemplate sources a.input
  let output := Output.ofTemplate a.format config template
  pure {
    code := Output.exitCode output.errors
    output := output.text ++ "\n"
    errors := some (printDiagnostics template (output.errors ++ output.tips)) }

end Arguments

def versionText : String := "tplc 0.1.0\n"

def helpText : String :=
  "Compile view templates into render functions\n\nUsage: tplc [OPTIONS] [FILE]\n\nArguments:\n" ++
  "  [FILE]  Template file, reads stdin when omitted or `-`\n\nOptions:\n" ++
  "  -c, --config <PATH>              JSON compiler configuration\n" ++
  "      --ast                        Print the optimized AST instead of the render code\n" ++
  "      --module                     Print `\x7brender, staticRenderFns\x7d` as function source\n" ++
  "      --no-optimize                Skip static tree optimization\n" ++
  "      --whitespace <MODE>          Whitespace handling [possible values: preserve, condense]\n" ++
  "      --delimiters <OPEN> <CLOSE>  Interpolation delimiters\n" ++
  "  -h, --help                       Print help\n" ++
  "  -V, --version                    Print version\n"

/-- Does what is asked for. -/
def Request.run (sources : Sources) : Request → Outcome
  | .version => { code := 0, output := versionText }
  | .help => { code := 0, output := helpText }
  | .invalid => { code := 2, errors := none }
  | .compile a =>
    match a.run sources with
    | .ok outcome => outcome
    | .error reason => { code := 2, errors := some ("Error: " ++ reason ++ "\n") }

/-- The paths that a request reads. -/
def Request.paths : Request → List String
  | .compile a => a.config.toList ++ (a.input.filter (· ≠ "-")).toList
  | _ => []

/-- Whether a request reads the standard input. -/
def Request.readsInput : Request → Bool
  | .compile a => a.input.all (· == "-")
  | _ => false

end ViewTemplate.Command
