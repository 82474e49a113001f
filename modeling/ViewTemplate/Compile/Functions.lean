import ViewTemplate.Compile
import ViewTemplate.Expression.Balanced

/-! # Functions from templates

Generated code is turned into functions by a factory. Code that the factory refuses is reported, and a
function that does nothing takes its place. Answers are kept, by delimiters and template.
-/

namespace ViewTemplate

universe u

/-- Makes functions from code, or gives the reason why it cannot. -/
structure Factory (α : Type u) where
  create : String → Except String α
  /-- Takes the place of a function that cannot be made. -/
  noop : α

namespace Factory

/-- The text of a refusal. -/
def refusal (reason : String) : String := "failed to construct function: " ++ reason

/-- Functions as source text, made from code whose brackets and quotes are paired. -/
def source : Factory String where
  create code :=
    match Balanced.fault? code with
    | some fault => .error fault.message
    | none => .ok (Code.function code)
  noop := Code.function ""

end Factory

/-- Code that was refused. -/
structure Refused where
  message : String
  code : String
  deriving DecidableEq, Repr, Inhabited

/-- The functions of a template. -/
structure Functions (α : Type u) where
  render : α
  statics : List α
  errors : List Diagnostic
  tips : List Diagnostic
  refused : List Refused

namespace Functions

variable {α : Type u}

/-- The function of some code. -/
def make (factory : Factory α) (code : String) : α :=
  match factory.create code with
  | .ok function => function
  | .error _ => factory.noop

/-- The report on some code, if it is refused. -/
def refused? (factory : Factory α) (code : String) : Option Refused :=
  match factory.create code with
  | .ok _ => none
  | .error reason => some ⟨Factory.refusal reason, code⟩

/-- The functions of a compiled template. -/
def ofCompiled (factory : Factory α) (c : Compiled) : Functions α where
  render := make factory c.render
  statics := c.functions.map (make factory)
  errors := c.errors
  tips := c.tips
  refused := (c.render :: c.functions).filterMap (refused? factory)

end Functions

/-- A compiler that keeps its answers. -/
structure Memo (α : Type u) where
  base : Options
  factory : Factory α
  answers : Keyed (Functions α) := {}

namespace Memo

variable {α : Type u}

/-- What an answer is kept by. -/
def key (template : String) (overrides : Overrides) : String :=
  match overrides.config.delimiters with
  | some d => d.opening ++ "," ++ d.closing ++ template
  | none => template

/-- The answer without looking at those that are kept. -/
def fresh (memo : Memo α) (template : String) (overrides : Overrides) : Functions α :=
  .ofCompiled memo.factory (ViewTemplate.compile (memo.base.layered overrides) template)

/-- The answer for a template, kept or fresh, and the compiler that keeps it. -/
def compile (memo : Memo α) (template : String) (overrides : Overrides) : Functions α × Memo α :=
  match memo.answers.get? (key template overrides) with
  | some answer => (answer, memo)
  | none =>
    let answer := memo.fresh template overrides
    (answer, { memo with answers := memo.answers.insert (key template overrides) answer })

end Memo

end ViewTemplate
