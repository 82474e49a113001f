import ViewTemplate.Element

/-! # Generated code

Code is text with references to functions that are rendered apart. The references are kept apart from
the text, so that they can be followed; printing comes last.
-/

namespace ViewTemplate

/-- Generated code. -/
inductive Code
  | text (text : String)
  | append (first second : Code)
  /-- A call of the function with the given number, in the place of the code of an element. -/
  | hoisted (owner : NodeId) (index : Nat) (inLoop : Bool)
  /-- A template with functions of its own. -/
  | inlined (render : Code) (functions : List Code)
  deriving Inhabited

namespace Code

instance : Append Code := ⟨append⟩

instance : Coe String Code := ⟨text⟩

/-- The parts with a separator between them. -/
def join (separator : String) : List Code → Code
  | [] => ""
  | [c] => c
  | c :: cs => c ++ separator ++ join separator cs

/-- A function body that gives the value of an expression. -/
def body (expression : String) : String := "with(this)\x7breturn " ++ expression ++ "\x7d"

/-- A function with the given body. -/
def function (body : String) : String := "function()\x7b" ++ body ++ "\x7d"

/-- An object of render functions. -/
def bundle (render : String) (functions : List String) : String :=
  "\x7brender:" ++ render ++ ",staticRenderFns:[" ++ ",".intercalate functions ++ "]\x7d"

mutual
/-- The text of the code. -/
def print : Code → String
  | .text s => s
  | .append first second => print first ++ print second
  | .hoisted _ index inLoop => "_m(" ++ toString index ++ (if inLoop then ",true)" else ")")
  | .inlined render functions =>
    "inlineTemplate:" ++ bundle (function (body (print render))) (printFunctions functions)

/-- The texts of functions of a template inside a template. -/
def printFunctions : List Code → List String
  | [] => []
  | c :: cs => function (body (print c)) :: printFunctions cs
end

end Code

end ViewTemplate
