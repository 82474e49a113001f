import ViewTemplate.Config
import ViewTemplate.Json.Reader

/-! # Configurations as JSON

A configuration is written as an object of the fields that are set. Reading is strict about the fields
it knows: each has its type or is null, and none occurs twice. Fields it does not know are passed over.
The fields may also come as an array in their order, the last of them left out.
-/

namespace ViewTemplate

def Whitespace.name : Whitespace → String
  | .preserve => "preserve"
  | .condense => "condense"

def Whitespace.all : List Whitespace := [.preserve, .condense]

/-- The mode with a name. -/
def Whitespace.ofName? (name : String) : Option Whitespace :=
  Whitespace.all.find? fun w => w.name == name

def BindingKind.name : BindingKind → String
  | .data => "data"
  | .props => "props"
  | .propsAliased => "props-aliased"
  | .setupLet => "setup-let"
  | .setupConst => "setup-const"
  | .setupReactiveConst => "setup-reactive-const"
  | .setupMaybeRef => "setup-maybe-ref"
  | .setupRef => "setup-ref"
  | .options => "options"
  | .literalConst => "literal-const"

def BindingKind.all : List BindingKind :=
  [.data, .props, .propsAliased, .setupLet, .setupConst, .setupReactiveConst, .setupMaybeRef,
    .setupRef, .options, .literalConst]

/-- The kind with a name. -/
def BindingKind.ofName? (name : String) : Option BindingKind :=
  BindingKind.all.find? fun k => k.name == name

/-- The key that says whether a script is of the setup form. -/
def Bindings.setupKey : String := "__isScriptSetup"

def Bindings.toJson (b : Bindings) : Json :=
  .object (Json.member? setupKey .bool b.isScriptSetup ++
    b.kinds.entries.map fun e => (e.1, .text e.2.name))

namespace Config

def toJson (config : Config) : Json :=
  .object (
    Json.member? "whitespace" (fun w => .text w.name) config.whitespace ++
    Json.member? "preserveWhitespace" .bool config.preserveWhitespace ++
    Json.member? "optimize" .bool config.optimize ++
    Json.member? "delimiters" (fun d => .array [.text d.opening, .text d.closing])
      config.delimiters ++
    Json.member? "comments" .bool config.comments ++
    Json.member? "shouldDecodeNewlines" .bool config.decodeNewlines ++
    Json.member? "shouldDecodeNewlinesForHref" .bool config.decodeNewlinesForHref ++
    Json.member? "bindings" Bindings.toJson config.bindings)

/-- The names of the fields in their order. -/
def fieldNames : List String :=
  ["whitespace", "preserveWhitespace", "optimize", "delimiters", "comments", "shouldDecodeNewlines",
    "shouldDecodeNewlinesForHref", "bindings"]

/-- A field that may be null. -/
def nullable {α : Type} (read : Json → Option α) : Json → Option (Option α)
  | .null => some none
  | j => (read j).map some

def readBool : Json → Option Bool
  | .bool b => some b
  | _ => none

/-- The name of a case: a text, or the only key of an object with nothing under it. -/
def readCase (isNothing : Json → Bool) : Json → Option String
  | .text name => some name
  | .object [(name, j)] => if isNothing j then some name else none
  | _ => none

def isNull : Json → Bool
  | .null => true
  | _ => false

/-- Null or an object without members. -/
def isNullOrEmpty : Json → Bool
  | .null => true
  | .object [] => true
  | _ => false

def readWhitespace (j : Json) : Option Whitespace := (readCase isNull j).bind Whitespace.ofName?

def readKind (j : Json) : Option BindingKind := (readCase isNullOrEmpty j).bind BindingKind.ofName?

def readDelimiters : Json → Option Delimiters
  | .array [.text opening, .text closing] => some ⟨opening, closing⟩
  | _ => none

/-- The value of a member that occurs at most once; without it the value is null. -/
def readOnce (members : List (String × Json)) (name : String) : Option Json :=
  match members.filter fun m => m.1 == name with
  | [] => some .null
  | [m] => some m.2
  | _ => none

/-- Bindings: of a name that occurs twice the last kind counts. -/
def readBindings : Json → Option Bindings
  | .object members => do
    let setup ← readOnce members Bindings.setupKey
    let isScriptSetup ← nullable readBool setup
    let others := members.filter fun m => m.1 != Bindings.setupKey
    let kinds ← others.mapM fun m => (readKind m.2).map fun kind => (m.1, kind)
    pure { isScriptSetup, kinds := Keyed.ofList kinds }
  | _ => none

/-- The fields in their order, each null where it is left out. -/
def readFields : Json → Option (List Json)
  | .object members => fieldNames.mapM (readOnce members)
  | .array items =>
    if items.length ≤ fieldNames.length then
      some (items ++ List.replicate (fieldNames.length - items.length) .null)
    else none
  | _ => none

/-- Reads a configuration, whether it can be used or not. -/
def ofJson? (j : Json) : Option Config := do
  match ← readFields j with
  | [whitespace, preserve, optimize, delimiters, comments, newlines, href, bindings] =>
    let whitespace ← nullable readWhitespace whitespace
    let preserveWhitespace ← nullable readBool preserve
    let optimize ← nullable readBool optimize
    let delimiters ← nullable readDelimiters delimiters
    let comments ← nullable readBool comments
    let decodeNewlines ← nullable readBool newlines
    let decodeNewlinesForHref ← nullable readBool href
    let bindings ← nullable readBindings bindings
    pure { whitespace, preserveWhitespace, optimize, delimiters, comments, decodeNewlines
           decodeNewlinesForHref, bindings }
  | _ => none

/-- Why a configuration is refused. -/
inductive Refusal
  | unreadable
  | emptyDelimiters
  deriving DecidableEq, Repr, Inhabited

/-- The wording of a refusal, where it has one. -/
def Refusal.message? : Refusal → Option String
  | .unreadable => none
  | .emptyDelimiters =>
    some "invalid compiler option `delimiters`: both delimiters must be non-empty"

/-- A configuration that can be used. -/
def check (config : Config) : Except Refusal Config :=
  if config.isValid then .ok config else .error .emptyDelimiters

/-- Reads a configuration from its text. -/
def read (text : String) : Except Refusal Config :=
  match (Json.read? text).bind ofJson? with
  | some config => config.check
  | none => .error .unreadable

end Config

end ViewTemplate
