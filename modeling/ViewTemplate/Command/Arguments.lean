import ViewTemplate.Config.Json

/-! # Command line arguments

Arguments are read from the left. A setting takes its values from the words that follow it, or after
an equals sign; a word that starts with a dash is never such a value. After two dashes all words are
operands.
-/

namespace ViewTemplate.Command

/-- What a command line asks for. -/
structure Arguments where
  input : Option String := none
  config : Option String := none
  whitespace : Option Whitespace := none
  delimiters : Option Delimiters := none
  ast : Bool := false
  module : Bool := false
  noOptimize : Bool := false
  deriving DecidableEq, Inhabited

/-- Settings that take values. -/
inductive Setting
  | config
  | whitespace
  | delimiters
  deriving DecidableEq, Repr, Inhabited

namespace Setting

/-- The number of values that a setting takes. -/
def count : Setting → Nat
  | .config => 1
  | .whitespace => 1
  | .delimiters => 2

end Setting

/-- How the reading of a command line ends. -/
inductive Request
  | compile (arguments : Arguments)
  | version
  | help
  | invalid
  deriving DecidableEq, Inhabited

namespace Arguments

/-- Gives a setting its values, unless it has some or they are not valid. -/
def give (a : Arguments) : Setting → List String → Option Arguments
  | .config, [path] => if a.config.isNone then some { a with config := some path } else none
  | .whitespace, [name] =>
    if a.whitespace.isNone then
      (Whitespace.ofName? name).map fun mode => { a with whitespace := some mode }
    else none
  | .delimiters, [opening, closing] =>
    if a.delimiters.isNone then some { a with delimiters := some ⟨opening, closing⟩ } else none
  | _, _ => none

/-- Takes the only operand. -/
def place (a : Arguments) (path : String) : Option Arguments :=
  if a.input.isNone then some { a with input := some path } else none

/-- Turns on a switch that is off. -/
def turnOn (a : Arguments) (name : String) : Option Arguments :=
  match name with
  | "ast" => if a.ast then none else some { a with ast := true }
  | "module" => if a.module then none else some { a with module := true }
  | "no-optimize" => if a.noOptimize then none else some { a with noOptimize := true }
  | _ => none

/-- Two output formats exclude each other. -/
def request (a : Arguments) : Request := if a.ast && a.module then .invalid else .compile a

end Arguments

/-- A word of a command line, by its dashes. -/
inductive Word
  | operand (text : String)
  | dashes
  | long (name : String) (attached : Option String)
  | short (letter : Char) (rest : List Char)
  deriving DecidableEq, Repr, Inhabited

namespace Word

def ofString (s : String) : Word :=
  match s.toList with
  | '-' :: '-' :: [] => .dashes
  | '-' :: '-' :: rest =>
    match Text.cut? ['='] rest with
    | some (name, value) => .long (String.ofList name) (some (String.ofList value))
    | none => .long (String.ofList rest) none
  | '-' :: letter :: rest => .short letter rest
  | _ => .operand s

end Word

/-- Where the reading of a command line stands. -/
inductive Reading
  | ready (arguments : Arguments)
  /-- A setting with the values read so far. -/
  | awaiting (arguments : Arguments) (setting : Setting) (values : List String)
  /-- Only operands follow. -/
  | operands (arguments : Arguments)
  | ended (request : Request)
  deriving DecidableEq, Inhabited

namespace Reading

/-- Goes on with the arguments, where there are some. -/
def resume (go : Arguments → Reading) : Option Arguments → Reading
  | some a => go a
  | none => .ended .invalid

/-- A setting with a value after an equals sign, or with values to come. -/
def setting (a : Arguments) (s : Setting) : Option String → Reading
  | some value => resume .ready (a.give s [value])
  | none => .awaiting a s []

def long (a : Arguments) (name : String) (attached : Option String) : Reading :=
  match name with
  | "config" => setting a .config attached
  | "whitespace" => setting a .whitespace attached
  | "delimiters" => setting a .delimiters attached
  | _ =>
    if attached.isSome then .ended .invalid
    else if name = "version" then .ended .version
    else if name = "help" then .ended .help
    else resume .ready (a.turnOn name)

def short (a : Arguments) (letter : Char) (rest : List Char) : Reading :=
  if letter = 'c' then
    match rest with
    | [] => setting a .config none
    | '=' :: value => setting a .config (some (String.ofList value))
    | value => setting a .config (some (String.ofList value))
  else if letter = 'V' then .ended .version
  else if letter = 'h' then .ended .help
  else .ended .invalid

/-- Reads one word. -/
def step (reading : Reading) (word : String) : Reading :=
  match reading with
  | .ended request => .ended request
  | .operands a => resume .operands (a.place word)
  | .awaiting a s values =>
    match Word.ofString word with
    | .operand value =>
      let values := values ++ [value]
      if values.length = s.count then resume .ready (a.give s values) else .awaiting a s values
    | _ => .ended .invalid
  | .ready a =>
    match Word.ofString word with
    | .operand path => resume .ready (a.place path)
    | .dashes => .operands a
    | .long name attached => long a name attached
    | .short letter rest => short a letter rest

/-- What is asked for once all words are read. -/
def finish : Reading → Request
  | .ready a => a.request
  | .operands a => a.request
  | .awaiting .. => .invalid
  | .ended request => request

end Reading

/-- Reads a command line. -/
def Request.ofWords (words : List String) : Request :=
  (words.foldl Reading.step (.ready {})).finish

end ViewTemplate.Command
