import ViewTemplate.Element
import ViewTemplate.Expression.Callable
import ViewTemplate.Render.Properties

/-! # Listener code

A path to a method or a function stands for itself; anything else is wrapped in a function. Modifiers
become guards at the start of the wrapper, and those that name keys become one filter before them.
-/

namespace ViewTemplate.Render

/-- Codes of the keys that have names. -/
def keyCode? : String → Option String
  | "esc" => some "27"
  | "tab" => some "9"
  | "enter" => some "13"
  | "space" => some "32"
  | "up" => some "38"
  | "left" => some "37"
  | "right" => some "39"
  | "down" => some "40"
  | "delete" => some "[8,46]"
  | _ => none

/-- What the keys that have names are called by the platform. -/
def keyName? : String → Option String
  | "esc" => some "[\"Esc\",\"Escape\"]"
  | "tab" => some "\"Tab\""
  | "enter" => some "\"Enter\""
  | "space" => some "[\" \",\"Spacebar\"]"
  | "up" => some "[\"Up\",\"ArrowUp\"]"
  | "left" => some "[\"Left\",\"ArrowLeft\"]"
  | "right" => some "[\"Right\",\"ArrowRight\"]"
  | "down" => some "[\"Down\",\"ArrowDown\"]"
  | "delete" => some "[\"Backspace\",\"Delete\",\"Del\"]"
  | _ => none

/-- Leaves the listener on a condition. -/
def guardCode (condition : String) : String := "if(" ++ condition ++ ")return null;"

/-- The code of the modifiers that are not keys. -/
def modifierCode? : String → Option String
  | "stop" => some "$event.stopPropagation();"
  | "prevent" => some "$event.preventDefault();"
  | "self" => some (guardCode "$event.target !== $event.currentTarget")
  | "ctrl" => some (guardCode "!$event.ctrlKey")
  | "shift" => some (guardCode "!$event.shiftKey")
  | "alt" => some (guardCode "!$event.altKey")
  | "meta" => some (guardCode "!$event.metaKey")
  | "left" => some (guardCode "'button' in $event && $event.button !== 0")
  | "middle" => some (guardCode "'button' in $event && $event.button !== 1")
  | "right" => some (guardCode "'button' in $event && $event.button !== 2")
  | _ => none

/-- Leaves the listener if a system key is held down that no modifier names. -/
def exactCode (modifiers : Modifiers) : String :=
  let unlisted := ["ctrl", "shift", "alt", "meta"].filter fun m => !modifiers.contains m
  guardCode ("||".intercalate (unlisted.map fun m => "$event." ++ m ++ "Key"))

/-- The least number that does not fit a machine word. -/
def wordLimit : Nat := 18446744073709551616

/-- The number at the start of a modifier, where it is positive and fits a machine word. -/
def keyNumber? (key : String) : Option Nat :=
  let digits := key.toList.takeWhile Text.isAsciiDigit
  let number := digits.foldl (fun n c => 10 * n + (c.toNat - 48)) 0
  if digits.isEmpty || number = 0 || wordLimit ≤ number then none else some number

/-- Holds if the key of the event is another one. -/
def keyFilter (key : String) : String :=
  match keyNumber? key with
  | some number => "$event.keyCode!==" ++ toString number
  | none =>
    "_k($event.keyCode," ++ Text.quote key ++ "," ++ (keyCode? key).getD "undefined" ++
      ",$event.key," ++ (keyName? key).getD "undefined" ++ ")"

/-- Whether a modifier names a key; the arrows also name buttons. -/
def isKey (modifier : String) : Bool :=
  if (modifierCode? modifier).isSome then (keyCode? modifier).isSome else modifier != "exact"

/-- The filter for the keys among the modifiers. -/
def keyFilters (modifiers : Modifiers) : String :=
  let keys := modifiers.keys.filter isKey
  if keys.isEmpty then ""
  else
    "if(!$event.type.indexOf('key')&&" ++ "&&".intercalate (keys.map keyFilter) ++ ")return null;"

/-- The guards for all other modifiers, in order. -/
def guards (modifiers : Modifiers) : String :=
  String.join (modifiers.keys.map fun m =>
    match modifierCode? m with
    | some code => code
    | none => if m = "exact" then exactCode modifiers else "")

/-- The code of one handler. -/
def handler (h : Handler) : String :=
  let value := h.value.toList
  let wrapped (code : String) : String := "function($event)\x7b" ++ code ++ "\x7d"
  match h.modifiers with
  | none =>
    if Callable.isPath value || Callable.isFunction value then h.value
    else if Callable.isCall value then wrapped ("return " ++ h.value)
    else wrapped h.value
  | some modifiers =>
    let call :=
      if Callable.isPath value then "return " ++ h.value ++ ".apply(null, arguments)"
      else if Callable.isFunction value then "return (" ++ h.value ++ ").apply(null, arguments)"
      else if Callable.isCall value then "return " ++ h.value
      else h.value
    wrapped (keyFilters modifiers ++ guards modifiers ++ call)

/-- The code of all handlers of an event. -/
def handlers : List Handler → String
  | [] => "function()\x7b\x7d"
  | [h] => handler h
  | hs => "[" ++ ",".intercalate (hs.map handler) ++ "]"

/-- Whether the name of the event is an expression, which its only handler says. -/
def isComputed : List Handler → Bool
  | [h] => h.dynamic
  | _ => false

/-- The object of the listeners of an element. -/
def listeners (events : Keyed (List Handler)) : String :=
  objectWith
    ((events.entries.filter fun e => !isComputed e.2).map fun e =>
      "\"" ++ e.1 ++ "\":" ++ handlers e.2)
    ((events.entries.filter fun e => isComputed e.2).map fun e => e.1 ++ "," ++ handlers e.2)

/-- The entry of a data object for listeners, of the platform or not. -/
def listenersEntry (events : Keyed (List Handler)) (native : Bool) : String :=
  (if native then "nativeOn:" else "on:") ++ listeners events

end ViewTemplate.Render
