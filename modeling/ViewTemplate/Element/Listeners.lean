import ViewTemplate.Element
import ViewTemplate.Reported
import ViewTemplate.Text.Blank

/-! # Listeners

Some modifiers of a listener change the name that it is registered under: a click of the right or
middle button is another event, and the moments of capture, once and passive are marks before the
name. A name that is an expression is changed by an expression.
-/

namespace ViewTemplate

/-- A listener to register. -/
structure Listener where
  name : String
  value : String
  modifiers : Option Modifiers := none
  /-- Runs before the listeners already registered for the event. -/
  important : Bool := false
  range : Option Range := none
  /-- The name is an expression. -/
  dynamic : Bool := false

namespace Listener

/-- The name of the event that a click of another button fires. -/
def buttonName (l : Listener) : String × Modifiers :=
  let modifiers := l.modifiers.getD {}
  let renamed (event : String) : String :=
    "(" ++ l.name ++ ")==='click'?'" ++ event ++ "':(" ++ l.name ++ ")"
  if modifiers.contains "right" then
    if l.dynamic then (renamed "contextmenu", modifiers)
    else if l.name = "click" then ("contextmenu", modifiers.erase "right")
    else (l.name, modifiers)
  else if modifiers.contains "middle" then
    if l.dynamic then (renamed "mouseup", modifiers)
    else if l.name = "click" then ("mouseup", modifiers)
    else (l.name, modifiers)
  else (l.name, modifiers)

/-- Sets a mark before a name. -/
def marked (dynamic : Bool) (mark : String) (name : String) : String :=
  if dynamic then "_p(" ++ name ++ ",\"" ++ mark ++ "\")" else mark ++ name

/-- Turns a modifier into a mark before the name. -/
def takeMark (dynamic : Bool) (modifier mark : String) (named : String × Modifiers) :
    String × Modifiers :=
  if named.2.contains modifier then (marked dynamic mark named.1, named.2.erase modifier) else named

/-- The name that the listener is registered under, and the modifiers left. -/
def registered (l : Listener) : String × Modifiers :=
  takeMark l.dynamic "passive" "&" <| takeMark l.dynamic "once" "~" <|
    takeMark l.dynamic "capture" "!" l.buttonName

/-- Whether the listener is for an event of the platform on the root of a component. -/
def isNative (l : Listener) : Bool := l.registered.2.contains "native"

def handler (l : Listener) : Handler where
  value := Text.onChars Text.trim l.value
  dynamic := l.dynamic
  modifiers := l.modifiers.map fun _ => l.registered.2.erase "native"
  range := l.range

/-- Adds a handler to those of an event. -/
def insertInto (l : Listener) (events : Keyed (List Handler)) : Keyed (List Handler) :=
  let name := l.registered.1
  let handlers := (events.get? name).getD []
  events.insert name (if l.important then l.handler :: handlers else handlers ++ [l.handler])

/-- Whether the listener prevents a default that it promises not to prevent. -/
def contradicts (l : Listener) : Bool :=
  hasModifier l.modifiers "prevent" && hasModifier l.modifiers "passive"

end Listener

namespace Element

/-- Registers a listener. -/
def addListener (el : Element) (l : Listener) : Element :=
  { el with
    events := if l.isNative then el.events else l.insertInto el.events
    nativeEvents := if l.isNative then l.insertInto el.nativeEvents else el.nativeEvents
    plain := false }

/-- Registers a listener and reports contradicting modifiers. -/
def addListenerChecked (el : Element) (l : Listener) : Reported Element := do
  Reported.onlyIf l.contradicts (Reported.error .passivePrevent l.range)
  pure (el.addListener l)

end Element

end ViewTemplate
