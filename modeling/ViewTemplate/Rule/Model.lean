import ViewTemplate.Element.Attributes
import ViewTemplate.Element.Listeners
import ViewTemplate.Expression.Path
import ViewTemplate.Extension

/-! # Two-way bindings

On a form element a two-way binding is a property together with a listener that writes back; on a
component it is a value with a callback.
-/

namespace ViewTemplate.Rule

namespace Model

/-- The listener that writes back; it runs before those of the template. -/
def writeBack (el : Element) (event code : String) : Element :=
  el.addListener { name := event, value := code, important := true }

def numbered (directive : Directive) (code : String) : String :=
  if hasModifier directive.modifiers "number" then "_n(" ++ code ++ ")" else code

/-- The binding of a component. -/
def component (el : Element) (directive : Directive) : Element :=
  let trimmed :=
    if hasModifier directive.modifiers "trim" then
      "(typeof $$v === 'string'? $$v.trim(): $$v)"
    else "$$v"
  let assignment := Path.assign directive.value (numbered directive trimmed)
  { el with
    model := some {
      value := "(" ++ directive.value ++ ")"
      expression := Text.quote directive.value
      callback := "function ($$v) \x7b" ++ assignment ++ "\x7d" } }

/-- A check box, which stands for a flag or for membership in an array. -/
def checkbox (el : Element) (directive : Directive) : Element :=
  let value := directive.value
  let (valueBinding, el) := el.takeBindingOrText "value"
  let (trueValue, el) := el.takeBindingOrText "true-value"
  let (falseValue, el) := el.takeBindingOrText "false-value"
  let valueBinding := valueBinding.getD "null"
  let trueValue := trueValue.getD "true"
  let falseValue := falseValue.getD "false"
  let checked :=
    if trueValue = "true" then ":(" ++ value ++ ")" else ":_q(" ++ value ++ "," ++ trueValue ++ ")"
  let el := el.addProperty "checked"
    ("Array.isArray(" ++ value ++ ")?_i(" ++ value ++ "," ++ valueBinding ++ ")>-1" ++ checked)
    none false
  writeBack el "change"
    ("var $$a=" ++ value ++ ",$$el=$event.target,$$c=$$el.checked?(" ++ trueValue ++ "):(" ++
      falseValue ++ ");if(Array.isArray($$a))\x7bvar $$v=" ++ numbered directive valueBinding ++
      ",$$i=_i($$a,$$v);if($$el.checked)\x7b$$i<0&&(" ++ Path.assign value "$$a.concat([$$v])" ++
      ")\x7delse\x7b$$i>-1&&(" ++
      Path.assign value "$$a.slice(0,$$i).concat($$a.slice($$i+1))" ++
      ")\x7d\x7delse\x7b" ++ Path.assign value "$$c" ++ "\x7d")

/-- A radio button. -/
def radio (el : Element) (directive : Directive) : Element :=
  let value := directive.value
  let (valueBinding, el) := el.takeBindingOrText "value"
  let valueBinding := numbered directive (valueBinding.getD "null")
  let el := el.addProperty "checked" ("_q(" ++ value ++ "," ++ valueBinding ++ ")") none false
  writeBack el "change" (Path.assign value valueBinding)

/-- A list to select from. -/
def select (el : Element) (directive : Directive) : Element :=
  let selected :=
    "Array.prototype.filter.call($event.target.options,function(o)\x7breturn o.selected\x7d)" ++
      ".map(function(o)\x7bvar val = \"_value\" in o ? o._value : o.value;return " ++
      numbered directive "val" ++ "\x7d)"
  writeBack el "change"
    ("var $$selectedVal = " ++ selected ++ "; " ++
      Path.assign directive.value "$event.target.multiple ? $$selectedVal : $$selectedVal[0]")

/-- The event that an input field writes back on. -/
def inputEvent (el : Element) (directive : Directive) : String :=
  if hasModifier directive.modifiers "lazy" then "change"
  else if el.attribute? "type" = some "range" then "__r"
  else "input"

/-- Reports a value binding that the two-way binding overrides. -/
def reportConflict (el : Element) : Reported PUnit :=
  match ["v-bind:value", ":value"].find? el.hasAttribute with
  | some binding =>
    if el.hasAttribute "v-bind:type" || el.hasAttribute ":type" then pure ⟨⟩
    else
      Reported.error (.conflictingValue binding ((el.attribute? binding).getD ""))
        (el.rangeOf binding)
  | none => pure ⟨⟩

/-- An input field or text area. What is being composed is not written back yet. -/
def input (el : Element) (directive : Directive) : Element :=
  let trim := hasModifier directive.modifiers "trim"
  let read := numbered directive (if trim then "$event.target.value.trim()" else "$event.target.value")
  let event := inputEvent el directive
  let assignment := Path.assign directive.value read
  let code :=
    if event = "input" then "if($event.target.composing)return;" ++ assignment else assignment
  let el := el.addProperty "value" ("(" ++ directive.value ++ ")") none false
  let el := writeBack el event code
  if trim || hasModifier directive.modifiers "number" then
    el.addListener { name := "blur", value := "$forceUpdate()" }
  else el

/-- Reports a file input, which cannot be written. -/
def reportFileInput (el : Element) (directive : Directive) : Reported PUnit :=
  Reported.onlyIf (el.tag = "input" && el.attribute? "type" = some "file")
    (Reported.error (.fileInputModel el.tag directive.value) (el.rangeOf "v-model"))

end Model

/-- The rule for `v-model`. Form elements also need the runtime. -/
def model : Rule := fun surroundings el directive => do
  Model.reportFileInput el directive
  if el.component.isSome then pure (Model.component el directive, false)
  else if el.tag = "select" then pure (Model.select el directive, true)
  else if el.tag = "input" && el.attribute? "type" = some "checkbox" then
    pure (Model.checkbox el directive, true)
  else if el.tag = "input" && el.attribute? "type" = some "radio" then
    pure (Model.radio el directive, true)
  else if el.tag = "input" || el.tag = "textarea" then
    Model.reportConflict el
    pure (Model.input el directive, true)
  else if surroundings.platform.isReserved el.tag then
    Reported.error (.unsupportedModel el.tag directive.value) (el.rangeOf "v-model")
    pure (el, true)
  else pure (Model.component el directive, false)

end ViewTemplate.Rule
