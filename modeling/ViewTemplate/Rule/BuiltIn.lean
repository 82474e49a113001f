import ViewTemplate.Rule.Model

/-! # Built-in directives

Rules for the directives that need no runtime: content set as a property, and bindings and listeners
given by an object.
-/

namespace ViewTemplate.Rule

/-- Sets a property to the text of the value, unless there is none. -/
def content (property : String) : Rule := fun _ el directive =>
  pure (if directive.value = "" then el
    else el.addProperty property ("_s(" ++ directive.value ++ ")") directive.range false, false)

/-- The rule for `v-text`. -/
def text : Rule := content "textContent"

/-- The rule for `v-html`. -/
def html : Rule := content "innerHTML"

/-- The rule for `v-on` without an argument. -/
def on : Rule := fun _ el directive => do
  Reported.onlyIf directive.modifiers.isSome
    (Reported.error .listenersWithModifiers directive.range)
  pure ({ el with listenerObject := some directive.value }, false)

/-- The rule for `v-bind` without an argument. -/
def bind : Rule := fun _ el directive =>
  pure ({ el with
    boundObject := some {
      value := directive.value
      asProperties := hasModifier directive.modifiers "prop"
      sync := hasModifier directive.modifiers "sync" } }, false)

/-- The rule for `v-cloak`, which matters to style sheets only. -/
def cloak : Rule := fun _ el _ => pure (el, false)

/-- Rules that hold on every platform. -/
def universal : Rules := Keyed.ofList [("on", on), ("bind", bind), ("cloak", cloak)]

/-- Rules for documents. -/
def web : Rules := Keyed.ofList [("model", model), ("text", text), ("html", html)]

theorem forall_universal {P : Rule → Prop} (hon : P on) (hbind : P bind) (hcloak : P cloak) :
    ∀ rule ∈ universal.values, P rule := by
  have hvalues : universal.values = [on, bind, cloak] := rfl
  simp [hvalues, hon, hbind, hcloak]

theorem forall_web {P : Rule → Prop} (hmodel : P model) (hcontent : ∀ name, P (content name)) :
    ∀ rule ∈ web.values, P rule := by
  have hvalues : web.values = [model, content "textContent", content "innerHTML"] := rfl
  simp [hvalues, hmodel, hcontent]

/-- All built-in rules. -/
def builtIn : Rules := Rules.layered universal web

end ViewTemplate.Rule
