import ViewTemplate.Element.Attributes
import ViewTemplate.Expression.Declarations
import ViewTemplate.Extension

/-! # Inline styles

The literal `style` attribute is kept as an object of its declarations, its binding as an expression.
-/

namespace ViewTemplate.Extension

/-- An object with text values. -/
def textObject (m : Keyed String) : String :=
  "\x7b" ++ ",".intercalate (m.entries.map fun e => Text.quote e.1 ++ ":" ++ Text.quote e.2) ++ "\x7d"

/-- The literal style of an element. -/
def readStaticStyle : Surroundings → Element → Reported Element :=
  readStatic "style" .interpolatedStyle (fun value => textObject (Declarations.read value)) fun s el =>
    { el with staticStyle := s.or el.staticStyle }

/-- The bound style of an element. -/
def readStyleBinding : Element → Element :=
  readBound "style" fun s el => { el with styleBinding := s.or el.styleBinding }

/-- The extension for `style`. -/
def inlineStyle : Extension where
  name := "style"
  staticKeys := ["staticStyle"]
  atEnd surroundings el := do
    let el ← readStaticStyle surroundings el
    pure (readStyleBinding el)
  data el :=
    (el.staticStyle.map fun s => "staticStyle:" ++ s).toList ++
      (el.styleBinding.map fun s => "style:(" ++ s ++ ")").toList

end ViewTemplate.Extension
