import ViewTemplate.Element.Attributes
import ViewTemplate.Extension

/-! # Class lists

The literal `class` attribute is kept as a quoted text with single spaces, its binding as an
expression.
-/

namespace ViewTemplate.Extension

/-- The code for a literal class list. -/
def classCode (value : String) : String :=
  Text.quote (Text.onChars (fun s => Text.trim (Text.condense Text.isBlank s)) value)

/-- The literal class list of an element. -/
def readStaticClass : Surroundings → Element → Reported Element :=
  readStatic "class" .interpolatedClass classCode fun c el =>
    { el with staticClass := c.or el.staticClass }

/-- The bound class list of an element. -/
def readClassBinding : Element → Element :=
  readBound "class" fun c el => { el with classBinding := c.or el.classBinding }

/-- The extension for `class`. -/
def classList : Extension where
  name := "class"
  staticKeys := ["staticClass"]
  atEnd surroundings el := do
    let el ← readStaticClass surroundings el
    pure (readClassBinding el)
  data el :=
    (el.staticClass.map fun c => "staticClass:" ++ c).toList ++
      (el.classBinding.map fun c => "class:" ++ c).toList

end ViewTemplate.Extension
