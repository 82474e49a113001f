import ViewTemplate.Markup.Attribute
import ViewTemplate.Text.Quoted

/-! # Objects of properties

Names that are known go into an object, names that are expressions into a list that the runtime adds
to it.
-/

namespace ViewTemplate.Render

/-- An object of written entries, to which the runtime adds the computed ones, if there are any. -/
def objectWith (written computed : List String) : String :=
  let object := "\x7b" ++ ",".intercalate written ++ "\x7d"
  if computed.isEmpty then object else "_d(" ++ object ++ ",[" ++ ",".intercalate computed ++ "])"

/-- The object of some attributes or properties. -/
def properties (attributes : List Attribute) : String :=
  objectWith
    ((attributes.filter fun a => !a.dynamic).map fun a =>
      "\"" ++ a.name ++ "\":" ++ Text.escapeSeparators a.value)
    ((attributes.filter fun a => a.dynamic).map fun a =>
      a.name ++ "," ++ Text.escapeSeparators a.value)

end ViewTemplate.Render
