import ViewTemplate.Markup.Tag

/-! # Platforms

What a compiler needs to know about the tags and attributes of the platform that renders a template.
-/

namespace ViewTemplate

/-- Tag and attribute knowledge of a platform. -/
structure Platform where
  /-- The tag never has content or an end tag. -/
  isUnary : String → Bool := fun _ => false
  /-- The element ends where a sibling of the same name starts. -/
  canBeLeftOpen : String → Bool := fun _ => false
  /-- The tag belongs to the platform; any other is a component. -/
  isReserved : String → Bool := fun _ => false
  /-- Tag, value of the `type` attribute and name: the attribute is set as a property. -/
  mustUseProperty : String → Option String → String → Bool := fun _ _ _ => false
  namespaceOf : String → Option String := fun _ => none
  /-- White space inside the element is kept. -/
  isPre : String → Bool := fun _ => false

namespace Platform

/-- The platform that knows no tag. -/
def bare : Platform := {}

/-- The document object model of browsers. -/
def web : Platform where
  isUnary := Tag.isVoid
  canBeLeftOpen := Tag.isLeftOpen
  isReserved tag := Tag.isHtml tag || Tag.isSvg tag
  mustUseProperty tag type name :=
    if name = "value" then
      ["input", "textarea", "option", "select", "progress"].contains tag && type != some "button"
    else if name = "selected" then tag == "option"
    else if name = "checked" then tag == "input"
    else name == "muted" && tag == "video"
  namespaceOf tag :=
    if Tag.isSvg tag then some "svg" else if tag = "math" then some "math" else none
  isPre tag := tag == "pre"

end Platform

end ViewTemplate
