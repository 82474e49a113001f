import ViewTemplate.Element

/-! # What is written next for an element

An element is written from the outside to the inside: first what wraps it, then the element itself.
-/

namespace ViewTemplate.Render

/-- The wrappers of an element that have been written. -/
structure Written where
  hoist : Bool := false
  once : Bool := false
  loop : Bool := false
  choice : Bool := false
  deriving DecidableEq, Repr, Inhabited

/-- What is written for an element. -/
inductive Route
  | hoist
  | once
  | loop
  | choice
  | children
  | outlet
  | component
  | element
  deriving DecidableEq, Repr, Inhabited

namespace Route

/-- What is written for an element inside all its wrappers. Inside a hoisted verbatim region a
template is an element like any other. -/
def inside (verbatim : Bool) (el : Element) : Route :=
  if el.tag = "template" && el.slotTarget.isNone && !verbatim then .children
  else if el.tag = "slot" then .outlet
  else if el.component.isSome then .component
  else .element

/-- What is written next, after the wrappers that have been written. -/
def next (written : Written) (verbatim : Bool) (el : Element) : Route :=
  if el.staticRoot && !written.hoist then .hoist
  else if el.once && !written.once then .once
  else if el.loop.isSome && !written.loop then .loop
  else if el.choice.isSome && !written.choice then .choice
  else inside verbatim el

end Route

end ViewTemplate.Render
