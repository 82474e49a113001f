import ViewTemplate.Element.Attributes
import ViewTemplate.Reported

/-! # Keys, references and components

What tells an element from its siblings, what it is referred to by, and which component it asks for.
-/

namespace ViewTemplate.Element

/-- Reports a key that does not do what it promises. -/
def reportKey (parentTag : Option String) (key : String) (el : Element) : Reported PUnit := do
  let range := el.bindingRange "key"
  Reported.onlyIf (el.tag = "template") (Reported.error .keyedTemplate range)
  el.loop.forM fun loop =>
    Reported.onlyIf
      (loop.iterator2.or loop.iterator1 = some key && parentTag = some "transition-group")
      (Reported.error .loopIndexAsKey range)

def readKey (parentTag : Option String) (el : Element) : Reported Element := do
  let (key, el) := el.takeBindingOrText "key"
  let key := key.filter (· ≠ "")
  key.forM fun key => reportKey parentTag key el
  pure { el with key := key.or el.key }

/-- An element with a key, slots or attributes left is not plain. -/
def markPlain (el : Element) : Element :=
  { el with plain := el.key.isNone && el.scopedSlots.isEmpty && el.pending.isEmpty }

def readRef (inLoop : Bool) (el : Element) : Element :=
  let (ref, el) := el.takeBindingOrText "ref"
  let ref := ref.filter (· ≠ "")
  { el with ref := ref.or el.ref, refInLoop := if ref.isSome then inLoop else el.refInLoop }

/-- Reads the name of the component that the element stands for, and the mark of a component whose
content is a template of its own. -/
def readComponent (el : Element) : Element :=
  let (component, el) := el.takeBindingOrText "is"
  let (mark, el) := el.take "inline-template"
  { el with
    component := (component.filter (· ≠ "")).or el.component
    inlineTemplate := mark.isSome || el.inlineTemplate }

end ViewTemplate.Element
