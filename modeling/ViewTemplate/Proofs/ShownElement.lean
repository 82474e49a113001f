import ViewTemplate.Compile

/-! # What an element shows

The code of a template depends on an element by what has been read from its attributes, not by where
they stand in the source and, but for a few look-ups, not by the attributes themselves. What an
element shows is the rest: the element without places and without its attributes as they are written.
-/

open List

namespace ViewTemplate

/-- The attribute without its place. -/
def Attribute.unplaced (a : Attribute) : Attribute := { a with range := none }

/-- The handler without its place. -/
def Handler.unplaced (h : Handler) : Handler := { h with range := none }

/-- The directive without its place. -/
def Directive.unplaced (d : Directive) : Directive := { d with range := none }

/-- The listener without its place. -/
def Listener.unplaced (l : Listener) : Listener := { l with range := none }

/-- Handlers by event, without their places. -/
def Keyed.unplaced (events : Keyed (List Handler)) : Keyed (List Handler) :=
  events.map (List.map Handler.unplaced)

namespace Element

/-- The element without places and without what is written in its start tag. -/
def shown (el : Element) : Element :=
  { el with
    pending := []
    written := {}
    source := {}
    range := el.range.map fun _ => default
    attributes := el.attributes.map Attribute.unplaced
    dynamicAttributes := el.dynamicAttributes.map Attribute.unplaced
    properties := el.properties.map Attribute.unplaced
    events := el.events.unplaced
    nativeEvents := el.nativeEvents.unplaced
    directives := el.directives.map Directive.unplaced }

end Element

namespace Keyed

variable {α β : Type}

theorem get?_map (f : α → β) (m : Keyed α) (key : String) : (m.map f).get? key = (m.get? key).map f := by
  obtain ⟨entries, distinct⟩ := m
  simp only [get?, map]
  clear distinct
  induction entries with
  | nil => rfl
  | cons e es ih =>
    rw [map_cons, lookup_cons, lookup_cons]
    split
    · rfl
    · exact ih

theorem map_insert (f : α → β) (m : Keyed α) (key : String) (value : α) :
    (m.insert key value).map f = (m.map f).insert key (f value) := by
  apply ext
  obtain ⟨entries, distinct⟩ := m
  simp only [map, entries_insert]
  clear distinct
  induction entries with
  | nil => rfl
  | cons e es ih =>
    rw [put, map_cons, put]
    split
    · rfl
    · rw [map_cons, ih]

end Keyed

namespace Listener

theorem insertInto_unplaced (l : Listener) (events : Keyed (List Handler)) :
    (l.insertInto events).unplaced = l.unplaced.insertInto events.unplaced := by
  have hget : (events.unplaced.get? l.registered.1).getD [] =
      ((events.get? l.registered.1).getD []).map Handler.unplaced := by
    rw [Keyed.unplaced, Keyed.get?_map]
    cases events.get? l.registered.1 <;> rfl
  have hregistered : l.unplaced.registered = l.registered := rfl
  have hhandler : l.unplaced.handler = l.handler.unplaced := rfl
  have himportant : l.unplaced.important = l.important := rfl
  rw [insertInto, insertInto, hregistered, hget, hhandler, himportant, Keyed.unplaced, Keyed.map_insert]
  congr 1
  split
  · rfl
  · exact map_append

end Listener

namespace Element

@[simp] theorem shown_addProperty (el : Element) (name value : String) (range : Option Range)
    (dynamic : Bool) :
    (el.addProperty name value range dynamic).shown = el.shown.addProperty name value none dynamic := by
  simp [addProperty, shown, Attribute.unplaced]

@[simp] theorem shown_addAttribute (el : Element) (name value : String) (range : Option Range)
    (dynamic : Bool) :
    (el.addAttribute name value range dynamic).shown = el.shown.addAttribute name value none dynamic := by
  cases dynamic with
  | true => simp [addAttribute, shown, Attribute.unplaced]
  | false => simp [addAttribute, shown, Attribute.unplaced]

@[simp] theorem shown_addDirective (el : Element) (d : Directive) :
    (el.addDirective d).shown = el.shown.addDirective d.unplaced := by
  simp [addDirective, shown]

@[simp] theorem shown_addListener (el : Element) (l : Listener) :
    (el.addListener l).shown = el.shown.addListener l.unplaced := by
  have hnative : l.unplaced.isNative = l.isNative := rfl
  rw [addListener, addListener, hnative]
  split
  · simp [shown, Listener.insertInto_unplaced]
  · simp [shown, Listener.insertInto_unplaced]

end Element

end ViewTemplate
