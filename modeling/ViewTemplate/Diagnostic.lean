import ViewTemplate.Text.Cut

/-! # Ranges and diagnostics

A diagnostic has a cause, which fixes its wording, a level and possibly a range of the template.
Compilation never stops at a diagnostic.
-/

namespace ViewTemplate

/-- A stretch of source text, by the byte offsets of its ends. -/
structure Range where
  start : Nat
  stop : Nat
  deriving DecidableEq, Repr, Inhabited

namespace Range

/-- The empty range at the start of a range. -/
def atStart (r : Range) : Range := ⟨r.start, r.start⟩

def shift (offset : Nat) (r : Range) : Range := ⟨r.start + offset, r.stop + offset⟩

/-- The text that a range covers, where its ends lie between characters of the source. -/
def slice (r : Range) (source : String) : Option String := do
  let (_, rest) ← Text.splitAtByte? source.toList r.start
  if r.stop < r.start then none
  else
    let (inside, _) ← Text.splitAtByte? rest (r.stop - r.start)
    pure (String.ofList inside)

end Range

/-- Whether a diagnostic reports a fault of the template or a suggestion. -/
inductive Level
  | error
  | tip
  deriving DecidableEq, Repr, Inhabited

/-- What a diagnostic is about. -/
inductive Cause
  | invalidAttributeName
  | sideEffectTag (tag : String)
  | slotAttributeScope
  | ambiguousScopeAndLoop (tag : String)
  | mixedSlotSyntax
  | misplacedSlotTemplate
  | slotOnPlainElement
  | scopeAmbiguity
  | unnamedSlotShorthand
  | keyedTemplate
  | loopIndexAsKey
  | keyedOutlet
  | invalidLoop (expression : String)
  | severalRoots
  | textRoot
  | textOutsideRoot (text : String)
  | multipleNodeRoot (tag : String)
  | loopedRoot
  | orphanElse (tag : String) (guard : Option String)
  | ignoredText (text : String)
  | interpolatedAttribute (name value : String)
  | interpolatedClass (value : String)
  | interpolatedStyle (value : String)
  | emptyBinding (name : String)
  | modelOnLoopAlias (tag value : String)
  | passivePrevent
  | listenersWithModifiers
  | fileInputModel (tag value : String)
  | unsupportedModel (tag value : String)
  | conflictingValue (binding value : String)
  | unkeyedComponentList (tag item source : String)
  | onceInUnkeyedLoop
  | inlineTemplateChildren
  | custom (text : String)
  deriving DecidableEq, Repr, Inhabited

/-- Advice shared by the messages on interpolation in attributes. -/
def Cause.interpolationAdvice (name value sample : String) : String :=
  name ++ "=\"" ++ value ++ "\": Interpolation inside attributes has been removed. Use v-bind or the " ++
      "colon shorthand instead. For example, instead of <div " ++ sample ++ "=\"\x7b\x7b val \x7d\x7d\">, " ++
      "use <div :" ++ sample ++ "=\"val\">."

/-- The wording of each cause. -/
def Cause.message : Cause → String
  | .invalidAttributeName =>
    "Invalid dynamic argument expression: attribute names cannot contain spaces, quotes, <, >, / or =."
  | .sideEffectTag tag =>
    "Templates should only be responsible for mapping the state to the UI. Avoid placing tags with " ++
      "side-effects in your templates, such as <" ++ tag ++ ">, as they will not be parsed."
  | .slotAttributeScope =>
    "the \"scope\" attribute for scoped slots have been deprecated and replaced by \"slot-scope\" " ++
      "since 2.5. The new \"slot-scope\" attribute can also be used on plain elements in addition to " ++
      "<template> to denote scoped slots."
  | .ambiguousScopeAndLoop tag =>
    "Ambiguous combined usage of slot-scope and v-for on <" ++ tag ++ "> (v-for takes higher " ++
      "priority). Use a wrapper <template> for the scoped slot to make it clearer."
  | .mixedSlotSyntax => "Unexpected mixed usage of different slot syntaxes."
  | .misplacedSlotTemplate =>
    "<template v-slot> can only appear at the root level inside the receiving component"
  | .slotOnPlainElement => "v-slot can only be used on components or <template>."
  | .scopeAmbiguity =>
    "To avoid scope ambiguity, the default slot should also use <template> syntax when there are " ++
      "other named slots."
  | .unnamedSlotShorthand => "v-slot shorthand syntax requires a slot name."
  | .keyedTemplate => "<template> cannot be keyed. Place the key on real elements instead."
  | .loopIndexAsKey =>
    "Do not use v-for index as key on <transition-group> children, this is the same as not using keys."
  | .keyedOutlet =>
    "`key` does not work on <slot> because slots are abstract outlets and can possibly expand into " ++
      "multiple elements. Use the key on a wrapping element instead."
  | .invalidLoop expression => "Invalid v-for expression: " ++ expression
  | .severalRoots =>
    "Component template should contain exactly one root element. If you are using v-if on multiple " ++
      "elements, use v-else-if to chain them instead."
  | .textRoot => "Component template requires a root element, rather than just text."
  | .textOutsideRoot text => "text \"" ++ text ++ "\" outside root element will be ignored."
  | .multipleNodeRoot tag =>
    "Cannot use <" ++ tag ++ "> as component root element because it may contain multiple nodes."
  | .loopedRoot =>
    "Cannot use v-for on stateful component root element because it renders multiple elements."
  | .orphanElse tag guard =>
    "v-" ++ (match guard with
      | some g => "else-if=\"" ++ g ++ "\""
      | none => "else") ++ " used on element <" ++ tag ++ "> without corresponding v-if."
  | .ignoredText text => "text \"" ++ text ++ "\" between v-if and v-else(-if) will be ignored."
  | .interpolatedAttribute name value => interpolationAdvice name value "id"
  | .interpolatedClass value => interpolationAdvice "class" value "class"
  | .interpolatedStyle value => interpolationAdvice "style" value "style"
  | .emptyBinding name =>
    "The value for a v-bind expression cannot be empty. Found in \"v-bind:" ++ name ++ "\""
  | .modelOnLoopAlias tag value =>
    "<" ++ tag ++ " v-model=\"" ++ value ++ "\">: You are binding v-model directly to a v-for " ++
      "iteration alias. This will not be able to modify the v-for source array because writing to the " ++
      "alias is like modifying a function local variable. Consider using an array of objects and use " ++
      "v-model on an object property instead."
  | .passivePrevent =>
    "passive and prevent can't be used together. Passive handler can't prevent default event."
  | .listenersWithModifiers => "v-on without argument does not support modifiers."
  | .fileInputModel tag value =>
    "<" ++ tag ++ " v-model=\"" ++ value ++ "\" type=\"file\">:\nFile inputs are read only. Use a " ++
      "v-on:change listener instead."
  | .unsupportedModel tag value =>
    "<" ++ tag ++ " v-model=\"" ++ value ++ "\">: v-model is not supported on this element type. If " ++
      "you are working with contenteditable, it's recommended to wrap a library dedicated for that " ++
      "purpose inside a custom component."
  | .conflictingValue binding value =>
    binding ++ "=\"" ++ value ++ "\" conflicts with v-model on the same element because the latter " ++
      "already expands to a value binding internally"
  | .unkeyedComponentList tag item source =>
    "<" ++ tag ++ " v-for=\"" ++ item ++ " in " ++ source ++ "\">: component lists rendered with " ++
      "v-for should have explicit keys. See https://v2.vuejs.org/v2/guide/list.html#key for more info."
  | .onceInUnkeyedLoop => "v-once can only be used inside v-for that is keyed. "
  | .inlineTemplateChildren => "Inline-template components must have exactly one child element."
  | .custom text => text

/-- A report about the template. -/
structure Diagnostic where
  cause : Cause
  range : Option Range
  level : Level
  deriving DecidableEq, Repr, Inhabited

namespace Diagnostic

def message (d : Diagnostic) : String := d.cause.message

def isTip (d : Diagnostic) : Bool := d.level == .tip

def shift (offset : Nat) (d : Diagnostic) : Diagnostic :=
  { d with range := d.range.map (Range.shift offset) }

/-- One line: the message, and the offsets where there is a range. -/
def describe (d : Diagnostic) : String :=
  match d.range with
  | some r => d.message ++ " @" ++ toString r.start ++ ":" ++ toString r.stop
  | none => d.message

/-- Up to `width` characters of the source on each side of the start of the range. -/
def context (d : Diagnostic) (source : String) (width : Nat) : Option (String × String) := do
  let range ← d.range
  let (before, rest) ← Text.splitAtByte? source.toList range.start
  pure (String.ofList (before.drop (before.length - width)), String.ofList (rest.take width))

/-- The message with the source around the start of the range. -/
def inContext (d : Diagnostic) (source : String) : String :=
  match d.context source 40 with
  | some (before, rest) =>
    d.message ++ " (\"" ++ before ++ (match d.level with
      | .tip => "[TIP ->]"
      | .error => "[ERROR ->]") ++ rest ++ "\")"
  | none => d.message

/-- Errors and tips, each in report order. -/
def split (ds : List Diagnostic) : List Diagnostic × List Diagnostic :=
  (ds.filter fun d => !d.isTip, ds.filter isTip)

end Diagnostic

end ViewTemplate
