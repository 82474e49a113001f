import ViewTemplate.Proofs.BalancedCode
import ViewTemplate.Proofs.MarkupNames
import ViewTemplate.Proofs.UnmarkedTree

/-! # Literal templates

Without directives and scopes an element says everything literally. It has no bindings then: whatever
it gives to the code is a quoted text, or a name that markup allows. Every step of building the tree
keeps it so.
-/

open List Option

namespace ViewTemplate

open Extension Reported

/-- An attribute that is no directive and gives no scope. -/
def Attribute.isLiteral (a : Attribute) : Bool :=
  !Spelling.isDirective a.name && a.name != "slot-scope" && a.name != "scope"

/-- Whether all attributes of an event are literal. -/
def Event.isLiteral : Event → Bool
  | .start _ attributes _ _ => attributes.all Attribute.isLiteral
  | _ => true

/-- Whether a node is a text that holds an interpolation. -/
def Node.isInterpolated : Node → Bool
  | .interpolated _ => true
  | _ => false

/-- A template that says everything literally: no attribute is a directive or gives a scope, and no text
holds an interpolation. -/
structure IsLiteralTemplate (template : String) : Prop where
  attributes : ∀ e ∈ Markup.events (Tree.markupSettings .web) template, e.isLiteral = true
  texts : ∀ node ∈ (Tree.ofTemplate .web template).value.nodes, node.isInterpolated = false

/-- Whether no attribute has a name that ends in a backslash, unless that is escaped itself. -/
def Event.isClosed : Event → Bool
  | .start _ attributes _ _ => attributes.all fun a => !Balanced.endsEscaped a.name.toList
  | _ => true

/-- The name of a literal attribute, which a literal can hold as it is. -/
structure IsLiteralName (name : String) : Prop where
  undirected : Spelling.isDirective name = false
  unscoped : name ≠ "slot-scope" ∧ name ≠ "scope"
  unquoted : '"' ∉ name.toList
  closed : Balanced.endsEscaped name.toList = false

/-- An entry of an object with a name that a literal can hold and a balanced value. -/
structure Attribute.IsEntry (a : Attribute) : Prop where
  static : a.dynamic = false
  unquoted : '"' ∉ a.name.toList
  closed : Balanced.endsEscaped a.name.toList = false
  value : Balanced.IsBalanced a.value

namespace Element

/-- What an element has from directives and scopes. -/
structure Directed where
  loop : Option Loop := none
  choice : Option Choice := none
  once : Bool := false
  slotScope : Option String := none
  dynamicAttributes : List Attribute := []
  events : Keyed (List Handler) := {}
  nativeEvents : Keyed (List Handler) := {}
  directives : List Directive := []
  classBinding : Option String := none
  styleBinding : Option String := none
  model : Option ModelBinding := none
  boundObject : Option BindingObject := none
  listenerObject : Option String := none

def directed (el : Element) : Directed where
  loop := el.loop
  choice := el.choice
  once := el.once
  slotScope := el.slotScope
  dynamicAttributes := el.dynamicAttributes
  events := el.events
  nativeEvents := el.nativeEvents
  directives := el.directives
  classBinding := el.classBinding
  styleBinding := el.styleBinding
  model := el.model
  boundObject := el.boundObject
  listenerObject := el.listenerObject

open ViewTemplate.Balanced (IsBalanced)

/-- An element that has nothing from directives, and expressions that are balanced. -/
structure IsLiteral (el : Element) : Prop where
  tag : ∀ c ∈ el.tag.toList, Markup.isNameChar c = true ∨ c = ':'
  pending : ∀ a ∈ el.pending, IsLiteralName a.name
  written : ∀ name value, el.attribute? name = some value → IsLiteralName name
  directed : el.directed = {}
  key : ∀ s ∈ el.key, IsBalanced s
  ref : ∀ s ∈ el.ref, IsBalanced s
  slotTarget : ∀ s ∈ el.slotTarget, IsBalanced s
  slotName : ∀ s ∈ el.slotName, IsBalanced s
  component : ∀ s ∈ el.component, IsBalanced s
  staticClass : ∀ s ∈ el.staticClass, IsBalanced s
  staticStyle : ∀ s ∈ el.staticStyle, IsBalanced s
  attributes : ∀ a ∈ el.attributes, a.IsEntry
  properties : ∀ a ∈ el.properties, a.IsEntry

namespace IsLiteral

variable {el : Element}

/-! ## Taking attributes -/

theorem take (h : el.IsLiteral) (name : String) : (el.take name).2.IsLiteral :=
  { h with pending := fun a ha => h.pending a ((Reads.take el name).pending ha) }

/-- There is no directive to take. -/
theorem take_directive (h : el.IsLiteral) {name : String} (hname : Spelling.isDirective name = true) :
    el.take name = (none, el) := by
  apply take_of_none
  cases hvalue : el.attribute? name with
  | none => rfl
  | some value =>
    rw [(h.written name value hvalue).undirected] at hname
    cases hname

/-- There is no scope to take. -/
theorem take_scope (h : el.IsLiteral) {name : String} (hname : name = "slot-scope" ∨ name = "scope") :
    el.take name = (none, el) := by
  apply take_of_none
  cases hvalue : el.attribute? name with
  | none => rfl
  | some value =>
    obtain ⟨hslot, hscope⟩ := (h.written name value hvalue).unscoped
    rcases hname with rfl | rfl
    · exact absurd rfl hslot
    · exact absurd rfl hscope

theorem takeBinding (h : el.IsLiteral) (name : String) : el.takeBinding name = (none, el) := by
  have hshort := h.take_directive (Spelling.isDirective_short name)
  have hlong := h.take_directive (Spelling.isDirective_long name)
  simp only [Element.takeBinding, hshort, hlong]
  rfl

/-- What is taken as a text is balanced. -/
theorem takeBindingOrText (h : el.IsLiteral) (name : String) :
    (el.takeBindingOrText name).2.IsLiteral ∧ ∀ s ∈ (el.takeBindingOrText name).1, IsBalanced s := by
  rw [Element.takeBindingOrText, h.takeBinding]
  refine ⟨h.take name, ?_⟩
  intro s hs
  obtain ⟨text, -, rfl⟩ := map_eq_some_iff.mp hs
  exact Balanced.isBalanced_quote text

theorem balanced_or {a b : Option String} (ha : ∀ s ∈ a, IsBalanced s) (hb : ∀ s ∈ b, IsBalanced s) :
    ∀ s ∈ a.or b, IsBalanced s := by
  intro s hs
  rcases or_eq_some_iff.mp hs with hs | ⟨-, hs⟩
  · exact ha s hs
  · exact hb s hs

theorem balanced_filter {a : Option String} {p : String → Bool} (ha : ∀ s ∈ a, IsBalanced s) :
    ∀ s ∈ a.filter p, IsBalanced s :=
  fun s hs => ha s (filter_eq_some_iff.mp hs).1

/-! ## Readings -/

section

variable (h : el.IsLiteral)
include h

theorem readVerbatim : el.readVerbatim.IsLiteral := { h.take "v-pre" with }

theorem keepLiterals : el.keepLiterals.IsLiteral := by
  refine { h with attributes := ?_ }
  simp only [Element.keepLiterals]
  split
  · exact h.attributes
  · rw [List.forall_mem_map]
    intro a ha
    have hname := h.pending a ha
    exact ⟨rfl, hname.unquoted, hname.closed, Balanced.isBalanced_quote a.value⟩

theorem readStructure : el.readStructure.value.IsLiteral := by
  have hloop : el.readLoop.value = el := by
    rw [readLoop, h.take_directive (by decide)]
    rfl
  have hbranch : el.readBranch.IsLiteral := by
    have hrest : ({ el with isElse := false } : Element).IsLiteral := { h with }
    rw [readBranch, h.take_directive (by decide)]
    dsimp only [isSome_none]
    rw [hrest.take_directive (by decide)]
    exact { h with }
  have hchoice : el.readChoice.IsLiteral := by
    rw [readChoice, h.take_directive (by decide)]
    exact hbranch
  have honce : el.readChoice.readOnce = el.readChoice := by
    rw [readOnce, hchoice.take_directive (by decide)]
    rfl
  have hvalue : el.readStructure.value = el.readChoice := by
    rw [← honce]
    exact congrArg (fun e => (readChoice e).readOnce) hloop
  rw [hvalue]
  exact hchoice

theorem readKey (parentTag : Option String) :
    (el.readKey parentTag).value.IsLiteral := by
  obtain ⟨hrest, hvalue⟩ := h.takeBindingOrText "key"
  exact { hrest with key := balanced_or (balanced_filter hvalue) hrest.key }

theorem readRef (inLoop : Bool) : (el.readRef inLoop).IsLiteral := by
  obtain ⟨hrest, hvalue⟩ := h.takeBindingOrText "ref"
  exact { hrest with ref := balanced_or (balanced_filter hvalue) hrest.ref }

theorem readScope : el.readScope.value.IsLiteral := by
  have hslot := h.take_scope (.inl rfl)
  have hscope := h.take_scope (.inr rfl)
  rw [Element.readScope]
  split
  · rw [readTemplateScope, hscope]
    dsimp only [filter_none]
    rw [hslot]
    refine { h with directed := ?_ }
    calc ({ el with slotScope := none } : Element).directed
        = { el.directed with slotScope := none } := rfl
      _ = {} := by rw [h.directed]
  · rw [readElementScope, hslot]
    exact h

theorem addAttribute {name value : String} (hname : '"' ∉ name.toList)
    (hclosed : Balanced.endsEscaped name.toList = false) (hvalue : IsBalanced value)
    (range : Option Range) : (el.addAttribute name value range false).IsLiteral := by
  have hentry : ({ name, value, range } : Attribute).IsEntry := ⟨rfl, hname, hclosed, hvalue⟩
  refine { h with attributes := ?_ }
  exact forall_mem_append.mpr ⟨h.attributes, forall_mem_singleton.mpr hentry⟩

theorem readSlotTarget : el.readSlotTarget.IsLiteral := by
  obtain ⟨hrest, hvalue⟩ := h.takeBindingOrText "slot"
  simp only [Element.readSlotTarget]
  split
  · exact hrest
  · rename_i target htarget
    have hbalanced := hvalue target (filter_eq_some_iff.mp htarget).1
    have hdefault : IsBalanced defaultSlot := by decide
    have hread (dynamic : Bool) : ({ (el.takeBindingOrText "slot").2 with
        slotTarget := some (if target = "\"\"" then defaultSlot else target)
        slotTargetDynamic := dynamic } : Element).IsLiteral := by
      refine { hrest with slotTarget := ?_ }
      rintro s ⟨⟩
      split
      · exact hdefault
      · exact hbalanced
    split
    · exact (hread _).addAttribute (by decide) (by decide) hbalanced _
    · exact hread _

/-- There is no slot directive to read. -/
theorem readSlotDirective (platform : Platform) (parentIsComponent : Option Bool) :
    ∃ rest : Element, rest.IsLiteral ∧
      (el.readSlotDirective platform parentIsComponent).value = (rest, none) := by
  have hnone : (el.pending.find? fun a => Spelling.isSlot a.name) = none := by
    rw [find?_eq_none]
    intro a ha hslot
    have hdirective := Spelling.isDirective_of_isSlot hslot
    rw [(h.pending a ha).undirected] at hdirective
    cases hdirective
  refine ⟨{ el with pending := el.pending.eraseP fun a => Spelling.isSlot a.name }, ?_, ?_⟩
  · exact { h with pending := fun a ha => h.pending a (mem_of_mem_eraseP ha) }
  · rw [Element.readSlotDirective, takeFirst, hnone]
    rfl

theorem readPlacement (platform : Platform) (parent : Option Element) (inLoop : Bool) :
    ∃ rest : Element, rest.IsLiteral ∧
      (Builder.readPlacement platform parent inLoop el).value = (rest, none) := by
  have hplain (e : Element) (he : e.IsLiteral) : e.markPlain.IsLiteral := { he with }
  have hkey := hplain _ (h.readKey (parent.map Element.tag))
  have hslot := (hkey.readRef inLoop).readScope.readSlotTarget
  simp only [Builder.readPlacement, readSlotContent, value_bind]
  exact hslot.readSlotDirective platform _

theorem readOutlet : el.readOutlet.value.IsLiteral := by
  obtain ⟨hrest, hvalue⟩ := h.takeBindingOrText "name"
  rw [Element.readOutlet]
  split
  · exact { hrest with slotName := hvalue }
  · exact h

theorem readComponent : el.readComponent.IsLiteral := by
  obtain ⟨hrest, hvalue⟩ := h.takeBindingOrText "is"
  have htaken := hrest.take "inline-template"
  exact { htaken with component := balanced_or (balanced_filter hvalue) htaken.component }

end

/-! ## Extensions and classification -/

/-- The code for a literal style is balanced. -/
theorem isBalanced_textObject (m : Keyed String) : IsBalanced (textObject m) := by
  have hcomma : IsBalanced "," := by decide
  have hcolon : IsBalanced ":" := by decide
  have hbraces : Balanced.Encloses .code "\x7b" "\x7d" := by decide
  apply (hcomma.intercalate ?_).enclosed hbraces
  rw [List.forall_mem_map]
  exact fun e _ =>
    ((Balanced.isBalanced_quote e.1).append hcolon).append (Balanced.isBalanced_quote e.2)

section

variable (h : el.IsLiteral) (surroundings : Surroundings)
include h

theorem readStatic {name : String} {cause : String → Cause} {code : String → String}
    {note : Option String → Element → Element} (hcode : ∀ value, IsBalanced (code value))
    (hnote : ∀ (c : Option String) {e : Element}, (∀ s ∈ c, IsBalanced s) → e.IsLiteral →
      (note c e).IsLiteral) :
    (Extension.readStatic name cause code note surroundings el).value.IsLiteral := by
  refine hnote _ (fun s hs => ?_) (h.take name)
  obtain ⟨value, -, rfl⟩ := map_eq_some_iff.mp hs
  exact hcode value

theorem readBound {name : String} {note : Option String → Element → Element}
    (hnote : ∀ e, note none e = e) : (Extension.readBound name note el).IsLiteral := by
  have hsame : Extension.readBound name note el = el := by
    rw [Extension.readBound, h.takeBinding]
    exact hnote el
  rw [hsame]
  exact h

theorem atEnd :
    (runAll Extension.atEnd Options.web.extensions surroundings el).value.IsLiteral := by
  apply foldlM_preserves IsLiteral
  · intro x hx e he
    rcases Options.eq_of_mem_web hx with rfl | rfl
    · have hread : (readStaticClass surroundings e).value.IsLiteral := by
        apply he.readStatic surroundings fun value => Balanced.isBalanced_quote _
        exact fun c e hc he => { he with staticClass := balanced_or hc he.staticClass }
      show (readClassBinding (readStaticClass surroundings e).value).IsLiteral
      apply hread.readBound
      exact fun _ => rfl
    · have hread : (readStaticStyle surroundings e).value.IsLiteral := by
        apply he.readStatic surroundings fun value => isBalanced_textObject _
        exact fun c e hc he => { he with staticStyle := balanced_or hc he.staticStyle }
      show (readStyleBinding (readStaticStyle surroundings e).value).IsLiteral
      apply hread.readBound
      exact fun _ => rfl
  · exact h

theorem addLiteral {a : Attribute} (ha : IsLiteralName a.name) :
    (el.addLiteral surroundings a).value.IsLiteral := by
  have hadded := h.addAttribute ha.unquoted ha.closed (Balanced.isBalanced_quote a.value) a.range
  have htrue : IsBalanced "true" := by decide
  simp only [Element.addLiteral, value_bind]
  split
  · refine { hadded with properties := ?_ }
    exact forall_mem_append.mpr ⟨hadded.properties,
      forall_mem_singleton.mpr ⟨rfl, ha.unquoted, ha.closed, htrue⟩⟩
  · exact hadded

theorem classifyAll (loopItems : List String) :
    (el.classifyAll surroundings loopItems).value.IsLiteral := by
  apply foldlM_preserves IsLiteral
  · intro a ha e he
    have hname := h.pending a ha
    have hrole : Spelling.role a.name = .literal := by
      rw [Spelling.role, hname.undirected]
      rfl
    rw [classify, hrole]
    exact he.addLiteral surroundings hname
  · exact h

end

theorem readContent (h : el.IsLiteral) (loopItems : List String) :
    (Builder.readContent .web loopItems el).value.IsLiteral := by
  simp only [Builder.readContent, value_bind]
  exact (h.readOutlet.readComponent.atEnd _).classifyAll _ loopItems

/-- The element of a start tag with literal attributes. -/
theorem ofTag {tag : String} {attributes : List Attribute} (hnamed : IsNamed tag attributes)
    (hattributes : ∀ a ∈ attributes, IsLiteralName a.name) (parent : Option NodeId) :
    (Element.ofTag tag attributes parent).IsLiteral where
  tag := hnamed.tag
  pending := hattributes
  written name value hvalue := by
    by_contra hname
    have hnone : (Element.ofTag tag attributes parent).attribute? name = none := by
      apply Keyed.get?_ofList_eq_none
      rw [List.forall_mem_map]
      rintro a ha rfl
      exact hname (hattributes a ha)
    rw [hnone] at hvalue
    cases hvalue
  directed := rfl
  key := fun s hs => nomatch hs
  ref := fun s hs => nomatch hs
  slotTarget := fun s hs => nomatch hs
  slotName := fun s hs => nomatch hs
  component := fun s hs => nomatch hs
  staticClass := fun s hs => nomatch hs
  staticStyle := fun s hs => nomatch hs
  attributes := forall_mem_nil _
  properties := forall_mem_nil _

end IsLiteral

end Element

/-- A node of a template with literal attributes. -/
def Node.IsLiteral : Node → Prop
  | .element el => el.IsLiteral
  | .interpolated _ => True
  | .plain _ => True

/-- A tree of a template with literal attributes. -/
abbrev Tree.IsLiteral (tree : Tree) : Prop := tree.Throughout Node.IsLiteral

namespace Builder

variable {b : Builder}

/-! ## Closing an element -/

/-- Only an element with a choice takes a branch, and there is none. -/
theorem allowsLinks_literal : Tree.AllowsLinks fun tree later => tree.IsLiteral → later.IsLiteral where
  refl _ h := h
  trans h h' hliteral := h' (h hliteral)
  links _ id _ _ _ h := h.update id fun _ _ hel => { hel with }
  branch _ id branch h := h.update id fun el _ hel => by
    rw [Element.addBranch_of_none (congrArg Element.Directed.choice (Element.IsLiteral.directed hel))]
    exact hel

/-- No slot is filled, so reading changes the element and nothing else. -/
theorem literal_readElement {tree : Tree} (h : tree.IsLiteral) (id : NodeId) :
    (readElement .web id tree).value.IsLiteral := by
  rw [readElement]
  split
  · exact h
  · rename_i el hel
    generalize ((tree.ancestors id).filterMap fun e => e.2.loop) = loops
    obtain ⟨rest, hrest, hvalue⟩ := (h.element hel).readPlacement Options.web.platform
      (el.parent.bind tree.element?) (!loops.isEmpty)
    have hset := h.set id (.element rest) hrest
    rw [value_bind, hvalue]
    dsimp only
    split
    · exact hset
    · rename_i placed hplaced
      exact hset.set id (.element _) (Element.IsLiteral.readContent (hset.element hplaced) _)

theorem literal_finishReading (h : b.tree.IsLiteral) (id : NodeId) :
    (b.finishReading .web id).value.tree.IsLiteral := by
  rw [finishReading]
  split
  · exact h
  · exact literal_readElement h id

theorem literal_finishElement (h : b.tree.IsLiteral) (id : NodeId) :
    (b.finishElement .web id).value.tree.IsLiteral := by
  rw [tree_finishElement]
  exact h.update id fun _ _ hel => hel

theorem literal_close (h : b.tree.IsLiteral) (id : NodeId) :
    (b.close .web id).value.tree.IsLiteral := by
  rw [value_close]
  have hread := literal_finishReading (related_trimChildren allowsLinks_literal id b h) id
  exact literal_finishElement (related_placed allowsLinks_literal .web id b hread) id

/-! ## Events -/

theorem literal_entered {tag : String} {attributes : List Attribute} (hnamed : IsNamed tag attributes)
    (hattributes : ∀ a ∈ attributes, IsLiteralName a.name) (range : Range) (b : Builder) :
    (b.entered .web tag attributes range).IsLiteral := by
  have hbare : (b.bare .web tag attributes range).IsLiteral :=
    { Element.IsLiteral.ofTag hnamed hattributes b.parent? with }
  have hnew : (b.newElement .web tag attributes range).value = b.bare .web tag attributes range := by
    rw [value_newElement]
    rfl
  rw [entered, hnew]
  simp only [enter]
  have hread : (if b.inVerbatim then b.bare .web tag attributes range
      else (b.bare .web tag attributes range).readVerbatim).IsLiteral := by
    split
    · exact hbare
    · exact hbare.readVerbatim
  generalize (if b.inVerbatim then b.bare .web tag attributes range
    else (b.bare .web tag attributes range).readVerbatim) = el at hread
  split
  · exact hread.keepLiterals
  · split
    · exact hread
    · exact hread.readStructure

/-- An event that is literal leaves the tree literal. -/
theorem literal_step (h : b.tree.IsLiteral) {e : Event} (hnamed : e.IsNamed)
    (hliteral : e.isLiteral = true) (hclosed : e.isClosed = true) (template : String) :
    (b.step .web template e).value.tree.IsLiteral := by
  have hopened {tag attributes unary range} (he : e = .start tag attributes unary range) :
      (b.opened .web tag attributes range).tree.IsLiteral := by
    subst he
    simp only [Event.isLiteral, Event.isClosed, Attribute.isLiteral, List.all_eq_true,
      Bool.and_eq_true, Bool.not_eq_true', bne_iff_ne] at hliteral hclosed
    refine (h.add (.element _) (literal_entered hnamed ?_ range b)).of_nodes (nodes_opened ..)
    intro a ha
    obtain ⟨⟨hundirected, hslot⟩, hscope⟩ := hliteral a ha
    refine ⟨hundirected, ⟨hslot, hscope⟩, ?_, hclosed a ha⟩
    rcases hnamed.attributes a ha with hdirective | hchars
    · rw [hundirected] at hdirective
      cases hdirective
    · intro hquote
      exact absurd (hchars _ hquote) (by decide)
  have hsteps := steps_step .web template b e
  generalize (b.step .web template e).value = later at hsteps ⊢
  cases hsteps with
  | opens tag attributes range => exact hopened rfl
  | closes hclosing =>
    refine literal_close ?_ _
    cases hclosing with
    | unary tag attributes range => exact hopened rfl
    | finish tag range hstack => exact h.update _ fun _ _ hel => { hel with }
  | @appends _ _ id node _ _ _ _ hnode _ htree =>
    rw [htree]
    refine Tree.Throughout.update (h.add node ?_) id fun _ _ hel => { hel with }
    cases node with
    | element el => cases hnode.element?
    | interpolated t => trivial
    | plain t => trivial
  | stays _ _ htree =>
    rw [htree]
    exact h

end Builder

/-- The tree of a template with literal attributes is literal. -/
theorem Tree.literal_ofTemplate {template : String}
    (hliteral : ∀ e ∈ Markup.events (markupSettings .web) template, e.isLiteral = true)
    (hclosed : ∀ e ∈ Markup.events (markupSettings .web) template, e.isClosed = true) :
    (ofTemplate .web template).value.IsLiteral := by
  have hnamed := Markup.isNamed_events (markupSettings .web) template
  apply foldlM_preserves fun b : Builder => b.tree.IsLiteral
  · intro e he b hb
    exact Builder.literal_step hb (hnamed e he) (hliteral e he) (hclosed e he) template
  · intro id node hnode
    cases hnode

end ViewTemplate
