import ViewTemplate.Proofs.StaticMarks

/-! # Trees are built without marks

A tree under construction has no static marks. Without `v-once` and `v-pre` in the template it also
has no element that is rendered once or opens a verbatim region.
-/

namespace ViewTemplate

/-- Whether an event brings an attribute of the given name. -/
def Event.brings (name : String) : Event → Bool
  | .start _ attributes _ _ => attributes.any fun a => a.name == name
  | _ => false

/-- Whether an attribute of the given name is used in a template. -/
def Markup.uses (settings : Markup.Settings) (template name : String) : Bool :=
  (Markup.events settings template).any (Event.brings name)

namespace Element

/-- What sets an element apart when it is rendered. -/
structure Flags where
  pre : Bool := false
  once : Bool := false
  isStatic : Bool := false
  staticRoot : Bool := false
  staticInLoop : Bool := false

def Identity.flags (i : Identity) : Flags where
  pre := i.pre
  once := i.once
  isStatic := i.isStatic
  staticRoot := i.staticRoot
  staticInLoop := i.staticInLoop

def flags (el : Element) : Flags := el.identity.flags

/-- Where an element stops is no part of its identity. -/
theorem identity_stop (el : Element) (stop : Nat) :
    ({ el with range := el.range.map fun r => { r with stop } } : Element).identity =
      el.identity := by
  have hstart : (el.range.map fun r => { r with stop }).map Range.start =
      el.range.map Range.start := by
    cases el.range <;> rfl
  exact congrArg (fun start => { el.identity with start }) hstart

/-- The static marks of an element. -/
structure Marks where
  isStatic : Bool := false
  staticRoot : Bool := false
  staticInLoop : Bool := false

def Identity.marks (i : Identity) : Marks where
  isStatic := i.isStatic
  staticRoot := i.staticRoot
  staticInLoop := i.staticInLoop

def Flags.marks (f : Flags) : Marks where
  isStatic := f.isStatic
  staticRoot := f.staticRoot
  staticInLoop := f.staticInLoop

def marks (el : Element) : Marks := el.identity.marks

theorem unmarked_of_marks {el : Element} (h : el.marks = {}) : el.unmarked = el := by
  have hstatic : el.isStatic = false := congrArg Marks.isStatic h
  have hroot : el.staticRoot = false := congrArg Marks.staticRoot h
  have hloop : el.staticInLoop = false := congrArg Marks.staticInLoop h
  cases el
  cases hstatic
  cases hroot
  cases hloop
  rfl

/-- An element without the attributes that ask for one-time or verbatim rendering. -/
structure Ordinary (el : Element) : Prop where
  once : el.attribute? "v-once" = none
  pre : el.attribute? "v-pre" = none

theorem take_of_none {el : Element} {name : String} (h : el.attribute? name = none) :
    el.take name = (none, el) := by
  rw [take, h]

theorem readVerbatim_of_none {el : Element} (h : el.attribute? "v-pre" = none) :
    el.readVerbatim = el := by
  rw [readVerbatim, take_of_none h]
  rfl

theorem readStructure_of_none {el : Element} (h : el.attribute? "v-once" = none) :
    el.readStructure.value = el.readLoop.value.readChoice := by
  have hnone := (((Reads.readLoop el).trans (Reads.readChoice _)).attribute?_eq "v-once").trans h
  show el.readLoop.value.readChoice.readOnce = _
  rw [readOnce, take_of_none hnone]
  rfl

theorem Ordinary.flags_readStructure {el : Element} (h : el.Ordinary) :
    el.readStructure.value.flags = el.flags := by
  rw [readStructure_of_none h.once]
  exact congrArg (fun f => f.identity.flags) el.readLoop.value.frame_readChoice

end Element

/-- A new node has no marks, and if it is an element, the given value. -/
def Node.isPlainSeen {β : Type} (value : β) : Node ⊕ β → Prop
  | .inl node => node.unmarked = node
  | .inr seen => seen = value

namespace Builder

open ViewTemplate.Tree Element

variable {options : Options} {template : String}

theorem flags_enter (options : Options) {el : Element} (h : el.Ordinary) (b : Builder) :
    (b.enter options el).value.1.flags = el.flags := by
  simp only [enter, readVerbatim_of_none h.pre, ite_self]
  split
  · rfl
  · split
    · rfl
    · exact h.flags_readStructure

/-- One event adds nodes of certain kinds, and changes no value of an identity that extensions
keep. -/
theorem keeps_event {β : Type} {g : Identity → β} {fresh : Node ⊕ β → Prop}
    (hkeeps : ∀ x ∈ options.extensions, x.Keeps fun el => g el.identity)
    (hcontainer : fresh (.inr (g Identity.container)))
    (htext : ∀ node : Node, node.element? = none → node.unmarked = node → fresh (node.seen g))
    {e : Event} (hentered : ∀ tag attributes unary range, e = .start tag attributes unary range →
      ∀ b : Builder, fresh (.inr (g (b.entered options tag attributes range).identity)))
    (b : Builder) : Keeps g fresh b.tree (b.step options template e).value.tree := by
  have hopened {tag attributes unary range} (he : e = .start tag attributes unary range) :
      Keeps g fresh b.tree (b.opened options tag attributes range).tree := by
    refine Keeps.trans (.add ?_) (.of_nodes_eq (nodes_opened options tag attributes range b))
    exact hentered tag attributes unary range he b
  have hsteps := steps_step options template b e
  generalize (b.step options template e).value = later at hsteps ⊢
  cases hsteps with
  | opens tag attributes range => exact hopened rfl
  | closes hclosing =>
    refine Keeps.trans ?_ (keeps_close hkeeps hcontainer _ _)
    cases hclosing with
    | unary tag attributes range => exact hopened rfl
    | finish tag range hstack =>
      exact .update _ _ fun el => congrArg g (el.identity_stop range.stop)
  | appends _ _ hnode _ htree =>
    rw [htree]
    exact keeps_appendNode _ (htext _ hnode.element? hnode.unmarked) b.tree
  | stays _ _ htree =>
    rw [htree]
    exact .refl _

section

variable {β : Type} {g : Identity → β} {value : β}
  (hkeeps : ∀ x ∈ options.extensions, x.Keeps fun el => g el.identity)
  (hcontainer : g Identity.container = value)
include hkeeps hcontainer

/-- One event adds nodes without marks, and changes no value of an identity that extensions keep and
that new elements start with. -/
theorem keeps_step {e : Event}
    (hentered : ∀ tag attributes unary range, e = .start tag attributes unary range →
      ∀ b : Builder, g (b.entered options tag attributes range).identity = value) (b : Builder) :
    Keeps g (Node.isPlainSeen value) b.tree (b.step options template e).value.tree := by
  refine keeps_event hkeeps hcontainer (fun node htext hplain => ?_) hentered b
  cases node with
  | element el => cases htext
  | interpolated t => exact hplain
  | plain t => exact hplain

theorem keeps_foldlM (events : List Event)
    (hentered : ∀ tag attributes unary range, .start tag attributes unary range ∈ events →
      ∀ b : Builder, g (b.entered options tag attributes range).identity = value) (b : Builder) :
    Keeps g (Node.isPlainSeen value) b.tree
      (events.foldlM (step options template) b).value.tree := by
  induction events generalizing b with
  | nil => exact .refl _
  | cons e events ih =>
    rw [List.foldlM_cons, Reported.value_bind]
    refine Keeps.trans (keeps_step hkeeps hcontainer ?_ b) (ih ?_ _)
    · rintro tag attributes unary range rfl
      exact hentered tag attributes unary range List.mem_cons_self
    · intro tag attributes unary range he
      exact hentered tag attributes unary range (List.mem_cons_of_mem e he)

end

section Hooks

variable (hflags : ∀ x ∈ options.extensions, x.Keeps Element.flags)
  (hordinary : ∀ x ∈ options.extensions, ∀ surroundings el, el.Ordinary →
    (x.atStart surroundings el).value.Ordinary)
include hflags hordinary

/-- An element goes into the tree without flags. -/
theorem flags_entered {tag : String} {attributes : List Attribute} {unary : Bool} {range : Range}
    (honce : (Event.start tag attributes unary range).brings "v-once" = false)
    (hpre : (Event.start tag attributes unary range).brings "v-pre" = false) (b : Builder) :
    (b.entered options tag attributes range).flags = {} := by
  have hlacks {name : String} (h : (Event.start tag attributes unary range).brings name = false) :
      (b.bare options tag attributes range).attribute? name = none := by
    apply Keyed.get?_ofList_eq_none
    intro e he
    obtain ⟨a, ha, rfl⟩ := List.mem_map.mp he
    simp only [Event.brings, List.any_eq_false, beq_iff_eq] at h
    exact h a ha
  have hnew : (b.newElement options tag attributes range).value.Ordinary := by
    rw [value_newElement]
    exact Reported.foldlM_preserves Ordinary _ _ (fun x hx el => hordinary x hx _ el)
      ⟨hlacks honce, hlacks hpre⟩
  rw [entered, flags_enter options hnew]
  exact newElement_keeps Element.flags (fun x hx => (hflags x hx).atStart) tag attributes range b

end Hooks

end Builder

namespace Tree

/-- What every node of the tree of a template starts with, it keeps. -/
theorem seen_ofTemplate {β : Type} {g : Element.Identity → β} {value : β} {options : Options}
    {template : String} (hkeeps : ∀ x ∈ options.extensions, x.Keeps fun el => g el.identity)
    (hcontainer : g Element.Identity.container = value)
    (hentered : ∀ tag attributes unary range,
      .start tag attributes unary range ∈ Markup.events (markupSettings options) template →
        ∀ b : Builder, g (b.entered options tag attributes range).identity = value)
    {i : NodeId} {node : Node} (h : (ofTemplate options template).value.node? i = some node) :
    Node.isPlainSeen value (node.seen g) := by
  have hrun : Keeps g (Node.isPlainSeen value) {} (ofTemplate options template).value :=
    Builder.keeps_foldlM hkeeps hcontainer _ hentered {}
  exact hrun.added i node (Nat.zero_le i) h

/-- The tree of a template has no marks. -/
theorem unmarked_ofTemplate {options : Options}
    (hmarks : ∀ x ∈ options.extensions, x.Keeps Element.marks) (template : String) :
    (ofTemplate options template).value.unmarked = (ofTemplate options template).value := by
  have hentered (tag : String) (attributes : List Attribute) (range : Range) (b : Builder) :
      (b.entered options tag attributes range).marks = {} := by
    have hframe := congrArg (fun f => f.identity.marks)
      (Builder.frame_enter options (b.newElement options tag attributes range).value b)
    exact hframe.trans (Builder.newElement_keeps Element.marks
      (fun x hx => (hmarks x hx).atStart) tag attributes range b)
  have hnodes : (ofTemplate options template).value.nodes.map Node.unmarked =
      (ofTemplate options template).value.nodes := by
    apply Array.ext_getElem?
    intro i
    rw [Array.getElem?_map]
    cases h : (ofTemplate options template).value.nodes[i]? with
    | none => rfl
    | some node =>
      have hplain := seen_ofTemplate hmarks rfl
        (fun tag attributes _ range _ => hentered tag attributes range) h
      cases node with
      | element el =>
        exact congrArg (fun el => some (Node.element el)) (Element.unmarked_of_marks hplain)
      | interpolated t => exact congrArg some hplain
      | plain t => exact congrArg some hplain
  rw [Tree.unmarked, hnodes]

/-- A tree without marks in which nothing is rendered once or verbatim. -/
structure Plain (tree : Tree) : Prop where
  unmarked : tree.unmarked = tree
  once : ∀ i el, tree.element? i = some el → el.once = false
  pre : ∀ i el, tree.element? i = some el → el.pre = false

/-- The tree of a template without `v-once` and `v-pre` is plain. -/
theorem plain_ofTemplate {options : Options} {template : String}
    (hflags : ∀ x ∈ options.extensions, x.Keeps Element.flags)
    (hordinary : ∀ x ∈ options.extensions, ∀ surroundings el, el.Ordinary →
      (x.atStart surroundings el).value.Ordinary)
    (honce : Markup.uses (markupSettings options) template "v-once" = false)
    (hpre : Markup.uses (markupSettings options) template "v-pre" = false) :
    (ofTemplate options template).value.Plain := by
  have hel {i : NodeId} {el : Element}
      (h : (ofTemplate options template).value.element? i = some el) : el.flags = {} := by
    refine seen_ofTemplate hflags rfl ?_ (node?_of_element? h)
    intro tag attributes unary range he b
    have hlacks {name : String} (h : Markup.uses (markupSettings options) template name = false) :
        (Event.start tag attributes unary range).brings name = false :=
      Bool.eq_false_iff.mpr (List.any_eq_false.mp h _ he)
    exact Builder.flags_entered hflags hordinary (hlacks honce) (hlacks hpre) b
  refine ⟨unmarked_ofTemplate (fun x hx => (hflags x hx).map Element.Flags.marks) template, ?_, ?_⟩
  · intro i el h
    exact congrArg Element.Flags.once (hel h)
  · intro i el h
    exact congrArg Element.Flags.pre (hel h)

end Tree

end ViewTemplate
