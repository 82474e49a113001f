import ViewTemplate.Tree.Builder

/-! # What the readings of an element leave alone

The attributes of an element are read in many steps. None of them touches the place of the element
in the tree, and those that run when the element closes leave its structural directives alone too.
-/

open List

namespace ViewTemplate

namespace Reported

universe u v

variable {α σ : Type u}

/-- Where nothing is reported, the condition of a report does not hold. -/
theorem eq_false_of_notes {c : Bool} {cause : Cause} {range : Option Range}
    (h : (onlyIf.{u} c (error cause range)).notes = []) : c = false := by
  cases c with
  | false => rfl
  | true => cases h

@[simp] theorem value_ite (c : Prop) [Decidable c] (x y : Reported α) :
    (if c then x else y).value = if c then x.value else y.value := by
  split <;> rfl

/-- What each step of a run keeps, the run keeps. -/
theorem foldlM_keeps {β : Type v} (g : σ → β) (f : σ → α → Reported σ) (l : List α)
    (h : ∀ a ∈ l, ∀ s, g (f s a).value = g s) (s : σ) : g (l.foldlM f s).value = g s := by
  induction l generalizing s with
  | nil => rfl
  | cons a l ih =>
    rw [foldlM_cons, value_bind, ih fun b hb => h b (mem_cons_of_mem a hb)]
    exact h a mem_cons_self s

/-- What each step of a run preserves, the run preserves. -/
theorem foldlM_preserves (P : σ → Prop) (f : σ → α → Reported σ) (l : List α)
    (h : ∀ a ∈ l, ∀ s, P s → P (f s a).value) {s : σ} (hs : P s) : P (l.foldlM f s).value := by
  induction l generalizing s with
  | nil => exact hs
  | cons a l ih =>
    rw [foldlM_cons, value_bind]
    exact ih (fun b hb => h b (mem_cons_of_mem a hb)) (h a mem_cons_self s hs)

end Reported

namespace Element

/-- What an element is besides its attributes: its tag and range, its links to other nodes, its
structural directives, whether it is content of a slot, and its static marks. -/
structure Frame where
  tag : String
  range : Option Range
  parent : Option NodeId
  children : List NodeId
  scopedSlots : Keyed NodeId
  loop : Option Loop
  choice : Option Choice
  elseIf : Option String
  isElse : Bool
  slotScope : Option String
  forbidden : Bool
  pre : Bool
  once : Bool
  isStatic : Bool
  staticRoot : Bool
  staticInLoop : Bool

def frame (el : Element) : Frame where
  tag := el.tag
  range := el.range
  parent := el.parent
  children := el.children
  scopedSlots := el.scopedSlots
  loop := el.loop
  choice := el.choice
  elseIf := el.elseIf
  isElse := el.isElse
  slotScope := el.slotScope
  forbidden := el.forbidden
  pre := el.pre
  once := el.once
  isStatic := el.isStatic
  staticRoot := el.staticRoot
  staticInLoop := el.staticInLoop

theorem frame_addAttribute (el : Element) (name value : String) (range : Option Range)
    (dynamic : Bool) : (el.addAttribute name value range dynamic).frame = el.frame := rfl

/-! ## Readings of a closing element

Taking attributes and setting fields leaves the rest of the frame alone by definition. There is
something to prove where a reading branches.
-/

/-- The frame of an element that is made content of a slot, or is not. -/
def Frame.withScope (f : Frame) (slotScope : Option String) : Frame := { f with slotScope }

section

variable (el : Element)

theorem frame_readScope :
    el.readScope.value.frame = el.frame.withScope el.readScope.value.slotScope := by
  rw [readScope]
  split <;> rfl

@[simp] theorem frame_readSlotTarget : el.readSlotTarget.frame = el.frame := by
  simp only [readSlotTarget]
  split
  · rfl
  · split <;> rfl

theorem frame_readSlotDirective (platform : Platform) (parentIsComponent : Option Bool) :
    (el.readSlotDirective platform parentIsComponent).value.1.frame =
      el.frame.withScope (el.readSlotDirective platform parentIsComponent).value.1.slotScope := by
  simp only [readSlotDirective]
  split
  · rfl
  · split <;> rfl

/-- A component that has contents of slots and fills a slot with its children is reported. -/
theorem slots_of_readSlotDirective (platform : Platform) (parentIsComponent : Option Bool)
    (hnotes : (el.readSlotDirective platform parentIsComponent).notes = [])
    (huse : (el.readSlotDirective platform parentIsComponent).value.2.isSome = true) :
    el.scopedSlots.isEmpty = true := by
  simp only [readSlotDirective] at hnotes huse
  split at hnotes
  · rename_i h
    rw [h] at huse
    cases huse
  · rename_i directive h
    simp only [h] at huse
    split at hnotes
    · rename_i htag
      rw [if_pos htag] at huse
      cases huse
    · simp only [readComponentSlot, Reported.notes_bind, append_eq_nil_iff] at hnotes
      have hempty : (!el.scopedSlots.isEmpty) = false :=
        Reported.eq_false_of_notes hnotes.1.2.2.1
      simpa using hempty

theorem frame_readSlotContent (platform : Platform) (parentIsComponent : Option Bool) :
    (el.readSlotContent platform parentIsComponent).value.1.frame =
      el.frame.withScope (el.readSlotContent platform parentIsComponent).value.1.slotScope := by
  let placed (f : Frame) : Frame :=
    f.withScope (el.readSlotContent platform parentIsComponent).value.1.slotScope
  calc (el.readSlotContent platform parentIsComponent).value.1.frame
    _ = placed el.readScope.value.readSlotTarget.frame :=
        frame_readSlotDirective el.readScope.value.readSlotTarget platform parentIsComponent
    _ = placed el.readScope.value.frame := by rw [frame_readSlotTarget]
    _ = placed el.frame := (congrArg placed el.frame_readScope :)

@[simp] theorem frame_readOutlet : el.readOutlet.value.frame = el.frame := by
  rw [readOutlet]
  split <;> rfl

@[simp] theorem frame_addLiteral (surroundings : Surroundings) (a : Attribute) :
    (el.addLiteral surroundings a).value.frame = el.frame := by
  simp only [addLiteral, Reported.value_bind]
  split <;> rfl

@[simp] theorem frame_addSync (name value : String) (dynamic : Bool) (range : Option Range) :
    (el.addSync name value dynamic range).frame = el.frame := by
  rw [addSync]
  generalize updateEvents name dynamic = events
  induction events generalizing el with
  | nil => rfl
  | cons event events ih =>
    rw [foldl_cons, ih]
    rfl

@[simp] theorem frame_addBinding (platform : Platform) (name : String) (dynamic : Bool)
    (modifiers : Option Modifiers) (a : Attribute) :
    (el.addBinding platform name dynamic modifiers a).value.frame = el.frame := by
  simp only [addBinding, Reported.value_bind]
  split
  · split <;> exact frame_addSync ..
  · split <;> rfl

end

@[simp] theorem frame_classify (el : Element) (surroundings : Surroundings)
    (loopItems : List String) (a : Attribute) :
    (classify surroundings loopItems el a).value.frame = el.frame := by
  rw [classify]
  split
  · exact frame_addLiteral el surroundings a
  · exact frame_addBinding _ _ _ _ _ a
  · rfl
  · rfl

@[simp] theorem frame_classifyAll (el : Element) (surroundings : Surroundings)
    (loopItems : List String) : (el.classifyAll surroundings loopItems).value.frame = el.frame :=
  Reported.foldlM_keeps frame _ _ (fun a _ el => frame_classify el surroundings loopItems a) el

/-! ## Readings at the start tag -/

section

variable (el : Element)

theorem frame_readChoice :
    el.readChoice.frame =
      { el.frame with
        choice := el.readChoice.choice
        elseIf := el.readChoice.elseIf
        isElse := el.readChoice.isElse } := by
  simp only [readChoice]
  split <;> rfl

/-- The structural directives of a start tag set the loop, the choice, the marks of a later branch and
the mark of one-time rendering, and nothing else of the frame. -/
theorem frame_readStructure :
    el.readStructure.value.frame =
      { el.frame with
        loop := el.readStructure.value.loop
        choice := el.readStructure.value.choice
        elseIf := el.readStructure.value.elseIf
        isElse := el.readStructure.value.isElse
        once := el.readStructure.value.once } := by
  let read (f : Frame) : Frame :=
    { f with
      loop := el.readStructure.value.loop
      choice := el.readStructure.value.choice
      elseIf := el.readStructure.value.elseIf
      isElse := el.readStructure.value.isElse
      once := el.readStructure.value.once }
  exact (congrArg read (frame_readChoice el.readLoop.value) :)

end

/-- Only an element with a choice takes a later branch. -/
theorem addBranch_of_none {el : Element} (h : el.choice = none) (branch : Branch) :
    el.addBranch branch = el := by
  cases el
  cases h
  rfl

theorem otherBranches_of_choice {a b : Element} (h : a.choice = b.choice) :
    a.otherBranches = b.otherBranches := by
  rw [otherBranches, otherBranches, h]

/-- A choice that is read at a start tag has no later branches yet. -/
theorem otherBranches_readStructure (el : Element) (h : el.otherBranches = []) :
    el.readStructure.value.otherBranches = [] := by
  have hchoice : el.readLoop.value.readChoice.otherBranches = [] := by
    simp only [readChoice]
    split
    · rfl
    · exact h
  exact hchoice

/-! ## What is left to read -/

/-- What is left of the attributes of an element: some may have been taken off, and the written values
are as they were. -/
structure Leaves (el later : Element) : Prop where
  written : later.written = el.written
  pending : later.pending ⊆ el.pending
  processed : later.processed = el.processed

/-- A later reading of an element, which does not find it plain. -/
structure Reads (el later : Element) : Prop extends el.Leaves later where
  plain : later.plain = true → el.plain = true

theorem Leaves.trans {el mid later : Element} (h : el.Leaves mid) (h' : mid.Leaves later) :
    el.Leaves later :=
  ⟨h'.written.trans h.written, List.Subset.trans h'.pending h.pending,
    h'.processed.trans h.processed⟩

theorem Leaves.attribute?_eq {el later : Element} (h : el.Leaves later) (name : String) :
    later.attribute? name = el.attribute? name :=
  congrArg (fun written => written.get? name) h.written

namespace Reads

variable {el mid later : Element}

/-- A reading that takes nothing off. -/
theorem same (h : (later.written, later.pending, later.processed, later.plain) =
    (el.written, el.pending, el.processed, el.plain)) : el.Reads later := by
  cases later
  cases h
  exact ⟨⟨rfl, List.Subset.refl _, rfl⟩, id⟩

theorem trans (h : el.Reads mid) (h' : mid.Reads later) : el.Reads later :=
  ⟨h.toLeaves.trans h'.toLeaves, fun hplain => h.plain (h'.plain hplain)⟩

theorem take (el : Element) (name : String) : el.Reads (el.take name).2 := by
  refine ⟨⟨rfl, ?_, rfl⟩, id⟩
  simp only [Element.take]
  split
  · exact eraseP_subset
  · exact List.Subset.refl _

section

variable (el : Element)

theorem takeBinding (name : String) : el.Reads (el.takeBinding name).2 := by
  have hshort := take el (":" ++ name)
  refine ⟨⟨rfl, ?_, rfl⟩, id⟩
  simp only [Element.takeBinding]
  split
  · exact hshort.pending
  · exact (hshort.trans (take _ _)).pending

theorem takeBindingOrText (name : String) :
    el.Reads (el.takeBindingOrText name).2 := by
  have hbinding := takeBinding el name
  refine ⟨⟨rfl, ?_, rfl⟩, id⟩
  simp only [Element.takeBindingOrText]
  split
  · exact hbinding.pending
  · exact (hbinding.trans (take _ name)).pending

theorem readVerbatim : el.Reads el.readVerbatim := (take el "v-pre").trans (same rfl)

theorem readLoop : el.Reads el.readLoop.value := (take el "v-for").trans (same rfl)

theorem readBranch : el.Reads el.readBranch := by
  have hguard := take { (el.take "v-else").2 with isElse := (el.take "v-else").1.isSome } "v-else-if"
  exact (take el "v-else").trans { hguard with }

theorem readChoice : el.Reads el.readChoice := by
  have htake := take el "v-if"
  simp only [Element.readChoice]
  split
  · exact htake.trans (same rfl)
  · exact htake.trans (readBranch _)

theorem readOnce : el.Reads el.readOnce := (take el "v-once").trans (same rfl)

theorem readStructure : el.Reads el.readStructure.value :=
  (readLoop el).trans ((readChoice _).trans (readOnce _))

theorem readKey (parentTag : Option String) :
    el.Reads (el.readKey parentTag).value :=
  (takeBindingOrText el "key").trans (same rfl)

theorem readRef (inLoop : Bool) : el.Reads (el.readRef inLoop) :=
  (takeBindingOrText el "ref").trans (same rfl)

theorem readTemplateScope : el.Reads el.readTemplateScope.value := by
  have hold := take el "scope"
  refine ⟨⟨rfl, ?_, rfl⟩, id⟩
  simp only [Element.readTemplateScope, Reported.value_bind, Reported.value_pure]
  split
  · exact hold.pending
  · exact (hold.trans (take _ "slot-scope")).pending

theorem readElementScope : el.Reads el.readElementScope.value :=
  (take el "slot-scope").trans (same rfl)

theorem readScope : el.Reads el.readScope.value := by
  rw [Element.readScope]
  split
  · exact readTemplateScope el
  · exact readElementScope el

theorem readSlotTarget : el.Reads el.readSlotTarget := by
  have htake := takeBindingOrText el "slot"
  simp only [Element.readSlotTarget]
  split
  · exact htake
  · split
    · exact htake.trans ⟨⟨rfl, List.Subset.refl _, rfl⟩, nofun⟩
    · exact htake.trans (same rfl)

theorem readSlotDirective (platform : Platform) (parentIsComponent : Option Bool) :
    el.Reads (el.readSlotDirective platform parentIsComponent).value.1 := by
  have hfirst : el.Reads (el.takeFirst Spelling.isSlot).2 := ⟨⟨rfl, eraseP_subset, rfl⟩, id⟩
  simp only [Element.readSlotDirective]
  split
  · exact hfirst
  · split
    · exact hfirst.trans (same rfl)
    · exact hfirst

theorem readOutlet : el.Reads el.readOutlet.value := by
  rw [Element.readOutlet]
  split
  · exact (takeBindingOrText el "name").trans (same rfl)
  · exact same rfl

theorem readComponent : el.Reads el.readComponent :=
  (takeBindingOrText el "is").trans ((take _ "inline-template").trans (same rfl))

end

end Reads

/-! ## What stays with an element -/

/-- What an element keeps from its start tag on, whatever becomes of its links: its tag, where it
starts, its structural directives, whether it is let through, its region and its marks. -/
structure Identity where
  tag : String
  start : Option Nat := none
  loop : Option Loop := none
  guard : Option String := none
  elseIf : Option String := none
  isElse : Bool := false
  forbidden : Bool := false
  pre : Bool := false
  once : Bool := false
  isStatic : Bool := false
  staticRoot : Bool := false
  staticInLoop : Bool := false

def Frame.identity (f : Frame) : Identity where
  tag := f.tag
  start := f.range.map Range.start
  loop := f.loop
  guard := f.choice.map Choice.guard
  elseIf := f.elseIf
  isElse := f.isElse
  forbidden := f.forbidden
  pre := f.pre
  once := f.once
  isStatic := f.isStatic
  staticRoot := f.staticRoot
  staticInLoop := f.staticInLoop

def identity (el : Element) : Identity := el.frame.identity

end Element

namespace Extension

universe u v

/-- No hook of the extension changes a value of an element. -/
structure Keeps {β : Type u} (f : Element → β) (extension : Extension) : Prop where
  atStart : ∀ surroundings el, f (extension.atStart surroundings el).value = f el
  atEnd : ∀ surroundings el, f (extension.atEnd surroundings el).value = f el
  afterPlacement : ∀ surroundings el, f (extension.afterPlacement surroundings el).value = f el

/-- What each extension keeps at a hook, the run of the hook keeps. -/
theorem runAll_keeps {β : Type u} (f : Element → β)
    (hook : Extension → Surroundings → Element → Reported Element) (extensions : List Extension)
    (h : ∀ extension ∈ extensions, ∀ surroundings el,
      f (hook extension surroundings el).value = f el)
    (surroundings : Surroundings) (el : Element) :
    f (runAll hook extensions surroundings el).value = f el :=
  Reported.foldlM_keeps f _ extensions (fun extension he el => h extension he surroundings el) el

/-- What the extensions for documents make of an element. Each takes an attribute and a binding off
and keeps what it finds. -/
theorem atEnd_web_relates {R : Element → Element → Prop}
    (htrans : ∀ {el m later}, R el m → R m later → R el later)
    (hclass : ∀ el c, ((el.take "class").1 = none → c = none) →
      R el { (el.take "class").2 with staticClass := c.or (el.take "class").2.staticClass })
    (hclassBinding : ∀ el, R el { (el.takeBinding "class").2 with
      classBinding := (el.takeBinding "class").1.or (el.takeBinding "class").2.classBinding })
    (hstyle : ∀ el s, ((el.take "style").1 = none → s = none) →
      R el { (el.take "style").2 with staticStyle := s.or (el.take "style").2.staticStyle })
    (hstyleBinding : ∀ el, R el { (el.takeBinding "style").2 with
      styleBinding := (el.takeBinding "style").1.or (el.takeBinding "style").2.styleBinding })
    {x : Extension} (hx : x ∈ Options.web.extensions) (surroundings : Surroundings) (el : Element) :
    R el (x.atEnd surroundings el).value := by
  have hnone {value : Option String} {code : String → String} (h : value = none) :
      (value.filter (· ≠ "")).map code = none := by
    rw [h]
    rfl
  rcases Options.eq_of_mem_web hx with rfl | rfl
  · exact htrans (hclass el _ hnone) (hclassBinding (readStaticClass surroundings el).value)
  · exact htrans (hstyle el _ hnone) (hstyleBinding (readStaticStyle surroundings el).value)

/-- The extensions for documents leave the frame of every element alone. -/
theorem keeps_frame_web : ∀ x ∈ Options.web.extensions, x.Keeps Element.frame := by
  intro x hx
  refine ⟨?_, atEnd_web_relates (R := fun el later => later.frame = el.frame)
    (fun h h' => h'.trans h) (fun _ _ _ => rfl) (fun _ => rfl) (fun _ _ _ => rfl) (fun _ => rfl) hx,
    ?_⟩ <;>
  · intro surroundings el
    rcases Options.eq_of_mem_web hx with rfl | rfl <;> rfl

/-- What is a value of something kept is kept too. -/
theorem Keeps.map {γ : Type v} {β : Type u} {f : Element → β} {extension : Extension}
    (h : extension.Keeps f) (k : β → γ) : extension.Keeps fun el => k (f el) where
  atStart surroundings el := congrArg k (h.atStart surroundings el)
  atEnd surroundings el := congrArg k (h.atEnd surroundings el)
  afterPlacement surroundings el := congrArg k (h.afterPlacement surroundings el)

end Extension

end ViewTemplate
