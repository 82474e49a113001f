import ViewTemplate.Proofs.VerbatimMode

/-! # Readings by the attributes of an element

The attributes that an element was written with decide what its readings make of it. Each reading
takes attributes off and leaves the written values to the next one, so that what a reading finds can be
told from the start tag.
-/

namespace ViewTemplate

namespace Element

theorem Leaves.of_unlinked {el later : Element} (h : later.unlinked = el.unlinked) :
    el.Leaves later where
  written := (congrArg Element.written h :)
  pending _ ha := (congrArg Element.pending h :) ▸ ha
  processed := (congrArg Element.processed h :)

theorem Leaves.markPlain (el : Element) : el.Leaves el.markPlain :=
  ⟨rfl, List.Subset.refl _, rfl⟩

theorem Leaves.keepLiterals (el : Element) : el.Leaves el.keepLiterals :=
  ⟨rfl, List.Subset.refl _, rfl⟩

/-! ## Structural directives -/

theorem fst_take (el : Element) (name : String) : (el.take name).1 = el.attribute? name := rfl

/-- An element with a guard holds a choice. -/
theorem readChoice_of_guard {el : Element} {guard : String}
    (h : el.attribute? "v-if" = some guard) (hguard : guard ≠ "") :
    el.readChoice = { (el.take "v-if").2 with choice := some { guard } } := by
  simp only [readChoice, fst_take, h, Option.filter_some, hguard, ne_eq, not_false_eq_true,
    decide_true, if_true]

theorem readChoice_of_guardless {el : Element} (h : (el.attribute? "v-if").filter (· ≠ "") = none) :
    el.readChoice = (el.take "v-if").2.readBranch := by
  simp only [readChoice, fst_take, h]

/-- An element with a guard holds a choice and is no branch of another. -/
theorem choice_readStructure {el : Element} {guard : String}
    (h : el.attribute? "v-if" = some guard) (hguard : guard ≠ "") :
    el.readStructure.value.choice = some { guard } ∧
      el.readStructure.value.elseIf = el.elseIf ∧ el.readStructure.value.isElse = el.isElse := by
  have hread : el.readLoop.value.readChoice = _ := readChoice_of_guard h hguard
  exact ⟨(congrArg Element.choice hread :), (congrArg Element.elseIf hread :),
    (congrArg Element.isElse hread :)⟩

/-- Any other element is a later branch as its marks say. -/
theorem branch_readStructure {el : Element}
    (h : (el.attribute? "v-if").filter (· ≠ "") = none) :
    el.readStructure.value.choice = el.choice ∧
      el.readStructure.value.elseIf = (el.attribute? "v-else-if").filter (· ≠ "") ∧
      el.readStructure.value.isElse = (el.attribute? "v-else").isSome := by
  have hread : el.readLoop.value.readChoice = _ := readChoice_of_guardless h
  exact ⟨(congrArg Element.choice hread :), (congrArg Element.elseIf hread :),
    (congrArg Element.isElse hread :)⟩

theorem loop_readStructure {el : Element} (h : el.attribute? "v-for" = none) :
    el.readStructure.value.loop = el.loop := by
  calc el.readStructure.value.loop
    _ = el.readLoop.value.loop := congrArg Frame.loop el.readLoop.value.frame_readChoice
    _ = el.loop := by
      rw [readLoop, take_of_none h]
      rfl

theorem once_readStructure {el : Element} (h : el.attribute? "v-once" = none) :
    el.readStructure.value.once = el.once := by
  rw [readStructure_of_none h]
  exact congrArg Frame.once el.readLoop.value.frame_readChoice

/-! ## Slots -/

theorem readSlotDirective_of_none {el : Element}
    (h : ∀ a ∈ el.pending, Spelling.isSlot a.name = false) (platform : Platform)
    (parentIsComponent : Option Bool) :
    (el.readSlotDirective platform parentIsComponent).value.2 = none ∧
      (el.readSlotDirective platform parentIsComponent).value.1.slotScope = el.slotScope := by
  have hfind : (el.takeFirst Spelling.isSlot).1 = none := by
    apply List.find?_eq_none.mpr
    intro a ha
    rw [h a ha]
    exact Bool.false_ne_true
  simp only [readSlotDirective, hfind]
  exact ⟨rfl, rfl⟩

theorem slotScope_readScope {el : Element} (h : el.attribute? "slot-scope" = none)
    (htemplate : el.tag = "template" → el.attribute? "scope" = none) (hscope : el.slotScope = none) :
    el.readScope.value.slotScope = none := by
  rw [readScope]
  split
  · rename_i htag
    simp only [readTemplateScope, take_of_none (htemplate htag), take_of_none h, Option.filter_none]
    rfl
  · simp only [readElementScope, take_of_none h]
    exact hscope

/-- Without a slot directive among its attributes an element uses no slot. Without any other slot
syntax it is not content of a slot either. -/
theorem slots_readPlacement {el : Element} (h : ∀ a ∈ el.pending, Spelling.isSlot a.name = false)
    (platform : Platform) (parent : Option Element) (inLoop : Bool) :
    (Builder.readPlacement platform parent inLoop el).value.2 = none ∧
      (el.attribute? "slot-scope" = none → (el.tag = "template" → el.attribute? "scope" = none) →
        el.slotScope = none →
        (Builder.readPlacement platform parent inLoop el).value.1.slotScope = none) := by
  simp only [Builder.readPlacement, readSlotContent, Reported.value_bind]
  have hreads : el.Leaves ((el.readKey (parent.map Element.tag)).value.markPlain.readRef inLoop) :=
    (Reads.readKey el _).toLeaves.trans ((Leaves.markPlain _).trans (Reads.readRef _ _).toLeaves)
  have hframe : ((el.readKey (parent.map Element.tag)).value.markPlain.readRef inLoop).frame =
      el.frame := rfl
  generalize (el.readKey (parent.map Element.tag)).value.markPlain.readRef inLoop = named
    at hreads hframe
  have hlast := hreads.trans ((Reads.readScope named).trans (Reads.readSlotTarget _)).toLeaves
  obtain ⟨huse, hkept⟩ := readSlotDirective_of_none (fun a ha => h a (hlast.pending ha)) platform
    (parent.map (mayBeComponent platform))
  refine ⟨huse, fun hslot htemplate hscope => hkept.trans ?_⟩
  have htag : named.tag = el.tag := congrArg Frame.tag hframe
  calc named.readScope.value.readSlotTarget.slotScope
    _ = named.readScope.value.slotScope :=
        congrArg Frame.slotScope named.readScope.value.frame_readSlotTarget
    _ = none := by
        apply slotScope_readScope
        · exact (hreads.attribute?_eq _).trans hslot
        · intro hnamed
          exact (hreads.attribute?_eq _).trans (htemplate (htag ▸ hnamed))
        · exact (congrArg Frame.slotScope hframe).trans hscope

end Element

namespace Builder

open ViewTemplate.Tree

section Web

variable {options : Options} (hweb : ∀ x ∈ options.extensions, x ∈ Options.web.extensions)
include hweb

/-- An element goes into the tree with the attributes of its start tag, less those that are read
there. -/
theorem reads_entered (tag : String) (attributes : List Attribute) (range : Range) (b : Builder) :
    (b.bare options tag attributes range).Leaves (b.entered options tag attributes range) := by
  obtain ⟨hverbatim, hread⟩ := entered_of_web hweb tag attributes range b
  cases hmode : (b.opened options tag attributes range).inVerbatim with
  | true =>
    rw [hverbatim hmode]
    split
    · exact .keepLiterals _
    · exact (Element.Reads.readVerbatim _).toLeaves.trans (.keepLiterals _)
  | false =>
    rw [hread hmode]
    exact (Element.Reads.readStructure _).toLeaves

/-- What an element has in its frame besides structural directives, it has from its start tag. -/
theorem frame_entered (tag : String) (attributes : List Attribute) (range : Range) (b : Builder) :
    (b.entered options tag attributes range).tag = tag ∧
      (b.entered options tag attributes range).slotScope = none ∧
      (b.entered options tag attributes range).forbidden =
        (Element.ofTag tag attributes none).hasSideEffects := by
  have hframe := frame_enter options (b.newElement options tag attributes range).value b
  rw [value_newElement_of_web hweb] at hframe
  rw [entered, value_newElement_of_web hweb]
  exact ⟨congrArg Element.Frame.tag hframe, congrArg Element.Frame.slotScope hframe,
    congrArg Element.Frame.forbidden hframe⟩

/-- Reading an element without a slot directive changes no other element. What it may change of its
frame is whether it is content of a slot, and without slot syntax not even that. -/
theorem exists_finishReading {b : Builder} {id : NodeId} {el : Element}
    (hel : b.tree.element? id = some el)
    (hslot : ∀ a ∈ el.pending, Spelling.isSlot a.name = false) :
    ∃ read, (∀ j, (b.finishReading options id).value.tree.element? j =
        if j = id then some read else b.tree.element? j) ∧
      read.frame = el.frame.withScope read.slotScope ∧
      (el.attribute? "slot-scope" = none → (el.tag = "template" → el.attribute? "scope" = none) →
        el.slotScope = none → read.slotScope = none) := by
  rw [finishReading]
  split
  · refine ⟨el, fun j => ?_, rfl, fun _ _ h => h⟩
    split
    · rename_i hj
      rw [hj]
      exact hel
    · rfl
  · show ∃ read, (∀ j, (readElement options id b.tree).value.element? j = _) ∧ _
    generalize hloops : ((b.tree.ancestors id).filterMap fun e => e.2.loop) = loops
    obtain ⟨huse, hscope⟩ := Element.slots_readPlacement hslot options.platform
      (el.parent.bind b.tree.element?) (!loops.isEmpty)
    have hframe := frame_readPlacement options.platform (el.parent.bind b.tree.element?)
      (!loops.isEmpty) el
    rw [readElement_eq options hel hloops rfl, huse, fillUse]
    generalize (readPlacement options.platform (el.parent.bind b.tree.element?) (!loops.isEmpty)
      el).value.1 = placed at hscope hframe
    have hread : (readContent options (loops.map Loop.item) placed).value.frame = placed.frame :=
      readContent_keeps (f := fun frame => frame)
        (fun x hx => Extension.keeps_frame_web x (hweb x hx)) _ placed
    have hreadScope : (readContent options (loops.map Loop.item) placed).value.slotScope =
        placed.slotScope := congrArg Element.Frame.slotScope hread
    refine ⟨(readContent options (loops.map Loop.item) placed).value, fun j => ?_, ?_, ?_⟩
    · rw [element?_update, element?_set, element?_set, if_pos rfl, node?_of_element? hel]
      split <;> rfl
    · rw [hreadScope]
      exact hread.trans hframe
    · rw [hreadScope]
      exact hscope

end Web

end Builder

end ViewTemplate
