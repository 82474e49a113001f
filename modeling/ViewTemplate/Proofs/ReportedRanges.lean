import ViewTemplate.Proofs.ElementFrame

/-! # Ranges that readings report

A reading of an element reports at places that the element has: its own, and those of the attributes
that it was written with. So where an element's places have a property, the places of all reports
have it, and the element that is read has no other places.
-/

open List

namespace ViewTemplate

universe u v

namespace Reported

variable {α : Type u} {β : Type u} {P : Range → Prop} {Q : α → Prop} {R : β → Prop}

/-- The value has a property, and so have the places of all reports. -/
def Ensures (P : Range → Prop) (Q : α → Prop) (x : Reported α) : Prop :=
  Q x.value ∧ ∀ d ∈ x.notes, ∀ r ∈ d.range, P r

namespace Ensures

theorem pure {a : α} (h : Q a) : Ensures P Q (Pure.pure a) := by
  refine ⟨h, ?_⟩
  intro d hd
  cases hd

theorem bind {x : Reported α} {f : α → Reported β} (hx : Ensures P Q x)
    (hf : ∀ a, Q a → Ensures P R (f a)) : Ensures P R (x >>= f) := by
  have hrest := hf x.value hx.1
  refine ⟨hrest.1, fun d hd => ?_⟩
  rcases mem_append.mp hd with hd | hd
  · exact hx.2 d hd
  · exact hrest.2 d hd

theorem mono {P' : Range → Prop} {Q' : α → Prop} {x : Reported α} (hx : Ensures P Q x)
    (hP : ∀ r, P r → P' r) (hQ : ∀ a, Q a → Q' a) : Ensures P' Q' x :=
  ⟨hQ _ hx.1, fun d hd r hr => hP r (hx.2 d hd r hr)⟩

theorem error {cause : Cause} {range : Option Range} (h : ∀ r ∈ range, P r) :
    Ensures P (fun _ => True) (Reported.error.{u} cause range) := by
  refine ⟨trivial, fun d hd => ?_⟩
  rw [notes_error, mem_singleton] at hd
  rw [hd]
  exact h

theorem tip {cause : Cause} {range : Option Range} (h : ∀ r ∈ range, P r) :
    Ensures P (fun _ => True) (Reported.tip.{u} cause range) := by
  refine ⟨trivial, fun d hd => ?_⟩
  rw [notes_tip, mem_singleton] at hd
  rw [hd]
  exact h

theorem ite {c : Prop} [Decidable c] {x y : Reported α} (hx : c → Ensures P Q x)
    (hy : ¬ c → Ensures P Q y) : Ensures P Q (if c then x else y) := by
  split
  · exact hx ‹_›
  · exact hy ‹_›

theorem onlyIf {c : Bool} {x : Reported PUnit.{u + 1}} (hx : Ensures P (fun _ => True) x) :
    Ensures P (fun _ => True) (Reported.onlyIf c x) :=
  ite (fun _ => hx) fun _ => pure trivial

/-- A report under a condition, and then the rest. -/
theorem reporting {c : Bool} {x : Reported PUnit.{u + 1}} {y : Reported β}
    (hx : Ensures P (fun _ => True) x) (hy : Ensures P R y) :
    Ensures P R (Reported.onlyIf c x >>= fun _ => y) :=
  hx.onlyIf.bind fun _ _ => hy

theorem forM {γ : Type v} {f : γ → Reported PUnit.{u + 1}} {l : List γ}
    (h : ∀ a ∈ l, Ensures P (fun _ => True) (f a)) : Ensures P (fun _ => True) (l.forM f) := by
  induction l with
  | nil => exact pure trivial
  | cons a l ih =>
    refine (h a mem_cons_self).bind fun _ _ => ?_
    exact ih fun b hb => h b (mem_cons_of_mem a hb)

theorem option_forM {γ : Type v} {f : γ → Reported PUnit.{u + 1}} {a : Option γ}
    (h : ∀ c, Ensures P (fun _ => True) (f c)) : Ensures P (fun _ => True) (a.forM f) := by
  cases a with
  | none => exact pure trivial
  | some c => exact h c

theorem foldlM {γ : Type v} {f : α → γ → Reported α} {l : List γ}
    (hf : ∀ a, Q a → ∀ c ∈ l, Ensures P Q (f a c)) {a : α} (ha : Q a) :
    Ensures P Q (l.foldlM f a) := by
  induction l generalizing a with
  | nil => exact pure ha
  | cons c l ih =>
    rw [foldlM_cons]
    refine (hf a ha c mem_cons_self).bind fun b hb => ?_
    exact ih (fun a ha d hd => hf a ha d (mem_cons_of_mem c hd)) hb

end Ensures

end Reported

namespace Element

open ViewTemplate.Reported

variable {P : Range → Prop} {el : Element}

/-- The places of an element and of what it was written with have a property. -/
structure Within (P : Range → Prop) (el : Element) : Prop where
  own : ∀ r ∈ el.range, P r
  pending : ∀ a ∈ el.pending, ∀ r ∈ a.range, P r
  source : ∀ a ∈ el.source.values, ∀ r ∈ a.range, P r
  directives : ∀ d ∈ el.directives, ∀ r ∈ d.range, P r

namespace Within

theorem mono {P' : Range → Prop} (h : el.Within P) (hP : ∀ r, P r → P' r) : el.Within P' :=
  ⟨fun r hr => hP r (h.own r hr), fun a ha r hr => hP r (h.pending a ha r hr),
    fun a ha r hr => hP r (h.source a ha r hr), fun d hd r hr => hP r (h.directives d hd r hr)⟩

theorem rangeOf (h : el.Within P) (name : String) : ∀ r ∈ el.rangeOf name, P r := by
  intro r hr
  obtain ⟨a, ha, hr⟩ := Option.bind_eq_some_iff.mp hr
  exact h.source a (Keyed.mem_values_of_get? ha) r hr

theorem bindingRange (h : el.Within P) (name : String) : ∀ r ∈ el.bindingRange name, P r := by
  intro r hr
  obtain ⟨a, ha, hr⟩ := Option.bind_eq_some_iff.mp hr
  refine h.source a ?_ r hr
  simp only [rawBinding?, Option.or_eq_some_iff] at ha
  rcases ha with (ha | ⟨-, ha⟩) | ⟨-, ha⟩ <;> exact Keyed.mem_values_of_get? ha

/-! ## Attributes -/

section

variable (h : el.Within P)
include h

/-- A reading of the element takes attributes off and adds no places. -/
theorem reads {later : Element} (hreads : el.Reads later)
    (hsame : (later.range, later.source, later.directives) = (el.range, el.source, el.directives)) :
    later.Within P := by
  simp only [Prod.mk.injEq] at hsame
  obtain ⟨hrange, hsource, hdirectives⟩ := hsame
  exact ⟨hrange ▸ h.own, fun a ha => h.pending a (hreads.pending ha), hsource ▸ h.source,
    hdirectives ▸ h.directives⟩

theorem addAttribute (name value : String) (range : Option Range) (dynamic : Bool) :
    (el.addAttribute name value range dynamic).Within P :=
  { h with }

theorem addProperty (name value : String) (range : Option Range) (dynamic : Bool) :
    (el.addProperty name value range dynamic).Within P :=
  { h with }

theorem addListener (l : Listener) : (el.addListener l).Within P := { h with }

theorem addDirective {directive : Directive} (hd : ∀ r ∈ directive.range, P r) :
    (el.addDirective directive).Within P := by
  refine { h with directives := fun d hmem => ?_ }
  rcases mem_append.mp hmem with hmem | hmem
  · exact h.directives d hmem
  · rw [mem_singleton.mp hmem]
    exact hd

end

/-! ## Structural directives -/

theorem readVerbatim (h : el.Within P) : el.readVerbatim.Within P := h.reads (.readVerbatim el) rfl

theorem keepLiterals (h : el.Within P) : el.keepLiterals.Within P := { h with }

theorem readLoop (h : el.Within P) : Ensures P (Within P) el.readLoop := by
  refine (Ensures.option_forM fun clause => ?_).bind fun _ _ => .pure (h.reads (.readLoop el) rfl)
  exact .onlyIf (.error (h.rangeOf "v-for"))

theorem readChoice (h : el.Within P) : el.readChoice.Within P := by
  refine h.reads (.readChoice el) ?_
  simp only [Element.readChoice]
  split <;> rfl

theorem readOnce (h : el.Within P) : el.readOnce.Within P := h.reads (.readOnce el) rfl

theorem readStructure (h : el.Within P) : Ensures P (Within P) el.readStructure :=
  h.readLoop.bind fun _ hread => .pure hread.readChoice.readOnce

/-! ## Keys, references and components -/

theorem reportKey (h : el.Within P) (parentTag : Option String) (key : String) :
    Ensures P (fun _ => True) (el.reportKey parentTag key) := by
  have hrange := h.bindingRange "key"
  exact .reporting (.error hrange) (.option_forM fun _ => .onlyIf (.error hrange))

theorem readKey (h : el.Within P) (parentTag : Option String) :
    Ensures P (Within P) (el.readKey parentTag) := by
  have hrest := h.reads (.takeBindingOrText el "key") rfl
  exact (Ensures.option_forM fun key => hrest.reportKey parentTag key).bind fun _ _ =>
    .pure (h.reads (.readKey el parentTag) rfl)

theorem readRef (h : el.Within P) (inLoop : Bool) : (el.readRef inLoop).Within P :=
  h.reads (.readRef el inLoop) rfl

theorem readComponent (h : el.Within P) : el.readComponent.Within P :=
  h.reads (.readComponent el) rfl

/-! ## Slots -/

theorem readScope (h : el.Within P) : Ensures P (Within P) el.readScope := by
  rw [Element.readScope]
  refine .ite (fun _ => ?_) fun _ => ?_
  · exact .reporting (.tip (h.rangeOf "scope")) (.pure (h.reads (.readTemplateScope el) rfl))
  · exact .reporting (.tip (h.rangeOf "slot-scope")) (.pure (h.reads (.readElementScope el) rfl))

theorem readSlotTarget (h : el.Within P) : el.readSlotTarget.Within P := by
  refine h.reads (.readSlotTarget el) ?_
  simp only [Element.readSlotTarget]
  split
  · rfl
  · split <;> rfl

theorem slotUse {directive : Attribute} (h : ∀ r ∈ directive.range, P r) :
    Ensures P (fun _ => True) (Element.slotUse directive) := by
  simp only [Element.slotUse]
  exact .reporting (.error h) (.pure trivial)

theorem readTemplateSlot (h : el.Within P) (parentIsComponent : Option Bool)
    {directive : Attribute} (hd : ∀ r ∈ directive.range, P r) :
    Ensures P (Within P) (el.readTemplateSlot parentIsComponent directive) := by
  simp only [Element.readTemplateSlot]
  refine .reporting (.error h.own) (.reporting (.error h.own) ?_)
  exact (slotUse hd).bind fun _ _ => .pure { h with }

theorem readComponentSlot (h : el.Within P) (platform : Platform) {directive : Attribute}
    (hd : ∀ r ∈ directive.range, P r) :
    Ensures P (fun _ => True) (el.readComponentSlot platform directive) := by
  simp only [Element.readComponentSlot]
  refine .reporting (.error hd) (.reporting (.error h.own) ?_)
  exact .reporting (.error hd) (slotUse hd)

theorem readSlotDirective (h : el.Within P) (platform : Platform)
    (parentIsComponent : Option Bool) :
    Ensures P (fun read => read.1.Within P) (el.readSlotDirective platform parentIsComponent) := by
  have hrest : (el.takeFirst Spelling.isSlot).2.Within P :=
    { h with pending := fun a ha => h.pending a (mem_of_mem_eraseP ha) }
  simp only [Element.readSlotDirective]
  split
  · exact .pure hrest
  · rename_i directive htake
    have hd : ∀ r ∈ directive.range, P r := h.pending directive (mem_of_find?_eq_some htake)
    refine .ite (fun _ => ?_) fun _ => ?_
    · exact (hrest.readTemplateSlot parentIsComponent hd).bind fun _ hread => .pure hread
    · exact (hrest.readComponentSlot platform hd).bind fun _ _ => .pure hrest

theorem readSlotContent (h : el.Within P) (platform : Platform) (parentIsComponent : Option Bool) :
    Ensures P (fun read => read.1.Within P) (el.readSlotContent platform parentIsComponent) :=
  h.readScope.bind fun _ hread => hread.readSlotTarget.readSlotDirective platform parentIsComponent

theorem readOutlet (h : el.Within P) : Ensures P (Within P) el.readOutlet := by
  refine .ite (fun _ => ?_) fun _ => .pure h
  exact .reporting (.error (h.bindingRange "key"))
    (.pure (h.reads (.trans (.takeBindingOrText el "name") (.same rfl)) rfl))

/-! ## Classification -/

theorem addLiteral (h : el.Within P) (surroundings : Surroundings) {a : Attribute}
    (ha : ∀ r ∈ a.range, P r) : Ensures P (Within P) (el.addLiteral surroundings a) := by
  have hadded := h.addAttribute a.name (Text.quote a.value) a.range false
  simp only [Element.addLiteral]
  refine .reporting (.error ha) (.ite (fun _ => ?_) fun _ => .pure hadded)
  exact .pure (hadded.addProperty ..)

theorem addSync (h : el.Within P) (name value : String) (dynamic : Bool) (range : Option Range) :
    (el.addSync name value dynamic range).Within P := by
  rw [Element.addSync]
  generalize updateEvents name dynamic = events
  induction events generalizing el with
  | nil => exact h
  | cons event events ih => exact ih (h.addListener _)

theorem addBinding (h : el.Within P) (platform : Platform) (name : String) (dynamic : Bool)
    (modifiers : Option Modifiers) {a : Attribute} (ha : ∀ r ∈ a.range, P r) :
    Ensures P (Within P) (el.addBinding platform name dynamic modifiers a) := by
  have hsynced (name value : String) : (if hasModifier modifiers "sync" then
      el.addSync name value dynamic a.range else el).Within P := by
    split
    · exact h.addSync ..
    · exact h
  simp only [Element.addBinding]
  refine .reporting (.error ha) (.ite (fun _ => ?_) fun _ => ?_)
  · exact .pure ((hsynced _ _).addProperty ..)
  · exact .pure ((hsynced _ _).addAttribute ..)

theorem addGeneral (h : el.Within P) (loopItems : List String) (name : String)
    (argument : Option (String × Bool)) (modifiers : Option Modifiers) {a : Attribute}
    (ha : ∀ r ∈ a.range, P r) :
    Ensures P (Within P) (el.addGeneral loopItems name argument modifiers a) := by
  simp only [Element.addGeneral]
  exact .reporting (.error ((h.addDirective ha).rangeOf "v-model")) (.pure (h.addDirective ha))

theorem classify (h : el.Within P) (surroundings : Surroundings) (loopItems : List String)
    {a : Attribute} (ha : ∀ r ∈ a.range, P r) :
    Ensures P (Within P) (el.classify surroundings loopItems a) := by
  have hbound : ({ el with hasBindings := true } : Element).Within P := { h with }
  rw [Element.classify]
  split
  · exact h.addLiteral surroundings ha
  · exact hbound.addBinding surroundings.platform _ _ _ ha
  · rw [addListenerChecked]
    exact .reporting (.error ha) (.pure (hbound.addListener _))
  · exact hbound.addGeneral loopItems _ _ _ ha

theorem classifyAll (h : el.Within P) (surroundings : Surroundings) (loopItems : List String) :
    Ensures P (Within P) (el.classifyAll surroundings loopItems) :=
  .foldlM (fun _ hel a ha => hel.classify surroundings loopItems (h.pending a ha)) h

end Within

end Element

/-! ## Extensions and rules -/

open ViewTemplate.Reported

/-- An extension that brings no places of its own: whatever property the places of an element have,
those of its reports have it, and those of the element it gives. -/
structure Extension.BringsNoRanges (extension : Extension) : Prop where
  atStart : ∀ P surroundings el, Element.Within P el →
    Ensures P (Element.Within P) (extension.atStart surroundings el)
  atEnd : ∀ P surroundings el, Element.Within P el →
    Ensures P (Element.Within P) (extension.atEnd surroundings el)
  afterPlacement : ∀ P surroundings el, Element.Within P el →
    Ensures P (Element.Within P) (extension.afterPlacement surroundings el)

/-- A rule that brings no places besides those of the element and the directive. -/
def Rule.BringsNoRanges (rule : Rule) : Prop :=
  ∀ P surroundings el directive, Element.Within P el → (∀ r ∈ directive.range, P r) →
    Ensures P (fun result => result.1.Within P) (rule surroundings el directive)

namespace Extension

variable {P : Range → Prop} {el : Element}

theorem within_runAll {hook : Extension → Surroundings → Element → Reported Element}
    {extensions : List Extension}
    (hhook : ∀ x ∈ extensions, ∀ surroundings el, Element.Within P el →
      Ensures P (Element.Within P) (hook x surroundings el))
    (surroundings : Surroundings) (h : el.Within P) :
    Ensures P (Element.Within P) (runAll hook extensions surroundings el) :=
  .foldlM (fun el hel x hx => hhook x hx surroundings el hel) h

theorem within_readStatic {name : String} {cause : String → Cause} {code : String → String}
    {note : Option String → Element → Element}
    (hnote : ∀ c {el : Element}, el.Within P → (note c el).Within P) (h : el.Within P)
    (surroundings : Surroundings) :
    Ensures P (Element.Within P) (readStatic name cause code note surroundings el) := by
  have hrest := h.reads (.take el name) rfl
  refine (Ensures.option_forM fun value => ?_).bind fun _ _ => .pure (hnote _ hrest)
  exact .ite (fun _ => .error (hrest.rangeOf name)) fun _ => .pure trivial

/-- The extensions for documents bring no places. -/
theorem bringsNoRanges_web : ∀ x ∈ Options.web.extensions, x.BringsNoRanges := by
  intro x hx
  rcases Options.eq_of_mem_web hx with rfl | rfl
  · refine ⟨fun _ _ _ h => .pure h, fun P surroundings el h => ?_, fun _ _ _ h => .pure h⟩
    have hstatic : Ensures P (Element.Within P) (readStaticClass surroundings el) := by
      apply within_readStatic _ h
      exact fun _ _ h => { h with }
    have hbound (el : Element) (h : el.Within P) : (readClassBinding el).Within P :=
      h.reads (.trans (.takeBinding el "class") (.same rfl)) rfl
    exact hstatic.bind fun el h => .pure (hbound el h)
  · refine ⟨fun _ _ _ h => .pure h, fun P surroundings el h => ?_, fun _ _ _ h => .pure h⟩
    have hstatic : Ensures P (Element.Within P) (readStaticStyle surroundings el) := by
      apply within_readStatic _ h
      exact fun _ _ h => { h with }
    have hbound (el : Element) (h : el.Within P) : (readStyleBinding el).Within P :=
      h.reads (.trans (.takeBinding el "style") (.same rfl)) rfl
    exact hstatic.bind fun el h => .pure (hbound el h)

end Extension

namespace Rule

theorem bringsNoRanges_content (property : String) : BringsNoRanges (content property) := by
  intro P surroundings el directive h hd
  refine .pure ?_
  show Element.Within P (if directive.value = "" then el else _)
  split
  · exact h
  · exact h.addProperty ..

theorem bringsNoRanges_on : BringsNoRanges on := by
  intro P surroundings el directive h hd
  exact .reporting (.error hd) (.pure { h with })

section Model

variable {P : Range → Prop} {el : Element} (h : el.Within P)
include h

theorem within_writeBack (event code : String) : (Model.writeBack el event code).Within P :=
  h.addListener _

theorem within_checkbox (directive : Directive) : (Model.checkbox el directive).Within P := by
  have hvalues := h.reads (.trans (.takeBindingOrText el "value")
    (.trans (.takeBindingOrText _ "true-value") (.takeBindingOrText _ "false-value"))) rfl
  simp only [Model.checkbox]
  exact within_writeBack (hvalues.addProperty ..) _ _

theorem within_radio (directive : Directive) : (Model.radio el directive).Within P := by
  simp only [Model.radio]
  exact within_writeBack ((h.reads (.takeBindingOrText el "value") rfl).addProperty ..) _ _

theorem within_input (directive : Directive) : (Model.input el directive).Within P := by
  simp only [Model.input]
  split
  · exact (within_writeBack (h.addProperty ..) _ _).addListener _
  · exact within_writeBack (h.addProperty ..) _ _

theorem within_reportFileInput (directive : Directive) :
    Ensures P (fun _ => True) (Model.reportFileInput el directive) := by
  exact .onlyIf (.error (h.rangeOf "v-model"))

theorem within_reportConflict : Ensures P (fun _ => True) (Model.reportConflict el) := by
  rw [Model.reportConflict]
  split
  · exact .ite (fun _ => .pure trivial) fun _ => .error (h.rangeOf _)
  · exact .pure trivial

end Model

theorem bringsNoRanges_model : BringsNoRanges model := by
  intro P surroundings el directive h hd
  have hcomponent : (Model.component el directive).Within P := { h with }
  have hselect : (Model.select el directive).Within P := within_writeBack h _ _
  simp only [model]
  refine (within_reportFileInput h directive).bind fun _ _ => ?_
  refine .ite (fun _ => .pure hcomponent) fun _ => .ite (fun _ => .pure hselect) fun _ => ?_
  refine .ite (fun _ => .pure (within_checkbox h directive)) fun _ => ?_
  refine .ite (fun _ => .pure (within_radio h directive)) fun _ => .ite (fun _ => ?_) fun _ => ?_
  · exact (within_reportConflict h).bind fun _ _ => .pure (within_input h directive)
  · refine .ite (fun _ => ?_) fun _ => .pure hcomponent
    exact (Ensures.error (h.rangeOf "v-model")).bind fun _ _ => .pure h

/-- The rules that hold on every platform bring no places. -/
theorem bringsNoRanges_universal : ∀ rule ∈ universal.values, BringsNoRanges rule :=
  forall_universal bringsNoRanges_on (fun _ _ _ _ h _ => .pure { h with })
    fun _ _ _ _ h _ => .pure h

/-- The rules for documents bring no places. -/
theorem bringsNoRanges_web : ∀ rule ∈ web.values, BringsNoRanges rule :=
  forall_web bringsNoRanges_model bringsNoRanges_content

end Rule

end ViewTemplate
