import ViewTemplate.Proofs.VerbatimMode

/-! # Readings of plain elements

Whether an element is plain is told in the middle of its readings, when its key has been read and
everything else is still to come. A reading after that finds an attribute that was written, and then
the element was not plain because the attribute was still pending, or it finds nothing and leaves the
element alone.
-/

open List

namespace ViewTemplate

open Reported

namespace Element

/-- What is left of an element without its data: what its start tag gives, its place in the tree, its
structural directives and its marks. Everything else is as if nothing had been read. -/
def withoutData (el : Element) : Element where
  tag := el.tag
  pending := el.pending
  written := el.written
  source := el.source
  parent := el.parent
  children := el.children
  range := el.range
  ns := el.ns
  forbidden := el.forbidden
  pre := el.pre
  plain := el.plain
  processed := el.processed
  loop := el.loop
  choice := el.choice
  elseIf := el.elseIf
  isElse := el.isElse
  once := el.once
  isStatic := el.isStatic
  staticRoot := el.staticRoot
  staticInLoop := el.staticInLoop

/-- An element that has no data if it is plain. -/
def Tidy (el : Element) : Prop := el.plain = true → el = el.withoutData

/-! Links other than slots, and the place in the source, are no data. -/

theorem Tidy.withParent {el : Element} (h : el.Tidy) (parent : Option NodeId) :
    ({ el with parent }).Tidy :=
  fun hplain => congrArg (fun e => { e with parent }) (h hplain)

theorem Tidy.withChildren {el : Element} (h : el.Tidy) (children : List NodeId) :
    ({ el with children }).Tidy :=
  fun hplain => congrArg (fun e => { e with children }) (h hplain)

theorem Tidy.withRange {el : Element} (h : el.Tidy) (range : Option Range) :
    ({ el with range }).Tidy :=
  fun hplain => congrArg (fun e => { e with range }) (h hplain)

theorem Tidy.addBranch {el : Element} (h : el.Tidy) (branch : Branch) : (el.addBranch branch).Tidy :=
  fun hplain => congrArg (Element.addBranch branch) (h hplain)

/-- An element without data but for its slots, and without slots. -/
theorem eq_withoutData {el : Element} (h : el.unlinked = el.unlinked.withoutData)
    (hslots : el.scopedSlots = {}) : el = el.withoutData :=
  calc el
    _ = { el.unlinked with
          parent := el.parent
          children := el.children
          range := el.range
          choice := el.choice } := congrArg (fun slots => { el with scopedSlots := slots }) hslots
    _ = el.withoutData := congrArg (fun e : Element => { e with
          parent := el.parent
          children := el.children
          range := el.range
          choice := el.choice }) h

/-! ## Before the end tag -/

/-- The directives that are read at the start tag. -/
def structuralNames : List String := ["v-for", "v-if", "v-else", "v-else-if", "v-once"]

/-- The ways to write a key. -/
def keyNames : List String := [":key", "v-bind:key", "key"]

/-- Of the attributes that were written, those with certain names may have been taken. -/
def Took (names : List String) (el : Element) : Prop :=
  ∀ name, el.written.get? name ≠ none → (∃ a ∈ el.pending, a.name = name) ∨ name ∈ names

theorem Took.mono {names more : List String} {el : Element} (h : el.Took names)
    (hmore : names ⊆ more) : el.Took more :=
  fun name hname => (h name hname).imp_right fun hmem => hmore hmem

theorem Took.take {names : List String} {el : Element} (h : el.Took names) {name : String}
    (hname : name ∈ names) : (el.take name).2.Took names := by
  simp only [Took, Element.take]
  split
  · intro other hother
    rcases h other hother with ⟨a, ha, rfl⟩ | hmem
    · by_cases heq : a.name = name
      · exact .inr (heq ▸ hname)
      · exact .inl ⟨a, (mem_eraseP_of_neg (by simpa using heq)).mpr ha, rfl⟩
    · exact .inr hmem
  · exact h

/-- An element of which nothing has been read but some attributes by their names. Structural directives
and links to other elements are no data. -/
structure Unread (names : List String) (el : Element) : Prop where
  data : el.unlinked = el.unlinked.withoutData
  plain : el.plain = false
  took : el.Took names

namespace Unread

variable {names : List String} {el : Element}

theorem of_unlinked {later : Element} (h : el.Unread names) (hsame : later.unlinked = el.unlinked) :
    later.Unread names where
  data := by
    rw [hsame]
    exact h.data
  plain := (congrArg Element.plain hsame).trans h.plain
  took name hname := by
    have hwritten := congrArg Element.written hsame
    have hpending := congrArg Element.pending hsame
    simp only [unlinked] at hwritten hpending
    rw [hwritten] at hname
    rw [hpending]
    exact h.took name hname

theorem take (h : el.Unread names) {name : String} (hname : name ∈ names) :
    (el.take name).2.Unread names where
  data := congrArg (fun e => { e with pending := (el.take name).2.pending }) h.data
  plain := h.plain
  took := h.took.take hname

/-! ## At the start tag -/

section

variable (h : el.Unread structuralNames)
include h

theorem readLoop : el.readLoop.value.Unread structuralNames := by
  have hrest : (el.take "v-for").2.Unread structuralNames := h.take (by simp [structuralNames])
  exact ⟨congrArg (fun e => { e with loop := el.readLoop.value.loop }) hrest.data, hrest.plain,
    hrest.took⟩

theorem readBranch : el.readBranch.Unread structuralNames := by
  have hlast : (el.take "v-else").2.Unread structuralNames := h.take (by simp [structuralNames])
  have hguard := hlast.take (show "v-else-if" ∈ structuralNames by simp [structuralNames])
  exact ⟨congrArg (fun e => { e with
    elseIf := el.readBranch.elseIf, isElse := el.readBranch.isElse }) hguard.data, hguard.plain,
    hguard.took⟩

theorem readChoice : el.readChoice.Unread structuralNames := by
  have htake : (el.take "v-if").2.Unread structuralNames := h.take (by simp [structuralNames])
  simp only [Element.readChoice]
  split
  · exact ⟨htake.data, htake.plain, htake.took⟩
  · exact htake.readBranch

theorem readOnce : el.readOnce.Unread structuralNames := by
  have hrest : (el.take "v-once").2.Unread structuralNames := h.take (by simp [structuralNames])
  exact ⟨congrArg (fun e => { e with once := el.readOnce.once }) hrest.data, hrest.plain, hrest.took⟩

theorem readStructure :
    el.readStructure.value.Unread structuralNames := h.readLoop.readChoice.readOnce

end

/-! ## The key -/

theorem takeBinding (h : el.Unread names) {name : String}
    (hnames : ∀ n ∈ [":" ++ name, "v-bind:" ++ name], n ∈ names) :
    (el.takeBinding name).2.Unread names := by
  have hshort := h.take (hnames (":" ++ name) (by simp))
  have hlong := hshort.take (hnames ("v-bind:" ++ name) (by simp))
  refine ⟨congrArg (fun e => { e with pending := (el.takeBinding name).2.pending }) h.data, h.plain, ?_⟩
  simp only [Element.takeBinding]
  split
  · exact hshort.took
  · exact hlong.took

theorem takeBindingOrText (h : el.Unread names) {name : String}
    (hnames : ∀ n ∈ [":" ++ name, "v-bind:" ++ name, name], n ∈ names) :
    (el.takeBindingOrText name).2.Unread names := by
  have hbinding := h.takeBinding fun n hn => hnames n (mem_append_left [name] hn)
  have htext := hbinding.take (hnames name (by simp))
  refine ⟨congrArg (fun e => { e with pending := (el.takeBindingOrText name).2.pending }) h.data,
    h.plain, ?_⟩
  simp only [Element.takeBindingOrText]
  split
  · exact hbinding.took
  · exact htext.took

/-- An element without a key is unread after its key has been looked for. -/
theorem readKey (h : el.Unread (structuralNames ++ keyNames)) (parentTag : Option String)
    (hkey : (el.readKey parentTag).value.key = none) :
    (el.readKey parentTag).value.Unread (structuralNames ++ keyNames) := by
  have htake : (el.takeBindingOrText "key").2.Unread (structuralNames ++ keyNames) :=
    h.takeBindingOrText (by simp [structuralNames, keyNames])
  have hsame : (el.readKey parentTag).value = (el.takeBindingOrText "key").2 :=
    congrArg (fun key => { (el.takeBindingOrText "key").2 with key })
      (hkey.trans (Option.or_eq_none_iff.mp hkey).2.symm)
  rw [hsame]
  exact htake

end Unread

/-! ## After the key -/

/-- An element without data and with nothing left to read. -/
structure Spent (el : Element) : Prop where
  data : el = el.withoutData
  pending : el.pending = []
  took : el.Took (structuralNames ++ keyNames)

/-- An element that is found to be plain has nothing left to read. -/
theorem Unread.spent_markPlain {el : Element} (h : el.Unread structuralNames)
    (parentTag : Option String) (hplain : (el.readKey parentTag).value.markPlain.plain = true) :
    (el.readKey parentTag).value.markPlain.Spent := by
  simp only [markPlain, Bool.and_eq_true, Option.isNone_iff_eq_none, List.isEmpty_iff] at hplain
  obtain ⟨⟨hkey, hslots⟩, hpending⟩ := hplain
  have hread := Unread.readKey ⟨h.data, h.plain, h.took.mono (subset_append_left ..)⟩ parentTag hkey
  have hdata : (el.readKey parentTag).value = (el.readKey parentTag).value.withoutData :=
    eq_withoutData hread.data (Keyed.ext (List.isEmpty_iff.mp hslots))
  refine ⟨?_, hpending, hread.took⟩
  exact congrArg (fun e => { e with plain := (el.readKey parentTag).value.markPlain.plain }) hdata

namespace Spent

variable {el : Element} {name : String}

/-- Other names than those of structural directives and keys. -/
theorem take (h : el.Spent) (hname : name ∉ structuralNames ++ keyNames) :
    el.take name = (none, el) := by
  apply take_of_none
  by_contra hsome
  rcases h.took name hsome with ⟨a, ha, -⟩ | hmem
  · rw [h.pending] at ha
    cases ha
  · exact hname hmem

theorem takeBinding (h : el.Spent)
    (hnames : ∀ n ∈ [":" ++ name, "v-bind:" ++ name], n ∉ structuralNames ++ keyNames) :
    el.takeBinding name = (none, el) := by
  simp only [Element.takeBinding, h.take (hnames (":" ++ name) (by simp)),
    h.take (hnames ("v-bind:" ++ name) (by simp))]
  rfl

theorem takeBindingOrText (h : el.Spent)
    (hnames : ∀ n ∈ [":" ++ name, "v-bind:" ++ name, name], n ∉ structuralNames ++ keyNames) :
    el.takeBindingOrText name = (none, el) := by
  rw [Element.takeBindingOrText,
    h.takeBinding fun n hn => hnames n (mem_append_left [name] hn)]
  simp only [h.take (hnames name (by simp))]
  rfl

end Spent

/-- A later stage of the readings of an element. It is not plain if the element was not, and it is the
element itself if there was nothing left to read. -/
structure Spares (el later : Element) : Prop where
  plain : later.plain = true → el.plain = true
  same : el.Spent → later = el

namespace Spares

theorem trans {el mid later : Element} (h : el.Spares mid) (h' : mid.Spares later) :
    el.Spares later where
  plain hplain := h.plain (h'.plain hplain)
  same hspent := by
    have hmid := h.same hspent
    exact (h'.same (hmid ▸ hspent)).trans hmid

end Spares

/-- Whatever is read after an element has been found plain or not leaves it tidy. -/
theorem Tidy.of_spares {el later : Element} {parentTag : Option String}
    (h : el.Unread structuralNames)
    (hlater : (el.readKey parentTag).value.markPlain.Spares later) : later.Tidy := by
  intro hplain
  have hspent := h.spent_markPlain parentTag (hlater.plain hplain)
  rw [hlater.same hspent]
  exact hspent.data

/-! ## The readings one by one -/

theorem spares_readRef (el : Element) (inLoop : Bool) : el.Spares (el.readRef inLoop) where
  plain := (Reads.readRef el inLoop).plain
  same h := by
    rw [readRef, h.takeBindingOrText (by simp [structuralNames, keyNames])]
    rfl

theorem spares_readScope (el : Element) : el.Spares el.readScope.value where
  plain := (Reads.readScope el).plain
  same h := by
    have hnone : ({ el with slotScope := none } : Element) = el :=
      (congrArg (fun e => { e with slotScope := none }) h.data).trans h.data.symm
    have hslot := h.take (show "slot-scope" ∉ _ by simp [structuralNames, keyNames])
    rw [readScope]
    split
    · have hscope := h.take (show "scope" ∉ _ by simp [structuralNames, keyNames])
      simp only [readTemplateScope, hscope, hslot]
      exact hnone
    · simp only [readElementScope, hslot]
      rfl

theorem spares_readSlotTarget (el : Element) : el.Spares el.readSlotTarget where
  plain := (Reads.readSlotTarget el).plain
  same h := by
    rw [readSlotTarget, h.takeBindingOrText (by simp [structuralNames, keyNames])]
    rfl

theorem spares_readSlotDirective (el : Element) (platform : Platform)
    (parentIsComponent : Option Bool) :
    el.Spares (el.readSlotDirective platform parentIsComponent).value.1 where
  plain := (Reads.readSlotDirective el platform parentIsComponent).plain
  same h := by
    have hnil : el.takeFirst Spelling.isSlot = (none, el) := by
      rw [takeFirst, h.pending]
      exact Prod.ext rfl (congrArg (fun as => { el with pending := as }) h.pending.symm)
    rw [readSlotDirective, hnil]
    rfl

theorem spares_readOutlet (el : Element) : el.Spares el.readOutlet.value where
  plain := (Reads.readOutlet el).plain
  same h := by
    rw [readOutlet]
    split
    · rw [h.takeBindingOrText (by simp [structuralNames, keyNames])]
      exact (congrArg (fun e => { e with slotName := none }) h.data).trans h.data.symm
    · rfl

theorem spares_readComponent (el : Element) : el.Spares el.readComponent where
  plain := (Reads.readComponent el).plain
  same h := by
    have htemplate := h.take (show "inline-template" ∉ _ by simp [structuralNames, keyNames])
    simp only [readComponent, h.takeBindingOrText (show ∀ n ∈ [":" ++ "is", "v-bind:" ++ "is", "is"], _ by
      simp [structuralNames, keyNames]), htemplate]
    rfl

/-- What is classified is added, so that the element is not plain. -/
theorem plain_classify (surroundings : Surroundings) (loopItems : List String) (el : Element)
    (a : Attribute) : (classify surroundings loopItems el a).value.plain = false := by
  rw [classify]
  split
  · simp only [addLiteral, value_bind]
    split <;> rfl
  · simp only [addBinding, value_bind]
    -- whether the value is written back does not matter here
    split
    all_goals
      split <;> rfl
  · rfl
  · rfl

theorem spares_classifyAll (el : Element) (surroundings : Surroundings) (loopItems : List String) :
    el.Spares (el.classifyAll surroundings loopItems).value where
  plain := by
    rw [classifyAll]
    generalize el.pending = as
    induction as generalizing el with
    | nil => exact id
    | cons a as ih =>
      intro hplain
      rw [foldlM_cons, value_bind] at hplain
      have hnot := ih _ hplain
      rw [plain_classify] at hnot
      cases hnot
  same h := by
    rw [classifyAll, h.pending]
    rfl

end Element

namespace Extension

open ViewTemplate.Element

theorem spares_atEnd_web {x : Extension} (hx : x ∈ Options.web.extensions)
    (surroundings : Surroundings) (el : Element) : el.Spares (x.atEnd surroundings el).value := by
  refine atEnd_web_relates (R := Spares) Spares.trans ?_ ?_ ?_ ?_ hx surroundings el
  · refine fun el c hc => ⟨id, fun h => ?_⟩
    rw [h.take (by simp [structuralNames, keyNames])] at hc ⊢
    rw [hc rfl]
    rfl
  · refine fun el => ⟨id, fun h => ?_⟩
    rw [h.takeBinding (by simp [structuralNames, keyNames])]
    rfl
  · refine fun el s hs => ⟨id, fun h => ?_⟩
    rw [h.take (by simp [structuralNames, keyNames])] at hs ⊢
    rw [hs rfl]
    rfl
  · refine fun el => ⟨id, fun h => ?_⟩
    rw [h.takeBinding (by simp [structuralNames, keyNames])]
    rfl

end Extension

namespace Builder

open ViewTemplate.Element

variable {options : Options} (hweb : ∀ x ∈ options.extensions, x ∈ Options.web.extensions)

theorem spares_readPlacement (platform : Platform) (parent : Option Element) (inLoop : Bool)
    (el : Element) :
    (el.readKey (parent.map Element.tag)).value.markPlain.Spares
      (readPlacement platform parent inLoop el).value.1 := by
  simp only [readPlacement, readSlotContent, value_bind]
  generalize (el.readKey (parent.map Element.tag)).value.markPlain = marked
  exact (spares_readRef marked inLoop).trans ((spares_readScope _).trans
    ((spares_readSlotTarget _).trans (spares_readSlotDirective _ platform _)))

include hweb

theorem spares_readContent (loopItems : List String) (el : Element) :
    el.Spares (readContent options loopItems el).value := by
  have hrun (extensions : List Extension) (h : ∀ x ∈ extensions, x ∈ Options.web.extensions)
      (el : Element) : el.Spares (Extension.runAll Extension.atEnd extensions options.surroundings
        el).value := by
    induction extensions generalizing el with
    | nil => exact ⟨id, fun _ => rfl⟩
    | cons x extensions ih =>
      rw [Extension.runAll, foldlM_cons, value_bind]
      obtain ⟨hx, hrest⟩ := forall_mem_cons.mp h
      exact (Extension.spares_atEnd_web hx options.surroundings el).trans (ih hrest _)
  simp only [readContent, value_bind]
  exact (spares_readOutlet el).trans ((spares_readComponent _).trans
    ((hrun options.extensions hweb _).trans (spares_classifyAll _ _ loopItems)))

end Builder

end ViewTemplate
