import ViewTemplate.Proofs.ElementSites
import ViewTemplate.Proofs.ElementTies
import ViewTemplate.Proofs.PlainReadings

/-! # Plain elements

A plain element is written without its data object. Nothing is lost by that: in the tree of every
template a plain element has no data, so that its data object would be empty, or tell that the element
lies in a verbatim region and nothing else.
-/

open List

namespace ViewTemplate

open Element

/-- A plain element has no data. -/
def Node.Tidy : Node → Prop
  | .element el => el.Tidy
  | _ => True

namespace Tree

/-- Plain elements have no data. -/
abbrev Tidy (tree : Tree) : Prop := tree.Throughout Node.Tidy

end Tree

namespace Builder

open ViewTemplate.Tree

variable {options : Options} {b : Builder} {id : NodeId} {el : Element}

/-! ## Readings -/

theorem tidy_trimChildren (h : b.tree.Tidy) (id : NodeId) : (b.trimChildren id).tree.Tidy :=
  h.update id fun _ _ hel => Tidy.withChildren hel _

theorem tidy_fillUse {tree : Tree} (h : tree.Tidy) (id : NodeId) (use : Option SlotUse) :
    (fillUse id use tree).Tidy := by
  exact fillUse_of_parts (R := fun tree later => tree.Tidy → later.Tidy) (fun _ h => h)
    (fun h h' htidy => h' (h htidy)) (fun _ _ h => h.add _ nofun)
    (fun _ child _ h => h.update child fun _ _ hel => Tidy.withParent hel _)
    (fun _ _ h => h.update id fun _ _ _ hplain => nomatch hplain) use h

section Web

variable (hweb : ∀ x ∈ options.extensions, x ∈ Options.web.extensions)
include hweb

/-- Reading an element that was unread leaves a tidy tree. -/
theorem tidy_readElement {tree : Tree} (h : tree.Tidy) (hel : tree.element? id = some el)
    (hunread : el.Unread structuralNames) : (readElement options id tree).value.Tidy := by
  generalize hloops : ((tree.ancestors id).filterMap fun e => e.2.loop) = loops
  generalize hplaced : (readPlacement options.platform (el.parent.bind tree.element?)
    (!loops.isEmpty) el).value = placed
  rw [readElement_eq options hel hloops hplaced]
  have hspares := spares_readPlacement options.platform (el.parent.bind tree.element?)
    (!loops.isEmpty) el
  rw [hplaced] at hspares
  have hset : (tree.set id (.element placed.1)).Tidy := h.set id _ (Tidy.of_spares hunread hspares)
  have hat : (tree.set id (.element placed.1)).element? id = some placed.1 := by
    rw [element?_set, if_pos rfl, node?_of_element? hel]
    rfl
  cases huse : placed.2 with
  | none =>
    refine hset.update id fun el' hel' _ => ?_
    have hel' : (tree.set id (.element placed.1)).element? id = some el' := hel'
    rw [hat] at hel'
    cases hel'
    exact Tidy.of_spares hunread (hspares.trans (spares_readContent hweb _ _))
  | some use =>
    refine (tidy_fillUse hset id (some use)).update id fun el' hel' _ hplain => ?_
    -- filling a slot makes the element not plain
    have hel' : (fillSlot id use (tree.set id (.element placed.1))).element? id = some el' := hel'
    rw [fillSlot_eq hat, element?_update, if_pos rfl] at hel'
    obtain ⟨before, -, rfl⟩ := Option.map_eq_some_iff.mp hel'
    cases (spares_readContent hweb _ _).plain hplain

/-- An element is read where it closes, outside of verbatim regions. -/
theorem tidy_finishReading (h : b.tree.Tidy)
    (hunread : b.inVerbatim = false → ∀ el, b.tree.element? id = some el →
      el.Unread structuralNames) : (b.finishReading options id).value.tree.Tidy := by
  rw [finishReading]
  split
  · exact h
  · rename_i hread
    simp only [Bool.or_eq_true, not_or, Bool.not_eq_true] at hread
    show (readElement options id b.tree).value.Tidy
    cases hel : b.tree.element? id with
    | none =>
      rw [readElement, hel]
      exact h
    | some el => exact tidy_readElement hweb h hel (hunread hread.1 el hel)

omit hweb

/-! ## Places -/

/-- A child that is content of a slot goes to an element that is not plain. -/
theorem tidy_placeChild {tree : Tree} (h : tree.Tidy) {parent : NodeId}
    (hparent : ∀ p, tree.element? parent = some p → p.plain = true → el.slotScope = none) :
    (placeChild id el parent tree).Tidy := by
  rw [placeChild]
  refine Throughout.update (h.update parent fun p hp htidy hplain => ?_) id
    fun _ _ hel => Tidy.withParent hel _
  rw [hparent p hp hplain]
  exact htidy.withChildren _ hplain

theorem tidy_place (h : b.tree.Tidy)
    (hparent : ∀ parent p el, b.parent? = some parent → b.tree.element? parent = some p →
      b.tree.element? id = some el → p.plain = true → el.slotScope = none) :
    (b.place id).value.tree.Tidy := by
  refine of_place (P := Tree.Tidy) h (fun parent _ => h.update parent fun _ _ hel => Tidy.withChildren hel _)
    (fun holder branch htree => htree.update holder fun _ _ hel => Tidy.addBranch hel branch) ?_
  exact fun el parent hel hstack => tidy_placeChild h fun p hp hplain =>
    hparent parent p el hstack hp hel hplain

include hweb

theorem tidy_finishElement (h : b.tree.Tidy) : (b.finishElement options id).value.tree.Tidy := by
  have hsame (el : Element) : leftAs options el = el := by
    refine leftAs_keeps (fun el => el) (fun x hx surroundings el => ?_) el
    rcases Options.eq_of_mem_web (hweb x hx) with rfl | rfl <;> rfl
  rw [tree_finishElement]
  refine h.update id fun el _ hel => ?_
  rw [hsame]
  exact hel

/-- Closing an element leaves a tidy tree. Outside of verbatim regions the element was unread, and so
was the one around it, which is not plain then. In a verbatim region nothing is content of a slot. -/
theorem tidy_close (h : b.tree.Tidy) (hel : b.tree.element? id = some el)
    (hunread : b.inVerbatim = false → el.Unread structuralNames)
    (hscope : b.inVerbatim = true → el.slotScope = none)
    (hparent : ∀ parent, b.parent? = some parent → parent ≠ id ∧ ∃ p,
      b.tree.element? parent = some p ∧ (b.inVerbatim = false → p.plain = false)) :
    (b.close options id).value.tree.Tidy := by
  have hmode : (b.trimChildren id).inVerbatim = b.inVerbatim := inVerbatim_trimChildren id b
  simp only [close, Reported.value_bind]
  generalize hread : ((b.trimChildren id).finishReading options id).value = read
  have hsame {j : NodeId} (hj : j = id → b.inVerbatim = true) : SameAt j b.tree read.tree := by
    rw [← hread]
    exact (related_trimChildren allowsLinks_sameAt id b).trans
      (sameAt_finishReading fun heq => hmode.trans (hj heq))
  have htidy : read.tree.Tidy := by
    rw [← hread]
    refine tidy_finishReading hweb (tidy_trimChildren h id) fun hout el' hel' => ?_
    exact (hunread (hmode.symm.trans hout)).of_unlinked
      ((related_trimChildren allowsLinks_sameAt id b).unlinked_eq hel hel')
  have hplaced : (read.place id).value.tree.Tidy := by
    refine tidy_place htidy fun parent p' el' hhead hp' hel' hplain => ?_
    have hstack : b.parent? = some parent := by
      rw [← hhead, ← hread, parent?, parent?, stack_finishReading, stack_trimChildren]
    obtain ⟨hne, p, hp, hnot⟩ := hparent parent hstack
    cases hverbatim : b.inVerbatim with
    | true =>
      have hunlinked := (hsame fun _ => hverbatim).unlinked_eq hel hel'
      exact (congrArg Element.slotScope hunlinked).trans (hscope hverbatim)
    | false =>
      have hunlinked := (hsame fun heq => absurd heq hne).unlinked_eq hp hp'
      have hplain' : p.plain = true := (congrArg Element.plain hunlinked).symm.trans hplain
      rw [hnot hverbatim] at hplain'
      cases hplain'
  refine tidy_finishElement hweb (tidy_trimChildren ?_ id)
  exact hplaced.update id fun _ _ hel => Tidy.withChildren hel _

end Web

/-! ## Events -/

theorem tidy_appendNode {tree : Tree} (h : tree.Tidy) (parent : NodeId) {node : Node}
    (hnode : node.element? = none) : (appendNode parent node tree).Tidy := by
  refine Throughout.update (h.add node ?_) parent fun _ _ hel => Tidy.withChildren hel _
  cases node with
  | element el => cases hnode
  | interpolated t => trivial
  | plain t => trivial

/-- What is known of a tree under construction: it is tidy, and open elements outside of verbatim
regions are unread. -/
structure Tidied (region : NodeId → Prop) (b : Builder) : Prop where
  literally : b.Literally region
  tidy : b.tree.Tidy
  unread : ∀ i ∈ b.stack, ¬ region i → ∀ el, b.tree.element? i = some el →
    el.Unread structuralNames

theorem unread_bare (tag : String) (attributes : List Attribute) (range : Range) (b : Builder) :
    (b.bare options tag attributes range).Unread structuralNames where
  data := rfl
  plain := rfl
  took name hname := by
    by_contra hnot
    refine hname (Keyed.get?_ofList_eq_none fun e he heq => hnot (.inl ?_))
    obtain ⟨a, ha, rfl⟩ := List.mem_map.mp he
    exact ⟨a, ha, heq⟩

/-- An element that is taken literally is plain only if it has no attributes. -/
theorem tidy_keepLiterals {el : Element} (hdata : el = el.withoutData) (hplain : el.plain = false) :
    el.keepLiterals.Tidy := by
  intro hliteral
  simp only [keepLiterals, hplain, Bool.false_or, Bool.and_eq_true] at hliteral
  have hkept : el.keepLiterals = { el with plain := el.keepLiterals.plain } := by
    simp only [keepLiterals, hliteral.1, if_true]
  rw [hkept]
  exact congrArg (fun e => { e with plain := el.keepLiterals.plain }) hdata

/-- An open element that an event does not close stays unread. -/
theorem unread_step {region : NodeId → Prop} (template : String) (h : b.Tidied region) (e : Event)
    {i : NodeId} (hi : i ∈ b.stack) (hregion : ¬ b.literalAfter options region e i)
    (hopen : ∀ tag range, e = .finish tag range → b.stack.head? ≠ some i) :
    ∀ el, (b.step options template e).value.tree.element? i = some el → el.Unread structuralNames := by
  intro later hlater
  have hlt := h.literally.lt_size hi
  obtain ⟨el, hel⟩ := h.literally.verbatim.nested.element i hi
  have hsame : SameAt i b.tree (b.step options template e).value.tree :=
    sameAt_step template e hlt fun tag range he hhead => absurd hhead (hopen tag range he)
  have hunread := h.unread i hi (mt (literalAfter_of_lt e hlt).mpr hregion) el hel
  exact hunread.of_unlinked (hsame.unlinked_eq hel hlater)

section Web

variable (hweb : ∀ x ∈ options.extensions, x ∈ Options.web.extensions) {region : NodeId → Prop}
include hweb

theorem unread_entered {tag : String} {attributes : List Attribute} {range : Range} {b : Builder}
    (h : (b.opened options tag attributes range).inVerbatim = false) :
    (b.entered options tag attributes range).Unread structuralNames := by
  rw [(entered_of_web hweb tag attributes range b).2 h]
  exact (unread_bare tag attributes range b).readStructure

theorem tidy_entered (tag : String) (attributes : List Attribute) (range : Range) (b : Builder) :
    (b.entered options tag attributes range).Tidy := by
  cases h : (b.opened options tag attributes range).inVerbatim with
  | true =>
    rw [(entered_of_web hweb tag attributes range b).1 h]
    split
    · exact tidy_keepLiterals rfl rfl
    · exact tidy_keepLiterals rfl rfl
  | false =>
    intro hplain
    rw [(unread_entered hweb h).plain] at hplain
    cases hplain

theorem tidy_opened (h : b.tree.Tidy) (tag : String) (attributes : List Attribute) (range : Range) :
    (b.opened options tag attributes range).tree.Tidy := by
  exact (h.add (.element _) (tidy_entered hweb tag attributes range b)).of_nodes
    (nodes_opened options tag attributes range b)

/-- An element is ready to be closed: it is unread or literal, and so is the element around it. -/
theorem tidy_closesAt (h : b.Tidied region) {e : Event} {id : NodeId} {before : Builder}
    (hclosing : b.ClosesAt options e id before) : (before.close options id).value.tree.Tidy := by
  cases hclosing with
  | unary tag attributes range =>
    have hel : (b.opened options tag attributes range).tree.element? b.tree.nodes.size =
        some (b.entered options tag attributes range) := by
      rw [element?_opened, if_pos rfl]
    refine tidy_close hweb (tidy_opened hweb h.tidy tag attributes range) hel (unread_entered hweb)
      (fun hmode => ?_) fun parent hhead => ?_
    · rw [entered_eq_literal hweb hmode]
      rfl
    · rw [parent?, stack_opened] at hhead
      have hmem : parent ∈ b.stack := mem_of_mem_head? hhead
      have hne : parent ≠ b.tree.nodes.size := Nat.ne_of_lt (h.literally.lt_size hmem)
      obtain ⟨p, hp⟩ := h.literally.verbatim.nested.element parent hmem
      refine ⟨hne, p, ?_, fun hmode => ?_⟩
      · rw [element?_opened, if_neg hne]
        exact hp
      · rw [(verbatim_entered (sparesVerbatim_of_web hweb) tag attributes range b).1,
          Bool.or_eq_false_iff] at hmode
        refine (h.unread parent hmem (fun hregion => ?_) p hp).plain
        rw [(h.literally.region_head hhead).mp hregion] at hmode
        cases hmode.1
  | finish tag range hstack =>
    have hid : id ∈ b.stack := hstack ▸ mem_cons_self
    have hregion : region id ↔ b.inVerbatim = true :=
      h.literally.region_head (congrArg head? hstack)
    obtain ⟨el, hel⟩ := h.literally.verbatim.nested.element id hid
    have hstop : (b.tree.update id fun el =>
        { el with range := el.range.map fun r => { r with stop := range.stop } }).element? id =
          some { el with range := el.range.map fun r => { r with stop := range.stop } } := by
      rw [element?_update, if_pos rfl, hel]
      rfl
    refine tidy_close hweb (h.tidy.update id fun _ _ hel => Tidy.withRange hel _) hstop (fun hmode => ?_)
      (fun hmode => ?_) fun parent hhead => ?_
    · have hout : ¬ region id := fun hin => Bool.false_ne_true (hmode.symm.trans (hregion.mp hin))
      exact (h.unread id hid hout el hel).of_unlinked rfl
    · exact congrArg Element.slotScope (h.literally.literal id el hel (hregion.mpr hmode))
    · obtain ⟨rest', rfl⟩ := head?_eq_some_iff.mp hhead
      have hmem : parent ∈ b.stack := hstack ▸ mem_cons_of_mem id mem_cons_self
      have hordered := h.literally.ordered
      have hnested := h.literally.verbatim.nested
      rw [hstack] at hordered hnested
      have hne : parent ≠ id :=
        Nat.ne_of_lt ((pairwise_cons.mp hordered).1 parent mem_cons_self)
      obtain ⟨p, hp⟩ := h.literally.verbatim.nested.element parent hmem
      refine ⟨hne, p, ?_, fun hmode => ?_⟩
      · show (b.tree.update id _).element? parent = some p
        rw [element?_update, if_neg hne]
        exact hp
      · refine (h.unread parent hmem (fun hin => ?_) p hp).plain
        exact Bool.false_ne_true (hmode.symm.trans (hregion.mp (hnested.of_parent hin)))

section

variable (template : String) (h : b.Tidied region) (e : Event)
include h

theorem tidy_step :
    (b.step options template e).value.tree.Tidy := by
  have hsteps := steps_step options template b e
  generalize (b.step options template e).value = later at hsteps ⊢
  cases hsteps with
  | opens tag attributes range => exact tidy_opened hweb h.tidy tag attributes range
  | closes hclosing => exact tidy_closesAt hweb h hclosing
  | appends _ _ hnode _ htree =>
    rw [htree]
    exact tidy_appendNode h.tidy _ hnode.element?
  | stays _ _ htree =>
    rw [htree]
    exact h.tidy

/-- The elements that are open after an event were open before, and stay unread, or are new. -/
theorem unread_of_mem_step {i : NodeId} (hi : i ∈ (b.step options template e).value.stack)
    (hregion : ¬ b.literalAfter options region e i) :
    ∀ el, (b.step options template e).value.tree.element? i = some el →
      el.Unread structuralNames := by
  rcases h.literally.mem_stack_step hi with ⟨hmem, hopen⟩ | ⟨tag, attributes, range, rfl, rfl⟩
  · exact unread_step template h e hmem hregion hopen
  · intro el hel
    rw [step, value_start] at hel
    have hel : (b.opened options tag attributes range).tree.element? b.tree.nodes.size = some el :=
      hel
    rw [element?_opened, if_pos rfl] at hel
    cases hel
    exact unread_entered hweb (Bool.eq_false_iff.mpr fun hmode => hregion (.inr ⟨rfl, hmode⟩))

/-- One event keeps the tree tidy. -/
theorem tidied_step :
    (b.step options template e).value.Tidied (b.literalAfter options region e) where
  literally := literally_step hweb template h.literally e
  tidy := tidy_step hweb template h e
  unread _ hi hregion := unread_of_mem_step hweb template h e hi hregion

end

/-- A run of events keeps the tree tidy. -/
theorem tidied_foldlM (template : String) (events : List Event) (h : b.Tidied region) :
    ∃ region', (events.foldlM (step options template) b).value.Tidied region' := by
  induction events generalizing b region with
  | nil => exact ⟨region, h⟩
  | cons e events ih =>
    rw [foldlM_cons, Reported.value_bind]
    exact ih (tidied_step hweb template h e)

end Web

end Builder

namespace Tree

open ViewTemplate.Render

/-- In the tree of every template that is read without further extensions, plain elements have no
data. -/
theorem tidy_ofTemplate {options : Options}
    (hweb : ∀ x ∈ options.extensions, x ∈ Options.web.extensions) (template : String) :
    (ofTemplate options template).value.Tidy := by
  have hempty : ({} : Builder).Tidied fun _ => False := by
    refine ⟨Builder.literally_empty, fun i node hnode => ?_, nofun⟩
    cases hnode
  obtain ⟨region, h⟩ := Builder.tidied_foldlM hweb template
    (Markup.events (markupSettings options) template) hempty
  exact h.tidy

/-- Marks are no data. -/
theorem IsOfTemplate.tidy {options : Options} {template : String} {tree : Tree}
    (h : tree.IsOfTemplate options template)
    (hweb : ∀ x ∈ options.extensions, x ∈ Options.web.extensions) :
    ∀ i el, tree.element? i = some el → el.Tidy := by
  have hparsed := tidy_ofTemplate hweb template
  rcases h with rfl | ⟨marking, rfl⟩
  · exact fun i el hel => hparsed.element hel
  · obtain ⟨ledger, hsound, -⟩ := exists_sound_ofTemplate (Builder.keepsLinks_of_web hweb) template
    intro i el hel hplain
    obtain ⟨el₀, hel₀, hsame⟩ := hsound.element?_marked hel
    have hdata : el₀ = el₀.withoutData :=
      hparsed.element hel₀ ((congrArg Element.plain hsame).symm.trans hplain)
    have hunmarked : el.unmarked = el.unmarked.withoutData := by
      rw [hsame]
      exact congrArg Element.unmarked hdata
    exact congrArg (fun e => { e with
      isStatic := el.isStatic
      staticRoot := el.staticRoot
      staticInLoop := el.staticInLoop }) hunmarked

end Tree

namespace Render

/-- What an element without data has to say of itself: whether it lies in a verbatim region. -/
theorem ownEntries_withoutData {scene : Scene}
    (hweb : ∀ x ∈ scene.options.extensions, x ∈ Options.web.extensions) (verbatim : Bool)
    (el : Element) :
    ownEntries scene verbatim el.withoutData [] = if verbatim then ["pre:true"] else [] := by
  have hextensions : scene.options.extensions.flatMap (fun x => x.data el.withoutData) = [] := by
    rw [flatMap_eq_nil_iff]
    intro x hx
    rcases Options.eq_of_mem_web (hweb x hx) with rfl | rfl <;> rfl
  simp only [ownEntries, hextensions]
  cases verbatim <;> rfl

/-- The data object of an element without data. Nothing is collected or reported on the way. -/
theorem dataCode_withoutData (scene : Scene)
    (hweb : ∀ x ∈ scene.options.extensions, x ∈ Options.web.extensions) (id : NodeId)
    (el : Element) (children : List Rendering) (verbatim : Bool) (progress : Progress) :
    ∃ code : Code, (dataCode scene id el.withoutData children [] verbatim).run progress =
        pure (code, progress) ∧
      code.print = if scene.tree.isVerbatim id then "\x7bpre:true\x7d" else "\x7b\x7d" := by
  refine ⟨dataObject scene id el.withoutData [] none none, ?_, ?_⟩
  · rw [dataCode_eq]
    rfl
  · rw [dataObject, ownEntries_withoutData hweb]
    cases scene.tree.isVerbatim id <;> rfl

end Render

namespace Tree

open ViewTemplate.Render

/-- Whatever the template, a plain element has no data: neither directives, key, reference, component,
class, style, attributes, properties, listeners, slot, slots nor a template inside. Its data object
would be empty, or tell that the element lies in a verbatim region and nothing else. -/
theorem data_of_plain (options : Options) (template : String)
    (hweb : ∀ x ∈ options.extensions, x ∈ Options.web.extensions) (tree : Tree)
    (htree : tree.IsOfTemplate options template) (i : NodeId) (el : Element)
    (hel : tree.element? i = some el) (hplain : el.plain = true) (verbatim : Bool)
    (progress : Progress) :
    let scene := Scene.ofTree options tree
    el = el.withoutData ∧
      tree.renderingOf options i = (tree.site options i el).rendering scene (tree.content i) ∧
      ∃ code : Code, ((tree.site options i el).data scene verbatim).run progress =
          pure (code, progress) ∧
        code.print = if tree.isVerbatim i then "\x7bpre:true\x7d" else "\x7b\x7d" := by
  intro scene
  obtain ⟨ledger, hsound⟩ := htree.exists_sound (Builder.keepsLinks_of_web hweb)
  have hdata : el = el.withoutData := htree.tidy hweb i el hel hplain
  refine ⟨hdata, hsound.renderingOf_eq hel, ?_⟩
  have hslots : (tree.site options i el).slots = [] := by
    rw [site, hdata]
    rfl
  obtain ⟨code, hcode, hprint⟩ := dataCode_withoutData scene hweb i el
    (tree.site options i el).children verbatim progress
  refine ⟨code, ?_, hprint⟩
  rw [Site.data, hslots, ← hcode]
  show (dataCode scene i el _ [] verbatim).run progress = _
  rw [← hdata]

/-- An element with a guard, and one in a verbatim region. -/
theorem data_of_plain_in_and_out_of_verbatim :
    (∀ x ∈ Options.web.extensions, x ∈ Options.web.extensions) ∧
      ∃ (tree : Tree) (el inner : Element) (code innerCode : Code),
        tree.IsOfTemplate .web "<div v-if='a'><p v-pre><b></b></p></div>" ∧
        tree.element? 0 = some el ∧ el.plain = true ∧ el.choice.isSome = true ∧
        tree.element? 2 = some inner ∧ inner.plain = true ∧
        ((tree.site .web 0 el).data (Scene.ofTree .web tree) false).run {} = pure (code, {}) ∧
        code.print = "\x7b\x7d" ∧
        ((tree.site .web 2 inner).data (Scene.ofTree .web tree) false).run {} =
          pure (innerCode, {}) ∧
        innerCode.print = "\x7bpre:true\x7d" := by
  refine ⟨fun _ hx => hx, ?_⟩
  generalize htree : (ofTemplate .web "<div v-if='a'><p v-pre><b></b></p></div>").value = tree
  have hfacts : (tree.element? 0).map (fun el => (el.plain, el.choice.isSome)) = some (true, true) ∧
      (tree.element? 2).map Element.plain = some true ∧
      tree.isVerbatim 0 = false ∧ tree.isVerbatim 2 = true := by
    rw [← htree]
    decide +kernel
  simp only [Option.map_eq_some_iff, Prod.mk.injEq] at hfacts
  obtain ⟨⟨el, hel, hplain, hchoice⟩, ⟨inner, hinner, hplain'⟩, hout, hin⟩ := hfacts
  have hof : tree.IsOfTemplate .web "<div v-if='a'><p v-pre><b></b></p></div>" := .inl htree.symm
  obtain ⟨-, -, code, hcode, hprint⟩ :=
    data_of_plain .web _ (fun _ hx => hx) tree hof 0 el hel hplain false {}
  obtain ⟨-, -, innerCode, hinnerCode, hprint'⟩ :=
    data_of_plain .web _ (fun _ hx => hx) tree hof 2 inner hinner hplain' false {}
  rw [hout] at hprint
  rw [hin] at hprint'
  exact ⟨tree, el, inner, code, innerCode, hof, hel, hplain, hchoice, hinner, hplain', hcode, hprint,
    hinnerCode, hprint'⟩

end Tree

end ViewTemplate
