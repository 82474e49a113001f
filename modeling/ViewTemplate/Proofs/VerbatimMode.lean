import ViewTemplate.Proofs.EnclosingLoops
import ViewTemplate.Proofs.SettledElements
import ViewTemplate.Proofs.StaticSoundness

/-! # Verbatim mode

Whether the builder is in a verbatim region is one mark. It is set exactly while an element with
`v-pre` is open, so the elements that are taken literally are those with `v-pre` and those below them,
and no others.
-/

open List

namespace ViewTemplate

/-- An attribute that is taken literally. -/
def Attribute.literal (a : Attribute) : Attribute where
  name := a.name
  value := Text.quote a.value
  range := a.range

/-- What is left of an element that is taken literally: what its start tag gives, its place in the
tree, and its attributes as literals. Everything else is as if nothing had been read. -/
def Element.literal (el : Element) : Element where
  tag := el.tag
  pending := el.pending
  written := el.written
  source := el.source
  parent := el.parent
  children := el.children
  range := el.range
  ns := el.ns
  forbidden := el.forbidden
  pre := el.pre
  plain := el.plain
  attributes := el.pending.map Attribute.literal

namespace Element

variable {el : Element}

/-- An element that is literal up to its links, and that has neither branches nor slots, is
literal. -/
theorem eq_literal (h : el.unlinked = el.unlinked.literal) (hchoice : el.choice = none)
    (hslots : el.scopedSlots = {}) : el = el.literal := by
  cases el with
  | mk =>
    simp only [unlinked, literal, mk.injEq] at h
    cases hchoice
    cases hslots
    simp only [literal, mk.injEq]
    simp only [h, and_self]

theorem unlinked_eq_literal (h : el = el.literal) : el.unlinked = el.unlinked.literal :=
  congrArg unlinked h

/-- Keeping its literals makes an element literal of which nothing has been read. -/
theorem keepLiterals_eq_literal (h : el = { el.literal with attributes := [] }) :
    el.keepLiterals = el.keepLiterals.literal := by
  have hattributes : el.keepLiterals.attributes = el.pending.map Attribute.literal := by
    simp only [keepLiterals]
    split
    · rename_i hempty
      rw [List.isEmpty_iff.mp hempty]
      exact congrArg attributes h
    · rfl
  calc el.keepLiterals
      = { el with attributes := el.pending.map Attribute.literal, plain := el.keepLiterals.plain } :=
        congrArg (fun as => { el.keepLiterals with attributes := as }) hattributes
    _ = el.keepLiterals.literal := congrArg (fun e => { e with
        attributes := el.pending.map Attribute.literal, plain := el.keepLiterals.plain }) h

/-- The first mark of a region is taken away. -/
theorem pending_readVerbatim (h : el.readVerbatim.pre = true) (hpre : el.pre = false) :
    el.readVerbatim.pending = el.pending.eraseP fun a => a.name == "v-pre" := by
  simp only [readVerbatim, take] at h ⊢
  cases hv : el.attribute? "v-pre" with
  | none =>
    rw [hv] at h
    exact absurd (hpre.symm.trans h) Bool.false_ne_true
  | some value => rfl

theorem readVerbatim_of_pre (h : el.readVerbatim.pre = false) : el.readVerbatim = el := by
  cases hv : el.attribute? "v-pre" with
  | none => exact readVerbatim_of_none hv
  | some value =>
    simp only [readVerbatim, take, hv] at h
    cases h

theorem readVerbatim_unread (h : el = { el.literal with attributes := [] }) :
    el.readVerbatim = { el.readVerbatim.literal with attributes := [] } :=
  congrArg (fun e => { e with pre := el.readVerbatim.pre, pending := el.readVerbatim.pending }) h

end Element

namespace Tree.Verbatim

variable {region : NodeId → Prop} {tree : Tree} {stack : List NodeId} {verbatim : Bool}
  (h : tree.Verbatim region stack verbatim)
include h

theorem region_of_ancestor {i : NodeId} {fuel : Nat}
    (hpre : ((tree.ancestorsFrom fuel (some i)).any fun e => e.2.pre) = true) : region i := by
  induction fuel generalizing i with
  | zero => cases hpre
  | succ fuel ih =>
    rw [ancestorsFrom] at hpre
    cases hel : tree.element? i with
    | none =>
      rw [hel] at hpre
      cases hpre
    | some el =>
      rw [hel, any_cons, Bool.or_eq_true] at hpre
      rcases hpre with hpre | hpre
      · exact h.pre i el hel hpre
      · cases hp : el.parent with
        | none =>
          rw [hp] at hpre
          cases fuel <;> cases hpre
        | some p =>
          rw [hp] at hpre
          exact h.inner i el p hel hp (ih hpre)

theorem ancestor_of_region {depth : NodeId → Nat}
    (hdepth : ∀ i p, tree.HasParent i p → depth p < depth i) {i : NodeId} (hi : region i)
    {fuel : Nat} (hfuel : depth i < fuel) :
    ((tree.ancestorsFrom fuel (some i)).any fun e => e.2.pre) = true := by
  induction fuel generalizing i with
  | zero => exact absurd hfuel (Nat.not_lt_zero _)
  | succ fuel ih =>
    obtain ⟨el, hel⟩ := h.element i hi
    rw [ancestorsFrom, hel, any_cons, Bool.or_eq_true]
    cases hpre : el.pre with
    | true => exact .inl rfl
    | false =>
      obtain ⟨p, hp, hregion⟩ := h.outer i el hel hi hpre
      have hlt := hdepth i p ⟨el, hel, hp⟩
      right
      rw [hp]
      exact ih hregion (by omega)

/-- In a tree whose parents lead outwards, the region is told by the elements that open it. -/
theorem isVerbatim_iff {ledger : Ledger} {opened : List NodeId}
    (hsound : tree.Sound ledger opened []) (i : NodeId) :
    tree.isVerbatim i = true ↔ region i := by
  obtain ⟨depth, hdepth, hbound⟩ := hsound.exists_depth
  constructor
  · exact h.region_of_ancestor
  · intro hi
    obtain ⟨el, hel⟩ := h.element i hi
    exact h.ancestor_of_region hdepth hi (hbound i (lt_size_of_element? hel))

end Tree.Verbatim

namespace Builder

open ViewTemplate.Tree

variable {b before : Builder} {e : Event} {i : NodeId} {region : NodeId → Prop} {options : Options}
  {template : String}

section Web

variable (hweb : ∀ x ∈ options.extensions, x ∈ Options.web.extensions)
include hweb

theorem sparesVerbatim_of_web : ∀ x ∈ options.extensions, x.SparesVerbatim :=
  fun x hx => Extension.sparesVerbatim_web x (hweb x hx)

theorem keepsLinks_of_web : ∀ x ∈ options.extensions, x.KeepsLinks :=
  fun x hx => Extension.keepsLinks_web x (hweb x hx)

theorem leavesPlaced_of_web : LeavesPlaced options := by
  intro x hx surroundings el
  rcases Options.eq_of_mem_web (hweb x hx) with rfl | rfl <;> rfl

theorem value_newElement_of_web (tag : String) (attributes : List Attribute) (range : Range)
    (b : Builder) :
    (b.newElement options tag attributes range).value = b.bare options tag attributes range := by
  refine newElement_keeps (fun el => el) (fun x hx surroundings el => ?_) tag attributes range b
  rcases Options.eq_of_mem_web (hweb x hx) with rfl | rfl <;> rfl

/-- A start tag either brings a literal element or one whose structural directives are read, as the
mode says that it leads to. -/
theorem entered_of_web (tag : String) (attributes : List Attribute) (range : Range) (b : Builder) :
    ((b.opened options tag attributes range).inVerbatim = true →
        b.entered options tag attributes range =
          (if b.inVerbatim then b.bare options tag attributes range
            else (b.bare options tag attributes range).readVerbatim).keepLiterals) ∧
      ((b.opened options tag attributes range).inVerbatim = false →
        b.entered options tag attributes range =
          (b.bare options tag attributes range).readStructure.value) := by
  rw [inVerbatim_opened, entered, value_newElement_of_web hweb]
  have hprocessed : (b.bare options tag attributes range).processed = false := rfl
  generalize b.bare options tag attributes range = el at hprocessed ⊢
  simp only [enter]
  generalize hread : (if b.inVerbatim = true then el else el.readVerbatim) = read
  cases hafter : b.inVerbatim || read.pre with
  | true => simp
  | false =>
    obtain ⟨hout, hpre⟩ := Bool.or_eq_false_iff.mp hafter
    rw [hout] at hread
    subst hread
    have hsame : el.readVerbatim = el := Element.readVerbatim_of_pre hpre
    simp [hsame, hprocessed]

section

variable {tag : String} {attributes : List Attribute} {range : Range} {b : Builder}
  (h : (b.opened options tag attributes range).inVerbatim = true)
include h

/-- An element that a start tag brings in verbatim mode is literal. -/
theorem entered_eq_literal :
    b.entered options tag attributes range = (b.entered options tag attributes range).literal := by
  rw [(entered_of_web hweb tag attributes range b).1 h]
  have hbare : b.bare options tag attributes range =
      { (b.bare options tag attributes range).literal with attributes := [] } := rfl
  split
  · exact Element.keepLiterals_eq_literal hbare
  · exact Element.keepLiterals_eq_literal (Element.readVerbatim_unread hbare)

/-- In verbatim mode an element keeps the attributes of its start tag, less the mark. -/
theorem pending_entered :
    (b.entered options tag attributes range).tag = tag ∧
      (b.entered options tag attributes range).pending =
        if b.inVerbatim then attributes else attributes.eraseP fun a => a.name == "v-pre" := by
  have hafter := (verbatim_entered (sparesVerbatim_of_web hweb) tag attributes range b).1
  rw [h] at hafter
  rw [(entered_of_web hweb tag attributes range b).1 h] at hafter ⊢
  constructor
  · split <;> rfl
  · cases hmode : b.inVerbatim with
    | true => rfl
    | false =>
      rw [hmode, Bool.false_or] at hafter
      exact Element.pending_readVerbatim hafter.symm rfl

end

theorem processed_entered (tag : String) (attributes : List Attribute) (range : Range)
    (b : Builder) : (b.entered options tag attributes range).processed = false := by
  cases h : (b.opened options tag attributes range).inVerbatim with
  | true =>
    rw [entered_eq_literal hweb h]
    rfl
  | false =>
    rw [(entered_of_web hweb tag attributes range b).2 h]
    exact (Element.Reads.readStructure _).processed

end Web

/-! ## Events -/

/-- The state of the builder and the elements that it has taken literally so far. Open elements wait
for their end tags in the order of their numbers. -/
structure Literally (region : NodeId → Prop) (b : Builder) : Prop where
  verbatim : b.tree.Verbatim region b.stack b.inVerbatim
  literal : ∀ i el, b.tree.element? i = some el → region i → el.unlinked = el.unlinked.literal
  ordered : b.stack.Pairwise fun j i => i < j
  unread : ∀ i ∈ b.stack, ∀ el, b.tree.element? i = some el → el.processed = false

namespace Literally

variable {i : NodeId} {b : Builder}

theorem lt_size (h : b.Literally region) (hi : i ∈ b.stack) : i < b.tree.nodes.size := by
  obtain ⟨el, hel⟩ := h.verbatim.nested.element i hi
  exact lt_size_of_element? hel

theorem region_lt_size (h : b.Literally region) (hi : region i) : i < b.tree.nodes.size := by
  obtain ⟨el, hel⟩ := h.verbatim.element i hi
  exact lt_size_of_element? hel

/-- The mode is the one of the innermost open element. -/
theorem region_head (h : b.Literally region) (hi : b.stack.head? = some i) :
    region i ↔ b.inVerbatim = true := by
  obtain ⟨rest, hrest⟩ := head?_eq_some_iff.mp hi
  have hnested := h.verbatim.nested
  rw [hrest] at hnested
  exact hnested.region_iff

/-- What is open after an event was open before, and its end tag is another one, or it is new. -/
theorem mem_stack_step (h : b.Literally region) {template : String} {e : Event}
    (hi : i ∈ (b.step options template e).value.stack) :
    i ∈ b.stack ∧ (∀ tag range, e = .finish tag range → b.stack.head? ≠ some i) ∨
      ∃ tag attributes range, e = .start tag attributes false range ∧ i = b.tree.nodes.size := by
  have hsteps := steps_step options template b e
  generalize (b.step options template e).value = later at hsteps hi
  cases hsteps with
  | opens tag attributes range =>
    rcases mem_cons.mp hi with hi | hi
    · exact .inr ⟨tag, attributes, range, rfl, hi⟩
    · exact .inl ⟨hi, nofun⟩
  | closes hclosing =>
    rw [stack_close] at hi
    cases hclosing with
    | unary tag attributes range => exact .inl ⟨stack_opened options tag attributes range b ▸ hi, nofun⟩
    | finish tag range hstack =>
      refine .inl ⟨hstack ▸ mem_cons_of_mem _ hi, fun _ _ _ hhead => ?_⟩
      have hordered := h.ordered
      rw [hstack] at hordered hhead
      cases hhead
      exact Nat.lt_irrefl i ((pairwise_cons.mp hordered).1 i hi)
  | appends he _ _ _ _ hstack =>
    exact .inl ⟨hstack ▸ hi, by rcases he with rfl | rfl <;> exact nofun⟩
  | stays hclosing _ _ hstack =>
    refine .inl ⟨hstack ▸ hi, ?_⟩
    rintro tag range rfl hhead
    exact nomatch hhead.symm.trans (Option.map_eq_none_iff.mp hclosing)

end Literally

/-- What is literal up to links stays so where elements stay the same up to links. -/
theorem literal_of_sameAt {tree later : Tree}
    (h : ∀ i el, tree.element? i = some el → region i → el.unlinked = el.unlinked.literal)
    (helement : ∀ i, region i → ∃ el, tree.element? i = some el)
    (hsame : ∀ i, region i → SameAt i tree later) :
    ∀ i el, later.element? i = some el → region i → el.unlinked = el.unlinked.literal := by
  intro i el' hel' hi
  obtain ⟨el, hel⟩ := helement i hi
  rw [(hsame i hi).unlinked_eq hel hel']
  exact h i el hel hi

theorem processed_of_sameAt {tree later : Tree} (hsame : SameAt i tree later)
    (helement : ∃ el, tree.element? i = some el)
    (h : ∀ el, tree.element? i = some el → el.processed = false) :
    ∀ el, later.element? i = some el → el.processed = false := by
  intro el' hel'
  obtain ⟨el, hel⟩ := helement
  exact (congrArg Element.processed (hsame.unlinked_eq hel hel')).trans (h el hel)

section Web

variable (hweb : ∀ x ∈ options.extensions, x ∈ Options.web.extensions) {b : Builder}
include hweb

/-- The tree with the element of a start tag. -/
theorem unlinked_eq_literal_opened (h : b.Literally region) (tag : String) (attributes : List Attribute)
    (range : Range) :
    ∀ i el, (b.opened options tag attributes range).tree.element? i = some el →
      (region i ∨ i = b.tree.nodes.size ∧
        (b.opened options tag attributes range).inVerbatim = true) →
      el.unlinked = el.unlinked.literal := by
  intro i el hel hi
  rw [element?_opened] at hel
  split at hel
  · rename_i heq
    cases hel
    refine Element.unlinked_eq_literal (entered_eq_literal hweb ?_)
    refine (hi.resolve_left fun hregion => ?_).2
    exact Nat.lt_irrefl _ (heq ▸ h.region_lt_size hregion)
  · rename_i hne
    exact h.literal i el hel (hi.resolve_right fun hi => hne hi.1)

end Web

theorem literalAfter_of_lt (e : Event) (hi : i < b.tree.nodes.size) :
    b.literalAfter options region e i ↔ region i := by
  cases e with
  | start tag attributes unary range =>
    exact or_iff_left fun hi' => absurd hi'.1 (Nat.ne_of_lt hi)
  | finish | text | comment => exact Iff.rfl

/-- The tree only grows. -/
theorem size_step_le (options : Options) (template : String) (b : Builder) (e : Event) :
    b.tree.nodes.size ≤ (b.step options template e).value.tree.nodes.size :=
  (keeps_step (g := fun _ => ()) (fun _ _ => ⟨fun _ _ => rfl, fun _ _ => rfl, fun _ _ => rfl⟩) rfl
    (fun _ _ _ _ _ _ => rfl) b).size_le

/-- A start tag brings an element. -/
theorem lt_size_start (options : Options) (tag : String) (attributes : List Attribute)
    (unary : Bool) (range : Range) (b : Builder) :
    b.tree.nodes.size < (b.start options tag attributes unary range).value.tree.nodes.size := by
  have hopened : b.tree.nodes.size < (b.opened options tag attributes range).tree.nodes.size := by
    rw [nodes_opened, size_add]
    exact Nat.lt_succ_self _
  rw [value_start]
  cases unary with
  | true =>
    rw [if_pos rfl]
    have hkeeps : Keeps (fun _ => ()) (fun _ => True) (b.opened options tag attributes range).tree
        ((b.opened options tag attributes range).close options b.tree.nodes.size).value.tree :=
      keeps_close (fun _ _ => ⟨fun _ _ => rfl, fun _ _ => rfl, fun _ _ => rfl⟩) trivial _ _
    exact Nat.lt_of_lt_of_le hopened hkeeps.size_le
  | false => exact hopened

theorem literally_empty : ({} : Builder).Literally fun _ => False :=
  ⟨verbatim_empty, fun _ _ _ h => h.elim, List.Pairwise.nil, fun _ hi => absurd hi not_mem_nil⟩

section Web

variable {b : Builder} (hweb : ∀ x ∈ options.extensions, x ∈ Options.web.extensions)
  (template : String)
include hweb

/-- A literal element stays as it is, up to its links. -/
theorem sameAt_step_of_literal (h : b.Literally region) (e : Event) {i : NodeId} (hi : region i) :
    SameAt i b.tree (b.step options template e).value.tree := by
  refine sameAt_step template e (h.region_lt_size hi) fun tag range _ hhead => ?_
  exact ⟨(h.region_head hhead).mp hi, leavesPlaced_of_web hweb⟩

theorem unlinked_eq_literal_step (h : b.Literally region) (e : Event) :
    ∀ i el, (b.step options template e).value.tree.element? i = some el →
      b.literalAfter options region e i → el.unlinked = el.unlinked.literal := by
  have hsame {i : NodeId} (hi : region i) := sameAt_step_of_literal hweb template h e hi
  have hsteps := steps_step options template b e
  generalize (b.step options template e).value = later at hsame hsteps ⊢
  have hstay (hafter : b.literalAfter options region e = region) :
      ∀ i el, later.tree.element? i = some el → b.literalAfter options region e i →
        el.unlinked = el.unlinked.literal := by
    rw [hafter]
    exact literal_of_sameAt h.literal h.verbatim.element fun i hi => hsame hi
  cases hsteps with
  | opens tag attributes range => exact unlinked_eq_literal_opened hweb h tag attributes range
  | closes hclosing =>
    cases hclosing with
    | unary tag attributes range =>
      have hverbatim := verbatim_opened (sparesVerbatim_of_web hweb) h.verbatim tag attributes range
      refine literal_of_sameAt (unlinked_eq_literal_opened hweb h tag attributes range)
        hverbatim.element fun i hi => sameAt_close ?_
      rintro rfl
      exact ⟨hverbatim.nested.region_iff.mp hi, leavesPlaced_of_web hweb⟩
    | finish tag range hstack => exact hstay rfl
  | appends he => exact hstay (literalAfter_of_ne (by rcases he with rfl | rfl <;> exact nofun))
  | stays _ hstart => exact hstay (literalAfter_of_ne hstart)

/-- One event keeps what is known of literal elements. -/
theorem literally_step (h : b.Literally region) (e : Event) :
    (b.step options template e).value.Literally (b.literalAfter options region e) where
  verbatim := verbatim_step (sparesVerbatim_of_web hweb) template h.verbatim e
  literal := unlinked_eq_literal_step hweb template h e
  ordered := by
    have hsteps := steps_step options template b e
    generalize (b.step options template e).value = later at hsteps ⊢
    cases hsteps with
    | opens tag attributes range => exact pairwise_cons.mpr ⟨fun i hi => h.lt_size hi, h.ordered⟩
    | closes hclosing =>
      rw [stack_close]
      cases hclosing with
      | unary tag attributes range => exact stack_opened options tag attributes range b ▸ h.ordered
      | finish tag range hstack => exact (pairwise_cons.mp (hstack ▸ h.ordered)).2
    | appends _ _ _ _ _ hstack => exact hstack ▸ h.ordered
    | stays _ _ _ hstack => exact hstack ▸ h.ordered
  unread i hi := by
    rcases h.mem_stack_step hi with ⟨hmem, hhead⟩ | ⟨tag, attributes, range, rfl, rfl⟩
    · refine processed_of_sameAt (sameAt_step template e (h.lt_size hmem) ?_)
        (h.verbatim.nested.element i hmem) (h.unread i hmem)
      exact fun tag range he hi => absurd hi (hhead tag range he)
    · intro el hel
      rw [step, value_start] at hel
      have hel : (b.opened options tag attributes range).tree.element? b.tree.nodes.size = some el :=
        hel
      rw [element?_opened, if_pos rfl] at hel
      cases hel
      exact processed_entered hweb tag attributes range b

/-- A run of events keeps what is known of literal elements. It settles nothing anew about elements
that are in the tree already, and leaves the literal ones among them as they are. -/
theorem literally_foldlM (events : List Event) (h : b.Literally region) :
    ∃ region', (events.foldlM (step options template) b).value.Literally region' ∧
      (∀ i, i < b.tree.nodes.size → (region' i ↔ region i)) ∧
      ∀ i, region i → SameAt i b.tree (events.foldlM (step options template) b).value.tree := by
  induction events generalizing b region with
  | nil => exact ⟨region, h, fun _ _ => Iff.rfl, fun i _ => .refl i b.tree⟩
  | cons e events ih =>
    rw [foldlM_cons, Reported.value_bind]
    have hstep := literally_step hweb template h e
    obtain ⟨region', hend, hsettled, hsame⟩ := ih hstep
    refine ⟨region', hend, fun i hi => ?_, fun i hi => ?_⟩
    · calc region' i ↔ b.literalAfter options region e i :=
          hsettled i (Nat.lt_of_lt_of_le hi (size_step_le options template b e))
      _ ↔ region i := literalAfter_of_lt e hi
    · have hafter : b.literalAfter options region e i :=
        (literalAfter_of_lt e (h.region_lt_size hi)).mpr hi
      exact (sameAt_step_of_literal hweb template h e hi).trans (hsame i hafter)

end Web

theorem lt_size_of_closing (template : String) (h : b.Literally region)
    (hclosing : b.closing options e = some (i, before)) :
    i < (b.step options template e).value.tree.nodes.size := by
  cases closesAt_of_closing hclosing with
  | unary tag attributes range => exact lt_size_start ..
  | finish tag range hstack =>
    exact Nat.lt_of_lt_of_le (h.lt_size (hstack ▸ mem_cons_self))
      (size_step_le options template b (.finish tag range))

/-- Outside of verbatim mode an element is read when it closes. -/
theorem finishReading_of_unread {id : NodeId} (hmode : b.inVerbatim = false)
    (hunread : ∀ el, b.tree.element? id = some el → el.processed = false) :
    b.finishReading options id =
      (do let tree ← readElement options id b.tree; pure { b with tree }) := by
  have hany : (b.tree.element? id).any Element.processed = false := by
    cases hel : b.tree.element? id with
    | none => rfl
    | some el => exact hunread el hel
  rw [finishReading, hmode, hany]
  rfl

section Web

variable (hweb : ∀ x ∈ options.extensions, x ∈ Options.web.extensions)
include hweb

/-- What closes outside of literal elements is read. -/
theorem finishReading_of_closing {b before : Builder} (h : b.Literally region) {e : Event}
    {i : NodeId} (hclosing : b.closing options e = some (i, before))
    (hi : ¬ b.literalAfter options region e i) :
    (before.trimChildren i).finishReading options i =
      (do let tree ← readElement options i (before.trimChildren i).tree
          pure { before.trimChildren i with tree }) := by
  have hread (hmode : before.inVerbatim = false)
      (hunread : ∀ el, before.tree.element? i = some el → el.processed = false) :
      (before.trimChildren i).finishReading options i =
        (do let tree ← readElement options i (before.trimChildren i).tree
            pure { before.trimChildren i with tree }) := by
    refine finishReading_of_unread ((inVerbatim_trimChildren i before).trans hmode) ?_
    intro el hel
    have hel : (before.tree.update i _).element? i = some el := hel
    rw [element?_update, if_pos rfl] at hel
    obtain ⟨el', hel', rfl⟩ := Option.map_eq_some_iff.mp hel
    exact hunread el' hel'
  cases closesAt_of_closing hclosing with
  | unary tag attributes range =>
    refine hread ?_ fun el hel => ?_
    · exact Bool.eq_false_iff.mpr fun hmode => hi (.inr ⟨rfl, hmode⟩)
    · rw [element?_opened, if_pos rfl] at hel
      cases hel
      exact processed_entered hweb tag attributes range b
  | finish tag range hstack =>
    have hid : b.stack.head? = some i := congrArg head? hstack
    refine hread ?_ fun el hel => ?_
    · exact Bool.eq_false_iff.mpr fun hmode => hi ((h.region_head hid).mpr hmode)
    · have hel : (b.tree.update i _).element? i = some el := hel
      rw [element?_update, if_pos rfl] at hel
      obtain ⟨el', hel', rfl⟩ := Option.map_eq_some_iff.mp hel
      exact h.unread i (mem_of_mem_head? hid) el' hel'

end Web

end Builder

namespace Tree

/-- The builder is in verbatim mode exactly while an element that opens a region is open. -/
theorem Nested.verbatim_iff {region : NodeId → Prop} {tree : Tree} {stack : List NodeId}
    {verbatim : Bool} (h : tree.Nested region stack verbatim) :
    verbatim = true ↔ ∃ i ∈ stack, ∃ el, tree.element? i = some el ∧ el.pre = true := by
  induction h with
  | nil => simp
  | outside _ hel hpre _ ih =>
    rw [ih]
    simp [hel, hpre]
  | opening _ hel hpre _ ih => simp [hel, hpre]
  | inside _ hel hpre _ ih =>
    rw [ih]
    simp [hel, hpre]

/-- Verbatim mode is exact for the events of a template and the tree that is built from them. -/
structure VerbatimExact (options : Options) (template : String) (events : List Event)
    (tree : Tree) : Prop where
  /-- The mode is on exactly while an element with the mark is open. -/
  mode : ∀ done rest, events = done ++ rest →
    ((Builder.after options template done).inVerbatim = true ↔
      ∃ i ∈ (Builder.after options template done).stack, ∃ el,
        (Builder.after options template done).tree.element? i = some el ∧ el.pre = true)
  /-- An element with the mark, or below one, is literal and nothing else. -/
  literal : ∀ i el, tree.element? i = some el → tree.isVerbatim i = true → el = el.literal
  /-- Its texts are literal. -/
  texts : ∀ i el, tree.element? i = some el → tree.isVerbatim i = true → ∀ c ∈ el.children, ∀ t,
    tree.node? c ≠ some (.interpolated t)
  /-- Its attributes are all that its start tag has, less the mark itself. -/
  attributes : ∀ done rest tag attributes unary range,
    events = done ++ .start tag attributes unary range :: rest →
    tree.isVerbatim (Builder.after options template done).tree.nodes.size = true →
    ∃ el, tree.element? (Builder.after options template done).tree.nodes.size = some el ∧
      el.tag = tag ∧ el.pending =
        if (Builder.after options template done).inVerbatim then attributes
        else attributes.eraseP fun a => a.name == "v-pre"
  /-- Structural directives of any other element are read at its start tag, -/
  structural : ∀ done rest tag attributes unary range,
    events = done ++ .start tag attributes unary range :: rest →
    tree.isVerbatim (Builder.after options template done).tree.nodes.size = false →
    (Builder.after options template done).entered options tag attributes range =
      ((Builder.after options template done).bare options tag attributes range).readStructure.value
  /-- the rest where it closes, -/
  content : ∀ done rest e i before, events = done ++ e :: rest →
    (Builder.after options template done).closing options e = some (i, before) →
    tree.isVerbatim i = false →
    ((Builder.after options template done).step options template e).value =
        (before.close options i).value ∧
      (before.trimChildren i).finishReading options i =
        (do let tree ← Builder.readElement options i (before.trimChildren i).tree
            pure { before.trimChildren i with tree })
  /-- and bindings are looked for in its texts. -/
  bindings : ∀ done rest text range i, events = done ++ .text text range :: rest →
    (Builder.after options template done).stack.head? = some i → tree.isVerbatim i = false →
    ∀ parent kept tokens, kept ≠ " " → Interpolation.read? options.delimiters kept = some tokens →
      (Builder.after options template done).textNode? options parent kept range =
        some (.interpolated { tokens, text := kept, range := some range })

section

variable {done rest : List Event} {options : Options}
  (hweb : ∀ x ∈ options.extensions, x ∈ Options.web.extensions) (template : String)
include hweb

/-- The literal elements of the finished tree are those with the mark and those below them. -/
theorem exists_literally_ofTemplate :
    ∃ region, (Builder.after options template
        (Markup.events (markupSettings options) template)).Literally region ∧
      ∀ i, (ofTemplate options template).value.isVerbatim i = true ↔ region i := by
  obtain ⟨region, h, -⟩ := Builder.literally_foldlM hweb template
    (Markup.events (markupSettings options) template) Builder.literally_empty
  obtain ⟨ledger, hsound, -⟩ := exists_sound_ofTemplate (Builder.keepsLinks_of_web hweb) template
  exact ⟨region, h, h.verbatim.isVerbatim_iff hsound⟩

/-- Which elements end up literal is known as soon as their start tags have been read. -/
theorem isVerbatim_iff_literalAfter {e : Event}
    (hevents : Markup.events (markupSettings options) template = done ++ e :: rest) :
    ∃ region, (Builder.after options template done).Literally region ∧
      (∀ i, i < ((Builder.after options template done).step options template e).value.tree.nodes.size →
        ((ofTemplate options template).value.isVerbatim i = true ↔
          (Builder.after options template done).literalAfter options region e i)) ∧
      ∀ i, (Builder.after options template done).literalAfter options region e i →
        SameAt i ((Builder.after options template done).step options template e).value.tree
          (ofTemplate options template).value := by
  obtain ⟨region, h, -⟩ := Builder.literally_foldlM hweb template done Builder.literally_empty
  have hstep := Builder.literally_step hweb template h e
  obtain ⟨region', hend, hsettled, hsame⟩ := Builder.literally_foldlM hweb template rest hstep
  obtain ⟨ledger, hsound, -⟩ := exists_sound_ofTemplate (Builder.keepsLinks_of_web hweb) template
  have hfinal : (ofTemplate options template).value = (rest.foldlM (Builder.step options template)
      ((Builder.after options template done).step options template e).value).value.tree := by
    show ((Markup.events (markupSettings options) template).foldlM (Builder.step options template)
      {}).value.tree = _
    rw [hevents, foldlM_append, Reported.value_bind, foldlM_cons, Reported.value_bind]
    rfl
  refine ⟨region, h, fun i hi => ?_, fun i hi => ?_⟩
  · rw [hfinal] at hsound ⊢
    calc _ ↔ region' i :=
          hend.verbatim.isVerbatim_iff hsound i
      _ ↔ _ := hsettled i hi
  · rw [hfinal]
    exact hsame i hi

/-- The mode at an event is that of the innermost open element. -/
theorem isVerbatim_head {e : Event}
    (hevents : Markup.events (markupSettings options) template = done ++ e :: rest) {i : NodeId}
    (hi : (Builder.after options template done).stack.head? = some i) :
    (ofTemplate options template).value.isVerbatim i = true ↔
      (Builder.after options template done).inVerbatim = true := by
  obtain ⟨region, h, hiff, -⟩ := isVerbatim_iff_literalAfter hweb template hevents
  have hlt := h.lt_size (mem_of_mem_head? hi)
  calc _ ↔ (Builder.after options template done).literalAfter options region e i :=
        hiff i (Nat.lt_of_lt_of_le hlt (Builder.size_step_le options template _ e))
    _ ↔ region i := Builder.literalAfter_of_lt e hlt
    _ ↔ _ := h.region_head hi

section

variable {tag : String} {attributes : List Attribute} {unary : Bool} {range : Range}
  (hevents : Markup.events (markupSettings options) template = done ++ .start tag attributes unary range :: rest)
include hevents

/-- The element of a start tag is literal exactly if the start tag leads to or stays in verbatim
mode. -/
theorem isVerbatim_start :
    (ofTemplate options template).value.isVerbatim
        (Builder.after options template done).tree.nodes.size =
      ((Builder.after options template done).opened options tag attributes range).inVerbatim := by
  obtain ⟨region, h, hiff, -⟩ := isVerbatim_iff_literalAfter hweb template hevents
  generalize Builder.after options template done = b at h hiff ⊢
  have hlt : b.tree.nodes.size <
      (b.step options template (.start tag attributes unary range)).value.tree.nodes.size :=
    Builder.lt_size_start options tag attributes unary range b
  rw [Bool.eq_iff_iff, hiff _ hlt]
  constructor
  · rintro (hregion | ⟨-, hmode⟩)
    · exact absurd (h.region_lt_size hregion) (Nat.lt_irrefl _)
    · exact hmode
  · exact fun hmode => .inr ⟨rfl, hmode⟩

/-- Where verbatim mode is on, the start tag of an element says all that there is to it. -/
theorem exists_element_of_start
    (hmode : ((Builder.after options template done).opened options tag attributes
      range).inVerbatim = true) :
    ∃ el, (ofTemplate options template).value.element?
        (Builder.after options template done).tree.nodes.size = some el ∧
      el.unlinked =
        ((Builder.after options template done).entered options tag attributes range).unlinked := by
  obtain ⟨region, h, -, hsame⟩ := isVerbatim_iff_literalAfter hweb template hevents
  have hlater := hsame _ (.inr ⟨rfl, hmode⟩)
  generalize Builder.after options template done = b at h hmode hlater ⊢
  have hopened := Builder.element?_opened options tag attributes range b b.tree.nodes.size
  rw [if_pos rfl] at hopened
  have hstep : SameAt b.tree.nodes.size (b.opened options tag attributes range).tree
      (b.step options template (.start tag attributes unary range)).value.tree := by
    rw [Builder.step, Builder.value_start]
    cases unary with
    | true =>
      rw [if_pos rfl]
      exact Builder.sameAt_close fun _ => ⟨hmode, Builder.leavesPlaced_of_web hweb⟩
    | false => exact .refl _ _
  exact hstep.trans hlater _ hopened

end

end

/-- In the tree of every template that is read without further extensions, verbatim mode is exact. -/
theorem verbatimExact_ofTemplate (options : Options)
    (hweb : ∀ x ∈ options.extensions, x ∈ Options.web.extensions) (template : String) :
    VerbatimExact options template (Markup.events (markupSettings options) template)
      (ofTemplate options template).value := by
  obtain ⟨region, h, hiff⟩ := exists_literally_ofTemplate hweb template
  refine ⟨?_, ?_, ?_, ?_, ?_, ?_, ?_⟩
  · intro done rest hevents
    obtain ⟨region, h, -⟩ := Builder.literally_foldlM hweb template done Builder.literally_empty
    exact h.verbatim.nested.verbatim_iff
  · intro i el hel hi
    have hregion := (hiff i).mp hi
    have hinert : el.dynamics = {} := h.verbatim.inert i el hel hregion
    exact Element.eq_literal (h.literal i el hel hregion)
      (congrArg Element.Dynamics.choice hinert) (congrArg Element.Dynamics.scopedSlots hinert)
  · intro i el hel hi c hc t ht
    rcases h.verbatim.child i el hel ((hiff i).mp hi) c hc with hregion | ⟨t', ht'⟩
    · obtain ⟨ce, hce⟩ := h.verbatim.element c hregion
      cases (node?_of_element? hce).symm.trans ht
    · cases ht'.symm.trans ht
  · intro done rest tag attributes unary range hevents hi
    rw [isVerbatim_start hweb template hevents] at hi
    obtain ⟨el, hel, hsame⟩ := exists_element_of_start hweb template hevents hi
    obtain ⟨htag, hpending⟩ := Builder.pending_entered hweb hi
    refine ⟨el, hel, ?_, ?_⟩
    · exact (congrArg Element.tag hsame).trans htag
    · exact (congrArg Element.pending hsame).trans hpending
  · intro done rest tag attributes unary range hevents hi
    rw [isVerbatim_start hweb template hevents] at hi
    exact (Builder.entered_of_web hweb tag attributes range _).2 hi
  · intro done rest e i before hevents hclosing hi
    obtain ⟨region, h, hiff, -⟩ := isVerbatim_iff_literalAfter hweb template hevents
    refine ⟨Builder.value_step_of_closing hclosing,
      Builder.finishReading_of_closing hweb h hclosing ?_⟩
    rw [← hiff i (Builder.lt_size_of_closing template h hclosing), hi]
    exact Bool.false_ne_true
  · intro done rest text range i hevents hhead hi parent kept tokens hkept hread
    have hmode : (Builder.after options template done).inVerbatim = false := by
      rw [← Bool.not_eq_true, ← isVerbatim_head hweb template hevents hhead, hi]
      exact Bool.false_ne_true
    simp only [Builder.textNode?, hmode, hkept, Bool.false_or, decide_false, Bool.false_eq_true,
      if_false, hread]

/-- A marked element with a directive inside of it, between elements that are read as usual. -/
theorem verbatimExact_of_marked_paragraph :
    (∀ x ∈ Options.web.extensions, x ∈ Options.web.extensions) ∧
      ∃ tree, (ofTemplate Options.web
          "<div><p v-pre :a='b'><i v-if='c' v-pre>\x7b\x7b d \x7d\x7d</i></p><b v-if='e'/></div>").value =
            tree ∧
        ((List.range 5).map tree.isVerbatim = [false, true, true, false, false]) ∧
        VerbatimExact Options.web
          "<div><p v-pre :a='b'><i v-if='c' v-pre>\x7b\x7b d \x7d\x7d</i></p><b v-if='e'/></div>"
          (Markup.events (markupSettings Options.web)
            "<div><p v-pre :a='b'><i v-if='c' v-pre>\x7b\x7b d \x7d\x7d</i></p><b v-if='e'/></div>")
          tree :=
  ⟨fun _ hx => hx, _, rfl, by decide +kernel,
    verbatimExact_ofTemplate Options.web (fun _ hx => hx) _⟩

end Tree

end ViewTemplate
