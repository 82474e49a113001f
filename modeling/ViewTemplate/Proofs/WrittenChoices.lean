import ViewTemplate.Proofs.LastResort
import ViewTemplate.Proofs.SettledChildren

/-! # Choices as they are written

A choice is written as a run of elements inside another one: the first has a guard, and each later one
is marked as a branch. When the first closes it becomes a child, and each later one joins it.
-/

open List Option

namespace ViewTemplate

open Closing

namespace Written

/-- The guard with which a choice starts. -/
def guard? (w : Written) : Option String := (w.value? "v-if").filter (· ≠ "")

/-- The guard of a later branch. -/
def laterGuard? (w : Written) : Option String := (w.value? "v-else-if").filter (· ≠ "")

/-- An element that is neither left out, repeated, rendered once, verbatim nor content of a slot. -/
structure Ordinary (w : Written) : Prop where
  kept : w.isLeftOut = false
  loop : w.value? "v-for" = none
  once : w.value? "v-once" = none
  pre : w.value? "v-pre" = none
  slots : w.usesSlots = false

instance (w : Written) : Decidable w.Ordinary :=
  decidable_of_iff (w.isLeftOut = false ∧ w.value? "v-for" = none ∧ w.value? "v-once" = none ∧
      w.value? "v-pre" = none ∧ w.usesSlots = false)
    ⟨fun ⟨h₁, h₂, h₃, h₄, h₅⟩ => ⟨h₁, h₂, h₃, h₄, h₅⟩, fun ⟨h₁, h₂, h₃, h₄, h₅⟩ => ⟨h₁, h₂, h₃, h₄, h₅⟩⟩

/-- A later branch of a choice, with a guard or as its last resort. -/
structure IsLater (w : Written) : Prop extends w.Ordinary where
  guard : w.guard? = none
  marked : w.laterGuard?.isSome = true ∨ (w.value? "v-else").isSome = true

instance (w : Written) : Decidable w.IsLater :=
  decidable_of_iff (w.Ordinary ∧ w.guard? = none ∧
      (w.laterGuard?.isSome = true ∨ (w.value? "v-else").isSome = true))
    ⟨fun ⟨h₁, h₂, h₃⟩ => ⟨h₁, h₂, h₃⟩, fun ⟨h₁, h₂, h₃⟩ => ⟨h₁, h₂, h₃⟩⟩

end Written

/-- What stands inside an element: elements, texts and comments. -/
inductive Piece
  | element (w : Written)
  | text (content : String) (range : Range)
  | comment (content : String) (range : Range)

namespace Piece

def events : Piece → List Event
  | .element w => w.events
  | .text content range => [.text content range]
  | .comment content range => [.comment content range]

def element? : Piece → Option Written
  | .element w => some w
  | _ => none

/-- The first element of some pieces that is not left out. -/
def firstKept? (pieces : List Piece) : Option Written :=
  (pieces.filterMap element?).find? fun w => !w.isLeftOut

theorem firstKept?_element (w : Written) (pieces : List Piece) :
    firstKept? (.element w :: pieces) = if w.isLeftOut then firstKept? pieces else some w := by
  cases h : w.isLeftOut <;> simp [firstKept?, element?, h]

end Piece

/-- A written element with its number in a tree, where it is neither repeated nor rendered once nor
verbatim. -/
def Tree.Shows (tree : Tree) (w : Written) (id : NodeId) : Prop :=
  ∃ el, tree.element? id = some el ∧ el.tag = w.tag ∧ el.start? = some w.range.start ∧
    el.loop = none ∧ el.once = false ∧ el.pre = false

namespace Builder

open ViewTemplate.Tree

variable {options : Options} {template : String} {p : NodeId} {b : Builder}

/-! ## Start tags -/

theorem attribute?_bare (options : Options) (w : Written) (b : Builder) (name : String) :
    (b.bare options w.tag w.attributes w.range).attribute? name = w.value? name := rfl

section Web

variable (hweb : ∀ x ∈ options.extensions, x ∈ Options.web.extensions)
include hweb

/-- Outside of verbatim regions the directives of an element without `v-pre` are read. -/
theorem entered_of_unmarked {w : Written} (hmode : b.inVerbatim = false)
    (hpre : w.value? "v-pre" = none) :
    b.entered options w.tag w.attributes w.range =
      (b.bare options w.tag w.attributes w.range).readStructure.value := by
  refine (entered_of_web hweb w.tag w.attributes w.range b).2 ?_
  rw [inVerbatim_opened, value_newElement_of_web hweb]
  have hread : (b.bare options w.tag w.attributes w.range).readVerbatim =
      b.bare options w.tag w.attributes w.range :=
    Element.readVerbatim_of_none ((attribute?_bare ..).trans hpre)
  simp only [enter, hmode, hread]
  rfl

/-- What an ordinary element goes into the tree with. -/
theorem identity_entered_of_ordinary {w : Written} (hw : w.Ordinary) (hmode : b.inVerbatim = false) :
    let identity := (b.entered options w.tag w.attributes w.range).identity
    identity.loop = none ∧ identity.once = false ∧ identity.pre = false ∧
      identity.forbidden = false := by
  have hentered := entered_of_unmarked hweb hmode hw.pre
  obtain ⟨-, -, hforbidden⟩ := frame_entered hweb w.tag w.attributes w.range b
  refine ⟨?_, ?_, ?_, hforbidden.trans hw.kept⟩
  · show (b.entered options w.tag w.attributes w.range).loop = none
    rw [hentered, Element.loop_readStructure ((attribute?_bare ..).trans hw.loop)]
    rfl
  · show (b.entered options w.tag w.attributes w.range).once = false
    rw [hentered, Element.once_readStructure ((attribute?_bare ..).trans hw.once)]
    rfl
  · show (b.entered options w.tag w.attributes w.range).frame.pre = false
    rw [hentered, Element.frame_readStructure]
    rfl

/-- An element with a guard starts a choice and is no later branch. -/
theorem identity_entered_of_guard {w : Written} (hw : w.Ordinary) (hmode : b.inVerbatim = false)
    {guard : String} (hguard : w.guard? = some guard) :
    let identity := (b.entered options w.tag w.attributes w.range).identity
    identity.guard = some guard ∧ identity.elseIf = none ∧ identity.isElse = false := by
  obtain ⟨hvalue, hne⟩ := filter_eq_some_iff.mp hguard
  obtain ⟨hchoice, helseIf, hisElse⟩ := Element.choice_readStructure
    ((attribute?_bare options w b _).trans hvalue) (of_decide_eq_true hne)
  rw [← entered_of_unmarked hweb hmode hw.pre] at hchoice helseIf hisElse
  refine ⟨?_, helseIf, hisElse⟩
  show (b.entered options w.tag w.attributes w.range).choice.map Choice.guard = some guard
  rw [hchoice]
  rfl

/-- A later branch goes into the tree as one. -/
theorem identity_entered_of_isLater {w : Written} (hw : w.IsLater) (hmode : b.inVerbatim = false) :
    let identity := (b.entered options w.tag w.attributes w.range).identity
    identity.elseIf = w.laterGuard? ∧ (identity.elseIf.isSome || identity.isElse) = true := by
  have hguard : ((b.bare options w.tag w.attributes w.range).attribute? "v-if").filter (· ≠ "") =
      none := hw.guard
  obtain ⟨-, helseIf, hisElse⟩ := Element.branch_readStructure hguard
  rw [← entered_of_unmarked hweb hmode hw.pre] at helseIf hisElse
  refine ⟨helseIf, ?_⟩
  show ((b.entered options w.tag w.attributes w.range).elseIf.isSome ||
    (b.entered options w.tag w.attributes w.range).isElse) = true
  rw [helseIf, hisElse, Bool.or_eq_true]
  exact hw.marked

/-- Without the marks of a later branch an element is none. -/
theorem identity_entered_of_not_later {w : Written} (helse : w.value? "v-else" = none)
    (helseIf : w.value? "v-else-if" = none) (b : Builder) :
    let identity := (b.entered options w.tag w.attributes w.range).identity
    (identity.elseIf.isSome || identity.isElse) = false := by
  show ((b.entered options w.tag w.attributes w.range).elseIf.isSome ||
    (b.entered options w.tag w.attributes w.range).isElse) = false
  cases hmode : (b.opened options w.tag w.attributes w.range).inVerbatim with
  | true =>
    rw [entered_eq_literal hweb hmode]
    rfl
  | false =>
    rw [(entered_of_web hweb w.tag w.attributes w.range b).2 hmode]
    cases hguard : ((b.bare options w.tag w.attributes w.range).attribute? "v-if").filter
      (· ≠ "") with
    | some guard =>
      obtain ⟨hvalue, hne⟩ := filter_eq_some_iff.mp hguard
      obtain ⟨-, h₁, h₂⟩ := Element.choice_readStructure hvalue (of_decide_eq_true hne)
      rw [h₁, h₂]
      rfl
    | none =>
      obtain ⟨-, h₁, h₂⟩ := Element.branch_readStructure hguard
      rw [h₁, h₂, attribute?_bare, attribute?_bare, helse, helseIf]
      rfl

end Web

/-! ## Siblings -/

/-- The builder at work directly inside an element, outside of verbatim regions. -/
structure Inside (p : NodeId) (b : Builder) : Prop where
  assembled : ∃ closed, b.tree.Assembled closed [] b.stack
  literally : ∃ region, b.Literally region
  parent : b.parent? = some p
  mode : b.inVerbatim = false

theorem Inside.lt_size (h : b.Inside p) : p < b.tree.nodes.size := by
  obtain ⟨region, hliterally⟩ := h.literally
  exact hliterally.lt_size (mem_of_head? h.parent)

/-- The numbers of the later branches of a choice, each after some other pieces. -/
def numbers (options : Options) (template : String) : Builder → List (List Piece × Written) → List NodeId
  | _, [] => []
  | b, (gap, w) :: later =>
    let before := b.onward options template (gap.flatMap Piece.events)
    before.tree.nodes.size :: numbers options template (before.onward options template w.events) later

/-- In texts and comments nothing closes. -/
theorem closings_of_gap {gap : List Piece} (h : ∀ piece ∈ gap, piece.element? = none) (b : Builder) :
    closings options template b (gap.flatMap Piece.events) = [] := by
  induction gap generalizing b with
  | nil => rfl
  | cons piece gap ih =>
    have hrest := ih fun other hother => h other (mem_cons_of_mem piece hother)
    rw [flatMap_cons, closings_append, hrest, append_nil]
    have hpiece := h piece mem_cons_self
    cases piece with
    | element w => cases hpiece
    | text content range => rfl
    | comment content range => rfl

/-- From its end tag on nothing closes in an element. -/
theorem filter_closings_ending (options : Options) (template : String) (h : b.Inside p) (tag : String) (place : Range)
    (more : List Event) :
    (closings options template b (.finish tag place :: more)).filter (isIn p) = [] := by
  obtain ⟨closed, hassembled⟩ := h.assembled
  obtain ⟨rest, hstack⟩ := head?_eq_some_iff.mp h.parent
  have hnodup : b.stack.Nodup := (nodup_append.mp hassembled.distinct).1
  rw [hstack] at hnodup
  have hclosed := (nodup_cons.mp hnodup).1
  refine filter_eq_nil_iff.mpr fun c hc hin => ?_
  have hparent := parent_of_isIn hin
  rcases mem_append.mp hc with hc | hc
  · obtain ⟨⟨id, before⟩, hclosing, hread⟩ := bind_eq_some_iff.mp (mem_toList.mp hc)
    obtain ⟨el, -, rfl⟩ := map_eq_some_iff.mp hread
    obtain ⟨_, -, heq⟩ := map_eq_some_iff.mp hclosing
    cases heq
    have hmem : p ∈ b.stack.tail := mem_of_head? hparent
    rw [hstack] at hmem
    exact hclosed hmem
  · refine parent_ne_of_closed ?_ ?_ more c hc hparent
    · rw [step, stack_finish hstack]
      exact hclosed
    · exact Nat.lt_of_lt_of_le h.lt_size (size_step_le options template b _)

section Web

variable (hweb : ∀ x ∈ options.extensions, x ∈ Options.web.extensions)
include hweb

/-- After a piece those elements are open that were open before, and of what was there nothing has
changed but links. -/
theorem onward_piece (template : String) (piece : Piece) (b : Builder) :
    (b.onward options template piece.events).stack = b.stack ∧
      ∀ i, i < b.tree.nodes.size → SameAt i b.tree (b.onward options template piece.events).tree := by
  cases piece with
  | element w => exact onward_written hweb template w b
  | text content range =>
    refine ⟨?_, fun i hi => ?_⟩
    · rw [Piece.events, onward_cons, onward_nil]
      exact stack_text options template content range b
    · rw [Piece.events, onward_cons, onward_nil]
      exact sameAt_step template _ hi (fun _ _ => nofun)
  | comment content range =>
    refine ⟨?_, fun i hi => ?_⟩
    · rw [Piece.events, onward_cons, onward_nil]
      exact stack_comment content range b
    · rw [Piece.events, onward_cons, onward_nil]
      exact sameAt_step template _ hi (fun _ _ => nofun)

theorem onward_pieces (template : String) (pieces : List Piece) (b : Builder) :
    (b.onward options template (pieces.flatMap Piece.events)).stack = b.stack ∧
      ∀ i, i < b.tree.nodes.size →
        SameAt i b.tree (b.onward options template (pieces.flatMap Piece.events)).tree := by
  induction pieces generalizing b with
  | nil => exact ⟨rfl, fun i _ => .refl i b.tree⟩
  | cons piece pieces ih =>
    obtain ⟨hstack, hsame⟩ := onward_piece hweb template piece b
    obtain ⟨hrest, hkept⟩ := ih (b.onward options template piece.events)
    have hsize := (keeps_onward hweb template b piece.events).size_le
    rw [flatMap_cons, onward_append]
    exact ⟨hrest.trans hstack, fun i hi => (hsame i hi).trans (hkept i (Nat.lt_of_lt_of_le hi hsize))⟩

theorem stack_later (template : String) (later : List (List Piece × Written)) (b : Builder) :
    (b.onward options template (later.flatMap fun e => e.1.flatMap Piece.events ++ e.2.events)).stack =
      b.stack := by
  induction later generalizing b with
  | nil => rfl
  | cons entry later ih =>
    rw [flatMap_cons, onward_append, ih, onward_append, (onward_written hweb template entry.2 _).1]
    exact (onward_pieces hweb template entry.1 b).1

/-- The builder stays inside where the open elements stay. -/
theorem Inside.onward (h : b.Inside p) {events : List Event}
    (hstack : (b.onward options template events).stack = b.stack) :
    (b.onward options template events).Inside p := by
  obtain ⟨closed, hassembled⟩ := h.assembled
  obtain ⟨region, hliterally⟩ := h.literally
  obtain ⟨region', hlater, hsame, -⟩ := literally_foldlM hweb template events hliterally
  have hparent : (b.onward options template events).parent? = some p := by
    rw [parent?, hstack]
    exact h.parent
  refine ⟨⟨_, assembled_foldlM (keepsLinks_of_web hweb) events hassembled⟩, ⟨region', hlater⟩,
    hparent, ?_⟩
  -- the mode is that of the element around it, which has been settled before
  have hbefore := hliterally.region_head h.parent
  have hafter := hlater.region_head hparent
  rw [hsame p h.lt_size, hbefore, h.mode] at hafter
  exact Bool.eq_false_iff.mpr fun hmode => absurd (hafter.mpr hmode) Bool.false_ne_true

section

variable (template : String)

/-- A start tag that does not lead to verbatim mode leads inside. -/
theorem inside_start {closed : List Closing} {region : NodeId → Prop}
    (hassembled : b.tree.Assembled closed [] b.stack) (hliterally : b.Literally region)
    {tag : String} {attributes : List Attribute} {range : Range}
    (hmode : (b.opened options tag attributes range).inVerbatim = false) :
    (b.step options template (.start tag attributes false range)).value.Inside
      b.tree.nodes.size where
  assembled := ⟨_, assembled_step (keepsLinks_of_web hweb) hassembled _⟩
  literally := ⟨_, literally_step hweb template hliterally _⟩
  parent := by
    rw [parent?, step, stack_start]
    rfl
  mode := by
    rw [step, value_start]
    exact hmode

/-- Of all elements that close in an element, only itself counts among the elements of its parent. -/
theorem filter_closings_written (h : b.Inside p) (w : Written) :
    ∃ el, (closings options template b w.events).filter (isIn p) =
        (if w.isLeftOut then [] else [⟨some p, b.tree.nodes.size, el⟩]) ∧
      el.identity = (b.entered options w.tag w.attributes w.range).identity := by
  obtain ⟨closed, hassembled⟩ := h.assembled
  obtain ⟨inner, el, hclosings, hinner, hidentity⟩ :=
    closings_written hweb template hassembled w
  refine ⟨el, ?_, hidentity⟩
  have hnone : inner.filter (isIn p) = [] := by
    refine filter_eq_nil_iff.mpr fun c hc hin => ?_
    obtain ⟨q, hq, hle⟩ := hinner c hc
    cases hq.symm.trans (parent_of_isIn hin)
    exact Nat.lt_irrefl _ (Nat.lt_of_lt_of_le h.lt_size hle)
  have hforbidden : el.forbidden = w.isLeftOut :=
    (congrArg Element.Identity.forbidden hidentity :).trans
      (frame_entered hweb w.tag w.attributes w.range b).2.2
  rw [hclosings, filter_append, hnone, nil_append, h.parent, filter_singleton,
    isIn, hforbidden]
  cases w.isLeftOut <;> simp

/-- An ordinary element is in the tree as it was written. -/
theorem shows_written (h : b.Inside p) {w : Written} (hw : w.Ordinary) :
    (b.onward options template w.events).tree.Shows w b.tree.nodes.size := by
  obtain ⟨el, hel, hidentity⟩ := identity_written hweb template w b
  obtain ⟨hloop, honce, hpre, -⟩ := identity_entered_of_ordinary hweb hw h.mode
  have hstart := start?_entered (fun x hx => (keepsIdentity_of_web hweb x hx).map Element.Identity.start)
    w.tag w.attributes w.range b
  have htag := (frame_entered hweb w.tag w.attributes w.range b).1
  rw [← hidentity] at hloop honce hpre
  exact ⟨el, hel, (congrArg Element.Identity.tag hidentity :).trans htag,
    (congrArg Element.Identity.start hidentity :).trans hstart, hloop, honce, hpre⟩

/-- It stays so, whatever events follow. -/
theorem shows_onward {w : Written} {id : NodeId} (h : b.tree.Shows w id) (events : List Event) :
    (b.onward options template events).tree.Shows w id := by
  obtain ⟨el, hel, htag, hstart, hloop, honce, hpre⟩ := h
  obtain ⟨el', hel', hidentity⟩ := (keeps_onward hweb template b events).element hel
  exact ⟨el', hel', (congrArg Element.Identity.tag hidentity :).trans htag,
    (congrArg Element.Identity.start hidentity :).trans hstart,
    (congrArg Element.Identity.loop hidentity :).trans hloop,
    (congrArg Element.Identity.once hidentity :).trans honce,
    (congrArg Element.Identity.pre hidentity :).trans hpre⟩

/-- The later branches of a choice are in the tree, each with its number. -/
theorem shows_later (h : b.Inside p) (later : List (List Piece × Written))
    (hlater : ∀ e ∈ later, e.2.IsLater) (more : List Event) :
    Forall₂ (b.onward options template ((later.flatMap fun e =>
        e.1.flatMap Piece.events ++ e.2.events) ++ more)).tree.Shows
      (later.map Prod.snd) (b.numbers options template later) := by
  induction later generalizing b with
  | nil => exact .nil
  | cons entry later ih =>
    obtain ⟨gap, w⟩ := entry
    have hbefore := h.onward hweb (onward_pieces hweb template gap b).1
    have hafter := hbefore.onward hweb (onward_written hweb template w _).1
    rw [flatMap_cons, append_assoc, onward_append _ (gap.flatMap Piece.events ++ w.events),
      onward_append _ (gap.flatMap Piece.events)]
    refine .cons ?_ (ih hafter fun e he => hlater e (mem_cons_of_mem _ he))
    exact shows_onward hweb template
      (shows_written hweb template hbefore (hlater (gap, w) mem_cons_self).toOrdinary) _

/-- What follows a choice does not join it, unless its first element that is not left out is marked as a
later branch. -/
theorem isBranch_of_firstKept (h : b.Inside p) (pieces : List Piece)
    (hnext : ∀ w ∈ Piece.firstKept? pieces,
      w.value? "v-else" = none ∧ w.value? "v-else-if" = none) :
    ∀ c ∈ ((closings options template b (pieces.flatMap Piece.events)).filter (isIn p)).head?,
      c.el.isBranch = false := by
  induction pieces generalizing b with
  | nil => exact fun c hc => nomatch hc
  | cons piece pieces ih =>
    rw [flatMap_cons, closings_append, filter_append]
    have hrest := h.onward hweb (onward_piece hweb template piece b).1
    cases piece with
    | element w =>
      obtain ⟨el, hfilter, hidentity⟩ := filter_closings_written hweb template h w
      rw [Piece.events, hfilter]
      rw [Piece.firstKept?_element] at hnext
      cases hout : w.isLeftOut with
      | true =>
        rw [hout] at hnext
        exact ih hrest hnext
      | false =>
        rw [hout] at hnext
        obtain ⟨helse, helseIf⟩ := hnext w rfl
        rintro c hc
        cases hc
        have hnone := identity_entered_of_not_later hweb helse helseIf b
        rw [← hidentity] at hnone
        exact hnone
    | text content range => exact ih hrest hnext
    | comment content range => exact ih hrest hnext

/-- The later branches of a choice count among the elements of its parent, one after the other. -/
theorem closings_later (h : b.Inside p) (later : List (List Piece × Written))
    (hgaps : ∀ e ∈ later, ∀ piece ∈ e.1, piece.element? = none) (hlater : ∀ e ∈ later, e.2.IsLater)
    :
    let joined := (closings options template b (later.flatMap fun e =>
      e.1.flatMap Piece.events ++ e.2.events)).filter (isIn p)
    joined.map branch = zipWith Branch.mk (later.map fun e => e.2.laterGuard?)
        (b.numbers options template later) ∧
      ∀ c ∈ joined, c.el.isBranch = true := by
  induction later generalizing b with
  | nil => exact ⟨rfl, fun c hc => absurd hc not_mem_nil⟩
  | cons entry later ih =>
    obtain ⟨gap, w⟩ := entry
    have hw := hlater (gap, w) mem_cons_self
    have hbefore := h.onward hweb (onward_pieces hweb template gap b).1
    have hgap : closings options template b (gap.flatMap Piece.events) = [] :=
      closings_of_gap (hgaps (gap, w) mem_cons_self) b
    obtain ⟨el, hfilter, hidentity⟩ := filter_closings_written hweb template hbefore w
    obtain ⟨helseIf, hbranch⟩ := identity_entered_of_isLater hweb hw hbefore.mode
    rw [← hidentity] at helseIf hbranch
    have hafter := hbefore.onward hweb (onward_written hweb template w _).1
    obtain ⟨hbranches, hall⟩ := ih hafter (fun e he => hgaps e (mem_cons_of_mem _ he))
      fun e he => hlater e (mem_cons_of_mem _ he)
    simp only [flatMap_cons, closings_append, hgap, nil_append, filter_append, hfilter,
      hw.kept, onward_append, Bool.false_eq_true, if_false]
    refine ⟨?_, forall_mem_cons.mpr ⟨hbranch, hall⟩⟩
    simp only [map_append, hbranches, map_cons, numbers, zipWith_cons_cons, ← helseIf]
    rfl

end

/-- The first branch of a choice closes as a child. -/
theorem isChildOf_first (h : b.Inside p) {w : Written} (hw : w.Ordinary) {guard : String}
    (hguard : w.guard? = some guard) {el : Element}
    (hidentity : el.identity = (b.entered options w.tag w.attributes w.range).identity) (id : NodeId) :
    isChildOf p ⟨some p, id, el⟩ = true := by
  have hforbidden : el.forbidden = false :=
    (congrArg Element.Identity.forbidden hidentity :).trans
      (identity_entered_of_ordinary hweb hw h.mode).2.2.2
  obtain ⟨-, helseIf, hisElse⟩ := identity_entered_of_guard hweb hw h.mode hguard
  have hbranch : el.isBranch = false := by
    rw [← hidentity] at helseIf hisElse
    show (el.identity.elseIf.isSome || el.identity.isElse) = false
    rw [helseIf, hisElse]
    rfl
  simp [isChildOf, isIn, hforbidden, hbranch]

/-- The first branch of a choice becomes a child that stays, in an element without slot directive. -/
theorem settled_first (template : String) (h : b.Inside p) {w : Written} (hw : w.Ordinary)
    (hguard : w.guard?.isSome = true)
    (hslot : ∀ el, b.tree.element? p = some el → ∀ a ∈ el.pending, Spelling.isSlot a.name = false) :
    (b.onward options template w.events).Settled p b.tree.nodes.size := by
  obtain ⟨closed, hassembled⟩ := h.assembled
  obtain ⟨guard, hguard⟩ := isSome_iff_exists.mp hguard
  obtain ⟨hstack, hsame⟩ := onward_written hweb template w b
  obtain ⟨inner, el, hclosings, -, hidentity⟩ := closings_written hweb template hassembled w
  have hlater : (b.onward options template w.events).tree.Assembled
      (closed ++ closings options template b w.events) []
      (b.onward options template w.events).stack :=
    assembled_foldlM (keepsLinks_of_web hweb) w.events hassembled
  rw [hclosings, hstack, h.parent] at hlater
  have hopen : p ∈ b.stack := mem_of_head? h.parent
  have hlast : (⟨some p, b.tree.nodes.size, el⟩ : Closing) ∈
      closed ++ (inner ++ [⟨some p, b.tree.nodes.size, el⟩]) := by simp
  have hchild := isChildOf_first hweb h hw hguard hidentity b.tree.nodes.size
  refine ⟨⟨?_, slotScope_written hweb template hw.slots b⟩, ?_, fun _ outer houter => ?_⟩
  · obtain ⟨children, hchildren, -, hfilter⟩ := hlater.children p hopen
    obtain ⟨outer, houter, rfl⟩ := map_eq_some_iff.mp hchildren
    have hmem : b.tree.nodes.size ∈ outer.children.filter
        (b.onward options template w.events).tree.isElement := by
      rw [hfilter]
      exact List.mem_map.mpr ⟨_, mem_filter.mpr ⟨hlast, hchild⟩, rfl⟩
    exact ⟨outer, houter, mem_of_mem_filter hmem⟩
  · rw [hstack]
    intro hmem
    have hdisjoint := (nodup_append.mp hlater.distinct).2.2 _ hmem
    exact hdisjoint _ (List.mem_map_of_mem hlast) rfl
  · obtain ⟨choice, hchoice, -⟩ := hassembled.unjoined p hopen
    obtain ⟨el, hel, -⟩ := map_eq_some_iff.mp hchoice
    obtain ⟨el', hel', hunlinked⟩ := hsame p h.lt_size el hel
    cases houter.symm.trans hel'
    have hkept : outer.pending = el.pending := (congrArg Element.pending hunlinked :)
    rw [hkept]
    exact hslot el hel

end Web

end Builder

/-- A choice as it is written: the start tag of the element around it and what stands in front, the
first branch, the later ones with what stands between, and the rest up to the end tag. -/
structure WrittenChoice where
  tag : String
  attributes : List Attribute
  range : Range
  front : List Piece
  first : Written
  later : List (List Piece × Written)
  rest : List Piece
  place : Range

namespace WrittenChoice

open ViewTemplate.Builder ViewTemplate.Tree

section

variable (c : WrittenChoice)

/-- The events before the first branch. -/
def opening : List Event :=
  .start c.tag c.attributes false c.range :: c.front.flatMap Piece.events

def laterEvents : List Event := c.later.flatMap fun e => e.1.flatMap Piece.events ++ e.2.events

/-- The events after the last branch. -/
def ending : List Event := c.rest.flatMap Piece.events ++ [.finish c.tag c.place]

def events : List Event := c.opening ++ c.first.events ++ c.laterEvents ++ c.ending

/-- The guards of the branches in the order of the source. -/
def guards : List (Option String) := c.first.guard? :: c.later.map fun e => e.2.laterGuard?

/-- The branches are ordinary elements with only texts and comments between them, of which the first
starts a choice and the others are later branches; only the last of them may be without guard. What
follows is no branch, and the element around them does not use slots. -/
structure IsRegular : Prop where
  slotless : ∀ a ∈ c.attributes, Spelling.isSlot a.name = false
  first : c.first.Ordinary
  guarded : c.first.guard?.isSome = true
  later : ∀ e ∈ c.later, e.2.IsLater
  gaps : ∀ e ∈ c.later, ∀ piece ∈ e.1, piece.element? = none
  last : ElseLast (c.later.map fun e => e.2.laterGuard?)
  next : ∀ w ∈ Piece.firstKept? c.rest, w.value? "v-else" = none ∧ w.value? "v-else-if" = none

instance : Decidable c.IsRegular :=
  decidable_of_iff ((∀ a ∈ c.attributes, Spelling.isSlot a.name = false) ∧ c.first.Ordinary ∧
      c.first.guard?.isSome = true ∧ (∀ e ∈ c.later, e.2.IsLater) ∧
      (∀ e ∈ c.later, ∀ piece ∈ e.1, piece.element?.isNone = true) ∧
      ElseLast (c.later.map fun e => e.2.laterGuard?) ∧
      ∀ w ∈ Piece.firstKept? c.rest, w.value? "v-else" = none ∧ w.value? "v-else-if" = none)
    ⟨fun ⟨h₁, h₂, h₃, h₄, h₅, h₆, h₇⟩ => ⟨h₁, h₂, h₃, h₄,
        fun e he piece hpiece => isNone_iff_eq_none.mp (h₅ e he piece hpiece), h₆, h₇⟩,
      fun ⟨h₁, h₂, h₃, h₄, h₅, h₆, h₇⟩ => ⟨h₁, h₂, h₃, h₄,
        fun e he piece hpiece => isNone_iff_eq_none.mpr (h₅ e he piece hpiece), h₆, h₇⟩⟩

variable (options : Options) (template : String) (done : List Event)

/-- The number of the element around the choice, after some events. -/
def owner : NodeId := (after options template done).tree.nodes.size

/-- The number of the first branch. -/
def firstId : NodeId := (after options template (done ++ c.opening)).tree.nodes.size

/-- The numbers of the later branches. -/
def laterIds : List NodeId :=
  (after options template (done ++ c.opening ++ c.first.events)).numbers options template c.later

end

variable {options : Options} {template : String} {done more : List Event} {c : WrittenChoice}
  (hweb : ∀ x ∈ options.extensions, x ∈ Options.web.extensions) (hc : c.IsRegular)
  (hevents : Markup.events (markupSettings options) template = done ++ c.events ++ more)
  (hmode : (ofTemplate options template).value.isVerbatim (owner options template done) = false)

section

include hweb hevents hmode

/-- In front of the first branch the builder is inside the element around it, which has the attributes
of its start tag. -/
theorem inside_opening :
    (after options template (done ++ c.opening)).Inside (owner options template done) ∧
      ∀ el, (after options template (done ++ c.opening)).tree.element? (owner options template done) =
        some el → ∀ a ∈ el.pending, a ∈ c.attributes := by
  have hstart : Markup.events (markupSettings options) template =
      done ++ .start c.tag c.attributes false c.range :: (c.front.flatMap Piece.events ++
        c.first.events ++ c.laterEvents ++ c.ending ++ more) := by
    rw [hevents, events, opening]
    simp
  rw [owner, isVerbatim_start hweb template hstart] at hmode
  have hsplit : after options template (done ++ c.opening) =
      (after options template (done ++ [.start c.tag c.attributes false c.range])).onward options
        template (c.front.flatMap Piece.events) := by
    rw [← after_append, opening]
    simp
  rw [hsplit, after_append_singleton]
  obtain ⟨region, hliterally, -⟩ := literally_foldlM hweb template done literally_empty
  have hassembled : (after options template done).tree.Assembled _ [] (after options template done).stack :=
    assembled_foldlM (keepsLinks_of_web hweb) done assembled_empty
  have hinside := inside_start hweb template hassembled hliterally hmode
  obtain ⟨hstack, hsame⟩ := onward_pieces hweb template c.front
    ((after options template done).step options template
      (.start c.tag c.attributes false c.range)).value
  refine ⟨hinside.onward hweb hstack, fun el hel a ha => ?_⟩
  have hentered : ((after options template done).step options template
      (.start c.tag c.attributes false c.range)).value.tree.element? (owner options template done) =
        some ((after options template done).entered options c.tag c.attributes c.range) := by
    rw [step, value_start]
    exact (element?_opened ..).trans (if_pos rfl)
  obtain ⟨el', hel', hunlinked⟩ := hsame _ hinside.lt_size _ hentered
  cases hel.symm.trans hel'
  have hpending := (reads_entered hweb c.tag c.attributes c.range (after options template done)).pending
  exact hpending ((congrArg Element.pending hunlinked :) ▸ ha)

/-- After the first branch it is there as well. -/
theorem inside_first : (after options template (done ++ c.opening ++ c.first.events)).Inside
    (owner options template done) := by
  obtain ⟨hinside, -⟩ := inside_opening hweb hevents hmode
  rw [after_append]
  exact hinside.onward hweb (onward_written hweb template c.first _).1

end

section

include hevents

theorem events_eq : Markup.events (markupSettings options) template =
    done ++ c.opening ++ (c.first.events ++ (c.laterEvents ++ c.ending ++ more)) := by
  rw [hevents, events]
  simp

/-- The tree is finished by what follows the first branch. -/
theorem tree_eq : (ofTemplate options template).value =
    ((after options template (done ++ c.opening)).onward options template c.first.events |>.onward
      options template (c.laterEvents ++ c.ending ++ more)).tree := by
  rw [← onward_append, ← after_append, ← events_eq hevents]
  rfl

theorem closings_eq : Tree.closings options template =
    Builder.closings options template {} (done ++ c.opening) ++
      (Builder.closings options template (after options template (done ++ c.opening)) c.first.events ++
        Builder.closings options template (after options template (done ++ c.opening ++ c.first.events))
          (c.laterEvents ++ c.ending ++ more)) := by
  rw [Tree.closings, events_eq hevents, closings_append {} (done ++ c.opening),
    closings_append _ c.first.events, after_append (done ++ c.opening)]
  rfl

end

section

include hweb hevents hmode hc

/-- The first branch is a child of the element around the choice. -/
theorem plainChild_first : (ofTemplate options template).value.PlainChild (owner options template done)
    (c.firstId options template done) := by
  obtain ⟨hinside, hpending⟩ := inside_opening hweb hevents hmode
  have hsettled := settled_first hweb template hinside hc.first hc.guarded
    fun el hel a ha => hc.slotless a (hpending el hel a ha)
  obtain ⟨closed, hassembled⟩ :=
    (hinside.onward hweb (onward_written hweb template c.first _).1).assembled
  rw [tree_eq hevents]
  exact (settled_onward hweb hassembled hsettled _).child

/-- The branches are in the tree as they were written. -/
theorem shows_branches : Forall₂ (ofTemplate options template).value.Shows
    (c.first :: c.later.map Prod.snd)
    (c.firstId options template done :: c.laterIds options template done) := by
  obtain ⟨hinside, -⟩ := inside_opening hweb hevents hmode
  have hfirst := hinside.onward hweb (onward_written hweb template c.first _).1
  rw [tree_eq hevents]
  refine .cons (shows_onward hweb template (shows_written hweb template hinside hc.first) _) ?_
  rw [laterIds, after_append (done ++ c.opening), append_assoc c.laterEvents]
  exact shows_later hweb template hfirst c.later hc.later _

/-- The elements that count after the first branch: the later branches, and then nothing that could
join them. -/
theorem takeWhile_closings :
    ((Builder.closings options template (after options template (done ++ c.opening ++ c.first.events))
        (c.laterEvents ++ c.ending ++ more)).filter
          (isIn (owner options template done))).takeWhile (·.el.isBranch) =
      (Builder.closings options template (after options template (done ++ c.opening ++ c.first.events))
        c.laterEvents).filter (isIn (owner options template done)) := by
  have hfirst := inside_first hweb hevents hmode
  generalize after options template (done ++ c.opening ++ c.first.events) = b at hfirst ⊢
  have hlater := hfirst.onward hweb (stack_later hweb template c.later _)
  have hrest := hlater.onward hweb (onward_pieces hweb template c.rest _).1
  obtain ⟨-, hbranches⟩ := closings_later hweb template hfirst c.later hc.gaps hc.later
  have hnext := isBranch_of_firstKept hweb template hlater c.rest hc.next
  have hending := filter_closings_ending options template hrest c.tag c.place more
  have hsplit : c.laterEvents ++ c.ending ++ more =
      c.laterEvents ++ (c.rest.flatMap Piece.events ++ .finish c.tag c.place :: more) := by
    rw [ending]
    simp
  rw [hsplit, closings_append, closings_append, filter_append, filter_append, laterEvents,
    hending, append_nil, takeWhile_append_of_pos hbranches]
  generalize (Builder.closings options template _ (c.rest.flatMap Piece.events)).filter _ = others
    at hnext ⊢
  cases others with
  | nil => exact append_nil _
  | cons next others =>
    rw [takeWhile_cons_of_neg (by simp [hnext next rfl]), append_nil]

/-- The choice of the first branch lists all branches in the order of the source. -/
theorem branches_first {el : Element}
    (hel : (ofTemplate options template).value.element? (c.firstId options template done) = some el) :
    el.branches (c.firstId options template done) = zipWith Branch.mk c.guards
      (c.firstId options template done :: c.laterIds options template done) := by
  obtain ⟨hinside, -⟩ := inside_opening hweb hevents hmode
  have hfirst := inside_first hweb hevents hmode
  obtain ⟨closed, hassembled⟩ := hinside.assembled
  obtain ⟨inner, first, hclosed, -, hidentity⟩ := closings_written hweb template hassembled c.first
  obtain ⟨guard, hguard⟩ := isSome_iff_exists.mp hc.guarded
  obtain ⟨hchoice, -, -⟩ := identity_entered_of_guard hweb hc.first hinside.mode hguard
  have hchild := isChildOf_first hweb hinside hc.first hguard hidentity (c.firstId options template done)
  obtain ⟨hlater, -⟩ := closings_later hweb template hfirst c.later hc.gaps hc.later
  have hclosings := closings_eq hevents
  rw [hclosed, hinside.parent, append_assoc, singleton_append, ← append_assoc] at hclosings
  have hjoined := ((assembled_ofTemplate (keepsLinks_of_web hweb) template).joined _ _ _ hclosings).2
  have hjoined := Option.some.inj ((aspect?_of_element? hel).symm.trans hjoined)
  rw [← hidentity] at hchoice
  obtain ⟨choice, hfound, hguarded⟩ := map_eq_some_iff.mp (show first.choice.map Choice.guard =
    some guard from hchoice)
  have hjoining : (joining (Builder.closings options template {} (done ++ c.opening) ++ inner)
      ⟨some (owner options template done), c.firstId options template done, first⟩
      (Builder.closings options template (after options template (done ++ c.opening ++ c.first.events))
        (c.laterEvents ++ c.ending ++ more))).map branch =
      zipWith Branch.mk (c.later.map fun e => e.2.laterGuard?)
        (c.laterIds options template done) := by
    rw [joining]
    simp only [hchild, if_true]
    rw [takeWhile_closings hweb hc hevents hmode]
    exact hlater
  rw [Element.branches, hjoined, hfound, map_some, guards, hguard, zipWith_cons_cons,
    ← hjoining, hguarded]
  rfl

end

end WrittenChoice

end ViewTemplate
