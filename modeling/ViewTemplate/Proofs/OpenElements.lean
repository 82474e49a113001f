import Mathlib
import ViewTemplate.Proofs.BuilderFrame
import ViewTemplate.Proofs.EventBalance

/-! # The open elements follow the events

The events of any source are balanced, and the tree under construction keeps step with them: after
each event its open elements have the tags that a reader of the events has open, in the same order.
So each end tag closes an element of its own tag.
-/

open List Option

namespace ViewTemplate.Builder

open ViewTemplate.Tree

/-- The builder after some events of a template. -/
def after (options : Options) (template : String) (events : List Event) : Builder :=
  (events.foldlM (step options template) {}).value

theorem after_append_singleton (options : Options) (template : String) (events : List Event)
    (e : Event) :
    after options template (events ++ [e]) =
      ((after options template events).step options template e).value := by
  rw [after, foldlM_append]
  simp [after]

/-- The tags of the open elements, innermost first; a number of no element has none. -/
def openTags (b : Builder) : List (Option String) :=
  b.stack.map fun id => (b.tree.element? id).map Element.tag

variable {options : Options} {template : String}

/-- What each event leads from the tags open before it to those open after it, a run of events does. -/
theorem foldlM_of_readAll? {I : List String → Builder → Prop}
    (hstep : ∀ {tags later : List String} {e : Event} {b : Builder},
      Event.read? tags e = some later → I tags b → I later (b.step options template e).value)
    {b : Builder} {tags later : List String} {events : List Event}
    (hread : Event.readAll? tags events = some later) (hb : I tags b) :
    I later (events.foldlM (step options template) b).value := by
  induction events generalizing b tags with
  | nil =>
    cases hread
    exact hb
  | cons e events ih =>
    rw [Event.readAll?_cons, bind_eq_some_iff] at hread
    obtain ⟨mid, hmid, hrest⟩ := hread
    rw [foldlM_cons, Reported.value_bind]
    exact ih hrest (hstep hmid hb)

theorem stack_finish {b : Builder} {id : NodeId} {stack : List NodeId} (h : b.stack = id :: stack)
    (stop : Nat) : (b.finish options stop).value.stack = stack := by
  rw [finish, h]
  exact stack_close ..

theorem stack_start (tag : String) (attributes : List Attribute) (unary : Bool) (range : Range)
    (b : Builder) :
    (b.start options tag attributes unary range).value.stack =
      if unary then b.stack else b.tree.nodes.size :: b.stack := by
  rw [value_start]
  cases unary with
  | true => simp only [if_true, stack_close, stack_opened]
  | false => rfl

/-- As many elements are open as tags, whatever extensions do to the elements. -/
theorem length_stack_step {b : Builder} {tags later : List String} {e : Event}
    (hread : Event.read? tags e = some later) (hb : b.stack.length = tags.length) :
    (b.step options template e).value.stack.length = later.length := by
  cases e with
  | start tag attributes unary range =>
    cases hread
    rw [step, stack_start]
    cases unary with
    | true => exact hb
    | false => exact congrArg Nat.succ hb
  | finish tag range =>
    rw [Event.read?_finish_eq_some.mp hread] at hb
    obtain ⟨id, stack, hstack⟩ := exists_cons_of_length_eq_add_one hb
    rw [hstack] at hb
    rw [step, stack_finish hstack]
    exact Nat.succ.inj hb
  | text content range =>
    cases hread
    rw [step, stack_text]
    exact hb
  | comment content range =>
    cases hread
    exact (congrArg length (stack_comment content range b)).trans hb

/-- At the end of a template no element is open. -/
theorem stack_after_events (options : Options) (template : String) :
    (after options template (Markup.events (Tree.markupSettings options) template)).stack = [] :=
  eq_nil_of_length_eq_zero <|
    foldlM_of_readAll? (I := fun tags b => b.stack.length = tags.length) length_stack_step
      (Markup.readAll?_events (Tree.markupSettings options) template) rfl

/-- The innermost open tag is the tag of the innermost open element. -/
theorem exists_of_openTags {b : Builder} {tag : String} {tags : List String}
    (hb : b.openTags = (tag :: tags).map some) :
    ∃ id stack el, b.stack = id :: stack ∧ b.tree.element? id = some el ∧ el.tag = tag := by
  obtain ⟨id, stack, hstack, htag, -⟩ := map_eq_cons_iff.mp hb
  obtain ⟨el, hel, heq⟩ := map_eq_some_iff.mp htag
  exact ⟨id, stack, el, hstack, hel, heq⟩

/-- A later tree has the elements of the earlier one, with their tags. -/
abbrev KeepsTags : Tree → Tree → Prop := Keeps Element.Identity.tag fun _ => True

/-- A change of the tree that keeps the tags of elements keeps the open tags. -/
theorem openTags_of_keeps {b later : Builder} {tags : List String}
    (htree : KeepsTags b.tree later.tree) (hstack : later.stack = b.stack)
    (hb : b.openTags = tags.map some) : later.openTags = tags.map some := by
  rw [← hb, openTags, openTags, hstack]
  apply map_congr_left
  intro id hid
  -- an open element is in the tree, since it has a tag
  have hmem : (b.tree.element? id).map Element.tag ∈ tags.map some := by
    rw [← hb]
    exact List.mem_map_of_mem hid
  obtain ⟨tag, -, htag⟩ := List.mem_map.mp hmem
  obtain ⟨el, hel, -⟩ := map_eq_some_iff.mp htag.symm
  obtain ⟨el', hel', htag'⟩ := htree.element hel
  rw [hel, hel']
  exact congrArg some htag'

theorem keepsTags_opened (tag : String) (attributes : List Attribute) (range : Range)
    (b : Builder) : KeepsTags b.tree (b.opened options tag attributes range).tree := by
  exact Keeps.trans (.add trivial) (.of_nodes_eq (nodes_opened ..))

section Hooks

variable (hkeeps : ∀ x ∈ options.extensions, x.Keeps Element.tag)
include hkeeps

theorem tag_entered (tag : String) (attributes : List Attribute) (range : Range) (b : Builder) :
    (b.entered options tag attributes range).tag = tag := by
  have hframe := congrArg Element.Frame.tag
    (frame_enter options (b.newElement options tag attributes range).value b)
  exact hframe.trans
    (newElement_keeps Element.tag (fun x hx => (hkeeps x hx).atStart) tag attributes range b)

theorem openTags_opened {b : Builder} {tags : List String} (hb : b.openTags = tags.map some)
    (tag : String) (attributes : List Attribute) (range : Range) :
    ({ b.opened options tag attributes range with
      stack := b.tree.nodes.size :: b.stack } : Builder).openTags = (tag :: tags).map some := by
  have hopened : (b.opened options tag attributes range).openTags = tags.map some :=
    openTags_of_keeps (keepsTags_opened tag attributes range b) (stack_opened ..) hb
  have hnew : (b.opened options tag attributes range).tree.element? b.tree.nodes.size =
      some (b.entered options tag attributes range) :=
    (element?_opened ..).trans (if_pos rfl)
  rw [openTags, stack_opened] at hopened
  rw [openTags, map_cons, hnew, hopened, map_some, tag_entered hkeeps, map_cons]

/-- One event takes the open elements along with the open tags. -/
theorem openTags_step {b : Builder} {tags later : List String} {e : Event}
    (hread : Event.read? tags e = some later) (hb : b.openTags = tags.map some) :
    (b.step options template e).value.openTags = later.map some := by
  have hsteps := steps_step options template b e
  generalize (b.step options template e).value = after at hsteps ⊢
  cases hsteps with
  | opens tag attributes range =>
    cases hread
    exact openTags_opened hkeeps hb tag attributes range
  | closes hclosing =>
    refine openTags_of_keeps (keeps_close hkeeps trivial _ _) (stack_close ..) ?_
    cases hclosing with
    | unary tag attributes range =>
      cases hread
      exact openTags_of_keeps (keepsTags_opened tag attributes range b) (stack_opened ..) hb
    | @finish tag range _ rest hstack =>
      refine openTags_of_keeps (b := { b with stack := rest }) (.update _ _ fun _ => rfl) rfl ?_
      rw [Event.read?_finish_eq_some.mp hread, openTags, hstack] at hb
      exact tail_eq_of_cons_eq hb
  | appends he _ _ _ htree hstack =>
    have hsame : later = tags := by rcases he with rfl | rfl <;> cases hread <;> rfl
    rw [hsame]
    exact openTags_of_keeps (htree ▸ keeps_appendNode _ trivial b.tree) hstack hb
  | stays hclosing hstart htree hstack =>
    cases e with
    | start tag attributes unary range => exact absurd rfl (hstart tag attributes unary range)
    | finish tag range =>
      rw [Event.read?_finish_eq_some.mp hread, openTags,
        head?_eq_none_iff.mp (map_eq_none_iff.mp hclosing)] at hb
      cases hb
    | text | comment =>
      cases hread
      rw [openTags, htree, hstack]
      exact hb

/-- So do several events. -/
theorem openTags_foldlM {b : Builder} {tags later : List String} {events : List Event}
    (hread : Event.readAll? tags events = some later) (hb : b.openTags = tags.map some) :
    (events.foldlM (step options template) b).value.openTags = later.map some :=
  foldlM_of_readAll? (I := fun tags b => b.openTags = tags.map some) (openTags_step hkeeps) hread hb

end Hooks

/-- The events of every source are balanced. While a tree is built from a template, the open
elements have after each event the tags that are open in the events, the innermost of them is the
one that takes in what follows, and an end tag closes an element of its own tag. Extensions must not
rename elements. -/
theorem open_elements_follow_events (options : Options) (template : String) :
    (∀ settings source, Event.readAll? [] (Markup.events settings source) = some []) ∧
      ((∀ x ∈ options.extensions, x.Keeps Element.tag) →
        ∀ done rest, Markup.events (Tree.markupSettings options) template = done ++ rest →
          ∃ tags, Event.readAll? [] done = some tags ∧
            (after options template done).openTags = tags.map some ∧
            (after options template done).parent? = (after options template done).stack.head? ∧
            ∀ tag range later, rest = .finish tag range :: later →
              ∃ id el, (after options template done).tree.element? id = some el ∧ el.tag = tag ∧
                (after options template done).stack =
                  id :: (after options template (done ++ [.finish tag range])).stack) := by
  refine ⟨Markup.readAll?_events, ?_⟩
  intro hkeeps done rest hevents
  have hall := Markup.readAll?_events (Tree.markupSettings options) template
  rw [hevents, Event.readAll?_append, bind_eq_some_iff] at hall
  obtain ⟨tags, htags, hrest⟩ := hall
  have hopen : (after options template done).openTags = tags.map some :=
    openTags_foldlM hkeeps htags rfl
  refine ⟨tags, htags, hopen, rfl, ?_⟩
  intro tag range later hlater
  rw [hlater, Event.readAll?_cons, bind_eq_some_iff] at hrest
  obtain ⟨after', hread, -⟩ := hrest
  obtain ⟨id, stack, el, hstack, hel, htag⟩ :=
    exists_of_openTags (Event.read?_finish_eq_some.mp hread ▸ hopen)
  refine ⟨id, el, hel, htag, ?_⟩
  rw [after_append_singleton, step, stack_finish hstack, hstack]

/-- Of two paragraphs without end tags only the second is open after the text in it. -/
theorem open_elements_of_unclosed_paragraphs :
    (∀ x ∈ Options.web.extensions, x.Keeps Element.tag) ∧
      (after Options.web "<p>a<p>b"
        ((Markup.events (Tree.markupSettings Options.web) "<p>a<p>b").take 5)).openTags =
        [some "p"] := by
  have hkeeps : ∀ x ∈ Options.web.extensions, x.Keeps Element.tag := fun x hx =>
    (Extension.keeps_frame_web x hx).map Element.Frame.tag
  refine ⟨hkeeps, ?_⟩
  obtain ⟨tags, htags, hopen, -⟩ := (open_elements_follow_events Options.web
    "<p>a<p>b").2 hkeeps _ _ (take_append_drop 5 _).symm
  have hread : Event.readAll? []
      ((Markup.events (Tree.markupSettings Options.web) "<p>a<p>b").take 5) =
      some ["p"] := by cbv
  rw [hread] at htags
  cases htags
  exact hopen

end ViewTemplate.Builder
