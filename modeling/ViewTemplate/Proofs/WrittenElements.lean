import ViewTemplate.Proofs.AttributeReadings
import ViewTemplate.Proofs.ChoiceAssembly

/-! # Elements as they are written

An element stands in the events from its start tag to its end tag. Whatever stands inside, the builder
comes back to the elements that were open before. Elements that close inside close in a newer one, and
what was in the tree before is left alone up to links.
-/

open List Option

namespace ViewTemplate

/-- An element as it is written: its start tag, and unless it is empty what stands inside and the place
of its end tag. -/
structure Written where
  tag : String
  attributes : List Attribute
  range : Range
  content : Option (List Event × Range)
  balanced : ∀ inner ∈ content, Event.readAll? [] inner.1 = some []

namespace Written

/-- The events before the one at which the element closes. -/
def front (w : Written) : List Event :=
  match w.content with
  | none => []
  | some (inner, _) => .start w.tag w.attributes false w.range :: inner

/-- The event at which the element closes. -/
def last (w : Written) : Event :=
  match w.content with
  | none => .start w.tag w.attributes true w.range
  | some (_, place) => .finish w.tag place

def events (w : Written) : List Event := w.front ++ [w.last]

/-- The value of an attribute; of a repeated name the last. -/
def value? (w : Written) (name : String) : Option String :=
  (Element.ofTag w.tag w.attributes none).attribute? name

/-- Whether the element is left out of the tree. -/
def isLeftOut (w : Written) : Bool := (Element.ofTag w.tag w.attributes none).hasSideEffects

/-- Whether slot syntax makes the element content of a slot, or its children. -/
def usesSlots (w : Written) : Bool :=
  (w.value? "slot-scope").isSome || (w.tag == "template" && (w.value? "scope").isSome) ||
    w.attributes.any fun a => Spelling.isSlot a.name

end Written

namespace Builder

open ViewTemplate.Tree

variable {options : Options} {template : String}

/-- The builder after more events. -/
def onward (options : Options) (template : String) (b : Builder) (events : List Event) : Builder :=
  (events.foldlM (step options template) b).value

@[simp] theorem onward_nil (b : Builder) : b.onward options template [] = b := rfl

@[simp] theorem onward_cons (b : Builder) (e : Event) (events : List Event) :
    b.onward options template (e :: events) =
      (b.step options template e).value.onward options template events := by
  rw [onward, foldlM_cons, Reported.value_bind]
  rfl

theorem onward_append (b : Builder) (events more : List Event) :
    b.onward options template (events ++ more) =
      (b.onward options template events).onward options template more := by
  rw [onward, foldlM_append, Reported.value_bind]
  rfl

theorem after_append (events more : List Event) :
    after options template (events ++ more) =
      (after options template events).onward options template more :=
  onward_append {} events more

theorem closings_append (b : Builder) (events more : List Event) :
    closings options template b (events ++ more) =
      closings options template b events ++
        closings options template (b.onward options template events) more := by
  induction events generalizing b with
  | nil => rfl
  | cons e events ih => rw [cons_append, closings, closings, ih, onward_cons, append_assoc]

/-! ## Inside an element -/

/-- The builder at work inside: above a stack that stays it has as many open elements as the depth
says, all of them numbered from a certain one on. -/
structure Above (base : List NodeId) (n : NodeId) (depth : Nat) (b : Builder) : Prop where
  stack : ∃ upper, b.stack = upper ++ base ∧ upper.length = depth ∧ ∀ i ∈ upper, n ≤ i
  le_size : n ≤ b.tree.nodes.size

section Above

variable {base : List NodeId} {n : NodeId} {b : Builder}

theorem Above.of_stack (hn : n ≤ b.tree.nodes.size) : b.Above b.stack n 0 :=
  ⟨⟨[], rfl, rfl, fun _ hi => absurd hi not_mem_nil⟩, hn⟩

theorem Above.stack_eq (h : b.Above base n 0) : b.stack = base := by
  obtain ⟨upper, hstack, hlength, -⟩ := h.stack
  rw [hstack, eq_nil_of_length_eq_zero hlength, nil_append]

/-- An end tag finds a new element on top. -/
theorem Above.exists_cons {depth : Nat} (h : b.Above base n (depth + 1)) :
    ∃ id upper, b.stack = id :: (upper ++ base) ∧ upper.length = depth ∧ n ≤ id ∧
      ∀ i ∈ upper, n ≤ i := by
  obtain ⟨upper, hstack, hlength, hnew⟩ := h.stack
  obtain ⟨id, upper, rfl⟩ := exists_cons_of_length_eq_add_one hlength
  refine ⟨id, upper, hstack, Nat.succ.inj hlength, hnew id mem_cons_self, fun i hi => ?_⟩
  exact hnew i (mem_cons_of_mem id hi)

/-- The innermost open element is that of the stack below, or a new one. -/
theorem head?_append_base {upper : List NodeId} (hnew : ∀ i ∈ upper, n ≤ i) :
    (upper ++ base).head? = base.head? ∨ ∃ q, (upper ++ base).head? = some q ∧ n ≤ q := by
  cases upper with
  | nil => exact .inl rfl
  | cons q upper => exact .inr ⟨q, rfl, hnew q mem_cons_self⟩

variable {tags later : List String} {e : Event}

section

variable (h : b.Above base n tags.length) (hread : Event.read? tags e = some later)
include h hread

theorem above_step :
    (b.step options template e).value.Above base n later.length := by
  refine ⟨?_, Nat.le_trans h.le_size (size_step_le options template b e)⟩
  cases e with
  | start tag attributes unary range =>
    cases hread
    obtain ⟨upper, hstack, hlength, hnew⟩ := h.stack
    rw [step, stack_start]
    cases unary with
    | true => exact h.stack
    | false =>
      refine ⟨b.tree.nodes.size :: upper, ?_, congrArg Nat.succ hlength, fun i hi => ?_⟩
      · rw [hstack]
        rfl
      · rcases mem_cons.mp hi with rfl | hi
        · exact h.le_size
        · exact hnew i hi
  | finish tag place =>
    cases Event.read?_finish_eq_some.mp hread
    obtain ⟨id, upper, hstack, hlength, -, hnew⟩ := h.exists_cons
    exact ⟨upper, stack_finish hstack place.stop, hlength, hnew⟩
  | text content range =>
    cases hread
    rw [step, stack_text]
    exact h.stack
  | comment content range =>
    cases hread
    show ∃ upper, (b.comment content range).stack = upper ++ base ∧ _
    rw [stack_comment]
    exact h.stack

/-- What closes inside closes in the element around it all, or in a new one. -/
theorem parent_of_closed? {c : Closing} (hc : b.closed? options e = some c) :
    c.parent = base.head? ∨ ∃ q, c.parent = some q ∧ n ≤ q := by
  rw [closed?, bind_eq_some_iff] at hc
  obtain ⟨⟨id, before⟩, hclosing, hel⟩ := hc
  obtain ⟨el, -, rfl⟩ := map_eq_some_iff.mp hel
  show before.stack.head? = base.head? ∨ ∃ q, before.stack.head? = some q ∧ n ≤ q
  cases closesAt_of_closing hclosing with
  | unary tag attributes range =>
    obtain ⟨upper, hstack, -, hnew⟩ := h.stack
    rw [stack_opened, hstack]
    exact head?_append_base hnew
  | finish tag place hopen =>
    cases Event.read?_finish_eq_some.mp hread
    obtain ⟨top, upper, hstack, -, -, hnew⟩ := h.exists_cons
    cases hopen.symm.trans hstack
    exact head?_append_base hnew

/-- What was there before is left alone inside. -/
theorem sameAt_step_of_above {i : NodeId} (hi : i < n) :
    SameAt i b.tree (b.step options template e).value.tree := by
  refine sameAt_step template e (Nat.lt_of_lt_of_le hi h.le_size) ?_
  rintro tag place rfl hhead
  cases Event.read?_finish_eq_some.mp hread
  obtain ⟨id, upper, hstack, -, hnew, -⟩ := h.exists_cons
  rw [hstack] at hhead
  cases hhead
  exact absurd hi (Nat.not_lt.mpr hnew)

end

/-- A run of events inside. -/
theorem above_onward (options : Options) (template : String) {events : List Event}
    (h : b.Above base n tags.length) (hread : Event.readAll? tags events = some later) :
    (b.onward options template events).Above base n later.length ∧
      (∀ c ∈ closings options template b events,
        c.parent = base.head? ∨ ∃ q, c.parent = some q ∧ n ≤ q) ∧
      ∀ i, i < n → SameAt i b.tree (b.onward options template events).tree := by
  induction events generalizing b tags with
  | nil =>
    cases hread
    exact ⟨h, fun c hc => absurd hc not_mem_nil, fun i _ => .refl i b.tree⟩
  | cons e events ih =>
    rw [Event.readAll?_cons, bind_eq_some_iff] at hread
    obtain ⟨mid, hmid, hrest⟩ := hread
    obtain ⟨habove, hclosings, hsame⟩ := ih (above_step h hmid) hrest
    rw [onward_cons]
    refine ⟨habove, fun c hc => ?_, fun i hi => ?_⟩
    · rcases mem_append.mp hc with hc | hc
      · exact parent_of_closed? h hmid (mem_toList.mp hc)
      · exact hclosings c hc
    · exact (sameAt_step_of_above h hmid hi).trans (hsame i hi)

end Above

/-- The builder just before an end tag closes the innermost open element. -/
theorem closing_finish (options : Options) {b : Builder} {id : NodeId} {rest : List NodeId} {el : Element}
    (hstack : b.stack = id :: rest) (hel : b.tree.element? id = some el) (tag : String)
    (place : Range) :
    ∃ before el', b.closing options (.finish tag place) = some (id, before) ∧ before.stack = rest ∧
      (∀ i, SameAt i b.tree before.tree) ∧ before.tree.element? id = some el' ∧
      el'.unlinked = el.unlinked ∧ el'.children = el.children ∧ el'.identity = el.identity := by
  let stopped (el : Element) : Element :=
    { el with range := el.range.map fun r => { r with stop := place.stop } }
  refine ⟨({ b with stack := rest } : Builder).withTree fun tree => tree.update id stopped,
    stopped el, ?_, rfl, fun i => .update id fun _ _ => rfl, ?_, rfl, rfl, el.identity_stop place.stop⟩
  · rw [closing, hstack]
    rfl
  · exact (element?_update ..).trans (by rw [if_pos rfl, hel]; rfl)

theorem onward_events (w : Written) {b before : Builder} {id : NodeId}
    (h : (b.onward options template w.front).closing options w.last = some (id, before)) :
    b.onward options template w.events = (before.close options id).value := by
  rw [Written.events, onward_append, onward_cons, onward_nil]
  exact value_step_of_closing h

section Web

variable (hweb : ∀ x ∈ options.extensions, x ∈ Options.web.extensions)
include hweb

theorem keepsIdentity_of_web : ∀ x ∈ options.extensions, x.Keeps Element.identity := fun x hx =>
  (Extension.keeps_frame_web x (hweb x hx)).map Element.Frame.identity

section

variable (template : String)

/-- An element keeps its identity, whatever events follow. -/
theorem keeps_onward (b : Builder) (events : List Event) :
    Keeps (fun identity => identity) (fun _ => True) b.tree
      (b.onward options template events).tree := by
  induction events generalizing b with
  | nil => exact .refl b.tree
  | cons e events ih =>
    rw [onward_cons]
    refine Keeps.trans ?_ (ih _)
    exact keeps_event (keepsIdentity_of_web hweb) trivial (fun _ _ _ => trivial)
      (fun _ _ _ _ _ _ => trivial) b

/-- The builder just before an element closes: the elements that were open before are, and the element
is as it was entered up to links. -/
theorem exists_closing (w : Written) (b : Builder) :
    (∀ c ∈ closings options template b w.front,
      ∃ q, c.parent = some q ∧ b.tree.nodes.size ≤ q) ∧
    ∃ before el, (b.onward options template w.front).closing options w.last =
        some (b.tree.nodes.size, before) ∧ before.stack = b.stack ∧
      (∀ i, i < b.tree.nodes.size → SameAt i b.tree before.tree) ∧
      before.tree.element? b.tree.nodes.size = some el ∧
      el.unlinked = (b.entered options w.tag w.attributes w.range).unlinked ∧
      el.identity = (b.entered options w.tag w.attributes w.range).identity := by
  have hopened := element?_opened options w.tag w.attributes w.range b b.tree.nodes.size
  rw [if_pos rfl] at hopened
  rw [Written.front, Written.last]
  cases hcontent : w.content with
  | none =>
    refine ⟨fun c hc => absurd hc not_mem_nil, _, _, rfl, stack_opened .., fun i _ => ?_, hopened,
      rfl, rfl⟩
    exact sameAt_opened w.tag w.attributes w.range b
  | some content =>
    obtain ⟨inner, place⟩ := content
    have hstart : (b.step options template (.start w.tag w.attributes false w.range)).value =
        { b.opened options w.tag w.attributes w.range with
          stack := b.tree.nodes.size :: b.stack } :=
      value_start options w.tag w.attributes false w.range b
    simp only [closings, onward_cons]
    generalize (b.step options template (.start w.tag w.attributes false w.range)).value = inside
      at hstart ⊢
    have hstack : inside.stack = b.tree.nodes.size :: b.stack := by rw [hstart]
    have htree : inside.tree = (b.opened options w.tag w.attributes w.range).tree := by rw [hstart]
    have hsize : b.tree.nodes.size + 1 ≤ inside.tree.nodes.size := by
      rw [htree, nodes_opened, size_add]
    rw [← htree] at hopened
    obtain ⟨habove, hclosings, hsame⟩ := above_onward options template (Above.of_stack hsize)
      (w.balanced (inner, place) hcontent)
    obtain ⟨el, hel, hunlinked⟩ := hsame _ (Nat.lt_succ_self _) _ hopened
    obtain ⟨el', hel', hidentity⟩ := (keeps_onward hweb template inside inner).element hopened
    cases hel.symm.trans hel'
    obtain ⟨before, last, hclosing, hrest, hkept, hlast, hsettled, -, hlastIdentity⟩ :=
      closing_finish options (habove.stack_eq.trans hstack) hel w.tag place
    refine ⟨fun c hc => ?_, before, last, hclosing, hrest, fun i hi => ?_, hlast,
      hsettled.trans hunlinked, hlastIdentity.trans hidentity⟩
    · rcases hclosings c hc with hparent | ⟨q, hq, hle⟩
      · exact ⟨_, hparent.trans (congrArg head? hstack), Nat.le_refl _⟩
      · exact ⟨q, hq, Nat.le_of_succ_le hle⟩
    · have hstarted : SameAt i b.tree inside.tree := by
        rw [htree]
        exact sameAt_opened w.tag w.attributes w.range b
      exact (hstarted.trans (hsame i (Nat.lt_succ_of_lt hi))).trans (hkept i)

/-- After an element those are open that were open before, and of these and of all else that was there
nothing has changed but links. -/
theorem onward_written (w : Written) (b : Builder) :
    (b.onward options template w.events).stack = b.stack ∧
      ∀ i, i < b.tree.nodes.size → SameAt i b.tree (b.onward options template w.events).tree := by
  obtain ⟨-, before, el, hclosing, hstack, hsame, -⟩ := exists_closing hweb template w b
  rw [onward_events w hclosing]
  constructor
  · rw [stack_close, hstack]
  · intro i hi
    exact (hsame i hi).trans (sameAt_close fun h => absurd h (Nat.ne_of_lt hi))

/-- The elements that close in it, and then the element itself. -/
theorem closings_written {closed : List Closing} {b : Builder}
    (h : b.tree.Assembled closed [] b.stack) (w : Written) :
    ∃ inner el, closings options template b w.events =
        inner ++ [⟨b.parent?, b.tree.nodes.size, el⟩] ∧
      (∀ c ∈ inner, ∃ q, c.parent = some q ∧ b.tree.nodes.size ≤ q) ∧
      el.identity = (b.entered options w.tag w.attributes w.range).identity := by
  obtain ⟨hinner, before, el, hclosing, hstack, -, hel, -, hidentity⟩ :=
    exists_closing hweb template w b
  have hfront : (b.onward options template w.front).tree.Assembled _ [] _ :=
    assembled_foldlM (keepsLinks_of_web hweb) w.front h
  obtain ⟨read, hread, hclosed⟩ := exists_closed? (keepsLinks_of_web hweb) hfront hclosing
  refine ⟨_, read, ?_, hinner, ?_⟩
  · have hparent : before.parent? = b.parent? := congrArg head? hstack
    have hlast : closings options template (b.onward options template w.front) [w.last] =
        [⟨b.parent?, b.tree.nodes.size, read⟩] := by
      rw [closings, closings, append_nil, ← hparent]
      exact congrArg Option.toList hclosed
    rw [Written.events, closings_append, hlast]
  · have htrim : Keeps (fun identity => identity) (fun _ => True) before.tree
        (before.trimChildren b.tree.nodes.size).tree := related_trimChildren allowsLinks_keeps _ before
    have hkept := htrim.trans (keeps_finishReading (keepsIdentity_of_web hweb) trivial
      b.tree.nodes.size (before.trimChildren b.tree.nodes.size))
    obtain ⟨el', hel', hsame⟩ := hkept.element hel
    cases hread.symm.trans hel'
    exact hsame.trans hidentity

/-- An element keeps what it was entered as. -/
theorem identity_written (w : Written) (b : Builder) :
    ∃ el, (b.onward options template w.events).tree.element? b.tree.nodes.size = some el ∧
      el.identity = (b.entered options w.tag w.attributes w.range).identity := by
  obtain ⟨-, before, el, hclosing, -, -, hel, -, hidentity⟩ := exists_closing hweb template w b
  have hkeeps : Keeps (fun identity => identity) (fun _ => True) before.tree
      (before.close options b.tree.nodes.size).value.tree :=
    keeps_close (keepsIdentity_of_web hweb) trivial b.tree.nodes.size before
  obtain ⟨el', hel', hsame⟩ := hkeeps.element hel
  rw [onward_events w hclosing]
  exact ⟨el', hel', hsame.trans hidentity⟩

/-- Without slot syntax an element is not content of a slot. -/
theorem slotScope_written {w : Written} (hslots : w.usesSlots = false) (b : Builder) :
    ∃ el, (b.onward options template w.events).tree.element? b.tree.nodes.size = some el ∧
      el.slotScope = none := by
  obtain ⟨-, before, el, hclosing, hstack, -, hel, hunlinked, -⟩ :=
    exists_closing hweb template w b
  rw [onward_events w hclosing]
  obtain ⟨named, hnamed, htrim⟩ := related_trimChildren allowsLinks_sameAt b.tree.nodes.size before el hel
  have hentered := htrim.trans hunlinked
  have hreads := (reads_entered hweb w.tag w.attributes w.range b).trans (.of_unlinked hentered)
  obtain ⟨htag, hscope, -⟩ := frame_entered hweb w.tag w.attributes w.range b
  simp only [Written.usesSlots, Bool.or_eq_false_iff, Bool.and_eq_false_imp, beq_iff_eq,
    isSome_eq_false_iff, isNone_iff_eq_none, List.any_eq_false] at hslots
  obtain ⟨⟨hslotScope, htemplate⟩, hdirective⟩ := hslots
  obtain ⟨read, hread, -, hfree⟩ := exists_finishReading hweb hnamed fun a ha =>
    Bool.eq_false_iff.mpr (hdirective a (hreads.pending ha))
  have hel := hread b.tree.nodes.size
  rw [if_pos rfl] at hel
  obtain ⟨last, hlast, hsettled⟩ := sameAt_close_of_read (fun _ => leavesPlaced_of_web hweb) read hel
  refine ⟨last, hlast, (congrArg Element.slotScope hsettled).trans (hfree ?_ ?_ ?_)⟩
  · exact (hreads.attribute?_eq _).trans hslotScope
  · intro hname
    have hnamedTag : named.tag = w.tag := (congrArg Element.tag hentered).trans htag
    exact (hreads.attribute?_eq _).trans (htemplate (hnamedTag ▸ hname))
  · exact (congrArg Element.slotScope hentered).trans hscope

end

end Web

end Builder

end ViewTemplate
