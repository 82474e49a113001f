import ViewTemplate.Proofs.WrittenElements

/-! # Children that stay

An element that has become a child and is not content of a slot stays a child, whatever follows: texts
and branches that come after it leave it in its place, and so does the end tag of the element around
it, unless that makes its children the content of a slot.
-/

open List Option

namespace ViewTemplate

namespace Tree

/-- A child that is an element and not content of a slot. -/
structure PlainChild (p i : NodeId) (tree : Tree) : Prop where
  child : ∃ el, tree.element? p = some el ∧ i ∈ el.children
  plain : ∃ el, tree.element? i = some el ∧ el.slotScope = none

namespace PlainChild

variable {p i : NodeId} {tree later : Tree}

section

variable (h : tree.PlainChild p i)
include h

/-- A change that leaves the child alone up to links. -/
theorem of_sameAt (hsame : SameAt i tree later)
    (hchild : ∀ el, tree.element? p = some el → i ∈ el.children →
      ∃ el', later.element? p = some el' ∧ i ∈ el'.children) : later.PlainChild p i := by
  obtain ⟨⟨outer, houter, hmem⟩, el, hel, hscope⟩ := h
  obtain ⟨el', hel', hunlinked⟩ := hsame el hel
  exact ⟨hchild outer houter hmem, el', hel',
    (congrArg Element.slotScope hunlinked :).trans hscope⟩

theorem update (id : NodeId) {f : Element → Element}
    (hunlinked : ∀ el, (f el).unlinked = el.unlinked)
    (hchildren : p = id → ∀ el, tree.element? p = some el → i ∈ el.children →
      i ∈ (f el).children) : (tree.update id f).PlainChild p i := by
  refine h.of_sameAt (.update id fun _ => hunlinked) fun el hel hmem => ?_
  rw [element?_update]
  split
  · rename_i hp
    exact ⟨f el, by rw [← hp, hel]; rfl, hchildren hp el hel hmem⟩
  · exact ⟨el, hel, hmem⟩

theorem add (node : Node) : (tree.add node).2.PlainChild p i := by
  refine h.of_sameAt (.add node) fun el hel hmem => ⟨el, ?_, hmem⟩
  rw [element?_add, if_neg (Nat.ne_of_lt (lt_size_of_element? hel))]
  exact hel

theorem of_nodes (hnodes : later.nodes = tree.nodes) :
    later.PlainChild p i := by
  refine h.of_sameAt (.of_nodes hnodes) fun el hel hmem => ⟨el, ?_, hmem⟩
  rw [element?, node?, hnodes]
  exact hel

theorem isElement : tree.isElement i = true := by
  obtain ⟨-, el, hel, -⟩ := h
  rw [Tree.isElement, hel]
  rfl

end

end PlainChild

end Tree

namespace Builder

open ViewTemplate.Tree

variable {before : Builder} {e : Event} {j : NodeId} {tree : Tree} {options : Options}
  {template : String} {p i id : NodeId} {b : Builder}

theorem mem_reverse_dropWhile {α : Type} {q : α → Bool} {l : List α} {a : α} (ha : a ∈ l)
    (hq : q a = false) : a ∈ (l.reverse.dropWhile q).reverse := by
  have hsame := filter_dropWhile_not (fun x => !q x) l.reverse
  simp only [Bool.not_not] at hsame
  have hmem : a ∈ l.reverse.filter fun x => !q x :=
    mem_filter.mpr ⟨mem_reverse.mpr ha, by simp [hq]⟩
  rw [← hsame] at hmem
  exact mem_reverse.mpr (mem_of_mem_filter hmem)

theorem plainChild_trimChildren (h : b.tree.PlainChild p i) (id : NodeId) :
    (b.trimChildren id).tree.PlainChild p i := by
  refine h.update id (fun _ => rfl) fun _ el _ hmem => mem_reverse_dropWhile hmem ?_
  obtain ⟨-, child, hchild, -⟩ := h
  rw [isSpace, node?_of_element? hchild, Bool.and_false]

theorem plainChild_appendNode (h : tree.PlainChild p i) (parent : NodeId) (node : Node) :
    (appendNode parent node tree).PlainChild p i := by
  refine (h.add node).update parent (fun _ => rfl) fun _ el _ hmem => ?_
  exact mem_append_left _ hmem

theorem plainChild_dropTexts (h : tree.PlainChild p i) (parent : NodeId) :
    (dropTexts tree parent).PlainChild p i := by
  refine h.update parent (fun _ => rfl) fun hp el hel hmem => ?_
  have helement : (!tree.isElement i) = false := by
    rw [h.isElement]
    rfl
  rw [untilElement, ← hp, hel]
  exact mem_reverse_dropWhile hmem helement

/-- Another element gets its place. -/
theorem plainChild_place (h : b.tree.PlainChild p i) (id : NodeId) :
    (b.place id).value.tree.PlainChild p i := by
  refine of_place (P := (·.PlainChild p i)) h (fun parent _ => plainChild_dropTexts h parent)
    (fun holder _ htree => htree.update holder (fun _ => rfl) fun _ _ _ hmem => hmem)
    fun _ parent _ _ => ?_
  refine PlainChild.update ?_ id (fun _ => rfl) fun _ _ _ hmem => hmem
  exact h.update parent (fun _ => rfl) fun _ _ _ hmem => mem_append_left _ hmem

theorem plainChild_dropSlotContent (h : tree.PlainChild p i) (id : NodeId) :
    (dropSlotContent id tree).PlainChild p i := by
  refine h.update id (fun _ => rfl) fun _ el _ hmem => mem_filter.mpr ⟨hmem, ?_⟩
  obtain ⟨-, child, hchild, hscope⟩ := h
  rw [isSlotContent, hchild, any_some, hscope]
  rfl

section Web

variable (hweb : ∀ x ∈ options.extensions, x ∈ Options.web.extensions)
include hweb

theorem plainChild_finishElement (h : b.tree.PlainChild p i) (hi : id ≠ i) :
    (b.finishElement options id).value.tree.PlainChild p i := by
  refine h.of_sameAt (sameAt_finishElement (fun heq => absurd heq.symm hi) b) fun el hel hmem => ?_
  rw [tree_finishElement, element?_update]
  split
  · rename_i hp
    refine ⟨leftAs options el, by rw [← hp, hel]; rfl, ?_⟩
    rw [leftAs_keeps Element.children (fun x hx => ((Extension.keeps_frame_web x (hweb x hx)).map
      Element.Frame.children).afterPlacement) el]
    exact hmem
  · exact ⟨el, hel, hmem⟩

section

variable (h : b.tree.PlainChild p i) (hi : id ≠ i)
  (hslot : id = p → ∀ el, b.tree.element? p = some el → ∀ a ∈ el.pending, Spelling.isSlot a.name = false)
include h hi hslot

/-- Reading an element leaves the children of another one, and of one without slot directive, where
they are. -/
theorem plainChild_finishReading :
    (b.finishReading options id).value.tree.PlainChild p i := by
  refine h.of_sameAt (sameAt_finishReading fun heq => absurd heq.symm hi) fun el hel hmem => ?_
  by_cases hp : id = p
  · subst hp
    obtain ⟨read, hread, hframe, -⟩ := exists_finishReading hweb hel (hslot rfl el hel)
    refine ⟨read, by rw [hread, if_pos rfl], ?_⟩
    have hchildren : read.children = el.children :=
      (congrArg Element.Frame.children hframe :)
    rw [hchildren]
    exact hmem
  · have hkeeps : KeepsTies [p] b.tree (b.finishReading options id).value.tree :=
      keepsTies_finishReading (keepsLinks_of_web hweb) (by simpa using hp)
        (forall_mem_singleton.mpr (lt_size_of_element? hel))
    have hchildren := hkeeps.children p (mem_singleton_self p)
    rw [aspect?_of_element? hel] at hchildren
    obtain ⟨el', hel', hsame⟩ := map_eq_some_iff.mp hchildren
    exact ⟨el', hel', hsame ▸ hmem⟩

/-- Another element closes, or the element around the child, which has no slot directive. -/
theorem plainChild_close :
    (b.close options id).value.tree.PlainChild p i := by
  have hread : ((b.trimChildren id).finishReading options id).value.tree.PlainChild p i := by
    refine plainChild_finishReading hweb (plainChild_trimChildren h id) hi fun hp el hel => ?_
    obtain ⟨outer, houter, -⟩ := h.child
    obtain ⟨trimmed, htrimmed, hunlinked⟩ := related_trimChildren allowsLinks_sameAt id b outer houter
    cases hel.symm.trans htrimmed
    have hpending : el.pending = outer.pending := (congrArg Element.pending hunlinked :)
    rw [hpending]
    exact hslot hp outer houter
  simp only [close, Reported.value_bind]
  refine plainChild_finishElement hweb (plainChild_trimChildren ?_ id) hi
  exact plainChild_dropSlotContent (plainChild_place hread id) id

end

end Web

/-! ## Events -/

/-- What an event closes is new, or has been the innermost open element. -/
theorem stack_of_closing (h : b.closing options e = some (id, before)) :
    id = b.tree.nodes.size ∧ before.stack = b.stack ∨ b.stack = id :: before.stack := by
  cases closesAt_of_closing h with
  | unary tag attributes range => exact .inl ⟨rfl, stack_opened ..⟩
  | finish tag range hstack => exact .inr hstack

/-- An element that is open after an event was open before, or is new. -/
theorem mem_stack_step (h : j ∈ (b.step options template e).value.stack) :
    j ∈ b.stack ∨ j = b.tree.nodes.size := by
  have hsteps := steps_step options template b e
  generalize (b.step options template e).value = later at hsteps h
  cases hsteps with
  | opens tag attributes range => exact (mem_cons.mp h).symm
  | closes hclosing =>
    rw [stack_close] at h
    rcases stack_of_closing hclosing.closing_eq with ⟨-, hstack⟩ | hstack
    · exact .inl (hstack ▸ h)
    · exact .inl (hstack ▸ mem_cons_of_mem _ h)
  | appends _ _ _ _ _ hstack => exact .inl (hstack ▸ h)
  | stays _ _ _ hstack => exact .inl (hstack ▸ h)

theorem not_mem_stack_step (hj : j ∉ b.stack) (hlt : j < b.tree.nodes.size) (e : Event) :
    j ∉ (b.step options template e).value.stack := by
  intro hmem
  rcases mem_stack_step hmem with hmem | rfl
  · exact hj hmem
  · exact Nat.lt_irrefl _ hlt

/-- Nothing closes in an element that is closed. -/
theorem parent_ne_of_closed (hj : j ∉ b.stack) (hlt : j < b.tree.nodes.size) (events : List Event) :
    ∀ c ∈ closings options template b events, c.parent ≠ some j := by
  induction events generalizing b with
  | nil => exact fun c hc => absurd hc not_mem_nil
  | cons e events ih =>
    intro c hc
    rcases mem_append.mp hc with hc | hc
    · obtain ⟨⟨id, before⟩, hclosing, hread⟩ := bind_eq_some_iff.mp (mem_toList.mp hc)
      obtain ⟨el, -, rfl⟩ := map_eq_some_iff.mp hread
      intro hparent
      have hmem : j ∈ before.stack := mem_of_head? hparent
      rcases stack_of_closing hclosing with ⟨-, hstack⟩ | hstack
      · exact hj (hstack ▸ hmem)
      · rw [hstack] at hj
        exact hj (mem_cons_of_mem id hmem)
    · exact ih (not_mem_stack_step hj hlt e) (Nat.lt_of_lt_of_le hlt (size_step_le options template b e))
        c hc

theorem plainChild_opened (h : b.tree.PlainChild p i) (tag : String) (attributes : List Attribute)
    (range : Range) : (b.opened options tag attributes range).tree.PlainChild p i :=
  (h.add _).of_nodes (nodes_opened options tag attributes range b)

theorem plainChild_of_closesAt (h : b.tree.PlainChild p i)
    (hclosing : b.ClosesAt options e id before) : before.tree.PlainChild p i := by
  cases hclosing with
  | unary tag attributes range => exact plainChild_opened h tag attributes range
  | finish tag range hstack => exact h.update _ (fun _ => rfl) fun _ _ _ hmem => hmem

/-- A child that has closed, and the element around it, which has no slot directive as long as it is
open. -/
structure Settled (p i : NodeId) (b : Builder) : Prop where
  child : b.tree.PlainChild p i
  closed : i ∉ b.stack
  slotless : p ∈ b.stack → ∀ el, b.tree.element? p = some el →
    ∀ a ∈ el.pending, Spelling.isSlot a.name = false

section Web

variable (hweb : ∀ x ∈ options.extensions, x ∈ Options.web.extensions) {closed : List Closing}
include hweb

/-- One event leaves the child where it is. -/
theorem settled_step (hassembled : b.tree.Assembled closed [] b.stack) (h : b.Settled p i) (e : Event) :
    (b.step options template e).value.Settled p i := by
  obtain ⟨outer, houter, -⟩ := h.child.child
  obtain ⟨inner, hinner, -⟩ := h.child.plain
  have hpending {later : Tree} {el : Element} (hopen : p ∈ b.stack) (hsame : SameAt p b.tree later)
      (hel : later.element? p = some el) : ∀ a ∈ el.pending, Spelling.isSlot a.name = false := by
    obtain ⟨el', hel', hunlinked⟩ := hsame outer houter
    cases hel.symm.trans hel'
    have hkept : el.pending = outer.pending := (congrArg Element.pending hunlinked :)
    rw [hkept]
    exact h.slotless hopen outer houter
  refine ⟨?_, not_mem_stack_step h.closed (lt_size_of_element? hinner) e, fun hopen el hel => ?_⟩
  · have hsteps := steps_step options template b e
    generalize (b.step options template e).value = later at hsteps ⊢
    cases hsteps with
    | opens tag attributes range => exact plainChild_opened h.child tag attributes range
    | @closes _ id before hclosing =>
      refine plainChild_close hweb (plainChild_of_closesAt h.child hclosing) ?_ ?_
      · rintro rfl
        rcases stack_of_closing hclosing.closing_eq with ⟨hnew, -⟩ | hstack
        · exact Nat.lt_irrefl _ (hnew ▸ lt_size_of_element? hinner)
        · exact h.closed (hstack ▸ mem_cons_self)
      · rintro rfl el hel
        rcases stack_of_closing hclosing.closing_eq with ⟨hnew, -⟩ | hstack
        · exact absurd (lt_size_of_element? houter) (hnew ▸ Nat.lt_irrefl _)
        · exact hpending (hstack ▸ mem_cons_self) (sameAt_of_closesAt hclosing) hel
    | appends _ _ _ _ htree =>
      rw [htree]
      exact plainChild_appendNode h.child _ _
    | stays _ _ htree =>
      rw [htree]
      exact h.child
  · rcases mem_stack_step hopen with hbefore | rfl
    · refine hpending hbefore (sameAt_step template e (lt_size_of_element? houter) ?_) hel
      -- after its own end tag it is not open any more
      rintro tag range rfl hhead
      obtain ⟨rest, hstack⟩ := head?_eq_some_iff.mp hhead
      rw [step, stack_finish hstack] at hopen
      have hnodup : b.stack.Nodup := (nodup_append.mp hassembled.distinct).1
      rw [hstack] at hnodup
      exact absurd hopen (nodup_cons.mp hnodup).1
    · exact absurd (lt_size_of_element? houter) (Nat.lt_irrefl _)

/-- A run of events leaves the child where it is. -/
theorem settled_onward (hassembled : b.tree.Assembled closed [] b.stack) (h : b.Settled p i)
    (events : List Event) : (b.onward options template events).Settled p i := by
  induction events generalizing b closed with
  | nil => exact h
  | cons e events ih =>
    rw [onward_cons]
    exact ih (assembled_step (keepsLinks_of_web hweb) hassembled e) (settled_step hweb hassembled h e)

end Web

end Builder

end ViewTemplate
