import Mathlib.Data.List.DropRight
import ViewTemplate.Proofs.NodePlaces

/-! # What is lost without a report

Where the builder reports nothing, every element that closes gets a place: it is the root, a later
branch of a choice, or a child. Texts that lose their place are spaces. So the nodes of the tree stay
accounted for, and nothing that matters is lost except where two contents are for the same slot.
-/

open List Option

namespace ViewTemplate

open Element Extension

/-- An extension does not change where elements have their places. -/
structure Extension.KeepsPlaces (extension : Extension) : Prop where
  links : extension.KeepsLinks
  forbidden : extension.Keeps Element.forbidden
  label : ∀ surroundings el, (extension.afterPlacement surroundings el).value.label = el.label

/-- The extensions for documents do not change where elements have their places. -/
theorem Extension.keepsPlaces_web : ∀ x ∈ Options.web.extensions, x.KeepsPlaces := by
  intro x hx
  refine ⟨keepsLinks_web x hx, (keeps_frame_web x hx).map Frame.forbidden, ?_⟩
  rcases Options.eq_of_mem_web hx with rfl | rfl
  · exact fun _ _ => rfl
  · exact fun _ _ => rfl

namespace Reported

universe u

variable {α σ : Type u}

theorem notes_of_forM {f : α → Reported PUnit} {l : List α} (h : (l.forM f).notes = []) :
    ∀ a ∈ l, (f a).notes = [] := by
  induction l with
  | nil => exact forall_mem_nil _
  | cons a l ih =>
    rw [List.forM_eq_forM, forM_cons, notes_bind, append_eq_nil_iff] at h
    exact forall_mem_cons.mpr ⟨h.1, ih h.2⟩

/-- What each step preserves that reports nothing, a run preserves that reports nothing. -/
theorem foldlM_preserves_of_notes {P : σ → Prop} {f : σ → α → Reported σ}
    (h : ∀ a s, P s → (f s a).notes = [] → P (f s a).value) (l : List α) {s : σ} (hs : P s)
    (hnotes : (l.foldlM f s).notes = []) : P (l.foldlM f s).value := by
  induction l generalizing s with
  | nil => exact hs
  | cons a l ih =>
    rw [foldlM_cons, notes_bind, append_eq_nil_iff] at hnotes
    rw [foldlM_cons, value_bind]
    exact ih (h a s hs hnotes.1) hnotes.2

end Reported

namespace Builder

open ViewTemplate.Tree

variable {c parent : NodeId} {ledger : Ledger} {tree : Tree} {opened loose : List NodeId}
  {id : NodeId} {el : Element} {b : Builder} {options : Options}

/-! ## Faults of the root -/

/-- Where nothing is reported, there is no fault. -/
theorem faults_of_warnOnce {faults : List Diagnostic} (h : b.warned = false)
    (hnotes : (b.warnOnce faults).notes = []) : faults = [] := by
  simpa [warnOnce, h] using hnotes

theorem warned_warnOnce {faults : List Diagnostic} (h : b.warned = false)
    (hnotes : (b.warnOnce faults).notes = []) : (b.warnOnce faults).value.warned = false := by
  rw [faults_of_warnOnce h hnotes]
  exact (Bool.or_false _).trans h

@[simp] theorem warned_finishElement (id : NodeId) (b : Builder) :
    (b.finishElement options id).value.warned = b.warned := by
  rw [finishElement]
  split <;> rfl

theorem warned_claimRoot (h : b.warned = false) (hnotes : (b.claimRoot id el).notes = []) :
    (b.claimRoot id el).value.warned = false := by
  rw [claimRoot] at hnotes ⊢
  split
  · rename_i hroot
    rw [if_pos hroot] at hnotes
    exact warned_warnOnce h hnotes
  · exact h

/-! ## The places of closing elements -/

theorem space_of_reportIgnored (h : (reportIgnored.{0} tree c).notes = []) (node : Node)
    (text : String) (hnode : tree.node? c = some node) (htext : node.text? = some text) :
    text = " " := by
  simp only [reportIgnored, hnode, htext] at h
  split at h
  · assumption
  · cases h

/-- How a closing element gets its place where nothing is reported. -/
inductive Placing (b : Builder) (id : NodeId) (el : Element) : Tree → Prop
  | root (hstack : b.stack = []) (hroot : b.tree.root = some id) : Placing b id el b.tree
  | rootBranch {root : NodeId} {r : Element} (hstack : b.stack = [])
      (hroot : b.tree.root = some root) (hne : id ≠ root) (hr : b.tree.element? root = some r)
      (hchoice : r.choice.isSome = true) (hbranch : el.isBranch = true) :
      Placing b id el (b.tree.update root (addBranch ⟨el.elseIf, id⟩))
  | branch {parent previous : NodeId} {rest : List NodeId} {q : Element}
      (hstack : b.stack = parent :: rest)
      (hspaces : ∀ c ∈ textsAfter b.tree parent, ∀ node text, b.tree.node? c = some node →
        node.text? = some text → text = " ")
      (hprevious : (untilElement b.tree parent).head? = some previous)
      (hq : (dropTexts b.tree parent).element? previous = some q) (hchoice : q.choice.isSome = true)
      (hbranch : el.isBranch = true) :
      Placing b id el
        ((dropTexts b.tree parent).update previous (addBranch ⟨el.elseIf, id⟩))
  | child {parent : NodeId} {rest : List NodeId} (hstack : b.stack = parent :: rest)
      (hbranch : el.isBranch = false) : Placing b id el (placeChild id el parent b.tree)

/-- An element outside all others is the root or becomes a branch of it. -/
theorem placing_outside (hwarned : b.warned = false) (hstack : b.stack = [])
    (hnotes : (b.placeOutside id el).notes = []) :
    (b.placeOutside id el).value.warned = false ∧
      Placing b id el (b.placeOutside id el).value.tree := by
  rw [placeOutside] at hnotes ⊢
  split at hnotes
  · rename_i hguard
    rw [if_pos hguard]
    simp only [Bool.and_eq_true, decide_eq_true_eq] at hguard
    split at hnotes
    · rename_i root hfound
      simp only [filter_eq_some_iff, Bool.and_eq_true, Option.any_eq_true] at hfound
      obtain ⟨hroot, hbranch, r, hr, hchoice⟩ := hfound
      rw [Reported.notes_bind, Reported.notes_pure, append_nil] at hnotes
      refine ⟨warned_warnOnce hwarned hnotes, .rootBranch hstack hroot ?_ hr hchoice hbranch⟩
      rintro rfl
      exact hguard.2 hroot
    · cases faults_of_warnOnce hwarned hnotes
  · rename_i hguard
    rw [if_neg hguard]
    refine ⟨hwarned, .root hstack ?_⟩
    simpa [hstack] using hguard

/-- A later branch that is not reported goes to a choice, past nothing but spaces. -/
theorem placing_branch {rest : List NodeId} (hstack : b.stack = parent :: rest)
    (hbranch : el.isBranch = true) (hnotes : (placeBranch id el parent b.tree).notes = []) :
    Placing b id el (placeBranch id el parent b.tree).value := by
  rw [placeBranch_eq] at hnotes ⊢
  rw [Reported.notes_bind, append_eq_nil_iff] at hnotes
  rw [Reported.value_bind]
  cases hprevious : (untilElement b.tree parent).head?.filter fun previous =>
      ((dropTexts b.tree parent).element? previous).any fun p => p.choice.isSome with
  | none =>
    rw [hprevious] at hnotes
    cases hnotes.2
  | some previous =>
    simp only [filter_eq_some_iff, Option.any_eq_true] at hprevious
    obtain ⟨hhead, q, hq, hchoice⟩ := hprevious
    refine .branch hstack ?_ hhead hq hchoice hbranch
    intro c hc
    exact space_of_reportIgnored (Reported.notes_of_forM hnotes.1 c hc)

/-- Where nothing is reported, an element that is let through gets a place. -/
theorem placing_place (hel : b.tree.element? id = some el) (hforbidden : el.forbidden = false)
    (hwarned : b.warned = false) (hnotes : (b.place id).notes = []) :
    (b.place id).value.warned = false ∧ Placing b id el (b.place id).value.tree := by
  simp only [place, hel, Reported.notes_bind, append_eq_nil_iff, Reported.value_bind] at hnotes ⊢
  obtain ⟨houtside, hinside⟩ := hnotes
  cases hstack : b.stack with
  | nil =>
    obtain ⟨hlater, hplacing⟩ := placing_outside hwarned hstack houtside
    have hsame : (b.placeOutside id el).value.placeInside id el =
        pure (b.placeOutside id el).value := by
      have hparent : (b.placeOutside id el).value.parent? = none := by
        rw [parent?, stack_placeOutside, hstack]
        rfl
      rw [placeInside, hparent]
      rfl
    rw [hsame]
    exact ⟨hlater, hplacing⟩
  | cons parent rest =>
    have hsame : b.placeOutside id el = pure b := by
      rw [placeOutside, hstack]
      rfl
    rw [hsame, Reported.value_pure] at hinside ⊢
    refine ⟨hwarned, ?_⟩
    simp only [placeInside, parent?, hstack, head?_cons, hforbidden, Bool.false_eq_true, if_false,
      Reported.notes_bind, append_eq_nil_iff, Reported.value_bind] at hinside ⊢
    cases hbranch : el.isBranch with
    | true =>
      rw [hbranch, if_pos rfl] at hinside
      exact placing_branch hstack hbranch hinside.1
    | false => exact .child hstack hbranch

/-! ## Closing an element -/

theorem mem_rdropWhile_or {l : List NodeId} (q : NodeId → Bool) (hc : c ∈ l) :
    c ∈ l.rdropWhile q ∨ c ∈ l.rtakeWhile q := by
  rw [← mem_append, rdropWhile_append_rtakeWhile]
  exact hc

theorem unmissed_of_space {t : PlainText} (hc : tree.node? c = some (.plain t))
    (ht : t.text = " ") : tree.Unmissed c := by
  have hblank : Text.allBlank " ".toList = true := by decide
  intro node hnode
  cases hc.symm.trans hnode
  rw [Node.matters, ht, hblank, Bool.not_true, Bool.and_false]

theorem accounted_trimChildren (h : b.tree.Accounted opened loose) (id : NodeId) :
    (b.trimChildren id).tree.Accounted opened loose := by
  refine h.update id fun el hel => Edit.shrink hel (.inl rfl) rfl rfl rfl ?_ ?_
  · exact ( rdropWhile_prefix _ el.children).subset
  · intro c hc
    refine (mem_rdropWhile_or (fun c => !b.inPre && isSpace b.tree c) hc).imp_right
      fun hspace => .inl ?_
    have hboth := mem_rtakeWhile_imp hspace
    have hspace := (Bool.and_eq_true_iff.mp hboth).2
    rw [isSpace] at hspace
    split at hspace
    · rename_i t hnode
      exact unmissed_of_space hnode (eq_of_beq hspace)
    · cases hspace

theorem isSlotContent_eq (tree : Tree) (j : NodeId) :
    isSlotContent tree j = (tree.shape? j).any Shape.isSlot := by
  rw [isSlotContent, Tree.shape?]
  cases tree.element? j <;> rfl

theorem isSlotContent_foldl_parent (container : NodeId) (inside : List NodeId) (tree : Tree)
    (j : NodeId) :
    isSlotContent (inside.foldl (fun t c => t.update c fun e => { e with parent := some container })
      tree) j = isSlotContent tree j := by
  rw [isSlotContent_eq, isSlotContent_eq, shape?_foldl_parent]
  split
  · cases tree.shape? j <;> rfl
  · rfl

/-- Children that are no contents of slots get another parent. -/
theorem accounted_foldl_parent (container : NodeId) (inside : List NodeId)
    (h : tree.Accounted opened loose) (hplain : ∀ c ∈ inside, isSlotContent tree c = false) :
    (inside.foldl (fun t c => t.update c fun e => { e with parent := some container })
      tree).Accounted opened loose := by
  induction inside generalizing tree with
  | nil => exact h
  | cons c inside ih =>
    rw [forall_mem_cons] at hplain
    refine ih (h.update c fun el hel => ?_) ?_
    · have hslot := hplain.1
      rw [isSlotContent, hel, any_some] at hslot
      refine Edit.shrink hel (.inl ?_) rfl rfl rfl (List.Subset.refl _) fun _ => .inl
      simp only [Element.label, slot?, hslot, Bool.false_and]
      rfl
    · intro d hd
      rw [← hplain.2 d hd]
      exact isSlotContent_foldl_parent container [c] tree d

/-- The container of a component takes the children that are no contents of slots. -/
theorem accounted_fillSlot (h : tree.Accounted opened loose)
    (hsound : tree.Sound ledger opened loose) (hid : id ∈ opened) (hel : tree.element? id = some el)
    (hempty : el.scopedSlots.isEmpty = true) (use : SlotUse) :
    (fillSlot id use tree).Accounted opened loose := by
  have hlt := hsound.lt_size_of_holds
  have hinside (c : NodeId) (hc : c ∈ slotInside tree el) :
      c < tree.nodes.size ∧ c ∉ opened ∧ isSlotContent tree c = false := by
    obtain ⟨hchild, hplain⟩ := mem_filter.mp hc
    have hholds := (holds_of_element? hel).mpr (mem_held.mpr (.inl hchild))
    exact ⟨hlt id c hholds, h.closed id c hholds, by simpa using hplain⟩
  rw [fillSlot_eq hel]
  generalize hcontainer : slotContainer use id (slotInside tree el) = container
  have hadd : (tree.add (.element container)).2.Accounted (tree.nodes.size :: opened) loose := by
    refine h.add hlt _ ?_ fun t ht => by cases ht
    intro e he
    cases he
    rw [← hcontainer]
    exact ⟨rfl, rfl, rfl, hinside⟩
  have hnew {c : NodeId} (hc : c < tree.nodes.size) :
      (tree.add (.element container)).2.element? c = tree.element? c := by
    rw [element?_add, if_neg (Nat.ne_of_lt hc)]
  have hmoved := accounted_foldl_parent tree.nodes.size (slotInside tree el) hadd fun c hc => by
    rw [isSlotContent, hnew (hinside c hc).1]
    exact (hinside c hc).2.2
  generalize hmid : (slotInside tree el).foldl
    (fun t c => t.update c fun e => { e with parent := some tree.nodes.size })
    (tree.add (.element container)).2 = mid at hmoved ⊢
  have hidlt := lt_size_of_element? hel
  have hown : mid.element? id = some el := by
    rw [← hmid, element?_foldl_update fun hc => (hinside id hc).2.1 hid, hnew hidlt, hel]
  have hbox : mid.element? tree.nodes.size = some container := by
    rw [← hmid, element?_foldl_update fun hc => Nat.lt_irrefl _ (hinside _ hc).1, element?_add,
      if_pos rfl]
    rfl
  have hslot {c : NodeId} (hc : c < tree.nodes.size) :
      isSlotContent mid c = isSlotContent tree c := by
    rw [← hmid, isSlotContent_foldl_parent, isSlotContent, hnew hc]
    rfl
  refine (Edit.fill hown hempty ?_ ⟨Nat.ne_of_gt hidlt, ?_⟩ fun c hc => ?_).accounted hmoved
  · rw [FillsSlot, hbox, ← hcontainer]
    rfl
  · exact fun hopen => Nat.lt_irrefl _ (hsound.outside.lt_size hopen)
  · rw [hslot (hlt id c ((holds_of_element? hel).mpr (mem_held.mpr (.inl hc))))]
    by_cases hcontent : isSlotContent tree c = true
    · exact .inl hcontent
    · right
      rw [holds_of_element? hbox, mem_held, ← hcontainer]
      exact .inl (mem_filter.mpr ⟨hc, by simpa using hcontent⟩)

/-- A closing element becomes a child. -/
theorem accounted_placeChild (h : tree.Accounted (id :: parent :: opened) loose)
    (hsound : tree.Sound ledger (id :: parent :: opened) loose) (hloose : parent ∈ loose)
    (hel : tree.element? id = some el) (hbranch : el.isBranch = false) :
    (placeChild id el parent tree).Accounted (parent :: opened) loose := by
  have hparent : el.parent = some parent :=
    hsound.outside.parents 0 id el.shape rfl (shape?_of_element? hel)
  obtain ⟨p, hp⟩ :=
    hsound.outside.exists_element (mem_cons_of_mem id mem_cons_self)
  have hne : id ≠ parent :=
    Nat.ne_of_gt ((pairwise_cons.mp hsound.outside.nested).1 parent mem_cons_self).1
  rw [placeChild]
  refine Accounted.update ?_ id fun e he => ?_
  · refine (Edit.snoc hp ⟨hne, hsound.outside.not_mem⟩ ?_ ?_).accounted h
    · intro name
      split
      · rename_i hslot
        rw [Keyed.get?_insert]
        split
        · rename_i hname
          right
          rw [FillsSlot, hel, bind_some, slot?, hslot, hbranch, hparent, hname]
          exact ⟨rfl, rfl⟩
        · exact .inl rfl
      · exact .inl rfl
    · intro hslot
      rw [isSlotContent, hel, any_some] at hslot
      refine ⟨hloose, ?_⟩
      rw [if_pos hslot]
      exact Keyed.mem_values_of_get? ((Keyed.get?_insert ..).trans (if_pos rfl))
  · rw [element?_update, if_neg hne, hel] at he
    cases he
    refine Edit.shrink ?_ (.inl ?_) rfl rfl rfl (List.Subset.refl _) fun _ => .inl
    · rw [element?_update, if_neg hne, hel]
    · rw [← hparent]

/-- Spaces after the last child element are dropped. -/
theorem accounted_dropTexts {p : Element} (h : tree.Accounted opened loose)
    (hp : tree.element? parent = some p)
    (hspaces : ∀ c ∈ textsAfter tree parent, ∀ node text, tree.node? c = some node →
      node.text? = some text → text = " ") : (dropTexts tree parent).Accounted opened loose := by
  have huntil : (untilElement tree parent).reverse =
      p.children.rdropWhile fun c => !tree.isElement c := by
    rw [untilElement, hp]
    rfl
  have htexts : (textsAfter tree parent).reverse =
      p.children.rtakeWhile fun c => !tree.isElement c := by
    rw [textsAfter, hp]
    rfl
  refine h.update parent fun e he => ?_
  cases hp.symm.trans he
  refine Edit.shrink hp (.inl rfl) rfl rfl rfl (untilElement_sublist hp).subset ?_
  show ∀ c ∈ p.children, c ∈ (untilElement tree parent).reverse ∨ _
  intro c hc
  rw [huntil]
  refine (mem_rdropWhile_or _ hc).imp_right fun htext => .inl ?_
  have hnot := mem_rtakeWhile_imp htext
  rw [← htexts, mem_reverse] at htext
  intro node hnode
  cases node with
  | element d =>
    rw [isElement, element?_of_node? hnode] at hnot
    cases hnot
  | interpolated t => exact absurd (hspaces c htext _ t.text hnode rfl) (h.worded c t hnode)
  | plain t => exact unmissed_of_space hnode (hspaces c htext _ t.text hnode rfl) _ hnode

/-- Whatever the place of a closing element, the nodes stay accounted for. -/
theorem accounted_placing {later : Tree} (h : b.tree.Accounted (id :: b.stack) loose)
    (hsound : b.tree.Sound ledger (id :: b.stack) loose) (hloose : ∀ j ∈ b.stack, j ∈ loose)
    (hel : b.tree.element? id = some el) (hplacing : Placing b id el later) :
    later.Accounted b.stack loose := by
  have hid := hsound.outside.not_mem
  cases hplacing with
  | root hstack hroot => exact h.leave hroot
  | rootBranch hstack hroot hne hr hchoice hbranch =>
    exact (Edit.addBranch hr hchoice ⟨hne, hid⟩ ⟨el, hel, hbranch⟩ el.elseIf).accounted h
  | @branch parent previous rest q hstack hspaces hprevious hq hchoice hbranch =>
    have hopen : parent ∈ b.stack := hstack ▸ mem_cons_self
    obtain ⟨p, hp⟩ := hsound.outside.exists_element (mem_cons_of_mem id hopen)
    have hel' : (dropTexts b.tree parent).element? id = some el := by
      have hne : id ≠ parent := fun he => hid (he ▸ hopen)
      rw [dropTexts, element?_update, if_neg hne, hel]
    have hne : id ≠ previous := by
      rintro rfl
      have hchild : id ∈ p.children := (untilElement_sublist hp).subset
        (mem_reverse.mpr (mem_of_mem_head? hprevious))
      exact h.closed parent id ((holds_of_element? hp).mpr (mem_held.mpr (.inl hchild)))
        mem_cons_self
    exact (Edit.addBranch hq hchoice ⟨hne, hid⟩ ⟨el, hel', hbranch⟩ el.elseIf).accounted
      (accounted_dropTexts h hp hspaces)
  | @child parent rest hstack hbranch =>
    rw [hstack] at h hsound hloose ⊢
    exact accounted_placeChild h hsound (hloose parent mem_cons_self) hel hbranch

/-- An element keeps what is no content of a slot, and is settled. -/
theorem accounted_dropSlotContent (h : tree.Accounted opened (id :: loose)) :
    (dropSlotContent id tree).Accounted opened loose := by
  have hedit (el : Element) (hel : tree.element? id = some el) :
      Edit tree opened opened (id :: loose) id el
        { el with children := el.children.filter fun c => !isSlotContent tree c } := by
    refine Edit.shrink hel (.inl rfl) rfl rfl rfl filter_sublist.subset fun c hc => ?_
    by_cases hslot : isSlotContent tree c = true
    · exact .inr (.inr hslot)
    · exact .inl (mem_filter.mpr ⟨hc, by simpa using hslot⟩)
  refine (h.update id hedit).settle fun e he c hc => ?_
  rw [element?_update, if_pos rfl, map_eq_some_iff] at he
  obtain ⟨el, hel, rfl⟩ := he
  rw [(hedit el hel).isSlotContent_later fun _ => .inr rfl]
  simpa using (mem_filter.mp hc).2

/-- A change of an element besides its links. -/
theorem edit_of_links {el' : Element} (hel : tree.element? id = some el)
    (hlabel : el'.label = el.label ∨ id ∈ opened) (hlinks : el'.links = el.links)
    (hforbidden : el'.forbidden = el.forbidden) : Edit tree opened opened loose id el el' := by
  have hchildren : el'.children = el.children := congrArg Links.children hlinks
  refine Edit.shrink hel hlabel hforbidden (congrArg Links.scopedSlots hlinks)
    (otherBranches_of_choice (congrArg Links.choice hlinks)) ?_ fun c hc => .inl ?_
  · rw [hchildren]
    exact List.Subset.refl _
  · rw [hchildren]
    exact hc

section Hooks

variable {attributes : List Attribute} {range : Range} {tag : String}
  (hkeeps : ∀ x ∈ options.extensions, x.KeepsPlaces)
include hkeeps

theorem accounted_finishReading {ledger : Ledger} (h : b.tree.Accounted opened loose)
    (hsound : b.tree.Sound ledger opened loose) (hid : id ∈ opened)
    (hnotes : (b.finishReading options id).notes = []) :
    (b.finishReading options id).value.tree.Accounted opened loose := by
  rw [tree_finishReading]
  split
  · exact h
  · rename_i hread
    rw [finishReading, if_neg hread, Reported.notes_bind, append_eq_nil_iff] at hnotes
    obtain ⟨el, hel⟩ := hsound.outside.exists_element hid
    obtain ⟨placed, use, loopItems, hframe, hvalue, huse⟩ := value_readElement options hel
    have hlinks : placed.links = el.links := (congrArg Frame.links hframe :)
    have hplaced : (b.tree.update id fun _ => placed).Accounted opened loose := by
      refine h.update id fun e he => ?_
      cases hel.symm.trans he
      exact edit_of_links hel (.inr hid) hlinks (congrArg Frame.forbidden hframe :)
    have hfilled : (fillUse id use (b.tree.update id fun _ => placed)).Accounted opened loose := by
      cases use with
      | none => exact hplaced
      | some use =>
        have hsound' : (b.tree.update id fun _ => placed).Sound ledger opened loose := by
          refine hsound.retouch hid fun e he => ?_
          cases hel.symm.trans he
          exact hlinks
        have hel' : (b.tree.update id fun _ => placed).element? id = some placed := by
          rw [element?_update, if_pos rfl, hel]
          rfl
        have hslots : placed.scopedSlots = el.scopedSlots :=
          congrArg Links.scopedSlots hlinks
        exact accounted_fillSlot hplaced hsound' hid hel' (hslots ▸ huse hnotes.1 rfl) use
    rw [hvalue, set_eq_update hel]
    refine hfilled.update id fun e he => edit_of_links he (.inr hid) ?_ ?_
    · exact links_readContent (fun x hx => (hkeeps x hx).links) loopItems e
    · exact readContent_keeps (f := Frame.forbidden) (fun x hx => (hkeeps x hx).forbidden) loopItems e

theorem accounted_finishElement (h : b.tree.Accounted opened loose) (id : NodeId) :
    (b.finishElement options id).value.tree.Accounted opened loose := by
  rw [tree_finishElement]
  refine h.update id fun el hel => edit_of_links hel (.inl ?_) ?_ ?_
  · exact leftAs_keeps Element.label (fun x hx => (hkeeps x hx).label) el
  · exact leftAs_keeps Element.links (fun x hx => (hkeeps x hx).links.links.afterPlacement) el
  · exact leftAs_keeps Element.forbidden (fun x hx => (hkeeps x hx).forbidden.afterPlacement) el

/-- Where nothing is reported, an element closes with all nodes accounted for. -/
theorem accounted_close {ledger : Ledger} (h : b.tree.Accounted (id :: b.stack) (id :: b.stack))
    (hsound : b.tree.Sound ledger (id :: b.stack) (id :: b.stack)) (hwarned : b.warned = false)
    (hnotes : (b.close options id).notes = []) :
    (b.close options id).value.warned = false ∧
      (b.close options id).value.tree.Accounted b.stack b.stack := by
  have hlinks : ∀ x ∈ options.extensions, x.KeepsLinks := fun x hx => (hkeeps x hx).links
  simp only [close, Reported.notes_bind, Reported.value_bind, append_eq_nil_iff] at hnotes ⊢
  obtain ⟨hreading, hplace, -⟩ := hnotes
  have htrim := accounted_trimChildren h id
  have hsound₁ := sound_trimChildren hsound id
  have hid : id ∈ id :: b.stack := mem_cons_self
  have hread := accounted_finishReading hkeeps htrim hsound₁ hid hreading
  obtain ⟨-, ledger₂, hsound₂, -, -⟩ := continues_finishReading hlinks hsound₁ hid
  generalize hreadb : ((b.trimChildren id).finishReading options id).value = read at *
  have hstack : read.stack = b.stack := by
    rw [← hreadb, stack_finishReading, stack_trimChildren]
  have hwarned₂ : read.warned = false := hreadb ▸ hwarned
  obtain ⟨el, hel⟩ := hsound₂.outside.exists_element hid
  obtain ⟨hwarned₃, hplacing⟩ := placing_place hel (hread.allowed id el hel) hwarned₂ hplace
  rw [← hstack] at hread hsound₂ ⊢
  have hplaced := accounted_placing hread hsound₂ (fun j hj => mem_cons_of_mem id hj) hel
    hplacing
  constructor
  · rw [warned_finishElement]
    exact hwarned₃
  · apply accounted_finishElement hkeeps
    apply accounted_trimChildren
    exact accounted_dropSlotContent hplaced

/-! ## Events -/

/-- The element of a start tag that is not reported is let through. -/
theorem forbidden_entered (hnotes : (b.newElement options tag attributes range).notes = []) :
    (b.entered options tag attributes range).forbidden = false := by
  have hbare : (b.bare options tag attributes range).forbidden = false := by
    simp only [newElement, Reported.notes_bind, append_eq_nil_iff] at hnotes
    exact Reported.eq_false_of_notes hnotes.2.1
  have hnew : (b.newElement options tag attributes range).value.forbidden = false :=
    (newElement_keeps Element.forbidden (fun x hx => (hkeeps x hx).forbidden.atStart) tag attributes
      range b).trans hbare
  exact (congrArg Frame.forbidden (frame_enter options _ b)).trans hnew

/-- A builder that has reported nothing: the nodes of its tree are accounted for. -/
structure Quiet (b : Builder) : Prop where
  warned : b.warned = false
  sound : ∃ ledger, b.tree.Sound ledger b.stack b.stack
  accounted : b.tree.Accounted b.stack b.stack

theorem quiet_close (hsound : ∃ ledger, b.tree.Sound ledger (id :: b.stack) (id :: b.stack))
    (h : b.tree.Accounted (id :: b.stack) (id :: b.stack)) (hwarned : b.warned = false)
    (hnotes : (b.close options id).notes = []) : (b.close options id).value.Quiet := by
  obtain ⟨ledger, hsound⟩ := hsound
  obtain ⟨hwarned', haccounted⟩ := accounted_close hkeeps h hsound hwarned hnotes
  obtain ⟨-, ledger', hsound', -, -⟩ :=
    continues_close (fun x hx => (hkeeps x hx).links) hsound
  refine ⟨hwarned', ⟨ledger', ?_⟩, ?_⟩
  · rw [stack_close]
    exact hsound'
  · rw [stack_close]
    exact haccounted

omit hkeeps in
/-- What a start tag reports, its parts report. -/
theorem notes_start {unary : Bool} (hwarned : b.warned = false)
    (hnotes : (b.start options tag attributes unary range).notes = []) :
    (b.newElement options tag attributes range).notes = [] ∧
      (b.opened options tag attributes range).warned = false ∧
      (unary = true →
        ((b.opened options tag attributes range).close options b.tree.nodes.size).notes = []) := by
  simp only [start, Reported.notes_bind, append_eq_nil_iff] at hnotes
  obtain ⟨hnew, -, hclaim, hclose⟩ := hnotes
  refine ⟨hnew, warned_claimRoot hwarned hclaim, ?_⟩
  rintro rfl
  exact hclose

theorem quiet_start (h : b.Quiet) {unary : Bool}
    (hnotes : (b.start options tag attributes unary range).notes = []) :
    (b.start options tag attributes unary range).value.Quiet := by
  obtain ⟨ledger, hsound⟩ := h.sound
  obtain ⟨hnew, hwarned, hclose⟩ := notes_start h.warned hnotes
  have hlinks : ∀ x ∈ options.extensions, x.KeepsLinks := fun x hx => (hkeeps x hx).links
  have hopened := sound_opened hlinks hsound tag attributes range
  have haccounted : (b.opened options tag attributes range).tree.Accounted
      (b.tree.nodes.size :: b.stack) (b.tree.nodes.size :: b.stack) := by
    have hadd := (h.accounted.loosen b.tree.nodes.size).add hsound.lt_size_of_holds
      (.element (b.entered options tag attributes range)) ?_ fun t ht => by cases ht
    · refine hadd.of_nodes (nodes_opened ..) fun r hr => ?_
      rw [root_opened, show b.tree.root = some r from hr]
      rfl
    · intro el hel
      cases hel
      obtain ⟨-, hheld⟩ := shape_entered hlinks tag attributes range b
      simp only [Shape.held, shape, append_eq_nil_iff, map_eq_nil_iff] at hheld
      obtain ⟨⟨hchildren, hslots⟩, hbranches⟩ := hheld
      refine ⟨forbidden_entered hkeeps hnew, hslots, hbranches, ?_⟩
      rw [hchildren]
      exact forall_mem_nil _
  rw [value_start]
  cases unary with
  | true =>
    have hstack := stack_opened options tag attributes range b
    rw [← hstack] at hopened haccounted
    exact quiet_close hkeeps ⟨_, hopened⟩ haccounted hwarned (hclose rfl)
  | false => exact ⟨hwarned, ⟨_, hopened⟩, haccounted⟩

theorem quiet_finish (h : b.Quiet) {stop : Nat} (hnotes : (b.finish options stop).notes = []) :
    (b.finish options stop).value.Quiet := by
  rw [finish] at hnotes ⊢
  split
  · exact h
  · rename_i id stack hstack
    rw [hstack] at hnotes
    obtain ⟨hwarned, ⟨ledger, hsound⟩, haccounted⟩ := h
    rw [hstack] at hsound haccounted
    refine quiet_close hkeeps ⟨ledger, hsound.update id fun el _ => ?_⟩ ?_ hwarned hnotes
    · exact ⟨el.children, Sublist.refl _, rfl⟩
    · exact haccounted.update id fun el hel => edit_of_links hel (.inl rfl) rfl rfl

omit hkeeps in
/-- A text becomes the last child of the innermost open element. -/
theorem quiet_appendNode {later : Builder} {node : Node} (h : b.Quiet) (hid : b.parent? = some id)
    (hnode : node.element? = none) (hword : ∀ t, node = .interpolated t → t.text ≠ " ")
    (hwarned : later.warned = b.warned) (hstack : later.stack = b.stack)
    (htree : later.tree = appendNode id node b.tree) : later.Quiet := by
  obtain ⟨hquiet, ⟨ledger, hsound⟩, haccounted⟩ := h
  obtain ⟨rest, hrest⟩ := head?_eq_some_iff.mp hid
  rw [hrest] at hsound haccounted
  refine ⟨hwarned.trans hquiet, ?_, ?_⟩
  · rw [htree, hstack, hrest]
    exact ⟨_, sound_appendNode hsound hnode⟩
  · rw [htree, hstack, hrest]
    have hadd := haccounted.add hsound.lt_size_of_holds node
      (fun el hel => by rw [hnode] at hel; cases hel) hword
    obtain ⟨p, hp⟩ := hsound.outside.exists_element mem_cons_self
    have hlt := lt_size_of_element? hp
    have hp' : (b.tree.add node).2.element? id = some p := by
      rw [element?_add, if_neg (Nat.ne_of_lt hlt), hp]
    refine (Edit.snoc hp' ⟨Nat.ne_of_gt hlt, ?_⟩ (fun _ => .inl rfl) ?_).accounted hadd
    · exact fun hopen => Nat.lt_irrefl _ (hsound.outside.lt_size hopen)
    · rw [isSlotContent, element?_add, if_pos rfl, hnode]
      intro hslot
      cases hslot

omit hkeeps in
/-- A space is not searched for bindings. -/
theorem word_textNode? {parent : Element} {content : String} {node : Node}
    (h : b.textNode? options parent content range = some node) (t : InterpolatedText)
    (ht : node = .interpolated t) : t.text ≠ " " := by
  subst ht
  simp only [textNode?] at h
  split at h
  · rename_i htokens
    cases h
    rintro rfl
    simp at htokens
  · split at h <;> cases h

omit hkeeps in
theorem quiet_text (h : b.Quiet) {template content : String}
    (hnotes : (b.text options template content range).notes = []) :
    (b.text options template content range).value.Quiet := by
  rw [text] at hnotes ⊢
  split
  · rename_i hid
    simp only [hid] at hnotes
    exact ⟨warned_warnOnce h.warned hnotes, h.sound, h.accounted⟩
  · rename_i id hid
    split
    · rename_i node hnode
      obtain ⟨parent, -, hkept⟩ := bind_eq_some_iff.mp hnode
      obtain ⟨kept, hkept⟩ := exists_textNode? hkept
      exact quiet_appendNode h hid (isNewText_textNode? hkept).element? (word_textNode? hkept) rfl
        rfl rfl
    · exact h

/-- An event that reports nothing leaves the nodes accounted for. -/
theorem quiet_step {template : String} (e : Event) (b : Builder) (h : b.Quiet)
    (hnotes : (b.step options template e).notes = []) :
    (b.step options template e).value.Quiet := by
  cases e with
  | start tag attributes unary range => exact quiet_start hkeeps h hnotes
  | finish tag range => exact quiet_finish hkeeps h hnotes
  | text content range => exact quiet_text h hnotes
  | comment content range =>
    show (b.comment content range).Quiet
    rw [comment]
    split
    · rename_i id hid
      exact quiet_appendNode h hid rfl (fun t ht => by cases ht) rfl rfl rfl
    · exact h

end Hooks

end Builder

namespace Tree

open ViewTemplate.Builder

variable {ledger : Ledger} {tree : Tree}

/-- The root leads to a node along children, contents of slots and later branches. -/
def Reached (tree : Tree) (j : NodeId) : Prop :=
  ∃ r, tree.root = some r ∧ Relation.ReflTransGen tree.Holds r j

/-- No two contents are for the same slot of an element. -/
def SlotsDistinct (tree : Tree) : Prop :=
  ∀ p name i j, tree.FillsSlot p name i → tree.FillsSlot p name j → i = j

theorem slotsDistinct_iff : tree.SlotsDistinct ↔
    ∀ i < tree.nodes.size, ∀ j < tree.nodes.size, ((tree.element? i).bind slot?).isSome →
      (tree.element? j).bind slot? = (tree.element? i).bind slot? → i = j := by
  have hlt {p i : NodeId} {name : String} (hi : tree.FillsSlot p name i) : i < tree.nodes.size := by
    obtain ⟨el, hel, -⟩ := bind_eq_some_iff.mp hi
    exact lt_size_of_element? hel
  constructor
  · intro h i _ j _ hi hj
    obtain ⟨⟨p, name⟩, hslot⟩ := isSome_iff_exists.mp hi
    exact h p name i j hslot (hj.trans hslot)
  · intro h p name i j hi hj
    exact h i (hlt hi) j (hlt hj) (isSome_of_eq_some hi) (Eq.trans hj hi.symm)

instance : Decidable tree.SlotsDistinct := decidable_of_iff' _ slotsDistinct_iff

theorem accounted_ofTemplate {options : Options}
    (hkeeps : ∀ x ∈ options.extensions, x.KeepsPlaces) {template : String}
    (hnotes : (ofTemplate options template).notes = []) :
    ∃ ledger, (ofTemplate options template).value.Sound ledger [] [] ∧
      (ofTemplate options template).value.Accounted [] [] := by
  obtain ⟨ledger, hsound, -⟩ :=
    exists_sound_ofTemplate (fun x hx => (hkeeps x hx).links) template
  have hstack := stack_after_events options template
  rw [Builder.after] at hstack
  have hempty : ({} : Builder).Quiet := ⟨rfl, ⟨_, sound_empty⟩, .empty⟩
  rw [ofTemplate, Reported.notes_bind, Reported.notes_pure, append_nil] at hnotes
  have hquiet := Reported.foldlM_preserves_of_notes (quiet_step hkeeps) _ hempty hnotes
  have haccounted := hquiet.accounted
  rw [hstack] at haccounted
  exact ⟨ledger, hsound, haccounted⟩

section

variable (hsound : tree.Sound ledger [] []) (h : tree.Accounted [] [])
include hsound h

/-- What an element holds is reached, since the element matters too. -/
theorem Accounted.reached (hdistinct : tree.SlotsDistinct) {j : NodeId} {node : Node}
    (hnode : tree.node? j = some node) (hmatters : node.matters = true) : tree.Reached j := by
  -- links lead to higher ranks
  induction hrank : ledger.rank j using Nat.strong_induction_on generalizing j node with
  | _ n ih =>
    rcases h.placed j node hnode hmatters with hroot | hopen | ⟨i, hi⟩ | hreplaced
    · exact ⟨j, hroot, .refl⟩
    · cases hopen
    · obtain ⟨el, hel, -⟩ := hi.exists_element
      obtain ⟨r, hr, hpath⟩ := ih (ledger.rank i) (hrank ▸ hsound.rank_lt hi)
        (node?_of_element? hel) rfl rfl
      exact ⟨r, hr, hpath.tail hi⟩
    · obtain ⟨p, el, name, v, hp, hv, hne, hfills⟩ := hreplaced
      exact absurd (hdistinct p name v j (h.named p el hp name v hv) hfills) hne

/-- Content for a slot that is reached is held by that slot. -/
theorem Accounted.get?_of_reached {p i : NodeId} {name : String} (hi : tree.Reached i)
    (hfills : tree.FillsSlot p name i) :
    ∃ el, tree.element? p = some el ∧ el.scopedSlots.get? name = some i := by
  obtain ⟨e, he, hslot⟩ := bind_eq_some_iff.mp hfills
  obtain ⟨hisSlot, hbranch⟩ := isSlot_of_slot? hslot
  obtain ⟨r, hr, hpath⟩ := hi
  rcases hpath.cases_tail with rfl | ⟨q, -, hholds⟩
  · -- the root has no parent, so it is content for no slot
    have horphan : e.parent = none := hsound.outside.orphan i e.shape hr (shape?_of_element? he)
    rw [slot?, horphan] at hslot
    split at hslot <;> cases hslot
  · obtain ⟨qel, hq, hheld⟩ := hholds.exists_element
    rcases mem_held.mp hheld with hchild | hvalue | hblock
    · have hcontent : isSlotContent tree i = true := by
        rw [isSlotContent, he]
        exact hisSlot
      cases (h.routed q qel hq i hchild hcontent).1
    · obtain ⟨name', hname⟩ := Keyed.exists_get?_of_mem_values hvalue
      have hsame := (h.named q qel hq name' i hname).symm.trans hfills
      cases hsame
      exact ⟨qel, hq, hname⟩
    · obtain ⟨b, hb, rfl⟩ := List.mem_map.mp hblock
      obtain ⟨d, hd, hisBranch⟩ := h.branches q qel hq b hb
      cases he.symm.trans hd
      rw [hbranch] at hisBranch
      cases hisBranch

theorem Accounted.slotsDistinct
    (hreached : ∀ j node, tree.node? j = some node → node.matters = true → tree.Reached j) :
    tree.SlotsDistinct := by
  have hcontent {p i : NodeId} {name : String} (hi : tree.FillsSlot p name i) :
      ∃ el, tree.element? p = some el ∧ el.scopedSlots.get? name = some i := by
    obtain ⟨e, he, -⟩ := bind_eq_some_iff.mp hi
    exact h.get?_of_reached hsound (hreached i _ (node?_of_element? he) rfl) hi
  intro p name i j hi hj
  obtain ⟨el, hel, hget⟩ := hcontent hi
  obtain ⟨el', hel', hget'⟩ := hcontent hj
  cases hel.symm.trans hel'
  exact Option.some.inj (hget.symm.trans hget')

end

end Tree

end ViewTemplate
