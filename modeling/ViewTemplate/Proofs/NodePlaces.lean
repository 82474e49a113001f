import ViewTemplate.Proofs.TemplateForest

/-! # Where the nodes of a tree have their places

An author would miss an element, and text that is neither blank nor a comment. Such a node has its
place if it is the root, if it is still open, or if an element holds it. The one way to lose a place
without a report is a slot: an element holds one content under each name, so that later content takes
the place of earlier content for the same slot.
-/

open List
open Option hiding or_assoc

namespace ViewTemplate

/-- Whether an author would miss the node. -/
def Node.matters : Node → Bool
  | .element _ => true
  | .interpolated _ => true
  | .plain t => !t.isComment && !Text.allBlank t.text.toList

namespace Element

/-- The slot that the element is content of: the element that has the slot, and its name. A later
branch of a choice goes with the first one, and not into a slot of its own. -/
def slot? (el : Element) : Option (NodeId × String) :=
  if el.slotScope.isSome && !el.isBranch then
    el.parent.map fun p => (p, el.slotTarget.getD defaultSlot)
  else none

/-- What decides how an element is held. -/
structure Label where
  isSlot : Bool
  isBranch : Bool
  slot : Option (NodeId × String)

def label (el : Element) : Label where
  isSlot := el.slotScope.isSome
  isBranch := el.isBranch
  slot := el.slot?

theorem isSlot_of_slot? {el : Element} {p : NodeId × String} (h : el.slot? = some p) :
    el.slotScope.isSome = true ∧ el.isBranch = false := by
  rw [slot?] at h
  split at h
  · rename_i hguard
    rwa [Bool.and_eq_true, Bool.not_eq_true'] at hguard
  · cases h

end Element

namespace Tree

open ViewTemplate.Builder

variable {tree later : Tree} {opened opened' loose : List NodeId} {x : NodeId} {el el' : Element}

/-- A node is content for the slot of an element with a certain name. -/
def FillsSlot (tree : Tree) (p : NodeId) (name : String) (i : NodeId) : Prop :=
  (tree.element? i).bind Element.slot? = some (p, name)

/-- Other content has the slot that a node is content for. -/
def Replaced (tree : Tree) (j : NodeId) : Prop :=
  ∃ p el name v, tree.element? p = some el ∧ el.scopedSlots.get? name = some v ∧ v ≠ j ∧
    tree.FillsSlot p name j

/-- Nobody would miss the node with a number, if there is one. -/
def Unmissed (tree : Tree) (j : NodeId) : Prop :=
  ∀ node, tree.node? j = some node → node.matters = false

/-- Every node that matters has a place, or has been replaced in its slot. -/
structure Accounted (tree : Tree) (opened loose : List NodeId) : Prop where
  placed : ∀ j node, tree.node? j = some node → node.matters = true →
    tree.root = some j ∨ j ∈ opened ∨ (∃ i, tree.Holds i j) ∨ tree.Replaced j
  closed : ∀ i j, tree.Holds i j → j ∉ opened
  named : ∀ p el, tree.element? p = some el → ∀ name v, el.scopedSlots.get? name = some v →
    tree.FillsSlot p name v
  /-- Only an element that is not settled has contents of slots among its children. -/
  routed : ∀ p el, tree.element? p = some el → ∀ c ∈ el.children, isSlotContent tree c = true →
    p ∈ loose ∧ (c ∈ el.scopedSlots.values ∨ tree.Replaced c)
  branches : ∀ i el, tree.element? i = some el → ∀ b ∈ el.otherBranches,
    ∃ e, tree.element? b.block = some e ∧ e.isBranch = true
  allowed : ∀ i el, tree.element? i = some el → el.forbidden = false
  worded : ∀ i t, tree.node? i = some (.interpolated t) → t.text ≠ " "

theorem holds_of_element? {c : NodeId} (h : tree.element? x = some el) :
    tree.Holds x c ↔ c ∈ el.shape.held := by
  rw [Holds, node?_of_element? h]
  constructor
  · rintro ⟨node, hnode, hc⟩
    cases hnode
    exact hc
  · exact fun hc => ⟨.element el, rfl, hc⟩

theorem Holds.exists_element {i c : NodeId} (h : tree.Holds i c) :
    ∃ el, tree.element? i = some el ∧ c ∈ el.shape.held := by
  obtain ⟨s, hs, hc⟩ := h.shape?
  obtain ⟨el, hel, rfl⟩ := map_eq_some_iff.mp hs
  exact ⟨el, hel, hc⟩

theorem Sound.lt_size_of_holds {ledger : Ledger} (h : tree.Sound ledger opened loose) (i c : NodeId)
    (hi : tree.Holds i c) : c < tree.nodes.size := by
  obtain ⟨s, hs, hc⟩ := hi.shape?
  exact ((h.shapes i s hs).held_cases hc).1

theorem mem_held {c : NodeId} : c ∈ el.shape.held ↔
    c ∈ el.children ∨ c ∈ el.scopedSlots.values ∨ c ∈ el.otherBranches.map Branch.block := by
  simp only [Shape.held, Element.shape, mem_append, or_assoc]

theorem node?_update (hel : tree.element? x = some el) (f : Element → Element) (j : NodeId) :
    (tree.update x f).node? j = if j = x then some (.element (f el)) else tree.node? j := by
  rw [update, hel, node?_set, node?_of_element? hel]
  rfl

/-- The links of one element are changed, and some open elements close. Of the nodes that the element
no longer holds, those that matter are held by another element or by a slot. -/
structure Edit (tree : Tree) (opened opened' loose : List NodeId) (x : NodeId) (el el' : Element) :
    Prop where
  owner : tree.element? x = some el
  label : el'.label = el.label ∨ x ∈ opened
  forbidden : el'.forbidden = el.forbidden
  /-- A content is replaced by an element that closes. -/
  entries : ∀ name v, el.scopedSlots.get? name = some v →
    ∃ v', el'.scopedSlots.get? name = some v' ∧ (v' = v ∨ v' ∈ opened)
  named : ∀ name v, el'.scopedSlots.get? name = some v →
    el.scopedSlots.get? name = some v ∨ tree.FillsSlot x name v
  children : ∀ c ∈ el'.children, c ∈ el.children ∨
    (isSlotContent tree c = true → x ∈ loose ∧ c ∈ el'.scopedSlots.values)
  branches : ∀ b ∈ el'.otherBranches, b ∈ el.otherBranches ∨
    ∃ e, tree.element? b.block = some e ∧ e.isBranch = true
  fresh : ∀ c ∈ el'.shape.held, c ∈ el.shape.held ∨ c ≠ x ∧ c ∉ opened'
  kept : ∀ c ∈ el.children, c ∈ el'.children ∨ tree.Unmissed c ∨ isSlotContent tree c = true ∨
    ∃ i, i ≠ x ∧ tree.Holds i c
  blocks : el.otherBranches ⊆ el'.otherBranches
  subset : opened' ⊆ opened
  left : ∀ j ∈ opened, j ∈ opened' ∨ tree.root = some j ∨ j ∈ el'.shape.held

section

variable (hel : tree.element? x = some el)
include hel

/-- An element loses children that nobody would miss, or that are in slots. -/
theorem Edit.shrink (hlabel : el'.label = el.label ∨ x ∈ opened)
    (hforbidden : el'.forbidden = el.forbidden) (hslots : el'.scopedSlots = el.scopedSlots)
    (hbranches : el'.otherBranches = el.otherBranches) (hchildren : el'.children ⊆ el.children)
    (hkept : ∀ c ∈ el.children, c ∈ el'.children ∨ tree.Unmissed c ∨
      isSlotContent tree c = true) : Edit tree opened opened loose x el el' where
  owner := hel
  label := hlabel
  forbidden := hforbidden
  entries name v hv := ⟨v, by rw [hslots, hv], .inl rfl⟩
  named name v hv := .inl (by rw [← hslots, hv])
  children c hc := .inl (hchildren hc)
  branches b hb := .inl (hbranches ▸ hb)
  fresh c hc := by
    left
    rw [mem_held, hslots, hbranches] at hc
    exact mem_held.mpr (hc.imp_left fun hc => hchildren hc)
  kept c hc := (hkept c hc).imp_right fun hc => hc.imp_right .inl
  blocks := hbranches ▸ List.Subset.refl _
  subset := List.Subset.refl _
  left j hj := .inl hj

/-- An open node becomes the last child of an element, and content of a slot if it is that. -/
theorem Edit.snoc {c : NodeId} {slots : Keyed NodeId} (hnew : c ≠ x ∧ c ∉ opened)
    (hget : ∀ name, slots.get? name = el.scopedSlots.get? name ∨
      slots.get? name = some c ∧ tree.FillsSlot x name c)
    (hslot : isSlotContent tree c = true → x ∈ loose ∧ c ∈ slots.values) :
    Edit tree (c :: opened) opened loose x el
      { el with children := el.children ++ [c], scopedSlots := slots } where
  owner := hel
  label := .inl rfl
  forbidden := rfl
  entries name v hv := by
    rcases hget name with hsame | ⟨hc, -⟩
    · exact ⟨v, hsame.trans hv, .inl rfl⟩
    · exact ⟨c, hc, .inr mem_cons_self⟩
  named name v hv := by
    rcases hget name with hsame | ⟨hc, hfills⟩
    · exact .inl (hsame.symm.trans hv)
    · cases hc.symm.trans hv
      exact .inr hfills
  children :=
    forall_mem_append.mpr ⟨fun d hd => .inl hd, forall_mem_singleton.mpr (.inr hslot)⟩
  branches b hb := .inl hb
  fresh d hd := by
    rcases mem_held.mp hd with hd | hd | hd
    · refine (mem_append.mp hd).imp (fun hd => mem_held.mpr (.inl hd)) fun hd => ?_
      rw [mem_singleton.mp hd]
      exact hnew
    · obtain ⟨name, hname⟩ := Keyed.exists_get?_of_mem_values hd
      rcases hget name with hsame | ⟨hc, -⟩
      · left
        exact mem_held.mpr (.inr (.inl (Keyed.mem_values_of_get? (hsame.symm.trans hname))))
      · cases hc.symm.trans hname
        exact .inr hnew
    · exact .inl (mem_held.mpr (.inr (.inr hd)))
  kept d hd := .inl (mem_append_left _ hd)
  blocks := List.Subset.refl _
  subset := subset_cons_self _ _
  left j hj := by
    rcases mem_cons.mp hj with rfl | hj
    · exact .inr (.inr (mem_held.mpr (.inl (mem_append_right _ mem_cons_self))))
    · exact .inl hj

/-- An open element becomes a later branch of a choice. -/
theorem Edit.addBranch {c : NodeId} (hchoice : el.choice.isSome = true) (hnew : c ≠ x ∧ c ∉ opened)
    (hbranch : ∃ e, tree.element? c = some e ∧ e.isBranch = true) (guard : Option String) :
    Edit tree (c :: opened) opened loose x el (el.addBranch ⟨guard, c⟩) := by
  obtain ⟨choice, hc⟩ := isSome_iff_exists.mp hchoice
  have hothers : (el.addBranch ⟨guard, c⟩).otherBranches = el.otherBranches ++ [⟨guard, c⟩] := by
    simp only [Element.addBranch, Element.otherBranches, hc, map_some]
  have hheld {d : NodeId} : d ∈ (el.addBranch ⟨guard, c⟩).shape.held ↔
      d ∈ el.shape.held ∨ d = c := by
    rw [mem_held, mem_held, hothers, map_append, mem_append]
    simp only [map_cons, map_nil, mem_singleton, or_assoc]
    rfl
  exact {
    owner := hel
    label := .inl rfl
    forbidden := rfl
    entries := fun name v hv => ⟨v, hv, .inl rfl⟩
    named := fun name v hv => .inl hv
    children := fun d hd => .inl hd
    branches := by
      rw [hothers]
      exact forall_mem_append.mpr
        ⟨fun b hb => .inl hb, forall_mem_singleton.mpr (.inr hbranch)⟩
    fresh := by
      intro d hd
      refine (hheld.mp hd).imp_right ?_
      rintro rfl
      exact hnew
    kept := fun d hd => .inl hd
    blocks := by
      rw [hothers]
      exact subset_append_left _ _
    subset := subset_cons_self _ _
    left := by
      intro j hj
      rcases mem_cons.mp hj with rfl | hj
      · exact .inr (.inr (hheld.mpr (.inr rfl)))
      · exact .inl hj }

/-- An element without contents of slots gives its children to an open one, which becomes content of
one of its slots. -/
theorem Edit.fill {c : NodeId} {name : String} (hempty : el.scopedSlots.isEmpty = true)
    (hfills : tree.FillsSlot x name c) (hnew : c ≠ x ∧ c ∉ opened)
    (hmoved : ∀ d ∈ el.children, isSlotContent tree d = true ∨ tree.Holds c d) :
    Edit tree (c :: opened) opened loose x el
      { el with children := [], scopedSlots := el.scopedSlots.insert name c, plain := false } := by
  have hnone (k : String) : el.scopedSlots.get? k = none := by
    rw [Keyed.get?, List.isEmpty_iff.mp hempty]
    rfl
  have hget (k : String) :
      (el.scopedSlots.insert name c).get? k = if k = name then some c else none := by
    rw [Keyed.get?_insert, hnone]
  exact {
    owner := hel
    label := .inl rfl
    forbidden := rfl
    entries := by
      intro k v hv
      rw [hnone] at hv
      cases hv
    named := by
      intro k v hv
      rw [hget] at hv
      split at hv
      · rename_i hk
        cases hv
        exact .inr (hk ▸ hfills)
      · cases hv
    children := forall_mem_nil _
    branches := fun b hb => .inl hb
    fresh := by
      intro d hd
      rcases mem_held.mp hd with hd | hd | hd
      · cases hd
      · obtain ⟨k, hk⟩ := Keyed.exists_get?_of_mem_values hd
        rw [hget] at hk
        split at hk
        · cases hk
          exact .inr hnew
        · cases hk
      · exact .inl (mem_held.mpr (.inr (.inr hd)))
    kept := fun d hd => .inr (.inr ((hmoved d hd).imp_right fun hholds => ⟨c, hnew.1, hholds⟩))
    blocks := List.Subset.refl _
    subset := subset_cons_self _ _
    left := by
      intro j hj
      rcases mem_cons.mp hj with rfl | hj
      · have hvalue := Keyed.mem_values_of_get? ((hget name).trans (if_pos rfl))
        exact .inr (.inr (mem_held.mpr (.inr (.inl hvalue))))
      · exact .inl hj }

end

namespace Edit

variable {f : Element → Element}

section

variable (e : Edit tree opened opened' loose x el (f el))
include e

theorem element? (j : NodeId) :
    (tree.update x f).element? j = if j = x then some (f el) else tree.element? j := by
  rw [element?_update, e.owner]
  rfl

/-- The label of an element stays, except for that of an open element. -/
theorem label_later {j : NodeId} (hj : j = x → x ∉ opened ∨ (f el).label = el.label) :
    ((tree.update x f).element? j).map Element.label = (tree.element? j).map Element.label := by
  rw [e.element?]
  split
  · rename_i hjx
    have hlabel : (f el).label = el.label := by
      rcases e.label with hlabel | hopen
      · exact hlabel
      · exact (hj hjx).resolve_left fun hclosed => hclosed hopen
    rw [hjx, e.owner, map_some, map_some, hlabel]
  · rfl

theorem fillsSlot_later {p j : NodeId} {name : String}
    (hj : j = x → x ∉ opened ∨ (f el).label = el.label) (h : tree.FillsSlot p name j) :
    (tree.update x f).FillsSlot p name j := by
  have hslot (o : Option Element) : o.bind Element.slot? = (o.map Element.label).bind Element.Label.slot := by
    cases o <;> rfl
  rw [FillsSlot, hslot, e.label_later hj, ← hslot]
  exact h

theorem isSlotContent_later {j : NodeId} (hj : j = x → x ∉ opened ∨ (f el).label = el.label) :
    isSlotContent (tree.update x f) j = isSlotContent tree j := by
  have hslot (o : Option Element) : (o.any fun el => el.slotScope.isSome) =
      (o.map Element.label).any Element.Label.isSlot := by
    cases o <;> rfl
  rw [isSlotContent, hslot, e.label_later hj, ← hslot]
  rfl

/-- Another element holds what it held. -/
theorem holds_later {i c : NodeId} (hi : i ≠ x) :
    (tree.update x f).Holds i c ↔ tree.Holds i c := by
  rw [Holds, Holds, node?_update e.owner, if_neg hi]

theorem holds_self {c : NodeId} :
    (tree.update x f).Holds x c ↔ c ∈ (f el).shape.held :=
  holds_of_element? (by rw [e.element?, if_pos rfl])

theorem replaced_later {j : NodeId} (hj : j ∉ opened) (h : tree.Replaced j) :
    (tree.update x f).Replaced j := by
  obtain ⟨p, pel, name, v, hp, hv, hne, hfills⟩ := h
  have hlater : (tree.update x f).FillsSlot p name j :=
    e.fillsSlot_later (fun hjx => .inl (hjx ▸ hj)) hfills
  by_cases hpx : p = x
  · subst hpx
    cases e.owner.symm.trans hp
    obtain ⟨v', hv', hcase⟩ := e.entries name v hv
    refine ⟨p, f el, name, v', by rw [e.element?, if_pos rfl], hv', ?_, hlater⟩
    rcases hcase with rfl | hopen
    · exact hne
    · rintro rfl
      exact hj hopen
  · exact ⟨p, pel, name, v, by rw [e.element?, if_neg hpx, hp], hv, hne, hlater⟩

end

section

variable (e : Edit tree opened opened' loose x el (f el)) (h : tree.Accounted opened loose)
include e h

/-- A content of a slot stays there or is replaced. -/
theorem value_later {c : NodeId} (hc : c ∈ el.scopedSlots.values) :
    c ∈ (f el).scopedSlots.values ∨ (tree.update x f).Replaced c := by
  have hclosed : c ∉ opened :=
    h.closed x c ((holds_of_element? e.owner).mpr (mem_held.mpr (.inr (.inl hc))))
  obtain ⟨name, hname⟩ := Keyed.exists_get?_of_mem_values hc
  obtain ⟨v', hv', hcase⟩ := e.entries name c hname
  rcases hcase with rfl | hopen
  · left
    exact Keyed.mem_values_of_get? hv'
  · right
    refine ⟨x, f el, name, v', by rw [e.element?, if_pos rfl], hv', ?_, ?_⟩
    · rintro rfl
      exact hclosed hopen
    · exact e.fillsSlot_later (fun hcx => .inl (hcx ▸ hclosed)) (h.named x el e.owner name c hname)

/-- What the element held and no longer holds has a place elsewhere. -/
theorem held_later {c : NodeId} (hc : c ∈ el.shape.held) (hmissed : ¬ tree.Unmissed c) :
    (∃ i, (tree.update x f).Holds i c) ∨ (tree.update x f).Replaced c := by
  have hclosed : c ∉ opened := h.closed x c ((holds_of_element? e.owner).mpr hc)
  have hvalue (hc : c ∈ el.scopedSlots.values) :
      (∃ i, (tree.update x f).Holds i c) ∨ (tree.update x f).Replaced c := by
    refine (e.value_later h hc).imp_left fun hc => ⟨x, ?_⟩
    exact e.holds_self.mpr (mem_held.mpr (.inr (.inl hc)))
  rcases mem_held.mp hc with hchild | hslot | hblock
  · rcases e.kept c hchild with hkept | hunmissed | hslot | ⟨i, hi, hholds⟩
    · exact .inl ⟨x, e.holds_self.mpr (mem_held.mpr (.inl hkept))⟩
    · exact absurd hunmissed hmissed
    · rcases (h.routed x el e.owner c hchild hslot).2 with hc | hreplaced
      · exact hvalue hc
      · exact .inr (e.replaced_later hclosed hreplaced)
    · exact .inl ⟨i, (e.holds_later hi).mpr hholds⟩
  · exact hvalue hslot
  · obtain ⟨b, hb, rfl⟩ := List.mem_map.mp hblock
    refine .inl ⟨x, e.holds_self.mpr (mem_held.mpr (.inr (.inr ?_)))⟩
    exact List.mem_map_of_mem (e.blocks hb)

/-- The element holds nothing open, and not itself unless it did before. -/
theorem closed_of_held {c : NodeId} (hc : c ∈ (f el).shape.held) :
    c ∉ opened' ∧ (c = x → x ∉ opened ∨ (f el).label = el.label) := by
  rcases e.fresh c hc with hold | ⟨hne, hclosed⟩
  · have hclosed := h.closed x c ((holds_of_element? e.owner).mpr hold)
    exact ⟨fun hopen => hclosed (e.subset hopen), fun hcx => .inl (hcx ▸ hclosed)⟩
  · exact ⟨hclosed, fun hcx => absurd hcx hne⟩

/-- A change of one element keeps the nodes accounted for. -/
theorem accounted : (tree.update x f).Accounted opened' loose := by
  have hother {i c : NodeId} (hholds : tree.Holds i c) :
      c = x → x ∉ opened ∨ (f el).label = el.label := fun hcx => .inl (hcx ▸ h.closed i c hholds)
  have hchild {p c : NodeId} {pel : Element} (hp : tree.element? p = some pel)
      (hc : c ∈ pel.children) : tree.Holds p c :=
    (holds_of_element? hp).mpr (mem_held.mpr (.inl hc))
  have hcases {p : NodeId} {pel : Element} (hp : (tree.update x f).element? p = some pel) :
      p = x ∧ pel = f el ∨ p ≠ x ∧ tree.element? p = some pel := by
    rw [e.element?] at hp
    split at hp
    · rename_i hpx
      cases hp
      exact .inl ⟨hpx, rfl⟩
    · rename_i hpx
      exact .inr ⟨hpx, hp⟩
  have hbranch {b : Branch} (hb : ∃ e, tree.element? b.block = some e ∧ e.isBranch = true)
      (hj : b.block = x → x ∉ opened ∨ (f el).label = el.label) :
      ∃ e, (tree.update x f).element? b.block = some e ∧ e.isBranch = true := by
    obtain ⟨d, hd, hisBranch⟩ := hb
    have hlabel := e.label_later hj
    rw [hd, map_some, map_eq_some_iff] at hlabel
    obtain ⟨d', hd', heq⟩ := hlabel
    exact ⟨d', hd', (congrArg Element.Label.isBranch heq).trans hisBranch⟩
  refine ⟨?_, ?_, ?_, ?_, ?_, ?_, ?_⟩
  · intro j node hnode hmatters
    obtain ⟨node₀, hnode₀, hmatters₀⟩ : ∃ node₀, tree.node? j = some node₀ ∧
        node₀.matters = true := by
      rw [node?_update e.owner] at hnode
      split at hnode
      · rename_i hjx
        exact ⟨.element el, hjx ▸ node?_of_element? e.owner, rfl⟩
      · exact ⟨node, hnode, hmatters⟩
    have hopen (hj : j ∈ opened) : (tree.update x f).root = some j ∨ j ∈ opened' ∨
        (∃ i, (tree.update x f).Holds i j) ∨ (tree.update x f).Replaced j := by
      rcases e.left j hj with hj | hroot | hheld
      · exact .inr (.inl hj)
      · exact .inl ((root_update ..).trans hroot)
      · exact .inr (.inr (.inl ⟨x, e.holds_self.mpr hheld⟩))
    rcases h.placed j node₀ hnode₀ hmatters₀ with hroot | hj | ⟨i, hi⟩ | hreplaced
    · exact .inl ((root_update ..).trans hroot)
    · exact hopen hj
    · right
      right
      by_cases hix : i = x
      · subst hix
        apply e.held_later h ((holds_of_element? e.owner).mp hi)
        intro hunmissed
        rw [hunmissed node₀ hnode₀] at hmatters₀
        cases hmatters₀
      · exact .inl ⟨i, (e.holds_later hix).mpr hi⟩
    · by_cases hj : j ∈ opened
      · exact hopen hj
      · exact .inr (.inr (.inr (e.replaced_later hj hreplaced)))
  · intro i j hi
    by_cases hix : i = x
    · subst hix
      exact (e.closed_of_held h (e.holds_self.mp hi)).1
    · exact fun hj => h.closed i j ((e.holds_later hix).mp hi) (e.subset hj)
  · intro p pel hp name v hv
    rcases hcases hp with ⟨rfl, rfl⟩ | ⟨-, hp⟩
    · have hheld : v ∈ (f el).shape.held :=
        mem_held.mpr (.inr (.inl (Keyed.mem_values_of_get? hv)))
      refine e.fillsSlot_later (e.closed_of_held h hheld).2 ?_
      exact (e.named name v hv).elim (h.named p el e.owner name v) id
    · refine e.fillsSlot_later (hother (i := p) ?_) (h.named p pel hp name v hv)
      exact (holds_of_element? hp).mpr (mem_held.mpr (.inr (.inl (Keyed.mem_values_of_get? hv))))
  · intro p pel hp c hc hslot
    rcases hcases hp with ⟨rfl, rfl⟩ | ⟨-, hp⟩
    · rw [e.isSlotContent_later (e.closed_of_held h (mem_held.mpr (.inl hc))).2] at hslot
      rcases e.children c hc with hold | hnew
      · obtain ⟨hloose, hcase⟩ := h.routed p el e.owner c hold hslot
        refine ⟨hloose, ?_⟩
        rcases hcase with hvalue | hreplaced
        · exact e.value_later h hvalue
        · exact .inr (e.replaced_later (h.closed p c (hchild e.owner hold)) hreplaced)
      · exact ⟨(hnew hslot).1, .inl (hnew hslot).2⟩
    · rw [e.isSlotContent_later (hother (hchild hp hc))] at hslot
      obtain ⟨hloose, hcase⟩ := h.routed p pel hp c hc hslot
      exact ⟨hloose, hcase.imp_right (e.replaced_later (h.closed p c (hchild hp hc)))⟩
  · intro i iel hi b hb
    rcases hcases hi with ⟨rfl, rfl⟩ | ⟨-, hi⟩
    · have hheld : b.block ∈ (f el).shape.held :=
        mem_held.mpr (.inr (.inr (List.mem_map_of_mem hb)))
      refine hbranch ?_ (e.closed_of_held h hheld).2
      exact (e.branches b hb).elim (h.branches i el e.owner b) id
    · refine hbranch (h.branches i iel hi b hb) (hother (i := i) ?_)
      exact (holds_of_element? hi).mpr (mem_held.mpr (.inr (.inr (List.mem_map_of_mem hb))))
  · intro i iel hi
    rcases hcases hi with ⟨rfl, rfl⟩ | ⟨-, hi⟩
    · exact e.forbidden.trans (h.allowed i el e.owner)
    · exact h.allowed i iel hi
  · intro i t ht
    rw [node?_update e.owner] at ht
    split at ht
    · cases ht
    · exact h.worded i t ht

end

end Edit

namespace Accounted

theorem empty : ({} : Tree).Accounted [] [] := by
  have hnone (i : NodeId) : ({} : Tree).node? i = none := rfl
  have helement {i : NodeId} {el : Element} (hel : ({} : Tree).element? i = some el) : False :=
    absurd (lt_size_of_element? hel) (Nat.not_lt_zero i)
  refine ⟨?_, ?_, ?_, ?_, ?_, ?_, ?_⟩
  · intro j node hnode
    cases (hnone j).symm.trans hnode
  · intro i j _
    exact not_mem_nil
  · exact fun p el hel => (helement hel).elim
  · exact fun p el hel => (helement hel).elim
  · exact fun i el hel => (helement hel).elim
  · exact fun i el hel => (helement hel).elim
  · intro i t ht
    cases (hnone i).symm.trans ht

theorem update (h : tree.Accounted opened loose) (x : NodeId) {f : Element → Element}
    (hf : ∀ el, tree.element? x = some el → Edit tree opened opened loose x el (f el)) :
    (tree.update x f).Accounted opened loose := by
  cases hel : tree.element? x with
  | none =>
    rw [update_of_none hel]
    exact h
  | some el => exact (hf el hel).accounted h

/-- An element whose children are no contents of slots is settled. -/
theorem settle (h : tree.Accounted opened (x :: loose))
    (hx : ∀ el, tree.element? x = some el → ∀ c ∈ el.children, isSlotContent tree c = false) :
    tree.Accounted opened loose := by
  refine { h with routed := ?_ }
  intro p pel hp c hc hslot
  obtain ⟨hloose, hcase⟩ := h.routed p pel hp c hc hslot
  refine ⟨(mem_cons.mp hloose).resolve_left ?_, hcase⟩
  rintro rfl
  rw [hx pel hp c hc] at hslot
  cases hslot

theorem loosen (h : tree.Accounted opened loose) (x : NodeId) :
    tree.Accounted opened (x :: loose) := by
  refine { h with routed := ?_ }
  intro p pel hp c hc hslot
  exact (h.routed p pel hp c hc hslot).imp_left (mem_cons_of_mem x)

/-- The root closes. -/
theorem leave (h : tree.Accounted (x :: opened) loose) (hroot : tree.root = some x) :
    tree.Accounted opened loose := by
  refine { h with placed := ?_, closed := ?_ }
  · intro j node hnode hmatters
    rcases h.placed j node hnode hmatters with hj | hj | hj
    · exact .inl hj
    · rcases mem_cons.mp hj with rfl | hj
      · exact .inl hroot
      · exact .inr (.inl hj)
    · exact .inr (.inr hj)
  · exact fun i j hi hj => h.closed i j hi (mem_cons_of_mem x hj)

/-- A new node, which is open. If it is an element then it holds nothing but children, which are no
contents of slots. -/
theorem add (h : tree.Accounted opened loose) (hlt : ∀ i j, tree.Holds i j → j < tree.nodes.size)
    (node : Node)
    (helement : ∀ el, node.element? = some el → el.forbidden = false ∧
      el.scopedSlots.values = [] ∧ el.otherBranches = [] ∧ ∀ c ∈ el.children,
        c < tree.nodes.size ∧ c ∉ opened ∧ isSlotContent tree c = false)
    (hword : ∀ t, node = .interpolated t → t.text ≠ " ") :
    (tree.add node).2.Accounted (tree.nodes.size :: opened) loose := by
  have hold {j : NodeId} (hj : j < tree.nodes.size) :
      (tree.add node).2.element? j = tree.element? j := by
    rw [element?_add, if_neg (Nat.ne_of_lt hj)]
  have hfills {p j : NodeId} {name : String} (hj : tree.FillsSlot p name j) :
      (tree.add node).2.FillsSlot p name j := by
    obtain ⟨el, hel, -⟩ := bind_eq_some_iff.mp hj
    rw [FillsSlot, hold (lt_size_of_element? hel)]
    exact hj
  have hreplaced {j : NodeId} (hj : tree.Replaced j) : (tree.add node).2.Replaced j := by
    obtain ⟨p, pel, name, v, hp, hv, hne, hj⟩ := hj
    exact ⟨p, pel, name, v, by rw [hold (lt_size_of_element? hp), hp], hv, hne, hfills hj⟩
  have hholds {i j : NodeId} (hi : tree.Holds i j) : (tree.add node).2.Holds i j := by
    obtain ⟨el, hel, hj⟩ := hi.exists_element
    exact (holds_of_element? (by rw [hold (lt_size_of_element? hel), hel])).mpr hj
  have hcases {p : NodeId} {pel : Element} (hp : (tree.add node).2.element? p = some pel) :
      p = tree.nodes.size ∧ node.element? = some pel ∨ tree.element? p = some pel := by
    rw [element?_add] at hp
    split at hp
    · rename_i hpx
      exact .inl ⟨hpx, hp⟩
    · exact .inr hp
  have hchild {p c : NodeId} {pel : Element} (hp : tree.element? p = some pel)
      (hc : c ∈ pel.children) : c < tree.nodes.size :=
    hlt p c ((holds_of_element? hp).mpr (mem_held.mpr (.inl hc)))
  refine ⟨?_, ?_, ?_, ?_, ?_, ?_, ?_⟩
  · intro j node' hnode hmatters
    rw [node?_add] at hnode
    split at hnode
    · rename_i hj
      exact .inr (.inl (hj ▸ mem_cons_self))
    · rcases h.placed j node' hnode hmatters with hj | hj | ⟨i, hi⟩ | hj
      · exact .inl hj
      · exact .inr (.inl (mem_cons_of_mem _ hj))
      · exact .inr (.inr (.inl ⟨i, hholds hi⟩))
      · exact .inr (.inr (.inr (hreplaced hj)))
  · intro i j hi hj
    obtain ⟨el, hel, hc⟩ := hi.exists_element
    rcases hcases hel with ⟨rfl, hnode⟩ | hel
    · obtain ⟨-, hslots, hblocks, hchildren⟩ := helement el hnode
      rw [mem_held, hslots, hblocks] at hc
      have hc : j ∈ el.children := hc.resolve_right fun hc => hc.elim not_mem_nil not_mem_nil
      obtain ⟨hlt, hclosed, -⟩ := hchildren j hc
      rcases mem_cons.mp hj with rfl | hj
      · exact Nat.lt_irrefl _ hlt
      · exact hclosed hj
    · have hi := (holds_of_element? hel).mpr hc
      rcases mem_cons.mp hj with rfl | hj
      · exact Nat.lt_irrefl _ (hlt i _ hi)
      · exact h.closed i j hi hj
  · intro p pel hp name v hv
    rcases hcases hp with ⟨-, hnode⟩ | hp
    · have hmem := Keyed.mem_values_of_get? hv
      rw [(helement pel hnode).2.1] at hmem
      cases hmem
    · exact hfills (h.named p pel hp name v hv)
  · intro p pel hp c hc hslot
    rcases hcases hp with ⟨-, hnode⟩ | hp
    · obtain ⟨hlt, -, hplain⟩ := (helement pel hnode).2.2.2 c hc
      rw [isSlotContent, hold hlt] at hslot
      exact absurd (hplain.symm.trans hslot) Bool.false_ne_true
    · rw [isSlotContent, hold (hchild hp hc)] at hslot
      obtain ⟨hloose, hcase⟩ := h.routed p pel hp c hc hslot
      exact ⟨hloose, hcase.imp_right hreplaced⟩
  · intro i iel hi b hb
    rcases hcases hi with ⟨-, hnode⟩ | hi
    · rw [(helement iel hnode).2.2.1] at hb
      cases hb
    · obtain ⟨e, he, hisBranch⟩ := h.branches i iel hi b hb
      exact ⟨e, by rw [hold (lt_size_of_element? he), he], hisBranch⟩
  · intro i iel hi
    rcases hcases hi with ⟨-, hnode⟩ | hi
    · exact (helement iel hnode).1
    · exact h.allowed i iel hi
  · intro i t ht
    rw [node?_add] at ht
    split at ht
    · exact hword t (Option.some.inj ht)
    · exact h.worded i t ht

/-- The root has no part in what is held. -/
theorem of_nodes (h : tree.Accounted opened loose) (hnodes : later.nodes = tree.nodes)
    (hroot : ∀ r, tree.root = some r → later.root = some r) : later.Accounted opened loose := by
  obtain ⟨nodes, root⟩ := later
  cases hnodes
  refine ⟨?_, h.closed, h.named, h.routed, h.branches, h.allowed, h.worded⟩
  intro j node hnode hmatters
  exact (h.placed j node hnode hmatters).imp_left (hroot j)

end Accounted

end Tree

end ViewTemplate
