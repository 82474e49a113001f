import ViewTemplate.Tree

/-! # Forests in a table of nodes

An element links to its children, to the contents of its slots and to the later branches of its
choice. The links of a tree under construction form a forest: each node has at most one seat, and
links lead from lower to higher ranks. A ledger records the seats and the ranks. Every move of the
builder that changes links is treated here once, by what it does to them.
-/

open List Option

namespace ViewTemplate

/-- The links of an element, and whether it is content of a slot. -/
structure Shape where
  parent : Option NodeId
  children : List NodeId
  slots : List NodeId
  blocks : List NodeId
  isSlot : Bool

namespace Shape

/-- What an element that holds another one sees of it. -/
def face (s : Shape) : Option NodeId × Bool := (s.parent, s.isSlot)

/-- The nodes that an element holds. -/
def held (s : Shape) : List NodeId := s.children ++ s.slots ++ s.blocks

/-- A container of slot content. -/
def container (owner : NodeId) (inside : List NodeId) : Shape where
  parent := some owner
  children := inside
  slots := []
  blocks := []
  isSlot := true

end Shape

def Element.shape (el : Element) : Shape where
  parent := el.parent
  children := el.children
  slots := el.scopedSlots.values
  blocks := el.otherBranches.map Branch.block
  isSlot := el.slotScope.isSome

/-- The links of a node that is an element. -/
def Tree.shape? (tree : Tree) (id : NodeId) : Option Shape := (tree.element? id).map Element.shape

/-- Where a node is held. -/
inductive Seat
  | free
  | child (owner : NodeId)
  | slot (owner : NodeId)
  | branch (holder : NodeId)

/-- Seats and ranks of nodes. The rank of a node is twice its number, but a container of slot
content comes right after the element that it was made for. -/
structure Ledger where
  seat : NodeId → Seat
  rank : NodeId → Nat

/-- The ledger with a new entry for one node. -/
def Ledger.put (ledger : Ledger) (x : NodeId) (seat : Seat) (rank : Nat) : Ledger where
  seat j := if j = x then seat else ledger.seat j
  rank j := if j = x then rank else ledger.rank j

theorem Ledger.rank_put_self (ledger : Ledger) (x : NodeId) (seat : Seat) (c : NodeId) :
    (ledger.put x seat (ledger.rank x)).rank c = ledger.rank c := by
  simp only [put]
  split
  · rename_i hc
    rw [hc]
  · rfl

/-- The ledger when some nodes are moved into a new container that the owner holds in a slot. -/
def Ledger.fill (ledger : Ledger) (owner container : NodeId) (inside : List NodeId) : Ledger where
  seat j := if j = container then .slot owner else if j ∈ inside then .child container
    else ledger.seat j
  rank j := if j = container then 2 * owner + 1 else ledger.rank j

theorem Ledger.rank_fill_container (ledger : Ledger) (owner container : NodeId)
    (inside : List NodeId) :
    (ledger.fill owner container inside).rank container = 2 * owner + 1 := if_pos rfl

namespace Shape

/-- A container that was made to hold content of a slot has a seat, and no rank of its own. -/
structure IsContainer (ledger : Ledger) (tree : Tree) (p : NodeId) (s : Shape) : Prop where
  shape : tree.shape? p = some s
  rank : ledger.rank p ≠ 2 * p
  seat : ledger.seat p ≠ .free
  isSlot : s.isSlot = true

/-- What holds of the links of the element with the number `i`. Until a loose element is settled,
the contents of its slots are among its children too. The later branches of a choice have the parent
of the first one, unless that has been moved into a container; then they have the parent of the
container. -/
structure Sound (ledger : Ledger) (tree : Tree) (loose : List NodeId) (i : NodeId) (s : Shape) :
    Prop where
  child_lt : ∀ c ∈ s.children, c < tree.nodes.size
  child_rank : ∀ c ∈ s.children, ledger.rank c = 2 * c ∧ ledger.rank i < 2 * c
  child_seat : ∀ c ∈ s.children, ledger.seat c = .child i ∨
    i ∈ loose ∧ ledger.seat c = .slot i ∧ ∃ t, tree.shape? c = some t ∧ t.isSlot = true
  child_parent : ∀ c ∈ s.children, ∀ t, tree.shape? c = some t → t.parent = some i
  sorted : s.children.Pairwise (· < ·)
  slot : ∀ v ∈ s.slots, ledger.seat v = .slot i ∧ ledger.rank i < ledger.rank v ∧
    ∃ t, tree.shape? v = some t ∧ t.parent = some i
  slots_nodup : s.slots.Nodup
  block : ∀ b ∈ s.blocks, ledger.seat b = .branch i ∧ ledger.rank i < ledger.rank b ∧
    ∃ t, tree.shape? b = some t
  blocks_nodup : s.blocks.Nodup
  kin : ∀ b ∈ s.blocks, ledger.rank b = 2 * b ∧ ∀ t, tree.shape? b = some t →
    (t.parent = s.parent ∧ ∀ p, s.parent = some p → ledger.rank p = 2 * p) ∨
      ∃ p, ∃ u : Shape, s.parent = some p ∧ u.IsContainer ledger tree p ∧ t.parent = u.parent
  parent : ∀ p, s.parent = some p → ledger.rank p < ledger.rank i ∧ ∃ t, tree.shape? p = some t

end Shape

namespace Tree

/-- Open elements and the root have no seat, and open elements lie in each other: an outer one has
got all its children before the inner one was opened, and is the parent of the next one. -/
structure Outside (ledger : Ledger) (tree : Tree) (opened : List NodeId) : Prop where
  unseated : ∀ j ∈ opened, ledger.seat j = .free ∧ ledger.rank j = 2 * j ∧
    ∃ s, tree.shape? j = some s
  nested : opened.Pairwise fun j i =>
    i < j ∧ ∀ s, tree.shape? i = some s → ∀ c ∈ s.children, c < j
  root : ∀ r, tree.root = some r → ledger.seat r = .free ∧ ledger.rank r = 2 * r ∧
    (∀ j ∈ opened, r ≤ j) ∧ ∃ s, tree.shape? r = some s
  rootless : tree.root = none → opened = []
  parents : ∀ k j s, opened[k]? = some j → tree.shape? j = some s → s.parent = opened[k + 1]?
  orphan : ∀ r s, tree.root = some r → tree.shape? r = some s → s.parent = none

/-- The links of a tree under construction form a forest outside of which the open elements and the
root stand. -/
structure Sound (ledger : Ledger) (tree : Tree) (opened loose : List NodeId) : Prop where
  shapes : ∀ i s, tree.shape? i = some s → s.Sound ledger tree loose i
  outside : tree.Outside ledger opened

theorem lt_size_of_shape? {tree : Tree} {i : NodeId} {s : Shape} (h : tree.shape? i = some s) :
    i < tree.nodes.size := by
  obtain ⟨el, hel, -⟩ := map_eq_some_iff.mp h
  exact lt_size_of_element? hel

end Tree

open ViewTemplate.Tree

namespace Shape.Sound

variable {ledger ledger' : Ledger} {tree later : Tree} {loose loose' : List NodeId} {i : NodeId}
  {s : Shape}

/-- What an element holds is in the tree, and its seat is with that element. -/
theorem held_cases (h : s.Sound ledger tree loose i) {c : NodeId} (hc : c ∈ s.held) :
    c < tree.nodes.size ∧ ledger.rank i < ledger.rank c ∧
      (ledger.seat c = .child i ∨ ledger.seat c = .slot i ∨ ledger.seat c = .branch i) := by
  simp only [held, mem_append] at hc
  rcases hc with (hc | hc) | hc
  · refine ⟨h.child_lt c hc, ?_, ?_⟩
    · obtain ⟨hrank, hlt⟩ := h.child_rank c hc
      rw [hrank]
      exact hlt
    · rcases h.child_seat c hc with hs | ⟨-, hs, -⟩
      · exact .inl hs
      · exact .inr (.inl hs)
  · obtain ⟨hs, hlt, t, ht, -⟩ := h.slot c hc
    exact ⟨lt_size_of_shape? ht, hlt, .inr (.inl hs)⟩
  · obtain ⟨hs, hlt, t, ht⟩ := h.block c hc
    exact ⟨lt_size_of_shape? ht, hlt, .inr (.inr hs)⟩

theorem seat_ne_free (h : s.Sound ledger tree loose i) {c : NodeId} (hc : c ∈ s.held) :
    ledger.seat c ≠ .free := by
  rcases (h.held_cases hc).2.2 with hs | hs | hs <;> rw [hs] <;> exact Seat.noConfusion

/-- A new last child. -/
theorem snoc (h : s.Sound ledger tree loose i) {x : NodeId} (hlt : x < tree.nodes.size)
    (hrank : ledger.rank x = 2 * x ∧ ledger.rank i < 2 * x)
    (hseat : ledger.seat x = .child i ∨
      i ∈ loose ∧ ledger.seat x = .slot i ∧ ∃ t, tree.shape? x = some t ∧ t.isSlot = true)
    (hparent : ∀ t, tree.shape? x = some t → t.parent = some i)
    (hbefore : ∀ c ∈ s.children, c < x) :
    Sound ledger tree loose i { s with children := s.children ++ [x] } :=
  { h with
    child_lt := forall_mem_append.mpr ⟨h.child_lt, forall_mem_singleton.mpr hlt⟩
    child_rank := forall_mem_append.mpr ⟨h.child_rank, forall_mem_singleton.mpr hrank⟩
    child_seat := forall_mem_append.mpr ⟨h.child_seat, forall_mem_singleton.mpr hseat⟩
    child_parent :=
      forall_mem_append.mpr ⟨h.child_parent, forall_mem_singleton.mpr hparent⟩
    sorted := pairwise_append.mpr ⟨h.sorted, pairwise_singleton _ _,
      fun c hc => forall_mem_singleton.mpr (hbefore c hc)⟩ }

end Shape.Sound

namespace Tree

variable {ledger ledger' : Ledger} {tree later : Tree}
  {opened opened' loose loose' moved : List NodeId}

namespace Outside

variable {j : NodeId}

theorem free (h : tree.Outside ledger opened) (hj : j ∈ opened ∨ tree.root = some j) :
    ledger.seat j = .free ∧ ledger.rank j = 2 * j ∧ ∃ s, tree.shape? j = some s := by
  rcases hj with hj | hj
  · exact h.unseated j hj
  · obtain ⟨hs, hr, -, hshape⟩ := h.root j hj
    exact ⟨hs, hr, hshape⟩

theorem exists_element (h : tree.Outside ledger opened) (hj : j ∈ opened) :
    ∃ el, tree.element? j = some el := by
  obtain ⟨-, -, s, hs⟩ := h.unseated j hj
  obtain ⟨el, hel, -⟩ := map_eq_some_iff.mp hs
  exact ⟨el, hel⟩

theorem lt_size (h : tree.Outside ledger opened) (hj : j ∈ opened) : j < tree.nodes.size := by
  obtain ⟨el, hel⟩ := h.exists_element hj
  exact lt_size_of_element? hel

/-- No element is open a second time. -/
theorem not_mem {x : NodeId} (h : tree.Outside ledger (x :: opened)) : x ∉ opened := by
  intro hx
  exact Nat.lt_irrefl x ((pairwise_cons.mp h.nested).1 x hx).1

end Outside

/-! ## Moves -/

/-- A change of links. Old nodes keep their ranks, and elements stay elements. Nodes that are not
moved keep their seats and parents, and those that have a seat look as before. No container is
moved. -/
structure Move (ledger ledger' : Ledger) (tree later : Tree) (moved : List NodeId) : Prop where
  regular : ∀ c ∈ moved, ledger.rank c = 2 * c
  size : tree.nodes.size ≤ later.nodes.size
  rank : ∀ c, c < tree.nodes.size → ledger'.rank c = ledger.rank c
  seat : ∀ c, c < tree.nodes.size → c ∉ moved → ledger'.seat c = ledger.seat c
  element : ∀ c t, tree.shape? c = some t → ∃ t', later.shape? c = some t'
  face : ∀ c, c < tree.nodes.size → c ∉ moved → ledger.seat c ≠ .free →
    (later.shape? c).map Shape.face = (tree.shape? c).map Shape.face
  parent : ∀ c t t', c ∉ moved → tree.shape? c = some t → later.shape? c = some t' →
    t'.parent = t.parent

namespace Move

variable {s : Shape}

/-- One element gets other links, and looks as before unless it has no seat. -/
theorem of_shape {x : NodeId} {s' : Shape} (hx : tree.shape? x = some s)
    (hshape : ∀ j, later.shape? j = if j = x then some s' else tree.shape? j)
    (hface : s'.face = s.face ∨ ledger.seat x = .free) (hparent : s'.parent = s.parent)
    (hregular : ∀ c ∈ moved, ledger.rank c = 2 * c) (hsize : tree.nodes.size ≤ later.nodes.size)
    (hrank : ∀ c, c < tree.nodes.size → ledger'.rank c = ledger.rank c)
    (hseat : ∀ c, c < tree.nodes.size → c ∉ moved → ledger'.seat c = ledger.seat c) :
    Move ledger ledger' tree later moved where
  regular := hregular
  size := hsize
  rank := hrank
  seat := hseat
  element c t ht := by
    rw [hshape]
    split
    · exact ⟨s', rfl⟩
    · exact ⟨t, ht⟩
  face c _ _ hc := by
    rw [hshape]
    split
    · rename_i hcx
      rw [hcx] at hc ⊢
      rcases hface with hf | hfree
      · rw [hx, map_some, map_some, hf]
      · exact absurd hfree hc
    · rfl
  parent c t t' _ ht ht' := by
    rw [hshape] at ht'
    split at ht'
    · rename_i hcx
      rw [hcx, hx] at ht
      cases ht
      cases ht'
      exact hparent
    · cases ht.symm.trans ht'
      rfl

/-- A new element besides the old ones. -/
theorem of_new
    (hshape : ∀ j, later.shape? j = if j = tree.nodes.size then some s else tree.shape? j)
    (hsize : tree.nodes.size ≤ later.nodes.size)
    (hrank : ∀ c, c < tree.nodes.size → ledger'.rank c = ledger.rank c)
    (hseat : ∀ c, c < tree.nodes.size → ledger'.seat c = ledger.seat c) :
    Move ledger ledger' tree later [] where
  regular := forall_mem_nil _
  size := hsize
  rank := hrank
  seat c hc _ := hseat c hc
  element c t ht := ⟨t, by rw [hshape, if_neg (Nat.ne_of_lt (lt_size_of_shape? ht)), ht]⟩
  face c hc _ _ := by rw [hshape, if_neg (Nat.ne_of_lt hc)]
  parent c t t' _ ht ht' := by
    rw [hshape, if_neg (Nat.ne_of_lt (lt_size_of_shape? ht))] at ht'
    cases ht.symm.trans ht'
    rfl

section

variable (m : Move ledger ledger' tree later moved)
include m

/-- A container stays one, where it is. -/
theorem isContainer {p : NodeId} (h : s.IsContainer ledger tree p) :
    ∃ s', Shape.IsContainer ledger' later p s' ∧ s'.parent = s.parent := by
  have hlt := lt_size_of_shape? h.shape
  have hmoved : p ∉ moved := fun hp => h.rank (m.regular p hp)
  have hface := m.face p hlt hmoved h.seat
  rw [h.shape, map_some, map_eq_some_iff] at hface
  obtain ⟨s', hs', hf⟩ := hface
  refine ⟨s', ⟨hs', ?_, ?_, ?_⟩, congrArg Prod.fst hf⟩
  · rw [m.rank p hlt]
    exact h.rank
  · rw [m.seat p hlt hmoved]
    exact h.seat
  · exact (congrArg Prod.snd hf).trans h.isSlot

/-- The links of an element stay sound if nothing that it holds is moved. -/
theorem sound {i : NodeId} (h : s.Sound ledger tree loose i) (hi : i < tree.nodes.size)
    (hheld : ∀ c ∈ s.held, c ∉ moved) (hloose : i ∈ loose → i ∈ loose') :
    s.Sound ledger' later loose' i := by
  have hchild {c : NodeId} (hc : c ∈ s.children) : c ∈ s.held := by simp [Shape.held, hc]
  have hslot {c : NodeId} (hc : c ∈ s.slots) : c ∈ s.held := by simp [Shape.held, hc]
  have hblock {c : NodeId} (hc : c ∈ s.blocks) : c ∈ s.held := by simp [Shape.held, hc]
  have hrank {c : NodeId} (hc : c ∈ s.held) : ledger'.rank c = ledger.rank c :=
    m.rank c (h.held_cases hc).1
  have hseat {c : NodeId} (hc : c ∈ s.held) : ledger'.seat c = ledger.seat c :=
    m.seat c (h.held_cases hc).1 (hheld c hc)
  have hface {c : NodeId} (hc : c ∈ s.held) :
      (later.shape? c).map Shape.face = (tree.shape? c).map Shape.face :=
    m.face c (h.held_cases hc).1 (hheld c hc) (h.seat_ne_free hc)
  have hlater {c : NodeId} {t : Shape} (hc : c ∈ s.held) (ht : tree.shape? c = some t) :
      ∃ t', later.shape? c = some t' ∧ t'.parent = t.parent ∧ t'.isSlot = t.isSlot := by
    have he := hface hc
    rw [ht, map_some, map_eq_some_iff] at he
    obtain ⟨t', ht', hf⟩ := he
    exact ⟨t', ht', congrArg Prod.fst hf, congrArg Prod.snd hf⟩
  refine ⟨?_, ?_, ?_, ?_, h.sorted, ?_, h.slots_nodup, ?_, h.blocks_nodup, ?_, ?_⟩
  · intro c hc
    exact Nat.lt_of_lt_of_le (h.child_lt c hc) m.size
  · intro c hc
    rw [hrank (hchild hc), m.rank i hi]
    exact h.child_rank c hc
  · intro c hc
    rw [hseat (hchild hc)]
    rcases h.child_seat c hc with hs | ⟨hl, hs, t, ht, hslot⟩
    · exact .inl hs
    · obtain ⟨t', ht', -, hslot'⟩ := hlater (hchild hc) ht
      exact .inr ⟨hloose hl, hs, t', ht', hslot'.trans hslot⟩
  · intro c hc t' ht'
    have he := hface (hchild hc)
    rw [ht', map_some, eq_comm, map_eq_some_iff] at he
    obtain ⟨t, ht, hf⟩ := he
    rw [← h.child_parent c hc t ht]
    exact (congrArg Prod.fst hf).symm
  · intro v hv
    obtain ⟨hs, hlt, t, ht, hp⟩ := h.slot v hv
    obtain ⟨t', ht', hp', -⟩ := hlater (hslot hv) ht
    rw [hseat (hslot hv), hrank (hslot hv), m.rank i hi]
    exact ⟨hs, hlt, t', ht', hp'.trans hp⟩
  · intro b hb
    obtain ⟨hs, hlt, t, ht⟩ := h.block b hb
    rw [hseat (hblock hb), hrank (hblock hb), m.rank i hi]
    exact ⟨hs, hlt, m.element b t ht⟩
  · intro b hb
    obtain ⟨-, -, t, ht⟩ := h.block b hb
    obtain ⟨hr, hkin⟩ := h.kin b hb
    rw [hrank (hblock hb)]
    refine ⟨hr, fun t' ht' => ?_⟩
    rw [m.parent b t t' (hheld b (hblock hb)) ht ht']
    rcases hkin t ht with ⟨hsame, hregular⟩ | ⟨p, u, hp, hu, hsame⟩
    · refine .inl ⟨hsame, fun p hp => ?_⟩
      obtain ⟨-, u, hu⟩ := h.parent p hp
      rw [m.rank p (lt_size_of_shape? hu)]
      exact hregular p hp
    · obtain ⟨u', hu', hparent⟩ := m.isContainer hu
      exact .inr ⟨p, u', hp, hu', hsame.trans hparent.symm⟩
  · intro p hp
    obtain ⟨hlt, t, ht⟩ := h.parent p hp
    rw [m.rank p (lt_size_of_shape? ht), m.rank i hi]
    exact ⟨hlt, m.element p t ht⟩

theorem free (h : tree.Outside ledger opened) {j : NodeId} (hj : j ∈ opened ∨ tree.root = some j)
    (hmoved : j ∉ moved) :
    ledger'.seat j = .free ∧ ledger'.rank j = 2 * j ∧ ∃ s, later.shape? j = some s := by
  obtain ⟨hs, hr, t, ht⟩ := h.free hj
  have hlt := lt_size_of_shape? ht
  rw [m.seat j hlt hmoved, m.rank j hlt]
  exact ⟨hs, hr, m.element j t ht⟩

/-- A move of other nodes than open elements and the root, which adds children to no open element
but the innermost one. -/
theorem outside (h : tree.Outside ledger opened) (hopened : opened' <:+ opened)
    (hroot : later.root = tree.root)
    (hmoved : ∀ j, ledger.seat j = .free → j ∈ opened' ∨ tree.root = some j → j ∉ moved)
    (hchildren : ∀ c ∈ opened'.tail, ∀ t t', tree.shape? c = some t → later.shape? c = some t' →
      ∀ d ∈ t'.children, d ∈ t.children) : later.Outside ledger' opened' := by
  have hkept {j : NodeId} (hj : j ∈ opened' ∨ tree.root = some j) :
      ledger'.seat j = .free ∧ ledger'.rank j = 2 * j ∧ ∃ s, later.shape? j = some s := by
    have hj' := hj.imp_left fun hj => hopened.subset hj
    exact m.free h hj' (hmoved j (h.free hj').1 hj)
  have hparent {j : NodeId} {s' : Shape} (hj : j ∈ opened' ∨ tree.root = some j)
      (hs' : later.shape? j = some s') : ∃ s, tree.shape? j = some s ∧ s'.parent = s.parent := by
    obtain ⟨hfree, -, s, hs⟩ := h.free (hj.imp_left fun hj => hopened.subset hj)
    exact ⟨s, hs, m.parent j s s' (hmoved j hfree hj) hs hs'⟩
  refine ⟨fun j hj => hkept (.inl hj), ?_, ?_, ?_, ?_, ?_⟩
  · have hstep {j i : NodeId} (hi : i ∈ opened'.tail)
        (hji : i < j ∧ ∀ s, tree.shape? i = some s → ∀ c ∈ s.children, c < j) :
        i < j ∧ ∀ s, later.shape? i = some s → ∀ c ∈ s.children, c < j := by
      refine ⟨hji.1, ?_⟩
      intro t' ht' c hc
      obtain ⟨-, -, t, ht⟩ := h.unseated i (hopened.subset (mem_of_mem_tail hi))
      exact hji.2 t ht c (hchildren i hi t t' ht ht' c hc)
    have hnested := h.nested.sublist hopened.sublist
    cases opened' with
    | nil => exact List.Pairwise.nil
    | cons j js =>
      rw [pairwise_cons] at hnested ⊢
      exact ⟨fun i hi => hstep hi (hnested.1 i hi),
        hnested.2.imp_of_mem fun _ hi hji => hstep hi hji⟩
  · intro r hr
    rw [hroot] at hr
    obtain ⟨hs, hrk, hshape⟩ := hkept (.inr hr)
    exact ⟨hs, hrk, fun j hj => (h.root r hr).2.2.1 j (hopened.subset hj), hshape⟩
  · intro hr
    rw [hroot] at hr
    exact eq_nil_of_subset_nil (h.rootless hr ▸ hopened.subset)
  · intro k j s' hj hs'
    obtain ⟨s, hs, heq⟩ := hparent (.inl (mem_of_getElem? hj)) hs'
    obtain ⟨before, rfl⟩ := hopened
    have hlater (n : Nat) : (before ++ opened')[before.length + n]? = opened'[n]? := by
      rw [getElem?_append_right (Nat.le_add_right _ _), Nat.add_sub_cancel_left]
    rw [heq, h.parents (before.length + k) j s ((hlater k).trans hj) hs, Nat.add_assoc, hlater]
  · intro r s' hr hs'
    rw [hroot] at hr
    obtain ⟨s, hs, heq⟩ := hparent (.inr hr) hs'
    rw [heq]
    exact h.orphan r s hr hs

end

/-- A new element is open inside the others. It is the root if there was none. -/
theorem outside_cons (m : Move ledger ledger' tree later []) (h : tree.Sound ledger opened loose)
    (hshape : ∀ j, later.shape? j = if j = tree.nodes.size then some s else tree.shape? j)
    (hseat : ledger'.seat tree.nodes.size = .free)
    (hrank : ledger'.rank tree.nodes.size = 2 * tree.nodes.size)
    (hroot : later.root = tree.root ∧ tree.root.isSome ∨
      tree.root = none ∧ later.root = some tree.nodes.size) (hparent : s.parent = opened.head?) :
    later.Outside ledger' (tree.nodes.size :: opened) := by
  have hnew : later.shape? tree.nodes.size = some s := by rw [hshape, if_pos rfl]
  have hold {j : NodeId} (hj : j ∈ opened) : later.shape? j = tree.shape? j := by
    rw [hshape, if_neg (Nat.ne_of_lt (h.outside.lt_size hj))]
  refine ⟨?_, ?_, ?_, ?_, ?_, ?_⟩
  · intro j hj
    rcases mem_cons.mp hj with rfl | hj
    · exact ⟨hseat, hrank, s, hnew⟩
    · exact m.free h.outside (.inl hj) not_mem_nil
  · rw [pairwise_cons]
    constructor
    · intro i hi
      refine ⟨h.outside.lt_size hi, ?_⟩
      intro t ht c hc
      rw [hold hi] at ht
      exact (h.shapes i t ht).child_lt c hc
    · refine h.outside.nested.imp_of_mem ?_
      intro j i hj hi hji
      rw [hold hi]
      exact hji
  · intro r hr
    rcases hroot with ⟨hroot, -⟩ | ⟨hnone, hroot⟩
    · rw [hroot] at hr
      obtain ⟨hs, hrk, t, ht⟩ := m.free h.outside (.inr hr) not_mem_nil
      obtain ⟨-, -, hle, u, hu⟩ := h.outside.root r hr
      exact ⟨hs, hrk, forall_mem_cons.mpr ⟨Nat.le_of_lt (lt_size_of_shape? hu), hle⟩, t, ht⟩
    · rw [hroot] at hr
      cases hr
      rw [h.outside.rootless hnone]
      exact ⟨hseat, hrank, forall_mem_singleton.mpr (Nat.le_refl _), s, hnew⟩
  · intro hr
    rcases hroot with ⟨hroot, hsome⟩ | ⟨-, hroot⟩
    · rw [← hroot, hr] at hsome
      cases hsome
    · rw [hroot] at hr
      cases hr
  · intro k j t hj ht
    cases k with
    | zero =>
      cases hj
      rw [hnew] at ht
      cases ht
      rw [hparent, head?_eq_getElem?]
      rfl
    | succ k =>
      rw [hold (mem_of_getElem? hj)] at ht
      exact h.outside.parents k j t hj ht
  · intro r t hr ht
    rcases hroot with ⟨hroot, -⟩ | ⟨hnone, hroot⟩
    · rw [hroot] at hr
      obtain ⟨-, -, -, u, hu⟩ := h.outside.root r hr
      rw [m.parent r u t not_mem_nil hu ht]
      exact h.outside.orphan r u hr hu
    · rw [hroot] at hr
      cases hr
      rw [hnew] at ht
      cases ht
      rw [hparent, h.outside.rootless hnone]
      rfl

end Move

namespace Sound

variable {s : Shape} {x : NodeId}

section

variable (h : tree.Sound ledger opened loose) {i c : NodeId} (hx : ledger.seat x = .free)
  (hs : tree.shape? i = some s) (hc : c ∈ s.held)
include h hx hs hc

/-- A node that has no seat yet is held by no element. -/
theorem ne_of_held : c ≠ x := by
  rintro rfl
  exact (h.shapes i s hs).seat_ne_free hc hx

theorem not_mem_of_held : c ∉ [x] :=
  mt mem_singleton.mp (h.ne_of_held hx hs hc)

end

/-- The element with the number `x` changes its links to those of `s'`, which hold no more than
before, and looks to others as before unless it has no seat. -/
theorem shrink (h : tree.Sound ledger opened loose) {s' : Shape} (hx : tree.shape? x = some s)
    (hsize : later.nodes.size = tree.nodes.size) (hroot : later.root = tree.root)
    (hshape : ∀ j, later.shape? j = if j = x then some s' else tree.shape? j)
    (hface : s'.face = s.face ∨ ledger.seat x = .free) (hparent : s'.parent = s.parent)
    (hchildren : s'.children.Sublist s.children) (hslots : s'.slots = s.slots)
    (hblocks : s'.blocks = s.blocks) : later.Sound ledger opened loose := by
  have hmove : Move ledger ledger tree later [] :=
    .of_shape hx hshape hface hparent (forall_mem_nil _) (Nat.le_of_eq hsize.symm)
      (fun _ _ => rfl) fun _ _ _ => rfl
  have hcarry {i : NodeId} {t : Shape} (ht : tree.shape? i = some t) :
      t.Sound ledger later loose i :=
    hmove.sound (h.shapes i t ht) (lt_size_of_shape? ht) (fun _ _ => not_mem_nil) id
  constructor
  · intro i t ht
    rw [hshape] at ht
    split at ht
    · rename_i hix
      cases ht
      rw [hix]
      have hown := hcarry hx
      exact {
        child_lt := fun c hc => hown.child_lt c (hchildren.subset hc)
        child_rank := fun c hc => hown.child_rank c (hchildren.subset hc)
        child_seat := fun c hc => hown.child_seat c (hchildren.subset hc)
        child_parent := fun c hc => hown.child_parent c (hchildren.subset hc)
        sorted := hown.sorted.sublist hchildren
        slot := hslots ▸ hown.slot
        slots_nodup := hslots ▸ hown.slots_nodup
        block := hblocks ▸ hown.block
        blocks_nodup := hblocks ▸ hown.blocks_nodup
        kin := by
          rw [hblocks, hparent]
          exact hown.kin
        parent := hparent ▸ hown.parent }
    · exact hcarry ht
  · refine hmove.outside h.outside (suffix_refl _) hroot (fun _ _ _ => not_mem_nil) ?_
    intro c _ t t' ht ht' d hd
    rw [hshape] at ht'
    split at ht'
    · rename_i hcx
      cases ht'
      rw [hcx, hx] at ht
      cases ht
      exact hchildren.subset hd
    · cases ht.symm.trans ht'
      exact hd

/-- An element all of whose children have their seats as children is settled. -/
theorem settle (h : tree.Sound ledger opened (x :: loose))
    (hx : ∀ s, tree.shape? x = some s → ∀ c ∈ s.children, ledger.seat c = .child x) :
    tree.Sound ledger opened loose := by
  refine ⟨?_, h.outside⟩
  intro i s hs
  have hown := h.shapes i s hs
  refine { hown with child_seat := ?_ }
  intro c hc
  by_cases hi : i = x
  · rw [hi] at hs ⊢
    exact .inl (hx s hs c hc)
  · rcases hown.child_seat c hc with hseat | ⟨hloose, hseat⟩
    · exact .inl hseat
    · exact .inr ⟨(mem_cons.mp hloose).resolve_left hi, hseat⟩

/-- An element that closes without a place. -/
theorem leave (h : tree.Sound ledger (x :: opened) loose) : tree.Sound ledger opened loose := by
  have hmove : Move ledger ledger tree tree [] :=
    ⟨forall_mem_nil _, Nat.le_refl _, fun _ _ => rfl, fun _ _ _ => rfl, fun _ t ht => ⟨t, ht⟩,
      fun _ _ _ _ => rfl, fun _ _ _ _ ht ht' => congrArg Shape.parent (Option.some.inj (ht'.symm.trans ht))⟩
  refine ⟨h.shapes, hmove.outside h.outside (suffix_cons x opened) rfl
    (fun _ _ _ => not_mem_nil) ?_⟩
  intro c _ t t' ht ht' d hd
  cases ht.symm.trans ht'
  exact hd

/-- A text becomes the last child of the innermost open element. -/
theorem append {p : NodeId} (h : tree.Sound ledger (p :: opened) loose)
    (hp : tree.shape? p = some s) (hsize : later.nodes.size = tree.nodes.size + 1)
    (hroot : later.root = tree.root) (hshape : ∀ j, later.shape? j =
      if j = p then some { s with children := s.children ++ [tree.nodes.size] }
      else tree.shape? j) :
    later.Sound (ledger.put tree.nodes.size (.child p) (2 * tree.nodes.size)) (p :: opened)
      loose := by
  have hlt := lt_size_of_shape? hp
  have hmove : Move ledger (ledger.put tree.nodes.size (.child p) (2 * tree.nodes.size)) tree later
      [] :=
    .of_shape hp hshape (.inl rfl) rfl (forall_mem_nil _) (Nat.le.intro hsize.symm)
      (fun c hc => if_neg (Nat.ne_of_lt hc)) fun c hc _ => if_neg (Nat.ne_of_lt hc)
  have hcarry {i : NodeId} {t : Shape} (ht : tree.shape? i = some t) :=
    hmove.sound (h.shapes i t ht) (lt_size_of_shape? ht) (fun _ _ => not_mem_nil) id
  constructor
  · intro i t ht
    rw [hshape] at ht
    split at ht
    · rename_i hip
      cases ht
      rw [hip]
      refine (hcarry hp).snoc ?_ ⟨if_pos rfl, ?_⟩ (.inl (if_pos rfl)) ?_
        (h.shapes p s hp).child_lt
      · rw [hsize]
        exact Nat.lt_succ_self _
      · rw [hmove.rank p hlt, (h.outside.unseated p mem_cons_self).2.1]
        exact Nat.mul_lt_mul_of_pos_left hlt Nat.two_pos
      · intro t ht
        rw [hshape, if_neg (Nat.ne_of_gt hlt)] at ht
        exact absurd (lt_size_of_shape? ht) (Nat.lt_irrefl _)
    · exact hcarry ht
  · refine hmove.outside h.outside (suffix_refl _) hroot (fun _ _ _ => not_mem_nil) ?_
    intro c hc t t' ht ht' d hd
    have hcp : c ≠ p := by
      rintro rfl
      exact h.outside.not_mem hc
    rw [hshape, if_neg hcp] at ht'
    cases ht.symm.trans ht'
    exact hd

/-- A start tag opens an element inside the innermost open one; the first is the root. -/
theorem opens (h : tree.Sound ledger opened loose) (hsize : later.nodes.size = tree.nodes.size + 1)
    (hroot : later.root = tree.root ∧ tree.root.isSome ∨
      tree.root = none ∧ later.root = some tree.nodes.size)
    (hshape : ∀ j, later.shape? j = if j = tree.nodes.size then some s else tree.shape? j)
    (hparent : s.parent = opened.head?) (hheld : s.held = []) :
    later.Sound (ledger.put tree.nodes.size .free (2 * tree.nodes.size))
      (tree.nodes.size :: opened) (tree.nodes.size :: loose) := by
  have hmove : Move ledger (ledger.put tree.nodes.size .free (2 * tree.nodes.size)) tree later [] :=
    .of_new hshape (Nat.le.intro hsize.symm) (fun c hc => if_neg (Nat.ne_of_lt hc))
      fun c hc => if_neg (Nat.ne_of_lt hc)
  simp only [Shape.held, append_eq_nil_iff] at hheld
  obtain ⟨⟨hchildren, hslots⟩, hblocks⟩ := hheld
  refine ⟨?_, hmove.outside_cons h hshape (if_pos rfl) (if_pos rfl) hroot hparent⟩
  intro i t ht
  rw [hshape] at ht
  split at ht
  · rename_i hi
    cases ht
    rw [hi]
    refine ⟨by simp [hchildren], by simp [hchildren], by simp [hchildren], by simp [hchildren],
      by simp [hchildren], by simp [hslots], by simp [hslots], by simp [hblocks],
      by simp [hblocks], by simp [hblocks], ?_⟩
    intro p hp
    rw [hparent] at hp
    obtain ⟨-, hrankp, u, hu⟩ := h.outside.unseated p (mem_of_mem_head? hp)
    refine ⟨?_, hmove.element p u hu⟩
    rw [hmove.rank p (lt_size_of_shape? hu), hrankp]
    exact Nat.lt_of_lt_of_eq (Nat.mul_lt_mul_of_pos_left (lt_size_of_shape? hu) Nat.two_pos)
      (if_pos rfl).symm
  · exact hmove.sound (h.shapes i t ht) (lt_size_of_shape? ht) (fun _ _ => not_mem_nil)
      (mem_cons_of_mem _)

/-- The innermost open element closes and becomes a later branch of a choice. -/
theorem addBranch {holder : NodeId} (h : tree.Sound ledger (x :: opened) loose)
    (hholder : tree.shape? holder = some s) (hlt : ledger.rank holder < ledger.rank x)
    (hparent : s.parent = opened.head?) (hx : tree.root ≠ some x)
    (hsize : later.nodes.size = tree.nodes.size) (hroot : later.root = tree.root)
    (hshape : ∀ j, later.shape? j =
      if j = holder then some { s with blocks := s.blocks ++ [x] } else tree.shape? j) :
    later.Sound (ledger.put x (.branch holder) (ledger.rank x)) opened loose := by
  obtain ⟨hfree, hrankx, t, ht⟩ := h.outside.unseated x mem_cons_self
  have hrank := ledger.rank_put_self x (.branch holder)
  have hmove : Move ledger (ledger.put x (.branch holder) (ledger.rank x)) tree later [x] :=
    .of_shape hholder hshape (.inl rfl) rfl (forall_mem_singleton.mpr hrankx)
      (Nat.le_of_eq hsize.symm) (fun c _ => hrank c) fun c _ hc => if_neg (ne_of_not_mem_cons hc)
  have hcarry {i : NodeId} {t : Shape} (ht : tree.shape? i = some t) :=
    hmove.sound (h.shapes i t ht) (lt_size_of_shape? ht) (fun c => h.not_mem_of_held hfree ht) id
  constructor
  · intro i u hu
    rw [hshape] at hu
    split at hu
    · rename_i hi
      cases hu
      rw [hi]
      have hown := hcarry hholder
      refine { hown with block := ?_, blocks_nodup := ?_, kin := ?_ }
      · refine forall_mem_append.mpr ⟨hown.block, forall_mem_singleton.mpr ?_⟩
        rw [hrank, hrank]
        exact ⟨if_pos rfl, hlt, hmove.element x t ht⟩
      · refine nodup_append.mpr ⟨hown.blocks_nodup, by simp, ?_⟩
        intro b hb
        exact forall_mem_singleton.mpr
          (h.ne_of_held hfree hholder (mem_append_right _ hb))
      · refine forall_mem_append.mpr ⟨hown.kin, forall_mem_singleton.mpr ?_⟩
        rw [hrank]
        refine ⟨hrankx, fun t' ht' => ?_⟩
        have hkept : t'.parent = t.parent := by
          rw [hshape] at ht'
          split at ht'
          · rename_i hxh
            rw [hxh, hholder] at ht
            cases ht
            cases ht'
            rfl
          · cases ht.symm.trans ht'
            rfl
        refine .inl ⟨?_, fun p hp => ?_⟩
        · rw [hkept, h.outside.parents 0 x t rfl ht, hparent, head?_eq_getElem?]
          rfl
        · rw [hrank]
          have hopen : p ∈ opened := mem_of_head? (hparent.symm.trans hp)
          exact (h.outside.unseated p (mem_cons_of_mem _ hopen)).2.1
    · exact hcarry hu
  · refine hmove.outside h.outside (suffix_cons x opened) hroot ?_ ?_
    · intro j _ hj
      rw [mem_singleton]
      rintro rfl
      exact hj.elim h.outside.not_mem hx
    · intro c _ u u' hu hu' d hd
      rw [hshape] at hu'
      split at hu'
      · rename_i hc
        cases hu'
        rw [hc, hholder] at hu
        cases hu
        exact hd
      · cases hu.symm.trans hu'
        exact hd

/-- The innermost open element closes and becomes the last child of the one around it, and content
of a slot of that one if it is such content. -/
theorem addChild {p : NodeId} (h : tree.Sound ledger (x :: p :: opened) loose) {t : Shape}
    (hx : tree.shape? x = some s) (hp : tree.shape? p = some t) (hloose : p ∈ loose)
    {slots : List NodeId} (hslots : ∀ v ∈ slots, v ∈ t.slots ∨ v = x ∧ s.isSlot = true)
    (hnodup : slots.Nodup) (hsize : later.nodes.size = tree.nodes.size)
    (hroot : later.root = tree.root) (hshape : ∀ j, later.shape? j =
      if j = x then some { s with parent := some p }
      else if j = p then some { t with children := t.children ++ [x], slots := slots }
      else tree.shape? j) :
    later.Sound (ledger.put x (if s.isSlot then .slot p else .child p) (ledger.rank x))
      (p :: opened) loose := by
  obtain ⟨hfree, hrankx, -⟩ := h.outside.unseated x mem_cons_self
  obtain ⟨-, hrankp, -⟩ := h.outside.unseated p (mem_cons_of_mem x mem_cons_self)
  obtain ⟨hpx, hbefore⟩ := (pairwise_cons.mp h.outside.nested).1 p mem_cons_self
  generalize hseatx : (if s.isSlot then Seat.slot p else Seat.child p) = seat
  have hrank := ledger.rank_put_self x seat
  have hseat : (ledger.put x seat (ledger.rank x)).seat x = seat := if_pos rfl
  have hlt : ledger.rank p < 2 * x := by
    rw [hrankp]
    exact Nat.mul_lt_mul_of_pos_left hpx Nat.two_pos
  have hnew : later.shape? x = some { s with parent := some p } := by rw [hshape, if_pos rfl]
  have hmove : Move ledger (ledger.put x seat (ledger.rank x)) tree later [x] := by
    refine ⟨forall_mem_singleton.mpr hrankx, Nat.le_of_eq hsize.symm, fun c _ => hrank c,
      fun c _ hc => if_neg (ne_of_not_mem_cons hc), ?_, ?_, ?_⟩
    · intro c u hu
      rw [hshape]
      split
      · exact ⟨_, rfl⟩
      · split
        · exact ⟨_, rfl⟩
        · exact ⟨u, hu⟩
    · intro c _ hc _
      rw [hshape, if_neg (ne_of_not_mem_cons hc)]
      split
      · rename_i hcp
        rw [hcp, hp]
        rfl
      · rfl
    · intro c u u' hc hu hu'
      rw [hshape, if_neg (ne_of_not_mem_cons hc)] at hu'
      split at hu'
      · rename_i hcp
        rw [hcp, hp] at hu
        cases hu
        cases hu'
        rfl
      · cases hu.symm.trans hu'
        rfl
  have hcarry {i : NodeId} {u : Shape} (hu : tree.shape? i = some u) :=
    hmove.sound (h.shapes i u hu) (lt_size_of_shape? hu) (fun c => h.not_mem_of_held hfree hu) id
  constructor
  · intro i u hu
    rw [hshape] at hu
    split at hu
    · rename_i hi
      cases hu
      rw [hi]
      have hown := hcarry hx
      -- the element has had this parent since it was opened
      have hsame : s.parent = some p := h.outside.parents 0 x s rfl hx
      refine { hown with parent := ?_, kin := ?_ }
      · show ∀ b ∈ s.blocks, _
        intro b hb
        rw [← hsame]
        exact hown.kin b hb
      · intro q hq
        cases hq
        rw [hrank, hrank, hrankx]
        exact ⟨hlt, hmove.element p t hp⟩
    · split at hu
      · rename_i hi
        cases hu
        rw [hi]
        have hown := (hcarry hp).snoc (x := x) (hsize ▸ lt_size_of_shape? hx)
          (by rw [hrank, hrank]; exact ⟨hrankx, hlt⟩) ?_ ?_ (hbefore t hp)
        · refine { hown with slot := ?_, slots_nodup := hnodup }
          intro v hv
          rcases hslots v hv with hv | ⟨rfl, hslot⟩
          · exact hown.slot v hv
          · rw [hseat, hrank, hrank, hrankx, ← hseatx, if_pos hslot]
            exact ⟨rfl, hlt, _, hnew, rfl⟩
        · rw [hseat, ← hseatx]
          split
          · rename_i hslot
            exact .inr ⟨hloose, rfl, _, hnew, hslot⟩
          · exact .inl rfl
        · intro u hu
          cases hnew.symm.trans hu
          rfl
      · exact hcarry hu
  · refine hmove.outside h.outside (suffix_cons x (p :: opened)) hroot ?_ ?_
    · intro j _ hj
      rw [mem_singleton]
      rintro rfl
      rcases hj with hj | hj
      · exact h.outside.not_mem hj
      · have hle := (h.outside.root j hj).2.2.1 p (mem_cons_of_mem j mem_cons_self)
        exact absurd hpx (Nat.not_lt.mpr hle)
    · intro c hc u u' hu hu' d hd
      have hcx : c ≠ x := by
        rintro rfl
        exact h.outside.not_mem (mem_cons_of_mem p hc)
      have hcp : c ≠ p := by
        rintro rfl
        exact Nat.lt_irrefl c
          ((pairwise_cons.mp (pairwise_cons.mp h.outside.nested).2).1 c hc).1
      rw [hshape, if_neg hcx, if_neg hcp] at hu'
      cases hu.symm.trans hu'
      exact hd

end Sound

/-! ## Filling a slot -/

/-- An open element gives its children to a new container, which becomes content of one of its
slots; children that are content of slots themselves stay behind and are dropped. -/
structure Filling (ledger : Ledger) (tree later : Tree) (opened loose : List NodeId) (x : NodeId)
    (s : Shape) (inside slots : List NodeId) : Prop where
  sound : tree.Sound ledger opened loose
  isOpen : x ∈ opened
  owner : tree.shape? x = some s
  sublist : inside.Sublist s.children
  plain : ∀ c ∈ inside, ∀ t, tree.shape? c = some t → t.isSlot = false
  slot : ∀ v ∈ slots, v ∈ s.slots ∨ v = tree.nodes.size
  nodup : slots.Nodup
  size : later.nodes.size = tree.nodes.size + 1
  root : later.root = tree.root
  shape : ∀ j, later.shape? j =
    if j = x then some { s with children := [], slots := slots }
    else if j ∈ inside then (tree.shape? j).map fun t => { t with parent := some tree.nodes.size }
    else if j = tree.nodes.size then some (.container x inside)
    else tree.shape? j

namespace Filling

variable {c : NodeId} {x : NodeId} {s : Shape} {inside slots : List NodeId}

section

variable (h : Filling ledger tree later opened loose x s inside slots)
include h

/-- The moved nodes are children of the open element and of nothing else. -/
theorem seat_inside (hc : c ∈ inside) : ledger.seat c = .child x := by
  rcases (h.sound.shapes x s h.owner).child_seat c (h.sublist.subset hc) with
    hs | ⟨-, -, t, ht, hslot⟩
  · exact hs
  · rw [h.plain c hc t ht] at hslot
    cases hslot

theorem lt_size (hc : c ∈ inside) : c < tree.nodes.size :=
  (h.sound.shapes x s h.owner).child_lt c (h.sublist.subset hc)

theorem rank_inside (hc : c ∈ inside) : ledger.rank c = 2 * c ∧ 2 * x + 1 < 2 * c := by
  have hodd (a b : Nat) (hab : 2 * a < 2 * b) : 2 * a + 1 < 2 * b := by omega
  obtain ⟨hr, hxc⟩ := (h.sound.shapes x s h.owner).child_rank c (h.sublist.subset hc)
  rw [(h.sound.outside.unseated x h.isOpen).2.1] at hxc
  exact ⟨hr, hodd x c hxc⟩

theorem not_mem_inside {j : NodeId} (hj : ledger.seat j = .free) : j ∉ inside := by
  intro hc
  rw [h.seat_inside hc] at hj
  cases hj

theorem shape_container : later.shape? tree.nodes.size = some (.container x inside) := by
  rw [h.shape, if_neg (Nat.ne_of_gt (lt_size_of_shape? h.owner)),
    if_neg (fun hc => Nat.lt_irrefl _ (h.lt_size hc)), if_pos rfl]

theorem move : Move ledger (ledger.fill x tree.nodes.size inside) tree later inside where
  regular c hc := (h.rank_inside hc).1
  size := Nat.le.intro h.size.symm
  rank c hc := if_neg (Nat.ne_of_lt hc)
  seat c hc hci := by simp only [Ledger.fill, if_neg (Nat.ne_of_lt hc), if_neg hci]
  element c t ht := by
    rw [h.shape]
    split
    · exact ⟨_, rfl⟩
    · split
      · rw [ht]
        exact ⟨_, rfl⟩
      · rw [if_neg (Nat.ne_of_lt (lt_size_of_shape? ht))]
        exact ⟨t, ht⟩
  face c hc hci _ := by
    by_cases hcx : c = x
    · rw [h.shape, if_pos hcx, hcx, h.owner]
      rfl
    · rw [h.shape, if_neg hcx, if_neg hci, if_neg (Nat.ne_of_lt hc)]
  parent c t t' hci ht ht' := by
    rw [h.shape, if_neg hci, if_neg (Nat.ne_of_lt (lt_size_of_shape? ht))] at ht'
    split at ht'
    · rename_i hcx
      rw [hcx, h.owner] at ht
      cases ht
      cases ht'
      rfl
    · cases ht.symm.trans ht'
      rfl

/-- An element holds a moved node only if it is the open element and the node was its child. -/
theorem carry {i : NodeId} {u : Shape} (hu : u.Sound ledger tree loose i) (hi : i < tree.nodes.size)
    (hown : i = x → u.children = []) :
    u.Sound (ledger.fill x tree.nodes.size inside) later loose i := by
  refine h.move.sound hu hi ?_ id
  intro c hc hci
  have hs := h.seat_inside hci
  have hcase := (hu.held_cases hc).2.2
  rw [hs] at hcase
  rcases hcase with hcase | hcase | hcase
  · cases hcase
    simp only [Shape.held, hown rfl, nil_append, mem_append] at hc
    rcases hc with hc | hc
    · rw [(hu.slot c hc).1] at hs
      cases hs
    · rw [(hu.block c hc).1] at hs
      cases hs
  · cases hcase
  · cases hcase

theorem sound_owner :
    Shape.Sound (ledger.fill x tree.nodes.size inside) later loose x
      { s with children := [], slots := slots } := by
  have hown := h.sound.shapes x s h.owner
  have hltx := lt_size_of_shape? h.owner
  have hbase : Shape.Sound ledger tree loose x { s with children := [] } :=
    { hown with
      child_lt := by simp
      child_rank := by simp
      child_seat := by simp
      child_parent := by simp
      sorted := List.Pairwise.nil }
  have hlater := h.carry hbase hltx fun _ => rfl
  refine { hlater with slot := ?_, slots_nodup := h.nodup }
  intro v hv
  rcases h.slot v hv with hv | rfl
  · exact hlater.slot v hv
  · rw [ledger.rank_fill_container, h.move.rank x hltx,
      (h.sound.outside.unseated x h.isOpen).2.1]
    exact ⟨if_pos rfl, Nat.lt_succ_self _, _, h.shape_container, rfl⟩

theorem sound_inside {i : NodeId} {t : Shape} (hi : i ∈ inside) (hix : i ≠ x)
    (ht : tree.shape? i = some t) :
    Shape.Sound (ledger.fill x tree.nodes.size inside) later loose i
      { t with parent := some tree.nodes.size } := by
  have hodd (a b : Nat) : 2 * a + 1 ≠ 2 * b := by omega
  have hlater := h.carry (h.sound.shapes i t ht) (h.lt_size hi) fun he => absurd he hix
  have hparent : t.parent = some x :=
    (h.sound.shapes x s h.owner).child_parent i (h.sublist.subset hi) t ht
  have hcontainer : Shape.IsContainer (ledger.fill x tree.nodes.size inside) later tree.nodes.size
      (.container x inside) := by
    refine ⟨h.shape_container, ?_, ?_, rfl⟩
    · rw [ledger.rank_fill_container]
      exact hodd x tree.nodes.size
    · simp only [Ledger.fill, if_true]
      exact Seat.noConfusion
  refine { hlater with parent := ?_, kin := ?_ }
  · intro b hb
    refine ⟨(hlater.kin b hb).1, fun u hu => .inr ⟨tree.nodes.size, _, rfl, hcontainer, ?_⟩⟩
    rcases (hlater.kin b hb).2 u hu with ⟨hsame, -⟩ | ⟨p, v, hp, hv, -⟩
    · exact hsame.trans hparent
    -- the children were in no container before
    · rw [hparent] at hp
      cases hp
      refine absurd ?_ hv.rank
      rw [h.move.rank x (lt_size_of_shape? h.owner)]
      exact (h.sound.outside.unseated x h.isOpen).2.1
  · intro q hq
    cases hq
    rw [ledger.rank_fill_container, h.move.rank i (h.lt_size hi), (h.rank_inside hi).1]
    exact ⟨(h.rank_inside hi).2, _, h.shape_container⟩

theorem sound_container :
    (Shape.container x inside).Sound (ledger.fill x tree.nodes.size inside) later loose
      tree.nodes.size := by
  obtain ⟨hfree, hrankx, -⟩ := h.sound.outside.unseated x h.isOpen
  refine ⟨?_, ?_, ?_, ?_, (h.sound.shapes x s h.owner).sorted.sublist h.sublist,
    forall_mem_nil _, nodup_nil, forall_mem_nil _, nodup_nil,
    forall_mem_nil _, ?_⟩
  · intro c hc
    rw [h.size]
    exact Nat.lt_succ_of_lt (h.lt_size hc)
  · intro c hc
    rw [ledger.rank_fill_container, h.move.rank c (h.lt_size hc)]
    exact h.rank_inside hc
  · intro c hc
    left
    simp only [Ledger.fill, if_neg (Nat.ne_of_lt (h.lt_size hc)), if_pos (show c ∈ inside from hc)]
  · intro c hc t ht
    have hcx : c ≠ x := by
      rintro rfl
      exact h.not_mem_inside hfree hc
    rw [h.shape, if_neg hcx, if_pos (show c ∈ inside from hc)] at ht
    obtain ⟨t', -, rfl⟩ := map_eq_some_iff.mp ht
    rfl
  · intro q hq
    cases hq
    rw [ledger.rank_fill_container, h.move.rank x (lt_size_of_shape? h.owner), hrankx]
    exact ⟨Nat.lt_succ_self _, h.move.element x s h.owner⟩

theorem sound_later : later.Sound (ledger.fill x tree.nodes.size inside) opened loose := by
  constructor
  · intro i u hu
    rw [h.shape] at hu
    split at hu
    · rename_i hi
      cases hu
      rw [hi]
      exact h.sound_owner
    · rename_i hix
      split at hu
      · rename_i hi
        obtain ⟨t, ht, rfl⟩ := map_eq_some_iff.mp hu
        exact h.sound_inside hi hix ht
      · split at hu
        · rename_i hi
          cases hu
          rw [hi]
          exact h.sound_container
        · exact h.carry (h.sound.shapes i u hu) (lt_size_of_shape? hu) fun he => absurd he hix
  · refine h.move.outside h.sound.outside (suffix_refl _) h.root
      (fun j hj _ => h.not_mem_inside hj) ?_
    intro c hc t t' ht ht' d hd
    have hfree := (h.sound.outside.unseated c (mem_of_mem_tail hc)).1
    have hlt := lt_size_of_shape? ht
    rw [h.shape, if_neg (h.not_mem_inside hfree), if_neg (Nat.ne_of_lt hlt)] at ht'
    split at ht'
    · cases ht'
      cases hd
    · cases ht.symm.trans ht'
      exact hd

end

end Filling

end Tree

end ViewTemplate
