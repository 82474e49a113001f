import Mathlib.Data.Finset.Card
import Mathlib.Data.Finset.Range
import ViewTemplate.Proofs.StaticMarks
import ViewTemplate.Proofs.TemplateForest

/-! # Contents in a forest

In a forest no chain of links is longer than the table, so a content that is read with as much fuel
as there are nodes is the whole content. Marking such a tree changes nothing but marks, and the
nodes that are reached from the root only through a slot keep theirs.
-/

open List

namespace ViewTemplate

namespace Tree

variable {el : Element} {i : NodeId} {tree : Tree}

/-- Heights that fall along every link, all below the size of the table. -/
structure Grounded (height : NodeId → Nat) (tree : Tree) : Prop where
  held : ∀ i c, tree.Holds i c → c < tree.nodes.size ∧ height c < height i
  bounded : ∀ i, i < tree.nodes.size → height i < tree.nodes.size

theorem holds_child {c : NodeId} (hel : tree.node? i = some (.element el)) (hc : c ∈ el.children) :
    tree.Holds i c :=
  ⟨.element el, hel, mem_append_left _ (mem_append_left _ hc)⟩

theorem holds_slot {v : NodeId} (hel : tree.node? i = some (.element el))
    (hv : v ∈ el.scopedSlots.values) : tree.Holds i v :=
  ⟨.element el, hel, mem_append_left _ (mem_append_right _ hv)⟩

theorem holds_branch {b : Branch} (hel : tree.node? i = some (.element el))
    (hb : b ∈ el.otherBranches) : tree.Holds i b.block :=
  ⟨.element el, hel, mem_append_right _ (List.mem_map_of_mem hb)⟩

/-- Among finitely many nodes the number of those of higher rank falls along every link to a higher
rank. -/
theorem exists_height {α : Type} [Preorder α] [DecidableLT α] {n : Nat} {r : NodeId → NodeId → Prop}
    (rank : NodeId → α) (hr : ∀ i c, r i c → c < n ∧ rank i < rank c) :
    ∃ height : NodeId → Nat, (∀ i c, r i c → height c < height i) ∧ ∀ i, i < n → height i < n := by
  refine ⟨fun i => ((Finset.range n).filter fun j => rank i < rank j).card, ?_, ?_⟩
  · intro i c hc
    obtain ⟨hlt, hrank⟩ := hr i c hc
    apply Finset.card_lt_card
    rw [Finset.ssubset_iff_of_subset]
    · exact ⟨c, by simp [hlt, hrank], by simp⟩
    · intro j hj
      rw [Finset.mem_filter] at hj ⊢
      exact ⟨hj.1, hrank.trans hj.2⟩
  · intro i hi
    calc _ < (Finset.range n).card := by
          apply Finset.card_lt_card
          rw [Finset.ssubset_iff_of_subset (Finset.filter_subset _ _)]
          exact ⟨i, Finset.mem_range.mpr hi, by simp⟩
      _ = n := Finset.card_range n

theorem Sound.exists_grounded {ledger : Ledger} {opened : List NodeId}
    (h : tree.Sound ledger opened []) : ∃ height, tree.Grounded height := by
  have hlt {i c : NodeId} (hc : tree.Holds i c) : c < tree.nodes.size := by
    obtain ⟨s, hs, hheld⟩ := hc.shape?
    exact ((h.shapes i s hs).held_cases hheld).1
  obtain ⟨height, hheight, hbound⟩ := exists_height ledger.rank fun i c hc =>
    ⟨hlt hc, h.rank_lt hc⟩
  exact ⟨height, fun i c hc => ⟨hlt hc, hheight i c hc⟩, hbound⟩

/-- The same node with the same contents below. -/
theorem contentTo_congr {tree later : Tree} {n m : Nat} {i : NodeId}
    (hnode : later.node? i = tree.node? i)
    (hheld : ∀ c, tree.Holds i c → later.contentTo n c = tree.contentTo m c) :
    later.contentTo (n + 1) i = tree.contentTo (m + 1) i := by
  rw [contentTo, contentTo, hnode]
  cases hel : tree.node? i with
  | none => rfl
  | some node =>
    cases node with
    | element el =>
      have hchildren := map_congr_left fun c hc => hheld c (holds_child hel hc)
      have hbranches := map_congr_left fun b hb => hheld b.block (holds_branch hel hb)
      have hslots := map_congr_left fun v hv => hheld v (holds_slot hel hv)
      simp only [hchildren, hbranches, hslots]
    | interpolated t | plain t => rfl

namespace Grounded

variable {height : NodeId → Nat} {tree : Tree}

/-- More fuel than the height of a node changes nothing. -/
theorem contentTo_eq (h : tree.Grounded height) {n m : Nat} {i : NodeId} (hn : height i < n)
    (hm : height i < m) : tree.contentTo n i = tree.contentTo m i := by
  induction n generalizing m i with
  | zero => exact absurd hn (Nat.not_lt_zero _)
  | succ n ih =>
    cases m with
    | zero => exact absurd hm (Nat.not_lt_zero _)
    | succ m =>
      refine contentTo_congr rfl fun c hc => ?_
      have hlt := (h.held i c hc).2
      exact ih (Nat.lt_of_lt_of_le hlt (Nat.le_of_lt_succ hn))
        (Nat.lt_of_lt_of_le hlt (Nat.le_of_lt_succ hm))

/-- The nodes of a whole content are those of the table. -/
theorem node?_of_mem_nodes (h : tree.Grounded height) {n : Nat} {i : NodeId}
    (hi : i < tree.nodes.size) (hn : height i < n) :
    ∀ e ∈ (tree.contentTo n i).nodes, tree.node? e.1 = some e.2 := by
  induction n generalizing i with
  | zero => exact absurd hn (Nat.not_lt_zero _)
  | succ n ih =>
    intro e he
    rcases mem_nodes_contentTo he with ⟨rfl, hnode | ⟨hnone, -⟩⟩ | ⟨el, c, hel, he, hc⟩
    · exact hnode
    · exact absurd hi (Nat.not_lt.mpr (node?_eq_none_iff.mp hnone))
    · obtain ⟨hlt, hlow⟩ := h.held i c ⟨.element el, hel, hc⟩
      exact ih hlt (Nat.lt_of_lt_of_le hlow (Nat.le_of_lt_succ hn)) e he

end Grounded

/-- The content of an element is the element with the contents of what it holds. -/
theorem Sound.content_element {ledger : Ledger} {opened : List NodeId}
    (h : tree.Sound ledger opened []) (hel : tree.element? i = some el) :
    tree.content i = .element i el (el.children.map tree.content)
      (el.otherBranches.map fun b => tree.content b.block)
      (el.scopedSlots.values.map tree.content) := by
  obtain ⟨height, hground⟩ := h.exists_grounded
  have hnode := node?_of_element? hel
  have hlt := lt_size_of_element? hel
  obtain ⟨n, hn⟩ := Nat.exists_eq_succ_of_ne_zero (Nat.ne_zero_of_lt hlt)
  have hheld (c : NodeId) (hc : tree.Holds i c) : tree.contentTo n c = tree.content c := by
    obtain ⟨hsize, hlow⟩ := hground.held i c hc
    have hbound := hground.bounded i hlt
    exact hground.contentTo_eq (by omega) (hground.bounded c hsize)
  rw [content, hn, contentTo, hnode]
  simp only [Content.element.injEq, true_and]
  refine ⟨?_, ?_, ?_⟩
  · exact map_congr_left fun c hc => hheld c (holds_child hnode hc)
  · exact map_congr_left fun b hb => hheld b.block (holds_branch hnode hb)
  · exact map_congr_left fun v hv => hheld v (holds_slot hnode hv)

/-- The node of a content is the one that it starts from. -/
theorem element?_content (tree : Tree) (i : NodeId) : (tree.content i).element? = tree.element? i := by
  rw [content]
  cases hsize : tree.nodes.size with
  | zero =>
    have hnone : tree.node? i = none := node?_eq_none_iff.mpr (hsize ▸ Nat.zero_le i)
    rw [element?, hnone]
    rfl
  | succ n =>
    rw [contentTo, element?]
    cases tree.node? i with
    | none => rfl
    | some node => cases node <;> rfl

/-! ## What is reached without entering a slot -/

/-- A node is reached from the root through children and branches. -/
inductive Outer (tree : Tree) : NodeId → Prop
  | root {r : NodeId} (h : tree.root = some r) : Outer tree r
  | child {i c : NodeId} {el : Element} (hi : Outer tree i)
      (hel : tree.node? i = some (.element el)) (hc : c ∈ el.children) : Outer tree c
  | branch {i : NodeId} {b : Branch} {el : Element} (hi : Outer tree i)
      (hel : tree.node? i = some (.element el)) (hb : b ∈ el.otherBranches) : Outer tree b.block

theorem Outer.of_mem_outline {n : Nat} (hi : tree.Outer i) :
    ∀ j ∈ (tree.contentTo n i).outline, tree.Outer j := by
  induction n generalizing i with
  | zero =>
    intro j hj
    obtain rfl := mem_singleton.mp hj
    exact hi
  | succ n ih =>
    intro j hj
    rw [contentTo] at hj
    cases hnode : tree.node? i with
    | none =>
      rw [hnode] at hj
      obtain rfl := mem_singleton.mp hj
      exact hi
    | some node =>
      rw [hnode] at hj
      cases node with
      | element el =>
        simp only [Content.outline_element, mem_cons, mem_append, mem_flatMap,
          List.mem_map] at hj
        rcases hj with rfl | ⟨-, ⟨c, hc, rfl⟩, hj⟩ | ⟨-, ⟨b, hb, rfl⟩, hj⟩
        · exact hi
        · exact ih (.child hi hnode hc) j hj
        · exact ih (.branch hi hnode hb) j hj
      | interpolated t =>
        obtain rfl := mem_singleton.mp hj
        exact hi
      | plain t =>
        obtain rfl := mem_singleton.mp hj
        exact hi

section

variable {j : NodeId} {ledger : Ledger} {tree : Tree} {opened : List NodeId}

section

variable (h : tree.Sound ledger opened [])
include h

/-- The seat of a node that is reached without entering a slot. -/
theorem Sound.seat_of_outer (hj : tree.Outer j) :
    ledger.seat j = .free ∨
      ∃ i, tree.Outer i ∧ (ledger.seat j = .child i ∨ ledger.seat j = .branch i) := by
  cases hj with
  | root hr => exact .inl (h.outside.root j hr).1
  | @child i _ el hi hel hc =>
    have hown := h.shapes i el.shape (shape?_of_element? (element?_of_node? hel))
    rcases hown.child_seat j hc with hseat | ⟨hloose, -⟩
    · exact .inr ⟨i, hi, .inl hseat⟩
    · cases hloose
  | @branch i b el hi hel hb =>
    have hown := h.shapes i el.shape (shape?_of_element? (element?_of_node? hel))
    exact .inr ⟨i, hi, .inr (hown.block b.block (List.mem_map_of_mem hb)).1⟩

/-- The content of a slot is not reached otherwise. -/
theorem Sound.not_outer_of_slot {i v : NodeId} {el : Element}
    (hel : tree.node? i = some (.element el)) (hv : v ∈ el.scopedSlots.values) :
    ¬ tree.Outer v := by
  intro houter
  have hown := h.shapes i el.shape (shape?_of_element? (element?_of_node? hel))
  have hseat := (hown.slot v hv).1
  rcases h.seat_of_outer houter with hfree | ⟨j, -, hchild | hbranch⟩
  · rw [hseat] at hfree
    cases hfree
  · rw [hseat] at hchild
    cases hchild
  · rw [hseat] at hbranch
    cases hbranch

/-- What is held inside a slot is not reached otherwise. -/
theorem Sound.not_outer_of_held {i c : NodeId} (hi : ¬ tree.Outer i) (hc : tree.Holds i c) :
    ¬ tree.Outer c := by
  intro houter
  obtain ⟨s, hs, hheld⟩ := hc.shape?
  obtain ⟨-, -, hseat⟩ := (h.shapes i s hs).held_cases hheld
  rcases h.seat_of_outer houter with hfree | ⟨j, hj, hother⟩
  · exact (h.shapes i s hs).seat_ne_free hheld hfree
  · have hij : j = i := by
      rcases hseat with hseat | hseat | hseat <;> rcases hother with hother | hother <;>
        rw [hseat] at hother <;> cases hother <;> rfl
    exact hi (hij ▸ hj)

theorem Sound.root_lt {r : NodeId} (hr : tree.root = some r) :
    r < tree.nodes.size := by
  obtain ⟨-, -, -, s, hs⟩ := h.outside.root r hr
  exact lt_size_of_shape? hs

end

/-! ## Marking -/

/-- What the marked tree is made of. -/
theorem marked_eq (options : Options) {r : NodeId} (hr : tree.root = some r) :
    ∃ c, Content.Remarked (tree.content r) c ∧ tree.marked options = tree.store c := by
  refine ⟨_, (Static.remarked_markNodes options tree _).trans (Static.remarked_markRoots false _),
        ?_⟩
  rw [marked, rootContent?, hr]
  rfl

@[simp] theorem root_marked (options : Options) : (tree.marked options).root = tree.root := by
  rw [marked]
  split
  · rw [store, root_foldl_set]
  · rfl

section

variable (h : tree.Sound ledger opened []) (options : Options)
include h

/-- Marking changes nothing but marks. -/
theorem Sound.unmarked_marked :
    (tree.marked options).unmarked = tree.unmarked := by
  obtain ⟨height, hground⟩ := h.exists_grounded
  cases hroot : tree.root with
  | none => rw [marked, rootContent?, hroot, Option.map_none]
  | some r =>
    have hr := h.root_lt hroot
    obtain ⟨c, hc, hmarked⟩ := marked_eq options hroot
    rw [hmarked, store]
    apply unmarked_foldl_set
    intro e he n hn
    have hmem : (e.1, e.2.unmarked) ∈ c.unmarked.nodes := by
      rw [Content.nodes_unmarked]
      exact List.mem_map_of_mem he
    rw [hc.unmarked, Content.nodes_unmarked, List.mem_map] at hmem
    obtain ⟨f, hf, heq⟩ := hmem
    have hnode := hground.node?_of_mem_nodes hr (hground.bounded r hr) f hf
    obtain ⟨hid, hvalue⟩ := Prod.mk.inj heq
    rw [node?_unmarked, ← hid, hnode, Option.map_some] at hn
    exact (Option.some.inj hn).symm.trans hvalue

/-- Marks are only set outside of slots. -/
theorem Sound.node?_marked (hj : ¬ tree.Outer j) :
    (tree.marked options).node? j = tree.node? j := by
  obtain ⟨height, hground⟩ := h.exists_grounded
  cases hroot : tree.root with
  | none => rw [marked, rootContent?, hroot, Option.map_none]
  | some r =>
    have hr := h.root_lt hroot
    obtain ⟨c, hc, hmarked⟩ := marked_eq options hroot
    rw [hmarked, store]
    apply node?_foldl_set
    rintro e he rfl
    rcases hc.nodes e he with he | he
    · exact hground.node?_of_mem_nodes hr (hground.bounded r hr) e he
    · exact absurd (Outer.of_mem_outline (.root hroot) e.1 he) hj

/-- The contents of slots keep their marks. -/
theorem Sound.contentTo_marked {n : Nat} (hj : ¬ tree.Outer j) :
    (tree.marked options).contentTo n j = tree.contentTo n j := by
  induction n generalizing j with
  | zero => rfl
  | succ n ih =>
    exact contentTo_congr (h.node?_marked options hj) fun c hc => ih (h.not_outer_of_held hj hc)

end

end

end Tree

end ViewTemplate
