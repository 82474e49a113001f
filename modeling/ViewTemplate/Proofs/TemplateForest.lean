import Mathlib.Data.List.Nodup
import Mathlib.Logic.Relation
import ViewTemplate.Proofs.ForestBuilding
import ViewTemplate.Proofs.OpenElements
import ViewTemplate.Proofs.SourceCoverage

/-! # The tree of a template is a forest

Whatever the template, the nodes of its tree link to each other as a forest does: no node is held
twice, no chain of links comes back to its start, and children follow each other in the table as in
the source.
-/

open List Option

namespace ViewTemplate

open Element

namespace Tree

variable {later tree : Tree}

/-- Where a node starts in the source. -/
def start? (tree : Tree) (id : NodeId) : Option Nat :=
  ((tree.node? id).bind Node.range).map Range.start

/-- All nodes but containers have a start, later ones have later starts, and all starts lie before a
bound. -/
structure Dated (ledger : Ledger) (tree : Tree) (bound : Nat) : Prop where
  starts : ∀ j, j < tree.nodes.size → ((tree.start? j).isSome ↔ ledger.rank j = 2 * j)
  ordered : ∀ j k m n, j < k → tree.start? j = some m → tree.start? k = some n → m < n
  bounded : ∀ j m, tree.start? j = some m → m < bound

/-- The start of a node, as it is seen. -/
def startSeen : Node ⊕ Option Nat → Option Nat
  | .inl node => node.range.map Range.start
  | .inr start => start

theorem start?_eq (tree : Tree) (id : NodeId) :
    tree.start? id = ((tree.node? id).map (Node.seen Identity.start)).bind startSeen := by
  rw [start?]
  cases tree.node? id with
  | none => rfl
  | some node => cases node <;> rfl

theorem lt_size_of_start? {id : NodeId} {start : Nat} (h : tree.start? id = some start) :
    id < tree.nodes.size := by
  rw [start?] at h
  cases hnode : tree.node? id with
  | none =>
    rw [hnode] at h
    cases h
  | some node => exact lt_size_of_node? hnode

theorem Keeps.start? {fresh : Node ⊕ Option Nat → Prop}
    (h : Keeps Identity.start fresh tree later) {j : NodeId} (hj : j < tree.nodes.size) :
    later.start? j = tree.start? j := by
  rw [start?_eq, start?_eq, h.seen j hj]

theorem start?_add (tree : Tree) (node : Node) :
    (tree.add node).2.start? tree.nodes.size = node.range.map Range.start := by
  rw [Tree.start?, node?_add, if_pos rfl]
  rfl

/-- A change that keeps the starts and adds nothing but containers. -/
theorem Dated.carry {ledger ledger' : Ledger} {bound : Nat} (h : tree.Dated ledger bound)
    (hkeeps : Keeps Identity.start (· = .inr none) tree later)
    (hrank : ∀ c, c < tree.nodes.size → ledger'.rank c = ledger.rank c)
    (hnew : ∀ c, tree.nodes.size ≤ c → c < later.nodes.size → ledger'.rank c ≠ 2 * c) :
    later.Dated ledger' bound := by
  have hold (j : NodeId) (hj : j < tree.nodes.size) : later.start? j = tree.start? j :=
    hkeeps.start? hj
  have hnone (j m : Nat) (hj : later.start? j = some m) : j < tree.nodes.size := by
    apply Classical.byContradiction
    intro hge
    rw [start?_eq] at hj
    cases hnode : later.node? j with
    | none =>
      rw [hnode] at hj
      cases hj
    | some node =>
      rw [hnode, map_some, hkeeps.added j node (Nat.le_of_not_lt hge) hnode] at hj
      cases hj
  refine ⟨?_, ?_, ?_⟩
  · intro j hj
    by_cases hlt : j < tree.nodes.size
    · rw [hold j hlt, hrank j hlt]
      exact h.starts j hlt
    · refine iff_of_false ?_ (hnew j (Nat.le_of_not_lt hlt) hj)
      intro hsome
      obtain ⟨m, hm⟩ := isSome_iff_exists.mp hsome
      exact hlt (hnone j m hm)
  · intro j k m n hjk hj hk
    rw [hold j (hnone j m hj)] at hj
    rw [hold k (hnone k n hk)] at hk
    exact h.ordered j k m n hjk hj hk
  · intro j m hj
    rw [hold j (hnone j m hj)] at hj
    exact h.bounded j m hj

/-- A new node that starts after all others. -/
theorem Dated.add {ledger : Ledger} {bound start : Nat} {seat : Seat} (h : tree.Dated ledger bound)
    (hbound : bound ≤ start) (hsize : later.nodes.size = tree.nodes.size + 1)
    (hold : ∀ j, j < tree.nodes.size → later.start? j = tree.start? j)
    (hnew : later.start? tree.nodes.size = some start) :
    later.Dated (ledger.put tree.nodes.size seat (2 * tree.nodes.size)) (start + 1) := by
  have hcases (j m : Nat) (hj : later.start? j = some m) :
      j < tree.nodes.size ∧ m < bound ∨ j = tree.nodes.size ∧ m = start := by
    have hj' := lt_size_of_start? hj
    rw [hsize] at hj'
    rcases Nat.lt_or_eq_of_le (Nat.le_of_lt_succ hj') with hlt | rfl
    · rw [hold j hlt] at hj
      exact .inl ⟨hlt, h.bounded j m hj⟩
    · rw [hnew] at hj
      exact .inr ⟨rfl, (Option.some.inj hj).symm⟩
  refine ⟨?_, ?_, ?_⟩
  · intro j hj
    rcases Nat.lt_or_eq_of_le (Nat.le_of_lt_succ (Nat.lt_of_lt_of_eq hj hsize)) with hlt | rfl
    · have hrank : (ledger.put tree.nodes.size seat (2 * tree.nodes.size)).rank j = ledger.rank j :=
        if_neg (Nat.ne_of_lt hlt)
      rw [hold j hlt, hrank]
      exact h.starts j hlt
    · rw [hnew]
      exact iff_of_true rfl (if_pos rfl)
  · intro j k m n hjk hj hk
    rcases hcases j m hj with ⟨hlt, hm⟩ | ⟨rfl, rfl⟩
    · rcases hcases k n hk with ⟨hlt', hn⟩ | ⟨rfl, rfl⟩
      · rw [hold j hlt] at hj
        rw [hold k hlt'] at hk
        exact h.ordered j k m n hjk hj hk
      · exact Nat.lt_of_lt_of_le hm hbound
    · rcases hcases k n hk with ⟨hlt', hn⟩ | ⟨rfl, rfl⟩
      · exact absurd hjk (Nat.lt_asymm hlt')
      · exact absurd hjk (Nat.lt_irrefl _)
  · intro j m hj
    rcases hcases j m hj with ⟨-, hm⟩ | ⟨-, rfl⟩
    · exact Nat.lt_succ_of_lt (Nat.lt_of_lt_of_le hm hbound)
    · exact Nat.lt_succ_self _

end Tree

/-- Where an element starts in the source. -/
def Element.start? (el : Element) : Option Nat := el.range.map Range.start

namespace Builder

open ViewTemplate.Tree

variable {b : Builder} {bound : Nat} {options : Options} {template : String}

/-- The tree under construction is a forest with the open elements outside. If extensions leave the
starts of elements alone, its nodes start one after the other and before a bound. -/
def Planted (options : Options) (b : Builder) (bound : Nat) : Prop :=
  ∃ ledger, b.tree.Sound ledger b.stack b.stack ∧
    ((∀ x ∈ options.extensions, x.Keeps Element.start?) → b.tree.Dated ledger bound)

theorem planted_appendNode {later : Builder} {range : Range} {id : NodeId} {node : Node}
    (h : b.Planted options bound) (hbound : bound ≤ range.start) (hid : b.parent? = some id)
    (hnode : node.IsNewText range) (htree : later.tree = appendNode id node b.tree)
    (hstack : later.stack = b.stack) : later.Planted options (range.start + 1) := by
  obtain ⟨ledger, hsound, hdated⟩ := h
  refine ⟨ledger.put b.tree.nodes.size (.child id) (2 * b.tree.nodes.size), ?_, ?_⟩
  · rw [htree, hstack]
    obtain ⟨rest, hb⟩ : ∃ rest, b.stack = id :: rest := head?_eq_some_iff.mp hid
    rw [hb] at hsound ⊢
    exact sound_appendNode hsound hnode.element?
  · intro hkeeps
    have happend : Keeps Identity.start (fun _ => True) b.tree later.tree := by
      rw [htree]
      exact keeps_appendNode id trivial b.tree
    have hupdate : Keeps Identity.start (fun _ => True) (b.tree.add node).2
        later.tree := by
      rw [htree]
      exact .update id _ fun _ => rfl
    refine (hdated hkeeps).add hbound ?_ (fun j hj => happend.start? hj) ?_
    · rw [htree]
      exact (size_update ..).trans (size_add ..)
    · rw [hupdate.start? (by rw [size_add]; exact Nat.lt_succ_self _), start?_add, hnode.range]
      rfl

theorem Planted.mono {later : Nat} (h : b.Planted options bound) (hle : bound ≤ later) :
    b.Planted options later := by
  obtain ⟨ledger, hsound, hdated⟩ := h
  refine ⟨ledger, hsound, ?_⟩
  intro hkeeps
  exact { hdated hkeeps with
    bounded := fun j m hj => Nat.lt_of_lt_of_le ((hdated hkeeps).bounded j m hj) hle }

/-- An element goes into the tree with the start of its tag. -/
theorem start?_entered (hkeeps : ∀ x ∈ options.extensions, x.Keeps Element.start?) (tag : String)
    (attributes : List Attribute) (range : Range) (b : Builder) :
    (b.entered options tag attributes range).start? = some range.start := by
  have hframe := congrArg (fun f => f.range.map Range.start)
    (frame_enter options (b.newElement options tag attributes range).value b)
  exact hframe.trans (newElement_keeps Element.start? (fun x hx => (hkeeps x hx).atStart) tag
    attributes range b)

section Hooks

variable {b : Builder} {bound : Nat} (hlinks : ∀ x ∈ options.extensions, x.KeepsLinks)
include hlinks

theorem planted_close {id : NodeId} {ledger : Ledger}
    (hsound : b.tree.Sound ledger (id :: b.stack) (id :: b.stack))
    (hdated : (∀ x ∈ options.extensions, x.Keeps Element.start?) → b.tree.Dated ledger bound) :
    (b.close options id).value.Planted options bound := by
  obtain ⟨-, ledger', hsound', hrank, hnew⟩ := continues_close hlinks hsound
  refine ⟨ledger', ?_, ?_⟩
  · rw [stack_close]
    exact hsound'
  · intro hkeeps
    refine (hdated hkeeps).carry (keeps_close hkeeps ?_ id b) hrank hnew
    rfl

theorem planted_opened (h : b.Planted options bound) (tag : String) (attributes : List Attribute)
    {range : Range} (hbound : bound ≤ range.start) :
    ({ b.opened options tag attributes range with
      stack := b.tree.nodes.size :: b.stack } : Builder).Planted options (range.start + 1) := by
  obtain ⟨ledger, hsound, hdated⟩ := h
  refine ⟨_, sound_opened hlinks hsound tag attributes range, fun hkeeps => ?_⟩
  have hnodes := nodes_opened options tag attributes range b
  have hstart (j : NodeId) : (b.opened options tag attributes range).tree.start? j =
      (b.tree.add (.element (b.entered options tag attributes range))).2.start? j := by
    rw [Tree.start?, Tree.start?, node?, node?, hnodes]
  have hadd : Keeps Identity.start (fun _ => True) b.tree
      (b.tree.add (.element (b.entered options tag attributes range))).2 := .add trivial
  refine (hdated hkeeps).add hbound ?_ ?_ ?_
  · show (b.opened options tag attributes range).tree.nodes.size = _
    rw [hnodes]
    exact size_add ..
  · intro j hj
    exact (hstart j).trans (hadd.start? hj)
  · rw [hstart, start?_add]
    exact start?_entered hkeeps tag attributes range b

/-- One event keeps the tree planted. -/
theorem planted_step (h : b.Planted options bound) (e : Event)
    (hbound : e.bringsNode = true → bound ≤ e.range.start) :
    (b.step options template e).value.Planted options
      (if e.bringsNode then e.range.start + 1 else bound) := by
  have hsteps := steps_step options template b e
  generalize (b.step options template e).value = later at hsteps ⊢
  cases hsteps with
  | opens tag attributes range => exact planted_opened hlinks h tag attributes (hbound rfl)
  | closes hclosing =>
    cases hclosing with
    | unary tag attributes range =>
      obtain ⟨ledger, hsound, hdated⟩ := planted_opened hlinks h tag attributes (hbound rfl)
      rw [← stack_opened options tag attributes range b] at hsound
      exact planted_close hlinks hsound hdated
    | finish tag range hstack =>
      obtain ⟨ledger, hsound, hdated⟩ := h
      rw [hstack] at hsound
      refine planted_close hlinks (hsound.update _ ?_) ?_
      · intro el _
        exact ⟨el.children, Sublist.refl _, rfl⟩
      · intro hkeeps
        refine (hdated hkeeps).carry (.update _ _ ?_) (fun _ _ => rfl) ?_
        · intro el
          show (el.range.map _).map Range.start = el.range.map Range.start
          cases el.range <;> rfl
        · intro c hc hlt
          rw [Builder.withTree, size_update] at hlt
          exact absurd hlt (Nat.not_lt.mpr hc)
  | appends he hid hnode _ htree hstack =>
    rcases he with rfl | rfl
    · exact planted_appendNode h (hbound rfl) hid hnode htree hstack
    · exact planted_appendNode h (hbound rfl) hid hnode htree hstack
  | stays _ _ htree hstack =>
    have hsame : later.Planted options bound := by
      rw [Planted, htree, hstack]
      exact h
    split
    · rename_i hbrings
      exact hsame.mono (Nat.le_succ_of_le (hbound hbrings))
    · exact hsame

/-- Events that bring nodes from ever later places keep the tree planted. -/
theorem planted_foldlM (h : b.Planted options bound) (events : List Event)
    (hbound : ∀ e ∈ events, e.bringsNode = true → bound ≤ e.range.start)
    (hordered : (events.filter Event.bringsNode).Pairwise fun e f =>
      e.range.start < f.range.start) :
    ∃ bound, (events.foldlM (step options template) b).value.Planted options bound := by
  induction events generalizing b bound with
  | nil => exact ⟨bound, h⟩
  | cons e events ih =>
    rw [foldlM_cons, Reported.value_bind]
    have hstep : (b.step options template e).value.Planted options
        (if e.bringsNode then e.range.start + 1 else bound) :=
      planted_step hlinks h e (hbound e mem_cons_self)
    refine ih hstep ?_ ?_
    · intro f hf hb
      split
      · rename_i he
        rw [filter_cons, if_pos he, pairwise_cons] at hordered
        exact hordered.1 f (mem_filter.mpr ⟨hf, hb⟩)
      · exact hbound f (mem_cons_of_mem e hf) hb
    · exact hordered.sublist ((sublist_cons_self e events).filter _)

end Hooks

end Builder

/-- The numbers of the nodes that a node holds: children, contents of slots and later branches. -/
def Node.held : Node → List NodeId
  | .element el => el.children ++ el.scopedSlots.values ++ el.otherBranches.map Branch.block
  | _ => []

namespace Tree

variable {i : NodeId} {tree : Tree}

def Holds (tree : Tree) (i c : NodeId) : Prop := ∃ node, tree.node? i = some node ∧ c ∈ node.held

def HasParent (tree : Tree) (i p : NodeId) : Prop :=
  ∃ el, tree.element? i = some el ∧ el.parent = some p

/-- The links of a tree form a forest. -/
structure Forest (tree : Tree) : Prop where
  children_lt : ∀ i el, tree.element? i = some el → ∀ c ∈ el.children, c < tree.nodes.size
  slot_element : ∀ i el, tree.element? i = some el → ∀ v ∈ el.scopedSlots.values,
    tree.isElement v = true
  branch_element : ∀ i el, tree.element? i = some el → ∀ b ∈ el.branches i,
    tree.isElement b.block = true
  root_element : ∀ r, tree.root = some r → tree.isElement r = true
  branches_first : ∀ i el, tree.element? i = some el →
    (el.branches i).head? = el.choice.map fun c => ⟨some c.guard, i⟩
  branches_later : ∀ i el, tree.element? i = some el → (el.branches i).tail = el.otherBranches
  held_nodup : (tree.nodes.toList.flatMap Node.held).Nodup
  root_not_held : ∀ r, tree.root = some r → r ∉ tree.nodes.toList.flatMap Node.held
  children_sorted : ∀ i el, tree.element? i = some el → el.children.Pairwise (· < ·)
  child_parent : ∀ i el, tree.element? i = some el → ∀ c ∈ el.children, ∀ child,
    tree.element? c = some child → child.parent = some i
  slot_parent : ∀ i el, tree.element? i = some el → ∀ v ∈ el.scopedSlots.values, ∀ content,
    tree.element? v = some content → content.parent = some i
  acyclic : ∀ i, ¬ Relation.TransGen tree.Holds i i
  acyclic_parent : ∀ i, ¬ Relation.TransGen tree.HasParent i i

theorem isElement_of_shape? {s : Shape} (h : tree.shape? i = some s) : tree.isElement i = true := by
  obtain ⟨el, hel, -⟩ := map_eq_some_iff.mp h
  rw [isElement, hel]
  rfl

theorem Holds.shape? {c : NodeId} (h : tree.Holds i c) :
    ∃ s, tree.shape? i = some s ∧ c ∈ s.held := by
  obtain ⟨node, hnode, hc⟩ := h
  cases node with
  | element el => exact ⟨el.shape, shape?_of_element? (element?_of_node? hnode), hc⟩
  | interpolated t => cases hc
  | plain t => cases hc

section

variable {c i : NodeId} {ledger : Ledger} {tree : Tree} {opened : List NodeId}

/-- A node that is settled holds each other node at most once. -/
theorem Sound.held_nodup {s : Shape} (h : s.Sound ledger tree [] i) : s.held.Nodup := by
  have hchild {c : NodeId} (hc : c ∈ s.children) : ledger.seat c = .child i := by
    rcases h.child_seat c hc with hseat | ⟨hloose, -⟩
    · exact hseat
    · cases hloose
  rw [Shape.held, nodup_append, nodup_append]
  refine ⟨⟨?_, h.slots_nodup, ?_⟩, h.blocks_nodup, ?_⟩
  · exact h.sorted.imp fun hlt => Nat.ne_of_lt hlt
  · rintro c hc v hv rfl
    have hseat := hchild hc
    rw [(h.slot c hv).1] at hseat
    cases hseat
  · rintro c hc b hb rfl
    have hseat := (h.block c hb).1
    rcases mem_append.mp hc with hc | hc
    · rw [hchild hc] at hseat
      cases hseat
    · rw [(h.slot c hc).1] at hseat
      cases hseat

theorem Sound.owner_unique (h : tree.Sound ledger opened []) {j : NodeId} (hi : tree.Holds i c)
    (hj : tree.Holds j c) : i = j := by
  obtain ⟨s, hs, hc⟩ := hi.shape?
  obtain ⟨t, ht, hc'⟩ := hj.shape?
  rcases ((h.shapes i s hs).held_cases hc).2.2 with hseat | hseat | hseat <;>
    rcases ((h.shapes j t ht).held_cases hc').2.2 with hseat' | hseat' | hseat' <;>
    rw [hseat] at hseat' <;> cases hseat' <;> rfl

theorem Sound.rank_lt (h : tree.Sound ledger opened []) (hi : tree.Holds i c) :
    ledger.rank i < ledger.rank c := by
  obtain ⟨s, hs, hc⟩ := hi.shape?
  exact ((h.shapes i s hs).held_cases hc).2.1

theorem mem_flatMap_held : c ∈ tree.nodes.toList.flatMap Node.held ↔ ∃ i, tree.Holds i c := by
  rw [mem_flatMap]
  constructor
  · rintro ⟨node, hnode, hc⟩
    obtain ⟨i, hi⟩ := Array.mem_iff_getElem?.mp (Array.mem_toList_iff.mp hnode)
    exact ⟨i, node, hi, hc⟩
  · rintro ⟨i, node, hi, hc⟩
    exact ⟨node, Array.mem_toList_iff.mpr (Array.mem_iff_getElem?.mpr ⟨i, hi⟩), hc⟩

theorem Sound.nodup_flatMap_held (h : tree.Sound ledger opened []) :
    (tree.nodes.toList.flatMap Node.held).Nodup := by
  have hholds {i : Nat} {c : NodeId} (hi : i < tree.nodes.toList.length)
      (hc : c ∈ tree.nodes.toList[i].held) : tree.Holds i c :=
    ⟨tree.nodes.toList[i], by rw [node?, ← Array.getElem?_toList, getElem?_eq_getElem hi], hc⟩
  rw [nodup_flatMap, pairwise_iff_getElem]
  refine ⟨?_, ?_⟩
  · intro node hnode
    obtain ⟨i, hi⟩ := Array.mem_iff_getElem?.mp (Array.mem_toList_iff.mp hnode)
    cases node with
    | element el =>
      exact Sound.held_nodup (h.shapes i el.shape (shape?_of_element? (element?_of_node? hi)))
    | interpolated t => exact nodup_nil
    | plain t => exact nodup_nil
  · intro i j hi hj hij c hc hc'
    exact Nat.ne_of_lt hij (h.owner_unique (hholds hi hc) (hholds hj hc'))

/-- A relation along which ranks grow has no cycles. -/
theorem not_transGen_self {r : NodeId → NodeId → Prop} (rank : NodeId → Nat)
    (h : ∀ i j, r i j → rank i < rank j) (i : NodeId) : ¬ Relation.TransGen r i i := by
  intro hcycle
  have hlt {j : NodeId} (hj : Relation.TransGen r i j) : rank i < rank j := by
    induction hj with
    | single hij => exact h _ _ hij
    | tail _ hjk ih => exact Nat.lt_trans ih (h _ _ hjk)
  exact Nat.lt_irrefl _ (hlt hcycle)

/-- A table in which everything is settled is a forest. -/
theorem Sound.forest (h : tree.Sound ledger opened []) : tree.Forest := by
  have hown {i : NodeId} {el : Element} (hel : tree.element? i = some el) :
      el.shape.Sound ledger tree [] i := h.shapes i el.shape (shape?_of_element? hel)
  refine ⟨?_, ?_, ?_, ?_, ?_, ?_, h.nodup_flatMap_held, ?_, ?_, ?_, ?_, ?_, ?_⟩
  · intro i el hel
    exact (hown hel).child_lt
  · intro i el hel v hv
    obtain ⟨-, -, t, ht, -⟩ := (hown hel).slot v hv
    exact isElement_of_shape? ht
  · intro i el hel b hb
    have hself := isElement_of_shape? (shape?_of_element? hel)
    rw [branches] at hb
    split at hb
    · rename_i c hc
      rcases mem_cons.mp hb with rfl | hb
      · exact hself
      · have hblock : b.block ∈ el.shape.blocks := by
          refine List.mem_map_of_mem ?_
          rw [otherBranches, hc]
          exact hb
        obtain ⟨-, -, t, ht⟩ := (hown hel).block b.block hblock
        exact isElement_of_shape? ht
    · cases hb
  · intro r hr
    obtain ⟨-, -, -, t, ht⟩ := h.outside.root r hr
    exact isElement_of_shape? ht
  · intro i el _
    rw [branches]
    cases el.choice <;> rfl
  · intro i el _
    rw [branches, otherBranches]
    cases el.choice <;> rfl
  · intro r hr hmem
    obtain ⟨i, hi⟩ := mem_flatMap_held.mp hmem
    obtain ⟨s, hs, hc⟩ := hi.shape?
    exact (h.shapes i s hs).seat_ne_free hc (h.outside.root r hr).1
  · intro i el hel
    exact (hown hel).sorted
  · intro i el hel c hc child hchild
    exact (hown hel).child_parent c hc child.shape (shape?_of_element? hchild)
  · intro i el hel v hv content hcontent
    obtain ⟨-, -, t, ht, hparent⟩ := (hown hel).slot v hv
    rw [shape?_of_element? hcontent] at ht
    cases ht
    exact hparent
  · exact not_transGen_self ledger.rank fun i c hi => h.rank_lt hi
  · intro i hcycle
    refine not_transGen_self ledger.rank ?_ i (Relation.transGen_swap.mpr hcycle)
    rintro p j ⟨el, hel, hparent⟩
    exact ((hown hel).parent p hparent).1

end

/-- Children start one after the other in the source. -/
theorem Sound.children_starts {ledger : Ledger} {opened loose : List NodeId} {bound : Nat}
    (h : tree.Sound ledger opened loose) (hdated : tree.Dated ledger bound) {el : Element}
    (hel : tree.element? i = some el) :
    el.children.Pairwise fun c d =>
      ∃ m n, tree.start? c = some m ∧ tree.start? d = some n ∧ m < n := by
  have hown := h.shapes i el.shape (shape?_of_element? hel)
  have hstart {c : NodeId} (hc : c ∈ el.children) : ∃ m, tree.start? c = some m :=
    isSome_iff_exists.mp
      ((hdated.starts c (hown.child_lt c hc)).mpr (hown.child_rank c hc).1)
  refine hown.sorted.imp_of_mem ?_
  intro c d hc hd hcd
  obtain ⟨m, hm⟩ := hstart hc
  obtain ⟨n, hn⟩ := hstart hd
  exact ⟨m, n, hm, hn, hdated.ordered c d m n hcd hm hn⟩

/-- A tree without nodes. -/
theorem sound_empty : ({} : Tree).Sound ⟨fun _ => .free, fun j => 2 * j⟩ [] [] := by
  refine ⟨?_, ⟨?_, List.Pairwise.nil, ?_, fun _ => rfl, ?_, ?_⟩⟩
  · intro i s hs
    exact absurd (lt_size_of_shape? hs) (Nat.not_lt_zero i)
  · intro j hj
    cases hj
  · intro r hr
    cases hr
  · intro k j s hj
    cases hj
  · intro r s hr
    cases hr

/-- The tree of a template has been planted, and nothing is open any more. -/
theorem exists_sound_ofTemplate {options : Options}
    (hlinks : ∀ x ∈ options.extensions, x.KeepsLinks) (template : String) :
    ∃ ledger, (ofTemplate options template).value.Sound ledger [] [] ∧
      ((∀ x ∈ options.extensions, x.Keeps Element.start?) →
        ∃ bound, (ofTemplate options template).value.Dated ledger bound) := by
  have hstart : ({} : Builder).Planted options 0 := by
    refine ⟨_, sound_empty, fun _ => ⟨?_, ?_, ?_⟩⟩
    · intro j hj
      exact absurd hj (Nat.not_lt_zero j)
    · intro j k m n _ hj
      exact absurd (lt_size_of_start? hj) (Nat.not_lt_zero j)
    · intro j m hj
      exact absurd (lt_size_of_start? hj) (Nat.not_lt_zero j)
  obtain ⟨bound, ledger, hsound, hdated⟩ := Builder.planted_foldlM hlinks hstart
    (Markup.events (markupSettings options) template) (fun _ _ _ => Nat.zero_le _)
    (Markup.starts_ordered (markupSettings options) template)
  have hempty := Builder.stack_after_events options template
  rw [Builder.after] at hempty
  rw [hempty] at hsound
  exact ⟨ledger, hsound, fun hkeeps => ⟨bound, hdated hkeeps⟩⟩

end Tree

end ViewTemplate
