import ViewTemplate.Proofs.Closings
import ViewTemplate.Proofs.ElementTies
import ViewTemplate.Proofs.VerbatimMode

/-! # How choices are put together

Branches join choices one by one, when they close. The tree under construction has, at any time, the
choices that the order of the closed elements gives; texts and comments between them do not matter.
-/

open Option
open List hiding beq_eq_decide

namespace ViewTemplate

open Closing

namespace Tree

/-- A tree under construction and the elements that have closed so far. Open elements have as child
elements those that have become their children. The element in hand is no longer open and has not got
its place yet. -/
structure Assembled (closed : List Closing) (hand opened : List NodeId) (tree : Tree) : Prop where
  children : ∀ p ∈ opened, ∃ children, tree.aspect? Element.children p = some children ∧
    (∀ c ∈ children, c < tree.nodes.size) ∧
    children.filter tree.isElement = (closed.filter (isChildOf p)).map Closing.id
  unjoined : ∀ p ∈ hand ++ opened, ∃ choice, tree.aspect? Element.choice p = some choice ∧
    ∀ c ∈ choice, c.others = []
  joined : ∀ earlier c later, closed = earlier ++ c :: later →
    (∀ choice ∈ c.el.choice, choice.others = []) ∧
    tree.aspect? Element.choice c.id = some (c.el.choice.map fun choice =>
      { choice with others := (joining earlier c later).map branch })
  others : ∀ j choice, tree.aspect? Element.choice j = some choice → j ∉ hand ++ opened →
    j ∉ closed.map Closing.id → choice = none
  distinct : (hand ++ opened ++ closed.map Closing.id).Nodup
  parents : ∀ c ∈ closed, ∀ p ∈ c.parent, p < tree.nodes.size
  root : ∀ r, tree.root = some r →
    (hand ++ opened).getLast? = some r ∧ closed.find? isOutside = none ∨
      ∃ c, closed.find? isOutside = some c ∧ c.id = r
  rootless : tree.root = none → hand ++ opened = [] ∧ closed = []

namespace Assembled

variable {id : NodeId} {closed : List Closing} {hand opened : List NodeId} {tree later : Tree}

theorem lt_size_of_aspect {β : Type} {g : Element → β} {j : NodeId} {x : β}
    (h : tree.aspect? g j = some x) : j < tree.nodes.size := by
  obtain ⟨el, hel, -⟩ := map_eq_some_iff.mp h
  exact lt_size_of_element? hel

/-- Nothing changes where all choices stay and open elements keep their child elements. -/
theorem keepsChoices (h : tree.Assembled closed hand opened) (hkeeps : KeepsChoices tree later)
    (hchildren : ∀ p ∈ opened, ∀ children, tree.aspect? Element.children p = some children →
      (∀ c ∈ children, c < tree.nodes.size) →
      ∃ children', later.aspect? Element.children p = some children' ∧
        (∀ c ∈ children', c < later.nodes.size) ∧
        children'.filter later.isElement = children.filter tree.isElement) :
    later.Assembled closed hand opened where
  children p hp := by
    obtain ⟨children, hold, hlt, hclosed⟩ := h.children p hp
    obtain ⟨children', hnew, hlt', hsame⟩ := hchildren p hp children hold hlt
    exact ⟨children', hnew, hlt', hsame.trans hclosed⟩
  unjoined p hp := by
    obtain ⟨choice, hchoice, hothers⟩ := h.unjoined p hp
    exact ⟨choice, (hkeeps.choice p (lt_size_of_aspect hchoice)).trans hchoice, hothers⟩
  joined earlier c rest hsplit := by
    obtain ⟨hothers, hchoice⟩ := h.joined earlier c rest hsplit
    exact ⟨hothers, (hkeeps.choice c.id (lt_size_of_aspect hchoice)).trans hchoice⟩
  others j choice hchoice hopen hclosed := by
    by_cases hj : j < tree.nodes.size
    · rw [hkeeps.choice j hj] at hchoice
      exact h.others j choice hchoice hopen hclosed
    · exact hkeeps.fresh j choice (Nat.not_lt.mp hj) hchoice
  distinct := h.distinct
  parents c hc p hp := Nat.lt_of_lt_of_le (h.parents c hc p hp) hkeeps.size
  root r hr := h.root r (hkeeps.root ▸ hr)
  rootless hr := h.rootless (hkeeps.root ▸ hr)

theorem keepsTies (h : tree.Assembled closed hand opened) (hkeeps : KeepsTies opened tree later) :
    later.Assembled closed hand opened := by
  refine h.keepsChoices hkeeps.toKeepsChoices fun p hp children hold hlt => ?_
  refine ⟨children, (hkeeps.children p hp).trans hold, fun c hc => ?_, ?_⟩
  · exact Nat.lt_of_lt_of_le (hlt c hc) hkeeps.size
  · exact filter_congr fun c hc => hkeeps.isElement (hlt c hc)

/-- A text that is added to the children of an element. -/
theorem appendNode (h : tree.Assembled closed hand opened) (parent : NodeId) {node : Node}
    (hnode : node.element? = none) :
    (Builder.appendNode parent node tree).Assembled closed hand opened := by
  have hopened : ∀ p ∈ opened, p < tree.nodes.size := by
    intro p hp
    obtain ⟨children, hchildren, -⟩ := h.children p hp
    exact lt_size_of_aspect hchildren
  have hadd : (tree.add node).2.Assembled closed hand opened :=
    h.keepsTies (.add hopened fun el hel => by rw [hnode] at hel; cases hel)
  have htext : (tree.add node).2.isElement tree.nodes.size = false := by
    rw [isElement, element?_add, if_pos rfl, hnode]
    rfl
  have hkeeps : KeepsChoices (tree.add node).2 (Builder.appendNode parent node tree) :=
    .update fun _ => rfl
  refine hadd.keepsChoices hkeeps fun p hp children hold hlt => ?_
  have hnew : (Builder.appendNode parent node tree).aspect? Element.children p =
      some (if p = parent then children ++ [tree.nodes.size] else children) := by
    refine (aspect?_update_map (h := fun children => children ++ [tree.nodes.size]) fun _ => rfl).trans
      ?_
    exact congrArg (Option.map _) hold
  have hlast : tree.nodes.size < (tree.add node).2.nodes.size := by
    rw [size_add]
    exact Nat.lt_succ_self _
  have hall : ∀ c ∈ if p = parent then children ++ [tree.nodes.size] else children,
      c < (tree.add node).2.nodes.size := by
    split
    · exact forall_mem_append.mpr ⟨hlt, forall_mem_singleton.mpr hlast⟩
    · exact hlt
  refine ⟨_, hnew, fun c hc => Nat.lt_of_lt_of_le (hall c hc) hkeeps.size, ?_⟩
  rw [filter_congr fun c hc => hkeeps.isElement (hall c hc)]
  split
  · simp [htext]
  · rfl

/-- A start tag brings an element without a place. -/
theorem opens (h : tree.Assembled closed [] opened) {el : Element}
    (hothers : ∀ c ∈ el.choice, c.others = [])
    (hnodes : later.nodes = (tree.add (.element el)).2.nodes)
    (hroot : later.root = if tree.root.isNone then some tree.nodes.size else tree.root) :
    later.Assembled closed [tree.nodes.size] opened := by
  have haspect {β : Type} (g : Element → β) (j : NodeId) : later.aspect? g j =
      if j = tree.nodes.size then some (g el) else tree.aspect? g j := by
    have hadd : later.aspect? g j = (tree.add (.element el)).2.aspect? g j := by
      rw [aspect?, element?, node?, hnodes]
      rfl
    rw [hadd, aspect?_add]
    rfl
  have hold {β : Type} (g : Element → β) {j : NodeId} (hj : j < tree.nodes.size) :
      later.aspect? g j = tree.aspect? g j := by
    rw [haspect, if_neg (Nat.ne_of_lt hj)]
  have hsize : tree.nodes.size < later.nodes.size := by
    rw [hnodes, size_add]
    exact Nat.lt_succ_self _
  have hopened : ∀ p ∈ opened, p < tree.nodes.size := by
    intro p hp
    obtain ⟨choice, hchoice, -⟩ := h.unjoined p hp
    exact lt_size_of_aspect hchoice
  have hclosed : ∀ c ∈ closed, c.id < tree.nodes.size := by
    intro c hc
    obtain ⟨earlier, rest, hsplit⟩ := append_of_mem hc
    exact lt_size_of_aspect (h.joined earlier c rest hsplit).2
  constructor
  case children =>
    intro p hp
    obtain ⟨children, hchildren, hlt, heq⟩ := h.children p hp
    refine ⟨children, (hold _ (hopened p hp)).trans hchildren, fun c hc => ?_, ?_⟩
    · exact Nat.lt_trans (hlt c hc) hsize
    · rw [← heq]
      refine filter_congr fun c hc => ?_
      rw [← isSome_aspect? (g := Element.choice), hold _ (hlt c hc), isSome_aspect?]
  case unjoined =>
    intro p hp
    rcases mem_cons.mp hp with rfl | hp
    · exact ⟨el.choice, by rw [haspect, if_pos rfl], hothers⟩
    · obtain ⟨choice, hchoice, hothers⟩ := h.unjoined p hp
      exact ⟨choice, (hold _ (hopened p hp)).trans hchoice, hothers⟩
  case joined =>
    intro earlier c rest hsplit
    obtain ⟨hothers, hchoice⟩ := h.joined earlier c rest hsplit
    exact ⟨hothers, (hold _ (lt_size_of_aspect hchoice)).trans hchoice⟩
  case others =>
    intro j choice hchoice hopen hnot
    have hne : j ≠ tree.nodes.size := by
      rintro rfl
      exact hopen mem_cons_self
    rw [haspect, if_neg hne] at hchoice
    exact h.others j choice hchoice (fun hj => hopen (mem_cons_of_mem _ hj)) hnot
  case distinct =>
    refine nodup_cons.mpr ⟨fun hmem => ?_, h.distinct⟩
    rcases mem_append.mp hmem with hmem | hmem
    · exact Nat.lt_irrefl _ (hopened _ hmem)
    · obtain ⟨c, hc, heq⟩ := List.mem_map.mp hmem
      exact Nat.lt_irrefl _ (heq ▸ hclosed c hc)
  case parents => exact fun c hc p hp => Nat.lt_trans (h.parents c hc p hp) hsize
  case root =>
    intro r hr
    rw [hroot] at hr
    cases hold : tree.root with
    | none =>
      rw [hold] at hr
      cases hr
      obtain ⟨hopen, hnone⟩ := h.rootless hold
      have hopen : opened = [] := hopen
      rw [hopen, hnone]
      exact .inl ⟨rfl, rfl⟩
    | some s =>
      rw [hold] at hr
      cases hr
      rcases h.root r hold with ⟨hlast, hfind⟩ | hfind
      · refine .inl ⟨?_, hfind⟩
        cases opened with
        | nil => cases hlast
        | cons p opened => exact hlast
      · exact .inr hfind
  case rootless =>
    intro hr
    rw [hroot] at hr
    cases hold : tree.root with
    | none => rw [hold] at hr; cases hr
    | some s => rw [hold] at hr; cases hr

theorem not_mem_opened (h : tree.Assembled closed [id] opened) : id ∉ opened := by
  obtain ⟨hid, -⟩ := nodup_cons.mp h.distinct
  exact fun hmem => hid (mem_append_left _ hmem)

/-- The element in hand stays open. -/
theorem push (h : tree.Assembled closed [id] opened)
    (hchildren : tree.aspect? Element.children id = some [])
    (hnone : ∀ c ∈ closed, c.parent ≠ some id) : tree.Assembled closed [] (id :: opened) where
  children := by
    refine forall_mem_cons.mpr ⟨⟨[], hchildren, nofun, ?_⟩, h.children⟩
    have hempty : closed.filter (isChildOf id) = [] := by
      rw [filter_eq_nil_iff]
      intro c hc hchild
      exact hnone c hc (parent_of_isIn (isChildOf_iff.mp hchild).1)
    rw [hempty]
    rfl
  unjoined := h.unjoined
  joined := h.joined
  others := h.others
  distinct := h.distinct
  parents := h.parents
  root := h.root
  rootless := h.rootless

/-- The innermost open element is taken in hand. -/
theorem pop (h : tree.Assembled closed [] (id :: opened)) : tree.Assembled closed [id] opened where
  children p hp := h.children p (mem_cons_of_mem id hp)
  unjoined := h.unjoined
  joined := h.joined
  others := h.others
  distinct := h.distinct
  parents := h.parents
  root := h.root
  rootless := h.rootless

/-- The element in hand gets its place: it may become a child of the innermost open element, and it
joins the choice of the element whose choice it is to join. -/
theorem place {el : Element} (h : tree.Assembled closed [id] opened)
    (hel : tree.element? id = some el) (hsize : later.nodes.size = tree.nodes.size)
    (hroot : later.root = tree.root) (holder : Option NodeId)
    (hchoice : ∀ j, later.aspect? Element.choice j =
      (tree.aspect? Element.choice j).map fun choice =>
        if holder = some j then choice.map fun c => { c with others := c.others ++ [⟨el.elseIf, id⟩] }
        else choice) (hclosed : ∀ j, holder = some j → j ∈ closed.map Closing.id)
    (hholder : ∀ earlier c rest, closed = earlier ++ c :: rest →
      (holder = some c.id ↔ joins earlier c rest ⟨opened.head?, id, el⟩ = true))
    (hchildren : ∀ p ∈ opened, ∀ children, tree.aspect? Element.children p = some children →
      (∀ c ∈ children, c < tree.nodes.size) →
      ∃ children', later.aspect? Element.children p = some children' ∧
        (∀ c ∈ children', c < tree.nodes.size) ∧
        children'.filter tree.isElement = children.filter tree.isElement ++
          if isChildOf p ⟨opened.head?, id, el⟩ then [id] else []) :
    later.Assembled (closed ++ [⟨opened.head?, id, el⟩]) [] opened := by
  have hdistinct : (id :: (opened ++ closed.map Closing.id)).Nodup := h.distinct
  obtain ⟨hid, hdistinct⟩ := nodup_cons.mp hdistinct
  have hnotopen : ∀ j, holder = some j → j ∉ [id] ++ opened := by
    intro j hj hmem
    rcases mem_cons.mp hmem with rfl | hmem
    · exact hid (mem_append_right _ (hclosed j hj))
    · exact (nodup_append.mp hdistinct).2.2 j hmem j (hclosed j hj) rfl
  have hkept {j : NodeId} (hj : holder ≠ some j) :
      later.aspect? Element.choice j = tree.aspect? Element.choice j := by
    rw [hchoice, funext fun choice => if_neg hj]
    exact Option.map_id'
  have helement (j : NodeId) : later.isElement j = tree.isElement j := by
    rw [← isSome_aspect? (g := Element.choice), hchoice, isSome_map, isSome_aspect?]
  constructor
  case children =>
    intro p hp
    obtain ⟨children, hold, hlt, heq⟩ := h.children p hp
    obtain ⟨children', hnew, hlt', heq'⟩ := hchildren p hp children hold hlt
    refine ⟨children', hnew, ?_, ?_⟩
    · rw [hsize]
      exact hlt'
    · rw [funext helement, heq', heq, filter_append, map_append, filter_singleton]
      cases isChildOf p ⟨opened.head?, id, el⟩ <;> rfl
  case unjoined =>
    intro p hp
    obtain ⟨choice, hold, hothers⟩ := h.unjoined p (mem_cons_of_mem id hp)
    exact ⟨choice, (hkept fun hj => hnotopen p hj (mem_cons_of_mem id hp)).trans hold, hothers⟩
  case joined =>
    intro earlier c rest hsplit
    rcases eq_nil_or_concat rest with rfl | ⟨rest, last, rfl⟩
    · obtain ⟨rfl, hc⟩ := append_inj' hsplit rfl
      cases hc
      obtain ⟨choice, hold, hothers⟩ := h.unjoined id mem_cons_self
      rw [aspect?_of_element? hel] at hold
      cases hold
      refine ⟨hothers, ?_⟩
      rw [hkept fun hj => hnotopen id hj mem_cons_self, aspect?_of_element? hel,
        joining_nil]
      cases hown : el.choice with
      | none => rfl
      | some choice =>
        have hempty := hothers choice hown
        cases choice
        cases hempty
        rfl
    · rw [concat_eq_append, ← cons_append, ← append_assoc] at hsplit
      obtain ⟨hbefore, hlast⟩ := append_inj' hsplit rfl
      cases hlast
      obtain ⟨hothers, hold⟩ := h.joined earlier c rest hbefore
      refine ⟨hothers, ?_⟩
      rw [hchoice, hold, concat_eq_append, joining_append_singleton, map_some]
      have hjoins := hholder earlier c rest hbefore
      split
      · rename_i hj
        rw [if_pos (hjoins.mp hj), map_append, Option.map_map]
        rfl
      · rename_i hj
        rw [if_neg fun hj' => hj (hjoins.mpr hj'), append_nil]
  case others =>
    intro j choice hnew hopen hnot
    rw [map_append, mem_append, not_or] at hnot
    rw [hkept fun hj => hnot.1 (hclosed j hj)] at hnew
    refine h.others j choice hnew (fun hmem => ?_) hnot.1
    rcases mem_cons.mp hmem with rfl | hmem
    · exact hnot.2 mem_cons_self
    · exact hopen hmem
  case distinct =>
    rw [map_append, nil_append, ← append_assoc]
    exact (nodup_cons.mpr ⟨hid, hdistinct⟩).perm (perm_append_singleton _ _).symm
  case parents =>
    intro c hc p hp
    rw [hsize]
    rcases mem_append.mp hc with hc | hc
    · exact h.parents c hc p hp
    · cases mem_singleton.mp hc
      obtain ⟨children, hold, -⟩ := h.children p (mem_of_mem_head? hp)
      exact lt_size_of_aspect hold
  case root =>
    intro r hr
    rw [hroot] at hr
    rw [find?_append]
    rcases h.root r hr with ⟨hlast, hfind⟩ | ⟨c, hfind, hc⟩
    · rw [hfind, none_or]
      cases opened with
      | nil =>
        cases hlast
        exact .inr ⟨_, rfl, rfl⟩
      | cons p opened => exact .inl ⟨hlast, rfl⟩
    · rw [hfind]
      exact .inr ⟨c, rfl, hc⟩
  case rootless =>
    intro hr
    rw [hroot] at hr
    cases (h.rootless hr).1

end Assembled

end Tree

namespace Builder

open ViewTemplate.Tree

variable {b : Builder} {children : List NodeId} {parent : NodeId} {tree : Tree} {options : Options}
  {template : String} {closed : List Closing} {id : NodeId} {el : Element}

section Lists

variable {α : Type} (p : α → Bool) (l : List α)

theorem filter_dropWhile_not : (l.dropWhile fun x => !p x).filter p = l.filter p := by
  induction l with
  | nil => rfl
  | cons x l ih => cases hp : p x <;> simp [hp, ih]

theorem head?_dropWhile_not : (l.dropWhile fun x => !p x).head? = (l.filter p).head? := by
  induction l with
  | nil => rfl
  | cons x l ih => cases hp : p x <;> simp [hp, ih]

end Lists

section

variable (h : tree.aspect? Element.children parent = some children)
include h

theorem untilElement_eq :
    untilElement tree parent = children.reverse.dropWhile fun c => !tree.isElement c := by
  have hchildren : (tree.element? parent).map Element.children = some children := h
  rw [untilElement, hchildren]
  rfl

/-- The last child element. -/
theorem head?_untilElement :
    (untilElement tree parent).head? = (children.filter tree.isElement).getLast? := by
  rw [untilElement_eq h, head?_dropWhile_not, filter_reverse, getLast?_eq_head?_reverse]

/-- Dropping the last texts drops no element. -/
theorem filter_untilElement :
    (untilElement tree parent).reverse.filter tree.isElement = children.filter tree.isElement := by
  rw [untilElement_eq h, filter_reverse, filter_dropWhile_not, filter_reverse,
    reverse_reverse]

end

section

variable (h : b.tree.Assembled closed [id] b.stack)
include h

section

variable (hel : b.tree.element? id = some el)
include hel

/-- Outside all elements a branch joins the choice of the root, which is the first element that has
closed there. -/
theorem assembled_place_outside (hstack : b.stack = []) :
    (b.place id).value.tree.Assembled (closed ++ [⟨b.parent?, id, el⟩]) [] b.stack := by
  have hparent : b.parent? = none := by
    rw [parent?, hstack]
    rfl
  obtain ⟨hid, hdistinct⟩ := nodup_cons.mp h.distinct
  have hroot : (if b.tree.root = some id then none else b.tree.root) =
      (closed.find? isOutside).map Closing.id := by
    cases hr : b.tree.root with
    | none => cases (h.rootless hr).1
    | some r =>
      rcases h.root r hr with ⟨hlast, hfind⟩ | ⟨c, hfind, rfl⟩
      · rw [hstack] at hlast
        have hlast : some id = some r := hlast
        rw [if_pos hlast.symm, hfind]
        rfl
      · have hmem := List.mem_map_of_mem (f := Closing.id) (mem_of_find?_eq_some hfind)
        have hne : some c.id ≠ some id := by
          intro heq
          exact hid (mem_append_right _ (Option.some.inj heq ▸ hmem))
        rw [if_neg hne, hfind]
        rfl
  have houtside : isOutside ⟨b.parent?, id, el⟩ = true := by
    rw [isOutside, hparent]
    rfl
  rw [tree_place_outside hel hparent, hroot]
  refine h.place hel ?_ ?_ _ (choice_giveBranch _ _ _) (fun j hj => ?_)
    (fun earlier c rest hsplit => ?_) ?_
  · rw [giveBranch]
    split <;> simp
  · rw [giveBranch]
    split <;> simp
  · split at hj
    · obtain ⟨c, hc, rfl⟩ := map_eq_some_iff.mp hj
      exact List.mem_map_of_mem (mem_of_find?_eq_some hc)
    · cases hj
  · split
    · rename_i hbranch
      rw [find?_isOutside_iff hsplit (Nodup.of_append_right hdistinct)]
      exact (joins_iff_of_isOutside houtside hbranch).symm
    · rename_i hbranch
      exact ⟨fun hnone => absurd hnone (some_ne_none c.id).symm, fun hjoins => absurd (isBranch_of_joins hjoins) hbranch⟩
  · rw [hstack]
    exact forall_mem_nil _

/-- An element that is left out, or that becomes a child, joins no choice. -/
theorem assembled_place_child (hparent : b.parent? = some parent)
    (hplain : el.forbidden = true ∨ el.isBranch = false) :
    (b.place id).value.tree.Assembled (closed ++ [⟨b.parent?, id, el⟩]) [] b.stack := by
  have hnone (j : NodeId) : none ≠ some j := (some_ne_none j).symm
  have hjoins (earlier : List Closing) (c : Closing) (rest : List Closing) :
      none = some c.id ↔ joins earlier c rest ⟨b.parent?, id, el⟩ = true := by
    refine iff_of_false (hnone c.id) fun hjoins => ?_
    have hin := isIn_of_joins hjoins hparent
    have hbranch := isBranch_of_joins hjoins
    rcases hplain with hforbidden | hplain
    · simp [isIn, hforbidden] at hin
    · exact absurd (hplain.symm.trans hbranch) Bool.false_ne_true
  rw [tree_place_inside hel hparent]
  split
  · rename_i hforbidden
    refine h.place hel rfl rfl none (fun j => ?_) (fun j hj => absurd hj (hnone j))
      (fun earlier c rest _ => hjoins earlier c rest) ?_
    · simp
    · intro p _ children hchildren hlt
      refine ⟨children, hchildren, hlt, ?_⟩
      simp [isChildOf, isIn, hforbidden]
  · rename_i hforbidden
    have hbranch := hplain.resolve_left hforbidden
    rw [if_neg (Bool.eq_false_iff.mp hbranch)]
    have hsize : (placeChild id el parent b.tree).nodes.size = b.tree.nodes.size := by
      rw [placeChild, size_update, size_update]
    have hroot : (placeChild id el parent b.tree).root = b.tree.root := by
      rw [placeChild, root_update, root_update]
    have helement : b.tree.isElement id = true := by
      rw [isElement, hel]
      rfl
    refine h.place hel hsize hroot none (fun j => ?_) (fun j hj => absurd hj (hnone j))
      (fun earlier c rest _ => hjoins earlier c rest) ?_
    · rw [choice_placeChild]
      simp
    · intro p hp children hchildren hlt
      have hchild : isChildOf p ⟨b.parent?, id, el⟩ = decide (p = parent) := by
        simp [isChildOf, isIn, hforbidden, hbranch, hparent, beq_eq_decide, eq_comm]
      refine ⟨_, by rw [children_placeChild, hchildren]; rfl, ?_, ?_⟩
      · split
        · exact forall_mem_append.mpr ⟨hlt, forall_mem_singleton.mpr
            (lt_size_of_element? hel)⟩
        · exact hlt
      · show _ = _ ++ if isChildOf p ⟨b.parent?, id, el⟩ = true then [id] else []
        rw [hchild]
        split <;> simp_all

/-- A branch joins the choice of the last child element. -/
theorem assembled_place_branch (hparent : b.parent? = some parent)
    (hforbidden : el.forbidden = false) (hbranch : el.isBranch = true) :
    (b.place id).value.tree.Assembled (closed ++ [⟨b.parent?, id, el⟩]) [] b.stack := by
  have hmem : parent ∈ b.stack := mem_of_mem_head? hparent
  obtain ⟨children, hchildren, hlt, hclosed⟩ := h.children parent hmem
  have hin : isIn parent ⟨b.parent?, id, el⟩ = true := by
    simp [isIn, hparent, hforbidden]
  have hlast := head?_untilElement hchildren
  rw [hclosed] at hlast
  rw [tree_place_inside hel hparent, if_neg (Bool.eq_false_iff.mp hforbidden), if_pos hbranch]
  refine h.place hel ?_ ?_ (untilElement b.tree parent).head? (fun j => ?_) (fun j hj => ?_)
    (fun earlier c rest hsplit => ?_) ?_
  · rw [giveBranch]
    split <;> simp [dropTexts]
  · rw [giveBranch]
    split <;> simp [dropTexts]
  · rw [choice_giveBranch, choice_dropTexts]
  · rw [hlast] at hj
    obtain ⟨c, hc, rfl⟩ := List.mem_map.mp (mem_of_getLast? hj)
    exact List.mem_map_of_mem (mem_filter.mp hc).1
  · rw [hlast, getLast?_isChildOf_iff hsplit (nodup_append.mp h.distinct).2.1]
    exact (joins_iff_of_isIn hin hbranch).symm
  · intro p hp children' hchildren' hlt'
    have hnot : ¬ isChildOf p ⟨b.parent?, id, el⟩ = true := by
      simp [isChildOf, hbranch]
    refine ⟨_, by rw [children_giveBranch, children_dropTexts, hchildren']; rfl, ?_, ?_⟩
    · split
      · rename_i hp
        subst hp
        intro c hc
        rw [untilElement_eq hchildren', mem_reverse] at hc
        exact hlt' c (mem_reverse.mp ((dropWhile_sublist _).subset hc))
      · exact hlt'
    · show _ = _ ++ if isChildOf p ⟨b.parent?, id, el⟩ = true then [id] else []
      rw [if_neg hnot, append_nil]
      split
      · rename_i hp
        subst hp
        exact filter_untilElement hchildren'
      · rfl

theorem assembled_place :
    (b.place id).value.tree.Assembled (closed ++ [⟨b.parent?, id, el⟩]) [] b.stack := by
  cases hparent : b.parent? with
  | none =>
    rw [← hparent]
    exact assembled_place_outside h hel (head?_eq_none_iff.mp hparent)
  | some parent =>
    rw [← hparent]
    cases hforbidden : el.forbidden with
    | true => exact assembled_place_child h hel hparent (.inl hforbidden)
    | false =>
      cases hbranch : el.isBranch with
      | true => exact assembled_place_branch h hel hparent hforbidden hbranch
      | false => exact assembled_place_child h hel hparent (.inr hbranch)

end

end

/-- The element that closes at an event. -/
def closed? (options : Options) (b : Builder) (e : Event) : Option Closing :=
  (b.closing options e).bind fun (id, before) =>
    (((before.trimChildren id).finishReading options id).value.tree.element? id).map fun el =>
      ⟨before.parent?, id, el⟩

/-- The elements that close in a run of events. -/
def closings (options : Options) (template : String) : Builder → List Event → List Closing
  | _, [] => []
  | b, e :: events =>
    (b.closed? options e).toList ++ closings options template (b.step options template e).value events

section Hooks

variable {b : Builder} (hkeeps : ∀ x ∈ options.extensions, x.KeepsLinks)
include hkeeps

/-- The readings of an element that closes. -/
theorem assembled_read (h : b.tree.Assembled closed [id] b.stack) :
    ((b.trimChildren id).finishReading options id).value.tree.Assembled closed [id] b.stack := by
  have htrim := h.keepsTies (keepsTies_trimChildren h.not_mem_opened b)
  refine htrim.keepsTies (keepsTies_finishReading hkeeps h.not_mem_opened fun j hj => ?_)
  obtain ⟨children, hchildren, -⟩ := htrim.children j hj
  exact Assembled.lt_size_of_aspect hchildren

/-- Closing an element gives it its place and changes no other choice, nor other children. -/
theorem assembled_close (h : b.tree.Assembled closed [id] b.stack)
    (hel : ((b.trimChildren id).finishReading options id).value.tree.element? id = some el) :
    (b.close options id).value.tree.Assembled (closed ++ [⟨b.parent?, id, el⟩]) [] b.stack := by
  have hread := assembled_read hkeeps h
  simp only [close, Reported.value_bind]
  generalize hbuilder : ((b.trimChildren id).finishReading options id).value = read at hread hel ⊢
  have hstack : read.stack = b.stack := by
    rw [← hbuilder, stack_finishReading, stack_trimChildren]
  have hparent : read.parent? = b.parent? := congrArg head? hstack
  have hnot := h.not_mem_opened
  rw [← hstack] at hread hnot ⊢
  rw [← hparent]
  have hplaced := assembled_place hread hel
  generalize (read.place id).value = placed at hplaced ⊢
  have hdrop : KeepsTies read.stack placed.tree (placed.withTree (dropSlotContent id)).tree :=
    .update (fun _ => rfl) fun hmem => absurd hmem hnot
  exact hplaced.keepsTies ((hdrop.trans (keepsTies_trimChildren hnot _)).trans
    (keepsTies_finishElement hkeeps hnot _))

section

variable (h : b.tree.Assembled closed [] b.stack)
include h

theorem assembled_opened (tag : String) (attributes : List Attribute) (range : Range) :
    (b.opened options tag attributes range).tree.Assembled closed [b.tree.nodes.size] b.stack := by
  have hheld := (shape_entered hkeeps tag attributes range b).2
  refine h.opens (fun choice hchoice => ?_) (nodes_opened options tag attributes range b)
    (root_opened options tag attributes range b)
  simp only [Shape.held, Element.shape, append_eq_nil_iff, map_eq_nil_iff,
    Element.otherBranches, mem_def.mp hchoice] at hheld
  exact hheld.2

/-- The element that an event closes is in hand before it gets its place. -/
theorem assembled_closing {before : Builder} {e : Event}
    (hclosing : b.ClosesAt options e id before) :
    before.tree.Assembled closed [id] before.stack := by
  cases hclosing with
  | unary tag attributes range =>
    rw [stack_opened]
    exact assembled_opened hkeeps h tag attributes range
  | finish tag range hstack =>
    rw [hstack] at h
    exact h.pop.keepsTies (.update (fun _ => rfl) fun _ _ => rfl)

/-- What closes at an event is in the tree when it has been read. -/
theorem exists_closed? {before : Builder} {e : Event}
    (hclosing : b.closing options e = some (id, before)) :
    ∃ el, ((before.trimChildren id).finishReading options id).value.tree.element? id = some el ∧
      b.closed? options e = some ⟨before.parent?, id, el⟩ := by
  have hread := assembled_read hkeeps (assembled_closing hkeeps h (closesAt_of_closing hclosing))
  obtain ⟨choice, hchoice, -⟩ := hread.unjoined id mem_cons_self
  obtain ⟨el, hel, -⟩ := map_eq_some_iff.mp hchoice
  refine ⟨el, hel, ?_⟩
  rw [closed?, hclosing, bind_some]
  dsimp only
  rw [hel]
  rfl

theorem assembled_start (tag : String) (attributes : List Attribute) (range : Range) :
    (b.opened options tag attributes range).tree.Assembled closed [] (b.tree.nodes.size :: b.stack) := by
  refine (assembled_opened hkeeps h tag attributes range).push ?_ fun c hc hparent => ?_
  · have hheld := (shape_entered hkeeps tag attributes range b).2
    simp only [Shape.held, Element.shape, append_eq_nil_iff] at hheld
    refine (aspect?_of_element? ?_).trans (congrArg some hheld.1.1)
    rw [element?_opened, if_pos rfl]
  · exact Nat.lt_irrefl _ (h.parents c hc _ hparent)

/-- One event: what closes is added to what has closed. -/
theorem assembled_step (e : Event) :
    (b.step options template e).value.tree.Assembled (closed ++ (b.closed? options e).toList) []
      (b.step options template e).value.stack := by
  have hnone (hclosing : b.closing options e = none) :
      closed ++ (b.closed? options e).toList = closed := by
    rw [closed?, hclosing]
    exact append_nil closed
  have hsteps := steps_step options template b e
  generalize (b.step options template e).value = later at hsteps ⊢
  cases hsteps with
  | opens tag attributes range =>
    rw [hnone rfl]
    exact assembled_start hkeeps h tag attributes range
  | closes hclosing =>
    obtain ⟨el, hel, hclosed⟩ := exists_closed? hkeeps h hclosing.closing_eq
    rw [hclosed, stack_close]
    exact assembled_close hkeeps (assembled_closing hkeeps h hclosing) hel
  | appends he _ hnode _ htree hstack =>
    rw [hnone (by rcases he with rfl | rfl <;> rfl), htree, hstack]
    exact h.appendNode _ hnode.element?
  | stays hclosing _ htree hstack =>
    rw [hnone hclosing, htree, hstack]
    exact h

end

/-- A run of events. -/
theorem assembled_foldlM (events : List Event) (h : b.tree.Assembled closed [] b.stack) :
    (events.foldlM (step options template) b).value.tree.Assembled
      (closed ++ closings options template b events) []
      (events.foldlM (step options template) b).value.stack := by
  induction events generalizing b closed with
  | nil =>
    rw [closings, append_nil]
    exact h
  | cons e events ih =>
    rw [foldlM_cons, Reported.value_bind, closings, ← append_assoc]
    exact ih (assembled_step hkeeps h e)

end Hooks

theorem assembled_empty : ({} : Builder).tree.Assembled [] [] ({} : Builder).stack := by
  constructor
  case children => exact fun p hp => absurd hp not_mem_nil
  case unjoined => exact fun p hp => absurd hp not_mem_nil
  case joined => exact fun earlier c later h => absurd h.symm (append_ne_nil_of_right_ne_nil _ (cons_ne_nil _ _))
  case others =>
    intro j choice h
    exact absurd (Assembled.lt_size_of_aspect h) (Nat.not_lt_zero j)
  case distinct => exact nodup_nil
  case parents => exact fun c hc => absurd hc not_mem_nil
  case root =>
    intro r hr
    cases hr
  case rootless => exact fun _ => ⟨rfl, rfl⟩

end Builder

namespace Tree

/-- The elements that close in a template. -/
def closings (options : Options) (template : String) : List Closing :=
  Builder.closings options template {} (Markup.events (markupSettings options) template)

/-- The choices of the tree of a template are put together from the elements that close in it. -/
theorem assembled_ofTemplate {options : Options} (hkeeps : ∀ x ∈ options.extensions, x.KeepsLinks)
    (template : String) :
    (ofTemplate options template).value.Assembled (closings options template) [] [] := by
  have h : (Builder.after options template
      (Markup.events (markupSettings options) template)).tree.Assembled _ [] _ :=
    Builder.assembled_foldlM hkeeps (Markup.events (markupSettings options) template)
      Builder.assembled_empty
  have hstack := Builder.stack_after_events options template
  rw [Builder.after] at hstack
  rw [hstack] at h
  exact h

end Tree

end ViewTemplate
