import ViewTemplate.Proofs.MarkedContent
import ViewTemplate.Render.Wrapper

/-! # Loops around an element

Which loops repeat an element is told by its parents. Where no slot is entered, parents agree with the
links that lead down from the root: a child has the element that holds it as its parent, and a later
branch of a choice has the parent of the first branch.
-/

open List

namespace ViewTemplate

namespace Tree

/-- The innermost element with a loop around a given one. -/
inductive NearestLoop (tree : Tree) : NodeId → Element → Prop
  | parent {i p : NodeId} {el : Element} (hp : tree.HasParent i p)
      (hel : tree.element? p = some el) (hloop : el.loop.isSome = true) : NearestLoop tree i el
  | above {i p : NodeId} {el outer : Element} (hp : tree.HasParent i p)
      (hel : tree.element? p = some el) (hloop : el.loop.isSome = false)
      (houter : NearestLoop tree p outer) : NearestLoop tree i outer

section

variable {tree : Tree} {i j a : NodeId} {el outer : Element}

/-- Some loop around an element is the innermost one. -/
theorem exists_nearestLoop (h : Relation.TransGen tree.HasParent i a)
    (hel : tree.element? a = some el) (hloop : el.loop.isSome = true) :
    ∃ outer, tree.NearestLoop i outer := by
  induction h using Relation.TransGen.head_induction_on with
  | single hp => exact ⟨el, .parent hp hel hloop⟩
  | @head i p hp hrest ih =>
    obtain ⟨outer, houter⟩ := ih
    obtain ⟨q, ⟨elp, help, -⟩, -⟩ := Relation.TransGen.head'_iff.mp hrest
    cases hl : elp.loop.isSome with
    | true => exact ⟨elp, .parent hp help hl⟩
    | false => exact ⟨outer, .above hp help hl houter⟩

/-- Elements with the same parent lie in the same loops. -/
theorem NearestLoop.of_parent (h : tree.NearestLoop i outer)
    (hp : ∀ p, tree.HasParent i p → tree.HasParent j p) : tree.NearestLoop j outer := by
  cases h with
  | parent hi hel hloop => exact .parent (hp _ hi) hel hloop
  | above hi hel hloop houter => exact .above (hp _ hi) hel hloop houter

/-- The innermost loop is the first one on the way to the outside. -/
theorem NearestLoop.find?_ancestorsFrom {depth : NodeId → Nat}
    (hdepth : ∀ i p, tree.HasParent i p → depth p < depth i) (h : tree.NearestLoop i outer)
    (hel : tree.element? i = some el) {fuel : Nat} (hfuel : depth i ≤ fuel) :
    ((tree.ancestorsFrom fuel el.parent).map Prod.snd).find? (fun a => a.loop.isSome) =
      some outer := by
  have hstep {i p : NodeId} {el elp : Element} {fuel : Nat} (hp : tree.HasParent i p)
      (hel : tree.element? i = some el) (help : tree.element? p = some elp)
      (hfuel : depth i ≤ fuel) :
      ∃ rest, depth p ≤ rest ∧ (tree.ancestorsFrom fuel el.parent).map Prod.snd =
        elp :: (tree.ancestorsFrom rest elp.parent).map Prod.snd := by
    have hlt := hdepth i p hp
    obtain ⟨rest, rfl⟩ := Nat.exists_eq_succ_of_ne_zero (show fuel ≠ 0 by omega)
    obtain ⟨e, he, hparent⟩ := hp
    cases hel.symm.trans he
    refine ⟨rest, by omega, ?_⟩
    rw [hparent, ancestorsFrom, help]
    rfl
  induction h generalizing el fuel with
  | @parent i p elp hp help hloop =>
    obtain ⟨rest, -, hcons⟩ := hstep hp hel help hfuel
    rw [hcons]
    exact find?_cons_of_pos hloop
  | @above i p elp outer hp help hloop _ ih =>
    obtain ⟨rest, hrest, hcons⟩ := hstep hp hel help hfuel
    rw [hcons, find?_cons, hloop]
    exact ih help hrest

end

section

variable {ledger : Ledger} {tree later : Tree} {opened : List NodeId} {options : Options}
  {i p : NodeId} {el outer : Element}

theorem Sound.exists_depth (h : tree.Sound ledger opened []) :
    ∃ depth : NodeId → Nat, (∀ i p, tree.HasParent i p → depth p < depth i) ∧
      ∀ i, i < tree.nodes.size → depth i < tree.nodes.size := by
  apply exists_height fun i => OrderDual.toDual (ledger.rank i)
  rintro i p ⟨el, hel, hparent⟩
  obtain ⟨hrank, t, ht⟩ := (h.shapes i el.shape (shape?_of_element? hel)).parent p hparent
  exact ⟨lt_size_of_shape? ht, hrank⟩

/-- The key by which the repetitions of an element are told apart is that of the innermost loop. -/
theorem Sound.loopKey?_eq (h : tree.Sound ledger opened []) (hel : tree.element? i = some el)
    (houter : tree.NearestLoop i outer) :
    Render.loopKey? (Render.Scene.ofTree options tree) el = outer.key.filter (· ≠ "") := by
  obtain ⟨depth, hdepth, hbound⟩ := h.exists_depth
  have hfind := houter.find?_ancestorsFrom hdepth hel
    (Nat.le_of_lt (hbound i (lt_size_of_element? hel)))
  have haround : (tree.around el).find? (fun a => a.loop.isSome) = some outer := hfind
  rw [Render.loopKey?]
  show (((tree.around el).find? fun a => a.loop.isSome).bind Element.key).filter _ = _
  rw [haround, Option.bind_some]

/-! ## Parents outside of slots -/

/-- Outside of slots no element is or lies directly in a container of slot content. -/
theorem Sound.rank_of_outer (h : tree.Sound ledger opened []) (hi : tree.Outer i) :
    ledger.rank i = 2 * i ∧ ∀ p, tree.HasParent i p → ledger.rank p = 2 * p := by
  induction hi with
  | @root r hr =>
    refine ⟨(h.outside.root r hr).2.1, ?_⟩
    rintro p ⟨el, hel, hparent⟩
    have horphan := h.outside.orphan r el.shape hr (shape?_of_element? hel)
    rw [show el.parent = none from horphan] at hparent
    cases hparent
  | @child i c el hi hel hc ih =>
    have hown := h.shapes i el.shape (shape?_of_element? (element?_of_node? hel))
    refine ⟨(hown.child_rank c hc).1, ?_⟩
    rintro p ⟨elc, helc, hparent⟩
    have hsame := hown.child_parent c hc elc.shape (shape?_of_element? helc)
    rw [show elc.parent = some i from hsame] at hparent
    cases hparent
    exact ih.1
  | @branch i b el hi hel hb ih =>
    have hown := h.shapes i el.shape (shape?_of_element? (element?_of_node? hel))
    obtain ⟨hrank, hkin⟩ := hown.kin b.block (List.mem_map_of_mem hb)
    refine ⟨hrank, ?_⟩
    rintro p ⟨elb, helb, hparent⟩
    rcases hkin elb.shape (shape?_of_element? helb) with ⟨hsame, -⟩ | ⟨q, u, hq, hu, -⟩
    · have hsame : elb.parent = el.parent := hsame
      exact ih.2 p ⟨el, element?_of_node? hel, hsame ▸ hparent⟩
    · exact absurd (ih.2 q ⟨el, element?_of_node? hel, hq⟩) hu.rank

/-- Outside of slots a later branch has the parent of the first one. -/
theorem Sound.hasParent_of_branch (h : tree.Sound ledger opened []) (hi : tree.Outer i)
    (hel : tree.element? i = some el) {b : Branch} (hb : b ∈ el.otherBranches)
    (hp : tree.HasParent b.block p) : tree.HasParent i p := by
  obtain ⟨elb, helb, hparent⟩ := hp
  have hown := h.shapes i el.shape (shape?_of_element? hel)
  obtain ⟨-, hkin⟩ := hown.kin b.block (List.mem_map_of_mem hb)
  rcases hkin elb.shape (shape?_of_element? helb) with ⟨hsame, -⟩ | ⟨q, u, hq, hu, -⟩
  · have hsame : elb.parent = el.parent := hsame
    exact ⟨el, hel, hsame ▸ hparent⟩
  · exact absurd ((h.rank_of_outer hi).2 q ⟨el, hel, hq⟩) hu.rank

/-! ## The marked tree -/

/-- Whether a tree is a forest depends on its links only. -/
theorem Sound.of_shapes (h : tree.Sound ledger opened []) (hsize : later.nodes.size = tree.nodes.size)
    (hroot : later.root = tree.root) (hshape : ∀ j, later.shape? j = tree.shape? j) :
    later.Sound ledger opened [] := by
  have hmove : Move ledger ledger tree later [] := by
    refine ⟨forall_mem_nil _, Nat.le_of_eq hsize.symm, fun _ _ => rfl, fun _ _ _ => rfl, ?_, ?_,
      ?_⟩
    · intro c t ht
      exact ⟨t, (hshape c).trans ht⟩
    · intro c _ _ _
      rw [hshape]
    · intro c t t' _ ht ht'
      rw [hshape, ht] at ht'
      cases ht'
      rfl
  constructor
  · intro j s hs
    rw [hshape] at hs
    exact hmove.sound (h.shapes j s hs) (lt_size_of_shape? hs) (fun _ _ => not_mem_nil) id
  · apply hmove.outside h.outside (suffix_refl _) hroot fun _ _ _ => not_mem_nil
    intro c _ t t' ht ht' d hd
    rw [hshape, ht] at ht'
    cases ht'
    exact hd

/-- Marking keeps the tree a forest. -/
theorem Sound.marked (h : tree.Sound ledger opened []) (options : Options) :
    (tree.marked options).Sound ledger opened [] := by
  refine h.of_shapes ?_ (root_marked options) fun j => ?_
  · rw [← size_unmarked, h.unmarked_marked, size_unmarked]
  · have hsame := congrArg (Option.map Element.shape) (h.map_element?_marked options j)
    rw [Option.map_map, Option.map_map] at hsame
    exact hsame

/-- The passes reach nothing but what lies outside of slots. -/
theorem Passed.isOuter {visited : Bool} {inLoop : Option Bool}
    (h : tree.Passed options i visited inLoop) : (tree.marked options).Outer i := by
  induction h with
  | root hr => exact .root ((root_marked options).trans hr)
  | held _ hel hc ih =>
    rcases mem_append.mp hc with hc | hc
    · exact .child ih (node?_of_element? hel) hc
    · obtain ⟨b, hb, rfl⟩ := List.mem_map.mp hc
      exact .branch ih (node?_of_element? hel) hb

/-- What lies outside of slots is reached by the passes. -/
theorem Outer.exists_passed (h : (tree.marked options).Outer i) :
    ∃ visited inLoop, tree.Passed options i visited inLoop := by
  induction h with
  | root hr => exact ⟨_, _, .root ((root_marked options).symm.trans hr)⟩
  | child _ hel hc ih =>
    obtain ⟨visited, inLoop, hpassed⟩ := ih
    exact ⟨_, _, .held hpassed (element?_of_node? hel) (mem_append_left _ hc)⟩
  | branch _ hel hb ih =>
    obtain ⟨visited, inLoop, hpassed⟩ := ih
    exact ⟨_, _, .held hpassed (element?_of_node? hel)
      (mem_append_right _ (List.mem_map_of_mem hb))⟩

/-- In a loop the second pass arrives with the note that it is in one. -/
theorem Sound.inLoop_of_passed (h : tree.Sound ledger opened []) {visited : Bool}
    {inLoop : Option Bool} (hi : tree.Passed options i visited inLoop)
    (houter : (tree.marked options).NearestLoop i outer) : inLoop ≠ some false := by
  have hmarked := h.marked options
  induction hi generalizing outer with
  | @root r hr =>
    have hr' : (tree.marked options).root = some r := (root_marked options).trans hr
    have hno {p : NodeId} : ¬ (tree.marked options).HasParent r p := by
      rintro ⟨el, hel, hparent⟩
      have horphan := hmarked.outside.orphan r el.shape hr' (shape?_of_element? hel)
      rw [show el.parent = none from horphan] at hparent
      cases hparent
    cases houter with
    | parent hp => exact absurd hp hno
    | above hp => exact absurd hp hno
  | @held i c visited inLoop el hi hel hc ih =>
    have hbelow (hloop : el.loop.isSome = false → inLoop ≠ some false) :
        Static.inLoopBelow inLoop el ≠ some false := by
      intro hfalse
      obtain ⟨l, rfl, hl⟩ := Option.bind_eq_some_iff.mp hfalse
      split at hl
      · cases hl
      · simp only [Option.some.injEq, Bool.or_eq_false_iff] at hl
        exact hloop hl.2 (congrArg some hl.1)
    apply hbelow
    intro hnone
    rcases mem_append.mp hc with hc | hc
    · -- the parent of a child is the element that holds it
      have hparent {p : NodeId} (hp : (tree.marked options).HasParent c p) : p = i := by
        obtain ⟨elc, helc, hparent⟩ := hp
        have hown := hmarked.shapes i el.shape (shape?_of_element? hel)
        have hsame := hown.child_parent c hc elc.shape (shape?_of_element? helc)
        rw [show elc.parent = some i from hsame] at hparent
        cases hparent
        rfl
      cases houter with
      | parent hp help hloop =>
        cases hparent hp
        cases hel.symm.trans help
        rw [hnone] at hloop
        cases hloop
      | above hp help hloop houter =>
        cases hparent hp
        exact ih houter
    · obtain ⟨b, hb, rfl⟩ := List.mem_map.mp hc
      apply ih (houter.of_parent _)
      intro p hp
      exact hmarked.hasParent_of_branch hi.isOuter hel hb hp

end

end Tree

end ViewTemplate
