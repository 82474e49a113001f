import ViewTemplate.Proofs.RespelledTree
import ViewTemplate.Tree.Static

/-! # Marked trees in two spellings

The contents of corresponding trees correspond, and static marks are set alike in both.
-/

open List Option

namespace ViewTemplate

open Element Static

theorem forall₂_imp_mem {α β : Type} {R S : α → β → Prop} {l : List α} {l' : List β}
    (h : Forall₂ R l l') (hS : ∀ a ∈ l, ∀ b, R a b → S a b) : Forall₂ S l l' :=
  ((forall₂_and_left _ _).mpr ⟨hS, h⟩).imp fun _ b hab => hab.1 b hab.2

theorem map_eq_of_forall₂ {α β γ : Type} {R : α → β → Prop} {f : α → γ} {g : β → γ} {l : List α}
    {l' : List β} (h : Forall₂ R l l') (hfg : ∀ a b, R a b → g b = f a) :
    l'.map g = l.map f := by
  induction h with
  | nil => rfl
  | cons hab _ ih => rw [map_cons, map_cons, hfg _ _ hab, ih]

theorem forall₂_map {α β γ δ : Type} {R : γ → δ → Prop} {f : α → γ} {g : β → δ} {l : List α}
    {l' : List β} (h : Forall₂ (fun a b => R (f a) (g b)) l l') :
    Forall₂ R (l.map f) (l'.map g) := by
  rwa [forall₂_map_left_iff, forall₂_map_right_iff]

/-- Contents that correspond node by node. -/
inductive Content.Alike : Content → Content → Prop
  | plain (id : NodeId) (t : PlainText) (range : Option Range) :
      Alike (.plain id t) (.plain id { t with range })
  | interpolated (id : NodeId) (t : InterpolatedText) (range : Option Range) :
      Alike (.interpolated id t) (.interpolated id { t with range })
  | element (id : NodeId) {el el' : Element} {children children' branches branches' : List Content}
      {slots slots' : List Content} (hel : el.Alike 1 el')
      (hchildren : Forall₂ Content.Alike children children')
      (hbranches : Forall₂ Content.Alike branches branches')
      (hslots : Forall₂ Content.Alike slots slots') :
      Alike (.element id el children branches slots) (.element id el' children' branches' slots')

namespace Content.Alike

variable {c c' : Content}

theorem isStatic_eq (h : c.Alike c') : c'.isStatic = c.isStatic := by
  cases h with
  | plain id t range => rfl
  | interpolated id t range => rfl
  | element id hel _ _ _ => exact hel.read Element.isStatic fun _ => rfl

theorem element_cases (h : c.Alike c') :
    c.element? = none ∧ c'.element? = none ∨
      ∃ el el', c.element? = some el ∧ c'.element? = some el' ∧ el.Alike 1 el' := by
  cases h with
  | plain id t range => exact .inl ⟨rfl, rfl⟩
  | interpolated id t range => exact .inl ⟨rfl, rfl⟩
  | element id hel _ _ _ => exact .inr ⟨_, _, rfl, rfl, hel⟩

theorem map_shown_element? (h : c.Alike c') :
    c'.element?.map shown = c.element?.map shown := by
  rcases h.element_cases with ⟨hnone, hnone'⟩ | ⟨el, el', hel, hel', halike⟩
  · rw [hnone, hnone']
  · rw [hel, hel', map_some, map_some, halike.shown]

theorem isEmpty_eq {cs cs' : List Content} (h : Forall₂ Content.Alike cs cs') :
    cs'.isEmpty = cs.isEmpty := by
  cases h <;> rfl

theorem isSingleText_eq {cs cs' : List Content} (h : Forall₂ Content.Alike cs cs') :
    isSingleText cs' = isSingleText cs := by
  cases h with
  | nil => rfl
  | cons hcc hrest =>
    cases hcc with
    | plain id t range => cases hrest <;> rfl
    | interpolated id t range => rfl
    | element id hel _ _ _ => rfl

/-- The nodes of corresponding contents correspond. -/
theorem nodes (h : c.Alike c') :
    Forall₂ (fun x x' => x'.1 = x.1 ∧ x.2.Alike 1 x'.2) c.nodes c'.nodes := by
  induction c using Content.induction generalizing c' with
  | plain id t =>
    cases h with
    | plain _ _ range => exact .cons ⟨rfl, .plain t range⟩ .nil
  | interpolated id t =>
    cases h with
    | interpolated _ _ range => exact .cons ⟨rfl, .interpolated t range⟩ .nil
  | element id el children branches slots ihchildren ihbranches ihslots =>
    have hpart {cs cs' : List Content} (hcs : Forall₂ Content.Alike cs cs')
        (ih : ∀ c ∈ cs, ∀ {c'}, c.Alike c' →
          Forall₂ (fun x x' => x'.1 = x.1 ∧ x.2.Alike 1 x'.2) c.nodes c'.nodes) :
        Forall₂ (fun x x' => x'.1 = x.1 ∧ x.2.Alike 1 x'.2) (nodesOf cs) (nodesOf cs') := by
      induction hcs with
      | nil => exact .nil
      | cons hcc _ ihlist =>
        rw [forall_mem_cons] at ih
        exact rel_append (ih.1 hcc) (ihlist ih.2)
    cases h with
    | element _ hel hchildren hbranches hslots =>
      refine .cons ⟨rfl, .element hel⟩ ?_
      exact rel_append (rel_append (hpart hchildren ihchildren)
        (hpart hbranches ihbranches)) (hpart hslots ihslots)

theorem passesShown_noteLoop (inLoop : Bool) : PassesShown (noteLoop inLoop) := by
  intro el
  rw [noteLoop, noteLoop]
  show _ = (if el.isStatic || el.once then { el.shown with staticInLoop := inLoop } else el.shown, _)
  split <;> rfl

theorem markRoots (h : c.Alike c') {inLoop : Bool} :
    (Static.markRoots inLoop c).Alike (Static.markRoots inLoop c') := by
  induction c using Content.induction generalizing c' inLoop with
  | plain id t =>
    cases h with
    | plain _ _ range => exact .plain id _ range
  | interpolated id t =>
    cases h with
    | interpolated _ _ range => exact .interpolated id _ range
  | element id el children branches slots ihchildren ihbranches _ =>
    cases h with
    | @element _ _ el' _ children' _ branches' _ slots' hel hchildren hbranches hslots =>
      have hpart {cs cs' : List Content} (hcs : Forall₂ Content.Alike cs cs')
          (ih : ∀ c ∈ cs, ∀ {c'}, c.Alike c' → ∀ {inLoop},
            (Static.markRoots inLoop c).Alike (Static.markRoots inLoop c')) (inLoop : Bool) :
          Forall₂ Content.Alike (cs.map (Static.markRoots inLoop))
            (cs'.map (Static.markRoots inLoop)) :=
        forall₂_map (forall₂_imp_mem hcs fun c hc _ hcc => ih c hc hcc)
      have hnoted := hel.change _ (passesShown_noteLoop inLoop)
      have hlooped : (inLoop || (noteLoop inLoop el').loop.isSome) =
          (inLoop || (noteLoop inLoop el).loop.isSome) := by
        rw [hnoted.read loop fun _ => rfl]
      have hworth : isWorthwhile (noteLoop inLoop el') children' =
          isWorthwhile (noteLoop inLoop el) children := by
        rw [isWorthwhile, isWorthwhile, hnoted.read Element.isStatic fun _ => rfl,
          isSingleText_eq hchildren, isEmpty_eq hchildren]
      have hrooted (staticRoot : Bool) := hnoted.change (fun el => { el with staticRoot }) fun _ => rfl
      simp only [Static.markRoots, markRootsOf_eq_map, hworth, hlooped]
      split
      · exact .element id (hrooted true) hchildren hbranches hslots
      · exact .element id (hrooted false) (hpart hchildren ihchildren _)
          (hpart hbranches ihbranches _) hslots

end Content.Alike

/-- Which keys of an element are set can be read from what it shows. -/
theorem Element.definedKeys_shown (el : Element) : el.shown.definedKeys = el.definedKeys := by
  have hattributes : el.shown.attributes.isEmpty = el.attributes.isEmpty := isEmpty_map
  have hdynamic : el.shown.dynamicAttributes.isEmpty = el.dynamicAttributes.isEmpty :=
    isEmpty_map
  have hproperties : el.shown.properties.isEmpty = el.properties.isEmpty := isEmpty_map
  have hevents : el.shown.events.isEmpty = el.events.isEmpty := isEmpty_map
  have hnative : el.shown.nativeEvents.isEmpty = el.nativeEvents.isEmpty := isEmpty_map
  have hdirectives : el.shown.directives.isEmpty = el.directives.isEmpty := isEmpty_map
  have hrange : el.shown.range.isSome = el.range.isSome := isSome_map
  delta definedKeys
  dsimp only
  rw [hattributes, hdynamic, hproperties, hevents, hnative, hdirectives, hrange]
  rfl

namespace Tree.Alike

variable {tree tree' : Tree}

theorem contentTo (h : tree.Alike (fun _ => 1) tree') (fuel : Nat) (id : NodeId) :
    (tree.contentTo fuel id).Alike (tree'.contentTo fuel id) := by
  induction fuel generalizing id with
  | zero => exact .plain id _ none
  | succ fuel ih =>
    rw [Tree.contentTo, Tree.contentTo]
    rcases h.node_cases id with ⟨hnone, hnone'⟩ | ⟨node, node', hnode, hnode', halike⟩
    · rw [hnone, hnone']
      exact .plain id _ none
    · rw [hnode, hnode']
      cases halike with
      | plain t range => exact .plain id t range
      | interpolated t range => exact .interpolated id t range
      | @element e e' he =>
        have hchildren : e'.children = e.children := he.read Element.children fun _ => rfl
        have hbranches : e'.otherBranches = e.otherBranches :=
          he.read otherBranches fun _ => rfl
        have hslots : e'.scopedSlots = e.scopedSlots := he.read scopedSlots fun _ => rfl
        dsimp only
        rw [hchildren, hbranches, hslots]
        exact .element id he (forall₂_map (forall₂_same.mpr fun i _ => ih i))
          (forall₂_map (forall₂_same.mpr fun b _ => ih b.block))
          (forall₂_map (forall₂_same.mpr fun i _ => ih i))

/-- What the elements around an element show is the same in both trees. -/
theorem map_shown_around {p : NodeId → Nat} {n : Nat} {el el' : Element} (h : tree.Alike p tree')
    (hel : el.Alike n el') :
    (tree'.around el').map shown = (tree.around el).map shown := by
  have hparent : el'.parent = el.parent := hel.read parent fun _ => rfl
  rw [around, around, List.map_map, List.map_map, h.size, hparent]
  exact h.map_shown_ancestorsFrom _ _

theorem isVerbatim_eq {p : NodeId → Nat} (h : tree.Alike p tree') (id : NodeId) :
    tree'.isVerbatim id = tree.isVerbatim id := by
  have hmap := h.map_shown_ancestorsFrom tree.nodes.size (some id)
  have hany := congrArg (any · pre) hmap
  rw [List.any_map, List.any_map] at hany
  rw [isVerbatim, isVerbatim, ancestors, ancestors, h.size]
  exact hany

theorem isStaticAlone {el el' : Element} (h : tree.Alike (fun _ => 1) tree') (hel : el.Alike 1 el') :
    Static.isStaticAlone .web tree' el' = Static.isStaticAlone .web tree el := by
  have hloop : isInTemplateLoop tree' el' = isInTemplateLoop tree el := by
    have hmap := congrArg (fun l => (l.takeWhile fun a => a.tag == "template").any
      fun a : Element => a.loop.isSome) (h.map_shown_around hel)
    simp only [takeWhile_map, List.any_map] at hmap
    exact hmap
  have hkeys : el'.definedKeys = el.definedKeys :=
    hel.read Element.definedKeys definedKeys_shown
  have htag : el'.tag = el.tag := hel.read tag fun _ => rfl
  rw [Static.isStaticAlone, Static.isStaticAlone, hloop, hkeys, htag,
    hel.read pre fun _ => rfl, hel.read hasBindings fun _ => rfl,
    hel.read Element.choice fun _ => rfl, hel.read loop fun _ => rfl]

theorem markNodes (h : tree.Alike (fun _ => 1) tree') {c c' : Content} (hc : c.Alike c') :
    (Static.markNodes .web tree c).Alike (Static.markNodes .web tree' c') := by
  induction c using Content.induction generalizing c' with
  | plain id t =>
    cases hc with
    | plain _ _ range => exact .plain id _ range
  | interpolated id t =>
    cases hc with
    | interpolated _ _ range => exact .interpolated id _ range
  | element id el children branches slots ihchildren ihbranches _ =>
    cases hc with
    | @element _ _ el' _ children' _ branches' _ slots' hel hchildren hbranches hslots =>
      have hpart {cs cs' : List Content} (hcs : Forall₂ Content.Alike cs cs')
          (ih : ∀ c ∈ cs, ∀ {c'}, c.Alike c' →
            (Static.markNodes .web tree c).Alike (Static.markNodes .web tree' c')) :
          Forall₂ Content.Alike (cs.map (Static.markNodes .web tree))
            (cs'.map (Static.markNodes .web tree')) :=
        forall₂_map (forall₂_imp_mem hcs fun c hc _ hcc => ih c hc hcc)
      have hall {cs cs' : List Content} (hcs : Forall₂ Content.Alike cs cs') :
          cs'.all Content.isStatic = cs.all Content.isStatic := by
        have hmap := map_eq_of_forall₂ hcs fun _ _ hcc => hcc.isStatic_eq
        have hid := congrArg (List.all · fun b => b) hmap
        rwa [List.all_map, List.all_map] at hid
      have hreplaceable : isReplaceable Options.web.platform el' =
          isReplaceable Options.web.platform el := by
        have hinline : el'.hasAttribute "inline-template" = el.hasAttribute "inline-template" :=
          congrArg isSome (hel.attribute?_fixed (by decide))
        rw [isReplaceable, isReplaceable, hinline,
          hel.read tag fun _ => rfl]
      have hmarkedChildren := hpart hchildren ihchildren
      have hmarkedBranches := hpart hbranches ihbranches
      simp only [Static.markNodes, markNodesOf_eq_map, hreplaceable, h.isStaticAlone hel,
        hall hmarkedChildren, hall hmarkedBranches]
      have hstatic (isStatic : Bool) := hel.change (fun el => { el with isStatic }) fun _ => rfl
      split
      · exact .element id (hstatic _) hchildren hbranches hslots
      · exact .element id (hstatic _) hmarkedChildren hmarkedBranches hslots

theorem store {p : NodeId → Nat} (h : tree.Alike p tree') (hp : ∀ id, p id = 1) {c c' : Content}
    (hc : c.Alike c') : (tree.store c).Alike p (tree'.store c') := by
  have hnodes := hc.nodes
  rw [Tree.store, Tree.store]
  generalize c.nodes = l at hnodes
  generalize c'.nodes = l' at hnodes
  induction hnodes generalizing tree tree' with
  | nil => exact h
  | @cons x x' _ _ hxx _ ih =>
    obtain ⟨hid, hnode⟩ := hxx
    rw [foldl_cons, foldl_cons, hid]
    refine ih (h.set (fun _ _ => rfl) ?_)
    rw [hp]
    exact hnode

theorem marked (h : tree.Alike (fun _ => 1) tree') :
    (tree.marked .web).Alike (fun _ => 1) (tree'.marked .web) := by
  rw [Tree.marked, Tree.marked, rootContent?, rootContent?, h.root]
  cases tree.root with
  | none => exact h
  | some root =>
    have hcontent : (tree.content root).Alike (tree'.content root) := by
      rw [content, content, h.size]
      exact h.contentTo _ root
    exact h.store (fun _ => rfl) (h.markNodes hcontent).markRoots

end Tree.Alike

end ViewTemplate
