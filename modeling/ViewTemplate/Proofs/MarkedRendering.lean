import ViewTemplate.Proofs.ConfinedExtension
import ViewTemplate.Proofs.ElementSites
import ViewTemplate.Proofs.ParallelGeneration
import ViewTemplate.Proofs.Tracking

/-! # Rendering with and without static marks

Static marks decide which elements become functions of their own, and nothing else. So what is
generated for a marked element tracks what is generated for the element without marks, part by part.
-/

open List Option

namespace ViewTemplate

namespace Content

theorem element?_unmarked (c : Content) :
    c.unmarked.element? = c.element?.map Element.unmarked := by
  cases c with
  | plain id t => rfl
  | interpolated id t => rfl
  | element id el children branches slots => rw [unmarked_element]; rfl

theorem holdsOutlet_unmarked (c : Content) : c.unmarked.holdsOutlet = c.holdsOutlet := by
  induction c using Content.induction with
  | plain id t => rfl
  | interpolated id t => rfl
  | element id el children branches slots ihchildren _ _ =>
    have hchildren : (children.map unmarked).any holdsOutlet = children.any holdsOutlet := by
      rw [List.any_map, Bool.eq_iff_iff, List.any_eq_true, List.any_eq_true]
      exact exists_congr fun c => and_congr_right fun hc => by rw [← ihchildren c hc]; rfl
    rw [unmarked_element, holdsOutlet, holdsOutlet, anyHoldsOutlet_eq_any, anyHoldsOutlet_eq_any,
      hchildren]
    rfl

end Content

theorem Tree.isVerbatim_unmarked (tree : Tree) (id : NodeId) :
    tree.unmarked.isVerbatim id = tree.isVerbatim id := by
  rw [isVerbatim, isVerbatim, ancestors, size_unmarked, ancestorsFrom_unmarked, List.any_map]
  rfl

namespace Render

/-- The scene with a tree without static marks. -/
def Scene.unmarked (scene : Scene) : Scene := { scene with tree := scene.tree.unmarked }

/-- A scene without verbatim regions, in which nothing that is brought from outside looks at
marks. -/
structure Scene.Regular (scene : Scene) : Prop where
  extensions : ∀ x ∈ scene.options.extensions, x.IgnoresMarks
  rules : ∀ name rule, scene.rules.get? name = some rule → Rule.IgnoresMarks rule
  verbatim : ∀ id, scene.tree.isVerbatim id = false

theorem Scene.Regular.unmarked {scene : Scene} (h : scene.Regular) : scene.unmarked.Regular :=
  { h with verbatim := fun id => (scene.tree.isVerbatim_unmarked id).trans (h.verbatim id) }

/-- Code that tracks other code whatever has been collected. -/
def Mirrors (stands : NodeId → Bool → Code → Prop) (quiet : Prop) (x y : Generation Code) : Prop :=
  ∀ base, Tracks stands quiet base (Alike stands quiet) x y

/-- A rendering that tracks another one in every place. Content of slots has no marks. -/
structure Rendering.Mirrors (stands : NodeId → Bool → Code → Prop) (quiet : Prop)
    (r r' : Rendering) : Prop where
  content : r'.content = r.content.unmarked
  node : Render.Mirrors stands quiet (r.node false) (r'.node false)
  branch : Render.Mirrors stands quiet (r.branch false) (r'.branch false)
  slot : quiet → Render.Mirrors stands quiet (r.slot false) (r'.slot false)

variable {stands : NodeId → Bool → Code → Prop} {quiet : Prop} {scene : Scene}

/-! ## Content -/

theorem blocks_unmarked {r r' : Rendering} (h : r'.content = r.content.unmarked) :
    blocks r' = (blocks r).map Element.unmarked := by
  rw [blocks, blocks, h]
  cases r.content with
  | plain id t => rfl
  | interpolated id t => rfl
  | element id el children branches slots =>
    have hbranches : (branches.map Content.unmarked).filterMap Content.element? =
        (branches.filterMap Content.element?).map Element.unmarked := by
      rw [filterMap_map, map_filterMap]
      exact filterMap_congr fun c _ => c.element?_unmarked
    rw [Content.unmarked_element]
    simp only [map_cons, hbranches]

theorem Rendering.Mirrors.looks {r r' : Rendering} (h : Rendering.Mirrors stands quiet r r') :
    r.Looks r' where
  element := by rw [h.content, Content.element?_unmarked, Option.map_map]; rfl
  blocks := by rw [blocks_unmarked h.content, List.map_map]; rfl
  outlet := by rw [h.content, Content.holdsOutlet_unmarked]

/-! ## Rules -/

theorem applyRule_unmarked (hscene : scene.Regular) (el : Element) (d : Directive) :
    applyRule scene.unmarked el.unmarked d =
      (fun e => (e.1.unmarked, e.2)) <$> applyRule scene el d := by
  simp only [applyRule, Scene.unmarked]
  split
  · rename_i rule hrule
    exact hscene.rules d.name rule hrule _ el d
  · rfl

/-- The rules of the directives do the same to an element without marks. -/
theorem applyRules_unmarked (hscene : scene.Regular) (ds : List Directive) (el : Element) :
    applyRules scene.unmarked ds el.unmarked =
      (fun e => (e.1.unmarked, e.2)) <$> applyRules scene ds el := by
  induction ds generalizing el with
  | nil => rfl
  | cons d ds ih =>
    rw [applyRules, applyRules, applyRule_unmarked hscene]
    ext1 <;> simp [ih]

/-- Tracking follows the way of generation, where the second scene has no marks. -/
theorem Scene.Regular.parallel (hscene : scene.Regular) :
    Parallel scene scene.unmarked (fun el el' => el' = el.unmarked) (Alike stands quiet)
      (Tracks stands quiet) where
  text _ := .text
  append := .append
  mono := .mono
  pure := .pure
  bind := .bind
  apart hx := .apart hx _
  options := rfl
  verbatim := scene.tree.isVerbatim_unmarked
  essence := by rintro el _ rfl; rfl
  around := by
    rintro el _ rfl
    show (scene.tree.unmarked.around el.unmarked).map _ = _
    rw [scene.tree.around_unmarked, List.map_map]
    rfl
  lookup := by rintro el _ rfl _ _; rfl
  extensions := by
    rintro el _ rfl x hx
    exact ⟨(hscene.extensions x hx).data el, (hscene.extensions x hx).around el⟩
  rules := by
    rintro base el _ rfl
    have hdirectives : el.unmarked.directives = el.directives := rfl
    rw [hdirectives, applyRules_unmarked hscene]
    exact .lift (by simp) fun _ _ => ⟨rfl, rfl⟩
  tip := by rintro base el _ rfl _; exact .lift rfl fun _ _ => trivial
  error := by rintro base el _ rfl _; exact .lift rfl fun _ _ => trivial

theorem Rendering.Mirrors.parallel {r r' : Rendering} (h : Rendering.Mirrors stands quiet r r') :
    r.Parallel (false = ·) (Alike stands quiet) (Tracks stands quiet) r' :=
  ⟨h.looks, by rintro _ rfl; exact h.node, by rintro _ rfl; exact h.branch⟩

/-! ## Elements -/

/-- A site whose parts track those of another one, which has no marks. -/
structure Site.Mirrors (stands : NodeId → Bool → Code → Prop) (quiet : Prop) (site site' : Site) :
    Prop where
  id : site'.id = site.id
  el : site'.el = site.el.unmarked
  children : Forall₂ (Rendering.Mirrors stands quiet) site.children site'.children
  branches : Forall₂ (Rendering.Mirrors stands quiet) site.branches site'.branches
  slots : Forall₂ (Rendering.Mirrors stands True) site.slots site'.slots
  once : site.el.once = false
  quiet : quiet → site.el.staticRoot = false

namespace Site

variable {site site' : Site}

theorem Mirrors.parallel (hscene : scene.Regular) (h : site.Mirrors stands quiet site') :
    site.Parallel (false = ·) scene scene.unmarked (fun el el' => el' = el.unmarked)
      (Alike stands quiet) (Tracks stands quiet) site' where
  id := h.id
  el := h.el
  children := h.children.imp fun _ _ hr => hr.parallel
  branches := h.branches.imp fun _ _ hr => hr.parallel
  slots := by
    rw [Bool.eq_iff_iff, isEmpty_iff_length_eq_zero, isEmpty_iff_length_eq_zero, h.slots.length_eq]
  entry := by
    -- Content of slots has no marks, so its code is the same, and so is its key.
    rintro el _ rfl _ rfl base
    have hentry : Tracks stands True base (Alike stands True) (slotsEntry scene el site.slots false)
        (slotsEntry scene.unmarked el.unmarked site'.slots false) :=
      hscene.parallel.slotsEntry (fun hc => (hc.eq trivial).symm) rfl
        (h.slots.imp fun _ _ hr => ⟨hr.looks, hr.slot trivial⟩) base
    exact hentry.weaken (fun _ => trivial) (prefix_refl base) fun _ _ _ hc =>
      hc.weaken fun _ => trivial

/-- The element inside its loop and its choice. -/
def bare (scene : Scene) (site : Site) (pending : Pending) : Generation Code :=
  site.withLoop scene pending (site.withChoice pending false (site.inside scene false))

/-- An element that is not rendered once has a function of its own or none. -/
theorem wrapped_eq (hscene : scene.Regular) (honce : site.el.once = false) (pending : Pending) :
    site.wrapped scene pending false =
      if site.el.staticRoot then (do
        let code ← site.bare scene pending
        let index ← Generation.collect code
        return .hoisted site.id index site.el.staticInLoop)
      else site.bare scene pending := by
  simp only [wrapped, honce, hoisted, hoist, hscene.verbatim site.id]
  rfl

theorem Mirrors.bare (hscene : scene.Regular) (h : site.Mirrors stands quiet site')
    (pending : Pending) :
    Render.Mirrors stands quiet (site.bare scene pending) (site'.bare scene.unmarked pending) := by
  have hsite := h.parallel hscene
  exact fun base => hscene.parallel.withLoop hsite base pending fun base =>
    hscene.parallel.withChoice hsite rfl base pending (hscene.parallel.inside rfl hsite rfl)

/-- The element in all its wrappers. Where it is hoisted, its call has to stand for the code that is
generated without marks. -/
theorem Mirrors.wrapped (hscene : scene.Regular) (h : site.Mirrors stands quiet site')
    (pending : Pending)
    (hstands : site.el.staticRoot = true → stands site.id site.el.staticInLoop
      ((site'.wrapped scene.unmarked pending false).run {}).value.1) :
    Render.Mirrors stands quiet (site.wrapped scene pending false)
      (site'.wrapped scene.unmarked pending false) := by
  intro base
  have hroot : site'.el.staticRoot = false := by
    rw [h.el]
    rfl
  have hbare : site'.wrapped scene.unmarked pending false = site'.bare scene.unmarked pending := by
    have honce : site'.el.once = false := by
      rw [h.el]
      exact h.once
    rw [wrapped_eq hscene.unmarked honce, hroot]
    rfl
  rw [hbare] at hstands ⊢
  rw [wrapped_eq hscene h.once]
  split
  · rename_i hstatic
    refine Tracks.hoist (h.bare hscene pending base) ?_ (hstands hstatic)
    intro hquiet
    rw [h.quiet hquiet] at hstatic
    cases hstatic
  · exact h.bare hscene pending base

theorem Mirrors.branch (h : site.Mirrors stands quiet site')
    (hwrapped : Render.Mirrors stands quiet (site.wrapped scene {} false)
      (site'.wrapped scene.unmarked {} false)) :
    Render.Mirrors stands quiet (site.branch scene false) (site'.branch scene.unmarked false) := by
  have honce : site'.el.once = site.el.once := by
    rw [h.el]
    rfl
  rw [Site.branch, Site.branch, honce, h.once]
  exact hwrapped

section

variable (hscene : scene.Regular) (h : site.Mirrors stands quiet site')
include hscene h

/-- The element as content of a slot, where nothing is hoisted. -/
theorem Mirrors.slot (hquiet : quiet) :
    Render.Mirrors stands quiet (site.slot scene false) (site'.slot scene.unmarked false) := by
  intro base
  refine hscene.parallel.slot (h.parallel hscene) rfl base (h.wrapped hscene _ ?_)
    (h.branches.imp fun _ _ hr => hr.slot hquiet)
  intro hstatic
  rw [h.quiet hquiet] at hstatic
  cases hstatic

theorem Mirrors.rendering (c : Content)
    (hstands : site.el.staticRoot = true → stands site.id site.el.staticInLoop
      ((site'.wrapped scene.unmarked {} false).run {}).value.1) :
    Rendering.Mirrors stands quiet (site.rendering scene c)
      (site'.rendering scene.unmarked c.unmarked) where
  content := rfl
  node := h.wrapped hscene {} hstands
  branch := h.branch (h.wrapped hscene {} hstands)
  slot hquiet := h.slot hscene hquiet

end

end Site

/-! ## Contents -/

/-- A content of which nothing is rendered once, whose slots have no marks, and in which the call of
each hoisted element stands for the code that is generated for it without marks. -/
inductive Tidy (stands : NodeId → Bool → Code → Prop) (scene : Scene) : Content → Prop
  | plain (id : NodeId) (t : PlainText) : Tidy stands scene (.plain id t)
  | interpolated (id : NodeId) (t : InterpolatedText) : Tidy stands scene (.interpolated id t)
  | element {id : NodeId} {el : Element} {children branches slots : List Content}
      (hchildren : ∀ c ∈ children, Tidy stands scene c)
      (hbranches : ∀ c ∈ branches, Tidy stands scene c)
      (hslots : ∀ c ∈ slots, Tidy stands scene c)
      (hunmarked : ∀ c ∈ slots, c.unmarked = c)
      (honce : el.once = false)
      (hstands : el.staticRoot = true → stands id el.staticInLoop
        (((rendering scene.unmarked
          (Content.element id el children branches slots).unmarked).node false).run {}).value.1) :
      Tidy stands scene (.element id el children branches slots)

theorem Rendering.Mirrors.weaken {still : Prop} {r r' : Rendering}
    (h : Rendering.Mirrors stands still r r') (hq : quiet → still) :
    Rendering.Mirrors stands quiet r r' := by
  have hweaken {x y : Generation Code} (hx : Render.Mirrors stands still x y) :
      Render.Mirrors stands quiet x y := fun base =>
    (hx base).weaken hq (prefix_refl base) fun _ _ _ hc => hc.weaken hq
  exact ⟨h.content, hweaken h.node, hweaken h.branch, fun hquiet => hweaken (h.slot (hq hquiet))⟩

theorem mirrors_leaf (c : Content) (code : String) :
    Rendering.Mirrors stands quiet (leaf c code) (leaf c.unmarked code) := by
  have hcode : Render.Mirrors stands quiet (pure code) (pure code) :=
    fun _ => .pure fun _ _ => .text code
  exact ⟨rfl, hcode, hcode, fun _ => hcode⟩

theorem mirrors_renderings {cs : List Content} (hq : quiet → ∀ c ∈ cs, c.unmarked = c)
    (h : ∀ c ∈ cs, Rendering.Mirrors stands (c.unmarked = c) (rendering scene c)
      (rendering scene.unmarked c.unmarked)) :
    Forall₂ (Rendering.Mirrors stands quiet) (renderings scene cs)
      (renderings scene.unmarked (cs.map Content.unmarked)) := by
  rw [renderings_eq_map, renderings_eq_map, forall₂_map_left_iff, forall₂_map_right_iff,
    forall₂_map_right_iff, forall₂_same]
  exact fun c hc => (h c hc).weaken fun hquiet => hq hquiet c hc

/-- An element with the renderings of its contents. -/
def Site.ofContents (scene : Scene) (id : NodeId) (el : Element)
    (children branches slots : List Content) : Site where
  id
  el
  children := renderings scene children
  branches := renderings scene branches
  slots := renderings scene slots

theorem rendering_unmarked_element (id : NodeId) (el : Element)
    (children branches slots : List Content) :
    rendering scene (Content.element id el children branches slots).unmarked =
      (Site.ofContents scene id el.unmarked (children.map Content.unmarked)
        (branches.map Content.unmarked) (slots.map Content.unmarked)).rendering scene
        (Content.element id el children branches slots).unmarked := by
  rw [Content.unmarked_element]
  rfl

/-- What is generated for a tidy content tracks what is generated for it without marks. -/
theorem mirrors_rendering (hscene : scene.Regular) {c : Content} (h : Tidy stands scene c) :
    Rendering.Mirrors stands (c.unmarked = c) (rendering scene c)
      (rendering scene.unmarked c.unmarked) := by
  induction h with
  | plain id t => exact mirrors_leaf (.plain id t) _
  | interpolated id t => exact mirrors_leaf (.interpolated id t) _
  | @element id el children branches slots _ _ _ hunmarked honce hstands ihchildren ihbranches
      ihslots =>
      have hmem {cs : List Content} (h : cs.map Content.unmarked = cs) : ∀ c ∈ cs, c.unmarked = c :=
        map_inj_left.mp (h.trans (List.map_id' cs).symm)
      have hsite : Site.Mirrors stands ((Content.element id el children branches slots).unmarked =
          .element id el children branches slots) (.ofContents scene id el children branches slots)
          (.ofContents scene.unmarked id el.unmarked (children.map Content.unmarked)
            (branches.map Content.unmarked) (slots.map Content.unmarked)) := by
        rw [Content.unmarked_element, Content.element.injEq]
        exact {
          id := rfl
          el := rfl
          children := mirrors_renderings (fun hq => hmem hq.2.2.1) ihchildren
          branches := mirrors_renderings (fun hq => hmem hq.2.2.2.1) ihbranches
          slots := mirrors_renderings (fun _ => hunmarked) ihslots
          once := honce
          quiet := fun hq => hq.2.1 ▸ rfl }
      rw [rendering_unmarked_element] at hstands ⊢
      exact hsite.rendering hscene _ hstands

end Render

end ViewTemplate
