import ViewTemplate.Proofs.ElementSites
import ViewTemplate.Proofs.ParallelGeneration
import ViewTemplate.Proofs.RespelledContent
import ViewTemplate.Proofs.RespelledRules

/-! # Code in two spellings

The code of a template depends on its elements by what they show, by attributes whose names have one
spelling, and by the values of a check box or radio button. So corresponding trees have the same
code, whatever is reported on the way.
-/

open List Option

namespace ViewTemplate

open Element

namespace Render

/-! ## Generations that differ in reports -/

/-- Two generations that collect the same, whatever they report, and give what is related. -/
def Agrees {α : Type} (base : List Code) (R : List Code → α → α → Prop) (x y : Generation α) : Prop :=
  ∀ p, (y.run p).value.2 = (x.run p).value.2 ∧
    ∀ done, base <+: done → R done (x.run p).value.1 (y.run p).value.1

/-- Two generations that give and collect the same, whatever they report. -/
def Same {α : Type} (x y : Generation α) : Prop := ∀ p, (x.run p).value = (y.run p).value

theorem Agrees.same {α : Type} {base : List Code} {x y : Generation α}
    (h : Agrees base (fun _ a b => b = a) x y) : Same x y := fun p =>
  Prod.ext ((h p).2 base (prefix_refl base)).symm (h p).1.symm

namespace Same

variable {α β : Type} {x y : Generation α}

theorem agrees (h : Same x y) (base : List Code) : Agrees base (fun _ a b => b = a) x y := by
  intro p
  rw [h p]
  exact ⟨rfl, fun _ _ => rfl⟩

theorem refl (x : Generation α) : Same x x := fun _ => rfl

theorem bind (f : α → Generation β) (hx : Same x y) : Same (x >>= f) (y >>= f) := by
  intro p
  rw [StateT.run_bind, StateT.run_bind, Reported.value_bind, Reported.value_bind, hx p]

theorem ite (c : Prop) [Decidable c] {x' y' : Generation α} (hx : Same x y) (hx' : Same x' y') :
    Same (if c then x else x') (if c then y else y') := by
  split
  · exact hx
  · exact hx'

end Same

/-- Scenes of corresponding trees. -/
structure Scene.Alike (scene scene' : Scene) : Prop where
  options : scene.options = .web
  options_second : scene'.options = .web
  rules : scene.rules = Rule.builtIn
  rules_second : scene'.rules = Rule.builtIn
  tree : scene.tree.Alike (fun _ => 1) scene'.tree

/-- Renderings of corresponding contents that give the same in every place. -/
structure Rendering.Alike (r r' : Rendering) : Prop where
  content : r.content.Alike r'.content
  node : ∀ verbatim, Same (r.node verbatim) (r'.node verbatim)
  branch : ∀ verbatim, Same (r.branch verbatim) (r'.branch verbatim)
  slot : ∀ verbatim, Same (r.slot verbatim) (r'.slot verbatim)

variable {scene scene' : Scene} {n : Nat} {el el' : Element}

/-! ## Content -/

/-- Whether an outlet lies in a content does not depend on spellings. -/
theorem holdsOutlet_alike {c c' : Content} (h : c.Alike c') : c'.holdsOutlet = c.holdsOutlet := by
  induction c using Content.induction generalizing c' with
  | plain id t =>
    cases h
    rfl
  | interpolated id t =>
    cases h
    rfl
  | element id el children branches slots ihchildren _ _ =>
    cases h with
    | @element _ _ el' _ children' _ _ _ _ hel hchildren _ _ =>
      have hmap : children'.map Content.holdsOutlet = children.map Content.holdsOutlet :=
        map_eq_of_forall₂ (forall₂_imp_mem hchildren fun c hc _ hcc => ihchildren c hc hcc)
          fun _ _ heq => heq
      have hany := congrArg (any · fun b => b) hmap
      rw [List.any_map, List.any_map] at hany
      rw [Content.holdsOutlet, Content.holdsOutlet, Content.anyHoldsOutlet_eq_any,
        Content.anyHoldsOutlet_eq_any, hel.read tag fun _ => rfl]
      exact congrArg (el.tag == "slot" || ·) hany

theorem Rendering.Alike.map_shown_blocks {r r' : Rendering} (h : r.Alike r') :
    (blocks r').map shown = (blocks r).map shown := by
  have hcontent := h.content
  rw [blocks, blocks]
  generalize r.content = c at hcontent
  generalize r'.content = c' at hcontent
  cases hcontent with
  | plain id t range => rfl
  | interpolated id t range => rfl
  | @element id el el' _ _ branches branches' _ _ hel _ hbranches _ =>
    have hshown : (branches'.filterMap Content.element?).map shown =
        (branches.filterMap Content.element?).map shown := by
      have hmap := map_eq_of_forall₂ hbranches fun _ _ hc => hc.map_shown_element?
      have hjoined := congrArg (filterMap fun o => o) hmap
      rw [filterMap_map, filterMap_map] at hjoined
      rw [map_filterMap, map_filterMap]
      exact hjoined
    show el'.shown :: _ = el.shown :: _
    rw [hel.shown, hshown]

theorem Rendering.Alike.looks {r r' : Rendering} (h : r.Alike r') : r.Looks r' where
  element := by
    have hshown := congrArg (Option.map Element.unmarked) h.content.map_shown_element?
    rwa [Option.map_map, Option.map_map] at hshown
  blocks := by
    have hshown := congrArg (List.map Element.unmarked) h.map_shown_blocks
    rwa [List.map_map, List.map_map] at hshown
  outlet := holdsOutlet_alike h.content

/-! ## Wrappers -/

section

variable (hscene : scene.Alike scene') (hel : el.Alike n el')
include hscene hel

theorem same_hoist (id : NodeId) {code code' : Bool → Generation Code}
    (h : ∀ verbatim, Same (code verbatim) (code' verbatim)) (verbatim : Bool) :
    Same (hoist scene id el code verbatim) (hoist scene' id el' code' verbatim) := by
  rw [hoist, hoist, hscene.tree.isVerbatim_eq, hel.read staticInLoop fun _ => rfl]
  exact (h _).bind _

theorem loopKey?_alike :
    loopKey? scene' el' = loopKey? scene el := by
  have hmap := congrArg (fun l => (l.find? fun a : Element => a.loop.isSome).bind Element.key)
    (hscene.tree.map_shown_around hel)
  simp only [find?_map, bind_map] at hmap
  rw [loopKey?, loopKey?]
  exact congrArg (Option.filter fun key => decide (key ≠ "")) hmap

theorem same_onceInLoop {x y : Generation Code} (hx : Same x y) :
    Same (onceInLoop scene el x) (onceInLoop scene' el' y) := by
  rw [onceInLoop, onceInLoop, loopKey?_alike hscene hel]
  cases loopKey? scene el with
  | none => exact hx
  | some key => exact hx.bind _

end

/-! ## Data -/

section Data

variable {r : Respelling}

theorem directiveEntry_unplaced (d : Directive) :
    directiveEntry d.unplaced = directiveEntry d := rfl

theorem applyRule_alike (hscene : scene.Alike scene') {d d' : Directive}
    (hd : d'.unplaced = d.unplaced)
    (hmodel : d.name = "model" → r.first.written.keys.any Opening.isModel = true)
    (hel : el.Respelled r n el') :
    RuledAlike r n (applyRule scene el d).value (applyRule scene' el' d').value := by
  have hname : d'.unplaced.name = d.unplaced.name := by rw [hd]
  change d'.name = d.name at hname
  rw [applyRule, applyRule, hscene.rules, hscene.rules_second, hscene.options,
    hscene.options_second, hname]
  cases hrule : Rule.builtIn.get? d.name with
  | none => exact ⟨hel, rfl⟩
  | some rule => exact hel.builtIn _ hd hmodel hrule

theorem applyRules_alike (hscene : scene.Alike scene') {ds ds' : List Directive}
    (hds : Forall₂ (fun d d' => d'.unplaced = d.unplaced) ds ds')
    (hmodels : ∀ d ∈ ds, d.name = "model" → r.first.written.keys.any Opening.isModel = true)
    (hel : el.Respelled r n el') :
    (applyRules scene ds el).value.1.Respelled r n (applyRules scene' ds' el').value.1 ∧
      (applyRules scene' ds' el').value.2 = (applyRules scene ds el).value.2 := by
  induction hds generalizing el el' with
  | nil => exact ⟨hel, rfl⟩
  | @cons d d' ds ds' hd _ ih =>
    rw [forall_mem_cons] at hmodels
    have hruled := applyRule_alike hscene hd hmodels.1 hel
    obtain ⟨hrest, hentries⟩ := ih hmodels.2 hruled.element
    have hentry : directiveEntry d' = directiveEntry d := by
      rw [← directiveEntry_unplaced, hd, directiveEntry_unplaced]
    simp only [applyRules, Reported.value_bind, Reported.value_pure]
    refine ⟨hrest, ?_⟩
    rw [hruled.needed, hentries, hentry]

end Data

/-! ## Elements -/

/-- Sites of corresponding elements with corresponding parts. -/
structure Site.Alike (site site' : Site) : Prop where
  id : site'.id = site.id
  el : site.el.Alike 1 site'.el
  children : Forall₂ Rendering.Alike site.children site'.children
  branches : Forall₂ Rendering.Alike site.branches site'.branches
  slots : Forall₂ Rendering.Alike site.slots site'.slots

/-- What is said of corresponding elements is said in parallel. -/
theorem Scene.Alike.parallel (hscene : scene.Alike scene') :
    Parallel scene scene' (Element.Alike 1) (fun _ c c' => c' = c) Agrees where
  text _ _ := rfl
  append hc hd := by rw [hc, hd]
  mono hc _ := hc
  pure hR := fun _ => ⟨rfl, hR⟩
  bind := by
    intro _ _ base _ _ x y f g hx hf p
    rw [StateT.run_bind, StateT.run_bind, Reported.value_bind, Reported.value_bind, (hx p).1]
    exact hf base _ _ (prefix_refl base) ((hx p).2 base (prefix_refl base)) _
  apart := by
    intro base x y hx p
    have hsame := hx.same {}
    show _ ∧ ∀ done, _ → Code.inlined (y.run {}).value.1 (y.run {}).value.2.functions =
      .inlined (x.run {}).value.1 (x.run {}).value.2.functions
    rw [hsame]
    exact ⟨rfl, fun _ _ => rfl⟩
  options := hscene.options_second.trans hscene.options.symm
  verbatim := hscene.tree.isVerbatim_eq
  essence hel := congrArg Element.unmarked hel.shown
  around hel := by
    have hshown := congrArg (List.map Element.unmarked) (hscene.tree.map_shown_around hel)
    rwa [List.map_map, List.map_map] at hshown
  lookup hel name hname := hel.attribute?_fixed (by
    rcases mem_pair.mp hname with rfl | rfl
    · decide
    · decide)
  extensions hel x hx := by
    rw [hscene.options] at hx
    rcases Options.eq_of_mem_web hx with rfl | rfl
    · exact ⟨hel.read Extension.classList.data fun _ => rfl, rfl⟩
    · exact ⟨hel.read Extension.inlineStyle.data fun _ => rfl, rfl⟩
  rules := by
    rintro _ el el' ⟨r, hel⟩
    have hds : Forall₂ (fun d d' : Directive => d'.unplaced = d.unplaced) el.directives
        el'.directives := by
      have hmap : el'.directives.map Directive.unplaced = el.directives.map Directive.unplaced :=
        congrArg Element.directives hel.shown
      have heq := forall₂_eq_eq_eq.symm ▸ hmap.symm
      rw [forall₂_map_left_iff, forall₂_map_right_iff] at heq
      exact heq.imp fun _ _ h => h.symm
    obtain ⟨hruled, hentries⟩ := applyRules_alike hscene hds hel.models hel
    exact fun p => ⟨rfl, fun _ _ => ⟨⟨r, hruled⟩, hentries⟩⟩
  tip _ _ := fun _ => ⟨rfl, fun _ _ => trivial⟩
  error _ _ := fun _ => ⟨rfl, fun _ _ => trivial⟩

theorem Rendering.Alike.parallel {r r' : Rendering} (h : r.Alike r') :
    r.Parallel (fun _ => True) (fun _ c c' => c' = c) Agrees r' :=
  ⟨h.looks, fun verbatim _ => (h.node verbatim).agrees, fun verbatim _ => (h.branch verbatim).agrees⟩

namespace Site.Alike

variable {site site' : Site} (h : site.Alike site') (hscene : scene.Alike scene')
include h hscene

theorem parallel : site.Parallel (fun _ => True) scene scene' (Element.Alike 1)
    (fun _ c c' => c' = c) Agrees site' where
  id := h.id
  el := h.el
  children := h.children.imp fun _ _ hr => hr.parallel
  branches := h.branches.imp fun _ _ hr => hr.parallel
  slots := by
    rw [Bool.eq_iff_iff, isEmpty_iff_length_eq_zero, isEmpty_iff_length_eq_zero, h.slots.length_eq]
  entry hel verbatim _ := hscene.parallel.slotsEntry (fun hc => hc) hel
    (h.slots.imp fun _ _ hr => ⟨hr.looks, (hr.slot verbatim).agrees⟩)

theorem inside (verbatim : Bool) :
    Same (site.inside scene verbatim) (site'.inside scene' verbatim) :=
  (hscene.parallel.inside trivial (h.parallel hscene) trivial []).same

theorem withChoice (pending : Pending) (verbatim : Bool) {x y : Generation Code} (hxy : Same x y) :
    Same (site.withChoice pending verbatim x) (site'.withChoice pending verbatim y) :=
  (hscene.parallel.withChoice (h.parallel hscene) trivial [] pending hxy.agrees).same

theorem withLoop (pending : Pending) {x y : Generation Code} (hxy : Same x y) :
    Same (site.withLoop scene pending x) (site'.withLoop scene' pending y) :=
  (hscene.parallel.withLoop (h.parallel hscene) [] pending hxy.agrees).same

theorem hoisted {code code' : Bool → Generation Code}
    (hcode : ∀ verbatim, Same (code verbatim) (code' verbatim)) (verbatim : Bool) :
    Same (site.hoisted scene code verbatim) (site'.hoisted scene' code' verbatim) := by
  rw [Site.hoisted, Site.hoisted, h.id]
  exact same_hoist hscene h.el site.id hcode verbatim

theorem once (pending : Pending) (apart verbatim : Bool) :
    Same (site.once scene pending apart verbatim) (site'.once scene' pending apart verbatim) := by
  have hcode (verbatim : Bool) := h.withLoop hscene pending (h.inside hscene verbatim)
  rw [Site.once, Site.once]
  refine h.withChoice hscene pending verbatim ?_
  rw [h.el.read staticInLoop fun _ => rfl, h.el.read staticRoot fun _ => rfl]
  refine .ite _ (same_onceInLoop hscene h.el ?_) (h.hoisted hscene hcode verbatim)
  exact .ite _ (h.hoisted hscene hcode verbatim) (hcode verbatim)

theorem wrapped (pending : Pending) (verbatim : Bool) :
    Same (site.wrapped scene pending verbatim) (site'.wrapped scene' pending verbatim) := by
  have hroot : site'.el.staticRoot = site.el.staticRoot := h.el.read staticRoot fun _ => rfl
  have honce : site'.el.once = site.el.once := h.el.read Element.once fun _ => rfl
  rw [Site.wrapped, Site.wrapped]
  dsimp only
  rw [hroot, honce]
  have hcode (verbatim : Bool) :=
    Same.ite (site.el.once = true) (h.once hscene pending site.el.staticRoot verbatim)
      (h.withLoop hscene pending (h.withChoice hscene pending verbatim (h.inside hscene verbatim)))
  exact .ite _ (h.hoisted hscene hcode verbatim) (hcode verbatim)

theorem branch (verbatim : Bool) :
    Same (site.branch scene verbatim) (site'.branch scene' verbatim) := by
  rw [Site.branch, Site.branch, h.el.read Element.once fun _ => rfl]
  exact .ite _ (h.once hscene {} false verbatim) (h.wrapped hscene {} verbatim)

theorem slot (verbatim : Bool) :
    Same (site.slot scene verbatim) (site'.slot scene' verbatim) :=
  (hscene.parallel.slot (h.parallel hscene) trivial [] (h.wrapped hscene _ verbatim).agrees
    (h.branches.imp fun _ _ hr => (hr.slot verbatim).agrees)).same

end Site.Alike

/-- Corresponding contents are rendered alike. -/
theorem rendering_alike (hscene : scene.Alike scene') {c c' : Content} (h : c.Alike c') :
    (rendering scene c).Alike (rendering scene' c') := by
  induction c using Content.induction generalizing c' with
  | plain id t =>
    cases h with
    | plain _ _ range =>
      exact ⟨.plain id t range, fun _ => .refl _, fun _ => .refl _, fun _ => .refl _⟩
  | interpolated id t =>
    cases h with
    | interpolated _ _ range =>
      exact ⟨.interpolated id t range, fun _ => .refl _, fun _ => .refl _, fun _ => .refl _⟩
  | element id el children branches slots ihchildren ihbranches ihslots =>
    have hpart {cs cs' : List Content} (hcs : Forall₂ Content.Alike cs cs')
        (ih : ∀ c ∈ cs, ∀ {c'}, c.Alike c' → (rendering scene c).Alike (rendering scene' c')) :
        Forall₂ Rendering.Alike (cs.map (rendering scene)) (cs'.map (rendering scene')) :=
      forall₂_map (forall₂_imp_mem hcs fun c hc _ hcc => ih c hc hcc)
    cases h with
    | @element _ _ el' _ children' _ branches' _ slots' hel hchildren hbranches hslots =>
      rw [rendering, rendering]
      simp only [renderings_eq_map]
      have hsite : Site.Alike
          ⟨id, el, children.map (rendering scene), branches.map (rendering scene),
            slots.map (rendering scene)⟩
          ⟨id, el', children'.map (rendering scene'), branches'.map (rendering scene'),
            slots'.map (rendering scene')⟩ :=
        ⟨rfl, hel, hpart hchildren ihchildren, hpart hbranches ihbranches, hpart hslots ihslots⟩
      exact ⟨.element id hel hchildren hbranches hslots, hsite.wrapped hscene {},
        hsite.branch hscene, hsite.slot hscene⟩

end Render

/-- Corresponding trees have the same code. -/
theorem Tree.Alike.program {tree tree' : Tree} (h : tree.Alike (fun _ => 1) tree') :
    (tree'.program .web).value = (tree.program .web).value := by
  have hscene : (Render.Scene.ofTree .web tree).Alike (Render.Scene.ofTree .web tree') :=
    ⟨rfl, rfl, rfl, rfl, h⟩
  have hgeneration : Render.Same
      (Render.generation (.ofTree .web tree) tree.rootContent?)
      (Render.generation (.ofTree .web tree') tree'.rootContent?) := by
    rw [rootContent?, rootContent?, h.root]
    cases tree.root with
    | none => exact .refl _
    | some root =>
      have hcontent : (tree.content root).Alike (tree'.content root) := by
        rw [content, content, h.size]
        exact h.contentTo _ root
      exact (hscene.parallel.rootCode trivial (Render.rendering_alike hscene hcontent).parallel []).same
  rw [Tree.program, Tree.program, Reported.value_bind, Reported.value_bind, ← hgeneration {}]

end ViewTemplate
