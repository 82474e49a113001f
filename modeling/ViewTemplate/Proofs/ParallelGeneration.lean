import Mathlib.Data.List.Forall2
import ViewTemplate.Proofs.BuilderFrame
import ViewTemplate.Proofs.ShownElement

/-! # Generations in parallel

Code is generated for two trees side by side. Their elements go into the code alike, up to the places
where code is moved into functions of its own. So a relation between generations that follows the way
in which generation is put together holds between what is written for the one and for the other. The
code that was collected before is known up to what has been collected since.
-/

open List Option

namespace ViewTemplate

namespace Element

/-- What of an element goes into its code as it is: the element without places, without its attributes
as they are written and without static marks. -/
def essence (el : Element) : Element := el.shown.unmarked

theorem read_of_essence {α : Type} {el el' : Element} (h : el'.essence = el.essence) (f : Element → α)
    (hf : ∀ el, f el.essence = f el) : f el' = f el := by
  rw [← hf, h, hf]

end Element

open Element

namespace Render

/-! ## Places do not go into code -/

theorem properties_unplaced (l : List Attribute) :
    properties (l.map Attribute.unplaced) = properties l := by
  simp only [properties, List.filter_map, List.map_map]
  rfl

theorem handlers_unplaced (hs : List Handler) :
    handlers (hs.map Handler.unplaced) = handlers hs := by
  match hs with
  | [] => rfl
  | [h] => rfl
  | h :: h' :: hs =>
    show "[" ++ ",".intercalate (((h :: h' :: hs).map Handler.unplaced).map handler) ++ "]" = _
    rw [List.map_map]
    rfl

theorem isComputed_unplaced (hs : List Handler) :
    isComputed (hs.map Handler.unplaced) = isComputed hs := by
  match hs with
  | [] => rfl
  | [h] => rfl
  | h :: h' :: hs => rfl

theorem listenersEntry_unplaced (events : Keyed (List Handler)) (native : Bool) :
    listenersEntry events.unplaced native = listenersEntry events native := by
  have hentries : events.unplaced.entries =
      events.entries.map fun e => (e.1, e.2.map Handler.unplaced) := rfl
  simp only [listenersEntry, listeners, hentries, List.filter_map, List.map_map, Function.comp_def,
    isComputed_unplaced, handlers_unplaced]

section Core

variable {el el' : Element} (h : el'.essence = el.essence)
include h

theorem ownEntries_of_essence {scene : Scene}
    (hdata : ∀ x ∈ scene.options.extensions, x.data el' = x.data el) (verbatim : Bool)
    (directives : List String) :
    ownEntries scene verbatim el' directives = ownEntries scene verbatim el directives := by
  have hfields := read_of_essence h (fun el => (el.key, el.ref, el.refInLoop, el.component, el.tag,
    el.slotScope, el.slotTarget)) fun _ => rfl
  have hempty := read_of_essence h (fun el => (el.attributes.isEmpty, el.properties.isEmpty,
    el.events.isEmpty, el.nativeEvents.isEmpty)) fun el => by
      simp [essence, shown, unmarked, Keyed.unplaced, Keyed.map, Keyed.isEmpty]
  simp only [Prod.mk.injEq] at hfields hempty
  obtain ⟨hkey, href, hloop, hcomponent, htag, hscope, htarget⟩ := hfields
  obtain ⟨hattributes, hproperties, hevents, hnative⟩ := hempty
  delta ownEntries
  dsimp only
  rw [flatMap_congr hdata, hkey, href, hloop, hcomponent, htag, hscope, htarget, hattributes,
    hproperties, hevents, hnative,
    read_of_essence h (fun el => properties el.attributes) fun _ => properties_unplaced _,
    read_of_essence h (fun el => properties el.properties) fun _ => properties_unplaced _,
    read_of_essence h (fun el => listenersEntry el.events false) fun _ => listenersEntry_unplaced ..,
    read_of_essence h (fun el => listenersEntry el.nativeEvents true) fun _ =>
      listenersEntry_unplaced ..]

theorem withComputed_of_essence (data : Code) : withComputed el' data = withComputed el data := by
  refine read_of_essence h (withComputed · data) fun el => ?_
  have hdynamic : el.essence.dynamicAttributes = el.dynamicAttributes.map Attribute.unplaced := rfl
  delta withComputed
  dsimp only
  rw [hdynamic, isEmpty_map, properties_unplaced]
  rfl

end Core

/-- Renderings of which nothing else than the code depends on their places, marks and spellings: what
is read of their elements, and whether an outlet lies inside. -/
structure Rendering.Looks (r r' : Rendering) : Prop where
  element : r'.content.element?.map essence = r.content.element?.map essence
  blocks : (blocks r').map essence = (blocks r).map essence
  outlet : r'.content.holdsOutlet = r.content.holdsOutlet

theorem Rendering.Looks.refl (r : Rendering) : r.Looks r := ⟨rfl, rfl, rfl⟩

theorem Rendering.Looks.element_cases {r r' : Rendering} (h : r.Looks r') :
    r.content.element? = none ∧ r'.content.element? = none ∨
      ∃ el el', r.content.element? = some el ∧ r'.content.element? = some el' ∧
        el'.essence = el.essence := by
  have hlooks := h.element
  cases hel : r.content.element? with
  | none =>
    rw [hel, map_none, map_eq_none_iff] at hlooks
    exact .inl ⟨rfl, hlooks⟩
  | some el =>
    rw [hel, map_some] at hlooks
    obtain ⟨el', hel', hessence⟩ := map_eq_some_iff.mp hlooks
    exact .inr ⟨el, el', rfl, hel', hessence⟩

section Looks

variable {children children' : List Rendering} (h : Forall₂ Rendering.Looks children children')
include h

theorem flattening_of_looks (platform : Platform) :
    flattening platform children' = flattening platform children := by
  have hblocks : (children'.flatMap blocks).map essence = (children.flatMap blocks).map essence := by
    induction h with
    | nil => rfl
    | cons hr _ ih =>
      rw [flatMap_cons, flatMap_cons, map_append, map_append, ih, hr.blocks]
  have hany (f : Element → Bool) (hf : f ∘ essence = f) :
      (children'.flatMap blocks).any f = (children.flatMap blocks).any f := by
    have hmap := congrArg (any · f) hblocks
    rwa [List.any_map, List.any_map, hf] at hmap
  rw [flattening, flattening, hany mayBeList rfl, hany (isComponent platform) rfl]

theorem any_isVolatile_of_looks : children'.any isVolatile = children.any isVolatile := by
  induction h with
  | nil => rfl
  | @cons r r' _ _ hr _ ih =>
    have hany := congrArg (Option.any fun el : Element =>
      el.slotTargetDynamic || el.choice.isSome || el.loop.isSome) hr.element
    rw [Option.any_map, Option.any_map] at hany
    rw [any_cons, any_cons, ih, isVolatile, isVolatile, hr.outlet]
    exact congrArg (· || r.content.holdsOutlet || _) hany

end Looks

/-! ## Relations that follow the way of generation -/

/-- A relation `Q` between generations and what they give, which follows the way in which generation is
put together, where elements are related by `F` and code by `C`. The functions that have been collected
are a list that only grows. -/
structure Parallel (scene scene' : Scene) (F : Element → Element → Prop)
    (C : List Code → Code → Code → Prop)
    (Q : {α : Type} → List Code → (List Code → α → α → Prop) → Generation α → Generation α → Prop) :
    Prop where
  text : ∀ done s, C done (.text s) (.text s)
  append : ∀ {done : List Code} {c c' d d' : Code}, C done c c' → C done d d' →
    C done (c ++ d) (c' ++ d')
  mono : ∀ {done later : List Code} {c c' : Code}, C done c c' → done <+: later → C later c c'
  pure : ∀ {α : Type} {base : List Code} {R : List Code → α → α → Prop} {a b : α},
    (∀ done, base <+: done → R done a b) → Q base R (pure a) (pure b)
  bind : ∀ {α β : Type} {base : List Code} {R : List Code → α → α → Prop}
    {S : List Code → β → β → Prop} {x y : Generation α} {f g : α → Generation β}, Q base R x y →
      (∀ done a b, base <+: done → R done a b → Q done S (f a) (g b)) → Q base S (x >>= f) (y >>= g)
  apart : ∀ {base : List Code} {x y : Generation Code}, Q [] C x y →
    Q base (fun done e e' => C done (.inlined e.1 e.2) (.inlined e'.1 e'.2)) (Generation.apart x)
      (Generation.apart y)
  options : scene'.options = scene.options
  verbatim : ∀ id, scene'.tree.isVerbatim id = scene.tree.isVerbatim id
  essence : ∀ {el el' : Element}, F el el' → el'.essence = el.essence
  around : ∀ {el el' : Element}, F el el' →
    (scene'.tree.around el').map Element.essence = (scene.tree.around el).map Element.essence
  lookup : ∀ {el el' : Element}, F el el' → ∀ name ∈ ["v-bind", "slot-scope"],
    el'.attribute? name = el.attribute? name
  extensions : ∀ {el el' : Element}, F el el' → ∀ x ∈ scene.options.extensions,
    x.data el' = x.data el ∧ x.around el' = x.around el
  rules : ∀ {base : List Code} {el el' : Element}, F el el' →
    Q base (fun _ e e' => F e.1 e'.1 ∧ e'.2 = e.2) (StateT.lift (applyRules scene el.directives el))
      (StateT.lift (applyRules scene' el'.directives el'))
  tip : ∀ {base : List Code} {el el' : Element}, F el el' → ∀ notice,
    Q base (fun _ _ _ => True) (Generation.tip notice (el.rangeOf "v-for"))
      (Generation.tip notice (el'.rangeOf "v-for"))
  error : ∀ {base : List Code} {el el' : Element}, F el el' → ∀ notice,
    Q base (fun _ _ _ => True) (Generation.error notice el.range)
      (Generation.error notice el'.range)

section

variable (fits : Bool → Prop) (scene scene' : Scene) (F : Element → Element → Prop)
  (C : List Code → Code → Code → Prop)
  (Q : {α : Type} → List Code → (List Code → α → α → Prop) → Generation α → Generation α → Prop)

/-- Renderings that look alike and are related as children and as branches, in hoisted verbatim regions
or not as far as that fits. -/
structure Rendering.Parallel (r r' : Rendering) : Prop where
  looks : r.Looks r'
  node : ∀ verbatim, fits verbatim → ∀ base, Q base C (r.node verbatim) (r'.node verbatim)
  branch : ∀ verbatim, fits verbatim → ∀ base, Q base C (r.branch verbatim) (r'.branch verbatim)

/-- Sites of related elements with related parts. -/
structure Site.Parallel (site site' : Site) : Prop where
  id : site'.id = site.id
  el : F site.el site'.el
  children : Forall₂ (Rendering.Parallel fits C Q) site.children site'.children
  branches : Forall₂ (Rendering.Parallel fits C Q) site.branches site'.branches
  slots : site'.slots.isEmpty = site.slots.isEmpty
  entry : ∀ {el el' : Element}, F el el' → ∀ verbatim, fits verbatim → ∀ base,
    Q base C (slotsEntry scene el site.slots verbatim) (slotsEntry scene' el' site'.slots verbatim)

end

variable {fits : Bool → Prop} {scene scene' : Scene} {F : Element → Element → Prop}
  {C : List Code → Code → Code → Prop}
  {Q : {α : Type} → List Code → (List Code → α → α → Prop) → Generation α → Generation α → Prop}

namespace Parallel

variable {base done : List Code} {el el' : Element} (h : Parallel scene scene' F C Q)
include h

/-! ## Ways of putting together -/

section

variable {α β : Type} {R : List Code → α → α → Prop} {S : List Code → β → β → Prop}
  {x y x' y' : Generation α}

theorem map {f g : α → β} (hx : Q base R x y)
    (hf : ∀ done later a b, done <+: later → R done a b → S later (f a) (g b)) :
    Q base S (f <$> x) (g <$> y) := by
  rw [map_eq_pure_bind, map_eq_pure_bind]
  exact h.bind hx fun done a b _ hab => h.pure fun later hlater => hf done later a b hlater hab

omit h in
theorem ite (c : Prop) [Decidable c] (hx : Q base R x y) (hx' : Q base R x' y') :
    Q base R (if c then x else x') (if c then y else y') := by
  split
  · exact hx
  · exact hx'

/-- One of two generations, before the rest. -/
theorem iteBind (c : Prop) [Decidable c] {f g : α → Generation β} (hx : Q base R x y)
    (hx' : Q base R x' y')
    (hf : ∀ done a b, base <+: done → R done a b → Q done S (f a) (g b)) :
    Q base S (if c then x >>= f else x' >>= f) (if c then y >>= g else y' >>= g) :=
  ite c (h.bind hx hf) (h.bind hx' hf)

/-- A report under a condition, before the rest. -/
theorem reporting (c : Prop) [Decidable c] {u v : Generation β}
    (hu : Q base (fun _ _ _ => True) u v) (hx : ∀ base, Q base R x y) :
    Q base R (if c then u >>= fun _ => x else x) (if c then v >>= fun _ => y else y) :=
  ite c (h.bind hu fun done _ _ _ _ => hx done) (hx base)

/-- Generating the members of a list one after the other. -/
theorem mapM {γ : Type} {f g : γ → Generation Code} {l l' : List γ}
    (hl : Forall₂ (fun a b => ∀ base, Q base C (f a) (g b)) l l') (base : List Code) :
    Q base (fun done => Forall₂ (C done)) (l.mapM f) (l'.mapM g) := by
  induction hl generalizing base with
  | nil => exact h.pure fun _ _ => .nil
  | cons hab _ ih =>
    rw [mapM_cons, mapM_cons]
    refine h.bind (hab base) fun done c c' _ hc => ?_
    refine h.bind (ih done) fun more cs cs' hmore hcs => h.pure fun last hlast => ?_
    exact .cons (h.mono hc (hmore.trans hlast)) (hcs.imp fun _ _ hc => h.mono hc hlast)

end

theorem join (separator : String) {cs cs' : List Code} (hcs : Forall₂ (C done) cs cs') :
    C done (Code.join separator cs) (Code.join separator cs') := by
  induction hcs with
  | nil => exact h.text done ""
  | cons hc hcs ih =>
    cases hcs with
    | nil => exact hc
    | cons _ _ => exact h.append (h.append hc (h.text done separator)) ih

/-- The entries between brackets. -/
theorem enclosed (opening closing : String) {cs cs' : List Code} (hcs : Forall₂ (C done) cs cs') :
    C done (opening ++ Code.join "," cs ++ closing) (opening ++ Code.join "," cs' ++ closing) :=
  h.append (h.append (h.text done _) (h.join "," hcs)) (h.text done _)

section

variable {o o' : Option Code} (ho : Option.Rel (C done) o o')
include ho

omit h in
theorem toList : Forall₂ (C done) o.toList o'.toList := by
  cases ho with
  | none => exact .nil
  | some hc => exact .cons hc .nil

theorem rel_mono {later : List Code} (hle : done <+: later) : Option.Rel (C later) o o' := by
  cases ho with
  | none => exact .none
  | some hc => exact .some (h.mono hc hle)

theorem getD (s : String) : C done (o.getD (.text s)) (o'.getD (.text s)) := by
  cases ho with
  | none => exact h.text done s
  | some hc => exact hc

end

theorem none : Q base (fun done => Option.Rel (C done)) (Pure.pure Option.none)
    (Pure.pure Option.none) := h.pure fun _ _ => .none

theorem some {x y : Generation Code} (hx : Q base C x y) :
    Q base (fun done => Option.Rel (C done)) (Option.some <$> x) (Option.some <$> y) :=
  h.map hx fun _ _ _ _ hle hc => .some (h.mono hc hle)

/-! ## Parts of an element -/

section

variable {children children' : List Rendering}

omit h in
theorem onlyLoop?_cases (hchildren : Forall₂ (Rendering.Parallel fits C Q) children children') :
    onlyLoop? children = Option.none ∧ onlyLoop? children' = Option.none ∨
      ∃ r r' el el', r.Parallel fits C Q r' ∧ el'.essence = el.essence ∧
        onlyLoop? children = Option.some (r, el) ∧ onlyLoop? children' = Option.some (r', el') := by
  cases hchildren with
  | nil => exact .inl ⟨rfl, rfl⟩
  | @cons r r' rest rest' hr hrest =>
    cases hrest with
    | cons _ _ => exact .inl ⟨rfl, rfl⟩
    | nil =>
      rw [onlyLoop?, onlyLoop?]
      rcases hr.looks.element_cases with ⟨hel, hel'⟩ | ⟨el, el', hel, hel', hessence⟩
      · rw [hel, hel']
        exact .inl ⟨rfl, rfl⟩
      · have htest := read_of_essence hessence (fun el => el.loop.isSome && el.tag != "template" &&
          el.tag != "slot") fun _ => rfl
        rw [hel, hel', filter_some, filter_some, htest]
        split
        · exact .inr ⟨r, r', el, el', hr, hessence, rfl, rfl⟩
        · exact .inl ⟨rfl, rfl⟩

theorem childrenCode (hinted : Bool) {verbatim : Bool} (hfits : fits verbatim)
    (hchildren : Forall₂ (Rendering.Parallel fits C Q) children children') (base : List Code) :
    Q base (fun done => Option.Rel (C done)) (childrenCode scene hinted verbatim children)
      (childrenCode scene' hinted verbatim children') := by
  have hempty : children'.isEmpty = children.isEmpty := by cases hchildren <;> rfl
  have hplatform : scene'.platform = scene.platform := congrArg Options.platform h.options
  rw [Render.childrenCode, Render.childrenCode, hempty, hplatform]
  refine ite _ h.none ?_
  rcases onlyLoop?_cases hchildren with ⟨hloop, hloop'⟩ | ⟨r, r', el, el', hr, hessence, hloop, hloop'⟩
  · rw [hloop, hloop', flattening_of_looks (hchildren.imp fun _ _ hr => hr.looks)]
    refine h.bind (h.mapM (hchildren.imp fun _ _ hr => hr.node verbatim hfits) base) ?_
    refine fun done codes codes' _ hcodes => h.pure fun last hlast => .some ?_
    exact h.append (h.enclosed "[" "]" (hcodes.imp fun _ _ hc => h.mono hc hlast)) (h.text last _)
  · rw [hloop, hloop']
    dsimp only
    rw [read_of_essence hessence (isComponent scene.platform) fun _ => rfl]
    refine h.bind (hr.node verbatim hfits base) fun done code code' _ hcode => ?_
    exact h.pure fun last hlast => .some (h.append (h.mono hcode hlast) (h.text last _))

end

theorem choose (otherwise : String) {l l' : List (Option String × Generation Code)}
    (hl : Forall₂ (fun a b => b.1 = a.1 ∧ ∀ base, Q base C a.2 b.2) l l') (base : List Code) :
    Q base C (choose otherwise l) (choose otherwise l') := by
  induction hl generalizing base with
  | nil => exact h.pure fun done _ => h.text done otherwise
  | @cons a b l l' hab _ ih =>
    obtain ⟨guard, x⟩ := a
    obtain ⟨guard', y⟩ := b
    obtain ⟨rfl, hxy⟩ := hab
    cases guard' with
    | none => exact hxy base
    | some guard =>
      rw [Render.choose, Render.choose]
      refine h.bind (hxy base) fun done c c' _ hc => ?_
      refine h.bind (ih done) fun more d d' hmore hd => h.pure fun last hlast => ?_
      have hc' := h.mono hc (hmore.trans hlast)
      have hd' := h.mono hd hlast
      apply_rules [h.append, h.text]

theorem chosen (hel : F el el') (otherwise : String) {others others' : List (Generation Code)}
    {x y : Generation Code} (hothers : Forall₂ (fun x y => ∀ base, Q base C x y) others others')
    (hx : ∀ base, Q base C x y) (base : List Code) :
    Q base C (chosen el otherwise others x) (chosen el' otherwise others' y) := by
  have hchoice := read_of_essence (h.essence hel) Element.choice fun _ => rfl
  rw [Render.chosen, Render.chosen, hchoice]
  cases el.choice with
  | none => exact hx base
  | some choice =>
    refine h.choose otherwise ?_ base
    refine .cons ⟨rfl, hx⟩ ?_
    generalize choice.others.map Branch.guard = guards
    induction hothers generalizing guards with
    | nil =>
      rw [zip_nil_right]
      exact .nil
    | cons hab _ ih =>
      cases guards with
      | nil => exact .nil
      | cons guard guards => exact .cons ⟨rfl, hab⟩ (ih guards)

theorem repeated (hel : F el el') {x y : Generation Code} (hx : ∀ base, Q base C x y)
    (base : List Code) : Q base C (repeated scene el x) (repeated scene' el' y) := by
  have hfields := read_of_essence (h.essence hel) (fun el => (el.loop, el.tag,
    isUnkeyedList scene.platform el)) fun _ => rfl
  have hplatform : scene'.platform = scene.platform := congrArg Options.platform h.options
  simp only [Prod.mk.injEq] at hfields
  obtain ⟨hloop, htag, hunkeyed⟩ := hfields
  rw [Render.repeated, Render.repeated, hplatform, hloop, htag, hunkeyed]
  cases el.loop with
  | none => exact hx base
  | some loop =>
    refine h.reporting _ (h.tip hel _) fun base => ?_
    refine h.bind (hx base) fun done c c' _ hc => h.pure fun last hlast => ?_
    have hc' := h.mono hc hlast
    apply_rules [h.append, h.text]

/-! ## Data -/

/-- Where related code is the same, so is what depends on its text. -/
theorem slotsEntry (hsame : ∀ {done c c'}, C done c c' → c' = c) (hel : F el el') {verbatim : Bool}
    {slots slots' : List Rendering}
    (hslots : Forall₂ (fun r r' => r.Looks r' ∧ ∀ base, Q base C (r.slot verbatim) (r'.slot verbatim))
      slots slots') (base : List Code) :
    Q base C (slotsEntry scene el slots verbatim) (slotsEntry scene' el' slots' verbatim) := by
  have haround (f : Element → Bool) (hf : f ∘ Element.essence = f) :
      (scene'.tree.around el').any f = (scene.tree.around el).any f := by
    have hany := congrArg (any · f) (h.around hel)
    rwa [List.any_map, List.any_map, hf] at hany
  have hupdate : slotUpdate scene' el' slots' = slotUpdate scene el slots := by
    rw [slotUpdate, slotUpdate, any_isVolatile_of_looks (hslots.imp fun _ _ hr => hr.1),
      haround bringsScope rfl, haround (fun a => a.choice.isSome) rfl,
      read_of_essence (h.essence hel) Element.loop fun _ => rfl,
      read_of_essence (h.essence hel) Element.choice fun _ => rfl]
  rw [Render.slotsEntry, Render.slotsEntry, hupdate]
  refine h.bind (h.mapM (hslots.imp fun _ _ hr => hr.2) base) fun done codes codes' _ hcodes => ?_
  have heq : codes' = codes := by
    rw [← forall₂_eq_eq_eq]
    exact hcodes.flip.imp fun _ _ hc => hsame hc
  subst heq
  refine h.pure fun last hlast => ?_
  have hjoin := h.mono (h.join "," hcodes) hlast
  cases slotUpdate scene el slots <;> apply_rules [h.append, h.text]

theorem rootCode (hstill : fits false) {r r' : Rendering} (hr : r.Parallel fits C Q r')
    (base : List Code) : Q base C (rootCode r) (rootCode r') := by
  rw [Render.rootCode, Render.rootCode]
  rcases hr.looks.element_cases with ⟨hel, hel'⟩ | ⟨el, el', hel, hel', hessence⟩
  · rw [hel, hel']
    exact h.pure fun done _ => h.text done _
  · rw [hel, hel']
    dsimp only
    rw [read_of_essence hessence tag fun _ => rfl]
    exact ite _ (h.pure fun done _ => h.text done _) (hr.node false hstill base)

theorem inlineEntry (hstill : fits false) (hel : F el el') {children children' : List Rendering}
    (hchildren : Forall₂ (Rendering.Parallel fits C Q) children children') (base : List Code) :
    Q base (fun done => Option.Rel (C done)) ( inlineEntry? el children)
      ( inlineEntry? el' children') := by
  have hfirst : Option.Rel (Rendering.Parallel fits C Q)
      (children.head?.filter fun r => r.content.element?.isSome)
      (children'.head?.filter fun r => r.content.element?.isSome) := by
    cases hchildren with
    | nil => exact .none
    | @cons r r' _ _ hr _ =>
      have hsome := congrArg isSome hr.looks.element
      rw [isSome_map, isSome_map] at hsome
      rw [head?_cons, head?_cons, filter_some, filter_some, hsome]
      split
      · exact .some hr
      · exact .none
  rw [ inlineEntry?, inlineEntry?, hchildren.length_eq]
  generalize (children.head?.filter fun r => r.content.element?.isSome) = first at hfirst ⊢
  generalize (children'.head?.filter fun r => r.content.element?.isSome) = first' at hfirst ⊢
  cases hfirst with
  | none => exact h.reporting _ (h.error hel _) fun _ => h.none
  | some hr =>
    refine h.reporting _ (h.error hel _) fun base => ?_
    refine h.bind (h.apart (h.rootCode hstill hr [])) fun done e e' _ he => ?_
    exact h.pure fun last hlast => .some (h.mono he hlast)

theorem withComputed (el : Element) {c c' : Code} (hc : C done c c') :
    C done (withComputed el c) (withComputed el c') := by
  simp only [Render.withComputed]
  cases el.dynamicAttributes.isEmpty <;> cases el.boundObject <;> cases el.listenerObject <;>
    apply_rules [h.append, h.text]

end Parallel

/-! ## Elements -/

namespace Parallel

variable {site site' : Site} {verbatim : Bool} (h : Parallel scene scene' F C Q) (hstill : fits false)
  (hsite : site.Parallel fits scene scene' F C Q site') (hfits : fits verbatim) (base : List Code)
include h hsite

theorem read {α : Type} (f : Element → α) (hf : ∀ el, f el.essence = f el) : f site'.el = f site.el :=
  read_of_essence (h.essence hsite.el) f hf

theorem scopesByAttribute : site'.scopesByAttribute = site.scopesByAttribute := by
  rw [Site.scopesByAttribute, Site.scopesByAttribute, h.lookup hsite.el "slot-scope" (by simp)]

include hfits

theorem outlet : Q base C (site.outlet scene verbatim) (site'.outlet scene' verbatim) := by
  have hbound := h.lookup hsite.el "v-bind" (by simp)
  have hname := h.read hsite slotName fun _ => rfl
  have hshown : (site'.el.attributes ++ site'.el.dynamicAttributes).map Attribute.unplaced =
      (site.el.attributes ++ site.el.dynamicAttributes).map Attribute.unplaced := by
    have hessence := h.essence hsite.el
    rw [map_append, map_append]
    exact congrArg₂ (· ++ ·) (congrArg attributes hessence) (congrArg dynamicAttributes hessence)
  have hempty := congrArg List.isEmpty hshown
  rw [isEmpty_map, isEmpty_map] at hempty
  have hplaces (l : List Attribute) :
      properties ((l.map Attribute.unplaced).map fun a => { a with name := Text.camelize a.name }) =
        properties (l.map fun a => { a with name := Text.camelize a.name }) := by
    rw [← properties_unplaced (l.map _), List.map_map, List.map_map]
    rfl
  have hproperties : properties ((site'.el.attributes ++ site'.el.dynamicAttributes).map
        fun a => { a with name := Text.camelize a.name }) =
      properties ((site.el.attributes ++ site.el.dynamicAttributes).map
        fun a => { a with name := Text.camelize a.name }) := by
    rw [← hplaces, hshown, hplaces]
  rw [Site.outlet, Site.outlet]
  dsimp only
  rw [hbound, hname, hempty, hproperties]
  refine h.bind (h.childrenCode false hfits hsite.children base) fun done code code' _ hcode => ?_
  refine h.pure fun last hlast => ?_
  generalize site.el.attribute? "v-bind" = bound
  generalize (if (site.el.attributes ++ site.el.dynamicAttributes).isEmpty = true then Option.none
    else Option.some (properties _)) = attributes
  refine h.append (h.append (h.append (h.append (h.text _ _) (h.text _ _)) ?_) ?_) (h.text _ _)
  · cases hcode with
    | none => cases (attributes.isSome || bound.isSome) <;> exact h.text _ _
    | some hc => exact h.append (h.append (h.text _ _) (h.mono hc hlast)) (h.text _ _)
  · cases attributes <;> cases bound <;> apply_rules [h.append, h.text]

theorem innerChildren :
    Q base (fun done => Option.Rel (C done)) (site.innerChildren scene verbatim)
      (site'.innerChildren scene' verbatim) := by
  rw [Site.innerChildren, Site.innerChildren, h.read hsite inlineTemplate fun _ => rfl]
  exact ite _ h.none (h.childrenCode true hfits hsite.children base)

include hstill

/-- The data object: directives, own entries, slots and a template inside, in this order. -/
theorem data : Q base C (site.data scene verbatim) (site'.data scene' verbatim) := by
  rw [Site.data, Site.data, dataCode, dataCode, hsite.id, hsite.slots]
  refine h.bind (h.rules hsite.el) ?_
  rintro done ⟨el, _⟩ ⟨el', directives⟩ - ⟨hel, rfl⟩
  have hfields := read_of_essence (h.essence hel) (fun el => (el.inlineTemplate, el.model)) fun _ => rfl
  simp only [Prod.mk.injEq] at hfields
  have hown := ownEntries_of_essence (h.essence hel) (fun x hx => (h.extensions hel x hx).1)
    (scene.tree.isVerbatim site.id) directives
  have hscene : ownEntries scene' (scene'.tree.isVerbatim site.id) el' directives =
      ownEntries scene (scene.tree.isVerbatim site.id) el' directives := by
    rw [h.verbatim, ownEntries, ownEntries, h.options]
  dsimp only
  rw [hscene, hown, hfields.1, hfields.2]
  refine h.iteBind _ h.none (h.some (hsite.entry hel verbatim hfits done)) ?_
  intro more entry entry' _ hentry
  refine h.iteBind _ (h.inlineEntry hstill hel hsite.children more) h.none ?_
  intro most inlined inlined' hmost hinlined
  refine h.pure fun last hlast => ?_
  rw [withComputed_of_essence (h.essence hel)]
  have htexts (l : List String) : Forall₂ (C last) (l.map Code.text) (l.map Code.text) := by
    rw [forall₂_map_left_iff, forall₂_map_right_iff, forall₂_same]
    exact fun s _ => h.text last s
  refine h.withComputed el (h.enclosed _ _ (rel_append (rel_append (rel_append (htexts _) ?_) ?_) ?_))
  · exact toList (h.rel_mono hentry (hmost.trans hlast))
  · cases el.model with
    | none => exact .nil
    | some m => exact .cons (h.text last _) .nil
  · exact toList (h.rel_mono hinlined hlast)

theorem component : Q base C (site.component scene verbatim) (site'.component scene' verbatim) := by
  rw [Site.component, Site.component, h.read hsite Element.component fun _ => rfl]
  refine h.bind (h.innerChildren hsite hfits base) fun done children children' _ hchildren => ?_
  refine h.bind (h.data hstill hsite hfits done) fun more data data' hmore hdata => ?_
  refine h.pure fun last hlast => h.enclosed _ _ (.cons (h.text last _) (.cons (h.mono hdata hlast) ?_))
  exact toList (h.rel_mono hchildren (hmore.trans hlast))

theorem element : Q base C (site.element scene verbatim) (site'.element scene' verbatim) := by
  have hfields := h.read hsite (fun el => (el.plain, el.tag, el.isComponent scene.options.platform))
    fun _ => rfl
  simp only [Prod.mk.injEq] at hfields
  have hdata : site'.hasData scene' = site.hasData scene := by
    rw [Site.hasData, Site.hasData, Scene.platform, Scene.platform, hsite.id, h.verbatim, h.options,
      hfields.1, hfields.2.2]
  have hname : site'.constructorName scene' = site.constructorName scene := by
    rw [Site.constructorName, Site.constructorName, Scene.platform, Scene.platform, h.options,
      hfields.2.1, hfields.2.2]
  rw [Site.element, Site.element, hdata, hname]
  refine h.iteBind _ (h.some (h.data hstill hsite hfits base)) h.none ?_
  intro done data data' _ hdata
  refine h.bind (h.innerChildren hsite hfits done) fun more children children' hmore hchildren => ?_
  refine h.pure fun last hlast => h.enclosed _ _ (.cons (h.text last _) (rel_append ?_ ?_))
  · exact toList (h.rel_mono hdata (hmore.trans hlast))
  · exact toList (h.rel_mono hchildren hlast)

omit hstill hfits in
theorem surrounded {c c' : Code} (hc : C done c c') :
    C done (site.surrounded scene c) (site'.surrounded scene' c') := by
  have hfold (extensions : List Extension)
      (hx : ∀ x ∈ extensions, x.around site'.el = x.around site.el) : C done
        (extensions.foldl (fun code x => (x.around site.el).1 ++ code ++ (x.around site.el).2) c)
        (extensions.foldl (fun code x => (x.around site'.el).1 ++ code ++ (x.around site'.el).2)
          c') := by
    induction extensions generalizing c c' with
    | nil => exact hc
    | cons x extensions ih =>
      rw [foldl_cons, foldl_cons, hx x mem_cons_self]
      refine ih ?_ fun y hy => hx y (mem_cons_of_mem x hy)
      exact h.append (h.append (h.text done _) hc) (h.text done _)
  rw [Site.surrounded, Site.surrounded, h.options]
  exact hfold _ fun x hx => (h.extensions hsite.el x hx).2

/-- The element inside its wrappers. -/
theorem inside : Q base C (site.inside scene verbatim) (site'.inside scene' verbatim) := by
  rw [Site.inside, Site.inside, h.read hsite (Route.inside verbatim) fun _ => rfl]
  cases Route.inside verbatim site.el with
  | children =>
    refine h.bind (h.childrenCode false hfits hsite.children base) fun done code code' _ hcode => ?_
    exact h.pure fun last hlast => h.getD (h.rel_mono hcode hlast) "void 0"
  | outlet => exact h.outlet hsite hfits base
  | component =>
    exact h.map (h.component hstill hsite hfits base) fun _ _ _ _ hle hc =>
      h.surrounded hsite (h.mono hc hle)
  | hoist | once | loop | choice | element =>
    exact h.map (h.element hstill hsite hfits base) fun _ _ _ _ hle hc =>
      h.surrounded hsite (h.mono hc hle)

omit hstill in
theorem withChoice (pending : Pending) {x y : Generation Code} (hx : ∀ base, Q base C x y) :
    Q base C (site.withChoice pending verbatim x) (site'.withChoice pending verbatim y) := by
  rw [Site.withChoice, Site.withChoice]
  refine ite _ (h.chosen hsite.el "_e()" ?_ hx base) (hx base)
  rw [Site.otherBranches, Site.otherBranches, forall₂_map_left_iff, forall₂_map_right_iff]
  exact hsite.branches.imp fun _ _ hr => hr.branch verbatim hfits

omit hstill hfits in
theorem withLoop (pending : Pending) {x y : Generation Code} (hx : ∀ base, Q base C x y) :
    Q base C (site.withLoop scene pending x) (site'.withLoop scene' pending y) :=
  ite _ (h.repeated hsite.el hx base) (hx base)

omit hstill in
theorem slotBody (hwrapped : ∀ base, Q base C
      (site.wrapped scene { loop := false, choice := site.scopesByAttribute } verbatim)
      (site'.wrapped scene' { loop := false, choice := site.scopesByAttribute } verbatim)) :
    Q base C (site.slotBody scene verbatim) (site'.slotBody scene' verbatim) := by
  rw [Site.slotBody, Site.slotBody, h.scopesByAttribute hsite, h.read hsite Element.choice fun _ => rfl,
    h.read hsite tag fun _ => rfl]
  refine ite _ ?_ (hwrapped base)
  refine h.bind (h.childrenCode false hfits hsite.children base) fun done code code' _ hcode => ?_
  refine h.pure fun last hlast => ?_
  have hbody := h.getD (h.rel_mono hcode hlast) "undefined"
  cases site.el.choice with
  | none => exact hbody
  | some choice =>
    cases site.scopesByAttribute with
    | false => exact hbody
    | true => apply_rules [h.append, h.text]

omit hstill in
/-- The element as content of a slot. -/
theorem slot (hwrapped : ∀ base, Q base C
      (site.wrapped scene { loop := false, choice := site.scopesByAttribute } verbatim)
      (site'.wrapped scene' { loop := false, choice := site.scopesByAttribute } verbatim))
    (hbranches : Forall₂ (fun r r' => ∀ base, Q base C (r.slot verbatim) (r'.slot verbatim))
      site.branches site'.branches) :
    Q base C (site.slot scene verbatim) (site'.slot scene' verbatim) := by
  have hentry (base : List Code) :
      Q base C (site.slotEntry scene verbatim) (site'.slotEntry scene' verbatim) := by
    rw [Site.slotEntry, Site.slotEntry, h.read hsite slotScope fun _ => rfl,
      h.read hsite slotTarget fun _ => rfl]
    refine h.bind (h.slotBody hsite hfits base hwrapped) fun done code code' _ hcode => ?_
    refine h.pure fun last hlast => ?_
    have hcode' := h.mono hcode hlast
    apply_rules [h.append, h.text]
  have hrepeated := h.repeated hsite.el hentry
  rw [Site.slot, Site.slot, h.scopesByAttribute hsite]
  refine ite _ (hrepeated base) (h.chosen hsite.el "null" ?_ hrepeated base)
  rw [forall₂_map_left_iff, forall₂_map_right_iff]
  exact hbranches

end Parallel

end Render

end ViewTemplate
