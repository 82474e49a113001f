import ViewTemplate.Proofs.Collecting
import ViewTemplate.Proofs.ParallelGeneration

/-! # Facts that follow the way generation is put together

What is written for a content is put together from values, from one generation after the other, and
from the few things that are done for an element: rules are applied, something is reported, code is
moved into a function or marked, and a template inside a template is generated. A fact that holds of
each of these holds of all that is written for a content.
-/

open List Option

namespace ViewTemplate.Render

/-- Whether an element is moved into a function of its own. -/
def movesApart (el : Element) : Bool := el.staticRoot || el.once && !el.staticInLoop

/-- What may be moved into a function for an element: all that is still to be written for it, or, where
it is rendered once, its loop and what is inside. -/
inductive Site.Body (scene : Scene) (site : Site) : (Bool → Generation Code) → Prop
  | whole (pending : Pending) : Body scene site fun verbatim =>
    if site.el.once then site.once scene pending site.el.staticRoot verbatim
    else site.withLoop scene pending (site.withChoice pending verbatim (site.inside scene verbatim))
  | once (pending : Pending) : Body scene site fun verbatim =>
    site.withLoop scene pending (site.inside scene verbatim)

/-- A fact `Q` about generations and what they give, which follows the way in which generation is put
together, where the elements at their places have a property `E`, those that rules may have worked on
have `F`, and code has `C`. -/
structure Compositional (scene : Scene) (E : NodeId → Element → Prop) (F : Element → Prop)
    (C : Code → Prop) (Q : {α : Type} → (α → Prop) → Generation α → Prop) : Prop where
  text : ∀ s, C (.text s)
  append : ∀ {c d : Code}, C c → C d → C (c ++ d)
  inlined : ∀ {c : Code} {functions : List Code}, C c → (∀ f ∈ functions, C f) →
    C (.inlined c functions)
  pure : ∀ {α : Type} {R : α → Prop} {a : α}, R a → Q R (pure a)
  bind : ∀ {α β : Type} {R : α → Prop} {S : β → Prop} {x : Generation α} {f : α → Generation β},
    Q R x → (∀ a, R a → Q S (f a)) → Q S (x >>= f)
  apart : ∀ {x : Generation Code}, Q C x →
    Q (fun e => C e.1 ∧ ∀ f ∈ e.2, C f) (Generation.apart x)
  known : ∀ {id : NodeId} {el : Element}, E id el → F el
  rules : ∀ {el : Element}, F el →
    Q (fun e => F e.1) (StateT.lift (applyRules scene el.directives el))
  tip : ∀ {el : Element}, F el → ∀ notice,
    Q (fun _ => True) (Generation.tip notice (el.rangeOf "v-for"))
  error : ∀ {el : Element}, F el → ∀ notice, Q (fun _ => True) (Generation.error notice el.range)
  onceInLoop : ∀ {el : Element}, F el → ∀ {x : Generation Code}, Q C x →
    Q C (onceInLoop scene el x)
  hoisted : ∀ {site : Site}, E site.id site.el → movesApart site.el = true →
    ∀ {body : Bool → Generation Code}, site.Body scene body → (∀ verbatim, Q C (body verbatim)) →
      ∀ verbatim, Q C (site.hoisted scene body verbatim)

/-- A rendering of which a fact holds in every place. -/
structure Rendering.Everywhere (Q : Generation Code → Prop) (r : Rendering) : Prop where
  node : ∀ verbatim, Q (r.node verbatim)
  branch : ∀ verbatim, Q (r.branch verbatim)
  slot : ∀ verbatim, Q (r.slot verbatim)

/-- A site with an element of the given kind, whose parts have a fact in every place. -/
structure Site.Everywhere (E : NodeId → Element → Prop) (Q : Generation Code → Prop) (site : Site) :
    Prop where
  self : E site.id site.el
  children : ∀ r ∈ site.children, r.Everywhere Q
  branches : ∀ r ∈ site.branches, r.Everywhere Q
  slots : ∀ r ∈ site.slots, r.Everywhere Q

/-- Code that is the same, and of a kind. -/
def Itself (C : Code → Prop) (_ : List Code) (c c' : Code) : Prop := C c ∧ c' = c

/-- A fact about the first of two generations, of which something is said side by side. -/
def Alone (Q : {α : Type} → (α → Prop) → Generation α → Prop) {α : Type} (base : List Code)
    (R : List Code → α → α → Prop) (x _ : Generation α) : Prop :=
  Q (fun a => ∃ b, ∀ done, base <+: done → R done a b) x

namespace Compositional

variable {scene : Scene} {E : NodeId → Element → Prop} {F : Element → Prop} {C : Code → Prop}
  {Q : {α : Type} → (α → Prop) → Generation α → Prop} (h : Compositional scene E F C Q)
include h

/-! ## A generation beside itself -/

theorem weaken {α : Type} {R S : α → Prop} {x : Generation α} (hx : Q R x) (hR : ∀ a, R a → S a) :
    Q S x := by
  have hbind := h.bind hx fun a ha => h.pure (hR a ha)
  rwa [bind_pure] at hbind

section

variable {x y : Generation Code} {base : List Code}

theorem alone (hx : Q C x) (base : List Code) : Alone Q base (Itself C) x x :=
  h.weaken hx fun c hc => ⟨c, fun _ _ => ⟨hc, rfl⟩⟩

theorem of_alone (hx : Alone Q base (Itself C) x y) : Q C x := by
  refine h.weaken hx ?_
  rintro c ⟨_, hc⟩
  exact (hc base (prefix_refl base)).1

end

/-- What follows the way in which generation is put together does so beside itself. -/
theorem parallel : Parallel scene scene (fun el el' => F el ∧ el' = el) (Itself C) (Alone Q) where
  text _ s := ⟨h.text s, rfl⟩
  append hc hd := ⟨h.append hc.1 hd.1, by rw [hc.2, hd.2]⟩
  mono hc _ := hc
  pure hR := h.pure ⟨_, hR⟩
  bind := by
    intro _ _ base _ _ _ _ _ _ hx hf
    refine h.bind hx ?_
    rintro a ⟨b, hb⟩
    exact hf base a b (prefix_refl base) (hb base (prefix_refl base))
  apart hx := h.weaken (h.apart (h.of_alone hx)) fun e he =>
    ⟨e, fun _ _ => ⟨h.inlined he.1 he.2, rfl⟩⟩
  options := rfl
  verbatim _ := rfl
  essence hel := congrArg Element.essence hel.2
  around hel := by rw [hel.2]
  lookup hel _ _ := by rw [hel.2]
  extensions hel _ _ := by rw [hel.2]; exact ⟨rfl, rfl⟩
  rules := by
    rintro _ el _ ⟨hel, rfl⟩
    exact h.weaken (h.rules hel) fun e he => ⟨e, fun _ _ => ⟨⟨he, rfl⟩, rfl⟩⟩
  tip hel notice := h.weaken (h.tip hel.1 notice) fun e _ => ⟨e, fun _ _ => trivial⟩
  error hel notice := h.weaken (h.error hel.1 notice) fun e _ => ⟨e, fun _ _ => trivial⟩

theorem parallel_rendering {r : Rendering} (hr : r.Everywhere (Q C)) :
    r.Parallel (fun _ => True) (Itself C) (Alone Q) r :=
  ⟨.refl r, fun verbatim _ => h.alone (hr.node verbatim),
    fun verbatim _ => h.alone (hr.branch verbatim)⟩

theorem rootCode {r : Rendering} (hr : r.Everywhere (Q C)) : Q C (rootCode r) :=
  h.of_alone (h.parallel.rootCode trivial (h.parallel_rendering hr) [])

/-! ## Elements -/

section

variable {site : Site} (hsite : site.Everywhere E (Q C))
include hsite

theorem parallel_site : site.Parallel (fun _ => True) scene scene (fun el el' => F el ∧ el' = el)
    (Itself C) (Alone Q) site where
  id := rfl
  el := ⟨h.known hsite.self, rfl⟩
  children := forall₂_same.mpr fun r hr => h.parallel_rendering (hsite.children r hr)
  branches := forall₂_same.mpr fun r hr => h.parallel_rendering (hsite.branches r hr)
  slots := rfl
  entry hel verbatim _ := h.parallel.slotsEntry And.right hel (forall₂_same.mpr fun r hr =>
    ⟨.refl r, h.alone ((hsite.slots r hr).slot verbatim)⟩)

theorem inside (verbatim : Bool) : Q C (site.inside scene verbatim) :=
  h.of_alone (h.parallel.inside trivial (h.parallel_site hsite) trivial [])

theorem withChoice (pending : Pending) (verbatim : Bool) {code : Generation Code} (hcode : Q C code) :
    Q C (site.withChoice pending verbatim code) :=
  h.of_alone (h.parallel.withChoice (h.parallel_site hsite) trivial [] pending (h.alone hcode))

theorem withLoop (pending : Pending) {code : Generation Code} (hcode : Q C code) :
    Q C (site.withLoop scene pending code) :=
  h.of_alone (h.parallel.withLoop (h.parallel_site hsite) [] pending (h.alone hcode))

theorem once (honce : site.el.once = true) (pending : Pending) (apart verbatim : Bool) :
    Q C (site.once scene pending apart verbatim) := by
  have hcode (verbatim : Bool) : Q C (site.withLoop scene pending (site.inside scene verbatim)) :=
    h.withLoop hsite pending (h.inside hsite verbatim)
  apply h.withChoice hsite
  split
  · apply h.onceInLoop (h.known hsite.self)
    split
    · rename_i hroot
      rw [Bool.and_eq_true] at hroot
      exact h.hoisted hsite.self (by simp [movesApart, hroot.1]) (.once pending) hcode verbatim
    · exact hcode verbatim
  · rename_i hloop
    exact h.hoisted hsite.self (by simp [movesApart, honce, hloop]) (.once pending) hcode verbatim

/-- The element in all its wrappers. -/
theorem wrapped (pending : Pending) (verbatim : Bool) : Q C (site.wrapped scene pending verbatim) := by
  have hcode (verbatim : Bool) : Q C
      (if site.el.once then site.once scene pending site.el.staticRoot verbatim
      else site.withLoop scene pending
        (site.withChoice pending verbatim (site.inside scene verbatim))) := by
    split
    · rename_i honce
      exact h.once hsite honce pending _ verbatim
    · exact h.withLoop hsite pending (h.withChoice hsite pending verbatim (h.inside hsite verbatim))
  rw [Site.wrapped]
  split
  · rename_i hroot
    exact h.hoisted hsite.self (by simp [movesApart, hroot]) (.whole pending) hcode verbatim
  · exact hcode verbatim

theorem branch (verbatim : Bool) : Q C (site.branch scene verbatim) := by
  rw [Site.branch]
  split
  · rename_i honce
    exact h.once hsite honce {} false verbatim
  · exact h.wrapped hsite {} verbatim

theorem slot (verbatim : Bool) : Q C (site.slot scene verbatim) :=
  h.of_alone (h.parallel.slot (h.parallel_site hsite) trivial []
    (h.alone (h.wrapped hsite _ verbatim))
    (forall₂_same.mpr fun r hr => h.alone ((hsite.branches r hr).slot verbatim)))

end

end Compositional

/-! ## Contents -/

variable {scene : Scene} {E : NodeId → Element → Prop} {F : Element → Prop} {C : Code → Prop}
  {Q : {α : Type} → (α → Prop) → Generation α → Prop}

/-- A fact that follows the way in which generation is put together holds of what is written for a
content. -/
theorem Compositional.rendering (h : Compositional scene E F C Q) {c : Content}
    (hnodes : ∀ id el, (id, .element el) ∈ c.nodes → E id el) :
    (rendering scene c).Everywhere (Q C) := by
  have hleaf (c : Content) (code : String) : (leaf c code).Everywhere (Q C) :=
    ⟨fun _ => h.pure (h.text code), fun _ => h.pure (h.text code), fun _ => h.pure (h.text code)⟩
  let N (id : NodeId) (node : Node) : Prop := ∀ el, node = .element el → E id el
  refine rendering_of_nodes (N := N) (fun _ _ _ => hleaf ..) (fun _ _ _ => hleaf ..) ?_ ?_
  · intro site content hself hchildren hbranches hslots
    have hsite : site.Everywhere E (Q C) := ⟨hself site.el rfl, hchildren, hbranches, hslots⟩
    exact ⟨h.wrapped hsite {}, h.branch hsite, h.slot hsite⟩
  · rintro ⟨id, node⟩ he el rfl
    exact hnodes id el he

/-- It holds of what is written for a tree. -/
theorem Compositional.generation (h : Compositional scene E F C Q) {tree : Tree}
    (hnodes : ∀ root id el, (id, .element el) ∈ (tree.content root).nodes → E id el) :
    Q C (generation scene tree.rootContent?) := by
  rw [Tree.rootContent?]
  cases tree.root with
  | none => exact h.pure (h.text _)
  | some root => exact h.rootCode (h.rendering (hnodes root))

end ViewTemplate.Render
